import Mathlib.Algebra.Group.Nat.Defs
import Mathlib.Data.List.Basic
import Mathlib.Data.Fintype.Basic
import Mathlib.Logic.Function.Basic

/-!
# One consensus node

The actor of `efis/src/consensus.rs`, one function of the source at a time.  A node is a
`Consensus` record, and every handler is a pure function of it: the new record, together with
whatever the handler hands to the outside (requests for the peers, a reply, the entries put on
the commit channel).  A handler that can panic returns an `Option`; `none` is the panic, after
which the actor task is gone.

The record is generic in three things the actor never looks into:

* `C`, the commands.  They are appended, sent and handed on, never inspected.
* `P`, the connection to a peer (`Arc<Client>` in the source).
* `σ`, the storage behind the `Storage` trait.

Counters are natural numbers.  The one addition that can leave the range of `usize` is the
`current_term += 1` of `startElection`, and it is checked there.  The process-wide `LEADER_ID` is
a field of the node, since there is one node in a process, and `election_reset_event` is not
modelled: whether enough time has passed is an argument of `onStartElection`.
-/

set_option autoImplicit false

namespace Efis

/-- The largest `usize`. -/
def usizeMax : ℕ := 2 ^ 64 - 1

/-! ## The data model -/

/-- The role of a node. -/
inductive State where
  | follower
  | candidate
  | leader
  | dead
  deriving DecidableEq, Repr

/-- An entry of the replicated log. -/
structure LogEntry (C : Type) where
  /-- The client's command. -/
  command : C
  /-- The term of the leader that appended it. -/
  term : ℕ
  deriving DecidableEq, Repr

/-- What `sendCommits` puts on the commit channel. -/
structure CommitEntry (C : Type) where
  /-- The committed command. -/
  command : C
  /-- The term of the node when it emitted the entry. -/
  term : ℕ
  /-- The index of the entry in the log. -/
  index : ℕ
  deriving DecidableEq, Repr

/-- The metadata a node keeps on disk. -/
structure PersistentState where
  currentTerm : ℕ
  votedFor : Option String
  lastApplied : Option ℕ
  deriving DecidableEq, Repr

/-- `PersistentState::default`, what a new directory restores to. -/
def PersistentState.default : PersistentState := ⟨0, none, none⟩

structure RequestVote where
  term : ℕ
  candidateId : String
  lastLogIndex : ℕ
  lastLogTerm : ℕ
  deriving DecidableEq, Repr

structure RequestVoteReply where
  term : ℕ
  voted : Bool
  deriving DecidableEq, Repr

structure AppendEntries (C : Type) where
  term : ℕ
  leader : String
  prevLogIndex : Option ℕ
  prevLogTerm : Option ℕ
  entries : List (LogEntry C)
  leaderCommit : Option ℕ
  deriving DecidableEq, Repr

structure AppendEntriesReply where
  term : ℕ
  success : Bool
  conflictIndex : Option ℕ
  conflictTerm : Option ℕ
  deriving DecidableEq, Repr

/-- The `Storage` trait.  The `Bool` of the two writers says whether they returned `Ok`, and
`restore` is `none` when it fails. -/
class Storage (σ : Type) (C : outParam Type) where
  store : PersistentState → σ → Bool × σ
  restore : σ → Option (PersistentState × List (LogEntry C))
  appendEntry : List (LogEntry C) → σ → Bool × σ

/-- `MockStorage`, the storage of the tests: the metadata and a list of entries, in memory. -/
structure MockStorage (C : Type) where
  state : PersistentState
  logs : List (LogEntry C)
  deriving DecidableEq

instance (C : Type) : Storage (MockStorage C) C where
  store state st := (true, { st with state := state })
  restore st := some (st.state, st.logs)
  appendEntry entries st := (true, { st with logs := st.logs ++ entries })

/-- A consensus node. -/
structure Consensus (σ C P : Type) where
  id : String
  /-- The peers, each with the number its `nextIndex` and `matchIndex` are filed under. -/
  peers : List (ℕ × P)
  storage : σ
  currentTerm : ℕ
  votedFor : Option String
  voteCount : ℕ
  logs : List (LogEntry C)
  /-- The cursor of `persistState`: the last index handed to the storage, and `0` before. -/
  lastPersistedLog : ℕ
  /-- The length of the log as the handle sees it. -/
  logIndex : ℕ
  commitIndex : Option ℕ
  lastApplied : Option ℕ
  state : State
  nextIndex : ℕ → Option ℕ
  matchIndex : ℕ → Option ℕ
  /-- The process-wide `LEADER_ID`. -/
  leaderId : Option String

/-- An `AppendEntries` call under way: the peer it goes to, and the peer number and next index
its task keeps for the reply. -/
structure AppendCall (C P : Type) where
  client : P
  peerId : ℕ
  ni : ℕ
  req : AppendEntries C

/-- The index and the term of the last entry, as `last_log` reports them. -/
structure LastLog where
  index : ℕ
  term : ℕ
  deriving DecidableEq, Repr

/-- The slice `l[i..]`, which panics past the end. -/
def sliceFrom {α : Type} (l : List α) (i : ℕ) : Option (List α) :=
  if i ≤ l.length then some (l.drop i) else none

/-- The slice `l[i..=j]` for `i ≤ j`, which panics unless `j` is an index. -/
def sliceIncl {α : Type} (l : List α) (i j : ℕ) : Option (List α) :=
  if j < l.length then some ((l.take (j + 1)).drop i) else none

/-- `last_log`: the empty log reports index `0` and term `0`. -/
def lastLogOf {C : Type} (logs : List (LogEntry C)) : LastLog :=
  match logs.getLast? with
  | some e => ⟨logs.length - 1, e.term⟩
  | none => ⟨0, 0⟩

namespace Consensus

variable {σ C P : Type} [Storage σ C]

/-! ## Persistence -/

/-- The first index `persist_state` writes: a cursor of `0` stands for "nothing yet". -/
def persistStart (n : Consensus σ C P) : ℕ :=
  if n.lastPersistedLog = 0 ∧ 0 < n.logs.length then 0 else n.lastPersistedLog + 1

/-- The storage and the cursor after `persist_state`: the metadata first, and then the entries
from the cursor on.  A failed write is logged and otherwise ignored. -/
def persisted (n : Consensus σ C P) : σ × ℕ :=
  let st := (Storage.store ⟨n.currentTerm, n.votedFor, n.lastApplied⟩ n.storage).2
  if 0 < n.logs.length ∧ n.persistStart ≤ n.logs.length - 1 then
    let res := Storage.appendEntry (n.logs.drop n.persistStart) st
    (res.2, if res.1 then n.logs.length - 1 else n.lastPersistedLog)
  else (st, n.lastPersistedLog)

/-- `persist_state`. -/
def persistState (n : Consensus σ C P) : Consensus σ C P :=
  { n with storage := n.persisted.1, lastPersistedLog := n.persisted.2 }

@[simp] theorem persistState_id (n : Consensus σ C P) : n.persistState.id = n.id := rfl
@[simp] theorem persistState_peers (n : Consensus σ C P) : n.persistState.peers = n.peers := rfl
@[simp] theorem persistState_currentTerm (n : Consensus σ C P) :
    n.persistState.currentTerm = n.currentTerm := rfl
@[simp] theorem persistState_votedFor (n : Consensus σ C P) :
    n.persistState.votedFor = n.votedFor := rfl
@[simp] theorem persistState_voteCount (n : Consensus σ C P) :
    n.persistState.voteCount = n.voteCount := rfl
@[simp] theorem persistState_logs (n : Consensus σ C P) : n.persistState.logs = n.logs := rfl
@[simp] theorem persistState_logIndex (n : Consensus σ C P) :
    n.persistState.logIndex = n.logIndex := rfl
@[simp] theorem persistState_commitIndex (n : Consensus σ C P) :
    n.persistState.commitIndex = n.commitIndex := rfl
@[simp] theorem persistState_lastApplied (n : Consensus σ C P) :
    n.persistState.lastApplied = n.lastApplied := rfl
@[simp] theorem persistState_state (n : Consensus σ C P) : n.persistState.state = n.state := rfl

/-- `restore_state`.  The source then clears a vote of an older term, comparing the restored term
with itself, so that test never fires and is not repeated here. -/
def restoreState (n : Consensus σ C P) : Consensus σ C P :=
  match Storage.restore n.storage with
  | some (old, logs) =>
    { n with
      currentTerm := old.currentTerm
      lastApplied := old.lastApplied
      logIndex := logs.length
      logs := logs
      votedFor := old.votedFor
      lastPersistedLog := if logs.isEmpty then n.lastPersistedLog else logs.length - 1
      state := .follower }
  | none =>
    { n with currentTerm := 0, votedFor := none, lastApplied := none, state := .follower }

/-- `Consensus::new`, before `start` has set the peers. -/
def new (id : String) (storage : σ) : Consensus σ C P :=
  restoreState
    { id := id, peers := [], storage := storage, currentTerm := 0, votedFor := none
      voteCount := 0, logs := [], lastPersistedLog := 0, logIndex := 0, commitIndex := none
      lastApplied := none, state := .follower, nextIndex := fun _ ↦ none
      matchIndex := fun _ ↦ none, leaderId := none }

/-- The number a peer is filed under: the last character of its URL, which has to be a digit. -/
def peerId (url : String) : Option ℕ :=
  url.toList.getLast?.bind fun c ↦ if c.isDigit then some (c.toNat - '0'.toNat) else none

/-- The peers `start` builds from the configured URLs, each with its connection. -/
def start (n : Consensus σ C P) (urls : List (String × P)) : Option (Consensus σ C P) :=
  (urls.mapM fun u ↦ (peerId u.1).map fun i ↦ (i, u.2)).map fun peers ↦ { n with peers := peers }

/-! ## Changes of role -/

/-- `become_follower`. -/
def becomeFollower (n : Consensus σ C P) (term : ℕ) : Consensus σ C P :=
  persistState
    { n with state := .follower, currentTerm := term, votedFor := none, leaderId := none }

/-- The first thing both requests do: step down if the sender's term is later. -/
def stepDown (n : Consensus σ C P) (term : ℕ) : Consensus σ C P :=
  if n.currentTerm < term then n.becomeFollower term else n

def lastLog (n : Consensus σ C P) : LastLog := lastLogOf n.logs

/-- `start_election`, with the requests it sends.  It fails when the term leaves `usize`. -/
def startElection (n : Consensus σ C P) : Option (Consensus σ C P × List (P × RequestVote)) :=
  if n.currentTerm < usizeMax then
    let c := persistState
      { n with state := .candidate, currentTerm := n.currentTerm + 1, votedFor := some n.id }
    let req : RequestVote := ⟨c.currentTerm, c.id, c.lastLog.index, c.lastLog.term⟩
    some ({ c with voteCount := 1 }, c.peers.map fun p ↦ (p.2, req))
  else none

/-- The `StartElection` arm of the loop.  `elapsed` says whether the timeout has run out since
the last reset. -/
def onStartElection (n : Consensus σ C P) (elapsed : Bool) :
    Option (Consensus σ C P × List (P × RequestVote)) :=
  if (n.state = .candidate ∨ n.state = .follower) ∧ elapsed then n.startElection
  else some (n, [])

/-- File the same value under the number of every peer, in the order of the peers. -/
def fileAll (peers : List (ℕ × P)) (m : ℕ → Option ℕ) (v : ℕ) : ℕ → Option ℕ :=
  peers.foldl (fun m p ↦ Function.update m p.1 (some v)) m

/-- `start_leader`. -/
def startLeader (n : Consensus σ C P) : Consensus σ C P :=
  { n with
    state := .leader
    leaderId := some n.id
    nextIndex := fileAll n.peers n.nextIndex n.logs.length
    matchIndex := fileAll n.peers n.matchIndex 0 }

/-- The number of votes that wins an election. -/
def quorum (n : Consensus σ C P) : ℕ := (n.peers.length + 1) / 2 + 1

/-- The `VoteResult` arm of the loop. -/
def onVoteResult (n : Consensus σ C P) (term : ℕ) (voted : Bool) : Consensus σ C P :=
  if n.state ≠ .candidate then n
  else if term < n.currentTerm then n
  else if n.currentTerm < term then n.becomeFollower term
  else if voted then
    let c := { n with voteCount := n.voteCount + 1 }
    if c.quorum ≤ c.voteCount then c.startLeader else c
  else n

/-! ## The two requests -/

/-- The `up_to_date` test of `_request_vote`. -/
def upToDate (req : RequestVote) (l : LastLog) : Bool :=
  decide (l.term < req.lastLogTerm) ||
    (decide (req.lastLogTerm = l.term) && decide (l.index ≤ req.lastLogIndex))

/-- `_request_vote`. -/
def requestVote (n : Consensus σ C P) (req : RequestVote) :
    Consensus σ C P × Except String RequestVoteReply :=
  if n.state = .dead then (n, .error "node is dead")
  else
    let lastLog := n.lastLog
    let c := n.stepDown req.term
    if req.term = c.currentTerm ∧ (c.votedFor = none ∨ c.votedFor = some req.candidateId) ∧
        upToDate req lastLog = true then
      (persistState { c with votedFor := some req.candidateId }, .ok ⟨c.currentTerm, true⟩)
    else (c, .ok ⟨c.currentTerm, false⟩)

/-- `prev_ok`: the follower has the entry before the new ones, with the leader's term. -/
def prevOk (logs : List (LogEntry C)) (prevLogIndex prevLogTerm : Option ℕ) : Bool :=
  match prevLogIndex, prevLogTerm with
  | none, _ => true
  | some idx, some term =>
    match logs[idx]? with
    | some e => e.term = term
    | none => false
  | some _, none => false

/-- Walk down from `idx` while the entry below has the same term. -/
def firstIndexOfTerm (logs : List (LogEntry C)) (term : ℕ) : ℕ → ℕ
  | 0 => 0
  | i + 1 =>
    if logs[i]?.map LogEntry.term = some term then firstIndexOfTerm logs term i else i + 1

/-- The `conflict_index` and `conflict_term` of a rejection. -/
def conflict (logs : List (LogEntry C)) (prevLogIndex : Option ℕ) : Option ℕ × Option ℕ :=
  match prevLogIndex with
  | some idx =>
    match logs[idx]? with
    | none => (some logs.length, none)
    | some e => (some (firstIndexOfTerm logs e.term idx), some e.term)
  | none => (some 0, none)

/-- How many of the new entries the log already has, comparing terms only. -/
def matchLen : List (LogEntry C) → List (LogEntry C) → ℕ
  | e :: es, f :: fs => if e.term = f.term then matchLen es fs + 1 else 0
  | _, _ => 0

/-- The log after the entries were merged in at `insertAt`: it is cut at the first entry whose
term differs, and only if there is something to put there. -/
def splice (logs : List (LogEntry C)) (insertAt : ℕ) (entries : List (LogEntry C)) :
    List (LogEntry C) :=
  let newIdx := matchLen (logs.drop insertAt) entries
  if newIdx < entries.length then logs.take (insertAt + newIdx) ++ entries.drop newIdx else logs

/-- Where the entries of a request go. -/
def insertAt (req : AppendEntries C) : ℕ := (req.prevLogIndex.map (· + 1)).getD 0

/-- The commit index after an accepted request. -/
def followCommit (logs : List (LogEntry C)) (commitIndex leaderCommit : Option ℕ) : Option ℕ :=
  match leaderCommit with
  | none => commitIndex
  | some lc =>
    if logs.isEmpty then commitIndex
    else
      let newCommit := min lc (logs.length - 1)
      match commitIndex with
      | some ci => if ci < newCommit then some newCommit else some ci
      | none => some newCommit

/-- A follower remembers whom it heard from. -/
def noteLeader (n : Consensus σ C P) (req : AppendEntries C) : Consensus σ C P :=
  if n.currentTerm ≤ req.term ∧ n.state = .follower then { n with leaderId := some req.leader }
  else n

/-- `_append_entries`. -/
def appendEntries (n : Consensus σ C P) (req : AppendEntries C) :
    Consensus σ C P × Except String AppendEntriesReply :=
  if n.state = .dead then (n, .error "node is dead")
  else
    let c := (n.stepDown req.term).noteLeader req
    if req.term < c.currentTerm then (c, .ok ⟨c.currentTerm, false, none, none⟩)
    else if prevOk c.logs req.prevLogIndex req.prevLogTerm = false then
      let (conflictIndex, conflictTerm) := conflict c.logs req.prevLogIndex
      (c, .ok ⟨c.currentTerm, false, conflictIndex, conflictTerm⟩)
    else
      let logs := splice c.logs (insertAt req) req.entries
      (persistState
        { c with
          logs := logs
          commitIndex := followCommit logs c.commitIndex req.leaderCommit
          logIndex := logs.length },
        .ok ⟨c.currentTerm, true, none, none⟩)

/-! ## The leader -/

/-- `_submit`. -/
def submit (n : Consensus σ C P) (cmd : C) : Consensus σ C P :=
  persistState
    { n with logs := n.logs ++ [⟨cmd, n.currentTerm⟩], logIndex := n.logIndex + 1 }

/-- The `Submit` arm of the loop: only a leader takes commands. -/
def onSubmit (n : Consensus σ C P) (cmd : C) : Consensus σ C P :=
  if n.state = .leader then n.submit cmd else n

/-- The term of the entry before `ni`.  The lookup panics past the end. -/
def prevTerm (logs : List (LogEntry C)) (ni : ℕ) : Option (Option ℕ) :=
  if ni = 0 then some none else (logs[ni - 1]?).map fun e ↦ some e.term

/-- One turn of the loop of `send_leader_aes`: the request for one peer. -/
def leaderAe (n : Consensus σ C P) (p : ℕ × P) :
    Option (Consensus σ C P × AppendCall C P) := do
  let ni := min ((n.nextIndex p.1).getD n.logs.length) n.logs.length
  let prevLogTerm ← prevTerm n.logs ni
  let entries ← sliceFrom n.logs ni
  let prevLogIndex := if ni = 0 then none else some (ni - 1)
  some ({ n with nextIndex := Function.update n.nextIndex p.1 (some ni) },
    ⟨p.2, p.1, ni, ⟨n.currentTerm, n.id, prevLogIndex, prevLogTerm, entries, n.commitIndex⟩⟩)

def leaderAes (n : Consensus σ C P) : List (ℕ × P) →
    Option (Consensus σ C P × List (AppendCall C P))
  | [] => some (n, [])
  | p :: ps => do
    let (c, call) ← n.leaderAe p
    let (c, calls) ← c.leaderAes ps
    some (c, call :: calls)

/-- `send_leader_aes`, with the requests it sends. -/
def sendLeaderAes (n : Consensus σ C P) : Option (Consensus σ C P × List (AppendCall C P)) :=
  if n.state = .leader then n.leaderAes n.peers else some (n, [])

/-- How many nodes the leader believes to have index `i`, itself included. -/
def matchCount (n : Consensus σ C P) (i : ℕ) : ℕ :=
  1 + n.peers.countP fun p ↦ decide (i ≤ (n.matchIndex p.1).getD 0)

/-- The test under which the leader commits index `i`. -/
def mayCommit (n : Consensus σ C P) (i : ℕ) : Bool :=
  decide (n.logs[i]?.map LogEntry.term = some n.currentTerm) &&
    decide (n.peers.length + 1 < n.matchCount i * 2)

/-- The loop over the uncommitted indices in `handle_ae_res`. -/
def advanceCommit (n : Consensus σ C P) : Option ℕ :=
  let start := n.commitIndex.getD 0
  (List.range' start (n.logs.length - start)).foldl
    (fun ci i ↦ if n.mayCommit i then some i else ci) n.commitIndex

/-- The last index whose entry has the given term. -/
def lastIndexOfTerm (logs : List (LogEntry C)) (term : ℕ) : Option ℕ :=
  (List.range logs.length).reverse.find? fun i ↦ logs[i]?.map LogEntry.term = some term

/-- The record of the peer after an accepted request: everything in the log *now* counts as
acknowledged. -/
def recordMatch (n : Consensus σ C P) (peerId next : ℕ) : Consensus σ C P :=
  { n with
    nextIndex := Function.update n.nextIndex peerId (some next)
    matchIndex := Function.update n.matchIndex peerId (some (next - 1)) }

/-- The next index after a rejected request. -/
def backtrack (n : Consensus σ C P) (reply : AppendEntriesReply) : ℕ :=
  match reply.conflictTerm with
  | some ct =>
    match lastIndexOfTerm n.logs ct with
    | some lti => lti + 1
    | none => reply.conflictIndex.getD 0
  | none => reply.conflictIndex.getD 0

/-- `handle_ae_res`.  The slice is taken before the role is looked at. -/
def handleAeRes (n : Consensus σ C P) (peerId ni : ℕ) (reply : AppendEntriesReply) :
    Option (Consensus σ C P) :=
  if n.currentTerm < reply.term then some (n.becomeFollower reply.term)
  else do
    let entries ← sliceFrom n.logs ni
    if n.state = .leader ∧ n.currentTerm = reply.term then
      if reply.success then
        let c := n.recordMatch peerId (ni + entries.length)
        some { c with commitIndex := c.advanceCommit }
      else
        some { n with nextIndex := Function.update n.nextIndex peerId (some (n.backtrack reply)) }
    else some n

/-- The index `send_commits` starts from. -/
def commitStart (lastApplied : Option ℕ) : ℕ :=
  let la := lastApplied.getD usizeMax
  if la = usizeMax then 0 else la + 1

/-- `send_commits`, with the entries it emits. -/
def sendCommits (n : Consensus σ C P) : Option (Consensus σ C P × List (CommitEntry C)) :=
  match n.commitIndex with
  | none => some (n, [])
  | some ci =>
    let start := commitStart n.lastApplied
    if start ≤ ci ∧ start < n.logs.length then do
      let slice ← sliceIncl n.logs start ci
      some ({ n with lastApplied := some ci },
        slice.zipIdx.map fun e ↦ ⟨e.1.command, n.currentTerm, start + e.2⟩)
    else some (n, [])

end Consensus

end Efis
