import Efis.Consensus.Leadership
import Efis.Transition.Reach

/-!
# Terms and indices at the limits of `usize`

Terms and indices come from an unauthenticated text protocol, and a decoder takes any 64-bit value.
Here a single node is sent arbitrary messages, and `arith` lists the exact value, as an integer, of
every sum, difference and product that is formed on the way.  Nothing overflows if these lie in the
range of `usize`.

Everything that is compared with the length of the log before it is used is harmless, since a `Vec`
cannot be that long.  The exception is `current_term += 1` at the start of an election: a single
request with the largest term puts the node one election timeout away from the limit.  In a debug
build the actor then panics.  In a release build, which is what the `justfile` and the `Dockerfile`
ask for, the term wraps around to `0`; `release` is the loop of such a build.

Apart from that, terms only move forward and votes are not taken back.
-/

set_option autoImplicit false

namespace Efis

open Consensus Transition

variable {σ C P : Type}

/-- A bound on the length of a `Vec`, which has at most `isize::MAX` bytes: a log entry and a peer
both hold a `usize`. -/
def vecMax : ℕ := (2 ^ 63 - 1) / 8

theorem vecMax_lt : 4 * vecMax + 4 < usizeMax := by decide

/-- The result of an operation on `usize` does not overflow. -/
def FitsUsize (x : ℤ) : Prop := 0 ≤ x ∧ x ≤ usizeMax

/-! ## Messages of 64-bit values -/

/-- An optional index or term. -/
def WordOption (x : Option ℕ) : Prop := ∀ i ∈ x, i ≤ usizeMax

/-- The numbers of a message are of type `usize`, and its entries are those of a `Vec`. -/
def Op.Fits : Op C → Prop
  | .voteResult term _ => term ≤ usizeMax
  | .requestVote req =>
    req.term ≤ usizeMax ∧ req.lastLogIndex ≤ usizeMax ∧ req.lastLogTerm ≤ usizeMax
  | .appendEntries req =>
    req.term ≤ usizeMax ∧ WordOption req.prevLogIndex ∧ WordOption req.prevLogTerm ∧
      (req.entries.length ≤ vecMax ∧ ∀ e ∈ req.entries, e.term ≤ usizeMax) ∧
      WordOption req.leaderCommit
  | .aeRes _ ni reply =>
    ni ≤ usizeMax ∧ reply.term ≤ usizeMax ∧ WordOption reply.conflictIndex ∧
      WordOption reply.conflictTerm
  | .startElection _ | .submit _ | .sendAes | .sendCommit => True

/-- So are those on disk. -/
def StoredFits [Storage σ C] (st : σ) : Prop :=
  ∀ s logs, Storage.restore st = some (s, logs) →
    s.currentTerm ≤ usizeMax ∧ WordOption s.lastApplied ∧ logs.length ≤ vecMax

namespace Consensus

variable [Storage σ C] (n : Consensus σ C P)

/-! ## The arithmetic of the handlers -/

/-- `log_len - 1`, and the cursor plus one. -/
def persistArith : List ℤ :=
  if 0 < n.logs.length then
    ((n.logs.length : ℤ) - 1) ::
      (if n.lastPersistedLog = 0 then [] else [(n.lastPersistedLog : ℤ) + 1])
  else []

def lastLogArith : List ℤ :=
  if 0 < n.logs.length then [(n.logs.length : ℤ) - 1] else []

/-- The steps down of `first_idx`. -/
def walkArith (logs : List (LogEntry C)) (term : ℕ) : ℕ → List ℤ
  | 0 => []
  | i + 1 =>
    (((i + 1 : ℕ) : ℤ) - 1) ::
      (if logs[i]?.map LogEntry.term = some term then walkArith logs term i else [])

def conflictArith (logs : List (LogEntry C)) (prevLogIndex : Option ℕ) : List ℤ :=
  match prevLogIndex with
  | some idx =>
    match logs[idx]? with
    | none => []
    | some e => walkArith logs e.term idx
  | none => []

/-- `insert_at`, the counter `new_idx` and their sum in each turn of the loop, and the last index
that may be committed. -/
def mergeArith (logs : List (LogEntry C)) (req : AppendEntries C) : List ℤ :=
  let newIdx := matchLen (logs.drop (insertAt req)) req.entries
  let merged := splice logs (insertAt req) req.entries
  (req.prevLogIndex.map fun i : ℕ ↦ (i : ℤ) + 1).toList ++
    (List.range newIdx).map (fun k : ℕ ↦ (k : ℤ) + 1) ++
    (List.range (newIdx + 1)).map (fun k : ℕ ↦ (insertAt req : ℤ) + k) ++
    (if req.leaderCommit.isSome ∧ 0 < merged.length then [(merged.length : ℤ) - 1] else [])

/-- The count of the peers that have index `i`, from `match_count = 1` on, its double, and the size
of the cluster. -/
def countArith (i : ℕ) : List ℤ :=
  if n.logs[i]?.map LogEntry.term = some n.currentTerm then
    (List.range (n.matchCount i - 1)).map (fun k : ℕ ↦ (k : ℤ) + 1 + 1) ++
      [(n.matchCount i : ℤ) * 2, (n.peers.length : ℤ) + 1]
  else []

def aeResArith (peerId ni : ℕ) (reply : AppendEntriesReply) : List ℤ :=
  if n.currentTerm < reply.term then n.persistArith
  else
    match sliceFrom n.logs ni with
    | none => []
    | some entries =>
      if n.state = .leader ∧ n.currentTerm = reply.term then
        if reply.success then
          ((ni : ℤ) + entries.length) ::
            (List.range' (n.commitIndex.getD 0) (n.logs.length - n.commitIndex.getD 0)).flatMap
              (n.recordMatch peerId (ni + entries.length)).countArith
        else
          match reply.conflictTerm with
          | some ct => ((lastIndexOfTerm n.logs ct).map fun lti : ℕ ↦ (lti : ℤ) + 1).toList
          | none => []
      else []

def sendCommitsArith : List ℤ :=
  match n.commitIndex with
  | none => []
  | some ci =>
    let la := n.lastApplied.getD usizeMax
    let start := commitStart n.lastApplied
    (if la = usizeMax then [] else [(la : ℤ) + 1]) ++
      if start ≤ ci ∧ start < n.logs.length then
        match sliceIncl n.logs start ci with
        | none => []
        | some slice => (List.range slice.length).map fun i : ℕ ↦ (start : ℤ) + i
      else []

/-- The exact value of every sum, difference and product while a message is handled.  Neither
`checked_sub` nor `saturating_sub` can overflow, and they are left out. -/
def arith : Op C → List ℤ
  | .startElection elapsed =>
    if (n.state = .candidate ∨ n.state = .follower) ∧ elapsed then
      ((n.currentTerm : ℤ) + 1) :: (n.persistArith ++ n.lastLogArith)
    else []
  | .voteResult term voted =>
    if n.state ≠ .candidate then []
    else if term < n.currentTerm then []
    else if n.currentTerm < term then n.persistArith
    else if voted then
      [(n.voteCount : ℤ) + 1, (n.peers.length : ℤ) + 1, (n.peers.length + 1 : ℤ) / 2 + 1]
    else []
  | .requestVote req =>
    if n.state = .dead then []
    else
      let c := n.stepDown req.term
      n.lastLogArith ++ (if n.currentTerm < req.term then n.persistArith else []) ++
        (if req.term = c.currentTerm ∧ (c.votedFor = none ∨ c.votedFor = some req.candidateId) ∧
            upToDate req n.lastLog = true then c.persistArith
          else [])
  | .appendEntries req =>
    if n.state = .dead then []
    else
      let c := n.stepDown req.term
      (if n.currentTerm < req.term then n.persistArith else []) ++
        (if req.term < c.currentTerm then []
          else if prevOk c.logs req.prevLogIndex req.prevLogTerm = false then
            conflictArith c.logs req.prevLogIndex
          else
            mergeArith c.logs req ++
              persistArith { c with logs := splice c.logs (insertAt req) req.entries })
  | .submit cmd =>
    if n.state = .leader then
      let c : Consensus σ C P := { n with logs := n.logs ++ [⟨cmd, n.currentTerm⟩] }
      ((n.logIndex : ℤ) + 1) :: (c.persistArith ++ [(c.logs.length : ℤ) - 1])
    else []
  | .sendAes => []
  | .aeRes peerId ni reply => n.aeResArith peerId ni reply
  | .sendCommit => n.sendCommitsArith

/-! ## The loop of a release build -/

/-- `start_election` as a release build runs it: the addition wraps around. -/
def startElectionWrapping : Consensus σ C P :=
  let c := persistState
    { n with
      state := .candidate, currentTerm := (n.currentTerm + 1) % 2 ^ 64, votedFor := some n.id }
  { c with voteCount := 1 }

/-- The node after a message, unless it panicked: also if the log got too long for a `Vec`. -/
def release : Op C → Option (Consensus σ C P)
  | .startElection elapsed =>
    some (if (n.state = .candidate ∨ n.state = .follower) ∧ elapsed then n.startElectionWrapping
      else n)
  | op => (n.handle op).filter fun c ↦ c.logs.length ≤ vecMax

/-- The election timeout runs out on a follower or a candidate of the largest term. -/
def Wraps : Op C → Prop
  | .startElection elapsed =>
    ((n.state = .candidate ∨ n.state = .follower) ∧ elapsed) ∧ n.currentTerm = usizeMax
  | _ => False

end Consensus

/-! ## What the numbers of a node are -/

/-- The numbers of a node, as far as there is arithmetic on them. -/
structure Numbers (m : Consensus σ C P) : Prop where
  term : m.currentTerm ≤ usizeMax
  logs : m.logs.length ≤ vecMax
  peers : m.peers.length ≤ vecMax
  logIndex : m.logIndex = m.logs.length
  cursor : m.lastPersistedLog ≤ vecMax
  votes : m.state = .candidate → m.voteCount ≤ m.quorum
  applied : WordOption m.lastApplied

section

variable [Storage σ C] {m m' : Consensus σ C P}

theorem Numbers.persistState (h : Numbers m) : Numbers m.persistState := by
  refine ⟨h.term, h.logs, h.peers, h.logIndex, ?_, h.votes, h.applied⟩
  simp only [Consensus.persistState, persisted]
  have hlogs := h.logs
  split
  · split
    · simp only
      omega
    · exact h.cursor
  · exact h.cursor

theorem Numbers.becomeFollower (h : Numbers m) {t : ℕ} (ht : t ≤ usizeMax) :
    Numbers (m.becomeFollower t) :=
  Numbers.persistState
    ⟨ht, h.logs, h.peers, h.logIndex, h.cursor, fun hs ↦ (by cases hs), h.applied⟩

theorem Numbers.stepDown (h : Numbers m) {t : ℕ} (ht : t ≤ usizeMax) : Numbers (m.stepDown t) := by
  rw [Consensus.stepDown]
  split
  · exact h.becomeFollower ht
  · exact h

omit [Storage σ C] in
theorem Numbers.noteLeader (h : Numbers m) (req : AppendEntries C) :
    Numbers (m.noteLeader req) := by
  rw [Consensus.noteLeader]
  split
  · exact ⟨h.term, h.logs, h.peers, h.logIndex, h.cursor, h.votes, h.applied⟩
  · exact h

theorem Numbers.requestVote (h : Numbers m) {req : RequestVote} (ht : req.term ≤ usizeMax) :
    Numbers (m.requestVote req).1 := by
  rcases m.requestVote_cases req with hr | ⟨-, -, -, hr⟩ | hr
  · rw [hr]
    exact h
  · rw [hr]
    obtain ⟨term, logs, peers, logIndex, cursor, votes, applied⟩ := h.stepDown ht
    exact Numbers.persistState ⟨term, logs, peers, logIndex, cursor, votes, applied⟩
  · rw [hr]
    exact h.stepDown ht

theorem Numbers.appendEntries (h : Numbers m) {req : AppendEntries C} (ht : req.term ≤ usizeMax)
    (hlen : (m.appendEntries req).1.logs.length ≤ vecMax) :
    Numbers (m.appendEntries req).1 := by
  revert hlen
  simp only [Consensus.appendEntries]
  split
  · exact fun _ ↦ h
  · have hc := (h.stepDown ht).noteLeader req
    generalize (m.stepDown req.term).noteLeader req = c at hc ⊢
    split
    · exact fun _ ↦ hc
    · split
      · exact fun _ ↦ hc
      · intro hlen
        obtain ⟨term, -, peers, -, cursor, votes, applied⟩ := hc
        refine Numbers.persistState ⟨term, ?_, peers, rfl, cursor, votes, applied⟩
        exact hlen

theorem Numbers.onSubmit (h : Numbers m) {cmd : C} (hlen : (m.onSubmit cmd).logs.length ≤ vecMax) :
    Numbers (m.onSubmit cmd) := by
  revert hlen
  rw [Consensus.onSubmit]
  split
  · intro hlen
    obtain ⟨term, -, peers, logIndex, cursor, votes, applied⟩ := h
    refine Numbers.persistState ⟨term, ?_, peers, ?_, cursor, votes, applied⟩
    · exact hlen
    · simp only [List.length_append, List.length_singleton, logIndex]
  · exact fun _ ↦ h

theorem Numbers.onVoteResult (h : Numbers m) {term : ℕ} (ht : term ≤ usizeMax) (voted : Bool) :
    Numbers (m.onVoteResult term voted) := by
  obtain ⟨hterm, logs, peers, logIndex, cursor, votes, applied⟩ := h
  simp only [Consensus.onVoteResult]
  split
  · exact ⟨hterm, logs, peers, logIndex, cursor, votes, applied⟩
  · split
    · exact ⟨hterm, logs, peers, logIndex, cursor, votes, applied⟩
    · split
      · exact Numbers.becomeFollower ⟨hterm, logs, peers, logIndex, cursor, votes, applied⟩ ht
      · split
        · split
          · exact ⟨hterm, logs, peers, logIndex, cursor, fun hs ↦ (by cases hs), applied⟩
          · rename_i hq
            exact ⟨hterm, logs, peers, logIndex, cursor, fun _ ↦ (not_le.mp hq).le, applied⟩
        · exact ⟨hterm, logs, peers, logIndex, cursor, votes, applied⟩

theorem Numbers.onStartElection (h : Numbers m) {elapsed : Bool} {reqs : List (P × RequestVote)}
    (hm : m.onStartElection elapsed = some (m', reqs)) : Numbers m' := by
  rw [Consensus.onStartElection] at hm
  split at hm
  · rw [startElection] at hm
    split at hm
    · rename_i ht
      obtain ⟨rfl, -⟩ := Prod.mk.inj (Option.some_inj.mp hm)
      have hc : Numbers (Consensus.persistState { m with
          state := .candidate, currentTerm := m.currentTerm + 1, votedFor := some m.id,
          voteCount := 1 }) :=
        Numbers.persistState ⟨ht, h.logs, h.peers, h.logIndex, h.cursor,
          fun _ ↦ Nat.le_add_left 1 _, h.applied⟩
      exact ⟨hc.term, hc.logs, hc.peers, hc.logIndex, hc.cursor, hc.votes, hc.applied⟩
    · cases hm
  · obtain ⟨rfl, -⟩ := Prod.mk.inj (Option.some_inj.mp hm)
    exact h

theorem Numbers.handleAeRes (h : Numbers m) {peerId ni : ℕ} {reply : AppendEntriesReply}
    (ht : reply.term ≤ usizeMax) (hm : m.handleAeRes peerId ni reply = some m') : Numbers m' := by
  rcases m.handleAeRes_node hm with ⟨-, rfl⟩ | ⟨-, next, mat, ci, rfl⟩
  · exact h.becomeFollower ht
  · exact ⟨h.term, h.logs, h.peers, h.logIndex, h.cursor, h.votes, h.applied⟩

omit [Storage σ C] in
theorem Numbers.sendCommits (h : Numbers m) {entries : List (CommitEntry C)}
    (hm : m.sendCommits = some (m', entries)) : Numbers m' := by
  simp only [Consensus.sendCommits] at hm
  split at hm
  · obtain ⟨rfl, -⟩ := Prod.mk.inj (Option.some_inj.mp hm)
    exact h
  · split at hm
    · obtain ⟨slice, hslice, hm⟩ := Option.bind_eq_some_iff.mp hm
      obtain ⟨rfl, -⟩ := Prod.mk.inj (Option.some_inj.mp hm)
      refine ⟨h.term, h.logs, h.peers, h.logIndex, h.cursor, h.votes, ?_⟩
      -- the slice ends at the commit index, so that this is an index
      rw [sliceIncl] at hslice
      split at hslice
      · have hlogs := h.logs
        have hmax := vecMax_lt
        rintro i ⟨⟩
        omega
      · cases hslice
    · obtain ⟨rfl, -⟩ := Prod.mk.inj (Option.some_inj.mp hm)
      exact h

/-- **A message of 64-bit values leaves the numbers of a node in their bounds.** -/
theorem Numbers.handle (h : Numbers m) {op : Op C} (hop : op.Fits) (hm : m.handle op = some m')
    (hlen : m'.logs.length ≤ vecMax) : Numbers m' := by
  cases op with
  | startElection elapsed =>
    obtain ⟨⟨c, reqs⟩, hc, rfl⟩ := Option.map_eq_some_iff.mp hm
    exact h.onStartElection hc
  | voteResult term voted =>
    obtain rfl := Option.some_inj.mp hm
    exact h.onVoteResult hop voted
  | requestVote req =>
    obtain rfl := Option.some_inj.mp hm
    exact h.requestVote hop.1
  | appendEntries req =>
    obtain rfl := Option.some_inj.mp hm
    exact h.appendEntries hop.1 hlen
  | submit cmd =>
    obtain rfl := Option.some_inj.mp hm
    exact h.onSubmit hlen
  | sendAes =>
    obtain ⟨⟨c, calls⟩, hc, rfl⟩ := Option.map_eq_some_iff.mp hm
    obtain ⟨next, rfl⟩ := m.sendLeaderAes_node hc
    exact ⟨h.term, h.logs, h.peers, h.logIndex, h.cursor, h.votes, h.applied⟩
  | aeRes peerId ni reply => exact h.handleAeRes hop.2.1 hm
  | sendCommit =>
    obtain ⟨⟨c, entries⟩, hc, rfl⟩ := Option.map_eq_some_iff.mp hm
    exact h.sendCommits hc

/-- A node starts with what it has on disk. -/
theorem Numbers.start {id : String} {st : σ} {urls : List (String × P)} (hst : StoredFits st)
    (hurls : urls.length ≤ vecMax) (h : (Consensus.new id st).start urls = some m) :
    Numbers m := by
  obtain ⟨peers, rfl, hpeers⟩ := Consensus.start_spec h
  have hlen : peers.length ≤ vecMax := by
    have := congrArg List.length hpeers
    rw [List.length_map, List.length_map] at this
    omega
  simp only [Consensus.new, restoreState]
  cases hr : Storage.restore st with
  | none =>
    exact ⟨Nat.zero_le _, Nat.zero_le _, hlen, rfl, Nat.zero_le _, fun hs ↦ (by cases hs),
      fun _ h ↦ (by cases h)⟩
  | some r =>
    obtain ⟨s, logs⟩ := r
    obtain ⟨hterm, happlied, hlogs⟩ := hst s logs hr
    refine ⟨hterm, hlogs, hlen, rfl, ?_, fun hs ↦ (by cases hs), happlied⟩
    simp only
    split <;> omega

/-- Short of the limit the addition does not wrap around. -/
theorem handle_of_release (h : Numbers m) {op : Op C} (hw : ¬ m.Wraps op)
    (hm : m.release op = some m') : m.handle op = some m' ∧ m'.logs.length ≤ vecMax := by
  cases op with
  | startElection elapsed =>
    obtain rfl := Option.some_inj.mp hm
    simp only [handle, Consensus.onStartElection]
    split
    · rename_i hs
      have hlt : m.currentTerm < usizeMax := lt_of_le_of_ne h.term fun ht ↦ hw ⟨hs, ht⟩
      have hmod : (m.currentTerm + 1) % 2 ^ 64 = m.currentTerm + 1 :=
        Nat.mod_eq_of_lt (by rw [usizeMax] at hlt; omega)
      rw [startElection, if_pos hlt, startElectionWrapping, hmod]
      exact ⟨rfl, h.logs⟩
    · exact ⟨rfl, h.logs⟩
  | _ =>
    simp only [release, Option.filter_eq_some_iff, decide_eq_true_eq] at hm
    exact hm

/-! ## Nothing else overflows -/

omit [Storage σ C] in
theorem fits_persistArith (hl : m.logs.length ≤ 2 * vecMax + 1) (hc : m.lastPersistedLog ≤ vecMax) :
    ∀ x ∈ m.persistArith, FitsUsize x := by
  have hmax := vecMax_lt
  intro x hx
  rw [persistArith] at hx
  split at hx
  · rcases List.mem_cons.mp hx with rfl | hx
    · exact ⟨by omega, by omega⟩
    · split at hx
      · cases hx
      · obtain rfl := List.mem_singleton.mp hx
        exact ⟨by omega, by omega⟩
  · cases hx

omit [Storage σ C] in
theorem Numbers.persistArith (h : Numbers m) : ∀ x ∈ m.persistArith, FitsUsize x :=
  fits_persistArith (h.logs.trans (by omega)) h.cursor

omit [Storage σ C] in
theorem Numbers.lastLogArith (h : Numbers m) : ∀ x ∈ m.lastLogArith, FitsUsize x := by
  have hmax := vecMax_lt
  have hlogs := h.logs
  intro x hx
  rw [Consensus.lastLogArith] at hx
  split at hx
  · obtain rfl := List.mem_singleton.mp hx
    exact ⟨by omega, by omega⟩
  · cases hx

theorem fits_walkArith {logs : List (LogEntry C)} {term i : ℕ} (hi : i ≤ usizeMax) :
    ∀ x ∈ walkArith logs term i, FitsUsize x := by
  induction i with
  | zero => exact fun x hx ↦ (by cases hx)
  | succ i ih =>
    intro x hx
    rcases List.mem_cons.mp hx with rfl | hx
    · exact ⟨by omega, by omega⟩
    · split at hx
      · exact ih (by omega) x hx
      · cases hx

/-- The walk starts at an index of the log. -/
theorem fits_conflictArith {logs : List (LogEntry C)} (hl : logs.length ≤ vecMax)
    (prev : Option ℕ) : ∀ x ∈ conflictArith logs prev, FitsUsize x := by
  have hmax := vecMax_lt
  intro x hx
  cases prev with
  | none => cases hx
  | some idx =>
    simp only [conflictArith] at hx
    split at hx
    · cases hx
    · rename_i e he
      have hlt := (List.getElem?_eq_some_iff.mp he).1
      exact fits_walkArith (by omega) x hx

theorem length_splice_le (logs entries : List (LogEntry C)) (i : ℕ) :
    (splice logs i entries).length ≤ logs.length + entries.length := by
  simp only [splice]
  split
  · rw [List.length_append, List.length_take, List.length_drop]
    omega
  · omega

theorem fits_mergeArith {logs : List (LogEntry C)} {req : AppendEntries C}
    (hl : logs.length ≤ vecMax) (he : req.entries.length ≤ vecMax)
    (h : prevOk logs req.prevLogIndex req.prevLogTerm = true) :
    ∀ x ∈ mergeArith logs req, FitsUsize x := by
  have hmax := vecMax_lt
  have hat := insertAt_le_of_prevOk h
  have hmatch := splice_in_range h
  have hlen := length_splice_le logs req.entries (insertAt req)
  intro x hx
  simp only [mergeArith, List.mem_append, Option.mem_toList, List.mem_map, List.mem_range] at hx
  rcases hx with ((hx | ⟨k, hk, rfl⟩) | ⟨k, hk, rfl⟩) | hx
  · obtain ⟨i, hi, rfl⟩ := Option.map_eq_some_iff.mp hx
    rw [insertAt, hi, Option.map_some, Option.getD_some] at hat
    exact ⟨by omega, by omega⟩
  · exact ⟨by omega, by omega⟩
  · exact ⟨by omega, by omega⟩
  · split at hx
    · obtain rfl := List.mem_singleton.mp hx
      exact ⟨by omega, by omega⟩
    · cases hx

omit [Storage σ C] in
theorem matchCount_le (i : ℕ) : 1 ≤ m.matchCount i ∧ m.matchCount i ≤ m.peers.length + 1 := by
  have hle := List.countP_le_length (p := fun p : ℕ × P ↦ decide (i ≤ (m.matchIndex p.1).getD 0))
    (l := m.peers)
  rw [matchCount]
  omega

omit [Storage σ C] in
theorem fits_countArith (hp : m.peers.length ≤ vecMax) (i : ℕ) :
    ∀ x ∈ m.countArith i, FitsUsize x := by
  have hmax := vecMax_lt
  obtain ⟨hpos, hle⟩ := matchCount_le (m := m) i
  intro x hx
  rw [countArith] at hx
  split at hx
  · rcases List.mem_append.mp hx with hx | hx
    · obtain ⟨k, hk, rfl⟩ := List.mem_map.mp hx
      rw [List.mem_range] at hk
      exact ⟨by omega, by omega⟩
    · rcases List.mem_cons.mp hx with rfl | hx
      · exact ⟨by omega, by omega⟩
      · obtain rfl := List.mem_singleton.mp hx
        exact ⟨by omega, by omega⟩
  · cases hx

omit [Storage σ C] in
theorem Numbers.aeResArith (h : Numbers m) (peerId ni : ℕ) (reply : AppendEntriesReply) :
    ∀ x ∈ m.aeResArith peerId ni reply, FitsUsize x := by
  have hmax := vecMax_lt
  have hlogs := h.logs
  intro x hx
  rw [Consensus.aeResArith] at hx
  split at hx
  · exact h.persistArith x hx
  · split at hx
    · cases hx
    · rename_i entries hentries
      rw [sliceFrom] at hentries
      split at hentries
      · obtain rfl := Option.some_inj.mp hentries
        split at hx
        · split at hx
          · rcases List.mem_cons.mp hx with rfl | hx
            · rw [List.length_drop]
              exact ⟨by omega, by omega⟩
            · obtain ⟨i, -, hx⟩ := List.mem_flatMap.mp hx
              refine fits_countArith ?_ i x hx
              exact h.peers
          · split at hx
            · rw [Option.mem_toList] at hx
              obtain ⟨lti, hlti, rfl⟩ := Option.map_eq_some_iff.mp hx
              have hlt := List.mem_of_find?_eq_some hlti
              rw [List.mem_reverse, List.mem_range] at hlt
              exact ⟨by omega, by omega⟩
            · cases hx
        · cases hx
      · cases hentries

omit [Storage σ C] in
theorem Numbers.sendCommitsArith (h : Numbers m) : ∀ x ∈ m.sendCommitsArith, FitsUsize x := by
  have hmax := vecMax_lt
  have hlogs := h.logs
  have hla : m.lastApplied.getD usizeMax ≤ usizeMax := by
    cases ha : m.lastApplied with
    | none => exact le_rfl
    | some a => exact h.applied a ha
  intro x hx
  simp only [Consensus.sendCommitsArith] at hx
  split at hx
  · cases hx
  · rcases List.mem_append.mp hx with hx | hx
    · split at hx
      · cases hx
      · obtain rfl := List.mem_singleton.mp hx
        exact ⟨by omega, by omega⟩
    · split at hx
      · split at hx
        · cases hx
        · rename_i slice hslice
          obtain ⟨i, hi, rfl⟩ := List.mem_map.mp hx
          rw [sliceIncl] at hslice
          split at hslice
          · obtain rfl := Option.some_inj.mp hslice
            rw [List.mem_range, List.length_drop, List.length_take] at hi
            exact ⟨by omega, by omega⟩
          · cases hslice
      · cases hx

theorem Numbers.voteArith (h : Numbers m) (term : ℕ) (voted : Bool) :
    ∀ x ∈ m.arith (.voteResult term voted), FitsUsize x := by
  have hmax := vecMax_lt
  have hpeers := h.peers
  intro x hx
  simp only [arith] at hx
  split at hx
  · cases hx
  · rename_i hcand
    have hvotes := h.votes (not_not.mp hcand)
    rw [quorum] at hvotes
    split at hx
    · cases hx
    · split at hx
      · exact h.persistArith x hx
      · split at hx
        · simp only [List.mem_cons, List.not_mem_nil, or_false] at hx
          rcases hx with rfl | rfl | rfl <;> exact ⟨by omega, by omega⟩
        · cases hx

theorem Numbers.requestArith (h : Numbers m) {req : RequestVote} (ht : req.term ≤ usizeMax) :
    ∀ x ∈ m.arith (.requestVote req), FitsUsize x := by
  intro x hx
  simp only [arith] at hx
  split at hx
  · cases hx
  · simp only [List.mem_append] at hx
    rcases hx with (hx | hx) | hx
    · exact h.lastLogArith x hx
    · split at hx
      · exact h.persistArith x hx
      · cases hx
    · split at hx
      · exact (h.stepDown ht).persistArith x hx
      · cases hx

theorem Numbers.appendArith (h : Numbers m) {req : AppendEntries C} (ht : req.term ≤ usizeMax)
    (he : req.entries.length ≤ vecMax) :
    ∀ x ∈ m.arith (.appendEntries req), FitsUsize x := by
  have hc := h.stepDown ht
  intro x hx
  simp only [arith] at hx
  generalize m.stepDown req.term = c at hc hx
  split at hx
  · cases hx
  · rcases List.mem_append.mp hx with hx | hx
    · split at hx
      · exact h.persistArith x hx
      · cases hx
    · split at hx
      · cases hx
      · split at hx
        · exact fits_conflictArith hc.logs _ x hx
        · rename_i hprev
          rcases List.mem_append.mp hx with hx | hx
          · exact fits_mergeArith hc.logs he (Bool.not_eq_false _ ▸ hprev) x hx
          · have hlen := length_splice_le c.logs req.entries (insertAt req)
            have hlogs := hc.logs
            refine fits_persistArith ?_ ?_ x hx
            · simp only
              omega
            · exact hc.cursor

theorem Numbers.submitArith (h : Numbers m) (cmd : C) :
    ∀ x ∈ m.arith (.submit cmd), FitsUsize x := by
  have hmax := vecMax_lt
  have hlogs := h.logs
  have hindex := h.logIndex
  intro x hx
  simp only [arith] at hx
  split at hx
  · rcases List.mem_cons.mp hx with rfl | hx
    · exact ⟨by omega, by omega⟩
    · rw [List.length_append, List.length_singleton] at hx
      rcases List.mem_append.mp hx with hx | hx
      · refine fits_persistArith ?_ ?_ x hx
        · simp only [List.length_append, List.length_singleton]
          omega
        · exact h.cursor
      · obtain rfl := List.mem_singleton.mp hx
        exact ⟨by omega, by omega⟩
  · cases hx

/-- **No message of 64-bit values makes anything overflow**, but for the election. -/
theorem Numbers.arith (h : Numbers m) {op : Op C} (hop : op.Fits) (hw : ¬ m.Wraps op) :
    ∀ x ∈ m.arith op, FitsUsize x := by
  cases op with
  | startElection elapsed =>
    intro x hx
    simp only [Consensus.arith] at hx
    split at hx
    · rename_i hs
      have hlt : m.currentTerm < usizeMax := lt_of_le_of_ne h.term fun ht ↦ hw ⟨hs, ht⟩
      rcases List.mem_cons.mp hx with rfl | hx
      · exact ⟨by omega, by omega⟩
      · rcases List.mem_append.mp hx with hx | hx
        · exact h.persistArith x hx
        · exact h.lastLogArith x hx
    · cases hx
  | voteResult term voted => exact h.voteArith term voted
  | requestVote req => exact h.requestArith hop.1
  | appendEntries req => exact h.appendArith hop.1 hop.2.2.2.1.1
  | submit cmd => exact h.submitArith cmd
  | sendAes => exact fun x hx ↦ (by cases hx)
  | aeRes peerId ni reply => exact h.aeResArith peerId ni reply
  | sendCommit => exact h.sendCommitsArith

/-! ## Terms and votes -/

/-- **A message does not turn the term back, nor take back a vote.** -/
theorem Later.handle {op : Op C} (h : m.handle op = some m') : Later m m' := by
  cases op with
  | startElection elapsed =>
    obtain ⟨⟨c, reqs⟩, hc, rfl⟩ := Option.map_eq_some_iff.mp h
    rcases m.onStartElection_cases elapsed with he | he | ⟨c', he, hs, -⟩
    · rw [he] at hc
      cases hc
    · obtain ⟨rfl, -⟩ := Prod.mk.inj (Option.some_inj.mp (he ▸ hc))
      exact Quiet.rfl.later
    · obtain ⟨rfl, -⟩ := Prod.mk.inj (Option.some_inj.mp (he ▸ hc))
      exact Or.inl (hs.currentTerm ▸ Nat.lt_succ_self _)
  | voteResult term voted =>
    obtain rfl := Option.some_inj.mp h
    rcases m.onVoteResult_cases term voted with hv | ⟨ht, hv⟩ | ⟨-, -, -, hv⟩ | ⟨-, -, -, -, hv⟩
    · rw [hv]
      exact Quiet.rfl.later
    · rw [hv]
      exact Or.inl ht
    · rw [hv]
      exact Or.inr ⟨rfl, Or.inr rfl⟩
    · rw [hv]
      exact Or.inr ⟨rfl, Or.inr rfl⟩
  | requestVote req =>
    obtain rfl := Option.some_inj.mp h
    exact (Quiet.requestVote m req).later
  | appendEntries req =>
    obtain rfl := Option.some_inj.mp h
    exact (Quiet.appendEntries m req).later
  | submit cmd =>
    obtain rfl := Option.some_inj.mp h
    exact (Quiet.onSubmit m cmd).later
  | sendAes =>
    obtain ⟨⟨c, calls⟩, hc, rfl⟩ := Option.map_eq_some_iff.mp h
    exact (Quiet.of_same (m.sendLeaderAes_spec hc).1).later
  | aeRes peerId ni reply => exact (Quiet.handleAeRes h).later
  | sendCommit =>
    obtain ⟨⟨c, entries⟩, hc, rfl⟩ := Option.map_eq_some_iff.mp h
    exact (Quiet.of_same (m.sendCommits_spec hc).1).later

end

/-! ## Runs -/

section

variable [Storage σ C]

/-- The states a node gets to in a run of arbitrary messages of 64-bit values in which the election
timeout never runs out in the largest term. -/
def Below (m m' : Consensus σ C P) : Prop :=
  Reach Consensus.release (fun d op ↦ op.Fits ∧ ¬ d.Wraps op) m m'

theorem Numbers.below {m m' : Consensus σ C P} (h : Numbers m) (hr : Below m m') : Numbers m' := by
  refine Reach.inv hr h ?_
  rintro d op e hd ⟨hop, hw⟩ he
  obtain ⟨he, hlen⟩ := handle_of_release hd hw he
  exact hd.handle hop he hlen

theorem Later.below {m m' : Consensus σ C P} (h : Numbers m) (hr : Below m m') : Later m m' := by
  have key : Numbers m' ∧ Later m m' := by
    refine @Reach.inv _ _ _ _ _ _ (fun d ↦ Numbers d ∧ Later m d) hr ⟨h, Quiet.rfl.later⟩ ?_
    rintro d op e ⟨hd, hl⟩ ⟨hop, hw⟩ he
    obtain ⟨he, hlen⟩ := handle_of_release hd hw he
    exact ⟨hd.handle hop he hlen, hl.trans (Later.handle he)⟩
  exact key.2

/-- **Terms only move forward.**  As long as the election timeout does not run out in the largest
term, a node that is sent arbitrary messages keeps its term or raises it, keeps its vote in a term,
and computes nothing that leaves `usize`.  At any moment of such a run this goes on exactly if the
next message is not that timeout. -/
theorem terms_forward {id : String} {st : σ} {urls : List (String × P)} {m d : Consensus σ C P}
    (hst : StoredFits st) (hurls : urls.length ≤ vecMax)
    (hm : (Consensus.new id st).start urls = some m) (hd : Below m d) :
    (∀ e, Below d e → Later d e) ∧
      ∀ op : Op C, op.Fits →
        (((∀ x ∈ d.arith op, FitsUsize x) ∧ ∀ e, d.release op = some e → Later d e) ↔
          ¬ d.Wraps op) := by
  have hnum := (Numbers.start hst hurls hm).below hd
  refine ⟨fun e ↦ Later.below hnum, fun op hop ↦ ⟨?_, ?_⟩⟩
  · rintro ⟨hfits, -⟩ hw
    cases op with
    | startElection elapsed =>
      obtain ⟨hs, ht⟩ := hw
      rw [arith, if_pos hs] at hfits
      have hle := (hfits _ List.mem_cons_self).2
      omega
    | _ => exact hw
  · intro hw
    exact ⟨hnum.arith hop hw, fun e he ↦ Later.handle (handle_of_release hnum hw he).1⟩

end

/-- A node of a cluster of two, that has nothing stored. -/
def lone : Consensus (MockStorage ℕ) ℕ ℕ := started "a" ⟨PersistentState.default, []⟩ [(1, 1)]

/-- A request of the largest term, which a decoder accepts. -/
def lastTerm : Op ℕ := .appendEntries ⟨usizeMax, "b", none, none, [], none⟩

theorem lastTerm_fits : lastTerm.Fits :=
  ⟨le_rfl, fun _ h ↦ (by cases h), fun _ h ↦ (by cases h), ⟨Nat.zero_le _, fun _ h ↦ (by cases h)⟩,
    fun _ h ↦ (by cases h)⟩

/-- What it makes of the node. -/
def atLimit : Consensus (MockStorage ℕ) ℕ ℕ :=
  (lone.appendEntries ⟨usizeMax, "b", none, none, [], none⟩).1

/-- At the limit a reply of that term is still harmless. -/
theorem terms_forward_lone :
    Below lone atLimit ∧ atLimit.currentTerm = usizeMax ∧
      ((∀ x ∈ atLimit.arith (.voteResult usizeMax true), FitsUsize x) ∧
        ∀ e, atLimit.release (.voteResult usizeMax true) = some e → Later atLimit e) := by
  have hd : Below lone atLimit :=
    Reach.step (a := lastTerm) .start ⟨lastTerm_fits, id⟩ rfl
  have hst : StoredFits (⟨PersistentState.default, []⟩ : MockStorage ℕ) := by
    rintro s logs h
    obtain ⟨rfl, rfl⟩ := Prod.mk.inj (Option.some_inj.mp h)
    exact ⟨Nat.zero_le _, fun _ h ↦ (by cases h), Nat.zero_le _⟩
  have hm : (Consensus.new "a" ⟨PersistentState.default, []⟩).start [("b:1", 1)] = some lone := by
    rfl
  have hvote := (terms_forward hst (by decide) hm hd).2 (.voteResult usizeMax true) le_rfl
  exact ⟨hd, rfl, hvote.mpr id⟩

/-- One request, and one election timeout later the term is `0`. -/
theorem not_terms_forward :
    ¬ ∀ d : Consensus (MockStorage ℕ) ℕ ℕ, Reach Consensus.release (fun _ op ↦ op.Fits) lone d →
      (∀ op : Op ℕ, op.Fits → ∀ x ∈ d.arith op, FitsUsize x) ∧
      ∀ e, Reach Consensus.release (fun _ op ↦ op.Fits) d e → Later d e := by
  intro h
  have hd : Reach Consensus.release (fun _ op ↦ op.Fits) lone atLimit :=
    Reach.step (a := lastTerm) .start lastTerm_fits rfl
  have he := (h _ hd).2 _ (Reach.step (a := .startElection true) .start trivial rfl)
  exact absurd he.le (by decide)

end Efis
