import Efis.Consensus.Emission
import Efis.Consensus.Following
import Efis.Consensus.Leadership
import Efis.Transition.Reach

/-!
# The actor, its mailbox and its timers

The loop of `Consensus::start` takes its messages from a channel with 1024 places.  Clients, RPC
handlers and the tasks that wait for replies put messages there, and so do the two timers.  The
handlers do it too: what they want done next, `SendAES` and `SendCommit`, they send to the actor
they are part of, and wait for a place.

* Between two messages, a node that leads has a heartbeat running, and any other node an election
  timer (`timers_running`).
* A node that has handled what is in its mailbox has emitted everything it has committed, as long as
  its commit index stays within its log (`emitted_up_to_commit`).
* The actor gets through its mailbox on its own if what is in there and what handling it may send
  fit (`mailbox_drains`).  If the channel is full when a handler sends, nothing happens ever again,
  and a leader can always be brought there by commands alone (`leader_blocks`).

What a handler does to the node and to the timers shows when it is done.  In between it may wait,
with the role changed and the timer for it not yet running.
-/

set_option autoImplicit false

namespace Efis

open Consensus Transition

variable {σ C P : Type}

/-- What is sent to the actor.  The two requests come with a channel of one place for the reply,
on which sending it does not wait. -/
inductive ConsensusMsg (C : Type) where
  | startElection (timeout : ℕ)
  | sendCommit
  | submit (cmd : C)
  | sendAes
  | requestVote (req : RequestVote)
  | appendEntry (req : AppendEntries C)
  | appendEntryResult (peerId ni : ℕ) (reply : AppendEntriesReply)
  | voteResult (term : ℕ) (voted : Bool)
  deriving DecidableEq

/-! ## The timers -/

/-- The timers, the times being in milliseconds. -/
structure Timers where
  /-- The timeout of the election timer, if there is one. -/
  electionHandle : Option ℕ
  heartbeatHandle : Bool
  /-- An election is due when this is a timeout ago. -/
  electionResetEvent : ℕ

namespace Timers

/-- The timers once `start` gets to its loop. -/
def start (now timeout : ℕ) : Timers := ⟨some timeout, false, now + 500⟩

/-- An election is due at the given time.  A time before the event counts as the event. -/
def due (t : Timers) (timeout now : ℕ) : Bool := decide (timeout ≤ now - t.electionResetEvent)

/-- What `become_follower` does.  The heartbeat goes on, but its messages are ignored. -/
def becomeFollower (t : Timers) (now timeout : ℕ) : Timers :=
  { t with electionHandle := some timeout, electionResetEvent := now }

/-- What `start_election` does.  The election timer goes on. -/
def startElection (t : Timers) (now : ℕ) : Timers :=
  { t with heartbeatHandle := false, electionResetEvent := now }

/-- What `start_leader` does. -/
def startLeader (t : Timers) : Timers :=
  { t with electionHandle := none, heartbeatHandle := true }

def stepDown (t : Timers) (m : Consensus σ C P) (term now timeout : ℕ) : Timers :=
  if m.currentTerm < term then t.becomeFollower now timeout else t

/-- The timers after the node has handled a message at the time `now`, with `timeout` for a new
election timer. -/
def handle [Storage σ C] (t : Timers) (m : Consensus σ C P) (now timeout : ℕ) :
    ConsensusMsg C → Timers
  | .startElection d =>
    if (m.state = .candidate ∨ m.state = .follower) ∧ t.due d now then t.startElection now else t
  | .requestVote req =>
    if m.state = .dead then t
    else
      let t := t.stepDown m req.term now timeout
      match (m.requestVote req).2 with
      | .ok ⟨_, true⟩ => { t with electionResetEvent := now }
      | _ => t
  | .appendEntry req =>
    if m.state = .dead then t
    else
      let t := t.stepDown m req.term now timeout
      if req.term < m.currentTerm then t else { t with electionResetEvent := now }
  | .appendEntryResult _ _ reply => t.stepDown m reply.term now timeout
  | .voteResult term voted =>
    if m.state ≠ .candidate then t
    else if term < m.currentTerm then t
    else if m.currentTerm < term then t.becomeFollower now timeout
    else if voted ∧ m.quorum ≤ m.voteCount + 1 then t.startLeader
    else t
  | .submit _ | .sendAes | .sendCommit => t

end Timers

/-! ## The actor -/

/-- What the handler of the message is asked to do, at the given time. -/
def ConsensusMsg.op (t : Timers) (now : ℕ) : ConsensusMsg C → Op C
  | .startElection d => .startElection (t.due d now)
  | .sendCommit => .sendCommit
  | .submit cmd => .submit cmd
  | .sendAes => .sendAes
  | .requestVote req => .requestVote req
  | .appendEntry req => .appendEntries req
  | .appendEntryResult peerId ni reply => .aeRes peerId ni reply
  | .voteResult term voted => .voteResult term voted

/-- What the handler of a message sends to the actor itself, the node being `m` before and `m'`
after.  Both requests that move the commit index send a `SendCommit` for it. -/
def Consensus.posts (m m' : Consensus σ C P) : ConsensusMsg C → List (ConsensusMsg C)
  | .submit _ => if m.state = .leader then [.sendAes] else []
  | .voteResult _ _ => if m.state = .candidate ∧ m'.state = .leader then [.sendAes] else []
  | .appendEntry _ => if m'.commitIndex = m.commitIndex then [] else [.sendCommit]
  | .appendEntryResult _ _ _ =>
    if m'.commitIndex = m.commitIndex then [] else [.sendCommit, .sendAes]
  | .startElection _ | .sendCommit | .sendAes | .requestVote _ => []

/-- A handler under way: what it leaves when it is done, and what it still has to send. -/
structure Busy (σ C P : Type) where
  node : Consensus σ C P
  timers : Timers
  sends : List (ConsensusMsg C)

structure Actor (σ C P : Type) where
  /-- The node as the last handler left it, and the timers. -/
  node : Consensus σ C P
  timers : Timers
  mailbox : List (ConsensusMsg C)
  busy : Option (Busy σ C P)
  panicked : Bool
  emitted : List (CommitEntry C)

namespace Actor

inductive Act (C : Type) where
  /-- Somebody else puts a message into the mailbox. -/
  | post (msg : ConsensusMsg C)
  /-- The election timer does. -/
  | tick (timeout : ℕ)
  /-- The heartbeat does. -/
  | beat
  /-- The actor takes a message at the time `now`, and draws a timeout in case it needs one. -/
  | take (now timeout : ℕ)
  /-- The handler sends its next message to the actor. -/
  | send
  | finish

/-- The node when the handler under way is done. -/
def next (s : Actor σ C P) : Consensus σ C P := (s.busy.map Busy.node).getD s.node

def nextTimers (s : Actor σ C P) : Timers := (s.busy.map Busy.timers).getD s.timers

/-- What the handler under way still has to send. -/
def owed (s : Actor σ C P) : List (ConsensusMsg C) := (s.busy.map Busy.sends).getD []

/-- A message goes into the mailbox if there is a place for it. -/
def put (s : Actor σ C P) (msg : ConsensusMsg C) : Option (Actor σ C P) :=
  if s.mailbox.length < 1024 then some { s with mailbox := s.mailbox ++ [msg] } else none

variable [Storage σ C]

/-- The actor, which is not busy, handles a message.  What the node and the timers are while the
handler is under way is not told apart from what they are before and after it. -/
def handle (s : Actor σ C P) (msg : ConsensusMsg C) (now timeout : ℕ) : Actor σ C P :=
  match s.node.handle (msg.op s.timers now) with
  | none => { s with panicked := true }
  | some m => { s with
      busy := some ⟨m, s.timers.handle s.node now timeout msg, s.node.posts m msg⟩
      emitted := s.emitted ++ s.node.emits (msg.op s.timers now) }

/-- A step of an actor that has not panicked.  While a handler is under way, the timers it leaves
and those it found both tick. -/
def act (s : Actor σ C P) : Act C → Option (Actor σ C P)
  | .post msg => s.put msg
  | .tick timeout =>
    if s.timers.electionHandle = some timeout ∨ s.nextTimers.electionHandle = some timeout then
      s.put (.startElection timeout)
    else none
  | .beat =>
    if s.timers.heartbeatHandle ∨ s.nextTimers.heartbeatHandle then s.put .sendAes else none
  | .take now timeout =>
    match s.busy, s.mailbox with
    | none, msg :: msgs =>
      if 150 ≤ timeout ∧ timeout ≤ 300 then
        some ({ s with mailbox := msgs }.handle msg now timeout)
      else none
    | _, _ => none
  | .send =>
    match s.busy with
    | some ⟨m, t, msg :: msgs⟩ => (s.put msg).map fun s ↦ { s with busy := some ⟨m, t, msgs⟩ }
    | _ => none
  | .finish =>
    match s.busy with
    | some ⟨m, t, []⟩ => some { s with node := m, timers := t, busy := none }
    | _ => none

/-- One step.  The mailbox of an actor that has panicked is gone with it. -/
def step (s : Actor σ C P) (a : Act C) : Option (Actor σ C P) :=
  if s.panicked then none else s.act a

/-- The actor when `start` gets to its loop. -/
def start (node : Consensus σ C P) (now timeout : ℕ) : Actor σ C P where
  node := node
  timers := .start now timeout
  mailbox := []
  busy := none
  panicked := false
  emitted := []

/-- What a step is. -/
inductive Change (s s' : Actor σ C P) : Prop where
  | put (msg : ConsensusMsg C) (room : s.mailbox.length < 1024)
      (h : s' = { s with mailbox := s.mailbox ++ [msg] })
  | panic (msg : ConsensusMsg C) (msgs : List (ConsensusMsg C)) (now : ℕ) (busy : s.busy = none)
      (mailbox : s.mailbox = msg :: msgs) (hm : s.node.handle (msg.op s.timers now) = none)
      (h : s' = { s with mailbox := msgs, panicked := true })
  | take (msg : ConsensusMsg C) (msgs : List (ConsensusMsg C)) (now timeout : ℕ)
      (low : 150 ≤ timeout) (high : timeout ≤ 300) (busy : s.busy = none)
      (mailbox : s.mailbox = msg :: msgs) (m : Consensus σ C P)
      (hm : s.node.handle (msg.op s.timers now) = some m)
      (h : s' = { s with
        mailbox := msgs
        busy := some ⟨m, s.timers.handle s.node now timeout msg, s.node.posts m msg⟩
        emitted := s.emitted ++ s.node.emits (msg.op s.timers now) })
  | send (m : Consensus σ C P) (t : Timers) (msg : ConsensusMsg C) (msgs : List (ConsensusMsg C))
      (busy : s.busy = some ⟨m, t, msg :: msgs⟩) (room : s.mailbox.length < 1024)
      (h : s' = { s with mailbox := s.mailbox ++ [msg], busy := some ⟨m, t, msgs⟩ })
  | finish (m : Consensus σ C P) (t : Timers) (busy : s.busy = some ⟨m, t, []⟩)
      (h : s' = { s with node := m, timers := t, busy := none })

variable {s s' : Actor σ C P}

omit [Storage σ C] in
theorem put_eq_some {msg : ConsensusMsg C} :
    s.put msg = some s' ↔
      s.mailbox.length < 1024 ∧ { s with mailbox := s.mailbox ++ [msg] } = s' := by
  rw [put]
  split
  · exact ⟨fun h ↦ ⟨‹_›, Option.some_inj.mp h⟩, fun h ↦ congrArg some h.2⟩
  · exact ⟨fun h ↦ absurd h (Option.some_ne_none _).symm, fun h ↦ absurd h.1 ‹_›⟩

theorem step_eq_act (hp : s.panicked = false) (a : Act C) : s.step a = s.act a := by
  rw [step, hp]
  rfl

theorem step_post (hp : s.panicked = false) (hroom : s.mailbox.length < 1024)
    (msg : ConsensusMsg C) :
    s.step (.post msg) = some { s with mailbox := s.mailbox ++ [msg] } := by
  rw [step_eq_act hp, act, put, if_pos hroom]

theorem step_take (hp : s.panicked = false) (hb : s.busy = none) {msg : ConsensusMsg C}
    {msgs : List (ConsensusMsg C)} (hm : s.mailbox = msg :: msgs) (now : ℕ) {timeout : ℕ}
    (low : 150 ≤ timeout) (high : timeout ≤ 300) :
    s.step (.take now timeout) = some ({ s with mailbox := msgs }.handle msg now timeout) := by
  rw [step_eq_act hp, act, hb, hm]
  exact if_pos ⟨low, high⟩

theorem step_change {a : Act C} (h : s.step a = some s') : s.panicked = false ∧ s.Change s' := by
  rw [step] at h
  split at h
  · cases h
  · rename_i hp
    refine ⟨by simpa using hp, ?_⟩
    have hput : ∀ {msg}, s.put msg = some s' → s.Change s' := fun {msg} h ↦ by
      obtain ⟨room, h⟩ := put_eq_some.mp h
      exact .put msg room h.symm
    cases a with
    | post msg => exact hput h
    | tick timeout =>
      rw [act] at h
      split at h
      · exact hput h
      · cases h
    | beat =>
      rw [act] at h
      split at h
      · exact hput h
      · cases h
    | take now timeout =>
      rw [act] at h
      split at h
      · rename_i msg msgs hb hm
        split at h
        · rename_i ht
          obtain rfl := Option.some_inj.mp h
          rw [handle]
          cases hr : s.node.handle (msg.op s.timers now) with
          | none => exact .panic msg msgs now hb hm hr rfl
          | some m => exact .take msg msgs now timeout ht.1 ht.2 hb hm m hr rfl
        · cases h
      · cases h
    | send =>
      rw [act] at h
      split at h
      · rename_i m t msg msgs hb
        obtain ⟨s₁, hs₁, rfl⟩ := Option.map_eq_some_iff.mp h
        obtain ⟨room, rfl⟩ := put_eq_some.mp hs₁
        exact .send m t msg msgs hb room rfl
      · cases h
    | finish =>
      rw [act] at h
      split at h
      · rename_i m t hb
        exact .finish m t hb (Option.some_inj.mp h).symm
      · cases h

end Actor

/-! ## The timers of a node -/

/-- A leader has its heartbeat and no election timer, anybody else has an election timer with a
timeout that `generate_timout` gives. -/
structure Armed (m : Consensus σ C P) (t : Timers) : Prop where
  leader : m.state = .leader → t.electionHandle = none ∧ t.heartbeatHandle = true
  other : m.state ≠ .leader → ∃ d, 150 ≤ d ∧ d ≤ 300 ∧ t.electionHandle = some d

theorem Armed.of_eq {m m' : Consensus σ C P} {t t' : Timers} (h : Armed m t)
    (hs : m'.state = m.state) (he : t'.electionHandle = t.electionHandle)
    (hb : t'.heartbeatHandle = t.heartbeatHandle) : Armed m' t' := by
  obtain ⟨hl, ho⟩ := h
  rw [← hs, ← he, ← hb] at hl
  rw [← hs, ← he] at ho
  exact ⟨hl, ho⟩

theorem Armed.of_follower {m : Consensus σ C P} {t : Timers} {now timeout : ℕ}
    (hs : m.state = .follower) (low : 150 ≤ timeout) (high : timeout ≤ 300) :
    Armed m (t.becomeFollower now timeout) where
  leader hl := by
    rw [hs] at hl
    cases hl
  other _ := ⟨timeout, low, high, rfl⟩

variable [Storage σ C]

theorem Armed.stepDown {m : Consensus σ C P} {t : Timers} (h : Armed m t) (term now : ℕ)
    {timeout : ℕ} (low : 150 ≤ timeout) (high : timeout ≤ 300) :
    Armed (m.stepDown term) (t.stepDown m term now timeout) := by
  rw [Consensus.stepDown, Timers.stepDown]
  split
  · exact .of_follower rfl low high
  · exact h

/-- Every handler leaves the timers that go with the role. -/
theorem Armed.handle {m m' : Consensus σ C P} {t : Timers} (h : Armed m t) {now timeout : ℕ}
    (low : 150 ≤ timeout) (high : timeout ≤ 300) {msg : ConsensusMsg C}
    (hm : m.handle (msg.op t now) = some m') : Armed m' (t.handle m now timeout msg) := by
  cases msg with
  | startElection d =>
    obtain ⟨⟨c, reqs⟩, hc, rfl⟩ := Option.map_eq_some_iff.mp hm
    rw [Timers.handle]
    rw [onStartElection] at hc
    split at hc
    · rename_i hdue
      rw [if_pos hdue]
      rw [Consensus.startElection] at hc
      split at hc
      · obtain ⟨rfl, -⟩ := Prod.mk.inj (Option.some_inj.mp hc)
        have hne : m.state ≠ .leader := by
          rcases hdue.1 with hs | hs
          · simp [hs]
          · simp [hs]
        exact ⟨fun hl ↦ absurd hl (by decide : State.candidate ≠ .leader), fun _ ↦ h.other hne⟩
      · cases hc
    · rename_i hdue
      obtain ⟨rfl, -⟩ := Prod.mk.inj (Option.some_inj.mp hc)
      rw [if_neg hdue]
      exact h
  | sendCommit =>
    obtain ⟨⟨c, es⟩, hc, rfl⟩ := Option.map_eq_some_iff.mp hm
    obtain ⟨la, rfl⟩ := m.sendCommits_node hc
    exact h.of_eq rfl rfl rfl
  | submit cmd =>
    obtain rfl := Option.some_inj.mp hm
    refine h.of_eq ?_ rfl rfl
    rw [onSubmit]
    split <;> rfl
  | sendAes =>
    obtain ⟨⟨c, calls⟩, hc, rfl⟩ := Option.map_eq_some_iff.mp hm
    obtain ⟨next, rfl⟩ := m.sendLeaderAes_node hc
    exact h.of_eq rfl rfl rfl
  | requestVote req =>
    obtain rfl := Option.some_inj.mp hm
    rw [Timers.handle]
    by_cases hd : m.state = .dead
    · rw [if_pos hd, Consensus.requestVote, if_pos hd]
      exact h
    · rw [if_neg hd]
      refine (h.stepDown req.term now low high).of_eq ?_ ?_ ?_
      · rw [Consensus.requestVote, if_neg hd]
        dsimp only
        split <;> rfl
      · dsimp only
        split <;> rfl
      · dsimp only
        split <;> rfl
  | appendEntry req =>
    obtain rfl := Option.some_inj.mp hm
    rw [Timers.handle]
    by_cases hd : m.state = .dead
    · rw [if_pos hd, Consensus.appendEntries, if_pos hd]
      exact h
    · rw [if_neg hd]
      refine (h.stepDown req.term now low high).of_eq ?_ ?_ ?_
      · rw [(appendEntries_noted m req hd).1, (same_noteLeader _ req).state]
      · dsimp only
        split <;> rfl
      · dsimp only
        split <;> rfl
  | appendEntryResult peerId ni reply =>
    rcases m.handleAeRes_node hm with ⟨hlt, rfl⟩ | ⟨hle, next, mat, ci, rfl⟩
    · rw [Timers.handle, Timers.stepDown, if_pos hlt]
      exact .of_follower rfl low high
    · rw [Timers.handle, Timers.stepDown, if_neg hle]
      exact h.of_eq rfl rfl rfl
  | voteResult term voted =>
    obtain rfl := Option.some_inj.mp hm
    rw [Timers.handle, onVoteResult]
    split
    · exact h
    · rename_i hcand
      split
      · exact h
      · split
        · exact .of_follower rfl low high
        · by_cases hv : voted = true
          · rw [if_pos hv]
            dsimp only
            split
            · rename_i hq
              rw [if_pos ⟨hv, show m.quorum ≤ m.voteCount + 1 from hq⟩]
              exact ⟨fun _ ↦ ⟨rfl, rfl⟩, fun hl ↦ absurd rfl hl⟩
            · rename_i hq
              rw [if_neg fun hw ↦ hq hw.2]
              exact h.of_eq rfl rfl rfl
          · rw [if_neg hv, if_neg fun hw ↦ hv hw.1]
            exact h

namespace Actor

variable {s s' : Actor σ C P}

theorem armed_change (h : Armed s.next s.nextTimers) (hs : s.Change s') :
    Armed s'.next s'.nextTimers := by
  cases hs with
  | put msg room hs =>
    subst hs
    exact h
  | panic msg msgs now busy mailbox hm hs =>
    subst hs
    exact h
  | take msg msgs now timeout low high busy mailbox m hm hs =>
    subst hs
    rw [next, nextTimers, busy] at h
    exact h.handle low high hm
  | send m t msg msgs busy room hs =>
    subst hs
    rw [next, nextTimers, busy] at h
    exact h
  | finish m t busy hs =>
    subst hs
    rw [next, nextTimers, busy] at h
    exact h

/-- **A timer for every role.**  In every run of a node that has started, whatever messages it gets
and whenever it handles them, in every state in which no handler is under way: a leader has its
heartbeat running and no election timer, and anybody else has an election timer with a timeout of
150 to 300 milliseconds. -/
theorem timers_running {id : String} {st : σ} {urls : List (String × P)} {node : Consensus σ C P}
    (hs : (Consensus.new id st).start urls = some node) {now timeout : ℕ} (low : 150 ≤ timeout)
    (high : timeout ≤ 300) (h : Reach step (fun _ _ ↦ True) (start node now timeout) s)
    (hb : s.busy = none) : Armed s.node s.timers := by
  have hstart : Armed node (.start now timeout) := by
    obtain ⟨peers, rfl, -⟩ := Consensus.start_spec hs
    exact .of_follower (t := ⟨none, false, now + 500⟩) (new_state id st) low high
  -- The timers that a handler under way leaves come into force when it is done.
  let I : Actor σ C P → Prop := fun s ↦ Armed s.next s.nextTimers
  have hkeep : ∀ s a s', I s → True → step s a = some s' → I s' := fun s a s' hi _ hstep ↦
    armed_change hi (step_change hstep).2
  have hI : Armed s.next s.nextTimers := h.inv hstart hkeep
  rwa [next, nextTimers, hb] at hI

/-- A node with two peers. -/
def third : Consensus (MockStorage ℕ) ℕ ℕ :=
  { (Consensus.new "a" ⟨PersistentState.default, []⟩ : Consensus (MockStorage ℕ) ℕ ℕ) with
    peers := [(1, 1), (2, 2)] }

theorem third_start :
    (Consensus.new "a" (⟨PersistentState.default, []⟩ : MockStorage ℕ)).start
      [("b:1", 1), ("c:2", 2)] = some third := rfl

/-- It is elected with the vote of one of them, and sends its first heartbeat. -/
def winning : List (Act ℕ) :=
  [.tick 200, .take 700 200, .finish, .post (.voteResult 1 true), .take 710 200, .send, .finish,
    .take 720 200, .finish]

theorem timers_running_elected :
    ∃ s, Reach step (fun _ _ ↦ True) (start third 0 200) s ∧ s.node.state = .leader ∧
      Armed s.node s.timers := by
  have hr : Reach step (fun _ _ ↦ True) (start third 0 200)
      ((run step (fun _ _ ↦ True) (start third 0 200) winning).get (by decide)) :=
    Reach.start.run (Option.some_get _).symm
  exact ⟨_, hr, by decide, timers_running third_start (by decide) (by decide) hr (by decide)⟩

end Actor

/-! ## What is committed is emitted -/

/-- Only the two requests to append move the commit index. -/
theorem handle_commitIndex {m m' : Consensus σ C P} {op : Op C} (h : m.handle op = some m') :
    m'.commitIndex = m.commitIndex ∨ (∃ req, op = .appendEntries req) ∨
      ∃ peerId ni reply, op = .aeRes peerId ni reply := by
  cases op with
  | appendEntries req => exact Or.inr (Or.inl ⟨req, rfl⟩)
  | aeRes peerId ni reply => exact Or.inr (Or.inr ⟨peerId, ni, reply, rfl⟩)
  | startElection elapsed =>
    obtain ⟨⟨c, reqs⟩, hc, rfl⟩ := Option.map_eq_some_iff.mp h
    rcases m.onStartElection_cases elapsed with hn | hn | ⟨c', hn, -, hci⟩
    · rw [hn] at hc
      cases hc
    · obtain ⟨rfl, -⟩ := Prod.mk.inj (Option.some_inj.mp (hn.symm.trans hc))
      exact Or.inl rfl
    · obtain ⟨rfl, -⟩ := Prod.mk.inj (Option.some_inj.mp (hn.symm.trans hc))
      exact Or.inl hci
  | voteResult term voted =>
    obtain rfl := Option.some_inj.mp h
    exact Or.inl (Idle.onVoteResult m term voted).commitIndex
  | requestVote req =>
    obtain rfl := Option.some_inj.mp h
    exact Or.inl (Idle.requestVote m req).commitIndex
  | submit cmd =>
    obtain rfl := Option.some_inj.mp h
    exact Or.inl (Idle.onSubmit m cmd).commitIndex
  | sendAes =>
    obtain ⟨⟨c, calls⟩, hc, rfl⟩ := Option.map_eq_some_iff.mp h
    exact Or.inl (m.sendLeaderAes_spec hc).2.1
  | sendCommit =>
    obtain ⟨⟨c, es⟩, hc, rfl⟩ := Option.map_eq_some_iff.mp h
    exact Or.inl (m.sendCommits_spec hc).2.1

/-- A handler that moves the commit index sends a `SendCommit`. -/
theorem sendCommit_mem_posts {m m' : Consensus σ C P} {msg : ConsensusMsg C} {t : Timers}
    {now : ℕ} (h : m.handle (msg.op t now) = some m') (hne : m'.commitIndex ≠ m.commitIndex) :
    .sendCommit ∈ m.posts m' msg := by
  rcases handle_commitIndex h with heq | ⟨req, heq⟩ | ⟨peerId, ni, reply, heq⟩
  · exact absurd heq hne
  · cases msg with
    | appendEntry req => simp [posts, hne]
    | _ => cases heq
  · cases msg with
    | appendEntryResult peerId ni reply => simp [posts, hne]
    | _ => cases heq

omit [Storage σ C] in
/-- `SendCommit` leaves nothing to be emitted, and goes no further than the commit index. -/
theorem sendCommits_clears {m m' : Consensus σ C P} {es : List (CommitEntry C)}
    (h : m.sendCommits = some (m', es)) (hw : Within m) (ha : m.Applied) :
    (∀ ci ∈ m.commitIndex, ci < m'.nextCommit) ∧
      (m'.lastApplied = m.lastApplied ∨ ∃ ci ∈ m.commitIndex, m'.nextCommit = ci + 1) := by
  rw [sendCommits] at h
  cases hci : m.commitIndex with
  | none =>
    rw [hci] at h
    obtain ⟨rfl, -⟩ := Prod.mk.inj (Option.some_inj.mp h)
    exact ⟨fun ci hci ↦ absurd hci (Option.not_mem_none ci), Or.inl rfl⟩
  | some ci =>
    rw [hci] at h
    dsimp only at h
    rw [commitStart_eq ha] at h
    have hlt : ci < m.logs.length := hw ci hci
    split at h
    · obtain ⟨l, -, h⟩ := Option.bind_eq_some_iff.mp h
      obtain ⟨rfl, -⟩ := Prod.mk.inj (Option.some_inj.mp h)
      refine ⟨fun i hi ↦ ?_, Or.inr ⟨ci, rfl, rfl⟩⟩
      obtain rfl := Option.some_inj.mp hi
      exact Nat.lt_succ_self _
    · rename_i hstart
      obtain ⟨rfl, -⟩ := Prod.mk.inj (Option.some_inj.mp h)
      refine ⟨fun i hi ↦ ?_, Or.inl rfl⟩
      obtain rfl := Option.some_inj.mp hi
      omega

namespace Actor

variable {s s' : Actor σ C P}

/-- After the step the node has at most a `usize` of entries, and the committed ones are among
them. -/
def Ranged (s : Actor σ C P) (a : Act C) : Prop :=
  ∀ s' ∈ s.step a, Within s'.next ∧ s'.next.logs.length ≤ usizeMax

instance (s : Actor σ C P) (a : Act C) : Decidable (s.Ranged a) :=
  inferInstanceAs (Decidable (∀ s' ∈ s.step a,
    (∀ ci ∈ s'.next.commitIndex, ci < s'.next.logs.length) ∧ s'.next.logs.length ≤ usizeMax))

/-- The entries emitted so far, from `first` on, and that whatever has yet to be emitted is
announced. -/
structure Tells (first : ℕ) (s : Actor σ C P) : Prop where
  applied : s.next.Applied
  within : Within s.next
  length : s.next.logs.length ≤ usizeMax
  owes : s.panicked = false → ∀ ci ∈ s.next.commitIndex,
    ci < s.next.nextCommit ∨ .sendCommit ∈ s.mailbox ∨ .sendCommit ∈ s.owed
  index : s.emitted.map CommitEntry.index = List.range' first s.emitted.length
  next : s.next.nextCommit = first + s.emitted.length
  bound : s.emitted = [] ∨ ∃ ci ∈ s.next.commitIndex, s.next.nextCommit ≤ ci + 1

theorem Tells.take {first : ℕ} (h : Tells first s) {msg : ConsensusMsg C}
    {msgs : List (ConsensusMsg C)} {now : ℕ} (t : Timers) (busy : s.busy = none)
    (mailbox : s.mailbox = msg :: msgs) {m : Consensus σ C P}
    (hm : s.node.handle (msg.op s.timers now) = some m) (hw : Within m)
    (hlen : m.logs.length ≤ usizeMax) (hp : s.panicked = false) :
    Tells first { s with
      mailbox := msgs
      busy := some ⟨m, t, s.node.posts m msg⟩
      emitted := s.emitted ++ s.node.emits (msg.op s.timers now) } := by
  have hnode : s.next = s.node := by rw [Actor.next, busy]; rfl
  have howed : s.owed = [] := by rw [Actor.owed, busy]; rfl
  obtain ⟨happlied, hwithin, hlength, howes, hindex, hnext, hbound⟩ := h
  rw [hnode] at happlied hwithin hlength howes hnext hbound
  have hemits := Emits.handle hm happlied hlength
  have hcount : m.nextCommit =
      s.node.nextCommit + (s.node.emits (msg.op s.timers now)).length := by
    rw [hemits.next, List.length_map]
  -- a message that is not `SendCommit` emits nothing, and the others leave nothing to be emitted
  have hcases : (m.lastApplied = s.node.lastApplied ∧ s.node.emits (msg.op s.timers now) = [] ∧
      msg ≠ .sendCommit) ∨ ((∀ ci ∈ m.commitIndex, ci < m.nextCommit) ∧
        (m.lastApplied = s.node.lastApplied ∨ ∃ ci ∈ m.commitIndex, m.nextCommit = ci + 1)) := by
    by_cases hmsg : msg = .sendCommit
    · subst hmsg
      obtain ⟨⟨c, es⟩, hc, rfl⟩ := Option.map_eq_some_iff.mp hm
      have hclears := sendCommits_clears hc hwithin happlied
      rw [← (s.node.sendCommits_spec hc).2.1] at hclears
      exact Or.inr hclears
    · have hop : msg.op s.timers now ≠ .sendCommit := fun heq ↦ by
        cases msg with
        | sendCommit => exact hmsg rfl
        | _ => cases heq
      exact Or.inl ⟨handle_lastApplied hm hop, emits_of_ne _ hop, hmsg⟩
  have hsame : m.lastApplied = s.node.lastApplied → m.nextCommit = s.node.nextCommit :=
    fun heq ↦ by rw [nextCommit, nextCommit, heq]
  constructor
  · exact hemits.applied
  · exact hw
  · exact hlen
  · intro _ ci hci
    rcases hcases with ⟨hla, -, hmsg⟩ | ⟨hclear, -⟩
    · by_cases heq : m.commitIndex = s.node.commitIndex
      · rcases howes hp ci (heq ▸ hci) with hlt | hmem | hmem
        · exact Or.inl ((hsame hla).symm ▸ hlt)
        · rw [mailbox] at hmem
          exact Or.inr (Or.inl ((List.mem_cons.mp hmem).resolve_left (Ne.symm hmsg)))
        · rw [howed] at hmem
          cases hmem
      · exact Or.inr (Or.inr (sendCommit_mem_posts hm heq))
    · exact Or.inl (hclear ci hci)
  · have hidx := hemits.index
    rw [List.map_map, List.length_map, hnext] at hidx
    rw [List.map_append, hindex, List.length_append, ← List.range'_append_1]
    exact congrArg _ hidx
  · rw [List.length_append, ← Nat.add_assoc, ← hnext]
    exact hcount
  · have hold : m.lastApplied = s.node.lastApplied ∨
        ∃ ci ∈ m.commitIndex, m.nextCommit = ci + 1 := by
      rcases hcases with ⟨hla, -, -⟩ | ⟨-, hold⟩
      · exact Or.inl hla
      · exact hold
    rcases hold with hla | ⟨ci, hci, heq⟩
    · have hnil : s.node.emits (msg.op s.timers now) = [] :=
        List.length_eq_zero_iff.mp (Nat.left_eq_add.mp ((hsame hla).symm.trans hcount))
      rcases hbound with hempty | ⟨ci, hci, hle⟩
      · exact Or.inl (by rw [hempty, hnil, List.append_nil])
      · obtain ⟨ci', hci', hle'⟩ := notLess_commitIndex hm ci hci
        exact Or.inr ⟨ci', hci', (hsame hla).le.trans (hle.trans (Nat.succ_le_succ hle'))⟩
    · exact Or.inr ⟨ci, hci, heq.le⟩

theorem Tells.step {first : ℕ} (h : Tells first s) {a : Act C} (hok : s.Ranged a)
    (hs : s.step a = some s') : Tells first s' := by
  obtain ⟨hw, hlen⟩ := hok s' hs
  obtain ⟨hp, hchange⟩ := step_change hs
  cases hchange with
  | put msg room hs' =>
    subst hs'
    refine { h with owes := fun _ ci hci ↦ ?_ }
    rcases h.owes hp ci hci with hlt | hmem | hmem
    · exact Or.inl hlt
    · exact Or.inr (Or.inl (List.mem_append_left _ hmem))
    · exact Or.inr (Or.inr hmem)
  | panic msg msgs now busy mailbox hm hs' =>
    subst hs'
    exact { h with owes := fun hf ↦ absurd hf (by simp) }
  | take msg msgs now timeout low high busy mailbox m hm hs' =>
    subst hs'
    exact h.take _ busy mailbox hm hw hlen hp
  | send m t msg msgs busy room hs' =>
    subst hs'
    obtain ⟨happlied, hwithin, hlength, howes, hindex, hnext, hbound⟩ := h
    rw [Actor.next, busy] at happlied hwithin hlength howes hnext hbound
    rw [Actor.owed, busy] at howes
    refine ⟨happlied, hwithin, hlength, fun _ ci hci ↦ ?_, hindex, hnext, hbound⟩
    -- a `SendCommit` goes from the handler into the mailbox
    rcases howes hp ci hci with hlt | hmem | hmem
    · exact Or.inl hlt
    · exact Or.inr (Or.inl (List.mem_append_left _ hmem))
    · rcases List.mem_cons.mp hmem with heq | hmem
      · exact Or.inr (Or.inl (heq ▸ List.mem_append_right _ List.mem_cons_self))
      · exact Or.inr (Or.inr hmem)
  | finish m t busy hs' =>
    subst hs'
    obtain ⟨happlied, hwithin, hlength, howes, hindex, hnext, hbound⟩ := h
    rw [Actor.next, busy] at happlied hwithin hlength howes hnext hbound
    rw [Actor.owed, busy] at howes
    exact ⟨happlied, hwithin, hlength, howes, hindex, hnext, hbound⟩

/-- **Everything committed is emitted.**  A node that has started handles whatever messages it gets,
and after each step its commit index is below the length of its log.  Whenever it is not at work,
has not panicked and no `SendCommit` is waiting, it has emitted exactly the entries from the one
after the restored `last_applied` up to its commit index, in order and once each. -/
theorem emitted_up_to_commit {id : String} {st : σ} {urls : List (String × P)}
    {node : Consensus σ C P} (hs : (Consensus.new id st).start urls = some node)
    (hla : ∀ la ∈ restoredApplied st, la < usizeMax) (hlen : node.logs.length ≤ usizeMax)
    {now timeout : ℕ} (h : Reach step Ranged (start node now timeout) s)
    (hp : s.panicked = false) (hb : s.busy = none) (hno : .sendCommit ∉ s.mailbox) :
    s.emitted.map CommitEntry.index =
      List.range' (((restoredApplied st).map (· + 1)).getD 0)
        (s.node.commitIndex.elim 0 (· + 1) - ((restoredApplied st).map (· + 1)).getD 0) := by
  set first := ((restoredApplied st).map (· + 1)).getD 0
  have hci : node.commitIndex = none := by
    obtain ⟨peers, rfl, -⟩ := Consensus.start_spec hs
    exact new_commitIndex id st
  have hnone : ∀ ci, ci ∉ node.commitIndex := fun ci ↦ hci ▸ Option.not_mem_none ci
  have happlied := start_lastApplied hs
  have hinit : Tells first (start node now timeout) :=
    { applied := by
        rw [← happlied] at hla
        exact hla
      within := fun ci h ↦ absurd h (hnone ci)
      length := hlen
      owes := fun _ ci h ↦ absurd h (hnone ci)
      index := rfl
      next := congrArg (fun la : Option ℕ ↦ (la.map (· + 1)).getD 0) happlied
      bound := Or.inl rfl }
  have htells : Tells first s := h.inv hinit fun _ _ _ hi hok hstep ↦ hi.step hok hstep
  have hnode : s.next = s.node := by rw [Actor.next, hb]; rfl
  have howed : s.owed = [] := by rw [Actor.owed, hb]; rfl
  obtain ⟨-, -, -, howes, hindex, hnext, hbound⟩ := htells
  rw [hnode] at howes hnext hbound
  rw [hindex]
  congr 1
  cases hcommit : s.node.commitIndex with
  | none =>
    rcases hbound with hempty | ⟨ci, hci, -⟩
    · rw [hempty]
      exact (Nat.zero_sub first).symm
    · rw [hcommit] at hci
      cases hci
  | some ci =>
    have hlt : ci < s.node.nextCommit := by
      rcases howes hp ci hcommit with hlt | hmem | hmem
      · exact hlt
      · exact absurd hmem hno
      · rw [howed] at hmem
        cases hmem
    dsimp only [Option.elim]
    rcases hbound with hempty | ⟨i, hi, hle⟩
    · rw [hempty] at hnext ⊢
      simp only [List.length_nil] at hnext ⊢
      omega
    · obtain rfl : ci = i := Option.some_inj.mp (hcommit.symm.trans hi)
      omega

/-- The node follows, and hears of two entries of which the first is committed. -/
def following : List (Act ℕ) :=
  [.post (.appendEntry ⟨1, "b", none, none, [⟨7, 1⟩, ⟨8, 1⟩], some 0⟩), .take 10 200, .send,
    .finish, .take 11 200, .finish]

theorem emitted_up_to_commit_follower :
    ∃ s, Reach step Ranged (start third 0 200) s ∧ s.node.commitIndex = some 0 ∧
      s.emitted.map CommitEntry.index = [0] := by
  have hr : Reach step Ranged (start third 0 200)
      ((run step Ranged (start third 0 200) following).get (by decide)) :=
    Reach.start.run (Option.some_get _).symm
  have hla : ∀ la ∈ restoredApplied (⟨PersistentState.default, []⟩ : MockStorage ℕ),
      la < usizeMax := by decide
  exact ⟨_, hr, by decide, emitted_up_to_commit third_start hla (by decide) hr (by decide)
    (by decide) (by decide)⟩

end Actor

/-! ## A mailbox that is not too full -/

/-- How many messages its handler may send. -/
def ConsensusMsg.sends : ConsensusMsg C → ℕ
  | .submit _ | .voteResult _ _ | .appendEntry _ => 1
  | .appendEntryResult _ _ _ => 2
  | .startElection _ | .sendCommit | .sendAes | .requestVote _ => 0

omit [Storage σ C] in
theorem length_posts_le (m m' : Consensus σ C P) (msg : ConsensusMsg C) :
    (m.posts m' msg).length ≤ msg.sends := by
  cases msg with
  | submit cmd => rw [posts]; split <;> simp [ConsensusMsg.sends]
  | voteResult term voted => rw [posts]; split <;> simp [ConsensusMsg.sends]
  | appendEntry req => rw [posts]; split <;> simp [ConsensusMsg.sends]
  | appendEntryResult peerId ni reply => rw [posts]; split <;> simp [ConsensusMsg.sends]
  | _ => exact Nat.zero_le _

omit [Storage σ C] in
/-- What a handler sends makes its own handler send nothing. -/
theorem sends_of_mem_posts {m m' : Consensus σ C P} {msg x : ConsensusMsg C}
    (h : x ∈ m.posts m' msg) : x.sends = 0 := by
  have hx : x = .sendCommit ∨ x = .sendAes := by
    cases msg with
    | submit cmd => rw [posts] at h; split at h <;> simp_all
    | voteResult term voted => rw [posts] at h; split at h <;> simp_all
    | appendEntry req => rw [posts] at h; split at h <;> simp_all
    | appendEntryResult peerId ni reply => rw [posts] at h; split at h <;> simp_all
    | _ => cases h
  rcases hx with rfl | rfl
  · rfl
  · rfl

theorem sends_le_two (msg : ConsensusMsg C) : msg.sends ≤ 2 := by
  cases msg <;> simp [ConsensusMsg.sends]

/-- The messages and those that handling them may send. -/
def load : List (ConsensusMsg C) → ℕ
  | [] => 0
  | msg :: msgs => msg.sends + 1 + load msgs

theorem load_cons (msg : ConsensusMsg C) (msgs : List (ConsensusMsg C)) :
    load (msg :: msgs) = msg.sends + 1 + load msgs := rfl

theorem load_concat (msgs : List (ConsensusMsg C)) (msg : ConsensusMsg C) :
    load (msgs ++ [msg]) = load msgs + (msg.sends + 1) := by
  induction msgs with
  | nil => rw [List.nil_append, load_cons, load, Nat.zero_add, Nat.add_zero]
  | cons m msgs ih =>
    rw [List.cons_append, load_cons, load_cons, ih]
    omega

theorem length_le_load (msgs : List (ConsensusMsg C)) : msgs.length ≤ load msgs := by
  induction msgs with
  | nil => exact Nat.le_refl 0
  | cons msg msgs ih =>
    rw [load_cons, List.length_cons]
    omega

namespace Actor

variable {s s' : Actor σ C P}

/-- A step of the actor itself.  If it takes a message then at the time `now`. -/
def Act.Own (now timeout : ℕ) : Act C → Prop
  | .take t d => t = now ∧ d = timeout
  | .send | .finish => True
  | .post _ | .tick _ | .beat => False

/-- There is nothing left to do. -/
def Done (s : Actor σ C P) : Prop := s.panicked = true ∨ (s.busy = none ∧ s.mailbox = [])

/-- Everything that is waiting, or may have to, fits into the mailbox. -/
structure Fits (s : Actor σ C P) : Prop where
  load : load s.mailbox + s.owed.length + (if s.busy.isSome then 1 else 0) ≤ 1024
  light : ∀ msg ∈ s.owed, msg.sends = 0

/-- What is left to do. -/
def work (s : Actor σ C P) : ℕ :=
  4 * Efis.load s.mailbox + (s.busy.map fun b ↦ 5 * b.sends.length + 1).getD 0

/-- The next step of the actor itself. -/
theorem Fits.next_step (h : Fits s) (hd : ¬ Done s) (now : ℕ) {timeout : ℕ} (low : 150 ≤ timeout)
    (high : timeout ≤ 300) :
    ∃ a s', a.Own now timeout ∧ s.step a = some s' ∧ work s' < work s ∧ Fits s' := by
  have hp : s.panicked = false := by
    rw [← Bool.not_eq_true]
    exact fun hp ↦ hd (Or.inl hp)
  have hact := step_eq_act hp
  obtain ⟨hload, hlight⟩ := h
  cases hb : s.busy with
  | none =>
    rw [owed, hb] at hload
    cases hm : s.mailbox with
    | nil => exact absurd (Or.inr ⟨hb, hm⟩) hd
    | cons msg msgs =>
      rw [hm, load_cons] at hload
      simp only [Option.map_none, Option.getD_none, List.length_nil, Option.isSome_none,
        Bool.false_eq_true, if_false] at hload
      refine ⟨.take now timeout, _, ⟨rfl, rfl⟩, step_take hp hb hm now low high, ?_⟩
      rw [handle]
      cases hr : s.node.handle (msg.op s.timers now) with
      | none =>
        refine ⟨?_, ?_, ?_⟩
        · simp only [work, hm, hb, load_cons, Option.map_none, Option.getD_none]
          omega
        · simp only [owed, hb, Option.map_none, Option.getD_none, List.length_nil,
            Option.isSome_none, Bool.false_eq_true, if_false]
          omega
        · simp [owed, hb]
      | some m =>
        have hposts := length_posts_le s.node m msg
        refine ⟨?_, ?_, fun x hx ↦ sends_of_mem_posts hx⟩
        · have htwo := sends_le_two msg
          simp only [work, hm, hb, load_cons, Option.map_some, Option.getD_some, Option.map_none,
            Option.getD_none]
          omega
        · simp only [owed, Option.map_some, Option.getD_some, Option.isSome_some, if_true]
          omega
  | some b =>
    obtain ⟨m, t, msgs⟩ := b
    simp only [owed, hb, Option.map_some, Option.getD_some] at hload hlight
    cases msgs with
    | nil =>
      refine ⟨.finish, { s with node := m, timers := t, busy := none }, trivial, ?_, ?_, ?_, ?_⟩
      · rw [hact, act, hb]
      · simp [work, hb]
      · simp only [owed, Option.map_none, Option.getD_none, List.length_nil, Option.isSome_none,
          Bool.false_eq_true, if_false]
        omega
      · simp [owed]
    | cons x xs =>
      have hx : x.sends = 0 := hlight x List.mem_cons_self
      have hlen := length_le_load s.mailbox
      simp only [List.length_cons, Option.isSome_some, if_true] at hload
      refine ⟨.send, { s with mailbox := s.mailbox ++ [x], busy := some ⟨m, t, xs⟩ }, trivial, ?_,
        ?_, ?_, fun y hy ↦ hlight y (List.mem_cons_of_mem x hy)⟩
      · rw [hact, act, hb]
        simp only [put]
        rw [if_pos (by omega)]
        rfl
      · simp only [work, hb, load_concat, hx, Option.map_some, Option.getD_some, List.length_cons]
        omega
      · simp only [owed, load_concat, hx, Option.map_some, Option.getD_some, Option.isSome_some,
          if_true]
        omega

/-- **The actor gets through its mailbox.**  If the messages in the mailbox and those that handling
them may send are no more than the mailbox has places for, then the actor, as long as nobody else
sends, gets to where its mailbox is empty, or panics on the way, whatever the time. -/
theorem mailbox_drains (hb : s.busy = none) (hload : load s.mailbox ≤ 1024) (now : ℕ)
    {timeout : ℕ} (low : 150 ≤ timeout) (high : timeout ≤ 300) :
    ∃ s', Reach step (fun _ a ↦ a.Own now timeout) s s' ∧ Done s' := by
  have hfits : Fits s := by
    refine ⟨?_, ?_⟩
    · rw [owed, hb]
      simpa using hload
    · simp [owed, hb]
  have hnext : ∀ s : Actor σ C P, Fits s → ¬ Done s →
      ∃ s', Reach step (fun _ a ↦ a.Own now timeout) s s' ∧ Fits s' ∧ work s' < work s := by
    intro s hfits hd
    obtain ⟨a, s₁, hown, hstep, hlt, hfits₁⟩ := hfits.next_step hd now low high
    exact ⟨s₁, Reach.start.step hown hstep, hfits₁, hlt⟩
  obtain ⟨s', hreach, -, hdone⟩ := exists_reach work hnext hfits
  exact ⟨s', hreach, hdone⟩

/-- A command, a late vote and the election timer wait for a follower. -/
theorem mailbox_drains_follower :
    ∃ s, Reach step (fun _ a ↦ a.Own 700 200) { start third 0 200 with
      mailbox := [.submit 7, .voteResult 1 true, .startElection 200] } s ∧ Done s :=
  mailbox_drains rfl (by decide) 700 (by decide) (by decide)

/-! ## A mailbox that is full -/

/-- A handler waits for a place in a mailbox that only it can empty. -/
def Blocked (s : Actor σ C P) : Prop :=
  ∃ m t msg msgs, s.busy = some ⟨m, t, msg :: msgs⟩ ∧ 1024 ≤ s.mailbox.length

/-- Nothing can happen any more if and only if the actor has panicked or waits for itself. -/
theorem stuck_iff : (∀ a, s.step a = none) ↔ s.panicked = true ∨ Blocked s := by
  constructor
  · intro h
    by_contra hne
    obtain ⟨hp, hblocked⟩ := not_or.mp hne
    have hact : ∀ a, s.act a = none := fun a ↦ by
      have ha := h a
      rwa [step, if_neg hp] at ha
    have hroom : ¬ s.mailbox.length < 1024 := fun hroom ↦ by
      have ha := hact (.post .sendAes)
      rw [act, put, if_pos hroom] at ha
      cases ha
    cases hb : s.busy with
    | none =>
      have ha := hact (.take 0 150)
      rw [act, hb] at ha
      cases hm : s.mailbox with
      | nil => simp [hm] at hroom
      | cons msg msgs => simp [hm] at ha
    | some b =>
      obtain ⟨m, t, msgs⟩ := b
      cases msgs with
      | nil =>
        have ha := hact .finish
        rw [act, hb] at ha
        cases ha
      | cons msg msgs => exact hblocked ⟨m, t, msg, msgs, hb, Nat.le_of_not_lt hroom⟩
  · rintro (hp | ⟨m, t, msg, msgs, hb, hfull⟩) a
    · rw [step, if_pos hp]
    · have hput : ∀ msg, s.put msg = none := fun msg ↦ by
        rw [put, if_neg (Nat.not_lt.mpr hfull)]
      rw [step]
      split
      · rfl
      · cases a with
        | post msg => exact hput msg
        | tick timeout =>
          rw [act, hput]
          split <;> rfl
        | beat =>
          rw [act, hput]
          split <;> rfl
        | take now timeout => rw [act, hb]
        | send =>
          rw [act, hb]
          dsimp only
          rw [hput]
          rfl
        | finish => rw [act, hb]

/-- Nobody sends the actor anything, except that a client submits the command. -/
def Act.Submits (cmd : C) : Act C → Prop
  | .post msg => msg = .submit cmd
  | .tick _ | .beat => False
  | .take _ _ | .send | .finish => True

/-- The client fills the mailbox. -/
theorem reach_fill (hp : s.panicked = false) (cmd : C) (k : ℕ)
    (hk : s.mailbox.length + k ≤ 1024) :
    Reach step (fun _ a ↦ a.Submits cmd) s
      { s with mailbox := s.mailbox ++ List.replicate k (.submit cmd) } := by
  induction k with
  | zero =>
    rw [List.replicate_zero, List.append_nil]
    exact .start
  | succ k ih =>
    let s' : Actor σ C P := { s with mailbox := s.mailbox ++ List.replicate k (.submit cmd) }
    have hroom : s'.mailbox.length < 1024 := by
      rw [List.length_append, List.length_replicate]
      omega
    have hpost : s'.step (.post (.submit cmd)) = _ := step_post (s := s') hp hroom _
    rw [List.append_assoc, ← List.replicate_succ'] at hpost
    exact (ih (by omega)).step (a := .post (.submit cmd)) rfl hpost

/-- **Every leader can be made to wait for itself.**  From every state in which a leader has
nothing to do there is a run, in which a client submits some command again and again and nobody else
sends anything, to a state in which nothing can happen any more, although the actor has not
panicked: its mailbox fills up while it handles a command, and it waits for a place to send itself a
`SendAES`. -/
theorem leader_blocks (hp : s.panicked = false) (hl : s.node.state = .leader)
    (hb : s.busy = none) (hm : s.mailbox = []) (cmd : C) :
    ∃ s', Reach step (fun _ a ↦ a.Submits cmd) s s' ∧ s'.panicked = false ∧
      ∀ a, s'.step a = none := by
  let s₁ : Actor σ C P := { s with mailbox := s.mailbox ++ [.submit cmd] }
  let s₂ : Actor σ C P := { s₁ with mailbox := [] }.handle (.submit cmd) 0 150
  have hpost : s.step (.post (.submit cmd)) = some s₁ := step_post hp (by simp [hm]) _
  have htake : s₁.step (.take 0 150) = some s₂ :=
    step_take (s := s₁) hp hb (by simp [s₁, hm]) 0 (by decide) (by decide)
  have hs₂ : s₂ = { s with
      mailbox := [], busy := some ⟨s.node.submit cmd, s.timers, [.sendAes]⟩ } := by
    simp [s₂, s₁, handle, Consensus.handle, ConsensusMsg.op, onSubmit, hl, posts, emits,
      Timers.handle]
  have hp₂ : s₂.panicked = false := hs₂ ▸ hp
  have hm₂ : s₂.mailbox = [] := by rw [hs₂]
  have hsubmit : Reach step (fun _ a ↦ a.Submits cmd) s s₁ :=
    .step (a := .post (.submit cmd)) .start rfl hpost
  have hreach : Reach step (fun _ a ↦ a.Submits cmd) s s₂ :=
    hsubmit.step (a := .take 0 150) trivial htake
  refine ⟨_, hreach.trans (reach_fill hp₂ cmd 1024 (by rw [hm₂]; rfl)), hp₂, ?_⟩
  refine stuck_iff.mpr (Or.inr ⟨s.node.submit cmd, s.timers, .sendAes, [], ?_, ?_⟩)
  · rw [hs₂]
  · rw [hm₂, List.nil_append, List.length_replicate]

/-- The leader that was just elected, and a client that submits the command 7. -/
theorem leader_blocks_elected :
    ∃ s s', Reach step (fun _ _ ↦ True) (start third 0 200) s ∧ s.node.state = .leader ∧
      Reach step (fun _ a ↦ a.Submits 7) s s' ∧ s'.panicked = false ∧
      s'.step .send = none ∧ s'.step (.take 730 200) = none := by
  have hr : Reach step (fun _ _ ↦ True) (start third 0 200)
      ((run step (fun _ _ ↦ True) (start third 0 200) winning).get (by decide)) :=
    Reach.start.run (Option.some_get _).symm
  obtain ⟨s, hs, hp, hstuck⟩ := leader_blocks (by decide) (by decide) (by decide) (by decide) 7
    (s := (run step (fun _ _ ↦ True) (start third 0 200) winning).get (by decide))
  exact ⟨_, s, hr, by decide, hs, hp, hstuck .send, hstuck (.take 730 200)⟩

end Actor

end Efis
