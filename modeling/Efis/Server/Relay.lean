import Efis.Channel.Ring
import Efis.Consensus.Persist
import Efis.Transition.Reach

/-!
# From the actor to the apply loop

What `send_commits` emits passes two broadcast channels on its way to `process_cmd`: the commit
channel of the actor, with 1024 places, and the one that `subscribe` makes, with 16.  A task reads
the one and writes the other.  It and the apply loop both take the news that they lag for a reason
to try again, so the values they have missed are never applied.

Whatever the scheduling, the commands the apply loop executes are a subsequence of the emitted ones
(`executed_sublist`).  They are a prefix as long as each `send` finds fewer values waiting than its
channel has places (`executed_isPrefix`), and need not be otherwise (`not_executed_isPrefix`).
-/

set_option autoImplicit false

namespace Efis

open Channel Transition

/-- The process from where `Efis` has subscribed. -/
structure Relay (σ C P : Type) where
  node : Consensus σ C P
  /-- What the running `send_commits` still has to send. -/
  outbox : List (CommitEntry C)
  /-- `commit_chan`, with the relay task as its reader. -/
  commitChan : Link (CommitEntry C) 1024
  /-- The entry the relay task has in hand. -/
  hand : Option (CommitEntry C)
  /-- The channel of `subscribe`, with the apply loop as its reader. -/
  cmdChan : Link (CommitEntry C) 16
  emitted : List (CommitEntry C)
  relayed : List (CommitEntry C)
  executed : List (CommitEntry C)

namespace Relay

inductive Act (C : Type) where
  /-- The actor takes a message. -/
  | actor (op : Op C)
  /-- `send_commits` sends its next entry. -/
  | emit
  | relayRecv
  | relaySend
  | apply

variable {σ C P : Type}

section

variable [Storage σ C]

/-- One step of the actor, of the relay task or of the apply loop. -/
def step (s : Relay σ C P) : Act C → Option (Relay σ C P)
  | .actor op =>
    match s.outbox, op with
    | [], .sendCommit => s.node.sendCommits.map fun r ↦ { s with node := r.1, outbox := r.2 }
    | [], op => (s.node.handle op).map fun node ↦ { s with node := node }
    | _ :: _, _ => none
  | .emit =>
    match s.outbox with
    | e :: es => some { s with
        outbox := es, commitChan := s.commitChan.send e, emitted := s.emitted ++ [e] }
    | [] => none
  | .relayRecv =>
    match s.hand with
    | none => s.commitChan.recv.map fun r ↦ { s with hand := r.1, commitChan := r.2 }
    | some _ => none
  | .relaySend =>
    match s.hand with
    | some e => some { s with
        hand := none, cmdChan := s.cmdChan.send e, relayed := s.relayed ++ [e] }
    | none => none
  | .apply =>
    s.cmdChan.recv.map fun r ↦ { s with
      cmdChan := r.2, executed := s.executed ++ r.1.toList }

/-- The moment `Efis` subscribes.  What the commit channel holds by then does not concern it. -/
def start (node : Consensus σ C P) (chan : Ring (CommitEntry C) 1024) : Relay σ C P where
  node := node
  outbox := []
  commitChan := Link.subscribe chan
  hand := none
  cmdChan := Link.subscribe .new
  emitted := []
  relayed := []
  executed := []

end

/-- A `send` finds a free place. -/
def KeepsUp (s : Relay σ C P) : Act C → Prop
  | .emit => s.commitChan.backlog < 1024
  | .relaySend => s.cmdChan.backlog < 16
  | _ => True

instance (s : Relay σ C P) (a : Act C) : Decidable (s.KeepsUp a) :=
  match a with
  | .emit => inferInstanceAs (Decidable (_ < _))
  | .relaySend => inferInstanceAs (Decidable (_ < _))
  | .actor _ | .relayRecv | .apply => inferInstanceAs (Decidable True)

/-! ## The invariants -/

structure Lossy (base : ℕ) (s : Relay σ C P) : Prop where
  commit : s.commitChan.Lossy base s.emitted (s.relayed ++ s.hand.toList)
  cmd : s.cmdChan.Lossy 0 s.relayed s.executed

structure Exact (base : ℕ) (s : Relay σ C P) : Prop where
  commit : s.commitChan.Exact base s.emitted (s.relayed ++ s.hand.toList)
  cmd : s.cmdChan.Exact 0 s.relayed s.executed

variable {s s' : Relay σ C P} {base : ℕ}

theorem exact_start (node : Consensus σ C P) (chan : Ring (CommitEntry C) 1024) :
    Exact chan.tail (start node chan) :=
  ⟨Link.exact_subscribe chan, Link.exact_subscribe .new⟩

section

variable [Storage σ C]

/-- What a step does to the two channels. -/
theorem step_cases {a : Act C} (h : s.step a = some s') :
    (∃ op, a = .actor op ∧ s'.commitChan = s.commitChan ∧ s'.cmdChan = s.cmdChan ∧
      s'.hand = s.hand ∧ s'.emitted = s.emitted ∧ s'.relayed = s.relayed ∧
      s'.executed = s.executed) ∨
    (∃ e es, a = .emit ∧ s' = { s with
      outbox := es, commitChan := s.commitChan.send e, emitted := s.emitted ++ [e] }) ∨
    (∃ o l, a = .relayRecv ∧ s.hand = none ∧ s.commitChan.recv = some (o, l) ∧
      s' = { s with hand := o, commitChan := l }) ∨
    (∃ e, a = .relaySend ∧ s.hand = some e ∧ s' = { s with
      hand := none, cmdChan := s.cmdChan.send e, relayed := s.relayed ++ [e] }) ∨
    (∃ o l, a = .apply ∧ s.cmdChan.recv = some (o, l) ∧
      s' = { s with cmdChan := l, executed := s.executed ++ o.toList }) := by
  cases a with
  | actor op =>
    refine Or.inl ⟨op, rfl, ?_⟩
    simp only [step] at h
    split at h
    · obtain ⟨r, -, rfl⟩ := Option.map_eq_some_iff.mp h
      exact ⟨rfl, rfl, rfl, rfl, rfl, rfl⟩
    · obtain ⟨r, -, rfl⟩ := Option.map_eq_some_iff.mp h
      exact ⟨rfl, rfl, rfl, rfl, rfl, rfl⟩
    · cases h
  | emit =>
    simp only [step] at h
    split at h
    · rename_i e es _
      exact Or.inr (Or.inl ⟨e, es, rfl, (Option.some_inj.mp h).symm⟩)
    · cases h
  | relayRecv =>
    simp only [step] at h
    split at h
    · rename_i hh
      obtain ⟨r, hr, rfl⟩ := Option.map_eq_some_iff.mp h
      exact Or.inr (Or.inr (Or.inl ⟨r.1, r.2, rfl, hh, hr, rfl⟩))
    · cases h
  | relaySend =>
    simp only [step] at h
    split at h
    · rename_i e hh
      exact Or.inr (Or.inr (Or.inr (Or.inl ⟨e, rfl, hh, (Option.some_inj.mp h).symm⟩)))
    · cases h
  | apply =>
    obtain ⟨r, hr, rfl⟩ := Option.map_eq_some_iff.mp h
    exact Or.inr (Or.inr (Or.inr (Or.inr ⟨r.1, r.2, rfl, hr, rfl⟩)))

theorem Lossy.step (h : Lossy base s) {a : Act C} (hs : s.step a = some s') : Lossy base s' := by
  rcases step_cases hs with ⟨op, -, h1, h2, h3, h4, h5, h6⟩ | ⟨e, es, -, rfl⟩ |
    ⟨o, l, -, hh, hr, rfl⟩ | ⟨e, -, hh, rfl⟩ | ⟨o, l, -, hr, rfl⟩
  · constructor
    · rw [h1, h3, h4, h5]
      exact h.commit
    · rw [h2, h5, h6]
      exact h.cmd
  · exact ⟨h.commit.send e, h.cmd⟩
  · have hc := h.commit
    rw [hh, Option.toList_none, List.append_nil] at hc
    exact ⟨hc.recv hr, h.cmd⟩
  · have hc := h.commit
    rw [hh] at hc
    exact ⟨by rw [Option.toList_none, List.append_nil]; exact hc, h.cmd.send e⟩
  · exact ⟨h.commit, h.cmd.recv hr⟩

theorem Exact.step (h : Exact base s) {a : Act C} (hok : s.KeepsUp a) (hs : s.step a = some s') :
    Exact base s' := by
  rcases step_cases hs with ⟨op, rfl, h1, h2, h3, h4, h5, h6⟩ | ⟨e, es, rfl, rfl⟩ |
    ⟨o, l, rfl, hh, hr, rfl⟩ | ⟨e, rfl, hh, rfl⟩ | ⟨o, l, rfl, hr, rfl⟩
  · constructor
    · rw [h1, h3, h4, h5]
      exact h.commit
    · rw [h2, h5, h6]
      exact h.cmd
  · exact ⟨h.commit.send hok e, h.cmd⟩
  · have hc := h.commit
    rw [hh, Option.toList_none, List.append_nil] at hc
    exact ⟨hc.recv hr, h.cmd⟩
  · have hc := h.commit
    rw [hh] at hc
    exact ⟨by rw [Option.toList_none, List.append_nil]; exact hc, h.cmd.send hok e⟩
  · exact ⟨h.commit, h.cmd.recv hr⟩

/-! ## Runs -/

/-- The apply loop executes nothing that was not emitted, nothing twice, and in order. -/
theorem executed_sublist {ok : Relay σ C P → Act C → Prop} {node : Consensus σ C P}
    {chan : Ring (CommitEntry C) 1024} (h : Reach step ok (start node chan) s) :
    s.executed.Sublist s.emitted := by
  have h₀ := exact_start node chan
  have hinv : Lossy chan.tail s :=
    h.inv ⟨h₀.commit.lossy, h₀.cmd.lossy⟩ fun _ _ _ hi _ hs ↦ hi.step hs
  exact hinv.cmd.sublist.trans ((List.sublist_append_left _ _).trans hinv.commit.sublist)

/-- **No committed command is skipped**, in every run in which each `send` finds a free place. -/
theorem executed_isPrefix (node : Consensus σ C P) (chan : Ring (CommitEntry C) 1024)
    (h : Reach step KeepsUp (start node chan) s) : s.executed <+: s.emitted := by
  have hinv : Exact chan.tail s :=
    h.inv (exact_start node chan) fun _ _ _ hi hok hs ↦ hi.step hok hs
  exact hinv.cmd.isPrefix.trans ((List.prefix_append _ _).trans hinv.commit.isPrefix)

end

/-- A follower that has nothing yet. -/
def follower : Relay (MockStorage ℕ) ℕ Unit :=
  start (Consensus.new "a" ⟨PersistentState.default, []⟩) .new

/-- Its leader sends the given commands and has them committed, and the follower emits them. -/
def commands (cmds : List ℕ) : List (Act ℕ) :=
  [.actor (.appendEntries ⟨1, "b", none, none, cmds.map (⟨·, 1⟩), some (cmds.length - 1)⟩),
    .actor .sendCommit] ++ cmds.map fun _ ↦ .emit

/-- A command that is relayed and applied before the next. -/
theorem executed_isPrefix_follower :
    ∃ s, Reach step KeepsUp follower s ∧ s.executed = [⟨7, 1, 0⟩] ∧
      s.emitted = [⟨7, 1, 0⟩, ⟨8, 1, 1⟩] ∧ s.executed <+: s.emitted := by
  let as : List (Act ℕ) := commands [7, 8] ++ [.relayRecv, .relaySend, .apply]
  have hr : Reach step KeepsUp follower ((run step KeepsUp follower as).get (by decide)) :=
    Reach.start.run (Option.some_get _).symm
  exact ⟨_, hr, by decide, by decide, executed_isPrefix _ _ hr⟩

/-- Seventeen commands are relayed before the apply loop reads the first, and that is lost. -/
theorem not_executed_isPrefix :
    ∃ s, Reach step (fun _ _ ↦ True) follower s ∧ ¬ s.executed <+: s.emitted := by
  let as : List (Act ℕ) := commands (List.range 17) ++
    (List.replicate 17 [.relayRecv, .relaySend]).flatten ++ [.apply, .apply]
  have hr : Reach step (fun _ _ ↦ True) follower
      ((run step (fun _ _ ↦ True) follower as).get (by decide)) :=
    Reach.start.run (Option.some_get _).symm
  exact ⟨_, hr, by decide⟩

end Relay

end Efis
