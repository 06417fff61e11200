import Efis.Consensus.Persist
import Efis.Transition.Reach

/-!
# Whose reply a client gets

The write requests of one process: `Efis::handle_consensus` on one side, the consensus actor and
the apply loop on the other, and between them the map `subs` from log indices to waiting requests.

A request reads `log_index`, sends its command to the actor, and then waits under the index it
has read.  Nothing makes that the index at which the actor appends the command.  Another request
may have read the same index; the actor may no longer lead, and drop the command; or the log may
have been cut back in between.  Whoever waits under an index gets the result of whatever command is
applied there (`not_replies_own`).

`Reserved` says of a step that an index which an unfinished request has read is left to that
request.  In a run of such steps every answer is the result of the request's own command, and no
waiter is overwritten (`replies_own`).

Each command carries the number of its request.  The number is not in the source and nothing looks
at it: it is there so that "its own command" can be said.  Any number of requests can be under way,
the steps of each interleave freely with all others, and of the entries the actor emits any can get
lost on the way to the apply loop.
-/

set_option autoImplicit false

namespace Efis

open Transition

/-! ## The process -/

/-- A command together with the number of the request it came with. -/
structure Request (Cmd : Type) where
  rid : ℕ
  cmd : Cmd
  deriving DecidableEq

/-- How a request ends. -/
inductive Outcome (Cmd R : Type) where
  /-- The apply loop sent the result of this entry. -/
  | answered (e : CommitEntry (Request Cmd)) (r : R)
  /-- Another request took the place in `subs`. -/
  | dropped
  | timedOut
  deriving DecidableEq

/-- How far a request has come. -/
inductive Phase (Cmd R : Type) where
  | idle
  /-- The check that this node leads has passed. -/
  | called (cmd : Cmd)
  /-- `submit` has read `log_index`. -/
  | loaded (cmd : Cmd) (index : ℕ)
  /-- `submit` has sent the command to the actor. -/
  | sent (cmd : Cmd) (index : ℕ)
  /-- The request is in `subs`. -/
  | waiting (cmd : Cmd) (index : ℕ)
  | done (cmd : Cmd) (o : Outcome Cmd R)
  deriving DecidableEq

section

variable {Cmd R : Type}

/-- The command of an unfinished request, and the index it has read. -/
def Phase.held : Phase Cmd R → Option (Cmd × ℕ)
  | .loaded cmd index | .sent cmd index | .waiting cmd index => some (cmd, index)
  | _ => none

def Phase.cmd : Phase Cmd R → Option Cmd
  | .idle => none
  | .called cmd | .loaded cmd _ | .sent cmd _ | .waiting cmd _ | .done cmd _ => some cmd

end

/-- The process.  `S` is what the commands are applied to. -/
structure Server (σ Cmd R S P : Type) where
  node : Consensus σ (Request Cmd) P
  /-- The `Submit` messages the actor has not handled yet. -/
  inbox : List (Request Cmd)
  rpcs : ℕ → Phase Cmd R
  subs : ℕ → Option ℕ
  /-- What was emitted and has not reached the apply loop. -/
  pending : List (CommitEntry (Request Cmd))
  /-- What the apply loop has executed and not answered yet.  There is no result for a command
  that is not known. -/
  hand : Option (CommitEntry (Request Cmd) × Option R)
  store : S
  /-- All that was applied so far. -/
  applied : List (CommitEntry (Request Cmd))

inductive Act (Cmd : Type) where
  | call (rid : ℕ) (cmd : Cmd)
  | load (rid : ℕ)
  | send (rid : ℕ)
  | register (rid : ℕ)
  | timeout (rid : ℕ)
  /-- The actor takes the next `Submit`. -/
  | submit
  /-- The actor handles another message. -/
  | actor (op : Op (Request Cmd))
  /-- An emitted entry is lost. -/
  | lose (k : ℕ)
  | apply
  | answer

namespace Server

variable {σ Cmd R S P : Type}

def setRpc (s : Server σ Cmd R S P) (rid : ℕ) (p : Phase Cmd R) : Server σ Cmd R S P :=
  { s with rpcs := Function.update s.rpcs rid p }

@[simp] theorem setRpc_self (s : Server σ Cmd R S P) (rid : ℕ) (p : Phase Cmd R) :
    (s.setRpc rid p).rpcs rid = p := Function.update_self ..

theorem setRpc_of_ne (s : Server σ Cmd R S P) {rid v : ℕ} (p : Phase Cmd R) (h : v ≠ rid) :
    (s.setRpc rid p).rpcs v = s.rpcs v := Function.update_of_ne h ..

/-- End the request that waits, if it still does. -/
def resolve (s : Server σ Cmd R S P) (waiter : Option ℕ) (o : Outcome Cmd R) :
    Server σ Cmd R S P :=
  match waiter with
  | none => s
  | some rid =>
    match s.rpcs rid with
    | .waiting cmd _ => s.setRpc rid (.done cmd o)
    | _ => s

section

variable [Storage σ (Request Cmd)] (exec : S → Cmd → S × Option R)

/-- One step of the process.  A panic of the actor ends it. -/
def step (s : Server σ Cmd R S P) : Act Cmd → Option (Server σ Cmd R S P)
  | .call rid cmd =>
    match s.rpcs rid with
    | .idle =>
      if s.node.leaderId = some s.node.id then
        some (s.setRpc rid (.called cmd))
      else none
    | _ => none
  | .load rid =>
    match s.rpcs rid with
    | .called cmd =>
      some (s.setRpc rid (.loaded cmd s.node.logIndex))
    | _ => none
  | .send rid =>
    match s.rpcs rid with
    | .loaded cmd index =>
      some { s.setRpc rid (.sent cmd index) with inbox := s.inbox ++ [⟨rid, cmd⟩] }
    | _ => none
  | .register rid =>
    match s.rpcs rid with
    | .sent cmd index =>
      some { (s.resolve (s.subs index) .dropped).setRpc rid (.waiting cmd index) with
        subs := Function.update s.subs index (some rid) }
    | _ => none
  | .timeout rid =>
    match s.rpcs rid with
    | .waiting cmd _ => some (s.setRpc rid (.done cmd .timedOut))
    | _ => none
  | .submit =>
    match s.inbox with
    | q :: qs => some { s with node := s.node.onSubmit q, inbox := qs }
    | [] => none
  | .actor op =>
    match op with
    | .submit _ => none
    | .sendCommit =>
      s.node.sendCommits.map fun r ↦ { s with node := r.1, pending := s.pending ++ r.2 }
    | op => (s.node.handle op).map fun node ↦ { s with node := node }
  | .lose k => some { s with pending := s.pending.eraseIdx k }
  | .apply =>
    match s.hand, s.pending with
    | none, e :: es =>
      let res := exec s.store e.command.cmd
      some { s with
        pending := es, hand := some (e, res.2), store := res.1, applied := s.applied ++ [e] }
    | _, _ => none
  | .answer =>
    match s.hand with
    | some (e, some r) =>
      some { s.resolve (s.subs e.index) (.answered e r) with
        hand := none, subs := Function.update s.subs e.index none }
    | some (_, none) => some { s with hand := none }
    | none => none

/-- The process as it starts. -/
def init (id : String) (st : σ) (peers : List (ℕ × P)) (store : S) : Server σ Cmd R S P where
  node := { (Consensus.new id st : Consensus σ (Request Cmd) P) with peers := peers }
  inbox := []
  rpcs := fun _ ↦ .idle
  subs := fun _ ↦ none
  pending := []
  hand := none
  store := store
  applied := []

/-! ## The condition -/

/-- The entries that were emitted and not answered yet. -/
def unanswered (s : Server σ Cmd R S P) : List (CommitEntry (Request Cmd)) :=
  s.pending ++ s.hand.toList.map Prod.fst

/-- An index that an unfinished request has read is left to it: nobody else reads it, no other
command is appended there, and a request of another leader does not touch it.  Nor does it touch
what was emitted and is still to be answered. -/
def Reserved (s : Server σ Cmd R S P) : Act Cmd → Prop
  | .load _ => ∀ rid cmd, (s.rpcs rid).held ≠ some (cmd, s.node.logIndex)
  | .submit => s.node.state = .leader → ∀ q ∈ s.inbox.head?, ∀ rid cmd,
    (s.rpcs rid).held = some (cmd, s.node.logs.length) → rid = q.rid
  | .actor (.appendEntries req) => ∀ j,
    ((∃ rid cmd, (s.rpcs rid).held = some (cmd, j)) ∨ ∃ e ∈ s.unanswered, e.index = j) →
      (s.node.appendEntries req).1.logs[j]? = s.node.logs[j]?
  | _ => True

end

/-! ## The invariant -/

section

variable (exec : S → Cmd → S × Option R)

/-- What is left after the given entries were applied. -/
def stateAfter (s₀ : S) (es : List (CommitEntry (Request Cmd))) : S :=
  es.foldl (fun s e ↦ (exec s e.command.cmd).1) s₀

/-- The result is that of the entry, applied after all that was applied before it. -/
def ResultOf (s₀ : S) (applied : List (CommitEntry (Request Cmd)))
    (e : CommitEntry (Request Cmd)) (r : Option R) : Prop :=
  ∃ pre, pre ++ [e] <+: applied ∧ (exec (stateAfter exec s₀ pre) e.command.cmd).2 = r

structure Inv (s₀ : S) (s : Server σ Cmd R S P) : Prop where
  logIndex : s.node.logIndex = s.node.logs.length
  emitted : ∀ e ∈ s.unanswered,
    s.node.logs[e.index]?.map LogEntry.command = some e.command
  /-- At an index that a request has read there is its command, if there is one. -/
  own : ∀ rid cmd j, (s.rpcs rid).held = some (cmd, j) → ∀ x, s.node.logs[j]? = some x →
    x.command = ⟨rid, cmd⟩
  distinct : ∀ rid rid' cmd cmd' j, (s.rpcs rid).held = some (cmd, j) →
    (s.rpcs rid').held = some (cmd', j) → rid = rid'
  subs : ∀ j rid, s.subs j = some rid →
    (∃ cmd, s.rpcs rid = .waiting cmd j) ∨ ∃ cmd o, s.rpcs rid = .done cmd o
  inbox : ∀ q ∈ s.inbox, (s.rpcs q.rid).cmd = some q.cmd
  store : s.store = stateAfter exec s₀ s.applied
  hand : ∀ e r, s.hand = some (e, r) → ResultOf exec s₀ s.applied e r
  done : ∀ rid cmd o, s.rpcs rid = .done cmd o → o ≠ .dropped ∧ ∀ e r, o = .answered e r →
    e.command = ⟨rid, cmd⟩ ∧ ResultOf exec s₀ s.applied e (some r)

end

variable {exec : S → Cmd → S × Option R} {s s' : Server σ Cmd R S P} {s₀ : S}

theorem mem_unanswered {e : CommitEntry (Request Cmd)} :
    e ∈ s.unanswered ↔ e ∈ s.pending ∨ ∃ r, s.hand = some (e, r) := by
  rw [unanswered, List.mem_append]
  refine or_congr_right ?_
  cases s.hand with
  | none => simp
  | some p => aesop

theorem ResultOf.mono {l l' : List (CommitEntry (Request Cmd))} (h : l <+: l')
    {e : CommitEntry (Request Cmd)} {r : Option R} (hr : ResultOf exec s₀ l e r) :
    ResultOf exec s₀ l' e r := by
  obtain ⟨pre, hp, he⟩ := hr
  exact ⟨pre, hp.trans h, he⟩

/-! ### What the requests do -/

/-- A request moves on and keeps its command, and `subs` follows. -/
theorem Inv.move (h : Inv exec s₀ s) {rid : ℕ} {p : Phase Cmd R} (subs : ℕ → Option ℕ)
    (hcmd : ∀ cmd, (s.rpcs rid).cmd = some cmd → p.cmd = some cmd)
    (hheld : ∀ cmd j, p.held = some (cmd, j) → (s.rpcs rid).held = some (cmd, j) ∨
      (s.node.logs.length = j ∧ ∀ rid' cmd', (s.rpcs rid').held ≠ some (cmd', j)))
    (hsubs : ∀ j v, subs j = some v → (v ≠ rid ∧ s.subs j = some v) ∨
      (v = rid ∧ ((∃ cmd, p = .waiting cmd j) ∨ ∃ cmd o, p = .done cmd o)))
    (hdone : ∀ cmd o, p = .done cmd o → o ≠ .dropped ∧ ∀ e r, o = .answered e r →
      e.command = ⟨rid, cmd⟩ ∧ ResultOf exec s₀ s.applied e (some r)) :
    Inv exec s₀ { s.setRpc rid p with subs := subs } := by
  -- an index that is read anew is beyond the log, and nobody else has read it
  have hold : ∀ v cmd j, ((s.setRpc rid p).rpcs v).held = some (cmd, j) →
      (s.rpcs v).held = some (cmd, j) ∨ (v = rid ∧ s.node.logs.length = j ∧
        ∀ rid' cmd', (s.rpcs rid').held ≠ some (cmd', j)) := by
    intro v cmd j hv
    by_cases hvr : v = rid
    · subst hvr
      rw [setRpc_self] at hv
      exact (hheld cmd j hv).imp id fun h ↦ ⟨rfl, h⟩
    · rw [setRpc_of_ne _ _ hvr] at hv
      exact Or.inl hv
  constructor
  case logIndex => exact h.logIndex
  case emitted => exact h.emitted
  case own =>
    intro v cmd j hv x hx
    rcases hold v cmd j hv with hv | ⟨-, rfl, -⟩
    · exact h.own v cmd j hv x hx
    · simp [setRpc] at hx
  case distinct =>
    intro v v' cmd cmd' j hv hv'
    rcases hold v cmd j hv with hv | ⟨hr, -, hno⟩ <;>
      rcases hold v' cmd' j hv' with hv' | ⟨hr', -, hno'⟩
    · exact h.distinct v v' cmd cmd' j hv hv'
    · exact absurd hv (hno' v cmd)
    · exact absurd hv' (hno v' cmd')
    · rw [hr, hr']
  case subs =>
    intro j v hv
    rcases hsubs j v hv with ⟨hvr, hv⟩ | ⟨rfl, hp⟩
    · simp only [setRpc_of_ne _ _ hvr]
      exact h.subs j v hv
    · simp only [setRpc_self]
      exact hp
  case inbox =>
    intro q hq
    have := h.inbox q hq
    by_cases hvr : q.rid = rid
    · rw [hvr] at this ⊢
      simp only [setRpc_self]
      exact hcmd q.cmd this
    · simp only [setRpc_of_ne _ _ hvr]
      exact this
  case store => exact h.store
  case hand => exact h.hand
  case done =>
    intro v cmd o hv
    by_cases hvr : v = rid
    · subst hvr
      simp only [setRpc_self] at hv
      exact hdone cmd o hv
    · simp only [setRpc_of_ne _ _ hvr] at hv
      exact h.done v cmd o hv

/-- The same for a request that is not in `subs`, and does not get there. -/
theorem Inv.move_outside (h : Inv exec s₀ s) {rid : ℕ} {p : Phase Cmd R}
    (hcmd : ∀ cmd, (s.rpcs rid).cmd = some cmd → p.cmd = some cmd)
    (hheld : ∀ cmd j, p.held = some (cmd, j) → (s.rpcs rid).held = some (cmd, j) ∨
      (s.node.logs.length = j ∧ ∀ rid' cmd', (s.rpcs rid').held ≠ some (cmd', j)))
    (hout : ∀ cmd, (∀ j, s.rpcs rid ≠ .waiting cmd j) ∧ ∀ o, s.rpcs rid ≠ .done cmd o)
    (hdone : ∀ cmd o, p ≠ .done cmd o) : Inv exec s₀ (s.setRpc rid p) := by
  refine h.move s.subs hcmd hheld (fun j v hv ↦ Or.inl ⟨?_, hv⟩)
    fun cmd o hp ↦ absurd hp (hdone cmd o)
  rintro rfl
  rcases h.subs j v hv with ⟨cmd, hw⟩ | ⟨cmd, o, hd⟩
  · exact (hout cmd).1 j hw
  · exact (hout cmd).2 o hd

/-- A request that waits ends. -/
theorem Inv.finish (h : Inv exec s₀ s) {rid : ℕ} {cmd : Cmd} {j : ℕ}
    (hw : s.rpcs rid = .waiting cmd j) {o : Outcome Cmd R} (ho : o ≠ .dropped)
    (hans : ∀ e r, o = .answered e r →
      e.command = ⟨rid, cmd⟩ ∧ ResultOf exec s₀ s.applied e (some r)) :
    Inv exec s₀ (s.setRpc rid (.done cmd o)) := by
  refine h.move s.subs (fun c hc ↦ ?_) (fun c j hc ↦ ?_) (fun i v hv ↦ ?_)
    fun c o' hc ↦ ?_
  · rw [hw] at hc
    exact hc
  · cases hc
  · by_cases hvr : v = rid
    · exact Or.inr ⟨hvr, Or.inr ⟨cmd, o, rfl⟩⟩
    · exact Or.inl ⟨hvr, hv⟩
  · obtain ⟨rfl, rfl⟩ := Phase.done.inj hc
    exact ⟨ho, hans⟩

/-- The place in `subs` that a request takes is free: whoever waits there has read the same
index. -/
theorem Inv.resolve_register (h : Inv exec s₀ s) {rid : ℕ} {cmd : Cmd} {j : ℕ}
    (hr : s.rpcs rid = .sent cmd j) : s.resolve (s.subs j) .dropped = s := by
  cases hsub : s.subs j with
  | none => rfl
  | some v =>
    rcases h.subs j v hsub with ⟨c, hw⟩ | ⟨c, o, hd⟩
    · have hvr := h.distinct v rid c cmd j (by rw [hw]; rfl) (by rw [hr]; rfl)
      rw [hvr, hr] at hw
      cases hw
    · simp only [resolve, hd]

theorem Inv.call (h : Inv exec s₀ s) {rid : ℕ} (cmd : Cmd) (hr : s.rpcs rid = .idle) :
    Inv exec s₀ (s.setRpc rid (.called cmd)) := by
  refine h.move_outside (fun c hc ↦ ?_) (fun c j hc ↦ ?_) (fun c ↦ ?_) fun c o hc ↦ ?_
  · rw [hr] at hc
    cases hc
  · cases hc
  · simp only [hr, ne_eq, reduceCtorEq, not_false_eq_true, implies_true, and_self]
  · cases hc

/-- The rpc takes the index that it expects, which nobody else holds. -/
theorem Inv.load (h : Inv exec s₀ s) {rid : ℕ} {cmd : Cmd} (hr : s.rpcs rid = .called cmd)
    (hfree : ∀ v c, (s.rpcs v).held ≠ some (c, s.node.logIndex)) :
    Inv exec s₀ (s.setRpc rid (.loaded cmd s.node.logIndex)) := by
  refine h.move_outside (fun c hc ↦ ?_) (fun c j hc ↦ Or.inr ?_) (fun c ↦ ?_) fun c o hc ↦ ?_
  · rw [hr] at hc
    exact hc
  · obtain ⟨rfl, rfl⟩ : cmd = c ∧ s.node.logIndex = j := by simpa [Phase.held] using hc
    exact ⟨h.logIndex.symm, hfree⟩
  · simp only [hr, ne_eq, reduceCtorEq, not_false_eq_true, implies_true, and_self]
  · cases hc

theorem Inv.send (h : Inv exec s₀ s) {rid : ℕ} {cmd : Cmd} {j : ℕ}
    (hr : s.rpcs rid = .loaded cmd j) :
    Inv exec s₀ { s.setRpc rid (.sent cmd j) with inbox := s.inbox ++ [⟨rid, cmd⟩] } := by
  have hm : Inv exec s₀ (s.setRpc rid (.sent cmd j)) := by
    refine h.move_outside (fun c hc ↦ ?_) (fun c i hc ↦ Or.inl ?_) (fun c ↦ ?_) fun c o hc ↦ ?_
    · rw [hr] at hc
      exact hc
    · rw [hr]
      exact hc
    · simp only [hr, ne_eq, reduceCtorEq, not_false_eq_true, implies_true, and_self]
    · cases hc
  refine { hm with inbox := fun q hq ↦ ?_ }
  rcases List.mem_append.mp hq with hq | hq
  · exact hm.inbox q hq
  · rw [List.mem_singleton.mp hq]
    exact congrArg Phase.cmd (s.setRpc_self rid (.sent cmd j))

theorem Inv.register (h : Inv exec s₀ s) {rid : ℕ} {cmd : Cmd} {j : ℕ}
    (hr : s.rpcs rid = .sent cmd j) :
    Inv exec s₀ { s.setRpc rid (.waiting cmd j) with
      subs := Function.update s.subs j (some rid) } := by
  refine h.move _ (fun c hc ↦ ?_) (fun c i hc ↦ Or.inl ?_) (fun i v hv ↦ ?_) fun c o hc ↦ ?_
  · rw [hr] at hc
    exact hc
  · rw [hr]
    exact hc
  · by_cases hi : i = j
    · rw [hi, Function.update_self, Option.some_inj] at hv
      exact Or.inr ⟨hv.symm, Or.inl ⟨cmd, by rw [hi]⟩⟩
    · rw [Function.update_of_ne hi] at hv
      refine Or.inl ⟨?_, hv⟩
      rintro rfl
      rcases h.subs i v hv with ⟨c, hw⟩ | ⟨c, o, hd⟩
      · rw [hr] at hw
        cases hw
      · rw [hr] at hd
        cases hd
  · cases hc

/-! ### What the actor does -/

/-- The log changes, but not where it matters. -/
theorem Inv.setNode (h : Inv exec s₀ s) {node : Consensus σ (Request Cmd) P}
    {inbox : List (Request Cmd)} (hidx : node.logIndex = node.logs.length)
    (hin : ∀ q ∈ inbox, q ∈ s.inbox)
    (hem : ∀ e ∈ s.unanswered, node.logs[e.index]?.map LogEntry.command =
      s.node.logs[e.index]?.map LogEntry.command)
    (hown : ∀ rid cmd j, (s.rpcs rid).held = some (cmd, j) → ∀ x, node.logs[j]? = some x →
      s.node.logs[j]? = some x ∨ x.command = ⟨rid, cmd⟩) :
    Inv exec s₀ { s with node := node, inbox := inbox } where
  logIndex := hidx
  emitted e he := (hem e he).trans (h.emitted e he)
  own rid cmd j hr x hx := by
    rcases hown rid cmd j hr x hx with hx | hx
    · exact h.own rid cmd j hr x hx
    · exact hx
  distinct := h.distinct
  subs := h.subs
  inbox q hq := h.inbox q (hin q hq)
  store := h.store
  hand := h.hand
  done := h.done

end Server

section

variable {σ C P : Type} [Storage σ C] {n c : Consensus σ C P}

theorem Consensus.appendEntries_logIndex (h : n.logIndex = n.logs.length)
    (req : AppendEntries C) :
    (n.appendEntries req).1.logIndex = (n.appendEntries req).1.logs.length := by
  have hc : ((n.stepDown req.term).noteLeader req).logIndex =
      ((n.stepDown req.term).noteLeader req).logs.length := by
    rw [noteLeader, stepDown]
    split <;> split <;> exact h
  simp only [appendEntries]
  split
  · exact h
  · split
    · exact hc
    · split
      · exact hc
      · rfl

end

namespace Server

variable {σ Cmd R S P : Type} {exec : S → Cmd → S × Option R}
  {s s' : Server σ Cmd R S P} {s₀ : S}

section

variable [Storage σ (Request Cmd)]

/-- The actor handles a `Submit`. -/
theorem Inv.submit (h : Inv exec s₀ s) (hok : s.Reserved .submit) {q : Request Cmd}
    {qs : List (Request Cmd)} (hq : s.inbox = q :: qs) :
    Inv exec s₀ { s with node := s.node.onSubmit q, inbox := qs } := by
  have hin : ∀ x ∈ qs, x ∈ s.inbox := fun x hx ↦ hq ▸ List.mem_cons_of_mem q hx
  rw [Consensus.onSubmit]
  split
  · rename_i hlead
    refine h.setNode ?_ hin (fun e he ↦ ?_) fun rid cmd j hr x hx ↦ ?_
    · simp [Consensus.submit, h.logIndex]
    · obtain ⟨y, hy, -⟩ := Option.map_eq_some_iff.mp (h.emitted e he)
      obtain ⟨hlt, -⟩ := List.getElem?_eq_some_iff.mp hy
      rw [Consensus.submit, Consensus.persistState_logs, List.getElem?_append_left hlt]
    · rw [Consensus.submit, Consensus.persistState_logs] at hx
      rcases Nat.lt_or_ge j s.node.logs.length with hlt | hge
      · rw [List.getElem?_append_left hlt] at hx
        exact Or.inl hx
      · -- the new entry, at an index nobody else has read
        rw [List.getElem?_append_right hge, List.getElem?_singleton] at hx
        obtain ⟨h0, rfl⟩ : j - s.node.logs.length = 0 ∧
            (⟨q, s.node.currentTerm⟩ : LogEntry (Request Cmd)) = x := by simpa using hx
        obtain rfl : j = s.node.logs.length := by omega
        have hrid := hok hlead q (by rw [hq]; rfl) rid cmd hr
        have hcmd := h.inbox q (by rw [hq]; exact List.mem_cons_self)
        refine Or.inr ?_
        subst hrid
        obtain rfl : cmd = q.cmd := by
          cases hp : s.rpcs q.rid <;> rw [hp] at hr hcmd <;> simp_all [Phase.held, Phase.cmd]
        rfl
  · exact h.setNode h.logIndex hin (fun e _ ↦ rfl) fun rid cmd j _ x hx ↦ Or.inl hx

/-- The actor handles another message, and emits nothing. -/
theorem Inv.handle (h : Inv exec s₀ s) {op : Op (Request Cmd)} (hok : s.Reserved (.actor op))
    (hs : ∀ cmd, op ≠ .submit cmd) {node : Consensus σ (Request Cmd) P}
    (hn : s.node.handle op = some node) : Inv exec s₀ { s with node := node } := by
  by_cases ha : ∃ req, op = .appendEntries req
  · obtain ⟨req, rfl⟩ := ha
    obtain rfl := Option.some_inj.mp hn
    refine h.setNode (Consensus.appendEntries_logIndex h.logIndex req) (fun _ hq ↦ hq)
      (fun e he ↦ ?_) fun rid cmd j hr x hx ↦ Or.inl ?_
    · rw [hok e.index (Or.inr ⟨e, he, rfl⟩)]
    · rwa [hok j (Or.inl ⟨rid, cmd, hr⟩)] at hx
  · obtain ⟨hl, hidx⟩ := Consensus.handle_logs hn hs fun req hr ↦ ha ⟨req, hr⟩
    refine h.setNode ?_ (fun _ hq ↦ hq) (fun e _ ↦ ?_) fun rid cmd j _ x hx ↦ Or.inl ?_
    · rw [hidx, hl, h.logIndex]
    · rw [hl]
    · rwa [hl] at hx

end

theorem Inv.sendCommit (h : Inv exec s₀ s) {node : Consensus σ (Request Cmd) P}
    {es : List (CommitEntry (Request Cmd))} (hn : s.node.sendCommits = some (node, es)) :
    Inv exec s₀ { s with node := node, pending := s.pending ++ es } := by
  obtain ⟨hsame, -, hes⟩ := s.node.sendCommits_spec hn
  obtain ⟨la, rfl⟩ := s.node.sendCommits_node hn
  refine { h with emitted := fun e he ↦ ?_ }
  rw [mem_unanswered] at he
  rcases he with he | he
  · rcases List.mem_append.mp he with he | he
    · exact h.emitted e (mem_unanswered.mpr (Or.inl he))
    · obtain ⟨-, -, -, hcmd⟩ := hes e he
      exact hcmd
  · exact h.emitted e (mem_unanswered.mpr (Or.inr he))

/-! ### What the apply loop does -/

theorem Inv.lose (h : Inv exec s₀ s) (k : ℕ) :
    Inv exec s₀ { s with pending := s.pending.eraseIdx k } := by
  refine { h with emitted := fun e he ↦ h.emitted e ?_ }
  rw [mem_unanswered] at he ⊢
  exact he.imp (fun he ↦ (s.pending.eraseIdx_sublist k).subset he) id

theorem Inv.apply (h : Inv exec s₀ s) {e : CommitEntry (Request Cmd)}
    {es : List (CommitEntry (Request Cmd))} (hp : s.pending = e :: es) :
    Inv exec s₀ { s with
      pending := es, hand := some (e, (exec s.store e.command.cmd).2),
      store := (exec s.store e.command.cmd).1, applied := s.applied ++ [e] } := by
  have hmono : s.applied <+: s.applied ++ [e] := List.prefix_append _ _
  refine { h with emitted := fun x hx ↦ h.emitted x ?_, store := ?_, hand := ?_, done := ?_ }
  · rw [mem_unanswered] at hx ⊢
    rw [hp]
    rcases hx with hx | ⟨r, hr⟩
    · exact Or.inl (List.mem_cons_of_mem e hx)
    · obtain ⟨rfl, -⟩ := Prod.mk.inj (Option.some_inj.mp hr)
      exact Or.inl List.mem_cons_self
  · simp [stateAfter, h.store]
  · intro x r hr
    obtain ⟨rfl, rfl⟩ := Prod.mk.inj (Option.some_inj.mp hr)
    exact ⟨s.applied, List.prefix_rfl, by rw [h.store]⟩
  · intro rid cmd o hd
    obtain ⟨ho, hans⟩ := h.done rid cmd o hd
    exact ⟨ho, fun x r hx ↦ ⟨(hans x r hx).1, (hans x r hx).2.mono hmono⟩⟩

/-- The waiter under the index of an entry has sent that entry. -/
theorem Inv.own_of_hand (h : Inv exec s₀ s) {e : CommitEntry (Request Cmd)} {r : Option R}
    (he : s.hand = some (e, r)) {rid : ℕ} {cmd : Cmd} {j : ℕ} (hsub : s.subs e.index = some rid)
    (hw : s.rpcs rid = .waiting cmd j) : e.command = ⟨rid, cmd⟩ := by
  have hj : j = e.index := by
    rcases h.subs _ rid hsub with ⟨c, hc⟩ | ⟨c, o, hd⟩
    · rw [hw] at hc
      exact (Phase.waiting.inj hc).2
    · rw [hw] at hd
      cases hd
  obtain ⟨x, hx, hxe⟩ :=
    Option.map_eq_some_iff.mp (h.emitted e (mem_unanswered.mpr (Or.inr ⟨r, he⟩)))
  rw [← hxe]
  exact h.own rid cmd e.index (by rw [hw, hj]; rfl) x hx

theorem Inv.clear (h : Inv exec s₀ s) (j : ℕ) :
    Inv exec s₀ { s with hand := none, subs := Function.update s.subs j none } := by
  refine { h with emitted := fun x hx ↦ h.emitted x ?_, subs := ?_, hand := ?_ }
  · rw [mem_unanswered] at hx ⊢
    rcases hx with hx | ⟨r, hr⟩
    · exact Or.inl hx
    · cases hr
  · intro i rid hi
    by_cases hij : i = j
    · simp only [hij, Function.update_self, reduceCtorEq] at hi
    · simp only [Function.update_of_ne hij] at hi
      exact h.subs i rid hi
  · intro e r he
    cases he

theorem Inv.answer (h : Inv exec s₀ s) {e : CommitEntry (Request Cmd)} {r : R}
    (he : s.hand = some (e, some r)) :
    Inv exec s₀ { s.resolve (s.subs e.index) (.answered e r) with
      hand := none, subs := Function.update s.subs e.index none } := by
  cases hsub : s.subs e.index with
  | none => exact h.clear e.index
  | some rid =>
    rcases h.subs _ rid hsub with ⟨cmd, hw⟩ | ⟨cmd, o, hd⟩
    · simp only [Server.resolve, hw]
      refine (h.finish hw (by simp) fun e' r' heq ↦ ?_).clear e.index
      obtain ⟨rfl, rfl⟩ := Outcome.answered.inj heq
      exact ⟨h.own_of_hand he hsub hw, h.hand e _ he⟩
    · simp only [Server.resolve, hd]
      exact h.clear e.index

/-- A command without a response is not answered. -/
theorem Inv.skip (h : Inv exec s₀ s) : Inv exec s₀ { s with hand := none } := by
  refine { h with emitted := fun x hx ↦ h.emitted x ?_, hand := ?_ }
  · rw [mem_unanswered] at hx ⊢
    rcases hx with hx | ⟨r, hr⟩
    · exact Or.inl hx
    · cases hr
  · intro x r hx
    cases hx

/-! ## Every step -/

variable [Storage σ (Request Cmd)]

theorem Inv.step (h : Inv exec s₀ s) {a : Act Cmd} (hok : s.Reserved a)
    (hs : s.step exec a = some s') : Inv exec s₀ s' := by
  cases a with
  | call rid cmd =>
    simp only [Server.step] at hs
    split at hs
    · rename_i hr
      split at hs
      · obtain rfl := Option.some_inj.mp hs
        exact h.call cmd hr
      · cases hs
    · cases hs
  | load rid =>
    simp only [Server.step] at hs
    split at hs
    · rename_i cmd hr
      obtain rfl := Option.some_inj.mp hs
      exact h.load hr hok
    · cases hs
  | send rid =>
    simp only [Server.step] at hs
    split at hs
    · rename_i cmd j hr
      obtain rfl := Option.some_inj.mp hs
      exact h.send hr
    · cases hs
  | register rid =>
    simp only [Server.step] at hs
    split at hs
    · rename_i cmd j hr
      rw [h.resolve_register hr] at hs
      obtain rfl := Option.some_inj.mp hs
      exact h.register hr
    · cases hs
  | timeout rid =>
    simp only [Server.step] at hs
    split at hs
    · rename_i cmd j hw
      obtain rfl := Option.some_inj.mp hs
      exact h.finish hw (by simp) fun e r he ↦ by cases he
    · cases hs
  | submit =>
    simp only [Server.step] at hs
    split at hs
    · rename_i q qs hq
      obtain rfl := Option.some_inj.mp hs
      exact h.submit hok hq
    · cases hs
  | actor op =>
    simp only [Server.step] at hs
    split at hs
    · cases hs
    · obtain ⟨r, hr, rfl⟩ := Option.map_eq_some_iff.mp hs
      exact h.sendCommit hr
    · rename_i hsub _
      obtain ⟨node, hn, rfl⟩ := Option.map_eq_some_iff.mp hs
      exact h.handle hok (fun cmd hc ↦ hsub cmd hc) hn
  | lose k =>
    obtain rfl := Option.some_inj.mp hs
    exact h.lose k
  | apply =>
    simp only [Server.step] at hs
    split at hs
    · rename_i hp
      obtain rfl := Option.some_inj.mp hs
      exact h.apply hp
    · cases hs
  | answer =>
    simp only [Server.step] at hs
    split at hs
    · rename_i e r he
      obtain rfl := Option.some_inj.mp hs
      exact h.answer he
    · obtain rfl := Option.some_inj.mp hs
      exact h.skip
    · cases hs

theorem Inv.init (id : String) (st : σ) (peers : List (ℕ × P)) (s₀ : S) :
    Inv exec s₀ (Server.init id st peers s₀ : Server σ Cmd R S P) where
  logIndex := by
    simp only [Server.init, Consensus.new, Consensus.restoreState]
    cases Storage.restore st <;> rfl
  emitted e he := by simp [Server.init, unanswered] at he
  own rid cmd j hr := by cases hr
  distinct rid rid' cmd cmd' j hr := by cases hr
  subs j rid hj := by cases hj
  inbox q hq := absurd hq List.not_mem_nil
  store := rfl
  hand e r he := by cases he
  done rid cmd o hd := by cases hd

/-- **A reply belongs to its request**, in every run that keeps the indices reserved.  A request
that is answered gets the result of its own command, applied at the index of its entry, and no
waiter is overwritten. -/
theorem replies_own (id : String) (st : σ) (peers : List (ℕ × P)) (s₀ : S)
    (h : Reach (step exec) Reserved (Server.init id st peers s₀ : Server σ Cmd R S P) s) {rid : ℕ}
    {cmd : Cmd} {o : Outcome Cmd R} (hd : s.rpcs rid = .done cmd o) :
    o ≠ .dropped ∧ ∀ e r, o = .answered e r →
      e.command = ⟨rid, cmd⟩ ∧ ResultOf exec s₀ s.applied e (some r) := by
  have hinv : Inv exec s₀ s :=
    h.inv (Inv.init id st peers s₀) fun _ _ _ hi hok hs ↦ hi.step hok hs
  exact hinv.done rid cmd o hd

/-- A counter, with the sum so far as the result. -/
def add (s c : ℕ) : ℕ × Option ℕ :=
  (s + c, some (s + c))

/-- A process with two peers and an empty storage. -/
def fresh : Server (MockStorage (Request ℕ)) ℕ ℕ ℕ Unit :=
  Server.init "a" ⟨PersistentState.default, []⟩ [(1, ()), (2, ())] 0

/-- One request, answered after a peer has the entry too. -/
theorem replies_own_fresh :
    ∃ s, Reach (step add) Reserved fresh s ∧ s.rpcs 0 = .done 7 (.answered ⟨⟨0, 7⟩, 1, 0⟩ 7) ∧
      ResultOf add 0 s.applied ⟨⟨0, 7⟩, 1, 0⟩ (some 7) := by
  suffices hs : ∃ s, Reach (step add) Reserved fresh s ∧
      s.rpcs 0 = .done 7 (.answered ⟨⟨0, 7⟩, 1, 0⟩ 7) by
    obtain ⟨s, hr, hd⟩ := hs
    exact ⟨s, hr, hd, ((replies_own _ _ _ _ hr hd).2 _ _ rfl).2⟩
  have h₀ : Reach (step add) Reserved fresh fresh := Reach.start
  have h := h₀.step (a := .actor (.startElection true)) (by trivial) rfl
  replace h := h.step (a := .actor (.voteResult 1 true)) (by trivial) rfl
  replace h := h.step (a := .call 0 7) (by trivial) rfl
  replace h := by
    refine h.step (a := .load 0) ?_ rfl
    intro rid cmd hr
    by_cases h0 : rid = 0
    · subst h0
      cases hr
    · change ((fresh.setRpc 0 (.called 7)).rpcs rid).held = _ at hr
      rw [setRpc_of_ne _ _ h0] at hr
      cases hr
  replace h := h.step (a := .send 0) (by trivial) rfl
  replace h := h.step (a := .register 0) (by trivial) rfl
  replace h := by
    refine h.step (a := .submit) ?_ rfl
    intro _ q hq rid cmd hr
    obtain rfl := Option.some_inj.mp hq
    by_contra h0
    change (((((fresh.setRpc 0 (.called 7)).setRpc 0 (.loaded 7 0)).setRpc 0 (.sent 7 0)).setRpc 0
      (.waiting 7 0)).rpcs rid).held = _ at hr
    rw [setRpc_of_ne _ _ h0, setRpc_of_ne _ _ h0, setRpc_of_ne _ _ h0, setRpc_of_ne _ _ h0] at hr
    cases hr
  replace h := h.step (a := .actor (.aeRes 1 0 ⟨1, true, none, none⟩)) (by trivial) rfl
  replace h := h.step (a := .actor .sendCommit) (by trivial) rfl
  replace h := h.step (a := .apply) (by trivial) rfl
  replace h := h.step (a := .answer) (by trivial) rfl
  exact ⟨_, h, by decide⟩

/-- Two requests read the same index.  The second takes the place of the first in `subs`, and then
gets the result of the first one's command. -/
theorem not_replies_own :
    ∃ s, Reach (step add) (fun _ _ ↦ True) fresh s ∧ s.rpcs 0 = .done 7 .dropped ∧
      s.rpcs 1 = .done 9 (.answered ⟨⟨0, 7⟩, 1, 0⟩ 7) := by
  let as : List (Act ℕ) := [.actor (.startElection true), .actor (.voteResult 1 true),
    .call 0 7, .load 0, .send 0, .register 0, .call 1 9, .load 1, .send 1, .register 1, .submit,
    .actor (.aeRes 1 0 ⟨1, true, none, none⟩), .actor .sendCommit, .apply, .answer]
  have h : Reach (step add) (fun _ _ ↦ True) fresh
      ((run (step add) (fun _ _ ↦ True) fresh as).get (by decide)) :=
    Reach.start.run (Option.some_get _).symm
  exact ⟨_, h, by decide, by decide⟩
end Server
end Efis
