import Efis.Store.Apply

/-!
# Replicas

An instance that applies a sequence of commands, with a clock of its own and with requests to read
that come in between, at any moment: also between two calls of one command.

The reads do not change the values.  But a read of an expired item never returns and keeps its shard
locked, and the next command that wants the shard waits for it forever; and so does a command that
itself reads what has expired.  Two instances with different clocks then differ in what they have
applied (`not_replicas_agree`).

Where each call of the apply loop can return, every instance computes what the commands mean without
any clock, and two of them agree.  This condition is necessary too (`replicas_agree_iff`).
-/

set_option autoImplicit false

namespace Efis

open Transition

variable {F : Type}

/-- An instance on its way through a sequence of commands. -/
structure Replica (F : Type) where
  store : Datastore F
  queue : List (Command F)
  /-- What is left of the command that is being applied. -/
  current : Option (ApplyProg F)
  results : List (Option LateRes)

/-- What can happen, with the time when it does.  `get`, `smembers`, `zrange` and `vsearch` all read
through `get_sync`. -/
inductive Replica.Event where
  /-- The apply loop goes on: it takes a command, makes a call, or gives the result. -/
  | tick (now : ℕ)
  | get (now : ℕ) (key : String)
  | ttl (now : ℕ) (key : String)

def Replica.Event.ticks : List Replica.Event → ℕ
  | [] => 0
  | .tick _ :: es => ticks es + 1
  | _ :: es => ticks es

/-- A reader blocks in a shard. -/
def Datastore.lock (s : Datastore F) (n : ℕ) : Datastore F :=
  { s with stuck := n :: s.stuck }

namespace Replica

section

variable (num : Numeric) (shard : String → ℕ)

/-- One event.  `none` if the apply loop gets no further, now or ever. -/
def step (r : Replica F) : Event → Option (Replica F)
  | .tick now =>
    match r.current, r.queue with
    | none, [] => some r
    | none, c :: cs => some { r with current := some (c.program num), queue := cs }
    | some (.ret a), _ => some { r with current := none, results := r.results ++ [a] }
    | some .fail, _ => none
    | some (.call c k), _ =>
      match c.perform shard now r.store with
      | .done (resp, s) => some { r with store := s, current := some (k resp) }
      | _ => none
  | .get now key =>
    match r.store.getSync now key with
    | .done _ => some r
    | _ => some { r with store := r.store.lock (shard key) }
  | .ttl now key =>
    match r.store.ttl now key with
    | .done _ => some r
    | _ => some { r with store := r.store.lock (shard key) }

def run (r : Replica F) (es : List Event) : Option (Replica F) :=
  es.foldlM (step num shard) r

/-- The apply loop can go on: its next call returns, and it does not ask for the first of no
vectors. -/
def Ready (r : Replica F) : Event → Prop
  | .tick now =>
    match r.current with
    | some (.call c _) => c.Ready shard now r.store
    | some .fail => False
    | _ => True
  | _ => True

/-- It can always go on. -/
def ReadyRun (r : Replica F) : List Event → Prop
  | [] => True
  | e :: es => r.Ready shard e ∧ ∀ r', r.step num shard e = some r' → ReadyRun r' es

end

/-- An instance that begins. -/
def start (s : Datastore F) (cmds : List (Command F)) : Replica F where
  store := s
  queue := cmds
  current := none
  results := []

/-- All commands are applied. -/
def Finished (r : Replica F) : Prop :=
  r.current = none ∧ r.queue = []

variable {num : Numeric} {shard : String → ℕ} {r r' : Replica F} {e : Event} {es : List Event}

/-! ## What one event does -/

/-- What an event can do. -/
theorem step_cases (h : r.step num shard e = some r') :
    (∃ now, e = .tick now ∧ r.Finished ∧ r' = r) ∨
    (∃ now c cs, e = .tick now ∧ r.current = none ∧ r.queue = c :: cs ∧
      r' = { r with current := some (c.program num), queue := cs }) ∨
    (∃ now a, e = .tick now ∧ r.current = some (.ret a) ∧
      r' = { r with current := none, results := r.results ++ [a] }) ∨
    (∃ now c k resp s, e = .tick now ∧ r.current = some (.call c k) ∧
      c.perform shard now r.store = .done (resp, s) ∧
      r' = { r with store := s, current := some (k resp) }) ∨
    ((∀ now, e ≠ .tick now) ∧ (r' = r ∨ ∃ n, r' = { r with store := r.store.lock n })) := by
  cases e with
  | tick now =>
    simp only [step] at h
    split at h
    · rename_i hc hq
      exact Or.inl ⟨now, rfl, ⟨hc, hq⟩, (Option.some_inj.mp h).symm⟩
    · rename_i c cs hc hq
      exact Or.inr (Or.inl ⟨now, c, cs, rfl, hc, hq, (Option.some_inj.mp h).symm⟩)
    · rename_i a hc
      exact Or.inr (Or.inr (Or.inl ⟨now, a, rfl, hc, (Option.some_inj.mp h).symm⟩))
    · cases h
    · rename_i c k hc
      split at h
      · rename_i resp s hp
        exact Or.inr (Or.inr (Or.inr (Or.inl
          ⟨now, c, k, resp, s, rfl, hc, hp, (Option.some_inj.mp h).symm⟩)))
      · cases h
  | get now key =>
    refine Or.inr (Or.inr (Or.inr (Or.inr ⟨nofun, ?_⟩)))
    simp only [step] at h
    split at h
    · exact Or.inl (Option.some_inj.mp h).symm
    · exact Or.inr ⟨_, (Option.some_inj.mp h).symm⟩
  | ttl now key =>
    refine Or.inr (Or.inr (Or.inr (Or.inr ⟨nofun, ?_⟩)))
    simp only [step] at h
    split at h
    · exact Or.inl (Option.some_inj.mp h).symm
    · exact Or.inr ⟨_, (Option.some_inj.mp h).symm⟩

/-- The apply loop goes on exactly when it can. -/
theorem step_isSome_iff : (∃ r', r.step num shard e = some r') ↔ r.Ready shard e := by
  cases e with
  | tick now =>
    simp only [step, Ready]
    cases r.current with
    | none => cases r.queue <;> simp
    | some p =>
      cases p with
      | ret a => simp
      | fail => simp
      | call c k =>
        simp only
        rw [← Call.perform_done_iff]
        cases hp : c.perform shard now r.store with
        | done p => exact iff_of_true ⟨_, rfl⟩ ⟨p, rfl⟩
        | blocked => simp
        | panicked => simp
  | get now key =>
    refine iff_of_true ?_ trivial
    simp only [step]
    split <;> exact ⟨_, rfl⟩
  | ttl now key =>
    refine iff_of_true ?_ trivial
    simp only [step]
    split <;> exact ⟨_, rfl⟩

/-! ## What is computed -/

/-- What is left to do. -/
def programs (num : Numeric) (r : Replica F) : List (ApplyProg F) :=
  r.current.toList ++ r.queue.map (Command.program num)

/-- The results and the values there will be in the end, by the meaning of what is left. -/
def outcome (num : Numeric) (r : Replica F) :
    Option (List (Option LateRes) × (String → Option (Value F))) :=
  (Prog.evalAll Call.eval (r.programs num) r.store.values).map fun p ↦ (r.results ++ p.1, p.2)

/-- With more commands in the queue there is more to do in the end. -/
theorem outcome_queue (num : Numeric) (r : Replica F) (cmds : List (Command F)) :
    outcome num { r with queue := r.queue ++ cmds } = (r.outcome num).bind fun p ↦
      (Prog.evalAll Call.eval (cmds.map (Command.program num)) p.2).map fun q ↦
        (p.1 ++ q.1, q.2) := by
  have hp : programs num { r with queue := r.queue ++ cmds } =
      r.programs num ++ cmds.map (Command.program num) := by
    rw [programs, programs, List.map_append, List.append_assoc]
  rw [outcome, outcome, hp, Prog.evalAll_append]
  cases Prog.evalAll Call.eval (r.programs num) r.store.values with
  | none => rfl
  | some p =>
    simp only [Option.bind_some, Option.map_some, Option.map_map]
    refine congrArg (Option.map · _) (funext fun q ↦ ?_)
    rw [Function.comp_apply, List.append_assoc]

/-- How often the apply loop still has to go on. -/
def work (num : Numeric) (r : Replica F) : ℕ :=
  Prog.costAll Call.eval (r.programs num) r.store.values - r.current.toList.length

/-- **No event changes what is computed.** -/
theorem outcome_step (h : r.step num shard e = some r') : r'.outcome num = r.outcome num := by
  rcases step_cases h with ⟨now, -, -, rfl⟩ | ⟨now, c, cs, -, hc, hq, rfl⟩ |
    ⟨now, a, -, hc, rfl⟩ | ⟨now, c, k, resp, s, -, hc, hp, rfl⟩ | ⟨-, rfl | ⟨n, rfl⟩⟩
  · rfl
  · simp only [outcome, programs, hc, hq]
    rfl
  · simp only [outcome, programs, hc, Option.toList_none, Option.toList_some, List.nil_append,
      List.cons_append, Prog.evalAll, Prog.eval, Option.bind_eq_bind, Option.bind_some]
    cases Prog.evalAll Call.eval (r.queue.map (Command.program num)) r.store.values <;> simp
  · have he := Call.eval_of_perform c hp
    simp only [outcome, programs, hc, Option.toList_some, List.nil_append, List.cons_append,
      Prog.evalAll, Prog.eval, he]
  · rfl
  · rfl

theorem Event.ticks_of_ne {e : Event} (hn : ∀ now, e ≠ .tick now) : Event.ticks [e] = 0 := by
  cases e with
  | tick now => exact absurd rfl (hn now)
  | get now key => rfl
  | ttl now key => rfl

/-- The apply loop comes closer to its end whenever it goes on. -/
theorem work_step (h : r.step num shard e = some r') :
    r'.work num + (Event.ticks [e]) ≤ r.work num ∨ (r.Finished ∧ r' = r) := by
  rcases step_cases h with ⟨now, rfl, hf, rfl⟩ | ⟨now, c, cs, rfl, hc, hq, rfl⟩ |
    ⟨now, a, rfl, hc, rfl⟩ | ⟨now, c, k, resp, s, rfl, hc, hp, rfl⟩ | ⟨hn, rfl | ⟨n, rfl⟩⟩
  · exact Or.inr ⟨hf, rfl⟩
  · left
    simp only [work, programs, hc, hq, Option.toList_none, Option.toList_some, List.nil_append,
      List.map_cons, List.length_nil, List.length_singleton, Prog.costAll, List.cons_append,
      Event.ticks]
    omega
  · left
    simp only [work, programs, hc, Option.toList_none, Option.toList_some, List.nil_append,
      List.length_nil, List.length_singleton, Prog.costAll, List.cons_append, Event.ticks,
      Prog.cost, Prog.eval, Option.elim_some]
    omega
  · left
    have he := Call.eval_of_perform c hp
    simp only [work, programs, hc, Option.toList_some, List.nil_append,
      List.length_singleton, Prog.costAll, List.cons_append, Event.ticks, Prog.cost,
      Prog.eval, he]
    omega
  · left
    rw [Event.ticks_of_ne hn, Nat.add_zero]
  · left
    rw [Event.ticks_of_ne hn, Nat.add_zero]
    rfl

theorem Finished.step (hf : r.Finished) (h : r.step num shard e = some r') : r'.Finished := by
  obtain ⟨hc, hq⟩ := hf
  rcases step_cases h with ⟨now, -, hf, rfl⟩ | ⟨now, c, cs, -, -, hq', -⟩ |
    ⟨now, a, -, hc', -⟩ | ⟨now, c, k, resp, s, -, hc', -⟩ | ⟨-, rfl | ⟨n, rfl⟩⟩
  · exact hf
  · rw [hq] at hq'
    cases hq'
  · rw [hc] at hc'
    cases hc'
  · rw [hc] at hc'
    cases hc'
  · exact ⟨hc, hq⟩
  · exact ⟨hc, hq⟩

theorem finished_of_work (h : r.work num = 0) : r.Finished := by
  rw [work, programs] at h
  cases hc : r.current with
  | none =>
    cases hq : r.queue with
    | nil => exact ⟨hc, hq⟩
    | cons c cs =>
      simp [hc, hq, Prog.costAll] at h
  | some p =>
    simp only [hc, Option.toList_some, List.cons_append, Prog.costAll, List.length_singleton] at h
    omega

theorem Finished.outcome_eq (hf : r.Finished) :
    r.outcome num = some (r.results, r.store.values) := by
  obtain ⟨hc, hq⟩ := hf
  simp [outcome, programs, hc, hq, Prog.evalAll]

/-! ## Runs -/

theorem run_cons : r.run num shard (e :: es) = (r.step num shard e).bind (run num shard · es) :=
  List.foldlM_cons ..

theorem run_isSome_iff :
    (∃ r', r.run num shard es = some r') ↔ r.ReadyRun num shard es := by
  induction es generalizing r with
  | nil => exact iff_of_true ⟨r, rfl⟩ trivial
  | cons e es ih =>
    rw [ReadyRun, ← step_isSome_iff, run_cons]
    cases r.step num shard e with
    | none => simp
    | some r' => simp [ih]

theorem outcome_run (h : r.run num shard es = some r') : r'.outcome num = r.outcome num := by
  induction es generalizing r with
  | nil =>
    obtain rfl := Option.some_inj.mp h
    rfl
  | cons e es ih =>
    rw [run_cons] at h
    obtain ⟨t, ht, h⟩ := Option.bind_eq_some_iff.mp h
    exact (ih h).trans (outcome_step ht)

theorem Finished.run (hf : r.Finished) (h : r.run num shard es = some r') : r'.Finished := by
  induction es generalizing r with
  | nil =>
    obtain rfl := Option.some_inj.mp h
    exact hf
  | cons e es ih =>
    rw [run_cons] at h
    obtain ⟨t, ht, h⟩ := Option.bind_eq_some_iff.mp h
    exact ih (hf.step ht) h

theorem ticks_cons (e : Event) (es : List Event) :
    Event.ticks (e :: es) = Event.ticks [e] + Event.ticks es := by
  cases e <;> simp [Event.ticks, Nat.add_comm]

/-- An apply loop that goes on often enough comes to its end. -/
theorem finished_run (h : r.run num shard es = some r') (hw : r.work num ≤ Event.ticks es) :
    r'.Finished := by
  induction es generalizing r with
  | nil =>
    obtain rfl := Option.some_inj.mp h
    exact finished_of_work (Nat.le_zero.mp hw)
  | cons e es ih =>
    rw [run_cons] at h
    obtain ⟨t, ht, ht'⟩ := Option.bind_eq_some_iff.mp h
    rcases work_step ht with hle | ⟨hf, rfl⟩
    · rw [ticks_cons] at hw
      exact ih ht' (by omega)
    · exact hf.run ht'

theorem costAll_program_le (cmds : List (Command F)) (m : String → Option (Value F)) :
    Prog.costAll Call.eval (cmds.map (Command.program num)) m ≤ 5 * cmds.length := by
  induction cmds generalizing m with
  | nil => exact Nat.zero_le _
  | cons c cs ih =>
    have hc := c.cost_program num m
    rw [List.map_cons, Prog.costAll, List.length_cons]
    cases (c.program num).eval Call.eval m with
    | none =>
      simp only [Option.elim_none]
      omega
    | some p =>
      have := ih p.2
      simp only [Option.elim_some]
      omega

/-- An instance that can always go on applies all commands, and computes what they mean. -/
theorem finished_start {s : Datastore F} {cmds : List (Command F)}
    (h : (start s cmds).run num shard es = some r) (ht : 5 * cmds.length ≤ Event.ticks es) :
    r.Finished ∧ (start s cmds).outcome num = some (r.results, r.store.values) := by
  have hf : r.Finished := by
    refine finished_run h (le_trans ?_ ht)
    exact costAll_program_le cmds s.values
  exact ⟨hf, by rw [← outcome_run h, hf.outcome_eq]⟩

/-- **When two instances agree.**  They start with the same store and are given time enough.  Then
both apply all the commands, with the same results, and end with the same values, exactly if in both
of them the apply loop can always go on. -/
theorem replicas_agree_iff (num : Numeric) (shard₁ shard₂ : String → ℕ) (s : Datastore F)
    (cmds : List (Command F)) (es₁ es₂ : List Event) (h₁ : 5 * cmds.length ≤ Event.ticks es₁)
    (h₂ : 5 * cmds.length ≤ Event.ticks es₂) :
    (∃ r₁ r₂, (start s cmds).run num shard₁ es₁ = some r₁ ∧
      (start s cmds).run num shard₂ es₂ = some r₂ ∧ r₁.Finished ∧ r₂.Finished ∧
      r₁.store.values = r₂.store.values ∧ r₁.results = r₂.results) ↔
    (start s cmds).ReadyRun num shard₁ es₁ ∧ (start s cmds).ReadyRun num shard₂ es₂ := by
  rw [← run_isSome_iff, ← run_isSome_iff]
  constructor
  · rintro ⟨r₁, r₂, hr₁, hr₂, -⟩
    exact ⟨⟨r₁, hr₁⟩, ⟨r₂, hr₂⟩⟩
  · rintro ⟨⟨r₁, hr₁⟩, ⟨r₂, hr₂⟩⟩
    obtain ⟨hf₁, ho₁⟩ := finished_start hr₁ h₁
    obtain ⟨hf₂, ho₂⟩ := finished_start hr₂ h₂
    rw [ho₁] at ho₂
    obtain ⟨hres, hval⟩ := Prod.mk.inj (Option.some_inj.mp ho₂)
    exact ⟨r₁, r₂, hr₁, hr₂, hf₁, hf₂, hval, hres⟩

/-- One is `"1"` and two is `"2"`. -/
def oneTwo : Numeric where
  incr s := if s = "1" then some "2" else none
  decr s := if s = "2" then some "1" else none

/-- A key that expires after five seconds, and is then incremented. -/
def expiring : List (Command Unit) :=
  [.set ⟨"k", "1", some 5⟩, .increment ⟨"k"⟩]

/-- The clocks differ, and one instance also serves reads, but all is done in time. -/
theorem replicas_agree_iff_expiring :
    ∃ r₁ r₂,
      (start ⟨fun _ ↦ none, []⟩ expiring).run oneTwo (fun _ ↦ 0)
        (List.replicate 10 (.tick 7)) = some r₁ ∧
      (start ⟨fun _ ↦ none, []⟩ expiring).run oneTwo (fun _ ↦ 1)
        (List.replicate 5 (.tick 0) ++ [.get 3 "k", .ttl 4 "l"] ++
          List.replicate 5 (.tick (4 * 10 ^ 9))) = some r₂ ∧
      r₁.Finished ∧ r₂.Finished ∧ r₁.store.values = r₂.store.values ∧ r₁.results = r₂.results := by
  refine (replicas_agree_iff oneTwo _ _ _ expiring _ _ (by decide) (by decide)).mpr ⟨?_, ?_⟩
  · exact run_isSome_iff.mp ⟨_, rfl⟩
  · exact run_isSome_iff.mp ⟨_, rfl⟩

/-- The second instance is a second too late: it never gives a result for the increment. -/
theorem not_replicas_agree :
    (∃ r₁, (start ⟨fun _ ↦ none, []⟩ expiring).run oneTwo (fun _ ↦ 0)
        (List.replicate 10 (.tick 0)) = some r₁ ∧ r₁.Finished ∧
      r₁.results = [some (.ok "ok"), some (.value "2")]) ∧
    (start ⟨fun _ ↦ none, []⟩ expiring).run oneTwo (fun _ ↦ 0)
      (List.replicate 5 (.tick 0) ++ List.replicate 5 (.tick (6 * 10 ^ 9))) = none := by
  refine ⟨⟨_, rfl, ⟨rfl, rfl⟩, ?_⟩, rfl⟩
  decide

end Replica

end Efis
