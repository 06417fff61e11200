import Efis.Store.Replica

/-!
# What can stop the apply loop

The loop applies one command after the other, and a command that does not come to its end is its
last.  There are four such cases.

* A time overflows: `SystemTime::now() + Duration::from_secs(secs)` panics, in `set` with an expiry
  and in `expire`.  Any `u64` is accepted as a duration.
* A `vset` of no vectors on a missing key panics, because the size of the new index is that of the
  first vector.
* An `increment`, a `decrement` or a `vset` that reads an expired item waits for itself.
* The shard is locked by a reader that waits for itself.

`Command.Clear` says that none of them applies, in terms of the store before the command and of the
moments when the command makes its calls: the time and the shards that are locked then.  Readers may
come in between.  A command returns exactly if it is clear, so the loop executes all commands
exactly if each of them is clear in the store that the ones before it have left.
-/

set_option autoImplicit false

namespace Efis

open Transition

variable {F : Type}

/-- What the items are, without the locks. -/
abbrev Items (F : Type) := String → Option (Item F)

/-- When a call is made: the time, and the shards in which a reader is blocked. -/
structure Moment where
  now : ℕ
  stuck : List ℕ

section

variable (num : Numeric) (shard : String → ℕ)

/-- What a program comes to if it makes its calls at the given moments. -/
def execAt : ApplyProg F → (ℕ → Moment) → Items F → CallResult (Option LateRes × Items F)
  | .ret a, _, d => .done (a, d)
  | .fail, _, _ => .panicked
  | .call c k, ms, d =>
    match c.perform shard (ms 0).now ⟨d, (ms 0).stuck⟩ with
    | .done (r, s) => execAt (k r) (fun i ↦ ms (i + 1)) s.data
    | .blocked => .blocked
    | .panicked => .panicked

/-- The apply loop, with the moments for each command. -/
def applyAll : List (Command F × (ℕ → Moment)) → Items F →
    CallResult (List (Option LateRes) × Items F)
  | [], d => .done ([], d)
  | (c, ms) :: rest, d =>
    match execAt shard (c.program num) ms d with
    | .done (a, d) =>
      match applyAll rest d with
      | .done (as, d) => .done (a :: as, d)
      | .blocked => .blocked
      | .panicked => .panicked
    | .blocked => .blocked
    | .panicked => .panicked

/-- Nobody is blocked in the shard of the key. -/
def Moment.Free (m : Moment) (key : String) : Prop := shard key ∉ m.stuck

/-- The time `secs` from now can be represented. -/
def Moment.Ends (m : Moment) (secs : UInt64) : Prop := m.now + 10 ^ 9 * secs.toNat < maxTime

/-- What is stored under the key has not expired. -/
def Moment.Fresh (m : Moment) (d : Items F) (key : String) : Prop :=
  ∀ item ∈ d key, ¬ item.expired m.now

/-- Nothing is in the way of a command. -/
def Command.Clear (ms : ℕ → Moment) (d : Items F) : Command F → Prop
  | .set req => (ms 0).Free shard req.key ∧ ∀ secs ∈ req.exp, (ms 0).Ends secs
  | .delete req | .lpop req | .rpop req => (ms 0).Free shard req.key
  | .vdel req => (ms 0).Free shard req.key
  | .increment req | .decrement req => (ms 0).Free shard req.key ∧ (ms 1).Fresh d req.key
  | .expire req =>
    (ms 0).Free shard req.key ∧ ((d req.key).isSome → (ms 0).Ends req.duration)
  | .lpush req | .rpush req | .sadd req =>
    (ms 0).Free shard req.key ∧ (ms 1).Free shard req.key
  | .zadd req => (ms 0).Free shard req.key ∧ (ms 1).Free shard req.key
  | .vset req =>
    (ms 0).Fresh d req.key ∧ (ms 1).Free shard req.key ∧
      (d req.key = none → req.vecs ≠ [] ∧ (ms 2).Free shard req.key)
  | .publish _ | .unknown => True

end

/-! ## One command -/

variable {num : Numeric} {shard : String → ℕ} {ms : ℕ → Moment} {d : Items F}

/-- The program returns. -/
def Returns (shard : String → ℕ) (p : ApplyProg F) (ms : ℕ → Moment) (d : Items F) : Prop :=
  ∃ r, execAt shard p ms d = .done r

@[simp] theorem returns_ret (a : Option LateRes) : Returns shard (.ret a) ms d := ⟨_, rfl⟩

@[simp] theorem returns_ok : Returns shard Apply.ok ms d := returns_ret _

@[simp] theorem returns_internal (msg : String) : Returns shard (Apply.internal msg) ms d :=
  returns_ret _

@[simp] theorem not_returns_fail : ¬ Returns shard (.fail : ApplyProg F) ms d := by
  rintro ⟨r, hr⟩
  cases hr

/-- A program returns if its first call does and then the rest of it, on which the condition is the
same whatever the call has responded. -/
theorem returns_call {c : Call F} {k : c.Resp → ApplyProg F} {Q : Prop}
    (h : ∀ r s, c.perform shard (ms 0).now ⟨d, (ms 0).stuck⟩ = .done (r, s) →
      (Returns shard (k r) (fun i ↦ ms (i + 1)) s.data ↔ Q)) :
    Returns shard (.call c k) ms d ↔ c.Ready shard (ms 0).now ⟨d, (ms 0).stuck⟩ ∧ Q := by
  rw [← Call.perform_done_iff, Returns, execAt]
  cases hp : c.perform shard (ms 0).now ⟨d, (ms 0).stuck⟩ with
  | done p =>
    obtain ⟨r, s⟩ := p
    rw [← h r s hp]
    exact (and_iff_right ⟨_, rfl⟩).symm
  | blocked => simp
  | panicked => simp

/-- Often the rest returns in any case. -/
theorem returns_call_iff {c : Call F} {k : c.Resp → ApplyProg F}
    (h : ∀ r, ∃ a, k r = .ret a) :
    Returns shard (.call c k) ms d ↔ c.Ready shard (ms 0).now ⟨d, (ms 0).stuck⟩ := by
  rw [returns_call (Q := True), and_true]
  intro r s _
  obtain ⟨a, ha⟩ := h r
  rw [ha]
  exact iff_of_true (returns_ret a) trivial

theorem isSome_addSecs {m : Moment} {secs : UInt64} :
    (addSecs m.now secs).isSome ↔ m.Ends secs := by
  rw [addSecs, Moment.Ends]
  split
  · rename_i h
    exact iff_of_true rfl h
  · rename_i h
    exact iff_of_false Bool.false_ne_true h

theorem ready_set (key : String) (value : Value F) (exp : Option UInt64) (m : Moment) :
    (Call.set key value exp).Ready shard m.now ⟨d, m.stuck⟩ ↔
      m.Free shard key ∧ ∀ secs ∈ exp, m.Ends secs := by
  simp only [Call.Ready, isSome_addSecs, Moment.Free]

/-- Without an expiry there is nothing to compute. -/
theorem ready_set_none (key : String) (value : Value F) (m : Moment) :
    (Call.set key value none).Ready shard m.now ⟨d, m.stuck⟩ ↔ m.Free shard key := by
  rw [ready_set]
  exact and_iff_left fun secs hsecs ↦ by cases hsecs

theorem returns_set (req : SetReq) :
    Returns shard (Apply.set req) ms d ↔
      (ms 0).Free shard req.key ∧ ∀ secs ∈ req.exp, (ms 0).Ends secs := by
  rw [Apply.set, returns_call_iff, ready_set]
  exact fun _ ↦ ⟨_, rfl⟩

theorem returns_removeKey (key : String) :
    Returns shard (Apply.removeKey key) ms d ↔ (ms 0).Free shard key := by
  rw [Apply.removeKey, returns_call_iff, Call.Ready, Moment.Free]
  intro r
  cases r <;> exact ⟨_, rfl⟩

theorem returns_expire (req : ExpireReq) :
    Returns shard (Apply.expire req) ms d ↔
      (ms 0).Free shard req.key ∧ ((d req.key).isSome → (ms 0).Ends req.duration) := by
  rw [Apply.expire, returns_call_iff]
  · simp only [Call.Ready, isSome_addSecs, Moment.Free]
  · intro r
    cases r <;> exact ⟨_, rfl⟩

theorem returns_pop (key : String) (f : List String → Option String × List String) :
    Returns shard (Apply.pop key f) ms d ↔ (ms 0).Free shard key := by
  rw [Apply.pop, returns_call_iff, Call.Ready, Moment.Free]
  intro r
  split <;> exact ⟨_, rfl⟩

/-- What a change of a value leaves: the item is there if it was, and expires when it would. -/
theorem perform_modify {key : String} {f : Value F → Value F × Option String} {m : Moment}
    {r : Option (Option String)} {s : Datastore F}
    (h : (Call.modify key f).perform shard m.now ⟨d, m.stuck⟩ = .done (r, s)) :
    (d key = none ∧ r = none) ∨
      ∃ item v o, d key = some item ∧ r = some o ∧
        s.data = Function.update d key (some ⟨v, item.expiry⟩) := by
  have h := Call.exclusive_done h
  split at h
  · rename_i item hitem
    obtain ⟨rfl, rfl⟩ := CallResult.pair_inj h
    exact Or.inr ⟨item, _, _, hitem, rfl, rfl⟩
  · rename_i hitem
    obtain ⟨rfl, rfl⟩ := CallResult.pair_inj h
    exact Or.inl ⟨hitem, rfl⟩

theorem perform_get {key : String} {m : Moment} {r : Option (Value F)} {s : Datastore F}
    (h : (Call.get key).perform shard m.now ⟨d, m.stuck⟩ = .done (r, s)) :
    r = (d key).map Item.value ∧ s.data = d := by
  simp only [Call.perform, Datastore.getSync] at h
  split at h
  · rename_i item hitem
    split at h
    · cases h
    · obtain ⟨rfl, rfl⟩ := CallResult.pair_inj h
      exact ⟨by rw [hitem]; rfl, rfl⟩
  · rename_i hitem
    obtain ⟨rfl, rfl⟩ := CallResult.pair_inj h
    exact ⟨by rw [hitem]; rfl, rfl⟩

/-- Whether something has expired does not depend on its value. -/
theorem Moment.fresh_update {m : Moment} {key : String} {item : Item F} (v : Value F)
    (h : d key = some item) :
    m.Fresh (Function.update d key (some ⟨v, item.expiry⟩)) key ↔ m.Fresh d key := by
  simp only [Moment.Fresh, Function.update_self, h, Option.mem_some_iff, forall_eq']
  rfl

theorem returns_bumpKey (op : String → Option String) (key : String) :
    Returns shard (Apply.bumpKey op key) ms d ↔ (ms 0).Free shard key ∧ (ms 1).Fresh d key := by
  rw [Apply.bumpKey, returns_call (Q := (ms 1).Fresh d key), Call.Ready, Moment.Free]
  intro r s hp
  rcases perform_modify hp with ⟨hnone, rfl⟩ | ⟨item, v, o, hitem, rfl, hs⟩
  · refine iff_of_true (returns_internal _) fun item hitem ↦ ?_
    rw [hnone] at hitem
    cases hitem
  · -- the second call reads the item back, and after it nothing can go wrong
    rw [returns_call_iff, ← Moment.fresh_update v hitem, ← hs]
    · rfl
    · intro r
      split <;> exact ⟨_, rfl⟩

theorem returns_rebuild (key : String) (empty : Value F) (f : Value F → Value F) :
    Returns shard (Apply.rebuild key empty f) ms d ↔
      (ms 0).Free shard key ∧ (ms 1).Free shard key := by
  rw [Apply.rebuild, returns_call (Q := (ms 1).Free shard key), ready_set_none]
  intro _ s _
  rw [returns_call_iff, Call.Ready, Moment.Free]
  intro r
  split <;> exact ⟨_, rfl⟩

theorem returns_fillIndex (req : VSetReq F) :
    Returns shard (Apply.fillIndex req) ms d ↔ (ms 0).Free shard req.key := by
  rw [Apply.fillIndex, returns_call_iff, Call.Ready, Moment.Free]
  intro r
  cases r <;> exact ⟨_, rfl⟩

theorem returns_vset (req : VSetReq F) :
    Returns shard (Apply.vset req) ms d ↔ (ms 0).Fresh d req.key ∧ (ms 1).Free shard req.key ∧
      (d req.key = none → req.vecs ≠ [] ∧ (ms 2).Free shard req.key) := by
  rw [Apply.vset, returns_call (Q := (ms 1).Free shard req.key ∧
    (d req.key = none → req.vecs ≠ [] ∧ (ms 2).Free shard req.key)), Call.Ready, Moment.Fresh]
  intro r s hp
  obtain ⟨rfl, hs⟩ := perform_get hp
  cases hitem : d req.key with
  | some item =>
    rw [Option.map_some]
    simp only [returns_fillIndex, reduceCtorEq, false_implies, and_true]
  | none =>
    -- a new index takes two more calls, and a first vector
    rw [Option.map_none]
    simp only [true_implies]
    cases hv : req.vecs with
    | nil => simp
    | cons v vs =>
      simp only [ne_eq, reduceCtorEq, not_false_eq_true, true_and]
      rw [returns_call (Q := (ms 2).Free shard req.key), ready_set_none]
      intro _ s' _
      exact returns_fillIndex req

/-- **A command returns exactly if nothing is in its way.** -/
theorem Command.returns_iff (c : Command F) :
    Returns shard (c.program num) ms d ↔ c.Clear shard ms d := by
  cases c with
  | set req => exact returns_set req
  | delete req => exact returns_removeKey req.key
  | increment req => exact returns_bumpKey num.incr req.key
  | decrement req => exact returns_bumpKey num.decr req.key
  | expire req => exact returns_expire req
  | lpush req => exact returns_rebuild _ _ _
  | lpop req => exact returns_pop _ _
  | rpush req => exact returns_rebuild _ _ _
  | rpop req => exact returns_pop _ _
  | sadd req => exact returns_rebuild _ _ _
  | zadd req => exact returns_rebuild _ _ _
  | publish req => exact iff_of_true returns_ok trivial
  | vset req => exact returns_vset req
  | vdel req => exact returns_removeKey req.key
  | unknown => exact iff_of_true (returns_ret none) trivial

/-! ## Results -/

/-- The program gives a result if it returns. -/
def Gives (shard : String → ℕ) (p : ApplyProg F) : Prop :=
  ∀ ms d a d', execAt shard p ms d = .done (a, d') → a.isSome

theorem Gives.ret (a : LateRes) : Gives (F := F) shard (.ret (some a)) := by
  intro ms d b d' h
  obtain ⟨rfl, -⟩ := CallResult.pair_inj h
  rfl

theorem Gives.call {c : Call F} {k : c.Resp → ApplyProg F} (h : ∀ r, Gives shard (k r)) :
    Gives shard (.call c k) := by
  intro ms d a d' hd
  rw [execAt] at hd
  split at hd
  · exact h _ _ _ _ _ hd
  · cases hd
  · cases hd

theorem Gives.fail : Gives (F := F) shard .fail := by
  intro ms d a d' h
  cases h

theorem Gives.removeKey (key : String) : Gives (F := F) shard (Apply.removeKey key) :=
  .call fun r ↦ by cases r <;> exact .ret _

theorem Gives.bumpKey (op : String → Option String) (key : String) :
    Gives (F := F) shard (Apply.bumpKey op key) := by
  refine .call fun r ↦ ?_
  split
  · exact .ret _
  · refine .call fun v ↦ ?_
    split <;> exact .ret _

theorem Gives.rebuild (key : String) (empty : Value F) (f : Value F → Value F) :
    Gives shard (Apply.rebuild key empty f) := by
  refine .call fun _ ↦ .call fun r ↦ ?_
  split <;> exact .ret _

theorem Gives.pop (key : String) (f : List String → Option String × List String) :
    Gives (F := F) shard (Apply.pop key f) := by
  refine .call fun r ↦ ?_
  split <;> exact .ret _

theorem Gives.fillIndex (req : VSetReq F) : Gives shard (Apply.fillIndex req) :=
  .call fun r ↦ by cases r <;> exact .ret _

theorem Gives.vset (req : VSetReq F) : Gives shard (Apply.vset req) := by
  refine .call fun r ↦ ?_
  split
  · exact .fillIndex req
  · split
    · exact .fail
    · exact .call fun _ ↦ .fillIndex req

/-- Every command but `Unknown` gives a result. -/
theorem Command.gives {c : Command F} (hc : c ≠ .unknown) : Gives shard (c.program num) := by
  cases c with
  | set req => exact .call fun _ ↦ .ret _
  | delete req => exact .removeKey _
  | increment req => exact .bumpKey _ _
  | decrement req => exact .bumpKey _ _
  | expire req => exact .call fun r ↦ by cases r <;> exact .ret _
  | lpush req => exact .rebuild _ _ _
  | lpop req => exact .pop _ _
  | rpush req => exact .rebuild _ _ _
  | rpop req => exact .pop _ _
  | sadd req => exact .rebuild _ _ _
  | zadd req => exact .rebuild _ _ _
  | publish req => exact .ret _
  | vset req => exact .vset req
  | vdel req => exact .removeKey _
  | unknown => exact absurd rfl hc

/-! ## Instances

An instance that serves readers in between makes its calls at certain moments too. -/

namespace Replica

variable {r r' : Replica F} {es : List Event} {p : ApplyProg F}

theorem results_step {e : Event} (h : r.step num shard e = some r') :
    r.results.length ≤ r'.results.length := by
  rcases step_cases h with ⟨now, -, -, rfl⟩ | ⟨now, c, cs, -, -, -, rfl⟩ |
    ⟨now, a, -, -, rfl⟩ | ⟨now, c, k, resp, s, -, -, -, rfl⟩ | ⟨-, rfl | ⟨n, rfl⟩⟩
  · exact le_rfl
  · exact le_rfl
  · simp
  · exact le_rfl
  · exact le_rfl
  · exact le_rfl

theorem results_run (h : r.run num shard es = some r') :
    r.results.length ≤ r'.results.length := by
  induction es generalizing r with
  | nil =>
    obtain rfl := Option.some_inj.mp h
    exact le_rfl
  | cons e es ih =>
    rw [run_cons] at h
    obtain ⟨t, ht, h⟩ := Option.bind_eq_some_iff.mp h
    exact (results_step ht).trans (ih h)

/-- A program whose next call does not return does not return. -/
theorem not_returns_of_step {now : ℕ} (hp : r.current = some p)
    (h : r.step num shard (.tick now) = none) :
    ¬ Returns shard p (fun _ ↦ ⟨now, r.store.stuck⟩) r.store.data := by
  have hready : ¬ r.Ready shard (.tick now) := by
    rw [← @step_isSome_iff F num, h]
    simp
  rw [Ready, hp] at hready
  cases p with
  | ret a => exact absurd trivial hready
  | fail => exact not_returns_fail
  | call c k =>
    simp only at hready
    rintro ⟨x, hx⟩
    rw [execAt] at hx
    split at hx
    · rename_i resp s hperf
      exact hready ((Call.perform_done_iff c).mp ⟨_, hperf⟩)
    · cases hx
    · cases hx

/-- One more moment at the front. -/
theorem execAt_call {c : Call F} {k : c.Resp → ApplyProg F} {now : ℕ} {stuck : List ℕ}
    {resp : c.Resp} {s : Datastore F} (h : c.perform shard now ⟨d, stuck⟩ = .done (resp, s)) :
    execAt shard (.call c k) (fun i ↦ i.casesOn ⟨now, stuck⟩ ms) d =
      execAt shard (k resp) ms s.data := by
  rw [execAt]
  change (match c.perform shard now ⟨d, stuck⟩ with
    | .done (r, s) => execAt shard (k r) ms s.data
    | .blocked => .blocked
    | .panicked => .panicked) = _
  rw [h]

/-- Where an instance gets stuck, the program it was in does not return at the moments of its
calls. -/
theorem not_returns_of_run {now : ℕ} (hp : r.current = some p)
    (h : r.run num shard es = some r') (hres : r'.results = r.results)
    (hstuck : r'.step num shard (.tick now) = none) :
    ∃ ms, ¬ Returns shard p ms r.store.data := by
  induction es generalizing r p with
  | nil =>
    obtain rfl := Option.some_inj.mp h
    exact ⟨_, not_returns_of_step hp hstuck⟩
  | cons e es ih =>
    rw [run_cons] at h
    obtain ⟨t, ht, hrun⟩ := Option.bind_eq_some_iff.mp h
    rcases step_cases ht with ⟨_, -, hf, rfl⟩ | ⟨_, c, cs, -, hc, -, rfl⟩ |
      ⟨_, a, -, -, rfl⟩ | ⟨now', c, k, resp, s, -, hc, hperf, rfl⟩ | ⟨-, rfl | ⟨n, rfl⟩⟩
    · exact ih hp hrun hres
    · rw [hp] at hc
      cases hc
    · -- the program has returned, and a result stays
      have hle := results_run hrun
      rw [hres, List.length_append, List.length_singleton] at hle
      omega
    · obtain rfl := Option.some_inj.mp (hp.symm.trans hc)
      obtain ⟨ms, hms⟩ := ih (p := k resp) rfl hrun hres
      refine ⟨fun i ↦ i.casesOn ⟨now', r.store.stuck⟩ ms, ?_⟩
      rintro ⟨x, hx⟩
      rw [execAt_call hperf] at hx
      exact hms ⟨x, hx⟩
    · exact ih hp hrun hres
    · exact ih (r := { r with store := r.store.lock n }) hp hrun hres

/-- **An instance gets stuck only in a command that something was in the way of.** -/
theorem not_clear_of_run {now : ℕ} {c : Command F} (hp : r.current = some (c.program num))
    (h : r.run num shard es = some r') (hres : r'.results = r.results)
    (hstuck : r'.step num shard (.tick now) = none) :
    ∃ ms, ¬ c.Clear shard ms r.store.data := by
  obtain ⟨ms, hms⟩ := not_returns_of_run hp h hres hstuck
  exact ⟨ms, fun hc ↦ hms ((Command.returns_iff c).mpr hc)⟩

end Replica

/-! ## The loop -/

variable {c : Command F} {work : List (Command F × (ℕ → Moment))}

theorem applyAll_cons {rs : List (Option LateRes)} {d' : Items F} :
    applyAll num shard ((c, ms) :: work) d = .done (rs, d') ↔
      ∃ a d₁ as, execAt shard (c.program num) ms d = .done (a, d₁) ∧
        applyAll num shard work d₁ = .done (as, d') ∧ rs = a :: as := by
  rw [applyAll]
  constructor
  · intro h
    split at h
    · rename_i a d₁ ha
      split at h
      · rename_i as d₂ has
        obtain ⟨rfl, rfl⟩ := CallResult.pair_inj h
        exact ⟨a, d₁, as, ha, has, rfl⟩
      · cases h
      · cases h
    · cases h
    · cases h
  · rintro ⟨a, d₁, as, ha, has, rfl⟩
    rw [ha]
    simp only
    rw [has]

/-- Each command is clear in the store that those before it have left. -/
def ClearRun (num : Numeric) (shard : String → ℕ) (work : List (Command F × (ℕ → Moment)))
    (d : Items F) : Prop :=
  ∀ before c ms after rs d', work = before ++ (c, ms) :: after →
    applyAll num shard before d = .done (rs, d') → c.Clear shard ms d'

theorem clearRun_cons {a : Option LateRes} {d₁ : Items F}
    (ha : execAt shard (c.program num) ms d = .done (a, d₁)) :
    ClearRun num shard ((c, ms) :: work) d ↔ ClearRun num shard work d₁ := by
  constructor
  · rintro h before c' ms' after rs d' rfl hb
    exact h ((c, ms) :: before) c' ms' after (a :: rs) d' rfl
      (applyAll_cons.mpr ⟨a, d₁, rs, ha, hb, rfl⟩)
  · intro h before c' ms' after rs d' hw hb
    cases before with
    | nil =>
      obtain ⟨hcm, -⟩ := List.cons.inj hw
      obtain ⟨rfl, rfl⟩ := Prod.mk.inj hcm
      obtain ⟨-, rfl⟩ := CallResult.pair_inj hb
      exact (Command.returns_iff c).mp ⟨_, ha⟩
    | cons w before =>
      obtain ⟨rfl, rfl⟩ := List.cons.inj hw
      obtain ⟨a', d₁', as, ha', has, rfl⟩ := applyAll_cons.mp hb
      obtain ⟨rfl, rfl⟩ := CallResult.pair_inj (ha.symm.trans ha')
      exact h before c' ms' after as d' rfl has

/-- **What stops the apply loop.**  Whatever is in the store, the loop executes all the commands and
each of them ends with `Ok` or `Err`, exactly if each is clear when its turn comes. -/
theorem apply_loop_goes_on_iff (num : Numeric) (shard : String → ℕ)
    (work : List (Command F × (ℕ → Moment))) (d : Items F) :
    (∃ rs d', applyAll num shard work d = .done (rs, d') ∧
      List.Forall₂ (fun w a ↦ w.1 ≠ .unknown → a.isSome) work rs) ↔
    ClearRun num shard work d := by
  induction work generalizing d with
  | nil =>
    refine iff_of_true ⟨[], d, rfl, .nil⟩ ?_
    intro before c ms after rs d' hw
    exact absurd hw (by simp)
  | cons w work ih =>
    obtain ⟨c, ms⟩ := w
    constructor
    · rintro ⟨rs, d', h, hrs⟩
      obtain ⟨a, d₁, as, ha, has, rfl⟩ := applyAll_cons.mp h
      rw [clearRun_cons ha, ← ih]
      exact ⟨as, d', has, (List.forall₂_cons.mp hrs).2⟩
    · intro h
      have hclear : c.Clear shard ms d := h [] c ms work [] d rfl rfl
      have hreturns : Returns shard (c.program num) ms d := (Command.returns_iff c).mpr hclear
      obtain ⟨⟨a, d₁⟩, ha⟩ := hreturns
      obtain ⟨as, d', has, hrs⟩ := (ih d₁).mpr ((clearRun_cons ha).mp h)
      exact ⟨a :: as, d', applyAll_cons.mpr ⟨a, d₁, as, ha, has, rfl⟩,
        .cons (fun hc ↦ Command.gives hc _ _ _ _ ha) hrs⟩

/-- A `vset` of no vectors stops the loop of an empty store, and the command after it is never
executed. -/
theorem not_apply_loop_goes_on :
    ¬ ∀ (work : List (Command Unit × (ℕ → Moment))) (d : Items Unit),
      ∃ rs d', applyAll Replica.oneTwo (fun _ ↦ 0) work d = .done (rs, d') ∧
        List.Forall₂ (fun w a ↦ w.1 ≠ .unknown → a.isSome) work rs := by
  intro h
  obtain ⟨rs, d', hd, -⟩ := h [(.vset ⟨"k", []⟩, fun _ ↦ ⟨0, []⟩),
    (.set ⟨"l", "1", none⟩, fun _ ↦ ⟨0, []⟩)] fun _ ↦ none
  cases hd

end Efis
