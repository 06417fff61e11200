import Efis.Store.Guards

/-!
# Lazy expiry

An item that has expired stays in the map until somebody removes it.  Here the datastore is compared
with a store that has no expired items: each operation first removes all of them (`purge`), and then
does what the code does.  The two give the same answers as long as no operation but `set` comes to a
key whose item has expired (`answers_purge_iff`).  When one does, the answers differ at once: `get`
and `ttl` block, `remove`, `expire` and `modify` find the item.

An operation is about one key.  What it does to the item of this key is `Access.act`, and everything
here follows from that.
-/

set_option autoImplicit false

namespace Efis

open Transition

variable {F : Type}

/-- Without what has expired. -/
def purge (now : ℕ) (d : Items F) : Items F :=
  fun key ↦ (d key).filter fun item ↦ ¬ item.expired now

namespace Access

variable (now : ℕ)

def key : Access F → String
  | .call (.set key _ _) => key
  | .call (.get key) => key
  | .call (.remove key) => key
  | .call (.expire key _) => key
  | .call (.modify key _) => key
  | .ttl key => key

/-- What an operation does to the item of its key. -/
def act : (a : Access F) → Option (Item F) → Ran (a.Resp × Option (Item F))
  | .call (.set _ value exp), _ =>
    match exp.mapM (addSecs now) with
    | some expiry => .done ((), some ⟨value, expiry⟩)
    | none => .failed
  | .call (.get _), x =>
    match x with
    | some item => if item.expired now then .blocked else .done (some item.value, some item)
    | none => .done (none, none)
  | .call (.remove _), x => .done (x.isSome, none)
  | .call (.expire _ secs), x =>
    match x with
    | some item =>
      match addSecs now secs with
      | some t => .done (true, some { item with expiry := some t })
      | none => .failed
    | none => .done (false, none)
  | .call (.modify _ f), x =>
    match x with
    | some item => .done (some (f item.value).2, some { item with value := (f item.value).1 })
    | none => .done (none, none)
  | .ttl _, x =>
    match x with
    | some item =>
      match item.expiry with
      | some t => if t ≤ now then .blocked else .done (.ok (some (t - now)), some item)
      | none => .done (.ok none, some item)
    | none => .done (.error "key not found", none)

variable {now} {shard : String → ℕ} {d : Items F}

/-- An operation is about one key. -/
theorem alone_eq_act (a : Access F) :
    (a.program now).alone shard d [] =
      (a.act now (d a.key)).map fun p ↦ (p.1, Function.update d a.key p.2) := by
  rw [alone_eq]
  cases a with
  | ttl key =>
    simp only [perform, Datastore.ttl, Access.key, act]
    cases hd : d key with
    | none => simp [ran, Ran.map, ← hd]
    | some item =>
      cases hx : item.expiry with
      | none => simp [hx, ran, Ran.map, ← hd]
      | some t =>
        by_cases ht : t ≤ now
        · simp [hx, ran, Ran.map, ht]
        · simp [hx, ran, Ran.map, ht, ← hd]
  | call c =>
    cases c with
    | set key value exp =>
      simp only [perform, Call.perform, Datastore.set, Datastore.exclusive, Access.key, act]
      cases exp.mapM (addSecs now) <;> simp [ran, Ran.map, Datastore.insert]
    | get key =>
      simp only [perform, Call.perform, Datastore.getSync, Access.key, act]
      cases hd : d key with
      | none => simp [ran, Ran.map, ← hd]
      | some item =>
        by_cases h : item.expired now
        · simp [ran, Ran.map, h]
        · simp [ran, Ran.map, h, ← hd]
    | remove key =>
      simp [perform, Call.perform, Datastore.remove, Datastore.exclusive, Access.key, act, ran,
        Ran.map, Datastore.insert]
    | expire key secs =>
      simp only [perform, Call.perform, Datastore.expire, Datastore.exclusive, Access.key, act]
      cases hd : d key with
      | none => simp [ran, Ran.map, ← hd]
      | some item => cases addSecs now secs <;> simp [ran, Ran.map, Datastore.insert]
    | modify key f =>
      simp only [perform, Call.perform, Datastore.modify, Datastore.exclusive, Access.key, act]
      cases hd : d key with
      | none => simp [ran, Ran.map, ← hd]
      | some item => simp [ran, Ran.map, Datastore.insert]

variable (now d) in
/-- The operation is a `set`, or the item of its key has not expired. -/
def Live (a : Access F) : Prop :=
  (∃ key value exp, a = .call (.set key value exp)) ∨ ∀ item ∈ d a.key, ¬ item.expired now

theorem purge_of_not_expired {key : String} (h : ∀ item ∈ d key, ¬ item.expired now) :
    purge now d key = d key := by
  cases hitem : d key with
  | none => rw [purge, hitem, Option.filter_none]
  | some item =>
    rw [purge, hitem, Option.filter_some_pos]
    exact decide_eq_true (h item hitem)

theorem purge_of_expired {key : String} {item : Item F} (hitem : d key = some item)
    (h : item.expired now) : purge now d key = none := by
  rw [purge, hitem, Option.filter_some_neg]
  exact decide_eq_false (not_not.mpr h)

/-- On a live key it makes no difference what has expired elsewhere. -/
theorem act_purge {a : Access F} (h : a.Live now d) :
    a.act now (purge now d a.key) = a.act now (d a.key) := by
  rcases h with ⟨key, value, exp, rfl⟩ | h
  · rfl
  · rw [purge_of_not_expired h]

/-- On an expired item, every operation but `set` gives itself away. -/
theorem act_expired {a : Access F} (h : ¬ a.Live now d) :
    (a.act now (d a.key)).map Prod.fst ≠ (a.act now (purge now d a.key)).map Prod.fst := by
  rw [Live, not_or] at h
  obtain ⟨hset, h⟩ := h
  push Not at h
  obtain ⟨item, hitem, hexp⟩ := h
  rw [purge_of_expired hitem hexp, hitem]
  cases a with
  | ttl key =>
    obtain ⟨t, ht, hle⟩ := hexp
    have hx : item.expiry = some t := ht
    simp [act, hx, hle, Ran.map]
  | call c =>
    cases c with
    | set key value exp => exact absurd ⟨key, value, exp, rfl⟩ hset
    | get key => simp [act, hexp, Ran.map]
    | remove key => simp [act, Ran.map]
    | expire key secs =>
      rw [act, act]
      cases addSecs now secs <;> simp [Ran.map]
    | modify key f => simp [act, Ran.map]

end Access

/-! ## Histories -/

/-- The answers to a sequence of operations, each made at the time that stands before it.
A call that blocks is the last one; one that panics leaves the store as it was. -/
def answers (before : ℕ → Items F → Items F) (shard : String → ℕ) :
    List (ℕ × Access F) → Items F → List ((a : Access F) × Ran a.Resp)
  | [], _ => []
  | (now, a) :: work, d =>
    ⟨a, ((a.program now).alone shard (before now d) []).map Prod.fst⟩ ::
      match (a.program now).alone shard (before now d) [] with
      | .done (_, d') => answers before shard work d'
      | .blocked => []
      | .failed => answers before shard work (before now d)

/-- Each operation finds its key live. -/
def AllLive (shard : String → ℕ) : List (ℕ × Access F) → Items F → Prop
  | [], _ => True
  | (now, a) :: work, d =>
    a.Live now d ∧
      match (a.program now).alone shard d [] with
      | .done (_, d') => AllLive shard work d'
      | .blocked => True
      | .failed => AllLive shard work d

section

variable {now t : ℕ} {d e : Items F}

theorem Item.expired_of_le {item : Item F} (h : t ≤ now) (ht : item.expired t) :
    item.expired now := by
  obtain ⟨u, hu, hle⟩ := ht
  exact ⟨u, hu, hle.trans h⟩

/-- What has expired stays so. -/
theorem purge_purge (h : t ≤ now) : purge now (purge t d) = purge now d := by
  funext key
  rw [purge, purge, purge, Option.filter_filter]
  congr 1
  funext item
  rw [← Bool.decide_and, decide_eq_decide, and_iff_right_iff_imp]
  exact mt (Item.expired_of_le h)

theorem purge_congr (h : t ≤ now) (hde : purge t d = purge t e) : purge now d = purge now e := by
  rw [← purge_purge h, hde, purge_purge h]

/-- It does not matter what was there before. -/
theorem purge_update (key : String) (x : Option (Item F)) :
    purge now (Function.update (purge now d) key x) = purge now (Function.update d key x) := by
  funext k
  by_cases hk : k = key
  · subst hk
    simp [purge]
  · simp [purge, hk]

/-- The code and the reference may differ in what has expired by the time `t`. -/
theorem answers_iff_allLive {shard : String → ℕ} {work : List (ℕ × Access F)}
    (hclock : (work.map Prod.fst).Pairwise (· ≤ ·)) (ht : ∀ w ∈ work, t ≤ w.1)
    (hde : purge t d = purge t e) :
    answers (fun _ d ↦ d) shard work d = answers purge shard work e ↔ AllLive shard work d := by
  induction work generalizing t d e with
  | nil => exact iff_of_true rfl trivial
  | cons w work ih =>
    obtain ⟨now, a⟩ := w
    rw [List.map_cons, List.pairwise_cons] at hclock
    obtain ⟨hnow, hclock⟩ := hclock
    have hle : ∀ w ∈ work, now ≤ w.1 := fun w hw ↦ hnow w.1 (List.mem_map_of_mem hw)
    have hp : purge now d = purge now e := purge_congr (ht _ List.mem_cons_self) hde
    rw [answers, answers, AllLive, ← hp]
    simp only [Access.alone_eq_act]
    by_cases hl : a.Live now d
    · rw [Access.act_purge hl]
      simp only [hl, true_and]
      cases hx : a.act now (d a.key) with
      | done p =>
        simp only [Ran.map, List.cons.injEq, true_and]
        exact ih hclock hle (purge_update a.key p.2).symm
      | blocked => exact iff_of_true rfl trivial
      | failed =>
        simp only [Ran.map, List.cons.injEq, true_and]
        exact ih hclock hle (purge_purge le_rfl).symm
    · -- the answers differ already here
      refine iff_of_false ?_ fun h ↦ hl h.1
      intro h
      have h := eq_of_heq (Sigma.mk.inj (List.cons.inj h).1).2
      rw [Ran.map_map, Ran.map_map] at h
      exact Access.act_expired hl h

end

/-- **When lazy expiry cannot be seen.**  At clock readings that never go back, a sequence of
operations gives the answers of a store from which everything expired is removed before each of
them, exactly if none but `set` comes to a key whose item has expired. -/
theorem answers_purge_iff (shard : String → ℕ) (work : List (ℕ × Access F)) (d : Items F)
    (hclock : (work.map Prod.fst).Pairwise (· ≤ ·)) :
    answers (fun _ d ↦ d) shard work d = answers purge shard work d ↔ AllLive shard work d :=
  answers_iff_allLive hclock (fun w _ ↦ Nat.zero_le w.1) rfl

/-- A key that is removed in time. -/
theorem answers_purge_iff_sample :
    answers (fun _ d ↦ d) (fun _ ↦ 0) [(0, .call (.set "k" (.text "v") (some 1))),
      (5, .call (.remove "k"))] (fun _ ↦ none : Items Unit) =
    answers purge (fun _ ↦ 0) [(0, .call (.set "k" (.text "v") (some 1))),
      (5, .call (.remove "k"))] (fun _ ↦ none : Items Unit) := by
  refine (answers_purge_iff _ _ _ (by decide)).mpr ⟨Or.inl ⟨_, _, _, rfl⟩, Or.inr ?_, trivial⟩
  rintro item hitem ⟨t, ht, hle⟩
  obtain rfl := Option.some_inj.mp hitem
  obtain rfl := Option.some_inj.mp ht
  exact absurd hle (by decide)

/-- A key that lives for one second is removed after one second: the code finds it, and the
reference does not. -/
theorem not_answers_purge :
    ¬ ∀ (work : List (ℕ × Access Unit)) (d : Items Unit),
      (work.map Prod.fst).Pairwise (· ≤ ·) →
        answers (fun _ d ↦ d) (fun _ ↦ 0) work d = answers purge (fun _ ↦ 0) work d := by
  intro h
  have h := h [(0, .call (.set "k" (.text "v") (some 1))), (10 ^ 9, .call (.remove "k"))]
    (fun _ ↦ none) (by decide)
  have hcode : answers (fun _ d ↦ d) (fun _ ↦ 0) [(0, .call (.set "k" (.text "v") (some 1))),
      (10 ^ 9, .call (.remove "k"))] (fun _ ↦ none : Items Unit) =
        [⟨.call (.set "k" (.text "v") (some 1)), .done ()⟩, ⟨.call (.remove "k"), .done true⟩] :=
    rfl
  have href : answers purge (fun _ ↦ 0) [(0, .call (.set "k" (.text "v") (some 1))),
      (10 ^ 9, .call (.remove "k"))] (fun _ ↦ none : Items Unit) =
        [⟨.call (.set "k" (.text "v") (some 1)), .done ()⟩, ⟨.call (.remove "k"), .done false⟩] :=
    rfl
  rw [hcode, href] at h
  simp at h

end Efis
