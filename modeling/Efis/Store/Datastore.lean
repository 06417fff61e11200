import Efis.Store.Command
import Efis.Transition.Prog
import Mathlib.Algebra.Group.Nat.Defs
import Mathlib.Logic.Function.Basic

/-!
# The datastore

`Datastore` with the locks of its hash map.  The map is divided into shards, each with a lock of its
own.  A lookup holds the lock of the key's shard, shared or exclusive, until its guard is dropped;
`insert` and `remove` need it exclusively.

`get_sync` and `ttl` remove an expired item while they still hold the guard of their lookup.  Such a
call waits for itself: it never returns, and keeps the shard locked.  So no item is ever removed
because it has expired, and a call that does return has done to the values what it would have done
without any clock (`Call.eval_of_perform`).  When it returns is `Call.Ready`.
-/

set_option autoImplicit false

namespace Efis

variable {F : Type}

/-- What a call comes to. -/
inductive CallResult (α : Type) where
  | done (a : α)
  /-- It waits for a lock that is never released. -/
  | blocked
  | panicked

theorem CallResult.pair_inj {α β : Type} {a a' : α} {b b' : β}
    (h : CallResult.done (a, b) = .done (a', b')) : a = a' ∧ b = b' :=
  Prod.mk.inj (CallResult.done.inj h)

/-- A value and the time when it expires, in nanoseconds. -/
structure Item (F : Type) where
  value : Value F
  expiry : Option ℕ

/-- The map, and the shards that a blocked reader has locked. -/
structure Datastore (F : Type) where
  data : String → Option (Item F)
  stuck : List ℕ

/-- `SystemTime` ends here. -/
def maxTime : ℕ := 2 ^ 63 * 10 ^ 9

/-- `SystemTime::now() + Duration::from_secs(secs)`, which panics on overflow. -/
def addSecs (now : ℕ) (secs : UInt64) : Option ℕ :=
  if now + 10 ^ 9 * secs.toNat < maxTime then some (now + 10 ^ 9 * secs.toNat) else none

def Item.expired (item : Item F) (now : ℕ) : Prop :=
  ∃ t ∈ item.expiry, t ≤ now

instance (item : Item F) (now : ℕ) : Decidable (item.expired now) :=
  inferInstanceAs (Decidable (∃ t ∈ item.expiry, t ≤ now))

namespace Datastore

/-- The values, without the times. -/
def values (s : Datastore F) (key : String) : Option (Value F) :=
  (s.data key).map Item.value

def insert (s : Datastore F) (key : String) (item : Option (Item F)) : Datastore F :=
  { s with data := Function.update s.data key item }

@[simp] theorem values_insert (s : Datastore F) (key : String) (item : Option (Item F)) :
    (s.insert key item).values = Function.update s.values key (item.map Item.value) := by
  funext k
  by_cases hk : k = key
  · subst hk
    simp [values, insert]
  · simp [values, insert, hk]

section

variable (shard : String → ℕ) (now : ℕ)

/-- Go on with the exclusive lock of a shard. -/
def exclusive {α : Type} (s : Datastore F) (key : String) (x : CallResult α) : CallResult α :=
  if shard key ∈ s.stuck then .blocked else x

def set (s : Datastore F) (key : String) (value : Value F) (exp : Option UInt64) :
    CallResult (Unit × Datastore F) :=
  match exp.mapM (addSecs now) with
  | some expiry => s.exclusive shard key (.done ((), s.insert key (some ⟨value, expiry⟩)))
  | none => .panicked

/-- A blocked reader holds its lock shared, so that other readers still get it. -/
def getSync (s : Datastore F) (key : String) : CallResult (Option (Value F) × Datastore F) :=
  match s.data key with
  | some item => if item.expired now then .blocked else .done (some item.value, s)
  | none => .done (none, s)

/-- Whether there was something to remove. -/
def remove (s : Datastore F) (key : String) : CallResult (Bool × Datastore F) :=
  s.exclusive shard key (.done ((s.data key).isSome, s.insert key none))

def expire (s : Datastore F) (key : String) (secs : UInt64) : CallResult (Bool × Datastore F) :=
  s.exclusive shard key <|
    match s.data key with
    | some item =>
      match addSecs now secs with
      | some t => .done (true, s.insert key (some { item with expiry := some t }))
      | none => .panicked
    | none => .done (false, s)

/-- The time left, in nanoseconds, of an item that expires. -/
def ttl (s : Datastore F) (key : String) : CallResult (Except String (Option ℕ)) :=
  match s.data key with
  | some item =>
    match item.expiry with
    | some t => if t ≤ now then .blocked else .done (.ok (some (t - now)))
    | none => .done (.ok none)
  | none => .done (.error "key not found")

/-- The modifier changes the value, and may hand something out. -/
def modify (s : Datastore F) (key : String) (f : Value F → Value F × Option String) :
    CallResult (Option (Option String) × Datastore F) :=
  s.exclusive shard key <|
    match s.data key with
    | some item =>
      .done (some (f item.value).2, s.insert key (some { item with value := (f item.value).1 }))
    | none => .done (none, s)

end

end Datastore

/-! ## Calls -/

/-- The calls that commands make. -/
inductive Call (F : Type) where
  | set (key : String) (value : Value F) (exp : Option UInt64)
  | get (key : String)
  | remove (key : String)
  | expire (key : String) (secs : UInt64)
  | modify (key : String) (f : Value F → Value F × Option String)

namespace Call

/-- What a call responds. -/
abbrev Resp : Call F → Type
  | .set _ _ _ => Unit
  | .get _ => Option (Value F)
  | .remove _ => Bool
  | .expire _ _ => Bool
  | .modify _ _ => Option (Option String)

section

variable (shard : String → ℕ) (now : ℕ) (s : Datastore F)

def perform : (c : Call F) → CallResult (c.Resp × Datastore F)
  | .set key value exp => s.set shard now key value exp
  | .get key => s.getSync now key
  | .remove key => s.remove shard key
  | .expire key secs => s.expire shard now key secs
  | .modify key f => s.modify shard key f

/-- Nobody has blocked the shard, what is read has not expired, and no time overflows. -/
def Ready : Call F → Prop
  | .set key _ exp => shard key ∉ s.stuck ∧ ∀ secs ∈ exp, (addSecs now secs).isSome
  | .get key => ∀ item ∈ s.data key, ¬ item.expired now
  | .remove key => shard key ∉ s.stuck
  | .expire key secs =>
    shard key ∉ s.stuck ∧ ((s.data key).isSome → (addSecs now secs).isSome)
  | .modify key _ => shard key ∉ s.stuck

end

/-- The meaning of a call where nothing ever expires and nobody else reads. -/
def eval : (c : Call F) → (String → Option (Value F)) → c.Resp × (String → Option (Value F))
  | .set key value _, m => ((), Function.update m key (some value))
  | .get key, m => (m key, m)
  | .remove key, m => ((m key).isSome, Function.update m key none)
  | .expire key _, m => ((m key).isSome, m)
  | .modify key f, m =>
    match m key with
    | some v => (some (f v).2, Function.update m key (some (f v).1))
    | none => (none, m)

variable {shard : String → ℕ} {now : ℕ} {s s' : Datastore F}

theorem exclusive_done {α : Type} {key : String} {x : CallResult α} {a : α}
    (h : s.exclusive shard key x = .done a) : x = .done a := by
  rw [Datastore.exclusive] at h
  split at h
  · cases h
  · exact h

/-- What a completed call was, in each case. -/
theorem eval_set {key : String} {value : Value F} {exp : Option UInt64} {r : Unit}
    (h : s.set shard now key value exp = .done (r, s')) :
    s'.values = Function.update s.values key (some value) := by
  rw [Datastore.set] at h
  split at h
  · obtain ⟨-, rfl⟩ := CallResult.pair_inj (exclusive_done h)
    exact s.values_insert key _
  · cases h

theorem eval_expire {key : String} {secs : UInt64} {r : Bool}
    (h : s.expire shard now key secs = .done (r, s')) :
    r = (s.values key).isSome ∧ s'.values = s.values := by
  have h := exclusive_done h
  split at h
  · rename_i item hitem
    have hv : s.values key = some item.value := by rw [Datastore.values, hitem]; rfl
    split at h
    · obtain ⟨rfl, rfl⟩ := CallResult.pair_inj h
      refine ⟨by rw [hv]; rfl, ?_⟩
      rw [Datastore.values_insert, Option.map_some, ← hv, Function.update_eq_self]
    · cases h
  · rename_i hitem
    obtain ⟨rfl, rfl⟩ := CallResult.pair_inj h
    exact ⟨by rw [Datastore.values, hitem]; rfl, rfl⟩

theorem eval_modify {key : String} {f : Value F → Value F × Option String}
    {r : Option (Option String)} (h : s.modify shard key f = .done (r, s')) :
    (Call.modify key f).eval s.values = (r, s'.values) := by
  have h := exclusive_done h
  rw [eval, Datastore.values]
  split at h
  · rename_i item hitem
    obtain ⟨rfl, rfl⟩ := CallResult.pair_inj h
    rw [hitem, Datastore.values_insert]
    rfl
  · rename_i hitem
    obtain ⟨rfl, rfl⟩ := CallResult.pair_inj h
    rw [hitem]
    rfl

/-- **A call that returns has not noticed the clock.** -/
theorem eval_of_perform (c : Call F) {r : c.Resp} (h : c.perform shard now s = .done (r, s')) :
    c.eval s.values = (r, s'.values) := by
  cases c with
  | set key value exp => exact Prod.ext rfl (eval_set h).symm
  | get key =>
    simp only [perform, Datastore.getSync] at h
    rw [eval, Datastore.values]
    split at h
    · rename_i item hitem
      split at h
      · cases h
      · obtain ⟨rfl, rfl⟩ := CallResult.pair_inj h
        rw [hitem]
        rfl
    · rename_i hitem
      obtain ⟨rfl, rfl⟩ := CallResult.pair_inj h
      rw [hitem]
      rfl
  | remove key =>
    obtain ⟨rfl, rfl⟩ := CallResult.pair_inj (exclusive_done h)
    rw [eval, Datastore.values_insert, Datastore.values, Option.isSome_map]
    rfl
  | expire key secs =>
    obtain ⟨rfl, hv⟩ := eval_expire h
    exact Prod.ext rfl hv.symm
  | modify key f => exact eval_modify h

/-! ## When a call returns -/

theorem exclusive_done_iff {α : Type} {key : String} {x : CallResult α} :
    (∃ a, s.exclusive shard key x = .done a) ↔ shard key ∉ s.stuck ∧ ∃ a, x = .done a := by
  rw [Datastore.exclusive]
  split
  · rename_i hs
    simp [hs]
  · rename_i hs
    simp [hs]

theorem perform_done_iff (c : Call F) :
    (∃ r, c.perform shard now s = .done r) ↔ c.Ready shard now s := by
  cases c with
  | set key value exp =>
    simp only [perform, Datastore.set, Ready]
    cases exp with
    | none => simp [exclusive_done_iff]
    | some secs =>
      cases ht : addSecs now secs with
      | none => simp [ht]
      | some t => simp [ht, exclusive_done_iff]
  | get key =>
    simp only [perform, Datastore.getSync, Ready]
    cases s.data key with
    | none => simp
    | some item => by_cases he : item.expired now <;> simp [he]
  | remove key => simp [perform, Datastore.remove, Ready, exclusive_done_iff]
  | expire key secs =>
    simp only [perform, Datastore.expire, Ready, exclusive_done_iff]
    cases s.data key with
    | none => simp
    | some item => cases addSecs now secs <;> simp
  | modify key f =>
    simp only [perform, Datastore.modify, Ready, exclusive_done_iff]
    cases s.data key <;> simp

end Call

end Efis
