import Efis.Store.Progress
import Efis.Transition.Guards

/-!
# The guards of the datastore

The operations of `Datastore` once more, with the guards that they hold.  `Ref` and `RefMut` live to
the end of the `if let`, so that the `remove` of an expired item is called under the guard of the
lookup that has found it.  This is where `get_sync` and `ttl` wait for themselves, and there is no
other place (`not_blocked_iff`).

What the operations do when they run alone is what `Datastore` says (`Access.alone_eq`).
-/

set_option autoImplicit false

namespace Efis

open Transition

variable {F : Type}

/-- The operations: those that commands call, and `ttl`. -/
inductive Access (F : Type) where
  | call (c : Call F)
  | ttl (key : String)

namespace Access

/-- What an operation returns. -/
abbrev Resp : Access F → Type
  | .call c => c.Resp
  | .ttl _ => Except String (Option ℕ)

section

variable (shard : String → ℕ) (now : ℕ)

def perform (s : Datastore F) : (a : Access F) → CallResult (a.Resp × Datastore F)
  | .call c => c.perform shard now s
  | .ttl key =>
    match s.ttl now key with
    | .done r => .done (r, s)
    | .blocked => .blocked
    | .panicked => .panicked

/-- The body of `set`. -/
def set (key : String) (value : Value F) (exp : Option UInt64) : MapProg String (Item F) Unit :=
  match exp.mapM (addSecs now) with
  | some expiry => .insert key ⟨value, expiry⟩ (.ret ())
  | none => .fail

/-- `get_sync`, which is also `get`. -/
def getSync (key : String) : MapProg String (Item F) (Option (Value F)) :=
  .get key fun
    | some item =>
      match item.expiry with
      | some expiry =>
        if expiry ≤ now then .remove key fun _ ↦ .drop (.ret none)
        else .drop (.ret (some item.value))
      | none => .drop (.ret (some item.value))
    | none => .ret none

def remove (key : String) : MapProg String (Item F) Bool :=
  .remove key fun old ↦ .ret old.isSome

def expire (key : String) (secs : UInt64) : MapProg String (Item F) Bool :=
  .getMut key fun
    | some item =>
      match addSecs now secs with
      | some t => .put { item with expiry := some t } (.drop (.ret true))
      | none => .fail
    | none => .ret false

/-- `ttl`, with the message that it would return for an expired item. -/
def timeToLive (key : String) : MapProg String (Item F) (Except String (Option ℕ)) :=
  .get key fun
    | some item =>
      match item.expiry with
      | some expiry =>
        if expiry ≤ now then .remove key fun _ ↦ .drop (.ret (.error "key expired"))
        else .drop (.ret (.ok (some (expiry - now))))
      | none => .drop (.ret (.ok none))
    | none => .ret (.error "key not found")

def modify (key : String) (f : Value F → Value F × Option String) :
    MapProg String (Item F) (Option (Option String)) :=
  .getMut key fun
    | some item =>
      .put { item with value := (f item.value).1 } (.drop (.ret (some (f item.value).2)))
    | none => .ret none

def program : (a : Access F) → MapProg String (Item F) a.Resp
  | .call (.set key value exp) => set now key value exp
  | .call (.get key) => getSync now key
  | .call (.remove key) => remove key
  | .call (.expire key secs) => expire now key secs
  | .call (.modify key f) => modify key f
  | .ttl key => timeToLive now key

end

/-! ## Running alone -/

variable {shard : String → ℕ} {now : ℕ} {d : Items F}

/-- The outcome of a call, in other words. -/
def ran {α : Type} : CallResult (α × Datastore F) → Ran (α × Items F)
  | .done (a, s) => .done (a, s.data)
  | .blocked => .blocked
  | .panicked => .failed

theorem alone_set (key : String) (value : Value F) (exp : Option UInt64) :
    (set now key value exp).alone shard d [] =
      ran ((⟨d, []⟩ : Datastore F).set shard now key value exp) := by
  rw [set, Datastore.set]
  cases exp.mapM (addSecs now) with
  | none => rfl
  | some expiry => simp [MapProg.alone, Datastore.exclusive, ran, Datastore.insert]

theorem alone_getSync (key : String) :
    (getSync now key).alone shard d [] = ran ((⟨d, []⟩ : Datastore F).getSync now key) := by
  rw [getSync, MapProg.alone_get, Datastore.getSync]
  cases hd : d key with
  | none => simp [hd, ran]
  | some item =>
    obtain ⟨value, expiry⟩ := item
    cases expiry with
    | none => simp [hd, Item.expired, ran]
    | some t =>
      by_cases ht : t ≤ now
      · simp [hd, Item.expired, ht, MapProg.alone_remove_self, ran]
      · simp [hd, Item.expired, ht, ran]

theorem alone_remove (key : String) :
    (remove key).alone shard d [] = ran ((⟨d, []⟩ : Datastore F).remove shard key) := by
  simp [remove, MapProg.alone, Datastore.remove, Datastore.exclusive, ran, Datastore.insert]

theorem alone_expire (key : String) (secs : UInt64) :
    (expire now key secs).alone shard d [] =
      ran ((⟨d, []⟩ : Datastore F).expire shard now key secs) := by
  rw [expire, MapProg.alone_getMut, Datastore.expire]
  cases hd : d key with
  | none => simp [hd, Datastore.exclusive, ran]
  | some item =>
    cases ht : addSecs now secs with
    | none => simp [hd, Datastore.exclusive, ran]
    | some t => simp [hd, Datastore.exclusive, ran, MapProg.alone, Datastore.insert]

theorem alone_timeToLive (key : String) :
    (timeToLive now key).alone shard d [] =
      ran ((Access.ttl key).perform shard now (⟨d, []⟩ : Datastore F)) := by
  rw [timeToLive, MapProg.alone_get, perform, Datastore.ttl]
  cases hd : d key with
  | none => simp [hd, ran]
  | some item =>
    obtain ⟨value, expiry⟩ := item
    cases expiry with
    | none => simp [hd, ran]
    | some t =>
      by_cases ht : t ≤ now
      · simp [hd, ht, MapProg.alone_remove_self, ran]
      · simp [hd, ht, ran]

theorem alone_modify (key : String) (f : Value F → Value F × Option String) :
    (modify key f).alone shard d [] = ran ((⟨d, []⟩ : Datastore F).modify shard key f) := by
  rw [modify, MapProg.alone_getMut, Datastore.modify]
  cases hd : d key with
  | none => simp [hd, Datastore.exclusive, ran]
  | some item => simp [hd, Datastore.exclusive, ran, MapProg.alone, Datastore.insert]

/-- **What an operation does alone.** -/
theorem alone_eq (a : Access F) :
    (a.program now).alone shard d [] = ran (a.perform shard now ⟨d, []⟩) := by
  cases a with
  | ttl key => exact alone_timeToLive key
  | call c =>
    cases c with
    | set key value exp => exact alone_set key value exp
    | get key => exact alone_getSync key
    | remove key => exact alone_remove key
    | expire key secs => exact alone_expire key secs
    | modify key f => exact alone_modify key f

/-- The key that an operation reads the expiry of. -/
def Reads (key : String) : Access F → Prop
  | .call (.get k) => k = key
  | .ttl k => k = key
  | _ => False

theorem ran_eq_blocked {α : Type} {x : CallResult (α × Datastore F)} :
    ran x = .blocked ↔ x = .blocked := by
  cases x <;> simp [ran]

/-- With all shards free, only the operations that look at the expiry can block. -/
theorem perform_eq_blocked (a : Access F) :
    a.perform shard now ⟨d, []⟩ = .blocked ↔
      ∃ key, a.Reads key ∧ ∃ item ∈ d key, item.expired now := by
  cases a with
  | ttl key =>
    simp only [perform, Datastore.ttl, Reads, exists_eq_left']
    cases hd : d key with
    | none => simp
    | some item =>
      cases ht : item.expiry with
      | none => simp [Item.expired, ht]
      | some t =>
        by_cases h : t ≤ now
        · simp [Item.expired, ht, h]
        · simp [Item.expired, ht, h]
  | call c =>
    cases c with
    | get key =>
      simp only [perform, Call.perform, Datastore.getSync, Reads, exists_eq_left']
      cases hd : d key with
      | none => simp
      | some item =>
        by_cases h : item.expired now
        · simp [h]
        · simp [h]
    | set key value exp =>
      simp only [perform, Call.perform, Datastore.set, Datastore.exclusive, Reads]
      cases exp.mapM (addSecs now) <;> simp
    | remove key => simp [perform, Call.perform, Datastore.remove, Datastore.exclusive, Reads]
    | expire key secs =>
      simp only [perform, Call.perform, Datastore.expire, Datastore.exclusive, Reads]
      cases d key with
      | none => simp
      | some item => cases addSecs now secs <;> simp
    | modify key f =>
      simp only [perform, Call.perform, Datastore.modify, Datastore.exclusive, Reads]
      cases d key <;> simp

end Access

/-- **When an operation waits for itself.**  Whatever is in the store, an operation that runs alone
never asks for a lock against a guard of its own, unless it is a `get_sync`, `get` or `ttl` of a key
whose item has expired. -/
theorem not_blocked_iff (shard : String → ℕ) (now : ℕ) (d : Items F) (a : Access F) :
    (a.program now).alone shard d [] ≠ .blocked ↔
      ∀ key, a.Reads key → ∀ item ∈ d key, ¬ item.expired now := by
  rw [Access.alone_eq, ne_eq, Access.ran_eq_blocked, Access.perform_eq_blocked]
  push Not
  rfl

/-- A `set` for one second, and a `get` one second later. -/
theorem not_never_blocked :
    ∃ d : Items Unit,
      ((Access.call (.set "k" (.text "v") (some 1))).program 0).alone (fun _ ↦ 0) (fun _ ↦ none) []
        = .done ((), d) ∧
      ¬ ((Access.call (.get "k")).program (10 ^ 9)).alone (fun _ ↦ 0) d [] ≠ .blocked := by
  refine ⟨Function.update (fun _ ↦ none) "k" (some ⟨.text "v", some (10 ^ 9)⟩), rfl, ?_⟩
  rw [ne_eq, not_not]
  rfl

end Efis
