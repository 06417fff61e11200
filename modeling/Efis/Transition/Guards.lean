import Mathlib.Algebra.Group.Nat.Defs
import Mathlib.Data.List.Basic
import Mathlib.Logic.Function.Basic
import Mathlib.Tactic.Common

/-!
# Programs on a map with locked shards

The keys of the map are divided into shards, and each shard has a lock that any number of readers
can hold together, or one writer alone.  A lookup that finds something holds the lock of the shard
until its guard is dropped, shared or exclusively; to insert and to remove, one has to have it
exclusively for that moment.

A program that runs alone can only wait for itself: it blocks if it asks for a lock that is in
conflict with a guard it still has.
-/

set_option autoImplicit false

namespace Transition

inductive Lock where
  | shared
  | exclusive
  deriving DecidableEq

/-- What becomes of a program that runs alone. -/
inductive Ran (α : Type) where
  | done (a : α)
  /-- It waits for a guard of its own. -/
  | blocked
  /-- It fails, and drops its guards. -/
  | failed

/-- Change what a program has computed. -/
def Ran.map {α β : Type} (f : α → β) : Ran α → Ran β
  | .done a => .done (f a)
  | .blocked => .blocked
  | .failed => .failed

@[simp] theorem Ran.map_map {α β γ : Type} (f : α → β) (g : β → γ) (x : Ran α) :
    (x.map f).map g = x.map fun a ↦ g (f a) := by
  cases x <;> rfl

/-- A program with a result in `A`.  The guards are dropped in the opposite order. -/
inductive MapProg (K V A : Type) where
  | ret (a : A)
  | fail
  | get (key : K) (k : Option V → MapProg K V A)
  | getMut (key : K) (k : Option V → MapProg K V A)
  /-- Write through the latest guard. -/
  | put (v : V) (k : MapProg K V A)
  | insert (key : K) (v : V) (k : MapProg K V A)
  | remove (key : K) (k : Option V → MapProg K V A)
  /-- Drop the latest guard. -/
  | drop (k : MapProg K V A)

namespace MapProg

variable {K V A : Type} (shard : K → ℕ)

/-- A guard of the same shard excludes the lock. -/
def Conflict (held : List (K × Lock)) (key : K) (lock : Lock) : Prop :=
  ∃ g ∈ held, shard g.1 = shard key ∧ (g.2 = .exclusive ∨ lock = .exclusive)

instance (held : List (K × Lock)) (key : K) (lock : Lock) :
    Decidable (Conflict shard held key lock) :=
  inferInstanceAs (Decidable (∃ g ∈ held, _ ∧ _))

@[simp] theorem not_conflict_nil (key : K) (lock : Lock) : ¬ Conflict shard [] key lock := by
  rintro ⟨g, hg, -⟩
  exact absurd hg List.not_mem_nil

/-- Nobody gets an exclusive lock while holding a guard of the same key. -/
@[simp] theorem conflict_self (key : K) (held : List (K × Lock)) (lock : Lock) :
    Conflict shard ((key, lock) :: held) key .exclusive :=
  ⟨(key, lock), List.mem_cons_self, rfl, Or.inr rfl⟩

variable [DecidableEq K]

/-- Run a program that has the given guards. -/
def alone : MapProg K V A → (K → Option V) → List (K × Lock) → Ran (A × (K → Option V))
  | .ret a, m, _ => .done (a, m)
  | .fail, _, _ => .failed
  | .get key k, m, held =>
    if Conflict shard held key .shared then .blocked
    else alone (k (m key)) m (if (m key).isSome then (key, .shared) :: held else held)
  | .getMut key k, m, held =>
    if Conflict shard held key .exclusive then .blocked
    else alone (k (m key)) m (if (m key).isSome then (key, .exclusive) :: held else held)
  | .put v k, m, held =>
    match held with
    | (key, .exclusive) :: _ => alone k (Function.update m key (some v)) held
    | _ => .failed
  | .insert key v k, m, held =>
    if Conflict shard held key .exclusive then .blocked
    else alone k (Function.update m key (some v)) held
  | .remove key k, m, held =>
    if Conflict shard held key .exclusive then .blocked
    else alone (k (m key)) (Function.update m key none) held
  | .drop k, m, held => alone k m held.tail

variable {shard} {m : K → Option V} {key : K}

@[simp] theorem alone_ret (a : A) (held : List (K × Lock)) :
    (ret a : MapProg K V A).alone shard m held = .done (a, m) := rfl

@[simp] theorem alone_fail (held : List (K × Lock)) :
    (fail : MapProg K V A).alone shard m held = .failed := rfl

@[simp] theorem alone_drop (k : MapProg K V A) (held : List (K × Lock)) :
    (drop k).alone shard m held = k.alone shard m held.tail := rfl

theorem alone_get (k : Option V → MapProg K V A) :
    (get key k).alone shard m [] =
      (k (m key)).alone shard m (if (m key).isSome then [(key, .shared)] else []) := by
  rw [alone, if_neg (not_conflict_nil shard key _)]

theorem alone_getMut (k : Option V → MapProg K V A) :
    (getMut key k).alone shard m [] =
      (k (m key)).alone shard m (if (m key).isSome then [(key, .exclusive)] else []) := by
  rw [alone, if_neg (not_conflict_nil shard key _)]

/-- To remove a key while looking at it is to wait for oneself. -/
theorem alone_remove_self (k : Option V → MapProg K V A) (held : List (K × Lock)) (lock : Lock) :
    (remove key k).alone shard m ((key, lock) :: held) = .blocked := by
  rw [alone, if_pos (conflict_self shard key held lock)]

end MapProg

end Transition
