import Mathlib.Tactic.Common

/-!
# Programs that call an interface

A program makes one call after the other, and each response decides how it continues.  Given a
deterministic meaning of the calls on some state, `eval` is what the program computes and `cost` the
number of calls it makes.  A program may also fail on its own account.
-/

set_option autoImplicit false

namespace Transition

/-- A program with calls `C`, whose responses are of the types `R`, and a result in `A`. -/
inductive Prog (C : Type) (R : C → Type) (A : Type) where
  | ret (a : A)
  | fail
  | call (c : C) (k : R c → Prog C R A)

namespace Prog

variable {C : Type} {R : C → Type} {A S : Type} (meaning : (c : C) → S → R c × S)

def eval : Prog C R A → S → Option (A × S)
  | .ret a, s => some (a, s)
  | .fail, _ => none
  | .call c k, s => (k (meaning c s).1).eval (meaning c s).2

def cost : Prog C R A → S → ℕ
  | .ret _, _ => 0
  | .fail, _ => 0
  | .call c k, s => (k (meaning c s).1).cost (meaning c s).2 + 1

/-- The states that a program goes through, beginning with the one it starts in. -/
def states : Prog C R A → S → List S
  | .ret _, s => [s]
  | .fail, s => [s]
  | .call c k, s => s :: (k (meaning c s).1).states (meaning c s).2

/-- The program never fails, and all calls that it may make satisfy a condition. -/
def Calls (P : C → Prop) : Prog C R A → Prop
  | .ret _ => True
  | .fail => False
  | .call c k => P c ∧ ∀ r, (k r).Calls P

/-- Run programs one after the other, and collect the results. -/
def evalAll : List (Prog C R A) → S → Option (List A × S)
  | [], s => some ([], s)
  | p :: ps, s => do
    let (a, s) ← p.eval meaning s
    let (as, s) ← evalAll ps s
    some (a :: as, s)

theorem evalAll_append (ps qs : List (Prog C R A)) (s : S) :
    evalAll meaning (ps ++ qs) s = (evalAll meaning ps s).bind fun p ↦
      (evalAll meaning qs p.2).map fun q ↦ (p.1 ++ q.1, q.2) := by
  induction ps generalizing s with
  | nil =>
    rw [List.nil_append, evalAll, Option.bind_some]
    cases evalAll meaning qs s <;> rfl
  | cons p ps ih =>
    rw [List.cons_append, evalAll, evalAll]
    simp only [Option.bind_eq_bind, Option.bind_assoc]
    refine Option.bind_congr fun r _ ↦ ?_
    rw [ih, Option.bind_assoc]
    refine Option.bind_congr fun t _ ↦ ?_
    rw [Option.bind_some]
    cases evalAll meaning qs t.2 <;> rfl

/-- The calls of all of them, with one more step to begin and one to end each. -/
def costAll : List (Prog C R A) → S → ℕ
  | [], _ => 0
  | p :: ps, s => p.cost meaning s + 2 + ((p.eval meaning s).elim 0 fun r ↦ costAll ps r.2)

end Prog

end Transition
