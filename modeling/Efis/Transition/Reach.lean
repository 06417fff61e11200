import Mathlib.Tactic.Common

/-!
# Runs of a transition system

A partial step function on states, with labels, and the states a run of it can lead to when every
step on the way satisfies a condition.  `Reach.inv` is the rule for invariants, and `exists_reach`
the one for getting somewhere.  `run` executes a list of labels and checks the condition, so that a
run on fixed inputs can be computed.
-/

set_option autoImplicit false

namespace Transition

variable {S A : Type} {step : S → A → Option S} {ok : S → A → Prop} {s₀ s s' : S}

/-- The states that steps which all satisfy `ok` can lead to. -/
inductive Reach (step : S → A → Option S) (ok : S → A → Prop) (s₀ : S) : S → Prop
  | start : Reach step ok s₀ s₀
  | step {s s' : S} {a : A} (h : Reach step ok s₀ s) (hok : ok s a) (hs : step s a = some s') :
      Reach step ok s₀ s'

/-- **What each step keeps, holds in every state of a run.** -/
theorem Reach.inv {Inv : S → Prop} (h : Reach step ok s₀ s) (h₀ : Inv s₀)
    (hstep : ∀ s a s', Inv s → ok s a → step s a = some s' → Inv s') : Inv s := by
  induction h with
  | start => exact h₀
  | step _ hok hs ih => exact hstep _ _ _ ih hok hs

theorem Reach.trans (h : Reach step ok s₀ s) (h' : Reach step ok s s') : Reach step ok s₀ s' := by
  induction h' with
  | start => exact h
  | step _ hok hs ih => exact ih.step hok hs

/-- **A measure that can be brought down until the goal is reached.** -/
theorem exists_reach {Inv Goal : S → Prop} (measure : S → ℕ)
    (hnext : ∀ s, Inv s → ¬ Goal s → ∃ s', Reach step ok s s' ∧ Inv s' ∧ measure s' < measure s)
    (h : Inv s) : ∃ s', Reach step ok s s' ∧ Inv s' ∧ Goal s' := by
  induction hk : measure s using Nat.strongRecOn generalizing s with
  | ind k ih =>
    by_cases hg : Goal s
    · exact ⟨s, .start, h, hg⟩
    · obtain ⟨t, ht, hinv, hlt⟩ := hnext s h hg
      obtain ⟨s', hs', hinv', hg'⟩ := ih (measure t) (hk ▸ hlt) hinv rfl
      exact ⟨s', ht.trans hs', hinv', hg'⟩

/-- The state after a list of steps that all satisfy `ok`. -/
def run (step : S → A → Option S) (ok : S → A → Prop) [∀ s a, Decidable (ok s a)] (s : S)
    (as : List A) : Option S :=
  as.foldlM (fun s a ↦ if ok s a then step s a else none) s

theorem Reach.run [∀ s a, Decidable (ok s a)] (h : Reach step ok s₀ s) {as : List A}
    (hr : run step ok s as = some s') : Reach step ok s₀ s' := by
  induction as generalizing s with
  | nil =>
    obtain rfl := Option.some_inj.mp hr
    exact h
  | cons a as ih =>
    rw [Transition.run, List.foldlM_cons] at hr
    obtain ⟨t, ht, hr⟩ := Option.bind_eq_some_iff.mp hr
    split at ht
    · rename_i hok
      exact ih (h.step hok ht) hr
    · cases ht

end Transition
