import Mathlib.Data.Fintype.Card

/-!
# Majorities

Two strict majorities of a finite set have an element in common.  Every agreement argument of a
quorum protocol comes down to this one fact.
-/

set_option autoImplicit false

namespace Raft

variable {N : Type} [Fintype N]

/-- A strict majority of all nodes. -/
def Majority (Q : Finset N) : Prop := Fintype.card N < 2 * Q.card

instance (Q : Finset N) : Decidable (Majority Q) :=
  inferInstanceAs (Decidable (Fintype.card N < 2 * Q.card))

/-- **Two majorities meet.** -/
theorem Majority.inter {Q R : Finset N} (hQ : Majority Q) (hR : Majority R) :
    ∃ v, v ∈ Q ∧ v ∈ R := by
  classical
  have hunion : (Q ∪ R).card ≤ Fintype.card N := Finset.card_le_univ _
  have hinter := Finset.card_union_add_card_inter Q R
  have hpos : 0 < (Q ∩ R).card := by
    unfold Majority at hQ hR
    omega
  obtain ⟨v, hv⟩ := Finset.card_pos.mp hpos
  exact ⟨v, Finset.mem_inter.mp hv⟩

theorem Majority.nonempty {Q : Finset N} (hQ : Majority Q) : Q.Nonempty := by
  obtain ⟨v, hv, -⟩ := hQ.inter hQ
  exact ⟨v, hv⟩

end Raft
