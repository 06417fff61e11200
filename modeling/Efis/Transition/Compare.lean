import Efis.Transition.Prog
import Mathlib.Data.List.Sort

/-!
# Programs that compare

A slice is sorted, or partitioned around one of its ranks, by a program that can do nothing with the
elements but compare them.  Such a program knows the elements by their positions: it asks how two of
them compare, and returns the positions in the order in which it has put them.  A comparison may
have no answer, and then the program fails.

`Sorts` and `Selects` say what is expected of two such programs.  As long as all comparisons have
answers, and these come from an order, they do it to every list (`Sorts.apply_eq`,
`Selects.apply_eq`).  If there is an element that cannot be compared, selecting fails for sure
(`Selects.run_eq_none`): a program that never asks about the element cannot know on which side of
the rank it belongs.
-/

set_option autoImplicit false

namespace Transition

open Std

/-! ## Comparing -/

/-- A program that puts `n` elements into an order. -/
abbrev Arrange (n : ℕ) := Prog (Fin n × Fin n) (fun _ ↦ Ordering) (List (Fin n))

namespace Arrange

variable {n : ℕ}

/-- What a program returns.  It fails at the first question that has no answer. -/
def run (cmp : Fin n → Fin n → Option Ordering) : Arrange n → Option (List (Fin n))
  | .ret l => some l
  | .fail => none
  | .call q k => (cmp q.1 q.2).bind fun o ↦ run cmp (k o)

/-- A program that has got answers does the same where there are more. -/
theorem run_mono {cmp cmp' : Fin n → Fin n → Option Ordering}
    (h : ∀ a b o, cmp a b = some o → cmp' a b = some o) (p : Arrange n) {l : List (Fin n)}
    (hp : p.run cmp = some l) : p.run cmp' = some l := by
  induction p with
  | ret _ => exact hp
  | fail => cases hp
  | call q k ih =>
    obtain ⟨o, ho, hk⟩ := Option.bind_eq_some_iff.mp hp
    exact Option.bind_eq_some_iff.mpr ⟨o, h _ _ o ho, ih o hk⟩

variable {α : Type}

/-- Arrange the elements of a list. -/
def apply (p : (n : ℕ) → Arrange n) (cmp : α → α → Option Ordering) (l : List α) :
    Option (List α) :=
  ((p l.length).run fun a b ↦ cmp (l.get a) (l.get b)).map (List.map l.get)

end Arrange

/-- Elements compare like what they are mapped to. -/
theorem transCmp_comap {α β : Type} (order : β → β → Ordering) [TransCmp order] (f : α → β) :
    TransCmp fun a b ↦ order (f a) (f b) where
  eq_swap := OrientedCmp.eq_swap
  isLE_trans := TransCmp.isLE_trans

/-! ## Sorting and selecting -/

/-- The element at a rank, with those before it that are no greater and those behind it that are no
less. -/
def Around {α : Type} (order : α → α → Ordering) (i : ℕ) (l : List α) : Prop :=
  ∃ z, l[i]? = some z ∧ (∀ a ∈ l.take i, (order a z).isLE = true) ∧
    ∀ b ∈ l.drop (i + 1), (order z b).isLE = true

/-- The programs sort, and do not compare where there is nothing to sort. -/
structure Sorts (p : (n : ℕ) → Arrange n) : Prop where
  sorted : ∀ (n : ℕ) (cmp : Fin n → Fin n → Ordering) [TransCmp cmp],
    ∃ l, (p n).run (fun a b ↦ some (cmp a b)) = some l ∧ l.Perm (List.finRange n) ∧
      l.Pairwise fun a b ↦ (cmp a b).isLE = true
  few : ∀ (n : ℕ) (cmp : Fin n → Fin n → Option Ordering), n < 2 →
    (p n).run cmp = some (List.finRange n)

/-- The programs put an element of the given rank at its place.  A rank that there is not makes them
fail, and a single element is not compared. -/
structure Selects (p : (n i : ℕ) → Arrange n) : Prop where
  selected : ∀ (n i : ℕ), i < n → ∀ (cmp : Fin n → Fin n → Ordering) [TransCmp cmp],
    ∃ l, (p n i).run (fun a b ↦ some (cmp a b)) = some l ∧ l.Perm (List.finRange n) ∧
      Around cmp i l
  out_of_range : ∀ (n i : ℕ) (cmp : Fin n → Fin n → Option Ordering), n ≤ i →
    (p n i).run cmp = none
  few : ∀ cmp : Fin 1 → Fin 1 → Option Ordering, (p 1 0).run cmp = some (List.finRange 1)

section

variable {α : Type} {cmp : α → α → Option Ordering} {order : α → α → Ordering} {l : List α}

theorem Around.map {β : Type} {i : ℕ} {l : List β} {f : β → α}
    (h : Around (fun a b ↦ order (f a) (f b)) i l) : Around order i (l.map f) := by
  obtain ⟨z, hz, hbefore, hbehind⟩ := h
  refine ⟨f z, by rw [List.getElem?_map, hz]; rfl, fun a ha ↦ ?_, fun b hb ↦ ?_⟩
  · rw [← List.map_take] at ha
    obtain ⟨a', ha', rfl⟩ := List.mem_map.mp ha
    exact hbefore a' ha'
  · rw [← List.map_drop] at hb
    obtain ⟨b', hb', rfl⟩ := List.mem_map.mp hb
    exact hbehind b' hb'

theorem perm_map_get {ps : List (Fin l.length)} (h : ps.Perm (List.finRange l.length)) :
    (ps.map l.get).Perm l := by
  have hmap := h.map l.get
  rwa [List.map_get_finRange] at hmap

/-- All comparisons between the elements have answers, from an order. -/
def Answers (cmp : α → α → Option Ordering) (order : α → α → Ordering) (l : List α) : Prop :=
  ∀ a ∈ l, ∀ b ∈ l, cmp a b = some (order a b)

theorem Answers.get (h : Answers cmp order l) :
    (fun a b ↦ cmp (l.get a) (l.get b)) = fun a b ↦ some (order (l.get a) (l.get b)) := by
  funext a b
  exact h _ (l.get_mem a) _ (l.get_mem b)

/-- **Sorting** a list. -/
theorem Sorts.apply_eq {p : (n : ℕ) → Arrange n} (hp : Sorts p) [TransCmp order]
    (h : Answers cmp order l) :
    ∃ l', Arrange.apply p cmp l = some l' ∧ l'.Perm l ∧
      l'.Pairwise fun a b ↦ (order a b).isLE = true := by
  have := transCmp_comap order l.get
  obtain ⟨ps, hrun, hperm, hsorted⟩ := hp.sorted l.length fun a b ↦ order (l.get a) (l.get b)
  refine ⟨ps.map l.get, ?_, perm_map_get hperm, List.pairwise_map.mpr hsorted⟩
  rw [Arrange.apply, h.get, hrun]
  rfl

theorem Sorts.apply_of_length_lt {p : (n : ℕ) → Arrange n} (hp : Sorts p) (h : l.length < 2) :
    Arrange.apply p cmp l = some l := by
  rw [Arrange.apply, hp.few _ _ h, Option.map_some, List.map_get_finRange]

/-- **Selecting** in a list. -/
theorem Selects.apply_eq {p : (n i : ℕ) → Arrange n} (hp : Selects p) [TransCmp order] {i : ℕ}
    (hi : i < l.length) (h : Answers cmp order l) :
    ∃ l', Arrange.apply (p · i) cmp l = some l' ∧ l'.Perm l ∧ Around order i l' := by
  have := transCmp_comap order l.get
  obtain ⟨ps, hrun, hperm, haround⟩ :=
    hp.selected l.length i hi fun a b ↦ order (l.get a) (l.get b)
  refine ⟨ps.map l.get, ?_, perm_map_get hperm, haround.map⟩
  rw [Arrange.apply, h.get, hrun]
  rfl

/-- **The first `k`**: select the last of them, cut off what is behind it, and sort the rest. -/
theorem exists_firstK {p : (n i : ℕ) → Arrange n} (hp : Selects p) {q : (n : ℕ) → Arrange n}
    (hq : Sorts q) [TransCmp order] {k : ℕ} (hpos : 0 < k) (hk : k ≤ l.length)
    (h : Answers cmp order l) :
    ∃ sel res rest, Arrange.apply (p · (k - 1)) cmp l = some sel ∧
      Arrange.apply q cmp (sel.take k) = some res ∧ res.length = k ∧ (res ++ rest).Perm l ∧
      (res.Pairwise fun a b ↦ (order a b).isLE = true) ∧
      ∀ a ∈ res, ∀ b ∈ rest, (order a b).isLE = true := by
  obtain ⟨sel, hsel, hperm, z, hz, hbefore, hbehind⟩ :=
    hp.apply_eq (i := k - 1) (Nat.lt_of_lt_of_le (Nat.sub_lt hpos Nat.one_pos) hk) h
  have hanswers : Answers cmp order (sel.take k) := fun a ha b hb ↦
    h a (hperm.mem_iff.mp (List.mem_of_mem_take ha)) b (hperm.mem_iff.mp (List.mem_of_mem_take hb))
  obtain ⟨res, hres, hperm', hsorted⟩ := hq.apply_eq hanswers
  refine ⟨sel, res, sel.drop k, hsel, hres, ?_, ?_, hsorted, fun a ha b hb ↦ ?_⟩
  · rw [hperm'.length_eq, List.length_take, hperm.length_eq, Nat.min_eq_left hk]
  · refine (hperm'.append_right _).trans ?_
    rw [List.take_append_drop]
    exact hperm
  · -- the one that was selected is in between
    have ha' := hperm'.mem_iff.mp ha
    rw [← Nat.sub_add_cancel hpos] at ha' hb
    rw [List.take_add_one, hz] at ha'
    refine TransCmp.isLE_trans ?_ (hbehind b hb)
    rcases List.mem_append.mp ha' with ha' | ha'
    · exact hbefore a ha'
    · obtain rfl := List.mem_singleton.mp ha'
      have hself : order a a = .eq := ReflCmp.compare_self
      rw [hself]
      rfl

theorem Selects.apply_singleton {p : (n i : ℕ) → Arrange n} (hp : Selects p) (a : α) :
    Arrange.apply (p · 0) cmp [a] = some [a] := by
  have hfew := hp.few fun i j ↦ cmp ([a].get i) ([a].get j)
  rw [Arrange.apply]
  exact congrArg (Option.map (List.map [a].get)) hfew

end

/-! ## An element that cannot be compared -/

section

variable {n i : ℕ} {order : Fin n → Fin n → Ordering} [TransCmp order]

/-- The element comes first, and the others are as they were. -/
def first (x : Fin n) (order : Fin n → Fin n → Ordering) : Fin n → Fin n → Ordering :=
  compareLex (compareOn fun a ↦ decide (a ≠ x)) order

/-- The element comes last. -/
def last (x : Fin n) (order : Fin n → Fin n → Ordering) : Fin n → Fin n → Ordering :=
  compareLex (compareOn fun a ↦ decide (a = x)) order

instance (x : Fin n) : TransCmp (first x order) :=
  inferInstanceAs (TransCmp (compareLex _ _))

instance (x : Fin n) : TransCmp (last x order) :=
  inferInstanceAs (TransCmp (compareLex _ _))

omit [TransCmp order] in
theorem first_of_ne {x a b : Fin n} (ha : a ≠ x) (hb : b ≠ x) :
    first x order a b = order a b := by
  simp [first, compareLex, compareOn, ha, hb]

omit [TransCmp order] in
theorem last_of_ne {x a b : Fin n} (ha : a ≠ x) (hb : b ≠ x) : last x order a b = order a b := by
  simp [last, compareLex, compareOn, ha, hb]

omit [TransCmp order] in
theorem isLE_first {x a : Fin n} (ha : a ≠ x) : (first x order a x).isLE = false := by
  simp [first, compareLex, compareOn, ha, compare]

omit [TransCmp order] in
theorem isLE_last {x a : Fin n} (ha : a ≠ x) : (last x order x a).isLE = false := by
  simp [last, compareLex, compareOn, ha, compare]

omit [TransCmp order] in
/-- If the program comes to an end without the element, it does the same whether the element is the
least or the greatest. -/
theorem run_first_last {p : Arrange n} {cmp : Fin n → Fin n → Option Ordering} {x : Fin n}
    (hx : ∀ a, cmp x a = none ∧ cmp a x = none)
    (horder : ∀ a b o, cmp a b = some o → o = order a b) {l : List (Fin n)}
    (hl : p.run cmp = some l) :
    p.run (fun a b ↦ some (first x order a b)) = some l ∧
      p.run (fun a b ↦ some (last x order a b)) = some l := by
  have hne : ∀ {a b o}, cmp a b = some o → a ≠ x ∧ b ≠ x := by
    intro a b o ho
    constructor
    · rintro rfl
      rw [(hx b).1] at ho
      cases ho
    · rintro rfl
      rw [(hx a).2] at ho
      cases ho
  constructor
  · refine Arrange.run_mono (fun a b o ho ↦ ?_) _ hl
    rw [horder a b o ho, first_of_ne (hne ho).1 (hne ho).2]
  · refine Arrange.run_mono (fun a b o ho ↦ ?_) _ hl
    rw [horder a b o ho, last_of_ne (hne ho).1 (hne ho).2]

theorem mem_take_or_drop {α : Type} {l : List α} {z a : α} (hz : l[i]? = some z) (ha : a ∈ l) :
    a ∈ l.take i ∨ a = z ∨ a ∈ l.drop (i + 1) := by
  obtain ⟨hlt, hget⟩ := List.getElem?_eq_some_iff.mp hz
  rw [← List.take_append_drop i l, List.drop_eq_getElem_cons hlt, hget] at ha
  exact (List.mem_append.mp ha).imp_right List.mem_cons.mp

/-- **To select is to ask about every element**, as soon as there are two of them. -/
theorem Selects.run_eq_none {p : (n i : ℕ) → Arrange n} (hp : Selects p) (hn : 2 ≤ n)
    (hi : i < n) {cmp : Fin n → Fin n → Option Ordering} {x : Fin n}
    (hx : ∀ a, cmp x a = none ∧ cmp a x = none)
    (horder : ∀ a b o, cmp a b = some o → o = order a b) : (p n i).run cmp = none := by
  refine Option.eq_none_iff_forall_ne_some.mpr fun l hl ↦ ?_
  obtain ⟨hfirst, hlast⟩ := run_first_last hx horder hl
  obtain ⟨l₁, hl₁, hperm, z, hz, hz₁, hz₂⟩ := hp.selected n i hi (first x order)
  obtain ⟨l₂, hl₂, -, z', hz', hz₃, hz₄⟩ := hp.selected n i hi (last x order)
  obtain rfl := Option.some_inj.mp (hfirst.symm.trans hl₁)
  obtain rfl := Option.some_inj.mp (hlast.symm.trans hl₂)
  obtain rfl := Option.some_inj.mp (hz.symm.trans hz')
  have hsplit : ∀ a : Fin n, a ∈ l.take i ∨ a = z ∨ a ∈ l.drop (i + 1) := fun a ↦
    mem_take_or_drop hz (hperm.mem_iff.mpr (List.mem_finRange a))
  by_cases hxz : x = z
  · subst hxz
    -- there is another element, which is neither before nor behind
    obtain ⟨a, ha⟩ : ∃ a : Fin n, a ≠ x := by
      by_contra hall
      push Not at hall
      have h01 := (hall ⟨0, by omega⟩).trans (hall ⟨1, by omega⟩).symm
      exact absurd (Fin.mk.inj h01) (by decide)
    rcases hsplit a with hmem | rfl | hmem
    · exact absurd (hz₁ a hmem) (by rw [isLE_first ha]; exact Bool.false_ne_true)
    · exact ha rfl
    · exact absurd (hz₄ a hmem) (by rw [isLE_last ha]; exact Bool.false_ne_true)
  · rcases hsplit x with hmem | rfl | hmem
    · exact absurd (hz₃ x hmem) (by rw [isLE_last (Ne.symm hxz)]; exact Bool.false_ne_true)
    · exact hxz rfl
    · exact absurd (hz₂ x hmem) (by rw [isLE_first (Ne.symm hxz)]; exact Bool.false_ne_true)

end

/-- Selecting in a list in which an element cannot be compared. -/
theorem Selects.apply_eq_none {α : Type} {p : (n i : ℕ) → Arrange n} (hp : Selects p)
    {cmp : α → α → Option Ordering} {order : α → α → Ordering} [TransCmp order] {l : List α}
    {i : ℕ} (hlen : 2 ≤ l.length) (hi : i < l.length) {x : α} (hmem : x ∈ l)
    (hx : ∀ a, cmp x a = none ∧ cmp a x = none)
    (horder : ∀ a b o, cmp a b = some o → o = order a b) :
    Arrange.apply (p · i) cmp l = none := by
  have := transCmp_comap order l.get
  obtain ⟨j, rfl⟩ := List.get_of_mem hmem
  have hrun : (p l.length i).run (fun a b ↦ cmp (l.get a) (l.get b)) = none :=
    hp.run_eq_none hlen hi (fun a ↦ hx (l.get a)) fun a b ↦ horder (l.get a) (l.get b)
  rw [Arrange.apply, hrun]
  rfl

/-! ## Insertion sort

There are such programs. -/

section

variable {n : ℕ}

/-- Put an element into a sorted list, and go on. -/
def insertBy (a : Fin n) : List (Fin n) → (List (Fin n) → Arrange n) → Arrange n
  | [], k => k [a]
  | b :: l, k => .call (a, b) fun o ↦
    if o.isLE then k (a :: b :: l) else insertBy a l fun l' ↦ k (b :: l')

/-- Sort a list, and go on. -/
def sortBy : List (Fin n) → (List (Fin n) → Arrange n) → Arrange n
  | [], k => k []
  | a :: l, k => sortBy l fun l' ↦ insertBy a l' k

def insertionSort (n : ℕ) : Arrange n := sortBy (List.finRange n) .ret

/-- To select, sort everything. -/
def selectBySort (n i : ℕ) : Arrange n := if i < n then insertionSort n else .fail

variable (cmp : Fin n → Fin n → Ordering)

theorem run_insertBy (a : Fin n) (l : List (Fin n)) (k : List (Fin n) → Arrange n) :
    (insertBy a l k).run (fun a b ↦ some (cmp a b)) =
      (k (l.orderedInsert (fun a b ↦ (cmp a b).isLE = true) a)).run
        fun a b ↦ some (cmp a b) := by
  induction l generalizing k with
  | nil => rfl
  | cons b l ih =>
    rw [insertBy, Arrange.run, Option.bind_some, List.orderedInsert_cons]
    split
    · rfl
    · exact ih _

theorem run_sortBy (l : List (Fin n)) (k : List (Fin n) → Arrange n) :
    (sortBy l k).run (fun a b ↦ some (cmp a b)) =
      (k (l.insertionSort fun a b ↦ (cmp a b).isLE = true)).run fun a b ↦ some (cmp a b) := by
  induction l generalizing k with
  | nil => rfl
  | cons a l ih => rw [sortBy, ih, run_insertBy, List.insertionSort_cons]

theorem sorts_insertionSort : Sorts insertionSort where
  sorted n cmp hcmp := by
    have htotal : Std.Total fun a b ↦ (cmp a b).isLE = true := by
      refine ⟨fun a b ↦ ?_⟩
      have hswap : cmp b a = (cmp a b).swap := OrientedCmp.eq_swap
      rw [hswap]
      cases cmp a b <;> simp
    have htrans : IsTrans (Fin n) fun a b ↦ (cmp a b).isLE = true :=
      ⟨fun _ _ _ ↦ TransCmp.isLE_trans⟩
    exact ⟨_, run_sortBy cmp _ _, List.perm_insertionSort _ _, List.pairwise_insertionSort _ _⟩
  few n cmp hn := by
    obtain rfl | rfl : n = 0 ∨ n = 1 := by omega
    · rfl
    · rfl

theorem selects_selectBySort : Selects selectBySort where
  selected n i hi cmp hcmp := by
    obtain ⟨l, hrun, hperm, hsorted⟩ := sorts_insertionSort.sorted n cmp
    have hlt : i < l.length := by rwa [hperm.length_eq, List.length_finRange]
    refine ⟨l, by rw [selectBySort, if_pos hi, hrun], hperm, l[i], List.getElem?_eq_getElem hlt,
      fun a ha ↦ ?_, fun b hb ↦ ?_⟩
    · rw [← List.take_append_drop i l, List.pairwise_append, List.drop_eq_getElem_cons hlt]
        at hsorted
      exact hsorted.2.2 a ha _ List.mem_cons_self
    · rw [← List.take_append_drop i l, List.pairwise_append, List.drop_eq_getElem_cons hlt]
        at hsorted
      exact (List.pairwise_cons.mp hsorted.2.1).1 b hb
  out_of_range n i cmp hi := by
    rw [selectBySort, if_neg (Nat.not_lt.mpr hi)]
    rfl
  few cmp := rfl

end

end Transition
