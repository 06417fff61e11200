import Mathlib.Algebra.Group.Basic
import Mathlib.Data.List.DropRight
import Mathlib.Tactic.Common

/-!
# Scanning nested text

Text in which a separator counts only outside of quotes and brackets.  A scanner reads it character
by character and keeps whether it is inside of quotes, which every quotation mark toggles, and a
depth, which the brackets change.  The depth lives in some additive group, so that one kind of
bracket can be counted apart from another.

`Scanner.Passes d t` says that a scanner which is outside of quotes at depth `d` reads `t` and is
where it was, without having met a separator that counts.  Such a text can stand as a piece between
separators, and inside of brackets, and is not taken apart.
-/

set_option autoImplicit false

namespace Text

/-! ## Trimming -/

section

variable {α : Type} (p : α → Bool)

/-- Drop what satisfies `p` at both ends. -/
def trim (t : List α) : List α :=
  (t.dropWhile p).rdropWhile p

variable {p}

theorem trim_eq_self {t : List α} (hhead : ∀ c ∈ t.head?, p c = false)
    (hlast : ∀ c ∈ t.getLast?, p c = false) : trim p t = t := by
  have hdrop : t.dropWhile p = t := by
    cases t with
    | nil => rfl
    | cons c t => exact List.dropWhile_cons_of_neg (by rw [hhead c rfl]; exact Bool.false_ne_true)
  rw [trim, hdrop, List.rdropWhile_eq_self_iff]
  intro hne
  rw [hlast _ (List.getLast?_eq_some_getLast hne)]
  exact Bool.false_ne_true

theorem trim_trim (t : List α) : trim p (trim p t) = trim p t := by
  refine trim_eq_self (fun c hc ↦ ?_) fun c hc ↦ ?_
  · obtain ⟨u, hu⟩ := List.rdropWhile_prefix p (t.dropWhile p)
    have hhead : (t.dropWhile p).head? = some c := by
      rw [← hu, List.head?_append, show (t.dropWhile p).rdropWhile p = trim p t from rfl, hc]
      rfl
    have hnot := List.head?_dropWhile_not p t
    rwa [hhead] at hnot
  · have hne : trim p t ≠ [] := by
      intro hnil
      rw [hnil] at hc
      cases hc
    rw [List.getLast?_eq_some_getLast hne] at hc
    obtain rfl := Option.some_inj.mp hc
    exact (Bool.not_eq_true _).mp (List.rdropWhile_last_not p _ hne)

theorem trim_sublist (t : List α) : (trim p t).Sublist t :=
  (List.rdropWhile_prefix p _).sublist.trans (List.dropWhile_sublist p)

/-- Trimming removes nothing but what satisfies `p`. -/
theorem count_trim [BEq α] [LawfulBEq α] {c : α} (hc : p c = false) (t : List α) :
    (trim p t).count c = t.count c := by
  have hdrop : ∀ s : List α, (s.dropWhile p).count c = s.count c := by
    intro s
    have hzero : (s.takeWhile p).count c = 0 :=
      List.count_eq_zero.mpr fun hmem ↦ by simpa [hc] using List.mem_takeWhile_imp hmem
    conv_rhs => rw [← List.takeWhile_append_dropWhile (p := p) (l := s), List.count_append, hzero,
      Nat.zero_add]
  rw [trim, List.rdropWhile, List.count_reverse, hdrop, List.count_reverse, hdrop]

/-- What is kept by putting texts together holds of pieces with something between them. -/
theorem intercalate_induction {P : List α → Prop} (hnil : P [])
    (happ : ∀ s t, P s → P t → P (s ++ t)) {sep : List α} (hsep : P sep) {ts : List (List α)}
    (h : ∀ t ∈ ts, P t) : P (sep.intercalate ts) := by
  induction ts with
  | nil => exact hnil
  | cons t ts ih =>
    have ht := h t List.mem_cons_self
    cases ts with
    | nil =>
      rw [List.intercalate_singleton]
      exact ht
    | cons u us =>
      rw [List.intercalate_cons_cons]
      exact happ _ _ (happ _ _ ht hsep) (ih fun x hx ↦ h x (List.mem_cons_of_mem t hx))

end

/-! ## The scanner -/

/-- What a scanner counts and what it separates at.  A separator is no bracket. -/
structure Scanner (D : Type) [AddGroup D] where
  weight : Char → D
  sep : Char
  weight_sep : weight sep = 0
  sep_ne : sep ≠ '"'

namespace Scanner

variable {D : Type} [AddGroup D] [DecidableEq D] (S : Scanner D)

/-- Read a text from a given state.  `none` if a separator counts. -/
def scan : Bool → D → List Char → Option (Bool × D)
  | q, d, [] => some (q, d)
  | q, d, c :: cs =>
    if c = '"' then scan (!q) d cs
    else if q then scan q d cs
    else if c = S.sep ∧ d = 0 then none
    else scan q (d + S.weight c) cs

/-- The text leaves a scanner at depth `d` where it was. -/
def Passes (d : D) (t : List Char) : Prop :=
  S.scan false d t = some (false, d)

instance (d : D) (t : List Char) : Decidable (S.Passes d t) :=
  inferInstanceAs (Decidable (_ = _))

theorem scan_append (q : Bool) (d : D) (s t : List Char) :
    S.scan q d (s ++ t) = (S.scan q d s).bind fun r ↦ S.scan r.1 r.2 t := by
  induction s generalizing q d with
  | nil => rfl
  | cons c s ih =>
    simp only [List.cons_append, scan]
    split_ifs
    · exact ih ..
    · exact ih ..
    · rfl
    · exact ih ..

/-- Where the first separator is that counts. -/
theorem exists_of_scan_eq_none {q : Bool} {d : D} {t : List Char} (h : S.scan q d t = none) :
    ∃ p r, t = p ++ S.sep :: r ∧ S.scan q d p = some (false, 0) := by
  induction t generalizing q d with
  | nil => cases h
  | cons c t ih =>
    rw [scan] at h
    split_ifs at h with hq hin hsep
    · obtain ⟨p, r, rfl, hp⟩ := ih h
      exact ⟨c :: p, r, rfl, by rw [scan, if_pos hq, hp]⟩
    · obtain ⟨p, r, rfl, hp⟩ := ih h
      exact ⟨c :: p, r, rfl, by rw [scan, if_neg hq, if_pos hin, hp]⟩
    · refine ⟨[], t, by rw [hsep.1]; rfl, ?_⟩
      rw [scan, hsep.2, (Bool.not_eq_true q).mp hin]
    · obtain ⟨p, r, rfl, hp⟩ := ih h
      exact ⟨c :: p, r, rfl, by rw [scan, if_neg hq, if_neg hin, if_neg hsep, hp]⟩

variable {S} {d : D} {s t : List Char}

@[simp] theorem passes_nil : S.Passes d [] := rfl

theorem Passes.append (hs : S.Passes d s) (ht : S.Passes d t) : S.Passes d (s ++ t) := by
  rw [Passes, scan_append, hs]
  exact ht

theorem passes_singleton {c : Char} (hq : c ≠ '"') (hsep : c = S.sep → d ≠ 0)
    (hw : S.weight c = 0) : S.Passes d [c] := by
  rw [Passes, scan, if_neg hq, if_neg Bool.false_ne_true, if_neg (fun h ↦ hsep h.1 h.2), hw,
    add_zero]
  rfl

/-- Text without quotation marks, brackets and separators. -/
theorem passes_of_plain (h : ∀ c ∈ t, c ≠ '"' ∧ c ≠ S.sep ∧ S.weight c = 0) : S.Passes d t := by
  induction t with
  | nil => exact passes_nil
  | cons c t ih =>
    obtain ⟨hq, hsep, hw⟩ := h c List.mem_cons_self
    exact (passes_singleton hq (fun hc ↦ absurd hc hsep) hw).append
      (ih fun x hx ↦ h x (List.mem_cons_of_mem c hx))

/-- Text in brackets. -/
theorem Passes.wrap {o c : Char} (ho : o ≠ '"' ∧ o ≠ S.sep) (hc : c ≠ '"' ∧ c ≠ S.sep)
    (hw : S.weight o + S.weight c = 0) (ht : S.Passes (d + S.weight o) t) :
    S.Passes d (o :: (t ++ [c])) := by
  rw [Passes, scan, if_neg ho.1, if_neg Bool.false_ne_true, if_neg (fun h ↦ ho.2 h.1), scan_append,
    ht, Option.bind_some, scan, if_neg hc.1, if_neg Bool.false_ne_true, if_neg (fun h ↦ hc.2 h.1),
    add_assoc, hw, add_zero]
  rfl

/-- Pieces with something between them. -/
theorem Passes.intercalate {sep : List Char} (hsep : S.Passes d sep) {ts : List (List Char)}
    (h : ∀ t ∈ ts, S.Passes d t) : S.Passes d (sep.intercalate ts) :=
  intercalate_induction passes_nil (fun _ _ ↦ Passes.append) hsep h

variable (S) in
/-- Pieces that are told apart again when they stand between separators.  After the last piece the
scanner may be anywhere. -/
def Separates (ts : List (List Char)) : Prop :=
  (∀ t ∈ ts.dropLast, S.Passes 0 t) ∧ ∀ t ∈ ts.getLast?, (S.scan false 0 t).isSome = true

instance (ts : List (List Char)) : Decidable (S.Separates ts) :=
  inferInstanceAs (Decidable (_ ∧ _))

theorem Separates.single (h : S.Separates [t]) : ∃ r, S.scan false 0 t = some r :=
  Option.isSome_iff_exists.mp (h.2 t rfl)

theorem Separates.cons {u : List Char} {us : List (List Char)} (h : S.Separates (t :: u :: us)) :
    S.Passes 0 t ∧ S.Separates (u :: us) :=
  ⟨h.1 t List.mem_cons_self, fun x hx ↦ h.1 x (List.mem_cons_of_mem t hx), fun x hx ↦ h.2 x hx⟩

theorem separates_of_passes {ts : List (List Char)} (h : ∀ t ∈ ts, S.Passes 0 t) :
    S.Separates ts :=
  ⟨fun t ht ↦ h t (List.dropLast_subset ts ht),
    fun t ht ↦ Option.isSome_iff_exists.mpr ⟨_, h t (List.mem_of_getLast? ht)⟩⟩

end Scanner

end Text
