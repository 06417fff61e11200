import Mathlib.Data.List.Nodup
import Mathlib.Data.List.Perm.Basic
import Mathlib.Tactic.Common

/-!
# Rows of one length in a flat list

A table whose rows all have the same length `d` can be kept in one list, where row `i` begins at
`d * i`.  `writeFrom` and `copyFrom` are the loops that write a row there and that copy a row to
another place, both of which fail outside of the list.  What they do to the flat list they do to the
rows (`Uniform.writeFrom_flatten`, `Uniform.copyFrom_flatten`).

`swapRemove` removes an element from a list by putting the last one in its place, and `chunks` takes
the rows apart again.
-/

set_option autoImplicit false

namespace Table

variable {α : Type}

/-! ## Rows -/

/-- All rows have length `d`. -/
def Uniform (d : ℕ) (rows : List (List α)) : Prop := ∀ r ∈ rows, r.length = d

/-- Row `i` of a flat list. -/
def row (d : ℕ) (xs : List α) (i : ℕ) : List α := (xs.drop (d * i)).take d

/-- All rows of a flat list.  The last one may be shorter. -/
def chunks (d : ℕ) (xs : List α) : List (List α) :=
  (List.range ((xs.length + d - 1) / d)).map (row d xs)

section

variable {d : ℕ} {rows : List (List α)}

theorem Uniform.tail {r : List α} (h : Uniform d (r :: rows)) : Uniform d rows :=
  fun s hs ↦ h s (List.mem_cons_of_mem r hs)

theorem Uniform.concat (h : Uniform d rows) {v : List α} (hv : v.length = d) :
    Uniform d (rows ++ [v]) := by
  intro r hr
  rcases List.mem_append.mp hr with hr | hr
  · exact h r hr
  · rw [List.mem_singleton.mp hr, hv]

theorem Uniform.set (h : Uniform d rows) {v : List α} (hv : v.length = d) (i : ℕ) :
    Uniform d (rows.set i v) := by
  intro r hr
  rcases List.mem_or_eq_of_mem_set hr with hr | rfl
  · exact h r hr
  · exact hv

theorem Uniform.length_flatten (h : Uniform d rows) : rows.flatten.length = d * rows.length := by
  induction rows with
  | nil => rfl
  | cons r rows ih =>
    rw [List.flatten_cons, List.length_append, h r List.mem_cons_self, ih h.tail, List.length_cons,
      Nat.mul_succ, Nat.add_comm]

theorem Uniform.drop_flatten (h : Uniform d rows) (i : ℕ) :
    rows.flatten.drop (d * i) = (rows.drop i).flatten := by
  induction i generalizing rows with
  | zero => rfl
  | succ i ih =>
    cases rows with
    | nil => simp
    | cons r rows =>
      rw [List.flatten_cons, Nat.mul_succ, Nat.add_comm, ← h r List.mem_cons_self,
        List.drop_length_add_append, h r List.mem_cons_self, ih h.tail, List.drop_succ_cons]

theorem Uniform.take_flatten (h : Uniform d rows) (i : ℕ) :
    rows.flatten.take (d * i) = (rows.take i).flatten := by
  induction i generalizing rows with
  | zero => rfl
  | succ i ih =>
    cases rows with
    | nil => simp
    | cons r rows =>
      rw [List.flatten_cons, Nat.mul_succ, Nat.add_comm, ← h r List.mem_cons_self,
        List.take_length_add_append, h r List.mem_cons_self, ih h.tail, List.take_succ_cons,
        List.flatten_cons]

theorem Uniform.row_flatten (h : Uniform d rows) {i : ℕ} {r : List α} (hi : rows[i]? = some r) :
    row d rows.flatten i = r := by
  obtain ⟨hlt, rfl⟩ := List.getElem?_eq_some_iff.mp hi
  have hlen : rows[i].length = d := h _ (List.getElem_mem hlt)
  rw [row, h.drop_flatten, List.drop_eq_getElem_cons hlt, List.flatten_cons]
  exact List.take_left' hlen

/-- **The rows come apart again.** -/
theorem Uniform.chunks_flatten (h : Uniform d rows) (hd : 0 < d) :
    chunks d rows.flatten = rows := by
  have hcount : (rows.flatten.length + d - 1) / d = rows.length := by
    rw [h.length_flatten, Nat.add_sub_assoc hd, Nat.mul_add_div hd,
      Nat.div_eq_of_lt (Nat.sub_lt hd Nat.one_pos), Nat.add_zero]
  refine List.ext_getElem? fun i ↦ ?_
  rw [chunks, hcount, List.getElem?_map]
  rcases Nat.lt_or_ge i rows.length with hi | hi
  · rw [List.getElem?_range hi, Option.map_some, List.getElem?_eq_getElem hi,
      h.row_flatten (List.getElem?_eq_getElem hi)]
  · rw [List.getElem?_eq_none hi, List.getElem?_eq_none (by rwa [List.length_range])]
    rfl

end

/-! ## Writing a row -/

/-- Write from position `j` on. -/
def writeFrom (xs : List α) (j : ℕ) : List α → Option (List α)
  | [] => some xs
  | a :: v => if j < xs.length then writeFrom (xs.set j a) (j + 1) v else none

/-- Copy `n` elements, the first one from `src` to `dst`. -/
def copyFrom (xs : List α) (dst src : ℕ) : ℕ → Option (List α)
  | 0 => some xs
  | n + 1 =>
    match xs[src]? with
    | some a => if dst < xs.length then copyFrom (xs.set dst a) (dst + 1) (src + 1) n else none
    | none => none

theorem writeFrom_eq {xs : List α} {j : ℕ} {v : List α} (h : j + v.length ≤ xs.length) :
    writeFrom xs j v = some (xs.take j ++ v ++ xs.drop (j + v.length)) := by
  induction v generalizing xs j with
  | nil => simp [writeFrom]
  | cons a v ih =>
    rw [List.length_cons] at h
    have hj : j < xs.length := by omega
    rw [writeFrom, if_pos hj, ih (by rw [List.length_set]; omega), List.length_cons]
    have htake : (xs.set j a).take (j + 1) = xs.take j ++ [a] := by
      have hset : j < (xs.set j a).length := by rwa [List.length_set]
      rw [List.take_succ_eq_append_getElem hset, List.getElem_set_self,
        List.take_set_of_le (Nat.le_refl j)]
    rw [htake, List.drop_set_of_lt (by omega), List.append_assoc, List.append_assoc,
      List.append_assoc, List.singleton_append, List.cons_append, Nat.add_right_comm]
    rfl

theorem writeFrom_eq_none {xs : List α} {j : ℕ} {v : List α} (hv : v ≠ [])
    (h : xs.length < j + v.length) : writeFrom xs j v = none := by
  induction v generalizing xs j with
  | nil => exact absurd rfl hv
  | cons a v ih =>
    rw [writeFrom]
    split
    · rename_i hj
      rw [List.length_cons] at h
      refine ih ?_ (by rw [List.length_set]; omega)
      rintro rfl
      rw [List.length_nil] at h
      omega
    · rfl

/-- What is copied forward is written as it was. -/
theorem copyFrom_eq_writeFrom {xs : List α} {dst src n : ℕ} (hle : dst ≤ src)
    (hn : src + n ≤ xs.length) :
    copyFrom xs dst src n = writeFrom xs dst ((xs.drop src).take n) := by
  induction n generalizing xs dst src with
  | zero => rfl
  | succ n ih =>
    have hsrc : src < xs.length := by omega
    rw [copyFrom, List.getElem?_eq_getElem hsrc, List.drop_eq_getElem_cons hsrc,
      List.take_succ_cons, writeFrom]
    simp only
    split
    · rw [ih (by omega) (by rw [List.length_set]; omega), List.drop_set_of_lt (by omega)]
    · rfl

section

variable {d : ℕ} {rows : List (List α)} {i : ℕ}

theorem Uniform.splice_flatten (h : Uniform d rows) (hi : i < rows.length) (v : List α) :
    rows.flatten.take (d * i) ++ v ++ rows.flatten.drop (d * i + d) = (rows.set i v).flatten := by
  rw [← Nat.mul_succ, h.take_flatten, h.drop_flatten, List.set_eq_take_append_cons_drop, if_pos hi,
    List.flatten_append, List.flatten_cons, List.append_assoc]

theorem Uniform.writeFrom_flatten (h : Uniform d rows) {v : List α} (hv : v.length = d)
    (hi : i < rows.length) :
    writeFrom rows.flatten (d * i) v = some (rows.set i v).flatten := by
  have hle : d * i + v.length ≤ rows.flatten.length := by
    rw [h.length_flatten, hv, ← Nat.mul_succ]
    exact Nat.mul_le_mul_left d hi
  rw [writeFrom_eq hle, hv, h.splice_flatten hi]

/-- Behind the last row, only an empty row can be written. -/
theorem Uniform.writeFrom_flatten_of_le (h : Uniform d rows) {v : List α} (hv : v.length = d)
    (hi : rows.length ≤ i) :
    writeFrom rows.flatten (d * i) v = if d = 0 then some rows.flatten else none := by
  split
  · rename_i hd
    obtain rfl := List.eq_nil_of_length_eq_zero (hv.trans hd)
    rfl
  · rename_i hd
    refine writeFrom_eq_none (fun hnil ↦ hd ?_) ?_
    · rw [← hv, hnil, List.length_nil]
    · have hmul := Nat.mul_le_mul_left d hi
      rw [h.length_flatten]
      omega

/-- The last row is copied over another one. -/
theorem Uniform.copyFrom_flatten (h : Uniform d rows) {r : List α} (hr : rows.getLast? = some r)
    (hi : i < rows.length) :
    copyFrom rows.flatten (d * i) (rows.flatten.length - d) d = some (rows.set i r).flatten := by
  have hsub : rows.flatten.length - d = d * (rows.length - 1) := by
    rw [h.length_flatten, Nat.mul_sub_one]
  rw [List.getLast?_eq_getElem?] at hr
  have hrow := h.row_flatten hr
  rw [row] at hrow
  have hle : d * (rows.length - 1) + d ≤ rows.flatten.length := by
    rw [h.length_flatten, ← Nat.mul_succ]
    exact Nat.mul_le_mul_left d (by omega)
  rw [hsub, copyFrom_eq_writeFrom (Nat.mul_le_mul_left d (by omega)) hle, hrow]
  exact h.writeFrom_flatten (h r (List.mem_of_getElem? hr)) hi

theorem Uniform.dropLast (h : Uniform d rows) : Uniform d rows.dropLast :=
  fun r hr ↦ h r (List.dropLast_subset rows hr)

theorem Uniform.take_flatten_dropLast (h : Uniform d rows) :
    rows.flatten.take (rows.flatten.length - d) = rows.dropLast.flatten := by
  rw [h.length_flatten, ← Nat.mul_sub_one, h.take_flatten, List.dropLast_eq_take]

end

/-! ## The last element -/

theorem getElem?_concat_eq_some {l : List α} {a b : α} {i : ℕ} :
    (l ++ [a])[i]? = some b ↔ l[i]? = some b ∨ i = l.length ∧ a = b := by
  rcases Nat.lt_trichotomy i l.length with hlt | rfl | hgt
  · rw [List.getElem?_append_left hlt, or_iff_left fun h ↦ Nat.ne_of_lt hlt h.1]
  · simp
  · rw [List.getElem?_append_right (Nat.le_of_lt hgt), List.getElem?_eq_none (Nat.le_of_lt hgt)]
    have hpos : i - l.length ≠ 0 := by omega
    simp [hpos, Nat.ne_of_gt hgt]

theorem getElem?_dropLast_eq_some {l : List α} {b : α} {i : ℕ} :
    l.dropLast[i]? = some b ↔ l[i]? = some b ∧ i + 1 ≠ l.length := by
  rw [List.getElem?_dropLast]
  split
  · rename_i h
    exact (and_iff_left (by omega)).symm
  · rename_i h
    refine iff_of_false nofun fun hi ↦ ?_
    have hlt := (List.getElem?_eq_some_iff.mp hi.1).1
    omega

/-! ## Removing by swapping -/

/-- `swap_remove`: the last element takes the place of the one at `i`. -/
def swapRemove (l : List α) (i : ℕ) : List α :=
  match l.getLast? with
  | some a => (l.set i a).dropLast
  | none => []

section

variable {l : List α} {i : ℕ}

theorem length_swapRemove (l : List α) (i : ℕ) : (swapRemove l i).length = l.length - 1 := by
  rw [swapRemove]
  cases h : l.getLast? with
  | none =>
    rw [List.getLast?_eq_none_iff.mp h]
    rfl
  | some a => rw [List.length_dropLast, List.length_set]

theorem swapRemove_last (h : i + 1 = l.length) : swapRemove l i = l.dropLast := by
  have hne : l ≠ [] := by
    rintro rfl
    cases h
  rw [swapRemove, List.getLast?_eq_some_getLast hne]
  simp only
  refine congrArg List.dropLast ?_
  have hlt : i < l.length := by omega
  have hlast : l.getLast hne = l[i] := by
    rw [List.getLast_eq_getElem]
    congr 1
    omega
  rw [hlast, List.set_getElem_self]

/-- Up to the order, the element is removed. -/
theorem swapRemove_perm (hi : i < l.length) : (swapRemove l i).Perm (l.eraseIdx i) := by
  rcases List.eq_nil_or_concat l with rfl | ⟨l, z, rfl⟩
  · exact absurd hi (Nat.not_lt_zero i)
  · rw [List.concat_eq_append] at hi ⊢
    rw [List.length_append, List.length_singleton] at hi
    rw [swapRemove, List.getLast?_concat]
    simp only
    rcases Nat.lt_or_ge i l.length with hlt | hge
    · rw [List.set_append_left _ _ hlt, List.dropLast_concat, List.eraseIdx_append_of_lt_length hlt]
      exact (List.set_perm_cons_eraseIdx hlt z).trans (List.perm_append_singleton z _).symm
    · obtain rfl : i = l.length := by omega
      rw [List.set_append_right _ _ (Nat.le_refl _), List.eraseIdx_append_of_length_le hge,
        Nat.sub_self]
      simp

end

end Table
