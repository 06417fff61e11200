import Mathlib.Data.List.Basic
import Mathlib.Tactic.Common

/-!
# Lines on a wire

Texts that are sent as bytes, each with a newline after it, and taken apart at the newlines by the
reader.  A newline is one byte, and that byte is part of no other character (`newline_mem_encode`),
so the reader finds the lines of the texts, however the bytes arrive (`exists_of_wire`).  They are
the texts themselves if these have no newlines in them, and otherwise more (`lines`).
-/

set_option autoImplicit false

namespace Bytes

/-! ## Characters -/

def newline : UInt8 := 10

/-- UTF-8. -/
def encode (t : List Char) : List UInt8 :=
  t.flatMap String.utf8EncodeChar

/-- `none` if the bytes are no text. -/
def decode (bs : List UInt8) : Option (List Char) :=
  bs.toByteArray.utf8Decode?.map Array.toList

theorem decode_encode (t : List Char) : decode (encode t) = some t := by
  have h : (encode t).toByteArray = t.utf8Encode := rfl
  rw [decode, h, List.utf8Decode?_utf8Encode, Option.map_some, List.toList_toArray]

theorem encode_cons (c : Char) (t : List Char) :
    encode (c :: t) = String.utf8EncodeChar c ++ encode t :=
  List.flatMap_cons

theorem newline_mem_encodeChar (c : Char) : newline ∈ String.utf8EncodeChar c ↔ c = '\n' := by
  have hval : c = '\n' ↔ c.val.toNat = 10 := by
    rw [Char.ext_iff, ← UInt32.toNat_inj]
    rfl
  have hbyte : ∀ n : ℕ, newline = UInt8.ofNat n ↔ 10 = n % 256 := by
    intro n
    rw [← UInt8.toNat_inj, UInt8.toNat_ofNat']
    rfl
  -- the other bytes are all above that of an ASCII character
  rw [hval]
  unfold String.utf8EncodeChar
  simp only
  split_ifs with h1 h2 h3
  · rw [List.mem_singleton, hbyte]
    omega
  · simp only [List.mem_cons, List.not_mem_nil, or_false, hbyte]
    omega
  · simp only [List.mem_cons, List.not_mem_nil, or_false, hbyte]
    omega
  · simp only [List.mem_cons, List.not_mem_nil, or_false, hbyte]
    omega

theorem newline_mem_encode (t : List Char) : newline ∈ encode t ↔ '\n' ∈ t := by
  simp only [encode, List.mem_flatMap, newline_mem_encodeChar, exists_eq_right]

/-! ## Lines -/

/-- Texts on their way, each with a newline after it. -/
def wire (ts : List (List Char)) : List UInt8 :=
  ts.flatMap fun t ↦ encode t ++ [newline]

@[simp] theorem wire_nil : wire [] = [] := rfl

theorem wire_cons (t : List Char) (ts : List (List Char)) :
    wire (t :: ts) = encode t ++ newline :: wire ts := by
  rw [wire, List.flatMap_cons, List.append_assoc]
  rfl

@[simp] theorem wire_append (ss ts : List (List Char)) : wire (ss ++ ts) = wire ss ++ wire ts :=
  List.flatMap_append

/-- The bytes before the first newline, and those after it. -/
def cutLine (bs : List UInt8) : Option (List UInt8 × List UInt8) :=
  if newline ∈ bs then
    some (bs.takeWhile (· ≠ newline), (bs.dropWhile (· ≠ newline)).tail)
  else none

theorem cutLine_append {l : List UInt8} (hl : newline ∉ l) (r : List UInt8) :
    cutLine (l ++ newline :: r) = some (l, r) := by
  have hne : ∀ b ∈ l, decide (b ≠ newline) = true :=
    fun b hb ↦ decide_eq_true fun he ↦ hl (he ▸ hb)
  rw [cutLine, if_pos (List.mem_append_right l List.mem_cons_self),
    List.takeWhile_append_of_pos hne, List.dropWhile_append_of_pos hne,
    List.takeWhile_cons_of_neg (by simp), List.dropWhile_cons_of_neg (by simp), List.append_nil,
    List.tail_cons]

theorem cutLine_eq_some {bs l r : List UInt8} (h : cutLine bs = some (l, r)) :
    bs = l ++ newline :: r ∧ newline ∉ l := by
  rw [cutLine] at h
  split at h
  · rename_i hmem
    obtain ⟨p, q, rfl, hp⟩ := List.eq_append_cons_of_mem hmem
    have hcut := cutLine_append hp q
    rw [cutLine, if_pos hmem, h] at hcut
    obtain ⟨rfl, rfl⟩ := Prod.mk.inj (Option.some_inj.mp hcut)
    exact ⟨rfl, hp⟩
  · cases h

theorem cutLine_eq_none {bs : List UInt8} : cutLine bs = none ↔ newline ∉ bs := by
  rw [cutLine]
  split
  · rename_i hmem
    exact iff_of_false nofun (not_not.mpr hmem)
  · rename_i hmem
    exact iff_of_true rfl hmem

theorem length_lt_of_cutLine {bs l r : List UInt8} (h : cutLine bs = some (l, r)) :
    r.length < bs.length := by
  rw [(cutLine_eq_some h).1, List.length_append, List.length_cons]
  omega

/-- More bytes do not change the first line. -/
theorem cutLine_append_right {bs l r : List UInt8} (h : cutLine bs = some (l, r))
    (more : List UInt8) : cutLine (bs ++ more) = some (l, r ++ more) := by
  obtain ⟨rfl, hl⟩ := cutLine_eq_some h
  rw [List.append_assoc, List.cons_append]
  exact cutLine_append hl _

/-- The lines that have a newline after them. -/
def fullLines (bs : List UInt8) : List (List UInt8) :=
  (bs.splitOn newline).dropLast

theorem fullLines_of_not_mem {bs : List UInt8} (h : newline ∉ bs) : fullLines bs = [] := by
  rw [fullLines, List.splitOn_eq_singleton h, List.dropLast_singleton]

theorem fullLines_of_cutLine {bs l r : List UInt8} (h : cutLine bs = some (l, r)) :
    fullLines bs = l :: fullLines r := by
  obtain ⟨rfl, hl⟩ := cutLine_eq_some h
  rw [fullLines, List.splitOn_append_cons_self_of_not_mem hl,
    List.dropLast_cons_of_ne_nil (List.splitOn_ne_nil newline r)]
  rfl

/-- **What a reader finds** at the front of the wire is the first text that was written. -/
theorem exists_of_wire {ts : List (List Char)} (hts : ∀ t ∈ ts, '\n' ∉ t) {l r : List UInt8}
    (hl : newline ∉ l) (h : l ++ newline :: r = wire ts) :
    ∃ t us, ts = t :: us ∧ l = encode t ∧ r = wire us := by
  cases ts with
  | nil =>
    rw [wire_nil] at h
    exact absurd h (by simp)
  | cons t us =>
    have ht : newline ∉ encode t :=
      fun hmem ↦ hts t List.mem_cons_self ((newline_mem_encode t).mp hmem)
    have hcut := cutLine_append hl r
    rw [h, wire_cons, cutLine_append ht] at hcut
    obtain ⟨rfl, rfl⟩ := Prod.mk.inj (Option.some_inj.mp hcut)
    exact ⟨t, us, rfl, rfl, rfl⟩

/-- The lines of a text. -/
def lines : List Char → List (List Char)
  | [] => [[]]
  | c :: t => if c = '\n' then [] :: lines t else (lines t).modifyHead (c :: ·)

theorem lines_of_not_mem {t : List Char} (h : '\n' ∉ t) : lines t = [t] := by
  induction t with
  | nil => rfl
  | cons c t ih =>
    rw [List.mem_cons, not_or] at h
    rw [lines, if_neg (Ne.symm h.1), ih h.2]
    rfl

theorem lines_ne_nil (t : List Char) : lines t ≠ [] := by
  cases t with
  | nil => exact List.cons_ne_nil _ _
  | cons c t =>
    rw [lines]
    split
    · exact List.cons_ne_nil _ _
    · rw [Ne, List.modifyHead_eq_nil_iff]
      exact lines_ne_nil t

theorem newline_not_mem_lines {t l : List Char} (h : l ∈ lines t) : '\n' ∉ l := by
  induction t generalizing l with
  | nil =>
    rw [List.mem_singleton.mp h]
    exact List.not_mem_nil
  | cons c t ih =>
    rw [lines] at h
    split at h
    · rcases List.mem_cons.mp h with rfl | h
      · exact List.not_mem_nil
      · exact ih h
    · rename_i hc
      cases hl : lines t with
      | nil => exact absurd hl (lines_ne_nil t)
      | cons u us =>
        rw [hl] at h ih
        rcases List.mem_cons.mp h with rfl | h
        · rw [List.mem_cons, not_or]
          exact ⟨Ne.symm hc, ih List.mem_cons_self⟩
        · exact ih (List.mem_cons_of_mem u h)

/-- A text with newlines in it cannot be told from its lines. -/
theorem wire_lines (t : List Char) : wire (lines t) = wire [t] := by
  induction t with
  | nil => rfl
  | cons c t ih =>
    rw [lines]
    split
    · rename_i hc
      rw [hc, wire_cons, ih]
      rfl
    · cases hl : lines t with
      | nil => exact absurd hl (lines_ne_nil t)
      | cons u us =>
        rw [hl, wire_cons, wire_cons] at ih
        rw [List.modifyHead_cons, wire_cons, wire_cons, encode_cons, encode_cons, List.append_assoc,
          List.append_assoc, ih]

end Bytes
