import Mathlib.Algebra.Order.Group.Nat
import Mathlib.Data.List.TakeDrop
import Mathlib.Tactic.Common

/-!
# Files that write later

A file whose writes return before they are done.  It takes a buffer in pieces of limited length;
when a piece could not be written, the next write returns the error, and does nothing else.  So
writing a buffer fails if a piece before the last one cannot be written, and if the last one cannot,
nobody is told until there is something more to write (`writeAll_fst_iff`, `writeAll_error_iff`).
-/

set_option autoImplicit false

namespace Bytes

/-- A file that is open for writing. -/
structure QueuedFile where
  /-- Its content up to where the next write goes. -/
  written : List UInt8
  /-- Its content from there on. -/
  behind : List UInt8
  /-- A write failed, and its error was not returned yet. -/
  error : Bool

namespace QueuedFile

def content (f : QueuedFile) : List UInt8 := f.written ++ f.behind

/-- What gets into the file, if this is the number of bytes that it takes. -/
def taken (room : Option ℕ) (data : List UInt8) : List UInt8 :=
  match room with
  | none => data
  | some k => data.take k

/-- A write, and whether it returned `Ok`. -/
def write (f : QueuedFile) (room : Option ℕ) (piece : List UInt8) : Bool × QueuedFile :=
  if f.error then (false, { f with error := false })
  else (true,
    { written := f.written ++ taken room piece
      behind := f.behind.drop (taken room piece).length
      error := (taken room piece).length < piece.length })

/-- Write a buffer piece by piece.  There is at least one byte in each. -/
def writePieces (max : ℕ) : ℕ → QueuedFile → Option ℕ → List UInt8 → Bool × QueuedFile
  | 0, f, _, _ => (true, f)
  | fuel + 1, f, room, data =>
    if data = [] then (true, f)
    else
      match f.write room (data.take max) with
      | (true, f) => writePieces max fuel f (room.map (· - max)) (data.drop max)
      | (false, f) => (false, f)

/-- Write a whole buffer, in pieces of at most `max` bytes. -/
def writeAll (max : ℕ) (f : QueuedFile) (room : Option ℕ) (data : List UInt8) :
    Bool × QueuedFile :=
  writePieces max data.length f room data

/-- The default for the length of a piece. -/
def maxBufSize : ℕ := 2 * 1024 * 1024

theorem maxBufSize_pos : 0 < maxBufSize := by decide

/-- The write that fails, if one does, is the last one. -/
def Passes (max : ℕ) (room : Option ℕ) (n : ℕ) : Prop :=
  ∀ k ∈ room, n ≤ (k / max + 1) * max

variable {max fuel n : ℕ} {f : QueuedFile} {room : Option ℕ} {data piece : List UInt8}

theorem passes_of_le (hmax : 0 < max) (h : ∀ k ∈ room, n ≤ k) : Passes max room n :=
  fun k hk ↦ (h k hk).trans (by rw [Nat.mul_comm]; exact (Nat.lt_mul_div_succ k hmax).le)

@[simp] theorem taken_none : taken none data = data := rfl

@[simp] theorem taken_some (k : ℕ) : taken (some k) data = data.take k := rfl

theorem taken_append_drop (room : Option ℕ) (data : List UInt8) :
    taken room data ++ data.drop (taken room data).length = data := by
  cases room with
  | none => rw [taken_none, List.drop_length, List.append_nil]
  | some k =>
    rcases Nat.le_total k data.length with h | h
    · rw [taken_some, List.length_take_of_le h, List.take_append_drop]
    · rw [taken_some, List.take_of_length_le h, List.drop_length, List.append_nil]

theorem taken_of_le (h : ∀ k ∈ room, data.length ≤ k) : taken room data = data := by
  cases room with
  | none => rfl
  | some k => exact List.take_of_length_le (h k rfl)

theorem length_taken_lt_iff : (taken room data).length < data.length ↔
    ∃ k ∈ room, k < data.length := by
  cases room with
  | none => simp
  | some k =>
    simp only [taken_some, List.length_take, Option.mem_some_iff, exists_eq_left']
    omega

theorem write_of_error (h : f.error = true) :
    f.write room piece = (false, { f with error := false }) :=
  if_pos h

theorem write_of_le (hf : f.error = false) (h : ∀ k ∈ room, piece.length ≤ k) :
    f.write room piece = (true, ⟨f.written ++ piece, f.behind.drop piece.length, false⟩) := by
  simp [write, hf, taken_of_le h]

theorem write_of_lt (hf : f.error = false) {k : ℕ} (h : k < piece.length) :
    f.write (some k) piece = (true, ⟨f.written ++ piece.take k, f.behind.drop k, true⟩) := by
  have hlen : (taken (some k) piece).length = k := by
    rw [taken_some, List.length_take, Nat.min_eq_left h.le]
  rw [write, hf, if_neg Bool.false_ne_true, hlen, decide_eq_true h]
  rfl

@[simp] theorem writePieces_nil : writePieces max fuel f room [] = (true, f) := by
  cases fuel <;> rfl

theorem writePieces_of_error (hf : f.error = true) (hne : data ≠ []) (hfuel : fuel ≠ 0) :
    writePieces max fuel f room data = (false, { f with error := false }) := by
  obtain ⟨fuel, rfl⟩ := Nat.exists_eq_succ_of_ne_zero hfuel
  rw [writePieces, if_neg hne, write_of_error hf]

/-- What is taken of a buffer whose first piece fits. -/
theorem taken_eq_append (h : ∀ k ∈ room, (data.take max).length ≤ k) :
    taken room data = data.take max ++ taken (room.map (· - max)) (data.drop max) := by
  cases room with
  | none => exact (List.take_append_drop max data).symm
  | some k =>
    have hk : (data.take max).length ≤ k := h k rfl
    rw [List.length_take] at hk
    simp only [taken_some, Option.map_some]
    by_cases hlt : data.length ≤ max
    · rw [List.take_of_length_le (by omega), List.take_of_length_le hlt, List.drop_of_length_le hlt,
        List.take_nil, List.append_nil]
    · rw [← List.take_add, Nat.add_sub_of_le (by omega)]

/-- The rest of the buffer passes if the whole of it does. -/
theorem passes_iff_drop (hmax : 0 < max) (h : ∀ k ∈ room, (data.take max).length ≤ k) :
    Passes max room data.length ↔ Passes max (room.map (· - max)) (data.drop max).length := by
  cases room with
  | none => simp [Passes]
  | some k =>
    have hk : (data.take max).length ≤ k := h k rfl
    rw [List.length_take] at hk
    simp only [Passes, Option.map_some, Option.mem_some_iff, forall_eq', List.length_drop]
    by_cases hlt : data.length ≤ max
    · refine iff_of_true (hlt.trans (Nat.le_mul_of_pos_left max (Nat.succ_pos _))) ?_
      omega
    · have hdiv : (k - max) / max + 1 = k / max := by
        rw [← Nat.add_div_right _ hmax, Nat.sub_add_cancel (by omega)]
      rw [hdiv, Nat.succ_mul]
      omega

/-- **What a write of a whole buffer comes to.**  As much as there is room for is in the file; the
error of a piece that does not fit is returned by the write of the next one, or stays. -/
theorem writePieces_spec (hmax : 0 < max) (hf : f.error = false) (hfuel : data.length ≤ fuel) :
    ((writePieces max fuel f room data).1 = true ↔ Passes max room data.length) ∧
    (writePieces max fuel f room data).2.written = f.written ++ taken room data ∧
    (writePieces max fuel f room data).2.behind = f.behind.drop (taken room data).length ∧
    ((writePieces max fuel f room data).2.error = true ↔
      Passes max room data.length ∧ ∃ k ∈ room, k < data.length) := by
  induction fuel generalizing f room data with
  | zero =>
    obtain rfl := List.length_eq_zero_iff.mp (Nat.le_zero.mp hfuel)
    cases room <;> simp [hf, Passes]
  | succ fuel ih =>
    by_cases hne : data = []
    · subst hne
      cases room <;> simp [hf, Passes]
    · have hpos : 0 < data.length := List.length_pos_iff.mpr hne
      rw [writePieces, if_neg hne]
      by_cases hfit : ∀ k ∈ room, (data.take max).length ≤ k
      · obtain ⟨hok, hw, hb, he⟩ := @ih ⟨f.written ++ data.take max,
            f.behind.drop (data.take max).length, false⟩ (room.map (· - max))
          (data.drop max) rfl (by rw [List.length_drop]; omega)
        rw [write_of_le hf hfit]
        refine ⟨hok.trans (passes_iff_drop hmax hfit).symm, ?_, ?_, ?_⟩
        · rw [hw, taken_eq_append hfit, List.append_assoc]
        · rw [hb, List.drop_drop, taken_eq_append hfit, List.length_append]
        · rw [he, ← passes_iff_drop hmax hfit, ← length_taken_lt_iff, ← length_taken_lt_iff,
            taken_eq_append hfit, List.length_append, List.length_drop, List.length_take]
          refine and_congr_right fun _ ↦ ?_
          omega
      · -- the first piece does not fit, and the second one is told
        push Not at hfit
        obtain ⟨k, rfl, hk⟩ := hfit
        have hk' := hk
        rw [List.length_take] at hk'
        have htake : (data.take max).take k = data.take k := by
          rw [List.take_take, Nat.min_eq_left (by omega)]
        have hpass : Passes max (some k) data.length ↔ data.length ≤ max := by
          simp only [Passes, Option.mem_some_iff, forall_eq']
          rw [Nat.div_eq_of_lt (by omega), Nat.zero_add, Nat.one_mul]
        rw [write_of_lt hf hk, htake, hpass]
        have hlen : (taken (some k) data).length = k := by
          rw [taken_some, List.length_take]
          omega
        rw [hlen]
        by_cases hone : data.length ≤ max
        · rw [List.drop_of_length_le hone]
          dsimp only
          rw [writePieces_nil]
          exact ⟨iff_of_true rfl hone, rfl, rfl, iff_of_true rfl ⟨hone, k, rfl, by omega⟩⟩
        · have hdrop : data.drop max ≠ [] := by
            rw [Ne, List.drop_eq_nil_iff]
            exact hone
          have hrun : ∀ g : QueuedFile, g.error = true →
              writePieces max fuel g ((some k).map (· - max)) (data.drop max) =
                (false, { g with error := false }) := fun g hg ↦
            writePieces_of_error hg hdrop (by omega)
          dsimp only
          rw [hrun _ rfl]
          exact ⟨iff_of_false Bool.false_ne_true hone, rfl, rfl,
            iff_of_false Bool.false_ne_true fun h ↦ hone h.1⟩

section

variable (hmax : 0 < max) (hf : f.error = false)

include hmax hf

theorem writeAll_fst_iff : (f.writeAll max room data).1 = true ↔ Passes max room data.length :=
  (writePieces_spec hmax hf le_rfl).1

theorem writeAll_written : (f.writeAll max room data).2.written = f.written ++ taken room data :=
  (writePieces_spec hmax hf le_rfl).2.1

theorem writeAll_behind :
    (f.writeAll max room data).2.behind = f.behind.drop (taken room data).length :=
  (writePieces_spec hmax hf le_rfl).2.2.1

theorem writeAll_error_iff : (f.writeAll max room data).2.error = true ↔
    Passes max room data.length ∧ ∃ k ∈ room, k < data.length :=
  (writePieces_spec hmax hf le_rfl).2.2.2

end

@[simp] theorem writeAll_nil : f.writeAll max room [] = (true, f) := rfl

/-- The error of an earlier write, and nothing of the buffer. -/
theorem writeAll_of_error (hf : f.error = true) (hne : data ≠ []) :
    f.writeAll max room data = (false, { f with error := false }) :=
  writePieces_of_error hf hne (mt List.length_eq_zero_iff.mp hne)

/-- When nothing fails. -/
theorem writeAll_of_le (hmax : 0 < max) (hf : f.error = false)
    (h : ∀ k ∈ room, data.length ≤ k) :
    f.writeAll max room data =
      (true, ⟨f.written ++ data, f.behind.drop data.length, false⟩) := by
  have hok : (f.writeAll max room data).1 = true :=
    (writeAll_fst_iff hmax hf).mpr (passes_of_le hmax h)
  have herr : (f.writeAll max room data).2.error = false := by
    rw [Bool.eq_false_iff, Ne, writeAll_error_iff hmax hf]
    rintro ⟨-, k, hk, hlt⟩
    exact absurd (h k hk) (Nat.not_le.mpr hlt)
  refine Prod.ext hok ?_
  rw [← taken_of_le h, ← writeAll_written hmax hf, ← writeAll_behind hmax hf, ← herr, taken_of_le h]

end QueuedFile

end Bytes
