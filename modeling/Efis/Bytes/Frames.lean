import Mathlib.Algebra.Group.Basic
import Mathlib.Algebra.Group.Nat.Defs
import Mathlib.Data.List.Basic
import Mathlib.Tactic.Common

/-!
# Frames

A file of records, each preceded by its length in four bytes.  `Codec.readFrames` reads such a file
until the bytes no longer make up a frame; on a file that was written record by record it gives the
records back (`Codec.readFrames_frames`), provided each fits: it can be encoded, the encoding can
be decoded, and its length can be told in four bytes.  Of a file that broke off somewhere it gives
the first records back, as many as are whole (`Codec.exists_whole`).
-/

set_option autoImplicit false

namespace Bytes

/-! ## Little-endian numbers -/

/-- The lowest `width` bytes of a number, the lowest first. -/
def toLe : ℕ → ℕ → List UInt8
  | 0, _ => []
  | width + 1, n => UInt8.ofNat n :: toLe width (n / 256)

def ofLe : List UInt8 → ℕ
  | [] => 0
  | b :: bs => b.toNat + 256 * ofLe bs

@[simp] theorem length_toLe (width n : ℕ) : (toLe width n).length = width := by
  induction width generalizing n with
  | zero => rfl
  | succ width ih => rw [toLe, List.length_cons, ih]

theorem ofLe_toLe (width n : ℕ) : ofLe (toLe width n) = n % 256 ^ width := by
  induction width generalizing n with
  | zero => rw [toLe, ofLe, Nat.pow_zero, Nat.mod_one]
  | succ width ih =>
    have hb : (UInt8.ofNat n).toNat = n % 256 := UInt8.toNat_ofNat'
    rw [toLe, ofLe, ih, hb, pow_succ', Nat.mod_mul]

theorem ofLe_toLe_of_lt {width n : ℕ} (h : n < 256 ^ width) : ofLe (toLe width n) = n := by
  rw [ofLe_toLe, Nat.mod_eq_of_lt h]

/-! ## Records -/

/-- How records become bytes. -/
structure Codec (α : Type) where
  encode : α → Option (List UInt8)
  decode : List UInt8 → Option α

namespace Codec

variable {α : Type} (c : Codec α)

/-- The record survives being written and read. -/
def Fits (x : α) : Prop :=
  ∃ bs, c.encode x = some bs ∧ c.decode bs = some x ∧ bs.length < 2 ^ 32

instance [DecidableEq α] (x : α) : Decidable (c.Fits x) :=
  decidable_of_iff (∃ bs ∈ c.encode x, c.decode bs = some x ∧ bs.length < 2 ^ 32) Iff.rfl

/-- A record and its length, as it stands in the file. -/
def frame (x : α) : Option (List UInt8) :=
  (c.encode x).map fun bs ↦ toLe 4 bs.length ++ bs

/-- The frames of records that can all be encoded. -/
def frames (xs : List α) : List UInt8 :=
  xs.flatMap fun x ↦ (c.frame x).getD []

/-- Read frames until the bytes run out.  `none` if a record cannot be decoded. -/
def readFrames : ℕ → List UInt8 → Option (List α)
  | 0, _ => some []
  | fuel + 1, bytes =>
    if bytes.length < 4 then some []
    else
      let len := ofLe (bytes.take 4)
      let rest := bytes.drop 4
      if rest.length < len then some []
      else do
        let x ← c.decode (rest.take len)
        let xs ← readFrames fuel (rest.drop len)
        some (x :: xs)

/-- Read a whole file.  Each frame has at least four bytes, so this is fuel enough. -/
def readFile (bytes : List UInt8) : Option (List α) :=
  c.readFrames bytes.length bytes

@[simp] theorem frames_nil : c.frames [] = [] := rfl

theorem frames_append (xs ys : List α) : c.frames (xs ++ ys) = c.frames xs ++ c.frames ys :=
  List.flatMap_append

variable {c} {x : α} {xs : List α}

theorem frames_mono {ys : List α} (h : xs <+: ys) : c.frames xs <+: c.frames ys := by
  obtain ⟨zs, rfl⟩ := h
  rw [frames_append]
  exact List.prefix_append _ _

theorem Fits.isSome_encode (h : c.Fits x) : (c.encode x).isSome := by
  obtain ⟨bs, he, -⟩ := h
  rw [he, Option.isSome_some]

/-- A record that can be encoded has a frame. -/
theorem exists_frame (h : (c.encode x).isSome) : ∃ f, c.frame x = some f ∧ f ≠ [] := by
  obtain ⟨bs, he⟩ := Option.isSome_iff_exists.mp h
  refine ⟨toLe 4 bs.length ++ bs, by rw [frame, he]; rfl, fun hn ↦ ?_⟩
  have := congrArg List.length hn
  rw [List.length_append, length_toLe, List.length_nil] at this
  omega

theorem Fits.frame_eq (h : c.Fits x) :
    ∃ bs, c.decode bs = some x ∧ bs.length < 2 ^ 32 ∧
      c.frame x = some (toLe 4 bs.length ++ bs) := by
  obtain ⟨bs, he, hd, hlen⟩ := h
  exact ⟨bs, hd, hlen, by rw [frame, he]; rfl⟩

theorem frames_cons_of_frame {f : List UInt8} (h : c.frame x = some f) (xs : List α) :
    c.frames (x :: xs) = f ++ c.frames xs := by
  rw [frames, List.flatMap_cons, h, Option.getD_some]
  rfl

theorem Fits.frames_cons (h : c.Fits x) (xs : List α) :
    ∃ bs, c.decode bs = some x ∧ bs.length < 2 ^ 32 ∧
      c.frames (x :: xs) = toLe 4 bs.length ++ (bs ++ c.frames xs) := by
  obtain ⟨bs, hd, hlen, hf⟩ := h.frame_eq
  exact ⟨bs, hd, hlen, by rw [frames_cons_of_frame hf, List.append_assoc]⟩

theorem frames_eq_nil_iff (h : ∀ x ∈ xs, (c.encode x).isSome) : c.frames xs = [] ↔ xs = [] := by
  cases xs with
  | nil => simp
  | cons x xs =>
    obtain ⟨f, hf, hne⟩ := exists_frame (h x List.mem_cons_self)
    refine iff_of_false (fun hn ↦ ?_) (List.cons_ne_nil x xs)
    rw [frames_cons_of_frame hf] at hn
    exact hne (List.append_eq_nil_iff.mp hn).1

/-- A frame, and then whatever follows it. -/
theorem readFrames_frame (fuel : ℕ) {bs : List UInt8} (hd : c.decode bs = some x)
    (hlen : bs.length < 2 ^ 32) (rest : List UInt8) :
    c.readFrames (fuel + 1) (toLe 4 bs.length ++ (bs ++ rest)) =
      (c.readFrames fuel rest).map (x :: ·) := by
  have h4 : (toLe 4 bs.length).length = 4 := length_toLe 4 _
  have htake : (toLe 4 bs.length ++ (bs ++ rest)).take 4 = toLe 4 bs.length :=
    List.take_left' h4
  have hdrop : (toLe 4 bs.length ++ (bs ++ rest)).drop 4 = bs ++ rest :=
    List.drop_left' h4
  have hof : ofLe (toLe 4 bs.length) = bs.length := ofLe_toLe_of_lt hlen
  rw [readFrames, if_neg (by rw [List.length_append, h4]; omega)]
  simp only [htake, hdrop, hof, List.take_left', List.drop_left', hd]
  rw [if_neg (by rw [List.length_append]; omega)]
  simp only [Option.bind_eq_bind, Option.bind_some]
  cases c.readFrames fuel rest <;> rfl

/-- Whole frames, and then whatever follows them. -/
theorem readFrames_append (h : ∀ x ∈ xs, c.Fits x) (fuel : ℕ) (rest : List UInt8) :
    c.readFrames (fuel + xs.length) (c.frames xs ++ rest) =
      (c.readFrames fuel rest).map (xs ++ ·) := by
  induction xs with
  | nil => cases hr : c.readFrames fuel rest <;> simpa using hr
  | cons x xs ih =>
    obtain ⟨bs, hd, hlen, hfr⟩ := (h x List.mem_cons_self).frames_cons xs
    rw [hfr, List.append_assoc, List.append_assoc, List.length_cons, ← Nat.add_assoc,
      readFrames_frame _ hd hlen, ih fun y hy ↦ h y (List.mem_cons_of_mem x hy), Option.map_map]
    rfl

/-- **Reading gives back what was written**, with fuel for every record. -/
theorem readFrames_frames (h : ∀ x ∈ xs, c.Fits x) {fuel : ℕ} (hf : xs.length ≤ fuel) :
    c.readFrames fuel (c.frames xs) = some xs := by
  have hr := readFrames_append h (fuel - xs.length) []
  rw [Nat.sub_add_cancel hf, List.append_nil] at hr
  rw [hr]
  cases fuel - xs.length <;> simp [readFrames]

theorem length_le_length_frames (h : ∀ x ∈ xs, c.Fits x) :
    xs.length ≤ (c.frames xs).length := by
  induction xs with
  | nil => exact Nat.zero_le _
  | cons x xs ih =>
    obtain ⟨bs, -, -, hfr⟩ := (h x List.mem_cons_self).frames_cons xs
    have := ih fun y hy ↦ h y (List.mem_cons_of_mem x hy)
    rw [hfr, List.length_append, List.length_append, length_toLe, List.length_cons]
    omega

theorem readFile_frames (h : ∀ x ∈ xs, c.Fits x) : c.readFile (c.frames xs) = some xs :=
  readFrames_frames h (length_le_length_frames h)

/-! ## Files that were not written to the end -/

/-- A file that begins with the frames of some records is read to begin with these records. -/
theorem prefix_of_readFile (h : ∀ x ∈ xs, c.Fits x) {file : List UInt8} {ys : List α}
    (hp : c.frames xs <+: file) (hr : c.readFile file = some ys) : xs <+: ys := by
  obtain ⟨rest, rfl⟩ := hp
  have hlen := length_le_length_frames h
  have ha := readFrames_append h ((c.frames xs ++ rest).length - xs.length) rest
  rw [Nat.sub_add_cancel (by rw [List.length_append]; omega)] at ha
  rw [readFile, ha, Option.map_eq_some_iff] at hr
  obtain ⟨zs, -, rfl⟩ := hr
  exact List.prefix_append xs zs

/-- The start of a frame is no frame. -/
theorem readFrames_of_lt {bs bytes rest : List UInt8} (hlen : bs.length < 2 ^ 32)
    (hp : bytes <+: toLe 4 bs.length ++ (bs ++ rest)) (hlt : bytes.length < 4 + bs.length)
    (fuel : ℕ) : c.readFrames fuel bytes = some [] := by
  cases fuel with
  | zero => rfl
  | succ fuel =>
    rw [readFrames]
    by_cases h4 : bytes.length < 4
    · rw [if_pos h4]
    · have hhead : bytes.take 4 = toLe 4 bs.length := by
        obtain ⟨t, ht⟩ := hp
        rw [← List.take_append_of_le_length (Nat.not_lt.mp h4), ht,
          List.take_left' (length_toLe 4 bs.length)]
      have hof : ofLe (bytes.take 4) = bs.length := by
        rw [hhead]
        exact ofLe_toLe_of_lt hlen
      rw [if_neg h4]
      simp only [hof]
      rw [if_pos (by rw [List.length_drop]; omega)]

/-- Of a file that was not written to the end the frames that are whole are read. -/
theorem readFrames_of_prefix (h : ∀ x ∈ xs, c.Fits x) {bytes : List UInt8}
    (hp : bytes <+: c.frames xs) {fuel : ℕ} (hf : bytes.length ≤ fuel) :
    ∃ k, c.readFrames fuel bytes = some (xs.take k) ∧ c.frames (xs.take k) <+: bytes := by
  induction xs generalizing bytes fuel with
  | nil =>
    obtain rfl := List.prefix_nil.mp hp
    exact ⟨0, by cases fuel <;> rfl, List.nil_prefix⟩
  | cons x xs ih =>
    obtain ⟨bs, hd, hlen, hfr⟩ := (h x List.mem_cons_self).frame_eq
    rw [frames_cons_of_frame hfr] at hp
    rcases Nat.lt_or_ge bytes.length (4 + bs.length) with hlt | hge
    · rw [List.append_assoc] at hp
      exact ⟨0, readFrames_of_lt hlen hp hlt fuel, List.nil_prefix⟩
    · have hwhole : toLe 4 bs.length ++ bs <+: bytes := by
        refine List.prefix_of_prefix_length_le (List.prefix_append _ _) hp ?_
        rw [List.length_append, length_toLe]
        exact hge
      obtain ⟨rest, rfl⟩ := hwhole
      obtain ⟨fuel, rfl⟩ : ∃ f, fuel = f + 1 := by
        refine Nat.exists_eq_succ_of_ne_zero ?_
        rw [List.length_append, List.length_append, length_toLe] at hf
        omega
      have hrest : rest.length ≤ fuel := by
        rw [List.length_append, List.length_append, length_toLe] at hf
        omega
      obtain ⟨k, hr, hk⟩ := ih (fun y hy ↦ h y (List.mem_cons_of_mem x hy))
        ((List.prefix_append_right_inj _).mp hp) hrest
      refine ⟨k + 1, ?_, ?_⟩
      · rw [List.append_assoc, readFrames_frame fuel hd hlen, hr]
        rfl
      · rw [List.take_succ_cons, frames_cons_of_frame hfr]
        exact (List.prefix_append_right_inj _).mpr hk

theorem readFile_of_prefix (h : ∀ x ∈ xs, c.Fits x) {bytes : List UInt8}
    (hp : bytes <+: c.frames xs) :
    ∃ k, c.readFile bytes = some (xs.take k) ∧ c.frames (xs.take k) <+: bytes :=
  readFrames_of_prefix h hp (Nat.le_refl _)

/-- Of the records, exactly the first `k` are whole in the file. -/
def Whole (c : Codec α) (xs : List α) (bytes : List UInt8) (k : ℕ) : Prop :=
  k ≤ xs.length ∧ ∀ j ≤ xs.length, c.frames (xs.take j) <+: bytes ↔ j ≤ k

/-- **A file that broke off is read up to its last whole record.** -/
theorem exists_whole (h : ∀ x ∈ xs, c.Fits x) {bytes : List UInt8} (hp : bytes <+: c.frames xs) :
    ∃ k, c.Whole xs bytes k ∧ c.readFile bytes = some (xs.take k) := by
  obtain ⟨k, hr, hk⟩ := readFile_of_prefix h hp
  have htake : xs.take (min k xs.length) = xs.take k := by
    rw [← List.take_take, List.take_length]
  refine ⟨min k xs.length, ⟨Nat.min_le_right _ _, fun j hj ↦ ⟨fun hw ↦ ?_, fun hjk ↦ ?_⟩⟩,
    by rw [htake, hr]⟩
  · have hle := (prefix_of_readFile (fun x hx ↦ h x (List.mem_of_mem_take hx)) hw hr).length_le
    rw [List.length_take, List.length_take] at hle
    omega
  · have hjk : j ≤ k := Nat.le_trans hjk (Nat.min_le_left _ _)
    exact (frames_mono (List.take_prefix_take_left hjk)).trans hk

end Codec

end Bytes
