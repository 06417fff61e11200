import Efis.Transition.Compare
import Efis.Vector.Flat
import Mathlib.Order.Compare

/-!
# Searching a flat index

`FlatIndex::search` computes the distance of the query to every vector, selects the `k`-th smallest
of them, cuts off the rest and sorts what is left.  Of the numbers only the operations are known
(`Arith`), and of the two functions of the standard library only what they promise (`Slices`).

If all distances can be compared, an index that was built with `insert` and is not empty is searched
exactly (`search_exact`).  But the search panics in three cases that do occur (`search_total_iff`):
if the vectors have no components, if there is no vector, and if there are two or more of them and
one of the distances is not a number.
-/

set_option autoImplicit false

namespace Efis

open Std Table Transition

variable {F : Type}

/-! ## Distances -/

/-- The operations on `f32` that are used.  A sum begins with `zero`. -/
structure Arith (F : Type) where
  zero : F
  add : F → F → F
  sub : F → F → F
  mul : F → F → F
  neg : F → F
  partialCmp : F → F → Option Ordering

/-- Two numbers compare by an order, unless one of them is not a number. -/
structure Arith.Compares (A : Arith F) (nan : F → Prop) (order : F → F → Ordering) : Prop where
  trans : TransCmp order
  numbers : ∀ a b, ¬ nan a → ¬ nan b → A.partialCmp a b = some (order a b)
  nans : ∀ a b, nan a ∨ nan b → A.partialCmp a b = none

def l2Distance (A : Arith F) (a b : List F) : F :=
  (List.zipWith (fun x y ↦ A.mul (A.sub x y) (A.sub x y)) a b).foldl A.add A.zero

def cosineSim (A : Arith F) (a b : List F) : F :=
  A.neg ((List.zipWith A.mul a b).foldl A.add A.zero)

inductive Distance where
  | l2
  | cosine
  deriving DecidableEq

def Distance.apply (A : Arith F) : Distance → List F → List F → F
  | .l2 => l2Distance A
  | .cosine => cosineSim A

/-- `select_nth_unstable_by` and `sort_unstable_by`. -/
structure Slices where
  selectNth : (n i : ℕ) → Arrange n
  sort : (n : ℕ) → Arrange n
  selects : Selects selectNth
  sorts : Sorts sort

namespace FlatIndex

namespace Raw

variable (A : Arith F) (S : Slices)

/-- The comparison of two results, `partial_cmp(..).unwrap()`. -/
def byDistance (a b : UInt64 × F) : Option Ordering := A.partialCmp a.2 b.2

def distances (x : Raw F) (query : List F) (df : Distance) : List (UInt64 × F) :=
  ((chunks x.dim x.vecs).zip x.ids).map fun p ↦ (p.2, df.apply A p.1 query)

/-- `none` if it panics: there are no chunks of length `0`, and no place before the first one. -/
def search (x : Raw F) (query : List F) (k : ℕ) (df : Distance) : Option (List (UInt64 × F)) :=
  if k = 0 then some []
  else if x.dim = 0 then none
  else
    let distances := x.distances A query df
    let k := min k distances.length
    if k = 0 then none
    else do
      let distances ← Arrange.apply (S.selectNth · (k - 1)) (byDistance A) distances
      Arrange.apply S.sort (byDistance A) (distances.take k)

section

variable {A S} {x : Raw F} {rows : List (List F)} {query : List F} {df : Distance} {k : ℕ}

theorem Holds.distances_eq (h : Holds x rows) (hdim : x.dim ≠ 0) :
    x.distances A query df = (rows.zip x.ids).map fun p ↦ (p.2, df.apply A p.1 query) := by
  rw [distances, h.vecs, h.uniform.chunks_flatten (Nat.pos_of_ne_zero hdim)]

variable (A query df) in
theorem Holds.map_fst_distances (h : Holds x rows) (hdim : x.dim ≠ 0) :
    (x.distances A query df).map Prod.fst = x.ids := by
  rw [h.distances_eq hdim, List.map_map]
  exact List.map_snd_zip h.length.ge

variable (A query df) in
theorem Holds.length_distances (h : Holds x rows) (hdim : x.dim ≠ 0) :
    (x.distances A query df).length = x.ids.length := by
  rw [← h.map_fst_distances A query df hdim, List.length_map]

theorem Holds.mem_distances (h : Holds x rows) (hdim : x.dim ≠ 0) {p : UInt64 × F} :
    p ∈ x.distances A query df ↔
      ∃ (i : ℕ) (r : List F), rows[i]? = some r ∧ x.ids[i]? = some p.1 ∧
        p.2 = df.apply A r query := by
  rw [h.distances_eq hdim, List.mem_map]
  constructor
  · rintro ⟨⟨r, id⟩, hmem, rfl⟩
    obtain ⟨i, hi⟩ := List.getElem?_of_mem hmem
    obtain ⟨hr, hid⟩ := List.getElem?_zip_eq_some.mp hi
    exact ⟨i, r, hr, hid, rfl⟩
  · rintro ⟨i, r, hr, hid, hp⟩
    refine ⟨(r, p.1), List.mem_of_getElem? (List.getElem?_zip_eq_some.mpr ⟨hr, hid⟩), ?_⟩
    rw [← hp]

/-- In an index that is a finite map, the distances are those of the vectors in the map. -/
theorem Maps.mem_distances {m : UInt64 → Option (List F)} (h : Maps x m) (hh : Holds x rows)
    (hdim : x.dim ≠ 0) {p : UInt64 × F} :
    p ∈ x.distances A query df ↔ ∃ v, m p.1 = some v ∧ p.2 = df.apply A v query := by
  rw [hh.mem_distances hdim]
  constructor
  · rintro ⟨i, r, hr, hid, hp⟩
    refine ⟨r, ?_, hp⟩
    rw [← h.bind_eq hh, (h.placed p.1 i).mpr hid, Option.bind_some, hr]
  · rintro ⟨v, hv, hp⟩
    rw [← h.bind_eq hh] at hv
    obtain ⟨i, hi, hr⟩ := Option.bind_eq_some_iff.mp hv
    exact ⟨i, v, hr, (h.placed p.1 i).mp hi, hp⟩

/-! ## Exactness -/

theorem search_of_pos (hk : k ≠ 0) (hdim : x.dim ≠ 0)
    (hlen : (x.distances A query df).length ≠ 0) :
    x.search A S query k df =
      (Arrange.apply (S.selectNth · (min k (x.distances A query df).length - 1)) (byDistance A)
        (x.distances A query df)).bind fun sel ↦
          Arrange.apply S.sort (byDistance A)
            (sel.take (min k (x.distances A query df).length)) := by
  have hmin : min k (x.distances A query df).length ≠ 0 := by omega
  rw [search, if_neg hk, if_neg hdim]
  simp only
  rw [if_neg hmin]
  rfl

/-- What a search returns if all distances can be compared. -/
theorem exists_search {order : F → F → Ordering} [TransCmp order] (hk : k ≠ 0) (hdim : x.dim ≠ 0)
    (hlen : (x.distances A query df).length ≠ 0)
    (h : Answers (byDistance A) (fun a b ↦ order a.2 b.2) (x.distances A query df)) :
    ∃ res rest, x.search A S query k df = some res ∧
      res.length = min k (x.distances A query df).length ∧
      (res ++ rest).Perm (x.distances A query df) ∧
      (res.Pairwise fun a b ↦ (order a.2 b.2).isLE = true) ∧
      ∀ a ∈ res, ∀ b ∈ rest, (order a.2 b.2).isLE = true := by
  have := transCmp_comap order (Prod.snd : UInt64 × F → F)
  obtain ⟨sel, res, rest, hsel, hres, hlength, hperm, hsorted, hle⟩ :=
    exists_firstK S.selects S.sorts (k := min k (x.distances A query df).length) (by omega)
      (Nat.min_le_right _ _) h
  refine ⟨res, rest, ?_, hlength, hperm, hsorted, hle⟩
  rw [search_of_pos hk hdim hlen, hsel, Option.bind_some, hres]

end

/-- An index that is built with `insert`. -/
def insertAll (n : ℕ) (ops : List (UInt64 × List F)) : Option (Raw F) :=
  ops.foldlM (fun x p ↦ x.step (.insert p.1 p.2)) (new n)

/-- What is not rejected. -/
def accepted (n : ℕ) (ops : List (UInt64 × List F)) : List (UInt64 × List F) :=
  ops.filter fun p ↦ decide (p.2.length = n)

/-- The last accepted vector of an identifier. -/
def lastVector (n : ℕ) (ops : List (UInt64 × List F)) (id : UInt64) : Option (List F) :=
  ((accepted n ops).filter fun p ↦ decide (p.1 = id)).getLast?.map Prod.snd

section

variable {x : Raw F} {rows : List (List F)} {n : ℕ}

theorem lastVector_cons (p : UInt64 × List F) (ops : List (UInt64 × List F)) (id : UInt64)
    (m : UInt64 → Option (List F)) :
    (lastVector n (p :: ops) id).or (m id) =
      (lastVector n ops id).or (update n m (.insert p.1 p.2) id) := by
  rw [update, lastVector, lastVector, accepted, accepted]
  by_cases hv : p.2.length = n
  · rw [List.filter_cons_of_pos (by simpa using hv), if_pos hv]
    by_cases hid : p.1 = id
    · rw [List.filter_cons_of_pos (by simpa using hid), ← hid, Function.update_self,
        List.getLast?_cons]
      cases ((ops.filter _).filter _).getLast? <;> rfl
    · rw [List.filter_cons_of_neg (by simpa using hid), Function.update_of_ne (Ne.symm hid)]
  · rw [List.filter_cons_of_neg (by simpa using hv), if_neg hv]

theorem isSome_lastVector {ops : List (UInt64 × List F)} {id : UInt64} :
    (lastVector n ops id).isSome = true ↔ id ∈ (accepted n ops).map Prod.fst := by
  rw [lastVector, Option.isSome_map, List.getLast?_isSome, ne_eq, List.filter_eq_nil_iff,
    List.mem_map]
  push Not
  simp only [decide_eq_true_eq]

/-- **The index after any number of insertions.** -/
theorem Maps.insertAll {m : UInt64 → Option (List F)} (h : Maps x m) (hh : Holds x rows)
    (hdim : x.dim = n) (ops : List (UInt64 × List F)) :
    ∃ y rows', ops.foldlM (fun x p ↦ x.step (.insert p.1 p.2)) x = some y ∧ Holds y rows' ∧
      y.dim = n ∧ Maps y fun id ↦ (lastVector n ops id).or (m id) := by
  induction ops generalizing x m rows with
  | nil => exact ⟨x, rows, rfl, hh, hdim, h⟩
  | cons p ops ih =>
    obtain ⟨y, hy, hmaps⟩ := h.insert hh p.1 p.2
    obtain ⟨rows', hholds, hdim'⟩ := hh.step hy
    obtain ⟨z, rows'', hz, hh', hdim'', hm'⟩ := ih hmaps hholds (hdim'.trans hdim)
    refine ⟨z, rows'', ?_, hh', hdim'', ?_⟩
    · rw [List.foldlM_cons, hy]
      exact hz
    · simp only [lastVector_cons]
      rwa [hdim] at hm'

theorem exists_insertAll (n : ℕ) (ops : List (UInt64 × List F)) :
    ∃ x rows, insertAll n ops = some x ∧ Holds x rows ∧ x.dim = n ∧
      Maps x (lastVector n ops) := by
  obtain ⟨x, rows, hx, hh, hdim, hm⟩ :=
    (maps_new n).insertAll (holds_new n) rfl ops
  simp only [Option.or_none] at hm
  exact ⟨x, rows, hx, hh, hdim, hm⟩

theorem Maps.length_ids {ops : List (UInt64 × List F)} (h : Maps x (lastVector n ops))
    (hh : Holds x rows) : x.ids.length = ((accepted n ops).map Prod.fst).dedup.length := by
  refine ((List.perm_ext_iff_of_nodup hh.nodup (List.nodup_dedup _)).mpr fun id ↦ ?_).length_eq
  rw [List.mem_dedup, ← isSome_lastVector, ← h.stored, Raw.stored, Option.isSome_map, hh.known]

end

/-- **A search is exact.**  In an index with components that is built with `insert` and is not
empty, a search finds the `k` nearest vectors, or all if there are fewer, in the order of their
distances: of each identifier the last vector that was accepted, and no other one is nearer. -/
theorem search_exact [LinearOrder F] (A : Arith F)
    (hcmp : ∀ a b, A.partialCmp a b = some (compare a b)) (S : Slices) {n : ℕ} (hn : 1 ≤ n)
    {ops : List (UInt64 × List F)} (hops : accepted n ops ≠ []) (query : List F) {k : ℕ}
    (hk : 1 ≤ k) (df : Distance) :
    ∃ x res, insertAll n ops = some x ∧ x.search A S query k df = some res ∧
      res.length = min k ((accepted n ops).map Prod.fst).dedup.length ∧
      (res.map Prod.fst).Nodup ∧
      (∀ p ∈ res, ∃ v, lastVector n ops p.1 = some v ∧ p.2 = df.apply A v query) ∧
      (res.Pairwise fun p q ↦ p.2 ≤ q.2) ∧
      ∀ id v, lastVector n ops id = some v → id ∉ res.map Prod.fst →
        ∀ p ∈ res, p.2 ≤ df.apply A v query := by
  have hto : ∀ {a b : F}, (compare a b).isLE = true → a ≤ b :=
    fun h ↦ compare_le_iff_le.mp (Ordering.ne_gt_iff_isLE.mpr h)
  obtain ⟨x, rows, hx, hh, hdim, hm⟩ := exists_insertAll n ops
  have hdim' : x.dim ≠ 0 := by omega
  have hcount := hm.length_ids hh
  have hlen : (x.distances A query df).length = ((accepted n ops).map Prod.fst).dedup.length := by
    rw [hh.length_distances A query df hdim', hcount]
  have hpos : (x.distances A query df).length ≠ 0 := by
    rw [hlen]
    intro h0
    rw [List.length_eq_zero_iff, List.dedup_eq_nil, List.map_eq_nil_iff] at h0
    exact hops h0
  have hanswers : Answers (byDistance A) (fun a b ↦ compare a.2 b.2) (x.distances A query df) :=
    fun a _ b _ ↦ hcmp a.2 b.2
  obtain ⟨res, rest, hres, hlength, hperm, hsorted, hle⟩ :=
    exists_search (S := S) (Nat.pos_iff_ne_zero.mp hk) hdim' hpos hanswers
  have hnodup : ((res ++ rest).map Prod.fst).Nodup := by
    rw [(hperm.map Prod.fst).nodup_iff, hh.map_fst_distances A query df hdim']
    exact hh.nodup
  rw [List.map_append] at hnodup
  refine ⟨x, res, hx, hres, by rw [hlength, hlen], hnodup.of_append_left, fun p hp ↦ ?_, ?_,
    fun id v hv hid p hp ↦ ?_⟩
  · exact (hm.mem_distances hh hdim').mp (hperm.mem_iff.mp (List.mem_append_left _ hp))
  · exact hsorted.imp hto
  · have hmem : (id, df.apply A v query) ∈ x.distances A query df :=
      (hm.mem_distances hh hdim').mpr ⟨v, hv, rfl⟩
    rcases List.mem_append.mp (hperm.mem_iff.mpr hmem) with h | h
    · exact absurd (List.mem_map_of_mem h) hid
    · exact hto (hle p hp _ h)

/-- Numbers without a `NaN`, and with an order. -/
def natArith : Arith ℕ where
  zero := 0
  add := (· + ·)
  sub a b := a - b + (b - a)
  mul := (· * ·)
  neg a := a
  partialCmp a b := some (compare a b)

/-- Slices that are sorted by insertion. -/
def plainSlices : Slices where
  selectNth := selectBySort
  sort := insertionSort
  selects := selects_selectBySort
  sorts := sorts_insertionSort

/-- Three vectors, one of which is overwritten, and the two nearest ones. -/
theorem search_exact_three :
    ∃ x res, insertAll 1 [(1, [5]), (2, [1]), (3, [3]), (1, [2])] = some x ∧
      x.search natArith plainSlices [0] 2 .l2 = some res ∧ res.length = 2 := by
  have hops : accepted 1 [(1, [5]), (2, [1]), (3, [3]), (1, [2])] ≠ [] := by decide
  obtain ⟨x, res, hx, hres, hlen, -⟩ := search_exact natArith (fun _ _ ↦ rfl) plainSlices
    (by decide) hops [0] (k := 2) (by decide) .l2
  exact ⟨x, res, hx, hres, hlen.trans (by decide)⟩

/-! ## Panics -/

section

variable {A : Arith F} {S : Slices} {x : Raw F} {rows : List (List F)} {query : List F}
  {df : Distance} {k : ℕ}

theorem search_of_dim (hk : k ≠ 0) (hdim : x.dim = 0) : x.search A S query k df = none := by
  rw [search, if_neg hk, if_pos hdim]

theorem search_of_empty (hk : k ≠ 0) (h : (x.distances A query df).length = 0) :
    x.search A S query k df = none := by
  rw [search, if_neg hk]
  split
  · rfl
  · simp only
    rw [h, Nat.min_zero, if_pos rfl]

/-- A single vector is not compared. -/
theorem search_of_single (hk : k ≠ 0) (hdim : x.dim ≠ 0)
    (h : (x.distances A query df).length = 1) :
    ∃ p, x.search A S query k df = some [p] := by
  obtain ⟨p, hp⟩ := List.length_eq_one_iff.mp h
  have hmin : min k (x.distances A query df).length = 1 := by omega
  refine ⟨p, ?_⟩
  rw [search_of_pos hk hdim (by omega), hmin, hp, Nat.sub_self, S.selects.apply_singleton,
    Option.bind_some]
  exact S.sorts.apply_of_length_lt (by simp)

theorem Holds.search_of_numbers (h : Holds x rows) {nan : F → Prop} {order : F → F → Ordering}
    (hA : A.Compares nan order) (hk : k ≠ 0) (hdim : x.dim ≠ 0) (hids : x.ids ≠ [])
    (hnan : ∀ v ∈ chunks x.dim x.vecs, ¬ nan (df.apply A v query)) :
    ∃ res, x.search A S query k df = some res ∧ res.length = min k x.ids.length := by
  have := hA.trans
  have hlen := h.length_distances A query df hdim
  have hpos : (x.distances A query df).length ≠ 0 := by
    rw [hlen]
    exact fun h0 ↦ hids (List.eq_nil_of_length_eq_zero h0)
  have hnumber : ∀ p ∈ x.distances A query df, ¬ nan p.2 := by
    intro p hp
    obtain ⟨q, hq, rfl⟩ := List.mem_map.mp hp
    exact hnan q.1 (List.of_mem_zip hq).1
  have hanswers : Answers (byDistance A) (fun a b ↦ order a.2 b.2) (x.distances A query df) :=
    fun a ha b hb ↦ hA.numbers a.2 b.2 (hnumber a ha) (hnumber b hb)
  obtain ⟨res, -, hres, hlength, -⟩ := exists_search (S := S) hk hdim hpos hanswers
  exact ⟨res, hres, by rw [hlength, hlen]⟩

/-- A distance that is not a number is compared with another one. -/
theorem Holds.search_of_nan (h : Holds x rows) {nan : F → Prop} {order : F → F → Ordering}
    (hA : A.Compares nan order) (hk : k ≠ 0) (hdim : x.dim ≠ 0) (hids : 2 ≤ x.ids.length)
    {v : List F} (hv : v ∈ chunks x.dim x.vecs) (hnan : nan (df.apply A v query)) :
    x.search A S query k df = none := by
  have := hA.trans
  have := transCmp_comap order (Prod.snd : UInt64 × F → F)
  have hlen := h.length_distances A query df hdim
  rw [h.vecs, h.uniform.chunks_flatten (Nat.pos_of_ne_zero hdim)] at hv
  obtain ⟨i, hi⟩ := List.getElem?_of_mem hv
  have hlt : i < x.ids.length := by
    rw [← h.length]
    exact (List.getElem?_eq_some_iff.mp hi).1
  have hmem : (x.ids[i], df.apply A v query) ∈ x.distances A query df :=
    (h.mem_distances hdim).mpr ⟨i, v, hi, List.getElem?_eq_getElem hlt, rfl⟩
  have horder : ∀ a b o, byDistance A a b = some o → o = order a.2 b.2 := by
    intro a b o ho
    by_cases hab : nan a.2 ∨ nan b.2
    · rw [byDistance, hA.nans _ _ hab] at ho
      cases ho
    · push Not at hab
      rw [byDistance, hA.numbers _ _ hab.1 hab.2] at ho
      exact (Option.some_inj.mp ho).symm
  have hunordered : ∀ a, byDistance A (x.ids[i], df.apply A v query) a = none ∧
      byDistance A a (x.ids[i], df.apply A v query) = none :=
    fun a ↦ ⟨hA.nans _ _ (Or.inl hnan), hA.nans _ _ (Or.inr hnan)⟩
  have hnone := S.selects.apply_eq_none (i := min k (x.distances A query df).length - 1)
    (by omega) (by omega) hmem hunordered horder
  rw [search_of_pos hk hdim (by omega), hnone]
  rfl

end

/-- **When a search returns.**  Whatever was inserted and deleted, and whatever is asked for, a
search returns as many results as there are, up to `k`, exactly if `k` is `0`, or the vectors have
components, there is one, and either it is the only one or no distance is not a number. -/
theorem search_total_iff {A : Arith F} {nan : F → Prop} {order : F → F → Ordering}
    (hA : A.Compares nan order) (S : Slices) {n : ℕ} {x : Raw F}
    (hx : Reach step (fun _ _ ↦ True) (new n) x) (query : List F) (k : ℕ) (df : Distance) :
    (∃ res, x.search A S query k df = some res ∧ res.length = min k x.ids.length) ↔
      k = 0 ∨ x.dim ≠ 0 ∧ x.ids ≠ [] ∧
        (x.ids.length = 1 ∨ ∀ v ∈ chunks x.dim x.vecs, ¬ nan (df.apply A v query)) := by
  obtain ⟨rows, hh⟩ := holds_of_reach hx
  have hpanic : x.search A S query k df = none →
      ¬ ∃ res, x.search A S query k df = some res ∧ res.length = min k x.ids.length := by
    rintro hnone ⟨res, hres, -⟩
    rw [hnone] at hres
    cases hres
  by_cases hk : k = 0
  · refine iff_of_true ⟨[], by rw [search, if_pos hk], ?_⟩ (Or.inl hk)
    rw [hk, Nat.zero_min, List.length_nil]
  rw [or_iff_right hk]
  by_cases hdim : x.dim = 0
  · exact iff_of_false (hpanic (search_of_dim hk hdim)) fun h ↦ h.1 hdim
  have hlen := hh.length_distances A query df hdim
  rw [and_iff_right hdim]
  by_cases hids : x.ids = []
  · refine iff_of_false (hpanic (search_of_empty hk ?_)) fun h ↦ h.1 hids
    rw [hlen, hids, List.length_nil]
  rw [and_iff_right hids]
  by_cases hone : x.ids.length = 1
  · obtain ⟨p, hp⟩ := search_of_single (S := S) hk hdim (hlen.trans hone)
    refine iff_of_true ⟨[p], hp, ?_⟩ (Or.inl hone)
    rw [hone, List.length_singleton]
    omega
  rw [or_iff_right hone]
  by_cases hnan : ∀ v ∈ chunks x.dim x.vecs, ¬ nan (df.apply A v query)
  · exact iff_of_true (hh.search_of_numbers hA hk hdim hids hnan) hnan
  · refine iff_of_false (hpanic ?_) hnan
    push Not at hnan
    obtain ⟨v, hv, hnan⟩ := hnan
    have hpos := List.length_pos_iff.mpr hids
    exact hh.search_of_nan hA hk hdim (by omega) hv hnan

theorem natArith_compares : natArith.Compares (fun _ ↦ False) compare where
  trans := inferInstance
  numbers _ _ _ _ := rfl
  nans _ _ h := h.elim False.elim False.elim

/-- Two vectors, of which the first is deleted again. -/
theorem search_total_iff_deleted :
    ∃ x res, run step (fun _ _ ↦ True) (new 1) [.insert 1 [5], .insert 2 [1], .delete 1] = some x ∧
      x.search natArith plainSlices [0] 2 .cosine = some res ∧ res.length = 1 := by
  have hrun : run step (fun _ _ ↦ True) (new 1) [.insert 1 [5], .insert 2 [1], .delete 1] =
      some ⟨1, [1], [2], [(2, 1)]⟩ := by decide
  obtain ⟨res, hres, hlen⟩ := (search_total_iff natArith_compares plainSlices
    (Reach.start.run hrun) [0] 2 .cosine).mpr
    (Or.inr ⟨by decide, by decide, Or.inr fun _ _ ↦ not_false⟩)
  exact ⟨_, res, hrun, hres, hlen.trans (by decide)⟩

/-- An index without vectors. -/
theorem not_search_total :
    ¬ ∀ (n : ℕ) (x : Raw ℕ), Reach step (fun _ _ ↦ True) (new n) x → ∀ (query : List ℕ) (k : ℕ)
      (df : Distance), ∃ res, x.search natArith plainSlices query k df = some res ∧
        res.length = min k x.ids.length := by
  intro h
  obtain ⟨res, hres, -⟩ := h 3 (new 3) .start [1, 2, 3] 5 .l2
  cases hres

end Raw

end FlatIndex

end Efis
