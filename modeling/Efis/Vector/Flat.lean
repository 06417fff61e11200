import Efis.Store.Command
import Efis.Table.Rows
import Efis.Transition.Reach

/-!
# The flat index

`FlatIndex` with all its operations, on its bare fields (`FlatIndex.Raw`).  The vectors stand one
after the other in `vecs`, in the order of `ids`, and `idset` has the position of each identifier.

To delete a vector, the last one is put in its place.  But the position of the last one stays what
it was in `idset`, and is now wrong: the next `insert` of that identifier writes behind the last
vector, which panics, or over the vector of whoever has come to be there.  So the index is a finite
map as long as a vector that is deleted is always the last one (`Raw.finite_map_iff`).  Where
nothing is deleted it is one, and the operations are those of `FlatIndex` (`insert_raw`), which
keeps the sizes as part of the type.
-/

set_option autoImplicit false

namespace Efis

open Table Transition

variable {F : Type}

namespace FlatIndex

/-- The fields of a `FlatIndex`, without what is known of them. -/
structure Raw (F : Type) where
  dim : ℕ
  vecs : List F
  ids : List UInt64
  idset : List (UInt64 × ℕ)
  deriving DecidableEq

/-- Forget what is known of the fields. -/
def raw (x : FlatIndex F) : Raw F := ⟨x.dim, x.vecs, x.ids, x.idset⟩

namespace Raw

/-! ## Operations -/

def new (n : ℕ) : Raw F := ⟨n, [], [], []⟩

/-- `idset.get`. -/
def position (x : Raw F) (id : UInt64) : Option ℕ :=
  (x.idset.find? (·.1 = id)).map Prod.snd

/-- `none` if an index is out of bounds. -/
def insert (x : Raw F) (id : UInt64) (v : List F) : Option (Except String Unit × Raw F) :=
  if v.length ≠ x.dim then some (.error "vector size is not equal to the original size", x)
  else
    match x.position id with
    | some i => (writeFrom x.vecs (x.dim * i) v).map fun vecs ↦ (.ok (), { x with vecs })
    | none =>
      some (.ok (), ⟨x.dim, x.vecs ++ v, x.ids ++ [id], x.idset ++ [(id, x.ids.length)]⟩)

/-- The last vector is copied over the one that is deleted. -/
def delete (x : Raw F) (id : UInt64) : Option (Raw F) :=
  match x.ids.idxOf? id with
  | none => some x
  | some i =>
    if x.dim ≤ x.vecs.length then
      (copyFrom x.vecs (x.dim * i) (x.vecs.length - x.dim) x.dim).map fun vecs ↦
        ⟨x.dim, vecs.take (x.vecs.length - x.dim), swapRemove x.ids i,
          x.idset.filter fun p ↦ decide (p.1 ≠ id)⟩
    else none

/-- The vector under an identifier, as `insert` would find it. -/
def stored (x : Raw F) (id : UInt64) : Option (List F) :=
  (x.position id).map (row x.dim x.vecs)

end Raw

/-! ## Runs -/

/-- What can be done to an index. -/
inductive Op (F : Type) where
  | insert (id : UInt64) (v : List F)
  | delete (id : UInt64)
  deriving DecidableEq

def Raw.step (x : Raw F) : Op F → Option (Raw F)
  | .insert id v => (x.insert id v).map Prod.snd
  | .delete id => x.delete id

namespace Raw

variable {x y : Raw F} {rows : List (List F)} {id : UInt64} {v : List F}

/-- The vectors of an index, one for each identifier.  The identifiers are different, and `idset`
has a position for each of them. -/
structure Holds (x : Raw F) (rows : List (List F)) : Prop where
  vecs : x.vecs = rows.flatten
  uniform : Uniform x.dim rows
  length : rows.length = x.ids.length
  nodup : x.ids.Nodup
  known : ∀ id, (x.position id).isSome = true ↔ id ∈ x.ids

theorem holds_new (n : ℕ) : Holds (new n : Raw F) [] where
  vecs := rfl
  uniform _ h := absurd h List.not_mem_nil
  length := rfl
  nodup := List.nodup_nil
  known id := by simp [new, position]

theorem position_extend (x : Raw F) (id id' : UInt64) (i : ℕ) (vecs : List F) (ids : List UInt64) :
    position ⟨x.dim, vecs, ids, x.idset ++ [(id, i)]⟩ id' =
      (x.position id').or (if id = id' then some i else none) := by
  simp only [position, List.find?_append, List.find?_singleton, Option.map_or]
  congr 1
  by_cases h : id = id' <;> simp [h]

theorem position_remove (x : Raw F) (id id' : UInt64) (vecs : List F) (ids : List UInt64) :
    position ⟨x.dim, vecs, ids, x.idset.filter fun p ↦ decide (p.1 ≠ id)⟩ id' =
      if id = id' then none else x.position id' := by
  simp only [position, List.find?_filter]
  split
  · rename_i h
    subst h
    rw [Option.map_eq_none_iff, List.find?_eq_none]
    intro p _
    simp
  · rename_i h
    congr 2
    funext p
    by_cases hp : p.1 = id'
    · have hne : p.1 ≠ id := fun he ↦ h (he.symm.trans hp)
      simp [hp, Ne.symm h]
    · simp [hp]

/-! ## What an operation does to the vectors -/

theorem insert_rejected (hv : v.length ≠ x.dim) :
    x.insert id v = some (.error "vector size is not equal to the original size", x) := by
  rw [insert, if_pos hv]

/-- A new identifier. -/
theorem Holds.insert_new (h : Holds x rows) (hv : v.length = x.dim) (hp : x.position id = none) :
    ∃ y, x.insert id v = some (.ok (), y) ∧ Holds y (rows ++ [v]) ∧ y.dim = x.dim ∧
      y.ids = x.ids ++ [id] ∧
      ∀ id', y.position id' =
        (x.position id').or (if id = id' then some x.ids.length else none) := by
  have hnot : id ∉ x.ids := by
    rw [← h.known, hp]
    exact Bool.false_ne_true
  refine ⟨⟨x.dim, x.vecs ++ v, x.ids ++ [id], x.idset ++ [(id, x.ids.length)]⟩,
    by rw [insert, if_neg (not_not.mpr hv), hp], ⟨?_, h.uniform.concat hv, ?_, ?_, ?_⟩, rfl, rfl,
    fun id' ↦ position_extend x id id' _ _ _⟩
  · rw [List.flatten_append, List.flatten_singleton, h.vecs]
  · rw [List.length_append, List.length_append, h.length]
    rfl
  · exact List.nodup_append.mpr ⟨h.nodup, List.nodup_singleton id, fun a ha b hb ↦
      List.mem_singleton.mp hb ▸ fun he ↦ hnot (he ▸ ha)⟩
  · intro id'
    rw [position_extend, Option.isSome_or, Bool.or_eq_true, h.known, List.mem_append,
      List.mem_singleton]
    refine or_congr_right ?_
    by_cases he : id = id'
    · simp [he]
    · simp [he, Ne.symm he]

/-- An identifier whose position is that of a vector. -/
theorem Holds.insert_at (h : Holds x rows) (hv : v.length = x.dim) {i : ℕ}
    (hp : x.position id = some i) (hi : i < rows.length) :
    x.insert id v = some (.ok (), { x with vecs := (rows.set i v).flatten }) ∧
      Holds { x with vecs := (rows.set i v).flatten } (rows.set i v) := by
  refine ⟨?_, rfl, h.uniform.set hv i, by rw [List.length_set, h.length], h.nodup, h.known⟩
  rw [insert, if_neg (not_not.mpr hv), hp]
  simp only
  rw [h.vecs, h.uniform.writeFrom_flatten hv hi]
  rfl

/-- An identifier whose position is behind the last vector. -/
theorem Holds.insert_behind (h : Holds x rows) (hv : v.length = x.dim) {i : ℕ}
    (hp : x.position id = some i) (hi : rows.length ≤ i) :
    x.insert id v = if x.dim = 0 then some (.ok (), x) else none := by
  rw [insert, if_neg (not_not.mpr hv), hp]
  simp only
  rw [h.vecs, h.uniform.writeFrom_flatten_of_le hv hi]
  split
  · rw [Option.map_some, ← h.vecs]
  · rfl

theorem delete_absent (hid : id ∉ x.ids) : x.delete id = some x := by
  rw [delete, List.idxOf?_eq_none_iff.mpr hid]

theorem Holds.delete_at (h : Holds x rows) {i : ℕ} (hi : x.ids[i]? = some id) :
    ∃ y, x.delete id = some y ∧ Holds y (swapRemove rows i) ∧ y.dim = x.dim ∧
      y.ids = swapRemove x.ids i ∧
      ∀ id', y.position id' = if id = id' then none else x.position id' := by
  obtain ⟨hlt, hget⟩ := List.getElem?_eq_some_iff.mp hi
  have hidx : x.ids.idxOf? id = some i := by
    refine List.idxOf?_eq_some_iff.mpr ⟨hlt, hget, fun j hj he ↦ ?_⟩
    exact hj.ne (h.nodup.getElem_inj_iff.mp (he.trans hget.symm))
  have hlt' : i < rows.length := by rwa [h.length]
  obtain ⟨r, hr⟩ : ∃ r, rows.getLast? = some r :=
    ⟨_, List.getLast?_eq_some_getLast (List.ne_nil_of_length_pos (by omega))⟩
  have hset : Uniform x.dim (rows.set i r) :=
    h.uniform.set (h.uniform r (List.mem_of_getLast? hr)) i
  have hvecs : x.vecs.length = x.dim * rows.length := by rw [h.vecs, h.uniform.length_flatten]
  have hdim : x.dim ≤ x.vecs.length := by
    rw [hvecs]
    exact Nat.le_mul_of_pos_right _ (by omega)
  have htake : (rows.set i r).flatten.take (x.vecs.length - x.dim) =
      (swapRemove rows i).flatten := by
    rw [swapRemove, hr, ← hset.take_flatten_dropLast, hset.length_flatten, List.length_set, hvecs]
  refine ⟨⟨x.dim, (swapRemove rows i).flatten, swapRemove x.ids i,
    x.idset.filter fun p ↦ decide (p.1 ≠ id)⟩, ?_, ⟨rfl, ?_, ?_, ?_, ?_⟩, rfl, rfl,
    fun id' ↦ position_remove x id id' _ _⟩
  · rw [delete, hidx]
    simp only
    rw [if_pos hdim, ← htake, h.vecs, h.uniform.copyFrom_flatten hr hlt']
    rfl
  · rw [swapRemove, hr]
    exact hset.dropLast
  · rw [length_swapRemove, length_swapRemove, h.length]
  · exact (swapRemove_perm hlt).nodup_iff.mpr (h.nodup.sublist (List.eraseIdx_sublist _ _))
  · intro id'
    rw [position_remove, (swapRemove_perm hlt).mem_iff, ← h.nodup.erase_getElem i hlt, hget,
      h.nodup.mem_erase_iff, ← h.known]
    by_cases he : id = id'
    · simp [he]
    · simp [he, Ne.symm he]

/-- **Whatever is done, there is one vector for each identifier.** -/
theorem Holds.step (h : Holds x rows) {op : Op F} (hs : x.step op = some y) :
    ∃ rows', Holds y rows' ∧ y.dim = x.dim := by
  cases op with
  | insert id v =>
    obtain ⟨⟨res, z⟩, hins, rfl⟩ := Option.map_eq_some_iff.mp hs
    by_cases hv : v.length = x.dim
    · cases hp : x.position id with
      | none =>
        obtain ⟨y, hy, hholds, hdim, -⟩ := h.insert_new hv hp
        obtain ⟨-, rfl⟩ := Prod.mk.inj (Option.some_inj.mp (hy.symm.trans hins))
        exact ⟨_, hholds, hdim⟩
      | some i =>
        rcases Nat.lt_or_ge i rows.length with hi | hi
        · obtain ⟨hy, hholds⟩ := h.insert_at hv hp hi
          obtain ⟨-, rfl⟩ := Prod.mk.inj (Option.some_inj.mp (hy.symm.trans hins))
          exact ⟨_, hholds, rfl⟩
        · rw [h.insert_behind hv hp hi] at hins
          split at hins
          · obtain ⟨-, rfl⟩ := Prod.mk.inj (Option.some_inj.mp hins)
            exact ⟨rows, h, rfl⟩
          · cases hins
    · rw [insert_rejected hv] at hins
      obtain ⟨-, rfl⟩ := Prod.mk.inj (Option.some_inj.mp hins)
      exact ⟨rows, h, rfl⟩
  | delete id =>
    change x.delete id = some y at hs
    by_cases hid : id ∈ x.ids
    · obtain ⟨i, hi⟩ := List.getElem?_of_mem hid
      obtain ⟨z, hz, hholds, hdim, -⟩ := h.delete_at hi
      obtain rfl := Option.some_inj.mp (hz.symm.trans hs)
      exact ⟨_, hholds, hdim⟩
    · rw [delete_absent hid] at hs
      obtain rfl := Option.some_inj.mp hs
      exact ⟨rows, h, rfl⟩

theorem holds_of_reach {n : ℕ} (h : Reach step (fun _ _ ↦ True) (new n) x) :
    ∃ rows, Holds x rows := by
  apply h.inv
  · exact ⟨[], holds_new n⟩
  · rintro s a s' ⟨rows, hs⟩ - hstep
    obtain ⟨rows', h', -⟩ := hs.step hstep
    exact ⟨rows', h'⟩

/-! ## A finite map -/

/-- The index is that of a finite map: its parts are in step, and the vector under each identifier
is the one of the map. -/
structure Maps (x : Raw F) (m : UInt64 → Option (List F)) : Prop where
  nodup : x.ids.Nodup
  length : x.vecs.length = x.dim * x.ids.length
  placed : ∀ id i, x.position id = some i ↔ x.ids[i]? = some id
  stored : ∀ id, x.stored id = m id

theorem maps_new (n : ℕ) : Maps (new n : Raw F) fun _ ↦ none where
  nodup := List.nodup_nil
  length := rfl
  placed id i := by simp [new, position]
  stored _ := rfl

/-- With the positions right, the vectors are found at them. -/
theorem Holds.maps (h : Holds x rows) (hp : ∀ id i, x.position id = some i ↔ x.ids[i]? = some id)
    {m : UInt64 → Option (List F)} (hm : ∀ id, (x.position id).bind (rows[·]?) = m id) :
    Maps x m where
  nodup := h.nodup
  length := by rw [h.vecs, h.uniform.length_flatten, h.length]
  placed := hp
  stored id := by
    rw [← hm, Raw.stored]
    cases hi : x.position id with
    | none => rfl
    | some i =>
      have hlt : i < rows.length := by
        rw [h.length]
        exact (List.getElem?_eq_some_iff.mp ((hp id i).mp hi)).1
      rw [Option.map_some, Option.bind_some, h.vecs, List.getElem?_eq_getElem hlt,
        h.uniform.row_flatten (List.getElem?_eq_getElem hlt)]

theorem Maps.bind_eq {m : UInt64 → Option (List F)} (h : Maps x m) (hh : Holds x rows)
    (id : UInt64) : (x.position id).bind (rows[·]?) = m id := by
  have hm := hh.maps h.placed fun _ ↦ rfl
  rw [← hm.stored, h.stored]

/-- What becomes of the map.  An `insert` of a vector of another length is rejected. -/
def update (dim : ℕ) (m : UInt64 → Option (List F)) : Op F → UInt64 → Option (List F)
  | .insert id v => if v.length = dim then Function.update m id (some v) else m
  | .delete id => Function.update m id none

/-- A vector that is deleted is the last one. -/
def Safe (x : Raw F) : Op F → Prop
  | .insert _ _ => True
  | .delete id => id ∈ x.ids → x.ids.getLast? = some id

/-- There is nothing to be done: the `insert` is rejected, or there is no such vector. -/
def Idle (x : Raw F) : Op F → Prop
  | .insert _ v => v.length ≠ x.dim
  | .delete id => id ∉ x.ids

section

variable {m : UInt64 → Option (List F)}

theorem Maps.lt_length (h : Maps x m) {i : ℕ} (hp : x.position id = some i) : i < x.ids.length :=
  (List.getElem?_eq_some_iff.mp ((h.placed id i).mp hp)).1

theorem Maps.insert_new (h : Maps x m) (hh : Holds x rows) (hv : v.length = x.dim)
    (hp : x.position id = none) :
    ∃ y, x.step (.insert id v) = some y ∧ Maps y (Function.update m id (some v)) := by
  obtain ⟨y, hy, hholds, -, hids, hpos⟩ := hh.insert_new hv hp
  refine ⟨y, by rw [step, hy]; rfl, hholds.maps (fun id' i ↦ ?_) fun id' ↦ ?_⟩
  · rw [hpos, hids, getElem?_concat_eq_some, ← h.placed]
    by_cases he : id = id'
    · subst he
      rw [hp, Option.none_or, if_pos rfl, Option.some_inj, and_iff_left rfl,
        or_iff_right nofun, eq_comm]
    · rw [if_neg he, Option.or_none, or_iff_left fun h' ↦ he h'.2]
  · rw [hpos]
    by_cases he : id = id'
    · subst he
      rw [hp, Option.none_or, if_pos rfl, Option.bind_some, Function.update_self, ← hh.length,
        List.getElem?_concat_length]
    · rw [if_neg he, Option.or_none, Function.update_of_ne (Ne.symm he), ← h.bind_eq hh]
      refine Option.bind_congr fun i hi ↦ List.getElem?_append_left ?_
      rw [hh.length]
      exact h.lt_length hi

theorem Maps.insert_at (h : Maps x m) (hh : Holds x rows) (hv : v.length = x.dim) {i : ℕ}
    (hp : x.position id = some i) :
    ∃ y, x.step (.insert id v) = some y ∧ Maps y (Function.update m id (some v)) := by
  have hi : i < rows.length := by
    rw [hh.length]
    exact h.lt_length hp
  obtain ⟨hy, hholds⟩ := hh.insert_at hv hp hi
  refine ⟨_, by rw [step, hy]; rfl, hholds.maps h.placed fun id' ↦ ?_⟩
  change (x.position id').bind _ = _
  by_cases he : id' = id
  · subst he
    rw [hp, Option.bind_some, List.getElem?_set_self hi, Function.update_self]
  · rw [Function.update_of_ne he, ← h.bind_eq hh]
    refine Option.bind_congr fun j hj ↦ List.getElem?_set_ne fun hij ↦ he ?_
    -- the positions of different identifiers are different
    have hget := (h.placed id' j).mp hj
    rw [← hij, (h.placed id i).mp hp] at hget
    exact (Option.some_inj.mp hget).symm

theorem Maps.insert (h : Maps x m) (hh : Holds x rows) (id : UInt64) (v : List F) :
    ∃ y, x.step (.insert id v) = some y ∧ Maps y (update x.dim m (.insert id v)) := by
  by_cases hv : v.length = x.dim
  · rw [update, if_pos hv]
    cases hp : x.position id with
    | none => exact h.insert_new hh hv hp
    | some i => exact h.insert_at hh hv hp
  · rw [update, if_neg hv]
    exact ⟨x, by rw [step, insert_rejected hv]; rfl, h⟩

/-- The last identifier is at the last position. -/
theorem Maps.position_last (h : Maps x m) (hlast : x.ids[x.ids.length - 1]? = some id)
    {id' : UInt64} {j : ℕ} (hj : x.position id' = some j) :
    j + 1 = x.ids.length ↔ id = id' := by
  have hget := (h.placed id' j).mp hj
  constructor
  · intro hj'
    rw [show j = x.ids.length - 1 by omega, hlast] at hget
    exact Option.some_inj.mp hget
  · rintro rfl
    rw [(h.placed id _).mpr hlast] at hj
    have hlt := h.lt_length ((h.placed id _).mpr hlast)
    have hj' := Option.some_inj.mp hj
    omega

theorem Maps.delete_last (h : Maps x m) (hh : Holds x rows) (hlast : x.ids.getLast? = some id) :
    ∃ y, x.step (.delete id) = some y ∧ Maps y (Function.update m id none) := by
  have hlen : x.ids.length - 1 + 1 = x.ids.length := by
    have hpos := List.length_pos_of_mem (List.mem_of_getLast? hlast)
    omega
  rw [List.getLast?_eq_getElem?] at hlast
  obtain ⟨y, hy, hholds, -, hids, hpos⟩ := hh.delete_at hlast
  rw [swapRemove_last hlen] at hids
  rw [swapRemove_last (hlen.trans hh.length.symm)] at hholds
  refine ⟨y, hy, hholds.maps (fun id' j ↦ ?_) fun id' ↦ ?_⟩
  · rw [hpos, hids, getElem?_dropLast_eq_some, ← h.placed]
    by_cases he : id = id'
    · rw [if_pos he]
      exact iff_of_false nofun fun h' ↦ h'.2 ((h.position_last hlast h'.1).mpr he)
    · rw [if_neg he, iff_self_and]
      exact fun hj hj' ↦ he ((h.position_last hlast hj).mp hj')
  · rw [hpos]
    by_cases he : id = id'
    · rw [if_pos he, he, Function.update_self]
      rfl
    · rw [if_neg he, Function.update_of_ne (Ne.symm he), ← h.bind_eq hh]
      refine Option.bind_congr fun j hj ↦ ?_
      have hlt := h.lt_length hj
      have hne := mt (h.position_last hlast hj).mp he
      rw [List.getElem?_dropLast, if_pos]
      rw [hh.length]
      omega

theorem Maps.delete (h : Maps x m) (hh : Holds x rows) (hs : Safe x (.delete id)) :
    ∃ y, x.step (.delete id) = some y ∧ Maps y (update x.dim m (.delete id)) := by
  by_cases hid : id ∈ x.ids
  · exact h.delete_last hh (hs hid)
  · refine ⟨x, delete_absent hid, ?_⟩
    have hnone : m id = none := by
      rw [← h.stored, Raw.stored, Option.map_eq_none_iff, ← Option.not_isSome_iff_eq_none, hh.known]
      exact hid
    rwa [update, ← hnone, Function.update_eq_self]

end

/-- If another vector takes the place, the positions are wrong afterwards. -/
theorem not_maps_delete (hh : Holds x rows)
    (hp : ∀ id i, x.position id = some i ↔ x.ids[i]? = some id) (hs : ¬ Safe x (.delete id))
    (hy : x.step (.delete id) = some y) (m : UInt64 → Option (List F)) : ¬ Maps y m := by
  intro hm
  simp only [Safe, Classical.not_imp] at hs
  obtain ⟨hid, hlast⟩ := hs
  obtain ⟨i, hi⟩ := List.getElem?_of_mem hid
  obtain ⟨z, hz, -, -, hids, hpos⟩ := hh.delete_at hi
  obtain rfl := Option.some_inj.mp (hz.symm.trans hy)
  obtain ⟨last, hl⟩ : ∃ last, x.ids.getLast? = some last :=
    ⟨_, List.getLast?_eq_some_getLast (List.ne_nil_of_mem hid)⟩
  have hne : id ≠ last := by
    rintro rfl
    exact hlast hl
  rw [List.getLast?_eq_getElem?] at hl
  -- the one that was moved is still said to be at the last position
  have hmoved : z.position last = some (x.ids.length - 1) := by
    rw [hpos, if_neg hne, hp]
    exact hl
  have hlt := (List.getElem?_eq_some_iff.mp ((hm.placed _ _).mp hmoved)).1
  rw [hids, length_swapRemove] at hlt
  exact Nat.lt_irrefl _ hlt

/-- In all states of a run the index is that of a finite map, and an operation that has nothing to
do changes nothing. -/
def FiniteMap : List (Op F) → Raw F → (UInt64 → Option (List F)) → Prop
  | [], x, m => x.Maps m
  | op :: ops, x, m => x.Maps m ∧
    ∃ y, x.step op = some y ∧ (x.Idle op → y = x) ∧ FiniteMap ops y (update x.dim m op)

/-- All operations of a run are safe. -/
def AllSafe : List (Op F) → Raw F → Prop
  | [], _ => True
  | op :: ops, x => x.Safe op ∧ ∀ y ∈ x.step op, AllSafe ops y

theorem step_idle {op : Op F} (h : x.Idle op) : x.step op = some x := by
  cases op with
  | insert id v => rw [step, insert_rejected h]; rfl
  | delete id => exact delete_absent h

theorem FiniteMap.maps {ops : List (Op F)} {m : UInt64 → Option (List F)}
    (h : FiniteMap ops x m) : x.Maps m := by
  cases ops with
  | nil => exact h
  | cons op ops => exact h.1

theorem Maps.step {m : UInt64 → Option (List F)} (h : Maps x m) (hh : Holds x rows) {op : Op F}
    (hs : x.Safe op) : ∃ y, x.step op = some y ∧ Maps y (update x.dim m op) := by
  cases op with
  | insert id v => exact h.insert hh id v
  | delete id => exact h.delete hh hs

theorem Maps.finiteMap_iff {m : UInt64 → Option (List F)} (h : Maps x m) (hh : Holds x rows)
    (ops : List (Op F)) : FiniteMap ops x m ↔ AllSafe ops x := by
  induction ops generalizing x m rows with
  | nil => exact iff_of_true h trivial
  | cons op ops ih =>
    by_cases hs : x.Safe op
    · obtain ⟨y, hy, hmaps⟩ := h.step hh hs
      obtain ⟨rows', hholds, -⟩ := hh.step hy
      rw [FiniteMap, AllSafe, and_iff_right h, and_iff_right hs]
      constructor
      · rintro ⟨z, hz, -, hrest⟩ w hw
        obtain rfl := Option.some_inj.mp (hz.symm.trans hw)
        obtain rfl := Option.some_inj.mp (hz.symm.trans hy)
        exact (ih hmaps hholds).mp hrest
      · intro hrest
        refine ⟨y, hy, fun hidle ↦ ?_, (ih hmaps hholds).mpr (hrest y hy)⟩
        exact Option.some_inj.mp (hy.symm.trans (step_idle hidle))
    · refine iff_of_false ?_ fun h' ↦ hs h'.1
      rintro ⟨-, y, hy, -, hrest⟩
      cases op with
      | insert id v => exact hs trivial
      | delete id => exact not_maps_delete hh h.placed hs hy _ hrest.maps

/-- **When an index is a finite map.**  For all dimensions and all sequences of operations: nothing
panics, and in every state the parts of the index are in step and hold the vector that was inserted
last for each identifier, exactly if every vector that is deleted is the last one in the index. -/
theorem finite_map_iff (n : ℕ) (ops : List (Op F)) :
    FiniteMap ops (new n) (fun _ ↦ none) ↔ AllSafe ops (new n) :=
  (maps_new n).finiteMap_iff (holds_new n) ops

/-- Of two vectors the first is deleted, and the second is set again: this panics. -/
theorem not_finite_map :
    ¬ ∀ (n : ℕ) (ops : List (Op ℕ)), FiniteMap ops (new n) fun _ ↦ none := by
  intro h
  obtain ⟨-, y₁, hy₁, -, -, y₂, hy₂, -, -, y₃, hy₃, -, -, y₄, hy₄, -⟩ :=
    h 1 [.insert 10 [1], .insert 20 [2], .delete 10, .insert 20 [3]]
  obtain rfl := Option.some_inj.mp hy₁
  obtain rfl := Option.some_inj.mp hy₂
  obtain rfl := Option.some_inj.mp hy₃
  cases hy₄

end Raw

/-! ## Indices from which nothing is deleted -/

variable {x y : FlatIndex F} {id : UInt64} {v : List F}

theorem insert_eq_ok_iff : (∃ y, x.insert id v = .ok y) ↔ v.length = x.dim := by
  by_cases hv : v.length = x.dim
  · refine iff_of_true ?_ hv
    rw [insert, dif_pos hv]
    split
    · exact ⟨_, rfl⟩
    · exact ⟨_, rfl⟩
  · refine iff_of_false ?_ hv
    rw [insert, dif_neg hv]
    rintro ⟨y, hy⟩
    cases hy

/-- **The operations are the same.** -/
theorem insert_raw (h : x.insert id v = .ok y) : x.raw.insert id v = some (.ok (), y.raw) := by
  have hv : v.length = x.dim := insert_eq_ok_iff.mp ⟨y, h⟩
  have hv' : ¬ v.length ≠ x.raw.dim := not_not.mpr hv
  rw [insert, dif_pos hv] at h
  rw [Raw.insert, if_neg hv', Raw.position]
  split at h
  · rename_i p hfind
    obtain rfl := Except.ok.inj h
    have hlt := x.lt_length_ids p (List.mem_of_find?_eq_some hfind)
    have hle : x.dim * p.2 + v.length ≤ x.vecs.length := by
      rw [x.length_vecs, hv, ← Nat.mul_succ]
      exact Nat.mul_le_mul_left _ hlt
    have hfind' : x.raw.idset.find? (·.1 = id) = some p := hfind
    rw [hfind', Option.map_some]
    simp only
    rw [show x.raw.vecs = x.vecs from rfl, show x.raw.dim = x.dim from rfl, writeFrom_eq hle,
      Option.map_some, hv]
    rfl
  · rename_i hfind
    obtain rfl := Except.ok.inj h
    have hfind' : x.raw.idset.find? (·.1 = id) = none := hfind
    rw [hfind', Option.map_none]
    rfl

/-- An index that was made with `new` and `insert`. -/
inductive Built : FlatIndex F → Prop
  | new (n : ℕ) : Built (FlatIndex.new n)
  | insert {x y : FlatIndex F} {id : UInt64} {v : List F} (h : Built x)
      (hy : x.insert id v = .ok y) : Built y

theorem Built.reach (h : Built x) :
    ∃ n, Reach Raw.step (fun _ op ↦ ∃ id v, op = .insert id v) (Raw.new n) x.raw := by
  induction h with
  | new n => exact ⟨n, .start⟩
  | @insert x y id v _ hy ih =>
    obtain ⟨n, hn⟩ := ih
    refine ⟨n, hn.step ⟨id, v, rfl⟩ ?_⟩
    rw [Raw.step, insert_raw hy]
    rfl

/-- Along a run without `delete` the index is that of a finite map. -/
theorem Raw.maps_of_reach {n : ℕ} {x : Raw F}
    (h : Reach Raw.step (fun _ op ↦ ∃ id v, op = .insert id v) (Raw.new n) x) :
    (∃ rows, x.Holds rows) ∧ x.Maps x.stored := by
  have hinv : ∃ rows m, x.Holds rows ∧ x.Maps m := by
    apply h.inv
    · exact ⟨[], _, holds_new n, maps_new n⟩
    · rintro s a s' ⟨rows, m, hh, hm⟩ ⟨id, v, rfl⟩ hs
      obtain ⟨y, hy, hmaps⟩ := hm.insert hh id v
      obtain rfl := Option.some_inj.mp (hy.symm.trans hs)
      obtain ⟨rows', hholds, -⟩ := hh.step hs
      exact ⟨rows', _, hholds, hmaps⟩
  obtain ⟨rows, m, hh, hm⟩ := hinv
  exact ⟨⟨rows, hh⟩, hm.nodup, hm.length, hm.placed, fun _ ↦ rfl⟩

end FlatIndex

end Efis
