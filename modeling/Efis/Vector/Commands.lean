import Efis.Rpc.Codec
import Efis.Store.Progress
import Efis.Vector.Search

/-!
# Commands on vectors

`_vset` makes an index if there is no value, and inserts the vectors one by one.  It does not look
at what the insertions say, and where the value is of another kind it does nothing; in any case the
answer is `ok`.  So the answer tells the truth exactly if there is nothing to complain of: the
value, if there is one, is an index, and all vectors have its size (`vset_stores_iff`).

`_vdel` has the identifier of a vector, and does not look at it.  The whole index is removed, so
that nothing of what a deletion of one vector should keep is there (`vdel_not_kept`).

Nothing is ever deleted from an index in the store.  Each of them was made by insertions alone
(`Indexed`), and is a finite map.
-/

set_option autoImplicit false

namespace Efis

open FlatIndex Rpc Transition

variable {F : Type}

/-! ## The indices in a store -/

/-- An index was made by insertions. -/
def Value.Whole : Value F → Prop
  | .vector x => x.Built
  | _ => True

/-- So is every index in a store. -/
def Indexed (d : Items F) : Prop :=
  ∀ key, ∀ item ∈ d key, item.value.Whole

/-- A call that writes no other indices. -/
def Call.WritesWhole : Call F → Prop
  | .set _ value _ => value.Whole
  | .modify _ f => ∀ v : Value F, v.Whole → (f v).1.Whole
  | .get _ | .remove _ | .expire _ _ => True

/-- All calls that a program can make. -/
def WritesWhole : ApplyProg F → Prop
  | .ret _ => True
  | .fail => True
  | .call c k => c.WritesWhole ∧ ∀ r, WritesWhole (k r)

section

variable {num : Numeric} {shard : String → ℕ} {ms : ℕ → Moment} {d d' : Items F}

theorem indexed_empty : Indexed (fun _ ↦ none : Items F) := by
  intro key item h
  cases h

theorem Indexed.insert (h : Indexed d) (key : String) {item : Item F} (hi : item.value.Whole) :
    Indexed (Function.update d key (some item)) :=
  (Function.forall_update_iff d fun _ o ↦ ∀ item ∈ o, item.value.Whole).mpr
    ⟨by simpa using hi, fun k _ ↦ h k⟩

theorem indexed_iff {s : Datastore F} :
    Indexed s.data ↔ ∀ key, ∀ v ∈ s.values key, v.Whole := by
  simp [Indexed, Datastore.values]

/-- A call is known by what it does to the values. -/
theorem Call.WritesWhole.eval {c : Call F} (hc : c.WritesWhole) {m : String → Option (Value F)}
    (hm : ∀ key, ∀ v ∈ m key, v.Whole) : ∀ key, ∀ v ∈ (c.eval m).2 key, v.Whole := by
  have hupdate : ∀ (key : String) {o : Option (Value F)}, (∀ v ∈ o, v.Whole) →
      ∀ k, ∀ v ∈ Function.update m key o k, v.Whole := fun key o ho ↦
    (Function.forall_update_iff m fun _ o ↦ ∀ v ∈ o, v.Whole).mpr ⟨ho, fun k _ ↦ hm k⟩
  cases c with
  | set key value exp => exact hupdate key (by simpa [Call.WritesWhole] using hc)
  | get key => exact hm
  | remove key => exact hupdate key (by simp)
  | expire key secs => exact hm
  | modify key f =>
    rw [Call.eval]
    split
    · rename_i v hv
      have hf := hc v (hm key v hv)
      exact hupdate key (by simpa using hf)
    · exact hm

theorem Indexed.perform (h : Indexed d) {now : ℕ} {stuck : List ℕ} {c : Call F} (hc : c.WritesWhole)
    {r : c.Resp} {s : Datastore F} (hp : c.perform shard now ⟨d, stuck⟩ = .done (r, s)) :
    Indexed s.data := by
  have hvalues := hc.eval (indexed_iff (s := ⟨d, stuck⟩).mp h)
  rw [c.eval_of_perform hp] at hvalues
  exact indexed_iff.mpr hvalues

theorem Indexed.execAt (h : Indexed d) {p : ApplyProg F} (hk : WritesWhole p) {a : Option LateRes}
    (hp : execAt shard p ms d = .done (a, d')) : Indexed d' := by
  induction p generalizing d ms with
  | ret b =>
    obtain ⟨-, rfl⟩ := CallResult.pair_inj hp
    exact h
  | fail => cases hp
  | call c k ih =>
    rw [Efis.execAt] at hp
    split at hp
    · rename_i r s hs
      exact ih r (h.perform hk.1 hs) (hk.2 r) hp
    · cases hp
    · cases hp

/-! ## All commands -/

theorem writesWhole_removeKey (key : String) : WritesWhole (Apply.removeKey key : ApplyProg F) :=
  ⟨trivial, fun r ↦ by cases r <;> exact trivial⟩

theorem writesWhole_bumpKey (op : String → Option String) (key : String) :
    WritesWhole (Apply.bumpKey op key : ApplyProg F) := by
  refine ⟨fun v hv ↦ ?_, fun r ↦ ?_⟩
  · cases v <;> exact hv
  · cases r with
    | none => exact trivial
    | some o =>
      refine ⟨trivial, fun v ↦ ?_⟩
      rcases v with _ | v
      · exact trivial
      · cases v <;> exact trivial

theorem writesWhole_rebuild (key : String) (empty : Value F) (he : empty.Whole)
    {f : Value F → Value F} (hf : ∀ v : Value F, v.Whole → (f v).Whole) :
    WritesWhole (Apply.rebuild key empty f) :=
  ⟨he, fun _ ↦ ⟨hf, fun r ↦ by cases r <;> exact trivial⟩⟩

theorem writesWhole_pop (key : String) (f : List String → Option String × List String) :
    WritesWhole (Apply.pop key f : ApplyProg F) := by
  refine ⟨fun v hv ↦ ?_, fun r ↦ ?_⟩
  · cases v <;> exact hv
  · rcases r with _ | _ | s <;> exact trivial

theorem built_insertAll {x : FlatIndex F} (h : x.Built) (vecs : List (VecReq F)) :
    (Apply.insertAll x vecs).Built := by
  induction vecs generalizing x with
  | nil => exact h
  | cons v vecs ih =>
    rw [Apply.insertAll, List.foldl_cons]
    refine ih ?_
    cases hy : x.insert v.id v.vec with
    | ok y => exact h.insert hy
    | error e => exact h

theorem writesWhole_fillIndex (req : VSetReq F) : WritesWhole (Apply.fillIndex req) := by
  refine ⟨fun v hv ↦ ?_, fun r ↦ by cases r <;> exact trivial⟩
  cases v with
  | vector x => exact built_insertAll hv req.vecs
  | _ => exact hv

theorem writesWhole_vset (req : VSetReq F) : WritesWhole (Apply.vset req) := by
  refine ⟨trivial, fun r ↦ ?_⟩
  cases r with
  | some v => exact writesWhole_fillIndex req
  | none =>
    simp only
    split
    · exact trivial
    · exact ⟨.new _, fun _ ↦ writesWhole_fillIndex req⟩

theorem Command.writesWhole (num : Numeric) (c : Command F) : WritesWhole (c.program num) := by
  cases c with
  | set req => exact ⟨trivial, fun _ ↦ trivial⟩
  | delete req => exact writesWhole_removeKey _
  | increment req => exact writesWhole_bumpKey _ _
  | decrement req => exact writesWhole_bumpKey _ _
  | expire req => exact ⟨trivial, fun r ↦ by cases r <;> exact trivial⟩
  | lpush req => exact writesWhole_rebuild _ (.list []) trivial fun v hv ↦ by cases v <;> exact hv
  | lpop req => exact writesWhole_pop _ _
  | rpush req => exact writesWhole_rebuild _ (.list []) trivial fun v hv ↦ by cases v <;> exact hv
  | rpop req => exact writesWhole_pop _ _
  | sadd req => exact writesWhole_rebuild _ (.set ∅) trivial fun v hv ↦ by cases v <;> exact hv
  | zadd req =>
    exact writesWhole_rebuild _ (.sortedSet []) trivial fun v hv ↦ by cases v <;> exact hv
  | publish req => exact trivial
  | vset req => exact writesWhole_vset req
  | vdel req => exact writesWhole_removeKey _
  | unknown => exact trivial

/-- **Whatever commands are applied, all indices were made by insertions.** -/
theorem Indexed.applyAll (h : Indexed d) {work : List (Command F × (ℕ → Moment))}
    {as : List (Option LateRes)} (hw : applyAll num shard work d = .done (as, d')) :
    Indexed d' := by
  induction work generalizing d as with
  | nil =>
    obtain ⟨-, rfl⟩ := CallResult.pair_inj hw
    exact h
  | cons w work ih =>
    obtain ⟨a, d₁, as', ha, has, -⟩ := applyAll_cons.mp hw
    exact ih (h.execAt (w.1.writesWhole num) ha) has

end

/-! ## Setting vectors -/

/-- The last vector that is given for an identifier. -/
def lastGiven (vecs : List (VecReq F)) (id : UInt64) : Option (List F) :=
  (vecs.filter fun v ↦ decide (v.id = id)).getLast?.map VecReq.vec

/-- The vector that is there for an identifier. -/
def storedVector (d : Items F) (key : String) (id : UInt64) : Option (List F) :=
  match (d key).map Item.value with
  | some (.vector x) => x.raw.stored id
  | _ => none

/-- The size of the vectors in an index. -/
def Value.size : Value F → Option ℕ
  | .vector x => some x.dim
  | _ => none

/-- The size that the vectors have to have: that of the index, or of the first vector if there is no
value.  `none` if the value is of another kind. -/
def indexSize (d : Items F) (req : VSetReq F) : Option ℕ :=
  match d req.key with
  | some item => item.value.size
  | none => req.vecs.head?.map fun v ↦ v.vec.length

/-- The vectors can be stored. -/
def Fits (d : Items F) (req : VSetReq F) : Prop :=
  ∀ v ∈ req.vecs, indexSize d req = some v.vec.length

instance (d : Items F) (req : VSetReq F) : Decidable (Fits d req) :=
  inferInstanceAs (Decidable (∀ v ∈ req.vecs, indexSize d req = some v.vec.length))

/-- If the answer is `ok`, the key has the given vectors and those that were there, and nothing else
has changed.  If they cannot be stored, the answer is an error and nothing has changed. -/
def VsetStores (shard : String → ℕ) (ms : ℕ → Moment) (d : Items F) (req : VSetReq F) : Prop :=
  (∀ status d', execAt shard (Apply.vset req) ms d = .done (some (.ok status), d') →
    (∃ x expiry, d' req.key = some ⟨.vector x, expiry⟩ ∧
      x.raw.Maps fun id ↦ (lastGiven req.vecs id).or (storedVector d req.key id)) ∧
    ∀ key ≠ req.key, d' key = d key) ∧
  (¬ Fits d req → ∃ msg, execAt shard (Apply.vset req) ms d = .done (some (.err msg), d))

theorem insertAll_raw (x : FlatIndex F) (vecs : List (VecReq F)) :
    (vecs.map fun v ↦ (v.id, v.vec)).foldlM (fun x p ↦ x.step (.insert p.1 p.2)) x.raw =
      some (Apply.insertAll x vecs).raw := by
  induction vecs generalizing x with
  | nil => rfl
  | cons v vecs ih =>
    rw [List.map_cons, List.foldlM_cons]
    have hstep : x.raw.step (.insert v.id v.vec) =
        some ((x.insert v.id v.vec).toOption.getD x).raw := by
      cases hy : x.insert v.id v.vec with
      | ok y =>
        rw [Raw.step, insert_raw hy]
        rfl
      | error e =>
        have hv : v.vec.length ≠ x.raw.dim := by
          intro hv
          obtain ⟨y, hok⟩ := insert_eq_ok_iff.mpr hv
          rw [hy] at hok
          cases hok
        rw [Raw.step, Raw.insert_rejected hv]
        rfl
    rw [hstep]
    exact ih _

theorem lastVector_eq_lastGiven {n : ℕ} {vecs : List (VecReq F)}
    (h : ∀ v ∈ vecs, v.vec.length = n) (id : UInt64) :
    Raw.lastVector n (vecs.map fun v ↦ (v.id, v.vec)) id = lastGiven vecs id := by
  have hall : Raw.accepted n (vecs.map fun v ↦ (v.id, v.vec)) =
      vecs.map fun v ↦ (v.id, v.vec) := by
    refine List.filter_eq_self.mpr fun p hp ↦ ?_
    obtain ⟨v, hv, rfl⟩ := List.mem_map.mp hp
    exact decide_eq_true (h v hv)
  rw [Raw.lastVector, hall, List.filter_map, List.getLast?_map, Option.map_map]
  rfl

/-- **The loop of `_vset`**, if all vectors have the size of the index. -/
theorem maps_insertAll {x : FlatIndex F} (h : x.Built) {vecs : List (VecReq F)}
    (hv : ∀ v ∈ vecs, v.vec.length = x.dim) :
    (Apply.insertAll x vecs).raw.Maps fun id ↦ (lastGiven vecs id).or (x.raw.stored id) := by
  obtain ⟨n, hreach⟩ := h.reach
  obtain ⟨⟨rows, hh⟩, hm⟩ := Raw.maps_of_reach hreach
  obtain ⟨y, -, hy, -, -, hmaps⟩ := hm.insertAll hh rfl (vecs.map fun v ↦ (v.id, v.vec))
  rw [insertAll_raw] at hy
  obtain rfl := Option.some_inj.mp hy
  have hv' : ∀ v ∈ vecs, v.vec.length = x.raw.dim := hv
  simp only [lastVector_eq_lastGiven hv'] at hmaps
  exact hmaps

section

variable {shard : String → ℕ} {ms : ℕ → Moment} {d d' : Items F} {req : VSetReq F}
  {a : Option LateRes}

/-- The modifier of `_vset`. -/
def fill (vecs : List (VecReq F)) : Value F → Value F
  | .vector x => .vector (Apply.insertAll x vecs)
  | v => v

theorem execAt_fillIndex {item : Item F} (hd : d req.key = some item)
    (h : execAt shard (Apply.fillIndex req) ms d = .done (a, d')) :
    a = some (.ok "ok") ∧
      d' = Function.update d req.key (some ⟨fill req.vecs item.value, item.expiry⟩) := by
  rw [Apply.fillIndex, execAt] at h
  split at h
  · rename_i r s hs
    have hs := Call.exclusive_done hs
    simp only [hd] at hs
    obtain ⟨rfl, rfl⟩ := CallResult.pair_inj hs
    obtain ⟨rfl, rfl⟩ := CallResult.pair_inj h
    refine ⟨rfl, ?_⟩
    cases item.value <;> rfl
  · cases h
  · cases h

/-- What `_vset` leaves, if it returns.  The answer is always the same. -/
theorem execAt_vset (h : execAt shard (Apply.vset req) ms d = .done (a, d')) :
    a = some (.ok "ok") ∧
      ((∃ item, d req.key = some item ∧
          d' = Function.update d req.key (some ⟨fill req.vecs item.value, item.expiry⟩)) ∨
        ∃ v, d req.key = none ∧ req.vecs.head? = some v ∧
          d' = Function.update d req.key
            (some ⟨.vector (Apply.insertAll (.new v.vec.length) req.vecs), none⟩)) := by
  rw [Apply.vset, execAt] at h
  split at h
  · rename_i r s hs
    obtain ⟨rfl, hdata⟩ := perform_get hs
    rw [hdata] at h
    cases hitem : d req.key with
    | some item =>
      rw [hitem] at h
      obtain ⟨ha, hd'⟩ := execAt_fillIndex hitem h
      exact ⟨ha, Or.inl ⟨item, rfl, hd'⟩⟩
    | none =>
      rw [hitem] at h
      cases hv : req.vecs with
      | nil =>
        simp only [hv, Option.map_none] at h
        cases h
      | cons v vs =>
        simp only [hv, Option.map_none] at h
        rw [execAt] at h
        split at h
        · rename_i r t ht
          obtain ⟨-, rfl⟩ := CallResult.pair_inj (Call.exclusive_done ht)
          obtain ⟨ha, hd'⟩ := execAt_fillIndex (Function.update_self ..) h
          refine ⟨ha, Or.inr ⟨v, rfl, rfl, ?_⟩⟩
          rw [hd', hv]
          exact Function.update_idem ..
        · cases h
        · cases h
  · cases h
  · cases h

/-- An `ok` after which everything is stored. -/
theorem Fits.stores (hd : Indexed d) (hvecs : req.vecs ≠ []) (hfits : Fits d req)
    (h : execAt shard (Apply.vset req) ms d = .done (a, d')) :
    (∃ x expiry, d' req.key = some ⟨.vector x, expiry⟩ ∧
      x.raw.Maps fun id ↦ (lastGiven req.vecs id).or (storedVector d req.key id)) ∧
    ∀ key ≠ req.key, d' key = d key := by
  obtain ⟨-, ⟨⟨value, expiry⟩, hitem, rfl⟩ | ⟨v, hnone, hv, rfl⟩⟩ := execAt_vset h
  · refine ⟨?_, fun key hkey ↦ Function.update_of_ne hkey ..⟩
    obtain ⟨v, hv⟩ := List.exists_mem_of_ne_nil _ hvecs
    have hsize : indexSize d req = value.size := by rw [indexSize, hitem]
    cases value with
    | vector x =>
      refine ⟨_, _, Function.update_self .., ?_⟩
      have hfits' : ∀ w ∈ req.vecs, w.vec.length = x.dim := by
        intro w hw
        exact (Option.some_inj.mp (hsize.symm.trans (hfits w hw))).symm
      simp only [storedVector, hitem, Option.map_some]
      exact maps_insertAll (hd _ _ hitem) hfits'
    | _ => exact absurd (hsize.symm.trans (hfits v hv)) nofun
  · refine ⟨?_, fun key hkey ↦ Function.update_of_ne hkey ..⟩
    have hsize : ∀ w ∈ req.vecs, w.vec.length = v.vec.length := by
      intro w hw
      have hlen := hfits w hw
      rw [indexSize, hnone, hv] at hlen
      exact (Option.some_inj.mp hlen).symm
    refine ⟨_, _, Function.update_self .., ?_⟩
    simp only [storedVector, hnone, Option.map_none]
    exact maps_insertAll (.new _) hsize

end

/-- **When an `ok` is to be trusted.**  For every store, whatever is under the key, and whenever the
calls are made: if `_vset` answers `ok`, the last of the given vectors of each identifier is stored
and the others are as they were, and if this cannot be done it fails and changes nothing, exactly if
the value is an index, or there is none, and all vectors have the same size as it or as the first of
them. -/
theorem vset_stores_iff (shard : String → ℕ) (ms : ℕ → Moment) {d : Items F} (hd : Indexed d)
    {req : VSetReq F} (hvecs : req.vecs ≠ []) : VsetStores shard ms d req ↔ Fits d req := by
  refine ⟨fun h ↦ ?_, fun hfits ↦ ⟨fun status d' h ↦ hfits.stores hd hvecs h, absurd hfits⟩⟩
  by_contra hfits
  obtain ⟨msg, herr⟩ := h.2 hfits
  obtain ⟨hok, -⟩ := execAt_vset herr
  cases hok

/-- A store with one index, of two vectors. -/
def twoVectors : Items ℕ :=
  Function.update (fun _ ↦ none) "v"
    (some ⟨.vector (Apply.insertAll (.new 1) [⟨1, [5]⟩, ⟨2, [7]⟩]), none⟩)

theorem indexed_twoVectors : Indexed twoVectors :=
  indexed_empty.insert "v" (built_insertAll (.new 1) _)

/-- A new vector, and two for an identifier that is there. -/
theorem vset_stores_iff_two :
    VsetStores (fun _ ↦ 0) (fun _ ↦ ⟨0, []⟩) twoVectors
      ⟨"v", [⟨2, [6]⟩, ⟨3, [8]⟩, ⟨2, [9]⟩]⟩ :=
  (vset_stores_iff (fun _ ↦ 0) (fun _ ↦ ⟨0, []⟩) indexed_twoVectors (by decide)).mpr
    (by decide +kernel)

/-- A text is under the key.  The answer is `ok`, and there is no index. -/
theorem not_vset_stores :
    ¬ ∀ (d : Items ℕ) (req : VSetReq ℕ), Indexed d → req.vecs ≠ [] →
      VsetStores (fun _ ↦ 0) (fun _ ↦ ⟨0, []⟩) d req := by
  intro h
  have hd : Indexed (Function.update (fun _ ↦ none) "k" (some ⟨.text "a", none⟩) : Items ℕ) :=
    indexed_empty.insert "k" trivial
  obtain ⟨hok, -⟩ := h _ ⟨"k", [⟨1, [5]⟩]⟩ hd (by decide)
  obtain ⟨⟨x, expiry, hx, -⟩, -⟩ := hok "ok" _ rfl
  cases hx

/-! ## Deleting a vector -/

/-- What a deletion of one vector is to leave: the index, in which no search finds the identifier
and the other vectors are what they were, and all other keys. -/
def VdelKeeps (A : Arith F) (S : Slices) (d d' : Items F) (key : String) (x : FlatIndex F)
    (id : UInt64) : Prop :=
  (∃ y expiry, d' key = some ⟨.vector y, expiry⟩ ∧
    (∀ query k df res, y.raw.search A S query k df = some res → id ∉ res.map Prod.fst) ∧
    (∀ id' ≠ id, y.raw.stored id' = x.raw.stored id') ∧
    ∀ query k df res, x.ids.length ≤ k → y.raw.search A S query k df = some res →
      ∀ id', id' ∈ res.map Prod.fst ↔ id' ≠ id ∧ (x.raw.stored id').isSome = true) ∧
  ∀ k ≠ key, d' k = d k

/-- **A deletion never leaves the index.**  Whatever index is under the key, whichever of its
vectors is named and whenever the call is made: it returns if nobody is in its way, the answer is
`ok`, and what it is to leave is not there. -/
theorem vdel_not_kept (A : Arith F) (S : Slices) (shard : String → ℕ) (ms : ℕ → Moment)
    {d : Items F} {req : VDelReq} {x : FlatIndex F} {expiry : Option ℕ} {id : UInt64}
    (hd : d req.key = some ⟨.vector x, expiry⟩)
    (_ : (deserialize req.id.toList : Res UInt64) = .ok id)
    (_ : (x.raw.stored id).isSome = true) :
    ((ms 0).Free shard req.key → ∃ r, execAt shard (Apply.vdel req) ms d = .done r) ∧
    ∀ a d', execAt shard (Apply.vdel req) ms d = .done (a, d') →
      a = some (.ok "ok") ∧ ¬ VdelKeeps A S d d' req.key x id := by
  refine ⟨(returns_removeKey req.key).mpr, fun a d' h ↦ ?_⟩
  rw [Apply.vdel, Apply.removeKey, execAt] at h
  split at h
  · rename_i r s hs
    obtain ⟨rfl, rfl⟩ := CallResult.pair_inj (Call.exclusive_done hs)
    simp only [hd, Option.isSome_some] at h
    obtain ⟨rfl, rfl⟩ := CallResult.pair_inj h
    refine ⟨rfl, ?_⟩
    rintro ⟨⟨y, expiry', hy, -⟩, -⟩
    rw [show (Datastore.insert _ req.key none).data req.key = none from
      Function.update_self ..] at hy
    cases hy
  · cases h
  · cases h

/-- The first of two vectors. -/
theorem vdel_not_kept_first :
    ∃ d', execAt (fun _ ↦ 0) (Apply.vdel ⟨"v", "1"⟩) (fun _ ↦ ⟨0, []⟩) twoVectors =
      .done (some (.ok "ok"), d') ∧
        ¬ VdelKeeps Raw.natArith Raw.plainSlices twoVectors d' "v"
          (Apply.insertAll (.new 1) [⟨1, [5]⟩, ⟨2, [7]⟩]) 1 := by
  let req : VDelReq := ⟨"v", "1"⟩
  have hd : twoVectors req.key =
      some ⟨.vector (Apply.insertAll (.new 1) [⟨1, [5]⟩, ⟨2, [7]⟩]), none⟩ :=
    Function.update_self ..
  have hid : (deserialize req.id.toList : Res UInt64) = .ok 1 := by decide +kernel
  obtain ⟨hreturns, hanswer⟩ := vdel_not_kept Raw.natArith Raw.plainSlices (fun _ ↦ 0)
    (fun _ ↦ ⟨0, []⟩) hd hid (by decide +kernel)
  obtain ⟨⟨a, d'⟩, h⟩ := hreturns List.not_mem_nil
  obtain ⟨rfl, hkeeps⟩ := hanswer a d' h
  exact ⟨d', h, hkeeps⟩

/-- The second vector is gone as well. -/
theorem not_vdel_keeps :
    ¬ ∀ (d d' : Items ℕ) (req : VDelReq) (x : FlatIndex ℕ) (expiry : Option ℕ) (id : UInt64),
      d req.key = some ⟨.vector x, expiry⟩ →
      (deserialize req.id.toList : Res UInt64) = .ok id → (x.raw.stored id).isSome = true →
      execAt (fun _ ↦ 0) (Apply.vdel req) (fun _ ↦ ⟨0, []⟩) d = .done (some (.ok "ok"), d') →
      VdelKeeps Raw.natArith Raw.plainSlices d d' req.key x id := by
  intro h
  obtain ⟨⟨y, expiry, hy, -⟩, -⟩ := h twoVectors _ ⟨"v", "1"⟩
    (Apply.insertAll (.new 1) [⟨1, [5]⟩, ⟨2, [7]⟩]) none 1 (Function.update_self ..)
    (by decide +kernel) (by decide +kernel) rfl
  cases hy

end Efis
