import Efis.Storage.ConFile

/-!
# Metadata of several storages

`write_metadata_optimized` does not write when term and vote are those that were written last.  What
was written last is kept in a static, so it is the same for all storages of a process, whatever
their directories; and the comparison leaves `last_applied` out.

Here the storages of a process are taken together: the metadata file of each directory, and
`LAST_METADATA`.  What a directory holds in the end is the state of its last fresh call, one whose
term or vote were not those of the call before it in the process (`lastFresh`).  So `restore` agrees
with the last `store` exactly if this state is the one that was given last
(`restore_agrees_iff`).
-/

set_option autoImplicit false

namespace Efis

open Bytes

/-- The metadata files of the directories that the storages of a process use, and what the process
wrote last. -/
structure Metadata (D : Type) where
  files : D → Option (List UInt8)
  last : Option PersistentState

/-- Term and vote are not those of the state before. -/
def Fresh (before : Option PersistentState) (state : PersistentState) : Prop :=
  (before.map fun l ↦ (l.currentTerm, l.votedFor)) ≠ some (state.currentTerm, state.votedFor)

instance (before : Option PersistentState) (state : PersistentState) :
    Decidable (Fresh before state) :=
  inferInstanceAs (Decidable (_ ≠ _))

namespace Metadata

variable {E D I : Type} [DecidableEq D]

section

variable (d : Codec PersistentState) (dir : I → D) (storage : I → ConFileStorage E)

/-- One of the storages, with its metadata file and the static. -/
def view (p : Metadata D) (i : I) : ConFileStorage E :=
  { storage i with metaFile := p.files (dir i), lastMetadata := p.last }

/-- `store` on one of the storages.  `none` if it returns `Err`. -/
def store (p : Metadata D) (call : I × PersistentState) : Option (Metadata D) :=
  match (p.view dir storage call.1).store d call.2 with
  | (true, s) => some ⟨Function.update p.files (dir call.1) s.metaFile, s.lastMetadata⟩
  | (false, _) => none

/-- Calls of `store` that all return `Ok`. -/
def storeAll (calls : List (I × PersistentState)) (p : Metadata D) : Option (Metadata D) :=
  calls.foldlM (store d dir storage) p

end

/-- The state of the last fresh call in a directory. -/
def lastFresh (dir : I → D) (place : D) :
    Option PersistentState → List (I × PersistentState) → Option PersistentState
  | _, [] => none
  | before, (i, state) :: calls =>
    (lastFresh dir place (some state) calls).or
      (if Fresh before state ∧ dir i = place then some state else none)

/-- The state of the last call on a storage. -/
def lastOn [DecidableEq I] (i : I) (calls : List (I × PersistentState)) :
    Option PersistentState :=
  ((calls.filter (·.1 = i)).getLast?).map Prod.snd

variable {d : Codec PersistentState} {dir : I → D} {storage : I → ConFileStorage E}
  {p p' : Metadata D}

/-- One call: it writes if it is fresh. -/
theorem store_cases {i : I} {state : PersistentState}
    (h : p.store d dir storage (i, state) = some p') :
    (¬ Fresh p.last state ∧ p' = p) ∨
      ∃ data, Fresh p.last state ∧ d.encode state = some data ∧
        p' = ⟨Function.update p.files (dir i) (some data), some state⟩ := by
  rw [store] at h
  by_cases hf : Fresh p.last state
  · have hview : Fresh (p.view dir storage i).lastMetadata state := hf
    cases he : d.encode state with
    | none =>
      have hstore : (p.view dir storage i).store d state = (false, p.view dir storage i) := by
        rw [ConFileStorage.store, if_neg hview, he]
      rw [hstore] at h
      cases h
    | some data =>
      have hstore : (p.view dir storage i).store d state = (true, { p.view dir storage i with
          metaFile := some data, lastMetadata := some state }) := by
        rw [ConFileStorage.store, if_neg hview, he]
      rw [hstore] at h
      exact Or.inr ⟨data, hf, rfl, (Option.some_inj.mp h).symm⟩
  · have hstore : (p.view dir storage i).store d state = (true, p.view dir storage i) :=
      if_pos (not_not.mp hf)
    rw [hstore] at h
    obtain rfl := Option.some_inj.mp h
    exact Or.inl ⟨hf, congrArg₂ Metadata.mk (Function.update_eq_self _ _) rfl⟩

/-- A call leaves term and vote of the static as they were given. -/
theorem fresh_store {i : I} {state : PersistentState}
    (h : p.store d dir storage (i, state) = some p') (next : PersistentState) :
    Fresh p'.last next ↔ Fresh (some state) next := by
  rcases store_cases h with ⟨hf, rfl⟩ | ⟨data, -, -, rfl⟩
  · rw [Fresh, not_not.mp hf]
    rfl
  · rfl

/-- What is in the metadata file of a directory. -/
def content (d : Codec PersistentState) (p : Metadata D) (place : D) : Option PersistentState :=
  match p.files place with
  | some bytes => d.decode bytes
  | none => some PersistentState.default

/-- **A directory holds the state of its last fresh call.** -/
theorem content_storeAll {calls : List (I × PersistentState)}
    (hd : ∀ call ∈ calls, ∀ bytes, d.encode call.2 = some bytes → d.decode bytes = some call.2)
    (h : storeAll d dir storage calls p = some p') {before : Option PersistentState}
    (hb : ∀ state, Fresh p.last state ↔ Fresh before state) (place : D) :
    p'.content d place = (lastFresh dir place before calls).or (p.content d place) := by
  induction calls generalizing p before with
  | nil =>
    obtain rfl := Option.some_inj.mp h
    rfl
  | cons call calls ih =>
    obtain ⟨i, state⟩ := call
    rw [storeAll, List.foldlM_cons] at h
    obtain ⟨q, hq, h⟩ := Option.bind_eq_some_iff.mp h
    rw [ih (fun call hc ↦ hd call (List.mem_cons_of_mem _ hc)) h (fresh_store hq), lastFresh,
      Option.or_assoc]
    congr 1
    rcases store_cases hq with ⟨hf, rfl⟩ | ⟨data, hf, he, rfl⟩
    · rw [if_neg fun hn ↦ hf ((hb state).mpr hn.1), Option.none_or]
    · by_cases hp : dir i = place
      · subst hp
        rw [if_pos ⟨(hb state).mp hf, rfl⟩, Option.some_or, content]
        simp only [Function.update_self]
        exact hd (i, state) List.mem_cons_self data he
      · rw [if_neg fun hn ↦ hp hn.2, Option.none_or, content, content]
        simp only [Function.update_of_ne (Ne.symm hp)]

omit [DecidableEq D] in
/-- `restore` returns what is in the metadata file, if it gets at the log. -/
theorem restore_view_iff (c : Codec E) (i : I) (order : LogCache E) (state : PersistentState) :
    (∃ logs, ((p.view dir storage i).restore c d order).1 = some (state, logs)) ↔
      (order ≠ [] ∨ (c.readFile (storage i).writer.file).isSome) ∧
        p.content d (dir i) = some state := by
  have hmeta : (p.view dir storage i).readMeta d = p.content d (dir i) := rfl
  have hfile : (p.view dir storage i).writer.file = (storage i).writer.file := rfl
  simp only [ConFileStorage.restore, hmeta, hfile]
  cases p.content d (dir i) with
  | none => simp
  | some content =>
    cases order with
    | cons q order => simp
    | nil =>
      cases c.readFile (storage i).writer.file with
      | none => simp
      | some logs => simp

end Metadata

section

open Metadata

/-- **When `restore` agrees with `store`.**  After calls of `store` on any storages of a process, in
any directories, that all returned `Ok`: `restore` on a storage returns the state of the last call
on it exactly if the log can be read, and this was the state of the last fresh call in the directory
(or, if there was none, what was there before). -/
theorem restore_agrees_iff {E D I : Type} [DecidableEq D] [DecidableEq I] (c : Codec E)
    {d : Codec PersistentState} {dir : I → D} {storage : I → ConFileStorage E}
    {files : D → Option (List UInt8)} {p : Metadata D} {calls : List (I × PersistentState)}
    (hd : ∀ call ∈ calls, ∀ bytes, d.encode call.2 = some bytes → d.decode bytes = some call.2)
    (h : storeAll d dir storage calls ⟨files, none⟩ = some p) (i : I) (order : LogCache E) :
    (∀ state ∈ lastOn i calls,
      ∃ logs, ((p.view dir storage i).restore c d order).1 = some (state, logs)) ↔
    ∀ state ∈ lastOn i calls,
      (order ≠ [] ∨ (c.readFile (storage i).writer.file).isSome) ∧
        (lastFresh dir (dir i) none calls).or (content d ⟨files, none⟩ (dir i)) = some state := by
  refine forall₂_congr fun state _ ↦ ?_
  rw [restore_view_iff, content_storeAll hd h (fun _ ↦ Iff.rfl)]

/-- Two storages in directories of their own, and a new term with each call. -/
theorem restore_agrees_iff_turns :
    ∃ p, storeAll termCodec (fun i : Bool ↦ i)
        (fun _ ↦ ConFileStorage.empty unknownCodec termCodec)
        [(false, ⟨1, none, none⟩), (true, ⟨2, none, none⟩)] ⟨fun _ ↦ none, none⟩ = some p ∧
      ∀ state ∈ lastOn true [(false, ⟨1, none, none⟩), (true, ⟨2, none, none⟩)],
        ∃ logs, ((p.view (fun i : Bool ↦ i) (fun _ ↦ ConFileStorage.empty unknownCodec termCodec)
          true).restore unknownCodec termCodec []).1 = some (state, logs) := by
  have hd : ∀ call ∈ [(false, (⟨1, none, none⟩ : PersistentState)), (true, ⟨2, none, none⟩)],
      ∀ bytes, termCodec.encode call.2 = some bytes → termCodec.decode bytes = some call.2 := by
    simp only [List.mem_cons, List.not_mem_nil, or_false, forall_eq_or_imp, forall_eq]
    constructor
    · rintro bytes hbytes
      obtain rfl := Option.some_inj.mp hbytes
      decide
    · rintro bytes hbytes
      obtain rfl := Option.some_inj.mp hbytes
      decide
  refine ⟨_, rfl, (restore_agrees_iff unknownCodec hd rfl true []).mpr ?_⟩
  decide

/-- The second call on a storage only moves `last_applied`, and is not written; and the second
storage of a process gets the term and the vote of the first, and writes nothing. -/
theorem not_restore_agrees :
    (∃ p, storeAll termCodec (fun _ : Unit ↦ ())
        (fun _ ↦ ConFileStorage.empty unknownCodec termCodec)
        [((), ⟨1, none, none⟩), ((), ⟨1, none, some 3⟩)] ⟨fun _ ↦ none, none⟩ = some p ∧
      lastOn () [((), ⟨1, none, none⟩), ((), ⟨1, none, some 3⟩)] = some ⟨1, none, some 3⟩ ∧
      ((p.view (fun _ : Unit ↦ ()) (fun _ ↦ ConFileStorage.empty unknownCodec termCodec)
        ()).restore unknownCodec termCodec []).1 = some (⟨1, none, none⟩, [])) ∧
    ∃ p, storeAll termCodec (fun i : Bool ↦ i)
        (fun _ ↦ ConFileStorage.empty unknownCodec termCodec)
        [(false, ⟨1, none, none⟩), (true, ⟨1, none, none⟩)] ⟨fun _ ↦ none, none⟩ = some p ∧
      lastOn true [(false, ⟨1, none, none⟩), (true, ⟨1, none, none⟩)] = some ⟨1, none, none⟩ ∧
      ((p.view (fun i : Bool ↦ i) (fun _ ↦ ConFileStorage.empty unknownCodec termCodec)
        true).restore unknownCodec termCodec []).1 = some (PersistentState.default, []) :=
  ⟨⟨_, rfl, by decide, by decide⟩, _, rfl, by decide, by decide⟩

end

end Efis
