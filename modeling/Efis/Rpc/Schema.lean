import Efis.Rpc.RoundTrip

/-!
# Derived codecs

What `#[derive(SerDe)]` makes of a struct, for every struct that can be built from numbers,
booleans, options of these, other such structs, and vectors of numbers, booleans and structs.  A
schema is the type of such a value as the macro sees it, and `Schema.text` and `Schema.read` are
the code that it generates.

Nothing in such a value is text of a client, so all its pieces are told apart by the loops at every
depth of nesting (`Deep`), and the value comes back (`Schema.read_text`).
-/

set_option autoImplicit false

namespace Efis

namespace Rpc

open Text

/-! ## Schemas -/

/-- The types whose codecs are not derived. -/
inductive Prim where
  | i32
  | i64
  | u64
  | usize
  | bool

def Prim.Val : Prim → Type
  | .i32 => Int32
  | .i64 => Int64
  | .u64 => UInt64
  | .usize => Fin (2 ^ 64)
  | .bool => Bool

mutual

/-- The type of a field.  There is no vector directly in a vector. -/
inductive Schema where
  | prim (p : Prim)
  | option (p : Prim)
  | struct (fs : Fields)
  | vecPrim (p : Prim)
  | vecStruct (fs : Fields)

/-- The fields of a struct. -/
inductive Fields where
  | nil
  | cons (name : String) (s : Schema) (fs : Fields)

end

mutual

def Schema.Val : Schema → Type
  | .prim p => p.Val
  | .option p => Option p.Val
  | .struct fs => fs.Val
  | .vecPrim p => List p.Val
  | .vecStruct fs => List fs.Val

def Fields.Val : Fields → Type
  | .nil => Unit
  | .cons _ s fs => s.Val × fs.Val

end

def Fields.names : Fields → List String
  | .nil => []
  | .cons name _ fs => name :: fs.names

mutual

/-- The names of the fields of each struct are different identifiers. -/
def Schema.WellNamed : Schema → Prop
  | .prim _ => True
  | .option _ => True
  | .struct fs => (fs.names.Nodup ∧ ∀ n ∈ fs.names, Plain n.toList) ∧ fs.WellNamed
  | .vecPrim _ => True
  | .vecStruct fs => (fs.names.Nodup ∧ ∀ n ∈ fs.names, Plain n.toList) ∧ fs.WellNamed

def Fields.WellNamed : Fields → Prop
  | .nil => True
  | .cons _ s fs => s.WellNamed ∧ fs.WellNamed

end

/-! ## The generated code -/

instance : Serialize (Fin (2 ^ 64)) where
  serialize n := serialize n.val

instance : Deserialize (Fin (2 ^ 64)) where
  deserialize t := Fin.ofNat (2 ^ 64) <$> (deserialize t : Res ℕ)

instance (p : Prim) : Serialize p.Val :=
  match p with
  | .i32 => inferInstanceAs (Serialize Int32)
  | .i64 => inferInstanceAs (Serialize Int64)
  | .u64 => inferInstanceAs (Serialize UInt64)
  | .usize => inferInstanceAs (Serialize (Fin (2 ^ 64)))
  | .bool => inferInstanceAs (Serialize Bool)

instance (p : Prim) : Deserialize p.Val :=
  match p with
  | .i32 => inferInstanceAs (Deserialize Int32)
  | .i64 => inferInstanceAs (Deserialize Int64)
  | .u64 => inferInstanceAs (Deserialize UInt64)
  | .usize => inferInstanceAs (Deserialize (Fin (2 ^ 64)))
  | .bool => inferInstanceAs (Deserialize Bool)

/-- The codec of a vector, from that of its elements. -/
def vecText {α : Type} (text : α → List Char) (as : List α) : List Char :=
  @serialize (List α) (@instSerializeList α ⟨text⟩) as

def vecRead {α : Type} (read : List Char → Res α) (t : List Char) : Res (List α) :=
  @deserialize (List α) (@instDeserializeList α ⟨read⟩) t

mutual

/-- `serialize`. -/
def Schema.text : (s : Schema) → s.Val → List Char
  | .prim p, x => serialize (show p.Val from x)
  | .option p, x => serialize (show Option p.Val from x)
  | .struct fs, x => serializeStruct (fs.texts x)
  | .vecPrim p, x => serialize (show List p.Val from x)
  | .vecStruct fs, x => vecText (fun v ↦ serializeStruct (fs.texts v)) x

/-- The texts of the fields of a struct. -/
def Fields.texts : (fs : Fields) → fs.Val → List (String × List Char)
  | .nil, _ => []
  | .cons name s fs, x => (name, s.text x.1) :: fs.texts x.2

end

/-- A field of a struct that is read.  Only a field of an optional type may be missing. -/
def Schema.ofField : (s : Schema) → (List Char → Res s.Val) → List (List Char × List Char) →
    String → Res s.Val
  | .option p, read, map, name =>
    match map.lookup name.toList with
    | some t => read t
    | none => .ok (none : Option p.Val)
  | s, read, map, name => @field s.Val ⟨read⟩ map name

mutual

/-- `deserialize`. -/
def Schema.read : (s : Schema) → List Char → Res s.Val
  | .prim p, t => (deserialize t : Res p.Val)
  | .option p, t => (deserialize t : Res (Option p.Val))
  | .struct fs, t => fs.ofMap (parseStruct t)
  | .vecPrim p, t => (deserialize t : Res (List p.Val))
  | .vecStruct fs, t => vecRead (fun t ↦ fs.ofMap (parseStruct t)) t

/-- The fields of a struct from the map of their texts. -/
def Fields.ofMap : (fs : Fields) → List (List Char × List Char) → Res fs.Val
  | .nil, _ => .ok ()
  | .cons name s fs, map => do
    let x ← s.ofField s.read map name
    let rest ← fs.ofMap map
    .ok (x, rest)

end

/-! ## The pieces are told apart -/

/-- Text that the loops do not take apart inside of any number of brackets. -/
structure Deep (t : List Char) : Prop where
  kv : ∀ d : ℤ × ℤ, 0 ≤ d.1 → 0 ≤ d.2 → kvScanner.Passes d t
  vec : ∀ d : ℤ, 0 ≤ d → vecScanner.Passes d t

theorem Neutral.deep {t : List Char} (h : Neutral t) : Deep t :=
  ⟨fun d _ _ ↦ h.kvScanner d, fun d _ ↦ h.vecScanner d⟩

theorem deep_serializeStruct {fields : List (String × List Char)}
    (hname : ∀ n ∈ fields.map Prod.fst, Plain n.toList) (h : ∀ f ∈ fields, Deep f.2) :
    Deep (serializeStruct fields) := by
  constructor
  · intro d h1 h2
    have hd : d + (0, 1) ≠ 0 := fun h ↦ by
      have := congrArg Prod.snd h
      simp only [Prod.snd_add, Prod.snd_zero] at this
      omega
    refine kvScanner_struct hd hname (forall_texts fun f hf ↦ (h f hf).kv _ ?_ ?_)
    · simpa using h1
    · simp only [Prod.snd_add]
      omega
  · exact fun d hd ↦ vecScanner_struct hname (forall_texts fun f hf ↦ (h f hf).vec _ (by omega))

theorem deep_vecText {α : Type} {text : α → List Char} {as : List α}
    (h : ∀ a ∈ as, Deep (text a)) : Deep (vecText text as) := by
  constructor
  · intro d h1 h2
    refine @kvScanner_list α ⟨text⟩ d as fun a ha ↦ (h a ha).kv _ ?_ ?_
    · simp only [Prod.fst_add]
      omega
    · simpa using h2
  · exact fun d hd ↦ @vecScanner_list α ⟨text⟩ d (by omega) as fun a ha ↦
      (h a ha).vec _ (by omega)

/-- Numbers and booleans are plain text and come back. -/
theorem Prim.plain (p : Prim) (x : p.Val) :
    Plain (serialize x) ∧ 'N' ∉ serialize x ∧ deserialize (serialize x) = Res.ok x := by
  cases p with
  | i32 =>
    obtain ⟨h, hn⟩ := plain_signedDigits (Int32.toInt x)
    exact ⟨h, hn, deserialize_int32 x⟩
  | i64 =>
    obtain ⟨h, hn⟩ := plain_signedDigits (Int64.toInt x)
    exact ⟨h, hn, deserialize_int64 x⟩
  | u64 =>
    obtain ⟨h, hn⟩ := plain_toDigits (UInt64.toNat x)
    exact ⟨h, hn, deserialize_uint64 x⟩
  | usize =>
    obtain ⟨h, hn⟩ := plain_toDigits (Fin.val x)
    refine ⟨h, hn, ?_⟩
    change Fin.ofNat (2 ^ 64) <$> (deserialize (serialize (Fin.val x)) : Res ℕ) = _
    rw [deserialize_nat x.isLt]
    exact congrArg Res.ok (Fin.ofNat_val_eq_self x)
  | bool =>
    cases x with
    | true => exact ⟨by decide, by decide, rfl⟩
    | false => exact ⟨by decide, by decide, rfl⟩

theorem Prim.decodes (p : Prim) (x : p.Val) :
    Decodes x ∧ serialize x ≠ [] ∧ ¬ "None".toList <:+: serialize x :=
  Decodes.of_plain (p.plain x).1 (p.plain x).2.1 (p.plain x).2.2

theorem Fields.map_fst_texts : (fs : Fields) → (x : fs.Val) →
    (fs.texts x).map Prod.fst = fs.names
  | .nil, _ => rfl
  | .cons name _ fs, x => congrArg (name :: ·) (fs.map_fst_texts x.2)

mutual

theorem Schema.deep_text : (s : Schema) → s.WellNamed → (x : s.Val) → Deep (s.text x)
  | .prim p, _, x => (p.plain x).1.neutral.deep
  | .option _, _, none => Neutral.deep (t := "None".toList) (by decide)
  | .option p, _, some a => (p.plain a).1.neutral.deep
  | .struct fs, h, x => deep_serializeStruct (fs.map_fst_texts x ▸ h.1.2) (fs.deep_texts h.2 x)
  | .vecPrim p, _, x => deep_vecText fun a _ ↦ (p.plain a).1.neutral.deep
  | .vecStruct fs, h, x => deep_vecText fun v _ ↦
    deep_serializeStruct (fs.map_fst_texts v ▸ h.1.2) (fs.deep_texts h.2 v)

theorem Fields.deep_texts : (fs : Fields) → fs.WellNamed → (x : fs.Val) →
    ∀ f ∈ fs.texts x, Deep f.2
  | .nil, _, _ => fun _ hf ↦ absurd hf List.not_mem_nil
  | .cons _ s fs, h, x => List.forall_mem_cons.mpr
    ⟨s.deep_text h.1 x.1, fs.deep_texts h.2 x.2⟩

end

/-! ## Values come back -/

theorem vecRead_vecText {α : Type} {text : α → List Char} {read : List Char → Res α} {as : List α}
    (hdeep : ∀ a ∈ as, Deep (text a))
    (hl : ∀ a ∈ as, (text a).head? ≠ some '[' ∧ trim isWhitespace (text a) ≠ [] ∧
      (text a).getLast? ≠ some ']')
    (h : ∀ a ∈ as, trim isWhitespace (text a) = text a ∧ read (text a) = Res.ok a) :
    vecRead read (vecText text as) = Res.ok as := by
  let _ : Serialize α := ⟨text⟩
  let _ : Deserialize α := ⟨read⟩
  have hd : Decodes as := by
    refine decodes_list ?_ ?_ h
    · refine Scanner.separates_of_passes fun t ht ↦ ?_
      obtain ⟨a, ha, rfl⟩ := List.mem_map.mp ht
      exact (hdeep a ha).vec 0 (Int.le_refl 0)
    · refine listable_of_forall fun t ht ↦ ?_
      obtain ⟨a, ha, rfl⟩ := List.mem_map.mp ht
      exact hl a ha
  exact hd.ok

theorem Schema.trim_text (s : Schema) (x : s.Val) :
    trim isWhitespace (s.text x) = s.text x := by
  cases s with
  | prim p => exact (p.plain x).1.trim_eq
  | option p => exact trim_serialize_option fun a _ ↦ (p.plain a).1.trim_eq
  | struct fs => exact trim_serializeStruct _
  | vecPrim p => exact trim_brackets rfl rfl _
  | vecStruct fs => exact trim_brackets rfl rfl _

theorem Fields.trim_texts : (fs : Fields) → (x : fs.Val) →
    ∀ f ∈ fs.texts x, trim isWhitespace f.2 = f.2
  | .nil, _ => fun _ hf ↦ absurd hf List.not_mem_nil
  | .cons _ s fs, x => List.forall_mem_cons.mpr ⟨s.trim_text x.1, fs.trim_texts x.2⟩

theorem Fields.separable (fs : Fields) (hn : fs.names.Nodup ∧ ∀ n ∈ fs.names, Plain n.toList)
    (h : fs.WellNamed) (x : fs.Val) : Separable (fs.texts x) := by
  refine Separable.of_names fs.names (fs.map_fst_texts x) hn (fs.trim_texts x) ?_
  exact Scanner.separates_of_passes (forall_texts fun f hf ↦
    (fs.deep_texts h x f hf).kv 0 (Int.le_refl 0) (Int.le_refl 0))

/-- What the map of a struct has for one of its fields. -/
def Found (map : List (List Char × List Char)) (f : String × List Char) : Prop :=
  map.lookup f.1.toList = if f.2 = "None".toList then none else some f.2

theorem Separable.found {fields : List (String × List Char)} (h : Separable fields)
    {f : String × List Char} (hf : f ∈ fields) :
    Found (parseStruct (serializeStruct fields)) f := by
  rw [Found]
  split
  · rename_i hn
    exact h.lookup_none (hn ▸ hf)
  · rename_i hn
    exact h.lookup_eq hf hn

/-- A field comes back if its value does. -/
theorem Schema.ofField_eq {s : Schema} {x : s.Val} (hread : s.read (s.text x) = Res.ok x)
    {map : List (List Char × List Char)} {name : String} (h : Found map (name, s.text x)) :
    s.ofField s.read map name = Res.ok x := by
  have hfield : s.text x ≠ "None".toList → @field s.Val ⟨s.read⟩ map name = Res.ok x := by
    intro hn
    unfold field
    rw [h.trans (if_neg hn)]
    exact hread
  cases s with
  | prim p => exact hfield (p.decodes x).1.ne_none
  | option p =>
    cases x with
    | none =>
      rw [Schema.ofField, h.trans (if_pos rfl)]
    | some a =>
      rw [Schema.ofField, h.trans (if_neg (p.decodes a).1.ne_none)]
      exact hread
  | struct fs => exact hfield fun he ↦ absurd (List.cons.inj he).1 (by decide)
  | vecPrim p => exact hfield fun he ↦ absurd (List.cons.inj he).1 (by decide)
  | vecStruct fs => exact hfield fun he ↦ absurd (List.cons.inj he).1 (by decide)

theorem Prim.read_option (p : Prim) (x : Option p.Val) : deserialize (serialize x) = Res.ok x := by
  cases x with
  | none => rfl
  | some a =>
    obtain ⟨ha, hnil, hnone⟩ := p.decodes a
    change (if "None".toList <:+: serialize a ∨ serialize a = [] then _ else _) = _
    rw [if_neg (not_or.mpr ⟨hnone, hnil⟩)]
    change (deserialize (serialize a)).unwrap >>= _ = _
    rw [ha.ok]
    rfl

mutual

/-- **A value of a derived type comes back.** -/
theorem Schema.read_text : (s : Schema) → s.WellNamed → (x : s.Val) → s.read (s.text x) = Res.ok x
  | .prim p, _, x => (p.plain x).2.2
  | .option p, _, x => p.read_option x
  | .struct fs, h, x => fs.ofMap_eq h.2 x fun _ hf ↦ (fs.separable h.1 h.2 x).found hf
  | .vecPrim p, _, _ => vecRead_vecText (fun a _ ↦ (p.plain a).1.neutral.deep)
    (fun a _ ↦ (p.plain a).1.listable) fun a _ ↦ ⟨(p.plain a).1.trim_eq, (p.plain a).2.2⟩
  | .vecStruct fs, h, _ => vecRead_vecText
    (fun v _ ↦ deep_serializeStruct (fs.map_fst_texts v ▸ h.1.2) (fs.deep_texts h.2 v))
    (fun _ _ ↦ listable_serializeStruct _) fun v _ ↦ ⟨trim_serializeStruct _,
      fs.ofMap_eq h.2 v fun _ hf ↦ (fs.separable h.1 h.2 v).found hf⟩

theorem Fields.ofMap_eq : (fs : Fields) → fs.WellNamed → (x : fs.Val) →
    {map : List (List Char × List Char)} → (∀ f ∈ fs.texts x, Found map f) →
    fs.ofMap map = Res.ok x
  | .nil, _, _, _, _ => rfl
  | .cons _ s fs, h, x, _, hmap => by
    obtain ⟨hfirst, hrest⟩ := List.forall_mem_cons.mp hmap
    rw [Fields.ofMap, Schema.ofField_eq (s.read_text h.1 x.1) hfirst, Res.ok_bind,
      fs.ofMap_eq h.2 x.2 hrest, Res.ok_bind]
    rfl

end

end Rpc

end Efis
