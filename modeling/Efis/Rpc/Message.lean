import Efis.Consensus.Node
import Efis.Rpc.RoundTrip
import Efis.Store.Command

/-!
# Replication messages

Commands, log entries and `AppendEntries` in the text protocol.  A command is the name of its
variant and its request in parentheses, and what is read is the text up to the parenthesis that
closes.  So a string of a client is read by up to five loops: those of the request, of the log
entry, of the list of entries and of the message, and the one that looks for the parenthesis.  None
of them knows that a quotation mark in a string is written with a backslash before it, and a bracket
in a string counts as any other.

`Command.Readable` and `AppendEntries.Readable` say when all these loops find the same pieces that
were written.  Then the message comes back.
-/

set_option autoImplicit false

namespace Efis

open Rpc Text

variable {F : Type}

/-! ## Requests -/

def SetReq.fields (r : SetReq) : List (String × List Char) :=
  [("key", serialize r.key), ("value", serialize r.value), ("exp", serialize r.exp)]

instance : Serialize SetReq where
  serialize r := serializeStruct r.fields

instance : Deserialize SetReq where
  deserialize t := do
    let map := parseStruct t
    let key ← field map "key"
    let value ← field map "value"
    let exp ← optField map "exp"
    .ok { key, value, exp }

def GetReq.fields (r : GetReq) : List (String × List Char) :=
  [("key", serialize r.key)]

instance : Serialize GetReq where
  serialize r := serializeStruct r.fields

instance : Deserialize GetReq where
  deserialize t := do
    let map := parseStruct t
    let key ← field map "key"
    .ok { key }

def ExpireReq.fields (r : ExpireReq) : List (String × List Char) :=
  [("key", serialize r.key), ("duration", serialize r.duration)]

instance : Serialize ExpireReq where
  serialize r := serializeStruct r.fields

instance : Deserialize ExpireReq where
  deserialize t := do
    let map := parseStruct t
    let key ← field map "key"
    let duration ← field map "duration"
    .ok { key, duration }

def ListReq.fields (r : ListReq) : List (String × List Char) :=
  [("key", serialize r.key), ("values", serialize r.values)]

instance : Serialize ListReq where
  serialize r := serializeStruct r.fields

instance : Deserialize ListReq where
  deserialize t := do
    let map := parseStruct t
    let key ← field map "key"
    let values ← field map "values"
    .ok { key, values }

def MapReq.fields (r : MapReq) : List (String × List Char) :=
  [("key", serialize r.key), ("score", serialize r.score), ("value", serialize r.value)]

instance : Serialize MapReq where
  serialize r := serializeStruct r.fields

instance : Deserialize MapReq where
  deserialize t := do
    let map := parseStruct t
    let key ← field map "key"
    let score ← field map "score"
    let value ← field map "value"
    .ok { key, score, value }

def PubReq.fields (r : PubReq) : List (String × List Char) :=
  [("chan", serialize r.chan), ("value", serialize r.value)]

instance : Serialize PubReq where
  serialize r := serializeStruct r.fields

instance : Deserialize PubReq where
  deserialize t := do
    let map := parseStruct t
    let chan ← field map "chan"
    let value ← field map "value"
    .ok { chan, value }

def VecReq.fields [Serialize F] (r : VecReq F) : List (String × List Char) :=
  [("id", serialize r.id), ("vec", serialize r.vec)]

instance [Serialize F] : Serialize (VecReq F) where
  serialize r := serializeStruct r.fields

instance [Deserialize F] : Deserialize (VecReq F) where
  deserialize t := do
    let map := parseStruct t
    let id ← field map "id"
    let vec ← field map "vec"
    .ok { id, vec }

def VSetReq.fields [Serialize F] (r : VSetReq F) : List (String × List Char) :=
  [("key", serialize r.key), ("vecs", serialize r.vecs)]

instance [Serialize F] : Serialize (VSetReq F) where
  serialize r := serializeStruct r.fields

instance [Deserialize F] : Deserialize (VSetReq F) where
  deserialize t := do
    let map := parseStruct t
    let key ← field map "key"
    let vecs ← field map "vecs"
    .ok { key, vecs }

def VDelReq.fields (r : VDelReq) : List (String × List Char) :=
  [("key", serialize r.key), ("id", serialize r.id)]

instance : Serialize VDelReq where
  serialize r := serializeStruct r.fields

instance : Deserialize VDelReq where
  deserialize t := do
    let map := parseStruct t
    let key ← field map "key"
    let id ← field map "id"
    .ok { key, id }

/-! ## Commands -/

/-- `format!("Name({})", ..)`. -/
def variantText (name : String) (payload : List Char) : List Char :=
  name.toList ++ '(' :: (payload ++ [')'])

instance [Serialize F] : Serialize (Command F) where
  serialize
    | .set req => variantText "Set" (serialize req)
    | .delete req => variantText "Delete" (serialize req)
    | .increment req => variantText "Increment" (serialize req)
    | .decrement req => variantText "Decrement" (serialize req)
    | .expire req => variantText "Expire" (serialize req)
    | .lpush req => variantText "Lpush" (serialize req)
    | .lpop req => variantText "Lpop" (serialize req)
    | .rpush req => variantText "Rpush" (serialize req)
    | .rpop req => variantText "Rpop" (serialize req)
    | .sadd req => variantText "Sadd" (serialize req)
    | .zadd req => variantText "Zadd" (serialize req)
    | .publish req => variantText "Publish" (serialize req)
    | .vset req => variantText "VSet" (serialize req)
    | .vdel req => variantText "VDel" (serialize req)
    | .unknown => "Unknown".toList

/-- The text before the parenthesis that closes, at a depth of parentheses. -/
def closing : ℕ → List Char → Option (List Char)
  | _, [] => none
  | depth, c :: cs =>
    if c = '(' then (closing (depth + 1) cs).map (c :: ·)
    else if c = ')' then
      if depth - 1 = 0 then some [] else (closing (depth - 1) cs).map (c :: ·)
    else (closing depth cs).map (c :: ·)

/-- A command from the name of a variant and the text of its request. -/
def Command.ofVariant [Deserialize F] (variant : String) (inner : List Char) : Res (Command F) :=
  match variant with
  | "Set" => .set <$> deserialize inner
  | "Delete" => .delete <$> deserialize inner
  | "Increment" => .increment <$> deserialize inner
  | "Decrement" => .decrement <$> deserialize inner
  | "Expire" => .expire <$> deserialize inner
  | "Lpush" => .lpush <$> deserialize inner
  | "Lpop" => .lpop <$> deserialize inner
  | "Rpush" => .rpush <$> deserialize inner
  | "Rpop" => .rpop <$> deserialize inner
  | "Sadd" => .sadd <$> deserialize inner
  | "Zadd" => .zadd <$> deserialize inner
  | "Publish" => .publish <$> deserialize inner
  | "VSet" => .vset <$> deserialize inner
  | "VDel" => .vdel <$> deserialize inner
  | _ => .ok .unknown

/-- The variants that have a request. -/
def variants : List String :=
  ["Set", "Delete", "Increment", "Decrement", "Expire", "Lpush", "Lpop", "Rpush", "Rpop", "Sadd",
    "Zadd", "Publish", "VSet", "VDel"]

instance [Deserialize F] : Deserialize (Command F) where
  deserialize t :=
    let s := trim isWhitespace t
    if '(' ∉ s then
      if String.ofList s ∈ variants then
        .err ("Variant '" ++ String.ofList s ++ "' requires payload")
      else .ok .unknown
    else
      let variant := trim isWhitespace (s.takeWhile (· ≠ '('))
      match closing 1 (s.dropWhile (· ≠ '(')).tail with
      | none => .err "Unmatched parentheses in enum payload"
      | some inner => Command.ofVariant (String.ofList variant) inner

/-! ## Log entries and messages -/

def LogEntry.fields {C : Type} [Serialize C] (e : LogEntry C) : List (String × List Char) :=
  [("command", serialize e.command), ("term", serialize e.term)]

instance {C : Type} [Serialize C] : Serialize (LogEntry C) where
  serialize e := serializeStruct e.fields

instance {C : Type} [Deserialize C] : Deserialize (LogEntry C) where
  deserialize t := do
    let map := parseStruct t
    let command ← field map "command"
    let term ← field map "term"
    .ok { command, term }

def AppendEntries.fields {C : Type} [Serialize C] (m : AppendEntries C) :
    List (String × List Char) :=
  [("term", serialize m.term), ("leader", serialize m.leader),
    ("prev_log_index", serialize m.prevLogIndex), ("prev_log_term", serialize m.prevLogTerm),
    ("entries", serialize m.entries), ("leader_commit", serialize m.leaderCommit)]

instance {C : Type} [Serialize C] : Serialize (AppendEntries C) where
  serialize m := serializeStruct m.fields

instance {C : Type} [Deserialize C] : Deserialize (AppendEntries C) where
  deserialize t := do
    let map := parseStruct t
    let term ← field map "term"
    let leader ← field map "leader"
    let prevLogIndex ← optField map "prev_log_index"
    let prevLogTerm ← optField map "prev_log_term"
    let entries ← field map "entries"
    let leaderCommit ← optField map "leader_commit"
    .ok { term, leader, prevLogIndex, prevLogTerm, entries, leaderCommit }

/-! ## Parentheses -/

/-- The depth of parentheses after a text, or `none` if one closes that was not opened in it. -/
def parenDepth : ℕ → List Char → Option ℕ
  | d, [] => some d
  | d, c :: cs =>
    if c = '(' then parenDepth (d + 1) cs
    else if c = ')' then if d = 0 then none else parenDepth (d - 1) cs
    else parenDepth d cs

def parens (t : List Char) : List Char :=
  t.filter fun c ↦ c = '(' ∨ c = ')'

theorem parenDepth_parens (d : ℕ) (t : List Char) : parenDepth d (parens t) = parenDepth d t := by
  induction t generalizing d with
  | nil => rfl
  | cons c t ih =>
    by_cases hc : c = '(' ∨ c = ')'
    · rw [parens, List.filter_cons_of_pos (by simpa using hc), parenDepth, parenDepth]
      simp only [← ih]
      rfl
    · rw [parens, List.filter_cons_of_neg (by simpa using hc), parenDepth,
        if_neg fun h ↦ hc (Or.inl h), if_neg fun h ↦ hc (Or.inr h)]
      exact ih d

theorem parens_eq_nil {t : List Char} (h : ∀ c ∈ t, c ≠ '(' ∧ c ≠ ')') : parens t = [] :=
  List.filter_eq_nil_iff.mpr fun c hc ↦ by simpa using h c hc

theorem parens_append (s t : List Char) : parens (s ++ t) = parens s ++ parens t :=
  List.filter_append ..

theorem parens_intercalate {sep : List Char} (hsep : parens sep = []) (ts : List (List Char)) :
    parens (sep.intercalate ts) = (ts.map parens).flatten := by
  induction ts with
  | nil => rfl
  | cons t ts ih =>
    cases ts with
    | nil => rw [List.intercalate_singleton, List.map_singleton, List.flatten_singleton]
    | cons u us =>
      rw [List.intercalate_cons_cons, parens_append, parens_append, hsep, List.append_nil, ih]
      rfl

/-- The parentheses of a struct are those of its fields. -/
theorem parens_serializeStruct {fields : List (String × List Char)}
    (h : ∀ n ∈ fields.map Prod.fst, Plain n.toList) :
    parens (serializeStruct fields) = parens (texts fields).flatten := by
  have hfield : ∀ f ∈ present fields, parens (f.1.toList ++ '=' :: f.2) = parens f.2 := by
    intro f hf
    have hplain := h f.1 (List.mem_map_of_mem (List.mem_of_mem_filter hf))
    rw [List.append_cons, parens_append, parens_eq_nil, List.nil_append]
    intro c hc
    rcases List.mem_append.mp hc with hc | hc
    · have hnot := (hplain.2 c hc).2
      exact ⟨fun h ↦ hnot (h ▸ by decide), fun h ↦ hnot (h ▸ by decide)⟩
    · rw [List.mem_singleton.mp hc]
      decide
  have hclose : parens ['}'] = [] := rfl
  change parens ([' '].intercalate _ ++ ['}']) = _
  have hmap : (present fields).map (parens ∘ fun f ↦ f.1.toList ++ '=' :: f.2) =
      (present fields).map (parens ∘ Prod.snd) := List.map_congr_left hfield
  rw [parens_append, hclose, List.append_nil, parens_intercalate rfl, List.map_map, hmap,
    ← List.map_map, parens, List.filter_flatten]
  rfl

theorem closing_append {d e : ℕ} {t : List Char} (h : parenDepth d t = some e) (u : List Char) :
    closing (d + 1) (t ++ u) = (closing (e + 1) u).map (t ++ ·) := by
  induction t generalizing d with
  | nil =>
    rw [← Option.some_inj.mp h]
    exact Option.map_id'.symm
  | cons c t ih =>
    have hcomp : (closing (e + 1) u).map (c :: t ++ ·) =
        ((closing (e + 1) u).map (t ++ ·)).map (c :: ·) := by
      rw [Option.map_map]
      rfl
    rw [parenDepth] at h
    rw [List.cons_append, closing, hcomp]
    split_ifs at h with ho hc hd
    · rw [if_pos ho, ih h]
    · rw [if_neg ho, if_pos hc, if_neg (by omega), Nat.add_sub_cancel, ← ih h]
      congr 2
      omega
    · rw [if_neg ho, if_neg hc, ih h]

/-- What is between the parentheses of a command is found. -/
theorem closing_eq {t : List Char} (h : parenDepth 0 t = some 0) :
    closing 1 (t ++ [')']) = some t := by
  rw [closing_append h]
  exact congrArg some (List.append_nil t)

/-! ## What comes back -/

/-- Floating point numbers, whose texts are plain and parsed back. -/
class LawfulFloat (F : Type) [Serialize F] [Deserialize F] : Prop where
  plain : ∀ x : F, Plain (serialize x)
  ok : ∀ x : F, deserialize (serialize x) = Res.ok x

/-- A string that can be a field.  A field with the text `None` is not written. -/
def FieldString (s : String) : Prop :=
  Quotable s ∧ s ≠ "None"

instance (s : String) : Decidable (FieldString s) :=
  inferInstanceAs (Decidable (_ ∧ _))

theorem FieldString.decodes {s : String} (h : FieldString s) : Decodes s :=
  decodes_string h.1 h.2

theorem SetReq.deserialize_eq {r : SetReq} (hk : FieldString r.key) (hv : FieldString r.value)
    (hs : kvScanner.Separates (texts r.fields)) :
    deserialize (serialize r) = Res.ok r := by
  have htrim : trim isWhitespace (serialize r.exp) = serialize r.exp :=
    trim_serialize_option fun n _ ↦ (decodes_uint64 n).1.trim_eq
  have h : Separable r.fields := Separable.of_names ["key", "value", "exp"] rfl (by decide)
    (by simpa [SetReq.fields] using ⟨hk.decodes.trim_eq, hv.decodes.trim_eq, htrim⟩) hs
  simp only [deserialize, serialize]
  rw [h.field_eq hk.decodes (by simp [SetReq.fields]), Res.ok_bind,
    h.field_eq hv.decodes (by simp [SetReq.fields]), Res.ok_bind,
    h.optField_eq (o := r.exp) (fun n _ ↦ decodes_uint64 n) (by simp [SetReq.fields]), Res.ok_bind]

theorem GetReq.deserialize_eq {r : GetReq} (hk : FieldString r.key)
    (hs : kvScanner.Separates (texts r.fields)) :
    deserialize (serialize r) = Res.ok r := by
  have h : Separable r.fields := Separable.of_names ["key"] rfl (by decide)
    (by simpa [GetReq.fields] using hk.decodes.trim_eq) hs
  simp only [deserialize, serialize]
  rw [h.field_eq hk.decodes (by simp [GetReq.fields]), Res.ok_bind]

theorem ExpireReq.deserialize_eq {r : ExpireReq} (hk : FieldString r.key)
    (hs : kvScanner.Separates (texts r.fields)) :
    deserialize (serialize r) = Res.ok r := by
  have hd := (decodes_uint64 r.duration).1
  have h : Separable r.fields := Separable.of_names ["key", "duration"] rfl (by decide)
    (by simpa [ExpireReq.fields] using ⟨hk.decodes.trim_eq, hd.trim_eq⟩) hs
  simp only [deserialize, serialize]
  rw [h.field_eq hk.decodes (by simp [ExpireReq.fields]), Res.ok_bind,
    h.field_eq hd (by simp [ExpireReq.fields]), Res.ok_bind]

/-- The strings of a list that is read back. -/
def ListReq.Readable (r : ListReq) : Prop :=
  FieldString r.key ∧ (∀ v ∈ r.values, Quotable v) ∧
    vecScanner.Separates (r.values.map serialize) ∧ Listable (r.values.map serialize)

instance (r : ListReq) : Decidable r.Readable :=
  inferInstanceAs (Decidable (_ ∧ _))

theorem ListReq.deserialize_eq {r : ListReq} (hr : r.Readable)
    (hs : kvScanner.Separates (texts r.fields)) :
    deserialize (serialize r) = Res.ok r := by
  obtain ⟨hk, hquot, hsep, hlist⟩ := hr
  have hv : Decodes r.values := decodes_list hsep hlist fun v hv ↦
    ⟨trim_serialize (hquot v hv), deserialize_string (hquot v hv)⟩
  have h : Separable r.fields := Separable.of_names ["key", "values"] rfl (by decide)
    (by simpa [ListReq.fields] using ⟨hk.decodes.trim_eq, hv.trim_eq⟩) hs
  simp only [deserialize, serialize]
  rw [h.field_eq hk.decodes (by simp [ListReq.fields]), Res.ok_bind,
    h.field_eq hv (by simp [ListReq.fields]), Res.ok_bind]

theorem MapReq.deserialize_eq {r : MapReq} (hk : FieldString r.key) (hv : FieldString r.value)
    (hs : kvScanner.Separates (texts r.fields)) :
    deserialize (serialize r) = Res.ok r := by
  have hscore := decodes_int64 r.score
  have h : Separable r.fields := Separable.of_names ["key", "score", "value"] rfl (by decide)
    (by simpa [MapReq.fields] using ⟨hk.decodes.trim_eq, hscore.trim_eq, hv.decodes.trim_eq⟩) hs
  simp only [deserialize, serialize]
  rw [h.field_eq hk.decodes (by simp [MapReq.fields]), Res.ok_bind,
    h.field_eq hscore (by simp [MapReq.fields]), Res.ok_bind,
    h.field_eq hv.decodes (by simp [MapReq.fields]), Res.ok_bind]

theorem PubReq.deserialize_eq {r : PubReq} (hc : FieldString r.chan) (hv : FieldString r.value)
    (hs : kvScanner.Separates (texts r.fields)) :
    deserialize (serialize r) = Res.ok r := by
  have h : Separable r.fields := Separable.of_names ["chan", "value"] rfl (by decide)
    (by simpa [PubReq.fields] using ⟨hc.decodes.trim_eq, hv.decodes.trim_eq⟩) hs
  simp only [deserialize, serialize]
  rw [h.field_eq hc.decodes (by simp [PubReq.fields]), Res.ok_bind,
    h.field_eq hv.decodes (by simp [PubReq.fields]), Res.ok_bind]

theorem VDelReq.deserialize_eq {r : VDelReq} (hk : FieldString r.key) (hid : FieldString r.id)
    (hs : kvScanner.Separates (texts r.fields)) :
    deserialize (serialize r) = Res.ok r := by
  have h : Separable r.fields := Separable.of_names ["key", "id"] rfl (by decide)
    (by simpa [VDelReq.fields] using ⟨hk.decodes.trim_eq, hid.decodes.trim_eq⟩) hs
  simp only [deserialize, serialize]
  rw [h.field_eq hk.decodes (by simp [VDelReq.fields]), Res.ok_bind,
    h.field_eq hid.decodes (by simp [VDelReq.fields]), Res.ok_bind]

section

variable [Serialize F] [Deserialize F] [LawfulFloat F]

theorem decodes_floats (vec : List F) : Decodes vec := by
  have hplain : ∀ t ∈ vec.map serialize, Plain t := by
    intro t ht
    obtain ⟨x, -, rfl⟩ := List.mem_map.mp ht
    exact LawfulFloat.plain x
  exact decodes_list (Scanner.separates_of_passes fun t ht ↦ (hplain t ht).neutral.vecScanner 0)
    (listable_of_forall fun t ht ↦ (hplain t ht).listable)
    fun x _ ↦ ⟨(LawfulFloat.plain x).trim_eq, LawfulFloat.ok x⟩

theorem kvScanner_floats (d : ℤ × ℤ) (vec : List F) : kvScanner.Passes d (serialize vec) :=
  kvScanner_list fun x _ ↦ (LawfulFloat.plain x).neutral.kvScanner _

theorem VecReq.deserialize_eq (r : VecReq F) : deserialize (serialize r) = Res.ok r := by
  have hid := (decodes_uint64 r.id).1
  have hvec := decodes_floats r.vec
  have hpass : ∀ f ∈ r.fields, kvScanner.Passes 0 f.2 := by
    simpa [VecReq.fields] using
      ⟨(plain_toDigits r.id.toNat).1.neutral.kvScanner 0, kvScanner_floats 0 r.vec⟩
  have h : Separable r.fields := Separable.of_names ["id", "vec"] rfl (by decide)
    (by simpa [VecReq.fields] using ⟨hid.trim_eq, hvec.trim_eq⟩)
    (Scanner.separates_of_passes (forall_texts hpass))
  simp only [deserialize, serialize]
  rw [h.field_eq hid (by simp [VecReq.fields]), Res.ok_bind,
    h.field_eq hvec (by simp [VecReq.fields]), Res.ok_bind]

theorem vecScanner_vecReq (r : VecReq F) : vecScanner.Passes 0 (serialize r) := by
  have hvec : vecScanner.Passes 1 (serialize r.vec) :=
    vecScanner_list (by decide) fun x _ ↦ (LawfulFloat.plain x).neutral.vecScanner _
  have hpass : ∀ f ∈ r.fields, vecScanner.Passes 1 f.2 := by
    simpa [VecReq.fields] using ⟨(plain_toDigits r.id.toNat).1.neutral.vecScanner 1, hvec⟩
  have hname : ∀ n ∈ ["id", "vec"], Plain n.toList := by decide
  exact vecScanner_struct hname (forall_texts hpass)

theorem VSetReq.deserialize_eq {r : VSetReq F} (hk : FieldString r.key)
    (hs : kvScanner.Separates (texts r.fields)) : deserialize (serialize r) = Res.ok r := by
  have hv : Decodes r.vecs := by
    refine decodes_list (Scanner.separates_of_passes fun t ht ↦ ?_)
      (listable_of_forall fun t ht ↦ ?_) fun v _ ↦ ⟨trim_serializeStruct _, v.deserialize_eq⟩
    · obtain ⟨v, -, rfl⟩ := List.mem_map.mp ht
      exact vecScanner_vecReq v
    · obtain ⟨v, -, rfl⟩ := List.mem_map.mp ht
      exact listable_serializeStruct _
  have h : Separable r.fields := Separable.of_names ["key", "vecs"] rfl (by decide)
    (by simpa [VSetReq.fields] using ⟨hk.decodes.trim_eq, hv.trim_eq⟩) hs
  simp only [deserialize, serialize]
  rw [h.field_eq hk.decodes (by simp [VSetReq.fields]), Res.ok_bind,
    h.field_eq hv (by simp [VSetReq.fields]), Res.ok_bind]

end

/-! ## Commands come back -/

/-- The fields of the request of a command. -/
def Command.fields [Serialize F] : Command F → List (String × List Char)
  | .set req => req.fields
  | .delete req => req.fields
  | .increment req => req.fields
  | .decrement req => req.fields
  | .expire req => req.fields
  | .lpush req => req.fields
  | .lpop req => req.fields
  | .rpush req => req.fields
  | .rpop req => req.fields
  | .sadd req => req.fields
  | .zadd req => req.fields
  | .publish req => req.fields
  | .vset req => req.fields
  | .vdel req => req.fields
  | .unknown => []

/-- The strings of a command are read back, each from its own text. -/
def Command.StringsReadable : Command F → Prop
  | .set req => FieldString req.key ∧ FieldString req.value
  | .delete req => FieldString req.key
  | .increment req => FieldString req.key
  | .decrement req => FieldString req.key
  | .expire req => FieldString req.key
  | .lpush req => req.Readable
  | .lpop req => FieldString req.key
  | .rpush req => req.Readable
  | .rpop req => FieldString req.key
  | .sadd req => req.Readable
  | .zadd req => FieldString req.key ∧ FieldString req.value
  | .publish req => FieldString req.chan ∧ FieldString req.value
  | .vset req => FieldString req.key
  | .vdel req => FieldString req.key ∧ FieldString req.id
  | .unknown => True

/-- A command that is read back.  Apart from the strings themselves, the fields of its request must
be told apart, and the parentheses in them be balanced. -/
structure Command.Readable [Serialize F] (c : Command F) : Prop where
  strings : c.StringsReadable
  separates : kvScanner.Separates (texts c.fields)
  parens : parenDepth 0 (texts c.fields).flatten = some 0

theorem trim_variantText {name : String} (hname : Plain name.toList) (payload : List Char) :
    trim isWhitespace (variantText name payload) = variantText name payload := by
  refine trim_eq_self (fun c hc ↦ ?_) fun c hc ↦ ?_
  · obtain ⟨x, xs, hx⟩ := List.exists_cons_of_ne_nil hname.1
    rw [variantText, hx] at hc
    obtain rfl := Option.some_inj.mp hc
    exact (hname.2 x (hx ▸ List.mem_cons_self)).1
  · rw [variantText, ← List.cons_append, ← List.append_assoc, List.getLast?_concat] at hc
    obtain rfl := Option.some_inj.mp hc
    rfl

theorem deserialize_variantText [Deserialize F] {name : String} {payload : List Char}
    (hname : Plain name.toList) (h : parenDepth 0 payload = some 0) :
    (deserialize (variantText name payload) : Res (Command F)) =
      Command.ofVariant name payload := by
  have hnot : ∀ c ∈ name.toList, decide (c ≠ '(') = true := by
    intro c hc
    refine decide_eq_true fun hp ↦ (hname.2 c hc).2 ?_
    rw [hp]
    decide
  have htake : (variantText name payload).takeWhile (· ≠ '(') = name.toList := by
    rw [variantText, List.takeWhile_append_of_pos hnot]
    simp
  have hdrop : ((variantText name payload).dropWhile (· ≠ '(')).tail = payload ++ [')'] := by
    rw [variantText, List.dropWhile_append_of_pos hnot]
    simp
  simp only [deserialize, trim_variantText hname]
  rw [if_neg (by simp [variantText]), htake, hdrop, closing_eq h, hname.trim_eq,
    String.ofList_toList]

theorem plain_variants : ∀ n ∈ variants, Plain n.toList := by
  decide +kernel

theorem deserialize_payload {ρ : Type} [Serialize ρ] [Deserialize ρ] [Serialize F]
    [Deserialize F] (name : String) (mk : ρ → Command F) {r : ρ}
    (hser : serialize (mk r) = variantText name (serialize r))
    (hmk : ∀ t, Command.ofVariant name t = mk <$> deserialize t) (hname : name ∈ variants)
    (hpar : parenDepth 0 (serialize r) = some 0) (hr : deserialize (serialize r) = Res.ok r) :
    deserialize (serialize (mk r)) = Res.ok (mk r) := by
  rw [hser, deserialize_variantText (plain_variants name hname) hpar, hmk, hr]
  rfl

theorem Command.plain_fields [Serialize F] (c : Command F) :
    ∀ n ∈ c.fields.map Prod.fst, Plain n.toList := by
  have hplain : ∀ n ∈ ["key", "value", "exp", "duration", "values", "score", "chan", "vecs", "id"],
      Plain n.toList := by decide
  have hsub : c.fields.map Prod.fst ⊆
      ["key", "value", "exp", "duration", "values", "score", "chan", "vecs", "id"] := by
    cases c <;>
      simp [Command.fields, SetReq.fields, GetReq.fields, ExpireReq.fields, ListReq.fields,
        MapReq.fields, PubReq.fields, VSetReq.fields, VDelReq.fields]
  exact fun n hn ↦ hplain n (hsub hn)

theorem Command.deserialize_eq [Serialize F] [Deserialize F] [LawfulFloat F] {c : Command F}
    (h : c.Readable) : deserialize (serialize c) = Res.ok c := by
  obtain ⟨hstr, hsep, hpar⟩ := h
  have hpar : parenDepth 0 (serializeStruct c.fields) = some 0 := by
    rw [← parenDepth_parens, parens_serializeStruct c.plain_fields, parenDepth_parens]
    exact hpar
  cases c with
  | set req =>
    exact deserialize_payload "Set" .set rfl (fun _ ↦ rfl) (by simp [variants]) hpar
      (SetReq.deserialize_eq hstr.1 hstr.2 hsep)
  | delete req =>
    exact deserialize_payload "Delete" .delete rfl (fun _ ↦ rfl) (by simp [variants]) hpar
      (GetReq.deserialize_eq hstr hsep)
  | increment req =>
    exact deserialize_payload "Increment" .increment rfl (fun _ ↦ rfl) (by simp [variants]) hpar
      (GetReq.deserialize_eq hstr hsep)
  | decrement req =>
    exact deserialize_payload "Decrement" .decrement rfl (fun _ ↦ rfl) (by simp [variants]) hpar
      (GetReq.deserialize_eq hstr hsep)
  | expire req =>
    exact deserialize_payload "Expire" .expire rfl (fun _ ↦ rfl) (by simp [variants]) hpar
      (ExpireReq.deserialize_eq hstr hsep)
  | lpush req =>
    exact deserialize_payload "Lpush" .lpush rfl (fun _ ↦ rfl) (by simp [variants]) hpar
      (ListReq.deserialize_eq hstr hsep)
  | lpop req =>
    exact deserialize_payload "Lpop" .lpop rfl (fun _ ↦ rfl) (by simp [variants]) hpar
      (GetReq.deserialize_eq hstr hsep)
  | rpush req =>
    exact deserialize_payload "Rpush" .rpush rfl (fun _ ↦ rfl) (by simp [variants]) hpar
      (ListReq.deserialize_eq hstr hsep)
  | rpop req =>
    exact deserialize_payload "Rpop" .rpop rfl (fun _ ↦ rfl) (by simp [variants]) hpar
      (GetReq.deserialize_eq hstr hsep)
  | sadd req =>
    exact deserialize_payload "Sadd" .sadd rfl (fun _ ↦ rfl) (by simp [variants]) hpar
      (ListReq.deserialize_eq hstr hsep)
  | zadd req =>
    exact deserialize_payload "Zadd" .zadd rfl (fun _ ↦ rfl) (by simp [variants]) hpar
      (MapReq.deserialize_eq hstr.1 hstr.2 hsep)
  | publish req =>
    exact deserialize_payload "Publish" .publish rfl (fun _ ↦ rfl) (by simp [variants]) hpar
      (PubReq.deserialize_eq hstr.1 hstr.2 hsep)
  | vset req =>
    exact deserialize_payload "VSet" .vset rfl (fun _ ↦ rfl) (by simp [variants]) hpar
      (VSetReq.deserialize_eq hstr hsep)
  | vdel req =>
    exact deserialize_payload "VDel" .vdel rfl (fun _ ↦ rfl) (by simp [variants]) hpar
      (VDelReq.deserialize_eq hstr.1 hstr.2 hsep)
  | unknown => rfl

/-! ## Messages come back -/

/-- The fields of a command are not taken apart by the loops of the log entry, of the message and of
the list of entries, which meet them inside of one or two pairs of braces and, in the message, of
the brackets of the list. -/
def Command.Nested [Serialize F] (c : Command F) : Prop :=
  ∀ t ∈ texts c.fields,
    kvScanner.Passes (0, 1) t ∧ kvScanner.Passes (1, 2) t ∧ vecScanner.Passes 2 t

instance [Serialize F] (c : Command F) : Decidable c.Nested :=
  inferInstanceAs (Decidable (∀ _ ∈ _, _))

/-- A message that is read back. -/
structure AppendEntries.Readable [Serialize F] (m : AppendEntries (Command F)) : Prop where
  leader : FieldString m.leader ∧ kvScanner.Passes 0 (serialize m.leader)
  entries : ∀ e ∈ m.entries, e.command.Readable ∧ e.command.Nested

/-- The numbers of a message are in the range of `usize`. -/
structure AppendEntries.Usize {C : Type} (m : AppendEntries C) : Prop where
  term : m.term < 2 ^ 64
  prevLogIndex : ∀ n ∈ m.prevLogIndex, n < 2 ^ 64
  prevLogTerm : ∀ n ∈ m.prevLogTerm, n < 2 ^ 64
  leaderCommit : ∀ n ∈ m.leaderCommit, n < 2 ^ 64
  entries : ∀ e ∈ m.entries, e.term < 2 ^ 64

theorem Command.serialize_eq [Serialize F] (c : Command F) : serialize c = "Unknown".toList ∨
    ∃ name ∈ variants, serialize c = variantText name (serializeStruct c.fields) := by
  cases c with
  | set req => exact Or.inr ⟨"Set", by simp [variants], rfl⟩
  | delete req => exact Or.inr ⟨"Delete", by simp [variants], rfl⟩
  | increment req => exact Or.inr ⟨"Increment", by simp [variants], rfl⟩
  | decrement req => exact Or.inr ⟨"Decrement", by simp [variants], rfl⟩
  | expire req => exact Or.inr ⟨"Expire", by simp [variants], rfl⟩
  | lpush req => exact Or.inr ⟨"Lpush", by simp [variants], rfl⟩
  | lpop req => exact Or.inr ⟨"Lpop", by simp [variants], rfl⟩
  | rpush req => exact Or.inr ⟨"Rpush", by simp [variants], rfl⟩
  | rpop req => exact Or.inr ⟨"Rpop", by simp [variants], rfl⟩
  | sadd req => exact Or.inr ⟨"Sadd", by simp [variants], rfl⟩
  | zadd req => exact Or.inr ⟨"Zadd", by simp [variants], rfl⟩
  | publish req => exact Or.inr ⟨"Publish", by simp [variants], rfl⟩
  | vset req => exact Or.inr ⟨"VSet", by simp [variants], rfl⟩
  | vdel req => exact Or.inr ⟨"VDel", by simp [variants], rfl⟩
  | unknown => exact Or.inl rfl

section

variable [Serialize F]

theorem Command.trim_serialize (c : Command F) :
    trim isWhitespace (serialize c) = serialize c := by
  rcases c.serialize_eq with h | ⟨name, hname, h⟩
  · rw [h]
    decide
  · rw [h]
    exact trim_variantText (plain_variants name hname) _

theorem Command.serialize_ne_none (c : Command F) : serialize c ≠ "None".toList := by
  rcases c.serialize_eq with h | ⟨name, -, h⟩
  · rw [h]
    decide
  · intro hn
    have hmem : '(' ∈ "None".toList := by
      rw [← hn, h, variantText]
      simp
    exact absurd hmem (by decide)

theorem Command.kvScanner_passes {c : Command F} {d : ℤ × ℤ} (hd : d + (0, 1) ≠ 0)
    (h : ∀ t ∈ texts c.fields, kvScanner.Passes (d + (0, 1)) t) :
    kvScanner.Passes d (serialize c) := by
  rcases c.serialize_eq with hc | ⟨name, hname, hc⟩
  · rw [hc]
    exact Neutral.kvScanner (by decide) d
  · have hopen : Neutral (name.toList ++ ['(']) :=
      (plain_variants name hname).neutral.append (by decide)
    rw [hc, variantText, List.append_cons]
    exact (hopen.kvScanner d).append
      ((kvScanner_struct hd c.plain_fields h).append (Neutral.kvScanner (by decide) d))

theorem Command.vecScanner_passes {c : Command F} {d : ℤ}
    (h : ∀ t ∈ texts c.fields, vecScanner.Passes (d + 1) t) :
    vecScanner.Passes d (serialize c) := by
  rcases c.serialize_eq with hc | ⟨name, hname, hc⟩
  · rw [hc]
    exact Neutral.vecScanner (by decide) d
  · have hopen : Neutral (name.toList ++ ['(']) :=
      (plain_variants name hname).neutral.append (by decide)
    rw [hc, variantText, List.append_cons]
    exact (hopen.vecScanner d).append
      ((vecScanner_struct c.plain_fields h).append (Neutral.vecScanner (by decide) d))

theorem LogEntry.plain_fields {C : Type} [Serialize C] (e : LogEntry C) :
    ∀ n ∈ e.fields.map Prod.fst, Plain n.toList := by
  have hplain : ∀ n ∈ ["command", "term"], Plain n.toList := by decide
  exact hplain

theorem LogEntry.kvScanner_passes {e : LogEntry (Command F)} (h : e.command.Nested) :
    kvScanner.Passes (1, 0) (serialize e) := by
  have hcmd : kvScanner.Passes (1, 1) (serialize e.command) :=
    Command.kvScanner_passes (by decide) fun t ht ↦ (h t ht).2.1
  refine kvScanner_struct (by decide) e.plain_fields (forall_texts ?_)
  simpa [LogEntry.fields] using ⟨hcmd, (plain_toDigits e.term).1.neutral.kvScanner (1, 1)⟩

theorem LogEntry.vecScanner_passes {e : LogEntry (Command F)} (h : e.command.Nested) :
    vecScanner.Passes 0 (serialize e) := by
  have hcmd : vecScanner.Passes 1 (serialize e.command) :=
    Command.vecScanner_passes fun t ht ↦ (h t ht).2.2
  refine vecScanner_struct e.plain_fields (forall_texts ?_)
  simpa [LogEntry.fields] using ⟨hcmd, (plain_toDigits e.term).1.neutral.vecScanner 1⟩

variable [Deserialize F] [LawfulFloat F]

theorem LogEntry.deserialize_eq {e : LogEntry (Command F)} (hterm : e.term < 2 ^ 64)
    (hr : e.command.Readable) (hn : e.command.Nested) :
    deserialize (serialize e) = Res.ok e := by
  have hc : Decodes e.command :=
    ⟨e.command.trim_serialize, e.command.serialize_ne_none, Command.deserialize_eq hr⟩
  have ht := (decodes_nat hterm).1
  have hcmd : kvScanner.Passes 0 (serialize e.command) :=
    Command.kvScanner_passes (by decide) fun t ht ↦ (hn t ht).1
  have hpass : ∀ f ∈ e.fields, kvScanner.Passes 0 f.2 := by
    simpa [LogEntry.fields] using ⟨hcmd, (plain_toDigits e.term).1.neutral.kvScanner 0⟩
  have h : Separable e.fields := Separable.of_names ["command", "term"] rfl (by decide)
    (by simpa [LogEntry.fields] using ⟨hc.trim_eq, ht.trim_eq⟩)
    (Scanner.separates_of_passes (forall_texts hpass))
  simp only [deserialize, serialize]
  rw [h.field_eq hc (by simp [LogEntry.fields]), Res.ok_bind,
    h.field_eq ht (by simp [LogEntry.fields]), Res.ok_bind]

theorem decodes_entries {es : List (LogEntry (Command F))} (hterm : ∀ e ∈ es, e.term < 2 ^ 64)
    (h : ∀ e ∈ es, e.command.Readable ∧ e.command.Nested) : Decodes es := by
  refine decodes_list (Scanner.separates_of_passes fun t ht ↦ ?_)
    (listable_of_forall fun t ht ↦ ?_) fun e he ↦ ⟨trim_serializeStruct _, ?_⟩
  · obtain ⟨e, he, rfl⟩ := List.mem_map.mp ht
    exact LogEntry.vecScanner_passes (h e he).2
  · obtain ⟨e, -, rfl⟩ := List.mem_map.mp ht
    exact listable_serializeStruct _
  · exact LogEntry.deserialize_eq (hterm e he) (h e he).1 (h e he).2

theorem kvScanner_optional (o : Option ℕ) : kvScanner.Passes 0 (serialize o) := by
  cases o with
  | none => exact Neutral.kvScanner (by decide) 0
  | some n => exact (plain_toDigits n).1.neutral.kvScanner 0

theorem AppendEntries.deserialize_eq {m : AppendEntries (Command F)} (hu : m.Usize)
    (hr : m.Readable) : deserialize (serialize m) = Res.ok m := by
  obtain ⟨⟨hleader, hlpass⟩, hentries⟩ := hr
  have ht := (decodes_nat hu.term).1
  have he := decodes_entries hu.entries hentries
  have hepass : kvScanner.Passes 0 (serialize m.entries) :=
    kvScanner_list fun e he ↦ LogEntry.kvScanner_passes (hentries e he).2
  have hopt : ∀ o : Option ℕ, (∀ n ∈ o, n < 2 ^ 64) →
      trim isWhitespace (serialize o) = serialize o :=
    fun o ho ↦ trim_serialize_option fun n hn ↦ (decodes_nat (ho n hn)).1.trim_eq
  have htrim : ∀ f ∈ m.fields, trim isWhitespace f.2 = f.2 := by
    simpa [AppendEntries.fields] using ⟨ht.trim_eq, hleader.decodes.trim_eq,
      hopt _ hu.prevLogIndex, hopt _ hu.prevLogTerm, he.trim_eq, hopt _ hu.leaderCommit⟩
  have hpass : ∀ f ∈ m.fields, kvScanner.Passes 0 f.2 := by
    simpa [AppendEntries.fields] using ⟨(plain_toDigits m.term).1.neutral.kvScanner 0, hlpass,
      kvScanner_optional m.prevLogIndex, kvScanner_optional m.prevLogTerm, hepass,
      kvScanner_optional m.leaderCommit⟩
  have h : Separable m.fields := Separable.of_names
    ["term", "leader", "prev_log_index", "prev_log_term", "entries", "leader_commit"] rfl
    (by decide +kernel) htrim (Scanner.separates_of_passes (forall_texts hpass))
  have hget : ∀ {o : Option ℕ} {n : String}, (∀ k ∈ o, k < 2 ^ 64) → (n, serialize o) ∈ m.fields →
      optField (parseStruct (serializeStruct m.fields)) n = Res.ok o :=
    fun ho hn ↦ h.optField_eq (fun k hk ↦ decodes_nat (ho k hk)) hn
  simp only [deserialize, serialize]
  rw [h.field_eq ht (by simp [AppendEntries.fields]), Res.ok_bind,
    h.field_eq hleader.decodes (by simp [AppendEntries.fields]), Res.ok_bind,
    hget hu.prevLogIndex (by simp [AppendEntries.fields]), Res.ok_bind,
    hget hu.prevLogTerm (by simp [AppendEntries.fields]), Res.ok_bind,
    h.field_eq he (by simp [AppendEntries.fields]), Res.ok_bind,
    hget hu.leaderCommit (by simp [AppendEntries.fields]), Res.ok_bind]

end

/-- **Replication messages come back from the wire**, and so do commands by themselves, if the loops
that read them find the pieces that were written. -/
theorem append_entries_round_trip [Serialize F] [Deserialize F] [LawfulFloat F] :
    (∀ m : AppendEntries (Command F), m.Usize → m.Readable →
      deserialize (serialize m) = Res.ok m) ∧
    ∀ c : Command F, c.Readable → deserialize (serialize c) = Res.ok c :=
  ⟨fun _ hu hr ↦ AppendEntries.deserialize_eq hu hr, fun _ hr ↦ Command.deserialize_eq hr⟩

/-- Integers print as floating point numbers of the same value do. -/
instance : LawfulFloat Int64 where
  plain := fun n ↦ (plain_signedDigits n.toInt).1
  ok := deserialize_int64

/-- A message with a quoted string, a list and a vector. -/
def sampleMessage : AppendEntries (Command Int64) where
  term := 3
  leader := "node 1"
  prevLogIndex := some 4
  prevLogTerm := none
  entries := [⟨.lpush ⟨"k", ["a, b", "(c)"]⟩, 2⟩, ⟨.vset ⟨"v", [⟨7, [1, -2]⟩]⟩, 3⟩]
  leaderCommit := none

theorem append_entries_round_trip_sample :
    deserialize (serialize sampleMessage) = Res.ok sampleMessage ∧
      ∃ c : Command Int64, c = .delete ⟨"a b"⟩ ∧ deserialize (serialize c) = Res.ok c := by
  have hvalues : (⟨"k", ["a, b", "(c)"]⟩ : ListReq).Readable := by decide +kernel
  have hkey : FieldString "v" := by decide +kernel
  have hspace : FieldString "a b" := by decide +kernel
  have hu : sampleMessage.Usize := by
    constructor <;> decide
  refine ⟨append_entries_round_trip.1 _ hu ⟨by decide +kernel, fun e he ↦ ?_⟩, _, rfl,
    append_entries_round_trip.2 _ ⟨hspace, by decide +kernel, by decide +kernel⟩⟩
  simp only [sampleMessage, List.mem_cons, List.not_mem_nil, or_false] at he
  rcases he with rfl | rfl
  · exact ⟨⟨hvalues, by decide +kernel, by decide +kernel⟩, by decide +kernel⟩
  · exact ⟨⟨hkey, by decide +kernel, by decide +kernel⟩, by decide +kernel⟩

/-- A string with a space and with quotation marks in it. -/
def quotingCommand : Command Int64 := .set ⟨"k", "say \"hi there\"", none⟩

def quotingMessage : AppendEntries (Command Int64) where
  term := 1
  leader := "n"
  prevLogIndex := none
  prevLogTerm := none
  entries := [⟨quotingCommand, 1⟩]
  leaderCommit := none

/-- The quotation mark before `hi` ends the quotation for the loops, and the space after it ends the
field.  The rest of the string is taken for another field. -/
theorem not_append_entries_round_trip :
    deserialize (serialize quotingMessage) ≠ Res.ok quotingMessage ∧
    deserialize (serialize quotingCommand) ≠ Res.ok quotingCommand ∧
    deserialize (serialize quotingCommand) =
      Res.ok (.set ⟨"k", "\"say \\\"hi", none⟩ : Command Int64) := by
  refine ⟨?_, ?_, ?_⟩ <;> decide +kernel

end Efis
