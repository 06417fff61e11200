import Efis.Consensus.Node
import Efis.Rpc.Schema
import Mathlib.Data.List.Chain

/-!
# The client

What `Client::call` makes of the line that comes back.  It looks for a redirect first, by the words
in the line, then tries to read an error, and only then reads the response that the caller asked
for.  The error is a struct with one field, and any text with that field in it is one.

The two replies of the consensus are made of numbers and booleans.  They come back as they are, and
neither of the first two tests takes them for its own (`RequestVoteReply.classify_eq`,
`AppendEntriesReply.classify_eq`).
-/

set_option autoImplicit false

namespace Efis

open Rpc Text

/-! ## Classification -/

inductive ClientError where
  | connection (msg : String)
  | redirect (leader : String)
  | server (msg : String)
  deriving DecidableEq

structure ErrorRes where
  error : String

def ErrorRes.fields (r : ErrorRes) : List (String × List Char) :=
  [("error", serialize r.error)]

instance : Serialize ErrorRes where
  serialize r := serializeStruct r.fields

instance : Deserialize ErrorRes where
  deserialize t := do
    let map := parseStruct t
    let error ← field map "error"
    .ok { error }

/-- `split(pat).nth(1)`: the text after the first `pat`, up to the second. -/
def between (pat t : List Char) : Option (List Char) :=
  (t.dropInfix? pat).map fun p ↦ ((p.2.dropInfix? pat).map Prod.fst).getD p.2

/-- `split_whitespace().next()`. -/
def firstWord (t : List Char) : Option (List Char) :=
  let w := (t.dropWhile isWhitespace).takeWhile fun c ↦ !isWhitespace c
  if w = [] then none else some w

def parseRedirect (response : List Char) : Option String :=
  if "not_leader".toList <:+: response then do
    let s ← between "leader=".toList response
    let w ← firstWord (trim isWhitespace (s.rdropWhile (· = '}')))
    some (String.ofList w)
  else none

/-- What `Client::call` returns for a line.  `none` if a decoder panics. -/
def classify (α : Type) [Deserialize α] (line : List Char) : Option (Except ClientError α) :=
  match parseRedirect line with
  | some leader => some (.error (.redirect leader))
  | none =>
    match (deserialize line : Res ErrorRes) with
    | .panic => none
    | .ok e => some (.error (.server e.error))
    | .err _ =>
      match (deserialize line : Res α) with
      | .panic => none
      | .ok a => some (.ok a)
      | .err msg => some (.error (.server ("Deserialize error: " ++ msg)))

/-! ## Texts that are neither a redirect nor an error -/

/-- Text in which no `l` comes after an underscore, and that can be put before other text. -/
def Unled (t : List Char) : Prop :=
  t.IsChain (fun a b ↦ ¬ (a = '_' ∧ b = 'l')) ∧ t.getLast? ≠ some '_'

instance (t : List Char) : Decidable (Unled t) :=
  inferInstanceAs (Decidable (_ ∧ _))

theorem unled_nil : Unled [] := by
  decide

theorem Unled.append {s t : List Char} (hs : Unled s) (ht : Unled t) : Unled (s ++ t) := by
  refine ⟨List.isChain_append.mpr ⟨hs.1, ht.1, ?_⟩, ?_⟩
  · rintro x hx y - ⟨rfl, -⟩
    exact hs.2 hx
  · rw [List.getLast?_append]
    cases h : t.getLast? with
    | none =>
      rw [Option.none_or]
      exact hs.2
    | some c =>
      rw [Option.some_or, ← h]
      exact ht.2

theorem unled_of_not_mem {t : List Char} (h : '_' ∉ t) : Unled t := by
  refine ⟨List.isChain_iff_forall_rel_of_append_cons_cons.mpr ?_,
    fun hl ↦ h (List.mem_of_getLast? hl)⟩
  rintro a b l₁ l₂ rfl ⟨rfl, -⟩
  exact h (by simp)

theorem unled_serializeStruct {fields : List (String × List Char)}
    (hname : ∀ n ∈ fields.map Prod.fst, Unled n.toList) (h : ∀ f ∈ fields, Unled f.2) :
    Unled (serializeStruct fields) := by
  have hjoin :
      Unled ([' '].intercalate ((present fields).map fun f ↦ f.1.toList ++ '=' :: f.2)) := by
    refine intercalate_induction unled_nil (fun _ _ ↦ Unled.append) (by decide) fun t ht ↦ ?_
    obtain ⟨f, hf, rfl⟩ := List.mem_map.mp ht
    have hf := List.mem_of_mem_filter hf
    rw [List.append_cons]
    exact ((hname f.1 (List.mem_map_of_mem hf)).append (by decide)).append (h f hf)
  exact (Unled.append (s := ['{']) (by decide) hjoin).append (by decide)

/-- The words `not_leader` are not in such a text. -/
theorem Unled.parseRedirect_eq {t : List Char} (h : Unled t) : parseRedirect t = none := by
  refine if_neg fun hi ↦ ?_
  obtain ⟨a, b, rfl⟩ := hi
  have hchain := (List.isChain_append.mp (List.isChain_append.mp h.1).1).2.1
  revert hchain
  decide

/-- A struct without a field of that name is no error. -/
theorem Rpc.Separable.errorRes_eq {fields : List (String × List Char)} (h : Separable fields)
    (hn : "error" ∉ fields.map Prod.fst) :
    (deserialize (serializeStruct fields) : Res ErrorRes) = .err "Missing field 'error'" := by
  have hlook := h.lookup_absent (n := "error") fun hmem ↦
    hn ((List.filter_sublist.map Prod.fst).subset hmem)
  change (field _ "error" : Res String) >>= _ = _
  rw [field, hlook]
  rfl

/-- A struct that comes back does so from the client, if neither its names nor its texts look like
those of a redirect or of an error. -/
theorem classify_struct {α : Type} [Deserialize α] {a : α} {fields : List (String × List Char)}
    (names : List String) (hnames : fields.map Prod.fst = names)
    (hn : "error" ∉ names ∧ ∀ n ∈ names, Unled n.toList) (hs : Separable fields)
    (ht : ∀ f ∈ fields, Unled f.2) (ha : deserialize (serializeStruct fields) = Res.ok a) :
    classify α (serializeStruct fields) = some (.ok a) := by
  subst hnames
  have hred := (unled_serializeStruct hn.2 ht).parseRedirect_eq
  have herr := hs.errorRes_eq hn.1
  rw [classify, hred]
  simp only [herr, ha]

/-! ## The replies of the consensus -/

def RequestVoteReply.fields (r : RequestVoteReply) : List (String × List Char) :=
  [("term", serialize r.term), ("voted", serialize r.voted)]

instance : Serialize RequestVoteReply where
  serialize r := serializeStruct r.fields

instance : Deserialize RequestVoteReply where
  deserialize t := do
    let map := parseStruct t
    let term ← field map "term"
    let voted ← field map "voted"
    .ok { term, voted }

def AppendEntriesReply.fields (r : AppendEntriesReply) : List (String × List Char) :=
  [("term", serialize r.term), ("success", serialize r.success),
    ("conflict_index", serialize r.conflictIndex), ("conflict_term", serialize r.conflictTerm)]

instance : Serialize AppendEntriesReply where
  serialize r := serializeStruct r.fields

instance : Deserialize AppendEntriesReply where
  deserialize t := do
    let map := parseStruct t
    let term ← field map "term"
    let success ← field map "success"
    let conflictIndex ← optField map "conflict_index"
    let conflictTerm ← optField map "conflict_term"
    .ok { term, success, conflictIndex, conflictTerm }

/-- The numbers of a reply are machine numbers. -/
def RequestVoteReply.Usize (r : RequestVoteReply) : Prop := r.term < 2 ^ 64

structure AppendEntriesReply.Usize (r : AppendEntriesReply) : Prop where
  term : r.term < 2 ^ 64
  conflictIndex : ∀ n ∈ r.conflictIndex, n < 2 ^ 64
  conflictTerm : ∀ n ∈ r.conflictTerm, n < 2 ^ 64

/-- The replies as the macro sees them. -/
def voteFields : Fields :=
  .cons "term" (.prim .usize) (.cons "voted" (.prim .bool) .nil)

def appendFields : Fields :=
  .cons "term" (.prim .usize) (.cons "success" (.prim .bool)
    (.cons "conflict_index" (.option .usize) (.cons "conflict_term" (.option .usize) .nil)))

theorem unled_toDigits (n : ℕ) : Unled (Nat.toDigits 10 n) := by
  refine unled_of_not_mem (not_mem_of_isDigit (fun c hc ↦ ?_) rfl)
  exact Nat.isDigit_of_mem_toDigits (by omega) (by omega) hc

theorem unled_optional (o : Option ℕ) : Unled (serialize o) := by
  cases o with
  | none => decide
  | some n => exact unled_toDigits n

theorem unled_bool (b : Bool) : Unled (serialize b) := by
  cases b <;> decide

namespace RequestVoteReply

variable {r : RequestVoteReply} (h : r.Usize)

include h

theorem separable : Separable r.fields :=
  Fields.separable voteFields (by decide +kernel) ⟨trivial, trivial, trivial⟩
    (⟨r.term, h⟩, r.voted, ())

theorem deserialize_eq : deserialize (serialize r) = Res.ok r := by
  have hs := separable h
  simp only [deserialize, serialize]
  rw [hs.field_eq (decodes_nat h).1 (by simp [fields]), Res.ok_bind,
    hs.field_eq (decodes_bool r.voted) (by simp [fields]), Res.ok_bind]

theorem classify_eq : classify RequestVoteReply (serialize r) = some (.ok r) := by
  refine classify_struct voteFields.names rfl (by decide +kernel) (separable h) ?_
    (deserialize_eq h)
  simpa [fields] using ⟨unled_toDigits r.term, unled_bool r.voted⟩

end RequestVoteReply

namespace AppendEntriesReply

variable {r : AppendEntriesReply} (h : r.Usize)

include h

theorem separable : Separable r.fields := by
  have hsep := Fields.separable appendFields (by decide +kernel)
    ⟨trivial, trivial, trivial, trivial, trivial⟩
    (⟨r.term, h.term⟩, r.success, r.conflictIndex.pmap Fin.mk h.conflictIndex,
      r.conflictTerm.pmap Fin.mk h.conflictTerm, ())
  have hopt : ∀ (o : Option ℕ) (ho : ∀ n ∈ o, n < 2 ^ 64),
      serialize (o.pmap Fin.mk ho) = serialize o := by
    intro o ho
    cases o <;> rfl
  rw [fields, ← hopt _ h.conflictIndex, ← hopt _ h.conflictTerm]
  exact hsep

theorem deserialize_eq : deserialize (serialize r) = Res.ok r := by
  have hs := separable h
  have hget : ∀ {o : Option ℕ} {n : String}, (∀ k ∈ o, k < 2 ^ 64) → (n, serialize o) ∈ r.fields →
      optField (parseStruct (serializeStruct r.fields)) n = Res.ok o :=
    fun ho hn ↦ hs.optField_eq (fun k hk ↦ decodes_nat (ho k hk)) hn
  simp only [deserialize, serialize]
  rw [hs.field_eq (decodes_nat h.term).1 (by simp [fields]), Res.ok_bind,
    hs.field_eq (decodes_bool r.success) (by simp [fields]), Res.ok_bind,
    hget h.conflictIndex (by simp [fields]), Res.ok_bind,
    hget h.conflictTerm (by simp [fields]), Res.ok_bind]

theorem classify_eq : classify AppendEntriesReply (serialize r) = some (.ok r) := by
  refine classify_struct appendFields.names rfl (by decide +kernel) (separable h) ?_
    (deserialize_eq h)
  simpa [fields] using ⟨unled_toDigits r.term, unled_bool r.success, unled_optional r.conflictIndex,
    unled_optional r.conflictTerm⟩

end AppendEntriesReply

/-- **The derived codec is faithful where there are no strings**: every value of every such type
comes back, and the replies of the consensus also come back through `Client::call`. -/
theorem derived_round_trip :
    (∀ s : Schema, s.WellNamed → ∀ x : s.Val, s.read (s.text x) = Res.ok x) ∧
    (∀ r : RequestVoteReply, r.Usize → deserialize (serialize r) = Res.ok r ∧
      classify RequestVoteReply (serialize r) = some (.ok r)) ∧
    ∀ r : AppendEntriesReply, r.Usize → deserialize (serialize r) = Res.ok r ∧
      classify AppendEntriesReply (serialize r) = some (.ok r) :=
  ⟨fun s hs x ↦ s.read_text hs x,
    fun _ h ↦ ⟨RequestVoteReply.deserialize_eq h, RequestVoteReply.classify_eq h⟩,
    fun _ h ↦ ⟨AppendEntriesReply.deserialize_eq h, AppendEntriesReply.classify_eq h⟩⟩

/-- A struct with a missing option, an empty list and a list of structs, one of them empty. -/
def sampleSchema : Schema :=
  .struct (.cons "a" (.prim .i32) (.cons "b" (.option .u64) (.cons "c" (.vecPrim .bool)
    (.cons "d" (.vecStruct (.cons "e" (.option .i64) .nil)) .nil))))

def sampleValue : sampleSchema.Val :=
  ((-5 : Int32), none, [], [(none, ()), (some (7 : Int64), ())], ())

def sampleReply : AppendEntriesReply := ⟨3, false, some 2, none⟩

theorem derived_round_trip_sample :
    sampleSchema.text sampleValue = "\x7ba=-5 c=[] d=[\x7b\x7d,\x7be=7\x7d]\x7d".toList ∧
    sampleSchema.read (sampleSchema.text sampleValue) = Res.ok sampleValue ∧
    serialize sampleReply = "\x7bterm=3 success=false conflict_index=2\x7d".toList ∧
    classify AppendEntriesReply (serialize sampleReply) = some (.ok sampleReply) ∧
    classify RequestVoteReply (serialize (⟨4, true⟩ : RequestVoteReply)) =
      some (.ok ⟨4, true⟩) := by
  refine ⟨by decide +kernel, derived_round_trip.1 sampleSchema ⟨by decide +kernel, ?_⟩ sampleValue,
    by decide +kernel, (derived_round_trip.2.2 _ ?_).2, (derived_round_trip.2.1 _ ?_).2⟩
  · exact ⟨trivial, trivial, trivial, ⟨by decide +kernel, trivial, trivial⟩, trivial⟩
  · constructor <;> decide
  · change 4 < 2 ^ 64
    decide

end Efis
