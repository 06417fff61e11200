import Efis.Rpc.Message

/-!
# What decoders do with malformed text

A decoder takes a text apart, down to pieces that are numbers, strings and optional numbers, and
decodes these one after the other.  How it is taken apart depends on the text alone: a piece that
does not decode ends the decoder, but does not change what the pieces are.  `pieces` lists them, in
the order in which they are decoded, with a piece `reject` for a field that is missing and for a
command whose parentheses do not fit.

So how a decoder ends is decided by the first piece that does not decode (`judge`).  There are two
kinds of piece at which it panics rather than return an error.

* A string that is a single quotation mark: it starts and ends with one, and the slice between them
  has no length.
* An optional number that is not a number: the error is unwrapped.
-/

set_option autoImplicit false

namespace Efis

namespace Rpc

open Text

/-! ## Verdicts -/

/-- How a decoder ends. -/
inductive Verdict where
  | ok
  | err
  | panic
  deriving DecidableEq

/-- The second only matters if the first has decoded. -/
def Verdict.andThen : Verdict → Verdict → Verdict
  | .ok, v => v
  | v, _ => v

@[simp] theorem Verdict.ok_andThen (v : Verdict) : Verdict.ok.andThen v = v := rfl

@[simp] theorem Verdict.andThen_ok (v : Verdict) : v.andThen .ok = v := by
  cases v <;> rfl

theorem Verdict.andThen_assoc (u v w : Verdict) :
    (u.andThen v).andThen w = u.andThen (v.andThen w) := by
  cases u <;> rfl

namespace Res

variable {α β : Type}

def verdict : Res α → Verdict
  | .ok _ => .ok
  | .err _ => .err
  | .panic => .panic

/-- Decoders one after the other, where the second always ends in the same way. -/
theorem verdict_bind {x : Res α} {f : α → Res β} {v : Verdict} (h : ∀ a, (f a).verdict = v) :
    (x >>= f).verdict = x.verdict.andThen v := by
  cases x with
  | ok a => exact h a
  | err msg => rfl
  | panic => rfl

theorem verdict_map (f : α → β) (x : Res α) : (f <$> x).verdict = x.verdict := by
  cases x <;> rfl

end Res

/-! ## Pieces -/

/-- A text that is decoded as a whole.  Numbers come with the test whether they can be parsed. -/
inductive Piece where
  | number (accepts : List Char → Bool) (t : List Char)
  | optional (accepts : List Char → Bool) (t : List Char)
  | text (t : List Char)
  | reject

namespace Piece

/-- The piece decodes. -/
def Accepted : Piece → Prop
  | number accepts t => accepts t = true
  | optional accepts t => "None".toList <:+: t ∨ t = [] ∨ accepts t = true
  | text t => trim isWhitespace t ≠ ['"']
  | reject => False

/-- A string or an optional number, where it is fatal if it does not. -/
def Fatal : Piece → Prop
  | optional _ _ => True
  | text _ => True
  | _ => False

instance (p : Piece) : Decidable p.Accepted :=
  match p with
  | number accepts t => inferInstanceAs (Decidable (accepts t = true))
  | optional accepts t =>
    inferInstanceAs (Decidable ("None".toList <:+: t ∨ t = [] ∨ accepts t = true))
  | text t => inferInstanceAs (Decidable (trim isWhitespace t ≠ ['"']))
  | reject => isFalse id

instance (p : Piece) : Decidable p.Fatal :=
  match p with
  | number _ _ => isFalse id
  | optional _ _ => isTrue trivial
  | text _ => isTrue trivial
  | reject => isFalse id

def verdict (p : Piece) : Verdict :=
  if p.Accepted then .ok else if p.Fatal then .panic else .err

theorem verdict_of_accepted {p : Piece} (h : p.Accepted) : p.verdict = .ok := if_pos h

theorem verdict_of_fatal {p : Piece} (h : ¬ p.Accepted) (hf : p.Fatal) : p.verdict = .panic := by
  rw [verdict, if_neg h, if_pos hf]

end Piece

/-- The first piece that does not decode decides. -/
def judge (ps : List Piece) : Verdict :=
  ps.foldr (fun p v ↦ p.verdict.andThen v) .ok

@[simp] theorem judge_nil : judge [] = .ok := rfl

@[simp] theorem judge_singleton (p : Piece) : judge [p] = p.verdict := p.verdict.andThen_ok

theorem judge_cons (p : Piece) (ps : List Piece) :
    judge (p :: ps) = p.verdict.andThen (judge ps) := rfl

theorem judge_append (ps qs : List Piece) :
    judge (ps ++ qs) = (judge ps).andThen (judge qs) := by
  induction ps with
  | nil => rfl
  | cons p ps ih => rw [List.cons_append, judge_cons, judge_cons, ih, Verdict.andThen_assoc]

/-- The first piece that does not decode is of the fatal kind. -/
def Lethal (ps : List Piece) : Prop :=
  ∃ before p after, ps = before ++ p :: after ∧ (∀ q ∈ before, q.Accepted) ∧ ¬ p.Accepted ∧ p.Fatal

theorem judge_eq_panic_iff (ps : List Piece) : judge ps = .panic ↔ Lethal ps := by
  induction ps with
  | nil =>
    refine iff_of_false (by simp) ?_
    rintro ⟨before, p, after, h, -⟩
    exact absurd h (by simp)
  | cons q ps ih =>
    rw [judge_cons, Piece.verdict]
    constructor
    · intro h
      split_ifs at h with hacc hfatal
      · obtain ⟨before, p, after, rfl, hb, hp⟩ := ih.mp h
        exact ⟨q :: before, p, after, rfl, List.forall_mem_cons.mpr ⟨hacc, hb⟩, hp⟩
      · exact ⟨[], q, ps, rfl, by simp, hacc, hfatal⟩
      · cases h
    · rintro ⟨before, p, after, hps, hb, hacc, hfatal⟩
      cases before with
      | nil =>
        obtain ⟨rfl, rfl⟩ := List.cons.inj hps
        rw [if_neg hacc, if_pos hfatal]
        rfl
      | cons r before =>
        obtain ⟨rfl, rfl⟩ := List.cons.inj hps
        obtain ⟨hq, hb⟩ := List.forall_mem_cons.mp hb
        rw [if_pos hq]
        exact ih.mpr ⟨before, p, after, rfl, hb, hacc, hfatal⟩

/-! ## Decoders -/

/-- A number: there is a test whether a text can be parsed, and no panic. -/
class NumberText (α : Type) [Deserialize α] where
  accepts : List Char → Bool
  verdict_eq : ∀ t, (deserialize t : Res α).verdict = if accepts t then .ok else .err

/-- A decoder that ends as its pieces say. -/
class Pieces (α : Type) [Deserialize α] where
  pieces : List Char → List Piece
  verdict_eq : ∀ t, (deserialize t : Res α).verdict = judge (pieces t)

variable {α β : Type}

theorem verdict_ofParse (f : α → β) (msg : String → String) (x : Except String α) :
    (ofParse f msg x).verdict = if x.isOk then .ok else .err := by
  cases x <;> rfl

instance : NumberText ℕ where
  accepts t := (parseUnsigned t).isOk
  verdict_eq _ := verdict_ofParse _ _ _

instance : NumberText UInt64 where
  accepts t := (parseUnsigned t).isOk
  verdict_eq _ := verdict_ofParse _ _ _

instance : NumberText Int64 where
  accepts t := (parseSigned 63 t).isOk
  verdict_eq _ := verdict_ofParse _ _ _

instance [Deserialize α] [NumberText α] : Pieces α where
  pieces t := [.number (NumberText.accepts α) t]
  verdict_eq t := by
    rw [NumberText.verdict_eq, judge_singleton, Piece.verdict]
    rfl

theorem verdict_string (t : List Char) :
    (deserialize t : Res String).verdict =
      if trim isWhitespace t = ['"'] then .panic else .ok := by
  change (if (trim isWhitespace t).head? = some '"' ∧ (trim isWhitespace t).getLast? = some '"'
    then if (trim isWhitespace t).length = 1 then Res.panic else _ else _).verdict = _
  generalize trim isWhitespace t = u
  by_cases hu : u = ['"']
  · subst hu
    rfl
  · rw [if_neg hu]
    split
    · rename_i h
      split
      · rename_i hlen
        obtain ⟨c, rfl⟩ := List.length_eq_one_iff.mp hlen
        obtain rfl : c = '"' := Option.some_inj.mp h.1
        exact absurd rfl hu
      · rfl
    · rfl

instance : Pieces String where
  pieces t := [.text t]
  verdict_eq t := by
    rw [verdict_string, judge_singleton]
    split
    · rename_i h
      exact (Piece.verdict_of_fatal (p := .text t) (fun ha ↦ ha h) trivial).symm
    · rename_i h
      exact (Piece.verdict_of_accepted (p := .text t) h).symm

theorem verdict_option [Deserialize α] [NumberText α] (t : List Char) :
    (deserialize t : Res (Option α)).verdict = if "None".toList <:+: t ∨ t = [] then .ok
      else if NumberText.accepts α t then .ok else .panic := by
  have hnum : (deserialize t : Res α).verdict = _ := NumberText.verdict_eq t
  change (if "None".toList <:+: t ∨ t = [] then Res.ok none
    else (deserialize t : Res α).unwrap >>= fun a ↦ Res.ok (some a)).verdict = _
  split
  · rfl
  · cases hd : (deserialize t : Res α) with
    | ok a =>
      rw [hd] at hnum
      split at hnum
      · rename_i ha
        rw [if_pos ha]
        rfl
      · cases hnum
    | err msg =>
      rw [hd] at hnum
      split at hnum
      · cases hnum
      · rename_i ha
        rw [if_neg ha]
        rfl
    | panic =>
      rw [hd] at hnum
      split at hnum <;> cases hnum

instance [Deserialize α] [NumberText α] : Pieces (Option α) where
  pieces t := [.optional (NumberText.accepts α) t]
  verdict_eq t := by
    rw [verdict_option, judge_singleton]
    symm
    split
    · rename_i h
      exact Piece.verdict_of_accepted (h.imp_right Or.inl)
    · rename_i h
      split
      · rename_i ha
        exact Piece.verdict_of_accepted (Or.inr (Or.inr ha))
      · rename_i ha
        refine Piece.verdict_of_fatal ?_ trivial
        rintro (hn | hn | hn)
        · exact h (Or.inl hn)
        · exact h (Or.inr hn)
        · exact ha hn

theorem verdict_mapM [Deserialize α] [Pieces α] (ts : List (List Char)) :
    (ts.mapM deserialize : Res (List α)).verdict = judge (ts.flatMap (Pieces.pieces α)) := by
  induction ts with
  | nil => rfl
  | cons t ts ih =>
    rw [List.mapM_cons, List.flatMap_cons, judge_append, ← Pieces.verdict_eq]
    refine Res.verdict_bind fun a ↦ ?_
    rw [Res.verdict_bind (v := .ok) fun as ↦ rfl, Verdict.andThen_ok, ih]

instance [Deserialize α] [Pieces α] : Pieces (List α) where
  pieces t :=
    let inner := ((trim isWhitespace t).dropWhile (· = '[')).rdropWhile (· = ']')
    if inner = [] then [] else (elements inner).flatMap (Pieces.pieces α)
  verdict_eq t := by
    simp only [deserialize]
    split
    · rfl
    · exact verdict_mapM _

/-! ## Structs -/

def fieldPieces (α : Type) [Deserialize α] [Pieces α] (map : List (List Char × List Char))
    (name : String) : List Piece :=
  match map.lookup name.toList with
  | some t => Pieces.pieces α t
  | none => [.reject]

def optFieldPieces (α : Type) [Deserialize α] [NumberText α] (map : List (List Char × List Char))
    (name : String) : List Piece :=
  match map.lookup name.toList with
  | some t => Pieces.pieces (Option α) t
  | none => []

section

variable [Deserialize α] {map : List (List Char × List Char)} {name : String} {ps : List Piece}

/-- A field, and then the others. -/
theorem verdict_field [Pieces α] {f : α → Res β} (h : ∀ a, (f a).verdict = judge ps) :
    (field map name >>= f).verdict = judge (fieldPieces α map name ++ ps) := by
  rw [judge_append, Res.verdict_bind h]
  refine congrArg (Verdict.andThen · _) ?_
  rw [field, fieldPieces]
  cases map.lookup name.toList with
  | some t => exact Pieces.verdict_eq t
  | none => rfl

theorem verdict_optField [NumberText α] {f : Option α → Res β}
    (h : ∀ a, (f a).verdict = judge ps) :
    (optField map name >>= f).verdict = judge (optFieldPieces α map name ++ ps) := by
  rw [judge_append, Res.verdict_bind h]
  refine congrArg (Verdict.andThen · _) ?_
  rw [optField, optFieldPieces]
  cases map.lookup name.toList with
  | some t => exact Pieces.verdict_eq t
  | none => rfl

end

end Rpc

open Rpc Text

/-! ## Requests -/

instance : Pieces SetReq where
  pieces t :=
    let map := parseStruct t
    fieldPieces String map "key" ++ (fieldPieces String map "value" ++
      (optFieldPieces UInt64 map "exp" ++ []))
  verdict_eq _ := verdict_field fun _ ↦ verdict_field fun _ ↦ verdict_optField fun _ ↦ rfl

instance : Pieces GetReq where
  pieces t := fieldPieces String (parseStruct t) "key" ++ []
  verdict_eq _ := verdict_field fun _ ↦ rfl

instance : Pieces ExpireReq where
  pieces t :=
    let map := parseStruct t
    fieldPieces String map "key" ++ (fieldPieces UInt64 map "duration" ++ [])
  verdict_eq _ := verdict_field fun _ ↦ verdict_field fun _ ↦ rfl

instance : Pieces ListReq where
  pieces t :=
    let map := parseStruct t
    fieldPieces String map "key" ++ (fieldPieces (List String) map "values" ++ [])
  verdict_eq _ := verdict_field fun _ ↦ verdict_field fun _ ↦ rfl

instance : Pieces MapReq where
  pieces t :=
    let map := parseStruct t
    fieldPieces String map "key" ++ (fieldPieces Int64 map "score" ++
      (fieldPieces String map "value" ++ []))
  verdict_eq _ := verdict_field fun _ ↦ verdict_field fun _ ↦ verdict_field fun _ ↦ rfl

instance : Pieces PubReq where
  pieces t :=
    let map := parseStruct t
    fieldPieces String map "chan" ++ (fieldPieces String map "value" ++ [])
  verdict_eq _ := verdict_field fun _ ↦ verdict_field fun _ ↦ rfl

instance : Pieces VDelReq where
  pieces t :=
    let map := parseStruct t
    fieldPieces String map "key" ++ (fieldPieces String map "id" ++ [])
  verdict_eq _ := verdict_field fun _ ↦ verdict_field fun _ ↦ rfl

section

variable {F : Type} [Deserialize F] [NumberText F]

instance : Pieces (VecReq F) where
  pieces t :=
    let map := parseStruct t
    fieldPieces UInt64 map "id" ++ (fieldPieces (List F) map "vec" ++ [])
  verdict_eq _ := verdict_field fun _ ↦ verdict_field fun _ ↦ rfl

instance : Pieces (VSetReq F) where
  pieces t :=
    let map := parseStruct t
    fieldPieces String map "key" ++ (fieldPieces (List (VecReq F)) map "vecs" ++ [])
  verdict_eq _ := verdict_field fun _ ↦ verdict_field fun _ ↦ rfl

/-! ## Commands and messages -/

/-- The pieces of the request of a command. -/
def variantPieces (F : Type) [Deserialize F] [NumberText F] (variant : String)
    (inner : List Char) : List Piece :=
  match variant with
  | "Set" => Pieces.pieces SetReq inner
  | "Delete" => Pieces.pieces GetReq inner
  | "Increment" => Pieces.pieces GetReq inner
  | "Decrement" => Pieces.pieces GetReq inner
  | "Expire" => Pieces.pieces ExpireReq inner
  | "Lpush" => Pieces.pieces ListReq inner
  | "Lpop" => Pieces.pieces GetReq inner
  | "Rpush" => Pieces.pieces ListReq inner
  | "Rpop" => Pieces.pieces GetReq inner
  | "Sadd" => Pieces.pieces ListReq inner
  | "Zadd" => Pieces.pieces MapReq inner
  | "Publish" => Pieces.pieces PubReq inner
  | "VSet" => Pieces.pieces (VSetReq F) inner
  | "VDel" => Pieces.pieces VDelReq inner
  | _ => []

theorem verdict_ofVariant (variant : String) (inner : List Char) :
    (Command.ofVariant variant inner : Res (Command F)).verdict =
      judge (variantPieces F variant inner) := by
  unfold Command.ofVariant variantPieces
  split
  case h_15 =>
    simp_all only [imp_false, judge_nil]
    rfl
  all_goals exact (Res.verdict_map _ _).trans (Pieces.verdict_eq inner)

instance : Pieces (Command F) where
  pieces t :=
    let s := trim isWhitespace t
    if '(' ∉ s then if String.ofList s ∈ variants then [.reject] else []
    else
      match closing 1 (s.dropWhile (· ≠ '(')).tail with
      | none => [.reject]
      | some inner =>
        variantPieces F (String.ofList (trim isWhitespace (s.takeWhile (· ≠ '(')))) inner
  verdict_eq t := by
    simp only [deserialize]
    split
    · split <;> rfl
    · cases closing 1 ((trim isWhitespace t).dropWhile (· ≠ '(')).tail with
      | none => rfl
      | some inner => exact verdict_ofVariant _ _

instance {C : Type} [Deserialize C] [Pieces C] : Pieces (LogEntry C) where
  pieces t :=
    let map := parseStruct t
    fieldPieces C map "command" ++ (fieldPieces ℕ map "term" ++ [])
  verdict_eq _ := verdict_field fun _ ↦ verdict_field fun _ ↦ rfl

instance {C : Type} [Deserialize C] [Pieces C] : Pieces (AppendEntries C) where
  pieces t :=
    let map := parseStruct t
    fieldPieces ℕ map "term" ++ (fieldPieces String map "leader" ++
      (optFieldPieces ℕ map "prev_log_index" ++ (optFieldPieces ℕ map "prev_log_term" ++
        (fieldPieces (List (LogEntry C)) map "entries" ++
          (optFieldPieces ℕ map "leader_commit" ++ [])))))
  verdict_eq _ := verdict_field fun _ ↦ verdict_field fun _ ↦ verdict_optField fun _ ↦
    verdict_optField fun _ ↦ verdict_field fun _ ↦ verdict_optField fun _ ↦ rfl

end

end Efis
