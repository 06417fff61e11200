import Efis.Text.Scan
import Mathlib.Algebra.Group.Int.Defs
import Mathlib.Algebra.Group.Nat.Defs
import Mathlib.Algebra.Group.Prod
import Mathlib.Data.List.Infix
import Mathlib.Data.Int.Basic

/-!
# The text protocol

`Serialize` and `Deserialize` for numbers, strings, options, lists and the structs that derive them,
on texts as lists of characters.  A list is `[a,b]` and a struct is `{x=a y=b}`, without the fields
whose text is `None`; a string stands as it is, or in quotation marks if there is a space in it.

Lists and structs are read by two loops that know of nesting and quotation marks, `elements` and
`parseKeyValues`.  A quotation mark in a string is written with a backslash before it, but neither
of the loops knows that.
-/

set_option autoImplicit false

namespace Efis

namespace Rpc

open Text

/-! ## Results -/

/-- What a decoder comes to. -/
inductive Res (α : Type) where
  | ok (a : α)
  | err (msg : String)
  | panic
  deriving DecidableEq

namespace Res

variable {α β : Type}

def bind : Res α → (α → Res β) → Res β
  | .ok a, f => f a
  | .err msg, _ => .err msg
  | .panic, _ => .panic

instance : Monad Res where
  pure := .ok
  bind := bind

instance : LawfulMonad Res :=
  LawfulMonad.mk' Res (fun x ↦ by cases x <;> rfl) (fun _ _ ↦ rfl)
    (fun x _ _ ↦ by cases x <;> rfl)

@[simp] theorem ok_bind (a : α) (f : α → Res β) : (Res.ok a >>= f) = f a := rfl

/-- `unwrap` of the error. -/
def unwrap : Res α → Res α
  | .err _ => .panic
  | r => r

end Res

class Serialize (α : Type) where
  serialize : α → List Char

class Deserialize (α : Type) where
  deserialize : List Char → Res α

export Serialize (serialize)
export Deserialize (deserialize)

/-! ## Numbers -/

/-- Read digits, of a number below the given bound. -/
def parseDigits (bound : ℕ) (overflow : String) : ℕ → List Char → Except String ℕ
  | n, [] => .ok n
  | n, c :: cs =>
    if c.isDigit then
      if n * 10 + (c.toNat - 48) < bound then
        parseDigits bound overflow (n * 10 + (c.toNat - 48)) cs
      else .error overflow
    else .error "invalid digit found in string"

/-- Read at least one digit. -/
def parseSome (bound : ℕ) (overflow : String) : List Char → Except String ℕ
  | [] => .error "invalid digit found in string"
  | cs => parseDigits bound overflow 0 cs

/-- `parse` for an unsigned number of 64 bits. -/
def parseUnsigned : List Char → Except String ℕ
  | [] => .error "cannot parse integer from empty string"
  | '+' :: cs => parseSome (2 ^ 64) "number too large to fit in target type" cs
  | cs => parseSome (2 ^ 64) "number too large to fit in target type" cs

/-- `parse` for a signed number of `w + 1` bits. -/
def parseSigned (w : ℕ) : List Char → Except String ℤ
  | [] => .error "cannot parse integer from empty string"
  | '+' :: cs =>
    (parseSome (2 ^ w) "number too large to fit in target type" cs).map Int.ofNat
  | '-' :: cs =>
    (parseSome (2 ^ w + 1) "number too small to fit in target type" cs).map fun n ↦ -(n : ℤ)
  | cs => (parseSome (2 ^ w) "number too large to fit in target type" cs).map Int.ofNat

/-- `to_string` of a signed number. -/
def signedDigits (n : ℤ) : List Char :=
  if n < 0 then '-' :: Nat.toDigits 10 n.natAbs else Nat.toDigits 10 n.natAbs

def ofParse {α β : Type} (f : α → β) (msg : String → String) : Except String α → Res β
  | .ok a => .ok (f a)
  | .error e => .err (msg e)

/-- `usize`. -/
instance : Serialize ℕ where
  serialize n := Nat.toDigits 10 n

instance : Deserialize ℕ where
  deserialize t :=
    ofParse id (fun e ↦ "Faield to parse usize: " ++ e ++ " " ++ String.ofList t) (parseUnsigned t)

/-- `u64`. -/
instance : Serialize UInt64 where
  serialize n := Nat.toDigits 10 n.toNat

instance : Deserialize UInt64 where
  deserialize t := ofParse UInt64.ofNat (fun e ↦ "Faield to parse u64: " ++ e) (parseUnsigned t)

/-- `i64`. -/
instance : Serialize Int64 where
  serialize n := signedDigits n.toInt

instance : Deserialize Int64 where
  deserialize t := ofParse Int64.ofInt (fun e ↦ "Failed to parse i64: " ++ e) (parseSigned 63 t)

/-- `i32`. -/
instance : Serialize Int32 where
  serialize n := signedDigits n.toInt

instance : Deserialize Int32 where
  deserialize t := ofParse Int32.ofInt (fun e ↦ "Failed to parse i32: " ++ e) (parseSigned 31 t)

/-- `parse` for a `bool`. -/
def parseBool (t : List Char) : Except String Bool :=
  if t = "true".toList then .ok true
  else if t = "false".toList then .ok false
  else .error "provided string was not `true` or `false`"

instance : Serialize Bool where
  serialize b := (if b then "true" else "false").toList

instance : Deserialize Bool where
  deserialize t := ofParse id (fun e ↦ "Faield to parse bool: " ++ e) (parseBool t)

/-! ## Strings -/

/-- `char::is_whitespace`. -/
def isWhitespace (c : Char) : Bool :=
  c ∈ ['\t', '\n', '\x0b', '\x0c', '\r', ' ', '\x85', '\xa0', '\u1680', '\u2028', '\u2029',
    '\u202f', '\u205f', '\u3000'] || ('\u2000' ≤ c && c ≤ '\u200a')

/-- `replace('"', "\\\"")`. -/
def escape (t : List Char) : List Char :=
  t.flatMap fun c ↦ if c = '"' then ['\\', '"'] else [c]

/-- `replace("\\\"", "\"")`. -/
def unescape : List Char → List Char
  | '\\' :: '"' :: t => '"' :: unescape t
  | c :: t => c :: unescape t
  | [] => []

instance : Serialize String where
  serialize s :=
    if ' ' ∈ s.toList then '"' :: (escape s.toList ++ ['"']) else s.toList

/-- A single quotation mark starts and ends with one, and the slice between them panics. -/
instance : Deserialize String where
  deserialize t :=
    let t := trim isWhitespace t
    if t.head? = some '"' ∧ t.getLast? = some '"' then
      if t.length = 1 then .panic else .ok (String.ofList (unescape t.tail.dropLast))
    else .ok (String.ofList t)

/-! ## Options and lists -/

variable {α : Type}

instance [Serialize α] : Serialize (Option α) where
  serialize
    | none => "None".toList
    | some a => serialize a

instance [Deserialize α] : Deserialize (Option α) where
  deserialize t :=
    if "None".toList <:+: t ∨ t = [] then .ok none
    else do
      let a ← (deserialize t).unwrap
      .ok (some a)

instance [Serialize α] : Serialize (List α) where
  serialize as := '[' :: ([','].intercalate (as.map serialize) ++ [']'])

/-- The state of the loop that takes a list apart. -/
structure Splitter where
  result : List (List Char)
  current : List Char
  depth : ℤ
  inQuotes : Bool

namespace Splitter

def push (s : Splitter) (c : Char) : Splitter :=
  { s with current := s.current ++ [c] }

def step (s : Splitter) (c : Char) : Splitter :=
  if c = '"' then { s.push c with inQuotes := !s.inQuotes }
  else if (c = '[' ∨ c = '{') ∧ !s.inQuotes then { s.push c with depth := s.depth + 1 }
  else if (c = ']' ∨ c = '}') ∧ !s.inQuotes then { s.push c with depth := s.depth - 1 }
  else if c = ',' ∧ s.depth = 0 ∧ !s.inQuotes then
    { s with result := s.result ++ [trim isWhitespace s.current], current := [] }
  else s.push c

/-- What is left in the end is an element too, unless it is blank. -/
def finish (s : Splitter) : List (List Char) :=
  if trim isWhitespace s.current ≠ [] then s.result ++ [trim isWhitespace s.current]
  else s.result

end Splitter

/-- The texts of the elements. -/
def elements (t : List Char) : List (List Char) :=
  (t.foldl Splitter.step ⟨[], [], 0, false⟩).finish

instance [Deserialize α] : Deserialize (List α) where
  deserialize t :=
    let inner := ((trim isWhitespace t).dropWhile (· = '[')).rdropWhile (· = ']')
    if inner = [] then .ok []
    else (elements inner).mapM deserialize

/-! ## Structs -/

/-- The state of `parse_key_values`.  What is inserted last comes first in `map`. -/
structure KeyValues where
  map : List (List Char × List Char)
  key : List Char
  value : List Char
  inKey : Bool
  inQuotes : Bool
  square : ℤ
  curly : ℤ

namespace KeyValues

def push (s : KeyValues) (c : Char) : KeyValues :=
  { s with value := s.value ++ [c] }

def insert (s : KeyValues) : List (List Char × List Char) :=
  (trim isWhitespace s.key, trim isWhitespace s.value) :: s.map

def step (s : KeyValues) (c : Char) : KeyValues :=
  if c = '=' ∧ s.inKey then { s with inKey := false }
  else if c = '"' then { s.push c with inQuotes := !s.inQuotes }
  else if c = '[' ∧ !s.inQuotes then { s.push c with square := s.square + 1 }
  else if c = ']' ∧ !s.inQuotes then { s.push c with square := s.square - 1 }
  else if c = '{' ∧ !s.inQuotes then { s.push c with curly := s.curly + 1 }
  else if c = '}' ∧ !s.inQuotes then { s.push c with curly := s.curly - 1 }
  else if c = ' ' ∧ !s.inQuotes ∧ s.square = 0 ∧ s.curly = 0 then
    if s.key ≠ [] then { s with map := s.insert, key := [], value := [], inKey := true }
    else s
  else if s.inKey then { s with key := s.key ++ [c] }
  else s.push c

def finish (s : KeyValues) : List (List Char × List Char) :=
  if s.key ≠ [] then s.insert else s.map

end KeyValues

def parseKeyValues (t : List Char) : List (List Char × List Char) :=
  (t.foldl KeyValues.step ⟨[], [], [], true, false, 0, 0⟩).finish

/-- The fields that are written: those whose text is not `None`. -/
def present (fields : List (String × List Char)) : List (String × List Char) :=
  fields.filter fun f ↦ f.2 ≠ "None".toList

/-- The derived `serialize`, of a struct with these fields. -/
def serializeStruct (fields : List (String × List Char)) : List Char :=
  '{' :: ([' '].intercalate ((present fields).map fun f ↦ f.1.toList ++ '=' :: f.2) ++ ['}'])

/-- The fields that the derived `deserialize` finds. -/
def parseStruct (t : List Char) : List (List Char × List Char) :=
  let t := trim isWhitespace t
  parseKeyValues (if t.head? = some '{' ∧ t.getLast? = some '}' then t.tail.dropLast else t)

/-- A field that has to be there. -/
def field [Deserialize α] (map : List (List Char × List Char)) (name : String) : Res α :=
  match map.lookup name.toList with
  | some t => deserialize t
  | none => .err ("Missing field '" ++ name ++ "'")

/-- A field of an optional type. -/
def optField [Deserialize α] (map : List (List Char × List Char)) (name : String) :
    Res (Option α) :=
  match map.lookup name.toList with
  | some t => deserialize t
  | none => .ok none

end Rpc

end Efis
