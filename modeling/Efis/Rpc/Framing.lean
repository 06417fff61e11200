import Efis.Bytes.Lines

/-!
# Lines from chunks

How the client task reads a response.  `read` returns some bytes at a time, which may be half a line
or several, and may end in the middle of a character.  They are collected until there is a newline
among them, and only then decoded.

So what is read depends on the bytes alone (`framing`): a call returns the first line, and a stream
gives on the lines up to the first one that says `done` or is no text.
-/

set_option autoImplicit false

namespace Efis

namespace Framing

open Bytes

/-! ## Reading -/

/-- What comes after the last byte. -/
inductive Ending where
  /-- The connection is closed, and `read` returns no bytes. -/
  | eof
  /-- `read` fails. -/
  | failed (msg : String)
  /-- The connection stays open, and `read` does not return. -/
  | silent

inductive ReadError where
  | eof
  | io (msg : String)
  /-- A line that is no text. -/
  | utf8 (line : List UInt8)
  deriving DecidableEq

inductive ReadResult (α : Type) where
  | ok (a : α)
  | err (e : ReadError)
  /-- It waits for bytes that do not come. -/
  | waits
  deriving DecidableEq

def Ending.result {α : Type} : Ending → ReadResult α
  | .eof => .err .eof
  | .failed msg => .err (.io msg)
  | .silent => .waits

/-- `String::from_utf8`. -/
def text (line : List UInt8) : ReadResult (List Char) :=
  match decode line with
  | some t => .ok t
  | none => .err (.utf8 line)

/-- The loop of `process_unary`, with what is accumulated so far. -/
def readLine (e : Ending) : List (List UInt8) → List UInt8 → ReadResult (List Char)
  | [], _ => e.result
  | chunk :: chunks, acc =>
    if chunk = [] then .err .eof
    else
      match cutLine (acc ++ chunk) with
      | some (line, _) => text line
      | none => readLine e chunks (acc ++ chunk)

/-- The payload is written first, which may fail. -/
def processUnary (write : Except String Unit) (e : Ending) (chunks : List (List UInt8)) :
    ReadResult (List Char) :=
  match write with
  | .ok () => readLine e chunks []
  | .error msg => .err (.io msg)

section

variable (isOpen : List (List Char) → Bool) (e : Ending)

/-- The inner loop of `process_stream`: what has been given on, and either how it ends or what is
left without a newline.  The receiver may be closed after any number of lines. -/
def drain (got : List (List Char)) (acc : List UInt8) :
    List (List Char) × (ReadResult Unit ⊕ List UInt8) :=
  match h : cutLine acc with
  | none => (got, .inr acc)
  | some (line, rest) =>
    have := length_lt_of_cutLine h
    match decode line with
    | none => (got, .inl (.err (.utf8 line)))
    | some t =>
      if t = "done".toList then (got, .inl (.ok ()))
      else if isOpen got then drain (got ++ [t]) rest
      else (got, .inl (.ok ()))
termination_by acc.length

/-- The loop of `process_stream`. -/
def readLines : List (List UInt8) → List (List Char) → List UInt8 →
    List (List Char) × ReadResult Unit
  | [], got, _ => (got, e.result)
  | chunk :: chunks, got, acc =>
    if chunk = [] then (got, .err .eof)
    else
      match drain isOpen got (acc ++ chunk) with
      | (got, .inl res) => (got, res)
      | (got, .inr rest) => readLines chunks got rest

/-- The lines that are given on, and how it ends. -/
def processStream (write : Except String Unit) (chunks : List (List UInt8)) :
    List (List Char) × ReadResult Unit :=
  match write with
  | .ok () => readLines isOpen e chunks [] []
  | .error msg => ([], .err (.io msg))

end

/-! ## One line -/

/-- A way to cut bytes into chunks. -/
structure Cuts (chunks : List (List UInt8)) (bs : List UInt8) : Prop where
  ne_nil : ∀ chunk ∈ chunks, chunk ≠ []
  flatten : chunks.flatten = bs

/-- The first line of some bytes. -/
def firstLine (e : Ending) (bs : List UInt8) : ReadResult (List Char) :=
  match (fullLines bs).head? with
  | some line => text line
  | none => e.result

theorem readLine_eq (e : Ending) {chunks : List (List UInt8)} (hne : ∀ c ∈ chunks, c ≠ [])
    {acc : List UInt8} (hacc : newline ∉ acc) :
    readLine e chunks acc = firstLine e (acc ++ chunks.flatten) := by
  induction chunks generalizing acc with
  | nil =>
    rw [readLine, List.flatten_nil, List.append_nil, firstLine, fullLines_of_not_mem hacc]
    rfl
  | cons chunk chunks ih =>
    rw [readLine, if_neg (hne chunk List.mem_cons_self), List.flatten_cons, ← List.append_assoc]
    cases hcut : cutLine (acc ++ chunk) with
    | some p =>
      rw [firstLine, fullLines_of_cutLine (cutLine_append_right hcut chunks.flatten)]
      rfl
    | none =>
      exact ih (fun c hc ↦ hne c (List.mem_cons_of_mem chunk hc)) (cutLine_eq_none.mp hcut)

/-! ## Several lines -/

section

variable {isOpen : List (List Char) → Bool} {got got' : List (List Char)}
  {acc more line rest : List UInt8}

theorem drain_of_not_mem (h : newline ∉ acc) : drain isOpen got acc = (got, .inr acc) := by
  rw [drain]
  split
  · rfl
  · rename_i hcut
    rw [cutLine_eq_none.mpr h] at hcut
    cases hcut

theorem drain_of_cutLine (h : cutLine acc = some (line, rest)) :
    drain isOpen got acc =
      match decode line with
      | none => (got, .inl (.err (.utf8 line)))
      | some t =>
        if t = "done".toList then (got, .inl (.ok ()))
        else if isOpen got then drain isOpen (got ++ [t]) rest
        else (got, .inl (.ok ())) := by
  rw [drain]
  split
  · rename_i hcut
    rw [h] at hcut
    cases hcut
  · rename_i hcut
    rw [h] at hcut
    obtain ⟨rfl, rfl⟩ := Prod.mk.inj (Option.some_inj.mp hcut)
    rfl

/-- What has been decided is not changed by more bytes, and what has not is decided later. -/
theorem drain_append (isOpen : List (List Char) → Bool) (got : List (List Char))
    (acc more : List UInt8) :
    (∀ got' res, drain isOpen got acc = (got', .inl res) →
      drain isOpen got (acc ++ more) = (got', .inl res)) ∧
    ∀ got' rest, drain isOpen got acc = (got', .inr rest) →
      newline ∉ rest ∧ drain isOpen got (acc ++ more) = drain isOpen got' (rest ++ more) := by
  fun_induction drain isOpen got acc with
  | case1 got acc hcut =>
    refine ⟨nofun, fun got' rest h ↦ ?_⟩
    obtain ⟨rfl, hrest⟩ := Prod.mk.inj h
    obtain rfl := Sum.inr.inj hrest
    exact ⟨cutLine_eq_none.mp hcut, rfl⟩
  | case2 got acc line rest hcut hlt hdec =>
    rw [drain_of_cutLine (cutLine_append_right hcut more), hdec]
    exact ⟨fun got' res h ↦ h, nofun⟩
  | case3 got acc line rest hcut hlt hdec =>
    rw [drain_of_cutLine (cutLine_append_right hcut more), hdec]
    exact ⟨fun got' res h ↦ h, nofun⟩
  | case4 got acc line rest hcut hlt t hdec hdone hopen ih =>
    rw [drain_of_cutLine (cutLine_append_right hcut more), hdec]
    simp only [if_neg hdone, if_pos hopen]
    exact ih
  | case5 got acc line rest hcut hlt t hdec hdone hopen =>
    rw [drain_of_cutLine (cutLine_append_right hcut more), hdec]
    simp only [if_neg hdone, if_neg hopen]
    exact ⟨fun got' res h ↦ h, nofun⟩

/-- All bytes at once. -/
def drainAll (isOpen : List (List Char) → Bool) (e : Ending) (got : List (List Char))
    (bs : List UInt8) : List (List Char) × ReadResult Unit :=
  match drain isOpen got bs with
  | (got, .inl res) => (got, res)
  | (got, .inr _) => (got, e.result)

theorem readLines_eq (e : Ending) {chunks : List (List UInt8)} (hne : ∀ c ∈ chunks, c ≠ [])
    (hacc : newline ∉ acc) :
    readLines isOpen e chunks got acc = drainAll isOpen e got (acc ++ chunks.flatten) := by
  induction chunks generalizing got acc with
  | nil =>
    rw [readLines, List.flatten_nil, List.append_nil, drainAll, drain_of_not_mem hacc]
  | cons chunk chunks ih =>
    rw [readLines, if_neg (hne chunk List.mem_cons_self), List.flatten_cons, ← List.append_assoc,
      drainAll]
    obtain ⟨hdecided, hundecided⟩ := drain_append isOpen got (acc ++ chunk) chunks.flatten
    rcases hdrain : drain isOpen got (acc ++ chunk) with ⟨got', res | rest⟩
    · rw [hdecided got' res hdrain]
    · obtain ⟨hrest, hdrain'⟩ := hundecided got' rest hdrain
      rw [hdrain']
      exact ih (fun c hc ↦ hne c (List.mem_cons_of_mem chunk hc)) hrest

/-- A line that is given on. -/
def goesOn (line : List UInt8) : Bool :=
  (decode line).any fun t ↦ decide (t ≠ "done".toList)

/-- How a stream ends at a line that is not given on. -/
def lastLine (line : List UInt8) : ReadResult Unit :=
  match decode line with
  | some _ => .ok ()
  | none => .err (.utf8 line)

/-- The lines up to the first one that says `done` or is no text. -/
def streamed (e : Ending) (bs : List UInt8) : List (List Char) × ReadResult Unit :=
  (((fullLines bs).takeWhile goesOn).filterMap decode,
    (((fullLines bs).dropWhile goesOn).head?.map lastLine).getD e.result)

theorem drainAll_eq (e : Ending) (got : List (List Char)) (bs : List UInt8) :
    drainAll (fun _ ↦ true) e got bs = (got ++ (streamed e bs).1, (streamed e bs).2) := by
  rw [drainAll, streamed]
  fun_induction drain (fun _ ↦ true) got bs with
  | case1 got bs hcut =>
    rw [fullLines_of_not_mem (cutLine_eq_none.mp hcut)]
    simp
  | case2 got bs line rest hcut hlt hdec =>
    rw [fullLines_of_cutLine hcut]
    simp [goesOn, hdec, lastLine]
  | case3 got bs line rest hcut hlt hdec =>
    rw [fullLines_of_cutLine hcut]
    simp [goesOn, hdec, lastLine]
  | case4 got bs line rest hcut hlt t hdec hdone hopen ih =>
    have hgoes : goesOn line = true := by
      rw [goesOn, hdec]
      exact decide_eq_true hdone
    rw [fullLines_of_cutLine hcut, List.takeWhile_cons_of_pos hgoes,
      List.dropWhile_cons_of_pos hgoes, List.filterMap_cons_some hdec, ih, List.append_assoc]
    rfl
  | case5 got bs line rest hcut hlt t hdec hdone hopen => exact absurd rfl hopen

end

/-! ## All ways to cut -/

theorem Cuts.processUnary_eq {chunks : List (List UInt8)} {bs : List UInt8} (h : Cuts chunks bs)
    (e : Ending) : processUnary (.ok ()) e chunks = firstLine e bs := by
  rw [processUnary, readLine_eq e h.ne_nil List.not_mem_nil, List.nil_append, h.flatten]

theorem Cuts.processStream_eq {chunks : List (List UInt8)} {bs : List UInt8} (h : Cuts chunks bs)
    (isOpen : List (List Char) → Bool) (e : Ending) :
    processStream isOpen e (.ok ()) chunks = drainAll isOpen e [] bs := by
  rw [processStream, readLines_eq e h.ne_nil List.not_mem_nil, List.nil_append, h.flatten]

/-- **What is read does not depend on the chunks.**  For any bytes, whatever comes after them, and
any two ways to cut them: a call returns the same, which is the first line, and a stream gives on
the same and ends in the same way.  If the receiver stays open, it gets the lines up to the first
one that says `done`, where the stream ends well, or that is no text. -/
theorem framing (write : Except String Unit) (e : Ending) {bs : List UInt8}
    {chunks chunks' : List (List UInt8)} (h : Cuts chunks bs) (h' : Cuts chunks' bs) :
    processUnary write e chunks = processUnary write e chunks' ∧
    (∀ isOpen, processStream isOpen e write chunks = processStream isOpen e write chunks') ∧
    processUnary (.ok ()) e chunks = firstLine e bs ∧
    processStream (fun _ ↦ true) e (.ok ()) chunks = streamed e bs := by
  refine ⟨?_, fun isOpen ↦ ?_, h.processUnary_eq e, ?_⟩
  · cases write with
    | ok u => rw [h.processUnary_eq, h'.processUnary_eq]
    | error msg => rfl
  · cases write with
    | ok u => rw [h.processStream_eq, h'.processStream_eq]
    | error msg => rfl
  · rw [h.processStream_eq, drainAll_eq, List.nil_append]

/-- Two lines, one of which is `done`, and a cut within a character. -/
theorem framing_sample :
    processStream (fun _ ↦ true) .silent (.ok ()) [[195], [169, 10, 100], [111, 110, 101, 10, 97]] =
      processStream (fun _ ↦ true) .silent (.ok ()) [[195, 169, 10, 100, 111, 110, 101, 10], [97]] ∧
    processStream (fun _ ↦ true) .silent (.ok ()) [[195], [169, 10, 100], [111, 110, 101, 10, 97]] =
      streamed .silent [195, 169, 10, 100, 111, 110, 101, 10, 97] := by
  have h : Cuts [[195], [169, 10, 100], [111, 110, 101, 10, 97]]
      [195, 169, 10, 100, 111, 110, 101, 10, 97] := ⟨by decide, rfl⟩
  have h' : Cuts [[195, 169, 10, 100, 111, 110, 101, 10], [97]]
      [195, 169, 10, 100, 111, 110, 101, 10, 97] := ⟨by decide, rfl⟩
  obtain ⟨-, hstream, -, hlines⟩ := framing (.ok ()) .silent h h'
  exact ⟨hstream _, hlines⟩

end Framing

end Efis
