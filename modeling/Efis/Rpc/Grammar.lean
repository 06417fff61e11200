import Efis.Rpc.RoundTrip

/-!
# The grammar of key-value text

What `parse_key_values` accepts, as a grammar: fields `k=v` with one or more spaces between them
(`Written`).  A name is plain, and a value is a token in which every space is within quotes or
brackets (`Token`); equals signs, commas and other fields may stand in it as they like.

Such a text is read as what was written (`lookup_written`).
-/

set_option autoImplicit false

namespace Efis

namespace Rpc

open Text

/-- A text that can be a value.  Quotes and both kinds of brackets are closed again, no space counts
as a separator, and the ends are not blank. -/
structure Token (v : List Char) : Prop where
  passes : kvScanner.Passes 0 v
  head : ∀ c ∈ v.head?, isWhitespace c = false
  last : ∀ c ∈ v.getLast?, isWhitespace c = false

theorem Token.trim_eq {v : List Char} (h : Token v) : trim isWhitespace v = v :=
  trim_eq_self h.head h.last

/-- A text that is made of fields. -/
inductive Written : List (List Char × List Char) → List Char → Prop
  | nil : Written [] []
  | single (f : List Char × List Char) : Written [f] (f.1 ++ '=' :: f.2)
  | cons (f : List Char × List Char) (n : ℕ) {fs : List (List Char × List Char)} {t : List Char}
      (hfs : fs ≠ []) (h : Written fs t) :
      Written (f :: fs) ((f.1 ++ '=' :: f.2) ++ (List.replicate (n + 1) ' ' ++ t))

/-- Between fields, spaces are passed over. -/
theorem foldl_spaces (n : ℕ) (m : List (List Char × List Char)) :
    (List.replicate n ' ').foldl KeyValues.step ⟨m, [], [], true, false, 0, 0⟩ =
      ⟨m, [], [], true, false, 0, 0⟩ := by
  induction n with
  | zero => rfl
  | succ n ih =>
    rw [List.replicate_succ, List.foldl_cons]
    exact ih

/-- One induction over the text, with what has been read so far. -/
theorem Written.foldl_finish {fields : List (List Char × List Char)} {t : List Char}
    (h : Written fields t) (hnames : ∀ f ∈ fields, Plain f.1) (hvalues : ∀ f ∈ fields, Token f.2)
    (m : List (List Char × List Char)) :
    (t.foldl KeyValues.step ⟨m, [], [], true, false, 0, 0⟩).finish = fields.reverse ++ m := by
  induction h generalizing m with
  | nil => rfl
  | single f =>
    have hname := hnames f List.mem_cons_self
    have hvalue := hvalues f List.mem_cons_self
    rw [foldl_field hname hvalue.passes, KeyValues.finish, if_pos hname.1,
      insert_field hname hvalue.trim_eq]
    rfl
  | @cons f n fs t hfs _ ih =>
    have hname := hnames f List.mem_cons_self
    have hvalue := hvalues f List.mem_cons_self
    have hrest := ih (fun g hg ↦ hnames g (List.mem_cons_of_mem f hg))
      (fun g hg ↦ hvalues g (List.mem_cons_of_mem f hg)) (f :: m)
    rw [List.foldl_append, foldl_field hname hvalue.passes, List.replicate_succ, List.cons_append,
      List.foldl_cons, List.foldl_append]
    change (t.foldl _ ((List.replicate n ' ').foldl _
      (KeyValues.step ⟨m, f.1, f.2, false, false, 0, 0⟩ ' '))).finish = _
    rw [step_space hname hvalue.trim_eq m, foldl_spaces, hrest, List.reverse_cons,
      List.append_assoc]
    rfl

theorem Written.parseKeyValues_eq {fields : List (List Char × List Char)} {t : List Char}
    (h : Written fields t) (hnames : ∀ f ∈ fields, Plain f.1)
    (hvalues : ∀ f ∈ fields, Token f.2) : parseKeyValues t = fields.reverse := by
  rw [parseKeyValues, h.foldl_finish hnames hvalues, List.append_nil]

/-- **A text of fields is read as what was written.**  For all fields with different names and
tokens as values, with any number of spaces between them, the map has these values under these names
and nothing else. -/
theorem lookup_written {fields : List (List Char × List Char)} {t : List Char}
    (h : Written fields t) (hnodup : (fields.map Prod.fst).Nodup)
    (hnames : ∀ f ∈ fields, Plain f.1) (hvalues : ∀ f ∈ fields, Token f.2) (k v : List Char) :
    (parseKeyValues t).lookup k = some v ↔ (k, v) ∈ fields := by
  have hnodup' : (fields.reverse.map Prod.fst).Nodup := by
    rw [List.map_reverse, List.nodup_reverse]
    exact hnodup
  rw [h.parseKeyValues_eq hnames hvalues, lookup_eq_some_of_nodup hnodup', List.mem_reverse]

/-- Values with spaces, equals signs and commas in them, one with a field, and one that is empty. -/
theorem lookup_written_sample :
    (parseKeyValues "a={x=1 y=[2, 3]}  b_1=\"c d=e\" z=".toList).lookup "b_1".toList =
      some "\"c d=e\"".toList := by
  have h : Written [("a".toList, "{x=1 y=[2, 3]}".toList), ("b_1".toList, "\"c d=e\"".toList),
      ("z".toList, [])] "a={x=1 y=[2, 3]}  b_1=\"c d=e\" z=".toList :=
    .cons _ 1 (by simp) (.cons _ 0 (by simp) (.single _))
  refine (lookup_written h (by decide +kernel) (by decide +kernel) ?_ _ _).mpr (by decide +kernel)
  have hstruct : Token "{x=1 y=[2, 3]}".toList :=
    ⟨by decide +kernel, by rintro _ ⟨⟩; rfl, by rintro _ ⟨⟩; rfl⟩
  have hquoted : Token "\"c d=e\"".toList :=
    ⟨by decide +kernel, by rintro _ ⟨⟩; rfl, by rintro _ ⟨⟩; rfl⟩
  have hempty : Token [] := ⟨by decide +kernel, nofun, nofun⟩
  rw [List.forall_mem_cons, List.forall_mem_cons, List.forall_mem_singleton]
  exact ⟨hstruct, hquoted, hempty⟩

end Rpc

end Efis
