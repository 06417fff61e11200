import Efis.Rpc.Codec
import Mathlib.Algebra.Ring.Int.Defs
import Mathlib.Data.List.Nodup

/-!
# What the text protocol gives back

When `deserialize` undoes `serialize`, for each kind of value that there is.  Numbers always come
back.  A string comes back unless trimming or a pair of quotation marks is in the way (`Quotable`).

What the two loops make of a list or of a struct is said with two scanners, `vecScanner` and
`kvScanner`: if they tell the texts of the elements or of the fields apart, then the loops return
these texts (`elements_intercalate`, `parseKeyValues_intercalate`).  Structs are then put together
field by field (`Separable`), and `passes_serializeStruct` and `passes_serialize_list` say that a
struct or a list can stand in another one.
-/

set_option autoImplicit false

namespace Efis

namespace Rpc

open Text

variable {α : Type}

/-! ## Plain text -/

/-- The characters that some reader of the protocol heeds, blanks apart. -/
def special : List Char := ['=', '"', '[', ']', '{', '}', ',', '(', ')']

/-- Text that no reader takes apart: the names of fields and the numbers. -/
def Plain (t : List Char) : Prop :=
  t ≠ [] ∧ ∀ c ∈ t, isWhitespace c = false ∧ c ∉ special

-- named, since there is also an instance that goes through all characters
instance (t : List Char) : Decidable (Plain t) :=
  @instDecidableAnd _ _ _ (List.decidableBAll _ t)

theorem Plain.trim_eq {t : List Char} (h : Plain t) : trim isWhitespace t = t :=
  trim_eq_self (fun c hc ↦ (h.2 c (List.mem_of_mem_head? hc)).1)
    fun c hc ↦ (h.2 c (List.mem_of_getLast? hc)).1

/-- Text between two characters that are not blank. -/
theorem trim_brackets {o c : Char} (ho : isWhitespace o = false) (hc : isWhitespace c = false)
    (t : List Char) : trim isWhitespace (o :: (t ++ [c])) = o :: (t ++ [c]) := by
  refine trim_eq_self (fun x hx ↦ ?_) fun x hx ↦ ?_
  · obtain rfl := Option.some_inj.mp hx
    exact ho
  · rw [← List.cons_append, List.getLast?_concat] at hx
    obtain rfl := Option.some_inj.mp hx
    exact hc

/-! ## Numbers come back -/

theorem parseDigits_digitChar {bound m d : ℕ} (hd : d < 10) (hb : m * 10 + d < bound)
    (overflow : String) (cs : List Char) :
    parseDigits bound overflow m (d.digitChar :: cs) =
      parseDigits bound overflow (m * 10 + d) cs := by
  have hdig : d.digitChar.isDigit = true := by
    rw [Nat.isDigit_digitChar]
    exact decide_eq_true hd
  rw [parseDigits, if_pos hdig, Nat.toNat_digitChar_sub_48_of_lt_ten hd, if_pos hb]

theorem parseDigits_toDigits {bound n : ℕ} (hn : n < bound) (overflow : String) (cs : List Char) :
    parseDigits bound overflow 0 (Nat.toDigits 10 n ++ cs) = parseDigits bound overflow n cs := by
  induction n using Nat.strongRecOn generalizing cs with
  | ind n ih =>
    rcases Nat.lt_or_ge n 10 with hlt | hge
    · rw [Nat.toDigits_of_lt_base hlt, List.singleton_append,
        parseDigits_digitChar hlt (by omega), Nat.zero_mul, Nat.zero_add]
    · have hdiv : n / 10 * 10 + n % 10 = n := Nat.div_add_mod' n 10
      rw [Nat.toDigits_of_base_le (by omega) hge, List.append_assoc,
        ih (n / 10) (by omega) (by omega), List.singleton_append,
        parseDigits_digitChar (Nat.mod_lt n (by omega)) (by omega), hdiv]

/-- A number starts with a digit. -/
theorem toDigits_cons (n : ℕ) :
    ∃ c cs, Nat.toDigits 10 n = c :: cs ∧ ∀ x ∈ c :: cs, x.isDigit = true := by
  cases h : Nat.toDigits 10 n with
  | nil => exact absurd h Nat.toDigits_ne_nil
  | cons c cs =>
    exact ⟨c, cs, rfl, fun x hx ↦ Nat.isDigit_of_mem_toDigits (by omega) (by omega) (h ▸ hx)⟩

theorem parseSome_toDigits {bound n : ℕ} (hn : n < bound) (overflow : String) :
    parseSome bound overflow (Nat.toDigits 10 n) = .ok n := by
  have h := parseDigits_toDigits hn overflow []
  obtain ⟨c, cs, hc, -⟩ := toDigits_cons n
  rw [List.append_nil, parseDigits, hc] at h
  rw [hc]
  exact h

theorem parseUnsigned_toDigits {n : ℕ} (hn : n < 2 ^ 64) :
    parseUnsigned (Nat.toDigits 10 n) = .ok n := by
  have h := parseSome_toDigits hn "number too large to fit in target type"
  obtain ⟨c, cs, hc, hdig⟩ := toDigits_cons n
  rw [hc] at h ⊢
  have hplus : c ≠ '+' := by
    rintro rfl
    exact absurd (hdig '+' List.mem_cons_self) (by decide)
  rw [parseUnsigned]
  · exact h
  · exact List.cons_ne_nil c cs
  · exact fun _ hcs ↦ hplus (List.cons.inj hcs).1

theorem parseSigned_toDigits {w n : ℕ} (hn : n < 2 ^ w) :
    parseSigned w (Nat.toDigits 10 n) = .ok n := by
  have h := parseSome_toDigits hn "number too large to fit in target type"
  obtain ⟨c, cs, hc, hdig⟩ := toDigits_cons n
  have hne : ∀ x : Char, x.isDigit = false → c ≠ x := by
    rintro x hx rfl
    exact absurd (hdig c List.mem_cons_self) (by rw [hx]; exact Bool.false_ne_true)
  rw [hc] at h ⊢
  rw [parseSigned]
  · rw [h]
    rfl
  · exact List.cons_ne_nil c cs
  · exact fun _ hcs ↦ hne '+' rfl (List.cons.inj hcs).1
  · exact fun _ hcs ↦ hne '-' rfl (List.cons.inj hcs).1

theorem parseSigned_neg_toDigits {w n : ℕ} (hn : n ≤ 2 ^ w) :
    parseSigned w ('-' :: Nat.toDigits 10 n) = .ok (-(n : ℤ)) := by
  rw [parseSigned, parseSome_toDigits (Nat.lt_succ_of_le hn)]
  rfl

theorem parseSigned_signedDigits {w : ℕ} {n : ℤ} (hlo : -2 ^ w ≤ n) (hhi : n < 2 ^ w) :
    parseSigned w (signedDigits n) = .ok n := by
  have hpow : ((2 ^ w : ℕ) : ℤ) = 2 ^ w := by norm_cast
  rw [signedDigits]
  split
  · rw [parseSigned_neg_toDigits (by omega), show -(n.natAbs : ℤ) = n by omega]
  · rw [parseSigned_toDigits (by omega), show (n.natAbs : ℤ) = n by omega]

theorem deserialize_nat {n : ℕ} (hn : n < 2 ^ 64) : deserialize (serialize n) = Res.ok n := by
  change ofParse id _ (parseUnsigned (Nat.toDigits 10 n)) = _
  rw [parseUnsigned_toDigits hn]
  rfl

theorem deserialize_uint64 (n : UInt64) : deserialize (serialize n) = Res.ok n := by
  change ofParse UInt64.ofNat _ (parseUnsigned (Nat.toDigits 10 n.toNat)) = _
  rw [parseUnsigned_toDigits n.toNat_lt, ofParse, UInt64.ofNat_toNat]

theorem deserialize_int64 (n : Int64) : deserialize (serialize n) = Res.ok n := by
  change ofParse Int64.ofInt _ (parseSigned 63 (signedDigits n.toInt)) = _
  rw [parseSigned_signedDigits n.le_toInt n.toInt_lt, ofParse, Int64.ofInt_toInt]

theorem deserialize_int32 (n : Int32) : deserialize (serialize n) = Res.ok n := by
  change ofParse Int32.ofInt _ (parseSigned 31 (signedDigits n.toInt)) = _
  rw [parseSigned_signedDigits n.le_toInt n.toInt_lt, ofParse, Int32.ofInt_toInt]

theorem deserialize_bool (b : Bool) : deserialize (serialize b) = Res.ok b := by
  cases b <;> rfl

/-! ## Strings come back -/

theorem head_escape_ne (t : List Char) : (escape t).head? ≠ some '"' := by
  cases t with
  | nil => exact nofun
  | cons c t =>
    rw [escape, List.flatMap_cons]
    split
    · simp
    · rename_i hc
      simpa using hc

theorem unescape_escape (t : List Char) : unescape (escape t) = t := by
  induction t with
  | nil => rfl
  | cons c t ih =>
    have hcons : escape (c :: t) = (if c = '"' then ['\\', '"'] else [c]) ++ escape t :=
      List.flatMap_cons
    rw [hcons]
    split
    · rename_i hc
      rw [hc]
      exact congrArg ('"' :: ·) ih
    · -- a backslash of the text is not followed by a quotation mark
      have hhead := head_escape_ne t
      rw [List.singleton_append, unescape, ih]
      rintro rest rfl he
      rw [he] at hhead
      exact hhead rfl

/-- A string that `deserialize` gives back: blank ends would be trimmed, and quotation marks at both
ends removed. -/
def Quotable (s : String) : Prop :=
  ' ' ∈ s.toList ∨ (trim isWhitespace s.toList = s.toList ∧
    ¬ (s.toList.head? = some '"' ∧ s.toList.getLast? = some '"'))

instance (s : String) : Decidable (Quotable s) :=
  inferInstanceAs (Decidable (_ ∨ _))

theorem trim_serialize {s : String} (h : Quotable s) :
    trim isWhitespace (serialize s) = serialize s := by
  change trim isWhitespace (if _ then _ else _) = if _ then _ else _
  split
  · exact trim_brackets rfl rfl _
  · rename_i hs
    exact (h.resolve_left hs).1

theorem deserialize_string {s : String} (h : Quotable s) :
    deserialize (serialize s) = Res.ok s := by
  have htrim := trim_serialize h
  simp only [deserialize, htrim]
  simp only [serialize]
  split
  · have hlast : ('"' :: (escape s.toList ++ ['"'])).getLast? = some '"' := by
      rw [← List.cons_append, List.getLast?_concat]
    rw [if_pos ⟨rfl, hlast⟩, if_neg (by simp), List.tail_cons, List.dropLast_concat,
      unescape_escape, String.ofList_toList]
  · rename_i hs
    rw [if_neg (h.resolve_left hs).2, String.ofList_toList]

/-- A word without quotation marks is the text of no other string. -/
theorem serialize_string_ne {s w : String} (h : s ≠ w) (hw : w.toList.head? ≠ some '"') :
    serialize s ≠ w.toList := by
  simp only [serialize]
  split
  · intro he
    rw [← he] at hw
    exact hw rfl
  · exact fun he ↦ h (String.toList_inj.mp he)

/-! ## Lists come back -/

theorem serialize_list [Serialize α] (as : List α) :
    serialize as = '[' :: ([','].intercalate (as.map serialize) ++ [']']) := rfl

/-- How the elements of a list are told apart. -/
def vecScanner : Scanner ℤ where
  weight c := if c = '[' ∨ c = '{' then 1 else if c = ']' ∨ c = '}' then -1 else 0
  sep := ','
  weight_sep := rfl
  sep_ne := by decide

/-- What the loop does with a character that is no separator. -/
theorem Splitter.step_eq {q : Bool} {d : ℤ} {c : Char} (hc : ¬ (c = ',' ∧ d = 0) ∨ q = true)
    (res : List (List Char)) (cur : List Char) :
    Splitter.step ⟨res, cur, d, q⟩ c = ⟨res, cur ++ [c],
      if c = '"' ∨ q then d else d + vecScanner.weight c, if c = '"' then !q else q⟩ := by
  simp only [Splitter.step, Splitter.push, vecScanner]
  by_cases hq : c = '"'
  · simp [hq]
  · cases q with
    | true => simp [hq]
    | false =>
      have hc : ¬ (c = ',' ∧ d = 0) := hc.resolve_right Bool.false_ne_true
      by_cases ho : c = '[' ∨ c = '{'
      · simp [hq, ho]
      · by_cases hcl : c = ']' ∨ c = '}'
        · simp [hq, ho, hcl, sub_eq_add_neg]
        · simp [hq, ho, hcl, hc]

/-- A text is read into the current element. -/
theorem foldl_splitter {q q' : Bool} {d d' : ℤ} {t : List Char}
    (h : vecScanner.scan q d t = some (q', d')) (res : List (List Char)) (cur : List Char) :
    t.foldl Splitter.step ⟨res, cur, d, q⟩ = ⟨res, cur ++ t, d', q'⟩ := by
  induction t generalizing q d cur with
  | nil =>
    obtain ⟨rfl, rfl⟩ := Prod.mk.inj (Option.some_inj.mp h)
    rw [List.append_nil]
    rfl
  | cons c t ih =>
    rw [Scanner.scan] at h
    rw [List.foldl_cons, List.append_cons]
    split_ifs at h with hq hin hsep
    · rw [Splitter.step_eq (Or.inl fun h ↦ absurd (hq.symm.trans h.1) (by decide)),
        if_pos (Or.inl hq), if_pos hq]
      exact ih h _
    · rw [Splitter.step_eq (Or.inr hin), if_pos (Or.inr hin), if_neg hq]
      exact ih h _
    · rw [Splitter.step_eq (Or.inl hsep), if_neg (by rw [not_or]; exact ⟨hq, hin⟩), if_neg hq]
      exact ih h _

/-- **A list is taken apart into the texts it was made of.**  The last must not be blank. -/
theorem elements_intercalate {ts : List (List Char)} (hts : vecScanner.Separates ts)
    (hlast : ∀ t ∈ ts.getLast?, trim isWhitespace t ≠ []) :
    elements ([','].intercalate ts) = ts.map (trim isWhitespace) := by
  have hgo : ∀ res, (([','].intercalate ts).foldl Splitter.step ⟨res, [], 0, false⟩).finish =
      res ++ ts.map (trim isWhitespace) := by
    induction ts with
    | nil => exact fun res ↦ (List.append_nil res).symm
    | cons x xs ih =>
      intro res
      cases xs with
      | nil =>
        -- after the last element the state of the scanner does not matter
        obtain ⟨r, hr⟩ := hts.single
        rw [List.intercalate_singleton, foldl_splitter hr, Splitter.finish, List.nil_append,
          if_pos (hlast x rfl)]
        rfl
      | cons y ys =>
        obtain ⟨hx, hys⟩ := hts.cons
        have hrest := ih hys hlast (res ++ [trim isWhitespace x])
        rw [List.append_assoc] at hrest
        rw [List.intercalate_cons_cons, List.append_assoc, List.foldl_append, foldl_splitter hx,
          List.singleton_append, List.foldl_cons]
        exact hrest
  exact hgo []

theorem mapM_eq_ok [Deserialize α] {f : α → List Char} {as : List α}
    (h : ∀ a ∈ as, deserialize (f a) = Res.ok a) :
    (as.map f).mapM deserialize = Res.ok as := by
  induction as with
  | nil => rfl
  | cons a as ih =>
    rw [List.map_cons, List.mapM_cons, h a List.mem_cons_self, Res.ok_bind,
      ih fun x hx ↦ h x (List.mem_cons_of_mem a hx)]
    rfl

/-- The texts of a list whose brackets can be told from theirs, and whose last element is not taken
for none. -/
def Listable (ts : List (List Char)) : Prop :=
  (∀ t ∈ ts.head?, t.head? ≠ some '[') ∧
    ∀ t ∈ ts.getLast?, trim isWhitespace t ≠ [] ∧ t.getLast? ≠ some ']'

instance (ts : List (List Char)) : Decidable (Listable ts) :=
  inferInstanceAs (Decidable (_ ∧ _))

theorem head_intercalate {ts : List (List Char)} (h : ∀ t ∈ ts.head?, t.head? ≠ some '[') :
    ([','].intercalate ts).head? ≠ some '[' := by
  cases ts with
  | nil => exact nofun
  | cons x xs =>
    have hx := h x rfl
    cases xs with
    | nil => rwa [List.intercalate_singleton]
    | cons y ys =>
      rw [List.intercalate_cons_cons, List.append_assoc]
      cases x with
      | nil => exact fun hc ↦ absurd (Option.some_inj.mp hc) (by decide)
      | cons c x => exact hx

theorem getLast_intercalate (ts : List (List Char)) {t : List Char} (ht : t ≠ []) :
    ([','].intercalate (ts ++ [t])).getLast? = t.getLast? := by
  induction ts with
  | nil => rw [List.nil_append, List.intercalate_singleton]
  | cons x xs ih =>
    rw [List.cons_append, List.intercalate_cons_of_ne_nil (by simp), List.getLast?_append, ih,
      List.getLast?_eq_some_getLast ht]
    rfl

/-- The brackets of a list are removed, and nothing else. -/
theorem strip_brackets {t : List Char} (hhead : t.head? ≠ some '[')
    (hlast : t.getLast? ≠ some ']') :
    ((trim isWhitespace ('[' :: (t ++ [']']))).dropWhile (· = '[')).rdropWhile (· = ']') = t := by
  have hdrop : (t ++ [']']).dropWhile (· = '[') = t ++ [']'] := by
    cases t with
    | nil => rfl
    | cons c t =>
      refine List.dropWhile_cons_of_neg ?_
      simpa using hhead
  rw [trim_brackets rfl rfl, List.dropWhile_cons_of_pos (by decide), hdrop,
    List.rdropWhile_concat_pos _ _ _ (by decide), List.rdropWhile_eq_self_iff]
  intro hne hc
  rw [List.getLast?_eq_some_getLast hne] at hlast
  exact hlast (congrArg some (of_decide_eq_true hc))

theorem deserialize_list [Serialize α] [Deserialize α] {as : List α}
    (hsep : vecScanner.Separates (as.map serialize)) (hl : Listable (as.map serialize))
    (h : ∀ a ∈ as, deserialize (trim isWhitespace (serialize a)) = Res.ok a) :
    deserialize (serialize as) = Res.ok as := by
  rcases List.eq_nil_or_concat as with rfl | ⟨init, a, rfl⟩
  · rfl
  · rw [List.concat_eq_append] at h hl hsep ⊢
    have helems := elements_intercalate hsep fun t ht ↦ (hl.2 t ht).1
    have hmap : (init ++ [a]).map serialize = init.map serialize ++ [serialize a] := by
      rw [List.map_append, List.map_singleton]
    rw [hmap] at hl
    obtain ⟨hne, hend⟩ := hl.2 (serialize a) (List.getLast?_concat ..)
    have hnil : serialize a ≠ [] := by
      intro hn
      rw [hn] at hne
      exact hne rfl
    have hstrip := strip_brackets (head_intercalate hl.1)
      (by rw [getLast_intercalate _ hnil]; exact hend)
    have hjoin : [','].intercalate (init.map serialize ++ [serialize a]) ≠ [] := by
      intro hn
      have := getLast_intercalate (init.map serialize) hnil
      rw [hn, List.getLast?_eq_some_getLast hnil] at this
      cases this
    change (if _ = [] then _ else _) = _
    rw [← hmap] at hstrip hjoin
    rw [serialize_list, hstrip, if_neg hjoin, helems, List.map_map]
    exact mapM_eq_ok h

/-! ## Structs come back -/

/-- How the fields of a struct are told apart. -/
def kvScanner : Scanner (ℤ × ℤ) where
  weight c :=
    if c = '[' then (1, 0) else if c = ']' then (-1, 0) else if c = '{' then (0, 1)
    else if c = '}' then (0, -1) else 0
  sep := ' '
  weight_sep := rfl
  sep_ne := by decide

/-- What the loop does in a value with a character that is no separator. -/
theorem KeyValues.step_eq {q : Bool} {d : ℤ × ℤ} {c : Char} (hc : ¬ (c = ' ' ∧ d = 0) ∨ q = true)
    (m : List (List Char × List Char)) (key value : List Char) :
    KeyValues.step ⟨m, key, value, false, q, d.1, d.2⟩ c =
      ⟨m, key, value ++ [c], false, if c = '"' then !q else q,
        (if c = '"' ∨ q then d else d + kvScanner.weight c).1,
        (if c = '"' ∨ q then d else d + kvScanner.weight c).2⟩ := by
  simp only [KeyValues.step, KeyValues.push, kvScanner]
  by_cases hq : c = '"'
  · simp [hq]
  · cases q with
    | true => simp [hq]
    | false =>
      have hc : ¬ (c = ' ' ∧ d = 0) := hc.resolve_right Bool.false_ne_true
      by_cases h1 : c = '['
      · simp [h1]
      by_cases h2 : c = ']'
      · simp [h2, sub_eq_add_neg]
      by_cases h3 : c = '{'
      · simp [h3]
      by_cases h4 : c = '}'
      · simp [h4, sub_eq_add_neg]
      have hs : ¬ (c = ' ' ∧ d.1 = 0 ∧ d.2 = 0) := fun h ↦ hc ⟨h.1, Prod.ext h.2.1 h.2.2⟩
      simp [hq, h1, h2, h3, h4, hs]

/-- A text is read into the current value. -/
theorem foldl_value {q q' : Bool} {d d' : ℤ × ℤ} {t : List Char}
    (h : kvScanner.scan q d t = some (q', d')) (m : List (List Char × List Char))
    (key value : List Char) :
    t.foldl KeyValues.step ⟨m, key, value, false, q, d.1, d.2⟩ =
      ⟨m, key, value ++ t, false, q', d'.1, d'.2⟩ := by
  induction t generalizing q d value with
  | nil =>
    obtain ⟨rfl, rfl⟩ := Prod.mk.inj (Option.some_inj.mp h)
    rw [List.append_nil]
    rfl
  | cons c t ih =>
    rw [Scanner.scan] at h
    rw [List.foldl_cons, List.append_cons]
    split_ifs at h with hq hin hsep
    · rw [KeyValues.step_eq (Or.inl fun h ↦ absurd (hq.symm.trans h.1) (by decide)),
        if_pos (Or.inl hq), if_pos hq]
      exact ih h _
    · rw [KeyValues.step_eq (Or.inr hin), if_pos (Or.inr hin), if_neg hq]
      exact ih h _
    · rw [KeyValues.step_eq (Or.inl hsep), if_neg hq, if_neg (by rw [not_or]; exact ⟨hq, hin⟩)]
      exact ih h _

theorem foldl_name {k : List Char} (h : ∀ c ∈ k, isWhitespace c = false ∧ c ∉ special)
    (m : List (List Char × List Char)) (key : List Char) :
    k.foldl KeyValues.step ⟨m, key, [], true, false, 0, 0⟩ =
      ⟨m, key ++ k, [], true, false, 0, 0⟩ := by
  induction k generalizing key with
  | nil => rw [List.append_nil]; rfl
  | cons c k ih =>
    obtain ⟨hw, hc⟩ := h c List.mem_cons_self
    have hs : c ≠ ' ' := by
      rintro rfl
      exact absurd hw (by decide)
    have hstep : KeyValues.step ⟨m, key, [], true, false, 0, 0⟩ c =
        ⟨m, key ++ [c], [], true, false, 0, 0⟩ := by
      simp only [special, List.mem_cons, List.not_mem_nil, or_false, not_or] at hc
      simp [KeyValues.step, hc, hs]
    rw [List.foldl_cons, hstep, ih fun x hx ↦ h x (List.mem_cons_of_mem c hx), ← List.append_cons]

theorem foldl_field {f : List Char × List Char} (hname : Plain f.1) {q : Bool} {d : ℤ × ℤ}
    (h : kvScanner.scan false 0 f.2 = some (q, d)) (m : List (List Char × List Char)) :
    (f.1 ++ '=' :: f.2).foldl KeyValues.step ⟨m, [], [], true, false, 0, 0⟩ =
      ⟨m, f.1, f.2, false, q, d.1, d.2⟩ := by
  rw [List.foldl_append, foldl_name hname.2, List.foldl_cons]
  exact foldl_value h m f.1 []

theorem insert_field {f : List Char × List Char} (hname : Plain f.1)
    (htrim : trim isWhitespace f.2 = f.2) (m : List (List Char × List Char)) (q : Bool)
    (d : ℤ × ℤ) : KeyValues.insert ⟨m, f.1, f.2, false, q, d.1, d.2⟩ = f :: m := by
  rw [KeyValues.insert, hname.trim_eq, htrim]

/-- The space after a field. -/
theorem step_space {f : List Char × List Char} (hname : Plain f.1)
    (htrim : trim isWhitespace f.2 = f.2) (m : List (List Char × List Char)) :
    KeyValues.step ⟨m, f.1, f.2, false, false, 0, 0⟩ ' ' =
      ⟨f :: m, [], [], true, false, 0, 0⟩ := by
  rw [← insert_field hname htrim m false 0]
  simp [KeyValues.step, hname.1]

/-- **A struct is taken apart into its fields.** -/
theorem parseKeyValues_intercalate {fields : List (List Char × List Char)}
    (hsep : kvScanner.Separates (fields.map Prod.snd))
    (h : ∀ f ∈ fields, Plain f.1 ∧ trim isWhitespace f.2 = f.2) :
    parseKeyValues ([' '].intercalate (fields.map fun f ↦ f.1 ++ '=' :: f.2)) =
      fields.reverse := by
  have hgo : ∀ m, (([' '].intercalate (fields.map fun f ↦ f.1 ++ '=' :: f.2)).foldl KeyValues.step
      ⟨m, [], [], true, false, 0, 0⟩).finish = fields.reverse ++ m := by
    induction fields with
    | nil => exact fun m ↦ rfl
    | cons f fs ih =>
      intro m
      obtain ⟨hname, htrim⟩ := h f List.mem_cons_self
      cases fs with
      | nil =>
        obtain ⟨⟨q, d⟩, hr⟩ := hsep.single
        rw [List.map_singleton, List.intercalate_singleton, foldl_field hname hr, KeyValues.finish,
          if_pos hname.1, insert_field hname htrim]
        rfl
      | cons g gs =>
        obtain ⟨hf, hgs⟩ := hsep.cons
        have hrest := ih hgs (fun x hx ↦ h x (List.mem_cons_of_mem f hx)) (f :: m)
        rw [List.reverse_cons, List.append_assoc]
        rw [List.map_cons, List.map_cons, List.intercalate_cons_cons, List.append_assoc,
          List.foldl_append, foldl_field hname hf, List.singleton_append, List.foldl_cons]
        exact (congrArg (fun s ↦ (List.foldl KeyValues.step s _).finish)
          (step_space hname htrim m)).trans hrest
  exact (hgo []).trans (List.append_nil _)

/-- In a map with different keys. -/
theorem lookup_eq_some_of_nodup {fields : List (List Char × List Char)}
    (h : (fields.map Prod.fst).Nodup) {k v : List Char} :
    fields.lookup k = some v ↔ (k, v) ∈ fields := by
  rw [List.lookup_eq_some_iff]
  constructor
  · rintro ⟨l₁, l₂, rfl, -⟩
    exact List.mem_append_right l₁ List.mem_cons_self
  · intro hmem
    obtain ⟨l₁, l₂, rfl⟩ := List.append_of_mem hmem
    rw [List.map_append, List.map_cons, List.nodup_append] at h
    refine ⟨l₁, l₂, rfl, fun p hp ↦ bne_iff_ne.mpr ?_⟩
    exact (h.2.2 p.1 (List.mem_map_of_mem hp) k List.mem_cons_self).symm

/-- A value that can be a field: its text is kept by trimming and read back. -/
structure Decodes [Serialize α] [Deserialize α] (a : α) : Prop where
  trim_eq : trim isWhitespace (serialize a) = serialize a
  ne_none : serialize a ≠ "None".toList
  ok : deserialize (serialize a) = Res.ok a

/-- The texts of the fields that are written. -/
def texts (fields : List (String × List Char)) : List (List Char) :=
  (present fields).map Prod.snd

theorem forall_texts {fields : List (String × List Char)} {p : List Char → Prop}
    (h : ∀ f ∈ fields, p f.2) : ∀ t ∈ texts fields, p t := by
  intro t ht
  obtain ⟨f, hf, rfl⟩ := List.mem_map.mp ht
  exact h f (List.mem_of_mem_filter hf)

/-- The fields of a struct that can be told apart. -/
structure Separable (fields : List (String × List Char)) : Prop where
  nodup : (fields.map Prod.fst).Nodup
  plain : ∀ n ∈ fields.map Prod.fst, Plain n.toList
  trim_eq : ∀ f ∈ fields, trim isWhitespace f.2 = f.2
  separates : kvScanner.Separates (texts fields)

theorem trim_serializeStruct (fields : List (String × List Char)) :
    trim isWhitespace (serializeStruct fields) = serializeStruct fields :=
  trim_brackets rfl rfl _

namespace Separable

variable {fields : List (String × List Char)}

theorem of_names (names : List String) (hnames : fields.map Prod.fst = names)
    (hn : names.Nodup ∧ ∀ n ∈ names, Plain n.toList)
    (htrim : ∀ f ∈ fields, trim isWhitespace f.2 = f.2)
    (hs : kvScanner.Separates (texts fields)) : Separable fields :=
  ⟨hnames ▸ hn.1, hnames ▸ hn.2, htrim, hs⟩

variable (h : Separable fields)

include h

theorem parseStruct_eq : parseStruct (serializeStruct fields) =
    ((present fields).map fun f ↦ (f.1.toList, f.2)).reverse := by
  have hlast : (serializeStruct fields).getLast? = some '}' := by
    rw [serializeStruct, ← List.cons_append, List.getLast?_concat]
  have hfields : ∀ f ∈ (present fields).map fun f ↦ (f.1.toList, f.2),
      Plain f.1 ∧ trim isWhitespace f.2 = f.2 := by
    intro f hf
    obtain ⟨g, hg, rfl⟩ := List.mem_map.mp hf
    have hg := List.mem_of_mem_filter hg
    exact ⟨h.plain g.1 (List.mem_map_of_mem hg), h.trim_eq g hg⟩
  have hparse := parseKeyValues_intercalate (by rw [List.map_map]; exact h.separates) hfields
  rw [List.map_map] at hparse
  simp only [parseStruct, trim_serializeStruct]
  rw [if_pos ⟨rfl, hlast⟩, serializeStruct, List.tail_cons, List.dropLast_concat]
  exact hparse

/-- A field whose text is not `None` is found. -/
theorem lookup_eq {n : String} {t : List Char} (hf : (n, t) ∈ fields) (ht : t ≠ "None".toList) :
    (parseStruct (serializeStruct fields)).lookup n.toList = some t := by
  have hmem : (n, t) ∈ present fields := List.mem_filter.mpr ⟨hf, decide_eq_true ht⟩
  have hnames : ((present fields).map Prod.fst).Nodup :=
    h.nodup.sublist (List.filter_sublist.map Prod.fst)
  have hnodup : (((present fields).map fun f ↦ (f.1.toList, f.2)).reverse.map Prod.fst).Nodup := by
    rw [List.map_reverse, List.nodup_reverse, List.map_map]
    have htexts := hnames.map (f := String.toList) fun s s' ↦ String.toList_inj.mp
    rwa [List.map_map] at htexts
  rw [h.parseStruct_eq, lookup_eq_some_of_nodup hnodup, List.mem_reverse]
  exact List.mem_map.mpr ⟨(n, t), hmem, rfl⟩

/-- A name that no field is written under is not found. -/
theorem lookup_absent {n : String} (hn : n ∉ (present fields).map Prod.fst) :
    (parseStruct (serializeStruct fields)).lookup n.toList = none := by
  rw [h.parseStruct_eq, List.lookup_eq_none_iff]
  intro p hp
  obtain ⟨f, hf, rfl⟩ := List.mem_map.mp (List.mem_reverse.mp hp)
  have hne : n ≠ f.1 := by
    rintro rfl
    exact hn (List.mem_map_of_mem hf)
  simpa [String.toList_inj] using hne

/-- A field whose text is `None` is not found. -/
theorem lookup_none {n : String} (hf : (n, "None".toList) ∈ fields) :
    (parseStruct (serializeStruct fields)).lookup n.toList = none := by
  refine h.lookup_absent fun hn ↦ ?_
  obtain ⟨f, hf', rfl⟩ := List.mem_map.mp hn
  obtain ⟨hmem, hpres⟩ := List.mem_filter.mp hf'
  have hinj := List.inj_on_of_nodup_map h.nodup hf hmem rfl
  rw [← hinj] at hpres
  exact absurd rfl (of_decide_eq_true hpres)

/-- A field comes back. -/
theorem field_eq [Serialize α] [Deserialize α] {a : α} {n : String} (ha : Decodes a)
    (hf : (n, serialize a) ∈ fields) :
    field (parseStruct (serializeStruct fields)) n = Res.ok a := by
  rw [field, h.lookup_eq hf ha.ne_none]
  exact ha.ok

/-- An optional field comes back, if the word `None` is not in its text. -/
theorem optField_eq [Serialize α] [Deserialize α] {o : Option α} {n : String}
    (ho : ∀ a ∈ o, Decodes a ∧ serialize a ≠ [] ∧ ¬ "None".toList <:+: serialize a)
    (hf : (n, serialize o) ∈ fields) :
    optField (parseStruct (serializeStruct fields)) n = Res.ok o := by
  cases o with
  | none =>
    rw [optField, h.lookup_none hf]
  | some a =>
    obtain ⟨ha, hnil, hnone⟩ := ho a rfl
    have hlook : (parseStruct (serializeStruct fields)).lookup n.toList = some (serialize a) :=
      h.lookup_eq hf ha.ne_none
    rw [optField, hlook]
    change (if _ ∨ _ then _ else _) = _
    rw [if_neg (not_or.mpr ⟨hnone, hnil⟩), ha.ok]
    rfl

end Separable

/-! ## Values that can be fields -/

/-- Numbers and the like: plain text without the letter that `None` starts with. -/
theorem Decodes.of_plain [Serialize α] [Deserialize α] {a : α} (h : Plain (serialize a))
    (hn : 'N' ∉ serialize a) (hok : deserialize (serialize a) = Res.ok a) :
    Decodes a ∧ serialize a ≠ [] ∧ ¬ "None".toList <:+: serialize a := by
  refine ⟨⟨h.trim_eq, ?_, hok⟩, h.1, ?_⟩
  · intro he
    rw [he] at hn
    exact hn (by decide)
  · exact fun hi ↦ hn (hi.mem (by decide))

theorem not_mem_of_isDigit {t : List Char} (h : ∀ c ∈ t, c.isDigit = true) {c : Char}
    (hc : c.isDigit = false) : c ∉ t :=
  fun hmem ↦ Bool.false_ne_true (hc.symm.trans (h c hmem))

theorem plain_of_isDigit {c : Char} (h : c.isDigit = true) :
    isWhitespace c = false ∧ c ∉ special := by
  obtain ⟨hlo, hhi⟩ := Char.isDigit_iff_toNat.mp h
  have hall : ∀ n < 58, 48 ≤ n → isWhitespace (Char.ofNat n) = false ∧ Char.ofNat n ∉ special := by
    decide
  rw [← Char.ofNat_toNat c]
  exact hall c.toNat (Nat.lt_succ_of_le hhi) hlo

theorem plain_toDigits (n : ℕ) : Plain (Nat.toDigits 10 n) ∧ 'N' ∉ Nat.toDigits 10 n := by
  have hdig : ∀ c ∈ Nat.toDigits 10 n, c.isDigit = true :=
    fun c hc ↦ Nat.isDigit_of_mem_toDigits (by omega) (by omega) hc
  exact ⟨⟨Nat.toDigits_ne_nil, fun c hc ↦ plain_of_isDigit (hdig c hc)⟩,
    not_mem_of_isDigit hdig rfl⟩

theorem plain_neg_toDigits (n : ℕ) :
    Plain ('-' :: Nat.toDigits 10 n) ∧ 'N' ∉ '-' :: Nat.toDigits 10 n := by
  obtain ⟨hplain, hn⟩ := plain_toDigits n
  refine ⟨⟨List.cons_ne_nil _ _, ?_⟩, by simpa using hn⟩
  exact List.forall_mem_cons.mpr ⟨by decide, hplain.2⟩

theorem plain_signedDigits (n : ℤ) : Plain (signedDigits n) ∧ 'N' ∉ signedDigits n := by
  rw [signedDigits]
  split
  · exact plain_neg_toDigits _
  · exact plain_toDigits _

theorem decodes_nat {n : ℕ} (hn : n < 2 ^ 64) :
    Decodes n ∧ serialize n ≠ [] ∧ ¬ "None".toList <:+: serialize n :=
  Decodes.of_plain (plain_toDigits n).1 (plain_toDigits n).2 (deserialize_nat hn)

theorem decodes_uint64 (n : UInt64) :
    Decodes n ∧ serialize n ≠ [] ∧ ¬ "None".toList <:+: serialize n :=
  Decodes.of_plain (plain_toDigits n.toNat).1 (plain_toDigits n.toNat).2 (deserialize_uint64 n)

theorem decodes_int64 (n : Int64) : Decodes n :=
  (Decodes.of_plain (plain_signedDigits n.toInt).1 (plain_signedDigits n.toInt).2
    (deserialize_int64 n)).1

theorem decodes_bool (b : Bool) : Decodes b where
  trim_eq := by cases b <;> rfl
  ne_none := by cases b <;> decide
  ok := deserialize_bool b

theorem trim_serialize_option [Serialize α] {o : Option α}
    (h : ∀ a ∈ o, trim isWhitespace (serialize a) = serialize a) :
    trim isWhitespace (serialize o) = serialize o := by
  cases o with
  | none => rfl
  | some a => exact h a rfl

theorem decodes_string {s : String} (h : Quotable s) (hn : s ≠ "None") : Decodes s where
  trim_eq := trim_serialize h
  ne_none := serialize_string_ne hn (by decide)
  ok := deserialize_string h

theorem decodes_list [Serialize α] [Deserialize α] {as : List α}
    (hsep : vecScanner.Separates (as.map serialize)) (hl : Listable (as.map serialize))
    (h : ∀ a ∈ as, trim isWhitespace (serialize a) = serialize a ∧
      deserialize (serialize a) = Res.ok a) : Decodes as where
  trim_eq := trim_brackets rfl rfl _
  ne_none := fun he ↦ absurd (List.cons.inj he).1 (by decide)
  ok := deserialize_list hsep hl fun a ha ↦ by rw [(h a ha).1, (h a ha).2]

/-- The texts of a list of values that are neither blank nor start or end with a bracket. -/
theorem listable_of_forall {ts : List (List Char)} (h : ∀ t ∈ ts, t.head? ≠ some '[' ∧
    trim isWhitespace t ≠ [] ∧ t.getLast? ≠ some ']') : Listable ts :=
  ⟨fun t ht ↦ (h t (List.mem_of_mem_head? ht)).1, fun t ht ↦ (h t (List.mem_of_getLast? ht)).2⟩

theorem Plain.listable {t : List Char} (h : Plain t) :
    t.head? ≠ some '[' ∧ trim isWhitespace t ≠ [] ∧ t.getLast? ≠ some ']' := by
  refine ⟨fun hc ↦ ?_, ?_, fun hc ↦ ?_⟩
  · exact (h.2 _ (List.mem_of_mem_head? hc)).2 (by decide)
  · rw [h.trim_eq]
    exact h.1
  · exact (h.2 _ (List.mem_of_getLast? hc)).2 (by decide)

theorem listable_serializeStruct (fields : List (String × List Char)) :
    (serializeStruct fields).head? ≠ some '[' ∧ trim isWhitespace (serializeStruct fields) ≠ [] ∧
      (serializeStruct fields).getLast? ≠ some ']' := by
  refine ⟨fun hc ↦ absurd (Option.some_inj.mp hc) (by decide), ?_, fun hc ↦ ?_⟩
  · rw [trim_serializeStruct]
    exact List.cons_ne_nil _ _
  · rw [serializeStruct, ← List.cons_append, List.getLast?_concat] at hc
    exact absurd (Option.some_inj.mp hc) (by decide)

/-! ## Nesting -/

section

variable {D : Type} [AddGroup D] [DecidableEq D] {S : Scanner D} {d : D}

/-- A struct is not taken apart if its fields are not, one pair of braces further in. -/
theorem passes_serializeStruct {fields : List (String × List Char)}
    (hb : '{' ≠ S.sep ∧ '}' ≠ S.sep ∧ S.weight '{' + S.weight '}' = 0)
    (hspace : S.Passes (d + S.weight '{') [' '])
    (hname : ∀ n ∈ fields.map Prod.fst, S.Passes (d + S.weight '{') (n.toList ++ ['=']))
    (h : ∀ t ∈ texts fields, S.Passes (d + S.weight '{') t) :
    S.Passes d (serializeStruct fields) := by
  refine Scanner.Passes.wrap ⟨by decide, hb.1⟩ ⟨by decide, hb.2.1⟩ hb.2.2 ?_
  refine Scanner.Passes.intercalate hspace fun t ht ↦ ?_
  obtain ⟨f, hf, rfl⟩ := List.mem_map.mp ht
  rw [List.append_cons]
  exact (hname f.1 (List.mem_map_of_mem (List.mem_of_mem_filter hf))).append
    (h f.2 (List.mem_map_of_mem hf))

/-- A list is not taken apart if its elements are not, one pair of brackets further in. -/
theorem passes_serialize_list [Serialize α] {as : List α}
    (hb : '[' ≠ S.sep ∧ ']' ≠ S.sep ∧ S.weight '[' + S.weight ']' = 0)
    (hcomma : S.Passes (d + S.weight '[') [','])
    (h : ∀ a ∈ as, S.Passes (d + S.weight '[') (serialize a)) : S.Passes d (serialize as) := by
  refine Scanner.Passes.wrap ⟨by decide, hb.1⟩ ⟨by decide, hb.2.1⟩ hb.2.2 ?_
  refine Scanner.Passes.intercalate hcomma fun t ht ↦ ?_
  obtain ⟨a, ha, rfl⟩ := List.mem_map.mp ht
  exact h a ha

end

/-- Text in which neither of the loops finds anything. -/
def Neutral (t : List Char) : Prop :=
  ∀ c ∈ t, isWhitespace c = false ∧ c ∉ ['"', '[', ']', '{', '}', ',']

instance (t : List Char) : Decidable (Neutral t) :=
  List.decidableBAll _ t

theorem Plain.neutral {t : List Char} (h : Plain t) : Neutral t := by
  have hsub : ∀ c ∈ ['"', '[', ']', '{', '}', ','], c ∈ special := by simp [special]
  exact fun c hc ↦ ⟨(h.2 c hc).1, fun hmem ↦ (h.2 c hc).2 (hsub c hmem)⟩

theorem Neutral.append {s t : List Char} (hs : Neutral s) (ht : Neutral t) : Neutral (s ++ t) :=
  List.forall_mem_append.mpr ⟨hs, ht⟩

theorem Neutral.kvScanner {t : List Char} (h : Neutral t) (d : ℤ × ℤ) : kvScanner.Passes d t := by
  refine Scanner.passes_of_plain fun c hc ↦ ?_
  obtain ⟨hw, hc⟩ := h c hc
  have hs : c ≠ ' ' := by
    rintro rfl
    exact absurd hw (by decide)
  simp only [List.mem_cons, List.not_mem_nil, or_false, not_or] at hc
  exact ⟨hc.1, hs, by simp [Rpc.kvScanner, hc]⟩

theorem Neutral.vecScanner {t : List Char} (h : Neutral t) (d : ℤ) : vecScanner.Passes d t := by
  refine Scanner.passes_of_plain fun c hc ↦ ?_
  obtain ⟨-, hc⟩ := h c hc
  simp only [List.mem_cons, List.not_mem_nil, or_false, not_or] at hc
  exact ⟨hc.1, hc.2.2.2.2.2, by simp [Rpc.vecScanner, hc]⟩

/-- A struct in a struct. -/
theorem kvScanner_struct {d : ℤ × ℤ} (hd : d + (0, 1) ≠ 0) {fields : List (String × List Char)}
    (hname : ∀ n ∈ fields.map Prod.fst, Plain n.toList)
    (h : ∀ t ∈ texts fields, kvScanner.Passes (d + (0, 1)) t) :
    kvScanner.Passes d (serializeStruct fields) := by
  refine passes_serializeStruct (by decide) ?_ (fun n hn ↦ ?_) h
  · exact Scanner.passes_singleton (by decide) (fun _ ↦ hd) rfl
  · exact ((hname n hn).neutral.append (by decide)).kvScanner _

/-- A struct in a list. -/
theorem vecScanner_struct {d : ℤ} {fields : List (String × List Char)}
    (hname : ∀ n ∈ fields.map Prod.fst, Plain n.toList)
    (h : ∀ t ∈ texts fields, vecScanner.Passes (d + 1) t) :
    vecScanner.Passes d (serializeStruct fields) := by
  refine passes_serializeStruct (by decide) ?_ (fun n hn ↦ ?_) h
  · exact Scanner.passes_singleton (by decide) (fun hs ↦ absurd hs (by decide)) rfl
  · exact ((hname n hn).neutral.append (by decide)).vecScanner _

/-- A list in a struct. -/
theorem kvScanner_list [Serialize α] {d : ℤ × ℤ} {as : List α}
    (h : ∀ a ∈ as, kvScanner.Passes (d + (1, 0)) (serialize a)) :
    kvScanner.Passes d (serialize as) := by
  refine passes_serialize_list (by decide) ?_ h
  exact Scanner.passes_singleton (by decide) (fun hs ↦ absurd hs (by decide)) rfl

/-- A list in a list. -/
theorem vecScanner_list [Serialize α] {d : ℤ} (hd : d + 1 ≠ 0) {as : List α}
    (h : ∀ a ∈ as, vecScanner.Passes (d + 1) (serialize a)) :
    vecScanner.Passes d (serialize as) := by
  refine passes_serialize_list (by decide) ?_ h
  exact Scanner.passes_singleton (by decide) (fun _ ↦ hd) rfl

end Rpc

end Efis
