import Efis.Rpc.RoundTrip

/-!
# What the text protocol does not give back

The converse of `Efis.Rpc.RoundTrip`: a string, a list of strings or a struct with one field comes
back under no other condition than the one that was enough there (`deserialize_string_iff`,
`deserialize_strings_iff`, `field_iff`).

All of it is counting.  No reader makes characters up, so what it returns is a sublist of what it
was given (`sublist_of_deserialize`, `sublist_of_mem_parseStruct`).  A separator that should not
have counted ends the text too early, and the part that is read has fewer separators than the value;
one that should have counted and did not leaves a part with too many.
-/

set_option autoImplicit false

namespace Efis

namespace Rpc

open Text

/-! ## Strings -/

theorem unescape_sublist (t : List Char) : (unescape t).Sublist t := by
  induction t using unescape.induct with
  | case1 t ih => exact (ih.cons_cons '"').cons '\\'
  | case2 c t hne ih =>
    rw [unescape]
    · exact ih.cons_cons c
    · exact hne
  | case3 => exact .slnil

theorem count_unescape {c : Char} (hb : c ≠ '\\') (t : List Char) :
    (unescape t).count c = t.count c := by
  induction t using unescape.induct with
  | case1 t ih =>
    rw [unescape, List.count_cons_of_ne hb.symm, List.count_cons, List.count_cons, ih]
  | case2 x t hne ih =>
    rw [unescape]
    · rw [List.count_cons, List.count_cons, ih]
    · exact hne
  | case3 => rfl

theorem count_escape {c : Char} (hb : c ≠ '\\') (t : List Char) :
    (escape t).count c = t.count c := by
  rw [← count_unescape hb, unescape_escape]

/-- A character that the encoding of strings has no use for. -/
def Ordinary (c : Char) : Prop :=
  c ≠ '"' ∧ c ≠ '\\'

instance (c : Char) : Decidable (Ordinary c) :=
  inferInstanceAs (Decidable (_ ∧ _))

theorem count_serialize_string {c : Char} (hc : Ordinary c) (s : String) :
    (serialize s).count c = s.toList.count c := by
  simp only [serialize]
  split
  · rw [List.count_cons_of_ne hc.1.symm, List.count_append, count_escape hc.2,
      List.count_cons_of_ne hc.1.symm]
    rfl
  · rfl

theorem mem_serialize_string {c : Char} (hc : Ordinary c) {s : String} :
    c ∈ serialize s ↔ c ∈ s.toList := by
  rw [← List.count_pos_iff, count_serialize_string hc, List.count_pos_iff]

/-- The two ways in which a string is read. -/
theorem string_cases {t : List Char} {s : String} (h : deserialize t = Res.ok s) :
    (∃ u, trim isWhitespace t = '"' :: (u ++ ['"']) ∧ s.toList = unescape u) ∨
      (¬ ((trim isWhitespace t).head? = some '"' ∧ (trim isWhitespace t).getLast? = some '"') ∧
        s.toList = trim isWhitespace t) := by
  simp only [deserialize] at h
  split_ifs at h with hq hlen
  · obtain ⟨x, u, y, hu⟩ : ∃ x u y, trim isWhitespace t = x :: (u ++ [y]) := by
      rcases List.eq_nil_or_concat (trim isWhitespace t) with hnil | ⟨u, y, hu⟩
      · rw [hnil] at hq
        cases hq.1
      · rw [List.concat_eq_append] at hu
        cases u with
        | nil => exact absurd (by rw [hu]; rfl) hlen
        | cons x u => exact ⟨x, u, y, hu⟩
    rw [hu] at hq h
    rw [← List.cons_append, List.getLast?_concat] at hq
    obtain rfl := Option.some_inj.mp hq.1
    obtain rfl := Option.some_inj.mp hq.2
    obtain rfl := Res.ok.inj h
    refine Or.inl ⟨u, hu, ?_⟩
    rw [String.toList_ofList, List.tail_cons, List.dropLast_concat]
  · obtain rfl := Res.ok.inj h
    exact Or.inr ⟨hq, String.toList_ofList⟩

/-- A string is made of the text it is read from. -/
theorem sublist_of_deserialize {t : List Char} {s : String} (h : deserialize t = Res.ok s) :
    s.toList.Sublist t := by
  refine List.Sublist.trans ?_ (trim_sublist (p := isWhitespace) t)
  obtain ⟨u, hu, hs⟩ | ⟨-, hs⟩ := string_cases h
  · rw [hu, hs]
    exact ((unescape_sublist u).trans (List.sublist_append_left u _)).cons _
  · rw [hs]

/-- Nothing but blanks, quotation marks and backslashes is lost on the way. -/
theorem count_of_deserialize {t : List Char} {s : String} {c : Char} (hc : Ordinary c)
    (hw : isWhitespace c = false) (h : deserialize t = Res.ok s) :
    s.toList.count c = t.count c := by
  rw [← count_trim hw t]
  obtain ⟨u, hu, hs⟩ | ⟨-, hs⟩ := string_cases h
  · rw [hu, hs, count_unescape hc.2, List.count_cons_of_ne hc.1.symm, List.count_append,
      List.count_cons_of_ne hc.1.symm]
    rfl
  · rw [hs]

theorem deserialize_string_iff (s : String) :
    deserialize (trim isWhitespace (serialize s)) = Res.ok s ↔ Quotable s := by
  constructor
  · intro h
    by_cases hs : ' ' ∈ s.toList
    · exact Or.inl hs
    · have htext : serialize s = s.toList := if_neg hs
      rw [htext] at h
      obtain ⟨u, hu, hsu⟩ | ⟨hq, hsu⟩ := string_cases h
      · -- without the quotation marks it is too short
        have hlen := (unescape_sublist u).length_le
        have htl := (trim_sublist (p := isWhitespace) s.toList).length_le
        rw [trim_trim] at hu
        rw [hu, List.length_cons, List.length_append] at htl
        rw [← hsu] at hlen
        omega
      · rw [trim_trim] at hsu hq
        rw [← hsu] at hq
        exact Or.inr ⟨hsu.symm, hq⟩
  · intro h
    rw [trim_serialize h]
    exact deserialize_string h

/-! ## Taking a list apart -/

namespace Splitter

/-- A character is added to the current element, or it is a comma and ends it. -/
theorem step_cases (s : Splitter) (c : Char) :
    (∃ d q, s.step c = ⟨s.result, s.current ++ [c], d, q⟩) ∨
      (c = ',' ∧ s.step c =
        ⟨s.result ++ [trim isWhitespace s.current], [], s.depth, s.inQuotes⟩) := by
  generalize hs : s.step c = s'
  rw [step] at hs
  split_ifs at hs with h1 h2 h3 h4 <;> subst hs
  · exact Or.inl ⟨_, _, rfl⟩
  · exact Or.inl ⟨_, _, rfl⟩
  · exact Or.inl ⟨_, _, rfl⟩
  · exact Or.inr ⟨h4.1, rfl⟩
  · exact Or.inl ⟨_, _, rfl⟩

/-- The elements are made of the text, in order. -/
theorem sublist_finish (s : Splitter) (t : List Char) :
    (t.foldl step s).finish.flatten.Sublist (s.result.flatten ++ (s.current ++ t)) := by
  induction t generalizing s with
  | nil =>
    rw [List.foldl_nil, finish, List.append_nil]
    split
    · rw [List.flatten_append, List.flatten_singleton]
      exact (trim_sublist s.current).append_left _
    · exact List.sublist_append_left ..
  | cons c t ih =>
    have hrest := ih (s.step c)
    rw [List.foldl_cons]
    obtain ⟨d, q, hs⟩ | ⟨-, hs⟩ := s.step_cases c
    · rw [hs] at hrest ⊢
      rwa [List.append_assoc] at hrest
    · rw [hs] at hrest ⊢
      rw [List.flatten_append, List.flatten_singleton, List.nil_append, List.append_assoc] at hrest
      refine hrest.trans (List.Sublist.append_left ?_ _)
      exact (trim_sublist s.current).append (List.sublist_cons_self c t)

/-- What was found before is not looked at again. -/
theorem finish_result (res : List (List Char)) (cur : List Char) (d : ℤ) (q : Bool)
    (t : List Char) : (t.foldl step ⟨res, cur, d, q⟩).finish =
      res ++ (t.foldl step ⟨[], cur, d, q⟩).finish := by
  induction t generalizing res cur d q with
  | nil =>
    change (if trim isWhitespace cur ≠ [] then res ++ [trim isWhitespace cur] else res) =
      res ++ if trim isWhitespace cur ≠ [] then [trim isWhitespace cur] else []
    by_cases hblank : trim isWhitespace cur = []
    · rw [if_neg (not_not.mpr hblank), if_neg (not_not.mpr hblank), List.append_nil]
    · rw [if_pos hblank, if_pos hblank]
  | cons c t ih =>
    have hstep : step ⟨res, cur, d, q⟩ c = ⟨res ++ (step ⟨[], cur, d, q⟩ c).result,
        (step ⟨[], cur, d, q⟩ c).current, (step ⟨[], cur, d, q⟩ c).depth,
        (step ⟨[], cur, d, q⟩ c).inQuotes⟩ := by
      simp only [step, push]
      split_ifs <;> simp
    rw [List.foldl_cons, List.foldl_cons, hstep, ih, List.append_assoc, ← ih]

/-- The first element has all that is current. -/
theorem count_le_head {cur e : List Char} {d : ℤ} {q : Bool} {t : List Char}
    {es : List (List Char)} (h : (t.foldl step ⟨[], cur, d, q⟩).finish = e :: es) :
    cur.count ',' ≤ e.count ',' := by
  induction t generalizing cur d q with
  | nil =>
    rw [List.foldl_nil, finish] at h
    split at h
    · obtain rfl := (List.cons.inj h).1
      rw [count_trim rfl]
    · cases h
  | cons c t ih =>
    rw [List.foldl_cons] at h
    obtain ⟨d', q', hs⟩ | ⟨-, hs⟩ := step_cases ⟨[], cur, d, q⟩ c
    · rw [hs] at h
      have hle := ih h
      rw [List.count_append] at hle
      exact (Nat.le_add_right _ _).trans hle
    · rw [hs, finish_result] at h
      obtain rfl := (List.cons.inj h).1
      rw [count_trim rfl]

end Splitter

theorem elements_flatten_sublist (t : List Char) : (elements t).flatten.Sublist t :=
  Splitter.sublist_finish _ t

theorem elements_cons {p : List Char} (hp : vecScanner.Passes 0 p) (t : List Char) :
    elements (p ++ ',' :: t) = trim isWhitespace p :: elements t := by
  rw [elements, List.foldl_append, foldl_splitter hp, List.foldl_cons]
  exact Splitter.finish_result [trim isWhitespace p] [] 0 false t

/-- A comma that does not count stays in the first element. -/
theorem count_lt_head {x e t : List Char} {r : Bool × ℤ} {es : List (List Char)}
    (hx : vecScanner.scan false 0 x = some r) (hr : r ≠ (false, 0))
    (h : elements (x ++ ',' :: t) = e :: es) : x.count ',' < e.count ',' := by
  have hc : ¬ (',' = ',' ∧ r.2 = 0) ∨ r.1 = true := by
    by_contra hno
    rw [not_or, not_not, Bool.not_eq_true] at hno
    exact hr (Prod.ext hno.2 hno.1.2)
  rw [elements, List.foldl_append, foldl_splitter hx, List.foldl_cons, Splitter.step_eq hc] at h
  have hle := Splitter.count_le_head h
  rw [List.nil_append, List.count_append] at hle
  exact Nat.lt_of_succ_le hle

/-- Only texts that the loop tells apart have as many commas as the elements that it finds. -/
theorem separates_of_elements {xs : List (List Char)}
    (h : List.Forall₂ (fun e x ↦ e.count ',' = x.count ',') (elements ([','].intercalate xs)) xs) :
    vecScanner.Separates xs ∧ ∀ t ∈ xs.getLast?, trim isWhitespace t ≠ [] := by
  induction xs with
  | nil => exact ⟨⟨nofun, nofun⟩, nofun⟩
  | cons x xs ih =>
    obtain ⟨tail, htail⟩ : ∃ tail, [','].intercalate (x :: xs) = x ++ tail := by
      cases xs with
      | nil => exact ⟨[], by rw [List.intercalate_singleton, List.append_nil]⟩
      | cons y ys => exact ⟨_, by rw [List.intercalate_cons_cons, List.append_assoc]⟩
    -- no comma in the text itself counts
    have hx : (vecScanner.scan false 0 x).isSome = true := by
      rw [Option.isSome_iff_ne_none]
      intro hnone
      obtain ⟨p, r, hp, hscan⟩ := Scanner.exists_of_scan_eq_none _ hnone
      rw [htail, hp, List.append_assoc, List.cons_append] at h
      rw [show vecScanner.sep = ',' from rfl, elements_cons hscan] at h
      obtain ⟨hcount, -⟩ := List.forall₂_cons.mp h
      rw [count_trim rfl, List.count_append, List.count_cons_self] at hcount
      omega
    cases xs with
    | nil =>
      refine ⟨⟨nofun, fun t ht ↦ ?_⟩, fun t ht hblank ↦ ?_⟩
      · obtain rfl : x = t := Option.some_inj.mp ht
        exact hx
      · obtain rfl : x = t := Option.some_inj.mp ht
        obtain ⟨r, hr⟩ := Option.isSome_iff_exists.mp hx
        rw [List.intercalate_singleton, elements, foldl_splitter hr, Splitter.finish,
          List.nil_append, if_neg (not_not.mpr hblank)] at h
        cases h
    | cons y ys =>
      rw [List.intercalate_cons_cons, List.append_assoc, List.singleton_append] at h
      obtain ⟨r, hr⟩ := Option.isSome_iff_exists.mp hx
      have hpass : vecScanner.Passes 0 x := by
        by_contra hno
        have hne : r ≠ (false, 0) := fun he ↦ hno (hr.trans (congrArg some he))
        cases he : elements (x ++ ',' :: [','].intercalate (y :: ys)) with
        | nil =>
          rw [he] at h
          cases h
        | cons e es =>
          rw [he] at h
          exact absurd (List.forall₂_cons.mp h).1 (count_lt_head hr hne he).ne'
      rw [elements_cons hpass] at h
      obtain ⟨hsep, hlast⟩ := ih (List.forall₂_cons.mp h).2
      refine ⟨⟨fun t ht ↦ ?_, hsep.2⟩, hlast⟩
      rcases List.mem_cons.mp ht with rfl | ht
      · exact hpass
      · exact hsep.1 t ht

/-! ## Lists of strings -/

theorem forall₂_of_mapM {α β : Type} {f : α → Res β} {xs : List α} {ys : List β}
    (h : xs.mapM f = Res.ok ys) : List.Forall₂ (fun x y ↦ f x = Res.ok y) xs ys := by
  induction xs generalizing ys with
  | nil =>
    obtain rfl := Res.ok.inj h
    exact .nil
  | cons x xs ih =>
    rw [List.mapM_cons] at h
    cases hx : f x with
    | err msg =>
      rw [hx] at h
      cases h
    | panic =>
      rw [hx] at h
      cases h
    | ok y =>
      rw [hx, Res.ok_bind] at h
      cases hxs : xs.mapM f with
      | err msg =>
        rw [hxs] at h
        cases h
      | panic =>
        rw [hxs] at h
        cases h
      | ok zs =>
        rw [hxs, Res.ok_bind] at h
        obtain rfl := Res.ok.inj h
        exact .cons hx (ih hxs)

theorem count_intercalate {c : Char} (hc : c ≠ ',') (ts : List (List Char)) :
    ([','].intercalate ts).count c = ts.flatten.count c := by
  induction ts with
  | nil => rfl
  | cons t ts ih =>
    cases ts with
    | nil => rw [List.intercalate_singleton, List.flatten_singleton]
    | cons u us =>
      rw [List.intercalate_cons_cons, List.count_append, List.count_append, ih,
        List.count_cons_of_ne hc.symm, List.count_nil, Nat.add_zero, ← List.count_append]
      rfl

/-- The text between the brackets. -/
def peeled (t : List Char) : List Char :=
  ((trim isWhitespace t).dropWhile (· = '[')).rdropWhile (· = ']')

theorem peeled_sublist (t : List Char) : (peeled t).Sublist t :=
  ((List.rdropWhile_prefix _ _).sublist.trans (List.dropWhile_sublist _)).trans (trim_sublist t)

/-- A list of strings is read from the elements of the text between the brackets. -/
theorem strings_cases {t : List Char} {vals : List String} (h : deserialize t = Res.ok vals) :
    vals = [] ∨ List.Forall₂ (fun e v ↦ deserialize e = Res.ok v) (elements (peeled t)) vals := by
  change (if peeled t = [] then _ else _) = _ at h
  split at h
  · exact Or.inl (Res.ok.inj h).symm
  · exact Or.inr (forall₂_of_mapM h)

/-- All the strings of a list are made of the text between the brackets. -/
theorem strings_flatten_sublist {t : List Char} {vals : List String}
    (h : deserialize t = Res.ok vals) : (vals.map String.toList).flatten.Sublist (peeled t) := by
  obtain rfl | hall := strings_cases h
  · exact List.nil_sublist _
  · refine List.Sublist.trans ?_ (elements_flatten_sublist _)
    clear h
    generalize elements (peeled t) = es at hall
    induction hall with
    | nil => exact .slnil
    | cons he _ ih => exact (sublist_of_deserialize he).append ih

theorem count_serialize_strings {c : Char} (hc : Ordinary c) (vals : List String) :
    ((vals.map serialize).flatten).count c = ((vals.map String.toList).flatten).count c := by
  induction vals with
  | nil => rfl
  | cons v vals ih =>
    rw [List.map_cons, List.map_cons, List.flatten_cons, List.flatten_cons, List.count_append,
      List.count_append, count_serialize_string hc, ih]

/-- If the text between the brackets starts with a bracket as well, that one is lost. -/
theorem count_peeled_of_head (t : List Char) :
    (peeled ('[' :: ('[' :: t ++ [']']))).count '[' ≤ t.count '[' := by
  have hsub : (peeled ('[' :: ('[' :: t ++ [']']))).Sublist (t ++ [']']) := by
    rw [peeled, trim_brackets rfl rfl, List.cons_append, List.dropWhile_cons_of_pos (by decide),
      List.dropWhile_cons_of_pos (by decide)]
    exact (List.rdropWhile_prefix _ _).sublist.trans (List.dropWhile_sublist _)
  have hle := hsub.count_le '['
  rwa [List.count_append] at hle

theorem count_peeled_of_last (t : List Char) :
    (peeled ('[' :: (t ++ [']'] ++ [']']))).count ']' ≤ t.count ']' := by
  have hdrop : ('[' :: (t ++ [']'] ++ [']'])).dropWhile (· = '[') =
      t.dropWhile (· = '[') ++ [']'] ++ [']'] := by
    rw [List.dropWhile_cons_of_pos (by decide), List.append_assoc, List.dropWhile_append]
    split
    · rename_i hnil
      rw [List.isEmpty_iff.mp hnil]
      rfl
    · rw [List.append_assoc]
  rw [peeled, trim_brackets rfl rfl, hdrop, List.rdropWhile_concat_pos _ _ _ (by decide),
    List.rdropWhile_concat_pos _ _ _ (by decide)]
  exact ((List.rdropWhile_prefix _ _).sublist.trans (List.dropWhile_sublist _)).count_le _

/-- A list of strings that comes back had only its own brackets removed. -/
theorem peeled_of_deserialize {vals : List String}
    (h : deserialize (serialize vals) = Res.ok vals) :
    peeled (serialize vals) = [','].intercalate (vals.map serialize) ∧
      ([','].intercalate (vals.map serialize)).head? ≠ some '[' ∧
      ([','].intercalate (vals.map serialize)).getLast? ≠ some ']' := by
  have hcount : ∀ c, Ordinary c → c ≠ ',' →
      ([','].intercalate (vals.map serialize)).count c ≤ (peeled (serialize vals)).count c := by
    intro c hc hcomma
    rw [count_intercalate hcomma, count_serialize_strings hc]
    exact (strings_flatten_sublist h).count_le c
  have hopen := hcount '[' (by decide) (by decide)
  have hclose := hcount ']' (by decide) (by decide)
  rw [serialize_list] at hopen hclose ⊢
  generalize [','].intercalate (vals.map serialize) = t at hopen hclose ⊢
  have hhead : t.head? ≠ some '[' := by
    intro hh
    cases t with
    | nil => cases hh
    | cons c t =>
      obtain rfl := Option.some_inj.mp hh
      have := count_peeled_of_head t
      rw [List.count_cons_self] at hopen
      omega
  have hlast : t.getLast? ≠ some ']' := by
    intro hl
    obtain ⟨u, rfl⟩ := List.getLast?_eq_some_iff.mp hl
    have := count_peeled_of_last u
    rw [List.count_append, List.count_singleton_self] at hclose
    omega
  exact ⟨strip_brackets hhead hlast, hhead, hlast⟩

/-- **When a list of strings comes back.** -/
theorem deserialize_strings_iff (vals : List String) :
    deserialize (serialize vals) = Res.ok vals ↔
      vals = [] ∨ (vecScanner.Separates (vals.map serialize) ∧ Listable (vals.map serialize) ∧
        ∀ v ∈ vals, Quotable v) := by
  constructor
  · intro h
    refine (strings_cases h).imp_right fun hall ↦ ?_
    obtain ⟨hcut, hhead, hlast⟩ := peeled_of_deserialize h
    rw [hcut] at hall
    have hcommas : List.Forall₂ (fun e x ↦ e.count ',' = x.count ',')
        (elements ([','].intercalate (vals.map serialize))) (vals.map serialize) := by
      refine List.forall₂_map_right_iff.mpr (hall.imp fun e v he ↦ ?_)
      rw [count_serialize_string (by decide), count_of_deserialize (by decide) (by decide) he]
    obtain ⟨hsep, hblank⟩ := separates_of_elements hcommas
    refine ⟨hsep, ⟨fun t ht hh ↦ hhead ?_, fun t ht ↦ ⟨hblank t ht, fun hl ↦ hlast ?_⟩⟩, ?_⟩
    · obtain ⟨ts, hts⟩ := List.head?_eq_some_iff.mp ht
      rw [hts]
      cases ts with
      | nil => rwa [List.intercalate_singleton]
      | cons u us =>
        rw [List.intercalate_cons_cons, List.append_assoc, List.head?_append, hh]
        rfl
    · obtain ⟨ts, hts⟩ := List.getLast?_eq_some_iff.mp ht
      have hne : t ≠ [] := by
        rintro rfl
        cases hl
      rwa [hts, getLast_intercalate ts hne]
    · rw [elements_intercalate hsep hblank, List.map_map, List.forall₂_map_left_iff,
        List.forall₂_same] at hall
      exact fun v hv ↦ (deserialize_string_iff v).mp (hall v hv)
  · rintro (rfl | ⟨hsep, hl, hq⟩)
    · rfl
    · exact deserialize_list hsep hl fun v hv ↦ (deserialize_string_iff v).mpr (hq v hv)

/-! ## Structs with one field -/

namespace KeyValues

/-- What one character can do to the values: it is added to the one being read, or it leaves it
alone, or it ends it. -/
def Moves (s : KeyValues) (c : Char) (s' : KeyValues) : Prop :=
  (s'.map = s.map ∧ s'.value = s.value ++ [c]) ∨ (s'.map = s.map ∧ s'.value = s.value) ∨
    (s'.map = s.insert ∧ s'.value = [])

theorem moves_step (s : KeyValues) (c : Char) : s.Moves c (s.step c) := by
  have hpush : ∀ {q : Bool} {i j : ℤ}, s.Moves c ⟨s.map, s.key, s.value ++ [c], s.inKey, q, i, j⟩ :=
    Or.inl ⟨rfl, rfl⟩
  have hkeep : ∀ {key : List Char} {k : Bool},
      s.Moves c ⟨s.map, key, s.value, k, s.inQuotes, s.square, s.curly⟩ :=
    Or.inr (Or.inl ⟨rfl, rfl⟩)
  have hinsert : s.Moves c ⟨s.insert, [], [], true, s.inQuotes, s.square, s.curly⟩ :=
    Or.inr (Or.inr ⟨rfl, rfl⟩)
  rw [step]
  refine iteInduction (fun _ ↦ hkeep) fun _ ↦ ?_
  refine iteInduction (fun _ ↦ hpush) fun _ ↦ ?_
  refine iteInduction (fun _ ↦ hpush) fun _ ↦ ?_
  refine iteInduction (fun _ ↦ hpush) fun _ ↦ ?_
  refine iteInduction (fun _ ↦ hpush) fun _ ↦ ?_
  refine iteInduction (fun _ ↦ hpush) fun _ ↦ ?_
  refine iteInduction (fun _ ↦ ?_) fun _ ↦ ?_
  · exact iteInduction (fun _ ↦ hinsert) fun _ ↦ hkeep
  · exact iteInduction (fun _ ↦ hkeep) fun _ ↦ hpush

/-- A value that is found was found before or is made of the text. -/
theorem sublist_of_mem_finish {s : KeyValues} {t : List Char} {f : List Char × List Char}
    (hf : f ∈ (t.foldl step s).finish) : f ∈ s.map ∨ f.2.Sublist (s.value ++ t) := by
  have hins : ∀ {s : KeyValues}, f ∈ s.insert → f ∈ s.map ∨ f.2.Sublist s.value := by
    intro s hf
    rcases List.mem_cons.mp hf with rfl | hf
    · exact Or.inr (trim_sublist s.value)
    · exact Or.inl hf
  induction t generalizing s with
  | nil =>
    rw [List.foldl_nil, finish] at hf
    rw [List.append_nil]
    split at hf
    · exact hins hf
    · exact Or.inl hf
  | cons c t ih =>
    rw [List.foldl_cons] at hf
    obtain ⟨hm, hv⟩ | ⟨hm, hv⟩ | ⟨hm, hv⟩ := s.moves_step c
    · have := ih hf
      rwa [hm, hv, List.append_assoc] at this
    · have := ih hf
      rw [hm, hv] at this
      exact this.imp_right fun hsub ↦ hsub.trans ((List.sublist_cons_self c t).append_left _)
    · have := ih hf
      rw [hm, hv, List.nil_append] at this
      rcases this with hmem | hsub
      · exact (hins hmem).imp_right fun hsub ↦ hsub.trans (List.sublist_append_left _ _)
      · have hcons := hsub.trans (List.sublist_cons_self c t)
        exact Or.inr (hcons.trans (List.sublist_append_right _ _))

end KeyValues

theorem sublist_of_mem_parseStruct {t : List Char} {f : List Char × List Char}
    (hf : f ∈ parseStruct t) : f.2.Sublist t := by
  refine List.Sublist.trans ?_ (trim_sublist (p := isWhitespace) t)
  have hsub := (KeyValues.sublist_of_mem_finish hf).resolve_left nofun
  rw [List.nil_append] at hsub
  split at hsub
  · exact hsub.trans ((List.dropLast_sublist _).trans (List.tail_sublist _))
  · exact hsub

theorem parseKeyValues_field {k x : List Char} (hk : Plain k) {r : Bool × ℤ × ℤ}
    (h : kvScanner.scan false 0 x = some r) :
    parseKeyValues (k ++ '=' :: x) = [(k, trim isWhitespace x)] := by
  rw [parseKeyValues, foldl_field (f := (k, x)) hk h, KeyValues.finish, if_pos hk.1,
    KeyValues.insert, hk.trim_eq]

/-- If a space counts in the text of a field, no value that is found has all of its spaces. -/
theorem count_lt_of_scan_eq_none {k x : List Char} (hk : Plain k)
    (h : kvScanner.scan false 0 x = none) {f : List Char × List Char}
    (hf : f ∈ parseKeyValues (k ++ '=' :: x)) : f.2.count ' ' < x.count ' ' := by
  obtain ⟨p, r, rfl, hp⟩ := Scanner.exists_of_scan_eq_none _ h
  have hstep : KeyValues.step ⟨[], k, p, false, false, 0, 0⟩ ' ' =
      ⟨[(k, trim isWhitespace p)], [], [], true, false, 0, 0⟩ := by
    simp [KeyValues.step, KeyValues.insert, hk.1, hk.trim_eq]
  have hsplit : k ++ '=' :: (p ++ kvScanner.sep :: r) = (k ++ '=' :: p) ++ ' ' :: r := by
    simp [kvScanner]
  rw [hsplit, parseKeyValues, List.foldl_append, foldl_field (f := (k, p)) hk hp] at hf
  rw [List.foldl_cons] at hf
  change f ∈
    (List.foldl KeyValues.step (KeyValues.step ⟨[], k, p, false, false, 0, 0⟩ ' ') r).finish at hf
  rw [hstep] at hf
  have hle : f.2.count ' ' ≤ p.count ' ' + r.count ' ' := by
    rcases KeyValues.sublist_of_mem_finish hf with hmem | hsub
    · obtain rfl := List.mem_singleton.mp hmem
      exact ((trim_sublist p).count_le ' ').trans (Nat.le_add_right _ _)
    · exact (hsub.count_le ' ').trans (Nat.le_add_left _ _)
  rw [List.count_append, show kvScanner.sep = ' ' from rfl, List.count_cons_self]
  omega

theorem serializeStruct_single {n : String} {x : List Char} (hx : x ≠ "None".toList) :
    serializeStruct [(n, x)] = '{' :: (n.toList ++ '=' :: x ++ ['}']) := by
  have hpres : present [(n, x)] = [(n, x)] :=
    List.filter_cons_of_pos (decide_eq_true hx)
  rw [serializeStruct, hpres, List.map_singleton, List.intercalate_singleton]

theorem serializeStruct_none {n : String} : serializeStruct [(n, "None".toList)] = ['{', '}'] := by
  have hpres : present [(n, "None".toList)] = [] :=
    List.filter_cons_of_neg (ne_true_of_eq_false (decide_eq_false (not_not_intro rfl)))
  rw [serializeStruct, hpres]
  rfl

theorem parseStruct_single {n : String} {x : List Char} (hx : x ≠ "None".toList) :
    parseStruct (serializeStruct [(n, x)]) = parseKeyValues (n.toList ++ '=' :: x) := by
  have hstruct := serializeStruct_single (n := n) hx
  have hlast : (serializeStruct [(n, x)]).getLast? = some '}' := by
    rw [hstruct, ← List.cons_append, List.getLast?_concat]
  simp only [parseStruct, trim_serializeStruct]
  rw [if_pos ⟨by rw [hstruct]; rfl, hlast⟩, hstruct, List.tail_cons, List.dropLast_concat]

theorem parseStruct_none {n : String} :
    parseStruct (serializeStruct [(n, "None".toList)]) = [] := by
  rw [serializeStruct_none]
  rfl

/-- Reading a value does not make more of a character than there is in the text. -/
def Bounds (α : Type) [Serialize α] [Deserialize α] (c : Char) : Prop :=
  ∀ (t : List Char) (a : α), deserialize t = Res.ok a → (serialize a).count c ≤ t.count c

theorem bounds_string {c : Char} (hc : Ordinary c) : Bounds String c := by
  intro t s h
  rw [count_serialize_string hc]
  exact (sublist_of_deserialize h).count_le c

theorem bounds_strings {c : Char} (hc : Ordinary c) (hb : c ∉ ['[', ']', ',']) :
    Bounds (List String) c := by
  intro t vals h
  simp only [List.mem_cons, List.not_mem_nil, or_false, not_or] at hb
  obtain ⟨ho, hcl, hcomma⟩ := hb
  rw [serialize_list, List.count_cons_of_ne (Ne.symm ho), List.count_append,
    List.count_cons_of_ne (Ne.symm hcl), List.count_nil, Nat.add_zero, count_intercalate hcomma,
    count_serialize_strings hc]
  exact ((strings_flatten_sublist h).trans (peeled_sublist t)).count_le c

theorem exists_of_field {α : Type} [Deserialize α] {map : List (List Char × List Char)}
    {n : String} {a : α} (h : field map n = Res.ok a) :
    ∃ t, (n.toList, t) ∈ map ∧ deserialize t = Res.ok a := by
  rw [field] at h
  split at h
  · rename_i t ht
    obtain ⟨l₁, l₂, rfl, -⟩ := List.lookup_eq_some_iff.mp ht
    exact ⟨t, by simp, h⟩
  · cases h

variable {α : Type} [Serialize α] [Deserialize α]

/-- **When the field of a struct comes back**: it is not left out, no space in it counts, and its
value comes back from its trimmed text. -/
theorem field_iff {n : String} (hn : Plain n.toList) (hspace : Bounds α ' ') (a : α) :
    field (parseStruct (serializeStruct [(n, serialize a)])) n = Res.ok a ↔
      serialize a ≠ "None".toList ∧ (kvScanner.scan false 0 (serialize a)).isSome = true ∧
        deserialize (trim isWhitespace (serialize a)) = Res.ok a := by
  have hlook : serialize a ≠ "None".toList → ∀ r, kvScanner.scan false 0 (serialize a) = some r →
      (field (parseStruct (serializeStruct [(n, serialize a)])) n : Res α) =
        deserialize (trim isWhitespace (serialize a)) := by
    intro hne r hr
    rw [field, parseStruct_single hne, parseKeyValues_field hn hr, List.lookup_cons_self]
  constructor
  · intro h
    have hne : serialize a ≠ "None".toList := by
      intro he
      rw [he, parseStruct_none] at h
      cases h
    refine ⟨hne, ?_⟩
    cases hr : kvScanner.scan false 0 (serialize a) with
    | none =>
      rw [parseStruct_single hne] at h
      obtain ⟨t, ht, hta⟩ := exists_of_field h
      exact absurd (hspace t a hta) (count_lt_of_scan_eq_none hn hr ht).not_ge
    | some r => exact ⟨rfl, hlook hne r hr ▸ h⟩
  · rintro ⟨hne, hscan, ha⟩
    obtain ⟨r, hr⟩ := Option.isSome_iff_exists.mp hscan
    rw [hlook hne r hr, ha]

/-! ## The first line -/

/-- What is read of a text by one who reads up to the end of the line. -/
def firstLine (t : List Char) : List Char :=
  t.takeWhile (· ≠ '\n')

theorem firstLine_eq {t : List Char} (h : '\n' ∉ t) : firstLine t = t :=
  List.takeWhile_eq_self_iff.mpr fun _ hc ↦ decide_eq_true fun he ↦ h (he ▸ hc)

theorem not_mem_firstLine (t : List Char) : '\n' ∉ firstLine t := by
  intro hmem
  have hne := List.mem_takeWhile_imp hmem
  exact of_decide_eq_true hne rfl

/-- The line of a struct is all of its text if there is no newline in the field. -/
theorem firstLine_single {n : String} (hn : Plain n.toList) {x : List Char} (hx : '\n' ∉ x) :
    firstLine (serializeStruct [(n, x)]) = serializeStruct [(n, x)] := by
  have hname : '\n' ∉ n.toList := fun hmem ↦ absurd (hn.2 _ hmem).1 (by decide)
  refine firstLine_eq ?_
  by_cases hnone : x = "None".toList
  · rw [hnone, serializeStruct_none]
    decide
  · rw [serializeStruct_single hnone]
    simp [hname, hx]

theorem field_firstLine_iff {n : String} (hn : Plain n.toList) (hspace : Bounds α ' ')
    (hline : Bounds α '\n') (a : α) :
    field (parseStruct (firstLine (serializeStruct [(n, serialize a)]))) n = Res.ok a ↔
      '\n' ∉ serialize a ∧ serialize a ≠ "None".toList ∧
        (kvScanner.scan false 0 (serialize a)).isSome = true ∧
        deserialize (trim isWhitespace (serialize a)) = Res.ok a := by
  constructor
  · intro h
    have hnl : '\n' ∉ serialize a := by
      obtain ⟨t, ht, hta⟩ := exists_of_field h
      have hle := (hline t a hta).trans ((sublist_of_mem_parseStruct ht).count_le '\n')
      rw [List.count_eq_zero.mpr (not_mem_firstLine _)] at hle
      exact List.count_eq_zero.mp (Nat.le_zero.mp hle)
    rw [firstLine_single hn hnl] at h
    exact ⟨hnl, (field_iff hn hspace a).mp h⟩
  · rintro ⟨hnl, h⟩
    rw [firstLine_single hn hnl]
    exact (field_iff hn hspace a).mpr h

end Rpc

end Efis
