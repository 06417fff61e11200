import Efis.Rpc.Exact
import Efis.Rpc.Server

/-!
# What the client makes of an outcome

An rpc returns a response or an error, the handler writes a line for it, and `Client::call` decides
from that line alone what the caller gets.  `Outcome.understood_iff` says for which outcomes this is
what the rpc returned.

Responses of numbers always get through.  A text does if it is on one line, if it is not `None`, if
it comes back as a string, if no space in it counts (`FieldFits.scan`), and if the line is not taken
for a redirect (`Redirecting`); a list of texts also has to come apart again.  The messages of the
errors are texts like these.  `NotLeader` is never understood: its name is in the printed message,
and the client looks for it after an equality sign (`parseRedirect_notLeader`).  With the encoder of
`RpcError` it would be (`classify_rpcError`).
-/

set_option autoImplicit false

namespace Efis

open Rpc Text

/-! ## Redirects -/

/-- The line is taken for a redirect: the words `not_leader` are in it, and something is left of
what comes after `leader=`. -/
def Redirecting (t : List Char) : Prop :=
  "not_leader".toList <:+: t ∧
    ∃ s ∈ between "leader=".toList t, ∃ c ∈ s.rdropWhile (· = '}'), isWhitespace c = false

theorem firstWord_eq_none_iff (t : List Char) :
    firstWord t = none ↔ ∀ c ∈ t, isWhitespace c = true := by
  have hnil : firstWord t = none ↔
      (t.dropWhile isWhitespace).takeWhile (fun c ↦ !isWhitespace c) = [] := by
    rw [firstWord]
    split <;> simp [*]
  rw [hnil, ← List.dropWhile_eq_nil_iff]
  cases h : t.dropWhile isWhitespace with
  | nil => simp
  | cons c cs =>
    have hc := List.head?_dropWhile_not isWhitespace t
    rw [h] at hc
    simp [show isWhitespace c = false from hc]

/-- Trimming takes away no word. -/
theorem firstWord_trim_ne_none_iff (t : List Char) :
    firstWord (trim isWhitespace t) ≠ none ↔ ∃ c ∈ t, isWhitespace c = false := by
  rw [Ne, firstWord_eq_none_iff, not_forall]
  constructor
  · rintro ⟨c, hc⟩
    rw [Classical.not_imp, Bool.not_eq_true] at hc
    exact ⟨c, (trim_sublist t).subset hc.1, hc.2⟩
  · rintro ⟨c, hc, hw⟩
    refine ⟨c, Classical.not_imp.mpr ⟨?_, by rw [hw]; exact Bool.false_ne_true⟩⟩
    rw [← List.count_pos_iff, count_trim hw, List.count_pos_iff]
    exact hc

theorem parseRedirect_eq_none_iff (t : List Char) : parseRedirect t = none ↔ ¬ Redirecting t := by
  unfold parseRedirect Redirecting
  generalize "not_leader".toList = words, between "leader=".toList t = rest
  by_cases hi : words <:+: t
  · rw [if_pos hi]
    cases rest with
    | none =>
      refine ⟨fun _ h ↦ ?_, fun _ ↦ rfl⟩
      obtain ⟨s, hs, -⟩ := h.2
      cases hs
    | some s =>
      have hiff := firstWord_trim_ne_none_iff (s.rdropWhile (· = '}'))
      rw [Option.bind_eq_bind, Option.bind_some]
      cases hw : firstWord (trim isWhitespace (s.rdropWhile (· = '}'))) with
      | none =>
        refine ⟨fun _ h ↦ ?_, fun _ ↦ rfl⟩
        obtain ⟨s', hs', hc⟩ := h.2
        obtain rfl := Option.some_inj.mp hs'
        exact hiff.mpr hc hw
      | some w =>
        refine ⟨nofun, fun h ↦ absurd ⟨hi, s, rfl, hiff.mp ?_⟩ h⟩
        rw [hw]
        exact nofun
  · rw [if_neg hi]
    exact ⟨fun _ h ↦ hi h.1, fun _ ↦ rfl⟩

/-- What a redirect names comes after `leader=`. -/
theorem exists_of_parseRedirect {t : List Char} {w : String} (h : parseRedirect t = some w) :
    ∃ p q, t = p ++ "leader=".toList ++ q ∧ w.toList.Sublist q := by
  unfold parseRedirect at h
  generalize "not_leader".toList = words at h
  split at h
  · obtain ⟨s, hs, hw⟩ := Option.bind_eq_some_iff.mp h
    obtain ⟨v, hv, hvw⟩ := Option.bind_eq_some_iff.mp hw
    obtain rfl := Option.some_inj.mp hvw
    rw [between, Option.map_eq_some_iff] at hs
    obtain ⟨⟨p, q⟩, hpq, rfl⟩ := hs
    obtain ⟨⟨i, ht, hi⟩, -⟩ := List.dropInfix?_eq_some_iff.mp hpq
    rw [LawfulBEq.eq_of_beq hi] at ht
    refine ⟨p, q, ht, ?_⟩
    have hcut : (((q.dropInfix? "leader=".toList).map Prod.fst).getD q).Sublist q := by
      cases hd : q.dropInfix? "leader=".toList with
      | none => exact List.Sublist.refl q
      | some r =>
        obtain ⟨⟨j, hq, -⟩, -⟩ := List.dropInfix?_eq_some_iff.mp hd
        rw [List.append_assoc] at hq
        conv_rhs => rw [hq]
        exact List.sublist_append_left _ _
    rw [firstWord] at hv
    split at hv
    · cases hv
    · obtain rfl := Option.some_inj.mp hv
      rw [String.toList_ofList]
      exact ((List.takeWhile_sublist _).trans (List.dropWhile_sublist _)).trans
        ((trim_sublist _).trans ((List.rdropWhile_prefix _ _).sublist.trans hcut))
  · cases h

/-- A pattern that starts with a character that is not in `a` is found after `a` only. -/
theorem prefix_of_not_mem {a p q r i : List Char} {c : Char} (h : p ++ c :: i ++ q <+: a ++ r)
    (hc : c ∉ a) : a <+: p := by
  have hp : p <+: a ++ r := by
    rw [List.append_assoc] at h
    exact (List.prefix_append p _).trans h
  refine List.prefix_of_prefix_length_le (List.prefix_append a r) hp ?_
  by_contra hlt
  rw [not_le] at hlt
  have hget : (p ++ c :: i ++ q)[p.length]? = some c := by simp
  obtain ⟨u, hu⟩ := h
  have hget' : (a ++ r)[p.length]? = some c := by
    rw [← hu, List.getElem?_append_left (by simp), hget]
  rw [List.getElem?_append_left hlt] at hget'
  exact hc (List.mem_of_getElem? hget')

theorem errorLine_eq {e : RpcError} (h : e.toString ≠ "None") :
    errorLine e = "\x7berror=".toList ++ (serialize e.toString ++ ['}']) :=
  serializeStruct_single (serialize_string_ne h (by decide))

/-- Every message has a space in it. -/
theorem RpcError.space_mem (e : RpcError) : ' ' ∈ e.toString.toList := by
  have hleft : ∀ a b : String, ' ' ∈ a.toList → ' ' ∈ (a ++ b).toList := by
    intro a b ha
    rw [String.toList_append]
    exact List.mem_append_left _ ha
  cases e <;> exact hleft _ _ (by decide)

theorem RpcError.ne_none (e : RpcError) : e.toString ≠ "None" := by
  intro h
  have := e.space_mem
  rw [h] at this
  exact absurd this (by decide)

/-- **No redirect arrives.**  Whatever the client takes for the name of the leader has fewer
equality signs than the name that the server wrote. -/
theorem parseRedirect_notLeader (id : String) :
    parseRedirect (firstLine (errorLine (.notLeader id))) ≠ some id := by
  intro h
  obtain ⟨p, q, hpq, hsub⟩ := exists_of_parseRedirect h
  have hline := errorLine_eq (RpcError.ne_none (.notLeader id))
  have hpre : p ++ "leader=".toList ++ q <+: errorLine (.notLeader id) := by
    rw [← hpq]
    exact List.takeWhile_prefix _
  have hcount : (errorLine (.notLeader id)).count '=' = 1 + id.toList.count '=' := by
    have hmsg : ("not leader, redirect to " ++ id).toList.count '=' = id.toList.count '=' := by
      rw [String.toList_append, List.count_append,
        show "not leader, redirect to ".toList.count '=' = 0 by decide, Nat.zero_add]
    rw [hline, List.count_append, List.count_append, count_serialize_string (by decide)]
    exact congrArg (1 + ·) hmsg
  have hhead : "\x7berror=".toList <+: p := by
    rw [hline] at hpre
    exact prefix_of_not_mem hpre (by decide)
  have hone : 1 ≤ p.count '=' := hhead.sublist.count_le '='
  have hle := hpre.sublist.count_le '='
  rw [List.count_append, List.count_append, hcount,
    show "leader=".toList.count '=' = 1 by decide] at hle
  have := hsub.count_le '='
  omega

/-- A pattern is found where a closed text says, if it is not found earlier in it. -/
theorem dropInfix_eq {a pat q : List Char}
    (h : ∀ k < a.length, ((a ++ pat).drop k).take pat.length ≠ pat) :
    (a ++ pat ++ q).dropInfix? pat = some (a, q) := by
  refine List.dropInfix?_eq_some_iff.mpr ⟨⟨pat, rfl, beq_self_eq_true pat⟩, fun p i r hp hi ↦ ?_⟩
  by_contra hlt
  rw [ge_iff_le, not_le] at hlt
  refine h p.length hlt ?_
  rw [LawfulBEq.eq_of_beq hi] at hp
  have hdrop := congrArg (fun t ↦ (t.drop p.length).take pat.length) hp
  simp only [List.append_assoc p, List.drop_left, List.take_left] at hdrop
  rwa [List.drop_append_of_le_length (by rw [List.length_append]; omega),
    List.take_append_of_le_length (by rw [List.length_drop, List.length_append]; omega)] at hdrop

theorem firstWord_plain {t : List Char} (h : Plain t) : firstWord t = some t := by
  have hdrop : t.dropWhile isWhitespace = t := by
    cases t with
    | nil => rfl
    | cons c t =>
      refine List.dropWhile_cons_of_neg ?_
      rw [(h.2 c List.mem_cons_self).1]
      exact Bool.false_ne_true
  have htake : t.takeWhile (fun c ↦ !isWhitespace c) = t :=
    List.takeWhile_eq_self_iff.mpr fun c hc ↦ by rw [(h.2 c hc).1]; rfl
  rw [firstWord, hdrop, htake, if_neg h.1]

/-- **The other encoder would do**: the client understands a redirect as `RpcError` serializes
it. -/
theorem classify_rpcError {α : Type} [Deserialize α] {id : String} (h : Plain id.toList) :
    classify α (serialize (RpcError.notLeader id)) = some (.error (.redirect id)) := by
  have hend : ∀ c ∈ special, c ∉ id.toList := fun c hc hmem ↦ (h.2 c hmem).2 hc
  have hline : serialize (RpcError.notLeader id) =
      "\x7berror=\"not_leader\" ".toList ++ "leader=".toList ++ (id.toList ++ ['}']) := by
    rw [← List.append_assoc]
    rfl
  have hnone : (id.toList ++ ['}']).dropInfix? "leader=".toList = none := by
    rw [Option.eq_none_iff_forall_ne_some]
    rintro ⟨p, q⟩ hpq
    obtain ⟨⟨i, ht, hi⟩, -⟩ := List.dropInfix?_eq_some_iff.mp hpq
    have hmem : '=' ∈ id.toList ++ ['}'] := by
      rw [ht, LawfulBEq.eq_of_beq hi]
      simp
    rcases List.mem_append.mp hmem with hmem | hmem
    · exact hend '=' (by decide) hmem
    · exact absurd hmem (by decide)
  have hbetween : between "leader=".toList (serialize (RpcError.notLeader id)) =
      some (id.toList ++ ['}']) := by
    rw [hline, between, dropInfix_eq (by decide), Option.map_some, hnone]
    rfl
  have hstrip : (id.toList ++ ['}']).rdropWhile (· = '}') = id.toList := by
    rw [List.rdropWhile_concat_pos _ _ _ (by decide), List.rdropWhile_eq_self_iff]
    intro hne hc
    exact hend '}' (by decide) (of_decide_eq_true hc ▸ List.getLast_mem hne)
  have hwords : "not_leader".toList <:+: serialize (RpcError.notLeader id) := by
    rw [hline]
    refine List.IsInfix.trans ?_ (List.prefix_append _ _).isInfix
    decide
  have hred : parseRedirect (serialize (RpcError.notLeader id)) = some id := by
    unfold parseRedirect
    rw [if_pos hwords, hbetween, Option.bind_eq_bind, Option.bind_some, hstrip, h.trim_eq,
      firstWord_plain h, Option.bind_some, String.ofList_toList]
  unfold classify
  rw [hred]

/-! ## Structs with one field -/

/-- The text of a field that gets through: it fits on the line, it is written at all, no space in it
counts, and the line is no redirect. -/
structure FieldFits (name : String) (x : List Char) : Prop where
  line : '\n' ∉ x
  ne_none : x ≠ "None".toList
  scan : (kvScanner.scan false 0 x).isSome = true
  redirect : ¬ Redirecting (serializeStruct [(name, x)])

/-- A struct that derives its encoding from one field. -/
structure SingleField (σ α : Type) [Serialize σ] [Deserialize σ] [Serialize α] [Deserialize α]
    (name : String) (get : σ → α) : Prop where
  plain : Plain name.toList
  serialize_eq : ∀ r : σ, serialize r = serializeStruct [(name, serialize (get r))]
  deserialize_iff : ∀ (t : List Char) (r : σ),
    deserialize t = Res.ok r ↔ field (parseStruct t) name = Res.ok (get r)

theorem classify_eq_ok_iff {α : Type} [Deserialize α] {line : List Char} {a : α} :
    classify α line = some (.ok a) ↔ parseRedirect line = none ∧
      (∃ msg, (deserialize line : Res ErrorRes) = .err msg) ∧ deserialize line = Res.ok a := by
  unfold classify
  cases parseRedirect line with
  | some w => simp
  | none =>
    cases (deserialize line : Res ErrorRes) with
    | ok e => simp
    | panic => simp
    | err msg => cases (deserialize line : Res α) <;> simp

/-- An error that is not one of the client itself. -/
theorem classify_eq_server_iff {α : Type} [Deserialize α] {line : List Char} {msg : String}
    (hmsg : ∀ m, msg ≠ "Deserialize error: " ++ m) :
    classify α line = some (.error (.server msg)) ↔ parseRedirect line = none ∧
      deserialize line = Res.ok (ErrorRes.mk msg) := by
  unfold classify
  cases parseRedirect line with
  | some w => simp
  | none =>
    cases (deserialize line : Res ErrorRes) with
    | ok e =>
      cases e
      simp
    | panic => simp
    | err m =>
      cases (deserialize line : Res α) with
      | ok a => simp
      | panic => simp
      | err m' =>
        have := (hmsg m').symm
        simp [this]

theorem parseRedirect_of_classify {α : Type} [Deserialize α] {line : List Char} {w : String}
    (h : classify α line = some (.error (.redirect w))) : parseRedirect line = some w := by
  unfold classify at h
  cases hp : parseRedirect line with
  | some v =>
    rw [hp] at h
    simpa using h
  | none =>
    rw [hp] at h
    cases he : (deserialize line : Res ErrorRes) with
    | ok e => simp [he] at h
    | panic => simp [he] at h
    | err msg => cases ha : (deserialize line : Res α) <;> simp [he, ha] at h

namespace SingleField

variable {σ α : Type} [Serialize σ] [Deserialize σ] [Serialize α] [Deserialize α] {name : String}
  {get : σ → α} (h : SingleField σ α name get) (hspace : Bounds α ' ') (hline : Bounds α '\n')

include h hspace hline

/-- When the struct is read back from its line, and the line is no redirect. -/
theorem deserialize_firstLine_iff (r : σ) :
    parseRedirect (firstLine (serialize r)) = none ∧
        deserialize (firstLine (serialize r)) = Res.ok r ↔
      FieldFits name (serialize (get r)) ∧
        deserialize (trim isWhitespace (serialize (get r))) = Res.ok (get r) := by
  rw [h.deserialize_iff, h.serialize_eq, field_firstLine_iff h.plain hspace hline]
  constructor
  · rintro ⟨hred, hnl, hne, hscan, hok⟩
    rw [firstLine_single h.plain hnl] at hred
    exact ⟨⟨hnl, hne, hscan, (parseRedirect_eq_none_iff _).mp hred⟩, hok⟩
  · rintro ⟨hfit, hok⟩
    rw [firstLine_single h.plain hfit.line]
    exact ⟨(parseRedirect_eq_none_iff _).mpr hfit.redirect, hfit.line, hfit.ne_none, hfit.scan, hok⟩

theorem classify_iff (hname : name ≠ "error") (r : σ) :
    classify σ (firstLine (serialize r)) = some (.ok r) ↔
      FieldFits name (serialize (get r)) ∧
        deserialize (trim isWhitespace (serialize (get r))) = Res.ok (get r) := by
  rw [classify_eq_ok_iff, ← h.deserialize_firstLine_iff hspace hline]
  constructor
  · rintro ⟨hred, -, hok⟩
    exact ⟨hred, hok⟩
  · rintro ⟨hred, hok⟩
    refine ⟨hred, ?_, hok⟩
    obtain ⟨hfit, -⟩ := (h.deserialize_firstLine_iff hspace hline r).mp ⟨hred, hok⟩
    obtain ⟨q, hq⟩ := Option.isSome_iff_exists.mp hfit.scan
    -- the only field that is found has another name
    have hlook : (parseStruct (firstLine (serialize r))).lookup "error".toList = none := by
      rw [h.serialize_eq, firstLine_single h.plain hfit.line, parseStruct_single hfit.ne_none,
        parseKeyValues_field h.plain hq, List.lookup_eq_none_iff]
      intro p hp
      obtain rfl := List.mem_singleton.mp hp
      have hne : "error".toList ≠ name.toList := fun he ↦ hname (String.toList_inj.mp he.symm)
      simpa using hne
    refine ⟨"Missing field 'error'", ?_⟩
    change (field _ "error" : Res String) >>= _ = _
    rw [field, hlook]
    rfl

end SingleField

/-- A decoder that wraps the field it reads. -/
theorem bind_ok_iff {σ α : Type} {x : Res α} {mk : α → σ} {get : σ → α} {r : σ}
    (hmk : ∀ a, mk a = r ↔ a = get r) :
    (x >>= fun a ↦ Res.ok (mk a)) = Res.ok r ↔ x = Res.ok (get r) := by
  cases x with
  | ok a =>
    rw [Res.ok_bind]
    exact ⟨fun h ↦ congrArg Res.ok ((hmk a).mp (Res.ok.inj h)),
      fun h ↦ congrArg Res.ok ((hmk a).mpr (Res.ok.inj h))⟩
  | err msg => exact ⟨nofun, nofun⟩
  | panic => exact ⟨nofun, nofun⟩

theorem singleField_errorRes : SingleField ErrorRes String "error" ErrorRes.error where
  plain := by decide
  serialize_eq _ := rfl
  deserialize_iff _ r := bind_ok_iff fun a ↦ by cases r; simp

theorem singleField_okRes : SingleField OkRes String "status" OkRes.status where
  plain := by decide
  serialize_eq _ := rfl
  deserialize_iff _ r := bind_ok_iff fun a ↦ by cases r; simp

theorem singleField_getRes {α : Type} [Serialize α] [Deserialize α] :
    SingleField (GetRes α) α "val" GetRes.val where
  plain := by decide
  serialize_eq _ := rfl
  deserialize_iff _ r := bind_ok_iff fun a ↦ by cases r; simp

theorem singleField_ttlRes : SingleField TtlRes String "ttl" TtlRes.ttl where
  plain := by decide
  serialize_eq _ := rfl
  deserialize_iff _ r := bind_ok_iff fun a ↦ by cases r; simp

theorem singleField_listRes : SingleField ListRes (List String) "vals" ListRes.vals where
  plain := by decide
  serialize_eq _ := rfl
  deserialize_iff _ r := bind_ok_iff fun a ↦ by cases r; simp

/-! ## The responses of the service -/

/-- What a handler may return. -/
inductive Kind where
  | ok
  | get
  | ttl
  | list
  | vsearch
  | vote
  | append
  deriving DecidableEq

namespace Kind

def Val : Kind → Type
  | ok => OkRes
  | get => GetRes String
  | ttl => TtlRes
  | list => ListRes
  | vsearch => VSearchRes
  | vote => RequestVoteReply
  | append => AppendEntriesReply

instance (k : Kind) : Serialize k.Val :=
  match k with
  | ok => inferInstanceAs (Serialize OkRes)
  | get => inferInstanceAs (Serialize (GetRes String))
  | ttl => inferInstanceAs (Serialize TtlRes)
  | list => inferInstanceAs (Serialize ListRes)
  | vsearch => inferInstanceAs (Serialize VSearchRes)
  | vote => inferInstanceAs (Serialize RequestVoteReply)
  | append => inferInstanceAs (Serialize AppendEntriesReply)

instance (k : Kind) : Deserialize k.Val :=
  match k with
  | ok => inferInstanceAs (Deserialize OkRes)
  | get => inferInstanceAs (Deserialize (GetRes String))
  | ttl => inferInstanceAs (Deserialize TtlRes)
  | list => inferInstanceAs (Deserialize ListRes)
  | vsearch => inferInstanceAs (Deserialize VSearchRes)
  | vote => inferInstanceAs (Deserialize RequestVoteReply)
  | append => inferInstanceAs (Deserialize AppendEntriesReply)

/-- The numbers of a response are machine numbers. -/
def Usize : (k : Kind) → k.Val → Prop
  | vote, r => RequestVoteReply.Usize r
  | append, r => AppendEntriesReply.Usize r
  | _, _ => True

end Kind

/-- A text that is the only field of a response. -/
def TextFits (name : String) (s : String) : Prop :=
  Quotable s ∧ FieldFits name (serialize s)

/-- A list of texts that is the only field of a response. -/
def ListFits (name : String) (vals : List String) : Prop :=
  (vals = [] ∨ vecScanner.Separates (vals.map serialize) ∧ Listable (vals.map serialize) ∧
    ∀ v ∈ vals, Quotable v) ∧ FieldFits name (serialize vals)

namespace Kind

/-- The texts of a response survive.  Numbers do anyway. -/
def Fits : (k : Kind) → k.Val → Prop
  | ok, r => TextFits "status" (OkRes.status r)
  | get, r => TextFits "val" (GetRes.val r)
  | ttl, r => TextFits "ttl" (TtlRes.ttl r)
  | list, r => ListFits "vals" (ListRes.vals r)
  | vsearch, _ => True
  | vote, _ => True
  | append, _ => True

end Kind

namespace Outcome

/-- What the caller should get. -/
def expected {α : Type} : Except RpcError α → Except ClientError α
  | .ok a => .ok a
  | .error (.notLeader id) => .error (.redirect id)
  | .error e => .error (.server e.toString)

/-- The texts of an outcome survive.  That of `NotLeader` never does. -/
def Fits (k : Kind) : Except RpcError k.Val → Prop
  | .ok r => k.Fits r
  | .error (.notLeader _) => False
  | .error e => TextFits "error" e.toString

/-- The handler answers the request with a line, and the caller gets from it what he should. -/
def Understood (k : Kind) (o : Except RpcError k.Val) (d : Dispatcher) (req : List Char) : Prop :=
  ∃ line, Handler.reply d req = .line line ∧
    classify k.Val (firstLine (line ++ ['\n'])) = some (expected o)

end Outcome

/-! ## When the outcome is understood -/

theorem classify_text_iff {σ : Type} [Serialize σ] [Deserialize σ] {name : String}
    {get : σ → String} (h : SingleField σ String name get) (hname : name ≠ "error") (r : σ) :
    classify σ (firstLine (serialize r)) = some (.ok r) ↔ TextFits name (get r) := by
  rw [h.classify_iff (bounds_string (by decide)) (bounds_string (by decide)) hname,
    deserialize_string_iff, and_comm]
  rfl

theorem classify_listRes_iff (r : ListRes) :
    classify ListRes (firstLine (serialize r)) = some (.ok r) ↔ ListFits "vals" r.vals := by
  have htrim : trim isWhitespace (serialize r.vals) = serialize r.vals := trim_brackets rfl rfl _
  rw [singleField_listRes.classify_iff (bounds_strings (by decide) (by decide))
    (bounds_strings (by decide) (by decide)) (by decide), htrim, deserialize_strings_iff, and_comm]
  rfl

theorem RpcError.ne_deserialize_error (e : RpcError) (m : String) :
    e.toString ≠ "Deserialize error: " ++ m := by
  have hhead : ∀ (a b : String) (c : Char), a.toList.head? = some c →
      (a ++ b).toList.head? = some c := by
    intro a b c hc
    rw [String.toList_append, List.head?_append, hc]
    rfl
  intro h
  have hd := hhead "Deserialize error: " m 'D' rfl
  rw [← h] at hd
  cases e with
  | methodNotFound x => exact absurd ((hhead _ x 'm' rfl).symm.trans hd) (by decide)
  | deserialize x => exact absurd ((hhead _ x 'f' rfl).symm.trans hd) (by decide)
  | internal x => exact absurd ((hhead _ x 'h' rfl).symm.trans hd) (by decide)
  | notLeader x => exact absurd ((hhead _ x 'n' rfl).symm.trans hd) (by decide)

theorem classify_error_iff {α : Type} [Deserialize α] (e : RpcError) :
    classify α (firstLine (errorLine e)) = some (.error (.server e.toString)) ↔
      TextFits "error" e.toString := by
  rw [classify_eq_server_iff e.ne_deserialize_error]
  have h := singleField_errorRes.deserialize_firstLine_iff (bounds_string (c := ' ') (by decide))
    (bounds_string (by decide)) (ErrorRes.mk e.toString)
  rw [deserialize_string_iff, and_comm (b := Quotable _)] at h
  exact h

theorem not_mem_serializeStruct {c : Char} (hc : c ∉ ['{', '}', ' ', '='])
    {fields : List (String × List Char)} (hname : ∀ n ∈ fields.map Prod.fst, c ∉ n.toList)
    (h : ∀ f ∈ fields, c ∉ f.2) : c ∉ serializeStruct fields := by
  simp only [List.mem_cons, List.not_mem_nil, or_false, not_or] at hc
  have hjoin : c ∉ [' '].intercalate ((present fields).map fun f ↦ f.1.toList ++ '=' :: f.2) := by
    refine intercalate_induction (P := (c ∉ ·)) (by simp) (by simp_all) (by simpa using hc.2.2.1)
      fun t ht ↦ ?_
    obtain ⟨f, hf, rfl⟩ := List.mem_map.mp ht
    have hf := List.mem_of_mem_filter hf
    have h1 := hname f.1 (List.mem_map_of_mem hf)
    have h2 := h f hf
    simp [h1, h2, hc]
  simp [serializeStruct, hjoin, hc]

theorem Rpc.Neutral.newline_not_mem {t : List Char} (h : Neutral t) : '\n' ∉ t :=
  fun hmem ↦ absurd (h _ hmem).1 (by decide)

/-- A struct of numbers and booleans is on one line. -/
theorem firstLine_struct {fields : List (String × List Char)} (names : List String)
    (hnames : fields.map Prod.fst = names) (hn : ∀ n ∈ names, Neutral n.toList)
    (h : ∀ f ∈ fields, '\n' ∉ f.2) :
    firstLine (serializeStruct fields) = serializeStruct fields := by
  subst hnames
  exact firstLine_eq
    (not_mem_serializeStruct (by decide) (fun n hn' ↦ (hn n hn').newline_not_mem) h)

theorem neutral_optional (o : Option ℕ) : Neutral (serialize o) := by
  cases o with
  | none => decide
  | some n => exact (plain_toDigits n).1.neutral

theorem neutral_bool (b : Bool) : Neutral (serialize b) := by
  cases b <;> decide

theorem RequestVoteReply.firstLine_eq (r : RequestVoteReply) :
    firstLine (serialize r) = serialize r := by
  refine firstLine_struct voteFields.names rfl (by decide +kernel) ?_
  simpa [fields] using ⟨(plain_toDigits r.term).1.neutral.newline_not_mem,
    (neutral_bool r.voted).newline_not_mem⟩

theorem AppendEntriesReply.firstLine_eq (r : AppendEntriesReply) :
    firstLine (serialize r) = serialize r := by
  refine firstLine_struct appendFields.names rfl (by decide +kernel) ?_
  simpa [fields] using ⟨(plain_toDigits r.term).1.neutral.newline_not_mem,
    (neutral_bool r.success).newline_not_mem, (neutral_optional r.conflictIndex).newline_not_mem,
    (neutral_optional r.conflictTerm).newline_not_mem⟩

/-- The ids of a search, as the macro sees them. -/
def idsFields : Fields :=
  .cons "ids" (.vecPrim .u64) .nil

namespace VSearchRes

/-- What holds of the digits and of the brackets around a list holds of the text. -/
theorem serialize_induction {P : List Char → Prop} (hnil : P [])
    (happ : ∀ s t, P s → P t → P (s ++ t)) (hsep : P [','] ∧ P ['['] ∧ P [']'])
    (hdig : ∀ n, P (Nat.toDigits 10 n)) (ids : List UInt64) : P (serialize ids) := by
  have hjoin : P ([','].intercalate (ids.map serialize)) := by
    refine intercalate_induction hnil happ hsep.1 fun t ht ↦ ?_
    obtain ⟨n, -, rfl⟩ := List.mem_map.mp ht
    exact hdig _
  rw [serialize_list]
  exact happ ['['] _ hsep.2.1 (happ _ _ hjoin hsep.2.2)

theorem firstLine_eq (r : VSearchRes) : firstLine (serialize r) = serialize r := by
  refine firstLine_struct idsFields.names rfl (by decide +kernel) fun f hf ↦ ?_
  obtain rfl := List.mem_singleton.mp hf
  refine serialize_induction (P := ('\n' ∉ ·)) (by simp) (by simp_all) (by decide) (fun n ↦ ?_)
    r.ids
  exact (plain_toDigits n).1.neutral.newline_not_mem

theorem classify_eq (r : VSearchRes) : classify VSearchRes (serialize r) = some (.ok r) := by
  have hs : Separable [("ids", serialize r.ids)] :=
    Fields.separable idsFields (by decide +kernel) ⟨trivial, trivial⟩ (r.ids, ())
  have hok : deserialize (serialize r.ids) = Res.ok r.ids :=
    Schema.read_text (.vecPrim .u64) trivial r.ids
  have hd : Decodes r.ids :=
    ⟨trim_brackets rfl rfl _, fun he ↦ absurd (List.cons.inj he).1 (by decide), hok⟩
  refine classify_struct idsFields.names rfl (by decide +kernel) hs (fun f hf ↦ ?_) ?_
  · obtain rfl := List.mem_singleton.mp hf
    exact serialize_induction unled_nil (fun _ _ ↦ Unled.append) (by decide) unled_toDigits r.ids
  · change (field _ "ids" >>= _) = _
    rw [hs.field_eq hd (List.mem_singleton.mpr rfl)]
    rfl

end VSearchRes

theorem Kind.classify_iff (k : Kind) (r : k.Val) (h : k.Usize r) :
    classify k.Val (firstLine (serialize r)) = some (.ok r) ↔ k.Fits r := by
  cases k with
  | ok => exact classify_text_iff singleField_okRes (by decide) r
  | get => exact classify_text_iff singleField_getRes (by decide) r
  | ttl => exact classify_text_iff singleField_ttlRes (by decide) r
  | list => exact classify_listRes_iff r
  | vsearch =>
    refine iff_of_true ?_ trivial
    change classify VSearchRes (firstLine (serialize (show VSearchRes from r))) = _
    rw [VSearchRes.firstLine_eq]
    exact VSearchRes.classify_eq r
  | vote =>
    refine iff_of_true ?_ trivial
    change classify RequestVoteReply (firstLine (serialize (show RequestVoteReply from r))) = _
    rw [RequestVoteReply.firstLine_eq]
    exact RequestVoteReply.classify_eq h
  | append =>
    refine iff_of_true ?_ trivial
    change classify AppendEntriesReply (firstLine (serialize (show AppendEntriesReply from r))) = _
    rw [AppendEntriesReply.firstLine_eq]
    exact AppendEntriesReply.classify_eq h

theorem firstLine_append_newline (t : List Char) : firstLine (t ++ ['\n']) = firstLine t := by
  induction t with
  | nil => rfl
  | cons c t ih =>
    rw [firstLine, List.cons_append, List.takeWhile_cons, firstLine, List.takeWhile_cons]
    split
    · exact congrArg (c :: ·) ih
    · rfl

namespace Outcome

/-- What is understood is the line that the handler writes, up to its end. -/
theorem understood_iff_classify {k : Kind} {o : Except RpcError k.Val} {d : Dispatcher}
    {req : List Char} (h : Handler.outcome d req = some (o.map serialize)) :
    Understood k o d req ↔
      classify k.Val (firstLine (Handler.line (o.map serialize))) = some (expected o) := by
  rw [Understood, Handler.reply_eq h]
  constructor
  · rintro ⟨line, hl, hc⟩
    obtain rfl := Reply.line.inj hl
    rwa [firstLine_append_newline] at hc
  · intro hc
    exact ⟨_, rfl, by rwa [firstLine_append_newline]⟩

/-- **When server and client agree on an outcome.** -/
theorem understood_iff (k : Kind) (o : Except RpcError k.Val) (ho : ∀ r, o = .ok r → k.Usize r)
    (d : Dispatcher) (req : List Char) (h : Handler.outcome d req = some (o.map serialize)) :
    Understood k o d req ↔ Fits k o := by
  rw [understood_iff_classify h]
  cases o with
  | ok r => exact k.classify_iff r (ho r rfl)
  | error e =>
    cases e with
    | methodNotFound m => exact classify_error_iff _
    | deserialize m => exact classify_error_iff _
    | internal m => exact classify_error_iff _
    | notLeader id =>
      refine iff_of_false (fun hc ↦ ?_) fun hf ↦ hf
      exact parseRedirect_notLeader id (parseRedirect_of_classify hc)

/-- A server on which every rpc has the same outcome. -/
def answering (o : Except RpcError (List Char)) : Dispatcher where
  rpcs _ := some fun _ ↦ o
  streams _ := none

theorem understood_hello :
    Understood .get (.ok (GetRes.mk "hello world" : GetRes String))
      (answering (.ok "\x7bval=\"hello world\"\x7d".toList)) "get \x7bkey=k\x7d".toList := by
  refine (understood_iff .get _ (fun _ _ ↦ trivial) _ _ (by decide +kernel)).mpr ⟨Or.inl ?_, ?_⟩
  · decide +kernel
  · exact ⟨by decide +kernel, by decide +kernel, by decide +kernel,
      (parseRedirect_eq_none_iff _).mp (by decide +kernel)⟩

/-- A redirect arrives as a server error, and a stored text is taken for an error. -/
theorem not_understood :
    classify OkRes (firstLine (errorLine (.notLeader "n2"))) =
      some (.error (.server "not leader, redirect to n2")) ∧
    ¬ Understood .ok (.error (.notLeader "n2")) (answering (.error (.notLeader "n2")))
      "set \x7bkey=k value=v\x7d".toList ∧
    classify (GetRes String) (firstLine (serialize (GetRes.mk "a\" error=b"))) =
      some (.error (.server "b\"")) ∧
    ¬ Understood .get (.ok (GetRes.mk "a\" error=b" : GetRes String))
      (answering (.ok (serialize (GetRes.mk "a\" error=b")))) "get \x7bkey=k\x7d".toList := by
  have hleader : classify OkRes (firstLine (errorLine (.notLeader "n2"))) =
      some (.error (.server "not leader, redirect to n2")) := by decide +kernel
  have htext : classify (GetRes String) (firstLine (serialize (GetRes.mk "a\" error=b"))) =
      some (.error (.server "b\"")) := by decide +kernel
  refine ⟨hleader, fun hu ↦ ?_, htext, fun hu ↦ ?_⟩
  · have hc := (understood_iff_classify (by decide +kernel)).mp hu
    cases Except.error.inj (Option.some_inj.mp (hleader.symm.trans hc))
  · have hc := (understood_iff_classify (by decide +kernel)).mp hu
    cases Option.some_inj.mp (htext.symm.trans hc)

end Outcome

end Efis
