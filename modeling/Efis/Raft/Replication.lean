import Mathlib.Data.List.Infix
import Mathlib.Logic.Function.Basic
import Efis.Raft.Quorum

/-!
# Leader-based log replication, abstractly

A protocol in which nodes vote for leaders, one leader a term, and a leader's log overwrites the
logs of the others.  Nothing here knows about messages: a step only says what becomes of one
node.  What has happened is remembered in the state, so that the invariants can speak about it:

* `vote v t` is the log with which `v` voted in term `t`, provided `t` had no leader yet;
* `base t` is the log with which the leader of term `t` won, `none` while there is no leader;
* `lead t` is that leader's log so far.  It only grows;
* `acks v t` is the number of entries of `lead t` that `v` has confirmed to hold.

The entries are of any type `E` with a `term`.

The two main results are `Inv.matching`, that two logs which agree in the term of one entry agree
up to that entry, and `Inv.complete`, that what a majority confirmed to the leader of one term is
in the log of the leader of every later term.  The second rests on `Inv.held`.  A node that
confirmed a prefix may lose it again later, and to show that it does not one would need the very
theorem to be proved.  So the invariant leaves both possibilities open: the node still holds the
prefix, *or* a leader of a later term was elected without it.  The induction over the terms then
excludes the second.
-/

set_option autoImplicit false

namespace Raft

variable {N E : Type}

/-! ## Prefixes -/

/-- A prefix shorter than the common part does not see that a list has grown. -/
theorem take_eq_of_isPrefix {l m : List E} (h : l <+: m) {k : ℕ} (hk : k ≤ l.length) :
    m.take k = l.take k := by
  obtain ⟨r, rfl⟩ := h
  exact List.take_append_of_le_length hk

theorem getElem?_of_isPrefix {l m : List E} (h : l <+: m) {i : ℕ} {e : E} (hi : l[i]? = some e) :
    m[i]? = some e := by
  obtain ⟨hlt, rfl⟩ := List.getElem?_eq_some_iff.mp hi
  exact List.prefix_iff_getElem?.mp h i hlt

open Classical in
/-- Overwrite a log with another one, unless it already starts with it. -/
noncomputable def merge (l m : List E) : List E := if m <+: l then l else m

theorem prefix_merge (l m : List E) : m <+: merge l m := by
  rw [merge]
  split
  · assumption
  · exact List.prefix_rfl

theorem merge_eq_or (l m : List E) : merge l m = l ∨ merge l m = m := by
  rw [merge]
  split
  · exact Or.inl rfl
  · exact Or.inr rfl

/-- What the log has is kept, as long as it is comparable with what comes in. -/
theorem prefix_merge_of_isPrefix {l m p q : List E} (hl : p <+: l) (hp : p <+: q) (hm : m <+: q) :
    p <+: merge l m := by
  rw [merge]
  split
  · exact hl
  · rename_i hn
    rcases List.prefix_or_prefix_of_prefix hp hm with h | h
    · exact h
    · exact absurd (h.trans hl) hn

/-! ## The state -/

/-- What has happened so far. -/
structure State (N E : Type) where
  /-- The current term of a node. -/
  term : N → ℕ
  /-- The log of a node. -/
  log : N → List E
  /-- The log a node voted with. -/
  vote : N → ℕ → Option (List E)
  /-- The log the leader of a term was elected with. -/
  base : ℕ → Option (List E)
  /-- The log of the leader of a term. -/
  lead : ℕ → List E
  /-- How many entries of the leader's log a node has confirmed. -/
  acks : N → ℕ → ℕ

/-- Nobody has voted yet, and the logs are empty. -/
def State.init (N E : Type) : State N E where
  term := fun _ ↦ 0
  log := fun _ ↦ []
  vote := fun _ _ ↦ none
  base := fun _ ↦ none
  lead := fun _ ↦ []
  acks := fun _ _ ↦ 0

variable (term : E → ℕ)

/-- The term of the last entry, `0` for the empty log. -/
def lastTerm (l : List E) : ℕ := (l.getLast?.map term).getD 0

/-- The log `l` may lead a node with the log `m`: its last entry is of a later term, or of the
same term and `l` is no shorter. -/
def UpToDate (l m : List E) : Prop :=
  lastTerm term m < lastTerm term l ∨
    (lastTerm term m = lastTerm term l ∧ m.length ≤ l.length)

theorem UpToDate.refl (l : List E) : UpToDate term l l := Or.inr ⟨rfl, le_rfl⟩

/-- Each entry of a log lies where the leader of its term has it, with the same entries before. -/
def Rooted (s : State N E) (l : List E) : Prop :=
  ∀ i e, l[i]? = some e → (s.base (term e)).isSome ∧ l.take (i + 1) <+: s.lead (term e)

/-- A leader of a term strictly between `t` and `u` was elected without `p`. -/
def Lost (s : State N E) (t u : ℕ) (p : List E) : Prop :=
  ∃ w b, t < w ∧ w < u ∧ s.base w = some b ∧ ¬ p <+: b

/-- What is known of a vote of `v` in term `t`, given with the log `l`: everything `v` had
confirmed to leaders of earlier terms was in `l`, unless a leader in between had lost it. -/
structure Cast (s : State N E) (v : N) (t : ℕ) (l : List E) : Prop where
  le : t ≤ s.term v
  rooted : Rooted term s l
  held : ∀ u, u < t → ∀ k, k ≤ s.acks v u →
    (s.lead u).take k <+: l ∨ Lost s u t ((s.lead u).take k)

/-! ## How the state grows

The history is only ever added to.  `Grows` is the part of that which the clauses of the
invariant need, so that each of them is carried over by one lemma rather than by five cases. -/

/-- The history of `s'` extends that of `s`. -/
structure Grows (s s' : State N E) : Prop where
  base : ∀ t b, s.base t = some b → s'.base t = some b
  lead : ∀ t, (s.base t).isSome → s.lead t <+: s'.lead t
  term : ∀ v, s.term v ≤ s'.term v
  /-- The terms a node has left are closed. -/
  acks : ∀ v t, t < s.term v → s'.acks v t = s.acks v t
  acks_le : ∀ v t, s.acks v t ≤ s'.acks v t

theorem Grows.rfl {s : State N E} : Grows s s :=
  ⟨fun _ _ h ↦ h, fun _ _ ↦ List.prefix_rfl, fun _ ↦ le_rfl, fun _ _ _ ↦ Eq.refl _,
    fun _ _ ↦ le_rfl⟩

theorem Grows.trans {s s' s'' : State N E} (h : Grows s s') (h' : Grows s' s'') :
    Grows s s'' where
  base t b hb := h'.base t b (h.base t b hb)
  lead t ht := by
    obtain ⟨b, hb⟩ := Option.isSome_iff_exists.mp ht
    have ht' : (s'.base t).isSome := by rw [h.base t b hb]; exact Option.isSome_some
    exact (h.lead t ht).trans (h'.lead t ht')
  term v := (h.term v).trans (h'.term v)
  acks v t ht := (h'.acks v t (ht.trans_le (h.term v))).trans (h.acks v t ht)
  acks_le v t := (h.acks_le v t).trans (h'.acks_le v t)

variable {term}

theorem Grows.base_isSome {s s' : State N E} (h : Grows s s') {t : ℕ}
    (ht : (s.base t).isSome) : (s'.base t).isSome := by
  obtain ⟨b, hb⟩ := Option.isSome_iff_exists.mp ht
  rw [h.base t b hb]
  exact Option.isSome_some

theorem Grows.rooted {s s' : State N E} (h : Grows s s') {l : List E} (hl : Rooted term s l) :
    Rooted term s' l := by
  intro i e hi
  obtain ⟨hb, hp⟩ := hl i e hi
  exact ⟨h.base_isSome hb, hp.trans (h.lead _ hb)⟩

theorem Grows.lost {s s' : State N E} (h : Grows s s') {t u u' : ℕ} {p : List E} (hu : u ≤ u')
    (hl : Lost s t u p) : Lost s' t u' p := by
  obtain ⟨w, b, htw, hwu, hb, hp⟩ := hl
  exact ⟨w, b, htw, hwu.trans_le hu, h.base w b hb, hp⟩

theorem Rooted.of_isPrefix {s : State N E} {l m : List E} (hm : Rooted term s m) (h : l <+: m) :
    Rooted term s l := by
  intro i e hi
  have hlen : i + 1 ≤ l.length := (List.getElem?_eq_some_iff.mp hi).1
  obtain ⟨hb, hp⟩ := hm i e (getElem?_of_isPrefix h hi)
  rw [take_eq_of_isPrefix h hlen] at hp
  exact ⟨hb, hp⟩

theorem Rooted.nil (s : State N E) : Rooted term s [] := by
  intro i e hi
  simp at hi

/-- A rooted log is, up to its last entry, the log of that entry's leader. -/
theorem Rooted.prefix_lead {s : State N E} {l : List E} (hl : Rooted term s l) {e : E}
    (he : l.getLast? = some e) : (s.base (term e)).isSome ∧ l <+: s.lead (term e) := by
  have hne : l ≠ [] := by
    rintro rfl
    simp at he
  have hpos : 0 < l.length := List.length_pos_iff.mpr hne
  rw [List.getLast?_eq_getElem?] at he
  have h := hl (l.length - 1) e he
  rwa [Nat.sub_add_cancel hpos, List.take_length] at h

/-! ## Log matching -/

variable (term) in
/-- Where the two logs have an entry of the same term, they are the same up to there. -/
def Matching (l m : List E) : Prop :=
  ∀ i e f, l[i]? = some e → m[i]? = some f → term e = term f → l.take (i + 1) = m.take (i + 1)

/-- **Log matching.**  Rooted logs that agree in the term of an entry agree up to it. -/
theorem Rooted.matching {s : State N E} {l m : List E} (hl : Rooted term s l)
    (hm : Rooted term s m) : Matching term l m := by
  intro i e f he hf h
  have hlp := (hl i e he).2
  have hmp := (hm i f hf).2
  rw [← h] at hmp
  have hlen : (l.take (i + 1)).length = (m.take (i + 1)).length := by
    rw [List.length_take_of_le (List.getElem?_eq_some_iff.mp he).1,
      List.length_take_of_le (List.getElem?_eq_some_iff.mp hf).1]
  exact (List.prefix_of_prefix_length_le hlp hmp hlen.le).eq_of_length hlen

/-- What one log has of a term, another one has too, as far as it has entries of that term. -/
theorem Rooted.getElem?_of_lt {s : State N E} {l m : List E} (hl : Rooted term s l)
    (hm : Rooted term s m) {i k : ℕ} {e f : E} (he : l[i]? = some e) (hf : m[k]? = some f)
    (hik : i < k) (ht : term e = term f) : m[i]? = some e := by
  have hi : (l.take (i + 1))[i]? = some e := by rwa [List.getElem?_take_of_lt (Nat.lt_succ_self i)]
  have hlead := getElem?_of_isPrefix (hl i e he).2 hi
  have hlen : i < (m.take (k + 1)).length := by
    rw [List.length_take_of_le (List.getElem?_eq_some_iff.mp hf).1]
    omega
  have hlead' := getElem?_of_isPrefix (hm k f hf).2 (List.getElem?_eq_getElem hlen)
  rw [← ht, hlead] at hlead'
  rw [← List.getElem?_take_of_lt (Nat.lt_succ_of_lt hik), List.getElem?_eq_getElem hlen, ← hlead']

/-! ## The invariant -/

variable [Fintype N]

variable (term) in
/-- The invariant of the protocol. -/
structure Inv (s : State N E) : Prop where
  zero : s.base 0 = none
  base_prefix : ∀ t b, s.base t = some b → b <+: s.lead t
  base_term : ∀ t b, s.base t = some b → ∀ e ∈ b, term e < t
  lead_term : ∀ t, (s.base t).isSome → ∀ e ∈ s.lead t, term e ≤ t
  lead_rooted : ∀ t, (s.base t).isSome → Rooted term s (s.lead t)
  log_rooted : ∀ v, Rooted term s (s.log v)
  log_term : ∀ v, ∀ e ∈ s.log v, term e ≤ s.term v
  acks_le : ∀ v t, s.acks v t ≤ (s.lead t).length
  acks_term : ∀ v t, 0 < s.acks v t → t ≤ s.term v ∧ (s.base t).isSome
  held : ∀ v t k, k ≤ s.acks v t →
    (s.lead t).take k <+: s.log v ∨ Lost s t (s.term v + 1) ((s.lead t).take k)
  voted : ∀ v t l, s.vote v t = some l → Cast term s v t l
  elected : ∀ t b, s.base t = some b →
    ∃ Q, Majority Q ∧ ∀ v ∈ Q, ∃ l, Cast term s v t l ∧ UpToDate term b l

theorem Inv.init : Inv term (State.init N E) where
  zero := rfl
  base_prefix _ _ h := by simp [State.init] at h
  base_term _ _ h := by simp [State.init] at h
  lead_term _ h := by simp [State.init] at h
  lead_rooted _ h := by simp [State.init] at h
  log_rooted _ := Rooted.nil _
  log_term _ e h := by simp [State.init] at h
  acks_le _ _ := Nat.zero_le _
  acks_term _ _ h := by simp [State.init] at h
  held _ _ k _ := Or.inl (by simp [State.init])
  voted _ _ _ h := by simp [State.init] at h
  elected _ _ h := by simp [State.init] at h

/-- The terms of a rooted log are in order. -/
theorem Inv.pairwise {s : State N E} (hi : Inv term s) {l : List E} (hl : Rooted term s l) :
    (l.map term).Pairwise (· ≤ ·) := by
  rw [List.pairwise_map, List.pairwise_iff_getElem]
  intro i k hik hk hlt
  obtain ⟨hb, hp⟩ := hl k l[k] (List.getElem?_eq_getElem hk)
  refine hi.lead_term _ hb _ (hp.subset ?_)
  exact List.mem_take_iff_getElem.mpr ⟨i, by omega, rfl⟩

/-- The last term of a part of a log is not later than that of the log. -/
theorem Inv.lastTerm_le {s : State N E} (hi : Inv term s) {l m : List E} (hm : Rooted term s m)
    (h : l <+: m) : lastTerm term l ≤ lastTerm term m := by
  obtain ⟨r, rfl⟩ := h
  have hsorted := hi.pairwise hm
  rw [List.map_append, List.pairwise_append] at hsorted
  cases hl : l.getLast? with
  | none => simp [lastTerm, hl]
  | some e =>
    cases hr : r.getLast? with
    | none =>
      rw [List.getLast?_eq_none_iff] at hr
      simp [hr]
    | some f =>
      have hle := hsorted.2.2 (term e) (List.mem_map_of_mem (List.mem_of_getLast? hl)) (term f)
        (List.mem_map_of_mem (List.mem_of_getLast? hr))
      simpa [lastTerm, List.getLast?_append, hl, hr] using hle

/-- Who takes over a log that is up to date with its own has exactly this log. -/
theorem Inv.merge_eq {s : State N E} (hi : Inv term s) {l m : List E} (hm : Rooted term s m)
    (hu : UpToDate term l m) : merge m l = l := by
  rw [merge]
  split
  · rename_i h
    have hle := hi.lastTerm_le hm h
    rcases hu with hlt | ⟨-, hlen⟩
    · exact absurd hlt (Nat.not_lt_of_le hle)
    · exact (h.eq_of_length_le hlen).symm
  · rfl

/-- A confirmed prefix is not affected by later entries of the leader. -/
theorem Inv.take_lead {s s' : State N E} (hi : Inv term s) (h : Grows s s') {v : N} {t k : ℕ}
    (hk : k ≤ s.acks v t) : (s'.lead t).take k = (s.lead t).take k := by
  rcases Nat.eq_zero_or_pos k with rfl | hpos
  · simp
  · exact take_eq_of_isPrefix (h.lead t (hi.acks_term v t (hpos.trans_le hk)).2)
      (hk.trans (hi.acks_le v t))

/-- Nothing that happens after a vote changes what is known of it. -/
theorem Inv.cast {s s' : State N E} (hi : Inv term s) (h : Grows s s') {v : N} {t : ℕ}
    {l : List E} (hc : Cast term s v t l) : Cast term s' v t l where
  le := hc.le.trans (h.term v)
  rooted := h.rooted hc.rooted
  held u hu k hk := by
    rw [h.acks v u (hu.trans_le hc.le)] at hk
    rw [hi.take_lead h hk]
    exact (hc.held u hu k hk).imp id (h.lost le_rfl)

/-- While a term has no leader, nobody has confirmed anything to it. -/
theorem Inv.acks_eq_zero {s : State N E} (hi : Inv term s) {t : ℕ} (ht : s.base t = none) (v : N) :
    s.acks v t = 0 := by
  by_contra h
  have := (hi.acks_term v t (Nat.pos_of_ne_zero h)).2
  rw [ht] at this
  cases this

/-- The votes behind an earlier election. -/
theorem Inv.elected_grows {s s' : State N E} (hi : Inv term s) (hg : Grows s s') {t : ℕ}
    {b : List E} (hb : s.base t = some b) :
    ∃ Q, Majority Q ∧ ∀ v ∈ Q, ∃ l, Cast term s' v t l ∧ UpToDate term b l := by
  obtain ⟨Q, hQ, hc⟩ := hi.elected t b hb
  refine ⟨Q, hQ, fun v hv ↦ ?_⟩
  obtain ⟨l, hl, hup⟩ := hc v hv
  exact ⟨l, hi.cast hg hl, hup⟩

/-- What a node had confirmed before it took over a log. -/
theorem Inv.held_accept {s : State N E} (hi : Inv term s) (v : N) {b m : List E}
    (hb : s.base (s.term v) = some b) (hbm : b <+: m) (hm : m <+: s.lead (s.term v)) {t k : ℕ}
    (hpos : 0 < k) (hk : k ≤ s.acks v t) :
    (s.lead t).take k <+: merge (s.log v) m ∨
      Lost s t (s.term v + 1) ((s.lead t).take k) := by
  rcases hi.held v t k hk with hp | hl
  · by_cases ht : t = s.term v
    · -- both are prefixes of the same leader's log
      exact Or.inl (prefix_merge_of_isPrefix hp (List.take_prefix _ _) (ht ▸ hm))
    · by_cases hpm : (s.lead t).take k <+: m
      · exact Or.inl (prefix_merge_of_isPrefix hp hpm List.prefix_rfl)
      · -- the leader of the current term had lost the prefix when it was elected
        have hlt : t < s.term v :=
          lt_of_le_of_ne (hi.acks_term v t (hpos.trans_le hk)).1 ht
        exact Or.inr ⟨s.term v, b, hlt, Nat.lt_succ_self _, hb, fun h ↦ hpm (h.trans hbm)⟩
  · exact Or.inr hl

/-! ## Leader completeness -/

/-- The first `k` entries of the leader of term `t` are confirmed by a majority, and the last of
them is of term `t` itself. -/
structure Confirmed (s : State N E) (term : E → ℕ) (t k : ℕ) : Prop where
  quorum : ∃ Q : Finset N, Majority Q ∧ ∀ v ∈ Q, k ≤ s.acks v t
  own : ((s.lead t).take k).getLast?.map term = some t

theorem Confirmed.getLast? {s : State N E} {t k : ℕ} (h : Confirmed s term t k) :
    ∃ e, ((s.lead t).take k).getLast? = some e ∧ term e = t := by
  have := h.own
  rwa [Option.map_eq_some_iff] at this

theorem Inv.confirmed {s s' : State N E} (hi : Inv term s) (h : Grows s s') {t k : ℕ}
    (hc : Confirmed s term t k) : Confirmed s' term t k := by
  obtain ⟨Q, hQ, hacks⟩ := hc.quorum
  obtain ⟨v, hv, -⟩ := hQ.inter hQ
  refine ⟨⟨Q, hQ, fun w hw ↦ (hacks w hw).trans (h.acks_le w t)⟩, ?_⟩
  rw [hi.take_lead h (hacks v hv)]
  exact hc.own

/-- A log that may lead one that has a confirmed prefix has the prefix as well, provided the
leaders in between have it. -/
theorem Inv.prefix_of_upToDate {s : State N E} (hi : Inv term s) {t k : ℕ}
    (hc : Confirmed s term t k) {b l : List E} {u : ℕ} (hb : Rooted term s b)
    (hbu : ∀ e ∈ b, term e < u) (hl : Rooted term s l) (hup : UpToDate term b l)
    (hpl : (s.lead t).take k <+: l)
    (hbetween : ∀ w c, t < w → w < u → s.base w = some c → (s.lead t).take k <+: c) :
    (s.lead t).take k <+: b := by
  obtain ⟨e, helast, het⟩ := hc.getLast?
  have hemem : e ∈ (s.lead t).take k := List.mem_of_getLast? helast
  have hel : e ∈ l := hpl.subset hemem
  -- the voter's last entry is of term `t` at least, since its leader has `e`
  obtain ⟨f, hf⟩ : ∃ f, l.getLast? = some f :=
    Option.isSome_iff_exists.mp (by simpa using List.ne_nil_of_mem hel)
  obtain ⟨hfb, hlf⟩ := hl.prefix_lead hf
  have htf : t ≤ term f := het ▸ hi.lead_term _ hfb e (hlf.subset hel)
  have hlastl : lastTerm term l = term f := by rw [lastTerm, hf]; rfl
  -- so the candidate's log is not empty either
  have hge : term f ≤ lastTerm term b := by
    rcases hup with h | ⟨h, -⟩ <;> omega
  have htpos : 0 < t := by
    have hbt := (hl.of_isPrefix hpl).prefix_lead helast
    rcases Nat.eq_zero_or_pos t with h0 | h0
    · rw [het, h0, hi.zero] at hbt
      cases hbt.1
    · exact h0
  obtain ⟨g, hg⟩ : ∃ g, b.getLast? = some g := by
    cases hbl : b.getLast? with
    | none => rw [lastTerm, hbl] at hge; simp at hge; omega
    | some g => exact ⟨g, Eq.refl _⟩
  have hlastb : lastTerm term b = term g := by rw [lastTerm, hg]; rfl
  obtain ⟨hgb, hbg⟩ := hb.prefix_lead hg
  have hgu : term g < u := hbu g (List.mem_of_getLast? hg)
  rcases Nat.lt_or_ge t (term g) with hlt | hle
  · -- a later leader than `t` wrote the end of `b`, and it has the prefix by assumption
    obtain ⟨c, hcb⟩ := Option.isSome_iff_exists.mp hgb
    have hpc : (s.lead t).take k <+: s.lead (term g) :=
      (hbetween _ c hlt hgu hcb).trans (hi.base_prefix _ c hcb)
    rcases List.prefix_or_prefix_of_prefix hpc hbg with h | h
    · exact h
    · have hgt : term g ≤ t := by
        have hgm : g ∈ (s.lead t).take k := h.subset (List.mem_of_getLast? hg)
        have htb := (hl.of_isPrefix hpl).prefix_lead helast
        rw [het] at htb
        exact hi.lead_term t htb.1 g (List.mem_of_mem_take hgm)
      omega
  · -- both logs end in term `t`, so they are prefixes of the same leader's log
    have hgt : term g = t := by omega
    have hft : term f = t := by omega
    rw [hgt] at hbg
    have hlen : l.length ≤ b.length := by
      rcases hup with h | ⟨-, h⟩
      · omega
      · exact h
    exact List.prefix_of_prefix_length_le (List.take_prefix _ _) hbg
      (hpl.length_le.trans hlen)

/-- **Leader completeness.**  What a majority has confirmed to the leader of term `t` is in the
log of every leader of a later term, from its election on. -/
theorem Inv.complete {s : State N E} (hi : Inv term s) {t k : ℕ} (hc : Confirmed s term t k) :
    ∀ u b, t < u → s.base u = some b → (s.lead t).take k <+: b := by
  intro u
  -- on the terms of the later leaders
  induction u using Nat.strong_induction_on with
  | _ u ih =>
    intro b htu hb
    obtain ⟨Q, hQ, hacks⟩ := hc.quorum
    obtain ⟨R, hR, hcast⟩ := hi.elected u b hb
    obtain ⟨v, hvQ, hvR⟩ := hQ.inter hR
    obtain ⟨l, hl, hup⟩ := hcast v hvR
    have hpl : (s.lead t).take k <+: l := by
      rcases hl.held t htu k (hacks v hvQ) with h | ⟨w, c, htw, hwu, hwc, hn⟩
      · exact h
      · exact absurd (ih w hwu c htw hwc) hn
    have hub : (s.base u).isSome := by rw [hb]; exact Option.isSome_some
    exact hi.prefix_of_upToDate hc ((hi.lead_rooted u hub).of_isPrefix (hi.base_prefix u b hb))
      (hi.base_term u b hb) hl.rooted hup hpl fun w c htw hwu ↦ ih w hwu c htw

/-- Two confirmed prefixes are comparable. -/
theorem Inv.confirmed_comparable {s : State N E} (hi : Inv term s) {t k u m : ℕ}
    (hc : Confirmed s term t k) (hd : Confirmed s term u m) :
    (s.lead t).take k <+: (s.lead u).take m ∨ (s.lead u).take m <+: (s.lead t).take k := by
  have key : ∀ {t k u m : ℕ}, Confirmed s term t k → Confirmed s term u m → t < u →
      (s.lead t).take k <+: s.lead u := by
    intro t k u m hc hd htu
    obtain ⟨Q, hQ, hacks⟩ := hd.quorum
    obtain ⟨e, he, -⟩ := hd.getLast?
    obtain ⟨v, hv, -⟩ := hQ.inter hQ
    have hpos : 0 < m := by
      rcases Nat.eq_zero_or_pos m with rfl | h
      · simp at he
      · exact h
    obtain ⟨b, hb⟩ :=
      Option.isSome_iff_exists.mp (hi.acks_term v u (hpos.trans_le (hacks v hv))).2
    exact (hi.complete hc u b htu hb).trans (hi.base_prefix u b hb)
  rcases Nat.lt_trichotomy t u with h | rfl | h
  · exact List.prefix_or_prefix_of_prefix (key hc hd h) (List.take_prefix _ _)
  · exact List.prefix_or_prefix_of_prefix (List.take_prefix _ _) (List.take_prefix _ _)
  · exact List.prefix_or_prefix_of_prefix (List.take_prefix _ _) (key hd hc h)

end Raft
