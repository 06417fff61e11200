import Mathlib.Logic.Relation
import Efis.Raft.Replication

/-!
# The steps of log replication

The five things a node can do, and that each of them keeps the invariant of
`Efis.Raft.Replication`.  An implementation shows that its own steps are sequences of these, and
gets log matching and leader completeness from `Step.inv`.

Note what `Step.accept` does not ask for.  A node may take over any log its leader ever had,
whatever its own log looks like: checking the entry before the new ones is how an implementation
that sends only a suffix makes sure that this is what it does.
-/

set_option autoImplicit false

namespace Raft

variable {N E : Type} [DecidableEq N]

/-- Set the value of a two-argument function at one place. -/
def update₂ {β : Type} (f : N → ℕ → β) (a : N) (t : ℕ) (b : β) : N → ℕ → β :=
  Function.update f a (Function.update (f a) t b)

@[simp] theorem update₂_self {β : Type} (f : N → ℕ → β) (a : N) (t : ℕ) (b : β) :
    update₂ f a t b a t = b := by
  rw [update₂, Function.update_self, Function.update_self]

theorem update₂_of_ne {β : Type} (f : N → ℕ → β) {a x : N} {t u : ℕ} (b : β)
    (h : ¬ (x = a ∧ u = t)) : update₂ f a t b x u = f x u := by
  rw [update₂]
  by_cases hx : x = a
  · subst hx
    rw [Function.update_self, Function.update_of_ne (fun hu ↦ h ⟨rfl, hu⟩)]
  · rw [Function.update_of_ne hx]

/-! ## What a step does to the state -/

/-- A node moves on to another term. -/
def State.advance (s : State N E) (v : N) (t : ℕ) : State N E :=
  { s with term := Function.update s.term v t }

/-- A node votes in its term. -/
def State.castVote (s : State N E) (v : N) : State N E :=
  { s with vote := update₂ s.vote v (s.term v) (some (s.log v)) }

/-- A node starts to lead its term. -/
def State.win (s : State N E) (c : N) : State N E :=
  { s with
    base := Function.update s.base (s.term c) (some (s.log c))
    lead := Function.update s.lead (s.term c) (s.log c)
    acks := update₂ s.acks c (s.term c) (s.log c).length }

/-- The leader of a term appends an entry. -/
def State.append (s : State N E) (c : N) (e : E) : State N E :=
  { s with
    log := Function.update s.log c (s.log c ++ [e])
    lead := Function.update s.lead (s.term c) (s.log c ++ [e])
    acks := update₂ s.acks c (s.term c) (s.log c ++ [e]).length }

/-- A node takes over a log from the leader of its term. -/
noncomputable def State.accept (s : State N E) (v : N) (m : List E) : State N E :=
  { s with
    log := Function.update s.log v (merge (s.log v) m)
    acks := update₂ s.acks v (s.term v) (max (s.acks v (s.term v)) m.length) }

@[simp] theorem State.win_base (s : State N E) (c : N) :
    (s.win c).base (s.term c) = some (s.log c) := Function.update_self ..

@[simp] theorem State.win_lead (s : State N E) (c : N) :
    (s.win c).lead (s.term c) = s.log c := Function.update_self ..

@[simp] theorem State.win_acks (s : State N E) (c : N) :
    (s.win c).acks c (s.term c) = (s.log c).length := update₂_self ..

@[simp] theorem State.append_log (s : State N E) (c : N) (e : E) :
    (s.append c e).log c = s.log c ++ [e] := Function.update_self ..

@[simp] theorem State.append_lead (s : State N E) (c : N) (e : E) :
    (s.append c e).lead (s.term c) = s.log c ++ [e] := Function.update_self ..

@[simp] theorem State.append_acks (s : State N E) (c : N) (e : E) :
    (s.append c e).acks c (s.term c) = (s.log c ++ [e]).length := update₂_self ..

@[simp] theorem State.accept_log (s : State N E) (v : N) (m : List E) :
    (s.accept v m).log v = merge (s.log v) m := Function.update_self ..

@[simp] theorem State.accept_acks (s : State N E) (v : N) (m : List E) :
    (s.accept v m).acks v (s.term v) = max (s.acks v (s.term v)) m.length := update₂_self ..

/-- Setting a confirmation of the current term, and not lowering it, is growth. -/
theorem acks_update₂ {s : State N E} {v : N} {k : ℕ} (hk : s.acks v (s.term v) ≤ k) :
    (∀ w t, t < s.term w → update₂ s.acks v (s.term v) k w t = s.acks w t) ∧
      ∀ w t, s.acks w t ≤ update₂ s.acks v (s.term v) k w t := by
  refine ⟨fun w t h ↦ update₂_of_ne _ _ (by rintro ⟨rfl, rfl⟩; exact h.ne rfl), fun w t ↦ ?_⟩
  by_cases h : w = v ∧ t = s.term v
  · rw [h.1, h.2, update₂_self]
    exact hk
  · rw [update₂_of_ne _ _ h]

variable [Fintype N]

/-- One step of one node. -/
inductive Step (term : E → ℕ) : State N E → State N E → Prop
  | advance {s : State N E} (v : N) {t : ℕ} (ht : s.term v < t) : Step term s (s.advance v t)
  | castVote {s : State N E} (v : N) (hb : s.base (s.term v) = none) :
      Step term s (s.castVote v)
  /-- A majority voted for the node, and nobody in it is ahead of the node. -/
  | win {s : State N E} (c : N) (Q : Finset N) (hb : s.base (s.term c) = none)
      (hpos : 0 < s.term c) (hQ : Majority Q)
      (hv : ∀ v ∈ Q, ∃ l, s.vote v (s.term c) = some l ∧ UpToDate term (s.log c) l) :
      Step term s (s.win c)
  | append {s : State N E} (c : N) (e : E) (hb : (s.base (s.term c)).isSome)
      (hlog : s.log c = s.lead (s.term c)) (he : term e = s.term c) :
      Step term s (s.append c e)
  /-- The log is one the leader of the term had at some time since its election. -/
  | accept {s : State N E} (v : N) {b m : List E} (hb : s.base (s.term v) = some b)
      (hbm : b <+: m) (hm : m <+: s.lead (s.term v)) : Step term s (s.accept v m)

variable {term : E → ℕ} {s s' : State N E}

/-! ## The history grows -/

theorem Step.grows (hi : Inv term s) (h : Step term s s') : Grows s s' := by
  cases h with
  | advance v ht =>
    refine { Grows.rfl (s := s) with term := fun w ↦ ?_ }
    by_cases hw : w = v
    · subst hw
      simpa [State.advance] using ht.le
    · simp [State.advance, hw]
  | castVote v hb => exact { Grows.rfl (s := s) with }
  | win c Q hb hpos hQ hv =>
    obtain ⟨ha, ha'⟩ := acks_update₂ (s := s) (v := c) (k := (s.log c).length)
      (by rw [hi.acks_eq_zero hb]; exact Nat.zero_le _)
    refine { Grows.rfl (s := s) with
      base := fun t b h ↦ ?_, lead := fun t h ↦ ?_, acks := ha, acks_le := ha' }
    · have hne : t ≠ s.term c := by rintro rfl; rw [hb] at h; cases h
      simpa [State.win, hne] using h
    · have hne : t ≠ s.term c := by rintro rfl; rw [hb] at h; cases h
      simp [State.win, hne]
  | append c e hb hlog he =>
    have hle := hi.acks_le c (s.term c)
    obtain ⟨ha, ha'⟩ := acks_update₂ (s := s) (v := c) (k := (s.log c ++ [e]).length)
      (by rw [hlog, List.length_append]; omega)
    refine { Grows.rfl (s := s) with lead := fun t h ↦ ?_, acks := ha, acks_le := ha' }
    by_cases ht : t = s.term c
    · subst ht
      simp [State.append, hlog]
    · simp [State.append, ht]
  | accept v hb hbm hm =>
    obtain ⟨ha, ha'⟩ := acks_update₂ (s := s) (v := v) (le_max_left _ _)
    exact { Grows.rfl (s := s) with acks := ha, acks_le := ha' }

/-! ## Each step keeps the invariant -/

theorem Inv.advance (hi : Inv term s) (v : N) {t : ℕ} (ht : s.term v < t) :
    Inv term (s.advance v t) := by
  have hg := Step.grows hi (Step.advance v ht)
  refine { hi with
    log_term := fun w e he ↦ (hi.log_term w e he).trans (hg.term w)
    acks_term := fun w u h ↦ ⟨(hi.acks_term w u h).1.trans (hg.term w), (hi.acks_term w u h).2⟩
    held := fun w u k hk ↦ ?_
    voted := fun w u l h ↦ hi.cast hg (hi.voted w u l h)
    elected := fun u b hb ↦ hi.elected_grows hg hb }
  exact (hi.held w u k hk).imp id (hg.lost (Nat.add_le_add_right (hg.term w) 1))

theorem Inv.castVote (hi : Inv term s) (v : N) (hb : s.base (s.term v) = none) :
    Inv term (s.castVote v) := by
  have hg := Step.grows hi (Step.castVote v hb)
  refine { hi with voted := fun w u l h ↦ ?_, elected := fun u b hb ↦ hi.elected_grows hg hb }
  refine hi.cast hg ?_
  by_cases hwu : w = v ∧ u = s.term v
  · obtain ⟨rfl, rfl⟩ := hwu
    obtain rfl : s.log w = l := by simpa [State.castVote] using h
    refine ⟨le_rfl, hi.log_rooted w, fun u hu k hk ↦ (hi.held w u k hk).imp id ?_⟩
    rintro ⟨x, b, hux, hx, hxb, hn⟩
    -- the leader without the prefix is not the one of the term voted in
    have hne : x ≠ s.term w := by
      rintro rfl
      rw [hb] at hxb
      cases hxb
    exact ⟨x, b, hux, by omega, hxb, hn⟩
  · exact hi.voted w u l (by rwa [← update₂_of_ne s.vote _ hwu])

theorem Inv.win (hi : Inv term s) (c : N) (Q : Finset N) (hb : s.base (s.term c) = none)
    (hpos : 0 < s.term c) (hQ : Majority Q)
    (hv : ∀ v ∈ Q, ∃ l, s.vote v (s.term c) = some l ∧ UpToDate term (s.log c) l) :
    Inv term (s.win c) := by
  have hg := (Step.win c Q hb hpos hQ hv).grows hi
  have hbase := s.win_base c
  have hlead := s.win_lead c
  have hbase' : ∀ {t}, t ≠ s.term c → (s.win c).base t = s.base t :=
    fun h ↦ Function.update_of_ne h _ _
  have hlead' : ∀ {t}, t ≠ s.term c → (s.win c).lead t = s.lead t :=
    fun h ↦ Function.update_of_ne h _ _
  have hacks := s.win_acks c
  have hacks' : ∀ {v t}, ¬ (v = c ∧ t = s.term c) → (s.win c).acks v t = s.acks v t :=
    update₂_of_ne _ _
  have hlt : ∀ e ∈ s.log c, term e < s.term c := by
    intro e he
    obtain ⟨i, hie⟩ := List.getElem?_of_mem he
    refine lt_of_le_of_ne (hi.log_term c e he) fun h ↦ ?_
    have := (hi.log_rooted c i e hie).1
    rw [h, hb] at this
    cases this
  constructor
  case zero => rw [hbase' hpos.ne, hi.zero]
  case base_prefix =>
    intro t b h
    by_cases ht : t = s.term c
    · subst ht
      rw [hbase, Option.some_inj] at h
      rw [hlead, h]
    · rw [hbase' ht] at h
      rw [hlead' ht]
      exact hi.base_prefix t b h
  case base_term =>
    intro t b h
    by_cases ht : t = s.term c
    · subst ht
      rw [hbase, Option.some_inj] at h
      exact h ▸ hlt
    · exact hi.base_term t b (hbase' ht ▸ h)
  case lead_term =>
    intro t h
    by_cases ht : t = s.term c
    · subst ht
      rw [hlead]
      exact fun e he ↦ (hlt e he).le
    · rw [hlead' ht]
      exact hi.lead_term t (hbase' ht ▸ h)
  case lead_rooted =>
    intro t h
    by_cases ht : t = s.term c
    · subst ht
      rw [hlead]
      exact hg.rooted (hi.log_rooted c)
    · rw [hlead' ht]
      exact hg.rooted (hi.lead_rooted t (hbase' ht ▸ h))
  case log_rooted => exact fun v ↦ hg.rooted (hi.log_rooted v)
  case log_term => exact hi.log_term
  case acks_le =>
    intro v t
    by_cases hvt : v = c ∧ t = s.term c
    · rw [hvt.1, hvt.2, hacks, hlead]
    · rw [hacks' hvt]
      by_cases ht : t = s.term c
      · rw [ht, hi.acks_eq_zero hb]
        exact Nat.zero_le _
      · rw [hlead' ht]
        exact hi.acks_le v t
  case acks_term =>
    intro v t h
    by_cases hvt : v = c ∧ t = s.term c
    · rw [hvt.1, hvt.2, hbase]
      exact ⟨le_rfl, Option.isSome_some⟩
    · rw [hacks' hvt] at h
      exact ⟨(hi.acks_term v t h).1, hg.base_isSome (hi.acks_term v t h).2⟩
  case held =>
    intro v t k hk
    by_cases hvt : v = c ∧ t = s.term c
    · rw [hvt.1, hvt.2, hlead]
      exact Or.inl (List.take_prefix k _)
    · rw [hacks' hvt] at hk
      rw [hi.take_lead hg hk]
      exact (hi.held v t k hk).imp id (hg.lost le_rfl)
  case voted => exact fun v t l h ↦ hi.cast hg (hi.voted v t l h)
  case elected =>
    intro t b h
    by_cases ht : t = s.term c
    · subst ht
      rw [hbase, Option.some_inj] at h
      refine ⟨Q, hQ, fun v hvQ ↦ ?_⟩
      obtain ⟨l, hl, hup⟩ := hv v hvQ
      exact ⟨l, hi.cast hg (hi.voted v _ l hl), h ▸ hup⟩
    · exact hi.elected_grows hg (hbase' ht ▸ h)

theorem Inv.append (hi : Inv term s) (c : N) (e : E) (hb : (s.base (s.term c)).isSome)
    (hlog : s.log c = s.lead (s.term c)) (he : term e = s.term c) :
    Inv term (s.append c e) := by
  have hg := (Step.append c e hb hlog he).grows hi
  have hlead := s.append_lead c e
  have hlead' : ∀ {t}, t ≠ s.term c → (s.append c e).lead t = s.lead t :=
    fun h ↦ Function.update_of_ne h _ _
  have hlogc := s.append_log c e
  have hlog' : ∀ {v}, v ≠ c → (s.append c e).log v = s.log v :=
    fun h ↦ Function.update_of_ne h _ _
  have hacks := s.append_acks c e
  have hacks' : ∀ {v t}, ¬ (v = c ∧ t = s.term c) → (s.append c e).acks v t = s.acks v t :=
    update₂_of_ne _ _
  have hroot : Rooted term (s.append c e) (s.log c ++ [e]) := by
    intro i f hf
    rcases Nat.lt_or_ge i (s.log c).length with hi' | hi'
    · rw [List.getElem?_append_left hi'] at hf
      rw [List.take_append_of_le_length hi']
      exact hg.rooted (hi.log_rooted c) i f hf
    · rw [List.getElem?_append_right hi', List.getElem?_singleton] at hf
      obtain ⟨h0, rfl⟩ : i - (s.log c).length = 0 ∧ e = f := by simpa using hf
      rw [List.take_of_length_le (by simp; omega), he, hlead]
      exact ⟨hb, List.prefix_rfl⟩
  have hterm : ∀ f ∈ s.log c ++ [e], term f ≤ s.term c := by
    intro f hf
    rcases List.mem_append.mp hf with hf | hf
    · exact hi.log_term c f hf
    · rw [List.mem_singleton.mp hf, he]
  constructor
  case zero => exact hi.zero
  case base_prefix =>
    intro t b h
    have hsome : (s.base t).isSome := Option.isSome_iff_exists.mpr ⟨b, h⟩
    exact (hi.base_prefix t b h).trans (hg.lead t hsome)
  case base_term => exact hi.base_term
  case lead_term =>
    intro t h
    by_cases ht : t = s.term c
    · rw [ht, hlead]
      exact hterm
    · rw [hlead' ht]
      exact hi.lead_term t h
  case lead_rooted =>
    intro t h
    by_cases ht : t = s.term c
    · rw [ht, hlead]
      exact hroot
    · rw [hlead' ht]
      exact hg.rooted (hi.lead_rooted t h)
  case log_rooted =>
    intro v
    by_cases hv : v = c
    · rw [hv, hlogc]
      exact hroot
    · rw [hlog' hv]
      exact hg.rooted (hi.log_rooted v)
  case log_term =>
    intro v
    by_cases hv : v = c
    · rw [hv, hlogc]
      exact hterm
    · rw [hlog' hv]
      exact hi.log_term v
  case acks_le =>
    intro v t
    by_cases hvt : v = c ∧ t = s.term c
    · rw [hvt.1, hvt.2, hacks, hlead]
    · rw [hacks' hvt]
      rcases Nat.eq_zero_or_pos (s.acks v t) with h0 | h0
      · omega
      · exact (hi.acks_le v t).trans (hg.lead t (hi.acks_term v t h0).2).length_le
  case acks_term =>
    intro v t h
    by_cases hvt : v = c ∧ t = s.term c
    · rw [hvt.1, hvt.2]
      exact ⟨le_rfl, hb⟩
    · exact hi.acks_term v t (hacks' hvt ▸ h)
  case held =>
    intro v t k hk
    by_cases hvt : v = c ∧ t = s.term c
    · rw [hvt.1, hvt.2, hlead, hlogc]
      exact Or.inl (List.take_prefix k _)
    · rw [hacks' hvt] at hk
      rw [hi.take_lead hg hk]
      refine (hi.held v t k hk).imp (fun h ↦ ?_) (hg.lost le_rfl)
      by_cases hv : v = c
      · rw [hv, hlogc]
        exact (hv ▸ h).trans (List.prefix_append _ _)
      · rwa [hlog' hv]
  case voted => exact fun v t l h ↦ hi.cast hg (hi.voted v t l h)
  case elected => exact fun t b h ↦ hi.elected_grows hg h

theorem Inv.accept (hi : Inv term s) (v : N) {b m : List E} (hb : s.base (s.term v) = some b)
    (hbm : b <+: m) (hm : m <+: s.lead (s.term v)) : Inv term (s.accept v m) := by
  have hg := Step.grows hi (Step.accept v hb hbm hm)
  have hsome : (s.base (s.term v)).isSome := Option.isSome_iff_exists.mpr ⟨b, hb⟩
  have hlogv := s.accept_log v m
  have hlog' : ∀ {w}, w ≠ v → (s.accept v m).log w = s.log w :=
    fun h ↦ Function.update_of_ne h _ _
  have hacks := s.accept_acks v m
  have hacks' : ∀ {w t}, ¬ (w = v ∧ t = s.term v) → (s.accept v m).acks w t = s.acks w t :=
    update₂_of_ne _ _
  refine { hi with
    lead_rooted := fun t ht ↦ hg.rooted (hi.lead_rooted t ht)
    log_rooted := fun w ↦ ?_, log_term := fun w ↦ ?_, acks_le := fun w t ↦ ?_
    acks_term := fun w t h ↦ ?_, held := fun w t k hk ↦ ?_
    voted := fun w t l h ↦ hi.cast hg (hi.voted w t l h)
    elected := fun t c hc ↦ hi.elected_grows hg hc }
  · by_cases hw : w = v
    · rw [hw, hlogv]
      rcases merge_eq_or (s.log v) m with h | h
      · rw [h]
        exact hg.rooted (hi.log_rooted v)
      · rw [h]
        exact hg.rooted ((hi.lead_rooted _ hsome).of_isPrefix hm)
    · rw [hlog' hw]
      exact hg.rooted (hi.log_rooted w)
  · by_cases hw : w = v
    · rw [hw, hlogv]
      rcases merge_eq_or (s.log v) m with h | h
      · rw [h]
        exact hi.log_term v
      · rw [h]
        exact fun e he ↦ hi.lead_term _ hsome e (hm.subset he)
    · rw [hlog' hw]
      exact hi.log_term w
  · by_cases hwt : w = v ∧ t = s.term v
    · rw [hwt.1, hwt.2, hacks]
      exact max_le (hi.acks_le v _) hm.length_le
    · rw [hacks' hwt]
      exact hi.acks_le w t
  · by_cases hwt : w = v ∧ t = s.term v
    · rw [hwt.1, hwt.2]
      exact ⟨le_rfl, hsome⟩
    · exact hi.acks_term w t (hacks' hwt ▸ h)
  · by_cases hwv : w = v
    · rw [hwv] at hk ⊢
      rw [hlogv]
      rcases Nat.eq_zero_or_pos k with rfl | hpos
      · exact Or.inl (by simp)
      by_cases hkm : t = s.term v ∧ k ≤ m.length
      · -- what was just taken over
        rw [hkm.1]
        refine Or.inl ?_
        rw [show (s.accept v m).lead = s.lead from rfl, take_eq_of_isPrefix hm hkm.2]
        exact (List.take_prefix k m).trans (prefix_merge _ _)
      · refine (hi.held_accept v hb hbm hm hpos ?_).imp id (hg.lost le_rfl)
        by_cases ht : t = s.term v
        · rw [ht, hacks] at hk
          rw [ht]
          omega
        · rwa [hacks' fun h ↦ ht h.2] at hk
    · rw [hacks' fun h ↦ hwv h.1] at hk
      rw [hlog' hwv]
      exact (hi.held w t k hk).imp id (hg.lost le_rfl)

/-- **Every step keeps the invariant.** -/
theorem Step.inv (h : Step term s s') (hi : Inv term s) : Inv term s' := by
  cases h with
  | advance v ht => exact hi.advance v ht
  | castVote v hb => exact hi.castVote v hb
  | win c Q hb hpos hQ hv => exact hi.win c Q hb hpos hQ hv
  | append c e hb hlog he => exact hi.append c e hb hlog he
  | accept v hb hbm hm => exact hi.accept v hb hbm hm

/-- Any number of steps. -/
def Steps (term : E → ℕ) : State N E → State N E → Prop := Relation.ReflTransGen (Step term)

theorem Steps.inv_grows (h : Steps term s s') (hi : Inv term s) : Inv term s' ∧ Grows s s' := by
  induction h with
  | refl => exact ⟨hi, Grows.rfl⟩
  | tail _ hstep ih => exact ⟨hstep.inv ih.1, ih.2.trans (hstep.grows ih.1)⟩

end Raft
