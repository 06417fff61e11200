import Efis.Consensus.Election
import Efis.Raft.Step

/-!
# The cluster refines abstract replication

Every step of a cluster without crashes is a sequence of steps of `Efis.Raft.Step`, and what the
abstract protocol guarantees of its logs holds of the nodes.  `Sim` is the relation between the
two, and `Sim.step` the simulation.  Two places of the source need an argument:

* `splice` compares terms only, and keeps what it has as long as they agree.  Because the logs on
  both sides are rooted, and so match, this is the same as comparing the entries, and the outcome is
  `Raft.merge` with the log the leader had when it sent the request (`splice_eq_merge`).
* A candidate that gets a request of its own term from the leader does not step down, so its log
  changes while its vote requests are still under way.  By then its term has a leader, and it
  cannot win any more.  All that `Sim` says about votes is therefore said of terms without a
  leader.

Log matching and leader completeness come out as `log_matching` and `leader_completeness`.
-/

set_option autoImplicit false

namespace Efis

open Raft (Rooted merge)

variable {n : ℕ} {σ C : Type}

/-! ## Splicing is merging -/

section

open Consensus

variable {l m : List (LogEntry C)}

theorem matchLen_le_left (l m : List (LogEntry C)) : matchLen l m ≤ l.length := by
  fun_induction matchLen l m with
  | case1 e es f fs h ih => simpa using ih
  | case2 => exact Nat.zero_le _
  | case3 => exact Nat.zero_le _

theorem matchLen_le_right (l m : List (LogEntry C)) : matchLen l m ≤ m.length := by
  fun_induction matchLen l m with
  | case1 e es f fs h ih => simpa using ih
  | case2 => exact Nat.zero_le _
  | case3 => exact Nat.zero_le _

theorem term_eq_of_lt_matchLen (l m : List (LogEntry C)) {i : ℕ} (h : i < matchLen l m) :
    l[i]?.map LogEntry.term = m[i]?.map LogEntry.term := by
  fun_induction matchLen l m generalizing i with
  | case1 e es f fs hterm ih =>
    cases i with
    | zero => simpa using hterm
    | succ i => simpa using ih (by omega)
  | case2 => omega
  | case3 => omega

theorem matchLen_of_isPrefix (h : m <+: l) : matchLen l m = m.length := by
  obtain ⟨r, rfl⟩ := h
  induction m with
  | nil => cases r <;> rfl
  | cons e m ih => rw [List.cons_append, matchLen, if_pos rfl, ih, List.length_cons]

/-- The follower has everything before the entries of the request. -/
theorem take_eq_of_prevOk {logs L : List (LogEntry C)} {ni : ℕ} {req : AppendEntries C}
    (hm : Raft.Matching LogEntry.term logs L) (hs : Suffix L ni req)
    (hp : prevOk logs req.prevLogIndex req.prevLogTerm = true) :
    ni ≤ logs.length ∧ logs.take ni = L.take ni := by
  have hni := hs.insertAt
  rw [Consensus.insertAt] at hni
  cases hprev : req.prevLogIndex with
  | none =>
    obtain rfl : 0 = ni := by simpa [hprev] using hni
    simp
  | some i =>
    obtain rfl : i + 1 = ni := by simpa [hprev] using hni
    have hterm := hs.prevLogTerm i hprev
    obtain ⟨f, hf⟩ : ∃ f, L[i]? = some f :=
      ⟨_, List.getElem?_eq_getElem (Nat.lt_of_succ_le hs.le)⟩
    rw [hprev, hterm, hf, Option.map_some] at hp
    simp only [prevOk] at hp
    cases he : logs[i]? with
    | none => simp [he] at hp
    | some e =>
      have hef : e.term = f.term := by simpa [he] using hp
      exact ⟨(List.getElem?_eq_some_iff.mp he).1, hm i e f he hf hef⟩

/-- **Comparing terms is enough.**  Splicing in what the leader sent from its log `L` gives
`L`, or changes nothing if `L` was there already. -/
theorem splice_eq_merge {logs L : List (LogEntry C)} {ni : ℕ} {req : AppendEntries C}
    (hm : Raft.Matching LogEntry.term logs L) (hs : Suffix L ni req)
    (hp : prevOk logs req.prevLogIndex req.prevLogTerm = true) :
    splice logs (insertAt req) req.entries = merge logs L := by
  obtain ⟨hni, htake⟩ := take_eq_of_prevOk hm hs hp
  rw [hs.insertAt, hs.entries, splice]
  have hkr := matchLen_le_right (logs.drop ni) (L.drop ni)
  have hkl := matchLen_le_left (logs.drop ni) (L.drop ni)
  have hterm : ∀ i, i < matchLen (logs.drop ni) (L.drop ni) →
      logs[ni + i]?.map LogEntry.term = L[ni + i]?.map LogEntry.term := by
    intro i hi
    simpa using term_eq_of_lt_matchLen _ _ hi
  have hpre : L <+: logs → matchLen (logs.drop ni) (L.drop ni) = (L.drop ni).length :=
    fun h ↦ matchLen_of_isPrefix (h.drop ni)
  generalize matchLen (logs.drop ni) (L.drop ni) = k at *
  rw [List.length_drop] at hkr hkl hpre
  rw [List.length_drop]
  -- the logs agree as far as the terms do
  have hagree : logs.take (ni + k) = L.take (ni + k) := by
    rcases Nat.eq_zero_or_pos k with rfl | hk
    · exact htake
    · have hlt : ni + (k - 1) < logs.length := by omega
      have hlt' : ni + (k - 1) < L.length := by omega
      have he := hterm (k - 1) (by omega)
      rw [List.getElem?_eq_getElem hlt, List.getElem?_eq_getElem hlt', Option.map_some,
        Option.map_some, Option.some_inj] at he
      have := hm _ _ _ (List.getElem?_eq_getElem hlt) (List.getElem?_eq_getElem hlt') he
      rwa [show ni + (k - 1) + 1 = ni + k by omega] at this
  split
  · rename_i hlt
    have hn : ¬ L <+: logs := fun h ↦ hlt.ne (hpre h)
    rw [merge, if_neg hn, hagree, List.drop_drop, List.take_append_drop]
  · rename_i hge
    have hlen : L.length ≤ ni + k := by omega
    rw [List.take_of_length_le hlen] at hagree
    rw [merge, if_pos (hagree ▸ List.take_prefix _ _)]

/-! ## The up-to-date test -/

theorem lastTerm_eq (l : List (LogEntry C)) :
    Raft.lastTerm LogEntry.term l = (lastLogOf l).term := by
  rw [Raft.lastTerm, lastLogOf]
  cases l.getLast? <;> rfl

/-- The test of the source reports the empty log like a log of one entry of term `0`.  No entry
is of term `0`, so the two are not confused. -/
theorem upToDate_of_eq_true {req : RequestVote} (hl : ∀ e ∈ l, 0 < e.term)
    (hm : ∀ e ∈ m, 0 < e.term) (hreq : lastLogOf l = ⟨req.lastLogIndex, req.lastLogTerm⟩)
    (h : upToDate req (lastLogOf m) = true) : Raft.UpToDate LogEntry.term l m := by
  have hidx : (lastLogOf l).index = req.lastLogIndex := by rw [hreq]
  have hterm : (lastLogOf l).term = req.lastLogTerm := by rw [hreq]
  rw [Raft.UpToDate, lastTerm_eq, lastTerm_eq, hterm]
  simp only [upToDate, Bool.or_eq_true, Bool.and_eq_true, decide_eq_true_eq] at h
  rcases h with h | ⟨hteq, hle⟩
  · exact Or.inl h
  · refine Or.inr ⟨hteq.symm, ?_⟩
    rw [← hidx] at hle
    rw [← hterm] at hteq
    rcases List.eq_nil_or_concat m with rfl | ⟨m', e, rfl⟩
    · exact Nat.zero_le _
    · have he : 0 < e.term := hm e (by simp)
      rcases List.eq_nil_or_concat l with rfl | ⟨l', f, rfl⟩
      · simp [lastLogOf] at hteq
        omega
      · simp only [lastLogOf, List.concat_eq_append, List.getLast?_append, List.getLast?_singleton,
          Option.some_or, List.length_append, List.length_singleton] at hle ⊢
        omega

end

/-! ## The simulation relation -/

/-- How far the log of a follower reaches once it accepted the request. -/
def reach (req : AppendEntries C) : ℕ := Consensus.insertAt req + req.entries.length

/-- The request carries a suffix of a log that the leader of its term had. -/
structure Sound (s : Raft.State (Fin n) (LogEntry C)) (req : AppendEntries C) : Prop where
  base : ∃ b, s.base req.term = some b ∧ b.length ≤ reach req
  le : reach req ≤ (s.lead req.term).length
  suffix : Consensus.Suffix ((s.lead req.term).take (reach req)) (Consensus.insertAt req) req

theorem Sound.grows {s s' : Raft.State (Fin n) (LogEntry C)} {req : AppendEntries C}
    (h : Sound s req) (hg : Raft.Grows s s') : Sound s' req := by
  obtain ⟨b, hb, hlen⟩ := h.base
  have hp := hg.lead req.term (Option.isSome_iff_exists.mpr ⟨b, hb⟩)
  refine ⟨⟨b, hg.base _ b hb, hlen⟩, h.le.trans hp.length_le, ?_⟩
  rw [Raft.take_eq_of_isPrefix hp h.le]
  exact h.suffix

variable [Storage σ C]

/-- The nodes and messages of a cluster, with the record `g` of its votes, are those of the
abstract state `s`. -/
structure Sim (cfg : Config n σ C) (c : Cluster n σ C) (g : Fin n → ℕ → Option String)
    (s : Raft.State (Fin n) (LogEntry C)) : Prop where
  inv : Raft.Inv LogEntry.term s
  term : ∀ v, s.term v = (c.nodes v).currentTerm
  log : ∀ v, s.log v = (c.nodes v).logs
  /-- A leader has what its term has. -/
  lead : ∀ j, (c.nodes j).state = .leader → (s.base (c.nodes j).currentTerm).isSome ∧
    (c.nodes j).logs = s.lead (c.nodes j).currentTerm ∧
    (c.nodes j).logs.length ≤ s.acks j (c.nodes j).currentTerm
  /-- A term with a leader had a majority for it, and the leader has not come back. -/
  owner : ∀ t b, s.base t = some b → ∃ j, Elected cfg g t j ∧ t ≤ (c.nodes j).currentTerm ∧
    ((c.nodes j).currentTerm = t → (c.nodes j).state = .leader)
  /-- Nobody votes for a candidate that has not reached the term. -/
  voted : ∀ v t j, g v t = some (cfg.id j) → t ≤ (c.nodes j).currentTerm
  /-- Who voted for a candidate that can still win was no further than the candidate is. -/
  votes : ∀ j, (c.nodes j).state = .candidate → s.base (c.nodes j).currentTerm = none →
    ∀ v, g v (c.nodes j).currentTerm = some (cfg.id j) →
      ∃ l, s.vote v (c.nodes j).currentTerm = some l ∧
        Raft.UpToDate LogEntry.term (c.nodes j).logs l
  asked : ∀ m ∈ c.voteReqs, (c.nodes m.src).state = .candidate →
    (c.nodes m.src).currentTerm = m.req.term → s.base m.req.term = none →
      lastLogOf (c.nodes m.src).logs = ⟨m.req.lastLogIndex, m.req.lastLogTerm⟩
  sound : ∀ m ∈ c.appendReqs, Sound s m.call.req
  accepted : ∀ v t req, Event.accept v t req ∈ c.trace →
    req.term = t ∧ reach req ≤ s.acks v t

variable {cfg : Config n σ C} {c c' : Cluster n σ C} {g g' : Fin n → ℕ → Option String}
  {s s' : Raft.State (Fin n) (LogEntry C)}

namespace Sim

/-- No entry is of term `0`. -/
theorem term_pos (h : Sim cfg c g s) (v : Fin n) : ∀ e ∈ (c.nodes v).logs, 0 < e.term := by
  intro e he
  rw [← h.log v] at he
  obtain ⟨i, hi⟩ := List.getElem?_of_mem he
  rcases Nat.eq_zero_or_pos e.term with h0 | h0
  · have := (h.inv.log_rooted v i e hi).1
    rw [h0, h.inv.zero] at this
    cases this
  · exact h0

/-! ### Steps that the abstract protocol does not see -/

/-- The terms, the logs and the leaders stay, and what is new is accounted for. -/
theorem frame (h : Sim cfg c g s)
    (hterm : ∀ v, (c'.nodes v).currentTerm = (c.nodes v).currentTerm)
    (hlogs : ∀ v, (c'.nodes v).logs = (c.nodes v).logs)
    (hlead : ∀ v, (c'.nodes v).state = .leader ↔ (c.nodes v).state = .leader)
    (hg : ∀ v t a, g v t = some a → g' v t = some a)
    (hvoted : ∀ v t j, g' v t = some (cfg.id j) → t ≤ (c.nodes j).currentTerm)
    (hvotes : ∀ j, (c'.nodes j).state = .candidate → s.base (c.nodes j).currentTerm = none →
      ∀ v, g' v (c.nodes j).currentTerm = some (cfg.id j) →
        ∃ l, s.vote v (c.nodes j).currentTerm = some l ∧
          Raft.UpToDate LogEntry.term (c.nodes j).logs l)
    (hasked : ∀ m ∈ c'.voteReqs, (c'.nodes m.src).state = .candidate →
      (c.nodes m.src).currentTerm = m.req.term → s.base m.req.term = none →
        lastLogOf (c.nodes m.src).logs = ⟨m.req.lastLogIndex, m.req.lastLogTerm⟩)
    (hsound : ∀ m ∈ c'.appendReqs, Sound s m.call.req)
    (hacc : ∀ v t req, Event.accept v t req ∈ c'.trace → Event.accept v t req ∈ c.trace) :
    Sim cfg c' g' s where
  inv := h.inv
  term v := by rw [hterm v, h.term v]
  log v := by rw [hlogs v, h.log v]
  lead j hj := by
    rw [hterm j, hlogs j]
    exact h.lead j ((hlead j).mp hj)
  owner t b hb := by
    obtain ⟨j, hj, hle, hst⟩ := h.owner t b hb
    refine ⟨j, hj.mono hg, by rw [hterm j]; exact hle, fun ht ↦ (hlead j).mpr ?_⟩
    rw [hterm j] at ht
    exact hst ht
  voted v t j hv := by
    rw [hterm j]
    exact hvoted v t j hv
  votes j hj := by
    rw [hterm j, hlogs j]
    exact hvotes j hj
  asked m hm hc ht := by
    rw [hterm m.src] at ht
    rw [hlogs m.src]
    exact hasked m hm hc ht
  sound := hsound
  accepted v t req hm := h.accepted v t req (hacc v t req hm)

/-- Nothing but messages and bookkeeping changes. -/
theorem frame_same (h : Sim cfg c g s) (he : Elect cfg c g)
    (hsame : ∀ v, (c'.nodes v).currentTerm = (c.nodes v).currentTerm ∧
      (c'.nodes v).votedFor = (c.nodes v).votedFor ∧ (c'.nodes v).logs = (c.nodes v).logs ∧
      (c'.nodes v).state = (c.nodes v).state)
    (hreq : ∀ m ∈ c'.voteReqs, m ∈ c.voteReqs)
    (hsound : ∀ m ∈ c'.appendReqs, Sound s m.call.req)
    (hacc : ∀ v t req, Event.accept v t req ∈ c'.trace → Event.accept v t req ∈ c.trace) :
    Sim cfg c' (record c' g) s := by
  rw [he.record_eq fun v ↦ ⟨(hsame v).1, (hsame v).2.1⟩]
  refine h.frame (fun v ↦ (hsame v).1) (fun v ↦ (hsame v).2.2.1)
    (fun v ↦ by rw [(hsame v).2.2.2]) (fun _ _ _ hg ↦ hg) h.voted (fun j hj ↦ ?_)
    (fun m hm hc ↦ ?_) hsound hacc
  · rw [(hsame j).2.2.2] at hj
    exact h.votes j hj
  · rw [(hsame m.src).2.2.2] at hc
    exact h.asked m (hreq m hm) hc

/-! ### Terms and votes -/

/-- Node `i` moves on to a later term, as a follower. -/
theorem advance (h : Sim cfg c g s) (he : Elect cfg c g) {i : Fin n} {t : ℕ}
    {m : Consensus σ C (Fin n)} (ht : (c.nodes i).currentTerm < t) (hmt : m.currentTerm = t)
    (hmv : m.votedFor = none) (hml : m.logs = (c.nodes i).logs) (hms : m.state = .follower) :
    Sim cfg (c.set i m) (record (c.set i m) g) (s.advance i t) := by
  have hstep : Raft.Step LogEntry.term s (s.advance i t) :=
    .advance i (by rw [h.term i]; exact ht)
  have hg : ∀ v u a, record (c.set i m) g v u = some a → g v u = some a :=
    fun v u a ↦ he.of_record hmv
  have hg' : ∀ v u a, g v u = some a → record (c.set i m) g v u = some a := by
    intro v u a hv
    refine he.record_of_some (fun w ↦ ?_) hv
    by_cases hw : w = i
    · rw [hw, Cluster.set_self]
      exact Or.inl (by rw [hmt]; exact ht)
    · rw [Cluster.set_of_ne _ _ hw]
      exact Or.inr ⟨rfl, Or.inr rfl⟩
  -- whoever has a role in the new state is not `i`
  have hne : ∀ {v}, ((c.set i m).nodes v).state ≠ .follower → v ≠ i := by
    rintro v hv rfl
    rw [Cluster.set_self] at hv
    exact hv hms
  constructor
  case inv => exact hstep.inv h.inv
  case term =>
    intro v
    by_cases hv : v = i
    · rw [hv, Cluster.set_self, hmt]
      exact Function.update_self ..
    · rw [Cluster.set_of_ne _ _ hv, ← h.term v]
      exact Function.update_of_ne hv ..
  case log =>
    intro v
    by_cases hv : v = i
    · rw [hv, Cluster.set_self, hml]
      exact h.log i
    · rw [Cluster.set_of_ne _ _ hv]
      exact h.log v
  case lead =>
    intro j hj
    have hji := hne (v := j) (by rw [hj]; decide)
    rw [Cluster.set_of_ne _ _ hji] at hj ⊢
    exact h.lead j hj
  case owner =>
    intro u b hb
    obtain ⟨j, hj, hle, hst⟩ := h.owner u b hb
    refine ⟨j, hj.mono hg', ?_, fun hju ↦ ?_⟩
    · by_cases hji : j = i
      · rw [hji] at hle ⊢
        rw [Cluster.set_self, hmt]
        exact hle.trans ht.le
      · rwa [Cluster.set_of_ne _ _ hji]
    · by_cases hji : j = i
      · rw [hji] at hle hju
        rw [Cluster.set_self, hmt] at hju
        omega
      · rw [Cluster.set_of_ne _ _ hji] at hju ⊢
        exact hst hju
  case voted =>
    intro v u j hv
    have hle := h.voted v u j (hg v u _ hv)
    by_cases hji : j = i
    · rw [hji] at hle ⊢
      rw [Cluster.set_self, hmt]
      exact hle.trans ht.le
    · rwa [Cluster.set_of_ne _ _ hji]
  case votes =>
    intro j hj
    have hji := hne (v := j) (by rw [hj]; decide)
    rw [Cluster.set_of_ne _ _ hji] at hj ⊢
    exact fun hb v hv ↦ h.votes j hj hb v (hg v _ _ hv)
  case asked =>
    intro a ha hc
    have hji := hne (v := a.src) (by rw [hc]; decide)
    rw [Cluster.set_of_ne _ _ hji] at hc ⊢
    exact h.asked a ha hc
  case sound => exact fun a ha ↦ (h.sound a ha).grows (hstep.grows h.inv)
  case accepted => exact h.accepted

/-- A node that has not voted yet in its term does so, in the abstract protocol only. -/
theorem castVote (h : Sim cfg c g s) {i : Fin n} (hb : s.base (c.nodes i).currentTerm = none)
    (hv : g i (c.nodes i).currentTerm = none) : Sim cfg c g (s.castVote i) := by
  have hstep : Raft.Step LogEntry.term s (s.castVote i) := .castVote i (by rw [h.term i, hb])
  refine { h with inv := hstep.inv h.inv, votes := fun j hj hbj v hvj ↦ ?_, sound := ?_ }
  · obtain ⟨l, hl, hup⟩ := h.votes j hj hbj v hvj
    refine ⟨l, ?_, hup⟩
    have hne : ¬ (v = i ∧ (c.nodes j).currentTerm = s.term i) := by
      rintro ⟨rfl, ht⟩
      rw [ht, h.term v, hv] at hvj
      cases hvj
    exact (Raft.update₂_of_ne _ _ hne).trans hl
  · exact fun a ha ↦ (h.sound a ha).grows (hstep.grows h.inv)

theorem vote_castVote (h : Sim cfg c g s) (i : Fin n) :
    (s.castVote i).vote i (c.nodes i).currentTerm = some (c.nodes i).logs := by
  rw [← h.term i, ← h.log i]
  exact Raft.update₂_self ..

/-- The abstract protocol follows to a related state. -/
def Follows (cfg : Config n σ C) (s : Raft.State (Fin n) (LogEntry C)) (c' : Cluster n σ C)
    (g' : Fin n → ℕ → Option String) : Prop :=
  ∃ s', Raft.Steps LogEntry.term s s' ∧ Sim cfg c' g' s'

theorem Follows.refl (h : Sim cfg c g s) : Follows cfg s c g := ⟨s, .refl, h⟩

theorem stepDown (h : Sim cfg c g s) (he : Elect cfg c g) (i : Fin n) (t : ℕ) :
    Follows cfg s (c.set i ((c.nodes i).stepDown t))
      (record (c.set i ((c.nodes i).stepDown t)) g) := by
  rw [Consensus.stepDown]
  split
  · rename_i ht
    exact ⟨_, .single (.advance i (by rw [h.term i]; exact ht)),
      h.advance he ht rfl rfl rfl rfl⟩
  · refine Follows.refl (h.frame_same he (fun v ↦ ?_) (fun _ hm ↦ hm) h.sound fun _ _ _ hm ↦ hm)
    rw [Cluster.set_eq_self]
    exact ⟨rfl, rfl, rfl, rfl⟩

/-- A follower that has not voted in its term votes for itself, and asks for votes. -/
theorem candidacy (h : Sim cfg c g s) (he : Elect cfg c g) {i : Fin n}
    {m : Consensus σ C (Fin n)} (hi : (c.nodes i).state = .follower)
    (hv : (c.nodes i).votedFor = none)
    (hm : Same { c.nodes i with state := .candidate, votedFor := some (c.nodes i).id,
                                voteCount := m.voteCount } m)
    (hnone : ∀ v, g v (c.nodes i).currentTerm ≠ some (cfg.id i))
    (hold : ∀ a ∈ c.voteReqs, a.src = i → a.req.term ≠ (c.nodes i).currentTerm)
    {reqs : List (VoteCall n)}
    (hreqs : ∀ r ∈ reqs, r.src = i ∧
      lastLogOf (c.nodes i).logs = ⟨r.req.lastLogIndex, r.req.lastLogTerm⟩)
    (hc' : c' = { c.set i m with voteReqs := c.voteReqs ++ reqs }) :
    Follows cfg s c' (record c' g) := by
  have hi' : c'.nodes i = m := by rw [hc']; exact c.set_self i m
  have hne : ∀ v, v ≠ i → c'.nodes v = c.nodes v := by
    rw [hc']
    exact fun v hv ↦ c.set_of_ne m hv
  have hterm : ∀ v, (c'.nodes v).currentTerm = (c.nodes v).currentTerm := by
    intro v
    by_cases hv : v = i
    · rw [hv, hi', hm.currentTerm]
    · rw [hne v hv]
  have hlogs : ∀ v, (c'.nodes v).logs = (c.nodes v).logs := by
    intro v
    by_cases hv : v = i
    · rw [hv, hi', hm.logs]
    · rw [hne v hv]
  have hlead : ∀ v, (c'.nodes v).state = .leader ↔ (c.nodes v).state = .leader := by
    intro v
    by_cases hv : v = i
    · rw [hv, hi', hm.state, hi]
      simp
    · rw [hne v hv]
  have hlater : ∀ v, Later (c.nodes v) (c'.nodes v) := by
    intro v
    by_cases hvi : v = i
    · exact Or.inr ⟨hterm v, Or.inl (hvi ▸ hv)⟩
    · rw [hne v hvi]
      exact Or.inr ⟨rfl, Or.inr rfl⟩
  -- the candidate's own vote is the only new one
  have hvote : ∀ v t a, record c' g v t = some a →
      g v t = some a ∨ v = i ∧ t = (c.nodes i).currentTerm ∧ a = cfg.id i := by
    intro v t a hva
    by_cases hvt : t = (c'.nodes v).currentTerm
    · rw [hvt, record_self] at hva
      by_cases hvi : v = i
      · rw [hvi, hi', hm.votedFor, Option.some_inj] at hva
        exact Or.inr ⟨hvi, by rw [hvt, hvi, hterm], by rw [← hva, he.id]⟩
      · rw [hne v hvi] at hvt hva
        exact Or.inl (by rw [hvt, he.vote, hva])
    · exact Or.inl (by rwa [record_of_ne _ _ hvt] at hva)
  have hframe : ∀ {s₂}, Sim cfg c g s₂ →
      (s₂.base (c.nodes i).currentTerm = none →
        s₂.vote i (c.nodes i).currentTerm = some (c.nodes i).logs) →
      Sim cfg c' (record c' g) s₂ := by
    intro s₂ h₂ hself
    refine h₂.frame hterm hlogs hlead (fun v t a ↦ he.record_of_some hlater) ?_ ?_ ?_
      (by rw [hc']; exact h₂.sound) (by rw [hc']; exact fun _ _ _ h ↦ h)
    · intro v t j hvj
      rcases hvote v t _ hvj with hvj | ⟨-, rfl, hj⟩
      · exact h₂.voted v t j hvj
      · rw [cfg.id_injective hj]
    · intro j hj hb v hvj
      by_cases hji : j = i
      · rw [hji] at hb hvj ⊢
        rcases hvote v _ _ hvj with hvj | ⟨rfl, -, -⟩
        · exact absurd hvj (hnone v)
        · exact ⟨_, hself hb, Raft.UpToDate.refl _ _⟩
      · rw [hne j hji] at hj
        rcases hvote v _ _ hvj with hvj | ⟨-, -, hid⟩
        · exact h₂.votes j hj hb v hvj
        · exact absurd (cfg.id_injective hid) hji
    · intro a ha hc hat hb
      rw [hc'] at ha
      rcases List.mem_append.mp ha with ha | ha
      · by_cases hai : a.src = i
        · exact absurd (hai ▸ hat).symm (hold a ha hai)
        · rw [hne a.src hai] at hc
          exact h₂.asked a ha hc hat hb
      · obtain ⟨hsrc, hlast⟩ := hreqs a ha
        rw [hsrc, hlast]
  by_cases hb : s.base (c.nodes i).currentTerm = none
  · exact ⟨_, .single (.castVote i (by rw [h.term i, hb])),
      hframe (h.castVote hb (by rw [he.vote, hv])) fun _ ↦ h.vote_castVote i⟩
  · exact ⟨s, .refl, hframe h fun h ↦ absurd h hb⟩

/-- An election starts: a later term first, and then a vote for oneself. -/
theorem startElection (h : Sim cfg c g s) (he : Elect cfg c g) {i : Fin n}
    {m : Consensus σ C (Fin n)}
    (hm : Same { c.nodes i with
      state := .candidate, currentTerm := (c.nodes i).currentTerm + 1,
      votedFor := some (c.nodes i).id, voteCount := 1 } m)
    {reqs : List (VoteCall n)}
    (hreqs : ∀ r ∈ reqs, r.src = i ∧
      lastLogOf (c.nodes i).logs = ⟨r.req.lastLogIndex, r.req.lastLogTerm⟩)
    (hc' : c' = { c.set i m with voteReqs := c.voteReqs ++ reqs }) :
    Follows cfg s c' (record c' g) := by
  have ht : (c.nodes i).currentTerm < m.currentTerm := by
    rw [hm.currentTerm]
    exact Nat.lt_succ_self _
  -- the state in between, in which the node has moved on but not voted
  obtain ⟨m₁, hm₁⟩ : ∃ m₁, m₁ = { m with state := State.follower, votedFor := none } := ⟨_, rfl⟩
  obtain ⟨c₁, hc₁⟩ : ∃ c₁, c₁ = c.set i m₁ := ⟨_, rfl⟩
  have hi : c₁.nodes i = { m with state := State.follower, votedFor := none } := by
    rw [hc₁, Cluster.set_self, hm₁]
  have hlogs : (c₁.nodes i).logs = (c.nodes i).logs := by rw [hi]; exact hm.logs
  have hne : ∀ v, v ≠ i → c₁.nodes v = c.nodes v := by
    rw [hc₁]
    exact fun v hv ↦ c.set_of_ne m₁ hv
  have h₁ : Sim cfg c₁ (record c₁ g) (s.advance i m.currentTerm) := by
    rw [hc₁]
    exact h.advance he ht (by rw [hm₁]) (by rw [hm₁]) (by rw [hm₁]; exact hm.logs) (by rw [hm₁])
  have he₁ : Elect cfg c₁ (record c₁ g) := by
    refine (he.frame (fun v ↦ ?_) (by rw [hc₁]; rfl) (by rw [hc₁]; rfl)).elect
    by_cases hv : v = i
    · rw [hv, hi]
      exact ⟨hm.id, hm.peers, Or.inl ht, fun hs ↦ absurd rfl hs⟩
    · rw [hne v hv]
      exact Quiet.rfl
  have hterm : ∀ v, (c'.nodes v).currentTerm = (c₁.nodes v).currentTerm := by
    intro v
    by_cases hv : v = i
    · have : c'.nodes i = m := by rw [hc']; exact c.set_self i m
      rw [hv, hi, this]
    · have : c'.nodes v = c.nodes v := by rw [hc']; exact c.set_of_ne m hv
      rw [hne v hv, this]
  have hstep : Raft.Step LogEntry.term s (s.advance i m.currentTerm) :=
    .advance i (by rw [h.term i]; exact ht)
  have hset : c' = { c₁.set i m with voteReqs := c₁.voteReqs ++ reqs } := by
    rw [hc', hc₁]
    simp [Cluster.set]
  obtain ⟨s₂, hs₂, h₂⟩ := h₁.candidacy he₁ (i := i) (m := m)
    (by rw [hi]) (by rw [hi])
    (by rw [hi]; exact ⟨rfl, rfl, rfl, by rw [hm.votedFor, hm.id], rfl, rfl, hm.state⟩)
    (fun v hv ↦ by
      rw [hi] at hv
      -- nobody can have voted in a term the candidate had not reached
      exact absurd (h.voted v _ i (he.of_record (by rw [hm₁]) (hc₁ ▸ hv))) (not_le.mpr ht))
    (fun a ha hai ↦ by
      rw [hc₁] at ha
      have := he.ballot _ (List.mem_append_left _ (List.mem_map_of_mem ha))
      simp only [VoteCall.ballot, hai] at this
      rw [hi]
      exact (this.trans_lt ht).ne)
    (fun r hr ↦ ⟨(hreqs r hr).1, by rw [hlogs]; exact (hreqs r hr).2⟩) hset
  rw [record_record g hterm] at h₂
  exact ⟨s₂, Relation.ReflTransGen.head hstep hs₂, h₂⟩

/-- A node grants a vote in its term. -/
theorem grant (h : Sim cfg c g s) (he : Elect cfg c g) {a : VoteCall n} (ha : a ∈ c.voteReqs)
    (hterm : a.req.term = (c.nodes a.dst).currentTerm)
    (hv : (c.nodes a.dst).votedFor = none ∨
      (c.nodes a.dst).votedFor = some a.req.candidateId)
    (hup : Consensus.upToDate a.req (lastLogOf (c.nodes a.dst).logs) = true)
    {m : Consensus σ C (Fin n)}
    (hm : Same { c.nodes a.dst with votedFor := some a.req.candidateId } m)
    (hn : c'.nodes = (c.set a.dst m).nodes) (hreq : ∀ x ∈ c'.voteReqs, x ∈ c.voteReqs)
    (happ : c'.appendReqs = c.appendReqs) (htr : c'.trace = c.trace) :
    Follows cfg s c' (record c' g) := by
  have hid := he.asked a ha
  have hi : c'.nodes a.dst = m := by rw [hn, Cluster.set_self]
  have hne : ∀ v, v ≠ a.dst → c'.nodes v = c.nodes v := by
    rw [hn]
    exact fun v hv ↦ c.set_of_ne m hv
  have hsame : ∀ v, (c'.nodes v).currentTerm = (c.nodes v).currentTerm ∧
      (c'.nodes v).logs = (c.nodes v).logs ∧ (c'.nodes v).state = (c.nodes v).state := by
    intro v
    by_cases hvd : v = a.dst
    · rw [hvd, hi]
      exact ⟨hm.currentTerm, hm.logs, hm.state⟩
    · rw [hne v hvd]
      exact ⟨rfl, rfl, rfl⟩
  have hlater : ∀ v, Later (c.nodes v) (c'.nodes v) := by
    intro v
    refine Or.inr ⟨(hsame v).1, ?_⟩
    by_cases hvd : v = a.dst
    · rw [hvd, hi, hm.votedFor]
      exact hv.imp (fun hv ↦ hv) fun hv ↦ hv.symm
    · rw [hne v hvd]
      exact Or.inr rfl
  -- the vote for the sender is the only one that can be new
  have hvote : ∀ v t b, record c' g v t = some b →
      g v t = some b ∨ v = a.dst ∧ t = a.req.term ∧ b = cfg.id a.src := by
    intro v t b hvb
    by_cases hvt : t = (c'.nodes v).currentTerm
    · rw [hvt, record_self] at hvb
      by_cases hvd : v = a.dst
      · rw [hvd, hi, hm.votedFor, Option.some_inj] at hvb
        exact Or.inr ⟨hvd, by rw [hvt, (hsame v).1, hterm, hvd], by rw [← hvb, hid]⟩
      · rw [hne v hvd] at hvt hvb
        exact Or.inl (by rw [hvt, he.vote, hvb])
    · exact Or.inl (by rwa [record_of_ne _ _ hvt] at hvb)
  have hframe : ∀ {s₂}, Sim cfg c g s₂ →
      (s₂.base a.req.term = none → g a.dst a.req.term ≠ some (cfg.id a.src) →
        s₂.vote a.dst a.req.term = some (c.nodes a.dst).logs) →
      Sim cfg c' (record c' g) s₂ := by
    intro s₂ h₂ hself
    refine h₂.frame (fun v ↦ (hsame v).1) (fun v ↦ (hsame v).2.1)
      (fun v ↦ by rw [(hsame v).2.2]) (fun v t a ↦ he.record_of_some hlater) ?_ ?_ ?_
      (by rw [happ]; exact h₂.sound) (by rw [htr]; exact fun _ _ _ h ↦ h)
    · intro v t j hvj
      rcases hvote v t _ hvj with hvj | ⟨-, rfl, hj⟩
      · exact h₂.voted v t j hvj
      · rw [cfg.id_injective hj]
        exact he.ballot _ (List.mem_append_left _ (List.mem_map_of_mem ha))
    · intro j hj hb v hvj
      rw [(hsame j).2.2] at hj
      by_cases hold : g v (c.nodes j).currentTerm = some (cfg.id j)
      · exact h₂.votes j hj hb v hold
      · rcases hvote v _ _ hvj with hvj | ⟨rfl, ht, hjd⟩
        · exact absurd hvj hold
        · obtain rfl := cfg.id_injective hjd
          rw [ht] at hb hold ⊢
          refine ⟨_, hself hb hold, ?_⟩
          exact upToDate_of_eq_true (h.term_pos _) (h.term_pos _)
            (h₂.asked a ha hj ht hb) hup
    · intro x hx hc
      rw [(hsame x.src).2.2] at hc
      exact h₂.asked x (hreq x hx) hc
  by_cases hb : s.base (c.nodes a.dst).currentTerm = none ∧ (c.nodes a.dst).votedFor = none
  · refine ⟨_, .single (.castVote a.dst (by rw [h.term a.dst, hb.1])),
      hframe (h.castVote hb.1 (by rw [he.vote, hb.2])) fun _ _ ↦ ?_⟩
    rw [hterm]
    exact h.vote_castVote a.dst
  · refine ⟨s, .refl, hframe h fun hb' hg ↦ ?_⟩
    -- the vote is not new after all
    rw [hterm, he.vote] at hg
    rcases hv with hv | hv
    · exact absurd ⟨hterm ▸ hb', hv⟩ hb
    · rw [hv, hid] at hg
      exact absurd rfl hg

/-! ### Leaders -/

/-- A candidate wins. -/
theorem win (h : Sim cfg c g s) (he : Elect cfg c g) {i : Fin n} {m : Consensus σ C (Fin n)}
    (hi : (c.nodes i).state = .candidate)
    (hm : Same { c.nodes i with state := .leader, voteCount := m.voteCount } m)
    (hn : c'.nodes = (c.set i m).nodes) (hreq : c'.voteReqs = c.voteReqs)
    (happ : c'.appendReqs = c.appendReqs) (htr : c'.trace = c.trace)
    (he' : Elect cfg c' (record c' g)) : Follows cfg s c' (record c' g) := by
  have hi' : c'.nodes i = m := by rw [hn, Cluster.set_self]
  have hne : ∀ v, v ≠ i → c'.nodes v = c.nodes v := by
    rw [hn]
    exact fun v hv ↦ c.set_of_ne m hv
  have hsame : ∀ v, (c'.nodes v).currentTerm = (c.nodes v).currentTerm ∧
      (c'.nodes v).votedFor = (c.nodes v).votedFor ∧ (c'.nodes v).logs = (c.nodes v).logs := by
    intro v
    by_cases hv : v = i
    · rw [hv, hi']
      exact ⟨hm.currentTerm, hm.votedFor, hm.logs⟩
    · rw [hne v hv]
      exact ⟨rfl, rfl, rfl⟩
  have hg : record c' g = g := he.record_eq fun v ↦ ⟨(hsame v).1, (hsame v).2.1⟩
  rw [hg] at he' ⊢
  have hst : (c'.nodes i).state = .leader := by rw [hi', hm.state]
  have helec : Elected cfg g (c.nodes i).currentTerm i := by
    have := he'.lead i hst
    rwa [(hsame i).1] at this
  -- the term has no leader yet: it would have a majority as well
  have hb : s.base (c.nodes i).currentTerm = none := by
    cases hb : s.base (c.nodes i).currentTerm with
    | none => rfl
    | some b =>
      obtain ⟨j, hj, -, hlead⟩ := h.owner _ b hb
      obtain rfl := helec.unique hj
      rw [hlead rfl] at hi
      cases hi
  obtain ⟨S, hS, hSv⟩ := helec
  have hstep : Raft.Step LogEntry.term s (s.win i) := by
    refine .win i S (by rw [h.term i, hb]) (by rw [h.term i]; exact he.pos i hi) hS fun v hv ↦ ?_
    rw [h.term i, h.log i]
    exact h.votes i hi hb v (hSv v hv)
  have hgr := hstep.grows h.inv
  have hbase : ∀ {t}, t ≠ (c.nodes i).currentTerm → (s.win i).base t = s.base t := by
    intro t ht
    exact Function.update_of_ne (by rwa [h.term i]) ..
  have hbase' : ∀ {t}, (s.win i).base t = none → s.base t = none := by
    intro t ht
    by_cases hti : t = (c.nodes i).currentTerm
    · rw [hti, hb]
    · rw [← hbase hti, ht]
  refine ⟨_, .single hstep, ?_⟩
  constructor
  case inv => exact hstep.inv h.inv
  case term => exact fun v ↦ (h.term v).trans (hsame v).1.symm
  case log => exact fun v ↦ (h.log v).trans (hsame v).2.2.symm
  case lead =>
    intro j hj
    rw [(hsame j).1, (hsame j).2.2]
    by_cases hji : j = i
    · rw [hji, ← h.term i, ← h.log i]
      exact ⟨Option.isSome_iff_exists.mpr ⟨s.log i, s.win_base i⟩, (s.win_lead i).symm,
        (s.win_acks i).ge⟩
    · rw [hne j hji] at hj
      obtain ⟨hbj, hlog, hacks⟩ := h.lead j hj
      have hjt : (c.nodes j).currentTerm ≠ (c.nodes i).currentTerm := by
        intro ht
        rw [ht, hb] at hbj
        cases hbj
      refine ⟨by rw [hbase hjt]; exact hbj, ?_, hacks.trans (hgr.acks_le _ _)⟩
      rw [hlog]
      exact (Function.update_of_ne (by rwa [h.term i]) ..).symm
  case owner =>
    intro t b hbt
    by_cases hti : t = (c.nodes i).currentTerm
    · exact ⟨i, ⟨S, hS, hti ▸ hSv⟩, by rw [(hsame i).1, hti], fun _ ↦ hst⟩
    · rw [hbase hti] at hbt
      obtain ⟨j, hj, hle, hlead⟩ := h.owner t b hbt
      refine ⟨j, hj, by rw [(hsame j).1]; exact hle, fun hjt ↦ ?_⟩
      by_cases hji : j = i
      · rw [hji, hst]
      · rw [hne j hji] at hjt ⊢
        exact hlead hjt
  case voted =>
    intro v t j hv
    rw [(hsame j).1]
    exact h.voted v t j hv
  case votes =>
    intro j hj hbj
    have hji : j ≠ i := by
      rintro rfl
      rw [hst] at hj
      cases hj
    rw [hne j hji] at hj hbj ⊢
    exact h.votes j hj (hbase' hbj)
  case asked =>
    intro a ha hc ht hba
    have hai : a.src ≠ i := by
      intro hai
      rw [hai, hst] at hc
      cases hc
    rw [hne a.src hai] at hc ht ⊢
    exact h.asked a (hreq ▸ ha) hc ht (hbase' hba)
  case sound => exact fun a ha ↦ (h.sound a (happ ▸ ha)).grows hgr
  case accepted =>
    intro v t req hacc
    obtain ⟨ht, hr⟩ := h.accepted v t req (htr ▸ hacc)
    exact ⟨ht, hr.trans (hgr.acks_le v t)⟩

/-- A leader appends an entry. -/
theorem submit (h : Sim cfg c g s) (he : Elect cfg c g) {i : Fin n} {cmd : C}
    {m : Consensus σ C (Fin n)} (hi : (c.nodes i).state = .leader)
    (hm : Same { c.nodes i with
      logs := (c.nodes i).logs ++ [⟨cmd, (c.nodes i).currentTerm⟩] } m) :
    Follows cfg s (c.set i m) (record (c.set i m) g) := by
  have hsame : ∀ v, ((c.set i m).nodes v).currentTerm = (c.nodes v).currentTerm ∧
      ((c.set i m).nodes v).votedFor = (c.nodes v).votedFor ∧
      ((c.set i m).nodes v).state = (c.nodes v).state := by
    intro v
    by_cases hv : v = i
    · rw [hv, Cluster.set_self]
      exact ⟨hm.currentTerm, hm.votedFor, hm.state⟩
    · rw [Cluster.set_of_ne _ _ hv]
      exact ⟨rfl, rfl, rfl⟩
  rw [he.record_eq fun v ↦ ⟨(hsame v).1, (hsame v).2.1⟩]
  obtain ⟨hb, hlog, hacks⟩ := h.lead i hi
  have hstep : Raft.Step LogEntry.term s
      (s.append i ⟨cmd, (c.nodes i).currentTerm⟩) :=
    .append i _ (by rw [h.term i]; exact hb) (by rw [h.term i, h.log i]; exact hlog)
      (h.term i).symm
  have hgr := hstep.grows h.inv
  -- a candidate is not `i`, so its log has not changed
  have hcand : ∀ j, ((c.set i m).nodes j).state = .candidate →
      (c.set i m).nodes j = c.nodes j ∧ (c.nodes j).state = .candidate := by
    intro j hj
    have hji : j ≠ i := by
      rintro rfl
      rw [(hsame j).2.2, hi] at hj
      cases hj
    rw [(hsame j).2.2] at hj
    exact ⟨Cluster.set_of_ne _ _ hji, hj⟩
  refine ⟨_, .single hstep, ?_⟩
  constructor
  case inv => exact hstep.inv h.inv
  case term => exact fun v ↦ (h.term v).trans (hsame v).1.symm
  case log =>
    intro v
    by_cases hv : v = i
    · rw [hv, Cluster.set_self, hm.logs, Raft.State.append_log, h.log i]
    · rw [Cluster.set_of_ne _ _ hv]
      exact (Function.update_of_ne hv ..).trans (h.log v)
  case lead =>
    intro j hj
    rw [(hsame j).2.2] at hj
    rw [(hsame j).1]
    by_cases hji : j = i
    · rw [hji, Cluster.set_self, hm.logs, ← h.term i, Raft.State.append_lead,
        Raft.State.append_acks, h.log i, h.term i]
      exact ⟨hb, rfl, le_rfl⟩
    · rw [Cluster.set_of_ne _ _ hji]
      obtain ⟨hbj, hlogj, hacksj⟩ := h.lead j hj
      -- no two nodes lead the same term
      have hjt : (c.nodes j).currentTerm ≠ s.term i := by
        intro ht
        have hej := he.lead j hj
        rw [ht, h.term i] at hej
        exact hji (hej.unique (he.lead i hi))
      refine ⟨hbj, hlogj.trans ?_, hacksj.trans (hgr.acks_le _ _)⟩
      exact (Function.update_of_ne hjt ..).symm
  case owner =>
    intro t b hbt
    obtain ⟨j, hj, hle, hlead⟩ := h.owner t b hbt
    exact ⟨j, hj, by rw [(hsame j).1]; exact hle,
      fun hjt ↦ by rw [(hsame j).2.2]; exact hlead ((hsame j).1 ▸ hjt)⟩
  case voted =>
    intro v t j hv
    rw [(hsame j).1]
    exact h.voted v t j hv
  case votes =>
    intro j hj
    obtain ⟨hjn, hj⟩ := hcand j hj
    rw [hjn]
    exact h.votes j hj
  case asked =>
    intro a ha hc
    obtain ⟨hjn, hc⟩ := hcand a.src hc
    rw [hjn]
    exact h.asked a ha hc
  case sound => exact fun a ha ↦ (h.sound a ha).grows hgr
  case accepted =>
    intro v t req hacc
    obtain ⟨ht, hr⟩ := h.accepted v t req hacc
    exact ⟨ht, hr.trans (hgr.acks_le v t)⟩

/-- The log that the leader had when it sent a sound request. -/
theorem sent_spec (h : Sim cfg c g s) {req : AppendEntries C} (hs : Sound s req) :
    ∃ b, s.base req.term = some b ∧ b <+: (s.lead req.term).take (reach req) ∧
      ((s.lead req.term).take (reach req)).length = reach req ∧
      Rooted LogEntry.term s ((s.lead req.term).take (reach req)) := by
  obtain ⟨b, hb, hlen⟩ := hs.base
  have hsome : (s.base req.term).isSome := Option.isSome_iff_exists.mpr ⟨b, hb⟩
  refine ⟨b, hb, ?_, List.length_take_of_le hs.le,
    (h.inv.lead_rooted _ hsome).of_isPrefix (List.take_prefix _ _)⟩
  exact List.prefix_of_prefix_length_le (h.inv.base_prefix _ b hb) (List.take_prefix _ _)
    (by rw [List.length_take_of_le hs.le]; exact hlen)

/-- What a node has after it accepted a sound request. -/
theorem splice_eq (h : Sim cfg c g s) {req : AppendEntries C} (hs : Sound s req) {v : Fin n}
    (hp : Consensus.prevOk (c.nodes v).logs req.prevLogIndex req.prevLogTerm = true) :
    Consensus.splice (c.nodes v).logs (Consensus.insertAt req) req.entries =
      merge (c.nodes v).logs ((s.lead req.term).take (reach req)) := by
  obtain ⟨b, -, -, -, hroot⟩ := h.sent_spec hs
  exact splice_eq_merge ((h.log v ▸ h.inv.log_rooted v).matching hroot) hs.suffix hp

/-- A node accepts a request of the leader of its term. -/
theorem accept (h : Sim cfg c g s) (he : Elect cfg c g) {v : Fin n} {req : AppendEntries C}
    (hs : Sound s req) (hterm : (c.nodes v).currentTerm = req.term)
    (hp : Consensus.prevOk (c.nodes v).logs req.prevLogIndex req.prevLogTerm = true)
    {m : Consensus σ C (Fin n)}
    (hm : Same { c.nodes v with
      logs := Consensus.splice (c.nodes v).logs (Consensus.insertAt req) req.entries } m)
    (hn : c'.nodes = (c.set v m).nodes) (hreq : c'.voteReqs = c.voteReqs)
    (happ : ∀ x ∈ c'.appendReqs, x ∈ c.appendReqs)
    (htr : c'.trace = c.trace ++ [.accept v req.term req]) :
    Follows cfg s c' (record c' g) := by
  obtain ⟨b, hb, hbl, hlen, -⟩ := h.sent_spec hs
  have hsplice := h.splice_eq hs hp
  have hv' : c'.nodes v = m := by rw [hn, Cluster.set_self]
  have hne : ∀ w, w ≠ v → c'.nodes w = c.nodes w := by
    rw [hn]
    exact fun w hw ↦ c.set_of_ne m hw
  have hsame : ∀ w, (c'.nodes w).currentTerm = (c.nodes w).currentTerm ∧
      (c'.nodes w).votedFor = (c.nodes w).votedFor ∧
      (c'.nodes w).state = (c.nodes w).state := by
    intro w
    by_cases hw : w = v
    · rw [hw, hv']
      exact ⟨hm.currentTerm, hm.votedFor, hm.state⟩
    · rw [hne w hw]
      exact ⟨rfl, rfl, rfl⟩
  rw [he.record_eq fun w ↦ ⟨(hsame w).1, (hsame w).2.1⟩]
  have hvt : s.term v = req.term := by rw [h.term v, hterm]
  have hstep : Raft.Step LogEntry.term s (s.accept v ((s.lead req.term).take (reach req))) :=
    .accept v (by rw [hvt]; exact hb) hbl (by rw [hvt]; exact List.take_prefix _ _)
  have hgr := hstep.grows h.inv
  refine ⟨_, .single hstep, ?_⟩
  constructor
  case inv => exact hstep.inv h.inv
  case term => exact fun w ↦ (h.term w).trans (hsame w).1.symm
  case log =>
    intro w
    by_cases hw : w = v
    · rw [hw, hv', hm.logs, Raft.State.accept_log, h.log v, hsplice]
    · rw [hne w hw, ← h.log w]
      exact Function.update_of_ne hw ..
  case lead =>
    intro j hj
    rw [(hsame j).2.2] at hj
    obtain ⟨hbj, hlog, hacks⟩ := h.lead j hj
    have hlogs : (c'.nodes j).logs = (c.nodes j).logs := by
      by_cases hjv : j = v
      · -- the leader of the term has all it ever sent
        rw [hjv] at hlog ⊢
        rw [hv', hm.logs, hsplice, merge, if_pos]
        rw [hlog, hterm]
        exact List.take_prefix _ _
      · rw [hne j hjv]
    rw [(hsame j).1, hlogs]
    exact ⟨hbj, hlog, hacks.trans (hgr.acks_le _ _)⟩
  case owner =>
    intro t b' hbt
    obtain ⟨j, hj, hle, hlead⟩ := h.owner t b' hbt
    exact ⟨j, hj, by rw [(hsame j).1]; exact hle,
      fun hjt ↦ by rw [(hsame j).2.2]; exact hlead ((hsame j).1 ▸ hjt)⟩
  case voted =>
    intro w t j hw
    rw [(hsame j).1]
    exact h.voted w t j hw
  case votes =>
    intro j hj hbj
    -- the term of the request has a leader, so a candidate in it has lost
    have hjv : j ≠ v := by
      rintro rfl
      rw [(hsame j).1, hterm] at hbj
      exact absurd (hb.symm.trans hbj) (by simp)
    rw [hne j hjv] at hj hbj ⊢
    exact h.votes j hj hbj
  case asked =>
    intro a ha hc hat hba
    have hav : a.src ≠ v := by
      intro hav
      rw [(hsame a.src).1, hav, hterm] at hat
      rw [← hat] at hba
      exact absurd (hb.symm.trans hba) (by simp)
    rw [hne a.src hav] at hc hat ⊢
    exact h.asked a (hreq ▸ ha) hc hat hba
  case sound => exact fun a ha ↦ (h.sound a (happ a ha)).grows hgr
  case accepted =>
    intro w t r hacc
    rw [htr] at hacc
    rcases List.mem_append.mp hacc with hacc | hacc
    · obtain ⟨ht, hr⟩ := h.accepted w t r hacc
      exact ⟨ht, hr.trans (hgr.acks_le w t)⟩
    · obtain ⟨rfl, rfl, rfl⟩ : w = v ∧ t = req.term ∧ r = req := by simpa using hacc
      refine ⟨rfl, ?_⟩
      rw [← hvt, Raft.State.accept_acks, hvt, hlen]
      exact le_max_right _ _

/-! ### The simulation -/

/-- A request that a leader sends is sound. -/
theorem sound_of_suffix (h : Sim cfg c g s) {i : Fin n} (hi : (c.nodes i).state = .leader)
    {ni : ℕ} {req : AppendEntries C} (hs : Consensus.Suffix (c.nodes i).logs ni req)
    (ht : req.term = (c.nodes i).currentTerm) : Sound s req := by
  obtain ⟨hb, hlog, -⟩ := h.lead i hi
  obtain ⟨b, hb⟩ := Option.isSome_iff_exists.mp hb
  have hreach : reach req = (s.lead req.term).length := by
    rw [reach, hs.insertAt, hs.entries, List.length_drop, ht, ← hlog]
    have := hs.le
    omega
  refine ⟨⟨b, ht ▸ hb, ?_⟩, hreach.le, ?_⟩
  · rw [hreach, ht]
    exact (h.inv.base_prefix _ b hb).length_le
  · rw [hreach, List.take_length, ht, ← hlog, hs.insertAt]
    exact hs

theorem becomeFollower (h : Sim cfg c g s) (he : Elect cfg c g) {i : Fin n} {t : ℕ}
    (ht : (c.nodes i).currentTerm < t) :
    Follows cfg s (c.set i ((c.nodes i).becomeFollower t))
      (record (c.set i ((c.nodes i).becomeFollower t)) g) := by
  have := h.stepDown he i t
  rwa [Consensus.stepDown, if_pos ht] at this

/-- `Sim` does not look at replies. -/
theorem Follows.of_eq {c₁ : Cluster n σ C} (h : Follows cfg s c₁ (record c₁ g))
    (hn : c'.nodes = c₁.nodes) (hreq : c'.voteReqs = c₁.voteReqs)
    (happ : c'.appendReqs = c₁.appendReqs) (htr : c'.trace = c₁.trace) :
    Follows cfg s c' (record c' g) := by
  obtain ⟨s', hs, h'⟩ := h
  have hr : record c' g = record c₁ g := by
    funext v
    rw [record, record, hn]
  refine ⟨s', hs, ?_⟩
  rw [hr]
  exact h'.frame (by simp [hn]) (by simp [hn]) (by simp [hn]) (fun _ _ _ h ↦ h) h'.voted
    (by rw [hn]; exact h'.votes) (by rw [hn, hreq]; exact h'.asked) (by rw [happ]; exact h'.sound)
    (by rw [htr]; exact fun _ _ _ h ↦ h)

theorem requestVote (h : Sim cfg c g s) (he : Elect cfg c g) {k : ℕ} {a : VoteCall n}
    (ha : c.voteReqs[k]? = some a)
    (hc' : c' = { c with voteReqs := c.voteReqs.eraseIdx k }.requestVote a) :
    Follows cfg s c' (record c' g) := by
  have hmem := List.mem_of_getElem? ha
  have hreq : ∀ x ∈ c'.voteReqs, x ∈ c.voteReqs := by
    rw [hc']
    exact fun x hx ↦ (c.voteReqs.eraseIdx_sublist k).subset hx
  have happ : c'.appendReqs = c.appendReqs := by rw [hc']; rfl
  have htr : c'.trace = c.trace := by rw [hc']; rfl
  have hn : c'.nodes = (c.set a.dst ((c.nodes a.dst).requestVote a.req).1).nodes := by
    rw [hc']; rfl
  -- first the node steps down, and then it answers
  obtain ⟨c₁, hc₁⟩ : ∃ c₁, c₁ = c.set a.dst ((c.nodes a.dst).stepDown a.req.term) := ⟨_, rfl⟩
  obtain ⟨s₁, hs₁, h₁⟩ := h.stepDown he a.dst a.req.term
  have he₁ := (he.frame (quiet_set (Quiet.stepDown (c.nodes a.dst) a.req.term)) rfl rfl).elect
  rw [← hc₁] at h₁ he₁
  have hdst : c₁.nodes a.dst = (c.nodes a.dst).stepDown a.req.term := by
    rw [hc₁, Cluster.set_self]
  have hmem₁ : a ∈ c₁.voteReqs := by rw [hc₁]; exact hmem
  rcases (c.nodes a.dst).requestVote_cases a.req with hr | ⟨hterm, hv, hup, hr⟩ | hr
  · rw [hr, Cluster.set_eq_self] at hn
    refine Follows.refl (h.frame_same he (fun v ↦ ?_) hreq (by rw [happ]; exact h.sound)
      (by rw [htr]; exact fun _ _ _ h ↦ h))
    rw [hn]
    exact ⟨rfl, rfl, rfl, rfl⟩
  · rw [hr] at hn
    have hn₁ : c'.nodes = (c₁.set a.dst (Consensus.persistState
        { c₁.nodes a.dst with votedFor := some a.req.candidateId })).nodes := by
      rw [hn, hdst, hc₁, Cluster.set_set]
    obtain ⟨s₂, hs₂, h₂⟩ := h₁.grant he₁ hmem₁ (by rw [hdst]; exact hterm)
      (by rw [hdst]; exact hv)
      (by rw [hdst, Consensus.stepDown_logs]; exact hup)
      (Consensus.same_persistState _) hn₁
      (by rw [hc₁]; exact hreq) (by rw [happ, hc₁]; rfl) (by rw [htr, hc₁]; rfl)
    rw [record_record g ?_] at h₂
    · exact ⟨s₂, hs₁.trans hs₂, h₂⟩
    · intro v
      rw [hn₁]
      by_cases hvd : v = a.dst
      · rw [hvd, Cluster.set_self]
        rfl
      · rw [Cluster.set_of_ne _ _ hvd]
  · rw [hr, ← hc₁] at hn
    have h₂ : Sim cfg c' (record c' (record c₁ g)) s₁ := h₁.frame_same he₁
      (fun v ↦ by rw [hn]; exact ⟨rfl, rfl, rfl, rfl⟩)
      (by rw [hc₁]; exact hreq) (by rw [happ]; rw [hc₁] at h₁; exact h₁.sound)
      (by rw [htr, hc₁]; exact fun _ _ _ h ↦ h)
    rw [record_record g fun v ↦ by rw [hn]] at h₂
    exact ⟨s₁, hs₁, h₂⟩

theorem voteResult (h : Sim cfg c g s) (he : Elect cfg c g) {k : ℕ} {a : VoteAnswer n}
    (ha : c.voteReplies[k]? = some a)
    (hc' : c' = { c with voteReplies := c.voteReplies.eraseIdx k }.voteResult a) :
    Follows cfg s c' (record c' g) := by
  have hn : c'.nodes = (c.set a.call.src
      ((c.nodes a.call.src).onVoteResult a.reply.term a.reply.voted)).nodes := by
    rw [hc']; rfl
  have hreq : c'.voteReqs = c.voteReqs := by rw [hc']; rfl
  have happ : c'.appendReqs = c.appendReqs := by rw [hc']; rfl
  have htr : c'.trace = c.trace := by rw [hc']; rfl
  have keep : (∀ v, (c'.nodes v).currentTerm = (c.nodes v).currentTerm ∧
      (c'.nodes v).votedFor = (c.nodes v).votedFor ∧ (c'.nodes v).logs = (c.nodes v).logs ∧
      (c'.nodes v).state = (c.nodes v).state) → Follows cfg s c' (record c' g) := fun hsame ↦
    Follows.refl (h.frame_same he hsame (by rw [hreq]; exact fun _ h ↦ h)
      (by rw [happ]; exact h.sound) (by rw [htr]; exact fun _ _ _ h ↦ h))
  rcases (c.nodes a.call.src).onVoteResult_cases a.reply.term a.reply.voted with
    hr | ⟨hlt, hr⟩ | ⟨-, -, -, hr⟩ | ⟨hcand, -, -, -, hr⟩
  · rw [hr, Cluster.set_eq_self] at hn
    exact keep fun v ↦ by rw [hn]; exact ⟨rfl, rfl, rfl, rfl⟩
  · rw [hr] at hn
    exact (h.becomeFollower he hlt).of_eq hn hreq happ htr
  · rw [hr] at hn
    refine keep fun v ↦ ?_
    rw [hn]
    by_cases hv : v = a.call.src
    · rw [hv, Cluster.set_self]
      exact ⟨rfl, rfl, rfl, rfl⟩
    · rw [Cluster.set_of_ne _ _ hv]
      exact ⟨rfl, rfl, rfl, rfl⟩
  · rw [hr] at hn
    refine h.win he hcand ?_ hn hreq happ htr (he.voteResult ha hc').elect
    exact ⟨rfl, rfl, rfl, rfl, rfl, rfl, rfl⟩

theorem appendEntries (h : Sim cfg c g s) (he : Elect cfg c g) {k : ℕ} {a : EntriesCall n C}
    (ha : c.appendReqs[k]? = some a)
    (hc' : c' = { c with appendReqs := c.appendReqs.eraseIdx k }.appendEntries a) :
    Follows cfg s c' (record c' g) := by
  have hmem := List.mem_of_getElem? ha
  have happ : ∀ x ∈ c'.appendReqs, x ∈ c.appendReqs := by
    intro x hx
    rw [hc', Cluster.appendEntries_appendReqs] at hx
    exact (c.appendReqs.eraseIdx_sublist k).subset hx
  have hreq : c'.voteReqs = c.voteReqs := by
    rw [hc', Cluster.appendEntries_voteReqs]
  have hn : c'.nodes =
      (c.set a.call.client ((c.nodes a.call.client).appendEntries a.call.req).1).nodes := by
    rw [hc', Cluster.appendEntries_nodes]
    rfl
  obtain ⟨c₁, hc₁⟩ : ∃ c₁,
      c₁ = c.set a.call.client ((c.nodes a.call.client).stepDown a.call.req.term) := ⟨_, rfl⟩
  obtain ⟨s₁, hs₁, h₁⟩ := h.stepDown he a.call.client a.call.req.term
  have he₁ :=
    (he.frame (quiet_set (Quiet.stepDown (c.nodes a.call.client) a.call.req.term)) rfl rfl).elect
  rw [← hc₁] at h₁ he₁
  have hdst : c₁.nodes a.call.client = (c.nodes a.call.client).stepDown a.call.req.term := by
    rw [hc₁, Cluster.set_self]
  have happ₁ : ∀ x ∈ c'.appendReqs, x ∈ c₁.appendReqs := by rw [hc₁]; exact happ
  rcases (c.nodes a.call.client).appendEntries_cases a.call.req with
    hr | ⟨m, reply, hr, hsucc, hm, -⟩ | ⟨m, hr, hterm, hp, hm, -⟩
  · rw [hr, Cluster.set_eq_self] at hn
    have htr : c'.trace = c.trace := by
      rw [hc', Cluster.appendEntries]
      simp only [hr]
      rfl
    refine Follows.refl (h.frame_same he (fun v ↦ ?_) (by rw [hreq]; exact fun _ h ↦ h)
      (fun x hx ↦ h.sound x (happ x hx)) (by rw [htr]; exact fun _ _ _ h ↦ h))
    rw [hn]
    exact ⟨rfl, rfl, rfl, rfl⟩
  · rw [hr] at hn
    have htr : c'.trace = c.trace := by
      rw [hc', Cluster.appendEntries]
      simp only [hr, hsucc]
      rfl
    have hsame : ∀ v, Same (c₁.nodes v) (c'.nodes v) := by
      intro v
      rw [hn]
      by_cases hv : v = a.call.client
      · rw [hv, Cluster.set_self, hdst]
        exact hm
      · rw [Cluster.set_of_ne _ _ hv, hc₁, Cluster.set_of_ne _ _ hv]
        exact Same.rfl
    have h₂ : Sim cfg c' (record c' (record c₁ g)) s₁ := h₁.frame_same he₁
      (fun v ↦ ⟨(hsame v).currentTerm, (hsame v).votedFor, (hsame v).logs, (hsame v).state⟩)
      (by rw [hreq, hc₁]; exact fun _ h ↦ h) (fun x hx ↦ h₁.sound x (happ₁ x hx))
      (by rw [htr, hc₁]; exact fun _ _ _ h ↦ h)
    rw [record_record g fun v ↦ (hsame v).currentTerm] at h₂
    exact ⟨s₁, hs₁, h₂⟩
  · rw [hr] at hn
    have htr : c'.trace = c₁.trace ++ [.accept a.call.client a.call.req.term a.call.req] := by
      rw [hc', Cluster.appendEntries, hc₁]
      simp only [hr]
      rfl
    have hn₁ : c'.nodes = (c₁.set a.call.client m).nodes := by rw [hn, hc₁, Cluster.set_set]
    have hlogs : (c₁.nodes a.call.client).logs = (c.nodes a.call.client).logs := by
      rw [hdst, Consensus.stepDown_logs]
    obtain ⟨s₂, hs₂, h₂⟩ := h₁.accept he₁ (v := a.call.client)
      (h₁.sound a (by rw [hc₁]; exact hmem)) (by rw [hdst]; exact hterm)
      (by rw [hlogs]; exact hp) (by rw [hlogs, hdst]; exact hm) hn₁
      (by rw [hreq, hc₁]; rfl) happ₁ htr
    rw [record_record g ?_] at h₂
    · exact ⟨s₂, hs₁.trans hs₂, h₂⟩
    · intro v
      rw [hn₁]
      by_cases hv : v = a.call.client
      · rw [hv, Cluster.set_self, hm.currentTerm, hdst]
      · rw [Cluster.set_of_ne _ _ hv]

theorem aeRes (h : Sim cfg c g s) (he : Elect cfg c g) {k : ℕ} {a : EntriesAnswer n C}
    (hc' : c' = { c with appendReplies := c.appendReplies.eraseIdx k }.aeRes a) :
    Follows cfg s c' (record c' g) := by
  have hreq : c'.voteReqs = c.voteReqs := by
    rw [hc', Cluster.aeRes]
    simp only
    split <;> rfl
  have happ : c'.appendReqs = c.appendReqs := by
    rw [hc', Cluster.aeRes]
    simp only
    split <;> rfl
  have htr : c'.trace = c.trace := by
    rw [hc', Cluster.aeRes]
    simp only
    split <;> rfl
  have keep : (∀ v, Same (c.nodes v) (c'.nodes v)) → Follows cfg s c' (record c' g) :=
    fun hsame ↦ Follows.refl (h.frame_same he
      (fun v ↦ ⟨(hsame v).currentTerm, (hsame v).votedFor, (hsame v).logs, (hsame v).state⟩)
      (by rw [hreq]; exact fun _ h ↦ h) (by rw [happ]; exact h.sound)
      (by rw [htr]; exact fun _ _ _ h ↦ h))
  rw [Cluster.aeRes] at hc'
  simp only at hc'
  split at hc'
  · exact keep fun v ↦ by rw [hc']; exact Same.rfl
  · rename_i m hm
    have hsame : Same (c.nodes a.call.src) m → ∀ v, Same (c.nodes v) (c'.nodes v) := by
      intro hs v
      have hn : c'.nodes = (c.set a.call.src m).nodes := by rw [hc']; rfl
      rw [hn]
      by_cases hv : v = a.call.src
      · rw [hv, Cluster.set_self]
        exact hs
      · rw [Cluster.set_of_ne _ _ hv]
        exact Same.rfl
    rcases Consensus.handleAeRes_cases _ hm with ⟨hlt, rfl⟩ | ⟨hs, -⟩ | ⟨hs, -⟩
    · exact (h.becomeFollower he hlt).of_eq (by rw [hc']; rfl) hreq happ htr
    · exact keep (hsame hs)
    · exact keep (hsame hs)

/-- **The simulation.**  Every step of a cluster that is not a crash is a sequence of steps of
the abstract protocol. -/
theorem step (h : Sim cfg c g s) (he : Elect cfg c g) {l : Label n σ C} (hl : l.Alive)
    (hs : c.step l = some c') : Follows cfg s c' (record c' g) := by
  have keep : ∀ {i m}, Same (c.nodes i) m → c'.nodes = (c.set i m).nodes →
      c'.voteReqs = c.voteReqs → (∀ x ∈ c'.appendReqs, Sound s x.call.req) →
      (∀ v t req, .accept v t req ∈ c'.trace → .accept v t req ∈ c.trace) →
      Follows cfg s c' (record c' g) := by
    intro i m hm hn hreq hsound hacc
    refine Follows.refl (h.frame_same he (fun v ↦ ?_) (by rw [hreq]; exact fun _ h ↦ h)
      hsound hacc)
    rw [hn]
    by_cases hv : v = i
    · rw [hv, Cluster.set_self]
      exact ⟨hm.currentTerm, hm.votedFor, hm.logs, hm.state⟩
    · rw [Cluster.set_of_ne _ _ hv]
      exact ⟨rfl, rfl, rfl, rfl⟩
  have unchanged : ∀ {i}, c' = c.fail i → Follows cfg s c' (record c' g) := by
    rintro i rfl
    exact keep (i := i) Same.rfl (by rw [Cluster.set_eq_self]; rfl) rfl h.sound
      fun _ _ _ h ↦ h
  cases l with
  | startElection i elapsed =>
    simp only [Cluster.step, Cluster.on_eq_some] at hs
    obtain ⟨-, hc'⟩ := hs
    rw [Cluster.startElection] at hc'
    rcases (c.nodes i).onStartElection_cases elapsed with hr | hr | ⟨m, hr, hm, -⟩
    · rw [hr] at hc'
      exact unchanged hc'.symm
    · rw [hr] at hc'
      exact keep (i := i) Same.rfl (by rw [← hc']) (by rw [← hc']; simp)
        (by rw [← hc']; exact h.sound) (by rw [← hc']; exact fun _ _ _ h ↦ h)
    · rw [hr] at hc'
      refine h.startElection he hm (fun r hr ↦ ?_) hc'.symm
      simp only [List.map_map, List.mem_map] at hr
      obtain ⟨p, -, rfl⟩ := hr
      exact ⟨rfl, rfl⟩
  | submit i cmd =>
    simp only [Cluster.step, Cluster.on_eq_some] at hs
    obtain ⟨-, hc'⟩ := hs
    rw [Cluster.submit] at hc'
    rcases (c.nodes i).onSubmit_cases cmd with hr | ⟨hi, hm, -⟩
    · rw [hr] at hc'
      exact keep (i := i) Same.rfl (by rw [hc']) (by rw [← hc']; rfl)
        (by rw [← hc']; exact h.sound) (by rw [← hc']; exact fun _ _ _ h ↦ h)
    · rw [← hc']
      exact h.submit he hi hm
  | sendAes i =>
    simp only [Cluster.step, Cluster.on_eq_some] at hs
    obtain ⟨-, hc'⟩ := hs
    rw [Cluster.sendAes] at hc'
    split at hc'
    · exact unchanged hc'.symm
    · rename_i m calls hm
      obtain ⟨hsame, -, hcalls⟩ := Consensus.sendLeaderAes_spec _ hm
      refine keep hsame (by rw [← hc']) (by rw [← hc']; rfl) (fun x hx ↦ ?_)
        (by rw [← hc']; exact fun _ _ _ h ↦ h)
      rw [← hc'] at hx
      rcases List.mem_append.mp hx with hx | hx
      · exact h.sound x hx
      · obtain ⟨call, hcall, rfl⟩ := List.mem_map.mp hx
        obtain ⟨hi, hsuf, hterm, -, -⟩ := hcalls call hcall
        exact h.sound_of_suffix hi hsuf hterm
  | sendCommit i =>
    simp only [Cluster.step, Cluster.on_eq_some] at hs
    obtain ⟨-, hc'⟩ := hs
    rw [Cluster.sendCommit] at hc'
    split at hc'
    · exact unchanged hc'.symm
    · rename_i m entries hm
      refine keep (Consensus.sendCommits_spec _ hm).1 (by rw [← hc']) (by rw [← hc']; rfl)
        (by rw [← hc']; exact h.sound) ?_
      intro v t req hacc
      rw [← hc'] at hacc
      simpa using hacc
  | voteReq k =>
    obtain ⟨a, ha, hc'⟩ := Cluster.step_voteReq hs
    exact h.requestVote he ha hc'
  | voteReply k =>
    obtain ⟨a, ha, hc'⟩ := Cluster.step_voteReply hs
    exact h.voteResult he ha hc'
  | appendReq k =>
    obtain ⟨a, ha, hc'⟩ := Cluster.step_appendReq hs
    exact h.appendEntries he ha hc'
  | appendReply k =>
    obtain ⟨a, -, hc'⟩ := Cluster.step_appendReply hs
    exact h.aeRes he hc'
  | restart i left => exact hl.elim
  | crashVote k left => exact hl.elim
  | crashAppend k left => exact hl.elim

end Sim

/-! ## Runs -/

theorem Label.Alive.keeps {l : Label n σ C} (h : l.Alive) : Keeps c l := by
  cases l with
  | restart i left => exact h.elim
  | crashVote k left => exact h.elim
  | crashAppend k left => exact h.elim
  | _ => trivial

/-- A new cluster has empty logs. -/
theorem Config.Fresh.node (hf : cfg.Fresh) (v : Fin n) :
    (cfg.node v).currentTerm = 0 ∧ (cfg.node v).votedFor = none ∧ (cfg.node v).logs = [] ∧
      (cfg.node v).commitIndex = none := by
  obtain ⟨peers, hp, -⟩ := cfg.node_spec v
  rw [hp]
  simp only [Consensus.new, Consensus.restoreState, hf v]
  exact ⟨rfl, rfl, trivial, trivial⟩

theorem Sim.init (hf : cfg.Fresh) :
    Sim cfg cfg.init (record cfg.init fun _ _ ↦ none) (Raft.State.init (Fin n) (LogEntry C)) where
  inv := Raft.Inv.init
  term v := (hf.node v).1.symm
  log v := (hf.node v).2.2.1.symm
  lead j hj := by
    rw [show (cfg.init.nodes j).state = .follower from cfg.node_state j] at hj
    cases hj
  owner t b hb := by cases hb
  voted v t j h := by
    by_cases ht : t = (cfg.init.nodes v).currentTerm
    · rw [ht, record_self] at h
      exact absurd ((hf.node v).2.1.symm.trans h) (by simp)
    · rw [record_of_ne _ _ ht] at h
      cases h
  votes j hj := by
    rw [show (cfg.init.nodes j).state = .follower from cfg.node_state j] at hj
    cases hj
  asked _ h := absurd h List.not_mem_nil
  sound _ h := absurd h List.not_mem_nil
  accepted _ _ _ h := absurd h List.not_mem_nil

/-- What is known of a node that leads, or has led, at some moment `d` of a run. -/
structure Led (s : Raft.State (Fin n) (LogEntry C)) (d : Cluster n σ C) (j : Fin n) : Prop where
  base : ∃ b, s.base (d.nodes j).currentTerm = some b ∧ b <+: (d.nodes j).logs
  log : (d.nodes j).logs <+: s.lead (d.nodes j).currentTerm
  acks : (d.nodes j).logs.length ≤ s.acks j (d.nodes j).currentTerm

theorem Sim.led (h : Sim cfg c g s) {j : Fin n} (hj : (c.nodes j).state = .leader) :
    Led s c j := by
  obtain ⟨hb, hlog, hacks⟩ := h.lead j hj
  obtain ⟨b, hb⟩ := Option.isSome_iff_exists.mp hb
  exact ⟨⟨b, hb, hlog ▸ h.inv.base_prefix _ b hb⟩, hlog ▸ List.prefix_rfl, hacks⟩

omit [Storage σ C] in
theorem Led.grows {d : Cluster n σ C} {j : Fin n} (h : Led s d j) (hg : Raft.Grows s s') :
    Led s' d j := by
  obtain ⟨b, hb, hbl⟩ := h.base
  exact ⟨⟨b, hg.base _ b hb, hbl⟩,
    h.log.trans (hg.lead _ (Option.isSome_iff_exists.mpr ⟨b, hb⟩)),
    h.acks.trans (hg.acks_le _ _)⟩

/-- **Every run without crashes is a run of the abstract protocol.** -/
theorem Cluster.Run.sim (hf : cfg.Fresh) {r : List (Cluster n σ C)}
    (h : Cluster.Run cfg (fun _ l ↦ l.Alive) r) :
    ∃ g s, (∀ c ∈ r.head?, Elect cfg c g ∧ Sim cfg c g s) ∧
      ∀ d ∈ r, ∀ j, (d.nodes j).state = .leader → Led s d j := by
  induction h with
  | init =>
    refine ⟨record cfg.init fun _ _ ↦ none, Raft.State.init _ _, fun c hc ↦ ?_,
      fun d hd j hj ↦ ?_⟩
    · rw [List.head?_cons, Option.mem_some_iff] at hc
      exact hc ▸ ⟨Elect.init cfg, Sim.init hf⟩
    · rw [List.mem_singleton.mp hd] at hj ⊢
      exact (Sim.init hf).led hj
  | @step c c' r l hr hok hs ih =>
    obtain ⟨g, s, he, hled⟩ := ih
    obtain ⟨he, hsim⟩ := he c rfl
    obtain ⟨s', hs', hsim'⟩ := hsim.step he hok hs
    obtain ⟨-, hgr⟩ := hs'.inv_grows hsim.inv
    refine ⟨record c' g, s', fun d hd ↦ ?_, fun d hd j hj ↦ ?_⟩
    · rw [List.head?_cons, Option.mem_some_iff] at hd
      exact hd ▸ ⟨(he.step hok.keeps hs).elect, hsim'⟩
    · rcases List.mem_cons.mp hd with rfl | hd
      · exact hsim'.led hj
      · exact (hled d hd j hj).grows hgr

/-- **Log matching.**  In every reachable state, two logs that agree in the term of an entry are
the same up to that entry. -/
theorem log_matching (cfg : Config n σ C) (hf : cfg.Fresh) {r : List (Cluster n σ C)}
    (h : Cluster.Run cfg (fun _ l ↦ l.Alive) (c :: r)) (a b : Fin n) {i : ℕ} {e f : LogEntry C}
    (he : (c.nodes a).logs[i]? = some e) (hfi : (c.nodes b).logs[i]? = some f)
    (ht : e.term = f.term) : (c.nodes a).logs.take (i + 1) = (c.nodes b).logs.take (i + 1) := by
  obtain ⟨g, s, hsim, -⟩ := h.sim hf
  obtain ⟨-, hsim⟩ := hsim c rfl
  have ha := hsim.inv.log_rooted a
  have hb := hsim.inv.log_rooted b
  rw [hsim.log] at ha hb
  exact ha.matching hb i e f he hfi ht

/-- A leader and a follower that has taken over its two entries. -/
theorem log_matching_trio :
    let c := trioEnd (fun _ l ↦ l.Alive) [.startElection 0 true, .voteReq 0, .voteReply 0,
      .submit 0 7, .submit 0 8, .sendAes 0, .appendReq 0]
    (c.nodes 0).logs.take 2 = [⟨7, 1⟩, ⟨8, 1⟩] ∧
      (c.nodes 0).logs.take 2 = (c.nodes 1).logs.take 2 := by
  refine ⟨by decide, ?_⟩
  exact log_matching trio trio_fresh (run_trioRun _ _ (by decide)) 0 1 (i := 1) (e := ⟨8, 1⟩)
    (f := ⟨8, 1⟩) (by decide) (by decide) rfl

/-! ## Leader completeness -/

/-- The event is that `v` accepted, in term `t`, a request of the leader that reaches index `i`. -/
def Event.Acks (leader : String) (t i : ℕ) (v : Fin n) : Event n C → Prop
  | .accept w u req => w = v ∧ u = t ∧ req.leader = leader ∧ i < reach req
  | .commit _ _ => False

instance (leader : String) (t i : ℕ) (v : Fin n) : (e : Event n C) →
    Decidable (e.Acks leader t i v)
  | .accept w u req =>
    inferInstanceAs (Decidable (w = v ∧ u = t ∧ req.leader = leader ∧ i < reach req))
  | .commit _ _ => inferInstanceAs (Decidable False)

/-- Node `v` has accepted, in term `t`, a request of the leader that reaches index `i`. -/
def Cluster.Acknowledged (c : Cluster n σ C) (leader : String) (t i : ℕ) (v : Fin n) : Prop :=
  ∃ e ∈ c.trace, e.Acks leader t i v

instance (c : Cluster n σ C) (leader : String) (t i : ℕ) (v : Fin n) :
    Decidable (c.Acknowledged leader t i v) :=
  inferInstanceAs (Decidable (∃ e ∈ c.trace, e.Acks leader t i v))

theorem Sim.acks_of_acknowledged (h : Sim cfg c g s) {leader : String} {t i : ℕ} {v : Fin n}
    (hv : c.Acknowledged leader t i v) : i + 1 ≤ s.acks v t := by
  obtain ⟨e, he, hacks⟩ := hv
  cases e with
  | commit => exact hacks.elim
  | accept w u req =>
    obtain ⟨rfl, rfl, -, hi⟩ := hacks
    exact Nat.succ_le_of_lt (hi.trans_le (h.accepted w u req he).2)

/-- An entry of a leader's own term that a majority acknowledged is confirmed. -/
theorem Sim.confirmed (h : Sim cfg c g s) {d : Cluster n σ C} {a : Fin n} (hd : Led s d a) {i : ℕ}
    {e : LogEntry C} (he : (d.nodes a).logs[i]? = some e)
    (het : e.term = (d.nodes a).currentTerm) {Q : Finset (Fin n)} (hQ : Raft.Majority Q)
    (hack : ∀ v ∈ Q, v = a ∨ c.Acknowledged (cfg.id a) (d.nodes a).currentTerm i v) :
    Raft.Confirmed s LogEntry.term (d.nodes a).currentTerm (i + 1) ∧
      ((s.lead (d.nodes a).currentTerm).take (i + 1))[i]? = some e := by
  have hlt : i < (d.nodes a).logs.length := (List.getElem?_eq_some_iff.mp he).1
  have hlead := Raft.getElem?_of_isPrefix hd.log he
  have hlast : ((s.lead (d.nodes a).currentTerm).take (i + 1))[i]? = some e := by
    rw [List.getElem?_take_of_lt (Nat.lt_succ_self i), hlead]
  refine ⟨⟨⟨Q, hQ, fun v hv ↦ ?_⟩, ?_⟩, hlast⟩
  · rcases hack v hv with rfl | hv
    · exact (Nat.succ_le_of_lt hlt).trans hd.acks
    · exact h.acks_of_acknowledged hv
  · have hlen : ((s.lead (d.nodes a).currentTerm).take (i + 1)).length = i + 1 :=
      List.length_take_of_le (List.getElem?_eq_some_iff.mp hlead).1
    rw [List.getLast?_eq_getElem?, hlen, Nat.add_sub_cancel, hlast, Option.map_some, het]

/-- **Leader completeness.**  An entry of the leader's own term that a majority has acknowledged
is in the log of whoever leads a later term, at every moment. -/
theorem leader_completeness (cfg : Config n σ C) (hf : cfg.Fresh) {r : List (Cluster n σ C)}
    (h : Cluster.Run cfg (fun _ l ↦ l.Alive) (c :: r)) {d : Cluster n σ C} (hd : d ∈ c :: r)
    {a : Fin n} (ha : (d.nodes a).state = .leader) {i : ℕ} {e : LogEntry C}
    (he : (d.nodes a).logs[i]? = some e) (het : e.term = (d.nodes a).currentTerm)
    {Q : Finset (Fin n)} (hQ : Raft.Majority Q)
    (hack : ∀ v ∈ Q, v = a ∨ c.Acknowledged (cfg.id a) (d.nodes a).currentTerm i v)
    {d' : Cluster n σ C} (hd' : d' ∈ c :: r) {b : Fin n} (hb : (d'.nodes b).state = .leader)
    (ht : (d.nodes a).currentTerm < (d'.nodes b).currentTerm) :
    (d'.nodes b).logs[i]? = some e := by
  obtain ⟨g, s, hsim, hled⟩ := h.sim hf
  obtain ⟨-, hsim⟩ := hsim c rfl
  obtain ⟨hconf, hi⟩ := hsim.confirmed (hled d hd a ha) he het hQ hack
  obtain ⟨b', hb', hpre⟩ := (hled d' hd' b hb).base
  exact Raft.getElem?_of_isPrefix ((hsim.inv.complete hconf _ b' ht hb').trans hpre) hi

/-- The follower that has taken over the entry is elected next. -/
theorem leader_completeness_trio :
    let c := trioEnd (fun _ l ↦ l.Alive) [.startElection 0 true, .voteReq 0, .voteReply 0,
      .submit 0 7, .sendAes 0, .appendReq 0, .startElection 1 true, .voteReq 2, .voteReply 0]
    (c.nodes 1).state = .leader ∧ (c.nodes 1).currentTerm = 2 ∧
      (c.nodes 1).logs[0]? = some ⟨7, 1⟩ := by
  refine ⟨by decide, by decide, ?_⟩
  exact leader_completeness trio trio_fresh (run_trioRun _ _ (by decide)) List.mem_cons_self
    (a := 0) (by decide) (e := ⟨7, 1⟩) (by decide) (by decide) (Q := {0, 1}) (by decide) (by decide)
    List.mem_cons_self (by decide) (by decide)

end Efis
