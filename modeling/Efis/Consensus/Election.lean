import Efis.Consensus.Steps
import Efis.Raft.Quorum
import Mathlib.Data.List.Perm.Subperm
import Mathlib.Data.Fintype.Card
import Mathlib.Data.List.Nodup

/-!
# One leader a term

A candidate counts the replies that grant it a vote, and not the nodes they come from.  That a
count of `quorum` stands for as many different voters is an invariant over the messages under
way: a request to `v`, or a granted reply from `v`, is a `Ballot` that `v` can still add to the
count, and no ballot is there twice, nor together with a vote that was counted already.

Who voted for whom is recorded in a function `g : Fin n → ℕ → Option String`, which is not part of
the source.  A node's `votedFor` is the record of its current term.  The record is only ever
extended, and a leader has a majority in it, so that two leaders of one term, at whatever times
they led, have a voter in common.

Crashes come in at one place only: the term and the vote a node restarts with are those it
crashed with.  `Keeps` says this of a step, and `keeps_of_stored` derives it from the storage law.
-/

set_option autoImplicit false

namespace Efis

variable {n : ℕ} {σ C : Type}

/-! ## Steps that do not count votes -/

/-- The term does not decrease, and within a term a vote is not taken back. -/
def Later {P : Type} (m m' : Consensus σ C P) : Prop :=
  m.currentTerm < m'.currentTerm ∨
    (m'.currentTerm = m.currentTerm ∧ (m.votedFor = none ∨ m'.votedFor = m.votedFor))

theorem Later.le {P : Type} {m m' : Consensus σ C P} (h : Later m m') :
    m.currentTerm ≤ m'.currentTerm := by
  rcases h with h | ⟨h, -⟩ <;> omega

theorem Later.trans {P : Type} {m m' m'' : Consensus σ C P} (h : Later m m') (h' : Later m' m'') :
    Later m m'' := by
  rcases h with h | ⟨ht, hv⟩ <;> rcases h' with h' | ⟨ht', hv'⟩
  · exact Or.inl (h.trans h')
  · exact Or.inl (ht' ▸ h)
  · exact Or.inl (ht ▸ h')
  · refine Or.inr ⟨ht'.trans ht, ?_⟩
    rcases hv with hv | hv
    · exact Or.inl hv
    · rw [hv] at hv'
      exact hv'

/-- The node has not become a candidate or a leader, nor counted a vote. -/
structure Quiet {P : Type} (m m' : Consensus σ C P) : Prop where
  id : m'.id = m.id
  peers : m'.peers = m.peers
  later : Later m m'
  role : m'.state ≠ .follower →
    m'.state = m.state ∧ m'.currentTerm = m.currentTerm ∧ m'.voteCount = m.voteCount

namespace Quiet

variable {P : Type} {m m' m'' : Consensus σ C P}

theorem of_same (h : Same m m') : Quiet m m' :=
  ⟨h.id, h.peers, Or.inr ⟨h.currentTerm, Or.inr h.votedFor⟩,
    fun _ ↦ ⟨h.state, h.currentTerm, h.voteCount⟩⟩

theorem rfl : Quiet m m := of_same Same.rfl

theorem trans (h : Quiet m m') (h' : Quiet m' m'') : Quiet m m'' where
  id := h'.id.trans h.id
  peers := h'.peers.trans h.peers
  later := h.later.trans h'.later
  role hs := by
    obtain ⟨hs', ht', hc'⟩ := h'.role hs
    obtain ⟨hs'', ht, hc⟩ := h.role (hs' ▸ hs)
    exact ⟨hs'.trans hs'', ht'.trans ht, hc'.trans hc⟩

variable [Storage σ C]

theorem becomeFollower {t : ℕ} (h : m.currentTerm < t) : Quiet m (m.becomeFollower t) :=
  ⟨Eq.refl _, Eq.refl _, Or.inl h, fun hs ↦ absurd (Eq.refl _) hs⟩

theorem stepDown (m : Consensus σ C P) (t : ℕ) : Quiet m (m.stepDown t) := by
  rw [Consensus.stepDown]
  split
  · rename_i h
    exact becomeFollower h
  · exact Quiet.rfl

theorem requestVote (m : Consensus σ C P) (req : RequestVote) :
    Quiet m (m.requestVote req).1 := by
  rcases m.requestVote_cases req with h | ⟨-, hv, -, h⟩ | h
  · rw [h]
    exact Quiet.rfl
  · rw [h]
    refine (stepDown m req.term).trans ⟨Eq.refl _, Eq.refl _, Or.inr ⟨Eq.refl _, ?_⟩,
      fun _ ↦ ⟨Eq.refl _, Eq.refl _, Eq.refl _⟩⟩
    exact hv.imp (fun hv ↦ hv) fun hv ↦ hv.symm
  · rw [h]
    exact stepDown m req.term

theorem appendEntries (m : Consensus σ C P) (req : AppendEntries C) :
    Quiet m (m.appendEntries req).1 := by
  rcases m.appendEntries_cases req with h | ⟨c, _, h, -, hs, -⟩ | ⟨c, h, -, -, hs, -⟩
  · rw [h]
    exact Quiet.rfl
  · rw [h]
    exact (stepDown m req.term).trans (of_same hs)
  · rw [h]
    refine (stepDown m req.term).trans
      ⟨hs.id, hs.peers, Or.inr ⟨hs.currentTerm, Or.inr hs.votedFor⟩, fun _ ↦ ?_⟩
    exact ⟨hs.state, hs.currentTerm, hs.voteCount⟩

theorem onSubmit (m : Consensus σ C P) (cmd : C) : Quiet m (m.onSubmit cmd) := by
  rcases m.onSubmit_cases cmd with h | ⟨-, hs, -⟩
  · rw [h]
    exact Quiet.rfl
  · exact ⟨hs.id, hs.peers, Or.inr ⟨hs.currentTerm, Or.inr hs.votedFor⟩,
      fun _ ↦ ⟨hs.state, hs.currentTerm, hs.voteCount⟩⟩

theorem handleAeRes {peerId ni : ℕ} {reply : AppendEntriesReply}
    (h : m.handleAeRes peerId ni reply = some m') : Quiet m m' := by
  rcases m.handleAeRes_cases h with ⟨hlt, rfl⟩ | ⟨hs, -⟩ | ⟨hs, -⟩
  · exact becomeFollower hlt
  · exact of_same hs
  · exact of_same hs

end Quiet

/-! ## Restarts -/

section

variable {P : Type} [Storage σ C] (m : Consensus σ C P)

theorem new_currentTerm (id : String) (st : σ) :
    (Consensus.new id st : Consensus σ C P).currentTerm = (metaOf st).1 := by
  simp only [Consensus.new, Consensus.restoreState, metaOf]
  cases Storage.restore st <;> rfl

theorem new_votedFor (id : String) (st : σ) :
    (Consensus.new id st : Consensus σ C P).votedFor = (metaOf st).2 := by
  simp only [Consensus.new, Consensus.restoreState, metaOf]
  cases Storage.restore st <;> rfl

theorem new_state (id : String) (st : σ) :
    (Consensus.new id st : Consensus σ C P).state = .follower := by
  simp only [Consensus.new, Consensus.restoreState]
  cases Storage.restore st <;> rfl

theorem new_id (id : String) (st : σ) : (Consensus.new id st : Consensus σ C P).id = id := by
  simp only [Consensus.new, Consensus.restoreState]
  cases Storage.restore st <;> rfl

theorem new_storage (id : String) (st : σ) :
    (Consensus.new id st : Consensus σ C P).storage = st := by
  simp only [Consensus.new, Consensus.restoreState]
  cases Storage.restore st <;> rfl

/-- The storage has the term and the vote of the node. -/
def Stored : Prop := metaOf m.storage = (m.currentTerm, m.votedFor)

variable {m}

theorem Quiet.reboot {st : σ} (h : metaOf st = (m.currentTerm, m.votedFor)) :
    Quiet m (m.reboot st) where
  id := new_id m.id st
  peers := Eq.refl _
  later := Or.inr ⟨(new_currentTerm m.id st).trans (by rw [h]),
    Or.inr ((new_votedFor m.id st).trans (by rw [h]))⟩
  role hs := absurd (new_state m.id st) hs

end

/-- A crash in this step leaves the term and the vote the node had. -/
def Keeps [Storage σ C] (c : Cluster n σ C) : Label n σ C → Prop
  | .restart i left => metaOf left = ((c.nodes i).currentTerm, (c.nodes i).votedFor)
  | .crashVote k left => ∀ m, c.voteReqs[k]? = some m →
    let c' := (c.nodes m.dst).stepDown m.req.term
    metaOf left = (c'.currentTerm, c'.votedFor)
  | .crashAppend k left => ∀ m, c.appendReqs[k]? = some m →
    let c' := (c.nodes m.call.client).stepDown m.call.req.term
    metaOf left = (c'.currentTerm, c'.votedFor)
  | _ => True

/-! ## The invariant -/

/-- A vote that `dst` can still add to the count of `src` in the given term. -/
structure Ballot (n : ℕ) where
  src : Fin n
  dst : Fin n
  term : ℕ

def VoteCall.ballot (m : VoteCall n) : Ballot n := ⟨m.src, m.dst, m.req.term⟩

/-- The ballots under way: the requests, and the replies that grant a vote. -/
def ballots (c : Cluster n σ C) : List (Ballot n) :=
  c.voteReqs.map VoteCall.ballot ++
    (c.voteReplies.filter (·.reply.voted)).map (·.call.ballot)

/-- A majority is on record for `j` in the term. -/
def Elected [Storage σ C] (cfg : Config n σ C) (g : Fin n → ℕ → Option String) (t : ℕ)
    (j : Fin n) : Prop :=
  ∃ S : Finset (Fin n), Raft.Majority S ∧ ∀ v ∈ S, g v t = some (cfg.id j)

/-- The invariant behind election safety, for a record `g` of the votes. -/
structure Elect [Storage σ C] (cfg : Config n σ C) (c : Cluster n σ C)
    (g : Fin n → ℕ → Option String) : Prop where
  id : ∀ v, (c.nodes v).id = cfg.id v
  peers : ∀ v, (c.nodes v).peers.map Prod.snd = (cfg.urls v).map Prod.snd
  vote : ∀ v, g v (c.nodes v).currentTerm = (c.nodes v).votedFor
  fresh : ∀ v t, (c.nodes v).currentTerm < t → g v t = none
  nodup : (ballots c).Nodup
  ballot : ∀ b ∈ ballots c, b.term ≤ (c.nodes b.src).currentTerm
  asked : ∀ m ∈ c.voteReqs, m.req.candidateId = cfg.id m.src
  granted : ∀ m ∈ c.voteReplies, m.reply.voted = true →
    m.reply.term = m.call.req.term ∧ g m.call.dst m.reply.term = some (cfg.id m.call.src)
  cand : ∀ i, (c.nodes i).state = .candidate → ∃ S : Finset (Fin n),
    S.card = (c.nodes i).voteCount ∧ ∀ v ∈ S,
      g v (c.nodes i).currentTerm = some (cfg.id i) ∧ ⟨i, v, (c.nodes i).currentTerm⟩ ∉ ballots c
  lead : ∀ i, (c.nodes i).state = .leader → Elected cfg g (c.nodes i).currentTerm i
  pos : ∀ i, (c.nodes i).state = .candidate → 0 < (c.nodes i).currentTerm

/-- Enter the votes of a state into the record. -/
def record (c : Cluster n σ C) (g : Fin n → ℕ → Option String) : Fin n → ℕ → Option String :=
  fun v ↦ Function.update (g v) (c.nodes v).currentTerm (c.nodes v).votedFor

theorem record_self (c : Cluster n σ C) (g : Fin n → ℕ → Option String) (v : Fin n) :
    record c g v (c.nodes v).currentTerm = (c.nodes v).votedFor := Function.update_self ..

theorem record_of_ne (c : Cluster n σ C) (g : Fin n → ℕ → Option String) {v : Fin n} {t : ℕ}
    (h : t ≠ (c.nodes v).currentTerm) : record c g v t = g v t := Function.update_of_ne h ..

/-- The votes of a state in between do not show, if the terms stay. -/
theorem record_record {c c' : Cluster n σ C} (g : Fin n → ℕ → Option String)
    (h : ∀ v, (c'.nodes v).currentTerm = (c.nodes v).currentTerm) :
    record c' (record c g) = record c' g := by
  funext v t
  by_cases ht : t = (c'.nodes v).currentTerm
  · rw [ht, record_self, record_self]
  · rw [record_of_ne _ _ ht, record_of_ne _ _ ht, record_of_ne _ _ (h v ▸ ht)]

section

variable [Storage σ C] {cfg : Config n σ C} {c c' : Cluster n σ C}
  {g g' : Fin n → ℕ → Option String}

theorem Elected.mono {t : ℕ} {j : Fin n} (h : Elected cfg g t j)
    (hg : ∀ v t a, g v t = some a → g' v t = some a) : Elected cfg g' t j := by
  obtain ⟨S, hS, hv⟩ := h
  exact ⟨S, hS, fun v hvS ↦ hg v t _ (hv v hvS)⟩

/-- **Whoever has a majority in a term is the only one.** -/
theorem Elected.unique {t : ℕ} {i j : Fin n} (hi : Elected cfg g t i) (hj : Elected cfg g t j) :
    i = j := by
  obtain ⟨S, hS, hSi⟩ := hi
  obtain ⟨R, hR, hRj⟩ := hj
  obtain ⟨v, hvS, hvR⟩ := hS.inter hR
  have h := (hSi v hvS).symm.trans (hRj v hvR)
  exact cfg.id_injective (Option.some_inj.mp h)

/-- The record is only extended. -/
theorem Elect.record_of_some (he : Elect cfg c g)
    (hl : ∀ v, Later (c.nodes v) (c'.nodes v)) {v : Fin n} {t : ℕ} {a : String}
    (h : g v t = some a) : record c' g v t = some a := by
  by_cases ht : t = (c'.nodes v).currentTerm
  · rcases hl v with hlt | ⟨hterm, hvote⟩
    · rw [he.fresh v t (ht ▸ hlt)] at h
      cases h
    · rw [ht, hterm, he.vote] at h
      rw [ht, record_self]
      rcases hvote with hvote | hvote
      · rw [hvote] at h
        cases h
      · rw [hvote, h]
  · rw [record_of_ne _ _ ht, h]

/-- A state with the same terms and votes adds nothing. -/
theorem Elect.record_eq (he : Elect cfg c g)
    (h : ∀ v, (c'.nodes v).currentTerm = (c.nodes v).currentTerm ∧
      (c'.nodes v).votedFor = (c.nodes v).votedFor) : record c' g = g := by
  funext v t
  by_cases ht : t = (c'.nodes v).currentTerm
  · rw [ht, record_self, (h v).1, (h v).2, he.vote]
  · exact record_of_ne _ _ ht

/-- A node without a vote adds nothing either. -/
theorem Elect.of_record (he : Elect cfg c g) {i : Fin n} {m : Consensus σ C (Fin n)}
    (hm : m.votedFor = none) {v : Fin n} {t : ℕ} {a : String}
    (h : record (c.set i m) g v t = some a) : g v t = some a := by
  by_cases ht : t = ((c.set i m).nodes v).currentTerm
  · rw [ht, record_self] at h
    by_cases hv : v = i
    · rw [hv, Cluster.set_self, hm] at h
      cases h
    · rw [Cluster.set_of_ne _ _ hv] at ht h
      rw [ht, he.vote v, h]
  · rwa [record_of_ne _ _ ht] at h

theorem Elect.record_fresh (he : Elect cfg c g) (hl : ∀ v, Later (c.nodes v) (c'.nodes v))
    (v : Fin n) (t : ℕ) (h : (c'.nodes v).currentTerm < t) : record c' g v t = none := by
  rw [record_of_ne _ _ h.ne']
  exact he.fresh v t ((hl v).le.trans_lt h)

/-- A node has all the others as its peers. -/
theorem Config.length_urls (cfg : Config n σ C) (i : Fin n) : (cfg.urls i).length + 1 = n := by
  have hcard : ((cfg.urls i).map Prod.snd).toFinset = Finset.univ.erase i := by
    ext j
    rw [List.mem_toFinset, cfg.mem_urls]
    simp
  have hlen := congrArg Finset.card hcard
  rw [List.toFinset_card_of_nodup (cfg.nodup i), Finset.card_erase_of_mem (Finset.mem_univ i),
    Finset.card_univ, Fintype.card_fin, List.length_map] at hlen
  have := i.pos
  omega

theorem Elect.peers_length (he : Elect cfg c g) (i : Fin n) :
    (c.nodes i).peers.length + 1 = n := by
  have hlen := congrArg List.length (he.peers i)
  rw [List.length_map, List.length_map] at hlen
  rw [hlen, cfg.length_urls i]

/-- The invariant holds in the next state, once its votes are on record. -/
structure Next (cfg : Config n σ C) (c' : Cluster n σ C) (g : Fin n → ℕ → Option String) :
    Prop where
  elect : Elect cfg c' (record c' g)
  grows : ∀ v t a, g v t = some a → record c' g v t = some a

/-- Nobody counts a vote or starts an election, and no ballot is added. -/
theorem Elect.quiet (he : Elect cfg c g) (hq : ∀ v, Quiet (c.nodes v) (c'.nodes v))
    (hb : (ballots c').Subperm (ballots c)) (hreq : ∀ m ∈ c'.voteReqs, m ∈ c.voteReqs)
    (hrep : ∀ m ∈ c'.voteReplies, m ∈ c.voteReplies ∨ (m.reply.voted = true →
      m.reply.term = m.call.req.term ∧ (c'.nodes m.call.dst).currentTerm = m.reply.term ∧
        (c'.nodes m.call.dst).votedFor = some (cfg.id m.call.src))) :
    Next cfg c' g := by
  have hl : ∀ v, Later (c.nodes v) (c'.nodes v) := fun v ↦ (hq v).later
  refine ⟨?_, fun v t a h ↦ he.record_of_some hl h⟩
  constructor
  case id => exact fun v ↦ (hq v).id.trans (he.id v)
  case peers =>
    intro v
    rw [(hq v).peers, he.peers v]
  case vote => exact record_self c' g
  case fresh => exact he.record_fresh hl
  case nodup =>
    obtain ⟨l, hl, hsub⟩ := hb
    exact hl.nodup_iff.mp (he.nodup.sublist hsub)
  case ballot => exact fun b h ↦ (he.ballot b (hb.subset h)).trans (hl b.src).le
  case asked => exact fun m h ↦ he.asked m (hreq m h)
  case granted =>
    intro m h hv
    rcases hrep m h with h | h
    · obtain ⟨ht, hg⟩ := he.granted m h hv
      exact ⟨ht, he.record_of_some hl hg⟩
    · obtain ⟨ht, hterm, hvote⟩ := h hv
      exact ⟨ht, by rw [← hterm, record_self, hvote]⟩
  case cand =>
    intro i hi
    obtain ⟨hs, ht, hc⟩ := (hq i).role (by rw [hi]; decide)
    obtain ⟨S, hcard, hS⟩ := he.cand i (hs ▸ hi)
    refine ⟨S, hcard.trans hc.symm, fun v hv ↦ ?_⟩
    rw [ht]
    obtain ⟨hg, hnot⟩ := hS v hv
    exact ⟨he.record_of_some hl hg, fun h ↦ hnot (hb.subset h)⟩
  case lead =>
    intro i hi
    obtain ⟨hs, ht, -⟩ := (hq i).role (by rw [hi]; decide)
    rw [ht]
    exact (he.lead i (hs ▸ hi)).mono fun v t a h ↦ he.record_of_some hl h
  case pos =>
    intro i hi
    obtain ⟨hs, ht, -⟩ := (hq i).role (by rw [hi]; decide)
    rw [ht]
    exact he.pos i (hs ▸ hi)

/-! ## Ballots -/

omit [Storage σ C] in
theorem ballots_erase_req {k : ℕ} {m : VoteCall n} (h : c.voteReqs[k]? = some m) :
    (m.ballot :: ballots { c with voteReqs := c.voteReqs.eraseIdx k }).Perm (ballots c) := by
  obtain ⟨hk, rfl⟩ := List.getElem?_eq_some_iff.mp h
  exact ((List.getElem_cons_eraseIdx_perm hk).map VoteCall.ballot).append_right _

omit [Storage σ C] in
theorem ballots_erase_reply {k : ℕ} {m : VoteAnswer n} (h : c.voteReplies[k]? = some m)
    (hv : m.reply.voted = true) :
    (m.call.ballot :: ballots { c with voteReplies := c.voteReplies.eraseIdx k }).Perm
      (ballots c) := by
  obtain ⟨hk, rfl⟩ := List.getElem?_eq_some_iff.mp h
  have hp := (List.getElem_cons_eraseIdx_perm hk).filter (·.reply.voted)
  rw [List.filter_cons_of_pos (p := fun x : VoteAnswer n ↦ x.reply.voted) hv] at hp
  exact List.perm_middle.symm.trans ((hp.map (·.call.ballot)).append_left _)

omit [Storage σ C] in
theorem ballots_erase_reply_subperm (k : ℕ) :
    (ballots { c with voteReplies := c.voteReplies.eraseIdx k }).Subperm (ballots c) :=
  (((c.voteReplies.eraseIdx_sublist k).filter _).map _).append_left _ |>.subperm

/-! ## Elections -/

omit [Storage σ C] in
/-- The ballots after node `i` asked its peers for their votes in term `t`. -/
theorem mem_ballots_start {i : Fin n} {t : ℕ} {ps : List (Fin n)} {reqs : List (VoteCall n)}
    (hreqs : reqs.map VoteCall.ballot = ps.map fun j ↦ ⟨i, j, t⟩) :
    (ballots { c with voteReqs := c.voteReqs ++ reqs }).Perm
      (ballots c ++ ps.map fun j ↦ ⟨i, j, t⟩) := by
  rw [ballots, List.map_append, hreqs, ballots, List.append_assoc, List.append_assoc]
  exact List.perm_append_comm.append_left _

theorem Elect.startElection (he : Elect cfg c g) {i : Fin n} {m : Consensus σ C (Fin n)}
    (hm : Same { c.nodes i with
      state := .candidate, currentTerm := (c.nodes i).currentTerm + 1,
      votedFor := some (c.nodes i).id, voteCount := 1 } m)
    {reqs : List (VoteCall n)}
    (hreqs : reqs.map VoteCall.ballot = ((cfg.urls i).map Prod.snd).map fun j ↦
      ⟨i, j, (c.nodes i).currentTerm + 1⟩)
    (hask : ∀ r ∈ reqs, r.req.candidateId = cfg.id r.src)
    (hc' : c' = { c.set i m with voteReqs := c.voteReqs ++ reqs }) :
    Next cfg c' g := by
  have hi : c'.nodes i = m := by rw [hc']; exact c.set_self i m
  have hne : ∀ v, v ≠ i → c'.nodes v = c.nodes v := by
    rw [hc']
    exact fun v hv ↦ c.set_of_ne m hv
  have hl : ∀ v, Later (c.nodes v) (c'.nodes v) := by
    intro v
    by_cases hv : v = i
    · rw [hv, hi]
      exact Or.inl (by rw [hm.currentTerm]; exact Nat.lt_succ_self _)
    · rw [hne v hv]
      exact Or.inr ⟨rfl, Or.inr rfl⟩
  have hperm : (ballots c').Perm _ := hc' ▸ mem_ballots_start (c := c.set i m) hreqs
  have hmem : ∀ b, b ∈ ballots c' →
      b ∈ ballots c ∨ b.src = i ∧ b.dst ≠ i ∧ b.term = (c.nodes i).currentTerm + 1 := by
    intro b hb
    rcases List.mem_append.mp (hperm.mem_iff.mp hb) with hb | hb
    · exact Or.inl hb
    · obtain ⟨j, hj, rfl⟩ := List.mem_map.mp hb
      exact Or.inr ⟨rfl, (cfg.mem_urls i j).mp hj, rfl⟩
  -- the new term is later than that of any ballot of `i`
  have hnew : ∀ v, ⟨i, v, (c.nodes i).currentTerm + 1⟩ ∉ ballots c := by
    intro v hv
    have := he.ballot _ hv
    simp only at this
    omega
  refine ⟨?_, fun v t a h ↦ he.record_of_some hl h⟩
  constructor
  case id =>
    intro v
    by_cases hv : v = i
    · rw [hv, hi, hm.id]
      exact he.id i
    · rw [hne v hv, he.id v]
  case peers =>
    intro v
    by_cases hv : v = i
    · rw [hv, hi, hm.peers]
      exact he.peers i
    · rw [hne v hv, he.peers v]
  case vote => exact record_self c' g
  case fresh => exact he.record_fresh hl
  case nodup =>
    refine hperm.nodup_iff.mpr (List.Nodup.append he.nodup ?_ ?_)
    · exact (cfg.nodup i).map fun a b h ↦ by simpa using h
    · intro b hb hb'
      obtain ⟨j, -, rfl⟩ := List.mem_map.mp hb'
      exact hnew j hb
  case ballot =>
    intro b hb
    rcases hmem b hb with hb | ⟨hs, -, ht⟩
    · exact (he.ballot b hb).trans (hl b.src).le
    · rw [hs, hi, hm.currentTerm, ht]
  case asked =>
    intro r hr
    rw [hc'] at hr
    rcases List.mem_append.mp hr with hr | hr
    · exact he.asked r hr
    · exact hask r hr
  case granted =>
    intro a ha hv
    rw [hc'] at ha
    obtain ⟨ht, hg⟩ := he.granted a ha hv
    exact ⟨ht, he.record_of_some hl hg⟩
  case cand =>
    intro v hv
    by_cases hvi : v = i
    · subst hvi
      refine ⟨{v}, ?_, fun w hw ↦ ?_⟩
      · rw [hi, hm.voteCount, Finset.card_singleton]
      · rw [Finset.mem_singleton.mp hw]
        refine ⟨by rw [record_self, hi, hm.votedFor, he.id], fun hb ↦ ?_⟩
        rcases hmem _ hb with hb | ⟨-, hdst, -⟩
        · rw [hi, hm.currentTerm] at hb
          exact hnew v hb
        · exact hdst rfl
    · rw [hne v hvi] at hv ⊢
      obtain ⟨S, hcard, hS⟩ := he.cand v hv
      refine ⟨S, hcard, fun w hw ↦ ⟨he.record_of_some hl (hS w hw).1, fun hb ↦ ?_⟩⟩
      rcases hmem _ hb with hb | ⟨hs, -, -⟩
      · exact (hS w hw).2 hb
      · exact hvi hs
  case lead =>
    intro v hv
    by_cases hvi : v = i
    · rw [hvi, hi, hm.state] at hv
      cases hv
    · rw [hne v hvi] at hv ⊢
      exact (he.lead v hv).mono fun w t a h ↦ he.record_of_some hl h
  case pos =>
    intro v hv
    by_cases hvi : v = i
    · rw [hvi, hi, hm.currentTerm]
      exact Nat.succ_pos _
    · rw [hne v hvi] at hv ⊢
      exact he.pos v hv

/-- A granted vote is counted, and may win the election. -/
theorem Elect.count (he : Elect cfg c g) {k : ℕ} {a : VoteAnswer n}
    (ha : c.voteReplies[k]? = some a) (hv : a.reply.voted = true)
    (hcand : (c.nodes a.call.src).state = .candidate)
    (hterm : a.reply.term = (c.nodes a.call.src).currentTerm) {m : Consensus σ C (Fin n)}
    (hm : Same { c.nodes a.call.src with
      voteCount := (c.nodes a.call.src).voteCount + 1, state := m.state } m)
    (hst : m.state = .candidate ∨ (m.state = .leader ∧
      ((c.nodes a.call.src).peers.length + 1) / 2 + 1 ≤ (c.nodes a.call.src).voteCount + 1))
    (hc' : c' = { c with voteReplies := c.voteReplies.eraseIdx k }.set a.call.src m) :
    Next cfg c' g := by
  have hi : c'.nodes a.call.src = m := by rw [hc']; exact Cluster.set_self ..
  have hne : ∀ v, v ≠ a.call.src → c'.nodes v = c.nodes v := by
    rw [hc']
    exact fun v hv ↦ Cluster.set_of_ne _ m hv
  have hl : ∀ v, Later (c.nodes v) (c'.nodes v) := by
    intro v
    by_cases hv : v = a.call.src
    · rw [hv, hi]
      exact Or.inr ⟨hm.currentTerm, Or.inr hm.votedFor⟩
    · rw [hne v hv]
      exact Or.inr ⟨rfl, Or.inr rfl⟩
  have hlt : ∀ v, (c'.nodes v).currentTerm = (c.nodes v).currentTerm := by
    intro v
    by_cases hv : v = a.call.src
    · rw [hv, hi, hm.currentTerm]
    · rw [hne v hv]
  obtain ⟨hreq, hg⟩ := he.granted a (List.mem_of_getElem? ha) hv
  have hperm : (a.call.ballot :: ballots c').Perm (ballots c) :=
    hc' ▸ ballots_erase_reply ha hv
  have hsub : ∀ b ∈ ballots c', b ∈ ballots c := fun b hb ↦
    hperm.mem_iff.mp (List.mem_cons_of_mem _ hb)
  have hnodup := List.nodup_cons.mp (hperm.nodup_iff.mpr he.nodup)
  have hballot : a.call.ballot = ⟨a.call.src, a.call.dst, (c.nodes a.call.src).currentTerm⟩ := by
    rw [VoteCall.ballot, ← hreq, hterm]
  -- the voter was not counted before, since its ballot was still there
  obtain ⟨S, hcard, hS⟩ := he.cand a.call.src hcand
  have hnew : a.call.dst ∉ S := by
    intro h
    refine (hS _ h).2 (hballot ▸ hperm.mem_iff.mp List.mem_cons_self)
  have hS' : ∀ v ∈ insert a.call.dst S,
      record c' g v (c.nodes a.call.src).currentTerm = some (cfg.id a.call.src) ∧
        ⟨a.call.src, v, (c.nodes a.call.src).currentTerm⟩ ∉ ballots c' := by
    intro v hvS
    rcases Finset.mem_insert.mp hvS with rfl | hvS
    · exact ⟨he.record_of_some hl (hterm ▸ hg), hballot ▸ hnodup.1⟩
    · exact ⟨he.record_of_some hl (hS v hvS).1, fun h ↦ (hS v hvS).2 (hsub _ h)⟩
  have hcard' : (insert a.call.dst S).card = (c.nodes a.call.src).voteCount + 1 := by
    rw [Finset.card_insert_of_notMem hnew, hcard]
  refine ⟨?_, fun v t a h ↦ he.record_of_some hl h⟩
  constructor
  case id =>
    intro v
    by_cases hv : v = a.call.src
    · rw [hv, hi, hm.id]
      exact he.id _
    · rw [hne v hv, he.id v]
  case peers =>
    intro v
    by_cases hv : v = a.call.src
    · rw [hv, hi, hm.peers]
      exact he.peers _
    · rw [hne v hv, he.peers v]
  case vote => exact record_self c' g
  case fresh => exact he.record_fresh hl
  case nodup => exact hnodup.2
  case ballot => exact fun b hb ↦ (he.ballot b (hsub b hb)).trans (hl b.src).le
  case asked =>
    intro r hr
    rw [hc'] at hr
    exact he.asked r hr
  case granted =>
    intro b hb hbv
    rw [hc'] at hb
    obtain ⟨ht, hg⟩ := he.granted b ((c.voteReplies.eraseIdx_sublist k).subset hb) hbv
    exact ⟨ht, he.record_of_some hl hg⟩
  case cand =>
    intro v hvc
    by_cases hvi : v = a.call.src
    · rw [hvi, hlt, hi, hm.voteCount]
      exact ⟨_, hcard', hS'⟩
    · rw [hne v hvi] at hvc ⊢
      obtain ⟨R, hR, hRv⟩ := he.cand v hvc
      exact ⟨R, hR, fun w hw ↦
        ⟨he.record_of_some hl (hRv w hw).1, fun h ↦ (hRv w hw).2 (hsub _ h)⟩⟩
  case lead =>
    intro v hvc
    by_cases hvi : v = a.call.src
    · rw [hvi, hlt]
      refine ⟨_, ?_, fun w hw ↦ (hS' w hw).1⟩
      rw [hvi, hi] at hvc
      rcases hst with hst | ⟨-, hq⟩
      · rw [hst] at hvc
        cases hvc
      · rw [Raft.Majority, hcard', Fintype.card_fin]
        have := he.peers_length a.call.src
        omega
    · rw [hne v hvi] at hvc ⊢
      exact (he.lead v hvc).mono fun w t b h ↦ he.record_of_some hl h
  case pos =>
    intro v hvc
    rw [hlt]
    by_cases hvi : v = a.call.src
    · rw [hvi]
      exact he.pos _ hcand
    · rw [hne v hvi] at hvc
      exact he.pos v hvc

/-! ## Every step -/

omit [Storage σ C] in
/-- Only node `i` has changed. -/
theorem quiet_set {i : Fin n} {m : Consensus σ C (Fin n)} (h : Quiet (c.nodes i) m) (v : Fin n) :
    Quiet (c.nodes v) ((c.set i m).nodes v) := by
  by_cases hv : v = i
  · rw [hv, Cluster.set_self]
    exact h
  · rw [Cluster.set_of_ne _ _ hv]
    exact Quiet.rfl

/-- A step that touches no vote message. -/
theorem Elect.frame (he : Elect cfg c g) (hq : ∀ v, Quiet (c.nodes v) (c'.nodes v))
    (hreq : c'.voteReqs = c.voteReqs) (hrep : c'.voteReplies = c.voteReplies) :
    Next cfg c' g := by
  have hb : ballots c' = ballots c := by rw [ballots, hreq, hrep, ballots]
  refine he.quiet hq (hb ▸ List.Subperm.refl _) (fun m h ↦ hreq ▸ h) fun m h ↦ Or.inl (hrep ▸ h)

theorem Elect.requestVote (he : Elect cfg c g) {k : ℕ} {m : VoteCall n}
    (hm : c.voteReqs[k]? = some m)
    (hc' : c' = { c with voteReqs := c.voteReqs.eraseIdx k }.requestVote m) :
    Next cfg c' g := by
  have hperm := ballots_erase_req hm
  have hq : ∀ v, Quiet (c.nodes v) (c'.nodes v) := by
    rw [hc']
    exact quiet_set (Quiet.requestVote (c.nodes m.dst) m.req)
  have hreq : ∀ a ∈ c'.voteReqs, a ∈ c.voteReqs := by
    rw [hc']
    exact fun a ha ↦ (c.voteReqs.eraseIdx_sublist k).subset ha
  have hdst : c'.nodes m.dst = ((c.nodes m.dst).requestVote m.req).1 := by
    rw [hc']
    exact Function.update_self ..
  have hask := he.asked m (List.mem_of_getElem? hm)
  rcases (c.nodes m.dst).requestVote_cases m.req with h | ⟨hterm, -, -, h⟩ | h
  · rw [Cluster.requestVote, h] at hc'
    have hb : ballots c' = ballots { c with voteReqs := c.voteReqs.eraseIdx k } := by
      rw [hc', ballots, ballots]
      simp [Cluster.set]
    refine he.quiet hq (hb ▸ ?_) hreq fun a ha ↦ Or.inl ?_
    · exact (List.sublist_cons_self _ _).subperm.trans hperm.subperm
    · rw [hc'] at ha
      simpa using ha
  · rw [h] at hdst
    rw [Cluster.requestVote, h] at hc'
    have hb : (ballots c').Perm (ballots c) := by
      refine List.Perm.trans ?_ hperm
      rw [hc', ballots]
      simp only [List.filter_append, List.map_append, ← List.append_assoc]
      exact List.perm_append_singleton _ _
    refine he.quiet hq hb.subperm hreq fun a ha ↦ ?_
    rw [hc'] at ha
    rcases List.mem_append.mp ha with ha | ha
    · exact Or.inl ha
    · rw [List.mem_singleton.mp ha]
      exact Or.inr fun _ ↦ ⟨hterm.symm, by rw [hdst]; rfl, by rw [hdst, ← hask]; rfl⟩
  · rw [Cluster.requestVote, h] at hc'
    have hb : ballots c' = ballots { c with voteReqs := c.voteReqs.eraseIdx k } := by
      rw [hc', ballots, ballots]
      simp [Cluster.set]
    refine he.quiet hq (hb ▸ ?_) hreq fun a ha ↦ ?_
    · exact (List.sublist_cons_self _ _).subperm.trans hperm.subperm
    · rw [hc'] at ha
      rcases List.mem_append.mp ha with ha | ha
      · exact Or.inl ha
      · rw [List.mem_singleton.mp ha]
        exact Or.inr fun hv ↦ by cases hv

theorem Elect.voteResult (he : Elect cfg c g) {k : ℕ} {a : VoteAnswer n}
    (ha : c.voteReplies[k]? = some a)
    (hc' : c' = { c with voteReplies := c.voteReplies.eraseIdx k }.voteResult a) :
    Next cfg c' g := by
  have quiet : Quiet (c.nodes a.call.src)
      ((c.nodes a.call.src).onVoteResult a.reply.term a.reply.voted) →
      Next cfg c' g := by
    intro h
    refine he.quiet ?_ ?_ ?_ ?_
    · rw [hc']
      exact quiet_set h
    · rw [hc']
      exact ballots_erase_reply_subperm (c := c) k
    · rw [hc']
      exact fun m hm ↦ hm
    · rw [hc']
      exact fun m hm ↦ Or.inl ((c.voteReplies.eraseIdx_sublist k).subset hm)
  rcases (c.nodes a.call.src).onVoteResult_cases a.reply.term a.reply.voted with
    h | ⟨hlt, h⟩ | ⟨hcand, hterm, hv, h⟩ | ⟨hcand, hterm, hv, hq, h⟩
  · exact quiet (by rw [h]; exact Quiet.rfl)
  · exact quiet (by rw [h]; exact Quiet.becomeFollower hlt)
  · refine he.count ha hv hcand hterm (m := { c.nodes a.call.src with
      voteCount := (c.nodes a.call.src).voteCount + 1 }) ⟨rfl, rfl, rfl, rfl, rfl, rfl, rfl⟩
      (Or.inl hcand) ?_
    rw [hc', Cluster.voteResult, h]
  · refine he.count ha hv hcand hterm (m := Consensus.startLeader { c.nodes a.call.src with
      voteCount := (c.nodes a.call.src).voteCount + 1 }) ⟨rfl, rfl, rfl, rfl, rfl, rfl, rfl⟩
      (Or.inr ⟨rfl, hq⟩) ?_
    rw [hc', Cluster.voteResult, h]

theorem Elect.reboot (he : Elect cfg c g) {i : Fin n} {m : Consensus σ C (Fin n)} {left : σ}
    (hm : Quiet (c.nodes i) m) (hleft : metaOf left = (m.currentTerm, m.votedFor))
    {reqs : List (VoteCall n)} (hreqs : reqs.Sublist c.voteReqs)
    (hn : c'.nodes = (c.set i (m.reboot left)).nodes) (hq : c'.voteReqs = reqs)
    (hr : c'.voteReplies = c.voteReplies) : Next cfg c' g := by
  refine he.quiet ?_ ?_ (fun a ha ↦ hreqs.subset (hq ▸ ha)) fun a ha ↦ Or.inl (hr ▸ ha)
  · intro v
    rw [hn]
    exact quiet_set (hm.trans (Quiet.reboot hleft)) v
  · rw [ballots, hq, hr]
    exact ((hreqs.map _).append_right _).subperm

/-- **Every step keeps the invariant.** -/
theorem Elect.step (he : Elect cfg c g) {l : Label n σ C} (hk : Keeps c l)
    (hs : c.step l = some c') : Next cfg c' g := by
  cases l with
  | startElection i elapsed =>
    simp only [Cluster.step, Cluster.on_eq_some] at hs
    obtain ⟨-, rfl⟩ := hs
    rw [Cluster.startElection]
    rcases (c.nodes i).onStartElection_cases elapsed with h | h | ⟨m, h, hm, -⟩
    · rw [h]
      exact he.frame (fun v ↦ Quiet.rfl) rfl rfl
    · rw [h]
      exact he.frame (quiet_set Quiet.rfl) (List.append_nil _) rfl
    · rw [h]
      refine he.startElection hm ?_ ?_ rfl
      · rw [← he.peers i, ← show m.peers = (c.nodes i).peers from hm.peers]
        simp [VoteCall.ballot]
      · intro r hr
        simp only [List.map_map, List.mem_map] at hr
        obtain ⟨p, -, rfl⟩ := hr
        exact he.id i
  | submit i cmd =>
    simp only [Cluster.step, Cluster.on_eq_some] at hs
    obtain ⟨-, rfl⟩ := hs
    exact he.frame (quiet_set (Quiet.onSubmit _ cmd)) rfl rfl
  | sendAes i =>
    simp only [Cluster.step, Cluster.on_eq_some] at hs
    obtain ⟨-, rfl⟩ := hs
    rw [Cluster.sendAes]
    split
    · exact he.frame (fun v ↦ Quiet.rfl) rfl rfl
    · rename_i m calls h
      exact he.frame (quiet_set (Quiet.of_same (Consensus.sendLeaderAes_spec _ h).1)) rfl rfl
  | sendCommit i =>
    simp only [Cluster.step, Cluster.on_eq_some] at hs
    obtain ⟨-, rfl⟩ := hs
    rw [Cluster.sendCommit]
    split
    · exact he.frame (fun v ↦ Quiet.rfl) rfl rfl
    · rename_i m entries h
      exact he.frame (quiet_set (Quiet.of_same (Consensus.sendCommits_spec _ h).1)) rfl rfl
  | voteReq k =>
    obtain ⟨m, hm, hc'⟩ := Cluster.step_voteReq hs
    exact he.requestVote hm hc'
  | voteReply k =>
    obtain ⟨a, ha, hc'⟩ := Cluster.step_voteReply hs
    exact he.voteResult ha hc'
  | appendReq k =>
    obtain ⟨m, -, rfl⟩ := Cluster.step_appendReq hs
    have hq := Quiet.appendEntries (c.nodes m.call.client) m.call.req
    rw [Cluster.appendEntries]
    simp only
    split
    · exact he.frame (quiet_set hq) rfl rfl
    · exact he.frame (quiet_set hq) rfl rfl
  | appendReply k =>
    obtain ⟨a, -, rfl⟩ := Cluster.step_appendReply hs
    rw [Cluster.aeRes]
    simp only
    split
    · exact he.frame (fun v ↦ Quiet.rfl) rfl rfl
    · rename_i m h
      exact he.frame (quiet_set (Quiet.handleAeRes h)) rfl rfl
  | restart i left =>
    obtain ⟨-, rfl⟩ := Cluster.step_restart hs
    exact he.reboot Quiet.rfl hk (List.Sublist.refl _) rfl rfl rfl
  | crashVote k left =>
    obtain ⟨m, hm, -, rfl⟩ := Cluster.step_crashVote hs
    exact he.reboot (Quiet.stepDown _ m.req.term) (hk m hm) (c.voteReqs.eraseIdx_sublist k)
      rfl rfl rfl
  | crashAppend k left =>
    obtain ⟨m, hm, -, rfl⟩ := Cluster.step_crashAppend hs
    exact he.reboot (Quiet.stepDown _ m.call.req.term) (hk m hm) (List.Sublist.refl _) rfl rfl rfl

/-! ## Runs -/

/-- A node of the configuration, as it starts. -/
theorem Config.node_spec (cfg : Config n σ C) (i : Fin n) :
    ∃ peers : List (ℕ × Fin n),
      cfg.node i = { (Consensus.new (cfg.id i) (cfg.storage i) : Consensus σ C (Fin n)) with
        peers := peers } ∧
      peers.map Prod.snd = (cfg.urls i).map Prod.snd :=
  Consensus.start_spec (cfg.node_eq i)

theorem Config.node_id (cfg : Config n σ C) (i : Fin n) : (cfg.node i).id = cfg.id i := by
  obtain ⟨peers, h, -⟩ := cfg.node_spec i
  rw [h]
  exact new_id _ _

theorem Config.node_peers (cfg : Config n σ C) (i : Fin n) :
    (cfg.node i).peers.map Prod.snd = (cfg.urls i).map Prod.snd := by
  obtain ⟨peers, h, hp⟩ := cfg.node_spec i
  rw [h]
  exact hp

theorem Config.node_state (cfg : Config n σ C) (i : Fin n) :
    (cfg.node i).state = .follower := by
  obtain ⟨peers, h, -⟩ := cfg.node_spec i
  rw [h]
  exact new_state _ _

theorem Elect.init (cfg : Config n σ C) :
    Elect cfg cfg.init (record cfg.init fun _ _ ↦ none) where
  id v := cfg.node_id v
  peers v := cfg.node_peers v
  vote v := record_self _ _ v
  fresh v t h := record_of_ne _ _ h.ne'
  nodup := List.nodup_nil
  ballot _ h := absurd h List.not_mem_nil
  asked _ h := absurd h List.not_mem_nil
  granted _ h := absurd h List.not_mem_nil
  cand i hi := by
    rw [show (cfg.init.nodes i).state = .follower from cfg.node_state i] at hi
    cases hi
  lead i hi := by
    rw [show (cfg.init.nodes i).state = .follower from cfg.node_state i] at hi
    cases hi
  pos i hi := by
    rw [show (cfg.init.nodes i).state = .follower from cfg.node_state i] at hi
    cases hi

/-- Along a run there is a record of the votes in which every leader there was has a majority. -/
theorem Cluster.Run.elect {r : List (Cluster n σ C)} (h : Cluster.Run cfg Keeps r) :
    ∃ g, (∀ c ∈ r.head?, Elect cfg c g) ∧ ∀ d ∈ r, ∀ j, (d.nodes j).state = .leader →
      Elected cfg g (d.nodes j).currentTerm j := by
  induction h with
  | init =>
    have he := Elect.init cfg
    refine ⟨record cfg.init fun _ _ ↦ none, fun c hc ↦ ?_, fun d hd j hj ↦ ?_⟩
    · rw [List.head?_cons, Option.mem_some_iff] at hc
      exact hc ▸ he
    · rw [List.mem_singleton.mp hd] at hj ⊢
      exact he.lead j hj
  | @step c c' r l hr hok hs ih =>
    obtain ⟨g, he, hlead⟩ := ih
    have hn := (he c rfl).step hok hs
    refine ⟨record c' g, fun d hd ↦ ?_, fun d hd j hj ↦ ?_⟩
    · rw [List.head?_cons, Option.mem_some_iff] at hd
      exact hd ▸ hn.elect
    · rcases List.mem_cons.mp hd with rfl | hd
      · exact hn.elect.lead j hj
      · exact (hlead d hd j hj).mono hn.grows

end

/-! ## Storage -/

/-- A storage that gives back the metadata that was stored last, whatever it does to the log. -/
class LawfulStorage (σ : Type) (C : outParam Type) [Storage σ C] : Prop where
  store_ok : ∀ (p : PersistentState) (st : σ), (Storage.store p st).1 = true
  restore_store : ∀ (p : PersistentState) (st : σ),
    (Storage.restore (Storage.store p st).2).map Prod.fst = some p
  restore_appendEntry : ∀ (es : List (LogEntry C)) (st : σ),
    (Storage.restore (Storage.appendEntry es st).2).map Prod.fst =
      (Storage.restore st).map Prod.fst

instance : LawfulStorage (MockStorage C) C where
  store_ok _ _ := rfl
  restore_store _ _ := rfl
  restore_appendEntry _ _ := rfl

section

variable [Storage σ C]

theorem metaOf_eq (st : σ) : metaOf st =
    (((Storage.restore st).map Prod.fst).map fun p ↦ (p.currentTerm, p.votedFor)).getD
      (0, none) := by
  rw [metaOf]
  cases Storage.restore st <;> rfl

variable {P : Type} {m m' : Consensus σ C P}

theorem Stored.of_eq (h : Stored m) (hst : m'.storage = m.storage)
    (ht : m'.currentTerm = m.currentTerm) (hv : m'.votedFor = m.votedFor) : Stored m' := by
  rw [Stored, hst, ht, hv]
  exact h

theorem Stored.sendLeaderAes (h : Stored m) {calls : List (AppendCall C P)}
    (hm : m.sendLeaderAes = some (m', calls)) : Stored m' := by
  obtain ⟨next, rfl⟩ := m.sendLeaderAes_node hm
  exact h.of_eq rfl rfl rfl

theorem Stored.sendCommits (h : Stored m) {entries : List (CommitEntry C)}
    (hm : m.sendCommits = some (m', entries)) : Stored m' := by
  obtain ⟨la, rfl⟩ := m.sendCommits_node hm
  exact h.of_eq rfl rfl rfl

theorem stored_new (id : String) (st : σ) : Stored (Consensus.new id st : Consensus σ C P) := by
  rw [Stored, new_storage, new_currentTerm, new_votedFor]

variable [LawfulStorage σ C]

theorem stored_persistState (m : Consensus σ C P) : Stored m.persistState := by
  have hstore := LawfulStorage.restore_store
    ⟨m.currentTerm, m.votedFor, m.lastApplied⟩ m.storage
  have key : (Storage.restore m.persisted.1).map Prod.fst =
      some ⟨m.currentTerm, m.votedFor, m.lastApplied⟩ := by
    simp only [Consensus.persisted]
    split
    · rw [LawfulStorage.restore_appendEntry, hstore]
    · exact hstore
  rw [Stored, metaOf_eq, Consensus.persistState, key]
  rfl

theorem Stored.stepDown (h : Stored m) (t : ℕ) : Stored (m.stepDown t) := by
  rw [Consensus.stepDown]
  split
  · exact stored_persistState _
  · exact h

theorem Stored.handleAeRes (h : Stored m) {peerId ni : ℕ} {reply : AppendEntriesReply}
    (hm : m.handleAeRes peerId ni reply = some m') : Stored m' := by
  rcases m.handleAeRes_node hm with ⟨-, rfl⟩ | ⟨-, next, mat, ci, rfl⟩
  · exact stored_persistState _
  · exact h.of_eq rfl rfl rfl

theorem Stored.requestVote (h : Stored m) (req : RequestVote) :
    Stored (m.requestVote req).1 := by
  rcases m.requestVote_cases req with hc | ⟨-, -, -, hc⟩ | hc
  · rw [hc]
    exact h
  · rw [hc]
    exact stored_persistState _
  · rw [hc]
    exact h.stepDown req.term

theorem Stored.appendEntries (h : Stored m) (req : AppendEntries C) :
    Stored (m.appendEntries req).1 := by
  have hn : Stored ((m.stepDown req.term).noteLeader req) := by
    rw [Consensus.noteLeader]
    split
    · exact (h.stepDown req.term).of_eq rfl rfl rfl
    · exact h.stepDown req.term
  simp only [Consensus.appendEntries]
  split
  · exact h
  · split
    · exact hn
    · split
      · exact hn
      · exact stored_persistState _

theorem Stored.onStartElection (h : Stored m) {elapsed : Bool}
    {reqs : List (P × RequestVote)} (hm : m.onStartElection elapsed = some (m', reqs)) :
    Stored m' := by
  simp only [Consensus.onStartElection, Consensus.startElection] at hm
  split at hm
  · split at hm
    · obtain ⟨rfl, -⟩ := Prod.mk.inj (Option.some_inj.mp hm)
      exact (stored_persistState _).of_eq rfl rfl rfl
    · cases hm
  · obtain ⟨rfl, -⟩ := Prod.mk.inj (Option.some_inj.mp hm)
    exact h

theorem Stored.onVoteResult (h : Stored m) (t : ℕ) (voted : Bool) :
    Stored (m.onVoteResult t voted) := by
  rcases m.onVoteResult_cases t voted with hc | ⟨-, hc⟩ | ⟨-, -, -, hc⟩ | ⟨-, -, -, -, hc⟩
  · rw [hc]
    exact h
  · rw [hc]
    exact stored_persistState _
  · rw [hc]
    exact h.of_eq rfl rfl rfl
  · rw [hc]
    exact h.of_eq rfl rfl rfl

theorem Stored.onSubmit (h : Stored m) (cmd : C) : Stored (m.onSubmit cmd) := by
  rw [Consensus.onSubmit]
  split
  · exact stored_persistState _
  · exact h

theorem Stored.handle (h : Stored m) {op : Op C} (hm : m.handle op = some m') : Stored m' := by
  cases op with
  | startElection elapsed =>
    obtain ⟨⟨c, reqs⟩, hc, rfl⟩ := Option.map_eq_some_iff.mp hm
    exact h.onStartElection hc
  | voteResult term voted =>
    obtain rfl := Option.some_inj.mp hm
    exact h.onVoteResult term voted
  | requestVote req =>
    obtain rfl := Option.some_inj.mp hm
    exact h.requestVote req
  | appendEntries req =>
    obtain rfl := Option.some_inj.mp hm
    exact h.appendEntries req
  | submit cmd =>
    obtain rfl := Option.some_inj.mp hm
    exact h.onSubmit cmd
  | sendAes =>
    obtain ⟨⟨c, calls⟩, hc, rfl⟩ := Option.map_eq_some_iff.mp hm
    exact h.sendLeaderAes hc
  | aeRes peerId ni reply => exact h.handleAeRes hm
  | sendCommit =>
    obtain ⟨⟨c, entries⟩, hc, rfl⟩ := Option.map_eq_some_iff.mp hm
    exact h.sendCommits hc

/-- In every state the storages have the terms and the votes of their nodes. -/
theorem Cluster.step_stored {c c' : Cluster n σ C} (h : ∀ v, Stored (c.nodes v))
    {l : Label n σ C} (hs : c.step l = some c') (v : Fin n) : Stored (c'.nodes v) := by
  cases Cluster.step_moves hs v with
  | still hv => exact hv ▸ h v
  | handled op _ hv => exact (h v).handle hv
  | rebooted t left _ hv _ =>
    rw [hv]
    exact (stored_new _ left).of_eq rfl rfl rfl

theorem Cluster.Run.stored {cfg : Config n σ C} {ok : Cluster n σ C → Label n σ C → Prop}
    {r : List (Cluster n σ C)} (h : Cluster.Run cfg ok r) :
    ∀ c ∈ r, ∀ v, Stored (c.nodes v) := by
  refine h.inv (fun v ↦ ?_) fun c l c' hst _ hs ↦ Cluster.step_stored hst hs
  obtain ⟨peers, hp, -⟩ := cfg.node_spec v
  rw [show cfg.init.nodes v = _ from hp]
  exact (stored_new (cfg.id v) (cfg.storage v)).of_eq rfl rfl rfl

/-- With a storage that keeps its promise, a crash leaves the term and the vote. -/
theorem Cluster.keeps_of_stored {c c' : Cluster n σ C} (hst : ∀ v, Stored (c.nodes v))
    {l : Label n σ C} (hs : c.step l = some c') : Keeps c l := by
  cases l with
  | restart i left => exact (Cluster.step_restart hs).1.trans (hst i)
  | crashVote k left =>
    obtain ⟨m, hm, hleft, -⟩ := Cluster.step_crashVote hs
    intro m' hm'
    obtain rfl : m = m' := Option.some_inj.mp (hm.symm.trans hm')
    exact hleft.trans ((hst m.dst).stepDown m.req.term)
  | crashAppend k left =>
    obtain ⟨m, hm, hleft, -⟩ := Cluster.step_crashAppend hs
    intro m' hm'
    obtain rfl : m = m' := Option.some_inj.mp (hm.symm.trans hm')
    exact hleft.trans ((hst m.call.client).stepDown m.call.req.term)
  | _ => trivial

theorem Cluster.Run.withKeeps {cfg : Config n σ C} {ok : Cluster n σ C → Label n σ C → Prop}
    {r : List (Cluster n σ C)} (h : Cluster.Run cfg ok r) : Cluster.Run cfg Keeps r := by
  induction h with
  | init => exact .init
  | step hr hok hs ih =>
    exact .step ih (Cluster.keeps_of_stored (hr.stored _ List.mem_cons_self) hs) hs

/-- **Election safety.**  Over any run, crashes and restarts included, no two nodes lead the same
term, be it at the same moment or at different ones. -/
theorem election_safety (cfg : Config n σ C) {ok : Cluster n σ C → Label n σ C → Prop}
    {r : List (Cluster n σ C)} (h : Cluster.Run cfg ok r) {c d : Cluster n σ C} (hc : c ∈ r)
    (hd : d ∈ r) {i j : Fin n} (hi : (c.nodes i).state = .leader)
    (hj : (d.nodes j).state = .leader)
    (ht : (c.nodes i).currentTerm = (d.nodes j).currentTerm) : i = j := by
  obtain ⟨g, -, hlead⟩ := h.withKeeps.elect
  have hi' := hlead c hc i hi
  have hj' := hlead d hd j hj
  rw [ht] at hi'
  exact hi'.unique hj'

end

/-- A node is elected, and its voter crashes and starts again. -/
theorem election_safety_trio :
    (trioRun (fun _ _ ↦ True) [.startElection 0 true, .voteReq 0, .voteReply 0, .submit 0 7,
      .restart 1 ⟨⟨1, some "a", none⟩, []⟩]).map (fun c ↦ (c.nodes 0).state) =
        [.leader, .leader, .leader, .candidate, .candidate, .follower] ∧ (0 : Fin 3) = 0 := by
  refine ⟨by decide, ?_⟩
  have hr := run_trioRun (fun _ _ ↦ True) [.startElection 0 true, .voteReq 0,
    .voteReply 0, .submit 0 7, .restart 1 ⟨⟨1, some "a", none⟩, []⟩] (by decide)
  exact election_safety trio hr (List.getElem_mem (n := 0) (by decide))
    (List.getElem_mem (n := 2) (by decide)) (by decide) (by decide) (by decide)

end Efis
