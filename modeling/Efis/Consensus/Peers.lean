import Efis.Consensus.Following

/-!
# What is known about each peer

`start` numbers the peers by the last digit of their URLs, and `next_index` and `match_index` are
filed under these numbers.  A reply changes what is filed under the number of the peer it comes
from (`handleAeRes_other`), and so it changes nothing for the others exactly if the numbers are
different (`peers_separate_iff`).  Nothing else about the URLs matters.
-/

set_option autoImplicit false

namespace Efis

open Consensus Transition

variable {σ C P : Type} [Storage σ C]

/-- In no state that messages can lead to does a reply from one peer change what is filed for
another. -/
def Separate (m₀ : Consensus σ C P) : Prop :=
  ∀ m, Reach handle (fun _ _ ↦ True) m₀ m → ∀ (i j : ℕ) (p q : ℕ × P),
    m.peers[i]? = some p → m.peers[j]? = some q → i ≠ j →
    ∀ (ni : ℕ) (reply : AppendEntriesReply) (m' : Consensus σ C P),
      m.handle (.aeRes p.1 ni reply) = some m' →
        m'.nextIndex q.1 = m.nextIndex q.1 ∧ m'.matchIndex q.1 = m.matchIndex q.1

variable {m m' : Consensus σ C P}

/-- A reply changes what is filed under one number. -/
theorem handleAeRes_other {peerId ni : ℕ} {reply : AppendEntriesReply}
    (h : m.handleAeRes peerId ni reply = some m') {k : ℕ} (hk : k ≠ peerId) :
    m'.nextIndex k = m.nextIndex k ∧ m'.matchIndex k = m.matchIndex k := by
  rw [handleAeRes] at h
  split at h
  · obtain rfl := Option.some_inj.mp h
    exact ⟨rfl, rfl⟩
  · obtain ⟨entries, -, h⟩ := Option.bind_eq_some_iff.mp h
    split at h
    · split at h
      · obtain rfl := Option.some_inj.mp h
        exact ⟨Function.update_of_ne hk .., Function.update_of_ne hk ..⟩
      · obtain rfl := Option.some_inj.mp h
        exact ⟨Function.update_of_ne hk .., rfl⟩
    · obtain rfl := Option.some_inj.mp h
      exact ⟨rfl, rfl⟩

theorem peers_of_reach {m₀ : Consensus σ C P} (h : Reach handle (fun _ _ ↦ True) m₀ m) :
    m.peers = m₀.peers := by
  induction h with
  | start => rfl
  | step _ _ hs ih => rw [(Twin.handle hs).peers, ih]

omit [Storage σ C] in
/-- The numbers of the peers are those of the URLs. -/
theorem numbers_of_start {urls : List (String × P)} (h : m.start urls = some m') :
    (m'.peers.map fun p ↦ some p.1) = urls.map fun u ↦ peerId u.1 := by
  obtain ⟨peers, rfl, hp⟩ := start_eq_some_iff.mp h
  have hfst := congrArg (List.map Prod.fst) hp
  rwa [List.map_map, List.map_map] at hfst

omit [Storage σ C] in
/-- `start` accepts URLs that end in digits. -/
theorem exists_start {urls : List (String × P)} (h : ∀ u ∈ urls, (peerId u.1).isSome) :
    ∃ m', m.start urls = some m' := by
  refine ⟨_, start_eq_some_iff.mpr ⟨urls.map fun u ↦ ((peerId u.1).getD 0, u.2), rfl, ?_⟩⟩
  rw [List.map_map]
  refine List.map_congr_left fun u hu ↦ ?_
  obtain ⟨k, hk⟩ := Option.isSome_iff_exists.mp (h u hu)
  simp [hk]

/-- A rejection sets the next index of its peer to what the peer asks for. -/
theorem handleAeRes_rejected (hl : m.state = .leader) (peerId next : ℕ) :
    m.handleAeRes peerId 0 ⟨m.currentTerm, false, some next, none⟩ =
      some { m with nextIndex := Function.update m.nextIndex peerId (some next) } := by
  simp [handleAeRes, sliceFrom, hl, backtrack]

theorem handle_vote (hm : m.state = .candidate) :
    m.handle (.voteResult m.currentTerm true) =
      some (if m.quorum ≤ m.voteCount + 1 then startLeader { m with voteCount := m.voteCount + 1 }
        else { m with voteCount := m.voteCount + 1 }) := by
  rw [handle, onVoteResult, if_neg (not_not.mpr hm), if_neg (lt_irrefl _), if_neg (lt_irrefl _),
    if_pos rfl]
  rfl

/-- A candidate that gets enough votes becomes leader. -/
theorem exists_leader (hm : m.state = .candidate) :
    ∃ m', Reach handle (fun _ _ ↦ True) m m' ∧ m'.state = .leader := by
  have hvote := handle_vote hm
  -- one vote more, until there are enough
  induction hk : m.quorum - (m.voteCount + 1) generalizing m with
  | zero =>
    rw [if_pos (by omega)] at hvote
    exact ⟨_, Reach.start.step trivial hvote, rfl⟩
  | succ k ih =>
    rw [if_neg (by omega)] at hvote
    have hq : ({ m with voteCount := m.voteCount + 1 } : Consensus σ C P).quorum -
        (m.voteCount + 1 + 1) = k := by
      change m.quorum - (m.voteCount + 1 + 1) = k
      omega
    obtain ⟨m', hm', hl⟩ := ih (m := { m with voteCount := m.voteCount + 1 }) hm (handle_vote hm) hq
    exact ⟨m', (Reach.start.step trivial hvote).trans hm', hl⟩

theorem exists_leader_of_follower (hs : m.state = .follower) (ht : m.currentTerm < usizeMax) :
    ∃ m', Reach handle (fun _ _ ↦ True) m m' ∧ m'.state = .leader := by
  obtain ⟨c, hc, hcand⟩ : ∃ c, m.handle (.startElection true) = some c ∧ c.state = .candidate := by
    rw [handle, onStartElection, if_pos ⟨Or.inr hs, rfl⟩, startElection, if_pos ht]
    exact ⟨_, rfl, rfl⟩
  obtain ⟨m', hm', hl⟩ := exists_leader hcand
  exact ⟨m', (Reach.start.step trivial hc).trans hm', hl⟩

/-- Two peers with one number are not kept apart once the node leads. -/
theorem not_separate {m₀ : Consensus σ C P} (hs : m₀.state = .follower)
    (ht : m₀.currentTerm < usizeMax) {i j : ℕ} {p q : ℕ × P} (hp : m₀.peers[i]? = some p)
    (hq : m₀.peers[j]? = some q) (hij : i ≠ j) (hpq : p.1 = q.1) : ¬ Separate m₀ := by
  intro h
  obtain ⟨m, hm, hl⟩ := exists_leader_of_follower hs ht
  have hpeers := peers_of_reach hm
  have hr := (h m hm i j p q (by rw [hpeers, hp]) (by rw [hpeers, hq]) hij 0 _ _
    (handleAeRes_rejected hl p.1 ((m.nextIndex q.1).getD 0 + 1))).1
  simp only [hpq, Function.update_self] at hr
  cases hn : m.nextIndex q.1 with
  | none => simp [hn] at hr
  | some next => simp [hn] at hr

/-- **When the peers are kept apart.**  For all URLs that `start` accepts: whatever messages a node
gets, a reply from one peer changes nothing that is filed for another, exactly if the URLs end in
different digits. -/
theorem peers_separate_iff {urls : List (String × P)} (hurls : ∀ u ∈ urls, (peerId u.1).isSome)
    {fresh : σ} (hfresh : Storage.restore fresh = some (PersistentState.default, [])) :
    (∀ id (st : σ) m₀, (new id st).start urls = some m₀ → Separate m₀) ↔
      (urls.map fun u ↦ peerId u.1).Nodup := by
  constructor
  · intro h
    obtain ⟨m₀, hm₀⟩ := exists_start (m := (new "" fresh : Consensus σ C P)) hurls
    obtain ⟨peers, hpeers, -⟩ := start_spec hm₀
    have hs : m₀.state = .follower := by
      rw [hpeers]
      exact new_state "" fresh
    have ht : m₀.currentTerm < usizeMax := by
      rw [hpeers]
      change (new "" fresh : Consensus σ C P).currentTerm < usizeMax
      rw [new_currentTerm, metaOf, hfresh]
      exact Nat.zero_lt_of_lt (Nat.lt_sub_of_add_lt (by decide : 0 + 1 < 2 ^ 64))
    rw [← numbers_of_start hm₀, List.nodup_iff_getElem?_ne_getElem?]
    intro i j hij hj heq
    rw [List.length_map] at hj
    have hi : i < m₀.peers.length := hij.trans hj
    rw [List.getElem?_map, List.getElem?_map, List.getElem?_eq_getElem hi,
      List.getElem?_eq_getElem hj, Option.map_some, Option.map_some] at heq
    exact not_separate hs ht (List.getElem?_eq_getElem hi) (List.getElem?_eq_getElem hj) hij.ne
      (Option.some_inj.mp (Option.some_inj.mp heq)) (h "" fresh m₀ hm₀)
  · intro hnodup id st m₀ hm₀ m hm i j p q hp hq hij ni reply m' hr
    have hpeers : (m.peers.map fun p ↦ some p.1).Nodup := by
      rw [peers_of_reach hm, numbers_of_start hm₀]
      exact hnodup
    refine handleAeRes_other hr fun hpq ↦ hij ?_
    refine (List.getElem?_inj (l := m.peers.map fun p ↦ some p.1) ?_ hpeers).mp ?_
    · rw [List.length_map]
      exact (List.getElem?_eq_some_iff.mp hp).1
    · rw [List.getElem?_map, List.getElem?_map, hp, hq, Option.map_some, Option.map_some, hpq]

/-- Two peers on one host. -/
theorem peers_separate_iff_ports :
    ∃ m₀ : Consensus (MockStorage ℕ) ℕ Unit,
      (new "http://10.0.0.1:8083" ⟨PersistentState.default, []⟩).start
        [("http://10.0.0.1:8081", ()), ("http://10.0.0.1:8082", ())] = some m₀ ∧
      Separate m₀ := by
  have hfresh : Storage.restore (⟨PersistentState.default, []⟩ : MockStorage ℕ) =
      some (PersistentState.default, []) := rfl
  have hurls : ∀ u ∈ [("http://10.0.0.1:8081", ()), ("http://10.0.0.1:8082", ())],
      (peerId u.1).isSome := by decide +kernel
  obtain ⟨m₀, hm₀⟩ := exists_start hurls
  exact ⟨m₀, hm₀, (peers_separate_iff hurls hfresh).mpr (by decide +kernel) _ _ m₀ hm₀⟩

/-- Two peers on different hosts that listen on the same port.  The leader has two entries and sends
them; the reply of the first peer counts for the second one too. -/
theorem not_peers_separate :
    ∃ m₀ m m' : Consensus (MockStorage ℕ) ℕ ℕ,
      (new "http://10.0.0.3:8081" ⟨PersistentState.default, []⟩).start
        [("http://10.0.0.1:8081", 1), ("http://10.0.0.2:8081", 2)] = some m₀ ∧
      Reach handle (fun _ _ ↦ True) m₀ m ∧ m.peers = [(1, 1), (1, 2)] ∧
      m.handle (.aeRes 1 0 ⟨1, true, none, none⟩) = some m' ∧
      m.nextIndex 1 = some 0 ∧ m'.nextIndex 1 = some 2 ∧
      m.matchIndex 1 = some 0 ∧ m'.matchIndex 1 = some 1 ∧ ¬ Separate m₀ := by
  let node : Consensus (MockStorage ℕ) ℕ ℕ :=
    new "http://10.0.0.3:8081" ⟨PersistentState.default, []⟩
  let m₀ : Consensus (MockStorage ℕ) ℕ ℕ := { node with peers := [(1, 1), (1, 2)] }
  have hnum : ([("http://10.0.0.1:8081", 1), ("http://10.0.0.2:8081", 2)].mapM
      fun u : String × ℕ ↦ (peerId u.1).map fun i ↦ (i, u.2)) = some [(1, 1), (1, 2)] := by
    decide +kernel
  have hstart : node.start
      [("http://10.0.0.1:8081", 1), ("http://10.0.0.2:8081", 2)] = some m₀ := by
    rw [Consensus.start, hnum]
    rfl
  let ops : List (Op ℕ) :=
    [.startElection true, .voteResult 1 true, .submit 7, .submit 8, .sendAes]
  let m := (run handle (fun _ _ ↦ True) m₀ ops).get (by decide)
  have hm : Reach handle (fun _ _ ↦ True) m₀ m := Reach.start.run (Option.some_get _).symm
  let m' := (m.handle (.aeRes 1 0 ⟨1, true, none, none⟩)).get (by decide)
  refine ⟨m₀, m, m', hstart, hm, by decide, (Option.some_get _).symm, by decide, by decide,
    by decide, by decide, ?_⟩
  exact not_separate (i := 0) (j := 1) rfl (by decide) rfl rfl (by decide) rfl

end Efis
