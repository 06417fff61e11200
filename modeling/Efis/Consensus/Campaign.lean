import Efis.Consensus.Conflict
import Mathlib.Logic.Relation

/-!
# A majority can elect a leader

What the nodes of a majority can do on their own, while the others take no step and no crash comes
in between.  Whatever has happened before and whichever messages were lost, the one of them with
the most up-to-date log can become a candidate of any later term (`exists_candidate`), get the
votes of the others one after the other (`Polling.all`), and lead (`exists_elected`).
-/

set_option autoImplicit false

namespace Efis

open Consensus

open Raft (Majority Matching merge)

variable {n : ℕ} {σ C : Type} [Storage σ C]

/-! ## Steps of some of the nodes -/

/-- A step of a node of `Q` that is not a crash. -/
def Cluster.Turn (Q : Finset (Fin n)) (c c' : Cluster n σ C) : Prop :=
  ∃ l, l.Alive ∧ (∃ i ∈ Q, ∃ op, c.ask l = some (i, op)) ∧ c.step l = some c'

/-- The nodes of `Q` take some steps, and the others none. -/
def Cluster.Path (Q : Finset (Fin n)) (c c' : Cluster n σ C) : Prop :=
  Relation.ReflTransGen (Cluster.Turn Q) c c'

section

variable {Q : Finset (Fin n)} {c c' c'' : Cluster n σ C} {cfg : Config n σ C} {i : Fin n}

theorem Cluster.Path.refl : Cluster.Path Q c c := Relation.ReflTransGen.refl

theorem Cluster.Turn.path (h : Cluster.Turn Q c c') : Cluster.Path Q c c' :=
  Relation.ReflTransGen.single h

theorem Cluster.Path.trans (h : Cluster.Path Q c c') (h' : Cluster.Path Q c' c'') :
    Cluster.Path Q c c'' :=
  Relation.ReflTransGen.trans h h'

/-- A run goes on with the steps of a path. -/
theorem Cluster.Path.run (h : Cluster.Path Q c c') {r : List (Cluster n σ C)}
    (hr : Cluster.Run cfg (fun _ l ↦ l.Alive) (c :: r)) :
    ∃ r', Cluster.Run cfg (fun _ l ↦ l.Alive) (c' :: r') ∧ c :: r <:+ c' :: r' := by
  induction h with
  | refl => exact ⟨r, hr, List.suffix_refl _⟩
  | @tail d d' _ hstep ih =>
    obtain ⟨r', hr', hsuf⟩ := ih
    obtain ⟨l, hl, -, hs⟩ := hstep
    exact ⟨d :: r', hr'.step hl hs, hsuf.trans (List.suffix_cons ..)⟩

/-- The other nodes stay as they are. -/
theorem Cluster.Path.nodes_eq (h : Cluster.Path Q c c') {v : Fin n} (hv : v ∉ Q) :
    c'.nodes v = c.nodes v := by
  induction h with
  | refl => rfl
  | tail _ hstep ih =>
    obtain ⟨l, hl, ⟨i, hi, op, hask⟩, hs⟩ := hstep
    rw [← ih]
    obtain ⟨j, op', hask', -, hdoes⟩ := Cluster.step_handle hl hs
    obtain ⟨rfl, -⟩ := Prod.mk.inj (Option.some_inj.mp (hask.symm.trans hask'))
    have hne : v ≠ i := by
      rintro rfl
      exact hv hi
    cases hdoes with
    | done m _ hnodes _ => rw [hnodes, Function.update_of_ne hne]
    | panic _ hnodes _ => rw [hnodes]

theorem turn_startElection (hi : i ∈ Q) (hp : c.panicked i = false) :
    Cluster.Turn Q c (c.startElection i true) :=
  ⟨.startElection i true, trivial, ⟨i, hi, _, rfl⟩, Cluster.on_eq_some.mpr ⟨hp, rfl⟩⟩

theorem turn_sendAes (hi : i ∈ Q) (hp : c.panicked i = false) : Cluster.Turn Q c (c.sendAes i) :=
  ⟨.sendAes i, trivial, ⟨i, hi, _, rfl⟩, Cluster.on_eq_some.mpr ⟨hp, rfl⟩⟩

theorem turn_submit (hi : i ∈ Q) (hp : c.panicked i = false) (cmd : C) :
    Cluster.Turn Q c (c.submit i cmd) :=
  ⟨.submit i cmd, trivial, ⟨i, hi, _, rfl⟩, Cluster.on_eq_some.mpr ⟨hp, rfl⟩⟩

theorem turn_sendCommit (hi : i ∈ Q) (hp : c.panicked i = false) :
    Cluster.Turn Q c (c.sendCommit i) :=
  ⟨.sendCommit i, trivial, ⟨i, hi, _, rfl⟩, Cluster.on_eq_some.mpr ⟨hp, rfl⟩⟩

theorem turn_voteReq {k : ℕ} {a : VoteCall n} (ha : c.voteReqs[k]? = some a) (hi : a.dst ∈ Q)
    (hp : c.panicked a.dst = false) :
    Cluster.Turn Q c ({ c with voteReqs := c.voteReqs.eraseIdx k }.requestVote a) := by
  refine ⟨.voteReq k, trivial, ⟨a.dst, hi, .requestVote a.req, ?_⟩, ?_⟩
  · rw [Cluster.ask, ha]
    rfl
  · simp only [Cluster.step, ha]
    exact Cluster.on_eq_some.mpr ⟨hp, rfl⟩

theorem turn_voteReply {k : ℕ} {a : VoteAnswer n} (ha : c.voteReplies[k]? = some a)
    (hi : a.call.src ∈ Q) (hp : c.panicked a.call.src = false) :
    Cluster.Turn Q c ({ c with voteReplies := c.voteReplies.eraseIdx k }.voteResult a) := by
  refine ⟨.voteReply k, trivial, ⟨a.call.src, hi, .voteResult a.reply.term a.reply.voted, ?_⟩, ?_⟩
  · rw [Cluster.ask, ha]
    rfl
  · simp only [Cluster.step, ha]
    exact Cluster.on_eq_some.mpr ⟨hp, rfl⟩

theorem turn_appendReq {k : ℕ} {a : EntriesCall n C} (ha : c.appendReqs[k]? = some a)
    (hi : a.call.client ∈ Q) (hp : c.panicked a.call.client = false) :
    Cluster.Turn Q c ({ c with appendReqs := c.appendReqs.eraseIdx k }.appendEntries a) := by
  refine ⟨.appendReq k, trivial, ⟨a.call.client, hi, .appendEntries a.call.req, ?_⟩, ?_⟩
  · rw [Cluster.ask, ha]
    rfl
  · simp only [Cluster.step, ha]
    exact Cluster.on_eq_some.mpr ⟨hp, rfl⟩

theorem turn_appendReply {k : ℕ} {a : EntriesAnswer n C} (ha : c.appendReplies[k]? = some a)
    (hi : a.call.src ∈ Q) (hp : c.panicked a.call.src = false) :
    Cluster.Turn Q c ({ c with appendReplies := c.appendReplies.eraseIdx k }.aeRes a) := by
  refine ⟨.appendReply k, trivial,
    ⟨a.call.src, hi, .aeRes a.call.call.peerId a.call.call.ni a.reply, ?_⟩, ?_⟩
  · rw [Cluster.ask, ha]
    rfl
  · simp only [Cluster.step, ha]
    exact Cluster.on_eq_some.mpr ⟨hp, rfl⟩

end

/-! ## An election -/

/-- The node has the log it had, and what it had committed and applied. -/
structure Retains {P : Type} (m m' : Consensus σ C P) : Prop where
  logs : m'.logs = m.logs
  commitIndex : m'.commitIndex = m.commitIndex
  lastApplied : m'.lastApplied = m.lastApplied

section

variable {P : Type} {m m' m'' : Consensus σ C P}

omit [Storage σ C] in
theorem Retains.rfl : Retains m m := ⟨Eq.refl _, Eq.refl _, Eq.refl _⟩

omit [Storage σ C] in
theorem Retains.trans (h : Retains m m') (h' : Retains m' m'') : Retains m m'' :=
  ⟨h'.logs.trans h.logs, h'.commitIndex.trans h.commitIndex, h'.lastApplied.trans h.lastApplied⟩

/-- The request for votes in term `t`. -/
def Consensus.ballotFor (m : Consensus σ C P) (t : ℕ) : RequestVote :=
  ⟨t, m.id, (lastLogOf m.logs).index, (lastLogOf m.logs).term⟩

theorem onStartElection_eq (hs : m.state = .candidate ∨ m.state = .follower)
    (ht : m.currentTerm < usizeMax) :
    ∃ m', m.onStartElection true =
        some (m', m.peers.map fun p ↦ (p.2, m.ballotFor (m.currentTerm + 1))) ∧
      Same { m with state := .candidate, currentTerm := m.currentTerm + 1,
                    votedFor := some m.id, voteCount := 1 } m' ∧ Retains m m' := by
  let m₁ : Consensus σ C P :=
    { m with state := .candidate, currentTerm := m.currentTerm + 1, votedFor := some m.id }
  refine ⟨{ m₁.persistState with voteCount := 1 }, ?_, ?_, ?_⟩
  · rw [onStartElection, if_pos ⟨hs, rfl⟩, startElection, if_pos ht]
    rfl
  · exact ⟨rfl, rfl, rfl, rfl, rfl, rfl, rfl⟩
  · exact ⟨rfl, rfl, rfl⟩

/-- A live node grants a vote in a later term to whoever is up to date. -/
theorem requestVote_granted {req : RequestVote} (hd : m.state ≠ .dead)
    (ht : m.currentTerm < req.term) (hu : upToDate req (lastLogOf m.logs) = true) :
    ∃ m', m.requestVote req = (m', .ok ⟨req.term, true⟩) ∧ m'.currentTerm = req.term ∧
      m'.state = .follower ∧ Retains m m' := by
  refine ⟨persistState { m.becomeFollower req.term with votedFor := some req.candidateId },
    ?_, rfl, rfl, ⟨rfl, rfl, rfl⟩⟩
  have hdown : m.stepDown req.term = m.becomeFollower req.term := if_pos ht
  simp only [requestVote, if_neg hd, hdown]
  rw [if_pos ⟨rfl, Or.inl rfl, hu⟩]
  rfl

/-- A vote of the term of a candidate is counted, and may win. -/
theorem onVoteResult_counted (hs : m.state = .candidate) :
    Retains m (m.onVoteResult m.currentTerm true) ∧
      (m.onVoteResult m.currentTerm true).currentTerm = m.currentTerm ∧
      (m.onVoteResult m.currentTerm true).peers = m.peers ∧
      ((m.onVoteResult m.currentTerm true).state = .leader ∨
        (m.onVoteResult m.currentTerm true).state = .candidate ∧
        (m.onVoteResult m.currentTerm true).voteCount = m.voteCount + 1 ∧
        m.voteCount + 1 < m.quorum) := by
  rw [onVoteResult, if_neg (not_not_intro hs), if_neg (Nat.lt_irrefl _),
    if_neg (Nat.lt_irrefl _), if_pos rfl]
  simp only
  split
  · exact ⟨⟨rfl, rfl, rfl⟩, rfl, rfl, Or.inl rfl⟩
  · rename_i hq
    exact ⟨⟨rfl, rfl, rfl⟩, rfl, rfl, Or.inr ⟨hs, rfl, Nat.lt_of_not_le hq⟩⟩

theorem onVoteResult_of_leader (hs : m.state = .leader) (t : ℕ) (voted : Bool) :
    m.onVoteResult t voted = m := by
  rw [onVoteResult, if_pos (by rw [hs]; decide)]

end

variable {Q : Finset (Fin n)} {c c' : Cluster n σ C} {cfg : Config n σ C} {i : Fin n}

/-- The node asks for votes in the next term. -/
structure Campaigns (c c' : Cluster n σ C) (i : Fin n) (t : ℕ) : Prop where
  panicked : c'.panicked = c.panicked
  others : ∀ v, v ≠ i → c'.nodes v = c.nodes v
  id : (c'.nodes i).id = (c.nodes i).id
  peers : (c'.nodes i).peers = (c.nodes i).peers
  retains : Retains (c.nodes i) (c'.nodes i)
  state : (c'.nodes i).state = .candidate
  currentTerm : (c'.nodes i).currentTerm = t
  voteCount : (c'.nodes i).voteCount = 1
  asked : ∀ p ∈ (c.nodes i).peers, ⟨i, p.2, (c.nodes i).ballotFor t⟩ ∈ c'.voteReqs

theorem Campaigns.startElection
    (hst : (c.nodes i).state = .candidate ∨ (c.nodes i).state = .follower)
    (ht : (c.nodes i).currentTerm < usizeMax) :
    Campaigns c (c.startElection i true) i ((c.nodes i).currentTerm + 1) := by
  obtain ⟨m, hm, hsame, hret⟩ := onStartElection_eq hst ht
  let reqs := (c.nodes i).peers.map fun p ↦
    (⟨i, p.2, (c.nodes i).ballotFor ((c.nodes i).currentTerm + 1)⟩ : VoteCall n)
  have hc' : c.startElection i true = { c.set i m with voteReqs := c.voteReqs ++ reqs } := by
    rw [Cluster.startElection, hm]
    simp only [List.map_map]
    rfl
  have hnode : (c.startElection i true).nodes i = m := by
    rw [hc']
    exact Cluster.set_self ..
  constructor
  case panicked => rw [hc']; rfl
  case others =>
    intro v hv
    rw [hc']
    exact Cluster.set_of_ne _ _ hv
  case asked =>
    intro p hp
    rw [hc']
    exact List.mem_append_right _ (List.mem_map.mpr ⟨p, hp, rfl⟩)
  all_goals rw [hnode]
  case id => exact hsame.id
  case peers => exact hsame.peers
  case retains => exact hret
  case state => exact hsame.state
  case currentTerm => exact hsame.currentTerm
  case voteCount => exact hsame.voteCount

/-- A node that does not lead can become a candidate of any later term. -/
theorem exists_candidate (hi : i ∈ Q) (hp : c.panicked i = false)
    (hst : (c.nodes i).state = .candidate ∨ (c.nodes i).state = .follower) {t : ℕ}
    (hlt : (c.nodes i).currentTerm < t) (ht : t ≤ usizeMax) :
    ∃ c', c.Path Q c' ∧ Campaigns c c' i t := by
  obtain ⟨k, rfl⟩ := Nat.exists_eq_add_of_lt hlt
  induction k generalizing c with
  | zero => exact ⟨_, (turn_startElection hi hp).path, Campaigns.startElection hst (by omega)⟩
  | succ k ih =>
    have hone := Campaigns.startElection hst (by omega)
    have hterm := hone.currentTerm
    obtain ⟨c', hpath, hc'⟩ := ih (c := c.startElection i true) (by rw [hone.panicked]; exact hp)
      (Or.inl hone.state) (by omega) (by omega)
    refine ⟨c', (turn_startElection hi hp).path.trans hpath, ?_⟩
    constructor
    case panicked => exact hc'.panicked.trans hone.panicked
    case others => exact fun v hv ↦ (hc'.others v hv).trans (hone.others v hv)
    case id => exact hc'.id.trans hone.id
    case peers => exact hc'.peers.trans hone.peers
    case retains => exact hone.retains.trans hc'.retains
    case state => exact hc'.state
    case currentTerm => rw [hc'.currentTerm]; omega
    case voteCount => exact hc'.voteCount
    case asked =>
      intro p hp
      have hasked := hc'.asked p (hone.peers ▸ hp)
      rw [ballotFor, hone.id, hone.retains.logs, hterm] at hasked
      rw [ballotFor]
      convert hasked using 3
      omega

/-- Node `i` has so many votes, unless it has won, and some of its requests are under way. -/
structure Polling (c : Cluster n σ C) (i : Fin n) (req : RequestVote) (votes : ℕ)
    (ws : List (Fin n)) : Prop where
  term : (c.nodes i).currentTerm = req.term
  peers : (c.nodes i).peers.length + 1 = n
  count : (c.nodes i).state = .leader ∨
    (c.nodes i).state = .candidate ∧ (c.nodes i).voteCount = votes ∧ votes < n / 2 + 1
  asked : ∀ w ∈ ws, ⟨i, w, req⟩ ∈ c.voteReqs

/-- Node `w` votes for node `i`, which counts the vote. -/
structure Votes (c c' : Cluster n σ C) (i w : Fin n) (t : ℕ) : Prop where
  panicked : c'.panicked = c.panicked
  others : ∀ v, v ≠ i → v ≠ w → c'.nodes v = c.nodes v
  retains : ∀ v, Retains (c.nodes v) (c'.nodes v)
  term : (c'.nodes w).currentTerm = t
  state : (c'.nodes w).state = .follower

/-- A vote is given and counted. -/
theorem Polling.vote {req : RequestVote} {votes : ℕ} {w : Fin n} {ws : List (Fin n)}
    (h : Polling c i req votes (w :: ws)) (hi : i ∈ Q) (hw : w ∈ Q) (hne : w ≠ i) (hws : w ∉ ws)
    (hp : ∀ v ∈ Q, c.panicked v = false) (hd : (c.nodes w).state ≠ .dead)
    (ht : (c.nodes w).currentTerm < req.term)
    (hu : upToDate req (lastLogOf (c.nodes w).logs) = true) :
    ∃ c', c.Path Q c' ∧ Polling c' i req (votes + 1) ws ∧ Votes c c' i w req.term := by
  obtain ⟨k, hk⟩ := List.getElem?_of_mem (h.asked w List.mem_cons_self)
  obtain ⟨m, hm, hmt, hms, hmr⟩ := requestVote_granted hd ht hu
  let a : VoteCall n := ⟨i, w, req⟩
  let c₁ : Cluster n σ C := { c.set w m with
    voteReqs := c.voteReqs.eraseIdx k
    voteReplies := c.voteReplies ++ [⟨a, ⟨req.term, true⟩⟩] }
  have hc₁ : { c with voteReqs := c.voteReqs.eraseIdx k }.requestVote a = c₁ := by
    simp only [Cluster.requestVote]
    rw [show ({ c with voteReqs := c.voteReqs.eraseIdx k } : Cluster n σ C).nodes a.dst =
      c.nodes w from rfl, show a.req = req from rfl, hm]
    rfl
  have hturn₁ : Cluster.Turn Q c c₁ := hc₁ ▸ turn_voteReq hk hw (hp w hw)
  -- the reply is the last one under way
  have hreply : c₁.voteReplies[c.voteReplies.length]? = some ⟨a, ⟨req.term, true⟩⟩ :=
    List.getElem?_concat_length
  have hnode : c₁.nodes i = c.nodes i := Cluster.set_of_ne _ _ (Ne.symm hne)
  have hturn₂ := turn_voteReply hreply hi (hp i hi)
  let c₂ := ({ c₁ with voteReplies := c₁.voteReplies.eraseIdx c.voteReplies.length } :
    Cluster n σ C).voteResult ⟨a, ⟨req.term, true⟩⟩
  have hnode₂ : c₂.nodes i = (c.nodes i).onVoteResult (c.nodes i).currentTerm true := by
    rw [h.term, ← hnode]
    exact Cluster.set_self ..
  have hother₂ : ∀ v, v ≠ i → c₂.nodes v = c₁.nodes v := fun v hv ↦ Cluster.set_of_ne _ _ hv
  have hasked : ∀ x ∈ ws, ⟨i, x, req⟩ ∈ c₂.voteReqs := by
    intro x hx
    obtain ⟨j, hj⟩ := List.getElem?_of_mem (h.asked x (List.mem_cons_of_mem w hx))
    refine List.mem_eraseIdx_iff_getElem?.mpr ⟨j, ?_, hj⟩
    rintro rfl
    rw [hk] at hj
    obtain rfl : w = x := congrArg VoteCall.dst (Option.some_inj.mp hj)
    exact hws hx
  have hothers : ∀ v, v ≠ i → v ≠ w → c₂.nodes v = c.nodes v := fun v hv hvw ↦
    (hother₂ v hv).trans (Cluster.set_of_ne _ _ hvw)
  have hw₂ : c₂.nodes w = m := (hother₂ w hne).trans (Cluster.set_self ..)
  have hcount : Retains (c.nodes i) (c₂.nodes i) ∧ (c₂.nodes i).currentTerm = req.term ∧
      (c₂.nodes i).peers = (c.nodes i).peers ∧ ((c₂.nodes i).state = .leader ∨
        (c₂.nodes i).state = .candidate ∧ (c₂.nodes i).voteCount = votes + 1 ∧
        votes + 1 < n / 2 + 1) := by
    rw [hnode₂]
    rcases h.count with hl | ⟨hcand, hv, -⟩
    · rw [onVoteResult_of_leader hl]
      exact ⟨.rfl, h.term, rfl, Or.inl hl⟩
    · obtain ⟨hret, hterm, hpeers, hst⟩ := onVoteResult_counted hcand
      refine ⟨hret, hterm.trans h.term, hpeers, hst.imp_right fun hwait ↦ ?_⟩
      obtain ⟨hst', hvotes, hfew⟩ := hwait
      rw [quorum, h.peers, hv] at hfew
      exact ⟨hst', hv ▸ hvotes, hfew⟩
  obtain ⟨hret, hterm, hpeers, hst⟩ := hcount
  refine ⟨c₂, hturn₁.path.trans hturn₂.path, ⟨hterm, hpeers ▸ h.peers, hst, hasked⟩,
    ⟨rfl, hothers, fun v ↦ ?_, hw₂ ▸ hmt, hw₂ ▸ hms⟩⟩
  by_cases hv : v = i
  · exact hv ▸ hret
  · by_cases hvw : v = w
    · rw [hvw, hw₂]
      exact hmr
    · rw [hothers v hv hvw]
      exact .rfl

/-- All of them vote. -/
theorem Polling.all {req : RequestVote} {votes : ℕ} {ws : List (Fin n)}
    (h : Polling c i req votes ws) (hi : i ∈ Q) (hws : ∀ w ∈ ws, w ∈ Q ∧ w ≠ i)
    (hnodup : ws.Nodup) (hp : ∀ v ∈ Q, c.panicked v = false)
    (hd : ∀ w ∈ ws, (c.nodes w).state ≠ .dead)
    (ht : ∀ w ∈ ws, (c.nodes w).currentTerm < req.term)
    (hu : ∀ w ∈ ws, upToDate req (lastLogOf (c.nodes w).logs) = true) :
    ∃ c', c.Path Q c' ∧ Polling c' i req (votes + ws.length) [] ∧ c'.panicked = c.panicked ∧
      (∀ v, Retains (c.nodes v) (c'.nodes v)) ∧ (∀ v, v ≠ i → v ∉ ws → c'.nodes v = c.nodes v) ∧
      ∀ w ∈ ws, (c'.nodes w).currentTerm = req.term ∧ (c'.nodes w).state = .follower := by
  induction ws generalizing c votes with
  | nil => exact ⟨c, .refl, h, rfl, fun _ ↦ .rfl, fun _ _ _ ↦ rfl, by simp⟩
  | cons w ws ih =>
    obtain ⟨hw, hnodup⟩ := List.nodup_cons.mp hnodup
    obtain ⟨hwQ, hwi⟩ := hws w List.mem_cons_self
    obtain ⟨c₁, hpath₁, hpoll₁, hv⟩ := h.vote hi hwQ hwi hw hp (hd w List.mem_cons_self)
      (ht w List.mem_cons_self) (hu w List.mem_cons_self)
    have hsame : ∀ x ∈ ws, c₁.nodes x = c.nodes x := fun x hx ↦
      hv.others x (hws x (List.mem_cons_of_mem w hx)).2 (ne_of_mem_of_not_mem hx hw)
    obtain ⟨c₂, hpath₂, hpoll₂, hpan, hret, hoth, hvoted⟩ := ih hpoll₁
      (fun x hx ↦ hws x (List.mem_cons_of_mem w hx)) hnodup (hv.panicked ▸ hp)
      (fun x hx ↦ hsame x hx ▸ hd x (List.mem_cons_of_mem w hx))
      (fun x hx ↦ hsame x hx ▸ ht x (List.mem_cons_of_mem w hx))
      (fun x hx ↦ hsame x hx ▸ hu x (List.mem_cons_of_mem w hx))
    refine ⟨c₂, hpath₁.trans hpath₂, ?_, hpan.trans hv.panicked,
      fun v ↦ (hv.retains v).trans (hret v), fun v hvi hvw ↦ ?_, fun x hx ↦ ?_⟩
    · rw [List.length_cons, Nat.add_comm ws.length, ← Nat.add_assoc]
      exact hpoll₂
    · rw [List.mem_cons, not_or] at hvw
      exact (hoth v hvi hvw.2).trans (hv.others v hvi hvw.1)
    · rcases List.mem_cons.mp hx with rfl | hx
      · rw [hoth x hwi hw]
        exact ⟨hv.term, hv.state⟩
      · exact hvoted x hx

/-- Node `i` leads term `t`, and the others of `Q` are in this term. -/
structure Leads (Q : Finset (Fin n)) (c : Cluster n σ C) (i : Fin n) (t : ℕ) : Prop where
  mem : i ∈ Q
  leads : (c.nodes i).state = .leader
  term : (c.nodes i).currentTerm = t
  running : ∀ v ∈ Q, c.panicked v = false
  live : ∀ v ∈ Q, (c.nodes v).state ≠ .dead
  terms : ∀ v ∈ Q, (c.nodes v).currentTerm ≤ t

/-- **A node that is up to date can win an election**, if it does not lead already. -/
theorem exists_elected (hn : 2 ≤ n) (hQ : Majority Q) {g : Fin n → ℕ → Option String}
    (he : Elect cfg c g) (hi : i ∈ Q) (hp : ∀ v ∈ Q, c.panicked v = false)
    (hd : ∀ v ∈ Q, (c.nodes v).state ≠ .dead) (hl : (c.nodes i).state ≠ .leader) {t : ℕ}
    (ht : ∀ v ∈ Q, (c.nodes v).currentTerm < t) (hmax : t ≤ usizeMax)
    (hu : ∀ v ∈ Q, upToDate ((c.nodes i).ballotFor t) (lastLogOf (c.nodes v).logs) = true) :
    ∃ c', c.Path Q c' ∧ Leads Q c' i t ∧ ∀ v, Retains (c.nodes v) (c'.nodes v) := by
  have hst : (c.nodes i).state = .candidate ∨ (c.nodes i).state = .follower := by
    cases hs : (c.nodes i).state with
    | candidate => exact Or.inl rfl
    | follower => exact Or.inr rfl
    | leader => exact absurd hs hl
    | dead => exact absurd hs (hd i hi)
  obtain ⟨c₁, hpath₁, hc₁⟩ := exists_candidate hi (hp i hi) hst (ht i hi) hmax
  have hret₁ : ∀ v, Retains (c.nodes v) (c₁.nodes v) := by
    intro v
    by_cases hv : v = i
    · exact hv ▸ hc₁.retains
    · rw [hc₁.others v hv]
      exact .rfl
  have hws : ∀ w ∈ (Q.erase i).toList, w ∈ Q ∧ w ≠ i := by
    intro w hw
    obtain ⟨hne, hwQ⟩ := Finset.mem_erase.mp (Finset.mem_toList.mp hw)
    exact ⟨hwQ, hne⟩
  have hpoll : Polling c₁ i ((c.nodes i).ballotFor t) 1 (Q.erase i).toList := by
    refine ⟨hc₁.currentTerm, hc₁.peers ▸ he.peers_length i,
      Or.inr ⟨hc₁.state, hc₁.voteCount, by omega⟩, fun w hw ↦ ?_⟩
    have hmem : w ∈ (c.nodes i).peers.map Prod.snd := by
      rw [he.peers, cfg.mem_urls]
      exact (hws w hw).2
    obtain ⟨p, hp, rfl⟩ := List.mem_map.mp hmem
    exact hc₁.asked p hp
  have hsame : ∀ w ∈ (Q.erase i).toList, c₁.nodes w = c.nodes w := fun w hw ↦
    hc₁.others w (hws w hw).2
  obtain ⟨c₂, hpath₂, hpoll₂, hpan, hret, -, hvoted⟩ := hpoll.all hi hws (Finset.nodup_toList _)
    (hc₁.panicked ▸ hp) (fun w hw ↦ hsame w hw ▸ hd w (hws w hw).1)
    (fun w hw ↦ hsame w hw ▸ ht w (hws w hw).1) (fun w hw ↦ hsame w hw ▸ hu w (hws w hw).1)
  have hvoter : ∀ v ∈ Q, v ≠ i → (c₂.nodes v).currentTerm = t ∧ (c₂.nodes v).state = .follower :=
    fun v hv hne ↦ hvoted v (Finset.mem_toList.mpr (Finset.mem_erase.mpr ⟨hne, hv⟩))
  -- all of them together are enough
  have hlead : (c₂.nodes i).state = .leader := by
    refine hpoll₂.count.resolve_right fun ⟨_, _, hlt⟩ ↦ ?_
    rw [Finset.length_toList, Finset.card_erase_of_mem hi] at hlt
    have hcard : n < 2 * Q.card := by simpa [Majority] using hQ
    omega
  refine ⟨c₂, hpath₁.trans hpath₂, ⟨hi, hlead, hpoll₂.term, ?_, fun v hv ↦ ?_, fun v hv ↦ ?_⟩,
    fun v ↦ (hret₁ v).trans (hret v)⟩
  · rw [hpan, hc₁.panicked]
    exact hp
  · by_cases hne : v = i
    · rw [hne, hlead]
      decide
    · rw [(hvoter v hv hne).2]
      decide
  · by_cases hne : v = i
    · exact hne ▸ hpoll₂.term.le
    · exact (hvoter v hv hne).1.le

end Efis
