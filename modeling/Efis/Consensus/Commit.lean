import Efis.Consensus.Refinement

/-!
# What the nodes commit

A leader commits what a majority of the nodes is on record for, and a node that accepts a request
follows the commit index of the leader.  The records may say more than was acknowledged:
`handle_ae_res` credits a follower with everything the leader has in its log when the *reply*
arrives, not with what the request carried, and a peer that has acknowledged nothing has the match
index `0`, which also says that it has entry `0`.  Then a leader commits an entry that nobody else
has, and two nodes put different commands on their commit channels (`Efis.Consensus.Safety`).

Nothing else goes wrong.  In a run in which a leader commits only what a majority has in fact
acknowledged (`Counted`; `Warranted` leaves out what was committed already), what a node considers
committed is a prefix of a confirmed prefix of the abstract protocol, and any two of those are
comparable.  That a follower keeps what it committed when it accepts a request is leader
completeness once more.
-/

set_option autoImplicit false

namespace Efis

open Raft (Confirmed merge)

variable {n : ℕ} {σ C : Type}

/-! ## The condition -/

/-- The leader `i`, and the nodes that have acknowledged its entry `j` in its current term. -/
def Cluster.holders [Storage σ C] (cfg : Config n σ C) (c : Cluster n σ C) (i : Fin n) (j : ℕ) :
    Finset (Fin n) :=
  Finset.univ.filter fun v ↦ v = i ∨ c.Acknowledged (cfg.id i) (c.nodes i).currentTerm j v

/-- The leader's own record of its peers, after a success of this term, lets it commit only what
a majority has acknowledged. -/
def CountedReply [Storage σ C] (cfg : Config n σ C) (c : Cluster n σ C) (m : EntriesAnswer n C) :
    Prop :=
  let node := c.nodes m.call.src
  let next := m.call.call.ni + (node.logs.drop m.call.call.ni).length
  node.state = .leader → node.currentTerm = m.reply.term → m.reply.success = true →
    ∀ j < node.logs.length, node.commitIndex.getD 0 ≤ j →
      (node.recordMatch m.call.call.peerId next).mayCommit j = true →
        Raft.Majority (c.holders cfg m.call.src j)

/-- The replies are counted right.  The other steps are free, except that there is no crash. -/
def Counted [Storage σ C] (cfg : Config n σ C) (c : Cluster n σ C) : Label n σ C → Prop
  | .appendReply k => ∀ m ∈ c.appendReplies[k]?, CountedReply cfg c m
  | l => l.Alive

instance [Storage σ C] (cfg : Config n σ C) (c : Cluster n σ C) (m : EntriesAnswer n C) :
    Decidable (CountedReply cfg c m) := by
  unfold CountedReply
  infer_instance

instance [Storage σ C] (cfg : Config n σ C) (c : Cluster n σ C) :
    (l : Label n σ C) → Decidable (Counted cfg c l)
  | .appendReply k =>
    inferInstanceAs (Decidable (∀ m ∈ c.appendReplies[k]?, CountedReply cfg c m))
  | .startElection _ _ | .submit _ _ | .sendAes _ | .sendCommit _ | .voteReq _ | .voteReply _
  | .appendReq _ => inferInstanceAs (Decidable True)
  | .restart _ _ | .crashVote _ _ | .crashAppend _ _ => inferInstanceAs (Decidable False)

/-- Whatever a leader commits upon a success, a majority has acknowledged. -/
def Warranted [Storage σ C] (cfg : Config n σ C) (c : Cluster n σ C) : Label n σ C → Prop
  | .appendReply k => ∀ m ∈ c.appendReplies[k]?,
    let node := c.nodes m.call.src
    let next := m.call.call.ni + (node.logs.drop m.call.call.ni).length
    node.state = .leader → node.currentTerm = m.reply.term → m.reply.success = true →
      ∀ j < node.logs.length, node.commitIndex.getD 0 ≤ j → node.commitIndex ≠ some j →
        (node.recordMatch m.call.call.peerId next).mayCommit j = true →
          Raft.Majority (c.holders cfg m.call.src j)
  | l => l.Alive

variable [Storage σ C] {cfg : Config n σ C} {c c' : Cluster n σ C}
  {g : Fin n → ℕ → Option String} {s s' : Raft.State (Fin n) (LogEntry C)}

theorem Counted.alive {l : Label n σ C} (h : Counted cfg c l) : l.Alive := by
  cases l with
  | appendReply k => trivial
  | _ => exact h

theorem Counted.warranted {l : Label n σ C} (h : Counted cfg c l) : Warranted cfg c l := by
  cases l with
  | appendReply k => exact fun m hm hl ht hsucc j hj hge _ ↦ h m hm hl ht hsucc j hj hge
  | _ => exact h

theorem Warranted.alive {l : Label n σ C} (h : Warranted cfg c l) : l.Alive := by
  cases l with
  | appendReply k => trivial
  | _ => exact h

/-! ## The invariant -/

/-- The log is, up to index `ci`, part of what was confirmed by term `u`. -/
def Committed (s : Raft.State (Fin n) (LogEntry C)) (l : List (LogEntry C)) (ci u : ℕ) : Prop :=
  ci < l.length ∧ ∃ t k, Confirmed s LogEntry.term t k ∧ t ≤ u ∧
    l.take (ci + 1) <+: (s.lead t).take k

omit [Storage σ C] in
theorem Committed.of_isPrefix {l l' : List (LogEntry C)} {ci u u' : ℕ} (h : Committed s l ci u)
    (hl : l.take (ci + 1) <+: l') (hu : u ≤ u') : Committed s l' ci u' := by
  obtain ⟨hlt, t, k, hc, ht, hp⟩ := h
  have hlen : (l.take (ci + 1)).length = ci + 1 := List.length_take_of_le hlt
  have htake := Raft.take_eq_of_isPrefix hl hlen.ge
  rw [List.take_take, min_self] at htake
  refine ⟨?_, t, k, hc, ht.trans hu, htake ▸ hp⟩
  have := hl.length_le
  omega

omit [Storage σ C] in
theorem take_lead_of_confirmed (hi : Raft.Inv LogEntry.term s) (hg : Raft.Grows s s') {t k : ℕ}
    (hc : Confirmed s LogEntry.term t k) : (s'.lead t).take k = (s.lead t).take k := by
  obtain ⟨Q, hQ, hacks⟩ := hc.quorum
  obtain ⟨v, hv, -⟩ := hQ.inter hQ
  exact hi.take_lead hg (hacks v hv)

omit [Storage σ C] in
theorem Committed.grows {l : List (LogEntry C)} {ci u : ℕ} (h : Committed s l ci u)
    (hi : Raft.Inv LogEntry.term s) (hg : Raft.Grows s s') : Committed s' l ci u := by
  obtain ⟨hlt, t, k, hc, ht, hp⟩ := h
  exact ⟨hlt, t, k, hi.confirmed hg hc, ht, take_lead_of_confirmed hi hg hc ▸ hp⟩

/-- The entry was emitted from a confirmed prefix. -/
def Emitted (s : Raft.State (Fin n) (LogEntry C)) (e : CommitEntry C) : Prop :=
  ∃ t k, Confirmed s LogEntry.term t k ∧
    ((s.lead t).take k)[e.index]?.map LogEntry.command = some e.command

/-- Whatever a node, a request or the trace calls committed is confirmed. -/
structure Commits (c : Cluster n σ C) (s : Raft.State (Fin n) (LogEntry C)) : Prop where
  node : ∀ v ci, (c.nodes v).commitIndex = some ci →
    Committed s (c.nodes v).logs ci (c.nodes v).currentTerm
  msg : ∀ m ∈ c.appendReqs, ∀ lc, m.call.req.leaderCommit = some lc →
    Committed s ((s.lead m.call.req.term).take (reach m.call.req)) lc m.call.req.term
  event : ∀ v e, Event.commit v e ∈ c.trace → Emitted s e

/-- A node that commits nothing: its log is at most extended. -/
structure Idle {P : Type} (m m' : Consensus σ C P) : Prop where
  commitIndex : m'.commitIndex = m.commitIndex
  logs : m.logs <+: m'.logs
  currentTerm : m.currentTerm ≤ m'.currentTerm

omit [Storage σ C] in
theorem Idle.of_same {P : Type} {m m' : Consensus σ C P} (h : Same m m')
    (hc : m'.commitIndex = m.commitIndex) : Idle m m' :=
  ⟨hc, h.logs ▸ List.prefix_rfl, h.currentTerm.ge⟩

omit [Storage σ C] in
theorem Idle.rfl {P : Type} {m : Consensus σ C P} : Idle m m :=
  Idle.of_same Same.rfl (Eq.refl _)

theorem Idle.stepDown {P : Type} (m : Consensus σ C P) (t : ℕ) : Idle m (m.stepDown t) where
  commitIndex := m.stepDown_commitIndex t
  logs := by rw [m.stepDown_logs]
  currentTerm := by
    rw [m.stepDown_currentTerm]
    exact le_max_left _ _

theorem Idle.onSubmit {P : Type} (m : Consensus σ C P) (cmd : C) : Idle m (m.onSubmit cmd) := by
  rcases m.onSubmit_cases cmd with hr | ⟨-, hm, hci⟩
  · rw [hr]
    exact Idle.rfl
  · exact ⟨hci, hm.logs ▸ List.prefix_append _ _, hm.currentTerm.ge⟩

theorem Idle.requestVote {P : Type} (m : Consensus σ C P) (req : RequestVote) :
    Idle m (m.requestVote req).1 := by
  have hdown := Idle.stepDown m req.term
  rcases m.requestVote_cases req with hr | ⟨-, -, -, hr⟩ | hr
  · rw [hr]
    exact Idle.rfl
  · rw [hr]
    exact ⟨hdown.commitIndex, hdown.logs, hdown.currentTerm⟩
  · rw [hr]
    exact hdown

theorem Idle.onVoteResult {P : Type} (m : Consensus σ C P) (t : ℕ) (voted : Bool) :
    Idle m (m.onVoteResult t voted) := by
  rcases m.onVoteResult_cases t voted with
    hr | ⟨hlt, hr⟩ | ⟨-, -, -, hr⟩ | ⟨-, -, -, -, hr⟩
  · rw [hr]
    exact Idle.rfl
  · rw [hr]
    exact ⟨Eq.refl _, List.prefix_rfl, hlt.le⟩
  · rw [hr]
    exact ⟨Eq.refl _, List.prefix_rfl, le_rfl⟩
  · rw [hr]
    exact ⟨Eq.refl _, List.prefix_rfl, le_rfl⟩

omit [Storage σ C] in
theorem Idle.set {i : Fin n} {m : Consensus σ C (Fin n)} (h : Idle (c.nodes i) m) (v : Fin n) :
    Idle (c.nodes v) ((c.set i m).nodes v) := by
  by_cases hv : v = i
  · rw [hv, Cluster.set_self]
    exact h
  · rw [Cluster.set_of_ne _ _ hv]
    exact Idle.rfl

/-- One step of the invariant, given what the new commit indices, requests and events are. -/
theorem Commits.next (h : Commits c s) (hs : Sim cfg c g s) (hg : Raft.Grows s s')
    (hnode : ∀ v, Idle (c.nodes v) (c'.nodes v) ∨
      ∀ ci, (c'.nodes v).commitIndex = some ci →
        Committed s (c'.nodes v).logs ci (c'.nodes v).currentTerm)
    (hmsg : ∀ m ∈ c'.appendReqs, m ∈ c.appendReqs ∨ (Sound s m.call.req ∧
      ∀ lc, m.call.req.leaderCommit = some lc →
        Committed s ((s.lead m.call.req.term).take (reach m.call.req)) lc m.call.req.term))
    (hev : ∀ v e, .commit v e ∈ c'.trace → .commit v e ∈ c.trace ∨ Emitted s e) :
    Commits c' s' := by
  have hemit : ∀ {e}, Emitted s e → Emitted s' e := by
    rintro e ⟨t, k, hc, he⟩
    exact ⟨t, k, hs.inv.confirmed hg hc, take_lead_of_confirmed hs.inv hg hc ▸ he⟩
  have hold : ∀ {req : AppendEntries C}, Sound s req → ∀ {lc},
      Committed s ((s.lead req.term).take (reach req)) lc req.term →
      Committed s' ((s'.lead req.term).take (reach req)) lc req.term := by
    intro req hsound lc hlc
    obtain ⟨b, hb, -⟩ := hsound.base
    rw [Raft.take_eq_of_isPrefix (hg.lead _ (Option.isSome_iff_exists.mpr ⟨b, hb⟩)) hsound.le]
    exact hlc.grows hs.inv hg
  constructor
  case node =>
    intro v ci hci
    rcases hnode v with hv | hv
    · rw [hv.commitIndex] at hci
      exact ((h.node v ci hci).of_isPrefix ((List.take_prefix _ _).trans hv.logs)
        hv.currentTerm).grows hs.inv hg
    · exact (hv ci hci).grows hs.inv hg
  case msg =>
    intro m hm lc hlc
    rcases hmsg m hm with hm | ⟨hsound, hm⟩
    · exact hold (hs.sound m hm) (h.msg m hm lc hlc)
    · exact hold hsound (hm lc hlc)
  case event =>
    intro v e he
    rcases hev v e he with he | he
    · exact hemit (h.event v e he)
    · exact hemit he

/-! ## Followers -/

omit [Storage σ C] in
theorem followCommit_cases (logs : List (LogEntry C)) (ci lc : Option ℕ) :
    Consensus.followCommit logs ci lc = ci ∨
    ∃ k, lc = some k ∧ 0 < logs.length ∧
      (∀ i ∈ ci, i < min k (logs.length - 1)) ∧
      Consensus.followCommit logs ci lc = some (min k (logs.length - 1)) := by
  unfold Consensus.followCommit
  split
  · exact Or.inl rfl
  · rename_i k
    split
    · exact Or.inl rfl
    · rename_i hne
      have hpos : 0 < logs.length := List.length_pos_of_ne_nil fun h ↦ hne (h ▸ rfl)
      cases ci with
      | none => exact Or.inr ⟨k, rfl, hpos, nofun, rfl⟩
      | some ci =>
        simp only
        split
        · rename_i hlt
          exact Or.inr ⟨k, rfl, hpos, fun i hi ↦ Option.some_inj.mp hi ▸ hlt, rfl⟩
        · exact Or.inl rfl

/-- What a node has committed is in what it accepts: the leader of the term has it, because it
was confirmed earlier, or by that leader itself. -/
theorem Sim.committed_merge (hs : Sim cfg c g s) {v : Fin n} {req : AppendEntries C}
    (hsound : Sound s req) {ci u : ℕ} (hu : u ≤ req.term)
    (h : Committed s (c.nodes v).logs ci u) :
    Committed s (merge (c.nodes v).logs ((s.lead req.term).take (reach req))) ci req.term := by
  obtain ⟨b, hb, hbl, -, -⟩ := hs.sent_spec hsound
  have hcopy := h
  obtain ⟨-, t, k, hc, ht, hp⟩ := hcopy
  refine h.of_isPrefix ?_ hu
  rcases (ht.trans hu).lt_or_eq with hlt | rfl
  · have hpb := hp.trans ((hs.inv.complete hc _ b hlt hb).trans hbl)
    exact Raft.prefix_merge_of_isPrefix (List.take_prefix _ _) hpb List.prefix_rfl
  · exact Raft.prefix_merge_of_isPrefix (List.take_prefix _ _) (hp.trans (List.take_prefix _ _))
      (List.take_prefix _ _)

/-- The commit index of a node that accepted a request. -/
theorem Commits.accept (h : Commits c s) (hs : Sim cfg c g s) {a : EntriesCall n C}
    (ha : a ∈ c.appendReqs) {v : Fin n} (hterm : (c.nodes v).currentTerm ≤ a.call.req.term)
    {ci : ℕ} (hci : Consensus.followCommit
      (merge (c.nodes v).logs ((s.lead a.call.req.term).take (reach a.call.req)))
      (c.nodes v).commitIndex a.call.req.leaderCommit = some ci) :
    Committed s (merge (c.nodes v).logs ((s.lead a.call.req.term).take (reach a.call.req))) ci
      a.call.req.term := by
  have hsound := hs.sound a ha
  rcases followCommit_cases (merge (c.nodes v).logs _) (c.nodes v).commitIndex
    a.call.req.leaderCommit with hf | ⟨lc, hlc, -, -, hf⟩
  · exact hs.committed_merge hsound hterm (h.node v ci (hf ▸ hci))
  · have hnew := h.msg a ha lc hlc
    have hpre := Raft.prefix_merge (c.nodes v).logs
      ((s.lead a.call.req.term).take (reach a.call.req))
    -- the leader's commit index lies within what it sent
    obtain rfl : lc = ci := by
      rw [hf, Option.some_inj] at hci
      have := hnew.1
      have := hpre.length_le
      omega
    exact hnew.of_isPrefix ((List.take_prefix _ _).trans hpre) le_rfl

/-! ## Leaders -/

/-- Under the condition, what a leader may commit is confirmed. -/
theorem Sim.committed_of_majority (hs : Sim cfg c g s) {i : Fin n}
    (hi : (c.nodes i).state = .leader) {j : ℕ}
    (hterm : (c.nodes i).logs[j]?.map LogEntry.term = some (c.nodes i).currentTerm)
    (hQ : Raft.Majority (c.holders cfg i j)) :
    Committed s (c.nodes i).logs j (c.nodes i).currentTerm := by
  obtain ⟨e, he, het⟩ := Option.map_eq_some_iff.mp hterm
  obtain ⟨hc, -⟩ := hs.confirmed (hs.led hi) he het hQ fun v hv ↦ by
    simpa [Cluster.holders] using hv
  refine ⟨(List.getElem?_eq_some_iff.mp he).1, _, _, hc, le_rfl, ?_⟩
  rw [(hs.lead i hi).2.1]

/-! ## Every step -/

section

variable (h : Commits c s) (hs : Sim cfg c g s) (hg : Raft.Grows s s')

include h hs hg

/-- Only node `i` changes, and it does not commit anything. -/
theorem Commits.idle {i : Fin n} {m : Consensus σ C (Fin n)} (hm : Idle (c.nodes i) m)
    (hn : c'.nodes = (c.set i m).nodes) (happ : c'.appendReqs = c.appendReqs)
    (htr : c'.trace = c.trace) : Commits c' s' := by
  refine h.next hs hg (fun v ↦ Or.inl ?_) (fun m hm ↦ Or.inl (happ ▸ hm))
    fun v e he ↦ Or.inl (htr ▸ he)
  rw [hn]
  exact hm.set v

theorem Commits.fail (i : Fin n) : Commits (c.fail i) s' :=
  h.idle hs hg (i := i) Idle.rfl (by rw [Cluster.set_eq_self]; rfl) rfl rfl

theorem Commits.startElection (i : Fin n) (elapsed : Bool) :
    Commits (c.startElection i elapsed) s' := by
  rw [Cluster.startElection]
  rcases (c.nodes i).onStartElection_cases elapsed with hr | hr | ⟨m, hr, hm, hci⟩
  · rw [hr]
    exact h.fail hs hg i
  · rw [hr]
    exact h.idle hs hg (i := i) Idle.rfl rfl rfl rfl
  · rw [hr]
    refine h.idle hs hg (m := m) ⟨hci, ?_, ?_⟩ rfl rfl rfl
    · rw [hm.logs]
    · rw [hm.currentTerm]
      exact Nat.le_succ _

/-- The commit index that a leader sends is its own, and its log is what the request leads to. -/
theorem Commits.sendAes (i : Fin n) : Commits (c.sendAes i) s' := by
  rw [Cluster.sendAes]
  split
  · exact h.fail hs hg i
  · rename_i m calls hm
    obtain ⟨hsame, hci, hcalls⟩ := Consensus.sendLeaderAes_spec _ hm
    refine h.next hs hg (fun v ↦ Or.inl ((Idle.of_same hsame hci).set v)) (fun x hx ↦ ?_)
      fun v e he ↦ Or.inl he
    rcases List.mem_append.mp hx with hx | hx
    · exact Or.inl hx
    · obtain ⟨call, hcall, rfl⟩ := List.mem_map.mp hx
      obtain ⟨hi, hsuf, hterm, -, hlc⟩ := hcalls call hcall
      refine Or.inr ⟨hs.sound_of_suffix hi hsuf hterm, fun lc hlc' ↦ ?_⟩
      have hnode := h.node i lc (hlc ▸ hlc')
      -- the request takes the follower as far as the leader is
      have hall : (s.lead call.req.term).take (reach call.req) = (c.nodes i).logs := by
        rw [hterm, ← (hs.lead i hi).2.1]
        refine List.take_of_length_le ?_
        rw [reach, hsuf.insertAt, hsuf.entries, List.length_drop]
        omega
      simp only
      rw [hall, hterm]
      exact hnode

/-- What is sent on the channel lies below the commit index, so it is confirmed. -/
theorem Commits.sendCommit (i : Fin n) : Commits (c.sendCommit i) s' := by
  rw [Cluster.sendCommit]
  split
  · exact h.fail hs hg i
  · rename_i m entries hm
    obtain ⟨hsame, hci, hentries⟩ := Consensus.sendCommits_spec _ hm
    refine h.next hs hg (fun v ↦ Or.inl ((Idle.of_same hsame hci).set v)) (fun x hx ↦ Or.inl hx)
      fun v e he ↦ ?_
    rcases List.mem_append.mp he with he | he
    · exact Or.inl he
    · obtain ⟨e', he', heq⟩ := List.mem_map.mp he
      obtain ⟨rfl, rfl⟩ : i = v ∧ e' = e := by simpa using heq
      obtain ⟨ci, hci, hle, hcmd⟩ := hentries e' he'
      obtain ⟨-, t, k, hc, -, hp⟩ := h.node i ci hci
      refine Or.inr ⟨t, k, hc, ?_⟩
      obtain ⟨x, hx, hxc⟩ := Option.map_eq_some_iff.mp hcmd
      have hxt : ((c.nodes i).logs.take (ci + 1))[e'.index]? = some x := by
        rw [List.getElem?_take_of_lt (Nat.lt_succ_of_le hle), hx]
      rw [Raft.getElem?_of_isPrefix hp hxt, Option.map_some, hxc]

/-- A node answers a request: it commits nothing, or it accepts and follows the leader. -/
theorem Commits.appendEntries {k : ℕ} {a : EntriesCall n C} (ha : c.appendReqs[k]? = some a) :
    Commits ({ c with appendReqs := c.appendReqs.eraseIdx k }.appendEntries a) s' := by
  have hmem := List.mem_of_getElem? ha
  refine h.next hs hg (fun v ↦ ?_) (fun x hx ↦ Or.inl ?_) fun v e he ↦ Or.inl ?_
  · rw [Cluster.appendEntries_nodes]
    by_cases hv : v = a.call.client
    · rw [hv, Cluster.set_self]
      rcases (c.nodes a.call.client).appendEntries_cases a.call.req with
        hr | ⟨m, reply, hr, -, hm, hci⟩ | ⟨m, hr, hterm, hp, hm, hci⟩
      · rw [hr]
        exact Or.inl Idle.rfl
      · rw [hr]
        have hdown := Idle.stepDown (c.nodes a.call.client) a.call.req.term
        exact Or.inl ⟨hci, hm.logs ▸ hdown.logs, hm.currentTerm ▸ hdown.currentTerm⟩
      · rw [hr]
        refine Or.inr fun ci hci' ↦ ?_
        have hsplice := hs.splice_eq (hs.sound a hmem) hp
        have hle := (Idle.stepDown (c.nodes a.call.client) a.call.req.term).currentTerm
        simp only at hci' ⊢
        rw [hci, hsplice] at hci'
        rw [hm.logs, hm.currentTerm, hterm]
        simp only
        rw [hsplice]
        exact h.accept hs hmem (hterm ▸ hle) hci'
    · rw [Cluster.set_of_ne _ _ hv]
      exact Or.inl Idle.rfl
  · rw [Cluster.appendEntries_appendReqs] at hx
    exact (c.appendReqs.eraseIdx_sublist k).subset hx
  · simp only [Cluster.appendEntries] at he
    split at he
    · exact he
    · simp only at he
      split at he
      · simpa using he
      · exact he

/-- A leader hears of a follower, and commits what it may commit under the condition. -/
theorem Commits.aeRes {k : ℕ} {a : EntriesAnswer n C} (ha : c.appendReplies[k]? = some a)
    (hl : Warranted cfg c (.appendReply k)) :
    Commits ({ c with appendReplies := c.appendReplies.eraseIdx k }.aeRes a) s' := by
  simp only [Cluster.aeRes]
  split
  · exact h.idle hs hg (i := a.call.src) Idle.rfl (by rw [Cluster.set_eq_self]; rfl) rfl rfl
  · rename_i m hm
    rcases Consensus.handleAeRes_cases _ hm with
      ⟨hlt, hdown⟩ | ⟨hsame, hci⟩ | ⟨hsame, hlead, hterm, hsucc, hci⟩
    · refine h.idle hs hg (i := a.call.src) (m := m) ?_ rfl rfl rfl
      rw [hdown]
      exact ⟨rfl, List.prefix_rfl, hlt.le⟩
    · exact h.idle hs hg (Idle.of_same hsame hci) rfl rfl rfl
    · rcases Consensus.advanceCommit_cases ((c.nodes a.call.src).recordMatch a.call.call.peerId
        (a.call.call.ni + ((c.nodes a.call.src).logs.drop a.call.call.ni).length)) with
        hadv | ⟨j, hj, hlt, hmay, hadv⟩
      · exact h.idle hs hg (Idle.of_same hsame (hci.trans hadv)) rfl rfl rfl
      · by_cases hold : (c.nodes a.call.src).commitIndex = some j
        · -- the index was committed already
          exact h.idle hs hg (Idle.of_same hsame ((hci.trans hadv).trans hold.symm)) rfl rfl rfl
        have hQ := hl a ha hlead hterm hsucc j hlt hj hold hmay
        refine h.next hs hg (fun v ↦ ?_) (fun x hx ↦ Or.inl hx) fun v e he ↦ Or.inl he
        by_cases hv : v = a.call.src
        · rw [hv, Cluster.set_self, hsame.logs, hsame.currentTerm, hci, hadv]
          refine Or.inr fun ci hci' ↦ ?_
          obtain rfl := Option.some_inj.mp hci'
          simp only [Consensus.mayCommit, Bool.and_eq_true, decide_eq_true_eq] at hmay
          exact hs.committed_of_majority hlead hmay.1 hQ
        · rw [Cluster.set_of_ne _ _ hv]
          exact Or.inl Idle.rfl

theorem Commits.step {l : Label n σ C} (hl : Warranted cfg c l) (hstep : c.step l = some c') :
    Commits c' s' := by
  cases l with
  | startElection i elapsed =>
    simp only [Cluster.step, Cluster.on_eq_some] at hstep
    obtain ⟨-, rfl⟩ := hstep
    exact h.startElection hs hg i elapsed
  | submit i cmd =>
    simp only [Cluster.step, Cluster.on_eq_some] at hstep
    obtain ⟨-, rfl⟩ := hstep
    exact h.idle hs hg (Idle.onSubmit _ cmd) rfl rfl rfl
  | sendAes i =>
    simp only [Cluster.step, Cluster.on_eq_some] at hstep
    obtain ⟨-, rfl⟩ := hstep
    exact h.sendAes hs hg i
  | sendCommit i =>
    simp only [Cluster.step, Cluster.on_eq_some] at hstep
    obtain ⟨-, rfl⟩ := hstep
    exact h.sendCommit hs hg i
  | voteReq k =>
    obtain ⟨a, -, rfl⟩ := Cluster.step_voteReq hstep
    exact h.idle hs hg (Idle.requestVote _ a.req) rfl rfl rfl
  | voteReply k =>
    obtain ⟨a, -, rfl⟩ := Cluster.step_voteReply hstep
    exact h.idle hs hg (Idle.onVoteResult _ a.reply.term a.reply.voted) rfl rfl rfl
  | appendReq k =>
    obtain ⟨a, ha, rfl⟩ := Cluster.step_appendReq hstep
    exact h.appendEntries hs hg ha
  | appendReply k =>
    obtain ⟨a, ha, rfl⟩ := Cluster.step_appendReply hstep
    exact h.aeRes hs hg ha hl
  | restart i left => exact hl.elim
  | crashVote k left => exact hl.elim
  | crashAppend k left => exact hl.elim

end

/-! ## Runs -/

theorem Commits.init (hf : cfg.Fresh) :
    Commits cfg.init (Raft.State.init (Fin n) (LogEntry C)) where
  node v ci hci := by
    rw [show (cfg.init.nodes v).commitIndex = none from (hf.node v).2.2.2] at hci
    cases hci
  msg _ h := absurd h List.not_mem_nil
  event _ _ h := absurd h List.not_mem_nil

theorem Cluster.Run.commits (hf : cfg.Fresh) {r : List (Cluster n σ C)}
    (h : Cluster.Run cfg (Warranted cfg) r) :
    ∀ c ∈ r, ∃ g s, Elect cfg c g ∧ Sim cfg c g s ∧ Commits c s := by
  refine h.inv ⟨record cfg.init fun _ _ ↦ none, Raft.State.init _ _, ?_⟩ ?_
  · exact ⟨Elect.init cfg, Sim.init hf, Commits.init hf⟩
  · rintro c l c' ⟨g, s, he, hsim, hcom⟩ hok hs
    obtain ⟨s', hs', hsim'⟩ := hsim.step he hok.alive hs
    obtain ⟨-, hgr⟩ := hs'.inv_grows hsim.inv
    exact ⟨record c' g, s', (he.step hok.alive.keeps hs).elect, hsim', hcom.step hsim hgr hok hs⟩

omit [Storage σ C] in
/-- Two entries that were emitted under one index carry the same command. -/
theorem Emitted.command_eq (hi : Raft.Inv LogEntry.term s) {e e' : CommitEntry C}
    (he : Emitted s e) (he' : Emitted s e') (hidx : e.index = e'.index) :
    e.command = e'.command := by
  obtain ⟨t, k, hc, hcmd⟩ := he
  obtain ⟨u, m, hd, hcmd'⟩ := he'
  rw [← hidx] at hcmd'
  obtain ⟨x, hx, hxc⟩ := Option.map_eq_some_iff.mp hcmd
  obtain ⟨y, hy, hyc⟩ := Option.map_eq_some_iff.mp hcmd'
  have hxy : x = y := by
    rcases hi.confirmed_comparable hc hd with hp | hp
    · exact Option.some_inj.mp ((Raft.getElem?_of_isPrefix hp hx).symm.trans hy)
    · exact Option.some_inj.mp (hx.symm.trans (Raft.getElem?_of_isPrefix hp hy))
  rw [← hxc, ← hyc, hxy]

end Efis
