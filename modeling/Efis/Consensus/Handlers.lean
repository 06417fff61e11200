import Efis.Consensus.Node

/-!
# What a handler can do

One lemma for each handler of `Efis.Consensus.Node`, listing its outcomes.  The invariants of a
cluster are proved from these and do not look into the handlers again.

The outcomes are given up to `Same`: the identity, the term, the vote, the role and the log of a
node are what the other nodes can tell of it.  The storage, the cursors of a leader and the
process-wide leader are not, and the commit index is mentioned where it matters.
-/

set_option autoImplicit false

namespace Efis

variable {σ C P : Type}

/-- The two nodes agree in everything a vote or a log can depend on. -/
structure Same (m m' : Consensus σ C P) : Prop where
  id : m'.id = m.id
  peers : m'.peers = m.peers
  currentTerm : m'.currentTerm = m.currentTerm
  votedFor : m'.votedFor = m.votedFor
  voteCount : m'.voteCount = m.voteCount
  logs : m'.logs = m.logs
  state : m'.state = m.state

theorem Same.rfl {m : Consensus σ C P} : Same m m :=
  ⟨Eq.refl _, Eq.refl _, Eq.refl _, Eq.refl _, Eq.refl _, Eq.refl _, Eq.refl _⟩

theorem Same.trans {m m' m'' : Consensus σ C P} (h : Same m m') (h' : Same m' m'') :
    Same m m'' :=
  ⟨h'.id.trans h.id, h'.peers.trans h.peers, h'.currentTerm.trans h.currentTerm,
    h'.votedFor.trans h.votedFor, h'.voteCount.trans h.voteCount, h'.logs.trans h.logs,
    h'.state.trans h.state⟩

namespace Consensus

variable [Storage σ C] (n : Consensus σ C P)

theorem same_persistState : Same n n.persistState :=
  ⟨rfl, rfl, rfl, rfl, rfl, rfl, rfl⟩

/-! ## Stepping down -/

@[simp] theorem stepDown_logs (t : ℕ) : (n.stepDown t).logs = n.logs := by
  rw [stepDown]; split <;> rfl

@[simp] theorem stepDown_commitIndex (t : ℕ) : (n.stepDown t).commitIndex = n.commitIndex := by
  rw [stepDown]; split <;> rfl

theorem stepDown_currentTerm (t : ℕ) : (n.stepDown t).currentTerm = max n.currentTerm t := by
  rw [stepDown]
  split
  · rename_i h
    exact (max_eq_right h.le).symm
  · rename_i h
    exact (max_eq_left (not_lt.mp h)).symm

/-! ## The requests -/

/-- A vote request fails, is granted, or is refused. -/
theorem requestVote_cases (req : RequestVote) :
    (n.requestVote req = (n, .error "node is dead")) ∨
    (req.term = (n.stepDown req.term).currentTerm ∧
      ((n.stepDown req.term).votedFor = none ∨
        (n.stepDown req.term).votedFor = some req.candidateId) ∧
      upToDate req n.lastLog = true ∧
      n.requestVote req = (persistState { n.stepDown req.term with
        votedFor := some req.candidateId }, .ok ⟨(n.stepDown req.term).currentTerm, true⟩)) ∨
    (n.requestVote req = (n.stepDown req.term,
      .ok ⟨(n.stepDown req.term).currentTerm, false⟩)) := by
  simp only [requestVote]
  split
  · exact Or.inl rfl
  · split
    · rename_i h
      exact Or.inr (Or.inl ⟨h.1, h.2.1, h.2.2, rfl⟩)
    · exact Or.inr (Or.inr rfl)

omit [Storage σ C] in
theorem same_noteLeader (req : AppendEntries C) : Same n (n.noteLeader req) := by
  rw [noteLeader]
  split
  · exact ⟨rfl, rfl, rfl, rfl, rfl, rfl, rfl⟩
  · exact Same.rfl

omit [Storage σ C] in
theorem noteLeader_commitIndex (req : AppendEntries C) :
    (n.noteLeader req).commitIndex = n.commitIndex := by
  rw [noteLeader]; split <;> rfl

/-- A request to append fails, is refused, or is accepted. -/
theorem appendEntries_cases (req : AppendEntries C) :
    (n.appendEntries req = (n, .error "node is dead")) ∨
    (∃ c reply, n.appendEntries req = (c, .ok reply) ∧ reply.success = false ∧
      Same (n.stepDown req.term) c ∧ c.commitIndex = n.commitIndex) ∨
    (∃ c, n.appendEntries req = (c, .ok ⟨req.term, true, none, none⟩) ∧
      (n.stepDown req.term).currentTerm = req.term ∧
      prevOk n.logs req.prevLogIndex req.prevLogTerm = true ∧
      Same { n.stepDown req.term with logs := splice n.logs (insertAt req) req.entries } c ∧
      c.commitIndex = followCommit (splice n.logs (insertAt req) req.entries) n.commitIndex
        req.leaderCommit) := by
  have hge : req.term ≤ (n.stepDown req.term).currentTerm := by
    rw [stepDown_currentTerm]
    exact le_max_right _ _
  simp only [appendEntries]
  split
  · exact Or.inl rfl
  · have hsame := (n.stepDown req.term).same_noteLeader req
    have hci : ((n.stepDown req.term).noteLeader req).commitIndex = n.commitIndex := by
      rw [noteLeader_commitIndex, stepDown_commitIndex]
    generalize (n.stepDown req.term).noteLeader req = c at hsame hci ⊢
    have hlogs : c.logs = n.logs := by rw [hsame.logs, stepDown_logs]
    split
    · exact Or.inr (Or.inl ⟨c, _, rfl, rfl, hsame, hci⟩)
    · rename_i hlt
      split
      · exact Or.inr (Or.inl ⟨c, _, rfl, rfl, hsame, hci⟩)
      · rename_i hprev
        have hterm : c.currentTerm = req.term := by
          rw [hsame.currentTerm] at hlt ⊢
          omega
        rw [Bool.not_eq_false] at hprev
        refine Or.inr (Or.inr ⟨_, Prod.ext rfl ?_, ?_, hlogs ▸ hprev, ?_, ?_⟩)
        · rw [hterm]
        · rw [← hsame.currentTerm, hterm]
        · exact ⟨hsame.id, hsame.peers, hsame.currentTerm, hsame.votedFor, hsame.voteCount,
            by rw [persistState_logs, hlogs], hsame.state⟩
        · rw [persistState_commitIndex, hlogs, hci]

/-! ## Elections -/

/-- A tick of the election timer fails, does nothing, or starts an election. -/
theorem onStartElection_cases (elapsed : Bool) :
    n.onStartElection elapsed = none ∨ n.onStartElection elapsed = some (n, []) ∨
    ∃ c, n.onStartElection elapsed = some (c, c.peers.map fun p ↦
        (p.2, ⟨n.currentTerm + 1, n.id, (lastLogOf n.logs).index, (lastLogOf n.logs).term⟩)) ∧
      Same { n with state := .candidate, currentTerm := n.currentTerm + 1,
                    votedFor := some n.id, voteCount := 1 } c ∧
      c.commitIndex = n.commitIndex := by
  simp only [onStartElection]
  split
  · simp only [startElection]
    split
    · exact Or.inr (Or.inr ⟨_, rfl, ⟨rfl, rfl, rfl, rfl, rfl, rfl, rfl⟩, rfl⟩)
    · exact Or.inl rfl
  · exact Or.inr (Or.inl rfl)

/-- The reply to a vote request changes nothing, is of a later term, is counted, or wins. -/
theorem onVoteResult_cases (term : ℕ) (voted : Bool) :
    n.onVoteResult term voted = n ∨
    (n.currentTerm < term ∧ n.onVoteResult term voted = n.becomeFollower term) ∨
    (n.state = .candidate ∧ term = n.currentTerm ∧ voted = true ∧
      n.onVoteResult term voted = { n with voteCount := n.voteCount + 1 }) ∨
    (n.state = .candidate ∧ term = n.currentTerm ∧ voted = true ∧
      (n.peers.length + 1) / 2 + 1 ≤ n.voteCount + 1 ∧
      n.onVoteResult term voted = startLeader { n with voteCount := n.voteCount + 1 }) := by
  simp only [onVoteResult]
  split
  · exact Or.inl rfl
  · rename_i hcand
    rw [not_not] at hcand
    split
    · exact Or.inl rfl
    · split
      · rename_i h
        exact Or.inr (Or.inl ⟨h, rfl⟩)
      · have hterm : term = n.currentTerm := by omega
        split
        · rename_i hv
          split
          · rename_i hq
            exact Or.inr (Or.inr (Or.inr ⟨hcand, hterm, hv, hq, rfl⟩))
          · exact Or.inr (Or.inr (Or.inl ⟨hcand, hterm, hv, rfl⟩))
        · exact Or.inl rfl

/-! ## The leader -/

theorem onSubmit_cases (cmd : C) :
    n.onSubmit cmd = n ∨
    (n.state = .leader ∧ Same { n with logs := n.logs ++ [⟨cmd, n.currentTerm⟩] }
        (n.onSubmit cmd) ∧ (n.onSubmit cmd).commitIndex = n.commitIndex) := by
  rw [onSubmit]
  split
  · rename_i h
    exact Or.inr ⟨h, ⟨rfl, rfl, rfl, rfl, rfl, rfl, rfl⟩, rfl⟩
  · exact Or.inl rfl

/-- The request is for the suffix of the log `l` from `ni` on. -/
structure Suffix (l : List (LogEntry C)) (ni : ℕ) (req : AppendEntries C) : Prop where
  le : ni ≤ l.length
  entries : req.entries = l.drop ni
  insertAt : insertAt req = ni
  prevLogTerm : ∀ i, req.prevLogIndex = some i →
    req.prevLogTerm = l[i]?.map LogEntry.term

omit [Storage σ C] in
theorem leaderAe_spec {p : ℕ × P} {c : Consensus σ C P} {call : AppendCall C P}
    (h : n.leaderAe p = some (c, call)) :
    Same n c ∧ c.commitIndex = n.commitIndex ∧ Suffix n.logs call.ni call.req ∧
      call.req.term = n.currentTerm ∧ call.req.leader = n.id ∧
      call.req.leaderCommit = n.commitIndex := by
  simp only [leaderAe, Option.bind_eq_bind, Option.bind_eq_some_iff] at h
  obtain ⟨prevLogTerm, hprev, entries, hentries, h⟩ := h
  generalize min ((n.nextIndex p.1).getD n.logs.length) n.logs.length = ni at *
  rw [Option.some_inj, Prod.mk.injEq] at h
  obtain ⟨rfl, rfl⟩ := h
  rw [sliceFrom] at hentries
  split at hentries
  · rename_i hle
    rw [Option.some_inj] at hentries
    refine ⟨⟨rfl, rfl, rfl, rfl, rfl, rfl, rfl⟩, rfl, ⟨hle, hentries.symm, ?_, ?_⟩, rfl, rfl, rfl⟩
    · simp only [Consensus.insertAt]
      split
      · rename_i h0
        rw [h0]; rfl
      · rw [Option.map_some, Option.getD_some]
        omega
    · intro i hi
      simp only at hi ⊢
      split at hi
      · cases hi
      · rename_i h0
        rw [prevTerm, if_neg h0, Option.map_eq_some_iff] at hprev
        obtain ⟨e, he, rfl⟩ := hprev
        rw [Option.some_inj] at hi
        rw [← hi, he, Option.map_some]
  · cases hentries

omit [Storage σ C] in
theorem leaderAes_spec {ps : List (ℕ × P)} {c : Consensus σ C P} {calls : List (AppendCall C P)}
    (h : n.leaderAes ps = some (c, calls)) :
    Same n c ∧ c.commitIndex = n.commitIndex ∧
      ∀ call ∈ calls, Suffix n.logs call.ni call.req ∧ call.req.term = n.currentTerm ∧
        call.req.leader = n.id ∧ call.req.leaderCommit = n.commitIndex := by
  induction ps generalizing n calls with
  | nil =>
    rw [leaderAes, Option.some_inj, Prod.mk.injEq] at h
    obtain ⟨rfl, rfl⟩ := h
    exact ⟨Same.rfl, rfl, by simp⟩
  | cons p ps ih =>
    simp only [leaderAes, Option.bind_eq_bind, Option.bind_eq_some_iff] at h
    obtain ⟨⟨c₁, call⟩, h₁, ⟨c₂, calls'⟩, h₂, h⟩ := h
    rw [Option.some_inj, Prod.mk.injEq] at h
    obtain ⟨rfl, rfl⟩ := h
    obtain ⟨hs, hci, hcall⟩ := n.leaderAe_spec h₁
    obtain ⟨hs', hci', hcalls⟩ := ih c₁ h₂
    refine ⟨hs.trans hs', hci'.trans hci, ?_⟩
    intro a ha
    rcases List.mem_cons.mp ha with rfl | ha
    · exact hcall
    · rw [← hs.logs, ← hs.currentTerm, ← hs.id, ← hci]
      exact hcalls a ha

omit [Storage σ C] in
/-- A leader asks its peers to append a suffix of its log, and nobody else sends requests. -/
theorem sendLeaderAes_spec {c : Consensus σ C P} {calls : List (AppendCall C P)}
    (h : n.sendLeaderAes = some (c, calls)) :
    Same n c ∧ c.commitIndex = n.commitIndex ∧
      ∀ call ∈ calls, n.state = .leader ∧ Suffix n.logs call.ni call.req ∧
        call.req.term = n.currentTerm ∧ call.req.leader = n.id ∧
        call.req.leaderCommit = n.commitIndex := by
  rw [sendLeaderAes] at h
  split at h
  · rename_i hlead
    obtain ⟨hs, hci, hcalls⟩ := n.leaderAes_spec h
    exact ⟨hs, hci, fun call hcall ↦ ⟨hlead, hcalls call hcall⟩⟩
  · rw [Option.some_inj, Prod.mk.injEq] at h
    obtain ⟨rfl, rfl⟩ := h
    exact ⟨Same.rfl, rfl, by simp⟩

omit [Storage σ C] in
/-- Sending requests moves nothing but the next indices. -/
theorem leaderAes_node {ps : List (ℕ × P)} {c : Consensus σ C P} {calls : List (AppendCall C P)}
    (h : n.leaderAes ps = some (c, calls)) : ∃ next, c = { n with nextIndex := next } := by
  induction ps generalizing n calls with
  | nil =>
    rw [leaderAes, Option.some_inj, Prod.mk.injEq] at h
    exact ⟨n.nextIndex, h.1.symm⟩
  | cons p ps ih =>
    simp only [leaderAes, leaderAe, Option.bind_eq_bind, Option.bind_eq_some_iff] at h
    obtain ⟨_, ⟨_, -, _, -, h₁⟩, ⟨c', calls'⟩, h₂, h₃⟩ := h
    rw [← Option.some_inj.mp h₁] at h₂
    obtain ⟨rfl, -⟩ := Prod.mk.inj (Option.some_inj.mp h₃)
    obtain ⟨next, hnext⟩ := ih _ h₂
    exact ⟨next, hnext⟩

omit [Storage σ C] in
theorem sendLeaderAes_node {c : Consensus σ C P} {calls : List (AppendCall C P)}
    (h : n.sendLeaderAes = some (c, calls)) : ∃ next, c = { n with nextIndex := next } := by
  rw [sendLeaderAes] at h
  split at h
  · exact n.leaderAes_node h
  · rw [Option.some_inj, Prod.mk.injEq] at h
    exact ⟨n.nextIndex, h.1.symm⟩

omit [Storage σ C] in
/-- The commit index stays, or moves to an index that may be committed. -/
theorem advanceCommit_cases :
    n.advanceCommit = n.commitIndex ∨
    ∃ i, n.commitIndex.getD 0 ≤ i ∧ i < n.logs.length ∧ n.mayCommit i = true ∧
      n.advanceCommit = some i := by
  have key : ∀ (is : List ℕ) (ci : Option ℕ),
      is.foldl (fun ci i ↦ if n.mayCommit i then some i else ci) ci = ci ∨
      ∃ i ∈ is, n.mayCommit i = true ∧
        is.foldl (fun ci i ↦ if n.mayCommit i then some i else ci) ci = some i := by
    intro is
    induction is with
    | nil => exact fun ci ↦ Or.inl rfl
    | cons i is ih =>
      intro ci
      rw [List.foldl_cons]
      rcases ih (if n.mayCommit i then some i else ci) with h | ⟨j, hj, hm, h⟩
      · rw [h]
        split
        · rename_i hm
          exact Or.inr ⟨i, List.mem_cons_self, hm, rfl⟩
        · exact Or.inl rfl
      · exact Or.inr ⟨j, List.mem_cons_of_mem i hj, hm, h⟩
  rcases key _ n.commitIndex with h | ⟨i, hi, hm, h⟩
  · exact Or.inl h
  · rw [List.mem_range'_1] at hi
    exact Or.inr ⟨i, hi.1, by omega, hm, h⟩

/-- The reply to a request to append is of a later term, or moves at most the leader's records
and its commit index. -/
theorem handleAeRes_cases {peerId ni : ℕ} {reply : AppendEntriesReply} {c : Consensus σ C P}
    (h : n.handleAeRes peerId ni reply = some c) :
    (n.currentTerm < reply.term ∧ c = n.becomeFollower reply.term) ∨
    (Same n c ∧ c.commitIndex = n.commitIndex) ∨
    (Same n c ∧ n.state = .leader ∧ n.currentTerm = reply.term ∧ reply.success = true ∧
      c.commitIndex = (n.recordMatch peerId (ni + (n.logs.drop ni).length)).advanceCommit) := by
  rw [handleAeRes] at h
  split at h
  · rename_i hlt
    rw [Option.some_inj] at h
    exact Or.inl ⟨hlt, h.symm⟩
  · simp only [Option.bind_eq_bind, Option.bind_eq_some_iff] at h
    obtain ⟨entries, hentries, h⟩ := h
    have hdrop : entries = n.logs.drop ni := by
      rw [sliceFrom] at hentries
      split at hentries
      · exact (Option.some_inj.mp hentries).symm
      · cases hentries
    split at h
    · rename_i hlead
      split at h
      · rename_i hsucc
        rw [Option.some_inj] at h
        subst h hdrop
        exact Or.inr (Or.inr ⟨⟨rfl, rfl, rfl, rfl, rfl, rfl, rfl⟩, hlead.1, hlead.2, hsucc, rfl⟩)
      · rw [Option.some_inj] at h
        subst h
        exact Or.inr (Or.inl ⟨⟨rfl, rfl, rfl, rfl, rfl, rfl, rfl⟩, rfl⟩)
    · rw [Option.some_inj] at h
      subst h
      exact Or.inr (Or.inl ⟨Same.rfl, rfl⟩)

/-- The reply to a request to append makes a node step down, or moves what a leader keeps. -/
theorem handleAeRes_node {peerId ni : ℕ} {reply : AppendEntriesReply} {c : Consensus σ C P}
    (h : n.handleAeRes peerId ni reply = some c) :
    (n.currentTerm < reply.term ∧ c = n.becomeFollower reply.term) ∨
    (¬ n.currentTerm < reply.term ∧ ∃ next mat ci,
      c = { n with nextIndex := next, matchIndex := mat, commitIndex := ci }) := by
  rw [handleAeRes] at h
  split at h
  · rename_i ht
    exact Or.inl ⟨ht, (Option.some_inj.mp h).symm⟩
  · rename_i ht
    refine Or.inr ⟨ht, ?_⟩
    obtain ⟨_, -, h⟩ := Option.bind_eq_some_iff.mp h
    split at h
    · split at h
      · exact ⟨_, _, _, (Option.some_inj.mp h).symm⟩
      · exact ⟨_, n.matchIndex, n.commitIndex, (Option.some_inj.mp h).symm⟩
    · exact ⟨n.nextIndex, n.matchIndex, n.commitIndex, (Option.some_inj.mp h).symm⟩

omit [Storage σ C] in
/-- `send_commits` moves nothing but the last applied index. -/
theorem sendCommits_node {c : Consensus σ C P} {entries : List (CommitEntry C)}
    (h : n.sendCommits = some (c, entries)) : ∃ la, c = { n with lastApplied := la } := by
  rw [sendCommits] at h
  split at h
  · obtain ⟨rfl, -⟩ := Prod.mk.inj (Option.some_inj.mp h)
    exact ⟨n.lastApplied, rfl⟩
  · simp only at h
    split at h
    · obtain ⟨_, -, h⟩ := Option.bind_eq_some_iff.mp h
      exact ⟨_, (Prod.mk.inj (Option.some_inj.mp h)).1.symm⟩
    · obtain ⟨rfl, -⟩ := Prod.mk.inj (Option.some_inj.mp h)
      exact ⟨n.lastApplied, rfl⟩

omit [Storage σ C] in
/-- What `send_commits` emits lies in the log below the commit index. -/
theorem sendCommits_spec {c : Consensus σ C P} {entries : List (CommitEntry C)}
    (h : n.sendCommits = some (c, entries)) :
    Same n c ∧ c.commitIndex = n.commitIndex ∧
      ∀ e ∈ entries, ∃ ci, n.commitIndex = some ci ∧ e.index ≤ ci ∧
        (n.logs[e.index]?).map LogEntry.command = some e.command := by
  rw [sendCommits] at h
  split at h
  · rw [Option.some_inj, Prod.mk.injEq] at h
    obtain ⟨rfl, rfl⟩ := h
    exact ⟨Same.rfl, rfl, by simp⟩
  · rename_i ci hci
    simp only at h
    generalize commitStart n.lastApplied = start at h
    split at h
    · rename_i hstart
      simp only [Option.bind_eq_bind, Option.bind_eq_some_iff] at h
      obtain ⟨slice, hslice, h⟩ := h
      rw [Option.some_inj, Prod.mk.injEq] at h
      obtain ⟨rfl, rfl⟩ := h
      refine ⟨⟨rfl, rfl, rfl, rfl, rfl, rfl, rfl⟩, rfl, ?_⟩
      rw [sliceIncl] at hslice
      split at hslice
      · rename_i hlt
        rw [Option.some_inj] at hslice
        subst hslice
        intro e he
        obtain ⟨⟨a, k⟩, hak, rfl⟩ := List.mem_map.mp he
        rw [List.mem_zipIdx_iff_getElem?] at hak
        simp only [List.getElem?_drop, List.getElem?_take] at hak
        split at hak
        · rename_i hk
          exact ⟨ci, hci, by simp only; omega, by simp only; rw [hak, Option.map_some]⟩
        · cases hak
      · cases hslice
    · rw [Option.some_inj, Prod.mk.injEq] at h
      obtain ⟨rfl, rfl⟩ := h
      exact ⟨Same.rfl, rfl, by simp⟩

end Consensus

end Efis
