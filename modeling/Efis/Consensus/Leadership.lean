import Efis.Consensus.Commit

/-!
# The log of a leader

`_append_entries` does not look at the role of the node, and would cut the log of a leader if it
got a request of its own term.  That it never does is a fact about the cluster: whoever sends such a
request was elected in that term, and nobody sends requests to itself (`Sent`).  So a leader only
ever appends, which is `leader_append_only`.

What a leader has sent may be answered late, when it does not lead any more.  `handle_ae_res` takes
a slice of the log from the index on that the request was sent for, and it does so before it looks
at the role.  While the node leads, the log is at least as long as it was.  Afterwards the next
leader may cut it, and if it is cut below that index, the slice is out of range.

The other slice that can be out of range is that of `send_commits`, if the log was cut below the
commit index.  `Steady` excludes these two cuts, except that the answer to a request may be lost
after the first of them, and then all indices are in range (`indices_in_range`).

Both are proved from what one node does on one message: `Cluster.step_handle` says that a step of
a cluster is just that.
-/

set_option autoImplicit false

namespace Efis

open Consensus

variable {n : ℕ} {σ C P : Type} [Storage σ C]

/-! ## A reign -/

/-- The term does not decrease, and who leads it goes on to do so and only appends. -/
structure Reign (m m' : Consensus σ C P) : Prop where
  le : m.currentTerm ≤ m'.currentTerm
  keep : m.state = .leader → m'.currentTerm = m.currentTerm →
    m'.state = .leader ∧ m.logs <+: m'.logs

namespace Reign

variable {m m' m'' : Consensus σ C P}

omit [Storage σ C] in
theorem of_same (h : Same m m') : Reign m m' :=
  ⟨h.currentTerm.ge, fun hl _ ↦ ⟨h.state.trans hl, h.logs ▸ List.prefix_rfl⟩⟩

omit [Storage σ C] in
theorem rfl : Reign m m := of_same Same.rfl

omit [Storage σ C] in
theorem trans (h : Reign m m') (h' : Reign m' m'') : Reign m m'' where
  le := h.le.trans h'.le
  keep hl ht := by
    have hmid : m'.currentTerm = m.currentTerm := Nat.le_antisymm (ht ▸ h'.le) h.le
    obtain ⟨hs, hp⟩ := h.keep hl hmid
    obtain ⟨hs', hp'⟩ := h'.keep hs (ht.trans hmid.symm)
    exact ⟨hs', hp.trans hp'⟩

omit [Storage σ C] in
/-- A node that moves on to a later term. -/
theorem of_lt (h : m.currentTerm < m'.currentTerm) : Reign m m' :=
  ⟨h.le, fun _ ht ↦ absurd ht h.ne'⟩

omit [Storage σ C] in
/-- A node that did not lead. -/
theorem of_ne (h : m.currentTerm ≤ m'.currentTerm) (hl : m.state ≠ .leader) : Reign m m' :=
  ⟨h, fun hs ↦ absurd hs hl⟩

theorem stepDown (m : Consensus σ C P) (t : ℕ) : Reign m (m.stepDown t) := by
  rw [Consensus.stepDown]
  split
  · rename_i h
    exact of_lt h
  · exact rfl

theorem appendEntries (m : Consensus σ C P) {req : AppendEntries C}
    (hreq : m.state = .leader → req.term ≠ m.currentTerm) : Reign m (m.appendEntries req).1 := by
  rcases m.appendEntries_cases req with h | ⟨c, _, h, -, hs, -⟩ | ⟨c, h, ht, -, hs, -⟩
  · rw [h]
    exact rfl
  · rw [h]
    exact (stepDown m req.term).trans (of_same hs)
  · have hterm : c.currentTerm = req.term := hs.currentTerm.trans ht
    have hle := (stepDown m req.term).le
    rw [h]
    change Reign m c
    by_cases hl : m.state = .leader
    · have hne := hreq hl
      exact of_lt (by omega)
    · exact of_ne (by omega) hl

/-- **Who leads a term only appends**, as long as no request of the same term arrives. -/
theorem handle {op : Op C} (h : m.handle op = some m')
    (hop : ∀ req, op = .appendEntries req → m.state = .leader → req.term ≠ m.currentTerm) :
    Reign m m' := by
  cases op with
  | startElection elapsed =>
    obtain ⟨⟨c, reqs⟩, hc, rfl⟩ := Option.map_eq_some_iff.mp h
    rcases m.onStartElection_cases elapsed with hn | hn | ⟨c', hn, hs, -⟩
    · rw [hn] at hc
      cases hc
    · obtain ⟨rfl, -⟩ := Prod.mk.inj (Option.some_inj.mp (hn.symm.trans hc))
      exact rfl
    · obtain ⟨rfl, -⟩ := Prod.mk.inj (Option.some_inj.mp (hn.symm.trans hc))
      exact of_lt (hs.currentTerm ▸ Nat.lt_succ_self _)
  | voteResult term voted =>
    obtain rfl := Option.some_inj.mp h
    rcases m.onVoteResult_cases term voted with h | ⟨ht, h⟩ | ⟨hc, -, -, h⟩ | ⟨hc, -, -, -, h⟩
    · rw [h]
      exact rfl
    · rw [h]
      exact of_lt ht
    · rw [h]
      exact of_ne (Nat.le_refl _) (by rw [hc]; decide)
    · rw [h]
      exact of_ne (Nat.le_refl _) (by rw [hc]; decide)
  | requestVote req =>
    obtain rfl := Option.some_inj.mp h
    rcases m.requestVote_cases req with h | ⟨-, -, -, h⟩ | h
    · rw [h]
      exact rfl
    · rw [h]
      exact (stepDown m req.term).trans ⟨Nat.le_refl _, fun hl _ ↦ ⟨hl, List.prefix_rfl⟩⟩
    · rw [h]
      exact stepDown m req.term
  | appendEntries req =>
    obtain rfl := Option.some_inj.mp h
    exact appendEntries m (hop req (Eq.refl _))
  | submit cmd =>
    obtain rfl := Option.some_inj.mp h
    rcases m.onSubmit_cases cmd with h | ⟨hl, hs, -⟩
    · rw [h]
      exact rfl
    · exact ⟨hs.currentTerm.ge, fun _ _ ↦ ⟨hs.state.trans hl, hs.logs ▸ List.prefix_append _ _⟩⟩
  | sendAes =>
    obtain ⟨⟨c, calls⟩, hc, rfl⟩ := Option.map_eq_some_iff.mp h
    exact of_same (m.sendLeaderAes_spec hc).1
  | aeRes peerId ni reply =>
    rcases m.handleAeRes_cases h with ⟨hlt, rfl⟩ | ⟨hs, -⟩ | ⟨hs, -⟩
    · exact of_lt hlt
    · exact of_same hs
    · exact of_same hs
  | sendCommit =>
    obtain ⟨⟨c, entries⟩, hc, rfl⟩ := Option.map_eq_some_iff.mp h
    exact of_same (m.sendCommits_spec hc).1

end Reign

/-! ## What was sent -/

variable {cfg : Config n σ C} {c c' : Cluster n σ C} {g g' : Fin n → ℕ → Option String}

/-- The call was sent by the leader of its term to another node. -/
structure Sent (cfg : Config n σ C) (g : Fin n → ℕ → Option String) (m : EntriesCall n C) :
    Prop where
  elected : Elected cfg g m.call.req.term m.src
  ne : m.call.client ≠ m.src

theorem Sent.mono {m : EntriesCall n C} (h : Sent cfg g m)
    (hg : ∀ v t a, g v t = some a → g' v t = some a) : Sent cfg g' m :=
  ⟨h.elected.mono hg, h.ne⟩

/-- A node that leads the term of a request is not asked to follow it. -/
theorem Sent.term_ne {m : EntriesCall n C} (h : Sent cfg g m) (he : Elect cfg c g)
    (hl : (c.nodes m.call.client).state = .leader) :
    m.call.req.term ≠ (c.nodes m.call.client).currentTerm := by
  intro ht
  have hlead := he.lead _ hl
  rw [← ht] at hlead
  exact h.ne (hlead.unique h.elected)

/-- Every call under way, answered or not, was sent by a leader. -/
structure AllSent (cfg : Config n σ C) (c : Cluster n σ C) (g : Fin n → ℕ → Option String) :
    Prop where
  calls : ∀ m ∈ c.calls, Sent cfg g m

omit [Storage σ C] in
theorem Consensus.leaderAes_client {m m' : Consensus σ C P} {ps : List (ℕ × P)}
    {calls : List (AppendCall C P)} (h : m.leaderAes ps = some (m', calls)) :
    ∀ call ∈ calls, call.client ∈ ps.map Prod.snd := by
  induction ps generalizing m calls with
  | nil =>
    rw [leaderAes, Option.some_inj, Prod.mk.injEq] at h
    obtain ⟨-, rfl⟩ := h
    exact fun _ hc ↦ absurd hc List.not_mem_nil
  | cons p ps ih =>
    simp only [leaderAes, leaderAe, Option.bind_eq_bind, Option.bind_eq_some_iff] at h
    obtain ⟨_, ⟨_, -, _, -, h₁⟩, ⟨c', calls'⟩, h₂, h₃⟩ := h
    obtain ⟨rfl, rfl⟩ := Prod.mk.inj (Option.some_inj.mp h₃)
    obtain rfl := Option.some_inj.mp h₁
    intro call hcall
    rcases List.mem_cons.mp hcall with rfl | hcall
    · exact List.mem_cons_self
    · exact List.mem_cons_of_mem _ (ih h₂ call hcall)

/-- What a leader sends. -/
theorem Elect.sent (he : Elect cfg c g) {i : Fin n} {m : Consensus σ C (Fin n)}
    {calls : List (AppendCall C (Fin n))} (h : (c.nodes i).sendLeaderAes = some (m, calls)) :
    ∀ call ∈ calls, Sent cfg g ⟨i, call⟩ := by
  intro call hcall
  obtain ⟨hl, -, ht, -⟩ := ((c.nodes i).sendLeaderAes_spec h).2.2 call hcall
  rw [sendLeaderAes, if_pos hl] at h
  have hmem := leaderAes_client h call hcall
  rw [he.peers, cfg.mem_urls] at hmem
  exact ⟨ht ▸ he.lead i hl, hmem⟩

/-- A call that is under way after a step was under way before, or is sent in it. -/
theorem AllSent.of_step (h : AllSent cfg c g) (he : Elect cfg c g) {l : Label n σ C}
    (hs : c.step l = some c') : ∀ a ∈ c'.calls, Sent cfg g a := by
  intro a ha
  rcases Cluster.step_calls hs a ha with ha | ⟨calls, hm, hcall⟩
  · exact h.calls a ha
  · exact he.sent hm a.call hcall

/-- Every leader only appends in a step. -/
theorem AllSent.reign (h : AllSent cfg c g) (he : Elect cfg c g) {l : Label n σ C} (hl : l.Alive)
    (hs : c.step l = some c') (v : Fin n) : Reign (c.nodes v) (c'.nodes v) := by
  obtain ⟨i, op, hask, -, hdoes⟩ := Cluster.step_handle hl hs
  refine hdoes.forall (fun _ ↦ Reign.rfl) (fun m hm ↦ Reign.handle hm ?_) v
  rintro req rfl hlead
  obtain ⟨k, a, rfl, ha, rfl, rfl⟩ := Cluster.ask_appendEntries hask
  exact (h.calls a (Cluster.mem_calls_of_req (List.mem_of_getElem? ha))).term_ne he hlead

/-- Along a run without crashes, all calls were sent by leaders, and leaders only append. -/
theorem Cluster.Run.reign {r : List (Cluster n σ C)}
    (h : Cluster.Run cfg (fun _ l ↦ l.Alive) r) :
    ∃ g, ∀ c ∈ r.head?, Elect cfg c g ∧ AllSent cfg c g ∧
      ∀ d ∈ r, ∀ v, Reign (d.nodes v) (c.nodes v) := by
  induction h with
  | init =>
    refine ⟨record cfg.init fun _ _ ↦ none, fun c hc ↦ ?_⟩
    rw [List.head?_cons, Option.mem_some_iff] at hc
    refine hc ▸ ⟨Elect.init cfg, ⟨nofun⟩, fun d hd v ↦ ?_⟩
    rw [List.mem_singleton.mp hd]
    exact Reign.rfl
  | @step c c' r l hr hok hs ih =>
    obtain ⟨g, ih⟩ := ih
    obtain ⟨he, hsent, hreign⟩ := ih c rfl
    have hnext := he.step hok.keeps hs
    have hstep := hsent.reign he hok hs
    refine ⟨record c' g, fun d hd ↦ ?_⟩
    rw [List.head?_cons, Option.mem_some_iff] at hd
    refine hd ▸ ⟨hnext.elect, ⟨fun a ha ↦ ?_⟩, fun d hd v ↦ ?_⟩
    · exact (hsent.of_step he hs a ha).mono hnext.grows
    · rcases List.mem_cons.mp hd with rfl | hd
      · exact Reign.rfl
      · exact (hreign d hd v).trans (hstep v)

/-- **Leader append-only.**  A node that leads a term goes on to do so until it leaves the term, and
all the while its log only grows. -/
theorem leader_append_only (cfg : Config n σ C) {r : List (Cluster n σ C)}
    (h : Cluster.Run cfg (fun _ l ↦ l.Alive) (c :: r)) {d : Cluster n σ C} (hd : d ∈ c :: r)
    {i : Fin n} (hl : (d.nodes i).state = .leader)
    (ht : (c.nodes i).currentTerm = (d.nodes i).currentTerm) :
    (c.nodes i).state = .leader ∧ (d.nodes i).logs <+: (c.nodes i).logs := by
  obtain ⟨g, h⟩ := h.reign
  exact ((h c rfl).2.2 d hd i).keep hl ht

/-- A leader takes a command, replicates it, and takes another one. -/
theorem leader_append_only_trio :
    let ls := [.startElection 0 true, .voteReq 0, .voteReply 0, .submit 0 7, .sendAes 0,
      .appendReq 0, .appendReply 0, .submit 0 8]
    ∃ d ∈ trioRun (fun _ l ↦ l.Alive) ls, (d.nodes 0).logs = [⟨7, 1⟩] ∧
      (d.nodes 0).logs <+: ((trioEnd (fun _ l ↦ l.Alive) ls).nodes 0).logs := by
  intro ls
  have hne : trioRun (fun _ l ↦ l.Alive) ls ≠ [] := by decide
  have hmem := (trioRun (fun _ l ↦ l.Alive) ls).get_mem ⟨1, by decide⟩
  refine ⟨_, hmem, by decide, ?_⟩
  exact (leader_append_only trio (run_trioRun _ ls hne) (trioRun_eq _ ls hne ▸ hmem) (by decide)
    (by decide)).2

/-! ## Indices -/

/-- The commit index is an index of the log. -/
def Within (m : Consensus σ C P) : Prop := ∀ ci ∈ m.commitIndex, ci < m.logs.length

/-- If the node accepts the request, its log is not cut below index `k`: the request reaches as far,
or it has nothing that the log does not have. -/
def Leaves (m : Consensus σ C P) (req : AppendEntries C) (k : ℕ) : Prop :=
  m.currentTerm ≤ req.term → prevOk m.logs req.prevLogIndex req.prevLogTerm = true →
    reach req < k → matchLen (m.logs.drop (insertAt req)) req.entries = req.entries.length

/-- The request does not cut the log below the commit index. -/
def Agrees (m : Consensus σ C P) (req : AppendEntries C) : Prop :=
  ∀ ci ∈ m.commitIndex, Leaves m req (ci + 1)

/-- Requests do not cut a log below the commit index, nor below the index from which the node itself
has asked another to append, unless the answer to that is lost.  The other steps are free, except
that there is no crash. -/
def Steady (lost : EntriesCall n C → Prop) (c : Cluster n σ C) : Label n σ C → Prop
  | .appendReq k => ∀ m ∈ c.appendReqs[k]?, Agrees (c.nodes m.call.client) m.call.req ∧
    ∀ a ∈ c.calls, a.src = m.call.client →
      lost a ∨ Leaves (c.nodes m.call.client) m.call.req a.call.ni
  | .appendReply k => ∀ m ∈ c.appendReplies[k]?, ¬ lost m.call
  | l => l.Alive

instance (m : Consensus σ C P) (req : AppendEntries C) (k : ℕ) : Decidable (Leaves m req k) := by
  unfold Leaves
  infer_instance

instance (m : Consensus σ C P) (req : AppendEntries C) : Decidable (Agrees m req) := by
  unfold Agrees
  infer_instance

variable {lost : EntriesCall n C → Prop}

instance [DecidablePred lost] (c : Cluster n σ C) : (l : Label n σ C) → Decidable (Steady lost c l)
  | .appendReq k => inferInstanceAs (Decidable
    (∀ m ∈ c.appendReqs[k]?, Agrees (c.nodes m.call.client) m.call.req ∧
      ∀ a ∈ c.calls, a.src = m.call.client →
        lost a ∨ Leaves (c.nodes m.call.client) m.call.req a.call.ni))
  | .appendReply k => inferInstanceAs (Decidable (∀ m ∈ c.appendReplies[k]?, ¬ lost m.call))
  | .startElection _ _ | .submit _ _ | .sendAes _ | .sendCommit _ | .voteReq _ | .voteReply _ =>
    inferInstanceAs (Decidable True)
  | .restart _ _ | .crashVote _ _ | .crashAppend _ _ => inferInstanceAs (Decidable False)

omit [Storage σ C] in
theorem Steady.alive {l : Label n σ C} (h : Steady lost c l) : l.Alive := by
  cases l with
  | appendReq k => trivial
  | appendReply k => trivial
  | _ => exact h

/-- No index is past the end of the log while the message is handled: neither a slice, nor where
the entries of a request are put. -/
def Consensus.InRange (m : Consensus σ C P) : Op C → Prop
  | .sendAes => m.sendLeaderAes.isSome = true
  | .sendCommit => m.sendCommits.isSome = true
  | .aeRes peerId ni reply => (m.handleAeRes peerId ni reply).isSome = true
  | .appendEntries req => prevOk m.logs req.prevLogIndex req.prevLogTerm = true →
    insertAt req + matchLen (m.logs.drop (insertAt req)) req.entries ≤ m.logs.length
  | _ => True

omit [Storage σ C] in
theorem insertAt_le_of_prevOk {logs : List (LogEntry C)} {req : AppendEntries C}
    (h : prevOk logs req.prevLogIndex req.prevLogTerm = true) : insertAt req ≤ logs.length := by
  rw [insertAt]
  cases hi : req.prevLogIndex with
  | none => exact Nat.zero_le _
  | some i =>
    rw [hi] at h
    cases ht : req.prevLogTerm with
    | none =>
      rw [ht] at h
      cases h
    | some t =>
      rw [ht, prevOk] at h
      cases he : logs[i]? with
      | none =>
        rw [he] at h
        cases h
      | some e => exact (List.getElem?_eq_some_iff.mp he).1

omit [Storage σ C] in
/-- Where the entries of an accepted request are put is within the log. -/
theorem splice_in_range {logs : List (LogEntry C)} {req : AppendEntries C}
    (h : prevOk logs req.prevLogIndex req.prevLogTerm = true) :
    insertAt req + matchLen (logs.drop (insertAt req)) req.entries ≤ logs.length := by
  have hat := insertAt_le_of_prevOk h
  have hle := matchLen_le_left (logs.drop (insertAt req)) req.entries
  rw [List.length_drop] at hle
  omega

omit [Storage σ C] in
theorem length_splice {logs : List (LogEntry C)} {req : AppendEntries C}
    (h : prevOk logs req.prevLogIndex req.prevLogTerm = true) :
    (splice logs (insertAt req) req.entries).length =
      if matchLen (logs.drop (insertAt req)) req.entries < req.entries.length then reach req
      else logs.length := by
  have hle := splice_in_range h
  rw [splice]
  split
  · rename_i hlt
    rw [List.length_append, List.length_take_of_le hle, List.length_drop, reach]
    omega
  · rfl

/-- **A log stays as long as it was**, up to the index that a request does not cut it below. -/
theorem Leaves.handle {m m' : Consensus σ C P} {op : Op C} (h : m.handle op = some m') {k : ℕ}
    (hop : ∀ req, op = .appendEntries req → Leaves m req k) (hk : k ≤ m.logs.length) :
    k ≤ m'.logs.length := by
  cases op with
  | appendEntries req =>
    obtain rfl := Option.some_inj.mp h
    rcases m.appendEntries_cases req with h | ⟨c, _, h, -, hs, -⟩ | ⟨c, h, ht, hp, hs, -⟩
    · rw [h]
      exact hk
    · rw [h, hs.logs, stepDown_logs]
      exact hk
    · have hterm : m.currentTerm ≤ req.term := ht ▸ (Reign.stepDown m req.term).le
      rw [h, hs.logs, length_splice hp]
      split
      · rename_i hnew
        by_contra hlt
        exact hnew.ne (hop req rfl hterm hp (Nat.lt_of_not_le hlt))
      · exact hk
  | submit cmd =>
    obtain rfl := Option.some_inj.mp h
    rcases m.onSubmit_cases cmd with h | ⟨-, hs, -⟩
    · rw [h]
      exact hk
    · rw [hs.logs]
      exact hk.trans (List.prefix_append _ _).length_le
  | _ => exact hk.trans_eq (congrArg List.length (handle_logs h (by simp) (by simp)).1.symm)

namespace Within

variable {m m' : Consensus σ C P}

omit [Storage σ C] in
theorem of_le (h : Within m) (hc : m'.commitIndex = m.commitIndex)
    (hl : m.logs.length ≤ m'.logs.length) : Within m' := by
  intro ci hci
  rw [hc] at hci
  exact (h ci hci).trans_le hl

theorem appendEntries (h : Within m) {req : AppendEntries C} (ha : Agrees m req) :
    Within (m.appendEntries req).1 := by
  rcases m.appendEntries_cases req with hc | ⟨c, _, hc, -, hs, hci⟩ | ⟨c, hc, ht, hp, hs, hci⟩
  · rw [hc]
    exact h
  · rw [hc]
    exact h.of_le hci (by rw [hs.logs, stepDown_logs])
  · have hterm : m.currentTerm ≤ req.term := ht ▸ (Reign.stepDown m req.term).le
    have hlen := length_splice hp
    have hlogs : c.logs.length = (splice m.logs (insertAt req) req.entries).length := by
      rw [hs.logs]
    rw [hc]
    intro ci hmem
    rw [hci, Option.mem_def] at hmem
    change ci < c.logs.length
    rcases followCommit_cases (splice m.logs (insertAt req) req.entries) m.commitIndex
      req.leaderCommit with hf | ⟨k, -, hpos, -, hf⟩
    · -- the commit index stays, and so does what is below it
      rw [hf] at hmem
      have hlt := h ci hmem
      rw [hlogs, hlen]
      split
      · rename_i hnew
        rcases Nat.lt_or_ge ci (reach req) with hr | hr
        · exact hr
        · exact absurd (ha ci hmem hterm hp (Nat.lt_succ_of_le hr)) hnew.ne
      · exact hlt
    · rw [hf, Option.some_inj] at hmem
      omega

/-- **The commit index stays an index of the log.** -/
theorem handle (h : Within m) {op : Op C} (hm : m.handle op = some m')
    (hop : ∀ req, op = .appendEntries req → Agrees m req) : Within m' := by
  cases op with
  | startElection elapsed =>
    obtain ⟨⟨c, reqs⟩, hc, rfl⟩ := Option.map_eq_some_iff.mp hm
    rcases m.onStartElection_cases elapsed with hn | hn | ⟨c', hn, hs, hci⟩
    · rw [hn] at hc
      cases hc
    · obtain ⟨rfl, -⟩ := Prod.mk.inj (Option.some_inj.mp (hn.symm.trans hc))
      exact h
    · obtain ⟨rfl, -⟩ := Prod.mk.inj (Option.some_inj.mp (hn.symm.trans hc))
      exact h.of_le hci (by rw [hs.logs])
  | voteResult term voted =>
    obtain rfl := Option.some_inj.mp hm
    rcases m.onVoteResult_cases term voted with hc | ⟨-, hc⟩ | ⟨-, -, -, hc⟩ | ⟨-, -, -, -, hc⟩ <;>
    · rw [hc]
      exact h.of_le rfl (Nat.le_refl _)
  | requestVote req =>
    obtain rfl := Option.some_inj.mp hm
    have hdown : Within (m.stepDown req.term) :=
      h.of_le (m.stepDown_commitIndex _) (by rw [stepDown_logs])
    rcases m.requestVote_cases req with hc | ⟨-, -, -, hc⟩ | hc
    · rw [hc]
      exact h
    · rw [hc]
      exact hdown.of_le rfl (Nat.le_refl _)
    · rw [hc]
      exact hdown
  | appendEntries req =>
    obtain rfl := Option.some_inj.mp hm
    exact h.appendEntries (hop req rfl)
  | submit cmd =>
    obtain rfl := Option.some_inj.mp hm
    rcases m.onSubmit_cases cmd with hc | ⟨-, hs, hci⟩
    · rw [hc]
      exact h
    · exact h.of_le hci (by rw [hs.logs]; exact (List.prefix_append _ _).length_le)
  | sendAes =>
    obtain ⟨⟨c, calls⟩, hc, rfl⟩ := Option.map_eq_some_iff.mp hm
    obtain ⟨next, rfl⟩ := m.sendLeaderAes_node hc
    exact h.of_le rfl (Nat.le_refl _)
  | aeRes peerId ni reply =>
    rcases m.handleAeRes_cases hm with ⟨-, rfl⟩ | ⟨hs, hci⟩ | ⟨hs, -, -, -, hci⟩
    · exact h.of_le rfl (Nat.le_refl _)
    · exact h.of_le hci (by rw [hs.logs])
    · rcases advanceCommit_cases (m.recordMatch peerId (ni + (m.logs.drop ni).length)) with
        ha | ⟨i, -, hlt, -, ha⟩
      · exact h.of_le (hci.trans ha) (by rw [hs.logs])
      · intro ci hmem
        rw [hci, ha, Option.mem_some_iff] at hmem
        rw [hs.logs, ← hmem]
        exact hlt
  | sendCommit =>
    obtain ⟨⟨c, entries⟩, hc, rfl⟩ := Option.map_eq_some_iff.mp hm
    obtain ⟨la, rfl⟩ := m.sendCommits_node hc
    exact h.of_le rfl (Nat.le_refl _)

omit [Storage σ C] in
theorem sendCommits_isSome (h : Within m) : m.sendCommits.isSome = true := by
  rw [sendCommits]
  split
  · rfl
  · rename_i ci hci
    simp only
    split
    · rw [sliceIncl, if_pos (h ci hci)]
      rfl
    · rfl

end Within

omit [Storage σ C] in
/-- The next index is clamped to the length of the log, so nothing is past the end of it. -/
theorem sendLeaderAes_isSome (m : Consensus σ C P) : m.sendLeaderAes.isSome = true := by
  have hone : ∀ (m : Consensus σ C P) (p : ℕ × P), (m.leaderAe p).isSome = true := by
    intro m p
    rw [leaderAe]
    generalize hni : min ((m.nextIndex p.1).getD m.logs.length) m.logs.length = ni
    have hle : ni ≤ m.logs.length := hni ▸ Nat.min_le_right _ _
    have hprev : ∃ t, prevTerm m.logs ni = some t := by
      rw [prevTerm]
      split
      · exact ⟨_, rfl⟩
      · rw [List.getElem?_eq_getElem (by omega)]
        exact ⟨_, rfl⟩
    obtain ⟨t, ht⟩ := hprev
    simp only [ht, sliceFrom, if_pos hle]
    rfl
  have hall : ∀ (ps : List (ℕ × P)) (m : Consensus σ C P), (m.leaderAes ps).isSome = true := by
    intro ps
    induction ps with
    | nil => exact fun _ ↦ rfl
    | cons p ps ih =>
      intro m
      obtain ⟨⟨m', call⟩, h₁⟩ := Option.isSome_iff_exists.mp (hone m p)
      obtain ⟨⟨m'', calls⟩, h₂⟩ := Option.isSome_iff_exists.mp (ih m')
      rw [leaderAes, h₁]
      change ((m'.leaderAes ps).bind _).isSome = true
      rw [h₂]
      rfl
  rw [sendLeaderAes]
  split
  · exact hall _ m
  · rfl

theorem handleAeRes_isSome {m : Consensus σ C P} {peerId ni : ℕ} {reply : AppendEntriesReply}
    (h : ni ≤ m.logs.length) : (m.handleAeRes peerId ni reply).isSome = true := by
  rw [handleAeRes]
  split
  · rfl
  · rw [sliceFrom, if_pos h]
    change (if _ then _ else _ : Option (Consensus σ C P)).isSome = true
    split
    · split <;> rfl
    · rfl

theorem new_commitIndex (id : String) (st : σ) :
    (Consensus.new id st : Consensus σ C P).commitIndex = none := by
  simp only [Consensus.new, Consensus.restoreState]
  cases Storage.restore st <;> rfl

theorem Config.within (cfg : Config n σ C) (v : Fin n) : Within (cfg.node v) := by
  obtain ⟨peers, h, -⟩ := cfg.node_spec v
  intro ci hci
  rw [h] at hci
  exact absurd ((new_commitIndex _ _).symm.trans hci) nofun

/-- A message that is handled within the log makes a node panic only if it starts an election and
the terms are used up. -/
theorem Consensus.InRange.handle {m : Consensus σ C P} {op : Op C} (h : m.InRange op)
    (hm : m.handle op = none) : usizeMax ≤ m.currentTerm := by
  cases op with
  | startElection elapsed =>
    simp only [Consensus.handle, Option.map_eq_none_iff, onStartElection, startElection] at hm
    split at hm
    · split at hm
      · cases hm
      · rename_i hlt
        exact Nat.le_of_not_lt hlt
    · cases hm
  | sendAes => exact absurd (Option.map_eq_none_iff.mp hm) (Option.isSome_iff_ne_none.mp h)
  | sendCommit => exact absurd (Option.map_eq_none_iff.mp hm) (Option.isSome_iff_ne_none.mp h)
  | aeRes peerId ni reply => exact absurd hm (Option.isSome_iff_ne_none.mp h)
  | _ => cases hm

/-- The commit indices are indices, every log is as long as it was when the answer was asked for
that it is waiting for, and who panicked had no term left. -/
structure Ample (lost : EntriesCall n C → Prop) (c : Cluster n σ C) : Prop where
  within : ∀ v, Within (c.nodes v)
  asked : ∀ a ∈ c.calls, lost a ∨ a.call.ni ≤ (c.nodes a.src).logs.length
  panicked : ∀ v, c.panicked v = true → usizeMax ≤ (c.nodes v).currentTerm

namespace Ample

theorem init (cfg : Config n σ C) : Ample lost cfg.init where
  within v := cfg.within v
  asked _ h := absurd h List.not_mem_nil
  panicked _ h := absurd h Bool.false_ne_true

/-- The message is handled within the log, if the step is `Steady`. -/
theorem inRange (h : Ample lost c) {l : Label n σ C} (hl : Steady lost c l) {i : Fin n} {op : Op C}
    (hask : c.ask l = some (i, op)) : (c.nodes i).InRange op := by
  cases l with
  | sendAes i =>
    obtain ⟨rfl, rfl⟩ := Prod.mk.inj (Option.some_inj.mp hask)
    exact sendLeaderAes_isSome _
  | sendCommit i =>
    obtain ⟨rfl, rfl⟩ := Prod.mk.inj (Option.some_inj.mp hask)
    exact (h.within _).sendCommits_isSome
  | startElection i elapsed =>
    obtain ⟨rfl, rfl⟩ := Prod.mk.inj (Option.some_inj.mp hask)
    trivial
  | submit i cmd =>
    obtain ⟨rfl, rfl⟩ := Prod.mk.inj (Option.some_inj.mp hask)
    trivial
  | voteReq k =>
    obtain ⟨a, -, hpair⟩ := Option.map_eq_some_iff.mp hask
    obtain ⟨rfl, rfl⟩ := Prod.mk.inj hpair
    trivial
  | voteReply k =>
    obtain ⟨a, -, hpair⟩ := Option.map_eq_some_iff.mp hask
    obtain ⟨rfl, rfl⟩ := Prod.mk.inj hpair
    trivial
  | appendReq k =>
    obtain ⟨a, -, hpair⟩ := Option.map_eq_some_iff.mp hask
    obtain ⟨rfl, rfl⟩ := Prod.mk.inj hpair
    exact splice_in_range
  | appendReply k =>
    obtain ⟨a, ha, hpair⟩ := Option.map_eq_some_iff.mp hask
    obtain ⟨rfl, rfl⟩ := Prod.mk.inj hpair
    have hmem := Cluster.mem_calls_of_reply (List.mem_of_getElem? ha)
    exact handleAeRes_isSome ((h.asked _ hmem).resolve_left (hl a ha))
  | _ => cases hask

/-- What was asked for is still within the log after the step. -/
theorem asked_step (h : Ample lost c) {l : Label n σ C} (hl : Steady lost c l)
    (hs : c.step l = some c') {a : EntriesCall n C} (ha : a ∈ c'.calls) (hlost : ¬ lost a) :
    a.call.ni ≤ (c'.nodes a.src).logs.length := by
  rcases Cluster.step_calls hs a ha with ha | ⟨calls, hm, hcall⟩
  · have hle := (h.asked a ha).resolve_left hlost
    cases Cluster.step_moves hs a.src with
    | still hv => exact hv ▸ hle
    | rebooted t left _ _ hit =>
      refine absurd ?_ hit
      cases l <;> first | exact trivial | exact hl.alive.elim
    | handled op hask hm =>
      refine Leaves.handle hm ?_ hle
      rintro req rfl
      obtain ⟨k, b, rfl, hb, hsrc, rfl⟩ := Cluster.ask_appendEntries hask
      exact hsrc ▸ ((hl b hb).2 a ha hsrc).resolve_left hlost
  · -- a call that is sent in this step, from the log as it is
    obtain ⟨hsame, -, hcalls⟩ := (c.nodes a.src).sendLeaderAes_spec hm
    rw [hsame.logs]
    exact (hcalls a.call hcall).2.1.le

theorem step (h : Ample lost c) {l : Label n σ C} (hl : Steady lost c l)
    (hs : c.step l = some c') : Ample lost c' := by
  obtain ⟨i, op, hask, hp, hdoes⟩ := Cluster.step_handle hl.alive hs
  refine ⟨fun v ↦ ?_, fun a ha ↦ ?_, fun v hv ↦ ?_⟩
  · refine hdoes.forall (R := fun m m' ↦ Within m → Within m') (fun _ h ↦ h) (fun m hm hw ↦ ?_) v
      (h.within v)
    refine hw.handle hm ?_
    rintro req rfl
    obtain ⟨k, a, rfl, ha, rfl, rfl⟩ := Cluster.ask_appendEntries hask
    exact (hl a ha).1
  · by_cases hlost : lost a
    · exact Or.inl hlost
    · exact Or.inr (h.asked_step hl hs ha hlost)
  · -- a node that panicked before does not take the step
    cases hdoes with
    | done m hm hn hpan =>
      rw [hpan] at hv
      have hne : v ≠ i := by
        rintro rfl
        exact Bool.false_ne_true (hp.symm.trans hv)
      rw [hn, Function.update_of_ne hne]
      exact h.panicked v hv
    | panic hm hn hpan =>
      rw [hn]
      by_cases hvi : v = i
      · rw [hvi]
        exact (h.inRange hl hask).handle hm
      · rw [hpan, Function.update_of_ne hvi] at hv
        exact h.panicked v hv

end Ample

end Efis
