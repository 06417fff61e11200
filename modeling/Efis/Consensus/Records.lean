import Efis.Consensus.Following

/-!
# What a leader records of its peers

`handle_ae_res` is given the peer, the index the request was sent for and the reply, and not the
request.  What was acknowledged it reads off the log *as it is now*: everything from that index on.
While the sender leads the term of a request, its log has grown by what it appended since (`Held`),
and so the record is right exactly if it appended nothing (`acknowledges_iff`).

Committing goes by these records.  A match index of `0` says that a peer has entry `0`, and it also
says that nothing was heard of the peer, so index `0` is committed upon the first reply, whoever
else has answered; and peers whose URLs end in the same digit share a record, so one reply counts
for all of them.  Apart from these two, whoever is counted has answered (`Tally`,
`commits_majority`).
-/

set_option autoImplicit false

namespace Efis

open Consensus

variable {n : ℕ} {σ C P : Type} [Storage σ C]
  {cfg : Config n σ C} {c c' : Cluster n σ C} {g : Fin n → ℕ → Option String}

/-! ## Requests and the log they were sent from -/

theorem Cluster.Moves.le {l : Label n σ C} [LawfulStorage σ C] {v : Fin n}
    (hst : Stored (c.nodes v)) (h : c.Moves c' l v) :
    (c.nodes v).currentTerm ≤ (c'.nodes v).currentTerm := by
  cases h with
  | still h => exact (congrArg Consensus.currentTerm h).ge
  | rebooted t left hleft h _ =>
    have hmeta : metaOf left = _ := hleft.trans (hst.stepDown t)
    rw [h, show (((c.nodes v).stepDown t).reboot left).currentTerm = (metaOf left).1 from
      new_currentTerm _ left, hmeta, stepDown_currentTerm]
    exact le_max_left _ _
  | handled op _ h =>
    cases Turn.handle h with
    | stays _ _ ht => exact ht.ge
    | stepsDown _ _ ht => exact ht.le
    | stands _ _ _ ht => exact ht.le
    | wins _ _ _ ht _ => exact ht.ge
    | hears req _ _ ht hle => exact ht ▸ hle

/-- As long as its sender leads the term of a call, it has the log it sent the call from. -/
structure Held (c : Cluster n σ C) (a : EntriesCall n C) : Prop where
  le : a.call.req.term ≤ (c.nodes a.src).currentTerm
  lt : (c.nodes a.src).state = .candidate → a.call.req.term < (c.nodes a.src).currentTerm
  keep : (c.nodes a.src).state = .leader → (c.nodes a.src).currentTerm = a.call.req.term →
    ∃ L, Suffix L a.call.ni a.call.req ∧ L <+: (c.nodes a.src).logs

omit [Storage σ C] in
theorem Held.of_sent {a : EntriesCall n C} {m : Consensus σ C (Fin n)}
    {calls : List (AppendCall C (Fin n))} (hm : (c.nodes a.src).sendLeaderAes = some (m, calls))
    (ha : a.call ∈ calls) : Held c a := by
  obtain ⟨hl, hsuf, ht, -⟩ := ((c.nodes a.src).sendLeaderAes_spec hm).2.2 _ ha
  refine ⟨ht.le, fun hc ↦ ?_, fun _ _ ↦ ⟨_, hsuf, List.prefix_rfl⟩⟩
  rw [hl] at hc
  cases hc

/-- A leader that goes on to lead its term only appends. -/
theorem Signed.reign (h : Signed cfg c g) {v : Fin n} {l : Label n σ C} {op : Op C}
    (hask : c.ask l = some (v, op)) {m : Consensus σ C (Fin n)}
    (hm : (c.nodes v).handle op = some m) : Reign (c.nodes v) m := by
  refine Reign.handle hm ?_
  rintro req rfl hlead heq
  obtain ⟨k, a, -, ha, rfl, rfl⟩ := Cluster.ask_appendEntries hask
  have hmem := Cluster.mem_calls_of_req (List.mem_of_getElem? ha)
  have hled := h.elect.lead _ hlead
  rw [← heq] at hled
  exact h.named.ne a hmem (hled.unique (h.elected a hmem))

variable [LawfulStorage σ C]

theorem Held.step {a : EntriesCall n C} (h : Held c a) (hg : Signed cfg c g) {l : Label n σ C}
    (hs : c.step l = some c') : Held c' a := by
  have hmoves := Cluster.step_moves hs a.src
  have hle := hmoves.le (hg.stored a.src)
  refine ⟨h.le.trans hle, fun hc ↦ ?_, fun hl ht ↦ ?_⟩
  · cases hmoves with
    | still hv => exact hv ▸ h.lt (hv ▸ hc)
    | rebooted t left _ hv _ =>
      rw [hv, show (((c.nodes a.src).stepDown t).reboot left).state = .follower from
        new_state _ left] at hc
      cases hc
    | handled op _ hv =>
      cases Turn.handle hv with
      | stays hst _ ht => exact ht ▸ h.lt (hst ▸ hc)
      | stepsDown hst _ _ => rw [hst] at hc; cases hc
      | stands _ _ _ ht => exact h.le.trans_lt ht
      | wins _ hst _ _ _ => rw [hst] at hc; cases hc
      | hears req hst _ _ _ => rw [hst] at hc; cases hc
  · have hmid : (c.nodes a.src).currentTerm = a.call.req.term := Nat.le_antisymm (ht ▸ hle) h.le
    cases hmoves with
    | still hv => exact hv ▸ h.keep (hv ▸ hl) hmid
    | rebooted t left _ hv _ =>
      rw [hv, show (((c.nodes a.src).stepDown t).reboot left).state = .follower from
        new_state _ left] at hl
      cases hl
    | handled op hask hv =>
      by_cases hold : (c.nodes a.src).state = .leader
      · obtain ⟨L, hsuf, hL⟩ := h.keep hold hmid
        exact ⟨L, hsuf, hL.trans ((hg.reign hask hv).keep hold (ht.trans hmid.symm)).2⟩
      · -- who has only just won the term has sent nothing in it
        cases Turn.handle hv with
        | stays hst _ _ => exact absurd (hst ▸ hl) hold
        | stepsDown hst _ _ => rw [hst] at hl; cases hl
        | stands _ hst _ _ => rw [hst] at hl; cases hl
        | wins hcand _ _ _ _ => exact absurd hmid (h.lt hcand).ne'
        | hears req hst _ _ _ => rw [hst] at hl; cases hl

omit [LawfulStorage σ C] in
/-- Only a request of the node's own term is accepted. -/
theorem appendEntries_term_of_success {m : Consensus σ C P} {req : AppendEntries C}
    {reply : AppendEntriesReply} (h : (m.appendEntries req).2 = .ok reply)
    (hs : reply.success = true) : reply.term = req.term := by
  rcases m.appendEntries_cases req with hr | ⟨d, reply', hr, hf, -, -⟩ | ⟨d, hr, -, -, -, -⟩
  · rw [hr] at h
    cases h
  · rw [hr] at h
    obtain rfl := Except.ok.inj h
    rw [hf] at hs
    cases hs
  · rw [hr] at h
    obtain rfl := Except.ok.inj h
    rfl

/-- The calls of a state and the replies to them, in spite of crashes. -/
structure Post (cfg : Config n σ C) (c : Cluster n σ C) : Prop where
  signed : ∃ g, Signed cfg c g
  held : ∀ a ∈ c.calls, Held c a
  term : ∀ b ∈ c.appendReplies, b.reply.success = true → b.reply.term = b.call.call.req.term

theorem Post.init (cfg : Config n σ C) : Post cfg cfg.init where
  signed := by
    have hrun : Cluster.Run cfg (fun _ _ ↦ True) [cfg.init] := .init
    exact hrun.signed _ List.mem_cons_self
  held _ h := absurd h List.not_mem_nil
  term _ h := absurd h List.not_mem_nil

theorem Post.step (h : Post cfg c) {l : Label n σ C} (hs : c.step l = some c') : Post cfg c' := by
  obtain ⟨g, hg⟩ := h.signed
  refine ⟨⟨_, (hg.step hs).1⟩, fun a ha ↦ ?_, fun b hb hsucc ↦ ?_⟩
  · rcases Cluster.step_calls hs a ha with ha | ⟨calls, hm, hcall⟩
    · exact (h.held a ha).step hg hs
    · exact (Held.of_sent hm hcall).step hg hs
  · rcases Cluster.step_appendReplies hs b hb with hb | ⟨k, -, hreply⟩
    · exact h.term b hb hsucc
    · exact appendEntries_term_of_success hreply hsucc

theorem Cluster.Run.post {ok : Cluster n σ C → Label n σ C → Prop} {r : List (Cluster n σ C)}
    (h : Cluster.Run cfg ok r) : ∀ c ∈ r, Post cfg c :=
  h.inv (Post.init cfg) fun _ _ _ hpost _ hs ↦ hpost.step hs

/-! ## What an acknowledgement counts for -/

omit [LawfulStorage σ C] in
/-- The reply that a leader gets to a request it still has in its log. -/
theorem handleAeRes_of_success {m : Consensus σ C P} {peerId ni : ℕ} {reply : AppendEntriesReply}
    (hl : m.state = .leader) (ht : m.currentTerm = reply.term) (hs : reply.success = true)
    (hni : ni ≤ m.logs.length) :
    m.handleAeRes peerId ni reply = some { m.recordMatch peerId m.logs.length with
      commitIndex := (m.recordMatch peerId m.logs.length).advanceCommit } := by
  have hlen : ni + (m.logs.drop ni).length = m.logs.length := by
    rw [List.length_drop]
    omega
  rw [handleAeRes, if_neg (by omega), sliceFrom, if_pos hni]
  simp only [Option.bind_eq_bind, Option.bind_some, if_pos (And.intro hl ht), if_pos hs, hlen]

/-- **An acknowledgement counts only what it acknowledged, as long as the leader appended nothing.**
When a leader processes a success reply to a request of its current term, it files the peer under at
most what the request carried, if and only if its log from the index of the request on is still what
it sent. -/
theorem acknowledges_iff (cfg : Config n σ C) {ok : Cluster n σ C → Label n σ C → Prop}
    {r : List (Cluster n σ C)} (h : Cluster.Run cfg ok (c :: r)) {k : ℕ} {b : EntriesAnswer n C}
    (hb : c.appendReplies[k]? = some b) (hs : c.step (.appendReply k) = some c')
    (hl : (c.nodes b.call.src).state = .leader)
    (ht : (c.nodes b.call.src).currentTerm = b.call.call.req.term)
    (hsucc : b.reply.success = true) :
    ((∃ next, (c'.nodes b.call.src).nextIndex b.call.call.peerId = some next ∧
        next ≤ b.call.call.ni + b.call.call.req.entries.length) ∧
      ∃ mat, (c'.nodes b.call.src).matchIndex b.call.call.peerId = some mat ∧
        mat ≤ max (b.call.call.ni + b.call.call.req.entries.length) 1 - 1) ↔
      (c.nodes b.call.src).logs.drop b.call.call.ni = b.call.call.req.entries := by
  have hpost := h.post c List.mem_cons_self
  have hmem := List.mem_of_getElem? hb
  obtain ⟨L, hsuf, hL⟩ := (hpost.held _ (Cluster.mem_calls_of_reply hmem)).keep hl ht
  have hrt : (c.nodes b.call.src).currentTerm = b.reply.term := by
    rw [ht, hpost.term b hmem hsucc]
  have hni := hsuf.le.trans hL.length_le
  have hnode : c'.nodes b.call.src =
      { (c.nodes b.call.src).recordMatch b.call.call.peerId (c.nodes b.call.src).logs.length with
        commitIndex := ((c.nodes b.call.src).recordMatch b.call.call.peerId
          (c.nodes b.call.src).logs.length).advanceCommit } := by
    obtain ⟨m, hm, rfl⟩ := Cluster.step_appendReply hs
    obtain rfl : b = m := Option.some_inj.mp (hb.symm.trans hm)
    rw [Cluster.aeRes]
    simp only
    rw [handleAeRes_of_success hl hrt hsucc hni]
    exact Cluster.set_self _ _ _
  have hnext : (c'.nodes b.call.src).nextIndex b.call.call.peerId =
      some (c.nodes b.call.src).logs.length := by
    rw [hnode]
    exact Function.update_self ..
  have hmat : (c'.nodes b.call.src).matchIndex b.call.call.peerId =
      some ((c.nodes b.call.src).logs.length - 1) := by
    rw [hnode]
    exact Function.update_self ..
  -- the request reaches to the end of the log it was sent from
  have hlen : b.call.call.ni + b.call.call.req.entries.length = L.length := by
    rw [hsuf.entries, List.length_drop]
    have := hsuf.le
    omega
  rw [hnext, hmat, hlen]
  constructor
  · rintro ⟨⟨next, hn, hle⟩, -⟩
    rw [← Option.some_inj.mp hn] at hle
    rw [← hL.eq_of_length_le hle, hsuf.entries]
  · intro heq
    have hlogs : (c.nodes b.call.src).logs.length = L.length := by
      have hd := congrArg List.length heq
      rw [List.length_drop] at hd
      omega
    exact ⟨⟨_, rfl, hlogs.le⟩, _, rfl, by omega⟩

/-- Node `a` is elected, takes a command and replicates it to the first of its peers. -/
def replicating (a : Fin 3) : List (Label 3 (MockStorage ℕ) ℕ) :=
  [.startElection a true, .voteReq 0, .voteReply 0, .submit a 7, .sendAes a, .appendReq 0]

theorem acknowledges_trio :
    ∃ b c', (trioEnd (fun _ _ ↦ True) (replicating 0)).appendReplies[0]? = some b ∧
      (trioEnd (fun _ _ ↦ True) (replicating 0)).step (.appendReply 0) = some c' ∧
      ∃ next, (c'.nodes b.call.src).nextIndex b.call.call.peerId = some next ∧
        next ≤ b.call.call.ni + b.call.call.req.entries.length := by
  have hr := run_trioRun (fun _ _ ↦ True) (replicating 0) (by decide)
  refine ⟨((trioEnd (fun _ _ ↦ True) (replicating 0)).appendReplies[0]?).get (by decide),
    ((trioEnd (fun _ _ ↦ True) (replicating 0)).step (.appendReply 0)).get (by decide),
    (Option.some_get _).symm, (Option.some_get _).symm, ?_⟩
  exact ((acknowledges_iff trio hr (Option.some_get _).symm (Option.some_get _).symm (by decide)
    (by decide) (by decide)).mpr (by decide)).1

/-- **An acknowledgement can count for more than it acknowledged.**  Node `0` sends a request
without entries, takes two commands, and then gets the reply: it files node `1` under both of them.
-/
theorem not_acknowledges :
    let ls := [.startElection 0 true, .voteReq 0, .voteReply 0, .sendAes 0, .submit 0 7,
      .submit 0 8, .appendReq 0]
    (∃ r, Cluster.Run trio (fun _ _ ↦ True) (trioEnd (fun _ _ ↦ True) ls :: r)) ∧
      (trioEnd (fun _ _ ↦ True) ls).appendReplies[0]?.map (fun b ↦
        (b.call.src, b.call.call.peerId, b.call.call.ni, b.call.call.req.entries.length)) =
          some (0, 1, 0, 0) ∧
      (trioEnd (fun _ _ ↦ True) ls).appendReplies[0]?.map (fun b ↦
        (b.call.call.req.term, b.reply.success)) = some (1, true) ∧
      ((trioEnd (fun _ _ ↦ True) ls).nodes 0).state = .leader ∧
      ((trioEnd (fun _ _ ↦ True) ls).nodes 0).currentTerm = 1 ∧
      ((trioEnd (fun _ _ ↦ True) ls).step (.appendReply 0)).map (fun c ↦
        ((c.nodes 0).nextIndex 1, (c.nodes 0).matchIndex 1)) = some (some 2, some 1) := by
  intro ls
  exact ⟨⟨_, run_trioRun (fun _ _ ↦ True) ls (by decide)⟩, by decide, by decide, by decide,
    by decide, by decide⟩

/-! ## Who has answered -/

section

omit [LawfulStorage σ C]

/-- The peers whose success each node has processed while it led the term. -/
abbrev Tally (n : ℕ) := Fin n → ℕ → Finset (Fin n)

/-- The reply is a success in the term that its receiver leads. -/
def Counts (c : Cluster n σ C) (b : EntriesAnswer n C) : Prop :=
  (c.nodes b.call.src).state = .leader ∧ (c.nodes b.call.src).currentTerm = b.reply.term ∧
    b.reply.success = true

instance (c : Cluster n σ C) (b : EntriesAnswer n C) : Decidable (Counts c b) :=
  inferInstanceAs (Decidable (_ ∧ _ ∧ _))

/-- Enter the reply that a step delivers. -/
def Tally.note (A : Tally n) (c : Cluster n σ C) : Label n σ C → Tally n
  | .appendReply k =>
    match c.appendReplies[k]? with
    | some b =>
      if Counts c b then
        Raft.update₂ A b.call.src (c.nodes b.call.src).currentTerm
          (insert b.call.call.client (A b.call.src (c.nodes b.call.src).currentTerm))
      else A
    | none => A
  | _ => A

/-- A step of the cluster with the tally kept beside it. -/
def tallyStep (s : Cluster n σ C × Tally n) (l : Label n σ C) : Option (Cluster n σ C × Tally n) :=
  (s.1.step l).map fun c' ↦ (c', s.2.note s.1 l)

/-- What the count relies on: that the number the peer is filed under is its own, and, if nothing is
committed and entry `0` is the leader's own, that a majority has answered by now, because entry `0`
is committed then.  In a cluster of up to three nodes one reply is enough. -/
def TalliedReply (A : Tally n) (c : Cluster n σ C) (b : EntriesAnswer n C) : Prop :=
  let node := c.nodes b.call.src
  Counts c b → n ≤ 3 ∨
    ((∀ p ∈ node.peers, p.1 = b.call.call.peerId → p.2 = b.call.call.client) ∧
      (node.commitIndex = none → node.logs[0]?.map LogEntry.term = some node.currentTerm →
        Raft.Majority (insert b.call.src
          (insert b.call.call.client (A b.call.src node.currentTerm)))))

def Tallied (s : Cluster n σ C × Tally n) : Label n σ C → Prop
  | .appendReply k => ∀ b ∈ s.1.appendReplies[k]?, TalliedReply s.2 s.1 b
  | _ => True

instance (A : Tally n) (c : Cluster n σ C) (b : EntriesAnswer n C) :
    Decidable (TalliedReply A c b) := by
  unfold TalliedReply
  infer_instance

instance (s : Cluster n σ C × Tally n) : (l : Label n σ C) → Decidable (Tallied s l)
  | .appendReply k =>
    inferInstanceAs (Decidable (∀ b ∈ s.1.appendReplies[k]?, TalliedReply s.2 s.1 b))
  | .startElection _ _ | .submit _ _ | .sendAes _ | .sendCommit _ | .voteReq _ | .voteReply _
  | .appendReq _ | .restart _ _ | .crashVote _ _ | .crashAppend _ _ =>
    inferInstanceAs (Decidable True)

omit [Storage σ C] in
theorem Tally.subset_note (A : Tally n) (c : Cluster n σ C) (l : Label n σ C) (v : Fin n) (t : ℕ) :
    A v t ⊆ A.note c l v t := by
  cases l with
  | appendReply k =>
    rw [Tally.note]
    cases c.appendReplies[k]? with
    | none => exact Finset.Subset.refl _
    | some b =>
      by_cases hb : Counts c b
      · simp only [if_pos hb]
        by_cases h : v = b.call.src ∧ t = (c.nodes b.call.src).currentTerm
        · rw [h.1, h.2, Raft.update₂_self]
          exact Finset.subset_insert _ _
        · rw [Raft.update₂_of_ne _ _ h]
      · simp only [if_neg hb]
        exact Finset.Subset.refl _
  | _ => exact Finset.Subset.refl _

omit [Storage σ C] in
theorem Tally.note_of_counts (A : Tally n) {k : ℕ} {b : EntriesAnswer n C}
    (hb : c.appendReplies[k]? = some b) (h : Counts c b) :
    A.note c (.appendReply k) b.call.src (c.nodes b.call.src).currentTerm =
      insert b.call.call.client (A b.call.src (c.nodes b.call.src).currentTerm) := by
  rw [Tally.note, hb]
  simp only [if_pos h, Raft.update₂_self]

/-- Whoever has a match index above `0` on record with a leader has answered it. -/
structure Recorded (A : Tally n) (v : Fin n) (m : Consensus σ C (Fin n)) : Prop where
  mem : m.state = .leader → ∀ p ∈ m.peers, ∀ x, m.matchIndex p.1 = some x → 1 ≤ x →
    p.2 ∈ A v m.currentTerm

omit [Storage σ C] in
theorem Recorded.of_ne {A : Tally n} {v : Fin n} {m : Consensus σ C (Fin n)}
    (h : m.state ≠ .leader) : Recorded A v m :=
  ⟨fun hl ↦ absurd hl h⟩

omit [Storage σ C] in
theorem fileAll_eq (peers : List (ℕ × P)) (m : ℕ → Option ℕ) (v : ℕ) :
    ∀ p ∈ peers, fileAll peers m v p.1 = some v := by
  have keep : ∀ (ps : List (ℕ × P)) (m : ℕ → Option ℕ) (i : ℕ), m i = some v →
      fileAll ps m v i = some v := by
    intro ps
    induction ps with
    | nil => exact fun m i h ↦ h
    | cons q ps ih =>
      intro m i h
      refine ih _ i ?_
      by_cases hi : i = q.1
      · rw [hi]
        exact Function.update_self ..
      · exact (Function.update_of_ne hi ..).trans h
  induction peers generalizing m with
  | nil => exact fun p hp ↦ absurd hp List.not_mem_nil
  | cons q ps ih =>
    intro p hp
    rcases List.mem_cons.mp hp with rfl | hp
    · exact keep ps _ _ (Function.update_self ..)
    · exact ih _ p hp

theorem appendEntries_matchIndex (m : Consensus σ C P) (req : AppendEntries C) :
    (m.appendEntries req).1.matchIndex = m.matchIndex := by
  have hdown : ∀ t, (m.stepDown t).matchIndex = m.matchIndex := by
    intro t
    rw [stepDown]
    split <;> rfl
  have hnote : ((m.stepDown req.term).noteLeader req).matchIndex = m.matchIndex := by
    rw [noteLeader]
    split <;> exact hdown _
  simp only [appendEntries]
  split
  · rfl
  · split
    · exact hnote
    · split <;> exact hnote

theorem requestVote_matchIndex (m : Consensus σ C P) (req : RequestVote) :
    (m.requestVote req).1.matchIndex = m.matchIndex := by
  have hdown : (m.stepDown req.term).matchIndex = m.matchIndex := by
    rw [stepDown]
    split <;> rfl
  rcases m.requestVote_cases req with h | ⟨-, -, -, h⟩ | h
  · rw [h]
  · rw [h]
    exact hdown
  · rw [h]
    exact hdown

/-- The match indices of a node are set when it wins an election and when a success arrives. -/
theorem matchIndex_handle {m m' : Consensus σ C P} {op : Op C} (h : m.handle op = some m') :
    m'.matchIndex = m.matchIndex ∨ m'.matchIndex = fileAll m.peers m.matchIndex 0 ∨
    ∃ peerId ni reply, op = .aeRes peerId ni reply ∧ m.state = .leader ∧
      m.currentTerm = reply.term ∧ reply.success = true ∧ m'.matchIndex =
        Function.update m.matchIndex peerId (some (ni + (m.logs.drop ni).length - 1)) := by
  cases op with
  | startElection elapsed =>
    obtain ⟨⟨c, reqs⟩, hc, rfl⟩ := Option.map_eq_some_iff.mp h
    rw [onStartElection] at hc
    split at hc
    · rw [startElection] at hc
      split at hc
      · obtain ⟨rfl, -⟩ := Prod.mk.inj (Option.some_inj.mp hc)
        exact Or.inl rfl
      · cases hc
    · obtain ⟨rfl, -⟩ := Prod.mk.inj (Option.some_inj.mp hc)
      exact Or.inl rfl
  | voteResult term voted =>
    obtain rfl := Option.some_inj.mp h
    rcases m.onVoteResult_cases term voted with h | ⟨-, h⟩ | ⟨-, -, -, h⟩ | ⟨-, -, -, -, h⟩
    · rw [h]
      exact Or.inl rfl
    · rw [h]
      exact Or.inl rfl
    · rw [h]
      exact Or.inl rfl
    · rw [h]
      exact Or.inr (Or.inl rfl)
  | requestVote req =>
    obtain rfl := Option.some_inj.mp h
    exact Or.inl (requestVote_matchIndex m req)
  | appendEntries req =>
    obtain rfl := Option.some_inj.mp h
    exact Or.inl (appendEntries_matchIndex m req)
  | submit cmd =>
    obtain rfl := Option.some_inj.mp h
    rw [onSubmit]
    split <;> exact Or.inl rfl
  | sendAes =>
    obtain ⟨⟨c, calls⟩, hc, rfl⟩ := Option.map_eq_some_iff.mp h
    obtain ⟨next, rfl⟩ := m.sendLeaderAes_node hc
    exact Or.inl rfl
  | aeRes peerId ni reply =>
    rw [handle, handleAeRes] at h
    split at h
    · obtain rfl := Option.some_inj.mp h
      exact Or.inl rfl
    · obtain ⟨entries, hslice, h⟩ := Option.bind_eq_some_iff.mp h
      rw [sliceFrom, Option.ite_none_right_eq_some, Option.some_inj] at hslice
      obtain ⟨-, rfl⟩ := hslice
      split at h
      · rename_i hlead
        split at h
        · rename_i hs
          obtain rfl := Option.some_inj.mp h
          exact Or.inr (Or.inr ⟨peerId, ni, reply, rfl, hlead.1, hlead.2, hs, rfl⟩)
        · obtain rfl := Option.some_inj.mp h
          exact Or.inl rfl
      · obtain rfl := Option.some_inj.mp h
        exact Or.inl rfl
  | sendCommit =>
    obtain ⟨⟨c, entries⟩, hc, rfl⟩ := Option.map_eq_some_iff.mp h
    obtain ⟨la, rfl⟩ := m.sendCommits_node hc
    exact Or.inl rfl

/-- A match index above `0` that a leader has of a peer was there before, or comes with a success
that is filed under the number of the peer. -/
theorem record_handle {m m' : Consensus σ C P} {op : Op C} (h : m.handle op = some m')
    (hl : m'.state = .leader) {p : ℕ × P} (hp : p ∈ m.peers) {x : ℕ}
    (hx : m'.matchIndex p.1 = some x) (h1 : 1 ≤ x) :
    m.state = .leader ∧ m'.currentTerm = m.currentTerm ∧ (m.matchIndex p.1 = some x ∨
      ∃ ni reply, op = .aeRes p.1 ni reply ∧ m.currentTerm = reply.term ∧ reply.success = true ∧
        x = ni + (m.logs.drop ni).length - 1) := by
  -- nobody is on record right after an election
  have hzero : m'.matchIndex ≠ fileAll m.peers m.matchIndex 0 := by
    intro hf
    rw [hf, fileAll_eq _ _ _ p hp] at hx
    have := Option.some_inj.mp hx
    omega
  obtain ⟨hold, ht⟩ : m.state = .leader ∧ m'.currentTerm = m.currentTerm := by
    cases Turn.handle h with
    | stays hst _ ht => exact ⟨hst ▸ hl, ht⟩
    | stepsDown hst _ _ => rw [hst] at hl; cases hl
    | stands _ hst _ _ => rw [hst] at hl; cases hl
    | wins _ _ _ _ hf => exact absurd hf hzero
    | hears req hst _ _ _ => rw [hst] at hl; cases hl
  refine ⟨hold, ht, ?_⟩
  rcases matchIndex_handle h with hm | hm | ⟨peerId, ni, reply, rfl, -, hrt, hsucc, hm⟩
  · exact Or.inl (hm ▸ hx)
  · exact absurd hm hzero
  · by_cases hpid : p.1 = peerId
    · rw [hm, hpid, Function.update_self, Option.some_inj] at hx
      exact Or.inr ⟨ni, reply, hpid ▸ rfl, hrt, hsucc, hx.symm⟩
    · rw [hm, Function.update_of_ne hpid] at hx
      exact Or.inl hx

/-- **Whoever is counted has answered**, if no two peers share a number. -/
theorem Recorded.step {A : Tally n} (h : ∀ v, Recorded A v (c.nodes v)) (hn : ¬ n ≤ 3)
    {l : Label n σ C} (hok : Tallied (c, A) l) (hs : c.step l = some c') (v : Fin n) :
    Recorded (A.note c l) v (c'.nodes v) := by
  have hsub := A.subset_note c l v
  cases Cluster.step_moves hs v with
  | still hv =>
    rw [hv]
    exact ⟨fun hl p hp x hx h1 ↦ hsub _ ((h v).mem hl p hp x hx h1)⟩
  | rebooted t left _ hv _ =>
    refine .of_ne ?_
    rw [hv, show (((c.nodes v).stepDown t).reboot left).state = .follower from new_state _ left]
    decide
  | handled op hask hv =>
    refine ⟨fun hl p hp x hx h1 ↦ ?_⟩
    rw [(Twin.handle hv).peers] at hp
    obtain ⟨hold, ht, hm | ⟨ni, reply, rfl, hrt, hsucc, -⟩⟩ := record_handle hv hl hp hx h1
    · rw [ht]
      exact hsub _ ((h v).mem hold p hp x hm h1)
    · -- the peer that answered, and nobody else has its number
      obtain ⟨k, b, rfl, hb, rfl, hpid, -, rfl⟩ := Cluster.ask_aeRes hask
      have hcounts : Counts c b := ⟨hold, hrt, hsucc⟩
      have hown := ((hok b hb hcounts).resolve_left hn).1 p hp hpid
      rw [ht, A.note_of_counts hb hcounts, hown]
      exact Finset.mem_insert_self _ _

/-- A state that the tally is kept of. -/
structure Tallies (cfg : Config n σ C) (c : Cluster n σ C) (A : Tally n) : Prop where
  named : Named cfg c
  recorded : ¬ n ≤ 3 → ∀ v, Recorded A v (c.nodes v)

theorem Tallies.of_reach {A : Tally n}
    (h : Transition.Reach tallyStep Tallied (cfg.init, fun _ _ ↦ ∅) (c, A)) :
    Tallies cfg c A := by
  refine @Transition.Reach.inv _ _ _ _ _ _ (fun s ↦ Tallies cfg s.1 s.2) h
    ⟨Named.init cfg, fun _ v ↦ .of_ne ?_⟩ ?_
  · rw [show (cfg.init.nodes v).state = .follower from cfg.node_state v]
    decide
  · rintro ⟨d, B⟩ l s' hinv hok hs
    obtain ⟨d', hd, rfl⟩ := Option.map_eq_some_iff.mp hs
    exact ⟨hinv.named.step hd, fun hn v ↦ Recorded.step (hinv.recorded hn) hn hok hd v⟩

/-- The peers that the leader `i` counts, and itself, are that many nodes. -/
theorem Named.majority_of_count (h : Named cfg c) {i : Fin n} {S : Finset (Fin n)}
    {q : ℕ × Fin n → Bool} (hS : ∀ p ∈ (c.nodes i).peers, q p = true → p.2 ∈ S)
    (hlt : (c.nodes i).peers.length + 1 < (1 + (c.nodes i).peers.countP q) * 2) :
    Raft.Majority (insert i S) := by
  have hnodup : ((c.nodes i).peers.map Prod.snd).Nodup := by
    rw [h.peers]
    exact cfg.nodup i
  have hsub : (((c.nodes i).peers.filter q).map Prod.snd).Sublist
      ((c.nodes i).peers.map Prod.snd) := List.filter_sublist.map Prod.snd
  have hcard : (((c.nodes i).peers.filter q).map Prod.snd).toFinset.card =
      (c.nodes i).peers.countP q := by
    rw [List.toFinset_card_of_nodup (hnodup.sublist hsub), List.length_map,
      List.countP_eq_length_filter]
  have hnot : i ∉ (((c.nodes i).peers.filter q).map Prod.snd).toFinset := by
    rw [List.mem_toFinset]
    intro hi
    have := hsub.subset hi
    rw [h.peers, cfg.mem_urls] at this
    exact this rfl
  have hle : insert i (((c.nodes i).peers.filter q).map Prod.snd).toFinset ⊆ insert i S := by
    refine Finset.insert_subset_insert i fun v hv ↦ ?_
    obtain ⟨p, hp, rfl⟩ := List.mem_map.mp (List.mem_toFinset.mp hv)
    obtain ⟨hp, hq⟩ := List.mem_filter.mp hp
    exact hS p hp hq
  have hcards := Finset.card_le_card hle
  rw [Finset.card_insert_of_notMem hnot, hcard] at hcards
  have hlen := congrArg List.length (h.peers i)
  rw [List.length_map, List.length_map] at hlen
  have hn := cfg.length_urls i
  rw [Raft.Majority, Fintype.card_fin]
  omega

omit [Storage σ C] in
theorem recordMatch_matchIndex_of_ne (m : Consensus σ C P) {peerId i : ℕ} (next : ℕ)
    (h : i ≠ peerId) : (m.recordMatch peerId next).matchIndex i = m.matchIndex i :=
  Function.update_of_ne h ..

omit [Storage σ C] in
/-- If a reply raises the commit index, some index above `0` may be committed, unless nothing was
committed and entry `0` is of the current term. -/
theorem exists_mayCommit_of_raise {m : Consensus σ C P} {peerId next : ℕ}
    (hraise : (m.recordMatch peerId next).advanceCommit ≠ m.commitIndex)
    (hzero : m.commitIndex = none → m.logs[0]?.map LogEntry.term ≠ some m.currentTerm) :
    ∃ j, 1 ≤ j ∧ (m.recordMatch peerId next).mayCommit j = true := by
  rcases (m.recordMatch peerId next).advanceCommit_cases with hsame | ⟨j, hj, -, hmay, hadv⟩
  · exact absurd hsame hraise
  · rcases Nat.eq_zero_or_pos j with rfl | hpos
    · cases hci : m.commitIndex with
      | none =>
        simp only [mayCommit, Bool.and_eq_true, decide_eq_true_eq] at hmay
        exact absurd hmay.1 (hzero hci)
      | some ci =>
        -- index `0` was committed already
        have hge : ci ≤ 0 := by
          rw [show (m.recordMatch peerId next).commitIndex = some ci from hci] at hj
          exact hj
        rw [hadv, hci, Nat.le_zero.mp hge] at hraise
        exact absurd rfl hraise
    · exact ⟨j, hpos, hmay⟩

/-- It is a success in its term that lets a leader raise its commit index. -/
theorem Cluster.counts_of_raise {k : ℕ} {b : EntriesAnswer n C}
    (hb : c.appendReplies[k]? = some b) (hs : c.step (.appendReply k) = some c')
    (hraise : (c'.nodes b.call.src).commitIndex ≠ (c.nodes b.call.src).commitIndex) :
    Counts c b ∧ ((c.nodes b.call.src).recordMatch b.call.call.peerId (b.call.call.ni +
      ((c.nodes b.call.src).logs.drop b.call.call.ni).length)).advanceCommit ≠
        (c.nodes b.call.src).commitIndex := by
  obtain ⟨m, hm, rfl⟩ := Cluster.step_appendReply hs
  obtain rfl : b = m := Option.some_inj.mp (hb.symm.trans hm)
  rw [Cluster.aeRes] at hraise
  simp only at hraise
  cases hres : (c.nodes b.call.src).handleAeRes b.call.call.peerId b.call.call.ni b.reply with
  | none =>
    simp only [hres] at hraise
    exact absurd rfl hraise
  | some d =>
    simp only [hres, Cluster.set_self] at hraise
    rcases (c.nodes b.call.src).handleAeRes_cases hres with
      ⟨-, rfl⟩ | ⟨-, hci⟩ | ⟨-, hl, ht, hsucc, hci⟩
    · exact absurd rfl hraise
    · exact absurd hci hraise
    · exact ⟨⟨hl, ht, hsucc⟩, hci ▸ hraise⟩

/-- **Committing takes a majority of acknowledgements**, in a run in which no success comes from a
peer that shares its number, and a majority has answered by the time that the leader commits an
index `0` of its own; clusters of up to three nodes are safe from both. -/
theorem commits_majority (cfg : Config n σ C) {A : Tally n}
    (h : Transition.Reach tallyStep Tallied (cfg.init, fun _ _ ↦ ∅) (c, A))
    {k : ℕ} {b : EntriesAnswer n C} (hb : c.appendReplies[k]? = some b)
    (hok : Tallied (c, A) (.appendReply k)) (hs : c.step (.appendReply k) = some c')
    (hraise : (c'.nodes b.call.src).commitIndex ≠ (c.nodes b.call.src).commitIndex) :
    Raft.Majority (insert b.call.src
      (A.note c (.appendReply k) b.call.src (c.nodes b.call.src).currentTerm)) := by
  obtain ⟨hnamed, hrec⟩ := Tallies.of_reach h
  obtain ⟨hcounts, hadv⟩ := Cluster.counts_of_raise hb hs hraise
  rw [A.note_of_counts hb hcounts]
  by_cases hn : n ≤ 3
  · -- the leader and the peer that answered are enough
    have hne := hnamed.ne _ (Cluster.mem_calls_of_reply (List.mem_of_getElem? hb))
    have hpair : ({b.call.src, b.call.call.client} : Finset (Fin n)) ⊆ insert b.call.src
        (insert b.call.call.client (A b.call.src (c.nodes b.call.src).currentTerm)) :=
      Finset.insert_subset_insert _ (Finset.singleton_subset_iff.mpr (Finset.mem_insert_self _ _))
    have hcard := Finset.card_le_card hpair
    rw [Finset.card_pair hne.symm] at hcard
    rw [Raft.Majority, Fintype.card_fin]
    omega
  · obtain ⟨hown, hzero⟩ := (hok b hb hcounts).resolve_left hn
    by_cases hfirst : (c.nodes b.call.src).commitIndex = none ∧
        (c.nodes b.call.src).logs[0]?.map LogEntry.term = some (c.nodes b.call.src).currentTerm
    · exact hzero hfirst.1 hfirst.2
    obtain ⟨j, hpos, hmay⟩ := exists_mayCommit_of_raise hadv fun hci ht ↦ hfirst ⟨hci, ht⟩
    simp only [mayCommit, Bool.and_eq_true, decide_eq_true_eq] at hmay
    refine hnamed.majority_of_count ?_ hmay.2
    intro p hp hq
    rw [decide_eq_true_eq] at hq
    by_cases hpid : p.1 = b.call.call.peerId
    · rw [hown p hp hpid]
      exact Finset.mem_insert_self _ _
    · refine Finset.mem_insert_of_mem ?_
      rw [recordMatch_matchIndex_of_ne _ _ hpid] at hq
      cases hx : (c.nodes b.call.src).matchIndex p.1 with
      | none =>
        rw [hx, Option.getD_none] at hq
        omega
      | some x =>
        rw [hx, Option.getD_some] at hq
        exact (hrec hn b.call.src).mem hcounts.1 p hp x hx (hpos.trans hq)

end

/-- Four nodes that have nothing stored. -/
def quad : Config 4 (MockStorage ℕ) ℕ where
  id i := ["a", "b", "c", "d"][i]
  storage _ := ⟨PersistentState.default, []⟩
  urls i := [[("b:1", 1), ("c:2", 2), ("d:3", 3)], [("a:0", 0), ("c:2", 2), ("d:3", 3)],
    [("a:0", 0), ("b:1", 1), ("d:3", 3)], [("a:0", 0), ("b:1", 1), ("c:2", 2)]][i]
  node i := { (Consensus.new (["a", "b", "c", "d"][i]) ⟨PersistentState.default, []⟩ :
      Consensus (MockStorage ℕ) ℕ (Fin 4)) with
    peers := [[(1, 1), (2, 2), (3, 3)], [(0, 0), (2, 2), (3, 3)], [(0, 0), (1, 1), (3, 3)],
      [(0, 0), (1, 1), (2, 2)]][i] }
  id_injective := by decide
  node_eq i := by fin_cases i <;> rfl
  nodup := by decide
  mem_urls := by decide

/-- The state of `quad` after the given steps, with the tally. -/
def quadRun (ok : Cluster 4 (MockStorage ℕ) ℕ × Tally 4 → Label 4 (MockStorage ℕ) ℕ → Prop)
    [∀ s l, Decidable (ok s l)] (ls : List (Label 4 (MockStorage ℕ) ℕ)) :
    Option (Cluster 4 (MockStorage ℕ) ℕ × Tally 4) :=
  Transition.run tallyStep ok (quad.init, fun _ _ ↦ ∅) ls

def quadEnd (ok : Cluster 4 (MockStorage ℕ) ℕ × Tally 4 → Label 4 (MockStorage ℕ) ℕ → Prop)
    [∀ s l, Decidable (ok s l)] (ls : List (Label 4 (MockStorage ℕ) ℕ)) :
    Cluster 4 (MockStorage ℕ) ℕ × Tally 4 :=
  (quadRun ok ls).getD (quad.init, fun _ _ ↦ ∅)

theorem reach_quadEnd
    (ok : Cluster 4 (MockStorage ℕ) ℕ × Tally 4 → Label 4 (MockStorage ℕ) ℕ → Prop)
    [∀ s l, Decidable (ok s l)] {ls : List (Label 4 (MockStorage ℕ) ℕ)}
    (h : (quadRun ok ls).isSome = true) :
    Transition.Reach tallyStep ok (quad.init, fun _ _ ↦ ∅)
      ((quadEnd ok ls).1, (quadEnd ok ls).2) := by
  obtain ⟨s, hs⟩ := Option.isSome_iff_exists.mp h
  rw [quadEnd, hs, Option.getD_some]
  exact .run .start hs

/-- Node `0` is elected and has its first command accepted by node `1`, whose reply is under way. -/
def firstCommand : List (Label 4 (MockStorage ℕ) ℕ) :=
  [.startElection 0 true, .voteReq 0, .voteReq 0, .voteReply 0, .voteReply 0, .submit 0 7,
    .sendAes 0, .appendReq 0]

/-- Node `0` is elected, has its heartbeats answered by nodes `1` and `2`, and then its first
command accepted by node `1`, whose reply is under way. -/
def heartbeatsFirst : List (Label 4 (MockStorage ℕ) ℕ) :=
  [.startElection 0 true, .voteReq 0, .voteReq 0, .voteReply 0, .voteReply 0, .sendAes 0,
    .appendReq 0, .appendReq 0, .appendReply 0, .appendReply 0, .submit 0 7, .sendAes 0,
    .appendReq 1]

/-- After that a second command is accepted by nodes `1` and `2`.  The reply of node `2` is still
under way. -/
def secondCommand : List (Label 4 (MockStorage ℕ) ℕ) :=
  heartbeatsFirst ++ [.appendReply 0, .submit 0 8, .sendAes 0, .appendReq 3, .appendReq 3,
    .appendReply 0]

theorem commits_majority_quad :
    (∃ b c', (quadEnd Tallied heartbeatsFirst).1.appendReplies[0]? = some b ∧
      (quadEnd Tallied heartbeatsFirst).1.step (.appendReply 0) = some c' ∧
      (c'.nodes b.call.src).commitIndex = some 0 ∧
      Raft.Majority (insert b.call.src ((quadEnd Tallied heartbeatsFirst).2.note
        (quadEnd Tallied heartbeatsFirst).1 (.appendReply 0) b.call.src
        ((quadEnd Tallied heartbeatsFirst).1.nodes b.call.src).currentTerm))) ∧
    ∃ b c', (quadEnd Tallied secondCommand).1.appendReplies[0]? = some b ∧
      (quadEnd Tallied secondCommand).1.step (.appendReply 0) = some c' ∧
      (c'.nodes b.call.src).commitIndex = some 1 ∧
      Raft.Majority (insert b.call.src ((quadEnd Tallied secondCommand).2.note
        (quadEnd Tallied secondCommand).1 (.appendReply 0) b.call.src
        ((quadEnd Tallied secondCommand).1.nodes b.call.src).currentTerm)) := by
  constructor
  · have hs : (quadEnd Tallied heartbeatsFirst).1.step (.appendReply 0) =
        some (((quadEnd Tallied heartbeatsFirst).1.step (.appendReply 0)).get
          (by decide +kernel)) := (Option.some_get _).symm
    refine ⟨((quadEnd Tallied heartbeatsFirst).1.appendReplies[0]?).get (by decide +kernel), _,
      (Option.some_get _).symm, hs, by decide +kernel, ?_⟩
    exact commits_majority quad (reach_quadEnd Tallied (by decide +kernel))
      (Option.some_get _).symm (by decide +kernel) hs (by decide +kernel)
  · have hs : (quadEnd Tallied secondCommand).1.step (.appendReply 0) =
        some (((quadEnd Tallied secondCommand).1.step (.appendReply 0)).get
          (by decide +kernel)) := (Option.some_get _).symm
    refine ⟨((quadEnd Tallied secondCommand).1.appendReplies[0]?).get (by decide +kernel), _,
      (Option.some_get _).symm, hs, by decide +kernel, ?_⟩
    exact commits_majority quad (reach_quadEnd Tallied (by decide +kernel))
      (Option.some_get _).symm (by decide +kernel) hs (by decide +kernel)

/-- **One acknowledgement of four can commit.**  Node `0` commits index `0` upon the first success,
because a peer that has not answered counts as having entry `0`. -/
theorem not_commits_majority :
    ∃ c A b c', Transition.Reach tallyStep (fun _ _ ↦ True) (quad.init, fun _ _ ↦ ∅) (c, A) ∧
      c.appendReplies[0]? = some b ∧ c.step (.appendReply 0) = some c' ∧
      (c.nodes b.call.src).commitIndex = none ∧ (c'.nodes b.call.src).commitIndex = some 0 ∧
      ¬ Raft.Majority (insert b.call.src
        (A.note c (.appendReply 0) b.call.src (c.nodes b.call.src).currentTerm)) :=
  ⟨(quadEnd (fun _ _ ↦ True) firstCommand).1, (quadEnd (fun _ _ ↦ True) firstCommand).2,
    ((quadEnd (fun _ _ ↦ True) firstCommand).1.appendReplies[0]?).get (by decide +kernel),
    ((quadEnd (fun _ _ ↦ True) firstCommand).1.step (.appendReply 0)).get (by decide +kernel),
    reach_quadEnd (fun _ _ ↦ True) (by decide +kernel), (Option.some_get _).symm,
    (Option.some_get _).symm, by decide +kernel, by decide +kernel, by decide +kernel⟩

end Efis
