import Efis.Consensus.Records

/-!
# State machine safety

No two nodes put different commands on their commit channels under the same index: the cluster does
not have this.  A leader files a peer under everything that its log has come to when the reply
arrives, a match index of `0` also stands for a peer that nothing was heard of, and peers whose URLs
end in the same digit share a record.  So it can commit an entry that nobody else has
(`not_state_machine_safety`).

Where none of this happens (`Credited`), the records are right: a peer that is filed under an index
above `0` has acknowledged it (`Filed`).  Then what passes the commit test of a leader has been
acknowledged by a majority, and so the commits are those of the abstract protocol.
-/

set_option autoImplicit false

namespace Efis

open Consensus

variable {n : ℕ} {σ C : Type} [Storage σ C] {cfg : Config n σ C} {c c' : Cluster n σ C}

/-! ## The condition -/

/-- What a leader relies on when it processes a success: that it appended nothing while the request
was under way, that the number of the peer is its own, and, if nothing is committed and entry `0` is
the leader's own, that a majority has acknowledged entry `0`, because it is committed then.  In a
cluster of up to three nodes the peer that answers is enough for that. -/
def CreditedReply (cfg : Config n σ C) (c : Cluster n σ C) (b : EntriesAnswer n C) : Prop :=
  let node := c.nodes b.call.src
  Counts c b →
    node.logs.length = b.call.call.ni + b.call.call.req.entries.length ∧
    (∀ p ∈ node.peers, p.1 = b.call.call.peerId → p.2 = b.call.call.client) ∧
    (n ≤ 3 ∨ (node.commitIndex = none →
      node.logs[0]?.map LogEntry.term = some node.currentTerm →
        Raft.Majority (c.holders cfg b.call.src 0)))

/-- The other steps are free, except that there is no crash. -/
def Credited (cfg : Config n σ C) (c : Cluster n σ C) : Label n σ C → Prop
  | .appendReply k => ∀ b ∈ c.appendReplies[k]?, CreditedReply cfg c b
  | l => l.Alive

instance (cfg : Config n σ C) (c : Cluster n σ C) (b : EntriesAnswer n C) :
    Decidable (CreditedReply cfg c b) := by
  unfold CreditedReply
  infer_instance

instance (cfg : Config n σ C) (c : Cluster n σ C) : (l : Label n σ C) → Decidable (Credited cfg c l)
  | .appendReply k =>
    inferInstanceAs (Decidable (∀ b ∈ c.appendReplies[k]?, CreditedReply cfg c b))
  | .startElection _ _ | .submit _ _ | .sendAes _ | .sendCommit _ | .voteReq _ | .voteReply _
  | .appendReq _ => inferInstanceAs (Decidable True)
  | .restart _ _ | .crashVote _ _ | .crashAppend _ _ => inferInstanceAs (Decidable False)

theorem Credited.alive {l : Label n σ C} (h : Credited cfg c l) : l.Alive := by
  cases l with
  | appendReply k => trivial
  | _ => exact h

/-! ## The records -/

omit [Storage σ C] in
theorem Cluster.Acknowledged.mono {leader : String} {t i j : ℕ} {v : Fin n}
    (h : c.Acknowledged leader t i v) (htrace : c.trace <+: c'.trace) (hji : j ≤ i) :
    c'.Acknowledged leader t j v := by
  obtain ⟨e, he, hacks⟩ := h
  refine ⟨e, htrace.subset he, ?_⟩
  cases e with
  | commit => exact hacks.elim
  | accept w u req => exact ⟨hacks.1, hacks.2.1, hacks.2.2.1, hji.trans_lt hacks.2.2.2⟩

/-- The records of the leaders: whoever is filed under an index above `0` has acknowledged it.  The
successes under way are of requests that were accepted. -/
structure Filed (cfg : Config n σ C) (c : Cluster n σ C) : Prop where
  named : Named cfg c
  insertAt : ∀ a ∈ c.calls, insertAt a.call.req = a.call.ni
  accepted : ∀ b ∈ c.appendReplies, b.reply.success = true →
    .accept b.call.call.client b.reply.term b.call.call.req ∈ c.trace
  record : ∀ v, (c.nodes v).state = .leader → ∀ p ∈ (c.nodes v).peers, ∀ x,
    (c.nodes v).matchIndex p.1 = some x → 1 ≤ x →
      c.Acknowledged (cfg.id v) (c.nodes v).currentTerm x p.2

namespace Filed

theorem init (cfg : Config n σ C) : Filed cfg cfg.init where
  named := Named.init cfg
  insertAt _ h := absurd h List.not_mem_nil
  accepted _ h := absurd h List.not_mem_nil
  record v h := by
    rw [show (cfg.init.nodes v).state = .follower from cfg.node_state v] at h
    cases h

/-- The peer that answers has acknowledged the whole log of the leader. -/
theorem acknowledged (h : Filed cfg c) {b : EntriesAnswer n C} (hb : b ∈ c.appendReplies)
    (hcounts : Counts c b) (hlen : (c.nodes b.call.src).logs.length =
      b.call.call.ni + b.call.call.req.entries.length) {j : ℕ}
    (hj : j < (c.nodes b.call.src).logs.length) :
    c.Acknowledged (cfg.id b.call.src) (c.nodes b.call.src).currentTerm j b.call.call.client := by
  have hmem := Cluster.mem_calls_of_reply hb
  refine ⟨_, h.accepted b hb hcounts.2.2, rfl, hcounts.2.1.symm, h.named.leader _ hmem, ?_⟩
  rwa [reach, h.insertAt _ hmem, ← hlen]

/-- **The records stay right**, as long as the leaders are credited with what was acknowledged. -/
theorem record_step (h : Filed cfg c) {l : Label n σ C} (hok : Credited cfg c l)
    (hs : c.step l = some c') {v : Fin n} (hl : (c'.nodes v).state = .leader)
    {p : ℕ × Fin n} (hp : p ∈ (c'.nodes v).peers) {x : ℕ}
    (hx : (c'.nodes v).matchIndex p.1 = some x) (h1 : 1 ≤ x) :
    c'.Acknowledged (cfg.id v) (c'.nodes v).currentTerm x p.2 := by
  have htrace := Cluster.step_trace hs
  cases Cluster.step_moves hs v with
  | still hv =>
    rw [hv] at hl hp hx ⊢
    exact (h.record v hl p hp x hx h1).mono htrace (Nat.le_refl x)
  | rebooted t left _ _ hit =>
    refine absurd ?_ hit
    cases l <;> first | exact trivial | exact hok.alive.elim
  | handled op hask hv =>
    rw [(Twin.handle hv).peers] at hp
    obtain ⟨hold, ht, hm | ⟨ni, reply, rfl, hrt, hsucc, rfl⟩⟩ := record_handle hv hl hp hx h1
    · rw [ht]
      exact (h.record v hold p hp x hm h1).mono htrace (Nat.le_refl x)
    · -- the peer that answered, and nobody else has its number
      obtain ⟨k, b, rfl, hb, rfl, hpid, rfl, rfl⟩ := Cluster.ask_aeRes hask
      have hcounts : Counts c b := ⟨hold, hrt, hsucc⟩
      obtain ⟨hlen, hown, -⟩ := hok b hb hcounts
      rw [List.length_drop] at h1 ⊢
      rw [ht, hown p hp hpid]
      exact (h.acknowledged (List.mem_of_getElem? hb) hcounts hlen (by omega)).mono htrace
        (Nat.le_refl _)

theorem step (h : Filed cfg c) {l : Label n σ C} (hok : Credited cfg c l)
    (hs : c.step l = some c') : Filed cfg c' where
  named := h.named.step hs
  insertAt a ha := by
    rcases Cluster.step_calls hs a ha with ha | ⟨calls, hm, hcall⟩
    · exact h.insertAt a ha
    · exact (((c.nodes a.src).sendLeaderAes_spec hm).2.2 _ hcall).2.1.insertAt
  accepted b hb hsucc := by
    rcases Cluster.step_accepts hs b hb hsucc with hb | hmem
    · exact (Cluster.step_trace hs).subset (h.accepted b hb hsucc)
    · exact hmem
  record _ hl _ hp _ hx h1 := h.record_step hok hs hl hp hx h1

/-- A majority has acknowledged the entry, if the leader counts a majority on an index above `0`. -/
theorem majority_of_pos (h : Filed cfg c) {b : EntriesAnswer n C} (hb : b ∈ c.appendReplies)
    (hok : CreditedReply cfg c b) (hcounts : Counts c b) {j : ℕ}
    (hj : j < (c.nodes b.call.src).logs.length) (hpos : 1 ≤ j)
    (hmay : ((c.nodes b.call.src).recordMatch b.call.call.peerId
      (c.nodes b.call.src).logs.length).mayCommit j = true) :
    Raft.Majority (c.holders cfg b.call.src j) := by
  obtain ⟨hlen, hown, -⟩ := hok hcounts
  simp only [mayCommit, Bool.and_eq_true, decide_eq_true_eq] at hmay
  have hself : b.call.src ∈ c.holders cfg b.call.src j := by simp [Cluster.holders]
  rw [← Finset.insert_eq_of_mem hself]
  refine h.named.majority_of_count (fun p hp hq ↦ ?_) hmay.2
  rw [decide_eq_true_eq] at hq
  rw [Cluster.holders, Finset.mem_filter]
  refine ⟨Finset.mem_univ _, Or.inr ?_⟩
  by_cases hpid : p.1 = b.call.call.peerId
  · rw [hown p hp hpid]
    exact h.acknowledged hb hcounts hlen hj
  · rw [recordMatch_matchIndex_of_ne _ _ hpid] at hq
    cases hx : (c.nodes b.call.src).matchIndex p.1 with
    | none =>
      rw [hx, Option.getD_none] at hq
      omega
    | some x =>
      rw [hx, Option.getD_some] at hq
      exact (h.record _ hcounts.1 p hp x hx (hpos.trans hq)).mono List.prefix_rfl hq

/-- A majority has acknowledged entry `0`, if nothing was committed before. -/
theorem majority_of_zero (h : Filed cfg c) {b : EntriesAnswer n C} (hb : b ∈ c.appendReplies)
    (hok : CreditedReply cfg c b) (hcounts : Counts c b)
    (hci : (c.nodes b.call.src).commitIndex = none)
    (hterm : (c.nodes b.call.src).logs[0]?.map LogEntry.term =
      some (c.nodes b.call.src).currentTerm) :
    Raft.Majority (c.holders cfg b.call.src 0) := by
  obtain ⟨hlen, -, hn | hzero⟩ := hok hcounts
  · -- the leader and the peer that answered are enough
    obtain ⟨e, he, -⟩ := Option.map_eq_some_iff.mp hterm
    have hack := h.acknowledged hb hcounts hlen (List.getElem?_eq_some_iff.mp he).1
    have hne := h.named.ne _ (Cluster.mem_calls_of_reply hb)
    have hpair : ({b.call.src, b.call.call.client} : Finset (Fin n)) ⊆
        c.holders cfg b.call.src 0 := by
      intro v hv
      rw [Cluster.holders, Finset.mem_filter]
      rcases Finset.mem_insert.mp hv with rfl | hv
      · exact ⟨Finset.mem_univ _, Or.inl rfl⟩
      · exact ⟨Finset.mem_univ _, Or.inr (Finset.mem_singleton.mp hv ▸ hack)⟩
    have hcard := Finset.card_le_card hpair
    rw [Finset.card_pair hne.symm] at hcard
    rw [Raft.Majority, Fintype.card_fin]
    omega
  · exact hzero hci hterm

/-- **What a leader commits has been acknowledged by a majority.** -/
theorem warranted (h : Filed cfg c) {l : Label n σ C} (hok : Credited cfg c l) :
    Warranted cfg c l := by
  cases l with
  | appendReply k =>
    intro b hb node next hl ht hsucc j hj hge hne hmay
    have hmem := List.mem_of_getElem? hb
    have hcounts : Counts c b := ⟨hl, ht, hsucc⟩
    have hlen : node.logs.length = b.call.call.ni + b.call.call.req.entries.length :=
      (hok b hb hcounts).1
    have hnext : next = node.logs.length := by
      change b.call.call.ni + (node.logs.drop b.call.call.ni).length = _
      rw [List.length_drop]
      omega
    rcases Nat.eq_zero_or_pos j with rfl | hpos
    · have hci : node.commitIndex = none := by
        cases hci : node.commitIndex with
        | none => rfl
        | some ci =>
          rw [hci, Option.getD_some] at hge
          exact absurd (hci.trans (congrArg some (Nat.le_zero.mp hge))) hne
      simp only [mayCommit, Bool.and_eq_true, decide_eq_true_eq] at hmay
      exact h.majority_of_zero hmem (hok b hb) hcounts hci hmay.1
    · exact h.majority_of_pos hmem (hok b hb) hcounts hj hpos (hnext ▸ hmay)
  | _ => exact hok

end Filed

theorem Cluster.Run.filed {r : List (Cluster n σ C)} (h : Cluster.Run cfg (Credited cfg) r) :
    ∀ c ∈ r, Filed cfg c :=
  h.inv (Filed.init cfg) fun _ _ _ hfiled hok hs ↦ hfiled.step hok hs

/-! ## Safety -/

/-- **State machine safety**, in every run in which the leaders are credited with no more than what
was acknowledged: all entries ever emitted under one index carry the same command. -/
theorem state_machine_safety (cfg : Config n σ C) (hf : cfg.Fresh) {r : List (Cluster n σ C)}
    (h : Cluster.Run cfg (Credited cfg) (c :: r)) {v w : Fin n} {e e' : CommitEntry C}
    (he : .commit v e ∈ c.trace) (he' : .commit w e' ∈ c.trace) (hi : e.index = e'.index) :
    e.command = e'.command := by
  have hrun : Cluster.Run cfg (Warranted cfg) (c :: r) :=
    h.imp fun d _ _ hd hok ↦ (hd.filed d List.mem_cons_self).warranted hok
  obtain ⟨g, s, -, hsim, hcom⟩ := hrun.commits hf c List.mem_cons_self
  exact (hcom.event v e he).command_eq hsim.inv (hcom.event w e' he') hi

/-- A leader and a follower emit the same entry. -/
theorem state_machine_safety_trio :
    let c := trioEnd (Credited trio) [.startElection 0 true, .voteReq 0, .voteReply 0,
      .submit 0 7, .sendAes 0, .appendReq 0, .appendReply 0, .sendCommit 0, .sendAes 0,
      .appendReq 1, .sendCommit 1]
    .commit 0 ⟨7, 1, 0⟩ ∈ c.trace ∧ .commit 1 ⟨7, 1, 0⟩ ∈ c.trace ∧ (7 : ℕ) = 7 := by
  intro c
  have hr := run_trioRun (Credited trio) [.startElection 0 true, .voteReq 0, .voteReply 0,
    .submit 0 7, .sendAes 0, .appendReq 0, .appendReply 0, .sendCommit 0, .sendAes 0, .appendReq 1,
    .sendCommit 1] (by decide)
  have h₀ : Event.commit 0 ⟨7, 1, 0⟩ ∈ c.trace := by decide
  have h₁ : Event.commit 1 ⟨7, 1, 0⟩ ∈ c.trace := by decide
  exact ⟨h₀, h₁, state_machine_safety trio trio_fresh hr h₀ h₁ rfl⟩

/-- Without the condition two leaders commit different commands under index `0`.  Each takes a
command after its first, empty, heartbeat is under way, and commits it when the reply to the
heartbeat arrives. -/
theorem not_state_machine_safety :
    ∃ (c : Cluster 3 (MockStorage ℕ) ℕ) (r : List (Cluster 3 (MockStorage ℕ) ℕ))
      (e e' : CommitEntry ℕ), trio.Fresh ∧ Cluster.Run trio (fun _ l ↦ l.Alive) (c :: r) ∧
      .commit 0 e ∈ c.trace ∧ .commit 2 e' ∈ c.trace ∧ e.index = e'.index ∧
      e.command ≠ e'.command := by
  refine ⟨trioEnd (fun _ l ↦ l.Alive) [.startElection 0 true, .voteReq 0, .voteReply 0,
      .sendAes 0, .submit 0 7, .appendReq 0, .appendReply 0, .sendCommit 0,
      .startElection 2 true, .startElection 2 true, .voteReq 4, .voteReply 0, .sendAes 2,
      .submit 2 9, .appendReq 2, .appendReply 0, .sendCommit 2], _, ⟨7, 1, 0⟩, ⟨9, 2, 0⟩,
    trio_fresh, run_trioRun _ _ (by decide), by decide, by decide, rfl, by decide⟩

end Efis
