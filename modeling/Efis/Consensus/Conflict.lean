import Efis.Consensus.Records

/-!
# Finding the common prefix

A leader that sends a suffix of its log does not know what the follower has.  If the follower lacks
the entry before the suffix, it refuses and says where its own log ends, or where the run of the
conflicting term begins in it, and the leader tries again further down.

A request that is accepted merges the log of the leader into that of the follower, and nothing else
happens to either the log or the commit index (`appendEntries_merges`).  This takes no more than
that the two logs match, so requests may be repeated and come in any order.

A request that is refused makes the leader go back.  It does so by the *term* of the conflict, to
one past its own last entry of that term, which could lie anywhere.  That it lies below is a fact
about the history of the cluster: the entries of a term come from one log that was only ever
appended to (`backtracking_progress`).
-/

set_option autoImplicit false

namespace Efis

open Consensus
open Raft (Matching merge)

variable {n : ℕ} {σ C P : Type}

/-! ## Requests of the node's term -/

/-- The request was accepted. -/
def Accepted (res : Except String AppendEntriesReply) : Prop :=
  ∃ reply, res = .ok reply ∧ reply.success = true

section

variable [Storage σ C] (m : Consensus σ C P) {req : AppendEntries C}

/-- What a live node makes of a request that is not of an earlier term. -/
theorem appendEntries_of_le (hd : m.state ≠ .dead) (ht : m.currentTerm ≤ req.term) :
    (prevOk m.logs req.prevLogIndex req.prevLogTerm = true ∧
      (m.appendEntries req).2 = .ok ⟨req.term, true, none, none⟩ ∧
      (m.appendEntries req).1.logs = splice m.logs (insertAt req) req.entries ∧
      (m.appendEntries req).1.commitIndex =
        followCommit (splice m.logs (insertAt req) req.entries) m.commitIndex req.leaderCommit) ∨
    (prevOk m.logs req.prevLogIndex req.prevLogTerm = false ∧
      (m.appendEntries req).2 = .ok ⟨req.term, false, (conflict m.logs req.prevLogIndex).1,
        (conflict m.logs req.prevLogIndex).2⟩ ∧
      (m.appendEntries req).1.logs = m.logs ∧
      (m.appendEntries req).1.commitIndex = m.commitIndex) := by
  have hsame := (m.stepDown req.term).same_noteLeader req
  have hci : ((m.stepDown req.term).noteLeader req).commitIndex = m.commitIndex := by
    rw [noteLeader_commitIndex, stepDown_commitIndex]
  have hterm : ((m.stepDown req.term).noteLeader req).currentTerm = req.term := by
    rw [hsame.currentTerm, stepDown_currentTerm, max_eq_right ht]
  have hlogs : ((m.stepDown req.term).noteLeader req).logs = m.logs := by
    rw [hsame.logs, stepDown_logs]
  rw [appendEntries, if_neg hd]
  simp only
  generalize (m.stepDown req.term).noteLeader req = c at *
  rw [if_neg (by omega), hlogs, hterm, hci]
  cases hp : prevOk m.logs req.prevLogIndex req.prevLogTerm with
  | true =>
    rw [if_neg (by decide)]
    exact Or.inl ⟨rfl, rfl, rfl, rfl⟩
  | false =>
    rw [if_pos rfl]
    exact Or.inr ⟨rfl, rfl, hlogs, hci⟩

theorem accepted_iff_prevOk (hd : m.state ≠ .dead) (ht : m.currentTerm ≤ req.term) :
    Accepted (m.appendEntries req).2 ↔ prevOk m.logs req.prevLogIndex req.prevLogTerm = true := by
  rcases appendEntries_of_le m hd ht with ⟨hp, hr, -⟩ | ⟨hp, hr, -⟩
  · rw [hr]
    exact ⟨fun _ ↦ hp, fun _ ↦ ⟨_, rfl, rfl⟩⟩
  · rw [hr, hp]
    refine ⟨?_, nofun⟩
    rintro ⟨reply, heq, hs⟩
    obtain rfl := Except.ok.inj heq
    cases hs

/-- A live node stays in the term of the request. -/
theorem appendEntries_stays_live (hd : m.state ≠ .dead) (ht : m.currentTerm = req.term) :
    (m.appendEntries req).1.state ≠ .dead ∧
      (m.appendEntries req).1.currentTerm = m.currentTerm := by
  by_cases hf : m.state = .follower
  · obtain ⟨hs, -, hterm⟩ := appendEntries_follows m hd ht.le (Or.inr hf)
    exact ⟨by rw [hs]; decide, hterm.trans ht.symm⟩
  · obtain ⟨hs, -, hterm⟩ := appendEntries_stays m ht.ge (Or.inr hf)
    exact ⟨hs ▸ hd, hterm⟩

end

/-! ## Merging -/

/-- The follower has the entry before the suffix, with the term that the leader has there. -/
theorem prevOk_iff {F L : List (LogEntry C)} {ni : ℕ} {req : AppendEntries C}
    (hs : Suffix L ni req) :
    prevOk F req.prevLogIndex req.prevLogTerm = true ↔
      ni = 0 ∨ ∃ e f, F[ni - 1]? = some e ∧ L[ni - 1]? = some f ∧ e.term = f.term := by
  have hni := hs.insertAt
  rw [Consensus.insertAt] at hni
  cases hprev : req.prevLogIndex with
  | none =>
    rw [hprev] at hni
    exact ⟨fun _ ↦ Or.inl hni.symm, fun _ ↦ rfl⟩
  | some i =>
    rw [hprev, Option.map_some, Option.getD_some] at hni
    subst hni
    obtain ⟨f, hf⟩ : ∃ f, L[i]? = some f :=
      ⟨_, List.getElem?_eq_getElem (Nat.lt_of_succ_le hs.le)⟩
    rw [hs.prevLogTerm i hprev, hf, Option.map_some]
    simp only [prevOk, Nat.add_sub_cancel]
    cases he : F[i]? with
    | none => simp
    | some e => simp [hf]

theorem Matching.of_isPrefix {F L L' : List (LogEntry C)} (h : Matching LogEntry.term F L)
    (hp : L' <+: L) : Matching LogEntry.term F L' := by
  intro i e f he hf ht
  rw [h i e f he (Raft.getElem?_of_isPrefix hp hf) ht]
  exact Raft.take_eq_of_isPrefix hp (List.getElem?_eq_some_iff.mp hf).1

theorem Matching.of_isPrefix_left {L L' : List (LogEntry C)} (hp : L' <+: L) :
    Matching LogEntry.term L' L := by
  intro i e f he _ _
  exact (Raft.take_eq_of_isPrefix hp (List.getElem?_eq_some_iff.mp he).1).symm

/-- What has become of a follower with the log `F` and the commit index `ci`, when it handled a
request for the log `L` from `ni` on, with the leader's commit index `lc`. -/
structure Merges (F L : List (LogEntry C)) (ni : ℕ) (ci lc : Option ℕ) (f : Consensus σ C P)
    (res : Except String AppendEntriesReply) : Prop where
  accepted : Accepted res ↔
    ni = 0 ∨ ∃ e e', F[ni - 1]? = some e ∧ L[ni - 1]? = some e' ∧ e.term = e'.term
  rejected : ¬ Accepted res → f.logs = F ∧ f.commitIndex = ci
  kept : Accepted res → L <+: F → f.logs = F
  replaced : Accepted res → ¬ L <+: F → f.logs = L
  raised : f.commitIndex ≠ ci → ∃ k, lc = some k ∧ (∀ i ∈ ci, i < k) ∧ f.commitIndex = some k ∧
    f.logs.take (k + 1) = L.take (k + 1)

variable [Storage σ C]

/-- The log of a node that accepted a request for a log that matches its own. -/
theorem appendEntries_logs {f : Consensus σ C P} {L : List (LogEntry C)} {ni : ℕ}
    {req : AppendEntries C} (hd : f.state ≠ .dead) (ht : f.currentTerm ≤ req.term)
    (hs : Suffix L ni req) (hm : Matching LogEntry.term f.logs L)
    (hacc : Accepted (f.appendEntries req).2) :
    (f.appendEntries req).1.logs = merge f.logs L ∧ (f.appendEntries req).1.commitIndex =
      followCommit (merge f.logs L) f.commitIndex req.leaderCommit := by
  rw [accepted_iff_prevOk f hd ht] at hacc
  have hsplice := splice_eq_merge hm hs hacc
  rcases appendEntries_of_le f hd ht with ⟨-, -, hl, hc⟩ | ⟨hp, -⟩
  · rw [hl, hc, hsplice]
    exact ⟨rfl, rfl⟩
  · rw [hp] at hacc
    cases hacc

theorem appendEntries_of_rejected {f : Consensus σ C P} {req : AppendEntries C}
    (hd : f.state ≠ .dead) (ht : f.currentTerm ≤ req.term)
    (hrej : ¬ Accepted (f.appendEntries req).2) :
    (f.appendEntries req).1.logs = f.logs ∧
      (f.appendEntries req).1.commitIndex = f.commitIndex := by
  rw [accepted_iff_prevOk f hd ht] at hrej
  rcases appendEntries_of_le f hd ht with ⟨hp, -⟩ | ⟨-, -, hl, hc⟩
  · exact absurd hp hrej
  · exact ⟨hl, hc⟩

omit [Storage σ C] in
/-- A commit index of the leader that lies in its log is taken over as it is. -/
theorem followCommit_merge {F L : List (LogEntry C)} {ci lc : Option ℕ}
    (hlc : ∀ k ∈ lc, k < L.length) (h : followCommit (merge F L) ci lc ≠ ci) :
    ∃ k, lc = some k ∧ (∀ i ∈ ci, i < k) ∧ followCommit (merge F L) ci lc = some k ∧
      (merge F L).take (k + 1) = L.take (k + 1) := by
  rcases followCommit_cases (merge F L) ci lc with hc | ⟨k, rfl, -, hci, hc⟩
  · exact absurd hc h
  · have hpre := Raft.prefix_merge F L
    have hk : k < L.length := hlc k rfl
    have hmin : min k ((merge F L).length - 1) = k := by
      have := hpre.length_le
      omega
    rw [hmin] at hci hc
    exact ⟨k, rfl, hci, hc, Raft.take_eq_of_isPrefix hpre hk⟩

/-- One request. -/
theorem Merges.of_suffix {f : Consensus σ C P} {L : List (LogEntry C)} {ni : ℕ}
    {req : AppendEntries C} (hd : f.state ≠ .dead) (ht : f.currentTerm ≤ req.term)
    (hs : Suffix L ni req) (hm : Matching LogEntry.term f.logs L)
    (hlc : ∀ k ∈ req.leaderCommit, k < L.length) :
    Merges f.logs L ni f.commitIndex req.leaderCommit (f.appendEntries req).1
      (f.appendEntries req).2 where
  accepted := by rw [accepted_iff_prevOk f hd ht, prevOk_iff hs]
  rejected := appendEntries_of_rejected hd ht
  kept hacc hp := by rw [(appendEntries_logs hd ht hs hm hacc).1, merge, if_pos hp]
  replaced hacc hp := by rw [(appendEntries_logs hd ht hs hm hacc).1, merge, if_neg hp]
  raised hne := by
    by_cases hacc : Accepted (f.appendEntries req).2
    · obtain ⟨hl, hc⟩ := appendEntries_logs hd ht hs hm hacc
      rw [hc] at hne
      rw [hl, hc]
      exact followCommit_merge hlc hne
    · exact absurd (appendEntries_of_rejected hd ht hacc).2 hne

/-- The request was sent by a leader of term `t`, whose log was then a prefix of `L`. -/
def SentFrom (σ P : Type) (t : ℕ) (L : List (LogEntry C)) (req : AppendEntries C) : Prop :=
  ∃ (l l' : Consensus σ C P) (calls : List (AppendCall C P)) (call : AppendCall C P),
    l.sendLeaderAes = some (l', calls) ∧ call ∈ calls ∧ call.req = req ∧ l.currentTerm = t ∧
      l.logs <+: L

/-- What is common to the log of a node and to that of the leader stays, over any sequence of
requests of that leader. -/
theorem isPrefix_foldl_appendEntries {L : List (LogEntry C)} {reqs : List (AppendEntries C)}
    {f : Consensus σ C P} (hd : f.state ≠ .dead) (hm : Matching LogEntry.term f.logs L)
    (hreqs : ∀ req ∈ reqs, SentFrom σ P f.currentTerm L req) {p : List (LogEntry C)}
    (hp : p <+: f.logs) (hL : p <+: L) :
    p <+: (reqs.foldl (fun f req ↦ (f.appendEntries req).1) f).logs := by
  induction reqs generalizing f with
  | nil => exact hp
  | cons req reqs ih =>
    obtain ⟨l, l', calls, call, hsend, hcall, rfl, hterm, hl⟩ := hreqs req List.mem_cons_self
    obtain ⟨-, hsuf, hrt, -⟩ := (l.sendLeaderAes_spec hsend).2.2 call hcall
    have ht : f.currentTerm = call.req.term := hterm.symm.trans hrt.symm
    obtain ⟨hd', ht'⟩ := appendEntries_stays_live f hd ht
    have hstep : Matching LogEntry.term (f.appendEntries call.req).1.logs L ∧
        p <+: (f.appendEntries call.req).1.logs := by
      by_cases hacc : Accepted (f.appendEntries call.req).2
      · rw [(appendEntries_logs hd ht.le hsuf (Matching.of_isPrefix hm hl) hacc).1]
        refine ⟨?_, Raft.prefix_merge_of_isPrefix hp hL hl⟩
        rcases Raft.merge_eq_or f.logs l.logs with h | h
        · rwa [h]
        · rw [h]
          exact Matching.of_isPrefix_left hl
      · rw [(appendEntries_of_rejected hd ht.le hacc).1]
        exact ⟨hm, hp⟩
    refine ih hd' hstep.1 (fun r hr ↦ ?_) hstep.2
    rw [ht']
    exact hreqs r (List.mem_cons_of_mem _ hr)

/-- **A request merges exactly.**  A live node that handles a request of its term accepts it if and
only if it has the entry before the suffix, and then has the log of the leader, or its own if that
was part of it; the commit index is raised to that of the leader or stays.  So no sequence of
requests of one leader, in whatever order and however often they come, takes away what the node has
in common with the leader. -/
theorem appendEntries_merges (f : Consensus σ C P) (hd : f.state ≠ .dead) :
    (∀ (l l' : Consensus σ C P) (calls : List (AppendCall C P)) (call : AppendCall C P),
      l.sendLeaderAes = some (l', calls) → call ∈ calls → l.currentTerm = f.currentTerm →
      Matching LogEntry.term f.logs l.logs → (∀ k ∈ l.commitIndex, k < l.logs.length) →
      Merges f.logs l.logs call.ni f.commitIndex l.commitIndex (f.appendEntries call.req).1
        (f.appendEntries call.req).2) ∧
    ∀ (L : List (LogEntry C)) (reqs : List (AppendEntries C)),
      Matching LogEntry.term f.logs L → (∀ req ∈ reqs, SentFrom σ P f.currentTerm L req) →
      ∀ p, p <+: f.logs → p <+: L →
        p <+: (reqs.foldl (fun f req ↦ (f.appendEntries req).1) f).logs := by
  refine ⟨?_, fun L reqs hm hreqs p hp hL ↦ isPrefix_foldl_appendEntries hd hm hreqs hp hL⟩
  intro l l' calls call hsend hcall hterm hm hlc
  obtain ⟨-, hsuf, hrt, -, hcommit⟩ := (l.sendLeaderAes_spec hsend).2.2 call hcall
  rw [← hcommit] at hlc ⊢
  exact Merges.of_suffix hd (hterm.symm.trans hrt.symm).le hsuf hm hlc

/-- Node `1` has the first entry of the leader, and is sent both. -/
theorem appendEntries_merges_trio :
    let c := trioEnd (fun _ _ ↦ True) (replicating 0 ++ [.submit 0 8])
    (c.nodes 1).logs = [⟨7, 1⟩] ∧
      ∃ l' calls call, (c.nodes 0).sendLeaderAes = some (l', calls) ∧ call ∈ calls ∧
        ((c.nodes 1).appendEntries call.req).1.logs = (c.nodes 0).logs := by
  intro c
  have hsome : (c.nodes 0).sendLeaderAes.isSome = true := by decide
  obtain ⟨⟨l', calls⟩, hsend⟩ := Option.isSome_iff_exists.mp hsome
  have hcalls : calls.map (·.ni) = [0, 0] := by
    have hmap : (c.nodes 0).sendLeaderAes.map (fun x ↦ x.2.map (·.ni)) = some [0, 0] := by decide
    rw [hsend, Option.map_some] at hmap
    exact Option.some_inj.mp hmap
  obtain ⟨call, hcall, hni⟩ : ∃ call ∈ calls, call.ni = 0 :=
    List.mem_map.mp (hcalls ▸ List.mem_cons_self)
  have hmatch : Matching LogEntry.term (c.nodes 1).logs (c.nodes 0).logs :=
    Matching.of_isPrefix_left ⟨[⟨8, 1⟩], by decide⟩
  have hmerges := (appendEntries_merges (c.nodes 1) (by decide)).1 (c.nodes 0) l' calls call hsend
    hcall (by decide) hmatch (by decide)
  refine ⟨by decide, l', calls, call, hsend, hcall, ?_⟩
  exact hmerges.replaced (hmerges.accepted.mpr (Or.inl hni)) (by decide)

/-! ## Going back -/

omit [Storage σ C] in
theorem firstIndexOfTerm_le (logs : List (LogEntry C)) (t i : ℕ) :
    firstIndexOfTerm logs t i ≤ i := by
  induction i with
  | zero => exact le_rfl
  | succ i ih =>
    rw [firstIndexOfTerm]
    split
    · exact ih.trans (Nat.le_succ i)
    · exact le_rfl

/-- What the refusal of a request says.  The index lies at the entry before the suffix or below, and
the term is that of the follower's entry there, which is part of the history of that term. -/
structure Refused (s : Raft.State (Fin n) (LogEntry C)) (req : AppendEntries C)
    (reply : AppendEntriesReply) : Prop where
  index : ∃ i x, req.prevLogIndex = some i ∧ reply.conflictIndex = some x ∧ x ≤ i
  term : ∀ i t, req.prevLogIndex = some i → reply.conflictTerm = some t →
    req.prevLogTerm ≠ some t ∧ (s.base t).isSome ∧ (s.lead t)[i]?.map LogEntry.term = some t

omit [Storage σ C] in
theorem Refused.grows {s s' : Raft.State (Fin n) (LogEntry C)} {req : AppendEntries C}
    {reply : AppendEntriesReply} (h : Refused s req reply) (hg : Raft.Grows s s') :
    Refused s' req reply := by
  refine ⟨h.index, fun i t hi ht ↦ ?_⟩
  obtain ⟨hne, hb, hl⟩ := h.term i t hi ht
  refine ⟨hne, hg.base_isSome hb, ?_⟩
  obtain ⟨e, he, rfl⟩ := Option.map_eq_some_iff.mp hl
  rw [Raft.getElem?_of_isPrefix (hg.lead _ hb) he, Option.map_some]

/-- A node that refuses a request of its term. -/
theorem Refused.of_appendEntries {s : Raft.State (Fin n) (LogEntry C)} {m : Consensus σ C P}
    {req : AppendEntries C} {reply : AppendEntriesReply}
    (hroot : Raft.Rooted LogEntry.term s m.logs) (hreply : (m.appendEntries req).2 = .ok reply)
    (hsucc : reply.success = false) (hterm : reply.term = req.term) : Refused s req reply := by
  have hd : m.state ≠ .dead := by
    intro hd
    rw [appendEntries, if_pos hd] at hreply
    cases hreply
  have hle : m.currentTerm ≤ req.term := by
    by_contra hlt
    -- a node of a later term answers with that term
    have hdown : m.stepDown req.term = m := by rw [stepDown, if_neg (by omega)]
    have hnote : m.noteLeader req = m := by rw [noteLeader, if_neg (by omega)]
    rw [appendEntries, if_neg hd] at hreply
    simp only [hdown, hnote] at hreply
    rw [if_pos (by omega)] at hreply
    rw [← Except.ok.inj hreply] at hterm
    simp only at hterm
    omega
  rcases appendEntries_of_le m hd hle with ⟨-, hr, -⟩ | ⟨hp, hr, -⟩
  · rw [hr] at hreply
    rw [← Except.ok.inj hreply] at hsucc
    cases hsucc
  · rw [hr] at hreply
    obtain rfl := Except.ok.inj hreply
    cases hprev : req.prevLogIndex with
    | none =>
      rw [hprev] at hp
      cases hp
    | some i =>
      rw [hprev] at hp
      cases he : m.logs[i]? with
      | none =>
        have hlen : m.logs.length ≤ i := List.getElem?_eq_none_iff.mp he
        have hconf : conflict m.logs (some i) = (some m.logs.length, none) := by
          simp only [conflict, he]
        rw [hconf]
        exact ⟨⟨i, _, hprev, rfl, hlen⟩, fun j t _ ht ↦ by cases ht⟩
      | some e =>
        have hconf : conflict m.logs (some i) =
            (some (firstIndexOfTerm m.logs e.term i), some e.term) := by
          simp only [conflict, he]
        rw [hconf]
        refine ⟨⟨i, _, hprev, rfl, firstIndexOfTerm_le _ _ _⟩, fun j t hj ht ↦ ?_⟩
        obtain rfl : i = j := Option.some_inj.mp (hprev.symm.trans hj)
        obtain rfl : e.term = t := Option.some_inj.mp ht
        obtain ⟨hb, hpre⟩ := hroot i e he
        refine ⟨fun heq ↦ ?_, hb, ?_⟩
        · rw [heq] at hp
          simp [prevOk, he] at hp
        · have htake : (m.logs.take (i + 1))[i]? = some e := by
            rw [List.getElem?_take, if_pos (Nat.lt_succ_self i), he]
          rw [Raft.getElem?_of_isPrefix hpre htake, Option.map_some]

/-- The calls under way and their replies, along with the abstract state. -/
structure Backs (s : Raft.State (Fin n) (LogEntry C)) (c : Cluster n σ C) : Prop where
  ni : ∀ a ∈ c.calls, insertAt a.call.req = a.call.ni
  sound : ∀ b ∈ c.appendReplies, Sound s b.call.call.req
  refused : ∀ b ∈ c.appendReplies, b.reply.success = false →
    b.reply.term = b.call.call.req.term → Refused s b.call.call.req b.reply

variable {cfg : Config n σ C} {c c' : Cluster n σ C} {g : Fin n → ℕ → Option String}
  {s s' : Raft.State (Fin n) (LogEntry C)}

theorem Backs.step (h : Backs s c) (hsim : Sim cfg c g s) (hg : Raft.Grows s s')
    {l : Label n σ C} (hs : c.step l = some c') : Backs s' c' := by
  constructor
  case ni =>
    intro a ha
    rcases Cluster.step_calls hs a ha with ha | ⟨calls, hm, hcall⟩
    · exact h.ni a ha
    · exact (((c.nodes a.src).sendLeaderAes_spec hm).2.2 _ hcall).2.1.insertAt
  case sound =>
    intro b hb
    rcases Cluster.step_appendReplies hs b hb with hb | ⟨k, hk, -⟩
    · exact (h.sound b hb).grows hg
    · exact (hsim.sound _ (List.mem_of_getElem? hk)).grows hg
  case refused =>
    intro b hb hsucc hterm
    rcases Cluster.step_appendReplies hs b hb with hb | ⟨k, hk, hreply⟩
    · exact (h.refused b hb hsucc hterm).grows hg
    · have hroot := hsim.inv.log_rooted b.call.call.client
      rw [hsim.log] at hroot
      exact (Refused.of_appendEntries hroot hreply hsucc hterm).grows hg

theorem Cluster.Run.backs (hf : cfg.Fresh) {r : List (Cluster n σ C)}
    (h : Cluster.Run cfg (fun _ l ↦ l.Alive) r) :
    ∀ c ∈ r, ∃ g s, Elect cfg c g ∧ Sim cfg c g s ∧ Backs s c := by
  refine h.inv ⟨record cfg.init fun _ _ ↦ none, Raft.State.init _ _, ?_⟩ ?_
  · exact ⟨Elect.init cfg, Sim.init hf, ⟨nofun, nofun, nofun⟩⟩
  · rintro c l c' ⟨g, s, he, hsim, hbacks⟩ hok hs
    obtain ⟨s', hs', hsim'⟩ := hsim.step he hok hs
    obtain ⟨-, hgr⟩ := hs'.inv_grows hsim.inv
    exact ⟨record c' g, s', (he.step hok.keeps hs).elect, hsim', hbacks.step hsim hgr hs⟩

omit [Storage σ C] in
/-- A leader's last entry of the term of the conflict lies below the entry that was refused: above
it, the leader's log would be that of the term, and so would have agreed with the follower's. -/
theorem lastIndexOfTerm_lt {L : List (LogEntry C)} {req : AppendEntries C}
    {reply : AppendEntriesReply} (h : Refused s req reply) (hroot : Raft.Rooted LogEntry.term s L)
    {i t lti : ℕ} (hi : req.prevLogIndex = some i) (ht : reply.conflictTerm = some t)
    (hprev : req.prevLogTerm = L[i]?.map LogEntry.term) (hlast : lastIndexOfTerm L t = some lti) :
    lti < i := by
  by_contra hlt
  obtain ⟨hne, -, hlead⟩ := h.term i t hi ht
  have hterm : L[lti]?.map LogEntry.term = some t := by
    simpa using List.find?_some hlast
  obtain ⟨e, he, rfl⟩ := Option.map_eq_some_iff.mp hterm
  obtain ⟨-, hpre⟩ := hroot lti e he
  have hlen := (List.getElem?_eq_some_iff.mp he).1
  -- the leader has the entry that the follower has
  have hsame : L[i]? = (s.lead e.term)[i]? := by
    rw [List.getElem?_eq_getElem (by omega : i < L.length)]
    refine (Raft.getElem?_of_isPrefix hpre ?_).symm
    rw [List.getElem?_take, if_pos (by omega), List.getElem?_eq_getElem]
  rw [hprev, hsame, hlead] at hne
  exact hne rfl

omit [Storage σ C] in
/-- **A refusal makes the leader go back.** -/
theorem backtrack_lt {m : Consensus σ C P} {req : AppendEntries C} {reply : AppendEntriesReply}
    (h : Refused s req reply) (hroot : Raft.Rooted LogEntry.term s m.logs)
    (hprev : ∀ i, req.prevLogIndex = some i → req.prevLogTerm = m.logs[i]?.map LogEntry.term) :
    m.backtrack reply < insertAt req := by
  obtain ⟨i, x, hi, hx, hle⟩ := h.index
  have hins : insertAt req = i + 1 := by rw [insertAt, hi, Option.map_some, Option.getD_some]
  rw [hins, backtrack, hx, Option.getD_some]
  cases ht : reply.conflictTerm with
  | none => exact Nat.lt_succ_of_le hle
  | some t =>
    cases hlast : lastIndexOfTerm m.logs t with
    | none =>
      simp only [hlast]
      exact Nat.lt_succ_of_le hle
    | some lti =>
      simp only [hlast]
      have := lastIndexOfTerm_lt h hroot hi ht (hprev i hi) hlast
      omega

/-- A step in which node `i`, leading term `t`, processes the refusal that node `v` gave to one of
its requests of that term. -/
structure Rejection (cfg : Config n σ C) (i v : Fin n) (t : ℕ) where
  before : Cluster n σ C
  after : Cluster n σ C
  past : List (Cluster n σ C)
  index : ℕ
  answer : EntriesAnswer n C
  run : Cluster.Run cfg (fun _ l ↦ l.Alive) (before :: past)
  answer_eq : before.appendReplies[index]? = some answer
  step_eq : before.step (.appendReply index) = some after
  src : answer.call.src = i
  client : answer.call.call.client = v
  term : answer.call.call.req.term = t
  leads : (before.nodes i).state = .leader ∧ (before.nodes i).currentTerm = t
  refuses : answer.reply.success = false ∧ answer.reply.term = t

namespace Rejection

variable {i v : Fin n} {t : ℕ}

/-- The index the request was sent for. -/
def ni (ρ : Rejection cfg i v t) : ℕ := ρ.answer.call.call.ni

/-- The next index of the peer once the refusal is processed. -/
def next (ρ : Rejection cfg i v t) : Option ℕ :=
  (ρ.after.nodes i).nextIndex ρ.answer.call.call.peerId

/-- The second request was sent for the index that the first refusal led to. -/
def Resent (ρ ρ' : Rejection cfg i v t) : Prop := ρ.next = some ρ'.ni

theorem next_lt (hf : cfg.Fresh) (ρ : Rejection cfg i v t) : ∃ x, ρ.next = some x ∧ x < ρ.ni := by
  obtain ⟨g, s, -, hsim, hbacks⟩ := ρ.run.backs hf _ List.mem_cons_self
  have hmem := List.mem_of_getElem? ρ.answer_eq
  have href := hbacks.refused _ hmem ρ.refuses.1 (ρ.refuses.2.trans ρ.term.symm)
  have hsound := hbacks.sound _ hmem
  have hni := hbacks.ni _ (Cluster.mem_calls_of_reply hmem)
  -- the leader has the log of its term
  have hlead : (ρ.before.nodes i).logs = s.lead ρ.answer.call.call.req.term := by
    rw [(hsim.lead i ρ.leads.1).2.1, ρ.leads.2, ρ.term]
  have hroot := hsim.inv.log_rooted i
  rw [hsim.log] at hroot
  have hlen := hsound.suffix.le
  rw [List.length_take_of_le hsound.le] at hlen
  have hprev : ∀ j, ρ.answer.call.call.req.prevLogIndex = some j →
      ρ.answer.call.call.req.prevLogTerm =
        (ρ.before.nodes i).logs[j]?.map LogEntry.term := by
    intro j hj
    have hins : insertAt ρ.answer.call.call.req = j + 1 := by
      rw [insertAt, hj, Option.map_some, Option.getD_some]
    rw [hlead, hsound.suffix.prevLogTerm j hj, List.getElem?_take, if_pos (by omega)]
  have hlt := backtrack_lt (m := ρ.before.nodes i) href hroot hprev
  refine ⟨(ρ.before.nodes i).backtrack ρ.answer.reply, ?_, by rw [ni, ← hni]; exact hlt⟩
  obtain ⟨b, hb, hafter⟩ := Cluster.step_appendReply ρ.step_eq
  obtain rfl : ρ.answer = b := Option.some_inj.mp (ρ.answer_eq.symm.trans hb)
  have hle : ρ.answer.call.call.ni ≤ (ρ.before.nodes i).logs.length := by
    rw [← hni, hlead]
    exact hlen.trans hsound.le
  have hres : (ρ.before.nodes i).handleAeRes ρ.answer.call.call.peerId ρ.answer.call.call.ni
      ρ.answer.reply = some { ρ.before.nodes i with
        nextIndex := Function.update (ρ.before.nodes i).nextIndex ρ.answer.call.call.peerId
          (some ((ρ.before.nodes i).backtrack ρ.answer.reply)) } := by
    have hterm : (ρ.before.nodes i).currentTerm = ρ.answer.reply.term :=
      ρ.leads.2.trans ρ.refuses.2.symm
    rw [handleAeRes, if_neg (by omega), sliceFrom, if_pos hle]
    simp only [Option.bind_eq_bind, Option.bind_some, if_pos (And.intro ρ.leads.1 hterm),
      ρ.refuses.1, Bool.false_eq_true, if_false]
  rw [next, hafter, Cluster.aeRes]
  simp only [ρ.src, hres, Cluster.set_self]
  exact Function.update_self ..

end Rejection

/-- **Conflict backtracking makes progress.**  In every state of a cluster without restarts, a
leader that processes the refusal of a request of its current term goes back below the index of
that request.  So a chain of refusals, each of a request for the index the one before it led to, is
no longer than the first index. -/
theorem backtracking_progress (cfg : Config n σ C) (hf : cfg.Fresh) {i v : Fin n} {t : ℕ}
    (ρs : List (Rejection cfg i v t)) (hchain : ρs.IsChain Rejection.Resent) :
    (∀ ρ ∈ ρs, ∃ x, ρ.next = some x ∧ x < ρ.ni) ∧ ∀ ρ ∈ ρs.head?, ρs.length ≤ ρ.ni := by
  refine ⟨fun ρ _ ↦ ρ.next_lt hf, ?_⟩
  induction ρs with
  | nil => exact fun ρ hρ ↦ by cases hρ
  | cons ρ ρs ih =>
    intro ρ₀ hρ₀
    obtain rfl := Option.some_inj.mp hρ₀
    obtain ⟨x, hx, hlt⟩ := ρ.next_lt hf
    cases ρs with
    | nil => exact Nat.one_le_of_lt hlt
    | cons ρ' ρs =>
      obtain ⟨hstep, hchain⟩ := List.isChain_cons_cons.mp hchain
      have hle := ih hchain ρ' rfl
      have hni : x = ρ'.ni := Option.some_inj.mp (hx.symm.trans hstep)
      rw [List.length_cons]
      omega

/-- Node `a` takes a command in term `1`, loses the lead to node `b`, and is elected again in term
`3`.  The first of its peers does not have the command. -/
def reelection (a b : Fin 3) : List (Label 3 (MockStorage ℕ) ℕ) :=
  [.startElection a true, .voteReq 0, .voteReply 0, .submit a 7, .startElection b true, .voteReq 1,
    .startElection a true, .voteReq 2, .voteReply 1, .sendAes a, .appendReq 0]

/-- Node `1` refuses the first request of term `3`, which is for index `1`. -/
theorem backtracking_progress_trio :
    ∃ ρ : Rejection trio 0 1 3, ρ.before = trioEnd (fun _ l ↦ l.Alive) (reelection 0 1) ∧
      (∃ x, ρ.next = some x ∧ x < ρ.ni) ∧ [ρ].length ≤ ρ.ni := by
  let ρ : Rejection trio 0 1 3 :=
    { before := trioEnd (fun _ l ↦ l.Alive) (reelection 0 1)
      after :=
        ((trioEnd (fun _ l ↦ l.Alive) (reelection 0 1)).step (.appendReply 0)).get (by decide)
      past := (trioRun (fun _ l ↦ l.Alive) (reelection 0 1)).tail
      index := 0
      answer := ((trioEnd (fun _ l ↦ l.Alive) (reelection 0 1)).appendReplies[0]?).get (by decide)
      run := run_trioRun _ _ (by decide)
      answer_eq := (Option.some_get _).symm
      step_eq := (Option.some_get _).symm
      src := by decide
      client := by decide
      term := by decide
      leads := by decide
      refuses := by decide }
  have h := backtracking_progress trio trio_fresh [ρ] (.singleton _)
  exact ⟨ρ, rfl, h.1 _ List.mem_cons_self, h.2 _ rfl⟩

end Efis
