import Efis.Consensus.Commit
import Efis.Consensus.Persist

/-!
# What a node emits

A single node between two restarts, over any sequence of messages up to a panic, and the entries
that it puts on its commit channel.  `send_commits` goes from the index after `last_applied` up to
the commit index, and the next call goes on from there.  So the indices come one after the other
(`Consensus.emitted_spec`), and each entry is in the log when it is sent.

Two numbers stand for "none yet": an absent `last_applied` and the largest `usize`.  The second is
never an index, since a log is not that long.
-/

set_option autoImplicit false

namespace Efis

open Consensus

variable {σ C P : Type}

/-! ## Runs of a node -/

/-- An index that may be absent has not decreased. -/
def NotLess (i j : Option ℕ) : Prop := ∀ a ∈ i, ∃ b ∈ j, a ≤ b

theorem NotLess.rfl {i : Option ℕ} : NotLess i i := fun a ha ↦ ⟨a, ha, Nat.le_refl a⟩

theorem NotLess.trans {i j k : Option ℕ} (h : NotLess i j) (h' : NotLess j k) : NotLess i k := by
  intro a ha
  obtain ⟨b, hb, hab⟩ := h a ha
  obtain ⟨c, hc, hbc⟩ := h' b hb
  exact ⟨c, hc, hab.trans hbc⟩

namespace Consensus

variable [Storage σ C]

/-- The entries that are sent while a message is handled. -/
def emits (n : Consensus σ C P) : Op C → List (CommitEntry C)
  | .sendCommit => (n.sendCommits.map Prod.snd).getD []
  | _ => []

omit [Storage σ C] in
theorem emits_of_ne (n : Consensus σ C P) {op : Op C} (hop : op ≠ .sendCommit) :
    n.emits op = [] := by
  cases op with
  | sendCommit => exact absurd rfl hop
  | _ => rfl

/-- The states of a node as it handles messages, up to a panic. -/
def states (n : Consensus σ C P) : List (Op C) → List (Consensus σ C P)
  | [] => [n]
  | op :: ops =>
    n :: match n.handle op with
      | some c => c.states ops
      | none => []

/-- What is sent on the way, each entry with the log as it is when the entry is sent. -/
def emitted (n : Consensus σ C P) : List (Op C) → List (CommitEntry C × List (LogEntry C))
  | [] => []
  | op :: ops =>
    match n.handle op with
    | some c => (n.emits op).map (fun e ↦ (e, n.logs)) ++ c.emitted ops
    | none => []

/-! ## What is left alone -/

@[simp] theorem stepDown_lastApplied (n : Consensus σ C P) (t : ℕ) :
    (n.stepDown t).lastApplied = n.lastApplied := by
  rw [stepDown]; split <;> rfl

omit [Storage σ C] in
theorem noteLeader_lastApplied (n : Consensus σ C P) (req : AppendEntries C) :
    (n.noteLeader req).lastApplied = n.lastApplied := by
  rw [noteLeader]; split <;> rfl

theorem appendEntries_lastApplied (n : Consensus σ C P) (req : AppendEntries C) :
    (n.appendEntries req).1.lastApplied = n.lastApplied := by
  have hc : ((n.stepDown req.term).noteLeader req).lastApplied = n.lastApplied := by
    rw [noteLeader_lastApplied, stepDown_lastApplied]
  simp only [appendEntries]
  split
  · rfl
  · split
    · exact hc
    · split
      · exact hc
      · exact hc

/-- Only `SendCommit` moves the last applied index. -/
theorem handle_lastApplied {n c : Consensus σ C P} {op : Op C} (h : n.handle op = some c)
    (hop : op ≠ .sendCommit) : c.lastApplied = n.lastApplied := by
  cases op with
  | startElection elapsed =>
    obtain ⟨⟨c', reqs⟩, hc, rfl⟩ := Option.map_eq_some_iff.mp h
    simp only [onStartElection, startElection] at hc
    split at hc
    · split at hc
      · obtain ⟨rfl, -⟩ := Prod.mk.inj (Option.some_inj.mp hc)
        rfl
      · cases hc
    · obtain ⟨rfl, -⟩ := Prod.mk.inj (Option.some_inj.mp hc)
      rfl
  | voteResult term voted =>
    obtain rfl := Option.some_inj.mp h
    rcases n.onVoteResult_cases term voted with hc | ⟨-, hc⟩ | ⟨-, -, -, hc⟩ | ⟨-, -, -, -, hc⟩
    · rw [hc]
    · rw [hc]
      rfl
    · rw [hc]
    · rw [hc]
      rfl
  | requestVote req =>
    obtain rfl := Option.some_inj.mp h
    rcases n.requestVote_cases req with hc | ⟨-, -, -, hc⟩ | hc
    · rw [hc]
    · rw [hc]
      exact n.stepDown_lastApplied req.term
    · rw [hc]
      exact n.stepDown_lastApplied req.term
  | appendEntries req =>
    obtain rfl := Option.some_inj.mp h
    exact n.appendEntries_lastApplied req
  | submit cmd =>
    obtain rfl := Option.some_inj.mp h
    rw [onSubmit]
    split <;> rfl
  | sendAes =>
    obtain ⟨⟨c', calls⟩, hc, rfl⟩ := Option.map_eq_some_iff.mp h
    obtain ⟨next, rfl⟩ := n.sendLeaderAes_node hc
    rfl
  | aeRes peerId ni reply =>
    rcases n.handleAeRes_node h with ⟨-, rfl⟩ | ⟨-, next, mat, ci, rfl⟩
    · rfl
    · rfl
  | sendCommit => exact absurd rfl hop

end Consensus

/-! ## The commit index -/

theorem notLess_followCommit (logs : List (LogEntry C)) (ci lc : Option ℕ) :
    NotLess ci (followCommit logs ci lc) := by
  rcases followCommit_cases logs ci lc with h | ⟨k, -, -, hlt, h⟩
  · rw [h]
    exact NotLess.rfl
  · rw [h]
    exact fun i hi ↦ ⟨_, rfl, (hlt i hi).le⟩

theorem notLess_advanceCommit (n : Consensus σ C P) : NotLess n.commitIndex n.advanceCommit := by
  rcases n.advanceCommit_cases with h | ⟨i, hle, -, -, h⟩
  · rw [h]
    exact NotLess.rfl
  · rw [h]
    intro ci hci
    rw [Option.mem_def.mp hci] at hle
    exact ⟨i, rfl, hle⟩

/-- **The commit index never decreases.** -/
theorem notLess_commitIndex [Storage σ C] {n c : Consensus σ C P} {op : Op C}
    (h : n.handle op = some c) : NotLess n.commitIndex c.commitIndex := by
  have heq : c.commitIndex = n.commitIndex → NotLess n.commitIndex c.commitIndex :=
    fun he ↦ he ▸ NotLess.rfl
  cases op with
  | startElection elapsed =>
    obtain ⟨⟨c', reqs⟩, hc, rfl⟩ := Option.map_eq_some_iff.mp h
    rcases n.onStartElection_cases elapsed with hn | hn | ⟨c'', hn, -, hci⟩
    · rw [hn] at hc
      cases hc
    · obtain ⟨rfl, -⟩ := Prod.mk.inj (Option.some_inj.mp (hn.symm.trans hc))
      exact NotLess.rfl
    · obtain ⟨rfl, -⟩ := Prod.mk.inj (Option.some_inj.mp (hn.symm.trans hc))
      exact heq hci
  | voteResult term voted =>
    obtain rfl := Option.some_inj.mp h
    rcases n.onVoteResult_cases term voted with hc | ⟨-, hc⟩ | ⟨-, -, -, hc⟩ | ⟨-, -, -, -, hc⟩ <;>
    · rw [hc]
      exact NotLess.rfl
  | requestVote req =>
    obtain rfl := Option.some_inj.mp h
    rcases n.requestVote_cases req with hc | ⟨-, -, -, hc⟩ | hc
    · rw [hc]
      exact NotLess.rfl
    · exact heq (by rw [hc]; exact n.stepDown_commitIndex req.term)
    · exact heq (by rw [hc]; exact n.stepDown_commitIndex req.term)
  | appendEntries req =>
    obtain rfl := Option.some_inj.mp h
    rcases n.appendEntries_cases req with hc | ⟨c', _, hc, -, -, hci⟩ | ⟨c', hc, -, -, -, hci⟩
    · rw [hc]
      exact NotLess.rfl
    · exact heq (by rw [hc]; exact hci)
    · rw [hc]
      change NotLess n.commitIndex c'.commitIndex
      rw [hci]
      exact notLess_followCommit _ _ _
  | submit cmd =>
    obtain rfl := Option.some_inj.mp h
    rcases n.onSubmit_cases cmd with hc | ⟨-, -, hci⟩
    · rw [hc]
      exact NotLess.rfl
    · exact heq hci
  | sendAes =>
    obtain ⟨⟨c', calls⟩, hc, rfl⟩ := Option.map_eq_some_iff.mp h
    exact heq (n.sendLeaderAes_spec hc).2.1
  | aeRes peerId ni reply =>
    rcases n.handleAeRes_cases h with ⟨-, rfl⟩ | ⟨-, hci⟩ | ⟨-, -, -, -, hci⟩
    · exact NotLess.rfl
    · exact heq hci
    · rw [hci]
      exact notLess_advanceCommit (n.recordMatch peerId _)
  | sendCommit =>
    obtain ⟨⟨c', entries⟩, hc, rfl⟩ := Option.map_eq_some_iff.mp h
    exact heq (n.sendCommits_spec hc).2.1

/-! ## One message -/

/-- The index that is to be sent next. -/
def Consensus.nextCommit (n : Consensus σ C P) : ℕ := (n.lastApplied.map (· + 1)).getD 0

/-- The last applied index is not taken for an absent one. -/
def Consensus.Applied (n : Consensus σ C P) : Prop := ∀ la ∈ n.lastApplied, la < usizeMax

theorem commitStart_eq {n : Consensus σ C P} (h : n.Applied) :
    commitStart n.lastApplied = n.nextCommit := by
  rw [commitStart, Consensus.nextCommit]
  cases hla : n.lastApplied with
  | none => rfl
  | some la => exact if_neg (h la hla).ne

/-- What is known of a node and of what it sends, from one moment to a later one. -/
structure Emits (n c : Consensus σ C P) (es : List (CommitEntry C × List (LogEntry C))) : Prop where
  commitIndex : NotLess n.commitIndex c.commitIndex
  lastApplied : NotLess n.lastApplied c.lastApplied
  applied : c.Applied
  next : c.nextCommit = n.nextCommit + es.length
  index : es.map (fun e ↦ e.1.index) = List.range' n.nextCommit es.length
  command : ∀ e ∈ es, e.2[e.1.index]?.map LogEntry.command = some e.1.command

theorem Emits.trans {n c d : Consensus σ C P} {es es' : List (CommitEntry C × List (LogEntry C))}
    (h : Emits n c es) (h' : Emits c d es') : Emits n d (es ++ es') where
  commitIndex := h.commitIndex.trans h'.commitIndex
  lastApplied := h.lastApplied.trans h'.lastApplied
  applied := h'.applied
  next := by rw [h'.next, h.next, List.length_append, Nat.add_assoc]
  index := by
    rw [List.map_append, h.index, h'.index, h.next, List.length_append, List.range'_append_1]
  command e he := (List.mem_append.mp he).elim (h.command e) (h'.command e)

/-- Only the two indices of a node count. -/
theorem Emits.congr {n c d : Consensus σ C P} {es : List (CommitEntry C × List (LogEntry C))}
    (h : Emits n c es) (hci : d.commitIndex = c.commitIndex) (hla : d.lastApplied = c.lastApplied) :
    Emits n d es where
  commitIndex := hci ▸ h.commitIndex
  lastApplied := hla ▸ h.lastApplied
  applied := by rw [Consensus.Applied, hla]; exact h.applied
  next := by rw [Consensus.nextCommit, hla]; exact h.next
  index := h.index
  command := h.command

/-- A message that sends nothing. -/
theorem Emits.of_eq {n c : Consensus σ C P} (hn : n.Applied)
    (hc : NotLess n.commitIndex c.commitIndex) (hla : c.lastApplied = n.lastApplied) :
    Emits n c [] where
  commitIndex := hc
  lastApplied := hla ▸ NotLess.rfl
  applied := by rw [Consensus.Applied, hla]; exact hn
  next := by rw [Consensus.nextCommit, hla]; rfl
  index := rfl
  command := nofun

/-- `send_commits` sends what is between the last applied index and the commit index. -/
theorem Emits.sendCommits {n c : Consensus σ C P} {entries : List (CommitEntry C)}
    (h : n.sendCommits = some (c, entries)) (hn : n.Applied) (hlen : n.logs.length ≤ usizeMax) :
    Emits n c (entries.map fun e ↦ (e, n.logs)) := by
  have hcmd := (n.sendCommits_spec h).2.2
  have hci := (n.sendCommits_spec h).2.1
  rw [Consensus.sendCommits] at h
  split at h
  · obtain ⟨rfl, rfl⟩ := Prod.mk.inj (Option.some_inj.mp h)
    exact of_eq hn NotLess.rfl rfl
  · rename_i ci hcommit
    simp only [commitStart_eq hn] at h
    split at h
    · rename_i hstart
      obtain ⟨slice, hslice, h⟩ := Option.bind_eq_some_iff.mp h
      rw [sliceIncl] at hslice
      split at hslice
      · rename_i hlt
        obtain rfl := Option.some_inj.mp hslice
        obtain ⟨rfl, rfl⟩ := Prod.mk.inj (Option.some_inj.mp h)
        have hlength : ((n.logs.take (ci + 1)).drop n.nextCommit).length =
            ci + 1 - n.nextCommit := by
          rw [List.length_drop, List.length_take_of_le hlt]
        constructor
        case commitIndex => exact hci ▸ NotLess.rfl
        case lastApplied =>
          intro la hla
          refine ⟨ci, rfl, ?_⟩
          rw [nextCommit, Option.mem_def.mp hla] at hstart
          exact (Nat.le_succ la).trans hstart.1
        case applied =>
          intro la hla
          obtain rfl := Option.some_inj.mp hla
          exact hlt.trans_le hlen
        case next =>
          simp only [List.length_map, List.length_zipIdx, hlength]
          change ci + 1 = _
          omega
        case index =>
          have hmap := congrArg (List.map (n.nextCommit + ·))
            (List.zipIdx_map_snd 0 ((n.logs.take (ci + 1)).drop n.nextCommit))
          rw [List.map_map, List.map_add_range', Nat.add_zero] at hmap
          simp only [List.map_map, List.length_map, List.length_zipIdx]
          exact hmap
        case command =>
          intro e he
          obtain ⟨x, hx, rfl⟩ := List.mem_map.mp he
          obtain ⟨_, -, -, hcommand⟩ := hcmd x hx
          exact hcommand
      · cases hslice
    · obtain ⟨rfl, rfl⟩ := Prod.mk.inj (Option.some_inj.mp h)
      exact of_eq hn NotLess.rfl rfl

theorem Emits.handle [Storage σ C] {n c : Consensus σ C P} {op : Op C} (h : n.handle op = some c)
    (hn : n.Applied) (hlen : n.logs.length ≤ usizeMax) :
    Emits n c ((n.emits op).map fun e ↦ (e, n.logs)) := by
  by_cases hop : op = .sendCommit
  · subst hop
    obtain ⟨⟨c', entries⟩, hc, rfl⟩ := Option.map_eq_some_iff.mp h
    have hemits : n.emits .sendCommit = entries := by
      rw [emits, hc]
      rfl
    rw [hemits]
    exact Emits.sendCommits hc hn hlen
  · rw [n.emits_of_ne hop]
    exact of_eq hn (notLess_commitIndex h) (handle_lastApplied h hop)

/-! ## Runs -/

/-- From one moment to a later one, neither of the two indices has decreased. -/
def Onward (n c : Consensus σ C P) : Prop :=
  NotLess n.commitIndex c.commitIndex ∧ NotLess n.lastApplied c.lastApplied

section

variable [Storage σ C]

/-- What holds of every message holds of a sequence of them. -/
theorem Consensus.emitted_spec {n : Consensus σ C P} {ops : List (Op C)} (hn : n.Applied)
    (hlen : ∀ m ∈ n.states ops, m.logs.length ≤ usizeMax) :
    (n.states ops).Pairwise Onward ∧ (∀ m ∈ n.states ops, Onward n m ∧ m.Applied) ∧
      ∃ c ∈ n.states ops, Emits n c (n.emitted ops) := by
  have hself : Onward n n := ⟨NotLess.rfl, NotLess.rfl⟩
  induction ops generalizing n with
  | nil =>
    refine ⟨List.pairwise_singleton _ _, fun m hm ↦ ?_, n, List.mem_singleton_self n, ?_⟩
    · rw [List.mem_singleton.mp hm]
      exact ⟨hself, hn⟩
    · exact Emits.of_eq hn NotLess.rfl rfl
  | cons op ops ih =>
    cases hc : n.handle op with
    | none =>
      simp only [states, emitted, hc]
      refine ⟨List.pairwise_singleton _ _, fun m hm ↦ ?_, n, List.mem_singleton_self n, ?_⟩
      · rw [List.mem_singleton.mp hm]
        exact ⟨hself, hn⟩
      · exact Emits.of_eq hn NotLess.rfl rfl
    | some c =>
      simp only [states, hc] at hlen
      have hstep := Emits.handle hc hn (hlen n List.mem_cons_self)
      obtain ⟨hpair, hall, d, hd, hemits⟩ := ih hstep.applied
        (fun m hm ↦ hlen m (List.mem_cons_of_mem n hm)) ⟨NotLess.rfl, NotLess.rfl⟩
      have hfrom : ∀ m ∈ c.states ops, Onward n m ∧ m.Applied := by
        intro m hm
        obtain ⟨⟨hci, hla⟩, hap⟩ := hall m hm
        exact ⟨⟨hstep.commitIndex.trans hci, hstep.lastApplied.trans hla⟩, hap⟩
      simp only [states, emitted, hc]
      refine ⟨List.pairwise_cons.mpr ⟨fun m hm ↦ (hfrom m hm).1, hpair⟩, ?_, d,
        List.mem_cons_of_mem n hd, hstep.trans hemits⟩
      exact List.forall_mem_cons.mpr ⟨⟨hself, hn⟩, hfrom⟩

/-- The `last_applied` that a node starts with. -/
def restoredApplied (st : σ) : Option ℕ :=
  (Storage.restore st).bind fun old ↦ old.1.lastApplied

theorem start_lastApplied {id : String} {st : σ} {urls : List (String × P)}
    {n : Consensus σ C P} (h : (Consensus.new id st).start urls = some n) :
    n.lastApplied = restoredApplied st := by
  obtain ⟨peers, rfl, -⟩ := Consensus.start_spec h
  simp only [Consensus.new, Consensus.restoreState, restoredApplied]
  cases Storage.restore st <;> rfl

/-- **Commits are emitted in order, and once.**  Over any sequence of messages that a node handles
after it has started, up to a panic, neither the commit index nor the last applied index decreases,
and the entries that it sends have consecutive indices from the one after the restored
`last_applied` on, each with the command that the log has there when it is sent.  The length of a
log is a `usize`. -/
theorem commits_in_order {id : String} {st : σ} {urls : List (String × P)} {n : Consensus σ C P}
    (hs : (Consensus.new id st).start urls = some n) (ops : List (Op C))
    (hla : ∀ la ∈ restoredApplied st, la < usizeMax)
    (hlen : ∀ m ∈ n.states ops, m.logs.length ≤ usizeMax) :
    (n.states ops).Pairwise Onward ∧
    (n.emitted ops).map (fun e ↦ e.1.index) =
      List.range' (((restoredApplied st).map (· + 1)).getD 0) (n.emitted ops).length ∧
    (∀ e ∈ n.emitted ops, e.2[e.1.index]?.map LogEntry.command = some e.1.command) ∧
    ∀ m ∈ n.states ops, ∀ la ∈ m.lastApplied, la < usizeMax := by
  have hstart := start_lastApplied hs
  have hn : n.Applied := by
    rw [Consensus.Applied, hstart]
    exact hla
  obtain ⟨hpair, hall, c, -, hemits⟩ := emitted_spec hn hlen
  have hindex := hemits.index
  rw [nextCommit, hstart] at hindex
  exact ⟨hpair, hindex, hemits.command, fun m hm ↦ (hall m hm).2⟩

end

/-- A node that had applied index `0`. -/
def appliedOne : Consensus (MockStorage ℕ) ℕ ℕ :=
  Consensus.new "a" ⟨⟨1, none, some 0⟩, [⟨7, 1⟩]⟩

/-- It is told that index `1` is committed, and handles `SendCommit` twice. -/
def sendTwice : List (Op ℕ) :=
  [.appendEntries ⟨1, "b", some 0, some 1, [⟨8, 1⟩], some 1⟩, .sendCommit, .sendCommit]

theorem commits_in_order_follower :
    (appliedOne.emitted sendTwice).map (fun e ↦ e.1.index) = List.range' 1 1 ∧
      (appliedOne.emitted sendTwice).map Prod.fst = [⟨8, 1, 1⟩] := by
  have hlength : (appliedOne.emitted sendTwice).length = 1 := by decide +kernel
  have hstart : (Consensus.new "a" (⟨⟨1, none, some 0⟩, [⟨7, 1⟩]⟩ : MockStorage ℕ)).start [] =
      some appliedOne := rfl
  have h := (commits_in_order hstart sendTwice (by decide) (by decide +kernel)).2.1
  rw [hlength] at h
  exact ⟨h, by decide +kernel⟩

end Efis
