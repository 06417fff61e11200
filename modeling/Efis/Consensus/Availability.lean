import Efis.Consensus.Commit
import Efis.Consensus.Recovery
import Efis.Consensus.Stream

/-!
# A majority can commit any command

In a run in which the leaders committed only what a majority had, a majority that is running can
take any command through: it gets a leader (`exists_leads`), which takes the command, gets it
across to all of them and commits it when the last of them has answered, tells them so in another
round, and then each of them emits it (`majority_commits`).

That the new leader does not find anything committed in its way rests on leader completeness: the
log of whoever is up to date with a majority has all that was committed.
-/

set_option autoImplicit false

namespace Efis

open Consensus

open Raft (Majority UpToDate)

variable {n : ℕ} {σ C P : Type}

/-! ## Committing the last entry -/

/-- A leader commits its last entry once it is of its term and enough peers have it. -/
theorem advanceCommit_last {m : Consensus σ C P} {k : ℕ} (hlen : m.logs.length = k + 1)
    (hci : ∀ ci ∈ m.commitIndex, ci ≤ k) (hmay : m.mayCommit k = true) :
    m.advanceCommit = some k := by
  have hle : m.commitIndex.getD 0 ≤ k := by
    cases h : m.commitIndex with
    | none => exact Nat.zero_le k
    | some ci => exact hci ci h
  rw [advanceCommit, hlen, Nat.sub_add_comm hle, List.range'_concat]
  simp only [List.foldl_append, List.foldl_cons, List.foldl_nil]
  rw [if_pos (by simpa [Nat.add_sub_of_le hle] using hmay)]
  simp [Nat.add_sub_of_le hle]

/-- What is committed stays below the end of the log. -/
theorem advanceCommit_lt {m : Consensus σ C P} {k : ℕ} (hlen : m.logs.length = k + 1)
    (hci : ∀ ci ∈ m.commitIndex, ci ≤ k) : ∀ ci ∈ m.advanceCommit, ci ≤ k := by
  rcases m.advanceCommit_cases with h | ⟨j, -, hj, -, h⟩
  · rw [h]
    exact hci
  · rw [h]
    rintro ci ⟨⟩
    omega

/-- A follower that has the whole log follows its leader to the end of it. -/
theorem followCommit_last {L : List (LogEntry C)} {k : ℕ} (hlen : L.length = k + 1)
    {ci : Option ℕ} (hci : ∀ x ∈ ci, x ≤ k) : followCommit L ci (some k) = some k := by
  have hne : L.isEmpty = false := by
    rw [List.isEmpty_eq_false_iff_exists_mem]
    exact ⟨L.head (List.ne_nil_of_length_eq_add_one hlen), List.head_mem _⟩
  rw [followCommit]
  simp only [hne, hlen, Nat.add_sub_cancel, Nat.min_self]
  cases ci with
  | none => rfl
  | some x =>
    have hx := hci x rfl
    simp only [Bool.false_eq_true, if_false]
    split
    · rfl
    · rw [show x = k by omega]

theorem followCommit_le {L : List (LogEntry C)} {k : ℕ} (hlen : L.length = k + 1)
    {ci lc : Option ℕ} (hci : ∀ x ∈ ci, x ≤ k) : ∀ x ∈ followCommit L ci lc, x ≤ k := by
  rcases followCommit_cases L ci lc with h | ⟨j, -, -, -, h⟩
  · rw [h]
    exact hci
  · rw [h]
    rintro x ⟨⟩
    omega

/-- Node `v` emits what is at the end of its log, if it has committed it and not applied it. -/
theorem sendCommits_last {m : Consensus σ C P} {k : ℕ} {e : LogEntry C}
    (hlen : m.logs.length = k + 1) (he : m.logs[k]? = some e) (hci : m.commitIndex = some k)
    (hla : ∀ la ∈ m.lastApplied, la < k) :
    ∃ m' entries, m.sendCommits = some (m', entries) ∧
      ⟨e.command, m.currentTerm, k⟩ ∈ entries := by
  have hstart : commitStart m.lastApplied ≤ k := by
    rw [commitStart]
    cases h : m.lastApplied with
    | none => simp
    | some la =>
      have hlt := hla la h
      simp only [Option.getD_some]
      split <;> omega
  rw [sendCommits, hci]
  dsimp only
  rw [if_pos ⟨hstart, by omega⟩, sliceIncl, if_pos (by omega)]
  refine ⟨_, _, rfl, List.mem_map.mpr ⟨(e, k - commitStart m.lastApplied), ?_, ?_⟩⟩
  · rw [List.mk_mem_zipIdx_iff_getElem?, List.getElem?_drop, Nat.add_sub_of_le hstart,
      List.getElem?_take_of_lt (Nat.lt_succ_self k)]
    exact he
  · simp [Nat.add_sub_of_le hstart]

variable [Storage σ C]

variable {Q : Finset (Fin n)} {c c' : Cluster n σ C} {cfg : Config n σ C} {i : Fin n}

/-! ## What was committed before -/

/-- The abstract protocol goes along with a path. -/
theorem Cluster.Path.sim {g : Fin n → ℕ → Option String} {s : Raft.State (Fin n) (LogEntry C)}
    (h : c.Path Q c') (he : Elect cfg c g) (hs : Sim cfg c g s) :
    ∃ g' s', Elect cfg c' g' ∧ Sim cfg c' g' s' ∧ Raft.Grows s s' := by
  induction h with
  | refl => exact ⟨g, s, he, hs, .rfl⟩
  | tail _ hturn ih =>
    obtain ⟨g₁, s₁, he₁, hs₁, hg₁⟩ := ih
    obtain ⟨l, hl, -, hstep⟩ := hturn
    obtain ⟨s₂, hsteps, hs₂⟩ := hs₁.step he₁ hl hstep
    exact ⟨_, s₂, (he₁.step hl.keeps hstep).elect, hs₂, hg₁.trans (hsteps.inv_grows hs₁.inv).2⟩

/-- What a node had committed is in the log of a leader of a term that is not earlier. -/
theorem Commits.lt_length {g g' : Fin n → ℕ → Option String}
    {s s' : Raft.State (Fin n) (LogEntry C)} (h : Commits c s) (hs : Sim cfg c g s)
    (hs' : Sim cfg c' g' s') (hg : Raft.Grows s s') (hl : (c'.nodes i).state = .leader)
    {v : Fin n} (ht : (c.nodes v).currentTerm ≤ (c'.nodes i).currentTerm) {ci : ℕ}
    (hci : (c.nodes v).commitIndex = some ci) : ci < (c'.nodes i).logs.length := by
  obtain ⟨hlt, u, k, hconf, hu, hpre⟩ := h.node v ci hci
  have hconf' := hs.inv.confirmed hg hconf
  rw [← take_lead_of_confirmed hs.inv hg hconf] at hpre
  obtain ⟨hbase, hlead, -⟩ := hs'.lead i hl
  obtain ⟨b, hb⟩ := Option.isSome_iff_exists.mp hbase
  have hin : (s'.lead u).take k <+: (c'.nodes i).logs := by
    rw [hlead]
    rcases Nat.lt_or_eq_of_le (hu.trans ht) with hlt | heq
    · exact (hs'.inv.complete hconf' _ b hlt hb).trans (hs'.inv.base_prefix _ b hb)
    · rw [heq]
      exact List.take_prefix _ _
  have hlen := (hpre.trans hin).length_le
  rw [List.length_take] at hlen
  omega

/-- A node has applied nothing that it has not committed. -/
theorem handle_applied {m m' : Consensus σ C P} {op : Op C} (h : m.handle op = some m')
    (hm : NotLess m.lastApplied m.commitIndex) : NotLess m'.lastApplied m'.commitIndex := by
  by_cases hop : op = .sendCommit
  · subst hop
    obtain ⟨⟨m₁, entries⟩, hsend, rfl⟩ := Option.map_eq_some_iff.mp h
    rw [sendCommits] at hsend
    split at hsend
    · obtain ⟨rfl, -⟩ := Prod.mk.inj (Option.some_inj.mp hsend)
      exact hm
    · rename_i ci hci
      dsimp only at hsend
      split at hsend
      · obtain ⟨_, -, hsend⟩ := Option.bind_eq_some_iff.mp hsend
        obtain ⟨rfl, -⟩ := Prod.mk.inj (Option.some_inj.mp hsend)
        rw [hci]
        exact .rfl
      · obtain ⟨rfl, -⟩ := Prod.mk.inj (Option.some_inj.mp hsend)
        exact hm
  · rw [handle_lastApplied h hop]
    exact hm.trans (notLess_commitIndex h)

/-- The nodes have applied nothing that they have not committed. -/
def Cluster.InOrder (c : Cluster n σ C) : Prop :=
  ∀ v, NotLess (c.nodes v).lastApplied (c.nodes v).commitIndex

theorem Cluster.Run.inOrder (hf : cfg.Fresh) {r : List (Cluster n σ C)}
    (h : Cluster.Run cfg (fun _ l ↦ l.Alive) r) : ∀ c ∈ r, c.InOrder := by
  refine h.inv ?_ ?_
  · intro v
    rw [show (cfg.init.nodes v).lastApplied = none from hf.lastApplied v]
    exact fun a ha ↦ absurd ha (by simp)
  · intro c l c' ih hl hs v
    obtain ⟨i, op, -, -, hdoes⟩ := Cluster.step_handle hl hs
    exact hdoes.forall (R := fun m m' ↦ NotLess m.lastApplied m.commitIndex →
      NotLess m'.lastApplied m'.commitIndex) (fun _ h ↦ h) (fun _ h ↦ handle_applied h) v (ih v)

/-! ## The rounds of a leader -/

/-- A leader that takes a command is still ahead of the others. -/
theorem Drives.submit (hf : cfg.Fresh) {t : ℕ} {L : List (LogEntry C)} (h : Drives cfg Q c i t L)
    (cmd : C) : Drives cfg Q (c.submit i cmd) i t (L ++ [⟨cmd, t⟩]) := by
  have hnode : (c.submit i cmd).nodes i = (c.nodes i).submit cmd := by
    rw [Cluster.submit, onSubmit, if_pos h.leads, Cluster.set_self]
  have hother : ∀ v, v ≠ i → (c.submit i cmd).nodes v = c.nodes v := fun v hv ↦
    Cluster.set_of_ne _ _ hv
  obtain ⟨r, hr⟩ := h.run
  obtain ⟨g, s, hsim, -⟩ := hr.sim hf
  replace hsim := (hsim c rfl).2
  have hlogs : ((c.submit i cmd).nodes i).logs = L ++ [⟨cmd, t⟩] := by
    rw [hnode, ← h.logs, ← h.term]
    rfl
  have hterm : ((c.submit i cmd).nodes i).currentTerm = t := by
    rw [hnode]
    exact h.term
  have hall : ∀ v ∈ Q, ((c.submit i cmd).nodes v).state ≠ .dead ∧
      ((c.submit i cmd).nodes v).currentTerm ≤ t ∧
      UpToDate LogEntry.term (L ++ [⟨cmd, t⟩]) ((c.submit i cmd).nodes v).logs := by
    intro v hv
    by_cases hvi : v = i
    · rw [hvi, hlogs, hterm, hnode]
      exact ⟨h.live i h.mem, le_rfl, .refl _ _⟩
    · rw [hother v hvi]
      refine ⟨h.live v hv, h.terms v hv, ?_⟩
      have hlast : Raft.lastTerm LogEntry.term (L ++ [⟨cmd, t⟩]) = t := by simp [Raft.lastTerm]
      have hle : Raft.lastTerm LogEntry.term (c.nodes v).logs ≤ t := by
        cases hv' : (c.nodes v).logs.getLast? with
        | none => simp [Raft.lastTerm, hv']
        | some e =>
          have he := hsim.inv.log_term v e (hsim.log v ▸ List.mem_of_getLast? hv')
          rw [hsim.term v] at he
          simpa [Raft.lastTerm, hv'] using he.trans (h.terms v hv)
      have hLle : Raft.lastTerm LogEntry.term L ≤ t := by
        cases hL : L.getLast? with
        | none => simp [Raft.lastTerm, hL]
        | some e =>
          have he := hsim.inv.log_term i e (hsim.log i ▸ h.logs ▸ List.mem_of_getLast? hL)
          rw [hsim.term i, h.term] at he
          simpa [Raft.lastTerm, hL] using he
      rw [UpToDate, hlast, List.length_append, List.length_singleton]
      rcases h.upToDate v hv with hlt | ⟨-, hlen⟩
      · exact Or.inl (hlt.trans_le hLle)
      · rcases Nat.lt_or_eq_of_le hle with hlt | heq
        · exact Or.inl hlt
        · exact Or.inr ⟨heq, by omega⟩
  obtain ⟨r', hr', -⟩ := (turn_submit h.mem (h.running i h.mem) cmd).path.run hr
  exact {
    mem := h.mem
    leads := by rw [hnode]; exact h.leads
    term := hterm
    running := h.running
    live := fun v hv ↦ (hall v hv).1
    terms := fun v hv ↦ (hall v hv).2.1
    run := ⟨r', hr'⟩
    logs := hlogs
    upToDate := fun v hv ↦ (hall v hv).2.2 }

omit [Storage σ C] in
/-- If a leader has all of a majority on record with its last entry, that is enough. -/
theorem lt_matchCount {m : Consensus σ C (Fin n)} {k : ℕ} (hlen : m.peers.length + 1 = n)
    (hQ : Majority Q) (hi : i ∈ Q)
    (hall : ∀ v ∈ Q, v ≠ i → ∃ p ∈ m.peers, p.2 = v ∧ m.matchIndex p.1 = some k) :
    m.peers.length + 1 < m.matchCount k * 2 := by
  let q : ℕ × Fin n → Bool := fun p ↦ decide (k ≤ (m.matchIndex p.1).getD 0)
  have hsub : Q.erase i ⊆ ((m.peers.filter q).map Prod.snd).toFinset := by
    intro v hv
    obtain ⟨hne, hv⟩ := Finset.mem_erase.mp hv
    obtain ⟨p, hp, rfl, hmat⟩ := hall v hv hne
    refine List.mem_toFinset.mpr (List.mem_map_of_mem (List.mem_filter.mpr ⟨hp, ?_⟩))
    simp [q, hmat]
  have hcard := (Finset.card_le_card hsub).trans (List.toFinset_card_le _)
  rw [Finset.card_erase_of_mem hi, List.length_map, ← List.countP_eq_length_filter] at hcard
  have hmaj : n < 2 * Q.card := by simpa [Majority] using hQ
  change _ < (1 + m.peers.countP q) * 2
  omega

/-- The nodes of `Q` have committed nothing after index `k`, and applied what they had in `c`. -/
structure Upholds (Q : Finset (Fin n)) (c d : Cluster n σ C) (k : ℕ) : Prop where
  commitIndex : ∀ v ∈ Q, ∀ ci ∈ (d.nodes v).commitIndex, ci ≤ k
  lastApplied : ∀ v ∈ Q, (d.nodes v).lastApplied = (c.nodes v).lastApplied

section

variable {d d' : Cluster n σ C} {t k : ℕ} {L : List (LogEntry C)} {p : ℕ × Fin n}

theorem Upholds.catches (h : Upholds Q c d k) (hD : Drives cfg Q d i t L)
    (hlen : L.length = k + 1) (hp : p.2 ∈ Q) (hcatch : Catches d d' i p L) :
    Upholds Q c d' k := by
  obtain ⟨next, hi⟩ := hcatch.leader
  have hall : ∀ v ∈ Q, (∀ ci ∈ (d'.nodes v).commitIndex, ci ≤ k) ∧
      (d'.nodes v).lastApplied = (d.nodes v).lastApplied := by
    intro v hv
    by_cases hvi : v = i
    · rw [hvi, hi]
      exact ⟨advanceCommit_lt (hD.logs ▸ hlen) (h.commitIndex i hD.mem), rfl⟩
    · by_cases hvp : v = p.2
      · rw [hvp, hcatch.commitIndex]
        exact ⟨followCommit_le hlen (h.commitIndex _ hp), hcatch.lastApplied⟩
      · rw [hcatch.others v hvi hvp]
        exact ⟨h.commitIndex v hv, rfl⟩
  exact ⟨fun v hv ↦ (hall v hv).1, fun v hv ↦ (hall v hv).2.trans (h.lastApplied v hv)⟩

/-- The leader has some of its peers on record with the last entry, which it has committed if they
are all of the others of `Q`. -/
structure Collects (Q : Finset (Fin n)) (c : Cluster n σ C) (i : Fin n) (k : ℕ)
    (dn : List (ℕ × Fin n)) (d : Cluster n σ C) : Prop where
  upholds : Upholds Q c d k
  matched : ∀ p ∈ dn, p ∈ (d.nodes i).peers ∧ (d.nodes i).matchIndex p.1 = some k
  committed : dn ≠ [] → (∀ v ∈ Q, v ≠ i → ∃ p ∈ dn, p.2 = v) →
    (d.nodes i).commitIndex = some k

theorem Collects.catches {dn : List (ℕ × Fin n)} (h : Collects Q c i k dn d) (hQ : Majority Q)
    (hD : Drives cfg Q d i t L) (hlen : L.length = k + 1)
    (hlast : L[k]?.map LogEntry.term = some t) (hp : p ∈ (d.nodes i).peers) (hpQ : p.2 ∈ Q)
    (hcatch : Catches d d' i p L) : Collects Q c i k (p :: dn) d' := by
  obtain ⟨next, hi⟩ := hcatch.leader
  have hk : L.length - 1 = k := by omega
  have hmatched : ∀ q ∈ p :: dn, q ∈ (d'.nodes i).peers ∧
      (d'.nodes i).matchIndex q.1 = some k := by
    intro q hq
    rw [hi, hk]
    simp only
    by_cases hqp : q.1 = p.1
    · rw [hqp, Function.update_self]
      rcases List.mem_cons.mp hq with rfl | hq
      · exact ⟨hp, rfl⟩
      · exact ⟨(h.matched q hq).1, rfl⟩
    · rw [Function.update_of_ne hqp]
      exact h.matched q ((List.mem_cons.mp hq).resolve_left fun h ↦ hqp (congrArg _ h))
  refine ⟨h.upholds.catches hD hlen hpQ hcatch, hmatched, fun _ hall ↦ ?_⟩
  obtain ⟨r, hr⟩ := hD.run
  obtain ⟨g, helect, -⟩ := Cluster.Run.elect (hr.imp fun _ _ _ _ hl ↦ hl.keeps)
  rw [hi]
  refine advanceCommit_last (hD.logs ▸ hlen) (h.upholds.commitIndex i hD.mem) ?_
  rw [mayCommit, Bool.and_eq_true, decide_eq_true_eq, decide_eq_true_eq]
  refine ⟨?_, lt_matchCount ((helect d rfl).peers_length i) hQ hD.mem fun v hv hne ↦ ?_⟩
  · change (d.nodes i).logs[k]?.map LogEntry.term = some (d.nodes i).currentTerm
    rw [hD.logs, hD.term, hlast]
  · obtain ⟨q, hq, rfl⟩ := hall v hv hne
    obtain ⟨hmem, hmat⟩ := hmatched q hq
    rw [hi] at hmem hmat
    exact ⟨q, hmem, rfl, hmat⟩

/-- The leader has committed its last entry, and some of its peers have followed. -/
structure Spreads (Q : Finset (Fin n)) (c : Cluster n σ C) (i : Fin n) (t k : ℕ)
    (L : List (LogEntry C)) (dn : List (ℕ × Fin n)) (d : Cluster n σ C) : Prop where
  upholds : Upholds Q c d k
  committed : (d.nodes i).commitIndex = some k
  followed : ∀ p ∈ dn, p.2 ≠ i ∧ (d.nodes p.2).commitIndex = some k ∧
    (d.nodes p.2).logs = L ∧ (d.nodes p.2).currentTerm = t

theorem Spreads.catches {dn : List (ℕ × Fin n)} (h : Spreads Q c i t k L dn d)
    (hD : Drives cfg Q d i t L) (hlen : L.length = k + 1) (hpQ : p.2 ∈ Q) (hne : p.2 ≠ i)
    (hcatch : Catches d d' i p L) : Spreads Q c i t k L (p :: dn) d' := by
  refine ⟨h.upholds.catches hD hlen hpQ hcatch, ?_, fun q hq ↦ ?_⟩
  · obtain ⟨next, hi⟩ := hcatch.leader
    obtain ⟨x, hx, hle⟩ := notLess_advanceCommit ({ d.nodes i with
      nextIndex := next
      matchIndex := Function.update (d.nodes i).matchIndex p.1 (some (L.length - 1)) } :
        Consensus σ C (Fin n)) k h.committed
    have hub := (h.upholds.catches hD hlen hpQ hcatch).commitIndex i hD.mem
    rw [hi] at hub ⊢
    obtain rfl := Nat.le_antisymm (hub x hx) hle
    exact hx
  · by_cases hqp : q.2 = p.2
    · rw [hqp]
      refine ⟨hne, ?_, hcatch.logs, hcatch.term.trans hD.term⟩
      rw [hcatch.commitIndex, h.committed]
      exact followCommit_last hlen (h.upholds.commitIndex _ hpQ)
    · have hq := h.followed q ((List.mem_cons.mp hq).resolve_left fun h ↦ hqp (congrArg _ h))
      rw [hcatch.others q.2 hq.1 hqp]
      exact hq

end

/-! ## Emission -/

theorem Cluster.Turn.trace (h : Cluster.Turn Q c c') : c.trace <+: c'.trace := by
  obtain ⟨l, -, -, hs⟩ := h
  exact Cluster.step_trace hs

theorem Cluster.Path.trace (h : c.Path Q c') : c.trace <+: c'.trace := by
  induction h with
  | refl => exact List.prefix_rfl
  | tail _ hturn ih => exact ih.trans hturn.trace

/-- Each of some nodes emits an entry. -/
theorem exists_emitted (e : CommitEntry C) (vs : List (Fin n)) (hvs : ∀ v ∈ vs, v ∈ Q)
    (hnodup : vs.Nodup) (hrun : ∀ v ∈ Q, c.panicked v = false)
    (hready : ∀ v ∈ vs, ∃ m entries, (c.nodes v).sendCommits = some (m, entries) ∧ e ∈ entries) :
    ∃ c' evs, c.Path Q c' ∧ c'.trace = c.trace ++ evs ∧ ∀ v ∈ vs, .commit v e ∈ evs := by
  induction vs generalizing c with
  | nil => exact ⟨c, [], .refl, by simp, by simp⟩
  | cons v vs ih =>
    obtain ⟨hv, hnodup⟩ := List.nodup_cons.mp hnodup
    obtain ⟨m, entries, hsend, he⟩ := hready v List.mem_cons_self
    have hturn := turn_sendCommit (hvs v List.mem_cons_self) (hrun v (hvs v List.mem_cons_self))
    simp only [Cluster.sendCommit, hsend] at hturn
    obtain ⟨c', evs, hpath, htrace, hevs⟩ := ih
      (c := { c.set v m with trace := c.trace ++ entries.map (Event.commit v) })
      (fun w hw ↦ hvs w (List.mem_cons_of_mem v hw)) hnodup hrun
      (fun w hw ↦ by
        rw [show ({ c.set v m with trace := c.trace ++ entries.map (Event.commit v) } :
          Cluster n σ C).nodes w = c.nodes w from
            Cluster.set_of_ne _ _ (ne_of_mem_of_not_mem hw hv)]
        exact hready w (List.mem_cons_of_mem v hw))
    refine ⟨c', entries.map (Event.commit v) ++ evs, hturn.path.trans hpath,
      by rw [htrace, List.append_assoc], fun w hw ↦ ?_⟩
    rcases List.mem_cons.mp hw with rfl | hw
    · exact List.mem_append_left _ (List.mem_map_of_mem he)
    · exact List.mem_append_right _ (hevs w hw)

/-- **A majority can commit any command.**  From every state of every run without restarts in which
the leaders committed only what a majority had acknowledged, the nodes of a majority that have not
panicked and have terms left can, without a step of the others, have a new command committed: each
of them emits it, under the same index. -/
theorem majority_commits (cfg : Config n σ C) (hf : cfg.Fresh) (hn : 2 ≤ n)
    {r : List (Cluster n σ C)} (h : Cluster.Run cfg (Counted cfg) (c :: r))
    {Q : Finset (Fin n)} (hQ : Majority Q) (hrun : ∀ v ∈ Q, c.panicked v = false)
    (ht : ∀ v ∈ Q, (c.nodes v).currentTerm < usizeMax) (cmd : C) :
    ∃ c' t k evs, c.Path Q c' ∧ c'.trace = c.trace ++ evs ∧
      ∀ v ∈ Q, .commit v ⟨cmd, t, k⟩ ∈ evs := by
  have halive : Cluster.Run cfg (fun _ l ↦ l.Alive) (c :: r) := h.imp fun _ _ _ _ hl ↦ hl.alive
  obtain ⟨g, s, helect, hsim, hcommits⟩ :=
    (h.imp fun _ _ _ _ hok ↦ hok.warranted).commits hf c List.mem_cons_self
  -- a leader, in whose log everything is that was committed
  obtain ⟨c₁, i, t, hpath₁, hD₁, hterms, hret⟩ := exists_leads hf hn halive hQ hrun ht
  obtain ⟨g₁, s₁, -, hsim₁, hgrows⟩ := hpath₁.sim helect hsim
  set L := (c.nodes i).logs with hL
  have hci : ∀ v ∈ Q, ∀ ci ∈ (c.nodes v).commitIndex, ci < L.length := fun v hv ci hci ↦
    hD₁.logs ▸ hcommits.lt_length hsim hsim₁ hgrows hD₁.leads (hD₁.term ▸ hterms v hv) hci
  have hla : ∀ v ∈ Q, ∀ la ∈ (c.nodes v).lastApplied, la < L.length := by
    intro v hv la hla
    obtain ⟨ci, hmem, hle⟩ := halive.inOrder hf c List.mem_cons_self v la hla
    exact hle.trans_lt (hci v hv ci hmem)
  -- it takes the command
  let L' : List (LogEntry C) := L ++ [⟨cmd, t⟩]
  have hlen : L'.length = L.length + 1 := List.length_append
  have hlast : L'[L.length]? = some ⟨cmd, t⟩ := List.getElem?_concat_length
  have hD₂ := hD₁.submit hf cmd
  have hret₂ : ∀ v, ((c₁.submit i cmd).nodes v).commitIndex = (c.nodes v).commitIndex ∧
      ((c₁.submit i cmd).nodes v).lastApplied = (c.nodes v).lastApplied := by
    intro v
    by_cases hv : v = i
    · rw [hv, Cluster.submit, onSubmit, if_pos hD₁.leads, Cluster.set_self]
      exact ⟨(hret i).commitIndex, (hret i).lastApplied⟩
    · rw [show (c₁.submit i cmd).nodes v = c₁.nodes v from Cluster.set_of_ne _ _ hv]
      exact ⟨(hret v).commitIndex, (hret v).lastApplied⟩
  have hup₂ : Upholds Q c (c₁.submit i cmd) L.length :=
    ⟨fun v hv ci h ↦ (hci v hv ci ((hret₂ v).1 ▸ h)).le, fun v _ ↦ (hret₂ v).2⟩
  obtain ⟨hps, hall⟩ := hD₂.mem_partners
  set ps := (c₁.submit i cmd).partners Q i with hpsdef
  -- it gets the command across, and commits it
  obtain ⟨c₃, hpath₃, hD₃, hpeers₃, hcol⟩ := exists_round hf ps
    (I := Collects Q c i L.length)
    (fun d d' p dn hd hp hpQ _ hI hcatch ↦
      hI.catches hQ hd hlen (by rw [hlast]; rfl) hp hpQ hcatch)
    _ [] hD₂ hps ⟨hup₂, by simp, by simp⟩
  obtain ⟨w, hw, hwi⟩ : ∃ w ∈ Q, w ≠ i := by
    have hcard : 1 < Q.card := by
      have hmaj : n < 2 * Q.card := by simpa [Majority] using hQ
      omega
    exact Finset.exists_mem_ne hcard i
  have hcommitted : (c₃.nodes i).commitIndex = some L.length := by
    refine hcol.committed ?_ fun v hv hne ↦ ?_
    · obtain ⟨p, hp, -⟩ := hall w hw hwi
      simpa using List.ne_nil_of_mem hp
    · obtain ⟨p, hp, rfl⟩ := hall v hv hne
      exact ⟨p, by simpa using hp, rfl⟩
  -- it tells the others
  obtain ⟨c₄, hpath₄, hD₄, -, hspread⟩ := exists_round hf ps
    (I := Spreads Q c i t L.length L')
    (fun d d' p dn hd _ hpQ hne hI hcatch ↦ hI.catches hd hlen hpQ hne hcatch)
    c₃ [] hD₃ (fun p hp ↦ hpeers₃ ▸ hps p hp) ⟨hcol.upholds, hcommitted, by simp⟩
  have hready : ∀ v ∈ Q, (c₄.nodes v).commitIndex = some L.length ∧ (c₄.nodes v).logs = L' ∧
      (c₄.nodes v).currentTerm = t := by
    intro v hv
    by_cases hvi : v = i
    · rw [hvi]
      exact ⟨hspread.committed, hD₄.logs, hD₄.term⟩
    · obtain ⟨p, hp, rfl⟩ := hall v hv hvi
      exact (hspread.followed p (by simpa using hp)).2
  -- and all of them emit it
  obtain ⟨c₅, evs, hpath₅, htrace, hevs⟩ := exists_emitted ⟨cmd, t, L.length⟩
    Q.toList (fun v hv ↦ Finset.mem_toList.mp hv) Q.nodup_toList hD₄.running
    (fun v hv ↦ by
      obtain ⟨hci₄, hlogs₄, hterm₄⟩ := hready v (Finset.mem_toList.mp hv)
      obtain ⟨m, entries, hsend, he⟩ := sendCommits_last (hlogs₄ ▸ hlen) (hlogs₄ ▸ hlast) hci₄
        (hspread.upholds.lastApplied v (Finset.mem_toList.mp hv) ▸ hla v (Finset.mem_toList.mp hv))
      rw [hterm₄] at he
      exact ⟨m, entries, hsend, he⟩)
  have hpath : c.Path Q c₄ := ((hpath₁.trans
    (turn_submit hD₁.mem (hD₁.running i hD₁.mem) cmd).path).trans hpath₃).trans hpath₄
  obtain ⟨evs₀, hevs₀⟩ := hpath.trace
  refine ⟨c₅, t, L.length, evs₀ ++ evs, hpath.trans hpath₅, ?_, fun v hv ↦ ?_⟩
  · rw [htrace, ← hevs₀, List.append_assoc]
  · exact List.mem_append_right _ (hevs v (Finset.mem_toList.mpr hv))

/-- Node `0` has committed a command together with node `1`, and is not heard of again. -/
theorem majority_commits_trio :
    let c := trioEnd (Counted trio) [.startElection 0 true, .voteReq 0, .voteReply 0, .submit 0 7,
      .sendAes 0, .appendReq 0, .appendReply 0, .sendCommit 0]
    .commit 0 ⟨7, 1, 0⟩ ∈ c.trace ∧ ∃ c' t k evs, c.Path {1, 2} c' ∧ c'.trace = c.trace ++ evs ∧
      ∀ v ∈ ({1, 2} : Finset (Fin 3)), .commit v ⟨8, t, k⟩ ∈ evs :=
  ⟨by decide, majority_commits trio trio_fresh (by decide) (run_trioRun _ _ (by decide))
    (by decide) (by decide) (by decide) 8⟩

end Efis
