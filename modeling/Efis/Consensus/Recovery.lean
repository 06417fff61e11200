import Efis.Consensus.Campaign
import Efis.Consensus.Emission
import Efis.Consensus.Records
import Mathlib.Data.Finset.Max
import Mathlib.Data.Prod.Lex

/-!
# A majority can always go on

Whatever has happened in a cluster without restarts, whichever messages were lost, and even if the
other nodes never take another step: as long as the nodes of a majority are running, they can come
together again.

The one with the most up-to-date log is made a follower if it leads and is behind, and wins an
election (`exists_leads`).  It then asks each of the others to append, and goes back in its log
with every refusal, which comes to an end, until the other one has the same log
(`exists_replicated`).  Nothing of this needs the records that a leader has of its peers to be
right: two peers may be filed under one number, and the next index may be anything.
-/

set_option autoImplicit false

namespace Efis

open Consensus

open Raft (Majority Matching UpToDate merge)

variable {n : ℕ} {σ C P : Type} [Storage σ C]

/-! ## A request and its reply -/

/-- The index from which a leader sends its log to the peers with the given number. -/
def Consensus.sendsFrom (m : Consensus σ C P) (peerId : ℕ) : ℕ :=
  min ((m.nextIndex peerId).getD m.logs.length) m.logs.length

omit [Storage σ C] in
theorem leaderAe_eq {m c : Consensus σ C P} {p : ℕ × P} {call : AppendCall C P}
    (h : m.leaderAe p = some (c, call)) :
    c = { m with nextIndex := Function.update m.nextIndex p.1 (some (m.sendsFrom p.1)) } ∧
      call.client = p.2 ∧ call.peerId = p.1 ∧ call.ni = m.sendsFrom p.1 := by
  simp only [leaderAe, Option.bind_eq_bind, Option.bind_eq_some_iff] at h
  obtain ⟨t, -, es, -, h⟩ := h
  obtain ⟨rfl, rfl⟩ := Prod.mk.inj (Option.some_inj.mp h)
  exact ⟨rfl, rfl, rfl, rfl⟩

omit [Storage σ C] in
/-- Sending a request to one peer does not change what is sent to the next one, even if they have
the same number. -/
theorem sendsFrom_update (m : Consensus σ C P) (p : ℕ × P) (k : ℕ) :
    ({ m with nextIndex := Function.update m.nextIndex p.1 (some (m.sendsFrom p.1)) } :
      Consensus σ C P).sendsFrom k = m.sendsFrom k := by
  by_cases hk : k = p.1
  · subst hk
    simp [sendsFrom]
  · simp [sendsFrom, Function.update_of_ne hk]

omit [Storage σ C] in
/-- A leader sends a request to every peer. -/
theorem leaderAes_mem {m c : Consensus σ C P} {ps : List (ℕ × P)} {calls : List (AppendCall C P)}
    (h : m.leaderAes ps = some (c, calls)) {p : ℕ × P} (hp : p ∈ ps) :
    ∃ call ∈ calls, call.client = p.2 ∧ call.peerId = p.1 ∧ call.ni = m.sendsFrom p.1 := by
  induction ps generalizing m calls with
  | nil => exact absurd hp List.not_mem_nil
  | cons q ps ih =>
    simp only [leaderAes, Option.bind_eq_bind, Option.bind_eq_some_iff] at h
    obtain ⟨⟨m₁, call⟩, hm₁, ⟨m₂, calls'⟩, hrest, h⟩ := h
    obtain ⟨rfl, rfl⟩ := Prod.mk.inj (Option.some_inj.mp h)
    obtain ⟨rfl, hcall⟩ := leaderAe_eq hm₁
    rcases List.mem_cons.mp hp with rfl | hp
    · exact ⟨call, List.mem_cons_self, hcall⟩
    · obtain ⟨call', hmem, hcall'⟩ := ih hrest hp
      rw [sendsFrom_update] at hcall'
      exact ⟨call', List.mem_cons_of_mem _ hmem, hcall'⟩

variable {Q : Finset (Fin n)} {c c' : Cluster n σ C} {cfg : Config n σ C} {i w : Fin n}

/-- Node `i`, which leads, has sent a request, node `w` has handled it, and `i` has read the
reply. -/
structure Exchange (c c' : Cluster n σ C) (i w : Fin n) (call : AppendCall C (Fin n))
    (reply : AppendEntriesReply) : Prop where
  panicked : c'.panicked = c.panicked
  others : ∀ v, v ≠ i → v ≠ w → c'.nodes v = c.nodes v
  suffix : Suffix (c.nodes i).logs call.ni call.req
  term : call.req.term = (c.nodes i).currentTerm
  leaderCommit : call.req.leaderCommit = (c.nodes i).commitIndex
  asked : (c.nodes w).appendEntries call.req = (c'.nodes w, .ok reply)
  answered : ∃ next, ({ c.nodes i with nextIndex := next } : Consensus σ C (Fin n)).handleAeRes
    call.peerId call.ni reply = some (c'.nodes i)

theorem appendEntries_answers (m : Consensus σ C P) (req : AppendEntries C)
    (hd : m.state ≠ .dead) : ∃ reply, (m.appendEntries req).2 = .ok reply := by
  rcases m.appendEntries_cases req with h | ⟨_, reply, h, -⟩ | ⟨_, h, -⟩
  · rw [appendEntries, if_neg hd] at h
    simp only at h
    split at h
    · simp at h
    · split at h <;> simp at h
  · exact ⟨reply, by rw [h]⟩
  · exact ⟨_, by rw [h]⟩

/-- A request that is answered. -/
theorem Cluster.appendEntries_ok {a : EntriesCall n C} {m : Consensus σ C (Fin n)}
    {reply : AppendEntriesReply}
    (h : (c.nodes a.call.client).appendEntries a.call.req = (m, .ok reply)) :
    (c.appendEntries a).nodes = Function.update c.nodes a.call.client m ∧
      (c.appendEntries a).panicked = c.panicked ∧
      (c.appendEntries a).appendReplies = c.appendReplies ++ [⟨a, reply⟩] := by
  simp only [Cluster.appendEntries, h]
  exact ⟨rfl, rfl, trivial⟩

/-- A leader sends a request to a peer, and reads the reply. -/
theorem exists_exchange (hi : i ∈ Q) (hl : (c.nodes i).state = .leader)
    (hrun : ∀ v ∈ Q, c.panicked v = false) {p : ℕ × Fin n} (hp : p ∈ (c.nodes i).peers)
    (hQ : p.2 ∈ Q) (hne : p.2 ≠ i) (hd : (c.nodes p.2).state ≠ .dead) :
    ∃ c' call reply, c.Path Q c' ∧ Exchange c c' i p.2 call reply ∧ call.peerId = p.1 ∧
      call.ni = (c.nodes i).sendsFrom p.1 := by
  obtain ⟨⟨m, calls⟩, hm⟩ := Option.isSome_iff_exists.mp (sendLeaderAes_isSome (c.nodes i))
  obtain ⟨next, hnext⟩ := (c.nodes i).sendLeaderAes_node hm
  have hsent : (c.nodes i).leaderAes (c.nodes i).peers = some (m, calls) := by
    rw [← hm, sendLeaderAes, if_pos hl]
  obtain ⟨call, hcall, hclient, hpeer, hni⟩ := leaderAes_mem hsent hp
  obtain ⟨-, -, hspec⟩ := (c.nodes i).sendLeaderAes_spec hm
  obtain ⟨-, hsuf, hterm, -, hcommit⟩ := hspec call hcall
  -- the request is under way
  let c₁ : Cluster n σ C :=
    { c.set i m with appendReqs := c.appendReqs ++ calls.map fun a ↦ ⟨i, a⟩ }
  have hturn₁ : Cluster.Turn Q c c₁ := by
    have h := turn_sendAes hi (hrun i hi)
    rw [Cluster.sendAes, hm] at h
    exact h
  have hmem : (⟨i, call⟩ : EntriesCall n C) ∈ c₁.appendReqs :=
    List.mem_append_right _ (List.mem_map.mpr ⟨call, hcall, rfl⟩)
  obtain ⟨k, hk⟩ := List.getElem?_of_mem hmem
  have hw₁ : c₁.nodes call.client = c.nodes p.2 := by
    rw [hclient]
    exact Cluster.set_of_ne _ _ hne
  -- the other node handles it
  obtain ⟨reply, hreply⟩ := appendEntries_answers (c.nodes p.2) call.req hd
  let w' := ((c.nodes p.2).appendEntries call.req).1
  have hasked : (c.nodes p.2).appendEntries call.req = (w', .ok reply) := Prod.ext rfl hreply
  have hturn₂ := turn_appendReq hk (hclient ▸ hQ) (hclient ▸ hrun _ hQ)
  obtain ⟨hnodes₂, hpan₂, hreplies₂⟩ := Cluster.appendEntries_ok
    (c := { c₁ with appendReqs := c₁.appendReqs.eraseIdx k }) (a := ⟨i, call⟩)
    (show (c₁.nodes call.client).appendEntries call.req = _ from hw₁ ▸ hasked)
  revert hturn₂ hnodes₂ hpan₂ hreplies₂
  generalize ({ c₁ with appendReqs := c₁.appendReqs.eraseIdx k } : Cluster n σ C).appendEntries
    ⟨i, call⟩ = c₂
  intro hturn₂ hnodes₂ hpan₂ hreplies₂
  replace hnodes₂ : c₂.nodes = Function.update c₁.nodes p.2 w' := hclient ▸ hnodes₂
  -- and its reply is the last one
  have hlast : c₂.appendReplies[c₁.appendReplies.length]? = some ⟨⟨i, call⟩, reply⟩ := by
    rw [hreplies₂]
    exact List.getElem?_concat_length
  have hi₂ : c₂.nodes i = { c.nodes i with nextIndex := next } := by
    rw [hnodes₂, Function.update_of_ne (Ne.symm hne), ← hnext]
    exact Cluster.set_self ..
  have hsome : (({ c.nodes i with nextIndex := next } : Consensus σ C (Fin n)).handleAeRes
      call.peerId call.ni reply).isSome = true := handleAeRes_isSome hsuf.le
  obtain ⟨m', hm'⟩ := Option.isSome_iff_exists.mp hsome
  have hturn₃ := turn_appendReply hlast hi (hpan₂ ▸ hrun i hi)
  have hread : (c₂.nodes i).handleAeRes call.peerId call.ni reply = some m' := hi₂ ▸ hm'
  simp only [Cluster.aeRes, hread] at hturn₃
  refine ⟨_, call, reply, (hturn₁.path.trans hturn₂.path).trans hturn₃.path, ?_, hpeer, hni⟩
  constructor
  case panicked => exact hpan₂
  case others =>
    intro v hv hvw
    rw [Cluster.set_of_ne _ _ hv]
    change c₂.nodes v = _
    rw [hnodes₂, Function.update_of_ne hvw]
    exact Cluster.set_of_ne _ _ hv
  case suffix => exact hsuf
  case term => exact hterm
  case leaderCommit => exact hcommit
  case asked =>
    rw [Cluster.set_of_ne _ _ hne]
    change _ = (c₂.nodes p.2, _)
    rw [hnodes₂, Function.update_self]
    exact hasked
  case answered => exact ⟨next, by rw [hm', Cluster.set_self]⟩

/-! ## Catching up -/

/-- A live node that is asked to append in a term that is not over joins it. -/
theorem appendEntries_joins (m : Consensus σ C P) (req : AppendEntries C) (hd : m.state ≠ .dead)
    (ht : m.currentTerm ≤ req.term) :
    (m.appendEntries req).1.state ≠ .dead ∧ (m.appendEntries req).1.currentTerm = req.term := by
  have hterm : (m.stepDown req.term).currentTerm = req.term := by
    rw [stepDown_currentTerm]
    omega
  have hstate : (m.stepDown req.term).state ≠ .dead := by
    rw [stepDown]
    split
    · simp [becomeFollower]
    · exact hd
  obtain ⟨reply, hreply⟩ := appendEntries_answers m req hd
  rcases m.appendEntries_cases req with h | ⟨m', _, h, -, hs, -⟩ | ⟨m', h, -, -, hs, -⟩
  · rw [h] at hreply
    cases hreply
  · rw [h]
    exact ⟨hs.state ▸ hstate, hs.currentTerm.trans hterm⟩
  · rw [h]
    exact ⟨hs.state ▸ hstate, hs.currentTerm.trans hterm⟩

/-- A leader goes back when a request of its term was refused. -/
theorem handleAeRes_of_refused {m : Consensus σ C P} {peerId ni : ℕ} {reply : AppendEntriesReply}
    (hl : m.state = .leader) (ht : m.currentTerm = reply.term) (hs : reply.success = false)
    (hni : ni ≤ m.logs.length) :
    m.handleAeRes peerId ni reply = some { m with
      nextIndex := Function.update m.nextIndex peerId (some (m.backtrack reply)) } := by
  rw [handleAeRes, if_neg (by omega), sliceFrom, if_pos hni]
  simp [hl, ht, hs]

/-- Node `i` leads term `t` with the log `L`, and is ahead of the others of `Q`. -/
structure Drives (cfg : Config n σ C) (Q : Finset (Fin n)) (c : Cluster n σ C) (i : Fin n) (t : ℕ)
    (L : List (LogEntry C)) : Prop extends Leads Q c i t where
  run : ∃ r, Cluster.Run cfg (fun _ l ↦ l.Alive) (c :: r)
  logs : (c.nodes i).logs = L
  upToDate : ∀ v ∈ Q, UpToDate LogEntry.term L (c.nodes v).logs

/-- The peer `p` of node `i` has got the log `L` from it. -/
structure Catches (c c' : Cluster n σ C) (i : Fin n) (p : ℕ × Fin n) (L : List (LogEntry C)) :
    Prop where
  panicked : c'.panicked = c.panicked
  others : ∀ v, v ≠ i → v ≠ p.2 → c'.nodes v = c.nodes v
  logs : (c'.nodes p.2).logs = L
  term : (c'.nodes p.2).currentTerm = (c.nodes i).currentTerm
  commitIndex : (c'.nodes p.2).commitIndex =
    followCommit L (c.nodes p.2).commitIndex (c.nodes i).commitIndex
  lastApplied : (c'.nodes p.2).lastApplied = (c.nodes p.2).lastApplied
  leader : ∃ next, c'.nodes i =
    let m : Consensus σ C (Fin n) := { c.nodes i with
      nextIndex := next
      matchIndex := Function.update (c.nodes i).matchIndex p.1 (some (L.length - 1)) }
    { m with commitIndex := m.advanceCommit }

/-- The reply in an exchange of a leader with a node that is not ahead of it. -/
theorem Exchange.cases {t : ℕ} {L : List (LogEntry C)} {call : AppendCall C (Fin n)}
    {reply : AppendEntriesReply} {s : Raft.State (Fin n) (LogEntry C)}
    {g : Fin n → ℕ → Option String} (h : Exchange c c' i w call reply) (hD : Drives cfg Q c i t L)
    (hsim : Sim cfg c g s) (hw : w ∈ Q) :
    (Catches c c' i (call.peerId, w) L) ∨
    (∃ next, c'.nodes i = { c.nodes i with nextIndex := next } ∧
      (c'.nodes i).sendsFrom call.peerId < call.ni ∧ Retains (c.nodes w) (c'.nodes w)) := by
  obtain ⟨next, hans⟩ := h.answered
  have hd := hD.live w hw
  have hterm : call.req.term = t := h.term.trans hD.term
  have ht : (c.nodes w).currentTerm ≤ call.req.term := hterm ▸ hD.terms w hw
  have hw' : ((c.nodes w).appendEntries call.req).1 = c'.nodes w := by rw [h.asked]
  have hreply : ((c.nodes w).appendEntries call.req).2 = .ok reply := by rw [h.asked]
  have hroot : ∀ v, Raft.Rooted LogEntry.term s (c.nodes v).logs := fun v ↦
    hsim.log v ▸ hsim.inv.log_rooted v
  have hL : (c.nodes i).logs = L := hD.logs
  have happ : (c'.nodes w).lastApplied = (c.nodes w).lastApplied :=
    hw' ▸ appendEntries_lastApplied _ _
  rcases appendEntries_of_le (c.nodes w) hd ht with ⟨hp, hok, -⟩ | ⟨hp, hok, hlog, hci⟩
  · left
    have hacc : Accepted ((c.nodes w).appendEntries call.req).2 := ⟨_, hok, rfl⟩
    obtain ⟨hlog, hci⟩ := appendEntries_logs hd ht h.suffix ((hroot w).matching (hroot i)) hacc
    have hm : merge (c.nodes w).logs (c.nodes i).logs = L := by
      rw [hL]
      exact hsim.inv.merge_eq (hroot w) (hD.upToDate w hw)
    rw [hok] at hreply
    obtain rfl := Except.ok.inj hreply
    rw [handleAeRes_of_success (by exact hD.leads) (by exact h.term.symm) rfl
      (by exact h.suffix.le)] at hans
    refine ⟨h.panicked, h.others, ?_, ?_, ?_, happ, ?_⟩
    · rw [← hw', hlog, hm]
    · rw [← hw', (appendEntries_joins _ _ hd ht).2, h.term]
    · rw [← hw', hci, hm, h.leaderCommit]
    · refine ⟨Function.update next call.peerId (some (c.nodes i).logs.length), ?_⟩
      rw [← hL]
      exact (Option.some_inj.mp hans).symm
  · right
    rw [hok] at hreply
    obtain rfl := Except.ok.inj hreply
    rw [handleAeRes_of_refused (by exact hD.leads) (by exact h.term.symm) rfl
      (by exact h.suffix.le)] at hans
    refine ⟨_, (Option.some_inj.mp hans).symm, ?_, ⟨?_, ?_, happ⟩⟩
    · have hlt := backtrack_lt (m := c.nodes i) (Refused.of_appendEntries (hroot w) hok rfl rfl)
        (hroot i) h.suffix.prevLogTerm
      rw [h.suffix.insertAt] at hlt
      rw [← Option.some_inj.mp hans, sendsFrom]
      simp only [Function.update_self, Option.getD_some]
      exact (Nat.min_le_left ..).trans_lt hlt
    · rw [← hw', hlog]
    · rw [← hw', hci]

/-- The leader goes on to lead, with the same log, as long as the others do not get ahead of it. -/
theorem Drives.next {t : ℕ} {L : List (LogEntry C)} (h : Drives cfg Q c i t L)
    (hpath : c.Path Q c') (hpan : c'.panicked = c.panicked) {w : Fin n}
    (hothers : ∀ v, v ≠ i → v ≠ w → c'.nodes v = c.nodes v)
    (hleads : (c'.nodes i).state = .leader ∧ (c'.nodes i).currentTerm = t ∧
      (c'.nodes i).logs = L)
    (hw : (c'.nodes w).state ≠ .dead ∧ (c'.nodes w).currentTerm ≤ t ∧
      UpToDate LogEntry.term L (c'.nodes w).logs) : Drives cfg Q c' i t L := by
  have hall : ∀ v ∈ Q, (c'.nodes v).state ≠ .dead ∧ (c'.nodes v).currentTerm ≤ t ∧
      UpToDate LogEntry.term L (c'.nodes v).logs := by
    intro v hv
    by_cases hvi : v = i
    · rw [hvi, hleads.1, hleads.2.1, hleads.2.2]
      exact ⟨by decide, le_rfl, .refl _ _⟩
    · by_cases hvw : v = w
      · exact hvw ▸ hw
      · rw [hothers v hvi hvw]
        exact ⟨h.live v hv, h.terms v hv, h.upToDate v hv⟩
  obtain ⟨r, hr⟩ := h.run
  obtain ⟨r', hr', -⟩ := hpath.run hr
  exact {
    mem := h.mem
    leads := hleads.1
    term := hleads.2.1
    running := hpan ▸ h.running
    live := fun v hv ↦ (hall v hv).1
    terms := fun v hv ↦ (hall v hv).2.1
    run := ⟨r', hr'⟩
    logs := hleads.2.2
    upToDate := fun v hv ↦ (hall v hv).2.2 }

/-- **A leader that is up to date gets its log across**, whatever it believes of its peers.  The
induction is on the index that it sends its log from, which every refusal lowers. -/
theorem exists_replicated (hf : cfg.Fresh) {t : ℕ} {L : List (LogEntry C)}
    (h : Drives cfg Q c i t L) {p : ℕ × Fin n} (hp : p ∈ (c.nodes i).peers) (hQ : p.2 ∈ Q)
    (hne : p.2 ≠ i) : ∃ c', c.Path Q c' ∧ Drives cfg Q c' i t L ∧ Catches c c' i p L := by
  generalize hk : (c.nodes i).sendsFrom p.1 = k
  induction k using Nat.strong_induction_on generalizing c with
  | _ k ih =>
    obtain ⟨r, hr⟩ := h.run
    obtain ⟨g, s, hsim, -⟩ := hr.sim hf
    replace hsim := (hsim c rfl).2
    obtain ⟨c₁, call, reply, hpath, hex, hpeer, hni⟩ :=
      exists_exchange h.mem h.leads h.running hp hQ hne (h.live _ hQ)
    have hjoin := appendEntries_joins (c.nodes p.2) call.req (h.live _ hQ)
      (hex.term.trans h.term ▸ h.terms _ hQ)
    rw [hex.asked, hex.term.trans h.term] at hjoin
    rcases hex.cases h hsim hQ with hcatch | ⟨next, hi, hlt, hret⟩
    · rw [hpeer] at hcatch
      obtain ⟨_, hi⟩ := hcatch.leader
      refine ⟨c₁, hpath, h.next hpath hcatch.panicked hcatch.others ?_ ?_, hcatch⟩
      · rw [hi]
        exact ⟨h.leads, h.term, h.logs⟩
      · exact ⟨hjoin.1, hjoin.2.le, hcatch.logs ▸ .refl _ _⟩
    · have hD : Drives cfg Q c₁ i t L := by
        refine h.next hpath hex.panicked hex.others ?_ ⟨hjoin.1, hjoin.2.le, ?_⟩
        · rw [hi]
          exact ⟨h.leads, h.term, h.logs⟩
        · exact hret.logs ▸ h.upToDate _ hQ
      rw [hpeer, hni, hk] at hlt
      obtain ⟨c₂, hpath₂, hD₂, hcatch⟩ := ih _ hlt hD (by rw [hi]; exact hp) rfl
      refine ⟨c₂, hpath.trans hpath₂, hD₂, ?_⟩
      constructor
      case panicked => exact hcatch.panicked.trans hex.panicked
      case others =>
        exact fun v hv hvw ↦ (hcatch.others v hv hvw).trans (hex.others v hv hvw)
      case logs => exact hcatch.logs
      case term => rw [hcatch.term, hi]
      case commitIndex => rw [hcatch.commitIndex, hret.commitIndex, hi]
      case lastApplied => rw [hcatch.lastApplied, hret.lastApplied]
      case leader =>
        obtain ⟨next', hi₂⟩ := hcatch.leader
        exact ⟨next', by rw [hi₂, hi]⟩

/-- The leader goes through some of its peers.  `I` is what is known of those that are done. -/
theorem exists_round (hf : cfg.Fresh) {t : ℕ} {L : List (LogEntry C)} (ps : List (ℕ × Fin n))
    {I : List (ℕ × Fin n) → Cluster n σ C → Prop}
    (hstep : ∀ d d' p dn, Drives cfg Q d i t L → p ∈ (d.nodes i).peers → p.2 ∈ Q → p.2 ≠ i →
      I dn d → Catches d d' i p L → I (p :: dn) d') :
    ∀ (c : Cluster n σ C) (dn : List (ℕ × Fin n)), Drives cfg Q c i t L →
      (∀ p ∈ ps, p ∈ (c.nodes i).peers ∧ p.2 ∈ Q ∧ p.2 ≠ i) → I dn c →
      ∃ c', c.Path Q c' ∧ Drives cfg Q c' i t L ∧ (c'.nodes i).peers = (c.nodes i).peers ∧
        I (ps.reverse ++ dn) c' := by
  induction ps with
  | nil => exact fun c dn hD _ h0 ↦ ⟨c, .refl, hD, rfl, h0⟩
  | cons p ps ih =>
    intro c dn hD hps h0
    obtain ⟨hp, hQ, hne⟩ := hps p List.mem_cons_self
    obtain ⟨c₁, hpath₁, hD₁, hcatch⟩ := exists_replicated hf hD hp hQ hne
    have hpeers : (c₁.nodes i).peers = (c.nodes i).peers := by
      obtain ⟨_, hi⟩ := hcatch.leader
      rw [hi]
    have hps₁ : ∀ q ∈ ps, q ∈ (c₁.nodes i).peers ∧ q.2 ∈ Q ∧ q.2 ≠ i := fun q hq ↦
      hpeers ▸ hps q (List.mem_cons_of_mem p hq)
    obtain ⟨c₂, hpath₂, hD₂, hpeers₂, hI⟩ := ih c₁ (p :: dn) hD₁ hps₁
      (hstep c c₁ p dn hD hp hQ hne h0 hcatch)
    refine ⟨c₂, hpath₁.trans hpath₂, hD₂, hpeers₂.trans hpeers, ?_⟩
    rw [List.reverse_cons, List.append_assoc]
    exact hI

/-! ## Getting to lead -/

theorem handle_live {m m' : Consensus σ C P} {op : Op C} (h : m.handle op = some m')
    (hd : m.state ≠ .dead) : m'.state ≠ .dead := by
  have quiet : Quiet m m' → m'.state ≠ .dead := by
    intro hq hdead
    exact hd ((hq.role (by rw [hdead]; decide)).1.symm.trans hdead)
  cases op with
  | startElection elapsed =>
    obtain ⟨⟨c, reqs⟩, hc, rfl⟩ := Option.map_eq_some_iff.mp h
    rcases m.onStartElection_cases elapsed with he | he | ⟨c', he, hs, -⟩
    · rw [he] at hc
      cases hc
    · obtain ⟨rfl, -⟩ := Prod.mk.inj (Option.some_inj.mp (he ▸ hc))
      exact hd
    · obtain ⟨rfl, -⟩ := Prod.mk.inj (Option.some_inj.mp (he ▸ hc))
      rw [hs.state]
      simp
  | voteResult term voted =>
    obtain rfl := Option.some_inj.mp h
    rcases m.onVoteResult_cases term voted with hv | ⟨-, hv⟩ | ⟨-, -, -, hv⟩ | ⟨-, -, -, -, hv⟩
    · rw [hv]
      exact hd
    · rw [hv]
      simp [becomeFollower]
    · rw [hv]
      exact hd
    · rw [hv]
      simp [startLeader]
  | requestVote req =>
    obtain rfl := Option.some_inj.mp h
    exact quiet (Quiet.requestVote m req)
  | appendEntries req =>
    obtain rfl := Option.some_inj.mp h
    exact quiet (Quiet.appendEntries m req)
  | submit cmd =>
    obtain rfl := Option.some_inj.mp h
    exact quiet (Quiet.onSubmit m cmd)
  | sendAes =>
    obtain ⟨⟨c, calls⟩, hc, rfl⟩ := Option.map_eq_some_iff.mp h
    exact quiet (Quiet.of_same (m.sendLeaderAes_spec hc).1)
  | aeRes peerId ni reply => exact quiet (Quiet.handleAeRes h)
  | sendCommit =>
    obtain ⟨⟨c, entries⟩, hc, rfl⟩ := Option.map_eq_some_iff.mp h
    exact quiet (Quiet.of_same (m.sendCommits_spec hc).1)

/-- No node is dead. -/
def Cluster.Live (c : Cluster n σ C) : Prop := ∀ v, (c.nodes v).state ≠ .dead

/-- Nothing ever makes a node dead. -/
theorem Cluster.Run.live {r : List (Cluster n σ C)}
    (h : Cluster.Run cfg (fun _ l ↦ l.Alive) r) : ∀ c ∈ r, c.Live := by
  refine h.inv ?_ ?_
  · intro v
    change (cfg.node v).state ≠ .dead
    rw [cfg.node_state]
    decide
  · intro c l c' ih hl hs v
    obtain ⟨i, op, -, -, hdoes⟩ := Cluster.step_handle hl hs
    exact hdoes.forall (R := fun m m' ↦ m.state ≠ .dead → m'.state ≠ .dead) (fun _ h ↦ h)
      (fun _ h ↦ handle_live h) v (ih v)

/-- A leader that hears of a later term follows. -/
theorem Exchange.stepsDown {call : AppendCall C (Fin n)} {reply : AppendEntriesReply}
    (h : Exchange c c' i w call reply) (hd : (c.nodes w).state ≠ .dead)
    (ht : (c.nodes i).currentTerm < (c.nodes w).currentTerm) :
    c'.nodes w = c.nodes w ∧ (c'.nodes i).state = .follower ∧
      (c'.nodes i).currentTerm = (c.nodes w).currentTerm ∧ Retains (c.nodes i) (c'.nodes i) := by
  have hlt : call.req.term < (c.nodes w).currentTerm := h.term ▸ ht
  have hasked : (c.nodes w).appendEntries call.req =
      (c.nodes w, .ok ⟨(c.nodes w).currentTerm, false, none, none⟩) := by
    have hdown : (c.nodes w).stepDown call.req.term = c.nodes w := if_neg (by omega)
    have hnote : (c.nodes w).noteLeader call.req = c.nodes w := if_neg (by omega)
    simp only [Consensus.appendEntries, if_neg hd, hdown, hnote, if_pos hlt]
  rw [h.asked] at hasked
  obtain ⟨hw, hreply⟩ := Prod.mk.inj hasked
  obtain rfl := Except.ok.inj hreply
  obtain ⟨next, hans⟩ := h.answered
  rw [handleAeRes, if_pos (by exact ht)] at hans
  rw [← Option.some_inj.mp hans]
  exact ⟨hw, rfl, rfl, ⟨rfl, rfl, rfl⟩⟩

/-- A leader that is behind is made a follower. -/
theorem exists_follower {g : Fin n → ℕ → Option String} (he : Elect cfg c g) (hi : i ∈ Q)
    (hrun : ∀ v ∈ Q, c.panicked v = false) (hd : c.Live)
    (hl : (c.nodes i).state = .leader →
      ∃ w ∈ Q, (c.nodes i).currentTerm < (c.nodes w).currentTerm) {T : ℕ}
    (hT : ∀ v ∈ Q, (c.nodes v).currentTerm ≤ T) :
    ∃ c', c.Path Q c' ∧ c'.panicked = c.panicked ∧ (c'.nodes i).state ≠ .leader ∧
      (∀ v ∈ Q, (c'.nodes v).currentTerm ≤ T) ∧ ∀ v, Retains (c.nodes v) (c'.nodes v) := by
  by_cases hst : (c.nodes i).state = .leader
  · obtain ⟨w, hw, ht⟩ := hl hst
    have hne : w ≠ i := by
      rintro rfl
      exact lt_irrefl _ ht
    have hmem : w ∈ (c.nodes i).peers.map Prod.snd := by
      rw [he.peers, cfg.mem_urls]
      exact hne
    obtain ⟨p, hp, rfl⟩ := List.mem_map.mp hmem
    obtain ⟨c', call, reply, hpath, hex, -⟩ := exists_exchange hi hst hrun hp hw hne (hd _)
    obtain ⟨hsame, hfol, hterm, hret⟩ := hex.stepsDown (hd _) ht
    have hothers : ∀ v, v ≠ i → c'.nodes v = c.nodes v := by
      intro v hv
      by_cases hvw : v = p.2
      · rw [hvw, hsame]
      · exact hex.others v hv hvw
    refine ⟨c', hpath, hex.panicked, by rw [hfol]; decide, fun v hv ↦ ?_, fun v ↦ ?_⟩
    · by_cases hvi : v = i
      · rw [hvi, hterm]
        exact hT _ hw
      · rw [hothers v hvi]
        exact hT v hv
    · by_cases hvi : v = i
      · exact hvi ▸ hret
      · rw [hothers v hvi]
        exact .rfl
  · exact ⟨c, .refl, rfl, hst, hT, fun _ ↦ .rfl⟩

omit [Storage σ C] in
/-- Somebody is up to date with all the others. -/
theorem exists_upToDate (hQ : Q.Nonempty) :
    ∃ i ∈ Q, ∀ v ∈ Q, ∀ t,
      upToDate ((c.nodes i).ballotFor t) (lastLogOf (c.nodes v).logs) = true := by
  obtain ⟨i, hi, hmax⟩ := Q.exists_max_image
    (fun v ↦ toLex ((lastLogOf (c.nodes v).logs).term, (lastLogOf (c.nodes v).logs).index)) hQ
  refine ⟨i, hi, fun v hv t ↦ ?_⟩
  have hle := hmax v hv
  rw [Prod.Lex.toLex_le_toLex] at hle
  rw [Consensus.upToDate, Bool.or_eq_true, Bool.and_eq_true, decide_eq_true_eq,
    decide_eq_true_eq, decide_eq_true_eq]
  exact hle.imp_right fun h ↦ ⟨h.1.symm, h.2⟩

/-- **A majority that is running can always get a leader**, and one that is up to date with all of
it.  Nothing is lost or committed on the way. -/
theorem exists_leads (hf : cfg.Fresh) (hn : 2 ≤ n) {r : List (Cluster n σ C)}
    (h : Cluster.Run cfg (fun _ l ↦ l.Alive) (c :: r)) (hQ : Majority Q)
    (hrun : ∀ v ∈ Q, c.panicked v = false) (ht : ∀ v ∈ Q, (c.nodes v).currentTerm < usizeMax) :
    ∃ c' i t, c.Path Q c' ∧ Drives cfg Q c' i t (c.nodes i).logs ∧
      (∀ v ∈ Q, (c.nodes v).currentTerm ≤ t) ∧ ∀ v, Retains (c.nodes v) (c'.nodes v) := by
  have hlive := h.live c List.mem_cons_self
  obtain ⟨g, s, hsim, -⟩ := h.sim hf
  obtain ⟨helect, hsim⟩ := hsim c rfl
  obtain ⟨i, hi, hu⟩ := exists_upToDate (c := c) hQ.nonempty
  have hup : ∀ v ∈ Q, UpToDate LogEntry.term (c.nodes i).logs (c.nodes v).logs := fun v hv ↦
    upToDate_of_eq_true (hsim.term_pos i) (hsim.term_pos v) rfl (hu v hv 0)
  by_cases hlead : (c.nodes i).state = .leader ∧
      ∀ v ∈ Q, (c.nodes v).currentTerm ≤ (c.nodes i).currentTerm
  · exact ⟨c, i, (c.nodes i).currentTerm, .refl, ⟨⟨hi, hlead.1, rfl, hrun, fun v _ ↦ hlive v,
      hlead.2⟩, ⟨r, h⟩, rfl, hup⟩, hlead.2, fun _ ↦ .rfl⟩
  · let T := Q.sup fun v ↦ (c.nodes v).currentTerm
    have hT : ∀ v ∈ Q, (c.nodes v).currentTerm ≤ T := fun v hv ↦
      Finset.le_sup (f := fun v ↦ (c.nodes v).currentTerm) hv
    have hmax : T < usizeMax := (Finset.sup_lt_iff (by decide)).mpr ht
    obtain ⟨c₁, hpath₁, hpan₁, hfol, hT₁, hret₁⟩ := exists_follower helect hi hrun hlive
      (fun hl ↦ by simpa using not_and.mp hlead hl) hT
    obtain ⟨r₁, hr₁, -⟩ := hpath₁.run h
    obtain ⟨g₁, s₁, hsim₁, -⟩ := hr₁.sim hf
    have hu₁ : ∀ v ∈ Q, upToDate ((c₁.nodes i).ballotFor (T + 1))
        (lastLogOf (c₁.nodes v).logs) = true := by
      intro v hv
      have h₀ := hu v hv 0
      rw [Consensus.upToDate, ballotFor] at h₀ ⊢
      rw [(hret₁ i).logs, (hret₁ v).logs]
      exact h₀
    obtain ⟨c₂, hpath₂, hleads, hret₂⟩ := exists_elected (t := T + 1) hn hQ (hsim₁ c₁ rfl).1 hi
      (hpan₁ ▸ hrun) (fun v _ ↦ hr₁.live c₁ List.mem_cons_self v) hfol
      (fun v hv ↦ Nat.lt_succ_of_le (hT₁ v hv)) hmax hu₁
    have hret : ∀ v, Retains (c.nodes v) (c₂.nodes v) := fun v ↦ (hret₁ v).trans (hret₂ v)
    obtain ⟨r₂, hr₂, -⟩ := hpath₂.run hr₁
    refine ⟨c₂, i, T + 1, hpath₁.trans hpath₂, ⟨hleads, ⟨r₂, hr₂⟩, (hret i).logs, fun v hv ↦ ?_⟩,
      fun v hv ↦ (hT v hv).trans (Nat.le_succ T), hret⟩
    rw [(hret v).logs]
    exact hup v hv

/-- The peers of the leader that belong to `Q`. -/
def Cluster.partners (c : Cluster n σ C) (Q : Finset (Fin n)) (i : Fin n) : List (ℕ × Fin n) :=
  (c.nodes i).peers.filter (·.2 ∈ Q)

theorem Drives.mem_partners {t : ℕ} {L : List (LogEntry C)} (h : Drives cfg Q c i t L) :
    (∀ p ∈ c.partners Q i, p ∈ (c.nodes i).peers ∧ p.2 ∈ Q ∧ p.2 ≠ i) ∧
      ∀ v ∈ Q, v ≠ i → ∃ p ∈ c.partners Q i, p.2 = v := by
  obtain ⟨r, hr⟩ := h.run
  obtain ⟨g, helect, -⟩ := Cluster.Run.elect (hr.imp fun _ _ _ _ hl ↦ hl.keeps)
  have hmem : ∀ v, v ∈ (c.nodes i).peers.map Prod.snd ↔ v ≠ i := by
    intro v
    rw [(helect c rfl).peers, cfg.mem_urls]
  constructor
  · intro p hp
    obtain ⟨hp, hQ⟩ := List.mem_filter.mp hp
    exact ⟨hp, by simpa using hQ, (hmem p.2).mp (List.mem_map_of_mem hp)⟩
  · intro v hv hne
    obtain ⟨p, hp, rfl⟩ := List.mem_map.mp ((hmem v).mpr hne)
    exact ⟨p, List.mem_filter.mpr ⟨hp, by simpa using hv⟩, rfl⟩

/-- **A majority can always come together.**  From every state of every run without restarts, the
nodes of a majority that have not panicked and have terms left can, without a step of the others,
get to a state in which one of them leads and all of them are in its term with its log, which is the
log that this node had at the start. -/
theorem majority_recovers (cfg : Config n σ C) (hf : cfg.Fresh) (hn : 2 ≤ n)
    {r : List (Cluster n σ C)} (h : Cluster.Run cfg (fun _ l ↦ l.Alive) (c :: r))
    {Q : Finset (Fin n)} (hQ : Majority Q) (hrun : ∀ v ∈ Q, c.panicked v = false)
    (ht : ∀ v ∈ Q, (c.nodes v).currentTerm < usizeMax) :
    ∃ c' i, c.Path Q c' ∧ i ∈ Q ∧ (c'.nodes i).state = .leader ∧
      ∀ v ∈ Q, (c'.nodes v).logs = (c.nodes i).logs ∧
        (c'.nodes v).currentTerm = (c'.nodes i).currentTerm ∧ c'.panicked v = false := by
  obtain ⟨c₁, i, t, hpath₁, hD, -, -⟩ := exists_leads hf hn h hQ hrun ht
  obtain ⟨hps, hall⟩ := hD.mem_partners
  obtain ⟨c₂, hpath₂, hD₂, -, hI⟩ := exists_round hf (c₁.partners Q i)
    (I := fun dn d ↦ ∀ p ∈ dn, p.2 ≠ i ∧ (d.nodes p.2).logs = (c.nodes i).logs ∧
      (d.nodes p.2).currentTerm = t)
    (fun d d' p dn hd _ _ hne hI hcatch q hq ↦ by
      by_cases hqp : q.2 = p.2
      · rw [hqp]
        exact ⟨hne, hcatch.logs, hcatch.term.trans hd.term⟩
      · have hq := hI q ((List.mem_cons.mp hq).resolve_left fun h ↦ hqp (congrArg _ h))
        rw [hcatch.others q.2 hq.1 hqp]
        exact hq)
    c₁ [] hD hps (fun _ hp ↦ absurd hp List.not_mem_nil)
  refine ⟨c₂, i, hpath₁.trans hpath₂, hD.mem, hD₂.leads, fun v hv ↦ ?_⟩
  by_cases hvi : v = i
  · subst hvi
    exact ⟨hD₂.logs, rfl, hD₂.running v hv⟩
  · obtain ⟨p, hp, rfl⟩ := hall v hv hvi
    obtain ⟨-, hlogs, hterm⟩ := hI p (List.mem_append_left _ (List.mem_reverse.mpr hp))
    exact ⟨hlogs, hterm.trans hD₂.term.symm, hD₂.running _ hv⟩

/-- Node `0` leads and has taken a command, and is not heard of again. -/
theorem majority_recovers_trio :
    let c := trioEnd (fun _ l ↦ l.Alive) [.startElection 0 true, .voteReq 0, .voteReply 0,
      .submit 0 7]
    (c.nodes 0).state = .leader ∧ ∃ c' i, c.Path {1, 2} c' ∧ i ∈ ({1, 2} : Finset (Fin 3)) ∧
      (c'.nodes i).state = .leader ∧ ∀ v ∈ ({1, 2} : Finset (Fin 3)),
        (c'.nodes v).logs = (c.nodes i).logs ∧
          (c'.nodes v).currentTerm = (c'.nodes i).currentTerm ∧ c'.panicked v = false :=
  ⟨by decide, majority_recovers trio trio_fresh (by decide) (run_trioRun _ _ (by decide))
    (by decide) (by decide) (by decide)⟩

end Efis
