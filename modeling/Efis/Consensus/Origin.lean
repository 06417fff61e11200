import Efis.Consensus.Leadership
import Efis.Consensus.Refinement

/-!
# Where entries come from

The terms in a log are in order, and each entry is where the leader of its term has it.  The first
is read off the abstract protocol, in which all logs are rooted (`Raft.Rooted`).  There the log of a
leader is a matter of the record only; that the record was once somebody's log is shown here, by
following the entries through the run: who leads appends an entry of its own term, the calls carry
entries at their places in the log of the sender, and a splice puts them there (`Origin`).
-/

set_option autoImplicit false

namespace Efis

open Consensus

variable {n : ℕ} {σ C P : Type} [Storage σ C]

/-! ## What becomes of a log -/

omit [Storage σ C] in
/-- An entry after a splice was at its place, or in the request. -/
theorem getElem?_splice {logs : List (LogEntry C)} {req : AppendEntries C}
    (h : prevOk logs req.prevLogIndex req.prevLogTerm = true) {i : ℕ} {e : LogEntry C}
    (he : (splice logs (insertAt req) req.entries)[i]? = some e) :
    logs[i]? = some e ∨ ∃ k, i = insertAt req + k ∧ req.entries[k]? = some e := by
  have hrange := splice_in_range h
  rw [splice] at he
  generalize matchLen (logs.drop (insertAt req)) req.entries = newIdx at he hrange
  split at he
  · have hlen : (logs.take (insertAt req + newIdx)).length = insertAt req + newIdx :=
      List.length_take_of_le hrange
    rcases Nat.lt_or_ge i (insertAt req + newIdx) with hi | hi
    · rw [List.getElem?_append_left (by omega), List.getElem?_take_of_lt hi] at he
      exact Or.inl he
    · rw [List.getElem?_append_right (by omega), hlen, List.getElem?_drop] at he
      refine Or.inr ⟨i - insertAt req, by omega, ?_⟩
      rw [← he]
      congr 1
      omega
  · exact Or.inl he

/-- A log stays, or a leader appends to it, or a request is spliced in. -/
inductive Writes (m m' : Consensus σ C P) : Op C → Prop
  | same {op : Op C} (logs : m'.logs = m.logs) : Writes m m' op
  | submitted (cmd : C) (state : m'.state = .leader)
      (logs : m'.logs = m.logs ++ [⟨cmd, m'.currentTerm⟩]) : Writes m m' (.submit cmd)
  | spliced (req : AppendEntries C)
      (prev : prevOk m.logs req.prevLogIndex req.prevLogTerm = true)
      (logs : m'.logs = splice m.logs (insertAt req) req.entries) :
      Writes m m' (.appendEntries req)

theorem Writes.handle {m m' : Consensus σ C P} {op : Op C} (h : m.handle op = some m') :
    Writes m m' op := by
  cases op with
  | appendEntries req =>
    obtain rfl := Option.some_inj.mp h
    rcases m.appendEntries_cases req with h | ⟨c, _, h, -, hs, -⟩ | ⟨c, h, -, hp, hs, -⟩
    · rw [h]
      exact .same rfl
    · rw [h]
      exact .same (hs.logs.trans (m.stepDown_logs req.term))
    · rw [h]
      exact .spliced req hp hs.logs
  | submit cmd =>
    obtain rfl := Option.some_inj.mp h
    rcases m.onSubmit_cases cmd with h | ⟨hl, hs, -⟩
    · rw [h]
      exact .same rfl
    · exact .submitted cmd (hs.state.trans hl) (hs.currentTerm ▸ hs.logs)
  | _ => exact .same (handle_logs h (by simp) (by simp)).1

/-! ## Origins -/

variable {cfg : Config n σ C} {c c' : Cluster n σ C} {r : List (Cluster n σ C)}

/-- Some node led the term of the entry in one of these states, and had the entry at this place. -/
def Origin (r : List (Cluster n σ C)) (i : ℕ) (e : LogEntry C) : Prop :=
  ∃ d ∈ r, ∃ j, (d.nodes j).state = .leader ∧ (d.nodes j).currentTerm = e.term ∧
    (d.nodes j).logs[i]? = some e

omit [Storage σ C] in
theorem Origin.cons {i : ℕ} {e : LogEntry C} (h : Origin r i e) : Origin (c :: r) i e := by
  obtain ⟨d, hd, hj⟩ := h
  exact ⟨d, List.mem_cons_of_mem c hd, hj⟩

/-- All entries have an origin, those in logs and those in calls under way. -/
structure Traced (r : List (Cluster n σ C)) (c : Cluster n σ C) : Prop where
  logs : ∀ v i e, (c.nodes v).logs[i]? = some e → Origin r i e
  calls : ∀ a ∈ c.calls, ∀ k e, a.call.req.entries[k]? = some e →
    Origin r (insertAt a.call.req + k) e

theorem Traced.init (hf : cfg.Fresh) : Traced [cfg.init] cfg.init where
  logs v i e h := by
    rw [show (cfg.init.nodes v).logs = [] from (hf.node v).2.2.1] at h
    cases h
  calls a ha := absurd ha List.not_mem_nil

theorem Traced.step (h : Traced (c :: r) c) {l : Label n σ C} (hl : l.Alive)
    (hs : c.step l = some c') : Traced (c' :: c :: r) c' where
  logs v i e he := by
    cases Cluster.step_moves hs v with
    | still hv => exact (h.logs v i e (hv ▸ he)).cons
    | rebooted t left _ _ hit =>
      refine absurd ?_ hit
      cases l <;> first | exact trivial | exact hl.elim
    | handled op hask hm =>
      cases Writes.handle hm with
      | same hlogs => exact (h.logs v i e (hlogs ▸ he)).cons
      | submitted cmd hstate hlogs =>
        rw [hlogs] at he
        rcases Nat.lt_or_ge i (c.nodes v).logs.length with hi | hi
        · rw [List.getElem?_append_left hi] at he
          exact (h.logs v i e he).cons
        · -- the new entry is in the log of the one who leads now
          have hnew : e = ⟨cmd, (c'.nodes v).currentTerm⟩ := by
            rw [List.getElem?_append_right hi] at he
            exact (List.mem_singleton.mp (List.mem_of_getElem? he))
          refine ⟨c', List.mem_cons_self, v, hstate, by rw [hnew], ?_⟩
          rw [hlogs]
          exact he
      | spliced req hp hlogs =>
        obtain ⟨k, a, -, ha, -, rfl⟩ := Cluster.ask_appendEntries hask
        rw [hlogs] at he
        rcases getElem?_splice hp he with hold | ⟨j, rfl, hreq⟩
        · exact (h.logs v i e hold).cons
        · exact (h.calls a (Cluster.mem_calls_of_req (List.mem_of_getElem? ha)) j e hreq).cons
  calls a ha k e he := by
    rcases Cluster.step_calls hs a ha with ha | ⟨calls, hm, hcall⟩
    · exact (h.calls a ha k e he).cons
    · obtain ⟨-, hsuf, -⟩ := ((c.nodes a.src).sendLeaderAes_spec hm).2.2 _ hcall
      rw [hsuf.entries, List.getElem?_drop] at he
      rw [hsuf.insertAt]
      exact (h.logs a.src _ e he).cons

theorem Cluster.Run.traced (hf : cfg.Fresh) (h : Cluster.Run cfg (fun _ l ↦ l.Alive) r) :
    ∀ c ∈ r.head?, Traced r c := by
  induction h with
  | init =>
    intro c hc
    rw [List.head?_cons, Option.mem_some_iff] at hc
    exact hc ▸ Traced.init hf
  | @step c c' r l hr hok hs ih =>
    intro d hd
    rw [List.head?_cons, Option.mem_some_iff] at hd
    exact hd ▸ (ih c rfl).step hok hs

/-! ## Terms and places -/

/-- The entry is where the one leader of its term has it: some node has led the term with the entry
at this place, no other node has led it, and this one never had another entry there. -/
def Placed (r : List (Cluster n σ C)) (i : ℕ) (e : LogEntry C) : Prop :=
  ∃ j, (∃ d ∈ r, (d.nodes j).state = .leader ∧ (d.nodes j).currentTerm = e.term ∧
      (d.nodes j).logs[i]? = some e) ∧
    ∀ d ∈ r, ∀ j', (d.nodes j').state = .leader → (d.nodes j').currentTerm = e.term →
      j' = j ∧ ∀ f, (d.nodes j').logs[i]? = some f → f = e

theorem Origin.placed (hf : cfg.Fresh) (h : Cluster.Run cfg (fun _ l ↦ l.Alive) r) {i : ℕ}
    {e : LogEntry C} (ho : Origin r i e) : Placed r i e := by
  obtain ⟨d, hd, j, hj, hterm, he⟩ := ho
  obtain ⟨g, -, helected⟩ := (h.imp fun _ _ _ _ hl ↦ hl.keeps).elect
  obtain ⟨-, s, -, hled⟩ := h.sim hf
  refine ⟨j, ⟨d, hd, hj, hterm, he⟩, fun d' hd' j' hj' hterm' ↦ ⟨?_, fun f hfi ↦ ?_⟩⟩
  · have hel := helected d hd j hj
    have hel' := helected d' hd' j' hj'
    rw [hterm] at hel
    rw [hterm'] at hel'
    exact hel'.unique hel
  · -- both are in the log that the term has
    have hlead := Raft.getElem?_of_isPrefix (hled d hd j hj).log he
    have hlead' := Raft.getElem?_of_isPrefix (hled d' hd' j' hj').log hfi
    rw [hterm] at hlead
    rw [hterm', hlead] at hlead'
    exact (Option.some_inj.mp hlead').symm

/-- **Terms are in order, and entries are in their places.**  In every state of a run without
restarts: the terms in each log do not decrease, none is below `1` or above the current term of the
node, each entry is where the one leader of its term has it, and below an entry of some term there
are all entries of this term that any log has further down. -/
theorem terms_and_places (cfg : Config n σ C) (hf : cfg.Fresh) {r : List (Cluster n σ C)}
    (h : Cluster.Run cfg (fun _ l ↦ l.Alive) (c :: r)) :
    (∀ v, ((c.nodes v).logs.map LogEntry.term).Pairwise (· ≤ ·)) ∧
    (∀ v, ∀ e ∈ (c.nodes v).logs, 1 ≤ e.term ∧ e.term ≤ (c.nodes v).currentTerm) ∧
    (∀ v i e, (c.nodes v).logs[i]? = some e → Placed (c :: r) i e) ∧
    ∀ (v w : Fin n) (i k : ℕ) (e f : LogEntry C), (c.nodes v).logs[i]? = some e →
      (c.nodes w).logs[k]? = some f → i < k → e.term = f.term →
        (c.nodes w).logs[i]? = some e := by
  obtain ⟨g, s, hsim, -⟩ := h.sim hf
  obtain ⟨-, hsim⟩ := hsim c rfl
  have hrooted : ∀ v, Raft.Rooted LogEntry.term s (c.nodes v).logs :=
    fun v ↦ hsim.log v ▸ hsim.inv.log_rooted v
  refine ⟨fun v ↦ hsim.inv.pairwise (hrooted v), fun v e he ↦ ⟨hsim.term_pos v e he, ?_⟩,
    fun v i e he ↦ ((h.traced hf c rfl).logs v i e he).placed hf h,
    fun v w i k e f he hfk hik ht ↦ (hrooted v).getElem?_of_lt (hrooted w) he hfk hik ht⟩
  rw [← hsim.term]
  exact hsim.inv.log_term v e (hsim.log v ▸ he)

/-- A follower that has taken over an entry, and a leader with one more. -/
theorem terms_and_places_trio :
    let ls : List (Label 3 (MockStorage ℕ) ℕ) := [.startElection 0 true, .voteReq 0, .voteReply 0,
      .submit 0 7, .sendAes 0, .appendReq 0, .submit 0 8]
    ((trioEnd (fun _ l ↦ l.Alive) ls).nodes 1).logs = [⟨7, 1⟩] ∧
      Placed (trioEnd (fun _ l ↦ l.Alive) ls :: (trioRun (fun _ l ↦ l.Alive) ls).tail) 0 ⟨7, 1⟩ :=
  ⟨by decide, (terms_and_places trio trio_fresh (run_trioRun _ _ (by decide))).2.2.1 1 0 _
    (by decide)⟩

end Efis
