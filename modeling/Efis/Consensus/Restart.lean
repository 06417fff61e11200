import Efis.Consensus.Stream

/-!
# Restarts that bring back the log

Log matching and state machine safety do not need that nodes never crash.  They need that a node
that starts again has its term, its vote and its log (`Faithful`).  What else it had, the commit
index among it, may be lost, and entries may be emitted a second time.

The simulation by the abstract protocol is carried over as it is.  A leader that has started again
is a follower of its own term.  It has voted for itself, so it votes for nobody else in this term,
and it cannot be a candidate in it either.  So to the protocol it may pass for a leader that does
nothing: `Cluster.crown` makes such nodes leaders again, and it is the crowned cluster that is
simulated (`Crowned`).
-/

set_option autoImplicit false

namespace Efis

open Consensus

variable {n : ℕ} {σ C P : Type}

/-! ## Crowned nodes -/

/-- The node as a leader that won with the given number of votes. -/
def Consensus.crown (m : Consensus σ C P) : Option ℕ → Consensus σ C P
  | none => m
  | some k => { m with state := .leader, voteCount := k }

section

variable (m : Consensus σ C P) (o : Option ℕ)

@[simp] theorem crown_none : m.crown none = m := rfl
@[simp] theorem crown_id : (m.crown o).id = m.id := by cases o <;> rfl
@[simp] theorem crown_peers : (m.crown o).peers = m.peers := by cases o <;> rfl
@[simp] theorem crown_currentTerm : (m.crown o).currentTerm = m.currentTerm := by cases o <;> rfl
@[simp] theorem crown_votedFor : (m.crown o).votedFor = m.votedFor := by cases o <;> rfl
@[simp] theorem crown_logs : (m.crown o).logs = m.logs := by cases o <;> rfl
@[simp] theorem crown_commitIndex : (m.crown o).commitIndex = m.commitIndex := by cases o <;> rfl
@[simp] theorem crown_lastApplied : (m.crown o).lastApplied = m.lastApplied := by cases o <;> rfl
@[simp] theorem crown_lastLog : (m.crown o).lastLog = m.lastLog := by cases o <;> rfl

end

/-- Make the nodes leaders of which `S` says with how many votes. -/
def Cluster.crown (c : Cluster n σ C) (S : Fin n → Option ℕ) : Cluster n σ C :=
  { c with nodes := fun v ↦ (c.nodes v).crown (S v) }

section

variable {c c' : Cluster n σ C} {S : Fin n → Option ℕ} {i : Fin n}

theorem crown_nodes (v : Fin n) : (c.crown S).nodes v = (c.nodes v).crown (S v) := rfl

theorem crown_nodes_of_none (h : S i = none) : (c.crown S).nodes i = c.nodes i := by
  rw [crown_nodes, h]
  rfl

theorem crown_set (c : Cluster n σ C) (S : Fin n → Option ℕ) (i : Fin n)
    (m : Consensus σ C (Fin n)) (o : Option ℕ) :
    (c.set i m).crown (Function.update S i o) = (c.crown S).set i (m.crown o) := by
  rw [Cluster.crown, Cluster.set, Cluster.set, Cluster.crown]
  congr 1
  funext v
  by_cases hv : v = i
  · subst hv
    simp
  · simp [Function.update_of_ne hv]

theorem crown_set_of_none (m : Consensus σ C (Fin n)) (h : S i = none) :
    (c.set i m).crown S = (c.crown S).set i m := by
  have hS : Function.update S i none = S := by rw [← h, Function.update_eq_self]
  rw [← hS, crown_set, hS]
  rfl

end

variable [Storage σ C] {cfg : Config n σ C} {c c' : Cluster n σ C}
  {g : Fin n → ℕ → Option String} {s s' : Raft.State (Fin n) (LogEntry C)}
  {S T : Fin n → Option ℕ} {i : Fin n}

/-! ## Steps of the others -/

section

theorem crown_startElection (h : S i = none) (elapsed : Bool) :
    (c.crown S).startElection i elapsed = (c.startElection i elapsed).crown S := by
  rw [Cluster.startElection, Cluster.startElection, crown_nodes_of_none h]
  cases (c.nodes i).onStartElection elapsed with
  | none => rfl
  | some p =>
    dsimp only
    rw [← crown_set_of_none _ h]
    rfl

theorem crown_submit (h : S i = none) (cmd : C) :
    (c.crown S).submit i cmd = (c.submit i cmd).crown S := by
  rw [Cluster.submit, Cluster.submit, crown_nodes_of_none h, crown_set_of_none _ h]

omit [Storage σ C] in
theorem crown_sendAes (h : S i = none) : (c.crown S).sendAes i = (c.sendAes i).crown S := by
  rw [Cluster.sendAes, Cluster.sendAes, crown_nodes_of_none h]
  cases (c.nodes i).sendLeaderAes with
  | none => rfl
  | some p =>
    dsimp only
    rw [← crown_set_of_none _ h]
    rfl

theorem crown_requestVote {a : VoteCall n} (h : S a.dst = none) :
    (c.crown S).requestVote a = (c.requestVote a).crown S := by
  rw [Cluster.requestVote, Cluster.requestVote, crown_nodes_of_none h]
  cases (c.nodes a.dst).requestVote a.req with
  | mk m res =>
    dsimp only
    rw [← crown_set_of_none _ h]
    rfl

theorem crown_voteResult {a : VoteAnswer n} (h : S a.call.src = none) :
    (c.crown S).voteResult a = (c.voteResult a).crown S := by
  rw [Cluster.voteResult, Cluster.voteResult, crown_nodes_of_none h, crown_set_of_none _ h]

theorem crown_appendEntries {a : EntriesCall n C} (h : S a.call.client = none) :
    (c.crown S).appendEntries a = (c.appendEntries a).crown S := by
  rw [Cluster.appendEntries, Cluster.appendEntries, crown_nodes_of_none h]
  cases (c.nodes a.call.client).appendEntries a.call.req with
  | mk m res =>
    cases res with
    | error e => exact (crown_set_of_none _ h).symm
    | ok reply =>
      dsimp only
      rw [← crown_set_of_none _ h]
      rfl

theorem crown_aeRes {a : EntriesAnswer n C} (h : S a.call.src = none) :
    (c.crown S).aeRes a = (c.aeRes a).crown S := by
  rw [Cluster.aeRes, Cluster.aeRes, crown_nodes_of_none h]
  cases (c.nodes a.call.src).handleAeRes a.call.call.peerId a.call.call.ni a.reply with
  | none => rfl
  | some m => exact (crown_set_of_none _ h).symm

end

omit [Storage σ C] in
/-- What `send_commits` does, does not depend on the role. -/
theorem sendCommits_crown (m : Consensus σ C P) (o : Option ℕ) :
    (m.crown o).sendCommits = m.sendCommits.map fun p ↦ (p.1.crown o, p.2) := by
  rw [sendCommits, sendCommits, crown_commitIndex, crown_lastApplied, crown_logs,
    crown_currentTerm]
  cases m.commitIndex with
  | none => rfl
  | some ci =>
    dsimp only
    by_cases h : commitStart m.lastApplied ≤ ci ∧ commitStart m.lastApplied < m.logs.length
    · rw [if_pos h, if_pos h]
      cases sliceIncl m.logs (commitStart m.lastApplied) ci <;> cases o <;> rfl
    · rw [if_neg h, if_neg h]
      rfl

omit [Storage σ C] in
theorem crown_sendCommit (c : Cluster n σ C) (S : Fin n → Option ℕ) (i : Fin n) :
    (c.crown S).sendCommit i = (c.sendCommit i).crown S := by
  rw [Cluster.sendCommit, Cluster.sendCommit, crown_nodes, sendCommits_crown]
  cases (c.nodes i).sendCommits with
  | none => rfl
  | some p =>
    have hset := crown_set c S i p.1 (S i)
    rw [Function.update_eq_self] at hset
    simp only [Option.map_some]
    rw [← hset]
    rfl

/-- The step of a node that is not crowned. -/
theorem crown_step {l : Label n σ C} (hl : l.Alive) {op : Op C} (hask : c.ask l = some (i, op))
    (hi : S i = none) (hs : c.step l = some c') : (c.crown S).step l = some (c'.crown S) := by
  cases l with
  | restart j left => exact absurd hl id
  | crashVote k left => exact absurd hl id
  | crashAppend k left => exact absurd hl id
  | startElection j elapsed =>
    obtain ⟨rfl, -⟩ := Prod.mk.inj (Option.some_inj.mp hask)
    obtain ⟨hp, rfl⟩ := Cluster.on_eq_some.mp hs
    exact Cluster.on_eq_some.mpr ⟨hp, crown_startElection hi elapsed⟩
  | submit j cmd =>
    obtain ⟨rfl, -⟩ := Prod.mk.inj (Option.some_inj.mp hask)
    obtain ⟨hp, rfl⟩ := Cluster.on_eq_some.mp hs
    exact Cluster.on_eq_some.mpr ⟨hp, crown_submit hi cmd⟩
  | sendAes j =>
    obtain ⟨rfl, -⟩ := Prod.mk.inj (Option.some_inj.mp hask)
    obtain ⟨hp, rfl⟩ := Cluster.on_eq_some.mp hs
    exact Cluster.on_eq_some.mpr ⟨hp, crown_sendAes hi⟩
  | sendCommit j =>
    obtain ⟨hp, rfl⟩ := Cluster.on_eq_some.mp hs
    exact Cluster.on_eq_some.mpr ⟨hp, crown_sendCommit c S j⟩
  | voteReq k =>
    simp only [Cluster.ask, Option.map_eq_some_iff] at hask
    obtain ⟨a, ha, heq⟩ := hask
    obtain ⟨rfl, -⟩ := Prod.mk.inj heq
    simp only [Cluster.step, ha, Option.bind_eq_bind, Option.bind_some] at hs
    obtain ⟨hp, rfl⟩ := Cluster.on_eq_some.mp hs
    rw [Cluster.step, show (c.crown S).voteReqs[k]? = some a from ha]
    exact Cluster.on_eq_some.mpr ⟨hp,
      crown_requestVote (c := { c with voteReqs := c.voteReqs.eraseIdx k }) hi⟩
  | voteReply k =>
    simp only [Cluster.ask, Option.map_eq_some_iff] at hask
    obtain ⟨a, ha, heq⟩ := hask
    obtain ⟨rfl, -⟩ := Prod.mk.inj heq
    simp only [Cluster.step, ha, Option.bind_eq_bind, Option.bind_some] at hs
    obtain ⟨hp, rfl⟩ := Cluster.on_eq_some.mp hs
    rw [Cluster.step, show (c.crown S).voteReplies[k]? = some a from ha]
    exact Cluster.on_eq_some.mpr ⟨hp,
      crown_voteResult (c := { c with voteReplies := c.voteReplies.eraseIdx k }) hi⟩
  | appendReq k =>
    simp only [Cluster.ask, Option.map_eq_some_iff] at hask
    obtain ⟨a, ha, heq⟩ := hask
    obtain ⟨rfl, -⟩ := Prod.mk.inj heq
    simp only [Cluster.step, ha, Option.bind_eq_bind, Option.bind_some] at hs
    obtain ⟨hp, rfl⟩ := Cluster.on_eq_some.mp hs
    rw [Cluster.step, show (c.crown S).appendReqs[k]? = some a from ha]
    exact Cluster.on_eq_some.mpr ⟨hp,
      crown_appendEntries (c := { c with appendReqs := c.appendReqs.eraseIdx k }) hi⟩
  | appendReply k =>
    simp only [Cluster.ask, Option.map_eq_some_iff] at hask
    obtain ⟨a, ha, heq⟩ := hask
    obtain ⟨rfl, -⟩ := Prod.mk.inj heq
    simp only [Cluster.step, ha, Option.bind_eq_bind, Option.bind_some] at hs
    obtain ⟨hp, rfl⟩ := Cluster.on_eq_some.mp hs
    rw [Cluster.step, show (c.crown S).appendReplies[k]? = some a from ha]
    exact Cluster.on_eq_some.mpr ⟨hp,
      crown_aeRes (c := { c with appendReplies := c.appendReplies.eraseIdx k }) hi⟩

/-! ## What a crowned cluster goes along with -/

/-- The protocol does not see the difference, unless the node was a candidate and gave up. -/
structure Alike (m m' : Consensus σ C P) : Prop where
  id : m'.id = m.id
  peers : m'.peers = m.peers
  currentTerm : m'.currentTerm = m.currentTerm
  votedFor : m'.votedFor = m.votedFor
  logs : m'.logs = m.logs
  role : (m'.state = .follower ∧ m.state ≠ .leader) ∨
    (m'.state = m.state ∧ m'.voteCount = m.voteCount)

omit [Storage σ C] in
theorem Alike.rfl {m : Consensus σ C P} : Alike m m :=
  ⟨Eq.refl _, Eq.refl _, Eq.refl _, Eq.refl _, Eq.refl _, Or.inr ⟨Eq.refl _, Eq.refl _⟩⟩

omit [Storage σ C] in
theorem Alike.quiet {m m' : Consensus σ C P} (h : Alike m m') : Quiet m m' where
  id := h.id
  peers := h.peers
  later := Or.inr ⟨h.currentTerm, Or.inr h.votedFor⟩
  role hs := by
    rcases h.role with ⟨hf, -⟩ | ⟨hst, hv⟩
    · exact absurd hf hs
    · exact ⟨hst, h.currentTerm, hv⟩

omit [Storage σ C] in
theorem Alike.leader_iff {m m' : Consensus σ C P} (h : Alike m m') :
    m'.state = .leader ↔ m.state = .leader := by
  rcases h.role with ⟨hf, hl⟩ | ⟨hst, -⟩
  · rw [hf]
    exact iff_of_false (by decide) hl
  · rw [hst]

omit [Storage σ C] in
theorem Alike.candidate {m m' : Consensus σ C P} (h : Alike m m') (hc : m'.state = .candidate) :
    m.state = .candidate := by
  rcases h.role with ⟨hf, -⟩ | ⟨hst, -⟩
  · rw [hf] at hc
    cases hc
  · exact hst.symm.trans hc

/-- The crowned nodes are followers, and with them as leaders the cluster is simulated. -/
structure Crowned (cfg : Config n σ C) (c : Cluster n σ C) (g : Fin n → ℕ → Option String)
    (s : Raft.State (Fin n) (LogEntry C)) (S : Fin n → Option ℕ) : Prop where
  follower : ∀ v k, S v = some k → (c.nodes v).state = .follower
  elect : Elect cfg (c.crown S) g
  sim : Sim cfg (c.crown S) g s

/-- The protocol goes on to follow the cluster, and under the condition `Q` it also does so in what
is committed. -/
def Goes (cfg : Config n σ C) (c : Cluster n σ C) (s : Raft.State (Fin n) (LogEntry C)) (Q : Prop)
    (c' : Cluster n σ C) : Prop :=
  ∃ g' s' S', Raft.Steps LogEntry.term s s' ∧ Crowned cfg c' g' s' S' ∧
    (Commits c s → Q → Commits c' s')

omit [Storage σ C] in
theorem commits_crown : Commits (c.crown S) s ↔ Commits c s := by
  constructor
  · rintro ⟨hn, hm, he⟩
    refine ⟨fun v ci hci ↦ ?_, hm, he⟩
    have h := hn v ci (by rw [crown_nodes, crown_commitIndex]; exact hci)
    rwa [crown_nodes, crown_logs, crown_currentTerm] at h
  · rintro ⟨hn, hm, he⟩
    refine ⟨fun v ci hci ↦ ?_, hm, he⟩
    rw [crown_nodes, crown_commitIndex] at hci
    rw [crown_nodes, crown_logs, crown_currentTerm]
    exact hn v ci hci

omit [Storage σ C] in
theorem Idle.crown {m m' : Consensus σ C P} (h : Idle m m') (o : Option ℕ) :
    Idle (m.crown o) (m'.crown o) where
  commitIndex := by rw [crown_commitIndex, crown_commitIndex, h.commitIndex]
  logs := by
    rw [crown_logs, crown_logs]
    exact h.logs
  currentTerm := by
    rw [crown_currentTerm, crown_currentTerm]
    exact h.currentTerm

/-- Nobody commits anything, but a commit index may be lost. -/
theorem Crowned.commits (h : Crowned cfg c g s S) (hg : Raft.Grows s s') (hcom : Commits c s)
    (hnode : ∀ v, Idle (c.nodes v) (c'.nodes v) ∨ (c'.nodes v).commitIndex = none)
    (happ : ∀ m ∈ c'.appendReqs, m ∈ c.appendReqs) (htr : c'.trace = c.trace) :
    Commits c' s' := by
  suffices hcom' : Commits (c'.crown S) s' from commits_crown.mp hcom'
  refine (commits_crown.mpr hcom).next h.sim hg (fun v ↦ ?_) (fun m hm ↦ Or.inl (happ m hm))
    fun v e he ↦ Or.inl (htr ▸ he)
  rcases hnode v with hidle | hnone
  · exact Or.inl (hidle.crown (S v))
  · refine Or.inr fun ci hci ↦ ?_
    rw [crown_nodes, crown_commitIndex, hnone] at hci
    cases hci

/-- The protocol follows to `d`, and `d` is much like the new cluster with its crowns. -/
theorem Goes.of_alike {Q : Prop} {d : Cluster n σ C} {g₁ : Fin n → ℕ → Option String}
    {s₁ : Raft.State (Fin n) (LogEntry C)} (hsteps : Raft.Steps LogEntry.term s s₁)
    (he : Elect cfg d g₁) (hs : Sim cfg d g₁ s₁)
    (hfol : ∀ v k, T v = some k → (c'.nodes v).state = .follower)
    (halike : ∀ v, Alike (d.nodes v) ((c'.nodes v).crown (T v)))
    (hreq : c'.voteReqs.Sublist d.voteReqs) (hrep : c'.voteReplies = d.voteReplies)
    (happ : ∀ m ∈ c'.appendReqs, m ∈ d.appendReqs)
    (hacc : ∀ v t req, Event.accept v t req ∈ c'.trace → Event.accept v t req ∈ d.trace)
    (hcommits : Commits c s → Q → Commits c' s₁) : Goes cfg c s Q c' := by
  have hnext : Next cfg (c'.crown T) g₁ := by
    refine he.quiet (fun v ↦ (halike v).quiet) ?_ (fun m hm ↦ hreq.subset hm)
      fun m hm ↦ Or.inl (hrep ▸ hm)
    change (c'.voteReqs.map VoteCall.ballot ++
      (c'.voteReplies.filter (·.reply.voted)).map (·.call.ballot)).Subperm (ballots d)
    rw [ballots, hrep]
    exact ((hreq.map _).append_right _).subperm
  have hrec : record (c'.crown T) g₁ = g₁ := he.record_eq fun v ↦
    ⟨(halike v).currentTerm, (halike v).votedFor⟩
  have helect := hnext.elect
  rw [hrec] at helect
  refine ⟨g₁, s₁, T, hsteps, ⟨hfol, helect, ?_⟩, hcommits⟩
  exact hs.frame (fun v ↦ (halike v).currentTerm) (fun v ↦ (halike v).logs)
    (fun v ↦ (halike v).leader_iff) (fun _ _ _ h ↦ h) hs.voted
    (fun j hj ↦ hs.votes j ((halike j).candidate hj))
    (fun m hm hc ↦ hs.asked m (hreq.subset hm) ((halike m.src).candidate hc))
    (fun m hm ↦ hs.sound m (happ m hm)) hacc

/-- The step of the crowned cluster, as far as it is like that of the cluster. -/
theorem Crowned.of_step (h : Crowned cfg c g s S) {l : Label n σ C} (hl : l.Alive) {Q : Prop}
    {d : Cluster n σ C} (hstep : (c.crown S).step l = some d) (hQ : Q → Counted cfg (c.crown S) l)
    (hfol : ∀ v k, T v = some k → (c'.nodes v).state = .follower)
    (halike : ∀ v, Alike (d.nodes v) ((c'.nodes v).crown (T v)))
    (hci : ∀ v, (c'.nodes v).commitIndex = (d.nodes v).commitIndex)
    (hreq : c'.voteReqs = d.voteReqs) (hrep : c'.voteReplies = d.voteReplies)
    (happ : c'.appendReqs = d.appendReqs) (htr : c'.trace = d.trace) : Goes cfg c s Q c' := by
  obtain ⟨s₁, hsteps, hs₁⟩ := h.sim.step h.elect hl hstep
  refine .of_alike hsteps (h.elect.step hl.keeps hstep).elect hs₁ hfol halike
    (hreq ▸ List.Sublist.refl _) hrep (fun m hm ↦ happ ▸ hm) (fun v t req hm ↦ htr ▸ hm) ?_
  intro hcom hq
  have hcom' := (commits_crown.mpr hcom).step h.sim (hsteps.inv_grows h.sim.inv).2
    (hQ hq).warranted hstep
  refine ⟨fun v ci hv ↦ ?_, fun m hm ↦ hcom'.msg m (happ ▸ hm), fun v e hv ↦ hcom'.event v e
    (htr ▸ hv)⟩
  have hv' := hcom'.node v ci (hci v ▸ hv)
  rw [← (halike v).logs, ← (halike v).currentTerm, crown_logs, crown_currentTerm] at hv'
  exact hv'

theorem counted_crown {l : Label n σ C} {op : Op C} (hask : c.ask l = some (i, op))
    (hi : S i = none) (h : Counted cfg c l) : Counted cfg (c.crown S) l := by
  cases l with
  | appendReply k =>
    intro m hm
    simp only [Cluster.ask, Option.map_eq_some_iff] at hask
    obtain ⟨a, ha, heq⟩ := hask
    obtain ⟨rfl, -⟩ := Prod.mk.inj heq
    obtain rfl : a = m := Option.some_inj.mp (ha.symm.trans hm)
    have hnode : (c.crown S).nodes a.call.src = c.nodes a.call.src := crown_nodes_of_none hi
    have hc := h a hm
    rw [CountedReply] at hc ⊢
    rw [hnode]
    intro hst ht hsucc j hj hle hmay
    have hmaj := hc hst ht hsucc j hj hle hmay
    rw [Cluster.holders] at hmaj ⊢
    rw [hnode]
    exact hmaj
  | _ => exact h

/-- A step of a node that is not crowned. -/
theorem Crowned.step_of_none (h : Crowned cfg c g s S) {l : Label n σ C} (hl : l.Alive) {op : Op C}
    (hask : c.ask l = some (i, op)) (hi : S i = none) (hs : c.step l = some c') :
    Goes cfg c s (Counted cfg c l) c' := by
  obtain ⟨j, op', hask', -, hdoes⟩ := Cluster.step_handle hl hs
  obtain ⟨rfl, -⟩ := Prod.mk.inj (Option.some_inj.mp (hask.symm.trans hask'))
  refine h.of_step hl (crown_step hl hask hi hs) (counted_crown hask hi) (T := S) ?_
    (fun v ↦ Alike.rfl) (fun v ↦ by rw [crown_nodes, crown_commitIndex]) rfl rfl rfl rfl
  intro v k hv
  have hne : v ≠ i := by
    rintro rfl
    rw [hi] at hv
    cases hv
  rw [← h.follower v k hv]
  rcases hdoes with ⟨m, -, hn, -⟩ | ⟨-, hn, -⟩
  · rw [hn, Function.update_of_ne hne]
  · rw [hn]

/-- What is left of the crown of a node that hears of a term. -/
def crownAfter (m : Consensus σ C P) (o : Option ℕ) (t : ℕ) : Option ℕ :=
  if m.currentTerm < t then none else o

/-- A crowned node that steps down loses its crown. -/
theorem alike_stepDown (m : Consensus σ C P) (o : Option ℕ) (t : ℕ) :
    Alike ((m.crown o).stepDown t) ((m.stepDown t).crown (crownAfter m o t)) := by
  rw [stepDown, stepDown, crownAfter, crown_currentTerm]
  split
  · cases o with
    | none => exact .rfl
    | some k => exact ⟨rfl, rfl, rfl, rfl, rfl, Or.inl ⟨rfl, by simp [becomeFollower, crown]⟩⟩
  · exact .rfl

/-- A node steps down, or stays as it is, and some messages get lost. -/
theorem Crowned.stepDown (h : Crowned cfg c g s S) (i : Fin n) (t : ℕ)
    (hn : c'.nodes = (c.set i ((c.nodes i).stepDown t)).nodes)
    (hreq : c'.voteReqs.Sublist c.voteReqs) (hrep : c'.voteReplies = c.voteReplies)
    (happ : ∀ m ∈ c'.appendReqs, m ∈ c.appendReqs) (htr : c'.trace = c.trace) :
    Goes cfg c s True c' := by
  let d := (c.crown S).set i (((c.crown S).nodes i).stepDown t)
  obtain ⟨s₁, hsteps, hs₁⟩ := h.sim.stepDown h.elect i t
  have hnext : Next cfg d g := h.elect.frame (quiet_set (Quiet.stepDown _ t)) rfl rfl
  let S₁ := Function.update S i (crownAfter (c.nodes i) (S i) t)
  have hnode : ∀ v, v ≠ i → c'.nodes v = c.nodes v := fun v hv ↦ by
    rw [hn, Cluster.set_of_ne _ _ hv]
  have hself : c'.nodes i = (c.nodes i).stepDown t := by rw [hn, Cluster.set_self]
  refine .of_alike (T := S₁) hsteps hnext.elect hs₁ ?_ ?_ hreq hrep happ
    (fun v t req hm ↦ htr ▸ hm) ?_
  · intro v k hv
    by_cases hvi : v = i
    · subst hvi
      simp only [S₁, Function.update_self, crownAfter] at hv
      split at hv
      · cases hv
      · rename_i hlt
        rw [hself, Consensus.stepDown, if_neg hlt]
        exact h.follower v k hv
    · rw [hnode v hvi]
      simp only [S₁, Function.update_of_ne hvi] at hv
      exact h.follower v k hv
  · intro v
    by_cases hvi : v = i
    · subst hvi
      rw [hself, Cluster.set_self]
      simp only [S₁, Function.update_self]
      exact alike_stepDown _ _ t
    · rw [hnode v hvi, Cluster.set_of_ne _ _ hvi]
      simp only [S₁, Function.update_of_ne hvi]
      exact .rfl
  · intro hcom _
    refine h.commits (hsteps.inv_grows h.sim.inv).2 hcom (fun v ↦ Or.inl ?_) happ htr
    rw [hn]
    exact Idle.set (Idle.stepDown _ t) v

/-- Nothing happens but that messages get lost. -/
theorem Crowned.still (h : Crowned cfg c g s S) (hn : c'.nodes = c.nodes)
    (hreq : c'.voteReqs.Sublist c.voteReqs) (hrep : c'.voteReplies = c.voteReplies)
    (happ : ∀ m ∈ c'.appendReqs, m ∈ c.appendReqs) (htr : c'.trace = c.trace) :
    Goes cfg c s True c' :=
  .of_alike (T := S) .refl h.elect h.sim (fun v k hv ↦ by rw [hn]; exact h.follower v k hv)
    (fun v ↦ by rw [hn]; exact .rfl) hreq hrep happ (fun v t req hm ↦ htr ▸ hm)
    fun hcom _ ↦ h.commits .rfl hcom (fun v ↦ Or.inl (by rw [hn]; exact .rfl)) happ htr

/-! ## Steps of the crowned -/

/-- A crowned node that starts an election goes on to the next term, and is no leader of that. -/
theorem Crowned.startElection (h : Crowned cfg c g s S) {m : Consensus σ C (Fin n)}
    (hm : Same { c.nodes i with
      state := .candidate, currentTerm := (c.nodes i).currentTerm + 1,
      votedFor := some (c.nodes i).id, voteCount := 1 } m)
    (hci : m.commitIndex = (c.nodes i).commitIndex) {reqs : List (VoteCall n)}
    (hballot : reqs.map VoteCall.ballot = ((cfg.urls i).map Prod.snd).map fun j ↦
      ⟨i, j, (c.nodes i).currentTerm + 1⟩)
    (hask : ∀ r ∈ reqs, r.req.candidateId = cfg.id r.src)
    (hlast : ∀ r ∈ reqs, r.src = i ∧
      lastLogOf (c.nodes i).logs = ⟨r.req.lastLogIndex, r.req.lastLogTerm⟩)
    (hc' : c' = { c.set i m with voteReqs := c.voteReqs ++ reqs }) : Goes cfg c s True c' := by
  have hcrown : c'.crown (Function.update S i none) =
      { (c.crown S).set i m with voteReqs := (c.crown S).voteReqs ++ reqs } := by
    subst hc'
    rw [← crown_none m, ← crown_set]
    rfl
  have hm' : Same { (c.crown S).nodes i with
      state := .candidate, currentTerm := ((c.crown S).nodes i).currentTerm + 1,
      votedFor := some ((c.crown S).nodes i).id, voteCount := 1 } m := by
    rw [crown_nodes]
    cases S i <;> exact hm
  obtain ⟨s₁, hsteps, hs₁⟩ := h.sim.startElection h.elect hm'
    (by simpa [crown_nodes] using hlast) hcrown
  have hnext := h.elect.startElection hm' (by simpa [crown_nodes] using hballot)
    hask hcrown
  refine ⟨_, s₁, _, hsteps, ⟨?_, hnext.elect, hs₁⟩, ?_⟩
  · intro v k hv
    have hvi : v ≠ i := by
      rintro rfl
      simp at hv
    rw [Function.update_of_ne hvi] at hv
    subst hc'
    rw [← h.follower v k hv]
    exact congrArg _ (Cluster.set_of_ne _ _ hvi)
  · intro hcom _
    subst hc'
    refine h.commits (hsteps.inv_grows h.sim.inv).2 hcom (fun v ↦ Or.inl ?_) (fun m hm ↦ hm) rfl
    refine Idle.set ⟨hci, ?_, ?_⟩ v
    · rw [hm.logs]
    · rw [hm.currentTerm]
      exact Nat.le_succ _

omit [Storage σ C] in
theorem Alike.trans_same {m m' k k' : Consensus σ C P} (h : Alike m m') (hm : Same m k)
    (hm' : Same m' k') : Alike k k' where
  id := by rw [hm'.id, h.id, hm.id]
  peers := by rw [hm'.peers, h.peers, hm.peers]
  currentTerm := by rw [hm'.currentTerm, h.currentTerm, hm.currentTerm]
  votedFor := by rw [hm'.votedFor, h.votedFor, hm.votedFor]
  logs := by rw [hm'.logs, h.logs, hm.logs]
  role := by
    rw [hm'.state, hm.state, hm'.voteCount, hm.voteCount]
    exact h.role

omit [Storage σ C] in
theorem Same.crown {m m' : Consensus σ C P} (h : Same m m') (o : Option ℕ) :
    Same (m.crown o) (m'.crown o) := by
  obtain ⟨hid, hp, ht, hv, hc, hl, hs⟩ := h
  cases o with
  | none => exact ⟨hid, hp, ht, hv, hc, hl, hs⟩
  | some k => exact ⟨hid, hp, ht, hv, Eq.refl _, hl, Eq.refl _⟩

theorem Alike.persist_vote {m m' : Consensus σ C P} {o : Option ℕ} (h : Alike m (m'.crown o))
    (a : Option String) :
    Alike (persistState { m with votedFor := a })
      ((persistState { m' with votedFor := a }).crown o) := by
  cases o with
  | none => exact ⟨h.id, h.peers, h.currentTerm, Eq.refl _, h.logs, h.role⟩
  | some k => exact ⟨h.id, h.peers, h.currentTerm, Eq.refl _, h.logs, h.role⟩

theorem Alike.persist_logs {m m' : Consensus σ C P} {o : Option ℕ} (h : Alike m (m'.crown o))
    (logs : List (LogEntry C)) (ci ci' : Option ℕ) :
    Alike (persistState { m with logs := logs, commitIndex := ci, logIndex := logs.length })
      ((persistState
        { m' with logs := logs, commitIndex := ci', logIndex := logs.length }).crown o) := by
  cases o with
  | none => exact ⟨h.id, h.peers, h.currentTerm, h.votedFor, Eq.refl _, h.role⟩
  | some k => exact ⟨h.id, h.peers, h.currentTerm, h.votedFor, Eq.refl _, h.role⟩

/-- A crowned node votes like the follower that it is. -/
theorem alike_requestVote {m : Consensus σ C P} (hf : m.state = .follower) (k : ℕ)
    (req : RequestVote) :
    Alike ((m.crown (some k)).requestVote req).1
        ((m.requestVote req).1.crown (crownAfter m (some k) req.term)) ∧
      ((m.crown (some k)).requestVote req).2 = (m.requestVote req).2 := by
  have h := alike_stepDown m (some k) req.term
  have hterm := h.currentTerm
  have hvote := h.votedFor
  rw [crown_currentTerm] at hterm
  rw [crown_votedFor] at hvote
  have hleader : ¬ (m.crown (some k)).state = .dead := by simp [Consensus.crown]
  have hfollower : ¬ m.state = .dead := by simp [hf]
  rw [requestVote, if_neg hleader, requestVote, if_neg hfollower, crown_lastLog]
  dsimp only
  by_cases hgrant : req.term = (m.stepDown req.term).currentTerm ∧
      ((m.stepDown req.term).votedFor = none ∨
        (m.stepDown req.term).votedFor = some req.candidateId) ∧ upToDate req m.lastLog = true
  · rw [if_pos hgrant, if_pos (by rwa [← hterm, ← hvote])]
    exact ⟨h.persist_vote _, by rw [hterm]⟩
  · rw [if_neg hgrant, if_neg (by rwa [← hterm, ← hvote])]
    exact ⟨h, by rw [hterm]⟩

/-- A crowned node accepts entries like the follower that it is. -/
theorem alike_appendEntries {m : Consensus σ C P} (hf : m.state = .follower) (k : ℕ)
    (req : AppendEntries C) :
    Alike ((m.crown (some k)).appendEntries req).1
        ((m.appendEntries req).1.crown (crownAfter m (some k) req.term)) ∧
      ((m.crown (some k)).appendEntries req).2 = (m.appendEntries req).2 ∧
      (m.appendEntries req).1.commitIndex =
        ((m.crown (some k)).appendEntries req).1.commitIndex := by
  have h := (alike_stepDown m (some k) req.term).trans_same (same_noteLeader _ req)
    ((same_noteLeader (m.stepDown req.term) req).crown _)
  have hterm := h.currentTerm
  have hlogs := h.logs
  rw [crown_currentTerm] at hterm
  rw [crown_logs] at hlogs
  have hci : ((m.stepDown req.term).noteLeader req).commitIndex =
      (((m.crown (some k)).stepDown req.term).noteLeader req).commitIndex := by
    rw [noteLeader_commitIndex, noteLeader_commitIndex, stepDown_commitIndex,
      stepDown_commitIndex, crown_commitIndex]
  have hleader : ¬ (m.crown (some k)).state = .dead := by simp [Consensus.crown]
  have hfollower : ¬ m.state = .dead := by simp [hf]
  rw [appendEntries, if_neg hleader, appendEntries, if_neg hfollower]
  dsimp only
  by_cases hold : req.term < ((m.stepDown req.term).noteLeader req).currentTerm
  · rw [if_pos hold, if_pos (hterm ▸ hold)]
    exact ⟨h, by rw [hterm], hci⟩
  · rw [if_neg hold, if_neg (hterm ▸ hold), ← hlogs]
    by_cases hprev : prevOk ((m.stepDown req.term).noteLeader req).logs req.prevLogIndex
        req.prevLogTerm = false
    · rw [if_pos hprev, if_pos hprev]
      exact ⟨h, by rw [hterm], hci⟩
    · rw [if_neg hprev, if_neg hprev, ← hci]
      exact ⟨h.persist_logs _ _ _, by rw [hterm], rfl⟩

/-- The step of a node that stays a follower, and keeps its crown or loses it. -/
theorem Crowned.of_step_set (h : Crowned cfg c g s S) {l : Label n σ C} (hl : l.Alive)
    {Q : Prop} {d : Cluster n σ C} (hstep : (c.crown S).step l = some d)
    (hQ : Q → Counted cfg (c.crown S) l) {m x : Consensus σ C (Fin n)} {o : Option ℕ}
    (hn : c'.nodes = (c.set i m).nodes) (hd : d.nodes = ((c.crown S).set i x).nodes)
    (hm : m.state = .follower) (halike : Alike x (m.crown o))
    (hci : m.commitIndex = x.commitIndex) (hreq : c'.voteReqs = d.voteReqs)
    (hrep : c'.voteReplies = d.voteReplies) (happ : c'.appendReqs = d.appendReqs)
    (htr : c'.trace = d.trace) : Goes cfg c s Q c' := by
  refine h.of_step (T := Function.update S i o) hl hstep hQ (fun v k hv ↦ ?_) (fun v ↦ ?_)
    (fun v ↦ ?_) hreq hrep happ htr
  all_goals by_cases hvi : v = i
  · rw [hn, hvi, Cluster.set_self, hm]
  · rw [Function.update_of_ne hvi] at hv
    rw [hn, Cluster.set_of_ne _ _ hvi, h.follower v k hv]
  · subst hvi
    rw [hn, hd, Cluster.set_self, Cluster.set_self, Function.update_self]
    exact halike
  · rw [hn, hd, Cluster.set_of_ne _ _ hvi, Cluster.set_of_ne _ _ hvi,
      Function.update_of_ne hvi]
    exact .rfl
  · rw [hn, hd, hvi, Cluster.set_self, Cluster.set_self, hci]
  · rw [hn, hd, Cluster.set_of_ne _ _ hvi, Cluster.set_of_ne _ _ hvi, crown_nodes,
      crown_commitIndex]

theorem Goes.mono {Q Q' : Prop} (h : Goes cfg c s Q c') (hQ : Q' → Q) : Goes cfg c s Q' c' := by
  obtain ⟨g', s', S', hsteps, hcrowned, hcommits⟩ := h
  exact ⟨g', s', S', hsteps, hcrowned, fun hcom hq ↦ hcommits hcom (hQ hq)⟩

theorem stepDown_state {m : Consensus σ C P} (hf : m.state = .follower) (t : ℕ) :
    (m.stepDown t).state = .follower := by
  rw [stepDown]
  split
  · rfl
  · exact hf

theorem requestVote_state {m : Consensus σ C P} (hf : m.state = .follower) (req : RequestVote) :
    (m.requestVote req).1.state = .follower := by
  rcases m.requestVote_cases req with hr | ⟨-, -, -, hr⟩ | hr
  · rw [hr]
    exact hf
  · rw [hr]
    exact stepDown_state hf req.term
  · rw [hr]
    exact stepDown_state hf req.term

theorem appendEntries_state {m : Consensus σ C P} (hf : m.state = .follower)
    (req : AppendEntries C) : (m.appendEntries req).1.state = .follower := by
  rcases m.appendEntries_cases req with hr | ⟨m', reply, hr, -, hsame, -⟩ |
    ⟨m', hr, -, -, hsame, -⟩
  · rw [hr]
    exact hf
  · rw [hr, hsame.state]
    exact stepDown_state hf req.term
  · rw [hr, hsame.state]
    exact stepDown_state hf req.term

theorem Crowned.requestVote (h : Crowned cfg c g s S) {j k : ℕ} {a : VoteCall n}
    (ha : c.voteReqs[j]? = some a) (hk : S a.dst = some k) (hp : c.panicked a.dst = false) :
    Goes cfg c s True ({ c with voteReqs := c.voteReqs.eraseIdx j }.requestVote a) := by
  have hf := h.follower a.dst k hk
  obtain ⟨halike, hres⟩ := alike_requestVote hf k a.req
  have hstep : (c.crown S).step (.voteReq j) =
      some ({ c.crown S with voteReqs := c.voteReqs.eraseIdx j }.requestVote a) := by
    rw [Cluster.step, show (c.crown S).voteReqs[j]? = some a from ha]
    exact Cluster.on_eq_some.mpr ⟨hp, rfl⟩
  have hnode : (c.crown S).nodes a.dst = (c.nodes a.dst).crown (some k) := by
    rw [crown_nodes, hk]
  refine h.of_step_set (l := .voteReq j) trivial hstep (fun _ ↦ trivial) (i := a.dst)
    (m := ((c.nodes a.dst).requestVote a.req).1)
    (x := (((c.nodes a.dst).crown (some k)).requestVote a.req).1) rfl ?_
    (requestVote_state hf a.req) halike ?_ rfl ?_ rfl rfl
  · rw [← hnode]
    rfl
  · rw [(Idle.requestVote _ a.req).commitIndex, (Idle.requestVote _ a.req).commitIndex,
      crown_commitIndex]
  · rw [Cluster.requestVote, Cluster.requestVote]
    dsimp only
    rw [hnode, hres]
    rfl

theorem Crowned.appendEntries (h : Crowned cfg c g s S) {j k : ℕ} {a : EntriesCall n C}
    (ha : c.appendReqs[j]? = some a) (hk : S a.call.client = some k)
    (hp : c.panicked a.call.client = false) :
    Goes cfg c s True ({ c with appendReqs := c.appendReqs.eraseIdx j }.appendEntries a) := by
  have hf := h.follower a.call.client k hk
  obtain ⟨halike, hres, hci⟩ := alike_appendEntries hf k a.call.req
  have hstep : (c.crown S).step (.appendReq j) =
      some ({ c.crown S with appendReqs := c.appendReqs.eraseIdx j }.appendEntries a) := by
    rw [Cluster.step, show (c.crown S).appendReqs[j]? = some a from ha]
    exact Cluster.on_eq_some.mpr ⟨hp, rfl⟩
  have hnode : (c.crown S).nodes a.call.client = (c.nodes a.call.client).crown (some k) := by
    rw [crown_nodes, hk]
  refine h.of_step_set (l := .appendReq j) trivial hstep (fun _ ↦ trivial) (i := a.call.client)
    (m := ((c.nodes a.call.client).appendEntries a.call.req).1)
    (x := (((c.nodes a.call.client).crown (some k)).appendEntries a.call.req).1)
    (Cluster.appendEntries_nodes _ a) ?_ (appendEntries_state hf a.call.req) halike hci ?_ ?_ ?_ ?_
  · rw [Cluster.appendEntries_nodes, ← hnode]
    rfl
  -- The messages and the trace depend on the answer only.
  all_goals
    rw [Cluster.appendEntries, Cluster.appendEntries]
    dsimp only
    rw [hnode, ← Prod.eta (((c.nodes a.call.client).crown (some k)).appendEntries a.call.req),
      hres]
    rcases (c.nodes a.call.client).appendEntries a.call.req with ⟨m, res⟩
    cases res <;> rfl

omit [Storage σ C] in
theorem Cluster.sendCommit_state (c : Cluster n σ C) (i v : Fin n) :
    ((c.sendCommit i).nodes v).state = (c.nodes v).state := by
  rw [Cluster.sendCommit]
  cases hm : (c.nodes i).sendCommits with
  | none => rfl
  | some p =>
    obtain ⟨la, hla⟩ := sendCommits_node _ hm
    by_cases hvi : v = i
    · rw [hvi]
      dsimp only
      rw [Cluster.set_self, hla]
    · exact congrArg _ (Cluster.set_of_ne _ _ hvi)

/-- The reply to a request that it sent as a leader, makes a follower at most step down. -/
theorem handleAeRes_follower {m m' : Consensus σ C P} (hf : m.state = .follower) {peerId ni : ℕ}
    {reply : AppendEntriesReply} (h : m.handleAeRes peerId ni reply = some m') :
    m.stepDown reply.term = m' := by
  rw [handleAeRes] at h
  rw [stepDown]
  split at h
  · rw [if_pos ‹_›]
    exact Option.some_inj.mp h
  · rw [if_neg ‹_›]
    cases hs : sliceFrom m.logs ni with
    | none => simp [hs] at h
    | some l => simpa [hs, hf] using h

/-- The step of a crowned node. -/
theorem Crowned.step_of_some (h : Crowned cfg c g s S) {l : Label n σ C} (hl : l.Alive)
    {op : Op C} (hask : c.ask l = some (i, op)) {k : ℕ} (hk : S i = some k)
    (hs : c.step l = some c') : Goes cfg c s True c' := by
  have hf := h.follower i k hk
  have hlead : (c.nodes i).state ≠ .leader := by simp [hf]
  cases l with
  | restart j left => exact absurd hl id
  | crashVote k left => exact absurd hl id
  | crashAppend k left => exact absurd hl id
  | startElection j elapsed =>
    obtain ⟨rfl, -⟩ := Prod.mk.inj (Option.some_inj.mp hask)
    obtain ⟨-, rfl⟩ := Cluster.on_eq_some.mp hs
    rw [Cluster.startElection]
    rcases (c.nodes j).onStartElection_cases elapsed with hr | hr | ⟨m, hr, hm, hci⟩
    · rw [hr]
      exact h.still rfl (List.Sublist.refl _) rfl (fun m hm ↦ hm) rfl
    · rw [hr]
      refine h.still ?_ ?_ rfl (fun m hm ↦ hm) rfl
      · exact Function.update_eq_self j c.nodes
      · simp
    · rw [hr]
      refine h.startElection hm hci ?_ ?_ ?_ rfl
      · rw [← h.elect.peers j, crown_nodes, crown_peers,
          ← show m.peers = (c.nodes j).peers from hm.peers]
        simp [VoteCall.ballot]
      · intro r hr
        simp only [List.map_map, List.mem_map] at hr
        obtain ⟨p, -, rfl⟩ := hr
        exact (crown_id _ _).symm.trans (h.elect.id j)
      · intro r hr
        simp only [List.map_map, List.mem_map] at hr
        obtain ⟨p, -, rfl⟩ := hr
        exact ⟨rfl, rfl⟩
  | submit j cmd =>
    obtain ⟨rfl, -⟩ := Prod.mk.inj (Option.some_inj.mp hask)
    obtain ⟨-, rfl⟩ := Cluster.on_eq_some.mp hs
    rw [Cluster.submit, onSubmit, if_neg hlead, Cluster.set_eq_self]
    exact h.still rfl (List.Sublist.refl _) rfl (fun m hm ↦ hm) rfl
  | sendAes j =>
    obtain ⟨rfl, -⟩ := Prod.mk.inj (Option.some_inj.mp hask)
    obtain ⟨-, rfl⟩ := Cluster.on_eq_some.mp hs
    rw [Cluster.sendAes, sendLeaderAes, if_neg hlead]
    refine h.still ?_ (List.Sublist.refl _) rfl (fun m hm ↦ ?_) rfl
    · exact Function.update_eq_self j c.nodes
    · simpa using hm
  | sendCommit j =>
    obtain ⟨hp, rfl⟩ := Cluster.on_eq_some.mp hs
    have hstep : (c.crown S).step (.sendCommit j) = some ((c.sendCommit j).crown S) :=
      Cluster.on_eq_some.mpr ⟨hp, crown_sendCommit c S j⟩
    refine h.of_step (l := .sendCommit j) trivial hstep (fun _ ↦ trivial) (T := S) ?_
      (fun v ↦ .rfl) (fun v ↦ ?_) rfl rfl rfl rfl
    · intro v x hv
      rw [Cluster.sendCommit_state]
      exact h.follower v x hv
    · rw [crown_nodes, crown_commitIndex]
  | voteReq j =>
    simp only [Cluster.ask, Option.map_eq_some_iff] at hask
    obtain ⟨a, ha, heq⟩ := hask
    obtain ⟨rfl, -⟩ := Prod.mk.inj heq
    simp only [Cluster.step, ha, Option.bind_eq_bind, Option.bind_some] at hs
    obtain ⟨hp, rfl⟩ := Cluster.on_eq_some.mp hs
    exact h.requestVote ha hk hp
  | voteReply j =>
    simp only [Cluster.ask, Option.map_eq_some_iff] at hask
    obtain ⟨a, ha, heq⟩ := hask
    obtain ⟨rfl, -⟩ := Prod.mk.inj heq
    simp only [Cluster.step, ha, Option.bind_eq_bind, Option.bind_some] at hs
    obtain ⟨hp, rfl⟩ := Cluster.on_eq_some.mp hs
    have hstep : (c.crown S).step (.voteReply j) =
        some { c.crown S with voteReplies := c.voteReplies.eraseIdx j } := by
      rw [Cluster.step, show (c.crown S).voteReplies[j]? = some a from ha]
      refine Cluster.on_eq_some.mpr ⟨hp, ?_⟩
      rw [Cluster.voteResult, onVoteResult, if_pos (by simp [crown_nodes, hk, Consensus.crown])]
      exact Cluster.set_eq_self _ _
    have hstill : { c with voteReplies := c.voteReplies.eraseIdx j }.voteResult a =
        { c with voteReplies := c.voteReplies.eraseIdx j } := by
      rw [Cluster.voteResult, onVoteResult, if_pos (by simp [hf])]
      exact Cluster.set_eq_self _ _
    rw [hstill]
    exact h.of_step (l := .voteReply j) trivial hstep (fun _ ↦ trivial) (T := S) h.follower
      (fun v ↦ .rfl) (fun v ↦ by rw [crown_nodes, crown_commitIndex]) rfl rfl rfl rfl
  | appendReq j =>
    simp only [Cluster.ask, Option.map_eq_some_iff] at hask
    obtain ⟨a, ha, heq⟩ := hask
    obtain ⟨rfl, -⟩ := Prod.mk.inj heq
    simp only [Cluster.step, ha, Option.bind_eq_bind, Option.bind_some] at hs
    obtain ⟨hp, rfl⟩ := Cluster.on_eq_some.mp hs
    exact h.appendEntries ha hk hp
  | appendReply j =>
    simp only [Cluster.ask, Option.map_eq_some_iff] at hask
    obtain ⟨a, ha, heq⟩ := hask
    obtain ⟨rfl, -⟩ := Prod.mk.inj heq
    simp only [Cluster.step, ha, Option.bind_eq_bind, Option.bind_some] at hs
    obtain ⟨hp, rfl⟩ := Cluster.on_eq_some.mp hs
    rw [Cluster.aeRes]
    dsimp only
    cases hr : (c.nodes a.call.src).handleAeRes a.call.call.peerId a.call.call.ni a.reply with
    | none => exact h.still rfl (List.Sublist.refl _) rfl (fun m hm ↦ hm) rfl
    | some m =>
      rcases handleAeRes_follower hf hr with rfl
      exact h.stepDown a.call.src a.reply.term rfl (List.Sublist.refl _) rfl (fun m hm ↦ hm) rfl

/-! ## Crashes -/

/-- The storage gives the node back its term, its vote and its log. -/
def GivesBack (st : σ) (m : Consensus σ C P) : Prop :=
  (Storage.restore st).map (fun p ↦ (p.1.currentTerm, p.1.votedFor, p.2)) =
    some (m.currentTerm, m.votedFor, m.logs)

instance [DecidableEq C] (st : σ) (m : Consensus σ C P) : Decidable (GivesBack st m) :=
  inferInstanceAs (Decidable (_ = _))

/-- A crash in this step leaves a storage that gives the node back what it had. -/
def Faithful (c : Cluster n σ C) : Label n σ C → Prop
  | .restart i left => GivesBack left (c.nodes i)
  | .crashVote k left => ∀ m ∈ c.voteReqs[k]?,
    GivesBack left ((c.nodes m.dst).stepDown m.req.term)
  | .crashAppend k left => ∀ m ∈ c.appendReqs[k]?,
    GivesBack left ((c.nodes m.call.client).stepDown m.call.req.term)
  | _ => True

instance [DecidableEq C] (c : Cluster n σ C) : (l : Label n σ C) → Decidable (Faithful c l)
  | .restart i left => inferInstanceAs (Decidable (GivesBack left (c.nodes i)))
  | .crashVote k left => inferInstanceAs (Decidable (∀ m ∈ c.voteReqs[k]?,
    GivesBack left ((c.nodes m.dst).stepDown m.req.term)))
  | .crashAppend k left => inferInstanceAs (Decidable (∀ m ∈ c.appendReqs[k]?,
    GivesBack left ((c.nodes m.call.client).stepDown m.call.req.term)))
  | .startElection _ _ | .submit _ _ | .sendAes _ | .sendCommit _ | .voteReq _ | .voteReply _
  | .appendReq _ | .appendReply _ => inferInstanceAs (Decidable True)

/-- A node that starts again is a follower with the log it had. -/
theorem GivesBack.reboot {st : σ} {m : Consensus σ C P} (h : GivesBack st m) :
    (m.reboot st).currentTerm = m.currentTerm ∧ (m.reboot st).votedFor = m.votedFor ∧
      (m.reboot st).logs = m.logs ∧ (m.reboot st).commitIndex = none ∧
      (m.reboot st).state = .follower := by
  obtain ⟨⟨old, logs⟩, hr, heq⟩ := Option.map_eq_some_iff.mp h
  obtain ⟨ht, hv, hl⟩ : old.currentTerm = m.currentTerm ∧ old.votedFor = m.votedFor ∧
      logs = m.logs := by simpa using heq
  have hnew : (m.reboot st) = { m.reboot st with
      currentTerm := old.currentTerm, votedFor := old.votedFor, logs := logs,
      commitIndex := none, state := .follower } := by
    rw [Consensus.reboot, Consensus.new, restoreState]
    simp only [hr]
  rw [hnew]
  exact ⟨ht, hv, hl, rfl, rfl⟩

/-- A leader that starts again is crowned for it. -/
theorem GivesBack.alike {st : σ} {m : Consensus σ C P} (h : GivesBack st m) {o : Option ℕ}
    (ho : ∀ k, o = some k → m.state = .follower) :
    Alike (m.crown o)
      ((m.reboot st).crown (if m.state = .leader then some m.voteCount else o)) := by
  obtain ⟨ht, hv, hl, -, hs⟩ := h.reboot
  have hid : (m.reboot st).id = m.id := new_id m.id st
  cases o with
  | none =>
    split
    · exact ⟨hid, rfl, ht, hv, hl, Or.inr ⟨(‹m.state = .leader›).symm, rfl⟩⟩
    · exact ⟨hid, rfl, ht, hv, hl, Or.inl ⟨hs, ‹_›⟩⟩
  | some k =>
    rw [if_neg (by simp [ho k rfl])]
    exact ⟨hid, rfl, ht, hv, hl, Or.inr ⟨rfl, rfl⟩⟩

theorem Crowned.reboot (h : Crowned cfg c g s S) {left : σ} (hleft : GivesBack left (c.nodes i))
    (hn : c'.nodes = (c.set i ((c.nodes i).reboot left)).nodes) (hreq : c'.voteReqs = c.voteReqs)
    (hrep : c'.voteReplies = c.voteReplies) (happ : c'.appendReqs = c.appendReqs)
    (htr : c'.trace = c.trace) : Goes cfg c s True c' := by
  let o := if (c.nodes i).state = .leader then some (c.nodes i).voteCount else S i
  have hself : c'.nodes i = (c.nodes i).reboot left := by rw [hn, Cluster.set_self]
  have hother : ∀ v, v ≠ i → c'.nodes v = c.nodes v := fun v hv ↦ by
    rw [hn, Cluster.set_of_ne _ _ hv]
  refine .of_alike (T := Function.update S i o) .refl h.elect h.sim (fun v k hv ↦ ?_)
    (fun v ↦ ?_) (hreq ▸ List.Sublist.refl _) hrep (fun m hm ↦ happ ▸ hm)
    (fun v t req hm ↦ htr ▸ hm) fun hcom _ ↦ ?_
  · by_cases hvi : v = i
    · rw [hvi, hself]
      exact hleft.reboot.2.2.2.2
    · rw [Function.update_of_ne hvi] at hv
      rw [hother v hvi]
      exact h.follower v k hv
  · by_cases hvi : v = i
    · subst hvi
      rw [hself, Function.update_self]
      exact hleft.alike (h.follower v)
    · rw [hother v hvi, Function.update_of_ne hvi]
      exact .rfl
  · refine h.commits .rfl hcom (fun v ↦ ?_) (fun m hm ↦ happ ▸ hm) htr
    by_cases hvi : v = i
    · rw [hvi, hself]
      exact Or.inr hleft.reboot.2.2.2.1
    · rw [hother v hvi]
      exact Or.inl .rfl

theorem Goes.trans {Q : Prop} {d : Cluster n σ C} (h : Goes cfg c s Q d)
    (h' : ∀ g s S, Crowned cfg d g s S → Goes cfg d s Q c') : Goes cfg c s Q c' := by
  obtain ⟨g₁, s₁, S₁, hsteps, hcrowned, hcommits⟩ := h
  obtain ⟨g₂, s₂, S₂, hsteps', hcrowned', hcommits'⟩ := h' g₁ s₁ S₁ hcrowned
  exact ⟨g₂, s₂, S₂, hsteps.trans hsteps', hcrowned', fun hcom hq ↦
    hcommits' (hcommits hcom hq) hq⟩

/-- A node crashes while it handles a request, after it stepped down. -/
theorem Crowned.crash (h : Crowned cfg c g s S) {t : ℕ} {left : σ}
    (hleft : GivesBack left ((c.nodes i).stepDown t))
    (hn : c'.nodes = (c.set i (((c.nodes i).stepDown t).reboot left)).nodes)
    (hreq : c'.voteReqs.Sublist c.voteReqs) (hrep : c'.voteReplies = c.voteReplies)
    (happ : ∀ m ∈ c'.appendReqs, m ∈ c.appendReqs) (htr : c'.trace = c.trace) :
    Goes cfg c s True c' := by
  let d := { c' with nodes := (c.set i ((c.nodes i).stepDown t)).nodes }
  have hd : d.nodes i = (c.nodes i).stepDown t := c.set_self i _
  have hdown : Goes cfg c s True d := h.stepDown i t rfl hreq hrep happ htr
  have hback : GivesBack left (d.nodes i) := hd.symm ▸ hleft
  refine hdown.trans fun g s S hcr ↦ hcr.reboot hback ?_ rfl rfl rfl rfl
  rw [hn, hd]
  exact (Function.update_idem _ _ _).symm

/-- **The simulation, with crashes.** -/
theorem Crowned.step (h : Crowned cfg c g s S) {l : Label n σ C} (hl : Faithful c l)
    (hs : c.step l = some c') : Goes cfg c s (l.Alive → Counted cfg c l) c' := by
  by_cases ha : l.Alive
  · obtain ⟨i, op, hask, -, -⟩ := Cluster.step_handle ha hs
    cases hi : S i with
    | none => exact (h.step_of_none ha hask hi hs).mono fun hq ↦ hq ha
    | some k => exact (h.step_of_some ha hask hi hs).mono fun _ ↦ trivial
  · cases l with
    | restart i left =>
      obtain ⟨-, rfl⟩ := Cluster.step_restart hs
      exact Goes.mono (h.reboot hl rfl rfl rfl rfl rfl) fun _ ↦ trivial
    | crashVote k left =>
      obtain ⟨m, hm, -, rfl⟩ := Cluster.step_crashVote hs
      exact Goes.mono (h.crash (hl m hm) rfl (c.voteReqs.eraseIdx_sublist k) rfl (fun a ha ↦ ha)
        rfl) fun _ ↦ trivial
    | crashAppend k left =>
      obtain ⟨m, hm, -, rfl⟩ := Cluster.step_crashAppend hs
      exact Goes.mono (h.crash (hl m hm) rfl (List.Sublist.refl _) rfl
        (fun a ha ↦ List.mem_of_mem_eraseIdx ha) rfl) fun _ ↦ trivial
    | _ => exact absurd trivial ha

/-! ## Runs with crashes -/

theorem Crowned.init (hf : cfg.Fresh) :
    Crowned cfg cfg.init (record cfg.init fun _ _ ↦ none) (Raft.State.init (Fin n) (LogEntry C))
      fun _ ↦ none where
  follower _ _ h := nomatch h
  elect := Elect.init cfg
  sim := Sim.init hf

theorem Cluster.Run.crowned (hf : cfg.Fresh) {r : List (Cluster n σ C)}
    (h : Cluster.Run cfg Faithful r) : ∀ c ∈ r, ∃ g s S, Crowned cfg c g s S := by
  refine h.inv ⟨_, _, _, .init hf⟩ fun c l c' ⟨g, s, S, hc⟩ hl hs ↦ ?_
  obtain ⟨g', s', S', -, hc', -⟩ := hc.step hl hs
  exact ⟨g', s', S', hc'⟩

/-- **Log matching, with crashes.**  As long as nodes that start again have their term, their vote
and their log, two logs that agree in the term of an entry are the same up to that entry. -/
theorem log_matching_restarts (cfg : Config n σ C) (hf : cfg.Fresh) {r : List (Cluster n σ C)}
    (h : Cluster.Run cfg Faithful r) (hc : c ∈ r) (a b : Fin n) {i : ℕ} {e f : LogEntry C}
    (he : (c.nodes a).logs[i]? = some e) (hfi : (c.nodes b).logs[i]? = some f)
    (ht : e.term = f.term) : (c.nodes a).logs.take (i + 1) = (c.nodes b).logs.take (i + 1) := by
  obtain ⟨g, s, S, hcr⟩ := h.crowned hf c hc
  have hlog : ∀ v, s.log v = (c.nodes v).logs := fun v ↦ by
    rw [hcr.sim.log, crown_nodes, crown_logs]
  have ha := hcr.sim.inv.log_rooted a
  have hb := hcr.sim.inv.log_rooted b
  rw [hlog] at ha hb
  exact ha.matching hb i e f he hfi ht

/-- A leader starts again with the entry it had, and is elected again and adds another. -/
theorem log_matching_restarts_trio :
    let c := trioEnd Faithful [.startElection 0 true, .voteReq 0, .voteReply 0, .submit 0 7,
      .sendAes 0, .appendReq 0, .restart 0 ⟨⟨1, some "a", none⟩, [⟨7, 1⟩]⟩, .startElection 0 true,
      .voteReq 1, .voteReply 0, .submit 0 8, .sendAes 0, .appendReq 1]
    (c.nodes 0).logs.take 2 = [⟨7, 1⟩, ⟨8, 2⟩] ∧
      (c.nodes 0).logs.take 2 = (c.nodes 1).logs.take 2 := by
  refine ⟨by decide, ?_⟩
  exact log_matching_restarts trio trio_fresh (run_trioRun Faithful _ (by decide))
    List.mem_cons_self 0 1 (i := 1) (e := ⟨8, 2⟩) (f := ⟨8, 2⟩) (by decide) (by decide) rfl

/-- Crashes leave what the node had, and the replies are counted right. -/
def Lasting (cfg : Config n σ C) (c : Cluster n σ C) (l : Label n σ C) : Prop :=
  Faithful c l ∧ (l.Alive → Counted cfg c l)

instance [DecidableEq C] (cfg : Config n σ C) (c : Cluster n σ C) (l : Label n σ C) :
    Decidable (Lasting cfg c l) :=
  inferInstanceAs (Decidable (_ ∧ _))

theorem Crowned.led (h : Crowned cfg c g s S) {j : Fin n} (hj : (c.nodes j).state = .leader) :
    Led s c j := by
  have hnone : S j = none := by
    by_contra hne
    obtain ⟨k, hk⟩ := Option.ne_none_iff_exists'.mp hne
    rw [h.follower j k hk] at hj
    cases hj
  have hled := h.sim.led (j := j) (by rw [crown_nodes_of_none hnone]; exact hj)
  obtain ⟨hbase, hlog, hacks⟩ := hled
  rw [crown_nodes_of_none hnone] at hbase hlog hacks
  exact ⟨hbase, hlog, hacks⟩

/-- What is known at the end of a run of all the moments in it. -/
theorem Cluster.Run.lasting (hf : cfg.Fresh) {r : List (Cluster n σ C)}
    (h : Cluster.Run cfg (Lasting cfg) r) :
    ∃ g s S, (∀ c ∈ r.head?, Crowned cfg c g s S ∧ Commits c s) ∧
      ∀ d ∈ r, (∀ j, (d.nodes j).state = .leader → Led s d j) ∧
        ∀ v ci, (d.nodes v).commitIndex = some ci →
          Committed s (d.nodes v).logs ci (d.nodes v).currentTerm := by
  induction h with
  | init =>
    refine ⟨record cfg.init fun _ _ ↦ none, Raft.State.init _ _, fun _ ↦ none, fun c hc ↦ ?_,
      fun d hd ↦ ?_⟩
    · rw [List.head?_cons, Option.mem_some_iff] at hc
      exact hc ▸ ⟨Crowned.init hf, Commits.init hf⟩
    · rw [List.mem_singleton.mp hd]
      exact ⟨fun j hj ↦ (Crowned.init hf).led hj, (Commits.init hf).node⟩
  | @step c c' r l hr hok hs ih =>
    obtain ⟨g, s, S, hhead, hall⟩ := ih
    obtain ⟨hcr, hcom⟩ := hhead c rfl
    obtain ⟨g', s', S', hsteps, hcr', hcom'⟩ := hcr.step hok.1 hs
    obtain ⟨-, hgr⟩ := hsteps.inv_grows hcr.sim.inv
    refine ⟨g', s', S', fun d hd ↦ ?_, fun d hd ↦ ?_⟩
    · rw [List.head?_cons, Option.mem_some_iff] at hd
      exact hd ▸ ⟨hcr', hcom' hcom hok.2⟩
    · rcases List.mem_cons.mp hd with rfl | hd
      · exact ⟨fun j hj ↦ hcr'.led hj, (hcom' hcom hok.2).node⟩
      · exact ⟨fun j hj ↦ ((hall d hd).1 j hj).grows hgr,
          fun v ci hci ↦ ((hall d hd).2 v ci hci).grows hcr.sim.inv hgr⟩

/-- **Nothing committed is lost, with crashes.**  What some node has committed at some moment is
in the log of whoever leads a later term at any moment, and all entries ever emitted under one
index, before crashes and after, carry the same command. -/
theorem committed_survives (cfg : Config n σ C) (hf : cfg.Fresh) {r : List (Cluster n σ C)}
    (h : Cluster.Run cfg (Lasting cfg) (c :: r)) :
    (∀ d ∈ c :: r, ∀ d' ∈ c :: r, ∀ v j ci, (d.nodes v).commitIndex = some ci →
      (d'.nodes j).state = .leader → (d.nodes v).currentTerm < (d'.nodes j).currentTerm →
        ci < (d.nodes v).logs.length ∧ (d.nodes v).logs.take (ci + 1) <+: (d'.nodes j).logs) ∧
    ∀ v w, ∀ e ∈ c.emitted v, ∀ e' ∈ c.emitted w, e.index = e'.index →
      e.command = e'.command := by
  obtain ⟨g, s, S, hhead, hall⟩ := h.lasting hf
  obtain ⟨hcr, hcom⟩ := hhead c rfl
  constructor
  · intro d hd d' hd' v j ci hci hj hlt
    obtain ⟨hlen, t, k, hconf, hle, hpre⟩ := (hall d hd).2 v ci hci
    obtain ⟨b, hb, hbl⟩ := ((hall d' hd').1 j hj).base
    exact ⟨hlen, hpre.trans ((hcr.sim.inv.complete hconf _ b (hle.trans_lt hlt) hb).trans hbl)⟩
  · intro v w e he e' he' hidx
    exact (commits_crown.mpr hcom).command_eq hcr.sim he he' hidx

/-- A leader commits an entry and crashes.  It votes for the next one, which has the entry. -/
theorem committed_survives_trio :
    let c := trioEnd (Lasting trio) [.startElection 0 true, .voteReq 0, .voteReply 0,
      .submit 0 7, .sendAes 0, .appendReq 1, .appendReply 0, .sendCommit 0, .sendAes 0,
      .appendReq 2, .appendReq 0, .restart 0 ⟨⟨1, some "a", none⟩, [⟨7, 1⟩]⟩, .sendCommit 2,
      .startElection 1 true, .voteReq 1, .voteReply 0]
    (c.nodes 2).logs.take 1 <+: (c.nodes 1).logs ∧ c.emitted 0 = [⟨7, 1, 0⟩] ∧
      c.emitted 2 = [⟨7, 1, 0⟩] ∧ (7 : ℕ) = 7 := by
  intro c
  have h := committed_survives trio trio_fresh (run_trioRun (Lasting trio) [.startElection 0 true,
    .voteReq 0, .voteReply 0, .submit 0 7, .sendAes 0, .appendReq 1, .appendReply 0,
    .sendCommit 0, .sendAes 0, .appendReq 2, .appendReq 0,
    .restart 0 ⟨⟨1, some "a", none⟩, [⟨7, 1⟩]⟩, .sendCommit 2, .startElection 1 true, .voteReq 1,
    .voteReply 0] (by decide))
  have he : c.emitted 0 = [⟨7, 1, 0⟩] := by decide
  have he' : c.emitted 2 = [⟨7, 1, 0⟩] := by decide
  refine ⟨?_, he, he', ?_⟩
  · exact (h.1 c List.mem_cons_self c List.mem_cons_self 2 1 0 (by decide) (by decide)
      (by decide)).2
  · exact h.2 0 2 ⟨7, 1, 0⟩ (he ▸ List.mem_cons_self) ⟨7, 1, 0⟩ (he' ▸ List.mem_cons_self) rfl

end Efis
