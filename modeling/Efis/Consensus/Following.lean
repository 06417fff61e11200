import Efis.Consensus.Leadership
import Efis.Transition.Reach

/-!
# Whom a node takes for the leader

The process-wide `LEADER_ID` is written in three places: stepping down clears it, winning an
election sets it to the node itself, and a *follower* that hears from a leader of its term sets it
to that leader.  `Turn` lists what a message can do to it and to the role, and everything here is
read off that list.

The gate of the server compares it with the id of the node.  The two agree exactly on a leader
(`Hinted`), because requests carry the id of the node they come from, and no node sends requests to
itself.

Following is another matter.  A candidate that gets a request of its own term merges the entries and
resets its timer, but it stays a candidate, and its `LEADER_ID` is what it was.  In all other cases
whoever handles the request follows its sender, and goes on to do so while it stays in the term: a
later request of the term comes from the same leader.

Neither needs the absence of crashes, only that a restarted node is not the one that is looked at.
-/

set_option autoImplicit false

namespace Efis

open Consensus

variable {n : ℕ} {σ C P : Type}

/-! ## What a message does to the role -/

/-- What became of the role, the term and the leader of a node over a message. -/
inductive Turn (m m' : Consensus σ C P) : Op C → Prop
  | stays {op : Op C} (state : m'.state = m.state) (leaderId : m'.leaderId = m.leaderId)
      (currentTerm : m'.currentTerm = m.currentTerm) : Turn m m' op
  | stepsDown {op : Op C} (state : m'.state = .follower) (leaderId : m'.leaderId = none)
      (currentTerm : m.currentTerm < m'.currentTerm) : Turn m m' op
  | stands {op : Op C} (old : m.state ≠ .leader) (state : m'.state = .candidate)
      (leaderId : m'.leaderId = m.leaderId) (currentTerm : m.currentTerm < m'.currentTerm) :
      Turn m m' op
  | wins {op : Op C} (old : m.state = .candidate) (state : m'.state = .leader)
      (leaderId : m'.leaderId = some m.id) (currentTerm : m'.currentTerm = m.currentTerm)
      (filed : m'.matchIndex = fileAll m.peers m.matchIndex 0) : Turn m m' op
  | hears (req : AppendEntries C) (state : m'.state = .follower)
      (leaderId : m'.leaderId = some req.leader) (currentTerm : m'.currentTerm = req.term)
      (le : m.currentTerm ≤ req.term) : Turn m m' (.appendEntries req)

/-- The id and the peers of a node never change. -/
structure Twin (m m' : Consensus σ C P) : Prop where
  id : m'.id = m.id
  peers : m'.peers = m.peers

theorem Twin.of_same {m m' : Consensus σ C P} (h : Same m m') : Twin m m' := ⟨h.id, h.peers⟩

section

variable [Storage σ C] (m : Consensus σ C P)

/-- After a request the role, the leader and the term are those the node had once it noted the
leader. -/
theorem appendEntries_noted (req : AppendEntries C) (hd : m.state ≠ .dead) :
    (m.appendEntries req).1.state = ((m.stepDown req.term).noteLeader req).state ∧
      (m.appendEntries req).1.leaderId = ((m.stepDown req.term).noteLeader req).leaderId ∧
      (m.appendEntries req).1.currentTerm = ((m.stepDown req.term).noteLeader req).currentTerm := by
  simp only [appendEntries, if_neg hd]
  split
  · exact ⟨rfl, rfl, rfl⟩
  · split <;> exact ⟨rfl, rfl, rfl⟩

/-- A node that follows, or has to, takes the sender for its leader. -/
theorem appendEntries_follows {req : AppendEntries C} (hd : m.state ≠ .dead)
    (hle : m.currentTerm ≤ req.term) (h : m.currentTerm < req.term ∨ m.state = .follower) :
    (m.appendEntries req).1.state = .follower ∧
      (m.appendEntries req).1.leaderId = some req.leader ∧
      (m.appendEntries req).1.currentTerm = req.term := by
  obtain ⟨hs, hl, ht⟩ := appendEntries_noted m req hd
  have hstate : (m.stepDown req.term).state = .follower := by
    rw [stepDown]
    split
    · rfl
    · rename_i hlt
      exact h.resolve_left hlt
  have hterm : (m.stepDown req.term).currentTerm = req.term := by
    rw [stepDown_currentTerm, max_eq_right hle]
  rw [noteLeader, if_pos ⟨hterm.le, hstate⟩] at hs hl ht
  exact ⟨hs.trans hstate, hl, ht.trans hterm⟩

/-- Everybody else stays as it is: a node of a later term, and a candidate or leader of the term of
the request. -/
theorem appendEntries_stays {req : AppendEntries C} (hle : req.term ≤ m.currentTerm)
    (h : req.term < m.currentTerm ∨ m.state ≠ .follower) :
    (m.appendEntries req).1.state = m.state ∧
      (m.appendEntries req).1.leaderId = m.leaderId ∧
      (m.appendEntries req).1.currentTerm = m.currentTerm := by
  by_cases hd : m.state = .dead
  · rw [appendEntries, if_pos hd]
    exact ⟨rfl, rfl, rfl⟩
  · have hdown : m.stepDown req.term = m := by rw [stepDown, if_neg (by omega)]
    have hnote : m.noteLeader req = m := by
      rw [noteLeader, if_neg]
      rintro ⟨ht, hs⟩
      rcases h with h | h
      · omega
      · exact h hs
    have hnoted := appendEntries_noted m req hd
    rwa [hdown, hnote] at hnoted

theorem Turn.appendEntries (req : AppendEntries C) :
    Turn m (m.appendEntries req).1 (.appendEntries req) := by
  by_cases hd : m.state = .dead
  · rw [Consensus.appendEntries, if_pos hd]
    exact .stays rfl rfl rfl
  · rcases lt_trichotomy m.currentTerm req.term with hlt | heq | hgt
    · obtain ⟨hs, hl, ht⟩ := appendEntries_follows m hd hlt.le (Or.inl hlt)
      exact .hears req hs hl ht hlt.le
    · by_cases hf : m.state = .follower
      · obtain ⟨hs, hl, ht⟩ := appendEntries_follows m hd heq.le (Or.inr hf)
        exact .hears req hs hl ht heq.le
      · obtain ⟨hs, hl, ht⟩ := appendEntries_stays m heq.ge (Or.inr hf)
        exact .stays hs hl ht
    · obtain ⟨hs, hl, ht⟩ := appendEntries_stays m hgt.le (Or.inl hgt)
      exact .stays hs hl ht

theorem Turn.stepDown (t : ℕ) (op : Op C) : Turn m (m.stepDown t) op := by
  rw [Consensus.stepDown]
  split
  · rename_i h
    exact .stepsDown rfl rfl h
  · exact .stays rfl rfl rfl

variable {m} {m' : Consensus σ C P}

/-- **What a message does to the role, to the term and to the leader.** -/
theorem Turn.handle {op : Op C} (h : m.handle op = some m') : Turn m m' op := by
  cases op with
  | startElection elapsed =>
    obtain ⟨⟨c, reqs⟩, hc, rfl⟩ := Option.map_eq_some_iff.mp h
    rw [onStartElection] at hc
    split at hc
    · rename_i hrole
      rw [startElection] at hc
      split at hc
      · obtain ⟨rfl, -⟩ := Prod.mk.inj (Option.some_inj.mp hc)
        refine .stands ?_ rfl rfl (Nat.lt_succ_self _)
        rcases hrole.1 with hr | hr <;> rw [hr] <;> decide
      · cases hc
    · obtain ⟨rfl, -⟩ := Prod.mk.inj (Option.some_inj.mp hc)
      exact .stays rfl rfl rfl
  | voteResult term voted =>
    obtain rfl := Option.some_inj.mp h
    rcases m.onVoteResult_cases term voted with h | ⟨ht, h⟩ | ⟨-, -, -, h⟩ | ⟨hc, -, -, -, h⟩
    · rw [h]
      exact .stays rfl rfl rfl
    · rw [h]
      exact .stepsDown rfl rfl ht
    · rw [h]
      exact .stays rfl rfl rfl
    · rw [h]
      exact .wins hc rfl rfl rfl rfl
  | requestVote req =>
    obtain rfl := Option.some_inj.mp h
    rcases m.requestVote_cases req with h | ⟨-, -, -, h⟩ | h
    · rw [h]
      exact .stays rfl rfl rfl
    · rw [h]
      -- the vote that is cast afterwards shows in neither of the three
      cases Turn.stepDown m req.term (.requestVote req) with
      | stays hs hl ht => exact .stays hs hl ht
      | stepsDown hs hl ht => exact .stepsDown hs hl ht
      | stands hold hs hl ht => exact .stands hold hs hl ht
      | wins hold hs hl ht hf => exact .wins hold hs hl ht hf
    · rw [h]
      exact Turn.stepDown m req.term _
  | appendEntries req =>
    obtain rfl := Option.some_inj.mp h
    exact Turn.appendEntries m req
  | submit cmd =>
    obtain rfl := Option.some_inj.mp h
    rw [onSubmit]
    split <;> exact .stays rfl rfl rfl
  | sendAes =>
    obtain ⟨⟨c, calls⟩, hc, rfl⟩ := Option.map_eq_some_iff.mp h
    obtain ⟨next, rfl⟩ := m.sendLeaderAes_node hc
    exact .stays rfl rfl rfl
  | aeRes peerId ni reply =>
    rcases m.handleAeRes_node h with ⟨ht, rfl⟩ | ⟨-, next, mat, ci, rfl⟩
    · exact .stepsDown rfl rfl ht
    · exact .stays rfl rfl rfl
  | sendCommit =>
    obtain ⟨⟨c, entries⟩, hc, rfl⟩ := Option.map_eq_some_iff.mp h
    obtain ⟨la, rfl⟩ := m.sendCommits_node hc
    exact .stays rfl rfl rfl

theorem Twin.handle {op : Op C} (h : m.handle op = some m') : Twin m m' := by
  cases op with
  | startElection elapsed =>
    obtain ⟨⟨c, reqs⟩, hc, rfl⟩ := Option.map_eq_some_iff.mp h
    rcases m.onStartElection_cases elapsed with hn | hn | ⟨c', hn, hs, -⟩
    · rw [hn] at hc
      cases hc
    · obtain ⟨rfl, -⟩ := Prod.mk.inj (Option.some_inj.mp (hn.symm.trans hc))
      exact ⟨rfl, rfl⟩
    · obtain ⟨rfl, -⟩ := Prod.mk.inj (Option.some_inj.mp (hn.symm.trans hc))
      exact ⟨hs.id, hs.peers⟩
  | voteResult term voted =>
    obtain rfl := Option.some_inj.mp h
    rcases m.onVoteResult_cases term voted with h | ⟨-, h⟩ | ⟨-, -, -, h⟩ | ⟨-, -, -, -, h⟩ <;>
      rw [h] <;> exact ⟨rfl, rfl⟩
  | requestVote req =>
    obtain rfl := Option.some_inj.mp h
    have hq := Quiet.requestVote m req
    exact ⟨hq.id, hq.peers⟩
  | appendEntries req =>
    obtain rfl := Option.some_inj.mp h
    have hq := Quiet.appendEntries m req
    exact ⟨hq.id, hq.peers⟩
  | submit cmd =>
    obtain rfl := Option.some_inj.mp h
    have hq := Quiet.onSubmit m cmd
    exact ⟨hq.id, hq.peers⟩
  | sendAes =>
    obtain ⟨⟨c, calls⟩, hc, rfl⟩ := Option.map_eq_some_iff.mp h
    exact .of_same (m.sendLeaderAes_spec hc).1
  | aeRes peerId ni reply =>
    have hq := Quiet.handleAeRes h
    exact ⟨hq.id, hq.peers⟩
  | sendCommit =>
    obtain ⟨⟨c, entries⟩, hc, rfl⟩ := Option.map_eq_some_iff.mp h
    exact .of_same (m.sendCommits_spec hc).1

end

variable [Storage σ C] {cfg : Config n σ C} {c c' : Cluster n σ C} {g : Fin n → ℕ → Option String}

theorem Cluster.Moves.twin {l : Label n σ C} {v : Fin n} (h : c.Moves c' l v) :
    Twin (c.nodes v) (c'.nodes v) := by
  cases h with
  | still h => exact h ▸ ⟨rfl, rfl⟩
  | handled op _ h => exact Twin.handle h
  | rebooted t left _ h _ =>
    have hq := Quiet.stepDown (c.nodes v) t
    rw [h]
    exact ⟨(new_id _ left).trans hq.id, hq.peers⟩

/-! ## Who sends a request -/

/-- The nodes are those of the configuration, and every call carries the id of the node it comes
from, which is not the node it goes to. -/
structure Named (cfg : Config n σ C) (c : Cluster n σ C) : Prop where
  id : ∀ v, (c.nodes v).id = cfg.id v
  peers : ∀ v, (c.nodes v).peers.map Prod.snd = (cfg.urls v).map Prod.snd
  ne : ∀ a ∈ c.calls, a.call.client ≠ a.src
  leader : ∀ a ∈ c.calls, a.call.req.leader = cfg.id a.src

theorem Named.init (cfg : Config n σ C) : Named cfg cfg.init where
  id v := cfg.node_id v
  peers v := cfg.node_peers v
  ne _ h := absurd h List.not_mem_nil
  leader _ h := absurd h List.not_mem_nil

theorem Named.step (h : Named cfg c) {l : Label n σ C} (hs : c.step l = some c') :
    Named cfg c' := by
  have htwin : ∀ v, Twin (c.nodes v) (c'.nodes v) := fun v ↦ (Cluster.step_moves hs v).twin
  constructor
  case id => exact fun v ↦ (htwin v).id.trans (h.id v)
  case peers =>
    intro v
    rw [(htwin v).peers, h.peers v]
  case ne =>
    intro a ha
    rcases Cluster.step_calls hs a ha with ha | ⟨calls, hm, hcall⟩
    · exact h.ne a ha
    · obtain ⟨hl, -⟩ := ((c.nodes a.src).sendLeaderAes_spec hm).2.2 _ hcall
      rw [sendLeaderAes, if_pos hl] at hm
      have hmem := leaderAes_client hm _ hcall
      rwa [h.peers, cfg.mem_urls] at hmem
  case leader =>
    intro a ha
    rcases Cluster.step_calls hs a ha with ha | ⟨calls, hm, hcall⟩
    · exact h.leader a ha
    · obtain ⟨-, -, -, hid, -⟩ := ((c.nodes a.src).sendLeaderAes_spec hm).2.2 _ hcall
      rw [hid, h.id]

/-! ## The gate -/

/-- The node takes itself for the leader if and only if it is. -/
def Hinted (m : Consensus σ C P) : Prop := m.state = .leader ↔ m.leaderId = some m.id

omit [Storage σ C] in
theorem Hinted.of_follower {m : Consensus σ C P} (hs : m.state = .follower)
    (hl : m.leaderId ≠ some m.id) : Hinted m := by
  rw [Hinted, hs]
  exact ⟨nofun, fun h ↦ absurd h hl⟩

omit [Storage σ C] in
theorem Hinted.turn {m m' : Consensus σ C P} {op : Op C} (h : Hinted m) (ht : Turn m m' op)
    (hid : m'.id = m.id) (hop : ∀ req, op = .appendEntries req → req.leader ≠ m.id) :
    Hinted m' := by
  cases ht with
  | stays hs hl _ => rwa [Hinted, hs, hl, hid]
  | stepsDown hs hl _ => exact .of_follower hs (by rw [hl]; nofun)
  | stands hold hs hl _ =>
    rw [Hinted, hs, hl, hid]
    exact ⟨nofun, fun hl ↦ absurd (h.mpr hl) hold⟩
  | wins _ hs hl _ _ =>
    rw [Hinted, hs, hl, hid]
    exact ⟨fun _ ↦ rfl, fun _ ↦ rfl⟩
  | hears req hs hl _ _ =>
    refine .of_follower hs ?_
    rw [hl, hid]
    exact fun heq ↦ hop req rfl (Option.some_inj.mp heq)

theorem Hinted.new (id : String) (st : σ) (peers : List (ℕ × P)) :
    Hinted { (Consensus.new id st : Consensus σ C P) with peers := peers } := by
  refine .of_follower (new_state id st) ?_
  have hnone : (Consensus.new id st : Consensus σ C P).leaderId = none := by
    simp only [Consensus.new, restoreState]
    cases Storage.restore st <;> rfl
  change (Consensus.new id st : Consensus σ C P).leaderId ≠ _
  rw [hnone]
  exact Option.some_ne_none _ |>.symm

theorem Hinted.step (h : ∀ v, Hinted (c.nodes v)) (hn : Named cfg c) {l : Label n σ C}
    (hs : c.step l = some c') (v : Fin n) : Hinted (c'.nodes v) := by
  cases Cluster.step_moves hs v with
  | still hv => exact hv ▸ h v
  | rebooted t left _ hv _ =>
    rw [hv]
    exact Hinted.new _ left _
  | handled op hask hv =>
    refine (h v).turn (Turn.handle hv) (Twin.handle hv).id ?_
    rintro req rfl
    obtain ⟨k, a, -, ha, rfl, rfl⟩ := Cluster.ask_appendEntries hask
    have hmem := Cluster.mem_calls_of_req (List.mem_of_getElem? ha)
    rw [hn.leader a hmem, hn.id]
    exact fun heq ↦ hn.ne a hmem (cfg.id_injective heq.symm)

/-- In every state of a run, with or without crashes, the requests carry the right ids, and a node
takes itself for the leader if and only if it is. -/
theorem Cluster.Run.hinted {ok : Cluster n σ C → Label n σ C → Prop} {r : List (Cluster n σ C)}
    (h : Cluster.Run cfg ok r) : ∀ c ∈ r, Named cfg c ∧ ∀ v, Hinted (c.nodes v) := by
  refine h.inv ⟨Named.init cfg, fun v ↦ ?_⟩ ?_
  · obtain ⟨peers, hp, -⟩ := cfg.node_spec v
    rw [show cfg.init.nodes v = _ from hp]
    exact Hinted.new _ _ peers
  · rintro c l c' ⟨hn, hh⟩ - hs
    exact ⟨hn.step hs, Hinted.step hh hn hs⟩

/-! ## Following a leader -/

section

variable [LawfulStorage σ C]

/-- Every call comes from the node that was elected in its term. -/
structure Signed (cfg : Config n σ C) (c : Cluster n σ C) (g : Fin n → ℕ → Option String) :
    Prop where
  stored : ∀ v, Stored (c.nodes v)
  elect : Elect cfg c g
  named : Named cfg c
  elected : ∀ a ∈ c.calls, Elected cfg g a.call.req.term a.src

theorem Signed.step (h : Signed cfg c g) {l : Label n σ C} (hs : c.step l = some c') :
    Signed cfg c' (record c' g) ∧ ∀ v t a, g v t = some a → record c' g v t = some a := by
  have hnext := h.elect.step (Cluster.keeps_of_stored h.stored hs) hs
  refine ⟨⟨Cluster.step_stored h.stored hs, hnext.elect, h.named.step hs, fun a ha ↦ ?_⟩,
    hnext.grows⟩
  rcases Cluster.step_calls hs a ha with ha | ⟨calls, hm, hcall⟩
  · exact (h.elected a ha).mono hnext.grows
  · obtain ⟨hl, -, ht, -⟩ := ((c.nodes a.src).sendLeaderAes_spec hm).2.2 _ hcall
    exact (ht ▸ h.elect.lead a.src hl).mono hnext.grows

theorem Cluster.Run.signed {ok : Cluster n σ C → Label n σ C → Prop} {r : List (Cluster n σ C)}
    (h : Cluster.Run cfg ok r) : ∀ c ∈ r, ∃ g, Signed cfg c g := by
  refine h.inv ⟨record cfg.init fun _ _ ↦ none, ?_⟩ ?_
  · have hrun : Cluster.Run cfg ok [cfg.init] := .init
    exact ⟨hrun.stored _ List.mem_cons_self, Elect.init cfg, Named.init cfg,
      fun a ha ↦ absurd ha List.not_mem_nil⟩
  · rintro c l c' ⟨g, hg⟩ - hs
    exact ⟨_, (hg.step hs).1⟩

/-- While node `v` is in term `t` it follows node `j`. -/
structure Obeys (cfg : Config n σ C) (c : Cluster n σ C) (v j : Fin n) (t : ℕ) : Prop where
  le : t ≤ (c.nodes v).currentTerm
  keep : (c.nodes v).currentTerm = t →
    (c.nodes v).state = .follower ∧ (c.nodes v).leaderId = some (cfg.id j)

omit [LawfulStorage σ C] in
theorem Obeys.of_lt {v j : Fin n} {t : ℕ} (h : t < (c.nodes v).currentTerm) : Obeys cfg c v j t :=
  ⟨h.le, fun ht ↦ absurd ht h.ne'⟩

omit [LawfulStorage σ C] in
/-- **Who follows the leader of a term goes on to do so** until it changes term or is restarted. -/
theorem Obeys.step {v j : Fin n} {t : ℕ} (h : Obeys cfg c v j t) (hg : Signed cfg c g)
    (hj : Elected cfg g t j) {l : Label n σ C} (hl : l.Spares c v) (hs : c.step l = some c') :
    Obeys cfg c' v j t := by
  cases Cluster.step_moves hs v with
  | still hv => exact ⟨hv ▸ h.le, hv ▸ h.keep⟩
  | rebooted t left _ hv hit => exact absurd hl hit
  | handled op hask hv =>
    cases Turn.handle hv with
    | stays hst hld ht => exact ⟨ht ▸ h.le, fun heq ↦ by rw [hst, hld]; exact h.keep (ht ▸ heq)⟩
    | stepsDown _ _ ht => exact .of_lt (h.le.trans_lt ht)
    | stands _ _ _ ht => exact .of_lt (h.le.trans_lt ht)
    | wins hold _ _ ht _ =>
      refine ⟨ht ▸ h.le, fun heq ↦ ?_⟩
      rw [(h.keep (ht ▸ heq)).1] at hold
      cases hold
    | hears req hst hld ht hle =>
      refine ⟨ht ▸ h.le.trans hle, fun heq ↦ ⟨hst, ?_⟩⟩
      obtain ⟨k, a, -, ha, -, rfl⟩ := Cluster.ask_appendEntries hask
      have hmem := Cluster.mem_calls_of_req (List.mem_of_getElem? ha)
      -- the sender was elected in the same term
      have hsrc := hg.elected a hmem
      rw [← ht, heq] at hsrc
      rw [hld, hg.named.leader a hmem, hsrc.unique hj]

/-- **Accepting a leader means following it**, except for a candidate.  A live node that handles a
request of its own term or of a later one follows the sender, and goes on to do so as long as it
stays in that term, if and only if it was not itself a candidate of that term. -/
theorem accepting_means_following_iff (cfg : Config n σ C)
    {ok : Cluster n σ C → Label n σ C → Prop} {r : List (Cluster n σ C)}
    (h : Cluster.Run cfg ok (c :: r)) {k : ℕ} {a : EntriesCall n C}
    (ha : c.appendReqs[k]? = some a) (hs : c.step (.appendReq k) = some c')
    (hlive : (c.nodes a.call.client).state ≠ .dead)
    (hterm : (c.nodes a.call.client).currentTerm ≤ a.call.req.term) :
    (∀ d, Transition.Reach Cluster.step (fun e l ↦ l.Spares e a.call.client) c' d →
        (d.nodes a.call.client).currentTerm = (c'.nodes a.call.client).currentTerm →
        (d.nodes a.call.client).state = .follower ∧
          (d.nodes a.call.client).leaderId = some a.call.req.leader) ↔
      ¬ ((c.nodes a.call.client).state = .candidate ∧
        (c.nodes a.call.client).currentTerm = a.call.req.term) := by
  obtain ⟨g, hg⟩ := h.signed c List.mem_cons_self
  have hmem := Cluster.mem_calls_of_req (List.mem_of_getElem? ha)
  have hnode : c'.nodes a.call.client = ((c.nodes a.call.client).appendEntries a.call.req).1 := by
    obtain ⟨m, hm, rfl⟩ := Cluster.step_appendReq hs
    obtain rfl : a = m := Option.some_inj.mp (ha.symm.trans hm)
    rw [Cluster.appendEntries_nodes, Cluster.set_self]
  constructor
  · rintro hall ⟨hcand, heq⟩
    have hnf : (c.nodes a.call.client).state ≠ .follower := by
      rw [hcand]
      decide
    have hst := (appendEntries_stays _ heq.ge (Or.inr hnf)).1
    have hfol := (hall c' .start rfl).1
    rw [hnode, hst, hcand] at hfol
    cases hfol
  · intro hnot d hd
    have hrole : (c.nodes a.call.client).currentTerm < a.call.req.term ∨
        (c.nodes a.call.client).state = .follower := by
      refine or_iff_not_imp_left.mpr fun hlt ↦ ?_
      have heq : (c.nodes a.call.client).currentTerm = a.call.req.term := by omega
      cases hst : (c.nodes a.call.client).state with
      | follower => rfl
      | candidate => exact absurd ⟨hst, heq⟩ hnot
      | dead => exact absurd hst hlive
      | leader =>
        -- the term has one leader, and that is the sender
        have hlead := hg.elect.lead _ hst
        rw [heq] at hlead
        exact absurd (hlead.unique (hg.elected a hmem)) (hg.named.ne a hmem)
    obtain ⟨hst, hld, ht⟩ := appendEntries_follows _ hlive hterm hrole
    rw [← hnode] at hst hld ht
    have hstep := hg.step hs
    -- along the run that follows, the node obeys the sender
    obtain ⟨_, _, _, hobeys⟩ := @Transition.Reach.inv _ _ _ _ _ _
      (fun d ↦ ∃ g, Signed cfg d g ∧ Elected cfg g a.call.req.term a.src ∧
        Obeys cfg d a.call.client a.src a.call.req.term) hd
      ⟨_, hstep.1, (hg.elected a hmem).mono hstep.2, ht.ge,
        fun _ ↦ ⟨hst, by rw [hld, hg.named.leader a hmem]⟩⟩
      (by
        rintro d l d' ⟨g, hd, hel, hob⟩ hl hs
        exact ⟨_, (hd.step hs).1, hel.mono (hd.step hs).2, hob.step hd hel hl hs⟩)
    intro hdt
    obtain ⟨hdf, hdl⟩ := hobeys.keep (hdt.trans ht)
    exact ⟨hdf, by rw [hdl, hg.named.leader a hmem]⟩

end

/-- Nodes `a` and `b` stand for election in the same term, node `a` wins, and node `b`, still a
candidate, hears from it. -/
def rivals (a b : Fin 3) : List (Label 3 (MockStorage ℕ) ℕ) :=
  [.startElection a true, .startElection b true, .voteReq 1, .voteReply 0, .sendAes a]

/-- Node `2`, which voted for node `0`, follows it from the first request on. -/
theorem accepting_means_following_trio :
    ∃ a c', (trioEnd (fun _ _ ↦ True) (rivals 0 1)).appendReqs[1]? = some a ∧
      (trioEnd (fun _ _ ↦ True) (rivals 0 1)).step (.appendReq 1) = some c' ∧ a.call.client = 2 ∧
      ∀ d, Transition.Reach Cluster.step (fun e l ↦ l.Spares e a.call.client) c' d →
        (d.nodes a.call.client).currentTerm = (c'.nodes a.call.client).currentTerm →
        (d.nodes a.call.client).state = .follower ∧
          (d.nodes a.call.client).leaderId = some a.call.req.leader := by
  have hr := run_trioRun (fun _ _ ↦ True) (rivals 0 1) (by decide)
  refine ⟨((trioEnd (fun _ _ ↦ True) (rivals 0 1)).appendReqs[1]?).get (by decide),
    ((trioEnd (fun _ _ ↦ True) (rivals 0 1)).step (.appendReq 1)).get (by decide),
    (Option.some_get _).symm, (Option.some_get _).symm, by decide, ?_⟩
  exact (accepting_means_following_iff trio hr (Option.some_get _).symm (Option.some_get _).symm
    (by decide) (by decide)).mpr (by decide)

/-- **Accepting a leader does not always mean following it.**  Node `1` handles a request of its own
term, and is still a candidate that knows of no leader. -/
theorem not_accepting_means_following :
    (∃ r, Cluster.Run trio (fun _ _ ↦ True) (trioEnd (fun _ _ ↦ True) (rivals 0 1) :: r)) ∧
      (trioEnd (fun _ _ ↦ True) (rivals 0 1)).appendReqs[0]?.map (fun a ↦
        (a.call.client, a.call.req.term, a.call.req.leader)) = some (1, 1, "a") ∧
      ((trioEnd (fun _ _ ↦ True) (rivals 0 1)).nodes 1).currentTerm = 1 ∧
      ((trioEnd (fun _ _ ↦ True) (rivals 0 1)).step (.appendReq 0)).map (fun c ↦
        (c.panicked 1, (c.nodes 1).state, (c.nodes 1).leaderId)) =
          some (false, .candidate, none) :=
  ⟨⟨_, run_trioRun (fun _ _ ↦ True) (rivals 0 1) (by decide)⟩, by decide, by decide, by decide⟩

end Efis
