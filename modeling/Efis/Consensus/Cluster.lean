import Mathlib.Tactic.FinCases
import Efis.Consensus.Node

/-!
# A cluster of consensus nodes

`n` nodes of `Efis.Consensus.Node` and the calls between them.  A step is the work of one node on
one message, or on one tick of a timer, and a run is any sequence of steps.

* Calls and replies are kept in lists, and a step names the one it delivers by its position, so
  they arrive in any order.  Each is delivered at most once, and one that is lost is simply never
  delivered.
* What a node sends to itself (`SendAES`, `SendCommit`, the election timer) may be handled at any
  time, whether or not it was sent.  This gives the cluster more runs than the source has, and so
  does letting the replies to an earlier incarnation of a node reach the restarted one.
* A node that panicked takes no more steps until it is restarted.
* A crash leaves the metadata that was stored last, and in the worst case anything at all in place
  of the log: it may have come between the two writes of `persist_state`.  It may also come
  between the two times a request is persisted, after the node stepped down.

The `trace` is not in the source.  It records what the theorems are about: the entries put on the
commit channels, and the requests that were accepted.
-/

set_option autoImplicit false

namespace Efis

/-! ## Configuration -/

/-- A cluster as it is set up: the nodes have different ids, and each has exactly the others as
its peers. -/
structure Config (n : ℕ) (σ C : Type) [Storage σ C] where
  id : Fin n → String
  storage : Fin n → σ
  /-- The peers of a node by their URLs, and the node each leads to. -/
  urls : Fin n → List (String × Fin n)
  /-- The nodes once they are started. -/
  node : Fin n → Consensus σ C (Fin n)
  id_injective : Function.Injective id
  node_eq : ∀ i, (Consensus.new (id i) (storage i)).start (urls i) = some (node i)
  nodup : ∀ i, ((urls i).map Prod.snd).Nodup
  mem_urls : ∀ i j, j ∈ (urls i).map Prod.snd ↔ j ≠ i

/-- Nothing has been stored yet. -/
def Config.Fresh {n : ℕ} {σ C : Type} [Storage σ C] (cfg : Config n σ C) : Prop :=
  ∀ i, Storage.restore (cfg.storage i) = some (PersistentState.default, [])

/-! ## The state of a cluster -/

/-- A `request_vote` call. -/
structure VoteCall (n : ℕ) where
  src : Fin n
  dst : Fin n
  req : RequestVote

structure VoteAnswer (n : ℕ) where
  call : VoteCall n
  reply : RequestVoteReply

/-- An `append_entries` call. -/
structure EntriesCall (n : ℕ) (C : Type) where
  src : Fin n
  call : AppendCall C (Fin n)

structure EntriesAnswer (n : ℕ) (C : Type) where
  call : EntriesCall n C
  reply : AppendEntriesReply

/-- What is recorded of a run. -/
inductive Event (n : ℕ) (C : Type) where
  /-- Node `i` put an entry on its commit channel. -/
  | commit (i : Fin n) (entry : CommitEntry C)
  /-- Node `i` accepted a request while it was in the given term. -/
  | accept (i : Fin n) (term : ℕ) (req : AppendEntries C)
  deriving DecidableEq

structure Cluster (n : ℕ) (σ C : Type) where
  nodes : Fin n → Consensus σ C (Fin n)
  panicked : Fin n → Bool
  voteReqs : List (VoteCall n)
  voteReplies : List (VoteAnswer n)
  appendReqs : List (EntriesCall n C)
  appendReplies : List (EntriesAnswer n C)
  trace : List (Event n C)

variable {n : ℕ} {σ C : Type}

/-- All nodes have started, and no message is under way. -/
def Config.init [Storage σ C] (cfg : Config n σ C) : Cluster n σ C where
  nodes := cfg.node
  panicked := fun _ ↦ false
  voteReqs := []
  voteReplies := []
  appendReqs := []
  appendReplies := []
  trace := []

/-- What of the stored metadata decides about votes, as `restore_state` reads it back. -/
def metaOf [Storage σ C] (st : σ) : ℕ × Option String :=
  match Storage.restore st with
  | some (old, _) => (old.currentTerm, old.votedFor)
  | none => (0, none)

/-- A node that starts again from what a crash left in its storage. -/
def Consensus.reboot {P : Type} [Storage σ C] (n : Consensus σ C P) (st : σ) :
    Consensus σ C P :=
  { (Consensus.new n.id st : Consensus σ C P) with peers := n.peers }

/-- The steps of a cluster.  Messages are named by their position. -/
inductive Label (n : ℕ) (σ C : Type) where
  | startElection (i : Fin n) (elapsed : Bool)
  | submit (i : Fin n) (cmd : C)
  | sendAes (i : Fin n)
  | sendCommit (i : Fin n)
  | voteReq (k : ℕ)
  | voteReply (k : ℕ)
  | appendReq (k : ℕ)
  | appendReply (k : ℕ)
  /-- Node `i` crashes and starts again with `left` in its storage. -/
  | restart (i : Fin n) (left : σ)
  /-- The same while it handles a request, after it stepped down. -/
  | crashVote (k : ℕ) (left : σ)
  | crashAppend (k : ℕ) (left : σ)

/-- The step is not a crash. -/
def Label.Alive : Label n σ C → Prop
  | .restart _ _ | .crashVote _ _ | .crashAppend _ _ => False
  | _ => True

instance : (l : Label n σ C) → Decidable l.Alive
  | .restart _ _ | .crashVote _ _ | .crashAppend _ _ => inferInstanceAs (Decidable False)
  | .startElection _ _ | .submit _ _ | .sendAes _ | .sendCommit _ | .voteReq _ | .voteReply _
  | .appendReq _ | .appendReply _ => inferInstanceAs (Decidable True)

namespace Cluster

/-! ## What one node does -/

def set (c : Cluster n σ C) (i : Fin n) (m : Consensus σ C (Fin n)) : Cluster n σ C :=
  { c with nodes := Function.update c.nodes i m }

@[simp] theorem set_self (c : Cluster n σ C) (i : Fin n) (m : Consensus σ C (Fin n)) :
    (c.set i m).nodes i = m := Function.update_self ..

theorem set_of_ne (c : Cluster n σ C) {i v : Fin n} (m : Consensus σ C (Fin n)) (h : v ≠ i) :
    (c.set i m).nodes v = c.nodes v := Function.update_of_ne h ..

@[simp] theorem set_eq_self (c : Cluster n σ C) (i : Fin n) : c.set i (c.nodes i) = c := by
  rw [set, Function.update_eq_self]

@[simp] theorem set_set (c : Cluster n σ C) (i : Fin n) (m m' : Consensus σ C (Fin n)) :
    (c.set i m).set i m' = c.set i m' := by
  rw [set, set, set, Function.update_idem]

/-- The actor of node `i` panics. -/
def fail (c : Cluster n σ C) (i : Fin n) : Cluster n σ C :=
  { c with panicked := Function.update c.panicked i true }

variable [Storage σ C]

def startElection (c : Cluster n σ C) (i : Fin n) (elapsed : Bool) : Cluster n σ C :=
  match (c.nodes i).onStartElection elapsed with
  | none => c.fail i
  | some (m, reqs) =>
    { c.set i m with voteReqs := c.voteReqs ++ reqs.map fun r ↦ ⟨i, r.1, r.2⟩ }

def submit (c : Cluster n σ C) (i : Fin n) (cmd : C) : Cluster n σ C :=
  c.set i ((c.nodes i).onSubmit cmd)

def sendAes (c : Cluster n σ C) (i : Fin n) : Cluster n σ C :=
  match (c.nodes i).sendLeaderAes with
  | none => c.fail i
  | some (m, calls) => { c.set i m with appendReqs := c.appendReqs ++ calls.map fun a ↦ ⟨i, a⟩ }

def sendCommit (c : Cluster n σ C) (i : Fin n) : Cluster n σ C :=
  match (c.nodes i).sendCommits with
  | none => c.fail i
  | some (m, entries) => { c.set i m with trace := c.trace ++ entries.map (Event.commit i) }

/-- Deliver a `request_vote` call.  An error of the handler is a failed call, and the candidate
does not hear of it. -/
def requestVote (c : Cluster n σ C) (m : VoteCall n) : Cluster n σ C :=
  let (node, res) := (c.nodes m.dst).requestVote m.req
  { c.set m.dst node with
    voteReplies := c.voteReplies ++
      match res with
      | .ok reply => [⟨m, reply⟩]
      | .error _ => [] }

def voteResult (c : Cluster n σ C) (m : VoteAnswer n) : Cluster n σ C :=
  c.set m.call.src ((c.nodes m.call.src).onVoteResult m.reply.term m.reply.voted)

/-- Deliver an `append_entries` call. -/
def appendEntries (c : Cluster n σ C) (m : EntriesCall n C) : Cluster n σ C :=
  let i := m.call.client
  let (node, res) := (c.nodes i).appendEntries m.call.req
  match res with
  | .error _ => c.set i node
  | .ok reply =>
    { c.set i node with
      appendReplies := c.appendReplies ++ [⟨m, reply⟩]
      trace := if reply.success then c.trace ++ [Event.accept i reply.term m.call.req]
        else c.trace }

theorem appendEntries_nodes (c : Cluster n σ C) (m : EntriesCall n C) :
    (c.appendEntries m).nodes =
      (c.set m.call.client ((c.nodes m.call.client).appendEntries m.call.req).1).nodes := by
  simp only [appendEntries]
  split <;> rfl

theorem appendEntries_voteReqs (c : Cluster n σ C) (m : EntriesCall n C) :
    (c.appendEntries m).voteReqs = c.voteReqs := by
  simp only [appendEntries]
  split <;> rfl

theorem appendEntries_appendReqs (c : Cluster n σ C) (m : EntriesCall n C) :
    (c.appendEntries m).appendReqs = c.appendReqs := by
  simp only [appendEntries]
  split <;> rfl

def aeRes (c : Cluster n σ C) (m : EntriesAnswer n C) : Cluster n σ C :=
  let i := m.call.src
  match (c.nodes i).handleAeRes m.call.call.peerId m.call.call.ni m.reply with
  | none => c.fail i
  | some node => c.set i node

/-- Node `i`, which had got as far as `m`, crashes and starts again. -/
def reboot (c : Cluster n σ C) (i : Fin n) (m : Consensus σ C (Fin n)) (left : σ) :
    Option (Cluster n σ C) :=
  if metaOf left = metaOf m.storage then
    some { c.set i (m.reboot left) with panicked := Function.update c.panicked i false }
  else none

/-! ## Steps and runs -/

/-- The step of a node, if it is still there. -/
def on (c : Cluster n σ C) (i : Fin n) (c' : Cluster n σ C) : Option (Cluster n σ C) :=
  if c.panicked i then none else some c'

/-- One step. -/
def step (c : Cluster n σ C) : Label n σ C → Option (Cluster n σ C)
  | .startElection i elapsed => c.on i (c.startElection i elapsed)
  | .submit i cmd => c.on i (c.submit i cmd)
  | .sendAes i => c.on i (c.sendAes i)
  | .sendCommit i => c.on i (c.sendCommit i)
  | .voteReq k => do
    let m ← c.voteReqs[k]?
    c.on m.dst ({ c with voteReqs := c.voteReqs.eraseIdx k }.requestVote m)
  | .voteReply k => do
    let m ← c.voteReplies[k]?
    c.on m.call.src ({ c with voteReplies := c.voteReplies.eraseIdx k }.voteResult m)
  | .appendReq k => do
    let m ← c.appendReqs[k]?
    c.on m.call.client ({ c with appendReqs := c.appendReqs.eraseIdx k }.appendEntries m)
  | .appendReply k => do
    let m ← c.appendReplies[k]?
    c.on m.call.src ({ c with appendReplies := c.appendReplies.eraseIdx k }.aeRes m)
  | .restart i left => c.reboot i (c.nodes i) left
  | .crashVote k left => do
    let m ← c.voteReqs[k]?
    let c ← c.on m.dst { c with voteReqs := c.voteReqs.eraseIdx k }
    c.reboot m.dst ((c.nodes m.dst).stepDown m.req.term) left
  | .crashAppend k left => do
    let m ← c.appendReqs[k]?
    let c ← c.on m.call.client { c with appendReqs := c.appendReqs.eraseIdx k }
    c.reboot m.call.client ((c.nodes m.call.client).stepDown m.call.req.term) left

omit [Storage σ C] in
theorem on_eq_some {c c' d : Cluster n σ C} {i : Fin n} :
    c.on i c' = some d ↔ c.panicked i = false ∧ c' = d := by
  rw [on]
  split
  · rename_i h
    simp [h]
  · rename_i h
    simp [Bool.not_eq_true _ ▸ h]

theorem reboot_eq_some {c d : Cluster n σ C} {i : Fin n} {m : Consensus σ C (Fin n)} {left : σ} :
    c.reboot i m left = some d ↔ metaOf left = metaOf m.storage ∧
      { c.set i (m.reboot left) with panicked := Function.update c.panicked i false } = d := by
  rw [reboot]
  split
  · rename_i h
    simp [h]
  · rename_i h
    simp [h]

theorem step_voteReq {c c' : Cluster n σ C} {k : ℕ} (h : c.step (.voteReq k) = some c') :
    ∃ m, c.voteReqs[k]? = some m ∧
      c' = { c with voteReqs := c.voteReqs.eraseIdx k }.requestVote m := by
  simp only [step, Option.bind_eq_bind, Option.bind_eq_some_iff, on_eq_some] at h
  obtain ⟨m, hm, -, rfl⟩ := h
  exact ⟨m, hm, rfl⟩

theorem step_voteReply {c c' : Cluster n σ C} {k : ℕ} (h : c.step (.voteReply k) = some c') :
    ∃ m, c.voteReplies[k]? = some m ∧
      c' = { c with voteReplies := c.voteReplies.eraseIdx k }.voteResult m := by
  simp only [step, Option.bind_eq_bind, Option.bind_eq_some_iff, on_eq_some] at h
  obtain ⟨m, hm, -, rfl⟩ := h
  exact ⟨m, hm, rfl⟩

theorem step_appendReq {c c' : Cluster n σ C} {k : ℕ} (h : c.step (.appendReq k) = some c') :
    ∃ m, c.appendReqs[k]? = some m ∧
      c' = { c with appendReqs := c.appendReqs.eraseIdx k }.appendEntries m := by
  simp only [step, Option.bind_eq_bind, Option.bind_eq_some_iff, on_eq_some] at h
  obtain ⟨m, hm, -, rfl⟩ := h
  exact ⟨m, hm, rfl⟩

theorem step_appendReply {c c' : Cluster n σ C} {k : ℕ} (h : c.step (.appendReply k) = some c') :
    ∃ m, c.appendReplies[k]? = some m ∧
      c' = { c with appendReplies := c.appendReplies.eraseIdx k }.aeRes m := by
  simp only [step, Option.bind_eq_bind, Option.bind_eq_some_iff, on_eq_some] at h
  obtain ⟨m, hm, -, rfl⟩ := h
  exact ⟨m, hm, rfl⟩

theorem step_restart {c c' : Cluster n σ C} {i : Fin n} {left : σ}
    (h : c.step (.restart i left) = some c') :
    metaOf left = metaOf (c.nodes i).storage ∧
      c' = { c.set i ((c.nodes i).reboot left) with
        panicked := Function.update c.panicked i false } := by
  simp only [step, reboot_eq_some] at h
  exact ⟨h.1, h.2.symm⟩

theorem step_crashVote {c c' : Cluster n σ C} {k : ℕ} {left : σ}
    (h : c.step (.crashVote k left) = some c') :
    ∃ m, c.voteReqs[k]? = some m ∧
      metaOf left = metaOf ((c.nodes m.dst).stepDown m.req.term).storage ∧
      c' = { c.set m.dst (((c.nodes m.dst).stepDown m.req.term).reboot left) with
        panicked := Function.update c.panicked m.dst false
        voteReqs := c.voteReqs.eraseIdx k } := by
  simp only [step, Option.bind_eq_bind, Option.bind_eq_some_iff, on_eq_some, reboot_eq_some] at h
  obtain ⟨m, hm, _, ⟨-, rfl⟩, hleft, rfl⟩ := h
  exact ⟨m, hm, hleft, rfl⟩

theorem step_crashAppend {c c' : Cluster n σ C} {k : ℕ} {left : σ}
    (h : c.step (.crashAppend k left) = some c') :
    ∃ m, c.appendReqs[k]? = some m ∧
      metaOf left = metaOf ((c.nodes m.call.client).stepDown m.call.req.term).storage ∧
      c' = { c.set m.call.client
          (((c.nodes m.call.client).stepDown m.call.req.term).reboot left) with
        panicked := Function.update c.panicked m.call.client false
        appendReqs := c.appendReqs.eraseIdx k } := by
  simp only [step, Option.bind_eq_bind, Option.bind_eq_some_iff, on_eq_some, reboot_eq_some] at h
  obtain ⟨m, hm, _, ⟨-, rfl⟩, hleft, rfl⟩ := h
  exact ⟨m, hm, hleft, rfl⟩

/-- The states of a run, the latest one first, in which every step satisfies `ok`. -/
inductive Run (cfg : Config n σ C) (ok : Cluster n σ C → Label n σ C → Prop) :
    List (Cluster n σ C) → Prop
  | init : Run cfg ok [cfg.init]
  | step {c c' : Cluster n σ C} {r : List (Cluster n σ C)} {l : Label n σ C}
      (h : Run cfg ok (c :: r)) (hok : ok c l) (hs : c.step l = some c') :
      Run cfg ok (c' :: c :: r)

theorem Run.imp {cfg : Config n σ C} {ok ok' : Cluster n σ C → Label n σ C → Prop}
    (h : ∀ c r l, Run cfg ok (c :: r) → ok c l → ok' c l) {r : List (Cluster n σ C)}
    (hr : Run cfg ok r) : Run cfg ok' r := by
  induction hr with
  | init => exact .init
  | step hr hok hs ih => exact .step ih (h _ _ _ hr hok) hs

/-- What holds at the start and is kept by every step holds in all the states of a run. -/
theorem Run.inv {cfg : Config n σ C} {ok : Cluster n σ C → Label n σ C → Prop}
    {Inv : Cluster n σ C → Prop} {r : List (Cluster n σ C)} (h : Run cfg ok r)
    (init : Inv cfg.init)
    (step : ∀ c l c', Inv c → ok c l → c.step l = some c' → Inv c') : ∀ c ∈ r, Inv c := by
  induction h with
  | init =>
    intro c hc
    rw [List.mem_singleton.mp hc]
    exact init
  | @step c c' r l hr hok hs ih =>
    intro d hd
    rcases List.mem_cons.mp hd with rfl | hd
    · exact step c l d (ih c List.mem_cons_self) hok hs
    · exact ih d hd

/-- Carry out a sequence of steps, as long as they satisfy `ok`. -/
def extend (ok : Cluster n σ C → Label n σ C → Prop) [∀ c l, Decidable (ok c l)]
    (c : Cluster n σ C) (r : List (Cluster n σ C)) :
    List (Label n σ C) → Option (List (Cluster n σ C))
  | [] => some (c :: r)
  | l :: ls => if ok c l then (c.step l).bind fun c' ↦ extend ok c' (c :: r) ls else none

theorem Run.extend {cfg : Config n σ C} {ok : Cluster n σ C → Label n σ C → Prop}
    [∀ c l, Decidable (ok c l)] {c : Cluster n σ C} {r r' : List (Cluster n σ C)}
    {ls : List (Label n σ C)} (h : Run cfg ok (c :: r)) (he : c.extend ok r ls = some r') :
    Run cfg ok r' := by
  induction ls generalizing c r with
  | nil =>
    rw [Cluster.extend, Option.some_inj] at he
    exact he ▸ h
  | cons l ls ih =>
    rw [Cluster.extend] at he
    split at he
    · rename_i hok
      obtain ⟨c', hs, he⟩ := Option.bind_eq_some_iff.mp he
      exact ih (h.step hok hs) he
    · cases he

end Cluster

/-! ## Starting up -/

theorem Consensus.mapM_peerId_iff {P : Type} {urls : List (String × P)} {peers : List (ℕ × P)} :
    (urls.mapM fun u ↦ (peerId u.1).map fun i ↦ (i, u.2)) = some peers ↔
      (peers.map fun p ↦ (some p.1, p.2)) = urls.map fun u ↦ (peerId u.1, u.2) := by
  induction urls generalizing peers with
  | nil =>
    rw [List.mapM_nil, List.map_nil, List.map_eq_nil_iff]
    exact Option.some_inj.trans eq_comm
  | cons u us ih =>
    rw [List.mapM_cons]
    simp only [Option.bind_eq_bind, Option.bind_eq_some_iff, List.map_cons]
    constructor
    · rintro ⟨p, hp, ps, hps, h⟩
      obtain rfl : p :: ps = peers := by simpa using h
      obtain ⟨k, hk, rfl⟩ := Option.map_eq_some_iff.mp hp
      rw [List.map_cons, ih.mp hps, hk]
    · intro h
      obtain ⟨p, ps, rfl, hp, hps⟩ := List.map_eq_cons_iff.mp h
      obtain ⟨hk, hu⟩ := Prod.mk.inj hp
      exact ⟨p, by rw [← hk, ← hu]; rfl, ps, ih.mpr hps, rfl⟩

/-- `start` sets the peers, one for each URL, and numbers them. -/
theorem Consensus.start_eq_some_iff {P : Type} {m m' : Consensus σ C P}
    {urls : List (String × P)} :
    m.start urls = some m' ↔ ∃ peers : List (ℕ × P), m' = { m with peers := peers } ∧
      (peers.map fun p ↦ (some p.1, p.2)) = urls.map fun u ↦ (peerId u.1, u.2) := by
  rw [Consensus.start, Option.map_eq_some_iff]
  constructor
  · rintro ⟨peers, hp, rfl⟩
    exact ⟨peers, rfl, mapM_peerId_iff.mp hp⟩
  · rintro ⟨peers, rfl, hp⟩
    exact ⟨peers, mapM_peerId_iff.mpr hp, rfl⟩

theorem Consensus.start_spec {P : Type} {m m' : Consensus σ C P} {urls : List (String × P)}
    (h : m.start urls = some m') :
    ∃ peers : List (ℕ × P), m' = { m with peers := peers } ∧
      peers.map Prod.snd = urls.map Prod.snd := by
  obtain ⟨peers, rfl, hp⟩ := start_eq_some_iff.mp h
  refine ⟨peers, rfl, ?_⟩
  have hsnd := congrArg (List.map Prod.snd) hp
  rwa [List.map_map, List.map_map] at hsnd

/-- Three nodes that have nothing stored, the commands being numbers. -/
def trio : Config 3 (MockStorage ℕ) ℕ where
  id i := ["a", "b", "c"][i]
  storage _ := ⟨PersistentState.default, []⟩
  urls i := [[("b:1", 1), ("c:2", 2)], [("a:0", 0), ("c:2", 2)], [("a:0", 0), ("b:1", 1)]][i]
  node i := { (Consensus.new (["a", "b", "c"][i]) ⟨PersistentState.default, []⟩ :
      Consensus (MockStorage ℕ) ℕ (Fin 3)) with
    peers := [[(1, 1), (2, 2)], [(0, 0), (2, 2)], [(0, 0), (1, 1)]][i] }
  id_injective := by decide
  node_eq i := by fin_cases i <;> rfl
  nodup := by decide
  mem_urls := by decide

theorem trio_fresh : trio.Fresh := fun _ ↦ rfl

/-- The states of `trio` as it takes the given steps. -/
def trioRun (ok : Cluster 3 (MockStorage ℕ) ℕ → Label 3 (MockStorage ℕ) ℕ → Prop)
    [∀ c l, Decidable (ok c l)] (ls : List (Label 3 (MockStorage ℕ) ℕ)) :
    List (Cluster 3 (MockStorage ℕ) ℕ) :=
  (trio.init.extend ok [] ls).getD []

/-- The state of `trio` after the given steps. -/
def trioEnd (ok : Cluster 3 (MockStorage ℕ) ℕ → Label 3 (MockStorage ℕ) ℕ → Prop)
    [∀ c l, Decidable (ok c l)] (ls : List (Label 3 (MockStorage ℕ) ℕ)) :
    Cluster 3 (MockStorage ℕ) ℕ :=
  (trioRun ok ls).headD trio.init

theorem trioRun_eq (ok : Cluster 3 (MockStorage ℕ) ℕ → Label 3 (MockStorage ℕ) ℕ → Prop)
    [∀ c l, Decidable (ok c l)] (ls : List (Label 3 (MockStorage ℕ) ℕ))
    (h : trioRun ok ls ≠ []) : trioRun ok ls = trioEnd ok ls :: (trioRun ok ls).tail := by
  rw [trioEnd]
  cases hl : trioRun ok ls with
  | nil => exact absurd hl h
  | cons c r => rfl

theorem run_trioRun (ok : Cluster 3 (MockStorage ℕ) ℕ → Label 3 (MockStorage ℕ) ℕ → Prop)
    [∀ c l, Decidable (ok c l)] (ls : List (Label 3 (MockStorage ℕ) ℕ))
    (h : trioRun ok ls ≠ []) :
    Cluster.Run trio ok (trioEnd ok ls :: (trioRun ok ls).tail) := by
  rw [← trioRun_eq ok ls h]
  rw [trioRun] at h ⊢
  cases he : trio.init.extend ok [] ls with
  | none => rw [he] at h; exact absurd rfl h
  | some r => exact Cluster.Run.init.extend he

end Efis
