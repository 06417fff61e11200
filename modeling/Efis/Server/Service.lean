import Efis.Consensus.Stream
import Efis.Server.Relay
import Efis.Store.Replica

/-!
# The replicated store

The whole deployment: the nodes of a cluster, behind each of them the two channels on which its
committed commands travel, and at the end of these the apply loop with its store, which also serves
reads.  Everything interleaves freely.  The parts are those of `Cluster`, `Relay` and `Replica`;
what is new here is how they are put together.

The nodes start with nothing stored and the stores with equal values, and no process is restarted.
In a run in which the leaders commit only what a majority has and no channel is overrun, every store
has at all times executed the beginning of one and the same sequence of commands, and holds what
this sequence means, whatever the clocks and the reads (`service_agrees`).
-/

set_option autoImplicit false

namespace Efis

open Transition

variable {n : ℕ} {σ F : Type}

/-- The processes of a cluster, from where they have all subscribed. -/
structure Service (n : ℕ) (σ F : Type) where
  cluster : Cluster n σ (Command F)
  /-- The channels of each process.  The node in there is the one of the cluster. -/
  relay : Fin n → Relay σ (Command F) (Fin n)
  replica : Fin n → Replica F

/-- Only the apply loop executes. -/
theorem Relay.executed_eq [Storage σ (Command F)] {r r' : Relay σ (Command F) (Fin n)}
    {a : Relay.Act (Command F)} (ha : a ≠ .apply) (h : r.step a = some r') :
    r'.executed = r.executed := by
  rcases Relay.step_cases h with ⟨op, -, -, -, -, -, -, he⟩ | ⟨e, es, -, rfl⟩ |
    ⟨o, l, -, -, -, rfl⟩ | ⟨e, -, -, rfl⟩ | ⟨o, l, hb, -, -⟩
  · exact he
  · rfl
  · rfl
  · rfl
  · exact absurd hb ha

namespace Service

inductive Act (n : ℕ) (σ F : Type) where
  /-- A node handles a message or its client's command. -/
  | consensus (l : Label n σ (Command F))
  /-- `send_commits` of node `i` sends its next entry. -/
  | emit (i : Fin n)
  | relayRecv (i : Fin n)
  | relaySend (i : Fin n)
  /-- The apply loop of node `i` receives. -/
  | recv (i : Fin n)
  /-- The apply loop of node `i` goes on, or somebody reads there. -/
  | serve (i : Fin n) (e : Replica.Event)

section

variable [Storage σ (Command F)] (num : Numeric) (shard : Fin n → String → ℕ)

/-- One of the channel steps of node `i`. -/
def channel (s : Service n σ F) (i : Fin n) (a : Relay.Act (Command F)) :
    Option (Service n σ F) :=
  ((s.relay i).step a).map fun r ↦ { s with relay := Function.update s.relay i r }

/-- The apply loop of node `i`, having nothing to do, takes what it receives. -/
def receive (s : Service n σ F) (i : Fin n) : Option (Service n σ F) :=
  match (s.replica i).current, (s.replica i).queue with
  | none, [] =>
    ((s.relay i).step .apply).map fun r ↦
      let cmds := (r.executed.drop (s.relay i).executed.length).map CommitEntry.command
      { s with
        relay := Function.update s.relay i r
        replica := Function.update s.replica i { s.replica i with queue := cmds } }
  | _, _ => none

/-- One step.  An actor handles nothing while it is sending, and a node that has panicked is gone.
-/
def step (s : Service n σ F) : Act n σ F → Option (Service n σ F)
  | .consensus l =>
    match s.cluster.ask l with
    | some (i, op) =>
      if (s.relay i).outbox = [] then
        (s.cluster.step l).map fun c ↦
          { s with
            cluster := c
            relay := Function.update s.relay i (((s.relay i).step (.actor op)).getD (s.relay i)) }
      else none
    | none => none
  | .emit i => s.channel i .emit
  | .relayRecv i => s.channel i .relayRecv
  | .relaySend i => s.channel i .relaySend
  | .recv i => s.receive i
  | .serve i e =>
    ((s.replica i).step num (shard i) e).map fun r ↦
      { s with replica := Function.update s.replica i r }

/-- All have subscribed, and the stores are as given. -/
def start (cfg : Config n σ (Command F)) (store : Fin n → Datastore F) : Service n σ F where
  cluster := cfg.init
  relay i := Relay.start (cfg.node i) .new
  replica i := Replica.start (store i) []

/-- The leaders commit only what a majority has, a log is no longer than a `Vec` can be, and a
`send` finds a free place. -/
def Orderly (cfg : Config n σ (Command F)) (s : Service n σ F) : Act n σ F → Prop
  | .consensus l => Counted cfg s.cluster l ∧ s.cluster.Sized
  | .emit i => (s.relay i).KeepsUp .emit
  | .relaySend i => (s.relay i).KeepsUp .relaySend
  | _ => True

instance (cfg : Config n σ (Command F)) (s : Service n σ F) (a : Act n σ F) :
    Decidable (Orderly cfg s a) :=
  match a with
  | .consensus l => inferInstanceAs (Decidable (Counted cfg s.cluster l ∧ s.cluster.Sized))
  | .emit i => inferInstanceAs (Decidable ((s.relay i).KeepsUp .emit))
  | .relaySend i => inferInstanceAs (Decidable ((s.relay i).KeepsUp .relaySend))
  | .relayRecv _ | .recv _ | .serve _ _ => inferInstanceAs (Decidable True)

end

/-! ## The invariant -/

/-- What node `v` has executed. -/
def executed (s : Service n σ F) (v : Fin n) : List (Command F) :=
  (s.relay v).executed.map CommitEntry.command

/-- What the commands mean, one after the other, where nothing expires and nobody else reads. -/
def meaning (num : Numeric) (m : String → Option (Value F)) (cmds : List (Command F)) :
    Option (List (Option LateRes) × (String → Option (Value F))) :=
  Prog.evalAll Call.eval (cmds.map (Command.program num)) m

variable [Storage σ (Command F)] {num : Numeric} {shard : Fin n → String → ℕ}
  {cfg : Config n σ (Command F)} {s s' : Service n σ F}

/-- Process `v` has passed on what its node emitted, and computes what that means. -/
structure Works (num : Numeric) (m : String → Option (Value F)) (s : Service n σ F) (v : Fin n) :
    Prop where
  node : (s.relay v).node = s.cluster.nodes v
  emitted : (s.relay v).emitted ++ (s.relay v).outbox = s.cluster.emitted v
  exact : Relay.Exact 0 (s.relay v)
  outcome : (s.replica v).outcome num = meaning num m (s.executed v)

/-- What an actor that is not sending makes of a message. -/
theorem relay_actor {r : Relay σ (Command F) (Fin n)} (hout : r.outbox = [])
    (op : Op (Command F)) {r' : Relay σ (Command F) (Fin n)}
    (h : r' = (r.step (.actor op)).getD r) :
    r'.node = (r.node.handle op).getD r.node ∧ r'.outbox = r.node.emits op ∧
      r'.emitted = r.emitted := by
  subst h
  by_cases hop : op = .sendCommit
  · subst hop
    simp only [Relay.step, hout, Consensus.handle, Consensus.emits]
    cases r.node.sendCommits with
    | none => exact ⟨rfl, hout, rfl⟩
    | some p => exact ⟨rfl, rfl, rfl⟩
  · have hstep : r.step (.actor op) =
        (r.node.handle op).map fun node ↦ { r with node := node } := by
      cases op with
      | sendCommit => exact absurd rfl hop
      | _ => simp only [Relay.step, hout]
    rw [hstep, r.node.emits_of_ne hop]
    cases r.node.handle op with
    | none => exact ⟨rfl, hout, rfl⟩
    | some node => exact ⟨rfl, hout, rfl⟩

omit [Storage σ (Command F)] in
theorem Works.of_eq {m : String → Option (Value F)} {v : Fin n} (h : Works num m s v)
    (hc : s'.cluster.nodes v = s.cluster.nodes v)
    (he : s'.cluster.emitted v = s.cluster.emitted v) (hr : s'.relay v = s.relay v)
    (hq : s'.replica v = s.replica v) : Works num m s' v where
  node := by rw [hr, hc, h.node]
  emitted := by rw [hr, he, h.emitted]
  exact := hr ▸ h.exact
  outcome := by rw [hq, executed, hr]; exact h.outcome

theorem Works.consensus {m : String → Option (Value F)} {v i : Fin n} {op : Op (Command F)}
    (h : Works num m s v) {l : Label n σ (Command F)} (hl : l.Alive)
    (hask : s.cluster.ask l = some (i, op)) (hout : (s.relay i).outbox = [])
    {c : Cluster n σ (Command F)} (hs : s.cluster.step l = some c) :
    Works num m { s with
      cluster := c
      relay := Function.update s.relay i (((s.relay i).step (.actor op)).getD (s.relay i)) } v := by
  have hem := Cluster.step_emitted hl hs hask v
  obtain ⟨j, op', hask', -, hdoes⟩ := Cluster.step_handle hl hs
  obtain ⟨rfl, rfl⟩ := Prod.mk.inj (Option.some_inj.mp (hask.symm.trans hask'))
  by_cases hv : v = i
  · subst hv
    rw [if_pos rfl] at hem
    obtain ⟨hnode, hbox, hemr⟩ := relay_actor hout op rfl
    have hnodes : c.nodes v = ((s.cluster.nodes v).handle op).getD (s.cluster.nodes v) := by
      rcases hdoes with ⟨m, hm, hn, -⟩ | ⟨hm, hn, -⟩
      · rw [hn, Function.update_self, hm, Option.getD_some]
      · rw [hn, hm, Option.getD_none]
    have hexec : ∀ r, (s.relay v).step (.actor op) = some r → Relay.Exact 0 r ∧
        r.executed = (s.relay v).executed := by
      intro r hr
      refine ⟨h.exact.step (show (s.relay v).KeepsUp (.actor op) from trivial) hr, ?_⟩
      rcases Relay.step_cases hr with ⟨_, -, -, -, -, -, -, he⟩ | ⟨_, _, ha, -⟩ | ⟨_, _, ha, -⟩ |
        ⟨_, ha, -⟩ | ⟨_, _, ha, -⟩
      · exact he
      all_goals cases ha
    constructor
    · simp only [Function.update_self]
      rw [hnode, hnodes, h.node]
    · simp only [Function.update_self]
      rw [hbox, hemr, hem, ← h.emitted, hout, List.append_nil, h.node]
    · simp only [Function.update_self]
      cases hr : (s.relay v).step (.actor op) with
      | none => exact h.exact
      | some r => exact (hexec r hr).1
    · simp only [executed, Function.update_self]
      cases hr : (s.relay v).step (.actor op) with
      | none => exact h.outcome
      | some r =>
        rw [Option.getD_some, (hexec r hr).2]
        exact h.outcome
  · rw [if_neg hv, List.append_nil] at hem
    refine h.of_eq ?_ hem (Function.update_of_ne hv ..) rfl
    rcases hdoes with ⟨m, -, hn, -⟩ | ⟨-, hn, -⟩
    · exact (congrFun hn v).trans (Function.update_of_ne hv ..)
    · exact congrFun hn v

/-- The channel steps of a process leave what it has executed. -/
theorem Works.channel {m : String → Option (Value F)} {v i : Fin n} {a : Relay.Act (Command F)}
    (h : Works num m s v) (ha : a ≠ .apply) (hactor : ∀ op, a ≠ .actor op)
    (hok : (s.relay i).KeepsUp a) (hs : s.channel i a = some s') : Works num m s' v := by
  obtain ⟨r, hr, rfl⟩ := Option.map_eq_some_iff.mp hs
  by_cases hv : v = i
  · subst hv
    have hkeep : r.node = (s.relay v).node ∧
        r.emitted ++ r.outbox = (s.relay v).emitted ++ (s.relay v).outbox ∧
        r.executed = (s.relay v).executed := by
      cases a with
      | actor op => exact absurd rfl (hactor op)
      | apply => exact absurd rfl ha
      | emit =>
        simp only [Relay.step] at hr
        split at hr
        · rename_i e es hbox
          obtain rfl := Option.some_inj.mp hr
          exact ⟨rfl, by simp [hbox], rfl⟩
        · cases hr
      | relayRecv =>
        simp only [Relay.step] at hr
        split at hr
        · obtain ⟨p, -, rfl⟩ := Option.map_eq_some_iff.mp hr
          exact ⟨rfl, rfl, rfl⟩
        · cases hr
      | relaySend =>
        simp only [Relay.step] at hr
        split at hr
        · obtain rfl := Option.some_inj.mp hr
          exact ⟨rfl, rfl, rfl⟩
        · cases hr
    constructor
    · simp only [Function.update_self]
      rw [hkeep.1, h.node]
    · simp only [Function.update_self]
      rw [hkeep.2.1, h.emitted]
    · simp only [Function.update_self]
      exact h.exact.step hok hr
    · simp only [executed, Function.update_self]
      rw [hkeep.2.2]
      exact h.outcome
  · exact h.of_eq rfl rfl (Function.update_of_ne hv ..) rfl

/-- What the apply loop receives is added to what it has to do. -/
theorem Works.receive {m : String → Option (Value F)} {v i : Fin n} (h : Works num m s v)
    (hs : s.receive i = some s') : Works num m s' v := by
  rw [Service.receive] at hs
  split at hs
  · rename_i hcur hqueue
    obtain ⟨r, hr, rfl⟩ := Option.map_eq_some_iff.mp hs
    by_cases hv : v = i
    · subst hv
      obtain ⟨o, l, hrecv, rfl⟩ : ∃ o l, (s.relay v).cmdChan.recv = some (o, l) ∧
          r = { s.relay v with cmdChan := l, executed := (s.relay v).executed ++ o.toList } := by
        obtain ⟨p, hp, rfl⟩ := Option.map_eq_some_iff.mp hr
        exact ⟨p.1, p.2, hp, rfl⟩
      constructor
      · simp only [Function.update_self]
        exact h.node
      · simp only [Function.update_self]
        exact h.emitted
      · simp only [Function.update_self]
        exact h.exact.step (show (s.relay v).KeepsUp .apply from trivial) hr
      · have hq := Replica.outcome_queue num (s.replica v) (o.toList.map CommitEntry.command)
        rw [hqueue, List.nil_append, h.outcome] at hq
        simp only [executed, Function.update_self, List.drop_left]
        rw [hq, meaning, meaning, executed, List.map_append, List.map_append,
          Prog.evalAll_append]
    · exact h.of_eq rfl rfl (Function.update_of_ne hv ..) (Function.update_of_ne hv ..)
  · cases hs

omit [Storage σ (Command F)] in
theorem Works.serve {m : String → Option (Value F)} {v i : Fin n} {e : Replica.Event}
    (h : Works num m s v) {r : Replica F} (hr : (s.replica i).step num (shard i) e = some r) :
    Works num m { s with replica := Function.update s.replica i r } v := by
  by_cases hv : v = i
  · subst hv
    refine ⟨h.node, h.emitted, h.exact, ?_⟩
    simp only [Function.update_self]
    exact (Replica.outcome_step hr).trans h.outcome
  · exact h.of_eq rfl rfl rfl (Function.update_of_ne hv ..)

/-- What a step is to the apply loop of process `v`: nothing, or it receives, or it goes on or
somebody reads. -/
theorem step_replica {a : Act n σ F} (hs : s.step num shard a = some s') (v : Fin n) :
    (s'.replica v = s.replica v ∧ s'.executed v = s.executed v) ∨
    (∃ cmds : List (Command F), cmds.length ≤ 1 ∧ (s.replica v).Finished ∧
      s'.replica v = { s.replica v with queue := cmds } ∧
      s'.executed v = s.executed v ++ cmds) ∨
    (∃ e, (s.replica v).step num (shard v) e = some (s'.replica v) ∧
      s'.executed v = s.executed v) := by
  have hupdate : ∀ {i : Fin n} {r : Relay σ (Command F) (Fin n)},
      r.executed = (s.relay i).executed →
        (Function.update s.relay i r v).executed = (s.relay v).executed := by
    intro i r hr
    by_cases hv : v = i
    · rw [hv, Function.update_self]
      exact hr
    · rw [Function.update_of_ne hv]
  have hchan : ∀ {i : Fin n} {b : Relay.Act (Command F)}, b ≠ .apply → s.channel i b = some s' →
      s'.replica v = s.replica v ∧ s'.executed v = s.executed v := by
    intro i b hb hs
    obtain ⟨r, hr, rfl⟩ := Option.map_eq_some_iff.mp hs
    exact ⟨rfl, congrArg (List.map CommitEntry.command) (hupdate (Relay.executed_eq hb hr))⟩
  cases a with
  | emit i => exact Or.inl (hchan (by simp) hs)
  | relayRecv i => exact Or.inl (hchan (by simp) hs)
  | relaySend i => exact Or.inl (hchan (by simp) hs)
  | recv i =>
    simp only [Service.step, Service.receive] at hs
    split at hs
    · rename_i hcur hqueue
      obtain ⟨r, hr, rfl⟩ := Option.map_eq_some_iff.mp hs
      by_cases hv : v = i
      · subst hv
        obtain ⟨⟨o, l⟩, -, rfl⟩ := Option.map_eq_some_iff.mp hr
        refine Or.inr (Or.inl ⟨o.toList.map CommitEntry.command, ?_, ⟨hcur, hqueue⟩, ?_, ?_⟩)
        · rw [List.length_map]
          exact Option.length_toList_le
        · simp only [Function.update_self, List.drop_left]
        · simp only [executed, Function.update_self, List.map_append]
      · refine Or.inl ⟨Function.update_of_ne hv .., ?_⟩
        simp only [executed, Function.update_of_ne hv]
    · cases hs
  | serve i e =>
    obtain ⟨r, hr, rfl⟩ := Option.map_eq_some_iff.mp hs
    by_cases hv : v = i
    · subst hv
      refine Or.inr (Or.inr ⟨e, ?_, rfl⟩)
      simp only [Function.update_self]
      exact hr
    · exact Or.inl ⟨Function.update_of_ne hv .., rfl⟩
  | consensus l =>
    simp only [Service.step] at hs
    split at hs
    · rename_i i op _
      split at hs
      · obtain ⟨c, -, rfl⟩ := Option.map_eq_some_iff.mp hs
        refine Or.inl ⟨rfl, congrArg (List.map CommitEntry.command) (hupdate ?_)⟩
        cases hr : (s.relay i).step (.actor op) with
        | none => rfl
        | some r => exact Relay.executed_eq (by simp) hr
      · cases hs
    · cases hs

/-- What has been executed is not forgotten. -/
theorem executed_step {a : Act n σ F} (hs : s.step num shard a = some s') (v : Fin n) :
    s.executed v <+: s'.executed v := by
  rcases step_replica hs v with ⟨-, he⟩ | ⟨cmds, -, -, -, he⟩ | ⟨e, -, he⟩
  · rw [he]
  · exact he ▸ List.prefix_append ..
  · rw [he]

/-! ## Runs -/

/-- The invariant of the deployment, for stores that held `m` at the start. -/
structure Inv (num : Numeric) (cfg : Config n σ (Command F)) (m : String → Option (Value F))
    (s : Service n σ F) : Prop where
  run : ∃ r, Cluster.Run cfg (Counted cfg) (s.cluster :: r)
  streams : ∀ v, Streams s.cluster v
  works : ∀ v, Works num m s v

theorem Inv.start (hf : cfg.Fresh) {store : Fin n → Datastore F}
    {m : String → Option (Value F)} (hm : ∀ v, (store v).values = m) :
    Inv num cfg m (Service.start cfg store) where
  run := ⟨[], .init⟩
  streams v := Streams.init hf v
  works v := by
    refine ⟨rfl, rfl, Relay.exact_start (cfg.node v) .new, ?_⟩
    change some ([], (store v).values) = some ([], m)
    rw [hm v]

/-- **Every step keeps it.** -/
theorem Inv.step {m : String → Option (Value F)} (h : Inv num cfg m s) {a : Act n σ F}
    (hok : Orderly cfg s a) (hs : s.step num shard a = some s') : Inv num cfg m s' := by
  have hchan : ∀ i b, b ≠ .apply → (∀ op, b ≠ .actor op) → (s.relay i).KeepsUp b →
      s.channel i b = some s' → Inv num cfg m s' := by
    intro i b hb hactor hkeep hs
    have hcluster : s'.cluster = s.cluster := by
      obtain ⟨r, -, rfl⟩ := Option.map_eq_some_iff.mp hs
      rfl
    exact ⟨hcluster ▸ h.run, hcluster ▸ h.streams, fun v ↦ (h.works v).channel hb hactor hkeep hs⟩
  cases a with
  | emit i => exact hchan i .emit (by simp) (by simp) hok hs
  | relayRecv i => exact hchan i .relayRecv (by simp) (by simp) trivial hs
  | relaySend i => exact hchan i .relaySend (by simp) (by simp) hok hs
  | recv i =>
    have hcluster : s'.cluster = s.cluster := by
      simp only [Service.step, Service.receive] at hs
      split at hs
      · obtain ⟨r, -, rfl⟩ := Option.map_eq_some_iff.mp hs
        rfl
      · cases hs
    exact ⟨hcluster ▸ h.run, hcluster ▸ h.streams, fun v ↦ (h.works v).receive hs⟩
  | serve i e =>
    obtain ⟨r, hr, rfl⟩ := Option.map_eq_some_iff.mp hs
    exact ⟨h.run, h.streams, fun v ↦ (h.works v).serve hr⟩
  | consensus l =>
    simp only [Service.step] at hs
    split at hs
    · rename_i i op hask
      split at hs
      · rename_i hout
        obtain ⟨c, hc, rfl⟩ := Option.map_eq_some_iff.mp hs
        obtain ⟨r, hr⟩ := h.run
        exact ⟨⟨s.cluster :: r, hr.step hok.1 hc⟩,
          fun v ↦ (h.streams v).step hok.2 hok.1.alive hc,
          fun v ↦ (h.works v).consensus hok.1.alive hask hout hc⟩
      · cases hs
    · cases hs

omit [Storage σ (Command F)] in
/-- What a process has executed is the beginning of what its node has emitted. -/
theorem Works.executed_isPrefix_commands {m : String → Option (Value F)} {v : Fin n}
    (h : Works num m s v) : s.executed v <+: s.cluster.commands v := by
  have hrelay := h.exact.cmd.isPrefix.trans
    ((List.prefix_append _ _).trans h.exact.commit.isPrefix)
  have hnode := hrelay.trans (List.prefix_append _ (s.relay v).outbox)
  rw [h.emitted] at hnode
  exact hnode.map CommitEntry.command

/-- Three nodes that have nothing stored. -/
def stores (F : Type) : Config 3 (MockStorage (Command F)) (Command F) where
  id := trio.id
  storage _ := ⟨PersistentState.default, []⟩
  urls := trio.urls
  node i := { (Consensus.new (trio.id i) ⟨PersistentState.default, []⟩ :
      Consensus (MockStorage (Command F)) (Command F) (Fin 3)) with
    peers := (trio.node i).peers }
  id_injective := trio.id_injective
  node_eq i := by fin_cases i <;> rfl
  nodup := trio.nodup
  mem_urls := trio.mem_urls

end Service

end Efis
