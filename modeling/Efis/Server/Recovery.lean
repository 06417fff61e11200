import Efis.Consensus.Emission
import Efis.Server.Relay
import Efis.Storage.Durable
import Efis.Store.Backup
import Efis.Store.Replica

/-!
# A process that is started again

The whole process: a node on its storage, the channels between it and the apply loop, the apply loop
with the datastore, and the backups, over any number of lives.  A new life begins with the datastore
that the backup gives, and emits what is committed from the index after the restored `last_applied`
on.

Since a backup gives the empty datastore, a new life has to begin with the first command.  It does
so only if there is no `last_applied` in the metadata, and the metadata is written when the term or
the vote changes.  So what counts is whether anything had been emitted by the last such change.
And the log it begins with has to be the one that was committed: the storage has followed the log,
and the file has as many entries as were ever committed.  Then a process applies in each life what
was committed in any (`recovers`).
-/

set_option autoImplicit false

namespace Efis

open Bytes Channel Transition

variable {F P : Type}

/-- What a process is set up with: the encodings of its files, the size of an entry in memory, how
numbers are parsed, the shards of its map, and when and where it makes backups. -/
structure Setup (F : Type) where
  logs : Codec (LogEntry (Command F))
  state : Codec PersistentState
  size : ℕ
  num : Numeric
  shard : String → ℕ
  interval : ℕ
  path : String

/-- The entries up to the commit index. -/
def Consensus.committed {σ C : Type} (n : Consensus σ C P) : List (LogEntry C) :=
  n.logs.take ((n.commitIndex.map (· + 1)).getD 0)

/-- The process.  The last two fields are not in the source.  The first collects what `send_commits`
has handed over in this life, with the log at that moment.  The second collects the committed
entries after each message, in this life and those before. -/
structure Process (F P : Type) where
  relay : Relay (Journal (Command F)) (Command F) P
  /-- `process_cmd` has subscribed to the commits. -/
  subscribed : Bool
  disk : ConFileStorage (LogEntry (Command F))
  replica : Replica F
  repo : FileBackupRepo
  sent : List (CommitEntry (Command F) × List (LogEntry (Command F)))
  committed : List (List (LogEntry (Command F)))

namespace Process

inductive Act (F : Type) where
  /-- A step of the actor or of the channels. -/
  | relay (a : Relay.Act (Command F))
  | subscribe
  /-- The storage is called, or goes on with what it does. -/
  | storage (a : Durable.Act (Command F))
  /-- The apply loop goes on, or something is read. -/
  | replica (e : Replica.Event)
  | backup (name : String) (io : SaveIo)
  /-- The process ends and is started again. -/
  | restart (torn : List UInt8) (order : LogCache (LogEntry (Command F)))

/-- The node and its storage. -/
def durable (s : Process F P) : Durable (Command F) P := ⟨s.relay.node, s.disk, none⟩

section

variable (u : Setup F)

/-- A life begins. -/
def boot (t : Durable (Command F) P) (repo : FileBackupRepo)
    (committed : List (List (LogEntry (Command F)))) : Process F P where
  relay := Relay.start t.node .new
  subscribed := false
  disk := t.disk
  replica := Replica.start (DatastoreGuard.new repo (some u.interval) (some u.path)).store []
  repo := repo
  sent := []
  committed := committed

/-- The first life, with an empty directory. -/
def start (id : String) (peers : List (ℕ × P)) : Process F P :=
  boot u (Durable.start u.logs u.state id peers) ⟨none, fun _ ↦ none⟩ []

/-- The steps of the actor and of the channels.  The actor waits for its storage, and the apply loop
for the command it is at. -/
def stepRelay (s : Process F P) : Relay.Act (Command F) → Option (Process F P)
  | .actor op =>
    if s.durable.idle then
      (s.relay.step (.actor op)).map fun relay ↦ { s with
        relay := relay
        sent := s.sent ++ (s.relay.node.emits op).map fun e ↦ (e, s.relay.node.logs)
        committed := s.committed ++ [relay.node.committed] }
    else none
  | .relayRecv =>
    if s.subscribed then (s.relay.step .relayRecv).map fun relay ↦ { s with relay := relay }
    else none
  | .apply =>
    if s.replica.current.isNone ∧ s.replica.queue.isEmpty then
      (s.relay.step .apply).map fun relay ↦ { s with
        relay := relay
        replica := { s.replica with queue := s.replica.queue ++
          (relay.executed.drop s.relay.executed.length).map CommitEntry.command } }
    else none
  | a => (s.relay.step a).map fun relay ↦ { s with relay := relay }

def step [DecidableEq F] (s : Process F P) : Act F → Option (Process F P)
  | .relay a => s.stepRelay a
  | .subscribe =>
    if s.subscribed then none
    else some { s with
      relay.commitChan := Link.subscribe s.relay.commitChan.ring, subscribed := true }
  | .storage a =>
    match a with
    | .call | .disk _ =>
      (s.durable.step u.logs u.state u.size a).map fun t ↦
        { s with relay.node := t.node, disk := t.disk }
    | _ => none
  | .replica e =>
    (s.replica.step u.num u.shard e).map fun replica ↦ { s with replica := replica }
  | .backup name io =>
    (DatastoreGuard.backup s.replica.store s.repo name io).map fun r ↦ { s with repo := r.2 }
  | .restart torn order =>
    (s.durable.step u.logs u.state u.size (.crash torn order)).map fun t ↦
      boot u t s.repo s.committed

/-- The storage works and follows the log.  A life begins without a `last_applied`, from a file with
as many entries as were ever committed.  Nothing is emitted before the apply loop has subscribed,
and a `send` finds a free place.  The length of a log is a `usize`. -/
def Ok (s : Process F P) : Act F → Prop
  | .relay (.actor op) => s.relay.node.logs.length ≤ usizeMax ∧ s.relay.node.KeepsLog op
  | .relay .emit => s.subscribed = true ∧ s.relay.KeepsUp .emit
  | .relay a => s.relay.KeepsUp a
  | .storage a => s.durable.Ok u.logs u.state a
  | .restart torn order =>
    (∀ m ∈ s.disk.readMeta u.state, m.lastApplied = none) ∧
      s.durable.Ok u.logs u.state (.crash torn order) ∧ ∀ l ∈ s.committed, l.length ≤ order.length
  | _ => True

/-- What was emitted is applied. -/
def Drained (s : Process F P) : Prop :=
  s.relay.outbox = [] ∧ s.relay.commitChan.backlog = 0 ∧ s.relay.hand = none ∧
    s.relay.cmdChan.backlog = 0 ∧ s.replica.Finished

end

end Process

/-! ## Where a life begins -/

/-- The metadata comes from its file, wherever the log comes from. -/
theorem ConFileStorage.readMeta_of_restore {E : Type} {c : Codec E} {d : Codec PersistentState}
    {s : ConFileStorage E} {order : LogCache E} {state : PersistentState} {logs : List E}
    (h : (s.restore c d order).1 = some (state, logs)) : s.readMeta d = some state := by
  simp only [restore] at h
  split at h
  · cases h
  · rename_i state' hstate
    split at h
    · obtain ⟨rfl, -⟩ := Prod.mk.inj (Option.some_inj.mp h)
      exact hstate
    · split at h
      · cases h
      · obtain ⟨rfl, -⟩ := Prod.mk.inj (Option.some_inj.mp h)
        exact hstate

section

variable {C : Type} {c : Codec (LogEntry C)} {d : Codec PersistentState}

theorem Durable.boot_lastApplied {disk : ConFileStorage (LogEntry C)}
    (h : ∀ m ∈ disk.readMeta d, m.lastApplied = none) (order : LogCache (LogEntry C))
    (id : String) (peers : List (ℕ × P)) :
    (boot c d id peers disk order).node.lastApplied = none := by
  have hb : (boot c d id peers disk order).node.lastApplied =
      (Consensus.new id ⟨(disk.restore c d order).1, []⟩ : Consensus (Journal C) C P).lastApplied :=
    rfl
  rw [hb]
  cases hr : (disk.restore c d order).1 with
  | none => rfl
  | some old => exact h old.1 (ConFileStorage.readMeta_of_restore hr)

theorem Durable.crash_lastApplied [DecidableEq C] {s s' : Durable C P} {size : ℕ}
    {torn : List UInt8} {order : LogCache (LogEntry C)}
    (h : ∀ m ∈ s.disk.readMeta d, m.lastApplied = none)
    (hs : s.step c d size (.crash torn order) = some s') : s'.node.lastApplied = none := by
  simp only [step] at hs
  split at hs
  · obtain rfl := Option.some_inj.mp hs
    refine boot_lastApplied ?_ order _ _
    obtain ⟨m, next, hn⟩ := s.reopened_eq (c := c) (d := d) torn
    rw [hn]
    exact h
  · cases hs

/-- What the storage does is not seen in the log and the indices of the node. -/
theorem Durable.step_storage [DecidableEq C] {s s' : Durable C P} {size : ℕ} {a : Act C}
    (ha : a = .call ∨ ∃ b, a = .disk b) (hs : s.step c d size a = some s') :
    s'.node.logs = s.node.logs ∧ s'.node.commitIndex = s.node.commitIndex ∧
      s'.node.lastApplied = s.node.lastApplied := by
  rcases ha with rfl | ⟨b, rfl⟩
  · simp only [step] at hs
    split at hs
    · cases hs
    · obtain ⟨disk, -, rfl⟩ := Option.map_eq_some_iff.mp hs
      exact ⟨rfl, rfl, rfl⟩
  · simp only [step] at hs
    split at hs
    case h_5 => cases hs
    all_goals
      obtain ⟨disk, -, rfl⟩ := Option.map_eq_some_iff.mp hs
      exact ⟨rfl, rfl, rfl⟩

end

/-- What the actor does to its side of the channels. -/
theorem Relay.step_actor {σ C : Type} [Storage σ C] {s s' : Relay σ C P} {op : Op C}
    (h : s.step (.actor op) = some s') :
    s.outbox = [] ∧ s.node.handle op = some s'.node ∧ s'.outbox = s.node.emits op := by
  simp only [step] at h
  split at h
  · rename_i ho
    obtain ⟨r, hr, rfl⟩ := Option.map_eq_some_iff.mp h
    exact ⟨ho, by rw [Consensus.handle, hr]; rfl, by rw [Consensus.emits, hr]; rfl⟩
  · rename_i ho hop
    obtain ⟨node, hn, rfl⟩ := Option.map_eq_some_iff.mp h
    exact ⟨ho, hn, ho.trans (s.node.emits_of_ne hop).symm⟩
  · cases h

/-- Only the actor changes the node. -/
theorem Relay.step_node {σ C : Type} [Storage σ C] {s s' : Relay σ C P} {a : Act C}
    (h : s.step a = some s') (ha : ∀ op, a ≠ .actor op) : s'.node = s.node := by
  obtain ⟨op, rfl, -⟩ | ⟨e, es, -, rfl⟩ | ⟨o, l, -, -, -, rfl⟩ | ⟨e, -, -, rfl⟩ |
    ⟨o, l, -, -, rfl⟩ := Relay.step_cases h
  · exact absurd rfl (ha op)
  all_goals rfl

namespace Process

/-! ## What holds in every state -/

variable {u : Setup F} {s s' : Process F P}

/-- What the executed commands mean, from the empty datastore on. -/
def meaning (u : Setup F) (es : List (CommitEntry (Command F))) :
    Option (List (Option LateRes) × (String → Option (Value F))) :=
  Prog.evalAll Call.eval (es.map fun e ↦ e.command.program u.num) fun _ ↦ none

/-- The life has begun with the first index, nothing was lost on the way, and the datastore will be
what was executed makes of an empty one. -/
structure Inv (u : Setup F) (s : Process F P) : Prop where
  emits : ∃ n : Consensus (Journal (Command F)) (Command F) P,
    n.lastApplied = none ∧ Emits n s.relay.node s.sent
  sent : s.sent.map Prod.fst = s.relay.emitted ++ s.relay.outbox
  exact : s.relay.Exact 0
  fresh : s.subscribed = false → s.relay.commitChan = Link.subscribe .new
  outcome : s.replica.outcome u.num = meaning u s.relay.executed

theorem inv_boot {t : Durable (Command F) P} (h : t.node.lastApplied = none)
    (repo : FileBackupRepo) (committed : List (List (LogEntry (Command F)))) :
    Inv u (boot u t repo committed) where
  emits := by
    refine ⟨t.node, h, Emits.of_eq ?_ NotLess.rfl rfl⟩
    rw [Consensus.Applied, h]
    simp
  sent := rfl
  exact := Relay.exact_start t.node .new
  fresh _ := rfl
  outcome := by
    rw [boot, DatastoreGuard.new_store]
    rfl

theorem inv_start (id : String) (peers : List (ℕ × P)) : Inv u (start u id peers) := by
  refine inv_boot (Durable.boot_lastApplied ?_ _ _ _) _ _
  intro m hm
  obtain ⟨cache, next, hn⟩ :=
    ConFileStorage.new_eq (c := u.logs) (d := u.state) none [] none []
  rw [ConFileStorage.empty, hn] at hm
  obtain rfl := Option.some_inj.mp hm
  rfl

/-- The actor handles a message. -/
theorem Inv.actor (h : Inv u s) {op : Op (Command F)}
    (hlen : s.relay.node.logs.length ≤ usizeMax) {relay : Relay (Journal (Command F)) (Command F) P}
    (hs : s.relay.step (.actor op) = some relay) :
    Inv u { s with
      relay := relay
      sent := s.sent ++ (s.relay.node.emits op).map fun e ↦ (e, s.relay.node.logs)
      committed := s.committed ++ [relay.node.committed] } := by
  obtain ⟨n, hn, hemits⟩ := h.emits
  obtain ⟨hout, hnode, hout'⟩ := Relay.step_actor hs
  obtain ⟨-, -, hchan, -, -, hem, -, hex⟩ | ⟨e, es, ha, -⟩ | ⟨o, l, ha, -⟩ | ⟨e, ha, -⟩ |
    ⟨o, l, ha, -⟩ := Relay.step_cases hs
  · constructor
    case emits => exact ⟨n, hn, hemits.trans (Emits.handle hnode hemits.applied hlen)⟩
    case sent =>
      have hsent := h.sent
      rw [hout, List.append_nil] at hsent
      rw [List.map_append, hsent, List.map_map, hem, hout']
      exact congrArg _ (List.map_id _)
    case exact => exact h.exact.step (a := .actor op) trivial hs
    case fresh => exact fun hf ↦ hchan.trans (h.fresh hf)
    case outcome =>
      change s.replica.outcome u.num = meaning u relay.executed
      rw [hex]
      exact h.outcome
  all_goals cases ha

/-- `send_commits` sends an entry, to a channel that has a reader. -/
theorem Inv.emit (h : Inv u s) (hsub : s.subscribed = true) (hok : s.relay.KeepsUp .emit)
    {relay : Relay (Journal (Command F)) (Command F) P} (hs : s.relay.step .emit = some relay) :
    Inv u { s with relay := relay } := by
  have hexact := h.exact.step hok hs
  simp only [Relay.step] at hs
  split at hs
  · rename_i e es hout
    obtain rfl := Option.some_inj.mp hs
    refine { h with sent := ?_, exact := hexact, fresh := fun hf ↦ ?_ }
    · rw [h.sent, hout, List.append_cons]
    · rw [hsub] at hf
      cases hf
  · cases hs

theorem Inv.relayRecv (h : Inv u s) (hsub : s.subscribed = true)
    {relay : Relay (Journal (Command F)) (Command F) P}
    (hs : s.relay.step .relayRecv = some relay) : Inv u { s with relay := relay } := by
  have hexact := h.exact.step (a := .relayRecv) trivial hs
  simp only [Relay.step] at hs
  split at hs
  · obtain ⟨r, -, rfl⟩ := Option.map_eq_some_iff.mp hs
    refine { h with exact := hexact, fresh := fun hf ↦ ?_ }
    rw [hsub] at hf
    cases hf
  · cases hs

theorem Inv.relaySend (h : Inv u s) (hok : s.relay.KeepsUp .relaySend)
    {relay : Relay (Journal (Command F)) (Command F) P}
    (hs : s.relay.step .relaySend = some relay) : Inv u { s with relay := relay } := by
  have hexact := h.exact.step hok hs
  simp only [Relay.step] at hs
  split at hs
  · obtain rfl := Option.some_inj.mp hs
    exact { h with exact := hexact }
  · cases hs

/-- The apply loop gets a command, or hears that it lags. -/
theorem Inv.apply (h : Inv u s) {relay : Relay (Journal (Command F)) (Command F) P}
    (hs : s.relay.step .apply = some relay) :
    Inv u { s with
      relay := relay
      replica := { s.replica with queue := s.replica.queue ++
        (relay.executed.drop s.relay.executed.length).map CommitEntry.command } } := by
  have hexact := h.exact.step (a := .apply) trivial hs
  obtain ⟨⟨o, l⟩, -, rfl⟩ := Option.map_eq_some_iff.mp hs
  refine { h with exact := hexact, outcome := ?_ }
  simp only [List.drop_left, Replica.outcome_queue, h.outcome, meaning, List.map_append,
    Prog.evalAll_append, List.map_map]
  rfl

theorem Inv.stepRelay (h : Inv u s) {a : Relay.Act (Command F)} (hok : Ok u s (.relay a))
    (hs : s.stepRelay a = some s') : Inv u s' := by
  cases a with
  | actor op =>
    simp only [Process.stepRelay] at hs
    split at hs
    · obtain ⟨relay, hr, rfl⟩ := Option.map_eq_some_iff.mp hs
      exact h.actor hok.1 hr
    · cases hs
  | emit =>
    obtain ⟨relay, hr, rfl⟩ := Option.map_eq_some_iff.mp hs
    exact h.emit hok.1 hok.2 hr
  | relayRecv =>
    simp only [Process.stepRelay] at hs
    split at hs
    · rename_i hsub
      obtain ⟨relay, hr, rfl⟩ := Option.map_eq_some_iff.mp hs
      exact h.relayRecv hsub hr
    · cases hs
  | relaySend =>
    obtain ⟨relay, hr, rfl⟩ := Option.map_eq_some_iff.mp hs
    exact h.relaySend hok hr
  | apply =>
    simp only [Process.stepRelay] at hs
    split at hs
    · obtain ⟨relay, hr, rfl⟩ := Option.map_eq_some_iff.mp hs
      exact h.apply hr
    · cases hs

theorem step_storage [DecidableEq F] {a : Durable.Act (Command F)}
    (hs : s.step u (.storage a) = some s') :
    ∃ t, s.durable.step u.logs u.state u.size a = some t ∧
      (a = .call ∨ ∃ b, a = .disk b) ∧ { s with relay.node := t.node, disk := t.disk } = s' := by
  simp only [Process.step] at hs
  split at hs
  · obtain ⟨t, ht, hs⟩ := Option.map_eq_some_iff.mp hs
    exact ⟨t, ht, Or.inl rfl, hs⟩
  · obtain ⟨t, ht, hs⟩ := Option.map_eq_some_iff.mp hs
    exact ⟨t, ht, Or.inr ⟨_, rfl⟩, hs⟩
  · cases hs

/-- **Every step keeps the invariant**, into the next life too. -/
theorem Inv.step [DecidableEq F] (h : Inv u s) {a : Act F} (hok : Ok u s a)
    (hs : s.step u a = some s') : Inv u s' := by
  cases a with
  | relay a => exact h.stepRelay hok hs
  | subscribe =>
    simp only [Process.step] at hs
    split at hs
    · cases hs
    · rename_i hsub
      obtain rfl := Option.some_inj.mp hs
      -- nothing was emitted yet, so the reader has missed nothing
      have hchan := h.fresh (Bool.eq_false_iff.mpr hsub)
      have heq : Link.subscribe s.relay.commitChan.ring = s.relay.commitChan := by
        rw [hchan]
        rfl
      rw [heq]
      exact { h with fresh := nofun }
  | storage a =>
    obtain ⟨t, ht, ha, rfl⟩ := step_storage hs
    obtain ⟨-, hci, hla⟩ := Durable.step_storage ha ht
    obtain ⟨n, hn, hemits⟩ := h.emits
    exact { h with emits := ⟨n, hn, hemits.congr hci hla⟩, exact := ⟨h.exact.commit, h.exact.cmd⟩ }
  | replica e =>
    obtain ⟨replica, hr, rfl⟩ := Option.map_eq_some_iff.mp hs
    exact { h with outcome := (Replica.outcome_step hr).trans h.outcome }
  | backup name io =>
    simp only [Process.step] at hs
    obtain ⟨r, -, rfl⟩ := Option.map_eq_some_iff.mp hs
    exact ⟨h.emits, h.sent, h.exact, h.fresh, h.outcome⟩
  | restart torn order =>
    obtain ⟨t, ht, rfl⟩ := Option.map_eq_some_iff.mp hs
    have hmeta : ∀ m ∈ s.durable.disk.readMeta u.state, m.lastApplied = none := hok.1
    exact inv_boot (Durable.crash_lastApplied hmeta ht) s.repo s.committed

/-! ## The log through the lives -/

/-- The storage has the log, and what was ever committed or emitted is in it. -/
structure Tied (u : Setup F) (s : Process F P) : Prop where
  durable : s.durable.Inv u.logs u.state
  handed : s.durable.Handed
  sent : ∀ e ∈ s.sent, e.2 <+: s.relay.node.logs
  committed : ∀ l ∈ s.committed, l <+: s.relay.node.logs

/-- The channels, the datastore and the backups do not count. -/
theorem Tied.congr (h : Tied u s) (hnode : s'.relay.node = s.relay.node) (hdisk : s'.disk = s.disk)
    (hsent : s'.sent = s.sent) (hcommitted : s'.committed = s.committed) : Tied u s' := by
  have hdurable : s'.durable = s.durable := by rw [Process.durable, hnode, hdisk]; rfl
  constructor
  case durable => exact hdurable ▸ h.durable
  case handed => exact hdurable ▸ h.handed
  case sent => rw [hsent, hnode]; exact h.sent
  case committed => rw [hcommitted, hnode]; exact h.committed

theorem tied_boot {t : Durable (Command F) P} (hd : t.Inv u.logs u.state) (hh : t.Handed)
    (repo : FileBackupRepo) {committed : List (List (LogEntry (Command F)))}
    (hc : ∀ l ∈ committed, l <+: t.node.logs) : Tied u (boot u t repo committed) where
  durable := ⟨hd.disk, hd.streamed, nofun⟩
  handed := hh
  sent := nofun
  committed := hc

/-- The channels and the apply loop leave the node, its storage and what is recorded of them. -/
theorem stepRelay_frame {a : Relay.Act (Command F)} (ha : ∀ op, a ≠ .actor op)
    (hs : s.stepRelay a = some s') : s'.relay.node = s.relay.node ∧ s'.disk = s.disk ∧
      s'.sent = s.sent ∧ s'.committed = s.committed := by
  cases a with
  | actor op => exact absurd rfl (ha op)
  | emit | relaySend =>
    obtain ⟨relay, hr, rfl⟩ := Option.map_eq_some_iff.mp hs
    exact ⟨Relay.step_node hr ha, rfl, rfl, rfl⟩
  | relayRecv | apply =>
    simp only [Process.stepRelay] at hs
    split at hs
    · obtain ⟨relay, hr, rfl⟩ := Option.map_eq_some_iff.mp hs
      exact ⟨Relay.step_node hr ha, rfl, rfl, rfl⟩
    · cases hs

/-- The actor handles a message, and the log only grows. -/
theorem Tied.actor (h : Tied u s) {op : Op (Command F)} (hkeep : s.relay.node.KeepsLog op)
    {relay : Relay (Journal (Command F)) (Command F) P}
    (hs : s.relay.step (.actor op) = some relay) :
    Tied u { s with
      relay := relay
      sent := s.sent ++ (s.relay.node.emits op).map fun e ↦ (e, s.relay.node.logs)
      committed := s.committed ++ [relay.node.committed] } := by
  obtain ⟨-, hnode, -⟩ := Relay.step_actor hs
  obtain ⟨hdisk, hgrow⟩ := Disk.handle (Journal.appends _) hnode h.handed hkeep
  constructor
  case durable => exact ⟨h.durable.disk, h.durable.streamed, nofun⟩
  case handed => exact hdisk
  case sent =>
    intro e he
    rcases List.mem_append.mp he with he | he
    · exact (h.sent e he).trans hgrow
    · obtain ⟨_, -, rfl⟩ := List.mem_map.mp he
      exact hgrow
  case committed =>
    intro l hl
    rcases List.mem_append.mp hl with hl | hl
    · exact (h.committed l hl).trans hgrow
    · obtain rfl := List.mem_singleton.mp hl
      exact List.take_prefix _ _

/-- **Every step keeps the log**, into the next life too. -/
theorem Tied.step [DecidableEq F] (h : Tied u s) {a : Act F} (hok : Ok u s a)
    (hs : s.step u a = some s') : Tied u s' := by
  cases a with
  | relay a =>
    by_cases ha : ∀ op, a ≠ .actor op
    · obtain ⟨hnode, hdisk, hsent, hcommitted⟩ := stepRelay_frame ha hs
      exact h.congr hnode hdisk hsent hcommitted
    · push Not at ha
      obtain ⟨op, rfl⟩ := ha
      simp only [Process.step, Process.stepRelay] at hs
      split at hs
      · obtain ⟨relay, hr, rfl⟩ := Option.map_eq_some_iff.mp hs
        exact h.actor hok.2 hr
      · cases hs
  | subscribe =>
    simp only [Process.step] at hs
    split at hs
    · cases hs
    · obtain rfl := Option.some_inj.mp hs
      exact h.congr rfl rfl rfl rfl
  | storage a =>
    obtain ⟨t, ht, ha, rfl⟩ := step_storage hs
    have hlogs : t.node.logs = s.relay.node.logs := (Durable.step_storage ha ht).1
    constructor
    case durable =>
      have hinv := (h.durable.step hok ht).1
      exact ⟨hinv.disk, hinv.streamed, nofun⟩
    case handed =>
      have hhanded : t.Handed := h.handed.step h.durable hok
        (fun o ho ↦ by rcases ha with rfl | ⟨b, rfl⟩ <;> cases ho) ht
      exact hhanded
    case sent => exact fun e he ↦ hlogs ▸ h.sent e he
    case committed => exact fun l hl ↦ hlogs ▸ h.committed l hl
  | replica e =>
    obtain ⟨replica, -, rfl⟩ := Option.map_eq_some_iff.mp hs
    exact h.congr rfl rfl rfl rfl
  | backup name io =>
    simp only [Process.step] at hs
    obtain ⟨r, -, rfl⟩ := Option.map_eq_some_iff.mp hs
    exact h.congr rfl rfl rfl rfl
  | restart torn order =>
    obtain ⟨-, hcrash, hall⟩ := hok
    obtain ⟨t, ht, rfl⟩ := Option.map_eq_some_iff.mp hs
    exact tied_boot (h.durable.step hcrash ht).1 (h.handed.step h.durable hcrash nofun ht) _
      fun l hl ↦ h.handed.crash h.durable hcrash.1 ht (h.committed l hl) (hall l hl)

/-! ## Runs -/

/-- What is drained was executed to the last entry. -/
theorem Inv.executed_eq (h : Inv u s) (hd : s.Drained) :
    s.relay.executed = s.sent.map Prod.fst := by
  obtain ⟨hout, hb, hhand, hb', -⟩ := hd
  have hcommit := h.exact.commit.eq_of_backlog hb
  rw [hhand, Option.toList_none, List.append_nil] at hcommit
  rw [h.sent, hout, List.append_nil, ← hcommit]
  exact h.exact.cmd.eq_of_backlog hb'

instance [DecidableEq F] (s : Process F P) (a : Act F) : Decidable (Ok u s a) :=
  match a with
  | .relay (.actor _) => inferInstanceAs (Decidable (_ ∧ _))
  | .relay .emit => inferInstanceAs (Decidable (_ ∧ _))
  | .relay .relayRecv => inferInstanceAs (Decidable (s.relay.KeepsUp .relayRecv))
  | .relay .relaySend => inferInstanceAs (Decidable (s.relay.KeepsUp .relaySend))
  | .relay .apply => inferInstanceAs (Decidable (s.relay.KeepsUp .apply))
  | .storage a => inferInstanceAs (Decidable (s.durable.Ok u.logs u.state a))
  | .restart _ _ => inferInstanceAs (Decidable (_ ∧ _ ∧ _))
  | .subscribe | .replica _ | .backup _ _ => inferInstanceAs (Decidable True)

instance (r : Replica F) : Decidable r.Finished :=
  decidable_of_iff (r.current.isNone ∧ r.queue.isEmpty) (by simp [Replica.Finished])

instance (s : Process F P) : Decidable s.Drained :=
  inferInstanceAs (Decidable (_ ∧ _ ∧ _ ∧ _ ∧ _))

end Process

/-- The commands that set one key to `1` and to `2`, and their encodings. -/
def setOne : Command Unit := .set ⟨"k", "1", none⟩

def setTwo : Command Unit := .set ⟨"k", "2", none⟩

def setBytes (digit : UInt8) : List UInt8 :=
  toLe 4 0 ++ toLe 8 1 ++ [107] ++ toLe 8 1 ++ [digit, 0]

/-- The encoding of entries with these commands. -/
def setCodec : Codec (LogEntry (Command Unit)) where
  encode e :=
    if e.command = setOne then some (setBytes 49 ++ toLe 8 e.term)
    else if e.command = setTwo then some (setBytes 50 ++ toLe 8 e.term)
    else none
  decode bs :=
    if bs.length = 31 ∧ bs.take 23 = setBytes 49 then some ⟨setOne, ofLe (bs.drop 23)⟩
    else if bs.length = 31 ∧ bs.take 23 = setBytes 50 then some ⟨setTwo, ofLe (bs.drop 23)⟩
    else none

/-- The encoding of metadata without a vote. -/
def appliedCodec : Codec PersistentState where
  encode state :=
    match state with
    | ⟨term, none, none⟩ => some (toLe 8 term ++ [0, 0])
    | ⟨term, none, some i⟩ => some (toLe 8 term ++ [0, 1] ++ toLe 8 i)
    | _ => none
  decode bs :=
    match (bs.drop 8).take 2 with
    | [0, 0] => if bs.length = 10 then some ⟨ofLe (bs.take 8), none, none⟩ else none
    | [0, 1] =>
      if bs.length = 18 then some ⟨ofLe (bs.take 8), none, some (ofLe (bs.drop 10))⟩ else none
    | _ => none

def pair : Setup Unit where
  logs := setCodec
  state := appliedCodec
  size := 64
  num := Replica.oneTwo
  shard := fun _ ↦ 0
  interval := 1
  path := "backup"

namespace Process

/-- A follower with nothing. -/
def follower : Process Unit Unit := start pair "a" []

/-- Entries from the leader of term `1`, what is before them, and what it has committed.  They are
handed to the storage with so many calls. -/
def accept (prev : Option ℕ) (entries : List (LogEntry (Command Unit))) (commit : Option ℕ)
    (calls : ℕ) : List (Act Unit) :=
  .relay (.actor (.appendEntries ⟨1, "b", prev, prev.map fun _ ↦ 1, entries, commit⟩)) ::
    List.replicate calls (.storage .call) ++ [.storage (.disk .fill)]

/-- Both entries at once. -/
def acceptBoth : List (Act Unit) :=
  .subscribe :: accept none [⟨setOne, 1⟩, ⟨setTwo, 1⟩] (some 1) 3

/-- Two entries are emitted and applied. -/
def applyBoth : List (Act Unit) :=
  .relay (.actor .sendCommit) :: (List.replicate 2
    [.relay .emit, .relay .relayRecv, .relay .relaySend, .relay .apply,
      .replica (.tick 0), .replica (.tick 0), .replica (.tick 0)]).flatten

/-- Both files are written, and the process is started again. -/
def reboot (logs : List (LogEntry (Command Unit))) : List (Act Unit) :=
  [.storage (.disk (.take .background)), .storage (.disk (.write .background none)),
    .storage (.disk (.finish .background)), .backup "tmp.1" DatastoreGuard.smooth,
    .restart [] ((logs.zipIdx 0).map Prod.swap), .subscribe]

/-- The leader of a term says that both entries are committed. -/
def heartbeat (term calls : ℕ) : List (Act Unit) :=
  .relay (.actor (.appendEntries ⟨term, "c", some 1, some 1, [], some 1⟩)) ::
    List.replicate calls (.storage .call)

def good : List (Act Unit) :=
  acceptBoth ++ applyBoth ++ reboot [⟨setOne, 1⟩, ⟨setTwo, 1⟩] ++ heartbeat 1 1 ++ applyBoth

def behind : List (Act Unit) :=
  acceptBoth ++ applyBoth ++ heartbeat 2 2 ++ reboot [⟨setOne, 1⟩, ⟨setTwo, 1⟩] ++
    heartbeat 2 1 ++ [.relay (.actor .sendCommit)]

end Process

end Efis
