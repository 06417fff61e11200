import Efis.Consensus.Persist
import Efis.Consensus.Refinement
import Efis.Storage.ConFile

/-!
# What an answer is worth after a crash

A node on a `ConFileStorage`, with the crashes of its process.  A handler calls `persist_state`,
which puts the new entries into the buffer of the storage, and then answers; the buffer is written
to the file later, by the background task.  A crash loses the buffer, so it can lose entries that
the node has said it has.

An answer is safe if the entries it is about were in the file when it was given, and this comes to
two things (`survives_iff`): they were handed to the storage in the order of the log, each of them
once, and as many bytes as they take had been written.  The first is so as long as the storage
follows the log (`Durable.Handed.step`).
-/

set_option autoImplicit false

namespace Efis

open Bytes Transition

/-! ## The map in order -/

namespace LogCache

variable {E : Type} {m order : LogCache E}

/-- The map is iterated by increasing index. -/
def Ascending (order : LogCache E) : Prop := order.Pairwise fun p q ↦ p.1 < q.1

instance (order : LogCache E) : Decidable (Ascending order) :=
  inferInstanceAs (Decidable (order.Pairwise fun p q ↦ p.1 < q.1))

theorem insertAll_eq {start : ℕ} (h : ∀ p ∈ m, p.1 < start) (es : List E) :
    m.insertAll start es = m ++ (es.zipIdx start).map Prod.swap := by
  induction es generalizing m start with
  | nil => rw [insertAll, List.zipIdx_nil, List.map_nil, List.append_nil]
  | cons e es ih =>
    have hf : m.filter (·.1 ≠ start) = m :=
      List.filter_eq_self.mpr fun p hp ↦ decide_eq_true (h p hp).ne
    have hins : m.insert start e = m ++ [(start, e)] := by rw [LogCache.insert, hf]
    have hlt : ∀ p ∈ m.insert start e, p.1 < start + 1 := by
      rw [hins, List.forall_mem_append, List.forall_mem_singleton]
      exact ⟨fun p hp ↦ Nat.lt_succ_of_lt (h p hp), Nat.lt_succ_self start⟩
    rw [insertAll, ih hlt, hins, List.append_assoc, List.zipIdx_cons, List.map_cons]
    rfl

theorem ascending_zipIdx (l : List E) (start : ℕ) :
    Ascending ((l.zipIdx start).map Prod.swap) := by
  induction l generalizing start with
  | nil => exact List.Pairwise.nil
  | cons e es ih =>
    rw [List.zipIdx_cons, List.map_cons]
    refine List.Pairwise.cons (fun q hq ↦ ?_) (ih (start + 1))
    obtain ⟨⟨x, i⟩, hx, rfl⟩ := List.mem_map.mp hq
    exact (List.mem_zipIdx hx).1

theorem map_snd_zipIdx (l : List E) (start : ℕ) :
    ((l.zipIdx start).map Prod.swap).map Prod.snd = l := by
  rw [List.map_map]
  exact List.zipIdx_map_fst start l

/-- In order, a map that was filled from a log is the log. -/
theorem Ascending.map_snd (ho : Ascending order) {l : List E}
    (hp : order.Perm ((l.zipIdx 0).map Prod.swap)) : order.map Prod.snd = l := by
  have heq : order = (l.zipIdx 0).map Prod.swap :=
    hp.eq_of_pairwise (fun a b _ _ hab hba ↦ absurd (hab.trans hba) (lt_irrefl _)) ho
      (ascending_zipIdx l 0)
  rw [heq, map_snd_zipIdx]

end LogCache

/-! ## The bytes in order -/

/-- The bytes that a call of `flush` has still to write. -/
def Flush.chunk : Flush → List UInt8
  | .taken chunk => chunk
  | _ => []

@[simp] theorem Flush.chunk_idle : Flush.idle.chunk = [] := rfl
@[simp] theorem Flush.chunk_taken (chunk : List UInt8) : (Flush.taken chunk).chunk = chunk := rfl
@[simp] theorem Flush.chunk_written : Flush.written.chunk = [] := rfl

namespace ConFileStorage

variable {E : Type} {c : Codec E} {d : Codec PersistentState} {size : ℕ}
  {s s' : ConFileStorage E}

/-- A `flush` takes the buffer only when no other has bytes left to write. -/
def InTurn (s : ConFileStorage E) : Act E → Prop
  | .take _ => (s.flush .background).chunk = [] ∧ (s.flush .appender).chunk = []
  | _ => True

/-- File, flushes and buffer make up the frames of what was appended. -/
structure Streamed (c : Codec E) (s : ConFileStorage E) : Prop where
  one : (s.flush .background).chunk = [] ∨ (s.flush .appender).chunk = []
  bytes : s.writer.file ++ ((s.flush .background).chunk ++ ((s.flush .appender).chunk ++
    (s.writer.buffer ++ c.frames s.append.batch))) = c.frames s.appended

/-- `store` changes nothing but the metadata. -/
theorem store_snd (state : PersistentState) :
    ∃ metaFile last, (s.store d state).2 =
      { s with metaFile := metaFile, lastMetadata := last } := by
  simp only [ConFileStorage.store]
  split
  · exact ⟨s.metaFile, s.lastMetadata, rfl⟩
  · split
    · exact ⟨_, _, rfl⟩
    · exact ⟨s.metaFile, s.lastMetadata, rfl⟩

/-- `restore` changes nothing but the map. -/
theorem restore_snd (order : LogCache E) :
    ∃ m next, (s.restore c d order).2 = { s with logCache := m, lastCachedIndex := next } := by
  simp only [restore]
  split
  · exact ⟨s.logCache, s.lastCachedIndex, rfl⟩
  · split
    · exact ⟨s.logCache, s.lastCachedIndex, rfl⟩
    · split
      · exact ⟨s.logCache, s.lastCachedIndex, rfl⟩
      · exact ⟨_, _, rfl⟩

theorem new_eq (metaFile : Option (List UInt8)) (file : List UInt8)
    (lastMetadata : Option PersistentState) (appended : List E) :
    ∃ m next, new c d metaFile file lastMetadata appended =
      ⟨⟨[], file, 0, false⟩, metaFile, m, next, fun _ ↦ .idle, .idle, lastMetadata, appended⟩ := by
  simp only [new, warmCache]
  generalize hs : (ConFileStorage.mk (E := E) ⟨[], file, 0, false⟩ metaFile [] 0 _ _ _ _) = s
  obtain ⟨m, next, hr⟩ := restore_snd (s := s) (c := c) (d := d) []
  rw [hr, ← hs]
  exact ⟨_, _, rfl⟩

/-- The map of a storage that was opened on a file with the given entries. -/
theorem new_logCache_perm {bytes : List UInt8} {logs : List E} {metaFile : Option (List UInt8)}
    (hfile : c.readFile bytes = some logs)
    (hmeta : ∀ content ∈ metaFile, (d.decode content).isSome)
    (lastMetadata : Option PersistentState) (appended : List E) :
    (new c d metaFile bytes lastMetadata appended).logCache.Perm
      ((logs.zipIdx 0).map Prod.swap) := by
  rw [new, warmCache_eq hfile (readMeta_isSome_iff.mpr hmeta)]
  generalize logs.length - 1000 = start
  generalize start + 1000 = next
  refine (LogCache.warm_perm logs start).trans ?_
  rw [LogCache.insertAll_eq (by simp), List.nil_append]

/-- `restore` reads the same from the map as from the file, if the map is read in order. -/
theorem restore_fst {logs : List E} (hfile : c.readFile s.writer.file = some logs)
    (hmeta : (s.readMeta d).isSome) {order : LogCache E} (ho : order.map Prod.snd = logs) :
    ∃ state, (s.restore c d order).1 = some (state, logs) := by
  obtain ⟨state, hstate⟩ := Option.isSome_iff_exists.mp hmeta
  refine ⟨state, ?_⟩
  simp only [restore, hstate, ho, hfile]
  split <;> rfl

theorem afterFlush_eq (s : ConFileStorage E) (who : Flusher) :
    ∃ a : Append E, s.afterFlush true who = { s with append := a } ∧ a.batch = s.append.batch := by
  cases who with
  | background => exact ⟨s.append, rfl, rfl⟩
  | appender =>
    simp only [afterFlush]
    split
    · rename_i entries ha
      exact ⟨.appending entries, rfl, by rw [ha]; rfl⟩
    · exact ⟨s.append, rfl, rfl⟩

theorem Streamed.afterFlush (h : Streamed c s) (who : Flusher) :
    Streamed c (s.afterFlush true who) ∧
      s.writer.file <+: (s.afterFlush true who).writer.file := by
  obtain ⟨a, ha, hb⟩ := s.afterFlush_eq who
  rw [ha]
  exact ⟨⟨h.one, by simpa only [hb] using h.bytes⟩, List.prefix_rfl⟩

theorem Streamed.take (h : Streamed c s) {who : Flusher}
    (hbg : (s.flush .background).chunk = []) (hap : (s.flush .appender).chunk = []) :
    Streamed c { s.setFlush who (.taken s.writer.buffer) with
      writer := { s.writer with buffer := [] } } := by
  have hbytes := h.bytes
  rw [hbg, hap, List.nil_append, List.nil_append] at hbytes
  cases who with
  | background => exact ⟨Or.inr hap, by simpa [setFlush, hap] using hbytes⟩
  | appender => exact ⟨Or.inl hbg, by simpa [setFlush, hbg] using hbytes⟩

theorem Streamed.write (h : Streamed c s) {who : Flusher} {chunk : List UInt8}
    (ht : s.flush who = .taken chunk) :
    Streamed c { s.setFlush who .written with
      writer := { s.writer with file := s.writer.file ++ chunk } } := by
  obtain ⟨hone, hbytes⟩ := h
  cases who with
  | background =>
    refine ⟨Or.inl (by simp [setFlush]), ?_⟩
    simpa [setFlush, ht] using hbytes
  | appender =>
    refine ⟨Or.inr (by simp [setFlush]), ?_⟩
    -- what the background has taken comes first in `bytes`, so it must not be there
    rcases hone with hbg | hap
    · simpa [setFlush, ht, hbg] using hbytes
    · rw [ht] at hap
      obtain rfl : chunk = [] := hap
      simpa [setFlush, ht] using hbytes

/-- A call of `flush` that has nothing left to write returns. -/
theorem Streamed.returns (h : Streamed c s) {who : Flusher} (hw : (s.flush who).chunk = [])
    (pending : ℕ) :
    Streamed c { s.setFlush who .idle with
      writer := { s.writer with pendingBytes := pending } } := by
  obtain ⟨hone, hbytes⟩ := h
  cases who with
  | background =>
    refine ⟨Or.inl (by simp [setFlush]), ?_⟩
    rw [hw] at hbytes
    simpa [setFlush] using hbytes
  | appender =>
    refine ⟨Or.inr (by simp [setFlush]), ?_⟩
    rw [hw] at hbytes
    simpa [setFlush] using hbytes

/-- The storage with all that was appended in its file. -/
theorem streamed_new {file : List UInt8} {appended : List E} (h : file = c.frames appended)
    (metaFile : Option (List UInt8)) (lastMetadata : Option PersistentState) :
    Streamed c (new c d metaFile file lastMetadata appended) := by
  obtain ⟨m, next, hn⟩ := new_eq (c := c) (d := d) metaFile file lastMetadata appended
  rw [hn]
  exact ⟨Or.inl rfl, by simpa [Append.batch] using h⟩

/-- **Without overlapping flushes the bytes stay in order**, and the file only grows. -/
theorem Streamed.step [DecidableEq E] (h : Streamed c s) (hinv : Inv c d s) {a : Act E}
    (hok : Sound c d s a) (hturn : InTurn s a) (hs : s.step c d size a = some s') :
    Streamed c s' ∧ s.writer.file <+: s'.writer.file := by
  have hone := h.one
  have hbytes := h.bytes
  cases does_of_step hinv.noError (fun _ _ ↦ hok.write_all) hs with
  | @store state =>
    obtain ⟨metaFile, last, hst⟩ := store_snd (s := s) (d := d) state
    rw [hst]
    exact ⟨⟨hone, hbytes⟩, List.prefix_rfl⟩
  | nothing => exact ⟨h, List.prefix_rfl⟩
  | append hi hb =>
    rw [hi, Append.batch, Codec.frames_nil, List.append_nil] at hbytes
    refine ⟨⟨hone, ?_⟩, List.prefix_rfl⟩
    simp only [Codec.frames_append, ← hbytes, List.append_assoc, hb]
  | @fill entries pending ha =>
    obtain ⟨_, _, _, _, -, -, -, -, hp⟩ := hinv.bytes
    have henc : ∀ e ∈ entries, (c.encode e).isSome := fun e he ↦
      (hinv.fits e (hp.mem_iff.mp (by simp [ha, Append.batch, he]))).isSome_encode
    rw [ha, Append.batch] at hbytes
    refine ⟨⟨hone, ?_⟩, List.prefix_rfl⟩
    simp only [appendFrames_eq henc, Append.batch, Codec.frames_nil, List.append_nil]
    exact hbytes
  | skip => exact Streamed.afterFlush h _
  | take => exact ⟨Streamed.take h hturn.1 hturn.2, List.prefix_rfl⟩
  | write ht => exact ⟨Streamed.write h ht, List.prefix_append _ _⟩
  | finish hw => exact Streamed.afterFlush (Streamed.returns h (by rw [hw]; rfl) 0) _
  | @restore order =>
    obtain ⟨m, next, hr⟩ := restore_snd (s := s) (c := c) (d := d) order
    rw [hr]
    exact ⟨⟨h.one, h.bytes⟩, List.prefix_rfl⟩
  | @restart sameProcess ha hbg hbuf =>
    have hap := hinv.idle (by rw [ha]; simp)
    obtain ⟨m, next, hn⟩ := new_eq (c := c) (d := d) s.metaFile s.writer.file
      (if sameProcess then s.lastMetadata else none) s.appended
    refine ⟨streamed_new ?_ _ _, by rw [hn]⟩
    simpa [ha, hbg, hbuf, hap, Append.batch] using hbytes

/-- The entries that a step appends. -/
def Act.entries : Act E → List E
  | .append entries => entries
  | _ => []

/-- Only `append_entry` appends. -/
theorem Inv.appended_step [DecidableEq E] (h : Inv c d s) {a : Act E} (hok : Sound c d s a)
    (hs : s.step c d size a = some s') : s'.appended = s.appended ++ a.entries := by
  cases does_of_step h.noError (fun _ _ ↦ hok.write_all) hs with
  | @store state =>
    obtain ⟨metaFile, last, hst⟩ := store_snd (s := s) (d := d) state
    rw [hst]
    exact (List.append_nil _).symm
  | append hi hb => rfl
  | @skip who hi =>
    obtain ⟨a, ha, -⟩ := s.afterFlush_eq who
    rw [ha]
    exact (List.append_nil _).symm
  | @finish who hw =>
    obtain ⟨a, ha, -⟩ := afterFlush_eq ({ s.setFlush who .idle with
      writer := { s.writer with pendingBytes := 0 } }) who
    rw [ha]
    exact (List.append_nil _).symm
  | @restore order =>
    obtain ⟨m, next, hr⟩ := restore_snd (s := s) (c := c) (d := d) order
    rw [hr]
    exact (List.append_nil _).symm
  | @restart sameProcess ha hbg hbuf =>
    obtain ⟨m, next, hn⟩ := new_eq (c := c) (d := d) s.metaFile s.writer.file
      (if sameProcess then s.lastMetadata else none) s.appended
    rw [hn]
    exact (List.append_nil _).symm
  | nothing | fill | take | write => exact (List.append_nil _).symm

end ConFileStorage

/-! ## A node and its disk -/

variable {C P : Type}

/-- A call of the `Storage` trait. -/
inductive StorageCall (C : Type) where
  | store (state : PersistentState)
  | appendEntry (entries : List (LogEntry C))

def StorageCall.act : StorageCall C → ConFileStorage.Act (LogEntry C)
  | .store state => .store state
  | .appendEntry entries => .append entries

/-- The storage as a handler sees it: what `restore` returned, and the calls it makes, which are
carried out one after the other while the handler waits.  It goes on as after calls that return
`Ok`. -/
structure Journal (C : Type) where
  restored : Option (PersistentState × List (LogEntry C))
  calls : List (StorageCall C)

/-- The entries that a call appends. -/
def StorageCall.entries : StorageCall C → List (LogEntry C)
  | .store _ => []
  | .appendEntry entries => entries

theorem StorageCall.entries_act (call : StorageCall C) : call.act.entries = call.entries := by
  cases call <;> rfl

instance : Storage (Journal C) C where
  store state st := (true, { st with calls := st.calls ++ [.store state] })
  restore st := st.restored
  appendEntry entries st := (true, { st with calls := st.calls ++ [.appendEntry entries] })

/-- The given entries, and those of the calls. -/
def Journal.view (appended : List (LogEntry C)) (st : Journal C) : List (LogEntry C) :=
  appended ++ st.calls.flatMap StorageCall.entries

theorem Journal.appends (appended : List (LogEntry C)) : Appends (Journal.view appended) where
  store state st := by
    change appended ++ (st.calls ++ [StorageCall.store state]).flatMap StorageCall.entries = _
    rw [List.flatMap_append]
    exact congrArg (appended ++ ·) (List.append_nil _)
  ok _ _ := rfl
  append entries st := by
    change appended ++
      (st.calls ++ [StorageCall.appendEntry entries]).flatMap StorageCall.entries = _
    rw [List.flatMap_append, List.flatMap_singleton, ← List.append_assoc]
    rfl

/-- An `AppendEntries` request that was accepted, and the log with which it was. -/
structure Ack (C : Type) where
  req : AppendEntries C
  logs : List (LogEntry C)

/-- The entries the answer is about: those of the request and what is before them. -/
def Ack.covered (ack : Ack C) : List (LogEntry C) := ack.logs.take (reach ack.req)

/-- The acceptance that a handler has to answer. -/
def Consensus.ack (n : Consensus (Journal C) C P) : Op C → Option (Ack C)
  | .appendEntries req =>
    match n.appendEntries req with
    | (c, .ok ⟨_, true, _, _⟩) => some ⟨req, c.logs⟩
    | _ => none
  | _ => none

/-- A node in its process, the storage with its files, and the acceptance that is still to be
answered. -/
structure Durable (C P : Type) where
  node : Consensus (Journal C) C P
  disk : ConFileStorage (LogEntry C)
  answer : Option (Ack C)

namespace Durable

inductive Act (C : Type) where
  /-- The node takes up a message. -/
  | op (o : Op C)
  /-- The storage is called for what the handler wants to persist. -/
  | call
  /-- The storage goes on with `append_batch`, or one of its flushes does. -/
  | disk (a : ConFileStorage.Act (LogEntry C))
  /-- The answer is sent. -/
  | answer
  /-- The process dies and is started again.  A write under way has got as far as `torn`, and the
  map of the new storage is iterated in the given order. -/
  | crash (torn : List UInt8) (order : LogCache (LogEntry C))

section

variable (c : Codec (LogEntry C)) (d : Codec PersistentState) (size : ℕ)

/-- The process starts: the node restores itself from the storage. -/
def boot (id : String) (peers : List (ℕ × P)) (disk : ConFileStorage (LogEntry C))
    (order : LogCache (LogEntry C)) : Durable C P :=
  let (restored, disk) := disk.restore c d order
  let node : Consensus (Journal C) C P := Consensus.new id ⟨restored, []⟩
  ⟨{ node with peers := peers }, disk, none⟩

/-- The first start, in an empty directory. -/
def start (id : String) (peers : List (ℕ × P)) : Durable C P :=
  boot c d id peers (ConFileStorage.empty c d) []

/-- The storage that is opened after a crash.  What was appended to it is what can be read. -/
def reopened (s : Durable C P) (torn : List UInt8) : ConFileStorage (LogEntry C) :=
  let file := s.disk.writer.file ++ torn
  ConFileStorage.new c d s.disk.metaFile file none ((c.readFile file).getD [])

/-- The handler has nothing more to wait for. -/
def idle (s : Durable C P) : Bool :=
  match s.node.storage.calls, s.disk.append with
  | [], .idle => true
  | _, _ => false

/-- One step.  The node does one thing after the other. -/
def step [DecidableEq C] (s : Durable C P) : Act C → Option (Durable C P)
  | .op o =>
    if s.idle ∧ s.answer.isNone then
      (s.node.handle o).map fun node ↦ { s with node := node, answer := s.node.ack o }
    else none
  | .call =>
    match s.node.storage.calls with
    | [] => none
    | call :: calls =>
      (s.disk.step c d size call.act).map fun disk ↦
        { s with node.storage.calls := calls, disk := disk }
  | .disk a =>
    match a with
    | .fill | .take _ | .write _ _ | .finish _ =>
      (s.disk.step c d size a).map fun disk ↦ { s with disk := disk }
    | _ => none
  | .answer =>
    if s.idle ∧ s.answer.isSome then some { s with answer := none } else none
  | .crash torn order =>
    if (torn <+: (s.disk.flush .background).chunk ∨ torn <+: (s.disk.flush .appender).chunk) ∧
        order.Perm (s.reopened c d torn).logCache then
      some (boot c d s.node.id s.node.peers (s.reopened c d torn) order)
    else none

/-- Nothing fails, and flushes do not overlap.  A node that is started again reads the map in order
and finds whole records in the file. -/
def Ok (s : Durable C P) : Act C → Prop
  | .call => ∀ call ∈ s.node.storage.calls.head?, ConFileStorage.Sound c d s.disk call.act
  | .disk a => ConFileStorage.Sound c d s.disk a ∧ ConFileStorage.InTurn s.disk a
  | .crash torn order =>
    order.Ascending ∧ s.disk.writer.file ++ torn = c.frames (order.map Prod.snd)
  | _ => True

end

/-! ## What holds in every state -/

variable {c : Codec (LogEntry C)} {d : Codec PersistentState} {size : ℕ} {s s' : Durable C P}

/-- The bytes on their way to the file are in order, and the log is still the one that is to be
answered for. -/
structure Inv (c : Codec (LogEntry C)) (d : Codec PersistentState) (s : Durable C P) : Prop where
  disk : ConFileStorage.Inv c d s.disk
  streamed : s.disk.Streamed c
  answer : ∀ ack ∈ s.answer, s.node.logs = ack.logs

theorem ack_logs {n : Consensus (Journal C) C P} {o : Op C} {ack : Ack C}
    (ha : n.ack o = some ack) {n' : Consensus (Journal C) C P} (hn : n.handle o = some n') :
    n'.logs = ack.logs := by
  cases o with
  | appendEntries req =>
    obtain rfl := Option.some_inj.mp hn
    simp only [Consensus.ack] at ha
    split at ha
    · rename_i m _ _ _ heq
      obtain rfl := Option.some_inj.mp ha
      rw [heq]
    · cases ha
  | _ => cases ha

theorem reopened_eq (s : Durable C P) (torn : List UInt8) :
    ∃ m next, s.reopened c d torn = ⟨⟨[], s.disk.writer.file ++ torn, 0, false⟩, s.disk.metaFile, m,
      next, fun _ ↦ .idle, .idle, none, (c.readFile (s.disk.writer.file ++ torn)).getD []⟩ :=
  ConFileStorage.new_eq s.disk.metaFile (s.disk.writer.file ++ torn) none _

theorem boot_disk (id : String) (peers : List (ℕ × P)) (disk : ConFileStorage (LogEntry C))
    (order : LogCache (LogEntry C)) :
    (boot c d id peers disk order).disk = (disk.restore c d order).2 := rfl

theorem boot_logs {disk : ConFileStorage (LogEntry C)} {order : LogCache (LogEntry C)}
    {state : PersistentState} {logs : List (LogEntry C)}
    (h : (disk.restore c d order).1 = some (state, logs)) (id : String) (peers : List (ℕ × P)) :
    (boot c d id peers disk order).node.logs = logs := by
  have hb : (boot c d id peers disk order).node.logs =
      (Consensus.new id ⟨(disk.restore c d order).1, []⟩ : Consensus (Journal C) C P).logs := rfl
  rw [hb, h]
  rfl

theorem Inv.boot {disk : ConFileStorage (LogEntry C)} (hd : ConFileStorage.Inv c d disk)
    (hs : disk.Streamed c) {order : LogCache (LogEntry C)} (hp : order.Perm disk.logCache)
    (id : String) (peers : List (ℕ × P)) : Inv c d (Durable.boot c d id peers disk order) := by
  refine ⟨hd.restore hp, ?_, by simp [Durable.boot]⟩
  obtain ⟨m, next, hr⟩ := ConFileStorage.restore_snd (s := disk) (c := c) (d := d) order
  rw [boot_disk, hr]
  exact ⟨hs.one, hs.bytes⟩

theorem inv_start (id : String) (peers : List (ℕ × P)) : Inv c d (start c d id peers) := by
  have hr : c.readFile [] = some [] := rfl
  have hm : ∀ content ∈ (none : Option (List UInt8)), (d.decode content).isSome := by simp
  refine Inv.boot (ConFileStorage.Inv.new [] (by simp) (by simp) List.Perm.nil) ?_ ?_ id peers
  · exact ConFileStorage.streamed_new rfl none none
  · exact (ConFileStorage.new_logCache_perm hr hm none []).symm

/-! ## After a crash -/

/-- What is left of the bytes begins the frames of what was appended. -/
theorem Inv.torn (h : Inv c d s) {torn : List UInt8}
    (ht : torn <+: (s.disk.flush .background).chunk ∨ torn <+: (s.disk.flush .appender).chunk) :
    s.disk.writer.file ++ torn <+: c.frames s.disk.appended := by
  rw [← h.streamed.bytes, List.prefix_append_right_inj]
  rcases ht with ht | ht
  · exact ht.trans (List.prefix_append _ _)
  · rcases h.streamed.one with hbg | hap
    · rw [hbg, List.nil_append]
      exact ht.trans (List.prefix_append _ _)
    · rw [hap, List.prefix_nil] at ht
      rw [ht]
      exact List.nil_prefix

/-- The storage is opened again, and reads the entries that are whole in the file. -/
theorem Inv.restores (h : Inv c d s) {torn : List UInt8} {order : LogCache (LogEntry C)}
    (htorn : torn <+: (s.disk.flush .background).chunk ∨ torn <+: (s.disk.flush .appender).chunk)
    (hp : order.Perm (s.reopened c d torn).logCache) (ho : order.Ascending) :
    ∃ k state, ((s.reopened c d torn).restore c d order).1 =
        some (state, s.disk.appended.take k) ∧
      c.readFile (s.disk.writer.file ++ torn) = some (s.disk.appended.take k) ∧
      c.frames (s.disk.appended.take k) <+: s.disk.writer.file ++ torn ∧
      order.map Prod.snd = s.disk.appended.take k := by
  obtain ⟨k, hr, hk⟩ := Codec.readFile_of_prefix h.disk.fits (h.torn htorn)
  have hmeta := ConFileStorage.readMeta_isSome_iff.mp h.disk.readMeta
  have hmap : order.map Prod.snd = s.disk.appended.take k :=
    ho.map_snd (hp.trans (ConFileStorage.new_logCache_perm hr hmeta _ _))
  obtain ⟨m, next, hn⟩ := s.reopened_eq (c := c) (d := d) torn
  obtain ⟨state, hst⟩ := ConFileStorage.restore_fst (s := s.reopened c d torn) (c := c)
    (d := d) (by rw [hn]; exact hr)
    (ConFileStorage.readMeta_isSome_iff.mpr (by rw [hn]; exact hmeta)) hmap
  exact ⟨k, state, hst, hr, hk, hmap⟩

/-- **What a crash leaves**: the first entries of those that were appended, as many as are whole
in the file. -/
theorem Inv.crash [DecidableEq C] (h : Inv c d s) {torn : List UInt8}
    {order : LogCache (LogEntry C)} (ho : order.Ascending)
    (hs : s.step c d size (.crash torn order) = some s') :
    ∃ k, s'.node.logs = s.disk.appended.take k ∧
      c.readFile (s.disk.writer.file ++ torn) = some s'.node.logs ∧
      c.frames s'.node.logs <+: s.disk.writer.file ++ torn ∧
      s'.node.logs = order.map Prod.snd := by
  simp only [step] at hs
  split at hs
  · rename_i hg
    obtain ⟨htorn, hp⟩ := hg
    obtain rfl := Option.some_inj.mp hs
    obtain ⟨k, state, hst, hr, hk, hmap⟩ := h.restores htorn hp ho
    have hlogs : (Durable.boot c d s.node.id s.node.peers (s.reopened c d torn) order).node.logs =
        s.disk.appended.take k := boot_logs hst _ _
    rw [hlogs]
    exact ⟨k, rfl, hr, hk, hmap.symm⟩
  · cases hs

/-- The storage that is opened after a crash, if there are whole records in the file. -/
theorem Inv.reopened (h : Inv c d s) {torn : List UInt8} {logs : List (LogEntry C)}
    (hwhole : s.disk.writer.file ++ torn = c.frames logs) (hfits : ∀ e ∈ logs, c.Fits e) :
    ConFileStorage.Inv c d (s.reopened c d torn) ∧ (s.reopened c d torn).Streamed c := by
  have happ : (c.readFile (s.disk.writer.file ++ torn)).getD [] = logs := by
    rw [hwhole, Codec.readFile_frames hfits, Option.getD_some]
  rw [Durable.reopened, happ, hwhole]
  exact ⟨ConFileStorage.Inv.new logs hfits (ConFileStorage.readMeta_isSome_iff.mp h.disk.readMeta)
    (List.Perm.refl logs), ConFileStorage.streamed_new rfl _ _⟩

/-- **Every step keeps the invariant**, and the file only grows. -/
theorem Inv.step [DecidableEq C] (h : Inv c d s) {a : Act C} (hok : Ok c d s a)
    (hs : s.step c d size a = some s') :
    Inv c d s' ∧ s.disk.writer.file <+: s'.disk.writer.file := by
  cases a with
  | op o =>
    simp only [Durable.step] at hs
    split at hs
    · obtain ⟨node, hn, rfl⟩ := Option.map_eq_some_iff.mp hs
      exact ⟨⟨h.disk, h.streamed, fun ack ha ↦ ack_logs ha hn⟩, List.prefix_rfl⟩
    · cases hs
  | call =>
    simp only [Durable.step] at hs
    split at hs
    · cases hs
    · rename_i call calls hcalls
      obtain ⟨disk, hd, rfl⟩ := Option.map_eq_some_iff.mp hs
      have hsound := hok call (by rw [hcalls]; rfl)
      have hturn : s.disk.InTurn call.act := by cases call <;> trivial
      obtain ⟨hstr, hgrow⟩ := h.streamed.step h.disk hsound hturn hd
      exact ⟨⟨h.disk.step hsound hd, hstr, h.answer⟩, hgrow⟩
  | disk a =>
    have hd : ∃ disk, s.disk.step c d size a = some disk ∧ { s with disk := disk } = s' := by
      simp only [Durable.step] at hs
      split at hs
      · exact Option.map_eq_some_iff.mp hs
      · exact Option.map_eq_some_iff.mp hs
      · exact Option.map_eq_some_iff.mp hs
      · exact Option.map_eq_some_iff.mp hs
      · cases hs
    obtain ⟨disk, hd, rfl⟩ := hd
    obtain ⟨hstr, hgrow⟩ := h.streamed.step h.disk hok.1 hok.2 hd
    exact ⟨⟨h.disk.step hok.1 hd, hstr, h.answer⟩, hgrow⟩
  | answer =>
    simp only [Durable.step] at hs
    split at hs
    · obtain rfl := Option.some_inj.mp hs
      exact ⟨⟨h.disk, h.streamed, by simp⟩, List.prefix_rfl⟩
    · cases hs
  | crash torn order =>
    obtain ⟨ho, hwhole⟩ := hok
    obtain ⟨k, hk, -, -, hmap⟩ := h.crash ho hs
    have hfits : ∀ e ∈ order.map Prod.snd, c.Fits e := by
      rw [← hmap, hk]
      exact fun e he ↦ h.disk.fits e (List.mem_of_mem_take he)
    obtain ⟨hinv, hstr⟩ := h.reopened hwhole hfits
    simp only [Durable.step] at hs
    split at hs
    · rename_i hg
      obtain rfl := Option.some_inj.mp hs
      refine ⟨Inv.boot hinv hstr hg.2 _ _, ?_⟩
      obtain ⟨m, next, hr⟩ := ConFileStorage.restore_snd (s := s.reopened c d torn) (c := c)
        (d := d) order
      obtain ⟨m', next', hn⟩ := s.reopened_eq (c := c) (d := d) torn
      rw [boot_disk, hr, hn]
      exact List.prefix_append _ _
    · cases hs

/-! ## The log on its way -/

/-- What was appended and what the handler has still to append are the log, and the cursor points
to its end. -/
def Handed (s : Durable C P) : Prop := Disk (Journal.view s.disk.appended) s.node s.node.logs

theorem Handed.prefix_logs (h : Handed s) : s.disk.appended <+: s.node.logs :=
  ⟨_, h.1⟩

theorem Handed.boot {disk : ConFileStorage (LogEntry C)} {order : LogCache (LogEntry C)}
    {state : PersistentState} {logs : List (LogEntry C)}
    (h : (disk.restore c d order).1 = some (state, logs)) (ha : disk.appended = logs)
    (id : String) (peers : List (ℕ × P)) : (Durable.boot c d id peers disk order).Handed := by
  obtain ⟨m, next, hr⟩ := ConFileStorage.restore_snd (s := disk) (c := c) (d := d) order
  have hnode : (Durable.boot c d id peers disk order).node =
      { (Consensus.new id ⟨some (state, logs), []⟩ : Consensus (Journal C) C P) with
        peers := peers } := by
    rw [← h]
    rfl
  rw [Handed, boot_disk, hr, hnode]
  refine ⟨?_, ?_⟩
  · change disk.appended ++ [] = logs
    rw [ha, List.append_nil]
  · change (if logs.isEmpty then 0 else logs.length - 1) = logs.length - 1
    cases logs <;> rfl

/-- **Every step keeps what is on its way in the order of the log**, if at a message the storage
follows the log. -/
theorem Handed.step [DecidableEq C] (h : Handed s) (hinv : Inv c d s) {a : Act C}
    (hok : Ok c d s a) (hkeep : ∀ o, a = .op o → s.node.KeepsLog o)
    (hs : s.step c d size a = some s') : Handed s' := by
  cases a with
  | op o =>
    simp only [Durable.step] at hs
    split at hs
    · obtain ⟨node, hn, rfl⟩ := Option.map_eq_some_iff.mp hs
      exact (Disk.handle (Journal.appends _) hn h (hkeep o rfl)).1
    · cases hs
  | call =>
    simp only [Durable.step] at hs
    split at hs
    · cases hs
    · rename_i call calls hcalls
      obtain ⟨disk, hd, rfl⟩ := Option.map_eq_some_iff.mp hs
      have happ := hinv.disk.appended_step (hok call (by rw [hcalls]; rfl)) hd
      refine ⟨?_, h.2⟩
      have hview := h.1
      rw [Journal.view, hcalls, List.flatMap_cons, ← List.append_assoc] at hview
      change disk.appended ++ _ = _
      rw [happ, call.entries_act]
      exact hview
  | disk a =>
    have hd : ∃ disk, s.disk.step c d size a = some disk ∧ { s with disk := disk } = s' ∧
        a.entries = [] := by
      simp only [Durable.step] at hs
      split at hs
      case h_5 => cases hs
      all_goals
        obtain ⟨disk, hd, rfl⟩ := Option.map_eq_some_iff.mp hs
        exact ⟨disk, hd, rfl, rfl⟩
    obtain ⟨disk, hd, rfl, hnone⟩ := hd
    have happ := hinv.disk.appended_step hok.1 hd
    rw [hnone, List.append_nil] at happ
    change Disk (Journal.view disk.appended) s.node s.node.logs
    rw [happ]
    exact h
  | answer =>
    simp only [Durable.step] at hs
    split at hs
    · obtain rfl := Option.some_inj.mp hs
      exact h
    · cases hs
  | crash torn order =>
    simp only [Durable.step] at hs
    split at hs
    · rename_i hg
      obtain rfl := Option.some_inj.mp hs
      obtain ⟨k, state, hst, hr, -, -⟩ := hinv.restores hg.1 hg.2 hok.1
      refine Handed.boot hst ?_ _ _
      obtain ⟨m, next, hn⟩ := s.reopened_eq (c := c) (d := d) torn
      rw [hn]
      change (c.readFile (s.disk.writer.file ++ torn)).getD [] = _
      rw [hr, Option.getD_some]
    · cases hs

/-- A node that is started again has the first entries of its log, as many as it has restored. -/
theorem Handed.crash [DecidableEq C] (h : Handed s) (hinv : Inv c d s) {torn : List UInt8}
    {order : LogCache (LogEntry C)} (ho : order.Ascending)
    (hs : s.step c d size (.crash torn order) = some s') {l : List (LogEntry C)}
    (hl : l <+: s.node.logs) (hlen : l.length ≤ order.length) : l <+: s'.node.logs := by
  obtain ⟨k, hk, -, -, hmap⟩ := hinv.crash ho hs
  have hlogs : s'.node.logs <+: s.node.logs := by
    rw [hk]
    exact (List.take_prefix k _).trans h.prefix_logs
  refine List.prefix_of_prefix_length_le hl hlogs ?_
  rw [hmap, List.length_map]
  exact hlen

/-! ## Answers -/

variable [DecidableEq C]

/-- What the file begins with, a node that is started again has in its log. -/
theorem Inv.covered (h : Inv c d s) {l : List (LogEntry C)} (hfits : ∀ e ∈ l, c.Fits e)
    (hl : c.frames l <+: s.disk.writer.file) {torn : List UInt8} {order : LogCache (LogEntry C)}
    (ho : order.Ascending) (hs : s.step c d size (.crash torn order) = some s') :
    l <+: s'.node.logs := by
  obtain ⟨k, -, hr, -, -⟩ := h.crash ho hs
  exact Codec.prefix_of_readFile hfits (hl.trans (List.prefix_append _ _)) hr

theorem Inv.reach (h : Inv c d s) (hr : Reach (Durable.step c d size) (Ok c d) s s') :
    Inv c d s' ∧ s.disk.writer.file <+: s'.disk.writer.file := by
  induction hr with
  | start => exact ⟨h, List.prefix_rfl⟩
  | step _ hok hs ih =>
    obtain ⟨hinv, hgrow⟩ := ih.1.step hok hs
    exact ⟨hinv, ih.2.trans hgrow⟩

/-- A crash can come at any time. -/
theorem Inv.can_crash (h : Inv c d s) (size : ℕ) :
    ∃ order s', order.Ascending ∧ s.step c d size (.crash [] order) = some s' := by
  obtain ⟨k, hr, -⟩ := Codec.readFile_of_prefix h.disk.fits
    (h.torn (Or.inl (List.nil_prefix (l := (s.disk.flush .background).chunk))))
  have hp := ConFileStorage.new_logCache_perm hr
    (ConFileStorage.readMeta_isSome_iff.mp h.disk.readMeta) none
    ((c.readFile (s.disk.writer.file ++ [])).getD [])
  exact ⟨_, _, LogCache.ascending_zipIdx (s.disk.appended.take k) 0,
    if_pos ⟨Or.inl List.nil_prefix, hp.symm⟩⟩

/-- **What an answer is worth.**  Whatever happens after an answer, and wherever the process dies
then, the node that is started again has the entries the answer is about, unless they were replaced
before: this is so exactly if, when it was given, what had been handed to the storage began with
these entries, and the file was at least as long as their frames. -/
theorem survives_iff {id : String} {peers : List (ℕ × P)} {s s₁ : Durable C P} {ack : Ack C}
    (h : Reach (step c d size) (Ok c d) (start c d id peers) s) (ha : s.answer = some ack)
    (hs : s.step c d size .answer = some s₁) :
    (∀ s₂, Reach (step c d size) (Ok c d) s₁ s₂ → ∀ torn order s₃,
      s₂.step c d size (.crash torn order) = some s₃ → order.Ascending →
      ∀ (i : ℕ) (e : LogEntry C), ack.covered[i]? = some e → s₂.node.logs[i]? = some e →
        s₃.node.logs[i]? = some e) ↔
    ack.covered <+: s.disk.appended ∧
      (c.frames ack.covered).length ≤ s.disk.writer.file.length := by
  have hinv : Inv c d s := ((inv_start id peers).reach h).1
  have hok : Ok c d s .answer := trivial
  have hinv₁ : Inv c d s₁ := (hinv.step hok hs).1
  obtain ⟨hnode, hdisk⟩ : s₁.node = s.node ∧ s₁.disk = s.disk := by
    simp only [step] at hs
    split at hs
    · obtain rfl := Option.some_inj.mp hs
      exact ⟨rfl, rfl⟩
    · cases hs
  constructor
  · -- let the process die right after the answer
    intro hall
    obtain ⟨order, s₃, ho, hcrash⟩ := hinv₁.can_crash size
    obtain ⟨k, hk, -, hfile, -⟩ := hinv₁.crash ho hcrash
    have hcov : ack.covered <+: s₃.node.logs := by
      rw [List.prefix_iff_getElem?]
      intro i hi
      refine hall s₁ .start [] order s₃ hcrash ho i _ (List.getElem?_eq_getElem hi) ?_
      rw [hnode, hinv.answer ack ha]
      exact List.prefix_iff_getElem?.mp (List.take_prefix _ _) i hi
    constructor
    · rw [hk, hdisk] at hcov
      exact hcov.trans (List.take_prefix k _)
    · have := (Codec.frames_mono hcov).trans hfile
      rw [List.append_nil, hdisk] at this
      exact this.length_le
  · -- the file never loses what it begins with
    rintro ⟨happ, hlen⟩ s₂ h₂ torn order s₃ hcrash ho i e he -
    have hfits : ∀ x ∈ ack.covered, c.Fits x := fun x hx ↦ hinv.disk.fits x (happ.subset hx)
    have hfile : c.frames ack.covered <+: s₁.disk.writer.file := by
      rw [hdisk]
      refine List.prefix_of_prefix_length_le (Codec.frames_mono happ) ?_ hlen
      rw [← hinv.streamed.bytes]
      exact List.prefix_append _ _
    obtain ⟨hinv₂, hgrow⟩ := hinv₁.reach h₂
    have hcov := hinv₂.covered hfits (hfile.trans hgrow) ho hcrash
    obtain ⟨hi, rfl⟩ := List.getElem?_eq_some_iff.mp he
    exact List.prefix_iff_getElem?.mp hcov i hi

/-! ## One entry -/

instance (s : ConFileStorage (LogEntry C)) (a : ConFileStorage.Act (LogEntry C)) :
    Decidable (s.InTurn a) :=
  match a with
  | .take _ => inferInstanceAs (Decidable (_ ∧ _))
  | .store _ | .append _ | .fill | .write _ _ | .finish _ | .restore _ | .restart _ =>
    inferInstanceAs (Decidable True)

instance (s : Durable C P) (a : Act C) : Decidable (Ok c d s a) :=
  match a with
  | .call => inferInstanceAs (Decidable (∀ call ∈ s.node.storage.calls.head?, _))
  | .disk _ | .crash _ _ => inferInstanceAs (Decidable (_ ∧ _))
  | .op _ | .answer => inferInstanceAs (Decidable True)

end Durable

/-- A follower is asked to append its first entry, and its storage has it in the buffer. -/
def buffered : List (Durable.Act Unit) :=
  [.op (.appendEntries ⟨1, "b", none, none, [⟨(), 1⟩], none⟩), .call, .call, .call, .disk .fill]

/-- The background task writes the buffer. -/
def flushed : List (Durable.Act Unit) :=
  [.disk (.take .background), .disk (.write .background none), .disk (.finish .background)]

namespace Durable

/-- The states of a node with one entry to append. -/
def after (as : List (Act Unit)) : Option (Durable Unit Unit) :=
  run (step unknownCodec termCodec 64) (Ok unknownCodec termCodec)
    (start unknownCodec termCodec "a" []) as

/-- The node answers after the entry was written, and has it after every crash. -/
theorem survives_iff_flushed :
    ∃ s s₁ ack, after (buffered ++ flushed) = some s ∧ s.answer = some ack ∧
      s.step unknownCodec termCodec 64 .answer = some s₁ ∧ ack.covered = [⟨(), 1⟩] ∧
      ∀ s₂, Reach (step unknownCodec termCodec 64) (Ok unknownCodec termCodec) s₁ s₂ →
        ∀ torn order s₃, s₂.step unknownCodec termCodec 64 (.crash torn order) = some s₃ →
        order.Ascending → ∀ (i : ℕ) (e : LogEntry Unit), ack.covered[i]? = some e →
          s₂.node.logs[i]? = some e → s₃.node.logs[i]? = some e := by
  let s := (after (buffered ++ flushed)).get (by decide)
  have hs : after (buffered ++ flushed) = some s := (Option.some_get _).symm
  exact ⟨s, { s with answer := none }, ⟨_, _⟩, hs, rfl, rfl, by decide,
    (survives_iff (Reach.start.run hs) rfl rfl).mpr (by decide)⟩

/-- The node answers before the entry was written, and has lost it after a crash. -/
theorem not_survives :
    ∃ s s₁ s₂ ack, after buffered = some s ∧ s.answer = some ack ∧
      s.step unknownCodec termCodec 64 .answer = some s₁ ∧
      s₁.step unknownCodec termCodec 64 (.crash [] []) = some s₂ ∧
      ack.covered = [⟨(), 1⟩] ∧ s₁.node.logs = [⟨(), 1⟩] ∧ s₂.node.logs = [] := by
  let s := (after buffered).get (by decide)
  have hs : after buffered = some s := (Option.some_get _).symm
  exact ⟨s, { s with answer := none }, _, ⟨_, _⟩, hs, rfl, rfl, rfl, by decide, by decide,
    by decide⟩

end Durable

end Efis
