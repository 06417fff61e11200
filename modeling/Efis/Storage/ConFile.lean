import Efis.Bytes.Frames
import Efis.Bytes.Queue
import Efis.Consensus.Node
import Efis.Transition.Reach
import Mathlib.Data.List.Perm.Basic

/-!
# The log on disk

`ConFileStorage`: the log file with a write buffer in front of it, a copy of the log in a hash map
from indices to entries, and a file for the metadata.  An appended entry goes into the map at once
and into the buffer; the buffer is written to the file by a background task, and by `append_batch`
itself when too much is pending.  `restore` reads the map if there is something in it, and the file
only if not.

The map is iterated in an order that nobody has specified, so what `restore` returns is a
permutation of the entries that were appended (`restore_perm`), over any run and any number of
restarts.  It is the log itself, whatever the order, exactly if all entries are the same
(`restore_eq_iff`).

Taking the buffer and writing what was taken are two steps, under two locks.  Another writer can get
in between.  So the file too is only a permutation of the log.
-/

set_option autoImplicit false

namespace Efis

open Bytes Transition

/-! ## The hash map -/

/-- The entries of the map, in some order. -/
abbrev LogCache (E : Type) := List (ℕ × E)

namespace LogCache

variable {E : Type}

def insert (m : LogCache E) (k : ℕ) (e : E) : LogCache E :=
  m.filter (·.1 ≠ k) ++ [(k, e)]

/-- Insert entries under consecutive indices. -/
def insertAll (m : LogCache E) (start : ℕ) : List E → LogCache E
  | [] => m
  | e :: es => insertAll (m.insert start e) (start + 1) es

end LogCache

/-! ## The storage -/

/-- `LogWriter`.  `file` is what was written to the log file, which is opened for appending. -/
structure LogWriter where
  buffer : List UInt8
  file : List UInt8
  pendingBytes : ℕ
  /-- A write failed after it had returned, and no later one was told so yet. -/
  writeError : Bool

/-- `write_all` on the log file.  The first argument is the number of bytes that are written before
a write fails. -/
def LogWriter.write (w : LogWriter) (room : Option ℕ) (bytes : List UInt8) : Bool × LogWriter :=
  let (ok, f) := QueuedFile.writeAll QueuedFile.maxBufSize ⟨w.file, [], w.writeError⟩ room bytes
  (ok, { w with file := f.written, writeError := f.error })

theorem LogWriter.write_none {w : LogWriter} (h : w.writeError = false) (bytes : List UInt8) :
    w.write none bytes = (true, { w with file := w.file ++ bytes }) := by
  rw [write, QueuedFile.writeAll_of_le QueuedFile.maxBufSize_pos h (by simp), h]

/-- How far a call of `flush` has come. -/
inductive Flush where
  | idle
  /-- It has taken the buffer. -/
  | taken (chunk : List UInt8)
  /-- It has written what it took. -/
  | written

/-- How far a call of `append_entry` has come. -/
inductive Append (E : Type) where
  | idle
  /-- `append_batch` flushes first. -/
  | flushing (entries : List E)
  | appending (entries : List E)

/-- The two that call `flush`. -/
inductive Flusher where
  | background
  | appender
  deriving DecidableEq

/-- A `ConFileStorage` with its two files.  The last field is not in the source: it collects the
entries that were appended. -/
structure ConFileStorage (E : Type) where
  writer : LogWriter
  metaFile : Option (List UInt8)
  logCache : LogCache E
  lastCachedIndex : ℕ
  flush : Flusher → Flush
  append : Append E
  /-- `LAST_METADATA`, which all storages of a process share. -/
  lastMetadata : Option PersistentState
  appended : List E

namespace ConFileStorage

variable {E : Type}

def setFlush (s : ConFileStorage E) (who : Flusher) (f : Flush) : ConFileStorage E :=
  { s with flush := Function.update s.flush who f }

section

variable (c : Codec E) (d : Codec PersistentState)

/-- The metadata that `restore` reads. -/
def readMeta (s : ConFileStorage E) : Option PersistentState :=
  match s.metaFile with
  | some content => d.decode content
  | none => some PersistentState.default

/-- `restore`.  The argument is the map, as it is iterated. -/
def restore (s : ConFileStorage E) (order : LogCache E) :
    Option (PersistentState × List E) × ConFileStorage E :=
  let cached := order.map Prod.snd
  match s.readMeta d with
  | none => (none, s)
  | some state =>
    if cached ≠ [] then (some (state, cached), s)
    else
      match c.readFile s.writer.file with
      | none => (none, s)
      | some logs =>
        (some (state, logs), { s with
          logCache := LogCache.insertAll s.logCache 0 logs, lastCachedIndex := logs.length })

/-- `warm_cache`.  The map is empty when it runs. -/
def warmCache (s : ConFileStorage E) : ConFileStorage E :=
  let (res, s) := s.restore c d []
  let logs := (res.map Prod.snd).getD []
  let start := logs.length - 1000
  { s with
    logCache := LogCache.insertAll s.logCache start (logs.drop start)
    lastCachedIndex := start + 1000 }

/-- `ConFileStorage::new` on a directory with the given files. -/
def new (metaFile : Option (List UInt8)) (file : List UInt8)
    (lastMetadata : Option PersistentState) (appended : List E) : ConFileStorage E :=
  warmCache c d
    { writer := ⟨[], file, 0, false⟩
      metaFile := metaFile
      logCache := []
      lastCachedIndex := 0
      flush := fun _ ↦ .idle
      append := .idle
      lastMetadata := lastMetadata
      appended := appended }

/-- The loop of `append_batch`.  An entry that cannot be encoded ends it. -/
def appendFrames (buffer : List UInt8) : List E → Bool × List UInt8
  | [] => (true, buffer)
  | e :: es =>
    match c.frame e with
    | some f => appendFrames (buffer ++ f) es
    | none => (false, buffer)

/-- `write_metadata_optimized`, which does nothing when term and vote are those it wrote last.  The
`Bool` says whether it returned `Ok`. -/
def store (s : ConFileStorage E) (state : PersistentState) : Bool × ConFileStorage E :=
  if (s.lastMetadata.map fun l ↦ (l.currentTerm, l.votedFor)) =
      some (state.currentTerm, state.votedFor) then (true, s)
  else
    match d.encode state with
    | some data => (true, { s with metaFile := some data, lastMetadata := some state })
    | none => (false, s)

end

inductive Act (E : Type) where
  | store (state : PersistentState)
  /-- `append_entry` fills the map and enters `append_batch`. -/
  | append (entries : List E)
  /-- `append_batch` fills the buffer. -/
  | fill
  | take (who : Flusher)
  | write (who : Flusher) (room : Option ℕ)
  /-- A `flush` resets `pending_bytes` and returns. -/
  | finish (who : Flusher)
  | restore (order : LogCache E)
  /-- The storage is opened anew, with all that was appended in the file.  In the same process
  `LAST_METADATA` is still there. -/
  | restart (sameProcess : Bool)

section

variable (c : Codec E) (d : Codec PersistentState) (size : ℕ)

/-- What `append_batch` does next, after a `flush` of its own that returned. -/
def afterFlush (s : ConFileStorage E) (ok : Bool) : Flusher → ConFileStorage E
  | .background => s
  | .appender =>
    match s.append with
    | .flushing entries => { s with append := if ok then .appending entries else .idle }
    | _ => s

/-- One step.  The owner of the storage makes one call after the other; the background task runs
beside it.  `size` is the size of an entry in memory. -/
def step [DecidableEq E] (s : ConFileStorage E) : Act E → Option (ConFileStorage E)
  | .store state =>
    match s.append with
    | .idle => some (s.store d state).2
    | _ => none
  | .append [] =>
    match s.append with
    | .idle => some s
    | _ => none
  | .append entries =>
    match s.append with
    | .idle => some { s with
        logCache := s.logCache.insertAll s.lastCachedIndex entries
        lastCachedIndex := s.lastCachedIndex + entries.length
        append :=
          if 1024 * 1024 < s.writer.pendingBytes + entries.length * (size + 4) then
            .flushing entries
          else .appending entries
        appended := s.appended ++ entries }
    | _ => none
  | .fill =>
    match s.append with
    | .appending entries =>
      let (ok, buffer) := appendFrames c s.writer.buffer entries
      some { s with
        writer := { s.writer with
          buffer := buffer
          pendingBytes :=
            if ok then s.writer.pendingBytes + entries.length * (size + 4)
            else s.writer.pendingBytes }
        append := .idle }
    | _ => none
  | .take who =>
    match who, s.flush who, s.append with
    | .appender, .idle, .flushing _ | .background, .idle, _ =>
      if s.writer.buffer = [] then some (s.afterFlush true who)
      else some { s.setFlush who (.taken s.writer.buffer) with
        writer := { s.writer with buffer := [] } }
    | _, _, _ => none
  | .write who room =>
    match s.flush who with
    | .taken chunk =>
      let (ok, writer) := s.writer.write room chunk
      if ok then some { s.setFlush who .written with writer := writer }
      else some ({ s.setFlush who .idle with writer := writer }.afterFlush false who)
    | _ => none
  | .finish who =>
    match s.flush who with
    | .written => some ({ s.setFlush who .idle with
        writer := { s.writer with pendingBytes := 0 } }.afterFlush true who)
    | _ => none
  | .restore order =>
    match s.append with
    | .idle => if order.Perm s.logCache then some (s.restore c d order).2 else none
    | _ => none
  | .restart sameProcess =>
    match s.append, s.flush .background, s.writer.buffer with
    | .idle, .idle, [] => some (new c d s.metaFile s.writer.file
        (if sameProcess then s.lastMetadata else none) s.appended)
    | _, _, _ => none

/-- Nothing fails: no write does, and what is written can be read back. -/
def Sound (_ : ConFileStorage E) : Act E → Prop
  | .store state => d.Fits state
  | .append entries => ∀ e ∈ entries, c.Fits e
  | .write _ room => room = none
  | _ => True

/-- The storage on an empty directory. -/
def empty : ConFileStorage E :=
  new c d none [] none []

end

end ConFileStorage

/-! ## What is in the map -/

namespace LogCache

variable {E : Type} {m : LogCache E} {next : ℕ} {l : List E}

/-- The map holds the given entries, under indices below `next`. -/
structure Holds (m : LogCache E) (next : ℕ) (l : List E) : Prop where
  nodup : (m.map Prod.fst).Nodup
  lt : ∀ p ∈ m, p.1 < next
  perm : (m.map Prod.snd).Perm l

theorem holds_nil (next : ℕ) : Holds ([] : LogCache E) next [] :=
  ⟨List.nodup_nil, fun _ h ↦ absurd h List.not_mem_nil, List.Perm.nil⟩

theorem Holds.insert (h : Holds m next l) (e : E) :
    Holds (m.insert next e) (next + 1) (l ++ [e]) := by
  have hf : m.filter (·.1 ≠ next) = m :=
    List.filter_eq_self.mpr fun p hp ↦ decide_eq_true (h.lt p hp).ne
  rw [LogCache.insert, hf]
  constructor
  · rw [List.map_append]
    refine h.nodup.append (List.nodup_singleton _) fun k hk hk' ↦ ?_
    obtain ⟨p, hp, rfl⟩ := List.mem_map.mp hk
    exact (h.lt p hp).ne (List.mem_singleton.mp hk')
  · intro p hp
    rcases List.mem_append.mp hp with hp | hp
    · exact (h.lt p hp).trans (Nat.lt_succ_self _)
    · rw [List.mem_singleton.mp hp]
      exact Nat.lt_succ_self _
  · rw [List.map_append]
    exact h.perm.append_right _

theorem Holds.insertAll (h : Holds m next l) (es : List E) :
    Holds (m.insertAll next es) (next + es.length) (l ++ es) := by
  induction es generalizing m next l with
  | nil => rwa [List.append_nil]
  | cons e es ih =>
    rw [LogCache.insertAll, List.length_cons, Nat.add_comm es.length, ← Nat.add_assoc,
      List.append_cons]
    exact ih (h.insert e)

theorem mem_insert_of_ne {p : ℕ × E} {k : ℕ} (hp : p ∈ m) (hk : p.1 ≠ k) (e : E) :
    p ∈ m.insert k e :=
  List.mem_append_left _ (List.mem_filter.mpr ⟨hp, decide_eq_true hk⟩)

theorem mem_insertAll_of_lt {p : ℕ × E} {start : ℕ} (hp : p ∈ m) (hk : p.1 < start)
    (es : List E) : p ∈ m.insertAll start es := by
  induction es generalizing m start with
  | nil => exact hp
  | cons e es ih => exact ih (mem_insert_of_ne hp hk.ne e) (Nat.lt_succ_of_lt hk)

theorem mem_insertAll {es : List E} {start i : ℕ} {e : E} (he : es[i]? = some e) :
    (start + i, e) ∈ m.insertAll start es := by
  induction es generalizing m start i with
  | nil => cases he
  | cons x es ih =>
    cases i with
    | zero =>
      obtain rfl := Option.some_inj.mp he
      refine mem_insertAll_of_lt ?_ (Nat.lt_succ_self start) es
      exact List.mem_append_right _ List.mem_cons_self
    | succ i =>
      rw [Nat.add_comm i, ← Nat.add_assoc]
      exact ih he

/-- To insert what is there already only changes the order. -/
theorem insert_perm (hn : (m.map Prod.fst).Nodup) {k : ℕ} {e : E} (h : (k, e) ∈ m) :
    (m.insert k e).Perm m := by
  obtain ⟨s, t, rfl⟩ := List.append_of_mem h
  rw [List.map_append, List.map_cons, List.nodup_middle, List.nodup_cons, List.mem_append] at hn
  have hs : ∀ p ∈ s, p.1 ≠ k := fun p hp hk ↦ hn.1 (Or.inl (List.mem_map.mpr ⟨p, hp, hk⟩))
  have ht : ∀ p ∈ t, p.1 ≠ k := fun p hp hk ↦ hn.1 (Or.inr (List.mem_map.mpr ⟨p, hp, hk⟩))
  have hf : (s ++ (k, e) :: t).filter (·.1 ≠ k) = s ++ t := by
    rw [List.filter_append, List.filter_cons_of_neg (by simp),
      List.filter_eq_self.mpr fun p hp ↦ decide_eq_true (hs p hp),
      List.filter_eq_self.mpr fun p hp ↦ decide_eq_true (ht p hp)]
  rw [LogCache.insert, hf]
  exact (List.perm_append_singleton _ _).trans List.perm_middle.symm

theorem insertAll_perm (hn : (m.map Prod.fst).Nodup) {es : List E} {start : ℕ}
    (h : ∀ i e, es[i]? = some e → (start + i, e) ∈ m) : (m.insertAll start es).Perm m := by
  induction es generalizing m start with
  | nil => exact List.Perm.refl m
  | cons e es ih =>
    have hp : (m.insert start e).Perm m := insert_perm hn (h 0 e rfl)
    refine (ih ((hp.map _).nodup_iff.mpr hn) fun i x hx ↦ hp.mem_iff.mpr ?_).trans hp
    rw [Nat.add_assoc, Nat.add_comm 1 i]
    exact h (i + 1) x hx

/-- What `warm_cache` inserts a second time is there already. -/
theorem warm_perm (l : List E) (start : ℕ) :
    (LogCache.insertAll (LogCache.insertAll [] 0 l) start (l.drop start)).Perm
      (LogCache.insertAll [] 0 l) := by
  refine insertAll_perm ((holds_nil 0).insertAll l).nodup fun i e he ↦ ?_
  rw [List.getElem?_drop] at he
  rw [← Nat.zero_add (start + i)]
  exact mem_insertAll he

theorem holds_warm (l : List E) (start : ℕ) {next : ℕ} (hle : l.length ≤ next) :
    Holds (LogCache.insertAll (LogCache.insertAll [] 0 l) start (l.drop start)) next l := by
  have h := (holds_nil 0).insertAll l
  rw [List.nil_append, Nat.zero_add] at h
  have hperm := warm_perm l start
  constructor
  case nodup => exact (hperm.map Prod.fst).nodup_iff.mpr h.nodup
  case lt => exact fun p hp ↦ (h.lt p (hperm.mem_iff.mp hp)).trans_le hle
  case perm => exact (hperm.map Prod.snd).trans h.perm

theorem Holds.trans (h : Holds m next l) {l' : List E} (hp : l.Perm l') : Holds m next l' :=
  { h with perm := h.perm.trans hp }

end LogCache

/-! ## The invariant -/

variable {E : Type}

/-- The entries that a call of `append_entry` has still to put into the buffer. -/
def Append.batch : Append E → List E
  | .idle => []
  | .flushing entries | .appending entries => entries

/-- The entries that a call of `flush` has still to write. -/
def Flush.Carries (c : Codec E) : Flush → List E → Prop
  | .taken chunk, l => chunk = c.frames l
  | _, l => l = []

namespace ConFileStorage

variable {c : Codec E} {d : Codec PersistentState} {size : ℕ} {s s' : ConFileStorage E}

/-- Every entry is in the map, and also in the file or on its way there. -/
structure Inv (c : Codec E) (d : Codec PersistentState) (s : ConFileStorage E) : Prop where
  fits : ∀ e ∈ s.appended, c.Fits e
  noError : s.writer.writeError = false
  readMeta : (s.readMeta d).isSome
  idle : (∀ es, s.append ≠ .flushing es) → s.flush .appender = .idle
  bytes : ∃ file background appender buffer,
    s.writer.file = c.frames file ∧ (s.flush .background).Carries c background ∧
    (s.flush .appender).Carries c appender ∧ s.writer.buffer = c.frames buffer ∧
    (file ++ (background ++ (appender ++ (buffer ++ s.append.batch)))).Perm s.appended
  cache : s.logCache.Holds s.lastCachedIndex s.appended

theorem appendFrames_eq {es : List E} (h : ∀ e ∈ es, (c.encode e).isSome) (buffer : List UInt8) :
    appendFrames c buffer es = (true, buffer ++ c.frames es) := by
  induction es generalizing buffer with
  | nil => rw [appendFrames, Codec.frames_nil, List.append_nil]
  | cons e es ih =>
    obtain ⟨f, hf, -⟩ := Codec.exists_frame (h e List.mem_cons_self)
    rw [appendFrames, hf]
    simp only [ih fun x hx ↦ h x (List.mem_cons_of_mem e hx)]
    rw [List.append_assoc, Codec.frames_cons_of_frame hf]

theorem readMeta_isSome_iff :
    (s.readMeta d).isSome ↔ ∀ content ∈ s.metaFile, (d.decode content).isSome := by
  rw [readMeta]
  cases s.metaFile with
  | none => simp
  | some content => simp

/-- `restore` on a map with nothing in it. -/
theorem restore_nil {file : List E} (hfile : c.readFile s.writer.file = some file)
    (hmeta : (s.readMeta d).isSome) :
    ∃ state, s.restore c d [] = (some (state, file), { s with
      logCache := LogCache.insertAll s.logCache 0 file, lastCachedIndex := file.length }) := by
  obtain ⟨state, hstate⟩ := Option.isSome_iff_exists.mp hmeta
  refine ⟨state, ?_⟩
  rw [restore, hstate, hfile]
  rfl

theorem warmCache_eq {file : List E} (hfile : c.readFile s.writer.file = some file)
    (hmeta : (s.readMeta d).isSome) :
    s.warmCache c d = { s with
      logCache := LogCache.insertAll (LogCache.insertAll s.logCache 0 file) (file.length - 1000)
        (file.drop (file.length - 1000))
      lastCachedIndex := file.length - 1000 + 1000 } := by
  obtain ⟨state, hr⟩ := restore_nil hfile hmeta
  rw [warmCache, hr]
  rfl

/-- A directory with the log in its file. -/
theorem Inv.new (file : List E) {metaFile : Option (List UInt8)} {appended : List E}
    {lastMetadata : Option PersistentState} (hfits : ∀ e ∈ file, c.Fits e)
    (hmeta : ∀ content ∈ metaFile, (d.decode content).isSome) (hp : file.Perm appended) :
    Inv c d (ConFileStorage.new c d metaFile (c.frames file) lastMetadata appended) := by
  rw [ConFileStorage.new, warmCache_eq (Codec.readFile_frames hfits)
    (readMeta_isSome_iff.mpr hmeta)]
  have hle : file.length ≤ file.length - 1000 + 1000 := by omega
  generalize file.length - 1000 = start at hle ⊢
  generalize start + 1000 = next at hle ⊢
  constructor
  case fits => exact fun e he ↦ hfits e (hp.mem_iff.mpr he)
  case noError => rfl
  case readMeta => exact readMeta_isSome_iff.mpr hmeta
  case idle => exact fun _ ↦ rfl
  case bytes =>
    refine ⟨file, [], [], [], rfl, rfl, rfl, rfl, ?_⟩
    rw [Append.batch, List.append_nil, List.append_nil, List.append_nil, List.append_nil]
    exact hp
  case cache => exact (LogCache.holds_warm file start hle).trans hp

/-! ### The steps -/

theorem Inv.store (h : Inv c d s) {state : PersistentState} (hfits : d.Fits state) :
    Inv c d (s.store d state).2 := by
  rw [ConFileStorage.store]
  split
  · exact h
  · obtain ⟨bs, he, hd, -⟩ := hfits
    rw [he]
    refine { h with readMeta := readMeta_isSome_iff.mpr fun content hc ↦ ?_ }
    obtain rfl := Option.some_inj.mp hc
    rw [hd]
    rfl

theorem Inv.append (h : Inv c d s) (hidle : s.append = .idle) {entries : List E}
    (hfits : ∀ e ∈ entries, c.Fits e) {append : Append E} (hb : append.batch = entries) :
    Inv c d { s with
      logCache := s.logCache.insertAll s.lastCachedIndex entries
      lastCachedIndex := s.lastCachedIndex + entries.length
      append := append
      appended := s.appended ++ entries } := by
  obtain ⟨file, background, appender, buffer, hf, hbg, hap, hbuf, hp⟩ := h.bytes
  constructor
  case fits => exact fun e he ↦ (List.mem_append.mp he).elim (h.fits e) (hfits e)
  case noError => exact h.noError
  case readMeta => exact h.readMeta
  case idle => exact fun _ ↦ h.idle (by rw [hidle]; simp)
  case bytes =>
    refine ⟨file, background, appender, buffer, hf, hbg, hap, hbuf, ?_⟩
    rw [hidle, Append.batch, List.append_nil] at hp
    simp only [hb]
    simpa only [List.append_assoc] using hp.append_right entries
  case cache => exact h.cache.insertAll entries

theorem Inv.fill (h : Inv c d s) {entries : List E} (ha : s.append = .appending entries)
    (pending : ℕ) :
    Inv c d { s with
      writer := { s.writer with
          buffer := (appendFrames c s.writer.buffer entries).2, pendingBytes := pending }
      append := .idle } := by
  obtain ⟨file, background, appender, buffer, hf, hbg, hap, hbuf, hp⟩ := h.bytes
  rw [ha, Append.batch] at hp
  have hfits : ∀ e ∈ entries, c.Fits e := fun e he ↦ h.fits e (hp.mem_iff.mp (by simp [he]))
  rw [appendFrames_eq fun e he ↦ (hfits e he).isSome_encode]
  refine { h with idle := fun _ ↦ h.idle (by rw [ha]; simp), bytes := ?_ }
  refine ⟨file, background, appender, buffer ++ entries, hf, hbg, hap, ?_, ?_⟩
  · rw [Codec.frames_append, ← hbuf]
  · rw [Append.batch, List.append_nil]
    exact hp

/-- What a call of `flush` carries, if it is not about to write. -/
theorem carries_nil {f : Flush} {l : List E} (hf : ∀ chunk, f ≠ .taken chunk)
    (h : f.Carries c l) : l = [] := by
  cases f with
  | idle => exact h
  | taken chunk => exact absurd rfl (hf chunk)
  | written => exact h

theorem Inv.take (h : Inv c d s) {who : Flusher} (hi : s.flush who = .idle)
    (ha : who = .appender → ∃ es, s.append = .flushing es) :
    Inv c d { s.setFlush who (.taken s.writer.buffer) with
      writer := { s.writer with buffer := [] } } := by
  obtain ⟨file, background, appender, buffer, hf, hbg, hap, hbuf, hp⟩ := h.bytes
  cases who with
  | background =>
    rw [hi] at hbg
    obtain rfl : background = [] := hbg
    refine { h with idle := fun hn ↦ h.idle hn, bytes := ?_ }
    refine ⟨file, buffer, appender, [], hf, hbuf, hap, rfl, ?_⟩
    exact List.Perm.trans (List.Perm.append_left file (List.perm_append_comm_assoc ..)) hp
  | appender =>
    rw [hi] at hap
    obtain rfl : appender = [] := hap
    obtain ⟨es, hes⟩ := ha rfl
    refine { h with idle := fun hn ↦ absurd hes (hn es), bytes := ?_ }
    exact ⟨file, background, buffer, [], hf, hbg, hbuf, rfl, hp⟩

theorem Inv.write (h : Inv c d s) {who : Flusher} {chunk : List UInt8}
    (ht : s.flush who = .taken chunk) :
    Inv c d { s.setFlush who .written with
      writer := { s.writer with file := s.writer.file ++ chunk } } := by
  obtain ⟨file, background, appender, buffer, hf, hbg, hap, hbuf, hp⟩ := h.bytes
  cases who with
  | background =>
    rw [ht] at hbg
    obtain rfl : chunk = c.frames background := hbg
    refine { h with idle := fun hn ↦ h.idle hn, bytes := ?_ }
    refine ⟨file ++ background, [], appender, buffer, ?_, rfl, hap, hbuf, ?_⟩
    · rw [Codec.frames_append, ← hf]
    · rw [List.append_assoc]
      exact hp
  | appender =>
    rw [ht] at hap
    obtain rfl : chunk = c.frames appender := hap
    refine { h with idle := fun hn ↦ ?_, bytes := ?_ }
    · have := h.idle hn
      rw [ht] at this
      cases this
    · refine ⟨file ++ appender, background, [], buffer, ?_, hbg, rfl, hbuf, ?_⟩
      · rw [Codec.frames_append, ← hf]
      · rw [List.append_assoc]
        exact List.Perm.trans (List.Perm.append_left file (List.perm_append_comm_assoc ..)) hp

/-- A call of `flush` that has nothing left to write returns. -/
theorem Inv.returns (h : Inv c d s) {who : Flusher} (hw : ∀ chunk, s.flush who ≠ .taken chunk)
    (pending : ℕ) :
    Inv c d ({ s.setFlush who .idle with
      writer := { s.writer with pendingBytes := pending } }.afterFlush true who) := by
  obtain ⟨file, background, appender, buffer, hf, hbg, hap, hbuf, hp⟩ := h.bytes
  cases who with
  | background =>
    obtain rfl := carries_nil hw hbg
    exact { h with
      idle := fun hn ↦ h.idle hn
      bytes := ⟨file, [], appender, buffer, hf, rfl, hap, hbuf, hp⟩ }
  | appender =>
    obtain rfl := carries_nil hw hap
    simp only [afterFlush, setFlush]
    split
    · rename_i es hes
      rw [hes] at hp
      exact { h with
        idle := fun _ ↦ rfl
        bytes := ⟨file, background, [], buffer, hf, hbg, rfl, hbuf, hp⟩ }
    · exact { h with
        idle := fun _ ↦ rfl
        bytes := ⟨file, background, [], buffer, hf, hbg, rfl, hbuf, hp⟩ }

/-- A call of `flush` that finds the buffer empty returns at once. -/
theorem Inv.nothing (h : Inv c d s) {who : Flusher} (hi : s.flush who = .idle) :
    Inv c d (s.afterFlush true who) := by
  have hw : ∀ chunk, s.flush who ≠ .taken chunk := by
    rw [hi]
    simp
  have := h.returns hw s.writer.pendingBytes
  rwa [setFlush, ← hi, Function.update_eq_self] at this

/-- With nothing in the map there is nothing in the file. -/
theorem Inv.file_nil (h : Inv c d s) (hc : s.logCache = []) :
    c.readFile s.writer.file = some [] ∧ s.appended = [] := by
  have hp := h.cache.perm
  rw [hc] at hp
  have happ : s.appended = [] := List.nil_perm.mp hp
  obtain ⟨file, background, appender, buffer, hf, -, -, -, hb⟩ := h.bytes
  rw [happ, List.perm_nil, List.append_eq_nil_iff] at hb
  obtain ⟨rfl, -⟩ := hb
  exact ⟨by rw [hf]; rfl, happ⟩

/-- The entries come as the map is iterated. -/
theorem Inv.restore_eq (h : Inv c d s) {order : LogCache E} (hp : order.Perm s.logCache) :
    ∃ state, (s.restore c d order).1 = some (state, order.map Prod.snd) := by
  cases order with
  | nil =>
    obtain ⟨hf, -⟩ := h.file_nil (List.nil_perm.mp hp)
    obtain ⟨state, hr⟩ := restore_nil hf h.readMeta
    exact ⟨state, by rw [hr]; rfl⟩
  | cons p ps =>
    obtain ⟨state, hstate⟩ := Option.isSome_iff_exists.mp h.readMeta
    exact ⟨state, by rw [restore, hstate]; rfl⟩

theorem Inv.restore (h : Inv c d s) {order : LogCache E} (hp : order.Perm s.logCache) :
    Inv c d (s.restore c d order).2 := by
  cases order with
  | nil =>
    obtain ⟨hf, happ⟩ := h.file_nil (List.nil_perm.mp hp)
    obtain ⟨state, hr⟩ := restore_nil hf h.readMeta
    rw [hr, List.nil_perm.mp hp]
    refine { h with cache := ?_ }
    change LogCache.Holds [] 0 s.appended
    rw [happ]
    exact LogCache.holds_nil 0
  | cons p ps =>
    obtain ⟨state, hstate⟩ := Option.isSome_iff_exists.mp h.readMeta
    rw [ConFileStorage.restore, hstate]
    exact h

theorem Inv.restart (h : Inv c d s) (ha : s.append = .idle)
    (hbg : s.flush .background = .idle) (hbuf : s.writer.buffer = [])
    (lastMetadata : Option PersistentState) :
    Inv c d (ConFileStorage.new c d s.metaFile s.writer.file lastMetadata s.appended) := by
  obtain ⟨file, background, appender, buffer, hf, hb, hap, hbu, hp⟩ := h.bytes
  rw [hbg] at hb
  rw [h.idle (by rw [ha]; simp)] at hap
  obtain rfl : background = [] := hb
  obtain rfl : appender = [] := hap
  have hfit : ∀ e ∈ file ++ buffer, c.Fits e :=
    fun e he ↦ h.fits e (hp.mem_iff.mp (by simpa [ha, Append.batch] using he))
  obtain rfl : buffer = [] := by
    refine (Codec.frames_eq_nil_iff fun e he ↦
      (hfit e (List.mem_append_right _ he)).isSome_encode).mp ?_
    rw [← hbu, hbuf]
  rw [hf]
  refine Inv.new file (fun e he ↦ hfit e (List.mem_append_left _ he))
    (readMeta_isSome_iff.mp h.readMeta) ?_
  simpa only [ha, Append.batch, List.append_nil, List.nil_append] using hp

/-- What a step can do when no write fails, one case for each branch. -/
inductive Does (c : Codec E) (d : Codec PersistentState) (s : ConFileStorage E) :
    Act E → ConFileStorage E → Prop
  | store {state : PersistentState} : Does c d s (.store state) (s.store d state).2
  | nothing : Does c d s (.append []) s
  | append {entries : List E} {append : Append E} (hi : s.append = .idle)
      (hb : append.batch = entries) :
      Does c d s (.append entries) { s with
        logCache := s.logCache.insertAll s.lastCachedIndex entries
        lastCachedIndex := s.lastCachedIndex + entries.length
        append := append
        appended := s.appended ++ entries }
  | fill {entries : List E} {pending : ℕ} (ha : s.append = .appending entries) :
      Does c d s .fill { s with
        writer := { s.writer with
          buffer := (appendFrames c s.writer.buffer entries).2, pendingBytes := pending }
        append := .idle }
  | skip {who : Flusher} (hi : s.flush who = .idle) :
      Does c d s (.take who) (s.afterFlush true who)
  | take {who : Flusher} (hi : s.flush who = .idle)
      (ha : who = .appender → ∃ es, s.append = .flushing es) :
      Does c d s (.take who) { s.setFlush who (.taken s.writer.buffer) with
        writer := { s.writer with buffer := [] } }
  | write {who : Flusher} {chunk : List UInt8} (ht : s.flush who = .taken chunk) :
      Does c d s (.write who none) { s.setFlush who .written with
        writer := { s.writer with file := s.writer.file ++ chunk } }
  | finish {who : Flusher} (hw : s.flush who = .written) :
      Does c d s (.finish who) ({ s.setFlush who .idle with
        writer := { s.writer with pendingBytes := 0 } }.afterFlush true who)
  | restore {order : LogCache E} (hp : order.Perm s.logCache) :
      Does c d s (.restore order) (s.restore c d order).2
  | restart {sameProcess : Bool} (ha : s.append = .idle) (hbg : s.flush .background = .idle)
      (hbuf : s.writer.buffer = []) :
      Does c d s (.restart sameProcess) (new c d s.metaFile s.writer.file
        (if sameProcess then s.lastMetadata else none) s.appended)

theorem does_take {who : Flusher} (hi : s.flush who = .idle)
    (ha : who = .appender → ∃ es, s.append = .flushing es)
    (hs : (if s.writer.buffer = [] then some (s.afterFlush true who)
      else some { s.setFlush who (.taken s.writer.buffer) with
        writer := { s.writer with buffer := [] } }) = some s') : Does c d s (.take who) s' := by
  split at hs
  · obtain rfl := Option.some_inj.mp hs
    exact .skip hi
  · obtain rfl := Option.some_inj.mp hs
    exact .take hi ha

theorem Sound.write_all {a : Act E} (h : Sound c d s a) {who : Flusher} {room : Option ℕ}
    (ha : a = .write who room) : room = none := by
  subst ha
  exact h

theorem does_of_step [DecidableEq E] {a : Act E} (herr : s.writer.writeError = false)
    (hok : ∀ who room, a = .write who room → room = none) (hs : s.step c d size a = some s') :
    Does c d s a s' := by
  cases a with
  | store state =>
    simp only [ConFileStorage.step] at hs
    split at hs
    · obtain rfl := Option.some_inj.mp hs
      exact .store
    · cases hs
  | append entries =>
    cases entries with
    | nil =>
      simp only [ConFileStorage.step] at hs
      split at hs
      · obtain rfl := Option.some_inj.mp hs
        exact .nothing
      · cases hs
    | cons e es =>
      simp only [ConFileStorage.step] at hs
      split at hs
      · rename_i hi
        obtain rfl := Option.some_inj.mp hs
        refine .append hi ?_
        split <;> rfl
      · cases hs
  | fill =>
    simp only [ConFileStorage.step] at hs
    split at hs
    · rename_i entries ha
      obtain rfl := Option.some_inj.mp hs
      exact .fill ha
    · cases hs
  | take who =>
    simp only [ConFileStorage.step] at hs
    split at hs
    · rename_i es ha hi
      exact does_take hi (fun _ ↦ ⟨es, ha⟩) hs
    · rename_i hi
      exact does_take hi (fun hw ↦ by cases hw) hs
    · cases hs
  | write who room =>
    obtain rfl : room = none := hok who room rfl
    simp only [ConFileStorage.step, LogWriter.write_none herr] at hs
    split at hs
    · rename_i chunk ht
      obtain rfl := Option.some_inj.mp hs
      exact .write ht
    · cases hs
  | finish who =>
    simp only [ConFileStorage.step] at hs
    split at hs
    · rename_i hw
      obtain rfl := Option.some_inj.mp hs
      exact .finish hw
    · cases hs
  | restore order =>
    simp only [ConFileStorage.step] at hs
    split at hs
    · split at hs
      · rename_i hp
        obtain rfl := Option.some_inj.mp hs
        exact .restore hp
      · cases hs
    · cases hs
  | restart sameProcess =>
    simp only [ConFileStorage.step] at hs
    split at hs
    · rename_i ha hbg hbuf
      obtain rfl := Option.some_inj.mp hs
      exact .restart ha hbg hbuf
    · cases hs

/-- **Every step keeps the invariant.** -/
theorem Inv.step [DecidableEq E] (h : Inv c d s) {a : Act E} (hok : Sound c d s a)
    (hs : s.step c d size a = some s') : Inv c d s' := by
  cases does_of_step h.noError (fun _ _ ↦ hok.write_all) hs with
  | store => exact h.store hok
  | nothing => exact h
  | append hi hb => exact h.append hi hok hb
  | fill ha => exact h.fill ha _
  | skip hi => exact h.nothing hi
  | take hi ha => exact h.take hi ha
  | write ht => exact h.write ht
  | finish hw => exact h.returns (by rw [hw]; simp) 0
  | restore hp => exact h.restore hp
  | restart ha hbg hbuf => exact h.restart ha hbg hbuf _

/-! ## What `restore` returns -/

theorem eq_of_perm_of_forall_eq {l l' : List E} (hp : l.Perm l')
    (h : ∀ x ∈ l', ∀ y ∈ l', x = y) : l = l' := by
  cases l' with
  | nil => exact List.perm_nil.mp hp
  | cons a t =>
    have hrep : a :: t = List.replicate (t.length + 1) a :=
      List.eq_replicate_iff.mpr ⟨rfl, fun x hx ↦ h x hx a List.mem_cons_self⟩
    rw [hrep] at hp ⊢
    exact List.perm_replicate.mp hp

variable [DecidableEq E]

theorem inv_of_reach (h : Reach (step c d size) (Sound c d) (empty c d) s) : Inv c d s := by
  refine h.inv ?_ fun _ _ _ hi hok hs ↦ hi.step hok hs
  exact Inv.new [] (by simp) (by simp) List.Perm.nil

/-- `restore` returns what was appended, in some order. -/
theorem restore_perm (h : Reach (step c d size) (Sound c d) (empty c d) s) {order : LogCache E}
    (hp : order.Perm s.logCache) :
    ∃ state logs, (s.restore c d order).1 = some (state, logs) ∧ logs.Perm s.appended := by
  have hinv := inv_of_reach h
  obtain ⟨state, hr⟩ := hinv.restore_eq hp
  exact ⟨state, _, hr, (hp.map Prod.snd).trans hinv.cache.perm⟩

/-- **When the log comes back.**  In whatever order the map is iterated, `restore` returns the
entries in the order in which they were appended: this is so exactly if they are all the same. -/
theorem restore_eq_iff (h : Reach (step c d size) (Sound c d) (empty c d) s) :
    (∀ order : LogCache E, order.Perm s.logCache →
      ∃ state, (s.restore c d order).1 = some (state, s.appended)) ↔
    ∀ x ∈ s.appended, ∀ y ∈ s.appended, x = y := by
  have hinv := inv_of_reach h
  constructor
  · intro hall x hx y hy
    -- the map can be iterated from any of its entries on
    have hfirst : ∀ e ∈ s.appended, s.appended.head? = some e := by
      intro e he
      obtain ⟨p, hp, rfl⟩ := List.mem_map.mp (hinv.cache.perm.mem_iff.mpr he)
      have hperm := (List.perm_cons_erase hp).symm
      obtain ⟨state, hr⟩ := hall _ hperm
      obtain ⟨state', hr'⟩ := hinv.restore_eq hperm
      rw [hr'] at hr
      obtain ⟨-, heq⟩ := Prod.mk.inj (Option.some_inj.mp hr)
      rw [← heq]
      rfl
    exact Option.some_inj.mp ((hfirst x hx).symm.trans (hfirst y hy))
  · intro heq order hp
    obtain ⟨state, hr⟩ := hinv.restore_eq hp
    refine ⟨state, ?_⟩
    rw [hr, eq_of_perm_of_forall_eq ((hp.map Prod.snd).trans hinv.cache.perm) heq]

/-! ## Two entries -/

instance (a : Act E) : Decidable (Sound c d s a) :=
  match a with
  | .store state => inferInstanceAs (Decidable (d.Fits state))
  | .append entries => inferInstanceAs (Decidable (∀ e ∈ entries, c.Fits e))
  | .write _ room => inferInstanceAs (Decidable (room = none))
  | .fill | .take _ | .finish _ | .restore _ | .restart _ => inferInstanceAs (Decidable True)

end ConFileStorage

/-- The encoding of entries with the command `Unknown`. -/
def unknownCodec : Codec (LogEntry Unit) where
  encode e := some (toLe 4 14 ++ toLe 8 e.term)
  decode bs :=
    if bs.length = 12 ∧ bs.take 4 = toLe 4 14 then some ⟨(), ofLe (bs.drop 4)⟩ else none

/-- The encoding of metadata that is a term only. -/
def termCodec : Codec PersistentState where
  encode state :=
    match state with
    | ⟨term, none, none⟩ => some (toLe 8 term ++ [0, 0])
    | _ => none
  decode bs :=
    if bs.length = 10 ∧ bs.drop 8 = [0, 0] then some ⟨ofLe (bs.take 8), none, none⟩ else none

namespace ConFileStorage

/-- The same entry, before and after a restart. -/
theorem restore_eq_iff_restart :
    ∃ s, Reach (step unknownCodec termCodec 64) (Sound unknownCodec termCodec)
        (empty unknownCodec termCodec) s ∧ s.appended = [⟨(), 10⟩, ⟨(), 10⟩] ∧
      ∀ order : LogCache (LogEntry Unit), order.Perm s.logCache →
        ∃ state, (s.restore unknownCodec termCodec order).1 = some (state, s.appended) := by
  let as : List (Act (LogEntry Unit)) := [.append [⟨(), 10⟩], .fill, .take .background,
    .write .background none, .finish .background, .restart false, .append [⟨(), 10⟩], .fill]
  have h : Reach (step unknownCodec termCodec 64) (Sound unknownCodec termCodec)
      (empty unknownCodec termCodec) ((run (step unknownCodec termCodec 64)
        (Sound unknownCodec termCodec) (empty unknownCodec termCodec) as).get (by decide)) :=
    Reach.start.run (Option.some_get _).symm
  exact ⟨_, h, by decide, (restore_eq_iff h).mpr (by decide)⟩

/-- Two entries, and a map that is iterated backwards. -/
theorem not_restore_eq :
    ∃ s, Reach (step unknownCodec termCodec 64) (Sound unknownCodec termCodec)
        (empty unknownCodec termCodec) s ∧ s.appended = [⟨(), 10⟩, ⟨(), 11⟩] ∧
      ∃ order, order.Perm s.logCache ∧ (s.restore unknownCodec termCodec order).1 =
        some (PersistentState.default, [⟨(), 11⟩, ⟨(), 10⟩]) := by
  let as : List (Act (LogEntry Unit)) := [.append [⟨(), 10⟩, ⟨(), 11⟩], .fill]
  have h : Reach (step unknownCodec termCodec 64) (Sound unknownCodec termCodec)
      (empty unknownCodec termCodec) ((run (step unknownCodec termCodec 64)
        (Sound unknownCodec termCodec) (empty unknownCodec termCodec) as).get (by decide)) :=
    Reach.start.run (Option.some_get _).symm
  exact ⟨_, h, by decide, [(1001, ⟨(), 11⟩), (1000, ⟨(), 10⟩)], by decide, by decide⟩

end ConFileStorage

end Efis
