import Efis.Storage.ConFile
import Mathlib.Data.List.TakeWhile

/-!
# Failed writes

The calls of `LogWriter` one after the other, when writes can fail.  A write returns before it is
done, so `flush` is told of a failure only by the next write, and by then the buffer that was lost
is gone: that of an earlier call, which has returned `Ok`, and that of the call that is told, which
is not written at all.  A batch goes into the buffer one entry after the other, so the entries
before one that cannot be encoded stay there, though `append_batch` returns `Err`.  There is no
other way to lose or to gain an entry (`accepted_survive`).

A call that nobody interrupts is a run of the storage of `Efis.Storage.ConFile`
(`ConFileStorage.reach_flush`, `ConFileStorage.reach_append`).
-/

set_option autoImplicit false

namespace Efis

open Bytes Transition

variable {E : Type}

/-! ## Calls of the writer -/

/-- What becomes of the operations on the log file. -/
structure WriteIo where
  /-- The number of bytes that are written before a write fails. -/
  room : Option ℕ
  /-- `sync_data` does not fail, or it is not called: it is by every tenth `flush`. -/
  synced : Bool
  deriving DecidableEq

/-- Nothing fails. -/
def WriteIo.done : WriteIo := ⟨none, true⟩

namespace LogWriter

/-- `flush`, and whether it returned `Ok`.  `sync_data` waits for the last write, but keeps its
error for the next one. -/
def flush (w : LogWriter) (io : WriteIo) : Bool × LogWriter :=
  if w.buffer = [] then (true, w)
  else
    let (ok, w') := { w with buffer := [] }.write io.room w.buffer
    if ok && io.synced then (true, { w' with pendingBytes := 0 })
    else (false, w')

/-- `append_batch` flushes first. -/
def Overflows (size : ℕ) (w : LogWriter) (entries : List E) : Prop :=
  1024 * 1024 < w.pendingBytes + entries.length * (size + 4)

instance (size : ℕ) (w : LogWriter) (entries : List E) : Decidable (Overflows size w entries) :=
  inferInstanceAs (Decidable (_ < _))

/-- The rest of `append_batch`. -/
def addBatch (c : Codec E) (size : ℕ) (w : LogWriter) (entries : List E) : Bool × LogWriter :=
  let (ok, buffer) := ConFileStorage.appendFrames c w.buffer entries
  (ok, { w with
    buffer := buffer
    pendingBytes := if ok then w.pendingBytes + entries.length * (size + 4) else w.pendingBytes })

/-- `append_batch`, and whether it returned `Ok`. -/
def appendBatch (c : Codec E) (size : ℕ) (w : LogWriter) (io : WriteIo) (entries : List E) :
    Bool × LogWriter :=
  if Overflows size w entries then
    match w.flush io with
    | (true, w) => w.addBatch c size entries
    | (false, w) => (false, w)
  else w.addBatch c size entries

/-- A call, with what becomes of the write if it makes one. -/
inductive Job (E : Type) where
  | append (entries : List E) (io : WriteIo)
  | flush (io : WriteIo)

/-- Do a call, and keep a record of the batches for which `append_batch` returned `Ok`. -/
def work (c : Codec E) (size : ℕ) (s : LogWriter × List E) : Job E → Bool × LogWriter × List E
  | .append entries io =>
    let (ok, w) := s.1.appendBatch c size io entries
    (ok, w, if ok then s.2 ++ entries else s.2)
  | .flush io =>
    let (ok, w) := s.1.flush io
    (ok, w, s.2)

/-- The writer after calls of `flush` in which nothing fails any more. -/
def flushes (w : LogWriter) : ℕ → LogWriter
  | 0 => w
  | n + 1 => ((w.flushes n).flush .done).2

/-- From now on let nothing fail: then the first `flush` to return `Ok`, and every later one, leaves
what was in the file at first and every accepted entry, once and in order. -/
def Intact (c : Codec E) (base : List UInt8) (s : LogWriter × List E) : Prop :=
  ∀ n, ((s.1.flushes n).flush .done).1 = true →
    (s.1.flushes (n + 1)).file = base ++ c.frames s.2

/-- A call that failed has put nothing into the file or the buffer. -/
def AddsNothing (c : Codec E) (size : ℕ) (s : LogWriter × List E) (j : Job E) : Prop :=
  (work c size s j).1 = false →
    (work c size s j).2.1.file ++ (work c size s j).2.1.buffer <+: s.1.file ++ s.1.buffer

/-- There is room for the buffer. -/
def Fits (w : LogWriter) (io : WriteIo) : Prop :=
  ∀ k ∈ io.room, w.buffer.length ≤ k

/-- No write of the buffer fails, and if the first entry of a batch can be encoded, then all can. -/
def Safe (c : Codec E) (size : ℕ) (w : LogWriter) : Job E → Prop
  | .flush io => w.Fits io
  | .append entries io =>
    (Overflows size w entries → w.Fits io) ∧
    ((Overflows size w entries → io.synced = true ∨ w.buffer = []) →
      ∀ e ∈ entries.head?, (c.encode e).isSome → ∀ e ∈ entries, (c.encode e).isSome)

variable {c : Codec E} {size : ℕ} {w : LogWriter} {s : LogWriter × List E} {base : List UInt8}
  {io : WriteIo}

theorem fits_done : w.Fits .done := by
  simp [Fits, WriteIo.done]

theorem flush_nil (hb : w.buffer = []) : w.flush io = (true, w) :=
  if_pos hb

theorem write_of_error (he : w.writeError = true) {bytes : List UInt8} (hb : bytes ≠ [])
    (room : Option ℕ) : w.write room bytes = (false, { w with writeError := false }) := by
  rw [write, he, QueuedFile.writeAll_of_error rfl hb]

theorem write_spec (he : w.writeError = false) (room : Option ℕ) (bytes : List UInt8) :
    (w.write room bytes).2.buffer = w.buffer ∧
    (w.write room bytes).2.file = w.file ++ QueuedFile.taken room bytes ∧
    ((w.write room bytes).1 = true → (∃ k ∈ room, k < bytes.length) →
      (w.write room bytes).2.writeError = true) := by
  have hpos : 0 < QueuedFile.maxBufSize := QueuedFile.maxBufSize_pos
  refine ⟨rfl, QueuedFile.writeAll_written hpos he, fun hok hlt ↦ ?_⟩
  exact (QueuedFile.writeAll_error_iff hpos he).mpr
    ⟨(QueuedFile.writeAll_fst_iff hpos he).mp hok, hlt⟩

/-- An earlier write has failed: its error is returned, and the buffer is gone. -/
theorem flush_of_error (he : w.writeError = true) (hb : w.buffer ≠ []) :
    w.flush io = (false, { w with buffer := [], writeError := false }) := by
  have hwrite : { w with buffer := [] }.write io.room w.buffer =
      (false, { w with buffer := [], writeError := false }) :=
    write_of_error (w := { w with buffer := [] }) he hb io.room
  simp only [flush, if_neg hb, hwrite]
  rfl

/-- There is room for the buffer. -/
theorem flush_of_fits (he : w.writeError = false) (hb : w.buffer ≠ []) (h : w.Fits io) :
    w.flush io = (io.synced, ⟨[], w.file ++ w.buffer,
      if io.synced then 0 else w.pendingBytes, false⟩) := by
  simp only [flush, if_neg hb, write, he]
  rw [QueuedFile.writeAll_of_le QueuedFile.maxBufSize_pos rfl h]
  cases io.synced <;> rfl

theorem flush_done (he : w.writeError = false) (hb : w.buffer ≠ []) :
    w.flush .done = (true, ⟨[], w.file ++ w.buffer, 0, false⟩) :=
  flush_of_fits he hb fits_done

theorem flush_bytes (he : w.writeError = false) (h : w.Fits io) :
    (w.flush io).2.file ++ (w.flush io).2.buffer = w.file ++ w.buffer ∧
      (w.flush io).2.writeError = false := by
  by_cases hb : w.buffer = []
  · rw [flush_nil hb]
    exact ⟨rfl, he⟩
  · rw [flush_of_fits he hb h]
    exact ⟨List.append_nil _, rfl⟩

theorem flush_fst_iff (he : w.writeError = false) (h : w.Fits io) :
    (w.flush io).1 = true ↔ io.synced = true ∨ w.buffer = [] := by
  by_cases hb : w.buffer = []
  · rw [flush_nil hb]
    exact iff_of_true rfl (Or.inr hb)
  · rw [flush_of_fits he hb h, or_iff_left hb]

/-- There is no room for the buffer: some of it is lost, and if `flush` returns `Ok`, the next write
will be told. -/
theorem flush_of_not_fits (he : w.writeError = false) (h : ¬ w.Fits io) :
    (w.flush io).2.buffer = [] ∧ (w.flush io).2.file.length < (w.file ++ w.buffer).length ∧
      ((w.flush io).1 = true → (w.flush io).2.writeError = true) := by
  have hshort : ∃ k ∈ io.room, k < w.buffer.length := by
    simpa only [Fits, not_forall, exists_prop, not_le] using h
  have hb : w.buffer ≠ [] := by
    rintro hb
    rw [hb] at hshort
    obtain ⟨k, -, hk⟩ := hshort
    exact absurd hk (Nat.not_lt_zero k)
  have hwrite := write_spec (w := { w with buffer := [] }) he io.room w.buffer
  have hlen : (w.file ++ QueuedFile.taken io.room w.buffer).length <
      (w.file ++ w.buffer).length := by
    rw [List.length_append, List.length_append]
    exact Nat.add_lt_add_left (QueuedFile.length_taken_lt_iff.mpr hshort) _
  simp only [flush, if_neg hb]
  generalize { w with buffer := [] }.write io.room w.buffer = res at hwrite ⊢
  obtain ⟨ok, w'⟩ := res
  obtain ⟨hbuf, hfile, herr⟩ := hwrite
  have hlen' : w'.file.length < (w.file ++ w.buffer).length := by
    rw [hfile]
    exact hlen
  split
  · rename_i h
    exact ⟨hbuf, hlen', fun _ ↦ herr (Bool.and_eq_true_iff.mp h).1 hshort⟩
  · exact ⟨hbuf, hlen', fun h ↦ Bool.noConfusion h⟩

theorem buffer_flush_done : (w.flush .done).2.buffer = [] := by
  by_cases hb : w.buffer = []
  · rw [flush_nil hb, hb]
  · cases he : w.writeError with
    | false => rw [flush_done he hb]
    | true => rw [flush_of_error he hb]

theorem file_flush_done (he : w.writeError = false) :
    (w.flush .done).2.file = w.file ++ w.buffer := by
  rw [← (flush_bytes he fits_done).1, buffer_flush_done, List.append_nil]

theorem flushes_succ (n : ℕ) : w.flushes (n + 1) = (w.flush .done).2 := by
  induction n with
  | zero => rfl
  | succ n ih => rw [flushes, ih, flush_nil buffer_flush_done]

theorem intact_iff_flush : Intact c base s ↔ (s.1.flush .done).2.file = base ++ c.frames s.2 := by
  simp only [Intact, flushes_succ]
  constructor
  · intro h
    refine h 1 ?_
    rw [flushes_succ, flush_nil buffer_flush_done]
  · exact fun h n _ ↦ h

/-- What is in the buffer counts as written. -/
theorem intact_iff (he : s.1.writeError = false) :
    Intact c base s ↔ s.1.file ++ s.1.buffer = base ++ c.frames s.2 := by
  rw [intact_iff_flush, file_flush_done he]

/-- The buffer does not count if the next write is going to be told of an error. -/
theorem intact_iff_of_error (h : s.1.buffer = [] ∨ s.1.writeError = true) :
    Intact c base s ↔ s.1.file = base ++ c.frames s.2 := by
  rw [intact_iff_flush]
  by_cases hb : s.1.buffer = []
  · rw [flush_nil hb]
  · rw [flush_of_error (h.resolve_left hb) hb]

/-- The loop stops at the first entry that cannot be encoded. -/
theorem appendFrames_eq_takeWhile (buffer : List UInt8) (es : List E) :
    ConFileStorage.appendFrames c buffer es =
      (es.all fun e ↦ (c.encode e).isSome,
        buffer ++ c.frames (es.takeWhile fun e ↦ (c.encode e).isSome)) := by
  induction es generalizing buffer with
  | nil => simp [ConFileStorage.appendFrames]
  | cons e es ih =>
    rw [ConFileStorage.appendFrames]
    cases he : c.encode e with
    | none => simp [Codec.frame, he]
    | some bs =>
      have hf : c.frame e = some (toLe 4 bs.length ++ bs) := by rw [Codec.frame, he]; rfl
      simp [hf, he, ih, Codec.frames_cons_of_frame hf]

/-- A batch adds all its entries and is accepted, or it adds none, or its first entry can be encoded
and another cannot. -/
theorem addBatch_bytes (entries : List E) {acc : List E}
    (h : w.file ++ w.buffer = base ++ c.frames acc) :
    (w.addBatch c size entries).2.file ++ (w.addBatch c size entries).2.buffer =
        base ++ c.frames (if (w.addBatch c size entries).1 then acc ++ entries else acc) ↔
      ∀ e ∈ entries.head?, (c.encode e).isSome → ∀ e ∈ entries, (c.encode e).isSome := by
  simp only [addBatch, appendFrames_eq_takeWhile]
  by_cases hall : ∀ e ∈ entries, (c.encode e).isSome
  · have hb : (entries.all fun e ↦ (c.encode e).isSome) = true := List.all_eq_true.mpr hall
    rw [if_pos hb, List.takeWhile_eq_self_iff.mpr hall, ← List.append_assoc, h,
      Codec.frames_append, List.append_assoc]
    exact iff_of_true rfl fun _ _ _ ↦ hall
  · have hb : ¬ (entries.all fun e ↦ (c.encode e).isSome) = true := mt List.all_eq_true.mp hall
    rw [if_neg hb, ← List.append_assoc, h, List.append_right_eq_self,
      Codec.frames_eq_nil_iff fun e he ↦
        List.mem_takeWhile_imp (p := fun e ↦ (c.encode e).isSome) he]
    cases entries with
    | nil => simp
    | cons e es =>
      by_cases he : (c.encode e).isSome
      · rw [List.takeWhile_cons_of_pos (p := fun e ↦ (c.encode e).isSome) he]
        refine iff_of_false (List.cons_ne_nil _ _) fun hhead ↦ hall (hhead e rfl he)
      · rw [List.takeWhile_cons_of_neg (p := fun e ↦ (c.encode e).isSome) he]
        refine iff_of_true rfl fun x hx hx' ↦ ?_
        obtain rfl := Option.some_inj.mp hx
        exact absurd hx' he

/-- After a call that keeps the entries intact and failed, nothing can have been added. -/
theorem addsNothing_of_intact (he : s.1.writeError = false) (h : Intact c base s) {j : Job E}
    (he' : (work c size s j).2.1.writeError = false) (hj : Intact c base (work c size s j).2) :
    AddsNothing c size s j := by
  intro hfail
  have hacc : (work c size s j).2.2 = s.2 := by
    cases j with
    | flush io => rfl
    | append entries io =>
      simp only [work] at hfail ⊢
      rw [hfail]
      rfl
  rw [intact_iff he] at h
  rw [intact_iff he'] at hj
  rw [hj, hacc, h]

/-- The batch goes into the buffer if nothing fails before. -/
theorem appendBatch_of_fine {entries : List E} (he : w.writeError = false)
    (hfits : Overflows size w entries → w.Fits io)
    (h : Overflows size w entries → io.synced = true ∨ w.buffer = []) :
    ∃ w' : LogWriter, w.appendBatch c size io entries = w'.addBatch c size entries ∧
      w'.file ++ w'.buffer = w.file ++ w.buffer ∧ w'.writeError = false := by
  rw [appendBatch]
  split
  · rename_i hover
    have hok : (w.flush io).1 = true := (flush_fst_iff he (hfits hover)).mpr (h hover)
    refine ⟨(w.flush io).2, ?_, flush_bytes he (hfits hover)⟩
    split
    · rename_i w' hw
      rw [hw]
    · rename_i w' hw
      rw [hw] at hok
      cases hok
  · exact ⟨w, rfl, rfl, he⟩

theorem appendBatch_of_not_ok {entries : List E} (hover : Overflows size w entries)
    (h : ¬ (w.flush io).1 = true) :
    w.appendBatch c size io entries = (false, (w.flush io).2) := by
  rw [appendBatch, if_pos hover]
  split
  · rename_i w' hw
    rw [hw] at h
    exact absurd rfl h
  · rename_i w' hw
    rw [hw]

theorem appendBatch_of_ok {entries : List E} (hover : Overflows size w entries)
    (h : (w.flush io).1 = true) :
    w.appendBatch c size io entries = (w.flush io).2.addBatch c size entries := by
  rw [appendBatch, if_pos hover]
  split
  · rename_i w' hw
    rw [hw]
  · rename_i w' hw
    rw [hw] at h
    cases h

theorem length_frames_le (acc : List E) (ok : Bool) (entries : List E) :
    (c.frames acc).length ≤ (c.frames (if ok then acc ++ entries else acc)).length := by
  cases ok with
  | false => exact le_rfl
  | true =>
    rw [if_pos rfl, Codec.frames_append, List.length_append]
    exact Nat.le_add_right _ _

/-- What there was no room for is not made up for. -/
theorem not_intact {acc : List E} (hlt : w.file.length < (base ++ c.frames s.2).length)
    (hacc : (c.frames s.2).length ≤ (c.frames acc).length)
    (hw : w.buffer = [] ∨ w.writeError = true) : ¬ Intact c base (w, acc) := by
  rw [intact_iff_of_error hw]
  intro h
  have hlen := congrArg List.length h
  rw [List.length_append] at hlt hlen
  dsimp only at hlen
  omega

theorem intact_flush_iff (he : s.1.writeError = false) (h : Intact c base s) (io : WriteIo) :
    Intact c base ((s.1.flush io).2, s.2) ↔ s.1.Fits io := by
  rw [intact_iff he] at h
  constructor
  · intro hj
    by_contra hfits
    obtain ⟨hbuf, hlt, -⟩ := flush_of_not_fits he hfits
    rw [h] at hlt
    exact not_intact hlt le_rfl (Or.inl hbuf) hj
  · intro hfits
    obtain ⟨hbytes, he'⟩ := flush_bytes he hfits
    rw [intact_iff he', hbytes, h]

theorem intact_append_iff (he : s.1.writeError = false) (h : Intact c base s) (entries : List E)
    (io : WriteIo) : Intact c base (work c size s (.append entries io)).2 ↔
      Safe c size s.1 (.append entries io) := by
  have hwork : (work c size s (.append entries io)).2 =
      ((s.1.appendBatch c size io entries).2,
        if (s.1.appendBatch c size io entries).1 then s.2 ++ entries else s.2) := rfl
  rw [intact_iff he] at h
  rw [hwork, Safe]
  by_cases hfits : Overflows size s.1 entries → s.1.Fits io
  · by_cases hfine : Overflows size s.1 entries → io.synced = true ∨ s.1.buffer = []
    · obtain ⟨w', hw, hbytes, he'⟩ := appendBatch_of_fine (c := c) he hfits hfine
      have hadd : (w'.addBatch c size entries).2.writeError = false := he'
      rw [hw, intact_iff hadd, addBatch_bytes entries (hbytes.trans h)]
      exact ⟨fun hh ↦ ⟨hfits, fun _ ↦ hh⟩, fun hs ↦ hs.2 hfine⟩
    · -- all is written, but the batch was not looked at
      refine iff_of_true ?_ ⟨hfits, fun hn ↦ absurd hn hfine⟩
      push Not at hfine
      obtain ⟨hover, hsync⟩ := hfine
      have hbad : ¬ (s.1.flush io).1 = true :=
        mt (flush_fst_iff he (hfits hover)).mp (not_or.mpr hsync)
      obtain ⟨hbytes, he'⟩ := flush_bytes he (hfits hover)
      rw [appendBatch_of_not_ok hover hbad, intact_iff he']
      exact hbytes.trans h
  · refine iff_of_false ?_ fun hs ↦ hfits hs.1
    push Not at hfits
    obtain ⟨hover, hnot⟩ := hfits
    obtain ⟨hbuf, hlt, herr⟩ := flush_of_not_fits he hnot
    rw [h] at hlt
    by_cases hok : (s.1.flush io).1 = true
    · -- nobody was told, and the batch is in the buffer
      rw [appendBatch_of_ok hover hok]
      exact not_intact hlt (length_frames_le _ _ _) (Or.inr (herr hok))
    · rw [appendBatch_of_not_ok hover hok]
      exact not_intact hlt (length_frames_le _ _ _) (Or.inl hbuf)

/-- A safe call leaves no error behind. -/
theorem writeError_work (he : s.1.writeError = false) {j : Job E} (hj : Safe c size s.1 j) :
    (work c size s j).2.1.writeError = false := by
  cases j with
  | flush io => exact (flush_bytes he hj).2
  | append entries io =>
    have hwork : (work c size s (.append entries io)).2.1 =
        (s.1.appendBatch c size io entries).2 := rfl
    rw [hwork]
    by_cases hfine : Overflows size s.1 entries → io.synced = true ∨ s.1.buffer = []
    · obtain ⟨w', hw, -, he'⟩ := appendBatch_of_fine (c := c) he hj.1 hfine
      rw [hw]
      exact he'
    · push Not at hfine
      obtain ⟨hover, hsync⟩ := hfine
      have hbad : ¬ (s.1.flush io).1 = true :=
        mt (flush_fst_iff he (hj.1 hover)).mp (not_or.mpr hsync)
      rw [appendBatch_of_not_ok hover hbad]
      exact (flush_bytes he (hj.1 hover)).2

/-- **One call.** -/
theorem intact_work_iff (he : s.1.writeError = false) (h : Intact c base s) (j : Job E) :
    (Intact c base (work c size s j).2 ∧ AddsNothing c size s j) ↔ Safe c size s.1 j := by
  have hiff : Intact c base (work c size s j).2 ↔ Safe c size s.1 j := by
    cases j with
    | append entries io => exact intact_append_iff he h entries io
    | flush io => exact intact_flush_iff he h io
  rw [← hiff, and_iff_left_iff_imp]
  exact fun hj ↦ addsNothing_of_intact he h (writeError_work he (hiff.mp hj)) hj

end LogWriter

/-! ## The calls as steps of the storage -/

namespace ConFileStorage

variable [DecidableEq E] {c : Codec E} {d : Codec PersistentState} {size : ℕ}
  {s : ConFileStorage E}

omit [DecidableEq E] in
@[simp] theorem writer_afterFlush (s : ConFileStorage E) (ok : Bool) (who : Flusher) :
    (s.afterFlush ok who).writer = s.writer := by
  cases who with
  | background => rfl
  | appender =>
    simp only [afterFlush]
    split <;> rfl

omit [DecidableEq E] in
/-- What `append_batch` does after a `flush` does not depend on the rest of the storage. -/
theorem append_afterFlush {t : ConFileStorage E} (h : s.append = t.append) (ok : Bool)
    (who : Flusher) : (s.afterFlush ok who).append = (t.afterFlush ok who).append := by
  cases who with
  | background => exact h
  | appender =>
    simp only [afterFlush, ← h]
    split
    · rfl
    · exact h

theorem step_take {who : Flusher} (hi : s.flush who = .idle)
    (hwho : who = .appender → ∃ es, s.append = .flushing es) :
    s.step c d size (.take who) =
      if s.writer.buffer = [] then some (s.afterFlush true who)
      else some { s.setFlush who (.taken s.writer.buffer) with
        writer := { s.writer with buffer := [] } } := by
  cases who with
  | background => simp only [step, hi]
  | appender =>
    obtain ⟨es, hes⟩ := hwho rfl
    simp only [step, hi, hes]

theorem step_write_ok {who : Flusher} {chunk : List UInt8} {room : Option ℕ} {writer : LogWriter}
    (h : s.flush who = .taken chunk) (hw : s.writer.write room chunk = (true, writer)) :
    s.step c d size (.write who room) =
      some { s.setFlush who .written with writer := writer } := by
  simp only [step, h, hw]
  rfl

theorem step_write_err {who : Flusher} {chunk : List UInt8} {room : Option ℕ} {writer : LogWriter}
    (h : s.flush who = .taken chunk) (hw : s.writer.write room chunk = (false, writer)) :
    s.step c d size (.write who room) =
      some ({ s.setFlush who .idle with writer := writer }.afterFlush false who) := by
  simp only [step, h, hw]
  rfl

/-- A write that does not fail, when none has failed before. -/
theorem step_write {who : Flusher} {chunk : List UInt8} (h : s.flush who = .taken chunk)
    (he : s.writer.writeError = false) :
    s.step c d size (.write who none) = some { s.setFlush who .written with
      writer := { s.writer with file := s.writer.file ++ chunk } } :=
  step_write_ok h (LogWriter.write_none he chunk)

theorem step_finish {who : Flusher} (h : s.flush who = .written) :
    s.step c d size (.finish who) = some ({ s.setFlush who .idle with
      writer := { s.writer with pendingBytes := 0 } }.afterFlush true who) := by
  simp only [step, h]

theorem step_append {e : E} {es : List E} (h : s.append = .idle) :
    s.step c d size (.append (e :: es)) = some { s with
      logCache := s.logCache.insertAll s.lastCachedIndex (e :: es)
      lastCachedIndex := s.lastCachedIndex + (e :: es).length
      append := if LogWriter.Overflows size s.writer (e :: es) then .flushing (e :: es)
        else .appending (e :: es)
      appended := s.appended ++ e :: es } := by
  simp only [step, h]
  rfl

theorem step_fill {entries : List E} (h : s.append = .appending entries) :
    s.step c d size .fill = some { s with
      writer := (s.writer.addBatch c size entries).2, append := .idle } := by
  simp only [step, h]
  rfl

/-- A `flush` that nobody interrupts. -/
theorem reach_flush {who : Flusher} (hi : s.flush who = .idle)
    (hwho : who = .appender → ∃ es, s.append = .flushing es) {io : WriteIo}
    (hsync : io.synced = true) :
    ∃ s', Reach (step c d size) (fun _ _ ↦ True) s s' ∧ s'.writer = (s.writer.flush io).2 ∧
      s'.append = (s.afterFlush (s.writer.flush io).1 who).append := by
  have htake : s.step c d size (.take who) = _ := step_take hi hwho
  by_cases hb : s.writer.buffer = []
  · rw [if_pos hb] at htake
    rw [LogWriter.flush_nil hb]
    exact ⟨_, Reach.start.step trivial htake, writer_afterFlush s true who, rfl⟩
  · rw [if_neg hb] at htake
    have h₁ : Reach (step c d size) (fun _ _ ↦ True) s _ := Reach.start.step trivial htake
    simp only [LogWriter.flush, if_neg hb, hsync, Bool.and_true]
    cases hw : { s.writer with buffer := [] }.write io.room s.writer.buffer with
    | mk ok w =>
      cases ok with
      | true =>
        have h₂ := h₁.step trivial (step_write_ok (Function.update_self ..) hw)
        exact ⟨_, h₂.step trivial (step_finish (Function.update_self ..)),
          writer_afterFlush _ true who, append_afterFlush (by rfl) true who⟩
      | false =>
        exact ⟨_, h₁.step trivial (step_write_err (Function.update_self ..) hw),
          writer_afterFlush _ false who, append_afterFlush (by rfl) false who⟩

/-- An `append_batch` that flushes first. -/
theorem reach_flushing {entries : List E} (ha : s.append = .flushing entries)
    (hi : s.flush .appender = .idle) {io : WriteIo} (hsync : io.synced = true) :
    ∃ s', Reach (step c d size) (fun _ _ ↦ True) s s' ∧
      s'.writer = (match s.writer.flush io with
        | (true, w) => w.addBatch c size entries
        | (false, w) => (false, w)).2 ∧ s'.append = .idle := by
  obtain ⟨t, ht, hw, hta⟩ : ∃ t, Reach (step c d size) (fun _ _ ↦ True) s t ∧
      t.writer = (s.writer.flush io).2 ∧
      t.append = (s.afterFlush (s.writer.flush io).1 .appender).append :=
    reach_flush hi (fun _ ↦ ⟨entries, ha⟩) hsync
  rw [afterFlush, ha] at hta
  cases hf : s.writer.flush io with
  | mk ok w =>
    rw [hf] at hw hta
    cases ok with
    | true => exact ⟨_, ht.step trivial (step_fill hta), by rw [hw], rfl⟩
    | false => exact ⟨t, ht, hw, hta⟩

/-- An `append_batch` that nobody interrupts. -/
theorem reach_append {entries : List E} (hne : entries ≠ []) (ha : s.append = .idle)
    (hi : s.flush .appender = .idle) {io : WriteIo} (hsync : io.synced = true) :
    ∃ s', Reach (step c d size) (fun _ _ ↦ True) s s' ∧
      s'.writer = (s.writer.appendBatch c size io entries).2 ∧ s'.append = .idle := by
  obtain ⟨e, es, rfl⟩ := List.exists_cons_of_ne_nil hne
  obtain ⟨t, ht, hta, hti, htw⟩ : ∃ t, Reach (step c d size) (fun _ _ ↦ True) s t ∧
      t.append = (if LogWriter.Overflows size s.writer (e :: es) then .flushing (e :: es)
        else .appending (e :: es)) ∧ t.flush = s.flush ∧ t.writer = s.writer :=
    ⟨_, Reach.start.step trivial (step_append ha), rfl, rfl, rfl⟩
  rw [LogWriter.appendBatch, ← htw]
  rw [← htw] at hta
  by_cases hover : LogWriter.Overflows size t.writer (e :: es)
  · rw [if_pos hover] at hta ⊢
    obtain ⟨t', ht', hw, hidle⟩ : ∃ t', Reach (step c d size) (fun _ _ ↦ True) t t' ∧ _ ∧ _ :=
      reach_flushing hta (by rw [hti, hi]) hsync
    exact ⟨t', ht.trans ht', hw, hidle⟩
  · rw [if_neg hover] at hta ⊢
    exact ⟨_, ht.step trivial (step_fill hta), rfl, rfl⟩

end ConFileStorage

section

open LogWriter

/-- **What a failed write loses.**  In a run of calls of which none fails to write a buffer that has
something in it, and none appends an entry that cannot be encoded behind one that can: in every
state, the file has all accepted entries after the next `flush` that returns `Ok`, each of them once
and in order.  In each of these states, the next call keeps this up, and adds nothing if it fails,
exactly if it meets the condition too. -/
theorem accepted_survive {c : Codec E} {size : ℕ} {base : List UInt8} {s : LogWriter × List E}
    (h : Reach (fun s j ↦ some (work c size s j).2) (fun s j ↦ Safe c size s.1 j)
      (⟨[], base, 0, false⟩, []) s) :
    Intact c base s ∧ ∀ j, (Intact c base (work c size s j).2 ∧ AddsNothing c size s j) ↔
      Safe c size s.1 j := by
  have hinv : s.1.writeError = false ∧ Intact c base s := by
    let I : LogWriter × List E → Prop := fun s ↦ s.1.writeError = false ∧ Intact c base s
    have hI : I s := by
      refine h.inv ⟨rfl, (intact_iff rfl).mpr rfl⟩ fun s j s' hs hok hstep ↦ ?_
      obtain rfl := Option.some_inj.mp hstep
      exact ⟨writeError_work hs.1 hok, ((intact_work_iff hs.1 hs.2 j).mpr hok).1⟩
    exact hI
  exact ⟨hinv.2, intact_work_iff hinv.1 hinv.2⟩

/-- An entry is appended, and flushed. -/
theorem accepted_survive_sample :
    Intact unknownCodec []
      (work unknownCodec 64 (⟨[], [], 0, false⟩, []) (.append [⟨(), 10⟩] .done)).2 ∧
    Intact unknownCodec [] (work unknownCodec 64 (work unknownCodec 64 (⟨[], [], 0, false⟩, [])
      (.append [⟨(), 10⟩] .done)).2 (.flush .done)).2 := by
  have happend : Safe unknownCodec 64 ⟨[], [], 0, false⟩ (.append [⟨(), 10⟩] .done) :=
    ⟨fun _ ↦ fits_done, fun _ _ _ _ _ _ ↦ rfl⟩
  have h : Reach (fun s j ↦ some (work unknownCodec 64 s j).2)
      (fun s j ↦ Safe unknownCodec 64 s.1 j) (⟨[], [], 0, false⟩, [])
      (work unknownCodec 64 (⟨[], [], 0, false⟩, []) (.append [⟨(), 10⟩] .done)).2 :=
    .step .start happend rfl
  exact ⟨(accepted_survive h).1, (((accepted_survive h).2 (.flush .done)).mpr fits_done).1⟩

/-- An entry is appended, and the `flush` returns `Ok` though its write fails.  Then another entry
is appended; the `flush` is told of the error, and this entry is lost too. -/
theorem not_accepted_survive :
    ∃ s s' : LogWriter × List (LogEntry Unit),
      Reach (fun s j ↦ some (work unknownCodec 64 s j).2) (fun _ _ ↦ True)
        (⟨[], [], 0, false⟩, []) s ∧ s.2 = [⟨(), 10⟩] ∧
      s.1.flush ⟨some 0, true⟩ = (true, s'.1) ∧ (s'.1.flush .done).1 = true ∧
      (s'.1.flush .done).2.file = [] ∧ s'.2 = s.2 ∧ ¬ Intact unknownCodec [] s' ∧
      ((work unknownCodec 64 s' (.append [⟨(), 11⟩] .done)).2.1.flush .done).1 = false ∧
      ¬ Intact unknownCodec [] (work unknownCodec 64 s' (.append [⟨(), 11⟩] .done)).2 := by
  refine ⟨_, ⟨_, [⟨(), 10⟩]⟩, Reach.start.step (a := .append [⟨(), 10⟩] .done) trivial rfl, rfl,
    rfl, rfl, rfl, rfl, fun h ↦ ?_, rfl, fun h ↦ ?_⟩
  · exact absurd (h 0 rfl) (by decide)
  · exact absurd (h 1 rfl) (by decide)

end

end Efis
