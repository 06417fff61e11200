import Efis.Storage.Durable
import Efis.Storage.Writer

/-!
# Two that flush

The background task and `append_batch` both call `flush`.  Each takes the buffer under one lock and
writes it under another, so that one of them can take its bytes first and write them last.  Here the
storage is watched together with the order in which the buffers were taken.  As long as they are
written in that order, the file is a prefix of what was appended (`file_in_order`).
-/

set_option autoImplicit false

namespace Efis

open Bytes Transition

variable {E : Type}

/-- A storage, and those that have taken a buffer and not written it yet, in the order in which they
took it. -/
structure Flushers (E : Type) where
  storage : ConFileStorage E
  taken : List Flusher

namespace Flushers

section

variable (c : Codec E) (d : Codec PersistentState) (size : ℕ)

def step [DecidableEq E] (s : Flushers E) (a : ConFileStorage.Act E) : Option (Flushers E) :=
  (s.storage.step c d size a).map fun t ↦
    ⟨t, match a with
      | .take who =>
        match t.flush who with
        | .taken _ => s.taken ++ [who]
        | _ => s.taken
      | .write who _ => s.taken.erase who
      | _ => s.taken⟩

/-- No write fails, and every entry can be encoded. -/
def NoError (_ : Flushers E) : ConFileStorage.Act E → Prop
  | .append entries => ∀ e ∈ entries, (c.encode e).isSome
  | .write _ room => room = none
  | _ => True

/-- What was taken first is written first. -/
def InOrder (s : Flushers E) : ConFileStorage.Act E → Prop
  | .append entries => ∀ e ∈ entries, (c.encode e).isSome
  | .write who room => room = none ∧ s.taken.head? = some who
  | _ => True

/-- The bytes that were taken, in the order in which they were. -/
def chunks (s : Flushers E) : List UInt8 :=
  s.taken.flatMap fun who ↦ (s.storage.flush who).chunk

/-- File, flushes and buffer make up the frames of what was appended. -/
structure Queued (s : Flushers E) : Prop where
  noError : s.storage.writer.writeError = false
  nodup : s.taken.Nodup
  mem : ∀ who, who ∈ s.taken ↔ ∃ chunk, s.storage.flush who = .taken chunk
  idle : (∀ es, s.storage.append ≠ .flushing es) → s.storage.flush .appender = .idle
  encodes : ∀ e ∈ s.storage.append.batch, (c.encode e).isSome
  bytes : s.storage.writer.file ++ (s.chunks ++
    (s.storage.writer.buffer ++ c.frames s.storage.append.batch)) = c.frames s.storage.appended

end

variable {c : Codec E} {d : Codec PersistentState} {size : ℕ} {s s' : Flushers E}

theorem queued_new {xs : List E} (metaFile : Option (List UInt8))
    (lastMetadata : Option PersistentState) :
    Queued c ⟨ConFileStorage.new c d metaFile (c.frames xs) lastMetadata xs, []⟩ := by
  obtain ⟨m, next, hn⟩ :=
    ConFileStorage.new_eq (c := c) (d := d) metaFile (c.frames xs) lastMetadata xs
  rw [hn]
  constructor
  case noError => rfl
  case nodup => exact List.nodup_nil
  case mem => simp
  case idle => exact fun _ ↦ rfl
  case encodes => simp [Append.batch]
  case bytes => simp [chunks, Append.batch]

/-- Chunks of others do not change when one of the flushes goes on. -/
theorem flatMap_chunk_update {l : List Flusher} {who : Flusher} (h : who ∉ l)
    (flush : Flusher → Flush) (f : Flush) :
    (l.flatMap fun w ↦ (Function.update flush who f w).chunk) =
      l.flatMap fun w ↦ (flush w).chunk := by
  refine List.flatMap_congr fun w hw ↦ ?_
  rw [Function.update_of_ne]
  rintro rfl
  exact h hw

/-- A `flush` that has nothing left to write returns, and `append_batch` goes on. -/
theorem Queued.returns (h : Queued c s) {who : Flusher}
    (hw : ∀ chunk, s.storage.flush who ≠ .taken chunk) (pending : ℕ) :
    Queued c ⟨{ s.storage.setFlush who .idle with
        writer := { s.storage.writer with pendingBytes := pending } }.afterFlush true who,
      s.taken⟩ := by
  obtain ⟨herr, hnodup, hmem, hidle, henc, hbytes⟩ := h
  have hnot : who ∉ s.taken := by
    rw [hmem]
    rintro ⟨chunk, hc⟩
    exact hw chunk hc
  have hchunks := flatMap_chunk_update hnot s.storage.flush .idle
  have hmem' : ∀ w, w ∈ s.taken ↔
      ∃ chunk, Function.update s.storage.flush who .idle w = .taken chunk := by
    intro w
    by_cases hww : w = who
    · subst hww
      simp [hnot]
    · rw [hmem, Function.update_of_ne hww]
  cases who with
  | background =>
    refine ⟨herr, hnodup, hmem', hidle, henc, ?_⟩
    simpa only [chunks, ConFileStorage.afterFlush, ConFileStorage.setFlush, hchunks] using hbytes
  | appender =>
    simp only [ConFileStorage.afterFlush]
    split
    · rename_i es hes
      have hes : s.storage.append = .flushing es := hes
      rw [hes] at henc hbytes
      refine ⟨herr, hnodup, hmem', fun _ ↦ rfl, henc, ?_⟩
      simpa only [chunks, ConFileStorage.setFlush, hchunks, if_true, Append.batch] using hbytes
    · refine ⟨herr, hnodup, hmem', fun _ ↦ rfl, henc, ?_⟩
      simpa only [chunks, ConFileStorage.setFlush, hchunks] using hbytes

/-- A `flush` takes the buffer. -/
theorem Queued.take (h : Queued c s) {who : Flusher} (hi : s.storage.flush who = .idle)
    (ha : who = .appender → ∃ es, s.storage.append = .flushing es) :
    Queued c ⟨{ s.storage.setFlush who (.taken s.storage.writer.buffer) with
        writer := { s.storage.writer with buffer := [] } }, s.taken ++ [who]⟩ := by
  obtain ⟨herr, hnodup, hmem, hidle, henc, hbytes⟩ := h
  have hnot : who ∉ s.taken := by
    rw [hmem]
    rintro ⟨chunk, hc⟩
    rw [hi] at hc
    cases hc
  constructor
  case noError => exact herr
  case nodup =>
    rw [← List.concat_eq_append]
    exact hnodup.concat hnot
  case mem =>
    intro w
    by_cases hww : w = who
    · subst hww
      simp [ConFileStorage.setFlush]
    · simp [ConFileStorage.setFlush, hww, hmem]
  case idle =>
    intro hn
    cases who with
    | background => exact hidle hn
    | appender =>
      obtain ⟨es, hes⟩ := ha rfl
      exact absurd hes (hn es)
  case encodes => exact henc
  case bytes =>
    have hchunks := flatMap_chunk_update hnot s.storage.flush (.taken s.storage.writer.buffer)
    simp only [chunks, ConFileStorage.setFlush, List.flatMap_append, hchunks,
      List.flatMap_singleton, Function.update_self, Flush.chunk_taken, List.nil_append]
    simpa only [chunks, List.append_assoc] using hbytes

/-- The one who took first writes. -/
theorem Queued.write (h : Queued c s) {who : Flusher} {chunk : List UInt8}
    (ht : s.storage.flush who = .taken chunk) (hhead : s.taken.head? = some who) :
    Queued c ⟨{ s.storage.setFlush who .written with
        writer := { s.storage.writer with file := s.storage.writer.file ++ chunk } },
      s.taken.erase who⟩ := by
  obtain ⟨herr, hnodup, hmem, hidle, henc, hbytes⟩ := h
  obtain ⟨rest, hrest⟩ : ∃ rest, s.taken = who :: rest :=
    ⟨s.taken.tail, (List.eq_cons_of_mem_head? hhead)⟩
  rw [hrest] at hnodup hmem
  simp only [chunks, hrest] at hbytes
  obtain ⟨hnot, hnodup⟩ := List.nodup_cons.mp hnodup
  rw [hrest, List.erase_cons_head]
  constructor
  case noError => exact herr
  case nodup => exact hnodup
  case mem =>
    intro w
    by_cases hww : w = who
    · subst hww
      simp [ConFileStorage.setFlush, hnot]
    · have := hmem w
      simpa [ConFileStorage.setFlush, hww] using this
  case idle =>
    intro hn
    cases who with
    | background => exact hidle hn
    | appender =>
      have hap := hidle hn
      rw [ht] at hap
      cases hap
  case encodes => exact henc
  case bytes =>
    have hchunks := flatMap_chunk_update hnot s.storage.flush .written
    rw [List.flatMap_cons, ht, Flush.chunk_taken] at hbytes
    simp only [chunks, ConFileStorage.setFlush, hchunks]
    simpa only [List.append_assoc] using hbytes

/-- **Every step keeps the bytes in order.** -/
theorem Queued.step [DecidableEq E] (h : Queued c s) {a : ConFileStorage.Act E}
    (hok : InOrder c s a) (hs : s.step c d size a = some s') : Queued c s' := by
  obtain ⟨t, ht, rfl⟩ := Option.map_eq_some_iff.mp hs
  have hwrite : ∀ who room, a = .write who room → room = none := by
    rintro who room rfl
    exact hok.1
  have hbytes := h.bytes
  cases ConFileStorage.does_of_step h.noError hwrite ht with
  | @store state =>
    obtain ⟨metaFile, last, hst⟩ := ConFileStorage.store_snd (s := s.storage) (d := d) state
    rw [hst]
    exact ⟨h.noError, h.nodup, h.mem, h.idle, h.encodes, hbytes⟩
  | nothing => exact h
  | append hi hb =>
    refine ⟨h.noError, h.nodup, h.mem, fun _ ↦ h.idle (by simp [hi]), ?_, ?_⟩
    · simp only [hb]
      exact hok
    · rw [hi, Append.batch, Codec.frames_nil, List.append_nil] at hbytes
      simp only [Codec.frames_append, ← hbytes, List.append_assoc, hb, chunks]
  | @fill entries pending ha =>
    have henc := h.encodes
    rw [ha, Append.batch] at henc hbytes
    refine ⟨h.noError, h.nodup, h.mem, fun _ ↦ h.idle (by simp [ha]), by simp [Append.batch], ?_⟩
    simp only [ConFileStorage.appendFrames_eq henc, Append.batch, Codec.frames_nil,
      List.append_nil]
    exact hbytes
  | @skip who hi =>
    have hflush : (s.storage.afterFlush true who).flush who = .idle := by
      obtain ⟨a, ha, -⟩ := s.storage.afterFlush_eq who
      rw [ha, ← hi]
    have hw : ∀ chunk, s.storage.flush who ≠ .taken chunk := by simp [hi]
    have hq := h.returns hw s.storage.writer.pendingBytes
    rw [ConFileStorage.setFlush, ← hi, Function.update_eq_self] at hq
    simpa only [hflush] using hq
  | take hi ha =>
    have hq := h.take hi ha
    simpa only [ConFileStorage.setFlush, Function.update_self] using hq
  | write hc => exact h.write hc hok.2
  | finish hw => exact h.returns (by simp [hw]) 0
  | @restore order hp =>
    obtain ⟨m, next, hr⟩ := ConFileStorage.restore_snd (s := s.storage) (c := c) (d := d) order
    rw [hr]
    exact ⟨h.noError, h.nodup, h.mem, h.idle, h.encodes, hbytes⟩
  | @restart sameProcess ha hbg hbuf =>
    have hap := h.idle (by simp [ha])
    have hnil : s.taken = [] := by
      refine List.eq_nil_iff_forall_not_mem.mpr fun who hwho ↦ ?_
      obtain ⟨chunk, hc⟩ := (h.mem who).mp hwho
      cases who with
      | background => simp [hbg] at hc
      | appender => simp [hap] at hc
    simp only [chunks, hnil, hbuf, ha, Append.batch, List.flatMap_nil, Codec.frames_nil,
      List.append_nil] at hbytes
    rw [hnil, hbytes]
    exact queued_new s.storage.metaFile _

/-- **The log file is in order.**  On a directory with any log, in every run in which nothing fails
and the buffers are written in the order in which they were taken, the file is at every moment a
prefix of the frames of what was appended. -/
theorem file_in_order [DecidableEq E] {xs : List E} {metaFile : Option (List UInt8)}
    {lastMetadata : Option PersistentState}
    (h : Reach (step c d size) (InOrder c)
      ⟨ConFileStorage.new c d metaFile (c.frames xs) lastMetadata xs, []⟩ s) :
    s.storage.writer.file <+: c.frames s.storage.appended := by
  have hq : Queued c s :=
    h.inv (queued_new metaFile lastMetadata) fun _ _ _ hs hok hstep ↦ hs.step hok hstep
  rw [← hq.bytes]
  exact List.prefix_append _ _

/-! ## A batch that is flushed while another buffer waits -/

instance (a : ConFileStorage.Act E) : Decidable (NoError c s a) :=
  match a with
  | .append entries => inferInstanceAs (Decidable (∀ e ∈ entries, (c.encode e).isSome))
  | .write _ room => inferInstanceAs (Decidable (room = none))
  | .store _ | .fill | .take _ | .finish _ | .restore _ | .restart _ =>
    inferInstanceAs (Decidable True)

instance (a : ConFileStorage.Act E) : Decidable (InOrder c s a) :=
  match a with
  | .append entries => inferInstanceAs (Decidable (∀ e ∈ entries, (c.encode e).isSome))
  | .write who room => inferInstanceAs (Decidable (room = none ∧ s.taken.head? = some who))
  | .store _ | .fill | .take _ | .finish _ | .restore _ | .restart _ =>
    inferInstanceAs (Decidable True)

section

variable [DecidableEq E] {s₀ : Flushers E} {ok : Flushers E → ConFileStorage.Act E → Prop}

theorem reach_step (h : Reach (step c d size) ok s₀ s) {a : ConFileStorage.Act E}
    {t : ConFileStorage E} (ht : s.storage.step c d size a = some t) (hok : ok s a) :
    ∃ s', Reach (step c d size) ok s₀ s' ∧ step c d size s a = some s' ∧ s'.storage = t := by
  have hs : step c d size s a = some _ := Option.map_eq_some_iff.mpr ⟨t, ht, rfl⟩
  exact ⟨_, h.step hok hs, hs, rfl⟩

theorem taken_append {entries : List E} (hs : step c d size s (.append entries) = some s') :
    s'.taken = s.taken := by
  obtain ⟨t, -, rfl⟩ := Option.map_eq_some_iff.mp hs
  rfl

theorem taken_take {who : Flusher} (hs : step c d size s (.take who) = some s')
    {chunk : List UInt8} (hc : s'.storage.flush who = .taken chunk) :
    s'.taken = s.taken ++ [who] := by
  obtain ⟨t, -, rfl⟩ := Option.map_eq_some_iff.mp hs
  have hc : t.flush who = .taken chunk := hc
  simp only [hc]

theorem taken_write {who : Flusher} {room : Option ℕ}
    (hs : step c d size s (.write who room) = some s') : s'.taken = s.taken.erase who := by
  obtain ⟨t, -, rfl⟩ := Option.map_eq_some_iff.mp hs
  rfl

/-- `append_batch` takes the buffer, before it adds a batch that is too large. -/
theorem reach_take (h : Reach (step c d size) ok s₀ s) (ha : s.storage.append = .idle)
    (hi : s.storage.flush .appender = .idle) {e : E} {es : List E}
    (hover : LogWriter.Overflows size s.storage.writer (e :: es))
    (hb : s.storage.writer.buffer ≠ []) (happend : ok s (.append (e :: es)))
    (htake : ∀ s, ok s (.take .appender)) :
    ∃ s', Reach (step c d size) ok s₀ s' ∧ s'.taken = s.taken ++ [.appender] ∧
      s'.storage.flush .appender = .taken s.storage.writer.buffer ∧
      s'.storage.flush .background = s.storage.flush .background ∧
      s'.storage.writer = { s.storage.writer with buffer := [] } ∧
      s'.storage.appended = s.storage.appended ++ e :: es := by
  obtain ⟨s₁, h₁, happ₁, hs₁⟩ := reach_step h (ConFileStorage.step_append ha) happend
  rw [if_pos hover] at hs₁
  have hstep : s₁.storage.step c d size (.take .appender) = _ :=
    ConFileStorage.step_take (by rw [hs₁]; exact hi) fun _ ↦ ⟨e :: es, by rw [hs₁]⟩
  rw [if_neg (by rw [hs₁]; exact hb)] at hstep
  obtain ⟨s₂, h₂, htk₂, hs₂⟩ := reach_step h₁ hstep (htake s₁)
  have hflush : s₂.storage.flush .appender = .taken s.storage.writer.buffer := by
    simp only [hs₂, hs₁, ConFileStorage.setFlush, Function.update_self]
  refine ⟨s₂, h₂, ?_, hflush, ?_, ?_, ?_⟩
  · rw [taken_take htk₂ hflush, taken_append happ₁]
  · have hne : Flusher.background ≠ .appender := by decide
    simp only [hs₂, hs₁, ConFileStorage.setFlush, Function.update_of_ne hne]
  · rw [hs₂, hs₁]
  · rw [hs₂, hs₁]
    rfl

/-- The batch is flushed behind what the background task has taken, if that is written first. -/
theorem follows (h : Reach (step c d size) (InOrder c) s₀ s) (ha : s.storage.append = .idle)
    (hi : s.storage.flush .appender = .idle) {chunk : List UInt8}
    (hbg : s.storage.flush .background = .taken chunk) (htaken : s.taken = [.background])
    (herr : s.storage.writer.writeError = false) {e : E} {es : List E}
    (henc : ∀ x ∈ e :: es, (c.encode x).isSome)
    (hover : LogWriter.Overflows size s.storage.writer (e :: es))
    (hb : s.storage.writer.buffer ≠ []) :
    ∃ s', Reach (step c d size) (InOrder c) s₀ s' ∧
      s'.storage.writer.file = s.storage.writer.file ++ chunk ++ s.storage.writer.buffer ∧
      s'.storage.appended = s.storage.appended ++ e :: es := by
  obtain ⟨s₁, h₁, htaken₁, happ₁, hbg₁, hw₁, hall₁⟩ :=
    reach_take h ha hi hover hb henc fun _ ↦ trivial
  rw [hbg] at hbg₁
  rw [htaken] at htaken₁
  obtain ⟨s₂, h₂, hwr₂, hs₂⟩ := reach_step h₁
    (ConFileStorage.step_write hbg₁ (by rw [hw₁]; exact herr)) ⟨rfl, by rw [htaken₁]; rfl⟩
  have happ₂ : s₂.storage.flush .appender = .taken s.storage.writer.buffer := by
    have hne : Flusher.appender ≠ .background := by decide
    simp only [hs₂, ConFileStorage.setFlush, Function.update_of_ne hne, happ₁]
  obtain ⟨s₃, h₃, -, hs₃⟩ := reach_step h₂
    (ConFileStorage.step_write happ₂ (by rw [hs₂, hw₁]; exact herr))
    ⟨rfl, by rw [taken_write hwr₂, htaken₁]; rfl⟩
  refine ⟨s₃, h₃, ?_, ?_⟩
  · simp only [hs₃, hs₂, hw₁]
  · rw [hs₃, hs₂]
    exact hall₁

/-- The batch is flushed ahead of what the background task has taken, if that is not written. -/
theorem overtakes (h : Reach (step c d size) (NoError c) s₀ s) (ha : s.storage.append = .idle)
    (hi : s.storage.flush .appender = .idle) (herr : s.storage.writer.writeError = false) {e : E}
    {es : List E} (henc : ∀ x ∈ e :: es, (c.encode x).isSome)
    (hover : LogWriter.Overflows size s.storage.writer (e :: es))
    (hb : s.storage.writer.buffer ≠ []) :
    ∃ s', Reach (step c d size) (NoError c) s₀ s' ∧
      s'.storage.writer.file = s.storage.writer.file ++ s.storage.writer.buffer ∧
      s'.storage.appended = s.storage.appended ++ e :: es := by
  obtain ⟨s₁, h₁, -, happ₁, -, hw₁, hall₁⟩ := reach_take h ha hi hover hb henc fun _ ↦ trivial
  obtain ⟨s₂, h₂, -, hs₂⟩ := reach_step h₁
    (ConFileStorage.step_write happ₁ (by rw [hw₁]; exact herr)) rfl
  refine ⟨s₂, h₂, ?_, ?_⟩
  · simp only [hs₂, hw₁]
  · rw [hs₂]
    exact hall₁

end

/-- Two entries, the first taken by the background task when the second is added. -/
def twoEntries : List (ConFileStorage.Act (LogEntry Unit)) :=
  [.append [⟨(), 10⟩], .fill, .take .background, .append [⟨(), 11⟩], .fill]

theorem overflows_batch : LogWriter.Overflows 64 ⟨unknownCodec.frames [⟨(), 11⟩], [], 136, false⟩
    (⟨(), 12⟩ :: List.replicate 15999 (⟨(), 12⟩ : LogEntry Unit)) := by
  rw [LogWriter.Overflows, List.length_cons, List.length_replicate]
  decide

/-- The background task has taken the first entry when a large batch comes, which makes
`append_batch` flush the second.  They are written in this order. -/
theorem file_in_order_batch :
    ∃ s : Flushers (LogEntry Unit), Reach (step unknownCodec termCodec 64) (InOrder unknownCodec)
        ⟨ConFileStorage.new unknownCodec termCodec none (unknownCodec.frames []) none [], []⟩ s ∧
      s.storage.writer.file = unknownCodec.frames [⟨(), 10⟩, ⟨(), 11⟩] ∧
      s.storage.appended = [⟨(), 10⟩, ⟨(), 11⟩] ++ List.replicate 16000 ⟨(), 12⟩ ∧
      s.storage.writer.file <+: unknownCodec.frames s.storage.appended := by
  have h : Reach (step unknownCodec termCodec 64) (InOrder unknownCodec)
      ⟨ConFileStorage.new unknownCodec termCodec none (unknownCodec.frames []) none [], []⟩
      ((run (step unknownCodec termCodec 64) (InOrder unknownCodec)
        ⟨ConFileStorage.new unknownCodec termCodec none (unknownCodec.frames []) none [], []⟩
        twoEntries).get (by decide)) :=
    Reach.start.run (Option.some_get _).symm
  obtain ⟨s, hs, hfile, happ⟩ :=
    follows h rfl rfl rfl rfl rfl (fun _ _ ↦ rfl) overflows_batch (by decide)
  exact ⟨s, hs, hfile, happ, file_in_order hs⟩

/-- But the second can be written before the first. -/
theorem not_file_in_order :
    ∃ s : Flushers (LogEntry Unit), Reach (step unknownCodec termCodec 64) (NoError unknownCodec)
        ⟨ConFileStorage.empty unknownCodec termCodec, []⟩ s ∧
      s.storage.writer.file = unknownCodec.frames [⟨(), 11⟩] ∧
      s.storage.appended = [⟨(), 10⟩, ⟨(), 11⟩] ++ List.replicate 16000 ⟨(), 12⟩ ∧
      ¬ s.storage.writer.file <+: unknownCodec.frames s.storage.appended := by
  have h : Reach (step unknownCodec termCodec 64) (NoError unknownCodec)
      ⟨ConFileStorage.empty unknownCodec termCodec, []⟩
      ((run (step unknownCodec termCodec 64) (NoError unknownCodec)
        ⟨ConFileStorage.empty unknownCodec termCodec, []⟩ twoEntries).get (by decide)) :=
    Reach.start.run (Option.some_get _).symm
  obtain ⟨s, hs, hfile, happ⟩ :=
    overtakes h rfl rfl rfl (fun _ _ ↦ rfl) overflows_batch (by decide)
  have hfile : s.storage.writer.file = unknownCodec.frames [⟨(), 11⟩] := hfile
  have happ : s.storage.appended = [⟨(), 10⟩] ++ (⟨(), 11⟩ :: List.replicate 16000 ⟨(), 12⟩) := happ
  refine ⟨s, hs, hfile, happ, ?_⟩
  rw [hfile, happ, Codec.frames_append]
  intro hp
  have hp : unknownCodec.frames [⟨(), 11⟩] <+: unknownCodec.frames [⟨(), 10⟩] :=
    List.prefix_of_prefix_length_le hp (List.prefix_append _ _) (by decide)
  exact absurd hp (by decide)

end Flushers

end Efis
