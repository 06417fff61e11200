import Efis.Storage.Durable
import Efis.Storage.Writer

/-!
# The log file

What the reader of the log file makes of what `LogWriter` has written when the process dies in the
middle of a write.  A file that was cut off anywhere is read up to its last whole entry
(`cut_file_restores`).  The process that comes next appends behind the bytes that were cut off; then
not every entry can be read back, unless there are no such bytes (`torn_tail_iff`).
-/

set_option autoImplicit false

namespace Efis

open Bytes Transition

variable {E : Type}

/-! ## Batches -/

/-- What the calls of `append_batch` put into the buffer, one after the other. -/
def batchBytes (c : Codec E) (batches : List (List E)) : List UInt8 :=
  batches.foldl (fun buffer entries ↦ (ConFileStorage.appendFrames c buffer entries).2) []

section

variable {c : Codec E} {d : Codec PersistentState}

theorem batchBytes_eq {batches : List (List E)} (h : ∀ e ∈ batches.flatten, c.Fits e) :
    batchBytes c batches = c.frames batches.flatten := by
  have key : ∀ buffer, batches.foldl
      (fun buffer entries ↦ (ConFileStorage.appendFrames c buffer entries).2) buffer =
        buffer ++ c.frames batches.flatten := by
    induction batches with
    | nil => intro buffer; simp
    | cons es batches ih =>
      intro buffer
      rw [List.flatten_cons] at h ⊢
      rw [List.foldl_cons, ConFileStorage.appendFrames_eq fun e he ↦
          (h e (List.mem_append_left _ he)).isSome_encode,
        ih fun e he ↦ h e (List.mem_append_right _ he), Codec.frames_append, List.append_assoc]
  rw [batchBytes, key, List.nil_append]

/-- `restore` of a storage that has nothing cached yet. -/
theorem restore_eq_some_iff {s : ConFileStorage E} {state : PersistentState} {logs : List E}
    (h : s.readMeta d = some state) :
    (s.restore c d []).1 = some (state, logs) ↔ c.readFile s.writer.file = some logs := by
  simp only [ConFileStorage.restore, h]
  cases c.readFile s.writer.file <;> simp

theorem restore_of_readFile {s : ConFileStorage E} {logs : List E}
    (h : c.readFile s.writer.file = some logs) :
    (s.restore c d []).1 = (s.readMeta d).map fun state ↦ (state, logs) := by
  simp only [ConFileStorage.restore, h]
  cases s.readMeta d <;> rfl

end

/-- **A file that was cut off.**  Of all that was appended, in batches of any sizes, any number of
bytes may have been written: `restore` returns the entries that are whole, in order. -/
theorem cut_file_restores (c : Codec E) (d : Codec PersistentState) {batches : List (List E)}
    (hfits : ∀ e ∈ batches.flatten, c.Fits e) {bytes : List UInt8}
    (hcut : bytes <+: batchBytes c batches) :
    ∃ k, c.Whole batches.flatten bytes k ∧
      c.readFile bytes = some (batches.flatten.take k) ∧
      (bytes = batchBytes c batches → k = batches.flatten.length) ∧
      ∀ s : ConFileStorage E, s.writer.file = bytes →
        (s.restore c d []).1 = (s.readMeta d).map fun state ↦ (state, batches.flatten.take k) := by
  rw [batchBytes_eq hfits] at hcut ⊢
  obtain ⟨k, hk, hr⟩ := Codec.exists_whole hfits hcut
  refine ⟨k, hk, hr, ?_, ?_⟩
  · rintro rfl
    refine le_antisymm hk.1 ((hk.2 _ le_rfl).mp ?_)
    rw [List.take_length]
  · rintro s rfl
    exact restore_of_readFile hr

/-- Two batches, cut off in the second entry. -/
theorem cut_file_restores_torn :
    unknownCodec.readFile (toLe 4 12 ++ toLe 4 14 ++ toLe 8 10 ++ [12, 0, 0, 0, 14]) =
      some [⟨(), 10⟩] := by
  have hfits : ∀ e ∈ [[⟨(), 10⟩], [⟨(), 11⟩]].flatten, unknownCodec.Fits e := by decide
  have hcut : toLe 4 12 ++ toLe 4 14 ++ toLe 8 10 ++ [12, 0, 0, 0, 14] <+:
      batchBytes unknownCodec [[⟨(), 10⟩], [⟨(), 11⟩]] := by decide
  obtain ⟨k, hk, hr, -⟩ := cut_file_restores unknownCodec termCodec hfits hcut
  have hone : 1 ≤ k := (hk.2 1 (by decide)).mp (by decide)
  have htwo : ¬ 2 ≤ k := mt (hk.2 2 (by decide)).mpr (by decide)
  obtain rfl : k = 1 := by omega
  exact hr

/-! ## A torn tail -/

section

variable {C : Type}

/-- How bincode writes an entry: the command and then the term, in eight bytes.  The command
`Unknown` is its number, in four. -/
structure Bincode (c : Codec (LogEntry C)) (command : C → List UInt8) : Prop where
  encode : ∀ e, c.encode e = some (command e.command ++ toLe 8 e.term)
  decode : ∀ e, e.term < 2 ^ 64 → c.decode (command e.command ++ toLe 8 e.term) = some e
  unknown : ∃ u, (command u).length = 4

variable {c : Codec (LogEntry C)} {command : C → List UInt8}

theorem Bincode.frame_eq (h : Bincode c command) (e : LogEntry C) :
    c.frame e = some (toLe 4 ((command e.command).length + 8) ++
      (command e.command ++ toLe 8 e.term)) := by
  rw [Codec.frame, h.encode, Option.map_some, List.length_append, length_toLe]

theorem Bincode.fits (h : Bincode c command) {e : LogEntry C} (ht : e.term < 2 ^ 64)
    (hlen : (command e.command).length + 8 < 2 ^ 32) : c.Fits e := by
  refine ⟨_, h.encode e, h.decode e ht, ?_⟩
  rwa [List.length_append, length_toLe]

/-- Two entries that differ in the highest byte of the term. -/
theorem Bincode.frames_low (h : Bincode c command) (u : C) :
    ∃ q, q.length = (command u).length + 11 ∧ c.frames [⟨u, 0⟩] = q ++ [0] ∧
      c.frames [⟨u, 2 ^ 56⟩] = q ++ [1] := by
  refine ⟨toLe 4 ((command u).length + 8) ++ (command u ++ toLe 7 0), ?_, ?_, ?_⟩
  · simp only [List.length_append, length_toLe]
    omega
  · have h8 : toLe 8 0 = toLe 7 0 ++ [0] := by decide
    rw [Codec.frames_cons_of_frame (h.frame_eq _), h8, Codec.frames_nil, List.append_nil,
      List.append_assoc, List.append_assoc]
  · have h8 : toLe 8 (2 ^ 56) = toLe 7 0 ++ [1] := by decide
    rw [Codec.frames_cons_of_frame (h.frame_eq _), h8, Codec.frames_nil, List.append_nil,
      List.append_assoc, List.append_assoc]

/-- The start of a frame, and behind it another entry of the same length: the reader takes the bytes
of the second for the end of the first, and does not get as far as the last of them. -/
theorem Bincode.not_reads_payload (h : Bincode c command) {u : C}
    (hlen : (command u).length + 8 < 2 ^ 32) (p : List UInt8) :
    ∃ y : LogEntry C, c.Fits y ∧ ∀ fuel, c.readFrames (fuel + 1)
      (toLe 4 ((command u).length + 8) ++ p ++ c.frames [y]) ≠ some [y] := by
  by_contra hall
  push Not at hall
  obtain ⟨q, hq, h₀, h₁⟩ := h.frames_low u
  have hof : ofLe (toLe 4 ((command u).length + 8)) = (command u).length + 8 :=
    ofLe_toLe_of_lt hlen
  have hread : ∀ (y : LogEntry C) (b : UInt8), c.Fits y → c.frames [y] = q ++ [b] →
      c.decode ((p ++ q).take ((command u).length + 8)) = some y := by
    intro y b hy hb
    obtain ⟨fuel, hr⟩ := hall y hy
    have h4 : (toLe 4 ((command u).length + 8)).length = 4 := length_toLe 4 _
    rw [hb, List.append_assoc, Codec.readFrames,
      if_neg (by rw [List.length_append, h4]; omega)] at hr
    simp only [List.take_left' h4, List.drop_left' h4, hof] at hr
    rw [if_neg (by simp only [List.length_append]; omega),
      ← List.append_assoc, List.take_append_of_le_length (by rw [List.length_append]; omega)] at hr
    obtain ⟨z, hz, hr⟩ := Option.bind_eq_some_iff.mp hr
    obtain ⟨zs, -, hzs⟩ := Option.bind_eq_some_iff.mp hr
    obtain ⟨rfl, -⟩ := List.cons.inj (Option.some_inj.mp hzs)
    exact hz
  have hfit : ∀ t < 2 ^ 64, c.Fits ⟨u, t⟩ := fun t ht ↦ h.fits ht hlen
  have heq := (hread _ _ (hfit 0 (by decide)) h₀).symm.trans
    (hread _ _ (hfit (2 ^ 56) (by decide)) h₁)
  have hterm : 0 = 2 ^ 56 := congrArg LogEntry.term (Option.some_inj.mp heq)
  exact absurd hterm (by decide)

/-- The start of a length, and behind it a short entry: the reader looks for more bytes than there
are. -/
theorem Bincode.reads_length (h : Bincode c command) {u : C} (hu : (command u).length = 4)
    {t : List UInt8} (hne : t ≠ []) (ht : t.length < 4) (fuel : ℕ) :
    c.readFrames fuel (t ++ c.frames [⟨u, 0⟩]) = some [] := by
  have hf : c.frames [⟨u, 0⟩] = 12 :: 0 :: 0 :: 0 :: (command u ++ toLe 8 0) := by
    rw [Codec.frames_cons_of_frame (h.frame_eq _), Codec.frames_nil, List.append_nil, hu]
    rfl
  cases fuel with
  | zero => rfl
  | succ fuel =>
    rw [hf, Codec.readFrames, if_neg (by simp only [List.length_append, List.length_cons]; omega)]
    refine if_pos ?_
    obtain ⟨a, t, rfl⟩ := List.exists_cons_of_ne_nil hne
    cases t with
    | nil =>
      simp only [ofLe, List.cons_append, List.nil_append, List.take, List.drop, List.length_append,
        List.length_cons, length_toLe, hu, UInt8.reduceToNat]
      omega
    | cons b t =>
      cases t with
      | nil => simp [ofLe, hu]; omega
      | cons e t =>
        obtain rfl : t = [] := List.length_eq_zero_iff.mp (by simp at ht; omega)
        simp [ofLe, hu]
        omega

/-- **Behind a torn tail not every entry is read back.** -/
theorem Bincode.not_reads (h : Bincode c command) {x : LogEntry C} (hx : c.Fits x)
    {t rest : List UInt8} (hne : t ≠ []) (ht : t <+: c.frames [x] ++ rest)
    (hlt : t.length < (c.frames [x]).length) :
    ∃ y : LogEntry C, c.Fits y ∧
      ∀ fuel, c.readFrames (fuel + 1) (t ++ c.frames [y]) ≠ some [y] := by
  have hlen : (command x.command).length + 8 < 2 ^ 32 := by
    obtain ⟨bs, hbs, -, hlen⟩ := hx
    obtain rfl := Option.some_inj.mp ((h.encode x).symm.trans hbs)
    rwa [List.length_append, length_toLe] at hlen
  by_cases h4 : t.length < 4
  · obtain ⟨u, hu⟩ := h.unknown
    refine ⟨⟨u, 0⟩, h.fits (Nat.two_pow_pos 64) (by rw [hu]; decide), fun fuel ↦ ?_⟩
    rw [h.reads_length hu hne h4]
    simp
  · have hhead : toLe 4 ((command x.command).length + 8) <+: t := by
      rw [Codec.frames_cons_of_frame (h.frame_eq x), List.append_assoc, List.append_assoc] at ht
      refine List.prefix_of_prefix_length_le (List.prefix_append _ _) ht ?_
      rw [length_toLe]
      exact Nat.not_lt.mp h4
    obtain ⟨p, rfl⟩ := hhead
    exact h.not_reads_payload hlen p

/-- The log file after the next process has opened it, appended entries and flushed. -/
def appendedTo (c : Codec E) (size : ℕ) (bytes : List UInt8) (entries : List E) : List UInt8 :=
  (((⟨[], bytes, 0, false⟩ : LogWriter).appendBatch c size .done entries).2.flush .done).2.file

theorem appendedTo_eq {c : Codec E} {entries : List E} (h : ∀ e ∈ entries, c.Fits e) (size : ℕ)
    (bytes : List UInt8) : appendedTo c size bytes entries = bytes ++ c.frames entries := by
  have hadd : (⟨[], bytes, 0, false⟩ : LogWriter).appendBatch c size .done entries =
      (⟨[], bytes, 0, false⟩ : LogWriter).addBatch c size entries := by
    rw [LogWriter.appendBatch, LogWriter.flush_nil rfl]
    exact ite_self _
  have herr : ((⟨[], bytes, 0, false⟩ : LogWriter).addBatch c size entries).2.writeError = false :=
    rfl
  rw [appendedTo, hadd, LogWriter.file_flush_done herr, LogWriter.addBatch,
    ConFileStorage.appendFrames_eq fun e he ↦ (h e he).isSome_encode]
  rfl

theorem torn_tail_readFile_iff (hb : Bincode c command) {xs : List (LogEntry C)}
    (hxs : ∀ x ∈ xs, c.Fits x) {bytes : List UInt8} (hcut : bytes <+: c.frames xs) {k : ℕ}
    (hk : c.Whole xs bytes k) :
    (∀ ys : List (LogEntry C), (∀ y ∈ ys, c.Fits y) →
      c.readFile (bytes ++ c.frames ys) = some (xs.take k ++ ys)) ↔
    bytes = c.frames (xs.take k) := by
  have hfits : ∀ x ∈ xs.take k, c.Fits x := fun x hx ↦ hxs x (List.mem_of_mem_take hx)
  constructor
  · intro hall
    obtain ⟨t, rfl⟩ : c.frames (xs.take k) <+: bytes := (hk.2 k hk.1).mpr le_rfl
    by_contra hbytes
    have hne : t ≠ [] := by
      rintro rfl
      exact hbytes (List.append_nil _)
    have hlt : k < xs.length := by
      by_contra hge
      rw [List.take_of_length_le (Nat.not_lt.mp hge)] at hcut
      exact hne (List.append_right_eq_self.mp (hcut.eq_of_length_le (by simp)))
    -- what is left is the beginning of the entry after the whole ones
    have hnext : c.frames (xs.take (k + 1)) = c.frames (xs.take k) ++ c.frames [xs[k]] := by
      rw [← List.take_append_getElem hlt, Codec.frames_append]
    have hframes : c.frames xs =
        c.frames (xs.take k) ++ (c.frames [xs[k]] ++ c.frames (xs.drop (k + 1))) := by
      rw [← List.append_assoc, ← hnext, ← Codec.frames_append, List.take_append_drop]
    have htail : t <+: c.frames [xs[k]] ++ c.frames (xs.drop (k + 1)) := by
      rwa [hframes, List.prefix_append_right_inj] at hcut
    have hshort : t.length < (c.frames [xs[k]]).length := by
      by_contra hge
      have hwhole : c.frames [xs[k]] <+: t :=
        List.prefix_of_prefix_length_le (List.prefix_append _ _) htail (Nat.not_lt.mp hge)
      have := (hk.2 (k + 1) hlt).mp (by rwa [hnext, List.prefix_append_right_inj])
      omega
    obtain ⟨y, hy, hbad⟩ := hb.not_reads (hxs _ (List.getElem_mem hlt)) hne htail hshort
    have hr := hall [y] (List.forall_mem_singleton.mpr hy)
    obtain ⟨fuel, hfuel⟩ : ∃ fuel, (c.frames (xs.take k) ++ (t ++ c.frames [y])).length =
        fuel + 1 + (xs.take k).length := by
      have hcount := Codec.length_le_length_frames hfits
      have hpos : 0 < t.length := List.length_pos_iff.mpr hne
      refine ⟨(c.frames (xs.take k) ++ (t ++ c.frames [y])).length - (xs.take k).length - 1, ?_⟩
      simp only [List.length_append]
      omega
    rw [List.append_assoc, Codec.readFile, hfuel, Codec.readFrames_append hfits] at hr
    obtain ⟨zs, hzs, hzs'⟩ := Option.map_eq_some_iff.mp hr
    obtain rfl := List.append_cancel_left hzs'
    exact hbad fuel hzs
  · rintro rfl ys hys
    rw [← Codec.frames_append, Codec.readFile_frames]
    intro e he
    exact (List.mem_append.mp he).elim (hfits e) (hys e)

/-- **When a torn tail does no harm.**  The log file was cut off by a crash, and the next process
appends to it.  Whatever that is, a later `restore` from the files returns the entries that were
whole and then the appended ones, exactly if nothing was left of an entry that was not whole. -/
theorem torn_tail_iff (hb : Bincode c command) (d : Codec PersistentState) (size : ℕ)
    {xs : List (LogEntry C)} (hxs : ∀ x ∈ xs, c.Fits x) {bytes : List UInt8}
    (hcut : bytes <+: c.frames xs) {k : ℕ} (hk : c.Whole xs bytes k) :
    (∀ ys : List (LogEntry C), (∀ y ∈ ys, c.Fits y) → ∀ (s : ConFileStorage (LogEntry C)) state,
      s.writer.file = appendedTo c size bytes ys → s.readMeta d = some state →
        (s.restore c d []).1 = some (state, xs.take k ++ ys)) ↔
    bytes = c.frames (xs.take k) := by
  rw [← torn_tail_readFile_iff hb hxs hcut hk]
  constructor
  · intro hall ys hys
    let s : ConFileStorage (LogEntry C) :=
      ⟨⟨[], appendedTo c size bytes ys, 0, false⟩, none, [], 0, fun _ ↦ .idle, .idle, none, []⟩
    have hr := hall ys hys s PersistentState.default rfl rfl
    rw [restore_eq_some_iff rfl] at hr
    rwa [← appendedTo_eq hys size]
  · intro hall ys hys s state hfile hmeta
    rw [restore_eq_some_iff hmeta, hfile, appendedTo_eq hys]
    exact hall ys hys

end

theorem unknownCodec_bincode : Bincode unknownCodec fun _ ↦ toLe 4 14 where
  encode _ := rfl
  decode e he := by
    have hlen : (toLe 4 14 ++ toLe 8 e.term).length = 12 := by
      rw [List.length_append, length_toLe, length_toLe]
    have hterm : ofLe (toLe 8 e.term) = e.term := ofLe_toLe_of_lt he
    simp only [unknownCodec, hlen, List.take_left' (length_toLe 4 14),
      List.drop_left' (length_toLe 4 14), hterm, and_self, if_true]
  unknown := ⟨(), rfl⟩

/-- A crash between two entries, and one more appended. -/
theorem torn_tail_iff_between :
    ∃ s : ConFileStorage (LogEntry Unit), s.writer.file =
        appendedTo unknownCodec 64 (toLe 4 12 ++ toLe 4 14 ++ toLe 8 10) [⟨(), 12⟩] ∧
      (s.restore unknownCodec termCodec []).1 =
        some (PersistentState.default, [⟨(), 10⟩, ⟨(), 12⟩]) := by
  have hxs : ∀ x ∈ [⟨(), 10⟩, ⟨(), 11⟩], unknownCodec.Fits x := by decide
  have hcut : toLe 4 12 ++ toLe 4 14 ++ toLe 8 10 <+:
      unknownCodec.frames [⟨(), 10⟩, ⟨(), 11⟩] := by decide
  have hk : unknownCodec.Whole [⟨(), 10⟩, ⟨(), 11⟩] (toLe 4 12 ++ toLe 4 14 ++ toLe 8 10) 1 := by
    unfold Codec.Whole
    decide
  have hys : ∀ y ∈ [⟨(), 12⟩], unknownCodec.Fits y := by decide
  exact ⟨{ ConFileStorage.empty unknownCodec termCodec with writer := ⟨[], _, 0, false⟩ }, rfl,
    (torn_tail_iff unknownCodec_bincode termCodec 64 hxs hcut hk).mpr rfl _ hys _ _ rfl rfl⟩

/-- A crash in the second entry.  The process after it appends one more, and the one after that
cannot read the file: the node starts with term 0, though the metadata say 5. -/
theorem not_torn_tail :
    ∃ bytes, bytes <+: unknownCodec.frames [⟨(), 10⟩, ⟨(), 11⟩] ∧
      unknownCodec.Whole [⟨(), 10⟩, ⟨(), 11⟩] bytes 1 ∧
      ∃ disk, disk = ConFileStorage.new unknownCodec termCodec (some (toLe 8 5 ++ [0, 0]))
          (appendedTo unknownCodec 64 bytes [⟨(), 11⟩]) none [] ∧
        disk.readMeta termCodec = some ⟨5, none, none⟩ ∧ disk.logCache = [] ∧
        (disk.restore unknownCodec termCodec []).1 = none ∧
        (Durable.boot unknownCodec termCodec "a" ([] : List (ℕ × Unit)) disk []).node.currentTerm
          = 0 := by
  refine ⟨toLe 4 12 ++ toLe 4 14 ++ toLe 8 10 ++ [12, 0, 0, 0, 14], by decide, ?_, _, rfl,
    by decide, by decide, by decide, by decide⟩
  unfold Codec.Whole
  decide

end Efis
