import Efis.Bytes.Queue
import Efis.Store.Datastore

/-!
# Backups of the datastore

`FileBackupRepo` with the failures of its file system, and the two ends of it: `encode` makes bytes
of a datastore, and `From<Vec<u8>>` makes a datastore of bytes.  The file in between is written
under another name and then renamed.  The other name is drawn at random and its file is not
truncated, so a longer file of that name that was left behind shows through.  And nobody is told of
a failure of the last write: `write_all` has returned by then, and `sync_all` keeps the error for an
operation that does not come, so what was written of the file takes the place of the backup.  These
are the two ways for a `save` not to be atomic (`save_atomic_iff`).

But nothing is written.  `encode` returns no bytes at all, and the other end does not look at those
it gets; in both, the line that would do it is commented out.  So only a datastore without keys
comes back as it was (`backup_round_trip_iff`).
-/

set_option autoImplicit false

namespace Efis

open Bytes

/-! ## The repository -/

/-- The directory of a `FileBackupRepo`: the file `backup.efs`, and those under other names. -/
structure FileBackupRepo where
  file : Option (List UInt8)
  tmp : String → Option (List UInt8)

/-- What becomes of the operations of `save`. -/
structure SaveIo where
  opened : Bool
  /-- The number of bytes that are written before a write fails. -/
  room : Option ℕ
  synced : Bool
  removed : Bool
  renamed : Bool

namespace FileBackupRepo

/-- `generate_tmp_name`, which never gives `backup.efs`. -/
def generateTmpName (r : Int32) : String := "tmp." ++ toString r.toInt

def setTmp (repo : FileBackupRepo) (name : String) (content : Option (List UInt8)) :
    FileBackupRepo :=
  { repo with tmp := Function.update repo.tmp name content }

/-- After an operation failed, the file is removed if it can be. -/
def giveUp (repo : FileBackupRepo) (name : String) (io : SaveIo) :
    Except String Unit × FileBackupRepo :=
  (.error "failed to persist", if io.removed then repo.setTmp name none else repo)

/-- The file under a name, opened without truncating it. -/
def openTmp (repo : FileBackupRepo) (name : String) : QueuedFile :=
  ⟨[], (repo.tmp name).getD [], false⟩

/-- `save`, under the name that was chosen at random. -/
def save (repo : FileBackupRepo) (name : String) (data : List UInt8) (io : SaveIo) :
    Except String Unit × FileBackupRepo :=
  if io.opened then
    let (ok, fp) := (repo.openTmp name).writeAll QueuedFile.maxBufSize io.room data
    let repo := repo.setTmp name (some fp.content)
    if ok then
      -- `sync_all` waits for the last write, but does not return its error
      if io.synced then
        if io.renamed then (.ok (), { repo.setTmp name none with file := some fp.content })
        else (.error "failed to persist", repo)
      else repo.giveUp name io
    else repo.giveUp name io
  else (.error "failed to persist", repo)

def retrieve (repo : FileBackupRepo) : Except String (List UInt8) :=
  match repo.file with
  | some contents => .ok contents
  | none => .error "backup file not found"

/-- `save` is told of no failure. -/
def Succeeds (io : SaveIo) (data : List UInt8) : Prop :=
  io.opened ∧ QueuedFile.Passes QueuedFile.maxBufSize io.room data.length ∧ io.synced ∧ io.renamed

/-- What `save` leaves in a file with the given content is the data. -/
structure Completes (old : Option (List UInt8)) (room : Option ℕ) (data : List UInt8) : Prop where
  /-- If all of them are written, there was no longer file. -/
  whole : (∀ k ∈ room, data.length ≤ k) → ∀ left ∈ old, left.length ≤ data.length
  /-- If a write fails, the file has had the rest of them in their place. -/
  rest : ∀ k ∈ room, k < data.length → (old.getD []).drop k = data.drop k

theorem content_openTmp (repo : FileBackupRepo) (name : String) (room : Option ℕ)
    (data : List UInt8) :
    ((repo.openTmp name).writeAll QueuedFile.maxBufSize room data).2.content =
      QueuedFile.taken room data ++
        ((repo.tmp name).getD []).drop (QueuedFile.taken room data).length := by
  rw [QueuedFile.content, QueuedFile.writeAll_written QueuedFile.maxBufSize_pos rfl,
    QueuedFile.writeAll_behind QueuedFile.maxBufSize_pos rfl]
  rfl

/-- What `save` comes to: the new file is the backup, or the backup is as it was. -/
theorem save_cases (repo : FileBackupRepo) (name : String) (data : List UInt8) (io : SaveIo) :
    (Succeeds io data ∧ (repo.save name data io).1 = .ok () ∧
      (repo.save name data io).2.file = some (QueuedFile.taken io.room data ++
        ((repo.tmp name).getD []).drop (QueuedFile.taken io.room data).length)) ∨
    (¬ Succeeds io data ∧ (repo.save name data io).1 = .error "failed to persist" ∧
      (repo.save name data io).2.file = repo.file) := by
  obtain ⟨opened, room, synced, removed, renamed⟩ := io
  have hpass : ((repo.openTmp name).writeAll QueuedFile.maxBufSize room data).1 = true ↔
      QueuedFile.Passes QueuedFile.maxBufSize room data.length :=
    QueuedFile.writeAll_fst_iff QueuedFile.maxBufSize_pos rfl
  have hcontent := content_openTmp repo name room data
  rw [save, Succeeds, ← hpass, ← hcontent]
  generalize (repo.openTmp name).writeAll QueuedFile.maxBufSize room data = res
  obtain ⟨ok, fp⟩ := res
  -- each operation is tried only after those before it
  cases opened with
  | false => exact Or.inr ⟨fun h ↦ Bool.noConfusion h.1, rfl, rfl⟩
  | true =>
    cases ok with
    | false => exact Or.inr ⟨fun h ↦ Bool.noConfusion h.2.1, rfl, by cases removed <;> rfl⟩
    | true =>
      cases synced with
      | false => exact Or.inr ⟨fun h ↦ Bool.noConfusion h.2.2.1, rfl, by cases removed <;> rfl⟩
      | true =>
        cases renamed with
        | false => exact Or.inr ⟨fun h ↦ Bool.noConfusion h.2.2.2, rfl, rfl⟩
        | true => exact Or.inl ⟨⟨rfl, rfl, rfl, rfl⟩, rfl, rfl⟩

theorem taken_append_eq_iff (rest : List UInt8) (room : Option ℕ) (data : List UInt8) :
    QueuedFile.taken room data ++ rest = data ↔
      rest = data.drop (QueuedFile.taken room data).length := by
  conv_lhs => rhs; rw [← QueuedFile.taken_append_drop room data]
  exact List.append_right_inj _

theorem completes_iff {old : Option (List UInt8)} {room : Option ℕ} {data : List UInt8} :
    Completes old room data ↔ (old.getD []).drop (QueuedFile.taken room data).length =
      data.drop (QueuedFile.taken room data).length := by
  have hwhole : (∀ left ∈ old, left.length ≤ data.length) ↔
      (old.getD []).drop data.length = [] := by
    rw [List.drop_eq_nil_iff]
    cases old with
    | none => simp
    | some left => simp
  by_cases h : ∀ k ∈ room, data.length ≤ k
  · rw [QueuedFile.taken_of_le h, List.drop_length, ← hwhole]
    exact ⟨fun hc ↦ hc.whole h, fun hc ↦ ⟨fun _ ↦ hc, fun k hk hlt ↦
      absurd (h k hk) (Nat.not_le.mpr hlt)⟩⟩
  · have hshort := h
    push Not at hshort
    obtain ⟨k, rfl, hk⟩ := hshort
    rw [QueuedFile.taken_some, List.length_take_of_le hk.le]
    refine ⟨fun hc ↦ hc.rest k rfl hk, fun hc ↦ ⟨fun hn ↦ absurd hn h, ?_⟩⟩
    rintro l hl -
    obtain rfl := Option.some_inj.mp hl
    exact hc

theorem retrieve_congr {repo repo' : FileBackupRepo} (h : repo'.file = repo.file) :
    repo'.retrieve = repo.retrieve := by
  rw [retrieve, retrieve, h]

/-- **When a `save` is atomic.**  If it returns `Ok` the data can be read, and if not then what
could be read before: this is so exactly if `save` is told of a failure, or it writes all of the
data and there was no longer file under the name that was chosen.  (Or it does not write all of them
and the file happened to end as they do.) -/
theorem save_atomic_iff (repo : FileBackupRepo) (r : Int32) (data : List UInt8) (io : SaveIo) :
    (((repo.save (generateTmpName r) data io).1 = .ok () →
        (repo.save (generateTmpName r) data io).2.retrieve = .ok data) ∧
      ((repo.save (generateTmpName r) data io).1 ≠ .ok () →
        (repo.save (generateTmpName r) data io).2.retrieve = repo.retrieve)) ↔
    (Succeeds io data → Completes (repo.tmp (generateTmpName r)) io.room data) := by
  rcases repo.save_cases (generateTmpName r) data io with ⟨hs, hok, hfile⟩ | ⟨hs, herr, hfile⟩
  · have hread : (repo.save (generateTmpName r) data io).2.retrieve =
        .ok (QueuedFile.taken io.room data ++ ((repo.tmp (generateTmpName r)).getD []).drop
          (QueuedFile.taken io.room data).length) := by rw [retrieve, hfile]
    constructor
    · rintro ⟨h, -⟩ -
      have heq := Except.ok.inj (hread.symm.trans (h hok))
      exact completes_iff.mpr ((taken_append_eq_iff _ _ _).mp heq)
    · intro hc
      refine ⟨fun _ ↦ ?_, fun hne ↦ absurd hok hne⟩
      rw [hread, (taken_append_eq_iff _ _ _).mpr (completes_iff.mp (hc hs))]
  · refine iff_of_true ⟨fun hok ↦ ?_, fun _ ↦ retrieve_congr hfile⟩ fun h ↦ absurd h hs
    rw [herr] at hok
    cases hok

/-- A `save` of three bytes is not synced, and its file cannot be removed.  A later one of a single
byte takes the same name: it returns `Ok`, and two bytes too many are read.  And a `save` whose only
write fails returns `Ok`, and nothing is read though there was a backup. -/
theorem not_save_atomic :
    (∃ repo repo', FileBackupRepo.save ⟨none, fun _ ↦ none⟩ (generateTmpName 1) [1, 2, 3]
        ⟨true, none, false, false, true⟩ = (.error "failed to persist", repo) ∧
      repo.save (generateTmpName 1) [9] ⟨true, none, true, true, true⟩ = (.ok (), repo') ∧
      repo'.retrieve = .ok [9, 2, 3]) ∧
    ∃ repo', FileBackupRepo.save ⟨some [7], fun _ ↦ none⟩ (generateTmpName 1) [9]
        ⟨true, some 0, true, true, true⟩ = (.ok (), repo') ∧ repo'.retrieve = .ok [] :=
  ⟨⟨_, _, rfl, rfl, rfl⟩, _, rfl, rfl⟩

end FileBackupRepo

/-! ## The two ends -/

variable {F : Type}

namespace Datastore

/-- `Datastore::new`. -/
def new : Datastore F := ⟨fun _ ↦ none, []⟩

/-- `encode`, with its body commented out. -/
def encode (_ : Datastore F) : Except String (List UInt8) := .ok []

end Datastore

/-- `DatastoreGuard`, without the handle of the task that makes the backups. -/
structure DatastoreGuard (F : Type) where
  store : Datastore F
  interval : Option ℕ
  path : Option String

namespace DatastoreGuard

/-- `From<Vec<u8>>`, with the decoding commented out. -/
def ofBytes (_ : List UInt8) : DatastoreGuard F where
  store := Datastore.new
  interval := none
  path := none

/-- `DatastoreGuard::new`, where the directory is what is found under the path. -/
def new (repo : FileBackupRepo) (interval : Option ℕ) (path : Option String) : DatastoreGuard F :=
  match repo.retrieve with
  | .ok data => { ofBytes data with interval := interval, path := path }
  | .error _ => ⟨Datastore.new, interval, path⟩

/-- `backup`, and whether it was completed.  The encoding is unwrapped. -/
def backup (s : Datastore F) (repo : FileBackupRepo) (name : String) (io : SaveIo) :
    Option (Except String Unit × FileBackupRepo) :=
  match s.encode with
  | .ok data => some (repo.save name data io)
  | .error _ => none

/-- A guard begins with an empty store, whatever there is in the directory. -/
theorem new_store (repo : FileBackupRepo) (interval : Option ℕ) (path : Option String) :
    (new repo interval path : DatastoreGuard F).store = Datastore.new := by
  rw [new]
  split <;> rfl

theorem new_data_eq_iff (s : Datastore F) :
    (Datastore.new : Datastore F).data = s.data ↔ ∀ key, s.data key = none := by
  rw [funext_iff]
  exact forall_congr' fun key ↦ eq_comm

/-- **When a backup gives the data back.**  Both what is made of the encoding, and what a guard
begins with after a completed backup, has the keys, the values and the expiries of the datastore
exactly if there were none. -/
theorem backup_round_trip_iff (s : Datastore F) :
    ((∃ data, s.encode = .ok data ∧ (ofBytes data : DatastoreGuard F).store.data = s.data) ↔
      ∀ key, s.data key = none) ∧
    ∀ repo name io repo', backup s repo name io = some (.ok (), repo') → ∀ interval path,
      ((new repo' interval path : DatastoreGuard F).store.data = s.data ↔
        ∀ key, s.data key = none) := by
  constructor
  · rw [← new_data_eq_iff s]
    constructor
    · rintro ⟨data, -, h⟩
      exact h
    · exact fun h ↦ ⟨[], rfl, h⟩
  · intro repo name io repo' _ interval path
    rw [new_store, new_data_eq_iff]

/-- All goes well. -/
def smooth : SaveIo := ⟨true, none, true, true, true⟩

/-- A key with a text. -/
def oneKey : Datastore Unit := Datastore.new.insert "key" (some ⟨.text "value", none⟩)

/-- An empty datastore is backed up and comes back. -/
theorem backup_round_trip_empty :
    ∃ repo', backup (Datastore.new : Datastore Unit) ⟨none, fun _ ↦ none⟩ "tmp.1" smooth =
        some (.ok (), repo') ∧
      (new repo' (some 1) (some "backup") : DatastoreGuard Unit).store.data =
        (Datastore.new : Datastore Unit).data := by
  refine ⟨_, rfl, ?_⟩
  exact ((backup_round_trip_iff Datastore.new).2 ⟨none, fun _ ↦ none⟩ "tmp.1" smooth _ rfl _ _).mpr
    fun _ ↦ rfl

/-- A text under one key is lost, without an error. -/
theorem not_backup_round_trip :
    oneKey.encode = .ok [] ∧ (ofBytes [] : DatastoreGuard Unit).store.data "key" = none ∧
    ∃ repo', backup oneKey ⟨none, fun _ ↦ none⟩ "tmp.1" smooth = some (.ok (), repo') ∧
      (new repo' (some 1) (some "backup") : DatastoreGuard Unit).store.data "key" = none ∧
      oneKey.data "key" = some ⟨.text "value", none⟩ :=
  ⟨rfl, rfl, _, rfl, rfl, rfl⟩

end DatastoreGuard

end Efis
