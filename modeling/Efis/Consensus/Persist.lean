import Efis.Consensus.Handlers
import Mathlib.Data.List.Chain

/-!
# What a restarted node gets back

A single node over `MockStorage`, and every call of `persist_state` on the way.  A node started
afresh from the storage should have the log, the term and the vote of the node that wrote it.  The
term and the vote are always right.  The log need not be, for two reasons.

* The cursor `last_persisted_log` is the last index that was written, and `0` before anything was.
  After exactly one entry has been written it is `0` as well, so the next call writes that entry a
  second time, whether or not anything has changed.
* The storage is only ever appended to.  If entries below the cursor were cut off or overwritten
  in the meantime, the old ones stay.

These are the only two.  `Kept` says of the logs at two consecutive calls that neither of them
applies, and `restores_iff` that a run restores right after all its calls exactly if `Kept` holds
of all consecutive ones.  What a call appends does not depend on how a storage keeps it, so the
steps to this are about any storage that appends (`Appends`).
-/

set_option autoImplicit false

namespace Efis

variable {C P : Type}

/-! ## The calls of `persist_state` -/

/-- What a node can be asked to do. -/
inductive Op (C : Type) where
  | startElection (elapsed : Bool)
  | voteResult (term : ℕ) (voted : Bool)
  | requestVote (req : RequestVote)
  | appendEntries (req : AppendEntries C)
  | submit (cmd : C)
  | sendAes
  | aeRes (peerId ni : ℕ) (reply : AppendEntriesReply)
  | sendCommit

namespace Consensus

variable {σ : Type} [Storage σ C]

/-- The node after a message, unless it panicked. -/
def handle (n : Consensus σ C P) : Op C → Option (Consensus σ C P)
  | .startElection elapsed => (n.onStartElection elapsed).map Prod.fst
  | .voteResult term voted => some (n.onVoteResult term voted)
  | .requestVote req => some (n.requestVote req).1
  | .appendEntries req => some (n.appendEntries req).1
  | .submit cmd => some (n.onSubmit cmd)
  | .sendAes => n.sendLeaderAes.map Prod.fst
  | .aeRes peerId ni reply => n.handleAeRes peerId ni reply
  | .sendCommit => n.sendCommits.map Prod.fst

/-- The states right after each call of `persist_state` while a message is handled.  Both requests
can come to it twice, once for stepping down and once for what they are about. -/
def moments (n : Consensus σ C P) : Op C → List (Consensus σ C P)
  | .startElection elapsed =>
    if ((n.state = .candidate ∨ n.state = .follower) ∧ elapsed) ∧ n.currentTerm < usizeMax then
      [persistState
        { n with state := .candidate, currentTerm := n.currentTerm + 1, votedFor := some n.id }]
    else []
  | .voteResult term _ =>
    if n.state = .candidate ∧ n.currentTerm < term then [n.becomeFollower term] else []
  | .requestVote req =>
    if n.state = .dead then []
    else (if n.currentTerm < req.term then [n.becomeFollower req.term] else []) ++
      match n.requestVote req with
      | (c, .ok ⟨_, true⟩) => [c]
      | _ => []
  | .appendEntries req =>
    if n.state = .dead then []
    else (if n.currentTerm < req.term then [n.becomeFollower req.term] else []) ++
      match n.appendEntries req with
      | (c, .ok ⟨_, true, _, _⟩) => [c]
      | _ => []
  | .submit cmd => if n.state = .leader then [n.submit cmd] else []
  | .aeRes _ _ reply => if n.currentTerm < reply.term then [n.becomeFollower reply.term] else []
  | .sendAes | .sendCommit => []

/-- The same for a sequence of messages, up to a panic. -/
def momentsOf (n : Consensus σ C P) : List (Op C) → List (Consensus σ C P)
  | [] => []
  | op :: ops =>
    n.moments op ++
      match n.handle op with
      | some c => c.momentsOf ops
      | none => []

/-! ## From one call to the next

What is between two calls does not touch the storage or the cursor. -/

/-- The two have the same storage and cursor. -/
def SameDisk (m m' : Consensus σ C P) : Prop :=
  m'.storage = m.storage ∧ m'.lastPersistedLog = m.lastPersistedLog

/-- `m'` is a state right after `persist_state` was called, and `m` is one since the call before.
-/
def Persisted (m m' : Consensus σ C P) : Prop :=
  ∃ x : Consensus σ C P, SameDisk m x ∧ SameDisk x.persistState m' ∧ m'.logs = x.logs ∧
    m'.currentTerm = x.currentTerm ∧ m'.votedFor = x.votedFor

theorem persisted_of (m x : Consensus σ C P) (h : SameDisk m x) : Persisted m x.persistState :=
  ⟨x, h, ⟨rfl, rfl⟩, rfl, rfl, rfl⟩

theorem SameDisk.persisted {m m' m'' : Consensus σ C P} (h : SameDisk m m')
    (h' : Persisted m' m'') : Persisted m m'' := by
  obtain ⟨x, hx, h'⟩ := h'
  exact ⟨x, ⟨hx.1.trans h.1, hx.2.trans h.2⟩, h'⟩

/-- From `n` to `n'` the calls of `persist_state` are those that left the states `ms`, and the log
has not changed since the last one. -/
inductive Calls : Consensus σ C P → List (Consensus σ C P) → Consensus σ C P → Prop
  | nil {n n' : Consensus σ C P} (h : SameDisk n n') (hl : n'.logs = n.logs) : Calls n [] n'
  | cons {n m n' : Consensus σ C P} {ms : List (Consensus σ C P)} (h : Persisted n m)
      (hs : Calls m ms n') : Calls n (m :: ms) n'

theorem SameDisk.calls {m m' n : Consensus σ C P} {ms : List (Consensus σ C P)}
    (h : SameDisk m m') (hl : m'.logs = m.logs) (hs : Calls m' ms n) : Calls m ms n := by
  cases hs with
  | nil h' hl' => exact .nil ⟨h'.1.trans h.1, h'.2.trans h.2⟩ (hl'.trans hl)
  | cons h' hs => exact .cons (h.persisted h') hs

theorem Calls.append {m m' n : Consensus σ C P} {ms ms' : List (Consensus σ C P)}
    (h : Calls m ms m') (h' : Calls m' ms' n) : Calls m (ms ++ ms') n := by
  induction h with
  | nil h hl => exact h.calls hl h'
  | cons h _ ih => exact .cons h (ih h')

theorem Calls.one {m x n : Consensus σ C P} (hx : SameDisk m x) (h : SameDisk x.persistState n)
    (hl : n.logs = x.logs) : Calls m [x.persistState] n :=
  .cons (persisted_of m x hx) (.nil h hl)

/-- The log is what it was at the last call. -/
theorem Calls.logs_eq {n n' : Consensus σ C P} {ms : List (Consensus σ C P)}
    (h : Calls n ms n') : n'.logs = (ms.map Consensus.logs).getLastD n.logs := by
  induction h with
  | nil _ hl => exact hl
  | cons _ _ ih => rw [ih, List.map_cons, List.getLastD_cons]

theorem Calls.stepDown (n : Consensus σ C P) (t : ℕ) :
    Calls n (if n.currentTerm < t then [n.becomeFollower t] else []) (n.stepDown t) := by
  rw [Consensus.stepDown]
  split
  · exact .one ⟨rfl, rfl⟩ ⟨rfl, rfl⟩ rfl
  · exact .nil ⟨rfl, rfl⟩ rfl

omit [Storage σ C] in
theorem sameDisk_noteLeader (n : Consensus σ C P) (req : AppendEntries C) :
    SameDisk n (n.noteLeader req) ∧ (n.noteLeader req).logs = n.logs := by
  rw [noteLeader]
  split <;> exact ⟨⟨rfl, rfl⟩, rfl⟩

theorem calls_requestVote (n : Consensus σ C P) (req : RequestVote) :
    Calls n (n.moments (.requestVote req)) (n.requestVote req).1 := by
  by_cases hd : n.state = .dead
  · simp only [moments, requestVote, if_pos hd]
    exact .nil ⟨rfl, rfl⟩ rfl
  · simp only [moments, if_neg hd]
    refine (Calls.stepDown n req.term).append ?_
    simp only [requestVote, if_neg hd]
    generalize n.stepDown req.term = c
    by_cases hg : req.term = c.currentTerm ∧
        (c.votedFor = none ∨ c.votedFor = some req.candidateId) ∧
        upToDate req n.lastLog = true
    · simp only [if_pos hg]
      exact .one ⟨rfl, rfl⟩ ⟨rfl, rfl⟩ rfl
    · simp only [if_neg hg]
      exact .nil ⟨rfl, rfl⟩ rfl

theorem calls_appendEntries (n : Consensus σ C P) (req : AppendEntries C) :
    Calls n (n.moments (.appendEntries req)) (n.appendEntries req).1 := by
  by_cases hd : n.state = .dead
  · simp only [moments, appendEntries, if_pos hd]
    exact .nil ⟨rfl, rfl⟩ rfl
  · simp only [moments, if_neg hd]
    obtain ⟨hdisk, hlogs⟩ := (n.stepDown req.term).sameDisk_noteLeader req
    refine (Calls.stepDown n req.term).append (hdisk.calls hlogs ?_)
    simp only [appendEntries, if_neg hd]
    generalize (n.stepDown req.term).noteLeader req = c
    by_cases ht : req.term < c.currentTerm
    · simp only [if_pos ht]
      exact .nil ⟨rfl, rfl⟩ rfl
    · by_cases hp : prevOk c.logs req.prevLogIndex req.prevLogTerm = false
      · simp only [if_neg ht, if_pos hp]
        exact .nil ⟨rfl, rfl⟩ rfl
      · simp only [if_neg ht, if_neg hp]
        exact .one ⟨rfl, rfl⟩ ⟨rfl, rfl⟩ rfl

theorem calls_onVoteResult (n : Consensus σ C P) (term : ℕ) (voted : Bool) :
    Calls n (n.moments (.voteResult term voted)) (n.onVoteResult term voted) := by
  simp only [moments]
  by_cases hc : n.state = .candidate ∧ n.currentTerm < term
  · have h : n.onVoteResult term voted = n.becomeFollower term := by
      rw [onVoteResult, if_neg (not_not.mpr hc.1), if_neg (by omega), if_pos hc.2]
    rw [if_pos hc, h]
    exact .one ⟨rfl, rfl⟩ ⟨rfl, rfl⟩ rfl
  · rw [if_neg hc]
    simp only [onVoteResult]
    split
    · exact .nil ⟨rfl, rfl⟩ rfl
    · rename_i hcand
      split
      · exact .nil ⟨rfl, rfl⟩ rfl
      · split
        · rename_i ht
          exact absurd ⟨not_not.mp hcand, ht⟩ hc
        · split
          · split <;> exact .nil ⟨rfl, rfl⟩ rfl
          · exact .nil ⟨rfl, rfl⟩ rfl

/-- `moments` lists the calls of each handler. -/
theorem calls_handle {n c : Consensus σ C P} {op : Op C} (h : n.handle op = some c) :
    Calls n (n.moments op) c := by
  cases op with
  | startElection elapsed =>
    obtain ⟨⟨c', reqs⟩, hc', rfl⟩ := Option.map_eq_some_iff.mp h
    simp only [onStartElection, startElection] at hc'
    simp only [moments]
    split at hc'
    · rename_i hs
      split at hc'
      · rename_i ht
        obtain ⟨rfl, -⟩ := Prod.mk.inj (Option.some_inj.mp hc')
        rw [if_pos ⟨hs, ht⟩]
        exact .one ⟨rfl, rfl⟩ ⟨rfl, rfl⟩ rfl
      · cases hc'
    · rename_i hs
      obtain ⟨rfl, -⟩ := Prod.mk.inj (Option.some_inj.mp hc')
      rw [if_neg fun h ↦ hs h.1]
      exact .nil ⟨rfl, rfl⟩ rfl
  | voteResult term voted =>
    obtain rfl := Option.some_inj.mp h
    exact calls_onVoteResult n term voted
  | requestVote req =>
    obtain rfl := Option.some_inj.mp h
    exact calls_requestVote n req
  | appendEntries req =>
    obtain rfl := Option.some_inj.mp h
    exact calls_appendEntries n req
  | submit cmd =>
    obtain rfl := Option.some_inj.mp h
    simp only [moments, onSubmit]
    split
    · exact .one ⟨rfl, rfl⟩ ⟨rfl, rfl⟩ rfl
    · exact .nil ⟨rfl, rfl⟩ rfl
  | sendAes =>
    obtain ⟨⟨c', calls⟩, hc', rfl⟩ := Option.map_eq_some_iff.mp h
    obtain ⟨next, rfl⟩ := n.sendLeaderAes_node hc'
    exact .nil ⟨rfl, rfl⟩ rfl
  | aeRes peerId ni reply =>
    simp only [moments]
    rcases n.handleAeRes_node h with ⟨ht, rfl⟩ | ⟨ht, next, mat, ci, rfl⟩
    · rw [if_pos ht]
      exact .one ⟨rfl, rfl⟩ ⟨rfl, rfl⟩ rfl
    · rw [if_neg ht]
      exact .nil ⟨rfl, rfl⟩ rfl
  | sendCommit =>
    obtain ⟨⟨c', entries⟩, hc', rfl⟩ := Option.map_eq_some_iff.mp h
    obtain ⟨la, rfl⟩ := n.sendCommits_node hc'
    exact .nil ⟨rfl, rfl⟩ rfl

/-- A handler that panics has not persisted anything. -/
theorem moments_of_panic {n : Consensus σ C P} {op : Op C} (h : n.handle op = none) :
    n.moments op = [] := by
  cases op with
  | startElection elapsed =>
    simp only [handle, Option.map_eq_none_iff, onStartElection, startElection] at h
    simp only [moments]
    rw [if_neg]
    rintro ⟨hs, ht⟩
    rw [if_pos hs, if_pos ht] at h
    cases h
  | aeRes peerId ni reply =>
    simp only [handle, handleAeRes] at h
    simp only [moments]
    rw [if_neg]
    intro ht
    rw [if_pos ht] at h
    cases h
  | sendAes => rfl
  | sendCommit => rfl
  | _ => cases h

/-! ## Messages that leave the log -/

/-- The two requests that change the log apart, a message leaves it as it is. -/
theorem handle_logs {n c : Consensus σ C P} {op : Op C} (h : n.handle op = some c)
    (hs : ∀ cmd, op ≠ .submit cmd) (ha : ∀ req, op ≠ .appendEntries req) :
    c.logs = n.logs ∧ c.logIndex = n.logIndex := by
  have hdown : ∀ t, (n.stepDown t).logs = n.logs ∧ (n.stepDown t).logIndex = n.logIndex := by
    intro t
    rw [stepDown]
    split <;> exact ⟨rfl, rfl⟩
  cases op with
  | startElection elapsed =>
    obtain ⟨⟨c', reqs⟩, hc', rfl⟩ := Option.map_eq_some_iff.mp h
    simp only [onStartElection, startElection] at hc'
    split at hc'
    · split at hc'
      · obtain ⟨rfl, -⟩ := Prod.mk.inj (Option.some_inj.mp hc')
        exact ⟨rfl, rfl⟩
      · cases hc'
    · obtain ⟨rfl, -⟩ := Prod.mk.inj (Option.some_inj.mp hc')
      exact ⟨rfl, rfl⟩
  | voteResult term voted =>
    obtain rfl := Option.some_inj.mp h
    rcases n.onVoteResult_cases term voted with hc | ⟨-, hc⟩ | ⟨-, -, -, hc⟩ | ⟨-, -, -, -, hc⟩
    all_goals rw [hc]; exact ⟨rfl, rfl⟩
  | requestVote req =>
    obtain rfl := Option.some_inj.mp h
    rcases n.requestVote_cases req with hc | ⟨-, -, -, hc⟩ | hc
    · rw [hc]
      exact ⟨rfl, rfl⟩
    · rw [hc]
      exact hdown req.term
    · rw [hc]
      exact hdown req.term
  | appendEntries req => exact absurd rfl (ha req)
  | submit cmd => exact absurd rfl (hs cmd)
  | sendAes =>
    obtain ⟨⟨c', calls⟩, hc', rfl⟩ := Option.map_eq_some_iff.mp h
    obtain ⟨next, rfl⟩ := n.sendLeaderAes_node hc'
    exact ⟨rfl, rfl⟩
  | aeRes peerId ni reply =>
    rcases n.handleAeRes_node h with ⟨-, rfl⟩ | ⟨-, next, mat, ci, rfl⟩
    · exact ⟨rfl, rfl⟩
    · exact ⟨rfl, rfl⟩
  | sendCommit =>
    obtain ⟨⟨c', entries⟩, hc', rfl⟩ := Option.map_eq_some_iff.mp h
    obtain ⟨la, rfl⟩ := n.sendCommits_node hc'
    exact ⟨rfl, rfl⟩

end Consensus

/-! ## Right after a call -/

open Consensus

/-- A node started afresh from the storage has the log, the term and the vote. -/
def Restores (m : Consensus (MockStorage C) C P) : Prop :=
  let fresh : Consensus (MockStorage C) C P := Consensus.new m.id m.storage
  fresh.logs = m.logs ∧ fresh.currentTerm = m.currentTerm ∧ fresh.votedFor = m.votedFor

instance [DecidableEq C] (m : Consensus (MockStorage C) C P) : Decidable (Restores m) :=
  inferInstanceAs (Decidable (_ ∧ _ ∧ _))

/-- Between two calls the log was only extended, and it was not of length one at the first. -/
def Kept (l l' : List (LogEntry C)) : Prop := l.length ≠ 1 ∧ l <+: l'

instance [DecidableEq C] (l l' : List (LogEntry C)) : Decidable (Kept l l') :=
  inferInstanceAs (Decidable (_ ∧ _))

/-- What `Kept` holds of step by step only grows. -/
theorem prefix_of_kept {l : List (LogEntry C)} {ls : List (List (LogEntry C))}
    (h : List.IsChain Kept (l :: ls)) : l <+: ls.getLastD l := by
  induction ls generalizing l with
  | nil => exact List.prefix_rfl
  | cons l' ls ih =>
    rw [List.isChain_cons_cons] at h
    rw [List.getLastD_cons]
    exact h.1.2.trans (ih h.2)

/-- A message at which the storage follows the log: at each call of `persist_state` the log still
starts with what it was at the call before, and that was not a single entry. -/
def Consensus.KeepsLog {σ : Type} [Storage σ C] (n : Consensus σ C P) (op : Op C) : Prop :=
  List.IsChain Kept (n.logs :: (n.moments op).map Consensus.logs)

instance {σ : Type} [Storage σ C] [DecidableEq C] (n : Consensus σ C P) (op : Op C) :
    Decidable (n.KeepsLog op) :=
  inferInstanceAs (Decidable (List.IsChain _ _))

/-- A storage that appends: `view` is what was appended to it. -/
structure Appends {σ : Type} [Storage σ C] (view : σ → List (LogEntry C)) : Prop where
  store : ∀ state st, view (Storage.store state st).2 = view st
  ok : ∀ entries st, (Storage.appendEntry entries st : Bool × σ).1 = true
  append : ∀ entries st, view (Storage.appendEntry entries st).2 = view st ++ entries

theorem MockStorage.appends : Appends (MockStorage.logs (C := C)) :=
  ⟨fun _ _ ↦ rfl, fun _ _ ↦ rfl, fun _ _ ↦ rfl⟩

section

variable {σ : Type} [Storage σ C] {view : σ → List (LogEntry C)}

/-- The storage holds the log `l`, and the cursor points to its end. -/
def Disk (view : σ → List (LogEntry C)) (m : Consensus σ C P) (l : List (LogEntry C)) : Prop :=
  view m.storage = l ∧ m.lastPersistedLog = l.length - 1

/-- The entries in the storage after a call. -/
theorem logs_persistState (hv : Appends view) (x : Consensus σ C P) :
    view x.persistState.storage =
      if 0 < x.logs.length ∧ x.persistStart ≤ x.logs.length - 1 then
        view x.storage ++ x.logs.drop x.persistStart
      else view x.storage := by
  simp only [persistState, Consensus.persisted]
  split
  · rw [hv.append, hv.store]
  · rw [hv.store]

theorem cursor_persistState (hv : Appends view) (x : Consensus σ C P) :
    x.persistState.lastPersistedLog =
      if 0 < x.logs.length ∧ x.persistStart ≤ x.logs.length - 1 then x.logs.length - 1
      else x.lastPersistedLog := by
  simp only [persistState, Consensus.persisted]
  split
  · rw [if_pos (hv.ok _ _)]
  · rfl

/-- The storage has the log after a call exactly if nothing was lost before it, and nothing is
written twice by it. -/
theorem logs_persistState_eq_iff (hv : Appends view) {x : Consensus σ C P}
    {l : List (LogEntry C)} (h : Disk view x l) :
    view x.persistState.storage = x.logs ↔ Kept l x.logs := by
  obtain ⟨hview, hcur⟩ := h
  rw [logs_persistState hv, persistStart, hcur, hview, Kept]
  rcases Nat.eq_zero_or_pos x.logs.length with hx | hx
  · -- an empty log writes nothing
    have hnil := List.eq_nil_of_length_eq_zero hx
    rw [if_neg (by omega), hnil, List.prefix_nil]
    exact ⟨fun h ↦ ⟨by rw [h]; simp, h⟩, fun h ↦ h.2⟩
  · rcases Nat.lt_or_ge l.length 2 with hs | hs
    · -- the cursor is `0`: everything is written, once more if there is an entry
      have h0 : l.length - 1 = 0 ∧ 0 < x.logs.length := by omega
      rw [if_pos h0, if_pos ⟨hx, Nat.zero_le _⟩, List.drop_zero]
      constructor
      · intro h
        have hlen := congrArg List.length h
        rw [List.length_append] at hlen
        have hnil := List.eq_nil_of_length_eq_zero (l := l) (by omega)
        rw [hnil]
        exact ⟨by simp, List.nil_prefix⟩
      · rintro ⟨h1, -⟩
        have hnil := List.eq_nil_of_length_eq_zero (l := l) (by omega)
        rw [hnil, List.nil_append]
    · rw [if_neg (by omega : ¬ (l.length - 1 = 0 ∧ _))]
      rw [show l.length - 1 + 1 = l.length by omega]
      split
      · -- what lies beyond the cursor is written
        constructor
        · intro h
          exact ⟨by omega, h ▸ List.prefix_append _ _⟩
        · rintro ⟨-, r, hr⟩
          rw [← hr, List.drop_left]
      · constructor
        · intro h
          exact ⟨by omega, h ▸ List.prefix_rfl⟩
        · rintro ⟨-, h⟩
          exact h.eq_of_length_le (by omega)

theorem Disk.persistState (hv : Appends view) {x : Consensus σ C P} {l : List (LogEntry C)}
    (h : Disk view x l) (hk : Kept l x.logs) : Disk view x.persistState x.logs := by
  refine ⟨(logs_persistState_eq_iff hv h).mpr hk, ?_⟩
  obtain ⟨-, hcur⟩ := h
  rw [cursor_persistState hv]
  split
  · rfl
  · rename_i hn
    have hle := hk.2.length_le
    rw [persistStart] at hn
    rw [hcur]
    split at hn <;> omega

/-- What a call leaves behind. -/
theorem Disk.persisted (hv : Appends view) {n m : Consensus σ C P} {l : List (LogEntry C)}
    (h : Disk view n l) (hp : Persisted n m) (hk : Kept l m.logs) : Disk view m m.logs := by
  obtain ⟨x, hx, hm, hlogs, -, -⟩ := hp
  have hdisk : Disk view x l := ⟨by rw [hx.1]; exact h.1, by rw [hx.2]; exact h.2⟩
  rw [hlogs] at hk ⊢
  obtain ⟨h1, h2⟩ := hdisk.persistState hv hk
  exact ⟨by rw [hm.1]; exact h1, by rw [hm.2]; exact h2⟩

theorem Disk.calls (hv : Appends view) {n n' : Consensus σ C P} {ms : List (Consensus σ C P)}
    (h : Calls n ms n') {l : List (LogEntry C)} (hd : Disk view n l)
    (hk : List.IsChain Kept (l :: ms.map Consensus.logs)) :
    Disk view n' ((ms.map Consensus.logs).getLastD l) := by
  induction h generalizing l with
  | nil h _ => exact ⟨by rw [h.1]; exact hd.1, by rw [h.2]; exact hd.2⟩
  | cons hp _ ih =>
    rw [List.map_cons, List.isChain_cons_cons] at hk
    rw [List.map_cons, List.getLastD_cons]
    exact ih (hd.persisted hv hp hk.1) hk.2

/-- **The storage follows the log**, which only grows. -/
theorem Disk.handle (hv : Appends view) {n c : Consensus σ C P} {op : Op C}
    (h : n.handle op = some c) (hd : Disk view n n.logs) (hk : n.KeepsLog op) :
    Disk view c c.logs ∧ n.logs <+: c.logs := by
  have hcalls := calls_handle h
  rw [hcalls.logs_eq]
  exact ⟨hd.calls hv hcalls hk, prefix_of_kept hk⟩

end

/-- What a call leaves behind in memory. -/
theorem Disk.restores_iff_kept {n m : Consensus (MockStorage C) C P} {l : List (LogEntry C)}
    (h : Disk MockStorage.logs n l) (hp : Persisted n m) : Restores m ↔ Kept l m.logs := by
  obtain ⟨x, hx, hm, hlogs, hterm, hvote⟩ := hp
  have hdisk : Disk MockStorage.logs x l := ⟨by rw [hx.1]; exact h.1, by rw [hx.2]; exact h.2⟩
  have hst : m.storage = x.persistState.storage := hm.1
  -- the metadata is stored in any case
  have hmeta : x.persistState.storage.state = ⟨x.currentTerm, x.votedFor, x.lastApplied⟩ := by
    simp only [Consensus.persistState, Consensus.persisted]
    split <;> rfl
  rw [hlogs, ← logs_persistState_eq_iff MockStorage.appends hdisk, Restores, hlogs, hterm, hvote,
    hst]
  constructor
  · exact fun hr ↦ hr.1
  · exact fun hr ↦ ⟨hr, congrArg PersistentState.currentTerm hmeta,
      congrArg PersistentState.votedFor hmeta⟩

/-! ## Runs -/

theorem Consensus.Calls.all_restore_iff {n n' : Consensus (MockStorage C) C P}
    {ms : List (Consensus (MockStorage C) C P)} (h : Calls n ms n') {l : List (LogEntry C)}
    (hd : Disk MockStorage.logs n l) :
    (∀ m ∈ ms, Restores m) ↔ List.IsChain Kept (l :: ms.map Consensus.logs) := by
  induction h generalizing l with
  | nil => simp
  | @cons n m n' ms hp hs ih =>
    rw [List.forall_mem_cons, List.map_cons, List.isChain_cons_cons, hd.restores_iff_kept hp]
    exact and_congr_right fun hk ↦ ih (hd.persisted MockStorage.appends hp hk)

theorem Consensus.calls_momentsOf {σ : Type} [Storage σ C] (n : Consensus σ C P)
    (ops : List (Op C)) : ∃ n', Calls n (n.momentsOf ops) n' := by
  induction ops generalizing n with
  | nil => exact ⟨n, .nil ⟨rfl, rfl⟩ rfl⟩
  | cons op ops ih =>
    rw [momentsOf]
    cases h : n.handle op with
    | some c =>
      obtain ⟨n', hn'⟩ := ih c
      exact ⟨n', (calls_handle h).append hn'⟩
    | none =>
      rw [moments_of_panic h]
      exact ⟨n, .nil ⟨rfl, rfl⟩ rfl⟩

/-- The node as it starts, with `st` in its storage. -/
def started (id : String) (st : MockStorage C) (peers : List (ℕ × P)) :
    Consensus (MockStorage C) C P :=
  { (Consensus.new id st : Consensus (MockStorage C) C P) with peers := peers }

/-- **What a restart gives back.**  Over any run, every call of `persist_state` leaves a storage
from which the node can be restored, exactly if at each call the log still starts with what it was
at the call before, and that was not a single entry. -/
theorem restores_iff (id : String) (st : MockStorage C) (peers : List (ℕ × P))
    (ops : List (Op C)) :
    (∀ m ∈ (started id st peers).momentsOf ops, Restores m) ↔
      List.IsChain Kept ((started id st peers).logs ::
        ((started id st peers).momentsOf ops).map Consensus.logs) := by
  obtain ⟨n', h⟩ := (started id st peers).calls_momentsOf ops
  refine h.all_restore_iff ⟨rfl, ?_⟩
  obtain ⟨state, logs⟩ := st
  cases logs <;> rfl

/-- A follower takes over its first entry, and the next heartbeat writes it a second time. -/
theorem not_restores :
    ¬ ∀ m ∈ (started "a" ⟨PersistentState.default, []⟩ [] :
      Consensus (MockStorage ℕ) ℕ ℕ).momentsOf
        [.appendEntries ⟨1, "b", none, none, [⟨7, 1⟩], none⟩,
         .appendEntries ⟨1, "b", some 0, some 1, [], none⟩], Restores m := by
  decide

end Efis
