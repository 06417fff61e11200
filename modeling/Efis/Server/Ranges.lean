import Efis.Server.Standalone
import Efis.Store.Collections

/-!
# Ranges of a sorted set

A sorted set is a map from scores to members, and `zrange` is meant to return the members of the
ranks in a half-open range.  Two things are in the way.  Like a push, every `zadd` begins with an
empty set, so that there is never more than one member.  And the comparison of the two bounds is the
wrong way round: a range that has something in it gives the empty list, and only a range that has
nothing in it is sliced, which panics unless the bounds are equal and within the set.

So the answer is right only where it is empty (`zrange_eq_iff`).
-/

set_option autoImplicit false

namespace Efis

open Rpc Transition

variable {F : Type}

/-! ## Maps by score -/

/-- The map that results from one insertion after the other. -/
def scoreMap (entries : List (Int64 × String)) : List (Int64 × String) :=
  entries.foldl (fun m e ↦ sortedInsert e.1 e.2 m) []

theorem mem_keys_sortedInsert {score k : Int64} {v : String} {m : List (Int64 × String)} :
    k ∈ (sortedInsert score v m).map Prod.fst ↔ k = score ∨ k ∈ m.map Prod.fst := by
  induction m with
  | nil => simp [sortedInsert]
  | cons e m ih =>
    obtain ⟨l, w⟩ := e
    rw [sortedInsert]
    split_ifs with hlt heq
    · simp
    · simp [heq]
    · rw [List.map_cons, List.map_cons, List.mem_cons, List.mem_cons, ih]
      exact or_left_comm

/-- The scores are in order, each of them once. -/
theorem sorted_sortedInsert (score : Int64) (v : String) {m : List (Int64 × String)}
    (h : (m.map Prod.fst).Pairwise (· < ·)) :
    ((sortedInsert score v m).map Prod.fst).Pairwise (· < ·) := by
  induction m with
  | nil => simp [sortedInsert]
  | cons e m ih =>
    obtain ⟨l, w⟩ := e
    obtain ⟨hl, hm⟩ := List.pairwise_cons.mp h
    rw [sortedInsert]
    split_ifs with hlt heq
    · refine List.pairwise_cons.mpr ⟨fun k hk ↦ ?_, h⟩
      rcases List.mem_cons.mp hk with rfl | hk
      · exact hlt
      · exact Int64.lt_trans hlt (hl k hk)
    · rw [heq]
      exact List.pairwise_cons.mpr ⟨hl, hm⟩
    · refine List.pairwise_cons.mpr ⟨fun k hk ↦ ?_, ih hm⟩
      rcases mem_keys_sortedInsert.mp hk with rfl | hk
      · exact Int64.lt_of_le_of_ne (Int64.not_lt.mp hlt) (Ne.symm heq)
      · exact hl k hk

theorem foldl_sortedInsert (entries : List (Int64 × String)) {m : List (Int64 × String)}
    (h : (m.map Prod.fst).Pairwise (· < ·)) :
    ((entries.foldl (fun m e ↦ sortedInsert e.1 e.2 m) m).map Prod.fst).Pairwise (· < ·) ∧
      ∀ k, k ∈ (entries.foldl (fun m e ↦ sortedInsert e.1 e.2 m) m).map Prod.fst ↔
        k ∈ entries.map Prod.fst ∨ k ∈ m.map Prod.fst := by
  induction entries generalizing m with
  | nil => exact ⟨h, fun k ↦ by simp⟩
  | cons e entries ih =>
    obtain ⟨hsorted, hmem⟩ := ih (sorted_sortedInsert e.1 e.2 h)
    refine ⟨hsorted, fun k ↦ ?_⟩
    rw [List.foldl_cons, hmem, mem_keys_sortedInsert, List.map_cons, List.mem_cons]
    exact or_left_comm.trans or_assoc.symm

/-- There are as many members as there are different scores. -/
theorem length_scoreMap (entries : List (Int64 × String)) :
    (scoreMap entries).length = (entries.map Prod.fst).dedup.length := by
  obtain ⟨hsorted, hmem⟩ := foldl_sortedInsert entries (m := []) List.Pairwise.nil
  have hnodup : ((scoreMap entries).map Prod.fst).Nodup :=
    List.Pairwise.imp (fun hlt ↦ Int64.ne_of_lt hlt) hsorted
  have hperm : ((scoreMap entries).map Prod.fst).Perm (entries.map Prod.fst).dedup := by
    refine (List.perm_ext_iff_of_nodup hnodup (List.nodup_dedup _)).mpr fun k ↦ ?_
    rw [List.mem_dedup]
    exact (hmem k).trans (by simp)
  rw [← hperm.length_eq, List.length_map]

/-! ## The method -/

/-- The body of `zrange`.  The slice panics where the range is not in the list. -/
def zrange (now : ℕ) (s : Datastore F) (req : MapRange) :
    CallResult (Except String (List String)) :=
  match s.getSync now req.key with
  | .done (none, _) => .done (.error "key not found")
  | .done (some (.sortedSet zset), _) =>
    if req.start < req.stop then .done (.ok [])
    else if req.start ≤ req.stop ∧ req.stop ≤ zset.length then
      .done (.ok (((zset.map Prod.snd).take req.stop).drop req.start))
    else .panicked
  | .done (some _, _) => .done (.error "invalid type: expected SortedMap")
  | .blocked => .blocked
  | .panicked => .panicked

/-- What a client is sent for it. -/
def rangeAnswer : CallResult (Except String (List String)) → Answer
  | .done (.ok l) => .ok (ListRes.mk l)
  | .done (.error msg) => .internal msg
  | .blocked | .panicked => .silent

/-- The method of the process answers with what this body gives. -/
theorem zrangeMethod_eq (lib : Libraries F) (now : ℕ) (s : Datastore F) (req : MapRange) :
    (zrangeMethod lib now s req).1 = rangeAnswer (zrange now s req) := by
  rw [zrangeMethod, readKey, zrange, Datastore.getSync]
  cases s.data req.key with
  | none => rfl
  | some item =>
    by_cases he : item.expired now
    · simp only [he, if_true, rangeAnswer]
    · obtain ⟨value, expiry⟩ := item
      cases value with
      | sortedSet zset =>
        simp only [he, if_false]
        split_ifs <;> rfl
      | _ => simp only [he, if_false, rangeAnswer]

/-! ## Commands and ranges -/

variable {num : Numeric} {shard : String → ℕ} {times : ℕ → ℕ} {d : Items F} {key : String}

/-- The additions to one sorted set, with the times of their calls. -/
def zaddWork (key : String) (work : List ((Int64 × String) × (ℕ → ℕ))) :
    List (Command F × (ℕ → Moment)) :=
  work.map fun w ↦ (.zadd ⟨key, w.1.1, w.1.2⟩, unlocked w.2)

/-- Only the last addition counts. -/
theorem applyAll_zaddWork (num : Numeric) (shard : String → ℕ) (key : String)
    (work : List ((Int64 × String) × (ℕ → ℕ))) (d : Items F) :
    ∃ as d', applyAll num shard (zaddWork key work) d = .done (as, d') ∧
      d' key = ((work.map Prod.fst).getLast?.map fun e ↦ ⟨.sortedSet [e], none⟩).or (d key) := by
  induction work generalizing d with
  | nil => exact ⟨[], d, rfl, rfl⟩
  | cons w work ih =>
    have hone : execAt shard ((Command.zadd ⟨key, w.1.1, w.1.2⟩).program num) (unlocked w.2) d =
        .done (some (.ok "ok"), Function.update d key (some ⟨.sortedSet [w.1], none⟩)) :=
      execAt_rebuild _ _
    obtain ⟨as, d', has, hd'⟩ := ih (Function.update d key (some ⟨.sortedSet [w.1], none⟩))
    refine ⟨_, d', applyAll_cons.mpr ⟨_, _, as, hone, has, rfl⟩, ?_⟩
    rw [hd', Function.update_self, List.map_cons, List.getLast?_cons]
    cases (work.map Prod.fst).getLast? <;> rfl

theorem zrange_absent {now : ℕ} (hd : d key = none) (start stop : ℕ) :
    zrange now ⟨d, []⟩ ⟨key, start, stop⟩ = .done (.error "key not found") := by
  simp [zrange, Datastore.getSync, hd]

/-- The answer for a set with one member. -/
theorem zrange_single {now : ℕ} {e : Int64 × String} (hd : d key = some ⟨.sortedSet [e], none⟩)
    (start stop : ℕ) :
    zrange now ⟨d, []⟩ ⟨key, start, stop⟩ =
      if start < stop ∨ start = stop ∧ start ≤ 1 then .done (.ok []) else .panicked := by
  simp only [zrange, Datastore.getSync, hd, Item.expired]
  by_cases hlt : start < stop
  · simp [hlt]
  · by_cases heq : start = stop ∧ start ≤ 1
    · obtain ⟨rfl, hle⟩ := heq
      simp [hle]
    · have hout : ¬ (start ≤ stop ∧ stop ≤ 1) := by omega
      simp [hlt, heq, hout]

/-- **When a range is right.**  After any sequence of `zadd`, to a key that may be there if the
sequence is not empty, `zrange` returns the members of the ranks in the range exactly if there was
a `zadd` and either the range begins before its end and behind the last member, or it begins at its
end and this is at most `1`. -/
theorem zrange_eq_iff (num : Numeric) (shard : String → ℕ) {d : Items F} {key : String}
    (work : List ((Int64 × String) × (ℕ → ℕ))) (hd : work = [] → d key = none)
    (now start stop : ℕ) :
    (∃ as d', applyAll num shard (zaddWork key work) d = .done (as, d') ∧
      zrange now ⟨d', []⟩ ⟨key, start, stop⟩ =
        .done (.ok ((((scoreMap (work.map Prod.fst)).map Prod.snd).take stop).drop start))) ↔
    work ≠ [] ∧
      (start < stop ∧ ((work.map Prod.fst).map Prod.fst).dedup.length ≤ start ∨
        start = stop ∧ start ≤ 1) := by
  obtain ⟨as, d', hrun, hkey⟩ := applyAll_zaddWork num shard key work d
  have hall : (∃ as d', applyAll num shard (zaddWork key work) d = .done (as, d') ∧
      zrange now ⟨d', []⟩ ⟨key, start, stop⟩ =
        .done (.ok ((((scoreMap (work.map Prod.fst)).map Prod.snd).take stop).drop start))) ↔
      zrange now ⟨d', []⟩ ⟨key, start, stop⟩ =
        .done (.ok ((((scoreMap (work.map Prod.fst)).map Prod.snd).take stop).drop start)) := by
    constructor
    · rintro ⟨as', d'', hrun', h⟩
      obtain ⟨-, rfl⟩ := CallResult.pair_inj (hrun.symm.trans hrun')
      exact h
    · exact fun h ↦ ⟨as, d', hrun, h⟩
  rw [hall]
  cases hlast : (work.map Prod.fst).getLast? with
  | none =>
    have hnil : work = [] := List.map_eq_nil_iff.mp (List.getLast?_eq_none_iff.mp hlast)
    rw [hlast, hd hnil] at hkey
    rw [zrange_absent hkey]
    exact iff_of_false (fun h ↦ by cases h) fun h ↦ h.1 hnil
  | some e =>
    have hne : work ≠ [] := by
      rintro rfl
      cases hlast
    rw [hlast] at hkey
    -- the answer is empty or none at all, so the range has to be
    have hnil : ((((scoreMap (work.map Prod.fst)).map Prod.snd).take stop).drop start) = [] ↔
        stop ≤ start ∨ ((work.map Prod.fst).map Prod.fst).dedup.length ≤ start := by
      rw [List.drop_eq_nil_iff, List.length_take, List.length_map, length_scoreMap, min_le_iff]
    rw [zrange_single hkey, and_iff_right hne]
    split_ifs with h
    · rw [CallResult.done.injEq, Except.ok.injEq, eq_comm, hnil]
      omega
    · exact iff_of_false (fun h ↦ by cases h) fun h' ↦ h (by omega)

/-- Two members are added, and the ranks from `2` are asked for. -/
theorem zrange_eq_iff_behind :
    ∃ as d', applyAll Replica.oneTwo (fun _ ↦ 0) (zaddWork "k" [((2, "b"), id), ((1, "a"), id)])
        (fun _ ↦ none : Items Unit) = .done (as, d') ∧
      zrange 0 ⟨d', []⟩ ⟨"k", 2, 5⟩ = .done (.ok []) :=
  (zrange_eq_iff Replica.oneTwo (fun _ ↦ 0) [((2, "b"), id), ((1, "a"), id)] nofun 0 2 5).mpr
    ⟨nofun, Or.inl (by decide)⟩

/-- One member is added, and the rank `0` is asked for. -/
theorem not_zrange_eq :
    ¬ ∀ (work : List ((Int64 × String) × (ℕ → ℕ))) (start stop : ℕ),
      ∃ as d', applyAll Replica.oneTwo (fun _ ↦ 0) (zaddWork "k" work)
          (fun _ ↦ none : Items Unit) = .done (as, d') ∧
        zrange 0 ⟨d', []⟩ ⟨"k", start, stop⟩ =
          .done (.ok ((((scoreMap (work.map Prod.fst)).map Prod.snd).take stop).drop start)) := by
  intro h
  obtain ⟨as, d', hrun, hrange⟩ := h [((1, "a"), id)] 0 1
  obtain ⟨-, rfl⟩ := CallResult.pair_inj hrun
  cases hrange

end Efis
