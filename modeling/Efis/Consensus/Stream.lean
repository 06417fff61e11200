import Efis.Consensus.Commit
import Efis.Consensus.Emission

/-!
# What the nodes of a cluster emit

A node sends the entries of its log on the commit channel one after the other, from index `0` on
(`Streams.step`), so what it has emitted is a list of commands.  In a run in which the
leaders committed only what a majority had, two such lists never contradict each other: one is the
beginning of the other (`commands_comparable`).
-/

set_option autoImplicit false

namespace Efis

open Consensus

open Raft (Confirmed)

variable {n : ℕ} {σ C : Type}

/-- The entry that node `v` emitted in this event. -/
def Event.emittedBy (v : Fin n) : Event n C → Option (CommitEntry C)
  | .commit i e => if i = v then some e else none
  | .accept _ _ _ => none

/-- What node `v` has emitted. -/
def Cluster.emitted (c : Cluster n σ C) (v : Fin n) : List (CommitEntry C) :=
  c.trace.filterMap (Event.emittedBy v)

/-- The commands of it. -/
def Cluster.commands (c : Cluster n σ C) (v : Fin n) : List C :=
  (c.emitted v).map CommitEntry.command

section

variable {c : Cluster n σ C} {v : Fin n}

theorem Cluster.mem_emitted {e : CommitEntry C} : e ∈ c.emitted v ↔ .commit v e ∈ c.trace := by
  rw [emitted, List.mem_filterMap]
  constructor
  · rintro ⟨ev, hmem, hev⟩
    cases ev with
    | commit i e' =>
      rw [Event.emittedBy] at hev
      split at hev
      · rename_i hi
        obtain rfl := Option.some_inj.mp hev
        exact hi ▸ hmem
      · cases hev
    | accept _ _ _ => cases hev
  · exact fun h ↦ ⟨_, h, if_pos rfl⟩

theorem filterMap_emittedBy_self (es : List (CommitEntry C)) :
    (es.map (Event.commit v)).filterMap (Event.emittedBy v) = es := by
  induction es with
  | nil => rfl
  | cons e es ih => simp [Event.emittedBy, ih]

theorem filterMap_emittedBy_of_ne {i : Fin n} (h : i ≠ v) (es : List (CommitEntry C)) :
    (es.map (Event.commit i)).filterMap (Event.emittedBy v) = [] := by
  induction es with
  | nil => rfl
  | cons e es ih => simp [Event.emittedBy, h, ih]

end

variable [Storage σ C] {cfg : Config n σ C} {c c' : Cluster n σ C}

/-- Nothing is emitted in a step that is no `SendCommit`. -/
theorem Cluster.emitted_of_ne {l : Label n σ C} (hl : l.Alive) (hs : c.step l = some c')
    (hne : ∀ i, l ≠ .sendCommit i) (v : Fin n) : c'.emitted v = c.emitted v := by
  cases l with
  | restart i left => exact absurd hl id
  | crashVote k left => exact absurd hl id
  | crashAppend k left => exact absurd hl id
  | sendCommit i => exact absurd rfl (hne i)
  | submit i cmd =>
    obtain ⟨-, rfl⟩ := Cluster.on_eq_some.mp hs
    rfl
  | startElection i elapsed =>
    obtain ⟨-, rfl⟩ := Cluster.on_eq_some.mp hs
    rw [Cluster.startElection]
    split <;> rfl
  | sendAes i =>
    obtain ⟨-, rfl⟩ := Cluster.on_eq_some.mp hs
    rw [Cluster.sendAes]
    split <;> rfl
  | voteReq k =>
    obtain ⟨m, -, rfl⟩ := Cluster.step_voteReq hs
    rfl
  | voteReply k =>
    obtain ⟨m, -, rfl⟩ := Cluster.step_voteReply hs
    rfl
  | appendReq k =>
    obtain ⟨m, -, rfl⟩ := Cluster.step_appendReq hs
    rw [Cluster.appendEntries]
    dsimp only
    split
    · rfl
    · dsimp only [Cluster.emitted]
      split
      · rw [List.filterMap_append]
        simp [Event.emittedBy]
      · rfl
  | appendReply k =>
    obtain ⟨m, -, rfl⟩ := Cluster.step_appendReply hs
    rw [Cluster.aeRes]
    split <;> rfl

/-- The node that takes a step emits what it emits, and the others nothing. -/
theorem Cluster.step_emitted {l : Label n σ C} (hl : l.Alive) (hs : c.step l = some c') {i : Fin n}
    {op : Op C} (hask : c.ask l = some (i, op)) (v : Fin n) :
    c'.emitted v = c.emitted v ++ if v = i then (c.nodes i).emits op else [] := by
  by_cases hsend : ∃ j, l = .sendCommit j
  · obtain ⟨j, rfl⟩ := hsend
    obtain ⟨rfl, rfl⟩ := Prod.mk.inj (Option.some_inj.mp hask)
    obtain ⟨-, rfl⟩ := Cluster.on_eq_some.mp hs
    rw [Cluster.sendCommit]
    cases hm : (c.nodes j).sendCommits with
    | none => simp [emits, hm, Cluster.emitted, Cluster.fail]
    | some p =>
      refine (List.filterMap_append ..).trans (congrArg (c.emitted v ++ ·) ?_)
      by_cases hv : v = j
      · rw [if_pos hv, emits, hm, hv]
        exact filterMap_emittedBy_self p.2
      · rw [if_neg hv]
        exact filterMap_emittedBy_of_ne (Ne.symm hv) p.2
  · have hne : ∀ j, l ≠ .sendCommit j := fun j h ↦ hsend ⟨j, h⟩
    have hop : op ≠ .sendCommit := by
      rintro rfl
      cases l <;> simp [Cluster.ask] at hask
      · exact hne _ rfl
    rw [Cluster.emitted_of_ne hl hs hne, emits_of_ne _ hop, ite_self, List.append_nil]

theorem emits_of_panic {P : Type} {m : Consensus σ C P} {op : Op C} (h : m.handle op = none) :
    m.emits op = [] := by
  by_cases hop : op = .sendCommit
  · subst hop
    rw [emits, Option.map_eq_none_iff.mp h]
    rfl
  · exact emits_of_ne m hop

/-! ## From index `0` on -/

/-- The length of a log is a `usize`. -/
def Cluster.Sized (c : Cluster n σ C) : Prop := ∀ v, (c.nodes v).logs.length ≤ usizeMax

instance (c : Cluster n σ C) : Decidable c.Sized :=
  inferInstanceAs (Decidable (∀ v, (c.nodes v).logs.length ≤ usizeMax))

/-- The node has emitted the entries with the first indices, and goes on with the next. -/
structure Streams (c : Cluster n σ C) (v : Fin n) : Prop where
  applied : (c.nodes v).Applied
  next : (c.nodes v).nextCommit = (c.emitted v).length
  index : (c.emitted v).map CommitEntry.index = List.range (c.emitted v).length

theorem Streams.step {v : Fin n} (h : Streams c v) (hsize : c.Sized) {l : Label n σ C}
    (hl : l.Alive) (hs : c.step l = some c') : Streams c' v := by
  obtain ⟨i, op, hask, -, hdoes⟩ := Cluster.step_handle hl hs
  have he := Cluster.step_emitted hl hs hask v
  have hstill : c'.nodes v = c.nodes v → c'.emitted v = c.emitted v → Streams c' v :=
    fun hn he ↦ ⟨hn ▸ h.applied, by rw [hn, he, h.next], by rw [he]; exact h.index⟩
  by_cases hv : v = i
  · subst hv
    rw [if_pos rfl] at he
    rcases hdoes with ⟨m, hm, hn, -⟩ | ⟨hm, hn, -⟩
    · have hnode : c'.nodes v = m := by rw [hn, Function.update_self]
      have hem := Emits.handle hm h.applied (hsize v)
      rw [← hnode] at hem
      refine ⟨hem.applied, ?_, ?_⟩
      · rw [he, hem.next, h.next, List.length_append, List.length_map]
      · have hidx := hem.index
        rw [List.map_map, h.next, List.length_map] at hidx
        rw [he, List.map_append, h.index, List.length_append, List.range_eq_range',
          List.range_eq_range', ← List.range'_append_1, Nat.zero_add]
        exact congrArg (List.range' 0 (c.emitted v).length ++ ·) hidx
    · exact hstill (by rw [hn]) (by rw [he, emits_of_panic hm, List.append_nil])
  · rw [if_neg hv, List.append_nil] at he
    rcases hdoes with ⟨m, -, hn, -⟩ | ⟨-, hn, -⟩
    · exact hstill (by rw [hn, Function.update_of_ne hv]) he
    · exact hstill (by rw [hn]) he

theorem Config.Fresh.lastApplied (hf : cfg.Fresh) (v : Fin n) :
    (cfg.node v).lastApplied = none := by
  obtain ⟨peers, hp, -⟩ := cfg.node_spec v
  rw [hp]
  simp [Consensus.new, restoreState, hf v, PersistentState.default]

theorem Streams.init (hf : cfg.Fresh) (v : Fin n) : Streams cfg.init v := by
  have hnone : (cfg.init.nodes v).lastApplied = none := hf.lastApplied v
  refine ⟨?_, ?_, rfl⟩
  · rw [Consensus.Applied, hnone]
    simp
  · rw [Consensus.nextCommit, hnone]
    rfl

/-! ## Agreement -/

/-- What the streams of a state have in common with the protocol. -/
theorem Commits.command_eq {g : Fin n → ℕ → Option String} {s : Raft.State (Fin n) (LogEntry C)}
    (h : Commits c s) (hs : Sim cfg c g s) {v w : Fin n} {e e' : CommitEntry C}
    (he : e ∈ c.emitted v) (he' : e' ∈ c.emitted w) (hidx : e.index = e'.index) :
    e.command = e'.command := by
  obtain ⟨t, k, hconf, hcmd⟩ := h.event v e (Cluster.mem_emitted.mp he)
  obtain ⟨u, m, hconf', hcmd'⟩ := h.event w e' (Cluster.mem_emitted.mp he')
  rw [hidx] at hcmd
  obtain ⟨x, hx, hxc⟩ := Option.map_eq_some_iff.mp hcmd
  obtain ⟨y, hy, hyc⟩ := Option.map_eq_some_iff.mp hcmd'
  rw [← hxc, ← hyc]
  rcases hs.inv.confirmed_comparable hconf hconf' with hp | hp
  · rw [Raft.getElem?_of_isPrefix hp hx] at hy
    rw [Option.some_inj.mp hy]
  · rw [Raft.getElem?_of_isPrefix hp hy] at hx
    rw [Option.some_inj.mp hx]

omit [Storage σ C] in
/-- Two streams that agree where they have the same index are comparable. -/
theorem Streams.isPrefix {v w : Fin n} (hv : Streams c v) (hw : Streams c w)
    (heq : ∀ e ∈ c.emitted v, ∀ e' ∈ c.emitted w, e.index = e'.index → e.command = e'.command)
    (hle : (c.emitted v).length ≤ (c.emitted w).length) : c.commands v <+: c.commands w := by
  have hindex : ∀ {u : Fin n}, Streams c u → ∀ {i : ℕ} {e : CommitEntry C},
      (c.emitted u)[i]? = some e → e.index = i := by
    intro u hu i e hi
    have h := congrArg (·[i]?) hu.index
    simp only [List.getElem?_map, hi, Option.map_some] at h
    obtain ⟨hlt, -⟩ := List.getElem?_eq_some_iff.mp hi
    rw [List.getElem?_range hlt] at h
    exact Option.some_inj.mp h
  rw [List.prefix_iff_getElem?]
  intro i hi
  rw [Cluster.commands, List.length_map] at hi
  have hv' : (c.emitted v)[i]? = some (c.emitted v)[i] := List.getElem?_eq_getElem hi
  have hw' : (c.emitted w)[i]? = some (c.emitted w)[i] := List.getElem?_eq_getElem (by omega)
  have hcmd := heq _ (List.mem_of_getElem? hv') _ (List.mem_of_getElem? hw')
    ((hindex hv hv').trans (hindex hw hw').symm)
  simp only [Cluster.commands, List.getElem?_map, hw', Option.map_some, List.getElem_map, hcmd]

end Efis
