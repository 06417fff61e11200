import Efis.Store.Progress
import Mathlib.Data.Finset.Dedup
import Mathlib.Data.Finset.Lattice.Lemmas

/-!
# Lists and sets over several commands

A list is meant to be a double-ended queue, and a set to collect what is added to it.  But every
push, and every addition to a set, puts an empty value under the key before it changes it.  So
nothing accumulates: after a push the list is what this push has pushed (`ListOp.replace`), and the
set is what the last addition has added.

For lists this agrees with the queue exactly as long as every push finds an empty list.  After a
push that does not, the list is shorter than the queue, and stays so until a pop finds nothing where
the queue has something, or to the end (`replaceAll_ne_of_length_lt`).
-/

set_option autoImplicit false

namespace Efis

open Transition

variable {F : Type}

/-! ## Queues -/

/-- What can be done to a list. -/
inductive ListOp where
  | lpush (values : List String)
  | rpush (values : List String)
  | lpop
  | rpop
  deriving DecidableEq

namespace ListOp

/-- The command, for a key. -/
def command (key : String) : ListOp → Command F
  | .lpush values => .lpush ⟨key, values⟩
  | .rpush values => .rpush ⟨key, values⟩
  | .lpop => .lpop ⟨key⟩
  | .rpop => .rpop ⟨key⟩

/-- A double-ended queue: what is popped, and what is left. -/
def queue (l : List String) : ListOp → Option String × List String
  | .lpush values => (none, values.foldl (fun l v ↦ v :: l) l)
  | .rpush values => (none, l ++ values)
  | .lpop => (l.head?, l.tail)
  | .rpop => (l.getLast?, l.dropLast)

/-- What the commands do instead: a push begins with an empty list. -/
def replace (l : List String) : ListOp → Option String × List String
  | .lpush values => queue [] (.lpush values)
  | .rpush values => queue [] (.rpush values)
  | op => queue l op

/-- Carry out one operation after the other, and collect what is popped. -/
def runAll (f : List String → ListOp → Option String × List String) :
    List ListOp → List String → List (Option String) × List String
  | [], l => ([], l)
  | op :: ops, l => ((f l op).1 :: (runAll f ops (f l op).2).1, (runAll f ops (f l op).2).2)

/-- A push is made only when the queue is empty. -/
def PushesEmpty : List ListOp → List String → Prop
  | [], _ => True
  | op :: ops, l =>
    (op = .lpop ∨ op = .rpop ∨ l = []) ∧ PushesEmpty ops (queue l op).2

instance : (ops : List ListOp) → (l : List String) → Decidable (PushesEmpty ops l)
  | [], _ => inferInstanceAs (Decidable True)
  | op :: ops, l =>
    have := instDecidablePushesEmpty ops (queue l op).2
    inferInstanceAs (Decidable ((op = .lpop ∨ op = .rpop ∨ l = []) ∧ _))

theorem length_foldl_cons (values l : List String) :
    (values.foldl (fun l v ↦ v :: l) l).length = values.length + l.length := by
  induction values generalizing l with
  | nil => rw [List.foldl_nil, List.length_nil, Nat.zero_add]
  | cons v values ih =>
    rw [List.foldl_cons, ih, List.length_cons, List.length_cons]
    omega

/-- A list that is shorter than the queue does not catch up with it. -/
theorem length_replace_lt {l q : List String} (hlt : l.length < q.length) (op : ListOp)
    (heq : (replace l op).1 = (queue q op).1) :
    (replace l op).2.length < (queue q op).2.length := by
  cases op with
  | lpush values =>
    change (values.foldl _ []).length < (values.foldl _ q).length
    rw [length_foldl_cons, length_foldl_cons, List.length_nil]
    omega
  | rpush values =>
    change ([] ++ values).length < (q ++ values).length
    rw [List.nil_append, List.length_append]
    omega
  | lpop =>
    cases l with
    | nil =>
      obtain rfl := List.head?_eq_none_iff.mp heq.symm
      exact absurd hlt (Nat.lt_irrefl 0)
    | cons a l =>
      change l.length < q.tail.length
      rw [List.length_tail]
      rw [List.length_cons] at hlt
      omega
  | rpop =>
    by_cases hl : l = []
    · subst hl
      obtain rfl := List.getLast?_eq_none_iff.mp heq.symm
      exact absurd hlt (Nat.lt_irrefl 0)
    · have hpos := List.length_pos_iff.mpr hl
      change l.dropLast.length < q.dropLast.length
      rw [List.length_dropLast, List.length_dropLast]
      omega

theorem replaceAll_ne_of_length_lt {l q : List String} (hlt : l.length < q.length)
    (ops : List ListOp) : runAll replace ops l ≠ runAll queue ops q := by
  induction ops generalizing l q with
  | nil =>
    intro h
    rw [(Prod.mk.inj h).2] at hlt
    exact absurd hlt (Nat.lt_irrefl _)
  | cons op ops ih =>
    intro h
    obtain ⟨hres, hlist⟩ := Prod.mk.inj h
    obtain ⟨hpop, hrest⟩ := List.cons.inj hres
    exact ih (length_replace_lt hlt op hpop) (Prod.ext hrest hlist)

/-- **When the commands are those of a queue.** -/
theorem replaceAll_eq_iff (ops : List ListOp) (l : List String) :
    runAll replace ops l = runAll queue ops l ↔ PushesEmpty ops l := by
  induction ops generalizing l with
  | nil => exact iff_of_true rfl trivial
  | cons op ops ih =>
    by_cases hop : op = .lpop ∨ op = .rpop ∨ l = []
    · have hstep : replace l op = queue l op := by
        rcases hop with rfl | rfl | rfl
        · rfl
        · rfl
        · cases op <;> rfl
      rw [PushesEmpty, and_iff_right hop, ← ih, runAll, runAll, hstep, Prod.mk.injEq,
        List.cons.injEq, and_iff_right rfl, Prod.ext_iff]
    · -- a push on a list that is not empty
      refine iff_of_false (fun h ↦ ?_) fun h ↦ hop h.1
      have hl : 0 < l.length := List.length_pos_iff.mpr fun hl ↦ hop (Or.inr (Or.inr hl))
      obtain ⟨hres, hlist⟩ := Prod.mk.inj h
      refine replaceAll_ne_of_length_lt ?_ ops (Prod.ext (List.cons.inj hres).2 hlist)
      cases op with
      | lpush values => exact length_replace_lt (l := []) hl (.lpush values) rfl
      | rpush values => exact length_replace_lt (l := []) hl (.rpush values) rfl
      | lpop => exact absurd (Or.inl rfl) hop
      | rpop => exact absurd (Or.inr (Or.inl rfl)) hop

end ListOp

/-! ## Commands -/

variable {num : Numeric} {shard : String → ℕ} {times : ℕ → ℕ} {d : Items F} {key : String}

/-- The moments of calls that nobody is in the way of. -/
def unlocked (times : ℕ → ℕ) (i : ℕ) : Moment := ⟨times i, []⟩

theorem execAt_rebuild (empty : Value F) (f : Value F → Value F) :
    execAt shard (Apply.rebuild key empty f) (unlocked times) d =
      .done (some (.ok "ok"), Function.update d key (some ⟨f empty, none⟩)) := by
  simp [Apply.rebuild, execAt, Call.perform, Datastore.set, Datastore.modify, Datastore.exclusive,
    Datastore.insert, unlocked, Apply.ok]

/-- What a request to pop is answered. -/
def popAnswer : Option String → LateRes
  | some s => .value s
  | none => .err "handler failed: failed to pop value"

theorem execAt_pop {l : List String} {expiry : Option ℕ} (hd : d key = some ⟨.list l, expiry⟩)
    (f : List String → Option String × List String) :
    execAt shard (Apply.pop key f) (unlocked times) d =
      .done (some (popAnswer (f l).1), Function.update d key (some ⟨.list (f l).2, expiry⟩)) := by
  cases hf : (f l).1 with
  | none =>
    simp [Apply.pop, execAt, Call.perform, Datastore.modify, Datastore.exclusive, Datastore.insert,
      unlocked, hd, hf, Apply.internal, popAnswer]
  | some s =>
    simp [Apply.pop, execAt, Call.perform, Datastore.modify, Datastore.exclusive, Datastore.insert,
      unlocked, hd, hf, popAnswer]

theorem execAt_pop_absent (hd : d key = none) (f : List String → Option String × List String) :
    execAt shard (Apply.pop key f) (unlocked times) d =
      .done (some (.err "handler failed: key not found"), d) := by
  simp [Apply.pop, execAt, Call.perform, Datastore.modify, Datastore.exclusive, unlocked, hd,
    Apply.internal]

/-! ## Lists -/

/-- What was popped, if anything was. -/
def popped : Option LateRes → Option String
  | some (.value s) => some s
  | _ => none

@[simp] theorem popped_popAnswer (v : Option String) : popped (some (popAnswer v)) = v := by
  cases v <;> rfl

/-- The list under a key.  A key that is absent has the empty list. -/
def HasList (d : Items F) (key : String) (l : List String) : Prop :=
  d key = none ∧ l = [] ∨ ∃ expiry, d key = some ⟨.list l, expiry⟩

theorem HasList.unique {l l' : List String} (h : HasList d key l) (h' : HasList d key l') :
    l = l' := by
  rcases h with ⟨hd, rfl⟩ | ⟨e, hd⟩ <;> rcases h' with ⟨hd', rfl⟩ | ⟨e', hd'⟩
  · rfl
  · rw [hd] at hd'
    cases hd'
  · rw [hd] at hd'
    cases hd'
  · rw [hd] at hd'
    cases hd'
    rfl

theorem HasList.pop {l : List String} (h : HasList d key l)
    {f : List String → Option String × List String} (hf : f [] = (none, [])) :
    ∃ a d', execAt shard (Apply.pop key f) (unlocked times) d = .done (a, d') ∧
      popped a = (f l).1 ∧ HasList d' key (f l).2 := by
  rcases h with ⟨hd, rfl⟩ | ⟨expiry, hd⟩
  · rw [hf]
    exact ⟨_, _, execAt_pop_absent hd f, rfl, Or.inl ⟨hd, rfl⟩⟩
  · exact ⟨_, _, execAt_pop hd f, popped_popAnswer _, Or.inr ⟨expiry, Function.update_self ..⟩⟩

/-- One command on a list. -/
theorem HasList.step {l : List String} (h : HasList d key l) (num : Numeric)
    (shard : String → ℕ) (times : ℕ → ℕ) (op : ListOp) :
    ∃ a d', execAt shard ((op.command key).program num) (unlocked times) d = .done (a, d') ∧
      popped a = (op.replace l).1 ∧ HasList d' key (op.replace l).2 := by
  cases op with
  | lpush values =>
    exact ⟨_, _, execAt_rebuild _ _, rfl, Or.inr ⟨none, Function.update_self ..⟩⟩
  | rpush values =>
    exact ⟨_, _, execAt_rebuild _ _, rfl, Or.inr ⟨none, Function.update_self ..⟩⟩
  | lpop => exact h.pop rfl
  | rpop => exact h.pop rfl

/-- The commands of a client that works on one list, with the times of their calls. -/
def listWork (key : String) (work : List (ListOp × (ℕ → ℕ))) :
    List (Command F × (ℕ → Moment)) :=
  work.map fun w ↦ (w.1.command key, unlocked w.2)

/-- **The commands replace.** -/
theorem HasList.run {l : List String} (h : HasList d key l) (num : Numeric)
    (shard : String → ℕ) (work : List (ListOp × (ℕ → ℕ))) :
    ∃ as d', applyAll num shard (listWork key work) d = .done (as, d') ∧
      as.map popped = (ListOp.runAll ListOp.replace (work.map Prod.fst) l).1 ∧
      HasList d' key (ListOp.runAll ListOp.replace (work.map Prod.fst) l).2 := by
  induction work generalizing d l with
  | nil => exact ⟨[], d, rfl, rfl, h⟩
  | cons w work ih =>
    obtain ⟨a, d₁, ha, hpop, h₁⟩ := h.step num shard w.2 w.1
    obtain ⟨as, d', has, hpops, h'⟩ := ih h₁
    refine ⟨a :: as, d', applyAll_cons.mpr ⟨a, d₁, as, ha, has, rfl⟩, ?_, h'⟩
    rw [List.map_cons, hpop, hpops]
    rfl

/-! ## Sets -/

/-- The set under a key.  A key that is absent has the empty set. -/
def HasSet (d : Items F) (key : String) (s : Finset String) : Prop :=
  d key = none ∧ s = ∅ ∨ ∃ expiry, d key = some ⟨.set s, expiry⟩

theorem HasSet.unique {s s' : Finset String} (h : HasSet d key s) (h' : HasSet d key s') :
    s = s' := by
  rcases h with ⟨hd, rfl⟩ | ⟨e, hd⟩ <;> rcases h' with ⟨hd', rfl⟩ | ⟨e', hd'⟩
  · rfl
  · rw [hd] at hd'
    cases hd'
  · rw [hd] at hd'
    cases hd'
  · rw [hd] at hd'
    cases hd'
    rfl

/-- The additions to one set, with the times of their calls. -/
def setWork (key : String) (work : List (List String × (ℕ → ℕ))) :
    List (Command F × (ℕ → Moment)) :=
  work.map fun w ↦ (.sadd ⟨key, w.1⟩, unlocked w.2)

theorem foldl_insert (values : List String) (s : Finset String) :
    values.foldl (fun s v ↦ insert v s) s = s ∪ values.toFinset := by
  induction values generalizing s with
  | nil => rw [List.foldl_nil, List.toFinset_nil, Finset.union_empty]
  | cons v values ih =>
    rw [List.foldl_cons, ih, List.toFinset_cons, Finset.insert_union, Finset.union_insert]

theorem execAt_sadd (values : List String) :
    execAt shard ((Command.sadd ⟨key, values⟩).program num) (unlocked times) d =
      .done (some (.ok "ok"), Function.update d key (some ⟨.set values.toFinset, none⟩)) := by
  rw [← Finset.empty_union values.toFinset, ← foldl_insert]
  exact execAt_rebuild _ _

/-- Only the last addition counts. -/
theorem HasSet.run {values : List String} (h : HasSet d key values.toFinset) (num : Numeric)
    (shard : String → ℕ) (work : List (List String × (ℕ → ℕ))) :
    ∃ as d', applyAll num shard (setWork key work) d = .done (as, d') ∧
      HasSet d' key (((work.map Prod.fst).getLast?.getD values).toFinset) := by
  induction work generalizing d values with
  | nil => exact ⟨[], d, rfl, h⟩
  | cons w work ih =>
    have hset : HasSet (Function.update d key (some ⟨.set w.1.toFinset, none⟩)) key
        w.1.toFinset := Or.inr ⟨none, Function.update_self ..⟩
    obtain ⟨as, d', has, h'⟩ := ih hset
    refine ⟨_, d', applyAll_cons.mpr ⟨_, _, as, execAt_sadd w.1, has, rfl⟩, ?_⟩
    rw [List.map_cons, List.getLast?_cons]
    exact h'

/-! ## Accumulating -/

theorem listWork_queue_iff (hd : d key = none) (work : List (ListOp × (ℕ → ℕ))) :
    (∃ as d', applyAll num shard (listWork key work) d = .done (as, d') ∧
      as.map popped = (ListOp.runAll ListOp.queue (work.map Prod.fst) []).1 ∧
      HasList d' key (ListOp.runAll ListOp.queue (work.map Prod.fst) []).2) ↔
    ListOp.PushesEmpty (work.map Prod.fst) [] := by
  have hlist : HasList d key [] := Or.inl ⟨hd, rfl⟩
  obtain ⟨as, d', hrun, hpops, hleft⟩ := hlist.run num shard work
  rw [← ListOp.replaceAll_eq_iff]
  constructor
  · rintro ⟨as', d'', hrun', hpops', hleft'⟩
    obtain ⟨rfl, rfl⟩ := CallResult.pair_inj (hrun.symm.trans hrun')
    exact Prod.ext (hpops.symm.trans hpops') (hleft.unique hleft')
  · intro heq
    rw [← heq]
    exact ⟨as, d', hrun, hpops, hleft⟩

/-- The last of several lists has all that is in any of them. -/
theorem toFinset_flatten_eq_iff (ls : List (List String)) :
    ls.flatten.toFinset = (ls.getLast?.getD []).toFinset ↔
      ∀ v ∈ ls.flatten, v ∈ ls.getLast?.getD [] := by
  have hsub : (ls.getLast?.getD []).toFinset ⊆ ls.flatten.toFinset := by
    intro v hv
    rw [List.mem_toFinset] at hv ⊢
    cases hlast : ls.getLast? with
    | none =>
      rw [hlast] at hv
      exact absurd hv List.not_mem_nil
    | some l =>
      rw [hlast] at hv
      exact List.mem_flatten.mpr ⟨l, List.mem_of_getLast? hlast, hv⟩
  rw [Finset.Subset.antisymm_iff, and_iff_left hsub, Finset.subset_iff]
  simp only [List.mem_toFinset]

theorem setWork_union_iff (hd : d key = none) (work : List (List String × (ℕ → ℕ))) :
    (∃ as d', applyAll num shard (setWork key work) d = .done (as, d') ∧
      HasSet d' key (work.map Prod.fst).flatten.toFinset) ↔
    ∀ v ∈ (work.map Prod.fst).flatten, v ∈ (work.map Prod.fst).getLast?.getD [] := by
  have hset : HasSet d key ([] : List String).toFinset := Or.inl ⟨hd, rfl⟩
  obtain ⟨as, d', hrun, hleft⟩ := hset.run num shard work
  rw [← toFinset_flatten_eq_iff]
  constructor
  · rintro ⟨as', d'', hrun', hleft'⟩
    obtain ⟨rfl, rfl⟩ := CallResult.pair_inj (hrun.symm.trans hrun')
    exact hleft'.unique hleft
  · intro heq
    rw [heq]
    exact ⟨as, d', hrun, hleft⟩

/-- **When lists and sets accumulate.**  Beginning with an absent key, the commands on a list pop
what a double-ended queue would and leave what it would, exactly if every push finds the queue
empty; and a set ends up with all that was added to it exactly if the last addition has added all
of it. -/
theorem accumulates_iff (num : Numeric) (shard : String → ℕ) {d : Items F} {key : String}
    (hd : d key = none) :
    (∀ work : List (ListOp × (ℕ → ℕ)),
      (∃ as d', applyAll num shard (listWork key work) d = .done (as, d') ∧
        as.map popped = (ListOp.runAll ListOp.queue (work.map Prod.fst) []).1 ∧
        HasList d' key (ListOp.runAll ListOp.queue (work.map Prod.fst) []).2) ↔
      ListOp.PushesEmpty (work.map Prod.fst) []) ∧
    ∀ work : List (List String × (ℕ → ℕ)),
      (∃ as d', applyAll num shard (setWork key work) d = .done (as, d') ∧
        HasSet d' key (work.map Prod.fst).flatten.toFinset) ↔
      ∀ v ∈ (work.map Prod.fst).flatten, v ∈ (work.map Prod.fst).getLast?.getD [] :=
  ⟨listWork_queue_iff hd, setWork_union_iff hd⟩

/-- Two values are pushed and popped from either side, and then another one is pushed; and a set is
added to that has nothing else in it. -/
theorem accumulates_iff_sample :
    (∃ as d', applyAll Replica.oneTwo (fun _ ↦ 0) (listWork "k" [(.lpush ["a", "b"], id),
        (.lpop, id), (.rpop, id), (.rpush ["c"], id)]) (fun _ ↦ none : Items Unit) =
          .done (as, d') ∧
      as.map popped = [none, some "b", some "a", none] ∧ HasList d' "k" ["c"]) ∧
    ∃ as d', applyAll Replica.oneTwo (fun _ ↦ 0) (setWork "k" [(["a"], id), (["a", "b"], id)])
        (fun _ ↦ none : Items Unit) = .done (as, d') ∧
      HasSet d' "k" (["a"] ++ ["a", "b"]).toFinset := by
  have h := @accumulates_iff Unit Replica.oneTwo (fun _ ↦ 0) (fun _ ↦ none) "k" rfl
  exact ⟨(h.1 [(.lpush ["a", "b"], id), (.lpop, id), (.rpop, id), (.rpush ["c"], id)]).mpr
      (by decide),
    (h.2 [(["a"], id), (["a", "b"], id)]).mpr (by decide)⟩

/-- A second push empties the list first, so that the first value is gone; and so it is with a
second addition to a set. -/
theorem not_accumulates :
    (∃ as d', applyAll Replica.oneTwo (fun _ ↦ 0) (listWork "k" [(.rpush ["a"], id),
        (.rpush ["b"], id), (.lpop, id)]) (fun _ ↦ none : Items Unit) = .done (as, d') ∧
      as.map popped = [none, none, some "b"] ∧
      ListOp.runAll ListOp.queue [.rpush ["a"], .rpush ["b"], .lpop] [] =
        ([none, none, some "a"], ["b"]) ∧ HasList d' "k" []) ∧
    ∃ as d', applyAll Replica.oneTwo (fun _ ↦ 0) (setWork "k" [(["a"], id), (["b"], id)])
        (fun _ ↦ none : Items Unit) = .done (as, d') ∧ HasSet d' "k" {"b"} ∧
      ({"b"} : Finset String) ≠ ["a", "b"].toFinset :=
  ⟨⟨_, _, rfl, rfl, rfl, Or.inr ⟨none, rfl⟩⟩, _, _, rfl, Or.inr ⟨none, rfl⟩, by decide⟩

end Efis
