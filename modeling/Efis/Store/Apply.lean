import Efis.Store.Datastore

/-!
# Applying a command

What the apply loop does with each command, as a program of calls to the datastore: `_set`,
`_delete` and so on, with the result that a waiting request would get.
-/

set_option autoImplicit false

namespace Efis

open Transition

variable {F : Type}

/-- What `_increment` and `_decrement` make of a text: it is parsed as a number and the new number
is printed.  `none` if it is not a number. -/
structure Numeric where
  incr : String → Option String
  decr : String → Option String

inductive LateRes where
  | ok (status : String)
  | value (val : String)
  | err (msg : String)
  deriving DecidableEq

/-- A command as a program.  `Unknown` has no result. -/
abbrev ApplyProg (F : Type) := Prog (Call F) Call.Resp (Option LateRes)

namespace Apply

/-- `OkRes` with the status every command gives. -/
def ok : ApplyProg F :=
  .ret (some (.ok "ok"))

/-- `RpcError::Internal`, as it is printed. -/
def internal (msg : String) : ApplyProg F :=
  .ret (some (.err ("handler failed: " ++ msg)))

def set (req : SetReq) : ApplyProg F :=
  .call (.set req.key (.text req.value) req.exp) fun _ ↦ ok

/-- Remove a key, for `_delete` and for `_vdel`, which does not look at the identifier. -/
def removeKey (key : String) : ApplyProg F :=
  .call (.remove key) fun
    | true => ok
    | false => internal ("key not found: " ++ key)

def delete (req : GetReq) : ApplyProg F :=
  removeKey req.key

/-- The modifier of `_increment` and `_decrement`. -/
def bump (op : String → Option String) : Value F → Value F × Option String
  | .text s => (.text ((op s).getD s), none)
  | v => (v, none)

/-- Change a number and read it back. -/
def bumpKey (op : String → Option String) (key : String) : ApplyProg F :=
  .call (.modify key (bump op)) fun
    | none => internal "key not found"
    | some _ => .call (.get key) fun
      | none => internal "key not found"
      | some (.text s) => .ret (some (.value s))
      | some _ => internal "invalid type"

def increment (num : Numeric) (req : GetReq) : ApplyProg F :=
  bumpKey num.incr req.key

def decrement (num : Numeric) (req : GetReq) : ApplyProg F :=
  bumpKey num.decr req.key

def expire (req : ExpireReq) : ApplyProg F :=
  .call (.expire req.key req.duration) fun
    | true => ok
    | false => internal "key not found"

/-- Put an empty value under the key, and then change it.  What was there is gone. -/
def rebuild (key : String) (empty : Value F) (f : Value F → Value F) : ApplyProg F :=
  .call (.set key empty none) fun _ ↦
    .call (.modify key fun v ↦ (f v, none)) fun
      | none => internal "key not found"
      | some _ => ok

def lpush (req : ListReq) : ApplyProg F :=
  rebuild req.key (.list []) fun
    | .list l => .list (req.values.foldl (fun l v ↦ v :: l) l)
    | v => v

def rpush (req : ListReq) : ApplyProg F :=
  rebuild req.key (.list []) fun
    | .list l => .list (l ++ req.values)
    | v => v

def sadd (req : ListReq) : ApplyProg F :=
  rebuild req.key (.set ∅) fun
    | .set s => .set (req.values.foldl (fun s v ↦ insert v s) s)
    | v => v

def zadd (req : MapReq) : ApplyProg F :=
  rebuild req.key (.sortedSet []) fun
    | .sortedSet m => .sortedSet (sortedInsert req.score req.value m)
    | v => v

/-- Take something out of a list. -/
def pop (key : String) (f : List String → Option String × List String) : ApplyProg F :=
  .call (.modify key fun
    | .list l => (.list (f l).2, (f l).1)
    | v => (v, none)) fun
    | none => internal "key not found"
    | some none => internal "failed to pop value"
    | some (some s) => .ret (some (.value s))

def lpop (req : GetReq) : ApplyProg F :=
  pop req.key fun l ↦ (l.head?, l.tail)

def rpop (req : GetReq) : ApplyProg F :=
  pop req.key fun l ↦ (l.getLast?, l.dropLast)

/-- With consensus the number of subscribers does not matter. -/
def publish (_ : PubReq) : ApplyProg F :=
  ok

/-- The loop of `_vset`.  A vector of the wrong size is passed over. -/
def insertAll (x : FlatIndex F) (vecs : List (VecReq F)) : FlatIndex F :=
  vecs.foldl (fun x v ↦ ((x.insert v.id v.vec).toOption).getD x) x

def fillIndex (req : VSetReq F) : ApplyProg F :=
  .call (.modify req.key fun
    | .vector x => (.vector (insertAll x req.vecs), none)
    | v => (v, none)) fun
    | none => internal "key not found"
    | some _ => ok

def vset (req : VSetReq F) : ApplyProg F :=
  .call (.get req.key) fun
    | some _ => fillIndex req
    | none =>
      -- the size of the index is that of the first vector, of which there may be none
      match req.vecs with
      | [] => .fail
      | v :: _ => .call (.set req.key (.vector (FlatIndex.new v.vec.length)) none) fun _ ↦
          fillIndex req

def vdel (req : VDelReq) : ApplyProg F :=
  removeKey req.key

end Apply

/-- The program of a command. -/
def Command.program (num : Numeric) : Command F → ApplyProg F
  | .set req => Apply.set req
  | .delete req => Apply.delete req
  | .increment req => Apply.increment num req
  | .decrement req => Apply.decrement num req
  | .expire req => Apply.expire req
  | .lpush req => Apply.lpush req
  | .lpop req => Apply.lpop req
  | .rpush req => Apply.rpush req
  | .rpop req => Apply.rpop req
  | .sadd req => Apply.sadd req
  | .zadd req => Apply.zadd req
  | .publish req => Apply.publish req
  | .vset req => Apply.vset req
  | .vdel req => Apply.vdel req
  | .unknown => .ret none

/-! ## How many calls a command makes -/

namespace Apply

variable (m : String → Option (Value F))

@[simp] theorem cost_ok : (ok : ApplyProg F).cost Call.eval m = 0 := rfl

@[simp] theorem cost_internal (msg : String) :
    (internal msg : ApplyProg F).cost Call.eval m = 0 := rfl

theorem cost_removeKey (key : String) : (removeKey key).cost Call.eval m ≤ 1 := by
  rw [removeKey, Prog.cost]
  split <;> simp

theorem cost_bumpKey (op : String → Option String) (key : String) :
    (bumpKey op key).cost Call.eval m ≤ 2 := by
  rw [bumpKey, Prog.cost]
  split
  · simp
  · rw [Prog.cost]
    split <;> simp [Prog.cost]

theorem cost_rebuild (key : String) (empty : Value F) (f : Value F → Value F) :
    (rebuild key empty f).cost Call.eval m ≤ 2 := by
  rw [rebuild, Prog.cost, Prog.cost]
  split <;> simp

theorem cost_pop (key : String) (f : List String → Option String × List String) :
    (pop key f).cost Call.eval m ≤ 1 := by
  rw [pop, Prog.cost]
  split <;> simp [Prog.cost]

theorem cost_fillIndex (req : VSetReq F) : (fillIndex req).cost Call.eval m ≤ 1 := by
  rw [fillIndex, Prog.cost]
  split <;> simp

theorem cost_vset (req : VSetReq F) : (vset req).cost Call.eval m ≤ 3 := by
  rw [vset, Prog.cost]
  split
  · have := cost_fillIndex (Call.eval (.get req.key) m).2 req
    omega
  · split
    · simp [Prog.cost]
    · exact Nat.succ_le_succ (Nat.succ_le_succ (cost_fillIndex _ req))

end Apply

theorem Command.cost_program (num : Numeric) (c : Command F) (m : String → Option (Value F)) :
    (c.program num).cost Call.eval m ≤ 3 := by
  cases c with
  | set req => exact Nat.le_of_lt_succ (by simp [program, Apply.set, Prog.cost])
  | delete req => exact (Apply.cost_removeKey m _).trans (by omega)
  | increment req => exact (Apply.cost_bumpKey m _ _).trans (by omega)
  | decrement req => exact (Apply.cost_bumpKey m _ _).trans (by omega)
  | expire req =>
    rw [program, Apply.expire, Prog.cost]
    split <;> simp
  | lpush req => exact (Apply.cost_rebuild m _ _ _).trans (by omega)
  | lpop req => exact (Apply.cost_pop m _ _).trans (by omega)
  | rpush req => exact (Apply.cost_rebuild m _ _ _).trans (by omega)
  | rpop req => exact (Apply.cost_pop m _ _).trans (by omega)
  | sadd req => exact (Apply.cost_rebuild m _ _ _).trans (by omega)
  | zadd req => exact (Apply.cost_rebuild m _ _ _).trans (by omega)
  | publish req => exact Nat.zero_le _
  | vset req => exact Apply.cost_vset m req
  | vdel req => exact (Apply.cost_removeKey m _).trans (by omega)
  | unknown => exact Nat.zero_le _

end Efis
