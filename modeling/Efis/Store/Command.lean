import Mathlib.Data.Finset.Insert
import Mathlib.Tactic.Common

/-!
# Commands and values

The requests that go through the log, the values they act on, and the vector index that is one of
the kinds of value.  The type of vector components is a parameter: of floating point numbers
nothing is used here but that they can be stored.
-/

set_option autoImplicit false

namespace Efis

variable {F : Type}

/-! ## Requests -/

structure SetReq where
  key : String
  value : String
  exp : Option UInt64
  deriving DecidableEq

structure GetReq where
  key : String
  deriving DecidableEq

structure ExpireReq where
  key : String
  duration : UInt64
  deriving DecidableEq

structure ListReq where
  key : String
  values : List String
  deriving DecidableEq

structure MapReq where
  key : String
  score : Int64
  value : String
  deriving DecidableEq

structure PubReq where
  chan : String
  value : String
  deriving DecidableEq

structure VecReq (F : Type) where
  id : UInt64
  vec : List F
  deriving DecidableEq

structure VSetReq (F : Type) where
  key : String
  vecs : List (VecReq F)
  deriving DecidableEq

structure VDelReq where
  key : String
  id : String
  deriving DecidableEq

inductive Command (F : Type) where
  | set (req : SetReq)
  | delete (req : GetReq)
  | increment (req : GetReq)
  | decrement (req : GetReq)
  | expire (req : ExpireReq)
  | lpush (req : ListReq)
  | lpop (req : GetReq)
  | rpush (req : ListReq)
  | rpop (req : GetReq)
  | sadd (req : ListReq)
  | zadd (req : MapReq)
  | publish (req : PubReq)
  | vset (req : VSetReq F)
  | vdel (req : VDelReq)
  | unknown
  deriving DecidableEq

/-! ## The vector index -/

/-- `FlatIndex`.  The components of all vectors stand one after the other in `vecs`, and `idset`
says for an identifier which of them is its vector. -/
structure FlatIndex (F : Type) where
  dim : ℕ
  vecs : List F
  ids : List UInt64
  idset : List (UInt64 × ℕ)
  length_vecs : vecs.length = dim * ids.length
  lt_length_ids : ∀ p ∈ idset, p.2 < ids.length
  deriving DecidableEq

namespace FlatIndex

def new (n : ℕ) : FlatIndex F where
  dim := n
  vecs := []
  ids := []
  idset := []
  length_vecs := rfl
  lt_length_ids := fun _ h ↦ absurd h List.not_mem_nil

/-- Overwrite the vector of an identifier. -/
def overwrite (x : FlatIndex F) (i : ℕ) (v : List F) (hi : i < x.ids.length)
    (hv : v.length = x.dim) : FlatIndex F :=
  { x with
    vecs := x.vecs.take (x.dim * i) ++ v ++ x.vecs.drop (x.dim * i + x.dim)
    length_vecs := by
      have hle : x.dim * i + x.dim ≤ x.dim * x.ids.length := by
        rw [← Nat.mul_succ]
        exact Nat.mul_le_mul_left _ hi
      have := x.length_vecs
      simp only [List.length_append, List.length_take, List.length_drop, hv]
      omega }

/-- Add the vector of a new identifier. -/
def extend (x : FlatIndex F) (id : UInt64) (v : List F) (hv : v.length = x.dim) :
    FlatIndex F where
  dim := x.dim
  vecs := x.vecs ++ v
  ids := x.ids ++ [id]
  idset := x.idset ++ [(id, x.ids.length)]
  length_vecs := by
    rw [List.length_append, List.length_append, x.length_vecs, hv, Nat.mul_add]
    simp
  lt_length_ids := by
    intro p hp
    rw [List.length_append]
    rcases List.mem_append.mp hp with hp | hp
    · exact (x.lt_length_ids p hp).trans_le (Nat.le_add_right _ _)
    · rw [List.mem_singleton.mp hp]
      exact Nat.lt_succ_self _

def insert (x : FlatIndex F) (id : UInt64) (v : List F) : Except String (FlatIndex F) :=
  if hv : v.length = x.dim then
    match h : x.idset.find? (·.1 = id) with
    | some p => .ok (x.overwrite p.2 v (x.lt_length_ids p (List.mem_of_find?_eq_some h)) hv)
    | none => .ok (x.extend id v hv)
  else .error "vector size is not equal to the original size"

end FlatIndex

/-! ## Values -/

/-- A value.  A sorted set is the list of its entries, by increasing score. -/
inductive Value (F : Type) where
  | text (s : String)
  | list (l : List String)
  | set (s : Finset String)
  | sortedSet (m : List (Int64 × String))
  | vector (x : FlatIndex F)
  deriving DecidableEq

/-- `BTreeMap::insert`. -/
def sortedInsert (score : Int64) (v : String) : List (Int64 × String) → List (Int64 × String)
  | [] => [(score, v)]
  | (k, w) :: m =>
    if score < k then (score, v) :: (k, w) :: m
    else if score = k then (score, v) :: m
    else (k, w) :: sortedInsert score v m

end Efis
