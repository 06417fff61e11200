import Efis.Rpc.Pieces
import Efis.Server.Gate

/-!
# The methods of the server

What `register_struct` puts into the dispatcher: the methods of `Efis`, and with consensus those of
`ConsensusHandle`, each with its name, the type of its request, and whether it requires the leader.
The way of a request from the dispatcher to the body of a method is a lookup by name, the leader
gate, and the decoder of the request.

A line of a client cannot harm the server on this way, except through the decoder, and only if the
first piece of the request that does not decode is a lone quotation mark or a malformed optional
number (`dispatch_ne_panicked_iff`).
-/

set_option autoImplicit false

namespace Efis

open Rpc Text

/-! ## Requests that are not commands -/

structure MapRange where
  key : String
  start : ℕ
  /-- `end` in the source. -/
  stop : ℕ
  deriving DecidableEq

structure SubReq where
  chan : String
  deriving DecidableEq

structure VSearchReq (F : Type) where
  key : String
  query : List F
  k : ℕ
  deriving DecidableEq

instance : Deserialize MapRange where
  deserialize t := do
    let map := parseStruct t
    let key ← field map "key"
    let start ← field map "start"
    let stop ← field map "end"
    .ok { key, start, stop }

instance : Deserialize SubReq where
  deserialize t := do
    let map := parseStruct t
    let chan ← field map "chan"
    .ok { chan }

instance {F : Type} [Deserialize F] : Deserialize (VSearchReq F) where
  deserialize t := do
    let map := parseStruct t
    let key ← field map "key"
    let query ← field map "query"
    let k ← field map "k"
    .ok { key, query, k }

instance : Deserialize RequestVote where
  deserialize t := do
    let map := parseStruct t
    let term ← field map "term"
    let candidateId ← field map "candidate_id"
    let lastLogIndex ← field map "last_log_index"
    let lastLogTerm ← field map "last_log_term"
    .ok { term, candidateId, lastLogIndex, lastLogTerm }

instance : Pieces MapRange where
  pieces t :=
    let map := parseStruct t
    fieldPieces String map "key" ++ (fieldPieces ℕ map "start" ++ (fieldPieces ℕ map "end" ++ []))
  verdict_eq _ := verdict_field fun _ ↦ verdict_field fun _ ↦ verdict_field fun _ ↦ rfl

instance : Pieces SubReq where
  pieces t := fieldPieces String (parseStruct t) "chan" ++ []
  verdict_eq _ := verdict_field fun _ ↦ rfl

instance {F : Type} [Deserialize F] [NumberText F] : Pieces (VSearchReq F) where
  pieces t :=
    let map := parseStruct t
    fieldPieces String map "key" ++ (fieldPieces (List F) map "query" ++
      (fieldPieces ℕ map "k" ++ []))
  verdict_eq _ := verdict_field fun _ ↦ verdict_field fun _ ↦ verdict_field fun _ ↦ rfl

instance : Pieces RequestVote where
  pieces t :=
    let map := parseStruct t
    fieldPieces ℕ map "term" ++ (fieldPieces String map "candidate_id" ++
      (fieldPieces ℕ map "last_log_index" ++ (fieldPieces ℕ map "last_log_term" ++ [])))
  verdict_eq _ := verdict_field fun _ ↦ verdict_field fun _ ↦ verdict_field fun _ ↦
    verdict_field fun _ ↦ rfl

/-! ## The table of methods -/

/-- The methods with `rpc_func` and `rpc_stream`, the last two of `ConsensusHandle`. -/
inductive Method where
  | set
  | get
  | delete
  | increment
  | decrement
  | expire
  | ttl
  | lpush
  | rpush
  | lpop
  | rpop
  | sadd
  | smembers
  | zadd
  | zrange
  | publish
  | subscribe
  | vset
  | vdel
  | vsearch
  | requestVote
  | appendEntries
  deriving DecidableEq

namespace Method

def name : Method → String
  | set => "set"
  | get => "get"
  | delete => "delete"
  | increment => "increment"
  | decrement => "decrement"
  | expire => "expire"
  | ttl => "ttl"
  | lpush => "lpush"
  | rpush => "rpush"
  | lpop => "lpop"
  | rpop => "rpop"
  | sadd => "sadd"
  | smembers => "smembers"
  | zadd => "zadd"
  | zrange => "zrange"
  | publish => "publish"
  | subscribe => "subscribe"
  | vset => "vset"
  | vdel => "vdel"
  | vsearch => "vsearch"
  | requestVote => "request_vote"
  | appendEntries => "append_entries"

/-- The methods of `Efis`, in the order of the source. -/
def ofEfis : List Method :=
  [set, get, delete, increment, decrement, expire, ttl, lpush, rpush, lpop, rpop, sadd, smembers,
    zadd, zrange, publish, subscribe, vset, vdel, vsearch]

def ofConsensus : List Method := [requestVote, appendEntries]

/-- What is marked with `rpc_stream`. -/
def isStream (m : Method) : Bool := m = subscribe

/-- What is marked with `requires_leader`: the methods that write. -/
def requiresLeader : Method → Bool
  | set | delete | increment | decrement | expire | lpush | rpush | lpop | rpop | sadd | zadd
  | publish | vset | vdel => true
  | get | ttl | smembers | zrange | subscribe | vsearch | requestVote | appendEntries => false

section

variable (F : Type) [Deserialize F]

/-- The decoder that `rpc_func` and `rpc_stream` put before the body. -/
def decode (m : Method) (t : List Char) : Res Unit :=
  match m with
  | set => (fun _ ↦ ()) <$> (deserialize t : Res SetReq)
  | get | delete | increment | decrement | ttl | lpop | rpop | smembers =>
    (fun _ ↦ ()) <$> (deserialize t : Res GetReq)
  | expire => (fun _ ↦ ()) <$> (deserialize t : Res ExpireReq)
  | lpush | rpush | sadd => (fun _ ↦ ()) <$> (deserialize t : Res ListReq)
  | zadd => (fun _ ↦ ()) <$> (deserialize t : Res MapReq)
  | zrange => (fun _ ↦ ()) <$> (deserialize t : Res MapRange)
  | publish => (fun _ ↦ ()) <$> (deserialize t : Res PubReq)
  | subscribe => (fun _ ↦ ()) <$> (deserialize t : Res SubReq)
  | vset => (fun _ ↦ ()) <$> (deserialize t : Res (VSetReq F))
  | vdel => (fun _ ↦ ()) <$> (deserialize t : Res VDelReq)
  | vsearch => (fun _ ↦ ()) <$> (deserialize t : Res (VSearchReq F))
  | requestVote => (fun _ ↦ ()) <$> (deserialize t : Res RequestVote)
  | appendEntries => (fun _ ↦ ()) <$> (deserialize t : Res (AppendEntries (Command F)))

variable [NumberText F]

/-- What the request is taken apart into. -/
def pieces (m : Method) (t : List Char) : List Piece :=
  match m with
  | set => Pieces.pieces SetReq t
  | get | delete | increment | decrement | ttl | lpop | rpop | smembers => Pieces.pieces GetReq t
  | expire => Pieces.pieces ExpireReq t
  | lpush | rpush | sadd => Pieces.pieces ListReq t
  | zadd => Pieces.pieces MapReq t
  | zrange => Pieces.pieces MapRange t
  | publish => Pieces.pieces PubReq t
  | subscribe => Pieces.pieces SubReq t
  | vset => Pieces.pieces (VSetReq F) t
  | vdel => Pieces.pieces VDelReq t
  | vsearch => Pieces.pieces (VSearchReq F) t
  | requestVote => Pieces.pieces RequestVote t
  | appendEntries => Pieces.pieces (AppendEntries (Command F)) t

theorem verdict_decode (m : Method) (t : List Char) :
    (m.decode F t).verdict = judge (m.pieces F t) := by
  cases m <;> exact (Res.verdict_map _ _).trans (Pieces.verdict_eq t)

end

end Method

/-! ## Dispatching -/

/-- How far a request comes. -/
inductive Arrival where
  /-- To the body of its method. -/
  | entered (m : Method)
  | refused (e : RpcError)
  | panicked
  deriving DecidableEq

/-- The host of a server: whether it runs with consensus, and its statics. -/
structure Host where
  consensus : Bool
  statics : Statics

namespace Host

variable (F : Type) [Deserialize F] (p : Host)

def registered : List Method :=
  (if p.consensus then Method.ofConsensus else []) ++ Method.ofEfis

/-- Look a method up, among the streams or among the others. -/
def find (isStream : Bool) (name : List Char) : Option Method :=
  p.registered.find? fun m ↦ m.isStream = isStream ∧ m.name.toList = name

/-- A method up to its body. -/
def enter (m : Method) (t : List Char) : Arrival :=
  match m.decode F t with
  | .ok _ => .entered m
  | .err msg => .refused (.deserialize msg)
  | .panic => .panicked

/-- `dispatch_rpc` and `dispatch_stream`, up to the body.  No middleware is ever registered. -/
def dispatch (isStream : Bool) (req : List Char) : Arrival :=
  match p.find isStream (Dispatcher.method req) with
  | none => .refused (.methodNotFound (String.ofList (Dispatcher.method req)))
  | some m =>
    register m.requiresLeader Arrival.refused (enter F m) p.statics (Dispatcher.argument req)

def dispatchRpc (req : List Char) : Arrival := p.dispatch F false req

def dispatchStream (req : List Char) : Arrival := p.dispatch F true req

variable [NumberText F]

theorem enter_eq_panicked_iff (m : Method) (t : List Char) :
    enter F m t = .panicked ↔ Lethal (m.pieces F t) := by
  rw [← judge_eq_panic_iff, ← Method.verdict_decode, enter]
  cases m.decode F t <;> simp [Res.verdict]

theorem register_eq_panicked_iff (m : Method) (s : Statics) (t : List Char) :
    register m.requiresLeader Arrival.refused (enter F m) s t = .panicked ↔
      (m.requiresLeader = true → s.isLeader = true) ∧ Lethal (m.pieces F t) := by
  rw [register, ← enter_eq_panicked_iff]
  cases m.requiresLeader <;> cases s.isLeader <;> simp

theorem dispatch_eq_panicked_iff (isStream : Bool) (req : List Char) :
    p.dispatch F isStream req = .panicked ↔
      ∃ m, p.find isStream (Dispatcher.method req) = some m ∧
        (m.requiresLeader = true → p.statics.isLeader = true) ∧
        Lethal (m.pieces F (Dispatcher.argument req)) := by
  rw [dispatch]
  cases p.find isStream (Dispatcher.method req) with
  | none => simp
  | some m => simp [register_eq_panicked_iff]

/-- **When a request is fatal.**  For every line, both ways of dispatching it end with the body of a
method or with an error, exactly if there is no such method, or the leader gate refuses it, or the
first piece of the request that does not decode, if any, is neither a lone quotation mark nor a
malformed optional number. -/
theorem dispatch_ne_panicked_iff (req : List Char) :
    (p.dispatchRpc F req ≠ .panicked ∧ p.dispatchStream F req ≠ .panicked) ↔
      ∀ isStream m, p.find isStream (Dispatcher.method req) = some m →
        (m.requiresLeader = true → p.statics.isLeader = true) →
        ¬ Lethal (m.pieces F (Dispatcher.argument req)) := by
  rw [dispatchRpc, dispatchStream, ne_eq, ne_eq, dispatch_eq_panicked_iff,
    dispatch_eq_panicked_iff, Bool.forall_bool]
  simp only [not_exists, not_and]

/-- A key that is a single quotation mark. -/
theorem not_dispatch_ne_panicked :
    ¬ ∀ req : List Char, Host.dispatchRpc ℕ ⟨false, Statics.unset⟩ req ≠ .panicked ∧
      Host.dispatchStream ℕ ⟨false, Statics.unset⟩ req ≠ .panicked := by
  intro h
  exact (h "get key=\"".toList).1 (by decide +kernel)

end Host

end Efis
