import Efis.Rpc.Client

/-!
# The server

What `Handler::run` does with a line.  The dispatcher looks for an rpc with the name that the line
starts with, and the handler writes its result or its error; only if there is no such rpc it looks
for a stream, and then copies the messages of that stream until it ends or until one of them has the
word `exit` in it.

There are two encodings of an error.  `RpcError` has its own `serialize`, but the handler does not
use it, and writes an `ErrorRes` with the printed error in it.
-/

set_option autoImplicit false

namespace Efis

open Rpc Text

/-! ## Errors -/

inductive RpcError where
  | methodNotFound (method : String)
  | deserialize (msg : String)
  | internal (msg : String)
  | notLeader (id : String)
  deriving DecidableEq

namespace RpcError

/-- `Display`. -/
def toString : RpcError → String
  | methodNotFound method => "method not found: " ++ method
  | deserialize msg => "failed to deserialize: " ++ msg
  | internal msg => "handler failed: " ++ msg
  | notLeader id => "not leader, redirect to " ++ id

instance : Serialize RpcError where
  serialize
    | notLeader id => "\x7berror=\"not_leader\" leader=".toList ++ id.toList ++ ['}']
    | e => "\x7berror=\"".toList ++ e.toString.toList ++ ['"', '}']

end RpcError

/-- The error as the handler writes it. -/
def errorLine (e : RpcError) : List Char :=
  serialize (ErrorRes.mk e.toString)

/-! ## Responses -/

structure OkRes where
  status : String
  deriving DecidableEq

structure GetRes (α : Type) where
  val : α
  deriving DecidableEq

structure TtlRes where
  ttl : String
  deriving DecidableEq

structure ListRes where
  vals : List String
  deriving DecidableEq

structure VSearchRes where
  ids : List UInt64
  deriving DecidableEq

instance : Serialize OkRes where
  serialize r := serializeStruct [("status", serialize r.status)]

instance : Deserialize OkRes where
  deserialize t := do
    let map := parseStruct t
    let status ← field map "status"
    .ok { status }

instance {α : Type} [Serialize α] : Serialize (GetRes α) where
  serialize r := serializeStruct [("val", serialize r.val)]

instance {α : Type} [Deserialize α] : Deserialize (GetRes α) where
  deserialize t := do
    let map := parseStruct t
    let val ← field map "val"
    .ok { val }

instance : Serialize TtlRes where
  serialize r := serializeStruct [("ttl", serialize r.ttl)]

instance : Deserialize TtlRes where
  deserialize t := do
    let map := parseStruct t
    let ttl ← field map "ttl"
    .ok { ttl }

instance : Serialize ListRes where
  serialize r := serializeStruct [("vals", serialize r.vals)]

instance : Deserialize ListRes where
  deserialize t := do
    let map := parseStruct t
    let vals ← field map "vals"
    .ok { vals }

instance : Serialize VSearchRes where
  serialize r := serializeStruct [("ids", serialize r.ids)]

instance : Deserialize VSearchRes where
  deserialize t := do
    let map := parseStruct t
    let ids ← field map "ids"
    .ok { ids }

/-! ## Dispatching -/

/-- The functions that are registered, and what they return at this moment.  Of a stream only the
error matters here: its messages come later. -/
structure Dispatcher where
  rpcs : List Char → Option (List Char → Except RpcError (List Char))
  streams : List Char → Option (List Char → Except RpcError Unit)

namespace Dispatcher

/-- The first word of a line, by which the function is found. -/
def method (req : List Char) : List Char :=
  trim isWhitespace (req.takeWhile (· ≠ ' '))

/-- The rest of the line, which the function is given. -/
def argument (req : List Char) : List Char :=
  (req.dropWhile (· ≠ ' ')).tail

def dispatchRpc (d : Dispatcher) (req : List Char) : Except RpcError (List Char) :=
  match d.rpcs (method req) with
  | none => .error (.methodNotFound (String.ofList (method req)))
  | some f => f (argument req)

def dispatchStream (d : Dispatcher) (req : List Char) : Except RpcError Unit :=
  match d.streams (method req) with
  | none => .error (.methodNotFound (String.ofList (method req)))
  | some f => f (argument req)

end Dispatcher

/-- What a line leads to: one line in return, or a stream. -/
inductive Reply where
  | line (t : List Char)
  | stream
  deriving DecidableEq

namespace Handler

def reply (d : Dispatcher) (req : List Char) : Reply :=
  match d.dispatchRpc req with
  | .ok res => .line res
  | .error (.methodNotFound _) =>
    match d.dispatchStream req with
    | .ok () => .stream
    | .error e => .line (errorLine e)
  | .error e => .line (errorLine e)

/-- What the functions make of a request, `none` if they open a stream.  An rpc that is not found is
an error only if there is no stream of that name either. -/
def outcome (d : Dispatcher) (req : List Char) : Option (Except RpcError (List Char)) :=
  match d.dispatchRpc req with
  | .error (.methodNotFound _) =>
    match d.dispatchStream req with
    | .ok () => none
    | .error e => some (.error e)
  | r => some r

/-- The line that is written for an outcome. -/
def line : Except RpcError (List Char) → List Char
  | .ok res => res
  | .error e => errorLine e

theorem reply_eq {d : Dispatcher} {req : List Char} {o : Except RpcError (List Char)}
    (h : outcome d req = some o) : reply d req = .line (line o) := by
  rw [outcome] at h
  rw [reply]
  cases hr : d.dispatchRpc req with
  | ok res =>
    rw [hr] at h
    obtain rfl := Option.some_inj.mp h
    rfl
  | error e =>
    rw [hr] at h
    cases e with
    | methodNotFound m =>
      cases hs : d.dispatchStream req with
      | ok u =>
        rw [hs] at h
        cases h
      | error e =>
        rw [hs] at h
        obtain rfl := Option.some_inj.mp h
        rfl
    | deserialize msg =>
      obtain rfl := Option.some_inj.mp h
      rfl
    | internal msg =>
      obtain rfl := Option.some_inj.mp h
      rfl
    | notLeader id =>
      obtain rfl := Option.some_inj.mp h
      rfl

end Handler

end Efis
