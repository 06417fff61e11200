import Efis.Server.Methods
import Efis.Store.Replica

/-!
# A server without consensus

A process that is started without peers has no consensus handle.  Its methods then do not go
through the log but call `_set`, `_delete` and the others directly, and the replies should be those
of a replicated node whose apply loop executes the same commands.

They are not.  The leader gate is in front of the methods in this case as well, and reads statics
that only `Consensus::new` sets, so that nobody is ever the leader.  Every write is refused with
`not leader, redirect to unknown`, and the store stays as it is.  Requests that only read are served
as on a replicated node, so the two agree on a sequence of requests exactly if there is no write in
it (`standalone_eq_replicated_iff`).
-/

set_option autoImplicit false

namespace Efis

open Rpc Text Transition

variable {F : Type}

/-! ## Requests and answers -/

/-- A line that has come in, the times of the calls that it leads to, and how many receivers the
channel has that it publishes on. -/
structure Incoming where
  line : List Char
  times : ℕ → ℕ
  receivers : ℕ

/-- What the client gets.  Nothing, if the task waits forever or has panicked. -/
inductive Answer where
  | line (r : Except RpcError (List Char))
  | stream
  | silent
  deriving DecidableEq

/-- What the methods use of other parts: `f64`, the shards of the map, the debug format of a
`HashSet`, and the search in an index, with the printed error in case the task of it panics. -/
structure Libraries (F : Type) where
  num : Numeric
  shard : String → ℕ
  debugSet : Finset String → String
  search : FlatIndex F → List F → ℕ → Except String (List UInt64)

namespace Answer

def internal (msg : String) : Answer := .line (.error (.internal msg))

/-- `serialize` of the result of a body. -/
def ok {α : Type} [Serialize α] (a : α) : Answer := .line (.ok (serialize a))

end Answer

/-- Go on with the decoded request. -/
def decoded {α : Type} (r : Res α) (s : Datastore F) (k : α → Answer × Datastore F) :
    Answer × Datastore F :=
  match r with
  | .ok a => k a
  | .err msg => (.line (.error (.deserialize msg)), s)
  | .panic => (.silent, s)

/-! ## Reading -/

section

variable (lib : Libraries F) (now : ℕ) (s : Datastore F)

/-- Read a key through `get_sync`.  If it has expired, the lock is kept. -/
def readKey (key : String) (k : Option (Value F) → Answer) : Answer × Datastore F :=
  match s.getSync now key with
  | .done (v, s) => (k v, s)
  | _ => (.silent, s.lock (lib.shard key))

def getMethod (req : GetReq) : Answer × Datastore F :=
  readKey lib now s req.key fun
    | none => .internal ("key not found: " ++ req.key)
    | some (.text text) => .ok (GetRes.mk text)
    | some _ => .internal "invalid type"

def ttlMethod (req : GetReq) : Answer × Datastore F :=
  match s.ttl now req.key with
  | .done (.ok (some nanos)) => (.ok (TtlRes.mk (toString (nanos / 10 ^ 9))), s)
  | .done (.ok none) => (.ok (TtlRes.mk "-1"), s)
  | .done (.error msg) => (.internal msg, s)
  | _ => (.silent, s.lock (lib.shard req.key))

def smembersMethod (req : GetReq) : Answer × Datastore F :=
  readKey lib now s req.key fun
    | none => .internal "key not found"
    | some (.set members) => .ok (GetRes.mk (lib.debugSet members))
    | some _ => .internal "invalid type: expected set"

/-- A range whose start is before its end gives nothing, and any other is sliced. -/
def zrangeMethod (req : MapRange) : Answer × Datastore F :=
  readKey lib now s req.key fun
    | none => .internal "key not found"
    | some (.sortedSet zset) =>
      if req.start < req.stop then .ok (ListRes.mk [])
      else if req.start ≤ req.stop ∧ req.stop ≤ zset.length then
        .ok (ListRes.mk (((zset.map Prod.snd).take req.stop).drop req.start))
      else .silent
    | some _ => .internal "invalid type: expected SortedMap"

def vsearchMethod (req : VSearchReq F) : Answer × Datastore F :=
  readKey lib now s req.key fun
    | none => .internal "key not found"
    | some (.vector index) =>
      match lib.search index req.query req.k with
      | .ok ids => .ok (VSearchRes.mk ids)
      | .error msg => .internal msg
    | some _ => .internal "invalid type: expected vector"

end

/-! ## Writing -/

/-- The commands without consensus.  Only here it matters that somebody receives what is
published. -/
def Command.programAlone (num : Numeric) (receivers : ℕ) : Command F → ApplyProg F
  | .publish _ => if receivers = 0 then Apply.internal "failed to publish" else Apply.ok
  | c => c.program num

/-- Run a program on the store.  A read that blocks keeps its shard. -/
def runProg (shard : String → ℕ) : ApplyProg F → (ℕ → ℕ) → Datastore F →
    Option (Option LateRes) × Datastore F
  | .ret a, _, s => (some a, s)
  | .fail, _, s => (none, s)
  | .call c k, times, s =>
    match c.perform shard (times 0) s with
    | .done (r, s) => runProg shard (k r) (fun i ↦ times (i + 1)) s
    | .blocked =>
      match c with
      | .get key => (none, s.lock (shard key))
      | _ => (none, s)
    | .panicked => (none, s)

/-- The result of `_set` and the others.  All their errors are `Internal`, and `LateRes` has them as
they are printed. -/
def directAnswer : LateRes → Except RpcError (List Char)
  | .ok status => .ok (serialize (OkRes.mk status))
  | .value val => .ok (serialize (GetRes.mk val))
  | .err msg => .error (.internal (String.ofList (msg.toList.drop "handler failed: ".length)))

/-- The methods that return a value. -/
def Method.givesValue : Method → Bool
  | .increment | .decrement | .lpop | .rpop => true
  | _ => false

/-- What a method makes of the result that `handle_consensus` has got from the apply loop. -/
def lateAnswer (m : Method) : LateRes → Except RpcError (List Char)
  | .ok status =>
    if m.givesValue then .error (.internal "internal error")
    else .ok (serialize (OkRes.mk status))
  | .value val =>
    if m.givesValue then .ok (serialize (GetRes.mk val))
    else .error (.internal "internal error")
  | .err msg => .error (.internal msg)

/-- Execute a command, and answer. -/
def execute (lib : Libraries F) (answer : LateRes → Except RpcError (List Char)) (inc : Incoming)
    (s : Datastore F) (c : Command F) : Answer × Datastore F :=
  match runProg lib.shard (c.programAlone lib.num inc.receivers) inc.times s with
  | (some (some r), s) => (.line (answer r), s)
  | (_, s) => (.silent, s)

/-! ## Serving -/

section

variable [Deserialize F]

/-- The command that a method which writes makes of its request. -/
def Method.command (F : Type) [Deserialize F] : Method → Option (List Char → Res (Command F))
  | .set => some fun t ↦ .set <$> deserialize t
  | .delete => some fun t ↦ .delete <$> deserialize t
  | .increment => some fun t ↦ .increment <$> deserialize t
  | .decrement => some fun t ↦ .decrement <$> deserialize t
  | .expire => some fun t ↦ .expire <$> deserialize t
  | .lpush => some fun t ↦ .lpush <$> deserialize t
  | .rpush => some fun t ↦ .rpush <$> deserialize t
  | .lpop => some fun t ↦ .lpop <$> deserialize t
  | .rpop => some fun t ↦ .rpop <$> deserialize t
  | .sadd => some fun t ↦ .sadd <$> deserialize t
  | .zadd => some fun t ↦ .zadd <$> deserialize t
  | .publish => some fun t ↦ .publish <$> deserialize t
  | .vset => some fun t ↦ .vset <$> deserialize t
  | .vdel => some fun t ↦ .vdel <$> deserialize t
  | _ => none

/-- A method that does not write. -/
def readMethod (lib : Libraries F) (now : ℕ) (s : Datastore F) (m : Method) (t : List Char) :
    Answer × Datastore F :=
  match m with
  | .get => decoded (deserialize t) s (getMethod lib now s)
  | .ttl => decoded (deserialize t) s (ttlMethod lib now s)
  | .smembers => decoded (deserialize t) s (smembersMethod lib now s)
  | .zrange => decoded (deserialize t) s (zrangeMethod lib now s)
  | .vsearch => decoded (deserialize t) s (vsearchMethod lib now s)
  | .subscribe => decoded (deserialize t : Res SubReq) s fun _ ↦ (.stream, s)
  | _ => (.silent, s)

/-- The body of a method, with its decoder. -/
def body (lib : Libraries F) (answer : Method → LateRes → Except RpcError (List Char))
    (inc : Incoming) (s : Datastore F) (m : Method) (t : List Char) : Answer × Datastore F :=
  match m.command F with
  | some command => decoded (command t) s (execute lib (answer m) inc s)
  | none => readMethod lib (inc.times 0) s m t

/-- The process that is started without peers. -/
def alone : Host := ⟨false, Statics.unset⟩

/-- The method that a line is for: a stream is looked for only if there is no other. -/
def methodOf (line : List Char) : Option Method :=
  (alone.find false (Dispatcher.method line)).or (alone.find true (Dispatcher.method line))

/-- Serve a line, with the check for the leader or without it. -/
def serve (lib : Libraries F) (gate : Bool)
    (answer : Method → LateRes → Except RpcError (List Char)) (s : Datastore F) (inc : Incoming) :
    Answer × Datastore F :=
  match methodOf inc.line with
  | none =>
    (.line (.error (.methodNotFound (String.ofList (Dispatcher.method inc.line)))), s)
  | some m =>
    register (gate && m.requiresLeader) (fun e ↦ (.line (.error e), s)) (body lib answer inc s m)
      alone.statics (Dispatcher.argument inc.line)

/-- The server without consensus. -/
def standalone (lib : Libraries F) : Datastore F → Incoming → Answer × Datastore F :=
  serve lib true fun _ ↦ directAnswer

/-- What it should do: writes are executed by the apply loop, and reads come in between. -/
def replicated (lib : Libraries F) : Datastore F → Incoming → Answer × Datastore F :=
  serve lib false lateAnswer

/-- One request after the other. -/
def serveAll (one : Datastore F → Incoming → Answer × Datastore F) (s : Datastore F) :
    List Incoming → List Answer × Datastore F
  | [] => ([], s)
  | inc :: incs => ((one s inc).1 :: (serveAll one (one s inc).2 incs).1,
      (serveAll one (one s inc).2 incs).2)

/-! ## Where they differ -/

/-- The line is for a method that writes. -/
def Incoming.Writes (inc : Incoming) : Prop :=
  ∃ m, methodOf inc.line = some m ∧ m.requiresLeader = true

/-- Those that require the leader are those that write. -/
theorem Method.command_isSome (m : Method) : (m.command F).isSome = m.requiresLeader := by
  cases m <;> rfl

variable (lib : Libraries F) (s : Datastore F) (inc : Incoming)

theorem standalone_of_writes (h : inc.Writes) :
    standalone lib s inc = (.line (.error (.notLeader "unknown")), s) := by
  obtain ⟨m, hm, hw⟩ := h
  rw [standalone, serve, hm]
  simp only [hw, Bool.and_true]
  rw [register_of_not_isLeader _ _ _ _ rfl]
  rfl

omit [Deserialize F] in
/-- No method answers in this way on its own account. -/
theorem execute_ne_notLeader (m : Method) (c : Command F) (leader : String) :
    (execute lib (lateAnswer m) inc s c).1 ≠ .line (.error (.notLeader leader)) := by
  rw [execute]
  split
  · rename_i r _ _
    cases r with
    | ok status =>
      rw [lateAnswer]
      split <;> exact fun h ↦ (by cases h)
    | value val =>
      rw [lateAnswer]
      split <;> exact fun h ↦ (by cases h)
    | err msg => exact fun h ↦ (by cases h)
  · exact fun h ↦ (by cases h)

theorem replicated_of_writes (h : inc.Writes) :
    (replicated lib s inc).1 ≠ .line (.error (.notLeader "unknown")) := by
  obtain ⟨m, hm, hw⟩ := h
  rw [replicated, serve, hm]
  simp only [Bool.false_and, register_false, body]
  rw [← Method.command_isSome (F := F)] at hw
  obtain ⟨command, hc⟩ := Option.isSome_iff_exists.mp hw
  rw [hc]
  simp only
  cases command (Dispatcher.argument inc.line) with
  | ok c => exact execute_ne_notLeader lib s inc m c "unknown"
  | err msg => exact fun h ↦ (by cases h)
  | panic => exact fun h ↦ (by cases h)

theorem standalone_of_not_writes (h : ¬ inc.Writes) :
    standalone lib s inc = replicated lib s inc := by
  rw [standalone, replicated, serve, serve]
  cases hm : methodOf inc.line with
  | none => rfl
  | some m =>
    have hr : m.requiresLeader = false :=
      Bool.eq_false_iff.mpr fun hr ↦ h ⟨m, hm, hr⟩
    have hc : m.command F = none := by
      rw [← Option.not_isSome_iff_eq_none, Method.command_isSome, hr]
      exact Bool.false_ne_true
    simp only [hr, Bool.and_false, register_false, body, hc]

/-- It is only the check: without it the commands would do the same to the store. -/
theorem ungated_store :
    (serve lib false (fun _ ↦ directAnswer) s inc).2 = (replicated lib s inc).2 := by
  rw [replicated, serve, serve]
  cases methodOf inc.line with
  | none => rfl
  | some m =>
    simp only [Bool.false_and, register_false, body]
    cases m.command F with
    | none => rfl
    | some command =>
      simp only
      cases command (Dispatcher.argument inc.line) with
      | ok c =>
        simp only [decoded, execute]
        split <;> rfl
      | err msg => rfl
      | panic => rfl

/-- **Standalone mode agrees with a replicated node exactly on what does not write.**  For every
sequence of requests, all answers and the store in the end are the same as those of a replicated
node if and only if no request is for a method that writes. -/
theorem standalone_eq_replicated_iff (lib : Libraries F) (s : Datastore F)
    (incs : List Incoming) :
    serveAll (standalone lib) s incs = serveAll (replicated lib) s incs ↔
      ∀ inc ∈ incs, ¬ inc.Writes := by
  induction incs generalizing s with
  | nil => simp [serveAll]
  | cons inc incs ih =>
    rw [List.forall_mem_cons]
    by_cases hw : inc.Writes
    · refine iff_of_false ?_ fun h ↦ h.1 hw
      intro h
      have hhead := (List.cons.inj (congrArg Prod.fst h)).1
      rw [standalone_of_writes lib s inc hw] at hhead
      exact replicated_of_writes lib s inc hw hhead.symm
    · rw [and_iff_right hw, ← ih (standalone lib s inc).2, serveAll, serveAll,
        ← standalone_of_not_writes lib s inc hw]
      simp only [Prod.mk.injEq, List.cons.injEq, true_and]
      rw [Prod.ext_iff]

end

/-- Libraries for a server that has only texts. -/
def plainLibraries : Libraries ℕ where
  num := Replica.oneTwo
  shard _ := 0
  debugSet _ := ""
  search _ _ _ := .ok []

/-- `set` on an empty store is refused. -/
theorem not_standalone_eq_replicated :
    ¬ ∀ (s : Datastore ℕ) (incs : List Incoming),
      serveAll (standalone plainLibraries) s incs =
        serveAll (replicated plainLibraries) s incs := by
  intro h
  have hs := h ⟨fun _ ↦ none, []⟩ [⟨"set key=k value=v".toList, fun _ ↦ 0, 0⟩]
  exact absurd (congrArg Prod.fst hs) (by decide +kernel)

end Efis
