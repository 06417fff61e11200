import Efis.Bytes.Lines
import Efis.Rpc.Server
import Efis.Transition.Reach
import Mathlib.Data.Prod.Lex

/-!
# One connection

The client task and the handler at the two ends of a connection, and the bytes between them.  The
calls queue up for the task, which takes one at a time: it writes the payload, collects what it
reads until there is a newline, and returns the line, or for a stream gives on every line until one
says `done` or nobody wants them any more.  What it has collected beyond that it throws away.  The
handler dispatches line after line, and does not read while it copies a stream.

Nothing but the order of the lines says which response belongs to which request.  And if the line
`done` never comes, or the method of a request never returns, the task waits for it, and the calls
behind are not sent at all.
-/

set_option autoImplicit false

namespace Efis

open Rpc Text Bytes Transition

/-! ## The two ends -/

/-- What the client writes: a method and the serialized argument. -/
structure Payload where
  method : List Char
  req : List Char
  deriving DecidableEq

/-- The payload, without the newline at its end. -/
def Payload.text (r : Payload) : List Char :=
  r.method ++ ' ' :: r.req

/-- A call that was issued, and the lines that were given to its caller. -/
structure ClientCall where
  payload : Payload
  stream : Bool
  got : List (List Char)
  deriving DecidableEq

def ClientCall.give (c : ClientCall) (t : List Char) : ClientCall :=
  { c with got := c.got ++ [t] }

/-- The line that the handler dispatches for a text: a carriage return at its end is dropped. -/
def withoutCarriageReturn (t : List Char) : List Char :=
  if t.getLast? = some '\r' then t.dropLast else t

/-- A request that was dispatched, and the texts that were written for it. -/
structure Entry where
  line : List Char
  written : List (List Char)
  deriving DecidableEq

def Entry.write (e : Entry) (t : List Char) : Entry :=
  { e with written := e.written ++ [t] }

/-- The client task.  `lost` is after an error, when it gives the connection up. -/
inductive ClientPhase where
  | idle
  | busy (call : ClientCall) (accumulated : List UInt8)
  | lost
  deriving DecidableEq

/-- The handler.  `blocked` is in a method that never returns, and `closed` after a line that is no
text. -/
inductive ServerPhase where
  | idle
  | streaming (entry : Entry)
  | blocked (entry : Entry)
  | closed
  deriving DecidableEq

/-- The bytes that the task has collected. -/
def ClientPhase.collected : ClientPhase → ℕ
  | .busy _ acc => acc.length
  | _ => 0

/-- The streams that the handler copies. -/
def ServerPhase.streams : ServerPhase → ℕ
  | .streaming _ => 1
  | _ => 0

structure Conn where
  /-- The calls that the task has not taken up yet. -/
  queue : List ClientCall
  toServer : List UInt8
  toClient : List UInt8
  client : ClientPhase
  server : ServerPhase
  returned : List ClientCall
  served : List Entry
  deriving DecidableEq

namespace Conn

def init : Conn := ⟨[], [], [], .idle, .idle, [], []⟩

/-- `write_all` of the payload. -/
def send (s : Conn) (c : ClientCall) : Conn :=
  { s with toServer := s.toServer ++ wire [c.payload.text], client := .busy c [] }

/-- The call is over, and what was collected is dropped. -/
def finish (s : Conn) (c : ClientCall) : Conn :=
  { s with client := .idle, returned := s.returned ++ [c] }

/-- What the client task does with the text of a line.  `alive` tells whether somebody still
receives from the stream. -/
def take (s : Conn) (c : ClientCall) (rest : List UInt8) (alive : Bool) (t : List Char) : Conn :=
  if c.stream then
    if t = "done".toList then s.finish c
    else if alive then { s with client := .busy (c.give t) rest }
    else s.finish c
  else s.finish (c.give t)

/-- What the handler does with the text of a line. -/
def dispatch (s : Conn) (rest : List UInt8) (d : Dispatcher) (t : List Char) : Conn :=
  match Handler.reply d (withoutCarriageReturn t) with
  | .line res =>
    { s with
      toServer := rest
      toClient := s.toClient ++ wire [res]
      served := s.served ++ [⟨withoutCarriageReturn t, [res]⟩] }
  | .stream =>
    { s with
      toServer := rest
      server := .streaming ⟨withoutCarriageReturn t, []⟩ }

inductive Act where
  | call (r : Payload)
  | callStream (r : Payload)
  /-- The task takes up the next call. -/
  | recv
  /-- `read` returns so many bytes. -/
  | read (n : ℕ)
  /-- The next line that was collected is taken. -/
  | line (alive : Bool)
  | dispatch (d : Dispatcher)
  /-- The next line is dispatched, and its method never returns. -/
  | block
  /-- The stream has a message. -/
  | emit (item : List Char)
  /-- The stream is at its end, which the wrapper of the handler says with `done`. -/
  | close

def step (s : Conn) : Act → Option Conn
  | .call r => some { s with queue := s.queue ++ [⟨r, false, []⟩] }
  | .callStream r => some { s with queue := s.queue ++ [⟨r, true, []⟩] }
  | .recv =>
    match s.client, s.queue with
    | .idle, c :: queue => some ({ s with queue := queue }.send c)
    | _, _ => none
  | .read n =>
    match s.client with
    | .busy c acc =>
      if newline ∉ acc ∧ 0 < n ∧ n ≤ 4096 ∧ n ≤ s.toClient.length then
        some { s with
          client := .busy c (acc ++ s.toClient.take n)
          toClient := s.toClient.drop n }
      else none
    | _ => none
  | .line alive =>
    match s.client with
    | .busy c acc => do
      let (l, rest) ← cutLine acc
      match decode l with
      | some t => some (s.take c rest alive t)
      | none => some { s with client := .lost }
    | _ => none
  | .dispatch d =>
    match s.server with
    | .idle => do
      let (l, rest) ← cutLine s.toServer
      match decode l with
      | some t => some (s.dispatch rest d t)
      | none => some { s with toServer := rest, server := .closed }
    | _ => none
  | .block =>
    match s.server with
    | .idle => do
      let (l, rest) ← cutLine s.toServer
      match decode l with
      | some t =>
        some { s with toServer := rest, server := .blocked ⟨withoutCarriageReturn t, []⟩ }
      | none => none
    | _ => none
  | .emit item =>
    match s.server with
    | .streaming e =>
      if "exit".toList <:+: item then
        some { s with server := .idle, served := s.served ++ [e] }
      else
        some { s with server := .streaming (e.write item), toClient := s.toClient ++ wire [item] }
    | _ => none
  | .close =>
    match s.server with
    | .streaming e =>
      some { s with
        server := .idle
        toClient := s.toClient ++ wire ["done".toList]
        served := s.served ++ [e.write "done".toList] }
    | _ => none

/-! ## Pairing -/

/-- The call that the task waits for. -/
def current (s : Conn) : List ClientCall :=
  match s.client with
  | .busy c _ => [c]
  | _ => []

/-- All calls. -/
def issued (s : Conn) : List ClientCall :=
  s.returned ++ s.current ++ s.queue

/-- All requests that the handler has dispatched. -/
def dispatched (s : Conn) : List Entry :=
  match s.server with
  | .streaming e | .blocked e => s.served ++ [e]
  | _ => s.served

/-- What was written for a request is what its caller was given: all of it for a call, and for a
stream the lines of it so far. -/
def Answers (c : ClientCall) (e : Entry) : Prop :=
  if c.stream then c.got <+: e.written.flatMap lines else c.got = e.written

/-- What the two ends do not do of their own: somebody makes a call, or a stream has a message. -/
def Act.Outside : Act → Prop
  | .call _ | .callStream _ | .emit _ => True
  | _ => False

/-- A step of one of the two ends. -/
def Works (s' s : Conn) : Prop := ∃ a : Act, ¬ a.Outside ∧ step s a = some s'

/-- The reply suits the call: one line for a call, and a stream for a call of a stream. -/
def Suits (c : ClientCall) : Reply → Prop
  | .line t => c.stream = false ∧ '\n' ∉ t
  | .stream => c.stream = true

instance (c : ClientCall) (r : Reply) : Decidable (Suits c r) :=
  match r with
  | .line t => inferInstanceAs (Decidable (c.stream = false ∧ '\n' ∉ t))
  | .stream => inferInstanceAs (Decidable (c.stream = true))

/-- The call that is waited for, and the text that the handler reads next. -/
def next (s : Conn) : Option (ClientCall × List Char) :=
  match s.client with
  | .busy c _ => ((cutLine s.toServer).bind fun p ↦ decode p.1).map fun t ↦ (c, t)
  | _ => none

/-- The handler has nothing more to write, and the client has collected one line. -/
def Last (s : Conn) : Prop :=
  s.server = .idle ∧ s.toClient = [] ∧
    ∀ acc ∈ (match s.client with | .busy _ acc => some acc | _ => none),
      (cutLine acc).map Prod.snd = some []

/-- Steps that keep the two ends in step: there is no newline in a request, each method returns and
its reply suits the call, no message of a stream ends it at one of the two ends, and nobody turns
away from a stream before its last line. -/
def Good (s : Conn) : Act → Prop
  | .call r => '\n' ∉ r.text
  | .callStream r => '\n' ∉ r.text
  | .recv => True
  | .read _ => True
  | .line alive => alive = true ∨ s.Last
  | .dispatch d => ∀ p ∈ s.next, Suits p.1 (Handler.reply d (withoutCarriageReturn p.2))
  | .block => False
  | .emit item => ¬ "exit".toList <:+: item ∧ "done".toList ∉ lines item
  | .close => True

instance (s : Conn) : Decidable s.Last :=
  inferInstanceAs (Decidable (_ ∧ _ ∧ _))

instance (s : Conn) (a : Act) : Decidable (Good s a) :=
  match a with
  | .call r => inferInstanceAs (Decidable ('\n' ∉ r.text))
  | .callStream r => inferInstanceAs (Decidable ('\n' ∉ r.text))
  | .recv => isTrue trivial
  | .read _ => isTrue trivial
  | .line alive => inferInstanceAs (Decidable (alive = true ∨ s.Last))
  | .dispatch d => inferInstanceAs
    (Decidable (∀ p ∈ s.next, Suits p.1 (Handler.reply d (withoutCarriageReturn p.2))))
  | .block => isFalse id
  | .emit item => inferInstanceAs
    (Decidable (¬ "exit".toList <:+: item ∧ "done".toList ∉ lines item))
  | .close => isTrue trivial

/-- The handler has written `e` for the call, of which the lines `left` are still on their way. -/
structure Underway (c : ClientCall) (e : Entry) (left : List (List Char)) : Prop where
  line : e.line = withoutCarriageReturn c.payload.text
  split : e.written.flatMap lines = c.got ++ left

/-- The calls that have returned, and the requests that were dispatched for them. -/
def Matched (returned : List ClientCall) (served : List Entry) : Prop :=
  List.Forall₂ (fun c e ↦ e.line = withoutCarriageReturn c.payload.text ∧ Answers c e)
    returned served

/-- The calls that wait have been given nothing, and there is no newline in their requests. -/
def Waiting (queue : List ClientCall) : Prop :=
  ∀ c ∈ queue, '\n' ∉ c.payload.text ∧ c.got = []

/-- The two ends in step: nothing is going on, or a request is on its way, or its handler is at work
on a stream, or the handler is done and the client is not. -/
inductive InStep : Conn → Prop
  | idle {queue returned : List ClientCall} {served : List Entry} (hq : Waiting queue)
      (h : Matched returned served) : InStep ⟨queue, [], [], .idle, .idle, returned, served⟩
  | asked {queue returned : List ClientCall} {served : List Entry} {c : ClientCall}
      (hq : Waiting queue) (h : Matched returned served) (hline : '\n' ∉ c.payload.text)
      (hgot : c.got = []) :
      InStep ⟨queue, wire [c.payload.text], [], .busy c [], .idle, returned, served⟩
  | streaming {queue returned : List ClientCall} {served : List Entry} {c : ClientCall} {e : Entry}
      {acc toClient : List UInt8} {left : List (List Char)} (hq : Waiting queue)
      (h : Matched returned served) (hu : Underway c e left) (hwire : acc ++ toClient = wire left)
      (hs : c.stream = true) (hdone : "done".toList ∉ left) :
      InStep ⟨queue, [], toClient, .busy c acc, .streaming e, returned, served⟩
  | answered {queue returned : List ClientCall} {served : List Entry} {c : ClientCall} {e : Entry}
      {acc toClient : List UInt8} {left : List (List Char)} (hq : Waiting queue)
      (h : Matched returned served) (hu : Underway c e left) (hwire : acc ++ toClient = wire left)
      (hleft : if c.stream then ∃ us, left = us ++ ["done".toList] ∧ "done".toList ∉ us
        else c.got = [] ∧ left = e.written ∧ left.length = 1) :
      InStep ⟨queue, [], toClient, .busy c acc, .idle, returned, served ++ [e]⟩

section

variable {queue returned : List ClientCall} {served : List Entry} {c : ClientCall} {e : Entry}
  {acc toClient : List UInt8} {left : List (List Char)}

theorem Matched.snoc (h : Matched returned served)
    (hline : e.line = withoutCarriageReturn c.payload.text) (ha : Answers c e) :
    Matched (returned ++ [c]) (served ++ [e]) :=
  List.rel_append h (.cons ⟨hline, ha⟩ .nil)

/-- What was delivered of a stream so far. -/
theorem Underway.answers (hu : Underway c e left)
    (hs : c.stream = true) : Answers c e := by
  rw [Answers, if_pos hs, hu.split]
  exact List.prefix_append _ _

/-- The line that the client finds is the first of those on their way. -/
theorem Underway.cutLine_eq (hu : Underway c e left) {l rest : List UInt8}
    (hwire : acc ++ toClient = wire left) (hcut : cutLine acc = some (l, rest)) :
    ∃ t us, left = t :: us ∧ decode l = some t ∧ rest ++ toClient = wire us := by
  obtain ⟨rfl, hl⟩ := cutLine_eq_some hcut
  have hnl : ∀ t ∈ left, '\n' ∉ t := by
    intro t ht
    have hmem : t ∈ e.written.flatMap lines := by
      rw [hu.split]
      exact List.mem_append_right _ ht
    obtain ⟨w, -, hw⟩ := List.mem_flatMap.mp hmem
    exact newline_not_mem_lines hw
  rw [List.append_assoc, List.cons_append] at hwire
  obtain ⟨t, us, rfl, rfl, hrest⟩ := exists_of_wire hnl hl hwire
  exact ⟨t, us, rfl, decode_encode t, hrest⟩

/-- A line is given to the caller. -/
theorem Underway.give {t : List Char} {us : List (List Char)} (hu : Underway c e (t :: us)) :
    Underway (c.give t) e us :=
  ⟨hu.line, by rw [hu.split, ClientCall.give, List.append_assoc, List.singleton_append]⟩

/-- The handler writes one more text. -/
theorem Underway.write (hu : Underway c e left) (t : List Char) :
    Underway c (e.write t) (left ++ lines t) :=
  ⟨hu.line, by
    rw [Entry.write, List.flatMap_append, hu.split, List.flatMap_singleton, List.append_assoc]⟩

/-- A `read` moves bytes from the wire to what was collected. -/
theorem read_wire (hwire : acc ++ toClient = wire left) (n : ℕ) :
    acc ++ toClient.take n ++ toClient.drop n = wire left := by
  rw [List.append_assoc, List.take_append_drop, hwire]

theorem cutLine_wire {t : List Char} (h : '\n' ∉ t) : cutLine (wire [t]) = some (encode t, []) := by
  rw [wire_cons, wire_nil]
  exact cutLine_append (fun hmem ↦ h ((newline_mem_encode _).mp hmem)) []

/-- The handler reads the text that was written. -/
theorem step_dispatch {d : Dispatcher} (hline : '\n' ∉ c.payload.text) :
    step ⟨queue, wire [c.payload.text], [], .busy c [], .idle, returned, served⟩ (.dispatch d) =
      some (Conn.dispatch ⟨queue, wire [c.payload.text], [], .busy c [], .idle, returned, served⟩ []
        d c.payload.text) := by
  simp only [step, cutLine_wire hline, Option.bind_eq_bind, Option.bind_some,
    decode_encode c.payload.text]

/-- The handler dispatches the request that the client is waiting for. -/
theorem InStep.dispatch {d : Dispatcher} (hq : Waiting queue) (h : Matched returned served)
    (hgot : c.got = [])
    (hsuits : Suits c (Handler.reply d (withoutCarriageReturn c.payload.text))) :
    InStep (Conn.dispatch ⟨queue, wire [c.payload.text], [], .busy c [], .idle, returned, served⟩ []
      d c.payload.text) := by
  rw [Conn.dispatch]
  cases hr : Handler.reply d (withoutCarriageReturn c.payload.text) with
  | stream =>
    rw [hr] at hsuits
    refine .streaming hq h ⟨rfl, ?_⟩ rfl hsuits List.not_mem_nil
    rw [hgot]
    rfl
  | line t =>
    rw [hr, Suits] at hsuits
    obtain ⟨hs, hnl⟩ := hsuits
    refine .answered hq h ⟨rfl, (?_ : _ = c.got ++ lines t)⟩ ?_ ?_
    · rw [hgot, List.nil_append]
      exact List.flatMap_singleton ..
    · rw [wire_lines]
      rfl
    · rw [if_neg (ne_true_of_eq_false hs), lines_of_not_mem hnl]
      exact ⟨hgot, rfl, rfl⟩

/-- The client takes a line while the handler is at work on the stream. -/
theorem InStep.take_streaming {rest : List UInt8} {t : List Char} {us : List (List Char)}
    (hq : Waiting queue) (h : Matched returned served) (hu : Underway c e (t :: us))
    (hrest : rest ++ toClient = wire us) (hs : c.stream = true)
    (hdone : "done".toList ∉ t :: us) :
    InStep (Conn.take ⟨queue, [], toClient, .busy c acc, .streaming e, returned, served⟩ c rest true
      t) := by
  rw [List.mem_cons, not_or] at hdone
  rw [Conn.take, if_pos hs, if_neg (Ne.symm hdone.1), if_pos rfl]
  exact .streaming hq h hu.give hrest hs hdone.2

/-- The client takes a line after the handler has written the last one. -/
theorem InStep.take_answered {rest : List UInt8} {t : List Char} {us : List (List Char)}
    {alive : Bool} (hq : Waiting queue) (h : Matched returned served) (hu : Underway c e (t :: us))
    (hrest : rest ++ toClient = wire us)
    (hleft : if c.stream then ∃ vs, t :: us = vs ++ ["done".toList] ∧ "done".toList ∉ vs
      else c.got = [] ∧ t :: us = e.written ∧ (t :: us).length = 1)
    (hlast : alive = true ∨ rest ++ toClient = []) :
    InStep (Conn.take ⟨queue, [], toClient, .busy c acc, .idle, returned, served ++ [e]⟩ c rest
      alive t) := by
  have hover : us = [] → toClient = [] := by
    rintro rfl
    exact (List.append_eq_nil_iff.mp hrest).2
  rw [Conn.take]
  by_cases hs : c.stream = true
  · rw [if_pos hs] at hleft ⊢
    obtain ⟨vs, hvs, hdone⟩ := hleft
    cases vs with
    | nil =>
      -- `done` is the last line
      obtain ⟨rfl, rfl⟩ := List.cons.inj hvs
      rw [if_pos rfl, hover rfl]
      exact .idle hq (h.snoc hu.line (hu.answers hs))
    | cons v vs =>
      obtain ⟨rfl, hus⟩ : t = v ∧ us = vs ++ ["done".toList] := List.cons.inj hvs
      rw [List.mem_cons, not_or] at hdone
      have halive : alive = true := by
        refine hlast.resolve_right fun hnil ↦ ?_
        rw [hrest, hus, wire_append, wire_cons] at hnil
        exact absurd hnil (by simp)
      rw [if_neg (Ne.symm hdone.1), if_pos halive]
      refine .answered hq h hu.give hrest ?_
      rw [ClientCall.give, if_pos hs]
      exact ⟨vs, hus, hdone.2⟩
  · rw [if_neg hs] at hleft ⊢
    obtain ⟨hgot, hwritten, hlen⟩ := hleft
    obtain rfl : us = [] := List.length_eq_zero_iff.mp (Nat.succ.inj hlen)
    rw [hover rfl]
    refine .idle hq (h.snoc hu.line ?_)
    rw [Answers, ClientCall.give, if_neg hs, hgot, ← hwritten]
    rfl

end

theorem Waiting.snoc {queue : List ClientCall} (hq : Waiting queue) {r : Payload}
    (hr : '\n' ∉ r.text) (stream : Bool) : Waiting (queue ++ [⟨r, stream, []⟩]) := by
  intro c hc
  rcases List.mem_append.mp hc with hc | hc
  · exact hq c hc
  · rw [List.mem_singleton.mp hc]
    exact ⟨hr, rfl⟩

/-- A call that is issued only joins the queue. -/
theorem InStep.issue {s : Conn} (h : InStep s) {r : Payload} (hr : '\n' ∉ r.text) (stream : Bool) :
    InStep { s with queue := s.queue ++ [⟨r, stream, []⟩] } := by
  cases h with
  | idle hq h => exact .idle (hq.snoc hr stream) h
  | asked hq h hline hgot => exact .asked (hq.snoc hr stream) h hline hgot
  | streaming hq h hu hwire hs hdone => exact .streaming (hq.snoc hr stream) h hu hwire hs hdone
  | answered hq h hu hwire hleft => exact .answered (hq.snoc hr stream) h hu hwire hleft

/-- **A good step keeps the two ends in step.** -/
theorem InStep.step {s s' : Conn} {a : Act} (hin : InStep s) (hok : Good s a)
    (hs : step s a = some s') : InStep s' := by
  cases a with
  | call r =>
    obtain rfl := Option.some_inj.mp hs
    exact hin.issue hok false
  | callStream r =>
    obtain rfl := Option.some_inj.mp hs
    exact hin.issue hok true
  | recv =>
    cases hin with
    | @idle queue returned served hq h =>
      cases queue with
      | nil => cases hs
      | cons c queue =>
        obtain rfl := Option.some_inj.mp hs
        obtain ⟨hline, hgot⟩ := hq c List.mem_cons_self
        exact .asked (fun d hd ↦ hq d (List.mem_cons_of_mem c hd)) h hline hgot
    | asked => cases hs
    | streaming => cases hs
    | answered => cases hs
  | read n =>
    cases hin with
    | idle => cases hs
    | asked hq h hline hgot =>
      simp only [Conn.step] at hs
      split at hs
      · rename_i hn
        exact absurd (hn.2.1.trans_le hn.2.2.2) (lt_irrefl 0)
      · cases hs
    | streaming hq h hu hwire hst hdone =>
      simp only [Conn.step] at hs
      split at hs
      · obtain rfl := Option.some_inj.mp hs
        exact .streaming hq h hu (read_wire hwire n) hst hdone
      · cases hs
    | answered hq h hu hwire hleft =>
      simp only [Conn.step] at hs
      split at hs
      · obtain rfl := Option.some_inj.mp hs
        exact .answered hq h hu (read_wire hwire n) hleft
      · cases hs
  | line alive =>
    cases hin with
    | idle => cases hs
    | asked => cases hs
    | streaming hq h hu hwire hst hdone =>
      obtain ⟨⟨l, rest⟩, hcut, hs⟩ := Option.bind_eq_some_iff.mp hs
      obtain ⟨t, us, rfl, hdec, hrest⟩ := hu.cutLine_eq hwire hcut
      simp only [hdec] at hs
      obtain rfl := Option.some_inj.mp hs
      obtain rfl : alive = true := hok.resolve_right fun hlast ↦ nomatch hlast.1
      exact .take_streaming hq h hu hrest hst hdone
    | @answered queue returned served c e acc toClient left hq h hu hwire hleft =>
      obtain ⟨⟨l, rest⟩, hcut, hs⟩ := Option.bind_eq_some_iff.mp hs
      obtain ⟨t, us, rfl, hdec, hrest⟩ := hu.cutLine_eq hwire hcut
      simp only [hdec] at hs
      obtain rfl := Option.some_inj.mp hs
      refine .take_answered hq h hu hrest hleft (hok.imp_right fun hlast ↦ ?_)
      have hone := hlast.2.2 acc rfl
      rw [hcut, Option.map_some, Option.some_inj] at hone
      exact List.append_eq_nil_iff.mpr ⟨hone, hlast.2.1⟩
  | dispatch d =>
    cases hin with
    | idle => cases hs
    | @asked queue returned served c hq h hline hgot =>
      have hnext : next ⟨queue, wire [c.payload.text], [], .busy c [], .idle, returned, served⟩ =
          some (c, c.payload.text) := by
        simp only [next, cutLine_wire hline, Option.bind_some, decode_encode c.payload.text,
          Option.map_some]
      obtain rfl := Option.some_inj.mp ((step_dispatch hline).symm.trans hs)
      have hsuits : Suits c (Handler.reply d (withoutCarriageReturn c.payload.text)) :=
        hok (c, c.payload.text) hnext
      exact .dispatch hq h hgot hsuits
    | streaming => cases hs
    | answered => cases hs
  | block => exact hok.elim
  | emit item =>
    cases hin with
    | idle => cases hs
    | asked => cases hs
    | streaming hq h hu hwire hst hdone =>
      simp only [Conn.step, if_neg hok.1] at hs
      obtain rfl := Option.some_inj.mp hs
      refine .streaming hq h (hu.write item) ?_ hst ?_
      · rw [wire_append, wire_lines, ← hwire, List.append_assoc]
      · rw [List.mem_append, not_or]
        exact ⟨hdone, hok.2⟩
    | answered => cases hs
  | close =>
    cases hin with
    | idle => cases hs
    | asked => cases hs
    | @streaming queue returned served c e acc toClient left hq h hu hwire hst hdone =>
      obtain rfl := Option.some_inj.mp hs
      refine .answered hq h (hu.write "done".toList) ?_ ?_
      · rw [wire_append, wire_lines, ← hwire, List.append_assoc]
      · rw [if_pos hst, lines_of_not_mem (by decide)]
        exact ⟨left, rfl, hdone⟩
    | answered => cases hs

/-! ## Coming to rest -/

/-- What is left to do: the calls to be sent, the requests to be dispatched, the stream to be ended,
the bytes to be read and the lines to be taken.  Each may make more of those after it. -/
def measure (s : Conn) : ℕ ×ₗ ℕ ×ₗ ℕ ×ₗ ℕ ×ₗ ℕ :=
  toLex (s.queue.length, toLex (s.toServer.length, toLex (s.server.streams,
    toLex (s.toClient.length, s.client.collected))))

section

variable {returned : List ClientCall} {served : List Entry}

theorem Matched.exists_answer (h : Matched returned served) {i : ℕ} {c : ClientCall}
    (hi : returned[i]? = some c) : ∃ e, served[i]? = some e ∧ Answers c e := by
  induction h generalizing i with
  | nil => cases hi
  | @cons d e _ _ hce _ ih =>
    cases i with
    | zero =>
      obtain rfl := Option.some_inj.mp hi
      exact ⟨e, rfl, hce.2⟩
    | succ i => exact ih hi

/-- Who was given something does not wait in the queue. -/
theorem Waiting.of_getElem? {queue calls : List ClientCall} (hq : Waiting queue) {i : ℕ}
    {c : ClientCall} (hi : (calls ++ queue)[i]? = some c) (hgot : c.got ≠ []) :
    calls[i]? = some c := by
  rcases Nat.lt_or_ge i calls.length with hlt | hge
  · rwa [List.getElem?_append_left hlt] at hi
  · rw [List.getElem?_append_right hge] at hi
    exact absurd (hq c (List.mem_of_getElem? hi)).2 hgot

/-- What holds of a list and of one more, holds of all. -/
theorem answered_snoc (h : Matched returned served) {c : ClientCall} {last : List Entry}
    (hc : c.got ≠ [] → ∃ e, last = [e] ∧ Answers c e) (i : ℕ) (c' : ClientCall)
    (hi : (returned ++ [c])[i]? = some c') (hgot : c'.got ≠ []) :
    ∃ e, (served ++ last)[i]? = some e ∧ Answers c' e := by
  have hlen := List.Forall₂.length_eq h
  rcases Nat.lt_or_ge i returned.length with hlt | hge
  · rw [List.getElem?_append_left hlt] at hi
    obtain ⟨e, he, ha⟩ := h.exists_answer hi
    exact ⟨e, by rw [List.getElem?_append_left (by omega), he], ha⟩
  · rw [List.getElem?_append_right hge] at hi
    obtain ⟨hzero, rfl⟩ : i - returned.length = 0 ∧ c = c' := by
      cases hz : i - returned.length with
      | zero =>
        rw [hz] at hi
        exact ⟨rfl, Option.some_inj.mp hi⟩
      | succ k =>
        rw [hz] at hi
        cases hi
    obtain ⟨e, rfl, ha⟩ := hc hgot
    exact ⟨e, by rw [List.getElem?_append_right (by omega), ← hlen, hzero]; rfl, ha⟩

end

theorem InStep.answers {s : Conn} (hin : InStep s) {i : ℕ} {c : ClientCall}
    (hi : s.issued[i]? = some c) (hgot : c.got ≠ []) :
    ∃ e, s.dispatched[i]? = some e ∧ Answers c e := by
  cases hin with
  | idle hq h =>
    rw [issued, current, List.append_nil] at hi
    exact h.exists_answer (hq.of_getElem? hi hgot)
  | asked hq h hline hnone =>
    obtain ⟨e, he, ha⟩ := answered_snoc h
      (fun hne ↦ absurd hnone hne : _ → ∃ e, ([] : List Entry) = [e] ∧ _) i c
      (hq.of_getElem? hi hgot) hgot
    rw [List.append_nil] at he
    exact ⟨e, he, ha⟩
  | streaming hq h hu hwire hs hdone =>
    exact answered_snoc h (fun _ ↦ ⟨_, rfl, hu.answers hs⟩) i c (hq.of_getElem? hi hgot) hgot
  | answered hq h hu hwire hleft =>
    refine answered_snoc h (fun hne ↦ ⟨_, rfl, hu.answers ?_⟩) i c (hq.of_getElem? hi hgot) hgot
    by_contra hs
    rw [if_neg hs] at hleft
    exact hne hleft.1

/-- A server with an rpc and a stream. -/
def sampleDispatcher : Dispatcher where
  rpcs m := if m = "get".toList then some fun _ ↦ .ok "\x7bval=v\x7d".toList else none
  streams m := if m = "subscribe".toList then some fun _ ↦ .ok () else none

def getReq (key : String) : Payload :=
  ⟨"get".toList, "\x7bkey=".toList ++ key.toList ++ ['}']⟩

def subReq : Payload :=
  ⟨"subscribe".toList, "\x7bchan=c\x7d".toList⟩

/-- A call, a stream that is read to its end, and a call that is issued while the stream is open. -/
def goodRun : List Act :=
  [.call (getReq "k"), .recv, .dispatch sampleDispatcher, .callStream subReq, .read 3, .read 5,
    .line true, .recv, .dispatch sampleDispatcher, .call (getReq "l"), .emit "hey".toList, .read 4,
    .line true, .close, .read 5, .line true, .recv, .dispatch sampleDispatcher, .read 8, .line true]

end Conn

end Efis
