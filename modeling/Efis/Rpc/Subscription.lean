import Efis.Bytes.Lines
import Efis.Channel.Ring
import Efis.Rpc.Exact
import Efis.Rpc.Server
import Efis.Transition.Reach

/-!
# A subscription

The way of a message from `publish` to a subscriber.  The broadcast channel keeps it; the task of
`Efis::subscribe` puts it into a channel; the wrapper of the stream serializes it; the handler
writes it as a line, or ends the stream at the word `exit`; the client task collects bytes and gives
the lines on, up to one that is `done`; and the last task reads the string back.

`delivered` says that every message which gets through all of this (`Deliverable`) is obtained, in
order, as often as it was published, and that the subscription stays open.  Messages wait in the
channels between, so this is about every order in which the tasks may run.
-/

set_option autoImplicit false

namespace Efis

open Rpc Text Bytes Transition Channel

/-! ## The tasks -/

/-- The tasks and the channels between them.  A channel of ten is counted as eleven: one more is
with the task that waits to put it there. -/
structure Subscription where
  /-- The broadcast channel, and the receiver of `Efis::subscribe`. -/
  sub : Link String 1024
  task : Bool
  rx : List String
  wrapper : Bool
  rx2 : List (List Char)
  handler : Bool
  toClient : List UInt8
  accumulated : List UInt8
  client : Bool
  streamRx : List (List Char)
  reader : Bool
  /-- What the subscriber has obtained. -/
  got : List String
  /-- What was published since. -/
  published : List String

namespace Subscription

/-- A subscription to a channel. -/
def init (r : Ring String 1024) : Subscription :=
  ⟨.subscribe r, true, [], true, [], true, [], [], true, [], true, [], []⟩

inductive Act where
  | publish (msg : String)
  /-- The task of `Efis::subscribe`. -/
  | relay
  /-- The wrapper of the stream. -/
  | wrap
  /-- The loop of the handler. -/
  | copy
  /-- `process_stream` reads so many bytes. -/
  | read (n : ℕ)
  /-- `process_stream` takes a line. -/
  | line
  /-- The task of `call_stream`. -/
  | deliver

/-- `while let Ok(msg) = sub.recv().await`: a lag ends the loop. -/
def relay (s : Subscription) : Option Subscription :=
  if s.task ∧ s.rx.length < 11 then do
    match ← s.sub.recv with
    | (some msg, sub) => some { s with sub, rx := s.rx ++ [msg] }
    | (none, sub) => some { s with sub, task := false }
  else none

/-- What is sent to a handler that has gone is dropped. -/
def wrap (s : Subscription) : Option Subscription :=
  if s.wrapper ∧ (s.handler → s.rx2.length < 11) then
    match s.rx with
    | msg :: rx => some { s with rx, rx2 := if s.handler then s.rx2 ++ [serialize msg] else s.rx2 }
    | [] =>
      if s.task then none
      else some { s with
        wrapper := false
        rx2 := if s.handler then s.rx2 ++ ["done".toList] else s.rx2 }
  else none

def copy (s : Subscription) : Option Subscription :=
  if s.handler then
    match s.rx2 with
    | msg :: rx2 =>
      if "exit".toList <:+: msg then some { s with rx2, handler := false }
      else some { s with rx2, toClient := s.toClient ++ wire [msg] }
    | [] => if s.wrapper then none else some { s with handler := false }
  else none

def read (s : Subscription) (n : ℕ) : Option Subscription :=
  if s.client ∧ newline ∉ s.accumulated ∧ 0 < n ∧ n ≤ 4096 ∧ n ≤ s.toClient.length then
    some { s with
      accumulated := s.accumulated ++ s.toClient.take n
      toClient := s.toClient.drop n }
  else none

def line (s : Subscription) : Option Subscription :=
  if s.client then do
    let (l, rest) ← cutLine s.accumulated
    match decode l with
    | none => some { s with client := false }
    | some t =>
      if t = "done".toList then some { s with client := false }
      else if s.reader then
        if s.streamRx.length < 33 then
          some { s with accumulated := rest, streamRx := s.streamRx ++ [t] }
        else none
      else some { s with client := false }
  else none

/-- A text that is no string is skipped, and one that makes the decoder panic ends the task. -/
def deliver (s : Subscription) : Option Subscription :=
  if s.reader then
    match s.streamRx with
    | raw :: streamRx =>
      match (deserialize raw : Res String) with
      | .ok msg => some { s with streamRx, got := s.got ++ [msg] }
      | .err _ => some { s with streamRx }
      | .panic => some { s with streamRx, reader := false }
    | [] => if s.client then none else some { s with reader := false }
  else none

def step (s : Subscription) : Act → Option Subscription
  | .publish msg => some { s with sub := s.sub.send msg, published := s.published ++ [msg] }
  | .relay => s.relay
  | .wrap => s.wrap
  | .copy => s.copy
  | .read n => s.read n
  | .line => s.line
  | .deliver => s.deliver

/-! ## Messages that get through -/

/-- A message that is delivered as it is: it is one line, neither of the words that end a stream is
taken for one in it, and it comes back as a string. -/
structure Deliverable (msg : String) : Prop where
  line : '\n' ∉ msg.toList
  exit : ¬ "exit".toList <:+: serialize msg
  done : msg ≠ "done"
  quotable : Quotable msg

instance (msg : String) : Decidable (Deliverable msg) :=
  decidable_of_iff ('\n' ∉ msg.toList ∧ ¬ "exit".toList <:+: serialize msg ∧ msg ≠ "done" ∧
    Quotable msg) ⟨fun ⟨h1, h2, h3, h4⟩ ↦ ⟨h1, h2, h3, h4⟩, fun ⟨h1, h2, h3, h4⟩ ↦ ⟨h1, h2, h3, h4⟩⟩

/-- The subscriber keeps up with the broadcast channel. -/
def KeepsUp (s : Subscription) : Act → Prop
  | .publish _ => s.sub.backlog < 1024
  | _ => True

/-- The subscriber keeps up, and what is published is deliverable. -/
def Good (s : Subscription) (a : Act) : Prop :=
  KeepsUp s a ∧ ∀ msg, a = .publish msg → Deliverable msg

instance (s : Subscription) (a : Act) : Decidable (KeepsUp s a) :=
  match a with
  | .publish _ => inferInstanceAs (Decidable (s.sub.backlog < 1024))
  | .relay => isTrue trivial
  | .wrap => isTrue trivial
  | .copy => isTrue trivial
  | .read _ => isTrue trivial
  | .line => isTrue trivial
  | .deliver => isTrue trivial

instance (s : Subscription) (a : Act) : Decidable (Good s a) :=
  decidable_of_iff
    (KeepsUp s a ∧ ∀ msg ∈ (match a with | .publish msg => some msg | _ => none), Deliverable msg)
    (by cases a <;> simp [Good])

/-- All tasks are running. -/
structure Open (s : Subscription) : Prop where
  task : s.task = true
  wrapper : s.wrapper = true
  handler : s.handler = true
  client : s.client = true
  reader : s.reader = true

/-- The messages on their way: `late` were read from the wire, `sent` are on it, `soon` are
serialized. -/
structure Flow (base : ℕ) (s : Subscription) (late sent soon : List String) : Prop where
  isOpen : s.Open
  good : ∀ msg ∈ s.published, Deliverable msg
  late_eq : s.streamRx = late.map serialize
  sent_eq : s.accumulated ++ s.toClient = wire (sent.map serialize)
  soon_eq : s.rx2 = soon.map serialize
  exact : Link.Exact base s.sub s.published (s.got ++ late ++ sent ++ soon ++ s.rx)

theorem Deliverable.newline_not_mem {msg : String} (h : Deliverable msg) : '\n' ∉ serialize msg :=
  fun hmem ↦ h.line ((mem_serialize_string (by decide)).mp hmem)

theorem Deliverable.ne_done {msg : String} (h : Deliverable msg) :
    serialize msg ≠ "done".toList :=
  serialize_string_ne h.done (by decide)

/-! ## Steps -/

namespace Flow

variable {base : ℕ} {s s' : Subscription} {late sent soon : List String}

/-- A message on its way was published. -/
theorem deliverable (h : Flow base s late sent soon) {msg : String}
    (hmem : msg ∈ late ∨ msg ∈ sent ∨ msg ∈ soon) : Deliverable msg := by
  refine h.good msg (h.exact.isPrefix.subset ?_)
  simp only [List.mem_append]
  tauto

theorem publish (h : Flow base s late sent soon) {msg : String} (hb : s.sub.backlog < 1024)
    (hmsg : Deliverable msg) :
    Flow base { s with sub := s.sub.send msg, published := s.published ++ [msg] }
      late sent soon where
  isOpen := ⟨h.isOpen.task, h.isOpen.wrapper, h.isOpen.handler, h.isOpen.client, h.isOpen.reader⟩
  good := by
    intro m hm
    rcases List.mem_append.mp hm with hm | hm
    · exact h.good m hm
    · rw [List.mem_singleton.mp hm]
      exact hmsg
  late_eq := h.late_eq
  sent_eq := h.sent_eq
  soon_eq := h.soon_eq
  exact := h.exact.send hb msg

/-- What the task of `Efis::subscribe` does: there is no lag. -/
theorem relay_cases (h : Flow base s late sent soon) (hs : s.relay = some s') :
    ∃ msg sub, s.sub.recv = some (some msg, sub) ∧
      s' = { s with sub := sub, rx := s.rx ++ [msg] } := by
  rw [Subscription.relay] at hs
  split at hs
  · obtain ⟨⟨o, sub⟩, hr, hs⟩ := Option.bind_eq_some_iff.mp hs
    obtain ⟨msg, rfl⟩ := Option.isSome_iff_exists.mp (h.exact.recv_isSome hr)
    exact ⟨msg, sub, hr, (Option.some_inj.mp hs).symm⟩
  · cases hs

/-- What the wrapper does: the stream has not ended. -/
theorem wrap_cases (h : Flow base s late sent soon) (hs : s.wrap = some s') :
    ∃ msg rx, s.rx = msg :: rx ∧ s' = { s with rx := rx, rx2 := s.rx2 ++ [serialize msg] } := by
  rw [Subscription.wrap] at hs
  split at hs
  · cases hrx : s.rx with
    | nil => simp [hrx, h.isOpen.task] at hs
    | cons msg rx =>
      simp only [hrx, if_pos h.isOpen.handler] at hs
      exact ⟨msg, rx, rfl, (Option.some_inj.mp hs).symm⟩
  · cases hs

/-- What the handler does: nothing that it copies tells it to stop. -/
theorem copy_cases (h : Flow base s late sent soon) (hs : s.copy = some s') :
    ∃ msg rest, soon = msg :: rest ∧ s' = { s with
      rx2 := rest.map serialize
      toClient := s.toClient ++ wire [serialize msg] } := by
  rw [Subscription.copy, if_pos h.isOpen.handler] at hs
  cases soon with
  | nil =>
    have hnil : s.rx2 = [] := h.soon_eq
    simp [hnil, h.isOpen.wrapper] at hs
  | cons msg rest =>
    have hcons : s.rx2 = serialize msg :: rest.map serialize := h.soon_eq
    have hmsg : Deliverable msg := h.deliverable (Or.inr (Or.inr List.mem_cons_self))
    simp only [hcons, if_neg hmsg.exit] at hs
    exact ⟨msg, rest, rfl, (Option.some_inj.mp hs).symm⟩

theorem read_cases {n : ℕ} (hs : s.read n = some s') :
    0 < n ∧ n ≤ s.toClient.length ∧ s' = { s with
      accumulated := s.accumulated ++ s.toClient.take n
      toClient := s.toClient.drop n } := by
  rw [Subscription.read] at hs
  split at hs
  · rename_i hn
    exact ⟨hn.2.2.1, hn.2.2.2.2, (Option.some_inj.mp hs).symm⟩
  · cases hs

/-- The first line that was collected is the first message on the wire. -/
theorem cutLine_eq (h : Flow base s late sent soon) {l rest : List UInt8}
    (hcut : cutLine s.accumulated = some (l, rest)) :
    ∃ msg us, sent = msg :: us ∧ decode l = some (serialize msg) ∧
      rest ++ s.toClient = wire (us.map serialize) := by
  obtain ⟨hacc, hl⟩ := cutLine_eq_some hcut
  have hnl : ∀ t ∈ sent.map serialize, '\n' ∉ t := by
    intro t ht
    obtain ⟨msg, hmsg, rfl⟩ := List.mem_map.mp ht
    exact (h.deliverable (Or.inr (Or.inl hmsg))).newline_not_mem
  have hwire := h.sent_eq
  rw [hacc, List.append_assoc, List.cons_append] at hwire
  obtain ⟨t, ts, hts, rfl, hrest⟩ := exists_of_wire hnl hl hwire
  obtain ⟨msg, us, rfl, rfl, rfl⟩ := List.map_eq_cons_iff.mp hts
  exact ⟨msg, us, rfl, decode_encode _, hrest⟩

/-- What the client does with a line: it is no end, and it is wanted. -/
theorem line_cases (h : Flow base s late sent soon) (hs : s.line = some s') :
    ∃ msg us l rest, sent = msg :: us ∧ s.accumulated = l ++ newline :: rest ∧
      rest ++ s.toClient = wire (us.map serialize) ∧ s' = { s with
        accumulated := rest
        streamRx := s.streamRx ++ [serialize msg] } := by
  rw [Subscription.line, if_pos h.isOpen.client] at hs
  obtain ⟨⟨l, rest⟩, hcut, hs⟩ := Option.bind_eq_some_iff.mp hs
  obtain ⟨msg, us, rfl, hdec, hrest⟩ := h.cutLine_eq hcut
  have hmsg : Deliverable msg := h.deliverable (Or.inr (Or.inl List.mem_cons_self))
  simp only [hdec, if_neg hmsg.ne_done, if_pos h.isOpen.reader] at hs
  split at hs
  · exact ⟨msg, us, l, rest, rfl, (cutLine_eq_some hcut).1, hrest, (Option.some_inj.mp hs).symm⟩
  · cases hs

/-- What the last task does: the string is read back. -/
theorem deliver_cases (h : Flow base s late sent soon) (hs : s.deliver = some s') :
    ∃ msg rest, late = msg :: rest ∧ s' = { s with
      streamRx := rest.map serialize
      got := s.got ++ [msg] } := by
  rw [Subscription.deliver, if_pos h.isOpen.reader] at hs
  cases late with
  | nil =>
    have hnil : s.streamRx = [] := h.late_eq
    simp [hnil, h.isOpen.client] at hs
  | cons msg rest =>
    have hcons : s.streamRx = serialize msg :: rest.map serialize := h.late_eq
    have hmsg : Deliverable msg := h.deliverable (Or.inl List.mem_cons_self)
    simp only [hcons, deserialize_string hmsg.quotable] at hs
    exact ⟨msg, rest, rfl, (Option.some_inj.mp hs).symm⟩

/-- **A good step keeps the messages in order.** -/
theorem step (h : Flow base s late sent soon) {a : Act} (hok : Good s a)
    (hs : Subscription.step s a = some s') :
    ∃ late' sent' soon', Flow base s' late' sent' soon' := by
  obtain ⟨ht, hw, hh, hc, hr⟩ := h.isOpen
  have hexact := h.exact
  cases a with
  | publish msg =>
    obtain rfl := Option.some_inj.mp hs
    exact ⟨_, _, _, h.publish hok.1 (hok.2 msg rfl)⟩
  | relay =>
    obtain ⟨msg, sub, hrecv, rfl⟩ := h.relay_cases hs
    have hnext := hexact.recv hrecv
    rw [Option.toList_some, List.append_assoc] at hnext
    exact ⟨_, _, _, ⟨ht, hw, hh, hc, hr⟩, h.good, h.late_eq, h.sent_eq, h.soon_eq, hnext⟩
  | wrap =>
    obtain ⟨msg, rx, hrx, rfl⟩ := h.wrap_cases hs
    refine ⟨late, sent, soon ++ [msg], ⟨ht, hw, hh, hc, hr⟩, h.good, h.late_eq, h.sent_eq, ?_, ?_⟩
    · rw [List.map_append, List.map_singleton, h.soon_eq]
    · rw [hrx] at hexact
      simpa using hexact
  | copy =>
    obtain ⟨msg, rest, rfl, rfl⟩ := h.copy_cases hs
    refine ⟨late, sent ++ [msg], rest, ⟨ht, hw, hh, hc, hr⟩, h.good, h.late_eq, ?_, rfl, ?_⟩
    · rw [← List.append_assoc, h.sent_eq, List.map_append, wire_append]
      rfl
    · simpa using hexact
  | read n =>
    obtain ⟨-, -, rfl⟩ := read_cases hs
    refine ⟨late, sent, soon, ⟨ht, hw, hh, hc, hr⟩, h.good, h.late_eq, ?_, h.soon_eq, hexact⟩
    rw [List.append_assoc, List.take_append_drop, h.sent_eq]
  | line =>
    obtain ⟨msg, us, l, rest, rfl, -, hrest, rfl⟩ := h.line_cases hs
    refine ⟨late ++ [msg], us, soon, ⟨ht, hw, hh, hc, hr⟩, h.good, ?_, hrest, h.soon_eq, ?_⟩
    · rw [List.map_append, List.map_singleton, h.late_eq]
    · simpa using hexact
  | deliver =>
    obtain ⟨msg, rest, rfl, rfl⟩ := h.deliver_cases hs
    refine ⟨rest, sent, soon, ⟨ht, hw, hh, hc, hr⟩, h.good, rfl, h.sent_eq, h.soon_eq, ?_⟩
    simpa using hexact

end Flow

/-! ## Everything arrives -/

/-- The steps of the tasks. -/
def Act.Internal : Act → Prop
  | .publish _ => False
  | _ => True

/-- No task can do anything. -/
def Stuck (s : Subscription) : Prop :=
  ∀ a : Act, a.Internal → s.step a = none

namespace Flow

variable {base : ℕ} {s s' : Subscription} {late sent soon : List String}

theorem late_eq_nil (h : Flow base s late sent soon) (hd : s.deliver = none) : late = [] := by
  cases late with
  | nil => rfl
  | cons msg rest =>
    have hcons : s.streamRx = serialize msg :: rest.map serialize := h.late_eq
    have hmsg : Deliverable msg := h.deliverable (Or.inl List.mem_cons_self)
    simp [Subscription.deliver, h.isOpen.reader, hcons, deserialize_string hmsg.quotable] at hd

theorem sent_eq_nil (h : Flow base s [] sent soon) (hl : s.line = none) (hr : s.read 1 = none) :
    sent = [] := by
  have hroom : s.streamRx = [] := h.late_eq
  -- otherwise there is a line to take
  have hacc : newline ∉ s.accumulated := by
    intro hmem
    obtain ⟨l, rest, hsplit, hnot⟩ := List.eq_append_cons_of_mem hmem
    have hcut : cutLine s.accumulated = some (l, rest) := by
      rw [hsplit]
      exact cutLine_append hnot rest
    obtain ⟨msg, us, rfl, hdec, -⟩ := h.cutLine_eq hcut
    have hmsg : Deliverable msg := h.deliverable (Or.inr (Or.inl List.mem_cons_self))
    rw [Subscription.line, if_pos h.isOpen.client, hcut, Option.bind_eq_bind,
      Option.bind_some] at hl
    simp only [hdec, if_neg hmsg.ne_done, if_pos h.isOpen.reader, hroom, List.length_nil] at hl
    cases hl
  have hto : s.toClient = [] := by
    by_contra hne
    have hpos := List.length_pos_iff.mpr hne
    rw [Subscription.read, if_pos ⟨h.isOpen.client, hacc, by omega, by omega, hpos⟩] at hr
    cases hr
  have hwire := h.sent_eq
  rw [hto, List.append_nil] at hwire
  cases sent with
  | nil => rfl
  | cons msg us =>
    rw [List.map_cons, wire_cons] at hwire
    exact absurd (hwire ▸ List.mem_append_right _ List.mem_cons_self) hacc

theorem soon_eq_nil (h : Flow base s late sent soon) (hc : s.copy = none) : soon = [] := by
  cases soon with
  | nil => rfl
  | cons msg rest =>
    have hcons : s.rx2 = serialize msg :: rest.map serialize := h.soon_eq
    have hmsg : Deliverable msg := h.deliverable (Or.inr (Or.inr List.mem_cons_self))
    rw [Subscription.copy, if_pos h.isOpen.handler] at hc
    simp only [hcons, if_neg hmsg.exit] at hc
    cases hc

theorem rx_eq_nil (h : Flow base s late sent []) (hw : s.wrap = none) : s.rx = [] := by
  have hroom : s.rx2 = [] := h.soon_eq
  cases hrx : s.rx with
  | nil => rfl
  | cons msg rest =>
    rw [Subscription.wrap, if_pos ⟨h.isOpen.wrapper, fun _ ↦ by rw [hroom]; decide⟩] at hw
    simp only [hrx] at hw
    cases hw

/-- When no task can do anything, everything was delivered. -/
theorem got_eq (h : Flow base s late sent soon) (hstuck : Stuck s) : s.got = s.published := by
  obtain rfl := h.late_eq_nil (hstuck .deliver trivial)
  obtain rfl := h.sent_eq_nil (hstuck .line trivial) (hstuck (.read 1) trivial)
  obtain rfl := h.soon_eq_nil (hstuck .copy trivial)
  have hrx := h.rx_eq_nil (hstuck .wrap trivial)
  have hrecv : s.sub.recv = none := by
    have hr := hstuck .relay trivial
    change s.relay = none at hr
    rw [Subscription.relay, if_pos ⟨h.isOpen.task, by rw [hrx]; decide⟩] at hr
    cases hsub : s.sub.recv with
    | none => rfl
    | some p =>
      obtain ⟨o, sub⟩ := p
      rw [hsub] at hr
      cases o <;> cases hr
  have hexact := h.exact
  rw [hrx] at hexact
  simpa using hexact.eq_of_backlog (Link.backlog_eq_zero hrecv)

end Flow

/-- How far the messages still have to go, the first channel first. -/
def rank (s : Subscription) : ℕ × ℕ × ℕ × ℕ × ℕ × ℕ :=
  (s.sub.backlog, s.rx.length, s.rx2.length, s.toClient.length, s.accumulated.length,
    s.streamRx.length)

/-- Every step of a task brings a message on, and publishes none. -/
theorem Flow.rank_lt {base : ℕ} {s s' : Subscription} {late sent soon : List String}
    (h : Flow base s late sent soon) {a : Act} (ha : a.Internal) (hs : s.step a = some s') :
    s'.published = s.published ∧ WellFoundedRelation.rel s'.rank s.rank := by
  have hnext : ∀ {α β : Type} [WellFoundedRelation α] [WellFoundedRelation β] {a : α} {b b' : β},
      WellFoundedRelation.rel b b' → WellFoundedRelation.rel (a, b) (a, b') :=
    fun hb ↦ Prod.Lex.right _ hb
  have hnow : ∀ {β : Type} [WellFoundedRelation β] {m n : ℕ} {b b' : β},
      m < n → WellFoundedRelation.rel (m, b) (n, b') :=
    fun hmn ↦ Prod.Lex.left _ _ hmn
  cases a with
  | publish msg => exact ha.elim
  | relay =>
    obtain ⟨msg, sub, hrecv, rfl⟩ := h.relay_cases hs
    exact ⟨rfl, hnow (Link.backlog_recv_lt hrecv)⟩
  | wrap =>
    obtain ⟨msg, rx, hrx, rfl⟩ := h.wrap_cases hs
    refine ⟨rfl, hnext (hnow ?_)⟩
    rw [hrx]
    exact Nat.lt_succ_self _
  | copy =>
    obtain ⟨msg, rest, rfl, rfl⟩ := h.copy_cases hs
    refine ⟨rfl, hnext (hnext (hnow ?_))⟩
    rw [h.soon_eq]
    exact Nat.lt_succ_self _
  | read n =>
    obtain ⟨hpos, hle, rfl⟩ := read_cases hs
    refine ⟨rfl, hnext (hnext (hnext (hnow ?_)))⟩
    rw [List.length_drop]
    omega
  | line =>
    obtain ⟨msg, us, l, rest, rfl, hacc, -, rfl⟩ := h.line_cases hs
    refine ⟨rfl, hnext (hnext (hnext (hnext (hnow ?_))))⟩
    change rest.length < s.accumulated.length
    rw [hacc, List.length_append, List.length_cons]
    omega
  | deliver =>
    obtain ⟨msg, rest, rfl, rfl⟩ := h.deliver_cases hs
    refine ⟨rfl, hnext (hnext (hnext (hnext (hnext ?_))))⟩
    change (rest.map serialize).length < s.streamRx.length
    rw [h.late_eq]
    exact Nat.lt_succ_self _

/-- The tasks bring everything to the subscriber. -/
theorem exists_drained {base : ℕ} {s : Subscription} {late sent soon : List String}
    (h : Flow base s late sent soon) :
    ∃ s', Reach step (fun _ a ↦ a.Internal) s s' ∧ s'.Open ∧ s'.got = s.published := by
  by_cases hstuck : Stuck s
  · exact ⟨s, .start, h.isOpen, h.got_eq hstuck⟩
  · rw [Stuck, not_forall] at hstuck
    obtain ⟨a, ha⟩ := hstuck
    rw [Classical.not_imp, ← Ne, Option.ne_none_iff_exists'] at ha
    obtain ⟨hint, s₁, hs₁⟩ := ha
    have hok : Good s a := by
      cases a with
      | publish msg => exact hint.elim
      | _ => exact ⟨trivial, nofun⟩
    obtain ⟨late₁, sent₁, soon₁, h₁⟩ := h.step hok hs₁
    obtain ⟨hpub, hlt⟩ := h.rank_lt hint hs₁
    obtain ⟨s', hreach, hopen, hgot⟩ := exists_drained h₁
    have hfirst : Reach step (fun _ a ↦ a.Internal) s s₁ := Reach.start.step hint hs₁
    exact ⟨s', hfirst.trans hreach, hopen, hgot.trans hpub⟩
termination_by s.rank
decreasing_by exact hlt

/-- **Subscribers get exactly what was published**, if it can be delivered: in every state of every
run the subscription is open and the subscriber has the first of the messages, and whenever the
tasks have nothing to do, all of them; and the tasks come to that. -/
theorem delivered (r : Ring String 1024) {s : Subscription} (h : Reach step Good (init r) s) :
    s.Open ∧ s.got <+: s.published ∧ (Stuck s → s.got = s.published) ∧
      ∃ s', Reach step (fun _ a ↦ a.Internal) s s' ∧ s'.Open ∧ s'.got = s.published := by
  have hinit : Flow r.tail (init r) [] [] [] :=
    ⟨⟨rfl, rfl, rfl, rfl, rfl⟩, fun _ hm ↦ absurd hm List.not_mem_nil, rfl, rfl, rfl,
      Link.exact_subscribe r⟩
  have hflow : ∃ late sent soon, Flow r.tail s late sent soon := by
    induction h with
    | start => exact ⟨_, _, _, hinit⟩
    | step _ hok hs ih =>
      obtain ⟨late, sent, soon, ih⟩ := ih
      exact ih.step hok hs
  obtain ⟨late, sent, soon, hflow⟩ := hflow
  refine ⟨hflow.isOpen, ?_, fun hstuck ↦ hflow.got_eq hstuck, exists_drained hflow⟩
  have hpre := hflow.exact.isPrefix
  simp only [List.append_assoc] at hpre
  exact (List.prefix_append _ _).trans hpre

/-- A message that comes through while others are published. -/
def goodRun : List Act :=
  [.publish "hello world", .relay, .wrap, .publish "x", .copy, .read 5, .relay, .read 9, .line,
    .wrap, .deliver]

theorem delivered_goodRun : ∃ s, Reach step Good (init .new) s ∧ s.Open ∧
    s.published = ["hello world", "x"] ∧ s.got = ["hello world"] := by
  let s := (run step Good (init .new) goodRun).get (by decide +kernel)
  have hs : Reach step Good (init .new) s := Reach.start.run (Option.some_get _).symm
  exact ⟨s, hs, (delivered .new hs).1, by decide +kernel, by decide +kernel⟩

/-- A message is published and written, and so many bytes of it are read. -/
def sendRun (msg : String) (n : ℕ) : List Act :=
  [.publish msg, .relay, .wrap, .copy, .read n, .line]

/-- One message closes the stream in the handler, one closes it in the client, one arrives as two
and one without its ends. -/
theorem not_delivered :
    (∃ s, Reach step KeepsUp (init .new) s ∧ s.published = ["brexit"] ∧ s.got = [] ∧
      ¬ s.Open) ∧
    (∃ s, Reach step KeepsUp (init .new) s ∧ s.published = ["done"] ∧ s.got = [] ∧
      ¬ s.Open) ∧
    (∃ s, Reach step KeepsUp (init .new) s ∧ s.published = ["a\nb"] ∧
      s.got = ["a", "b"]) ∧
    ∃ s, Reach step KeepsUp (init .new) s ∧ s.published = ["\"quoted\""] ∧
      s.got = ["quoted"] := by
  refine ⟨?_, ?_, ?_, ?_⟩
  · let s := (run step KeepsUp (init .new)
      [.publish "brexit", .relay, .wrap, .copy]).get (by decide +kernel)
    have hs : Reach step KeepsUp (init .new) s := Reach.start.run (Option.some_get _).symm
    have hclosed : s.handler = false := by decide +kernel
    exact ⟨s, hs, by decide +kernel, by decide +kernel,
      fun hopen ↦ Bool.false_ne_true (hclosed.symm.trans hopen.handler)⟩
  · let s := (run step KeepsUp (init .new) (sendRun "done" 5)).get (by decide +kernel)
    have hs : Reach step KeepsUp (init .new) s := Reach.start.run (Option.some_get _).symm
    have hclosed : s.client = false := by decide +kernel
    exact ⟨s, hs, by decide +kernel, by decide +kernel,
      fun hopen ↦ Bool.false_ne_true (hclosed.symm.trans hopen.client)⟩
  · let s := (run step KeepsUp (init .new)
      (sendRun "a\nb" 4 ++ [.line, .deliver, .deliver])).get (by decide +kernel)
    exact ⟨s, Reach.start.run (Option.some_get _).symm, by decide +kernel, by decide +kernel⟩
  · let s := (run step KeepsUp (init .new)
      (sendRun "\"quoted\"" 9 ++ [.deliver])).get (by decide +kernel)
    exact ⟨s, Reach.start.run (Option.some_get _).symm, by decide +kernel, by decide +kernel⟩

end Subscription

end Efis
