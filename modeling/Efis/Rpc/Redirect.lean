import Efis.Rpc.Server
import Efis.Transition.Reach

/-!
# Redirects

A client and its task.  The client has the address of the server, which `redirect_to` changes.  But
the task that opens connections has a copy of its own, from when the client was made, and nobody
tells it of a redirect; nor would it give up a connection that it has.

So everything is written to the first address, whatever was announced (`Session.Anchored`).  A
redirect is followed only where it leads back there (`Session.directed_iff`), and otherwise
`call_with_redirect` asks the same server again.
-/

set_option autoImplicit false

namespace Efis

open Rpc Transition

/-! ## Addresses -/

/-- `parse` for an unsigned number of 16 bits. -/
def parseU16 : List Char → Except String ℕ
  | [] => .error "cannot parse integer from empty string"
  | '+' :: cs => parseSome (2 ^ 16) "number too large to fit in target type" cs
  | cs => parseSome (2 ^ 16) "number too large to fit in target type" cs

/-- The address that `call_with_redirect` makes of the name of a leader.  The sum is again of 16
bits; whether it is checked for overflow, which panics, depends on the build. -/
def leaderAddr (checks : Bool) (leader : String) : Option String :=
  match parseU16 (leader.toList.dropWhile (· = 'n')) with
  | .ok n =>
    if checks ∧ 2 ^ 16 ≤ 3332 + n then none
    else some ("localhost:" ++ toString ((3332 + n) % 2 ^ 16))
  | .error _ => some ("localhost:" ++ toString 3333)

/-! ## The client and its task -/

inductive CallKind where
  | call
  | callStream
  | callWithRedirect
  deriving DecidableEq

/-- A `ClientMsg`.  `since` is not in the source: it is the address of the last `redirect_to` before
the message was sent. -/
structure ClientMsg where
  kind : CallKind
  payload : List Char
  since : Option String
  deriving DecidableEq

/-- A payload that was written, and the address of the connection. -/
structure SentPayload where
  msg : ClientMsg
  peer : String
  deriving DecidableEq

/-- What becomes of a request. -/
inductive Served where
  /-- The response to a call, or the end of a stream. -/
  | answered (line : List Char)
  /-- The payload is written, and then the connection is lost. -/
  | lost
  | unwritten
  deriving DecidableEq

structure Session where
  addr : String
  /-- The copy that `io_loop` has. -/
  taskAddr : String
  /-- The address that the connection was opened to. -/
  stream : Option String
  connected : Bool
  inbox : List ClientMsg
  /-- What the callers have not looked at yet.  `none` if the connection was lost. -/
  answers : List (ClientMsg × Option (List Char))
  /-- The payloads of the callers that wait before they try again. -/
  retrying : List (List Char)
  /-- The address of the last `redirect_to`. -/
  redirect : Option String
  written : List SentPayload
  deriving DecidableEq

namespace Session

/-- `Client::new`. -/
def new (addr : String) : Session where
  addr
  taskAddr := addr
  stream := none
  connected := false
  inbox := []
  answers := []
  retrying := []
  redirect := none
  written := []

def redirectTo (s : Session) (a : String) : Session :=
  { s with addr := a, redirect := some a }

/-- The channel has room for 32 messages. -/
def send (s : Session) (kind : CallKind) (payload : List Char) : Option Session :=
  if s.inbox.length < 32 then some { s with inbox := s.inbox ++ [⟨kind, payload, s.redirect⟩] }
  else none

/-- The caller of a stream gets no answer. -/
def answer (m : ClientMsg) (res : Option (List Char)) : List (ClientMsg × Option (List Char)) :=
  if m.kind = .callStream then [] else [(m, res)]

/-- The task has a message and a connection. -/
def serve (s : Session) (peer : String) (m : ClientMsg) (rest : List ClientMsg) :
    Served → Session
  | .answered line =>
    { s with
      inbox := rest
      answers := s.answers ++ answer m (some line)
      written := s.written ++ [⟨m, peer⟩] }
  | .lost =>
    { s with
      inbox := rest
      stream := none
      answers := s.answers ++ answer m none
      written := s.written ++ [⟨m, peer⟩] }
  | .unwritten =>
    { s with inbox := rest, stream := none, answers := s.answers ++ answer m none }

/-- The leader that a caller is redirected to, if it looks for one. -/
def leader : ClientMsg × Option (List Char) → Option String
  | (⟨.callWithRedirect, _, _⟩, some line) => parseRedirect line
  | _ => none

/-- A caller looks at its answer.  It returns or panics, or it is redirected and waits. -/
def look (checks : Bool) (s : Session) (i : ℕ) (answer : ClientMsg × Option (List Char)) :
    Session :=
  match (leader answer).bind (leaderAddr checks) with
  | some a =>
    { s.redirectTo a with
      answers := s.answers.eraseIdx i
      retrying := s.retrying ++ [answer.1.payload] }
  | none => { s with answers := s.answers.eraseIdx i }

inductive Act where
  | submit (kind : CallKind) (payload : List Char)
  | redirectTo (a : String)
  /-- `TcpStream::connect` succeeds or fails. -/
  | connect (ok : Bool)
  | serve (res : Served)
  | look (i : ℕ)
  /-- A caller tries again. -/
  | retry (i : ℕ)
  deriving DecidableEq

def step (checks : Bool) (s : Session) : Act → Option Session
  | .submit kind payload => s.send kind payload
  | .redirectTo a => some (s.redirectTo a)
  | .connect ok =>
    match s.stream with
    | none =>
      some { s with stream := if ok then some s.taskAddr else none, connected := ok }
    | some _ => none
  | .serve res =>
    match s.stream, s.inbox with
    | some peer, m :: rest => some (s.serve peer m rest res)
    | _, _ => none
  | .look i => (s.answers[i]?).map (s.look checks i)
  | .retry i => do
    let payload ← s.retrying[i]?
    { s with retrying := s.retrying.eraseIdx i }.send .callWithRedirect payload

/-! ## Where payloads go -/

/-- What was sent after a redirect is written to the address of that redirect. -/
def Directed (s : Session) : Prop :=
  ∀ w ∈ s.written, ∀ a ∈ w.msg.since, w.peer = a

/-- Messages are sent only as long as no redirect has led anywhere else. -/
def Good (addr : String) (s : Session) : Act → Prop
  | .submit _ _ | .retry _ => ∀ a ∈ s.redirect, a = addr
  | .redirectTo _ | .connect _ | .serve _ | .look _ => True

instance (addr : String) (s : Session) (a : Act) : Decidable (Good addr s a) :=
  match a with
  | .submit _ _ | .retry _ => inferInstanceAs (Decidable (∀ a ∈ s.redirect, a = addr))
  | .redirectTo _ | .connect _ | .serve _ | .look _ => isTrue trivial

/-- Everything goes to the first address. -/
structure Anchored (addr : String) (s : Session) : Prop where
  taskAddr : s.taskAddr = addr
  stream : ∀ peer ∈ s.stream, peer = addr
  written : ∀ w ∈ s.written, w.peer = addr

variable {checks : Bool} {addr : String} {s s' : Session}

theorem send_eq {t : Session} {kind : CallKind} {payload : List Char}
    (h : t.send kind payload = some s) :
    s = { t with inbox := t.inbox ++ [⟨kind, payload, t.redirect⟩] } := by
  rw [send] at h
  split at h
  · exact (Option.some_inj.mp h).symm
  · cases h

/-- What a step does to the messages, the connection and what is written. -/
theorem step_cases {a : Act} (h : step checks s a = some s') :
    s'.taskAddr = s.taskAddr ∧
    ((∃ m, s'.inbox = s.inbox ++ [m] ∧ m.since = s.redirect ∧
        ((∃ kind payload, a = .submit kind payload) ∨ ∃ i, a = .retry i) ∧
        s'.stream = s.stream ∧ s'.written = s.written) ∨
      (∃ peer m, s.stream = some peer ∧ s.inbox = m :: s'.inbox ∧
        (∀ p ∈ s'.stream, p = peer) ∧
        (s'.written = s.written ∨ s'.written = s.written ++ [⟨m, peer⟩])) ∨
      (s'.inbox = s.inbox ∧ s'.written = s.written ∧
        (s'.stream = s.stream ∨ ∀ p ∈ s'.stream, p = s.taskAddr))) := by
  cases a with
  | submit kind payload =>
    obtain rfl := send_eq h
    exact ⟨rfl, Or.inl ⟨_, rfl, rfl, Or.inl ⟨kind, payload, rfl⟩, rfl, rfl⟩⟩
  | redirectTo a =>
    obtain rfl := Option.some_inj.mp h
    exact ⟨rfl, Or.inr (Or.inr ⟨rfl, rfl, Or.inl rfl⟩)⟩
  | connect ok =>
    simp only [step] at h
    split at h
    · obtain rfl := Option.some_inj.mp h
      refine ⟨rfl, Or.inr (Or.inr ⟨rfl, rfl, Or.inr ?_⟩)⟩
      cases ok <;> simp
    · cases h
  | serve res =>
    simp only [step] at h
    split at h
    · rename_i peer m rest hstream hinbox
      obtain rfl := Option.some_inj.mp h
      cases res with
      | answered line =>
        exact ⟨rfl, Or.inr (Or.inl ⟨peer, m, hstream, hinbox,
          fun p hp ↦ (Option.some_inj.mp (hstream.symm.trans hp)).symm, Or.inr rfl⟩)⟩
      | lost => exact ⟨rfl, Or.inr (Or.inl ⟨peer, m, hstream, hinbox, nofun, Or.inr rfl⟩)⟩
      | unwritten => exact ⟨rfl, Or.inr (Or.inl ⟨peer, m, hstream, hinbox, nofun, Or.inl rfl⟩)⟩
    · cases h
  | look i =>
    obtain ⟨answer, -, rfl⟩ := Option.map_eq_some_iff.mp h
    rw [look]
    split
    · exact ⟨rfl, Or.inr (Or.inr ⟨rfl, rfl, Or.inl rfl⟩)⟩
    · exact ⟨rfl, Or.inr (Or.inr ⟨rfl, rfl, Or.inl rfl⟩)⟩
  | retry i =>
    obtain ⟨payload, -, ht⟩ := Option.bind_eq_some_iff.mp h
    obtain rfl := send_eq ht
    exact ⟨rfl, Or.inl ⟨_, rfl, rfl, Or.inr ⟨i, rfl⟩, rfl, rfl⟩⟩

theorem anchored_new (addr : String) : Anchored addr (new addr) :=
  ⟨rfl, nofun, nofun⟩

/-- Nothing leads away from the first address. -/
theorem Anchored.step (h : Anchored addr s) {a : Act} (hs : step checks s a = some s') :
    Anchored addr s' := by
  obtain ⟨htask, ⟨m, -, -, -, hstream, hwritten⟩ | ⟨peer, m, hpeer, -, hstream, hwritten⟩ |
    ⟨-, hwritten, hstream⟩⟩ := step_cases hs
  · exact ⟨htask.trans h.taskAddr, hstream ▸ h.stream, hwritten ▸ h.written⟩
  · have hpeer := h.stream peer hpeer
    refine ⟨htask.trans h.taskAddr, fun p hp ↦ (hstream p hp).trans hpeer, fun w hw ↦ ?_⟩
    rcases hwritten with heq | heq
    · exact h.written w (heq ▸ hw)
    · rw [heq] at hw
      rcases List.mem_append.mp hw with hw | hw
      · exact h.written w hw
      · rw [List.mem_singleton.mp hw]
        exact hpeer
  · refine ⟨htask.trans h.taskAddr, fun p hp ↦ ?_, hwritten ▸ h.written⟩
    rcases hstream with heq | hnew
    · exact h.stream p (heq ▸ hp)
    · exact (hnew p hp).trans h.taskAddr

theorem anchored_of_reach {ok : Session → Act → Prop}
    (h : Reach (step checks) ok (new addr) s) : Anchored addr s :=
  h.inv (anchored_new addr) fun _ _ _ hinv _ hs ↦ hinv.step hs

/-- No message was sent after a redirect to another address. -/
structure Unmoved (addr : String) (s : Session) : Prop where
  inbox : ∀ m ∈ s.inbox, ∀ a ∈ m.since, a = addr
  written : ∀ w ∈ s.written, ∀ a ∈ w.msg.since, a = addr

theorem Unmoved.step (h : Unmoved addr s) {a : Act} (hgood : Good addr s a)
    (hs : step checks s a = some s') : Unmoved addr s' := by
  obtain ⟨-, ⟨m, hinbox, hsince, hact, -, hwritten⟩ | ⟨peer, m, -, hinbox, -, hwritten⟩ |
    ⟨hinbox, hwritten, -⟩⟩ := step_cases hs
  · refine ⟨fun x hx ↦ ?_, hwritten ▸ h.written⟩
    rw [hinbox] at hx
    rcases List.mem_append.mp hx with hx | hx
    · exact h.inbox x hx
    · rw [List.mem_singleton.mp hx, hsince]
      rcases hact with ⟨kind, payload, rfl⟩ | ⟨i, rfl⟩
      · exact hgood
      · exact hgood
  · have hm := h.inbox m (by rw [hinbox]; exact List.mem_cons_self)
    refine ⟨fun x hx ↦ h.inbox x (by rw [hinbox]; exact List.mem_cons_of_mem m hx),
      fun w hw ↦ ?_⟩
    rcases hwritten with heq | heq
    · exact h.written w (heq ▸ hw)
    · rw [heq] at hw
      rcases List.mem_append.mp hw with hw | hw
      · exact h.written w hw
      · rw [List.mem_singleton.mp hw]
        exact hm
  · exact ⟨hinbox ▸ h.inbox, hwritten ▸ h.written⟩

/-- **When a redirect is followed.**  In every run, with any connections and losses between the
steps: if messages are sent only as long as no redirect has led to another address than the first
one, everything is written to the address of the last redirect; and whatever is sent, it is so
exactly if the last redirect before each message that was written led to the first address. -/
theorem directed_iff (checks : Bool) (addr : String) (s : Session) :
    (Reach (step checks) (Good addr) (new addr) s → s.Directed) ∧
    (Reach (step checks) (fun _ _ ↦ True) (new addr) s →
      (s.Directed ↔ ∀ w ∈ s.written, ∀ a ∈ w.msg.since, a = addr)) := by
  have hdirected : Anchored addr s →
      (s.Directed ↔ ∀ w ∈ s.written, ∀ a ∈ w.msg.since, a = addr) := by
    intro h
    refine forall₂_congr fun w hw ↦ forall₂_congr fun a _ ↦ ?_
    rw [h.written w hw, eq_comm]
  refine ⟨fun h ↦ (hdirected (anchored_of_reach h)).mpr ?_, fun h ↦ hdirected (anchored_of_reach h)⟩
  have hunmoved : Unmoved addr s :=
    h.inv ⟨nofun, nofun⟩ fun _ _ _ hinv hgood hs ↦ hinv.step hgood hs
  exact hunmoved.written

/-- A node is asked, says that the first one leads, and is asked again. -/
def askAgain : List Act :=
  [.connect true, .submit .callWithRedirect "set \x7bkey=a value=b\x7d".toList,
    .serve (.answered (serialize (RpcError.notLeader "n1"))), .look 0, .retry 0,
    .serve (.answered (serialize (RpcError.notLeader "n1")))]

/-- The first node sends the client back to itself. -/
theorem directed_iff_self :
    ∃ s, Reach (step true) (Good "localhost:3333") (new "localhost:3333") s ∧ s.Directed ∧
      s.written.map (fun w ↦ (w.msg.since, w.peer)) =
        [(none, "localhost:3333"), (some "localhost:3333", "localhost:3333")] := by
  let s := (run (step true) (Good "localhost:3333") (new "localhost:3333") askAgain).get
    (by decide +kernel)
  have hs : Reach (step true) (Good "localhost:3333") (new "localhost:3333") s :=
    Reach.start.run (Option.some_get _).symm
  exact ⟨s, hs, (directed_iff true "localhost:3333" s).1 hs, by decide +kernel⟩

/-- The second node is asked again, although the first one is announced. -/
theorem not_directed :
    ∃ s, Reach (step true) (fun _ _ ↦ True) (new "localhost:3334") s ∧ ¬ s.Directed ∧
      s.written.map (fun w ↦ (w.msg.since, w.peer)) =
        [(none, "localhost:3334"), (some "localhost:3333", "localhost:3334")] := by
  let s := (run (step true) (fun _ _ ↦ True) (new "localhost:3334") askAgain).get
    (by decide +kernel)
  have hs : Reach (step true) (fun _ _ ↦ True) (new "localhost:3334") s :=
    Reach.start.run (Option.some_get _).symm
  have hmoved : ¬ ∀ w ∈ s.written, ∀ a ∈ w.msg.since, w.peer = a := by decide +kernel
  exact ⟨s, hs, hmoved, by decide +kernel⟩

end Session

end Efis
