import Efis.Rpc.Server
import Efis.Transition.Reach
import Mathlib.Data.List.Basic

/-!
# Accepting connections

`RpcServer::run`, with the loop of its `Listener` and the handlers that the loop spawns.  A permit
is acquired before a connection is accepted, and its handler keeps it to the end.  `accept` is tried
again after an error, a second later at first and after twice as long each time, and when it has
given up the listener drops its end of the shutdown channel and waits for all handlers to be gone.

The permits are always accounted for, and the listener gives up exactly when eight calls in a row
have failed (`connections_counted`).  Then it still returns only if nobody is in a stream or in a
method that does not return (`drains_iff`): a handler looks at the shutdown only between two
requests, the stream of a subscription does not end by itself, and `get` and `ttl` of an expired key
wait for ever.
-/

set_option autoImplicit false

namespace Efis

open Transition

/-- `MAX_CONNECTIONS`. -/
def maxConnections : ℕ := 1000

/-! ## The handlers -/

namespace Handler

/-- Where the task of a connection is. -/
inductive Phase where
  /-- In the `select!`, for a line or for the shutdown. -/
  | reading
  /-- A line is dispatched, and a line is written for it. -/
  | serving (req : List Char)
  | streaming
  /-- The method that was dispatched waits for ever. -/
  | blocked
  /-- `run` has returned, and the permit is about to be dropped. -/
  | ended
  deriving DecidableEq

inductive Act where
  | line (req : List Char)
  /-- The method returns. -/
  | answer (d : Dispatcher)
  /-- It does not, and never will. -/
  | block
  | streamEnd
  /-- The connection is at its end or fails, or the method panics. -/
  | hangUp
  | shutdown

/-- One step, `down` if the sender of the shutdown channel is gone. -/
def step (down : Bool) : Phase → Act → Option Phase
  | .reading, .line req => some (.serving req)
  | .serving req, .answer d =>
    match reply d req with
    | .line _ => some .reading
    | .stream => some .streaming
  | .serving _, .block => some .blocked
  | .streaming, .streamEnd => some .reading
  | .reading, .shutdown => if down then some .ended else none
  | .reading, .hangUp | .serving _, .hangUp | .streaming, .hangUp => some .ended
  | _, _ => none

/-- What becomes of the method of a request. -/
inductive Fate where
  | returns
  | blocks
  | panics
  deriving DecidableEq

/-- The handler stays where it is: in a stream, or in a method that does not return.  Or it gets
there with the request that it serves. -/
def Phase.Stays (d : Dispatcher) (fate : List Char → Fate) : Phase → Prop
  | .streaming | .blocked => True
  | .serving req => fate req = .blocks ∨ fate req = .returns ∧ reply d req = .stream
  | .reading | .ended => False

end Handler

/-! ## The listener -/

/-- Where `RpcServer::run` is. -/
inductive Acceptor where
  /-- In the loop of `Listener::run`, for a permit. -/
  | acquiring
  | accepting (backoff : ℕ)
  | sleeping (backoff : ℕ)
  /-- `Listener::run` has returned, and the handlers are waited for. -/
  | draining
  | returned
  deriving DecidableEq

structure Listener where
  /-- The permits that are left in `limit_connections`. -/
  permits : ℕ
  acceptor : Acceptor
  handlers : List Handler.Phase
  /-- How the calls of `accept` have ended, the last one first.  It is not in the source. -/
  accepts : List Bool

namespace Listener

open Handler (Phase Fate)

def start : Listener := ⟨maxConnections, .acquiring, [], []⟩

inductive Act where
  | acquire
  | accept (ok : Bool)
  | wake
  | handler (k : ℕ) (a : Handler.Act)
  | release (k : ℕ)
  | finish

variable (s : Listener)

/-- `notify_shutdown` has been dropped. -/
def down : Bool :=
  match s.acceptor with
  | .draining | .returned => true
  | _ => false

/-- The permit that the loop itself holds. -/
def held : ℕ :=
  match s.acceptor with
  | .accepting _ | .sleeping _ => 1
  | _ => 0

/-- How often `accept` has failed since it last did not. -/
def failures : ℕ := (s.accepts.takeWhile (!·)).length

def put (k : ℕ) (p : Phase) : Listener :=
  { s with handlers := s.handlers.set k p }

/-- What an error of `accept` leads to: the permit is dropped with the loop, or it is slept. -/
def fail (backoff : ℕ) : Listener :=
  if 64 < backoff then
    { s with permits := s.permits + 1, acceptor := .draining, accepts := false :: s.accepts }
  else { s with acceptor := .sleeping backoff, accepts := false :: s.accepts }

def step (s : Listener) : Act → Option Listener
  | .acquire =>
    if s.acceptor = .acquiring ∧ 0 < s.permits then
      some { s with permits := s.permits - 1, acceptor := .accepting 1 }
    else none
  | .accept ok =>
    match s.acceptor with
    | .accepting backoff =>
      if ok then
        some { s with
          acceptor := .acquiring
          handlers := s.handlers ++ [.reading]
          accepts := true :: s.accepts }
      else some (s.fail backoff)
    | _ => none
  | .wake =>
    match s.acceptor with
    | .sleeping backoff => some { s with acceptor := .accepting (backoff * 2) }
    | _ => none
  | .handler k a => do
    let p ← s.handlers[k]?
    let p' ← Handler.step s.down p a
    some (s.put k p')
  | .release k =>
    if s.handlers[k]? = some .ended then
      some { s with permits := s.permits + 1, handlers := s.handlers.eraseIdx k }
    else none
  | .finish =>
    if s.acceptor = .draining ∧ ∀ p ∈ s.handlers, p = .ended then
      some { s with acceptor := .returned }
    else none

/-! ## What is counted -/

/-- What the place in the loop says about the calls of `accept` so far. -/
def Backoff : Prop :=
  match s.acceptor with
  | .acquiring => s.failures = 0
  | .accepting backoff => backoff = 2 ^ s.failures ∧ s.failures < 8
  | .sleeping backoff => backoff * 2 = 2 ^ s.failures ∧ s.failures < 8
  | .draining | .returned => s.failures = 8

structure Inv : Prop where
  permits : s.permits + s.held + s.handlers.length = maxConnections
  backoff : s.Backoff
  returned : s.acceptor = .returned → ∀ p ∈ s.handlers, p = .ended

variable {s} {s' : Listener}

theorem Inv.start : Inv Listener.start := ⟨rfl, rfl, by simp [Listener.start]⟩

theorem Inv.acquire (h : s.Inv) (hs : s.step .acquire = some s') : s'.Inv := by
  rw [Listener.step] at hs
  split at hs
  · rename_i hac
    obtain ⟨ha, hpos⟩ := hac
    obtain rfl := Option.some_inj.mp hs
    have hp := h.permits
    have hb := h.backoff
    rw [held, ha] at hp
    rw [Backoff, ha] at hb
    dsimp only at hp
    refine ⟨?_, ⟨?_, ?_⟩, fun hr ↦ by cases hr⟩
    · simp only [held]
      omega
    · change 1 = 2 ^ s.failures
      rw [hb, pow_zero]
    · change s.failures < 8
      omega
  · cases hs

theorem Inv.fail (h : s.Inv) {backoff : ℕ} (ha : s.acceptor = .accepting backoff) :
    (s.fail backoff).Inv := by
  have hp := h.permits
  have hb := h.backoff
  rw [held, ha] at hp
  rw [Backoff, ha] at hb
  obtain ⟨hb, hlt⟩ := hb
  rw [Listener.fail]
  split
  · rename_i h64
    refine ⟨?_, ?_, fun hr ↦ by cases hr⟩
    · simp only [held]
      omega
    · -- only the seventh power of two is above 64
      have h7 : 6 < s.failures := by
        by_contra hle
        have hpow : 2 ^ s.failures ≤ 2 ^ 6 := Nat.pow_le_pow_right (by decide) (by omega)
        omega
      change s.failures + 1 = 8
      omega
  · rename_i h64
    refine ⟨hp, ⟨?_, ?_⟩, fun hr ↦ by cases hr⟩
    · change backoff * 2 = 2 ^ (s.failures + 1)
      rw [pow_succ, hb]
    · change s.failures + 1 < 8
      by_contra hle
      have h7 : s.failures = 7 := by omega
      rw [h7] at hb
      omega

theorem Inv.accept (h : s.Inv) {ok : Bool} (hs : s.step (.accept ok) = some s') : s'.Inv := by
  rw [Listener.step] at hs
  split at hs
  · rename_i backoff ha
    split at hs
    · obtain rfl := Option.some_inj.mp hs
      have hp := h.permits
      rw [held, ha] at hp
      dsimp only at hp
      refine ⟨?_, rfl, fun hr ↦ by cases hr⟩
      simp only [held, List.length_append, List.length_singleton]
      omega
    · obtain rfl := Option.some_inj.mp hs
      exact h.fail ha
  · cases hs

theorem Inv.wake (h : s.Inv) (hs : s.step .wake = some s') : s'.Inv := by
  rw [Listener.step] at hs
  split at hs
  · rename_i backoff ha
    obtain rfl := Option.some_inj.mp hs
    have hp := h.permits
    have hb := h.backoff
    rw [held, ha] at hp
    rw [Backoff, ha] at hb
    exact ⟨hp, hb, fun hr ↦ by cases hr⟩
  · cases hs

/-- One of the handlers goes on.  None of them has ended yet. -/
theorem step_handler {k : ℕ} {a : Handler.Act} (hs : s.step (.handler k a) = some s') :
    ∃ p p', s.handlers[k]? = some p ∧ p ≠ .ended ∧ Handler.step s.down p a = some p' ∧
      s' = s.put k p' := by
  obtain ⟨p, hp, hs⟩ := Option.bind_eq_some_iff.mp hs
  obtain ⟨p', hp', hs⟩ := Option.bind_eq_some_iff.mp hs
  refine ⟨p, p', hp, ?_, hp', (Option.some_inj.mp hs).symm⟩
  rintro rfl
  cases a with
  | _ => cases hp'

theorem Inv.handler (h : s.Inv) {k : ℕ} {a : Handler.Act}
    (hs : s.step (.handler k a) = some s') : s'.Inv := by
  obtain ⟨p, p', hp, hne, -, rfl⟩ := step_handler hs
  refine ⟨?_, h.backoff, fun hr ↦ ?_⟩
  · rw [put, List.length_set]
    exact h.permits
  · exact absurd (h.returned hr p (List.mem_of_getElem? hp)) hne

theorem Inv.release (h : s.Inv) {k : ℕ} (hs : s.step (.release k) = some s') : s'.Inv := by
  rw [Listener.step] at hs
  split at hs
  · rename_i hk
    obtain rfl := Option.some_inj.mp hs
    have hlt : k < s.handlers.length := (List.getElem?_eq_some_iff.mp hk).1
    have hp := h.permits
    refine ⟨?_, h.backoff, fun hr p hmem ↦ h.returned hr p (List.mem_of_mem_eraseIdx hmem)⟩
    have hheld : ({ s with permits := s.permits + 1, handlers := s.handlers.eraseIdx k } :
        Listener).held = s.held := rfl
    rw [hheld]
    dsimp only
    rw [List.length_eraseIdx_of_lt hlt]
    omega
  · cases hs

theorem Inv.finish (h : s.Inv) (hs : s.step .finish = some s') : s'.Inv := by
  rw [Listener.step] at hs
  split at hs
  · rename_i hac
    obtain ⟨ha, hall⟩ := hac
    obtain rfl := Option.some_inj.mp hs
    have hp := h.permits
    have hb := h.backoff
    rw [held, ha] at hp
    rw [Backoff, ha] at hb
    exact ⟨hp, hb, fun _ ↦ hall⟩
  · cases hs

theorem Inv.step (h : s.Inv) {a : Act} (hs : s.step a = some s') : s'.Inv := by
  cases a with
  | acquire => exact h.acquire hs
  | accept ok => exact h.accept hs
  | wake => exact h.wake hs
  | handler k a => exact h.handler hs
  | release k => exact h.release hs
  | finish => exact h.finish hs

/-- After the listener has given up no connection is added. -/
theorem length_handlers_step (hd : s.down = true) {a : Act} (hs : s.step a = some s') :
    s'.down = true ∧ s'.handlers.length ≤ s.handlers.length := by
  cases a with
  | acquire =>
    rw [Listener.step] at hs
    split at hs
    · rename_i hac
      rw [down, hac.1] at hd
      cases hd
    · cases hs
  | accept ok =>
    rw [Listener.step] at hs
    split at hs
    · rename_i backoff ha
      rw [down, ha] at hd
      cases hd
    · cases hs
  | wake =>
    rw [Listener.step] at hs
    split at hs
    · rename_i backoff ha
      rw [down, ha] at hd
      cases hd
    · cases hs
  | handler k a =>
    obtain ⟨p, p', -, -, -, rfl⟩ := step_handler hs
    exact ⟨hd, (List.length_set ..).le⟩
  | release k =>
    rw [Listener.step] at hs
    split at hs
    · obtain rfl := Option.some_inj.mp hs
      exact ⟨hd, List.length_eraseIdx_le ..⟩
    · cases hs
  | finish =>
    rw [Listener.step] at hs
    split at hs
    · obtain rfl := Option.some_inj.mp hs
      exact ⟨rfl, le_rfl⟩
    · cases hs

theorem Inv.down_iff (h : s.Inv) : s.down = true ↔ 8 ≤ s.failures := by
  have hb := h.backoff
  rw [Backoff] at hb
  rw [down]
  cases ha : s.acceptor with
  | acquiring | accepting backoff | sleeping backoff =>
    rw [ha] at hb
    dsimp only at hb ⊢
    exact ⟨fun hf ↦ Bool.noConfusion hf, fun hf ↦ by omega⟩
  | draining | returned =>
    rw [ha] at hb
    dsimp only at hb ⊢
    exact ⟨fun _ ↦ hb.ge, fun _ ↦ rfl⟩

theorem Inv.reach {ok : Listener → Act → Prop} (h : s.Inv) (hr : Reach Listener.step ok s s') :
    s'.Inv := by
  let I : Listener → Prop := fun s ↦ s.Inv
  have hkeep : ∀ s a s', I s → ok s a → Listener.step s a = some s' → I s' :=
    fun s a s' hi _ hs ↦ hi.step hs
  exact hr.inv h hkeep

/-- **Connections are counted.**  In every run, whatever the clients and the network do: there are
at most 1000 connections, and the loop waits for a permit exactly while there are 1000; the listener
has given up exactly if the last eight calls of `accept` have failed; after that there are never
more connections than before; and once `run` has returned no handler runs any more. -/
theorem connections_counted (h : Reach Listener.step (fun _ _ ↦ True) Listener.start s) :
    s.handlers.length ≤ maxConnections ∧
    (s.acceptor = .acquiring → (s.permits = 0 ↔ s.handlers.length = maxConnections)) ∧
    (s.down = true ↔ 8 ≤ s.failures) ∧
    (∀ s', Reach Listener.step (fun _ _ ↦ True) s s' → s.down = true →
      s'.down = true ∧ s'.handlers.length ≤ s.handlers.length) ∧
    (s.acceptor = .returned → ∀ p ∈ s.handlers, p = .ended) := by
  have hinv : s.Inv := Inv.start.reach h
  have hp := hinv.permits
  refine ⟨by omega, fun ha ↦ ?_, hinv.down_iff, fun s' hr hd ↦ ?_, hinv.returned⟩
  · rw [held, ha] at hp
    dsimp only at hp
    omega
  · let I : Listener → Prop := fun t ↦ t.down = true ∧ t.handlers.length ≤ s.handlers.length
    have hkeep : ∀ t a t', I t → True → Listener.step t a = some t' → I t' := by
      intro t a t' hi _ hs
      obtain ⟨hdown, hle⟩ := length_handlers_step hi.1 hs
      exact ⟨hdown, hle.trans hi.2⟩
    exact hr.inv (show I s from ⟨hd, le_rfl⟩) hkeep

/-- One connection is accepted, and then nothing but errors. -/
theorem connections_counted_eight :
    ∃ s, Reach Listener.step (fun _ _ ↦ True) Listener.start s ∧ s.handlers = [.reading] ∧
      8 ≤ s.failures := by
  have hr : Reach Listener.step (fun _ _ ↦ True) Listener.start
      ((run Listener.step (fun _ _ ↦ True) Listener.start ([.acquire, .accept true, .acquire] ++
        (List.replicate 7 [.accept false, .wake]).flatten ++ [.accept false])).get (by decide)) :=
    Reach.start.run (Option.some_get _).symm
  exact ⟨_, hr, by decide, (connections_counted hr).2.2.1.mp (by decide)⟩

/-! ## The end -/

/-- The steps that need nobody else: no line comes in, no connection fails and no stream ends.  A
handler is hung up only by a method that panics. -/
def Own (d : Dispatcher) (fate : List Char → Fate) (s : Listener) : Act → Prop
  | .handler k (.answer e) =>
    e = d ∧ ∀ req, s.handlers[k]? = some (.serving req) → fate req = .returns
  | .handler k .block => ∀ req, s.handlers[k]? = some (.serving req) → fate req = .blocks
  | .handler k .hangUp => ∃ req, s.handlers[k]? = some (.serving req) ∧ fate req = .panics
  | .handler _ .shutdown | .release _ | .finish => True
  | _ => False

variable {d : Dispatcher} {fate : List Char → Fate}

/-- A handler that does not stay ends by itself. -/
theorem reach_ended (ha : s.acceptor = .draining) {k : ℕ} {p : Phase}
    (hk : s.handlers[k]? = some p) (hp : ¬ p.Stays d fate) :
    Reach Listener.step (Own d fate) s (s.put k .ended) := by
  have hlt : k < s.handlers.length := (List.getElem?_eq_some_iff.mp hk).1
  have hread : ∀ {t : Listener}, Reach Listener.step (Own d fate) s t → t.acceptor = .draining →
      t.handlers[k]? = some .reading → Reach Listener.step (Own d fate) s (t.put k .ended) := by
    intro t hr hd hread
    have hdown : t.down = true := by rw [down, hd]
    have hstep : t.step (.handler k .shutdown) = some (t.put k .ended) := by
      simp only [Listener.step, hread, hdown, Handler.step, Option.bind_eq_bind, Option.bind_some,
        if_true]
    exact hr.step (a := .handler k .shutdown) trivial hstep
  cases p with
  | reading => exact hread .start ha hk
  | serving req =>
    cases hfate : fate req with
    | blocks => exact absurd (Or.inl hfate) hp
    | panics =>
      have hown : Own d fate s (.handler k .hangUp) := ⟨req, hk, hfate⟩
      have hhang : s.step (.handler k .hangUp) = some (s.put k .ended) := by
        simp only [Listener.step, hk, Handler.step, Option.bind_eq_bind, Option.bind_some]
      exact Reach.start.step (a := .handler k .hangUp) hown hhang
    | returns =>
      obtain ⟨res, hres⟩ : ∃ res, Handler.reply d req = .line res := by
        cases hres : Handler.reply d req with
        | line res => exact ⟨res, rfl⟩
        | stream => exact absurd (Or.inr ⟨hfate, hres⟩) hp
      have hown : Own d fate s (.handler k (.answer d)) := by
        refine ⟨rfl, fun req' hreq ↦ ?_⟩
        obtain rfl := Phase.serving.inj (Option.some_inj.mp (hk.symm.trans hreq))
        exact hfate
      have hanswer : s.step (.handler k (.answer d)) = some (s.put k .reading) := by
        simp only [Listener.step, hk, Handler.step, hres, Option.bind_eq_bind, Option.bind_some]
      have hserved : Reach Listener.step (Own d fate) s (s.put k .reading) :=
        Reach.start.step (a := .handler k (.answer d)) hown hanswer
      have hput : (s.put k .reading).put k .ended = s.put k .ended := by
        rw [put, put, put, List.set_set]
      exact hput ▸ hread hserved ha (List.getElem?_set_self hlt)
  | streaming | blocked => exact absurd trivial hp
  | ended =>
    have hset : s.handlers.set k .ended = s.handlers := by
      obtain ⟨_, hget⟩ := List.getElem?_eq_some_iff.mp hk
      rw [← hget, List.set_getElem_self]
    rw [put, hset]
    exact .start

/-- All handlers end one after the other. -/
theorem reach_returned (ha : s.acceptor = .draining)
    (hall : ∀ p ∈ s.handlers, ¬ p.Stays d fate) :
    ∃ s', Reach Listener.step (Own d fate) s s' ∧ s'.acceptor = .returned := by
  let I : Listener → Prop := fun t ↦ t.acceptor = .draining ∧ ∀ p ∈ t.handlers, ¬ p.Stays d fate
  let G : Listener → Prop := fun t ↦ ∀ p ∈ t.handlers, p = .ended
  -- what comes down is the number of handlers that have not ended
  have hnext : ∀ t, I t → ¬ G t → ∃ t', Reach Listener.step (Own d fate) t t' ∧ I t' ∧
      t'.handlers.countP (· ≠ .ended) < t.handlers.countP (· ≠ .ended) := by
    intro t hi hg
    obtain ⟨p, hmem, hp⟩ : ∃ p ∈ t.handlers, p ≠ .ended := by
      by_contra hne
      exact hg fun p hmem ↦ by_contra fun hp ↦ hne ⟨p, hmem, hp⟩
    obtain ⟨k, hlt, rfl⟩ := List.mem_iff_getElem.mp hmem
    refine ⟨t.put k .ended, reach_ended hi.1 (List.getElem?_eq_getElem hlt) (hi.2 _ hmem),
      ⟨hi.1, fun q hq ↦ ?_⟩, ?_⟩
    · rcases List.mem_or_eq_of_mem_set hq with hq | rfl
      · exact hi.2 q hq
      · exact id
    · have hpos : 0 < t.handlers.countP (· ≠ .ended) :=
        List.countP_pos_iff.mpr ⟨_, hmem, decide_eq_true hp⟩
      rw [put]
      dsimp only
      rw [List.countP_set hlt, if_pos (decide_eq_true hp), if_neg (by simp)]
      omega
  obtain ⟨t, hr, ht, hended⟩ := exists_reach (fun t ↦ t.handlers.countP (· ≠ .ended)) hnext
    (show I s from ⟨ha, hall⟩)
  have hstep : t.step .finish = some { t with acceptor := .returned } := if_pos ⟨ht.1, hended⟩
  exact ⟨_, hr.step (a := .finish) trivial hstep, rfl⟩

/-- A handler that stays does so in every step. -/
theorem stays_step (ha : s.acceptor = .draining)
    (hstay : ∃ p ∈ s.handlers, p.Stays d fate) {a : Act} (hown : Own d fate s a)
    (hs : s.step a = some s') :
    s'.acceptor = .draining ∧ ∃ p ∈ s'.handlers, p.Stays d fate := by
  obtain ⟨p, hmem, hp⟩ := hstay
  cases a with
  | acquire | accept ok | wake => exact absurd hown id
  | handler k a =>
    obtain ⟨q, q', hq, -, hstep, rfl⟩ := step_handler hs
    refine ⟨ha, ?_⟩
    obtain ⟨j, hj⟩ := List.mem_iff_getElem?.mp hmem
    by_cases hjk : j = k
    · subst hjk
      obtain rfl := Option.some_inj.mp (hj.symm.trans hq)
      have hlt : j < s.handlers.length := (List.getElem?_eq_some_iff.mp hj).1
      refine ⟨q', List.mem_set hlt q', ?_⟩
      cases p with
      | reading => exact absurd hp id
      | ended => exact absurd hp id
      | streaming =>
        cases a with
        | answer e | block | shutdown => cases hstep
        | line req | streamEnd => exact absurd hown id
        | hangUp =>
          obtain ⟨req, hreq, -⟩ := hown
          cases hq.symm.trans hreq
      | blocked =>
        cases a with
        | _ => cases hstep
      | serving req =>
        cases a with
        | answer e =>
          obtain ⟨rfl, hreturns⟩ := hown
          have hfate := hreturns req hq
          rcases hp with hblocks | ⟨-, hreply⟩
          · cases hblocks.symm.trans hfate
          · rw [Handler.step, hreply] at hstep
            exact Option.some_inj.mp hstep ▸ trivial
        | block => exact Option.some_inj.mp hstep ▸ trivial
        | shutdown => cases hstep
        | line req | streamEnd => exact absurd hown id
        | hangUp =>
          obtain ⟨req', hreq, hpanics⟩ := hown
          obtain rfl := Phase.serving.inj (Option.some_inj.mp (hq.symm.trans hreq))
          rcases hp with hblocks | ⟨hreturns, -⟩
          · cases hblocks.symm.trans hpanics
          · cases hreturns.symm.trans hpanics
    · refine ⟨p, List.mem_of_getElem? (i := j) ?_, hp⟩
      rw [put, List.getElem?_set_ne (Ne.symm hjk)]
      exact hj
  | release k =>
    rw [Listener.step] at hs
    split at hs
    · rename_i hk
      obtain rfl := Option.some_inj.mp hs
      refine ⟨ha, p, ?_, hp⟩
      obtain ⟨j, hj⟩ := List.mem_iff_getElem?.mp hmem
      refine List.mem_eraseIdx_iff_getElem?.mpr ⟨j, ?_, hj⟩
      rintro rfl
      obtain rfl := Option.some_inj.mp (hj.symm.trans hk)
      exact hp
    · cases hs
  | finish =>
    rw [Listener.step] at hs
    split at hs
    · rename_i hac
      obtain rfl := hac.2 p hmem
      exact absurd hp id
    · cases hs

/-- **A stream keeps the server from ending.**  After the listener has given up, `run` comes to its
end by the steps of the server alone exactly if no handler is in a stream or serves a request that
opens one, and none is in a method that never returns or serves a request for one.  Handlers between
two requests and those that serve any other request end. -/
theorem drains_iff (ha : s.acceptor = .draining) (d : Dispatcher) (fate : List Char → Fate) :
    (∃ s', Reach Listener.step (Own d fate) s s' ∧ s'.acceptor = .returned) ↔
      ∀ p ∈ s.handlers, ¬ p.Stays d fate := by
  refine ⟨?_, reach_returned ha⟩
  rintro ⟨s', hr, hret⟩ p hmem hp
  let I : Listener → Prop := fun t ↦ t.acceptor = .draining ∧ ∃ p ∈ t.handlers, p.Stays d fate
  have hkeep : ∀ t a t', I t → Own d fate t a → Listener.step t a = some t' → I t' :=
    fun t a t' hi hown hs ↦ stays_step hi.1 hi.2 hown hs
  have hI : I s' := hr.inv (show I s from ⟨ha, p, hmem, hp⟩) hkeep
  cases hI.1.symm.trans hret

/-- A connection without a request, one with a request for a method that there is not, and one with
a request whose method panics. -/
theorem drains_iff_three :
    ∃ s', Reach Listener.step (Own ⟨fun _ ↦ none, fun _ ↦ none⟩
        fun req ↦ if req = "x".toList then .returns else .panics)
      ⟨997, .draining, [.reading, .serving "x".toList, .serving "y".toList],
        List.replicate 8 false ++ [true, true, true]⟩ s' ∧
      s'.acceptor = .returned := by
  refine (drains_iff rfl _ _).mpr fun p hmem hp ↦ ?_
  rcases List.mem_cons.mp hmem with rfl | hmem
  · exact hp
  · rcases List.mem_cons.mp hmem with rfl | hmem
    · have hreply : Handler.reply ⟨fun _ ↦ none, fun _ ↦ none⟩ "x".toList ≠ .stream := by
        decide +kernel
      rcases hp with hblocks | ⟨-, hstream⟩
      · cases hblocks
      · exact hreply hstream
    · obtain rfl := List.mem_singleton.mp hmem
      rcases hp with hblocks | ⟨hreturns, -⟩
      · revert hblocks
        decide
      · revert hreturns
        decide

end Listener

end Efis
