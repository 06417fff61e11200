import Mathlib.Data.List.Infix
import Mathlib.Tactic.Common

/-!
# A broadcast channel with a reader

A bounded ring that overwrites its oldest value, and one reader of it.  Positions count all values
that were ever sent.  The reader keeps the position it wants next; when that value is no longer in
the ring it is told that it lags, and continues with the oldest value still there.

`Link.Lossy` relates such a channel to what was sent since the reader subscribed and what it
received: a subsequence, always.  `Link.Exact` says that nothing was passed over, and is kept by a
`send` as long as the reader is less than the capacity of the ring behind.
-/

set_option autoImplicit false

namespace Channel

variable {α : Type} {cap : ℕ}

/-! ## The ring -/

/-- The last `cap` of the `tail` values that were sent. -/
structure Ring (α : Type) (cap : ℕ) where
  slots : List α
  tail : ℕ
  length_slots : slots.length = min tail cap

namespace Ring

/-- A ring to which nothing was sent. -/
def new : Ring α cap where
  slots := []
  tail := 0
  length_slots := (Nat.zero_min cap).symm

/-- Send a value, in the place of the oldest if the ring is full. -/
def send (r : Ring α cap) (x : α) : Ring α cap where
  slots := (r.slots ++ [x]).drop (r.slots.length + 1 - cap)
  tail := r.tail + 1
  length_slots := by
    have := r.length_slots
    simp only [List.length_drop, List.length_append, List.length_singleton]
    omega

/-- The position of the oldest value in the ring. -/
def oldest (r : Ring α cap) : ℕ :=
  r.tail - cap

/-- The value at a position, if it is in the ring. -/
def at? (r : Ring α cap) (pos : ℕ) : Option α :=
  if r.oldest ≤ pos then r.slots[pos - r.oldest]? else none

theorem lt_tail_of_at? {r : Ring α cap} {pos : ℕ} {x : α} (h : r.at? pos = some x) :
    pos < r.tail := by
  rw [at?] at h
  split at h
  · obtain ⟨hlt, -⟩ := List.getElem?_eq_some_iff.mp h
    rw [r.length_slots] at hlt
    rw [oldest] at *
    omega
  · cases h

theorem at?_send {r : Ring α cap} {x y : α} {pos : ℕ} (h : (r.send x).at? pos = some y) :
    r.at? pos = some y ∨ (pos = r.tail ∧ y = x) := by
  have hlt := lt_tail_of_at? h
  have hlen := r.length_slots
  rw [at?] at h
  split at h
  · rename_i hold
    simp only [send, oldest] at h hold hlt
    rw [List.getElem?_drop] at h
    rcases Nat.lt_or_ge pos r.tail with hpos | hpos
    · rw [List.getElem?_append_left (by omega)] at h
      refine Or.inl ?_
      rw [at?, oldest, if_pos (by omega), ← h]
      congr 1
      omega
    · rw [List.getElem?_append_right (by omega),
        show r.slots.length + 1 - cap + (pos - (r.tail + 1 - cap)) - r.slots.length = 0 by omega]
        at h
      exact Or.inr ⟨by omega, (Option.some_inj.mp h).symm⟩
  · cases h

end Ring

/-! ## The reader -/

/-- A ring and the position its reader wants next. -/
structure Link (α : Type) (cap : ℕ) where
  ring : Ring α cap
  next : ℕ

namespace Link

/-- A reader that subscribes gets what is sent from then on. -/
def subscribe (r : Ring α cap) : Link α cap :=
  ⟨r, r.tail⟩

def send (l : Link α cap) (x : α) : Link α cap :=
  { l with ring := l.ring.send x }

/-- How many values the reader has not received yet. -/
def backlog (l : Link α cap) : ℕ :=
  l.ring.tail - l.next

/-- Receive a value, or notice that values were missed.  With nothing to receive the reader
waits. -/
def recv (l : Link α cap) : Option (Option α × Link α cap) :=
  match l.ring.at? l.next with
  | some x => some (some x, { l with next := l.next + 1 })
  | none =>
    if l.next < l.ring.oldest then
      some (none, { l with next := l.ring.oldest })
    else none

/-- What the ring holds is what was sent.  The reader subscribed at position `base`. -/
structure Lossy (base : ℕ) (l : Link α cap) (sent got : List α) : Prop where
  tail : l.ring.tail = base + sent.length
  value : ∀ i x, l.ring.at? (base + i) = some x → sent[i]? = some x
  base_le : base ≤ l.next
  next_le : l.next ≤ l.ring.tail
  received : got.Sublist (sent.take (l.next - base))

/-- The reader has missed nothing, and what it has not received is still in the ring. -/
structure Exact (base : ℕ) (l : Link α cap) (sent got : List α) : Prop where
  lossy : Lossy base l sent got
  near : l.ring.tail ≤ l.next + cap
  all : got = sent.take (l.next - base)

variable {base : ℕ} {l l' : Link α cap} {sent got : List α} {x : α}

theorem Lossy.sublist (h : Lossy base l sent got) : got.Sublist sent :=
  h.received.trans (List.take_sublist _ _)

theorem Exact.isPrefix (h : Exact base l sent got) : got <+: sent :=
  h.all ▸ List.take_prefix _ _

/-- A reader that has nothing to wait for has received everything. -/
theorem Exact.eq_of_backlog (h : Exact base l sent got) (hb : l.backlog = 0) : got = sent := by
  have htail := h.lossy.tail
  rw [backlog] at hb
  rw [h.all]
  exact List.take_of_length_le (by omega)

theorem exact_subscribe (r : Ring α cap) : Exact r.tail (subscribe r) [] [] where
  lossy :=
    { tail := rfl
      value := fun i x hx ↦ absurd (Ring.lt_tail_of_at? hx) (by simp [subscribe])
      base_le := le_rfl
      next_le := le_rfl
      received := List.nil_sublist _ }
  near := Nat.le_add_right _ _
  all := List.take_nil.symm

theorem Lossy.take_concat (h : Lossy base l sent got) (x : α) :
    (sent ++ [x]).take (l.next - base) = sent.take (l.next - base) := by
  have := h.tail
  have := h.next_le
  exact List.take_append_of_le_length (by omega)

theorem Lossy.send (h : Lossy base l sent got) (x : α) :
    Lossy base (l.send x) (sent ++ [x]) got where
  tail := by
    rw [List.length_append, List.length_singleton, ← Nat.add_assoc, ← h.tail]
    rfl
  value i y hy := by
    rcases Ring.at?_send hy with hy | ⟨hi, rfl⟩
    · have hi := h.value i y hy
      rwa [List.getElem?_append_left (List.getElem?_eq_some_iff.mp hi).1]
    · rw [h.tail] at hi
      rw [show i = sent.length by omega, List.getElem?_concat_length]
  base_le := h.base_le
  next_le := h.next_le.trans (Nat.le_succ _)
  received := by
    change got.Sublist ((sent ++ [x]).take (l.next - base))
    rw [h.take_concat]
    exact h.received

/-- **A `send` loses nothing** if the reader has received all but fewer than `cap` values. -/
theorem Exact.send (h : Exact base l sent got) (hb : l.backlog < cap) (x : α) :
    Exact base (l.send x) (sent ++ [x]) got where
  lossy := h.lossy.send x
  near := by
    rw [backlog] at hb
    change l.ring.tail + 1 ≤ l.next + cap
    omega
  all := by
    change got = (sent ++ [x]).take (l.next - base)
    rw [h.lossy.take_concat]
    exact h.all

/-- What `recv` can do: deliver the next value, or move on to the oldest one. -/
theorem recv_cases {o : Option α} (h : l.recv = some (o, l')) :
    (∃ x, o = some x ∧ l.ring.at? l.next = some x ∧ l' = { l with next := l.next + 1 }) ∨
      (o = none ∧ l.next < l.ring.oldest ∧ l' = { l with next := l.ring.oldest }) := by
  rw [recv] at h
  split at h
  · rename_i x hx
    obtain ⟨rfl, rfl⟩ := Prod.mk.inj (Option.some_inj.mp h)
    exact Or.inl ⟨x, rfl, hx, rfl⟩
  · split at h
    · rename_i hlt
      obtain ⟨rfl, rfl⟩ := Prod.mk.inj (Option.some_inj.mp h)
      exact Or.inr ⟨rfl, hlt, rfl⟩
    · cases h

/-- The value that is delivered is the next of those sent. -/
theorem Lossy.take_succ (h : Lossy base l sent got) (hx : l.ring.at? l.next = some x) :
    sent.take (l.next + 1 - base) = sent.take (l.next - base) ++ [x] := by
  have hle := h.base_le
  have hx : sent[l.next - base]? = some x :=
    h.value _ x (by rwa [Nat.add_sub_cancel' hle])
  rw [show l.next + 1 - base = l.next - base + 1 by omega, List.take_add_one, hx]
  rfl

theorem Lossy.recv (h : Lossy base l sent got) {o : Option α} (hr : l.recv = some (o, l')) :
    Lossy base l' sent (got ++ o.toList) := by
  have hle := h.base_le
  rcases recv_cases hr with ⟨x, rfl, hx, rfl⟩ | ⟨rfl, hlt, rfl⟩
  · refine { h with base_le := hle.trans (Nat.le_succ _), next_le := ?_, received := ?_ }
    · exact Ring.lt_tail_of_at? hx
    · change (got ++ [x]).Sublist (sent.take (l.next + 1 - base))
      rw [h.take_succ hx]
      exact h.received.append (List.Sublist.refl _)
  · refine { h with base_le := hle.trans hlt.le, next_le := Nat.sub_le _ _, received := ?_ }
    rw [Option.toList_none, List.append_nil]
    refine h.received.trans (List.IsPrefix.sublist ?_)
    exact List.take_prefix_take_left (by change l.next - base ≤ l.ring.oldest - base; omega)

/-- A reader that has missed nothing is not told that it lags. -/
theorem Exact.recv_isSome (h : Exact base l sent got) {o : Option α} (hr : l.recv = some (o, l')) :
    o.isSome = true := by
  rcases recv_cases hr with ⟨x, rfl, -, -⟩ | ⟨-, hlt, -⟩
  · rfl
  · exact absurd h.near (by rw [Ring.oldest] at hlt; omega)

/-- A value that is received is no longer waited for. -/
theorem backlog_recv_lt {x : α} (h : l.recv = some (some x, l')) : l'.backlog < l.backlog := by
  rcases recv_cases h with ⟨y, -, hy, rfl⟩ | ⟨hx, -, -⟩
  · have hlt := Ring.lt_tail_of_at? hy
    simp only [backlog]
    omega
  · cases hx

/-- A reader that waits has received everything. -/
theorem backlog_eq_zero (h : l.recv = none) : l.backlog = 0 := by
  rw [recv] at h
  split at h
  · cases h
  · rename_i hnone
    split at h
    · cases h
    · rename_i hge
      rw [Ring.at?, if_pos (Nat.le_of_not_lt hge), List.getElem?_eq_none_iff, l.ring.length_slots,
        Ring.oldest] at hnone
      rw [Ring.oldest] at hge
      rw [backlog]
      omega

/-- What a reader that has missed nothing waits for can be received. -/
theorem Exact.exists_recv (h : Exact base l sent got) (hb : l.backlog ≠ 0) :
    ∃ x l', l.recv = some (some x, l') ∧ l'.backlog < l.backlog := by
  cases hr : l.recv with
  | none => exact absurd (backlog_eq_zero hr) hb
  | some p =>
    obtain ⟨o, l'⟩ := p
    obtain ⟨x, rfl⟩ := Option.isSome_iff_exists.mp (h.recv_isSome hr)
    exact ⟨x, l', rfl, backlog_recv_lt hr⟩

theorem backlog_send_le (l : Link α cap) (x : α) : (l.send x).backlog ≤ l.backlog + 1 := by
  simp only [backlog, send, Ring.send]
  omega

theorem Exact.recv (h : Exact base l sent got) {o : Option α} (hr : l.recv = some (o, l')) :
    Exact base l' sent (got ++ o.toList) := by
  refine ⟨h.lossy.recv hr, ?_, ?_⟩
  all_goals rcases recv_cases hr with ⟨x, rfl, hx, rfl⟩ | ⟨-, hlt, -⟩
  · exact h.near.trans (by change l.next + cap ≤ l.next + 1 + cap; omega)
  · exact absurd h.near (by rw [Ring.oldest] at hlt; omega)
  · exact (h.lossy.take_succ hx).symm ▸ h.all ▸ rfl
  · exact absurd h.near (by rw [Ring.oldest] at hlt; omega)

end Link

end Channel
