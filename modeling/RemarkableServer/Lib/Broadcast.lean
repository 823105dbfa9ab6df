import Mathlib.Data.List.Basic

/-!
# Broadcast channels

A channel keeps the last messages sent on it, at most its capacity. A receiver has a
position: how many of the messages are behind it. One that is further behind than the
channel keeps is told how many messages it lost, and goes on with the oldest kept one.
-/
namespace Broadcast

variable {M : Type}

/-- All messages sent so far are listed; the last `capacity` of them are kept. -/
structure Channel (M : Type) where
  capacity : Nat
  positive : 0 < capacity
  sent : List M

inductive Received (M : Type) where
  | waiting
  | lagged (lost : Nat)
  | message (m : M)
  deriving DecidableEq, Repr

namespace Channel

def new (capacity : Nat) (positive : 0 < capacity) : Channel M := ⟨capacity, positive, []⟩

/-- Where a new receiver begins: only what is sent from now on is for it. -/
def subscribe (ch : Channel M) : Nat := ch.sent.length

def send (m : M) (ch : Channel M) : Channel M := { ch with sent := ch.sent ++ [m] }

/-- The messages no longer kept. -/
def dropped (ch : Channel M) : Nat := ch.sent.length - ch.capacity

/-- What a receiver at a position gets, and its position afterwards. -/
def recv (ch : Channel M) (position : Nat) : Received M × Nat :=
  if position < ch.dropped then (.lagged (ch.dropped - position), ch.dropped)
  else
    match ch.sent[position]? with
    | none => (.waiting, position)
    | some m => (.message m, position + 1)

variable {ch : Channel M} {position : Nat}

@[simp] theorem send_sent (m : M) : (ch.send m).sent = ch.sent ++ [m] := rfl

/-- What a receiver can get: nothing, as it has received all there is; the news that it lost messages; or the message at
its position. -/
theorem recv_cases (ch : Channel M) (position : Nat) :
    (ch.recv position = (.waiting, position) ∧ ch.sent.length ≤ position) ∨
    (∃ lost, ch.recv position = (.lagged lost, ch.dropped) ∧ position < ch.dropped) ∨
    ∃ m, ch.recv position = (.message m, position + 1) ∧ ch.sent[position]? = some m := by
  by_cases hbehind : position < ch.dropped
  · exact Or.inr (Or.inl ⟨_, if_pos hbehind, hbehind⟩)
  · simp only [recv, if_neg hbehind]
    cases h : ch.sent[position]? with
    | none => exact Or.inl ⟨rfl, List.getElem?_eq_none_iff.mp h⟩
    | some m => exact Or.inr (Or.inr ⟨m, rfl, rfl⟩)

theorem length_le_of_waiting (h : (ch.recv position).1 = .waiting) : ch.sent.length ≤ position := by
  obtain ⟨-, hle⟩ | ⟨lost, hrecv, -⟩ | ⟨m, hrecv, -⟩ := recv_cases ch position
  · exact hle
  · simp [hrecv] at h
  · simp [hrecv] at h

/-- A message stays at its place in the channel. -/
theorem getElem?_send {m m' : M} {i : Nat} (h : ch.sent[i]? = some m) : (ch.send m').sent[i]? = some m := by
  have hi := (List.getElem?_eq_some_iff.mp h).1
  simp [List.getElem?_append_left hi, h]

end Channel

end Broadcast
