import Mathlib.Algebra.Order.Ring.Nat
import Mathlib.Data.List.Basic
import Mathlib.Tactic.Common

/-!
# Bounded channels and runs

`Channel` is a bounded queue with one receiver: a `send` waits while the queue is full, a `recv`
waits while it is empty and a sender is alive. An operation that has to wait is `none`. `Run` is a
run of a transition system with the events it has logged, and `Run.invariant` the induction on it.
-/

namespace Concurrency

/-- A channel: its bound, the messages in it, and whether a sender and the receiver are alive. -/
structure Channel (α : Type) where
  capacity : Nat
  queue : List α
  sender : Bool
  receiver : Bool
deriving DecidableEq

namespace Channel

variable {α : Type}

/-- A new channel with some messages in it. -/
def new (capacity : Nat) (queue : List α) : Channel α :=
  { capacity, queue, sender := true, receiver := true }

/-- Send a message: whether the receiver was still alive to take it. -/
def send (c : Channel α) (message : α) : Option (Bool × Channel α) :=
  if c.receiver = false then some (false, c)
  else if c.queue.length < c.capacity then some (true, { c with queue := c.queue ++ [message] })
  else none

/-- Receive a message, or learn that there will be none. -/
def recv (c : Channel α) : Option (Option α × Channel α) :=
  match c.queue with
  | message :: queue => some (some message, { c with queue })
  | [] => if c.sender then none else some (none, c)

def dropSender (c : Channel α) : Channel α := { c with sender := false }

/-- Without its receiver a channel discards what is in it. -/
def dropReceiver (c : Channel α) : Channel α := { c with receiver := false, queue := [] }

/-- What a send can do. -/
theorem send_cases {c c' : Channel α} {message : α} {sent : Bool}
    (h : c.send message = some (sent, c')) :
    (sent = false ∧ c.receiver = false ∧ c' = c) ∨
    (sent = true ∧ c.receiver = true ∧ c.queue.length < c.capacity ∧
      c' = { c with queue := c.queue ++ [message] }) := by
  unfold send at h
  split at h
  · next hr => cases h; exact .inl ⟨rfl, hr, rfl⟩
  · next hr =>
      split at h
      · next hroom => cases h; exact .inr ⟨rfl, by simpa using hr, hroom, rfl⟩
      · cases h

/-- What a receive can do. -/
theorem recv_cases {c c' : Channel α} {message : Option α} (h : c.recv = some (message, c')) :
    (∃ m queue, message = some m ∧ c.queue = m :: queue ∧ c' = { c with queue }) ∨
    (message = none ∧ c.queue = [] ∧ c.sender = false ∧ c' = c) := by
  unfold recv at h
  split at h
  · next m queue hq => cases h; exact .inl ⟨m, queue, rfl, hq, rfl⟩
  · next hq =>
      split at h
      · cases h
      · next hs => cases h; exact .inr ⟨rfl, hq, by simpa using hs, rfl⟩

/-- A send waits only for room. -/
theorem send_eq_none {c : Channel α} {message : α} :
    c.send message = none ↔ c.receiver = true ∧ c.capacity ≤ c.queue.length := by
  unfold send
  split
  · next hr => simp [hr]
  · next hr => split <;> simp_all

/-- A receive waits only for a message. -/
theorem recv_eq_none {c : Channel α} : c.recv = none ↔ c.queue = [] ∧ c.sender = true := by
  unfold recv
  split
  · next hq => simp [hq]
  · next hq => split <;> simp_all

end Channel

/-! ## Runs -/

/-- A run from `s₀`: the events it has logged, oldest first, and where it has come to. A step logs
one event or none. -/
inductive Run {σ ε : Type} (Step : σ → Option ε → σ → Prop) (s₀ : σ) : List ε → σ → Prop where
  | start : Run Step s₀ [] s₀
  | step {log s e s'} : Run Step s₀ log s → Step s e s' → Run Step s₀ (log ++ e.toList) s'

/-- What holds at first and is kept by every step holds in every run. -/
theorem Run.invariant {σ ε : Type} {Step : σ → Option ε → σ → Prop} {s₀ : σ}
    {I : List ε → σ → Prop} (hstart : I [] s₀)
    (hstep : ∀ log s e s', I log s → Step s e s' → I (log ++ e.toList) s')
    {log : List ε} {s : σ} (h : Run Step s₀ log s) : I log s := by
  induction h with
  | start => exact hstart
  | step _ hs ih => exact hstep _ _ _ _ ih hs

end Concurrency
