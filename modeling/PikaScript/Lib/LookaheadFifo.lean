import Mathlib.Data.List.Basic
import Mathlib.Tactic.Common
import PikaScript.Lib.Machine

/-! Bounded first-in first-out queues that can be looked into.

A queue holds at most `capacity` elements, and some of the oldest have been peeked
at. A write adds at the end unless the queue is full, a read takes the oldest element
and a peek shows the oldest one that has not been peeked. Both bounds are fields, so
there is no queue that breaks them. -/

/-- A queue, oldest element first, and how many of its elements have been peeked. -/
structure LookaheadFifo (α : Type) (capacity : Nat) where
  queued : List α
  peeked : Nat
  length_le : queued.length ≤ capacity
  peeked_le : peeked ≤ queued.length

namespace LookaheadFifo
variable {α : Type} {capacity : Nat} (fifo : LookaheadFifo α capacity)

inductive Call (α : Type) where
  | write (x : α)
  | read
  | peek
  | resetPeek
  | dropAllPeeked
  | peekedNumber

/-- What a call returns: whether it was taken, an element, or a number. -/
inductive Answer (α : Type) where
  | wrote (ok : Bool)
  | element (x : Option α)
  | done
  | number (n : Int)

def empty : LookaheadFifo α capacity := ⟨[], 0, Nat.zero_le _, Nat.le_refl _⟩

def write (x : α) : LookaheadFifo α capacity × Answer α :=
  if h : fifo.queued.length < capacity then
    (⟨fifo.queued ++ [x], fifo.peeked, by rw [List.length_append]; exact h,
      by rw [List.length_append]; exact Nat.le_add_right_of_le fifo.peeked_le⟩, .wrote true)
  else (fifo, .wrote false)

/-- What is left when the first `n` elements are taken; none of them has been peeked. -/
def drop (n : Nat) : LookaheadFifo α capacity :=
  ⟨fifo.queued.drop n, 0, by rw [List.length_drop]; have h := fifo.length_le; omega,
    Nat.zero_le _⟩

def read : LookaheadFifo α capacity × Answer α :=
  match fifo.queued with
  | [] => (fifo, .element none)
  | x :: _ => (fifo.drop 1, .element (some x))

def peek : LookaheadFifo α capacity × Answer α :=
  if h : fifo.peeked < fifo.queued.length then
    (⟨fifo.queued, fifo.peeked + 1, fifo.length_le, h⟩, .element (some fifo.queued[fifo.peeked]))
  else (fifo, .element none)

def resetPeek : LookaheadFifo α capacity := ⟨fifo.queued, 0, fifo.length_le, Nat.zero_le _⟩

def step : Call α → LookaheadFifo α capacity × Answer α
  | .write x => fifo.write x
  | .read => fifo.read
  | .peek => fifo.peek
  | .resetPeek => (fifo.resetPeek, .done)
  | .dropAllPeeked => (fifo.drop fifo.peeked, .done)
  | .peekedNumber => (fifo, .number fifo.peeked)

/-- The queue takes every call. -/
def machine (α : Type) (capacity : Nat) :
    Machine (Call α) (LookaheadFifo α capacity) (Answer α) where
  step call fifo := some (fifo.step call)

end LookaheadFifo
