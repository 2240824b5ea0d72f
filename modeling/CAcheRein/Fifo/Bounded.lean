import Mathlib.Data.List.Basic
import Mathlib.Data.List.TakeDrop

/-!
# Bounded FIFO queues

`Fifo α cap` is the abstract queue the ring buffers of this development stand for: at most `cap`
elements, oldest first.  The bound is a field, so a queue that overflows cannot be written down;
an operation that has no room, or not enough elements, returns `none`.

The bulk operations `Fifo.pushAll` and `Fifo.popN` are all-or-nothing.
-/

namespace CAcheRein

/-- A queue of at most `cap` elements, oldest first. -/
structure Fifo (α : Type*) (cap : ℕ) where
  /-- The elements held, oldest first. -/
  items : List α
  /-- There is room for all of them. -/
  length_le : items.length ≤ cap

namespace Fifo

variable {α : Type*} {cap : ℕ}

/-- The empty queue. -/
def empty : Fifo α cap := ⟨[], Nat.zero_le _⟩

/-- Number of elements held. -/
def length (q : Fifo α cap) : ℕ := q.items.length

/-- Append the elements `as`, if there is room for all of them. -/
def pushAll (q : Fifo α cap) (as : List α) : Option (Fifo α cap) :=
  if h : q.length + as.length ≤ cap then
    some ⟨q.items ++ as, by rwa [List.length_append]⟩
  else none

/-- Append one element, if there is room. -/
def push (q : Fifo α cap) (a : α) : Option (Fifo α cap) := q.pushAll [a]

/-- Remove the oldest element. -/
def pop (q : Fifo α cap) : Option (α × Fifo α cap) :=
  match q with
  | ⟨[], _⟩ => none
  | ⟨a :: as, h⟩ => some (a, ⟨as, Nat.le_of_succ_le h⟩)

/-- Remove the `n` oldest elements, if that many are held. -/
def popN (q : Fifo α cap) (n : ℕ) : Option (List α × Fifo α cap) :=
  if n ≤ q.length then
    some (q.items.take n, ⟨q.items.drop n, by
      rw [List.length_drop]; exact Nat.le_trans (Nat.sub_le _ _) q.length_le⟩)
  else none

theorem length_eq (q : Fifo α cap) : q.length = q.items.length := rfl

theorem pushAll_of_le {q : Fifo α cap} {as : List α} (h : q.length + as.length ≤ cap) :
    q.pushAll as = some ⟨q.items ++ as, by rwa [List.length_append]⟩ := dif_pos h

theorem pushAll_eq_none {q : Fifo α cap} {as : List α} (h : cap < q.length + as.length) :
    q.pushAll as = none := dif_neg (Nat.not_le.2 h)

theorem push_of_lt {q : Fifo α cap} {a : α} (h : q.length < cap) :
    q.push a = some ⟨q.items ++ [a], by rw [List.length_append]; exact h⟩ := pushAll_of_le h

theorem pop_of_nil {q : Fifo α cap} (h : q.items = []) : q.pop = none := by
  obtain ⟨items, hle⟩ := q
  subst h
  rfl

theorem pop_of_cons {q : Fifo α cap} {a : α} {as : List α} (h : q.items = a :: as) :
    ∃ q', q.pop = some (a, q') ∧ q'.items = as := by
  obtain ⟨items, hle⟩ := q
  subst h
  exact ⟨_, rfl, rfl⟩

theorem popN_of_le {q : Fifo α cap} {n : ℕ} (h : n ≤ q.length) :
    ∃ q', q.popN n = some (q.items.take n, q') ∧ q'.items = q.items.drop n :=
  ⟨_, if_pos h, rfl⟩

theorem popN_eq_none {q : Fifo α cap} {n : ℕ} (h : q.length < n) : q.popN n = none :=
  if_neg (Nat.not_le.2 h)

end Fifo

end CAcheRein
