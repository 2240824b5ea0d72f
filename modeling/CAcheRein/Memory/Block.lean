import Mathlib.Algebra.Order.Ring.Int
import Mathlib.Data.List.Basic

/-!
# Blocks with bounds

An array or an allocated block is the list of its elements.  An access with an index outside the
bounds has no result; the accesses of a loop can be logged, to say which indices it uses.
-/

namespace CAcheRein

/-- An access to the element at an index. -/
inductive ElemAccess where
  | read (i : ℤ)
  | write (i : ℤ)
  deriving DecidableEq

/-- The index accessed. -/
def ElemAccess.index : ElemAccess → ℤ
  | .read i => i
  | .write i => i

namespace Block

variable {α : Type*} {block : List α} {n : ℕ} {a : α}

/-- The element at an index. -/
def load (block : List α) (i : ℤ) : Option α := if 0 ≤ i then block[i.toNat]? else none

/-- The block after an assignment to the element at an index. -/
def store (block : List α) (i : ℤ) (a : α) : Option (List α) :=
  if 0 ≤ i ∧ i < block.length then some (block.set i.toNat a) else none

/-- The array after an assignment to the element at an index. -/
def storeAt {size : ℕ} (arr : Vector α size) (i : ℕ) (a : α) : Option (Vector α size) :=
  if h : i < size then some (arr.set i a h) else none

theorem load_natCast : load block n = block[n]? := by
  rw [load, if_pos (Int.natCast_nonneg n), Int.toNat_natCast]

theorem store_natCast (h : n < block.length) : store block n a = some (block.set n a) := by
  rw [store, if_pos ⟨Int.natCast_nonneg n, Int.ofNat_lt.2 h⟩, Int.toNat_natCast]

theorem storeAt_eq {size i : ℕ} (arr : Vector α size) (h : i < size) (a : α) :
    storeAt arr i a = some (arr.set i a h) := dif_pos h

/-- An assignment behind the end fails. -/
theorem store_eq_none (h : block.length ≤ n) : store block n a = none := by
  rw [store, if_neg]
  rintro ⟨-, hlt⟩
  exact absurd (Int.ofNat_lt.1 hlt) (not_lt.2 h)

/-- The element behind some others. -/
theorem load_append_cons (front back : List α) (a : α) :
    load (front ++ a :: back) front.length = some a := by
  rw [load_natCast]
  simp

/-- An assignment to the element behind some others. -/
theorem store_append_cons (front back : List α) (a b : α) :
    store (front ++ a :: back) front.length b = some (front ++ b :: back) := by
  rw [store_natCast (by simp)]
  simp

/-- What an assignment behind the first `n` elements leaves of them. -/
theorem take_succ_set (h : n < block.length) (a : α) :
    (block.set n a).take (n + 1) = block.take n ++ [a] := by
  rw [List.take_succ_eq_append_getElem (by rwa [List.length_set]), List.take_set_of_le (le_refl n),
    List.getElem_set_self]

end Block

end CAcheRein
