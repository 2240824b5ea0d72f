import Mathlib.Data.Nat.Notation
import Mathlib.Logic.Function.Basic
import Mathlib.Tactic.SplitIfs

/-!
# A flat memory of bytes

Every address holds a byte.  A block is copied byte by byte in ascending order; when it overlaps
its own destination, a later byte may be read after it was overwritten.

## Main definitions

* `Memory`, `Memory.store` : the memory and an assignment to one byte.
* `Memory.copied` : the memory after the first bytes of a block were copied.
* `copySource` : which byte of the block ends up in which place.

## Main results

* `Memory.copied_dst`, `Memory.copied_of_outside` : what such a copy leaves.
* `Memory.copied_next` : what its next step reads.
-/

namespace CAcheRein

/-- A flat memory, unbounded upwards. -/
abbrev Memory := ℕ → UInt8

/-- Where the byte at `dst + i` comes from, when a block is copied from `src` in ascending order:
if the source lies below, what is read repeats itself with the distance. -/
def copySource (dst src i : ℕ) : ℕ := if dst ≤ src then src + i else src + i % (dst - src)

namespace Memory

/-- An assignment to the byte at `a`. -/
def store (m : Memory) (a : ℕ) (b : UInt8) : Memory := Function.update m a b

/-- The memory after `k` bytes were copied from `src` to `dst`, one after the other. -/
def copied (m : Memory) (dst src : ℕ) : ℕ → Memory
  | 0 => m
  | k + 1 => (copied m dst src k).store (dst + k) (copied m dst src k (src + k))

variable {m : Memory} {dst src a i k : ℕ} {b : UInt8}

@[simp] theorem store_self : m.store a b a = b := Function.update_self ..

theorem store_of_ne {a' : ℕ} (h : a' ≠ a) : m.store a b a' = m a' := Function.update_of_ne h ..

@[simp] theorem copied_zero : m.copied dst src 0 = m := rfl

theorem copied_succ : m.copied dst src (k + 1) =
    (m.copied dst src k).store (dst + k) (m.copied dst src k (src + k)) := rfl

/-- Outside the destination nothing changes. -/
theorem copied_of_outside (ha : a < dst ∨ dst + k ≤ a) : m.copied dst src k a = m a := by
  induction k with
  | zero => rfl
  | succ k ih =>
    have hne : a ≠ dst + k := by omega
    rw [copied_succ, store_of_ne hne]
    exact ih (by omega)

/-- The next byte read, if the bytes already written are those `copySource` says. -/
theorem copied_next_of (hdst : ∀ i < k, m.copied dst src k (dst + i) = m (copySource dst src i)) :
    m.copied dst src k (src + k) = m (copySource dst src k) := by
  rw [copySource]
  split_ifs with hle
  · -- the source runs ahead of the destination
    exact copied_of_outside (by omega)
  · rcases Nat.lt_or_ge (src + k) dst with hlt | hge
    · rw [Nat.mod_eq_of_lt (by omega)]
      exact copied_of_outside (.inl hlt)
    · -- it was overwritten `dst - src` steps ago
      obtain ⟨i, hi⟩ := Nat.exists_eq_add_of_le hge
      have hik : i < k := by omega
      have hmod : k % (dst - src) = i % (dst - src) := by
        rw [show k = i + (dst - src) by omega, Nat.add_mod_right]
      rw [hi, hdst i hik, copySource, if_neg hle, hmod]

/-- **What a copy leaves at its destination.** -/
theorem copied_dst (hi : i < k) : m.copied dst src k (dst + i) = m (copySource dst src i) := by
  induction k generalizing i with
  | zero => exact absurd hi (Nat.not_lt_zero i)
  | succ k ih =>
    rw [copied_succ]
    rcases Nat.lt_succ_iff_lt_or_eq.1 hi with hlt | rfl
    · rw [store_of_ne (by omega), ih hlt]
    · rw [store_self]
      exact copied_next_of fun _ hj => ih hj

/-- What the next step of a copy reads. -/
theorem copied_next : m.copied dst src k (src + k) = m (copySource dst src k) :=
  copied_next_of fun _ hi => copied_dst hi

end Memory

/-- Without overlap ahead of the source, every byte is its own source. -/
theorem copySource_of_disjoint {dst src i : ℕ} (h : dst ≤ src ∨ src + i < dst) :
    copySource dst src i = src + i := by
  rw [copySource]
  split_ifs with hle
  · rfl
  · rw [Nat.mod_eq_of_lt (by omega)]

end CAcheRein
