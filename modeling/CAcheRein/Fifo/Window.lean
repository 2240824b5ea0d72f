import Mathlib.Data.List.Basic
import Mathlib.Data.Nat.ModEq
import Mathlib.Logic.Function.Basic

/-!
# Windows of a ring

A ring of `N` cells read from position `t` on: cell `(t + i) % N` for `i < n`.  As long as the
window has fewer than `N` cells, a write just behind it is not seen by it (`window_update`), so
a ring buffer that keeps its window below the ring size never overwrites what it still holds.
-/

namespace CAcheRein

variable {α : Type*}

/-- The `n` cells of a ring of `N` cells from position `t` on, in order. -/
def window (c : ℕ → α) (N t n : ℕ) : List α := (List.range n).map fun i => c ((t + i) % N)

@[simp] theorem length_window (c : ℕ → α) (N t n : ℕ) : (window c N t n).length = n := by
  simp [window]

@[simp] theorem window_zero (c : ℕ → α) (N t : ℕ) : window c N t 0 = [] := rfl

/-- The youngest cell of a window. -/
theorem window_succ (c : ℕ → α) (N t n : ℕ) :
    window c N t (n + 1) = window c N t n ++ [c ((t + n) % N)] := by
  simp [window, List.range_succ]

/-- The oldest cell of a window. -/
theorem window_cons (c : ℕ → α) (N t n : ℕ) :
    window c N t (n + 1) = c (t % N) :: window c N (t + 1) n := by
  simp only [window, List.range_succ_eq_map, List.map_cons, List.map_map, Nat.add_zero]
  congr 1
  refine List.map_congr_left fun i _ => ?_
  rw [Function.comp_apply, Nat.succ_eq_add_one, Nat.add_assoc, Nat.add_comm 1 i]

/-- Only the position modulo the ring size matters. -/
theorem window_congr {c : ℕ → α} {N t t' : ℕ} (h : t % N = t' % N) (n : ℕ) :
    window c N t n = window c N t' n :=
  List.map_congr_left fun i _ => congrArg c (Nat.ModEq.add_right i h)

/-- Two positions of one window of at most `N` cells are different cells. -/
theorem mod_ne_of_lt {N t i j : ℕ} (hij : i < j) (hj : j < i + N) : (t + i) % N ≠ (t + j) % N := by
  intro h
  have hdvd : N ∣ (t + j) - (t + i) := (Nat.modEq_iff_dvd' (by omega)).1 h
  have hpos : N ≤ (t + j) - (t + i) := Nat.le_of_dvd (by omega) hdvd
  omega

/-- A window does not see a write just behind it. -/
theorem window_update (c : ℕ → α) {N t n : ℕ} (h : n < N) (a : α) :
    window (Function.update c ((t + n) % N) a) N t n = window c N t n := by
  refine List.map_congr_left fun i hi => Function.update_of_ne ?_ _ _
  exact mod_ne_of_lt (List.mem_range.1 hi) (by omega)

/-- Writing just behind a window appends to it. -/
theorem window_push (c : ℕ → α) {N t n : ℕ} (h : n < N) (a : α) :
    window (Function.update c ((t + n) % N) a) N t (n + 1) = window c N t n ++ [a] := by
  rw [window_succ, window_update c h, Function.update_self]

/-- A 32-bit index or counter that does not wrap when it is advanced. -/
theorem toNat_add_one {i : UInt32} (h : i.toNat + 1 < 2 ^ 32) :
    (i + 1).toNat = i.toNat + 1 := by
  rw [UInt32.toNat_add, UInt32.toNat_one, Nat.mod_eq_of_lt h]

/-! ### Cells of an array -/

variable [Inhabited α] {N : ℕ}

/-- The cells of an array, as a function of the index. -/
def cells (v : Vector α N) : ℕ → α := fun i => v[i]!

theorem cells_set! (v : Vector α N) {i : ℕ} (hi : i < N) (a : α) :
    cells (v.set! i a) = Function.update (cells v) i a := by
  funext j
  by_cases hj : i = j
  · subst hj
    rw [Function.update_self, cells, getElem!_pos _ i hi, Vector.getElem_set!_self]
  · rw [Function.update_of_ne (Ne.symm hj), cells, cells, Vector.set!_eq_setIfInBounds]
    simp [getElem!_def, Vector.getElem?_setIfInBounds_ne hj]

end CAcheRein
