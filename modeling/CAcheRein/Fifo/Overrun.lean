import CAcheRein.Fifo.Window
import Mathlib.Data.List.GetD

/-!
# Rings that overrun

A ring of `N` cells whose writer does not wait for its reader.  What the writer has written is a
log; a cell holds the newest entry of the log written to it, so a reader that is more than `N`
entries behind gets, for the entry that is due, the newest one that shares its cell.

## Main definitions

* `newest` : the position of that entry.
* `KeepsNewest` : the cells hold the newest entries of a log.

## Main results

* `KeepsNewest.update` : writing the next cell adds to the log.
* `KeepsNewest.eq_newest` : what a reader gets.
-/

namespace CAcheRein

variable {α : Type*} {c : ℕ → α} {N n p : ℕ} {log : List α}

/-- The newest of `n` positions that shares a cell with `p`. -/
def newest (N n p : ℕ) : ℕ := p + N * ((n - 1 - p) / N)

theorem newest_mod (N n p : ℕ) : newest N n p % N = p % N := Nat.add_mul_mod_self_left _ _ _

theorem newest_lt (h : p < n) : newest N n p < n := by
  have hle := Nat.mul_div_le (n - 1 - p) N
  rw [newest]
  omega

theorem le_newest_add (hN : 0 < N) (n p : ℕ) : n ≤ newest N n p + N := by
  have hlt := Nat.lt_mul_div_succ (n - 1 - p) hN
  rw [Nat.mul_add, Nat.mul_one] at hlt
  rw [newest]
  omega

/-- The cells hold the newest entries of the log. -/
def KeepsNewest (c : ℕ → α) (N : ℕ) (log : List α) : Prop :=
  ∀ p, (hp : p < log.length) → log.length ≤ p + N → c (p % N) = log[p]

theorem keepsNewest_nil (c : ℕ → α) (N : ℕ) : KeepsNewest c N [] := fun _ hp => nomatch hp

/-- **Writing the next cell**, whatever it held. -/
theorem KeepsNewest.update (h : KeepsNewest c N log) (a : α) :
    KeepsNewest (Function.update c (log.length % N) a) N (log ++ [a]) := by
  intro p hp hle
  rw [List.length_append, List.length_singleton] at hp hle
  rcases Nat.lt_or_ge p log.length with hlt | hge
  · have hne : p % N ≠ log.length % N := by
      have hne := mod_ne_of_lt (N := N) (t := 0) hlt (by omega)
      rwa [Nat.zero_add, Nat.zero_add] at hne
    rw [Function.update_of_ne hne, List.getElem_append_left hlt]
    exact h p hlt (by omega)
  · obtain rfl : p = log.length := by omega
    rw [Function.update_self, List.getElem_concat_length]
    rfl

/-- **What a reader gets** for the entry at `p`. -/
theorem KeepsNewest.eq_newest (h : KeepsNewest c N log) (hN : 0 < N) (hp : p < log.length)
    (d : α) : c (p % N) = log.getD (newest N log.length p) d := by
  have hlt : newest N log.length p < log.length := newest_lt hp
  rw [List.getD_eq_getElem _ _ hlt, ← h _ hlt (le_newest_add hN _ _), newest_mod]

end CAcheRein
