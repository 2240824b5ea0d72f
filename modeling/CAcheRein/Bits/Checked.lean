import Mathlib.Data.Int.Basic
import Mathlib.Algebra.Order.Ring.Int

/-!
# Signed 32-bit arithmetic without overflow

`checked z` is the 32-bit word of the integer `z`, if there is one: a computation in `Option`
whose steps are `checked` results leaves the range of `int32_t` nowhere exactly if it answers
`some`.

## Main results

* `checked_eq_some_iff` : the word of `z` is the one with the value `z`.
* `toInt_add_of_inInt32`, `toInt_sub_of_inInt32` : machine sums and differences that
  stay in the range are the exact ones.
-/

namespace CAcheRein

/-- The values of `int32_t`. -/
def InInt32 (z : ℤ) : Prop := -2 ^ 31 ≤ z ∧ z < 2 ^ 31

instance instDecidableInInt32 (z : ℤ) : Decidable (InInt32 z) :=
  inferInstanceAs (Decidable (_ ∧ _))

/-- The word of `z`, if it has one. -/
def checked (z : ℤ) : Option Int32 := if InInt32 z then some (Int32.ofInt z) else none

theorem inInt32_toInt (a : Int32) : InInt32 a.toInt := ⟨a.le_toInt, a.toInt_lt⟩

theorem toInt_ofInt_of_inInt32 {z : ℤ} (h : InInt32 z) : (Int32.ofInt z).toInt = z :=
  Int32.toInt_ofInt_of_le h.1 h.2

theorem checked_of_inInt32 {z : ℤ} (h : InInt32 z) : checked z = some (Int32.ofInt z) := if_pos h

/-- The word of `z` is the one with the value `z`. -/
theorem checked_eq_some_iff {z : ℤ} {r : Int32} : checked z = some r ↔ r.toInt = z := by
  constructor
  · intro h
    by_cases hz : InInt32 z
    · rw [checked_of_inInt32 hz, Option.some.injEq] at h
      rw [← h, toInt_ofInt_of_inInt32 hz]
    · rw [checked, if_neg hz] at h
      cases h
  · rintro rfl
    rw [checked_of_inInt32 (inInt32_toInt r), Int32.ofInt_toInt]

theorem exists_checked {z : ℤ} (h : InInt32 z) : ∃ r, checked z = some r ∧ r.toInt = z :=
  ⟨_, checked_of_inInt32 h, toInt_ofInt_of_inInt32 h⟩

/-- Wrapping around does nothing inside the range. -/
theorem bmod_of_inInt32 {z : ℤ} (h : InInt32 z) : z.bmod (2 ^ 32) = z := by
  obtain ⟨hlo, hhi⟩ := h
  exact Int.bmod_eq_of_le_mul_two (by omega) (by omega)

theorem toInt_add_of_inInt32 {a b : Int32} (h : InInt32 (a.toInt + b.toInt)) :
    (a + b).toInt = a.toInt + b.toInt := by
  rw [Int32.toInt_add, bmod_of_inInt32 h]

theorem toInt_sub_of_inInt32 {a b : Int32} (h : InInt32 (a.toInt - b.toInt)) :
    (a - b).toInt = a.toInt - b.toInt := by
  rw [Int32.toInt_sub, bmod_of_inInt32 h]

end CAcheRein
