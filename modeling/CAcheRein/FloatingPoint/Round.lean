import Mathlib.Algebra.Order.Field.Power
import Mathlib.Algebra.Order.Field.Rat
import Mathlib.Algebra.Order.Ring.Abs
import Mathlib.Data.Int.Log
import Mathlib.Data.Rat.Floor
import Mathlib.Tactic.FieldSimp
import Mathlib.Tactic.Linarith
import Mathlib.Tactic.Positivity
import Mathlib.Tactic.SplitIfs

/-!
# Rounding to binary digits

The rounding of an operation of binary floating-point arithmetic: to the nearest number with `p`
binary digits, of two such to the even one.  The exponents are not bounded, so a result is that of
the arithmetic as long as it neither overflows nor becomes subnormal.

## Main results

* `abs_round_sub_le` : the relative error is at most `2 ^ -p`.
* `round_le_round`, `round_intCast` : rounding is monotone, and leaves the integers of up to `p`
  digits as they are.
* `floor_round` : it leaves the integer part of a number that does not come too close to the next
  integer.
* `abs_round_div_sub_le` : the error of a quotient of rounded numbers.
-/

namespace CAcheRein

namespace FloatingPoint

/-- The nearest integer, and the even one of two. -/
def roundEven (q : ℚ) : ℤ :=
  if 2 * (q - ⌊q⌋) < 1 ∨ 2 * (q - ⌊q⌋) = 1 ∧ 2 ∣ ⌊q⌋ then ⌊q⌋ else ⌊q⌋ + 1

/-- The distance of the numbers with `p` binary digits around `q`. -/
def ulp (p : ℕ) (q : ℚ) : ℚ := 2 ^ (Int.log 2 |q| + 1 - p)

/-- The nearest number with `p` binary digits. -/
def round (p : ℕ) (q : ℚ) : ℚ := roundEven (q / ulp p q) * ulp p q

variable {p : ℕ} {q r : ℚ}

/-! ### Integers -/

theorem abs_roundEven_sub_le (q : ℚ) : |roundEven q - q| ≤ 1 / 2 := by
  have hlo := Int.floor_le q
  have hhi := Int.lt_floor_add_one q
  rw [abs_le, roundEven]
  split_ifs with h
  · have hhalf : 2 * (q - ⌊q⌋) ≤ 1 := h.elim le_of_lt fun h => h.1.le
    constructor <;> linarith
  · have hhalf : 1 ≤ 2 * (q - ⌊q⌋) := not_lt.1 fun hlt => h (.inl hlt)
    push_cast
    constructor <;> linarith

@[simp] theorem roundEven_intCast (z : ℤ) : roundEven z = z := by
  rw [roundEven, Int.floor_intCast]
  exact if_pos (.inl (by simp))

theorem roundEven_le_roundEven (h : q ≤ r) : roundEven q ≤ roundEven r := by
  have hfloor : ⌊q⌋ ≤ ⌊r⌋ := Int.floor_le_floor h
  rcases hfloor.lt_or_eq with hlt | heq
  · have hq : roundEven q ≤ ⌊q⌋ + 1 := by
      rw [roundEven]
      split_ifs <;> omega
    have hr : ⌊r⌋ ≤ roundEven r := by
      rw [roundEven]
      split_ifs <;> omega
    omega
  · rw [roundEven, roundEven, heq]
    split_ifs with hq hr hr
    · exact le_rfl
    · exact (lt_add_one _).le
    · -- `r` is rounded down, and so is `q`, which is below it
      refine absurd ?_ hq
      rcases hr with hr | ⟨hr, heven⟩
      · exact .inl (by linarith)
      · rcases (show 2 * (q - ⌊r⌋) ≤ 1 by linarith).lt_or_eq with hq | hq
        · exact .inl hq
        · exact .inr ⟨hq, heven⟩
    · exact le_rfl

/-- Rounding does not cross an integer. -/
theorem le_roundEven {z : ℤ} (h : z ≤ q) : z ≤ roundEven q := by
  rw [← roundEven_intCast z]
  exact roundEven_le_roundEven h

@[inherit_doc le_roundEven]
theorem roundEven_le {z : ℤ} (h : q ≤ z) : roundEven q ≤ z := by
  rw [← roundEven_intCast z]
  exact roundEven_le_roundEven h

/-! ### Binary digits -/

theorem ulp_pos (p : ℕ) (q : ℚ) : 0 < ulp p q := zpow_pos Nat.ofNat_pos _

/-- The digits of a number, with `p` of them. -/
theorem two_pow_mul_ulp (p : ℕ) (q : ℚ) : 2 ^ p * ulp p q = 2 ^ (Int.log 2 |q| + 1) := by
  rw [ulp, ← zpow_natCast, ← zpow_add₀ two_ne_zero]
  congr 1
  omega

theorem two_pow_pred_mul_ulp (hp : 0 < p) (q : ℚ) :
    2 ^ (p - 1) * ulp p q = 2 ^ Int.log 2 |q| := by
  rw [ulp, ← zpow_natCast, ← zpow_add₀ two_ne_zero]
  congr 1
  omega

/-- **The error of a rounding.** -/
theorem abs_round_sub_le (p : ℕ) (q : ℚ) : |round p q - q| ≤ |q| / 2 ^ p := by
  have hulp := ulp_pos p q
  by_cases hq : q = 0
  · subst hq
    have hzero : roundEven 0 = 0 := by exact_mod_cast roundEven_intCast 0
    simp [round, hzero]
  have hlog : (2 : ℚ) ^ Int.log 2 |q| ≤ |q| := Int.zpow_log_le_self one_lt_two (abs_pos.2 hq)
  have hhalf : ulp p q / 2 * 2 ^ p = 2 ^ Int.log 2 |q| := by
    have hmul := two_pow_mul_ulp p q
    rw [zpow_add_one₀ two_ne_zero] at hmul
    linarith
  have herr : |round p q - q| = |roundEven (q / ulp p q) - q / ulp p q| * ulp p q := by
    rw [← abs_of_pos hulp, ← abs_mul, abs_of_pos hulp, sub_mul, div_mul_cancel₀ q hulp.ne', round]
  rw [herr, le_div_iff₀ (by positivity)]
  calc |roundEven (q / ulp p q) - q / ulp p q| * ulp p q * 2 ^ p
      ≤ 1 / 2 * ulp p q * 2 ^ p := by
        gcongr
        exact abs_roundEven_sub_le _
    _ = ulp p q / 2 * 2 ^ p := by ring
    _ ≤ |q| := hhalf.trans_le hlog

/-- A number with `p` digits is left as it is. -/
theorem round_of_eq_mul_ulp {m : ℤ} (h : q = m * ulp p q) : round p q = q := by
  have hdiv : q / ulp p q = m := by
    rw [div_eq_iff (ulp_pos p q).ne']
    exact h
  rw [round, hdiv, roundEven_intCast]
  exact h.symm

@[simp] theorem round_zero (p : ℕ) : round p 0 = 0 :=
  round_of_eq_mul_ulp (m := 0) (by simp)

/-- An integer of up to `p` digits has `p` digits. -/
theorem round_intCast {z : ℤ} (h : |z| ≤ 2 ^ p) (hp : 0 < p) : round p z = z := by
  by_cases hz : z = 0
  · rw [hz, Int.cast_zero, round_zero]
  have hlog : (2 : ℚ) ^ Int.log 2 |(z : ℚ)| ≤ |(z : ℚ)| :=
    Int.zpow_log_le_self one_lt_two (abs_pos.2 (Int.cast_ne_zero.2 hz))
  have habs : |(z : ℚ)| ≤ 2 ^ p := by exact_mod_cast h
  generalize he : Int.log 2 |(z : ℚ)| = e at hlog
  have hulp : ulp p z = 2 ^ (e + 1 - p) := by rw [ulp, he]
  by_cases hsmall : e + 1 ≤ p
  · -- the last digit is behind the point
    obtain ⟨k, hk⟩ : ∃ k : ℕ, e + 1 - p = -(k : ℤ) := ⟨(p - (e + 1)).toNat, by omega⟩
    refine round_of_eq_mul_ulp (m := z * 2 ^ k) ?_
    rw [hulp, hk, zpow_neg, zpow_natCast]
    push_cast
    field_simp
  · -- it is a power of two
    have hpow_le : (2 : ℚ) ^ e ≤ 2 ^ (p : ℤ) := by
      rw [zpow_natCast]
      exact hlog.trans habs
    have hle : e ≤ p := (zpow_le_zpow_iff_right₀ one_lt_two).1 hpow_le
    obtain rfl : e = p := by omega
    have heq : |z| = 2 ^ p := by
      rw [zpow_natCast] at hlog
      exact_mod_cast le_antisymm habs hlog
    have hpow : (2 : ℤ) ^ p = 2 ^ (p - 1) * 2 := by
      rw [← pow_succ, Nat.sub_add_cancel hp]
    obtain ⟨m, rfl⟩ : (2 : ℤ) ∣ z := by
      rw [← dvd_abs, heq, hpow]
      exact dvd_mul_left _ _
    refine round_of_eq_mul_ulp (m := m) ?_
    rw [hulp, add_sub_cancel_left, zpow_one]
    push_cast
    ring

/-- What is at least a power of two does not become less. -/
theorem zpow_le_round (hp : 0 < p) (h : 0 < r) : 2 ^ Int.log 2 r ≤ round p r := by
  have hdigits := two_pow_pred_mul_ulp hp r
  rw [abs_of_pos h] at hdigits
  have hle : ((2 ^ (p - 1) : ℤ) : ℚ) ≤ r / ulp p r := by
    rw [le_div_iff₀ (ulp_pos p r)]
    push_cast
    rw [hdigits]
    exact Int.zpow_log_le_self one_lt_two h
  rw [round, ← hdigits]
  refine mul_le_mul_of_nonneg_right ?_ (ulp_pos p r).le
  exact_mod_cast le_roundEven hle

/-- What is less than a power of two does not become more. -/
theorem round_le_zpow (h : 0 < q) : round p q ≤ 2 ^ (Int.log 2 q + 1) := by
  have hdigits := two_pow_mul_ulp p q
  rw [abs_of_pos h] at hdigits
  have hle : q / ulp p q ≤ ((2 ^ p : ℤ) : ℚ) := by
    rw [div_le_iff₀ (ulp_pos p q)]
    push_cast
    rw [hdigits]
    exact (Int.lt_zpow_succ_log_self one_lt_two q).le
  rw [round, ← hdigits]
  refine mul_le_mul_of_nonneg_right ?_ (ulp_pos p q).le
  exact_mod_cast roundEven_le hle

/-- **Rounding is monotone.** -/
theorem round_le_round (hp : 0 < p) (h0 : 0 ≤ q) (h : q ≤ r) : round p q ≤ round p r := by
  rcases h0.eq_or_lt with rfl | h0
  · rw [round_zero]
    have hround : 0 ≤ roundEven (r / ulp p r) :=
      le_roundEven (by exact_mod_cast div_nonneg h (ulp_pos p r).le)
    exact mul_nonneg (by exact_mod_cast hround) (ulp_pos p r).le
  have hr : 0 < r := h0.trans_le h
  rcases (Int.log_mono_right h0 h : Int.log 2 q ≤ Int.log 2 r).lt_or_eq with hlt | heq
  · calc round p q ≤ 2 ^ (Int.log 2 q + 1) := round_le_zpow h0
      _ ≤ 2 ^ Int.log 2 r := zpow_le_zpow_right₀ one_le_two hlt
      _ ≤ round p r := zpow_le_round hp hr
  · have hulp : ulp p q = ulp p r := by rw [ulp, ulp, abs_of_pos h0, abs_of_pos hr, heq]
    rw [round, round, hulp]
    refine mul_le_mul_of_nonneg_right ?_ (ulp_pos p r).le
    have hdiv : q / ulp p r ≤ r / ulp p r := div_le_div_of_nonneg_right h (ulp_pos p r).le
    exact_mod_cast roundEven_le_roundEven hdiv

theorem round_nonneg (hp : 0 < p) (h : 0 ≤ q) : 0 ≤ round p q := by
  have hle := round_le_round hp le_rfl h
  rwa [round_zero] at hle

/-- A number does not cross an integer of up to `p` digits. -/
theorem intCast_le_round (hp : 0 < p) {z : ℤ} (h0 : 0 ≤ z) (hz : z ≤ 2 ^ p) (h : z ≤ q) :
    z ≤ round p q := by
  rw [← round_intCast ((abs_of_nonneg h0).trans_le hz) hp]
  exact round_le_round hp (Int.cast_nonneg h0) h

@[inherit_doc intCast_le_round]
theorem round_le_intCast (hp : 0 < p) {z : ℤ} (hz : z ≤ 2 ^ p) (h0 : 0 ≤ q) (h : q ≤ z) :
    round p q ≤ z := by
  have hnonneg : 0 ≤ z := by exact_mod_cast h0.trans h
  rw [← round_intCast ((abs_of_nonneg hnonneg).trans_le hz) hp]
  exact round_le_round hp h0 h

/-- **The integer part** of a number that stays below the next integer by more than the error. -/
theorem floor_round (hp : 0 < p) {k : ℤ} (h0 : 0 ≤ k) (hk : k ≤ 2 ^ p) (hle : k ≤ q)
    (hlt : q + q / 2 ^ p < k + 1) : ⌊round p q⌋ = k := by
  have hq : 0 ≤ q := (Int.cast_nonneg h0).trans hle
  have herr := abs_le.1 (abs_round_sub_le p q)
  rw [abs_of_nonneg hq] at herr
  refine Int.floor_eq_iff.2 ⟨intCast_le_round hp h0 hk hle, ?_⟩
  linarith [herr.2]

/-- **The quotient of two rounded numbers**, the one not greater than the other. -/
theorem abs_round_div_sub_le (hp : 2 ≤ p) (h0 : 0 ≤ q) (h : q ≤ r) (hr : 0 < r) :
    |round p (round p q / round p r) - q / r| ≤ 4 / 2 ^ p := by
  have hp0 : 0 < p := by omega
  have hpow : (4 : ℚ) ≤ 2 ^ p := by
    calc (4 : ℚ) = 2 ^ 2 := by norm_num
      _ ≤ 2 ^ p := pow_le_pow_right₀ one_le_two hp
  have hu : 1 / 2 ^ p ≤ (1 : ℚ) / 4 := one_div_le_one_div_of_le four_pos hpow
  have hnum := (abs_round_sub_le p q).trans_eq (div_eq_mul_one_div _ _)
  have hden := (abs_round_sub_le p r).trans_eq (div_eq_mul_one_div _ _)
  have hquot := (abs_round_sub_le p (round p q / round p r)).trans_eq (div_eq_mul_one_div _ _)
  have hle : round p q ≤ round p r := round_le_round hp0 h0 h
  have hx : 0 ≤ round p q := round_nonneg hp0 h0
  rw [abs_of_nonneg h0] at hnum
  rw [abs_of_pos hr] at hden
  rw [div_eq_mul_one_div (4 : ℚ)]
  have hpos : (0 : ℚ) < 1 / 2 ^ p := by positivity
  generalize round p q = x, round p r = y, (1 : ℚ) / 2 ^ p = u at *
  -- write `u` for the relative error of a rounding, at most a quarter
  have hy : 3 / 4 * r ≤ y := by nlinarith [(abs_le.1 hden).1]
  have hy0 : 0 < y := by linarith
  have hone : |x / y| ≤ 1 := by
    rw [abs_of_nonneg (div_nonneg hx hy0.le)]
    exact (div_le_one hy0).2 hle
  -- two errors of the quotient come from its parts, the third from dividing by `y`
  have hratio : |x / y - q / r| ≤ 3 * u := by
    have hcross : |x * r - y * q| ≤ 2 * (q * u * r) := by
      calc |x * r - y * q| = |(x - q) * r - q * (y - r)| := by ring_nf
        _ ≤ |(x - q) * r| + |q * (y - r)| := abs_sub _ _
        _ = |x - q| * r + q * |y - r| := by
          rw [abs_mul, abs_mul, abs_of_pos hr, abs_of_nonneg h0]
        _ ≤ q * u * r + q * (r * u) := by gcongr
        _ = 2 * (q * u * r) := by ring
    rw [div_sub_div _ _ hy0.ne' hr.ne', abs_div, abs_of_pos (mul_pos hy0 hr),
      div_le_iff₀ (mul_pos hy0 hr)]
    refine hcross.trans ?_
    calc 2 * (q * u * r) ≤ 2 * (r * u * r) := by gcongr
      _ ≤ 3 * u * (y * r) := by nlinarith [mul_pos hpos hr]
  calc |round p (x / y) - q / r| = |round p (x / y) - x / y + (x / y - q / r)| := by ring_nf
    _ ≤ |round p (x / y) - x / y| + |x / y - q / r| := abs_add_le _ _
    _ ≤ 1 * u + 3 * u := by
      refine add_le_add (hquot.trans ?_) hratio
      gcongr
    _ = 4 * u := by ring

end FloatingPoint

end CAcheRein
