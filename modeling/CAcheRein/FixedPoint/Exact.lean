import CAcheRein.FixedPoint.Basic
import Mathlib.Algebra.Order.Group.Abs
import Mathlib.Data.Rat.Floor

/-!
# How exact the fixed-point macros are

`FIXED_MUL` and `FIXED_DIV` scale a 32-bit intermediate, so they overflow on operands whose Q8
product or quotient is representable; `exact_iff` says on which.  Where they do not overflow, each
undoes the other up to the rounding of `>>` and `/`, `mul_div_round_trip`.
-/

namespace CAcheRein

variable {a b : Int32}

/-! ### The range -/

/-- If the Q8 product is representable, `FIXED_MUL` returns it and no step overflows. -/
def ExactMul (a b : Int32) : Prop :=
  InInt32 (a.toInt * b.toInt / 256) →
    ∃ r, fixedMul a b = some r ∧ r.toInt = a.toInt * b.toInt / 256

/-- If the Q8 quotient is defined and representable, `FIXED_DIV` returns it and no step
overflows. -/
def ExactDiv (a b : Int32) : Prop :=
  b ≠ 0 → InInt32 ((a.toInt * 256).tdiv b.toInt) →
    ∃ r, fixedDiv a b = some r ∧ r.toInt = (a.toInt * 256).tdiv b.toInt

/-- The product is exact unless it is one of those only the result is narrow enough for. -/
theorem exactMul_iff : ExactMul a b ↔
    ¬ (2 ^ 31 ≤ a.toInt * b.toInt ∧ a.toInt * b.toInt < 2 ^ 39) ∧
    ¬ (-2 ^ 39 ≤ a.toInt * b.toInt ∧ a.toInt * b.toInt < -2 ^ 31) := by
  have hstep : ExactMul a b ↔
      (InInt32 (a.toInt * b.toInt / 256) → InInt32 (a.toInt * b.toInt)) := by
    constructor
    · intro hexact hrange
      obtain ⟨r, hr, -⟩ := hexact hrange
      exact (fixedMul_eq_some_iff.1 hr).1
    · intro hprod hrange
      obtain ⟨r, -, hval⟩ := exists_checked hrange
      exact ⟨r, fixedMul_eq_some_iff.2 ⟨hprod hrange, hval⟩, hval⟩
  rw [hstep]
  generalize a.toInt * b.toInt = p
  simp only [InInt32]
  omega

/-- A quotient by its absolute divisor. -/
theorem tdiv_eq_tdiv_abs {n d : ℤ} (hd : d ≠ 0) : n.tdiv d = (n * d.sign).tdiv |d| := by
  rcases lt_or_gt_of_ne hd with hneg | hpos
  · rw [Int.sign_eq_neg_one_of_neg hneg, abs_of_neg hneg, Int.mul_neg_one, Int.neg_tdiv_neg]
  · rw [Int.sign_eq_one_of_pos hpos, abs_of_pos hpos, Int.mul_one]

/-- Which quotients are representable. -/
theorem inInt32_tdiv_iff {n d : ℤ} (hd : d ≠ 0) : InInt32 (n.tdiv d) ↔
    -((2 ^ 31 + 1) * |d|) < n * d.sign ∧ n * d.sign < 2 ^ 31 * |d| := by
  rw [tdiv_eq_tdiv_abs hd, InInt32, neg_le_tdiv_iff (abs_pos.2 hd) (by decide),
    tdiv_lt_iff (abs_pos.2 hd) (by decide)]

theorem toInt_ne_zero (hb : b ≠ 0) : b.toInt ≠ 0 := fun h => hb (Int32.toInt.inj h)

theorem ne_zero_of_toInt_pos (hb : 0 < b.toInt) : b ≠ 0 := by
  rintro rfl
  exact absurd hb (by decide)

/-- The quotient is exact unless the scaled dividend is too wide and the quotient is not. -/
theorem exactDiv_iff : ExactDiv a b ↔
    b = 0 ∨ (-2 ^ 23 ≤ a.toInt ∧ a.toInt < 2 ^ 23) ∨
    2 ^ 23 * |b.toInt| ≤ a.toInt * b.toInt.sign ∨
    256 * (a.toInt * b.toInt.sign) ≤ -((2 ^ 31 + 1) * |b.toInt|) := by
  by_cases hb : b = 0
  · exact iff_of_true (fun h => absurd hb h) (.inl hb)
  have hstep : ExactDiv a b ↔
      (InInt32 ((a.toInt * 256).tdiv b.toInt) → InInt32 (a.toInt * 256)) := by
    constructor
    · intro hexact hrange
      obtain ⟨r, hr, -⟩ := hexact hb hrange
      exact (fixedDiv_eq_some_iff.1 hr).1
    · intro hscaled _ hrange
      obtain ⟨r, -, hval⟩ := exists_checked hrange
      exact ⟨r, fixedDiv_eq_some_iff.2 ⟨hscaled hrange, hb, hval⟩, hval⟩
  have hscale : a.toInt * 256 * b.toInt.sign = 256 * (a.toInt * b.toInt.sign) := by
    rw [Int.mul_comm a.toInt 256, Int.mul_assoc]
  rw [hstep, inInt32_tdiv_iff (toInt_ne_zero hb), hscale, InInt32]
  simp only [hb, false_or]
  generalize a.toInt * b.toInt.sign = n
  generalize |b.toInt| = d
  omega

/-- **Which operands the macros are exact on.**  `FIXED_MUL` misses a representable product
exactly if the product before the shift is out of range, `FIXED_DIV` a representable quotient
exactly if the dividend after the shift is. -/
theorem exact_iff (a b : Int32) :
    (ExactMul a b ↔
      ¬ (2 ^ 31 ≤ a.toInt * b.toInt ∧ a.toInt * b.toInt < 2 ^ 39) ∧
      ¬ (-2 ^ 39 ≤ a.toInt * b.toInt ∧ a.toInt * b.toInt < -2 ^ 31)) ∧
    (ExactDiv a b ↔
      b = 0 ∨ (-2 ^ 23 ≤ a.toInt ∧ a.toInt < 2 ^ 23) ∨
      2 ^ 23 * |b.toInt| ≤ a.toInt * b.toInt.sign ∨
      256 * (a.toInt * b.toInt.sign) ≤ -((2 ^ 31 + 1) * |b.toInt|)) :=
  ⟨exactMul_iff, exactDiv_iff⟩

/-- 256.0 · 256.0 and 32768.0 / 1.0 are representable, and the macros overflow on them. -/
theorem not_exact_large : ¬ ExactMul 65536 65536 ∧ ¬ ExactDiv 8388608 256 := by
  constructor
  · intro hexact
    obtain ⟨r, hr, -⟩ := hexact (by decide)
    exact absurd (fixedMul_eq_some_iff.1 hr).1 (by decide)
  · intro hexact
    obtain ⟨r, hr, -⟩ := hexact (by decide) (by decide)
    exact absurd (fixedDiv_eq_some_iff.1 hr).1 (by decide)

/-! ### The rounding -/

/-- The remainder of a quotient rounded towards zero. -/
theorem exists_remainder (n : ℤ) {d : ℤ} (hd : 0 < d) : ∃ r, n = n.tdiv d * d + r ∧
    -d < r ∧ r < d ∧ (0 ≤ n → 0 ≤ r ∧ 0 ≤ n.tdiv d * d) ∧ (n ≤ 0 → r ≤ 0 ∧ n.tdiv d * d ≤ 0) := by
  refine ⟨n.tmod d, (Int.tdiv_mul_add_tmod n d).symm, Int.lt_tmod_of_pos n hd,
    Int.tmod_lt_of_pos n hd, ?_, ?_⟩
  · intro hn
    exact ⟨Int.tmod_nonneg d hn, Int.mul_nonneg (Int.tdiv_nonneg hn hd.le) hd.le⟩
  · intro hn
    have hr := Int.tmod_nonneg d (a := -n) (by omega)
    have hq := Int.mul_nonneg (Int.tdiv_nonneg (a := -n) (by omega) hd.le) hd.le
    rw [Int.neg_tmod] at hr
    rw [Int.neg_tdiv, Int.neg_mul] at hq
    exact ⟨by omega, by omega⟩

/-- A quotient is in range if the dividend is. -/
theorem inInt32_tdiv {n d : ℤ} (hn : InInt32 n) (hd : 0 < d) : InInt32 (n.tdiv d) := by
  obtain ⟨hlo, hhi⟩ := hn
  exact ⟨(neg_le_tdiv_iff hd (by decide)).2 (by omega), (tdiv_lt_iff hd (by decide)).2 (by omega)⟩

/-- Multiplied and divided back: `>>` has rounded down, so a positive operand may lose one. -/
theorem fixedDiv_fixedMul (hb : 256 ≤ b.toInt) (hprod : InInt32 (a.toInt * b.toInt)) :
    ∃ m q, fixedMul a b = some m ∧ fixedDiv m b = some q ∧ q.toInt =
      if a.toInt ≤ 0 ∨ 256 ∣ a.toInt * b.toInt then a.toInt else a.toInt - 1 := by
  obtain ⟨hlo, hhi⟩ := hprod
  have hb0 : b ≠ 0 := ne_zero_of_toInt_pos (by omega)
  -- the product is `256 * m + r`
  have hm : InInt32 (a.toInt * b.toInt / 256) := ⟨by omega, by omega⟩
  obtain ⟨m, -, hval⟩ := exists_checked hm
  have hscaled : InInt32 (m.toInt * 256) := ⟨by omega, by omega⟩
  have hquot : (m.toInt * 256).tdiv b.toInt =
      if a.toInt ≤ 0 ∨ 256 ∣ a.toInt * b.toInt then a.toInt else a.toInt - 1 := by
    have hsucc : (a.toInt + 1) * b.toInt = a.toInt * b.toInt + b.toInt := by
      rw [Int.add_mul, Int.one_mul]
    have hpred : (a.toInt - 1) * b.toInt = a.toInt * b.toInt - b.toInt := by
      rw [Int.sub_mul, Int.one_mul]
    by_cases hpos : a.toInt ≤ 0
    · have hneg : a.toInt * b.toInt ≤ 0 := Int.mul_nonpos_of_nonpos_of_nonneg hpos (by omega)
      rw [if_pos (.inl hpos)]
      exact tdiv_eq_of_nonpos (by omega) (by omega) (by omega) (by omega)
    · have hge : b.toInt ≤ a.toInt * b.toInt := by
        calc b.toInt = 1 * b.toInt := (Int.one_mul _).symm
          _ ≤ a.toInt * b.toInt := Int.mul_le_mul_of_nonneg_right (by omega) (by omega)
      by_cases hdvd : 256 ∣ a.toInt * b.toInt
      · rw [if_pos (.inr hdvd)]
        exact tdiv_eq_of_nonneg (by omega) (by omega) (by omega) (by omega)
      · have hback : (a.toInt - 1 + 1) * b.toInt = a.toInt * b.toInt := by
          rw [Int.sub_add_cancel]
        rw [if_neg (not_or.2 ⟨hpos, hdvd⟩)]
        exact tdiv_eq_of_nonneg (by omega) (by omega) (by omega) (by omega)
  obtain ⟨q, -, hq⟩ := exists_checked (inInt32_tdiv (d := b.toInt) hscaled (by omega))
  exact ⟨m, q, fixedMul_eq_some_iff.2 ⟨⟨hlo, hhi⟩, hval⟩,
    fixedDiv_eq_some_iff.2 ⟨hscaled, hb0, hq⟩, hq.trans hquot⟩

/-- Divided and multiplied back: the lost remainder is smaller than the divisor. -/
theorem fixedMul_fixedDiv (hscaled : InInt32 (a.toInt * 256)) (hb : 0 < b.toInt) :
    ∃ q m, fixedDiv a b = some q ∧ fixedMul q b = some m ∧
      |m.toInt - a.toInt| ≤ ⌈(b.toInt / 256 : ℚ)⌉ := by
  have hb0 : b ≠ 0 := ne_zero_of_toInt_pos hb
  obtain ⟨q, -, hq⟩ := exists_checked (inInt32_tdiv hscaled hb)
  obtain ⟨r, hr, hrlo, hrhi, hpos, hneg⟩ := exists_remainder (a.toInt * 256) hb
  rw [← hq] at hr hpos hneg
  obtain ⟨hlo, hhi⟩ := hscaled
  -- the product is between zero and the scaled dividend
  have hprod : InInt32 (q.toInt * b.toInt) := by
    rcases le_total 0 (a.toInt * 256) with hn | hn
    · exact ⟨by omega, by omega⟩
    · exact ⟨by omega, by omega⟩
  obtain ⟨m, -, hm⟩ := exists_checked
    (z := q.toInt * b.toInt / 256) ⟨by omega, by omega⟩
  refine ⟨q, m, fixedDiv_eq_some_iff.2 ⟨⟨hlo, hhi⟩, hb0, hq⟩,
    fixedMul_eq_some_iff.2 ⟨hprod, hm⟩, ?_⟩
  have hceil : ⌈(b.toInt / 256 : ℚ)⌉ = -((-b.toInt) / 256) :=
    Rat.ceil_intCast_div_natCast b.toInt 256
  rw [hceil, abs_le]
  exact ⟨by omega, by omega⟩

/-- **The macros undo each other up to rounding**, and no step overflows. -/
theorem mul_div_round_trip (a b : Int32) :
    (256 ≤ b.toInt → InInt32 (a.toInt * b.toInt) →
      ∃ m q, fixedMul a b = some m ∧ fixedDiv m b = some q ∧ q.toInt =
        if a.toInt ≤ 0 ∨ 256 ∣ a.toInt * b.toInt then a.toInt else a.toInt - 1) ∧
    (InInt32 (a.toInt * 256) → 0 < b.toInt →
      ∃ q m, fixedDiv a b = some q ∧ fixedMul q b = some m ∧
        |m.toInt - a.toInt| ≤ ⌈(b.toInt / 256 : ℚ)⌉) :=
  ⟨fixedDiv_fixedMul, fixedMul_fixedDiv⟩

/-- A product that is rounded down, and a quotient that is. -/
theorem mul_div_round_trip_rounded :
    (∃ m q, fixedMul 300 257 = some m ∧ fixedDiv m 257 = some q ∧ q.toInt = 299) ∧
      ∃ q m, fixedDiv 300 257 = some q ∧ fixedMul q 257 = some m ∧
        |m.toInt - 300| ≤ ⌈(((257 : Int32).toInt : ℚ) / 256)⌉ := by
  obtain ⟨hmul, hdiv⟩ := mul_div_round_trip 300 257
  exact ⟨hmul (by decide) (by decide), hdiv (by decide) (by decide)⟩

end CAcheRein
