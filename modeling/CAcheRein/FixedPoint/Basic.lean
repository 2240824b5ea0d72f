import CAcheRein.Bits.Checked
import Mathlib.Algebra.Ring.Int.Defs
import Mathlib.Tactic.Linarith

/-!
# Q8 fixed-point arithmetic

The macros of `module3-embedded-patterns/ex04-fixed-point`, on `int32_t` operands, and the sensor
pipeline built from them.  A value is computed in `Option`: it is `none` if a step leaves the
range of `int32_t` or divides by zero.  `>>` rounds down, `/` towards zero, and `<<` multiplies.

## Main results

* `fixedMul_eq_some_iff`, `fixedDiv_eq_some_iff`, `intToFixed_eq_some_iff` : when the macros have
  a value, and which.
* `tdiv_eq_of_nonneg`, `tdiv_eq_of_nonpos` : a quotient rounded towards zero by its bounds.
-/

namespace CAcheRein

/-- `FIXED_SHIFT`. -/
def fixedShift : ℕ := 8

/-- `FIXED_SCALE`. -/
def fixedScale : ℤ := 1 * 2 ^ fixedShift

/-- `INT_TO_FIXED`. -/
def intToFixed (x : Int32) : Option Int32 := checked (x.toInt * fixedScale)

/-- `FIXED_MUL`: the product is scaled back after the multiplication. -/
def fixedMul (a b : Int32) : Option Int32 := do
  let p ← checked (a.toInt * b.toInt)
  some (p >>> Int32.ofNat fixedShift)

/-- `FIXED_DIV`: the dividend is scaled up before the division. -/
def fixedDiv (a b : Int32) : Option Int32 := do
  let n ← checked (a.toInt * 2 ^ fixedShift)
  if b = 0 then none else checked (n.toInt.tdiv b.toInt)

/-- `ADC_MAX`. -/
def adcMax : ℤ := 4095

/-- `VREF_MV`. -/
def vrefMv : ℤ := 3300

/-- `adc_to_voltage_mv`. -/
def adcToVoltageMv (adcRaw : UInt16) : Option Int32 := do
  let p ← checked (adcRaw.toNat * vrefMv)
  checked (p.toInt.tdiv adcMax)

/-- `voltage_to_temp`. -/
def voltageToTemp (voltageMv : Int32) : Option Int32 := do
  let fixedVoltage ← intToFixed voltageMv
  let fixedTen ← intToFixed 10
  fixedDiv fixedVoltage fixedTen

/-! ### Quotients rounded towards zero -/

theorem tdiv_eq_of_nonneg {n d q : ℤ} (hn : 0 ≤ n) (hd : 0 < d) (hlo : q * d ≤ n)
    (hhi : n < (q + 1) * d) : n.tdiv d = q := by
  rw [Int.tdiv_eq_ediv_of_nonneg hn]
  exact le_antisymm (Int.lt_add_one_iff.1 ((Int.ediv_lt_iff_lt_mul hd).2 hhi))
    ((Int.le_ediv_iff_mul_le hd).2 hlo)

theorem tdiv_eq_of_nonpos {n d q : ℤ} (hn : n ≤ 0) (hd : 0 < d) (hlo : (q - 1) * d < n)
    (hhi : n ≤ q * d) : n.tdiv d = q := by
  have h : (-n).tdiv d = -q := by
    refine tdiv_eq_of_nonneg (by omega) hd ?_ ?_
    · rw [Int.neg_mul]
      exact Int.neg_le_neg hhi
    · rw [show (-q + 1) * d = -((q - 1) * d) by rw [← Int.neg_mul]; congr 1; omega]
      exact Int.neg_lt_neg hlo
  rw [Int.neg_tdiv] at h
  omega

/-- A positive bound on a quotient. -/
theorem tdiv_lt_iff {n d k : ℤ} (hd : 0 < d) (hk : 0 < k) : n.tdiv d < k ↔ n < k * d := by
  by_cases hn : 0 ≤ n
  · rw [Int.tdiv_eq_ediv_of_nonneg hn, Int.ediv_lt_iff_lt_mul hd]
  · have hq : 0 ≤ (-n).tdiv d := Int.tdiv_nonneg (by omega) hd.le
    rw [Int.neg_tdiv] at hq
    have hkd : 0 < k * d := Int.mul_pos hk hd
    exact ⟨fun _ => by omega, fun _ => by omega⟩

/-- A bound on a quotient from below. -/
theorem neg_le_tdiv_iff {n d k : ℤ} (hd : 0 < d) (hk : 0 ≤ k) :
    -k ≤ n.tdiv d ↔ -((k + 1) * d) < n := by
  have h := tdiv_lt_iff (n := -n) (k := k + 1) hd (by omega)
  rw [Int.neg_tdiv] at h
  constructor
  · intro hlo
    have := h.1 (by omega)
    omega
  · intro hlo
    have := h.2 (by omega)
    omega

/-! ### The values of the macros -/

/-- `>>` rounds down. -/
theorem toInt_shiftRight_fixedShift (a : Int32) :
    (a >>> Int32.ofNat fixedShift).toInt = a.toInt / 256 := by
  have hmod : (Int32.ofNat fixedShift).toBitVec.smod 32 = 8#32 := rfl
  rw [← Int32.toInt_toBitVec, Int32.toBitVec_shiftRight, BitVec.toInt_sshiftRight', hmod,
    Int.shiftRight_eq_div_pow]
  rfl

theorem intToFixed_eq_some_iff {x r : Int32} : intToFixed x = some r ↔ r.toInt = x.toInt * 256 :=
  checked_eq_some_iff

theorem fixedMul_eq_some_iff {a b r : Int32} : fixedMul a b = some r ↔
    InInt32 (a.toInt * b.toInt) ∧ r.toInt = a.toInt * b.toInt / 256 := by
  rw [fixedMul, Option.bind_eq_bind, Option.bind_eq_some_iff]
  constructor
  · rintro ⟨p, hp, hr⟩
    rw [checked_eq_some_iff] at hp
    rw [Option.some.injEq] at hr
    rw [← hr, toInt_shiftRight_fixedShift, ← hp]
    exact ⟨inInt32_toInt p, rfl⟩
  · rintro ⟨hrange, hr⟩
    obtain ⟨p, hp, hval⟩ := exists_checked hrange
    refine ⟨p, hp, congrArg some (Int32.toInt.inj ?_)⟩
    rw [toInt_shiftRight_fixedShift, hval, hr]

theorem fixedDiv_eq_some_iff {a b r : Int32} : fixedDiv a b = some r ↔
    InInt32 (a.toInt * 256) ∧ b ≠ 0 ∧ r.toInt = (a.toInt * 256).tdiv b.toInt := by
  rw [fixedDiv, Option.bind_eq_bind, Option.bind_eq_some_iff]
  constructor
  · rintro ⟨n, hn, hr⟩
    rw [checked_eq_some_iff] at hn
    by_cases hb : b = 0
    · rw [if_pos hb] at hr
      cases hr
    · rw [if_neg hb, checked_eq_some_iff, hn] at hr
      refine ⟨?_, hb, hr⟩
      rw [show a.toInt * 256 = n.toInt from hn.symm]
      exact inInt32_toInt n
  · rintro ⟨hrange, hb, hr⟩
    obtain ⟨n, hn, hval⟩ := exists_checked hrange
    refine ⟨n, hn, ?_⟩
    rw [if_neg hb, checked_eq_some_iff, hval, hr]

end CAcheRein
