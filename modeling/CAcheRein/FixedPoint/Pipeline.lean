import CAcheRein.FixedPoint.Basic
import Mathlib.Algebra.Order.Field.Rat
import Mathlib.Algebra.Order.Field.Basic
import Mathlib.Tactic.NormNum
import Mathlib.Tactic.Ring

/-!
# The sensor pipeline

`adc_to_voltage_mv` and `voltage_to_temp` truncate once each, so the temperature lies less than 27
units of the Q8 format below the exact one; the left shift in `FIXED_DIV` admits samples up to
40662, ten times the range of the 12-bit ADC.
-/

namespace CAcheRein

variable {x : UInt16} {v t : Int32}

/-- The pipeline of `main`: the temperature of a sample. -/
def sensorTemp (adcRaw : UInt16) : Option Int32 := do
  let voltage ← adcToVoltageMv adcRaw
  voltageToTemp voltage

/-- The exact temperature of a sample, in units of the Q8 format. -/
def exactTemp (adcRaw : UInt16) : ℚ := adcRaw.toNat * 3300 * 256 / (4095 * 10)

/-- The voltage is in range for every sample. -/
theorem adcToVoltageMv_eq (x : UInt16) :
    ∃ v, adcToVoltageMv x = some v ∧ v.toInt = x.toNat * 3300 / 4095 := by
  have hlt : x.toNat < 65536 := x.toNat_lt
  obtain ⟨p, hp, hval⟩ := exists_checked (z := x.toNat * vrefMv) ⟨by rw [vrefMv]; omega,
    by rw [vrefMv]; omega⟩
  have hdiv : p.toInt.tdiv adcMax = x.toNat * 3300 / 4095 := by
    rw [hval]
    exact Int.tdiv_eq_ediv_of_nonneg (by rw [vrefMv]; omega)
  obtain ⟨v, hv, hvval⟩ := exists_checked (z := p.toInt.tdiv adcMax)
    (by rw [hdiv]; exact ⟨by omega, by omega⟩)
  refine ⟨v, ?_, hvval.trans hdiv⟩
  rw [adcToVoltageMv, hp]
  exact hv

/-- The temperature of a voltage is in range exactly if the voltage fits in 16 bits. -/
theorem voltageToTemp_eq_some_iff : voltageToTemp v = some t ↔
    InInt32 (v.toInt * 65536) ∧ t.toInt = (v.toInt * 65536).tdiv 2560 := by
  have hscale : v.toInt * 256 * 256 = v.toInt * 65536 := by omega
  have hten : intToFixed 10 = some 2560 := by decide
  rw [voltageToTemp, Option.bind_eq_bind, Option.bind_eq_some_iff]
  constructor
  · rintro ⟨f, hf, ht⟩
    rw [hten] at ht
    rw [intToFixed_eq_some_iff] at hf
    obtain ⟨hrange, -, htemp⟩ := fixedDiv_eq_some_iff.1 ht
    rw [hf, hscale] at hrange htemp
    exact ⟨hrange, htemp⟩
  · rintro ⟨hrange, htemp⟩
    obtain ⟨f, hf, hval⟩ := exists_checked (z := v.toInt * fixedScale) (by
      obtain ⟨hlo, hhi⟩ := hrange
      exact ⟨by rw [fixedScale, fixedShift]; omega, by rw [fixedScale, fixedShift]; omega⟩)
    have hfval : f.toInt * 256 = v.toInt * 65536 := by
      rw [hval, ← hscale]
      rfl
    refine ⟨f, hf, ?_⟩
    rw [hten]
    refine fixedDiv_eq_some_iff.2 ⟨?_, by decide, ?_⟩
    · rw [hfval]; exact hrange
    · rw [hfval]; exact htemp

/-- The pipeline has a value exactly up to the sample 40662. -/
theorem sensorTemp_eq_some_iff : sensorTemp x = some t ↔
    x.toNat ≤ 40662 ∧ t.toInt = (x.toNat * 3300 / 4095 * 65536 : ℤ) / 2560 := by
  obtain ⟨v, hv, hval⟩ := adcToVoltageMv_eq x
  have hrange : InInt32 (v.toInt * 65536) ↔ x.toNat ≤ 40662 := by
    rw [hval, InInt32]
    omega
  have hnonneg : 0 ≤ v.toInt * 65536 := by omega
  rw [sensorTemp, hv]
  change voltageToTemp v = some t ↔ _
  rw [voltageToTemp_eq_some_iff, hrange, Int.tdiv_eq_ediv_of_nonneg hnonneg, hval]

theorem exists_sensorTemp (h : x.toNat ≤ 40662) : ∃ t, sensorTemp x = some t := by
  obtain ⟨t, -, ht⟩ := exists_checked
    (z := (x.toNat * 3300 / 4095 * 65536 : ℤ) / 2560) ⟨by omega, by omega⟩
  exact ⟨t, sensorTemp_eq_some_iff.2 ⟨h, ht⟩⟩

/-- A larger sample has no smaller temperature. -/
theorem sensorTemp_mono {y : UInt16} {u : Int32} (hxy : x ≤ y) (ht : sensorTemp x = some t)
    (hu : sensorTemp y = some u) : t ≤ u := by
  have hle : x.toNat ≤ y.toNat := hxy
  have htval := (sensorTemp_eq_some_iff.1 ht).2
  have huval := (sensorTemp_eq_some_iff.1 hu).2
  have hvolt : (x.toNat * 3300 / 4095 : ℤ) ≤ y.toNat * 3300 / 4095 :=
    Int.ediv_le_ediv (by decide) (by omega)
  rw [Int32.le_iff_toInt_le, htval, huval]
  exact Int.ediv_le_ediv (by decide) (by omega)

/-- The two truncations lose less than 27 units together. -/
theorem sensorTemp_error (ht : sensorTemp x = some t) :
    0 ≤ t.toInt ∧ 0 ≤ exactTemp x - t.toInt ∧ exactTemp x - t.toInt < 27 := by
  have hval := (sensorTemp_eq_some_iff.1 ht).2
  have hlo : t.toInt * 40950 ≤ x.toNat * 844800 := by omega
  have hhi : (x.toNat * 844800 : ℤ) < (t.toInt + 27) * 40950 := by omega
  have hlo' : (t.toInt * 40950 : ℚ) ≤ x.toNat * 844800 := by exact_mod_cast hlo
  have hhi' : (x.toNat * 844800 : ℚ) < (t.toInt + 27) * 40950 := by exact_mod_cast hhi
  have hexact : exactTemp x = x.toNat * 844800 / 40950 := by
    rw [exactTemp]
    ring
  refine ⟨?_, ?_, ?_⟩
  · rw [hval]
    exact Int.ediv_nonneg (by omega) (by decide)
  · rw [hexact, sub_nonneg, le_div_iff₀ (by norm_num)]
    exact hlo'
  · rw [hexact, sub_lt_iff_lt_add', div_lt_iff₀ (by norm_num)]
    exact hhi'

/-- **The sensor pipeline**: it overflows nowhere exactly on the samples up to 40662, and there
it is monotone, never negative, and less than 27 units below the exact temperature. -/
theorem sensorTemp_pipeline (x y : UInt16) :
    ((∃ t, sensorTemp x = some t) ↔ x ≤ 40662) ∧
    (x ≤ y → y ≤ 40662 → ∃ t u, sensorTemp x = some t ∧ sensorTemp y = some u ∧ t ≤ u) ∧
    (x ≤ 40662 → ∃ t, sensorTemp x = some t ∧ 0 ≤ t ∧
      0 ≤ exactTemp x - t.toInt ∧ exactTemp x - t.toInt < 27) := by
  refine ⟨⟨?_, exists_sensorTemp⟩, ?_, ?_⟩
  · rintro ⟨t, ht⟩
    exact (sensorTemp_eq_some_iff.1 ht).1
  · intro hxy hy
    obtain ⟨t, ht⟩ := exists_sensorTemp (x := x) (UInt16.le_trans hxy hy)
    obtain ⟨u, hu⟩ := exists_sensorTemp hy
    exact ⟨t, u, ht, hu, sensorTemp_mono hxy ht hu⟩
  · intro hx
    obtain ⟨t, ht⟩ := exists_sensorTemp hx
    obtain ⟨hpos, herr⟩ := sensorTemp_error ht
    exact ⟨t, ht, Int32.le_iff_toInt_le.2 hpos, herr⟩

/-- A 16-bit sample overflows the shift in `FIXED_DIV`. -/
theorem sensorTemp_max_overflows : sensorTemp 65535 = none := by decide

end CAcheRein
