import CAcheRein.Text.Scan
import CAcheRein.Text.Signed

/-!
# The thermal zones

`read_cpu_thermal` of `module5-linux-systems/ex03-sys-interface`: the temperature of a zone is a
number of millidegrees in a file, and is printed with `"%d.%03d"` from the quotient and the
remainder by 1000, both rounded towards zero.

## Main results

* `readCpuThermal_eq` : which lines are printed.
* `tempText_exact_iff` : which temperatures are printed exactly.
-/

namespace CAcheRein

namespace Thermal

open Text

/-! ### The program -/

/-- One `read` of at most `size` bytes of a file; `none` if it cannot be opened or nothing is
read. -/
def readFile (file : File) (size : ℕ) : Option (List Char) :=
  file.bind fun text => if text.take size = [] then none else some (text.take size)

/-- The path of a file of a zone. -/
def path (i : ℕ) (name : String) : List Char :=
  "/sys/class/thermal/cooling_device".toList ++ zeroPadded 0 i ++ '/' :: name.toList

/-- `type` as `%s` prints it: without a newline at its end, and up to a NUL. -/
def typeName (type : List Char) : List Char :=
  (if type.getLast? = some '\n' then type.dropLast else type).takeWhile fun c => c.toNat ≠ 0

/-- `atoi`, by way of a `long` that is cut to an `int`. -/
def atoi (s : List Char) : Int32 :=
  match readInt (s.dropWhile isSpace) with
  | none => 0
  | some (q, _) => Int32.ofInt (clampLong q.num)

/-- The text of a temperature. -/
def tempText (tempMc : Int32) : List Char :=
  zeroPadded 0 (tempMc / 1000).toInt ++ '.' :: zeroPadded 3 (tempMc % 1000).toInt

/-- The line of a zone. -/
def zoneLine (i : ℕ) (type : List Char) (tempMc : Int32) : List Char :=
  " zone".toList ++ zeroPadded 0 i ++ " [".toList ++ typeName type ++ "]: ".toList ++
    tempText tempMc ++ "°C\n".toList

/-- The loop of `read_cpu_thermal`: the lines of the zones `is`. -/
def readZones (files : List Char → File) : List ℕ → List (List Char)
  | [] => []
  | i :: is =>
    match readFile (files (path i "type")) 63 with
    -- no more zones
    | none => []
    | some type =>
      match readFile (files (path i "temp")) 31 with
      | none => readZones files is
      | some tempStr => zoneLine i type (atoi tempStr) :: readZones files is

/-- `read_cpu_thermal`. -/
def readCpuThermal (files : List Char → File) : List Char :=
  let lines := readZones files (List.range 4)
  if lines = [] then
    "  no thermal zones found (WSL2 — no direct hardware access)\n".toList ++
      "  on real embedded Linux: Raspberry Pi, BeagleBone, i.MX6\n".toList ++
      "  thermal zones would show CPU, GPU, battery temperatures\n".toList
  else lines.flatten

variable {t : Int32}

/-! ### The lines -/

/-- What the file of a zone holds at a temperature. -/
def tempFile (t : Int32) : List Char := zeroPadded 0 t.toInt ++ ['\n']

/-- The file fits the buffer. -/
theorem readFile_tempFile (t : Int32) : readFile (some (tempFile t)) 31 = some (tempFile t) := by
  have hlo := t.le_toInt
  have hhi := t.toInt_lt
  have hdigits : (digits t.toInt.natAbs).length ≤ 10 :=
    (Nat.length_toDigits_le_iff (by decide) (by decide)).2 (by omega)
  have hlen : (tempFile t).length ≤ 31 := by
    rw [tempFile, zeroPadded]
    split_ifs <;>
      simp only [Nat.zero_sub, padded_zero, List.length_append, List.length_cons,
        List.length_nil] <;>
      omega
  have hne : tempFile t ≠ [] := List.append_ne_nil_of_right_ne_nil _ (List.cons_ne_nil _ _)
  rw [readFile, Option.bind_some, List.take_of_length_le hlen, if_neg hne]

theorem atoi_tempFile (t : Int32) : atoi (tempFile t) = t := by
  have hspace := zeroPadded_stops not_space_of_isDigit (by decide) 0 t.toInt ['\n']
  have hlo := t.le_toInt
  have hhi := t.toInt_lt
  have hlong : clampLong t.toInt = t.toInt := clampLong_eq (by omega) (by omega)
  rw [atoi, tempFile, hspace.dropWhile_eq_self, readInt_zeroPadded 0 _ (stops_cons rfl _)]
  dsimp only
  rw [Rat.num_intCast, hlong, Int32.ofInt_toInt]

/-- The lines for zones with the temperatures `temps`, up to the first zone without a type. -/
def zoneLines (files : List Char → File) (temps : ℕ → Option Int32) (is : List ℕ) :
    List (List Char) :=
  (is.takeWhile fun i => (readFile (files (path i "type")) 63).isSome).filterMap fun i =>
    (readFile (files (path i "type")) 63).bind fun type => (temps i).map (zoneLine i type)

/-- The loop prints these lines. -/
theorem readZones_eq {files : List Char → File} {temps : ℕ → Option Int32}
    (h : ∀ i, files (path i "temp") = (temps i).map tempFile) (is : List ℕ) :
    readZones files is = zoneLines files temps is := by
  unfold zoneLines
  induction is with
  | nil => rfl
  | cons i is ih =>
    rw [readZones]
    cases htype : readFile (files (path i "type")) 63 with
    | none => rw [List.takeWhile_cons_of_neg (by simp [htype])]; rfl
    | some type =>
      rw [List.takeWhile_cons_of_pos (by simp [htype]), h i]
      cases htemp : temps i with
      | none =>
        rw [List.filterMap_cons_none (by simp [htemp])]
        exact ih
      | some t =>
        rw [List.filterMap_cons_some (by simp [htype, htemp]; rfl), Option.map_some,
          readFile_tempFile]
        dsimp only
        rw [atoi_tempFile, ih]

/-- **What `read_cpu_thermal` prints**, if there is a zone with a temperature. -/
theorem readCpuThermal_eq {files : List Char → File} {temps : ℕ → Option Int32}
    (h : ∀ i, files (path i "temp") = (temps i).map tempFile)
    (hfound : zoneLines files temps (List.range 4) ≠ []) :
    readCpuThermal files = (zoneLines files temps (List.range 4)).flatten := by
  simp only [readCpuThermal, readZones_eq h]
  rw [if_neg hfound]

/-! ### The text of a temperature -/

theorem tempText_eq (t : Int32) :
    tempText t = zeroPadded 0 (t.toInt.tdiv 1000) ++ '.' :: zeroPadded 3 (t.toInt.tmod 1000) := by
  rw [tempText, Int32.toInt_div_of_ne_right t 1000 (by decide), Int32.toInt_mod]
  rfl

/-- The quotient is read back, and what is left is the remainder. -/
theorem readInt_tempText (t : Int32) : readInt (tempText t) =
    some (((t.toInt.tdiv 1000 : ℤ) : ℚ), '.' :: zeroPadded 3 (t.toInt.tmod 1000)) := by
  rw [tempText_eq]
  exact readInt_zeroPadded 0 _ (stops_cons rfl _)

/-- **Different temperatures have different texts.** -/
theorem tempText_injective : Function.Injective tempText := by
  intro t t' heq
  have hread := congrArg readInt heq
  rw [readInt_tempText, readInt_tempText, Option.some.injEq, Prod.mk.injEq, Int.cast_inj,
    List.cons.injEq] at hread
  obtain ⟨hdiv, -, hfrac⟩ := hread
  have hmod := readInt_zeroPadded 3 (t.toInt.tmod 1000) (stops_nil _)
  rw [hfrac, readInt_zeroPadded 3 _ (stops_nil _), Option.some.injEq, Prod.mk.injEq,
    Int.cast_inj] at hmod
  apply Int32.toInt_inj.1
  rw [← Int.mul_tdiv_add_tmod t.toInt 1000, ← Int.mul_tdiv_add_tmod t'.toInt 1000, hdiv, hmod.1]

/-- A temperature that is not negative, or a whole number of degrees, is printed as a numeral with
three decimals. -/
theorem tempText_eq_fixed (h : 0 ≤ t.toInt ∨ t.toInt.tmod 1000 = 0) :
    tempText t = fixed 3 (decide (t.toInt < 0)) t.toInt.natAbs := by
  have hdiv : (t.toInt.tdiv 1000).natAbs = t.toInt.natAbs / 10 ^ 3 := Int.natAbs_tdiv _ 1000
  have hmod : (t.toInt.tmod 1000).natAbs = t.toInt.natAbs % 10 ^ 3 := Int.natAbs_tmod _ 1000
  have hsum := Int.mul_tdiv_add_tmod t.toInt 1000
  rw [tempText_eq, fixed, ← hdiv, ← hmod, zeroPadded, zeroPadded, padded_zero]
  by_cases hneg : t.toInt < 0
  · have hzero : t.toInt.tmod 1000 = 0 := h.resolve_left (not_le.2 hneg)
    rw [if_pos (by omega), hzero, if_neg (by decide), if_pos (decide_eq_true hneg)]
    rfl
  · have hq : 0 ≤ t.toInt.tdiv 1000 := Int.tdiv_nonneg (not_lt.1 hneg) (by decide)
    have hr : 0 ≤ t.toInt.tmod 1000 := Int.tmod_nonneg 1000 (not_lt.1 hneg)
    rw [if_neg (not_lt.2 hq), if_neg (not_lt.2 hr), if_neg (mt of_decide_eq_true hneg)]
    rfl

/-- The other temperatures have a sign behind the point. -/
theorem not_decimal_tempText (hneg : t.toInt < 0) (hr : t.toInt.tmod 1000 ≠ 0) (q : ℚ) :
    ¬ Decimal 3 (tempText t) q := by
  rintro ⟨neg, whole, frac, htext, hne, hwhole, -, hfrac, -⟩
  have hle : 0 ≤ (-t.toInt).tmod 1000 := Int.tmod_nonneg 1000 (by omega)
  rw [Int.neg_tmod] at hle
  have hlt : t.toInt.tmod 1000 < 0 := by omega
  have hread := readInt_tempText t
  rw [htext, readInt_signed neg hne hwhole (stops_cons rfl _), Option.some.injEq, Prod.mk.injEq,
    List.cons.injEq, zeroPadded, if_pos hlt] at hread
  have hminus := hfrac '-' (by rw [hread.2.2]; exact List.mem_cons_self)
  exact absurd hminus (by decide)

/-- The text of a temperature is exact: a numeral with three decimals for it, of no other
temperature, and read back. -/
structure Exact (t : Int32) : Prop where
  numeral : Decimal 3 (tempText t) (t.toInt / 1000)
  differs : ∀ t', tempText t' = tempText t → t' = t
  recovered : ∃ q, readReal (tempText t) = some (q, []) ∧ q * 1000 = t.toInt

/-- **Which temperatures are printed exactly**: those that are not negative, and whole degrees. -/
theorem tempText_exact_iff (t : Int32) : Exact t ↔ 0 ≤ t ∨ t % 1000 = 0 := by
  have hnonneg : 0 ≤ t ↔ 0 ≤ t.toInt := Int32.le_iff_toInt_le
  have hwhole : t % 1000 = 0 ↔ t.toInt.tmod 1000 = 0 := by
    rw [← Int32.toInt_inj, Int32.toInt_mod]
    rfl
  rw [hnonneg, hwhole]
  constructor
  · intro hexact
    by_contra! hneg
    exact not_decimal_tempText hneg.1 hneg.2 _ hexact.numeral
  · intro h
    have hvalue : signed (decide (t.toInt < 0)) (t.toInt.natAbs / 10 ^ 3) = t.toInt / 1000 := by
      rw [signed_natAbs_div]
      norm_num
    refine ⟨?_, fun t' heq => tempText_injective heq, ⟨t.toInt / 1000, ?_, ?_⟩⟩
    · rw [tempText_eq_fixed h, ← hvalue]
      exact decimal_fixed (by decide) _ _
    · have hread := readReal_fixed (k := 3) (by decide) (decide (t.toInt < 0)) t.toInt.natAbs
        (stops_nil _)
      rw [List.append_nil, hvalue] at hread
      rw [tempText_eq_fixed h, hread]
    · rw [div_mul_cancel₀]
      norm_num

/-- Half a degree below zero is printed with a sign behind the point. -/
theorem not_exact_half : tempText (-500) = "0.-500".toList ∧ ¬ Exact (-500) := by
  refine ⟨by decide, fun hexact => ?_⟩
  exact not_decimal_tempText (by decide) (by decide) _ hexact.numeral

end Thermal

end CAcheRein
