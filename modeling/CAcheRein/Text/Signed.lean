import CAcheRein.Text.Numeral

/-!
# Signed integers with a width

What `%0kd` prints, where the sign counts as one of the `k` characters, and decimal numerals with
a fixed number of decimals.

## Main results

* `readInt_zeroPadded` : an integer is read back, whatever the width.
* `decimal_fixed` : what `%.kf` prints is a numeral with `k` decimals.
-/

namespace CAcheRein

namespace Text

/-- What `%0kd` prints; `%d` is the case `k = 0`. -/
def zeroPadded (k : ℕ) (z : ℤ) : List Char :=
  if z < 0 then '-' :: padded (k - 1) z.natAbs else padded k z.natAbs

/-- A well-formed numeral with `k` decimals, and its value. -/
def Decimal (k : ℕ) (text : List Char) (q : ℚ) : Prop :=
  ∃ neg whole frac, text = (if neg then ['-'] else []) ++ whole ++ '.' :: frac ∧
    whole ≠ [] ∧ (∀ c ∈ whole, c.isDigit = true) ∧
    frac.length = k ∧ (∀ c ∈ frac, c.isDigit = true) ∧
    q = signed neg (Nat.ofDigitChars 10 (whole ++ frac) 0 / 10 ^ k)

theorem padded_ne_nil (k n : ℕ) : padded k n ≠ [] :=
  List.append_ne_nil_of_right_ne_nil _ (digits_ne_nil n)

theorem padded_zero (n : ℕ) : padded 0 n = digits n := by
  rw [padded, Nat.zero_sub, List.replicate_zero, List.nil_append]

/-- **An integer is read back**, whatever the width it was printed with. -/
theorem readInt_zeroPadded (k : ℕ) (z : ℤ) {rest : List Char} (h : Stops Char.isDigit rest) :
    readInt (zeroPadded k z ++ rest) = some ((z : ℚ), rest) := by
  have hds : ∀ k, ∀ c ∈ padded k z.natAbs, c.isDigit = true := fun k c hc =>
    isDigit_of_mem_padded hc
  by_cases hz : z < 0
  · have hread := readInt_signed true (padded_ne_nil (k - 1) z.natAbs) (hds (k - 1)) h
    rw [ofDigitChars_padded, Nat.cast_natAbs, abs_of_neg hz, Int.cast_neg] at hread
    rw [zeroPadded, if_pos hz]
    simpa [signed] using hread
  · have hread := readInt_signed false (padded_ne_nil k z.natAbs) (hds k) h
    rw [ofDigitChars_padded, Nat.cast_natAbs, abs_of_nonneg (not_lt.1 hz)] at hread
    rw [zeroPadded, if_neg hz]
    simpa [signed] using hread

/-- It starts with a minus or a digit: a test that fails on these stops in front of it. -/
theorem zeroPadded_stops {p : Char → Bool} (hp : ∀ c : Char, c.isDigit = true → p c = false)
    (hminus : p '-' = false) (k : ℕ) (z : ℤ) (rest : List Char) :
    Stops p (zeroPadded k z ++ rest) := by
  by_cases hz : z < 0
  · rw [zeroPadded, if_pos hz]
    exact stops_cons hminus _
  · rw [zeroPadded, if_neg hz]
    exact stops_of_ne_nil (padded_ne_nil k _) (fun c hc => hp c (isDigit_of_mem_padded hc)) rest

/-- The magnitude of an integer, with its sign. -/
theorem signed_natAbs_div (z : ℤ) (q : ℚ) :
    signed (decide (z < 0)) ((z.natAbs : ℚ) / q) = z / q := by
  rw [Nat.cast_natAbs]
  by_cases hz : z < 0
  · rw [signed, if_pos (decide_eq_true hz), abs_of_neg hz, Int.cast_neg, neg_div, neg_neg]
  · rw [signed, if_neg (mt of_decide_eq_true hz), abs_of_nonneg (not_lt.1 hz)]

/-- A numeral with `k` decimals is well formed. -/
theorem decimal_fixed {k : ℕ} (hk : 0 < k) (neg : Bool) (n : ℕ) :
    Decimal k (fixed k neg n) (signed neg (n / 10 ^ k)) := by
  have hmod : n % 10 ^ k < 10 ^ k := Nat.mod_lt _ (Nat.pow_pos (by decide))
  refine ⟨neg, digits (n / 10 ^ k), padded k (n % 10 ^ k), rfl, digits_ne_nil _,
    fun c hc => isDigit_of_mem_digits hc, length_padded hk hmod,
    fun c hc => isDigit_of_mem_padded hc, ?_⟩
  rw [ofDigitChars_fixed hk]

end Text

end CAcheRein
