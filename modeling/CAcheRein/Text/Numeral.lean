import Mathlib.Algebra.Order.Field.Rat
import Mathlib.Algebra.Order.Group.Unbundled.Int
import Mathlib.Algebra.Order.Round
import Mathlib.Data.List.TakeWhile
import Mathlib.Data.Rat.Floor
import Mathlib.Tactic.Linarith
import Mathlib.Tactic.Positivity
import Mathlib.Tactic.Push
import Mathlib.Tactic.SplitIfs

/-!
# Decimal numerals

The numerals the C library prints and reads, as lists of characters.  A reader takes the longest
numeral at the front of its input and hands back the rest.

## Main definitions

* `digits`, `fixed`, `Nearest.print` : what `%u` and `%.kf` print.
* `readInt`, `readReal` : what `%u`, `%d` and `%f` read.

## Main results

* `readInt_digits` : a natural number is read back.
* `Nearest.readReal_print` : a number printed with `k` decimals is read back as rounded.
-/

namespace CAcheRein

namespace Text

/-- The text `rest` does not go on with a character in `p`. -/
def Stops (p : Char → Bool) (rest : List Char) : Prop := ∀ c ∈ rest.head?, p c = false

theorem stops_nil (p : Char → Bool) : Stops p [] := fun _ hc => (nomatch hc)

theorem stops_cons {p : Char → Bool} {c : Char} (h : p c = false) (rest : List Char) :
    Stops p (c :: rest) := by
  intro c' hc'
  rwa [← Option.some.inj hc']

theorem stops_of_ne_nil {p : Char → Bool} {s : List Char} (hne : s ≠ [])
    (h : ∀ c ∈ s, p c = false) (rest : List Char) : Stops p (s ++ rest) := by
  cases s with
  | nil => exact absurd rfl hne
  | cons c s => exact stops_cons (h c List.mem_cons_self) _

theorem Stops.mono {p q : Char → Bool} {rest : List Char} (h : Stops q rest)
    (hpq : ∀ c, p c = true → q c = true) : Stops p rest := by
  intro c hc
  by_contra hpc
  have hq := h c hc
  rw [hpq c (Bool.eq_true_of_not_eq_false hpc)] at hq
  cases hq

theorem Stops.takeWhile_eq_nil {p : Char → Bool} {rest : List Char} (h : Stops p rest) :
    rest.takeWhile p = [] := by
  cases rest with
  | nil => rfl
  | cons c rest => rw [List.takeWhile_cons, h c rfl]; rfl

theorem Stops.dropWhile_eq_self {p : Char → Bool} {rest : List Char} (h : Stops p rest) :
    rest.dropWhile p = rest := by
  cases rest with
  | nil => rfl
  | cons c rest => rw [List.dropWhile_cons, h c rfl]; rfl

theorem takeWhile_append_of_stops {p : Char → Bool} {s rest : List Char} (h : ∀ c ∈ s, p c)
    (hrest : Stops p rest) : (s ++ rest).takeWhile p = s := by
  rw [List.takeWhile_append_of_pos h, hrest.takeWhile_eq_nil, List.append_nil]

theorem dropWhile_append_of_stops {p : Char → Bool} {s rest : List Char} (h : ∀ c ∈ s, p c)
    (hrest : Stops p rest) : (s ++ rest).dropWhile p = rest := by
  rw [List.dropWhile_append_of_pos h, hrest.dropWhile_eq_self]

/-! ### Printing -/

/-- The decimal digits of a natural number, as `%u` prints them. -/
def digits (n : ℕ) : List Char := Nat.toDigits 10 n

/-- The last `k` decimal digits, with leading zeros. -/
def padded (k n : ℕ) : List Char :=
  List.replicate (k - (digits n).length) '0' ++ digits n

/-- `n` units of `10 ^ -k`, with a sign, a point and `k > 0` decimals. -/
def fixed (k : ℕ) (neg : Bool) (n : ℕ) : List Char :=
  (if neg then ['-'] else []) ++ digits (n / 10 ^ k) ++ '.' :: padded k (n % 10 ^ k)

/-- A rounding of the rationals to `k` decimals, in units of `10 ^ -k`: a nearest one, with ties
resolved either way. -/
structure Nearest (k : ℕ) where
  round : ℚ → ℤ
  near : ∀ q, |q * 10 ^ k - round q| ≤ 1 / 2

/-- The rounding with ties towards positive infinity. -/
def Nearest.halfUp (k : ℕ) : Nearest k where
  round q := ⌊q * 10 ^ k + 1 / 2⌋
  near q := by
    rw [← round_eq]
    exact abs_sub_round (q * 10 ^ k)

/-- What `%.kf` prints under a rounding. -/
def Nearest.print {k : ℕ} (R : Nearest k) (q : ℚ) : List Char :=
  fixed k (decide (q < 0)) (R.round q).natAbs

/-! ### Reading -/

/-- An optional sign: whether it is a minus, and the rest. -/
def readSign : List Char → Bool × List Char
  | '-' :: s => (true, s)
  | '+' :: s => (false, s)
  | s => (false, s)

/-- A sign applied to a magnitude. -/
def signed (neg : Bool) (q : ℚ) : ℚ := if neg then -q else q

/-- The longest integer numeral at the front. -/
def readInt (s : List Char) : Option (ℚ × List Char) :=
  let (neg, s) := readSign s
  let ds := s.takeWhile Char.isDigit
  if ds = [] then none
  else some (signed neg (Nat.ofDigitChars 10 ds 0), s.dropWhile Char.isDigit)

/-- A hexadecimal digit. -/
def isHexDigit (c : Char) : Bool :=
  c.isDigit || ('a'.toNat ≤ c.toLower.toNat && c.toLower.toNat ≤ 'f'.toNat)

/-- The value of a hexadecimal digit. -/
def hexValue (c : Char) : ℕ :=
  if c.isDigit then c.toNat - '0'.toNat else c.toLower.toNat - 'a'.toNat + 10

/-- The digits behind a point, if there is one. -/
def readFraction (digit : Char → Bool) : List Char → List Char × List Char
  | '.' :: s => (s.takeWhile digit, s.dropWhile digit)
  | s => ([], s)

/-- The exponent behind its letter, if there is one.  A letter without digits behind it is used up,
with a sign it may have. -/
def readExponent (letter : Char) : List Char → ℤ × List Char
  | [] => (0, [])
  | c :: s =>
    if c = letter || c = letter.toUpper then
      match readInt s with
      | some (z, s') => (z.num, s')
      | none => (0, (readSign s).2)
    else (0, c :: s)

/-- A decimal numeral without a sign. -/
def readDecimal (s : List Char) : Option (ℚ × List Char) :=
  let whole := s.takeWhile Char.isDigit
  let (frac, s) := readFraction Char.isDigit (s.dropWhile Char.isDigit)
  if whole ++ frac = [] then none
  else
    let (e, s) := readExponent 'e' s
    some (Nat.ofDigitChars 10 (whole ++ frac) 0 / 10 ^ frac.length * 10 ^ e, s)

/-- What stands behind `0x`, if the text starts with it. -/
def hexBody : List Char → Option (List Char)
  | '0' :: c :: s => if c = 'x' || c = 'X' then some s else none
  | _ => none

/-- A hexadecimal numeral behind its `0x`; a point alone counts as zero. -/
def readHex (s : List Char) : Option (ℚ × List Char) :=
  let whole := s.takeWhile isHexDigit
  let (frac, s') := readFraction isHexDigit (s.dropWhile isHexDigit)
  if whole ++ frac = [] then if s' = s then none else some (0, s')
  else
    let (e, s') := readExponent 'p' s'
    some ((whole ++ frac).foldl (fun n c => 16 * n + hexValue c) 0 / 16 ^ frac.length * 2 ^ e, s')

/-- The longest floating-point numeral at the front, as the GNU C library takes it.  The names of
what is not a finite number are no numerals here, see `Finite`. -/
def readReal (s : List Char) : Option (ℚ × List Char) :=
  let (neg, s) := readSign s
  (((hexBody s).map readHex).getD (readDecimal s)).map fun r => (signed neg r.1, r.2)

/-- A text without the names of infinities and of what is not a number, in whatever case. -/
def Finite (s : List Char) : Prop :=
  ∀ name ∈ ["inf", "nan"], ¬ name.toList <:+: s.map Char.toLower

/-- A numeral read into a `long`: a number out of range becomes the closest one. -/
def clampLong (z : ℤ) : ℤ := max (-2 ^ 63) (min (2 ^ 63 - 1) z)

/-- A numeral read into an unsigned type, by way of an `unsigned long`: a number out of the range
of that becomes the largest one. -/
def clampULong (z : ℤ) : ℤ := if z.natAbs < 2 ^ 64 then z else 2 ^ 64 - 1

/-! ### Numbers in range -/

theorem clampLong_eq {z : ℤ} (hlo : -2 ^ 63 ≤ z) (hhi : z < 2 ^ 63) : clampLong z = z := by
  rw [clampLong]
  omega

theorem clampLong_natCast {n : ℕ} (h : n < 2 ^ 63) : clampLong n = n :=
  clampLong_eq (by omega) (by exact_mod_cast h)

theorem clampULong_natCast {n : ℕ} (h : n < 2 ^ 64) : clampULong n = n := if_pos h

/-! ### What a reader consumes -/

theorem length_readSign_le (s : List Char) : (readSign s).2.length ≤ s.length := by
  unfold readSign
  split <;> simp

theorem length_takeWhile_add (p : Char → Bool) (s : List Char) :
    (s.takeWhile p).length + (s.dropWhile p).length = s.length := by
  rw [← List.length_append, List.takeWhile_append_dropWhile]

theorem length_readFraction_le (digit : Char → Bool) (s : List Char) :
    (readFraction digit s).1.length + (readFraction digit s).2.length ≤ s.length := by
  unfold readFraction
  split
  · rw [length_takeWhile_add, List.length_cons]
    omega
  · simp

/-- An integer numeral is not empty. -/
theorem length_lt_of_readInt {s : List Char} {r : ℚ × List Char} (h : readInt s = some r) :
    r.2.length < s.length := by
  have hsign := length_readSign_le s
  have hsum := length_takeWhile_add Char.isDigit (readSign s).2
  simp only [readInt] at h
  split at h
  · cases h
  · rename_i hne
    have hpos := List.length_pos_iff.2 hne
    cases h
    dsimp only
    omega

theorem length_readExponent_le (letter : Char) (s : List Char) :
    (readExponent letter s).2.length ≤ s.length := by
  cases s with
  | nil => exact le_rfl
  | cons c s =>
    rw [readExponent]
    split_ifs
    · split
      · next hread => exact (length_lt_of_readInt hread).le.trans (Nat.le_succ _)
      · exact (length_readSign_le s).trans (Nat.le_succ _)
    · exact le_rfl

/-- The digits of a numeral are not counted among what is left. -/
theorem length_lt_of_digits {digit : Char → Bool} {s : List Char}
    (h : s.takeWhile digit ++ (readFraction digit (s.dropWhile digit)).1 ≠ []) (letter : Char) :
    (readExponent letter (readFraction digit (s.dropWhile digit)).2).2.length < s.length := by
  have hsum := length_takeWhile_add digit s
  have hfrac := length_readFraction_le digit (s.dropWhile digit)
  have hexp := length_readExponent_le letter (readFraction digit (s.dropWhile digit)).2
  have hpos := List.length_pos_iff.2 h
  rw [List.length_append] at hpos
  omega

theorem length_lt_of_readDecimal {s : List Char} {r : ℚ × List Char}
    (h : readDecimal s = some r) : r.2.length < s.length := by
  simp only [readDecimal] at h
  split at h
  · cases h
  · rename_i hne
    cases h
    exact length_lt_of_digits hne 'e'

theorem length_le_of_readHex {s : List Char} {r : ℚ × List Char} (h : readHex s = some r) :
    r.2.length ≤ s.length := by
  have hsum := length_takeWhile_add isHexDigit s
  have hfrac := length_readFraction_le isHexDigit (s.dropWhile isHexDigit)
  simp only [readHex] at h
  split at h
  · split at h
    · cases h
    · cases h
      dsimp only
      omega
  · rename_i hne
    cases h
    exact (length_lt_of_digits hne 'p').le

theorem length_lt_of_hexBody {s t : List Char} (h : hexBody s = some t) :
    t.length < s.length := by
  unfold hexBody at h
  split at h
  · split at h
    · cases h
      rw [List.length_cons, List.length_cons]
      omega
    · cases h
  · cases h

/-- A floating-point numeral is not empty. -/
theorem length_lt_of_readReal {s : List Char} {r : ℚ × List Char} (h : readReal s = some r) :
    r.2.length < s.length := by
  have hsign := length_readSign_le s
  simp only [readReal] at h
  obtain ⟨r', hr', rfl⟩ := Option.map_eq_some_iff.1 h
  cases hhex : hexBody (readSign s).2 with
  | none =>
    rw [hhex] at hr'
    exact (length_lt_of_readDecimal hr').trans_le hsign
  | some t =>
    rw [hhex] at hr'
    exact ((length_le_of_readHex hr').trans_lt (length_lt_of_hexBody hhex)).trans_le hsign

/-! ### Round trips -/

theorem isDigit_of_mem_digits {n : ℕ} {c : Char} (h : c ∈ digits n) : c.isDigit = true :=
  Nat.isDigit_of_mem_toDigits (by decide) (by decide) h

theorem digits_ne_nil (n : ℕ) : digits n ≠ [] := Nat.toDigits_ne_nil

/-- Nothing but a digit is a digit: the test `p` fails on every digit. -/
theorem digits_stops {p : Char → Bool} (hp : ∀ c : Char, c.isDigit = true → p c = false) (n : ℕ)
    (rest : List Char) : Stops p (digits n ++ rest) :=
  stops_of_ne_nil (digits_ne_nil n) (fun c hc => hp c (isDigit_of_mem_digits hc)) rest

theorem readSign_of_stops {s : List Char} (h : Stops (fun c => c = '-' || c = '+') s) :
    readSign s = (false, s) := by
  cases s with
  | nil => rfl
  | cons c s =>
    have hc := h c rfl
    simp only [Bool.or_eq_false_iff, decide_eq_false_iff_not] at hc
    rw [readSign]
    · intro s' h'
      exact hc.1 (List.cons.inj h').1
    · intro s' h'
      exact hc.2 (List.cons.inj h').1

/-- A digit is not a sign. -/
theorem not_sign_of_isDigit (c : Char) (h : c.isDigit = true) : (c = '-' || c = '+') = false := by
  rw [Bool.or_eq_false_iff, decide_eq_false_iff_not, decide_eq_false_iff_not]
  constructor <;> rintro rfl <;> exact absurd h (by decide)

/-- A sign and some digits are read as one integer. -/
theorem readInt_signed (neg : Bool) {ds rest : List Char} (hne : ds ≠ [])
    (hds : ∀ c ∈ ds, c.isDigit = true) (h : Stops Char.isDigit rest) :
    readInt ((if neg then ['-'] else []) ++ ds ++ rest) =
      some (signed neg (Nat.ofDigitChars 10 ds 0), rest) := by
  have hsign : readSign ((if neg then ['-'] else []) ++ ds ++ rest) = (neg, ds ++ rest) := by
    cases neg with
    | true => rfl
    | false =>
      exact readSign_of_stops
        (stops_of_ne_nil hne (fun c hc => not_sign_of_isDigit c (hds c hc)) rest)
  rw [readInt, hsign]
  simp only [takeWhile_append_of_stops hds h, dropWhile_append_of_stops hds h]
  rw [if_neg hne]

/-- **A natural number is read back.** -/
theorem readInt_digits (n : ℕ) {rest : List Char} (h : Stops Char.isDigit rest) :
    readInt (digits n ++ rest) = some ((n : ℚ), rest) := by
  have hds : ∀ c ∈ digits n, c.isDigit = true := fun c hc => isDigit_of_mem_digits hc
  have hread := readInt_signed false (digits_ne_nil n) hds h
  rw [digits, Nat.ofDigitChars_ten_toDigits] at hread
  exact hread

theorem length_padded {k n : ℕ} (hk : 0 < k) (h : n < 10 ^ k) : (padded k n).length = k := by
  have hle : (digits n).length ≤ k := (Nat.length_toDigits_le_iff (by decide) hk).2 h
  rw [padded, List.length_append, List.length_replicate, Nat.sub_add_cancel hle]

theorem isDigit_of_mem_padded {k n : ℕ} {c : Char} (h : c ∈ padded k n) : c.isDigit = true := by
  rcases List.mem_append.1 h with h | h
  · rw [List.eq_of_mem_replicate h]
    rfl
  · exact isDigit_of_mem_digits h

/-- The zeros in front do not count. -/
theorem ofDigitChars_padded (k n : ℕ) : Nat.ofDigitChars 10 (padded k n) 0 = n := by
  rw [padded, Nat.ofDigitChars_append, Nat.ofDigitChars_replicate_zero, Nat.mul_zero, digits,
    Nat.ofDigitChars_ten_toDigits]

/-- The digits before and behind the point, read as one number. -/
theorem ofDigitChars_fixed {k : ℕ} (hk : 0 < k) (n : ℕ) :
    Nat.ofDigitChars 10 (digits (n / 10 ^ k) ++ padded k (n % 10 ^ k)) 0 = n := by
  have hmod : n % 10 ^ k < 10 ^ k := Nat.mod_lt _ (Nat.pow_pos (by decide))
  rw [Nat.ofDigitChars_append, Nat.ofDigitChars_eq_ofDigitChars_zero, length_padded hk hmod,
    ofDigitChars_padded, digits, Nat.ofDigitChars_ten_toDigits, Nat.div_add_mod]

/-- A character that goes on with the decimals of a numeral: a digit, or the letter of an
exponent. -/
def continuesReal (c : Char) : Bool := c.isDigit || c = 'e' || c = 'E'

/-- A numeral in front of this text ends there. -/
def Delimited (rest : List Char) : Prop := Stops continuesReal rest

theorem Delimited.digits {rest : List Char} (h : Delimited rest) : Stops Char.isDigit rest :=
  h.mono fun c hc => by simp [continuesReal, hc]

theorem Delimited.readExponent {rest : List Char} (h : Delimited rest) :
    readExponent 'e' rest = (0, rest) := by
  cases rest with
  | nil => rfl
  | cons c rest =>
    have hc := h c rfl
    simp only [continuesReal, Bool.or_assoc, Bool.or_eq_false_iff] at hc
    have hletter : (c = 'e' || c = 'e'.toUpper) = false := Bool.or_eq_false_iff.2 hc.2
    rw [Text.readExponent, hletter]
    rfl

/-- Digits with a point behind them are no hexadecimal prefix. -/
theorem hexBody_digits {ds rest : List Char} (hds : ∀ c ∈ ds, c.isDigit = true) :
    hexBody (ds ++ '.' :: rest) = none := by
  have hsecond : ∀ c : Char, c.isDigit = true ∨ c = '.' → (c = 'x' || c = 'X') = false := by
    intro c hc
    rw [Bool.or_eq_false_iff, decide_eq_false_iff_not, decide_eq_false_iff_not]
    constructor <;> rintro rfl <;> exact absurd hc (by decide)
  unfold hexBody
  split
  · next c s heq =>
    have hc : c.isDigit = true ∨ c = '.' := by
      match ds, heq with
      | [_], heq => exact .inr (List.cons.inj (List.cons.inj heq).2).1.symm
      | _ :: c' :: _, heq =>
        have hcc' : c' = c := (List.cons.inj (List.cons.inj heq).2).1
        exact .inl (hcc' ▸ hds c' (List.mem_cons_of_mem _ List.mem_cons_self))
    rw [hsecond c hc]
    rfl
  · rfl

/-- A numeral with `k` decimals is read back. -/
theorem readReal_fixed {k : ℕ} (hk : 0 < k) (neg : Bool) (n : ℕ) {rest : List Char}
    (h : Delimited rest) :
    readReal (fixed k neg n ++ rest) = some (signed neg (n / 10 ^ k), rest) := by
  have hsign : readSign (fixed k neg n ++ rest) =
      (neg, digits (n / 10 ^ k) ++ '.' :: (padded k (n % 10 ^ k) ++ rest)) := by
    cases neg with
    | true => simp [fixed, readSign]
    | false =>
      rw [fixed, if_neg Bool.false_ne_true, List.nil_append, List.append_assoc, List.cons_append]
      exact readSign_of_stops (digits_stops not_sign_of_isDigit _ _)
  have hwhole : ∀ c ∈ digits (n / 10 ^ k), c.isDigit = true := fun c hc => isDigit_of_mem_digits hc
  have hfrac : ∀ c ∈ padded k (n % 10 ^ k), c.isDigit = true :=
    fun c hc => isDigit_of_mem_padded hc
  have hpoint : Stops Char.isDigit ('.' :: (padded k (n % 10 ^ k) ++ rest)) := stops_cons rfl _
  rw [readReal, hsign]
  simp only [hexBody_digits hwhole, Option.map_none, Option.getD_none, readDecimal,
    takeWhile_append_of_stops hwhole hpoint, dropWhile_append_of_stops hwhole hpoint,
    readFraction, takeWhile_append_of_stops hfrac h.digits,
    dropWhile_append_of_stops hfrac h.digits, h.readExponent]
  rw [if_neg (List.append_ne_nil_of_left_ne_nil (digits_ne_nil _) _), ofDigitChars_fixed hk,
    length_padded hk (Nat.mod_lt _ (Nat.pow_pos (by decide)))]
  simp

/-- A rounded number has the sign of the number. -/
theorem Nearest.signed_round {k : ℕ} (R : Nearest k) (q : ℚ) :
    signed (decide (q < 0)) ((R.round q).natAbs / 10 ^ k) = R.round q / 10 ^ k := by
  have hpow : (0 : ℚ) < 10 ^ k := by positivity
  obtain ⟨hlo, hhi⟩ := abs_le.1 (R.near q)
  by_cases hq : q < 0
  · have hneg : q * 10 ^ k < 0 := mul_neg_of_neg_of_pos hq hpow
    have hr : R.round q ≤ 0 := by
      by_contra h
      have : (1 : ℚ) ≤ R.round q := by exact_mod_cast Int.lt_iff_add_one_le.1 (not_le.1 h)
      linarith
    have habs : ((R.round q).natAbs : ℚ) = -R.round q := by
      rw [Nat.cast_natAbs, abs_of_nonpos hr, Int.cast_neg]
    rw [signed, if_pos (decide_eq_true hq), habs, neg_div, neg_neg]
  · have hpos : 0 ≤ q * 10 ^ k := mul_nonneg (not_lt.1 hq) hpow.le
    have hr : 0 ≤ R.round q := by
      by_contra h
      have : (R.round q : ℚ) ≤ -1 := by exact_mod_cast Int.le_sub_one_of_lt (not_le.1 h)
      linarith
    have habs : ((R.round q).natAbs : ℚ) = R.round q := by
      rw [Nat.cast_natAbs, abs_of_nonneg hr]
    rw [signed, if_neg (mt of_decide_eq_true hq), habs]

/-- **A number printed with `k` decimals is read back as rounded.** -/
theorem Nearest.readReal_print {k : ℕ} (R : Nearest k) (hk : 0 < k) (q : ℚ) {rest : List Char}
    (h : Delimited rest) :
    readReal (R.print q ++ rest) = some ((R.round q : ℚ) / 10 ^ k, rest) := by
  rw [Nearest.print, readReal_fixed hk _ _ h, R.signed_round]

end Text

end CAcheRein
