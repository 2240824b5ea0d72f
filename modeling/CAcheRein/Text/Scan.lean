import CAcheRein.Text.Numeral

/-!
# Formatted input

`scanf` as an interpreter of its format: a white-space character of the format skips any run of
white space, a conversion skips white space and reads the longest numeral, and any other
character has to be there.  The first directive that fails ends the call; what was read before
stays read.  Numbers are delivered as rationals; storing them is up to the caller.

## Main definitions

* `format` : the directives of a format string.
* `scan` : what a call reads, and what it leaves.
* `fgetsLines` : what successive calls of `fgets` deliver.

## Main results

* `scan_int_digits`, `scan_real_print` : a conversion reads back what was printed.
* `length_scan_lt` : a call that reads something moves on.
-/

namespace CAcheRein

namespace Text

/-- A file as `fopen` finds it: its text, or `none` when it cannot be opened. -/
abbrev File := Option (List Char)

/-- White space, as `isspace` has it. -/
def isSpace (c : Char) : Bool := c = ' ' || (9 ≤ c.toNat && c.toNat ≤ 13)

/-- What a conversion reads: an integer or a floating-point numeral. -/
inductive Conversion where
  | int
  | real
  deriving DecidableEq

/-- The reader of a conversion. -/
def Conversion.read : Conversion → List Char → Option (ℚ × List Char)
  | .int => readInt
  | .real => readReal

/-- A directive of a format. -/
inductive Directive where
  | lit (c : Char)
  | blank
  | conv (k : Conversion)
  deriving DecidableEq

/-- The directives of a format string, for the conversions the sources use. -/
def format : List Char → List Directive
  | [] => []
  | '%' :: 'u' :: s => .conv .int :: format s
  | '%' :: 'h' :: 'h' :: 'u' :: s => .conv .int :: format s
  | '%' :: 'l' :: 'd' :: s => .conv .int :: format s
  | '%' :: 'f' :: s => .conv .real :: format s
  | '%' :: 'l' :: 'f' :: s => .conv .real :: format s
  | c :: s => (if isSpace c then .blank else .lit c) :: format s

/-- The numbers a call reads, and the input it leaves. -/
def scan : List Directive → List Char → List ℚ × List Char
  | [], s => ([], s)
  | .lit _ :: _, [] => ([], [])
  | .lit c :: ds, c' :: s => if c = c' then scan ds s else ([], c' :: s)
  | .blank :: ds, s => scan ds (s.dropWhile isSpace)
  | .conv k :: ds, s =>
    match k.read (s.dropWhile isSpace) with
    | some (q, s') => (q :: (scan ds s').1, (scan ds s').2)
    | none => ([], s.dropWhile isSpace)

/-- What successive calls of `fgets` with a buffer of `size` bytes deliver of a text, if the
characters `line` (in reverse) are already in the buffer. -/
def fgetsLines (size : ℕ) : List Char → List Char → List (List Char)
  | [], [] => []
  | line, [] => [line.reverse]
  | line, c :: s =>
    if c = '\n' || line.length + 2 = size then (c :: line).reverse :: fgetsLines size [] s
    else fgetsLines size (c :: line) s

@[simp] theorem scan_nil (s : List Char) : scan [] s = ([], s) := by
  cases s <;> rfl

@[simp] theorem scan_lit (c : Char) (ds : List Directive) (s : List Char) :
    scan (.lit c :: ds) (c :: s) = scan ds s := if_pos rfl

@[simp] theorem scan_blank (ds : List Directive) (s : List Char) :
    scan (.blank :: ds) s = scan ds (s.dropWhile isSpace) := by
  cases s <;> rfl

/-- A white-space directive skips a white-space character. -/
theorem scan_blank_cons {c : Char} (hc : isSpace c = true) {rest : List Char}
    (h : Stops isSpace rest) (ds : List Directive) :
    scan (.blank :: ds) (c :: rest) = scan ds rest := by
  rw [scan_blank, List.dropWhile_cons_of_pos hc, h.dropWhile_eq_self]

theorem scan_conv {k : Conversion} {ds : List Directive} {s s' : List Char} {q : ℚ}
    (h : k.read (s.dropWhile isSpace) = some (q, s')) :
    scan (.conv k :: ds) s = (q :: (scan ds s').1, (scan ds s').2) := by
  cases s <;> simp only [scan, h]

theorem scan_conv_none {k : Conversion} {ds : List Directive} {s : List Char}
    (h : k.read (s.dropWhile isSpace) = none) :
    scan (.conv k :: ds) s = ([], s.dropWhile isSpace) := by
  cases s <;> simp only [scan, h]

/-- A digit is not white space. -/
theorem not_space_of_isDigit (c : Char) (h : c.isDigit = true) : isSpace c = false := by
  rw [Char.isDigit_iff_toNat] at h
  have h0 : '0'.toNat = 48 := rfl
  have hne : c ≠ ' ' := by
    rintro rfl
    exact absurd h (by decide)
  rw [isSpace, decide_eq_false hne, Bool.false_or, Bool.and_eq_false_iff]
  right
  rw [decide_eq_false_iff_not]
  omega

/-- `%u` reads back a natural number. -/
theorem scan_int_digits (ds : List Directive) (n : ℕ) {rest : List Char}
    (h : Stops Char.isDigit rest) :
    scan (.conv .int :: ds) (digits n ++ rest) =
      ((n : ℚ) :: (scan ds rest).1, (scan ds rest).2) := by
  refine scan_conv ?_
  rw [(digits_stops not_space_of_isDigit n rest).dropWhile_eq_self]
  exact readInt_digits n h

/-- The text of a number with decimals starts with a sign or a digit. -/
theorem print_stops_space {k : ℕ} (R : Nearest k) (q : ℚ) (rest : List Char) :
    Stops isSpace (R.print q ++ rest) := by
  rw [Nearest.print, fixed]
  split
  · exact stops_cons (by decide) _
  · rw [List.nil_append, List.append_assoc]
    exact digits_stops not_space_of_isDigit _ _

/-- `%f` reads back a number with decimals. -/
theorem scan_real_print (ds : List Directive) {k : ℕ} (R : Nearest k) (hk : 0 < k) (q : ℚ)
    {rest : List Char} (h : Delimited rest) :
    scan (.conv .real :: ds) (R.print q ++ rest) =
      ((R.round q : ℚ) / 10 ^ k :: (scan ds rest).1, (scan ds rest).2) := by
  refine scan_conv ?_
  rw [(print_stops_space R q rest).dropWhile_eq_self]
  exact R.readReal_print hk q h

/-! ### What a call consumes -/

theorem length_dropWhile_le (p : Char → Bool) (s : List Char) :
    (s.dropWhile p).length ≤ s.length := (List.dropWhile_suffix p).length_le

/-- A conversion that reads something moves on. -/
theorem Conversion.length_lt_of_read (k : Conversion) {s : List Char} {r : ℚ × List Char}
    (h : k.read s = some r) : r.2.length < s.length := by
  cases k with
  | int => exact length_lt_of_readInt h
  | real => exact length_lt_of_readReal h

/-- A call moves on, or leaves its input and reads nothing. -/
theorem length_scan (ds : List Directive) (s : List Char) :
    (scan ds s).2.length + min 1 (scan ds s).1.length ≤ s.length := by
  induction ds generalizing s with
  | nil => simp
  | cons d ds ih =>
    cases d with
    | lit c =>
      cases s with
      | nil => exact le_rfl
      | cons c' s =>
        by_cases hc : c = c'
        · subst hc
          rw [scan_lit, List.length_cons]
          exact (ih s).trans (Nat.le_succ _)
        · rw [scan, if_neg hc]
          exact le_rfl
    | blank =>
      rw [scan_blank]
      exact (ih _).trans (length_dropWhile_le _ s)
    | conv k =>
      have hskip := length_dropWhile_le isSpace s
      cases hread : k.read (s.dropWhile isSpace) with
      | none =>
        rw [scan_conv_none hread]
        exact hskip
      | some r =>
        have hlt := k.length_lt_of_read hread
        have hrest := ih r.2
        rw [scan_conv hread, List.length_cons]
        dsimp only
        omega

/-- **A call that reads something moves on.** -/
theorem length_scan_lt {ds : List Directive} {s : List Char} (h : (scan ds s).1 ≠ []) :
    (scan ds s).2.length < s.length := by
  have hle := length_scan ds s
  have hpos := List.length_pos_iff.2 h
  omega

end Text

end CAcheRein
