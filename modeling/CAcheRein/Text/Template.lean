import CAcheRein.Text.Lines
import CAcheRein.Text.Signed

/-!
# Texts with numbers in them

A template is some literal text with numbers in between, the way `printf` is given one.  What it
prints is read back by the same template as a format of `scanf`, as long as no literal that
follows a number could be taken for more of it.

## Main definitions

* `Printed` : a number as it is printed, and how it is read.
* `render`, `directives` : a template as a text and as a format.

## Main results

* `scan_render` : the numbers of a template are read back.
-/

namespace CAcheRein

namespace Text

/-- A number as it is printed, and what is read of it. -/
structure Printed where
  conv : Conversion
  text : List Char
  value : ℚ
  reads : ∀ rest, Delimited rest →
    conv.read ((text ++ rest).dropWhile isSpace) = some (value, rest)

/-- An integer printed with `%0kd` or, if `k` is 0, `%d`. -/
def Printed.int (k : ℕ) (z : ℤ) : Printed where
  conv := .int
  text := zeroPadded k z
  value := z
  reads rest h := by
    rw [(zeroPadded_stops not_space_of_isDigit (by decide) k z rest).dropWhile_eq_self]
    exact readInt_zeroPadded k z h.digits

/-- A number printed with `%.kf`. -/
def Printed.real {k : ℕ} (R : Nearest k) (hk : 0 < k) (q : ℚ) : Printed where
  conv := .real
  text := R.print q
  value := R.round q / 10 ^ k
  reads rest h := by
    rw [(print_stops_space R q rest).dropWhile_eq_self]
    exact R.readReal_print hk q h

variable {k : ℕ} (R : Nearest k) (hk : 0 < k) (q : ℚ) (z : ℤ)

@[simp] theorem Printed.conv_int : (Printed.int k z).conv = .int := rfl

@[simp] theorem Printed.value_int : (Printed.int k z).value = z := rfl

@[simp] theorem Printed.conv_real : (Printed.real R hk q).conv = .real := rfl

@[simp] theorem Printed.value_real : (Printed.real R hk q).value = R.round q / 10 ^ k := rfl

/-- A template: each number with the literal in front of it, and the literal behind the last. -/
def render (last : List Char) : List (List Char × Printed) → List Char
  | [] => last
  | (lit, p) :: ps => lit ++ (p.text ++ render last ps)

/-- The template as a format. -/
def directives (last : List Char) : List (List Char × Printed) → List Directive
  | [] => last.map .lit
  | (lit, p) :: ps => lit.map .lit ++ .conv p.conv :: directives last ps

/-- The literal cannot be taken for more of a number in front of it. -/
def separates (lit : List Char) : Bool :=
  match lit with
  | [] => false
  | c :: _ => !continuesReal c

theorem delimited_of_separates {lit : List Char} (h : separates lit = true) (rest : List Char) :
    Delimited (lit ++ rest) := by
  cases lit with
  | nil => cases h
  | cons c lit =>
    rw [separates, Bool.not_eq_true'] at h
    exact stops_cons h _

/-- Behind a number of a template comes a literal that ends it. -/
theorem delimited_render {last : List Char} {ps : List (List Char × Printed)}
    (h : (ps.map Prod.fst ++ [last]).all separates = true) : Delimited (render last ps) := by
  cases ps with
  | nil =>
    rw [List.map_nil, List.nil_append, List.all_cons, Bool.and_eq_true] at h
    have hlast := delimited_of_separates h.1 []
    rwa [List.append_nil] at hlast
  | cons p ps =>
    rw [List.map_cons, List.cons_append, List.all_cons, Bool.and_eq_true] at h
    exact delimited_of_separates h.1 _

/-- **The numbers of a template are read back**, and its text is used up. -/
theorem scan_render {last : List Char} {ps : List (List Char × Printed)}
    (h : (ps.tail.map Prod.fst ++ [last]).all separates = true) :
    scan (directives last ps) (render last ps) = (ps.map fun p => p.2.value, []) := by
  induction ps with
  | nil =>
    have hlits := scan_lits last [] []
    rw [List.append_nil, List.append_nil] at hlits
    rw [directives, render, hlits, scan_nil]
    rfl
  | cons p ps ih =>
    obtain ⟨lit, p⟩ := p
    rw [List.tail_cons] at h
    have hrest : (ps.tail.map Prod.fst ++ [last]).all separates = true := by
      cases ps with
      | nil => exact h
      | cons q ps =>
        rw [List.map_cons, List.cons_append, List.all_cons, Bool.and_eq_true] at h
        exact h.2
    rw [directives, render, scan_lits, scan_conv (p.reads _ (delimited_render h)), ih hrest,
      List.map_cons]

/-- **A template determines its numbers.** -/
theorem values_of_render_eq {last : List Char} {ps qs : List (List Char × Printed)}
    (hp : (ps.tail.map Prod.fst ++ [last]).all separates = true)
    (hq : (qs.tail.map Prod.fst ++ [last]).all separates = true)
    (hform : directives last ps = directives last qs) (heq : render last ps = render last qs) :
    (ps.map fun p => p.2.value) = qs.map fun p => p.2.value := by
  have hscan := scan_render hp
  rw [hform, heq, scan_render hq] at hscan
  exact (Prod.mk.inj hscan).1.symm

/-! ### Columns and hexadecimal digits -/

/-- A text printed with `%-ks`. -/
def column (k : ℕ) (text : List Char) : List Char :=
  text ++ List.replicate (k - text.length) ' '

/-- A hexadecimal digit. -/
def hexDigit (n : ℕ) : Char := "0123456789ABCDEF".toList.getD n '0'

/-- A byte printed with `%02X`. -/
def hexByte (x : UInt8) : List Char := [hexDigit (x.toNat / 16), hexDigit (x.toNat % 16)]

theorem hexDigit_inj : ∀ m < 16, ∀ n < 16, hexDigit m = hexDigit n → m = n := by
  decide

/-- Two digits determine a byte. -/
theorem hexByte_injective : Function.Injective hexByte := by
  intro x y heq
  have hx := x.toNat_lt
  have hy := y.toNat_lt
  rw [hexByte, hexByte, List.cons.injEq, List.cons.injEq] at heq
  have hhigh := hexDigit_inj _ (by omega) _ (by omega) heq.1
  have hlow := hexDigit_inj _ (by omega) _ (by omega) heq.2.1
  apply UInt8.toNat_inj.1
  omega

end Text

end CAcheRein
