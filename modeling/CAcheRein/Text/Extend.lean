import CAcheRein.Text.Lines

/-!
# Reading a text that goes on

What is read of a text, when more text follows that no numeral and no white space goes on with:
the same, unless the call has come to the end of the text in the middle of its format.  Then the
rest of the format is read from what follows.

## Main results

* `Conversion.read_append` : a conversion does not see what follows.
* `scan_append` : a call of `scanf`.
* `scan_of_mismatch` : what follows can be seen not to fit.
-/

namespace CAcheRein

namespace Text

/-- A character that could go on with a numeral or with white space. -/
def continues (c : Char) : Bool :=
  isHexDigit c || c = '-' || c = '+' || c = '.' || c = 'x' || c = 'X' || c = 'p' || c = 'P' ||
    isSpace c

/-- Nothing in front of this text goes on in it. -/
def Inert (more : List Char) : Prop := Stops continues more

variable {more : List Char}

theorem Inert.hexDigits (h : Inert more) : Stops isHexDigit more :=
  h.mono fun c hc => by simp [continues, hc]

theorem Inert.digits (h : Inert more) : Stops Char.isDigit more :=
  h.hexDigits.mono fun c hc => by simp [isHexDigit, hc]

theorem Inert.space (h : Inert more) : Stops isSpace more :=
  h.mono fun c hc => by simp [continues, hc]

theorem takeWhile_append_stops {p : Char → Bool} (h : Stops p more) (s : List Char) :
    (s ++ more).takeWhile p = s.takeWhile p := by
  induction s with
  | nil => exact h.takeWhile_eq_nil
  | cons c s ih =>
    rw [List.cons_append, List.takeWhile_cons, List.takeWhile_cons]
    split
    · rw [ih]
    · rfl

theorem dropWhile_append_stops {p : Char → Bool} (h : Stops p more) (s : List Char) :
    (s ++ more).dropWhile p = s.dropWhile p ++ more := by
  induction s with
  | nil => exact h.dropWhile_eq_self
  | cons c s ih =>
    rw [List.cons_append, List.dropWhile_cons, List.dropWhile_cons]
    split
    · exact ih
    · rfl

/-! ### Numerals -/

theorem readSign_append (h : Inert more) (s : List Char) :
    readSign (s ++ more) = ((readSign s).1, (readSign s).2 ++ more) := by
  cases s with
  | nil =>
    refine readSign_of_stops (h.mono fun c hc => ?_)
    simp only [Bool.or_eq_true, decide_eq_true_eq] at hc
    rcases hc with rfl | rfl <;> rfl
  | cons c s =>
    unfold readSign
    split
    · next heq =>
      cases heq
      rfl
    · next heq =>
      cases heq
      rfl
    · next hminus hplus =>
      split
      · next heq =>
        cases heq
        exact absurd rfl (hminus _)
      · next heq =>
        cases heq
        exact absurd rfl (hplus _)
      · rfl

theorem readInt_append (h : Inert more) (s : List Char) :
    readInt (s ++ more) = (readInt s).map fun r => (r.1, r.2 ++ more) := by
  simp only [readInt, readSign_append h, takeWhile_append_stops h.digits,
    dropWhile_append_stops h.digits]
  split
  · rfl
  · rfl

theorem readFraction_append (h : Inert more) {digit : Char → Bool} (hdigit : Stops digit more)
    (s : List Char) :
    readFraction digit (s ++ more) =
      ((readFraction digit s).1, (readFraction digit s).2 ++ more) := by
  cases s with
  | nil =>
    cases more with
    | nil => rfl
    | cons c more =>
      have hc : c ≠ '.' := by
        rintro rfl
        exact absurd (h '.' rfl) (by decide)
      simp [readFraction, hc]
  | cons c s =>
    by_cases hc : c = '.'
    · subst hc
      simp only [List.cons_append, readFraction, takeWhile_append_stops hdigit,
        dropWhile_append_stops hdigit]
    · simp [readFraction, hc]

theorem readExponent_append (h : Inert more) {letter : Char}
    (hletter : Stops (fun c => c = letter || c = letter.toUpper) more) (s : List Char) :
    readExponent letter (s ++ more) =
      ((readExponent letter s).1, (readExponent letter s).2 ++ more) := by
  cases s with
  | nil =>
    cases more with
    | nil => rfl
    | cons c more =>
      exact if_neg (Bool.eq_false_iff.1 (hletter c rfl))
  | cons c s =>
    rw [List.cons_append, readExponent, readExponent, readInt_append h, readSign_append h]
    split_ifs
    · cases readInt s <;> rfl
    · rfl

theorem readDecimal_append (h : Inert more) (s : List Char) :
    readDecimal (s ++ more) = (readDecimal s).map fun r => (r.1, r.2 ++ more) := by
  have hletter : Stops (fun c => c = 'e' || c = 'e'.toUpper) more := by
    refine h.hexDigits.mono fun c hc => ?_
    rcases Bool.or_eq_true_iff.1 hc with hc | hc <;> rw [of_decide_eq_true hc] <;> rfl
  simp only [readDecimal, takeWhile_append_stops h.digits, dropWhile_append_stops h.digits,
    readFraction_append h h.digits, readExponent_append h hletter]
  split
  · rfl
  · rfl

theorem readHex_append (h : Inert more) (s : List Char) :
    readHex (s ++ more) = (readHex s).map fun r => (r.1, r.2 ++ more) := by
  have hletter : Stops (fun c => c = 'p' || c = 'p'.toUpper) more := by
    refine h.mono fun c hc => ?_
    rcases Bool.or_eq_true_iff.1 hc with hc | hc <;> rw [of_decide_eq_true hc] <;> rfl
  simp only [readHex, takeWhile_append_stops h.hexDigits, dropWhile_append_stops h.hexDigits,
    readFraction_append h h.hexDigits, readExponent_append h hletter, List.append_left_inj]
  split_ifs <;> rfl

theorem hexBody_append (h : Inert more) (s : List Char) :
    hexBody (s ++ more) = (hexBody s).map (· ++ more) := by
  match s with
  | [] =>
    cases more with
    | nil => rfl
    | cons d more =>
      -- what follows does not begin with a digit
      have hd : d ≠ '0' := by
        rintro rfl
        exact absurd (h '0' rfl) (by decide)
      cases more <;> simp [hexBody, hd]
  | [d] =>
    cases more with
    | nil => simp
    | cons c more =>
      -- a zero at the end does not become a `0x`
      have hx : c ≠ 'x' := by
        rintro rfl
        exact absurd (h 'x' rfl) (by decide)
      have hX : c ≠ 'X' := by
        rintro rfl
        exact absurd (h 'X' rfl) (by decide)
      by_cases hd : d = '0'
      · subst hd
        simp [hexBody, hx, hX]
      · simp [hexBody, hd]
  | d :: c :: s =>
    by_cases hd : d = '0'
    · subst hd
      rw [List.cons_append, List.cons_append, hexBody, hexBody]
      split_ifs <;> rfl
    · simp [hexBody, hd]

theorem readReal_append (h : Inert more) (s : List Char) :
    readReal (s ++ more) = (readReal s).map fun r => (r.1, r.2 ++ more) := by
  simp only [readReal, readSign_append h, hexBody_append h, readDecimal_append h]
  cases hexBody (readSign s).2 with
  | none =>
    simp only [Option.map_none, Option.getD_none, Option.map_map]
    rfl
  | some t =>
    simp only [Option.map_some, Option.getD_some, readHex_append h, Option.map_map]
    rfl

/-- **A conversion does not see what follows.** -/
theorem Conversion.read_append (k : Conversion) (h : Inert more) (s : List Char) :
    k.read (s ++ more) = (k.read s).map fun r => (r.1, r.2 ++ more) := by
  cases k with
  | int => exact readInt_append h s
  | real => exact readReal_append h s

/-! ### Names -/

/-- A character that is not the last one of a name. -/
def nameless (c : Char) : Bool := c.toLower != 'f' && c.toLower != 'n'

theorem nameless_of_isDigit (c : Char) (h : c.isDigit = true) : nameless c = true := by
  have hlower : c.toLower = c := by
    rw [Char.isDigit_iff_toNat] at h
    refine dif_neg fun hupper => ?_
    have hA : 'A'.toNat ≤ c.toNat := UInt32.le_iff_toNat_le.1 hupper.1
    have hdigit : '9'.toNat < 'A'.toNat := by decide
    omega
  rw [nameless, hlower, Bool.and_eq_true, bne_iff_ne, bne_iff_ne]
  constructor <;> rintro rfl <;> exact absurd h (by decide)

/-- No name ends in what is appended. -/
theorem Finite.append {s t : List Char} (h : Finite s) (ht : t.all nameless = true) :
    Finite (s ++ t) := by
  intro name hname hin
  obtain ⟨init, last, hsplit, hlast⟩ : ∃ (init : List Char) (last : Char),
      name.toList = init ++ [last] ∧ (last = 'f' ∨ last = 'n') := by
    rcases List.mem_pair.1 hname with rfl | rfl
    · exact ⟨['i', 'n'], 'f', rfl, .inl rfl⟩
    · exact ⟨['n', 'a'], 'n', rfl, .inr rfl⟩
  have hnot : last ∉ t.map Char.toLower := by
    intro hmem
    obtain ⟨c, hc, rfl⟩ := List.mem_map.1 hmem
    have hplain := List.all_eq_true.1 ht c hc
    rw [nameless, Bool.and_eq_true, bne_iff_ne, bne_iff_ne] at hplain
    exact hlast.elim hplain.1 hplain.2
  rw [List.map_append, List.infix_append_iff_ne_nil] at hin
  rcases hin with hs | hright | ⟨left, right, -, hne, heq, -, hpre⟩
  · exact h name hname hs
  · exact hnot (hright.subset (hsplit ▸ List.mem_concat_self))
  · -- the name ends in the part that is in `t`
    obtain ⟨right, x, rfl⟩ := List.eq_nil_or_concat right |>.resolve_left hne
    rw [List.concat_eq_append] at heq hpre
    rw [hsplit, ← List.append_assoc] at heq
    have hx : last = x := (List.append_singleton_inj.1 heq).2
    exact hnot (hpre.subset (hx ▸ List.mem_concat_self))

/-! ### Formats -/

/-- The number of conversions of a format. -/
def conversions : List Directive → ℕ
  | [] => 0
  | .conv _ :: ds => conversions ds + 1
  | _ :: ds => conversions ds

/-- The call has come to the end of the text, after all the conversions before the directives
`ds'`, and goes on there with what follows. -/
structure GoesOn (ds : List Directive) (s more : List Char) (c : Char) (ds' : List Directive) :
    Prop where
  suffix : .lit c :: ds' <:+ ds
  moved : s ≠ [] → .lit c :: ds' ≠ ds
  length : (scan ds s).1.length + conversions ds' = conversions ds
  items : (scan ds (s ++ more)).1 = (scan ds s).1 ++ (scan (.lit c :: ds') more).1

/-- A later part of the format is not the format. -/
theorem GoesOn.cons {d : Directive} {ds ds' : List Directive} {s s' : List Char} {c : Char}
    (hgo : GoesOn ds s' more c ds')
    (hlength : (scan (d :: ds) s).1.length + conversions ds' = conversions (d :: ds))
    (hitems :
      (scan (d :: ds) (s ++ more)).1 = (scan (d :: ds) s).1 ++ (scan (.lit c :: ds') more).1) :
    GoesOn (d :: ds) s more c ds' where
  suffix := hgo.suffix.trans (List.suffix_cons d ds)
  moved _ heq := by
    have hle := hgo.suffix.length_le
    rw [heq, List.length_cons] at hle
    omega
  length := hlength
  items := hitems

/-- **A call of `scanf` on a text that goes on.**  What follows changes nothing, or the call goes
on with it. -/
theorem scan_append (h : Inert more) (ds : List Directive) (s : List Char) :
    scan ds (s ++ more) = ((scan ds s).1, (scan ds s).2 ++ more) ∨
      ∃ c ds', GoesOn ds s more c ds' := by
  induction ds generalizing s with
  | nil => exact .inl (by rw [scan_nil, scan_nil])
  | cons d ds ih =>
    cases d with
    | lit c =>
      cases s with
      | nil =>
        -- the text ends before this character: the call goes on into `more`
        refine .inr ⟨c, ds, List.suffix_refl _, fun hne => absurd rfl hne, ?_, rfl⟩
        rw [scan, List.length_nil, Nat.zero_add]
        rfl
      | cons c' s =>
        by_cases hc : c = c'
        · subst hc
          rcases ih s with hsame | ⟨c', ds', hgo⟩
          · left
            rw [List.cons_append, scan_lit, scan_lit, hsame]
          · refine .inr ⟨c', ds', hgo.cons ?_ ?_⟩
            · rw [scan_lit]
              exact hgo.length
            · rw [List.cons_append, scan_lit, scan_lit]
              exact hgo.items
        · left
          rw [List.cons_append, scan, if_neg hc, scan, if_neg hc]
          rfl
    | blank =>
      rcases ih (s.dropWhile isSpace) with hsame | ⟨c', ds', hgo⟩
      · left
        rw [scan_blank, dropWhile_append_stops h.space, scan_blank, hsame]
      · refine .inr ⟨c', ds', hgo.cons ?_ ?_⟩
        · rw [scan_blank]
          exact hgo.length
        · rw [scan_blank, dropWhile_append_stops h.space, scan_blank]
          exact hgo.items
    | conv k =>
      -- a conversion reads the same numeral, since `more` does not extend it
      have hdrop := dropWhile_append_stops h.space s
      have happend := k.read_append h (s.dropWhile isSpace)
      rw [← hdrop] at happend
      cases hread : k.read (s.dropWhile isSpace) with
      | none =>
        left
        rw [hread] at happend
        rw [scan_conv_none happend, scan_conv_none hread, hdrop]
      | some r =>
        rw [hread] at happend
        rcases ih r.2 with hsame | ⟨c', ds', hgo⟩
        · left
          rw [scan_conv happend, scan_conv hread, hsame]
        · refine .inr ⟨c', ds', hgo.cons ?_ ?_⟩
          · have hlength := hgo.length
            rw [scan_conv hread, List.length_cons, conversions]
            omega
          · rw [scan_conv happend, scan_conv hread, List.cons_append, hgo.items]

/-- The format asks for a character that the text does not have there. -/
def mismatch : List Directive → List Char → Bool
  | .lit c :: ds, c' :: s => c != c' || mismatch ds s
  | _, _ => false

/-- Then nothing is read. -/
theorem scan_of_mismatch {ds : List Directive} {s : List Char} (h : mismatch ds s = true)
    (rest : List Char) : (scan ds (s ++ rest)).1 = [] := by
  induction ds generalizing s with
  | nil => cases h
  | cons d ds ih =>
    cases d with
    | lit c =>
      cases s with
      | nil => cases h
      | cons c' s =>
        rw [mismatch, Bool.or_eq_true, bne_iff_ne] at h
        by_cases hc : c = c'
        · subst hc
          rw [List.cons_append, scan_lit]
          exact ih (h.resolve_left fun hne => hne rfl)
        · rw [List.cons_append, scan, if_neg hc]
    | blank => cases s <;> cases h
    | conv k => cases s <;> cases h

end Text

end CAcheRein
