import CAcheRein.Text.Scan
import Mathlib.Data.List.DropRight

/-!
# Lines with labels

What a call of `sscanf` with a format of the kind `"MemTotal: %ld kB"` finds in a line, and that
reading a text with `fgets` finds the same in it as its lines do, also where a line only just
fits the buffer and its newline comes in a piece of its own.

## Main results

* `scan_label` : such a call reads the integer behind the label, if there is one.
* `flatMap_fgetsLines` : what is read off the pieces `fgets` delivers.
-/

namespace CAcheRein

namespace Text

/-- The integer behind a label at the start of a line, with any white space in between, as it is
read into a `long`. -/
def labelled (label line : List Char) : Option ℤ :=
  if label <+: line then
    (readInt ((line.drop label.length).dropWhile isSpace)).map fun r => clampLong r.1.num
  else none

theorem labelled_append (label rest : List Char) :
    labelled label (label ++ rest) =
      (readInt (rest.dropWhile isSpace)).map fun r => clampLong r.1.num := by
  rw [labelled, if_pos (List.prefix_append label rest), List.drop_left]

theorem labelled_eq_none {label line : List Char} (h : ¬ label <+: line) :
    labelled label line = none := if_neg h

/-! ### One line -/

/-- The directives for some characters that have to be there. -/
theorem scan_lits (label rest : List Char) (ds : List Directive) :
    scan (label.map .lit ++ ds) (label ++ rest) = scan ds rest := by
  induction label with
  | nil => rfl
  | cons c label ih =>
    rw [List.map_cons, List.cons_append, List.cons_append, scan_lit]
    exact ih

/-- Nothing is read if they are not. -/
theorem scan_lits_of_mismatch {label line : List Char} (h : ¬ label <+: line)
    (ds : List Directive) : (scan (label.map .lit ++ ds) line).1 = [] := by
  induction label generalizing line with
  | nil => exact absurd List.nil_prefix h
  | cons c label ih =>
    rw [List.map_cons, List.cons_append]
    cases line with
    | nil => rfl
    | cons c' line =>
      by_cases hc : c = c'
      · subst hc
        rw [scan_lit]
        exact ih fun hpre => h (List.cons_prefix_cons.2 ⟨rfl, hpre⟩)
      · rw [scan, if_neg hc]

/-- Without a conversion nothing is read. -/
theorem scan_of_no_conv {ds : List Directive} (h : ∀ k, Directive.conv k ∉ ds) (s : List Char) :
    (scan ds s).1 = [] := by
  induction ds generalizing s with
  | nil => rw [scan_nil]
  | cons d ds ih =>
    have hds : ∀ k, Directive.conv k ∉ ds := fun k hk => h k (List.mem_cons_of_mem d hk)
    cases d with
    | lit c =>
      cases s with
      | nil => rfl
      | cons c' s =>
        by_cases hc : c = c'
        · subst hc
          rw [scan_lit]
          exact ih hds s
        · rw [scan, if_neg hc]
    | blank =>
      rw [scan_blank]
      exact ih hds _
    | conv k => exact absurd List.mem_cons_self (h k)

/-- **A label, white space and an integer.**  What stands behind them in the format reads
nothing. -/
theorem scan_label {ds : List Directive} (h : ∀ k, Directive.conv k ∉ ds)
    (label line : List Char) :
    (scan (label.map .lit ++ .blank :: .conv .int :: ds) line).1.map (fun q => clampLong q.num) =
      (labelled label line).toList := by
  by_cases hpre : label <+: line
  · obtain ⟨rest, rfl⟩ := hpre
    rw [scan_lits, scan_blank, labelled_append]
    cases hread : readInt (rest.dropWhile isSpace) with
    | none =>
      rw [scan_conv_none (by rw [List.dropWhile_idempotent]; exact hread)]
      rfl
    | some r =>
      rw [scan_conv (by rw [List.dropWhile_idempotent]; exact hread), scan_of_no_conv h]
      rfl
  · rw [scan_lits_of_mismatch hpre, labelled_eq_none hpre]
    rfl

/-! ### A newline behind the line -/

theorem readSign_concat (s : List Char) :
    readSign (s ++ ['\n']) = ((readSign s).1, (readSign s).2 ++ ['\n']) := by
  cases s with
  | nil => rfl
  | cons c s =>
    by_cases hminus : c = '-'
    · subst hminus
      rfl
    by_cases hplus : c = '+'
    · subst hplus
      rfl
    have hsign : (c = '-' || c = '+') = false := by simp [hminus, hplus]
    rw [List.cons_append, readSign_of_stops (stops_cons hsign _),
      readSign_of_stops (stops_cons hsign _)]
    rfl

/-- A numeral ends in front of the newline. -/
theorem readInt_concat (s : List Char) :
    (readInt (s ++ ['\n'])).map Prod.fst = (readInt s).map Prod.fst := by
  have htake : ((readSign s).2 ++ ['\n']).takeWhile Char.isDigit =
      (readSign s).2.takeWhile Char.isDigit := by
    rw [List.takeWhile_append]
    split_ifs with hall
    · rw [List.takeWhile_cons_of_neg (by decide), List.append_nil]
      exact ((List.takeWhile_prefix _).eq_of_length hall).symm
    · rfl
  simp only [readInt, readSign_concat, htake]
  split_ifs <;> rfl

/-- White space in front of a numeral is skipped up to the numeral, not beyond. -/
theorem readInt_dropWhile_concat (s : List Char) :
    (readInt ((s ++ ['\n']).dropWhile isSpace)).map Prod.fst =
      (readInt (s.dropWhile isSpace)).map Prod.fst := by
  rw [List.dropWhile_append]
  split_ifs with hblank
  · rw [List.isEmpty_iff.1 hblank]
    rfl
  · exact readInt_concat _

/-- A newline behind a line changes nothing. -/
theorem labelled_concat {label : List Char} (h : '\n' ∉ label) (line : List Char) :
    labelled label (line ++ ['\n']) = labelled label line := by
  by_cases hpre : label <+: line
  · obtain ⟨rest, rfl⟩ := hpre
    have hmap := congrArg (Option.map fun q => clampLong q.num) (readInt_dropWhile_concat rest)
    rw [Option.map_map, Option.map_map] at hmap
    rw [List.append_assoc, labelled_append, labelled_append]
    exact hmap
  · have hpre' : ¬ label <+: line ++ ['\n'] := by
      intro hcon
      rcases List.prefix_concat_iff.1 hcon with rfl | hline
      · exact h (by simp)
      · exact hpre hline
    rw [labelled_eq_none hpre, labelled_eq_none hpre']

/-! ### The pieces `fgets` delivers -/

variable {size : ℕ} {acc l rest : List Char}

theorem fgetsLines_cons (size : ℕ) (acc : List Char) (c : Char) (rest : List Char) :
    fgetsLines size acc (c :: rest) =
      if c = '\n' ∨ acc.length + 2 = size then (c :: acc).reverse :: fgetsLines size [] rest
      else fgetsLines size (c :: acc) rest := by
  simp only [fgetsLines, Bool.or_eq_true, decide_eq_true_eq]

/-- A newline ends a piece. -/
theorem fgetsLines_newline :
    fgetsLines size acc ('\n' :: rest) = (acc.reverse ++ ['\n']) :: fgetsLines size [] rest := by
  rw [fgetsLines_cons, if_pos (.inl rfl), List.reverse_cons]

/-- As long as the buffer has room, characters are added to it. -/
theorem fgetsLines_append (hl : '\n' ∉ l) (hroom : acc.length + l.length + 1 < size) :
    fgetsLines size acc (l ++ rest) = fgetsLines size (l.reverse ++ acc) rest := by
  induction l generalizing acc with
  | nil => rfl
  | cons c l ih =>
    rw [List.mem_cons, not_or] at hl
    obtain ⟨hc, hl⟩ := hl
    rw [List.length_cons] at hroom
    have hnot : ¬ (c = '\n' ∨ acc.length + 2 = size) := by
      rintro (rfl | hfull)
      · exact hc rfl
      · omega
    rw [List.cons_append, fgetsLines_cons, if_neg hnot,
      ih hl (by rw [List.length_cons]; omega), List.reverse_cons, List.append_assoc]
    rfl

/-- A line that fills the buffer is a piece without its newline. -/
theorem fgetsLines_full (hl : '\n' ∉ l) (hne : l ≠ []) (hfull : l.length + 1 = size) :
    fgetsLines size [] (l ++ rest) = l :: fgetsLines size [] rest := by
  obtain ⟨l, c, rfl⟩ := (List.eq_nil_or_concat l).resolve_left hne
  rw [List.concat_eq_append] at *
  rw [List.mem_append, not_or] at hl
  rw [List.length_append, List.length_singleton] at hfull
  have hlast : c = '\n' ∨ (l.reverse ++ []).length + 2 = size := by
    right
    rw [List.append_nil, List.length_reverse]
    exact hfull
  rw [List.append_assoc, List.singleton_append,
    fgetsLines_append hl.1 (by rw [List.length_nil]; omega), fgetsLines_cons, if_pos hlast,
    List.append_nil, List.reverse_cons, List.reverse_reverse]

/-- A line that fits the buffer comes in one piece, or its newline in one of its own. -/
theorem fgetsLines_line (hl : '\n' ∉ l) (hsize : l.length < size) (htwo : 2 ≤ size)
    (rest : List Char) :
    fgetsLines size [] (l ++ '\n' :: rest) = (l ++ ['\n']) :: fgetsLines size [] rest ∨
      fgetsLines size [] (l ++ '\n' :: rest) = l :: ['\n'] :: fgetsLines size [] rest := by
  by_cases hroom : l.length + 1 < size
  · left
    rw [fgetsLines_append hl (by rw [List.length_nil]; omega), fgetsLines_newline, List.append_nil,
      List.reverse_reverse]
  · right
    have hne : l ≠ [] := List.length_pos_iff.1 (by omega)
    rw [fgetsLines_full hl hne (by omega), fgetsLines_newline]
    rfl

/-- The last line, if it has no newline. -/
theorem fgetsLines_last (hl : '\n' ∉ l) (hsize : l.length < size) :
    fgetsLines size [] l = if l = [] then [] else [l] := by
  split_ifs with hnil
  · rw [hnil]
    rfl
  by_cases hroom : l.length + 1 < size
  · have hrun : fgetsLines size [] (l ++ []) = fgetsLines size (l.reverse ++ []) [] :=
      fgetsLines_append hl (by rw [List.length_nil]; omega)
    rw [List.append_nil, List.append_nil] at hrun
    rw [hrun]
    cases hrev : l.reverse with
    | nil => exact absurd (List.reverse_eq_nil_iff.1 hrev) hnil
    | cons c l' =>
      rw [fgetsLines, ← hrev, List.reverse_reverse]
      rintro ⟨⟩
  · have hrun : fgetsLines size [] (l ++ []) = l :: fgetsLines size [] [] :=
      fgetsLines_full hl hnil (by omega)
    rwa [List.append_nil] at hrun

/-- Every text is a sequence of lines, the last one without a newline. -/
theorem lines_induct {motive : List Char → Prop} (last : ∀ l, '\n' ∉ l → motive l)
    (line : ∀ l rest, '\n' ∉ l → motive rest → motive (l ++ '\n' :: rest)) (text : List Char) :
    motive text := by
  induction hlen : text.length using Nat.strong_induction_on generalizing text with
  | _ n ih =>
    by_cases hmem : '\n' ∈ text
    · obtain ⟨l, rest, rfl, hl⟩ := List.eq_append_cons_of_mem hmem
      refine line l rest hl (ih rest.length ?_ rest rfl)
      rw [← hlen, List.length_append, List.length_cons]
      omega
    · exact last text hmem

/-- **The pieces `fgets` delivers say what the lines say**, about anything a newline behind a line
does not change, and that an empty line does not have. -/
theorem flatMap_fgetsLines {α : Type*} {f : List Char → List α}
    (hf : ∀ l, f (l ++ ['\n']) = f l) (hnil : f [] = []) (htwo : 2 ≤ size) {text : List Char}
    (hsize : ∀ l ∈ text.splitOn '\n', l.length < size) :
    (fgetsLines size [] text).flatMap f = (text.splitOn '\n').flatMap f := by
  induction text using lines_induct with
  | last l hl =>
    rw [List.splitOn_eq_singleton hl] at hsize ⊢
    rw [fgetsLines_last hl (hsize l List.mem_cons_self), List.flatMap_singleton]
    split_ifs with h
    · rw [h, hnil]
      rfl
    · exact List.flatMap_singleton ..
  | line l rest hl ih =>
    rw [List.splitOn_append_cons_self_of_not_mem hl] at hsize ⊢
    have hrest := ih fun l' hl' => hsize l' (List.mem_cons_of_mem _ hl')
    have hnewline : f ['\n'] = [] := (hf []).trans hnil
    rw [List.flatMap_cons, ← hrest]
    rcases fgetsLines_line hl (hsize l List.mem_cons_self) htwo rest with hpiece | hpiece
    · rw [hpiece, List.flatMap_cons, hf]
    · rw [hpiece, List.flatMap_cons, List.flatMap_cons, hnewline, List.nil_append]

/-! ### The lines of a text, each with its newline -/

/-- The lines, with their newlines. -/
def linesOf : List Char → List (List Char)
  | [] => []
  | c :: s =>
    if c = '\n' then ['\n'] :: linesOf s
    else
      match linesOf s with
      | [] => [[c]]
      | l :: ls => (c :: l) :: ls

theorem linesOf_line (hl : '\n' ∉ l) (rest : List Char) :
    linesOf (l ++ '\n' :: rest) = (l ++ ['\n']) :: linesOf rest := by
  induction l with
  | nil => simp [linesOf]
  | cons c l ih =>
    rw [List.mem_cons, not_or] at hl
    have hc : c ≠ '\n' := fun heq => hl.1 heq.symm
    rw [List.cons_append, linesOf, if_neg hc, ih hl.2]
    rfl

theorem linesOf_last (hl : '\n' ∉ l) (hne : l ≠ []) : linesOf l = [l] := by
  induction l with
  | nil => exact absurd rfl hne
  | cons c l ih =>
    rw [List.mem_cons, not_or] at hl
    have hc : c ≠ '\n' := fun heq => hl.1 heq.symm
    rw [linesOf, if_neg hc]
    by_cases hnil : l = []
    · rw [hnil]
      rfl
    · rw [ih hl.2 hnil]

/-- **A buffer that is big enough delivers the lines.** -/
theorem fgetsLines_eq_linesOf {text : List Char}
    (hsize : ∀ l ∈ text.splitOn '\n', l.length + 1 < size) :
    fgetsLines size [] text = linesOf text := by
  induction text using lines_induct with
  | last l hl =>
    rw [List.splitOn_eq_singleton hl] at hsize
    have hlen := hsize l List.mem_cons_self
    rw [fgetsLines_last hl (Nat.lt_of_succ_lt hlen)]
    split_ifs with h
    · rw [h]
      rfl
    · rw [linesOf_last hl h]
  | line l rest hl ih =>
    rw [List.splitOn_append_cons_self_of_not_mem hl] at hsize
    have hlen := hsize l List.mem_cons_self
    rw [fgetsLines_append hl (by rw [List.length_nil]; omega), fgetsLines_newline, List.append_nil,
      List.reverse_reverse, linesOf_line hl, ih fun l' hl' => hsize l' (List.mem_cons_of_mem _ hl')]

/-- The pieces are the text. -/
theorem flatten_fgetsLines (size : ℕ) (acc text : List Char) :
    (fgetsLines size acc text).flatten = acc.reverse ++ text := by
  induction text generalizing acc with
  | nil =>
    cases acc with
    | nil => rfl
    | cons c acc =>
      rw [fgetsLines, List.flatten_singleton, List.append_nil]
      rintro ⟨⟩
  | cons c text ih =>
    rw [fgetsLines_cons]
    split_ifs
    · rw [List.flatten_cons, ih, List.reverse_cons, List.reverse_nil, List.nil_append,
        List.append_assoc, List.singleton_append]
    · rw [ih, List.reverse_cons, List.append_assoc, List.singleton_append]

/-- There are no more pieces than characters. -/
theorem length_fgetsLines_le (size : ℕ) (text : List Char) :
    (fgetsLines size [] text).length ≤ text.length := by
  have hgen : ∀ acc : List Char,
      (fgetsLines size acc text).length ≤ text.length + min 1 acc.length := by
    induction text with
    | nil =>
      intro acc
      cases acc with
      | nil => exact Nat.zero_le _
      | cons c acc =>
        rw [fgetsLines]
        · simp
        · rintro ⟨⟩
    | cons c text ih =>
      intro acc
      rw [fgetsLines_cons]
      split_ifs
      · have hrest := ih []
        simp only [List.length_cons, List.length_nil] at hrest ⊢
        omega
      · have hrest := ih (c :: acc)
        simp only [List.length_cons] at hrest ⊢
        omega
  have hnil := hgen []
  rw [List.length_nil] at hnil
  omega

end Text

end CAcheRein
