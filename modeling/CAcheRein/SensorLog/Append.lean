import CAcheRein.SensorLog.RoundTrip
import CAcheRein.Text.Extend

/-!
# Appending to any log

`log_write` appends to whatever `sensor.log` holds, and `log_read` stops at the first call of
`fscanf` that does not read a whole entry.  So it matters whether it gets to the end of the file
that was there: `SensorLog.log_append` says what is read after any appends to any text.
-/

namespace CAcheRein

open Text

namespace SensorLog

variable (R : Nearest 1)

/-- What the loop of `log_read` leaves unread. -/
def leftOver (text : List Char) : List Char :=
  match _h : (scan readFormat text).1 with
  | [_, _, _, _] => leftOver (scan readFormat text).2
  | _ => text
termination_by text.length
decreasing_by exact length_scan_lt (by rw [_h]; exact List.cons_ne_nil _ _)

variable {text rest more : List Char} {id temp humidity time : ℚ}

theorem leftOver_cons (h : scan readFormat text = ([id, temp, humidity, time], rest)) :
    leftOver text = leftOver rest := by
  rw [leftOver]
  split
  · rw [h]
  · rename_i hne
    rw [h] at hne
    exact absurd rfl (hne _ _ _ _)

/-- The loop stops where less than an entry is read. -/
theorem stops_of_ne_four (h : (scan readFormat text).1.length ≠ 4) :
    readLoop text = [] ∧ leftOver text = text := by
  constructor
  · rw [readLoop]
    split
    · rename_i heq
      rw [heq] at h
      exact absurd rfl h
    · rfl
  · rw [leftOver]
    split
    · rename_i heq
      rw [heq] at h
      exact absurd rfl h
    · rfl

theorem leftOver_nil : leftOver [] = [] :=
  (stops_of_ne_four (by decide)).2

/-- An entry in full. -/
theorem four_items {items : List ℚ} (h : items.length = 4) :
    ∃ id temp humidity time, items = [id, temp, humidity, time] := by
  match items, h with
  | [id, temp, humidity, time], _ => exact ⟨id, temp, humidity, time, rfl⟩

/-! ### A call of `fscanf` in front of more lines -/

/-- The text starts the way a line does. -/
def StartsLine (more : List Char) : Prop := ∃ t, more = ['i', 'd', '='] ++ t

theorem StartsLine.inert (h : StartsLine more) : Inert more := by
  obtain ⟨t, rfl⟩ := h
  exact stops_cons (by decide) _

/-- If these directives go on with a character, a conversion is still to come, and a line does not
fit them unless they are the whole format. -/
def unfit : List Directive → Bool
  | .lit c :: ds =>
    conversions ds != 0 &&
      (.lit c :: ds == readFormat || mismatch (.lit c :: ds) ['i', 'd', '='])
  | _ => true

theorem unfit_tails : ∀ ds ∈ readFormat.tails, unfit ds = true := by
  decide

/-- **More lines do not complete an entry.** -/
theorem scan_readFormat_append (hne : text ≠ []) (hmore : StartsLine more) :
    (scan readFormat (text ++ more)).1.length ≠ 4 ∧ (scan readFormat text).1.length ≠ 4 ∨
      scan readFormat (text ++ more) =
        ((scan readFormat text).1, (scan readFormat text).2 ++ more) := by
  rcases scan_append hmore.inert readFormat text with hsame | ⟨c, ds', hgo⟩
  · exact .inr hsame
  · left
    have hunfit := unfit_tails _ ((List.mem_tails _ _).2 hgo.suffix)
    rw [unfit, Bool.and_eq_true, Bool.or_eq_true, bne_iff_ne, beq_iff_eq] at hunfit
    obtain ⟨hconv, hmismatch⟩ := hunfit
    obtain ⟨t, rfl⟩ := hmore
    have hlength := hgo.length
    have hfour : conversions readFormat = 4 := by decide
    have hnone := scan_of_mismatch (hmismatch.resolve_left (hgo.moved hne)) t
    rw [hgo.items, hnone, List.append_nil]
    omega

/-- **The loop on a text with more lines behind it.** -/
theorem readLoop_append (hmore : StartsLine more) (text : List Char) :
    readLoop (text ++ more) =
      readLoop text ++ if leftOver text = [] then readLoop more else [] := by
  induction hlen : text.length using Nat.strongRecOn generalizing text with
  | ind n ih =>
    by_cases hnil : text = []
    · subst hnil
      rw [List.nil_append, readLoop_nil, leftOver_nil, if_pos rfl, List.nil_append]
    by_cases hfour : (scan readFormat text).1.length = 4
    · obtain ⟨id, temp, humidity, time, hitems⟩ := four_items hfour
      have hscan : scan readFormat text =
          ([id, temp, humidity, time], (scan readFormat text).2) := by
        rw [← hitems]
      have hshort : (scan readFormat text).2.length < n := by
        rw [← hlen]
        exact length_scan_lt (by rw [hitems]; exact List.cons_ne_nil _ _)
      -- the first call fills four fields in the longer text too, and leaves `more` behind
      have hscan' : scan readFormat (text ++ more) =
          ([id, temp, humidity, time], (scan readFormat text).2 ++ more) := by
        rcases scan_readFormat_append hnil hmore with ⟨-, hno⟩ | hsame
        · exact absurd hfour hno
        · rw [hsame, hitems]
      rw [readLoop_cons hscan', readLoop_cons hscan, leftOver_cons hscan, ih _ hshort _ rfl,
        List.cons_append]
    · obtain ⟨hread, hleft⟩ := stops_of_ne_four hfour
      -- the loop stops in the longer text as well
      have hstuck : (scan readFormat (text ++ more)).1.length ≠ 4 := by
        rcases scan_readFormat_append hnil hmore with ⟨hno, -⟩ | hsame
        · exact hno
        · rw [hsame]
          exact hfour
      rw [(stops_of_ne_four hstuck).1, hread, hleft, if_neg hnil]
      rfl

/-- A line has no name in it, nor the end of one. -/
theorem all_nameless_line (entry : SensorLog) : (entry.line R).all nameless = true := by
  have hdigits : ∀ n, (digits n).all nameless = true := fun n =>
    List.all_eq_true.2 fun c hc => nameless_of_isDigit c (isDigit_of_mem_digits hc)
  have hprint : ∀ q, (R.print q).all nameless = true := by
    intro q
    have hpadded : (padded 1 ((R.round q).natAbs % 10 ^ 1)).all nameless = true :=
      List.all_eq_true.2 fun c hc => nameless_of_isDigit c (isDigit_of_mem_padded hc)
    rw [Nearest.print, fixed, List.all_append, List.all_append, List.all_cons, hdigits, hpadded]
    split <;> rfl
  simp only [line, List.flatten_cons, List.flatten_nil, List.all_append, hdigits, hprint]
  decide

/-- **Appending to any log.**  Whatever finite numbers and other text the file holds, after any
entries are written to it one by one it is such a file again, and `log_read` passes on what it
passed on before, and behind that all the new entries, as rounded, if it had used up the file
before, and none of them if it had not: behind a damaged line nothing is read any more. -/
theorem log_append {text : List Char} (h : Finite text) (es : List SensorLog) :
    (∀ ret ∈ (writeAll R (some text) es).1, ret = 0) ∧
      ∃ text', (writeAll R (some text) es).2 = some text' ∧ Finite text' ∧
        logRead (some text') =
          (0, (logRead (some text)).2 ++
            if leftOver text = [] then es.map (rounded R) else []) := by
  have hwrite := writeAll_eq R text es
  refine ⟨?_, text ++ es.flatMap (line R), by rw [hwrite], h.append ?_, congrArg (Prod.mk 0) ?_⟩
  · rw [hwrite]
    rintro _ hret
    obtain ⟨-, -, rfl⟩ := List.mem_map.1 hret
    rfl
  · rw [List.all_flatMap, List.all_eq_true]
    exact fun entry _ => all_nameless_line R entry
  · cases es with
    | nil => simp [logRead]
    | cons entry es =>
      have hmore : StartsLine ((entry :: es).flatMap (line R)) := by
        rw [StartsLine, List.flatMap_cons, line_append]
        exact ⟨_, rfl⟩
      rw [readLoop_append hmore, readLoop_lines]
      rfl

/-- The first entry of `main`. -/
def firstEntry : SensorLog := ⟨1, 366 / 10, 65, 1000⟩

/-- Its line, and the start of another that was never finished. -/
def torn : List Char := firstEntry.line (.halfUp 1) ++ "id=1 te".toList

theorem finite_torn : Finite torn := by
  have hnil : Finite [] := fun name hname hin => by
    rcases List.mem_pair.1 hname with rfl | rfl <;> exact absurd (List.infix_nil.1 hin) (by decide)
  refine hnil.append (t := torn) ?_
  rw [torn, List.all_append, all_nameless_line]
  decide

theorem read_torn : readLoop torn = [firstEntry] ∧ leftOver torn ≠ [] := by
  have hshort : (scan readFormat "id=1 te".toList).1.length ≠ 4 := by decide +kernel
  obtain ⟨hread, hleft⟩ := stops_of_ne_four hshort
  have hstops : Stops isSpace "id=1 te".toList := stops_cons (by decide) _
  have hscan := scan_line (.halfUp 1) firstEntry hstops
  rw [torn, readLoop_cons hscan, leftOver_cons hscan, hread, hleft]
  exact ⟨by decide +kernel, by decide⟩

/-- Behind an unfinished line nothing is read that is written later. -/
theorem log_append_torn : ∃ text',
    (writeAll (.halfUp 1) (some torn) [⟨1, 371 / 10, 64, 2000⟩]).2 = some text' ∧
      logRead (some text') = (0, [firstEntry]) := by
  obtain ⟨hread, hleft⟩ := read_torn
  obtain ⟨text', hwrite, -, hlog⟩ := (log_append (.halfUp 1) finite_torn _).2
  refine ⟨text', hwrite, hlog.trans ?_⟩
  rw [if_neg hleft, List.append_nil, logRead, hread]

end SensorLog

end CAcheRein
