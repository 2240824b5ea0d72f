import CAcheRein.SensorLog.Basic

/-!
# The log is read back as written

`SensorLog.log_round_trip` : whatever is written to an empty log, entry by entry, is what
`log_read` passes to `log_print`, in the same order, with the floating-point fields rounded to one
decimal.
-/

namespace CAcheRein

open Text

namespace SensorLog

variable (R : Nearest 1)

theorem readFormat_eq : readFormat =
    [.lit 'i', .lit 'd', .lit '=', .conv .int, .blank,
      .lit 't', .lit 'e', .lit 'm', .lit 'p', .lit '=', .conv .real, .blank,
      .lit 'h', .lit 'u', .lit 'm', .lit 'i', .lit 'd', .lit 'i', .lit 't', .lit 'y', .lit '=',
      .conv .real, .blank,
      .lit 't', .lit 'i', .lit 'm', .lit 'e', .lit '=', .conv .int, .blank] := by
  decide

/-- A line starts with the `i` of `id=`. -/
theorem line_stops_space (entry : SensorLog) (rest : List Char) :
    Stops isSpace (entry.line R ++ rest) :=
  stops_cons (by decide) _

/-- A line, character by character between the numbers. -/
theorem line_append (entry : SensorLog) (rest : List Char) : entry.line R ++ rest =
    'i' :: 'd' :: '=' :: (digits entry.sensorId.toNat ++
      ' ' :: 't' :: 'e' :: 'm' :: 'p' :: '=' :: (R.print entry.temperature ++
        ' ' :: 'h' :: 'u' :: 'm' :: 'i' :: 'd' :: 'i' :: 't' :: 'y' :: '=' ::
          (R.print entry.humidity ++ ' ' :: 't' :: 'i' :: 'm' :: 'e' :: '=' ::
            (digits entry.timestamp.toNat ++ '\n' :: rest)))) := by
  have hid : "id=".toList = ['i', 'd', '='] := rfl
  have htemp : " temp=".toList = [' ', 't', 'e', 'm', 'p', '='] := rfl
  have hhumidity : " humidity=".toList =
      [' ', 'h', 'u', 'm', 'i', 'd', 'i', 't', 'y', '='] := rfl
  have htime : " time=".toList = [' ', 't', 'i', 'm', 'e', '='] := rfl
  have hnewline : "\n".toList = ['\n'] := rfl
  simp only [line, List.flatten_cons, List.flatten_nil, hid, htemp, hhumidity, htime, hnewline,
    List.append_assoc, List.cons_append, List.nil_append]

/-- **One call of `fscanf` reads one line**, up to the start of the next. -/
theorem scan_line (entry : SensorLog) {rest : List Char} (h : Stops isSpace rest) :
    scan readFormat (entry.line R ++ rest) =
      ([(entry.sensorId.toNat : ℚ), R.round entry.temperature / 10,
        R.round entry.humidity / 10, (entry.timestamp.toNat : ℚ)], rest) := by
  have hspace : ∀ s : List Char, Stops Char.isDigit (' ' :: s) := fun s => stops_cons (by decide) s
  have hreal : ∀ s : List Char, Delimited (' ' :: s) := fun s => stops_cons (by decide) s
  have hlit : ∀ (c : Char) (s : List Char), isSpace c = false → Stops isSpace (c :: s) :=
    fun c s hc => stops_cons hc s
  rw [readFormat_eq, line_append]
  simp only [scan_lit]
  rw [scan_int_digits _ _ (hspace _), scan_blank_cons (by decide) (hlit _ _ (by decide))]
  simp only [scan_lit]
  rw [scan_real_print _ R Nat.one_pos _ (hreal _),
    scan_blank_cons (by decide) (hlit _ _ (by decide))]
  simp only [scan_lit]
  rw [scan_real_print _ R Nat.one_pos _ (hreal _),
    scan_blank_cons (by decide) (hlit _ _ (by decide))]
  simp only [scan_lit]
  rw [scan_int_digits _ _ (stops_cons (by decide) _), scan_blank_cons (by decide) h, scan_nil,
    pow_one]

theorem ofInt_toNat_uint8 (x : UInt8) : UInt8.ofInt (clampULong x.toNat) = x := by
  have hlt := x.toNat_lt
  rw [clampULong_natCast (by omega)]
  have hmod : ((x.toNat : Int) % 2 ^ 8).toNat = x.toNat := by omega
  rw [UInt8.ofInt, hmod, UInt8.ofNat_toNat]

theorem ofInt_toNat_uint32 (x : UInt32) : UInt32.ofInt (clampULong x.toNat) = x := by
  have hlt := x.toNat_lt
  rw [clampULong_natCast (by omega)]
  have hmod : ((x.toNat : Int) % 2 ^ 32).toNat = x.toNat := by omega
  rw [UInt32.ofInt, hmod, UInt32.ofNat_toNat]

/-- The loop goes on behind a line that `fscanf` reads. -/
theorem readLoop_cons {text rest : List Char} {id temp humidity time : ℚ}
    (h : scan readFormat text = ([id, temp, humidity, time], rest)) :
    readLoop text =
      ⟨.ofInt (clampULong id.num), temp, humidity, .ofInt (clampULong time.num)⟩ ::
        readLoop rest := by
  rw [readLoop]
  split
  · rename_i heq
    rw [h] at heq ⊢
    cases heq
    rfl
  · rename_i hne
    rw [h] at hne
    exact absurd rfl (hne _ _ _ _)

theorem readLoop_nil : readLoop [] = [] := by
  rw [readLoop]
  rfl

/-- **The loop reads back a text of lines.** -/
theorem readLoop_lines (es : List SensorLog) :
    readLoop (es.flatMap (line R)) = es.map (rounded R) := by
  induction es with
  | nil => exact readLoop_nil
  | cons entry es ih =>
    have hrest : Stops isSpace (es.flatMap (line R)) := by
      cases es with
      | nil => exact fun c hc => by cases hc
      | cons e es => exact line_stops_space R e _
    rw [List.flatMap_cons, readLoop_cons (scan_line R entry hrest), ih, List.map_cons,
      Rat.num_natCast, Rat.num_natCast, ofInt_toNat_uint8, ofInt_toNat_uint32]
    rfl

/-- Appending entry by entry concatenates the lines, and every call succeeds. -/
theorem writeAll_eq (text : List Char) (es : List SensorLog) :
    writeAll R (some text) es = (es.map fun _ => 0, some (text ++ es.flatMap (line R))) := by
  induction es generalizing text with
  | nil => rw [writeAll, List.map_nil, List.flatMap_nil, List.append_nil]
  | cons entry es ih =>
    rw [writeAll, logWrite, ih, List.flatMap_cons, List.append_assoc]
    rfl

/-- **The log round trip.**  For every list of entries written one by one to an empty file: every
`log_write` returns 0, and `log_read` returns 0 and passes to `log_print` as many entries as were
written, in the same order, each with its id and timestamp, and with temperature and humidity
rounded to the nearest decimal with one fractional digit. -/
theorem log_round_trip (es : List SensorLog) :
    (∀ ret ∈ (writeAll R (some []) es).1, ret = 0) ∧
      logRead (writeAll R (some []) es).2 = (0, es.map (rounded R)) := by
  rw [writeAll_eq, List.nil_append]
  refine ⟨?_, congrArg (Prod.mk 0) (readLoop_lines R es)⟩
  rintro _ hret
  obtain ⟨-, -, rfl⟩ := List.mem_map.1 hret
  rfl

/-- The three entries of `main`. -/
theorem log_round_trip_main : logRead (writeAll (.halfUp 1) (some [])
    [⟨1, 366 / 10, 65, 1000⟩, ⟨1, 371 / 10, 127 / 2, 2000⟩, ⟨1, 369 / 10, 64, 3000⟩]).2 =
    (0, [⟨1, 366 / 10, 65, 1000⟩, ⟨1, 371 / 10, 127 / 2, 2000⟩, ⟨1, 369 / 10, 64, 3000⟩]) := by
  rw [(log_round_trip (.halfUp 1) _).2]
  decide +kernel

end SensorLog

end CAcheRein
