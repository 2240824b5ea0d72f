import CAcheRein.Text.Scan

/-!
# The sensor log

The text log of `module1-foundations/ex06-file-io`: `log_write` appends one line per entry,
`log_read` reads the lines back until a call of `fscanf` does not fill all four fields.  A file is
its text, or `none` where `fopen` fails.  The floating-point fields are exact rationals; what
`%.1f` makes of them is a `Nearest 1`.  `%hhu` and `%u` read a number out of range by way of
`strtoul`.
-/

namespace CAcheRein

open Text

/-- `sensor_log_t`. -/
structure SensorLog where
  sensorId : UInt8
  temperature : ℚ
  humidity : ℚ
  timestamp : UInt32
  deriving DecidableEq

namespace SensorLog

/-- What `log_write` prints for an entry: `"id=%u temp=%.1f humidity=%.1f time=%u\n"`. -/
def line (R : Nearest 1) (entry : SensorLog) : List Char :=
  ["id=".toList, digits entry.sensorId.toNat,
    " temp=".toList, R.print entry.temperature,
    " humidity=".toList, R.print entry.humidity,
    " time=".toList, digits entry.timestamp.toNat, "\n".toList].flatten

/-- `log_write`: the return code and the file after the call. -/
def logWrite (R : Nearest 1) (file : File) (entry : SensorLog) : Int × File :=
  match file with
  | none => (-1, none)
  | some text => (0, some (text ++ entry.line R))

/-- The format of `log_read`. -/
def readFormat : List Directive := format "id=%hhu temp=%f humidity=%f time=%u\n".toList

/-- The loop of `log_read`: the entries it passes to `log_print`, in order. -/
def readLoop (text : List Char) : List SensorLog :=
  match _h : (scan readFormat text).1 with
  | [id, temp, humidity, time] =>
    ⟨.ofInt (clampULong id.num), temp, humidity, .ofInt (clampULong time.num)⟩ ::
      readLoop (scan readFormat text).2
  | _ => []
termination_by text.length
decreasing_by exact length_scan_lt (by rw [_h]; exact List.cons_ne_nil _ _)

/-- `log_read`: the return code and the entries passed to `log_print`. -/
def logRead (file : File) : Int × List SensorLog :=
  match file with
  | none => (-1, [])
  | some text => (0, readLoop text)

/-- The entries of `es` written one by one: the return codes and the file after the calls. -/
def writeAll (R : Nearest 1) (file : File) : List SensorLog → List Int × File
  | [] => ([], file)
  | entry :: es =>
    let w := logWrite R file entry
    let ws := writeAll R w.2 es
    (w.1 :: ws.1, ws.2)

/-- An entry with its floating-point fields rounded to one decimal. -/
def rounded (R : Nearest 1) (entry : SensorLog) : SensorLog :=
  { entry with
    temperature := R.round entry.temperature / 10
    humidity := R.round entry.humidity / 10 }

end SensorLog

end CAcheRein
