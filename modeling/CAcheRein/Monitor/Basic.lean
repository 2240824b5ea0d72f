import CAcheRein.FloatingPoint.Round
import CAcheRein.Text.Scan

/-!
# The readers of the system monitor

The readers of `module5-linux-systems/ex06-system-monitor` and what its collector makes of them.
A reader gets the file as `fopen` finds it and what the caller's variable holds before the call,
and gives its return code and what the variable holds after it: a reader that fails early leaves
it as it was, one that fails midway has written some of it.

A numeral becomes the closest `long`.  The operations on `float` and `double` round.  Where a
result of type `long` leaves the range, which C leaves open, `calc_cpu_usage` wraps around, and
the collector has the exact difference.
-/

namespace CAcheRein

namespace Monitor

open Text

/-- What a conversion stores in a variable of type `long`: the `i`-th number read, if the call
got that far. -/
def assign (items : List ℚ) (i : ℕ) (old : ℤ) : ℤ :=
  (items[i]?.map fun q => clampLong q.num).getD old

/-- A result of type `long`. -/
def long (z : ℤ) : ℤ := z.bmod (2 ^ 64)

/-- A result of type `float`. -/
def float (q : ℚ) : ℚ := FloatingPoint.round 24 q

/-- A result of type `double`. -/
def double (q : ℚ) : ℚ := FloatingPoint.round 53 q

/-! ### CPU usage -/

/-- `cpu_stat_t`. -/
structure CpuStat where
  user : ℤ
  nice : ℤ
  system : ℤ
  idle : ℤ
  deriving DecidableEq

/-- `read_cpu_stat`. -/
def readCpuStat (file : File) (s : CpuStat) : Int × CpuStat :=
  match file with
  | none => (-1, s)
  | some text =>
    let items := (scan (format "cpu %ld %ld %ld %ld".toList) text).1
    (if items.length = 4 then 0 else -1,
      { user := assign items 0 s.user
        nice := assign items 1 s.nice
        system := assign items 2 s.system
        idle := assign items 3 s.idle })

/-- `calc_cpu_usage`. -/
def calcCpuUsage (a b : CpuStat) : ℚ :=
  let totalA := long (a.user + a.nice + a.system + a.idle)
  let totalB := long (b.user + b.nice + b.system + b.idle)
  let deltaTotal := long (totalB - totalA)
  let deltaIdle := long (b.idle - a.idle)
  if deltaTotal = 0 then 0
  else float (float (float (long (deltaTotal - deltaIdle)) / float deltaTotal) * 100)

/-! ### Memory -/

/-- `mem_info_t`. -/
structure MemInfo where
  totalKb : ℤ
  freeKb : ℤ
  availableKb : ℤ
  deriving DecidableEq

/-- One `if (sscanf(line, fmt, &field) == 1) found++`: the field and the counter after it. -/
def scanField (fmt : String) (line : List Char) (old : ℤ) (found : ℕ) : ℤ × ℕ :=
  let items := (scan (format fmt.toList) line).1
  (assign items 0 old, if items.length = 1 then found + 1 else found)

/-- The body of the loop of `read_mem_info`. -/
def readMemLine (line : List Char) (m : MemInfo) (found : ℕ) : MemInfo × ℕ :=
  let total := scanField "MemTotal: %ld kB" line m.totalKb found
  let free := scanField "MemFree: %ld kB" line m.freeKb total.2
  let available := scanField "MemAvailable: %ld kB" line m.availableKb free.2
  (⟨total.1, free.1, available.1⟩, available.2)

/-- The loop of `read_mem_info` over the lines `fgets` delivers. -/
def readMemLoop : List (List Char) → MemInfo → ℕ → MemInfo × ℕ
  | [], m, found => (m, found)
  | line :: lines, m, found =>
    if found < 3 then
      readMemLoop lines (readMemLine line m found).1 (readMemLine line m found).2
    else (m, found)

/-- `read_mem_info`. -/
def readMemInfo (file : File) (m : MemInfo) : Int × MemInfo :=
  match file with
  | none => (-1, m)
  | some text =>
    let r := readMemLoop (fgetsLines 128 [] text) ⟨0, 0, 0⟩ 0
    (if r.2 = 3 then 0 else -1, r.1)

/-! ### Uptime -/

/-- `read_uptime`. -/
def readUptime (file : File) (uptime : ℚ) : Int × ℚ :=
  match file with
  | none => (-1, uptime)
  | some text =>
    let items := (scan (format "%lf".toList) text).1
    (if items.length = 1 then 0 else -1, (items[0]?.map double).getD uptime)

/-! ### The shared record -/

/-- `monitor_data_t`. -/
structure MonitorData where
  cpuPct : ℚ
  memTotalKb : ℤ
  memUsedKb : ℤ
  memAvailKb : ℤ
  uptimeSec : ℚ
  deriving DecidableEq

namespace MonitorData

/-- `g_data` before the first publish. -/
def zero : MonitorData := ⟨0, 0, 0, 0, 0⟩

/-- A field of the record, in the order both threads go through them. -/
inductive Field where
  | cpuPct
  | memTotalKb
  | memUsedKb
  | memAvailKb
  | uptimeSec
  deriving DecidableEq

/-- The fields in that order. -/
def fields : List Field := [.cpuPct, .memTotalKb, .memUsedKb, .memAvailKb, .uptimeSec]

/-- Copy one field from `src`. -/
def copyField (dst src : MonitorData) : Field → MonitorData
  | .cpuPct => { dst with cpuPct := src.cpuPct }
  | .memTotalKb => { dst with memTotalKb := src.memTotalKb }
  | .memUsedKb => { dst with memUsedKb := src.memUsedKb }
  | .memAvailKb => { dst with memAvailKb := src.memAvailKb }
  | .uptimeSec => { dst with uptimeSec := src.uptimeSec }

/-- Copy some fields from `src`, one by one. -/
def copyFields (dst src : MonitorData) (fs : List Field) : MonitorData :=
  fs.foldl (fun d f => d.copyField src f) dst

/-- Nothing is left of a record after all its fields are copied over. -/
theorem copyFields_fields (dst src : MonitorData) : dst.copyFields src fields = src := rfl

end MonitorData

/-! ### One cycle of the collector -/

/-- The local variables of an iteration of `thread_collector`. -/
structure Locals where
  s1 : CpuStat
  s2 : CpuStat
  mem : MemInfo
  uptime : ℚ
  deriving DecidableEq

/-- The files an iteration finds: `/proc/stat` twice, `/proc/meminfo` and `/proc/uptime`. -/
structure Reads where
  first : File
  second : File
  mem : File
  uptime : File

/-- The locals after the four reads; their return codes are not looked at. -/
def Locals.fetch (l : Locals) (r : Reads) : Locals where
  s1 := (readCpuStat r.first l.s1).2
  s2 := (readCpuStat r.second l.s2).2
  mem := (readMemInfo r.mem l.mem).2
  uptime := (readUptime r.uptime l.uptime).2

/-- What the iteration publishes. -/
def Locals.record (l : Locals) : MonitorData where
  cpuPct := calcCpuUsage l.s1 l.s2
  memTotalKb := l.mem.totalKb
  memUsedKb := l.mem.totalKb - l.mem.availableKb
  memAvailKb := l.mem.availableKb
  uptimeSec := l.uptime

end Monitor

end CAcheRein
