import CAcheRein.Calls.Basic
import CAcheRein.Monitor.Basic
import CAcheRein.Thermal.Basic

/-!
# Programs that read the system

`module5-linux-systems/ex01-file-descriptors`, `ex02-proc-interface`, `ex03-sys-interface` and the
readers of `ex06-system-monitor`, call by call: every call of the C library that the functions
make, in order, on every path.

`main` of `ex01` does not look at what its last `write` returns, nor at its last `read`; a variable
`sscanf` has not set prints whatever `junk` it holds.  `double` is exact here.
-/

namespace CAcheRein

namespace Posix

open Text Prog

/-- How `main` of `ex01` opens its file. -/
inductive Mode where
  /-- `O_RDONLY`. -/
  | rdonly
  /-- `O_WRONLY | O_CREAT | O_TRUNC`. -/
  | create
  deriving DecidableEq

/-- What can be opened, with `open`, `opendir` or `fopen`. -/
inductive Resource where
  | file (path : List Char) (mode : Mode)
  | dir (path : List Char)
  | stream (path : List Char)

/-- A descriptor, a directory stream or a file stream. -/
inductive Handle where
  | fd (n : ℕ)
  | dir (n : ℕ)
  | stream (n : ℕ)
  deriving DecidableEq

/-- The handle with the number `n` for a resource. -/
def Resource.handle : Resource → ℕ → Handle
  | file .., n => .fd n
  | dir .., n => .dir n
  | stream .., n => .stream n

/-- The calls the programs make. -/
inductive Call where
  | acquire (r : Resource)
  | read (fd size : ℕ)
  | write (fd : ℕ) (text : List Char)
  | lseekSet (fd : ℕ) (offset : ℤ)
  | lseekCur (fd : ℕ)
  | readdir (dir : ℕ)
  | fgets (stream size : ℕ)
  | fscanf (stream : ℕ) (fmt : String)
  | release (h : Handle)
  | printf (text : List Char)
  | perror (text : List Char)
  | getpid
  | sleep (seconds : ℕ)

/-- What a call is answered with: the number of a handle or the message for `errno`, what was
read, if anything could be, or nothing. -/
@[reducible] def Call.Answer : Call → Type
  | acquire .. => Except (List Char) ℕ
  | read .. => Option (List Char)
  | write .. => Option ℕ
  | lseekSet .. => ℤ
  | lseekCur .. => ℤ
  | readdir .. => Option (List Char)
  | fgets .. => Option (List Char)
  | fscanf .. => List ℚ
  | release .. => Unit
  | printf .. => Unit
  | perror .. => Unit
  | getpid => ℤ
  | sleep .. => Unit

/-- A program that makes these calls. -/
abbrev Program (α : Type) := Prog Call Call.Answer α

/-- Make a call. -/
abbrev call (op : Call) : Program op.Answer := perform op

/-- `open`. -/
abbrev openFd (path : List Char) (mode : Mode) : Program (Except (List Char) ℕ) :=
  call (.acquire (.file path mode))

abbrev read (fd size : ℕ) : Program (Option (List Char)) := call (.read fd size)

abbrev write (fd : ℕ) (text : List Char) : Program (Option ℕ) := call (.write fd text)

abbrev lseekSet (fd : ℕ) (offset : ℤ) : Program ℤ := call (.lseekSet fd offset)

abbrev lseekCur (fd : ℕ) : Program ℤ := call (.lseekCur fd)

abbrev close (fd : ℕ) : Program Unit := call (.release (.fd fd))

abbrev opendir (path : List Char) : Program (Except (List Char) ℕ) := call (.acquire (.dir path))

abbrev closedir (dir : ℕ) : Program Unit := call (.release (.dir dir))

abbrev fopen (path : List Char) : Program (Except (List Char) ℕ) := call (.acquire (.stream path))

abbrev fscanf (stream : ℕ) (fmt : String) : Program (List ℚ) := call (.fscanf stream fmt)

abbrev fclose (stream : ℕ) : Program Unit := call (.release (.stream stream))

abbrev printf (text : List Char) : Program Unit := call (.printf text)

abbrev perror (text : List Char) : Program Unit := call (.perror text)

abbrev getpid : Program ℤ := call .getpid

abbrev sleep (seconds : ℕ) : Program Unit := call (.sleep seconds)

/-- `while ((line = fgets(...)) != NULL)`, with a variable; the body says whether to go on. -/
def eachLine {γ : Type} (stream size : ℕ) (body : List Char → γ → Program (Bool × γ)) :
    ℕ → γ → Program γ :=
  drain (.fgets stream size) (fun line : Option (List Char) => line) body

/-- `while ((entry = readdir(dir)) != NULL)`. -/
def eachEntry (dir : ℕ) (body : List Char → Program (Bool × Unit)) : ℕ → Unit → Program Unit :=
  drain (.readdir dir) (fun name : Option (List Char) => name) fun name _ => body name

/-- A string, up to its NUL. -/
def cString (text : List Char) : List Char := text.takeWhile fun c => c.toNat ≠ 0

/-- What `snprintf` leaves in a buffer of `size` bytes. -/
def snprintf (size : ℕ) (text : List Char) : List Char := text.take (size - 1)

/-- A buffer that `read` has filled, with a newline at its end taken off. -/
def stripped (buf : List Char) : List Char :=
  if buf.getLast? = some '\n' then buf.dropLast else buf

/-! ### `ex01-file-descriptors` -/

namespace FileDescriptors

/-- The last part of `main`. -/
def seekPart : Program ℤ := do
  printf "\n=== lseek ===\n".toList
  match ← openFd "test.txt".toList .rdonly with
  | .error _ =>
    perror "open".toList
    ret 1
  | .ok fd =>
    let pos ← lseekSet fd 0
    printf ("seeked to position ".toList ++ zeroPadded 0 pos ++ ['\n'])
    let bytes ← read fd 5
    printf ("first 5 bytes: ".toList ++ cString (bytes.getD []) ++ ['\n'])
    let pos ← lseekCur fd
    printf ("current position: ".toList ++ zeroPadded 0 pos ++ ['\n'])
    close fd
    ret 0

/-- The standard descriptors, and what follows them. -/
def standardPart : Program ℤ := do
  printf "\n=== standard file descriptors ===\n".toList
  printf "stdin   = fd 0\n".toList
  printf "stdout  = fd 1\n".toList
  printf "stderr  = fd 2\n".toList
  let _ ← write 1 "writing directly to stdout via fd\n".toList
  seekPart

/-- Reading the file back, and what follows it. -/
def readPart : Program ℤ := do
  printf "\n=== open/read/close ===\n".toList
  match ← openFd "test.txt".toList .rdonly with
  | .error _ =>
    perror "read".toList
    ret 1
  | .ok fd =>
    printf ("opened test.txt for read fd=".toList ++ zeroPadded 0 fd ++ ['\n'])
    match ← read fd 127 with
    | none =>
      perror "read".toList
      close fd
      ret 1
    | some buf =>
      printf ("read ".toList ++ zeroPadded 0 buf.length ++ " bytes: ".toList ++
        cString buf)
      close fd
      standardPart

/-- `main`. -/
def main : Program ℤ := do
  printf "=== open/write/close ===\n".toList
  match ← openFd "test.txt".toList .create with
  | .error _ =>
    perror "open".toList
    ret 1
  | .ok fd =>
    printf ("opened test.txt, fd=".toList ++ zeroPadded 0 fd ++ ['\n'])
    match ← write fd "hello from file descriptor\n".toList with
    | none =>
      perror "write".toList
      close fd
      ret 1
    | some written =>
      printf ("wrote ".toList ++ zeroPadded 0 written ++ " bytes\n".toList)
      close fd
      printf ("closed fd=".toList ++ zeroPadded 0 fd ++ ['\n'])
      readPart

end FileDescriptors

/-! ### `ex02-proc-interface` -/

namespace ProcInterface

variable (R : Nearest 2) (junk : ℚ × ℚ) (fuel : ℕ)

/-- `read_proc_uptime`. -/
def readProcUptime : Program Unit := do
  match ← openFd "/proc/uptime".toList .rdonly with
  | .error _ => perror "open /proc/uptime".toList
  | .ok fd =>
    let buf ← read fd 511
    if buf.getD [] ≠ [] then
      let items := (scan (format "%lf %lf".toList) (cString (buf.getD []))).1
      let uptime := (items[0]?.map Monitor.double).getD junk.1
      let idle := (items[1]?.map Monitor.double).getD junk.2
      printf ("uptime: ".toList ++ R.print uptime ++ " seconds (".toList ++
        R.print (Monitor.double (uptime / 3600)) ++ " hours)\n".toList)
      printf ("idle:   ".toList ++ R.print idle ++ " seconds\n".toList)
      close fd
    else close fd

/-- The loop of `read_proc_meminfo` and `read_proc_self`: the first `count` pieces `fgets`
delivers. -/
def printFirst (count : ℕ) (stream : ℕ) : Program ℕ :=
  eachLine stream 512 (fun line done => do
    if done < count then
      printf (cString line)
      ret (true, done + 1)
    else ret (false, done)) fuel 0

/-- `read_proc_meminfo`. -/
def readProcMeminfo : Program Unit := do
  match ← fopen "/proc/meminfo".toList with
  | .error _ => perror "fopen /proc/meminfo".toList
  | .ok stream =>
    let _ ← printFirst fuel 5 stream
    fclose stream

/-- `read_proc_cpuinfo`. -/
def readProcCpuinfo : Program Unit := do
  match ← fopen "/proc/cpuinfo".toList with
  | .error _ => perror "fopen /proc/cpuinfo".toList
  | .ok stream =>
    eachLine stream 512 (fun line _ => do
      if "model name".toList <+: line then
        printf (cString line)
        -- only the first CPU
        ret (false, ())
      else ret (true, ())) fuel ()
    fclose stream

/-- `read_proc_self`. -/
def readProcSelf : Program Unit := do
  let pid ← getpid
  printf ("PID: ".toList ++ zeroPadded 0 pid ++ ['\n'])
  match ← fopen "/proc/self/status".toList with
  | .error _ => perror "fopen /proc/self/status".toList
  | .ok stream =>
    let _ ← printFirst fuel 8 stream
    fclose stream

/-- `main`. -/
def main : Program ℤ := do
  printf "=== /proc/uptime ===\n".toList
  readProcUptime R junk
  printf "\n=== /proc/meminfo (first 5 lines) ===\n".toList
  readProcMeminfo fuel
  printf "\n=== /proc/cpuinfo (model name) ===\n".toList
  readProcCpuinfo fuel
  printf "\n=== /proc/self ===\n".toList
  readProcSelf fuel
  ret 0

end ProcInterface

/-! ### `ex03-sys-interface` -/

namespace SysInterface

variable (fuel : ℕ)

/-- `read_sys_file`. -/
def readSysFile (path : List Char) : Program Unit := do
  match ← openFd path .rdonly with
  | .error message =>
    printf ("cannot open ".toList ++ path ++ ": ".toList ++ message ++ ['\n'])
  | .ok fd =>
    let buf ← read fd 511
    if buf.getD [] ≠ [] then
      printf (path ++ ": ".toList ++ cString (stripped (buf.getD [])) ++ ['\n'])
      close fd
    else close fd

/-- `list_sys_dir`. -/
def listSysDir (path : List Char) : Program Unit := do
  match ← opendir path with
  | .error message =>
    printf ("cannot open ".toList ++ path ++ ": ".toList ++ message ++ ['\n'])
  | .ok dir =>
    eachEntry dir (fun name => do
      if name.head? = some '.' then ret (true, ())
      else
        printf (' ' :: name ++ ['\n'])
        ret (true, ())) fuel ()
    closedir dir

/-- The body of the loop of `read_cpu_thermal`; the variable is `found`. -/
def readZone (i : ℕ) (found : Bool) : Program (Bool × Bool) := do
  match ← openFd (snprintf 512 (Thermal.path i "type")) .rdonly with
  -- no more zones
  | .error _ => ret (false, found)
  | .ok fd =>
    let type ← read fd 63
    close fd
    if type.getD [] = [] then ret (false, found)
    else
      match ← openFd (snprintf 512 (Thermal.path i "temp")) .rdonly with
      | .error _ => ret (true, found)
      | .ok fd =>
        let tempStr ← read fd 31
        close fd
        if tempStr.getD [] = [] then ret (true, found)
        else
          printf (Thermal.zoneLine i (type.getD []) (Thermal.atoi (tempStr.getD [])))
          ret (true, true)

/-- `read_cpu_thermal`. -/
def readCpuThermal : Program Unit := do
  let found ← each readZone (List.range 4) false
  if found then ret ()
  else
    printf "  no thermal zones found (WSL2 — no direct hardware access)\n".toList
    printf "  on real embedded Linux: Raspberry Pi, BeagleBone, i.MX6\n".toList
    printf "  thermal zones would show CPU, GPU, battery temperatures\n".toList

/-- `atol`. -/
def atol (s : List Char) : ℤ :=
  match readInt (s.dropWhile isSpace) with
  | none => 0
  | some (q, _) => clampLong q.num

/-- The path of a counter of an interface. -/
def counterPath (name : List Char) (counter : String) : List Char :=
  "/sys/class/net/".toList ++ name ++ "/statistics/".toList ++ counter.toList

/-- The line of an interface. -/
def netLine (name : List Char) (rx tx : ℤ) : List Char :=
  ' ' :: name ++ ": rx=".toList ++ zeroPadded 0 rx ++ " bytes tx=".toList ++ zeroPadded 0 tx ++
    " bytes\n".toList

/-- The body of the loop of `read_net_stats`; the results of `read` are not looked at. -/
def readInterface (name : List Char) : Program (Bool × Unit) := do
  if name.head? = some '.' then ret (true, ())
  else if name = "lo".toList then ret (true, ())
  else
    match ← openFd (snprintf 512 (counterPath name "rx_bytes")) .rdonly with
    | .error _ => ret (true, ())
    | .ok fd =>
      let buf ← read fd 63
      close fd
      let rx := atol (cString (buf.getD []))
      match ← openFd (snprintf 512 (counterPath name "tx_bytes")) .rdonly with
      | .error _ => ret (true, ())
      | .ok fd =>
        let buf ← read fd 63
        close fd
        let tx := atol (cString (buf.getD []))
        printf (netLine name rx tx)
        ret (true, ())

/-- `read_net_stats`. -/
def readNetStats : Program Unit := do
  match ← opendir "/sys/class/net".toList with
  | .error _ => perror "opendir".toList
  | .ok dir =>
    eachEntry dir readInterface fuel ()
    closedir dir

/-- `main`. -/
def main : Program ℤ := do
  printf "=== /sys/kernel/hostname ===\n".toList
  readSysFile "/proc/sys/kernel/hostname".toList
  printf "\n=== CPU thermal zones ===\n".toList
  readCpuThermal
  printf "\n=== network interface stats ===\n".toList
  readNetStats fuel
  printf "\n=== /sys/block (block devices) ===\n".toList
  listSysDir fuel "/sys/block".toList
  printf "\n=== /sys/class/net (network interface) ===\n".toList
  listSysDir fuel "/sys/class/net".toList
  ret 0

end SysInterface

/-! ### `ex06-system-monitor` -/

namespace SystemMonitor

open Monitor

variable (fuel : ℕ)

/-- `read_cpu_stat`. -/
def readCpuStat (s : CpuStat) : Program (ℤ × CpuStat) := do
  match ← fopen "/proc/stat".toList with
  | .error _ => ret (-1, s)
  | .ok stream =>
    let items ← fscanf stream "cpu %ld %ld %ld %ld"
    fclose stream
    ret (if items.length = 4 then 0 else -1,
      { user := assign items 0 s.user
        nice := assign items 1 s.nice
        system := assign items 2 s.system
        idle := assign items 3 s.idle })

/-- `read_mem_info`. -/
def readMemInfo (m : MemInfo) : Program (ℤ × MemInfo) := do
  match ← fopen "/proc/meminfo".toList with
  | .error _ => ret (-1, m)
  | .ok stream =>
    let r ← eachLine stream 128 (fun line (r : MemInfo × ℕ) =>
      if r.2 < 3 then ret (true, readMemLine line r.1 r.2) else ret (false, r)) fuel (⟨0, 0, 0⟩, 0)
    fclose stream
    ret (if r.2 = 3 then 0 else -1, r.1)

/-- `read_uptime`. -/
def readUptime (uptime : ℚ) : Program (ℤ × ℚ) := do
  match ← fopen "/proc/uptime".toList with
  | .error _ => ret (-1, uptime)
  | .ok stream =>
    let items ← fscanf stream "%lf"
    fclose stream
    ret (if items.length = 1 then 0 else -1, (items[0]?.map double).getD uptime)

/-- The reads of an iteration of `thread_collector`; their return codes are not looked at. -/
def collect (l : Locals) : Program Locals := do
  let s1 ← readCpuStat l.s1
  sleep 1
  let s2 ← readCpuStat l.s2
  let mem ← readMemInfo fuel l.mem
  let uptime ← readUptime l.uptime
  ret ⟨s1.2, s2.2, mem.2, uptime.2⟩

/-- The reads of some iterations. -/
def collectAll (cycles : ℕ) (l : Locals) : Program Locals :=
  each (fun _ l => do
    let l ← collect fuel l
    ret (true, l)) (List.range cycles) l

end SystemMonitor

end Posix

end CAcheRein
