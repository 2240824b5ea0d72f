import CAcheRein.Calls.Handles
import CAcheRein.Posix.Basic

/-!
# Every handle is closed

The descriptors, directory streams and file streams of the programs in `Basic.lean`: whatever the
system answers, on every path through a program, a call finds its handle open, and what is opened
is closed.  Each function is taken through the rules of `Handling`, following its text
(`Posix.keeps_main`); what that says about runs is in `Files.lean`.
-/

namespace CAcheRein

namespace Posix

open Text Prog Handling

/-- The handle an answer brings. -/
def Call.opened : (op : Call) → op.Answer → Option Handle
  | acquire r, .ok n => some (r.handle n)
  | _, _ => none

/-- The handle a call needs. -/
def Call.needs : Call → Option Handle
  | read fd _ => some (.fd fd)
  | write fd _ => some (.fd fd)
  | lseekSet fd _ => some (.fd fd)
  | lseekCur fd => some (.fd fd)
  | readdir dir => some (.dir dir)
  | fgets stream _ => some (.stream stream)
  | fscanf stream _ => some (.stream stream)
  | release h => some h
  | _ => none

/-- The calls that close. -/
def Call.closes : Call → Bool
  | release _ => true
  | _ => false

/-- An entry of a directory, or a line. -/
def Call.draws : (op : Call) → op.Answer → Bool
  | readdir _, name => Option.isSome name
  | fgets .., line => Option.isSome line
  | _, _ => false

/-- The standard descriptors. -/
def Handle.standard (h : Handle) : Prop := ∃ n < 3, h = .fd n

/-- How the calls deal with handles. -/
def handling : Handling Call Call.Answer Handle where
  opened := Call.opened
  needs := Call.needs
  closes := Call.closes
  draws := Call.draws
  standard := Handle.standard

/-- The handles a program starts with: the standard descriptors. -/
def atStart : Table Handle
  | .fd n => if n < 3 then some 0 else none
  | _ => none

variable {bound fuel fd dir stream n : ℕ} {α γ : Type} {text path : List Char}
  {k : Except (List Char) ℕ → Program α}

/-! ### The calls -/

theorem keeps_printf : handling.Keeps bound (printf text) := Plain.keeps ⟨fun _ => rfl, rfl⟩

theorem keeps_perror : handling.Keeps bound (perror text) := Plain.keeps ⟨fun _ => rfl, rfl⟩

theorem keeps_getpid : handling.Keeps bound getpid := Plain.keeps ⟨fun _ => rfl, rfl⟩

theorem keeps_sleep : handling.Keeps bound (sleep n) := Plain.keeps ⟨fun _ => rfl, rfl⟩

theorem uses_read : handling.Uses bound (.fd fd) (read fd n) := On.uses ⟨fun _ => rfl, rfl⟩ rfl

theorem uses_write : handling.Uses bound (.fd fd) (write fd text) :=
  On.uses ⟨fun _ => rfl, rfl⟩ rfl

theorem uses_lseekSet {offset : ℤ} : handling.Uses bound (.fd fd) (lseekSet fd offset) :=
  On.uses ⟨fun _ => rfl, rfl⟩ rfl

theorem uses_lseekCur : handling.Uses bound (.fd fd) (lseekCur fd) :=
  On.uses ⟨fun _ => rfl, rfl⟩ rfl

theorem uses_fscanf {fmt : String} : handling.Uses bound (.stream stream) (fscanf stream fmt) :=
  On.uses ⟨fun _ => rfl, rfl⟩ rfl

/-- The standard output needs no opening. -/
theorem keeps_write_stdout : handling.Keeps bound (write 1 text) :=
  On.keeps ⟨fun _ => rfl, rfl⟩ ⟨1, by decide, rfl⟩ rfl fun _ => rfl

theorem uses_perror {h : Handle} : handling.Uses bound h (perror text) := keeps_perror.uses

theorem uses_printf {h : Handle} : handling.Uses bound h (printf text) := keeps_printf.uses

theorem uses_eachLine {body : List Char → γ → Program (Bool × γ)}
    (hbody : ∀ line c, handling.Keeps bound (body line c)) (hfuel : bound < fuel) (c : γ) :
    handling.Uses bound (.stream stream) (eachLine stream n body fuel c) :=
  uses_drain ⟨fun _ => rfl, rfl⟩ rfl (fun _ => rfl) hbody hfuel c

theorem uses_eachEntry {body : List Char → Program (Bool × Unit)}
    (hbody : ∀ name, handling.Keeps bound (body name)) (hfuel : bound < fuel) :
    handling.Uses bound (.dir dir) (eachEntry dir body fuel ()) :=
  uses_drain ⟨fun _ => rfl, rfl⟩ rfl (fun _ => rfl) (fun name _ => hbody name) hfuel ()

theorem closes_release {h : Handle} {k : Unit → Program α}
    (hk : ∀ u, handling.Keeps bound (k u)) :
    handling.Closes bound h (call (.release h) >>= k) := On.closes ⟨fun _ => rfl, rfl⟩ rfl hk

/-- A program may end with closing its handle. -/
theorem closes_last {h : Handle} : handling.Closes bound h (call (.release h)) :=
  On.closes ⟨fun _ => rfl, rfl⟩ rfl fun _ => keeps_ret ()

theorem keeps_acquire {r : Resource} (herror : ∀ e, handling.Keeps bound (k (.error e)))
    (hok : ∀ n, handling.Closes bound (r.handle n) (k (.ok n))) :
    handling.Keeps bound (call (.acquire r) >>= k) := by
  refine keeps_open rfl (fun ans hans => ?_) fun ans h hans => ?_
  · cases ans with
    | error e => exact herror e
    | ok n => cases hans
  · cases ans with
    | error e => cases hans
    | ok n =>
      cases hans
      exact hok n

/-! ### `ex01-file-descriptors` -/

theorem keeps_seekPart : handling.Keeps bound FileDescriptors.seekPart := by
  refine Keeps.bind keeps_printf fun _ => keeps_acquire (fun e => ?_) fun fd => ?_
  · exact Keeps.bind keeps_perror fun _ => keeps_ret 1
  · refine Uses.bind_closes uses_lseekSet fun pos => Uses.bind_closes uses_printf fun _ => ?_
    refine Uses.bind_closes uses_read fun bytes => Uses.bind_closes uses_printf fun _ => ?_
    refine Uses.bind_closes uses_lseekCur fun pos => Uses.bind_closes uses_printf fun _ => ?_
    exact closes_release fun _ => keeps_ret 0

theorem keeps_standardPart : handling.Keeps bound FileDescriptors.standardPart := by
  refine Keeps.bind keeps_printf fun _ => Keeps.bind keeps_printf fun _ => ?_
  refine Keeps.bind keeps_printf fun _ => Keeps.bind keeps_printf fun _ => ?_
  exact Keeps.bind keeps_write_stdout fun _ => keeps_seekPart

theorem keeps_readPart : handling.Keeps bound FileDescriptors.readPart := by
  refine Keeps.bind keeps_printf fun _ => keeps_acquire (fun e => ?_) fun fd => ?_
  · exact Keeps.bind keeps_perror fun _ => keeps_ret 1
  · refine Uses.bind_closes uses_printf fun _ => Uses.bind_closes uses_read fun bytes => ?_
    cases bytes with
    | none =>
      exact Uses.bind_closes uses_perror fun _ => closes_release fun _ => keeps_ret 1
    | some buf =>
      exact Uses.bind_closes uses_printf fun _ => closes_release fun _ => keeps_standardPart

theorem keeps_fileDescriptors : handling.Keeps bound FileDescriptors.main := by
  refine Keeps.bind keeps_printf fun _ => keeps_acquire (fun e => ?_) fun fd => ?_
  · exact Keeps.bind keeps_perror fun _ => keeps_ret 1
  · refine Uses.bind_closes uses_printf fun _ => Uses.bind_closes uses_write fun written => ?_
    cases written with
    | none =>
      exact Uses.bind_closes uses_perror fun _ => closes_release fun _ => keeps_ret 1
    | some n =>
      refine Uses.bind_closes uses_printf fun _ => closes_release fun _ => ?_
      exact Keeps.bind keeps_printf fun _ => keeps_readPart

/-! ### `ex02-proc-interface` -/

variable {R : Nearest 2} {junk : ℚ × ℚ}

theorem keeps_readProcUptime : handling.Keeps bound (ProcInterface.readProcUptime R junk) := by
  refine keeps_acquire (fun e => keeps_perror) fun fd => ?_
  refine Uses.bind_closes uses_read fun buf => ?_
  split
  · exact Uses.bind_closes uses_printf fun _ => Uses.bind_closes uses_printf fun _ =>
      closes_last
  · exact closes_last

theorem uses_printFirst (hfuel : bound < fuel) (count : ℕ) :
    handling.Uses bound (.stream stream) (ProcInterface.printFirst fuel count stream) := by
  refine uses_eachLine (fun line done => ?_) hfuel 0
  split
  · exact Keeps.bind keeps_printf fun _ => keeps_ret _
  · exact keeps_ret _

theorem keeps_readProcMeminfo (hfuel : bound < fuel) :
    handling.Keeps bound (ProcInterface.readProcMeminfo fuel) := by
  refine keeps_acquire (fun e => keeps_perror) fun stream => ?_
  exact Uses.bind_closes (uses_printFirst hfuel 5) fun _ => closes_last

theorem keeps_readProcCpuinfo (hfuel : bound < fuel) :
    handling.Keeps bound (ProcInterface.readProcCpuinfo fuel) := by
  refine keeps_acquire (fun e => keeps_perror) fun stream => ?_
  refine Uses.bind_closes (uses_eachLine (fun line _ => ?_) hfuel ()) fun _ => closes_last
  split
  · exact Keeps.bind keeps_printf fun _ => keeps_ret _
  · exact keeps_ret _

theorem keeps_readProcSelf (hfuel : bound < fuel) :
    handling.Keeps bound (ProcInterface.readProcSelf fuel) := by
  refine Keeps.bind keeps_getpid fun pid => Keeps.bind keeps_printf fun _ => ?_
  refine keeps_acquire (fun e => keeps_perror) fun stream => ?_
  exact Uses.bind_closes (uses_printFirst hfuel 8) fun _ => closes_last

theorem keeps_procInterface (hfuel : bound < fuel) :
    handling.Keeps bound (ProcInterface.main R junk fuel) := by
  refine Keeps.bind keeps_printf fun _ => Keeps.bind keeps_readProcUptime fun _ => ?_
  refine Keeps.bind keeps_printf fun _ => Keeps.bind (keeps_readProcMeminfo hfuel) fun _ => ?_
  refine Keeps.bind keeps_printf fun _ => Keeps.bind (keeps_readProcCpuinfo hfuel) fun _ => ?_
  refine Keeps.bind keeps_printf fun _ => Keeps.bind (keeps_readProcSelf hfuel) fun _ => ?_
  exact keeps_ret 0

/-! ### `ex03-sys-interface` -/

theorem keeps_readSysFile : handling.Keeps bound (SysInterface.readSysFile path) := by
  refine keeps_acquire (fun e => keeps_printf) fun fd => ?_
  refine Uses.bind_closes uses_read fun buf => ?_
  split
  · exact Uses.bind_closes uses_printf fun _ => closes_last
  · exact closes_last

theorem keeps_listSysDir (hfuel : bound < fuel) :
    handling.Keeps bound (SysInterface.listSysDir fuel path) := by
  refine keeps_acquire (fun e => keeps_printf) fun dir => ?_
  refine Uses.bind_closes (uses_eachEntry (fun name => ?_) hfuel) fun _ => closes_last
  split
  · exact keeps_ret _
  · exact Keeps.bind keeps_printf fun _ => keeps_ret _

theorem keeps_readZone (i : ℕ) (found : Bool) :
    handling.Keeps bound (SysInterface.readZone i found) := by
  refine keeps_acquire (fun e => keeps_ret _) fun fd => ?_
  refine Uses.bind_closes uses_read fun type => closes_release fun _ => ?_
  split
  · exact keeps_ret _
  refine keeps_acquire (fun e => keeps_ret _) fun fd => ?_
  refine Uses.bind_closes uses_read fun tempStr => closes_release fun _ => ?_
  split
  · exact keeps_ret _
  · exact Keeps.bind keeps_printf fun _ => keeps_ret _

theorem keeps_readCpuThermal : handling.Keeps bound SysInterface.readCpuThermal := by
  refine Keeps.bind (keeps_each keeps_readZone _ _) fun found => ?_
  split
  · exact keeps_ret ()
  · exact Keeps.bind keeps_printf fun _ => Keeps.bind keeps_printf fun _ => keeps_printf

theorem keeps_readInterface (name : List Char) :
    handling.Keeps bound (SysInterface.readInterface name) := by
  rw [SysInterface.readInterface]
  split
  · exact keeps_ret _
  split
  · exact keeps_ret _
  refine keeps_acquire (fun e => keeps_ret _) fun fd => ?_
  refine Uses.bind_closes uses_read fun buf => closes_release fun _ => ?_
  refine keeps_acquire (fun e => keeps_ret _) fun fd => ?_
  refine Uses.bind_closes uses_read fun buf => closes_release fun _ => ?_
  exact Keeps.bind keeps_printf fun _ => keeps_ret _

theorem keeps_readNetStats (hfuel : bound < fuel) :
    handling.Keeps bound (SysInterface.readNetStats fuel) := by
  refine keeps_acquire (fun e => keeps_perror) fun dir => ?_
  exact Uses.bind_closes (uses_eachEntry keeps_readInterface hfuel) fun _ => closes_last

theorem keeps_sysInterface (hfuel : bound < fuel) :
    handling.Keeps bound (SysInterface.main fuel) := by
  refine Keeps.bind keeps_printf fun _ => Keeps.bind keeps_readSysFile fun _ => ?_
  refine Keeps.bind keeps_printf fun _ => Keeps.bind keeps_readCpuThermal fun _ => ?_
  refine Keeps.bind keeps_printf fun _ => Keeps.bind (keeps_readNetStats hfuel) fun _ => ?_
  refine Keeps.bind keeps_printf fun _ => Keeps.bind (keeps_listSysDir hfuel) fun _ => ?_
  refine Keeps.bind keeps_printf fun _ => Keeps.bind (keeps_listSysDir hfuel) fun _ => ?_
  exact keeps_ret 0

/-! ### `ex06-system-monitor` -/

theorem keeps_readCpuStat (s : Monitor.CpuStat) :
    handling.Keeps bound (SystemMonitor.readCpuStat s) := by
  refine keeps_acquire (fun e => keeps_ret _) fun stream => ?_
  exact Uses.bind_closes uses_fscanf fun items => closes_release fun _ => keeps_ret _

theorem keeps_readMemInfo (hfuel : bound < fuel) (m : Monitor.MemInfo) :
    handling.Keeps bound (SystemMonitor.readMemInfo fuel m) := by
  refine keeps_acquire (fun e => keeps_ret _) fun stream => ?_
  refine Uses.bind_closes (uses_eachLine (fun line r => ?_) hfuel _) fun r => ?_
  · split
    · exact keeps_ret _
    · exact keeps_ret _
  · exact closes_release fun _ => keeps_ret _

theorem keeps_readUptime (uptime : ℚ) : handling.Keeps bound (SystemMonitor.readUptime uptime) := by
  refine keeps_acquire (fun e => keeps_ret _) fun stream => ?_
  exact Uses.bind_closes uses_fscanf fun items => closes_release fun _ => keeps_ret _

theorem keeps_collect (hfuel : bound < fuel) (l : Monitor.Locals) :
    handling.Keeps bound (SystemMonitor.collect fuel l) := by
  refine Keeps.bind (keeps_readCpuStat _) fun s1 => Keeps.bind keeps_sleep fun _ => ?_
  refine Keeps.bind (keeps_readCpuStat _) fun s2 => ?_
  refine Keeps.bind (keeps_readMemInfo hfuel _) fun mem => ?_
  exact Keeps.bind (keeps_readUptime _) fun uptime => keeps_ret _

theorem keeps_collectAll (hfuel : bound < fuel) (cycles : ℕ) (l : Monitor.Locals) :
    handling.Keeps bound (SystemMonitor.collectAll fuel cycles l) :=
  keeps_each (fun _ l => Keeps.bind (keeps_collect hfuel l) fun _ => keeps_ret _) _ l

/-! ### The programs -/

/-- The programs that read the system; the last is the collector thread of the monitor, for some
number of iterations. -/
inductive Main where
  | fileDescriptors
  | procInterface (R : Nearest 2) (junk : ℚ × ℚ)
  | sysInterface
  | systemMonitor (cycles : ℕ) (l : Monitor.Locals)

/-- A program, with enough fuel for streams of `bound` items. -/
def Main.program (bound : ℕ) : Main → Program Unit
  | fileDescriptors => FileDescriptors.main >>= fun _ => ret ()
  | procInterface R junk => ProcInterface.main R junk (bound + 1) >>= fun _ => ret ()
  | sysInterface => SysInterface.main (bound + 1) >>= fun _ => ret ()
  | systemMonitor cycles l => SystemMonitor.collectAll (bound + 1) cycles l >>= fun _ => ret ()

theorem keeps_main (main : Main) : handling.Keeps bound (main.program bound) := by
  cases main with
  | fileDescriptors => exact Keeps.bind keeps_fileDescriptors fun _ => keeps_ret ()
  | procInterface R junk =>
    exact Keeps.bind (keeps_procInterface (Nat.lt_succ_self bound)) fun _ => keeps_ret ()
  | sysInterface =>
    exact Keeps.bind (keeps_sysInterface (Nat.lt_succ_self bound)) fun _ => keeps_ret ()
  | systemMonitor cycles l =>
    exact Keeps.bind (keeps_collectAll (Nat.lt_succ_self bound) cycles l) fun _ => keeps_ret ()

end Posix

end CAcheRein
