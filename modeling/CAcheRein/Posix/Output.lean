import CAcheRein.Posix.Refinement
import CAcheRein.Text.Template

/-!
# The output of `ex02` and `ex03`

What the programs of `module5-linux-systems/ex02-proc-interface` and `ex03-sys-interface` print,
from the files they read.

## Main results

* `ProcInterface.prints_heads` : the first lines of `/proc/meminfo` and `/proc/self/status`, and
  one line of `/proc/cpuinfo`.
* `SysInterface.prints_main` : everything `ex03` prints.
* `SysInterface.netText_exact` : the counters of the network interfaces.
-/

namespace CAcheRein

namespace Posix

open Text Prog

variable {fs : FileSystem} {fuel bound size : ℕ} {text line : List Char} {path : List Char}

theorem cString_eq_self (h : ∀ c ∈ text, c.toNat ≠ 0) : cString text = text :=
  List.takeWhile_eq_self_iff.2 fun c hc => decide_eq_true (h c hc)

/-! ### `ex02-proc-interface` -/

namespace ProcInterface

/-- What an iteration of `printFirst` does. -/
def headStep (count : ℕ) (line : List Char) (done : ℕ) : (Bool × ℕ) × List Char :=
  if done < count then ((true, done + 1), cString line) else ((false, done), [])

theorem foldItems_headStep (count : ℕ) (lines : List (List Char)) (done : ℕ) :
    (foldItems (headStep count) lines done).2 =
      ((lines.take (count - done)).map cString).flatten := by
  induction lines generalizing done with
  | nil => rw [foldItems, List.take_nil, List.map_nil, List.flatten_nil]
  | cons line lines ih =>
    rw [foldItems, headStep]
    split
    · next hlt =>
      obtain ⟨k, hk⟩ := Nat.exists_eq_add_one.2 (Nat.sub_pos_of_lt hlt)
      have hrest : count - (done + 1) = k := by omega
      rw [if_pos rfl, ih, hrest, hk, List.take_succ_cons, List.map_cons, List.flatten_cons]
    · next hge =>
      have hzero : count - done = 0 := by omega
      rw [hzero]
      rfl

/-- `cpuinfo`: the first line with the label. -/
def modelStep (line : List Char) (_ : Unit) : (Bool × Unit) × List Char :=
  if "model name".toList <+: line then ((false, ()), cString line) else ((true, ()), [])

theorem foldItems_modelStep (lines : List (List Char)) :
    (foldItems modelStep lines ()).2 =
      cString ((lines.find? fun line => decide ("model name".toList <+: line)).getD []) := by
  induction lines with
  | nil => rfl
  | cons line lines ih =>
    by_cases hlabel : "model name".toList <+: line
    · simp only [foldItems, modelStep, if_pos hlabel, List.find?_cons, decide_eq_true hlabel]
      rfl
    · simp only [foldItems, modelStep, if_neg hlabel, List.find?_cons, decide_eq_false hlabel]
      exact ih

/-- A loop that prints the first lines of a file. -/
theorem prints_head {α : Type} {f : Except (List Char) ℕ → Program α} {k : ℕ → Program α} {a : α}
    {count : ℕ} (htext : fs.text path = some text)
    (hf : ∀ n, f (.ok n) = printFirst fuel count n >>= fun r => fclose n >>= fun _ => k r)
    (hfuel : (fgetsLines 512 [] text).length < fuel) (hk : ∀ r, Prints fs (k r) a []) :
    Prints fs (fopen path >>= f) a
      (((fgetsLines 512 [] text).take count).map cString).flatten := by
  have hbody : ∀ line done, Prints fs
      (if done < count then printf (cString line) >>= fun _ => ret (true, done + 1)
        else ret (false, done)) (headStep count line done).1 (headStep count line done).2 := by
    intro line done
    rw [headStep]
    split
    · exact Prints.last (prints_printf _) (prints_ret _)
    · exact prints_ret _
  have hloop := prints_lines htext rfl hf hfuel (fun line _ done => hbody line done) (hk _)
  rw [List.append_nil, foldItems_headStep, Nat.sub_zero] at hloop
  exact hloop

/-- A piece of a file without NULs is printed whole. -/
theorem cString_of_mem (hno : ∀ c ∈ text, c.toNat ≠ 0) (hline : line ∈ fgetsLines size [] text) :
    cString line = line := by
  refine cString_eq_self fun c hc => hno c ?_
  have hflat : c ∈ (fgetsLines size [] text).flatten := List.mem_flatten.2 ⟨line, hline, hc⟩
  rw [flatten_fgetsLines] at hflat
  exact hflat

theorem map_cString_fgetsLines (hno : ∀ c ∈ text, c.toNat ≠ 0) (size : ℕ) :
    (fgetsLines size [] text).map cString = fgetsLines size [] text :=
  (List.map_congr_left fun _ hline => cString_of_mem hno hline).trans (List.map_id _)

/-- `out` is the beginning of the text: the first lines of it, if none fills the buffer. -/
structure HeadOf (count : ℕ) (text out : List Char) : Prop where
  beginning : out <+: text
  lines : (∀ l ∈ text.splitOn '\n', l.length + 1 < 512) →
    out = ((linesOf text).take count).flatten

/-- `out` is a piece of the text with the label, or nothing: the first line with the label, if
none fills the buffer. -/
structure ModelOf (text out : List Char) : Prop where
  piece : out = [] ∨ "model name".toList <+: out ∧ out <:+: text
  line : (∀ l ∈ text.splitOn '\n', l.length + 1 < 512) →
    out = ((linesOf text).find? fun line => decide ("model name".toList <+: line)).getD []

theorem headOf (count : ℕ) (text : List Char) :
    HeadOf count text ((fgetsLines 512 [] text).take count).flatten where
  beginning := by
    refine ⟨((fgetsLines 512 [] text).drop count).flatten, ?_⟩
    rw [← List.flatten_append, List.take_append_drop, flatten_fgetsLines]
    rfl
  lines h := by rw [fgetsLines_eq_linesOf h]

theorem modelOf (text : List Char) : ModelOf text
    (((fgetsLines 512 [] text).find? fun line => decide ("model name".toList <+: line)).getD
      []) where
  piece := by
    cases hfind : (fgetsLines 512 [] text).find? fun line =>
        decide ("model name".toList <+: line) with
    | none => exact .inl rfl
    | some line =>
      have hlabel := List.find?_some hfind
      refine .inr ⟨of_decide_eq_true hlabel, ?_⟩
      obtain ⟨before, after, heq⟩ := List.append_of_mem (List.mem_of_find?_eq_some hfind)
      refine ⟨before.flatten, after.flatten, ?_⟩
      have hflat := flatten_fgetsLines 512 [] text
      rw [heq, List.flatten_append, List.flatten_cons, ← List.append_assoc] at hflat
      exact hflat
  line h := by rw [fgetsLines_eq_linesOf h]

/-- What `read_proc_meminfo` prints of a file. -/
theorem prints_readProcMeminfo (htext : fs.text "/proc/meminfo".toList = some text)
    (hno : ∀ c ∈ text, c.toNat ≠ 0) (hsmall : fs.Small bound) :
    Prints fs (readProcMeminfo (bound + 1)) () ((fgetsLines 512 [] text).take 5).flatten := by
  rw [← map_cString_fgetsLines hno, ← List.map_take]
  refine prints_head htext (fun _ => rfl) ?_ fun _ => prints_ret ()
  exact Nat.lt_succ_of_le (Nat.le_trans (length_fgetsLines_le 512 text) (hsmall.text _ _ htext))

/-- What `read_proc_self` prints of a file. -/
theorem prints_readProcSelf (htext : fs.text "/proc/self/status".toList = some text)
    (hno : ∀ c ∈ text, c.toNat ≠ 0) (hsmall : fs.Small bound) :
    Prints fs (readProcSelf (bound + 1)) ()
      ("PID: ".toList ++ zeroPadded 0 fs.pid ++ ['\n'] ++
        ((fgetsLines 512 [] text).take 8).flatten) := by
  rw [← map_cString_fgetsLines hno, ← List.map_take, ← List.nil_append (_ ++ _ ++ _ ++ _)]
  refine Prints.bind prints_getpid (Prints.bind (prints_printf _) ?_)
  refine prints_head htext (fun _ => rfl) ?_ fun _ => prints_ret ()
  exact Nat.lt_succ_of_le (Nat.le_trans (length_fgetsLines_le 512 text) (hsmall.text _ _ htext))

/-- What `read_proc_cpuinfo` prints of a file. -/
theorem prints_readProcCpuinfo (htext : fs.text "/proc/cpuinfo".toList = some text)
    (hno : ∀ c ∈ text, c.toNat ≠ 0) (hsmall : fs.Small bound) :
    Prints fs (readProcCpuinfo (bound + 1)) ()
      (((fgetsLines 512 [] text).find? fun line => decide ("model name".toList <+: line)).getD
        []) := by
  have hbody : ∀ (line : List Char) (u : Unit), Prints fs
      (if "model name".toList <+: line then printf (cString line) >>= fun _ => ret (false, ())
        else ret (true, ())) (modelStep line u).1 (modelStep line u).2 := by
    intro line u
    rw [modelStep]
    split
    · exact Prints.last (prints_printf _) (prints_ret _)
    · exact prints_ret _
  have hfuel := Nat.lt_succ_of_le
    (Nat.le_trans (length_fgetsLines_le 512 text) (hsmall.text _ _ htext))
  have hloop : Prints fs (readProcCpuinfo (bound + 1)) () _ :=
    prints_lines htext rfl (fun _ => rfl) hfuel (fun line _ u => hbody line u) (prints_ret ())
  rw [List.append_nil, foldItems_modelStep] at hloop
  -- a piece of a file without NULs has none either
  have hfound : cString (((fgetsLines 512 [] text).find? fun line =>
      decide ("model name".toList <+: line)).getD []) =
      ((fgetsLines 512 [] text).find? fun line =>
        decide ("model name".toList <+: line)).getD [] := by
    cases hfind : (fgetsLines 512 [] text).find? fun line =>
        decide ("model name".toList <+: line) with
    | none => rfl
    | some line => exact cString_of_mem hno (List.mem_of_find?_eq_some hfind)
  rw [hfound] at hloop
  exact hloop

/-- **What `ex02` shows of its files.**  Of files without NULs, `read_proc_meminfo` and
`read_proc_self` print the beginning, and `read_proc_cpuinfo` one piece with the label or nothing;
if no line fills the buffer these are the first five lines, the first eight, and the first line
with the label. -/
theorem prints_heads {meminfo status cpuinfo : List Char}
    (hmeminfo : fs.text "/proc/meminfo".toList = some meminfo)
    (hstatus : fs.text "/proc/self/status".toList = some status)
    (hcpuinfo : fs.text "/proc/cpuinfo".toList = some cpuinfo)
    (hno : ∀ c ∈ meminfo ++ status ++ cpuinfo, c.toNat ≠ 0) (hsmall : fs.Small bound) :
    (∃ out, Prints fs (readProcMeminfo (bound + 1)) () out ∧ HeadOf 5 meminfo out) ∧
      (∃ out, Prints fs (readProcSelf (bound + 1)) ()
        ("PID: ".toList ++ zeroPadded 0 fs.pid ++ ['\n'] ++ out) ∧ HeadOf 8 status out) ∧
      ∃ out, Prints fs (readProcCpuinfo (bound + 1)) () out ∧ ModelOf cpuinfo out := by
  refine ⟨⟨_, prints_readProcMeminfo hmeminfo (fun c hc => hno c ?_) hsmall, headOf 5 meminfo⟩,
    ⟨_, prints_readProcSelf hstatus (fun c hc => hno c ?_) hsmall, headOf 8 status⟩,
    ⟨_, prints_readProcCpuinfo hcpuinfo (fun c hc => hno c ?_) hsmall, modelOf cpuinfo⟩⟩
  · exact List.mem_append_left _ (List.mem_append_left _ hc)
  · exact List.mem_append_left _ (List.mem_append_right _ hc)
  · exact List.mem_append_right _ hc

/-- Files that have more lines than are shown. -/
theorem prints_heads_sample :
    (∃ out, Prints .sample (readProcMeminfo 101) () out ∧ HeadOf 5 meminfoSample out) ∧
      (∃ out, Prints .sample (readProcSelf 101) () ("PID: 1\n".toList ++ out) ∧
        HeadOf 8 statusSample out) ∧
      ∃ out, Prints .sample (readProcCpuinfo 101) () out ∧ ModelOf cpuinfoSample out := by
  have hall : (meminfoSample ++ statusSample ++ cpuinfoSample).all
      (fun c => decide (c.toNat ≠ 0)) = true := by decide +kernel
  refine prints_heads rfl rfl rfl (fun c hc => ?_) FileSystem.small_sample
  exact of_decide_eq_true (List.all_eq_true.1 hall c hc)

end ProcInterface

/-! ### `ex03-sys-interface` -/

namespace SysInterface

/-- What `read_sys_file` prints. -/
def sysFileText (fs : FileSystem) (path : List Char) : List Char :=
  match fs.text path with
  | none => "cannot open ".toList ++ path ++ ": ".toList ++ fs.message path ++ ['\n']
  | some text =>
    if text.take 511 = [] then []
    else path ++ ": ".toList ++ cString (stripped (text.take 511)) ++ ['\n']

theorem prints_readSysFile (path : List Char) :
    Prints fs (readSysFile path) () (sysFileText fs path) := by
  rw [readSysFile, sysFileText]
  cases htext : fs.text path with
  | none => exact prints_openFd_error htext (prints_printf _)
  | some text =>
    refine prints_openFd htext fun n st hn hfd => ?_
    have hans : (fs.env st (.read n 511)).1 = some (text.take 511) := by
      simp only [FileSystem.env, hfd, List.drop_zero]
    refine PrintsFrom.call rfl (frame_read n 511 st) ?_
    have hclose : ∀ st', n ≤ st'.fresh → PrintsFrom fs n st' (close n) () [] :=
      fun st' hn' => printsFrom_release hn' (prints_ret ())
    have hn' : n ≤ (fs.env st (.read n 511)).2.fresh := Nat.le_of_lt hn
    simp only [hans, Option.getD_some]
    by_cases hempty : text.take 511 = []
    · rw [if_pos hempty, if_neg (not_not.2 hempty)]
      exact hclose _ hn'
    · rw [if_neg hempty, if_pos hempty]
      refine PrintsFrom.last ((prints_printf _).from hn') fun st' hframe => ?_
      exact hclose st' (Nat.le_trans hn' hframe.fresh)

/-- What `list_sys_dir` prints: the entries that are not hidden. -/
def dirText (fs : FileSystem) (path : List Char) : List Char :=
  match fs.names path with
  | none => "cannot open ".toList ++ path ++ ": ".toList ++ fs.message path ++ ['\n']
  | some names =>
    names.flatMap fun name => if name.head? = some '.' then [] else ' ' :: name ++ ['\n']

/-- A loop that goes over all entries. -/
theorem foldItems_all (g : List Char → List Char) (names : List (List Char)) :
    (foldItems (fun name (_ : Unit) => ((true, ()), g name)) names ()).2 = names.flatMap g := by
  induction names with
  | nil => rfl
  | cons name names ih => rw [foldItems, if_pos rfl, ih, List.flatMap_cons]

theorem prints_listSysDir (hsmall : fs.Small bound) (path : List Char) :
    Prints fs (listSysDir (bound + 1) path) () (dirText fs path) := by
  rw [dirText]
  cases hnames : fs.names path with
  | none => exact prints_opendir_error hnames (prints_printf _)
  | some names =>
    have hbody : ∀ name, Prints fs
        (if name.head? = some '.' then ret (true, ())
          else printf (' ' :: name ++ ['\n']) >>= fun _ => ret (true, ())) (true, ())
        (if name.head? = some '.' then [] else ' ' :: name ++ ['\n']) := by
      intro name
      split
      · exact prints_ret _
      · exact Prints.last (prints_printf _) (prints_ret _)
    have hloop : Prints fs (listSysDir (bound + 1) path) () _ :=
      prints_entries
        (g := fun name => ((true, ()), if name.head? = some '.' then [] else ' ' :: name ++ ['\n']))
        hnames (fun _ => rfl) (Nat.lt_succ_of_le (hsmall.names _ _ hnames))
        (fun name _ => hbody name) (prints_ret ())
    rw [foldItems_all, List.append_nil] at hloop
    exact hloop

/-- A counter as it is read from a file. -/
def counterOf (text : List Char) : ℤ := atol (cString (text.take 63))

/-- What an iteration of `read_net_stats` prints. -/
def netLines (fs : FileSystem) (name : List Char) : List Char :=
  if name.head? = some '.' ∨ name = "lo".toList then []
  else
    match fs.text (snprintf 512 (counterPath name "rx_bytes")),
      fs.text (snprintf 512 (counterPath name "tx_bytes")) with
    | some rx, some tx => netLine name (counterOf rx) (counterOf tx)
    | _, _ => []

theorem prints_readInterface (name : List Char) :
    Prints fs (readInterface name) (true, ()) (netLines fs name) := by
  rw [readInterface, netLines]
  by_cases hhidden : name.head? = some '.'
  · rw [if_pos hhidden, if_pos (.inl hhidden)]
    exact prints_ret _
  by_cases hlo : name = "lo".toList
  · rw [if_neg hhidden, if_pos hlo, if_pos (.inr hlo)]
    exact prints_ret _
  rw [if_neg hhidden, if_neg hlo, if_neg (not_or.2 ⟨hhidden, hlo⟩)]
  cases hrx : fs.text (snprintf 512 (counterPath name "rx_bytes")) with
  | none => exact prints_openFd_error hrx (prints_ret _)
  | some rx =>
    refine prints_readFile hrx (fun _ => rfl) ?_
    cases htx : fs.text (snprintf 512 (counterPath name "tx_bytes")) with
    | none => exact prints_openFd_error htx (prints_ret _)
    | some tx =>
      refine prints_readFile htx (fun _ => rfl) ?_
      exact Prints.last (prints_printf _) (prints_ret _)

/-- What `read_net_stats` prints. -/
def netText (fs : FileSystem) : List Char :=
  match fs.names "/sys/class/net".toList with
  | none => []
  | some names => names.flatMap (netLines fs)

theorem prints_readNetStats (hsmall : fs.Small bound) :
    Prints fs (readNetStats (bound + 1)) () (netText fs) := by
  rw [netText]
  cases hnames : fs.names "/sys/class/net".toList with
  | none => exact prints_opendir_error hnames (prints_perror _)
  | some names =>
    have hloop : Prints fs (readNetStats (bound + 1)) () _ :=
      prints_entries (g := fun name => ((true, ()), netLines fs name)) hnames (fun _ => rfl)
        (Nat.lt_succ_of_le (hsmall.names _ _ hnames)) (fun name _ => prints_readInterface name)
        (prints_ret ())
    rw [foldItems_all, List.append_nil] at hloop
    exact hloop

/-- What `main` prints. -/
def mainText (fs : FileSystem) : List Char :=
  "=== /sys/kernel/hostname ===\n".toList ++ (
    sysFileText fs "/proc/sys/kernel/hostname".toList ++ (
    "\n=== CPU thermal zones ===\n".toList ++ (
    Thermal.readCpuThermal fs.text ++ (
    "\n=== network interface stats ===\n".toList ++ (
    netText fs ++ (
    "\n=== /sys/block (block devices) ===\n".toList ++ (
    dirText fs "/sys/block".toList ++ (
    "\n=== /sys/class/net (network interface) ===\n".toList ++
    dirText fs "/sys/class/net".toList))))))))

/-- **Everything `ex03` prints**, and that it ends. -/
theorem prints_main (hsmall : fs.Small bound) : Prints fs (main (bound + 1)) 0 (mainText fs) := by
  refine Prints.bind (prints_printf _) (Prints.bind (prints_readSysFile _) ?_)
  refine Prints.bind (prints_printf _) (Prints.bind prints_readCpuThermal ?_)
  refine Prints.bind (prints_printf _) (Prints.bind (prints_readNetStats hsmall) ?_)
  refine Prints.bind (prints_printf _) (Prints.bind (prints_listSysDir hsmall _) ?_)
  exact Prints.bind (prints_printf _) (Prints.last (prints_listSysDir hsmall _) (prints_ret 0))

theorem prints_main_sample : Prints .sample (main 101) 0 (mainText .sample) :=
  prints_main FileSystem.small_sample

/-! ### The counters -/

/-- What the file of a counter holds. -/
def counterFile (c : UInt64) : List Char := digits c.toNat ++ ['\n']

/-- What is shown of a counter: `atol` has no more. -/
def shown (c : UInt64) : ℤ := min c.toNat (2 ^ 63 - 1)

/-- A counter is read exactly, as far as a `long` goes. -/
theorem counterOf_counterFile (c : UInt64) : counterOf (counterFile c) = shown c := by
  have hlt := c.toNat_lt
  have hdigits : (digits c.toNat).length ≤ 20 :=
    (Nat.length_toDigits_le_iff (by decide) (by decide)).2 (by omega)
  have hlen : (counterFile c).length ≤ 63 := by
    rw [counterFile, List.length_append, List.length_singleton]
    omega
  have hno : ∀ ch ∈ counterFile c, ch.toNat ≠ 0 := by
    intro ch hch
    rcases List.mem_append.1 hch with hdigit | hnewline
    · have hrange := Char.isDigit_iff_toNat.1 (isDigit_of_mem_digits hdigit)
      have hzero : '0'.toNat = 48 := rfl
      omega
    · rw [List.mem_singleton.1 hnewline]
      decide
  have hspace := digits_stops not_space_of_isDigit c.toNat ['\n']
  rw [counterOf, List.take_of_length_le hlen, cString_eq_self hno, atol, counterFile,
    hspace.dropWhile_eq_self, readInt_digits c.toNat (stops_cons rfl _), shown]
  dsimp only
  rw [Rat.num_natCast, clampLong]
  omega

/-- Two numbers are shown alike: they are the same, or neither is less than the largest `long`. -/
def Alike (c c' : UInt64) : Prop := c = c' ∨ 2 ^ 63 - 1 ≤ c.toNat ∧ 2 ^ 63 - 1 ≤ c'.toNat

theorem shown_eq_iff {c c' : UInt64} : shown c = shown c' ↔ Alike c c' := by
  rw [shown, shown, Alike, ← UInt64.toNat_inj]
  omega

/-- The paths of the counters fit the buffer. -/
theorem snprintf_counterPath {name : List Char} (hname : name.length ≤ 255) {counter : String}
    (hcounter : counter.length ≤ 200) :
    snprintf 512 (counterPath name counter) = counterPath name counter := by
  have hdir : "/sys/class/net/".length = 15 := by decide
  have hsub : "/statistics/".length = 12 := by decide
  have hpath : counterPath name counter = "/sys/class/net/".toList ++ name ++
      "/statistics/".toList ++ counter.toList := rfl
  have hlen : (counterPath name counter).length ≤ 511 := by
    have hsum : 15 + name.length + 12 + counter.length ≤ 511 := by omega
    rw [hpath, List.length_append, List.length_append, List.length_append, String.length_toList,
      String.length_toList, String.length_toList, hdir, hsub]
    exact hsum
  rw [snprintf, List.take_of_length_le hlen]

/-- The line of an interface as a template. -/
def netTemplate (name : List Char) (rx tx : ℤ) : List (List Char × Printed) :=
  [(' ' :: name ++ ": rx=".toList, .int 0 rx), (" bytes tx=".toList, .int 0 tx)]

/-- The line of an interface determines its numbers. -/
theorem netLine_inj {name : List Char} {rx tx rx' tx' : ℤ} :
    netLine name rx tx = netLine name rx' tx' ↔ rx = rx' ∧ tx = tx' := by
  refine ⟨fun h => ?_, fun ⟨hrx, htx⟩ => by rw [hrx, htx]⟩
  have hrender : ∀ rx tx : ℤ,
      netLine name rx tx = render " bytes\n".toList (netTemplate name rx tx) := by
    intro rx tx
    simp only [netLine, netTemplate, render, Printed.int, List.append_assoc, List.cons_append]
  rw [hrender, hrender] at h
  have hform : directives " bytes\n".toList (netTemplate name rx tx) =
      directives " bytes\n".toList (netTemplate name rx' tx') := rfl
  have hvalues := values_of_render_eq rfl rfl hform h
  simpa [netTemplate, Printed.int] using hvalues

/-- **The counters of the interfaces.**  If every counter of an interface that is there holds a
64-bit number, `read_net_stats` prints one line for each interface that is not hidden, is not the
loopback and has both counters, in the order of the directory; the line shows both numbers, up to
the largest `long`, and two lines with one name are the same only if their numbers are the same or
are both at least that. -/
theorem netText_exact (names : List (List Char)) (rx tx : List Char → Option UInt64)
    (hnames : fs.names "/sys/class/net".toList = some names)
    (hshort : ∀ name ∈ names, name.length ≤ 255)
    (hrx : ∀ name ∈ names, fs.text (counterPath name "rx_bytes") = (rx name).map counterFile)
    (htx : ∀ name ∈ names, fs.text (counterPath name "tx_bytes") = (tx name).map counterFile)
    (hsmall : fs.Small bound) :
    Prints fs (readNetStats (bound + 1)) () (names.flatMap fun name =>
      if name.head? = some '.' ∨ name = "lo".toList then []
      else ((rx name).bind fun r => (tx name).map fun t =>
        netLine name (shown r) (shown t)).getD []) ∧
      ∀ name r t r' t', netLine name (shown r) (shown t) = netLine name (shown r') (shown t') ↔
        Alike r r' ∧ Alike t t' := by
  refine ⟨?_, fun name r t r' t' => by rw [netLine_inj, shown_eq_iff, shown_eq_iff]⟩
  have hprints := prints_readNetStats hsmall
  have htext : netText fs = names.flatMap (netLines fs) := by
    rw [netText, hnames]
  rw [htext] at hprints
  refine (List.flatMap_congr fun name hname => ?_) ▸ hprints
  rw [netLines]
  split
  · rfl
  · rw [snprintf_counterPath (hshort name hname) (by decide),
      snprintf_counterPath (hshort name hname) (by decide), hrx name hname, htx name hname]
    cases rx name with
    | none => rfl
    | some r =>
      cases tx name with
      | none => rfl
      | some t =>
        simp only [Option.map_some, Option.bind_some, Option.getD_some, counterOf_counterFile]

/-- One interface beside the loopback. -/
theorem netText_exact_sample :
    Prints .sample (readNetStats 101) () " eth0: rx=70 bytes tx=9 bytes\n".toList ∧
      ∀ name r t r' t', netLine name (shown r) (shown t) = netLine name (shown r') (shown t') ↔
        Alike r r' ∧ Alike t t' :=
  netText_exact ["lo".toList, "eth0".toList]
    (fun name => if name = "eth0".toList then some 70 else none)
    (fun name => if name = "eth0".toList then some 9 else none)
    rfl (by decide) (by decide) (by decide) FileSystem.small_sample

end SysInterface

end Posix

end CAcheRein
