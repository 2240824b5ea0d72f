import CAcheRein.Monitor.Dashboard
import CAcheRein.Monitor.MemInfo

/-!
# From the files to the dashboard

What the monitor's files show of the counters behind them, in the form in which they are written,
with any spaces and anything behind the part that is read.  A reader gets the counters back, and
so every dashboard of a run that finds such files shows the counters of one of its cycles.

## Main results

* `fetch_eq` : the reads of a cycle, on such files.
* `published_of_run` : the records that are published are those of the cycles, in their order.
* `dashboards_show_kernel` : what the dashboards of a run show.
-/

namespace CAcheRein

namespace Monitor

open Text

/-- The counters behind the files at some moment, in the range of `long`; the uptime in hundredths
of a second. -/
structure Kernel where
  user : ℕ
  nice : ℕ
  system : ℕ
  idle : ℕ
  memTotal : ℕ
  memFree : ℕ
  memAvailable : ℕ
  uptime : ℕ
  jiffies_lt : user + nice + system + idle < 2 ^ 63
  memTotal_lt : memTotal < 2 ^ 63
  memFree_le : memFree ≤ memTotal
  memAvailable_le : memAvailable ≤ memTotal
  uptime_lt : uptime < 2 ^ 50

namespace Kernel

variable (k k' : Kernel)

def busy : ℕ := k.user + k.nice + k.system

def all : ℕ := k.busy + k.idle

/-- The counters do not go down. -/
structure Le : Prop where
  busy : k.busy ≤ k'.busy
  idle : k.idle ≤ k'.idle

def cpuStat : CpuStat := ⟨k.user, k.nice, k.system, k.idle⟩

def memInfo : MemInfo := ⟨k.memTotal, k.memFree, k.memAvailable⟩

/-- What the reads of a cycle between two moments are to get. -/
def locals : Locals := ⟨k.cpuStat, k'.cpuStat, k'.memInfo, double (k'.uptime / 100)⟩

/-- What a dashboard of such a cycle is to show. -/
def figures : Figures where
  seconds := (k'.uptime / 100 : ℕ)
  usage := ((k'.busy : ℚ) - k.busy) / (k'.all - k.all) * 100
  totalKb := k'.memTotal
  availKb := k'.memAvailable

end Kernel

/-- Some spaces. -/
def spaces (n : ℕ) : List Char := List.replicate n ' '

/-- `/proc/stat` starts with the counters. -/
def StatShows (k : Kernel) (text : List Char) : Prop :=
  ∃ a b c d rest, Stops Char.isDigit rest ∧
    text = "cpu".toList ++ (spaces a ++ (digits k.user ++ (spaces (b + 1) ++ (digits k.nice ++
      (spaces (c + 1) ++ (digits k.system ++ (spaces (d + 1) ++ (digits k.idle ++ rest))))))))

/-- A line of `/proc/meminfo`, without its newline. -/
def memLine (label : MemLabel) (gap n : ℕ) : List Char :=
  label.text ++ (spaces gap ++ (digits n ++ " kB".toList))

/-- `/proc/meminfo` starts with three lines, and has no long ones. -/
def MemShows (k : Kernel) (text : List Char) : Prop :=
  (∃ a b c rest, text = memLine .total a k.memTotal ++ '\n' :: (memLine .free b k.memFree ++
    '\n' :: (memLine .available c k.memAvailable ++ '\n' :: rest))) ∧
  ∀ line ∈ text.splitOn '\n', line.length < 128

/-- `/proc/uptime` starts with the uptime. -/
def UptimeShows (k : Kernel) (text : List Char) : Prop :=
  ∃ rest, Delimited rest ∧ text = fixed 2 false k.uptime ++ rest

/-- The files a cycle finds show the counters, first at one moment and then at another. -/
structure Reads.Shows (r : Reads) (k k' : Kernel) : Prop where
  first : ∃ text, r.first = some text ∧ StatShows k text
  second : ∃ text, r.second = some text ∧ StatShows k' text
  mem : ∃ text, r.mem = some text ∧ MemShows k' text
  uptime : ∃ text, r.uptime = some text ∧ UptimeShows k' text

variable {k k' : Kernel} {text rest : List Char}

/-! ### The readers -/

theorem dropWhile_spaces (n : ℕ) (h : Stops isSpace rest) :
    (spaces n ++ rest).dropWhile isSpace = rest := by
  refine dropWhile_append_of_stops (fun c hc => ?_) h
  rw [List.eq_of_mem_replicate hc]
  rfl

/-- A number behind some spaces. -/
theorem scan_blank_digits (gap n : ℕ) (h : Stops Char.isDigit rest) (ds : List Directive) :
    scan (.blank :: .conv .int :: ds) (spaces gap ++ (digits n ++ rest)) =
      ((n : ℚ) :: (scan ds rest).1, (scan ds rest).2) := by
  rw [scan_blank, dropWhile_spaces gap (digits_stops not_space_of_isDigit n rest)]
  exact scan_int_digits ds n h

theorem stops_spaces (n : ℕ) (rest : List Char) : Stops Char.isDigit (spaces (n + 1) ++ rest) :=
  stops_cons rfl _

/-- **`read_cpu_stat`** gets the counters. -/
theorem readCpuStat_shows (h : StatShows k text) (s : CpuStat) :
    readCpuStat (some text) s = (0, k.cpuStat) := by
  obtain ⟨a, b, c, d, rest, hrest, rfl⟩ := h
  have hlt := k.jiffies_lt
  have hformat : format "cpu %ld %ld %ld %ld".toList = "cpu".toList.map .lit ++
      [.blank, .conv .int, .blank, .conv .int, .blank, .conv .int, .blank, .conv .int] := rfl
  simp only [readCpuStat, hformat, scan_lits]
  rw [scan_blank_digits a _ (stops_spaces b _), scan_blank_digits _ _ (stops_spaces c _),
    scan_blank_digits _ _ (stops_spaces d _), scan_blank_digits _ _ hrest, scan_nil]
  simp only [assign, List.getElem?_cons_zero, List.getElem?_cons_succ, Option.map_some,
    Option.getD_some, Rat.num_natCast, clampLong_natCast (by omega : k.user < 2 ^ 63),
    clampLong_natCast (by omega : k.nice < 2 ^ 63),
    clampLong_natCast (by omega : k.system < 2 ^ 63),
    clampLong_natCast (by omega : k.idle < 2 ^ 63)]
  rfl

/-- **`read_uptime`** gets the uptime. -/
theorem readUptime_shows (h : UptimeShows k text) (u : ℚ) :
    readUptime (some text) u = (0, double (k.uptime / 100)) := by
  obtain ⟨rest, hrest, rfl⟩ := h
  have hformat : format "%lf".toList = [.conv .real] := rfl
  have hspace : (fixed 2 false k.uptime ++ rest).dropWhile isSpace =
      fixed 2 false k.uptime ++ rest := by
    refine Stops.dropWhile_eq_self ?_
    rw [fixed, List.append_assoc]
    exact digits_stops not_space_of_isDigit _ _
  have hread : Conversion.real.read ((fixed 2 false k.uptime ++ rest).dropWhile isSpace) =
      some ((k.uptime : ℚ) / 10 ^ 2, rest) := by
    rw [hspace]
    exact readReal_fixed Nat.two_pos false k.uptime hrest
  have hhundred : (10 : ℚ) ^ 2 = 100 := by norm_num
  simp only [readUptime, hformat, scan_conv hread, scan_nil, hhundred, List.length_singleton,
    if_true, List.getElem?_cons_zero, Option.map_some, Option.getD_some]

/-- A line of `/proc/meminfo` has its entry. -/
theorem lineEntry_memLine (label : MemLabel) (gap : ℕ) {n : ℕ} (h : n < 2 ^ 63) :
    lineEntry (memLine label gap n) = some (label, (n : ℤ)) := by
  refine entry_iff.1 ?_
  have hblank : Stops isSpace (digits n ++ " kB".toList) :=
    digits_stops not_space_of_isDigit n _
  have hstop : Stops Char.isDigit " kB".toList := stops_cons rfl _
  rw [Entry, memLine, labelled_append, dropWhile_spaces gap hblank, readInt_digits n hstop,
    Option.map_some, Rat.num_natCast, clampLong_natCast h]

theorem newline_not_mem_memLine (label : MemLabel) (gap n : ℕ) :
    '\n' ∉ memLine label gap n := by
  have hlabel : '\n' ∉ label.text := by cases label <;> decide
  have hspaces : '\n' ∉ spaces gap := fun h => absurd (List.eq_of_mem_replicate h) (by decide)
  have hdigits : '\n' ∉ digits n := fun h => absurd (isDigit_of_mem_digits h) (by decide)
  have hunit : '\n' ∉ " kB".toList := by decide
  simp only [memLine, List.mem_append, not_or]
  exact ⟨hlabel, hspaces, hdigits, hunit⟩

/-- **`read_mem_info`** gets the three numbers. -/
theorem readMemInfo_shows (h : MemShows k text) (m : MemInfo) :
    readMemInfo (some text) m = (0, k.memInfo) := by
  obtain ⟨⟨a, b, c, rest, htext⟩, hshort⟩ := h
  have hsplit : text.splitOn '\n' = memLine .total a k.memTotal :: memLine .free b k.memFree ::
      memLine .available c k.memAvailable :: rest.splitOn '\n' := by
    have hline : ∀ label gap n rest, (memLine label gap n ++ '\n' :: rest).splitOn '\n' =
        memLine label gap n :: rest.splitOn '\n' := fun label gap n rest =>
      List.splitOn_append_cons_self_of_not_mem (newline_not_mem_memLine label gap n) rest
    rw [htext, hline, hline, hline]
  have hentries : entries (text.splitOn '\n') = (.total, (k.memTotal : ℤ)) ::
      (.free, (k.memFree : ℤ)) :: (.available, (k.memAvailable : ℤ)) ::
        entries (rest.splitOn '\n') := by
    have htotal := k.memTotal_lt
    have hfree := k.memFree_le
    have havailable := k.memAvailable_le
    rw [hsplit, entries_cons, entries_cons, entries_cons, lineEntry_memLine _ _ htotal,
      lineEntry_memLine _ _ (hfree.trans_lt htotal),
      lineEntry_memLine _ _ (havailable.trans_lt htotal)]
    rfl
  have hthree : 3 ≤ (labels text).length := by
    rw [labels, hentries]
    simp
  rw [readMemInfo_eq hshort, if_pos hthree, hentries]
  rfl

/-- **The reads of a cycle** get what the files show, whatever its variables held. -/
theorem fetch_eq {r : Reads} (h : r.Shows k k') (l : Locals) : l.fetch r = k.locals k' := by
  obtain ⟨first, hfirst, hshow⟩ := h.first
  obtain ⟨second, hsecond, hshow'⟩ := h.second
  obtain ⟨mem, hmem, hmeminfo⟩ := h.mem
  obtain ⟨uptime, huptime, hshows⟩ := h.uptime
  rw [Locals.fetch, hfirst, hsecond, hmem, huptime, readCpuStat_shows hshow,
    readCpuStat_shows hshow', readMemInfo_shows hmeminfo, readUptime_shows hshows]
  rfl

/-- Such readings are sane. -/
theorem sane_locals (h : k.Le k') : (k.locals k').Sane := by
  have hbusy := h.busy
  have hidle := h.idle
  have hlt := k'.jiffies_lt
  have havailable := k'.memAvailable_le
  simp only [Kernel.busy] at hbusy
  constructor
  · simp only [Kernel.locals, Kernel.cpuStat, CpuStat.busy]
    omega
  · simp only [Kernel.locals, Kernel.cpuStat, CpuStat.busy]
    omega
  · simp only [Kernel.locals, Kernel.cpuStat]
    omega
  · simp only [Kernel.locals, Kernel.cpuStat, CpuStat.busy]
    omega
  · exact Int.natCast_nonneg _
  · simp only [Kernel.locals, Kernel.memInfo]
    omega
  · exact ⟨k'.uptime, k'.uptime_lt, rfl⟩

/-- Their figures are those of the counters. -/
theorem figures_locals (k k' : Kernel) : (k.locals k').figures = k.figures k' := by
  simp only [Locals.figures, Kernel.figures, Kernel.locals, Kernel.memInfo, Kernel.cpuStat,
    CpuStat.busy, Kernel.all, Kernel.busy, floor_double k'.uptime_lt]
  push_cast
  rfl

/-! ### Runs -/

/-- The program, and for each cycle up to now the counters that its files have shown. -/
structure Fed where
  program : Program
  cycles : List (Kernel × Kernel)

/-- The threads go on without a read. -/
def NoRead (t t' : State) : Prop := t.collector = .idle → t'.collector = .idle

/-- The steps of the program, where all reads find files that show counters that do not go down. -/
inductive Fed.Step : Fed → Program.Label → Fed → Prop
  | read {f l s locals reads k k'} : Program.Step f.program l s →
      f.program.threads.collector = .idle →
      s.threads =
        { f.program.threads with collector := .ready (Locals.fetch locals reads).record } →
      reads.Shows k k' → k.Le k' → Step f l ⟨s, f.cycles ++ [(k, k')]⟩
  | other {f l s} : Program.Step f.program l s → NoRead f.program.threads s.threads →
      Step f l ⟨s, f.cycles⟩

/-- The program with its files. -/
def fedSystem : System Fed Program.Label where
  init f := f = ⟨Program.start, []⟩
  step := Fed.Step

/-- The record a cycle is to publish. -/
def recordOf (c : Kernel × Kernel) : MonitorData := (c.1.locals c.2).record

/-- The figures of the last of some cycles; before the first there are none. -/
def figuresOf (cycles : List (Kernel × Kernel)) : Figures :=
  (cycles.getLast?.map fun c => c.1.figures c.2).getD .zero

/-- The record the collector is about to publish. -/
def CollectorPc.pending : CollectorPc → List MonitorData
  | .idle => []
  | .ready d => [d]
  | .writing d _ => [d]

variable {ls : List Program.Label} {f f' : Fed} {s s' : Program} {l : Program.Label}

theorem Fed.Step.program (h : Fed.Step f l f') : Program.Step f.program l f'.program := by
  cases h with
  | read hst _ _ _ _ => exact hst
  | other hst _ => exact hst

theorem run_of_fed (h : fedSystem.Run ls f) : Program.system.Run ls f.program := by
  induction h with
  | start hf =>
    obtain rfl := hf
    exact .start rfl
  | next _ hst ih => exact ih.next hst.program

/-- Without a read a step of the threads publishes what is pending, or leaves it so. -/
theorem pending_of_step {t t' : State} {p : Party} (h : Step t p t') (hno : NoRead t t') :
    t'.published ++ t'.collector.pending = t.published ++ t.collector.pending := by
  cases h with
  | collect _ _ hpc => cases hno hpc
  | publishLock hpc _ => rw [hpc]; rfl
  | publishField hpc => rw [hpc]; rfl
  | publishUnlock hpc =>
    rw [hpc]
    exact List.append_nil _
  | copyLock _ _ _ => rfl
  | copyField _ => rfl
  | copyUnlock _ => rfl

/-- A step of the program takes the threads a step on, or leaves them. -/
theorem threads_of_step (h : Program.Step s l s') :
    s'.threads = s.threads ∨ ∃ p, Step s.threads p s'.threads := by
  cases h with
  | copy _ hst _ => exact .inr ⟨_, hst⟩
  | copied _ _ hst => exact .inr ⟨_, hst⟩
  | cycle _ hst _ => exact .inr ⟨_, hst⟩
  | cycled _ hst _ => exact .inr ⟨_, hst⟩
  | _ => exact .inl rfl

/-- **Every record comes from the files of its cycle**: what has been published, and what is about
to be, are the records of the cycles, in their order. -/
theorem published_of_run (h : fedSystem.Run ls f) :
    f.program.threads.published ++ f.program.threads.collector.pending = f.cycles.map recordOf ∧
      ∀ c ∈ f.cycles, c.1.Le c.2 := by
  induction h with
  | start hf =>
    obtain rfl := hf
    exact ⟨rfl, fun c hc => (List.not_mem_nil hc).elim⟩
  | next _ hst ih =>
    obtain ⟨hrecords, hle⟩ := ih
    cases hst with
    | read _ hidle hthreads hshows hle' =>
      rw [hidle] at hrecords
      refine ⟨?_, ?_⟩
      · rw [hthreads, fetch_eq hshows, List.map_append, ← hrecords]
        exact congrArg (· ++ _) (List.append_nil _).symm
      · intro c hc
        rcases List.mem_append.1 hc with hc | hc
        · exact hle c hc
        · rw [List.mem_singleton.1 hc]
          exact hle'
    | other hst hno =>
      refine ⟨?_, hle⟩
      rcases threads_of_step hst with heq | ⟨p, hp⟩
      · rw [heq]
        exact hrecords
      · rw [pending_of_step hp hno]
        exact hrecords

/-- The dashboard of the last of some cycles, or of none. -/
theorem readable_latest (R : Nearest 1) (tick : Int32) {cycles : List (Kernel × Kernel)}
    (h : ∀ c ∈ cycles, c.1.Le c.2) :
    Readable tick (figuresOf cycles) (printDashboard R tick (latest (cycles.map recordOf))) := by
  rcases List.eq_nil_or_concat cycles with rfl | ⟨cycles, c, rfl⟩
  · obtain ⟨l, hsane, hrecord, hfigures⟩ := zero_eq_record
    have hread := readable_of_sane R tick hsane
    rw [hrecord, hfigures] at hread
    exact hread
  · rw [List.concat_eq_append, List.map_append, List.map_singleton, latest_concat, figuresOf,
      List.getLast?_concat]
    have hc := h c (by simp)
    have hread := readable_of_sane R tick (sane_locals hc)
    rw [figures_locals] at hread
    exact hread

/-- What a dashboard shows: the record of the last of some cycles, and its figures. -/
def ShowsCycle (R : Nearest 1) (shown : Int32 × MonitorData) (cycles : List (Kernel × Kernel)) :
    Prop :=
  shown.2 = latest (cycles.map recordOf) ∧
    Readable shown.1 (figuresOf cycles) (printDashboard R shown.1 shown.2)

/-- **From the files to the dashboard.**  In every run whose reads find files that show counters
which do not go down, the dashboards show, one after the other, the cycles up to some moments that
do not go back: each is that of the last cycle up to then (or of none, before the first), and its
reader gets the figures of the counters its files have shown: the seconds of the uptime, the share
of the busy time to within little more than half a tenth of a percent, and the memory in whole
megabytes. -/
theorem dashboards_show_kernel (R : Nearest 1) (h : fedSystem.Run ls f) :
    ∃ befores : List (List (Kernel × Kernel)), befores.Pairwise (· <+: ·) ∧
      (∀ b ∈ befores, b <+: f.cycles) ∧
      List.Forall₂ (ShowsCycle R) (Program.dashboards ls) befores := by
  obtain ⟨records, hordered, hbefores, hshown⟩ := Program.dashboards_show (run_of_fed h)
  obtain ⟨hpublished, hle⟩ := published_of_run h
  -- the records published up to a moment are those of the first cycles
  have hbefore : ∀ b ∈ records, b = (f.cycles.take b.length).map recordOf := by
    intro b hb
    have hb' : b <+: f.cycles.map recordOf := by
      rw [← hpublished]
      exact (hbefores b hb).trans (List.prefix_append _ _)
    rw [List.map_take]
    exact List.prefix_iff_eq_take.1 hb'
  have heq : List.Forall₂ Eq ((Program.dashboards ls).map Prod.snd) (records.map latest) := by
    rw [List.forall₂_eq_eq_eq]
    exact hshown
  rw [List.forall₂_map_left_iff, List.forall₂_map_right_iff] at heq
  have hpairs : List.Forall₂ (fun b (shown : Int32 × MonitorData) =>
      b ∈ records ∧ shown.2 = latest b) records (Program.dashboards ls) :=
    (List.forall₂_and_left _ _).2 ⟨fun b hb => hb, List.Forall₂.flip heq⟩
  refine ⟨records.map fun b => f.cycles.take b.length, ?_, ?_, ?_⟩
  · rw [List.pairwise_map]
    exact hordered.imp fun hb => List.take_prefix_take_left hb.length_le
  · intro b hb
    obtain ⟨records', -, rfl⟩ := List.mem_map.1 hb
    exact List.take_prefix _ _
  · rw [List.forall₂_map_right_iff]
    refine (hpairs.imp fun b shown hb => ?_).flip
    obtain ⟨hmem, hdata⟩ := hb
    rw [hbefore b hmem] at hdata
    refine ⟨hdata, ?_⟩
    rw [hdata]
    exact readable_latest R shown.1 fun c hc => hle c (List.mem_of_mem_take hc)

/-! ### A sample run -/

/-- Nothing is counted yet. -/
def Kernel.boot : Kernel where
  user := 0
  nice := 0
  system := 0
  idle := 0
  memTotal := 8192
  memFree := 8192
  memAvailable := 8192
  uptime := 0
  jiffies_lt := by decide
  memTotal_lt := by decide
  memFree_le := by decide
  memAvailable_le := by decide
  uptime_lt := by decide

/-- One busy and one idle jiffy later. -/
def Kernel.sample : Kernel where
  user := 1
  nice := 0
  system := 0
  idle := 1
  memTotal := 8192
  memFree := 4096
  memAvailable := 6144
  uptime := 372550
  jiffies_lt := by decide
  memTotal_lt := by decide
  memFree_le := by decide
  memAvailable_le := by decide
  uptime_lt := by decide

/-- The files of a cycle between the two. -/
def Reads.sample : Reads where
  first := some "cpu 0 0 0 0".toList
  second := some "cpu 1 0 0 1".toList
  mem := some "MemTotal: 8192 kB\nMemFree: 4096 kB\nMemAvailable: 6144 kB\n".toList
  uptime := some "3725.50".toList

theorem shows_sample : Reads.sample.Shows .boot .sample where
  first := ⟨_, rfl, 1, 0, 0, 0, [], stops_nil _, rfl⟩
  second := ⟨_, rfl, 1, 0, 0, 0, [], stops_nil _, rfl⟩
  mem := ⟨_, rfl, ⟨1, 1, 1, [], rfl⟩, by decide⟩
  uptime := ⟨_, rfl, [], stops_nil _, rfl⟩

/-- Nothing is read within a cycle that has read, nor outside of cycles. -/
theorem noRead_of_step (h : Program.Step s l s')
    (hread : s.collector = .cycle → s.threads.collector ≠ .idle) : NoRead s.threads s'.threads := by
  cases h with
  | copy _ hst _ => exact (Program.collector_of_step hst).trans
  | copied _ _ hst => exact (Program.collector_of_step hst).trans
  | cycle hpc _ _ | cycled hpc _ _ => exact fun hidle => absurd hidle (hread hpc)
  | _ => exact id

/-- A path of the program on which nothing is read. -/
theorem fed_path (h : Program.system.Path s ls s')
    (hread : s.collector = .cycle → s.threads.collector ≠ .idle) (hls : .test ∉ ls)
    (cycles : List (Kernel × Kernel)) : fedSystem.Path ⟨s, cycles⟩ ls ⟨s', cycles⟩ := by
  induction h with
  | refl s => exact .refl _
  | @step s t s' l ls hst _ ih =>
    obtain ⟨hl, hls⟩ := not_or.1 (mt List.mem_cons.2 hls)
    refine .step (.other hst (noRead_of_step hst hread)) (ih ?_ hls)
    -- no cycle is entered, and one that goes on has read
    cases hst with
    | copy _ hst _ | copied _ _ hst =>
      intro hpc hidle
      exact hread hpc ((Program.collector_of_step hst).symm.trans hidle)
    | enter _ _ => exact absurd rfl hl
    | cycle _ _ hbusy => exact fun _ => hbusy
    | finish _ _ | cycled _ _ _ => exact nofun
    | _ => exact hread

/-- A dashboard without a record, a cycle, and the dashboard that shows it. -/
theorem dashboards_show_kernel_sample : ∃ befores : List (List (Kernel × Kernel)),
    befores.Pairwise (· <+: ·) ∧ (∀ b ∈ befores, b <+: [(.boot, .sample)]) ∧
      List.Forall₂ (ShowsCycle (.halfUp 1))
        [(1, .zero), (2, (firstReadings.fetch .sample).record)] befores := by
  have hone : (1 : Int32) ≠ 0 := by decide
  have h₀ : fedSystem.Run [] ⟨Program.start, []⟩ := .start rfl
  have h₁ := ((h₀.next (.other (.wait rfl) id)).next (.other (.again rfl hone) id)).next
    (.other (.tick rfl) id)
  have h₂ := (h₁.append_path (fed_path Program.path_copy (by simp [Program.start]) (by simp) _)).next
    (.other (.print rfl) id)
  have h₃ := (h₂.next (.other (.sleep rfl) id)).next (.other (.enter rfl hone) id)
  have h₄ := h₃.next (.read (.cycle rfl (.collect firstReadings .sample rfl) (by simp)) rfl rfl
    shows_sample ⟨by decide, by decide⟩)
  have h₅ := (h₄.append_path (fed_path Program.path_publish (by simp) (by simp) _)).next
    (.other (.again rfl hone) id)
  have h₆ := (h₅.next (.other (.tick rfl) id)).append_path
    (fed_path Program.path_copy (by simp) (by simp) _)
  exact dashboards_show_kernel (.halfUp 1) (h₆.next (.other (.print rfl) id))

end Monitor

end CAcheRein
