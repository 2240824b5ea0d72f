import CAcheRein.Posix.Prints

/-!
# The calls behind the readers

The readers of thermal zones and of the monitor were modelled on whole files (`Thermal`,
`Monitor`).  Call by call, on a file system, they do the same: `Posix.readers_refine`.
-/

namespace CAcheRein

namespace Posix

open Text Prog

variable {fs : FileSystem} {fuel bound : ℕ}

/-! ### Thermal zones -/

/-- What an iteration of `read_cpu_thermal` does on a file system. -/
def zoneStep (fs : FileSystem) (i : ℕ) (found : Bool) : (Bool × Bool) × List Char :=
  match Thermal.readFile (fs.text (Thermal.path i "type")) 63 with
  | none => ((false, found), [])
  | some type =>
    match Thermal.readFile (fs.text (Thermal.path i "temp")) 31 with
    | none => ((true, found), [])
    | some tempStr => ((true, true), Thermal.zoneLine i type (Thermal.atoi tempStr))

/-- The paths fit the buffer. -/
theorem snprintf_path {name : String} (hname : name.length ≤ 100) :
    ∀ i < 4, snprintf 512 (Thermal.path i name) = Thermal.path i name := by
  intro i hi
  have hsum : 33 + 1 + (name.length + 1) ≤ 511 := by omega
  have hdigits : ∀ i : ℕ, i < 4 → (zeroPadded 0 (i : ℤ)).length = 1 := by decide
  have hdir : "/sys/class/thermal/cooling_device".length = 33 := by decide
  have hpath : Thermal.path i name = "/sys/class/thermal/cooling_device".toList ++
      zeroPadded 0 i ++ '/' :: name.toList := rfl
  have hlen : (Thermal.path i name).length ≤ 511 := by
    rw [hpath, List.length_append, List.length_append, List.length_cons, hdigits i hi,
      String.length_toList, String.length_toList, hdir]
    exact hsum
  rw [snprintf, List.take_of_length_le hlen]

theorem prints_readZone {i : ℕ} (hi : i < 4) (found : Bool) :
    Prints fs (SysInterface.readZone i found) (zoneStep fs i found).1 (zoneStep fs i found).2 := by
  rw [SysInterface.readZone, zoneStep, snprintf_path (by decide) i hi,
    snprintf_path (by decide) i hi]
  cases htype : fs.text (Thermal.path i "type") with
  | none =>
    exact prints_openFd_error htype (prints_ret _)
  | some type =>
    refine prints_readFile htype (fun _ => rfl) ?_
    by_cases hempty : type.take 63 = []
    · simp only [Option.getD_some, if_pos hempty, Thermal.readFile, Option.bind_some]
      exact prints_ret _
    · simp only [Option.getD_some, if_neg hempty, Thermal.readFile, Option.bind_some]
      cases htemp : fs.text (Thermal.path i "temp") with
      | none =>
        exact prints_openFd_error htemp (prints_ret _)
      | some temp =>
        refine prints_readFile htemp (fun _ => rfl) ?_
        by_cases hempty : temp.take 31 = []
        · simp only [Option.getD_some, if_pos hempty, Option.bind_some]
          exact prints_ret _
        · simp only [Option.getD_some, if_neg hempty, Option.bind_some]
          exact Prints.last (prints_printf _) (prints_ret _)

/-- The loop, and the one over whole files. -/
theorem foldItems_zoneStep (is : List ℕ) (found : Bool) :
    foldItems (zoneStep fs) is found =
      (found || !(Thermal.readZones fs.text is).isEmpty,
        (Thermal.readZones fs.text is).flatten) := by
  induction is generalizing found with
  | nil => simp [foldItems, Thermal.readZones]
  | cons i is ih =>
    rw [foldItems, Thermal.readZones, zoneStep]
    cases Thermal.readFile (fs.text (Thermal.path i "type")) 63 with
    | none => simp
    | some type =>
      cases Thermal.readFile (fs.text (Thermal.path i "temp")) 31 with
      | none => simp [ih]
      | some temp => simp [ih]

/-- **`read_cpu_thermal`** prints what it was said to print. -/
theorem prints_readCpuThermal :
    Prints fs SysInterface.readCpuThermal () (Thermal.readCpuThermal fs.text) := by
  have hloop := prints_each (g := zoneStep fs) (List.range 4)
    (fun i hi found => prints_readZone (List.mem_range.1 hi) found) false
  rw [foldItems_zoneStep, Bool.false_or] at hloop
  rw [Thermal.readCpuThermal]
  by_cases hnone : Thermal.readZones fs.text (List.range 4) = []
  · rw [hnone] at hloop
    rw [if_pos hnone, ← List.nil_append (_ ++ _), List.append_assoc]
    refine Prints.bind hloop ?_
    exact Prints.bind (prints_printf _) (Prints.bind (prints_printf _) (prints_printf _))
  · rw [if_neg hnone]
    refine Prints.last hloop ?_
    rw [List.isEmpty_eq_false_iff.2 hnone]
    exact prints_ret ()

/-! ### The system monitor -/

open Monitor

theorem prints_readCpuStat (s : CpuStat) :
    Prints fs (SystemMonitor.readCpuStat s) (readCpuStat (fs.text "/proc/stat".toList) s) [] := by
  rw [SystemMonitor.readCpuStat]
  cases htext : fs.text "/proc/stat".toList with
  | none =>
    exact prints_fopen_error htext (prints_ret _)
  | some text => exact prints_scanned htext (fun _ => rfl) (prints_ret _)

theorem prints_readUptime (uptime : ℚ) : Prints fs (SystemMonitor.readUptime uptime)
    (readUptime (fs.text "/proc/uptime".toList) uptime) [] := by
  rw [SystemMonitor.readUptime]
  cases htext : fs.text "/proc/uptime".toList with
  | none =>
    exact prints_fopen_error htext (prints_ret _)
  | some text => exact prints_scanned htext (fun _ => rfl) (prints_ret _)

/-- What an iteration of `read_mem_info` does. -/
def memStep (line : List Char) (r : MemInfo × ℕ) : (Bool × (MemInfo × ℕ)) × List Char :=
  if r.2 < 3 then ((true, readMemLine line r.1 r.2), []) else ((false, r), [])

theorem foldItems_memStep (lines : List (List Char)) (m : MemInfo) (found : ℕ) :
    foldItems memStep lines (m, found) = (readMemLoop lines m found, []) := by
  induction lines generalizing m found with
  | nil => rfl
  | cons line lines ih =>
    rw [foldItems, readMemLoop, memStep]
    split
    · simp [ih]
    · simp

theorem prints_readMemInfo {text : File} (htext : fs.text "/proc/meminfo".toList = text)
    (hfuel : ∀ t, text = some t → (fgetsLines 128 [] t).length < fuel) (m : MemInfo) :
    Prints fs (SystemMonitor.readMemInfo fuel m) (readMemInfo text m) [] := by
  rw [SystemMonitor.readMemInfo]
  cases text with
  | none =>
    exact prints_fopen_error htext (prints_ret _)
  | some text =>
    have hbody : ∀ (line : List Char) (r : MemInfo × ℕ),
        Prints fs (if r.2 < 3 then ret (true, readMemLine line r.1 r.2) else ret (false, r))
          (memStep line r).1 (memStep line r).2 := by
      intro line r
      rw [memStep]
      split
      · exact prints_ret _
      · exact prints_ret _
    have hloop : Prints fs (SystemMonitor.readMemInfo fuel m) _
        ((foldItems memStep (fgetsLines 128 [] text) (⟨0, 0, 0⟩, 0)).2 ++ []) :=
      prints_lines htext rfl (fun _ => rfl) (hfuel text rfl)
        (fun line _ r => hbody line r) (prints_ret _)
    rw [foldItems_memStep] at hloop
    exact hloop

/-- What an iteration finds, if the files do not change. -/
def FileSystem.reads (fs : FileSystem) : Reads where
  first := fs.text "/proc/stat".toList
  second := fs.text "/proc/stat".toList
  mem := fs.text "/proc/meminfo".toList
  uptime := fs.text "/proc/uptime".toList

/-- The reads of an iteration. -/
theorem prints_collect (hsmall : fs.Small bound) (l : Locals) :
    Prints fs (SystemMonitor.collect (bound + 1) l) (l.fetch fs.reads) [] := by
  have hfuel : ∀ t, fs.text "/proc/meminfo".toList = some t →
      (fgetsLines 128 [] t).length < bound + 1 := by
    intro t ht
    have hle := hsmall.text _ t ht
    have hlen := length_fgetsLines_le 128 t
    omega
  refine Prints.last (prints_readCpuStat _) (Prints.last (prints_sleep 1) ?_)
  refine Prints.last (prints_readCpuStat _) (Prints.last (prints_readMemInfo rfl hfuel _) ?_)
  exact Prints.last (prints_readUptime _) (prints_ret _)

theorem foldItems_fetch (l : Locals) (cycles : List ℕ) :
    foldItems (fun (_ : ℕ) (l : Locals) => ((true, l.fetch fs.reads), [])) cycles l =
      ((fun l => l.fetch fs.reads)^[cycles.length] l, []) := by
  induction cycles generalizing l with
  | nil => rfl
  | cons i cycles ih => simp [foldItems, ih]

/-- **The readers, call by call.**  On a file system that does not change, `read_cpu_thermal`
prints what was computed from whole files, and the collector's reads leave in its variables, after
any number of iterations, what was computed from whole files, and print nothing. -/
theorem readers_refine (hsmall : fs.Small bound) (cycles : ℕ) (l : Locals) :
    Prints fs SysInterface.readCpuThermal () (Thermal.readCpuThermal fs.text) ∧
      Prints fs (SystemMonitor.collectAll (bound + 1) cycles l)
        ((fun l => l.fetch fs.reads)^[cycles] l) [] := by
  refine ⟨prints_readCpuThermal, ?_⟩
  have hbody : ∀ (l : Locals), Prints fs
      (SystemMonitor.collect (bound + 1) l >>= fun l => ret (true, l))
      (true, l.fetch fs.reads) [] :=
    fun l => Prints.last (prints_collect hsmall l) (prints_ret _)
  have hloop := prints_each (g := fun (_ : ℕ) (l : Locals) => ((true, l.fetch fs.reads), []))
    (List.range cycles) (fun _ _ l => hbody l) l
  rw [foldItems_fetch, List.length_range] at hloop
  exact hloop

/-- Where there is a thermal zone, and two cycles find the same files. -/
theorem readers_refine_sample :
    Prints .sample SysInterface.readCpuThermal () " zone0 [cpu]: 45.500°C\n".toList ∧
      Prints .sample (SystemMonitor.collectAll 101 2 ⟨⟨0, 0, 0, 0⟩, ⟨0, 0, 0, 0⟩, ⟨0, 0, 0⟩, 0⟩)
        ⟨⟨4, 0, 1, 5⟩, ⟨4, 0, 1, 5⟩, ⟨8, 4, 6⟩, 19 / 2⟩ [] := by
  have hzone : Thermal.readCpuThermal FileSystem.sample.text =
      " zone0 [cpu]: 45.500°C\n".toList := by decide +kernel
  have hfetch : ((fun l => Locals.fetch l FileSystem.sample.reads)^[2]
      ⟨⟨0, 0, 0, 0⟩, ⟨0, 0, 0, 0⟩, ⟨0, 0, 0⟩, 0⟩) =
        ⟨⟨4, 0, 1, 5⟩, ⟨4, 0, 1, 5⟩, ⟨8, 4, 6⟩, 19 / 2⟩ := by decide +kernel
  rw [← hzone, ← hfetch]
  exact readers_refine FileSystem.small_sample 2 ⟨⟨0, 0, 0, 0⟩, ⟨0, 0, 0, 0⟩, ⟨0, 0, 0⟩, 0⟩

end Posix

end CAcheRein
