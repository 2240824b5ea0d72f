import CAcheRein.Monitor.Shutdown
import CAcheRein.Text.Template

/-!
# What a dashboard says

The text `print_dashboard` prints for its copy of the record, and what a reader gets out of it.
The uptime comes in hours, minutes and seconds that add up to it, the CPU usage rounded to one
decimal and between 0 and 100, the memory in whole megabytes, of which at most one is lost between
the three columns: `Monitor.dashboards_readable`, for every dashboard of every run, as long as the
readings behind the records are sane.  The rounding errors of `float` and `double` are in it.
-/

namespace CAcheRein

namespace Monitor

open Text

/-- A conversion of a floating-point number to `long`, which truncates; C leaves open what does not
fit. -/
def toLong (q : ℚ) : ℤ := q.num.tdiv q.den

/-- The numbers of a dashboard, with the text in front of them. -/
def dashboardParts (R : Nearest 1) (tick : Int32) (d : MonitorData) : List (List Char × Printed) :=
  let uptimeH := toLong (double (d.uptimeSec / 3600))
  let uptimeM := (toLong (double (d.uptimeSec / 60))).tmod 60
  let uptimeS := (toLong d.uptimeSec).tmod 60
  [("\n=== system monitor [tick ".toList, .int 0 tick.toInt),
    ("] ===\nuptime  : ".toList, .int 0 uptimeH),
    ("h ".toList, .int 2 uptimeM),
    ("m ".toList, .int 2 uptimeS),
    ("s\ncpu     : ".toList, .real R Nat.one_pos d.cpuPct),
    ("%\nmemory  : ".toList, .int 0 (d.memTotalKb.tdiv 1024)),
    (" MB total | ".toList, .int 0 (d.memUsedKb.tdiv 1024)),
    (" MB used | ".toList, .int 0 (d.memAvailKb.tdiv 1024))]

/-- `print_dashboard` : what it prints for the copy `d`. -/
def printDashboard (R : Nearest 1) (tick : Int32) (d : MonitorData) : List Char :=
  render " MB free\n".toList (dashboardParts R tick d)

/-- A dashboard as a format, to read it back. -/
def dashboardFormat : List Directive :=
  directives " MB free\n".toList (dashboardParts (.halfUp 1) 0 .zero)

/-- `user + nice + system` . -/
def CpuStat.busy (s : CpuStat) : ℤ := s.user + s.nice + s.system

/-- The readings of a cycle are sane: the counters have not gone down from where they were and
their sum is a `long`, the available memory is part of the total, and the uptime is a number of
hundredths of a second, as close as a `double` comes to it. -/
structure Locals.Sane (l : Locals) : Prop where
  nonneg : 0 ≤ l.s1.busy ∧ 0 ≤ l.s1.idle
  busy : l.s1.busy ≤ l.s2.busy
  idle : l.s1.idle ≤ l.s2.idle
  fits : l.s2.busy + l.s2.idle < 2 ^ 63
  avail_nonneg : 0 ≤ l.mem.availableKb
  avail_le : l.mem.availableKb ≤ l.mem.totalKb
  uptime : ∃ n : ℕ, n < 2 ^ 50 ∧ l.uptime = double (n / 100)

/-- The figures a dashboard is to show, as they would be without any rounding. -/
structure Figures where
  seconds : ℤ
  usage : ℚ
  totalKb : ℤ
  availKb : ℤ

/-- The figures when nothing has happened. -/
def Figures.zero : Figures := ⟨0, 0, 0, 0⟩

/-- The figures of some readings. -/
def Locals.figures (l : Locals) : Figures where
  seconds := ⌊l.uptime⌋
  usage := ((l.s2.busy - l.s1.busy : ℤ) : ℚ) /
    ((l.s2.busy + l.s2.idle - (l.s1.busy + l.s1.idle) : ℤ) : ℚ) * 100
  totalKb := l.mem.totalKb
  availKb := l.mem.availableKb

/-- Whole megabytes. -/
def Megabytes (mb kb : ℤ) : Prop := 1024 * mb ≤ kb ∧ kb < 1024 * (mb + 1)

/-- What a reader of a dashboard gets: the figures, and the usage as rounded to one decimal. -/
structure Readable (tick : Int32) (f : Figures) (text : List Char) : Prop where
  reads : ∃ h m s p total used free : ℤ,
    scan dashboardFormat text =
      ([(tick.toInt : ℚ), h, m, s, p / 10, total, used, free], []) ∧
    (3600 * h + 60 * m + s = f.seconds ∧ 0 ≤ m ∧ m < 60 ∧ 0 ≤ s ∧ s < 60) ∧
    (|f.usage * 10 - p| ≤ 1 / 2 + 1 / 2000 ∧ 0 ≤ p ∧ p ≤ 1000) ∧
    Megabytes total f.totalKb ∧ Megabytes used (f.totalKb - f.availKb) ∧
    Megabytes free f.availKb ∧ used + free ≤ total ∧ total ≤ used + free + 1

/-! ### The numbers -/

theorem toLong_eq_floor {q : ℚ} (h : 0 ≤ q) : toLong q = ⌊q⌋ := by
  rw [toLong, Int.tdiv_eq_ediv_of_nonneg (Rat.num_nonneg.2 h), Rat.floor_def']

theorem long_eq {z : ℤ} (hlo : -2 ^ 63 ≤ z) (hhi : z < 2 ^ 63) : long z = z := by
  rw [long, Int.bmod_def]
  split <;> omega

/-- The usage of sane readings: the share of the busy time, in `float`. -/
theorem calcCpuUsage_of_sane {l : Locals} (h : l.Sane) :
    let busy := l.s2.busy - l.s1.busy
    let total := l.s2.busy + l.s2.idle - (l.s1.busy + l.s1.idle)
    calcCpuUsage l.s1 l.s2 =
      if total = 0 then 0 else float (float (float busy / float total) * 100) := by
  have hnonneg := h.nonneg
  have hbusy := h.busy
  have hidle := h.idle
  have hfits := h.fits
  rw [calcCpuUsage, ← CpuStat.busy, ← CpuStat.busy]
  generalize l.s1.busy = b₁, l.s2.busy = b₂, l.s1.idle = i₁, l.s2.idle = i₂ at *
  have htotal : b₂ + i₂ - (b₁ + i₁) - (i₂ - i₁) = b₂ - b₁ := by omega
  simp only [long_eq (z := b₁ + i₁) (by omega) (by omega),
    long_eq (z := b₂ + i₂) (by omega) hfits, long_eq (z := i₂ - i₁) (by omega) (by omega),
    long_eq (z := b₂ + i₂ - (b₁ + i₁)) (by omega) (by omega), htotal,
    long_eq (z := b₂ - b₁) (by omega) (by omega)]

/-- **The usage is a percentage**, and close to the share of the busy time. -/
theorem calcCpuUsage_bounds {l : Locals} (h : l.Sane) :
    (0 ≤ calcCpuUsage l.s1 l.s2 ∧ calcCpuUsage l.s1 l.s2 ≤ 100) ∧
      |l.figures.usage - calcCpuUsage l.s1 l.s2| ≤ 1 / 20000 := by
  rw [calcCpuUsage_of_sane h, Locals.figures]
  have hbusy : 0 ≤ l.s2.busy - l.s1.busy := by have := h.busy; omega
  have hle : l.s2.busy - l.s1.busy ≤ l.s2.busy + l.s2.idle - (l.s1.busy + l.s1.idle) := by
    have := h.idle
    omega
  generalize l.s2.busy - l.s1.busy = b at *
  generalize l.s2.busy + l.s2.idle - (l.s1.busy + l.s1.idle) = t at *
  dsimp only
  split_ifs with hzero
  · subst hzero
    simp
  have ht : (0 : ℚ) < t := by exact_mod_cast (by omega : 0 < t)
  have hb : (0 : ℚ) ≤ b := by exact_mod_cast hbusy
  have hbt : (b : ℚ) ≤ t := by exact_mod_cast hle
  have hfb : 0 ≤ float b := FloatingPoint.round_nonneg (by decide) hb
  have hfbt : float b ≤ float t := FloatingPoint.round_le_round (by decide) hb hbt
  have hshare : 0 ≤ float b / float t := div_nonneg hfb (hfb.trans hfbt)
  have hnonneg : 0 ≤ float (float b / float t) := FloatingPoint.round_nonneg (by decide) hshare
  have hone : float (float b / float t) ≤ (1 : ℤ) :=
    FloatingPoint.round_le_intCast (by decide) (by norm_num) hshare
      (by exact_mod_cast div_le_one_of_le₀ hfbt (hfb.trans hfbt))
  -- the quotient is off the share by some units, and the product from the quotient by one
  have hquot : |float (float b / float t) - b / t| ≤ 4 / 2 ^ 24 :=
    FloatingPoint.abs_round_div_sub_le (by decide) hb hbt ht
  generalize float (float b / float t) = share at *
  rw [Int.cast_one] at hone
  have hscaled : 0 ≤ share * 100 := by positivity
  have hprod : |float (share * 100) - share * 100| ≤ |share * 100| / 2 ^ 24 :=
    FloatingPoint.abs_round_sub_le 24 (share * 100)
  rw [abs_of_nonneg hscaled] at hprod
  refine ⟨⟨FloatingPoint.round_nonneg (by decide) hscaled, ?_⟩, ?_⟩
  · have hhundred : float (share * 100) ≤ (100 : ℤ) :=
      FloatingPoint.round_le_intCast (by decide) (by norm_num) hscaled (by push_cast; linarith)
    exact_mod_cast hhundred
  · rw [abs_le] at hquot hprod ⊢
    constructor <;> linarith

/-- Half a thousandth of a tenth below a tie. -/
example : (Nearest.halfUp 1).print (calcCpuUsage ⟨0, 0, 0, 0⟩ ⟨8024, 0, 0, 2283⟩) =
    "77.8".toList := by
  decide +kernel

/-- Rounding hundredths of a second does not reach the next second. -/
theorem floor_double {n : ℕ} (hn : n < 2 ^ 50) : ⌊double (n / 100)⌋ = (n / 100 : ℕ) := by
  have hbound : (n : ℚ) < 2 ^ 50 := by exact_mod_cast hn
  have hlo : ((100 * (n / 100) : ℕ) : ℚ) ≤ n := by exact_mod_cast Nat.mul_div_le n 100
  have hhi : (n : ℚ) ≤ (100 * (n / 100) + 99 : ℕ) := by exact_mod_cast (by omega)
  push_cast at hlo hhi
  refine FloatingPoint.floor_round (by decide) (Int.natCast_nonneg _) (by omega) ?_ ?_
  · rw [Int.cast_natCast]
    linarith
  · rw [Int.cast_natCast]
    linarith

/-- Neither does taking a part of them, with another rounding. -/
theorem floor_double_div {n d : ℕ} (hn : n < 2 ^ 50) (hd : 0 < d) :
    ⌊double (double (n / 100) / d)⌋ = (n / (100 * d) : ℕ) := by
  have hd0 : (0 : ℚ) < d := by exact_mod_cast hd
  have hbound : (n : ℚ) < 2 ^ 50 := by exact_mod_cast hn
  have hn0 : (0 : ℚ) ≤ n / 100 := by positivity
  have herr := abs_le.1 (FloatingPoint.abs_round_sub_le 53 (n / 100 : ℚ))
  rw [abs_of_nonneg hn0, ← double] at herr
  have hmul := Nat.mul_div_le n (100 * d)
  have hlt := Nat.lt_mul_div_succ n (Nat.mul_pos (by decide : 0 < 100) hd)
  have hk : n / (100 * d) ≤ n := Nat.div_le_self _ _
  generalize n / (100 * d) = k at *
  have hsmall : d * k ≤ n := by
    rw [Nat.mul_assoc] at hmul
    omega
  have hbelow : ((d * k : ℕ) : ℤ) ≤ (n / 100 : ℚ) := by
    rw [Int.cast_natCast, le_div_iff₀ (by norm_num), mul_comm]
    exact_mod_cast (Nat.mul_assoc 100 d k).symm.trans_le hmul
  have hlo : ((d * k : ℕ) : ℤ) ≤ double (n / 100) :=
    FloatingPoint.intCast_le_round (by decide) (Int.natCast_nonneg _) (by omega) hbelow
  have hhi : (n : ℚ) + 1 ≤ 100 * d * (k + 1) := by exact_mod_cast hlt
  -- the next multiple is a hundredth away, and the two errors are less
  have hgap : double (n / 100) + double (n / 100) / 2 ^ 53 < (k + 1) * d := by linarith
  generalize double (n / 100) = u at *
  refine FloatingPoint.floor_round (by decide) (Int.natCast_nonneg _) (by omega) ?_ ?_
  · rw [Int.cast_natCast, le_div_iff₀ hd0]
    rw [Int.cast_natCast] at hlo
    push_cast at hlo
    linarith
  · rw [Int.cast_natCast, div_right_comm, ← add_div, div_lt_iff₀ hd0]
    exact hgap

/-- Hours, minutes and seconds add up to the whole seconds of the uptime. -/
theorem uptime_parts {u : ℚ} (h : ∃ n : ℕ, n < 2 ^ 50 ∧ u = double (n / 100)) :
    3600 * toLong (double (u / 3600)) + 60 * (toLong (double (u / 60))).tmod 60 +
        (toLong u).tmod 60 = ⌊u⌋ ∧
      0 ≤ (toLong (double (u / 60))).tmod 60 ∧ (toLong (double (u / 60))).tmod 60 < 60 ∧
      0 ≤ (toLong u).tmod 60 ∧ (toLong u).tmod 60 < 60 := by
  obtain ⟨n, hn, rfl⟩ := h
  have hu : 0 ≤ double (n / 100) := FloatingPoint.round_nonneg (by decide) (by positivity)
  have hpart : ∀ d : ℕ, 0 < d →
      toLong (double (double (n / 100) / d)) = (n / (100 * d) : ℕ) := by
    intro d hd
    have hnonneg : 0 ≤ double (double (n / 100) / d) :=
      FloatingPoint.round_nonneg (by decide) (by positivity)
    rw [toLong_eq_floor hnonneg, floor_double_div hn hd]
  have hh := hpart 3600 (by decide)
  have hm := hpart 60 (by decide)
  rw [Nat.cast_ofNat] at hh hm
  rw [hh, hm, toLong_eq_floor hu, floor_double hn,
    Int.tmod_eq_emod_of_nonneg (Int.natCast_nonneg _),
    Int.tmod_eq_emod_of_nonneg (Int.natCast_nonneg _)]
  omega

theorem round_bounds (R : Nearest 1) {q : ℚ} (h0 : 0 ≤ q) (h100 : q ≤ 100) :
    0 ≤ R.round q ∧ R.round q ≤ 1000 := by
  obtain ⟨hlo, hhi⟩ := abs_le.1 (R.near q)
  rw [pow_one] at hlo hhi
  constructor
  · by_contra hneg
    have hle : (R.round q : ℚ) ≤ -1 := by exact_mod_cast Int.le_sub_one_of_lt (not_le.1 hneg)
    linarith
  · by_contra hbig
    have hge : (1001 : ℚ) ≤ R.round q := by exact_mod_cast Int.lt_iff_add_one_le.1 (not_le.1 hbig)
    linarith

/-! ### The text -/

/-- **A dashboard reads back**: the numbers of the copy it was printed for. -/
theorem scan_dashboard (R : Nearest 1) (tick : Int32) (d : MonitorData) :
    scan dashboardFormat (printDashboard R tick d) =
      ([(tick.toInt : ℚ), toLong (double (d.uptimeSec / 3600)),
        (toLong (double (d.uptimeSec / 60))).tmod 60, (toLong d.uptimeSec).tmod 60,
        R.round d.cpuPct / 10, d.memTotalKb.tdiv 1024, d.memUsedKb.tdiv 1024,
        d.memAvailKb.tdiv 1024], []) := by
  have hform : dashboardFormat = directives " MB free\n".toList (dashboardParts R tick d) := by
    simp only [dashboardFormat, dashboardParts, directives, Printed.conv_int, Printed.conv_real]
  have hsep : ((dashboardParts R tick d).tail.map Prod.fst ++ [" MB free\n".toList]).all
      separates = true := by
    simp only [dashboardParts, List.tail_cons, List.map_cons, List.map_nil]
    rfl
  rw [hform, printDashboard, scan_render hsep]
  simp only [dashboardParts, List.map_cons, List.map_nil, Printed.value_int, Printed.value_real,
    pow_one]

theorem megabytes_tdiv {kb : ℤ} (h : 0 ≤ kb) : Megabytes (kb.tdiv 1024) kb := by
  rw [Megabytes, Int.tdiv_eq_ediv_of_nonneg h]
  omega

/-- A dashboard of a record from sane readings. -/
theorem readable_of_sane (R : Nearest 1) (tick : Int32) {l : Locals} (h : l.Sane) :
    Readable tick l.figures (printDashboard R tick l.record) := by
  obtain ⟨⟨h0, h100⟩, herr⟩ := calcCpuUsage_bounds h
  have hnonneg := h.avail_nonneg
  have hle := h.avail_le
  have hused : 0 ≤ l.mem.totalKb - l.mem.availableKb := by omega
  have htotal := megabytes_tdiv (hnonneg.trans hle)
  have hfree := megabytes_tdiv hnonneg
  have hnear := R.near (calcCpuUsage l.s1 l.s2)
  rw [pow_one] at hnear
  refine ⟨_, _, _, R.round (calcCpuUsage l.s1 l.s2), _, _, _, scan_dashboard R tick l.record,
    uptime_parts h.uptime, ⟨?_, round_bounds R h0 h100⟩, htotal, megabytes_tdiv hused, hfree, ?_⟩
  · rw [abs_le] at hnear herr ⊢
    constructor <;> linarith
  · have hused' := megabytes_tdiv hused
    simp only [Megabytes, Locals.record] at htotal hfree hused' ⊢
    omega

/-- The initial record is that of a cycle in which nothing has happened. -/
theorem zero_eq_record : ∃ l : Locals, l.Sane ∧ l.record = .zero ∧ l.figures = .zero := by
  refine ⟨⟨⟨0, 0, 0, 0⟩, ⟨0, 0, 0, 0⟩, ⟨0, 0, 0⟩, 0⟩, ?_, rfl, ?_⟩
  · exact ⟨by decide, by decide, by decide, by decide, by decide, by decide, 0, by decide,
      by rw [double, Nat.cast_zero, zero_div, FloatingPoint.round_zero]⟩
  · simp [Locals.figures, Figures.zero, CpuStat.busy]

/-- Readings of one busy and one idle jiffy, after 3725.5 seconds. -/
def firstReadings : Locals :=
  ⟨⟨0, 0, 0, 0⟩, ⟨1, 0, 0, 1⟩, ⟨8192, 4096, 6144⟩, double ((372550 : ℕ) / 100)⟩

end Monitor

end CAcheRein
