import CAcheRein.Monitor.Basic
import CAcheRein.Transition.Machine

/-!
# What a failed read does to the record

`thread_collector` ignores the return codes of its four readers, and its locals are not
initialised.  A run is `Clean` if a failed read leaves the fields that depend on it as they were,
and if what the locals held before the reads is never seen in the record.

`Monitor.clean_iff` : the runs with a given pattern of failures are all clean exactly when the
pattern has no failure.
-/

namespace CAcheRein

namespace Monitor

open Text

/-- One iteration of `thread_collector`: the files it finds, and what its locals hold before. -/
structure Cycle where
  reads : Reads
  locals : Locals

/-- Which of the four reads of an iteration return 0. -/
structure Outcome where
  first : Bool
  second : Bool
  mem : Bool
  uptime : Bool
  deriving DecidableEq

/-- All four reads succeed. -/
def Outcome.success : Outcome := ⟨true, true, true, true⟩

/-- The outcome of an iteration, by the return codes. -/
def Cycle.outcome (c : Cycle) : Outcome where
  first := (readCpuStat c.reads.first c.locals.s1).1 == 0
  second := (readCpuStat c.reads.second c.locals.s2).1 == 0
  mem := (readMemInfo c.reads.mem c.locals.mem).1 == 0
  uptime := (readUptime c.reads.uptime c.locals.uptime).1 == 0

/-- The iteration's record. -/
def Cycle.record (c : Cycle) : MonitorData := (c.locals.fetch c.reads).record

/-- `thread_collector` as a machine: every iteration publishes its record, field by field. -/
def collector : Machine MonitorData Cycle MonitorData where
  init := .zero
  next d c := d.copyFields c.record MonitorData.fields
  out _ c := c.record

/-- A failed read leaves the fields that depend on it as they were. -/
structure Frame (d : MonitorData) (o : Outcome) (d' : MonitorData) : Prop where
  cpu : (o.first && o.second) = false → d'.cpuPct = d.cpuPct
  mem : o.mem = false →
    d'.memTotalKb = d.memTotalKb ∧ d'.memUsedKb = d.memUsedKb ∧ d'.memAvailKb = d.memAvailKb
  uptime : o.uptime = false → d'.uptimeSec = d.uptimeSec

/-- A run publishes nothing but values produced by successful reads. -/
structure Clean (cs : List Cycle) : Prop where
  /-- Failed reads leave the record alone. -/
  frame : ∀ p ∈ collector.steps cs, Frame p.1 p.2.outcome (collector.next p.1 p.2)
  /-- The same files give the same records, whatever the locals hold before the reads. -/
  defined : ∀ cs' : List Cycle, cs'.map Cycle.reads = cs.map Cycle.reads →
    ∀ n, collector.run (cs'.take n) = collector.run (cs.take n)

/-! ### Successful reads define the locals -/

theorem readCpuStat_of_ok {file : File} {s : CpuStat} (h : (readCpuStat file s).1 = 0)
    (s' : CpuStat) : readCpuStat file s' = readCpuStat file s := by
  cases file with
  | none => cases h
  | some text =>
    simp only [readCpuStat] at h ⊢
    generalize (scan (format "cpu %ld %ld %ld %ld".toList) text).1 = items at h ⊢
    have hlen : items.length = 4 := by
      by_contra hne
      rw [if_neg hne] at h
      cases h
    obtain ⟨a, b, c, d, rfl⟩ := List.length_eq_four.1 hlen
    rfl

theorem readMemInfo_of_ok {file : File} {m : MemInfo} (h : (readMemInfo file m).1 = 0)
    (m' : MemInfo) : readMemInfo file m' = readMemInfo file m := by
  cases file with
  | none => cases h
  | some text => rfl

theorem readUptime_of_ok {file : File} {u : ℚ} (h : (readUptime file u).1 = 0) (u' : ℚ) :
    readUptime file u' = readUptime file u := by
  cases file with
  | none => cases h
  | some text =>
    simp only [readUptime] at h ⊢
    generalize (scan (format "%lf".toList) text).1 = items at h ⊢
    have hlen : items.length = 1 := by
      by_contra hne
      rw [if_neg hne] at h
      cases h
    obtain ⟨a, rfl⟩ := List.length_eq_one_iff.1 hlen
    rfl

/-- An iteration without a failure does not depend on what its locals held. -/
theorem record_of_success {c c' : Cycle} (h : c.outcome = .success) (hr : c'.reads = c.reads) :
    c'.record = c.record := by
  simp only [Cycle.outcome, Outcome.success, Outcome.mk.injEq, beq_iff_eq] at h
  obtain ⟨h1, h2, hm, hu⟩ := h
  simp only [Cycle.record, Locals.fetch, hr]
  rw [readCpuStat_of_ok h1, readCpuStat_of_ok h2, readMemInfo_of_ok hm, readUptime_of_ok hu]

/-- The record after a run is the last one published. -/
theorem next_eq_record (d : MonitorData) (c : Cycle) : collector.next d c = c.record :=
  MonitorData.copyFields_fields d c.record

/-- Without failures, runs on the same files agree. -/
theorem runFrom_of_success {cs cs' : List Cycle} (h : ∀ c ∈ cs, c.outcome = .success)
    (hr : cs'.map Cycle.reads = cs.map Cycle.reads) (d : MonitorData) :
    collector.runFrom d cs' = collector.runFrom d cs := by
  induction cs generalizing cs' d with
  | nil => rw [List.map_eq_nil_iff.1 hr]
  | cons c cs ih =>
    cases cs' with
    | nil => cases hr
    | cons c' cs' =>
      rw [List.map_cons, List.map_cons, List.cons.injEq] at hr
      obtain ⟨hc, hrest⟩ := hr
      have hrec := record_of_success (h c List.mem_cons_self) hc
      rw [Machine.runFrom_cons, Machine.runFrom_cons, next_eq_record, next_eq_record, hrec]
      exact ih (fun x hx => h x (List.mem_cons_of_mem _ hx)) hrest _

/-- **A run without a failed read is clean.** -/
theorem clean_of_success {cs : List Cycle} (h : ∀ c ∈ cs, c.outcome = .success) : Clean cs := by
  refine ⟨fun p hp => ?_, fun cs' hr n => ?_⟩
  · rw [h p.2 (Machine.snd_mem_of_mem_stepsFrom hp)]
    constructor <;> intro hf <;> cases hf
  · refine runFrom_of_success (fun c hc => h c (List.mem_of_mem_take hc)) ?_ _
    rw [List.map_take, List.map_take, hr]

/-! ### A run for every pattern -/

/-- A file that can be opened only in the case `ok`. -/
def fileIf (ok : Bool) (text : String) : File := if ok then some text.toList else none

/-- Files that give the outcome `o`. -/
def Reads.ofOutcome (o : Outcome) : Reads where
  first := fileIf o.first "cpu 0 0 0 0"
  second := fileIf o.second "cpu 1 0 0 0"
  mem := fileIf o.mem "MemTotal: 8 kB\nMemFree: 4 kB\nMemAvailable: 6 kB\n"
  uptime := fileIf o.uptime "5"

/-- Two contents of the locals that every failed read shows in the record. -/
def staleA : Locals := ⟨⟨0, 0, 0, 0⟩, ⟨1, 0, 0, 0⟩, ⟨0, 0, 0⟩, 0⟩

@[inherit_doc staleA] def staleB : Locals := ⟨⟨1, 0, 0, 0⟩, ⟨0, 0, 0, 1⟩, ⟨1, 0, 0⟩, 1⟩

/-- An iteration with the outcome `o`. -/
def Cycle.ofOutcome (l : Locals) (o : Outcome) : Cycle := ⟨.ofOutcome o, l⟩

theorem readCpuStat_first (ok : Bool) (s : CpuStat) :
    readCpuStat (fileIf ok "cpu 0 0 0 0") s = if ok then (0, ⟨0, 0, 0, 0⟩) else (-1, s) := by
  cases ok <;> rfl

theorem readCpuStat_second (ok : Bool) (s : CpuStat) :
    readCpuStat (fileIf ok "cpu 1 0 0 0") s = if ok then (0, ⟨1, 0, 0, 0⟩) else (-1, s) := by
  cases ok <;> rfl

theorem readMemInfo_sample (ok : Bool) (m : MemInfo) :
    readMemInfo (fileIf ok "MemTotal: 8 kB\nMemFree: 4 kB\nMemAvailable: 6 kB\n") m =
      if ok then (0, ⟨8, 4, 6⟩) else (-1, m) := by
  cases ok <;> rfl

theorem readUptime_sample (ok : Bool) (u : ℚ) :
    readUptime (fileIf ok "5") u = if ok then (0, 5) else (-1, u) := by
  have hscan : (scan (format "%lf".toList) "5".toList).1 = [5] := by decide +kernel
  have hdouble : double 5 = 5 := FloatingPoint.round_intCast (z := 5) (by norm_num) (by norm_num)
  cases ok with
  | false => rfl
  | true =>
    simp only [readUptime, fileIf, if_true, hscan, List.length_singleton, List.getElem?_cons_zero,
      Option.map_some, Option.getD_some, hdouble]

theorem outcome_ofOutcome (l : Locals) (o : Outcome) : (Cycle.ofOutcome l o).outcome = o := by
  obtain ⟨a, b, c, d⟩ := o
  simp only [Cycle.outcome, Cycle.ofOutcome, Reads.ofOutcome, readCpuStat_first,
    readCpuStat_second, readMemInfo_sample, readUptime_sample]
  cases a <;> cases b <;> cases c <;> cases d <;> rfl

/-- The record of such an iteration. -/
theorem record_ofOutcome (l : Locals) (o : Outcome) : (Cycle.ofOutcome l o).record =
    Locals.record
      { s1 := if o.first then ⟨0, 0, 0, 0⟩ else l.s1
        s2 := if o.second then ⟨1, 0, 0, 0⟩ else l.s2
        mem := if o.mem then ⟨8, 4, 6⟩ else l.mem
        uptime := if o.uptime then 5 else l.uptime } := by
  obtain ⟨a, b, c, d⟩ := o
  simp only [Cycle.record, Cycle.ofOutcome, Reads.ofOutcome, Locals.fetch, readCpuStat_first,
    readCpuStat_second, readMemInfo_sample, readUptime_sample]
  cases a <;> cases b <;> cases c <;> cases d <;> rfl

/-- Whichever read fails, the two contents give different records. -/
theorem record_ofOutcome_ne {o : Outcome} (h : o ≠ .success) :
    (Cycle.ofOutcome staleA o).record ≠ (Cycle.ofOutcome staleB o).record := by
  rw [record_ofOutcome, record_ofOutcome]
  obtain ⟨a, b, c, d⟩ := o
  revert h
  cases a <;> cases b <;> cases c <;> cases d <;> decide +kernel

/-- **Only patterns without a failure are clean.**  For every pattern of outcomes, over any number
of iterations: all runs with this pattern are clean exactly when no read of it fails. -/
theorem clean_iff (os : List Outcome) :
    (∀ cs : List Cycle, cs.map Cycle.outcome = os → Clean cs) ↔ ∀ o ∈ os, o = .success := by
  constructor
  · intro h o ho
    by_contra hne
    obtain ⟨pre, post, rfl⟩ := List.append_of_mem ho
    -- two runs on the same files, from different contents of the locals
    have hout : ((pre ++ o :: post).map (Cycle.ofOutcome staleA)).map Cycle.outcome =
        pre ++ o :: post := by
      rw [List.map_map]
      exact List.map_id'' (outcome_ofOutcome staleA) _
    have hreads : ((pre ++ o :: post).map (Cycle.ofOutcome staleB)).map Cycle.reads =
        ((pre ++ o :: post).map (Cycle.ofOutcome staleA)).map Cycle.reads := by
      rw [List.map_map, List.map_map]
      rfl
    -- they publish different records right after the failure
    have hrun : ∀ l, collector.run (((pre ++ o :: post).map (Cycle.ofOutcome l)).take
        (pre.length + 1)) = (Cycle.ofOutcome l o).record := by
      intro l
      have htake : (pre ++ o :: post).take (pre.length + 1) = pre ++ [o] :=
        List.take_length_add_append 1
      rw [← List.map_take, htake, List.map_append, List.map_singleton, Machine.run_concat,
        next_eq_record]
    have heq := (h _ hout).defined _ hreads (pre.length + 1)
    rw [hrun, hrun] at heq
    exact record_ofOutcome_ne hne heq.symm
  · rintro h cs rfl
    exact clean_of_success fun c hc => h _ (List.mem_map_of_mem hc)

/-- A first iteration that finds no `/proc/uptime`. -/
def uptimeMissing : Cycle := .ofOutcome staleB { Outcome.success with uptime := false }

/-- The first iteration publishes the uptime no read has produced. -/
theorem not_clean_uptime_missing : ¬ Clean [uptimeMissing] := by
  intro h
  have hframe := h.frame (collector.init, uptimeMissing) (by simp [Machine.steps])
  have hkept := hframe.uptime (by rw [uptimeMissing, outcome_ofOutcome])
  rw [next_eq_record, uptimeMissing, record_ofOutcome] at hkept
  exact absurd hkept (by decide)

end Monitor

end CAcheRein
