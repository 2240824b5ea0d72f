import CAcheRein.Monitor.Basic
import CAcheRein.Transition.System

/-!
# Publishing and copying the record

`thread_collector` writes the five fields of `g_data` one by one, `print_dashboard` reads them one
by one, both between `pthread_mutex_lock` and `pthread_mutex_unlock`.  A step of the system is one
such access, or taking or giving back the mutex.

`Monitor.snapshot_consistent` : in every reachable state, every copy the dashboard has completed
is the record that was published last when the copy took the mutex, and no copy goes back behind
an earlier one.
-/

namespace CAcheRein

namespace Monitor

/-- The two threads. -/
inductive Party where
  | collector
  | dashboard
  deriving DecidableEq

/-- Where `thread_collector` is. -/
inductive CollectorPc where
  /-- Between two publishes. -/
  | idle
  /-- The reads of a cycle are done, and their record is to be published. -/
  | ready (d : MonitorData)
  /-- Inside the critical section, with the fields still to be written. -/
  | writing (d : MonitorData) (todo : List MonitorData.Field)

/-- Where `print_dashboard` is; `before` are the publishes that were completed when it took the
mutex. -/
inductive DashboardPc where
  | idle
  /-- Inside the critical section, with the fields still to be read. -/
  | copying (d : MonitorData) (todo : List MonitorData.Field) (before : List MonitorData)

/-- A completed copy. -/
structure Copy where
  data : MonitorData
  /-- The publishes completed when the copy took the mutex. -/
  before : List MonitorData

/-- The shared record, the mutex, both program counters, and two logs. -/
structure State where
  gData : MonitorData
  gMutex : Option Party
  collector : CollectorPc
  dashboard : DashboardPc
  /-- The records published so far, oldest first. -/
  published : List MonitorData
  /-- The copies completed so far, oldest first. -/
  copies : List Copy

/-- The steps of the two threads. -/
inductive Step : State → Party → State → Prop
  | collect {s} (l : Locals) (r : Reads) : s.collector = .idle →
      Step s .collector { s with collector := .ready (l.fetch r).record }
  | publishLock {s d} : s.collector = .ready d → s.gMutex = none →
      Step s .collector
        { s with collector := .writing d MonitorData.fields, gMutex := some .collector }
  | publishField {s d f todo} : s.collector = .writing d (f :: todo) →
      Step s .collector
        { s with collector := .writing d todo, gData := s.gData.copyField d f }
  | publishUnlock {s d} : s.collector = .writing d [] →
      Step s .collector
        { s with collector := .idle, gMutex := none, published := s.published ++ [d] }
  -- the copy starts from whatever the local variable holds
  | copyLock {s} (d : MonitorData) : s.dashboard = .idle → s.gMutex = none →
      Step s .dashboard
        { s with
          dashboard := .copying d MonitorData.fields s.published
          gMutex := some .dashboard }
  | copyField {s d f todo before} : s.dashboard = .copying d (f :: todo) before →
      Step s .dashboard { s with dashboard := .copying (d.copyField s.gData f) todo before }
  | copyUnlock {s d before} : s.dashboard = .copying d [] before →
      Step s .dashboard
        { s with dashboard := .idle, gMutex := none, copies := s.copies ++ [⟨d, before⟩] }

/-- The monitor after `pthread_create`. -/
def system : System State Party where
  init s := s = ⟨.zero, none, .idle, .idle, [], []⟩
  step := Step

/-! ### The invariant -/

/-- The record published last, or the initial one. -/
def latest (published : List MonitorData) : MonitorData := published.getLast?.getD .zero

/-- The used memory of a record is the difference of the other two. -/
def MonitorData.Consistent (d : MonitorData) : Prop := d.memUsedKb = d.memTotalKb - d.memAvailKb

/-- Who is between lock and unlock. -/
def State.Inside (s : State) : Party → Prop
  | .collector => ∃ d todo, s.collector = .writing d todo
  | .dashboard => ∃ d todo before, s.dashboard = .copying d todo before

/-- `dst` has the fields of `src`, except for those in `todo`. -/
def Partly (dst src : MonitorData) (todo : List MonitorData.Field) : Prop :=
  ∃ (d : MonitorData) (done : List MonitorData.Field),
    done ++ todo = MonitorData.fields ∧ dst = d.copyFields src done

/-- What holds of the collector: outside the critical section `g_data` is the latest record,
inside it is partly the next one. -/
def CollectorInv (s : State) : Prop :=
  match s.collector with
  | .idle => s.gData = latest s.published
  | .ready d => s.gData = latest s.published ∧ d.Consistent
  | .writing d todo => Partly s.gData d todo ∧ d.Consistent

/-- What holds of the dashboard: what it has copied so far is partly the latest record. -/
def DashboardInv (s : State) : Prop :=
  match s.dashboard with
  | .idle => True
  | .copying d todo before => before = s.published ∧ Partly d (latest s.published) todo

/-- A completed copy is the record published last when it took the mutex. -/
structure Copy.Faithful (c : Copy) (published : List MonitorData) : Prop where
  data_eq : c.data = latest c.before
  before_le : c.before <+: published

/-- The invariant of the monitor. -/
structure Inv (s : State) : Prop where
  mutex : Exclusive s.gMutex s.Inside
  collector : CollectorInv s
  dashboard : DashboardInv s
  published : ∀ d ∈ s.published, d.Consistent
  copies : ∀ c ∈ s.copies, c.Faithful s.published
  ordered : s.copies.Pairwise fun c c' => c.before <+: c'.before

theorem partly_fields (dst src : MonitorData) : Partly dst src MonitorData.fields :=
  ⟨dst, [], rfl, rfl⟩

theorem Partly.copyField {dst src : MonitorData} {f : MonitorData.Field}
    {todo : List MonitorData.Field} (h : Partly dst src (f :: todo)) :
    Partly (dst.copyField src f) src todo := by
  obtain ⟨d, done, hdone, rfl⟩ := h
  refine ⟨d, done ++ [f], by rw [List.append_assoc]; exact hdone, ?_⟩
  rw [MonitorData.copyFields, MonitorData.copyFields, List.foldl_append]
  rfl

theorem Partly.eq {dst src : MonitorData} (h : Partly dst src []) : dst = src := by
  obtain ⟨d, done, hdone, rfl⟩ := h
  rw [List.append_nil] at hdone
  rw [hdone, MonitorData.copyFields_fields]

@[simp] theorem latest_concat (published : List MonitorData) (d : MonitorData) :
    latest (published ++ [d]) = d := by
  simp [latest]

/-- The latest record is a published one or the initial one. -/
theorem latest_mem (published : List MonitorData) :
    latest published = .zero ∨ latest published ∈ published := by
  rcases List.eq_nil_or_concat published with rfl | ⟨l, d, rfl⟩
  · exact .inl rfl
  · rw [List.concat_eq_append, latest_concat]
    exact .inr (by simp)

/-- Outside its critical section the collector leaves the latest record in `g_data`. -/
theorem CollectorInv.gData_eq {s : State} (h : CollectorInv s) (hout : ¬ s.Inside .collector) :
    s.gData = latest s.published := by
  rw [CollectorInv] at h
  cases hc : s.collector with
  | idle =>
    rw [hc] at h
    exact h
  | ready r =>
    rw [hc] at h
    exact h.1
  | writing r fs => exact absurd ⟨r, fs, hc⟩ hout

theorem dashboardInv_of_not_inside {s : State} (hout : ¬ s.Inside .dashboard) :
    DashboardInv s := by
  rw [DashboardInv]
  cases hd : s.dashboard with
  | idle => trivial
  | copying d todo before => exact absurd ⟨d, todo, before, hd⟩ hout

theorem inv_init : Inv ⟨.zero, none, .idle, .idle, [], []⟩ where
  mutex i := by cases i <;> simp [State.Inside]
  collector := rfl
  dashboard := trivial
  published := by simp
  copies := by simp
  ordered := .nil

/-- Every step keeps the invariant. -/
theorem inv_step {s s' : State} {p : Party} (h : Inv s) (hst : Step s p s') : Inv s' := by
  obtain ⟨hmutex, hcol, hdash, hpub, hcopies, hord⟩ := h
  cases hst with
  | collect l r hpc =>
    refine ⟨hmutex.congr ?_, ?_, hdash, hpub, hcopies, hord⟩
    · rintro (_ | _) <;> simp [State.Inside, hpc]
    · rw [CollectorInv, hpc] at hcol
      exact ⟨hcol, rfl⟩
  | publishLock hpc hfree =>
    refine ⟨?_, ?_, hdash, hpub, hcopies, hord⟩
    · rw [hfree] at hmutex
      refine hmutex.acquire ?_
      rintro (_ | _) <;> simp [State.Inside, hpc]
    · rw [CollectorInv, hpc] at hcol
      exact ⟨partly_fields _ _, hcol.2⟩
  | publishField hpc =>
    refine ⟨hmutex.congr ?_, ?_, hdash, hpub, hcopies, hord⟩
    · rintro (_ | _) <;> simp [State.Inside, hpc]
    · rw [CollectorInv, hpc] at hcol
      exact ⟨hcol.1.copyField, hcol.2⟩
  | @publishUnlock d hpc =>
    have hin : s.Inside .collector := ⟨d, [], hpc⟩
    rw [CollectorInv, hpc] at hcol
    refine ⟨hmutex.release hin ?_, ?_, ?_, ?_, ?_, hord⟩
    · rintro (_ | _) <;> simp [State.Inside, hpc]
    · exact hcol.1.eq.trans (latest_concat _ _).symm
    · -- the dashboard is not copying while the collector is inside
      have hout : ¬ s.Inside .dashboard := fun hin' => nomatch hmutex.unique hin hin'
      exact dashboardInv_of_not_inside hout
    · intro r hr
      rcases List.mem_append.1 hr with hr | hr
      · exact hpub r hr
      · rw [List.mem_singleton.1 hr]
        exact hcol.2
    · exact fun c hc =>
        ⟨(hcopies c hc).data_eq, (hcopies c hc).before_le.trans (List.prefix_append _ _)⟩
  | copyLock d hpc hfree =>
    refine ⟨?_, hcol, ⟨rfl, partly_fields _ _⟩, hpub, hcopies, hord⟩
    rw [hfree] at hmutex
    refine hmutex.acquire ?_
    rintro (_ | _) <;> simp [State.Inside, hpc]
  | @copyField d f todo before hpc =>
    have hin : s.Inside .dashboard := ⟨d, f :: todo, before, hpc⟩
    -- the collector is outside, so the record read is the latest one
    have hout : ¬ s.Inside .collector := fun hin' => nomatch hmutex.unique hin hin'
    have hg : s.gData = latest s.published := hcol.gData_eq hout
    rw [DashboardInv, hpc] at hdash
    refine ⟨hmutex.congr ?_, hcol, ⟨hdash.1, ?_⟩, hpub, hcopies, hord⟩
    · rintro (_ | _) <;> simp [State.Inside, hpc]
    · rw [hg]
      exact hdash.2.copyField
  | @copyUnlock d before hpc =>
    have hin : s.Inside .dashboard := ⟨d, [], before, hpc⟩
    rw [DashboardInv, hpc] at hdash
    obtain ⟨hbefore, hpart⟩ := hdash
    refine ⟨hmutex.release hin ?_, hcol, trivial, hpub, ?_, ?_⟩
    · rintro (_ | _) <;> simp [State.Inside, hpc]
    · intro c hc
      rcases List.mem_append.1 hc with hc | hc
      · exact hcopies c hc
      · rw [List.mem_singleton.1 hc]
        exact ⟨hbefore ▸ hpart.eq, hbefore ▸ List.prefix_rfl⟩
    · rw [List.pairwise_append]
      refine ⟨hord, List.pairwise_singleton _ _, fun c hc c' hc' => ?_⟩
      rw [List.mem_singleton.1 hc', hbefore]
      exact (hcopies c hc).before_le

theorem inv_of_reachable {s : State} (h : system.Reachable s) : Inv s :=
  h.invariant (by rintro s rfl; exact inv_init) fun _ _ _ hi hst => inv_step hi hst

/-- **No torn snapshot.**  In every reachable state, at most one thread is between lock and
unlock; every completed copy is, in all fields, the record published last when the copy took the
mutex (the initial record if there was none), so its used memory is the difference of the other
two; and the publishes a copy has seen are among those a later copy has seen. -/
theorem snapshot_consistent {s : State} (h : system.Reachable s) :
    (∀ p q, s.Inside p → s.Inside q → p = q) ∧
    (∀ c ∈ s.copies, c.before <+: s.published ∧ c.data = latest c.before ∧
      (c.data = .zero ∨ c.data ∈ s.published) ∧ c.data.Consistent) ∧
    s.copies.Pairwise fun c c' => c.before <+: c'.before := by
  have hinv := inv_of_reachable h
  refine ⟨fun p q hp hq => hinv.mutex.unique hp hq, fun c hc => ?_, hinv.ordered⟩
  obtain ⟨hdata, hle⟩ := hinv.copies c hc
  have hmem : c.data = .zero ∨ c.data ∈ s.published := by
    rw [hdata]
    exact (latest_mem c.before).imp_right fun hm => hle.subset hm
  refine ⟨hle, hdata, hmem, ?_⟩
  rcases hmem with hzero | hmem
  · rw [hzero]
    rfl
  · exact hinv.published _ hmem

/-- A publish and then a copy, without a switch in between. -/
theorem snapshot_consistent_first_copy : ∃ s : State, system.Reachable s ∧ s.copies ≠ [] ∧
    (∀ p q, s.Inside p → s.Inside q → p = q) ∧
    (∀ c ∈ s.copies, c.before <+: s.published ∧ c.data = latest c.before ∧
      (c.data = .zero ∨ c.data ∈ s.published) ∧ c.data.Consistent) ∧
    s.copies.Pairwise fun c c' => c.before <+: c'.before := by
  have h₀ : system.Reachable ⟨.zero, none, .idle, .idle, [], []⟩ := .start rfl
  have h₁ := h₀.next
    (.collect ⟨⟨0, 0, 0, 0⟩, ⟨1, 0, 0, 1⟩, ⟨8, 4, 6⟩, 5⟩ ⟨none, none, none, none⟩ rfl)
  have h₂ := h₁.next (.publishLock rfl rfl)
  have h₃ := ((h₂.next (.publishField rfl)).next (.publishField rfl)).next (.publishField rfl)
  have h₄ := ((h₃.next (.publishField rfl)).next (.publishField rfl)).next (.publishUnlock rfl)
  have h₅ := h₄.next (.copyLock .zero rfl rfl)
  have h₆ := ((h₅.next (.copyField rfl)).next (.copyField rfl)).next (.copyField rfl)
  have h₇ := ((h₆.next (.copyField rfl)).next (.copyField rfl)).next (.copyUnlock rfl)
  exact ⟨_, h₇, List.cons_ne_nil _ _, snapshot_consistent h₇⟩

end Monitor

end CAcheRein
