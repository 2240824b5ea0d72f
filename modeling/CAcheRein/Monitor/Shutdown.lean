import CAcheRein.Monitor.Snapshot
import CAcheRein.Transition.Ranking

/-!
# Starting and stopping the system monitor

The whole of `module5-linux-systems/ex06-system-monitor`: `main` with its dashboard loop and its
shutdown, `thread_collector` with its loop, and the handler that clears `running` at any point.
What the two threads do with `g_data` and its mutex are the steps of `Monitor.system`
(`Snapshot.lean`), so what was shown there holds of every state of the program.

## Main results

* `Program.shutdown_safe` : the mutex is destroyed when nobody holds it, and not touched after;
  the threads never block each other for good; and after a SIGINT both finish.
* `Program.dashboards_exact` : the dashboards are numbered, show published records in the order
  of their publication, and stop with at most one more after a SIGINT.
-/

namespace CAcheRein

namespace Monitor

/-- Where `main` is. -/
inductive MainPc where
  /-- The sleep before the first dashboard. -/
  | wait
  /-- `while (running)`. -/
  | loop
  /-- `tick++`. -/
  | tick
  /-- In `print_dashboard`, up to the unlock. -/
  | copy
  /-- The printing of the copy. -/
  | print (d : MonitorData)
  | sleep
  /-- Past the loop. -/
  | shuttingDown
  | join
  | destroy
  | done
  | exited

/-- Where `thread_collector` is. -/
inductive CollectorLoop where
  /-- `while (running)`. -/
  | test
  /-- In the body of the loop. -/
  | cycle
  | exited

/-- The program after `pthread_create`: the threads' common state, the globals and locals of the
two loops, and whether the mutex was destroyed. -/
structure Program where
  threads : State
  running : Int32
  tick : Int32
  main : MainPc
  collector : CollectorLoop
  destroyed : Bool

/-- `main` is past its loop. -/
def MainPc.stopping : MainPc → Bool
  | .shuttingDown | .join | .destroy | .done | .exited => true
  | _ => false

/-- `main` has joined the collector. -/
def MainPc.joined : MainPc → Bool
  | .destroy | .done | .exited => true
  | _ => false

/-- `main` has destroyed the mutex. -/
def MainPc.over : MainPc → Bool
  | .done | .exited => true
  | _ => false

/-- What `main` has copied and is about to print. -/
def MainPc.pending : MainPc → List MonitorData
  | .print d => [d]
  | _ => []

/-- `main` has counted a dashboard that is not printed yet. -/
def MainPc.counted : MainPc → ℕ
  | .copy | .print _ => 1
  | _ => 0

/-- A dashboard that is printed before the next test of `running`. -/
def MainPc.due : MainPc → ℕ
  | .tick | .copy | .print _ => 1
  | _ => 0

/-- A bound on the steps of `print_dashboard` up to its unlock, on those behind it. -/
def DashboardPc.rank : DashboardPc → ℕ
  | .idle => 14
  | .copying _ todo _ => 8 + todo.length

/-- A bound on the steps of a cycle of the collector, on those behind it. -/
def CollectorPc.rank : CollectorPc → ℕ
  | .idle => 9
  | .ready _ => 8
  | .writing _ todo => 2 + todo.length

/-- A bound on the steps of `main` once its loop is told to stop, if the copy under way takes
`copying` more. -/
def MainPc.rank (copying : ℕ) : MainPc → ℕ
  | .tick => 15
  | .copy => copying
  | .print _ => 7
  | .wait | .sleep => 6
  | .loop => 5
  | .shuttingDown => 4
  | .join => 3
  | .destroy => 2
  | .done => 1
  | .exited => 0

/-- The same for the collector. -/
def CollectorLoop.rank (cycling : ℕ) : CollectorLoop → ℕ
  | .cycle => cycling
  | .test => 1
  | .exited => 0

namespace Program

/-- A step of `main`, with what it prints, of the collector, or a run of the handler. -/
inductive Label where
  | wait
  | loop
  | tick
  | copy
  | print (tick : Int32) (d : MonitorData)
  | sleep
  | shuttingDown
  | join
  | destroy
  | done
  | test
  | cycle
  | sigint

/-- The steps of the program. -/
inductive Step : Program → Label → Program → Prop
  | wait {s} : s.main = .wait → Step s .wait { s with main := .loop }
  | again {s} : s.main = .loop → s.running ≠ 0 → Step s .loop { s with main := .tick }
  | leave {s} : s.main = .loop → s.running = 0 → Step s .loop { s with main := .shuttingDown }
  | tick {s} : s.main = .tick → Step s .tick { s with tick := s.tick + 1, main := .copy }
  | copy {s t} : s.main = .copy → Monitor.Step s.threads .dashboard t → t.dashboard ≠ .idle →
      Step s .copy { s with threads := t }
  | copied {s t d before} : s.main = .copy → s.threads.dashboard = .copying d [] before →
      Monitor.Step s.threads .dashboard t →
      Step s .copy { s with threads := t, main := .print d }
  | print {s d} : s.main = .print d → Step s (.print s.tick d) { s with main := .sleep }
  | sleep {s} : s.main = .sleep → Step s .sleep { s with main := .loop }
  | shuttingDown {s} : s.main = .shuttingDown → Step s .shuttingDown { s with main := .join }
  -- `pthread_join` returns when the collector has
  | join {s} : s.main = .join → s.collector = .exited → Step s .join { s with main := .destroy }
  | destroy {s} : s.main = .destroy →
      Step s .destroy { s with main := .done, destroyed := true }
  | done {s} : s.main = .done → Step s .done { s with main := .exited }
  | enter {s} : s.collector = .test → s.running ≠ 0 → Step s .test { s with collector := .cycle }
  | finish {s} : s.collector = .test → s.running = 0 → Step s .test { s with collector := .exited }
  | cycle {s t} : s.collector = .cycle → Monitor.Step s.threads .collector t →
      t.collector ≠ .idle → Step s .cycle { s with threads := t }
  | cycled {s t} : s.collector = .cycle → Monitor.Step s.threads .collector t →
      t.collector = .idle → Step s .cycle { s with threads := t, collector := .test }
  -- the handler, at any point
  | sigint {s} : Step s .sigint { s with running := 0 }

/-- The program when both threads run. -/
def start : Program := ⟨⟨.zero, none, .idle, .idle, [], []⟩, 1, 0, .wait, .test, false⟩

/-- The program. -/
def system : System Program Label where
  init s := s = start
  step := Step

/-- Not the handler. -/
def Label.isThread : Label → Bool
  | .sigint => false
  | _ => true

/-- A dashboard. -/
def Label.isPrint : Label → Bool
  | .print _ _ => true
  | _ => false

/-- A step between lock and unlock, the two included, or towards it. -/
def Label.usesMutex : Label → Bool
  | .copy | .cycle => true
  | _ => false

variable {s s' : Program} {l : Label} {ls : List Label}

/-! ### The invariant -/

/-- The invariant of the program. -/
structure Inv (s : Program) : Prop where
  threads : Monitor.system.Reachable s.threads
  /-- The dashboard is being copied in `print_dashboard` only. -/
  dashboard : s.main ≠ .copy → s.threads.dashboard = .idle
  collector : s.collector ≠ .cycle → s.threads.collector = .idle
  stopping : s.main.stopping = true → s.running = 0
  joined : s.main.joined = true → s.collector = .exited
  exited : s.collector = .exited → s.running = 0
  destroyed : s.destroyed = s.main.over

theorem inv_start : Inv start where
  threads := .start rfl
  dashboard _ := rfl
  collector _ := rfl
  stopping h := nomatch h
  joined h := nomatch h
  exited h := nomatch h
  destroyed := rfl

theorem collector_of_step {t t' : State} (h : Monitor.Step t .dashboard t') :
    t'.collector = t.collector := by
  cases h <;> rfl

theorem dashboard_of_step {t t' : State} (h : Monitor.Step t .collector t') :
    t'.dashboard = t.dashboard := by
  cases h <;> rfl

/-- `main` goes on outside `print_dashboard`. -/
theorem Inv.goto (h : Inv s) {pc : MainPc} (hpc : s.main ≠ .copy)
    (hstop : pc.stopping = true → s.running = 0)
    (hjoin : pc.joined = true → s.collector = .exited)
    (hover : s.main.over = pc.over) : Inv { s with main := pc } :=
  ⟨h.threads, fun _ => h.dashboard hpc, h.collector, hstop, hjoin, h.exited,
    h.destroyed.trans hover⟩

/-- Every step keeps the invariant. -/
theorem inv_step (h : Inv s) (hst : Step s l s') : Inv s' := by
  cases hst with
  | wait hpc =>
    exact h.goto (by simp [hpc]) (nomatch ·) (nomatch ·) (by rw [hpc]; rfl)
  | again hpc _ =>
    exact h.goto (by simp [hpc]) (nomatch ·) (nomatch ·) (by rw [hpc]; rfl)
  | leave hpc hrun =>
    exact h.goto (by simp [hpc]) (fun _ => hrun) (nomatch ·) (by rw [hpc]; rfl)
  | tick hpc =>
    exact ⟨h.threads, fun hne => absurd rfl hne, h.collector, (nomatch ·), (nomatch ·), h.exited,
      h.destroyed.trans (by rw [hpc]; rfl)⟩
  | copy hpc hst _ =>
    refine ⟨h.threads.next hst, fun hne => absurd hpc hne, fun hne => ?_, h.stopping, h.joined,
      h.exited, h.destroyed⟩
    rw [collector_of_step hst]
    exact h.collector hne
  | copied hpc hcopy hst =>
    refine ⟨h.threads.next hst, fun _ => ?_, fun hne => ?_, (nomatch ·), (nomatch ·), h.exited,
      h.destroyed.trans (by rw [hpc]; rfl)⟩
    · -- the only step left of the copy is its unlock
      cases hst with
      | copyLock _ hidle _ => rw [hidle] at hcopy; cases hcopy
      | copyField hfield => rw [hfield] at hcopy; cases hcopy
      | copyUnlock _ => rfl
    · rw [collector_of_step hst]
      exact h.collector hne
  | print hpc =>
    exact h.goto (by simp [hpc]) (nomatch ·) (nomatch ·) (by rw [hpc]; rfl)
  | sleep hpc =>
    exact h.goto (by simp [hpc]) (nomatch ·) (nomatch ·) (by rw [hpc]; rfl)
  | shuttingDown hpc =>
    exact h.goto (by simp [hpc]) (fun _ => h.stopping (by rw [hpc]; rfl)) (nomatch ·)
      (by rw [hpc]; rfl)
  | join hpc hexited =>
    exact h.goto (by simp [hpc]) (fun _ => h.exited hexited) (fun _ => hexited)
      (by rw [hpc]; rfl)
  | destroy hpc =>
    exact ⟨h.threads, fun _ => h.dashboard (by simp [hpc]), h.collector,
      fun _ => h.stopping (by rw [hpc]; rfl), fun _ => h.joined (by rw [hpc]; rfl), h.exited,
      rfl⟩
  | done hpc =>
    exact h.goto (by simp [hpc]) (fun _ => h.stopping (by rw [hpc]; rfl))
      (fun _ => h.joined (by rw [hpc]; rfl)) (by rw [hpc]; rfl)
  | enter hpc _ =>
    refine ⟨h.threads, h.dashboard, fun hne => absurd rfl hne, h.stopping, fun hj => ?_,
      (nomatch ·), h.destroyed⟩
    have hexited := h.joined hj
    rw [hpc] at hexited
    cases hexited
  | finish hpc hrun =>
    exact ⟨h.threads, h.dashboard, fun _ => h.collector (by simp [hpc]), h.stopping, fun _ => rfl,
      fun _ => hrun, h.destroyed⟩
  | cycle hpc hst _ =>
    refine ⟨h.threads.next hst, fun hne => ?_, fun hne => absurd hpc hne, h.stopping, h.joined,
      h.exited, h.destroyed⟩
    rw [dashboard_of_step hst]
    exact h.dashboard hne
  | cycled hpc hst hidle =>
    refine ⟨h.threads.next hst, fun hne => ?_, fun _ => hidle, h.stopping, fun hj => ?_,
      (nomatch ·), h.destroyed⟩
    · rw [dashboard_of_step hst]
      exact h.dashboard hne
    · have hexited := h.joined hj
      rw [hpc] at hexited
      cases hexited
  | sigint =>
    exact ⟨h.threads, h.dashboard, h.collector, fun _ => rfl, h.joined, fun _ => rfl, h.destroyed⟩

theorem inv_of_run (h : system.Run ls s) : Inv s :=
  h.invariant (by rintro s rfl; exact inv_start) fun _ _ _ => inv_step

/-! ### Nobody waits for good -/

/-- The collector can go on, unless it waits for the dashboard's copy. -/
theorem collector_can_step (h : Inv s) (hc : s.collector ≠ .exited)
    (hmutex : s.threads.gMutex ≠ some .dashboard) :
    ∃ l s', l.isThread = true ∧ Step s l s' := by
  cases hpc : s.collector with
  | exited => exact absurd hpc hc
  | test =>
    by_cases hrun : s.running = 0
    · exact ⟨_, _, rfl, .finish hpc hrun⟩
    · exact ⟨_, _, rfl, .enter hpc hrun⟩
  | cycle =>
    have hinv := inv_of_reachable h.threads
    cases hcol : s.threads.collector with
    | idle =>
      let l : Locals := ⟨⟨0, 0, 0, 0⟩, ⟨0, 0, 0, 0⟩, ⟨0, 0, 0⟩, 0⟩
      exact ⟨_, _, rfl, .cycle hpc (.collect l ⟨none, none, none, none⟩ hcol) (by simp)⟩
    | ready d =>
      have hfree : s.threads.gMutex = none := by
        cases hm : s.threads.gMutex with
        | none => rfl
        | some p =>
          -- the collector is outside, so the owner could only be the dashboard
          obtain rfl : p = .dashboard := by
            cases p with
            | dashboard => rfl
            | collector =>
              obtain ⟨d', todo, hin⟩ := (hinv.mutex .collector).2 hm
              rw [hcol] at hin
              cases hin
          exact absurd hm hmutex
      exact ⟨_, _, rfl, .cycle hpc (.publishLock hcol hfree) (by simp)⟩
    | writing d todo =>
      cases todo with
      | nil => exact ⟨_, _, rfl, .cycled hpc (.publishUnlock hcol) rfl⟩
      | cons f todo => exact ⟨_, _, rfl, .cycle hpc (.publishField hcol) (by simp)⟩

/-- **Nobody waits for good**: until both threads have exited, one of them can go on. -/
theorem thread_can_step (h : Inv s) (hne : ¬ (s.main = .exited ∧ s.collector = .exited)) :
    ∃ l s', l.isThread = true ∧ Step s l s' := by
  have hinv := inv_of_reachable h.threads
  have hdash : s.main ≠ .copy → s.threads.gMutex ≠ some .dashboard := by
    intro hmain hm
    obtain ⟨d, todo, before, hin⟩ := (hinv.mutex .dashboard).2 hm
    rw [h.dashboard hmain] at hin
    cases hin
  cases hpc : s.main with
  | wait => exact ⟨_, _, rfl, .wait hpc⟩
  | loop =>
    by_cases hrun : s.running = 0
    · exact ⟨_, _, rfl, .leave hpc hrun⟩
    · exact ⟨_, _, rfl, .again hpc hrun⟩
  | tick => exact ⟨_, _, rfl, .tick hpc⟩
  | copy =>
    cases hd : s.threads.dashboard with
    | idle =>
      cases hm : s.threads.gMutex with
      | none => exact ⟨_, _, rfl, .copy hpc (.copyLock .zero hd hm) (by simp)⟩
      | some p =>
        -- the owner is the collector, which is in its cycle and can write or unlock
        have hp : p ≠ .dashboard := by
          rintro rfl
          obtain ⟨d, todo, before, hin⟩ := (hinv.mutex .dashboard).2 hm
          rw [hd] at hin
          cases hin
        have hwriting := (hinv.mutex p).2 hm
        refine collector_can_step h (fun hexited => ?_) (by rw [hm]; simpa using hp)
        cases p with
        | dashboard => exact hp rfl
        | collector =>
          obtain ⟨d, todo, hin⟩ := hwriting
          rw [h.collector (by simp [hexited])] at hin
          cases hin
    | copying d todo before =>
      cases todo with
      | nil => exact ⟨_, _, rfl, .copied hpc hd (.copyUnlock hd)⟩
      | cons f todo => exact ⟨_, _, rfl, .copy hpc (.copyField hd) (by simp)⟩
  | print d => exact ⟨_, _, rfl, .print hpc⟩
  | sleep => exact ⟨_, _, rfl, .sleep hpc⟩
  | shuttingDown => exact ⟨_, _, rfl, .shuttingDown hpc⟩
  | join =>
    by_cases hexited : s.collector = .exited
    · exact ⟨_, _, rfl, .join hpc hexited⟩
    · exact collector_can_step h hexited (hdash (by simp [hpc]))
  | destroy => exact ⟨_, _, rfl, .destroy hpc⟩
  | done => exact ⟨_, _, rfl, .done hpc⟩
  | exited => exact absurd ⟨hpc, h.joined (by rw [hpc]; rfl)⟩ hne

/-! ### The shutdown ends -/

/-- A bound on the steps of both threads once their loops are told to stop. -/
def rank (s : Program) : ℕ :=
  s.main.rank s.threads.dashboard.rank + s.collector.rank s.threads.collector.rank

/-- One step of a copy. -/
theorem rank_copy {t t' : State} (hst : Monitor.Step t .dashboard t')
    (hne : t'.dashboard ≠ .idle) : t'.dashboard.rank + 1 ≤ t.dashboard.rank := by
  cases hst with
  | copyLock d hidle _ => rw [hidle]; exact le_rfl
  | copyField hc => rw [hc]; exact le_rfl
  | copyUnlock _ => exact absurd rfl hne

/-- One step of a cycle. -/
theorem rank_cycle {t t' : State} (hst : Monitor.Step t .collector t')
    (hne : t'.collector ≠ .idle) : t'.collector.rank + 1 ≤ t.collector.rank := by
  cases hst with
  | collect l r hc => rw [hc]; exact le_rfl
  | publishLock hc _ => rw [hc]; exact le_rfl
  | publishField hc => rw [hc]; exact le_rfl
  | publishUnlock _ => exact absurd rfl hne

/-- Told to stop, the threads come closer to their end with every step. -/
theorem rank_step (h : Inv s) (hrun : s.running = 0) (hst : Step s l s') :
    s'.rank + l.isThread.toNat ≤ s.rank := by
  cases hst with
  | again _ hne => exact absurd hrun hne
  | enter _ hne => exact absurd hrun hne
  | wait hpc | leave hpc _ | print hpc | sleep hpc | shuttingDown hpc | join hpc _ =>
    simp only [rank, hpc, MainPc.rank, Label.isThread, Bool.toNat_true]
    omega
  | destroy hpc | done hpc =>
    simp only [rank, hpc, MainPc.rank, Label.isThread, Bool.toNat_true]
    omega
  | tick hpc =>
    -- the copy starts from its beginning
    have hidle := h.dashboard (by simp [hpc])
    simp only [rank, hpc, hidle, MainPc.rank, DashboardPc.rank, Label.isThread, Bool.toNat_true]
    omega
  | copy hpc hst hne =>
    have hrank := rank_copy hst hne
    simp only [rank, hpc, collector_of_step hst, MainPc.rank, Label.isThread, Bool.toNat_true]
    omega
  | copied hpc hcopy hst =>
    simp only [rank, hpc, hcopy, collector_of_step hst, MainPc.rank, DashboardPc.rank,
      Label.isThread, Bool.toNat_true, List.length_nil]
    omega
  | finish hpc _ =>
    simp only [rank, hpc, CollectorLoop.rank, Label.isThread, Bool.toNat_true]
    omega
  | cycle hpc hst hne =>
    have hrank := rank_cycle hst hne
    simp only [rank, hpc, dashboard_of_step hst, CollectorLoop.rank, Label.isThread,
      Bool.toNat_true]
    omega
  | cycled hpc hst hidle =>
    have hdash := dashboard_of_step hst
    -- only an unlock ends a cycle
    have hlast : s.threads.collector.rank = 2 := by
      cases hst with
      | publishUnlock hc => rw [hc]; rfl
      | collect _ _ _ => cases hidle
      | publishLock _ _ => cases hidle
      | publishField _ => cases hidle
    simp only [rank, hpc, hdash, hlast, CollectorLoop.rank, Label.isThread, Bool.toNat_true]
    omega
  | sigint => exact le_rfl

theorem ranks : system.Ranks Label.isThread (fun s => Inv s ∧ s.running = 0) rank := by
  refine ⟨fun h hst => ⟨inv_step h.1 hst, ?_⟩, fun h hst => rank_step h.1 h.2 hst⟩
  cases hst with
  | sigint => rfl
  | _ => exact h.2

theorem length_le_of_partly {dst src : MonitorData} {todo : List MonitorData.Field}
    (h : Partly dst src todo) : todo.length ≤ 5 := by
  obtain ⟨_, done, hdone, -⟩ := h
  have hlen := congrArg List.length hdone
  rw [List.length_append] at hlen
  exact (Nat.le_add_left _ _).trans_eq hlen

theorem rank_le (h : Inv s) : s.rank ≤ 24 := by
  have hinv := inv_of_reachable h.threads
  have hdash : s.threads.dashboard.rank ≤ 14 := by
    have hd := hinv.dashboard
    rw [DashboardInv] at hd
    cases hpc : s.threads.dashboard with
    | idle => exact le_rfl
    | copying d todo before =>
      rw [hpc] at hd
      have hlen := length_le_of_partly hd.2
      rw [DashboardPc.rank]
      omega
  have hcol : s.threads.collector.rank ≤ 9 := by
    have hc := hinv.collector
    rw [CollectorInv] at hc
    cases hpc : s.threads.collector with
    | idle => exact le_rfl
    | ready d => exact Nat.le_succ 8
    | writing d todo =>
      rw [hpc] at hc
      have hlen := length_le_of_partly hc.1
      rw [CollectorPc.rank]
      omega
  have hmain : s.main.rank s.threads.dashboard.rank ≤ 15 := by
    cases s.main <;> rw [MainPc.rank] <;> omega
  have hloop : s.collector.rank s.threads.collector.rank ≤ 9 := by
    cases s.collector <;> rw [CollectorLoop.rank] <;> omega
  rw [rank]
  omega

/-! ### The mutex is not used once it is destroyed -/

theorem ranks_destroyed :
    system.Ranks Label.usesMutex (fun s => Inv s ∧ s.destroyed = true) fun _ => 0 := by
  refine ⟨fun h hst => ⟨inv_step h.1 hst, ?_⟩, @fun s _ _ h hst => ?_⟩
  · cases hst with
    | destroy _ => rfl
    | _ => exact h.2
  · obtain ⟨hinv, hd⟩ := h
    have hover := hinv.destroyed.symm.trans hd
    have hexited : s.collector = .exited := by
      refine hinv.joined ?_
      cases hpc : s.main <;> rw [hpc] at hover <;> first | rfl | cases hover
    cases hst with
    | copy hpc _ _ => rw [hpc] at hover; cases hover
    | copied hpc _ _ => rw [hpc] at hover; cases hover
    | cycle hpc _ _ => rw [hpc] at hexited; cases hexited
    | cycled hpc _ _ => rw [hpc] at hexited; cases hexited
    | _ => exact le_rfl

/-- Once the collector has exited and `main` does not copy, the mutex is free. -/
theorem gMutex_of_joined (h : Inv s) (hj : s.main.joined = true) : s.threads.gMutex = none := by
  have hinv := inv_of_reachable h.threads
  have hcol := h.collector (by rw [h.joined hj]; simp)
  have hdash := h.dashboard (by rintro hpc; rw [hpc] at hj; cases hj)
  cases hm : s.threads.gMutex with
  | none => rfl
  | some p =>
    have hin := (hinv.mutex p).2 hm
    cases p with
    | collector =>
      obtain ⟨d, todo, hin⟩ := hin
      rw [hcol] at hin
      cases hin
    | dashboard =>
      obtain ⟨d, todo, before, hin⟩ := hin
      rw [hdash] at hin
      cases hin

/-- The loops are told to stop by a SIGINT only. -/
theorem sigint_of_run (h : system.Run ls s) (h0 : s.running = 0) : .sigint ∈ ls := by
  induction h with
  | start hs =>
    obtain rfl := hs
    exact absurd h0 (by decide)
  | next _ hst ih =>
    cases hst with
    | sigint => simp
    | _ => exact List.mem_append_left _ (ih h0)

/-- **Shutting down is safe and ends.**  In every run: when the mutex is destroyed nobody holds it
and the collector has returned, and no later step locks, unlocks or uses what it guards; until
both threads have exited, one of them can go on; `main` exits only after a SIGINT, behind the
collector; and after a SIGINT the threads take at most 24 more steps, which lead both of them to
their exit. -/
theorem shutdown_safe (h : system.Run ls s) :
    (∀ p q, ls = p ++ .destroy :: q →
      (∃ t, system.Run p t ∧ t.threads.gMutex = none ∧ t.collector = .exited) ∧
        ∀ l ∈ q, l.usesMutex = false) ∧
      ((s.main = .exited ∧ s.collector = .exited) ∨
        ∃ l s', l.isThread = true ∧ Step s l s') ∧
      (s.main = .exited → s.collector = .exited ∧ s.destroyed = true ∧ .sigint ∈ ls) ∧
      ∀ p q, ls = p ++ .sigint :: q → q.countP Label.isThread ≤ 24 ∧
        ∃ ls' s', (∀ l ∈ ls', l.isThread = true) ∧ system.Run (ls ++ ls') s' ∧
          s'.main = .exited ∧ s'.collector = .exited := by
  have hinv := inv_of_run h
  refine ⟨?_, ?_, fun hpc => ?_, ?_⟩
  · rintro p q rfl
    obtain ⟨t, hrun, hpath⟩ := h.exists_path
    have ht := inv_of_run hrun
    cases hpath with
    | step hst hpath =>
      have ht' := inv_step ht hst
      cases hst with
      | destroy hpc =>
        -- `main` has joined the collector before it destroys the mutex
        have hj : t.main.joined = true := by rw [hpc]; rfl
        have hle := ranks_destroyed.countP_le ⟨ht', rfl⟩ hpath
        rw [Nat.add_zero, Nat.le_zero, List.countP_eq_zero] at hle
        exact ⟨⟨t, hrun, gMutex_of_joined ht hj, ht.joined hj⟩,
          fun l hl => Bool.eq_false_iff.2 (hle l hl)⟩
  · by_cases hdone : s.main = .exited ∧ s.collector = .exited
    · exact .inl hdone
    · exact .inr (thread_can_step hinv hdone)
  · have hover := hinv.destroyed
    rw [hpc] at hover
    exact ⟨hinv.joined (by rw [hpc]; rfl), hover,
      sigint_of_run h (hinv.stopping (by rw [hpc]; rfl))⟩
  · rintro p q rfl
    obtain ⟨t, hrun, hpath⟩ := h.exists_path
    have ht := inv_of_run hrun
    cases hpath with
    | step hst hpath =>
      have ht' := inv_step ht hst
      cases hst with
      | sigint =>
        -- from the SIGINT on every step of a thread lowers the rank
        have hle := ranks.countP_le ⟨ht', rfl⟩ hpath
        have hbound := rank_le ht'
        have hstopped : s.running = 0 := (ranks.keeps_path ⟨ht', rfl⟩ hpath).2
        obtain ⟨ls', s', hall, hpath', hdone⟩ := ranks.exists_done
          (fun s hs hne => thread_can_step hs.1 hne) ⟨hinv, hstopped⟩
        exact ⟨by omega, ls', s', hall, h.append_path hpath', hdone⟩

/-- A SIGINT before the first dashboard. -/
theorem shutdown_safe_at_once :
    (∃ t, system.Run [.sigint, .test, .wait, .loop, .shuttingDown, .join] t ∧
      t.threads.gMutex = none ∧ t.collector = .exited) ∧
        ∀ l ∈ [Label.done], l.usesMutex = false := by
  have h₀ : system.Run [] start := .start rfl
  have h₁ := ((h₀.next .sigint).next (.finish rfl rfl)).next (.wait rfl)
  have h₂ := ((h₁.next (.leave rfl rfl)).next (.shuttingDown rfl)).next (.join rfl rfl)
  exact (shutdown_safe ((h₂.next (.destroy rfl)).next (.done rfl))).1
    [.sigint, .test, .wait, .loop, .shuttingDown, .join] [.done] rfl

/-! ### The dashboards -/

/-- The dashboards printed, each with its number and what it shows. -/
def dashboards (ls : List Label) : List (Int32 × MonitorData) :=
  ls.filterMap fun l => match l with
    | .print tick d => some (tick, d)
    | _ => none

/-- What has been printed, copied and counted. -/
structure Shown (ls : List Label) (s : Program) : Prop where
  tick : s.tick = Int32.ofNat ((dashboards ls).length + s.main.counted)
  numbers : (dashboards ls).map Prod.fst =
    (List.range (dashboards ls).length).map fun i => Int32.ofNat (i + 1)
  copies : s.threads.copies.map Copy.data = (dashboards ls).map Prod.snd ++ s.main.pending

/-- A step that neither prints nor copies nor counts. -/
theorem Shown.quiet (h : Shown ls s) (hl : dashboards [l] = []) (htick : s'.tick = s.tick)
    (hcounted : s'.main.counted = s.main.counted) (hpending : s'.main.pending = s.main.pending)
    (hcopies : s'.threads.copies = s.threads.copies) : Shown (ls ++ [l]) s' := by
  have heq : dashboards (ls ++ [l]) = dashboards ls := by
    have happ : dashboards (ls ++ [l]) = dashboards ls ++ dashboards [l] := List.filterMap_append
    rw [happ, hl, List.append_nil]
  constructor
  · rw [heq, htick, hcounted, h.tick]
  · rw [heq, h.numbers]
  · rw [heq, hcopies, hpending, h.copies]

theorem copies_of_copy {t t' : State} (hst : Monitor.Step t .dashboard t')
    (hne : t'.dashboard ≠ .idle) : t'.copies = t.copies := by
  cases hst with
  | copyUnlock _ => exact absurd rfl hne
  | _ => rfl

theorem copies_of_cycle {t t' : State} (hst : Monitor.Step t .collector t') :
    t'.copies = t.copies := by
  cases hst <;> rfl

/-- Every step keeps the tallies of the dashboards. -/
theorem shown_step (h : Shown ls s) (hst : Step s l s') : Shown (ls ++ [l]) s' := by
  cases hst with
  | wait hpc | again hpc _ | leave hpc _ | sleep hpc | shuttingDown hpc | join hpc _ =>
    exact h.quiet rfl rfl (by rw [hpc]; rfl) (by rw [hpc]; rfl) rfl
  | destroy hpc | done hpc =>
    exact h.quiet rfl rfl (by rw [hpc]; rfl) (by rw [hpc]; rfl) rfl
  | enter | finish | sigint => exact h.quiet rfl rfl rfl rfl rfl
  | copy hpc hst hne => exact h.quiet rfl rfl rfl rfl (copies_of_copy hst hne)
  | cycle _ hst _ => exact h.quiet rfl rfl rfl rfl (copies_of_cycle hst)
  | cycled _ hst _ => exact h.quiet rfl rfl rfl rfl (copies_of_cycle hst)
  | tick hpc =>
    have heq : dashboards (ls ++ [.tick]) = dashboards ls := by simp [dashboards]
    refine ⟨?_, by rw [heq, h.numbers], ?_⟩
    · change s.tick + 1 = _
      rw [heq, h.tick, hpc]
      exact (Int32.ofNat_add _ 1).symm
    · rw [heq, h.copies, hpc]
      rfl
  | @copied t d before hpc hcopy hst =>
    have heq : dashboards (ls ++ [.copy]) = dashboards ls := by simp [dashboards]
    refine ⟨?_, by rw [heq, h.numbers], ?_⟩
    · rw [heq, h.tick, hpc]
      rfl
    · -- the copy that is completed is the one to be printed
      have hcopies : t.copies = s.threads.copies ++ [⟨d, before⟩] := by
        cases hst with
        | copyLock _ hidle _ => rw [hidle] at hcopy; cases hcopy
        | copyField hfield => rw [hfield] at hcopy; cases hcopy
        | copyUnlock hlast =>
          rw [hlast] at hcopy
          cases hcopy
          rfl
      change t.copies.map Copy.data = _
      rw [heq, hcopies, List.map_append, h.copies, hpc]
      simp [MainPc.pending]
  | @print d hpc =>
    have heq : dashboards (ls ++ [.print s.tick d]) = dashboards ls ++ [(s.tick, d)] := by
      simp [dashboards]
    refine ⟨?_, ?_, ?_⟩
    · rw [heq, List.length_append, h.tick, hpc]
      rfl
    · rw [heq, List.map_append, h.numbers, List.length_append, List.length_singleton,
        List.range_succ, List.map_append, h.tick, hpc]
      rfl
    · rw [heq, h.copies, List.map_append, hpc]
      simp [MainPc.pending]

theorem shown_of_run (h : system.Run ls s) : Shown ls s := by
  induction h with
  | start hs =>
    obtain rfl := hs
    exact ⟨rfl, rfl, rfl⟩
  | next _ hst ih => exact shown_step ih hst

/-- Told to stop, `main` prints the dashboard that is due at most. -/
theorem ranks_prints : system.Ranks Label.isPrint (fun s => s.running = 0) fun s => s.main.due := by
  refine ⟨fun h hst => ?_, fun h hst => ?_⟩
  · cases hst with
    | sigint => rfl
    | _ => exact h
  · cases hst with
    | again _ hrun => exact absurd h hrun
    | enter _ hrun => exact absurd h hrun
    | tick hpc | copied hpc _ _ | print hpc => rw [hpc]; exact le_rfl
    | copy _ _ _ | finish _ _ | cycle _ _ _ | cycled _ _ _ | sigint => exact le_rfl
    | _ => exact Nat.zero_le _

theorem countP_isPrint (ls : List Label) : ls.countP Label.isPrint = (dashboards ls).length := by
  induction ls with
  | nil => rfl
  | cons l ls ih =>
    rw [List.countP_cons, ih]
    cases l <;> simp [dashboards, Label.isPrint]

/-- Each dashboard shows what was the record published last at some moment, in order. -/
theorem dashboards_show (h : system.Run ls s) : ∃ befores : List (List MonitorData),
    befores.Pairwise (· <+: ·) ∧ (∀ b ∈ befores, b <+: s.threads.published) ∧
      (dashboards ls).map Prod.snd = befores.map latest := by
  have hcopies := (shown_of_run h).copies
  have hthreads := inv_of_reachable (inv_of_run h).threads
  -- the dashboards are the copies but for one that is still to be printed
  have htake : (dashboards ls).map Prod.snd =
      (s.threads.copies.take (dashboards ls).length).map Copy.data := by
    rw [List.map_take, hcopies, List.take_left' (List.length_map _)]
  refine ⟨(s.threads.copies.take (dashboards ls).length).map Copy.before, ?_, ?_, ?_⟩
  · rw [List.pairwise_map]
    exact hthreads.ordered.sublist (List.take_sublist _ _)
  · intro b hb
    obtain ⟨c, hc, rfl⟩ := List.mem_map.1 hb
    exact (hthreads.copies c (List.mem_of_mem_take hc)).before_le
  · rw [htake, List.map_map]
    exact List.map_congr_left fun c hc => (hthreads.copies c (List.mem_of_mem_take hc)).data_eq

/-- **What the dashboards show.**  In every run they are numbered from 1; each shows what was the
record published last at some moment (the initial one before the first), and these moments come in
the order of the dashboards; and at most one dashboard follows a SIGINT. -/
theorem dashboards_exact (h : system.Run ls s) :
    (dashboards ls).map Prod.fst =
        (List.range (dashboards ls).length).map (fun i => Int32.ofNat (i + 1)) ∧
      (∃ befores : List (List MonitorData), befores.Pairwise (· <+: ·) ∧
        (∀ b ∈ befores, b <+: s.threads.published) ∧
        (dashboards ls).map Prod.snd = befores.map latest) ∧
      ∀ p q, ls = p ++ .sigint :: q → (dashboards q).length ≤ 1 := by
  refine ⟨(shown_of_run h).numbers, dashboards_show h, ?_⟩
  rintro p q rfl
  obtain ⟨t, hrun, hpath⟩ := h.exists_path
  cases hpath with
  | step hst hpath =>
    cases hst with
    | sigint =>
      have hle := ranks_prints.countP_le (s := { t with running := 0 }) rfl hpath
      have hdue : t.main.due ≤ 1 := by cases t.main <;> simp [MainPc.due]
      rw [countP_isPrint] at hle
      dsimp only at hle
      omega

/-! ### A sample run -/

variable {g : MonitorData} {copies : List Copy} {published : List MonitorData}
  {running tick : Int32} {pc : MainPc} {col : CollectorLoop} {destroyed : Bool}

/-- A copy without a switch in between. -/
theorem path_copy {c : CollectorPc} :
    system.Path ⟨⟨g, none, c, .idle, published, copies⟩, running, tick, .copy, col, destroyed⟩
      (List.replicate 7 .copy)
      ⟨⟨g, none, c, .idle, published, copies ++ [⟨g, published⟩]⟩, running, tick, .print g, col,
        destroyed⟩ := by
  refine .step (.copy rfl (.copyLock .zero rfl rfl) (by simp)) ?_
  refine .step (.copy rfl (.copyField rfl) (by simp)) ?_
  refine .step (.copy rfl (.copyField rfl) (by simp)) ?_
  refine .step (.copy rfl (.copyField rfl) (by simp)) ?_
  refine .step (.copy rfl (.copyField rfl) (by simp)) ?_
  refine .step (.copy rfl (.copyField rfl) (by simp)) ?_
  exact .step (.copied rfl rfl (.copyUnlock rfl)) (.refl _)

/-- A record published without a switch in between. -/
theorem path_publish {d : MonitorData} {da : DashboardPc} :
    system.Path ⟨⟨g, none, .ready d, da, published, copies⟩, running, tick, pc, .cycle, destroyed⟩
      (List.replicate 7 .cycle)
      ⟨⟨d, none, .idle, da, published ++ [d], copies⟩, running, tick, pc, .test, destroyed⟩ := by
  refine .step (.cycle rfl (.publishLock rfl rfl) (by simp)) ?_
  refine .step (.cycle rfl (.publishField rfl) (by simp)) ?_
  refine .step (.cycle rfl (.publishField rfl) (by simp)) ?_
  refine .step (.cycle rfl (.publishField rfl) (by simp)) ?_
  refine .step (.cycle rfl (.publishField rfl) (by simp)) ?_
  refine .step (.cycle rfl (.publishField rfl) (by simp)) ?_
  exact .step (.cycled rfl (.publishUnlock rfl) rfl) (.refl _)

/-- A dashboard, a cycle, a SIGINT and one more dashboard. -/
def sampleLabels (d : MonitorData) : List Label :=
  [.wait, .loop, .tick] ++ List.replicate 7 .copy ++ [.print 1 .zero, .sleep, .test] ++
    List.replicate 8 .cycle ++ [.loop, .tick] ++ .sigint :: (List.replicate 7 .copy ++ [.print 2 d])

theorem run_sample (l : Locals) (r : Reads) : ∃ s : Program,
    system.Run (sampleLabels (l.fetch r).record) s ∧
      s.threads.published = [(l.fetch r).record] := by
  have hone : (1 : Int32) ≠ 0 := by decide
  have h₀ : system.Run [] start := .start rfl
  have h₁ := ((h₀.next (.wait rfl)).next (.again rfl hone)).next (.tick rfl)
  have h₂ := (((h₁.append_path path_copy).next (.print rfl)).next (.sleep rfl)).next
    (.enter rfl hone)
  have h₃ := h₂.next (.cycle rfl (.collect l r rfl) (by simp))
  have h₄ := (((h₃.append_path path_publish).next (.again rfl hone)).next (.tick rfl)).next .sigint
  exact ⟨_, (h₄.append_path path_copy).next (.print rfl), rfl⟩

/-- The sample run, on files that cannot be opened. -/
theorem dashboards_exact_sample :
    let d : MonitorData := ⟨0, 8, 2, 6, 5⟩
    (dashboards (sampleLabels d)).map Prod.fst = [1, 2] ∧
      (∃ befores : List (List MonitorData), befores.Pairwise (· <+: ·) ∧
        (∀ b ∈ befores, b <+: [d]) ∧ [.zero, d] = befores.map latest) ∧
      (dashboards (List.replicate 7 .copy ++ [.print 2 d])).length ≤ 1 := by
  obtain ⟨s, hrun, hpublished⟩ :=
    run_sample ⟨⟨0, 0, 0, 0⟩, ⟨0, 0, 0, 0⟩, ⟨8, 4, 6⟩, 5⟩ ⟨none, none, none, none⟩
  obtain ⟨hnumbers, hbefores, hlast⟩ := dashboards_exact hrun
  rw [hpublished] at hbefores
  exact ⟨hnumbers, hbefores, hlast _ _ rfl⟩

end Program

end Monitor

end CAcheRein
