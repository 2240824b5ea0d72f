import CAcheRein.Signals.Loop

/-!
# The tick lines

The tick of `module5-linux-systems/ex04-signals` is not one step: `main` increments `count`, reads
the volatile `sig_count` and `reload` for the arguments of the print, in either order, and prints.
Handlers run between any two of these.  `Signals.micro` is the loop with its tick taken apart so.

The two globals of one line may thus be of different moments: each is what it was when it was read
(`Signals.ReadAt`).  `Signals.ticks_exact` says what every line shows, and how many there are.

## Main definitions

* `Signals.Micro` : the loop, and what the tick under way has done.
* `Signals.Micro.before` : the state of the loop before the tick under way.
* `Signals.loop` : the steps of the loop a history amounts to.
-/

namespace CAcheRein

namespace Signals

/-- The loop, and what the tick under way has done. -/
structure Micro where
  main : State
  /-- `count++` has been executed. -/
  counted : Bool
  /-- `sig_count`, once it has been read. -/
  sigCount : Option Int32
  /-- `reload`, once it has been read. -/
  reload : Option Int32

/-- What happens in the loop with its tick taken apart. -/
inductive Event where
  /-- A step of the loop other than the tick, or a run of a handler. -/
  | step (l : Label)
  | count
  | readSigCount
  | readReload
  | print (count sigCount reload : Int32)
  deriving DecidableEq

/-- The steps of `main` and of the handlers, with the tick in four steps. -/
inductive Micro.Step : Micro → Event → Micro → Prop
  | step {m l s'} : l.isTick = false → Signals.Step m.main l s' →
      Step m (.step l) { m with main := s' }
  | count {m} : m.main.pc = .tick → m.counted = false →
      Step m .count { m with main := { m.main with count := m.main.count + 1 }, counted := true }
  | readSigCount {m} : m.counted = true → m.sigCount = none →
      Step m .readSigCount { m with sigCount := some m.main.sigCount }
  | readReload {m} : m.counted = true → m.reload = none →
      Step m .readReload { m with reload := some m.main.reload }
  | print {m sigCount reload} : m.counted = true → m.sigCount = some sigCount →
      m.reload = some reload →
      Step m (.print m.main.count sigCount reload)
        ⟨{ m.main with pc := .check }, false, none, none⟩

/-- The program, with its tick taken apart. -/
def micro : System Micro Event where
  init m := m = ⟨start, false, none, none⟩
  step := Micro.Step

/-- The state of the loop before the tick under way. -/
def Micro.before (m : Micro) : State :=
  if m.counted then { m.main with count := m.main.count - 1 } else m.main

/-- The step of the loop an event amounts to: the print is the tick. -/
def Event.label : Event → Option Label
  | .step l => some l
  | .print n sigCount reload => some (.tick n sigCount reload)
  | _ => none

/-- The steps of the loop. -/
def loop (evs : List Event) : List Label := evs.filterMap Event.label

/-- An event of `main`, not of a handler. -/
def Event.isMain : Event → Bool
  | .step l => l.isMain
  | _ => true

/-- `v` is what `of` makes of the history before the read `e` of the tick under way: since then
`main` has done at most the other read `e'`. -/
def ReadAt (e e' : Event) (of : List Event → Int32) (evs : List Event) (v : Int32) : Prop :=
  ∃ p q, evs = p ++ e :: q ∧ (∀ x ∈ q, x.isMain = true → x = e') ∧ v = of p

variable {m m' : Micro} {e e' x : Event} {evs : List Event} {s s' : State} {l : Label}
  {ls : List Label} {of : List Event → Int32} {v : Int32}

theorem loop_append (p q : List Event) : loop (p ++ q) = loop p ++ loop q :=
  List.filterMap_append

/-- An event that is no step of the loop. -/
theorem loop_concat_of_none (evs : List Event) (h : e.label = none) :
    loop (evs ++ [e]) = loop evs := by
  rw [loop_append]
  simp [loop, h]

/-! ### What has been read -/

/-- The read itself. -/
theorem ReadAt.now (hv : v = of evs) : ReadAt e e' of (evs ++ [e]) v :=
  ⟨evs, [], rfl, (fun _ hx => nomatch hx), hv⟩

/-- Handlers and the other read may follow. -/
theorem ReadAt.concat (h : ReadAt e e' of evs v) (hx : x.isMain = true → x = e') :
    ReadAt e e' of (evs ++ [x]) v := by
  obtain ⟨p, q, rfl, hq, hv⟩ := h
  refine ⟨p, q ++ [x], by rw [List.append_assoc, List.cons_append], fun y hy => ?_, hv⟩
  rcases List.mem_append.1 hy with hy | hy
  · exact hq y hy
  · rw [List.mem_singleton.1 hy]
    exact hx

/-! ### The tick and the loop -/

/-- At the tick, only handlers do anything else. -/
theorem handler_of_step (hpc : s.pc = .tick) (hl : l.isTick = false) (hst : Step s l s') :
    l.isMain = false ∧ s'.pc = .tick := by
  cases hst with
  | tick _ => cases hl
  | sigint | sighup | sigusr1 => exact ⟨rfl, hpc⟩
  | again h | leave h | sleep h | requested h | notRequested h | reload h | clear h | reached h
    | notReached h | stop h => cases hpc.symm.trans h

/-- A handler does the same before `count++` as behind it. -/
theorem before_step (hcounted : m.counted = true → m.main.pc = .tick) (hl : l.isTick = false)
    (hst : Step m.main l s') : Step m.before l ({ m with main := s' } : Micro).before := by
  obtain ⟨s, counted, sigCount, reload⟩ := m
  cases counted with
  | false => exact hst
  | true =>
    have hmain := (handler_of_step (hcounted rfl) hl hst).1
    cases hst with
    | sigint => exact .sigint
    | sighup => exact .sighup
    | sigusr1 => exact .sigusr1
    | _ => cases hmain

/-- The tallies of a tick do not depend on what it shows of the globals. -/
theorem Tallies.tick_congr {count sigCount reload sigCount' reload' : Int32}
    (h : Tallies (ls ++ [.tick count sigCount reload]) s) :
    Tallies (ls ++ [.tick count sigCount' reload']) s := by
  refine ⟨?_, ?_, ?_, ?_, h.pending, ?_, h.left⟩
  · simpa [Label.isTick] using h.count
  · simpa using h.sigCount
  · simpa [Label.isClear] using h.reload
  · simpa [Label.isReload] using h.served
  · simpa using h.stopped

/-- What the history says about the state, within the tick too. -/
structure Sound (evs : List Event) (m : Micro) : Prop where
  within : Within m.before
  tallies : Tallies (loop evs) m.before
  counted : m.counted = true → m.main.pc = .tick
  sigCount : ∀ v, m.sigCount = some v → m.counted = true ∧
    ReadAt .readSigCount .readReload (fun p => Int32.ofNat ((loop p).count .sigusr1)) evs v
  reload : ∀ v, m.reload = some v → m.counted = true ∧
    ReadAt .readReload .readSigCount
      (fun p => if .sighup ∈ sinceLast Label.isClear (loop p) then 1 else 0) evs v

theorem sound_start : Sound [] ⟨start, false, none, none⟩ :=
  ⟨within_start, tallies_start, (fun h => nomatch h), (fun _ h => nomatch h),
    fun _ h => nomatch h⟩

/-- The globals before the tick are those of now. -/
theorem Micro.before_globals (m : Micro) :
    m.before.sigCount = m.main.sigCount ∧ m.before.reload = m.main.reload := by
  rw [Micro.before]
  split <;> exact ⟨rfl, rfl⟩

/-- The print is the tick of the loop. -/
theorem before_tick (hcounted : m.counted = true) (hpc : m.main.pc = .tick) :
    Step m.before (.tick m.main.count m.main.sigCount m.main.reload)
      { m.main with pc := .check } := by
  obtain ⟨s, counted, sigCount, reload⟩ := m
  obtain rfl : counted = true := hcounted
  have hst := Step.tick (s := { s with count := s.count - 1 }) hpc
  simp only [Int32.sub_add_cancel] at hst
  exact hst

/-- Every event keeps all that. -/
theorem sound_step (h : Sound evs m) (hst : Micro.Step m e m') : Sound (evs ++ [e]) m' := by
  obtain ⟨hwithin, htallies, hcounted, hsig, hreload⟩ := h
  obtain ⟨hbsig, hbreload⟩ := m.before_globals
  cases hst with
  | step hl hst =>
    have hbefore := before_step hcounted hl hst
    have hhandler := fun hc => handler_of_step (hcounted hc) hl hst
    refine ⟨within_step hwithin hbefore, ?_, fun hc => (hhandler hc).2, fun v hv => ?_,
      fun v hv => ?_⟩
    · rw [loop_append]
      exact tallies_step hwithin htallies hbefore
    · obtain ⟨hc, hread⟩ := hsig v hv
      exact ⟨hc, hread.concat fun hmain => absurd hmain (by simp [Event.isMain, hhandler hc])⟩
    · obtain ⟨hc, hread⟩ := hreload v hv
      exact ⟨hc, hread.concat fun hmain => absurd hmain (by simp [Event.isMain, hhandler hc])⟩
  | count hpc hnot =>
    -- nothing has been read before `count++`
    have hback : (Micro.mk { m.main with count := m.main.count + 1 } true m.sigCount
        m.reload).before = m.before := by
      simp [Micro.before, hnot, Int32.add_sub_cancel]
    refine ⟨hback ▸ hwithin, ?_, fun _ => hpc, fun v hv => ?_, fun v hv => ?_⟩
    · rw [hback, loop_concat_of_none evs rfl]
      exact htallies
    · exact absurd (hsig v hv).1 (by simp [hnot])
    · exact absurd (hreload v hv).1 (by simp [hnot])
  | readSigCount hc _ =>
    refine ⟨hwithin, ?_, hcounted, fun v hv => ⟨hc, ?_⟩, fun v hv => ⟨hc, ?_⟩⟩
    · rw [loop_concat_of_none evs rfl]
      exact htallies
    · obtain rfl := Option.some.inj hv
      exact .now (hbsig.symm.trans htallies.sigCount)
    · exact (hreload v hv).2.concat fun _ => rfl
  | readReload hc _ =>
    refine ⟨hwithin, ?_, hcounted, fun v hv => ⟨hc, ?_⟩, fun v hv => ⟨hc, ?_⟩⟩
    · rw [loop_concat_of_none evs rfl]
      exact htallies
    · exact (hsig v hv).2.concat fun _ => rfl
    · obtain rfl := Option.some.inj hv
      exact .now (hbreload.symm.trans htallies.reload)
  | print hc _ _ =>
    have htick := before_tick hc (hcounted hc)
    refine ⟨within_step hwithin htick, ?_, (fun h => nomatch h), (fun _ h => nomatch h),
      fun _ h => nomatch h⟩
    rw [loop_append]
    exact (tallies_step hwithin htallies htick).tick_congr

theorem sound_of_run (h : micro.Run evs m) : Sound evs m := by
  induction h with
  | start hm =>
    obtain rfl := hm
    exact sound_start
  | next _ hst ih => exact sound_step ih hst

/-! ### The lines -/

/-- The tick line due at `pc`. -/
def Pc.due : Pc → ℕ
  | .sleep | .tick => 1
  | _ => 0

/-- A tick line. -/
def Event.isTick : Event → Bool
  | .step l => l.isTick
  | .print _ _ _ => true
  | _ => false

theorem countP_isTick_loop (evs : List Event) :
    (loop evs).countP Label.isTick = evs.countP Event.isTick := by
  rw [loop, List.countP_filterMap]
  refine List.countP_congr fun e _ => ?_
  cases e <;> rfl

/-- Once stopped, the loop stays stopped, and prints the line that is due at most. -/
theorem ranks_stopped :
    micro.Ranks Event.isTick
      (fun m => m.main.running = 0 ∧ (m.counted = true → m.main.pc = .tick))
      fun m => m.main.pc.due := by
  refine ⟨fun ⟨hrun, hcounted⟩ hst => ?_, fun ⟨hrun, hcounted⟩ hst => ?_⟩
  · cases hst with
    | step hl hst =>
      refine ⟨?_, fun hc => (handler_of_step (hcounted hc) hl hst).2⟩
      cases hst with
      | stop _ => rfl
      | sigint => rfl
      | _ => exact hrun
    | count hpc _ => exact ⟨hrun, fun _ => hpc⟩
    | readSigCount _ _ | readReload _ _ => exact ⟨hrun, hcounted⟩
    | print _ _ _ => exact ⟨hrun, fun h => nomatch h⟩
  · cases hst with
    | step hl hst =>
      rw [Event.isTick, hl]
      cases hst with
      | again _ hrun' => exact absurd hrun hrun'
      | sleep hpc => rw [hpc]; exact le_rfl
      | sigint => exact le_rfl
      | sighup => exact le_rfl
      | sigusr1 => exact le_rfl
      | _ => exact Nat.zero_le _
    | count _ _ => exact le_rfl
    | readSigCount _ _ | readReload _ _ => exact le_rfl
    | print hc _ _ => rw [hcounted hc]; exact le_rfl

/-- **What the tick lines say.**  In every run of the loop with its tick taken apart: the `n`-th
tick line shows `n`, at most 50; the number of SIGUSR1s (modulo `2 ^ 32`) handled before this tick
read `sig_count`; and `reload=1` exactly if, when this tick read `reload`, a SIGHUP had been
handled since it was last cleared.  At most one tick line follows a SIGINT, and there are no more
reload actions than SIGHUPs. -/
theorem ticks_exact (h : micro.Run evs m) :
    (∀ (p q : List Event) (count sigCount reload : Int32),
      evs = p ++ .print count sigCount reload :: q →
      count.toInt = p.countP Event.isTick + 1 ∧ count.toInt ≤ 50 ∧
        ReadAt .readSigCount .readReload (fun p => Int32.ofNat ((loop p).count .sigusr1)) p
          sigCount ∧
        ReadAt .readReload .readSigCount
          (fun p => if .sighup ∈ sinceLast Label.isClear (loop p) then 1 else 0) p reload) ∧
      (∀ p q, evs = p ++ .step .sigint :: q → q.countP Event.isTick ≤ 1) ∧
      (loop evs).countP Label.isReload ≤ (loop evs).count .sighup := by
  refine ⟨?_, ?_, (Nat.le_add_right _ _).trans (sound_of_run h).tallies.served⟩
  · rintro p q count sigCount reload rfl
    obtain ⟨t, hrun, hpath⟩ := h.exists_path
    obtain ⟨hwithin, htallies, hcounted, hsig, hreload⟩ := sound_of_run hrun
    cases hpath with
    | step hst _ =>
      cases hst with
      | print hc hsome hsome' =>
        have htick := before_tick hc (hcounted hc)
        have hcount := (tallies_step hwithin htallies htick).count
        rw [List.countP_append, countP_isTick_loop] at hcount
        exact ⟨hcount, (within_step hwithin htick).le, (hsig _ hsome).2, (hreload _ hsome').2⟩
  · rintro p q rfl
    obtain ⟨t, hrun, hpath⟩ := h.exists_path
    have hcounted := (sound_of_run hrun).counted
    cases hpath with
    | step hst hpath =>
      cases hst with
      | step _ hst =>
        cases hst with
        | sigint =>
          have hle := ranks_stopped.countP_le
            (s := { t with main := { t.main with running := 0 } }) ⟨rfl, hcounted⟩ hpath
          have hdue : t.main.pc.due ≤ 1 := by cases t.main.pc <;> decide
          dsimp only at hle
          omega

/-- Three signals within one tick: a SIGUSR1 and a SIGHUP between the two reads, and a SIGINT
before the print. -/
def signalled : List Event :=
  [.step .sigusr1, .step .loop, .step .sleep, .count, .readSigCount, .step .sigusr1,
    .step .sighup, .readReload, .step .sigint, .print 1 1 1, .step .check, .step .reloadPrint,
    .step .clear, .step .limit, .step .loop]

theorem run_signalled : ∃ m, micro.Run signalled m := by
  have h₀ : micro.Run [] ⟨start, false, none, none⟩ := .start rfl
  have h₁ := (h₀.next (.step rfl .sigusr1)).next (.step rfl (.again rfl (by decide)))
  have h₂ := ((h₁.next (.step rfl (.sleep rfl))).next (.count rfl rfl)).next
    (.readSigCount rfl rfl)
  have h₃ := ((h₂.next (.step rfl .sigusr1)).next (.step rfl .sighup)).next (.readReload rfl rfl)
  have h₄ := (h₃.next (.step rfl .sigint)).next (.print rfl rfl rfl)
  have h₅ := (h₄.next (.step rfl (.requested rfl (by decide)))).next (.step rfl (.reload rfl))
  have h₆ := (h₅.next (.step rfl (.clear rfl))).next (.step rfl (.notReached rfl (by decide)))
  exact ⟨_, h₆.next (.step rfl (.leave rfl rfl))⟩

/-- One line, of a tick in which a second SIGUSR1 came after `sig_count` was read: it shows one,
and the `reload` of later. -/
theorem ticks_exact_signalled :
    ((1 : Int32).toInt = (signalled.take 9).countP Event.isTick + 1 ∧ (1 : Int32).toInt ≤ 50 ∧
      ReadAt .readSigCount .readReload (fun p => Int32.ofNat ((loop p).count .sigusr1))
        (signalled.take 9) 1 ∧
      ReadAt .readReload .readSigCount
        (fun p => if .sighup ∈ sinceLast Label.isClear (loop p) then 1 else 0)
        (signalled.take 9) 1) ∧
      (signalled.drop 9).countP Event.isTick ≤ 1 ∧
      (loop signalled).countP Label.isReload ≤ (loop signalled).count .sighup := by
  obtain ⟨m, h⟩ := run_signalled
  obtain ⟨hlines, hstop, hserved⟩ := ticks_exact h
  exact ⟨hlines (signalled.take 9) (signalled.drop 10) 1 1 1 rfl,
    hstop (signalled.take 8) (signalled.drop 9) rfl, hserved⟩

end Signals

end CAcheRein
