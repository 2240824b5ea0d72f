import CAcheRein.Transition.System
import Mathlib.Algebra.Group.Nat.Defs
import Mathlib.Algebra.Ring.Int.Defs
import Mathlib.Logic.Function.Basic

/-!
# Two threads incrementing under a mutex

The second half of `module5-linux-systems/ex05-threads-mutex`: `main` starts `thread_safe` twice,
and each run increments `counter_safe` `ITERATIONS` times between `pthread_mutex_lock` and
`pthread_mutex_unlock`.  The increment is a load and a store.

`Threads.counter_exact` : in every reachable state of every interleaving, at most one thread is
between its lock and its unlock, and `counter_safe` is the number of stores so far; so it is
`2 * ITERATIONS` when both threads have finished.
-/

namespace CAcheRein

namespace Threads

/-- The two runs of `thread_safe`, under the names `main` gives them. -/
inductive Thread where
  | t3
  | t4
  deriving DecidableEq

/-- Where a run of `thread_safe` is, with its loop index and what it has loaded. -/
inductive Pc where
  /-- At the loop test, and then at the lock. -/
  | test (i : ℕ)
  | load (i : ℕ)
  | store (i : ℕ) (loaded : Int32)
  | unlock (i : ℕ)
  | finished

/-- The shared counter, the mutex, the two program counters, and how often each thread has
stored. -/
structure State where
  counterSafe : Int32
  mtx : Option Thread
  pc : Thread → Pc
  stores : Thread → ℕ

/-- Go on at `pc`. -/
def State.goto (s : State) (t : Thread) (pc : Pc) : State :=
  { s with pc := Function.update s.pc t pc }

/-- The steps of `thread_safe` with `ITERATIONS = iterations`. -/
inductive Step (iterations : ℕ) : State → Thread → State → Prop
  | lock {s t i} : s.pc t = .test i → i < iterations → s.mtx = none →
      Step iterations s t { s.goto t (.load i) with mtx := some t }
  | load {s t i} : s.pc t = .load i → Step iterations s t (s.goto t (.store i s.counterSafe))
  | store {s t i loaded} : s.pc t = .store i loaded →
      Step iterations s t
        { s.goto t (.unlock i) with
          counterSafe := loaded + 1
          stores := Function.update s.stores t (s.stores t + 1) }
  | unlock {s t i} : s.pc t = .unlock i →
      Step iterations s t { s.goto t (.test (i + 1)) with mtx := none }
  | finish {s t i} : s.pc t = .test i → ¬ i < iterations →
      Step iterations s t (s.goto t .finished)

/-- Both threads after `pthread_create`. -/
def start : State := ⟨0, none, fun _ => .test 0, fun _ => 0⟩

/-- The two threads. -/
def system (iterations : ℕ) : System State Thread where
  init s := s = start
  step := Step iterations

/-- The stores of both threads. -/
def State.total (s : State) : ℕ := s.stores .t3 + s.stores .t4

/-! ### The invariant -/

/-- Between the lock and the unlock. -/
def Pc.Inside : Pc → Prop
  | .load _ | .store _ _ | .unlock _ => True
  | _ => False

/-- What holds of a thread at `pc` that has stored `n` times: the index counts the stores, and
what it has loaded is still the counter. -/
def PcInv (iterations : ℕ) (counter : Int32) (n : ℕ) : Pc → Prop
  | .test i => n = i ∧ i ≤ iterations
  | .load i => n = i ∧ i < iterations
  | .store i loaded => n = i ∧ i < iterations ∧ loaded = counter
  | .unlock i => n = i + 1 ∧ i < iterations
  | .finished => n = iterations

/-- The invariant of the two threads. -/
structure Inv (iterations : ℕ) (s : State) : Prop where
  mutex : Exclusive s.mtx fun t => (s.pc t).Inside
  counter : s.counterSafe = Int32.ofNat s.total
  pc : ∀ t, PcInv iterations s.counterSafe (s.stores t) (s.pc t)

variable {iterations : ℕ} {s s' : State} {t : Thread}

theorem PcInv.le {counter : Int32} {n : ℕ} {pc : Pc} (h : PcInv iterations counter n pc) :
    n ≤ iterations := by
  cases pc <;> simp only [PcInv] at h <;> omega

/-- A thread outside the critical section does not care for the counter. -/
theorem PcInv.of_not_inside {counter counter' : Int32} {n : ℕ} {pc : Pc} (hpc : ¬ pc.Inside)
    (h : PcInv iterations counter n pc) : PcInv iterations counter' n pc := by
  cases pc with
  | test i => exact h
  | finished => exact h
  | load i => exact absurd trivial hpc
  | store i loaded => exact absurd trivial hpc
  | unlock i => exact absurd trivial hpc

theorem pc_goto (s : State) (t : Thread) (pc : Pc) (u : Thread) :
    (s.goto t pc).pc u = if u = t then pc else s.pc u := Function.update_apply _ _ _ _

theorem inside_goto (s : State) (t : Thread) (pc : Pc) (u : Thread) :
    ((s.goto t pc).pc u).Inside ↔ (if u = t then pc.Inside else (s.pc u).Inside) := by
  rw [pc_goto]
  split <;> rfl

/-- A move that neither enters nor leaves the critical section. -/
theorem exclusive_goto (h : Inv iterations s) (pc : Pc) (hpc : pc.Inside ↔ (s.pc t).Inside) :
    Exclusive s.mtx fun u => ((s.goto t pc).pc u).Inside := by
  refine h.mutex.congr fun u => ?_
  rw [inside_goto]
  by_cases hu : u = t
  · rw [if_pos hu, hpc, hu]
  · rw [if_neg hu]

/-- What holds of the program counters after one thread has moved without storing. -/
theorem pcInv_goto (h : Inv iterations s) {pc : Pc}
    (hpc : PcInv iterations s.counterSafe (s.stores t) pc) (u : Thread) :
    PcInv iterations s.counterSafe (s.stores u) ((s.goto t pc).pc u) := by
  rw [pc_goto]
  split
  · rename_i hu
    rw [hu]
    exact hpc
  · exact h.pc u

theorem inv_start : Inv iterations start where
  mutex _ := iff_of_false id fun h => nomatch h
  counter := rfl
  pc _ := ⟨rfl, Nat.zero_le _⟩

/-- One more store of either thread. -/
theorem total_update (stores : Thread → ℕ) (t : Thread) :
    Function.update stores t (stores t + 1) .t3 + Function.update stores t (stores t + 1) .t4 =
      stores .t3 + stores .t4 + 1 := by
  cases t
  · rw [Function.update_self, Function.update_of_ne (by decide)]
    omega
  · rw [Function.update_self, Function.update_of_ne (by decide)]
    omega

/-- Every step keeps the invariant. -/
theorem inv_step (h : Inv iterations s) (hst : Step iterations s t s') : Inv iterations s' := by
  have hpc := h.pc t
  cases hst with
  | @lock i hat hlt hfree =>
    rw [hat] at hpc
    have hmutex := h.mutex
    rw [hfree] at hmutex
    refine ⟨hmutex.acquire fun u => ?_, h.counter, pcInv_goto h ⟨hpc.1, hlt⟩⟩
    rw [inside_goto]
    by_cases hu : u = t <;> simp [hu, Pc.Inside]
  | @load i hat =>
    rw [hat] at hpc
    have hmutex := exclusive_goto h (.store i s.counterSafe) (by rw [hat]; rfl)
    exact ⟨hmutex, h.counter, pcInv_goto h ⟨hpc.1, hpc.2, rfl⟩⟩
  | @store i loaded hat =>
    rw [hat] at hpc
    obtain ⟨hn, hlt, rfl⟩ := hpc
    have hin : (s.pc t).Inside := by rw [hat]; trivial
    have hmutex := exclusive_goto h (.unlock i) (by rw [hat]; rfl)
    refine ⟨hmutex, ?_, fun u => ?_⟩
    · change s.counterSafe + 1 = Int32.ofNat (_ + _)
      rw [total_update, Int32.ofNat_add, h.counter]
      rfl
    · change PcInv _ _ (Function.update s.stores t _ u) (Function.update s.pc t _ u)
      by_cases hu : u = t
      · rw [hu, Function.update_self, Function.update_self, hn]
        exact ⟨rfl, hlt⟩
      · -- the other thread is outside, so the new value does not concern it
        rw [Function.update_of_ne hu, Function.update_of_ne hu]
        exact (h.pc u).of_not_inside fun hin' => hu (h.mutex.unique hin' hin)
  | @unlock i hat =>
    rw [hat] at hpc
    have hin : (s.pc t).Inside := by rw [hat]; trivial
    refine ⟨h.mutex.release hin fun u => ?_, h.counter, pcInv_goto h ⟨hpc.1, hpc.2⟩⟩
    rw [inside_goto]
    by_cases hu : u = t <;> simp [hu, Pc.Inside]
  | @finish i hat hge =>
    rw [hat] at hpc
    obtain ⟨hn, hle⟩ := hpc
    have hdone : s.stores t = iterations := by omega
    have hmutex := exclusive_goto h .finished (by rw [hat]; rfl)
    exact ⟨hmutex, h.counter, pcInv_goto h hdone⟩

theorem inv_of_reachable (h : (system iterations).Reachable s) : Inv iterations s :=
  h.invariant (by rintro s rfl; exact inv_start) fun _ _ _ hi hst => inv_step hi hst

/-- **The mutex makes the increment atomic.**  For every number of iterations that fits, in every
reachable state: the threads are never both between lock and unlock, `counter_safe` is the number
of stores performed by both, and when both have finished it is `2 * ITERATIONS`. -/
theorem counter_exact (hN : 2 * iterations < 2 ^ 31) (h : (system iterations).Reachable s) :
    (∀ t u, (s.pc t).Inside → (s.pc u).Inside → t = u) ∧
    s.counterSafe.toInt = s.total ∧
    ((∀ t, s.pc t = .finished) →
      s.counterSafe.toInt = start.counterSafe.toInt + 2 * iterations) := by
  have hinv := inv_of_reachable h
  have h3 := hinv.pc .t3
  have h4 := hinv.pc .t4
  have htotal : s.total ≤ 2 * iterations := by
    have := h3.le
    have := h4.le
    rw [State.total]
    omega
  have hcounter : s.counterSafe.toInt = s.total := by
    rw [hinv.counter, Int32.toInt_ofNat_of_lt (by omega)]
  refine ⟨fun t u ht hu => hinv.mutex.unique ht hu, hcounter, fun hdone => ?_⟩
  rw [hdone] at h3 h4
  have hstart : start.counterSafe.toInt = 0 := rfl
  rw [hcounter, State.total, h3, h4, hstart]
  omega

/-- One iteration each, the second thread waiting for the first. -/
theorem counter_exact_one : ∃ s, (system 1).Reachable s ∧ s.counterSafe = 2 ∧
    (∀ t u, (s.pc t).Inside → (s.pc u).Inside → t = u) ∧ s.counterSafe.toInt = s.total ∧
    ((∀ t, s.pc t = .finished) → s.counterSafe.toInt = start.counterSafe.toInt + 2 * (1 : ℕ)) := by
  have h₀ : (system 1).Reachable start := .start rfl
  have h₁ := h₀.next (.lock (t := .t3) rfl (by decide) rfl)
  have h₂ := (h₁.next (.load (t := .t3) rfl)).next (.store (t := .t3) rfl)
  have h₃ := h₂.next (.unlock (t := .t3) rfl)
  have h₄ := h₃.next (.lock (t := .t4) rfl (by decide) rfl)
  have h₅ := (h₄.next (.load (t := .t4) rfl)).next (.store (t := .t4) rfl)
  have h₆ := h₅.next (.unlock (t := .t4) rfl)
  have h₇ := (h₆.next (.finish (t := .t3) rfl (by decide))).next
    (.finish (t := .t4) rfl (by decide))
  exact ⟨_, h₇, rfl, counter_exact (by decide) h₇⟩

end Threads

end CAcheRein
