import CAcheRein.Bits.Checked
import CAcheRein.Transition.System
import Mathlib.Algebra.Ring.Int.Defs
import Mathlib.Logic.Function.Basic

/-!
# Two threads incrementing without a mutex

The first half of `module5-linux-systems/ex05-threads-mutex`: `main` starts `thread_unsafe` twice,
and each run increments `counter_unsafe` `ITERATIONS` times.  The increment is a load and a store,
and nothing keeps the other thread from running in between.

`Race.final_values` : the values `counter_unsafe` can have when both threads have finished are
exactly those from 2 (or `ITERATIONS`, if that is less) to `2 * ITERATIONS`.
-/

namespace CAcheRein

namespace Race

/-- The two runs of `thread_unsafe`, under the names `main` gives them. -/
inductive Thread where
  | t1
  | t2
  deriving DecidableEq

/-- Where a run of `thread_unsafe` is, with its loop index and what it has loaded. -/
inductive Pc where
  /-- At the loop test, and then at the load. -/
  | test (i : ℕ)
  | store (i : ℕ) (loaded : Int32)
  | finished

/-- The shared counter and the two program counters. -/
structure State where
  counterUnsafe : Int32
  pc : Thread → Pc

/-- Go on at `pc`. -/
def State.goto (s : State) (t : Thread) (pc : Pc) : State :=
  { s with pc := Function.update s.pc t pc }

/-- The steps of `thread_unsafe` with `ITERATIONS = iterations`. -/
inductive Step (iterations : ℕ) : State → Thread → State → Prop
  | load {s t i} : s.pc t = .test i → i < iterations →
      Step iterations s t (s.goto t (.store i s.counterUnsafe))
  | store {s t i loaded} : s.pc t = .store i loaded →
      Step iterations s t { s.goto t (.test (i + 1)) with counterUnsafe := loaded + 1 }
  | finish {s t i} : s.pc t = .test i → ¬ i < iterations →
      Step iterations s t (s.goto t .finished)

/-- Both threads after `pthread_create`. -/
def start : State := ⟨0, fun _ => .test 0⟩

/-- The two threads. -/
def system (iterations : ℕ) : System State Thread where
  init s := s = start
  step := Step iterations

variable {iterations : ℕ} {s s' : State} {t u : Thread}

/-! ### The bounds -/

/-- How often a thread at `pc` has stored. -/
def Pc.stores (iterations : ℕ) : Pc → ℕ
  | .test i => i
  | .store i _ => i
  | .finished => iterations

/-- The stores of both threads. -/
def State.total (iterations : ℕ) (s : State) : ℕ :=
  (s.pc .t1).stores iterations + (s.pc .t2).stores iterations

/-- What holds of a thread at `pc` when `total` stores have been performed: what it has loaded is
at most their number, and at least 1 if it has stored itself. -/
def PcInv (iterations total : ℕ) : Pc → Prop
  | .test i => i ≤ iterations
  | .store i loaded => i < iterations ∧ 0 ≤ loaded.toInt ∧ loaded.toInt ≤ total ∧
      (1 ≤ i → 1 ≤ loaded.toInt)
  | .finished => True

/-- The invariant of the two threads. -/
structure Inv (iterations : ℕ) (s : State) : Prop where
  pc : ∀ t, PcInv iterations (s.total iterations) (s.pc t)
  nonneg : 0 ≤ s.counterUnsafe.toInt
  le_total : s.counterUnsafe.toInt ≤ s.total iterations
  pos : 1 ≤ s.total iterations → 1 ≤ s.counterUnsafe.toInt
  last : s.total iterations = 2 * iterations → min iterations 2 ≤ s.counterUnsafe.toInt

theorem PcInv.mono {total total' : ℕ} (hle : total ≤ total') {pc : Pc}
    (h : PcInv iterations total pc) : PcInv iterations total' pc := by
  cases pc with
  | test i => exact h
  | store i loaded => exact ⟨h.1, h.2.1, by have := h.2.2.1; omega, h.2.2.2⟩
  | finished => trivial

theorem PcInv.stores_le {total : ℕ} {pc : Pc} (h : PcInv iterations total pc) :
    pc.stores iterations ≤ iterations := by
  cases pc with
  | test i => exact h
  | store i loaded => exact h.1.le
  | finished => exact le_rfl

theorem pc_goto (s : State) (t : Thread) (pc : Pc) (u : Thread) :
    (s.goto t pc).pc u = if u = t then pc else s.pc u := Function.update_apply _ _ _ _

/-- The stores after one thread has moved. -/
theorem total_goto (iterations : ℕ) (s : State) (t : Thread) (pc : Pc) :
    (s.goto t pc).total iterations + (s.pc t).stores iterations =
      s.total iterations + pc.stores iterations := by
  cases t <;> simp [State.total, pc_goto] <;> omega

/-- The stores of one thread are among all stores. -/
theorem stores_le_total (iterations : ℕ) (s : State) (t : Thread) :
    (s.pc t).stores iterations ≤ s.total iterations := by
  cases t <;> simp [State.total]

theorem inv_start : Inv iterations start := by
  have hzero : start.total iterations = 0 := rfl
  refine ⟨fun _ => Nat.zero_le _, le_rfl, by rw [hzero]; rfl, ?_, ?_⟩
  · rw [hzero]
    omega
  · rw [hzero]
    intro hN
    have : iterations = 0 := by omega
    rw [this]
    rfl

/-- A move that stores nothing. -/
theorem inv_goto (h : Inv iterations s) {pc : Pc} (hpc : PcInv iterations (s.total iterations) pc)
    (hstores : pc.stores iterations = (s.pc t).stores iterations) :
    Inv iterations (s.goto t pc) := by
  have htotal : (s.goto t pc).total iterations = s.total iterations := by
    have := total_goto iterations s t pc
    omega
  refine ⟨fun u => ?_, h.nonneg, ?_, ?_, ?_⟩
  · rw [htotal, pc_goto]
    split_ifs
    · exact hpc
    · exact h.pc u
  · rw [htotal]
    exact h.le_total
  · rw [htotal]
    exact h.pos
  · rw [htotal]
    exact h.last

/-- The stores of one thread and all the other can do. -/
theorem total_le_add (h : Inv iterations s) (t : Thread) :
    s.total iterations ≤ (s.pc t).stores iterations + iterations := by
  have h1 := (h.pc .t1).stores_le
  have h2 := (h.pc .t2).stores_le
  cases t <;> rw [State.total] <;> omega

theorem total_le (h : Inv iterations s) : s.total iterations ≤ 2 * iterations := by
  have h1 := (h.pc .t1).stores_le
  have hsum := total_le_add h .t1
  omega

/-- Every step keeps the invariant. -/
theorem inv_step (hN : 2 * iterations < 2 ^ 31) (h : Inv iterations s)
    (hst : Step iterations s t s') : Inv iterations s' := by
  have hpc := h.pc t
  cases hst with
  | @load i hat hlt =>
    have hle := stores_le_total iterations s t
    rw [hat, Pc.stores] at hle
    refine inv_goto h ⟨hlt, h.nonneg, h.le_total, fun hi => h.pos (hi.trans hle)⟩ ?_
    rw [hat]
    rfl
  | @store i loaded hat =>
    rw [hat] at hpc
    obtain ⟨hlt, hnonneg, hle, hpos⟩ := hpc
    have hbound := total_le h
    have hmine : (s.pc t).stores iterations = i := by rw [hat, Pc.stores]
    have htotal : (s.goto t (.test (i + 1))).total iterations = s.total iterations + 1 := by
      have hgoto := total_goto iterations s t (.test (i + 1))
      rw [hmine, Pc.stores] at hgoto
      omega
    have hother := total_le_add h t
    rw [hmine] at hother
    have hval : (loaded + 1).toInt = loaded.toInt + 1 :=
      toInt_add_of_inInt32 (b := 1) ⟨by rw [Int32.toInt_one]; omega, by rw [Int32.toInt_one]; omega⟩
    refine ⟨fun u => ?_, ?_, ?_, fun _ => ?_, ?_⟩
    · change PcInv _ ((s.goto t (.test (i + 1))).total iterations) ((s.goto t _).pc u)
      rw [htotal, pc_goto]
      split_ifs
      · exact hlt
      · exact (h.pc u).mono (Nat.le_succ _)
    · change 0 ≤ (loaded + 1).toInt
      omega
    · change (loaded + 1).toInt ≤ ((s.goto t (.test (i + 1))).total iterations : ℤ)
      omega
    · change 1 ≤ (loaded + 1).toInt
      omega
    · -- the very last store is in an iteration before which its thread has stored
      change (s.goto t (.test (i + 1))).total iterations = _ → _ ≤ (loaded + 1).toInt
      intro hlast
      rcases Nat.eq_zero_or_pos i with rfl | hi
      · omega
      · have := hpos hi
        omega
  | @finish i hat hge =>
    rw [hat] at hpc
    have hi : i = iterations := le_antisymm hpc (not_lt.1 hge)
    refine inv_goto h trivial ?_
    rw [hat, hi]
    rfl

theorem inv_of_reachable (hN : 2 * iterations < 2 ^ 31) (h : (system iterations).Reachable s) :
    Inv iterations s :=
  h.invariant (by rintro s rfl; exact inv_start) fun _ _ _ hi hst => inv_step hN hi hst

/-! ### The schedules -/

/-- The counter at `n`, the thread `t` at `p` and the other one at `q`. -/
def duo (t : Thread) (n : ℕ) (p q : Pc) : State :=
  ⟨Int32.ofNat n, fun u => if u = t then p else q⟩

variable {n i k : ℕ} {p q : Pc}

theorem goto_duo (p' : Pc) : (duo t n p q).goto t p' = duo t n p' q := by
  simp only [State.goto, duo, State.mk.injEq, true_and]
  funext u
  rw [Function.update_apply]
  split_ifs <;> rfl

/-- The same state from the other thread's side. -/
theorem duo_comm : duo .t1 n p q = duo .t2 n q p := by
  simp only [duo, State.mk.injEq, true_and]
  funext u
  cases u <;> rfl

theorem reachable_load (h : (system iterations).Reachable (duo t n (.test i) q))
    (hi : i < iterations) :
    (system iterations).Reachable (duo t n (.store i (Int32.ofNat n)) q) := by
  have hat : (duo t n (.test i) q).pc t = .test i := by simp [duo]
  have hstep := h.next (.load hat hi)
  rwa [goto_duo] at hstep

theorem reachable_store
    (h : (system iterations).Reachable (duo t n (.store i (Int32.ofNat k)) q)) :
    (system iterations).Reachable (duo t (k + 1) (.test (i + 1)) q) := by
  have hat : (duo t n (.store i (Int32.ofNat k)) q).pc t = .store i (Int32.ofNat k) := by
    simp [duo]
  have hstep := h.next (.store hat)
  rw [goto_duo] at hstep
  have hval : Int32.ofNat (k + 1) = Int32.ofNat k + 1 := Int32.ofNat_add k 1
  rw [duo, hval]
  exact hstep

/-- A thread that runs alone for `k` iterations. -/
theorem reachable_alone (h : (system iterations).Reachable (duo t n (.test i) q))
    (hk : i + k ≤ iterations) :
    (system iterations).Reachable (duo t (n + k) (.test (i + k)) q) := by
  induction k with
  | zero => exact h
  | succ k ih =>
    have hlt : i + k < iterations := by omega
    exact reachable_store (reachable_load (ih hlt.le) hlt)

theorem reachable_finish (h : (system iterations).Reachable (duo .t1 n (.test iterations)
    (.test iterations))) : (system iterations).Reachable (duo .t1 n .finished .finished) := by
  have h₁ := h.next (.finish (t := .t1) (i := iterations) rfl (lt_irrefl _))
  rw [goto_duo, duo_comm] at h₁
  have h₂ := h₁.next (.finish (t := .t2) (i := iterations) rfl (lt_irrefl _))
  rwa [goto_duo, ← duo_comm] at h₂

theorem reachable_start : (system iterations).Reachable (duo .t1 0 (.test 0) (.test 0)) := by
  refine .start ?_
  simp only [system, start, duo, State.mk.injEq]
  exact ⟨rfl, funext fun u => by split_ifs <;> rfl⟩

/-- **A schedule that loses updates.**  `t1` loads after `m` iterations of `t2`, and stores when
`t2` has one left; `t2` then loads after `j` stores of `t1`, and stores when `t1` is done. -/
theorem reachable_overlap {m j : ℕ} (hm : m < iterations) (hj : 1 ≤ j) (hj' : j ≤ iterations) :
    (system iterations).Reachable (duo .t1 (m + j + 1) .finished .finished) := by
  have hbefore : (system iterations).Reachable (duo .t1 m (.test 0) (.test m)) := by
    have h : (system iterations).Reachable (duo .t1 0 (.test 0) (.test 0)) := reachable_start
    rw [duo_comm] at h
    have hrun := reachable_alone (k := m) h (by omega)
    rw [Nat.zero_add, ← duo_comm] at hrun
    exact hrun
  -- `t2` runs up to its last iteration, and `t1` overwrites all of that
  have hoverwritten : (system iterations).Reachable
      (duo .t1 (m + 1) (.test 1) (.test (iterations - 1))) := by
    have h := reachable_load hbefore (by omega)
    rw [duo_comm] at h
    have hrun := reachable_alone (k := iterations - 1 - m) h (by omega)
    rw [← duo_comm] at hrun
    have hindex : m + (iterations - 1 - m) = iterations - 1 := by omega
    rw [hindex] at hrun
    exact reachable_store hrun
  -- `t1` goes on, and `t2` loads for its last iteration
  have hloaded : (system iterations).Reachable (duo .t1 (m + j) (.test j)
      (.store (iterations - 1) (Int32.ofNat (m + j)))) := by
    have hrun := reachable_alone (k := j - 1) hoverwritten (by omega)
    have hindex : 1 + (j - 1) = j := by omega
    rw [Nat.add_assoc, hindex, duo_comm] at hrun
    have h := reachable_load hrun (by omega)
    rwa [← duo_comm] at h
  -- `t1` runs to its end, which the store of `t2` overwrites
  have hdone := reachable_alone (k := iterations - j) hloaded (by omega)
  rw [Nat.add_sub_of_le hj', duo_comm] at hdone
  have hstore := reachable_store hdone
  rw [Nat.sub_add_cancel (by omega : 1 ≤ iterations), ← duo_comm] at hstore
  exact reachable_finish hstore

/-- One iteration each, both loading first. -/
theorem reachable_both_load : (system 1).Reachable (duo .t1 1 .finished .finished) := by
  have h₁ : (system 1).Reachable (duo .t1 0 (.store 0 (Int32.ofNat 0)) (.test 0)) :=
    reachable_load reachable_start (by decide)
  rw [duo_comm] at h₁
  have h₂ := reachable_load h₁ (by decide)
  rw [← duo_comm] at h₂
  have h₃ := reachable_store h₂
  rw [duo_comm] at h₃
  have h₄ := reachable_store h₃
  rw [← duo_comm] at h₄
  exact reachable_finish h₄

/-- **What is left of the increments.**  The values the counter can have when both threads have
finished are exactly those from 2 (or `ITERATIONS`, if that is less) to `2 * ITERATIONS`. -/
theorem final_values (hN : 2 * iterations < 2 ^ 31) (v : ℤ) :
    (∃ s, (system iterations).Reachable s ∧ (∀ t, s.pc t = .finished) ∧
      s.counterUnsafe.toInt = v) ↔ min iterations 2 ≤ v ∧ v ≤ 2 * iterations := by
  constructor
  · rintro ⟨s, hs, hdone, rfl⟩
    have hinv := inv_of_reachable hN hs
    have htotal : s.total iterations = 2 * iterations := by
      rw [State.total, hdone, hdone, Pc.stores]
      omega
    have hle := hinv.le_total
    rw [htotal] at hle
    exact ⟨hinv.last htotal, by omega⟩
  · rintro ⟨hlo, hhi⟩
    obtain ⟨n, rfl⟩ := Int.eq_ofNat_of_zero_le (by omega : 0 ≤ v)
    suffices hreach : (system iterations).Reachable (duo .t1 n .finished .finished) from
      ⟨_, hreach, fun t => by simp [duo], Int32.toInt_ofNat_of_lt (by omega)⟩
    rcases Nat.lt_or_ge n 2 with hn | hn
    · -- fewer than two iterations each
      have hcases : iterations = 0 ∧ n = 0 ∨ iterations = 1 ∧ n = 1 := by omega
      rcases hcases with ⟨rfl, rfl⟩ | ⟨rfl, rfl⟩
      · exact reachable_finish reachable_start
      · exact reachable_both_load
    · rcases Nat.lt_or_ge iterations (n - 1) with hlt | hge
      · have hsum : n - 1 - iterations + iterations + 1 = n := by omega
        rw [← hsum]
        exact reachable_overlap (by omega) (by omega) le_rfl
      · have hsum : 0 + (n - 1) + 1 = n := by omega
        rw [← hsum]
        exact reachable_overlap (by omega) (by omega) hge

/-- Three iterations each. -/
theorem final_values_three : ∃ s, (system 3).Reachable s ∧ (∀ t, s.pc t = .finished) ∧
    s.counterUnsafe.toInt = 2 := (final_values (by decide) 2).2 (by decide)

end Race

end CAcheRein
