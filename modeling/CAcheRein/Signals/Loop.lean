import CAcheRein.Bits.Checked
import CAcheRein.Signals.Reload
import CAcheRein.Transition.Ranking

/-!
# The end of the main loop

The main loop of `module5-linux-systems/ex04-signals` under any arrival of the three signals.
It ends: `main` takes at most 352 steps, is never stuck, and leaves the loop because of a SIGINT
or after fifty ticks (`Signals.loop_ends`).  What its history says about the globals is collected
in `Signals.Tallies`.
-/

namespace CAcheRein

namespace Signals

/-- A step of `main`, not of a handler. -/
def Label.isMain : Label → Bool
  | .sigint | .sighup | .sigusr1 => false
  | _ => true

/-- A tick line. -/
def Label.isTick : Label → Bool
  | .tick _ _ _ => true
  | _ => false

/-- `reload = 0`. -/
def Label.isClear : Label → Bool
  | .clear => true
  | _ => false

variable {s s' : State} {l : Label} {ls : List Label}

/-! ### How far the loop is -/

/-- The tick counter is within its limit, and below it where another tick is due. -/
structure Within (s : State) : Prop where
  nonneg : 0 ≤ s.count.toInt
  le : s.count.toInt ≤ 50
  due : s.pc = .sleep ∨ s.pc = .tick → s.count.toInt < 50
  again : s.pc = .loop → s.running = 0 ∨ s.count.toInt < 50
  stop : s.pc = .stop → s.count.toInt = 50

/-- The ticks left. -/
def State.left (s : State) : ℕ := (50 - s.count.toInt).toNat

/-- A bound on the steps of `main` from `pc` on. -/
def Pc.rank (left : ℕ) : Pc → ℕ
  | .loop => if left = 0 then 1 else 7 * left + 2
  | .sleep => 7 * left + 1
  | .tick => 7 * left
  | .check => 7 * left + 6
  | .reload => 7 * left + 5
  | .clear => 7 * left + 4
  | .limit => 7 * left + 3
  | .stop => 2
  | .cleanup => 0

@[inherit_doc Pc.rank] def State.rank (s : State) : ℕ := s.pc.rank s.left

theorem toInt_fifty : (50 : Int32).toInt = 50 := by decide

theorem toInt_count_succ (h : Within s) (hlt : s.count.toInt < 50) :
    (s.count + 1).toInt = s.count.toInt + 1 := by
  have hnonneg := h.nonneg
  refine toInt_add_of_inInt32 (b := 1) ?_
  rw [Int32.toInt_one]
  exact ⟨by omega, by omega⟩

theorem within_start : Within start := by
  refine ⟨by decide, by decide, ?_, fun _ => .inr (by decide), ?_⟩
  · rintro (h | h) <;> cases h
  · intro h
    cases h

/-- Every step keeps the bounds. -/
theorem within_step (h : Within s) (hst : Step s l s') : Within s' := by
  obtain ⟨hnonneg, hle, hdue, hagain, hstop⟩ := h
  cases hst with
  | again hpc hrun =>
    have hlt := (hagain hpc).resolve_left hrun
    exact ⟨hnonneg, hle, fun _ => hlt, (nomatch ·), (nomatch ·)⟩
  | leave hpc _ => exact ⟨hnonneg, hle, (nomatch ·), (nomatch ·), (nomatch ·)⟩
  | sleep hpc => exact ⟨hnonneg, hle, fun _ => hdue (.inl hpc), (nomatch ·), (nomatch ·)⟩
  | tick hpc =>
    have hlt := hdue (.inr hpc)
    have hsucc := toInt_count_succ ⟨hnonneg, hle, hdue, hagain, hstop⟩ hlt
    refine ⟨?_, ?_, (nomatch ·), (nomatch ·), (nomatch ·)⟩
    · change 0 ≤ (s.count + 1).toInt
      omega
    · change (s.count + 1).toInt ≤ 50
      omega
  | requested | notRequested | reload | clear =>
    exact ⟨hnonneg, hle, (nomatch ·), (nomatch ·), (nomatch ·)⟩
  | reached hpc hge =>
    rw [Int32.le_iff_toInt_le, toInt_fifty] at hge
    exact ⟨hnonneg, hle, (nomatch ·), (nomatch ·), fun _ => le_antisymm hle hge⟩
  | notReached hpc hlt =>
    rw [Int32.le_iff_toInt_le, toInt_fifty, not_le] at hlt
    exact ⟨hnonneg, hle, (nomatch ·), fun _ => .inr hlt, (nomatch ·)⟩
  | stop hpc => exact ⟨hnonneg, hle, (nomatch ·), fun _ => .inl rfl, (nomatch ·)⟩
  | sigint => exact ⟨hnonneg, hle, hdue, fun _ => .inl rfl, hstop⟩
  | sighup => exact ⟨hnonneg, hle, hdue, hagain, hstop⟩
  | sigusr1 => exact ⟨hnonneg, hle, hdue, hagain, hstop⟩

/-- Every step of `main` brings it closer to the end, and a handler does not take it back. -/
theorem rank_step (h : Within s) (hst : Step s l s') :
    s'.rank + l.isMain.toNat ≤ s.rank := by
  cases hst with
  | again hpc hrun =>
    -- the loop goes on only below the limit
    have hleft : s.left ≠ 0 := by
      have hlt := (h.again hpc).resolve_left hrun
      rw [State.left]
      omega
    rw [State.rank, State.rank, hpc, Pc.rank, Pc.rank, if_neg hleft]
    exact le_rfl
  | leave hpc _ =>
    rw [State.rank, State.rank, hpc, Pc.rank, Pc.rank]
    split_ifs
    · exact le_rfl
    · exact Nat.le_add_left 1 _
  | sleep hpc =>
    rw [State.rank, State.rank, hpc]
    exact le_rfl
  | tick hpc =>
    have hlt := h.due (.inr hpc)
    -- a tick uses up one of the ticks left
    have hleft : (50 - (s.count + 1).toInt).toNat + 1 = s.left := by
      rw [toInt_count_succ h hlt, State.left]
      omega
    change 7 * (50 - (s.count + 1).toInt).toNat + 6 + 1 ≤ _
    rw [State.rank, hpc, Pc.rank]
    omega
  | requested hpc _ | reload hpc | clear hpc =>
    rw [State.rank, State.rank, hpc]
    exact le_rfl
  | notRequested hpc _ =>
    change 7 * s.left + 3 + 1 ≤ _
    rw [State.rank, hpc, Pc.rank]
    omega
  | reached hpc _ =>
    change 2 + 1 ≤ _
    rw [State.rank, hpc, Pc.rank]
    omega
  | notReached hpc _ =>
    change (if s.left = 0 then 1 else 7 * s.left + 2) + 1 ≤ _
    rw [State.rank, hpc, Pc.rank]
    split_ifs <;> omega
  | stop hpc =>
    have hleft : s.left = 0 := by
      have heq := h.stop hpc
      rw [State.left]
      omega
    change (if s.left = 0 then 1 else 7 * s.left + 2) + 1 ≤ _
    rw [State.rank, hpc, if_pos hleft]
    exact le_rfl
  | sigint | sighup | sigusr1 => exact le_rfl

theorem ranks : system.Ranks Label.isMain Within State.rank :=
  ⟨within_step, rank_step⟩

/-- `main` is never stuck in its loop. -/
theorem main_can_step (s : State) (h : s.pc ≠ .cleanup) :
    ∃ l s', l.isMain = true ∧ Step s l s' := by
  cases hpc : s.pc with
  | loop =>
    by_cases hrun : s.running = 0
    · exact ⟨_, _, rfl, .leave hpc hrun⟩
    · exact ⟨_, _, rfl, .again hpc hrun⟩
  | sleep => exact ⟨_, _, rfl, .sleep hpc⟩
  | tick => exact ⟨_, _, rfl, .tick hpc⟩
  | check =>
    by_cases hreload : s.reload = 0
    · exact ⟨_, _, rfl, .notRequested hpc hreload⟩
    · exact ⟨_, _, rfl, .requested hpc hreload⟩
  | reload => exact ⟨_, _, rfl, .reload hpc⟩
  | clear => exact ⟨_, _, rfl, .clear hpc⟩
  | limit =>
    by_cases hge : 50 ≤ s.count
    · exact ⟨_, _, rfl, .reached hpc hge⟩
    · exact ⟨_, _, rfl, .notReached hpc hge⟩
  | stop => exact ⟨_, _, rfl, .stop hpc⟩
  | cleanup => exact absurd hpc h

/-! ### What the history says about the state -/

/-- The globals and the tick counter, from the history. -/
structure Tallies (ls : List Label) (s : State) : Prop where
  count : s.count.toInt = ls.countP Label.isTick
  sigCount : s.sigCount = Int32.ofNat (ls.count .sigusr1)
  reload : s.reload = if .sighup ∈ sinceLast Label.isClear ls then 1 else 0
  /-- A reload action is only taken for a request, and every action uses one up. -/
  served : ls.countP Label.isReload + (if s.reload ≠ 0 ∧ s.pc ≠ .clear then 1 else 0) ≤
    ls.count .sighup
  pending : s.pc = .reload ∨ s.pc = .clear → s.reload ≠ 0
  /-- The loop is only stopped by a SIGINT or the limit. -/
  stopped : s.running = 0 → .sigint ∈ ls ∨ s.count.toInt = 50
  left : s.pc = .cleanup → s.running = 0

theorem tallies_start : Tallies [] start := by
  refine ⟨rfl, rfl, rfl, le_rfl, ?_, fun h => absurd h (by decide), fun h => nomatch h⟩
  rintro (h | h) <;> cases h

/-- A step of `main` that is neither a tick, a reload action nor a clearing leaves the tallies,
as long as what it does to `running` and the program counter fits. -/
theorem Tallies.concat_quiet (h : Tallies ls s) (hl : l = .loop ∨ l = .sleep ∨ l = .check ∨
      l = .limit ∨ l = .stop) {running : Int32} {pc : Pc} (hpc : s.pc ≠ .clear)
    (hpending : pc = .reload → s.reload ≠ 0) (hnot : pc ≠ .clear)
    (hrun : running = 0 → s.running = 0 ∨ s.count.toInt = 50) (hleft : pc = .cleanup →
      running = 0) : Tallies (ls ++ [l]) { s with running := running, pc := pc } := by
  have htick : Label.isTick l = false := by rcases hl with rfl | rfl | rfl | rfl | rfl <;> rfl
  have hreload : Label.isReload l = false := by rcases hl with rfl | rfl | rfl | rfl | rfl <;> rfl
  have hclear : Label.isClear l = false := by rcases hl with rfl | rfl | rfl | rfl | rfl <;> rfl
  have husr1 : l ≠ .sigusr1 := by rcases hl with rfl | rfl | rfl | rfl | rfl <;> decide
  have hhup : l ≠ .sighup := by rcases hl with rfl | rfl | rfl | rfl | rfl <;> decide
  refine ⟨?_, ?_, ?_, ?_, ?_, ?_, hleft⟩
  · rw [List.countP_append, List.countP_singleton, htick]
    exact h.count
  · rw [List.count_append, List.count_singleton, beq_false_of_ne husr1]
    exact h.sigCount
  · rw [sinceLast_concat, hclear]
    simpa [hhup.symm] using h.reload
  · have hserved := h.served
    simpa [hreload, hpc, hnot, hhup] using hserved
  · rintro (hr | hc)
    · exact hpending hr
    · exact absurd hc hnot
  · intro h0
    rcases hrun h0 with h0 | hfifty
    · rcases h.stopped h0 with hint | hfifty
      · exact .inl (List.mem_append_left _ hint)
      · exact .inr hfifty
    · exact .inr hfifty

/-- Every step keeps the tallies. -/
theorem tallies_step (hw : Within s) (h : Tallies ls s) (hst : Step s l s') :
    Tallies (ls ++ [l]) s' := by
  have hstopped : ∀ {l'}, s.running = 0 → .sigint ∈ ls ++ [l'] ∨ s.count.toInt = 50 :=
    fun h0 => (h.stopped h0).imp_left (List.mem_append_left _)
  cases hst with
  | again hpc hrun =>
    exact h.concat_quiet (.inl rfl) (by simp [hpc]) (by simp) (by simp) .inl (by simp)
  | leave hpc hrun =>
    exact h.concat_quiet (.inl rfl) (by simp [hpc]) (by simp) (by simp) .inl fun _ => hrun
  | sleep hpc =>
    exact h.concat_quiet (by simp) (by simp [hpc]) (by simp) (by simp) .inl (by simp)
  | requested hpc hreload =>
    exact h.concat_quiet (by simp) (by simp [hpc]) (fun _ => hreload) (by simp) .inl (by simp)
  | notRequested hpc _ =>
    exact h.concat_quiet (by simp) (by simp [hpc]) (by simp) (by simp) .inl (by simp)
  | reached hpc _ =>
    exact h.concat_quiet (by simp) (by simp [hpc]) (by simp) (by simp) .inl (by simp)
  | notReached hpc _ =>
    exact h.concat_quiet (by simp) (by simp [hpc]) (by simp) (by simp) .inl (by simp)
  | stop hpc =>
    exact h.concat_quiet (by simp) (by simp [hpc]) (by simp) (by simp)
      (fun _ => .inr (hw.stop hpc)) (by rintro ⟨⟩)
  | tick hpc =>
    have hlt := hw.due (.inr hpc)
    have hsucc := toInt_count_succ hw hlt
    refine ⟨?_, ?_, ?_, ?_, (by rintro (h | h) <;> cases h), ?_, (by rintro ⟨⟩)⟩
    · change (s.count + 1).toInt = _
      rw [hsucc, h.count]
      simp [Label.isTick]
    · simpa using h.sigCount
    · simpa [Label.isClear] using h.reload
    · have hserved := h.served
      simp [hpc, Label.isReload] at hserved ⊢
      exact hserved
    · intro h0
      rcases h.stopped h0 with hint | hfifty
      · exact .inl (List.mem_append_left _ hint)
      · omega
  | reload hpc =>
    refine ⟨?_, ?_, ?_, ?_, fun _ => h.pending (.inl hpc), hstopped, (by rintro ⟨⟩)⟩
    · simpa [Label.isTick] using h.count
    · simpa using h.sigCount
    · simpa [Label.isClear] using h.reload
    · -- the request is used up by the action
      have hserved := h.served
      rw [if_pos ⟨h.pending (.inl hpc), by rw [hpc]; decide⟩] at hserved
      simpa [Label.isReload] using hserved
  | clear hpc =>
    refine ⟨?_, ?_, ?_, ?_, (by rintro (h | h) <;> cases h), hstopped, (by rintro ⟨⟩)⟩
    · simpa [Label.isTick] using h.count
    · simpa using h.sigCount
    · simp [Label.isClear]
    · have hserved := h.served
      simp [hpc] at hserved
      simpa [Label.isReload] using hserved
  | sigint =>
    refine ⟨?_, ?_, ?_, ?_, h.pending, fun _ => .inl (by simp), fun _ => rfl⟩
    · simpa [Label.isTick] using h.count
    · simpa using h.sigCount
    · simpa [Label.isClear] using h.reload
    · simpa [Label.isReload] using h.served
  | sighup =>
    refine ⟨?_, ?_, ?_, ?_, fun _ => (by decide : (1 : Int32) ≠ 0), hstopped, h.left⟩
    · simpa [Label.isTick] using h.count
    · simpa using h.sigCount
    · simp [Label.isClear]
    · -- the new request is enough, also where the old one is used up
      have hle : ls.countP Label.isReload ≤ ls.count .sighup :=
        (Nat.le_add_right _ _).trans h.served
      rw [List.countP_append, List.count_append, List.count_singleton_self]
      change ls.countP Label.isReload + 0 + _ ≤ _
      split_ifs <;> omega
  | sigusr1 =>
    refine ⟨?_, ?_, ?_, ?_, h.pending, hstopped, h.left⟩
    · simpa [Label.isTick] using h.count
    · change s.sigCount + 1 = _
      rw [h.sigCount, List.count_append, List.count_singleton_self, Int32.ofNat_add]
      rfl
    · simpa [Label.isClear] using h.reload
    · simpa [Label.isReload] using h.served

theorem within_of_run (h : system.Run ls s) : Within s :=
  h.invariant (by rintro s rfl; exact within_start) fun _ _ _ => within_step

theorem tallies_of_run (h : system.Run ls s) : Tallies ls s := by
  induction h with
  | start hs =>
    obtain rfl := hs
    exact tallies_start
  | next hrun hst ih => exact tallies_step (within_of_run hrun) ih hst

/-! ### The loop ends -/

/-- **The loop ends.**  In every run, whatever signals arrive, `main` takes at most 352 steps; from
wherever it is, its steps alone lead out of the loop; and it is out of the loop only if a SIGINT
was handled or fifty ticks were printed. -/
theorem loop_ends (h : system.Run ls s) :
    ls.countP Label.isMain ≤ 352 ∧
      (∃ ls' s', (∀ l ∈ ls', l.isMain = true) ∧ system.Run (ls ++ ls') s' ∧ s'.pc = .cleanup) ∧
      (s.pc = .cleanup → .sigint ∈ ls ∨ ls.countP Label.isTick = 50) := by
  have hw := within_of_run h
  have ht := tallies_of_run h
  refine ⟨?_, ?_, fun hpc => ?_⟩
  · obtain ⟨_, rfl, hpath⟩ := h.exists_init_path
    have hle := ranks.countP_le within_start hpath
    have hrank : start.rank = 352 := by decide
    omega
  · obtain ⟨ls', s', hall, hpath, hdone⟩ := ranks.exists_done
      (fun s _ hpc => main_can_step s hpc) hw
    exact ⟨ls', s', hall, h.append_path hpath, hdone⟩
  · refine (ht.stopped (ht.left hpc)).imp_right fun hfifty => ?_
    have hcount := ht.count
    omega

/-- After a SIGINT and the tick under way, from the run of one tick. -/
theorem loop_ends_one_tick :
    ∃ ls' s', (∀ l ∈ ls', Label.isMain l = true) ∧
      system.Run ([.loop, .sleep, .sigint] ++ ls') s' ∧ s'.pc = .cleanup := by
  have h₀ : system.Run [] start := .start rfl
  have h₁ := ((h₀.next (.again rfl (by decide))).next (.sleep rfl)).next .sigint
  exact (loop_ends h₁).2.1

end Signals

end CAcheRein
