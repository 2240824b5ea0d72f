import CAcheRein.Bits.Checked
import CAcheRein.Memory.Block
import CAcheRein.Stack.Basic

/-!
# The word stack delivers what the matching push stored

The cells up to `top` hold the words pushed and not popped again, `Holds`; the cells above it are
stale, and the next push overwrites the lowest of them.  So the stack is a stack in the sense of
`LifoSpec`, and `Stack.calls_answered` reads its answers off the history alone.
-/

namespace CAcheRein

namespace Stack

variable {s : Stack} {items : List UInt32}

/-- An index in the bounds of `data` names its cell. -/
theorem cell_eq {i : Int32} {n : ℕ} (hi : i.toInt = n) (hn : n < stackSize) :
    cell i = some ⟨n, hn⟩ := by
  have hnat : i.toInt.toNat = n := by rw [hi, Int.toNat_natCast]
  have hpos : 0 ≤ i.toInt := by omega
  simp only [cell, hnat, hn, hpos, dite_true, if_true]

theorem holds_init (memory : Stack) : memory.init.Holds [] :=
  ⟨Nat.zero_le _, rfl, rfl⟩

/-- The stack is empty exactly if nothing is on it. -/
theorem Holds.isEmpty_iff (h : s.Holds items) : s.isEmpty = true ↔ items = [] := by
  have htop := h.top_eq
  rw [isEmpty, beq_iff_eq, ← Int32.toInt_inj, htop, ← List.length_eq_zero_iff]
  change (items.length : ℤ) - 1 = -1 ↔ _
  omega

/-- The stack is full exactly if eight words are on it. -/
theorem Holds.isFull_iff (h : s.Holds items) : s.isFull = true ↔ items.length = stackSize := by
  have htop := h.top_eq
  rw [isFull, beq_iff_eq, ← Int32.toInt_inj, htop]
  change (items.length : ℤ) - 1 = 7 ↔ items.length = 8
  omega

theorem Holds.push_full (h : s.Holds items) (hlen : items.length = stackSize) (a : UInt32) :
    s.call (.push a) = (.code (-1), s) := by
  rw [call, push, if_pos (h.isFull_iff.2 hlen)]

theorem Holds.push_room (h : s.Holds items) (hlen : items.length ≠ stackSize) (a : UInt32) :
    (s.call (.push a)).1 = .code 0 ∧ (s.call (.push a)).2.Holds (a :: items) := by
  have hroom : items.length < stackSize := lt_of_le_of_ne h.length_le hlen
  have hle : items.length < 8 := hroom
  have htop : (s.top + 1).toInt = items.length := by
    have hone : (1 : Int32).toInt = 1 := rfl
    have hsum : s.top.toInt + (1 : Int32).toInt = items.length := by
      rw [h.top_eq, hone, Int.sub_add_cancel]
    rw [toInt_add_of_inInt32 (by rw [hsum]; exact ⟨by omega, by omega⟩), hsum]
  have hpush : s.push a = some (0, { s with
      data := s.data.set items.length a hroom, top := s.top + 1 }) := by
    rw [push, if_neg (mt h.isFull_iff.1 hlen), cell_eq htop hroom]
    rfl
  rw [call, hpush]
  refine ⟨rfl, hroom, ?_, ?_⟩
  · rw [htop, List.length_cons, Nat.cast_succ, Int.add_sub_cancel]
  · -- the stale cell above the top now holds `a`
    rw [List.length_cons, List.reverse_cons, ← h.data_eq]
    have hlen' : items.length < s.data.toList.length := by rwa [Vector.length_toList]
    exact Block.take_succ_set hlen' a

theorem Holds.pop_nil (h : s.Holds []) (b : UInt32) : s.call (.pop b) = (.value (-1) b, s) := by
  rw [call, pop, if_pos (h.isEmpty_iff.2 rfl)]

/-- The cell at the top, in a stack that is not empty. -/
theorem Holds.cell_top {a : UInt32} (h : s.Holds (a :: items)) :
    ∃ i, cell s.top = some i ∧ s.data.get i = a := by
  have hlt : items.length < stackSize := h.length_le
  have htop : s.top.toInt = items.length := by
    rw [h.top_eq, List.length_cons, Nat.cast_succ, Int.add_sub_cancel]
  refine ⟨⟨items.length, hlt⟩, cell_eq htop hlt, ?_⟩
  have hdata := h.data_eq
  have hlen : items.length < s.data.toList.length := by rwa [Vector.length_toList]
  rw [List.length_cons, List.take_succ_eq_append_getElem hlen, List.reverse_cons] at hdata
  have hlast := (List.append_inj' hdata rfl).2
  rw [List.singleton_inj, Vector.getElem_toList] at hlast
  exact hlast

theorem Holds.pop_cons {a : UInt32} (h : s.Holds (a :: items)) (b : UInt32) :
    (s.call (.pop b)).1 = .value 0 a ∧ (s.call (.pop b)).2.Holds items := by
  obtain ⟨i, hcell, hi⟩ := h.cell_top
  have hlt : items.length < stackSize := h.length_le
  have hle : items.length < 8 := hlt
  have hpop : s.pop b = some (0, { s with top := s.top - 1 }, a) := by
    rw [pop, if_neg (mt h.isEmpty_iff.1 (List.cons_ne_nil a items)), hcell]
    change some (0, _, s.data.get i) = _
    rw [hi]
  rw [call, hpop]
  refine ⟨rfl, hlt.le, ?_, ?_⟩
  · have hone : (1 : Int32).toInt = 1 := rfl
    have hdiff : s.top.toInt - (1 : Int32).toInt = items.length - 1 := by
      rw [h.top_eq, hone, List.length_cons, Nat.cast_succ, Int.add_sub_cancel]
    rw [toInt_sub_of_inInt32 (by rw [hdiff]; exact ⟨by omega, by omega⟩), hdiff]
  · have hdata := congrArg (List.take items.length) h.data_eq
    rw [List.take_take, List.length_cons, Nat.min_eq_left (Nat.le_succ _), List.reverse_cons,
      List.take_left' List.length_reverse] at hdata
    exact hdata

theorem Holds.peek (h : s.Holds items) (b : UInt32) :
    (s.call (.peek b)).1 = (s.call (.pop b)).1 ∧ (s.call (.peek b)).2 = s := by
  cases items with
  | nil => rw [h.pop_nil, call, Stack.peek, if_pos (h.isEmpty_iff.2 rfl)]; exact ⟨rfl, rfl⟩
  | cons a items =>
    obtain ⟨i, hcell, hi⟩ := h.cell_top
    have hpeek : s.peek b = some (0, s, a) := by
      rw [Stack.peek, if_neg (mt h.isEmpty_iff.1 (List.cons_ne_nil a items)), hcell]
      change some (0, _, s.data.get i) = _
      rw [hi]
    rw [(h.pop_cons b).1, call, hpeek]
    exact ⟨rfl, rfl⟩

/-- The word stack is a stack of at most eight words. -/
theorem lifoSpec (memory : Stack) : LifoSpec (machine memory) stackSize Holds where
  init := holds_init memory
  push_full h hlen a := Prod.mk.inj (h.push_full hlen a)
  push_room h hlen a := h.push_room hlen a
  pop_nil h b := Prod.mk.inj (h.pop_nil b)
  pop_cons h b := h.pop_cons b
  peek h b := h.peek b

/-- No call accesses `data` outside its bounds. -/
theorem Holds.call_ne_fault (h : s.Holds items) (c : LifoCall UInt32) :
    (s.call c).1 ≠ .fault := by
  have hpop (b : UInt32) : (s.call (.pop b)).1 ≠ .fault := by
    cases items with
    | nil => rw [h.pop_nil]; simp
    | cons a items => rw [(h.pop_cons b).1]; simp
  cases c with
  | push a =>
    by_cases hlen : items.length = stackSize
    · rw [h.push_full hlen]; simp
    · rw [(h.push_room hlen a).1]; simp
  | pop b => exact hpop b
  | peek b => rw [(h.peek b).1]; exact hpop b

/-- The index of the top, in terms of the history. -/
theorem top_run (memory : Stack) (calls : List (LifoCall UInt32)) :
    ((machine memory).run calls).top.toInt = (machine memory).held calls - 1 ∧
      0 ≤ (machine memory).held calls ∧ (machine memory).held calls ≤ stackSize := by
  obtain ⟨items, hholds, htr⟩ := (lifoSpec memory).traced_run calls
  rw [htr.held_eq]
  exact ⟨hholds.top_eq, Int.natCast_nonneg _, Int.ofNat_le.2 hholds.length_le⟩

/-- **The answers of the word stack, from the history of calls.**  The top stays between -1 and 7
and no call leaves the bounds of `data`; a push is refused, without any effect, exactly when eight
words are held, a pop and a peek exactly when none is; any other pop delivers the word of its
matching push, and a peek the word of the next pop. -/
theorem calls_answered (memory : Stack) (calls : List (LifoCall UInt32)) :
    let M := machine memory
    let s := M.run calls
    (-1 ≤ s.top.toInt ∧ s.top.toInt ≤ stackSize - 1 ∧ s.top.toInt = M.held calls - 1) ∧
    (∀ c, M.out s c ≠ .fault) ∧
    (∀ a, M.out s (.push a) = .code (if M.held calls = stackSize then -1 else 0) ∧
      (M.held calls = stackSize → M.next s (.push a) = s)) ∧
    (M.held calls = 0 → ∀ b,
      M.out s (.pop b) = .value (-1) b ∧ M.next s (.pop b) = s ∧
      M.out s (.peek b) = .value (-1) b ∧ M.next s (.peek b) = s) ∧
    (M.held calls ≠ 0 → ∃ pre a mid, calls = pre ++ .push a :: mid ∧ M.Matched pre a mid ∧
      ∀ b, M.out s (.pop b) = .value 0 a ∧ M.out s (.peek b) = .value 0 a) ∧
    (∀ b b' mid a, M.movesFrom (M.run (calls ++ [.peek b])) mid = [] →
      (M.out s (.peek b) = .value 0 a ↔
        M.out (M.run (calls ++ [.peek b] ++ mid)) (.pop b') = .value 0 a)) := by
  intro M s
  have S := lifoSpec memory
  obtain ⟨htop, hheld⟩ := top_run memory calls
  have hpeek (b : UInt32) := S.peek_answer calls b
  refine ⟨⟨?_, ?_, htop⟩, ?_, S.push_answer calls, ?_, ?_, ?_⟩
  · exact (Int.sub_le_sub_right hheld.1 1).trans htop.ge
  · exact htop.le.trans (Int.sub_le_sub_right hheld.2 1)
  · obtain ⟨items, hholds, -⟩ := S.traced_run calls
    exact hholds.call_ne_fault
  · intro hzero b
    obtain ⟨hout, hnext⟩ := S.pop_refused hzero b
    exact ⟨hout, hnext, (hpeek b).1.trans hout, (hpeek b).2⟩
  · intro hne
    obtain ⟨pre, a, mid, hcalls, hmatched, hout⟩ := S.pop_matched hne
    exact ⟨pre, a, mid, hcalls, hmatched, fun b => ⟨hout b, (hpeek b).1.trans (hout b)⟩⟩
  · intro b b' mid a hmid
    -- neither the peek nor `mid` changes the stack
    have hrun : M.run (calls ++ [.peek b] ++ mid) = s := by
      rw [S.run_append_of_no_moves hmid, Machine.run_concat]
      exact (hpeek b).2
    rw [hrun, (hpeek b).1]
    by_cases hzero : M.held calls = 0
    · rw [(S.pop_refused hzero b).1, (S.pop_refused hzero b').1]
      simp
    · obtain ⟨_, _, _, _, _, hout⟩ := S.pop_matched hzero
      rw [hout b, hout b']

end Stack

end CAcheRein
