import CAcheRein.Transition.Machine
import Mathlib.Combinatorics.Enumerative.DyckWord

/-!
# Stacks behind return codes, and matching pushes

A bounded stack answers a push it has no room for, and a pop it has nothing for, with -1.  The
pushes and pops it does answer with 0 form a word over `DyckStep`, `U` for a push and `D` for a
pop; a part of a history in which every such pop undoes a push of that part is `Balanced`.

## Main definitions

* `LifoCall`, `LifoReply` : the calls and their answers.
* `LifoSpec` : what a machine has to do to be a stack of at most `cap` elements.
* `Machine.movesFrom` : the successful pushes and pops of a part of a run.
* `Machine.Matched` : a push is the most recent one with a balanced part of the history behind it.

## Main results

* `LifoSpec.traced_run` : every element on the stack was put there by a push that is still
  unmatched.
* `LifoSpec.push_answer`, `LifoSpec.pop_refused` : which calls are refused, from the history.
* `LifoSpec.pop_matched` : any other pop delivers the value of its matching push.
-/

namespace CAcheRein

open DyckStep

/-- A call on a stack; `pop` and `peek` come with what the caller's variable holds before. -/
inductive LifoCall (α : Type*) where
  | push (value : α)
  | pop (value : α)
  | peek (value : α)

/-- The return code of a call and what the caller's variable holds after it; or `fault`, if the
call accesses memory it must not. -/
inductive LifoReply (α : Type*) where
  | code (ret : Int)
  | value (ret : Int) (value : α)
  | fault
  deriving DecidableEq

/-- Every `D` of the word undoes a `U` of it, and none is left. -/
def Balanced (ms : List DyckStep) : Prop := ∃ p : DyckWord, p.toList = ms

theorem balanced_nil : Balanced [] := ⟨0, rfl⟩

theorem Balanced.append {ms ms' : List DyckStep} (h : Balanced ms) (h' : Balanced ms') :
    Balanced (ms ++ ms') := by
  obtain ⟨p, rfl⟩ := h
  obtain ⟨q, rfl⟩ := h'
  exact ⟨p + q, rfl⟩

theorem Balanced.nest {ms : List DyckStep} (h : Balanced ms) : Balanced (U :: ms ++ [D]) := by
  obtain ⟨p, rfl⟩ := h
  exact ⟨p.nest, rfl⟩

theorem Balanced.count_eq {ms : List DyckStep} (h : Balanced ms) : ms.count U = ms.count D := by
  obtain ⟨p, rfl⟩ := h
  exact p.count_U_eq_count_D

/-- What stands behind a `U` inside a balanced word is not balanced. -/
theorem Balanced.not_balanced_behind {ms₁ ms₂ : List DyckStep}
    (h : Balanced (ms₁ ++ U :: ms₂)) : ¬ Balanced ms₂ := by
  intro h₂
  have hall := h.count_eq
  have hrest := h₂.count_eq
  obtain ⟨p, hp⟩ := h
  have hfront := p.count_D_le_count_U ms₁.length
  rw [hp, List.take_left] at hfront
  rw [List.count_append, List.count_append, List.count_cons_self,
    List.count_cons_of_ne (by decide)] at hall
  omega

/-! ### The moves of a run -/

section Moves

variable {α σ : Type*} (M : Machine σ (LifoCall α) (LifoReply α))

/-- The move a call makes, if it is answered with 0. -/
def moveOf : LifoCall α → LifoReply α → Option DyckStep
  | .push _, .code 0 => some U
  | .pop _, .value 0 _ => some D
  | _, _ => none

/-- The successful pushes and pops among `calls`, made in the state `s`. -/
def Machine.movesFrom (s : σ) (calls : List (LifoCall α)) : List DyckStep :=
  (M.stepsFrom s calls).filterMap fun p => moveOf p.2 (M.out p.1 p.2)

/-- The elements pushed and not popped again. -/
def Machine.held (calls : List (LifoCall α)) : ℤ :=
  (M.movesFrom M.init calls).count U - (M.movesFrom M.init calls).count D

/-- The push of `a` after the history `pre` was answered with 0 and is, behind the further history
`mid`, the most recent one with a balanced part of the history since. -/
structure Machine.Matched (pre : List (LifoCall α)) (a : α) (mid : List (LifoCall α)) : Prop where
  accepted : M.out (M.run pre) (.push a) = .code 0
  balanced : Balanced (M.movesFrom (M.run (pre ++ [.push a])) mid)
  latest : ∀ mid₁ b mid₂, mid = mid₁ ++ .push b :: mid₂ →
    M.out (M.run (pre ++ .push a :: mid₁)) (.push b) = .code 0 →
      ¬ Balanced (M.movesFrom (M.run (pre ++ .push a :: mid₁ ++ [.push b])) mid₂)

variable {M}

theorem Machine.movesFrom_append (s : σ) (calls calls' : List (LifoCall α)) :
    M.movesFrom s (calls ++ calls') =
      M.movesFrom s calls ++ M.movesFrom (M.runFrom s calls) calls' := by
  rw [movesFrom, stepsFrom_append, List.filterMap_append]
  rfl

theorem Machine.movesFrom_singleton {s : σ} {c : LifoCall α} :
    M.movesFrom s [c] = (moveOf c (M.out s c)).toList := by
  cases h : moveOf c (M.out s c) <;> simp [movesFrom, h]

theorem Machine.movesFrom_push {s : σ} {a : α} (h : M.out s (.push a) = .code 0) :
    M.movesFrom s [.push a] = [U] := by
  rw [movesFrom_singleton, h]
  rfl

/-- A push with a balanced part of the history since is the most recent one. -/
theorem Machine.matched_of_balanced {pre mid : List (LifoCall α)} {a : α}
    (hacc : M.out (M.run pre) (.push a) = .code 0)
    (hbal : Balanced (M.movesFrom (M.run (pre ++ [.push a])) mid)) : M.Matched pre a mid := by
  refine ⟨hacc, hbal, ?_⟩
  rintro mid₁ b mid₂ rfl hout
  have hrun : M.runFrom (M.run (pre ++ .push a :: mid₁)) [.push b] =
      M.run (pre ++ .push a :: mid₁ ++ [.push b]) := (M.runFrom_append _ _ _).symm
  have hsplit : mid₁ ++ .push b :: mid₂ = mid₁ ++ ([.push b] ++ mid₂) := rfl
  rw [hsplit, movesFrom_append, runFrom_run_concat, movesFrom_append, movesFrom_push hout,
    hrun] at hbal
  exact hbal.not_balanced_behind

end Moves

/-! ### Implementations -/

variable {α σ : Type*} {M : Machine σ (LifoCall α) (LifoReply α)}

/-- What makes `M` a stack of at most `cap` elements, where `Holds s items` says what is in `s`,
the newest element first. -/
structure LifoSpec (M : Machine σ (LifoCall α) (LifoReply α)) (cap : ℕ)
    (Holds : σ → List α → Prop) : Prop where
  init : Holds M.init []
  push_full : ∀ {s items}, Holds s items → items.length = cap → ∀ a,
    M.out s (.push a) = .code (-1) ∧ M.next s (.push a) = s
  push_room : ∀ {s items}, Holds s items → items.length ≠ cap → ∀ a,
    M.out s (.push a) = .code 0 ∧ Holds (M.next s (.push a)) (a :: items)
  pop_nil : ∀ {s}, Holds s [] → ∀ b,
    M.out s (.pop b) = .value (-1) b ∧ M.next s (.pop b) = s
  pop_cons : ∀ {s a items}, Holds s (a :: items) → ∀ b,
    M.out s (.pop b) = .value 0 a ∧ Holds (M.next s (.pop b)) items
  peek : ∀ {s items}, Holds s items → ∀ b,
    M.out s (.peek b) = M.out s (.pop b) ∧ M.next s (.peek b) = s

variable (M) in
/-- The history `calls` explains the elements `items` on the stack: each was put there by a
successful push, and what was pushed since and is not on the stack was popped again. -/
inductive Traced : List (LifoCall α) → List α → Prop
  | nil {calls} : Balanced (M.movesFrom M.init calls) → Traced calls []
  | cons {pre mid a items} : Traced pre items → M.out (M.run pre) (.push a) = .code 0 →
      Balanced (M.movesFrom (M.run (pre ++ [.push a])) mid) →
      Traced (pre ++ .push a :: mid) (a :: items)

/-- A balanced part of the history leaves the explanation as it is. -/
theorem Traced.append {calls mid : List (LifoCall α)} {items : List α} (h : Traced M calls items)
    (hmid : Balanced (M.movesFrom (M.run calls) mid)) : Traced M (calls ++ mid) items := by
  cases h with
  | nil hbal =>
    refine .nil ?_
    rw [Machine.movesFrom_append]
    exact hbal.append hmid
  | @cons pre mid' a items htr hacc hbal =>
    rw [List.append_assoc, List.cons_append]
    refine .cons htr hacc ?_
    rw [Machine.movesFrom_append, Machine.runFrom_run_concat]
    exact hbal.append hmid

/-- What is explained is what was pushed and not popped. -/
theorem Traced.held_eq {calls : List (LifoCall α)} {items : List α} (h : Traced M calls items) :
    M.held calls = items.length := by
  induction h with
  | nil hbal => rw [Machine.held, hbal.count_eq, sub_self, List.length_nil, Nat.cast_zero]
  | @cons pre mid a items _ hacc hbal ih =>
    have hcons : pre ++ .push a :: mid = pre ++ [.push a] ++ mid := by simp
    have hmoves : M.movesFrom M.init (pre ++ .push a :: mid) =
        M.movesFrom M.init pre ++ U :: M.movesFrom (M.run (pre ++ [.push a])) mid := by
      rw [hcons, Machine.movesFrom_append, Machine.movesFrom_append,
        show M.movesFrom (M.runFrom M.init pre) [.push a] = [U] from Machine.movesFrom_push hacc,
        List.append_assoc]
      rfl
    have hcount := hbal.count_eq
    rw [Machine.held] at ih ⊢
    rw [hmoves, List.count_append, List.count_append, List.count_cons_self,
      List.count_cons_of_ne (by decide), List.length_cons]
    omega

namespace LifoSpec

variable {cap : ℕ} {Holds : σ → List α → Prop} {s : σ} {items : List α}

/-- A call that makes no move leaves the state as it is. -/
theorem next_of_moveOf_eq_none (S : LifoSpec M cap Holds) (h : Holds s items) {c : LifoCall α}
    (hc : moveOf c (M.out s c) = none) : M.next s c = s := by
  cases c with
  | push a =>
    by_cases hfull : items.length = cap
    · exact (S.push_full h hfull a).2
    · rw [(S.push_room h hfull a).1] at hc
      cases hc
  | pop b =>
    cases items with
    | nil => exact (S.pop_nil h b).2
    | cons a items =>
      rw [(S.pop_cons h b).1] at hc
      cases hc
  | peek b => exact (S.peek h b).2

/-- A part of a run without a move leaves the state as it is. -/
theorem runFrom_of_no_moves (S : LifoSpec M cap Holds) (h : Holds s items)
    {calls : List (LifoCall α)} (hcalls : M.movesFrom s calls = []) : M.runFrom s calls = s := by
  induction calls with
  | nil => rfl
  | cons c calls ih =>
    have hsplit : M.movesFrom s (c :: calls) =
        M.movesFrom s [c] ++ M.movesFrom (M.next s c) calls := M.movesFrom_append s [c] calls
    rw [hsplit, List.append_eq_nil_iff, Machine.movesFrom_singleton] at hcalls
    obtain ⟨hc, hrest⟩ := hcalls
    have hnext := S.next_of_moveOf_eq_none h (Option.toList_eq_nil_iff.1 hc)
    rw [hnext] at hrest
    rw [Machine.runFrom_cons, hnext]
    exact ih hrest

/-- **Every element on the stack is explained by the history.** -/
theorem traced_run (S : LifoSpec M cap Holds) (calls : List (LifoCall α)) :
    ∃ items, Holds (M.run calls) items ∧ Traced M calls items := by
  refine Machine.run_induct (I := fun calls s => ∃ items, Holds s items ∧ Traced M calls items)
    ⟨[], S.init, .nil balanced_nil⟩ ?_ calls
  rintro calls c ⟨items, hholds, htr⟩
  by_cases hc : moveOf c (M.out (M.run calls) c) = none
  · -- nothing was pushed or popped
    rw [S.next_of_moveOf_eq_none hholds hc]
    refine ⟨items, hholds, htr.append ?_⟩
    rw [Machine.movesFrom_singleton, hc]
    exact balanced_nil
  cases c with
  | push a =>
    by_cases hfull : items.length = cap
    · rw [(S.push_full hholds hfull a).1] at hc
      exact absurd rfl hc
    · obtain ⟨hout, hnext⟩ := S.push_room hholds hfull a
      exact ⟨a :: items, hnext, .cons htr hout balanced_nil⟩
  | pop b =>
    cases htr with
    | nil _ =>
      rw [(S.pop_nil hholds b).1] at hc
      exact absurd rfl hc
    | @cons pre mid a items htr hacc hbal =>
      obtain ⟨hout, hnext⟩ := S.pop_cons hholds b
      refine ⟨items, hnext, ?_⟩
      -- from the matching push on, the history is balanced
      rw [List.append_assoc]
      refine htr.append ?_
      have hsplit : .push a :: mid ++ [.pop b] = [.push a] ++ (mid ++ [LifoCall.pop b]) := rfl
      rw [hsplit, Machine.movesFrom_append, Machine.movesFrom_push hacc,
        show M.runFrom (M.run pre) [.push a] = M.run (pre ++ [.push a]) from
          (M.runFrom_append _ _ _).symm,
        Machine.movesFrom_append, Machine.runFrom_run_concat, Machine.movesFrom_singleton, hout]
      exact hbal.nest
  | peek b => exact absurd rfl hc

/-- A push is refused, without any effect, exactly when `cap` elements are held. -/
theorem push_answer (S : LifoSpec M cap Holds) (calls : List (LifoCall α)) (a : α) :
    M.out (M.run calls) (.push a) = .code (if M.held calls = cap then -1 else 0) ∧
      (M.held calls = cap → M.next (M.run calls) (.push a) = M.run calls) := by
  obtain ⟨items, hholds, htr⟩ := S.traced_run calls
  have hheld : M.held calls = cap ↔ items.length = cap := by rw [htr.held_eq, Nat.cast_inj]
  by_cases hfull : items.length = cap
  · obtain ⟨hout, hnext⟩ := S.push_full hholds hfull a
    exact ⟨by rw [if_pos (hheld.2 hfull), hout], fun _ => hnext⟩
  · refine ⟨?_, fun h => absurd (hheld.1 h) hfull⟩
    rw [if_neg (mt hheld.1 hfull), (S.push_room hholds hfull a).1]

/-- A pop is refused, without any effect, when nothing is held. -/
theorem pop_refused (S : LifoSpec M cap Holds) {calls : List (LifoCall α)}
    (h : M.held calls = 0) (b : α) : M.out (M.run calls) (.pop b) = .value (-1) b ∧
      M.next (M.run calls) (.pop b) = M.run calls := by
  obtain ⟨items, hholds, htr⟩ := S.traced_run calls
  rw [htr.held_eq, Nat.cast_eq_zero, List.length_eq_zero_iff] at h
  subst h
  exact S.pop_nil hholds b

/-- **A pop delivers the value of its matching push**, when something is held. -/
theorem pop_matched (S : LifoSpec M cap Holds) {calls : List (LifoCall α)}
    (h : M.held calls ≠ 0) : ∃ pre a mid, calls = pre ++ .push a :: mid ∧ M.Matched pre a mid ∧
      ∀ b, M.out (M.run calls) (.pop b) = .value 0 a := by
  obtain ⟨items, hholds, htr⟩ := S.traced_run calls
  rw [htr.held_eq] at h
  cases htr with
  | nil _ => exact absurd rfl h
  | @cons pre mid a items _ hacc hbal =>
    exact ⟨pre, a, mid, rfl, Machine.matched_of_balanced hacc hbal,
      fun b => (S.pop_cons hholds b).1⟩

/-- A peek answers like a pop and changes nothing. -/
theorem peek_answer (S : LifoSpec M cap Holds) (calls : List (LifoCall α)) (b : α) :
    M.out (M.run calls) (.peek b) = M.out (M.run calls) (.pop b) ∧
      M.next (M.run calls) (.peek b) = M.run calls := by
  obtain ⟨items, hholds, -⟩ := S.traced_run calls
  exact S.peek hholds b

/-- Calls that push and pop nothing do not change what comes next. -/
theorem run_append_of_no_moves (S : LifoSpec M cap Holds) {calls mid : List (LifoCall α)}
    (h : M.movesFrom (M.run calls) mid = []) : M.run (calls ++ mid) = M.run calls := by
  obtain ⟨items, hholds, -⟩ := S.traced_run calls
  rw [Machine.run, Machine.runFrom_append]
  exact S.runFrom_of_no_moves hholds h

end LifoSpec

end CAcheRein
