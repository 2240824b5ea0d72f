import Mathlib.Data.List.Infix

/-!
# Nondeterministic transition systems

Components in which several parties act are run as a `System`: a step relation whose label says
who did what.  A state is reachable if some finite sequence of steps, in any order the relation
allows, leads to it; `System.Run` names that sequence.

What parties that share a mutex rely on is `Exclusive`: the party inside the critical section is
the one the mutex names as its owner, so there is at most one.
-/

namespace CAcheRein

/-- A transition system with initial states and labelled steps. -/
structure System (σ ℓ : Type*) where
  /-- The initial states. -/
  init : σ → Prop
  /-- `step s l s'` : the system can go from `s` to `s'` doing `l`. -/
  step : σ → ℓ → σ → Prop

namespace System

variable {σ ℓ : Type*} (A : System σ ℓ)

/-- The states reached from an initial state in finitely many steps. -/
inductive Reachable : σ → Prop
  | start {s : σ} : A.init s → Reachable s
  | next {s s' : σ} {l : ℓ} : Reachable s → A.step s l s' → Reachable s'

/-- `Run ls s` : the steps `ls`, in this order, lead from an initial state to `s`. -/
inductive Run : List ℓ → σ → Prop
  | start {s : σ} : A.init s → Run [] s
  | next {ls : List ℓ} {s s' : σ} {l : ℓ} : Run ls s → A.step s l s' → Run (ls ++ [l]) s'

variable {A}

/-- A predicate that holds initially and is kept by every step holds in every reachable state. -/
theorem Reachable.invariant {I : σ → Prop} {s : σ} (h : A.Reachable s)
    (h₀ : ∀ s, A.init s → I s) (hstep : ∀ s l s', I s → A.step s l s' → I s') : I s := by
  induction h with
  | start hs => exact h₀ _ hs
  | next _ hst ih => exact hstep _ _ _ ih hst

theorem run_concat_iff {ls : List ℓ} {l : ℓ} {s' : σ} :
    A.Run (ls ++ [l]) s' ↔ ∃ s, A.Run ls s ∧ A.step s l s' := by
  constructor
  · intro h
    generalize heq : ls ++ [l] = ls' at h
    cases h with
    | start hs => simp at heq
    | next hrun hst =>
      obtain ⟨rfl, hl⟩ := List.append_inj' heq rfl
      cases hl
      exact ⟨_, hrun, hst⟩
  · rintro ⟨s, hrun, hst⟩
    exact hrun.next hst

/-- A run passes through each of its prefixes. -/
theorem Run.of_prefix {ls p : List ℓ} {s : σ} (h : A.Run ls s) (hp : p <+: ls) :
    ∃ t, A.Run p t := by
  induction h with
  | start hs =>
    rw [List.prefix_nil.1 hp]
    exact ⟨_, .start hs⟩
  | next hrun hst ih =>
    rcases List.prefix_concat_iff.1 hp with rfl | hp
    · exact ⟨_, hrun.next hst⟩
    · exact ih hp

end System

/-! ### Mutual exclusion -/

section Mutex

variable {ι : Type*}

/-- The parties inside the critical section are exactly the owner of the mutex. -/
def Exclusive (owner : Option ι) (inside : ι → Prop) : Prop := ∀ i, inside i ↔ owner = some i

namespace Exclusive

variable {owner : Option ι} {inside inside' : ι → Prop} {i j : ι}

/-- **At most one party is inside.** -/
theorem unique (h : Exclusive owner inside) (hi : inside i) (hj : inside j) : i = j :=
  Option.some.inj (((h i).1 hi).symm.trans ((h j).1 hj))

/-- While the mutex is free, nobody is inside. -/
theorem not_inside (h : Exclusive none inside) (i : ι) : ¬ inside i :=
  fun hi => nomatch (h i).1 hi

/-- A party takes the free mutex and enters. -/
theorem acquire (h : Exclusive none inside) (h' : ∀ j, inside' j ↔ inside j ∨ j = i) :
    Exclusive (some i) inside' := by
  intro j
  rw [h' j, or_iff_right (h.not_inside j), Option.some.injEq, eq_comm]

/-- The owner leaves and frees the mutex. -/
theorem release (h : Exclusive owner inside) (hi : inside i)
    (h' : ∀ j, inside' j ↔ inside j ∧ j ≠ i) : Exclusive none inside' := by
  intro j
  rw [h' j]
  exact iff_of_false (fun hj => hj.2 (h.unique hj.1 hi)) fun hj => nomatch hj

/-- A step that nobody enters or leaves by. -/
theorem congr (h : Exclusive owner inside) (h' : ∀ j, inside' j ↔ inside j) :
    Exclusive owner inside' := fun j => (h' j).trans (h j)

end Exclusive

end Mutex

end CAcheRein
