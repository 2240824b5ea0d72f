import CAcheRein.Transition.Machine

/-!
# Machines that print

A machine whose answers are texts writes one long text in a run.  If in every state the answers to
different inputs cannot be confused, whatever comes behind them, that text says what the machine
has read, as far as it matters, and where it is.

## Main definitions

* `Machine.console` : the text of a run.
* `Machine.Legible` : the answers of a state cannot be confused.

## Main results

* `Machine.Legible.determines` : the text of a run determines its inputs, up to what the machine
  does not look at, and its last state.
-/

namespace CAcheRein

namespace Machine

variable {σ ι κ γ : Type*}

/-- The text of a run in `s`. -/
def consoleFrom (M : Machine σ ι (List γ)) (s : σ) (is : List ι) : List γ :=
  (M.outsFrom s is).flatten

/-- The text of a run from the start. -/
def console (M : Machine σ ι (List γ)) (is : List ι) : List γ := M.consoleFrom M.init is

/-- An answer says what was read, as far as `label` goes, and where the machine goes. -/
structure Legible (M : Machine σ ι (List γ)) (label : ι → κ) : Prop where
  nonempty : ∀ s i, M.out s i ≠ []
  apart : ∀ s i j rest rest', M.out s i ++ rest = M.out s j ++ rest' →
    label i = label j ∧ M.next s i = M.next s j ∧ rest = rest'

variable {M : Machine σ ι (List γ)} {label : ι → κ}

theorem consoleFrom_nil (s : σ) : M.consoleFrom s [] = [] := rfl

theorem consoleFrom_cons (s : σ) (i : ι) (is : List ι) :
    M.consoleFrom s (i :: is) = M.out s i ++ M.consoleFrom (M.next s i) is := rfl

/-- **The text of a run determines the run.** -/
theorem Legible.determines (h : M.Legible label) (is : List ι) : ∀ (js : List ι) (s : σ),
    M.consoleFrom s is = M.consoleFrom s js →
      is.map label = js.map label ∧ M.runFrom s is = M.runFrom s js := by
  induction is with
  | nil =>
    intro js s heq
    cases js with
    | nil => exact ⟨rfl, rfl⟩
    | cons j js =>
      rw [consoleFrom_nil, consoleFrom_cons] at heq
      exact absurd (List.append_eq_nil_iff.1 heq.symm).1 (h.nonempty s j)
  | cons i is ih =>
    intro js s heq
    cases js with
    | nil =>
      rw [consoleFrom_nil, consoleFrom_cons] at heq
      exact absurd (List.append_eq_nil_iff.1 heq).1 (h.nonempty s i)
    | cons j js =>
      rw [consoleFrom_cons, consoleFrom_cons] at heq
      obtain ⟨hlabel, hnext, hrest⟩ := h.apart s i j _ _ heq
      rw [hnext] at hrest
      obtain ⟨hlabels, hrun⟩ := ih js _ hrest
      refine ⟨?_, ?_⟩
      · rw [List.map_cons, List.map_cons, hlabel, hlabels]
      · rw [runFrom_cons, runFrom_cons, hnext, hrun]

end Machine

end CAcheRein
