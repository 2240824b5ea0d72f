import CAcheRein.Transition.System
import Mathlib.Data.Nat.Notation
import Mathlib.Order.Basic

/-!
# Ranked transition systems

A party of a system makes progress, whatever the others do, if a rank goes down with each of its
own steps and up with nobody's (`System.Ranks`).  Then it takes only so many steps
(`Ranks.countP_le`), and if it is never stuck before it is done, it gets done when scheduled
(`Ranks.exists_done`).
-/

namespace CAcheRein

namespace System

variable {σ ℓ : Type*} (A : System σ ℓ)

/-- `Path s ls s'` : the steps `ls`, in this order, lead from `s` to `s'`. -/
inductive Path : σ → List ℓ → σ → Prop
  | refl (s : σ) : Path s [] s
  | step {s s' s'' : σ} {l : ℓ} {ls : List ℓ} :
    A.step s l s' → Path s' ls s'' → Path s (l :: ls) s''

/-- In the states of `I`, which no step leaves, the rank goes down with every step in `own` and
never up. -/
structure Ranks (own : ℓ → Bool) (I : σ → Prop) (rank : σ → ℕ) : Prop where
  keeps : ∀ {s l s'}, I s → A.step s l s' → I s'
  step : ∀ {s l s'}, I s → A.step s l s' → rank s' + (own l).toNat ≤ rank s

variable {A} {own : ℓ → Bool} {I : σ → Prop} {rank : σ → ℕ} {s s' : σ} {ls ls' : List ℓ}

theorem Run.append_path (h : A.Run ls s) (hp : A.Path s ls' s') : A.Run (ls ++ ls') s' := by
  induction hp generalizing ls with
  | refl => rwa [List.append_nil]
  | @step s s' s'' l ls' hst _ ih =>
    have hrun := ih (h.next hst)
    rwa [List.append_assoc] at hrun

/-- A run continued behind one of its prefixes. -/
theorem Run.exists_path (h : A.Run (ls ++ ls') s) : ∃ t, A.Run ls t ∧ A.Path t ls' s := by
  induction ls' generalizing ls with
  | nil =>
    rw [List.append_nil] at h
    exact ⟨s, h, .refl s⟩
  | cons l ls' ih =>
    rw [← List.singleton_append, ← List.append_assoc] at h
    obtain ⟨t', hrun, hpath⟩ := ih h
    obtain ⟨t, ht, hst⟩ := run_concat_iff.1 hrun
    exact ⟨t, ht, .step hst hpath⟩

/-- A run from its initial state on. -/
theorem Run.exists_init_path (h : A.Run ls s) : ∃ t, A.init t ∧ A.Path t ls s := by
  have hnil : A.Run ([] ++ ls) s := h
  obtain ⟨t, ht, hpath⟩ := hnil.exists_path
  refine ⟨t, ?_, hpath⟩
  generalize hp : ([] : List ℓ) = p at ht
  cases ht with
  | start hs => exact hs
  | next _ _ => simp at hp

/-- A predicate that holds initially and is kept by every step holds after every run. -/
theorem Run.invariant (h : A.Run ls s) (h₀ : ∀ s, A.init s → I s)
    (hstep : ∀ s l s', I s → A.step s l s' → I s') : I s := by
  induction h with
  | start hs => exact h₀ _ hs
  | next _ hst ih => exact hstep _ _ _ ih hst

namespace Ranks

theorem keeps_path (h : A.Ranks own I rank) (hs : I s) (hp : A.Path s ls s') : I s' := by
  induction hp with
  | refl => exact hs
  | step hst _ ih => exact ih (h.keeps hs hst)

/-- **A ranked party takes at most as many steps as its rank.** -/
theorem countP_le (h : A.Ranks own I rank) (hs : I s) (hp : A.Path s ls s') :
    ls.countP own + rank s' ≤ rank s := by
  induction hp with
  | refl => exact Nat.le_of_eq (Nat.zero_add _)
  | @step s t s' l ls hst _ ih =>
    have hle := ih (h.keeps hs hst)
    have hrank := h.step hs hst
    rw [List.countP_cons]
    cases hown : own l <;> rw [hown] at hrank <;> simp at hrank ⊢ <;> omega

/-- **A ranked party that is never stuck gets done.** -/
theorem exists_done {Done : σ → Prop} (h : A.Ranks own I rank)
    (hprog : ∀ s, I s → ¬ Done s → ∃ l s', own l = true ∧ A.step s l s') (hs : I s) :
    ∃ ls s', (∀ l ∈ ls, own l = true) ∧ A.Path s ls s' ∧ Done s' := by
  generalize hn : rank s = n
  induction n using Nat.strongRecOn generalizing s with
  | ind n ih =>
    by_cases hdone : Done s
    · exact ⟨[], s, (fun _ hl => nomatch hl), .refl s, hdone⟩
    · obtain ⟨l, t, hown, hst⟩ := hprog s hs hdone
      have hrank := h.step hs hst
      rw [hown, Bool.toNat_true] at hrank
      obtain ⟨ls, s', hall, hpath, hdone'⟩ := ih (rank t) (by omega) (h.keeps hs hst) rfl
      refine ⟨l :: ls, s', fun x hx => ?_, .step hst hpath, hdone'⟩
      rcases List.mem_cons.1 hx with rfl | hx
      · exact hown
      · exact hall x hx

end Ranks

end System

end CAcheRein
