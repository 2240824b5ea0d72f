import CAcheRein.Bits.Register
import Mathlib.Data.Fin.SuccPred
import Mathlib.Data.List.Basic

/-!
# Sequences of bit operations

What a sequence of operations on single bits leaves of a register that changes only the bit an
operation is addressed to.

## Main definitions

* `BitOp`, `SetClear` : the operations on a bit, with and without toggling.
* `opsAt` : the operations of a sequence addressed to one bit.
* `PerBit` : the final value of a bit is that of the operations addressed to it.

## Main results

* `perBit_of_local` : that is so if it is for a single operation.
-/

namespace CAcheRein

/-- An operation on a bit. -/
inductive BitOp where
  | set
  | clear
  | toggle
  deriving DecidableEq

/-- An operation on a bit, where there is no toggling. -/
inductive SetClear where
  | set
  | clear
  deriving DecidableEq

/-- The operation among all three. -/
def SetClear.toBitOp : SetClear → BitOp
  | .set => .set
  | .clear => .clear

/-- What an operation makes of a bit. -/
def BitOp.apply : BitOp → Bool → Bool
  | .set, _ => true
  | .clear, _ => false
  | .toggle, b => !b

/-- The word a bit is read back as. -/
def bitWord (v : ℕ) (b : Bool) : BitVec v := if b then 1#v else 0#v

/-- The operation on a word. -/
def BitOp.onReg {w : ℕ} : BitOp → BitVec w → ℕ → BitVec w
  | .set => setBit
  | .clear => clearBit
  | .toggle => toggleBit

/-- What an operation makes of the word a bit is read back as. -/
def BitOp.onWord {v : ℕ} : BitOp → BitVec v → BitVec v
  | .set, _ => 1#v
  | .clear, _ => 0#v
  | .toggle, word => word ^^^ 1#v

/-- The operations addressed to the bit `i`, in order. -/
def opsAt {ω : Type*} {w : ℕ} (ops : List (ω × Fin w)) (i : Fin w) : List ω :=
  (ops.filter fun p => p.2 = i).map Prod.fst

/-- A register with operations `step`, whose bits are read back by `check`. -/
structure PerBit {σ ω : Type*} {w v : ℕ} (step : σ → ω × Fin w → σ) (toBitOp : ω → BitOp)
    (check : σ → Fin w → BitVec v) (value : σ → BitVec w) : Prop where
  /-- The final value of a bit is that of the operations addressed to it, in order. -/
  bit : ∀ s ops i, check (ops.foldl step s) i =
    (opsAt ops i).foldl (fun word o => (toBitOp o).onWord word) (check s i)
  /-- Sequences with the same operations on every bit leave the same register. -/
  congr : ∀ s ops ops', (∀ i, opsAt ops i = opsAt ops' i) →
    value (ops.foldl step s) = value (ops'.foldl step s)

/-- An operation changes the bit it is addressed to. -/
theorem getLsbD_onReg {w i : ℕ} (hi : i < w) (o : BitOp) (reg : BitVec w) (b : ℕ) :
    (o.onReg reg b).getLsbD i = if b = i then o.apply (reg.getLsbD i) else reg.getLsbD i := by
  by_cases hb : b = i
  · subst hb
    rw [if_pos rfl]
    cases o with
    | set => simp [BitOp.onReg, BitOp.apply, getLsbD_setBit, hi]
    | clear => simp [BitOp.onReg, BitOp.apply, getLsbD_clearBit]
    | toggle =>
      rw [BitOp.onReg, getLsbD_toggleBit, decide_eq_true hi, decide_eq_true rfl, Bool.and_self,
        Bool.xor_true]
      rfl
  · have hne : i ≠ b := Ne.symm hb
    rw [if_neg hb]
    cases o with
    | set => exact getLsbD_setBit_of_ne reg hne
    | clear => exact getLsbD_clearBit_of_ne reg hne
    | toggle => simp [BitOp.onReg, getLsbD_toggleBit, hne]

theorem onWord_bitWord (v : ℕ) (o : BitOp) (b : Bool) :
    o.onWord (bitWord v b) = bitWord v (o.apply b) := by
  cases o with
  | set => rfl
  | clear => rfl
  | toggle => cases b <;> simp [BitOp.onWord, BitOp.apply, bitWord]

theorem foldl_onWord {ω : Type*} (v : ℕ) (toBitOp : ω → BitOp) (os : List ω) (b : Bool) :
    os.foldl (fun word o => (toBitOp o).onWord word) (bitWord v b) =
      bitWord v (os.foldl (fun b o => (toBitOp o).apply b) b) := by
  induction os generalizing b with
  | nil => rfl
  | cons o os ih => rw [List.foldl_cons, List.foldl_cons, onWord_bitWord, ih]

section Local

variable {σ ω : Type*} {w v : ℕ} {step : σ → ω × Fin w → σ} {toBitOp : ω → BitOp}
  {check : σ → Fin w → BitVec v} {value : σ → BitVec w}

/-- The operations on other bits do not matter. -/
theorem getLsbD_foldl
    (hstep : ∀ s o (b i : Fin w), (value (step s (o, b))).getLsbD i =
      if b = i then (toBitOp o).apply ((value s).getLsbD i) else (value s).getLsbD i)
    (s : σ) (ops : List (ω × Fin w)) (i : Fin w) :
    (value (ops.foldl step s)).getLsbD i =
      (opsAt ops i).foldl (fun b o => (toBitOp o).apply b) ((value s).getLsbD i) := by
  induction ops generalizing s with
  | nil => rfl
  | cons p ops ih =>
    obtain ⟨o, b⟩ := p
    rw [List.foldl_cons, ih, hstep]
    by_cases hb : b = i
    · simp [opsAt, hb]
    · simp [opsAt, hb]

/-- **It is enough that one operation changes only its bit**, and that bits are read back as they
are. -/
theorem perBit_of_local
    (hcheck : ∀ s i, check s i = bitWord v ((value s).getLsbD i))
    (hstep : ∀ s o (b i : Fin w), (value (step s (o, b))).getLsbD i =
      if b = i then (toBitOp o).apply ((value s).getLsbD i) else (value s).getLsbD i) :
    PerBit step toBitOp check value := by
  refine ⟨fun s ops i => ?_, fun s ops ops' hops => ?_⟩
  · rw [hcheck, hcheck, getLsbD_foldl hstep, foldl_onWord]
  · apply BitVec.eq_of_getLsbD_eq
    intro i hi
    have hops' := hops ⟨i, hi⟩
    have hleft := getLsbD_foldl hstep s ops ⟨i, hi⟩
    have hright := getLsbD_foldl hstep s ops' ⟨i, hi⟩
    rw [hops', ← hright] at hleft
    exact hleft

end Local

end CAcheRein
