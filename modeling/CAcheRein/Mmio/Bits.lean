import CAcheRein.Bits.Byte
import CAcheRein.Mmio.Invariant

/-!
# Bits of the simulated registers

Sequences of `REG_SET_BIT` and `REG_CLEAR_BIT` on a register of the bank, next to the macros and
the functions for 8-bit registers.
-/

namespace CAcheRein

namespace Mmio

/-- An operation on the register at `offset`. -/
def bitStep (offset : ℕ) (base : Bank) (op : SetClear × Fin 32) : Bank :=
  match op.1 with
  | .set => regSetBit base offset op.2
  | .clear => regClearBit base offset op.2

variable {offset : ℕ}

/-- A macro works on the register it is addressed to. -/
theorem regRead_bitStep (h : offset / 4 < 3) (base : Bank) (o : SetClear) (b : Fin 32) :
    regRead (bitStep offset base (o, b)) offset = o.toBitOp.onReg (regRead base offset) b := by
  cases o with
  | set => exact regRead_regWrite_self h _
  | clear => exact regRead_regWrite_self h _

/-- The macros, on any sequence of operations on one register. -/
theorem perBit (h : offset / 4 < 3) :
    PerBit (bitStep offset) SetClear.toBitOp (fun base i => regCheckBit base offset i)
      fun base => regRead base offset := by
  refine perBit_of_local (fun base i => checkBit_eq _ _) fun base o b i => ?_
  rw [regRead_bitStep h, getLsbD_onReg i.isLt]
  simp only [Fin.val_inj]

/-- On the low byte they do what the macros for 8-bit registers do. -/
theorem setWidth_bitStep (h : offset / 4 < 3) (base : Bank) (o : SetClear) (b : Fin 8) :
    (regRead (bitStep offset base (o, b.castLE (by decide))) offset).setWidth 8 =
      M3.step ((regRead base offset).setWidth 8) (o.toBitOp, b) := by
  apply BitVec.eq_of_getLsbD_eq
  intro i hi
  have hi' : i < 32 := hi.trans (by decide)
  have hstep := M3.getLsbD_step ((regRead base offset).setWidth 8) o.toBitOp b ⟨i, hi⟩
  rw [BitVec.getLsbD_setWidth, regRead_bitStep h, getLsbD_onReg hi', hstep,
    BitVec.getLsbD_setWidth]
  simp only [hi, decide_true, Bool.true_and, Fin.val_castLE, ← Fin.val_inj]

theorem setWidth_foldl_bitStep (h : offset / 4 < 3) (base : Bank) (ops : List (SetClear × Fin 8)) :
    (regRead ((ops.map fun p => (p.1, p.2.castLE (by decide))).foldl (bitStep offset) base)
        offset).setWidth 8 =
      ops.foldl M1.step ((regRead base offset).setWidth 8) := by
  induction ops generalizing base with
  | nil => rfl
  | cons p ops ih =>
    rw [List.map_cons, List.foldl_cons, List.foldl_cons, ih, setWidth_bitStep h, M1.step_eq]

/-- **Every bit is what the operations addressed to it make of it**, for the macros and the
functions on 8-bit registers and for the macros on the registers of the bank, so the register only
depends on the sequence of operations on each bit; and the versions do the same. -/
theorem bits_per_bit :
    PerBit M3.step id (fun reg i => M3.checkBit reg i) id ∧
    PerBit M1.step SetClear.toBitOp (fun reg i => M1.getBit reg i) id ∧
    (∀ offset ∈ [regCr, regSr, regDr],
      PerBit (bitStep offset) SetClear.toBitOp (fun base i => regCheckBit base offset i)
        fun base => regRead base offset) ∧
    (∀ reg (ops : List (SetClear × Fin 8)),
      ops.foldl M1.step reg = (ops.map fun p => (p.1.toBitOp, p.2)).foldl M3.step reg) ∧
    ∀ offset ∈ [regCr, regSr, regDr], ∀ base (ops : List (SetClear × Fin 8)),
      (regRead ((ops.map fun p => (p.1, p.2.castLE (by decide))).foldl (bitStep offset) base)
          offset).setWidth 8 =
        ops.foldl M1.step ((regRead base offset).setWidth 8) := by
  have hbank : ∀ offset ∈ [regCr, regSr, regDr], offset / 4 < 3 := by decide
  exact ⟨M3.perBit, M1.perBit, fun offset h => perBit (hbank offset h), M1.foldl_step_eq,
    fun offset h base ops => setWidth_foldl_bitStep (hbank offset h) base ops⟩

end Mmio

end CAcheRein
