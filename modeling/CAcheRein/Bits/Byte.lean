import CAcheRein.Bits.Trace

/-!
# Bits of an 8-bit register

The macros of `module3-embedded-patterns/ex01-bitwise-macros` and the functions of
`module1-foundations/ex03-functions`, on a `uint8_t`.  The register is promoted to 32 bits, the
mask is an `unsigned int`, and an assignment keeps the low 8 bits.
-/

namespace CAcheRein

namespace M3

/-- `SET_BIT`. -/
def setBit (reg : BitVec 8) (bit : ℕ) : BitVec 8 :=
  (CAcheRein.setBit (reg.setWidth 32) bit).setWidth 8

/-- `CLEAR_BIT`. -/
def clearBit (reg : BitVec 8) (bit : ℕ) : BitVec 8 :=
  (CAcheRein.clearBit (reg.setWidth 32) bit).setWidth 8

/-- `TOGGLE_BIT`. -/
def toggleBit (reg : BitVec 8) (bit : ℕ) : BitVec 8 :=
  (CAcheRein.toggleBit (reg.setWidth 32) bit).setWidth 8

/-- `CHECK_BIT`, an `unsigned int`; the promoted register is shifted as an `int`. -/
def checkBit (reg : BitVec 8) (bit : ℕ) : BitVec 32 :=
  (reg.setWidth 32).sshiftRight bit &&& 1#32

/-- An operation by macro. -/
def step (reg : BitVec 8) (op : BitOp × Fin 8) : BitVec 8 :=
  match op.1 with
  | .set => setBit reg op.2
  | .clear => clearBit reg op.2
  | .toggle => toggleBit reg op.2

end M3

namespace M1

/-- `get_bit`, a `uint8_t`. -/
def getBit (reg : BitVec 8) (bit : ℕ) : BitVec 8 :=
  ((reg.setWidth 32).sshiftRight bit &&& 1#32).setWidth 8

/-- `set_bit`: the register after the call. -/
def setBit (reg : BitVec 8) (bit : ℕ) : BitVec 8 :=
  (CAcheRein.setBit (reg.setWidth 32) bit).setWidth 8

/-- `clear_bit`: the register after the call. -/
def clearBit (reg : BitVec 8) (bit : ℕ) : BitVec 8 :=
  (CAcheRein.clearBit (reg.setWidth 32) bit).setWidth 8

/-- An operation by function. -/
def step (reg : BitVec 8) (op : SetClear × Fin 8) : BitVec 8 :=
  match op.1 with
  | .set => setBit reg op.2
  | .clear => clearBit reg op.2

end M1

/-! ### One operation -/

namespace M3

/-- A macro works on the promoted register. -/
theorem step_eq (reg : BitVec 8) (o : BitOp) (b : Fin 8) :
    step reg (o, b) = (o.onReg (reg.setWidth 32) b).setWidth 8 := by
  cases o <;> rfl

/-- A macro changes the bit it is addressed to. -/
theorem getLsbD_step (reg : BitVec 8) (o : BitOp) (b i : Fin 8) :
    (step reg (o, b)).getLsbD i = if b = i then o.apply (reg.getLsbD i) else reg.getLsbD i := by
  have hi : (i : ℕ) < 32 := i.isLt.trans (by decide)
  rw [step_eq, BitVec.getLsbD_setWidth, getLsbD_onReg hi, BitVec.getLsbD_setWidth]
  simp only [i.isLt, hi, decide_true, Bool.true_and, Fin.val_inj]

/-- The promoted register is not negative, so `>>` moves zeros in. -/
theorem checkBit_eq (reg : BitVec 8) (i : Fin 8) :
    checkBit reg i = bitWord 32 (reg.getLsbD i) := by
  have hmsb : (reg.setWidth 32).msb = false := by
    rw [BitVec.msb_setWidth, BitVec.getLsbD_of_ge reg 31 (by decide), Bool.and_false]
  have hi : (i : ℕ) < 32 := i.isLt.trans (by decide)
  have hpromoted := CAcheRein.checkBit_eq (reg.setWidth 32) i
  rw [BitVec.getLsbD_setWidth, decide_eq_true hi, Bool.true_and] at hpromoted
  rw [checkBit, BitVec.sshiftRight_eq_of_msb_false hmsb]
  exact hpromoted

/-- The macros, on any sequence of operations. -/
theorem perBit : PerBit step id (fun reg i => checkBit reg i) id :=
  perBit_of_local checkBit_eq getLsbD_step

end M3

namespace M1

/-- `get_bit` reads what `CHECK_BIT` reads. -/
theorem getBit_eq (reg : BitVec 8) (i : ℕ) : getBit reg i = (M3.checkBit reg i).setWidth 8 := rfl

/-- A function does what the macro does. -/
theorem step_eq (reg : BitVec 8) (o : SetClear) (b : Fin 8) :
    step reg (o, b) = M3.step reg (o.toBitOp, b) := by
  cases o with
  | set => rfl
  | clear => rfl

/-- The functions, on any sequence of operations. -/
theorem perBit : PerBit step SetClear.toBitOp (fun reg i => getBit reg i) id := by
  refine perBit_of_local (fun reg i => ?_) fun reg o b i => ?_
  · change getBit reg i = bitWord 8 (reg.getLsbD i)
    rw [getBit_eq, M3.checkBit_eq]
    cases reg.getLsbD i <;> rfl
  · rw [step_eq]
    exact M3.getLsbD_step reg o.toBitOp b i

/-- The functions do what the macros do, on any sequence that both offer. -/
theorem foldl_step_eq (reg : BitVec 8) (ops : List (SetClear × Fin 8)) :
    ops.foldl step reg = (ops.map fun p => (p.1.toBitOp, p.2)).foldl M3.step reg := by
  rw [List.foldl_map]
  exact List.foldl_ext _ _ _ fun _ p _ => step_eq _ p.1 p.2

end M1

end CAcheRein
