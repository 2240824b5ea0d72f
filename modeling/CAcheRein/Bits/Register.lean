import Mathlib.Data.Nat.Notation

/-!
# Bits of a register

Setting, clearing, toggling and reading one bit of a word by shifts and masks, and what that does
to every bit of the word.
-/

namespace CAcheRein

variable {w : ℕ}

/-- `reg |= 1 << bit`. -/
def setBit (reg : BitVec w) (bit : ℕ) : BitVec w := reg ||| 1#w <<< bit

/-- `reg &= ~(1 << bit)`. -/
def clearBit (reg : BitVec w) (bit : ℕ) : BitVec w := reg &&& ~~~(1#w <<< bit)

/-- `reg ^= 1 << bit`. -/
def toggleBit (reg : BitVec w) (bit : ℕ) : BitVec w := reg ^^^ 1#w <<< bit

/-- `(reg >> bit) & 1`. -/
def checkBit (reg : BitVec w) (bit : ℕ) : BitVec w := reg >>> bit &&& 1#w

/-- The word with a single bit. -/
theorem getLsbD_one_shiftLeft (bit i : ℕ) :
    (1#w <<< bit).getLsbD i = (decide (i < w) && decide (i = bit)) := by
  rw [BitVec.getLsbD_shiftLeft, BitVec.getLsbD_one]
  by_cases hi : i < w
  · by_cases hb : i < bit
    · simp [hb, Nat.ne_of_lt hb]
    · have hiff : i - bit = 0 ↔ i = bit := by omega
      have hw : 0 < w := Nat.zero_lt_of_lt hi
      simp [hi, hb, hw, hiff]
  · simp [hi]

theorem getLsbD_setBit (reg : BitVec w) (bit i : ℕ) :
    (setBit reg bit).getLsbD i = (reg.getLsbD i || (decide (i < w) && decide (i = bit))) := by
  rw [setBit, BitVec.getLsbD_or, getLsbD_one_shiftLeft]

theorem getLsbD_clearBit (reg : BitVec w) (bit i : ℕ) :
    (clearBit reg bit).getLsbD i = (reg.getLsbD i && !decide (i = bit)) := by
  rw [clearBit, BitVec.getLsbD_and, BitVec.getLsbD_not, getLsbD_one_shiftLeft]
  by_cases hi : i < w
  · simp [hi]
  · simp [hi, BitVec.getLsbD_of_ge reg i (Nat.le_of_not_lt hi)]

theorem getLsbD_toggleBit (reg : BitVec w) (bit i : ℕ) :
    (toggleBit reg bit).getLsbD i = (reg.getLsbD i ^^ (decide (i < w) && decide (i = bit))) := by
  rw [toggleBit, BitVec.getLsbD_xor, getLsbD_one_shiftLeft]

/-- Setting a bit leaves the others alone. -/
theorem getLsbD_setBit_of_ne (reg : BitVec w) {bit i : ℕ} (h : i ≠ bit) :
    (setBit reg bit).getLsbD i = reg.getLsbD i := by
  rw [getLsbD_setBit, decide_eq_false h, Bool.and_false, Bool.or_false]

/-- Clearing a bit leaves the others alone. -/
theorem getLsbD_clearBit_of_ne (reg : BitVec w) {bit i : ℕ} (h : i ≠ bit) :
    (clearBit reg bit).getLsbD i = reg.getLsbD i := by
  rw [getLsbD_clearBit, decide_eq_false h, Bool.not_false, Bool.and_true]

/-- Reading a bit gives 1 or 0. -/
theorem checkBit_eq (reg : BitVec w) (bit : ℕ) :
    checkBit reg bit = if reg.getLsbD bit then 1#w else 0#w := by
  apply BitVec.eq_of_getLsbD_eq
  intro i hi
  rw [checkBit, BitVec.getLsbD_and, BitVec.getLsbD_ushiftRight, BitVec.getLsbD_one]
  by_cases h0 : i = 0
  · subst h0
    cases reg.getLsbD bit <;> simp [hi]
  · cases h : reg.getLsbD bit <;> simp [h0]

end CAcheRein
