import CAcheRein.Mmio.Basic
import Mathlib.Data.List.Induction

/-!
# What the registers hold

Every register is a function of the operations performed (`expected`): CR of whether
`periph_init` has run, SR of the last change of its error flag, DR of the last byte sent.
TXREADY is a bit that no write of the peripheral lowers (`Ready`), so it is set in every state,
those inside an operation included, and the wait loop of `periph_send` ends at its first test,
whatever the fuel.

`Mmio.registers_of_history` : this, for every sequence of operations.
-/

namespace CAcheRein

namespace Mmio

/-- The byte an operation sends. -/
def Op.sent : Op → Option UInt8
  | .send data => some data
  | _ => none

/-- What an operation makes of the error flag. -/
def Op.error : Op → Option Bool
  | .setError => some true
  | .clearError => some false
  | _ => none

/-- The last byte sent, 0 if there is none. -/
def lastSent (ops : List Op) : UInt8 := (ops.filterMap Op.sent).getLast?.getD 0

/-- The last change of the error flag, clear if there is none. -/
def lastError (ops : List Op) : Bool := (ops.filterMap Op.error).getLast?.getD false

/-- The registers after the operations `ops`. -/
def expected (ops : List Op) : Bank :=
  #v[if .init ∈ ops then 7#32 else 0#32, if lastError ops then 0x82#32 else 0x02#32,
    (lastSent ops).toBitVec.setWidth 32]

@[simp] theorem lastSent_concat (ops : List Op) (op : Op) :
    lastSent (ops ++ [op]) = op.sent.getD (lastSent ops) := by
  cases op <;> simp [lastSent, Op.sent]

@[simp] theorem lastError_concat (ops : List Op) (op : Op) :
    lastError (ops ++ [op]) = op.error.getD (lastError ops) := by
  cases op <;> simp [lastError, Op.error]

/-! ### One write -/

variable {base : Bank} {offset : ℕ}

theorem regRead_regWrite_self (h : offset / 4 < 3) (value : BitVec 32) :
    regRead (regWrite base offset value) offset = value := by
  simp [regRead, regWrite, h]

/-- A write leaves the other registers alone. -/
theorem regRead_regWrite_of_ne {other : ℕ} (h : offset / 4 ≠ other / 4) (value : BitVec 32) :
    regRead (regWrite base offset value) other = regRead base other := by
  by_cases hlt : other / 4 < 3 <;> simp [regRead, regWrite, h, hlt]

/-- The transmitter is ready. -/
def Ready (base : Bank) : Prop := (regRead base regSr).getLsbD srTxready = true

theorem ready_iff : Ready base ↔ regCheckBit base regSr srTxready = 1 := by
  rw [Ready, regCheckBit, checkBit_eq]
  cases (regRead base regSr).getLsbD srTxready <;> decide

/-- A write to another register leaves the transmitter ready. -/
theorem Ready.write (hready : Ready base) (h : offset / 4 ≠ regSr / 4) (value : BitVec 32) :
    Ready (regWrite base offset value) := by
  rwa [Ready, regRead_regWrite_of_ne h]

/-- Setting a bit of CR leaves the transmitter ready. -/
theorem Ready.setBit_cr (hready : Ready base) (bit : ℕ) : Ready (regSetBit base regCr bit) :=
  hready.write (by decide) _

/-- Setting any bit of SR leaves the transmitter ready. -/
theorem Ready.setBit_sr (hready : Ready base) (bit : ℕ) : Ready (regSetBit base regSr bit) := by
  rw [Ready, regSetBit, regRead_regWrite_self (by decide), getLsbD_setBit,
    show (regRead base regSr).getLsbD srTxready = true from hready, Bool.true_or]

/-- Clearing any other bit of SR leaves the transmitter ready. -/
theorem Ready.clearBit_sr (hready : Ready base) {bit : ℕ} (h : srTxready ≠ bit) :
    Ready (regClearBit base regSr bit) := by
  rw [Ready, regClearBit, regRead_regWrite_self (by decide), getLsbD_clearBit_of_ne _ h]
  exact hready

/-! ### TXREADY in every state -/

/-- The transmitter has been ready in every state. -/
def AlwaysReady (p : Periph) : Prop := ∀ base ∈ p.states, Ready base

variable {p : Periph} {ops : List Op}

theorem AlwaysReady.now (h : AlwaysReady p) : Ready p.regs := h _ List.mem_cons_self

theorem AlwaysReady.put (h : AlwaysReady p) (hbase : Ready base) : AlwaysReady (p.put base) := by
  intro b hb
  obtain rfl | hb := List.mem_cons.1 hb
  · exact hbase
  · exact h b hb

theorem AlwaysReady.periphInit (h : AlwaysReady p) : AlwaysReady (periphInit p) := by
  have h0 := h.put (h.now.setBit_cr crEnable)
  have h1 := h0.put (h0.now.setBit_cr crTxen)
  exact h1.put (h1.now.setBit_cr crRxen)

/-- While TXREADY is set, the wait loop ends at its first test. -/
theorem waitReady_of_ready (h : Ready p.regs) (fuel : ℕ) : waitReady (fuel + 1) p = some p := by
  have hne : regCheckBit p.regs regSr srTxready ≠ 0 := by
    rw [ready_iff.1 h]
    decide
  exact if_neg hne

/-- While TXREADY is set, `periph_send` makes its three writes. -/
theorem periphSend_of_ready (h : Ready p.regs) (fuel : ℕ) (data : UInt8) :
    periphSend (fuel + 1) p data =
      some (((p.write regDr (data.toBitVec.setWidth 32)).setBit regSr srBusy).clearBit
        regSr srBusy) := by
  rw [periphSend, waitReady_of_ready h]
  rfl

/-- None of the three writes of `periph_send` lowers TXREADY. -/
theorem AlwaysReady.send (h : AlwaysReady p) (value : BitVec 32) :
    AlwaysReady (((p.write regDr value).setBit regSr srBusy).clearBit regSr srBusy) := by
  have h0 := h.put (h.now.write (by decide : regDr / 4 ≠ regSr / 4) value)
  have h1 := h0.put (h0.now.setBit_sr srBusy)
  exact h1.put (h1.now.clearBit_sr (by decide))

/-- **TXREADY in every state.**  No operation makes it 0, not even between two of its writes. -/
theorem AlwaysReady.exec (h : AlwaysReady p) {fuel : ℕ} {op : Op} {p' : Periph}
    (hp' : op.exec (fuel + 1) p = some p') : AlwaysReady p' := by
  cases op with
  | init =>
    cases hp'
    exact h.periphInit
  | send data =>
    rw [Op.exec, periphSend_of_ready h.now] at hp'
    cases hp'
    exact h.send _
  | setError =>
    cases hp'
    exact h.put (h.now.setBit_sr srError)
  | clearError =>
    cases hp'
    exact h.put (h.now.clearBit_sr (by decide))

/-! ### The macros on the three words -/

variable (cr sr dr : BitVec 32)

theorem regSetBit_cr (bit : ℕ) :
    regSetBit #v[cr, sr, dr] regCr bit = #v[setBit cr bit, sr, dr] := rfl

theorem regSetBit_sr (bit : ℕ) :
    regSetBit #v[cr, sr, dr] regSr bit = #v[cr, setBit sr bit, dr] := rfl

theorem regClearBit_sr (bit : ℕ) :
    regClearBit #v[cr, sr, dr] regSr bit = #v[cr, clearBit sr bit, dr] := rfl

theorem regWrite_dr (value : BitVec 32) :
    regWrite #v[cr, sr, dr] regDr value = #v[cr, sr, value] := rfl

theorem regCheckBit_sr (bit : ℕ) :
    regCheckBit #v[cr, sr, dr] regSr bit = checkBit sr bit := rfl

/-! ### What the operations leave -/

/-- A peripheral after `ops`: its registers are the expected ones and nothing has waited. -/
structure Leaves (ops : List Op) (p : Periph) : Prop where
  regs : p.regs = expected ops
  waited : p.waited = 0
  ready : AlwaysReady p

theorem leaves_nil : Leaves [] Periph.start where
  regs := rfl
  waited := rfl
  ready := by
    intro base hbase
    obtain rfl := List.mem_singleton.1 hbase
    exact ready_iff.2 (by decide)

theorem periphInit_expected (h : p.regs = expected ops) :
    (periphInit p).regs = expected (ops ++ [.init]) := by
  have hmem : Op.init ∈ ops ++ [.init] := by simp
  simp only [periphInit, Periph.setBit, Periph.put, h, expected, regSetBit_cr, lastError_concat,
    lastSent_concat, if_pos hmem]
  by_cases hinit : Op.init ∈ ops
  · rw [if_pos hinit]
    rfl
  · rw [if_neg hinit]
    rfl

/-- An operation other than `periph_init` leaves CR alone. -/
theorem expected_concat {op : Op} (h : op ≠ .init) (ops : List Op) : expected (ops ++ [op]) =
    #v[if .init ∈ ops then 7#32 else 0#32,
      if op.error.getD (lastError ops) then 0x82#32 else 0x02#32,
      (op.sent.getD (lastSent ops)).toBitVec.setWidth 32] := by
  have hmem : Op.init ∈ ops ++ [op] ↔ Op.init ∈ ops := by simp [h.symm]
  simp only [expected, hmem, lastError_concat, lastSent_concat]

/-- Raising BUSY and lowering it again leaves SR as it was. -/
theorem busy_pulse (err : Bool) :
    clearBit (setBit (if err then 0x82#32 else 0x02#32) srBusy) srBusy =
      if err then 0x82#32 else 0x02#32 := by
  cases err <;> rfl

theorem send_expected (h : p.regs = expected ops) (data : UInt8) :
    (((p.write regDr (data.toBitVec.setWidth 32)).setBit regSr srBusy).clearBit
      regSr srBusy).regs = expected (ops ++ [.send data]) := by
  rw [expected_concat (by simp)]
  simp only [Periph.write, Periph.setBit, Periph.clearBit, Periph.put, h, expected, regWrite_dr,
    regSetBit_sr, regClearBit_sr, busy_pulse]
  rfl

theorem setError_expected :
    regSetBit (expected ops) regSr srError = expected (ops ++ [.setError]) := by
  rw [expected_concat (by decide), expected, regSetBit_sr]
  cases lastError ops <;> rfl

theorem clearError_expected :
    regClearBit (expected ops) regSr srError = expected (ops ++ [.clearError]) := by
  rw [expected_concat (by decide), expected, regClearBit_sr]
  cases lastError ops <;> rfl

/-- An operation ends without waiting, in the expected registers. -/
theorem Leaves.exec_regs (h : Leaves ops p) (fuel : ℕ) (op : Op) :
    ∃ p', op.exec (fuel + 1) p = some p' ∧ p'.regs = expected (ops ++ [op]) ∧ p'.waited = 0 := by
  cases op with
  | init => exact ⟨_, rfl, periphInit_expected h.regs, h.waited⟩
  | send data =>
    exact ⟨_, periphSend_of_ready h.ready.now fuel data, send_expected h.regs data, h.waited⟩
  | setError =>
    refine ⟨_, rfl, ?_, h.waited⟩
    rw [← setError_expected, ← h.regs]
    rfl
  | clearError =>
    refine ⟨_, rfl, ?_, h.waited⟩
    rw [← clearError_expected, ← h.regs]
    rfl

/-- **One operation** after `ops` leaves what the longer sequence leaves. -/
theorem Leaves.exec (h : Leaves ops p) (fuel : ℕ) (op : Op) :
    ∃ p', op.exec (fuel + 1) p = some p' ∧ Leaves (ops ++ [op]) p' := by
  obtain ⟨p', hp', hregs, hwaited⟩ := h.exec_regs fuel op
  exact ⟨p', hp', hregs, hwaited, h.ready.exec hp'⟩

/-- **A whole run** ends, without waiting, in the expected registers. -/
theorem execAll_leaves (fuel : ℕ) (ops : List Op) :
    ∃ p, execAll (fuel + 1) ops = some p ∧ Leaves ops p := by
  induction ops using List.reverseRecOn with
  | nil => exact ⟨_, rfl, leaves_nil⟩
  | append_singleton ops op ih =>
    obtain ⟨p, hp, hleaves⟩ := ih
    obtain ⟨p', hp', hleaves'⟩ := hleaves.exec fuel op
    refine ⟨p', ?_, hleaves'⟩
    rw [execAll] at hp ⊢
    rw [List.foldlM_append, hp, Option.bind_eq_bind, Option.bind_some, List.foldlM_cons, hp']
    rfl

/-! ### What that says about the bits -/

/-- SR is its initial value, with the error flag set or not. -/
theorem sr_expected (ops : List Op) : regRead (expected ops) regSr =
    if lastError ops then setBit (regRead fakePeripheral regSr) srError
    else regRead fakePeripheral regSr := by
  change (if lastError ops then 0x82#32 else 0x02#32) = _
  cases lastError ops <;> rfl

/-- CR is its initial value with the three enable bits set, or its initial value. -/
theorem cr_expected (ops : List Op) : regRead (expected ops) regCr =
    if .init ∈ ops then
      setBit (setBit (setBit (regRead fakePeripheral regCr) crEnable) crTxen) crRxen
    else regRead fakePeripheral regCr := by
  change (if Op.init ∈ ops then 7#32 else 0#32) = _
  split <;> rfl

theorem busy_expected (ops : List Op) : regCheckBit (expected ops) regSr srBusy = 0 := by
  rw [expected, regCheckBit_sr]
  cases lastError ops <;> rfl

theorem error_expected (ops : List Op) :
    regCheckBit (expected ops) regSr srError = if lastError ops then 1 else 0 := by
  rw [expected, regCheckBit_sr]
  cases lastError ops <;> rfl

/-- **The registers of the bank, from what was done to it.**  For every sequence of operations on
the initial bank, with any fuel for the wait loops: every call of `periph_send` ends without an
iteration of its loop, and TXREADY is 1 in every state on the way.  Afterwards BUSY is 0; CR is 7
if `periph_init` has run and 0 if not; DR is the last byte sent; ERROR is the last change made to
it; and every other bit of SR and CR has its initial value. -/
theorem registers_of_history (fuel : ℕ) (ops : List Op) :
    ∃ p, execAll (fuel + 1) ops = some p ∧ p.waited = 0 ∧
      (∀ base ∈ p.states, regCheckBit base regSr srTxready = 1) ∧
      regCheckBit p.regs regSr srBusy = 0 ∧
      regRead p.regs regCr = (if .init ∈ ops then 7 else 0) ∧
      regRead p.regs regDr = (lastSent ops).toBitVec.setWidth 32 ∧
      regCheckBit p.regs regSr srError = (if lastError ops then 1 else 0) ∧
      (∀ i, i ≠ srError →
        (regRead p.regs regSr).getLsbD i = (regRead fakePeripheral regSr).getLsbD i) ∧
      ∀ i, i ≠ crEnable → i ≠ crTxen → i ≠ crRxen →
        (regRead p.regs regCr).getLsbD i = (regRead fakePeripheral regCr).getLsbD i := by
  obtain ⟨p, hp, hregs, hwaited, hready⟩ := execAll_leaves fuel ops
  refine ⟨p, hp, hwaited, fun base hbase => ready_iff.1 (hready base hbase), ?_⟩
  rw [hregs]
  refine ⟨busy_expected ops, rfl, rfl, error_expected ops, fun i hi => ?_, fun i h0 h1 h2 => ?_⟩
  · rw [sr_expected]
    split
    · exact getLsbD_setBit_of_ne _ hi
    · rfl
  · rw [cr_expected]
    split
    · rw [getLsbD_setBit_of_ne _ h2, getLsbD_setBit_of_ne _ h1, getLsbD_setBit_of_ne _ h0]
    · rfl

end Mmio

end CAcheRein
