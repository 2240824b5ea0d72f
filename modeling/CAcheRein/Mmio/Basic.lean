import CAcheRein.Bits.Register

/-!
# The simulated register bank

The register macros of `module3-embedded-patterns/ex03-mmio-simulation` and the peripheral driven
through them.  The bank is three words; a macro gets a byte offset, and the word there is number
`offset / 4`.  A run keeps the values the bank had before each write, so that what holds in every
state of it can be said; the loop that waits for the transmitter runs on fuel, and its iterations
are counted.
-/

namespace CAcheRein

namespace Mmio

/-- The registers behind `base`. -/
abbrev Bank := Vector (BitVec 32) 3

/-- `REG_CR`. -/
def regCr : ℕ := 0x00

/-- `REG_SR`. -/
def regSr : ℕ := 0x04

/-- `REG_DR`. -/
def regDr : ℕ := 0x08

/-- `CR_ENABLE`. -/
def crEnable : ℕ := 0

/-- `CR_TXEN`. -/
def crTxen : ℕ := 1

/-- `CR_RXEN`. -/
def crRxen : ℕ := 2

/-- `SR_BUSY`. -/
def srBusy : ℕ := 0

/-- `SR_TXREADY`. -/
def srTxready : ℕ := 1

/-- `SR_ERROR`. -/
def srError : ℕ := 7

/-! ### The macros -/

/-- `REG_READ`. -/
def regRead (base : Bank) (offset : ℕ) : BitVec 32 := base[offset / 4]!

/-- `REG_WRITE`. -/
def regWrite (base : Bank) (offset : ℕ) (value : BitVec 32) : Bank := base.set! (offset / 4) value

/-- `REG_SET_BIT`. -/
def regSetBit (base : Bank) (offset bit : ℕ) : Bank :=
  regWrite base offset (setBit (regRead base offset) bit)

/-- `REG_CLEAR_BIT`. -/
def regClearBit (base : Bank) (offset bit : ℕ) : Bank :=
  regWrite base offset (clearBit (regRead base offset) bit)

/-- `REG_CHECK_BIT`. -/
def regCheckBit (base : Bank) (offset bit : ℕ) : BitVec 32 := checkBit (regRead base offset) bit

/-! ### The peripheral -/

/-- `fake_peripheral` at the start. -/
def fakePeripheral : Bank := #v[0x00000000#32, 0x00000002#32, 0x00000000#32]

/-- The peripheral in a run. -/
structure Periph where
  /-- The registers. -/
  regs : Bank
  /-- What the registers were before each write, the latest first. -/
  past : List Bank
  /-- The iterations the wait loops have taken. -/
  waited : ℕ
  deriving DecidableEq

/-- The peripheral at the start of `main`. -/
def Periph.start : Periph where
  regs := fakePeripheral
  past := []
  waited := 0

/-- Every value the registers have had. -/
def Periph.states (p : Periph) : List Bank := p.regs :: p.past

/-- A write leaves the registers `base`. -/
def Periph.put (p : Periph) (base : Bank) : Periph :=
  { p with regs := base, past := p.regs :: p.past }

/-- `REG_WRITE` on the peripheral. -/
def Periph.write (p : Periph) (offset : ℕ) (value : BitVec 32) : Periph :=
  p.put (regWrite p.regs offset value)

/-- `REG_SET_BIT` on the peripheral. -/
def Periph.setBit (p : Periph) (offset bit : ℕ) : Periph := p.put (regSetBit p.regs offset bit)

/-- `REG_CLEAR_BIT` on the peripheral. -/
def Periph.clearBit (p : Periph) (offset bit : ℕ) : Periph := p.put (regClearBit p.regs offset bit)

/-- `periph_init`. -/
def periphInit (p : Periph) : Periph :=
  ((p.setBit regCr crEnable).setBit regCr crTxen).setBit regCr crRxen

/-- The wait loop of `periph_send`, if `fuel` tests are enough for it. -/
def waitReady : ℕ → Periph → Option Periph
  | 0, _ => none
  | fuel + 1, p =>
    if regCheckBit p.regs regSr srTxready = 0 then waitReady fuel { p with waited := p.waited + 1 }
    else some p

/-- `periph_send`. -/
def periphSend (fuel : ℕ) (p : Periph) (data : UInt8) : Option Periph := do
  let p ← waitReady fuel p
  let p := p.write regDr (data.toBitVec.setWidth 32)
  let p := p.setBit regSr srBusy
  return p.clearBit regSr srBusy

/-- What a program does to the peripheral. -/
inductive Op where
  | init
  | send (data : UInt8)
  | setError
  | clearError
  deriving DecidableEq

/-- One operation. -/
def Op.exec (fuel : ℕ) (p : Periph) : Op → Option Periph
  | .init => some (periphInit p)
  | .send data => periphSend fuel p data
  | .setError => some (p.setBit regSr srError)
  | .clearError => some (p.clearBit regSr srError)

/-- A sequence of operations from the start. -/
def execAll (fuel : ℕ) (ops : List Op) : Option Periph := ops.foldlM (Op.exec fuel) Periph.start

end Mmio

end CAcheRein
