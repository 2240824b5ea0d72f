import CAcheRein.CString.Basic
import CAcheRein.Memory.Block
import Mathlib.Data.Rat.Defs

/-!
# A sensor with its registers

The sensor of `module2-pointers-memory/ex05-structs-pointers`: a block for the sensor itself and
one for its registers, both from `malloc`.  An access outside the array or the block it is for has
no result.  `sensor_create` logs the reads of `name` and the writes of `s->name`.  A `float` is
exact here, and what is given to `free` is left out.
-/

namespace CAcheRein

namespace SensorRegs

open Block

/-- `reg_t`. -/
structure Reg where
  address : UInt8
  value : UInt8
  isReadable : UInt8
  isWritable : UInt8
  deriving DecidableEq

/-- `sizeof(reg_t)`. -/
def sizeofReg : UInt64 := 4

/-- `sensor_t`, with the block `regs` points to. -/
structure SensorT where
  name : Vector UInt8 32
  i2cAddress : UInt8
  regs : List UInt8
  regCount : UInt64
  lastTemp : ℚ
  deriving DecidableEq

/-- What the two calls of `malloc` in `sensor_create` answer: NULL, or a block of the size asked
for with whatever it holds. -/
structure Allocator where
  sensor : Option SensorT
  regs : (size : UInt64) → Option (Vector UInt8 size.toNat)

/-- An allocator that never fails and hands out zeros. -/
def Allocator.zeros : Allocator where
  sensor := some ⟨Vector.replicate 32 0, 0, [], 0, 0⟩
  regs size := some (Vector.replicate size.toNat 0)

/-- The name-copy loop of `sensor_create`: `i` and `s->name` after it, and the accesses. -/
def copyName (m : Memory) (name i : ℕ) (dst : Vector UInt8 32) :
    Option (ℕ × Vector UInt8 32 × List ElemAccess) :=
  -- the character is tested before the index
  if CString.asChar (m (name + i)) ≠ 0 ∧ i < 31 then do
    let dst ← storeAt dst i (m (name + i))
    let (k, dst, log) ← copyName m name (i + 1) dst
    some (k, dst, [.read i, .read i, .write i] ++ log)
  else some (i, dst, [.read i])
termination_by 31 - i
decreasing_by omega

/-- `sensor_create`: the sensor, or NULL, and the accesses to the two names. -/
def sensorCreate (malloc : Allocator) (m : Memory) (name : ℕ) (addr : UInt8) (regCount : UInt64) :
    Option (Option SensorT × List ElemAccess) :=
  match malloc.sensor with
  | none => some (none, [])
  | some s =>
    match malloc.regs (regCount * sizeofReg) with
    | none => some (none, [])
    | some regs => do
      let (i, dst, log) ← copyName m name 0 s.name
      let dst ← storeAt dst i 0
      some (some
        { name := dst
          i2cAddress := addr
          regs := regs.toList
          regCount := regCount
          lastTemp := 0 }, log ++ [.write i])

/-- The arguments of a call of `sensor_add_reg`. -/
structure AddReg where
  idx : UInt64
  addr : UInt8
  readable : UInt8
  writable : UInt8
  deriving DecidableEq

/-- `sensor_add_reg`. -/
def sensorAddReg (s : SensorT) (c : AddReg) : Option SensorT :=
  if c.idx ≥ s.regCount then some s
  else do
    let regs ← store s.regs (4 * c.idx.toNat : ℕ) c.addr
    let regs ← store regs (4 * c.idx.toNat + 1 : ℕ) 0x00
    let regs ← store regs (4 * c.idx.toNat + 2 : ℕ) c.readable
    let regs ← store regs (4 * c.idx.toNat + 3 : ℕ) c.writable
    some { s with regs := regs }

/-- Calls of `sensor_add_reg`, one after the other. -/
def addAll (s : SensorT) (calls : List AddReg) : Option SensorT := calls.foldlM sensorAddReg s

/-- `s->regs[i]`. -/
def entry (regs : List UInt8) (i : ℕ) : Option Reg := do
  let address ← load regs (4 * i : ℕ)
  let value ← load regs (4 * i + 1 : ℕ)
  let isReadable ← load regs (4 * i + 2 : ℕ)
  let isWritable ← load regs (4 * i + 3 : ℕ)
  some ⟨address, value, isReadable, isWritable⟩

/-- The loop of `sensor_print`: the index, address and flags of every entry. -/
def printRegs (s : SensorT) : Option (List (ℕ × UInt8 × UInt8 × UInt8)) :=
  (List.range s.regCount.toNat).mapM fun i => do
    let address ← load s.regs (4 * i : ℕ)
    let isReadable ← load s.regs (4 * i + 2 : ℕ)
    let isWritable ← load s.regs (4 * i + 3 : ℕ)
    some (i, address, isReadable, isWritable)

end SensorRegs

end CAcheRein
