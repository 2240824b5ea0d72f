import CAcheRein.Calls.Blocks
import CAcheRein.SensorRegs.Bounds
import CAcheRein.Text.Template

/-!
# The life of a sensor

`module2-pointers-memory/ex05-structs-pointers` call by call: what `malloc` answers, what is read
and written where, and what is given to `free`.  `session` is its `main` for any name, address,
number of registers, calls of `sensor_add_reg` and temperature.

## Main results

* `session_clean` : where every register is added, memory is used as it may be and given back, and
  the last call for each register is printed.
-/

namespace CAcheRein

namespace SensorRegs

namespace Lifetime

open Prog Text CString

/-- The fields of `reg_t`. -/
inductive Field where
  | address
  | value
  | isReadable
  | isWritable
  deriving DecidableEq

/-- The objects in a `sensor_t`, and in an array of `reg_t`. -/
inductive Cell where
  | name (i : ℕ)
  | i2cAddress
  | regs
  | regCount
  | lastTemp
  | reg (i : ℕ) (f : Field)
  deriving DecidableEq

/-- `sizeof(sensor_t)`. -/
def sizeofSensor : ℕ := 64

/-- What the objects hold. -/
@[reducible] def Cell.Val : Cell → Type
  | name _ => UInt8
  | i2cAddress => UInt8
  | regs => Ptr
  | regCount => UInt64
  | lastTemp => ℚ
  | reg .. => UInt8

/-- What lies in a block: `name` has 32 bytes, and a register four. -/
def Cell.Fits (size : ℕ) : Cell → Prop
  | name i => i < 32 ∧ sizeofSensor ≤ size
  | reg i _ => 4 * i + 4 ≤ size
  | _ => sizeofSensor ≤ size

/-- A sensor and its registers. -/
abbrev layout : BlockLayout := ⟨Cell, Cell.Val, Cell.Fits⟩

abbrev Program (α : Type) := layout.Program α

abbrev load (p : Ptr) (c : Cell) : Program c.Val := layout.load p c

abbrev store (p : Ptr) (c : Cell) (v : c.Val) : Program Unit := layout.store p c v

abbrev printf (text : List Char) : Program Unit := layout.printf text

/-- The name-copy loop of `sensor_create`; `i` after it. -/
def copyName (m : Memory) (name : ℕ) (s : Ptr) (i : ℕ) : Program ℕ :=
  if asChar (m (name + i)) ≠ 0 ∧ i < 31 then do
    store s (.name i) (m (name + i))
    copyName m name s (i + 1)
  else return i
termination_by 31 - i

/-- `sensor_create`. -/
def sensorCreate (m : Memory) (name : ℕ) (addr : UInt8) (regCount : UInt64) : Program Ptr := do
  let s ← layout.malloc sizeofSensor
  if s = none then return none
  else do
    let regs ← layout.malloc (regCount * sizeofReg).toNat
    store s .regs regs
    let regs ← load s .regs
    if regs = none then do
      layout.free s
      return none
    else do
      let i ← copyName m name s 0
      store s (.name i) 0
      store s .i2cAddress addr
      store s .regCount regCount
      store s .lastTemp 0
      return s

/-- `sensor_destroy`. -/
def sensorDestroy (s : Ptr) : Program Unit :=
  if s = none then return ()
  else do
    let regs ← load s .regs
    layout.free regs
    store s .regs none
    layout.free s
    return ()

/-- An assignment to a field of `s->regs[idx]`. -/
def assign (s : Ptr) (idx : UInt64) (f : Field) (v : UInt8) : Program Unit := do
  let regs ← load s .regs
  store regs (.reg idx.toNat f) v
  return ()

/-- `sensor_add_reg`. -/
def sensorAddReg (s : Ptr) (c : AddReg) : Program Unit := do
  let regCount ← load s .regCount
  if c.idx ≥ regCount then return ()
  else do
    assign s c.idx .address c.addr
    assign s c.idx .value 0x00
    assign s c.idx .isReadable c.readable
    assign s c.idx .isWritable c.writable
    return ()

/-- The string at `s->name[i]`, read up to its NUL.  There is nothing to read behind the array. -/
def nameFrom (s : Ptr) : ℕ → ℕ → Program (List UInt8)
  | 0, _ => out
  | fuel + 1, i => do
    let b ← load s (.name i)
    if b = 0 then return []
    else do
      let bs ← nameFrom s fuel (i + 1)
      return b :: bs

/-- `s->name` as `%s` reads it. -/
def nameString (s : Ptr) : Program (List UInt8) := nameFrom s 32 0

/-- A field of `s->regs[i]`. -/
def field (s : Ptr) (i : UInt64) (f : Field) : Program UInt8 := do
  let regs ← load s .regs
  let v ← load regs (.reg i.toNat f)
  return v

/-- Bytes as characters. -/
def asText (bs : List UInt8) : List Char := bs.map fun b => Char.ofNat b.toNat

/-- A line about a register. -/
def regLine (i : ℕ) (address isReadable isWritable : UInt8) : List Char :=
  "    [".toList ++ digits i ++ "] addr=0x".toList ++ hexByte address ++ " r=".toList ++
    digits isReadable.toNat ++ " w=".toList ++ digits isWritable.toNat ++ "\n".toList

/-- The loop of `sensor_print`, from `i` on. -/
def printRegs (s : Ptr) : ℕ → UInt64 → Program Unit
  | 0, _ => out
  | fuel + 1, i => do
    let regCount ← load s .regCount
    if i < regCount then do
      let address ← field s i .address
      let isReadable ← field s i .isReadable
      let isWritable ← field s i .isWritable
      printf (regLine i.toNat address isReadable isWritable)
      printRegs s fuel (i + 1)
    else return ()

/-- `sensor_print`. -/
def sensorPrint (R : Nearest 1) (s : Ptr) : Program Unit := do
  let name ← nameString s
  printf ("sensor      = ".toList ++ asText name ++ "\n".toList)
  let i2cAddress ← load s .i2cAddress
  printf ("i2c addr    = 0x".toList ++ hexByte i2cAddress ++ "\n".toList)
  let lastTemp ← load s .lastTemp
  printf ("temp        = ".toList ++ R.print lastTemp ++ "\n".toList)
  printf "resisters:\n".toList
  -- an index of 64 bits takes no more rounds
  printRegs s (2 ^ 64) 0

/-- Calls of `sensor_add_reg`, one after the other. -/
def addAll (s : Ptr) : List AddReg → Program Unit
  | [] => return ()
  | c :: calls => do
    sensorAddReg s c
    addAll s calls

/-- `main`, for any sensor: what it returns. -/
def session (R : Nearest 1) (m : Memory) (name : ℕ) (addr : UInt8) (regCount : UInt64)
    (calls : List AddReg) (temp : ℚ) : Program ℕ := do
  let s ← sensorCreate m name addr regCount
  if s = none then do
    printf "error: sensor_create failed\n".toList
    return 1
  else do
    addAll s calls
    store s .lastTemp temp
    sensorPrint R s
    let name ← nameString s
    printf ("sensor name via **: ".toList ++ asText name ++ "\n".toList)
    sensorDestroy s
    return 0

/-! ### A sensor in memory -/

/-- The value of a field. -/
def Field.of (r : Reg) : Field → UInt8
  | address => r.address
  | value => r.value
  | isReadable => r.isReadable
  | isWritable => r.isWritable

/-- The characters of a name that are kept. -/
def kept (bs : List UInt8) : List UInt8 := bs.take 31

/-- The block of a sensor, with its registers in the block `q`. -/
structure IsSensor (bs : List UInt8) (addr : UInt8) (q : ℕ) (regCount : UInt64) (temp : ℚ)
    (b : layout.Block) : Prop where
  size : b.size = sizeofSensor
  name : ∀ j (h : j < (kept bs).length), b.cells (.name j) = some (kept bs)[j]
  nul : b.cells (.name (kept bs).length) = some 0
  i2cAddress : b.cells .i2cAddress = some addr
  regs : b.cells .regs = some (some q)
  regCount : b.cells .regCount = some regCount
  lastTemp : b.cells .lastTemp = some temp

/-- The block of the registers, behind some calls of `sensor_add_reg`. -/
structure HasRegs (regCount : UInt64) (calls : List AddReg) (b : layout.Block) : Prop where
  size : b.size = 4 * regCount.toNat
  entries : ∀ i c, i < regCount → lastFor AddReg.idx calls i = some c →
    ∀ f, b.cells (.reg i.toNat f) = some (f.of c.reg)

/-- Two blocks are in use beyond those of `s`. -/
def two (s : layout.State) (p : ℕ) (b₁ : layout.Block) (q : ℕ) (b₂ : layout.Block) :
    layout.State :=
  (s.set p (some b₁)).set q (some b₂)

variable {m : Memory} {name p q i : ℕ} {bs : List UInt8} {addr : UInt8} {regCount : UInt64}
  {temp : ℚ} {calls : List AddReg} {s : layout.State} {b₁ b₂ b : layout.Block}
  {text : List Char}

theorem length_kept (bs : List UInt8) : (kept bs).length ≤ 31 := by
  rw [kept, List.length_take]
  omega

theorem cells_write_self {c : Cell} {v : c.Val} :
    ((b.write c v : layout.Block)).cells c = some v :=
  BlockLayout.Block.cells_write_self

theorem cells_write_of_ne {c c' : Cell} {v : c.Val} (h : c' ≠ c) :
    ((b.write c v : layout.Block)).cells c' = b.cells c' :=
  BlockLayout.Block.cells_write_of_ne h

theorem two_self : (two s p b₁ q b₂).heap q = some b₂ := BlockLayout.State.heap_set_self _

theorem two_left (h : p ≠ q) : (two s p b₁ q b₂).heap p = some b₁ := by
  rw [two, BlockLayout.State.heap_set_of_ne _ h, BlockLayout.State.heap_set_self]

theorem two_set_right : (two s p b₁ q b₂).set q (some b) = two s p b₁ q b :=
  BlockLayout.State.set_set _ _

theorem two_set_left (h : p ≠ q) : (two s p b₁ q b₂).set p (some b) = two s p b q b₂ := by
  rw [two, BlockLayout.State.set_comm _ _ h.symm, BlockLayout.State.set_set, two]

theorem two_say : (two s p b₁ q b₂).say text = two (s.say text) p b₁ q b₂ := rfl

/-! ### Fields -/

theorem IsSensor.fits (h : IsSensor bs addr q regCount temp b) : sizeofSensor ≤ b.size :=
  h.size.ge

/-- A read of `s->regs[i]`. -/
theorem wp_field (hs : IsSensor bs addr q regCount temp b₁) (hne : p ≠ q) {i : UInt64} {f : Field}
    {v : UInt8} (hsize : 4 * i.toNat + 4 ≤ b₂.size) (hv : b₂.cells (.reg i.toNat f) = some v) :
    layout.protocol.wp (field (some p) i f)
      (fun v' s' => v' = v ∧ s' = two s p b₁ q b₂) (two s p b₁ q b₂) :=
  BlockLayout.wp_load (two_left hne) hs.fits hs.regs
    (BlockLayout.wp_load two_self hsize hv ⟨rfl, rfl⟩)

/-- A write to `s->regs[idx]`. -/
theorem wp_assign (hs : IsSensor bs addr q regCount temp b₁) (hne : p ≠ q) {idx : UInt64}
    {f : Field} {v : UInt8} (hsize : 4 * idx.toNat + 4 ≤ b₂.size) :
    layout.protocol.wp (assign (some p) idx f v)
      (fun _ s' => s' = two s p b₁ q (b₂.write (.reg idx.toNat f) v)) (two s p b₁ q b₂) :=
  BlockLayout.wp_load (two_left hne) hs.fits hs.regs
    (BlockLayout.wp_store two_self hsize two_set_right)

/-! ### Creating a sensor -/

/-- The block of a sensor while its name is copied, up to `i`. -/
structure Naming (bs : List UInt8) (q i : ℕ) (b : layout.Block) : Prop where
  size : b.size = sizeofSensor
  regs : b.cells .regs = some (some q)
  name : ∀ j (h : j < (kept bs).length), j < i → b.cells (.name j) = some (kept bs)[j]

/-- One character more. -/
theorem Naming.write (h : Naming bs q i b) (hi : i < (kept bs).length) :
    Naming bs q (i + 1) (b.write (.name i) (kept bs)[i]) := by
  refine ⟨h.size, ?_, fun j hj hlt => ?_⟩
  · exact (cells_write_of_ne (by simp)).trans h.regs
  · by_cases hji : j = i
    · subst hji
      exact cells_write_self
    · have hne : Cell.name j ≠ Cell.name i := fun heq => hji (Cell.name.inj heq)
      exact (cells_write_of_ne hne).trans (h.name j hj (by omega))

/-- **The name is copied** as far as it is kept. -/
theorem wp_copyName (hs : StringAt m name bs) (hne : p ≠ q) (hi : i ≤ (kept bs).length)
    (hb : Naming bs q i b) : layout.protocol.wp (copyName m name (some p) i)
      (fun k s' => k = (kept bs).length ∧
        ∃ b', Naming bs q (kept bs).length b' ∧ s' = two s p b' q b₂) (two s p b q b₂) := by
  have hlength : (kept bs).length = min 31 bs.length := List.length_take
  induction hk : (kept bs).length - i generalizing i b with
  | zero =>
    obtain rfl : i = (kept bs).length := by omega
    rw [copyName, if_neg]
    · exact ⟨rfl, b, hb, rfl⟩
    rintro ⟨hchar, hlt⟩
    have hend : (kept bs).length = bs.length := by omega
    rw [hend, hs.terminator] at hchar
    exact hchar rfl
  | succ k ih =>
    have hin : i < (kept bs).length := by omega
    have hlt : i < bs.length := by omega
    have h31 : i < 31 := by omega
    have hchar : m (name + i) = (kept bs)[i] := by
      rw [hs.bytes i hlt]
      exact List.getElem_take.symm
    rw [copyName, if_pos ⟨asChar_ne_zero_iff.2 (hs.ne_zero hlt), h31⟩, hchar]
    refine BlockLayout.wp_store (two_left hne) ⟨by omega, hb.size.ge⟩ ?_
    rw [two_set_left hne]
    exact ih (by omega) (hb.write hin) (by omega)

/-- **What `sensor_create` leaves**: nothing, or a sensor and its registers. -/
theorem wp_sensorCreate (hs : StringAt m name bs) (hcount : regCount.toNat < 2 ^ 62) :
    layout.protocol.wp (sensorCreate m name addr regCount)
      (fun r s' => (r = none ∧ (s' = s.answer false ∨ s' = (s.answer true).answer false)) ∨
        ∃ p q b₁ b₂, r = some p ∧ p ≠ q ∧ s.heap p = none ∧ s.heap q = none ∧
          IsSensor bs addr q regCount 0 b₁ ∧ HasRegs regCount [] b₂ ∧
          s' = two ((s.answer true).answer true) p b₁ q b₂) s := by
  have hsize : (regCount * sizeofReg).toNat = 4 * regCount.toNat := by
    rw [toNat_mul_sizeofReg, Nat.mod_eq_of_lt hcount]
  refine BlockLayout.wp_malloc (.inl ⟨rfl, .inl rfl⟩) fun p hp => ?_
  refine BlockLayout.wp_malloc ?_ fun q hq => ?_
  · -- the second allocation fails, and the first block is freed
    rw [BlockLayout.State.answer_set]
    refine BlockLayout.wp_store (BlockLayout.State.heap_set_self _) (Nat.le_refl _) ?_
    rw [BlockLayout.State.set_set]
    refine BlockLayout.wp_load (BlockLayout.State.heap_set_self _) (Nat.le_refl _)
      cells_write_self ?_
    refine BlockLayout.wp_free (BlockLayout.State.heap_set_self _) (.inl ⟨rfl, .inr ?_⟩)
    have hp' : ((s.answer true).answer false).heap p = none := hp
    rw [BlockLayout.State.set_set, BlockLayout.State.set_none hp']
  have hne : p ≠ q := by
    rintro rfl
    rw [BlockLayout.State.heap_set_self] at hq
    cases hq
  rw [BlockLayout.State.heap_set_of_ne _ hne.symm] at hq
  change layout.protocol.wp _ _
    (two ((s.answer true).answer true) p (.fresh sizeofSensor) q (.fresh _))
  refine BlockLayout.wp_store (two_left hne) (Nat.le_refl _) ?_
  rw [two_set_left hne]
  refine BlockLayout.wp_load (two_left hne) (Nat.le_refl _) cells_write_self ?_
  have hstart : Naming bs q 0
      ((BlockLayout.Block.fresh sizeofSensor : layout.Block).write .regs (some q)) :=
    ⟨rfl, cells_write_self, fun j _ hj => absurd hj (Nat.not_lt_zero j)⟩
  refine Protocol.wp_bind (Protocol.wp_mono
    (wp_copyName hs hne (Nat.zero_le _) hstart) ?_)
  rintro k s' ⟨rfl, b, hb, rfl⟩
  have h31 := length_kept bs
  refine BlockLayout.wp_store (two_left hne) ⟨by omega, hb.size.ge⟩ ?_
  rw [two_set_left hne]
  refine BlockLayout.wp_store (two_left hne) hb.size.ge ?_
  rw [two_set_left hne]
  refine BlockLayout.wp_store (two_left hne) hb.size.ge ?_
  rw [two_set_left hne]
  refine BlockLayout.wp_store (two_left hne) hb.size.ge ?_
  rw [two_set_left hne]
  refine .inr ⟨p, q, _, _, rfl, hne, hp, hq, ?_, ⟨hsize, fun i c _ hlast => ?_⟩, rfl⟩
  · refine ⟨hb.size, fun j hj => ?_, ?_, ?_, ?_, ?_, ?_⟩
    · have hj' : j ≠ (kept bs).length := Nat.ne_of_lt hj
      simp [cells_write_of_ne, hj', hb.name j hj hj]
    · simp [cells_write_of_ne]
    · simp [cells_write_of_ne]
    · simp [cells_write_of_ne, hb.regs]
    · simp [cells_write_of_ne]
    · simp
  · cases hlast

/-! ### Adding registers -/

/-- The block of the registers with one of them written. -/
def writeReg (b : layout.Block) (i : ℕ) (r : Reg) : layout.Block :=
  (((b.write (.reg i .address) r.address).write (.reg i .value) r.value).write
    (.reg i .isReadable) r.isReadable).write (.reg i .isWritable) r.isWritable

theorem cells_writeReg_self {r : Reg} (f : Field) :
    (writeReg b i r).cells (.reg i f) = some (f.of r) := by
  cases f <;> simp [writeReg, cells_write_of_ne, Field.of]

theorem cells_writeReg_of_ne {r : Reg} {j : ℕ} (h : j ≠ i) (f : Field) :
    (writeReg b i r).cells (.reg j f) = b.cells (.reg j f) := by
  simp [writeReg, cells_write_of_ne, h]

/-- **One more register.** -/
theorem HasRegs.concat (h : HasRegs regCount calls b) (c : AddReg) :
    HasRegs regCount (calls ++ [c]) (writeReg b c.idx.toNat c.reg) := by
  refine ⟨h.size, fun i c' hi hlast f => ?_⟩
  rw [lastFor_concat] at hlast
  split_ifs at hlast with heq
  · obtain rfl := Option.some.inj hlast
    rw [← heq]
    exact cells_writeReg_self f
  · have hne : i.toNat ≠ c.idx.toNat := fun hnat => heq (UInt64.toNat_inj.1 hnat).symm
    rw [cells_writeReg_of_ne hne]
    exact h.entries i c' hi hlast f

/-- A call with an index that is too large. -/
theorem HasRegs.concat_of_le (h : HasRegs regCount calls b) {c : AddReg} (hidx : regCount ≤ c.idx) :
    HasRegs regCount (calls ++ [c]) b := by
  refine ⟨h.size, fun i c' hi hlast f => ?_⟩
  rw [lastFor_concat, if_neg] at hlast
  · exact h.entries i c' hi hlast f
  · rintro rfl
    exact UInt64.not_lt.2 hidx hi

/-- One call of `sensor_add_reg`. -/
theorem wp_sensorAddReg (hs : IsSensor bs addr q regCount temp b₁) (hr : HasRegs regCount calls b₂)
    (hne : p ≠ q) (c : AddReg) : layout.protocol.wp (sensorAddReg (some p) c)
      (fun _ s' => ∃ b, HasRegs regCount (calls ++ [c]) b ∧ s' = two s p b₁ q b)
      (two s p b₁ q b₂) := by
  refine BlockLayout.wp_load (two_left hne) hs.fits hs.regCount ?_
  by_cases hidx : c.idx ≥ regCount
  · rw [if_pos hidx]
    exact ⟨b₂, hr.concat_of_le hidx, rfl⟩
  rw [if_neg hidx]
  have hlt := UInt64.not_le.1 hidx
  have hnat := UInt64.lt_iff_toNat_lt.1 hlt
  have hsize : 4 * c.idx.toNat + 4 ≤ b₂.size := by
    rw [hr.size]
    omega
  refine Protocol.wp_bind (Protocol.wp_mono (wp_assign hs hne hsize) ?_)
  rintro _ s' rfl
  refine Protocol.wp_bind (Protocol.wp_mono (wp_assign hs hne hsize) ?_)
  rintro _ s' rfl
  refine Protocol.wp_bind (Protocol.wp_mono (wp_assign hs hne hsize) ?_)
  rintro _ s' rfl
  refine Protocol.wp_bind (Protocol.wp_mono (wp_assign hs hne hsize) ?_)
  rintro _ s' rfl
  exact ⟨_, hr.concat c, rfl⟩

/-- **Any calls of `sensor_add_reg`.** -/
theorem wp_addAll (hs : IsSensor bs addr q regCount temp b₁) (hne : p ≠ q) (rest : List AddReg) :
    ∀ (calls : List AddReg) (b₂ : layout.Block), HasRegs regCount calls b₂ →
      layout.protocol.wp (addAll (some p) rest)
        (fun _ s' => ∃ b, HasRegs regCount (calls ++ rest) b ∧ s' = two s p b₁ q b)
        (two s p b₁ q b₂) := by
  induction rest with
  | nil =>
    intro calls b₂ hr
    exact ⟨b₂, (List.append_nil calls).symm ▸ hr, rfl⟩
  | cons c rest ih =>
    intro calls b₂ hr
    refine Protocol.wp_bind (Protocol.wp_mono (wp_sensorAddReg hs hr hne c) ?_)
    rintro _ s' ⟨b, hb, rfl⟩
    have hrest := ih (calls ++ [c]) b hb
    rwa [List.append_assoc] at hrest

/-! ### Printing a sensor -/

/-- The name is read from `i` on. -/
theorem wp_nameFrom (hno : ∀ b ∈ bs, b ≠ 0) (hs : IsSensor bs addr q regCount temp b₁)
    (hne : p ≠ q) : ∀ (fuel i : ℕ), i ≤ (kept bs).length → (kept bs).length < i + fuel →
      layout.protocol.wp (nameFrom (some p) fuel i)
        (fun r s' => r = (kept bs).drop i ∧ s' = two s p b₁ q b₂) (two s p b₁ q b₂) := by
  have h31 := length_kept bs
  intro fuel
  induction fuel with
  | zero => intro i hi hfuel; omega
  | succ fuel ih =>
    intro i hi hfuel
    by_cases hend : i = (kept bs).length
    · subst hend
      refine BlockLayout.wp_load (two_left hne) ⟨by omega, hs.fits⟩ hs.nul ?_
      rw [if_pos rfl, List.drop_length]
      exact ⟨rfl, rfl⟩
    have hlt : i < (kept bs).length := by omega
    have hchar : (kept bs)[i] ≠ 0 := hno _ (List.mem_of_mem_take (List.getElem_mem hlt))
    refine BlockLayout.wp_load (two_left hne) ⟨by omega, hs.fits⟩ (hs.name i hlt) ?_
    rw [if_neg hchar]
    refine Protocol.wp_bind (Protocol.wp_mono (ih (i + 1) hlt (by omega)) ?_)
    rintro r s' ⟨rfl, rfl⟩
    exact ⟨(List.drop_eq_getElem_cons hlt).symm, rfl⟩

/-- **The name that is read** is what was kept of it. -/
theorem wp_nameString (hno : ∀ b ∈ bs, b ≠ 0) (hs : IsSensor bs addr q regCount temp b₁)
    (hne : p ≠ q) : layout.protocol.wp (nameString (some p))
      (fun r s' => r = kept bs ∧ s' = two s p b₁ q b₂) (two s p b₁ q b₂) := by
  have h31 := length_kept bs
  exact wp_nameFrom hno hs hne 32 0 (Nat.zero_le _) (by omega)

/-- What is printed about the register `i`: the last call for it. -/
def regText (calls : List AddReg) (i : ℕ) : List Char :=
  (lastFor AddReg.idx calls (UInt64.ofNat i)).elim []
    fun c => regLine i c.addr c.readable c.writable

/-- Some call is for the register. -/
def Added (regCount : UInt64) (calls : List AddReg) : Prop := ∀ i < regCount, ∃ c ∈ calls, c.idx = i

theorem Added.exists_lastFor (h : Added regCount calls) {i : UInt64} (hi : i < regCount) :
    ∃ c, lastFor AddReg.idx calls i = some c := by
  obtain ⟨c, hc, rfl⟩ := h i hi
  have hmem : c ∈ calls.filter fun c' => c'.idx = c.idx := by
    rw [List.mem_filter]
    exact ⟨hc, decide_eq_true rfl⟩
  rw [lastFor, ← Option.isSome_iff_exists, List.getLast?_isSome]
  exact List.ne_nil_of_mem hmem

/-- **The loop of `sensor_print`** prints the last call for every register. -/
theorem wp_printRegs (hs : IsSensor bs addr q regCount temp b₁) (hr : HasRegs regCount calls b₂)
    (hall : Added regCount calls) (hne : p ≠ q) :
    ∀ (fuel : ℕ) (i : UInt64) (s : layout.State), i ≤ regCount →
      regCount.toNat < i.toNat + fuel →
        layout.protocol.wp (printRegs (some p) fuel i)
          (fun _ s' => s' = two (s.say ((List.range' i.toNat (regCount.toNat - i.toNat)).flatMap
            (regText calls))) p b₁ q b₂) (two s p b₁ q b₂) := by
  intro fuel
  induction fuel with
  | zero =>
    intro i s hi hfuel
    have := UInt64.le_iff_toNat_le.1 hi
    omega
  | succ fuel ih =>
    intro i s hi hfuel
    have hle := UInt64.le_iff_toNat_le.1 hi
    refine BlockLayout.wp_load (two_left hne) hs.fits hs.regCount ?_
    by_cases hlt : i < regCount
    · have hnat := UInt64.lt_iff_toNat_lt.1 hlt
      -- `i++` does not wrap around below `regCount`
      have hbound := regCount.toNat_lt
      have hsucc : (i + 1).toNat = i.toNat + 1 := by
        rw [UInt64.toNat_add, UInt64.toNat_one, Nat.mod_eq_of_lt (by omega)]
      have hle' : i + 1 ≤ regCount := UInt64.le_iff_toNat_le.2 (by omega)
      obtain ⟨c, hc⟩ := hall.exists_lastFor hlt
      have hcells := hr.entries i c hlt hc
      have hsize : 4 * i.toNat + 4 ≤ b₂.size := by
        rw [hr.size]
        omega
      have hof : UInt64.ofNat i.toNat = i := UInt64.ofNat_toNat
      have htext : regText calls i.toNat = regLine i.toNat c.addr c.readable c.writable := by
        rw [regText, hof, hc]
        rfl
      rw [if_pos hlt]
      -- the three fields are read before the line is printed
      refine Protocol.wp_bind (Protocol.wp_mono (wp_field hs hne hsize (hcells .address)) ?_)
      rintro _ s' ⟨rfl, rfl⟩
      refine Protocol.wp_bind (Protocol.wp_mono (wp_field hs hne hsize (hcells .isReadable)) ?_)
      rintro _ s' ⟨rfl, rfl⟩
      refine Protocol.wp_bind (Protocol.wp_mono (wp_field hs hne hsize (hcells .isWritable)) ?_)
      rintro _ s' ⟨rfl, rfl⟩
      refine BlockLayout.wp_printf ?_
      rw [two_say]
      refine Protocol.wp_mono (ih (i + 1) _ hle' (by omega)) ?_
      rintro _ s' rfl
      have hcount : regCount.toNat - i.toNat = regCount.toNat - (i.toNat + 1) + 1 := by omega
      rw [hsucc, hcount, List.range'_succ, List.flatMap_cons, htext, BlockLayout.State.say_say]
      rfl
    · have heq : regCount.toNat - i.toNat = 0 := by
        have := UInt64.le_iff_toNat_le.1 (UInt64.not_lt.1 hlt)
        omega
      rw [if_neg hlt, heq, List.range'_zero, List.flatMap_nil, BlockLayout.State.say_nil]
      exact rfl

/-- What `sensor_print` prints. -/
def sensorText (R : Nearest 1) (bs : List UInt8) (addr : UInt8) (regCount : UInt64)
    (calls : List AddReg) (temp : ℚ) : List Char :=
  "sensor      = ".toList ++ asText (kept bs) ++ "\n".toList ++
    ("i2c addr    = 0x".toList ++ hexByte addr ++ "\n".toList ++
      ("temp        = ".toList ++ R.print temp ++ "\n".toList ++
        ("resisters:\n".toList ++ (List.range regCount.toNat).flatMap (regText calls))))

/-- **What `sensor_print` prints.** -/
theorem wp_sensorPrint (R : Nearest 1) (hno : ∀ b ∈ bs, b ≠ 0)
    (hs : IsSensor bs addr q regCount temp b₁) (hr : HasRegs regCount calls b₂)
    (hall : Added regCount calls) (hne : p ≠ q) :
    layout.protocol.wp (sensorPrint R (some p))
      (fun _ s' => s' = two (s.say (sensorText R bs addr regCount calls temp)) p b₁ q b₂)
      (two s p b₁ q b₂) := by
  refine Protocol.wp_bind (Protocol.wp_mono (wp_nameString hno hs hne) ?_)
  rintro _ s' ⟨rfl, rfl⟩
  refine BlockLayout.wp_printf ?_
  rw [two_say]
  refine BlockLayout.wp_load (two_left hne) hs.fits hs.i2cAddress (BlockLayout.wp_printf ?_)
  rw [two_say]
  refine BlockLayout.wp_load (two_left hne) hs.fits hs.lastTemp (BlockLayout.wp_printf ?_)
  rw [two_say]
  refine BlockLayout.wp_printf ?_
  rw [two_say]
  have h0 : (0 : UInt64) ≤ regCount := UInt64.le_iff_toNat_le.2 (Nat.zero_le _)
  have hfuel : regCount.toNat < (0 : UInt64).toNat + 2 ^ 64 := by
    rw [UInt64.toNat_zero, Nat.zero_add]
    exact regCount.toNat_lt
  refine Protocol.wp_mono (wp_printRegs hs hr hall hne (2 ^ 64) 0 _ h0 hfuel) ?_
  rintro _ s' rfl
  rw [UInt64.toNat_zero, Nat.sub_zero, ← List.range_eq_range', BlockLayout.State.say_say,
    BlockLayout.State.say_say, BlockLayout.State.say_say, BlockLayout.State.say_say]
  rfl

/-! ### Destroying a sensor -/

/-- **`sensor_destroy` gives both blocks back.** -/
theorem wp_sensorDestroy (hs : IsSensor bs addr q regCount temp b₁) (hne : p ≠ q)
    (hp : s.heap p = none) (hq : s.heap q = none) :
    layout.protocol.wp (sensorDestroy (some p)) (fun _ s' => s' = s) (two s p b₁ q b₂) := by
  refine BlockLayout.wp_load (two_left hne) hs.fits hs.regs (BlockLayout.wp_free two_self ?_)
  have hfreed : (two s p b₁ q b₂).set q none = s.set p (some b₁) := by
    rw [two, BlockLayout.State.set_set, BlockLayout.State.set_comm _ _ hne,
      BlockLayout.State.set_none hq]
  rw [hfreed]
  refine BlockLayout.wp_store (BlockLayout.State.heap_set_self _) hs.fits ?_
  rw [BlockLayout.State.set_set]
  refine BlockLayout.wp_free (BlockLayout.State.heap_set_self _) ?_
  rw [BlockLayout.State.set_set, BlockLayout.State.set_none hp]
  exact rfl

/-! ### The life of a sensor -/

/-- A new temperature. -/
theorem IsSensor.setTemp (hs : IsSensor bs addr q regCount temp b) (temp' : ℚ) :
    IsSensor bs addr q regCount temp' (b.write .lastTemp temp') := by
  refine ⟨hs.size, fun j hj => ?_, ?_, ?_, ?_, ?_, cells_write_self⟩
  · exact (cells_write_of_ne (by simp)).trans (hs.name j hj)
  · exact (cells_write_of_ne (by simp)).trans hs.nul
  · exact (cells_write_of_ne (by simp)).trans hs.i2cAddress
  · exact (cells_write_of_ne (by simp)).trans hs.regs
  · exact (cells_write_of_ne (by simp)).trans hs.regCount

/-- What `main` prints if there is memory. -/
def sessionText (R : Nearest 1) (bs : List UInt8) (addr : UInt8) (regCount : UInt64)
    (calls : List AddReg) (temp : ℚ) : List Char :=
  sensorText R bs addr regCount calls temp ++
    ("sensor name via **: ".toList ++ asText (kept bs) ++ "\n".toList)

/-- What `main` returns and prints, and which of its allocations got a block. -/
inductive Ended (R : Nearest 1) (bs : List UInt8) (addr : UInt8) (regCount : UInt64)
    (calls : List AddReg) (temp : ℚ) : ℕ → List Char → List Bool → Prop
  | failed (allocs : List Bool) (hallocs : allocs = [false] ∨ allocs = [true, false]) :
    Ended R bs addr regCount calls temp 1 "error: sensor_create failed\n".toList allocs
  | shown : Ended R bs addr regCount calls temp 0 (sessionText R bs addr regCount calls temp)
    [true, true]

/-- With memory for everything, the sensor is shown. -/
theorem Ended.of_got {R : Nearest 1} {code : ℕ} {allocs : List Bool}
    (h : Ended R bs addr regCount calls temp code text allocs) (hgot : false ∉ allocs) :
    code = 0 ∧ text = sessionText R bs addr regCount calls temp := by
  cases h with
  | failed _ hallocs =>
    refine (hgot ?_).elim
    rcases hallocs with rfl | rfl
    · exact List.mem_singleton_self false
    · exact List.mem_cons_of_mem true (List.mem_singleton_self false)
  | shown => exact ⟨rfl, rfl⟩

theorem wp_session (R : Nearest 1) (hs : StringAt m name bs) (hcount : regCount.toNat < 2 ^ 62)
    (hall : Added regCount calls) (s : layout.State) :
    layout.protocol.wp (session R m name addr regCount calls temp)
      (fun code s' => ∃ text allocs, BlockLayout.Since s s' text allocs ∧
        Ended R bs addr regCount calls temp code text allocs) s := by
  refine Protocol.wp_bind (Protocol.wp_mono (wp_sensorCreate hs hcount) ?_)
  rintro r s' (⟨rfl, hs'⟩ | ⟨p, q, b₁, b₂, rfl, hne, hp, hq, hsensor, hregs, rfl⟩)
  · refine BlockLayout.wp_printf ?_
    rcases hs' with rfl | rfl
    · exact ⟨_, [false], ⟨rfl, rfl, rfl⟩, .failed _ (.inl rfl)⟩
    · exact ⟨_, [true, false], ⟨rfl, rfl, List.append_assoc ..⟩, .failed _ (.inr rfl)⟩
  refine Protocol.wp_bind (Protocol.wp_mono (wp_addAll hsensor hne calls [] b₂ hregs) ?_)
  rintro _ s' ⟨b, hb, rfl⟩
  refine BlockLayout.wp_store (two_left hne) hsensor.fits ?_
  rw [two_set_left hne]
  have htemp := hsensor.setTemp temp
  refine Protocol.wp_bind (Protocol.wp_mono
    (wp_sensorPrint R hs.nonzero htemp hb hall hne) ?_)
  rintro _ s' rfl
  refine Protocol.wp_bind (Protocol.wp_mono (wp_nameString hs.nonzero htemp hne) ?_)
  rintro _ s' ⟨rfl, rfl⟩
  refine BlockLayout.wp_printf ?_
  rw [two_say, BlockLayout.State.say_say]
  refine Protocol.wp_bind (Protocol.wp_mono (wp_sensorDestroy htemp hne hp hq) ?_)
  rintro _ s' rfl
  exact ⟨_, [true, true], ⟨rfl, rfl, List.append_assoc ..⟩, .shown⟩

/-- **The life of a sensor.**  For any name, and registers that are all added and whose bytes can
be counted, whatever `malloc` answers: only what lies in a block in use is accessed, only what has
been written is read, only blocks in use are freed, and in the end no block is left over.  If
the first or the second `malloc` answers NULL, the error is printed and the status is 1; otherwise
the sensor is printed, with the last call for every register, and the status is 0. -/
theorem session_clean (R : Nearest 1) (m : Memory) (name : ℕ) (bs : List UInt8)
    (hs : StringAt m name bs) (addr : UInt8) (regCount : UInt64) (calls : List AddReg) (temp : ℚ)
    (hcount : regCount.toNat < 2 ^ 62) (hall : ∀ i < regCount, ∃ c ∈ calls, c.idx = i)
    {τ : Type} (e : Env layout.Call layout.Answer τ) (t : τ) (s : layout.State)
    (honest : layout.protocol.Honest s
      ((session R m name addr regCount calls temp).run e t).trace) :
    layout.Clean s ((session R m name addr regCount calls temp).run e t).trace ∧
      ∃ code, ((session R m name addr regCount calls temp).run e t).result = some code ∧
        Ended R bs addr regCount calls temp code
          (BlockLayout.printed ((session R m name addr regCount calls temp).run e t).trace)
          (BlockLayout.allocations ((session R m name addr regCount calls temp).run e t).trace) :=
  BlockLayout.clean_of_wp (wp_session R hs hcount hall s) e t honest

/-- The calls of `sensor_add_reg` in `main`. -/
def mainCalls : List AddReg := [⟨0, 0x00, 1, 0⟩, ⟨1, 0x01, 1, 0⟩, ⟨2, 0x02, 1, 1⟩]

theorem added_main : Added 3 mainCalls := by
  intro i hi
  have hlt : i.toNat < 3 := UInt64.lt_iff_toNat_lt.1 hi
  have hcases : i.toNat = 0 ∨ i.toNat = 1 ∨ i.toNat = 2 := by omega
  rcases hcases with h | h | h
  · exact ⟨⟨0, 0x00, 1, 0⟩, by decide, UInt64.toNat_inj.1 h.symm⟩
  · exact ⟨⟨1, 0x01, 1, 0⟩, by decide, UInt64.toNat_inj.1 h.symm⟩
  · exact ⟨⟨2, 0x02, 1, 1⟩, by decide, UInt64.toNat_inj.1 h.symm⟩

/-- `36.6f`. -/
def mainTemp : ℚ := 9594470 / 2 ^ 18

/-- `main`, with the literal it passes at an address of its memory. -/
def main (R : Nearest 1) (m : Memory) (name : ℕ) : Program ℕ :=
  session R m name 0x27 3 mainCalls mainTemp

instance (c : Cell) : Inhabited c.Val := by
  cases c <;> infer_instance

/-- "DHT11", in a memory. -/
def dht11 : List UInt8 := [68, 72, 84, 49, 49]

def dht11At (p : ℕ) : Memory := fun a => dht11.getD (a - p) 0

theorem stringAt_dht11 (p : ℕ) : StringAt (dht11At p) p dht11 where
  nonzero b hb := by
    simp only [dht11, List.mem_cons, List.not_mem_nil, or_false] at hb
    rcases hb with rfl | rfl | rfl | rfl | rfl <;> decide
  bytes i h := by simp [dht11At, List.getElem?_eq_getElem h]
  terminator := by simp [dht11At, dht11]

/-- A memory in which no block is in use. -/
def noBlocks : layout.State := ⟨fun _ => none, [], []⟩

/-- `main` where there is memory for everything, and where there is memory for the sensor, but not
for its registers. -/
theorem session_clean_main :
    (layout.Clean noBlocks
        ((main (.halfUp 1) (dht11At 5) 5).run (layout.env fun _ => true) (0, noBlocks)).trace ∧
      ((main (.halfUp 1) (dht11At 5) 5).run (layout.env fun _ => true) (0, noBlocks)).result =
        some 0 ∧
      BlockLayout.printed
          ((main (.halfUp 1) (dht11At 5) 5).run (layout.env fun _ => true) (0, noBlocks)).trace =
        sessionText (.halfUp 1) dht11 0x27 3 mainCalls mainTemp) ∧
    layout.Clean noBlocks
        ((main (.halfUp 1) (dht11At 5) 5).run (layout.env (· == 64)) (0, noBlocks)).trace ∧
      ∃ code, ((main (.halfUp 1) (dht11At 5) 5).run (layout.env (· == 64)) (0, noBlocks)).result =
          some code ∧
        Ended (.halfUp 1) dht11 0x27 3 mainCalls mainTemp code
          (BlockLayout.printed
            ((main (.halfUp 1) (dht11At 5) 5).run (layout.env (· == 64)) (0, noBlocks)).trace)
          (BlockLayout.allocations
            ((main (.halfUp 1) (dht11At 5) 5).run (layout.env (· == 64)) (0, noBlocks)).trace) := by
  have hclean := fun gives => session_clean (.halfUp 1) (dht11At 5) 5 dht11
    (stringAt_dht11 5) 0x27 3 mainCalls mainTemp (by decide) added_main (layout.env gives)
    (0, noBlocks) noBlocks (BlockLayout.honest_env _ _ fun _ _ => rfl)
  refine ⟨?_, hclean (· == 64)⟩
  obtain ⟨hrun, code, hresult, hended⟩ := hclean fun _ => true
  have hgot := BlockLayout.not_mem_allocations (main (.halfUp 1) (dht11At 5) 5) (0, noBlocks)
  obtain ⟨rfl, htext⟩ := hended.of_got hgot
  exact ⟨hrun, hresult, htext⟩

end Lifetime

end SensorRegs

end CAcheRein
