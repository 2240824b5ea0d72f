import CAcheRein.SensorRegs.Name
import CAcheRein.Transition.Machine

/-!
# The registers stay in their block

`sensor_add_reg` compares its index with `reg_count`, the block has `reg_count * sizeof(reg_t)`
bytes, and this product wraps.  Every accepted call writes inside the block exactly if it does not,
that is, up to 2^62 - 1 registers.

`kept_iff` : this, over every list of calls.
-/

namespace CAcheRein

namespace SensorRegs

open Block CString

variable {s t : SensorT} {regs : List UInt8} {i j : ℕ} {c : AddReg}

/-! ### One entry -/

/-- What a call writes. -/
def AddReg.reg (c : AddReg) : Reg := ⟨c.addr, 0x00, c.readable, c.writable⟩

/-- An assignment to `regs[i]`. -/
def writeEntry (regs : List UInt8) (i : ℕ) (r : Reg) : List UInt8 :=
  (((regs.set (4 * i) r.address).set (4 * i + 1) r.value).set (4 * i + 2) r.isReadable).set
    (4 * i + 3) r.isWritable

theorem length_writeEntry (r : Reg) : (writeEntry regs i r).length = regs.length := by
  simp [writeEntry]

theorem entry_writeEntry_self (r : Reg) (h : 4 * i + 4 ≤ regs.length) :
    entry (writeEntry regs i r) i = some r := by
  simp only [entry, writeEntry, load_natCast, List.getElem?_set, List.length_set]
  simp [show 4 * i < regs.length by omega, show 4 * i + 1 < regs.length by omega,
    show 4 * i + 2 < regs.length by omega, show 4 * i + 3 < regs.length by omega]

/-- A byte outside the entry is kept. -/
theorem getElem?_writeEntry_ne (r : Reg) {n : ℕ} (h : n < 4 * i ∨ 4 * i + 4 ≤ n) :
    (writeEntry regs i r)[n]? = regs[n]? := by
  rw [writeEntry, List.getElem?_set_ne (by omega), List.getElem?_set_ne (by omega),
    List.getElem?_set_ne (by omega), List.getElem?_set_ne (by omega)]

theorem entry_writeEntry_ne (r : Reg) (h : i ≠ j) :
    entry (writeEntry regs i r) j = entry regs j := by
  simp (disch := omega) only [entry, load_natCast, getElem?_writeEntry_ne]

/-! ### One call -/

/-- A call with an entry inside the block. -/
theorem sensorAddReg_eq (hidx : c.idx < s.regCount) (h : 4 * c.idx.toNat + 4 ≤ s.regs.length) :
    sensorAddReg s c = some { s with regs := writeEntry s.regs c.idx.toNat c.reg } := by
  rw [sensorAddReg, if_neg (UInt64.not_le.2 hidx)]
  simp (disch := grind) only [store_natCast, Option.bind_eq_bind, Option.bind_some]
  rfl

/-- A rejected call. -/
theorem sensorAddReg_of_le (hidx : s.regCount ≤ c.idx) : sensorAddReg s c = some s :=
  if_pos hidx

/-- A call with an entry behind the end of the block. -/
theorem sensorAddReg_eq_none (hidx : c.idx < s.regCount) (h : s.regs.length ≤ 4 * c.idx.toNat) :
    sensorAddReg s c = none := by
  rw [sensorAddReg, if_neg (UInt64.not_le.2 hidx), store_eq_none h]
  rfl

/-! ### Runs -/

/-- A sensor with the block it was created with. -/
def SameBlock (s t : SensorT) : Prop :=
  t = { s with regs := t.regs } ∧ t.regs.length = s.regs.length

/-- **One call**, where every index below `reg_count` has its entry inside the block. -/
theorem sensorAddReg_step
    (h : ∀ idx : UInt64, idx < s.regCount → 4 * idx.toNat + 4 ≤ s.regs.length)
    (t : SensorT) (c : AddReg) (ht : SameBlock s t) :
    ∃ t', sensorAddReg t c = some t' ∧ SameBlock s t' ∧ ∀ i : UInt64, i < s.regCount →
      entry t'.regs i.toNat = if c.idx = i then some c.reg else entry t.regs i.toNat := by
  obtain ⟨hsame, hlen⟩ := ht
  have hcount : t.regCount = s.regCount := by rw [hsame]
  by_cases hidx : c.idx < s.regCount
  · have hin := h c.idx hidx
    rw [← hlen] at hin
    refine ⟨_, sensorAddReg_eq (hcount ▸ hidx) hin, ⟨?_, ?_⟩, fun i _ => ?_⟩
    · rw [hsame]
    · rw [length_writeEntry, hlen]
    · split_ifs with heq
      · rw [← heq, entry_writeEntry_self _ hin]
      · exact entry_writeEntry_ne _ fun hnat => heq (UInt64.toNat_inj.1 hnat)
  · have hle := UInt64.not_lt.1 hidx
    refine ⟨t, sensorAddReg_of_le (hcount ▸ hle), ⟨hsame, hlen⟩, fun i hi => ?_⟩
    rw [if_neg]
    rintro rfl
    exact hidx hi

/-- `mapM` of a function that has a result on every element. -/
theorem exists_mapM {α β : Type*} {f : α → Option β} {l : List α}
    (h : ∀ a ∈ l, ∃ b, f a = some b) : ∃ bs, l.mapM f = some bs := by
  induction l with
  | nil => exact ⟨[], rfl⟩
  | cons a l ih =>
    obtain ⟨b, hb⟩ := h a List.mem_cons_self
    obtain ⟨bs, hbs⟩ := ih fun a' ha' => h a' (List.mem_cons_of_mem a ha')
    exact ⟨b :: bs, by simp [List.mapM_cons, hb, hbs]⟩

/-- `sensor_print` reads inside the block. -/
theorem exists_printRegs (h : 4 * s.regCount.toNat ≤ s.regs.length) :
    ∃ lines, printRegs s = some lines := by
  refine exists_mapM fun i hi => ?_
  have hlt := List.mem_range.1 hi
  refine ⟨(i, s.regs[4 * i], s.regs[4 * i + 2], s.regs[4 * i + 3]), ?_⟩
  simp (disch := omega) only [load_natCast, List.getElem?_eq_getElem, Option.bind_eq_bind,
    Option.bind_some]

/-- Every access to the registers is inside their block, over every list of calls. -/
structure Kept (s : SensorT) : Prop where
  /-- The block has the size asked for. -/
  block : s.regs.length = (s.regCount * sizeofReg).toNat
  /-- An entry with an index below `reg_count` is inside the block. -/
  inside : ∀ idx : UInt64, idx < s.regCount →
    4 * idx.toNat + 4 ≤ (s.regCount * sizeofReg).toNat
  /-- No call fails, one with another index changes nothing, an entry holds the arguments of the
  last call for it, and the loop of `sensor_print` does not fail. -/
  calls : ∀ calls, ∃ t, addAll s calls = some t ∧ SameBlock s t ∧
    (∀ c, s.regCount ≤ c.idx → sensorAddReg t c = some t) ∧
    (∀ i c, i < s.regCount → lastFor AddReg.idx calls i = some c →
      entry t.regs i.toNat = some ⟨c.addr, 0, c.readable, c.writable⟩) ∧
    ∃ lines, printRegs t = some lines

/-- What `sensor_create` allocates. -/
theorem length_of_sensorCreate {malloc : Allocator} {m : Memory} {name : ℕ} {addr : UInt8}
    {regCount : UInt64} {log : List ElemAccess}
    (h : sensorCreate malloc m name addr regCount = some (some s, log)) :
    s.regCount = regCount ∧ s.regs.length = (regCount * sizeofReg).toNat := by
  unfold sensorCreate at h
  cases hs : malloc.sensor with
  | none => simp [hs] at h
  | some s₀ =>
    cases hregs : malloc.regs (regCount * sizeofReg) with
    | none => simp [hs, hregs] at h
    | some regs =>
      simp only [hs, hregs, Option.bind_eq_bind, Option.bind_eq_some_iff, Option.some.injEq,
        Prod.mk.injEq] at h
      obtain ⟨_, -, _, -, rfl, -⟩ := h
      exact ⟨rfl, Vector.length_toList⟩

/-- The size in bytes of a block for `n` registers. -/
theorem toNat_mul_sizeofReg (n : UInt64) :
    (n * sizeofReg).toNat = 4 * (n.toNat % 2 ^ 62) := by
  have hmul : (n * sizeofReg).toNat = n.toNat * 4 % 2 ^ 64 := UInt64.toNat_mul n sizeofReg
  omega

/-- Where the product wraps, the entry behind the last one allocated is written outside the
block. -/
theorem exists_sensorAddReg_eq_none (hwrap : 2 ^ 62 ≤ s.regCount.toNat)
    (hlen : s.regs.length = (s.regCount * sizeofReg).toNat) :
    ∃ idx, ∀ c, c.idx = idx → sensorAddReg s c = none := by
  have hsize := toNat_mul_sizeofReg s.regCount
  have hlt := s.regCount.toNat_lt
  refine ⟨UInt64.ofNat (s.regCount.toNat % 2 ^ 62), fun c hc => ?_⟩
  have hidx : c.idx.toNat = s.regCount.toNat % 2 ^ 62 := by
    rw [hc, UInt64.toNat_ofNat']
    omega
  exact sensorAddReg_eq_none (UInt64.lt_iff_toNat_lt.2 (by omega)) (by omega)

/-- **Up to which count the accesses stay inside**, for every name, count and allocator. -/
theorem kept_iff (malloc : Allocator) (m : Memory) (name : ℕ) (addr : UInt8) (regCount : UInt64)
    (s : SensorT) (log : List ElemAccess)
    (h : sensorCreate malloc m name addr regCount = some (some s, log)) :
    Kept s ↔ regCount.toNat < 2 ^ 62 := by
  obtain ⟨rfl, hlen⟩ := length_of_sensorCreate h
  have hsize := toNat_mul_sizeofReg s.regCount
  constructor
  · intro hkept
    by_contra hwrap
    -- the block is shorter than the count says: some index below it is outside
    obtain ⟨idx, hfail⟩ := exists_sensorAddReg_eq_none (not_lt.1 hwrap) hlen
    obtain ⟨t, hrun, -⟩ := hkept.calls [⟨idx, 0, 0, 0⟩]
    rw [addAll, List.foldlM_cons, hfail _ rfl] at hrun
    cases hrun
  · intro hcount
    rw [Nat.mod_eq_of_lt hcount] at hsize
    -- without a wrap every index below the count has its entry in the block
    have hinside : ∀ idx : UInt64, idx < s.regCount → 4 * idx.toNat + 4 ≤ s.regs.length := by
      intro idx hidx
      have hidx := UInt64.lt_iff_toNat_lt.1 hidx
      omega
    refine ⟨hlen, fun idx hidx => hlen ▸ hinside idx hidx, fun calls => ?_⟩
    obtain ⟨t, hrun, hblock, hentry⟩ :=
      foldlM_lastFor (sensorAddReg_step hinside) ⟨rfl, rfl⟩ calls
    have hcount' : t.regCount = s.regCount := by rw [hblock.1]
    refine ⟨t, hrun, hblock, fun c hc => sensorAddReg_of_le (hcount' ▸ hc), ?_, ?_⟩
    · intro i c hi hlast
      rw [hentry i hi, hlast]
      rfl
    · exact exists_printRegs (by rw [hcount', hblock.2]; omega)

/-- A name of no characters. -/
theorem exists_sensorCreate (regCount : UInt64) : ∃ s log,
    sensorCreate .zeros (fun _ => 0) 5 0x27 regCount = some (some s, log) := by
  have hs : StringAt (fun _ => 0) 5 [] := stringAt_nil.2 rfl
  obtain ⟨r, log, hrun, -, hnull, -⟩ := sensorCreate_eq hs .zeros 0x27 regCount
  cases r with
  | none => rcases hnull rfl with h | h <;> cases h
  | some s => exact ⟨s, log, hrun⟩

/-- Three registers. -/
theorem kept_iff_three : ∃ s log,
    sensorCreate .zeros (fun _ => 0) 5 0x27 3 = some (some s, log) ∧ Kept s := by
  obtain ⟨s, log, hrun⟩ := exists_sensorCreate 3
  exact ⟨s, log, hrun, (kept_iff .zeros _ 5 0x27 3 s log hrun).2 (by decide)⟩

/-- A count of 2^62 + 1 allocates one entry, and the call with index 1 is accepted. -/
theorem not_kept_wrapped : ∃ s log,
    sensorCreate .zeros (fun _ => 0) 5 0x27 0x4000000000000001 = some (some s, log) ∧
      s.regs.length = 4 ∧ (1 : UInt64) < s.regCount ∧ addAll s [⟨1, 0x01, 1, 0⟩] = none ∧
      ¬ Kept s := by
  obtain ⟨s, log, hrun⟩ := exists_sensorCreate 0x4000000000000001
  obtain ⟨hcount, hlen⟩ := length_of_sensorCreate hrun
  have hlen : s.regs.length = 4 := hlen
  have hidx : (1 : UInt64) < s.regCount := by rw [hcount]; decide
  have hfail : addAll s [⟨1, 0x01, 1, 0⟩] = none := by
    have hout : s.regs.length ≤ 4 * (1 : UInt64).toNat := hlen.le
    rw [addAll, List.foldlM_cons, sensorAddReg_eq_none hidx hout]
    rfl
  refine ⟨s, log, hrun, hlen, hidx, hfail, fun hkept => ?_⟩
  obtain ⟨t, ht, -⟩ := hkept.calls [⟨1, 0x01, 1, 0⟩]
  rw [hfail] at ht
  cases ht

end SensorRegs

end CAcheRein
