import CAcheRein.Fifo.Window
import Mathlib.Data.Nat.Bitwise

/-!
# The production circular buffer

The byte ring of `module4-data-structures/ex03-circular-buffer-production`: `head` and `tail` are
free-running `uint32_t` indices, an array index is taken from them with a mask, and the fill
level is derived from their difference.

`CBUF_SIZE` is `2 ^ k` with `k < 32` ("must be power of 2" in the source, which fixes `k = 4`).
A byte pointed to is passed in and returned, so that a call that leaves it alone returns it
unchanged; a byte array is the memory behind the pointer, a function of the offset.

## Main definitions

* `Cbuf k` and `Cbuf.init`, `Cbuf.push`, `Cbuf.pop`, `Cbuf.pushBuf`, `Cbuf.popBuf`, `Cbuf.count`,
  `Cbuf.free`, `Cbuf.isEmpty`, `Cbuf.isFull`, `Cbuf.flush` : the functions of the source.
* `Cbuf.unread`, `Cbuf.contents` : the distance from `tail` to `head` (not masked), and the bytes
  between them.

## Main results

* `Cbuf.isFull_eq_false` : the fullness test never succeeds, since the masked count is below
  `CBUF_SIZE`.
* `Cbuf.contents_pushed`, `Cbuf.contents_pop` : a push into a ring that is not full appends, a pop
  takes the oldest byte, also when the indices wrap.
-/

namespace CAcheRein

/-- `CBUF_SIZE`. -/
def cbufSize (k : Fin 32) : UInt32 := UInt32.ofNat (2 ^ k.val)

/-- `CBUF_MASK`. -/
def cbufMask (k : Fin 32) : UInt32 := cbufSize k - 1

/-- `CBUF_OK`. -/
def cbufOk : Int := 0

/-- `CBUF_FULL`. -/
def cbufFull : Int := -1

/-- `CBUF_EMPTY`. -/
def cbufEmpty : Int := -2

/-- `cbuf_t`. -/
structure Cbuf (k : Fin 32) where
  data : Vector UInt8 (2 ^ k.val)
  /-- Write index. -/
  head : UInt32
  /-- Read index. -/
  tail : UInt32
  /-- Always `CBUF_SIZE`, for reference. -/
  size : UInt32
  deriving DecidableEq

namespace Cbuf

variable {k : Fin 32}

/-- `cbuf_init`. -/
def init : Cbuf k where
  data := Vector.replicate (2 ^ k.val) 0
  head := 0
  tail := 0
  size := cbufSize k

/-- `cbuf_is_empty`. -/
def isEmpty (cb : Cbuf k) : Bool := cb.head == cb.tail

/-- `cbuf_count`. -/
def count (cb : Cbuf k) : UInt32 := (cb.head - cb.tail) &&& cbufMask k

/-- `cbuf_is_full`. -/
def isFull (cb : Cbuf k) : Bool := cb.count == cbufSize k

/-- `cbuf_free`. -/
def free (cb : Cbuf k) : UInt32 := cbufSize k - cb.count

/-- `cbuf_push`: the return code and the buffer after the call. -/
def push (cb : Cbuf k) (byte : UInt8) : Int × Cbuf k :=
  if cb.isFull then (cbufFull, cb)
  else
    (cbufOk, { cb with
      data := cb.data.set! (cb.head &&& cbufMask k).toNat byte
      head := cb.head + 1 })

/-- `cbuf_pop`: the return code, the buffer and `*byte` after the call. -/
def pop (cb : Cbuf k) (byte : UInt8) : Int × Cbuf k × UInt8 :=
  if cb.isEmpty then (cbufEmpty, cb, byte)
  else (cbufOk, { cb with tail := cb.tail + 1 }, cb.data[(cb.tail &&& cbufMask k).toNat]!)

/-- The loop of `cbuf_push_buf` from index `i` on, with `n` iterations left. -/
def pushLoop (cb : Cbuf k) (buf : ℕ → UInt8) (i : ℕ) : ℕ → Cbuf k
  | 0 => cb
  | n + 1 => pushLoop (cb.push (buf i)).2 buf (i + 1) n

/-- `cbuf_push_buf`. -/
def pushBuf (cb : Cbuf k) (buf : ℕ → UInt8) (len : UInt32) : Int × Cbuf k :=
  if cb.free < len then (cbufFull, cb) else (cbufOk, cb.pushLoop buf 0 len.toNat)

/-- The loop of `cbuf_pop_buf` from index `i` on, with `n` iterations left. -/
def popLoop (cb : Cbuf k) (buf : ℕ → UInt8) (i : ℕ) : ℕ → Cbuf k × (ℕ → UInt8)
  | 0 => (cb, buf)
  | n + 1 =>
    let r := cb.pop (buf i)
    popLoop r.2.1 (Function.update buf i r.2.2) (i + 1) n

/-- `cbuf_pop_buf`: the return code, the buffer and the caller's array after the call. -/
def popBuf (cb : Cbuf k) (buf : ℕ → UInt8) (len : UInt32) : Int × Cbuf k × (ℕ → UInt8) :=
  if cb.count < len then (cbufEmpty, cb, buf) else (cbufOk, cb.popLoop buf 0 len.toNat)

/-- `cbuf_flush`. -/
def flush (cb : Cbuf k) : Cbuf k := { cb with head := 0, tail := 0 }

/-! ### Masked and free-running indices -/

theorem two_pow_lt (k : Fin 32) : 2 ^ k.val < 2 ^ 32 := Nat.pow_lt_pow_right (by omega) k.isLt

theorem two_pow_dvd (k : Fin 32) : 2 ^ k.val ∣ 2 ^ 32 := Nat.pow_dvd_pow 2 k.isLt.le

@[simp] theorem toNat_cbufSize (k : Fin 32) : (cbufSize k).toNat = 2 ^ k.val :=
  Nat.mod_eq_of_lt (two_pow_lt k)

@[simp] theorem toNat_cbufMask (k : Fin 32) : (cbufMask k).toNat = 2 ^ k.val - 1 := by
  have hpos : 1 ≤ 2 ^ k.val := Nat.one_le_two_pow
  have hle : (1 : UInt32) ≤ cbufSize k := by
    rw [UInt32.le_iff_toNat_le, toNat_cbufSize]
    exact hpos
  rw [cbufMask, UInt32.toNat_sub_of_le _ _ hle, toNat_cbufSize]
  rfl

/-- Masking an index is taking it modulo the size. -/
@[simp] theorem toNat_and_cbufMask (k : Fin 32) (x : UInt32) :
    (x &&& cbufMask k).toNat = x.toNat % 2 ^ k.val := by
  rw [UInt32.toNat_and, toNat_cbufMask, Nat.and_two_pow_sub_one_eq_mod]

/-- Index arithmetic modulo `2 ^ 32` agrees with arithmetic modulo the size, also when it wraps. -/
theorem toNat_add_mod (k : Fin 32) (x y : UInt32) :
    (x + y).toNat % 2 ^ k.val = (x.toNat + y.toNat) % 2 ^ k.val := by
  rw [UInt32.toNat_add, Nat.mod_mod_of_dvd _ (two_pow_dvd k)]

/-- The number of unread bytes: the distance from `tail` to `head`. -/
def unread (cb : Cbuf k) : ℕ := (cb.head - cb.tail).toNat

/-- The unread bytes, oldest first: all those from `tail` up to `head`, of which the loops of the
source see no more than the masked count. -/
def contents (cb : Cbuf k) : List UInt8 :=
  (List.range cb.unread).map fun i => cb.data[((cb.tail + UInt32.ofNat i) &&& cbufMask k).toNat]!

@[simp] theorem length_contents (cb : Cbuf k) : cb.contents.length = cb.unread := by
  simp [contents]

theorem contents_eq_window (cb : Cbuf k) :
    cb.contents = window (cells cb.data) (2 ^ k.val) cb.tail.toNat cb.unread := by
  refine List.map_congr_left fun i hi => ?_
  have hlt : i < 2 ^ 32 := (List.mem_range.1 hi).trans (UInt32.toNat_lt _)
  have hi' : (UInt32.ofNat i).toNat = i := UInt32.toNat_ofNat_of_lt' hlt
  rw [toNat_and_cbufMask, toNat_add_mod, hi']
  rfl

theorem head_mod (cb : Cbuf k) :
    cb.head.toNat % 2 ^ k.val = (cb.tail.toNat + cb.unread) % 2 ^ k.val := by
  rw [unread, ← toNat_add_mod, UInt32.add_comm, UInt32.sub_add_cancel]

@[simp] theorem toNat_count (cb : Cbuf k) : cb.count.toNat = cb.unread % 2 ^ k.val :=
  toNat_and_cbufMask k _

theorem toNat_free (cb : Cbuf k) : cb.free.toNat = 2 ^ k.val - cb.unread % 2 ^ k.val := by
  have hlt : cb.unread % 2 ^ k.val < 2 ^ k.val := Nat.mod_lt _ (Nat.two_pow_pos _)
  rw [free, UInt32.toNat_sub_of_le, toNat_cbufSize, toNat_count]
  rw [UInt32.le_iff_toNat_le, toNat_cbufSize, toNat_count]
  exact hlt.le

theorem isEmpty_iff (cb : Cbuf k) : cb.isEmpty = true ↔ cb.unread = 0 := by
  rw [isEmpty, beq_iff_eq, unread, ← UInt32.toNat_zero, UInt32.toNat_inj,
    UInt32.sub_eq_iff_eq_add, UInt32.zero_add]

/-- **The fullness test never succeeds**: the masked count is below `CBUF_SIZE`. -/
theorem isFull_eq_false (cb : Cbuf k) : cb.isFull = false := by
  have hlt : cb.count.toNat < (cbufSize k).toNat := by
    rw [toNat_count, toNat_cbufSize]
    exact Nat.mod_lt _ (Nat.two_pow_pos _)
  rw [isFull, beq_eq_false_iff_ne]
  rintro h
  rw [h] at hlt
  exact lt_irrefl _ hlt

/-! ### Single pushes and pops -/

/-- The buffer after a push that stores its byte. -/
def pushed (cb : Cbuf k) (byte : UInt8) : Cbuf k :=
  { cb with
    data := cb.data.set! (cb.head &&& cbufMask k).toNat byte
    head := cb.head + 1 }

/-- The buffer after a pop that delivers a byte. -/
def popped (cb : Cbuf k) : Cbuf k := { cb with tail := cb.tail + 1 }

/-- The byte a pop reads. -/
def front (cb : Cbuf k) : UInt8 := cb.data[(cb.tail &&& cbufMask k).toNat]!

@[simp] theorem push_eq (cb : Cbuf k) (byte : UInt8) : cb.push byte = (cbufOk, cb.pushed byte) := by
  rw [push, isFull_eq_false]
  rfl

theorem pop_of_unread_eq_zero {cb : Cbuf k} (h : cb.unread = 0) (byte : UInt8) :
    cb.pop byte = (cbufEmpty, cb, byte) := by
  rw [pop, if_pos (cb.isEmpty_iff.2 h)]

theorem pop_of_unread_ne_zero {cb : Cbuf k} (h : cb.unread ≠ 0) (byte : UInt8) :
    cb.pop byte = (cbufOk, cb.popped, cb.front) := by
  rw [pop, if_neg (mt cb.isEmpty_iff.1 h)]
  rfl

theorem unread_pushed {cb : Cbuf k} (h : cb.unread + 1 < 2 ^ 32) (byte : UInt8) :
    (cb.pushed byte).unread = cb.unread + 1 := by
  have hsub : cb.head + 1 - cb.tail = cb.head - cb.tail + 1 := by grind
  rw [unread, pushed, hsub, UInt32.toNat_add]
  exact Nat.mod_eq_of_lt h

theorem unread_popped {cb : Cbuf k} (h : cb.unread ≠ 0) : cb.popped.unread = cb.unread - 1 := by
  have hsub : cb.head - (cb.tail + 1) = cb.head - cb.tail - 1 := by grind
  have hle : (1 : UInt32) ≤ cb.head - cb.tail :=
    UInt32.le_iff_toNat_le.2 (Nat.one_le_iff_ne_zero.2 h)
  rw [unread, popped, hsub, UInt32.toNat_sub_of_le _ _ hle]
  rfl

@[simp] theorem unread_flush (cb : Cbuf k) : cb.flush.unread = 0 := by simp [flush, unread]

@[simp] theorem unread_init : (init : Cbuf k).unread = 0 := by simp [init, unread]

theorem front_eq (cb : Cbuf k) : cb.front = cells cb.data (cb.tail.toNat % 2 ^ k.val) := by
  rw [front, toNat_and_cbufMask]
  rfl

theorem cells_pushed (cb : Cbuf k) (byte : UInt8) :
    cells (cb.pushed byte).data =
      Function.update (cells cb.data) ((cb.tail.toNat + cb.unread) % 2 ^ k.val) byte := by
  rw [pushed, toNat_and_cbufMask, cells_set! _ (Nat.mod_lt _ (Nat.two_pow_pos _)), head_mod]

/-- A push into a ring that is not full appends its byte. -/
theorem contents_pushed {cb : Cbuf k} (h : cb.unread < 2 ^ k.val) (byte : UInt8) :
    (cb.pushed byte).contents = cb.contents ++ [byte] := by
  have hlt := two_pow_lt k
  rw [contents_eq_window, contents_eq_window, unread_pushed (by omega), cells_pushed]
  exact window_push _ h byte

/-- A pop delivers the oldest byte and keeps the others. -/
theorem contents_pop {cb : Cbuf k} (h : cb.unread ≠ 0) :
    cb.contents = cb.front :: cb.popped.contents := by
  obtain ⟨n, hn⟩ := Nat.exists_eq_succ_of_ne_zero h
  have hp : cb.popped.unread = n := by rw [unread_popped h, hn]; rfl
  rw [contents_eq_window, hn, window_cons, ← front_eq, contents_eq_window, hp]
  refine congrArg _ (window_congr ?_ n)
  exact (toNat_add_mod k cb.tail 1).symm

@[simp] theorem contents_flush (cb : Cbuf k) : cb.flush.contents = [] := by
  rw [contents_eq_window, unread_flush, window_zero]

@[simp] theorem contents_init : (init : Cbuf k).contents = [] := by
  rw [contents_eq_window, unread_init, window_zero]

end Cbuf

end CAcheRein
