import CAcheRein.Fifo.Window

/-!
# The learning circular buffer

The byte ring of `module3-embedded-patterns/ex05-circular-buffer`: `head` and `tail` wrap modulo
`BUFFER_SIZE`, and a third field counts the bytes held.  The source fixes `BUFFER_SIZE` at 8; it
is the parameter `N` here.
-/

namespace CAcheRein

/-- `BUFFER_SIZE`. -/
def bufferSize (N : ℕ) : UInt32 := UInt32.ofNat N

/-- `circ_buf_t`. -/
structure CircBuf (N : ℕ) where
  data : Vector UInt8 N
  /-- Write index. -/
  head : UInt32
  /-- Read index. -/
  tail : UInt32
  /-- Elements currently in the buffer. -/
  count : UInt32
  deriving DecidableEq

namespace CircBuf

variable {N : ℕ}

/-- `cbuf_init`. -/
def init : CircBuf N where
  data := Vector.replicate N 0
  head := 0
  tail := 0
  count := 0

/-- `cbuf_is_full`. -/
def isFull (cb : CircBuf N) : Bool := cb.count == bufferSize N

/-- `cbuf_is_empty`. -/
def isEmpty (cb : CircBuf N) : Bool := cb.count == 0

/-- `cbuf_push`: the return code and the buffer after the call. -/
def push (cb : CircBuf N) (byte : UInt8) : Int × CircBuf N :=
  if cb.isFull then (-1, cb)
  else
    (0, { cb with
      data := cb.data.set! cb.head.toNat byte
      head := (cb.head + 1) % bufferSize N
      count := cb.count + 1 })

/-- `cbuf_pop`: the return code, the buffer and `*byte` after the call. -/
def pop (cb : CircBuf N) (byte : UInt8) : Int × CircBuf N × UInt8 :=
  if cb.isEmpty then (-1, cb, byte)
  else
    (0, { cb with
      tail := (cb.tail + 1) % bufferSize N
      count := cb.count - 1 }, cb.data[cb.tail.toNat]!)

end CircBuf

end CAcheRein
