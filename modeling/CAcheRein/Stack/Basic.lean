import CAcheRein.Lifo.Matching

/-!
# The word stack

The stack of `module4-data-structures/ex01-stack`: `top` is the index of the newest word, -1 when
there is none.  An access to `data` outside its bounds makes a call fail.  `stack_init` leaves
`data` as it finds it.
-/

namespace CAcheRein

/-- `STACK_SIZE`. -/
def stackSize : ℕ := 8

/-- `stack_t`. -/
structure Stack where
  data : Vector UInt32 stackSize
  /-- Index of the top element, -1 if empty. -/
  top : Int32
  deriving DecidableEq

namespace Stack

/-- `stack_init`. -/
def init (s : Stack) : Stack := { s with top := -1 }

/-- `stack_is_empty`. -/
def isEmpty (s : Stack) : Bool := s.top == -1

/-- `stack_is_full`. -/
def isFull (s : Stack) : Bool := s.top == Int32.ofNat stackSize - 1

/-- The cell of `data` an index names, if there is one. -/
def cell (i : Int32) : Option (Fin stackSize) :=
  if h : i.toInt.toNat < stackSize then
    if 0 ≤ i.toInt then some ⟨i.toInt.toNat, h⟩ else none
  else none

/-- `stack_push`: the return code and the stack after the call. -/
def push (s : Stack) (value : UInt32) : Option (Int × Stack) :=
  if s.isFull then some (-1, s)
  else do
    let i ← cell (s.top + 1)
    some (0, { s with data := s.data.set i value, top := s.top + 1 })

/-- `stack_pop`: the return code, the stack and `*value` after the call. -/
def pop (s : Stack) (value : UInt32) : Option (Int × Stack × UInt32) :=
  if s.isEmpty then some (-1, s, value)
  else do
    let i ← cell s.top
    some (0, { s with top := s.top - 1 }, s.data[i])

/-- `stack_peek`: the return code, the stack and `*value` after the call. -/
def peek (s : Stack) (value : UInt32) : Option (Int × Stack × UInt32) :=
  if s.isEmpty then some (-1, s, value)
  else do
    let i ← cell s.top
    some (0, s, s.data[i])

/-- A call on the stack: its answer and the stack after it, unchanged if the call fails. -/
def call (s : Stack) : LifoCall UInt32 → LifoReply UInt32 × Stack
  | .push v => match s.push v with
    | some (ret, s') => (.code ret, s')
    | none => (.fault, s)
  | .pop v => match s.pop v with
    | some (ret, s', v') => (.value ret v', s')
    | none => (.fault, s)
  | .peek v => match s.peek v with
    | some (ret, s', v') => (.value ret v', s')
    | none => (.fault, s)

/-- The stack as a machine, started by `stack_init` on whatever the memory held. -/
def machine (memory : Stack) : Machine Stack (LifoCall UInt32) (LifoReply UInt32) where
  init := memory.init
  next s c := (s.call c).2
  out s c := (s.call c).1

/-- The stack holds `items`, the newest first: they are in the cells up to `top`. -/
structure Holds (s : Stack) (items : List UInt32) : Prop where
  length_le : items.length ≤ stackSize
  top_eq : s.top.toInt = items.length - 1
  data_eq : s.data.toList.take items.length = items.reverse

end Stack

end CAcheRein
