import CAcheRein.Fifo.Counted

/-!
# The word queue

The queue of `module4-data-structures/ex02-queue`: words are written at `tail` and read at `head`,
both wrapping modulo `QUEUE_SIZE`, and a third field counts the words held.  `queue_init` leaves
`data` as it finds it.
-/

namespace CAcheRein

/-- `QUEUE_SIZE`. -/
def queueSize : ℕ := 8

/-- `queue_t`. -/
structure Queue where
  data : Vector UInt32 queueSize
  /-- Read index. -/
  head : UInt32
  /-- Write index. -/
  tail : UInt32
  /-- Words currently in the queue. -/
  count : UInt32
  deriving DecidableEq

namespace Queue

/-- `queue_init`. -/
def init (q : Queue) : Queue := { q with head := 0, tail := 0, count := 0 }

/-- `queue_is_empty`. -/
def isEmpty (q : Queue) : Bool := q.count == 0

/-- `queue_is_full`. -/
def isFull (q : Queue) : Bool := q.count == UInt32.ofNat queueSize

/-- `queue_enqueue`: the return code and the queue after the call. -/
def enqueue (q : Queue) (value : UInt32) : Int × Queue :=
  if q.isFull then (-1, q)
  else
    (0, { q with
      data := q.data.set! q.tail.toNat value
      tail := (q.tail + 1) % UInt32.ofNat queueSize
      count := q.count + 1 })

/-- `queue_dequeue`: the return code, the queue and `*value` after the call. -/
def dequeue (q : Queue) (value : UInt32) : Int × Queue × UInt32 :=
  if q.isEmpty then (-1, q, value)
  else
    (0, { q with
      head := (q.head + 1) % UInt32.ofNat queueSize
      count := q.count - 1 }, q.data[q.head.toNat]!)

/-- `queue_peek`: the return code, the queue and `*value` after the call. -/
def peek (q : Queue) (value : UInt32) : Int × Queue × UInt32 :=
  if q.isEmpty then (-1, q, value)
  else (0, q, q.data[q.head.toNat]!)

/-- The loop of `queue_print` from index `i` on: the words it prints, in order. -/
def printLoop (q : Queue) (i : UInt32) : List UInt32 :=
  if i < q.count then
    q.data[((q.head + i) % UInt32.ofNat queueSize).toNat]! :: printLoop q (i + 1)
  else []
termination_by q.count.toNat - i.toNat
decreasing_by
  have hlt : i.toNat < q.count.toNat := UInt32.lt_iff_toNat_lt.1 (by assumption)
  have hsize := q.count.toNat_lt
  rw [toNat_add_one (by omega)]
  omega

/-- What `queue_print` prints: the three fields, the words and whether it adds `empty`. -/
structure Printout where
  head : UInt32
  tail : UInt32
  count : UInt32
  words : List UInt32
  empty : Bool
  deriving DecidableEq

/-- `queue_print`. -/
def print (q : Queue) : Printout where
  head := q.head
  tail := q.tail
  count := q.count
  words := q.printLoop 0
  empty := q.isEmpty

/-- The queue holds `items`. -/
def Holds (q : Queue) (items : List UInt32) : Prop :=
  RingHolds (cells q.data) queueSize q.head.toNat q.tail.toNat q.count.toNat items

variable {q : Queue} {items : List UInt32}

theorem holds_init (q : Queue) : q.init.Holds [] := RingHolds.empty _ (by decide)

theorem Holds.isEmpty_iff (h : q.Holds items) : q.isEmpty = true ↔ items = [] :=
  RingHolds.count_beq_zero h

theorem Holds.isFull_iff (h : q.Holds items) : q.isFull = true ↔ items.length = queueSize :=
  RingHolds.count_beq_size (by decide) h

/-- An enqueue is refused when the queue is full. -/
theorem Holds.enqueue_full (h : q.Holds items) (hlen : items.length = queueSize) (v : UInt32) :
    q.enqueue v = (-1, q) := if_pos (h.isFull_iff.2 hlen)

/-- An enqueue that is not refused appends. -/
theorem Holds.enqueue (h : q.Holds items) (hlen : items.length ≠ queueSize) (v : UInt32) :
    (q.enqueue v).1 = 0 ∧ (q.enqueue v).2.Holds (items ++ [v]) := by
  rw [Queue.enqueue, if_neg (mt h.isFull_iff.1 hlen)]
  exact ⟨rfl, RingHolds.insert_word (by decide) h hlen v⟩

/-- A dequeue from the empty queue is refused. -/
theorem Holds.dequeue_nil (h : q.Holds []) (v : UInt32) : q.dequeue v = (-1, q, v) :=
  if_pos (h.isEmpty_iff.2 rfl)

/-- A dequeue that is not refused delivers the oldest word and removes it. -/
theorem Holds.dequeue_cons {a : UInt32} (h : q.Holds (a :: items)) (v : UInt32) :
    (q.dequeue v).1 = 0 ∧ (q.dequeue v).2.2 = a ∧ (q.dequeue v).2.1.Holds items := by
  obtain ⟨hfront, hrest⟩ := RingHolds.remove_word (by decide) h
  rw [Queue.dequeue, if_neg (mt h.isEmpty_iff.1 (List.cons_ne_nil a items))]
  exact ⟨rfl, hfront, hrest⟩

/-- A peek answers like a dequeue and leaves the queue as it is. -/
theorem peek_eq (q : Queue) (v : UInt32) :
    q.peek v = ((q.dequeue v).1, q, (q.dequeue v).2.2) := by
  rw [peek, dequeue]
  cases q.isEmpty <;> rfl

/-- The loop of `queue_print` reads the window that is left from index `i` on. -/
theorem printLoop_eq (h : q.head.toNat < queueSize) (hc : q.count.toNat ≤ queueSize) (n : ℕ) :
    ∀ i : UInt32, i.toNat + n = q.count.toNat →
      q.printLoop i = window (cells q.data) queueSize (q.head.toNat + i.toNat) n := by
  have hsize : queueSize = 8 := rfl
  induction n with
  | zero =>
    intro i hi
    rw [printLoop, if_neg (by rw [UInt32.lt_iff_toNat_lt]; omega), window_zero]
  | succ n ih =>
    intro i hi
    have hsucc : (i + 1).toNat = i.toNat + 1 := toNat_add_one (by omega)
    have hcell : ((q.head + i) % UInt32.ofNat queueSize).toNat =
        (q.head.toNat + i.toNat) % queueSize := by
      have hsum : (q.head.toNat + i.toNat) % 2 ^ 32 = q.head.toNat + i.toNat :=
        Nat.mod_eq_of_lt (by omega)
      rw [UInt32.toNat_mod, UInt32.toNat_add, hsum]
      rfl
    rw [printLoop, if_pos (by rw [UInt32.lt_iff_toNat_lt]; omega), window_cons,
      ih (i + 1) (by omega), hsucc, hcell]
    rfl

/-- `queue_print` prints the words held, oldest first. -/
theorem Holds.print (h : q.Holds items) : q.print.words = items := by
  rw [← RingHolds.contents h]
  exact printLoop_eq (RingHolds.read_lt h) (RingHolds.count_le h) _ 0 (Nat.zero_add _)

end Queue

end CAcheRein
