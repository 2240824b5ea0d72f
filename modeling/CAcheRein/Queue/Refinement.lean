import CAcheRein.CircBuf.Equivalence
import CAcheRein.Queue.Basic

/-!
# The counting rings are bounded FIFOs

The word queue writes at `tail` and reads at `head`, the learning buffer writes at `head` and
reads at `tail`.  Both are a bounded FIFO behind return codes, on every sequence of calls:
`counting_rings_refine`.  Every operation of either is an instance of `RingHolds`, so the
two proofs are the same up to the names of the fields.
-/

namespace CAcheRein

/-! ### The word queue -/

namespace Queue

/-- A call on the queue: its answer and the queue after it. -/
def call (q : Queue) : FifoCall UInt32 → FifoReply UInt32 × Queue
  | .insert v => let r := q.enqueue v; (.code r.1, r.2)
  | .remove v => let r := q.dequeue v; (.value r.1 r.2.2, r.2.1)
  | .peek v => let r := q.peek v; (.value r.1 r.2.2, r.2.1)

/-- The queue as a machine, started by `queue_init` on whatever the memory held. -/
def machine (memory : Queue) : Machine Queue (FifoCall UInt32) (FifoReply UInt32) where
  init := memory.init
  next q c := (q.call c).2
  out q c := (q.call c).1

/-- What an observer of the queue `q` sees of the abstract queue `f`: the words `queue_print`
prints, the indices and the counter, and which calls are refused without any effect. -/
structure Shows (q : Queue) (f : Fifo UInt32 queueSize) : Prop where
  words : q.print.words = f.items
  head_lt : q.head < 8
  tail_lt : q.tail < 8
  count_le : q.count ≤ 8
  tail_eq : q.tail = (q.head + q.count) % 8
  enqueue_refused : ∀ v, (q.enqueue v).1 = -1 ↔ f.length = 8
  enqueue_frame : ∀ v, (q.enqueue v).1 = -1 → (q.enqueue v).2 = q
  dequeue_refused : ∀ v, (q.dequeue v).1 = -1 ↔ f.length = 0
  dequeue_frame : ∀ v, (q.dequeue v).1 = -1 → (q.dequeue v).2 = (q, v)
  peek_eq : ∀ v, q.peek v = ((q.dequeue v).1, q, (q.dequeue v).2.2)

variable {q : Queue} {f : Fifo UInt32 queueSize}

/-- `queue_enqueue` and `queue_dequeue` implement the bounded queue. -/
theorem fifoSpec : FifoSpec queueSize Holds enqueue dequeue where
  insert_full h hlen v := h.enqueue_full hlen v
  insert_room h hlen v := h.enqueue hlen v
  remove_nil h v := h.dequeue_nil v
  remove_cons h v := h.dequeue_cons v

theorem shows_of_holds (h : q.Holds f.items) : q.Shows f := by
  refine ⟨h.print, ?_, ?_, ?_, ?_, ?_, ?_, ?_, ?_, q.peek_eq⟩
  · exact UInt32.lt_iff_toNat_lt.2 (RingHolds.read_lt h)
  · exact UInt32.lt_iff_toNat_lt.2 (RingHolds.write_lt h)
  · exact UInt32.le_iff_toNat_le.2 (RingHolds.count_le h)
  · exact RingHolds.write_eq_word (by decide) h
  · exact fun v => fifoSpec.insert_refused_iff h v
  · exact fun _ hret => fifoSpec.insert_frame h hret
  · exact fun v => fifoSpec.remove_refused_iff h v
  · exact fun _ hret => fifoSpec.remove_frame h hret

/-- One call is answered like the abstract queue answers it, and keeps the words held. -/
theorem Holds.call (h : q.Holds f.items) (c : FifoCall UInt32) :
    (q.call c).1 = (f.answer c).1 ∧ (q.call c).2.Holds (f.answer c).2.items := by
  cases c with
  | insert v => exact fifoSpec.insert_answer h v
  | remove v => exact fifoSpec.remove_answer h v
  | peek v =>
    rw [Queue.call, q.peek_eq, f.answer_peek]
    exact ⟨(fifoSpec.remove_answer h v).1, h⟩

/-- The word queue matches the bounded FIFO of capacity 8 on every sequence of calls. -/
theorem matches_fifo (memory : Queue) (calls : List (FifoCall UInt32)) :
    (machine memory).Matches (Fifo.machine UInt32 queueSize) Shows calls := by
  obtain ⟨hout, hholds⟩ := Machine.simulation (M := machine memory)
    (N := Fifo.machine UInt32 queueSize) (R := fun q f => q.Holds f.items)
    (holds_init memory) (fun _ _ c h => h.call c) calls
  exact ⟨hout, fun p hp => shows_of_holds (hholds p hp)⟩

end Queue

/-! ### The learning buffer -/

/-- The calls of the learning buffer, as calls on a queue. -/
def RingCall.toFifo : RingCall → FifoCall UInt8
  | .push b => .insert b
  | .pop b => .remove b

namespace CircBuf

/-- `BUFFER_SIZE` as the source has it. -/
def learningSize : ℕ := 8

/-- A call on the buffer: its answer and the buffer after it. -/
def call (cb : CircBuf learningSize) : RingCall → FifoReply UInt8 × CircBuf learningSize
  | .push b => let r := cb.push b; (.code r.1, r.2)
  | .pop b => let r := cb.pop b; (.value r.1 r.2.2, r.2.1)

/-- The buffer as a machine that answers with return codes. -/
def codeMachine : Machine (CircBuf learningSize) RingCall (FifoReply UInt8) where
  init := init
  next cb c := (cb.call c).2
  out cb c := (cb.call c).1

/-- The buffer holds `items`. -/
def Holds (cb : CircBuf learningSize) (items : List UInt8) : Prop :=
  RingHolds (cells cb.data) learningSize cb.tail.toNat cb.head.toNat cb.count.toNat items

/-- What an observer of the buffer `cb` sees of the abstract queue `f`: the indices and the
counter, and which calls are refused without any effect. -/
structure Shows (cb : CircBuf learningSize) (f : Fifo UInt8 learningSize) : Prop where
  contents : cb.Holds f.items
  head_lt : cb.head < 8
  tail_lt : cb.tail < 8
  count_le : cb.count ≤ 8
  head_eq : cb.head = (cb.tail + cb.count) % 8
  push_refused : ∀ b, (cb.push b).1 = -1 ↔ f.length = 8
  push_frame : ∀ b, (cb.push b).1 = -1 → (cb.push b).2 = cb
  pop_refused : ∀ b, (cb.pop b).1 = -1 ↔ f.length = 0
  pop_frame : ∀ b, (cb.pop b).1 = -1 → (cb.pop b).2 = (cb, b)

variable {cb : CircBuf learningSize} {f : Fifo UInt8 learningSize}

/-- `cbuf_push` and `cbuf_pop` implement the bounded queue. -/
theorem fifoSpec : FifoSpec learningSize Holds push pop where
  insert_full h hlen b := if_pos ((RingHolds.count_beq_size (by decide) h).2 hlen)
  insert_room {cb _} h hlen b := by
    have hfull : ¬ cb.isFull = true := mt (RingHolds.count_beq_size (by decide) h).1 hlen
    rw [push, if_neg hfull]
    exact ⟨rfl, RingHolds.insert_word (by decide) h hlen b⟩
  remove_nil h b := if_pos ((RingHolds.count_beq_zero h).2 rfl)
  remove_cons {cb a items} h b := by
    have hempty : ¬ cb.isEmpty = true :=
      mt (RingHolds.count_beq_zero h).1 (List.cons_ne_nil a items)
    obtain ⟨hfront, hrest⟩ := RingHolds.remove_word (by decide) h
    rw [pop, if_neg hempty]
    exact ⟨rfl, hfront, hrest⟩

theorem shows_of_holds (h : cb.Holds f.items) : cb.Shows f := by
  refine ⟨h, ?_, ?_, ?_, ?_, ?_, ?_, ?_, ?_⟩
  · exact UInt32.lt_iff_toNat_lt.2 (RingHolds.write_lt h)
  · exact UInt32.lt_iff_toNat_lt.2 (RingHolds.read_lt h)
  · exact UInt32.le_iff_toNat_le.2 (RingHolds.count_le h)
  · exact RingHolds.write_eq_word (by decide) h
  · exact fun b => fifoSpec.insert_refused_iff h b
  · exact fun _ hret => fifoSpec.insert_frame h hret
  · exact fun b => fifoSpec.remove_refused_iff h b
  · exact fun _ hret => fifoSpec.remove_frame h hret

/-- One call is answered like the abstract queue answers it, and keeps the bytes held. -/
theorem Holds.call (h : cb.Holds f.items) (c : RingCall) :
    (cb.call c).1 = (f.answer c.toFifo).1 ∧ (cb.call c).2.Holds (f.answer c.toFifo).2.items := by
  cases c with
  | push b => exact fifoSpec.insert_answer h b
  | pop b => exact fifoSpec.remove_answer h b

/-- The learning buffer matches the bounded FIFO of capacity 8 on every sequence of calls. -/
theorem matches_fifo (calls : List RingCall) :
    codeMachine.Matches ((Fifo.machine UInt8 learningSize).comap RingCall.toFifo) Shows calls := by
  obtain ⟨hout, hholds⟩ := Machine.simulation (M := codeMachine)
    (N := (Fifo.machine UInt8 learningSize).comap RingCall.toFifo)
    (R := fun cb f => cb.Holds f.items)
    (RingHolds.empty _ (by decide)) (fun _ _ c h => h.call c) calls
  exact ⟨hout, fun p hp => shows_of_holds (hholds p hp)⟩

end CircBuf

/-- **Both counting rings are the bounded FIFO of capacity 8.**  On every sequence of calls from
`queue_init`, respectively `cbuf_init`, every call returns what the abstract queue returns, and
after every call the ring shows the abstract queue: the words printed, oldest first, the indices
below 8 with the write index `count` behind the read index, and calls that are refused, without
any effect, exactly when 8 elements, respectively none, are held. -/
theorem counting_rings_refine :
    (∀ (memory : Queue) (calls : List (FifoCall UInt32)),
      (Queue.machine memory).Matches (Fifo.machine UInt32 8) Queue.Shows calls) ∧
    ∀ calls : List RingCall,
      CircBuf.codeMachine.Matches ((Fifo.machine UInt8 8).comap RingCall.toFifo) CircBuf.Shows
        calls :=
  ⟨Queue.matches_fifo, CircBuf.matches_fifo⟩

end CAcheRein
