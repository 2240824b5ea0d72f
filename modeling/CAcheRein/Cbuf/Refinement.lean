import CAcheRein.Cbuf.Basic
import CAcheRein.Fifo.Bounded
import CAcheRein.Transition.Machine

/-!
# The production buffer against a bounded FIFO

The calls of the buffer's interface run as a `Machine` (`Cbuf.machine`), next to the machine of a
bounded FIFO that answers the same calls the way the return codes promise (`fifoMachine`).

`Cbuf.matches_iff_never_full` : the two match on a sequence of calls exactly when the FIFO is
never full along it.  As `Cbuf.isFull_eq_false` says, the buffer cannot tell `CBUF_SIZE` unread
bytes from none: from the first call that fills the FIFO on, its count is wrong, and the next
push overwrites the oldest unread byte.
-/

namespace CAcheRein

/-- A call of the buffer's interface, with what the caller's memory holds before it. -/
inductive CbufCall where
  | push (byte : UInt8)
  | pop (byte : UInt8)
  | pushBuf (buf : ℕ → UInt8) (len : UInt32)
  | popBuf (buf : ℕ → UInt8) (len : UInt32)
  | flush

/-- The answer to a call: its return code and what the caller's memory holds after it. -/
inductive CbufReply where
  | code (ret : Int)
  | byte (ret : Int) (byte : UInt8)
  | bytes (ret : Int) (buf : ℕ → UInt8)
  | done

/-- The bytes a caller passes as `buf` and `len`. -/
def bufBytes (buf : ℕ → UInt8) (len : UInt32) : List UInt8 := (List.range len.toNat).map buf

/-- The memory `buf` with the bytes `bs` stored from index `i` on. -/
def overlay (buf : ℕ → UInt8) (i : ℕ) (bs : List UInt8) : ℕ → UInt8 :=
  fun j => if j < i then buf j else bs.getD (j - i) (buf j)

@[simp] theorem overlay_nil (buf : ℕ → UInt8) (i : ℕ) : overlay buf i [] = buf := by
  funext j
  simp [overlay]

theorem overlay_cons (buf : ℕ → UInt8) (i : ℕ) (b : UInt8) (bs : List UInt8) :
    overlay buf i (b :: bs) = overlay (Function.update buf i b) (i + 1) bs := by
  funext j
  simp only [overlay]
  rcases Nat.lt_trichotomy j i with hj | rfl | hj
  · rw [if_pos hj, if_pos (by omega), Function.update_of_ne (by omega)]
  · rw [if_neg (lt_irrefl j), if_pos (Nat.lt_succ_self j), Nat.sub_self, Function.update_self,
      List.getD_cons_zero]
  · have hsub : j - i = j - (i + 1) + 1 := by omega
    rw [if_neg (by omega), if_neg (by omega), hsub, List.getD_cons_succ,
      Function.update_of_ne (by omega)]

/-! ### The abstract queue behind the interface -/

namespace Fifo

variable {cap : ℕ}

/-- What the interface promises of a queue: the answer to a call and the queue after it. -/
def call (q : Fifo UInt8 cap) : CbufCall → CbufReply × Fifo UInt8 cap
  | .push b =>
    match q.push b with
    | some q' => (.code cbufOk, q')
    | none => (.code cbufFull, q)
  | .pop b =>
    match q.pop with
    | some (a, q') => (.byte cbufOk a, q')
    | none => (.byte cbufEmpty b, q)
  | .pushBuf buf len =>
    match q.pushAll (bufBytes buf len) with
    | some q' => (.code cbufOk, q')
    | none => (.code cbufFull, q)
  | .popBuf buf len =>
    match q.popN len.toNat with
    | some (bs, q') => (.bytes cbufOk (overlay buf 0 bs), q')
    | none => (.bytes cbufEmpty buf, q)
  | .flush => (.done, .empty)

end Fifo

/-- The bounded FIFO as a machine. -/
def fifoMachine (cap : ℕ) : Machine (Fifo UInt8 cap) CbufCall CbufReply where
  init := .empty
  next q c := (q.call c).2
  out q c := (q.call c).1

namespace Cbuf

variable {k : Fin 32}

/-- A call on the buffer: its answer and the buffer after it. -/
def call (cb : Cbuf k) : CbufCall → CbufReply × Cbuf k
  | .push b => let r := cb.push b; (.code r.1, r.2)
  | .pop b => let r := cb.pop b; (.byte r.1 r.2.2, r.2.1)
  | .pushBuf buf len => let r := cb.pushBuf buf len; (.code r.1, r.2)
  | .popBuf buf len => let r := cb.popBuf buf len; (.bytes r.1 r.2.2, r.2.1)
  | .flush => (.done, cb.flush)

variable (k) in
/-- The buffer as a machine. -/
def machine : Machine (Cbuf k) CbufCall CbufReply where
  init := init
  next cb c := (cb.call c).2
  out cb c := (cb.call c).1

/-- The buffer holds the bytes of `q`, and its four observers say so. -/
structure Shows (cb : Cbuf k) (q : Fifo UInt8 (2 ^ k.val)) : Prop where
  contents : cb.contents = q.items
  count : cb.count.toNat = q.length
  free : cb.free.toNat = 2 ^ k.val - q.length
  isEmpty : cb.isEmpty = true ↔ q.length = 0
  isFull : cb.isFull = true ↔ q.length = 2 ^ k.val

theorem unread_eq_length {cb : Cbuf k} {q : Fifo UInt8 (2 ^ k.val)} (h : cb.contents = q.items) :
    cb.unread = q.length := by
  rw [← length_contents, h, Fifo.length_eq]

/-- Below the capacity the contents decide the observers. -/
theorem shows_of_contents {cb : Cbuf k} {q : Fifo UInt8 (2 ^ k.val)}
    (h : cb.contents = q.items) (hlt : q.length < 2 ^ k.val) : cb.Shows q := by
  have hu := unread_eq_length h
  refine ⟨h, ?_, ?_, ?_, ?_⟩
  · rw [toNat_count, hu, Nat.mod_eq_of_lt hlt]
  · rw [toNat_free, hu, Nat.mod_eq_of_lt hlt]
  · rw [isEmpty_iff, hu]
  · rw [isFull_eq_false]
    exact iff_of_false Bool.false_ne_true hlt.ne

/-! ### The bulk loops -/

/-- The loop of `cbuf_push_buf` appends the bytes it is given room for. -/
theorem contents_pushLoop (buf : ℕ → UInt8) (n : ℕ) :
    ∀ (cb : Cbuf k) (i : ℕ), cb.unread + n ≤ 2 ^ k.val →
      (cb.pushLoop buf i n).contents = cb.contents ++ (List.range n).map fun j => buf (i + j) := by
  have hlt := two_pow_lt k
  induction n with
  | zero => intro cb i _; simp [pushLoop]
  | succ n ih =>
    intro cb i h
    rw [pushLoop, push_eq, ih _ _ (by rw [unread_pushed (by omega)]; omega),
      contents_pushed (by omega), List.range_succ_eq_map]
    simp [Function.comp_def, Nat.add_assoc, Nat.add_comm 1]

/-- The loop of `cbuf_pop_buf` delivers the oldest bytes in order, if there are enough. -/
theorem popLoop_spec (n : ℕ) :
    ∀ (cb : Cbuf k) (buf : ℕ → UInt8) (i : ℕ), n ≤ cb.unread →
      (cb.popLoop buf i n).1.contents = cb.contents.drop n ∧
        (cb.popLoop buf i n).2 = overlay buf i (cb.contents.take n) := by
  induction n with
  | zero => intro cb buf i _; simp [popLoop]
  | succ n ih =>
    intro cb buf i h
    have hne : cb.unread ≠ 0 := by omega
    have hle : n ≤ cb.popped.unread := by rw [unread_popped hne]; omega
    obtain ⟨hc, hb⟩ := ih cb.popped (Function.update buf i cb.front) (i + 1) hle
    rw [popLoop, pop_of_unread_ne_zero hne, contents_pop hne, List.drop_succ_cons,
      List.take_succ_cons, overlay_cons]
    exact ⟨hc, hb⟩

/-! ### One call -/

variable {cb : Cbuf k} {q : Fifo UInt8 (2 ^ k.val)}

theorem call_push (h : cb.contents = q.items) (hG : q.length < 2 ^ k.val) (b : UInt8) :
    (cb.call (.push b)).1 = (q.call (.push b)).1 ∧
      (cb.call (.push b)).2.contents = (q.call (.push b)).2.items := by
  simp only [call, push_eq, Fifo.call, Fifo.push_of_lt hG, true_and]
  rw [contents_pushed (by rwa [unread_eq_length h]), h]

theorem call_pop (h : cb.contents = q.items) (b : UInt8) :
    (cb.call (.pop b)).1 = (q.call (.pop b)).1 ∧
      (cb.call (.pop b)).2.contents = (q.call (.pop b)).2.items := by
  by_cases hu : cb.unread = 0
  · have hq : q.items = [] := by rw [← List.length_eq_zero_iff, ← h, length_contents, hu]
    simp only [call, pop_of_unread_eq_zero hu, Fifo.call, Fifo.pop_of_nil hq, true_and, h]
  · obtain ⟨q', hpop, hq'⟩ := Fifo.pop_of_cons (h.symm.trans (contents_pop hu))
    simp only [call, pop_of_unread_ne_zero hu, Fifo.call, hpop, hq', and_self]

theorem call_pushBuf (h : cb.contents = q.items) (hG : q.length < 2 ^ k.val) (buf : ℕ → UInt8)
    (len : UInt32) :
    (cb.call (.pushBuf buf len)).1 = (q.call (.pushBuf buf len)).1 ∧
      (cb.call (.pushBuf buf len)).2.contents = (q.call (.pushBuf buf len)).2.items := by
  have hfree := (shows_of_contents h hG).free
  have hlen : (bufBytes buf len).length = len.toNat := by simp [bufBytes]
  by_cases hfit : q.length + len.toNat ≤ 2 ^ k.val
  · have hnot : ¬ cb.free < len := by rw [UInt32.lt_iff_toNat_lt, hfree]; omega
    simp only [call, pushBuf, if_neg hnot, Fifo.call, Fifo.pushAll_of_le (hlen ▸ hfit), true_and]
    rw [contents_pushLoop buf _ _ _ (by rwa [unread_eq_length h]), h]
    simp [bufBytes]
  · have hlt : cb.free < len := by rw [UInt32.lt_iff_toNat_lt, hfree]; omega
    have hnone : q.pushAll (bufBytes buf len) = none := Fifo.pushAll_eq_none (by omega)
    simp only [call, pushBuf, if_pos hlt, Fifo.call, hnone, true_and, h]

theorem call_popBuf (h : cb.contents = q.items) (hG : q.length < 2 ^ k.val) (buf : ℕ → UInt8)
    (len : UInt32) :
    (cb.call (.popBuf buf len)).1 = (q.call (.popBuf buf len)).1 ∧
      (cb.call (.popBuf buf len)).2.contents = (q.call (.popBuf buf len)).2.items := by
  have hcount := (shows_of_contents h hG).count
  by_cases hle : len.toNat ≤ q.length
  · have hnot : ¬ cb.count < len := by rw [UInt32.lt_iff_toNat_lt, hcount]; omega
    obtain ⟨q', hpop, hq'⟩ := Fifo.popN_of_le hle
    obtain ⟨hc, hb⟩ := popLoop_spec len.toNat cb buf 0 (by rwa [unread_eq_length h])
    simp only [call, popBuf, if_neg hnot, Fifo.call, hpop, hc, hb, h, hq', and_self]
  · have hlt : cb.count < len := by rw [UInt32.lt_iff_toNat_lt, hcount]; omega
    simp only [call, popBuf, if_pos hlt, Fifo.call, Fifo.popN_eq_none (Nat.not_le.1 hle), h,
      and_self]

/-- **One call refines the FIFO** as long as the FIFO is not full before it. -/
theorem call_refines (h : cb.contents = q.items) (hG : q.length < 2 ^ k.val) (c : CbufCall) :
    (cb.call c).1 = (q.call c).1 ∧ (cb.call c).2.contents = (q.call c).2.items := by
  cases c with
  | push b => exact call_push h hG b
  | pop b => exact call_pop h b
  | pushBuf buf len => exact call_pushBuf h hG buf len
  | popBuf buf len => exact call_popBuf h hG buf len
  | flush => exact ⟨rfl, contents_flush cb⟩

/-! ### Whole runs -/

/-- **The buffer refines the bounded FIFO exactly as long as the FIFO is never full.**  For every
sequence of calls: all answers agree, and after every prefix the buffer holds the FIFO's bytes and
its observers say so, if and only if no prefix leaves `CBUF_SIZE` bytes unread. -/
theorem matches_iff_never_full (k : Fin 32) (calls : List CbufCall) :
    (machine k).Matches (fifoMachine (2 ^ k.val)) Shows calls ↔
      ∀ p, p <+: calls → ((fifoMachine (2 ^ k.val)).run p).length < 2 ^ k.val := by
  constructor
  · intro h p hp
    have hcount := (h.2 p hp).count
    rw [toNat_count] at hcount
    rw [← hcount]
    exact Nat.mod_lt _ (Nat.two_pow_pos _)
  · intro hG
    have h₀ : (machine k).init.contents = (fifoMachine (2 ^ k.val)).init.items := contents_init
    obtain ⟨hout, hcontents⟩ := Machine.simulation_of_guard
      (R := fun _ (cb : Cbuf k) (q : Fifo UInt8 (2 ^ k.val)) => cb.contents = q.items) h₀
      (fun p c h hGp _ => call_refines h hGp c) calls hG
    exact ⟨hout, fun p hp => shows_of_contents (hcontents p hp) (hG p hp)⟩

/-- Seventeen pushes into the source's buffer of sixteen bytes: after sixteen of them the buffer
does not report that it is full, so the last one is accepted too. -/
theorem not_matches_seventeen_pushes :
    ¬ (machine 4).Matches (fifoMachine 16) Shows
      ((List.range 17).map fun i => .push (UInt8.ofNat i)) := by
  intro h
  have hfull : ((fifoMachine 16).run ((List.range 16).map fun i => .push (UInt8.ofNat i))).length =
      16 := rfl
  have hisFull := (h.2 _ ⟨[.push 16], rfl⟩).isFull.2 hfull
  rw [isFull_eq_false] at hisFull
  cases hisFull

end Cbuf

end CAcheRein
