import CAcheRein.Cbuf.Refinement
import CAcheRein.Fifo.Overrun
import CAcheRein.Text.Template

/-!
# What the production buffer does, full or not

`Cbuf.matches_iff_never_full` ends where the queue fills up.  This file says what the calls answer
on every run.  An `Overrun` is the list of all bytes pushed since the last flush and the number of
bytes popped from it; nothing is ever taken off the list.  The buffer answers as `Overrun.call`
does: single pushes are always accepted, a bulk call sees the distance between the two only modulo
`CBUF_SIZE`, and what a pop delivers is the newest byte of the list in the cell that is due
(`newest`), which is the next byte only as long as at most `CBUF_SIZE` bytes are unread.  What
`cbuf_print` prints of the buffer is `Overrun.report`, where `CBUF_SIZE` unread bytes are none.

## Main results

* `Cbuf.matches_overrun` : **every run of the buffer is a run of `Overrun`**, whatever the calls.
-/

namespace CAcheRein

open Text

/-- What `cbuf_print` prints of a byte. -/
def printedByte (b : UInt8) : List Char := "[0x".toList ++ hexByte b ++ "]".toList

/-- The line of `cbuf_print` around what its loop prints. -/
def printedLine (head tail count free : ℕ) (listed : List Char) (isEmpty : Bool) : List Char :=
  "head=".toList ++ digits head ++ " tail=".toList ++ digits tail ++ " count=".toList ++
    digits count ++ " free=".toList ++ digits free ++ " | ".toList ++ listed ++
    (if isEmpty then "empty".toList else []) ++ "\n".toList

/-- The bytes pushed into a buffer since the last flush, and how many were popped. -/
structure Overrun where
  pushed : List UInt8
  popped : ℕ
  /-- No byte is popped before it is pushed. -/
  popped_le : popped ≤ pushed.length

namespace Overrun

/-- Nothing pushed, nothing popped. -/
def empty : Overrun := ⟨[], 0, Nat.zero_le _⟩

/-- The bytes pushed and not popped. -/
def lag (o : Overrun) : ℕ := o.pushed.length - o.popped

/-- What the cell of the `i`-th byte due holds, in a ring of `cap` cells. -/
def due (o : Overrun) (cap i : ℕ) : UInt8 :=
  o.pushed.getD (newest cap o.pushed.length (o.popped + i)) 0

/-- The next `n` bytes, as the cells due hold them. -/
def front (o : Overrun) (cap n : ℕ) : List UInt8 := (List.range n).map (o.due cap)

/-- `bs` written behind what was pushed. -/
def write (o : Overrun) (bs : List UInt8) : Overrun where
  pushed := o.pushed ++ bs
  popped := o.popped
  popped_le := by
    rw [List.length_append]
    exact o.popped_le.trans (Nat.le_add_right _ _)

/-- The next `n` bytes read. -/
def read (o : Overrun) (n : ℕ) : Overrun where
  pushed := o.pushed
  popped := min (o.popped + n) o.pushed.length
  popped_le := min_le_right _ _

/-- The answer to a call and what it leaves, with indices of 32 bits. -/
def call (cap : ℕ) (o : Overrun) : CbufCall → CbufReply × Overrun
  | .push b => (.code cbufOk, o.write [b])
  | .pop b =>
    if o.lag % 2 ^ 32 = 0 then (.byte cbufEmpty b, o)
    else (.byte cbufOk (o.due cap 0), o.read 1)
  | .pushBuf buf len =>
    if cap - o.lag % cap < len.toNat then (.code cbufFull, o)
    else (.code cbufOk, o.write (bufBytes buf len))
  | .popBuf buf len =>
    if o.lag % cap < len.toNat then (.bytes cbufEmpty buf, o)
    else (.bytes cbufOk (overlay buf 0 (o.front cap len.toNat)), o.read len.toNat)
  | .flush => (.done, .empty)

theorem popped_read {o : Overrun} {n : ℕ} (h : n ≤ o.lag) :
    (o.read n).popped = o.popped + n := by
  have hle := o.popped_le
  rw [lag] at h
  exact min_eq_left (by omega)

theorem lag_read {o : Overrun} {n : ℕ} (h : n ≤ o.lag) : (o.read n).lag = o.lag - n := by
  rw [lag, popped_read h, lag, Nat.sub_sub]
  rfl

theorem read_read {o : Overrun} {m n : ℕ} (h : m ≤ o.lag) :
    (o.read m).read n = o.read (m + n) := by
  have hp := popped_read h
  simp only [read] at hp ⊢
  rw [mk.injEq, hp, Nat.add_assoc]
  exact ⟨rfl, rfl⟩

theorem due_read {o : Overrun} {n : ℕ} (h : n ≤ o.lag) (cap i : ℕ) :
    (o.read n).due cap i = o.due cap (n + i) := by
  rw [due, popped_read h, Nat.add_assoc]
  rfl

theorem front_succ {o : Overrun} (h : 1 ≤ o.lag) (cap n : ℕ) :
    o.front cap (n + 1) = o.due cap 0 :: (o.read 1).front cap n := by
  simp only [front, List.range_succ_eq_map, List.map_cons, List.map_map]
  refine congrArg _ (List.map_congr_left fun i _ => ?_)
  rw [Function.comp_apply, due_read h, Nat.add_comm 1]

/-- What is printed of the queue: indices of 32 bits, and no more bytes than the masked distance. -/
def report (cap : ℕ) (o : Overrun) : List Char :=
  printedLine (o.pushed.length % 2 ^ 32) (o.popped % 2 ^ 32) (o.lag % cap) (cap - o.lag % cap)
    ((o.front cap (o.lag % cap)).flatMap printedByte) (o.lag % 2 ^ 32 = 0)

end Overrun

/-- The overrunning queue as a machine. -/
def overrunMachine (cap : ℕ) : Machine Overrun CbufCall CbufReply where
  init := .empty
  next o c := (o.call cap c).2
  out o c := (o.call cap c).1

namespace Cbuf

variable {k : Fin 32} {cb : Cbuf k} {o : Overrun}

/-- The loop of `cbuf_print` from index `i` on, with `n` iterations left. -/
def printLoop (cb : Cbuf k) (i : UInt32) : ℕ → List Char
  | 0 => []
  | n + 1 => printedByte cb.data[((cb.tail + i) &&& cbufMask k).toNat]! ++ printLoop cb (i + 1) n

/-- `cbuf_print`. -/
def print (cb : Cbuf k) : List Char :=
  printedLine cb.head.toNat cb.tail.toNat cb.count.toNat cb.free.toNat
    (cb.printLoop 0 cb.count.toNat) cb.isEmpty

/-- The indices count the bytes pushed and popped, and the cells hold the newest bytes. -/
structure Follows (cb : Cbuf k) (o : Overrun) : Prop where
  head : cb.head = UInt32.ofNat o.pushed.length
  tail : cb.tail = UInt32.ofNat o.popped
  cells : KeepsNewest (cells cb.data) (2 ^ k.val) o.pushed

/-- The four observers, and what `cbuf_print` prints. -/
structure Observes (cb : Cbuf k) (o : Overrun) : Prop where
  print : cb.print = o.report (2 ^ k.val)
  count : cb.count.toNat = o.lag % 2 ^ k.val
  free : cb.free.toNat = 2 ^ k.val - o.lag % 2 ^ k.val
  isEmpty : cb.isEmpty = true ↔ o.lag % 2 ^ 32 = 0
  isFull : cb.isFull = false

theorem follows_init (k : Fin 32) : (init : Cbuf k).Follows .empty :=
  ⟨rfl, rfl, keepsNewest_nil _ _⟩

namespace Follows

theorem unread (h : cb.Follows o) : cb.unread = o.lag % 2 ^ 32 := by
  have hsub : UInt32.ofNat o.pushed.length - UInt32.ofNat o.popped = UInt32.ofNat o.lag := by
    rw [Overrun.lag, UInt32.ofNat_sub o.popped_le]
  rw [Cbuf.unread, h.head, h.tail, hsub, UInt32.toNat_ofNat']

theorem unread_mod (h : cb.Follows o) : cb.unread % 2 ^ k.val = o.lag % 2 ^ k.val := by
  rw [h.unread, Nat.mod_mod_of_dvd _ (two_pow_dvd k)]

/-- The byte in the cell of a byte that is still due. -/
theorem cell (h : cb.Follows o) {i : ℕ} (hi : i < o.lag) :
    CAcheRein.cells cb.data ((cb.tail.toNat + i) % 2 ^ k.val) = o.due (2 ^ k.val) i := by
  have hlt : o.popped + i < o.pushed.length := by
    rw [Overrun.lag] at hi
    omega
  have hmod : (cb.tail.toNat + i) % 2 ^ k.val = (o.popped + i) % 2 ^ k.val := by
    rw [h.tail, UInt32.toNat_ofNat', Nat.add_mod, Nat.mod_mod_of_dvd _ (two_pow_dvd k),
      ← Nat.add_mod]
  rw [hmod, h.cells.eq_newest (Nat.two_pow_pos _) hlt 0, Overrun.due]

theorem front_eq_due (h : cb.Follows o) (hne : 0 < o.lag) : cb.front = o.due (2 ^ k.val) 0 := by
  rw [front_eq, ← h.cell hne, Nat.add_zero]

/-- The loop of `cbuf_print` lists the bytes due. -/
theorem printLoop (h : cb.Follows o) (n : ℕ) {i : ℕ} (hn : i + n ≤ o.lag) :
    cb.printLoop (UInt32.ofNat i) n =
      ((List.range n).map fun j => o.due (2 ^ k.val) (i + j)).flatMap printedByte := by
  induction n generalizing i with
  | zero => rfl
  | succ n ih =>
    have hbyte : cb.data[((cb.tail + UInt32.ofNat i) &&& cbufMask k).toNat]! =
        o.due (2 ^ k.val) i := by
      rw [← h.cell (by omega), toNat_and_cbufMask, toNat_add_mod, UInt32.toNat_ofNat',
        Nat.add_mod, Nat.mod_mod_of_dvd _ (two_pow_dvd k), ← Nat.add_mod]
      rfl
    have hrest := ih (i := i + 1) (by omega)
    have hlist : (List.range (n + 1)).map (fun j => o.due (2 ^ k.val) (i + j)) =
        o.due (2 ^ k.val) i ::
          (List.range n).map fun j => o.due (2 ^ k.val) (i + 1 + j) := by
      simp [List.range_succ_eq_map, Function.comp_def, Nat.add_assoc, Nat.add_comm 1]
    rw [UInt32.ofNat_add] at hrest
    rw [Cbuf.printLoop, hbyte, hlist, List.flatMap_cons]
    exact congrArg _ hrest

theorem count (h : cb.Follows o) : cb.count.toNat = o.lag % 2 ^ k.val := by
  rw [toNat_count, h.unread_mod]

/-- **What `cbuf_print` prints.** -/
theorem print (h : cb.Follows o) : cb.print = o.report (2 ^ k.val) := by
  have hle : 0 + o.lag % 2 ^ k.val ≤ o.lag := (Nat.zero_add _).trans_le (Nat.mod_le _ _)
  have hloop : cb.printLoop 0 (o.lag % 2 ^ k.val) =
      (o.front (2 ^ k.val) (o.lag % 2 ^ k.val)).flatMap printedByte := by
    have hfrom := h.printLoop (o.lag % 2 ^ k.val) hle
    simp only [Nat.zero_add] at hfrom
    exact hfrom
  have hhead : cb.head.toNat = o.pushed.length % 2 ^ 32 := by rw [h.head, UInt32.toNat_ofNat']
  have htail : cb.tail.toNat = o.popped % 2 ^ 32 := by rw [h.tail, UInt32.toNat_ofNat']
  have hfree : cb.free.toNat = 2 ^ k.val - o.lag % 2 ^ k.val := by rw [toNat_free, h.unread_mod]
  have hempty : cb.isEmpty = decide (o.lag % 2 ^ 32 = 0) := by
    rw [Bool.eq_iff_iff, isEmpty_iff, h.unread, decide_eq_true_iff]
  rw [Cbuf.print, Overrun.report, hhead, htail, h.count, hfree, hempty, hloop]

theorem observes (h : cb.Follows o) : cb.Observes o := by
  refine ⟨h.print, h.count, ?_, ?_, cb.isFull_eq_false⟩
  · rw [toNat_free, h.unread_mod]
  · rw [isEmpty_iff, h.unread]

/-! ### Moving one byte -/

theorem pushed (h : cb.Follows o) (b : UInt8) : (cb.pushed b).Follows (o.write [b]) := by
  refine ⟨?_, h.tail, ?_⟩
  · rw [Cbuf.pushed, h.head, Overrun.write, List.length_append, UInt32.ofNat_add]
    rfl
  · have hhead : cb.head.toNat % 2 ^ k.val = o.pushed.length % 2 ^ k.val := by
      rw [h.head, UInt32.toNat_ofNat', Nat.mod_mod_of_dvd _ (two_pow_dvd k)]
    rw [Cbuf.pushed, toNat_and_cbufMask, cells_set! _ (Nat.mod_lt _ (Nat.two_pow_pos _)), hhead]
    exact h.cells.update b

theorem popped (h : cb.Follows o) (hne : 0 < o.lag) : cb.popped.Follows (o.read 1) := by
  refine ⟨h.head, ?_, h.cells⟩
  rw [Cbuf.popped, h.tail, Overrun.popped_read hne, UInt32.ofNat_add]
  rfl

/-! ### The loops of the bulk calls -/

/-- The loop of `cbuf_push_buf` writes its bytes, overwriting what is in the way. -/
theorem pushLoop (buf : ℕ → UInt8) (n : ℕ) :
    ∀ {cb : Cbuf k} {o : Overrun}, cb.Follows o → ∀ i,
      (cb.pushLoop buf i n).Follows (o.write ((List.range n).map fun j => buf (i + j))) := by
  induction n with
  | zero =>
    intro cb o h i
    refine ⟨?_, h.tail, ?_⟩ <;> simp only [Overrun.write, List.range_zero, List.map_nil,
      List.append_nil]
    · exact h.head
    · exact h.cells
  | succ n ih =>
    intro cb o h i
    have hlist : (List.range (n + 1)).map (fun j => buf (i + j)) =
        buf i :: (List.range n).map fun j => buf (i + 1 + j) := by
      simp [List.range_succ_eq_map, Function.comp_def, Nat.add_assoc, Nat.add_comm 1]
    have hwrite : ∀ bs, o.write (buf i :: bs) = (o.write [buf i]).write bs := by
      intro bs
      simp [Overrun.write]
    rw [Cbuf.pushLoop, push_eq, hlist, hwrite]
    exact ih (h.pushed _) _

/-- The loop of `cbuf_pop_buf` reads the bytes due, as long as the masked count covers them. -/
theorem popLoop (n : ℕ) :
    ∀ {cb : Cbuf k} {o : Overrun}, cb.Follows o → n ≤ o.lag % 2 ^ k.val →
      ∀ (buf : ℕ → UInt8) (i : ℕ), (cb.popLoop buf i n).1.Follows (o.read n) ∧
        (cb.popLoop buf i n).2 = overlay buf i (o.front (2 ^ k.val) n) := by
  induction n with
  | zero =>
    intro cb o h _ buf i
    have hread : o.read 0 = o := by simp [Overrun.read, o.popped_le]
    rw [hread]
    exact ⟨h, (overlay_nil buf i).symm⟩
  | succ n ih =>
    intro cb o h hle buf i
    have hlag : o.lag % 2 ^ k.val ≤ o.lag := Nat.mod_le _ _
    have hne : cb.unread ≠ 0 := by
      intro h0
      have hmod := h.unread_mod
      rw [h0, Nat.zero_mod] at hmod
      omega
    -- one byte less is due, and the masked count has gone down with it
    have hmod : (o.read 1).lag % 2 ^ k.val = o.lag % 2 ^ k.val - 1 := by
      rw [Overrun.lag_read (by omega)]
      have hdiv := Nat.div_add_mod o.lag (2 ^ k.val)
      have hlt : o.lag % 2 ^ k.val < 2 ^ k.val := Nat.mod_lt _ (Nat.two_pow_pos _)
      have hsub : o.lag - 1 = 2 ^ k.val * (o.lag / 2 ^ k.val) + (o.lag % 2 ^ k.val - 1) := by
        omega
      rw [hsub, Nat.mul_add_mod, Nat.mod_eq_of_lt (by omega)]
    obtain ⟨hF, hbuf⟩ := ih (h.popped (by omega)) (by omega) (Function.update buf i cb.front)
      (i + 1)
    rw [Overrun.read_read (by omega), Nat.add_comm 1 n] at hF
    rw [Cbuf.popLoop, pop_of_unread_ne_zero hne, Overrun.front_succ (by omega), overlay_cons,
      ← h.front_eq_due (by omega)]
    exact ⟨hF, hbuf⟩

/-! ### One call -/

/-- **One call**, whatever the buffer holds. -/
theorem call (h : cb.Follows o) (c : CbufCall) :
    (cb.call c).1 = (o.call (2 ^ k.val) c).1 ∧
      (cb.call c).2.Follows (o.call (2 ^ k.val) c).2 := by
  cases c with
  | push b =>
    simp only [Cbuf.call, push_eq, Overrun.call, true_and]
    exact h.pushed b
  | pop b =>
    have hu := h.unread
    by_cases h0 : o.lag % 2 ^ 32 = 0
    · simp only [Cbuf.call, pop_of_unread_eq_zero (hu.trans h0), Overrun.call, if_pos h0, true_and]
      exact h
    · have hne : cb.unread ≠ 0 := fun h' => h0 (hu.symm.trans h')
      have hpos : 0 < o.lag := Nat.pos_of_ne_zero fun h' => h0 (by rw [h', Nat.zero_mod])
      simp only [Cbuf.call, pop_of_unread_ne_zero hne, Overrun.call, if_neg h0,
        h.front_eq_due hpos, true_and]
      exact h.popped hpos
  | pushBuf buf len =>
    have hiff : cb.free < len ↔ 2 ^ k.val - o.lag % 2 ^ k.val < len.toNat := by
      rw [UInt32.lt_iff_toNat_lt, h.observes.free]
    by_cases hlt : cb.free < len
    · simp only [Cbuf.call, pushBuf, if_pos hlt, Overrun.call, if_pos (hiff.1 hlt), true_and]
      exact h
    · have hloop := Follows.pushLoop buf len.toNat h 0
      simp only [Nat.zero_add] at hloop
      simp only [Cbuf.call, pushBuf, if_neg hlt, Overrun.call, if_neg (mt hiff.2 hlt), true_and]
      exact hloop
  | popBuf buf len =>
    have hiff : cb.count < len ↔ o.lag % 2 ^ k.val < len.toNat := by
      rw [UInt32.lt_iff_toNat_lt, h.observes.count]
    by_cases hlt : cb.count < len
    · simp only [Cbuf.call, popBuf, if_pos hlt, Overrun.call, if_pos (hiff.1 hlt), true_and]
      exact h
    · obtain ⟨hF, hbuf⟩ := Follows.popLoop len.toNat h
        (Nat.not_lt.1 (mt hiff.2 hlt)) buf 0
      simp only [Cbuf.call, popBuf, if_neg hlt, Overrun.call, if_neg (mt hiff.2 hlt), hbuf,
        true_and]
      exact hF
  | flush => exact ⟨rfl, rfl, rfl, keepsNewest_nil _ _⟩

end Follows

/-- **What the buffer does on every run.**  For every sequence of calls, also past the point
where the ring is full: all answers are those of the overrunning queue, and after every prefix
the observers, and what `cbuf_print` prints, are what it says. -/
theorem matches_overrun (k : Fin 32) (calls : List CbufCall) :
    (machine k).Matches (overrunMachine (2 ^ k.val)) Observes calls := by
  obtain ⟨hout, hF⟩ := Machine.simulation (M := machine k) (N := overrunMachine (2 ^ k.val))
    (R := Follows) (follows_init k) (fun _ _ c h => h.call c) calls
  exact ⟨hout, fun p hp => (hF p hp).observes⟩

/-- Sixteen unread bytes in a buffer of sixteen are not listed. -/
example : ((machine 4).run ((List.range 16).map fun i => .push (UInt8.ofNat i))).print =
    "head=16 tail=0 count=0 free=16 | \n".toList := by
  decide +kernel

end Cbuf

end CAcheRein
