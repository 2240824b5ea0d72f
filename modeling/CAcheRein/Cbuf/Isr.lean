import CAcheRein.Cbuf.Basic
import CAcheRein.Transition.System

/-!
# One interrupt handler pushing, one main loop popping

The documented use of the production buffer: `main` pops, an interrupt handler pushes.  The
handler runs a whole `cbuf_push` between any two steps of `main`; a step of `main` is one access
to `head`, `tail` or a data cell, or one local decision on values it has read.  The operands of
`head == tail` and `head - tail` are read in either order.

The handler is assumed to fire only while at least two cells are free (with the source's
`CBUF_SIZE = 16`, at most 14 bytes unread), since `cbuf_push` does not detect a full buffer.

`Isr.interleaving_safe` : in every reachable state of every interleaving, what `main` has been given
followed by what is unread is what was pushed; the cell `main` is about to read is not the one the
next push writes; and no pop inside `cbuf_pop_buf` finds the buffer empty.
-/

namespace CAcheRein

namespace Isr

/-- Where `cbuf_pop` was called from: `main` itself, or iteration `i` of the loop of
`cbuf_pop_buf`. -/
inductive Caller where
  | main
  | popBuf (i len : UInt32)

/-- The program counter of `main`, with the values it has read. -/
inductive Pc where
  /-- Between two calls. -/
  | idle
  /-- In `cbuf_count`, called by `cbuf_pop_buf`. -/
  | count (len : UInt32) (head tail : Option UInt32)
  /-- At the loop test of `cbuf_pop_buf`. -/
  | loop (i len : UInt32)
  /-- In `cbuf_is_empty`, called by `cbuf_pop`. -/
  | test (c : Caller) (head tail : Option UInt32)
  /-- The test has passed; `cb->tail` is read next. -/
  | fetch (c : Caller)
  /-- The cell at `tail & CBUF_MASK` is read next. -/
  | load (c : Caller) (tail : UInt32)
  /-- `*byte` is stored; `cb->tail` is read next, to be incremented. -/
  | bump (c : Caller) (byte : UInt8)
  /-- The incremented tail is written next. -/
  | commit (c : Caller) (byte : UInt8) (tail : UInt32)

/-- Where `main` goes on when `cbuf_pop` returns. -/
def Caller.resume : Caller → Pc
  | .main => .idle
  | .popBuf i len => .loop (i + 1) len

/-- The shared buffer, the program counter of `main`, and two logs. -/
structure State (k : Fin 32) where
  cb : Cbuf k
  pc : Pc
  /-- The bytes pushed so far. -/
  pushed : List UInt8
  /-- The bytes delivered so far: those whose tail increment is written. -/
  delivered : List UInt8

/-- What a step does. -/
inductive Label where
  /-- `main` accesses memory once, or decides on what it has read. -/
  | main
  /-- `cbuf_pop` returns to its caller. -/
  | popReturns (c : Caller) (ret : Int)
  /-- `cbuf_pop_buf` returns. -/
  | popBufReturns (ret : Int)
  /-- The handler runs `cbuf_push`. -/
  | isr (byte : UInt8)

variable {k : Fin 32}

/-- The steps of `main` and of the handler. -/
inductive Step : State k → Label → State k → Prop
  -- `main` calls what it likes, in any order
  | callPop {s} : s.pc = .idle → Step s .main { s with pc := .test .main none none }
  | callPopBuf {s} (len) : s.pc = .idle → Step s .main { s with pc := .count len none none }
  -- `cbuf_pop_buf`: `cbuf_count(cb) < len`, then the loop
  | countHead {s len t} : s.pc = .count len none t →
      Step s .main { s with pc := .count len (some s.cb.head) t }
  | countTail {s len h} : s.pc = .count len h none →
      Step s .main { s with pc := .count len h (some s.cb.tail) }
  | countLess {s len h t} : s.pc = .count len (some h) (some t) → (h - t) &&& cbufMask k < len →
      Step s (.popBufReturns cbufEmpty) { s with pc := .idle }
  | countEnough {s len h t} : s.pc = .count len (some h) (some t) →
      ¬ (h - t) &&& cbufMask k < len → Step s .main { s with pc := .loop 0 len }
  | loopBody {s i len} : s.pc = .loop i len → i < len →
      Step s .main { s with pc := .test (.popBuf i len) none none }
  | loopDone {s i len} : s.pc = .loop i len → ¬ i < len →
      Step s (.popBufReturns cbufOk) { s with pc := .idle }
  -- `cbuf_pop`: `cbuf_is_empty(cb)`, the read of the cell, `cb->tail++`
  | testHead {s c t} : s.pc = .test c none t →
      Step s .main { s with pc := .test c (some s.cb.head) t }
  | testTail {s c h} : s.pc = .test c h none →
      Step s .main { s with pc := .test c h (some s.cb.tail) }
  | testEmpty {s c h t} : s.pc = .test c (some h) (some t) → h = t →
      Step s (.popReturns c cbufEmpty) { s with pc := c.resume }
  | testNonempty {s c h t} : s.pc = .test c (some h) (some t) → h ≠ t →
      Step s .main { s with pc := .fetch c }
  | fetchTail {s c} : s.pc = .fetch c → Step s .main { s with pc := .load c s.cb.tail }
  | loadCell {s c t} : s.pc = .load c t →
      Step s .main { s with pc := .bump c s.cb.data[(t &&& cbufMask k).toNat]! }
  | bumpTail {s c b} : s.pc = .bump c b → Step s .main { s with pc := .commit c b s.cb.tail }
  | commitTail {s c b t} : s.pc = .commit c b t →
      Step s (.popReturns c cbufOk)
        { s with
          cb := { s.cb with tail := t + 1 }
          pc := c.resume
          delivered := s.delivered ++ [b] }
  -- the handler, atomic with respect to `main`
  | isr {s} (b) : s.cb.unread + 2 ≤ 2 ^ k.val →
      Step s (.isr b) { s with cb := (s.cb.push b).2, pushed := s.pushed ++ [b] }

variable (k) in
/-- The buffer after `cbuf_init`, shared by `main` and the handler. -/
def system : System (State k) Label where
  init s := s = ⟨.init, .idle, [], []⟩
  step := Step

/-! ### The invariant -/

/-- How many unread bytes the caller of `cbuf_pop` relies on. -/
def Caller.need : Caller → ℕ
  | .main => 0
  | .popBuf i len => len.toNat - i.toNat

/-- The loop calls `cbuf_pop` only while its index is below the length. -/
def Caller.Valid : Caller → Prop
  | .main => True
  | .popBuf i len => i < len

/-- A value of `head` read since the last write of `tail`, when at least `n` bytes were unread:
by now the true head may only be further ahead. -/
def ReadHead (cb : Cbuf k) (n : ℕ) (h : UInt32) : Prop :=
  n ≤ (h - cb.tail).toNat ∧ (h - cb.tail).toNat ≤ cb.unread

/-- What the values `main` has read say about the buffer. -/
def PcInv (cb : Cbuf k) : Pc → Prop
  | .idle => True
  | .count _ h t => (∀ x ∈ h, ReadHead cb 0 x) ∧ ∀ x ∈ t, x = cb.tail
  | .loop i len => len.toNat - i.toNat ≤ cb.unread
  | .test c h t =>
    c.Valid ∧ c.need ≤ cb.unread ∧ (∀ x ∈ h, ReadHead cb c.need x) ∧ ∀ x ∈ t, x = cb.tail
  | .fetch c => c.Valid ∧ c.need ≤ cb.unread ∧ cb.unread ≠ 0
  | .load c t => c.Valid ∧ c.need ≤ cb.unread ∧ cb.unread ≠ 0 ∧ t = cb.tail
  | .bump c b => c.Valid ∧ c.need ≤ cb.unread ∧ cb.unread ≠ 0 ∧ b = cb.front
  | .commit c b t => c.Valid ∧ c.need ≤ cb.unread ∧ cb.unread ≠ 0 ∧ b = cb.front ∧ t = cb.tail

/-- The invariant: a cell stays free, no byte is lost, and `main`'s reads are still good. -/
structure Inv (s : State k) : Prop where
  room : s.cb.unread < 2 ^ k.val
  fifo : s.delivered ++ s.cb.contents = s.pushed
  pc : PcInv s.cb s.pc

theorem readHead_head (cb : Cbuf k) {n : ℕ} (h : n ≤ cb.unread) : ReadHead cb n cb.head :=
  ⟨h, le_refl _⟩

/-- The next push does not write the cell `main` reads next. -/
theorem head_cell_ne_tail_cell {cb : Cbuf k} (h₀ : cb.unread ≠ 0) (h : cb.unread < 2 ^ k.val) :
    cb.head &&& cbufMask k ≠ cb.tail &&& cbufMask k := by
  rw [ne_eq, ← UInt32.toNat_inj, Cbuf.toNat_and_cbufMask, Cbuf.toNat_and_cbufMask, Cbuf.head_mod]
  exact (mod_ne_of_lt (i := 0) (by omega) (by omega)).symm

/-- A push that leaves a cell free keeps the oldest byte. -/
theorem front_pushed {cb : Cbuf k} (h₀ : cb.unread ≠ 0) (h : cb.unread < 2 ^ k.val) (b : UInt8) :
    (cb.pushed b).front = cb.front := by
  have hc := Cbuf.contents_pushed h b
  have hlt := Cbuf.two_pow_lt k
  have h₁ : (cb.pushed b).unread ≠ 0 := by rw [Cbuf.unread_pushed (by omega)]; omega
  rw [Cbuf.contents_pop h₁, Cbuf.contents_pop h₀, List.cons_append] at hc
  exact (List.cons.inj hc).1

/-- What `main` knows survives a push of the handler. -/
theorem PcInv.pushed {cb : Cbuf k} {pc : Pc} (h : PcInv cb pc) (hroom : cb.unread < 2 ^ k.val)
    (b : UInt8) : PcInv (cb.pushed b) pc := by
  have hlt := Cbuf.two_pow_lt k
  have hu : (cb.pushed b).unread = cb.unread + 1 := Cbuf.unread_pushed (by omega) b
  -- the true head moves ahead of the one that `main` has read
  have hread : ∀ n x, ReadHead cb n x → ReadHead (cb.pushed b) n x := by
    rintro n x ⟨h₁, h₂⟩
    refine ⟨h₁, ?_⟩
    rw [hu]
    exact h₂.trans (Nat.le_succ _)
  cases pc with
  | idle => trivial
  | count len hd t => exact ⟨fun x hx => hread _ _ (h.1 x hx), h.2⟩
  | loop i len =>
    change _ ≤ _
    rw [hu]
    exact Nat.le_succ_of_le h
  | test c hd t =>
    obtain ⟨hv, hn, hh, ht⟩ := h
    exact ⟨hv, by omega, fun x hx => hread _ _ (hh x hx), ht⟩
  | fetch c =>
    obtain ⟨hv, hn, h₀⟩ := h
    exact ⟨hv, by omega, by omega⟩
  | load c t =>
    obtain ⟨hv, hn, h₀, ht⟩ := h
    exact ⟨hv, by omega, by omega, ht⟩
  | bump c v =>
    obtain ⟨hv, hn, h₀, hb⟩ := h
    exact ⟨hv, by omega, by omega, hb.trans (front_pushed h₀ hroom b).symm⟩
  | commit c v t =>
    obtain ⟨hv, hn, h₀, hb, ht⟩ := h
    exact ⟨hv, by omega, by omega, hb.trans (front_pushed h₀ hroom b).symm, ht⟩

/-- `cbuf_pop` may return once its caller relies on no more bytes than are left. -/
theorem pcInv_resume {cb : Cbuf k} {c : Caller} (hv : c.Valid) (h : c.need ≤ cb.unread + 1) :
    PcInv cb c.resume := by
  cases c with
  | main => trivial
  | popBuf i len =>
    have hlt := UInt32.lt_iff_toNat_lt.1 hv
    have hlen := UInt32.toNat_lt len
    have hi : (i + 1).toNat = i.toNat + 1 := toNat_add_one (by omega)
    simp only [Caller.need] at h
    show len.toNat - (i + 1).toNat ≤ cb.unread
    omega

/-- A pop that a loop relies on does not find the buffer empty. -/
theorem need_eq_zero_of_empty {cb : Cbuf k} {c : Caller} {h t : UInt32}
    (hi : PcInv cb (.test c (some h) (some t))) (heq : h = t) : c.need = 0 := by
  obtain ⟨-, -, hh, ht⟩ := hi
  have hread := (hh h rfl).1
  rw [heq, ht t rfl, UInt32.sub_self] at hread
  exact Nat.le_zero.1 hread

theorem need_pos {i len : UInt32} (h : (Caller.popBuf i len).Valid) :
    0 < (Caller.popBuf i len).need :=
  Nat.sub_pos_of_lt (UInt32.lt_iff_toNat_lt.1 h)

/-- Every step of `main` and of the handler keeps the invariant. -/
theorem inv_step {s s' : State k} {l : Label} (hi : Inv s) (hst : Step s l s') : Inv s' := by
  obtain ⟨hroom, hfifo, hpc⟩ := hi
  cases hst with
  | callPop h => exact ⟨hroom, hfifo, trivial, Nat.zero_le _, by simp, by simp⟩
  | callPopBuf len h => exact ⟨hroom, hfifo, by simp, by simp⟩
  | countHead h =>
    rw [h] at hpc
    exact ⟨hroom, hfifo, by simpa using readHead_head s.cb (Nat.zero_le _), hpc.2⟩
  | countTail h =>
    rw [h] at hpc
    exact ⟨hroom, hfifo, hpc.1, by simp⟩
  | countLess h hlt => exact ⟨hroom, hfifo, trivial⟩
  | @countEnough len hd t h hnot =>
    rw [h] at hpc
    have hread := (hpc.1 hd rfl).2
    -- the count is taken from a head that may be stale, so it is at most the true one
    rw [hpc.2 t rfl, UInt32.not_lt, UInt32.le_iff_toNat_le, Cbuf.toNat_and_cbufMask,
      Nat.mod_eq_of_lt (hread.trans_lt hroom)] at hnot
    exact ⟨hroom, hfifo, (Nat.sub_le _ _).trans (hnot.trans hread)⟩
  | loopBody h hlt =>
    rw [h] at hpc
    exact ⟨hroom, hfifo, hlt, hpc, by simp, by simp⟩
  | loopDone h hnot => exact ⟨hroom, hfifo, trivial⟩
  | testHead h =>
    rw [h] at hpc
    obtain ⟨hv, hn, -, ht⟩ := hpc
    exact ⟨hroom, hfifo, hv, hn, by simpa using readHead_head s.cb hn, ht⟩
  | testTail h =>
    rw [h] at hpc
    obtain ⟨hv, hn, hh, -⟩ := hpc
    exact ⟨hroom, hfifo, hv, hn, hh, by simp⟩
  | testEmpty h heq =>
    rw [h] at hpc
    have hzero := need_eq_zero_of_empty hpc heq
    exact ⟨hroom, hfifo, pcInv_resume hpc.1 (hzero ▸ Nat.zero_le _)⟩
  | @testNonempty c hd t h hne =>
    rw [h] at hpc
    obtain ⟨hv, hn, hh, ht⟩ := hpc
    refine ⟨hroom, hfifo, hv, hn, fun h₀ => hne ?_⟩
    -- with no byte unread even a stale head equals the tail
    have hread := (hh hd rfl).2
    rw [h₀, Nat.le_zero, ← UInt32.toNat_zero, UInt32.toNat_inj, UInt32.sub_eq_iff_eq_add,
      UInt32.zero_add] at hread
    rw [hread, ht t rfl]
  | fetchTail h =>
    rw [h] at hpc
    obtain ⟨hv, hn, h₀⟩ := hpc
    exact ⟨hroom, hfifo, hv, hn, h₀, rfl⟩
  | loadCell h =>
    rw [h] at hpc
    obtain ⟨hv, hn, h₀, rfl⟩ := hpc
    exact ⟨hroom, hfifo, hv, hn, h₀, rfl⟩
  | bumpTail h =>
    rw [h] at hpc
    obtain ⟨hv, hn, h₀, hb⟩ := hpc
    exact ⟨hroom, hfifo, hv, hn, h₀, hb, rfl⟩
  | commitTail h =>
    rw [h] at hpc
    obtain ⟨hv, hn, h₀, rfl, rfl⟩ := hpc
    have hu := Cbuf.unread_popped h₀
    refine ⟨?_, ?_, pcInv_resume hv ?_⟩
    · show s.cb.popped.unread < _
      omega
    · show s.delivered ++ [s.cb.front] ++ s.cb.popped.contents = s.pushed
      rw [List.append_assoc, List.singleton_append, ← Cbuf.contents_pop h₀, hfifo]
    · show _ ≤ s.cb.popped.unread + 1
      omega
  | isr b hfree =>
    have hlt := Cbuf.two_pow_lt k
    have hu : (s.cb.pushed b).unread = s.cb.unread + 1 := Cbuf.unread_pushed (by omega) b
    rw [Cbuf.push_eq]
    refine ⟨?_, ?_, hpc.pushed hroom b⟩
    · show (s.cb.pushed b).unread < _
      omega
    · show s.delivered ++ (s.cb.pushed b).contents = s.pushed ++ [b]
      rw [Cbuf.contents_pushed hroom, ← List.append_assoc, hfifo]

theorem inv_init : Inv (⟨.init, .idle, [], []⟩ : State k) := by
  refine ⟨?_, ?_, trivial⟩
  · show (Cbuf.init : Cbuf k).unread < _
    rw [Cbuf.unread_init]
    exact Nat.two_pow_pos _
  · show [] ++ (Cbuf.init : Cbuf k).contents = []
    rw [Cbuf.contents_init, List.append_nil]

theorem inv_of_reachable {s : State k} (h : (system k).Reachable s) : Inv s :=
  h.invariant (fun _ hs => hs ▸ inv_init) fun _ _ _ => inv_step

/-! ### Safety -/

/-- The index of the cell `main` is about to read, once the emptiness test has passed. -/
def readIndex (s : State k) : Option UInt32 :=
  match s.pc with
  | .fetch _ => some (s.cb.tail &&& cbufMask k)
  | .load _ t => some (t &&& cbufMask k)
  | _ => none

theorem head_ne_readIndex {s : State k} (hi : Inv s) :
    ∀ x ∈ readIndex s, s.cb.head &&& cbufMask k ≠ x := by
  obtain ⟨hroom, -, hpc⟩ := hi
  intro x hx
  unfold readIndex at hx
  split at hx
  · rename_i c h
    rw [h] at hpc
    cases hx
    exact head_cell_ne_tail_cell hpc.2.2 hroom
  · rename_i c t h
    rw [h] at hpc
    obtain ⟨-, -, h₀, rfl⟩ := hpc
    cases hx
    exact head_cell_ne_tail_cell h₀ hroom
  · cases hx

/-- **One producer, one consumer.**  In every reachable state of every interleaving:

* the bytes delivered, followed by the unread ones, are the bytes pushed, in order;
* the cell the handler would write next is not the cell `main` is about to read;
* no `cbuf_pop` called by `cbuf_pop_buf` returns `CBUF_EMPTY`. -/
theorem interleaving_safe {s : State k} (h : (system k).Reachable s) :
    s.delivered ++ s.cb.contents = s.pushed ∧
      (∀ x ∈ readIndex s, s.cb.head &&& cbufMask k ≠ x) ∧
      ∀ i len s', ¬ (system k).step s (.popReturns (.popBuf i len) cbufEmpty) s' := by
  have hi := inv_of_reachable h
  refine ⟨hi.fifo, head_ne_readIndex hi, fun i len s' hst => ?_⟩
  obtain ⟨-, -, hpc⟩ := hi
  generalize hl : Label.popReturns (.popBuf i len) cbufEmpty = l at hst
  cases hst with
  | testEmpty hp heq =>
    cases hl
    rw [hp] at hpc
    exact (need_pos hpc.1).ne' (need_eq_zero_of_empty hpc heq)
  | commitTail hp =>
    simp only [Label.popReturns.injEq] at hl
    exact absurd hl.2 (by decide)
  | _ => cases hl

/-- One byte pushed, and `main` past the emptiness test of its first pop. -/
theorem interleaving_safe_at_fetch : ∃ s : State 4, (system 4).Reachable s ∧ s.pc = .fetch .main ∧
    s.delivered ++ s.cb.contents = [7] ∧
    (∀ x ∈ readIndex s, s.cb.head &&& cbufMask 4 ≠ x) ∧
    ∀ i len s', ¬ (system 4).step s (.popReturns (.popBuf i len) cbufEmpty) s' := by
  have h₀ : (system 4).Reachable ⟨.init, .idle, [], []⟩ := .start rfl
  have h₁ := h₀.next (.isr 7 (by decide))
  have h₂ := h₁.next (.callPop rfl)
  have h₃ := h₂.next (.testHead rfl)
  have h₄ := h₃.next (.testTail rfl)
  have h₅ := h₄.next (.testNonempty rfl (by decide))
  exact ⟨_, h₅, rfl, interleaving_safe h₅⟩

end Isr

end CAcheRein
