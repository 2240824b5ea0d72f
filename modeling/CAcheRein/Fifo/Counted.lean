import CAcheRein.Fifo.Bounded
import CAcheRein.Fifo.Window
import CAcheRein.Transition.Machine

/-!
# Rings with a read index, a write index and a counter

A ring of `N` cells that stores both indices and the number of elements.  The counter tells full
from empty when the indices are equal; the write index is redundant.

## Main definitions

* `FifoCall`, `FifoReply`, `Fifo.answer` : a bounded queue behind return codes, 0 and -1.
* `FifoSpec` : what an implementation of it has to do, call by call.
* `RingHolds` : the cells, the indices and the counter represent a list.

## Main results

* `FifoSpec.insert_answer`, `FifoSpec.remove_answer` : such an implementation answers like the
  queue.
* `RingHolds.insert`, `RingHolds.remove` : what an insertion and a removal do to the list.
* `RingHolds.insert_word`, `RingHolds.remove_word` : the same for indices and counters of 32 bits.
-/

namespace CAcheRein

variable {α : Type*}

/-! ### The queue behind return codes -/

/-- A call on a queue; `remove` and `peek` come with what the caller's variable holds before. -/
inductive FifoCall (α : Type*) where
  | insert (value : α)
  | remove (value : α)
  | peek (value : α)

/-- The return code of a call, and what the caller's variable holds after it. -/
inductive FifoReply (α : Type*) where
  | code (ret : Int)
  | value (ret : Int) (value : α)
  deriving DecidableEq

namespace Fifo

variable {cap : ℕ}

/-- A bounded queue that answers -1 when it has no room, or nothing to give, and 0 otherwise. -/
def answer (q : Fifo α cap) : FifoCall α → FifoReply α × Fifo α cap
  | .insert a =>
    match q.push a with
    | some q' => (.code 0, q')
    | none => (.code (-1), q)
  | .remove b =>
    match q.pop with
    | some (a, q') => (.value 0 a, q')
    | none => (.value (-1) b, q)
  | .peek b =>
    match q.pop with
    | some (a, _) => (.value 0 a, q)
    | none => (.value (-1) b, q)

variable (α cap) in
/-- The bounded queue as a machine. -/
def machine : Machine (Fifo α cap) (FifoCall α) (FifoReply α) where
  init := .empty
  next q c := (q.answer c).2
  out q c := (q.answer c).1

variable {q : Fifo α cap} {items : List α}

theorem answer_insert_full (h : q.items.length = cap) (a : α) :
    q.answer (.insert a) = (.code (-1), q) := by
  rw [answer, push, pushAll, dif_neg]
  rw [length_eq, h, List.length_singleton]
  omega

theorem answer_insert (h : q.items.length ≠ cap) (a : α) :
    ∃ q', q.answer (.insert a) = (.code 0, q') ∧ q'.items = q.items ++ [a] := by
  have hlt : q.length < cap := lt_of_le_of_ne q.length_le h
  exact ⟨_, by rw [answer, push_of_lt hlt], rfl⟩

theorem answer_remove_nil (h : q.items = []) (b : α) :
    q.answer (.remove b) = (.value (-1) b, q) := by
  rw [answer, pop_of_nil h]

theorem answer_remove_cons {a : α} (h : q.items = a :: items) (b : α) :
    ∃ q', q.answer (.remove b) = (.value 0 a, q') ∧ q'.items = items := by
  obtain ⟨q', hpop, hq'⟩ := pop_of_cons h
  exact ⟨q', by rw [answer, hpop], hq'⟩

/-- A peek answers like a removal and leaves the queue as it is. -/
theorem answer_peek (q : Fifo α cap) (b : α) :
    q.answer (.peek b) = ((q.answer (.remove b)).1, q) := by
  rw [answer, answer]
  cases q.pop <;> rfl

end Fifo

/-! ### Implementations -/

/-- What makes `insert` and `remove` an implementation of the bounded queue, where
`Holds s items` says what is in `s`. -/
structure FifoSpec {σ : Type*} (cap : ℕ) (Holds : σ → List α → Prop) (insert : σ → α → Int × σ)
    (remove : σ → α → Int × σ × α) : Prop where
  insert_full : ∀ {s items}, Holds s items → items.length = cap → ∀ a, insert s a = (-1, s)
  insert_room : ∀ {s items}, Holds s items → items.length ≠ cap → ∀ a,
    (insert s a).1 = 0 ∧ Holds (insert s a).2 (items ++ [a])
  remove_nil : ∀ {s}, Holds s [] → ∀ b, remove s b = (-1, s, b)
  remove_cons : ∀ {s a items}, Holds s (a :: items) → ∀ b,
    (remove s b).1 = 0 ∧ (remove s b).2.2 = a ∧ Holds (remove s b).2.1 items

namespace FifoSpec

variable {σ : Type*} {cap : ℕ} {Holds : σ → List α → Prop} {insert : σ → α → Int × σ}
  {remove : σ → α → Int × σ × α} {s : σ} {q : Fifo α cap}

/-- An insertion answers like the queue's, and keeps what is held. -/
theorem insert_answer (S : FifoSpec cap Holds insert remove) (h : Holds s q.items) (a : α) :
    FifoReply.code (insert s a).1 = (q.answer (.insert a)).1 ∧
      Holds (insert s a).2 (q.answer (.insert a)).2.items := by
  by_cases hfull : q.items.length = cap
  · rw [S.insert_full h hfull, Fifo.answer_insert_full hfull]
    exact ⟨rfl, h⟩
  · obtain ⟨hret, hnext⟩ := S.insert_room h hfull a
    obtain ⟨q', hq', hitems⟩ := Fifo.answer_insert hfull a
    rw [hret, hq', hitems]
    exact ⟨rfl, hnext⟩

/-- A removal answers like the queue's, and keeps what is held. -/
theorem remove_answer (S : FifoSpec cap Holds insert remove) (h : Holds s q.items) (b : α) :
    FifoReply.value (remove s b).1 (remove s b).2.2 = (q.answer (.remove b)).1 ∧
      Holds (remove s b).2.1 (q.answer (.remove b)).2.items := by
  cases hitems : q.items with
  | nil =>
    rw [hitems] at h
    rw [S.remove_nil h, Fifo.answer_remove_nil hitems, hitems]
    exact ⟨rfl, h⟩
  | cons a items =>
    rw [hitems] at h
    obtain ⟨hret, hout, hnext⟩ := S.remove_cons h b
    obtain ⟨q', hq', hitems'⟩ := Fifo.answer_remove_cons hitems b
    rw [hret, hout, hq', hitems']
    exact ⟨rfl, hnext⟩

/-- An insertion is refused exactly when there is no room. -/
theorem insert_refused_iff (S : FifoSpec cap Holds insert remove) (h : Holds s q.items) (a : α) :
    (insert s a).1 = -1 ↔ q.length = cap := by
  by_cases hfull : q.items.length = cap
  · exact iff_of_true (by rw [S.insert_full h hfull]) hfull
  · refine iff_of_false ?_ hfull
    rw [(S.insert_room h hfull a).1]
    decide

/-- A refused insertion changes nothing. -/
theorem insert_frame (S : FifoSpec cap Holds insert remove) (h : Holds s q.items) {a : α}
    (hret : (insert s a).1 = -1) : (insert s a).2 = s := by
  rw [S.insert_full h ((S.insert_refused_iff h a).1 hret)]

/-- A removal is refused exactly when nothing is held. -/
theorem remove_refused_iff (S : FifoSpec cap Holds insert remove) (h : Holds s q.items) (b : α) :
    (remove s b).1 = -1 ↔ q.length = 0 := by
  rw [Fifo.length_eq, List.length_eq_zero_iff]
  cases hitems : q.items with
  | nil =>
    rw [hitems] at h
    exact iff_of_true (by rw [S.remove_nil h]) rfl
  | cons a items =>
    rw [hitems] at h
    refine iff_of_false ?_ (List.cons_ne_nil a items)
    rw [(S.remove_cons h b).1]
    decide

/-- A refused removal changes neither the state nor the caller's variable. -/
theorem remove_frame (S : FifoSpec cap Holds insert remove) (h : Holds s q.items) {b : α}
    (hret : (remove s b).1 = -1) : (remove s b).2 = (s, b) := by
  have hnil : q.items = [] := List.length_eq_zero_iff.1 ((S.remove_refused_iff h b).1 hret)
  rw [hnil] at h
  rw [S.remove_nil h]

end FifoSpec

/-! ### The representation -/

/-- The cells `c` with read index `r`, write index `w` and counter `n` hold `items`. -/
structure RingHolds (c : ℕ → α) (N r w n : ℕ) (items : List α) : Prop where
  read_lt : r < N
  count_le : n ≤ N
  write_eq : w = (r + n) % N
  contents : window c N r n = items

namespace RingHolds

variable {c : ℕ → α} {N r w n : ℕ} {items : List α}

theorem empty (c : ℕ → α) (hN : 0 < N) : RingHolds c N 0 0 0 [] :=
  ⟨hN, Nat.zero_le N, (Nat.zero_mod N).symm, window_zero c N 0⟩

theorem length_eq (h : RingHolds c N r w n items) : items.length = n := by
  rw [← h.contents, length_window]

theorem write_lt (h : RingHolds c N r w n items) : w < N := by
  rw [h.write_eq]
  exact Nat.mod_lt _ (Nat.zero_lt_of_lt h.read_lt)

/-- Writing at the write index appends, as long as there is room. -/
theorem insert (h : RingHolds c N r w n items) (hn : n < N) (a : α) :
    RingHolds (Function.update c w a) N r ((w + 1) % N) (n + 1) (items ++ [a]) := by
  refine ⟨h.read_lt, hn, ?_, ?_⟩
  · rw [h.write_eq, Nat.mod_add_mod, Nat.add_assoc]
  · rw [h.write_eq, window_push c hn, h.contents]

/-- The cell at the read index is the oldest element, and advancing the index removes it. -/
theorem remove {a : α} (h : RingHolds c N r w (n + 1) (a :: items)) :
    c r = a ∧ RingHolds c N ((r + 1) % N) w n items := by
  have hcons := h.contents
  rw [window_cons, List.cons.injEq, Nat.mod_eq_of_lt h.read_lt] at hcons
  obtain ⟨hfront, hrest⟩ := hcons
  refine ⟨hfront, Nat.mod_lt _ (Nat.zero_lt_of_lt h.read_lt), Nat.le_of_succ_le h.count_le, ?_, ?_⟩
  · rw [h.write_eq, Nat.mod_add_mod, Nat.add_assoc, Nat.add_comm 1 n]
  · rw [← hrest]
    exact window_congr (Nat.mod_mod _ _) n

end RingHolds

/-! ### 32-bit fields -/

namespace RingHolds

variable [Inhabited α] {N : ℕ} {v : Vector α N} {r w n : UInt32} {items : List α}

/-- Advancing a 32-bit index below `N` modulo `N`. -/
theorem toNat_succ_mod (hN : N < 2 ^ 32) {x : UInt32} (hx : x.toNat < N) :
    ((x + 1) % UInt32.ofNat N).toNat = (x.toNat + 1) % N := by
  have hsize : (UInt32.ofNat N).toNat = N := UInt32.toNat_ofNat_of_lt' hN
  rw [UInt32.toNat_mod, hsize, toNat_add_one (by omega)]

/-- The counter is 0 exactly when nothing is held. -/
theorem count_beq_zero (h : RingHolds (cells v) N r.toNat w.toNat n.toNat items) :
    (n == 0) = true ↔ items = [] := by
  rw [beq_iff_eq, ← UInt32.toNat_inj, ← List.length_eq_zero_iff, h.length_eq]
  rfl

/-- The counter is `N` exactly when `N` elements are held. -/
theorem count_beq_size (hN : N < 2 ^ 32)
    (h : RingHolds (cells v) N r.toNat w.toNat n.toNat items) :
    (n == UInt32.ofNat N) = true ↔ items.length = N := by
  rw [beq_iff_eq, ← UInt32.toNat_inj, h.length_eq, UInt32.toNat_ofNat_of_lt' hN]

/-- The write index, computed in 32 bits. -/
theorem write_eq_word (hN : N < 2 ^ 31)
    (h : RingHolds (cells v) N r.toNat w.toNat n.toNat items) : w = (r + n) % UInt32.ofNat N := by
  have hr := h.read_lt
  have hn := h.count_le
  have hsum : (r.toNat + n.toNat) % 2 ^ 32 = r.toNat + n.toNat := Nat.mod_eq_of_lt (by omega)
  rw [← UInt32.toNat_inj, h.write_eq, UInt32.toNat_mod, UInt32.toNat_add, hsum,
    UInt32.toNat_ofNat_of_lt' (Nat.lt_trans hN (by decide))]

/-- `RingHolds.insert` on 32-bit fields. -/
theorem insert_word (hN : N < 2 ^ 32)
    (h : RingHolds (cells v) N r.toNat w.toNat n.toNat items) (hlen : items.length ≠ N) (a : α) :
    RingHolds (cells (v.set! w.toNat a)) N r.toNat ((w + 1) % UInt32.ofNat N).toNat
      (n + 1).toNat (items ++ [a]) := by
  have hle := h.count_le
  have hlt : n.toNat < N := by
    rw [h.length_eq] at hlen
    omega
  have hcount : (n + 1).toNat = n.toNat + 1 := toNat_add_one (by omega)
  rw [toNat_succ_mod hN h.write_lt, hcount, cells_set! v h.write_lt]
  exact h.insert hlt a

/-- `RingHolds.remove` on 32-bit fields. -/
theorem remove_word (hN : N < 2 ^ 32) {a : α}
    (h : RingHolds (cells v) N r.toNat w.toNat n.toNat (a :: items)) :
    v[r.toNat]! = a ∧ RingHolds (cells v) N ((r + 1) % UInt32.ofNat N).toNat w.toNat
      (n - 1).toNat items := by
  have hlen : n.toNat = items.length + 1 := h.length_eq.symm
  have hone : (1 : UInt32) ≤ n := by
    rw [UInt32.le_iff_toNat_le, hlen, UInt32.toNat_one]
    omega
  have hcount : (n - 1).toNat = items.length := by
    rw [UInt32.toNat_sub_of_le _ _ hone, hlen, UInt32.toNat_one, Nat.add_sub_cancel]
  rw [toNat_succ_mod hN h.read_lt, hcount]
  rw [hlen] at h
  exact h.remove

end RingHolds

end CAcheRein
