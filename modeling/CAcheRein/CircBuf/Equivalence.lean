import CAcheRein.CircBuf.Basic
import CAcheRein.Cbuf.Basic
import CAcheRein.Transition.Machine

/-!
# The learning and the production buffer

Both rings at one capacity `N = 2 ^ k`, on the same pushes and pops.  The learning buffer keeps
its indices below `N` and counts; the production buffer lets them run through `2 ^ 32` and
derives the count.  `CircBuf.equivalent_of_not_full` : as long as at most `N - 1` bytes are
unread, no caller can tell them apart, and indices and count correspond after every call, also
once the free-running indices have wrapped.
-/

namespace CAcheRein

/-- A call both buffers offer; a pop comes with what `*byte` holds before it. -/
inductive RingCall where
  | push (byte : UInt8)
  | pop (byte : UInt8)

/-- The answer to such a call: whether it succeeded, and `*byte` after a pop. -/
inductive RingReply where
  | pushed (ok : Bool)
  | popped (ok : Bool) (byte : UInt8)

/-- The number of bytes unread after some calls: a pop from an empty buffer takes none. -/
def unreadAfter (calls : List RingCall) : ℕ :=
  calls.foldl (fun n c => match c with | .push _ => n + 1 | .pop _ => n - 1) 0

@[simp] theorem unreadAfter_push (calls : List RingCall) (b : UInt8) :
    unreadAfter (calls ++ [.push b]) = unreadAfter calls + 1 := by
  simp [unreadAfter]

@[simp] theorem unreadAfter_pop (calls : List RingCall) (b : UInt8) :
    unreadAfter (calls ++ [.pop b]) = unreadAfter calls - 1 := by
  simp [unreadAfter]

/-- A call succeeds when it returns 0. -/
def succeeded (ret : Int) : Bool := ret == 0

/-- The production buffer as a machine. -/
def Cbuf.ringMachine (k : Fin 32) : Machine (Cbuf k) RingCall RingReply where
  init := Cbuf.init
  next cb c := match c with
    | .push b => (cb.push b).2
    | .pop b => (cb.pop b).2.1
  out cb c := match c with
    | .push b => .pushed (succeeded (cb.push b).1)
    | .pop b => .popped (succeeded (cb.pop b).1) (cb.pop b).2.2

namespace CircBuf

/-- The learning buffer as a machine. -/
def ringMachine (N : ℕ) : Machine (CircBuf N) RingCall RingReply where
  init := init
  next cb c := match c with
    | .push b => (cb.push b).2
    | .pop b => (cb.pop b).2.1
  out cb c := match c with
    | .push b => .pushed (succeeded (cb.push b).1)
    | .pop b => .popped (succeeded (cb.pop b).1) (cb.pop b).2.2

variable {k : Fin 32}

/-- The learning buffer `c` is the production buffer `p` with its indices reduced and its count
stored. -/
structure Corresponds (c : CircBuf (2 ^ k.val)) (p : Cbuf k) : Prop where
  data : c.data = p.data
  head : c.head.toNat = p.head.toNat % 2 ^ k.val
  tail : c.tail.toNat = p.tail.toNat % 2 ^ k.val
  count : c.count = p.count

variable {c : CircBuf (2 ^ k.val)} {p : Cbuf k}

theorem corresponds_init : (init : CircBuf (2 ^ k.val)).Corresponds (Cbuf.init : Cbuf k) :=
  ⟨rfl, (Nat.zero_mod _).symm, (Nat.zero_mod _).symm, by simp [init, Cbuf.init, Cbuf.count]⟩

/-- Advancing an index modulo the size follows the free-running index. -/
theorem toNat_succ_mod {x y : UInt32} (h : x.toNat = y.toNat % 2 ^ k.val) :
    ((x + 1) % bufferSize (2 ^ k.val)).toNat = (y + 1).toNat % 2 ^ k.val := by
  have hsize : (bufferSize (2 ^ k.val)).toNat = 2 ^ k.val := Cbuf.toNat_cbufSize k
  rw [UInt32.toNat_mod, hsize, Cbuf.toNat_add_mod, Cbuf.toNat_add_mod, h, Nat.mod_add_mod]

/-- Below the capacity the derived count is the distance of the indices. -/
theorem Corresponds.toNat_count (h : c.Corresponds p) (hlt : p.unread < 2 ^ k.val) :
    c.count.toNat = p.unread := by
  rw [h.count, Cbuf.toNat_count, Nat.mod_eq_of_lt hlt]

theorem Corresponds.isFull_eq_false (h : c.Corresponds p) : c.isFull = false := by
  rw [isFull, h.count]
  exact p.isFull_eq_false

theorem Corresponds.isEmpty_iff (h : c.Corresponds p) (hlt : p.unread < 2 ^ k.val) :
    c.isEmpty = true ↔ p.unread = 0 := by
  rw [isEmpty, beq_iff_eq, ← h.toNat_count hlt, ← UInt32.toNat_zero, UInt32.toNat_inj]

theorem Corresponds.front_eq (h : c.Corresponds p) : c.data[c.tail.toNat]! = p.front := by
  rw [Cbuf.front, Cbuf.toNat_and_cbufMask, h.data, h.tail]

/-- A push that leaves room keeps the correspondence. -/
theorem Corresponds.push (h : c.Corresponds p) (hlt : p.unread + 1 < 2 ^ k.val) (b : UInt8) :
    (c.push b).1 = (p.push b).1 ∧ (c.push b).2.Corresponds (p.push b).2 := by
  have hsize := Cbuf.two_pow_lt k
  have hcount := h.toNat_count (by omega)
  rw [CircBuf.push, h.isFull_eq_false, Cbuf.push_eq]
  refine ⟨rfl, ⟨?_, toNat_succ_mod h.head, h.tail, ?_⟩⟩
  · simp only [Cbuf.pushed, Cbuf.toNat_and_cbufMask, h.data, h.head]
    rfl
  · have hunread : (p.pushed b).unread = p.unread + 1 := Cbuf.unread_pushed (by omega) b
    rw [← UInt32.toNat_inj, Cbuf.toNat_count, hunread, Nat.mod_eq_of_lt hlt]
    change (c.count + 1).toNat = _
    rw [UInt32.toNat_add, hcount]
    exact Nat.mod_eq_of_lt (by rw [UInt32.toNat_one]; omega)

/-- A pop succeeds in both or in none, delivers the same byte and keeps the correspondence. -/
theorem Corresponds.pop (h : c.Corresponds p) (hlt : p.unread < 2 ^ k.val) (b : UInt8) :
    succeeded (c.pop b).1 = succeeded (p.pop b).1 ∧ (c.pop b).2.2 = (p.pop b).2.2 ∧
      (c.pop b).2.1.Corresponds (p.pop b).2.1 := by
  have hcount := h.toNat_count hlt
  have hempty := h.isEmpty_iff hlt
  by_cases hu : p.unread = 0
  · rw [CircBuf.pop, if_pos (hempty.2 hu), Cbuf.pop_of_unread_eq_zero hu]
    exact ⟨rfl, rfl, h⟩
  · rw [CircBuf.pop, if_neg (mt hempty.1 hu), Cbuf.pop_of_unread_ne_zero hu]
    refine ⟨rfl, h.front_eq, ⟨h.data, h.head, toNat_succ_mod h.tail, ?_⟩⟩
    have hunread := Cbuf.unread_popped hu
    have hone : (1 : UInt32) ≤ c.count := by
      rw [UInt32.le_iff_toNat_le, hcount]
      exact Nat.one_le_iff_ne_zero.2 hu
    rw [← UInt32.toNat_inj, Cbuf.toNat_count, hunread, Nat.mod_eq_of_lt (by omega),
      UInt32.toNat_sub_of_le _ _ hone, hcount]
    rfl

/-- The states of the two runs correspond, and the distance of the production indices is the
number of bytes unread. -/
def InStep (calls : List RingCall) (c : CircBuf (2 ^ k.val)) (p : Cbuf k) : Prop :=
  c.Corresponds p ∧ p.unread = unreadAfter calls

/-- One more call, before and after which there is room, keeps the two runs in step. -/
theorem inStep_next {calls : List RingCall} {i : RingCall} (h : InStep calls c p)
    (hlt : unreadAfter calls < 2 ^ k.val) (hlt' : unreadAfter (calls ++ [i]) < 2 ^ k.val) :
    (ringMachine (2 ^ k.val)).out c i = (Cbuf.ringMachine k).out p i ∧
      InStep (calls ++ [i]) ((ringMachine (2 ^ k.val)).next c i)
        ((Cbuf.ringMachine k).next p i) := by
  have hsize := Cbuf.two_pow_lt k
  obtain ⟨hc, hu⟩ := h
  cases i with
  | push b =>
    rw [unreadAfter_push] at hlt'
    obtain ⟨hret, hnext⟩ := hc.push (hu ▸ hlt') b
    refine ⟨congrArg (fun r => RingReply.pushed (succeeded r)) hret, hnext, ?_⟩
    rw [unreadAfter_push, ← hu]
    change (p.push b).2.unread = _
    rw [Cbuf.push_eq, Cbuf.unread_pushed (by omega)]
  | pop b =>
    obtain ⟨hok, hbyte, hnext⟩ := hc.pop (hu ▸ hlt) b
    refine ⟨congrArg₂ RingReply.popped hok hbyte, hnext, ?_⟩
    rw [unreadAfter_pop, ← hu]
    change (p.pop b).2.1.unread = _
    by_cases hzero : p.unread = 0
    · rw [Cbuf.pop_of_unread_eq_zero hzero, hzero]
    · rw [Cbuf.pop_of_unread_ne_zero hzero, Cbuf.unread_popped hzero]

/-- **The two buffers are equivalent below the capacity.**  At any capacity `N = 2 ^ k` and on
any sequence of pushes and pops along which at most `N - 1` bytes are unread, every call succeeds
in both or in none, every pop delivers the same byte, and after every call the stored count is
`cbuf_count`, and the wrapped indices are the free-running ones modulo `N`. -/
theorem equivalent_of_not_full (k : Fin 32) (calls : List RingCall)
    (h : ∀ p, p <+: calls → unreadAfter p ≤ 2 ^ k.val - 1) :
    (ringMachine (2 ^ k.val)).Matches (Cbuf.ringMachine k) Corresponds calls := by
  have hpos := Nat.two_pow_pos k.val
  have h₀ : InStep [] (ringMachine (2 ^ k.val)).init (Cbuf.ringMachine k).init :=
    ⟨corresponds_init, Cbuf.unread_init⟩
  have hG : ∀ p, p <+: calls → unreadAfter p < 2 ^ k.val := by
    intro p hp
    have := h p hp
    omega
  obtain ⟨hout, hrel⟩ := Machine.simulation_of_guard h₀ (fun _ _ => inStep_next) calls hG
  exact ⟨hout, fun p hp => (hrel p hp).1⟩

/-- One push, one pop and a pop from the empty buffer, at capacity two. -/
theorem equivalent_push_pop_pop :
    (ringMachine (2 ^ (1 : Fin 32).val)).Matches (Cbuf.ringMachine 1) Corresponds
      [.push 7, .pop 0, .pop 0] :=
  equivalent_of_not_full 1 _ fun p hp =>
    (by decide : ∀ p ∈ List.inits [RingCall.push 7, .pop 0, .pop 0], unreadAfter p ≤ 2 ^ 1 - 1) p
      (List.mem_inits p _ |>.2 hp)

end CircBuf

end CAcheRein
