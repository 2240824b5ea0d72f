import CAcheRein.Cbuf.Refinement

/-!
# Bulk calls against single calls

`cbuf_push_buf` and `cbuf_pop_buf` decide by `cbuf_free` and `cbuf_count`, the single calls they
repeat decide by `cbuf_is_full` and `cbuf_is_empty`.  The first two see the fill level modulo
`CBUF_SIZE`, the last two do not, so the two ways of moving `len` bytes agree exactly on the
lengths given by `Cbuf.pushAgrees_iff` and `Cbuf.popAgrees_iff`.
-/

namespace CAcheRein

namespace Cbuf

variable {k : Fin 32}

/-- `cbuf_push` on each of `bs`, one after another: the return codes and the final buffer. -/
def pushes (cb : Cbuf k) : List UInt8 → List Int × Cbuf k
  | [] => ([], cb)
  | b :: bs =>
    let r := cb.push b
    let rs := r.2.pushes bs
    (r.1 :: rs.1, rs.2)

/-- `cbuf_pop` into `buf[i], …, buf[i + n - 1]`, one after another: the return codes, the final
buffer and the final array. -/
def pops (cb : Cbuf k) (buf : ℕ → UInt8) (i : ℕ) : ℕ → List Int × Cbuf k × (ℕ → UInt8)
  | 0 => ([], cb, buf)
  | n + 1 =>
    let r := cb.pop (buf i)
    let rs := r.2.1.pops (Function.update buf i r.2.2) (i + 1) n
    (r.1 :: rs.1, rs.2)

/-- `cbuf_push_buf(buf, len)` agrees with `len` single pushes. -/
structure PushAgrees (cb : Cbuf k) (buf : ℕ → UInt8) (len : UInt32) : Prop where
  ok_iff : (cb.pushBuf buf len).1 = cbufOk ↔
    ∀ r ∈ (cb.pushes (bufBytes buf len)).1, r = cbufOk
  same_of_ok : (cb.pushBuf buf len).1 = cbufOk →
    (cb.pushBuf buf len).2 = (cb.pushes (bufBytes buf len)).2
  unchanged : (cb.pushBuf buf len).1 ≠ cbufOk → (cb.pushBuf buf len).2 = cb

/-- `cbuf_pop_buf(buf, len)` agrees with `len` single pops. -/
structure PopAgrees (cb : Cbuf k) (buf : ℕ → UInt8) (len : UInt32) : Prop where
  ok_iff : (cb.popBuf buf len).1 = cbufOk ↔ ∀ r ∈ (cb.pops buf 0 len.toNat).1, r = cbufOk
  same_of_ok : (cb.popBuf buf len).1 = cbufOk → (cb.popBuf buf len).2 = (cb.pops buf 0 len.toNat).2
  unchanged : (cb.popBuf buf len).1 ≠ cbufOk → (cb.popBuf buf len).2 = (cb, buf)

/-- Single pushes are all accepted, whatever the buffer holds. -/
theorem pushes_ok (bs : List UInt8) : ∀ (cb : Cbuf k), ∀ r ∈ (cb.pushes bs).1, r = cbufOk := by
  induction bs with
  | nil => intro cb r hr; cases hr
  | cons b bs ih =>
    intro cb r hr
    rw [pushes, push_eq] at hr
    rcases List.mem_cons.1 hr with rfl | hr
    · rfl
    · exact ih _ r hr

/-- Single pops are all served exactly if there are enough unread bytes. -/
theorem pops_ok_iff (n : ℕ) : ∀ (cb : Cbuf k) (buf : ℕ → UInt8) (i : ℕ),
    (∀ r ∈ (cb.pops buf i n).1, r = cbufOk) ↔ n ≤ cb.unread := by
  induction n with
  | zero => intro cb buf i; simp [pops]
  | succ n ih =>
    intro cb buf i
    by_cases hu : cb.unread = 0
    · rw [pops, pop_of_unread_eq_zero hu, hu]
      refine iff_of_false (fun h => ?_) (Nat.not_succ_le_zero n)
      exact absurd (h cbufEmpty List.mem_cons_self) (by decide)
    · rw [pops, pop_of_unread_ne_zero hu, List.forall_mem_cons, ih, unread_popped hu]
      exact ⟨fun h => by omega, fun h => ⟨rfl, by omega⟩⟩

/-- The loop of `cbuf_push_buf` is the single pushes without their return codes. -/
theorem pushLoop_eq_pushes (buf : ℕ → UInt8) (n : ℕ) : ∀ (cb : Cbuf k) (i : ℕ),
    cb.pushLoop buf i n = (cb.pushes ((List.range n).map fun j => buf (i + j))).2 := by
  induction n with
  | zero => intro cb i; rfl
  | succ n ih =>
    intro cb i
    rw [pushLoop, ih, List.range_succ_eq_map, List.map_cons, List.map_map, pushes]
    simp [Function.comp_def, Nat.add_assoc, Nat.add_comm 1]

/-- The loop of `cbuf_pop_buf` is the single pops without their return codes. -/
theorem popLoop_eq_pops (n : ℕ) : ∀ (cb : Cbuf k) (buf : ℕ → UInt8) (i : ℕ),
    cb.popLoop buf i n = (cb.pops buf i n).2 := by
  induction n with
  | zero => intro cb buf i; rfl
  | succ n ih => intro cb buf i; exact ih _ _ _

/-- `cbuf_push_buf` agrees with single pushes exactly on the lengths it accepts: on a longer one
it returns `CBUF_FULL`, while the single pushes are all accepted. -/
theorem pushAgrees_iff (cb : Cbuf k) (buf : ℕ → UInt8) (len : UInt32) :
    cb.PushAgrees buf len ↔ cb.unread % 2 ^ k.val + len.toNat ≤ 2 ^ k.val := by
  have hmod : cb.unread % 2 ^ k.val < 2 ^ k.val := Nat.mod_lt _ (Nat.two_pow_pos _)
  have hfree := cb.toNat_free
  by_cases hfit : cb.unread % 2 ^ k.val + len.toNat ≤ 2 ^ k.val
  · have hnot : ¬ cb.free < len := by rw [UInt32.lt_iff_toNat_lt, hfree]; omega
    have hbuf : cb.pushBuf buf len = (cbufOk, (cb.pushes (bufBytes buf len)).2) := by
      rw [pushBuf, if_neg hnot, pushLoop_eq_pushes]
      simp [bufBytes]
    refine iff_of_true ⟨?_, ?_, ?_⟩ hfit
    · rw [hbuf]
      exact iff_of_true rfl (pushes_ok _ cb)
    · rw [hbuf]
      exact fun _ => rfl
    · rw [hbuf]
      exact fun h => absurd rfl h
  · have hlt : cb.free < len := by rw [UInt32.lt_iff_toNat_lt, hfree]; omega
    refine iff_of_false (fun h => ?_) hfit
    have hok := h.ok_iff.2 (pushes_ok _ cb)
    rw [pushBuf, if_pos hlt] at hok
    exact absurd (show cbufFull = cbufOk from hok) (by decide)

/-- `cbuf_pop_buf` agrees with single pops exactly if it accepts the length, or if the single
pops run out of bytes too. -/
theorem popAgrees_iff (cb : Cbuf k) (buf : ℕ → UInt8) (len : UInt32) :
    cb.PopAgrees buf len ↔ len.toNat ≤ cb.unread % 2 ^ k.val ∨ cb.unread < len.toNat := by
  have hmod : cb.unread % 2 ^ k.val ≤ cb.unread := Nat.mod_le _ _
  have hcount := cb.toNat_count
  have hpops := pops_ok_iff len.toNat cb buf 0
  by_cases hfit : len.toNat ≤ cb.unread % 2 ^ k.val
  · have hnot : ¬ cb.count < len := by rw [UInt32.lt_iff_toNat_lt, hcount]; omega
    have hbuf : cb.popBuf buf len = (cbufOk, (cb.pops buf 0 len.toNat).2) := by
      rw [popBuf, if_neg hnot, popLoop_eq_pops]
    refine iff_of_true ⟨?_, ?_, ?_⟩ (.inl hfit)
    · rw [hbuf]
      exact iff_of_true rfl (hpops.2 (by omega))
    · rw [hbuf]
      exact fun _ => rfl
    · rw [hbuf]
      exact fun h => absurd rfl h
  · -- refused: single pops agree only if they fail as well
    have hlt : cb.count < len := by rw [UInt32.lt_iff_toNat_lt, hcount]; omega
    have hbuf : cb.popBuf buf len = (cbufEmpty, cb, buf) := by rw [popBuf, if_pos hlt]
    have hne : cbufEmpty ≠ cbufOk := by decide
    constructor
    · intro h
      refine .inr (not_le.1 fun hle => hne ?_)
      rw [← h.ok_iff.2 (hpops.2 hle), hbuf]
    · rintro (hle | hlen)
      · exact absurd hle hfit
      · refine ⟨?_, ?_, ?_⟩
        · rw [hbuf, hpops]
          exact iff_of_false hne (not_le.2 hlen)
        · rw [hbuf]
          exact fun h => absurd h hne
        · rw [hbuf]
          exact fun _ => rfl

/-- **When a bulk call agrees with single calls**, in every state of the buffer, reachable or not.
With `d` unread bytes, `cbuf_push_buf` does iff `len` is at most `CBUF_SIZE - d % CBUF_SIZE`, and
`cbuf_pop_buf` does iff `len` is at most `d % CBUF_SIZE` or above `d`. -/
theorem bulk_agrees_iff (cb : Cbuf k) (buf : ℕ → UInt8) (len : UInt32) :
    (cb.PushAgrees buf len ↔ cb.unread % 2 ^ k.val + len.toNat ≤ 2 ^ k.val) ∧
      (cb.PopAgrees buf len ↔ len.toNat ≤ cb.unread % 2 ^ k.val ∨ cb.unread < len.toNat) :=
  ⟨pushAgrees_iff cb buf len, popAgrees_iff cb buf len⟩

/-- Both disagree in the source's buffer of sixteen bytes: seventeen bytes pushed from the start,
and one byte popped after sixteen pushes. -/
theorem not_bulk_agrees :
    ((machine 4).Reachable init ∧ ¬ (init : Cbuf 4).PushAgrees (fun _ => 0) 17) ∧
      ¬ ((machine 4).run (List.replicate 16 (.push 0))).PopAgrees (fun _ => 0) 1 := by
  refine ⟨⟨⟨[], rfl⟩, fun h => ?_⟩, fun h => ?_⟩
  · exact absurd ((pushAgrees_iff _ _ _).1 h) (by decide)
  · have hunread : ((machine 4).run (List.replicate 16 (.push 0))).unread = 16 := by
      decide +kernel
    rw [popAgrees_iff, hunread] at h
    exact absurd h (by decide)

end Cbuf

end CAcheRein
