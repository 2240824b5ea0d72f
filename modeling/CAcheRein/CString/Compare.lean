import CAcheRein.CString.Basic

/-!
# `my_strcmp` orders strings by unsigned bytes

The loop compares signed characters, for equality only, and the value returned is a difference of
unsigned bytes: one of the first difference, or of the end of the shorter string.  Its sign is the
lexicographic order, so `my_strcmp` is a total order on strings (`myStrcmp_total_order`).
-/

namespace CAcheRein

namespace CString

variable {m : Memory} {a b c : List UInt8} {x y : UInt8}

/-- The string `a` is a proper prefix of `b`, or smaller at the first difference. -/
def Before (a b : List UInt8) : Prop :=
  (a <+: b ∧ a ≠ b) ∨
    ∃ front x y a' b', a = front ++ x :: a' ∧ b = front ++ y :: b' ∧ x < y

theorem before_nil : Before [] b ↔ b ≠ [] := by
  constructor
  · rintro (⟨-, hne⟩ | ⟨front, x, y, a', b', ha, -⟩)
    · exact hne.symm
    · simp at ha
  · exact fun h => .inl ⟨List.nil_prefix, h.symm⟩

theorem not_before_nil : ¬ Before a [] := by
  rintro (⟨hpre, hne⟩ | ⟨front, x, y, a', b', -, hb, -⟩)
  · exact hne (List.prefix_nil.1 hpre)
  · simp at hb

/-- The first bytes decide, unless they are equal. -/
theorem before_cons : Before (x :: a) (y :: b) ↔ x < y ∨ (x = y ∧ Before a b) := by
  constructor
  · rintro (⟨hpre, hne⟩ | ⟨front, x', y', a', b', ha, hb, hlt⟩)
    · obtain ⟨rfl, htail⟩ := List.cons_prefix_cons.1 hpre
      exact .inr ⟨rfl, .inl ⟨htail, fun heq => hne (by rw [heq])⟩⟩
    · cases front with
      | nil =>
        simp only [List.nil_append, List.cons.injEq] at ha hb
        rw [ha.1, hb.1]
        exact .inl hlt
      | cons z front =>
        simp only [List.cons_append, List.cons.injEq] at ha hb
        exact .inr ⟨ha.1.trans hb.1.symm, .inr ⟨front, x', y', a', b', ha.2, hb.2, hlt⟩⟩
  · rintro (hlt | ⟨rfl, ⟨hpre, hne⟩ | ⟨front, x', y', a', b', rfl, rfl, hlt⟩⟩)
    · exact .inr ⟨[], x, y, a, b, rfl, rfl, hlt⟩
    · refine .inl ⟨List.cons_prefix_cons.2 ⟨rfl, hpre⟩, fun heq => hne ?_⟩
      exact (List.cons.inj heq).2
    · exact .inr ⟨x :: front, x', y', a', b', rfl, rfl, hlt⟩

/-- This is the lexicographic order of lists of unsigned bytes. -/
theorem before_iff_lt : Before a b ↔ a < b := by
  induction a generalizing b with
  | nil =>
    cases b with
    | nil => exact iff_of_false not_before_nil (List.lt_irrefl [])
    | cons y b => exact iff_of_true (before_nil.2 (List.cons_ne_nil y b)) (List.nil_lt_cons y b)
  | cons x a ih =>
    cases b with
    | nil => exact iff_of_false not_before_nil (List.not_lt_nil _)
    | cons y b => rw [before_cons, ih, List.cons_lt_cons_iff]

/-- The sign of `r` is the comparison of `a` and `b`. -/
structure Agrees (r : Int) (a b : List UInt8) : Prop where
  eq_iff : r = 0 ↔ a = b
  neg_iff : r < 0 ↔ Before a b
  pos_iff : 0 < r ↔ Before b a

/-- The address is one of the string's, up to its terminator. -/
def Read.Within (p q l l' : ℕ) : Read → Prop
  | .fst a => p ≤ a ∧ a ≤ p + l
  | .snd a => q ≤ a ∧ a ≤ q + l'

theorem Read.Within.of_next {p q l l' : ℕ} {read : Read}
    (h : read.Within (p + 1) (q + 1) l l') : read.Within p q (l + 1) (l' + 1) := by
  cases read with
  | fst a =>
    obtain ⟨hlo, hhi⟩ := h
    exact ⟨by omega, by omega⟩
  | snd a =>
    obtain ⟨hlo, hhi⟩ := h
    exact ⟨by omega, by omega⟩

/-- The reads at the two pointers themselves. -/
theorem within_here {p q l l' : ℕ} {reads : List Read}
    (h : ∀ read ∈ reads, read = .fst p ∨ read = .snd q) :
    ∀ read ∈ reads, read.Within p q l l' := by
  intro read hread
  rcases h read hread with rfl | rfl
  · exact ⟨le_rfl, Nat.le_add_right _ _⟩
  · exact ⟨le_rfl, Nat.le_add_right _ _⟩

/-- The difference of two bytes has the sign of their comparison. -/
theorem byteDifference_sign {p q : ℕ} (hp : m p = x) (hq : m q = y) :
    (byteDifference m p q = 0 ↔ x = y) ∧ (byteDifference m p q < 0 ↔ x < y) ∧
      (0 < byteDifference m p q ↔ y < x) := by
  rw [byteDifference, hp, hq, ← UInt8.toNat_inj, UInt8.lt_iff_toNat_lt, UInt8.lt_iff_toNat_lt]
  omega

theorem pos_of_ne_zero (h : x ≠ 0) : 0 < x := by
  rw [UInt8.lt_iff_toNat_lt]
  have hne : x.toNat ≠ 0 := fun heq => h (UInt8.toNat_inj.1 heq)
  exact Nat.pos_of_ne_zero hne

/-- **`my_strcmp` compares the strings**, and reads neither past its terminator. -/
theorem myStrcmp_spec {p q : ℕ} (ha : StringAt m p a) (hb : StringAt m q b) : ∃ r reads,
    (∀ fuel, a.length < fuel → myStrcmp m fuel p q = some (r, reads)) ∧
      (∀ read ∈ reads, read.Within p q a.length b.length) ∧ Agrees r a b := by
  induction a generalizing p q b with
  | nil =>
    have hp := stringAt_nil.1 ha
    refine ⟨byteDifference m p q, [.fst p, .fst p, .snd q], fun fuel hfuel => ?_,
      within_here (by simp), ?_⟩
    · obtain ⟨f, rfl⟩ := Nat.exists_eq_add_one.2 hfuel
      rw [myStrcmp, if_neg (mt asChar_ne_zero_iff.1 (not_not.2 hp))]
    · cases b with
      | nil =>
        obtain ⟨heq, hlt, hgt⟩ := byteDifference_sign hp (stringAt_nil.1 hb)
        refine ⟨heq.trans (by simp), hlt.trans ?_, hgt.trans ?_⟩
        · exact iff_of_false (by decide) not_before_nil
        · exact iff_of_false (by decide) not_before_nil
      | cons y b =>
        obtain ⟨hy, hq, -⟩ := stringAt_cons.1 hb
        have hpos := pos_of_ne_zero hy
        obtain ⟨heq, hlt, hgt⟩ := byteDifference_sign hp hq
        refine ⟨heq.trans ?_, hlt.trans ?_, hgt.trans ?_⟩
        · exact iff_of_false hy.symm (by simp)
        · exact iff_of_true hpos (before_nil.2 (List.cons_ne_nil y b))
        · exact iff_of_false (UInt8.lt_asymm hpos) not_before_nil
  | cons x a ih =>
    obtain ⟨hx, hp, ha'⟩ := stringAt_cons.1 ha
    have hchar : asChar (m p) ≠ 0 := asChar_ne_zero_iff.2 (by rwa [hp])
    by_cases hxy : m p = m q
    · -- equal bytes, so the second string goes on as well
      cases b with
      | nil => exact absurd (hp.symm.trans (hxy.trans (stringAt_nil.1 hb))) hx
      | cons y b =>
        obtain ⟨-, hq, hb'⟩ := stringAt_cons.1 hb
        obtain rfl : x = y := hp.symm.trans (hxy.trans hq)
        obtain ⟨r, reads, hrun, hwithin, heq, hlt, hgt⟩ := ih ha' hb'
        refine ⟨r, [.fst p, .fst p, .snd q] ++ reads, fun fuel hfuel => ?_, fun read hread => ?_,
          ?_, ?_, ?_⟩
        · obtain ⟨f, rfl⟩ := Nat.exists_eq_add_one.2 (Nat.zero_lt_of_lt hfuel)
          rw [myStrcmp, if_pos hchar, if_pos (asChar_inj.2 hxy),
            hrun f (Nat.lt_of_succ_lt_succ hfuel)]
          rfl
        · rcases List.mem_append.1 hread with hhere | hnext
          · exact within_here (by simp) read hhere
          · exact (hwithin read hnext).of_next
        · rw [heq, List.cons.injEq, and_iff_right rfl]
        · rw [hlt, before_cons, and_iff_right rfl, or_iff_right (UInt8.lt_irrefl x)]
        · rw [hgt, before_cons, and_iff_right rfl, or_iff_right (UInt8.lt_irrefl x)]
    · refine ⟨byteDifference m p q, [.fst p, .fst p, .snd q, .fst p, .snd q],
        fun fuel hfuel => ?_, within_here (by simp), ?_⟩
      · obtain ⟨f, rfl⟩ := Nat.exists_eq_add_one.2 (Nat.zero_lt_of_lt hfuel)
        rw [myStrcmp, if_pos hchar, if_neg (mt asChar_inj.1 hxy)]
      · cases b with
        | nil =>
          obtain ⟨heq, hlt, hgt⟩ := byteDifference_sign hp (stringAt_nil.1 hb)
          have hpos := pos_of_ne_zero hx
          refine ⟨heq.trans ?_, hlt.trans ?_, hgt.trans ?_⟩
          · exact iff_of_false hx (by simp)
          · exact iff_of_false (UInt8.lt_asymm hpos) not_before_nil
          · exact iff_of_true hpos (before_nil.2 (List.cons_ne_nil x a))
        | cons y b =>
          obtain ⟨-, hq, -⟩ := stringAt_cons.1 hb
          rw [hp, hq] at hxy
          obtain ⟨heq, hlt, hgt⟩ := byteDifference_sign hp hq
          refine ⟨heq.trans ?_, hlt.trans ?_, hgt.trans ?_⟩
          · exact iff_of_false hxy fun h => hxy (List.cons.inj h).1
          · rw [before_cons, or_iff_left fun h => hxy h.1]
          · rw [before_cons, or_iff_left fun h => hxy h.1.symm]

/-! ### The order -/

/-- Some call of `my_strcmp` on the strings `a` and `b` returns `r`. -/
def Compared (a b : List UInt8) (r : Int) : Prop :=
  ∃ m p q reads, StringAt m p a ∧ StringAt m q b ∧
    Returns (fun fuel => myStrcmp m fuel p q) (r, reads)

theorem Compared.agrees {r : Int} (h : Compared a b r) : Agrees r a b := by
  obtain ⟨m, p, q, reads, ha, hb, hret⟩ := h
  obtain ⟨r', reads', hrun, -, hagrees⟩ := myStrcmp_spec ha hb
  have hret' : Returns (fun fuel => myStrcmp m fuel p q) (r', reads') := ⟨a.length + 1, hrun⟩
  rw [(Prod.mk.inj (hret.unique hret')).1]
  exact hagrees

theorem Agrees.le_iff {r : Int} (h : Agrees r a b) : r ≤ 0 ↔ ¬ b < a := by
  rw [← before_iff_lt, ← h.pos_iff, Int.not_lt]

/-- Opposite comparisons have opposite signs. -/
theorem Agrees.sign_eq {r r' : Int} (h : Agrees r a b) (h' : Agrees r' b a) :
    r.sign = -r'.sign := by
  have hneg := h.neg_iff.trans h'.pos_iff.symm
  have hpos := h.pos_iff.trans h'.neg_iff.symm
  rcases Int.lt_trichotomy r 0 with hr | rfl | hr
  · rw [Int.sign_eq_neg_one_of_neg hr, Int.sign_eq_one_of_pos (hneg.1 hr)]
  · have hzero : r' = 0 := by omega
    rw [hzero]
    rfl
  · rw [Int.sign_eq_one_of_pos hr, Int.sign_eq_neg_one_of_neg (hpos.1 hr)]
    rfl

/-- **`my_strcmp` is the lexicographic order of unsigned bytes.**  On NUL-terminated strings
anywhere in memory it ends, reads neither past its terminator, and returns a value whose sign is
their comparison; so comparing strings with it is antisymmetric, total and transitive. -/
theorem myStrcmp_total_order :
    (∀ m p q a b, StringAt m p a → StringAt m q b → ∃ r reads,
      Returns (fun fuel => myStrcmp m fuel p q) (r, reads) ∧
      (∀ read ∈ reads, read.Within p q a.length b.length) ∧
      (r = 0 ↔ a = b) ∧ (r < 0 ↔ Before a b) ∧ (0 < r ↔ Before b a)) ∧
    (∀ a b r r', Compared a b r → Compared b a r' →
      r.sign = -r'.sign ∧ (r ≤ 0 ∨ r' ≤ 0) ∧ (r ≤ 0 → r' ≤ 0 → a = b)) ∧
    ∀ a b c r r' r'', Compared a b r → Compared b c r' → Compared a c r'' →
      r ≤ 0 → r' ≤ 0 → r'' ≤ 0 := by
  refine ⟨fun m p q a b ha hb => ?_, fun a b r r' hr hr' => ?_,
    fun a b c r r' r'' hr hr' hr'' hle hle' => ?_⟩
  · obtain ⟨r, reads, hrun, hwithin, heq, hlt, hgt⟩ := myStrcmp_spec ha hb
    exact ⟨r, reads, ⟨a.length + 1, hrun⟩, hwithin, heq, hlt, hgt⟩
  · have hsign := hr.agrees.sign_eq hr'.agrees
    have hswap := hr.agrees.pos_iff.trans hr'.agrees.neg_iff.symm
    refine ⟨hsign, by omega, fun hle hle' => hr.agrees.eq_iff.1 ?_⟩
    have hback := hr.agrees.neg_iff.trans hr'.agrees.pos_iff.symm
    omega
  · rw [hr''.agrees.le_iff]
    exact List.le_trans (hr.agrees.le_iff.1 hle) (hr'.agrees.le_iff.1 hle')

end CString

end CAcheRein
