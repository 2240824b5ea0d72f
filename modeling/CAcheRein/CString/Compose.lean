import CAcheRein.Bits.Checked
import CAcheRein.CString.Compare
import CAcheRein.CString.Copy

/-!
# The string functions together

In `module2-pointers-memory/ex04-string-functions` a string is copied by `my_strcpy`, by `my_memcpy`
of one byte more than its length, or by `my_memcpy` of just its bytes onto a block that `my_memset`
has cleared.  `copies_agree` : the first two are the same, and no call of `my_strlen` or `my_strcmp`
can tell any of the copies from the original.

`my_strlen` counts in an `int`, so it is defined up to `2 ^ 31 - 1` bytes (`M2.myStrlen`).
-/

namespace CAcheRein

namespace CString

variable {m m' : Memory} {p p' q dst src n i : ℕ} {bs cs a b : List UInt8} {v : UInt8}

/-- `my_memset`. -/
def myMemset (m : Memory) (ptr : ℕ) (value : UInt8) (n : ℕ) : Memory :=
  (List.range n).foldl (fun m i => m.store (ptr + i) value) m

/-- **`my_memset`** fills its block and nothing else. -/
theorem myMemset_apply (m : Memory) (p : ℕ) (v : UInt8) (n x : ℕ) :
    myMemset m p v n x = if p ≤ x ∧ x < p + n then v else m x := by
  induction n with
  | zero => exact (if_neg (by omega)).symm
  | succ n ih =>
    have hstep : myMemset m p v (n + 1) = (myMemset m p v n).store (p + n) v := by
      rw [myMemset, List.range_succ, List.foldl_append]
      rfl
    rw [hstep]
    by_cases hx : x = p + n
    · rw [hx, Memory.store_self, if_pos (by omega)]
    · rw [Memory.store_of_ne hx, ih]
      exact if_congr (by omega) rfl rfl

/-! ### What `my_strlen` returns -/

namespace M2

/-- The loop of `my_strlen`, with its `int`. -/
def strlenLoop (m : Memory) (str : ℕ) : ℕ → Int32 → Option Int32
  | 0, _ => none
  | fuel + 1, len =>
    if asChar (m (str + len.toInt.toNat)) ≠ 0 then do
      let len ← checked (len.toInt + 1)
      strlenLoop m str fuel len
    else some len

/-- `my_strlen`; it has no result where `len++` overflows. -/
def myStrlen (m : Memory) (fuel str : ℕ) : Option Int32 := strlenLoop m str fuel 0

end M2

/-- From the `i`-th byte on. -/
theorem strlenLoop_of_stringAt (h : StringAt m p bs) (hbs : bs.length < 2 ^ 31) {fuel : ℕ}
    {len : Int32} (hlen : len.toInt = i) (hi : i ≤ bs.length) (hfuel : bs.length - i < fuel) :
    ∃ r, M2.strlenLoop m p fuel len = some r ∧ r.toInt = bs.length := by
  induction fuel generalizing i len with
  | zero => exact absurd hfuel (Nat.not_lt_zero _)
  | succ fuel ih =>
    have hplace : len.toInt.toNat = i := by omega
    rw [M2.strlenLoop, hplace]
    rcases Nat.lt_or_eq_of_le hi with hlt | rfl
    · obtain ⟨next, hnext, hvalue⟩ := exists_checked (z := len.toInt + 1) ⟨by omega, by omega⟩
      rw [if_pos (asChar_ne_zero_iff.2 (h.ne_zero hlt)), hnext]
      exact ih (i := i + 1) (by omega) hlt (by omega)
    · exact ⟨len, if_neg (mt asChar_ne_zero_iff.1 (not_not.2 h.terminator)), hlen⟩

/-- **`my_strlen` returns the length**, if an `int` can hold it. -/
theorem StringAt.strlen (h : StringAt m p bs) (hbs : bs.length < 2 ^ 31) {fuel : ℕ}
    (hfuel : bs.length < fuel) : ∃ r, M2.myStrlen m fuel p = some r ∧ r.toInt = bs.length :=
  strlenLoop_of_stringAt h hbs rfl (Nat.zero_le _) hfuel

/-! ### What `my_strcmp` returns -/

/-- The first difference of two strings. -/
def difference : List UInt8 → List UInt8 → Int
  | [], [] => 0
  | [], y :: _ => -y.toNat
  | x :: _, [] => x.toNat
  | x :: a, y :: b => if x = y then difference a b else x.toNat - y.toNat

theorem difference_self (a : List UInt8) : difference a a = 0 := by
  induction a with
  | nil => rfl
  | cons x a ih => rw [difference, if_pos rfl, ih]

/-- **`my_strcmp` returns the first difference**, of any two strings in memory. -/
theorem myStrcmp_value (ha : StringAt m p a) (hb : StringAt m q b) {fuel : ℕ}
    (hfuel : a.length < fuel) : (myStrcmp m fuel p q).map Prod.fst = some (difference a b) := by
  induction a generalizing p q b fuel with
  | nil =>
    have hp := stringAt_nil.1 ha
    obtain ⟨f, rfl⟩ := Nat.exists_eq_add_one.2 hfuel
    rw [myStrcmp, if_neg (mt asChar_ne_zero_iff.1 (not_not.2 hp)), Option.map_some]
    cases b with
    | nil =>
      rw [byteDifference, hp, stringAt_nil.1 hb]
      rfl
    | cons y b =>
      rw [byteDifference, hp, (stringAt_cons.1 hb).2.1]
      exact congrArg some (Int.zero_sub _)
  | cons x a ih =>
    obtain ⟨hx, hp, ha'⟩ := stringAt_cons.1 ha
    obtain ⟨f, rfl⟩ := Nat.exists_eq_add_one.2 (Nat.zero_lt_of_lt hfuel)
    have hchar : asChar (m p) ≠ 0 := asChar_ne_zero_iff.2 (by rwa [hp])
    rw [myStrcmp, if_pos hchar]
    by_cases hxy : m p = m q
    · rw [if_pos (asChar_inj.2 hxy)]
      cases b with
      | nil => exact absurd (hp.symm.trans (hxy.trans (stringAt_nil.1 hb))) hx
      | cons y b =>
        obtain ⟨-, hq, hb'⟩ := stringAt_cons.1 hb
        obtain rfl : x = y := hp.symm.trans (hxy.trans hq)
        have hrest := ih ha' hb' (Nat.lt_of_succ_lt_succ hfuel)
        rw [difference, if_pos rfl, ← hrest]
        cases myStrcmp m f (p + 1) (q + 1) <;> rfl
    · rw [if_neg (mt asChar_inj.1 hxy), Option.map_some]
      cases b with
      | nil =>
        rw [byteDifference, hp, stringAt_nil.1 hb]
        exact congrArg some (Int.sub_zero _)
      | cons y b =>
        have hq := (stringAt_cons.1 hb).2.1
        rw [hp, hq] at hxy
        rw [byteDifference, hp, hq, difference, if_neg hxy]

/-! ### Copies -/

/-- A string stays where its bytes stay. -/
theorem StringAt.of_eq (h : StringAt m p bs) (heq : ∀ i ≤ bs.length, m' (p' + i) = m (p + i)) :
    StringAt m' p' bs :=
  ⟨h.nonzero, fun i hi => (heq i (Nat.le_of_lt hi)).trans (h.bytes i hi),
    (heq _ (Nat.le_refl _)).trans h.terminator⟩

/-- **A string is copied with `my_memcpy` of its length and one.** -/
theorem myStrcpy_eq_myMemcpy (hs : StringAt m src bs) (hsep : dst ≤ src ∨ src + bs.length < dst)
    (fuel : ℕ) : M2.myStrcpy fuel m dst src =
      if bs.length < fuel then some (myMemcpy m dst src (bs.length + 1), dst) else none := by
  have hsource : ∀ i ≤ bs.length, copySource dst src i = src + i := fun i hi =>
    copySource_of_disjoint (hsep.imp id fun h => by omega)
  have hne : ∀ i < bs.length, m (copySource dst src i) ≠ 0 := fun i hi => by
    rw [hsource i (Nat.le_of_lt hi)]
    exact hs.ne_zero hi
  have hnul : m (copySource dst src bs.length) = 0 := by
    rw [hsource _ (Nat.le_refl _)]
    exact hs.terminator
  split_ifs with hfuel
  · have hlast : m.copied dst src bs.length (src + bs.length) = 0 := by
      rw [Memory.copied_next, hnul]
    rw [myStrcpy_eq, myStrcpy_eq_some hne hnul hfuel, myMemcpy_eq_copied, Memory.copied_succ,
      hlast]
    rfl
  · rw [myStrcpy_eq, myStrcpy_eq_none fun i hi => hne i (by omega)]
    rfl

/-- Nothing that a reader of strings can see sets the string of `len` bytes at `dst` in `m'` apart
from the one at `src` in `m`: `my_strlen`, as far as its `int` goes, and `my_strcmp` with any string
outside the block of `n` bytes at `dst`. -/
structure LooksLike (m : Memory) (src : ℕ) (m' : Memory) (dst n : ℕ) (len : ℕ) : Prop where
  strlen : len < 2 ^ 31 → ∀ fuel, len < fuel → ∃ r : Int32, r.toInt = len ∧
    M2.myStrlen m' fuel dst = some r ∧ M2.myStrlen m fuel src = some r
  original : ∀ fuel, len < fuel → (myStrcmp m' fuel dst src).map Prod.fst = some 0
  strcmp : ∀ q cs, StringAt m q cs → q + cs.length < dst ∨ dst + n ≤ q → ∀ fuel,
    len < fuel → cs.length < fuel →
      (myStrcmp m' fuel dst q).map Prod.fst = (myStrcmp m fuel src q).map Prod.fst ∧
      (myStrcmp m' fuel q dst).map Prod.fst = (myStrcmp m fuel q src).map Prod.fst

/-- A block apart from the string that gets it, and changes nothing else. -/
theorem looksLike_of_copied (hs : StringAt m src bs)
    (hapart : dst + n ≤ src ∨ src + bs.length < dst)
    (hdst : StringAt m' dst bs) (hframe : ∀ x, x < dst ∨ dst + n ≤ x → m' x = m x) :
    LooksLike m src m' dst n bs.length := by
  have hkeep : ∀ q cs, StringAt m q cs → q + cs.length < dst ∨ dst + n ≤ q → StringAt m' q cs :=
    fun q cs hq hout => hq.of_eq fun i hi => hframe _ (by omega)
  have hsrc : StringAt m' src bs := hkeep src bs hs hapart.symm
  refine ⟨fun hlen fuel hfuel => ?_, fun fuel hfuel => ?_,
    fun q cs hq hout fuel hfuel hfuel' => ?_⟩
  · obtain ⟨r, hr, hvalue⟩ := hdst.strlen hlen hfuel
    obtain ⟨r', hr', hvalue'⟩ := hs.strlen hlen hfuel
    obtain rfl := Int32.toInt_inj.1 (hvalue'.trans hvalue.symm)
    exact ⟨r', hvalue, hr, hr'⟩
  · rw [myStrcmp_value hdst hsrc hfuel, difference_self]
  · have hq' := hkeep q cs hq hout
    rw [myStrcmp_value hdst hq' hfuel, myStrcmp_value hs hq hfuel,
      myStrcmp_value hq' hdst hfuel', myStrcmp_value hq hs hfuel']
    exact ⟨rfl, rfl⟩

/-- A plain copy. -/
theorem myMemcpy_apply (hsep : dst ≤ src ∨ src + n ≤ dst) (hi : i < n) :
    myMemcpy m dst src n (dst + i) = m (src + i) := by
  rw [myMemcpy_eq_copied, Memory.copied_dst hi,
    copySource_of_disjoint (hsep.imp id fun h => by omega)]

theorem myMemcpy_outside {x : ℕ} (hx : x < dst ∨ dst + n ≤ x) : myMemcpy m dst src n x = m x := by
  rw [myMemcpy_eq_copied, Memory.copied_of_outside hx]

/-- **Three ways to copy a string**, of any length.  To a place that is not inside the string,
`my_strcpy` is `my_memcpy` of its length and one, and returns that place.  Into a block of `n` bytes
that is apart from the string and has room for it, this, and `my_memcpy` of the length after
`my_memset` with NULs, leave a string that `my_strlen`, up to `2 ^ 31 - 1` bytes, and `my_strcmp`
cannot tell from the original. -/
theorem copies_agree (m : Memory) (dst src : ℕ) (bs : List UInt8) (hs : StringAt m src bs) :
    (dst ≤ src ∨ src + bs.length < dst → ∀ fuel, M2.myStrcpy fuel m dst src =
      if bs.length < fuel then some (myMemcpy m dst src (bs.length + 1), dst) else none) ∧
    ∀ n, bs.length < n → dst + n ≤ src ∨ src + bs.length < dst →
      LooksLike m src (myMemcpy m dst src (bs.length + 1)) dst n bs.length ∧
      LooksLike m src (myMemcpy (myMemset m dst 0 n) dst src bs.length) dst n bs.length := by
  refine ⟨fun hsep fuel => myStrcpy_eq_myMemcpy hs hsep fuel, fun n hn hapart => ⟨?_, ?_⟩⟩
  · refine looksLike_of_copied hs hapart (hs.of_eq fun i hi => ?_) fun x hx => ?_
    · exact myMemcpy_apply (by omega) (by omega)
    · exact myMemcpy_outside (by omega)
  · have hcleared : ∀ i, i < bs.length → myMemset m dst 0 n (src + i) = m (src + i) := by
      intro i hi
      rw [myMemset_apply, if_neg (by omega)]
    refine looksLike_of_copied hs hapart ⟨hs.nonzero, fun i hi => ?_, ?_⟩ fun x hx => ?_
    · rw [myMemcpy_apply (by omega) hi, hcleared i hi]
      exact hs.bytes i hi
    · rw [myMemcpy_outside (by omega), myMemset_apply, if_pos (by omega)]
    · rw [myMemcpy_outside (by omega), myMemset_apply, if_neg (by omega)]

/-- Two bytes, copied behind themselves. -/
theorem copies_agree_two_bytes :
    let m : Memory := fun x => if x = 10 then 97 else if x = 11 then 98 else 0
    M2.myStrcpy 3 m 20 10 = some (myMemcpy m 20 10 3, 20) ∧
      LooksLike m 10 (myMemcpy (myMemset m 20 0 8) 20 10 2) 20 8 2 := by
  intro m
  have hs : StringAt m 10 [97, 98] :=
    stringAt_cons.2 ⟨by decide, rfl, stringAt_cons.2 ⟨by decide, rfl, stringAt_nil.2 rfl⟩⟩
  obtain ⟨hcopy, hlooks⟩ := copies_agree m 20 10 [97, 98] hs
  exact ⟨hcopy (.inr (by decide)) 3, (hlooks 8 (by decide) (.inr (by decide))).2⟩

end CString

end CAcheRein
