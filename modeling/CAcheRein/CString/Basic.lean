import CAcheRein.Memory.Flat
import CAcheRein.Transition.Machine
import Mathlib.Algebra.Ring.Int.Defs

/-!
# The string functions

The string and memory functions of `module2-pointers-memory/ex04-string-functions`, and the
`my_strcpy` of `module1-foundations/ex04-arrays-and-strings`, which walks with an index where the
other walks with pointers.  A `char` is signed.  A loop that looks for a NUL byte is run with fuel,
one unit for each evaluation of its condition.  Pointers and indices are unbounded; `M2.myStrlen`
(`Compose.lean`) is `my_strlen` with the `int` that it counts in.

## Main definitions

* `myMemcpy`, `myStrlen`, `myStrcmp`, `M1.myStrcpy`, `M2.myStrcpy` : the source.
* `StringAt` : a NUL-terminated string in memory.
-/

namespace CAcheRein

namespace CString

/-- A byte read through a `char *`. -/
def asChar (b : UInt8) : Int8 := b.toInt8

/-- `my_memcpy`. -/
def myMemcpy (m : Memory) (dst src n : ℕ) : Memory :=
  (List.range n).foldl (fun m i => m.store (dst + i) (m (src + i))) m

/-- The loop of `my_strlen`. -/
def strlenLoop (m : Memory) (str : ℕ) : ℕ → ℕ → Option ℕ
  | 0, _ => none
  | fuel + 1, len =>
    if asChar (m (str + len)) ≠ 0 then strlenLoop m str fuel (len + 1) else some len

/-- `my_strlen`, the same in both modules. -/
def myStrlen (m : Memory) (fuel str : ℕ) : Option ℕ := strlenLoop m str fuel 0

/-- A read through one of the pointers of `my_strcmp`. -/
inductive Read where
  | fst (a : ℕ)
  | snd (a : ℕ)
  deriving DecidableEq

/-- The value returned by `my_strcmp`, a difference of unsigned bytes. -/
def byteDifference (m : Memory) (s1 s2 : ℕ) : Int := (m s1).toNat - (m s2).toNat

/-- `my_strcmp`: the value returned and the reads made, in order. -/
def myStrcmp (m : Memory) : ℕ → ℕ → ℕ → Option (Int × List Read)
  | 0, _, _ => none
  | fuel + 1, s1, s2 =>
    if asChar (m s1) ≠ 0 then
      if asChar (m s1) = asChar (m s2) then do
        let (r, reads) ← myStrcmp m fuel (s1 + 1) (s2 + 1)
        some (r, [.fst s1, .fst s1, .snd s2] ++ reads)
      else some (byteDifference m s1 s2, [.fst s1, .fst s1, .snd s2, .fst s1, .snd s2])
    -- `&&` does not look at the second string if the first has ended
    else some (byteDifference m s1 s2, [.fst s1, .fst s1, .snd s2])

namespace M1

/-- The loop of the index-based `my_strcpy`: the memory and `i` at its end. -/
def strcpyLoop (dst src : ℕ) : ℕ → Memory → ℕ → Option (Memory × ℕ)
  | 0, _, _ => none
  | fuel + 1, m, i =>
    if asChar (m (src + i)) ≠ 0 then
      strcpyLoop dst src fuel (m.store (dst + i) (m (src + i))) (i + 1)
    else some (m, i)

/-- `my_strcpy` of `module1-foundations`. -/
def myStrcpy (fuel : ℕ) (m : Memory) (dst src : ℕ) : Option Memory := do
  let (m, i) ← strcpyLoop dst src fuel m 0
  some (m.store (dst + i) 0)

end M1

namespace M2

/-- The loop of the pointer-walking `my_strcpy`: the memory and `dst` at its end. -/
def strcpyLoop : ℕ → Memory → ℕ → ℕ → Option (Memory × ℕ)
  | 0, _, _, _ => none
  | fuel + 1, m, dst, src =>
    if asChar (m src) ≠ 0 then strcpyLoop fuel (m.store dst (m src)) (dst + 1) (src + 1)
    else some (m, dst)

/-- `my_strcpy` of `module2-pointers-memory`: the memory and the pointer returned. -/
def myStrcpy (fuel : ℕ) (m : Memory) (dst src : ℕ) : Option (Memory × ℕ) := do
  let start := dst
  let (m, dst) ← strcpyLoop fuel m dst src
  some (m.store dst 0, start)

end M2

/-- The bytes `bs` and a NUL behind them, at `p`. -/
structure StringAt (m : Memory) (p : ℕ) (bs : List UInt8) : Prop where
  nonzero : ∀ b ∈ bs, b ≠ 0
  bytes : ∀ i (h : i < bs.length), m (p + i) = bs[i]
  terminator : m (p + bs.length) = 0

/-! ### Characters and strings -/

variable {m m' : Memory} {p k : ℕ} {b : UInt8} {bs : List UInt8}

theorem asChar_inj {b c : UInt8} : asChar b = asChar c ↔ b = c := by
  refine ⟨fun h => ?_, congrArg asChar⟩
  have hback := congrArg Int8.toUInt8 h
  rwa [asChar, asChar, UInt8.toUInt8_toInt8, UInt8.toUInt8_toInt8] at hback

theorem asChar_ne_zero_iff : asChar b ≠ 0 ↔ b ≠ 0 := not_congr (asChar_inj (c := 0))

theorem stringAt_nil : StringAt m p [] ↔ m p = 0 :=
  ⟨fun h => h.terminator, fun h => ⟨fun _ hb => (nomatch hb), fun _ hi => absurd hi (by simp), h⟩⟩

/-- The first byte and the string behind it. -/
theorem stringAt_cons : StringAt m p (b :: bs) ↔ b ≠ 0 ∧ m p = b ∧ StringAt m (p + 1) bs := by
  have hnext : ∀ i, p + (i + 1) = p + 1 + i := fun i => by omega
  constructor
  · rintro ⟨hne, hbytes, hnul⟩
    refine ⟨hne b List.mem_cons_self, hbytes 0 (Nat.succ_pos _),
      fun x hx => hne x (List.mem_cons_of_mem _ hx), fun i hi => ?_, ?_⟩
    · rw [← hnext]
      exact hbytes (i + 1) (Nat.succ_lt_succ hi)
    · rw [← hnext]
      exact hnul
  · rintro ⟨hb, hfirst, hne, hbytes, hnul⟩
    refine ⟨fun x hx => ?_, fun i hi => ?_, ?_⟩
    · rcases List.mem_cons.1 hx with rfl | hx
      · exact hb
      · exact hne x hx
    · cases i with
      | zero => exact hfirst
      | succ i =>
        rw [hnext]
        exact hbytes i (Nat.lt_of_succ_lt_succ hi)
    · rw [List.length_cons, hnext]
      exact hnul

/-- The bytes of a string are not NUL. -/
theorem StringAt.ne_zero (h : StringAt m p bs) {i : ℕ} (hi : i < bs.length) : m (p + i) ≠ 0 := by
  rw [h.bytes i hi]
  exact h.nonzero _ (List.getElem_mem hi)

/-- `my_strlen` counts the bytes in front of the first NUL. -/
theorem strlenLoop_eq (hne : ∀ i < k, m (p + i) ≠ 0) (hnul : m (p + k) = 0) {fuel i : ℕ}
    (hi : i ≤ k) (hfuel : k - i < fuel) : strlenLoop m p fuel i = some k := by
  induction fuel generalizing i with
  | zero => exact absurd hfuel (Nat.not_lt_zero _)
  | succ fuel ih =>
    rw [strlenLoop]
    rcases Nat.lt_or_eq_of_le hi with hlt | rfl
    · rw [if_pos (asChar_ne_zero_iff.2 (hne i hlt))]
      exact ih hlt (by omega)
    · rw [if_neg (mt asChar_ne_zero_iff.1 (not_not.2 hnul))]

end CString

end CAcheRein
