import CAcheRein.CString.Basic

/-!
# Copying, also onto itself

`my_memcpy` and both versions of `my_strcpy` copy byte by byte in ascending order, so what they do
is `Memory.copied`, also where the destination overlaps the source.  Ahead of the source the copy
repeats the bytes in between (`myMemcpy_bytes`); a string copied there overwrites its own
terminator, and the loop never meets another (`myStrcpy_versions`).
-/

namespace CAcheRein

namespace CString

variable {m : Memory} {dst src i k n : ℕ} {bs : List UInt8}

/-! ### `my_memcpy` -/

theorem myMemcpy_eq_copied (m : Memory) (dst src n : ℕ) :
    myMemcpy m dst src n = m.copied dst src n := by
  induction n with
  | zero => rfl
  | succ n ih =>
    rw [myMemcpy, List.range_succ, List.foldl_append]
    change (myMemcpy m dst src n).store (dst + n) (myMemcpy m dst src n (src + n)) = _
    rw [ih]
    rfl

/-- A copy that is no plain copy: a single byte that is different at the source. -/
theorem exists_ne_of_overlap (hlo : src < dst) (hhi : dst < src + n) :
    ∃ m, ∃ i < n, myMemcpy m dst src n (dst + i) ≠ m (src + i) := by
  refine ⟨fun a => if a = src then 1 else 0, dst - src, by omega, ?_⟩
  have hsource : copySource dst src (dst - src) = src := by
    rw [copySource, if_neg (Nat.not_le_of_lt hlo), Nat.mod_self, Nat.add_zero]
  have hne : src + (dst - src) ≠ src := by omega
  rw [myMemcpy_eq_copied, Memory.copied_dst (by omega), hsource]
  dsimp only
  rw [if_pos rfl, if_neg hne]
  decide

/-- **`my_memcpy` on a flat memory**, whether or not the blocks overlap.  A block that starts at
or below its source is copied as it was; ahead of it, the first `dst - src` bytes are repeated; and
nothing else changes.  So it is a plain copy of every memory exactly if the destination does not
start inside the source, behind its first byte. -/
theorem myMemcpy_bytes (dst src n : ℕ) :
    (∀ m : Memory,
      (∀ i < n, myMemcpy m dst src n (dst + i) =
        if dst ≤ src then m (src + i) else m (src + i % (dst - src))) ∧
      ∀ a, a < dst ∨ dst + n ≤ a → myMemcpy m dst src n a = m a) ∧
    ((∀ m : Memory, ∀ i < n, myMemcpy m dst src n (dst + i) = m (src + i)) ↔
      dst ≤ src ∨ src + n ≤ dst) := by
  have hdst : ∀ m : Memory, ∀ i < n, myMemcpy m dst src n (dst + i) = m (copySource dst src i) :=
    fun m i hi => by rw [myMemcpy_eq_copied, Memory.copied_dst hi]
  refine ⟨fun m => ⟨fun i hi => ?_, fun a ha => ?_⟩, fun hplain => ?_, fun hsep m i hi => ?_⟩
  · rw [hdst m i hi, copySource, apply_ite m]
  · rw [myMemcpy_eq_copied, Memory.copied_of_outside ha]
  · by_contra hover
    rw [not_or, Nat.not_le, Nat.not_le] at hover
    obtain ⟨m, i, hi, hne⟩ := exists_ne_of_overlap hover.1 hover.2
    exact hne (hplain m i hi)
  · rw [hdst m i hi, copySource_of_disjoint (hsep.imp id fun h => by omega)]

/-! ### `my_strcpy` -/

/-- The two loops do the same. -/
theorem strcpyLoop_eq (dst src fuel : ℕ) (m : Memory) (i : ℕ) :
    M2.strcpyLoop fuel m (dst + i) (src + i) =
      (M1.strcpyLoop dst src fuel m i).map fun s => (s.1, dst + s.2) := by
  induction fuel generalizing m i with
  | zero => rfl
  | succ fuel ih =>
    rw [M2.strcpyLoop, M1.strcpyLoop]
    split_ifs
    · exact ih _ (i + 1)
    · rfl

/-- **The two versions of `my_strcpy` do the same**, with the same number of iterations. -/
theorem myStrcpy_eq (fuel : ℕ) (m : Memory) (dst src : ℕ) :
    M2.myStrcpy fuel m dst src = (M1.myStrcpy fuel m dst src).map fun m' => (m', dst) := by
  have hloop := strcpyLoop_eq dst src fuel m 0
  rw [Nat.add_zero, Nat.add_zero] at hloop
  rw [M2.myStrcpy, M1.myStrcpy, hloop]
  cases M1.strcpyLoop dst src fuel m 0 with
  | none => rfl
  | some s => rfl

/-- As long as no NUL is met, an iteration copies one byte. -/
theorem strcpyLoop_add (fuel : ℕ) (hne : ∀ i < k, m (copySource dst src i) ≠ 0) :
    M1.strcpyLoop dst src (fuel + k) m 0 =
      M1.strcpyLoop dst src fuel (m.copied dst src k) k := by
  induction k generalizing fuel with
  | zero => rfl
  | succ k ih =>
    have hbyte : asChar (m.copied dst src k (src + k)) ≠ 0 := by
      rw [asChar_ne_zero_iff, Memory.copied_next]
      exact hne k (Nat.lt_succ_self k)
    rw [show fuel + (k + 1) = fuel + 1 + k by omega,
      ih (fuel + 1) fun i hi => hne i (Nat.lt_succ_of_lt hi), M1.strcpyLoop, if_pos hbyte]
    rfl

/-- Without fuel for the first NUL there is no result. -/
theorem strcpyLoop_eq_none {fuel : ℕ} (hne : ∀ i < fuel, m (copySource dst src i) ≠ 0) :
    M1.strcpyLoop dst src fuel m 0 = none := by
  have hrun := strcpyLoop_add 0 hne
  rw [Nat.zero_add] at hrun
  rw [hrun]
  rfl

theorem myStrcpy_eq_none {fuel : ℕ} (hne : ∀ i < fuel, m (copySource dst src i) ≠ 0) :
    M1.myStrcpy fuel m dst src = none := by
  rw [M1.myStrcpy, strcpyLoop_eq_none hne]
  rfl

/-- The memory after a string of `k` bytes was copied, with its NUL. -/
def stringCopied (m : Memory) (dst src k : ℕ) : Memory := (m.copied dst src k).store (dst + k) 0

/-- With it, the bytes in front of the NUL are copied, and a NUL is put behind them. -/
theorem myStrcpy_eq_some (hne : ∀ i < k, m (copySource dst src i) ≠ 0)
    (hnul : m (copySource dst src k) = 0) {fuel : ℕ} (hfuel : k < fuel) :
    M1.myStrcpy fuel m dst src = some (stringCopied m dst src k) := by
  obtain ⟨f, rfl⟩ : ∃ f, fuel = f + 1 + k := ⟨fuel - k - 1, by omega⟩
  have hend : ¬ asChar (m.copied dst src k (src + k)) ≠ 0 := by
    rw [asChar_ne_zero_iff, Memory.copied_next, not_not]
    exact hnul
  rw [M1.myStrcpy, strcpyLoop_add (f + 1) hne, M1.strcpyLoop, if_neg hend]
  rfl

/-- What the copy of a string leaves, if it does not run into itself. -/
theorem stringCopied_bytes (hs : StringAt m src bs) (hsep : dst ≤ src ∨ src + bs.length < dst) :
    (∀ i ≤ bs.length, stringCopied m dst src bs.length (dst + i) = m (src + i)) ∧
      ∀ a, a < dst ∨ dst + bs.length < a → stringCopied m dst src bs.length a = m a := by
  unfold stringCopied
  refine ⟨fun i hi => ?_, fun a ha => ?_⟩
  · rcases Nat.lt_or_eq_of_le hi with hlt | rfl
    · rw [Memory.store_of_ne (by omega), Memory.copied_dst hlt,
        copySource_of_disjoint (hsep.imp id fun h => by omega)]
    · rw [Memory.store_self, hs.terminator]
  · rw [Memory.store_of_ne (by omega), Memory.copied_of_outside (by omega)]

/-- A string copied into itself, ahead of its start, is copied from in front of its NUL forever. -/
theorem copySource_ne_zero (hs : StringAt m src bs) (hlo : src < dst)
    (hhi : dst ≤ src + bs.length) (i : ℕ) : m (copySource dst src i) ≠ 0 := by
  rw [copySource, if_neg (Nat.not_le_of_lt hlo)]
  have hmod : i % (dst - src) < dst - src := Nat.mod_lt i (by omega)
  exact hs.ne_zero (by omega)

/-- **The two versions of `my_strcpy`**, on a string of any length and any destination.  They do
the same.  A destination below the string or behind it gets the string, after one iteration per
byte; one inside it has the terminator overwritten before it is read, and no iteration ever meets
a NUL byte. -/
theorem myStrcpy_versions (m : Memory) (dst src : ℕ) (bs : List UInt8) (hs : StringAt m src bs) :
    (∀ fuel, M2.myStrcpy fuel m dst src =
      (M1.myStrcpy fuel m dst src).map fun m' => (m', dst)) ∧
    (dst ≤ src ∨ src + bs.length < dst → ∃ m' : Memory,
      (∀ fuel, M1.myStrcpy fuel m dst src = if bs.length < fuel then some m' else none) ∧
      (∀ i ≤ bs.length, m' (dst + i) = m (src + i)) ∧
      (∀ a, a < dst ∨ dst + bs.length < a → m' a = m a) ∧
      ∀ fuel, bs.length < fuel → myStrlen m' fuel dst = some bs.length) ∧
    (src < dst → dst ≤ src + bs.length →
      (∀ fuel, M1.myStrcpy fuel m dst src = none) ∧
      (∀ k fuel, M1.strcpyLoop dst src (fuel + k) m 0 =
          M1.strcpyLoop dst src fuel (m.copied dst src k) k ∧
        M2.strcpyLoop (fuel + k) m dst src =
          M2.strcpyLoop fuel (m.copied dst src k) (dst + k) (src + k) ∧
        m.copied dst src k (src + k) ≠ 0) ∧
      ∃ k < bs.length, dst + k = src + bs.length ∧
        m.copied dst src (k + 1) (src + bs.length) ≠ 0) := by
  refine ⟨fun fuel => myStrcpy_eq fuel m dst src, fun hsep => ?_, fun hlo hhi => ?_⟩
  · -- apart, or onto itself: every byte is read before it is overwritten
    obtain ⟨hbytes, hframe⟩ := stringCopied_bytes hs hsep
    have hsource : ∀ i ≤ bs.length, copySource dst src i = src + i := fun i hi =>
      copySource_of_disjoint (hsep.imp id fun h => by omega)
    have hne : ∀ i < bs.length, m (copySource dst src i) ≠ 0 := fun i hi => by
      rw [hsource i (Nat.le_of_lt hi)]
      exact hs.ne_zero hi
    have hnul : m (copySource dst src bs.length) = 0 := by
      rw [hsource _ le_rfl]
      exact hs.terminator
    refine ⟨_, fun fuel => ?_, hbytes, hframe, fun fuel hfuel => ?_⟩
    · split_ifs with hfuel
      · exact myStrcpy_eq_some hne hnul hfuel
      · exact myStrcpy_eq_none fun i hi => hne i (by omega)
    · refine strlenLoop_eq (fun i hi => ?_) ?_ (Nat.zero_le _) hfuel
      · rw [hbytes i (Nat.le_of_lt hi)]
        exact hs.ne_zero hi
      · rw [hbytes _ le_rfl]
        exact hs.terminator
  · -- inside: what is read next was copied from the string, and no byte of that is NUL
    have hne := copySource_ne_zero hs hlo hhi
    have hrun : ∀ k fuel, M1.strcpyLoop dst src (fuel + k) m 0 =
        M1.strcpyLoop dst src fuel (m.copied dst src k) k := fun k fuel =>
      strcpyLoop_add fuel fun i _ => hne i
    refine ⟨fun fuel => myStrcpy_eq_none fun i _ => hne i, fun k fuel => ⟨hrun k fuel, ?_, ?_⟩,
      src + bs.length - dst, by omega, by omega, ?_⟩
    · have hstart := strcpyLoop_eq dst src (fuel + k) m 0
      rw [hrun k fuel, ← strcpyLoop_eq] at hstart
      exact hstart
    · rw [Memory.copied_next]
      exact hne k
    · have hplace : src + bs.length = dst + (src + bs.length - dst) := by omega
      rw [hplace, Nat.add_sub_cancel_left, Memory.copied_dst (Nat.lt_succ_self _)]
      exact hne _

/-- Two bytes, copied behind themselves and onto themselves. -/
theorem myStrcpy_versions_two_bytes :
    let m : Memory := fun a => if a = 10 then 97 else if a = 11 then 98 else 0
    (∃ m', M2.myStrcpy 3 m 20 10 = some (m', 20) ∧ m' 21 = 98) ∧
      ∀ fuel, M1.myStrcpy fuel m 11 10 = none := by
  intro m
  have hs : StringAt m 10 [97, 98] :=
    stringAt_cons.2 ⟨by decide, rfl, stringAt_cons.2 ⟨by decide, rfl, stringAt_nil.2 rfl⟩⟩
  obtain ⟨hsame, hbehind, -⟩ := myStrcpy_versions m 20 10 [97, 98] hs
  obtain ⟨-, -, honto⟩ := myStrcpy_versions m 11 10 [97, 98] hs
  obtain ⟨m', hrun, hbytes, -⟩ := hbehind (.inr (by decide))
  refine ⟨⟨m', ?_, hbytes 1 (by decide)⟩, (honto (by decide) (by decide)).1⟩
  rw [hsame, hrun]
  rfl

end CString

end CAcheRein
