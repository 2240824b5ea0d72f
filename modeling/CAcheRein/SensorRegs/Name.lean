import CAcheRein.SensorRegs.Basic
import Mathlib.Data.List.TakeDrop

/-!
# The name in a sensor

The loop that copies the name stops at its terminator or at index 31, whichever comes first, so
the NUL written behind it is always inside the 32 bytes of `s->name`.

`sensorCreate_name` : this, for names of any length.
-/

namespace CAcheRein

namespace SensorRegs

open Block CString

variable {m : Memory} {name i : ℕ} {bs : List UInt8} {dst : Vector UInt8 32}

/-- A read of a name of `len` characters, up to its terminator and not behind index 31; or a write
of one of the 32 bytes of `s->name`. -/
def Allowed (len : ℕ) : ElemAccess → Prop
  | .read j => 0 ≤ j ∧ j ≤ len ∧ j ≤ 31
  | .write j => 0 ≤ j ∧ j ≤ 31

/-- The string in an array, up to its first NUL. -/
def stringIn (arr : List UInt8) : List UInt8 := arr.takeWhile (· ≠ 0)

/-- The loop goes on in front of the terminator and index 31. -/
theorem copyName_step (hs : StringAt m name bs) (hlen : i < bs.length) (hi : i < 31) :
    copyName m name i dst =
      (copyName m name (i + 1) (dst.set i bs[i] (Nat.lt_succ_of_lt hi))).map fun r =>
        (r.1, r.2.1, [.read i, .read i, .write i] ++ r.2.2) := by
  have hchar : asChar (m (name + i)) ≠ 0 := asChar_ne_zero_iff.2 (hs.ne_zero hlen)
  have hstore := storeAt_eq dst (Nat.lt_succ_of_lt hi) bs[i]
  rw [copyName, if_pos ⟨hchar, hi⟩, hs.bytes i hlen]
  simp only [hstore, Option.bind_eq_bind, Option.bind_some]
  cases copyName m name (i + 1) (dst.set i bs[i] (Nat.lt_succ_of_lt hi)) <;> rfl

/-- It ends at the terminator or at index 31. -/
theorem copyName_end (hs : StringAt m name bs) :
    copyName m name (min bs.length 31) dst =
      some (min bs.length 31, dst, [.read (min bs.length 31 : ℕ)]) := by
  rw [copyName, if_neg]
  rintro ⟨hchar, hi⟩
  have hmin : min bs.length 31 = bs.length := by omega
  rw [hmin, hs.terminator] at hchar
  exact hchar rfl

/-- **What the loop leaves**, from any index in front of its end. -/
theorem copyName_eq (hs : StringAt m name bs) (hi : i ≤ min bs.length 31)
    (hdst : dst.toList.take i = bs.take i) : ∃ dst' log,
    copyName m name i dst = some (min bs.length 31, dst', log) ∧
      dst'.toList.take (min bs.length 31) = bs.take (min bs.length 31) ∧
      ∀ a ∈ log, Allowed bs.length a := by
  induction hk : min bs.length 31 - i generalizing i dst with
  | zero =>
    obtain rfl : i = min bs.length 31 := by omega
    refine ⟨dst, _, copyName_end hs, hdst, fun a ha => ?_⟩
    rw [List.mem_singleton.1 ha]
    exact ⟨by omega, by omega, by omega⟩
  | succ k ih =>
    have hlen : i < bs.length := by omega
    have h31 : i < 31 := by omega
    -- one more character agrees
    have hdst' : (dst.set i bs[i] (Nat.lt_succ_of_lt h31)).toList.take (i + 1) =
        bs.take (i + 1) := by
      have hsize : i < dst.toList.length := by rw [Vector.length_toList]; omega
      rw [Vector.toList_set, take_succ_set hsize, hdst, List.take_succ_eq_append_getElem hlen]
    obtain ⟨dst', log, hrun, htake, hlog⟩ := ih (by omega) hdst' (by omega)
    refine ⟨dst', [.read i, .read i, .write i] ++ log, ?_, htake, fun a ha => ?_⟩
    · rw [copyName_step hs hlen h31, hrun]
      rfl
    · rcases List.mem_append.1 ha with hhere | hnext
      · simp only [List.mem_cons, List.not_mem_nil, or_false] at hhere
        rcases hhere with rfl | rfl | rfl
        · exact ⟨by omega, by omega, by omega⟩
        · exact ⟨by omega, by omega, by omega⟩
        · exact ⟨by omega, by omega⟩
      · exact hlog a hnext

/-- The NUL behind the loop is always inside `s->name`; NULL is returned for NULL only. -/
theorem sensorCreate_eq (hs : StringAt m name bs) (malloc : Allocator) (addr : UInt8)
    (regCount : UInt64) : ∃ r log, sensorCreate malloc m name addr regCount = some (r, log) ∧
      (∀ a ∈ log, Allowed bs.length a) ∧
      (r = none → malloc.sensor = none ∨ malloc.regs (regCount * sizeofReg) = none) ∧
      ∀ s, r = some s → s.name.toList.take (min bs.length 31) = bs.take 31 ∧
        s.name.toList[min bs.length 31]? = some 0 := by
  unfold sensorCreate
  cases malloc.sensor with
  | none => exact ⟨none, [], rfl, fun _ ha => (nomatch ha), fun _ => .inl rfl,
      fun _ heq => (nomatch heq)⟩
  | some s₀ =>
    cases malloc.regs (regCount * sizeofReg) with
    | none => exact ⟨none, [], rfl, fun _ ha => (nomatch ha), fun _ => .inr rfl,
        fun _ heq => (nomatch heq)⟩
    | some regs =>
      have hstart : s₀.name.toList.take 0 = bs.take 0 := rfl
      obtain ⟨dst, log, hrun, htake, hlog⟩ := copyName_eq hs (Nat.zero_le _) hstart
      have hsize : min bs.length 31 < 32 := by omega
      simp only [hrun, storeAt_eq dst hsize, Option.bind_eq_bind, Option.bind_some]
      refine ⟨_, _, rfl, fun a ha => ?_, fun heq => (nomatch heq), fun s heq => ?_⟩
      · rcases List.mem_append.1 ha with hloop | hnul
        · exact hlog a hloop
        · rw [List.mem_singleton.1 hnul]
          exact ⟨by omega, by omega⟩
      · cases heq
        have htake' : bs.take (min bs.length 31) = bs.take 31 := by
          rw [Nat.min_comm, ← List.take_take, List.take_length]
        rw [Vector.toList_set, List.take_set_of_le (le_refl _), htake, htake']
        refine ⟨rfl, ?_⟩
        rw [List.getElem?_set_self (by rw [Vector.length_toList]; exact hsize)]

/-- **The name in a sensor**, for a name of any length.  No access leaves the name or `s->name`,
and a sensor holds the first 31 characters and a NUL, which is the whole name exactly if it has at
most 31. -/
theorem sensorCreate_name (malloc : Allocator) (m : Memory) (name : ℕ) (bs : List UInt8)
    (hs : StringAt m name bs) (addr : UInt8) (regCount : UInt64) : ∃ r log,
    sensorCreate malloc m name addr regCount = some (r, log) ∧
      (∀ a ∈ log, Allowed bs.length a) ∧
      (r = none → malloc.sensor = none ∨ malloc.regs (regCount * sizeofReg) = none) ∧
      ∀ s, r = some s →
        s.name.toList.take (min bs.length 31) = bs.take 31 ∧
        s.name.toList[min bs.length 31]? = some 0 ∧
        stringIn s.name.toList = bs.take 31 ∧
        (stringIn s.name.toList = bs ↔ bs.length ≤ 31) := by
  obtain ⟨r, log, hrun, hlog, hnull, hname⟩ := sensorCreate_eq hs malloc addr regCount
  refine ⟨r, log, hrun, hlog, hnull, fun s hr => ?_⟩
  obtain ⟨htake, hnul⟩ := hname s hr
  have hne : ∀ b ∈ bs.take 31, decide (b ≠ 0) = true := fun b hb =>
    decide_eq_true (hs.nonzero b (List.mem_of_mem_take hb))
  have hsplit : s.name.toList =
      bs.take 31 ++ 0 :: s.name.toList.drop (min bs.length 31 + 1) := by
    obtain ⟨hlt, hval⟩ := List.getElem?_eq_some_iff.1 hnul
    rw [← htake, ← hval, ← List.drop_eq_getElem_cons hlt, List.take_append_drop]
  have hstring : stringIn s.name.toList = bs.take 31 := by
    rw [stringIn, hsplit, List.takeWhile_append_of_pos hne,
      List.takeWhile_cons_of_neg (by simp), List.append_nil]
  refine ⟨htake, hnul, hstring, ?_⟩
  rw [hstring, List.take_eq_self_iff]

/-- A name of two characters. -/
theorem sensorCreate_name_two : ∃ s log,
    sensorCreate .zeros (fun a => if a = 5 then 72 else if a = 6 then 84 else 0) 5 0x27 3 =
        some (some s, log) ∧ stringIn s.name.toList = [72, 84] := by
  have hs : StringAt (fun a => if a = 5 then 72 else if a = 6 then 84 else 0) 5 [72, 84] :=
    stringAt_cons.2 ⟨by decide, rfl, stringAt_cons.2 ⟨by decide, rfl, stringAt_nil.2 rfl⟩⟩
  obtain ⟨r, log, hrun, -, hnull, hname⟩ := sensorCreate_name .zeros _ 5 [72, 84] hs 0x27 3
  cases r with
  | none => rcases hnull rfl with h | h <;> cases h
  | some s => exact ⟨s, log, hrun, (hname s rfl).2.2.1⟩

end SensorRegs

end CAcheRein
