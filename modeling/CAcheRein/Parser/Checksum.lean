import CAcheRein.Parser.Frame
import Mathlib.Data.List.Perm.Basic

/-!
# What the checksum detects

The checksum is the XOR of the bytes that found room in the buffer, whatever a previous frame left
there.  So a flipped bit changes it exactly if its byte is among the first `FRAME_MAX_LEN`, and the
order of these bytes does not matter (`checksum_detects`).
-/

namespace CAcheRein

namespace Parser

/-! ### The XOR of some bytes -/

theorem xorAll_append (bs bs' : List UInt8) : xorAll (bs ++ bs') = xorAll bs ^^^ xorAll bs' := by
  induction bs' using List.reverseRecOn with
  | nil => rw [List.append_nil, show xorAll [] = 0 from rfl, UInt8.xor_zero]
  | append_singleton bs' b ih => rw [← List.append_assoc, xorAll_concat, ih, xorAll_concat,
      UInt8.xor_assoc]

theorem xorAll_singleton (b : UInt8) : xorAll [b] = b := UInt8.zero_xor

/-- A change of one byte shows in the XOR. -/
theorem xorAll_set {bs : List UInt8} {i : ℕ} (hi : i < bs.length) (d : UInt8) :
    xorAll (bs.set i (bs[i] ^^^ d)) = xorAll bs ^^^ d := by
  have hsplit : xorAll bs = xorAll (bs.take i) ^^^ (bs[i] ^^^ xorAll (bs.drop (i + 1))) := by
    conv_lhs => rw [← List.take_append_drop i bs, List.drop_eq_getElem_cons hi]
    rw [xorAll_append, ← List.singleton_append, xorAll_append, xorAll_singleton]
  rw [hsplit, List.set_eq_take_append_cons_drop, if_pos hi, xorAll_append, ← List.singleton_append,
    xorAll_append, xorAll_singleton]
  simp only [UInt8.xor_assoc, UInt8.xor_comm d]

/-- The order does not matter. -/
theorem xorAll_perm {bs bs' : List UInt8} (h : bs.Perm bs') : xorAll bs = xorAll bs' := by
  refine h.foldl_eq' (fun x _ y _ z => ?_) 0
  rw [UInt8.xor_assoc, UInt8.xor_comm x, ← UInt8.xor_assoc]

/-! ### Bytes fed to an idle parser -/

/-- Each byte comes with an EVENT_BYTE_RECEIVED. -/
def received (bs : List UInt8) : List (Event × UInt8) := bs.map fun b => (.byteReceived, b)

/-- In IDLE the bytes start a new frame, which holds the first sixteen. -/
theorem holds_received {ctx : SmCtx} (hidle : ctx.current = .idle) {bs : List UInt8}
    (hne : bs ≠ []) : (parser.runFrom ctx (received bs)).current = .receiving ∧
      (parser.runFrom ctx (received bs)).frame.Holds (bs.take frameMaxLen) := by
  induction bs using List.reverseRecOn with
  | nil => exact absurd rfl hne
  | append_singleton bs b ih =>
    rw [received, List.map_append, List.map_singleton, Machine.runFrom_concat]
    change (SmCtx.handleEvent (parser.runFrom ctx (received bs)) .byteReceived b).current = _ ∧
      (SmCtx.handleEvent (parser.runFrom ctx (received bs)) .byteReceived b).frame.Holds _
    rcases eq_or_ne bs [] with rfl | hbs
    · -- the first byte overwrites what was in the frame
      have hfirst := holds_startFrame ctx b
      have hnext : SmCtx.handleEvent ctx .byteReceived b =
          { ctx.actionStartFrame b with current := .receiving } := by
        rw [SmCtx.handleEvent, hidle]
        rfl
      rw [show parser.runFrom ctx (received []) = ctx from rfl, hnext]
      exact ⟨rfl, hfirst⟩
    · obtain ⟨hcur, hholds⟩ := ih hbs
      have hnext : SmCtx.handleEvent (parser.runFrom ctx (received bs)) .byteReceived b =
          { (parser.runFrom ctx (received bs)).actionStoreByte b with current := .receiving } := by
        rw [SmCtx.handleEvent, hcur]
        rfl
      have hstore := holds_storeGuarded hholds b
      rw [take_take_concat] at hstore
      rw [hnext]
      exact ⟨rfl, hstore⟩

/-- The checksum once the bytes were received. -/
def checksumOf (ctx : SmCtx) (bs : List UInt8) : UInt8 :=
  (parser.runFrom ctx (received bs)).frame.checksum

theorem checksumOf_eq {ctx : SmCtx} (hidle : ctx.current = .idle) {bs : List UInt8}
    (hne : bs ≠ []) : checksumOf ctx bs = xorAll (bs.take frameMaxLen) :=
  (holds_received hidle hne).2.checksum

/-- The bytes `ys` are `xs` with exactly one bit flipped, in the byte at `i`. -/
def BitFlipped (xs ys : List UInt8) (i : ℕ) : Prop :=
  ∃ h : i < xs.length, ∃ k < 8, ys = xs.set i (xs[i] ^^^ 1 <<< UInt8.ofNat k)

/-- A single bit is not nothing. -/
theorem one_shiftLeft_ne_zero {k : ℕ} (hk : k < 8) : (1 : UInt8) <<< UInt8.ofNat k ≠ 0 := by
  have hall : ∀ k : Fin 8, (1 : UInt8) <<< UInt8.ofNat k ≠ 0 := by decide
  exact hall ⟨k, hk⟩

/-- A flipped bit shows in the checksum exactly if its byte found room. -/
theorem checksumOf_ne_iff {ctx : SmCtx} (hidle : ctx.current = .idle) {xs ys : List UInt8} {i : ℕ}
    (hflip : BitFlipped xs ys i) : checksumOf ctx xs ≠ checksumOf ctx ys ↔ i < frameMaxLen := by
  obtain ⟨hi, k, hk, rfl⟩ := hflip
  have hxs : xs ≠ [] := List.length_pos_iff.1 (Nat.zero_lt_of_lt hi)
  have hys : xs.set i (xs[i] ^^^ 1 <<< UInt8.ofNat k) ≠ [] := by simpa using hxs
  rw [checksumOf_eq hidle hxs, checksumOf_eq hidle hys, List.take_set]
  by_cases hroom : i < frameMaxLen
  · refine iff_of_true ?_ hroom
    have hi' : i < (xs.take frameMaxLen).length := by
      rw [List.length_take]
      exact Nat.lt_min.2 ⟨hroom, hi⟩
    rw [← List.getElem_take (h := hi'), xorAll_set hi']
    intro heq
    refine one_shiftLeft_ne_zero hk ?_
    have hcancel := congrArg (xorAll (xs.take frameMaxLen) ^^^ ·) heq
    simpa [← UInt8.xor_assoc] using hcancel.symm
  · refine iff_of_false (fun hne => hne ?_) hroom
    -- the change is in the part that is cut off
    rw [List.set_eq_of_length_le]
    exact (List.length_take_le _ _).trans (Nat.le_of_not_lt hroom)

/-- The order of the bytes that found room does not show in the checksum. -/
theorem checksumOf_perm {ctx : SmCtx} (hidle : ctx.current = .idle) {xs zs : List UInt8}
    (hperm : (xs.take frameMaxLen).Perm zs) :
    checksumOf ctx (zs ++ xs.drop frameMaxLen) = checksumOf ctx xs := by
  have hlen : zs.length = min frameMaxLen xs.length := by
    rw [← hperm.length_eq, List.length_take]
  rcases eq_or_ne xs [] with rfl | hxs
  · obtain rfl : zs = [] := List.length_eq_zero_iff.1 (by simpa using hlen)
    rfl
  have hpos : 0 < xs.length := List.length_pos_iff.2 hxs
  have hzs : zs ≠ [] := by
    rw [← List.length_pos_iff, hlen]
    exact Nat.lt_min.2 ⟨by decide, hpos⟩
  have htake : (zs ++ xs.drop frameMaxLen).take frameMaxLen = zs := by
    rcases Nat.le_total frameMaxLen xs.length with hle | hle
    · exact List.take_left' (by rw [hlen, Nat.min_eq_left hle])
    · rw [List.drop_of_length_le hle, List.append_nil]
      exact List.take_of_length_le (by rw [hlen]; exact Nat.min_le_left _ _)
  have hne : zs ++ xs.drop frameMaxLen ≠ [] := List.append_ne_nil_of_left_ne_nil hzs _
  rw [checksumOf_eq hidle hne, checksumOf_eq hidle hxs, htake, xorAll_perm hperm]

/-- **What the checksum detects**, from every reachable context in IDLE: a single flipped bit if
and only if it is in one of the first sixteen bytes, and no change of the order of these. -/
theorem checksum_detects (evs : List (Event × UInt8))
    (hidle : (parser.run evs).current = .idle) :
    (∀ xs ys i, BitFlipped xs ys i →
      (checksumOf (parser.run evs) xs ≠ checksumOf (parser.run evs) ys ↔ i < frameMaxLen)) ∧
    ∀ xs zs, (xs.take frameMaxLen).Perm zs →
      checksumOf (parser.run evs) (zs ++ xs.drop frameMaxLen) = checksumOf (parser.run evs) xs :=
  ⟨fun _ _ _ hflip => checksumOf_ne_iff hidle hflip, fun _ _ hperm => checksumOf_perm hidle hperm⟩

/-- A frame that was processed, and is still in the buffer. -/
def processed : List (Event × UInt8) :=
  received [0xAA, 0xBB, 0xCC] ++ [(.frameComplete, 0), (.checksumOk, 0), (.processDone, 0)]

/-- A flipped bit in the second byte, and the same bytes the other way round, behind a frame that is
still in the buffer. -/
theorem checksum_detects_second_byte :
    ((parser.run processed).current = .idle ∧ (parser.run processed).frame.length = 3 ∧
      (parser.run processed).frame.checksum = 0xDD) ∧
    checksumOf (parser.run processed) [1, 2] ≠ checksumOf (parser.run processed) [1, 6] ∧
    checksumOf (parser.run processed) [2, 1] = checksumOf (parser.run processed) [1, 2] := by
  have hidle : (parser.run processed).current = .idle := by decide
  obtain ⟨hflip, hperm⟩ := checksum_detects processed hidle
  have hbit : BitFlipped [1, 2] [1, 6] 1 := ⟨by decide, 2, by decide, by decide⟩
  exact ⟨⟨hidle, by decide, by decide⟩, (hflip [1, 2] [1, 6] 1 hbit).2 (by decide),
    hperm [1, 2] [2, 1] (List.Perm.swap 2 1 [])⟩

end Parser

end CAcheRein
