import CAcheRein.Parser.Pending

/-!
# What the frame buffer holds

`Frame.Holds f bs` is the abstract view of a frame: the bytes `bs`, at most `FRAME_MAX_LEN` of
them, their number, their XOR, and zeros behind them.  Every action keeps it
(`holds_storeGuarded` for the one that stores), so the frame of every reachable context holds
some list of bytes, and in an open frame they are the first sixteen of the bytes accepted for it
(`frame_invariant`).  A frame longer than that is cut, and goes on to be processed
(`processed_frame`).
-/

namespace CAcheRein

namespace Parser

/-- The XOR of some bytes. -/
def xorAll (bs : List UInt8) : UInt8 := bs.foldl (· ^^^ ·) 0

theorem xorAll_concat (bs : List UInt8) (b : UInt8) : xorAll (bs ++ [b]) = xorAll bs ^^^ b := by
  rw [xorAll, List.foldl_append]
  rfl

namespace Frame

/-- The bytes of a frame, `data[0 .. length)`. -/
def bytes (f : Frame) : List UInt8 := f.data.toList.take f.length.toNat

/-- The frame holds the bytes `bs`. -/
structure Holds (f : Frame) (bs : List UInt8) : Prop where
  fits : bs.length ≤ frameMaxLen
  data : f.data.toList = bs ++ List.replicate (frameMaxLen - bs.length) 0
  length : f.length.toNat = bs.length
  checksum : f.checksum = xorAll bs

variable {f : Frame} {bs : List UInt8}

theorem Holds.bytes_eq (h : f.Holds bs) : f.bytes = bs := by
  rw [bytes, h.data, h.length, List.take_left']
  rfl

/-- Behind its bytes a frame is zero. -/
theorem Holds.zero_tail (h : f.Holds bs) {i : ℕ} (hle : f.length.toNat ≤ i)
    (hlt : i < frameMaxLen) : f.data[i] = 0 := by
  rw [h.length] at hle
  have hi : i < f.data.toList.length := by rwa [Vector.length_toList]
  have hget : f.data[i] = f.data.toList[i] := (Vector.getElem_toList hi).symm
  rw [hget]
  simp only [h.data, List.getElem_append_right hle, List.getElem_replicate]

theorem holds_zero : zero.Holds [] := ⟨by decide, rfl, rfl, rfl⟩

end Frame

/-- `action_start_frame` leaves a frame of one byte. -/
theorem holds_startFrame (ctx : SmCtx) (b : UInt8) : (ctx.actionStartFrame b).frame.Holds [b] :=
  ⟨Nat.le_of_ble_eq_true rfl, rfl, rfl, (UInt8.zero_xor).symm⟩

/-- `action_store_byte` appends its byte if there is room, and drops it otherwise. -/
theorem holds_storeGuarded {f : Frame} {bs : List UInt8} (h : f.Holds bs) (b : UInt8) :
    (SmCtx.storeGuarded f b).Holds ((bs ++ [b]).take frameMaxLen) := by
  obtain ⟨hfits, hdata, hlength, hsum⟩ := h
  unfold SmCtx.storeGuarded
  split_ifs with hroom
  · rw [hlength] at hroom
    obtain ⟨m, hm⟩ : ∃ m, frameMaxLen - bs.length = m + 1 :=
      ⟨frameMaxLen - bs.length - 1, by omega⟩
    have hlen : (bs ++ [b]).length = bs.length + 1 := by simp
    rw [List.take_of_length_le (by rw [hlen]; exact hroom)]
    refine ⟨by rw [hlen]; exact hroom, ?_, ?_, ?_⟩
    · -- the byte replaces the first of the zeros behind `bs`
      rw [Vector.toList_set!, hdata, hm, hlength, List.replicate_succ, hlen,
        List.set_append_right _ _ le_rfl, Nat.sub_self, List.set_cons_zero, List.append_assoc]
      congr 3
      omega
    · rw [hlen, ← hlength, UInt8.toNat_add, UInt8.toNat_one]
      exact Nat.mod_eq_of_lt (by simp only [frameMaxLen] at hroom; omega)
    · rw [xorAll_concat, hsum]
  · have hfull : bs.length = frameMaxLen := le_antisymm hfits (by rw [← hlength]; omega)
    rw [List.take_append_of_le_length hfull.ge, ← hfull, List.take_length]
    exact ⟨hfits, hdata, hlength, hsum⟩

/-! ### The bytes accepted for the current frame -/

/-- One more step: a byte read in IDLE starts a new log, one read in RECEIVING extends it. -/
def acceptStep (log : List UInt8) (step : SmCtx × Event × UInt8) : List UInt8 :=
  match step.1.current, step.2.1 with
  | .idle, .byteReceived => [step.2.2]
  | .receiving, .byteReceived => log ++ [step.2.2]
  | _, _ => log

/-- The bytes accepted since RECEIVING was last entered from IDLE, that byte included. -/
def accepted (evs : List (Event × UInt8)) : List UInt8 := (parser.steps evs).foldl acceptStep []

@[simp] theorem accepted_concat (evs : List (Event × UInt8)) (ev : Event × UInt8) :
    accepted (evs ++ [ev]) = acceptStep (accepted evs) (parser.run evs, ev) := by
  rw [accepted, Machine.steps_concat, List.foldl_append]
  rfl

/-- Cutting to `n` elements before or after appending one more is the same. -/
theorem take_take_concat {α : Type*} (l : List α) (n : ℕ) (a : α) :
    (l.take n ++ [a]).take n = (l ++ [a]).take n := by
  rcases Nat.lt_or_ge l.length n with h | h
  · rw [List.take_of_length_le h.le]
  · have hlen : (l.take n).length = n := by rw [List.length_take, Nat.min_eq_left h]
    rw [List.take_append_of_le_length hlen.ge, List.take_append_of_le_length h, List.take_take,
      Nat.min_self]

/-- The frame holds some bytes; in an open frame they are the first accepted ones, and there is
at least one. -/
def FrameInv (log : List UInt8) (ctx : SmCtx) : Prop :=
  (∃ bs, ctx.frame.Holds bs) ∧
    (ctx.current.isOpen = true → log ≠ [] ∧ ctx.frame.Holds (log.take frameMaxLen))

/-- One event keeps the invariant. -/
theorem frameInv_next {log : List UInt8} {ctx : SmCtx} (h : FrameInv log ctx) (e : Event)
    (d : UInt8) : FrameInv (acceptStep log (ctx, e, d)) (ctx.handleEvent e d) := by
  obtain ⟨⟨bs, hbs⟩, hopen⟩ := h
  obtain ⟨act, ctx', hact, hctx, hst⟩ := ctx.handled e d
  rw [hctx]
  -- outside the two accepting cells the log stays as it is
  have hlog : act ≠ .startFrame → act ≠ .storeByte → acceptStep log (ctx, e, d) = log := by
    rw [← hact]
    unfold acceptStep
    generalize ctx.current = st
    intro h₁ h₂
    cases st <;> cases e <;> first | rfl | exact absurd rfl h₁ | exact absurd rfl h₂
  cases hst with
  | ignore =>
    rw [hlog (by decide) (by decide)]
    exact ⟨⟨bs, hbs⟩, hopen⟩
  | startFrame hcur he =>
    have hstart := holds_startFrame ctx d
    simp only [acceptStep, hcur, he]
    exact ⟨⟨_, hstart⟩, fun _ => ⟨List.cons_ne_nil _ _, hstart⟩⟩
  | storeByte hcur he =>
    have hstore := holds_storeGuarded (hopen (by rw [hcur]; rfl)).2 d
    rw [take_take_concat] at hstore
    simp only [acceptStep, hcur, he]
    exact ⟨⟨_, hstore⟩, fun _ => ⟨by simp, hstore⟩⟩
  | validate hcur he =>
    rw [hlog (by decide) (by decide)]
    exact ⟨⟨bs, hbs⟩, fun _ => hopen (by rw [hcur]; rfl)⟩
  | process hcur he =>
    rw [hlog (by decide) (by decide)]
    exact ⟨⟨bs, hbs⟩, fun _ => hopen (by rw [hcur]; rfl)⟩
  | complete hcur he => exact ⟨⟨bs, hbs⟩, fun h => by cases h⟩
  | error hcur he => exact ⟨⟨bs, hbs⟩, fun h => by cases h⟩
  | reset he => exact ⟨⟨[], Frame.holds_zero⟩, fun h => by cases h⟩

theorem frameInv_run (evs : List (Event × UInt8)) : FrameInv (accepted evs) (parser.run evs) := by
  refine Machine.run_induct (I := fun evs ctx => FrameInv (accepted evs) ctx)
    ⟨⟨[], Frame.holds_zero⟩, fun h => by cases h⟩ (fun evs ev ih => ?_) evs
  rw [accepted_concat]
  exact frameInv_next ih ev.1 ev.2

/-- **The frame of every reachable context.**  It is never longer than `FRAME_MAX_LEN`, its
checksum is the XOR of its bytes and the rest of the buffer is zero; in an open frame it has at
least one byte, and its bytes are the first sixteen of those accepted for it. -/
theorem frame_invariant (evs : List (Event × UInt8)) :
    (parser.run evs).frame.length.toNat ≤ frameMaxLen ∧
      (parser.run evs).frame.checksum = xorAll (parser.run evs).frame.bytes ∧
      (∀ i, (parser.run evs).frame.length.toNat ≤ i → ∀ h : i < frameMaxLen,
        (parser.run evs).frame.data[i] = 0) ∧
      ((parser.run evs).current.isOpen = true →
        1 ≤ (parser.run evs).frame.length.toNat ∧
          (parser.run evs).frame.bytes = (accepted evs).take frameMaxLen) := by
  obtain ⟨⟨bs, hbs⟩, hopen⟩ := frameInv_run evs
  refine ⟨by rw [hbs.length]; exact hbs.fits, by rw [hbs.bytes_eq, hbs.checksum],
    fun i hle hlt => hbs.zero_tail hle hlt, fun h => ?_⟩
  obtain ⟨hne, hfirst⟩ := hopen h
  refine ⟨?_, hfirst.bytes_eq⟩
  have hpos := List.length_pos_iff.2 hne
  rw [hfirst.length, List.length_take]
  exact Nat.le_min.2 ⟨by decide, hpos⟩

/-! ### Frames that reach PROCESSING -/

/-- The bytes delivered by BYTE_RECEIVED events. -/
def rxBytes (evs : List (Event × UInt8)) : List UInt8 :=
  (evs.filter fun ev => ev.1 = .byteReceived).map Prod.snd

/-- While RECEIVING is not left, every byte delivered is accepted. -/
theorem accepted_receiving {pre mid : List (Event × UInt8)}
    (hpre : (parser.run pre).current = .receiving)
    (hmid : Avoids mid [.frameComplete, .timeout, .reset]) :
    accepted (pre ++ mid) = accepted pre ++ rxBytes mid := by
  induction mid using List.reverseRecOn with
  | nil => simp [rxBytes]
  | append_singleton mid ev ih =>
    have hmid' := hmid.of_concat.1
    have hcur := current_append stays_receiving_iff hpre hmid'
    obtain ⟨e, d⟩ := ev
    rw [← List.append_assoc, accepted_concat, ih hmid']
    cases e <;> simp [acceptStep, hcur, rxBytes]

/-- In VALIDATING no byte is accepted. -/
theorem accepted_validating {pre post : List (Event × UInt8)}
    (hpre : (parser.run pre).current = .validating)
    (hpost : Avoids post [.checksumOk, .checksumFail, .timeout, .reset]) :
    accepted (pre ++ post) = accepted pre := by
  induction post using List.reverseRecOn with
  | nil => rw [List.append_nil]
  | append_singleton post ev ih =>
    have hpost' := hpost.of_concat.1
    have hcur := current_append stays_validating_iff hpre hpost'
    rw [← List.append_assoc, accepted_concat, ih hpost']
    simp [acceptStep, hcur]

/-- The bytes accepted for a frame in VALIDATING are the one that started it and those delivered
up to its end. -/
theorem accepted_frame {pre mid post : List (Event × UInt8)} {b d : UInt8}
    (hidle : (parser.run pre).current = .idle)
    (hmid : Avoids mid [.frameComplete, .timeout, .reset])
    (hpost : Avoids post [.checksumOk, .checksumFail, .timeout, .reset]) :
    accepted (pre ++ (.byteReceived, b) :: mid ++ (.frameComplete, d) :: post) =
      b :: rxBytes mid := by
  have hstart : (parser.run (pre ++ [(.byteReceived, b)])).current = .receiving := by
    rw [Machine.run_concat, parser_next, SmCtx.current_handleEvent, hidle]
    rfl
  have hrec := current_append stays_receiving_iff hstart hmid
  have hval : (parser.run (pre ++ [(.byteReceived, b)] ++ mid ++ [(.frameComplete, d)])).current =
      .validating := by
    rw [Machine.run_concat, parser_next, SmCtx.current_handleEvent, hrec]
    rfl
  have hall := accepted_validating hval hpost
  rw [accepted_concat, accepted_receiving hstart hmid, accepted_concat] at hall
  simpa [acceptStep, hidle, hrec] using hall

/-- **What `action_process` gets.**  Whenever it runs, the history splits into the byte that
started the frame, the events up to its FRAME_COMPLETE and those since, and the frame holds
exactly the first sixteen of the bytes delivered up to the end of the frame, with their XOR. -/
theorem processed_frame (hist : List (Event × UInt8)) (e : Event) (d : UInt8)
    (h : parser.out (parser.run hist) (e, d) = .process) :
    ∃ pre b mid d₁ post,
      hist = pre ++ (.byteReceived, b) :: mid ++ (.frameComplete, d₁) :: post ∧
      (parser.run pre).current = .idle ∧ Avoids mid [.frameComplete, .timeout, .reset] ∧
      Avoids post [.checksumOk, .checksumFail, .timeout, .reset] ∧
      (parser.run hist).frame.bytes = (b :: rxBytes mid).take frameMaxLen ∧
      (parser.run hist).frame.checksum = xorAll ((b :: rxBytes mid).take frameMaxLen) := by
  have hval : (parser.run hist).current = .validating := by
    obtain ⟨act, ctx', hact, -, hst⟩ := (parser.run hist).handled e d
    obtain rfl : act = .process := hact.symm.trans h
    cases hst with
    | process hcur _ => exact hcur
  obtain ⟨pre, b, mid, d₁, post, hhist, hidle, hmid, hpost⟩ := (validating_iff_frame hist).1 hval
  obtain ⟨-, hsum, -, hopen⟩ := frame_invariant hist
  have hbytes := (hopen (by rw [hval]; rfl)).2
  rw [hhist, accepted_frame hidle hmid hpost, ← hhist] at hbytes
  exact ⟨pre, b, mid, d₁, post, hhist, hidle, hmid, hpost, hbytes, hsum.trans (by rw [hbytes])⟩

/-- A frame of three bytes, approved. -/
theorem processed_frame_short :
    ∃ pre b mid d₁ post,
      [(.byteReceived, 5), (.byteReceived, 6), (.byteReceived, 7), (.frameComplete, 0)] =
        pre ++ (.byteReceived, b) :: mid ++ (.frameComplete, d₁) :: post ∧
      (parser.run pre).current = .idle ∧ Avoids mid [.frameComplete, .timeout, .reset] ∧
      Avoids post [.checksumOk, .checksumFail, .timeout, .reset] ∧
      (parser.run [(.byteReceived, 5), (.byteReceived, 6), (.byteReceived, 7),
        (.frameComplete, 0)]).frame.bytes = (b :: rxBytes mid).take frameMaxLen ∧
      (parser.run [(.byteReceived, 5), (.byteReceived, 6), (.byteReceived, 7),
        (.frameComplete, 0)]).frame.checksum = xorAll ((b :: rxBytes mid).take frameMaxLen) :=
  processed_frame _ .checksumOk 0 (by decide)

/-- Seventeen bytes in one frame: it is processed with sixteen, and with their checksum. -/
theorem long_frame_cut :
    parser.out (parser.run ((.byteReceived, 1) :: List.replicate 16 (.byteReceived, 1) ++
      [(.frameComplete, 0)])) (.checksumOk, 0) = .process ∧
    (parser.run ((.byteReceived, 1) :: List.replicate 16 (.byteReceived, 1) ++
      [(.frameComplete, 0)])).frame.bytes ≠
        1 :: rxBytes (List.replicate 16 (.byteReceived, 1)) ∧
    (parser.run ((.byteReceived, 1) :: List.replicate 16 (.byteReceived, 1) ++
      [(.frameComplete, 0)])).frame.checksum ≠
        xorAll (1 :: rxBytes (List.replicate 16 (.byteReceived, 1))) := by
  decide +kernel

end Parser

end CAcheRein
