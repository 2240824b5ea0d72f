import CAcheRein.Parser.Basic

/-!
# What a state says about the past

The parser is in RECEIVING, VALIDATING or PROCESSING exactly if its history ends in the matching
prefix of a frame: `receiving_iff`, `validating_iff`, `processing_iff`, each one entry further
back than the one before.  Chained, they say exactly when a frame is counted as processed
(`processed_iff`).
-/

namespace CAcheRein

namespace Parser

/-- None of the events `xs` occurs in `evs`. -/
def Avoids (evs : List (Event × UInt8)) (xs : List Event) : Prop := ∀ ev ∈ evs, ev.1 ∉ xs

theorem Avoids.of_concat {evs : List (Event × UInt8)} {ev : Event × UInt8} {xs : List Event}
    (h : Avoids (evs ++ [ev]) xs) : Avoids evs xs ∧ ev.1 ∉ xs :=
  ⟨fun x hx => h x (List.mem_append_left _ hx), h ev (by simp)⟩

/-! ### Entering and leaving a state -/

theorem enters_receiving_iff {s : State} (h : s ≠ .receiving) (e : Event) :
    (transitions s e).nextState = .receiving ↔ s = .idle ∧ e = .byteReceived := by
  revert h
  cases s <;> cases e <;> decide

theorem enters_validating_iff {s : State} (h : s ≠ .validating) (e : Event) :
    (transitions s e).nextState = .validating ↔ s = .receiving ∧ e = .frameComplete := by
  revert h
  cases s <;> cases e <;> decide

theorem enters_processing_iff {s : State} (h : s ≠ .processing) (e : Event) :
    (transitions s e).nextState = .processing ↔ s = .validating ∧ e = .checksumOk := by
  revert h
  cases s <;> cases e <;> decide

theorem stays_receiving_iff (e : Event) : (transitions .receiving e).nextState = .receiving ↔
    e ∉ [Event.frameComplete, .timeout, .reset] := by
  cases e <;> decide

theorem stays_validating_iff (e : Event) : (transitions .validating e).nextState = .validating ↔
    e ∉ [Event.checksumOk, .checksumFail, .timeout, .reset] := by
  cases e <;> decide

theorem stays_processing_iff (e : Event) : (transitions .processing e).nextState = .processing ↔
    e ∉ [Event.processDone, .timeout, .reset] := by
  cases e <;> decide

/-- The history of a state other than IDLE: where it was last entered, and what was not read
since. -/
theorem current_iff {st : State} {leaves : List Event} (h₀ : st ≠ .idle)
    (hstay : ∀ e, (transitions st e).nextState = st ↔ e ∉ leaves) (evs : List (Event × UInt8)) :
    (parser.run evs).current = st ↔ ∃ pre ev post, evs = pre ++ ev :: post ∧
      (parser.run pre).current ≠ st ∧
      (transitions (parser.run pre).current ev.1).nextState = st ∧ Avoids post leaves := by
  refine Machine.run_iff_last_entry (P := fun ctx : SmCtx => ctx.current = st)
    (A := fun ev : Event × UInt8 => ev.1 ∉ leaves) h₀.symm (fun ctx ev hctx => ?_) evs
  rw [← hstay, ← hctx]
  rfl

/-- A state stays current as long as no event is read that leaves it. -/
theorem current_append {st : State} {leaves : List Event}
    (hstay : ∀ e, (transitions st e).nextState = st ↔ e ∉ leaves)
    {pre post : List (Event × UInt8)} (hpre : (parser.run pre).current = st)
    (hpost : Avoids post leaves) : (parser.run (pre ++ post)).current = st := by
  induction post using List.reverseRecOn with
  | nil => rwa [List.append_nil]
  | append_singleton post ev ih =>
    obtain ⟨hpost, hev⟩ := hpost.of_concat
    rw [← List.append_assoc, Machine.run_concat, parser_next, SmCtx.current_handleEvent, ih hpost]
    exact (hstay ev.1).2 hev

/-- RECEIVING: a byte was read in IDLE, and since then no end of frame, timeout or reset. -/
theorem receiving_iff (evs : List (Event × UInt8)) :
    (parser.run evs).current = .receiving ↔ ∃ pre b mid, evs = pre ++ (.byteReceived, b) :: mid ∧
      (parser.run pre).current = .idle ∧ Avoids mid [.frameComplete, .timeout, .reset] := by
  rw [current_iff (by decide) stays_receiving_iff]
  constructor
  · rintro ⟨pre, ⟨e, b⟩, mid, rfl, hne, hent, hmid⟩
    obtain ⟨hidle, rfl⟩ := (enters_receiving_iff hne e).1 hent
    exact ⟨pre, b, mid, rfl, hidle, hmid⟩
  · rintro ⟨pre, b, mid, rfl, hidle, hmid⟩
    exact ⟨pre, _, mid, rfl, by rw [hidle]; decide, by rw [hidle]; rfl, hmid⟩

/-- VALIDATING: a frame was completed in RECEIVING, and since then neither judged nor given up. -/
theorem validating_iff (evs : List (Event × UInt8)) :
    (parser.run evs).current = .validating ↔ ∃ pre d post,
      evs = pre ++ (.frameComplete, d) :: post ∧ (parser.run pre).current = .receiving ∧
      Avoids post [.checksumOk, .checksumFail, .timeout, .reset] := by
  rw [current_iff (by decide) stays_validating_iff]
  constructor
  · rintro ⟨pre, ⟨e, d⟩, post, rfl, hne, hent, hpost⟩
    obtain ⟨hrec, rfl⟩ := (enters_validating_iff hne e).1 hent
    exact ⟨pre, d, post, rfl, hrec, hpost⟩
  · rintro ⟨pre, d, post, rfl, hrec, hpost⟩
    exact ⟨pre, _, post, rfl, by rw [hrec]; decide, by rw [hrec]; rfl, hpost⟩

/-- PROCESSING: a checksum was approved in VALIDATING, and since then nothing ended it. -/
theorem processing_iff (evs : List (Event × UInt8)) :
    (parser.run evs).current = .processing ↔ ∃ pre d rest, evs = pre ++ (.checksumOk, d) :: rest ∧
      (parser.run pre).current = .validating ∧ Avoids rest [.processDone, .timeout, .reset] := by
  rw [current_iff (by decide) stays_processing_iff]
  constructor
  · rintro ⟨pre, ⟨e, d⟩, rest, rfl, hne, hent, hrest⟩
    obtain ⟨hval, rfl⟩ := (enters_processing_iff hne e).1 hent
    exact ⟨pre, d, rest, rfl, hval, hrest⟩
  · rintro ⟨pre, d, rest, rfl, hval, hrest⟩
    exact ⟨pre, _, rest, rfl, by rw [hval]; decide, by rw [hval]; rfl, hrest⟩

/-- VALIDATING, from the start of the frame on. -/
theorem validating_iff_frame (evs : List (Event × UInt8)) :
    (parser.run evs).current = .validating ↔ ∃ pre b mid d post,
      evs = pre ++ (.byteReceived, b) :: mid ++ (.frameComplete, d) :: post ∧
      (parser.run pre).current = .idle ∧ Avoids mid [.frameComplete, .timeout, .reset] ∧
      Avoids post [.checksumOk, .checksumFail, .timeout, .reset] := by
  rw [validating_iff]
  constructor
  · rintro ⟨h, d, post, rfl, hrec, hpost⟩
    obtain ⟨pre, b, mid, rfl, hidle, hmid⟩ := (receiving_iff h).1 hrec
    exact ⟨pre, b, mid, d, post, rfl, hidle, hmid, hpost⟩
  · rintro ⟨pre, b, mid, d, post, rfl, hidle, hmid, hpost⟩
    exact ⟨_, d, post, rfl, (receiving_iff _).2 ⟨pre, b, mid, rfl, hidle, hmid⟩, hpost⟩

/-! ### When a frame is counted -/

theorem succ_ne_self (n : UInt32) : n ≠ n + 1 := by
  intro h
  have h' : n + 0 = n + 1 := by rw [UInt32.add_zero]; exact h
  exact absurd ((UInt32.add_right_inj n).1 h') (by decide)

/-- The counter of processed frames moves exactly at a PROCESS_DONE in PROCESSING. -/
theorem processedCount_succ_iff (ctx : SmCtx) (e : Event) (d : UInt8) :
    (ctx.handleEvent e d).processedCount = ctx.processedCount + 1 ↔
      ctx.current = .processing ∧ e = .processDone := by
  constructor
  · intro h
    obtain ⟨act, ctx', -, hctx, hst⟩ := ctx.handled e d
    rw [hctx] at h
    cases hst with
    | complete hcur he => exact ⟨hcur, he⟩
    | _ => exact absurd h (succ_ne_self _)
  · rintro ⟨hcur, rfl⟩
    simp [SmCtx.handleEvent, hcur, transitions, Action.apply, SmCtx.actionComplete]

/-- **When a frame is counted as processed.**  After the history `hist`, handling `(e, d)`
increments `processed_count` if and only if `e` is PROCESS_DONE and `hist` splits at a
BYTE_RECEIVED read in IDLE, the first FRAME_COMPLETE after it, the first CHECKSUM_OK after that,
with no PROCESS_DONE since; with no TIMEOUT and no RESET since the first byte; and with no
CHECKSUM_FAIL between the end of the frame and its approval. -/
theorem processed_iff (hist : List (Event × UInt8)) (e : Event) (d : UInt8) :
    (parser.run (hist ++ [(e, d)])).processedCount = (parser.run hist).processedCount + 1 ↔
      e = .processDone ∧ ∃ pre b mid d₁ post d₂ rest,
        hist = pre ++ (.byteReceived, b) :: mid ++ (.frameComplete, d₁) :: post ++
          (.checksumOk, d₂) :: rest ∧
        (parser.run pre).current = .idle ∧
        Avoids mid [.frameComplete, .timeout, .reset] ∧
        Avoids post [.checksumOk, .checksumFail, .timeout, .reset] ∧
        Avoids rest [.processDone, .timeout, .reset] := by
  rw [Machine.run_concat, parser_next, processedCount_succ_iff, and_comm, processing_iff]
  refine and_congr_right fun _ => ⟨?_, ?_⟩
  · rintro ⟨h, d₂, rest, rfl, hval, hrest⟩
    obtain ⟨pre, b, mid, d₁, post, rfl, hidle, hmid, hpost⟩ := (validating_iff_frame h).1 hval
    exact ⟨pre, b, mid, d₁, post, d₂, rest, rfl, hidle, hmid, hpost, hrest⟩
  · rintro ⟨pre, b, mid, d₁, post, d₂, rest, rfl, hidle, hmid, hpost, hrest⟩
    exact ⟨_, d₂, rest, rfl,
      (validating_iff_frame _).2 ⟨pre, b, mid, d₁, post, rfl, hidle, hmid, hpost⟩, hrest⟩

end Parser

end CAcheRein
