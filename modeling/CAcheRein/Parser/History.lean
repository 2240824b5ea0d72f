import CAcheRein.Parser.Accounting

/-!
# Independence of earlier frames

Two contexts in IDLE may differ in their counters and in the frame an earlier run left behind.
Fed the same events they go through the same states and count alike, and from the first
BYTE_RECEIVED or RESET on their frames are equal (`history_independent`).
-/

namespace CAcheRein

namespace Parser

/-- What two runs fed the same events have in common, counted from the contexts `c₁` and `c₂`
they started in; `fresh` says that the frame has been started or cleared since. -/
structure Alike (c₁ c₂ s₁ s₂ : SmCtx) (fresh : Prop) : Prop where
  current : s₁.current = s₂.current
  rx : s₁.rxCount - c₁.rxCount = s₂.rxCount - c₂.rxCount
  errors : s₁.errorCount - c₁.errorCount = s₂.errorCount - c₂.errorCount
  processed : s₁.processedCount - c₁.processedCount = s₂.processedCount - c₂.processedCount
  frame : fresh → s₁.frame = s₂.frame
  idle : ¬ fresh → s₁.current = .idle

/-- The event writes the frame from scratch when handled in IDLE. -/
def Refreshes (ev : Event × UInt8) : Prop := ev.1 = .byteReceived ∨ ev.1 = .reset

theorem add_sub_congr {a b c d : UInt32} (h : a - c = b - d) (k : UInt32) :
    a + k - c = b + k - d := by grind

/-- In the same state with equal frames, an event leaves equal frames. -/
theorem frame_next {s₁ s₂ : SmCtx} (hcur : s₁.current = s₂.current) (hframe : s₁.frame = s₂.frame)
    (e : Event) (d : UInt8) : (s₁.handleEvent e d).frame = (s₂.handleEvent e d).frame := by
  unfold SmCtx.handleEvent
  rw [hcur]
  generalize transitions s₂.current e = t
  obtain ⟨nextState, act⟩ := t
  cases act <;>
    simp only [Action.apply, SmCtx.actionStartFrame, SmCtx.actionStoreByte, SmCtx.actionComplete,
      SmCtx.actionError, SmCtx.actionReset, hframe]

/-- In IDLE, an event that refreshes the frame leaves equal frames whatever they were. -/
theorem frame_next_idle {s₁ s₂ : SmCtx} (h₁ : s₁.current = .idle) (h₂ : s₂.current = .idle)
    {e : Event} {d : UInt8} (he : Refreshes (e, d)) :
    (s₁.handleEvent e d).frame = (s₂.handleEvent e d).frame := by
  unfold SmCtx.handleEvent
  rw [h₁, h₂]
  rcases he with rfl | rfl <;> rfl

/-- One more event keeps the runs alike. -/
theorem Alike.next {c₁ c₂ s₁ s₂ : SmCtx} {fresh : Prop} (h : Alike c₁ c₂ s₁ s₂ fresh) (e : Event)
    (d : UInt8) :
    Alike c₁ c₂ (s₁.handleEvent e d) (s₂.handleEvent e d) (fresh ∨ Refreshes (e, d)) := by
  obtain ⟨hcur, hrx, herr, hdone, hframe, hidle⟩ := h
  have h₁ := s₁.adds e d
  have h₂ := s₂.adds e d
  -- in the same state both runs run the same action, which adds the same to both
  rw [hcur] at h₁
  refine ⟨?_, ?_, ?_, ?_, ?_, ?_⟩
  · rw [SmCtx.current_handleEvent, SmCtx.current_handleEvent, hcur]
  · rw [h₁.rx, h₂.rx, add_sub_congr hrx]
  · rw [h₁.errors, h₂.errors, add_sub_congr herr]
  · rw [h₁.processed, h₂.processed, add_sub_congr hdone]
  · intro hfresh
    by_cases hf : fresh
    · exact frame_next hcur (hframe hf) e d
    · exact frame_next_idle (hidle hf) (hcur ▸ hidle hf) (hfresh.resolve_left hf)
  · intro hstale
    obtain ⟨hf, he⟩ := not_or.1 hstale
    rw [SmCtx.current_handleEvent, hidle hf]
    -- only a byte leaves IDLE
    cases e <;> first | rfl | exact absurd (.inl rfl) he

/-- **History independence.**  Two contexts in IDLE, reached by whatever histories, are fed the
same events, of any number.  Then both are in the same state, both have moved each counter by the
same amount, and if a BYTE_RECEIVED or RESET was among the events their frames are equal. -/
theorem history_independent {c₁ c₂ : SmCtx} (h₁ : c₁.current = .idle) (h₂ : c₂.current = .idle)
    (evs : List (Event × UInt8)) :
    (parser.runFrom c₁ evs).current = (parser.runFrom c₂ evs).current ∧
      (parser.runFrom c₁ evs).rxCount - c₁.rxCount =
        (parser.runFrom c₂ evs).rxCount - c₂.rxCount ∧
      (parser.runFrom c₁ evs).errorCount - c₁.errorCount =
        (parser.runFrom c₂ evs).errorCount - c₂.errorCount ∧
      (parser.runFrom c₁ evs).processedCount - c₁.processedCount =
        (parser.runFrom c₂ evs).processedCount - c₂.processedCount ∧
      ((∃ ev ∈ evs, Refreshes ev) →
        (parser.runFrom c₁ evs).frame = (parser.runFrom c₂ evs).frame) := by
  have key : Alike c₁ c₂ (parser.runFrom c₁ evs) (parser.runFrom c₂ evs)
      (∃ ev ∈ evs, Refreshes ev) := by
    induction evs using List.reverseRecOn with
    | nil =>
      refine ⟨h₁.trans h₂.symm, ?_, ?_, ?_, by simp, fun _ => h₁⟩
      · exact (UInt32.sub_self _).trans (UInt32.sub_self _).symm
      · exact (UInt32.sub_self _).trans (UInt32.sub_self _).symm
      · exact (UInt32.sub_self _).trans (UInt32.sub_self _).symm
    | append_singleton evs ev ih =>
      have hnext := ih.next ev.1 ev.2
      rw [Machine.runFrom_concat, Machine.runFrom_concat]
      simpa [or_and_right, exists_or] using hnext
  exact ⟨key.current, key.rx, key.errors, key.processed, key.frame⟩

/-- A history that completes the one-byte frame `0xAA`. -/
def oneByteFrame : List (Event × UInt8) :=
  [(.byteReceived, 0xAA), (.frameComplete, 0), (.checksumOk, 0), (.processDone, 0)]

/-- After `oneByteFrame` the byte `0xAA` is still in the frame, but once the first byte of the
next frame has come the frame is the one a context straight after `sm_init` would hold. -/
theorem history_independent_after_frame :
    (parser.run oneByteFrame).frame ≠ SmCtx.init.frame ∧
      (parser.runFrom (parser.run oneByteFrame) [(.byteReceived, 1), (.byteReceived, 2)]).frame =
        (parser.runFrom SmCtx.init [(.byteReceived, 1), (.byteReceived, 2)]).frame := by
  have hidle : (parser.run oneByteFrame).current = .idle := rfl
  have hinit : SmCtx.init.current = .idle := rfl
  refine ⟨by decide +kernel, ?_⟩
  exact (history_independent hidle hinit _).2.2.2.2 ⟨_, List.mem_cons_self, .inl rfl⟩

end Parser

end CAcheRein
