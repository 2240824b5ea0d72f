import CAcheRein.Sensor.Basic
import CAcheRein.Transition.Machine

/-!
# What the sensor context says about the past

`SensorInv` relates the events handled so far to the context: ERROR and `error_count` to the
errors since the last reset, `sensor_value` to the state.  `sensing_iff` and `processing_iff` say
when the two middle states are current; chained, they say when `action_complete` runs.

`Sensor.sensor_history` puts these together.
-/

namespace CAcheRein

namespace Sensor

/-- EVENT_RESET. -/
def Event.isReset : Event → Bool
  | .reset => true
  | _ => false

/-- The number of EVENT_ERRORs since the last EVENT_RESET. -/
def errorsSinceReset (evs : List Event) : ℕ := (sinceLast Event.isReset evs).count .error

theorem errorsSinceReset_error (evs : List Event) :
    errorsSinceReset (evs ++ [.error]) = errorsSinceReset evs + 1 := by
  simp [errorsSinceReset, Event.isReset]

theorem errorsSinceReset_reset (evs : List Event) : errorsSinceReset (evs ++ [.reset]) = 0 := by
  simp [errorsSinceReset, Event.isReset]

/-- No other event changes the number of errors. -/
theorem errorsSinceReset_of_ne {ev : Event} (herr : ev ≠ .error) (hreset : ev ≠ .reset)
    (evs : List Event) : errorsSinceReset (evs ++ [ev]) = errorsSinceReset evs := by
  cases ev with
  | error => exact absurd rfl herr
  | reset => exact absurd rfl hreset
  | _ => simp [errorsSinceReset, Event.isReset]

/-! ### The data fields -/

/-- What the events handled so far say about the context. -/
structure SensorInv (evs : List Event) (ctx : SmCtx) : Prop where
  error_iff : ctx.current = .error ↔ errorsSinceReset evs ≠ 0
  errorCount : ctx.errorCount = UInt32.ofNat (errorsSinceReset evs)
  sensing : ctx.current = .sensing → ctx.sensorValue = 0
  processing : ctx.current = .processing → ctx.sensorValue = 2650

variable {evs : List Event} {ctx ctx' : SmCtx} {ev : Event}

/-- A move between states other than ERROR, by an event that is neither an error nor a reset. -/
theorem SensorInv.move (h : SensorInv evs ctx) (herr : ev ≠ .error) (hreset : ev ≠ .reset)
    (hcur : ctx.current = .error ↔ ctx'.current = .error)
    (hcount : ctx'.errorCount = ctx.errorCount)
    (hsensing : ctx'.current = .sensing → ctx'.sensorValue = 0)
    (hprocessing : ctx'.current = .processing → ctx'.sensorValue = 2650) :
    SensorInv (evs ++ [ev]) ctx' := by
  refine ⟨?_, ?_, hsensing, hprocessing⟩
  · rw [errorsSinceReset_of_ne herr hreset, ← hcur]
    exact h.error_iff
  · rw [errorsSinceReset_of_ne herr hreset, hcount]
    exact h.errorCount

/-- Handling one more event keeps the relation. -/
theorem sensorInv_next (h : SensorInv evs ctx) (ev : Event) :
    SensorInv (evs ++ [ev]) (ctx.handleEvent ev) := by
  have hst := ctx.handled ev
  generalize (transitions ctx.current ev).action = act at hst
  generalize ctx.handleEvent ev = ctx' at hst
  cases hst with
  | startSensing hcur hev =>
    subst hev
    refine h.move (by decide) (by decide) ?_ rfl (fun _ => rfl) (fun hc => by cases hc)
    exact iff_of_false (by rw [hcur]; decide) (fun hc => by cases hc)
  | processData hcur hev =>
    subst hev
    refine h.move (by decide) (by decide) ?_ rfl (fun hc => by cases hc) (fun _ => rfl)
    exact iff_of_false (by rw [hcur]; decide) (fun hc => by cases hc)
  | complete hcur hev =>
    subst hev
    refine h.move (by decide) (by decide) ?_ rfl (fun hc => by cases hc) (fun hc => by cases hc)
    exact iff_of_false (by rw [hcur]; decide) (fun hc => by cases hc)
  | handleError hev =>
    subst hev
    refine ⟨?_, ?_, (fun hc => by cases hc), fun hc => by cases hc⟩
    · exact iff_of_true rfl (by rw [errorsSinceReset_error]; exact Nat.succ_ne_zero _)
    · rw [errorsSinceReset_error, UInt32.ofNat_add, ← h.errorCount]
      rfl
  | reset hev =>
    subst hev
    refine ⟨?_, ?_, (fun hc => by cases hc), fun hc => by cases hc⟩
    · exact iff_of_false (fun hc => by cases hc) (by rw [errorsSinceReset_reset]; simp)
    · rw [errorsSinceReset_reset]
      rfl
  | ignore herr hreset => exact h.move herr hreset Iff.rfl rfl h.sensing h.processing

theorem sensorInv_run (evs : List Event) : SensorInv evs (sensor.run evs) := by
  refine Machine.run_induct (I := SensorInv) ?_ (fun _ ev h => sensorInv_next h ev) evs
  refine ⟨?_, rfl, (fun hc => by cases hc), fun hc => by cases hc⟩
  exact iff_of_false (fun hc => by cases hc) (fun hne => hne rfl)

/-! ### The two middle states -/

/-- None of the events `xs` occurs in `evs`. -/
def Avoids (evs xs : List Event) : Prop := ∀ ev ∈ evs, ev ∉ xs

/-- The history of a state other than IDLE: where it was last entered, and what was not handled
since. -/
theorem current_iff {st : State} {leaves : List Event} (h₀ : st ≠ .idle)
    (hstay : ∀ e, (transitions st e).nextState = st ↔ e ∉ leaves) (evs : List Event) :
    (sensor.run evs).current = st ↔ ∃ pre ev post, evs = pre ++ ev :: post ∧
      (sensor.run pre).current ≠ st ∧
      (transitions (sensor.run pre).current ev).nextState = st ∧ Avoids post leaves := by
  refine Machine.run_iff_last_entry (P := fun ctx : SmCtx => ctx.current = st)
    (A := fun ev : Event => ev ∉ leaves) h₀.symm (fun ctx ev hctx => ?_) evs
  rw [← hstay, ← hctx]
  rfl

theorem enters_sensing_iff {s : State} (h : s ≠ .sensing) (e : Event) :
    (transitions s e).nextState = .sensing ↔ s = .idle ∧ e = .start := by
  revert h
  cases s <;> cases e <;> decide

theorem enters_processing_iff {s : State} (h : s ≠ .processing) (e : Event) :
    (transitions s e).nextState = .processing ↔ s = .sensing ∧ e = .dataReady := by
  revert h
  cases s <;> cases e <;> decide

theorem stays_sensing_iff (e : Event) : (transitions .sensing e).nextState = .sensing ↔
    e ∉ [Event.dataReady, .error, .reset] := by
  cases e <;> decide

theorem stays_processing_iff (e : Event) : (transitions .processing e).nextState = .processing ↔
    e ∉ [Event.processDone, .error, .reset] := by
  cases e <;> decide

/-- SENSING: a START was accepted in IDLE, and since then no DATA_READY, ERROR or RESET. -/
theorem sensing_iff (evs : List Event) : (sensor.run evs).current = .sensing ↔
    ∃ pre mid, evs = pre ++ .start :: mid ∧ (sensor.run pre).current = .idle ∧
      Avoids mid [.dataReady, .error, .reset] := by
  rw [current_iff (by decide) stays_sensing_iff]
  constructor
  · rintro ⟨pre, e, mid, rfl, hne, hent, hmid⟩
    obtain ⟨hidle, rfl⟩ := (enters_sensing_iff hne e).1 hent
    exact ⟨pre, mid, rfl, hidle, hmid⟩
  · rintro ⟨pre, mid, rfl, hidle, hmid⟩
    exact ⟨pre, _, mid, rfl, by rw [hidle]; decide, by rw [hidle]; rfl, hmid⟩

/-- PROCESSING: a DATA_READY was accepted in SENSING, and since then no PROCESS_DONE, ERROR or
RESET. -/
theorem processing_iff (evs : List Event) : (sensor.run evs).current = .processing ↔
    ∃ pre post, evs = pre ++ .dataReady :: post ∧ (sensor.run pre).current = .sensing ∧
      Avoids post [.processDone, .error, .reset] := by
  rw [current_iff (by decide) stays_processing_iff]
  constructor
  · rintro ⟨pre, e, post, rfl, hne, hent, hpost⟩
    obtain ⟨hsen, rfl⟩ := (enters_processing_iff hne e).1 hent
    exact ⟨pre, post, rfl, hsen, hpost⟩
  · rintro ⟨pre, post, rfl, hsen, hpost⟩
    exact ⟨pre, _, post, rfl, by rw [hsen]; decide, by rw [hsen]; rfl, hpost⟩

/-- `action_complete` runs at a PROCESS_DONE in PROCESSING. -/
theorem action_complete_iff (s : State) (e : Event) :
    (transitions s e).action = .complete ↔ e = .processDone ∧ s = .processing := by
  cases s <;> cases e <;> decide

/-- **When `action_complete` runs.**  After the history `hist`, handling `e` runs
`action_complete` if and only if `e` is PROCESS_DONE and `hist` splits at a START accepted in
IDLE and the first DATA_READY after it, with no PROCESS_DONE since that, and no ERROR or RESET
since the START. -/
theorem complete_iff (hist : List Event) (e : Event) :
    sensor.out (sensor.run hist) e = .complete ↔
      e = .processDone ∧ ∃ pre mid post, hist = pre ++ .start :: mid ++ .dataReady :: post ∧
        (sensor.run pre).current = .idle ∧
        (sensor.run (pre ++ .start :: mid)).current = .sensing ∧
        Avoids mid [.dataReady, .error, .reset] ∧ Avoids post [.processDone, .error, .reset] := by
  rw [sensor_out, action_complete_iff, processing_iff]
  refine and_congr_right fun _ => ⟨?_, ?_⟩
  · rintro ⟨h, post, rfl, hsen, hpost⟩
    obtain ⟨pre, mid, rfl, hidle, hmid⟩ := (sensing_iff h).1 hsen
    exact ⟨pre, mid, post, rfl, hidle, hsen, hmid, hpost⟩
  · rintro ⟨pre, mid, post, rfl, -, hsen, -, hpost⟩
    exact ⟨_, post, rfl, hsen, hpost⟩

/-- **What the context says about the events handled.**  After every sequence of events from
`sm_init`: ERROR is current exactly if an EVENT_ERROR was handled since the last EVENT_RESET;
`error_count` is the number of those modulo `2 ^ 32`, so it is 0 in every other state;
`sensor_value` is 0 in SENSING and the stored reading in PROCESSING; and an event runs
`action_complete` exactly if it is a PROCESS_DONE after a START accepted in IDLE and then a
DATA_READY accepted in SENSING, with no EVENT_ERROR and no EVENT_RESET in between or since. -/
theorem sensor_history (evs : List Event) :
    ((sensor.run evs).current = .error ↔ .error ∈ sinceLast Event.isReset evs) ∧
    (sensor.run evs).errorCount.toNat = errorsSinceReset evs % 2 ^ 32 ∧
    ((sensor.run evs).current ≠ .error → (sensor.run evs).errorCount = 0) ∧
    ((sensor.run evs).current = .sensing → (sensor.run evs).sensorValue = 0) ∧
    ((sensor.run evs).current = .processing →
      ∀ ctx : SmCtx, (sensor.run evs).sensorValue = ctx.actionProcessData.sensorValue) ∧
    ∀ e, sensor.out (sensor.run evs) e = .complete ↔
      e = .processDone ∧ ∃ pre mid post, evs = pre ++ .start :: mid ++ .dataReady :: post ∧
        (sensor.run pre).current = .idle ∧
        (sensor.run (pre ++ .start :: mid)).current = .sensing ∧
        Avoids mid [.dataReady, .error, .reset] ∧ Avoids post [.processDone, .error, .reset] := by
  have h := sensorInv_run evs
  refine ⟨?_, ?_, fun hne => ?_, h.sensing, fun hc _ => h.processing hc, complete_iff evs⟩
  · rw [h.error_iff, errorsSinceReset, ← Nat.pos_iff_ne_zero, List.count_pos_iff]
  · rw [h.errorCount, UInt32.toNat_ofNat']
  · have hzero : errorsSinceReset evs = 0 := by
      by_contra herr
      exact hne (h.error_iff.2 herr)
    rw [h.errorCount, hzero]
    rfl

end Sensor

end CAcheRein
