import CAcheRein.Parser.Basic

/-!
# Conservation of frames

Every started frame is completed, given up with an error, reset, or still open, and exactly one
of these (`Balance.frames`).  The counters of the context are the numbers of the matching
actions modulo `2 ^ 32`, so the same balance holds of them (`frames_conserved`).
-/

namespace CAcheRein

namespace Parser

/-- How often an action ran. -/
def ran (act : Action) (evs : List (Event × UInt8)) : ℕ := (parser.outs evs).count act

/-- A RESET handled while a frame is open. -/
def resetsOpen (step : SmCtx × Event × UInt8) : Bool :=
  step.1.current.isOpen && decide (step.2.1 = .reset)

/-- A BYTE_RECEIVED handled in IDLE or RECEIVING. -/
def takesByte (step : SmCtx × Event × UInt8) : Bool :=
  decide (step.2.1 = .byteReceived) &&
    (decide (step.1.current = .idle) || decide (step.1.current = .receiving))

theorem ran_concat (act : Action) (evs : List (Event × UInt8)) (ev : Event × UInt8) :
    ran act (evs ++ [ev]) =
      ran act evs + ((transitions (parser.run evs).current ev.1).action == act).toNat := by
  rw [ran, Machine.outs_concat, List.count_append, List.count_singleton, parser_out, ran]
  cases (transitions (parser.run evs).current ev.1).action == act <;> rfl

theorem countP_steps_concat (P : SmCtx × Event × UInt8 → Bool) (evs : List (Event × UInt8))
    (ev : Event × UInt8) : (parser.steps (evs ++ [ev])).countP P =
      (parser.steps evs).countP P + (P (parser.run evs, ev)).toNat := by
  rw [Machine.steps_concat, List.countP_append, List.countP_singleton]
  cases P (parser.run evs, ev) <;> rfl

/-- A byte is taken by the two storing actions and by no other. -/
theorem takesByte_eq (ctx : SmCtx) (e : Event) (d : UInt8) :
    takesByte (ctx, e, d) = ((transitions ctx.current e).action == .startFrame ||
      (transitions ctx.current e).action == .storeByte) := by
  unfold takesByte
  generalize ctx.current = st
  cases st <;> cases e <;> rfl

/-- RESET runs `action_reset` in every state, and no other event does. -/
theorem resetsOpen_eq (ctx : SmCtx) (e : Event) (d : UInt8) :
    resetsOpen (ctx, e, d) =
      (ctx.current.isOpen && (transitions ctx.current e).action == .reset) := by
  unfold resetsOpen
  generalize ctx.current = st
  cases st <;> cases e <;> rfl

/-- What an action adds to each counter, and how it opens and closes a frame. -/
structure Adds (ctx : SmCtx) (act : Action) (ctx' : SmCtx) : Prop where
  processed : ctx'.processedCount = ctx.processedCount + UInt32.ofNat (act == .complete).toNat
  errors : ctx'.errorCount = ctx.errorCount + UInt32.ofNat (act == .error).toNat
  rx : ctx'.rxCount =
    ctx.rxCount + UInt32.ofNat (act == .startFrame || act == .storeByte).toNat
  opens : ctx.current.isOpen.toNat + (act == .startFrame).toNat =
    (act == .complete).toNat + (act == .error).toNat +
      (ctx.current.isOpen && act == .reset).toNat + ctx'.current.isOpen.toNat

theorem Handled.adds {ctx ctx' : SmCtx} {e : Event} {d : UInt8} {act : Action}
    (h : Handled ctx e d act ctx') : Adds ctx act ctx' := by
  have hzero : ∀ n : UInt32, n = n + UInt32.ofNat 0 := fun n => (UInt32.add_zero n).symm
  cases h with
  | ignore => exact ⟨hzero _, hzero _, hzero _, by cases ctx.current.isOpen <;> rfl⟩
  | startFrame hcur => exact ⟨hzero _, hzero _, rfl, by rw [hcur]; rfl⟩
  | storeByte hcur =>
    have hcur' : (ctx.actionStoreByte d).current = .receiving := hcur
    exact ⟨hzero _, hzero _, rfl, by rw [hcur, hcur']; rfl⟩
  | validate hcur => exact ⟨hzero _, hzero _, hzero _, by rw [hcur]; rfl⟩
  | process hcur => exact ⟨hzero _, hzero _, hzero _, by rw [hcur]; rfl⟩
  | complete hcur => exact ⟨rfl, hzero _, hzero _, by rw [hcur]; rfl⟩
  | error hcur => exact ⟨hzero _, rfl, hzero _, by rw [hcur]; rfl⟩
  | reset => exact ⟨hzero _, hzero _, hzero _, by cases ctx.current.isOpen <;> rfl⟩

theorem SmCtx.adds (ctx : SmCtx) (e : Event) (d : UInt8) :
    Adds ctx (transitions ctx.current e).action (ctx.handleEvent e d) := by
  obtain ⟨act, ctx', hact, hctx, hst⟩ := ctx.handled e d
  rw [hact, hctx]
  exact hst.adds

/-- The balance of a history: the counters are the numbers of their actions, and the frames
started are those that ended and the open one. -/
structure Balance (evs : List (Event × UInt8)) (ctx : SmCtx) : Prop where
  processed : ctx.processedCount = UInt32.ofNat (ran .complete evs)
  errors : ctx.errorCount = UInt32.ofNat (ran .error evs)
  rx : ctx.rxCount = UInt32.ofNat ((parser.steps evs).countP takesByte)
  frames : ran .startFrame evs = ran .complete evs + ran .error evs +
    (parser.steps evs).countP resetsOpen + ctx.current.isOpen.toNat

/-- One event keeps the balance. -/
theorem balance_next {evs : List (Event × UInt8)} (h : Balance evs (parser.run evs)) (e : Event)
    (d : UInt8) : Balance (evs ++ [(e, d)]) ((parser.run evs).handleEvent e d) := by
  obtain ⟨hdone, herr, hrx, hopens⟩ := (parser.run evs).adds e d
  refine ⟨?_, ?_, ?_, ?_⟩
  · rw [hdone, h.processed, ran_concat, UInt32.ofNat_add]
  · rw [herr, h.errors, ran_concat, UInt32.ofNat_add]
  · rw [hrx, h.rx, countP_steps_concat, takesByte_eq, UInt32.ofNat_add]
  · have hframes := h.frames
    rw [ran_concat, ran_concat, ran_concat, countP_steps_concat, resetsOpen_eq]
    dsimp only
    omega

theorem balance_run (evs : List (Event × UInt8)) : Balance evs (parser.run evs) := by
  have hinit : Balance [] parser.init := ⟨rfl, rfl, rfl, rfl⟩
  exact Machine.run_induct hinit (fun _ ev h => balance_next h ev.1 ev.2) evs

/-- **Conservation of frames**, modulo `2 ^ 32`: the frames started are those processed, those in
error, those reset while open, and the open one; and `rx_count` is the number of bytes read in
IDLE or RECEIVING. -/
theorem frames_conserved (evs : List (Event × UInt8)) :
    UInt32.ofNat (ran .startFrame evs) =
        (parser.run evs).processedCount + (parser.run evs).errorCount +
          UInt32.ofNat ((parser.steps evs).countP resetsOpen) +
          (if (parser.run evs).current.isOpen then 1 else 0) ∧
      (parser.run evs).rxCount = UInt32.ofNat ((parser.steps evs).countP takesByte) := by
  obtain ⟨hdone, herr, hrx, hframes⟩ := balance_run evs
  refine ⟨?_, hrx⟩
  rw [hframes, hdone, herr, UInt32.ofNat_add, UInt32.ofNat_add, UInt32.ofNat_add]
  congr 1
  cases (parser.run evs).current.isOpen <;> rfl

end Parser

end CAcheRein
