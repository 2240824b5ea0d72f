import CAcheRein.Parser.Accounting
import CAcheRein.Parser.Frame

/-!
# Sessions

A `Session` is a way from IDLE back to IDLE: an event that IDLE ignores or resets on, or a frame
from its first byte to the PROCESS_DONE or RESET that ends it, with whatever is ignored on the
way.  The runs that end in IDLE are exactly the sequences of sessions, and the frames the parser
completes along them are the payloads of the sessions that go through, in order, each cut to
`FRAME_MAX_LEN` bytes (`sessions_complete`).

## Main definitions

* `Stay s` : events that leave `s` current.
* `Rest s` : the rest of a session, from a state `s` other than IDLE.
* `completedFrom`, `errorsFrom` : what a run completes, and how often it gives up.
-/

namespace CAcheRein

namespace Parser

/-- The events that a state does not ignore, or that start a frame in it. -/
def leaving : State → List Event
  | .idle => [.byteReceived]
  | .receiving => [.frameComplete, .timeout, .reset]
  | .validating => [.checksumOk, .checksumFail, .timeout, .reset]
  | .processing => [.processDone, .timeout, .reset]
  | .error => [.reset]

theorem stays_iff (s : State) (e : Event) : (transitions s e).nextState = s ↔ e ∉ leaving s := by
  cases s <;> cases e <;> decide

/-- Events read in a state without leaving it. -/
structure Stay (s : State) where
  events : List (Event × UInt8)
  avoids : Avoids events (leaving s)

/-- An event that ends an open frame with an error. -/
def Fails (s : State) (e : Event) : Prop :=
  (s.isOpen = true ∧ e = .timeout) ∨ (s = .validating ∧ e = .checksumFail)

/-- The rest of a session. -/
inductive Rest : State → Type
  | ended (w : Stay .receiving) (d : UInt8) (r : Rest .validating) : Rest .receiving
  | approved (w : Stay .validating) (d : UInt8) (r : Rest .processing) : Rest .validating
  | done (w : Stay .processing) (d : UInt8) : Rest .processing
  | failed {s : State} (w : Stay s) (e : Event) (d : UInt8) (h : Fails s e) (r : Rest .error) :
      Rest s
  | reset {s : State} (h : s ≠ .idle) (w : Stay s) (d : UInt8) : Rest s

/-- A way from IDLE back to IDLE. -/
inductive Session
  | quiet (e : Event) (d : UInt8) (h : e ≠ .byteReceived)
  | frame (b : UInt8) (r : Rest .receiving)

namespace Rest

/-- The events of the rest of a session. -/
def events : {s : State} → Rest s → List (Event × UInt8)
  | _, .ended w d r => w.events ++ (.frameComplete, d) :: r.events
  | _, .approved w d r => w.events ++ (.checksumOk, d) :: r.events
  | _, .done w d => w.events ++ [(.processDone, d)]
  | _, .failed w e d _ r => w.events ++ (e, d) :: r.events
  | _, .reset _ w d => w.events ++ [(.reset, d)]

/-- The frame the session completes, if `log` are the bytes accepted before. -/
def payload : {s : State} → Rest s → List UInt8 → Option (List UInt8)
  | _, .ended w _ r, log => r.payload (log ++ rxBytes w.events)
  | _, .approved _ _ r, log => r.payload log
  | _, .done _ _, log => some (log.take frameMaxLen)
  | _, .failed _ _ _ _ _, _ => none
  | _, .reset _ _ _, _ => none

/-- The session gives up with an error. -/
def fails : {s : State} → Rest s → Bool
  | _, .ended _ _ r => r.fails
  | _, .approved _ _ r => r.fails
  | _, .done _ _ => false
  | _, .failed _ _ _ _ _ => true
  | _, .reset _ _ _ => false

end Rest

namespace Session

/-- The events of a session. -/
def events : Session → List (Event × UInt8)
  | .quiet e d _ => [(e, d)]
  | .frame b r => (.byteReceived, b) :: r.events

/-- The frame a session completes. -/
def payload : Session → Option (List UInt8)
  | .quiet _ _ _ => none
  | .frame b r => r.payload [b]

/-- The session gives up with an error. -/
def fails : Session → Bool
  | .quiet _ _ _ => false
  | .frame _ r => r.fails

end Session

/-! ### What a run completes -/

/-- The frames completed by the events `evs`, as they were when they were completed. -/
def completedFrom (ctx : SmCtx) (evs : List (Event × UInt8)) : List (List UInt8) :=
  (parser.stepsFrom ctx evs).filterMap fun p =>
    if (transitions p.1.current p.2.1).action = .complete then some p.1.frame.bytes else none

/-- How often `action_error` runs. -/
def errorsFrom (ctx : SmCtx) (evs : List (Event × UInt8)) : ℕ :=
  (parser.stepsFrom ctx evs).countP fun p => (transitions p.1.current p.2.1).action = .error

theorem completedFrom_append (ctx : SmCtx) (evs evs' : List (Event × UInt8)) :
    completedFrom ctx (evs ++ evs') =
      completedFrom ctx evs ++ completedFrom (parser.runFrom ctx evs) evs' := by
  rw [completedFrom, Machine.stepsFrom_append, List.filterMap_append]
  rfl

theorem errorsFrom_append (ctx : SmCtx) (evs evs' : List (Event × UInt8)) :
    errorsFrom ctx (evs ++ evs') =
      errorsFrom ctx evs + errorsFrom (parser.runFrom ctx evs) evs' := by
  rw [errorsFrom, Machine.stepsFrom_append, List.countP_append]
  rfl

theorem completedFrom_singleton (ctx : SmCtx) (e : Event) (d : UInt8) :
    completedFrom ctx [(e, d)] =
      if (transitions ctx.current e).action = .complete then [ctx.frame.bytes] else [] := by
  simp only [completedFrom, Machine.stepsFrom_cons, Machine.stepsFrom_nil, List.filterMap_cons,
    List.filterMap_nil]
  split_ifs <;> rfl

theorem errorsFrom_singleton (ctx : SmCtx) (e : Event) (d : UInt8) :
    errorsFrom ctx [(e, d)] = if (transitions ctx.current e).action = .error then 1 else 0 := by
  simp [errorsFrom, List.countP_cons]

/-- The two counters count these. -/
theorem counts_runFrom (ctx : SmCtx) (evs : List (Event × UInt8)) :
    (parser.runFrom ctx evs).processedCount =
        ctx.processedCount + UInt32.ofNat (completedFrom ctx evs).length ∧
      (parser.runFrom ctx evs).errorCount =
        ctx.errorCount + UInt32.ofNat (errorsFrom ctx evs) := by
  induction evs using List.reverseRecOn with
  | nil => exact ⟨(UInt32.add_zero _).symm, (UInt32.add_zero _).symm⟩
  | append_singleton evs ev ih =>
    obtain ⟨hdone, herr⟩ := ih
    obtain ⟨e, d⟩ := ev
    have hadds := (parser.runFrom ctx evs).adds e d
    rw [Machine.runFrom_concat, completedFrom_append, errorsFrom_append, completedFrom_singleton,
      errorsFrom_singleton, List.length_append, UInt32.ofNat_add, UInt32.ofNat_add,
      ← UInt32.add_assoc, ← UInt32.add_assoc, ← hdone, ← herr]
    refine ⟨hadds.processed.trans ?_, hadds.errors.trans ?_⟩ <;>
      generalize (transitions (parser.runFrom ctx evs).current e).action = act <;>
      cases act <;> rfl

/-! ### Staying in a state -/

/-- The bytes taken by events that leave `s` current. -/
def taken (s : State) (evs : List (Event × UInt8)) : List UInt8 :=
  if s = .receiving then rxBytes evs else []

theorem taken_concat (s : State) (evs : List (Event × UInt8)) (ev : Event × UInt8) :
    taken s (evs ++ [ev]) = taken s evs ++ taken s [ev] := by
  unfold taken
  split_ifs
  · simp [rxBytes]
  · rfl

/-- One event that leaves a state other than IDLE current. -/
theorem stay_next {ctx : SmCtx} (hne : ctx.current ≠ .idle) {e : Event}
    (he : e ∉ leaving ctx.current) (d : UInt8) :
    ((transitions ctx.current e).action = .ignore ∨
        (transitions ctx.current e).action = .storeByte) ∧
      ∀ log : List UInt8, ctx.frame.Holds (log.take frameMaxLen) →
        (ctx.handleEvent e d).frame.Holds
          ((log ++ taken ctx.current [(e, d)]).take frameMaxLen) := by
  have hstay := (stays_iff ctx.current e).2 he
  have hnext := ctx.current_handleEvent e d
  obtain ⟨act, ctx', hact, hctx, hst⟩ := ctx.handled e d
  rw [hctx, hstay] at hnext
  rw [hctx]
  cases hst with
  | ignore _ =>
    refine ⟨.inl hact, fun log hlog => ?_⟩
    -- only RECEIVING takes a byte, and there it is not ignored
    have hnone : taken ctx.current [(e, d)] = [] := by
      revert hact
      generalize ctx.current = s
      cases s <;> cases e <;> intro hact <;> first | rfl | cases hact
    rwa [hnone, List.append_nil]
  | storeByte hcur hev =>
    refine ⟨.inr hact, fun log hlog => ?_⟩
    have hstore := holds_storeGuarded hlog d
    rw [take_take_concat] at hstore
    have hbyte : taken ctx.current [(e, d)] = [d] := by
      rw [hcur, hev]
      rfl
    rw [hbyte]
    exact hstore
  | startFrame hcur _ => exact absurd hcur hne
  | validate hcur _ => rw [hcur] at hnext; cases hnext
  | process hcur _ => rw [hcur] at hnext; cases hnext
  | complete hcur _ => rw [hcur] at hnext; cases hnext
  | error hopen _ _ =>
    -- in ERROR no frame is open
    have hcur : State.error = ctx.current := hnext
    rw [← hcur] at hopen
    cases hopen
  | reset _ => exact absurd hnext.symm hne

/-- **Staying in a state** completes nothing, fails nothing, and takes the bytes in RECEIVING. -/
theorem Stay.run {s : State} (w : Stay s) (hne : s ≠ .idle) {ctx : SmCtx} (hcur : ctx.current = s)
    {log : List UInt8} (hlog : ctx.frame.Holds (log.take frameMaxLen)) :
    (parser.runFrom ctx w.events).current = s ∧ completedFrom ctx w.events = [] ∧
      errorsFrom ctx w.events = 0 ∧
      (parser.runFrom ctx w.events).frame.Holds
        ((log ++ taken s w.events).take frameMaxLen) := by
  obtain ⟨evs, havoid⟩ := w
  simp only
  induction evs using List.reverseRecOn with
  | nil =>
    refine ⟨hcur, rfl, rfl, ?_⟩
    have hnil : taken s [] = [] := by
      unfold taken
      split_ifs <;> rfl
    rw [hnil, List.append_nil]
    exact hlog
  | append_singleton evs ev ih =>
    obtain ⟨hevs, hev⟩ := havoid.of_concat
    obtain ⟨hc, hdone, herr, hholds⟩ := ih hevs
    obtain ⟨e, d⟩ := ev
    subst hcur
    obtain ⟨hact, hstep⟩ := stay_next (hc ▸ hne) (hc ▸ hev) d
    rw [hc] at hact hstep
    rw [Machine.runFrom_concat, completedFrom_append, errorsFrom_append, hdone, herr,
      completedFrom_singleton, errorsFrom_singleton, taken_concat, ← List.append_assoc, hc]
    refine ⟨?_, ?_, ?_, hstep _ hholds⟩
    · rw [parser_next, SmCtx.current_handleEvent, hc]
      exact (stays_iff _ _).2 hev
    · rcases hact with hact | hact <;> rw [hact] <;> rfl
    · rcases hact with hact | hact <;> rw [hact] <;> rfl

/-! ### Sessions are completed -/

/-- The events `evs` lead back to IDLE, complete `out`, and fail as often as `bad` says. -/
structure Ends (ctx : SmCtx) (evs : List (Event × UInt8)) (out : Option (List UInt8))
    (bad : Bool) : Prop where
  current : (parser.runFrom ctx evs).current = .idle
  completed : completedFrom ctx evs = out.toList
  errors : errorsFrom ctx evs = bad.toNat

/-- A run that stays in a state, leaves it by one event, and goes on. -/
theorem Ends.append {s : State} {w : Stay s} {ctx : SmCtx} {log : List UInt8} (hne : s ≠ .idle)
    (hcur : ctx.current = s) (hlog : ctx.frame.Holds (log.take frameMaxLen)) {e : Event}
    {d : UInt8} {evs : List (Event × UInt8)} {out : Option (List UInt8)} {bad : Bool}
    (h : ∀ ctx', ctx'.current = s →
      ctx'.frame.Holds ((log ++ taken s w.events).take frameMaxLen) →
      Ends ctx' ((e, d) :: evs) out bad) : Ends ctx (w.events ++ (e, d) :: evs) out bad := by
  obtain ⟨hc, hdone, herr, hholds⟩ := w.run hne hcur hlog
  obtain ⟨h₁, h₂, h₃⟩ := h _ hc hholds
  refine ⟨?_, ?_, ?_⟩
  · rw [Machine.runFrom_append, h₁]
  · rw [completedFrom_append, hdone, h₂, List.nil_append]
  · rw [errorsFrom_append, herr, h₃, Nat.zero_add]

/-- One event that neither completes nor fails, before events that lead back to IDLE. -/
theorem Ends.cons {ctx : SmCtx} {e : Event} {d : UInt8} {evs : List (Event × UInt8)}
    {out : Option (List UInt8)} {bad : Bool}
    (hdone : (transitions ctx.current e).action ≠ .complete)
    (herr : (transitions ctx.current e).action ≠ .error)
    (h : Ends (ctx.handleEvent e d) evs out bad) : Ends ctx ((e, d) :: evs) out bad := by
  have hcons : (e, d) :: evs = [(e, d)] ++ evs := rfl
  refine ⟨h.current, ?_, ?_⟩
  · rw [hcons, completedFrom_append, completedFrom_singleton, if_neg hdone]
    exact h.completed
  · rw [hcons, errorsFrom_append, errorsFrom_singleton, if_neg herr, Nat.zero_add]
    exact h.errors

/-- **The rest of a session** leads back to IDLE and completes its payload. -/
theorem Rest.ends {s : State} (r : Rest s) {ctx : SmCtx} {log : List UInt8}
    (hcur : ctx.current = s) (hlog : ctx.frame.Holds (log.take frameMaxLen)) :
    Ends ctx r.events (r.payload log) r.fails := by
  induction r generalizing ctx log with
  | ended w d r ih =>
    refine Ends.append (by decide) hcur hlog fun ctx' hc hl => ?_
    refine Ends.cons (by rw [hc]; decide) (by rw [hc]; decide) ?_
    refine ih ?_ ?_
    · rw [SmCtx.current_handleEvent, hc]; rfl
    · simp only [SmCtx.handleEvent, hc, transitions, Action.apply]
      exact hl
  | approved w d r ih =>
    refine Ends.append (by decide) hcur hlog fun ctx' hc hl => ?_
    refine Ends.cons (by rw [hc]; decide) (by rw [hc]; decide) ?_
    refine ih ?_ ?_
    · rw [SmCtx.current_handleEvent, hc]; rfl
    · simp only [SmCtx.handleEvent, hc, transitions, Action.apply]
      rwa [taken, if_neg (by decide), List.append_nil] at hl
  | done w d =>
    refine Ends.append (by decide) hcur hlog fun ctx' hc hl => ?_
    rw [taken, if_neg (by decide), List.append_nil] at hl
    refine ⟨?_, ?_, ?_⟩
    · rw [Machine.runFrom_cons, Machine.runFrom_nil, parser_next, SmCtx.current_handleEvent, hc]
      rfl
    · rw [completedFrom_singleton, hc, hl.bytes_eq]
      rfl
    · rw [errorsFrom_singleton, hc]
      rfl
  | @failed s w e d h r ih =>
    have hne : s ≠ .idle := by
      rintro rfl
      rcases h with ⟨h, -⟩ | ⟨h, -⟩ <;> cases h
    have hcell : transitions s e = ⟨.error, .error⟩ := by
      rcases h with ⟨hopen, rfl⟩ | ⟨rfl, rfl⟩
      · cases s <;> first | rfl | cases hopen
      · rfl
    refine Ends.append hne hcur hlog fun ctx' hc hl => ?_
    have hnext : ctx'.handleEvent e d = { ctx'.actionError with current := .error } := by
      rw [SmCtx.handleEvent, hc, hcell]
      rfl
    have hcur' : (ctx'.handleEvent e d).current = .error := by rw [hnext]
    have hrest := ih hcur' (by rw [hnext]; exact hl)
    -- in ERROR nothing is left but to wait for the RESET
    obtain ⟨hp, hf⟩ : r.payload (log ++ taken s w.events) = none ∧ r.fails = false := by
      cases r with
      | failed _ _ _ h _ => rcases h with ⟨h, -⟩ | ⟨h, -⟩ <;> cases h
      | reset _ _ _ => exact ⟨rfl, rfl⟩
    rw [hp, hf] at hrest
    have hcons : (e, d) :: r.events = [(e, d)] ++ r.events := rfl
    refine ⟨hrest.current, ?_, ?_⟩
    · rw [hcons, completedFrom_append, completedFrom_singleton, hc, hcell]
      exact hrest.completed
    · rw [hcons, errorsFrom_append, errorsFrom_singleton, hc, hcell]
      exact congrArg (1 + ·) hrest.errors
  | @reset s h w d =>
    refine Ends.append h hcur hlog fun ctx' hc hl => ?_
    have hcell : transitions s .reset = ⟨.idle, .reset⟩ := by cases s <;> rfl
    refine Ends.cons (by rw [hc, hcell]; decide) (by rw [hc, hcell]; decide) ⟨?_, rfl, rfl⟩
    rw [Machine.runFrom_nil, SmCtx.current_handleEvent, hc, hcell]

theorem Session.ends (ss : Session) {ctx : SmCtx} (hidle : ctx.current = .idle) :
    Ends ctx ss.events ss.payload ss.fails := by
  cases ss with
  | quiet e d h =>
    have hact : (transitions .idle e).action ≠ .complete ∧
        (transitions .idle e).action ≠ .error := by
      cases e <;> decide
    refine Ends.cons (hidle ▸ hact.1) (hidle ▸ hact.2) ⟨?_, rfl, rfl⟩
    rw [Machine.runFrom_nil, SmCtx.current_handleEvent, hidle]
    cases e <;> first | rfl | exact absurd rfl h
  | frame b r =>
    have hnext : ctx.handleEvent .byteReceived b =
        { ctx.actionStartFrame b with current := .receiving } := by
      rw [SmCtx.handleEvent, hidle]
      rfl
    refine Ends.cons (by rw [hidle]; decide) (by rw [hidle]; decide) (r.ends ?_ ?_)
    · rw [hnext]
    · rw [hnext]
      exact holds_startFrame ctx b

/-! ### Every run back to IDLE is made of sessions -/

/-- The state after some events. -/
def path (s : State) (evs : List (Event × UInt8)) : State :=
  evs.foldl (fun s ev => (transitions s ev.1).nextState) s

theorem current_runFrom (ctx : SmCtx) (evs : List (Event × UInt8)) :
    (parser.runFrom ctx evs).current = path ctx.current evs := by
  induction evs generalizing ctx with
  | nil => rfl
  | cons ev evs ih => exact ih _

/-- The empty stay. -/
def Stay.none (s : State) : Stay s := ⟨[], fun _ h => nomatch h⟩

/-- One more event before the rest of a session, if it does not leave the state. -/
theorem Rest.exists_cons {s : State} (r : Rest s) (ev : Event × UInt8) (h : ev.1 ∉ leaving s) :
    ∃ r' : Rest s, r'.events = ev :: r.events := by
  have hstay : ∀ w : Stay s, Avoids (ev :: w.events) (leaving s) := by
    rintro w x hx
    rcases List.mem_cons.1 hx with rfl | hx
    · exact h
    · exact w.avoids x hx
  cases r with
  | ended w d r => exact ⟨.ended ⟨_, hstay w⟩ d r, rfl⟩
  | approved w d r => exact ⟨.approved ⟨_, hstay w⟩ d r, rfl⟩
  | done w d => exact ⟨.done ⟨_, hstay w⟩ d, rfl⟩
  | failed w e d hf r => exact ⟨.failed ⟨_, hstay w⟩ e d hf r, rfl⟩
  | reset hne w d => exact ⟨.reset hne ⟨_, hstay w⟩ d, rfl⟩

/-- A run from outside IDLE that ends in IDLE starts with the rest of a session. -/
theorem exists_rest (evs : List (Event × UInt8)) : ∀ s, s ≠ State.idle → path s evs = .idle →
    ∃ (r : Rest s) (evs' : List (Event × UInt8)), evs = r.events ++ evs' ∧
      path .idle evs' = .idle := by
  induction evs with
  | nil => exact fun s hne h => absurd h hne
  | cons ev evs ih =>
    intro s hne h
    obtain ⟨e, d⟩ := ev
    change path (transitions s e).nextState evs = .idle at h
    by_cases he : e ∈ leaving s
    · -- the state is left: by the way through, by a failure or by a reset
      by_cases hreset : e = .reset
      · subst hreset
        have hcell : (transitions s .reset).nextState = .idle := by cases s <;> rfl
        rw [hcell] at h
        exact ⟨.reset hne (.none s) d, evs, rfl, h⟩
      by_cases hfail : Fails s e
      · have hcell : (transitions s e).nextState = .error := by
          rcases hfail with ⟨hopen, rfl⟩ | ⟨rfl, rfl⟩
          · cases s <;> first | rfl | cases hopen
          · rfl
        rw [hcell] at h
        obtain ⟨r, evs', rfl, h'⟩ := ih .error (by decide) h
        exact ⟨.failed (.none s) e d hfail r, evs', rfl, h'⟩
      cases s with
      | idle => exact absurd rfl hne
      | receiving =>
        obtain rfl : e = .frameComplete := by
          cases e <;> first | rfl | exact absurd he (by decide) | exact absurd rfl hreset |
            exact absurd (.inl ⟨rfl, rfl⟩) hfail
        obtain ⟨r, evs', rfl, h'⟩ := ih .validating (by decide) h
        exact ⟨.ended (.none _) d r, evs', rfl, h'⟩
      | validating =>
        obtain rfl : e = .checksumOk := by
          cases e <;> first | rfl | exact absurd he (by decide) | exact absurd rfl hreset |
            exact absurd (.inl ⟨rfl, rfl⟩) hfail | exact absurd (.inr ⟨rfl, rfl⟩) hfail
        obtain ⟨r, evs', rfl, h'⟩ := ih .processing (by decide) h
        exact ⟨.approved (.none _) d r, evs', rfl, h'⟩
      | processing =>
        obtain rfl : e = .processDone := by
          cases e <;> first | rfl | exact absurd he (by decide) | exact absurd rfl hreset |
            exact absurd (.inl ⟨rfl, rfl⟩) hfail
        exact ⟨.done (.none _) d, evs, rfl, h⟩
      | error => exact absurd (List.mem_singleton.1 he) hreset
    · rw [(stays_iff s e).2 he] at h
      obtain ⟨r, evs', rfl, h'⟩ := ih s hne h
      obtain ⟨r', hr'⟩ := r.exists_cons (e, d) he
      exact ⟨r', evs', by rw [hr']; rfl, h'⟩

theorem exists_sessions (n : ℕ) : ∀ evs : List (Event × UInt8), evs.length ≤ n →
    path .idle evs = .idle → ∃ ss : List Session, evs = ss.flatMap Session.events := by
  induction n with
  | zero =>
    intro evs hn _
    rw [List.length_eq_zero_iff.1 (Nat.le_zero.1 hn)]
    exact ⟨[], rfl⟩
  | succ n ih =>
    intro evs hn h
    rcases evs with _ | ⟨⟨e, d⟩, evs⟩
    · exact ⟨[], rfl⟩
    change path (transitions .idle e).nextState evs = .idle at h
    rw [List.length_cons] at hn
    by_cases he : e = .byteReceived
    · subst he
      obtain ⟨r, evs', rfl, h'⟩ := exists_rest evs .receiving (by decide) h
      rw [List.length_append] at hn
      obtain ⟨ss, rfl⟩ := ih evs' (by omega) h'
      exact ⟨.frame d r :: ss, rfl⟩
    · have hcell : (transitions .idle e).nextState = .idle := by
        cases e <;> first | rfl | exact absurd rfl he
      rw [hcell] at h
      obtain ⟨ss, rfl⟩ := ih evs (by omega) h
      exact ⟨.quiet e d he :: ss, rfl⟩

/-! ### Sequences of sessions -/

theorem ends_flatMap (ss : List Session) : ∀ {ctx : SmCtx}, ctx.current = .idle →
    (parser.runFrom ctx (ss.flatMap Session.events)).current = .idle ∧
      completedFrom ctx (ss.flatMap Session.events) = ss.filterMap Session.payload ∧
      errorsFrom ctx (ss.flatMap Session.events) = ss.countP Session.fails := by
  induction ss with
  | nil => exact fun hidle => ⟨hidle, rfl, rfl⟩
  | cons s ss ih =>
    intro ctx hidle
    obtain ⟨h₁, h₂, h₃⟩ := s.ends hidle
    obtain ⟨hc, hdone, herr⟩ := ih h₁
    rw [List.flatMap_cons, Machine.runFrom_append, completedFrom_append, errorsFrom_append, h₂, h₃,
      hdone, herr]
    refine ⟨hc, ?_, ?_⟩
    · cases hp : s.payload <;> simp [hp]
    · cases hf : s.fails <;> simp [hf, Nat.add_comm]

/-- **Runs back to IDLE are sequences of sessions.**  A history ends in IDLE if and only if it is
a sequence of sessions; and from every reachable context in IDLE, or after a RESET from any other,
a sequence of sessions completes exactly the payloads of those that go through, in order, moves
`processed_count` by their number and `error_count` by the number of those that fail, and ends in
IDLE. -/
theorem sessions_complete (hist : List (Event × UInt8)) :
    ((parser.run hist).current = .idle ↔ ∃ ss : List Session, hist = ss.flatMap Session.events) ∧
      ∀ (d : UInt8) (ss : List Session) (ctx : SmCtx),
        (ctx = parser.run hist ∧ ctx.current = .idle) ∨ ctx = parser.run (hist ++ [(.reset, d)]) →
        (parser.runFrom ctx (ss.flatMap Session.events)).current = .idle ∧
          completedFrom ctx (ss.flatMap Session.events) = ss.filterMap Session.payload ∧
          (parser.runFrom ctx (ss.flatMap Session.events)).processedCount =
            ctx.processedCount + UInt32.ofNat (ss.filterMap Session.payload).length ∧
          (parser.runFrom ctx (ss.flatMap Session.events)).errorCount =
            ctx.errorCount + UInt32.ofNat (ss.countP Session.fails) := by
  refine ⟨⟨fun h => ?_, ?_⟩, fun d ss ctx hctx => ?_⟩
  · rw [Machine.run, current_runFrom] at h
    exact exists_sessions _ hist le_rfl h
  · rintro ⟨ss, rfl⟩
    exact (ends_flatMap ss rfl).1
  · have hidle : ctx.current = .idle := by
      rcases hctx with ⟨-, hidle⟩ | rfl
      · exact hidle
      · rw [Machine.run_concat, parser_next, SmCtx.current_handleEvent]
        cases (parser.run hist).current <;> rfl
    obtain ⟨hc, hdone, herr⟩ := ends_flatMap ss hidle
    obtain ⟨hp, he⟩ := counts_runFrom ctx (ss.flatMap Session.events)
    rw [hdone] at hp
    rw [herr] at he
    exact ⟨hc, hdone, hp, he⟩

/-- A frame of two bytes, with a noise event in it. -/
def twoByteSession : Session :=
  .frame 5 (.ended ⟨[(.checksumOk, 9), (.byteReceived, 6)], by simp [Avoids, leaving]⟩ 0
    (.approved (.none _) 0 (.done (.none _) 0)))

/-- After a timeout and a RESET the two-byte frame goes through. -/
theorem sessions_complete_after_timeout :
    completedFrom (parser.run ([(.byteReceived, 1), (.timeout, 0)] ++ [(.reset, 0)]))
      [(.byteReceived, 5), (.checksumOk, 9), (.byteReceived, 6), (.frameComplete, 0),
        (.checksumOk, 0), (.processDone, 0)] = [[5, 6]] :=
  ((sessions_complete _).2 0 [twoByteSession] _ (.inr rfl)).2.1

end Parser

end CAcheRein
