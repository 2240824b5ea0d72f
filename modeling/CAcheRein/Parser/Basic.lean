import CAcheRein.Transition.Machine

/-!
# The UART frame parser

The table-driven state machine of `module4-data-structures/ex05-state-machine-advanced`: a table
gives the next state and the action of every state and event, and the actions fill a frame buffer
and count received bytes, errors and processed frames.

An action is the name of a function in the table (`Action`), and `Action.apply` is the function.
What the source prints is left out.

## Main definitions

* `transitions`, `Action.apply`, `SmCtx.init`, `SmCtx.handleEvent` : the source.
* `parser` : the parser as a `Machine` that answers each event with the action it ran.

## Main results

* `SmCtx.handled` : what one event can do, in eight cases instead of the table's thirty-five.
-/

namespace CAcheRein

namespace Parser

/-- `state_t`. -/
inductive State where
  | idle
  | receiving
  | validating
  | processing
  | error
  deriving DecidableEq

/-- `event_t`. -/
inductive Event where
  | byteReceived
  | frameComplete
  | checksumOk
  | checksumFail
  | processDone
  | timeout
  | reset
  deriving DecidableEq

/-- `FRAME_MAX_LEN`. -/
abbrev frameMaxLen : ℕ := 16

/-- `frame_t`. -/
structure Frame where
  data : Vector UInt8 frameMaxLen
  length : UInt8
  checksum : UInt8
  deriving DecidableEq

/-- A frame cleared by `memset`. -/
def Frame.zero : Frame := ⟨Vector.replicate frameMaxLen 0, 0, 0⟩

/-- `sm_ctx_t`. -/
structure SmCtx where
  current : State
  frame : Frame
  rxCount : UInt32
  errorCount : UInt32
  processedCount : UInt32
  deriving DecidableEq

/-- The action functions the table points to. -/
inductive Action where
  | ignore
  | startFrame
  | storeByte
  | validate
  | process
  | complete
  | error
  | reset
  deriving DecidableEq

/-- `transition_t`. -/
structure Transition where
  nextState : State
  action : Action

/-- The transition table. -/
def transitions : State → Event → Transition
  | .idle, .byteReceived => ⟨.receiving, .startFrame⟩
  | .idle, .frameComplete => ⟨.idle, .ignore⟩
  | .idle, .checksumOk => ⟨.idle, .ignore⟩
  | .idle, .checksumFail => ⟨.idle, .ignore⟩
  | .idle, .processDone => ⟨.idle, .ignore⟩
  | .idle, .timeout => ⟨.idle, .ignore⟩
  | .idle, .reset => ⟨.idle, .reset⟩
  | .receiving, .byteReceived => ⟨.receiving, .storeByte⟩
  | .receiving, .frameComplete => ⟨.validating, .validate⟩
  | .receiving, .checksumOk => ⟨.receiving, .ignore⟩
  | .receiving, .checksumFail => ⟨.receiving, .ignore⟩
  | .receiving, .processDone => ⟨.receiving, .ignore⟩
  | .receiving, .timeout => ⟨.error, .error⟩
  | .receiving, .reset => ⟨.idle, .reset⟩
  | .validating, .byteReceived => ⟨.validating, .ignore⟩
  | .validating, .frameComplete => ⟨.validating, .ignore⟩
  | .validating, .checksumOk => ⟨.processing, .process⟩
  | .validating, .checksumFail => ⟨.error, .error⟩
  | .validating, .processDone => ⟨.validating, .ignore⟩
  | .validating, .timeout => ⟨.error, .error⟩
  | .validating, .reset => ⟨.idle, .reset⟩
  | .processing, .byteReceived => ⟨.processing, .ignore⟩
  | .processing, .frameComplete => ⟨.processing, .ignore⟩
  | .processing, .checksumOk => ⟨.processing, .ignore⟩
  | .processing, .checksumFail => ⟨.processing, .ignore⟩
  | .processing, .processDone => ⟨.idle, .complete⟩
  | .processing, .timeout => ⟨.error, .error⟩
  | .processing, .reset => ⟨.idle, .reset⟩
  | .error, .byteReceived => ⟨.error, .ignore⟩
  | .error, .frameComplete => ⟨.error, .ignore⟩
  | .error, .checksumOk => ⟨.error, .ignore⟩
  | .error, .checksumFail => ⟨.error, .ignore⟩
  | .error, .processDone => ⟨.error, .ignore⟩
  | .error, .timeout => ⟨.error, .ignore⟩
  | .error, .reset => ⟨.idle, .reset⟩

namespace SmCtx

/-- `sm_init`. -/
def init : SmCtx := ⟨.idle, .zero, 0, 0, 0⟩

/-- `action_start_frame`. -/
def actionStartFrame (ctx : SmCtx) (data : UInt8) : SmCtx :=
  { ctx with
    frame := ⟨Frame.zero.data.set! 0 data, 1, data⟩
    rxCount := ctx.rxCount + 1 }

/-- The guarded part of `action_store_byte`. -/
def storeGuarded (f : Frame) (data : UInt8) : Frame :=
  if f.length.toNat < frameMaxLen then
    ⟨f.data.set! f.length.toNat data, f.length + 1, f.checksum ^^^ data⟩
  else f

/-- `action_store_byte`. -/
def actionStoreByte (ctx : SmCtx) (data : UInt8) : SmCtx :=
  { ctx with frame := storeGuarded ctx.frame data, rxCount := ctx.rxCount + 1 }

/-- `action_complete`. -/
def actionComplete (ctx : SmCtx) : SmCtx :=
  { ctx with processedCount := ctx.processedCount + 1 }

/-- `action_error`. -/
def actionError (ctx : SmCtx) : SmCtx := { ctx with errorCount := ctx.errorCount + 1 }

/-- `action_reset`. -/
def actionReset (ctx : SmCtx) : SmCtx := { ctx with frame := .zero }

end SmCtx

/-- The function an action names; `action_ignore`, `action_validate` and `action_process` change
nothing. -/
def Action.apply : Action → SmCtx → UInt8 → SmCtx
  | .ignore, ctx, _ => ctx
  | .startFrame, ctx, data => ctx.actionStartFrame data
  | .storeByte, ctx, data => ctx.actionStoreByte data
  | .validate, ctx, _ => ctx
  | .process, ctx, _ => ctx
  | .complete, ctx, _ => ctx.actionComplete
  | .error, ctx, _ => ctx.actionError
  | .reset, ctx, _ => ctx.actionReset

/-- `sm_handle_event`. -/
def SmCtx.handleEvent (ctx : SmCtx) (event : Event) (data : UInt8) : SmCtx :=
  let t := transitions ctx.current event
  { t.action.apply ctx data with current := t.nextState }

/-- The parser as a machine; the answer to an event is the action it ran. -/
def parser : Machine SmCtx (Event × UInt8) Action where
  init := .init
  next ctx ev := ctx.handleEvent ev.1 ev.2
  out ctx ev := (transitions ctx.current ev.1).action

/-- A frame is open: started, and neither finished nor given up. -/
def State.isOpen : State → Bool
  | .receiving | .validating | .processing => true
  | .idle | .error => false

/-! ### What one event does -/

/-- What an event does to the context, by the action it runs. -/
inductive Handled (ctx : SmCtx) (event : Event) (data : UInt8) : Action → SmCtx → Prop
  | ignore : (transitions ctx.current event).nextState = ctx.current →
      Handled ctx event data .ignore ctx
  | startFrame : ctx.current = .idle → event = .byteReceived →
      Handled ctx event data .startFrame
        { ctx.actionStartFrame data with current := .receiving }
  | storeByte : ctx.current = .receiving → event = .byteReceived →
      Handled ctx event data .storeByte (ctx.actionStoreByte data)
  | validate : ctx.current = .receiving → event = .frameComplete →
      Handled ctx event data .validate { ctx with current := .validating }
  | process : ctx.current = .validating → event = .checksumOk →
      Handled ctx event data .process { ctx with current := .processing }
  | complete : ctx.current = .processing → event = .processDone →
      Handled ctx event data .complete { ctx.actionComplete with current := .idle }
  | error : ctx.current.isOpen = true → event ≠ .byteReceived → event ≠ .reset →
      Handled ctx event data .error { ctx.actionError with current := .error }
  | reset : event = .reset → Handled ctx event data .reset { ctx.actionReset with current := .idle }

/-- **What one event can do**: one case per action. -/
theorem SmCtx.handled (ctx : SmCtx) (event : Event) (data : UInt8) :
    ∃ act ctx', (transitions ctx.current event).action = act ∧
      ctx.handleEvent event data = ctx' ∧ Handled ctx event data act ctx' := by
  refine ⟨_, _, rfl, rfl, ?_⟩
  obtain ⟨current, frame, rx, err, done⟩ := ctx
  -- the table is read off: every cell is one of the eight cases
  cases current <;> cases event <;>
    first
    | exact .ignore rfl
    | exact .startFrame rfl rfl
    | exact .storeByte rfl rfl
    | exact .validate rfl rfl
    | exact .process rfl rfl
    | exact .complete rfl rfl
    | exact .error rfl (by decide) (by decide)
    | exact .reset rfl

@[simp] theorem SmCtx.current_handleEvent (ctx : SmCtx) (event : Event) (data : UInt8) :
    (ctx.handleEvent event data).current = (transitions ctx.current event).nextState := rfl

@[simp] theorem parser_next (ctx : SmCtx) (ev : Event × UInt8) :
    parser.next ctx ev = ctx.handleEvent ev.1 ev.2 := rfl

@[simp] theorem parser_out (ctx : SmCtx) (ev : Event × UInt8) :
    parser.out ctx ev = (transitions ctx.current ev.1).action := rfl

end Parser

end CAcheRein
