import CAcheRein.Transition.Machine
import Mathlib.Algebra.Group.Nat.Defs

/-!
# The sensor state machine

The table-driven state machine of `module3-embedded-patterns/ex06-state-machine`: a table gives
the next state and the action of every state and event, and the actions keep a sensor value and a
count of errors.  What the source prints is left out.

## Main definitions

* `transitions`, `Action.apply`, `SmCtx.init`, `SmCtx.handleEvent` : the source.
* `sensor` : the state machine as a `Machine` that answers each event with the action it ran.

## Main results

* `SmCtx.handled` : what one event can do, in six cases instead of the table's twenty.
-/

namespace CAcheRein

namespace Sensor

/-- `state_t`. -/
inductive State where
  | idle
  | sensing
  | processing
  | error
  deriving DecidableEq

/-- `event_t`. -/
inductive Event where
  | start
  | dataReady
  | processDone
  | error
  | reset
  deriving DecidableEq

/-- `sm_ctx_t`. -/
structure SmCtx where
  current : State
  sensorValue : UInt32
  errorCount : UInt32
  deriving DecidableEq

/-- The action functions the table points to. -/
inductive Action where
  | startSensing
  | processData
  | complete
  | handleError
  | reset
  | ignore
  deriving DecidableEq

/-- `transition_t`. -/
structure Transition where
  nextState : State
  action : Action

/-- The transition table. -/
def transitions : State → Event → Transition
  | .idle, .start => ⟨.sensing, .startSensing⟩
  | .idle, .dataReady => ⟨.idle, .ignore⟩
  | .idle, .processDone => ⟨.idle, .ignore⟩
  | .idle, .error => ⟨.error, .handleError⟩
  | .idle, .reset => ⟨.idle, .reset⟩
  | .sensing, .start => ⟨.sensing, .ignore⟩
  | .sensing, .dataReady => ⟨.processing, .processData⟩
  | .sensing, .processDone => ⟨.sensing, .ignore⟩
  | .sensing, .error => ⟨.error, .handleError⟩
  | .sensing, .reset => ⟨.idle, .reset⟩
  | .processing, .start => ⟨.processing, .ignore⟩
  | .processing, .dataReady => ⟨.processing, .ignore⟩
  | .processing, .processDone => ⟨.idle, .complete⟩
  | .processing, .error => ⟨.error, .handleError⟩
  | .processing, .reset => ⟨.idle, .reset⟩
  | .error, .start => ⟨.error, .ignore⟩
  | .error, .dataReady => ⟨.error, .ignore⟩
  | .error, .processDone => ⟨.error, .ignore⟩
  | .error, .error => ⟨.error, .handleError⟩
  | .error, .reset => ⟨.idle, .reset⟩

namespace SmCtx

/-- `sm_init`. -/
def init : SmCtx := ⟨.idle, 0, 0⟩

/-- `action_start_sensing`. -/
def actionStartSensing (ctx : SmCtx) : SmCtx := { ctx with sensorValue := 0 }

/-- `action_process_data`, with its simulated ADC reading. -/
def actionProcessData (ctx : SmCtx) : SmCtx := { ctx with sensorValue := 2650 }

/-- `action_handle_error`. -/
def actionHandleError (ctx : SmCtx) : SmCtx := { ctx with errorCount := ctx.errorCount + 1 }

/-- `action_reset`. -/
def actionReset (ctx : SmCtx) : SmCtx := { ctx with sensorValue := 0, errorCount := 0 }

end SmCtx

/-- The function an action names; `action_complete` and `action_ignore` change nothing. -/
def Action.apply : Action → SmCtx → SmCtx
  | .startSensing, ctx => ctx.actionStartSensing
  | .processData, ctx => ctx.actionProcessData
  | .complete, ctx => ctx
  | .handleError, ctx => ctx.actionHandleError
  | .reset, ctx => ctx.actionReset
  | .ignore, ctx => ctx

/-- `sm_handle_event`. -/
def SmCtx.handleEvent (ctx : SmCtx) (event : Event) : SmCtx :=
  let t := transitions ctx.current event
  { t.action.apply ctx with current := t.nextState }

/-- The state machine; the answer to an event is the action it ran. -/
def sensor : Machine SmCtx Event Action where
  init := .init
  next ctx event := ctx.handleEvent event
  out ctx event := (transitions ctx.current event).action

/-! ### What one event does -/

/-- What an event does to the context, by the action it runs. -/
inductive Handled (ctx : SmCtx) (event : Event) : Action → SmCtx → Prop
  | startSensing : ctx.current = .idle → event = .start →
      Handled ctx event .startSensing { ctx.actionStartSensing with current := .sensing }
  | processData : ctx.current = .sensing → event = .dataReady →
      Handled ctx event .processData { ctx.actionProcessData with current := .processing }
  | complete : ctx.current = .processing → event = .processDone →
      Handled ctx event .complete { ctx with current := .idle }
  | handleError : event = .error →
      Handled ctx event .handleError { ctx.actionHandleError with current := .error }
  | reset : event = .reset → Handled ctx event .reset { ctx.actionReset with current := .idle }
  | ignore : event ≠ .error → event ≠ .reset → Handled ctx event .ignore ctx

/-- **What one event can do**: one case per action. -/
theorem SmCtx.handled (ctx : SmCtx) (event : Event) :
    Handled ctx event (transitions ctx.current event).action (ctx.handleEvent event) := by
  obtain ⟨current, value, count⟩ := ctx
  -- the table is read off: every cell is one of the six cases
  cases current <;> cases event <;>
    first
    | exact .startSensing rfl rfl
    | exact .processData rfl rfl
    | exact .complete rfl rfl
    | exact .handleError rfl
    | exact .reset rfl
    | exact .ignore (by decide) (by decide)

@[simp] theorem sensor_out (ctx : SmCtx) (event : Event) :
    sensor.out ctx event = (transitions ctx.current event).action := rfl

end Sensor

end CAcheRein
