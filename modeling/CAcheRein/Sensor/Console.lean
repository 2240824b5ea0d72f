import CAcheRein.Sensor.Basic
import CAcheRein.Text.Numeral
import CAcheRein.Transition.Console

/-!
# What the sensor state machine prints

Every event is printed with the state it comes in and the state it leads to, and every action
prints what it does.  `Sensor.console_complete` : no two runs print the same.
-/

namespace CAcheRein

namespace Sensor

open Text

/-- `state_names`. -/
def State.name : State → List Char
  | .idle => "IDLE".toList
  | .sensing => "SENSING".toList
  | .processing => "PROCESSING".toList
  | .error => "ERROR".toList

/-- `event_names`. -/
def Event.name : Event → List Char
  | .start => "START".toList
  | .dataReady => "DATA_READY".toList
  | .processDone => "PROCESS_DONE".toList
  | .error => "ERROR".toList
  | .reset => "RESET".toList

/-- What an action prints. -/
def Action.text (ctx : SmCtx) : Action → List Char
  | .startSensing => "    -> starting sensor read\n".toList
  | .processData =>
    "    -> processing sensor value: ".toList ++ digits ctx.actionProcessData.sensorValue.toNat ++
      "\n".toList
  | .complete =>
    "    -> complete. final value: ".toList ++ digits ctx.sensorValue.toNat ++ "\n".toList
  | .handleError =>
    "    -> error! count=".toList ++ digits ctx.actionHandleError.errorCount.toNat ++ "\n".toList
  | .reset => "    -> resetting\n".toList
  | .ignore => "    -> event ignore in this state\n".toList

/-- What `sm_handle_event` prints. -/
def SmCtx.text (ctx : SmCtx) (event : Event) : List Char :=
  let t := transitions ctx.current event
  '[' :: ctx.current.name ++ "] + ".toList ++ event.name ++ " -> [".toList ++ t.nextState.name ++
    "]\n".toList ++ t.action.text ctx

/-- The state machine with what it prints. -/
def printer : Machine SmCtx Event (List Char) where
  init := .init
  next ctx event := ctx.handleEvent event
  out ctx event := ctx.text event

/-- The first letter of its name tells an event from the others. -/
theorem head_name_inj : ∀ event event' : Event,
    event.name.head? = event'.name.head? → event = event' := by
  intro event event' h
  cases event <;> cases event' <;> first | rfl | exact absurd h (by decide)

theorem name_apart {event event' : Event} {rest rest' : List Char}
    (h : event.name ++ rest = event'.name ++ rest') : event = event' := by
  have hhead : ∀ (ev : Event) (r : List Char), (ev.name ++ r).head? = ev.name.head? := by
    intro ev r
    cases ev <;> rfl
  have heq := congrArg List.head? h
  rw [hhead, hhead] at heq
  exact head_name_inj event event' heq

/-- The text of an event says which one it was. -/
theorem legible_printer : printer.Legible id where
  nonempty ctx event := List.cons_ne_nil _ _
  apart ctx event event' rest rest' h := by
    simp only [printer, SmCtx.text, List.cons_append, List.append_assoc, List.cons.injEq,
      true_and] at h
    have hname := List.append_cancel_left (List.append_cancel_left h)
    obtain rfl := name_apart hname
    have hrest := List.append_cancel_left (List.append_cancel_left (List.append_cancel_left
      (List.append_cancel_left hname)))
    exact ⟨rfl, rfl, List.append_cancel_left hrest⟩

/-- **The console is a complete log.**  The events of a run, and with them the states and the
actions, can be told from what it prints. -/
theorem console_complete : Function.Injective printer.console := by
  intro evs evs' h
  have hevents := (legible_printer.determines evs evs' _ h).1
  rwa [List.map_id, List.map_id] at hevents

end Sensor

end CAcheRein
