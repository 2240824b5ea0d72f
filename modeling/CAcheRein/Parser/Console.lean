import CAcheRein.Parser.Basic
import CAcheRein.Text.Template
import CAcheRein.Transition.Console

/-!
# What the frame parser prints

`sm_handle_event` prints the state, the event and the next state of every transition, and the
actions print what they do.  `Parser.console_determines` : this text is a complete log of the run.
-/

namespace CAcheRein

namespace Parser

open Text

/-- `state_names`. -/
def State.name : State → List Char
  | .idle => "IDLE".toList
  | .receiving => "RECEIVING".toList
  | .validating => "VALIDATING".toList
  | .processing => "PROCESSING".toList
  | .error => "ERROR".toList

/-- `event_names`. -/
def Event.name : Event → List Char
  | .byteReceived => "BYTE_RX".toList
  | .frameComplete => "FRAME_COMPLETE".toList
  | .checksumOk => "CHKSUM_OK".toList
  | .checksumFail => "CHKSUM_FAIL".toList
  | .processDone => "PROCESS_DONE".toList
  | .timeout => "TIMEOUT".toList
  | .reset => "RESET".toList

/-- What an action prints. -/
def Action.text (ctx : SmCtx) (data : UInt8) : Action → List Char
  | .ignore => []
  | .startFrame => "    -> frame started, byte=0x".toList ++ hexByte data ++ "\n".toList
  | .storeByte =>
    "    -> stored 0x".toList ++ hexByte data ++ ", len=".toList ++
      digits (ctx.actionStoreByte data).frame.length.toNat ++ "\n".toList
  | .validate =>
    "    -> validating frame len=".toList ++ digits ctx.frame.length.toNat ++ " chksum=0x".toList ++
      hexByte ctx.frame.checksum ++ "\n".toList
  | .process => "    -> processing ".toList ++ digits ctx.frame.length.toNat ++ " bytes\n".toList
  | .complete =>
    "    -> complete, total processed=".toList ++
      digits ctx.actionComplete.processedCount.toNat ++ "\n".toList
  | .error =>
    "    -> error! total error=".toList ++ digits ctx.actionError.errorCount.toNat ++ "\n".toList
  | .reset => "    -> reset\n".toList

/-- What `sm_handle_event` prints. -/
def SmCtx.text (ctx : SmCtx) (event : Event) (data : UInt8) : List Char :=
  let t := transitions ctx.current event
  '[' :: column 11 ctx.current.name ++ "] + ".toList ++ column 14 event.name ++ " -> [".toList ++
    t.nextState.name ++ "]\n".toList ++ t.action.text ctx data

/-- `sm_print`. -/
def SmCtx.print (ctx : SmCtx) : List Char :=
  "state=".toList ++ ctx.current.name ++ " rx=".toList ++ digits ctx.rxCount.toNat ++
    " errors=".toList ++ digits ctx.errorCount.toNat ++ " processed=".toList ++
    digits ctx.processedCount.toNat ++ "\n".toList

/-- The parser with what it prints. -/
def printer : Machine SmCtx (Event × UInt8) (List Char) where
  init := .init
  next ctx ev := ctx.handleEvent ev.1 ev.2
  out ctx ev := ctx.text ev.1 ev.2

variable {ctx : SmCtx} {event event' : Event} {data data' : UInt8} {rest rest' : List Char}

/-! ### One event -/

/-- The names of events fit their column, and differ there. -/
theorem length_column_name (event : Event) : (column 14 event.name).length = 14 := by
  cases event <;> decide

theorem column_name_inj : ∀ event event' : Event,
    column 14 event.name = column 14 event'.name → event = event' := by
  intro event event' h
  cases event <;> cases event' <;> first | rfl | exact absurd h (by decide)

/-- A literal and a byte in front of a text say the byte. -/
theorem byte_apart {lit : List Char}
    (h : lit ++ hexByte data ++ rest = lit ++ hexByte data' ++ rest') :
    data = data' ∧ rest = rest' := by
  rw [List.append_assoc, List.append_assoc] at h
  have hlen : (hexByte data).length = (hexByte data').length := rfl
  obtain ⟨hhex, hrest⟩ := List.append_inj (List.append_cancel_left h) hlen
  exact ⟨hexByte_injective hhex, hrest⟩

/-- **An action says what it has taken**: two texts of an action are only the same, with anything
behind them, if it does the same with both bytes. -/
theorem Action.text_apart (a : Action) (h : a.text ctx data ++ rest = a.text ctx data' ++ rest') :
    a.apply ctx data = a.apply ctx data' ∧ rest = rest' := by
  cases a with
  | startFrame =>
    have htext : ∀ d r, Action.startFrame.text ctx d ++ r =
        "    -> frame started, byte=0x".toList ++ hexByte d ++ ("\n".toList ++ r) :=
      fun d r => List.append_assoc ..
    rw [htext, htext] at h
    obtain ⟨rfl, hrest⟩ := byte_apart h
    exact ⟨rfl, List.append_cancel_left hrest⟩
  | storeByte =>
    have htext : ∀ d r, Action.storeByte.text ctx d ++ r =
        "    -> stored 0x".toList ++ hexByte d ++ (", len=".toList ++
          (digits (ctx.actionStoreByte d).frame.length.toNat ++ ("\n".toList ++ r))) := by
      intro d r
      rw [← List.append_assoc, ← List.append_assoc, ← List.append_assoc]
      rfl
    rw [htext, htext] at h
    obtain ⟨rfl, hrest⟩ := byte_apart h
    exact ⟨rfl, List.append_cancel_left (List.append_cancel_left (List.append_cancel_left hrest))⟩
  | ignore => exact ⟨rfl, h⟩
  | validate => exact ⟨rfl, List.append_cancel_left h⟩
  | process => exact ⟨rfl, List.append_cancel_left h⟩
  | complete => exact ⟨rfl, List.append_cancel_left h⟩
  | error => exact ⟨rfl, List.append_cancel_left h⟩
  | reset => exact ⟨rfl, List.append_cancel_left h⟩

/-- The text of an event says which one it was and what it did. -/
theorem legible_printer : printer.Legible Prod.fst where
  nonempty ctx ev := List.cons_ne_nil _ _
  apart ctx ev ev' rest rest' h := by
    obtain ⟨event, data⟩ := ev
    obtain ⟨event', data'⟩ := ev'
    simp only [printer, SmCtx.text, List.cons_append, List.append_assoc, List.cons.injEq,
      true_and] at h
    have hname := List.append_cancel_left (List.append_cancel_left h)
    obtain ⟨hcolumn, hnext⟩ := List.append_inj hname (by simp only [length_column_name])
    obtain rfl := column_name_inj event event' hcolumn
    have htail := List.append_cancel_left
      (List.append_cancel_left (List.append_cancel_left hnext))
    obtain ⟨happly, hrest⟩ := Action.text_apart _ htail
    refine ⟨rfl, ?_, hrest⟩
    simp only [printer, SmCtx.handleEvent, happly]

/-- **The console is a complete log of the parser.**  If two runs print the same, they have handled
the same events, and the bytes they have taken, the frame, the counters and the state are the
same. -/
theorem console_determines (evs evs' : List (Event × UInt8))
    (h : printer.console evs = printer.console evs') :
    evs.map Prod.fst = evs'.map Prod.fst ∧ parser.run evs = parser.run evs' :=
  legible_printer.determines evs evs' _ h

/-- A byte that comes with a reset is not looked at, and not printed. -/
theorem console_determines_ignored :
    [(Event.reset, (1 : UInt8)), (.byteReceived, 7)].map Prod.fst =
        [(Event.reset, (2 : UInt8)), (.byteReceived, 7)].map Prod.fst ∧
      parser.run [(.reset, 1), (.byteReceived, 7)] = parser.run [(.reset, 2), (.byteReceived, 7)] :=
  console_determines [(.reset, 1), (.byteReceived, 7)] [(.reset, 2), (.byteReceived, 7)] rfl

end Parser

end CAcheRein
