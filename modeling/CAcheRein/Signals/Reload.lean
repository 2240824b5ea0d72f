import CAcheRein.Transition.Machine
import CAcheRein.Transition.System

/-!
# Reload requests by signal

The main loop of `module5-linux-systems/ex04-signals`, with its three handlers running between any
two of its steps.  `handler_sighup` only sets `reload`; `main` tests it once a tick, prints that it
is reloading, and then clears it.

A request that arrives between the print and the clearing is lost: `reload` is 0 although a
`handler_sighup` ran after the last reload.  `Signals.request_kept_iff` : no request is lost in a
run exactly when no clearing in it comes after such a request.
-/

namespace CAcheRein

namespace Signals

/-- Where the main loop is. -/
inductive Pc where
  /-- `while (running)`. -/
  | loop
  | sleep
  /-- `count++` and the tick print. -/
  | tick
  /-- `if (reload)`. -/
  | check
  /-- The reload print. -/
  | reload
  /-- `reload = 0`. -/
  | clear
  /-- `if (count >= 50)`. -/
  | limit
  /-- The stop print and `running = 0`. -/
  | stop
  /-- Past the loop. -/
  | cleanup
  deriving DecidableEq

/-- The three globals, the local of `main` and its program counter. -/
structure State where
  running : Int32
  reload : Int32
  sigCount : Int32
  count : Int32
  pc : Pc
  deriving DecidableEq

/-- A step of `main`, with the values it prints, or a run of a handler. -/
inductive Label where
  | loop
  | sleep
  | tick (count sigCount reload : Int32)
  | check
  | reloadPrint
  | clear
  | limit
  | stop
  | sigint
  | sighup
  | sigusr1
  deriving DecidableEq

/-- The reload action. -/
def Label.isReload : Label → Bool
  | .reloadPrint => true
  | _ => false

/-- The steps of `main` and of the handlers. -/
inductive Step : State → Label → State → Prop
  | again {s} : s.pc = .loop → s.running ≠ 0 → Step s .loop { s with pc := .sleep }
  | leave {s} : s.pc = .loop → s.running = 0 → Step s .loop { s with pc := .cleanup }
  | sleep {s} : s.pc = .sleep → Step s .sleep { s with pc := .tick }
  | tick {s} : s.pc = .tick →
      Step s (.tick (s.count + 1) s.sigCount s.reload)
        { s with count := s.count + 1, pc := .check }
  | requested {s} : s.pc = .check → s.reload ≠ 0 → Step s .check { s with pc := .reload }
  | notRequested {s} : s.pc = .check → s.reload = 0 → Step s .check { s with pc := .limit }
  | reload {s} : s.pc = .reload → Step s .reloadPrint { s with pc := .clear }
  | clear {s} : s.pc = .clear → Step s .clear { s with reload := 0, pc := .limit }
  | reached {s} : s.pc = .limit → 50 ≤ s.count → Step s .limit { s with pc := .stop }
  | notReached {s} : s.pc = .limit → ¬ 50 ≤ s.count → Step s .limit { s with pc := .loop }
  | stop {s} : s.pc = .stop → Step s .stop { s with running := 0, pc := .loop }
  -- the handlers, at any point
  | sigint {s} : Step s .sigint { s with running := 0 }
  | sighup {s} : Step s .sighup { s with reload := 1 }
  | sigusr1 {s} : Step s .sigusr1 { s with sigCount := s.sigCount + 1 }

/-- The program at the head of its loop, with its handlers registered. -/
def start : State := ⟨1, 0, 0, 0, .loop⟩

/-- The program. -/
def system : System State Label where
  init s := s = start
  step := Step

/-- A `handler_sighup` has run after the last reload action of the history. -/
def Requested (ls : List Label) : Prop := .sighup ∈ sinceLast Label.isReload ls

/-! ### Who writes `reload` -/

/-- Only `main` clears `reload`, and only at one place. -/
theorem reload_of_step {s s' : State} {l : Label} (h : Step s l s') :
    (l = .clear ∧ s'.reload = 0) ∨ (l = .sighup ∧ s'.reload = 1) ∨
      (l ≠ .clear ∧ l ≠ .sighup ∧ s'.reload = s.reload) := by
  cases h with
  | clear _ => exact .inl ⟨rfl, rfl⟩
  | sighup => exact .inr (.inl ⟨rfl, rfl⟩)
  | _ => exact .inr (.inr ⟨by simp, by simp, rfl⟩)

@[simp] theorem not_requested_nil : ¬ Requested [] := by
  simp [Requested]

/-- A request stays one until the next reload action. -/
theorem requested_concat (ls : List Label) (l : Label) :
    Requested (ls ++ [l]) ↔ l ≠ .reloadPrint ∧ (l = .sighup ∨ Requested ls) := by
  rw [Requested, sinceLast_concat]
  cases l <;> simp [Label.isReload, Requested]

/-- As long as no clearing discards a request, requests are pending. -/
theorem reload_of_requested {ls : List Label} {s : State} (h : system.Run ls s)
    (hclear : ∀ p, p ++ [.clear] <+: ls → ¬ Requested p) (hreq : Requested ls) : s.reload = 1 := by
  induction h with
  | start _ => exact absurd hreq not_requested_nil
  | @next ls s s' l hrun hst ih =>
    have hclear' : ∀ p, p ++ [.clear] <+: ls → ¬ Requested p :=
      fun p hp => hclear p (hp.trans (List.prefix_append ls [l]))
    obtain ⟨-, hreq⟩ := (requested_concat ls l).1 hreq
    rcases reload_of_step hst with ⟨rfl, -⟩ | ⟨-, hone⟩ | ⟨-, hne, hkeep⟩
    · -- the clearing would have discarded the request
      rcases hreq with h | h
      · cases h
      · exact absurd h (hclear ls List.prefix_rfl)
    · exact hone
    · rw [hkeep]
      exact ih hclear' (hreq.resolve_left hne)

/-- **A request is lost exactly by being cleared unseen.**  In a run, `reload` is 1 in every state
with a `handler_sighup` after the last reload action, if and only if no `reload = 0` is executed
with a `handler_sighup` after the reload print before it. -/
theorem request_kept_iff {ls : List Label} {s : State} (h : system.Run ls s) :
    (∀ p t, p <+: ls → system.Run p t → Requested p → t.reload = 1) ↔
      ∀ p, p ++ [.clear] <+: ls → ¬ Requested p := by
  constructor
  · intro hkept p hp hreq
    obtain ⟨t, ht⟩ := h.of_prefix hp
    have hreq' : Requested (p ++ [.clear]) := (requested_concat p _).2 ⟨by simp, .inr hreq⟩
    have hone := hkept _ t hp ht hreq'
    obtain ⟨t', -, hst⟩ := System.run_concat_iff.1 ht
    have hzero : t.reload = 0 := by
      rcases reload_of_step hst with ⟨-, hzero⟩ | ⟨hl, -⟩ | ⟨hl, -, -⟩
      · exact hzero
      · cases hl
      · exact absurd rfl hl
    rw [hzero] at hone
    exact absurd hone (by decide)
  · intro hclear p t hp ht hreq
    exact reload_of_requested ht (fun p' hp' => hclear p' (hp'.trans hp)) hreq

/-- A first request is served, and a second arrives before `reload` is cleared. -/
def lostSchedule : List Label :=
  [.sighup, .loop, .sleep, .tick 1 0 1, .check, .reloadPrint, .sighup, .clear]

/-- The second request is discarded. -/
theorem request_lost :
    ∃ s, system.Run lostSchedule s ∧ Requested lostSchedule ∧ s.reload = 0 := by
  have h₀ : system.Run [] start := .start rfl
  have h₁ := (h₀.next .sighup).next (.again rfl (by decide))
  have h₂ := ((h₁.next (.sleep rfl)).next (.tick rfl)).next (.requested rfl (by decide))
  have h₃ := ((h₂.next (.reload rfl)).next .sighup).next (.clear rfl)
  exact ⟨_, h₃, by simp [lostSchedule, Requested, sinceLast, Label.isReload], rfl⟩

/-- A request that is served before the next one arrives is kept. -/
theorem request_kept_iff_served :
    ∃ ls s, system.Run ls s ∧ (.clear ∈ ls ∧ Requested ls) ∧
      ((∀ p t, p <+: ls → system.Run p t → Requested p → t.reload = 1) ↔
        ∀ p, p ++ [.clear] <+: ls → ¬ Requested p) := by
  have h₀ : system.Run [] start := .start rfl
  have h₁ := (h₀.next .sighup).next (.again rfl (by decide))
  have h₂ := ((h₁.next (.sleep rfl)).next (.tick rfl)).next (.requested rfl (by decide))
  have h₃ := ((h₂.next (.reload rfl)).next (.clear rfl)).next .sighup
  exact ⟨_, _, h₃, by simp [Requested, sinceLast, Label.isReload], request_kept_iff h₃⟩

end Signals

end CAcheRein
