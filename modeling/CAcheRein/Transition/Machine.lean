import Mathlib.Data.List.Basic
import Mathlib.Data.List.Infix
import Mathlib.Data.List.Induction
import Mathlib.Tactic.SplitIfs

/-!
# Deterministic machines with outputs

Every single-threaded component of this development is run as a `Machine`: a start state, a
transition function and an answer per input.  A run is a list of inputs, of any length.

## Main definitions

* `Machine.comap` : a machine behind a translation of its inputs.
* `Machine.runFrom`, `Machine.run` : the state after a list of inputs.
* `Machine.stepsFrom` : the steps of a run, each input with the state it was read in.
* `Machine.outsFrom`, `Machine.outs` : the answers of a run, in order.
* `Machine.Matches` : two machines answer alike on a list of inputs, and after each of its
  prefixes their states are related.
* `Returns` : a loop or recursion that is run with fuel, and has no result when it runs out, ends
  with a result.
* `sinceLast` : the part of a history after its last event of some kind.
* `lastFor` : the last of some calls for a key.

## Main results

* `Machine.run_induct` : what relates the inputs read so far to the state, by induction on the
  run.
* `Machine.run_iff_last_entry` : a run is in `P` exactly if it entered `P` and did not leave it.
* `Machine.simulation_of_guard` : forward simulation under a guard on the inputs read so far;
  `Machine.simulation` : the same without a guard.
* `foldlM_lastFor` : after calls that each write under their own key, every key has the value of
  the last call for it.
-/

namespace CAcheRein

/-- A deterministic machine: it reads an input, moves on and answers. -/
structure Machine (σ ι ο : Type*) where
  /-- The start state. -/
  init : σ
  /-- The state after reading an input. -/
  next : σ → ι → σ
  /-- The answer to an input. -/
  out : σ → ι → ο

namespace Machine

/-- The machine behind a translation of its inputs. -/
def comap {σ ι ι' ο : Type*} (M : Machine σ ι ο) (f : ι' → ι) : Machine σ ι' ο where
  init := M.init
  next s i := M.next s (f i)
  out s i := M.out s (f i)

variable {σ τ ι ο : Type*} (M : Machine σ ι ο)

/-- The state after reading `is` in `s`. -/
def runFrom (s : σ) (is : List ι) : σ := is.foldl M.next s

/-- The state after reading `is` from the start. -/
def run (is : List ι) : σ := M.runFrom M.init is

/-- The steps of a run: each input with the state it was read in. -/
def stepsFrom (s : σ) : List ι → List (σ × ι)
  | [] => []
  | i :: is => (s, i) :: stepsFrom (M.next s i) is

/-- The steps of a run from the start. -/
def steps (is : List ι) : List (σ × ι) := M.stepsFrom M.init is

/-- The answers of a run, in order. -/
def outsFrom (s : σ) (is : List ι) : List ο := (M.stepsFrom s is).map fun p => M.out p.1 p.2

/-- The answers of a run from the start. -/
def outs (is : List ι) : List ο := M.outsFrom M.init is

/-- The states some run from the start ends in. -/
def Reachable (s : σ) : Prop := ∃ is, M.run is = s

variable {M}

@[simp] theorem runFrom_nil (s : σ) : M.runFrom s [] = s := rfl

@[simp] theorem runFrom_cons (s : σ) (i : ι) (is : List ι) :
    M.runFrom s (i :: is) = M.runFrom (M.next s i) is := rfl

theorem runFrom_append (s : σ) (is js : List ι) :
    M.runFrom s (is ++ js) = M.runFrom (M.runFrom s is) js := List.foldl_append

@[simp] theorem runFrom_concat (s : σ) (is : List ι) (i : ι) :
    M.runFrom s (is ++ [i]) = M.next (M.runFrom s is) i := by
  rw [runFrom_append]; rfl

@[simp] theorem run_nil : M.run [] = M.init := rfl

@[simp] theorem run_concat (is : List ι) (i : ι) : M.run (is ++ [i]) = M.next (M.run is) i :=
  runFrom_concat _ is i

/-- A run continued behind one of its inputs. -/
theorem runFrom_run_concat (is : List ι) (i : ι) (js : List ι) :
    M.runFrom (M.run (is ++ [i])) js = M.run (is ++ i :: js) := by
  rw [run, ← runFrom_append, List.append_assoc]
  rfl

@[simp] theorem stepsFrom_nil (s : σ) : M.stepsFrom s [] = [] := rfl

@[simp] theorem stepsFrom_cons (s : σ) (i : ι) (is : List ι) :
    M.stepsFrom s (i :: is) = (s, i) :: M.stepsFrom (M.next s i) is := rfl

theorem stepsFrom_append (s : σ) (is js : List ι) :
    M.stepsFrom s (is ++ js) = M.stepsFrom s is ++ M.stepsFrom (M.runFrom s is) js := by
  induction is generalizing s with
  | nil => rfl
  | cons i is ih => simp [ih]

@[simp] theorem steps_nil : M.steps [] = [] := rfl

@[simp] theorem steps_concat (is : List ι) (i : ι) :
    M.steps (is ++ [i]) = M.steps is ++ [(M.run is, i)] :=
  stepsFrom_append _ is [i]

/-- The inputs of the steps of a run are the inputs of the run. -/
theorem snd_mem_of_mem_stepsFrom {s : σ} {is : List ι} {p : σ × ι} (h : p ∈ M.stepsFrom s is) :
    p.2 ∈ is := by
  induction is generalizing s with
  | nil => cases h
  | cons i is ih =>
    rcases List.mem_cons.1 h with rfl | h
    · exact List.mem_cons_self
    · exact List.mem_cons_of_mem i (ih h)

@[simp] theorem outsFrom_nil (s : σ) : M.outsFrom s [] = [] := rfl

@[simp] theorem outsFrom_cons (s : σ) (i : ι) (is : List ι) :
    M.outsFrom s (i :: is) = M.out s i :: M.outsFrom (M.next s i) is := rfl

@[simp] theorem outs_nil : M.outs [] = [] := rfl

@[simp] theorem outs_concat (is : List ι) (i : ι) :
    M.outs (is ++ [i]) = M.outs is ++ [M.out (M.run is) i] := by
  change (M.stepsFrom M.init (is ++ [i])).map _ = (M.stepsFrom M.init is).map _ ++ _
  rw [stepsFrom_append, List.map_append]
  rfl

/-! ### Invariants -/

/-- What holds of the empty history and the start state, and is kept by reading one more input,
relates every history to the state it leads to. -/
theorem run_induct {I : List ι → σ → Prop} (h₀ : I [] M.init)
    (hstep : ∀ is i, I is (M.run is) → I (is ++ [i]) (M.next (M.run is) i)) (is : List ι) :
    I is (M.run is) := by
  induction is using List.reverseRecOn with
  | nil => exact h₀
  | append_singleton is i ih => rw [run_concat]; exact hstep _ _ ih

/-- **The last entry into `P`.**  If the inputs alone (those outside `A`) decide when `P` is left,
then a run is in `P` exactly if it entered `P` at some input and read only inputs in `A` since. -/
theorem run_iff_last_entry {P : σ → Prop} {A : ι → Prop} (h₀ : ¬ P M.init)
    (hA : ∀ s i, P s → (P (M.next s i) ↔ A i)) (is : List ι) :
    P (M.run is) ↔ ∃ pre i post, is = pre ++ i :: post ∧ ¬ P (M.run pre) ∧
      P (M.next (M.run pre) i) ∧ ∀ j ∈ post, A j := by
  induction is using List.reverseRecOn with
  | nil =>
    refine iff_of_false h₀ ?_
    rintro ⟨pre, i, post, h, -⟩
    simp at h
  | append_singleton is i ih =>
    rw [run_concat]
    constructor
    · intro h
      by_cases hP : P (M.run is)
      · obtain ⟨pre, j, post, rfl, hpre, hj, hpost⟩ := ih.1 hP
        refine ⟨pre, j, post ++ [i], by simp, hpre, hj, fun x hx => ?_⟩
        rcases List.mem_append.1 hx with hx | hx
        · exact hpost x hx
        · rw [List.mem_singleton.1 hx]
          exact (hA _ _ hP).1 h
      · exact ⟨is, i, [], rfl, hP, h, fun x hx => by cases hx⟩
    · rintro ⟨pre, j, post, h, hpre, hj, hpost⟩
      rcases List.eq_nil_or_concat post with rfl | ⟨post, x, rfl⟩
      · -- `P` is entered by the last input
        obtain ⟨rfl, hij⟩ := List.append_inj' h rfl
        cases hij
        exact hj
      · -- `P` was entered before, and the last input does not leave it
        rw [List.concat_eq_append, ← List.cons_append, ← List.append_assoc] at h
        obtain ⟨his, hx⟩ := List.append_inj' h rfl
        cases hx
        rw [List.concat_eq_append] at hpost
        have hP : P (M.run is) := ih.2 ⟨pre, j, post, his, hpre, hj, fun y hy =>
          hpost y (List.mem_append_left _ hy)⟩
        exact (hA _ _ hP).2 (hpost _ (by simp))

/-! ### Two machines on the same inputs -/

variable {N : Machine τ ι ο}

variable (M N) in
/-- On `is` the machines answer alike, and after each prefix of `is` their states are related by
`R`. -/
def Matches (R : σ → τ → Prop) (is : List ι) : Prop :=
  M.outs is = N.outs is ∧ ∀ p, p <+: is → R (M.run p) (N.run p)

/-- **Guarded forward simulation.**  Suppose that, as long as the inputs read so far satisfy `G`,
reading one more keeps `R` between history and states and is answered alike.  Then the machines
match on every run whose prefixes all satisfy `G`. -/
theorem simulation_of_guard {R : List ι → σ → τ → Prop} {G : List ι → Prop}
    (h₀ : R [] M.init N.init)
    (hstep : ∀ p i, R p (M.run p) (N.run p) → G p → G (p ++ [i]) →
      M.out (M.run p) i = N.out (N.run p) i ∧
        R (p ++ [i]) (M.next (M.run p) i) (N.next (N.run p) i))
    (is : List ι) (hG : ∀ p, p <+: is → G p) :
    M.outs is = N.outs is ∧ ∀ p, p <+: is → R p (M.run p) (N.run p) := by
  induction is using List.reverseRecOn with
  | nil =>
    refine ⟨rfl, fun p hp => ?_⟩
    rw [List.prefix_nil.1 hp]
    exact h₀
  | append_singleton is i ih =>
    have hpre : is <+: is ++ [i] := List.prefix_append is [i]
    obtain ⟨ho, hR⟩ := ih fun p hp => hG p (hp.trans hpre)
    obtain ⟨hout, hnext⟩ := hstep is i (hR is List.prefix_rfl) (hG is hpre)
      (hG (is ++ [i]) List.prefix_rfl)
    refine ⟨by rw [outs_concat, outs_concat, ho, hout], fun p hp => ?_⟩
    rcases List.prefix_concat_iff.1 hp with rfl | hp
    · rw [run_concat, run_concat]
      exact hnext
    · exact hR p hp

/-- **Forward simulation.**  If every input is answered alike and keeps the states related, the
machines match on every run. -/
theorem simulation {R : σ → τ → Prop} (h₀ : R M.init N.init)
    (hstep : ∀ s t i, R s t → M.out s i = N.out t i ∧ R (M.next s i) (N.next t i))
    (is : List ι) : M.Matches N R is :=
  simulation_of_guard (R := fun _ => R) (G := fun _ => True) h₀
    (fun _ i hR _ _ => hstep _ _ i hR) is fun _ _ => trivial

end Machine

/-! ### Computations with fuel -/

section Fuel

variable {γ : Type*} {run : ℕ → Option γ} {r r' : γ}

/-- The computation returns `r`, with enough fuel. -/
def Returns (run : ℕ → Option γ) (r : γ) : Prop := ∃ n, ∀ fuel, n ≤ fuel → run fuel = some r

/-- A computation returns one result only. -/
theorem Returns.unique (h : Returns run r) (h' : Returns run r') : r = r' := by
  obtain ⟨n, hn⟩ := h
  obtain ⟨n', hn'⟩ := h'
  have hr := hn (max n n') (Nat.le_max_left n n')
  rw [hn' (max n n') (Nat.le_max_right n n'), Option.some.injEq] at hr
  exact hr.symm

end Fuel

/-! ### Histories -/

section History

variable {α : Type*} {p : α → Bool}

/-- The events after the last one in `p` (all of them, if there is none). -/
def sinceLast (p : α → Bool) (l : List α) : List α := (l.reverse.takeWhile fun a => !p a).reverse

@[simp] theorem sinceLast_nil : sinceLast p [] = [] := rfl

/-- One more event. -/
@[simp] theorem sinceLast_concat (l : List α) (a : α) :
    sinceLast p (l ++ [a]) = if p a then [] else sinceLast p l ++ [a] := by
  rw [sinceLast, List.reverse_append, List.reverse_singleton, List.singleton_append]
  cases h : p a with
  | false => rw [List.takeWhile_cons_of_pos (by rw [h]; rfl), List.reverse_cons]; rfl
  | true => rw [List.takeWhile_cons_of_neg (by rw [h]; decide)]; rfl

end History

/-! ### The last write wins -/

section LastWrite

variable {σ γ κ ν : Type*} [DecidableEq κ] {key : γ → κ} {calls : List γ} {k : κ}

/-- The last of some calls for a key. -/
def lastFor (key : γ → κ) (calls : List γ) (k : κ) : Option γ :=
  (calls.filter fun c => key c = k).getLast?

theorem lastFor_concat (c : γ) :
    lastFor key (calls ++ [c]) k = if key c = k then some c else lastFor key calls k := by
  rw [lastFor, List.filter_append]
  split_ifs with hk
  · rw [List.filter_cons_of_pos (by simpa using hk), List.filter_nil, List.getLast?_concat]
  · rw [List.filter_cons_of_neg (by simpa using hk), List.filter_nil, List.append_nil, lastFor]

/-- **The last write wins**, if one call writes under its key, touches no other key and keeps
`inv`. -/
theorem foldlM_lastFor {step : σ → γ → Option σ} {inv : σ → Prop} {view : σ → κ → ν} {val : γ → ν}
    {keys : κ → Prop}
    (hstep : ∀ s c, inv s → ∃ s', step s c = some s' ∧ inv s' ∧
      ∀ k, keys k → view s' k = if key c = k then val c else view s k)
    {s : σ} (hs : inv s) (calls : List γ) :
    ∃ s', calls.foldlM step s = some s' ∧ inv s' ∧
      ∀ k, keys k → view s' k = (lastFor key calls k).elim (view s k) val := by
  induction calls using List.reverseRecOn with
  | nil => exact ⟨s, rfl, hs, fun _ _ => rfl⟩
  | append_singleton calls c ih =>
    obtain ⟨s₁, hrun, hinv, hview⟩ := ih
    obtain ⟨s₂, hcall, hinv', hview'⟩ := hstep s₁ c hinv
    refine ⟨s₂, ?_, hinv', fun k hk => ?_⟩
    · rw [List.foldlM_append, hrun]
      simp [hcall]
    · rw [hview' k hk, lastFor_concat]
      split_ifs
      · rfl
      · exact hview k hk

end LastWrite

end CAcheRein
