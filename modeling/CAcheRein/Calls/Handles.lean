import CAcheRein.Calls.Basic
import Mathlib.Logic.Function.Basic

/-!
# Handles

Calls that open, use and close handles.  The protocol is the one of descriptors and streams: a
call needs a handle that is open, a handle that is opened was not open before, and the stream
behind a handle comes to an end, after at most `bound` items.

A program deals with a handle in one of three ways, each closed under sequences, and it is enough
to know for each part of a program which one.

## Main definitions

* `Handling`, `Handling.protocol` : how calls deal with handles, and the protocol of that.
* `Handling.Keeps`, `Handling.Uses`, `Handling.Closes` : a program that leaves the open handles as
  they are, that uses one handle, and that uses it and closes it.

## Main results

* `Handling.keeps_open` : a program that closes what it opens leaves the handles as they were.
* `Handling.Keeps.sound` : what that says about the runs.
-/

namespace CAcheRein

open Prog

/-- How calls deal with handles of type `H`. -/
structure Handling (Op : Type) (Ans : Op → Type) (H : Type) where
  /-- The handle an answer brings. -/
  opened : (op : Op) → Ans op → Option H
  /-- The handle a call needs. -/
  needs : Op → Option H
  /-- The call closes the handle it needs. -/
  closes : Op → Bool
  /-- The answer is an item of the stream behind the handle. -/
  draws : (op : Op) → Ans op → Bool
  /-- The handle is open all the time. -/
  standard : H → Prop

namespace Handling

variable {Op : Type} {Ans : Op → Type} {α β γ τ H : Type} [DecidableEq H]

/-- The open handles, each with a bound on the items that are still to come. -/
abbrev Table (H : Type) := H → Option ℕ

variable (L : Handling Op Ans H) (bound : ℕ)

/-- The open handles after a call. -/
def next (s : Table H) (op : Op) (ans : Ans op) : Table H :=
  match L.opened op ans, L.needs op with
  | some h, _ => Function.update s h (some bound)
  | none, some h =>
    if L.closes op then Function.update s h none
    else if L.draws op ans then Function.update s h ((s h).map (· - 1)) else s
  | none, none => s

/-- The protocol. -/
def protocol : Protocol Op Ans (Table H) where
  allowed s op := ∀ h ∈ L.needs op, s h ≠ none
  promised s op ans := (∀ h ∈ L.opened op ans, s h = none) ∧
    (L.draws op ans = true → ∀ h ∈ L.needs op, s h ≠ some 0)
  next := L.next bound

/-- The standard handles are open. -/
def Ready (s : Table H) : Prop := ∀ h, L.standard h → s h ≠ none

/-- The program leaves the open handles as they are. -/
def Keeps (p : Prog Op Ans α) : Prop :=
  ∀ s, L.Ready s → (L.protocol bound).wp p (fun _ s' => s' = s) s

/-- The program uses the open handle `h` and changes nothing about the others. -/
def Uses (h : H) (p : Prog Op Ans α) : Prop := ∀ s, L.Ready s → ∀ n ≤ bound, s h = some n →
  (L.protocol bound).wp p (fun _ s' => ∃ m ≤ bound, s' = Function.update s h (some m)) s

/-- The program uses the open handle `h`, which is not a standard one, closes it, and changes
nothing about the others. -/
def Closes (h : H) (p : Prog Op Ans α) : Prop :=
  ∀ s, L.Ready (Function.update s h none) → ∀ n ≤ bound, s h = some n →
    (L.protocol bound).wp p (fun _ s' => s' = Function.update s h none) s

/-- A call that has nothing to do with handles. -/
structure Plain (op : Op) : Prop where
  opened : ∀ ans, L.opened op ans = none
  needs : L.needs op = none

/-- A call that uses the handle `h`. -/
structure On (h : H) (op : Op) : Prop where
  opened : ∀ ans, L.opened op ans = none
  needs : L.needs op = some h

variable {L bound} {s : Table H} {op : Op} {ans : Ans op} {h : H} {p : Prog Op Ans α}
  {f : α → Prog Op Ans β} {body : β → γ → Prog Op Ans (Bool × γ)}

/-! ### The handles after a call -/

theorem next_of_opened (hopened : L.opened op ans = some h) :
    (L.protocol bound).next s op ans = Function.update s h (some bound) := by
  simp only [protocol, next, hopened]

theorem next_of_not_needs (hopened : L.opened op ans = none) (hneeds : L.needs op = none) :
    (L.protocol bound).next s op ans = s := by
  simp only [protocol, next, hopened, hneeds]

theorem next_of_closes (hopened : L.opened op ans = none) (hneeds : L.needs op = some h)
    (hclose : L.closes op = true) :
    (L.protocol bound).next s op ans = Function.update s h none := by
  simp only [protocol, next, hopened, hneeds, hclose, if_true]

theorem next_of_needs (hopened : L.opened op ans = none) (hneeds : L.needs op = some h)
    (hclose : L.closes op = false) : (L.protocol bound).next s op ans =
      if L.draws op ans then Function.update s h ((s h).map (· - 1)) else s := by
  simp only [protocol, next, hopened, hneeds, hclose, Bool.false_eq_true, if_false]

/-- A call that opens, closes and draws nothing. -/
theorem next_of_quiet (hopened : L.opened op ans = none) (hclose : L.closes op = false)
    (hdraws : L.draws op ans = false) : (L.protocol bound).next s op ans = s := by
  cases hneeds : L.needs op with
  | none => exact next_of_not_needs hopened hneeds
  | some h =>
    rw [next_of_needs hopened hneeds hclose, hdraws]
    rfl

theorem promised_iff : (L.protocol bound).promised s op ans ↔
    (∀ h, L.opened op ans = some h → s h = none) ∧
      (L.draws op ans = true → ∀ h, L.needs op = some h → s h ≠ some 0) := Iff.rfl

theorem promised_of_quiet (hopened : L.opened op ans = none) (hdraws : L.draws op ans = false) :
    (L.protocol bound).promised s op ans := by
  rw [promised_iff, hopened, hdraws]
  exact ⟨(fun h hh => by cases hh), fun hdraw => by cases hdraw⟩

/-! ### Standard handles -/

theorem Ready.update (hs : L.Ready s) (h : H) (n : ℕ) :
    L.Ready (Function.update s h (some n)) := by
  intro h' hh'
  by_cases heq : h' = h
  · subst heq
    rw [Function.update_self]
    exact Option.some_ne_none n
  · rw [Function.update_of_ne heq]
    exact hs h' hh'

/-- A handle that is open does not matter. -/
theorem ready_of_closed (hs : L.Ready (Function.update s h none)) : L.Ready s := by
  intro h' hh'
  have hopen := hs h' hh'
  have hne : h' ≠ h := by
    rintro rfl
    exact hopen (Function.update_self ..)
  rwa [Function.update_of_ne hne] at hopen

/-! ### Programs that leave the handles as they are -/

theorem keeps_ret (a : α) : L.Keeps bound (ret a : Prog Op Ans α) := fun _ _ => rfl

theorem Keeps.bind (hp : L.Keeps bound p) (hf : ∀ a, L.Keeps bound (f a)) :
    L.Keeps bound (p.bind f) := by
  intro s hs
  refine Protocol.wp_bind (Protocol.wp_mono (hp s hs) fun a s' hs' => ?_)
  subst hs'
  exact hf a _ hs

theorem Plain.keeps (hop : L.Plain op) : L.Keeps bound (perform op : Prog Op Ans (Ans op)) := by
  intro s _
  refine Protocol.wp_perform (fun h hh => ?_) fun ans _ => ?_
  · rw [hop.needs] at hh
    cases hh
  · exact next_of_not_needs (hop.opened ans) hop.needs

/-- A call on a standard handle. -/
theorem On.keeps (hop : L.On h op) (hstandard : L.standard h) (hclose : L.closes op = false)
    (hdraws : ∀ ans, L.draws op ans = false) :
    L.Keeps bound (perform op : Prog Op Ans (Ans op)) := by
  intro s hs
  refine Protocol.wp_perform (fun h' hh' => ?_) fun ans _ => ?_
  · obtain rfl : h = h' := Option.some.inj (hop.needs.symm.trans hh')
    exact hs h hstandard
  · exact next_of_quiet (hop.opened ans) hclose (hdraws ans)

theorem keeps_each (hbody : ∀ x c, L.Keeps bound (body x c)) (xs : List β) (c : γ) :
    L.Keeps bound (each body xs c) := by
  intro s hs
  refine Protocol.wp_each (I := fun _ s' => s' = s) (fun x c s' hs' => ?_) xs rfl
  subst hs'
  exact hbody x c _ hs

/-! ### Programs that use a handle -/

/-- Nothing about the handle needs to change. -/
theorem Keeps.uses (hp : L.Keeps bound p) : L.Uses bound h p := by
  intro s hready n hn hs
  refine Protocol.wp_mono (hp s hready) fun a s' hs' => ⟨n, hn, ?_⟩
  rw [hs', ← hs, Function.update_eq_self]

theorem Uses.bind (hp : L.Uses bound h p) (hf : ∀ a, L.Uses bound h (f a)) :
    L.Uses bound h (p.bind f) := by
  intro s hready n hn hs
  refine Protocol.wp_bind (Protocol.wp_mono (hp s hready n hn hs) ?_)
  rintro a s' ⟨m, hm, rfl⟩
  have hsome : Function.update s h (some m) h = some m := Function.update_self ..
  refine Protocol.wp_mono (hf a _ (hready.update h m) m hm hsome) ?_
  rintro b s' ⟨m', hm', rfl⟩
  exact ⟨m', hm', Function.update_idem ..⟩

/-- A call on the handle that does not close it. -/
theorem On.uses (hop : L.On h op) (hclose : L.closes op = false) :
    L.Uses bound h (perform op : Prog Op Ans (Ans op)) := by
  intro s _ n hn hs
  refine Protocol.wp_perform (fun h' hh' => ?_) fun ans _ => ?_
  · obtain rfl : h = h' := Option.some.inj (hop.needs.symm.trans hh')
    rw [hs]
    exact Option.some_ne_none n
  · rw [next_of_needs (hop.opened ans) hop.needs hclose]
    split_ifs with hdraw
    · exact ⟨n - 1, Nat.le_trans (Nat.sub_le n 1) hn, by rw [hs]; rfl⟩
    · exact ⟨n, hn, by rw [← hs, Function.update_eq_self]⟩

/-- A loop that draws the items of the stream behind the handle. -/
theorem uses_drain {item : Ans op → Option β} (hop : L.On h op) (hclose : L.closes op = false)
    (hdraws : ∀ ans, L.draws op ans = (item ans).isSome)
    (hbody : ∀ x c, L.Keeps bound (body x c)) {fuel : ℕ} (hfuel : bound < fuel) (c : γ) :
    L.Uses bound h (drain op item body fuel c) := by
  intro s hready n hn hs
  have hnext : ∀ (s' : Table H) (ans : Ans op), (L.protocol bound).next s' op ans =
      if L.draws op ans then Function.update s' h ((s' h).map (· - 1)) else s' :=
    fun s' ans => next_of_needs (hop.opened ans) hop.needs hclose
  have hat : ∀ m : ℕ, Function.update s h (some m) h = some m := fun m => Function.update_self ..
  refine Protocol.wp_drain (R := fun _ s' => ∃ m ≤ bound, s' = Function.update s h (some m))
    (I := fun m _ s' => m ≤ bound ∧ s' = Function.update s h (some m)) ?_ ?_ ?_ n fuel c s
    (Nat.lt_of_le_of_lt hn hfuel) ⟨hn, by rw [← hs, Function.update_eq_self]⟩
  · rintro m c s' ⟨-, rfl⟩ h' hh'
    obtain rfl : h = h' := Option.some.inj (hop.needs.symm.trans hh')
    rw [hat]
    exact Option.some_ne_none m
  · rintro m c s' ans ⟨hm, rfl⟩ - hitem
    rw [hnext, hdraws, hitem]
    exact ⟨m, hm, rfl⟩
  · rintro m c s' ans x ⟨hm, rfl⟩ hans hitem
    have hdraw : L.draws op ans = true := by
      rw [hdraws, hitem]
      rfl
    -- the stream promises no item beyond its bound
    have hpos : m ≠ 0 := by
      rintro rfl
      exact hans.2 hdraw h hop.needs (hat 0)
    refine ⟨m - 1, Nat.sub_lt (Nat.pos_of_ne_zero hpos) Nat.one_pos, ?_⟩
    rw [hnext, if_pos hdraw, hat, Function.update_idem]
    have hle : m - 1 ≤ bound := Nat.le_trans (Nat.sub_le m 1) hm
    refine Protocol.wp_mono (hbody x c _ (hready.update h (m - 1))) fun r s' hs' => ?_
    exact ⟨fun _ => ⟨hle, hs'⟩, fun _ => ⟨m - 1, hle, hs'⟩⟩

/-! ### Programs that close a handle -/

theorem Uses.bind_closes (hp : L.Uses bound h p) (hf : ∀ a, L.Closes bound h (f a)) :
    L.Closes bound h (p.bind f) := by
  intro s hready n hn hs
  refine Protocol.wp_bind (Protocol.wp_mono (hp s (ready_of_closed hready) n hn hs) ?_)
  rintro a s' ⟨m, hm, rfl⟩
  have hsome : Function.update s h (some m) h = some m := Function.update_self ..
  have hready' : L.Ready (Function.update (Function.update s h (some m)) h none) := by
    rw [Function.update_idem]
    exact hready
  refine Protocol.wp_mono (hf a _ hready' m hm hsome) fun b s' hs' => ?_
  rw [hs', Function.update_idem]

/-- The call that closes the handle, and then something else. -/
theorem On.closes {k : Ans op → Prog Op Ans β} (hop : L.On h op) (hclose : L.closes op = true)
    (hk : ∀ ans, L.Keeps bound (k ans)) :
    L.Closes bound h ((perform op : Prog Op Ans (Ans op)).bind k) := by
  intro s hready n hn hs
  refine ⟨fun h' hh' => ?_, fun ans _ => ?_⟩
  · obtain rfl : h = h' := Option.some.inj (hop.needs.symm.trans hh')
    rw [hs]
    exact Option.some_ne_none n
  · rw [next_of_closes (hop.opened ans) hop.needs hclose]
    exact hk ans _ hready

/-- **A program that closes what it opens** leaves the handles as they were. -/
theorem keeps_open {k : Ans op → Prog Op Ans β} (hneeds : L.needs op = none)
    (hnone : ∀ ans, L.opened op ans = none → L.Keeps bound (k ans))
    (hsome : ∀ ans h, L.opened op ans = some h → L.Closes bound h (k ans)) :
    L.Keeps bound ((perform op : Prog Op Ans (Ans op)).bind k) := by
  intro s hs
  refine ⟨fun h hh => ?_, fun ans hans => ?_⟩
  · rw [hneeds] at hh
    cases hh
  cases hopened : L.opened op ans with
  | none =>
    rw [next_of_not_needs hopened hneeds]
    exact hnone ans hopened s hs
  | some h =>
    have hfresh : s h = none := hans.1 h hopened
    have hback : Function.update (Function.update s h (some bound)) h none = s := by
      rw [Function.update_idem, ← hfresh, Function.update_eq_self]
    have hready : L.Ready (Function.update (Function.update s h (some bound)) h none) := by
      rw [hback]
      exact hs
    rw [next_of_opened hopened]
    refine Protocol.wp_mono
      (hsome ans h hopened _ hready bound (Nat.le_refl _) (Function.update_self ..)) ?_
    rintro b s' rfl
    exact hback

/-- **What a program that leaves the handles as they are does in a run**: every call that needs a
handle finds it open, and the program returns with the same handles open as before. -/
theorem Keeps.sound (hp : L.Keeps bound p) (e : Env Op Ans τ) (t : τ) (hs : L.Ready s)
    (honest : (L.protocol bound).Honest s (p.run e t).trace) :
    (L.protocol bound).Follows s (p.run e t).trace ∧ (∃ a, (p.run e t).result = some a) ∧
      (L.protocol bound).after s (p.run e t).trace = s := by
  obtain ⟨hfollows, a, hresult, hafter⟩ := Protocol.wp_sound e t (hp s hs) honest
  exact ⟨hfollows, ⟨a, hresult⟩, hafter⟩

end Handling

end CAcheRein
