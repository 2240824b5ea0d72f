import Mathlib.Order.Basic

/-!
# Programs that make calls

A program that talks to its surroundings only by calls, each of which is answered, is a tree: a
call and, for every answer, how the program goes on.  The surroundings are any state that answers
calls.  A `Protocol` says which calls the program may make and which answers it may count on;
`Protocol.wp` is the weakest precondition that goes with it.

## Main definitions

* `Prog`, `Prog.run` : programs, and their runs in some surroundings.
* `Protocol.Follows`, `Protocol.Honest` : the two sides of a protocol, along a run.
* `Protocol.wp` : when a program follows the protocol, ends, and ends well.

## Main results

* `Protocol.wp_bind`, `Protocol.wp_each`, `Protocol.wp_drain` : the rules for sequences and loops.
* `Protocol.wp_sound` : what a weakest precondition says about the runs.
-/

namespace CAcheRein

/-- A program that makes calls; a call `op` is answered by some `Ans op`. -/
inductive Prog (Op : Type) (Ans : Op → Type) (α : Type) where
  /-- It returns. -/
  | ret (a : α)
  /-- The fuel of a loop has run out. -/
  | out
  | call (op : Op) (k : Ans op → Prog Op Ans α)

variable {Op : Type} {Ans : Op → Type} {α β γ τ σ : Type}

namespace Prog

/-- One program after the other. -/
protected def bind : Prog Op Ans α → (α → Prog Op Ans β) → Prog Op Ans β
  | ret a, f => f a
  | out, _ => out
  | call op k, f => call op fun ans => (k ans).bind f

instance : Monad (Prog Op Ans) where
  pure := ret
  bind := Prog.bind

/-- Make one call. -/
def perform (op : Op) : Prog Op Ans (Ans op) := call op ret

/-- A loop over a list, with a variable; the body says whether to go on. -/
def each (body : β → γ → Prog Op Ans (Bool × γ)) : List β → γ → Prog Op Ans γ
  | [], c => ret c
  | x :: xs, c => do
    let r ← body x c
    if r.1 then each body xs r.2 else ret r.2

/-- A loop that makes a call for the next item until there is none. -/
def drain (op : Op) (item : Ans op → Option β) (body : β → γ → Prog Op Ans (Bool × γ)) :
    ℕ → γ → Prog Op Ans γ
  | 0, _ => out
  | fuel + 1, c => do
    let ans ← perform op
    match item ans with
    | none => ret c
    | some x => do
      let r ← body x c
      if r.1 then drain op item body fuel r.2 else ret r.2

/-- A call and its answer. -/
abbrev Event (Op : Type) (Ans : Op → Type) := (op : Op) × Ans op

/-- Surroundings with states `τ`. -/
abbrev Env (Op : Type) (Ans : Op → Type) (τ : Type) := τ → (op : Op) → Ans op × τ

/-- What comes of a run: what the program returns, if it does, and what it has done. -/
structure Outcome (Op : Type) (Ans : Op → Type) (α τ : Type) where
  result : Option α
  trace : List (Event Op Ans)
  state : τ

/-- Run a program. -/
def run (e : Env Op Ans τ) : Prog Op Ans α → τ → Outcome Op Ans α τ
  | ret a, t => ⟨some a, [], t⟩
  | out, t => ⟨none, [], t⟩
  | call op k, t =>
    let o := run e (k (e t op).1) (e t op).2
    { o with trace := ⟨op, (e t op).1⟩ :: o.trace }

/-- The program returns `a` after the events `w`, and leaves the surroundings in `t'`. -/
def Does (e : Env Op Ans τ) (p : Prog Op Ans α) (t : τ) (a : α) (w : List (Event Op Ans))
    (t' : τ) : Prop :=
  p.run e t = ⟨some a, w, t'⟩

variable {e : Env Op Ans τ} {p : Prog Op Ans α} {f : α → Prog Op Ans β} {t t' t'' : τ} {a : α}
  {b : β} {w w' : List (Event Op Ans)}

@[simp] theorem pure_eq (a : α) : (pure a : Prog Op Ans α) = ret a := rfl

@[simp] theorem bind_eq (p : Prog Op Ans α) (f : α → Prog Op Ans β) : p >>= f = p.bind f := rfl

theorem does_ret (a : α) (t : τ) : (ret a : Prog Op Ans α).Does e t a [] t := rfl

/-- A call, and then the rest. -/
theorem Does.call {op : Op} {k : Ans op → Prog Op Ans α}
    (h : (k (e t op).1).Does e (e t op).2 a w t') :
    (call op k).Does e t a (⟨op, (e t op).1⟩ :: w) t' := by
  unfold Does at *
  rw [run, h]

/-- The runs of a sequence. -/
theorem Does.bind (hp : p.Does e t a w t') (hf : (f a).Does e t' b w' t'') :
    (p.bind f).Does e t b (w ++ w') t'' := by
  induction p generalizing t w with
  | ret x =>
    obtain ⟨rfl, rfl, rfl⟩ : x = a ∧ [] = w ∧ t = t' := by
      simpa [Does, run] using hp
    exact hf
  | out => simp [Does, run] at hp
  | call op k ih =>
    simp only [Does, run, Outcome.mk.injEq] at hp
    obtain ⟨hresult, rfl, hstate⟩ := hp
    refine Does.call (ih _ ?_)
    simp only [Does, ← hresult, ← hstate]

end Prog

open Prog

/-- A protocol between a program and its surroundings: the calls the program may make, the answers
it may count on, and what both keep track of. -/
structure Protocol (Op : Type) (Ans : Op → Type) (σ : Type) where
  allowed : σ → Op → Prop
  promised : σ → (op : Op) → Ans op → Prop
  next : σ → (op : Op) → Ans op → σ

namespace Protocol

variable (P : Protocol Op Ans σ)

/-- The program makes only calls that are allowed. -/
def Follows : σ → List (Event Op Ans) → Prop
  | _, [] => True
  | s, ⟨op, ans⟩ :: w => P.allowed s op ∧ Follows (P.next s op ans) w

/-- The surroundings give only answers that are promised. -/
def Honest : σ → List (Event Op Ans) → Prop
  | _, [] => True
  | s, ⟨op, ans⟩ :: w => P.promised s op ans ∧ Honest (P.next s op ans) w

/-- The state behind some events. -/
def after : σ → List (Event Op Ans) → σ
  | s, [] => s
  | s, ⟨op, ans⟩ :: w => after (P.next s op ans) w

/-- The weakest precondition for a program to follow the protocol, as long as the surroundings
do, to return, and to do so with `Q`. -/
def wp : Prog Op Ans α → (α → σ → Prop) → σ → Prop
  | .ret a, Q, s => Q a s
  | .out, _, _ => False
  | .call op k, Q, s =>
    P.allowed s op ∧ ∀ ans, P.promised s op ans → wp (k ans) Q (P.next s op ans)

variable {P} {p : Prog Op Ans α} {f : α → Prog Op Ans β} {Q Q' : α → σ → Prop} {s : σ}

/-- Every call of a run was allowed when it was made. -/
theorem Follows.allowed {w rest : List (Event Op Ans)} {op : Op} {ans : Ans op}
    (h : P.Follows s (w ++ ⟨op, ans⟩ :: rest)) : P.allowed (P.after s w) op := by
  induction w generalizing s with
  | nil => exact h.1
  | cons x w ih => exact ih h.2

/-! ### Rules -/

/-- A weaker postcondition. -/
theorem wp_mono (h : P.wp p Q s) (hQ : ∀ a s, Q a s → Q' a s) : P.wp p Q' s := by
  induction p generalizing s with
  | ret a => exact hQ a s h
  | out => exact h
  | call op k ih => exact ⟨h.1, fun ans hans => ih ans (h.2 ans hans)⟩

/-- **A sequence.** -/
theorem wp_bind {R : β → σ → Prop} (h : P.wp p (fun a s => P.wp (f a) R s) s) :
    P.wp (p.bind f) R s := by
  induction p generalizing s with
  | ret a => exact h
  | out => exact h
  | call op k ih => exact ⟨h.1, fun ans hans => ih ans (h.2 ans hans)⟩

/-- One call. -/
theorem wp_perform {op : Op} {R : Ans op → σ → Prop} (hallowed : P.allowed s op)
    (h : ∀ ans, P.promised s op ans → R ans (P.next s op ans)) : P.wp (perform op) R s :=
  ⟨hallowed, h⟩

/-- **A loop over a list.**  The body keeps the invariant. -/
theorem wp_each {body : β → γ → Prog Op Ans (Bool × γ)} {I : γ → σ → Prop}
    (hbody : ∀ x c s, I c s → P.wp (body x c) (fun r s => I r.2 s) s) (xs : List β) {c : γ}
    (h : I c s) : P.wp (each body xs c) I s := by
  induction xs generalizing c s with
  | nil => exact h
  | cons x xs ih =>
    refine wp_bind (wp_mono (hbody x c s h) fun r s hr => ?_)
    cases r.1 with
    | true => exact ih hr
    | false => exact hr

/-- **A loop that draws items.**  The invariant says how many items there can still be, and the
fuel is enough for them. -/
theorem wp_drain {op : Op} {item : Ans op → Option β} {body : β → γ → Prog Op Ans (Bool × γ)}
    {I : ℕ → γ → σ → Prop} {R : γ → σ → Prop} (hallowed : ∀ n c s, I n c s → P.allowed s op)
    (hnone : ∀ n c s ans, I n c s → P.promised s op ans → item ans = none →
      R c (P.next s op ans))
    (hsome : ∀ n c s ans x, I n c s → P.promised s op ans → item ans = some x →
      ∃ m < n, P.wp (body x c)
        (fun r s => (r.1 = true → I m r.2 s) ∧ (r.1 = false → R r.2 s)) (P.next s op ans))
    (n : ℕ) : ∀ fuel c s, n < fuel → I n c s → P.wp (drain op item body fuel c) R s := by
  induction n using Nat.strongRecOn with
  | ind n ih =>
    intro fuel c s hfuel hI
    obtain ⟨fuel, rfl⟩ := Nat.exists_eq_add_one.2 (Nat.zero_lt_of_lt hfuel)
    refine wp_bind (wp_perform (hallowed n c s hI) fun ans hans => ?_)
    cases hitem : item ans with
    | none => exact hnone n c s ans hI hans hitem
    | some x =>
      obtain ⟨m, hm, hbody⟩ := hsome n c s ans x hI hans hitem
      refine wp_bind (wp_mono hbody fun r s' hr => ?_)
      cases hgo : r.1 with
      | true =>
        rw [if_pos rfl]
        exact ih m hm fuel r.2 s' (by omega) (hr.1 hgo)
      | false =>
        rw [if_neg (by decide)]
        exact hr.2 hgo

/-! ### Runs -/

/-- **What a weakest precondition says about the runs.**  In surroundings that keep their
promises the program makes only calls it may make, it returns, and it does so with `Q`. -/
theorem wp_sound (e : Env Op Ans τ) (t : τ) (h : P.wp p Q s)
    (honest : P.Honest s (p.run e t).trace) : P.Follows s (p.run e t).trace ∧
      ∃ a, (p.run e t).result = some a ∧ Q a (P.after s (p.run e t).trace) := by
  induction p generalizing s t with
  | ret a => exact ⟨trivial, a, rfl, h⟩
  | out => exact h.elim
  | call op k ih =>
    obtain ⟨hans, hrest⟩ := honest
    obtain ⟨hfollows, a, hresult, hQ⟩ := ih (e t op).1 (e t op).2 (h.2 _ hans) hrest
    exact ⟨⟨h.1, hfollows⟩, a, hresult, hQ⟩

end Protocol

end CAcheRein
