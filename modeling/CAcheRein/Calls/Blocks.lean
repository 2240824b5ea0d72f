import CAcheRein.Calls.Basic
import Mathlib.Data.Nat.Init
import Mathlib.Logic.Function.Basic

/-!
# Blocks of memory

Programs that allocate, access and free blocks of memory, and print.  The protocol is that of
`malloc`: it answers NULL or a block that is not in use, only what lies in a block that is in use
is accessed, only what has been written is read, and only a block that is in use, or NULL, is
freed.

## Main definitions

* `BlockLayout`, `BlockLayout.Call` : the objects in a block, and the calls.
* `BlockLayout.protocol` : the protocol.
* `BlockLayout.Clean` : a run that keeps to it and gives back every block it got.

## Main results

* `BlockLayout.wp_malloc`, `BlockLayout.wp_load`, `BlockLayout.wp_store`, `BlockLayout.wp_free` :
  the rules.
* `BlockLayout.clean_of_wp` : what they say about the runs.
* `BlockLayout.honest_env` : an allocator keeps its side.
-/

namespace CAcheRein

open Prog

/-- NULL, or the start of a block. -/
abbrev Ptr := Option ℕ

/-- The objects that a block can hold. -/
structure BlockLayout where
  Cell : Type
  Val : Cell → Type
  /-- The object lies in a block of this size. -/
  Fits : ℕ → Cell → Prop

namespace BlockLayout

/-- The calls of a program. -/
inductive Call (L : BlockLayout) where
  | malloc (size : ℕ)
  | free (p : Ptr)
  | load (p : Ptr) (c : L.Cell)
  | store (p : Ptr) (c : L.Cell) (v : L.Val c)
  | printf (text : List Char)

/-- What a call is answered with. -/
@[reducible] def Answer (L : BlockLayout) : L.Call → Type
  | .malloc _ => Ptr
  | .free _ => Unit
  | .load _ c => L.Val c
  | .store .. => Unit
  | .printf _ => Unit

/-- A program that makes these calls. -/
abbrev Program (L : BlockLayout) (α : Type) := Prog L.Call L.Answer α

/-- A block, and what has been written to it. -/
structure Block (L : BlockLayout) where
  size : ℕ
  cells : (c : L.Cell) → Option (L.Val c)

/-- The blocks in use, what has been printed, and which calls of `malloc` got a block. -/
structure State (L : BlockLayout) where
  heap : ℕ → Option L.Block
  console : List Char
  allocs : List Bool

variable {L : BlockLayout} {α β τ : Type}

section Calls

variable (L)

abbrev malloc (size : ℕ) : L.Program Ptr := perform (Call.malloc size)

abbrev free (p : Ptr) : L.Program Unit := perform (Call.free p)

abbrev load (p : Ptr) (c : L.Cell) : L.Program (L.Val c) := perform (Call.load p c)

abbrev store (p : Ptr) (c : L.Cell) (v : L.Val c) : L.Program Unit := perform (Call.store p c v)

abbrev printf (text : List Char) : L.Program Unit := perform (Call.printf text)

end Calls

/-- A block to which nothing has been written. -/
def Block.fresh (size : ℕ) : L.Block := ⟨size, fun _ => none⟩

@[simp] theorem Block.size_fresh (size : ℕ) : (Block.fresh size : L.Block).size = size := rfl

/-- Write an object. -/
def Block.write [DecidableEq L.Cell] (b : L.Block) (c : L.Cell) (v : L.Val c) : L.Block :=
  { b with cells := Function.update b.cells c (some v) }

namespace State

/-- Put a block in use, or out of it. -/
def set (s : L.State) (p : ℕ) (b : Option L.Block) : L.State :=
  { s with heap := Function.update s.heap p b }

/-- Print. -/
def say (s : L.State) (text : List Char) : L.State := { s with console := s.console ++ text }

/-- `malloc` is called, and has a block or not. -/
def answer (s : L.State) (got : Bool) : L.State := { s with allocs := s.allocs ++ [got] }

variable {s : L.State} {p q : ℕ} {text : List Char} {got : Bool}

@[simp] theorem heap_set_self (b : Option L.Block) : (s.set p b).heap p = b :=
  Function.update_self ..

theorem heap_set_of_ne (b : Option L.Block) (h : q ≠ p) : (s.set p b).heap q = s.heap q :=
  Function.update_of_ne h ..

@[simp] theorem set_set (b b' : Option L.Block) : (s.set p b).set p b' = s.set p b' := by
  simp only [set, Function.update_idem]

theorem set_comm (b b' : Option L.Block) (h : p ≠ q) :
    (s.set p b).set q b' = (s.set q b').set p b := by
  simp only [set, Function.update_comm h]

/-- A block that was not in use before is out of use again. -/
theorem set_none (h : s.heap p = none) : s.set p none = s := by
  rw [set, ← h, Function.update_eq_self]

@[simp] theorem say_set (b : Option L.Block) : (s.set p b).say text = (s.say text).set p b := rfl

@[simp] theorem answer_set (b : Option L.Block) :
    (s.set p b).answer got = (s.answer got).set p b := rfl

@[simp] theorem heap_say : (s.say text).heap = s.heap := rfl

@[simp] theorem heap_answer : (s.answer got).heap = s.heap := rfl

theorem say_say (text' : List Char) : (s.say text).say text' = s.say (text ++ text') := by
  simp only [say, List.append_assoc]

theorem say_nil : s.say [] = s := by
  simp only [say, List.append_nil]

/-- No block from `n` on is in use. -/
def Above (s : L.State) (n : ℕ) : Prop := ∀ q, n ≤ q → s.heap q = none

theorem Above.set {n : ℕ} (h : s.Above n) (hp : p < n) (b : Option L.Block) :
    (s.set p b).Above n := by
  intro q hq
  rw [heap_set_of_ne b (by omega)]
  exact h q hq

theorem Above.set_none {n : ℕ} (h : s.Above n) : (s.set p none).Above n := by
  intro q hq
  by_cases hqp : q = p
  · rw [hqp, heap_set_self]
  · rw [heap_set_of_ne none hqp]
    exact h q hq

/-- What is written to a block that is not in use is lost. -/
theorem Above.set_map {n : ℕ} (h : s.Above n) (f : L.Block → L.Block) :
    (s.set p ((s.heap p).map f)).Above n := by
  intro q hq
  by_cases hqp : q = p
  · rw [hqp, heap_set_self, ← hqp, h q hq]
    rfl
  · rw [heap_set_of_ne _ hqp]
    exact h q hq

/-- Beyond the blocks in use in `s₀`, just those of `ps` are, each once. -/
structure Beyond (s₀ s : L.State) (ps : List Ptr) : Prop where
  held : ∀ q, some q ∈ ps → s₀.heap q = none ∧ s.heap q ≠ none
  once : ∀ q, ps.count (some q) ≤ 1
  other : ∀ q, some q ∉ ps → s.heap q = s₀.heap q

variable {s₀ : L.State} {ps : List Ptr}

theorem beyond_self (s : L.State) : Beyond s s [] :=
  ⟨fun _ h => (List.not_mem_nil h).elim, fun _ => Nat.zero_le _, fun _ _ => rfl⟩

theorem Beyond.heap_eq (h : Beyond s₀ s []) : s.heap = s₀.heap :=
  funext fun q => h.other q List.not_mem_nil

theorem Beyond.answer (h : Beyond s₀ s ps) (got : Bool) : Beyond s₀ (s.answer got) ps :=
  ⟨h.held, h.once, h.other⟩

/-- NULL. -/
theorem Beyond.null (h : Beyond s₀ s ps) : Beyond s₀ s (none :: ps) := by
  have hmem : ∀ q : ℕ, some q ∈ none :: ps ↔ some q ∈ ps := fun q => by simp
  refine ⟨fun q hq => h.held q ((hmem q).1 hq), fun q => ?_, fun q hq => ?_⟩
  · rw [List.count_cons_of_ne (Option.some_ne_none q).symm]
    exact h.once q
  · exact h.other q (mt (hmem q).2 hq)

/-- One more block. -/
theorem Beyond.alloc (h : Beyond s₀ s ps) (hp : s.heap p = none) (b : L.Block) :
    Beyond s₀ (s.set p (some b)) (some p :: ps) := by
  have hnot : some p ∉ ps := fun hmem => (h.held p hmem).2 hp
  refine ⟨fun q hq => ?_, fun q => ?_, fun q hq => ?_⟩
  · by_cases hqp : q = p
    · subst hqp
      rw [heap_set_self]
      exact ⟨(h.other q hnot).symm.trans hp, Option.some_ne_none b⟩
    · rw [heap_set_of_ne _ hqp]
      exact h.held q ((List.mem_cons.1 hq).resolve_left fun heq => hqp (Option.some.inj heq))
  · by_cases hqp : q = p
    · subst hqp
      refine Nat.le_of_eq ?_
      rw [List.count_cons_self, List.count_eq_zero_of_not_mem hnot]
    · rw [List.count_cons_of_ne fun heq => hqp (Option.some.inj heq).symm]
      exact h.once q
  · rw [List.mem_cons, not_or] at hq
    rw [heap_set_of_ne _ fun heq => hq.1 (congrArg some heq)]
    exact h.other q hq.2

theorem Beyond.perm {qs : List Ptr} (h : Beyond s₀ s ps) (hperm : ps.Perm qs) :
    Beyond s₀ s qs :=
  ⟨fun q hq => h.held q (hperm.mem_iff.2 hq), fun q => hperm.count_eq (some q) ▸ h.once q,
    fun q hq => h.other q (mt hperm.mem_iff.1 hq)⟩

/-- One block less. -/
theorem Beyond.release (h : Beyond s₀ s (some p :: ps)) : Beyond s₀ (s.set p none) ps := by
  have hnot : some p ∉ ps := by
    have honce := h.once p
    rw [List.count_cons_self] at honce
    rw [← List.count_eq_zero]
    omega
  refine ⟨fun q hq => ?_, fun q => ?_, fun q hq => ?_⟩
  · have hqp : q ≠ p := by
      rintro rfl
      exact hnot hq
    rw [heap_set_of_ne _ hqp]
    exact h.held q (List.mem_cons_of_mem _ hq)
  · exact Nat.le_trans (List.count_le_count_cons ..) (h.once q)
  · by_cases hqp : q = p
    · subst hqp
      rw [heap_set_self, (h.held q List.mem_cons_self).1]
    · rw [heap_set_of_ne _ hqp]
      refine h.other q fun hmem => hq ?_
      exact (List.mem_cons.1 hmem).resolve_left fun heq => hqp (Option.some.inj heq)

/-- NULL is not a block. -/
theorem Beyond.forget (h : Beyond s₀ s (none :: ps)) : Beyond s₀ s ps := by
  refine ⟨fun q hq => h.held q (List.mem_cons_of_mem _ hq), fun q => ?_, fun q hq => ?_⟩
  · exact Nat.le_trans (List.count_le_count_cons ..) (h.once q)
  · refine h.other q fun hmem => hq ?_
    exact (List.mem_cons.1 hmem).resolve_left (Option.some_ne_none q)

theorem Beyond.say (h : Beyond s₀ s ps) (text : List Char) : Beyond s₀ (s.say text) ps :=
  ⟨h.held, h.once, h.other⟩

end State

variable [DecidableEq L.Cell]

/-- The state after a call. -/
def next (s : L.State) : (op : L.Call) → L.Answer op → L.State
  | .malloc _, none => s.answer false
  | .malloc size, some p => (s.answer true).set p (some (.fresh size))
  | .free none, _ => s
  | .free (some p), _ => s.set p none
  | .load .., _ => s
  | .store none _ _, _ => s
  | .store (some p) c v, _ => s.set p ((s.heap p).map fun b => b.write c v)
  | .printf text, _ => s.say text

/-- What a program may do. -/
def Allowed (s : L.State) : L.Call → Prop
  | .malloc _ => True
  | .free p => ∀ q, p = some q → s.heap q ≠ none
  | .load p c => ∃ q b, p = some q ∧ s.heap q = some b ∧ L.Fits b.size c ∧ b.cells c ≠ none
  | .store p c _ => ∃ q b, p = some q ∧ s.heap q = some b ∧ L.Fits b.size c
  | .printf _ => True

/-- What it may count on. -/
def Promised (s : L.State) : (op : L.Call) → L.Answer op → Prop
  | .malloc _, p => ∀ q, p = some q → s.heap q = none
  | .free _, _ => True
  | .load p c, v => ∀ q b w, p = some q → s.heap q = some b → b.cells c = some w → v = w
  | .store .., _ => True
  | .printf _, _ => True

variable (L) in
/-- The protocol. -/
def protocol : Protocol L.Call L.Answer L.State where
  allowed := Allowed
  promised := Promised
  next := next

variable {s : L.State} {p q size : ℕ} {b b' : L.Block} {c c' : L.Cell} {v : L.Val c}
  {text : List Char} {R : β → L.State → Prop}

@[simp] theorem Block.size_write : (b.write c v).size = b.size := rfl

@[simp] theorem Block.cells_write_self : (b.write c v).cells c = some v := Function.update_self ..

theorem Block.cells_write_of_ne (h : c' ≠ c) : (b.write c v).cells c' = b.cells c' :=
  Function.update_of_ne h ..

/-! ### Rules -/

/-- **Allocation** can fail. -/
theorem wp_malloc {k : Ptr → L.Program β} (hnull : L.protocol.wp (k none) R (s.answer false))
    (hblock : ∀ p, s.heap p = none →
      L.protocol.wp (k (some p)) R ((s.answer true).set p (some (.fresh size)))) :
    L.protocol.wp ((L.malloc size).bind k) R s := by
  refine ⟨trivial, fun ans hans => ?_⟩
  cases ans with
  | none => exact hnull
  | some p => exact hblock p (hans p rfl)

/-- **A read** of what has been written. -/
theorem wp_load {k : L.Val c → L.Program β} (hb : s.heap p = some b) (hfits : L.Fits b.size c)
    (hv : b.cells c = some v) (h : L.protocol.wp (k v) R s) :
    L.protocol.wp ((L.load (some p) c).bind k) R s := by
  refine ⟨⟨p, b, rfl, hb, hfits, hv ▸ Option.some_ne_none v⟩, fun ans hans => ?_⟩
  obtain rfl : ans = v := hans p b v rfl hb hv
  exact h

/-- **A write.** -/
theorem wp_store {k : Unit → L.Program β} (hb : s.heap p = some b) (hfits : L.Fits b.size c)
    (h : L.protocol.wp (k ()) R (s.set p (some (b.write c v)))) :
    L.protocol.wp ((L.store (some p) c v).bind k) R s := by
  refine ⟨⟨p, b, rfl, hb, hfits⟩, fun _ _ => ?_⟩
  change L.protocol.wp (k ()) R (s.set p ((s.heap p).map fun b => b.write c v))
  rwa [hb]

/-- **A block is freed.** -/
theorem wp_free {k : Unit → L.Program β} (hb : s.heap p = some b)
    (h : L.protocol.wp (k ()) R (s.set p none)) :
    L.protocol.wp ((L.free (some p)).bind k) R s := by
  refine ⟨fun q hq => ?_, fun _ _ => h⟩
  cases hq
  rw [hb]
  exact Option.some_ne_none b

/-- NULL may be freed. -/
theorem wp_free_null {k : Unit → L.Program β} (h : L.protocol.wp (k ()) R s) :
    L.protocol.wp ((L.free none).bind k) R s :=
  ⟨fun q hq => (Option.some_ne_none q hq.symm).elim, fun _ _ => h⟩

theorem wp_printf {k : Unit → L.Program β} (h : L.protocol.wp (k ()) R (s.say text)) :
    L.protocol.wp ((L.printf text).bind k) R s :=
  ⟨trivial, fun _ _ => h⟩

/-- Whatever `malloc` answers is held. -/
theorem wp_malloc_held {s₀ : L.State} {ps : List Ptr} {k : Ptr → L.Program β}
    (hs : s₀.Beyond s ps)
    (h : ∀ p s', s₀.Beyond s' (p :: ps) → s'.console = s.console →
      s'.allocs = s.allocs ++ [p.isSome] → L.protocol.wp (k p) R s') :
    L.protocol.wp ((L.malloc size).bind k) R s :=
  wp_malloc (h none _ (hs.answer false).null rfl rfl) fun p hp =>
    h (some p) _ ((hs.answer true).alloc hp _) rfl rfl

/-- **What is held can be freed**, NULL or not. -/
theorem wp_free_held {s₀ : L.State} {ps : List Ptr} {ptr : Ptr} {k : Unit → L.Program β}
    (hs : s₀.Beyond s (ptr :: ps))
    (h : ∀ s', s₀.Beyond s' ps → s'.console = s.console → s'.allocs = s.allocs →
      L.protocol.wp (k ()) R s') :
    L.protocol.wp ((L.free ptr).bind k) R s := by
  cases ptr with
  | none => exact wp_free_null (h s hs.forget rfl rfl)
  | some p =>
    obtain ⟨b, hb⟩ := Option.ne_none_iff_exists'.1 (hs.held p List.mem_cons_self).2
    exact wp_free hb (h _ hs.release rfl rfl)

/-! ### Runs -/

/-- The run keeps to the protocol and gives back every block it got. -/
structure Clean (s : L.State) (w : List (Event L.Call L.Answer)) : Prop where
  follows : L.protocol.Follows s w
  freed : (L.protocol.after s w).heap = s.heap

/-- **Where only addresses that are in use are accessed.** -/
theorem Clean.allowed {w rest : List (Event L.Call L.Answer)} {op : L.Call} {ans : L.Answer op}
    (h : L.Clean s (w ++ ⟨op, ans⟩ :: rest)) : Allowed (L.protocol.after s w) op :=
  Protocol.Follows.allowed h.follows

/-- What was printed in a run. -/
def printed : List (Event L.Call L.Answer) → List Char
  | [] => []
  | ⟨.printf text, _⟩ :: w => text ++ printed w
  | ⟨.malloc _, _⟩ :: w => printed w
  | ⟨.free _, _⟩ :: w => printed w
  | ⟨.load .., _⟩ :: w => printed w
  | ⟨.store .., _⟩ :: w => printed w

/-- Which calls of `malloc` got a block, in order. -/
def allocations : List (Event L.Call L.Answer) → List Bool
  | [] => []
  | ⟨.malloc _, none⟩ :: w => false :: allocations w
  | ⟨.malloc _, some _⟩ :: w => true :: allocations w
  | ⟨.printf _, _⟩ :: w => allocations w
  | ⟨.free _, _⟩ :: w => allocations w
  | ⟨.load .., _⟩ :: w => allocations w
  | ⟨.store .., _⟩ :: w => allocations w

/-- The state keeps what a run prints and gets. -/
theorem after_keeps (w : List (Event L.Call L.Answer)) : ∀ s : L.State,
    (L.protocol.after s w).console = s.console ++ printed w ∧
      (L.protocol.after s w).allocs = s.allocs ++ allocations w := by
  induction w with
  | nil => exact fun s => ⟨(List.append_nil _).symm, (List.append_nil _).symm⟩
  | cons ev w ih =>
    intro s
    obtain ⟨op, ans⟩ := ev
    obtain ⟨hconsole, hallocs⟩ := ih (next s op ans)
    change (L.protocol.after (next s op ans) w).console = _ ∧
      (L.protocol.after (next s op ans) w).allocs = _
    rw [hconsole, hallocs]
    cases op with
    | malloc size =>
      cases ans with
      | none => exact ⟨rfl, List.append_assoc ..⟩
      | some p => exact ⟨rfl, List.append_assoc ..⟩
    | free p => cases p <;> exact ⟨rfl, rfl⟩
    | load p c => exact ⟨rfl, rfl⟩
    | store p c v => cases p <;> exact ⟨rfl, rfl⟩
    | printf text => exact ⟨List.append_assoc .., rfl⟩

/-- The same blocks are in use, `text` was printed, and `malloc` was called with the outcomes
`allocs`. -/
structure Since (s s' : L.State) (text : List Char) (allocs : List Bool) : Prop where
  heap : s'.heap = s.heap
  console : s'.console = s.console ++ text
  allocs : s'.allocs = s.allocs ++ allocs

/-- **What the rules say about the runs**, if the program ends with the blocks it began with. -/
theorem clean_of_wp {prog : L.Program β} {Q : β → List Char → List Bool → Prop}
    (h : L.protocol.wp prog
      (fun a s' => ∃ text allocs, Since s s' text allocs ∧ Q a text allocs) s)
    (e : Env L.Call L.Answer τ) (t : τ) (honest : L.protocol.Honest s (prog.run e t).trace) :
    L.Clean s (prog.run e t).trace ∧ ∃ a, (prog.run e t).result = some a ∧
      Q a (printed (prog.run e t).trace) (allocations (prog.run e t).trace) := by
  obtain ⟨hfollows, a, hresult, text, allocs, hsince, hQ⟩ := Protocol.wp_sound e t h honest
  obtain ⟨hconsole, hallocs⟩ := after_keeps (prog.run e t).trace s
  obtain rfl := List.append_cancel_left (hconsole.symm.trans hsince.console)
  obtain rfl := List.append_cancel_left (hallocs.symm.trans hsince.allocs)
  exact ⟨⟨hfollows, hsince.heap⟩, a, hresult, hQ⟩

/-! ### An allocator -/

/-- What a read answers. -/
def read [∀ c, Inhabited (L.Val c)] (s : L.State) (p : Ptr) (c : L.Cell) : L.Val c :=
  ((p.bind s.heap).bind fun b => b.cells c).getD default

/-- Surroundings with memory: the blocks from `n` on are not in use, and `gives` says which sizes
`malloc` has a block for. -/
def env [∀ c, Inhabited (L.Val c)] (gives : ℕ → Bool) : Env L.Call L.Answer (ℕ × L.State)
  | (n, s), .malloc size =>
    if gives size then (some n, n + 1, next s (.malloc size) (some n))
    else (none, n, next s (.malloc size) none)
  | (n, s), .free p => ((), n, next s (.free p) ())
  | (n, s), .load p c => (read s p c, n, s)
  | (n, s), .store p c v => ((), n, next s (.store p c v) ())
  | (n, s), .printf text => ((), n, next s (.printf text) ())

/-- **An allocator keeps its side of the protocol**, to any program. -/
theorem honest_env [∀ c, Inhabited (L.Val c)] (gives : ℕ → Bool) (prog : L.Program β) {n : ℕ}
    (h : s.Above n) : L.protocol.Honest s (prog.run (env gives) (n, s)).trace := by
  induction prog generalizing n s with
  | ret a => trivial
  | out => trivial
  | call op k ih =>
    cases op with
    | malloc size =>
      cases hgives : gives size with
      | true =>
        have hans : env gives (n, s) (.malloc size) =
            (some n, n + 1, (s.answer true).set n (some (.fresh size))) := if_pos hgives
        rw [run, hans]
        refine ⟨fun q hq => ?_, ih _ ?_⟩
        · cases hq
          exact h n (Nat.le_refl n)
        · -- blocks are numbered upwards, so the next one is not in use
          have hup : (s.answer true).Above (n + 1) := fun q hq => h q (Nat.le_of_succ_le hq)
          exact hup.set (Nat.lt_succ_self n) _
      | false =>
        have hans : env gives (n, s) (.malloc size) = (none, n, s.answer false) :=
          if_neg (by rw [hgives]; decide)
        rw [run, hans]
        exact ⟨fun q hq => (Option.some_ne_none q hq.symm).elim, ih _ h⟩
    | free p =>
      refine ⟨trivial, ih _ ?_⟩
      cases p with
      | none => exact h
      | some p => exact h.set_none
    | load p c =>
      refine ⟨fun q b w hp hb hw => ?_, ih _ h⟩
      change read s p c = w
      rw [read, hp, Option.bind_some, hb, Option.bind_some, hw, Option.getD_some]
    | store p c v =>
      refine ⟨trivial, ih _ ?_⟩
      cases p with
      | none => exact h
      | some p => exact h.set_map _
    | printf text => exact ⟨trivial, ih _ h⟩

/-- Where there is memory for everything, no allocation fails. -/
theorem not_mem_allocations [∀ c, Inhabited (L.Val c)] (prog : L.Program β) (t : ℕ × L.State) :
    false ∉ allocations (prog.run (env fun _ => true) t).trace := by
  induction prog generalizing t with
  | ret a => exact List.not_mem_nil
  | out => exact List.not_mem_nil
  | call op k ih =>
    cases op with
    | malloc size =>
      intro hmem
      exact ih _ _ ((List.mem_cons.1 hmem).resolve_left Bool.false_ne_true)
    | free p => exact ih _ _
    | load p c => exact ih _ _
    | store p c v => exact ih _ _
    | printf text => exact ih _ _

end BlockLayout

end CAcheRein
