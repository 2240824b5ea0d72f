import Mathlib.Data.List.Basic
import Mathlib.Logic.Function.Basic

/-!
# A heap with an allocator

Memory seen by a program with pointers: a partial map from addresses to cells, on which the
program reads and writes cells, and calls `malloc` and `free`.  An access to an address that is
not allocated, and a `free` of one, has no result (`none`), so a program that returns has made no
such access.  Every access is logged.

## Main definitions

* `Heap`, `Mem` : the map, and the map with the log of accesses and the number of `malloc` calls.
* `Policy` : what `malloc` answers.  The address of a success is free by construction.
* `Grown` : a structure in the heap grew, and nothing else changed.
* `Mem.read`, `Mem.modify`, `Mem.malloc`, `Mem.free` : the accesses.
-/

namespace CAcheRein

/-- A partial map from addresses to cells. -/
abbrev Heap (α : Type*) := ℕ → Option α

/-- An access to a cell. -/
inductive Access where
  | read (a : ℕ)
  | write (a : ℕ)
  | free (a : ℕ)
  deriving DecidableEq

/-- The addresses freed by some accesses, in order. -/
def freesOf (as : List Access) : List ℕ :=
  as.filterMap fun x => match x with
    | .free a => some a
    | _ => none

@[simp] theorem freesOf_append (as bs : List Access) :
    freesOf (as ++ bs) = freesOf as ++ freesOf bs := List.filterMap_append

@[simp] theorem freesOf_read (a : ℕ) : freesOf [.read a] = [] := rfl

@[simp] theorem freesOf_free (a : ℕ) : freesOf [.free a] = [a] := rfl

/-- From `h` to `h'`, a structure at the addresses `as` came to lie at `as'`: these were its own or
free, it kept its own, and nothing else changed. -/
structure Grown {α : Type*} (h : Heap α) (as : List ℕ) (h' : Heap α) (as' : List ℕ) : Prop where
  fresh : ∀ a ∈ as', a ∈ as ∨ h a = none
  kept : ∀ a ∈ as, a ∈ as'
  frame : ∀ a ∉ as', h' a = h a

namespace Grown

variable {α : Type*} {h h' h'' : Heap α} {as as' as'' : List ℕ}

theorem refl (h : Heap α) (as : List ℕ) : Grown h as h as :=
  ⟨fun _ ha => .inl ha, fun _ ha => ha, fun _ _ => rfl⟩

theorem trans (hg : Grown h as h' as') (hg' : Grown h' as' h'' as'') : Grown h as h'' as'' where
  fresh a ha := by
    by_cases hmem : a ∈ as'
    · exact hg.fresh a hmem
    · exact .inr (hg.frame a hmem ▸ (hg'.fresh a ha).resolve_left hmem)
  kept a ha := hg'.kept a (hg.kept a ha)
  frame a ha := by
    rw [hg'.frame a ha]
    exact hg.frame a fun hmem => ha (hg'.kept a hmem)

/-- What is stored elsewhere is not in the way. -/
theorem not_mem (hg : Grown h as h' as') {a : ℕ} (ha : a ∉ as) (halloc : h a ≠ none) : a ∉ as' :=
  fun hmem => (hg.fresh a hmem).elim ha halloc

/-- A structure that grew from nothing lies where nothing was. -/
theorem eq_none (hg : Grown h [] h' as') {a : ℕ} (ha : a ∈ as') : h a = none :=
  (hg.fresh a ha).resolve_left List.not_mem_nil

/-- One address more, at a place that was free. -/
theorem insert {n : ℕ} (hn : h n = none) (hmem : ∀ a, a ∈ as' ↔ a = n ∨ a ∈ as)
    (hframe : ∀ a ∉ as', h' a = h a) : Grown h as h' as' := by
  refine ⟨fun a ha => ?_, fun a ha => (hmem a).2 (.inr ha), hframe⟩
  rcases (hmem a).1 ha with rfl | ha
  · exact .inr hn
  · exact .inl ha

/-- A part grows, and the cell `n` that leads to it is written. -/
theorem link (hg : Grown h as h' as') {n : ℕ} {c : Option α} {others ps ps' : List ℕ}
    (hps : ∀ a, a ∈ ps ↔ a = n ∨ a ∈ as ∨ a ∈ others)
    (hps' : ∀ a, a ∈ ps' ↔ a = n ∨ a ∈ as' ∨ a ∈ others) :
    Grown h ps (Function.update h' n c) ps' := by
  refine ⟨fun a ha => ?_, fun a ha => ?_, fun a ha => ?_⟩
  · rw [hps]
    rcases (hps' a).1 ha with rfl | hpart | hother
    · exact .inl (.inl rfl)
    · exact (hg.fresh a hpart).imp (fun hold => .inr (.inl hold)) id
    · exact .inl (.inr (.inr hother))
  · exact (hps' a).2 (((hps a).1 ha).imp id (Or.imp (hg.kept a) id))
  · rw [hps', not_or, not_or] at ha
    rw [Function.update_of_ne ha.1, hg.frame a ha.2.1]

/-- Once a structure that grew from nothing is gone again, the heap is as before. -/
theorem restore (hg : Grown h [] h' as') (hgone : ∀ a ∈ as', h'' a = none)
    (hkept : ∀ a ∉ as', h'' a = h' a) : h'' = h := by
  funext a
  by_cases ha : a ∈ as'
  · rw [hgone a ha, hg.eq_none ha]
  · rw [hkept a ha, hg.frame a ha]

end Grown

/-- What `malloc` answers in a heap, at its `n`-th call: NULL, or a free address and what the
memory there happens to hold. -/
def Policy (α : Type*) := (h : Heap α) → ℕ → Option ({a : ℕ // h a = none} × α)

/-- The heap, and a record of what was done to it. -/
structure Mem (α : Type*) where
  heap : Heap α
  /-- How often `malloc` was called. -/
  calls : ℕ
  /-- The accesses made, in order. -/
  trace : List Access

namespace Mem

variable {α : Type*} (P : Policy α) (m : Mem α) (a : ℕ)

/-- A heap nothing was done to yet. -/
def start (h : Heap α) : Mem α := ⟨h, 0, []⟩

/-- Record an access. -/
def log (x : Access) : Mem α := { m with trace := m.trace ++ [x] }

/-- Read a cell. -/
def read : Option (α × Mem α) := (m.heap a).map fun c => (c, m.log (.read a))

/-- Write some fields of a cell. -/
def modify (f : α → α) : Option (Mem α) :=
  (m.heap a).map fun c => { m.log (.write a) with heap := Function.update m.heap a (some (f c)) }

/-- `malloc`: NULL, or the address of a new cell. -/
def malloc : Option ℕ × Mem α :=
  match P m.heap m.calls with
  | none => (none, { m with calls := m.calls + 1 })
  | some (a, junk) =>
    (some a, { m with heap := Function.update m.heap a (some junk), calls := m.calls + 1 })

/-- `free`. -/
def free : Option (Mem α) :=
  (m.heap a).map fun _ => { m.log (.free a) with heap := Function.update m.heap a none }

variable {m a}

@[simp] theorem trace_log (x : Access) : (m.log x).trace = m.trace ++ [x] := rfl

theorem read_of_some {c : α} (h : m.heap a = some c) : m.read a = some (c, m.log (.read a)) := by
  rw [read, h]; rfl

theorem modify_of_some {c : α} (h : m.heap a = some c) (f : α → α) :
    m.modify a f =
      some { m.log (.write a) with heap := Function.update m.heap a (some (f c)) } := by
  rw [modify, h]; rfl

theorem free_of_some {c : α} (h : m.heap a = some c) :
    m.free a = some { m.log (.free a) with heap := Function.update m.heap a none } := by
  rw [free, h]; rfl

variable {P}

theorem malloc_of_none (h : P m.heap m.calls = none) :
    m.malloc P = (none, { m with calls := m.calls + 1 }) := by
  rw [malloc, h]

theorem malloc_of_some {a : {a : ℕ // m.heap a = none}} {junk : α}
    (h : P m.heap m.calls = some (a, junk)) :
    m.malloc P =
      (some a.val,
        { m with heap := Function.update m.heap a (some junk), calls := m.calls + 1 }) := by
  rw [malloc, h]

end Mem

end CAcheRein
