import CAcheRein.Heap.Chain

/-!
# The linked list

The singly linked list of `module2-pointers-memory/ex06-linked-list`, on the level of pointers:
nodes are cells of a heap and `NULL` is `none`.  A function that changes `*head` returns its new
value.  The loops take fuel; a function has no result when it runs out or when it touches a cell
that is not allocated.  What the source prints is left out.
-/

namespace CAcheRein

namespace LinkedList

/-- `node_t`. -/
structure Node where
  data : UInt8
  next : Option ℕ
  deriving DecidableEq

variable (P : Policy Node)

/-- `node_create`. -/
def nodeCreate (data : UInt8) (m : Mem Node) : Option (Option ℕ × Mem Node) :=
  match m.malloc P with
  | (none, m) => some (none, m)
  | (some n, m) => do
    let m ← m.modify n fun c => { c with data := data }
    let m ← m.modify n fun c => { c with next := none }
    some (some n, m)

/-- `list_push_front`. -/
def listPushFront (head : Option ℕ) (data : UInt8) (m : Mem Node) :
    Option (Option ℕ × Mem Node) := do
  match ← nodeCreate P data m with
  | (none, m) => some (head, m)
  | (some n, m) =>
    let m ← m.modify n fun c => { c with next := head }
    some (some n, m)

/-- The loop of `list_push_back`: the last node from `curr` on. -/
def walk : ℕ → Mem Node → ℕ → Option (ℕ × Mem Node)
  | 0, _, _ => none
  | fuel + 1, m, curr => do
    let (c, m) ← m.read curr
    match c.next with
    | none => some (curr, m)
    | some next => walk fuel m next

/-- `list_push_back`. -/
def listPushBack (fuel : ℕ) (head : Option ℕ) (data : UInt8) (m : Mem Node) :
    Option (Option ℕ × Mem Node) := do
  match ← nodeCreate P data m with
  | (none, m) => some (head, m)
  | (some n, m) =>
    match head with
    | none => some (some n, m)
    | some curr =>
      let (last, m) ← walk fuel m curr
      let m ← m.modify last fun c => { c with next := some n }
      some (head, m)

/-- The loop of `list_length` from `curr` on, `count` nodes having been counted. -/
def lengthLoop : ℕ → Mem Node → Option ℕ → ℕ → Option (ℕ × Mem Node)
  | 0, _, _, _ => none
  | _ + 1, m, none, count => some (count, m)
  | fuel + 1, m, some curr, count => do
    let (c, m) ← m.read curr
    lengthLoop fuel m c.next (count + 1)

/-- `list_length`.  A `size_t` holds the number of cells of any list, since they are at different
addresses. -/
def listLength (fuel : ℕ) (m : Mem Node) (head : Option ℕ) : Option (ℕ × Mem Node) :=
  lengthLoop fuel m head 0

/-- The loop of `list_free` from `curr` on. -/
def freeLoop : ℕ → Mem Node → Option ℕ → Option (Mem Node)
  | 0, _, _ => none
  | _ + 1, m, none => some m
  | fuel + 1, m, some curr => do
    let (c, m) ← m.read curr
    let m ← m.free curr
    freeLoop fuel m c.next

/-- `list_free`. -/
def listFree (fuel : ℕ) (m : Mem Node) (head : Option ℕ) : Option (Option ℕ × Mem Node) := do
  let m ← freeLoop fuel m head
  some (none, m)

/-! ### Sequences of calls -/

/-- A call that adds a node. -/
inductive ListCall where
  | pushFront (data : UInt8)
  | pushBack (data : UInt8)

/-- A call on the list at `s.1`. -/
def listCall (fuel : ℕ) (s : Option ℕ × Mem Node) : ListCall → Option (Option ℕ × Mem Node)
  | .pushFront data => listPushFront P s.1 data s.2
  | .pushBack data => listPushBack P fuel s.1 data s.2

/-- Calls one after another, and for each whether its allocation succeeded. -/
def listCalls (fuel : ℕ) :
    Option ℕ × Mem Node → List ListCall → Option ((Option ℕ × Mem Node) × List Bool)
  | s, [] => some (s, [])
  | s, c :: cs => do
    let s' ← listCall P fuel s c
    let (t, oks) ← listCalls fuel s' cs
    some (t, (P s.2.heap s.2.calls).isSome :: oks)

/-- What a call does to the abstract list, if its allocation succeeds. -/
def pushed (l : List UInt8) : ListCall × Bool → List UInt8
  | (.pushFront data, true) => data :: l
  | (.pushBack data, true) => l ++ [data]
  | (_, false) => l

end LinkedList

end CAcheRein
