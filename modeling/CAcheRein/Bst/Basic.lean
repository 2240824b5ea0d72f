import Mathlib.Data.Finset.Sort
import Mathlib.Order.Std
import CAcheRein.SearchTree.Basic
import CAcheRein.Transition.Machine

/-!
# The binary search tree

The search tree of `module4-data-structures/ex04-bst`: `uint32_t` values in nodes got from
`malloc`.  A pointer is modelled by the tree of the nodes reachable from it, `NULL` by the empty
tree, and a node carries the address `malloc` gave it.  The recursion of the source is kept, and
`malloc` is a state passed through it, so that a call which asks for no memory can be told from
one whose request fails.

## Main definitions

* `Malloc`, `Malloc.malloc` : the allocator, with an arbitrary pattern of answers.
* `bstCreateNode`, `bstInsert`, `bstSearch`, `bstFindMin`, `bstInorder` : the source.
* `bst` : `root = bst_insert(root, v)` as a `Machine`.
* `stored` : the values some insert allocated a node for.

## Main results

* `bstInsert_of_mem`, `bstInsert_of_not_mem` : an insert either does nothing or grafts what
  `bst_create_node` returned.
-/

namespace CAcheRein

namespace Bst

open SearchTree

/-- The order of `uint32_t`. -/
instance uint32LinearOrder : LinearOrder UInt32 where
  le_refl _ := UInt32.le_refl _
  le_trans _ _ _ := UInt32.le_trans
  le_antisymm _ _ := UInt32.le_antisymm
  lt_iff_le_not_ge _ _ := Std.lt_iff_le_and_not_ge
  le_total := UInt32.le_total
  toDecidableLE := inferInstance

/-- An address `malloc` returned. -/
abbrev Addr := ℕ

/-- A `bst_node_t` without its links. -/
structure Cell where
  addr : Addr
  value : UInt32
  deriving DecidableEq

/-- A `bst_node_t *`: the nodes reachable from it. -/
abbrev BstNode := BinaryTree Cell

/-- The allocator: what it answers to each of its calls, `none` being `NULL`, and how often it has
been called. -/
structure Malloc where
  answers : ℕ → Option Addr
  calls : ℕ

/-- `malloc(sizeof(bst_node_t))`. -/
def Malloc.malloc (m : Malloc) : Option Addr × Malloc :=
  (m.answers m.calls, { m with calls := m.calls + 1 })

/-- `bst_create_node`. -/
def bstCreateNode (value : UInt32) (m : Malloc) : BstNode × Malloc :=
  match m.malloc with
  | (none, m) => (.nil, m)
  | (some n, m) => (.node ⟨n, value⟩ .nil .nil, m)

/-- `bst_insert`. -/
def bstInsert : BstNode → UInt32 → Malloc → BstNode × Malloc
  | .nil, value, m => bstCreateNode value m
  | .node c left right, value, m =>
    if value < c.value then
      let (left, m) := bstInsert left value m
      (.node c left right, m)
    else if value > c.value then
      let (right, m) := bstInsert right value m
      (.node c left right, m)
    else (.node c left right, m)

/-- `bst_search`. -/
def bstSearch : BstNode → UInt32 → BstNode
  | .nil, _ => .nil
  | .node c left right, value =>
    if value = c.value then .node c left right
    else if value < c.value then bstSearch left value
    else bstSearch right value

/-- `bst_find_min`. -/
def bstFindMin : BstNode → BstNode
  | .nil => .nil
  | .node c .nil right => .node c .nil right
  | .node _ left _ => bstFindMin left

/-- The values `bst_inorder` prints. -/
def bstInorder : BstNode → List UInt32
  | .nil => []
  | .node c left right => bstInorder left ++ [c.value] ++ bstInorder right

/-- The insert called `malloc`, and was given a node. -/
def allocates (root : BstNode) (value : UInt32) (m : Malloc) : Bool :=
  decide (m.calls < (bstInsert root value m).2.calls) && (m.answers m.calls).isSome

/-- `root = bst_insert(root, v)` from `NULL`, with the allocator answering `answers`; the answer to
an insert is whether it got a node. -/
def bst (answers : ℕ → Option Addr) : Machine (BstNode × Malloc) UInt32 Bool where
  init := (.nil, ⟨answers, 0⟩)
  next s value := bstInsert s.1 value s.2
  out s value := allocates s.1 value s.2

/-- The root after inserting `vs`. -/
def root (answers : ℕ → Option Addr) (vs : List UInt32) : BstNode := ((bst answers).run vs).1

/-- The values for which some insert succeeded in allocating. -/
def stored (answers : ℕ → Option Addr) (vs : List UInt32) : Finset UInt32 :=
  ((((bst answers).steps vs).filter fun p => (bst answers).out p.1 p.2).map (·.2)).toFinset

/-! ### What the functions do -/

theorem bstInorder_eq (t : BstNode) : bstInorder t = keys Cell.value t := by
  induction t with
  | nil => rfl
  | node c left right ihl ihr => rw [bstInorder, ihl, ihr, keys_node, List.append_assoc]; rfl

theorem bstCreateNode_snd (value : UInt32) (m : Malloc) :
    (bstCreateNode value m).2 = { m with calls := m.calls + 1 } := by
  unfold bstCreateNode Malloc.malloc
  cases m.answers m.calls <;> rfl

/-- What `bst_create_node` returns: a leaf with the value, or `NULL`. -/
theorem bstCreateNode_fst (value : UInt32) (m : Malloc) :
    (bstCreateNode value m).1 =
      match m.answers m.calls with
      | none => .nil
      | some n => .node ⟨n, value⟩ .nil .nil := by
  unfold bstCreateNode Malloc.malloc
  cases m.answers m.calls <;> rfl

/-- **A value that is present** is inserted by doing nothing, not even asking for memory. -/
theorem bstInsert_of_mem {t : BstNode} (h : Ordered Cell.value t) {value : UInt32}
    (hv : value ∈ keys Cell.value t) (m : Malloc) : bstInsert t value m = (t, m) := by
  induction t with
  | nil => cases hv
  | node c left right ihl ihr =>
    rcases lt_trichotomy value c.value with hlt | heq | hgt
    · rw [bstInsert, if_pos hlt, ihl h.2.2.1 ((h.mem_left_iff hlt).1 hv)]
    · rw [bstInsert, if_neg heq.not_lt, if_neg heq.not_gt]
    · rw [bstInsert, if_neg (lt_asymm hgt), if_pos hgt, ihr h.2.2.2 ((h.mem_right_iff hgt).1 hv)]

/-- **A value that is absent** is inserted by grafting what `bst_create_node` returns. -/
theorem bstInsert_of_not_mem {t : BstNode} {value : UInt32} (hv : value ∉ keys Cell.value t)
    (m : Malloc) : bstInsert t value m =
      (graft Cell.value value (bstCreateNode value m).1 t, (bstCreateNode value m).2) := by
  induction t with
  | nil => rfl
  | node c left right ihl ihr =>
    rw [mem_keys_node, not_or, not_or] at hv
    obtain ⟨hl, hc, hr⟩ := hv
    rcases lt_or_gt_of_ne hc with hlt | hgt
    · rw [bstInsert, if_pos hlt, ihl hl, graft_of_lt hlt]
    · rw [bstInsert, if_neg (lt_asymm hgt), if_pos hgt, ihr hr, graft_of_gt hgt]

/-- An insert gets a node exactly for a new value and a successful allocation. -/
theorem allocates_iff {t : BstNode} (h : Ordered Cell.value t) (value : UInt32) (m : Malloc) :
    allocates t value m = true ↔ value ∉ keys Cell.value t ∧ (m.answers m.calls).isSome := by
  unfold allocates
  rw [Bool.and_eq_true, decide_eq_true_iff]
  by_cases hv : value ∈ keys Cell.value t
  · rw [bstInsert_of_mem h hv]
    simp [hv]
  · rw [bstInsert_of_not_mem hv, bstCreateNode_snd]
    simp [hv]

end Bst

end CAcheRein
