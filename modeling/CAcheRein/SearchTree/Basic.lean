import Mathlib.Data.Tree.Basic
import Mathlib.Data.List.Sort
import Mathlib.Order.Bounds.Basic

/-!
# Search trees

Binary trees whose nodes carry keys of a linear order, the keys growing from left to right.  The
descent for a key goes left or right by comparing it with the key of each node, and ends at the
node that has it or at an empty place.

## Main definitions

* `SearchTree.Ordered` : at every node, the keys to its left are smaller and those to its right
  larger.
* `SearchTree.graft` : put a tree in the empty place where the descent for a key ends.

## Main results

* `SearchTree.Ordered.sorted_keys` : in order, the keys are strictly ascending.
* `SearchTree.Ordered.mem_left_iff`, `SearchTree.Ordered.mem_right_iff` : the side the descent does
  not take does not have the key.
* `SearchTree.Ordered.graft` : grafting nodes with the key of the descent keeps the order.
* `SearchTree.Ordered.isLeast_left` : the least key is on the left.
-/

namespace CAcheRein

namespace SearchTree

variable {α β : Type*}

/-- The nodes of a tree, from left to right. -/
def inorder : BinaryTree β → List β
  | .nil => []
  | .node b left right => inorder left ++ b :: inorder right

@[simp] theorem inorder_nil : inorder (.nil : BinaryTree β) = [] := rfl

@[simp] theorem inorder_node (b : β) (left right : BinaryTree β) :
    inorder (.node b left right) = inorder left ++ b :: inorder right := rfl

section Keys

variable (key : β → α)

/-- The keys of a tree, from left to right. -/
def keys (t : BinaryTree β) : List α := (inorder t).map key

variable {key}

@[simp] theorem keys_nil : keys key .nil = [] := rfl

@[simp] theorem keys_node (b : β) (left right : BinaryTree β) :
    keys key (.node b left right) = keys key left ++ key b :: keys key right := by
  unfold keys
  rw [inorder_node, List.map_append, List.map_cons]

theorem mem_keys_node {x : α} {b : β} {left right : BinaryTree β} :
    x ∈ keys key (.node b left right) ↔ x ∈ keys key left ∨ x = key b ∨ x ∈ keys key right := by
  rw [keys_node, List.mem_append, List.mem_cons]

theorem key_mem_keys (b : β) (left right : BinaryTree β) :
    key b ∈ keys key (.node b left right) := mem_keys_node.2 (.inr (.inl rfl))

end Keys

variable [LinearOrder α] (key : β → α)

/-- The order of a search tree, at every node and about its whole subtrees. -/
def Ordered : BinaryTree β → Prop
  | .nil => True
  | .node b left right => (∀ x ∈ keys key left, x < key b) ∧ (∀ x ∈ keys key right, key b < x) ∧
      Ordered left ∧ Ordered right

/-- Put `s` in the empty place where the descent for `x` ends; a tree in which it ends at a node
stays as it is. -/
def graft (x : α) (s : BinaryTree β) : BinaryTree β → BinaryTree β
  | .nil => s
  | .node b left right =>
    if x < key b then .node b (graft x s left) right
    else if key b < x then .node b left (graft x s right)
    else .node b left right

variable {key}

/-! ### The order -/

theorem Ordered.sorted_keys {t : BinaryTree β} (h : Ordered key t) :
    (keys key t).Pairwise (· < ·) := by
  induction t with
  | nil => exact .nil
  | node b left right ihl ihr =>
    obtain ⟨hl, hr, hleft, hright⟩ := h
    rw [keys_node, List.pairwise_append, List.pairwise_cons]
    refine ⟨ihl hleft, ⟨hr, ihr hright⟩, fun x hx y hy => ?_⟩
    rcases List.mem_cons.1 hy with rfl | hy
    · exact hl x hx
    · exact (hl x hx).trans (hr y hy)

variable {x : α} {b : β} {left right s t : BinaryTree β}

/-- Left of a node with a larger key, or nowhere. -/
theorem Ordered.mem_left_iff (h : Ordered key (.node b left right)) (hx : x < key b) :
    x ∈ keys key (.node b left right) ↔ x ∈ keys key left := by
  rw [mem_keys_node]
  refine ⟨?_, .inl⟩
  rintro (hl | rfl | hr)
  · exact hl
  · exact absurd hx (lt_irrefl _)
  · exact absurd (h.2.1 x hr) (lt_asymm hx)

/-- Right of a node with a smaller key, or nowhere. -/
theorem Ordered.mem_right_iff (h : Ordered key (.node b left right)) (hx : key b < x) :
    x ∈ keys key (.node b left right) ↔ x ∈ keys key right := by
  rw [mem_keys_node]
  refine ⟨?_, fun hr => .inr (.inr hr)⟩
  rintro (hl | rfl | hr)
  · exact absurd (h.1 x hl) (lt_asymm hx)
  · exact absurd hx (lt_irrefl _)
  · exact hr

/-- A node without left child has the least key. -/
theorem Ordered.isLeast_of_left_nil (h : Ordered key (.node b .nil right)) :
    IsLeast {x | x ∈ keys key (.node b .nil right)} (key b) := by
  refine ⟨key_mem_keys b _ _, fun y hy => ?_⟩
  rcases mem_keys_node.1 hy with hl | rfl | hr
  · cases hl
  · exact le_rfl
  · exact (h.2.1 y hr).le

/-- The least key of the left child is the least key. -/
theorem Ordered.isLeast_left (h : Ordered key (.node b left right))
    (hx : IsLeast {y | y ∈ keys key left} x) :
    IsLeast {y | y ∈ keys key (.node b left right)} x := by
  have hxb : x < key b := h.1 x hx.1
  refine ⟨mem_keys_node.2 (.inl hx.1), fun y hy => ?_⟩
  rcases mem_keys_node.1 hy with hl | rfl | hr
  · exact hx.2 hl
  · exact hxb.le
  · exact (hxb.trans (h.2.1 y hr)).le

/-! ### Grafting -/

@[simp] theorem graft_nil (x : α) (s : BinaryTree β) : graft key x s .nil = s := rfl

theorem graft_of_lt (hx : x < key b) :
    graft key x s (.node b left right) = .node b (graft key x s left) right := if_pos hx

theorem graft_of_gt (hx : key b < x) :
    graft key x s (.node b left right) = .node b left (graft key x s right) := by
  rw [graft, if_neg (lt_asymm hx), if_pos hx]

/-- Where the key is absent, the descent ends at an empty place, and grafting adds the keys of
the tree put there. -/
theorem mem_keys_graft (hx : x ∉ keys key t) {y : α} :
    y ∈ keys key (graft key x s t) ↔ y ∈ keys key t ∨ y ∈ keys key s := by
  induction t with
  | nil => simp
  | node b left right ihl ihr =>
    rw [mem_keys_node, not_or, not_or] at hx
    obtain ⟨hl, hb, hr⟩ := hx
    rcases lt_or_gt_of_ne hb with hlt | hgt
    · rw [graft_of_lt hlt, mem_keys_node, mem_keys_node, ihl hl]
      -- the new keys join those on the left
      rw [or_assoc, or_assoc, or_comm (a := y ∈ keys key s), or_assoc]
    · rw [graft_of_gt hgt, mem_keys_node, mem_keys_node, ihr hr, or_assoc, or_assoc]

/-- **Grafting keeps the order**, if all that is put in the place has the key of the descent. -/
theorem Ordered.graft (h : Ordered key t) (hx : x ∉ keys key t) (hs : Ordered key s)
    (hkeys : ∀ y ∈ keys key s, y = x) : Ordered key (SearchTree.graft key x s t) := by
  induction t with
  | nil => exact hs
  | node b left right ihl ihr =>
    obtain ⟨hl, hr, hleft, hright⟩ := h
    rw [mem_keys_node, not_or, not_or] at hx
    obtain ⟨hxl, hxb, hxr⟩ := hx
    rcases lt_or_gt_of_ne hxb with hlt | hgt
    · rw [graft_of_lt hlt]
      refine ⟨fun y hy => ?_, hr, ihl hleft hxl, hright⟩
      rcases (mem_keys_graft hxl).1 hy with hy | hy
      · exact hl y hy
      · rw [hkeys y hy]; exact hlt
    · rw [graft_of_gt hgt]
      refine ⟨hl, fun y hy => ?_, hleft, ihr hright hxr⟩
      rcases (mem_keys_graft hxr).1 hy with hy | hy
      · exact hr y hy
      · rw [hkeys y hy]; exact hgt

end SearchTree

end CAcheRein
