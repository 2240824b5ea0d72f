import CAcheRein.Bst.Basic

/-!
# The binary search tree as a finite set

Whatever is inserted, in whatever order and with whatever allocations failing, the tree is a search
tree and stands for the set of the values that got a node: traversal, search and minimum all answer
from that set (`represents_stored`).  Nothing else of the history shows, so with no failing
allocation the order of the inserts does not matter.

## Main definitions

* `Represents` : the observers of a tree answer from a finite set.
-/

namespace CAcheRein

namespace Bst

open SearchTree

/-- `found->value`, of a pointer that may be `NULL`. -/
def valueOf : BstNode → Option UInt32
  | .nil => none
  | .node c _ _ => some c.value

/-- The tree is a search tree, and its observers answer from the finite set `S`. -/
structure Represents (t : BstNode) (S : Finset UInt32) : Prop where
  ordered : Ordered Cell.value t
  inorder_sorted : (bstInorder t).Pairwise (· < ·)
  mem_inorder : ∀ w, w ∈ bstInorder t ↔ w ∈ S
  search_mem : ∀ w ∈ S, ∃ c left right, bstSearch t w = .node c left right ∧ c.value = w ∧
    c ∈ inorder t
  search_not_mem : ∀ w ∉ S, bstSearch t w = .nil
  findMin_empty : S = ∅ → bstFindMin t = .nil
  findMin_nonempty : S.Nonempty → ∃ c left right, bstFindMin t = .node c left right ∧
    IsLeast S c.value ∧ c ∈ inorder t

/-! ### The observers of a search tree -/

/-- `bst_search` finds a node with the value if there is one. -/
theorem bstSearch_of_mem {t : BstNode} (h : Ordered Cell.value t) {w : UInt32}
    (hw : w ∈ keys Cell.value t) : ∃ c left right,
      bstSearch t w = .node c left right ∧ c.value = w ∧ c ∈ inorder t := by
  induction t with
  | nil => cases hw
  | node c left right ihl ihr =>
    rw [inorder_node]
    rcases lt_trichotomy w c.value with hlt | heq | hgt
    · obtain ⟨c', l, r, hs, hc, hmem⟩ := ihl h.2.2.1 ((h.mem_left_iff hlt).1 hw)
      refine ⟨c', l, r, ?_, hc, List.mem_append_left _ hmem⟩
      rw [bstSearch, if_neg hlt.ne, if_pos hlt, hs]
    · exact ⟨c, left, right, if_pos heq, heq.symm, by simp⟩
    · obtain ⟨c', l, r, hs, hc, hmem⟩ := ihr h.2.2.2 ((h.mem_right_iff hgt).1 hw)
      refine ⟨c', l, r, ?_, hc, List.mem_append_right _ (List.mem_cons_of_mem _ hmem)⟩
      rw [bstSearch, if_neg hgt.ne', if_neg (lt_asymm hgt), hs]

/-- `bst_search` finds nothing if no node has the value; this needs no order. -/
theorem bstSearch_of_not_mem {t : BstNode} {w : UInt32} (hw : w ∉ keys Cell.value t) :
    bstSearch t w = .nil := by
  induction t with
  | nil => rfl
  | node c left right ihl ihr =>
    rw [mem_keys_node, not_or, not_or] at hw
    obtain ⟨hl, hc, hr⟩ := hw
    rw [bstSearch, if_neg hc, ihl hl, ihr hr, ite_self]

/-- `bst_find_min` finds the node with the least value. -/
theorem bstFindMin_spec {t : BstNode} (h : Ordered Cell.value t) (ht : t ≠ .nil) :
    ∃ c left right, bstFindMin t = .node c left right ∧
      IsLeast {w | w ∈ keys Cell.value t} c.value ∧ c ∈ inorder t := by
  induction t with
  | nil => exact absurd rfl ht
  | node c left right ihl _ =>
    cases left with
    | nil => exact ⟨c, .nil, right, rfl, h.isLeast_of_left_nil, by simp⟩
    | node c₁ l₁ r₁ =>
      obtain ⟨c', l, r, hmin, hleast, hmem⟩ := ihl h.2.2.1 (by simp)
      exact ⟨c', l, r, hmin, h.isLeast_left hleast, List.mem_append_left _ hmem⟩

/-- A search tree represents the set of its values. -/
theorem represents_of_ordered {t : BstNode} {S : Finset UInt32} (h : Ordered Cell.value t)
    (hS : ∀ w, w ∈ keys Cell.value t ↔ w ∈ S) : Represents t S where
  ordered := h
  inorder_sorted := by rw [bstInorder_eq]; exact h.sorted_keys
  mem_inorder w := by rw [bstInorder_eq, hS]
  search_mem w hw := bstSearch_of_mem h ((hS w).2 hw)
  search_not_mem w hw := bstSearch_of_not_mem fun hmem => hw ((hS w).1 hmem)
  findMin_empty hempty := by
    cases t with
    | nil => rfl
    | node c left right =>
      have hc : c.value ∈ S := (hS _).1 (key_mem_keys c _ _)
      rw [hempty] at hc
      cases hc
  findMin_nonempty := by
    rintro ⟨w, hw⟩
    have ht : t ≠ .nil := by
      rintro rfl
      cases (hS w).2 hw
    have hset : {w | w ∈ keys Cell.value t} = (S : Set UInt32) := Set.ext hS
    rw [← hset]
    exact bstFindMin_spec h ht

/-- Two trees that represent the same set cannot be told apart by traversal or search. -/
theorem Represents.observed_eq {t₁ t₂ : BstNode} {S : Finset UInt32} (h₁ : Represents t₁ S)
    (h₂ : Represents t₂ S) : bstInorder t₁ = bstInorder t₂ ∧
      ∀ w, valueOf (bstSearch t₁ w) = valueOf (bstSearch t₂ w) := by
  refine ⟨h₁.inorder_sorted.eq_of_mem_iff h₂.inorder_sorted fun w => ?_, fun w => ?_⟩
  · rw [h₁.mem_inorder, h₂.mem_inorder]
  · by_cases hw : w ∈ S
    · obtain ⟨c₁, l₁, r₁, hs₁, hc₁, -⟩ := h₁.search_mem w hw
      obtain ⟨c₂, l₂, r₂, hs₂, hc₂, -⟩ := h₂.search_mem w hw
      rw [hs₁, hs₂, valueOf, valueOf, hc₁, hc₂]
    · rw [h₁.search_not_mem w hw, h₂.search_not_mem w hw]

/-! ### Runs -/

theorem mem_stored_concat (answers : ℕ → Option Addr) (vs : List UInt32) (v w : UInt32) :
    w ∈ stored answers (vs ++ [v]) ↔ w ∈ stored answers vs ∨
      (w = v ∧ allocates (root answers vs) v ((bst answers).run vs).2 = true) := by
  unfold stored
  rw [Machine.steps_concat, List.filter_append, List.map_append, List.toFinset_append,
    Finset.mem_union]
  refine or_congr_right ?_
  by_cases ha : (bst answers).out ((bst answers).run vs) v = true
  · have ha' : allocates (root answers vs) v ((bst answers).run vs).2 = true := ha
    simp [ha, ha']
  · have ha' : ¬ allocates (root answers vs) v ((bst answers).run vs).2 = true := ha
    simp [ha, ha']

/-- What holds after inserting `vs`: a search tree of the stored values, and the allocator still
answers as it did. -/
structure RunInv (answers : ℕ → Option Addr) (vs : List UInt32) (s : BstNode × Malloc) : Prop where
  ordered : Ordered Cell.value s.1
  mem_keys : ∀ w, w ∈ keys Cell.value s.1 ↔ w ∈ stored answers vs
  answers_eq : s.2.answers = answers

/-- What `bst_create_node` returns has the value inserted, if it is a node at all. -/
theorem keys_bstCreateNode (v : UInt32) (m : Malloc) :
    keys Cell.value (bstCreateNode v m).1 = if (m.answers m.calls).isSome then [v] else [] := by
  rw [bstCreateNode_fst]
  cases m.answers m.calls <;> rfl

theorem eq_of_mem_keys_bstCreateNode {v y : UInt32} {m : Malloc}
    (hy : y ∈ keys Cell.value (bstCreateNode v m).1) : y = v := by
  rw [keys_bstCreateNode] at hy
  split_ifs at hy
  · exact List.mem_singleton.1 hy
  · cases hy

theorem ordered_bstCreateNode (v : UInt32) (m : Malloc) :
    Ordered Cell.value (bstCreateNode v m).1 := by
  rw [bstCreateNode_fst]
  cases m.answers m.calls with
  | none => trivial
  | some n => exact ⟨by simp, by simp, trivial, trivial⟩

/-- An insert keeps the order. -/
theorem ordered_bstInsert {t : BstNode} (h : Ordered Cell.value t) (v : UInt32) (m : Malloc) :
    Ordered Cell.value (bstInsert t v m).1 := by
  by_cases hv : v ∈ keys Cell.value t
  · rw [bstInsert_of_mem h hv]
    exact h
  · rw [bstInsert_of_not_mem hv]
    exact h.graft hv (ordered_bstCreateNode v m) fun _ hy => eq_of_mem_keys_bstCreateNode hy

/-- One insert keeps the invariant. -/
theorem runInv_next {answers : ℕ → Option Addr} {vs : List UInt32}
    (h : RunInv answers vs ((bst answers).run vs)) (v : UInt32) :
    RunInv answers (vs ++ [v]) ((bst answers).next ((bst answers).run vs) v) := by
  obtain ⟨hord, hmem, hans⟩ := h
  have hstored := mem_stored_concat answers vs v
  have halloc := allocates_iff hord v ((bst answers).run vs).2
  have hord' := ordered_bstInsert hord v ((bst answers).run vs).2
  change RunInv _ _ (bstInsert _ _ _)
  by_cases hv : v ∈ keys Cell.value ((bst answers).run vs).1
  · rw [bstInsert_of_mem hord hv]
    refine ⟨hord, fun w => ?_, hans⟩
    rw [hstored, hmem]
    refine ⟨.inl, ?_⟩
    rintro (hw | ⟨rfl, ha⟩)
    · exact hw
    · exact absurd hv (halloc.1 ha).1
  · rw [bstInsert_of_not_mem hv] at hord' ⊢
    have hkeys := keys_bstCreateNode v ((bst answers).run vs).2
    refine ⟨hord', fun w => ?_, ?_⟩
    · rw [mem_keys_graft hv, hmem, hstored, hkeys]
      refine or_congr_right ?_
      -- the descent ends at an empty place, where `malloc` is asked
      have ha : allocates (root answers vs) v ((bst answers).run vs).2 = true ↔
          (((bst answers).run vs).2.answers ((bst answers).run vs).2.calls).isSome :=
        halloc.trans (and_iff_right hv)
      rw [ha]
      split_ifs with hsome <;> simp [hsome]
    · rw [bstCreateNode_snd]
      exact hans

theorem runInv_run (answers : ℕ → Option Addr) (vs : List UInt32) :
    RunInv answers vs ((bst answers).run vs) := by
  have hinit : RunInv answers [] (bst answers).init :=
    ⟨(trivial : Ordered Cell.value .nil), fun w => by simp [stored, bst], rfl⟩
  exact Machine.run_induct (I := RunInv answers) hinit (fun _ v h => runInv_next h v) vs

/-- Every allocation the inserts of `vs` ask for succeeds. -/
def Succeeds (answers : ℕ → Option Addr) (vs : List UInt32) : Prop :=
  ∀ n < ((bst answers).run vs).2.calls, (answers n).isSome

/-- How often the inserts ask for memory. -/
theorem calls_concat (answers : ℕ → Option Addr) (vs : List UInt32) (v : UInt32) :
    ((bst answers).run (vs ++ [v])).2.calls = ((bst answers).run vs).2.calls +
      if v ∈ keys Cell.value (root answers vs) then 0 else 1 := by
  have hord : Ordered Cell.value (root answers vs) := (runInv_run answers vs).ordered
  rw [Machine.run_concat]
  change (bstInsert (root answers vs) v _).2.calls = _
  by_cases hv : v ∈ keys Cell.value (root answers vs)
  · rw [bstInsert_of_mem hord hv, if_pos hv, Nat.add_zero]
  · rw [bstInsert_of_not_mem hv, bstCreateNode_snd, if_neg hv]

theorem Succeeds.of_concat {answers : ℕ → Option Addr} {vs : List UInt32} {v : UInt32}
    (h : Succeeds answers (vs ++ [v])) : Succeeds answers vs := by
  intro n hn
  refine h n (lt_of_lt_of_le hn ?_)
  rw [calls_concat]
  exact Nat.le_add_right _ _

/-- If no allocation fails, all the values inserted are stored. -/
theorem stored_of_succeeds {answers : ℕ → Option Addr} {vs : List UInt32}
    (h : Succeeds answers vs) : stored answers vs = vs.toFinset := by
  induction vs using List.reverseRecOn with
  | nil => rfl
  | append_singleton vs v ih =>
    specialize ih h.of_concat
    obtain ⟨hord, hmem, hans⟩ := runInv_run answers vs
    ext w
    rw [mem_stored_concat, List.toFinset_append, Finset.mem_union, ih]
    simp only [List.mem_toFinset, List.mem_singleton]
    refine ⟨Or.imp_right And.left, ?_⟩
    rintro (hw | rfl)
    · exact .inl hw
    · by_cases hv : w ∈ keys Cell.value (root answers vs)
      · rw [root, hmem, ih, List.mem_toFinset] at hv
        exact .inl hv
      · refine .inr ⟨rfl, (allocates_iff hord w _).2 ⟨hv, ?_⟩⟩
        rw [hans]
        refine h _ ?_
        rw [calls_concat, if_neg hv]
        exact Nat.lt_succ_self _

theorem stored_of_all_succeed {answers : ℕ → Option Addr} (hall : ∀ n, (answers n).isSome)
    (vs : List UInt32) : stored answers vs = vs.toFinset := stored_of_succeeds fun n _ => hall n

/-- **The tree is the set of the values that got a node**, after any inserts with any pattern of
allocation failures; if none of the allocations they ask for fails, these are the values inserted,
so with no failing allocation traversal and search depend only on which values these are. -/
theorem represents_stored (answers : ℕ → Option Addr) (vs : List UInt32) :
    Represents (root answers vs) (stored answers vs) ∧
      (Succeeds answers vs → stored answers vs = vs.toFinset) ∧
      ∀ (answers' : ℕ → Option Addr) (vs' : List UInt32), (∀ n, (answers n).isSome) →
        (∀ n, (answers' n).isSome) → (∀ w, w ∈ vs ↔ w ∈ vs') →
        bstInorder (root answers vs) = bstInorder (root answers' vs') ∧
          ∀ w, valueOf (bstSearch (root answers vs) w) =
            valueOf (bstSearch (root answers' vs') w) := by
  have hrep : ∀ as us, Represents (root as us) (stored as us) := fun as us =>
    represents_of_ordered (runInv_run as us).ordered (runInv_run as us).mem_keys
  refine ⟨hrep answers vs, stored_of_succeeds, fun answers' vs' hall hall' hsame => ?_⟩
  have hset : stored answers vs = stored answers' vs' := by
    rw [stored_of_all_succeed hall, stored_of_all_succeed hall']
    ext w
    rw [List.mem_toFinset, List.mem_toFinset, hsame]
  have h := hrep answers vs
  rw [hset] at h
  exact h.observed_eq (hrep answers' vs')

/-- Two insertion orders of 30, 50 and 70, the one leaning left and the other right. -/
theorem represents_stored_two_orders :
    bstInorder (root some [70, 50, 30]) = [30, 50, 70] ∧
      bstInorder (root some [70, 50, 30]) = bstInorder (root some [30, 50, 70, 50]) := by
  refine ⟨by decide +kernel, ?_⟩
  have hsame : ∀ w : UInt32, w ∈ [70, 50, 30] ↔ w ∈ [30, 50, 70, 50] := by
    intro w
    simp only [List.mem_cons, List.not_mem_nil, or_false]
    tauto
  exact ((represents_stored some _).2.2 some _ (fun _ => rfl) (fun _ => rfl) hsame).1

end Bst

end CAcheRein
