import CAcheRein.Bst.Basic
import CAcheRein.Heap.Tree

/-!
# The binary search tree in memory

The same tree on the level of pointers: nodes are cells of a heap, `NULL` is `none`, a link is set
in place on the way back from the recursion, and `bst_free` releases the cells.

A recursion over pointers need not end, so the functions take fuel; they have no result when it
runs out or when they touch a cell that is not allocated.  With enough of it they do what the
functions on trees do (`bstInsert_spec`), which is how `heap_safe` shows that no insert and no
`bst_free` ever goes wrong.
-/

namespace CAcheRein

namespace BstHeap

open Bst TreeLayout

/-- `bst_node_t`. -/
structure Node where
  value : UInt32
  left : Option ℕ
  right : Option ℕ
  deriving DecidableEq

/-- How a node of the tree model lies in memory. -/
def layout : TreeLayout Node Cell where
  addr := Cell.addr
  cell c p q := ⟨c.value, p, q⟩
  left := Node.left
  right := Node.right
  left_cell _ _ _ := rfl
  right_cell _ _ _ := rfl

variable (P : Policy Node)

/-- `bst_create_node`. -/
def bstCreateNode (value : UInt32) (m : Mem Node) : Option (Option ℕ × Mem Node) :=
  match m.malloc P with
  | (none, m) => some (none, m)
  | (some n, m) => do
    let m ← m.modify n fun c => { c with value := value }
    let m ← m.modify n fun c => { c with left := none }
    let m ← m.modify n fun c => { c with right := none }
    some (some n, m)

/-- `bst_insert`. -/
def bstInsert : ℕ → Mem Node → Option ℕ → UInt32 → Option (Option ℕ × Mem Node)
  | 0, _, _, _ => none
  | _ + 1, m, none, value => bstCreateNode P value m
  | fuel + 1, m, some root, value => do
    let (c, m) ← m.read root
    if value < c.value then
      let (p, m) ← bstInsert fuel m c.left value
      let m ← m.modify root fun c => { c with left := p }
      some (some root, m)
    else if value > c.value then
      let (p, m) ← bstInsert fuel m c.right value
      let m ← m.modify root fun c => { c with right := p }
      some (some root, m)
    else some (some root, m)

/-- `bst_free`. -/
def bstFree : ℕ → Mem Node → Option ℕ → Option (Mem Node)
  | 0, _, _ => none
  | _ + 1, m, none => some m
  | fuel + 1, m, some root => do
    let (c, m) ← m.read root
    let m ← bstFree fuel m c.left
    let (c, m) ← m.read root
    let m ← bstFree fuel m c.right
    m.free root

/-- `root = bst_insert(root, v)` for each `v` of some values. -/
def insertAll (fuel : ℕ) : Option ℕ × Mem Node → List UInt32 → Option (Option ℕ × Mem Node)
  | s, [] => some s
  | s, v :: vs => do
    let s ← bstInsert P fuel s.2 s.1 v
    insertAll fuel s vs

/-! ### Inserting -/

variable {P}

/-- The allocator of the tree model that answers what `malloc` answers here. -/
def asked (P : Policy Node) (m : Mem Node) : Malloc :=
  ⟨fun _ => (P m.heap m.calls).map fun x => x.1.val, m.calls⟩

/-- The tree after inserting `v`. -/
def inserted (P : Policy Node) (m : Mem Node) (t : BstNode) (v : UInt32) : BstNode :=
  (Bst.bstInsert t v (asked P m)).1

theorem inserted_nil_of_none {m : Mem Node} (h : P m.heap m.calls = none) (v : UInt32) :
    inserted P m .nil v = .nil := by
  rw [inserted, Bst.bstInsert, bstCreateNode_fst, asked, h]
  rfl

theorem inserted_nil_of_some {m : Mem Node} {a : {a : ℕ // m.heap a = none}} {junk : Node}
    (h : P m.heap m.calls = some (a, junk)) (v : UInt32) :
    inserted P m .nil v = .node ⟨a.val, v⟩ .nil .nil := by
  rw [inserted, Bst.bstInsert, bstCreateNode_fst, asked, h]
  rfl

theorem bstCreateNode_spec (v : UInt32) (m : Mem Node) :
    ∃ m', bstCreateNode P v m = some (layout.ptr (inserted P m .nil v), m') ∧
      layout.Grows m.heap .nil m'.heap (inserted P m .nil v) ∧ m'.calls = m.calls + 1 := by
  unfold bstCreateNode
  cases hP : P m.heap m.calls with
  | none =>
    rw [Mem.malloc_of_none hP, inserted_nil_of_none hP]
    exact ⟨_, rfl, Grows.refl trivial .nil, rfl⟩
  | some x =>
    obtain ⟨⟨a, ha⟩, junk⟩ := x
    rw [Mem.malloc_of_some hP, inserted_nil_of_some hP]
    dsimp only
    -- the three writes fill in the new cell
    rw [Option.bind_eq_bind, Mem.modify_of_some (Function.update_self ..), Option.bind_some,
      Mem.modify_of_some (Function.update_self ..), Option.bind_some,
      Mem.modify_of_some (Function.update_self ..), Option.bind_some]
    refine ⟨_, rfl, ⟨⟨?_, ?_, ?_⟩, ⟨Function.update_self .., trivial, trivial⟩, ?_⟩, rfl⟩
    · intro x hx
      rw [List.mem_singleton.1 hx]
      exact .inr ha
    · intro x hx
      cases hx
    · intro x hx
      have hne : x ≠ a := fun heq => hx (heq ▸ List.mem_singleton_self a)
      simp only [Function.update_of_ne hne]
    · exact List.nodup_singleton a

/-- An insert to the left. -/
theorem bstInsert_left {m m' : Mem Node} {root f : ℕ} {c c' : Node} {v : UInt32} {p : Option ℕ}
    (hc : m.heap root = some c) (hlt : v < c.value)
    (hrec : bstInsert P f (m.log (.read root)) c.left v = some (p, m'))
    (hc' : m'.heap root = some c') :
    bstInsert P (f + 1) m (some root) v = some (some root, { m'.log (.write root) with
      heap := Function.update m'.heap root (some { c' with left := p }) }) := by
  simp only [bstInsert, Mem.read_of_some hc, Option.bind_eq_bind, Option.bind_some, if_pos hlt,
    hrec, Mem.modify_of_some hc']

/-- An insert to the right. -/
theorem bstInsert_right {m m' : Mem Node} {root f : ℕ} {c c' : Node} {v : UInt32} {p : Option ℕ}
    (hc : m.heap root = some c) (hgt : c.value < v)
    (hrec : bstInsert P f (m.log (.read root)) c.right v = some (p, m'))
    (hc' : m'.heap root = some c') :
    bstInsert P (f + 1) m (some root) v = some (some root, { m'.log (.write root) with
      heap := Function.update m'.heap root (some { c' with right := p }) }) := by
  simp only [bstInsert, Mem.read_of_some hc, Option.bind_eq_bind, Option.bind_some,
    if_neg (lt_asymm hgt), gt_iff_lt, if_pos hgt, hrec, Mem.modify_of_some hc']

/-- An insert of the value of the root. -/
theorem bstInsert_here {m : Mem Node} {root f : ℕ} {c : Node} {v : UInt32}
    (hc : m.heap root = some c) (heq : v = c.value) :
    bstInsert P (f + 1) m (some root) v = some (some root, m.log (.read root)) := by
  simp only [bstInsert, Mem.read_of_some hc, Option.bind_eq_bind, Option.bind_some,
    if_neg heq.not_lt, gt_iff_lt, if_neg heq.not_gt]

theorem fuel_of_height {c : Cell} {l r : BstNode} {fuel : ℕ}
    (h : (BinaryTree.node c l r).height < fuel) :
    ∃ f, fuel = f + 1 ∧ l.height < f ∧ r.height < f := by
  rw [BinaryTree.height] at h
  exact ⟨fuel - 1, by omega, by omega, by omega⟩

/-- **`bst_insert` in memory does what it does on trees**, with any fuel above the height, and
calls `malloc` as often. -/
theorem bstInsert_spec (v : UInt32) (t : BstNode) : ∀ m : Mem Node, layout.Stored m.heap t →
    (layout.addrs t).Nodup → ∃ m',
      (∀ fuel, t.height < fuel →
        bstInsert P fuel m (layout.ptr t) v = some (layout.ptr (inserted P m t v), m')) ∧
      layout.Grows m.heap t m'.heap (inserted P m t v) ∧
      m'.calls = (Bst.bstInsert t v (asked P m)).2.calls := by
  induction t with
  | nil =>
    intro m _ _
    obtain ⟨m', hrun, hg, hcalls⟩ := bstCreateNode_spec (P := P) v m
    refine ⟨m', fun fuel hfuel => ?_, hg, ?_⟩
    · obtain ⟨fuel, rfl⟩ := Nat.exists_eq_add_one.2 hfuel
      exact hrun
    · rw [hcalls, Bst.bstInsert, bstCreateNode_snd]
      rfl
  | node c l r ihl ihr =>
    intro m hs hn
    obtain ⟨-, hnl, hnr, -⟩ := nodup_addrs_node.1 hn
    rcases lt_trichotomy v c.value with hlt | heq | hgt
    · obtain ⟨m', hrun, hg, hcalls⟩ := ihl (m.log (.read c.addr)) hs.2.1 hnl
      -- the cell of the node is not part of its subtree, so the call has left it as it was
      obtain ⟨hcell, hgrow⟩ := hg.left hs hn
      have ht : inserted P m (.node c l r) v = .node c (inserted P m l v) r := by
        unfold inserted
        rw [Bst.bstInsert, if_pos hlt]
      rw [ht, Bst.bstInsert, if_pos hlt]
      refine ⟨{ m'.log (.write c.addr) with heap := _ }, fun fuel h => ?_, hgrow, hcalls⟩
      obtain ⟨f, rfl, hl, -⟩ := fuel_of_height h
      exact bstInsert_left hs.1 hlt (hrun f hl) hcell
    · have ht : inserted P m (.node c l r) v = .node c l r := by
        unfold inserted
        rw [Bst.bstInsert, if_neg heq.not_lt, if_neg heq.not_gt]
      rw [ht, Bst.bstInsert, if_neg heq.not_lt, if_neg heq.not_gt]
      refine ⟨m.log (.read c.addr), fun fuel h => ?_, .refl hs hn, rfl⟩
      obtain ⟨f, rfl, -⟩ := fuel_of_height h
      exact bstInsert_here hs.1 heq
    · obtain ⟨m', hrun, hg, hcalls⟩ := ihr (m.log (.read c.addr)) hs.2.2 hnr
      obtain ⟨hcell, hgrow⟩ := hg.right hs hn
      have ht : inserted P m (.node c l r) v = .node c l (inserted P m r v) := by
        unfold inserted
        rw [Bst.bstInsert, if_neg (lt_asymm hgt), if_pos hgt]
      rw [ht, Bst.bstInsert, if_neg (lt_asymm hgt), if_pos hgt]
      refine ⟨{ m'.log (.write c.addr) with heap := _ }, fun fuel h => ?_, hgrow, hcalls⟩
      obtain ⟨f, rfl, -, hr⟩ := fuel_of_height h
      exact bstInsert_right hs.1 hgt (hrun f hr) hcell

theorem numNodes_inserted (m : Mem Node) (v : UInt32) (t : BstNode) :
    (inserted P m t v).numNodes ≤ t.numNodes + 1 := by
  unfold inserted
  induction t with
  | nil =>
    rw [Bst.bstInsert, bstCreateNode_fst]
    cases (asked P m).answers (asked P m).calls <;> simp
  | node c l r ihl ihr =>
    rw [Bst.bstInsert]
    split_ifs
    · simp only [BinaryTree.numNodes]
      omega
    · simp only [BinaryTree.numNodes]
      omega
    · exact Nat.le_succ _

/-- Any inserts in a heap end, and leave a tree there. -/
theorem insertAll_spec (vs : List UInt32) : ∀ (m : Mem Node) (t : BstNode),
    layout.Stored m.heap t → (layout.addrs t).Nodup → ∃ m' t',
      (∀ fuel, t.numNodes + vs.length < fuel →
        insertAll P fuel (layout.ptr t, m) vs = some (layout.ptr t', m')) ∧
      layout.Grows m.heap t m'.heap t' := by
  induction vs with
  | nil => exact fun m t hs hn => ⟨m, t, fun _ _ => rfl, .refl hs hn⟩
  | cons v vs ih =>
    intro m t hs hn
    obtain ⟨m₁, hrun, hg, -⟩ := bstInsert_spec (P := P) v t m hs hn
    obtain ⟨m₂, t₂, hruns, hg'⟩ := ih m₁ (inserted P m t v) hg.stored hg.nodup
    refine ⟨m₂, t₂, fun fuel hfuel => ?_, hg.trans hg'⟩
    have hsize := numNodes_inserted (P := P) m v t
    have hheight := t.height_le_numNodes
    rw [List.length_cons] at hfuel
    rw [insertAll, hrun fuel (by omega)]
    exact hruns fuel (by omega)

/-! ### Freeing -/

/-- What `bst_free` does to the cells of a tree, in order. -/
def freeTrace : BstNode → List Access
  | .nil => []
  | .node c l r => [.read c.addr] ++ freeTrace l ++ [.read c.addr] ++ freeTrace r ++ [.free c.addr]

theorem freesOf_freeTrace (t : BstNode) : freesOf (freeTrace t) = layout.postorder t := by
  induction t with
  | nil => rfl
  | node c l r ihl ihr =>
    simp only [freeTrace, freesOf_append, freesOf_read, freesOf_free, ihl, ihr, List.nil_append,
      List.append_nil, postorder]
    rfl

/-- Freeing a node, once its children are freed. -/
theorem bstFree_node {m m₁ m₂ : Mem Node} {root f : ℕ} {c c₁ c₂ : Node}
    (hc : m.heap root = some c) (hl : bstFree f (m.log (.read root)) c.left = some m₁)
    (hc₁ : m₁.heap root = some c₁)
    (hr : bstFree f (m₁.log (.read root)) c₁.right = some m₂) (hc₂ : m₂.heap root = some c₂) :
    bstFree (f + 1) m (some root) = some { m₂.log (.free root) with
      heap := Function.update m₂.heap root none } := by
  simp only [bstFree, Mem.read_of_some hc, Option.bind_eq_bind, Option.bind_some, hl,
    Mem.read_of_some hc₁, hr, Mem.free_of_some hc₂]

/-- **`bst_free` releases the cells of a tree and nothing else.**  It reads a node's right link
only after the whole left subtree is gone, which does no harm since the subtree is elsewhere. -/
theorem bstFree_spec (t : BstNode) : ∀ m : Mem Node, layout.Stored m.heap t →
    (layout.addrs t).Nodup → ∃ m',
      (∀ fuel, t.height < fuel → bstFree fuel m (layout.ptr t) = some m') ∧
      (∀ a ∈ layout.addrs t, m'.heap a = none) ∧ (∀ a ∉ layout.addrs t, m'.heap a = m.heap a) ∧
      m'.trace = m.trace ++ freeTrace t := by
  induction t with
  | nil =>
    intro m _ _
    refine ⟨m, fun fuel hfuel => ?_, by simp [addrs], fun _ _ => rfl, by simp [freeTrace]⟩
    obtain ⟨fuel, rfl⟩ := Nat.exists_eq_add_one.2 hfuel
    rfl
  | node c l r ihl ihr =>
    intro m hs hn
    obtain ⟨⟨hcl, hcr⟩, hnl, hnr, hdisj⟩ := nodup_addrs_node.1 hn
    obtain ⟨m₁, hrun₁, hgone₁, hkept₁, htrace₁⟩ := ihl (m.log (.read c.addr)) hs.2.1 hnl
    -- the right subtree and the node are still there when the left subtree is gone
    have hr : layout.Stored m₁.heap r :=
      hs.2.2.congr fun a ha => hkept₁ a fun hl => hdisj a hl ha
    obtain ⟨m₂, hrun₂, hgone₂, hkept₂, htrace₂⟩ := ihr (m₁.log (.read c.addr)) hr hnr
    have hc₁ : m₁.heap c.addr = some ⟨c.value, layout.ptr l, layout.ptr r⟩ :=
      (hkept₁ _ hcl).trans hs.1
    have hc₂ : m₂.heap c.addr = some ⟨c.value, layout.ptr l, layout.ptr r⟩ :=
      (hkept₂ _ hcr).trans hc₁
    refine ⟨{ m₂.log (.free c.addr) with heap := Function.update m₂.heap c.addr none },
      fun fuel h => ?_, fun a ha => ?_, fun a ha => ?_, ?_⟩
    · obtain ⟨f, rfl, hlf, hrf⟩ := fuel_of_height h
      exact bstFree_node hs.1 (hrun₁ f hlf) hc₁ (hrun₂ f hrf) hc₂
    · rcases eq_or_ne a c.addr with rfl | hne
      · exact Function.update_self ..
      · dsimp only
        rw [Function.update_of_ne hne]
        rcases mem_addrs_node.1 ha with heq | hl | hr
        · exact absurd heq hne
        · rw [hkept₂ a (hdisj a hl)]
          exact hgone₁ a hl
        · exact hgone₂ a hr
    · rw [mem_addrs_node, not_or, not_or] at ha
      have hne : a ≠ c.addr := ha.1
      dsimp only
      rw [Function.update_of_ne hne, hkept₂ a ha.2.2]
      exact hkept₁ a ha.2.1
    · simp only [Mem.trace_log, htrace₂, htrace₁, freeTrace, List.append_assoc]

/-- **The tree in memory is safe.**  Start from any heap, insert any values into an empty tree, with
any pattern of allocation failures.  All inserts end without touching a cell that is not allocated;
what the root reaches is a tree; the cells there before are neither reached nor changed.  A final
`bst_free` ends too, frees each cell of the tree once and after its children, and leaves the heap
as it was. -/
theorem heap_safe (h₀ : Heap Node) (P : Policy Node) (vs : List UInt32) : ∃ root m,
    (∃ n, ∀ fuel, n ≤ fuel → insertAll P fuel (none, .start h₀) vs = some (root, m)) ∧
    layout.Shaped m.heap root ∧
    (∀ a, h₀ a ≠ none → m.heap a = h₀ a ∧ ¬ layout.Reach m.heap root a) ∧
    ∃ m', (∃ n, ∀ fuel, n ≤ fuel → bstFree fuel m root = some m') ∧ m'.heap = h₀ ∧
      ∃ accesses, m'.trace = m.trace ++ accesses ∧ (freesOf accesses).Nodup ∧
        (∀ a, a ∈ freesOf accesses ↔ layout.Reach m.heap root a) ∧
        ∀ a b, layout.Reach m.heap root a → layout.Child m.heap a b →
          [b, a].Sublist (freesOf accesses) := by
  obtain ⟨m, t, hrun, hg⟩ := insertAll_spec (P := P) vs (.start h₀) .nil trivial .nil
  obtain ⟨m', hfree, hgone, hkept, htrace⟩ := bstFree_spec t m hg.stored hg.nodup
  have hreach : ∀ a, layout.Reach m.heap (layout.ptr t) a ↔ a ∈ layout.addrs t := fun _ =>
    hg.stored.reach_iff hg.nodup
  have hmem : ∀ a, a ∈ layout.postorder t ↔ a ∈ layout.addrs t := fun _ =>
    (postorder_perm t).mem_iff
  refine ⟨layout.ptr t, m, ⟨vs.length + 1, fun fuel h => hrun fuel ?_⟩,
    hg.stored.shaped hg.nodup, fun a ha => ⟨?_, ?_⟩,
    m', ⟨t.height + 1, fun fuel h => hfree fuel h⟩, ?_, freeTrace t, htrace, ?_, ?_, ?_⟩
  · simp only [BinaryTree.numNodes]
    omega
  · -- a cell there before cannot be one that was given out
    exact hg.frame a fun hmem => ha (hg.toGrown.eq_none hmem)
  · rw [hreach]
    exact fun hmem => ha (hg.toGrown.eq_none hmem)
  · exact hg.toGrown.restore hgone hkept
  · rw [freesOf_freeTrace]
    exact (postorder_perm t).nodup_iff.2 hg.nodup
  · intro a
    rw [freesOf_freeTrace, hmem, hreach]
  · intro a b ha hc
    rw [freesOf_freeTrace]
    exact hg.stored.child_before ((hreach a).1 ha) hc

end BstHeap

end CAcheRein
