import CAcheRein.Bst.Heap
import CAcheRein.Bst.Represents
import CAcheRein.Heap.Place
import CAcheRein.Transition.Machine

/-!
# What an insert changes in memory

`bst_insert` writes a child pointer on every level of the recursion, but only one of these writes
changes anything: a new value replaces one NULL link by a fresh leaf, the only one where the order
admits it, and everything else stays as it is.  So a node, once found, stays where it is.

## Main definitions

* `bstSearch` : `bst_search` in memory.
* `IsBst`, `Has` : a pointer leads to a search tree, or to a node with a value.
* `InsertEffect` : the effect of one insert.

## Main results

* `bstInsert_frame` : every insert has this effect, a repeated one none, and what a search found
  is still there, and still found, after any further inserts.
-/

namespace CAcheRein

namespace BstHeap

open Bst SearchTree TreeLayout

/-- `bst_search`. -/
def bstSearch : ℕ → Mem Node → Option ℕ → UInt32 → Option (Option ℕ × Mem Node)
  | 0, _, _, _ => none
  | _ + 1, m, none, _ => some (none, m)
  | fuel + 1, m, some root, value => do
    let (c, m) ← m.read root
    if value = c.value then some (some root, m)
    else if value < c.value then bstSearch fuel m c.left value
    else bstSearch fuel m c.right value

/-- The layout of the nodes, with assignments to their links. -/
def nodes : WritableLayout Node Cell where
  toTreeLayout := layout
  setLeft c p := { c with left := p }
  setRight c p := { c with right := p }
  setLeft_cell _ _ _ _ := rfl
  setRight_cell _ _ _ _ := rfl
  eq_of_cell_eq {b b'} _ _ _ _ haddr hcell := by
    obtain ⟨a, v⟩ := b
    obtain ⟨a', v'⟩ := b'
    obtain rfl : a = a' := haddr
    obtain rfl : v = v' := congrArg Node.value hcell
    rfl

/-- The pointer leads to a search tree of nodes at distinct addresses. -/
def IsBst (h : Heap Node) (p : Option ℕ) : Prop :=
  ∃ t, layout.ptr t = p ∧ layout.Stored h t ∧ (layout.addrs t).Nodup ∧ Ordered Cell.value t

/-- The pointer reaches a node with the value. -/
def Has (h : Heap Node) (p : Option ℕ) (v : UInt32) : Prop :=
  ∃ a c, layout.Reach h p a ∧ h a = some c ∧ c.value = v

/-- Every node reached before is reached, and has its value, after. -/
def Keeps (h : Heap Node) (p : Option ℕ) (h' : Heap Node) (p' : Option ℕ) : Prop :=
  ∀ a c, layout.Reach h p a → h a = some c →
    layout.Reach h' p' a ∧ ∃ c', h' a = some c' ∧ c'.value = c.value

/-- The effect of inserting `v` at `p`, with the allocation, if there is one, answered by `P`. -/
structure InsertEffect (P : Policy Node) (m : Mem Node) (p : Option ℕ) (v : UInt32)
    (p' : Option ℕ) (m' : Mem Node) : Prop where
  isBst : IsBst m'.heap p'
  keeps : Keeps m.heap p m'.heap p'
  root : p ≠ none → p' = p
  holds : Has m.heap p v ∨ P m.heap m.calls ≠ none → Has m'.heap p' v
  /-- A value that is there: nothing is asked for and nothing changes. -/
  present : Has m.heap p v → m'.calls = m.calls ∧ m'.heap = m.heap ∧ p' = p
  /-- A new value, with no memory left: nothing changes. -/
  failed : ¬ Has m.heap p v → P m.heap m.calls = none →
    m'.calls = m.calls + 1 ∧ m'.heap = m.heap ∧ p' = p
  /-- A new value: of the NULL links, the only one where the order admits it is set to a leaf. -/
  added : ¬ Has m.heap p v → ∀ n junk, P m.heap m.calls = some (n, junk) →
    m'.calls = m.calls + 1 ∧ ∃ L, layout.Vacant m.heap p L ∧
      (∀ L', layout.Vacant m.heap p L' →
        (IsBst (nodes.plant m.heap L' ⟨n, v⟩) (nodes.plantedRoot p L' ⟨n, v⟩) ↔ L' = L)) ∧
      m'.heap = nodes.plant m.heap L ⟨n, v⟩ ∧ p' = nodes.plantedRoot p L ⟨n, v⟩

variable {P : Policy Node} {m : Mem Node} {h h' : Heap Node} {t : BstNode} {v : UInt32}
  {p p' p'' : Option ℕ}

/-! ### Nodes and values -/

/-- The cell of a node of a stored tree. -/
theorem stored_cell (hs : layout.Stored h t) {b : Cell} (hb : b ∈ inorder t) :
    b.addr ∈ layout.addrs t ∧ ∃ l r, h b.addr = some ⟨b.value, l, r⟩ := by
  induction t with
  | nil => cases hb
  | node c l r ihl ihr =>
    rw [inorder_node, List.mem_append, List.mem_cons] at hb
    rcases hb with hl | rfl | hr
    · obtain ⟨hmem, hcell⟩ := ihl hs.2.1 hl
      exact ⟨mem_addrs_node.2 (.inr (.inl hmem)), hcell⟩
    · exact ⟨List.mem_cons_self, _, _, hs.1⟩
    · obtain ⟨hmem, hcell⟩ := ihr hs.2.2 hr
      exact ⟨mem_addrs_node.2 (.inr (.inr hmem)), hcell⟩

/-- The node at an address of a tree. -/
theorem exists_node {a : ℕ} (ha : a ∈ layout.addrs t) : ∃ b ∈ inorder t, b.addr = a := by
  induction t with
  | nil => cases ha
  | node c l r ihl ihr =>
    simp only [inorder_node, List.mem_append, List.mem_cons]
    rcases mem_addrs_node.1 ha with rfl | hl | hr
    · exact ⟨c, .inr (.inl rfl), rfl⟩
    · obtain ⟨b, hb, haddr⟩ := ihl hl
      exact ⟨b, .inl hb, haddr⟩
    · obtain ⟨b, hb, haddr⟩ := ihr hr
      exact ⟨b, .inr (.inr hb), haddr⟩

/-- The cells a stored tree reaches are its nodes. -/
theorem reached_cell (hs : layout.Stored h t) (hn : (layout.addrs t).Nodup) {a : ℕ} {c : Node}
    (hr : layout.Reach h (layout.ptr t) a) (hc : h a = some c) : ⟨a, c.value⟩ ∈ inorder t := by
  obtain ⟨b, hb, rfl⟩ := exists_node (hs.mem_of_reach hn hr)
  obtain ⟨-, l, r, hcell⟩ := stored_cell hs hb
  obtain rfl : (⟨b.value, l, r⟩ : Node) = c := Option.some.inj (hcell.symm.trans hc)
  exact hb

/-- The values of a stored tree are those its root reaches. -/
theorem has_iff (hs : layout.Stored h t) (hn : (layout.addrs t).Nodup) :
    Has h (layout.ptr t) v ↔ v ∈ keys Cell.value t := by
  rw [keys, List.mem_map]
  constructor
  · rintro ⟨a, c, hr, hc, rfl⟩
    exact ⟨_, reached_cell hs hn hr hc, rfl⟩
  · rintro ⟨b, hb, rfl⟩
    obtain ⟨hmem, l, r, hcell⟩ := stored_cell hs hb
    exact ⟨b.addr, _, hs.reach_of_mem hmem, hcell, rfl⟩

theorem Keeps.refl (h : Heap Node) (p : Option ℕ) : Keeps h p h p :=
  fun _ c hr hc => ⟨hr, c, hc, rfl⟩

theorem Keeps.trans {h'' : Heap Node} (hk : Keeps h p h' p') (hk' : Keeps h' p' h'' p'') :
    Keeps h p h'' p'' := by
  intro a c hr hc
  obtain ⟨hr', c', hc', hval⟩ := hk a c hr hc
  obtain ⟨hr'', c'', hc'', hval'⟩ := hk' a c' hr' hc'
  exact ⟨hr'', c'', hc'', hval'.trans hval⟩

/-- Hanging up a leaf changes no value. -/
theorem value_plant {L : Link} {b : Cell} {a : ℕ} {c : Node} (ha : a ≠ b.addr)
    (hc : h a = some c) : ∃ c', nodes.plant h L b a = some c' ∧ c'.value = c.value := by
  by_cases hL : L.owner = some a
  · cases L with
    | root => cases hL
    | left a' =>
      cases hL
      exact ⟨_, WritableLayout.plant_left (W := nodes) (c := ⟨a, c.value⟩) ha hc, rfl⟩
    | right a' =>
      cases hL
      exact ⟨_, WritableLayout.plant_right (W := nodes) (c := ⟨a, c.value⟩) ha hc, rfl⟩
  · exact ⟨c, (WritableLayout.plant_of_ne (W := nodes) ha hL).trans hc, rfl⟩

/-! ### One insert -/

/-- An insert that leaves the tree as it is. -/
theorem heap_eq_of_grows {m' : Mem Node} (hs : layout.Stored m.heap t)
    (hg : layout.Grows m.heap t m'.heap t) : m'.heap = m.heap :=
  hg.stored.heap_eq hs hg.frame

theorem graft_nil_right (t : BstNode) (v : UInt32) : graft Cell.value v .nil t = t := by
  induction t with
  | nil => rfl
  | node c l r ihl ihr => rw [graft, ihl, ihr, ite_self, ite_self]

/-- What an insert does to the tree, and how often it calls `malloc`. -/
theorem inserted_cases (P : Policy Node) (m : Mem Node) (hord : Ordered Cell.value t)
    (v : UInt32) :
    (v ∈ keys Cell.value t → inserted P m t v = t ∧
      (Bst.bstInsert t v (asked P m)).2.calls = m.calls) ∧
    (v ∉ keys Cell.value t →
      inserted P m t v = graft Cell.value v (inserted P m .nil v) t ∧
        (Bst.bstInsert t v (asked P m)).2.calls = m.calls + 1) := by
  refine ⟨fun hv => ?_, fun hv => ?_⟩
  · rw [inserted, bstInsert_of_mem hord hv]
    exact ⟨rfl, rfl⟩
  · rw [inserted, bstInsert_of_not_mem hv, bstCreateNode_snd]
    exact ⟨rfl, rfl⟩

/-- An insert of a new value that gets a node. -/
theorem plant_of_grows {m' : Mem Node} {n : {a : ℕ // m.heap a = none}}
    (hs : layout.Stored m.heap t) (hn : (layout.addrs t).Nodup) (hv : v ∉ keys Cell.value t)
    (hg : layout.Grows m.heap t m'.heap (graft Cell.value v (.node ⟨n, v⟩ .nil .nil) t)) :
    ∃ L ∈ layout.emptyLinks .root t, (∀ L' ∈ layout.emptyLinks .root t,
        IsBst (nodes.plant m.heap L' ⟨n, v⟩) (nodes.plantedRoot (layout.ptr t) L' ⟨n, v⟩) →
          L' = L) ∧
      m'.heap = nodes.plant m.heap L ⟨n, v⟩ ∧
      layout.ptr (graft Cell.value v (.node ⟨n, v⟩ .nil .nil) t) =
        nodes.plantedRoot (layout.ptr t) L ⟨n, v⟩ := by
  have hfresh : (n : ℕ) ∉ layout.addrs t := fun hmem => hs.allocated hmem n.2
  have hroot : Link.root.owner ≠ some (n : ℕ) := fun heq => by cases heq
  have hplant : ∀ L' ∈ layout.emptyLinks .root t, layout.Stored (nodes.plant m.heap L' ⟨n, v⟩)
      (layout.fill L' (.node ⟨n, v⟩ .nil .nil) .root t) := fun L' hL' =>
    WritableLayout.stored_plant (W := nodes) hs hn hfresh hL' hroot
  have hgraft := graft_eq_fill (T := layout) (u := .node ⟨n, v⟩ .nil .nil) (s := .root) hn hv
  have hmem : layout.descent Cell.value v .root t ∈ layout.emptyLinks .root t := descent_mem
  rw [hgraft] at hg ⊢
  refine ⟨_, hmem, ?_, ?_, WritableLayout.ptr_fill (W := nodes) hmem⟩
  · rintro L' hL' ⟨t', hp, hs', -, hord'⟩
    have heq := WritableLayout.stored_unique (W := nodes) hs' (hplant L' hL')
      (hp.trans (WritableLayout.ptr_fill (W := nodes) hL').symm)
    rw [heq] at hord'
    exact eq_descent hL' hord'
  · refine hg.stored.heap_eq (hplant _ hmem) fun a ha => ?_
    -- neither the fresh cell nor the one that was linked
    have hne : a ≠ n := fun heq => ha (heq ▸ mem_addrs_fill hmem List.mem_cons_self)
    have howner : (layout.descent Cell.value v .root t).owner ≠ some a := by
      intro heq
      rcases owner_of_mem_emptyLinks hmem with ⟨-, hL⟩ | ⟨a', ha', hL⟩
      · rw [hL] at heq
        cases heq
      · rw [hL, Option.some.injEq] at heq
        exact ha (hg.kept a (heq ▸ ha'))
    exact (hg.frame a ha).trans (WritableLayout.plant_of_ne (W := nodes) hne howner).symm

/-- **One insert has the effect stated**, with any fuel above the height. -/
theorem insertEffect_of_stored (P : Policy Node) (v : UInt32) (hs : layout.Stored m.heap t)
    (hn : (layout.addrs t).Nodup) (hord : Ordered Cell.value t) : ∃ p' m',
      (∀ fuel, t.height < fuel → bstInsert P fuel m (layout.ptr t) v = some (p', m')) ∧
      InsertEffect P m (layout.ptr t) v p' m' := by
  obtain ⟨m', hrun, hg, hcalls⟩ := bstInsert_spec (P := P) v t m hs hn
  have hord' : Ordered Cell.value (inserted P m t v) := ordered_bstInsert hord v _
  have hbst : IsBst m'.heap (layout.ptr (inserted P m t v)) :=
    ⟨_, rfl, hg.stored, hg.nodup, hord'⟩
  have hhas : Has m.heap (layout.ptr t) v ↔ v ∈ keys Cell.value t := has_iff hs hn
  obtain ⟨hold, hnew⟩ := inserted_cases P m hord v
  refine ⟨_, m', hrun, ?_⟩
  by_cases hv : v ∈ keys Cell.value t
  · -- the value is there: `malloc` is not called, and the same links are written back
    obtain ⟨ht, hc⟩ := hold hv
    rw [ht] at hg hbst ⊢
    have hheap := heap_eq_of_grows hs hg
    refine ⟨hbst, ?_, fun _ => rfl, fun _ => ?_, fun _ => ⟨hcalls.trans hc, hheap, rfl⟩,
      fun hno => absurd (hhas.2 hv) hno, fun hno => absurd (hhas.2 hv) hno⟩
    · rw [hheap]
      exact .refl _ _
    · rw [hheap]
      exact hhas.2 hv
  · obtain ⟨ht, hc⟩ := hnew hv
    cases hP : P m.heap m.calls with
    | none =>
      -- `malloc` fails: the NULL that the descent ended at is written back
      rw [ht, inserted_nil_of_none hP, graft_nil_right] at hg hbst
      rw [ht, inserted_nil_of_none hP, graft_nil_right]
      have hheap := heap_eq_of_grows hs hg
      refine ⟨hbst, ?_, fun _ => rfl, ?_, fun hyes => absurd (hhas.1 hyes) hv,
        fun _ _ => ⟨hcalls.trans hc, hheap, rfl⟩, fun _ n junk hsome => ?_⟩
      · rw [hheap]
        exact .refl _ _
      · rintro (hyes | hsome)
        · exact absurd (hhas.1 hyes) hv
        · exact absurd hP hsome
      · rw [hP] at hsome
        cases hsome
    | some x =>
      obtain ⟨n, junk⟩ := x
      rw [ht, inserted_nil_of_some hP] at hg hbst
      rw [ht, inserted_nil_of_some hP]
      -- the new node hangs in one place, which was empty
      obtain ⟨L, hL, huniq, hheap, hptr⟩ := plant_of_grows hs hn hv hg
      have hvac : ∀ L', layout.Vacant m.heap (layout.ptr t) L' ↔
          L' ∈ layout.emptyLinks .root t := fun _ => hs.vacant_iff hn
      refine ⟨hbst, fun a c hr hcell => ?_, fun hroot => ?_, fun _ => ?_,
        fun hyes => absurd (hhas.1 hyes) hv, fun _ hnone => ?_, fun _ n' junk' hsome => ?_⟩
      · have ha := hs.mem_of_reach hn hr
        have hne : a ≠ n := by
          rintro rfl
          exact hs.allocated ha n.2
        refine ⟨hg.stored.reach_of_mem (hg.kept a ha), ?_⟩
        rw [hheap]
        exact value_plant hne hcell
      · rw [hptr, WritableLayout.plantedRoot, if_neg]
        rintro rfl
        exact hroot ((hvac .root).2 hL)
      · exact (has_iff hg.stored hg.nodup).2 ((mem_keys_graft hv).2 (.inr (by simp)))
      · rw [hP] at hnone
        cases hnone
      · rw [hP] at hsome
        cases hsome
        refine ⟨hcalls.trans hc, L, (hvac L).2 hL, fun L' hL' => ⟨?_, ?_⟩, hheap, hptr⟩
        · exact huniq L' ((hvac L').1 hL')
        · rintro rfl
          rw [← hheap, ← hptr]
          exact hbst

theorem exists_insert (P : Policy Node) (hp : IsBst m.heap p) (v : UInt32) : ∃ p' m',
    Returns (fun fuel => bstInsert P fuel m p v) (p', m') ∧ InsertEffect P m p v p' m' := by
  obtain ⟨t, rfl, hs, hn, hord⟩ := hp
  obtain ⟨p', m', hrun, heffect⟩ := insertEffect_of_stored P v hs hn hord
  exact ⟨p', m', ⟨t.height + 1, fun fuel hfuel => hrun fuel hfuel⟩, heffect⟩

/-! ### Further inserts -/

/-- Any further inserts keep the nodes and their values. -/
theorem exists_insertAll (P : Policy Node) (vs : List UInt32) : ∀ (m : Mem Node) (p : Option ℕ),
    IsBst m.heap p → ∃ p' m', Returns (fun fuel => insertAll P fuel (p, m) vs) (p', m') ∧
      IsBst m'.heap p' ∧ Keeps m.heap p m'.heap p' := by
  induction vs with
  | nil => exact fun m p hp => ⟨p, m, ⟨0, fun _ _ => rfl⟩, hp, .refl _ _⟩
  | cons v vs ih =>
    intro m p hp
    obtain ⟨p₁, m₁, ⟨n₁, hrun₁⟩, heffect⟩ := exists_insert P hp v
    obtain ⟨p₂, m₂, ⟨n₂, hrun₂⟩, hbst, hkeeps⟩ := ih m₁ p₁ heffect.isBst
    refine ⟨p₂, m₂, ⟨max n₁ n₂, fun fuel hfuel => ?_⟩, hbst, heffect.keeps.trans hkeeps⟩
    change insertAll P fuel (p, m) (v :: vs) = _
    rw [insertAll, show bstInsert P fuel m p v = _ from hrun₁ fuel (le_of_max_le_left hfuel)]
    exact hrun₂ fuel (le_of_max_le_right hfuel)

/-! ### Searching -/

/-- `bst_search` in memory does what it does on trees, and changes nothing. -/
theorem bstSearch_spec (w : UInt32) (t : BstNode) : ∀ m : Mem Node, layout.Stored m.heap t →
    ∃ m', (∀ fuel, t.height < fuel →
      bstSearch fuel m (layout.ptr t) w = some (layout.ptr (Bst.bstSearch t w), m')) ∧
      m'.heap = m.heap := by
  induction t with
  | nil =>
    intro m _
    refine ⟨m, fun fuel hfuel => ?_, rfl⟩
    obtain ⟨fuel, rfl⟩ := Nat.exists_eq_add_one.2 hfuel
    rfl
  | node c l r ihl ihr =>
    intro m hs
    -- the cell of the root is read, whatever comes next
    have hstep : ∀ f, bstSearch (f + 1) m (layout.ptr (.node c l r)) w =
        if w = c.value then some (some c.addr, m.log (.read c.addr))
        else if w < c.value then bstSearch f (m.log (.read c.addr)) (layout.ptr l) w
        else bstSearch f (m.log (.read c.addr)) (layout.ptr r) w := by
      intro f
      have hread := Mem.read_of_some hs.1
      change ((m.read c.addr).bind _) = _
      rw [show m.read c.addr = _ from hread]
      rfl
    rcases lt_trichotomy w c.value with hlt | heq | hgt
    · obtain ⟨m', hrun, hheap⟩ := ihl (m.log (.read c.addr)) hs.2.1
      refine ⟨m', fun fuel hfuel => ?_, hheap⟩
      obtain ⟨f, rfl, hf, -⟩ := fuel_of_height hfuel
      rw [hstep, Bst.bstSearch, if_neg hlt.ne, if_neg hlt.ne, if_pos hlt, if_pos hlt]
      exact hrun f hf
    · refine ⟨m.log (.read c.addr), fun fuel hfuel => ?_, rfl⟩
      obtain ⟨f, rfl, -⟩ := fuel_of_height hfuel
      rw [hstep, Bst.bstSearch, if_pos heq, if_pos heq]
      rfl
    · obtain ⟨m', hrun, hheap⟩ := ihr (m.log (.read c.addr)) hs.2.2
      refine ⟨m', fun fuel hfuel => ?_, hheap⟩
      obtain ⟨f, rfl, -, hf⟩ := fuel_of_height hfuel
      rw [hstep, Bst.bstSearch, if_neg hgt.ne', if_neg hgt.ne', if_neg (lt_asymm hgt),
        if_neg (lt_asymm hgt)]
      exact hrun f hf

/-- What a search finds is the node with the value. -/
theorem ptr_bstSearch (hord : Ordered Cell.value t) {w : UInt32} {a : ℕ} :
    layout.ptr (Bst.bstSearch t w) = some a ↔ ⟨a, w⟩ ∈ inorder t := by
  have hinj : ∀ b ∈ inorder t, ∀ b' ∈ inorder t, b.value = b'.value → b = b' := fun b hb b' hb' =>
    List.inj_on_of_nodup_map (hord.sorted_keys.imp ne_of_lt) hb hb'
  by_cases hw : w ∈ keys Cell.value t
  · obtain ⟨c, l, r, hsearch, hc, hmem⟩ := bstSearch_of_mem hord hw
    rw [hsearch]
    constructor
    · intro hp
      obtain rfl : c.addr = a := Option.some.inj hp
      rw [← hc]
      exact hmem
    · intro ha
      obtain rfl := hinj _ ha c hmem hc.symm
      rfl
  · rw [bstSearch_of_not_mem hw]
    refine iff_of_false (fun hp => by cases hp) fun ha => hw ?_
    exact List.mem_map.2 ⟨_, ha, rfl⟩

/-- A search returns the address of the node with the value. -/
theorem exists_search (hp : IsBst m.heap p) (w : UInt32) : ∃ found m₁,
    Returns (fun fuel => bstSearch fuel m p w) (found, m₁) ∧ m₁.heap = m.heap ∧
      ∀ a, found = some a ↔
        layout.Reach m.heap p a ∧ ∃ c, m.heap a = some c ∧ c.value = w := by
  obtain ⟨t, rfl, hs, hn, hord⟩ := hp
  obtain ⟨m₁, hrun, hheap⟩ := bstSearch_spec w t m hs
  refine ⟨_, m₁, ⟨t.height + 1, fun fuel hfuel => hrun fuel hfuel⟩, hheap, fun a => ?_⟩
  rw [ptr_bstSearch hord]
  constructor
  · intro ha
    obtain ⟨hmem, l, r, hcell⟩ := stored_cell hs ha
    exact ⟨hs.reach_of_mem hmem, _, hcell, rfl⟩
  · rintro ⟨hr, c, hc, rfl⟩
    exact reached_cell hs hn hr hc

/-- **The frame of `bst_insert`**, from any search tree of nodes at distinct addresses.  An insert
of any value ends with the effect `InsertEffect`, and a second one of the same value, unless the
first got no memory, changes nothing.  What a search finds keeps its address and value through any
further inserts, and a search finds it again. -/
theorem bstInsert_frame (P : Policy Node) (m : Mem Node) (p : Option ℕ) (hp : IsBst m.heap p) :
    (∀ v, ∃ p' m', Returns (fun fuel => bstInsert P fuel m p v) (p', m') ∧
      InsertEffect P m p v p' m' ∧
      (Has m.heap p v ∨ P m.heap m.calls ≠ none → ∃ m'',
        Returns (fun fuel => bstInsert P fuel m' p' v) (p', m'') ∧
          m''.heap = m'.heap ∧ m''.calls = m'.calls)) ∧
    ∀ w, ∃ found m₁, Returns (fun fuel => bstSearch fuel m p w) (found, m₁) ∧
      m₁.heap = m.heap ∧ ∀ a, found = some a → ∀ vs, ∃ p' m',
        Returns (fun fuel => insertAll P fuel (p, m₁) vs) (p', m') ∧
          (∃ c, m'.heap a = some c ∧ c.value = w) ∧
          ∃ m₂, Returns (fun fuel => bstSearch fuel m' p' w) (some a, m₂) := by
  constructor
  · intro v
    obtain ⟨p', m', hrun, heffect⟩ := exists_insert P hp v
    refine ⟨p', m', hrun, heffect, fun hstored => ?_⟩
    obtain ⟨p'', m'', hrun', heffect'⟩ := exists_insert P heffect.isBst v
    obtain ⟨hcalls, hheap, rfl⟩ := heffect'.present (heffect.holds hstored)
    exact ⟨m'', hrun', hheap, hcalls⟩
  · intro w
    obtain ⟨found, m₁, hrun, hheap, hfound⟩ := exists_search hp w
    refine ⟨found, m₁, hrun, hheap, fun a ha vs => ?_⟩
    obtain ⟨hr, c, hc, hval⟩ := (hfound a).1 ha
    have hp₁ : IsBst m₁.heap p := by rwa [hheap]
    obtain ⟨p', m', hruns, hbst, hkeeps⟩ := exists_insertAll P vs m₁ p hp₁
    rw [hheap] at hkeeps
    obtain ⟨hr', c', hc', hval'⟩ := hkeeps a c hr hc
    obtain ⟨found', m₂, hrun₂, -, hfound'⟩ := exists_search hbst w
    obtain rfl := (hfound' a).2 ⟨hr', c', hc', hval'.trans hval⟩
    exact ⟨p', m', hruns, ⟨c', hc', hval'.trans hval⟩, m₂, hrun₂⟩

/-- 40 inserted next to 50. -/
theorem bstInsert_frame_two_nodes :
    let P : Policy Node := fun h _ =>
      if hfree : h 2 = none then some (⟨2, hfree⟩, ⟨0, none, none⟩) else none
    let m : Mem Node := .start (Function.update (fun _ => none) 1 (some ⟨50, none, none⟩))
    ∃ m', Returns (fun fuel => bstInsert P fuel m (some 1) 40) (some 1, m') ∧
      Has m'.heap (some 1) 40 := by
  intro P m
  have hp : IsBst m.heap (some 1) :=
    ⟨.node ⟨1, 50⟩ .nil .nil, rfl, ⟨rfl, trivial, trivial⟩,
      List.nodup_singleton 1, by simp, by simp, trivial, trivial⟩
  obtain ⟨p', m', hrun, heffect, -⟩ := (bstInsert_frame P m (some 1) hp).1 40
  obtain rfl := heffect.root (by decide)
  refine ⟨m', hrun, heffect.holds (.inr ?_)⟩
  have hfree : m.heap 2 = none := rfl
  intro hnone
  rw [show P m.heap m.calls = _ from dif_pos hfree] at hnone
  cases hnone

end BstHeap

end CAcheRein
