import CAcheRein.Heap.Tree
import CAcheRein.SearchTree.Basic

/-!
# The empty places of a stored tree

A NULL pointer of a stored tree is a place where a leaf can be hung up: a fresh cell is filled and
one link is set.  In a search tree the order leaves one place for a new key, the one where the
descent for the key ends.

## Main definitions

* `TreeLayout.Vacant` : a link that what a pointer reaches holds, and that is NULL.
* `TreeLayout.emptyLinks`, `TreeLayout.fill` : the same links of a tree, and the tree after one of
  them got a subtree.
* `WritableLayout` : a layout whose links can be set; `WritableLayout.plant` hangs up a leaf.

## Main results

* `TreeLayout.Stored.vacant_iff` : the NULL links of a stored tree are its empty places.
* `WritableLayout.stored_plant` : hanging up a leaf in memory fills the place in the tree.
* `WritableLayout.stored_unique` : a pointer leads to one tree only.
* `TreeLayout.eq_descent` : the order admits a new key in one place only.
-/

namespace CAcheRein

namespace TreeLayout

deriving instance DecidableEq for Link

/-- The address of the cell that has the link. -/
def Link.owner : Link → Option ℕ
  | .root => none
  | .left a => some a
  | .right a => some a

variable {α β : Type*} (T : TreeLayout α β)

/-- The link `s`, of those that `p` reaches, is NULL. -/
def Vacant (h : Heap α) (p : Option ℕ) : Link → Prop
  | .root => p = none
  | .left a => T.Reach h p a ∧ ∃ c, h a = some c ∧ T.left c = none
  | .right a => T.Reach h p a ∧ ∃ c, h a = some c ∧ T.right c = none

/-- The empty places of a tree held at `s`. -/
def emptyLinks (s : Link) : BinaryTree β → List Link
  | .nil => [s]
  | .node b l r => emptyLinks (.left (T.addr b)) l ++ emptyLinks (.right (T.addr b)) r

/-- A tree held at `s`, with the tree `u` put in the empty place `L`. -/
def fill (L : Link) (u : BinaryTree β) (s : Link) : BinaryTree β → BinaryTree β
  | .nil => if L = s then u else .nil
  | .node b l r => .node b (fill L u (.left (T.addr b)) l) (fill L u (.right (T.addr b)) r)

variable {T} {h h' : Heap α} {t t' l r u : BinaryTree β} {b : β} {s L : Link}

theorem mem_emptyLinks_nil : L ∈ T.emptyLinks s .nil ↔ L = s := List.mem_singleton

theorem mem_emptyLinks_node : L ∈ T.emptyLinks s (.node b l r) ↔
    L ∈ T.emptyLinks (.left (T.addr b)) l ∨ L ∈ T.emptyLinks (.right (T.addr b)) r :=
  List.mem_append

/-- An empty place is in a cell of the tree, or the whole tree is missing. -/
theorem owner_of_mem_emptyLinks (hL : L ∈ T.emptyLinks s t) :
    (t = .nil ∧ L = s) ∨ ∃ a ∈ T.addrs t, L.owner = some a := by
  induction t generalizing s with
  | nil => exact .inl ⟨rfl, mem_emptyLinks_nil.1 hL⟩
  | node b l r ihl ihr =>
    refine .inr ?_
    rcases mem_emptyLinks_node.1 hL with hl | hr
    · rcases ihl hl with ⟨-, rfl⟩ | ⟨a, ha, howner⟩
      · exact ⟨_, List.mem_cons_self, rfl⟩
      · exact ⟨a, mem_addrs_node.2 (.inr (.inl ha)), howner⟩
    · rcases ihr hr with ⟨-, rfl⟩ | ⟨a, ha, howner⟩
      · exact ⟨_, List.mem_cons_self, rfl⟩
      · exact ⟨a, mem_addrs_node.2 (.inr (.inr ha)), howner⟩

/-- The subtrees of a node have no empty place in common. -/
theorem not_mem_emptyLinks_right (hn : (T.addrs (.node b l r)).Nodup)
    (hl : L ∈ T.emptyLinks (.left (T.addr b)) l) : L ∉ T.emptyLinks (.right (T.addr b)) r := by
  obtain ⟨⟨hbl, hbr⟩, -, -, hdisj⟩ := nodup_addrs_node.1 hn
  intro hr
  rcases owner_of_mem_emptyLinks hl with ⟨-, rfl⟩ | ⟨a, ha, howner⟩
  · rcases owner_of_mem_emptyLinks hr with ⟨-, heq⟩ | ⟨a', ha', howner'⟩
    · cases heq
    · cases howner'
      exact hbr ha'
  · rcases owner_of_mem_emptyLinks hr with ⟨-, rfl⟩ | ⟨a', ha', howner'⟩
    · cases howner
      exact hbl ha
    · rw [howner] at howner'
      cases howner'
      exact hdisj a ha ha'

theorem fill_of_not_mem (hL : L ∉ T.emptyLinks s t) : T.fill L u s t = t := by
  induction t generalizing s with
  | nil => exact if_neg (mt mem_emptyLinks_nil.2 hL)
  | node b l r ihl ihr =>
    rw [mem_emptyLinks_node, not_or] at hL
    rw [fill, ihl hL.1, ihr hL.2]

theorem fill_left (hn : (T.addrs (.node b l r)).Nodup)
    (hL : L ∈ T.emptyLinks (.left (T.addr b)) l) :
    T.fill L u s (.node b l r) = .node b (T.fill L u (.left (T.addr b)) l) r := by
  rw [fill, fill_of_not_mem (not_mem_emptyLinks_right hn hL)]

theorem fill_right (hn : (T.addrs (.node b l r)).Nodup)
    (hL : L ∈ T.emptyLinks (.right (T.addr b)) r) :
    T.fill L u s (.node b l r) = .node b l (T.fill L u (.right (T.addr b)) r) := by
  rw [fill, fill_of_not_mem fun hl => not_mem_emptyLinks_right hn hl hL]

/-- What is put in a place is in the tree. -/
theorem mem_addrs_fill (hL : L ∈ T.emptyLinks s t) {a : ℕ} (ha : a ∈ T.addrs u) :
    a ∈ T.addrs (T.fill L u s t) := by
  induction t generalizing s with
  | nil =>
    rw [fill, if_pos (mem_emptyLinks_nil.1 hL)]
    exact ha
  | node b l r ihl ihr =>
    rw [fill, mem_addrs_node]
    exact .inr ((mem_emptyLinks_node.1 hL).imp ihl ihr)

/-! ### In memory -/

/-- A NULL pointer in a cell of a stored tree is an empty place. -/
theorem Stored.mem_emptyLinks (hs : T.Stored h t) (s : Link) {a : ℕ} {c : α}
    (ha : a ∈ T.addrs t) (hc : h a = some c) :
    (T.left c = none → .left a ∈ T.emptyLinks s t) ∧
      (T.right c = none → .right a ∈ T.emptyLinks s t) := by
  induction t generalizing s with
  | nil => cases ha
  | node b l r ihl ihr =>
    simp only [mem_emptyLinks_node]
    rcases mem_addrs_node.1 ha with rfl | hl | hr
    · obtain rfl : T.cell b (T.ptr l) (T.ptr r) = c := Option.some.inj (hs.1.symm.trans hc)
      rw [T.left_cell, T.right_cell]
      refine ⟨fun hp => .inl ?_, fun hp => .inr ?_⟩
      · cases l with
        | nil => exact mem_emptyLinks_nil.2 rfl
        | node _ _ _ => cases hp
      · cases r with
        | nil => exact mem_emptyLinks_nil.2 rfl
        | node _ _ _ => cases hp
    · obtain ⟨hleft, hright⟩ := ihl hs.2.1 (.left (T.addr b)) hl
      exact ⟨fun hp => .inl (hleft hp), fun hp => .inl (hright hp)⟩
    · obtain ⟨hleft, hright⟩ := ihr hs.2.2 (.right (T.addr b)) hr
      exact ⟨fun hp => .inr (hleft hp), fun hp => .inr (hright hp)⟩

/-- An empty place of a stored tree is a NULL pointer in one of its cells, or it is the tree. -/
theorem Stored.null_of_mem_emptyLinks (hs : T.Stored h t) (hL : L ∈ T.emptyLinks s t) :
    (L = s ∧ t = .nil) ∨ ∃ a ∈ T.addrs t, ∃ c, h a = some c ∧
      ((L = .left a ∧ T.left c = none) ∨ (L = .right a ∧ T.right c = none)) := by
  induction t generalizing s with
  | nil => exact .inl ⟨mem_emptyLinks_nil.1 hL, rfl⟩
  | node b l r ihl ihr =>
    refine .inr ?_
    rcases mem_emptyLinks_node.1 hL with hl | hr
    · rcases ihl hs.2.1 hl with ⟨rfl, rfl⟩ | ⟨a, ha, hcell⟩
      · exact ⟨_, List.mem_cons_self, _, hs.1, .inl ⟨rfl, T.left_cell ..⟩⟩
      · exact ⟨a, mem_addrs_node.2 (.inr (.inl ha)), hcell⟩
    · rcases ihr hs.2.2 hr with ⟨rfl, rfl⟩ | ⟨a, ha, hcell⟩
      · exact ⟨_, List.mem_cons_self, _, hs.1, .inr ⟨rfl, T.right_cell ..⟩⟩
      · exact ⟨a, mem_addrs_node.2 (.inr (.inr ha)), hcell⟩

/-- **The NULL links of a stored tree are its empty places.** -/
theorem Stored.vacant_iff (hs : T.Stored h t) (hn : (T.addrs t).Nodup) :
    T.Vacant h (T.ptr t) L ↔ L ∈ T.emptyLinks .root t := by
  constructor
  · intro hv
    cases L with
    | root =>
      cases t with
      | nil => exact mem_emptyLinks_nil.2 rfl
      | node _ _ _ => cases hv
    | left a =>
      obtain ⟨hreach, c, hc, hnull⟩ := hv
      exact (hs.mem_emptyLinks .root (hs.mem_of_reach hn hreach) hc).1 hnull
    | right a =>
      obtain ⟨hreach, c, hc, hnull⟩ := hv
      exact (hs.mem_emptyLinks .root (hs.mem_of_reach hn hreach) hc).2 hnull
  · intro hL
    rcases hs.null_of_mem_emptyLinks hL with ⟨rfl, rfl⟩ | ⟨a, ha, c, hc, hnull⟩
    · rfl
    · have hreach := hs.reach_of_mem ha
      rcases hnull with ⟨rfl, hleft⟩ | ⟨rfl, hright⟩
      · exact ⟨hreach, c, hc, hleft⟩
      · exact ⟨hreach, c, hc, hright⟩

theorem Stored.cell_eq (hs : T.Stored h t) (hs' : T.Stored h' t) {a : ℕ} (ha : a ∈ T.addrs t) :
    h a = h' a := by
  induction t with
  | nil => cases ha
  | node b l r ihl ihr =>
    rcases mem_addrs_node.1 ha with rfl | hl | hr
    · exact hs.1.trans hs'.1.symm
    · exact ihl hs.2.1 hs'.2.1 hl
    · exact ihr hs.2.2 hs'.2.2 hr

/-- Heaps that store the same tree and agree elsewhere are equal. -/
theorem Stored.heap_eq (hs : T.Stored h t) (hs' : T.Stored h' t)
    (hout : ∀ a ∉ T.addrs t, h a = h' a) : h = h' := by
  funext a
  by_cases ha : a ∈ T.addrs t
  · exact hs.cell_eq hs' ha
  · exact hout a ha

end TreeLayout

/-! ### Setting a link -/

open TreeLayout

/-- A layout whose links can be set, and whose cells show which element they hold. -/
structure WritableLayout (α β : Type*) extends TreeLayout α β where
  setLeft : α → Option ℕ → α
  setRight : α → Option ℕ → α
  setLeft_cell : ∀ b p q p', setLeft (cell b p q) p' = cell b p' q
  setRight_cell : ∀ b p q q', setRight (cell b p q) q' = cell b p q'
  eq_of_cell_eq : ∀ {b b' p q p' q'}, addr b = addr b' → cell b p q = cell b' p' q' → b = b'

namespace WritableLayout

variable {α β : Type*} (W : WritableLayout α β)

/-- Set a link that is in a cell. -/
def setLink (h : Heap α) (L : Link) (p : Option ℕ) : Heap α :=
  match L with
  | .root => h
  | .left a => Function.update h a ((h a).map fun c => W.setLeft c p)
  | .right a => Function.update h a ((h a).map fun c => W.setRight c p)

/-- Hang up `b` as a leaf: fill its cell, then set the link `L` to it. -/
def plant (h : Heap α) (L : Link) (b : β) : Heap α :=
  W.setLink (Function.update h (W.addr b) (some (W.cell b none none))) L (some (W.addr b))

/-- The pointer `p` to the root, once a leaf was hung up at `L`. -/
def plantedRoot (p : Option ℕ) (L : Link) (b : β) : Option ℕ :=
  if L = .root then some (W.addr b) else p

variable {W} {h : Heap α} {t t' : BinaryTree β} {b c : β} {s L : Link} {a : ℕ}

theorem setLink_of_ne {p : Option ℕ} (ha : L.owner ≠ some a) : W.setLink h L p a = h a := by
  cases L with
  | root => rfl
  | left a' => exact Function.update_of_ne (fun heq => ha (congrArg some heq.symm)) _ _
  | right a' => exact Function.update_of_ne (fun heq => ha (congrArg some heq.symm)) _ _

theorem plant_self (hL : L.owner ≠ some (W.addr b)) :
    W.plant h L b (W.addr b) = some (W.cell b none none) := by
  rw [plant, setLink_of_ne hL, Function.update_self]

theorem plant_of_ne (ha : a ≠ W.addr b) (hL : L.owner ≠ some a) : W.plant h L b a = h a := by
  rw [plant, setLink_of_ne hL, Function.update_of_ne ha]

theorem plant_left {p q : Option ℕ} (ha : a ≠ W.addr b) (hc : h a = some (W.cell c p q)) :
    W.plant h (.left a) b a = some (W.cell c (some (W.addr b)) q) := by
  rw [plant, setLink, Function.update_self, Function.update_of_ne ha, hc, Option.map_some,
    W.setLeft_cell]

theorem plant_right {p q : Option ℕ} (ha : a ≠ W.addr b) (hc : h a = some (W.cell c p q)) :
    W.plant h (.right a) b a = some (W.cell c p (some (W.addr b))) := by
  rw [plant, setLink, Function.update_self, Function.update_of_ne ha, hc, Option.map_some,
    W.setRight_cell]

/-- A stored tree none of whose cells is touched. -/
theorem stored_of_untouched (hs : W.Stored h t) (hb : W.addr b ∉ W.addrs t)
    (hL : ∀ a ∈ W.addrs t, L.owner ≠ some a) : W.Stored (W.plant h L b) t :=
  hs.congr fun a ha => plant_of_ne (fun heq => hb (heq ▸ ha)) (hL a ha)

/-- The cell above the place on its left, or above the tree with the place. -/
theorem plant_cell_left {l : BinaryTree β} {q : Option ℕ} (hcb : W.addr c ≠ W.addr b)
    (hcl : W.addr c ∉ W.addrs l) (hL : L ∈ W.emptyLinks (.left (W.addr c)) l)
    (hc : h (W.addr c) = some (W.cell c (W.ptr l) q)) : W.plant h L b (W.addr c) =
      some (W.cell c (W.ptr (W.fill L (.node b .nil .nil) (.left (W.addr c)) l)) q) := by
  rcases owner_of_mem_emptyLinks hL with ⟨rfl, rfl⟩ | ⟨a, ha, howner⟩
  · rw [fill, if_pos rfl]
    exact plant_left hcb hc
  · have hne : L.owner ≠ some (W.addr c) := fun heq =>
      hcl (Option.some.inj (howner.symm.trans heq) ▸ ha)
    rw [plant_of_ne hcb hne, hc]
    cases l with
    | nil => cases ha
    | node _ _ _ => rfl

/-- The same on its right. -/
theorem plant_cell_right {r : BinaryTree β} {p : Option ℕ} (hcb : W.addr c ≠ W.addr b)
    (hcr : W.addr c ∉ W.addrs r) (hL : L ∈ W.emptyLinks (.right (W.addr c)) r)
    (hc : h (W.addr c) = some (W.cell c p (W.ptr r))) : W.plant h L b (W.addr c) =
      some (W.cell c p (W.ptr (W.fill L (.node b .nil .nil) (.right (W.addr c)) r))) := by
  rcases owner_of_mem_emptyLinks hL with ⟨rfl, rfl⟩ | ⟨a, ha, howner⟩
  · rw [fill, if_pos rfl]
    exact plant_right hcb hc
  · have hne : L.owner ≠ some (W.addr c) := fun heq =>
      hcr (Option.some.inj (howner.symm.trans heq) ▸ ha)
    rw [plant_of_ne hcb hne, hc]
    cases r with
    | nil => cases ha
    | node _ _ _ => rfl

/-- **Hanging up a leaf fills its place in the tree.** -/
theorem stored_plant (hs : W.Stored h t) (hn : (W.addrs t).Nodup) (hb : W.addr b ∉ W.addrs t)
    (hL : L ∈ W.emptyLinks s t) (hsb : s.owner ≠ some (W.addr b)) :
    W.Stored (W.plant h L b) (W.fill L (.node b .nil .nil) s t) := by
  induction t generalizing s with
  | nil =>
    obtain rfl := mem_emptyLinks_nil.1 hL
    rw [fill, if_pos rfl]
    exact ⟨plant_self hsb, trivial, trivial⟩
  | node c l r ihl ihr =>
    obtain ⟨⟨hcl, hcr⟩, hnl, hnr, hdisj⟩ := nodup_addrs_node.1 hn
    rw [mem_addrs_node, not_or, not_or] at hb
    obtain ⟨hbc, hbl, hbr⟩ := hb
    have hcb : W.addr c ≠ W.addr b := fun heq => hbc heq.symm
    have hown : some (W.addr c) ≠ some (W.addr b) := fun heq => hcb (Option.some.inj heq)
    -- the subtree without the place is not touched
    rcases mem_emptyLinks_node.1 hL with hl | hr
    · rw [fill_left hn hl]
      refine ⟨plant_cell_left hcb hcl hl hs.1, ihl hs.2.1 hnl hbl hl hown,
        stored_of_untouched hs.2.2 hbr fun a ha howner => ?_⟩
      rcases owner_of_mem_emptyLinks hl with ⟨-, rfl⟩ | ⟨a', ha', howner'⟩
      · exact hcr (Option.some.inj howner ▸ ha)
      · exact hdisj a' ha' (Option.some.inj (howner.symm.trans howner') ▸ ha)
    · rw [fill_right hn hr]
      refine ⟨plant_cell_right hcb hcr hr hs.1,
        stored_of_untouched hs.2.1 hbl fun a ha howner => ?_, ihr hs.2.2 hnr hbr hr hown⟩
      rcases owner_of_mem_emptyLinks hr with ⟨-, rfl⟩ | ⟨a', ha', howner'⟩
      · exact hcl (Option.some.inj howner ▸ ha)
      · exact hdisj a ha (Option.some.inj (howner.symm.trans howner') ▸ ha')

/-- The pointer to a tree with a place filled. -/
theorem ptr_fill (hL : L ∈ W.emptyLinks .root t) :
    W.ptr (W.fill L (.node b .nil .nil) .root t) = W.plantedRoot (W.ptr t) L b := by
  rcases owner_of_mem_emptyLinks hL with ⟨rfl, rfl⟩ | ⟨a, ha, howner⟩
  · rfl
  · have hne : L ≠ .root := by
      rintro rfl
      cases howner
    rw [plantedRoot, if_neg hne]
    cases t with
    | nil => cases ha
    | node _ _ _ => rfl

/-- A pointer leads to one tree only. -/
theorem stored_unique (hs : W.Stored h t) (hs' : W.Stored h t') (hp : W.ptr t = W.ptr t') :
    t = t' := by
  induction t generalizing t' with
  | nil =>
    cases t' with
    | nil => rfl
    | node _ _ _ => cases hp
  | node b l r ihl ihr =>
    cases t' with
    | nil => cases hp
    | node b' l' r' =>
      have haddr : W.addr b = W.addr b' := Option.some.inj hp
      have hcell : W.cell b (W.ptr l) (W.ptr r) = W.cell b' (W.ptr l') (W.ptr r') :=
        Option.some.inj (hs.1.symm.trans (haddr ▸ hs'.1))
      have hleft := congrArg W.left hcell
      have hright := congrArg W.right hcell
      rw [W.left_cell, W.left_cell] at hleft
      rw [W.right_cell, W.right_cell] at hright
      rw [W.eq_of_cell_eq haddr hcell, ihl hs.2.1 hs'.2.1 hleft, ihr hs.2.2 hs'.2.2 hright]

end WritableLayout

/-! ### The place for a new key -/

namespace TreeLayout

open SearchTree

variable {α β κ : Type*} {T : TreeLayout α β} [LinearOrder κ] {key : β → κ}
  {t u : BinaryTree β} {b : β} {s L : Link} {x : κ}

variable (T key) in
/-- Where the descent for `x` ends, in a tree held at `s` that does not have `x`. -/
def descent (x : κ) (s : Link) : BinaryTree β → Link
  | .nil => s
  | .node b l r =>
    if x < key b then descent x (.left (T.addr b)) l else descent x (.right (T.addr b)) r

theorem descent_mem : T.descent key x s t ∈ T.emptyLinks s t := by
  induction t generalizing s with
  | nil => exact mem_emptyLinks_nil.2 rfl
  | node b l r ihl ihr =>
    rw [descent, mem_emptyLinks_node]
    split_ifs with hx
    · exact .inl ihl
    · exact .inr ihr

/-- Grafting fills that place. -/
theorem graft_eq_fill (hn : (T.addrs t).Nodup) (hx : x ∉ keys key t) :
    graft key x u t = T.fill (T.descent key x s t) u s t := by
  induction t generalizing s with
  | nil => exact (if_pos rfl).symm
  | node b l r ihl ihr =>
    obtain ⟨-, hnl, hnr, -⟩ := nodup_addrs_node.1 hn
    rw [mem_keys_node, not_or, not_or] at hx
    obtain ⟨hxl, hxb, hxr⟩ := hx
    rcases lt_or_gt_of_ne hxb with hlt | hgt
    · rw [graft_of_lt hlt, descent, if_pos hlt, fill_left hn descent_mem, ihl hnl hxl]
    · rw [graft_of_gt hgt, descent, if_neg (lt_asymm hgt), fill_right hn descent_mem, ihr hnr hxr]

omit [LinearOrder κ] in
theorem mem_keys_fill (hL : L ∈ T.emptyLinks s t) (hx : x ∈ keys key u) :
    x ∈ keys key (T.fill L u s t) := by
  induction t generalizing s with
  | nil =>
    rw [fill, if_pos (mem_emptyLinks_nil.1 hL)]
    exact hx
  | node b l r ihl ihr =>
    rw [fill, mem_keys_node]
    rcases mem_emptyLinks_node.1 hL with hl | hr
    · exact .inl (ihl hl)
    · exact .inr (.inr (ihr hr))

/-- **The order admits a new key in one place only.** -/
theorem eq_descent (hL : L ∈ T.emptyLinks s t)
    (hord : Ordered key (T.fill L (.node b .nil .nil) s t)) : L = T.descent key (key b) s t := by
  have hb : key b ∈ keys key (.node b .nil .nil) := by simp
  induction t generalizing s with
  | nil => exact mem_emptyLinks_nil.1 hL
  | node c l r ihl ihr =>
    obtain ⟨hlt, hgt, hl, hr⟩ := hord
    rw [descent]
    rcases mem_emptyLinks_node.1 hL with hleft | hright
    · rw [if_pos (hlt _ (mem_keys_fill hleft hb))]
      exact ihl hleft hl
    · rw [if_neg (lt_asymm (hgt _ (mem_keys_fill hright hb)))]
      exact ihr hright hr

end TreeLayout

end CAcheRein
