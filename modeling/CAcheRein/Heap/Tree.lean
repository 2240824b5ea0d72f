import CAcheRein.Heap.Basic
import Mathlib.Data.List.Nodup
import Mathlib.Data.Tree.Basic
import Mathlib.Logic.Relation

/-!
# Binary trees of cells

A binary tree stored in a heap cell by cell, each cell with two pointers.  `TreeLayout` says how an
element is stored; the tree itself carries the addresses of its elements.  `TreeLayout.Shaped` says
of the heap alone, without naming a tree, that what a pointer reaches is one.

## Main results

* `TreeLayout.Stored.congr` : a stored tree is not affected by what happens elsewhere in the heap.
* `TreeLayout.Stored.shaped` : a tree stored at distinct addresses is tree-shaped.
* `TreeLayout.Stored.child_before` : in post-order, a child stands before its parent.
-/

namespace CAcheRein

/-- How elements of `β` are stored in cells of `α` with two pointers. -/
structure TreeLayout (α β : Type*) where
  /-- The address of an element. -/
  addr : β → ℕ
  /-- The cell of an element, with pointers to its children. -/
  cell : β → Option ℕ → Option ℕ → α
  /-- The left pointer of a cell. -/
  left : α → Option ℕ
  /-- The right pointer of a cell. -/
  right : α → Option ℕ
  left_cell : ∀ b p q, left (cell b p q) = p
  right_cell : ∀ b p q, right (cell b p q) = q

namespace TreeLayout

variable {α β : Type*} (T : TreeLayout α β)

/-- The pointer to the root. -/
def ptr : BinaryTree β → Option ℕ
  | .nil => none
  | .node b _ _ => some (T.addr b)

/-- The tree is stored in `h`. -/
def Stored (h : Heap α) : BinaryTree β → Prop
  | .nil => True
  | .node b l r => h (T.addr b) = some (T.cell b (T.ptr l) (T.ptr r)) ∧ Stored h l ∧ Stored h r

/-- The addresses of a tree, a parent before its children. -/
def addrs : BinaryTree β → List ℕ
  | .nil => []
  | .node b l r => T.addr b :: (addrs l ++ addrs r)

/-- The addresses of a tree, a parent after its children. -/
def postorder : BinaryTree β → List ℕ
  | .nil => []
  | .node b l r => postorder l ++ postorder r ++ [T.addr b]

/-! ### The shape of what a pointer reaches -/

/-- The cell at `a` points to `b`. -/
def Child (h : Heap α) (a b : ℕ) : Prop :=
  ∃ c, h a = some c ∧ (T.left c = some b ∨ T.right c = some b)

/-- The pointer `p` reaches `b`. -/
def Reach (h : Heap α) (p : Option ℕ) (b : ℕ) : Prop :=
  ∃ a, p = some a ∧ Relation.ReflTransGen (T.Child h) a b

/-- Where a pointer is kept: in the variable for the root, or in a cell. -/
inductive Link where
  | root
  | left (a : ℕ)
  | right (a : ℕ)

/-- The link `s`, of those reached from `p`, points to `b`. -/
def Points (h : Heap α) (p : Option ℕ) : Link → ℕ → Prop
  | .root, b => p = some b
  | .left a, b => T.Reach h p a ∧ ∃ c, h a = some c ∧ T.left c = some b
  | .right a, b => T.Reach h p a ∧ ∃ c, h a = some c ∧ T.right c = some b

/-- What `p` reaches is a tree: all of it is allocated, each cell is reached by exactly one link,
and there is no cycle. -/
structure Shaped (h : Heap α) (p : Option ℕ) : Prop where
  allocated : ∀ a, T.Reach h p a → ∃ c, h a = some c
  one_link : ∀ a, T.Reach h p a → ∃! s, T.Points h p s a
  acyclic : ∀ a, T.Reach h p a → ¬ Relation.TransGen (T.Child h) a a

variable {T} {h h' : Heap α} {t l r : BinaryTree β} {b : β}

theorem mem_addrs_node {a : ℕ} :
    a ∈ T.addrs (.node b l r) ↔ a = T.addr b ∨ a ∈ T.addrs l ∨ a ∈ T.addrs r := by
  rw [addrs, List.mem_cons, List.mem_append]

theorem mem_addrs_of_ptr {a : ℕ} (hp : T.ptr t = some a) : a ∈ T.addrs t := by
  cases t with
  | nil => cases hp
  | node b l r =>
    cases hp
    exact List.mem_cons_self

theorem nodup_addrs_node : (T.addrs (.node b l r)).Nodup ↔
    (T.addr b ∉ T.addrs l ∧ T.addr b ∉ T.addrs r) ∧ (T.addrs l).Nodup ∧ (T.addrs r).Nodup ∧
      ∀ a ∈ T.addrs l, a ∉ T.addrs r := by
  rw [addrs, List.nodup_cons, List.mem_append, not_or, List.nodup_append]
  refine and_congr_right fun _ => and_congr_right fun _ => and_congr_right fun _ => ?_
  exact ⟨fun hd a ha ha' => hd a ha a ha' rfl, fun hd a ha a' ha' haa => hd a ha (haa ▸ ha')⟩

theorem postorder_perm (t : BinaryTree β) : (T.postorder t).Perm (T.addrs t) := by
  induction t with
  | nil => exact .nil
  | node b l r ihl ihr =>
    rw [postorder, addrs]
    exact (List.perm_append_singleton _ _).trans ((ihl.append ihr).cons _)

theorem Stored.congr (hs : T.Stored h t) (heq : ∀ a ∈ T.addrs t, h' a = h a) : T.Stored h' t := by
  induction t with
  | nil => trivial
  | node b l r ihl ihr =>
    obtain ⟨hb, hl, hr⟩ := hs
    refine ⟨(heq _ List.mem_cons_self).trans hb, ihl hl fun a ha => ?_, ihr hr fun a ha => ?_⟩
    · exact heq a (mem_addrs_node.2 (.inr (.inl ha)))
    · exact heq a (mem_addrs_node.2 (.inr (.inr ha)))

theorem Stored.allocated (hs : T.Stored h t) {a : ℕ} (ha : a ∈ T.addrs t) : h a ≠ none := by
  induction t with
  | nil => cases ha
  | node b l r ihl ihr =>
    rcases mem_addrs_node.1 ha with rfl | hl | hr
    · rw [hs.1]
      exact Option.some_ne_none _
    · exact ihl hs.2.1 hl
    · exact ihr hs.2.2 hr

/-- Every address of a stored tree is the root of a stored tree. -/
theorem Stored.subtree (hs : T.Stored h t) (hn : (T.addrs t).Nodup) {a : ℕ}
    (ha : a ∈ T.addrs t) : ∃ b l r, T.addr b = a ∧ T.Stored h (.node b l r) ∧
      (T.addrs (.node b l r)).Nodup ∧ ∀ x ∈ T.addrs (.node b l r), x ∈ T.addrs t := by
  induction t with
  | nil => cases ha
  | node b l r ihl ihr =>
    obtain ⟨-, hnl, hnr, -⟩ := nodup_addrs_node.1 hn
    rcases mem_addrs_node.1 ha with rfl | hl | hr
    · exact ⟨b, l, r, rfl, hs, hn, fun _ hx => hx⟩
    · obtain ⟨b', l', r', hb, hs', hn', hsub⟩ := ihl hs.2.1 hnl hl
      exact ⟨b', l', r', hb, hs', hn', fun x hx => mem_addrs_node.2 (.inr (.inl (hsub x hx)))⟩
    · obtain ⟨b', l', r', hb, hs', hn', hsub⟩ := ihr hs.2.2 hnr hr
      exact ⟨b', l', r', hb, hs', hn', fun x hx => mem_addrs_node.2 (.inr (.inr (hsub x hx)))⟩

/-- The children of the root of a stored tree. -/
theorem Stored.child_iff (hs : T.Stored h (.node b l r)) {a : ℕ} :
    T.Child h (T.addr b) a ↔ T.ptr l = some a ∨ T.ptr r = some a := by
  constructor
  · rintro ⟨c, hc, hlink⟩
    obtain rfl : T.cell b (T.ptr l) (T.ptr r) = c := Option.some.inj (hs.1.symm.trans hc)
    rwa [T.left_cell, T.right_cell] at hlink
  · intro hlink
    refine ⟨_, hs.1, ?_⟩
    rwa [T.left_cell, T.right_cell]

/-- A stored tree is closed under following pointers. -/
theorem Stored.child_mem (hs : T.Stored h t) (hn : (T.addrs t).Nodup) {a a' : ℕ}
    (ha : a ∈ T.addrs t) (hc : T.Child h a a') : a' ∈ T.addrs t := by
  obtain ⟨b, l, r, rfl, hs', -, hsub⟩ := hs.subtree hn ha
  refine hsub a' (mem_addrs_node.2 (.inr ?_))
  exact (hs'.child_iff.1 hc).imp mem_addrs_of_ptr mem_addrs_of_ptr

theorem Stored.mem_of_reach (hs : T.Stored h t) (hn : (T.addrs t).Nodup) {a : ℕ}
    (hr : T.Reach h (T.ptr t) a) : a ∈ T.addrs t := by
  obtain ⟨a₀, hp, hpath⟩ := hr
  induction hpath with
  | refl => exact mem_addrs_of_ptr hp
  | tail _ hc ih => exact hs.child_mem hn ih hc

/-- What a child reaches, its parent reaches. -/
theorem Reach.of_child {p : Option ℕ} {a a' : ℕ} (hr : T.Reach h p a')
    (hc : ∀ x, p = some x → T.Child h a x) : T.Reach h (some a) a' := by
  obtain ⟨x, hp, hpath⟩ := hr
  exact ⟨a, rfl, hpath.head (hc x hp)⟩

theorem Stored.reach_of_mem (hs : T.Stored h t) {a : ℕ} (ha : a ∈ T.addrs t) :
    T.Reach h (T.ptr t) a := by
  induction t with
  | nil => cases ha
  | node b l r ihl ihr =>
    rcases mem_addrs_node.1 ha with rfl | hl | hr
    · exact ⟨_, rfl, .refl⟩
    · exact (ihl hs.2.1 hl).of_child fun x hx => hs.child_iff.2 (.inl hx)
    · exact (ihr hs.2.2 hr).of_child fun x hx => hs.child_iff.2 (.inr hx)

/-- **The addresses of a stored tree are what its root reaches.** -/
theorem Stored.reach_iff (hs : T.Stored h t) (hn : (T.addrs t).Nodup) {a : ℕ} :
    T.Reach h (T.ptr t) a ↔ a ∈ T.addrs t :=
  ⟨hs.mem_of_reach hn, hs.reach_of_mem⟩

/-- What the root of a stored tree leads to lies below it. -/
theorem Stored.mem_of_transGen (hs : T.Stored h (.node b l r))
    (hn : (T.addrs (.node b l r)).Nodup) {a : ℕ}
    (hpath : Relation.TransGen (T.Child h) (T.addr b) a) : a ∈ T.addrs l ∨ a ∈ T.addrs r := by
  obtain ⟨-, hnl, hnr, -⟩ := nodup_addrs_node.1 hn
  induction hpath with
  | single hc => exact (hs.child_iff.1 hc).imp mem_addrs_of_ptr mem_addrs_of_ptr
  | tail _ hc ih =>
    exact ih.imp (fun ha => hs.2.1.child_mem hnl ha hc) fun ha => hs.2.2.child_mem hnr ha hc

/-! ### One link for each cell -/

variable (T) in
/-- The links of a tree held at `s`, each with the address it points to. -/
def links (s : Link) : BinaryTree β → List (Link × ℕ)
  | .nil => []
  | .node b l r => (s, T.addr b) :: (links (.left (T.addr b)) l ++ links (.right (T.addr b)) r)

theorem map_snd_links (s : Link) (t : BinaryTree β) : (T.links s t).map Prod.snd = T.addrs t := by
  induction t generalizing s with
  | nil => rfl
  | node b l r ihl ihr => rw [links, List.map_cons, List.map_append, ihl, ihr, addrs]

theorem mem_links_of_ptr {s : Link} {a : ℕ} (hp : T.ptr t = some a) : (s, a) ∈ T.links s t := by
  cases t with
  | nil => cases hp
  | node b l r =>
    cases hp
    exact List.mem_cons_self

/-- A pointer in a cell of a stored tree is one of its links. -/
theorem Stored.mem_links (hs : T.Stored h t) (s : Link) {a a' : ℕ} {c : α}
    (ha : a ∈ T.addrs t) (hc : h a = some c) :
    (T.left c = some a' → (.left a, a') ∈ T.links s t) ∧
      (T.right c = some a' → (.right a, a') ∈ T.links s t) := by
  induction t generalizing s with
  | nil => cases ha
  | node b l r ihl ihr =>
    simp only [links, List.mem_cons, List.mem_append]
    rcases mem_addrs_node.1 ha with rfl | hl | hr
    · obtain rfl : T.cell b (T.ptr l) (T.ptr r) = c := Option.some.inj (hs.1.symm.trans hc)
      rw [T.left_cell, T.right_cell]
      exact ⟨fun hp => .inr (.inl (mem_links_of_ptr hp)),
        fun hp => .inr (.inr (mem_links_of_ptr hp))⟩
    · obtain ⟨h₁, h₂⟩ := ihl hs.2.1 (.left (T.addr b)) hl
      exact ⟨fun hp => .inr (.inl (h₁ hp)), fun hp => .inr (.inl (h₂ hp))⟩
    · obtain ⟨h₁, h₂⟩ := ihr hs.2.2 (.right (T.addr b)) hr
      exact ⟨fun hp => .inr (.inr (h₁ hp)), fun hp => .inr (.inr (h₂ hp))⟩

theorem Stored.points_mem_links (hs : T.Stored h t) (hn : (T.addrs t).Nodup) {s : Link} {a : ℕ}
    (hp : T.Points h (T.ptr t) s a) : (s, a) ∈ T.links .root t := by
  cases s with
  | root => exact mem_links_of_ptr hp
  | left a₀ =>
    obtain ⟨hr, c, hc, hlink⟩ := hp
    exact (hs.mem_links .root (hs.mem_of_reach hn hr) hc).1 hlink
  | right a₀ =>
    obtain ⟨hr, c, hc, hlink⟩ := hp
    exact (hs.mem_links .root (hs.mem_of_reach hn hr) hc).2 hlink

/-- What is reached is pointed to. -/
theorem Reach.points {p : Option ℕ} {a : ℕ} (hr : T.Reach h p a) : ∃ s, T.Points h p s a := by
  obtain ⟨a₀, hp, hpath⟩ := hr
  rcases Relation.ReflTransGen.cases_tail hpath with heq | ⟨a₁, hpath, c, hc, hlink⟩
  · exact ⟨.root, heq ▸ hp⟩
  · rcases hlink with hl | hr
    · exact ⟨.left a₁, ⟨a₀, hp, hpath⟩, c, hc, hl⟩
    · exact ⟨.right a₁, ⟨a₀, hp, hpath⟩, c, hc, hr⟩

/-- **A tree stored at distinct addresses is tree-shaped.** -/
theorem Stored.shaped (hs : T.Stored h t) (hn : (T.addrs t).Nodup) : T.Shaped h (T.ptr t) where
  allocated a hr := by
    obtain ⟨b, l, r, rfl, hs', -⟩ := hs.subtree hn (hs.mem_of_reach hn hr)
    exact ⟨_, hs'.1⟩
  one_link a hr := by
    obtain ⟨s, hp⟩ := hr.points
    refine ⟨s, hp, fun s' hp' => ?_⟩
    have hnodup : ((T.links .root t).map Prod.snd).Nodup := by rwa [map_snd_links]
    have hlink := List.inj_on_of_nodup_map hnodup (hs.points_mem_links hn hp')
      (hs.points_mem_links hn hp) rfl
    exact congrArg Prod.fst hlink
  acyclic a hr := by
    intro hcycle
    obtain ⟨b, l, r, rfl, hs', hn', -⟩ := hs.subtree hn (hs.mem_of_reach hn hr)
    obtain ⟨⟨hl, hr⟩, -⟩ := nodup_addrs_node.1 hn'
    exact (hs'.mem_of_transGen hn' hcycle).elim hl hr

/-- In post-order, a child stands before its parent. -/
theorem Stored.child_before (hs : T.Stored h t) {a a' : ℕ} (ha : a ∈ T.addrs t)
    (hc : T.Child h a a') : [a', a].Sublist (T.postorder t) := by
  induction t with
  | nil => cases ha
  | node b l r ihl ihr =>
    rw [postorder]
    rcases mem_addrs_node.1 ha with rfl | hl | hr
    · have hmem : a' ∈ T.postorder l ++ T.postorder r := by
        rw [List.mem_append]
        exact (hs.child_iff.1 hc).imp
          (fun hp => (postorder_perm l).mem_iff.2 (mem_addrs_of_ptr hp))
          fun hp => (postorder_perm r).mem_iff.2 (mem_addrs_of_ptr hp)
      exact (List.singleton_sublist.2 hmem).append (List.Sublist.refl [T.addr b])
    · exact ((ihl hs.2.1 hl).trans (List.sublist_append_left _ _)).trans
        (List.sublist_append_left _ _)
    · exact ((ihr hs.2.2 hr).trans (List.sublist_append_right _ _)).trans
        (List.sublist_append_left _ _)

/-! ### Growing a stored tree -/

variable (T) in
/-- From `h` to `h'` the stored tree `t` became `t'`, and nothing else changed. -/
structure Grows (h : Heap α) (t : BinaryTree β) (h' : Heap α) (t' : BinaryTree β) : Prop
    extends Grown h (T.addrs t) h' (T.addrs t') where
  stored : T.Stored h' t'
  nodup : (T.addrs t').Nodup

variable {t' l' r' : BinaryTree β}

theorem Grows.refl (hs : T.Stored h t) (hn : (T.addrs t).Nodup) : T.Grows h t h t :=
  ⟨.refl _ _, hs, hn⟩

theorem Grows.trans {h'' : Heap α} {t'' : BinaryTree β} (hg : T.Grows h t h' t')
    (hg' : T.Grows h' t' h'' t'') : T.Grows h t h'' t'' :=
  ⟨hg.toGrown.trans hg'.toGrown, hg'.stored, hg'.nodup⟩

/-- The left child grows, and its parent is linked to it. -/
theorem Grows.left (hs : T.Stored h (.node b l r)) (hn : (T.addrs (.node b l r)).Nodup)
    (hg : T.Grows h l h' l') :
    h' (T.addr b) = some (T.cell b (T.ptr l) (T.ptr r)) ∧
      T.Grows h (.node b l r)
        (Function.update h' (T.addr b) (some (T.cell b (T.ptr l') (T.ptr r)))) (.node b l' r) := by
  obtain ⟨⟨hbl, hbr⟩, hnl, hnr, hdisj⟩ := nodup_addrs_node.1 hn
  have hb : T.addr b ∉ T.addrs l' := hg.not_mem hbl (hs.allocated List.mem_cons_self)
  have hr : ∀ a ∈ T.addrs r, a ∉ T.addrs l' := fun a ha =>
    hg.not_mem (fun hl => hdisj a hl ha) (hs.2.2.allocated ha)
  have hne : ∀ a ∈ T.addrs r, a ≠ T.addr b := fun a ha heq => hbr (heq ▸ ha)
  refine ⟨(hg.frame _ hb).trans hs.1, ?_, ⟨Function.update_self .., ?_, ?_⟩, ?_⟩
  · exact hg.toGrown.link (fun _ => mem_addrs_node) fun _ => mem_addrs_node
  · refine hg.stored.congr fun a ha => Function.update_of_ne ?_ _ _
    exact fun heq => hb (heq ▸ ha)
  · refine hs.2.2.congr fun a ha => ?_
    rw [Function.update_of_ne (hne a ha), hg.frame a (hr a ha)]
  · exact nodup_addrs_node.2 ⟨⟨hb, hbr⟩, hg.nodup, hnr, fun a hl ha => hr a ha hl⟩

/-- The right child grows, and its parent is linked to it. -/
theorem Grows.right (hs : T.Stored h (.node b l r)) (hn : (T.addrs (.node b l r)).Nodup)
    (hg : T.Grows h r h' r') :
    h' (T.addr b) = some (T.cell b (T.ptr l) (T.ptr r)) ∧
      T.Grows h (.node b l r)
        (Function.update h' (T.addr b) (some (T.cell b (T.ptr l) (T.ptr r')))) (.node b l r') := by
  obtain ⟨⟨hbl, hbr⟩, hnl, hnr, hdisj⟩ := nodup_addrs_node.1 hn
  have hb : T.addr b ∉ T.addrs r' := hg.not_mem hbr (hs.allocated List.mem_cons_self)
  have hl : ∀ a ∈ T.addrs l, a ∉ T.addrs r' := fun a ha =>
    hg.not_mem (fun hr => hdisj a ha hr) (hs.2.1.allocated ha)
  have hne : ∀ a ∈ T.addrs l, a ≠ T.addr b := fun a ha heq => hbl (heq ▸ ha)
  -- the children are looked at in the other order
  have hmem : ∀ {r : BinaryTree β} (a : ℕ),
      a ∈ T.addrs (.node b l r) ↔ a = T.addr b ∨ a ∈ T.addrs r ∨ a ∈ T.addrs l := fun a =>
    mem_addrs_node.trans (or_congr_right or_comm)
  refine ⟨(hg.frame _ hb).trans hs.1, ?_, ⟨Function.update_self .., ?_, ?_⟩, ?_⟩
  · exact hg.toGrown.link hmem hmem
  · refine hs.2.1.congr fun a ha => ?_
    rw [Function.update_of_ne (hne a ha), hg.frame a (hl a ha)]
  · refine hg.stored.congr fun a ha => Function.update_of_ne ?_ _ _
    exact fun heq => hb (heq ▸ ha)
  · exact nodup_addrs_node.2 ⟨⟨hbl, hb⟩, hnl, hg.nodup, hl⟩

end TreeLayout

end CAcheRein
