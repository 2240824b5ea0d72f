import CAcheRein.Bits.Checked
import CAcheRein.Bst.Height
import CAcheRein.Bst.Insert

/-!
# Looking at the tree in memory

`bst_inorder`, `bst_find_min` and `bst_height` on the level of pointers, next to `bst_search`
(`Insert.lean`).  They do what the functions on trees do and only read, so on the tree that any
inserts have built, with any allocation failures among them, they agree on one sorted list of
values: those for which some insert was given a node (`BstHeap.inserts_observed`).  If every
`malloc` of the run succeeded, these are the inserted values, each once.
-/

namespace CAcheRein

namespace BstHeap

open Bst SearchTree TreeLayout

/-- `bst_find_min`. -/
def bstFindMin : ℕ → Mem Node → Option ℕ → Option (Option ℕ × Mem Node)
  | 0, _, _ => none
  | _ + 1, m, none => some (none, m)
  | fuel + 1, m, some root => do
    let (c, m) ← m.read root
    if c.left = none then some (some root, m) else bstFindMin fuel m c.left

/-- A traversal that visits the left child, the node and the right child, and combines what it
gets; the links are read when they are followed. -/
def traverse {γ : Type} (base : γ) (combine : γ → Node → γ → γ) :
    ℕ → Mem Node → Option ℕ → Option (γ × Mem Node)
  | 0, _, _ => none
  | _ + 1, m, none => some (base, m)
  | fuel + 1, m, some root => do
    let (c, m) ← m.read root
    let (left, m) ← traverse base combine fuel m c.left
    let (c, m) ← m.read root
    let (right, m) ← traverse base combine fuel m c.right
    some (combine left c right, m)

/-- `bst_inorder`, with the values it prints. -/
def bstInorder : ℕ → Mem Node → Option ℕ → Option (List UInt32 × Mem Node) :=
  traverse [] fun before c after => before ++ [c.value] ++ after

/-- `bst_height`.  Its `int` wraps around at a height of `2 ^ 31`, where C leaves it open. -/
def bstHeight : ℕ → Mem Node → Option ℕ → Option (Int32 × Mem Node) :=
  traverse 0 fun leftH _ rightH => 1 + (if leftH > rightH then leftH else rightH)

/-- What a function that only looks at the tree returns. -/
def Answers {γ : Type} (m : Mem Node) (run : ℕ → Option (γ × Mem Node)) (r : γ) : Prop :=
  ∃ m', Returns run (r, m') ∧ m'.heap = m.heap

/-- The observers agree that the tree at `p` holds the values `ws`, in this order. -/
structure Observed (m : Mem Node) (p : Option ℕ) (ws : List UInt32) : Prop where
  sorted : ws.Pairwise (· < ·)
  inorder : Answers m (fun fuel => bstInorder fuel m p) ws
  search : ∀ w, ∃ found, Answers m (fun fuel => bstSearch fuel m p w) found ∧
    (found ≠ none ↔ w ∈ ws) ∧ ∀ a, found = some a → ∃ c, m.heap a = some c ∧ c.value = w
  findMin : ∃ found, Answers m (fun fuel => bstFindMin fuel m p) found ∧
    (found.bind m.heap).map Node.value = ws.head?
  height : ∃ n, Answers m (fun fuel => bstHeight fuel m p) n ∧
    (ws.length < 2 ^ 31 → ∃ h : ℕ, n.toInt = h ∧ ws.length < 2 ^ h ∧ h ≤ ws.length)

/-- The insert of `v` behind those of `pre`, from a NULL root, finds the memory `m` and leaves
`m'`. -/
def InsertsAt (P : Policy Node) (h₀ : Heap Node) (pre : List UInt32) (v : UInt32)
    (m m' : Mem Node) : Prop :=
  ∃ p p', Returns (fun fuel => insertAll P fuel (none, .start h₀) pre) (p, m) ∧
    Returns (fun fuel => bstInsert P fuel m p v) (p', m')

/-- Some insert of `w` among those of `vs` called `malloc` and was given a node. -/
def GetsNode (P : Policy Node) (h₀ : Heap Node) (vs : List UInt32) (w : UInt32) : Prop :=
  ∃ pre post m m', vs = pre ++ w :: post ∧ InsertsAt P h₀ pre w m m' ∧ m.calls < m'.calls ∧
    P m.heap m.calls ≠ none

/-- Every insert of `vs` that called `malloc` was given a node. -/
def Succeeds (P : Policy Node) (h₀ : Heap Node) (vs : List UInt32) : Prop :=
  ∀ pre v post m m', vs = pre ++ v :: post → InsertsAt P h₀ pre v m m' → m.calls < m'.calls →
    P m.heap m.calls ≠ none

variable {P : Policy Node} {h₀ : Heap Node} {m m' : Mem Node} {p : Option ℕ} {t : BstNode}
  {c : Cell} {l r : BstNode} {v w : UInt32} {vs : List UInt32}

/-! ### The observers in memory and on trees -/

/-- One node of a traversal. -/
theorem traverse_node {γ : Type} {base left right : γ} {combine : γ → Node → γ → γ}
    {m m₁ m₂ : Mem Node} {root f : ℕ} {c c₁ : Node} (hc : m.heap root = some c)
    (hl : traverse base combine f (m.log (.read root)) c.left = some (left, m₁))
    (hc₁ : m₁.heap root = some c₁)
    (hr : traverse base combine f (m₁.log (.read root)) c₁.right = some (right, m₂)) :
    traverse base combine (f + 1) m (some root) = some (combine left c₁ right, m₂) := by
  simp only [traverse, Mem.read_of_some hc, Option.bind_eq_bind, Option.bind_some, hl,
    Mem.read_of_some hc₁, hr]

/-- **A traversal in memory folds the tree**, and changes nothing. -/
theorem traverse_spec {γ : Type} (base : γ) (combine : γ → Node → γ → γ) (F : BstNode → γ)
    (hnil : F .nil = base)
    (hnode : ∀ c l r p q, F (.node c l r) = combine (F l) ⟨c.value, p, q⟩ (F r))
    (t : BstNode) : ∀ m : Mem Node, layout.Stored m.heap t → ∃ m', (∀ fuel, t.height < fuel →
      traverse base combine fuel m (layout.ptr t) = some (F t, m')) ∧ m'.heap = m.heap := by
  induction t with
  | nil =>
    intro m _
    refine ⟨m, fun fuel hfuel => ?_, rfl⟩
    obtain ⟨f, rfl⟩ := Nat.exists_eq_add_one.2 hfuel
    rw [hnil]
    rfl
  | node c l r ihl ihr =>
    intro m hs
    obtain ⟨m₁, hl, hheap₁⟩ := ihl (m.log (.read c.addr)) hs.2.1
    have hc₁ : m₁.heap c.addr = some ⟨c.value, layout.ptr l, layout.ptr r⟩ :=
      (congrFun hheap₁ _).trans hs.1
    have hs₁ : layout.Stored m₁.heap r := by
      rw [hheap₁]
      exact hs.2.2
    obtain ⟨m₂, hr, hheap₂⟩ := ihr (m₁.log (.read c.addr)) hs₁
    refine ⟨m₂, fun fuel hfuel => ?_, hheap₂.trans hheap₁⟩
    obtain ⟨f, rfl, hfl, hfr⟩ := fuel_of_height hfuel
    rw [hnode c l r]
    exact traverse_node hs.1 (hl f hfl) hc₁ (hr f hfr)

theorem bstInorder_spec (t : BstNode) (m : Mem Node) (hs : layout.Stored m.heap t) : ∃ m',
    (∀ fuel, t.height < fuel →
      bstInorder fuel m (layout.ptr t) = some (Bst.bstInorder t, m')) ∧ m'.heap = m.heap :=
  traverse_spec [] (fun before c after => before ++ [c.value] ++ after) Bst.bstInorder rfl
    (fun _ _ _ _ _ => rfl) t m hs

/-- The height of a tree, in `int`. -/
def intHeight : BstNode → Int32
  | .nil => 0
  | .node _ l r => 1 + (if intHeight l > intHeight r then intHeight l else intHeight r)

/-- It is the height, if that is an `int`. -/
theorem toInt_intHeight (t : BstNode) (h : t.height < 2 ^ 31) :
    (intHeight t).toInt = Bst.bstHeight t := by
  rw [Bst.bstHeight_eq]
  induction t with
  | nil => rfl
  | node c l r ihl ihr =>
    rw [BinaryTree.height] at h ⊢
    have hl := ihl (by omega)
    have hr := ihr (by omega)
    have hmax : (if intHeight l > intHeight r then intHeight l else intHeight r).toInt =
        (max l.height r.height : ℕ) := by
      split_ifs with hlt <;> rw [gt_iff_lt, Int32.lt_iff_toInt_lt, hl, hr] at hlt <;> omega
    have hfits : InInt32 ((1 : Int32).toInt + (max l.height r.height : ℕ)) := by
      rw [Int32.toInt_one]
      exact ⟨by omega, by omega⟩
    rw [← hmax] at hfits
    rw [intHeight, toInt_add_of_inInt32 hfits, hmax, Int32.toInt_one]
    omega

theorem bstHeight_spec (t : BstNode) (m : Mem Node) (hs : layout.Stored m.heap t) : ∃ m',
    (∀ fuel, t.height < fuel →
      bstHeight fuel m (layout.ptr t) = some (intHeight t, m')) ∧ m'.heap = m.heap :=
  traverse_spec 0 (fun leftH _ rightH => 1 + (if leftH > rightH then leftH else rightH))
    intHeight rfl (fun _ _ _ _ _ => rfl) t m hs

/-- `bst_find_min` in memory finds what it finds on trees. -/
theorem bstFindMin_spec (t : BstNode) : ∀ m : Mem Node, layout.Stored m.heap t →
    ∃ m', (∀ fuel, t.height < fuel →
      bstFindMin fuel m (layout.ptr t) = some (layout.ptr (Bst.bstFindMin t), m')) ∧
      m'.heap = m.heap := by
  induction t with
  | nil =>
    intro m _
    refine ⟨m, fun fuel hfuel => ?_, rfl⟩
    obtain ⟨f, rfl⟩ := Nat.exists_eq_add_one.2 hfuel
    rfl
  | node c l r ihl _ =>
    intro m hs
    obtain ⟨m₁, hl, hheap⟩ := ihl (m.log (.read c.addr)) hs.2.1
    -- the cell of the root is read, whatever comes next
    have hstep : ∀ f, bstFindMin (f + 1) m (layout.ptr (.node c l r)) =
        if layout.ptr l = none then some (some c.addr, m.log (.read c.addr))
        else bstFindMin f (m.log (.read c.addr)) (layout.ptr l) := by
      intro f
      have hread := Mem.read_of_some hs.1
      change ((m.read c.addr).bind _) = _
      rw [show m.read c.addr = _ from hread]
      rfl
    cases l with
    | nil =>
      refine ⟨m.log (.read c.addr), fun fuel hfuel => ?_, rfl⟩
      obtain ⟨f, rfl, -⟩ := fuel_of_height hfuel
      exact hstep f
    | node c' l' r' =>
      refine ⟨m₁, fun fuel hfuel => ?_, hheap⟩
      obtain ⟨f, rfl, hf, -⟩ := fuel_of_height hfuel
      have hne : layout.ptr (.node c' l' r') ≠ none := Option.some_ne_none _
      rw [hstep, if_neg hne, hl f hf]
      rfl

/-- The first value of a search tree is the least one. -/
theorem head_keys (hord : Ordered Cell.value t) :
    (layout.ptr (Bst.bstFindMin t)).isSome = (keys Cell.value t).head?.isSome ∧
      ∀ a, layout.ptr (Bst.bstFindMin t) = some a →
        ∃ x, ⟨a, x⟩ ∈ inorder t ∧ (keys Cell.value t).head? = some x := by
  by_cases ht : t = .nil
  · subst ht
    exact ⟨rfl, fun a ha => nomatch ha⟩
  · obtain ⟨c, l, r, hmin, hleast, hmem⟩ := Bst.bstFindMin_spec hord ht
    have hsorted := hord.sorted_keys
    obtain ⟨hc, hle⟩ := hleast
    have hhead : (keys Cell.value t).head? = some c.value := by
      cases hk : keys Cell.value t with
      | nil =>
        rw [Set.mem_ofPred_eq, hk] at hc
        cases hc
      | cons x xs =>
        rw [hk] at hsorted
        have hx : c.value ≤ x := hle (by rw [Set.mem_ofPred_eq, hk]; exact List.mem_cons_self)
        rw [Set.mem_ofPred_eq, hk] at hc
        rcases List.mem_cons.1 hc with rfl | hxs
        · rfl
        · exact absurd ((List.pairwise_cons.1 hsorted).1 _ hxs) (not_lt.2 hx)
    rw [hmin, hhead]
    refine ⟨rfl, fun a ha => ?_⟩
    obtain rfl : c.addr = a := Option.some.inj ha
    exact ⟨c.value, hmem, rfl⟩

/-- **The observers agree** on the values of a search tree in memory. -/
theorem observed_of_stored (hs : layout.Stored m.heap t) (hord : Ordered Cell.value t) :
    Observed m (layout.ptr t) (keys Cell.value t) := by
  refine ⟨hord.sorted_keys, ?_, fun w => ?_, ?_, ?_⟩
  · obtain ⟨m', hrun, hheap⟩ := bstInorder_spec t m hs
    rw [Bst.bstInorder_eq] at hrun
    exact ⟨m', ⟨t.height + 1, fun fuel hfuel => hrun fuel hfuel⟩, hheap⟩
  · obtain ⟨m', hrun, hheap⟩ := bstSearch_spec w t m hs
    refine ⟨_, ⟨m', ⟨t.height + 1, fun fuel hfuel => hrun fuel hfuel⟩, hheap⟩, ?_, fun a ha => ?_⟩
    · by_cases hw : w ∈ keys Cell.value t
      · obtain ⟨c, l, r, hsearch, -⟩ := bstSearch_of_mem hord hw
        rw [hsearch]
        exact iff_of_true (Option.some_ne_none _) hw
      · rw [bstSearch_of_not_mem hw]
        exact iff_of_false (fun hne => hne rfl) hw
    · obtain ⟨-, l, r, hcell⟩ := stored_cell hs ((ptr_bstSearch hord).1 ha)
      exact ⟨_, hcell, rfl⟩
  · obtain ⟨m', hrun, hheap⟩ := bstFindMin_spec t m hs
    refine ⟨_, ⟨m', ⟨t.height + 1, fun fuel hfuel => hrun fuel hfuel⟩, hheap⟩, ?_⟩
    obtain ⟨hsome, hfirst⟩ := head_keys hord
    cases hp : layout.ptr (Bst.bstFindMin t) with
    | none =>
      rw [hp] at hsome
      cases hk : (keys Cell.value t).head? with
      | none => rfl
      | some x =>
        rw [hk] at hsome
        cases hsome
    | some a =>
      obtain ⟨x, hx, hhead⟩ := hfirst a hp
      obtain ⟨-, l, r, hcell⟩ := stored_cell hs hx
      rw [hhead, Option.bind_some, hcell]
      rfl
  · obtain ⟨m', hrun, hheap⟩ := bstHeight_spec t m hs
    refine ⟨_, ⟨m', ⟨t.height + 1, fun fuel hfuel => hrun fuel hfuel⟩, hheap⟩, fun hlen => ?_⟩
    rw [length_keys] at hlen ⊢
    have hle : t.height ≤ t.numNodes := t.height_le_numNodes
    refine ⟨Bst.bstHeight t, toInt_intHeight t (hle.trans_lt hlen), ?_, ?_⟩
    · rw [Bst.bstHeight_eq]
      exact numNodes_lt_two_pow t
    · rw [Bst.bstHeight_eq]
      exact hle

/-! ### Any inserts -/

/-- The values after an insert: the new one too, if `malloc` was called and gave a node. -/
theorem mem_keys_inserted (hord : Ordered Cell.value t) :
    w ∈ keys Cell.value (inserted P m t v) ↔ w ∈ keys Cell.value t ∨
      w = v ∧ m.calls < (Bst.bstInsert t v (asked P m)).2.calls ∧ P m.heap m.calls ≠ none := by
  obtain ⟨hold, hnew⟩ := inserted_cases P m hord v
  by_cases hv : v ∈ keys Cell.value t
  · rw [(hold hv).1, (hold hv).2]
    simp
  · rw [(hnew hv).1, (hnew hv).2, mem_keys_graft hv]
    cases hP : P m.heap m.calls with
    | none =>
      rw [inserted_nil_of_none hP]
      simp
    | some x =>
      obtain ⟨a, junk⟩ := x
      rw [inserted_nil_of_some hP]
      simp

theorem insertAll_concat (fuel : ℕ) (s : Option ℕ × Mem Node) (vs : List UInt32) (v : UInt32) :
    insertAll P fuel s (vs ++ [v]) =
      (insertAll P fuel s vs).bind fun s => bstInsert P fuel s.2 s.1 v := by
  induction vs generalizing s with
  | nil =>
    change (bstInsert P fuel s.2 s.1 v).bind some = _
    rw [Option.bind_fun_some]
    rfl
  | cons u vs ih =>
    change (bstInsert P fuel s.2 s.1 u).bind (fun s => insertAll P fuel s (vs ++ [v])) = _
    simp only [ih]
    exact (Option.bind_assoc ..).symm

theorem returns_concat {p' : Option ℕ}
    (h : Returns (fun fuel => insertAll P fuel (none, .start h₀) vs) (p, m))
    (h' : Returns (fun fuel => bstInsert P fuel m p v) (p', m')) :
    Returns (fun fuel => insertAll P fuel (none, .start h₀) (vs ++ [v])) (p', m') := by
  obtain ⟨n, hn⟩ := h
  obtain ⟨n', hn'⟩ := h'
  refine ⟨max n n', fun fuel hfuel => ?_⟩
  have hruns : insertAll P fuel (none, .start h₀) vs = some (p, m) :=
    hn fuel (le_of_max_le_left hfuel)
  refine (insertAll_concat fuel _ vs v).trans ?_
  rw [hruns]
  exact hn' fuel (le_of_max_le_right hfuel)

theorem not_getsNode_nil : ¬ GetsNode P h₀ [] w := by
  rintro ⟨pre, post, -, -, heq, -⟩
  simp at heq

theorem GetsNode.append (h : GetsNode P h₀ vs w) (us : List UInt32) :
    GetsNode P h₀ (vs ++ us) w := by
  obtain ⟨pre, post, m, m', rfl, hrest⟩ := h
  exact ⟨pre, post ++ us, m, m', by rw [List.append_assoc, List.cons_append], hrest⟩

/-- One more insert. -/
theorem getsNode_concat_iff {p' : Option ℕ}
    (h : Returns (fun fuel => insertAll P fuel (none, .start h₀) vs) (p, m))
    (h' : Returns (fun fuel => bstInsert P fuel m p v) (p', m')) :
    GetsNode P h₀ (vs ++ [v]) w ↔
      GetsNode P h₀ vs w ∨ w = v ∧ m.calls < m'.calls ∧ P m.heap m.calls ≠ none := by
  constructor
  · rintro ⟨pre, post, m₁, m₂, heq, ⟨q, q', hpre, hins⟩, hgot⟩
    rcases List.eq_nil_or_concat post with rfl | ⟨post, x, rfl⟩
    · -- the last insert: the memory before and behind it is the given one
      obtain ⟨rfl, hv⟩ := List.append_inj' heq rfl
      obtain rfl := List.singleton_injective hv
      cases hpre.unique h
      cases hins.unique h'
      exact .inr ⟨rfl, hgot⟩
    · rw [List.concat_eq_append, ← List.cons_append, ← List.append_assoc] at heq
      obtain ⟨rfl, -⟩ := List.append_inj' heq rfl
      exact .inl ⟨pre, post, m₁, m₂, rfl, ⟨q, q', hpre, hins⟩, hgot⟩
  · rintro (hold | ⟨rfl, hgot⟩)
    · exact hold.append [v]
    · exact ⟨vs, [], m, m', rfl, ⟨p, p', h, h'⟩, hgot⟩

/-- The tree any inserts leave holds exactly the values that were given a node. -/
theorem exists_stored (P : Policy Node) (h₀ : Heap Node) (vs : List UInt32) : ∃ m t,
    Returns (fun fuel => insertAll P fuel (none, .start h₀) vs) (layout.ptr t, m) ∧
      layout.Stored m.heap t ∧ (layout.addrs t).Nodup ∧ Ordered Cell.value t ∧
      ∀ w, w ∈ keys Cell.value t ↔ GetsNode P h₀ vs w := by
  induction vs using List.reverseRecOn with
  | nil =>
    exact ⟨.start h₀, .nil, ⟨0, fun _ _ => rfl⟩, trivial, .nil, trivial,
      fun _ => iff_of_false List.not_mem_nil not_getsNode_nil⟩
  | append_singleton vs v ih =>
    obtain ⟨m, t, hruns, hs, hn, hord, hkeys⟩ := ih
    obtain ⟨m', hrun, hg, hcalls⟩ := bstInsert_spec (P := P) v t m hs hn
    have hinsert : Returns (fun fuel => bstInsert P fuel m (layout.ptr t) v)
        (layout.ptr (inserted P m t v), m') := ⟨t.height + 1, fun fuel hfuel => hrun fuel hfuel⟩
    refine ⟨m', inserted P m t v, returns_concat hruns hinsert, hg.stored, hg.nodup,
      ordered_bstInsert hord v _, fun w => ?_⟩
    rw [mem_keys_inserted hord, getsNode_concat_iff hruns hinsert, hkeys, hcalls]

/-- If every `malloc` of the run succeeds, every value is given a node. -/
theorem getsNode_of_succeeds (h : Succeeds P h₀ vs) (hw : w ∈ vs) : GetsNode P h₀ vs w := by
  obtain ⟨pre, post, rfl⟩ := List.append_of_mem hw
  obtain ⟨m, t, hruns, hs, hn, hord, hkeys⟩ := exists_stored P h₀ pre
  obtain ⟨m', hrun, -, hcalls⟩ := bstInsert_spec (P := P) w t m hs hn
  have hins : InsertsAt P h₀ pre w m m' :=
    ⟨_, _, hruns, ⟨t.height + 1, fun fuel hfuel => hrun fuel hfuel⟩⟩
  by_cases hold : w ∈ keys Cell.value t
  · exact ((hkeys w).1 hold).append (w :: post)
  · have hlt : m.calls < m'.calls := by
      rw [hcalls, ((inserted_cases P m hord w).2 hold).2]
      exact Nat.lt_succ_self _
    exact ⟨pre, post, m, m', rfl, hins, hlt, h pre w post m m' rfl hins hlt⟩

/-- **What a traversal, a search, the minimum and the height say after any inserts.**  From any
heap and a NULL root, with any pattern of allocation failures, the inserts end, and then there is
one strictly increasing list such that `bst_inorder` prints it, `bst_search` finds exactly its
members, `bst_find_min` finds its first, and `bst_height` is between the logarithm of its length
and its length, as long as that is an `int`; none of these changes the heap.  Its members are the
values for which some insert was given a node; if no `malloc` of the run failed, these are all the
inserted values. -/
theorem inserts_observed (h₀ : Heap Node) (P : Policy Node) (vs : List UInt32) : ∃ p m ws,
    Returns (fun fuel => insertAll P fuel (none, Mem.start h₀) vs) (p, m) ∧ Observed m p ws ∧
      (∀ w, w ∈ ws ↔ GetsNode P h₀ vs w) ∧ (Succeeds P h₀ vs → ∀ w, w ∈ ws ↔ w ∈ vs) := by
  obtain ⟨m, t, hrun, hs, -, hord, hkeys⟩ := exists_stored P h₀ vs
  refine ⟨layout.ptr t, m, keys Cell.value t, hrun, observed_of_stored hs hord, hkeys,
    fun hall w => ?_⟩
  rw [hkeys]
  refine ⟨?_, getsNode_of_succeeds hall⟩
  rintro ⟨pre, post, -, -, rfl, -⟩
  exact List.mem_append_right pre List.mem_cons_self

/-- 50 and 40, with cells given out in the order of the calls. -/
theorem inserts_observed_two_nodes :
    let P : Policy Node := fun h n =>
      if hfree : h n = none then some (⟨n, hfree⟩, ⟨0, none, none⟩) else none
    Succeeds P (fun _ => none) [50, 40] ∧ ∃ p m ws,
      Returns (fun fuel => insertAll P fuel (none, Mem.start fun _ => none) [50, 40]) (p, m) ∧
        Observed m p ws ∧ ∀ w, w ∈ ws ↔ w ∈ [50, 40] := by
  intro P
  have hsucceeds : Succeeds P (fun _ => none) [50, 40] := by
    rintro pre v post m m' heq ⟨p, p', hpre, -⟩ -
    have hfree : m.heap m.calls = none := by
      rcases pre with _ | ⟨a, _ | ⟨b, pre⟩⟩
      · cases hpre.unique (⟨0, fun _ _ => rfl⟩ : Returns _ (none, Mem.start fun _ => none))
        rfl
      · obtain ⟨n, hn⟩ := hpre
        obtain ⟨rfl, -⟩ := List.cons.inj heq
        have hm : some (some 0, Mem.mk _ 1 _) = some (p, m) := hn (n + 1) (Nat.le_succ n)
        cases hm
        rfl
      · simp at heq
    rw [show P m.heap m.calls = _ from dif_pos hfree]
    exact Option.some_ne_none _
  obtain ⟨p, m, ws, hrun, hobserved, -, hall⟩ := inserts_observed (fun _ => none) P [50, 40]
  exact ⟨hsucceeds, p, m, ws, hrun, hobserved, hall hsucceeds⟩

end BstHeap

end CAcheRein
