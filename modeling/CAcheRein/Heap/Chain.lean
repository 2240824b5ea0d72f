import CAcheRein.Heap.Basic

/-!
# Chains of cells

A list stored in a heap cell by cell, each cell with a pointer to the next and the last with NULL.
`Layout` says how an element is stored; the list itself carries the addresses of its elements.

## Main results

* `Layout.Chain.nodup` : a chain that ends has no two elements at one address, so no cycle.
* `Layout.Chain.congr` : a chain is not affected by what happens elsewhere in the heap.
* `Layout.Chain.link` : writing the address of a new cell into the last one appends it.
-/

namespace CAcheRein

/-- How elements of `β` are stored in cells of `α` with one pointer. -/
structure Layout (α β : Type*) where
  /-- The address of an element. -/
  addr : β → ℕ
  /-- The cell of an element, with a pointer to the next. -/
  cell : β → Option ℕ → α
  /-- The pointer of a cell. -/
  next : α → Option ℕ
  next_cell : ∀ b p, next (cell b p) = p

namespace Layout

variable {α β : Type*} (L : Layout α β)

/-- The pointer to the first cell. -/
def ptr : List β → Option ℕ
  | [] => none
  | b :: _ => some (L.addr b)

/-- The elements `bs` are stored in `h` as a chain. -/
def Chain (h : Heap α) : List β → Prop
  | [] => True
  | b :: bs => h (L.addr b) = some (L.cell b (L.ptr bs)) ∧ Chain h bs

variable {L} {h h' : Heap α} {b x : β} {bs bs' : List β}

theorem ptr_concat_append (bs bs' : List β) (b : β) :
    L.ptr (bs ++ b :: bs') = L.ptr (bs ++ [b]) := by
  cases bs <;> rfl

/-- A list with a last element has a first. -/
theorem exists_ptr_concat (bs : List β) (b : β) : ∃ a, L.ptr (bs ++ [b]) = some a := by
  cases bs <;> exact ⟨_, rfl⟩

theorem Chain.congr (hc : L.Chain h bs) (heq : ∀ b ∈ bs, h' (L.addr b) = h (L.addr b)) :
    L.Chain h' bs := by
  induction bs with
  | nil => trivial
  | cons b bs ih =>
    refine ⟨(heq b List.mem_cons_self).trans hc.1, ih hc.2 fun x hx => ?_⟩
    exact heq x (List.mem_cons_of_mem _ hx)

theorem Chain.allocated (hc : L.Chain h bs) (hb : b ∈ bs) : h (L.addr b) ≠ none := by
  induction bs with
  | nil => cases hb
  | cons x bs ih =>
    rcases List.mem_cons.1 hb with rfl | hb
    · rw [hc.1]
      exact Option.some_ne_none _
    · exact ih hc.2 hb

theorem Chain.append_right (hc : L.Chain h (bs ++ bs')) : L.Chain h bs' := by
  induction bs with
  | nil => exact hc
  | cons b bs ih => exact ih hc.2

/-- The last cell of a chain has no next. -/
theorem Chain.last (hc : L.Chain h (bs ++ [b])) : h (L.addr b) = some (L.cell b none) :=
  hc.append_right.1

/-- Chains from one pointer are equally long. -/
theorem Chain.length_eq (hc : L.Chain h bs) (hc' : L.Chain h bs') (hp : L.ptr bs = L.ptr bs') :
    bs.length = bs'.length := by
  induction bs generalizing bs' with
  | nil =>
    cases bs' with
    | nil => rfl
    | cons b' bs' => cases hp
  | cons b bs ih =>
    cases bs' with
    | nil => cases hp
    | cons b' bs' =>
      have hcell : L.cell b (L.ptr bs) = L.cell b' (L.ptr bs') := by
        have haddr : L.addr b = L.addr b' := Option.some.inj hp
        exact Option.some.inj (hc.1.symm.trans ((congrArg h haddr).trans hc'.1))
      have hnext : L.ptr bs = L.ptr bs' := by
        rw [← L.next_cell b (L.ptr bs), hcell, L.next_cell]
      rw [List.length_cons, List.length_cons, ih hc.2 hc'.2 hnext]

/-- **A chain is acyclic**: no two of its elements are at one address. -/
theorem Chain.nodup (hc : L.Chain h bs) : (bs.map L.addr).Nodup := by
  induction bs with
  | nil => exact .nil
  | cons b bs ih =>
    rw [List.map_cons, List.nodup_cons]
    refine ⟨fun hmem => ?_, ih hc.2⟩
    obtain ⟨b', hb', haddr⟩ := List.mem_map.1 hmem
    obtain ⟨l₁, l₂, rfl⟩ := List.append_of_mem hb'
    -- from the second visit on, the chain would have to be as long as from the first
    have hsuffix : L.Chain h (b' :: l₂) := hc.2.append_right
    have hlen := hsuffix.length_eq hc (congrArg some haddr)
    simp only [List.length_cons, List.length_append] at hlen
    omega

/-- What becomes of the first cell does not affect the rest of the chain. -/
theorem Chain.tail_update (hc : L.Chain h (b :: bs)) (c : Option α) :
    L.Chain (Function.update h (L.addr b) c) bs := by
  obtain ⟨hb, -⟩ := List.nodup_cons.1 (List.map_cons ▸ hc.nodup)
  refine hc.2.congr fun x hx => Function.update_of_ne (fun heq => hb ?_) _ _
  exact List.mem_map.2 ⟨x, hx, heq⟩

/-- Appending: the last cell is linked to a new one, and the others stay. -/
theorem Chain.link (hc : L.Chain h (bs ++ [b]))
    (heq : ∀ x ∈ bs, h' (L.addr x) = h (L.addr x))
    (hlast : h' (L.addr b) = some (L.cell b (some (L.addr x))))
    (hnew : h' (L.addr x) = some (L.cell x none)) : L.Chain h' (bs ++ [b, x]) := by
  induction bs with
  | nil => exact ⟨hlast, hnew, trivial⟩
  | cons c bs ih =>
    refine ⟨?_, ih hc.2 fun y hy => heq y (List.mem_cons_of_mem _ hy)⟩
    rw [heq c List.mem_cons_self, hc.1]
    change some (L.cell c (L.ptr (bs ++ [b]))) = some (L.cell c (L.ptr (bs ++ [b, x])))
    rw [ptr_concat_append bs [x]]

end Layout

end CAcheRein
