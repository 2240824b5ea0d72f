import CAcheRein.LinkedList.Basic

/-!
# The linked list in memory

`Elem` is a list element with its address; a list of them describes the chain in memory, and each
function is specified by what it does to that list.  `list_safe` puts the specifications together:
whatever is pushed, with whatever allocations failing, the chain is the abstract list, and
`list_free` gives back exactly its cells.
-/

namespace CAcheRein

namespace LinkedList

open Layout

/-- An element of the list and the address of its node. -/
structure Elem where
  addr : ℕ
  data : UInt8

/-- How an element lies in memory. -/
def layout : Layout Node Elem where
  addr := Elem.addr
  cell e p := ⟨e.data, p⟩
  next := Node.next
  next_cell _ _ := rfl

/-- The addresses of some elements. -/
abbrev addrs (es : List Elem) : List ℕ := es.map Elem.addr

variable {P : Policy Node} {m : Mem Node} {es : List Elem}

/-! ### Pushing -/

theorem nodeCreate_of_none (h : P m.heap m.calls = none) (data : UInt8) :
    nodeCreate P data m = some (none, { m with calls := m.calls + 1 }) := by
  rw [nodeCreate, Mem.malloc_of_none h]

theorem nodeCreate_of_some (h : (P m.heap m.calls).isSome) (data : UInt8) :
    ∃ n m', m.heap n = none ∧ nodeCreate P data m = some (some n, m') ∧
      m'.heap = Function.update m.heap n (some ⟨data, none⟩) := by
  obtain ⟨⟨⟨n, hn⟩, junk⟩, hP⟩ := Option.isSome_iff_exists.1 h
  rw [nodeCreate, Mem.malloc_of_some hP]
  dsimp only
  rw [Option.bind_eq_bind, Mem.modify_of_some (Function.update_self ..), Option.bind_some,
    Mem.modify_of_some (Function.update_self ..), Option.bind_some]
  exact ⟨n, _, hn, rfl, by simp only [Function.update_idem]⟩

/-- A call whose allocation fails changes neither `*head` nor any cell. -/
theorem listCall_of_none (h : P m.heap m.calls = none) (fuel : ℕ) (head : Option ℕ)
    (c : ListCall) :
    listCall P fuel (head, m) c = some (head, { m with calls := m.calls + 1 }) := by
  cases c with
  | pushFront data => simp only [listCall, listPushFront, nodeCreate_of_none h]; rfl
  | pushBack data => simp only [listCall, listPushBack, nodeCreate_of_none h]; rfl

theorem walk_last {a f : ℕ} {data : UInt8} (hc : m.heap a = some ⟨data, none⟩) :
    walk (f + 1) m a = some (a, m.log (.read a)) := by
  rw [walk, Mem.read_of_some hc]; rfl

theorem walk_next {a b f : ℕ} {data : UInt8} (hc : m.heap a = some ⟨data, some b⟩) :
    walk (f + 1) m a = walk f (m.log (.read a)) b := by
  rw [walk, Mem.read_of_some hc]; rfl

/-- The loop of `list_push_back` finds the last node. -/
theorem walk_spec (e : Elem) (es : List Elem) : ∀ (m : Mem Node) (a : ℕ),
    layout.Chain m.heap (es ++ [e]) → layout.ptr (es ++ [e]) = some a →
    ∃ m', (∀ fuel, es.length < fuel → walk fuel m a = some (e.addr, m')) ∧ m'.heap = m.heap := by
  induction es with
  | nil =>
    intro m a hc hp
    cases hp
    refine ⟨m.log (.read e.addr), fun fuel hfuel => ?_, rfl⟩
    obtain ⟨f, rfl⟩ := Nat.exists_eq_add_one.2 hfuel
    exact walk_last hc.1
  | cons x es ih =>
    intro m a hc hp
    cases hp
    obtain ⟨b, hb⟩ := layout.exists_ptr_concat es e
    obtain ⟨m', hrun, hheap⟩ := ih (m.log (.read x.addr)) b hc.2 hb
    refine ⟨m', fun fuel hfuel => ?_, hheap⟩
    rw [List.length_cons] at hfuel
    obtain ⟨f, rfl⟩ := Nat.exists_eq_add_one.2 (Nat.zero_lt_of_lt hfuel)
    have hcell : m.heap x.addr = some ⟨x.data, some b⟩ := by rw [← hb]; exact hc.1
    exact (walk_next hcell).trans (hrun f (by omega))

/-- What is stored at other addresses survives the creation of a node. -/
theorem ne_of_free {n : ℕ} (hc : layout.Chain m.heap es) (hn : m.heap n = none) :
    ∀ e ∈ es, e.addr ≠ n := by
  rintro e he rfl
  exact hc.allocated he hn

theorem listPushFront_spec (hP : (P m.heap m.calls).isSome) (hc : layout.Chain m.heap es)
    (data : UInt8) : ∃ n m',
      listPushFront P (layout.ptr es) data m = some (some n, m') ∧
      layout.Chain m'.heap (⟨n, data⟩ :: es) ∧
      Grown m.heap (addrs es) m'.heap (addrs (⟨n, data⟩ :: es)) := by
  obtain ⟨n, m₁, hn, hcreate, hheap⟩ := nodeCreate_of_some hP data
  have hcell : m₁.heap n = some ⟨data, none⟩ := by rw [hheap, Function.update_self]
  have hframe : ∀ a, a ≠ n →
      Function.update m₁.heap n (some ⟨data, layout.ptr es⟩) a = m.heap a := fun a ha => by
    rw [Function.update_of_ne ha, hheap, Function.update_of_ne ha]
  refine ⟨n, { m₁.log (.write n) with
      heap := Function.update m₁.heap n (some ⟨data, layout.ptr es⟩) },
    ?_, ⟨Function.update_self .., ?_⟩, .insert hn (fun a => List.mem_cons) fun a ha => ?_⟩
  · rw [listPushFront, hcreate, Option.bind_eq_bind, Option.bind_some]
    dsimp only
    rw [Mem.modify_of_some hcell]
    rfl
  · exact hc.congr fun e he => hframe _ (ne_of_free hc hn e he)
  · exact hframe a fun heq => ha (heq ▸ List.mem_cons_self)

/-- A push at the back of an empty list. -/
theorem listPushBack_nil {n f : ℕ} {m₁ : Mem Node} {data : UInt8}
    (hcreate : nodeCreate P data m = some (some n, m₁)) :
    listPushBack P f none data m = some (some n, m₁) := by
  rw [listPushBack, hcreate]; rfl

/-- A push at the back of a list, once its last node is found. -/
theorem listPushBack_link {n curr last f : ℕ} {m₁ m₂ : Mem Node} {c : Node} {data : UInt8}
    (hcreate : nodeCreate P data m = some (some n, m₁))
    (hwalk : walk f m₁ curr = some (last, m₂)) (hc : m₂.heap last = some c) :
    listPushBack P f (some curr) data m = some (some curr, { m₂.log (.write last) with
      heap := Function.update m₂.heap last (some { c with next := some n }) }) := by
  simp only [listPushBack, hcreate, Option.bind_eq_bind, Option.bind_some, hwalk,
    Mem.modify_of_some hc]

theorem listPushBack_spec (hP : (P m.heap m.calls).isSome) (hc : layout.Chain m.heap es)
    (data : UInt8) : ∃ n m',
      (∀ fuel, es.length < fuel → listPushBack P fuel (layout.ptr es) data m =
        some (layout.ptr (es ++ [⟨n, data⟩]), m')) ∧
      layout.Chain m'.heap (es ++ [⟨n, data⟩]) ∧
      Grown m.heap (addrs es) m'.heap (addrs (es ++ [⟨n, data⟩])) := by
  obtain ⟨n, m₁, hn, hcreate, hheap⟩ := nodeCreate_of_some hP data
  have hcell : m₁.heap n = some ⟨data, none⟩ := by rw [hheap, Function.update_self]
  have hframe : ∀ a, a ≠ n → m₁.heap a = m.heap a := fun a ha => by
    rw [hheap, Function.update_of_ne ha]
  have hmem : ∀ a, a ∈ addrs (es ++ [⟨n, data⟩]) ↔ a = n ∨ a ∈ addrs es := by
    intro a
    rw [addrs, List.map_append, List.mem_append, or_comm]
    exact or_congr_left List.mem_singleton
  have hne := ne_of_free hc hn
  rcases List.eq_nil_or_concat es with rfl | ⟨es, e, rfl⟩
  · refine ⟨n, m₁, fun fuel _ => listPushBack_nil hcreate, ⟨hcell, trivial⟩,
      .insert hn hmem fun a ha => hframe a fun heq => ha ((hmem a).2 (.inl heq))⟩
  · rw [List.concat_eq_append] at *
    have hc₁ : layout.Chain m₁.heap (es ++ [e]) := hc.congr fun x hx => hframe _ (hne x hx)
    obtain ⟨b, hb⟩ := layout.exists_ptr_concat es e
    obtain ⟨m₂, hwalk, hheap₂⟩ := walk_spec e es m₁ b hc₁ hb
    have hlast : m₂.heap e.addr = some ⟨e.data, none⟩ := by rw [hheap₂]; exact hc₁.last
    -- the last node is at an address of its own
    have hother : ∀ x ∈ es, x.addr ≠ e.addr := by
      have hnodup := hc₁.nodup
      rw [List.map_append, List.nodup_append] at hnodup
      exact fun x hx => hnodup.2.2 _ (List.mem_map_of_mem hx) _ (List.mem_singleton_self _)
    have hlink : ∀ a, a ≠ e.addr →
        Function.update m₂.heap e.addr (some ⟨e.data, some n⟩) a = m₁.heap a := fun a ha => by
      rw [Function.update_of_ne ha, hheap₂]
    refine ⟨n, { m₂.log (.write e.addr) with
        heap := Function.update m₂.heap e.addr (some ⟨e.data, some n⟩) }, fun fuel hfuel => ?_,
      ?_, ?_⟩
    · rw [List.length_append] at hfuel
      have hb' : layout.ptr (es ++ [e, ⟨n, data⟩]) = some b :=
        (ptr_concat_append es [⟨n, data⟩] e).trans hb
      rw [List.append_assoc, List.singleton_append, hb, hb']
      exact listPushBack_link hcreate (hwalk fuel (by omega)) hlast
    · rw [List.append_assoc, List.singleton_append]
      exact hc₁.link (fun x hx => hlink _ (hother x hx)) (Function.update_self ..)
        ((hlink n (hne e (by simp)).symm).trans hcell)
    · refine .insert hn hmem fun a ha => ?_
      rw [hmem, not_or] at ha
      refine (hlink a fun heq => ha.2 ?_).trans (hframe a ha.1)
      rw [heq]
      exact List.mem_map_of_mem (by simp)

/-! ### Sequences of pushes -/

/-- A call does to the chain in memory what it does to the abstract list. -/
theorem listCall_spec (hc : layout.Chain m.heap es) (c : ListCall) : ∃ m' es',
    (∀ fuel, es.length < fuel →
      listCall P fuel (layout.ptr es, m) c = some (layout.ptr es', m')) ∧
    layout.Chain m'.heap es' ∧ es'.length ≤ es.length + 1 ∧
    es'.map Elem.data = pushed (es.map Elem.data) (c, (P m.heap m.calls).isSome) ∧
    Grown m.heap (addrs es) m'.heap (addrs es') := by
  cases hP : (P m.heap m.calls).isSome with
  | false =>
    rw [Option.isSome_eq_false_iff, Option.isNone_iff_eq_none] at hP
    refine ⟨_, es, fun fuel _ => listCall_of_none hP fuel _ c, hc, Nat.le_succ _, ?_, .refl _ _⟩
    cases c <;> rfl
  | true =>
    cases c with
    | pushFront data =>
      obtain ⟨n, m', hrun, hc', hg⟩ := listPushFront_spec hP hc data
      exact ⟨m', ⟨n, data⟩ :: es, fun _ _ => hrun, hc', Nat.le_refl _, rfl, hg⟩
    | pushBack data =>
      obtain ⟨n, m', hrun, hc', hg⟩ := listPushBack_spec hP hc data
      have hlen : (es ++ [Elem.mk n data]).length ≤ es.length + 1 :=
        Nat.le_of_eq List.length_append
      refine ⟨m', es ++ [Elem.mk n data], fun fuel hfuel => hrun fuel hfuel, hc', hlen, ?_, hg⟩
      rw [List.map_append]
      rfl

theorem listCalls_spec (cs : List ListCall) : ∀ (m : Mem Node) (es : List Elem),
    layout.Chain m.heap es → ∃ m' es' oks,
      (∀ fuel, es.length + cs.length < fuel →
        listCalls P fuel (layout.ptr es, m) cs = some ((layout.ptr es', m'), oks)) ∧
      layout.Chain m'.heap es' ∧ oks.length = cs.length ∧
      es'.map Elem.data = (cs.zip oks).foldl pushed (es.map Elem.data) ∧
      Grown m.heap (addrs es) m'.heap (addrs es') := by
  induction cs with
  | nil => exact fun m es hc => ⟨m, es, [], fun _ _ => rfl, hc, rfl, rfl, .refl _ _⟩
  | cons c cs ih =>
    intro m es hc
    obtain ⟨m₁, es₁, hrun, hc₁, hlen₁, hdata₁, hg₁⟩ := listCall_spec (P := P) hc c
    obtain ⟨m₂, es₂, oks, hruns, hc₂, hlen₂, hdata₂, hg₂⟩ := ih m₁ es₁ hc₁
    refine ⟨m₂, es₂, (P m.heap m.calls).isSome :: oks, fun fuel hfuel => ?_, hc₂,
      congrArg (· + 1) hlen₂, ?_, hg₁.trans hg₂⟩
    · rw [List.length_cons] at hfuel
      rw [listCalls, hrun fuel (by omega), Option.bind_eq_bind, Option.bind_some,
        hruns fuel (by omega)]
      rfl
    · rw [hdata₂, hdata₁]
      rfl

/-! ### Counting and freeing -/

theorem lengthLoop_spec (es : List Elem) : ∀ (m : Mem Node) (count : ℕ),
    layout.Chain m.heap es → ∃ m', (∀ fuel, es.length < fuel →
      lengthLoop fuel m (layout.ptr es) count = some (count + es.length, m')) ∧
      m'.heap = m.heap := by
  induction es with
  | nil =>
    intro m count _
    refine ⟨m, fun fuel hfuel => ?_, rfl⟩
    obtain ⟨f, rfl⟩ := Nat.exists_eq_add_one.2 hfuel
    rfl
  | cons e es ih =>
    intro m count hc
    obtain ⟨m', hrun, hheap⟩ := ih (m.log (.read e.addr)) (count + 1) hc.2
    refine ⟨m', fun fuel hfuel => ?_, hheap⟩
    rw [List.length_cons] at hfuel
    obtain ⟨f, rfl⟩ := Nat.exists_eq_add_one.2 (Nat.zero_lt_of_lt hfuel)
    have hcell : m.heap e.addr = some ⟨e.data, layout.ptr es⟩ := hc.1
    have hsum : count + (es.length + 1) = count + 1 + es.length := by omega
    change lengthLoop (f + 1) m (some e.addr) count = _
    rw [lengthLoop, Mem.read_of_some hcell, Option.bind_eq_bind, Option.bind_some,
      List.length_cons, hsum]
    exact hrun f (by omega)

/-- What `list_free` does to the cells of a list, in order. -/
def freeTrace (es : List Elem) : List Access := es.flatMap fun e => [.read e.addr, .free e.addr]

/-- `list_free` reads each node's successor before freeing the node. -/
theorem freeLoop_spec (es : List Elem) : ∀ m : Mem Node, layout.Chain m.heap es → ∃ m',
    (∀ fuel, es.length < fuel → freeLoop fuel m (layout.ptr es) = some m') ∧
    (∀ a ∈ addrs es, m'.heap a = none) ∧ (∀ a ∉ addrs es, m'.heap a = m.heap a) ∧
    m'.trace = m.trace ++ freeTrace es := by
  induction es with
  | nil =>
    intro m _
    refine ⟨m, fun fuel hfuel => ?_, by simp, fun _ _ => rfl, by simp [freeTrace]⟩
    obtain ⟨f, rfl⟩ := Nat.exists_eq_add_one.2 hfuel
    rfl
  | cons e es ih =>
    intro m hc
    have hcell : m.heap e.addr = some ⟨e.data, layout.ptr es⟩ := hc.1
    have hcell' : (m.log (.read e.addr)).heap e.addr = some ⟨e.data, layout.ptr es⟩ := hcell
    -- the rest of the chain is elsewhere
    obtain ⟨m', hrun, hgone, hkept, htrace⟩ := ih { (m.log (.read e.addr)).log (.free e.addr) with
      heap := Function.update m.heap e.addr none } (hc.tail_update none)
    refine ⟨m', fun fuel hfuel => ?_, fun a ha => ?_, fun a ha => ?_, ?_⟩
    · rw [List.length_cons] at hfuel
      obtain ⟨f, rfl⟩ := Nat.exists_eq_add_one.2 (Nat.zero_lt_of_lt hfuel)
      change freeLoop (f + 1) m (some e.addr) = _
      rw [freeLoop, Mem.read_of_some hcell, Option.bind_eq_bind, Option.bind_some]
      dsimp only
      rw [Option.bind_eq_bind, Mem.free_of_some hcell', Option.bind_some]
      exact hrun f (by omega)
    · by_cases hmem : a ∈ addrs es
      · exact hgone a hmem
      · have hae : a = e.addr := (List.mem_cons.1 ha).resolve_right hmem
        rw [hkept a hmem, hae]
        exact Function.update_self ..
    · have hne : a ≠ e.addr := fun heq => ha (heq ▸ List.mem_cons_self)
      rw [hkept a fun hmem => ha (List.mem_cons_of_mem _ hmem)]
      exact Function.update_of_ne hne ..
    · rw [htrace]
      simp [freeTrace, Mem.trace_log]

/-- **The linked list is its abstract list, and leaks nothing.**  Start from any heap and push any
data to an empty list, with any pattern of allocation failures.  All calls end without touching a
cell that is not allocated; the chain is acyclic and holds exactly the data of the calls whose
allocation succeeded, in the order the abstract list has them; the cells outside it are as before.
A call whose allocation fails changes nothing.  `list_length` counts the nodes, and a final
`list_free` reads and frees each of them once and leaves the heap as it was. -/
theorem list_safe (h₀ : Heap Node) (P : Policy Node) (calls : List ListCall) :
    (∀ (fuel : ℕ) (head : Option ℕ) (m : Mem Node) (c : ListCall), P m.heap m.calls = none →
      listCall P fuel (head, m) c = some (head, { m with calls := m.calls + 1 })) ∧
    ∃ es m oks,
      (∃ n, ∀ fuel, n ≤ fuel →
        listCalls P fuel (none, .start h₀) calls = some ((layout.ptr es, m), oks)) ∧
      oks.length = calls.length ∧
      layout.Chain m.heap es ∧ (addrs es).Nodup ∧
      es.map Elem.data = (calls.zip oks).foldl pushed [] ∧
      (∀ a ∈ addrs es, h₀ a = none) ∧ (∀ a ∉ addrs es, m.heap a = h₀ a) ∧
      (∃ m' n, m'.heap = m.heap ∧
        ∀ fuel, n ≤ fuel → listLength fuel m (layout.ptr es) = some (es.length, m')) ∧
      ∃ m', (∃ n, ∀ fuel, n ≤ fuel → listFree fuel m (layout.ptr es) = some (none, m')) ∧
        m'.heap = h₀ ∧ m'.trace = m.trace ++ freeTrace es := by
  refine ⟨fun fuel head m c h => listCall_of_none h fuel head c, ?_⟩
  obtain ⟨m, es, oks, hrun, hc, hlen, hdata, hg⟩ :=
    listCalls_spec (P := P) calls (.start h₀) [] trivial
  obtain ⟨m₁, hcount, hheap⟩ := lengthLoop_spec es m 0 hc
  obtain ⟨m₂, hfree, hgone, hkept, htrace⟩ := freeLoop_spec es m hc
  refine ⟨es, m, oks, ⟨calls.length + 1, fun fuel h => hrun fuel ?_⟩, hlen, hc, hc.nodup, hdata,
    fun a ha => hg.eq_none ha, hg.frame, ⟨m₁, es.length + 1, hheap, fun fuel h => ?_⟩,
    m₂, ⟨es.length + 1, fun fuel h => ?_⟩, hg.restore hgone hkept, htrace⟩
  · rw [List.length_nil]
    omega
  · rw [listLength, hcount fuel h, Nat.zero_add]
  · rw [listFree, hfree fuel h]
    rfl

end LinkedList

end CAcheRein
