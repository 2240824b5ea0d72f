import CAcheRein.Calls.Blocks
import CAcheRein.Text.Template

/-!
# Allocating and freeing

`main` of `module2-pointers-memory/ex03-malloc-free`: six blocks, one after the other and at last
three at a time, with the sizes and contents of the source as they are.  The addresses it prints
are left out.

## Main results

* `main_clean` : whatever `malloc` answers, the blocks are used as they may be and given back, and
  what `main` prints and returns is determined by which of its allocations got a block.
-/

namespace CAcheRein

namespace MallocFree

open Prog Text

/-- Blocks of bytes. -/
abbrev layout : BlockLayout := ⟨ℕ, fun _ => UInt8, fun size i => i < size⟩

abbrev Program (α : Type) := layout.Program α

abbrev load (p : Ptr) (i : ℕ) : Program UInt8 := layout.load p i

abbrev store (p : Ptr) (i : ℕ) (v : UInt8) : Program Unit := layout.store p i v

abbrev printf (text : List Char) : Program Unit := layout.printf text

/-- A loop that writes `n` bytes, from `i` on. -/
def fill (p : Ptr) (f : ℕ → UInt8) : ℕ → ℕ → Program Unit
  | 0, _ => return ()
  | n + 1, i => do
    store p i (f i)
    fill p f n (i + 1)

/-- A line about a byte. -/
def byteLine (i : ℕ) (v : UInt8) : List Char :=
  "registers[".toList ++ digits i ++ "] = 0x".toList ++ hexByte v ++ "\n".toList

/-- The loop that prints `registers`. -/
def list (p : Ptr) : ℕ → ℕ → Program Unit
  | 0, _ => return ()
  | n + 1, i => do
    let v ← load p i
    printf (byteLine i v)
    list p n (i + 1)

/-- What `registers[i]` is given. -/
def bit (i : ℕ) : UInt8 := UInt8.ofNat (1 <<< i)

/-- `stack_buf`. -/
def stackBuf : List UInt8 := [0x01, 0x02, 0x03, 0x04]

/-- `main` from the proof that the heap grows up on. -/
def growUp : Program ℕ := do
  printf "\n=== proving heap grows up ===\n".toList
  let heap1 ← layout.malloc 1
  let heap2 ← layout.malloc 1
  let heap3 ← layout.malloc 1
  -- none of them is compared with NULL
  layout.free heap1
  layout.free heap2
  layout.free heap3
  printf "\n=== proving stack grows down (function calls) ===\n".toList
  return 0

/-- `main` from the comparison of stack and heap on. -/
def compareBufs : Program ℕ := do
  let heapBuf ← layout.malloc 4
  if heapBuf = none then do
    printf "error: malloc failed\n".toList
    return 1
  else do
    fill heapBuf (fun i => stackBuf.getD i 0) 4 0
    layout.free heapBuf
    printf "\n=== proving stack grows down ===\n".toList
    growUp

/-- `main` from the array on. -/
def useArray (count : ℕ) : Program ℕ := do
  let registers ← layout.malloc count
  if registers = none then do
    printf "error: mallox failed\n".toList
    return 1
  else do
    fill registers bit count 0
    printf "\nregisters:\n".toList
    list registers count 0
    layout.free registers
    compareBufs

/-- `main`. -/
def main : Program ℕ := do
  let reg ← layout.malloc 1
  if reg = none then do
    printf "error: malloc failed\n".toList
    return 1
  else do
    store reg 0 0xFF
    let v ← load reg 0
    printf ("reg = 0x".toList ++ hexByte v ++ "\n".toList)
    layout.free reg
    useArray 4

/-! ### The loops -/

variable {p i n : ℕ} {f : ℕ → UInt8} {s : layout.State} {b : layout.Block}

/-- The first `n` bytes of a block have been written. -/
def Filled (f : ℕ → UInt8) (size n : ℕ) (b : layout.Block) : Prop :=
  b.size = size ∧ ∀ j < n, b.cells j = some (f j)

theorem filled_zero (size : ℕ) : Filled f size 0 (.fresh size) :=
  ⟨rfl, fun j hj => absurd hj (Nat.not_lt_zero j)⟩

theorem Filled.write {size : ℕ} (h : Filled f size i b) :
    Filled f size (i + 1) (b.write (L := layout) i (f i)) := by
  refine ⟨h.1, fun j hj => ?_⟩
  by_cases hji : j = i
  · subst hji
    exact BlockLayout.Block.cells_write_self (L := layout)
  · exact (BlockLayout.Block.cells_write_of_ne (L := layout) hji).trans (h.2 j (by omega))

theorem wp_fill {size : ℕ} (n : ℕ) : ∀ (i : ℕ) (b : layout.Block), i + n ≤ size →
    Filled f size i b → layout.protocol.wp (fill (some p) f n i)
      (fun _ s' => ∃ b', Filled f size (i + n) b' ∧ s' = s.set p (some b')) (s.set p (some b)) := by
  induction n with
  | zero => exact fun i b _ hb => ⟨b, hb, rfl⟩
  | succ n ih =>
    intro i b hsize hb
    have hlt : i < b.size := hb.1 ▸ (by omega)
    refine BlockLayout.wp_store (BlockLayout.State.heap_set_self _) hlt ?_
    rw [BlockLayout.State.set_set]
    have hrest := ih (i + 1) _ (by omega) hb.write
    rwa [Nat.add_right_comm, Nat.add_assoc] at hrest

theorem wp_list {size m : ℕ} (hb : Filled f size m b) (hm : m ≤ size) (n : ℕ) :
    ∀ (i : ℕ) (s : layout.State), i + n ≤ m → layout.protocol.wp (list (some p) n i)
      (fun _ s' =>
        s' = (s.say ((List.range' i n).flatMap fun j => byteLine j (f j))).set p (some b))
      (s.set p (some b)) := by
  induction n with
  | zero =>
    intro i s _
    rw [List.range'_zero, List.flatMap_nil, BlockLayout.State.say_nil]
    exact rfl
  | succ n ih =>
    intro i s hi
    have hlt : i < b.size := hb.1 ▸ (by omega)
    refine BlockLayout.wp_load (BlockLayout.State.heap_set_self _) hlt (hb.2 i (by omega)) ?_
    refine BlockLayout.wp_printf ?_
    rw [BlockLayout.State.say_set]
    refine Protocol.wp_mono (ih (i + 1) _ (by omega)) ?_
    rintro _ s' rfl
    rw [BlockLayout.State.say_say, List.range'_succ, List.flatMap_cons]

/-! ### The program -/

/-- What is printed of one byte, and then of an array. -/
def regText : List Char := "reg = 0x".toList ++ hexByte 0xFF ++ "\n".toList

def arrayText (count : ℕ) : List Char :=
  "\nregisters:\n".toList ++ (List.range count).flatMap fun i => byteLine i (bit i)

def growText : List Char :=
  "\n=== proving heap grows up ===\n".toList ++
    "\n=== proving stack grows down (function calls) ===\n".toList

/-- How far the program came: what it returns and prints, and which of its allocations got a
block.  The last three may fail. -/
inductive Came : ℕ → List Char → List Bool → Prop
  | start : Came 1 "error: malloc failed\n".toList [false]
  | reg : Came 1 (regText ++ "error: mallox failed\n".toList) [true, false]
  | array : Came 1 (regText ++ (arrayText 4 ++ "error: malloc failed\n".toList))
    [true, true, false]
  | all (heap1 heap2 heap3 : Bool) : Came 0
      (regText ++ (arrayText 4 ++ ("\n=== proving stack grows down ===\n".toList ++ growText)))
      [true, true, true, heap1, heap2, heap3]

/-- The program fails exactly if one of its first three allocations does. -/
theorem Came.failed_iff {code : ℕ} {text : List Char} {allocs : List Bool}
    (h : Came code text allocs) : code = 1 ↔ false ∈ allocs.take 3 := by
  cases h with
  | start | reg | array => exact iff_of_true rfl (by decide)
  | all heap1 heap2 heap3 => exact iff_of_false (by decide) (by simp)

/-- **Three blocks at a time**, none of which needs to be there. -/
theorem wp_growUp (s : layout.State) : layout.protocol.wp growUp
    (fun code s' => code = 0 ∧ ∃ heap1 heap2 heap3 : Bool,
      BlockLayout.Since s s' growText [heap1, heap2, heap3]) s := by
  refine BlockLayout.wp_printf ?_
  refine BlockLayout.wp_malloc_held (BlockLayout.State.beyond_self _) fun p₁ s₁ h₁ hc₁ ha₁ => ?_
  refine BlockLayout.wp_malloc_held h₁ fun p₂ s₂ h₂ hc₂ ha₂ => ?_
  refine BlockLayout.wp_malloc_held h₂ fun p₃ s₃ h₃ hc₃ ha₃ => ?_
  have hperm : [p₃, p₂, p₁].Perm [p₁, p₂, p₃] := List.reverse_perm [p₁, p₂, p₃]
  refine BlockLayout.wp_free_held (h₃.perm hperm) fun s₄ h₄ hc₄ ha₄ => ?_
  refine BlockLayout.wp_free_held h₄ fun s₅ h₅ hc₅ ha₅ => ?_
  refine BlockLayout.wp_free_held h₅ fun s₆ h₆ hc₆ ha₆ => BlockLayout.wp_printf ?_
  have hconsole : s₆.console = s.console ++ "\n=== proving heap grows up ===\n".toList := by
    rw [hc₆, hc₅, hc₄, hc₃, hc₂, hc₁]
    rfl
  refine ⟨rfl, p₁.isSome, p₂.isSome, p₃.isSome, h₆.heap_eq, ?_, ?_⟩
  · have hsay := congrArg (· ++ "\n=== proving stack grows down (function calls) ===\n".toList)
      hconsole
    exact hsay.trans (List.append_assoc ..)
  · change s₆.allocs = _
    rw [ha₆, ha₅, ha₄, ha₃, ha₂, ha₁, List.append_assoc, List.append_assoc]
    rfl

/-- From the comparison of stack and heap on. -/
theorem wp_compareBufs (s : layout.State) : layout.protocol.wp compareBufs
    (fun code s' => ∃ text allocs, BlockLayout.Since s s' text allocs ∧
      ((code = 1 ∧ text = "error: malloc failed\n".toList ∧ allocs = [false]) ∨
        (code = 0 ∧ text = "\n=== proving stack grows down ===\n".toList ++ growText ∧
          ∃ heap1 heap2 heap3, allocs = [true, heap1, heap2, heap3]))) s := by
  refine BlockLayout.wp_malloc (BlockLayout.wp_printf ?_) fun p hp => ?_
  · exact ⟨_, [false], ⟨rfl, rfl, rfl⟩, .inl ⟨rfl, rfl, rfl⟩⟩
  refine Protocol.wp_bind (Protocol.wp_mono (wp_fill 4 0 _ (by decide) (filled_zero 4)) ?_)
  rintro _ s' ⟨b, -, rfl⟩
  refine BlockLayout.wp_free (BlockLayout.State.heap_set_self _) ?_
  have hp' : (s.answer true).heap p = none := hp
  rw [BlockLayout.State.set_set, BlockLayout.State.set_none hp']
  refine BlockLayout.wp_printf (Protocol.wp_mono (wp_growUp _) ?_)
  rintro _ s' ⟨rfl, heap1, heap2, heap3, hsince⟩
  refine ⟨_, [true, heap1, heap2, heap3], ⟨hsince.heap, ?_, ?_⟩,
    .inr ⟨rfl, rfl, heap1, heap2, heap3, rfl⟩⟩
  · exact hsince.console.trans (List.append_assoc ..)
  · exact hsince.allocs.trans (List.append_assoc ..)

/-- From the array on, for any number of bytes. -/
theorem wp_useArray (count : ℕ) (s : layout.State) : layout.protocol.wp (useArray count)
    (fun code s' => ∃ text allocs, BlockLayout.Since s s' text allocs ∧
      ((code = 1 ∧ text = "error: mallox failed\n".toList ∧ allocs = [false]) ∨
        (code = 1 ∧ text = arrayText count ++ "error: malloc failed\n".toList ∧
          allocs = [true, false]) ∨
        (code = 0 ∧ text = arrayText count ++
          ("\n=== proving stack grows down ===\n".toList ++ growText) ∧
          ∃ heap1 heap2 heap3, allocs = [true, true, heap1, heap2, heap3]))) s := by
  refine BlockLayout.wp_malloc (BlockLayout.wp_printf ?_) fun p hp => ?_
  · exact ⟨_, [false], ⟨rfl, rfl, rfl⟩, .inl ⟨rfl, rfl, rfl⟩⟩
  refine Protocol.wp_bind (Protocol.wp_mono
    (wp_fill count 0 _ (Nat.zero_add count).le (filled_zero count)) ?_)
  rintro _ s' ⟨b, hb, rfl⟩
  rw [Nat.zero_add] at hb
  refine BlockLayout.wp_printf ?_
  rw [BlockLayout.State.say_set]
  refine Protocol.wp_bind (Protocol.wp_mono
    (wp_list hb (Nat.le_refl count) count 0 _ (Nat.zero_add count).le) ?_)
  rintro _ s' rfl
  refine BlockLayout.wp_free (BlockLayout.State.heap_set_self _) ?_
  rw [BlockLayout.State.set_set, ← List.range_eq_range', BlockLayout.State.say_say]
  have hp' : ((s.answer true).say (arrayText count)).heap p = none := hp
  change layout.protocol.wp compareBufs _ (((s.answer true).say (arrayText count)).set p none)
  rw [BlockLayout.State.set_none hp']
  refine Protocol.wp_mono (wp_compareBufs _) ?_
  rintro code s' ⟨text, allocs, hsince, hcases⟩
  refine ⟨arrayText count ++ text, true :: allocs,
    ⟨hsince.heap, hsince.console.trans (List.append_assoc ..),
      hsince.allocs.trans (List.append_assoc ..)⟩, .inr ?_⟩
  rcases hcases with ⟨rfl, rfl, rfl⟩ | ⟨rfl, rfl, heap1, heap2, heap3, rfl⟩
  · exact .inl ⟨rfl, rfl, rfl⟩
  · exact .inr ⟨rfl, rfl, heap1, heap2, heap3, rfl⟩

theorem wp_main (s : layout.State) : layout.protocol.wp main
    (fun code s' => ∃ text allocs, BlockLayout.Since s s' text allocs ∧ Came code text allocs)
    s := by
  refine BlockLayout.wp_malloc (BlockLayout.wp_printf ?_) fun p hp => ?_
  · exact ⟨_, [false], ⟨rfl, rfl, rfl⟩, .start⟩
  refine BlockLayout.wp_store (BlockLayout.State.heap_set_self _) Nat.one_pos ?_
  rw [BlockLayout.State.set_set]
  refine BlockLayout.wp_load (BlockLayout.State.heap_set_self _) Nat.one_pos
    (BlockLayout.Block.cells_write_self (L := layout)) (BlockLayout.wp_printf ?_)
  rw [BlockLayout.State.say_set]
  refine BlockLayout.wp_free (BlockLayout.State.heap_set_self _) ?_
  have hp' : ((s.answer true).say regText).heap p = none := hp
  change layout.protocol.wp (useArray 4) _ ((((s.answer true).say regText).set p _).set p none)
  rw [BlockLayout.State.set_set, BlockLayout.State.set_none hp']
  refine Protocol.wp_mono (wp_useArray 4 _) ?_
  rintro code s' ⟨text, allocs, hsince, hcases⟩
  refine ⟨regText ++ text, true :: allocs,
    ⟨hsince.heap, hsince.console.trans (List.append_assoc ..),
      hsince.allocs.trans (List.append_assoc ..)⟩, ?_⟩
  rcases hcases with ⟨rfl, rfl, rfl⟩ | ⟨rfl, rfl, rfl⟩ | ⟨rfl, rfl, heap1, heap2, heap3, rfl⟩
  · exact .reg
  · exact .array
  · exact .all heap1 heap2 heap3

/-- **Every block is given back**, whatever `malloc` answers: only bytes of blocks in use are
accessed, only bytes that have been written are read, and in the end no block is left over.  What
the program prints, the addresses aside, and returns is determined by which allocations got a block:
it says so and returns 1 exactly if one of the first three did not; the last three need not. -/
theorem main_clean {τ : Type} (e : Env layout.Call layout.Answer τ) (t : τ) (s : layout.State)
    (honest : layout.protocol.Honest s (main.run e t).trace) :
    layout.Clean s (main.run e t).trace ∧ ∃ code, (main.run e t).result = some code ∧
      Came code (BlockLayout.printed (main.run e t).trace)
        (BlockLayout.allocations (main.run e t).trace) ∧
      (code = 1 ↔ false ∈ (BlockLayout.allocations (main.run e t).trace).take 3) := by
  obtain ⟨hclean, code, hresult, hcame⟩ := BlockLayout.clean_of_wp (wp_main s) e t honest
  exact ⟨hclean, code, hresult, hcame, hcame.failed_iff⟩

/-- A memory in which no block is in use. -/
def noBlocks : layout.State := ⟨fun _ => none, [], []⟩

/-- Where there is memory for everything, and where there are only blocks of one byte. -/
theorem main_clean_small :
    (layout.Clean noBlocks (main.run (layout.env fun _ => true) (0, noBlocks)).trace ∧
      ∃ code, (main.run (layout.env fun _ => true) (0, noBlocks)).result = some code ∧ code ≠ 1) ∧
    layout.Clean noBlocks (main.run (layout.env (· == 1)) (0, noBlocks)).trace ∧
      (main.run (layout.env (· == 1)) (0, noBlocks)).result = some 1 := by
  have hclean := fun gives => main_clean (layout.env gives) (0, noBlocks) noBlocks
    (BlockLayout.honest_env _ _ fun _ _ => rfl)
  constructor
  · obtain ⟨hrun, code, hresult, -, hfailed⟩ := hclean fun _ => true
    refine ⟨hrun, code, hresult, fun hcode => ?_⟩
    exact BlockLayout.not_mem_allocations main (0, noBlocks)
      (List.mem_of_mem_take (hfailed.1 hcode))
  · obtain ⟨hrun, code, hresult, -, hfailed⟩ := hclean (· == 1)
    have hsecond : false ∈
        (BlockLayout.allocations (main.run (layout.env (· == 1)) (0, noBlocks)).trace).take 3 := by
      decide
    rw [hfailed.2 hsecond] at hresult
    exact ⟨hrun, hresult⟩

end MallocFree

end CAcheRein
