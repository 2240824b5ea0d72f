import CAcheRein.Memory.Block
import Mathlib.Data.List.Induction
import Mathlib.Tactic.IntervalCases
import Mathlib.Tactic.SplitIfs

/-!
# Reversing an array in place

`find_max` and `reverse_array` of `module1-foundations/ex04-arrays-and-strings`, with `int` indices
and a length that may be smaller than the array.  The loop of `reverse_array` swaps the ends of the
part between `left` and `right` until they meet; it is logged which elements it accesses.

`reverseArray_spec` : what it leaves, and that `find_max` finds the same in it.
-/

namespace CAcheRein

namespace Arrays

open Block

/-- An iteration of `find_max`: the maximum after it. -/
def findMaxBody (arr : List UInt8) (max : UInt8) (i : ℕ) : Option UInt8 := do
  let x ← load arr i
  if x > max then load arr i else some max

/-- `find_max`. -/
def findMax (arr : List UInt8) (len : ℤ) : Option ℤ := do
  let max ← load arr 0
  let max ← (List.range len.toNat).foldlM (findMaxBody arr) max
  some max.toNat

/-- The loop of `reverse_array`: the array after it, and its accesses in order. -/
def reverseLoop (arr : List UInt8) (left right : ℤ) : Option (List UInt8 × List ElemAccess) :=
  if left < right then do
    let temp ← load arr left
    let x ← load arr right
    let arr ← store arr left x
    let arr ← store arr right temp
    let (arr, log) ← reverseLoop arr (left + 1) (right - 1)
    some (arr, [.read left, .read right, .write left, .write right] ++ log)
  else some (arr, [])
termination_by (right - left).toNat
decreasing_by omega

/-- `reverse_array`. -/
def reverseArray (arr : List UInt8) (len : ℤ) : Option (List UInt8 × List ElemAccess) :=
  reverseLoop arr 0 (len - 1)

/-! ### The loop -/

/-- One iteration swaps the ends. -/
theorem reverseLoop_step (front mid back : List UInt8) (a b : UInt8) {left right : ℤ}
    (hleft : left = front.length) (hright : right = front.length + mid.length + 1) :
    reverseLoop (front ++ a :: (mid ++ b :: back)) left right =
      (reverseLoop (front ++ b :: (mid ++ a :: back)) (left + 1) (right - 1)).map fun r =>
        (r.1, [.read left, .read right, .write left, .write right] ++ r.2) := by
  have hlen (x : UInt8) : right = (front ++ x :: mid).length := by
    rw [hright, List.length_append, List.length_cons]
    omega
  have hsplit (x y : UInt8) :
      front ++ x :: (mid ++ y :: back) = (front ++ x :: mid) ++ y :: back := by simp
  have hload : load (front ++ a :: (mid ++ b :: back)) left = some a := by
    rw [hleft, load_append_cons]
  have hload' : load (front ++ a :: (mid ++ b :: back)) right = some b := by
    rw [hlen a, hsplit, load_append_cons]
  have hstore : store (front ++ a :: (mid ++ b :: back)) left b =
      some (front ++ b :: (mid ++ b :: back)) := by
    rw [hleft, store_append_cons]
  have hstore' : store (front ++ b :: (mid ++ b :: back)) right a =
      some (front ++ b :: (mid ++ a :: back)) := by
    rw [hlen b, hsplit, store_append_cons, ← hsplit]
  rw [reverseLoop, if_pos (by omega)]
  simp only [hload, hload', hstore, hstore', Option.bind_eq_bind, Option.bind_some]
  cases reverseLoop (front ++ b :: (mid ++ a :: back)) (left + 1) (right - 1) <;> rfl

/-- **The part between the ends is reversed**, and only it is accessed. -/
theorem reverseLoop_eq (front mid back : List UInt8) {left right : ℤ}
    (hleft : left = front.length) (hright : right = front.length + mid.length - 1) : ∃ log,
    reverseLoop (front ++ mid ++ back) left right = some (front ++ mid.reverse ++ back, log) ∧
      ∀ a ∈ log, left ≤ a.index ∧ a.index ≤ right := by
  induction mid using List.bidirectionalRec generalizing front back left right with
  | nil =>
    rw [List.length_nil] at hright
    refine ⟨[], ?_, fun a ha => nomatch ha⟩
    rw [reverseLoop, if_neg (by omega)]
    rfl
  | singleton a =>
    rw [List.length_singleton] at hright
    refine ⟨[], ?_, fun a ha => nomatch ha⟩
    rw [reverseLoop, if_neg (by omega)]
    rfl
  | cons_append a mid b ih =>
    rw [List.length_cons, List.length_append, List.length_singleton] at hright
    have hle : left ≤ right := by omega
    have hleft' : left + 1 = ((front ++ [b]).length : ℤ) := by simp [hleft]
    have hright' : right - 1 = (front ++ [b]).length + mid.length - 1 := by
      rw [hright, List.length_append, List.length_singleton]
      omega
    -- the ends are swapped, and belong to the parts that are left alone from then on
    obtain ⟨log, hrun, hlog⟩ := ih (front ++ [b]) (a :: back) hleft' hright'
    have hbefore : front ++ (a :: (mid ++ [b])) ++ back = front ++ a :: (mid ++ b :: back) := by
      simp
    have hmiddle : front ++ [b] ++ mid ++ a :: back = front ++ b :: (mid ++ a :: back) := by simp
    have hafter : front ++ (a :: (mid ++ [b])).reverse ++ back =
        front ++ [b] ++ mid.reverse ++ a :: back := by simp
    rw [hmiddle] at hrun
    rw [hbefore, reverseLoop_step front mid back a b hleft (by omega), hrun, hafter]
    refine ⟨_, rfl, fun x hx => ?_⟩
    rcases List.mem_append.1 hx with hhere | hnext
    · simp only [List.mem_cons, List.not_mem_nil, or_false] at hhere
      rcases hhere with rfl | rfl | rfl | rfl
      · exact ⟨le_rfl, hle⟩
      · exact ⟨hle, le_rfl⟩
      · exact ⟨le_rfl, hle⟩
      · exact ⟨hle, le_rfl⟩
    · obtain ⟨hlo, hhi⟩ := hlog x hnext
      exact ⟨by omega, by omega⟩

/-- **What `reverse_array` leaves**, and which elements it accesses. -/
theorem reverseArray_eq {arr : List UInt8} {len : ℕ} (h : len ≤ arr.length) : ∃ log,
    reverseArray arr len = some ((arr.take len).reverse ++ arr.drop len, log) ∧
      ∀ a ∈ log, 0 ≤ a.index ∧ a.index < len := by
  have hlen : (arr.take len).length = len := List.length_take_of_le h
  have hright : (len : ℤ) - 1 = ([] : List UInt8).length + (arr.take len).length - 1 := by
    rw [hlen, List.length_nil, Nat.cast_zero, zero_add]
  obtain ⟨log, hrun, hlog⟩ := reverseLoop_eq [] (arr.take len) (arr.drop len) rfl hright
  rw [List.nil_append, List.nil_append, List.take_append_drop] at hrun
  refine ⟨log, hrun, fun a ha => ?_⟩
  obtain ⟨hlo, hhi⟩ := hlog a ha
  exact ⟨hlo, by omega⟩

/-! ### The maximum -/

variable {arr : List UInt8} {len : ℕ}

/-- The greater of two elements, the first if they are equal. -/
def greater (max x : UInt8) : UInt8 := if x > max then x else max

/-- The loop of `find_max` goes through the first elements. -/
theorem foldlM_findMaxBody (h : len ≤ arr.length) (max : UInt8) :
    (List.range len).foldlM (findMaxBody arr) max = some ((arr.take len).foldl greater max) := by
  induction len with
  | zero => rfl
  | succ n ih =>
    have hget : load arr n = some arr[n] := by
      rw [load_natCast, List.getElem?_eq_getElem h]
    have hbody (m : UInt8) : findMaxBody arr m n = some (greater m arr[n]) := by
      simp only [findMaxBody, greater, hget, Option.bind_eq_bind, Option.bind_some]
      split_ifs <;> rfl
    rw [List.range_succ, List.foldlM_append, ih (Nat.le_of_succ_le h),
      List.take_succ_eq_append_getElem h, List.foldl_append]
    simp only [Option.bind_eq_bind, Option.bind_some, List.foldlM_cons, List.foldlM_nil, hbody,
      List.foldl_cons, List.foldl_nil]
    rfl

/-- A running maximum is the greatest of the elements and the first one. -/
theorem foldl_greater_spec (xs : List UInt8) (max : UInt8) :
    xs.foldl greater max ∈ max :: xs ∧ ∀ x ∈ max :: xs, x ≤ xs.foldl greater max := by
  induction xs using List.reverseRecOn with
  | nil => simp
  | append_singleton xs x ih =>
    obtain ⟨hmem, hle⟩ := ih
    rw [List.foldl_append, List.foldl_cons, List.foldl_nil, ← List.cons_append, greater]
    split_ifs with hgt
    · refine ⟨by simp, fun y hy => ?_⟩
      rcases List.mem_append.1 hy with hold | hnew
      · exact UInt8.le_trans (hle y hold) (UInt8.le_of_lt hgt)
      · rw [List.mem_singleton.1 hnew]
        exact UInt8.le_rfl
    · refine ⟨List.mem_append_left _ hmem, fun y hy => ?_⟩
      rcases List.mem_append.1 hy with hold | hnew
      · exact hle y hold
      · rw [List.mem_singleton.1 hnew]
        exact UInt8.not_lt.1 hgt

/-- **`find_max` returns the greatest element.** -/
theorem findMax_spec (hpos : 1 ≤ len) (h : len ≤ arr.length) : ∃ max : UInt8,
    findMax arr len = some (max.toNat : ℤ) ∧ max ∈ arr.take len ∧
      ∀ x ∈ arr.take len, x ≤ max := by
  have hfirst : load arr 0 = some arr[0] := by
    have hload : load arr (0 : ℕ) = arr[0]? := load_natCast
    rwa [List.getElem?_eq_getElem (by omega)] at hload
  have hmem : arr[0] ∈ arr.take len := by
    rw [List.mem_take_iff_getElem]
    exact ⟨0, by omega, rfl⟩
  obtain ⟨hmax, hle⟩ := foldl_greater_spec (arr.take len) arr[0]
  refine ⟨_, ?_, ?_, fun x hx => hle x (List.mem_cons_of_mem _ hx)⟩
  · simp only [findMax, hfirst, Option.bind_eq_bind, Option.bind_some, Int.toNat_natCast,
      foldlM_findMaxBody h]
  · rcases List.mem_cons.1 hmax with heq | hin
    · rw [heq]
      exact hmem
    · exact hin

/-- **`reverse_array` and `find_max`**, on the first `len` elements of an array.  Both end without
an access outside them; the elements are reversed, and reversed back by a second call, the others
stay as they are, and the maximum is the same before and after. -/
theorem reverseArray_spec (arr : List UInt8) (len : ℕ) (h : len ≤ arr.length) : ∃ arr' log log',
    reverseArray arr len = some (arr', log) ∧
    (∀ a ∈ log, 0 ≤ a.index ∧ a.index < len) ∧
    (∀ i < len, arr'[i]? = arr[len - 1 - i]?) ∧
    (∀ i, len ≤ i → arr'[i]? = arr[i]?) ∧
    reverseArray arr' len = some (arr, log') ∧
    (arr'.take len).Perm (arr.take len) ∧
    (1 ≤ len → ∃ max : UInt8, findMax arr len = some (max.toNat : ℤ) ∧
      findMax arr' len = some (max.toNat : ℤ) ∧ max ∈ arr.take len ∧
      ∀ x ∈ arr.take len, x ≤ max) := by
  have hlen : (arr.take len).reverse.length = len := by
    rw [List.length_reverse, List.length_take_of_le h]
  obtain ⟨log, hrun, hlog⟩ := reverseArray_eq h
  generalize harr : (arr.take len).reverse ++ arr.drop len = arr' at hrun
  have hle : len ≤ arr'.length := by
    rw [← harr, List.length_append, hlen]
    omega
  have htake : arr'.take len = (arr.take len).reverse := by
    rw [← harr]
    exact List.take_left' hlen
  have hdrop : arr'.drop len = arr.drop len := by
    rw [← harr]
    exact List.drop_left' hlen
  obtain ⟨log', hback, -⟩ := reverseArray_eq hle
  rw [htake, hdrop, List.reverse_reverse, List.take_append_drop] at hback
  refine ⟨arr', log, log', hrun, hlog, fun i hi => ?_, fun i hi => ?_, hback, ?_, fun hpos => ?_⟩
  · rw [← harr, List.getElem?_append_left (by omega),
      List.getElem?_reverse (by rw [List.length_take_of_le h]; exact hi), List.length_take_of_le h,
      List.getElem?_take_of_lt (by omega)]
  · have hfar : i = len + (i - len) := by omega
    rw [hfar, ← List.getElem?_drop, hdrop, List.getElem?_drop]
  · rw [htake]
    exact List.reverse_perm _
  · obtain ⟨max, hmax, hmem, hbound⟩ := findMax_spec hpos h
    obtain ⟨max', hmax', hmem', hbound'⟩ := findMax_spec hpos hle
    rw [htake] at hmem' hbound'
    -- each is one of the elements the other bounds
    have heq : max' = max := UInt8.le_antisymm (hbound _ (List.mem_reverse.1 hmem'))
      (hbound' _ (List.mem_reverse.2 hmem))
    exact ⟨max, hmax, by rw [hmax', heq], hmem, hbound⟩

/-- The first three of four elements. -/
theorem reverseArray_spec_four : ∃ log,
    reverseArray [1, 5, 2, 9] (3 : ℕ) = some ([2, 5, 1, 9], log) := by
  obtain ⟨arr', log, -, hrun, -, hfirst, hrest, -⟩ := reverseArray_spec [1, 5, 2, 9] 3 (by decide)
  have harr : arr' = [2, 5, 1, 9] := by
    apply List.ext_getElem?
    intro i
    rcases Nat.lt_or_ge i 3 with hi | hi
    · rw [hfirst i hi]
      interval_cases i <;> rfl
    · rw [hrest i hi]
      obtain ⟨k, rfl⟩ := Nat.exists_eq_add_of_le' hi
      rfl
  exact ⟨log, by rw [hrun, harr]⟩

end Arrays

end CAcheRein
