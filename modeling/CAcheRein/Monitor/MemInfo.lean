import CAcheRein.Monitor.Basic
import CAcheRein.Text.Lines

/-!
# What the counter of `read_mem_info` counts

`read_mem_info` counts the lines that have one of its three labels and stops at the third, so it
takes three such lines for one line of each kind.  `Monitor.reports_iff` says on which texts that
is right.
-/

namespace CAcheRein

namespace Monitor

open Text

/-- The labels `read_mem_info` looks for. -/
inductive MemLabel where
  | total
  | free
  | available
  deriving DecidableEq

/-- The characters of a label. -/
def MemLabel.text : MemLabel → List Char
  | .total => "MemTotal:".toList
  | .free => "MemFree:".toList
  | .available => "MemAvailable:".toList

/-- The field for a label. -/
def MemInfo.field (m : MemInfo) : MemLabel → ℤ
  | .total => m.totalKb
  | .free => m.freeKb
  | .available => m.availableKb

/-- The line has the label, and behind it an integer that `%ld` reads as `n`. -/
def Entry (label : MemLabel) (line : List Char) (n : ℤ) : Prop :=
  labelled label.text line = some n

/-- The lines the loop of `read_mem_info` looks at before it ends. -/
def linesRead : List (List Char) → MemInfo → ℕ → List (List Char)
  | [], _, _ => []
  | line :: lines, m, found =>
    if found < 3 then
      line :: linesRead lines (readMemLine line m found).1 (readMemLine line m found).2
    else []

/-- What `read_mem_info` makes of a text, if it does what its return code says. -/
structure Reports (text : List Char) (m : MemInfo) : Prop where
  /-- It returns 0 if and only if every label has a line. -/
  returns : (readMemInfo (some text) m).1 = 0 ↔
    ∀ label, ∃ line ∈ text.splitOn '\n', ∃ n, Entry label line n
  /-- Then every field holds the number of a line it has read, with its own label. -/
  holds : (readMemInfo (some text) m).1 = 0 → ∀ label,
    ∃ line ∈ linesRead (fgetsLines 128 [] text) ⟨0, 0, 0⟩ 0,
      Entry label line ((readMemInfo (some text) m).2.field label)

/-! ### One line -/

/-- An assignment to the field for a label. -/
def MemInfo.setField (m : MemInfo) : MemLabel × ℤ → MemInfo
  | (.total, n) => { m with totalKb := n }
  | (.free, n) => { m with freeKb := n }
  | (.available, n) => { m with availableKb := n }

/-- The label of a line and the integer behind it, if it has one of the three. -/
def lineEntry (line : List Char) : Option (MemLabel × ℤ) :=
  [.total, .free, .available].findSome? fun label : MemLabel =>
    (labelled label.text line).map (label, ·)

variable {line : List Char} {lines : List (List Char)} {m : MemInfo} {label label' : MemLabel}
  {n n' : ℤ} {found : ℕ}

theorem field_setField_self : (m.setField (label, n)).field label = n := by
  cases label <;> rfl

theorem field_setField_of_ne (h : label' ≠ label) :
    (m.setField (label, n)).field label' = m.field label' := by
  cases label <;> cases label' <;> first | rfl | exact absurd rfl h

/-- A label ends with a colon, so none is the beginning of another. -/
theorem eq_of_text_le (h : label.text <+: label'.text) : label = label' := by
  revert h
  cases label <;> cases label' <;> decide

theorem Entry.prefix_line (h : Entry label line n) : label.text <+: line := by
  by_contra hno
  rw [Entry, labelled_eq_none hno] at h
  cases h

theorem Entry.label_unique (h : Entry label line n) (h' : Entry label' line n') :
    label = label' := by
  rcases List.prefix_or_prefix_of_prefix h.prefix_line h'.prefix_line with hle | hle
  · exact eq_of_text_le hle
  · exact (eq_of_text_le hle).symm

/-- A line with one label does not have another. -/
theorem Entry.labelled_of_ne (h : Entry label line n) (hne : label' ≠ label) :
    labelled label'.text line = none := by
  cases hl : labelled label'.text line with
  | none => rfl
  | some n' => exact absurd (Entry.label_unique hl h) hne

theorem Entry.lineEntry_eq (h : Entry label line n) : lineEntry line = some (label, n) := by
  have hothers : ∀ l, l ≠ label → labelled l.text line = none := fun l hl => h.labelled_of_ne hl
  rw [Entry] at h
  cases label with
  | total => simp [lineEntry, h]
  | free => simp [lineEntry, h, hothers .total (by decide)]
  | available => simp [lineEntry, h, hothers .total (by decide), hothers .free (by decide)]

/-- A line has at most one entry. -/
theorem entry_iff : Entry label line n ↔ lineEntry line = some (label, n) := by
  refine ⟨Entry.lineEntry_eq, fun h => ?_⟩
  obtain ⟨l, -, hl⟩ := List.exists_of_findSome?_eq_some h
  obtain ⟨n', hn, heq⟩ := Option.map_eq_some_iff.1 hl
  cases heq
  exact hn

/-- One of the three calls of `sscanf`. -/
theorem scanField_eq {fmt : String} {ds : List Directive} (hds : ∀ k, Directive.conv k ∉ ds)
    (hfmt : format fmt.toList = label.text.map .lit ++ .blank :: .conv .int :: ds) (old : ℤ) :
    scanField fmt line old found =
      (labelled label.text line).elim (old, found) fun n => (n, found + 1) := by
  have hitems := scan_label hds label.text line
  rw [← hfmt] at hitems
  simp only [scanField]
  generalize (scan (format fmt.toList) line).1 = items at hitems ⊢
  cases hl : labelled label.text line with
  | none =>
    rw [hl, Option.toList_none, List.map_eq_nil_iff] at hitems
    rw [hitems]
    rfl
  | some n =>
    rw [hl, Option.toList_some, List.map_eq_singleton_iff] at hitems
    obtain ⟨q, rfl, rfl⟩ := hitems
    rfl

/-- **What the loop body does with a line.** -/
theorem readMemLine_eq (line : List Char) (m : MemInfo) (found : ℕ) :
    readMemLine line m found =
      (lineEntry line).elim (m, found) fun e => (m.setField e, found + 1) := by
  have hds : ∀ k, Directive.conv k ∉ [Directive.blank, .lit 'k', .lit 'B'] := by simp
  have htotal (old : ℤ) (k : ℕ) : scanField "MemTotal: %ld kB" line old k =
      (labelled MemLabel.total.text line).elim (old, k) fun n => (n, k + 1) :=
    scanField_eq hds rfl old
  have hfree (old : ℤ) (k : ℕ) : scanField "MemFree: %ld kB" line old k =
      (labelled MemLabel.free.text line).elim (old, k) fun n => (n, k + 1) :=
    scanField_eq hds rfl old
  have havail (old : ℤ) (k : ℕ) : scanField "MemAvailable: %ld kB" line old k =
      (labelled MemLabel.available.text line).elim (old, k) fun n => (n, k + 1) :=
    scanField_eq hds rfl old
  simp only [readMemLine, htotal, hfree, havail]
  cases hline : lineEntry line with
  | none =>
    have hnone : ∀ label : MemLabel, labelled label.text line = none := by
      intro label
      cases hl : labelled label.text line with
      | none => rfl
      | some n => rw [Entry.lineEntry_eq hl] at hline; cases hline
    rw [hnone, hnone, hnone]
    rfl
  | some e =>
    obtain ⟨label, n⟩ := e
    have hentry : Entry label line n := entry_iff.2 hline
    -- a line has one label at most, so the other two calls leave their fields
    have hothers : ∀ l, l ≠ label → labelled l.text line = none := fun l hl =>
      hentry.labelled_of_ne hl
    rw [Entry] at hentry
    cases label with
    | total => rw [hentry, hothers .free (by decide), hothers .available (by decide)]; rfl
    | free => rw [hothers .total (by decide), hentry, hothers .available (by decide)]; rfl
    | available => rw [hothers .total (by decide), hothers .free (by decide), hentry]; rfl

/-! ### The loop -/

/-- The entries of some lines, in order. -/
def entries (lines : List (List Char)) : List (MemLabel × ℤ) := lines.filterMap lineEntry

theorem entries_cons (line : List Char) (lines : List (List Char)) :
    entries (line :: lines) = (lineEntry line).elim (entries lines) (· :: entries lines) := by
  cases h : lineEntry line with
  | none => exact List.filterMap_cons_none h
  | some e => exact List.filterMap_cons_some h

/-- The loop makes the first assignments there are, until three are counted; they are those of the
lines it looks at. -/
theorem readMemLoop_spec (lines : List (List Char)) (m : MemInfo) (h : found ≤ 3) :
    readMemLoop lines m found =
        (((entries lines).take (3 - found)).foldl MemInfo.setField m,
          found + ((entries lines).take (3 - found)).length) ∧
      entries (linesRead lines m found) = (entries lines).take (3 - found) := by
  induction lines generalizing m found with
  | nil => simp [readMemLoop, linesRead, entries]
  | cons line lines ih =>
    rw [readMemLoop, linesRead]
    split_ifs with hlt
    · rw [readMemLine_eq, entries_cons, entries_cons]
      cases lineEntry line with
      | none => exact ih m h
      | some e =>
        have hrest : 3 - found = 3 - (found + 1) + 1 := by omega
        obtain ⟨hrun, hread⟩ : _ ∧ entries (linesRead lines (m.setField e) (found + 1)) = _ :=
          ih (m.setField e) hlt
        rw [Nat.add_assoc, Nat.add_comm 1] at hrun
        simp only [Option.elim_some, hrest, List.take_succ_cons, List.foldl_cons, List.length_cons]
        exact ⟨hrun, congrArg (e :: ·) hread⟩
    · obtain rfl : found = 3 := le_antisymm h (not_lt.1 hlt)
      exact ⟨rfl, rfl⟩

/-- The pieces `fgets` delivers have the entries of the lines. -/
theorem entries_fgetsLines {text : List Char} (h : ∀ line ∈ text.splitOn '\n', line.length < 128) :
    entries (fgetsLines 128 [] text) = entries (text.splitOn '\n') := by
  have hnewline (l : MemLabel) : '\n' ∉ l.text := by cases l <;> decide
  have hconcat (line : List Char) : lineEntry (line ++ ['\n']) = lineEntry line := by
    simp only [lineEntry, labelled_concat (hnewline _)]
  rw [entries, entries, List.filterMap_eq_flatMap_toList, List.filterMap_eq_flatMap_toList]
  refine flatMap_fgetsLines (fun line => ?_) (by decide) (by decide) h
  rw [hconcat]

/-- A field holds the last number assigned to it, if there is one. -/
theorem field_foldl {es : List (MemLabel × ℤ)} (h : label ∈ es.map Prod.fst) (m : MemInfo) :
    (label, (es.foldl MemInfo.setField m).field label) ∈ es := by
  induction es using List.reverseRecOn with
  | nil => cases h
  | append_singleton es e ih =>
    obtain ⟨label', n⟩ := e
    rw [List.foldl_append, List.foldl_cons, List.foldl_nil]
    by_cases heq : label = label'
    · subst heq
      rw [field_setField_self]
      simp
    · rw [field_setField_of_ne heq]
      refine List.mem_append_left _ (ih ?_)
      simpa [heq] using h

/-- Three labels take three entries. -/
theorem three_le_length {ls : List MemLabel} (h : ∀ label, label ∈ ls) : 3 ≤ ls.length := by
  have hsub : [MemLabel.total, .free, .available] ⊆ ls := fun label _ => h label
  exact (List.Nodup.subperm (by decide) hsub).length_le

theorem mem_labels_iff : label ∈ (entries lines).map Prod.fst ↔
    ∃ line ∈ lines, ∃ n, Entry label line n := by
  simp only [entries, List.mem_map, List.mem_filterMap, entry_iff, Prod.exists]
  constructor
  · rintro ⟨l, n, ⟨line, hmem, hline⟩, rfl⟩
    exact ⟨line, hmem, n, hline⟩
  · rintro ⟨line, hmem, n, hline⟩
    exact ⟨label, n, ⟨line, hmem, hline⟩, rfl⟩

/-! ### The return code -/

/-- The labels of the lines that have one, in order. -/
def labels (text : List Char) : List MemLabel := (entries (text.splitOn '\n')).map Prod.fst

variable {text : List Char}

/-- What the call returns and leaves in the caller's variable. -/
theorem readMemInfo_eq (h : ∀ line ∈ text.splitOn '\n', line.length < 128) (m : MemInfo) :
    readMemInfo (some text) m =
      (if 3 ≤ (labels text).length then 0 else -1,
        ((entries (text.splitOn '\n')).take 3).foldl MemInfo.setField ⟨0, 0, 0⟩) := by
  have hloop := (readMemLoop_spec (fgetsLines 128 [] text) ⟨0, 0, 0⟩ (Nat.zero_le 3)).1
  rw [entries_fgetsLines h, Nat.sub_zero, Nat.zero_add, List.length_take] at hloop
  have hthree : min 3 (entries (text.splitOn '\n')).length = 3 ↔ 3 ≤ (labels text).length := by
    rw [labels, List.length_map, min_eq_left_iff]
  simp only [readMemInfo, hloop, hthree]

theorem readMemInfo_eq_zero_iff (h : ∀ line ∈ text.splitOn '\n', line.length < 128)
    (m : MemInfo) : (readMemInfo (some text) m).1 = 0 ↔ 3 ≤ (labels text).length := by
  rw [readMemInfo_eq h]
  split_ifs with hthree
  · exact iff_of_true rfl hthree
  · exact iff_of_false (by simp) hthree

/-- The loop looks at the lines of the first three entries. -/
theorem entries_linesRead (h : ∀ line ∈ text.splitOn '\n', line.length < 128) :
    entries (linesRead (fgetsLines 128 [] text) ⟨0, 0, 0⟩ 0) =
      (entries (text.splitOn '\n')).take 3 := by
  rw [← entries_fgetsLines h]
  exact (readMemLoop_spec (fgetsLines 128 [] text) ⟨0, 0, 0⟩ (Nat.zero_le 3)).2

/-- The labels of the lines the loop looks at. -/
theorem mem_take_labels_iff (h : ∀ line ∈ text.splitOn '\n', line.length < 128) :
    label ∈ (labels text).take 3 ↔
      ∃ line ∈ linesRead (fgetsLines 128 [] text) ⟨0, 0, 0⟩ 0, ∃ n, Entry label line n := by
  rw [← mem_labels_iff, entries_linesRead h, labels, List.map_take]

/-- **When `read_mem_info` does what its return code says**: if it fails, or if the first three
lines with a label have three different ones. -/
theorem reports_iff (text : List Char) (h : ∀ line ∈ text.splitOn '\n', line.length < 128)
    (m : MemInfo) : Reports text m ↔
      (labels text).length < 3 ∨ ∀ label, label ∈ (labels text).take 3 := by
  have hret := readMemInfo_eq_zero_iff h m
  constructor
  · rintro ⟨-, hholds⟩
    by_cases hthree : 3 ≤ (labels text).length
    · right
      intro label
      obtain ⟨line, hmem, hline⟩ := hholds (hret.2 hthree) label
      exact (mem_take_labels_iff h).2 ⟨line, hmem, _, hline⟩
    · exact .inl (not_le.1 hthree)
  · intro hcond
    refine ⟨?_, fun hzero label => ?_⟩
    · have hall : (∀ label, ∃ line ∈ text.splitOn '\n', ∃ n, Entry label line n) ↔
          ∀ label, label ∈ labels text := forall_congr' fun _ => mem_labels_iff.symm
      rw [hret, hall]
      refine ⟨fun hthree label => ?_, three_le_length⟩
      exact List.mem_of_mem_take (hcond.resolve_left (not_lt.2 hthree) label)
    · have htake := hcond.resolve_left (not_lt.2 (hret.1 hzero)) label
      rw [labels, ← List.map_take] at htake
      -- the last assignment to the field is the number of a line that was read
      have hfield := field_foldl htake ⟨0, 0, 0⟩
      rw [readMemInfo_eq h]
      rw [← entries_linesRead h, entries, List.mem_filterMap] at hfield
      obtain ⟨line, hmem, hline⟩ := hfield
      rw [← entries, entries_linesRead h] at hline
      exact ⟨line, hmem, entry_iff.2 hline⟩

/-- The three lines the kernel starts `/proc/meminfo` with. -/
theorem reports_iff_kernel :
    Reports "MemTotal: 8 kB\nMemFree: 4 kB\nMemAvailable: 6 kB\n".toList ⟨0, 0, 0⟩ :=
  (reports_iff _ (by decide) _).2 (.inr fun label => by cases label <;> decide)

/-- Three lines with the same label are taken for one of each. -/
theorem not_reports_repeated :
    ¬ Reports "MemTotal: 1 kB\nMemTotal: 2 kB\nMemTotal: 3 kB\n".toList ⟨0, 0, 0⟩ := by
  rintro ⟨hreturns, -⟩
  obtain ⟨line, hmem, n, hline⟩ := hreturns.1 (by decide) .free
  have hnone : ∀ line ∈ "MemTotal: 1 kB\nMemTotal: 2 kB\nMemTotal: 3 kB\n".toList.splitOn '\n',
      labelled MemLabel.free.text line = none := by decide
  rw [Entry, hnone line hmem] at hline
  cases hline

end Monitor

end CAcheRein
