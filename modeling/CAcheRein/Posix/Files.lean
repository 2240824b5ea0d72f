import CAcheRein.Posix.Handles
import CAcheRein.Text.Lines

/-!
# Running on a file system

Surroundings for the programs in `Basic.lean`: a file system in which nothing can be written, and
that does not change while a program runs.

## Main results

* `FileSystem.honest` : it keeps the promises of the protocol of handles.
* `handles_safe` : the programs in any surroundings that do.
-/

namespace CAcheRein

namespace Posix

open Text Prog Handling

/-- A file system that can only be read. -/
structure FileSystem where
  /-- The file at a path. -/
  text : List Char → File
  /-- The entries of the directory at a path, in the order of `readdir`. -/
  names : List Char → Option (List (List Char))
  /-- The message for the error at a path. -/
  message : List Char → List Char
  pid : ℤ

/-- What is behind the numbers of handles: of a file its text and the offset, of a directory or a
stream what is still to come.  Numbers from `fresh` on have not been given out. -/
structure Opened where
  fd : ℕ → List Char × ℕ
  dir : ℕ → List (List Char)
  stream : ℕ → List Char
  fresh : ℕ

namespace FileSystem

variable (fs : FileSystem)

/-- What the number of a new handle for a resource is given to. -/
def acquire (r : Resource) (st : Opened) : Except (List Char) ℕ × Opened :=
  let new := { st with fresh := st.fresh + 1 }
  match r with
  | .file path .rdonly =>
    match fs.text path with
    | none => (.error (fs.message path), st)
    | some text => (.ok st.fresh, { new with fd := Function.update st.fd st.fresh (text, 0) })
  | .file path .create => (.error (fs.message path), st)
  | .dir path =>
    match fs.names path with
    | none => (.error (fs.message path), st)
    | some names => (.ok st.fresh, { new with dir := Function.update st.dir st.fresh names })
  | .stream path =>
    match fs.text path with
    | none => (.error (fs.message path), st)
    | some text => (.ok st.fresh, { new with stream := Function.update st.stream st.fresh text })

/-- The answers of the file system. -/
def env : Env Call Call.Answer Opened
  | st, .acquire r => fs.acquire r st
  | st, .read n size =>
    let bytes := ((st.fd n).1.drop (st.fd n).2).take size
    (some bytes,
      { st with fd := Function.update st.fd n ((st.fd n).1, (st.fd n).2 + bytes.length) })
  | st, .write n text => (if n = 1 ∨ n = 2 then some text.length else none, st)
  | st, .lseekSet n offset =>
    if offset < 0 then (-1, st)
    else (offset, { st with fd := Function.update st.fd n ((st.fd n).1, offset.toNat) })
  | st, .lseekCur n => (((st.fd n).2 : ℤ), st)
  | st, .readdir n =>
    ((st.dir n).head?, { st with dir := Function.update st.dir n (st.dir n).tail })
  | st, .fgets n size =>
    let line := (fgetsLines size [] (st.stream n)).head?
    (line, { st with stream :=
      Function.update st.stream n ((st.stream n).drop (line.getD []).length) })
  | st, .fscanf n fmt =>
    let r := scan (format fmt.toList) (st.stream n)
    (r.1, { st with stream := Function.update st.stream n r.2 })
  | st, .release _ => ((), st)
  | st, .printf _ => ((), st)
  | st, .perror _ => ((), st)
  | st, .getpid => (fs.pid, st)
  | st, .sleep _ => ((), st)

/-- Before anything is opened. -/
def start : Opened where
  fd _ := ([], 0)
  dir _ := []
  stream _ := []
  fresh := 3

end FileSystem

variable {fs : FileSystem} {bound m size : ℕ} {st st' : Opened} {s : Table Handle} {α : Type}

/-! ### The promises -/

/-- The number of a handle. -/
def Handle.number : Handle → ℕ
  | fd n => n
  | dir n => n
  | stream n => n

/-- A bound on the items still to come from a handle. -/
def Opened.left (st : Opened) : Handle → ℕ
  | .fd _ => 0
  | .dir n => (st.dir n).length
  | .stream n => (st.stream n).length

/-- The file system is small: no text and no directory has more than `bound` items. -/
structure FileSystem.Small (fs : FileSystem) (bound : ℕ) : Prop where
  text : ∀ path text, fs.text path = some text → text.length ≤ bound
  names : ∀ path names, fs.names path = some names → names.length ≤ bound

/-- The handles that are open have numbers that have been given out, and no more to come than they
may. -/
def Fits (st : Opened) (s : Table Handle) : Prop :=
  ∀ h m, s h = some m → h.number < st.fresh ∧ st.left h ≤ m

/-- `fgets` delivers something, and the text behind it. -/
theorem fgetsLines_split (acc text : List Char) {l : List Char} {ls : List (List Char)}
    (h : fgetsLines size acc text = l :: ls) : l ≠ [] ∧ acc.length ≤ l.length ∧
      fgetsLines size [] (text.drop (l.length - acc.length)) = ls := by
  induction text generalizing acc with
  | nil =>
    cases acc with
    | nil => cases h
    | cons c acc =>
      rw [fgetsLines] at h
      · cases h
        simp [fgetsLines]
      · rintro ⟨⟩
  | cons c text ih =>
    rw [fgetsLines_cons] at h
    split at h
    · cases h
      simp
    · obtain ⟨hne, hle, hrest⟩ := ih (c :: acc) h
      rw [List.length_cons] at hle hrest
      refine ⟨hne, by omega, ?_⟩
      rw [show l.length - acc.length = (l.length - (acc.length + 1)) + 1 by omega,
        List.drop_succ_cons]
      exact hrest

theorem Fits.update (hfits : Fits st s) {h : Handle} (hfresh : st.fresh ≤ st'.fresh)
    (hnew : h.number < st'.fresh) (hleft : st'.left h ≤ m)
    (hother : ∀ h' ≠ h, h'.number < st.fresh → st'.left h' = st.left h') :
    Fits st' (Function.update s h (some m)) := by
  intro h' m' hm'
  by_cases heq : h' = h
  · subst heq
    rw [Function.update_self] at hm'
    cases hm'
    exact ⟨hnew, hleft⟩
  · rw [Function.update_of_ne heq] at hm'
    obtain ⟨hnumber, hle⟩ := hfits h' m' hm'
    rw [hother h' heq hnumber]
    exact ⟨Nat.lt_of_lt_of_le hnumber hfresh, hle⟩

/-- Handles with less to come. -/
theorem Fits.mono (hfits : Fits st s) (hfresh : st'.fresh = st.fresh)
    (hleft : ∀ h, st'.left h ≤ st.left h) : Fits st' s := by
  intro h m hm
  obtain ⟨hnumber, hle⟩ := hfits h m hm
  rw [hfresh]
  exact ⟨hnumber, Nat.le_trans (hleft h) hle⟩

theorem Fits.close (hfits : Fits st s) (h : Handle) : Fits st (Function.update s h none) := by
  intro h' m hm
  by_cases heq : h' = h
  · subst heq
    rw [Function.update_self] at hm
    cases hm
  · rw [Function.update_of_ne heq] at hm
    exact hfits h' m hm

/-- What a new handle brings. -/
theorem acquire_spec (hsmall : fs.Small bound) (r : Resource) (st : Opened) :
    (∃ e, fs.acquire r st = (.error e, st)) ∨
      ∃ st', fs.acquire r st = (.ok st.fresh, st') ∧ st'.fresh = st.fresh + 1 ∧
        st'.left (r.handle st.fresh) ≤ bound ∧
        ∀ h ≠ r.handle st.fresh, st'.left h = st.left h := by
  cases r with
  | file path mode =>
    cases mode with
    | create => exact .inl ⟨_, rfl⟩
    | rdonly =>
      cases htext : fs.text path with
      | none => exact .inl ⟨fs.message path, by simp [FileSystem.acquire, htext]⟩
      | some text =>
        refine .inr ⟨_, by simp [FileSystem.acquire, htext]; rfl, rfl, Nat.zero_le _, ?_⟩
        intro h _
        cases h <;> rfl
  | dir path =>
    cases hnames : fs.names path with
    | none => exact .inl ⟨fs.message path, by simp [FileSystem.acquire, hnames]⟩
    | some names =>
      refine .inr ⟨_, by simp [FileSystem.acquire, hnames]; rfl, rfl, ?_, ?_⟩
      · simpa [Opened.left, Resource.handle] using hsmall.names path names hnames
      · intro h hne
        cases h with
        | dir n =>
          have hn : n ≠ st.fresh := fun heq => hne (congrArg Handle.dir heq)
          simp [Opened.left, hn]
        | fd n => rfl
        | stream n => rfl
  | stream path =>
    cases htext : fs.text path with
    | none => exact .inl ⟨fs.message path, by simp [FileSystem.acquire, htext]⟩
    | some text =>
      refine .inr ⟨_, by simp [FileSystem.acquire, htext]; rfl, rfl, ?_, ?_⟩
      · simpa [Opened.left, Resource.handle] using hsmall.text path text htext
      · intro h hne
        cases h with
        | stream n =>
          have hn : n ≠ st.fresh := fun heq => hne (congrArg Handle.stream heq)
          simp [Opened.left, hn]
        | fd n => rfl
        | dir n => rfl

/-- An item of a stream is drawn, or the stream ends. -/
theorem Fits.draw (hfits : Fits st s) {h : Handle} {drawn : Bool} (hfresh : st'.fresh = st.fresh)
    (hother : ∀ h' ≠ h, st'.left h' = st.left h') (hle : st'.left h ≤ st.left h)
    (hdrawn : drawn = true → st'.left h < st.left h) :
    (drawn = true → s h ≠ some 0) ∧
      Fits st' (if drawn then Function.update s h ((s h).map (· - 1)) else s) := by
  have hmono : ∀ h', st'.left h' ≤ st.left h' := by
    intro h'
    by_cases heq : h' = h
    · rw [heq]
      exact hle
    · exact Nat.le_of_eq (hother h' heq)
  cases hopen : s h with
  | none =>
    refine ⟨fun _ => by simp, ?_⟩
    have hsame : Function.update s h (Option.map (· - 1) none) = s := by
      rw [Option.map_none, ← hopen, Function.update_eq_self]
    rw [hsame, ite_self]
    exact hfits.mono hfresh hmono
  | some m =>
    obtain ⟨hnumber, hm⟩ := hfits h m hopen
    refine ⟨fun htrue hzero => ?_, ?_⟩
    · have hlt := hdrawn htrue
      obtain rfl : m = 0 := Option.some.inj hzero
      omega
    · split
      · next htrue =>
        have hlt := hdrawn htrue
        refine hfits.update (Nat.le_of_eq hfresh.symm) (hfresh ▸ hnumber) ?_ ?_
        · exact Nat.le_sub_one_of_lt (Nat.lt_of_lt_of_le hlt hm)
        · exact fun h' hne _ => hother h' hne
      · exact hfits.mono hfresh hmono

/-- A call that opens, closes and draws nothing. -/
theorem fits_quiet (hfits : Fits st s) {op : Call} {ans : op.Answer}
    (hopened : op.opened ans = none) (hclose : op.closes = false) (hdraws : op.draws ans = false)
    (hfresh : st'.fresh = st.fresh) (hleft : ∀ h, st'.left h ≤ st.left h) :
    (handling.protocol bound).promised s op ans ∧
      Fits st' ((handling.protocol bound).next s op ans) := by
  have hnext : (handling.protocol bound).next s op ans = s := next_of_quiet hopened hclose hdraws
  rw [hnext]
  exact ⟨promised_of_quiet hopened hdraws, hfits.mono hfresh hleft⟩

/-- A call for the next item. -/
theorem fits_draw (hfits : Fits st s) {op : Call} {ans : op.Answer} {h : Handle}
    (hopened : op.opened ans = none) (hneeds : op.needs = some h) (hclose : op.closes = false)
    (hfresh : st'.fresh = st.fresh) (hother : ∀ h' ≠ h, st'.left h' = st.left h')
    (hle : st'.left h ≤ st.left h) (hdrawn : op.draws ans = true → st'.left h < st.left h) :
    (handling.protocol bound).promised s op ans ∧
      Fits st' ((handling.protocol bound).next s op ans) := by
  obtain ⟨hpromised, hfits'⟩ := hfits.draw hfresh hother hle hdrawn
  have hnext : (handling.protocol bound).next s op ans =
      if op.draws ans then Function.update s h ((s h).map (· - 1)) else s :=
    next_of_needs hopened hneeds hclose
  rw [hnext]
  refine ⟨promised_iff.2 ⟨fun h' hh' => ?_, fun hdraw h' hh' => ?_⟩, hfits'⟩
  · exact nomatch hopened.symm.trans hh'
  · obtain rfl : h = h' := Option.some.inj (hneeds.symm.trans hh')
    exact hpromised hdraw

/-- One call: the answer is promised, and what is open still fits. -/
theorem fits_step (hsmall : fs.Small bound) (hfits : Fits st s) (op : Call) :
    (handling.protocol bound).promised s op (fs.env st op).1 ∧
      Fits (fs.env st op).2 ((handling.protocol bound).next s op (fs.env st op).1) := by
  cases op with
  | acquire r =>
    rcases acquire_spec hsmall r st with ⟨e, hans⟩ | ⟨st', hans, hfresh, hleft, hother⟩
    · have henv : fs.env st (.acquire r) = (.error e, st) := hans
      rw [henv]
      exact fits_quiet hfits rfl rfl rfl rfl fun _ => Nat.le_refl _
    · have henv : fs.env st (.acquire r) = (.ok st.fresh, st') := hans
      have hnumber : (r.handle st.fresh).number = st.fresh := by
        cases r <;> rfl
      rw [henv]
      refine ⟨promised_iff.2 ⟨fun h hh => ?_, fun hdraw => nomatch hdraw⟩, ?_⟩
      · obtain rfl : r.handle st.fresh = h := Option.some.inj hh
        cases hopen : s (r.handle st.fresh) with
        | none => rfl
        | some m =>
          -- what is open has a smaller number than the next
          have hlt := (hfits _ m hopen).1
          omega
      · have hnext : (handling.protocol bound).next s (.acquire r) (.ok st.fresh) =
            Function.update s (r.handle st.fresh) (some bound) := next_of_opened rfl
        rw [hnext]
        refine hfits.update ?_ ?_ hleft fun h hne _ => hother h hne
        · dsimp only
          omega
        · dsimp only
          omega
  | readdir n =>
    refine fits_draw hfits (h := .dir n) rfl rfl rfl rfl (fun h' hne => ?_) ?_ fun hdraw => ?_
    · cases h' with
      | dir n' =>
        have hn : n' ≠ n := fun heq => hne (congrArg Handle.dir heq)
        simp [Opened.left, FileSystem.env, hn]
      | fd n' => rfl
      | stream n' => rfl
    · simp [Opened.left, FileSystem.env]
    · -- a name is drawn only from what is left, which is then less
      have hne : st.dir n ≠ [] := by
        rintro hnil
        simp [Call.draws, FileSystem.env, hnil] at hdraw
      have hpos := List.length_pos_iff.2 hne
      simp only [Opened.left, FileSystem.env, Function.update_self, List.length_tail]
      omega
  | fgets n size =>
    refine fits_draw hfits (h := .stream n) rfl rfl rfl rfl (fun h' hne => ?_) ?_ fun hdraw => ?_
    · cases h' with
      | stream n' =>
        have hn : n' ≠ n := fun heq => hne (congrArg Handle.stream heq)
        simp [Opened.left, FileSystem.env, hn]
      | fd n' => rfl
      | dir n' => rfl
    · simp [Opened.left, FileSystem.env]
    · cases hlines : fgetsLines size [] (st.stream n) with
      | nil => simp [Call.draws, FileSystem.env, hlines] at hdraw
      | cons l ls =>
        -- a piece that `fgets` delivers is not empty
        obtain ⟨hne, -, -⟩ := fgetsLines_split [] _ hlines
        have hpos := List.length_pos_iff.2 hne
        have htext : (st.stream n).length ≠ 0 := by
          intro hnil
          rw [List.length_eq_zero_iff.1 hnil] at hlines
          cases hlines
        simp only [Opened.left, FileSystem.env, Function.update_self, hlines, List.head?_cons,
          Option.getD_some, List.length_drop]
        omega
  | fscanf n fmt =>
    -- `fscanf` moves on in the stream without drawing an item
    refine fits_quiet hfits rfl rfl rfl rfl fun h => ?_
    cases h with
    | stream n' =>
      by_cases hn : n' = n
      · subst hn
        have hle := length_scan (format fmt.toList) (st.stream n')
        simp only [Opened.left, FileSystem.env, Function.update_self]
        omega
      · simp [Opened.left, FileSystem.env, hn]
    | fd n' => exact Nat.le_refl _
    | dir n' => exact Nat.le_refl _
  | release h =>
    have hnext : (handling.protocol bound).next s (.release h) () = Function.update s h none :=
      next_of_closes rfl rfl rfl
    exact ⟨promised_of_quiet rfl rfl, hnext ▸ hfits.close h⟩
  | lseekSet n offset =>
    refine fits_quiet hfits rfl rfl rfl ?_ fun h => ?_
    · simp only [FileSystem.env]
      split <;> rfl
    · simp only [FileSystem.env]
      split <;> cases h <;> exact Nat.le_refl _
  | read n size =>
    exact fits_quiet hfits rfl rfl rfl rfl fun h => by cases h <;> exact Nat.le_refl _
  | write n text => exact fits_quiet hfits rfl rfl rfl rfl fun _ => Nat.le_refl _
  | lseekCur n => exact fits_quiet hfits rfl rfl rfl rfl fun _ => Nat.le_refl _
  | printf text => exact fits_quiet hfits rfl rfl rfl rfl fun _ => Nat.le_refl _
  | perror text => exact fits_quiet hfits rfl rfl rfl rfl fun _ => Nat.le_refl _
  | getpid => exact fits_quiet hfits rfl rfl rfl rfl fun _ => Nat.le_refl _
  | sleep n => exact fits_quiet hfits rfl rfl rfl rfl fun _ => Nat.le_refl _

/-- **A small file system keeps its promises**, to any program. -/
theorem FileSystem.honest (hsmall : fs.Small bound) (p : Program α) (hfits : Fits st s) :
    (handling.protocol bound).Honest s (p.run fs.env st).trace := by
  induction p generalizing st s with
  | ret a => trivial
  | out => trivial
  | call op k ih =>
    obtain ⟨hpromised, hfits'⟩ := fits_step hsmall hfits op
    exact ⟨hpromised, ih _ hfits'⟩

/-! ### The programs -/

/-- What is promised about the handles of a run: a call finds the handle it needs open, and in the
end the same handles are open as at the start. -/
structure HandlesSafe (bound : ℕ) (w : List (Event Call Call.Answer)) : Prop where
  found : ∀ before op ans rest, w = before ++ ⟨op, ans⟩ :: rest →
    ∀ h, op.needs = some h → (handling.protocol bound).after atStart before h ≠ none
  closed : (handling.protocol bound).after atStart w = atStart

theorem ready_atStart : handling.Ready atStart := by
  rintro h ⟨n, hn, rfl⟩
  rw [atStart, if_pos hn]
  exact Option.some_ne_none 0

/-- **No handle is used closed, closed twice or left open.**  In any surroundings that give out
handles that are not open, and streams that end, whatever else they answer, each of the programs
returns, and on its way every descriptor, directory stream and file stream it uses or closes is
open, and everything it opens is closed. -/
theorem handles_safe (main : Main) {τ : Type} (e : Env Call Call.Answer τ) (t : τ)
    (honest : (handling.protocol bound).Honest atStart ((main.program bound).run e t).trace) :
    ((main.program bound).run e t).result = some () ∧
      HandlesSafe bound ((main.program bound).run e t).trace := by
  obtain ⟨hfollows, ⟨u, hresult⟩, hafter⟩ :=
    Keeps.sound (keeps_main main) e t ready_atStart honest
  refine ⟨hresult, fun before op ans rest heq h hneeds => ?_, hafter⟩
  rw [heq] at hfollows
  exact Protocol.Follows.allowed hfollows h hneeds

/-- A file system with some files and directories. -/
def FileSystem.ofLists (files : List (List Char × List Char))
    (dirs : List (List Char × List (List Char))) : FileSystem where
  text path := files.lookup path
  names path := dirs.lookup path
  message _ := "No such file or directory".toList
  pid := 1

theorem FileSystem.small_ofLists {files : List (List Char × List Char)}
    {dirs : List (List Char × List (List Char))}
    (hfiles : ∀ f ∈ files, f.2.length ≤ bound) (hdirs : ∀ d ∈ dirs, d.2.length ≤ bound) :
    (FileSystem.ofLists files dirs).Small bound := by
  refine ⟨fun path text htext => ?_, fun path names hnames => ?_⟩
  · obtain ⟨l₁, l₂, heq, -⟩ := List.lookup_eq_some_iff.1 htext
    exact hfiles (path, text) (by rw [heq]; simp)
  · obtain ⟨l₁, l₂, heq, -⟩ := List.lookup_eq_some_iff.1 hnames
    exact hdirs (path, names) (by rw [heq]; simp)

/-- Six lines. -/
def meminfoSample : List Char :=
  "MemTotal: 8 kB\nMemFree: 4 kB\nMemAvailable: 6 kB\n".toList ++
    "Buffers: 1 kB\nCached: 2 kB\nActive: 3 kB\n".toList

/-- Nine lines. -/
def statusSample : List Char :=
  "Name: m\nUmask: 2\nState: R\nTgid: 1\nNgid: 0\n".toList ++
    "Pid: 1\nPPid: 0\nUid: 0\nGid: 0\n".toList

/-- A line without the label, and two with it. -/
def cpuinfoSample : List Char := "processor: 0\nmodel name: c\nmodel name: d\n".toList

/-- A file system with a thermal zone and two interfaces. -/
def FileSystem.sample : FileSystem :=
  FileSystem.ofLists
    [("/proc/sys/kernel/hostname".toList, "box\n".toList),
      ("/proc/meminfo".toList, meminfoSample),
      ("/proc/self/status".toList, statusSample),
      ("/proc/cpuinfo".toList, cpuinfoSample),
      ("/proc/stat".toList, "cpu 4 0 1 5 0\n".toList),
      ("/proc/uptime".toList, "9.50 3.00\n".toList),
      ("/sys/class/thermal/cooling_device0/type".toList, "cpu\n".toList),
      ("/sys/class/thermal/cooling_device0/temp".toList, "45500\n".toList),
      ("/sys/class/net/eth0/statistics/rx_bytes".toList, "70\n".toList),
      ("/sys/class/net/eth0/statistics/tx_bytes".toList, "9\n".toList)]
    [("/sys/class/net".toList, ["lo".toList, "eth0".toList])]

theorem FileSystem.small_sample : FileSystem.sample.Small 100 :=
  small_ofLists (by decide +kernel) (by decide)

/-- `ex03` where there are two interfaces. -/
theorem handles_safe_sample :
    ((Main.sysInterface.program 100).run FileSystem.sample.env FileSystem.start).result = some () ∧
      HandlesSafe 100
        ((Main.sysInterface.program 100).run FileSystem.sample.env FileSystem.start).trace := by
  refine handles_safe .sysInterface _ _ (FileSystem.honest FileSystem.small_sample _ ?_)
  rintro (n | n | n) m hm
  · rw [atStart] at hm
    split at hm
    · next hlt => exact ⟨hlt, Nat.zero_le m⟩
    · cases hm
  · cases hm
  · cases hm

end Posix

end CAcheRein
