import CAcheRein.Posix.Files

/-!
# What a program prints

The runs on a file system (`Files.lean`), by what they return and what they print on the standard
output.  A program that has closed what it opened can be judged by that alone, wherever it is run
(`Prints`); in between, what is behind the open handles counts (`PrintsFrom`).

## Main results

* `prints_readFile`, `prints_scanned` : a file that is opened, read once and closed.
* `prints_lines`, `prints_entries` : a loop over the lines of a file or the entries of a directory.
-/

namespace CAcheRein

namespace Posix

open Text Prog

/-- What a run has printed on the standard output. -/
def printed : List (Event Call Call.Answer) → List Char
  | [] => []
  | ⟨.printf text, _⟩ :: w => text ++ printed w
  | _ :: w => printed w

/-- Nothing has changed behind the numbers below `n`. -/
structure Frame (n : ℕ) (st st' : Opened) : Prop where
  fresh : st.fresh ≤ st'.fresh
  fd : ∀ i < n, st'.fd i = st.fd i
  dir : ∀ i < n, st'.dir i = st.dir i
  stream : ∀ i < n, st'.stream i = st.stream i

/-- From `st` the program returns `a`, prints `out`, and changes nothing below `n`. -/
def PrintsFrom {α : Type} (fs : FileSystem) (n : ℕ) (st : Opened) (p : Program α) (a : α)
    (out : List Char) : Prop :=
  ∃ w st', p.Does fs.env st a w st' ∧ printed w = out ∧ Frame n st st'

/-- The program returns `a` and prints `out`, whatever is open. -/
def Prints {α : Type} (fs : FileSystem) (p : Program α) (a : α) (out : List Char) : Prop :=
  ∀ st, PrintsFrom fs st.fresh st p a out

variable {fs : FileSystem} {n m size fuel : ℕ} {st st' st'' : Opened} {α β γ : Type} {a : α} {b : β}
  {p : Program α} {f : α → Program β} {text out out' : List Char} {path : List Char}
  {op : Call} {w w' : List (Event Call Call.Answer)}

theorem printed_append (w w' : List (Event Call Call.Answer)) :
    printed (w ++ w') = printed w ++ printed w' := by
  induction w with
  | nil => rfl
  | cons x w ih =>
    obtain ⟨op, ans⟩ := x
    cases op <;> simp only [List.cons_append, printed, ih, List.append_assoc]

theorem Frame.refl (n : ℕ) (st : Opened) : Frame n st st :=
  ⟨Nat.le_refl _, fun _ _ => rfl, fun _ _ => rfl, fun _ _ => rfl⟩

theorem Frame.trans (h : Frame n st st') (h' : Frame n st' st'') : Frame n st st'' where
  fresh := Nat.le_trans h.fresh h'.fresh
  fd i hi := (h'.fd i hi).trans (h.fd i hi)
  dir i hi := (h'.dir i hi).trans (h.dir i hi)
  stream i hi := (h'.stream i hi).trans (h.stream i hi)

theorem Frame.mono (h : Frame n st st') (hm : m ≤ n) : Frame m st st' where
  fresh := h.fresh
  fd i hi := h.fd i (Nat.lt_of_lt_of_le hi hm)
  dir i hi := h.dir i (Nat.lt_of_lt_of_le hi hm)
  stream i hi := h.stream i (Nat.lt_of_lt_of_le hi hm)

/-! ### Sequences -/

theorem printsFrom_ret (a : α) : PrintsFrom fs n st (ret a) a [] :=
  ⟨[], st, does_ret a st, rfl, Frame.refl n st⟩

/-- One call. -/
theorem printsFrom_call {out : List Char} (hout : printed [⟨op, (fs.env st op).1⟩] = out)
    (hframe : Frame n st (fs.env st op).2) :
    PrintsFrom fs n st (call op) (fs.env st op).1 out :=
  ⟨_, _, Does.call (does_ret _ _), hout, hframe⟩

/-- One call, and then the rest. -/
theorem PrintsFrom.call {k : op.Answer → Program β} (hop : printed [⟨op, (fs.env st op).1⟩] = [])
    (hframe : Frame n st (fs.env st op).2)
    (h : PrintsFrom fs n (fs.env st op).2 (k (fs.env st op).1) b out) :
    PrintsFrom fs n st (call op >>= k) b out := by
  obtain ⟨w, st', hdoes, hprinted, hframe'⟩ := h
  refine ⟨⟨op, (fs.env st op).1⟩ :: w, st', Does.call hdoes, ?_, hframe.trans hframe'⟩
  rw [← List.singleton_append, printed_append, hop, hprinted]
  rfl

theorem Prints.from (h : Prints fs p a out) (hn : n ≤ st.fresh) : PrintsFrom fs n st p a out := by
  obtain ⟨w, st', hdoes, hprinted, hframe⟩ := h st
  exact ⟨w, st', hdoes, hprinted, hframe.mono hn⟩

/-- What comes after a part of a program that is judged by itself. -/
theorem PrintsFrom.bind (h : PrintsFrom fs n st p a out)
    (hf : ∀ st', Frame n st st' → PrintsFrom fs n st' (f a) b out') :
    PrintsFrom fs n st (p >>= f) b (out ++ out') := by
  obtain ⟨w, st', hdoes, rfl, hframe⟩ := h
  obtain ⟨w', st'', hdoes', rfl, hframe'⟩ := hf st' hframe
  exact ⟨w ++ w', st'', Does.bind hdoes hdoes', printed_append w w', hframe.trans hframe'⟩

/-- The rest prints nothing. -/
theorem PrintsFrom.last (h : PrintsFrom fs n st p a out)
    (hf : ∀ st', Frame n st st' → PrintsFrom fs n st' (f a) b []) :
    PrintsFrom fs n st (p >>= f) b out := by
  rw [← List.append_nil out]
  exact h.bind hf

theorem prints_ret (a : α) : Prints fs (ret a) a [] := fun _ => printsFrom_ret a

theorem Prints.bind (h : Prints fs p a out) (hf : Prints fs (f a) b out') :
    Prints fs (p >>= f) b (out ++ out') :=
  fun st => PrintsFrom.bind (h st) fun _ hframe => hf.from hframe.fresh

/-- The rest prints nothing. -/
theorem Prints.last (h : Prints fs p a out) (hf : Prints fs (f a) b []) :
    Prints fs (p >>= f) b out :=
  fun st => PrintsFrom.last (h st) fun _ hframe => hf.from hframe.fresh

theorem prints_printf (text : List Char) : Prints fs (printf text) () text :=
  fun st => printsFrom_call (List.append_nil text) (Frame.refl _ st)

theorem prints_perror (text : List Char) : Prints fs (perror text) () [] :=
  fun st => printsFrom_call rfl (Frame.refl _ st)

theorem prints_sleep (n : ℕ) : Prints fs (sleep n) () [] :=
  fun st => printsFrom_call rfl (Frame.refl _ st)

theorem prints_getpid : Prints fs getpid fs.pid [] :=
  fun st => printsFrom_call rfl (Frame.refl _ st)

/-! ### Opening -/

/-- Opening something that is not there. -/
theorem prints_error {r : Resource} {f : Except (List Char) ℕ → Program β} {e : List Char}
    (hr : ∀ st, fs.acquire r st = (.error e, st)) (hf : Prints fs (f (.error e)) b out) :
    Prints fs (call (.acquire r) >>= f) b out := by
  intro st
  have henv : fs.env st (.acquire r) = (.error e, st) := hr st
  refine PrintsFrom.call rfl ?_ ?_
  · rw [henv]
    exact Frame.refl _ st
  · rw [henv]
    exact hf st

/-- Opening something that is there. -/
theorem prints_ok {r : Resource} {f : Except (List Char) ℕ → Program β}
    (hr : ∀ st, ∃ st', fs.acquire r st = (.ok st.fresh, st') ∧ Frame st.fresh st st' ∧
      PrintsFrom fs st.fresh st' (f (.ok st.fresh)) b out) :
    Prints fs (call (.acquire r) >>= f) b out := by
  intro st
  obtain ⟨st', hacquire, hframe, hrest⟩ := hr st
  have henv : fs.env st (.acquire r) = (.ok st.fresh, st') := hacquire
  refine PrintsFrom.call rfl ?_ ?_
  · rw [henv]
    exact hframe
  · rw [henv]
    exact hrest

theorem prints_openFd_error {f : Except (List Char) ℕ → Program β} (htext : fs.text path = none)
    (hf : Prints fs (f (.error (fs.message path))) b out) :
    Prints fs (openFd path .rdonly >>= f) b out :=
  prints_error (fun st => by simp only [FileSystem.acquire, htext]) hf

theorem prints_fopen_error {f : Except (List Char) ℕ → Program β} (htext : fs.text path = none)
    (hf : Prints fs (f (.error (fs.message path))) b out) :
    Prints fs (fopen path >>= f) b out :=
  prints_error (fun st => by simp only [FileSystem.acquire, htext]) hf

theorem prints_opendir_error {f : Except (List Char) ℕ → Program β}
    (hnames : fs.names path = none) (hf : Prints fs (f (.error (fs.message path))) b out) :
    Prints fs (opendir path >>= f) b out :=
  prints_error (fun st => by simp only [FileSystem.acquire, hnames]) hf

/-- What is done with a new number is not seen below it. -/
theorem frame_new {st' : Opened} (hfresh : st'.fresh = st.fresh + 1)
    (hfd : ∀ i ≠ st.fresh, st'.fd i = st.fd i) (hdir : ∀ i ≠ st.fresh, st'.dir i = st.dir i)
    (hstream : ∀ i ≠ st.fresh, st'.stream i = st.stream i) : Frame st.fresh st st' where
  fresh := by omega
  fd i hi := hfd i (Nat.ne_of_lt hi)
  dir i hi := hdir i (Nat.ne_of_lt hi)
  stream i hi := hstream i (Nat.ne_of_lt hi)

theorem prints_openFd {f : Except (List Char) ℕ → Program β} (htext : fs.text path = some text)
    (hf : ∀ n st, n < st.fresh → st.fd n = (text, 0) → PrintsFrom fs n st (f (.ok n)) b out) :
    Prints fs (openFd path .rdonly >>= f) b out := by
  refine prints_ok fun st =>
    ⟨{ st with fd := Function.update st.fd st.fresh (text, 0), fresh := st.fresh + 1 },
      by simp only [FileSystem.acquire, htext], ?_, ?_⟩
  · refine frame_new rfl (fun i hi => ?_) (fun _ _ => rfl) fun _ _ => rfl
    exact Function.update_of_ne hi ..
  · exact hf _ _ (Nat.lt_succ_self _) (Function.update_self ..)

theorem prints_fopen {f : Except (List Char) ℕ → Program β} (htext : fs.text path = some text)
    (hf : ∀ n st, n < st.fresh → st.stream n = text → PrintsFrom fs n st (f (.ok n)) b out) :
    Prints fs (fopen path >>= f) b out := by
  refine prints_ok fun st =>
    ⟨{ st with stream := Function.update st.stream st.fresh text, fresh := st.fresh + 1 },
      by simp only [FileSystem.acquire, htext], ?_, ?_⟩
  · refine frame_new rfl (fun _ _ => rfl) (fun _ _ => rfl) fun i hi => ?_
    exact Function.update_of_ne hi ..
  · exact hf _ _ (Nat.lt_succ_self _) (Function.update_self ..)

theorem prints_opendir {f : Except (List Char) ℕ → Program β} {names : List (List Char)}
    (hnames : fs.names path = some names)
    (hf : ∀ n st, n < st.fresh → st.dir n = names → PrintsFrom fs n st (f (.ok n)) b out) :
    Prints fs (opendir path >>= f) b out := by
  refine prints_ok fun st =>
    ⟨{ st with dir := Function.update st.dir st.fresh names, fresh := st.fresh + 1 },
      by simp only [FileSystem.acquire, hnames], ?_, ?_⟩
  · refine frame_new rfl (fun _ _ => rfl) (fun i hi => ?_) fun _ _ => rfl
    exact Function.update_of_ne hi ..
  · exact hf _ _ (Nat.lt_succ_self _) (Function.update_self ..)

/-! ### Reading once -/

/-- A call on the handle `n` changes nothing below it. -/
theorem frame_read (n size : ℕ) (st : Opened) : Frame n st (fs.env st (.read n size)).2 :=
  ⟨Nat.le_refl _, fun _ hi => Function.update_of_ne (Nat.ne_of_lt hi) .., fun _ _ => rfl,
    fun _ _ => rfl⟩

theorem frame_fscanf (n : ℕ) (fmt : String) (st : Opened) :
    Frame n st (fs.env st (.fscanf n fmt)).2 :=
  ⟨Nat.le_refl _, fun _ _ => rfl, fun _ _ => rfl,
    fun _ hi => Function.update_of_ne (Nat.ne_of_lt hi) ..⟩

/-- Closing, and then something else. -/
theorem printsFrom_release {h : Handle} {k : Unit → Program β} (hn : n ≤ st.fresh)
    (hk : Prints fs (k ()) b out) : PrintsFrom fs n st (call (.release h) >>= k) b out :=
  PrintsFrom.call rfl (Frame.refl n st) (hk.from hn)

/-- **A file that is opened, read once and closed.** -/
theorem prints_readFile {f : Except (List Char) ℕ → Program β}
    {k : Option (List Char) → Program β} (htext : fs.text path = some text)
    (hf : ∀ n, f (.ok n) = read n size >>= fun buf => close n >>= fun _ => k buf)
    (hk : Prints fs (k (some (text.take size))) b out) :
    Prints fs (openFd path .rdonly >>= f) b out := by
  refine prints_openFd htext fun n st hn hfd => ?_
  have hans : (fs.env st (.read n size)).1 = some (text.take size) := by
    simp only [FileSystem.env, hfd, List.drop_zero]
  rw [hf]
  refine PrintsFrom.call rfl (frame_read n size st) ?_
  rw [hans]
  exact printsFrom_release (Nat.le_of_lt hn) hk

/-- **A file that is opened, scanned once and closed.** -/
theorem prints_scanned {f : Except (List Char) ℕ → Program β} {fmt : String}
    {k : List ℚ → Program β} (htext : fs.text path = some text)
    (hf : ∀ n, f (.ok n) = fscanf n fmt >>= fun items => fclose n >>= fun _ => k items)
    (hk : Prints fs (k (scan (format fmt.toList) text).1) b out) :
    Prints fs (fopen path >>= f) b out := by
  refine prints_fopen htext fun n st hn hstream => ?_
  have hans : (fs.env st (.fscanf n fmt)).1 = (scan (format fmt.toList) text).1 := by
    simp only [FileSystem.env, hstream]
  rw [hf]
  refine PrintsFrom.call rfl (frame_fscanf n fmt st) ?_
  rw [hans]
  exact printsFrom_release (Nat.le_of_lt hn) hk

/-! ### Loops -/

/-- A loop over items, of which `g` says what is done with one: what it returns and prints. -/
def foldItems (g : β → γ → (Bool × γ) × List Char) : List β → γ → γ × List Char
  | [], c => (c, [])
  | x :: xs, c =>
    if (g x c).1.1 then
      ((foldItems g xs (g x c).1.2).1, (g x c).2 ++ (foldItems g xs (g x c).1.2).2)
    else ((g x c).1.2, (g x c).2)

variable {g : β → γ → (Bool × γ) × List Char} {body : β → γ → Program (Bool × γ)}

theorem prints_each (xs : List β) (hbody : ∀ x ∈ xs, ∀ c, Prints fs (body x c) (g x c).1 (g x c).2)
    (c : γ) : Prints fs (each body xs c) (foldItems g xs c).1 (foldItems g xs c).2 := by
  induction xs generalizing c with
  | nil => exact prints_ret c
  | cons x xs ih =>
    have hrest := ih fun y hy => hbody y (List.mem_cons_of_mem x hy)
    rw [each, foldItems]
    split
    · next hgo =>
      refine Prints.bind (hbody x List.mem_cons_self c) ?_
      rw [if_pos hgo]
      exact hrest _
    · next hstop =>
      rw [← List.append_nil (g x c).2]
      refine Prints.bind (hbody x List.mem_cons_self c) ?_
      rw [if_neg hstop]
      exact prints_ret _

/-- The call `op` delivers the items `items st` of the handle `n`, one by one. -/
structure Delivers (fs : FileSystem) (n : ℕ) (op : Call) (item : op.Answer → Option β)
    (items : Opened → List β) : Prop where
  quiet : ∀ ans, printed [⟨op, ans⟩] = []
  answer : ∀ st, item (fs.env st op).1 = (items st).head?
  left : ∀ st, items (fs.env st op).2 = (items st).tail
  frame : ∀ st, Frame n st (fs.env st op).2
  fresh : ∀ st, (fs.env st op).2.fresh = st.fresh
  keeps : ∀ st st', n < st.fresh → Frame st.fresh st st' → items st' = items st

/-- **A loop that draws items.** -/
theorem Delivers.printsFrom {item : op.Answer → Option β} {items : Opened → List β}
    (hd : Delivers fs n op item items) (xs : List β)
    (hbody : ∀ x ∈ xs, ∀ c, Prints fs (body x c) (g x c).1 (g x c).2) :
    ∀ fuel c st, items st = xs → xs.length < fuel → n < st.fresh →
      PrintsFrom fs n st (drain op item body fuel c) (foldItems g xs c).1 (foldItems g xs c).2 := by
  induction xs with
  | nil =>
    intro fuel c st hitems hfuel hn
    obtain ⟨fuel, rfl⟩ := Nat.exists_eq_add_one.2 hfuel
    refine PrintsFrom.call (hd.quiet _) (hd.frame st) ?_
    rw [hd.answer, hitems]
    exact printsFrom_ret c
  | cons x xs ih =>
    intro fuel c st hitems hfuel hn
    obtain ⟨fuel, rfl⟩ := Nat.exists_eq_add_one.2 (Nat.zero_lt_of_lt hfuel)
    have hleft : items (fs.env st op).2 = xs := by
      rw [hd.left, hitems]
      rfl
    have hn' : n < (fs.env st op).2.fresh := by
      rw [hd.fresh]
      exact hn
    refine PrintsFrom.call (hd.quiet _) (hd.frame st) ?_
    rw [hd.answer, hitems, foldItems]
    obtain ⟨w, st', hdoes, hprinted, hframe⟩ := hbody x List.mem_cons_self c (fs.env st op).2
    -- the body opens and closes handles of its own, and leaves this one alone
    have hkeep : items st' = xs := (hd.keeps _ _ hn' hframe).trans hleft
    have hn'' : n < st'.fresh := Nat.lt_of_lt_of_le hn' hframe.fresh
    have hbelow : Frame n (fs.env st op).2 st' := hframe.mono (Nat.le_of_lt hn')
    by_cases hgo : (g x c).1.1 = true
    · obtain ⟨w', st'', hdoes', hprinted', hframe'⟩ :=
        ih (fun y hy => hbody y (List.mem_cons_of_mem x hy)) fuel (g x c).1.2 st' hkeep
          (by rw [List.length_cons] at hfuel; omega) hn''
      rw [if_pos hgo]
      refine ⟨w ++ w', st'', Does.bind hdoes ?_, ?_, hbelow.trans hframe'⟩
      · rw [if_pos hgo]
        exact hdoes'
      · rw [printed_append, hprinted, hprinted']
    · rw [if_neg hgo]
      refine ⟨w ++ [], st', Does.bind hdoes ?_, ?_, hbelow⟩
      · rw [if_neg hgo]
        exact does_ret _ _
      · rw [List.append_nil, hprinted]

theorem delivers_readdir (n : ℕ) :
    Delivers fs n (.readdir n) (fun name : Option (List Char) => name) fun st => st.dir n where
  quiet _ := rfl
  answer _ := rfl
  left _ := Function.update_self ..
  frame _ := ⟨Nat.le_refl _, fun _ _ => rfl,
    fun _ hi => Function.update_of_ne (Nat.ne_of_lt hi) .., fun _ _ => rfl⟩
  fresh _ := rfl
  keeps _ _ hn hframe := hframe.dir n hn

theorem delivers_fgets (n size : ℕ) :
    Delivers fs n (.fgets n size) (fun line : Option (List Char) => line)
      fun st => fgetsLines size [] (st.stream n) where
  quiet _ := rfl
  answer _ := rfl
  left st := by
    change fgetsLines size [] (Function.update st.stream n _ n) = _
    rw [Function.update_self]
    cases hlines : fgetsLines size [] (st.stream n) with
    | nil => exact hlines
    | cons l ls => exact (fgetsLines_split [] _ hlines).2.2
  frame _ := ⟨Nat.le_refl _, fun _ _ => rfl, fun _ _ => rfl,
    fun _ hi => Function.update_of_ne (Nat.ne_of_lt hi) ..⟩
  fresh _ := rfl
  keeps st st' hn hframe := by rw [hframe.stream n hn]

/-- **A loop over the lines of a file.** -/
theorem prints_lines {f : Except (List Char) ℕ → Program α} {k : γ → Program α} {c : γ}
    {g : List Char → γ → (Bool × γ) × List Char} {body : List Char → γ → Program (Bool × γ)}
    {lines : List (List Char)} (htext : fs.text path = some text)
    (hlines : fgetsLines size [] text = lines)
    (hf : ∀ n, f (.ok n) = eachLine n size body fuel c >>= fun r => fclose n >>= fun _ => k r)
    (hfuel : lines.length < fuel)
    (hbody : ∀ line ∈ lines, ∀ c, Prints fs (body line c) (g line c).1 (g line c).2)
    (hk : Prints fs (k (foldItems g lines c).1) a out) :
    Prints fs (fopen path >>= f) a ((foldItems g lines c).2 ++ out) := by
  refine prints_fopen htext fun n st hn hstream => ?_
  have hloop := (delivers_fgets n size).printsFrom lines hbody fuel c st
    (by rw [hstream, hlines]) hfuel hn
  rw [hf]
  exact PrintsFrom.bind hloop fun st' hframe =>
    printsFrom_release (Nat.le_trans (Nat.le_of_lt hn) hframe.fresh) hk

/-- **A loop over the entries of a directory.** -/
theorem prints_entries {f : Except (List Char) ℕ → Program α} {k : Unit → Program α}
    {g : List Char → (Bool × Unit) × List Char} {body : List Char → Program (Bool × Unit)}
    {names : List (List Char)} (hnames : fs.names path = some names)
    (hf : ∀ n, f (.ok n) = eachEntry n body fuel () >>= fun _ => closedir n >>= fun _ => k ())
    (hfuel : names.length < fuel)
    (hbody : ∀ name ∈ names, Prints fs (body name) (g name).1 (g name).2)
    (hk : Prints fs (k ()) a out) :
    Prints fs (opendir path >>= f) a ((foldItems (fun name _ => g name) names ()).2 ++ out) := by
  refine prints_opendir hnames fun n st hn hdir => ?_
  have hloop := (delivers_readdir n).printsFrom names (fun name hname _ => hbody name hname)
    fuel () st hdir hfuel hn
  rw [hf]
  exact PrintsFrom.bind hloop fun st' hframe =>
    printsFrom_release (Nat.le_trans (Nat.le_of_lt hn) hframe.fresh) hk

end Posix

end CAcheRein
