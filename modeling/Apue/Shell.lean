/-
Apue/Shell.lean

The shell of `1/8_read_command_and_execute.cpp`: it reads lines, splits them at white space and
runs the words of each as a command.

    while (std::getline(std::cin, line)) {
        if (line.empty()) continue;
        while (ss >> arg) args_storage.push_back(arg);
        fork;  in the child: execvp(argv_c[0], argv_c.data());  in the parent: waitpid
    }

Every line that is not empty is one command, and its arguments are the words of the line, however
they are spaced.  A line of blanks is not empty: there the child calls `execvp` with a null
pointer, and dies.

`std::cin` reads through the buffer of `stdin`, of which a child gets a copy, while the offset of
the open file is one for all.  If `execvp` fails the child calls `std::exit`, which gives back what
the copy has not used: it moves the offset, if the file can seek.  So the shell does what it is told
if its input is a pipe or a terminal, or if no `execvp` fails (`main_executes`); but of a file, the
rest after a command that cannot be executed is run twice (`main_repeats`), and with two such
commands the shell may never end (`main_loops`).

The commands do not read from the standard input, and `read` does not fail.  Left out: the handler
for SIGINT, what the children print (among it the prompts that `std::exit` finds in the copy of
the output buffer), and the texts other than the prompt.
-/
import Mathlib.Data.List.Forall2
import Apue.Machine
import Apue.UnixSocket

namespace Apue.Shell

open IStream UnixSocket ByteCodec

/-! ### The standard input -/

/-- `stdin`, and the open file behind it. -/
structure Stdin where
  file : List UInt8
  /-- a pipe or a terminal cannot -/
  seekable : Bool
  bufSize : ℕ
  bufSize_pos : 0 < bufSize
  /-- the offset of the open file, which the children share -/
  off : ℕ
  /-- what was read from the file and not used yet -/
  buf : List UInt8

namespace Stdin

/-- `read` into the empty buffer. -/
def fill (s : Stdin) : Stdin :=
  { s with buf := (s.file.drop s.off).take s.bufSize,
           off := s.off + ((s.file.drop s.off).take s.bufSize).length }

/-- `getc(stdin)`. -/
def getc (s : Stdin) : Option UInt8 × Stdin :=
  let s := if s.buf = [] then s.fill else s
  match s.buf with
  | [] => (none, s)
  | b :: buf => (some b, { s with buf := buf })

/-- What is still to be read, if nobody moves the offset. -/
def rest (s : Stdin) : List UInt8 := s.buf ++ s.file.drop s.off

theorem rest_fill {s : Stdin} (h : s.buf = []) : s.fill.rest = s.rest := by
  have hlen : ((s.file.drop s.off).take s.bufSize).length ≤ (s.file.drop s.off).length := by
    rw [List.length_take]
    exact Nat.min_le_right _ _
  rw [rest, rest, h, fill, List.nil_append]
  dsimp only
  rw [← List.drop_drop]
  conv_rhs => rw [← List.take_append_drop s.bufSize (s.file.drop s.off)]
  congr 1
  rw [List.length_take]
  rcases Nat.le_total s.bufSize (s.file.drop s.off).length with hle | hle
  · rw [Nat.min_eq_left hle]
  · rw [Nat.min_eq_right hle, List.drop_length, List.drop_eq_nil_of_le hle]

/-- There is something in the buffer if there is something left. -/
theorem buf_fill_ne_nil {s : Stdin} (h : s.file.drop s.off ≠ []) : s.fill.buf ≠ [] := by
  have hpos := s.bufSize_pos
  simp only [fill, ne_eq, List.take_eq_nil_iff, not_or]
  exact ⟨by omega, h⟩

theorem getc_of_buf {s : Stdin} {b : UInt8} {buf : List UInt8} (h : s.buf = b :: buf) :
    s.getc = (some b, { s with buf := buf }) := by
  rw [getc, if_neg (by simp [h]), h]

/-- The buffer is filled when it is empty. -/
theorem getc_fill {s : Stdin} (h : s.buf = []) (hmore : s.file.drop s.off ≠ []) :
    s.getc = s.fill.getc := by
  rw [getc, getc, if_pos h, if_neg (buf_fill_ne_nil hmore)]

theorem getc_of_rest_nil {s : Stdin} (h : s.rest = []) : s.getc = (none, s.fill) := by
  obtain ⟨hbuf, hdrop⟩ := List.append_eq_nil_iff.mp h
  rw [getc, if_pos hbuf]
  simp [fill, hdrop]

/-- `getc` takes the next byte. -/
theorem getc_of_rest_cons {s : Stdin} {b : UInt8} {tail : List UInt8} (h : s.rest = b :: tail) :
    ∃ s', s.getc = (some b, s') ∧ s'.rest = tail ∧ s'.seekable = s.seekable := by
  have hbuf : ∀ s : Stdin, s.buf ≠ [] → s.rest = b :: tail →
      ∃ s', s.getc = (some b, s') ∧ s'.rest = tail ∧ s'.seekable = s.seekable := by
    intro s hne hrest
    cases hb : s.buf with
    | nil => exact absurd hb hne
    | cons c buf =>
        rw [rest, hb, List.cons_append] at hrest
        obtain ⟨rfl, htail⟩ := List.cons.inj hrest
        exact ⟨_, getc_of_buf hb, htail, rfl⟩
  by_cases hempty : s.buf = []
  · have hmore : s.file.drop s.off ≠ [] := by
      intro hnil
      rw [rest, hempty, hnil] at h
      cases h
    rw [getc_fill hempty hmore]
    exact hbuf s.fill (buf_fill_ne_nil hmore) ((rest_fill hempty).trans h)
  · exact hbuf s hempty h

theorem length_getc_lt {s s' : Stdin} {b : UInt8} (h : s.getc = (some b, s')) :
    s'.rest.length < s.rest.length := by
  cases hrest : s.rest with
  | nil =>
      rw [getc_of_rest_nil hrest] at h
      cases h
  | cons c tail =>
      obtain ⟨s'', hc, rfl, -⟩ := getc_of_rest_cons hrest
      rw [hc] at h
      cases h
      exact Nat.lt_succ_self _

/-- A line, and whether it has ended with a newline. -/
def getline (s : Stdin) : (List UInt8 × Bool) × Stdin :=
  match _h : s.getc with
  | (none, s) => (([], false), s)
  | (some b, s) =>
      if b = 10 then (([], true), s)
      else
        let ((line, newline), s) := getline s
        ((b :: line, newline), s)
termination_by s.rest.length
decreasing_by exact length_getc_lt _h

theorem getline_of_none {s s' : Stdin} (h : s.getc = (none, s')) :
    s.getline = (([], false), s') := by
  rw [getline]
  split
  · next h' =>
    rw [h] at h'
    cases h'
    rfl
  · next h' =>
    rw [h] at h'
    cases h'

theorem getline_of_some {s s' : Stdin} {b : UInt8} (h : s.getc = (some b, s')) :
    s.getline = if b = 10 then (([], true), s')
      else ((b :: s'.getline.1.1, s'.getline.1.2), s'.getline.2) := by
  rw [getline]
  split
  · next h' =>
    rw [h] at h'
    cases h'
  · next h' =>
    rw [h] at h'
    cases h'
    rfl

/-- The next line is read. -/
theorem getline_line {line tail : List UInt8} (hline : 10 ∉ line) : ∀ {s : Stdin},
    s.rest = line ++ 10 :: tail →
      ∃ s', s.getline = ((line, true), s') ∧ s'.rest = tail ∧ s'.seekable = s.seekable := by
  induction line with
  | nil =>
      intro s h
      obtain ⟨s', hc, hrest, hseek⟩ := getc_of_rest_cons h
      exact ⟨s', by rw [getline_of_some hc, if_pos rfl], hrest, hseek⟩
  | cons b line ih =>
      intro s h
      obtain ⟨hb, hline⟩ := not_or.mp (List.mem_cons.not.mp hline)
      obtain ⟨s₁, hc, hrest₁, hseek₁⟩ := getc_of_rest_cons h
      obtain ⟨s', hget, hrest, hseek⟩ := ih hline hrest₁
      refine ⟨s', ?_, hrest, hseek.trans hseek₁⟩
      rw [getline_of_some hc, if_neg (Ne.symm hb), hget]

/-- The next line is in the buffer. -/
theorem getline_buf {line tail : List UInt8} (hline : 10 ∉ line) : ∀ {s : Stdin},
    s.buf = line ++ 10 :: tail → s.getline = ((line, true), { s with buf := tail }) := by
  induction line with
  | nil =>
      intro s h
      rw [getline_of_some (getc_of_buf h), if_pos rfl]
  | cons b line ih =>
      intro s h
      obtain ⟨hb, hline⟩ := not_or.mp (List.mem_cons.not.mp hline)
      rw [List.cons_append] at h
      rw [getline_of_some (getc_of_buf h), if_neg (Ne.symm hb),
        ih hline (s := { s with buf := line ++ 10 :: tail }) rfl]

theorem getline_fill {s : Stdin} (h : s.buf = []) (hmore : s.file.drop s.off ≠ []) :
    s.getline = s.fill.getline := by
  have hsame := getc_fill h hmore
  rcases hc : s.fill.getc with ⟨_ | b, s'⟩
  · rw [getline_of_none hc, getline_of_none (hsame.trans hc)]
  · rw [getline_of_some hc, getline_of_some (hsame.trans hc)]

/-- `std::exit` in a child with a copy of the buffer.  `lseek` fails if the file cannot seek, or
if the offset would be negative. -/
def childExits (s : Stdin) : Stdin :=
  if s.seekable = true ∧ s.buf.length ≤ s.off then { s with off := s.off - s.buf.length } else s

end Stdin

/-! ### The program -/

/-- The strings `argv_c` points to, up to the null pointer.  The kernel reads them as C
strings. -/
def argv (line : List UInt8) : List (List UInt8) := (ofBytes line).words.map cStr

/-- `argv_c[0]` is the null pointer on a line of blanks. -/
theorem argv_eq_nil_iff {line : List UInt8} : argv line = [] ↔ Blank line := by
  rw [argv, List.map_eq_nil_iff, words_eq_iff]
  constructor
  · intro h
    cases h with
    | blank hblank => exact hblank
  · exact .blank

/-- How the calls for one line go. -/
inductive Outcome
  | done
  | execFails
  | forkFails
  | waitFails
  deriving DecidableEq, Repr

structure State where
  stdin : Stdin
  /-- `std::cin.eof()` -/
  eof : Bool
  /-- the status with which the shell has ended -/
  status : Option ℕ

/-- `std::getline(std::cin, line)`. -/
def State.getline (s : State) : Option (List UInt8) × State :=
  if s.eof then (none, s)
  else
    let ((line, newline), stdin) := s.stdin.getline
    (if newline = false ∧ line = [] then none else some line,
      { s with stdin := stdin, eof := !newline })

/-- One iteration of the loop of `main`. -/
def step (s : State) (o : Outcome) : Option State :=
  if s.status.isSome then none
  else
    match s.getline with
    | (none, s) => some { s with status := some 0 }
    | (some line, s) =>
        if line = [] then some s
        else
          match o with
          | .done => some s
          | .execFails => some { s with stdin := s.stdin.childExits }
          | .forkFails | .waitFails => some { s with status := some 1 }

/-- `main`, after its first prompt. -/
def shell : Machine State Outcome where
  init s := s.stdin.off = 0 ∧ s.stdin.buf = [] ∧ s.eof = false ∧ s.status = none
  next := step

inductive Event
  | prompt
  | exec (args : List (List UInt8))
  deriving DecidableEq, Repr

/-- What is to be seen of an iteration. -/
def observe (s : State) (o : Outcome) : List Event :=
  match s.getline.1 with
  | none => []
  | some line => .prompt :: if line = [] ∨ o = .forkFails then [] else [.exec (argv line)]

/-- The shell, with the record of its prompts and of the calls of `execvp`. -/
def shellObserved : Machine (State × List Event) Outcome := shell.recorded observe

/-! ### Lines -/

/-- A line of the input and its words. -/
structure Line where
  bytes : List UInt8
  words : List (List UInt8)
  splits : Splits bytes words
  one : 10 ∉ bytes

/-- Any bytes without a newline are a line. -/
def Line.ofBytes (bytes : List UInt8) (h : 10 ∉ bytes) : Line :=
  ⟨bytes, (IStream.ofBytes bytes).words, words_eq_iff.mp rfl, h⟩

theorem Line.argv_bytes (line : Line) : argv line.bytes = line.words.map cStr := by
  rw [argv, words_eq_iff.mpr line.splits]

def text (script : List Line) : List UInt8 := script.flatMap fun line => line.bytes ++ [10]

/-- What the shell is to do with a line: an empty one is no command. -/
def Line.events (line : Line) : List Event :=
  .prompt :: if line.bytes = [] then [] else [.exec (line.words.map cStr)]

def events (script : List Line) : List Event := script.flatMap Line.events

section Lines

variable {script : List Line} {line : Line}

theorem text_cons : text (line :: script) = line.bytes ++ 10 :: text script := by
  simp [text]

theorem text_append (script script' : List Line) :
    text (script ++ script') = text script ++ text script' :=
  List.flatMap_append

theorem text_ne_nil : text (line :: script) ≠ [] := by
  rw [text_cons]
  simp

theorem events_append (script script' : List Line) :
    events (script ++ script') = events script ++ events script' :=
  List.flatMap_append

theorem events_cons : events (line :: script) = line.events ++ events script :=
  List.flatMap_cons

/-- Every text that ends with a newline is the text of a script. -/
theorem exists_script (cin : List UInt8) : ∃ script, text script = cin ++ [10] := by
  induction cin with
  | nil => exact ⟨[.ofBytes [] (by simp)], rfl⟩
  | cons b cin ih =>
      obtain ⟨script, hscript⟩ := ih
      by_cases hb : b = 10
      · subst hb
        exact ⟨.ofBytes [] (by simp) :: script, by rw [text_cons, hscript]; rfl⟩
      · -- the byte goes to the first line
        cases script with
        | nil => simp [text] at hscript
        | cons line script =>
            refine ⟨.ofBytes (b :: line.bytes) ?_ :: script, ?_⟩
            · simpa [Ne.symm hb] using line.one
            · rw [text_cons] at hscript
              rw [text_cons, List.cons_append, ← hscript]
              rfl

end Lines

/-! ### One line -/

section Step

variable {s s' : State} {l : List Event} {line : Line} {script : List Line} {o : Outcome}

/-- The loop goes on. -/
structure State.Runs (s : State) : Prop where
  eof : s.eof = false
  status : s.status = none

theorem runs_of_init (hinit : shell.init s) : s.Runs := ⟨hinit.2.2.1, hinit.2.2.2⟩

theorem getline_of_line (hs : s.Runs) {bytes : List UInt8} {stdin : Stdin}
    (hget : s.stdin.getline = ((bytes, true), stdin)) :
    s.getline = (some bytes, { s with stdin := stdin }) := by
  rw [State.getline, hs.eof, hget]
  simp

/-- What the shell does with a line that it has read. -/
theorem next_line (hs : s.Runs) {stdin : Stdin}
    (hget : s.stdin.getline = ((line.bytes, true), stdin)) :
    shellObserved.next (s, l) o =
      if line.bytes = [] then some ({ s with stdin := stdin }, l ++ line.events)
      else
        match o with
        | .done => some ({ s with stdin := stdin }, l ++ line.events)
        | .execFails => some ({ s with stdin := stdin.childExits }, l ++ line.events)
        | .forkFails => some ({ s with stdin := stdin, status := some 1 }, l ++ [.prompt])
        | .waitFails => some ({ s with stdin := stdin, status := some 1 }, l ++ line.events) := by
  have hline := getline_of_line hs hget
  have hargv := line.argv_bytes
  by_cases hempty : line.bytes = []
  · simp [shellObserved, Machine.recorded, shell, step, observe, hline, hs.status, Line.events,
      hempty]
  · cases o <;>
      simp [shellObserved, Machine.recorded, shell, step, observe, hline, hs.status, Line.events,
        hempty, hargv]

/-- The end of the input. -/
theorem next_end (hs : s.Runs) (hrest : s.stdin.rest = []) :
    ∃ s', shellObserved.next (s, l) o = some (s', l) ∧ s'.status = some 0 := by
  have hget := Stdin.getline_of_none (Stdin.getc_of_rest_nil hrest)
  refine ⟨⟨s.stdin.fill, true, some 0⟩, ?_, rfl⟩
  simp [shellObserved, Machine.recorded, shell, step, observe, State.getline, hs.eof, hget,
    hs.status]

/-- When the shell has ended nothing happens any more. -/
theorem next_of_status (hs : s.status ≠ none) : shellObserved.next (s, l) o = none := by
  have hsome : s.status.isSome = true := Option.isSome_iff_ne_none.mpr hs
  simp [shellObserved, Machine.recorded, shell, step, hsome]

theorem os_nil_of_status {os : List Outcome} {p : State × List Event} (hs : s.status ≠ none)
    (h : shellObserved.run (s, l) os = some p) : os = [] ∧ p = (s, l) := by
  cases os with
  | nil => exact ⟨rfl, (Option.some.inj h).symm⟩
  | cons o os =>
      rw [Machine.run_cons, next_of_status hs] at h
      cases h

/-- As long as the shell has not ended, it goes on. -/
theorem exists_next (hs : s.status = none) (o : Outcome) :
    ∃ p, shellObserved.next (s, l) o = some p := by
  have hstep : ∃ s', step s o = some s' := by
    rw [step, hs]
    simp only [Option.isSome_none, Bool.false_eq_true, if_false]
    split
    · exact ⟨_, rfl⟩
    · split
      · exact ⟨_, rfl⟩
      · cases o <;> exact ⟨_, rfl⟩
  obtain ⟨s', hs'⟩ := hstep
  exact ⟨_, Machine.next_recorded hs' l⟩

end Step

/-! ### The shell does what it is told -/

/-- The outcomes for these lines, without a failure that ends the shell. -/
def Went : List Line → List Outcome → Prop :=
  List.Forall₂ fun line o => line.bytes = [] ∨ o = .done ∨ o = .execFails

/-- What a run of the shell on a script comes to: the outcomes so far, the exit status, and
what was seen. -/
inductive Ran (script : List Line) : List Outcome → Option ℕ → List Event → Prop
  | running {before after os} : script = before ++ after → Went before os →
      Ran script os none (events before)
  | ended {os o} : Went script os → Ran script (os ++ [o]) (some 0) (events script)
  | forkFailed {before line after os} : script = before ++ line :: after → line.bytes ≠ [] →
      Went before os → Ran script (os ++ [.forkFails]) (some 1) (events before ++ [.prompt])
  | waitFailed {before line after os} : script = before ++ line :: after → line.bytes ≠ [] →
      Went before os → Ran script (os ++ [.waitFails]) (some 1) (events before ++ line.events)

/-- Nothing has happened yet. -/
theorem Ran.nil (script : List Line) : Ran script [] none [] :=
  (.running (List.nil_append script).symm .nil : Ran script [] none (events []))

theorem Ran.cons {script : List Line} {line : Line} {o : Outcome} {os : List Outcome}
    {status : Option ℕ} {l : List Event} (ho : line.bytes = [] ∨ o = .done ∨ o = .execFails)
    (h : Ran script os status l) : Ran (line :: script) (o :: os) status (line.events ++ l) := by
  cases h with
  | running hscript hwent =>
      rw [← events_cons]
      exact .running (by rw [hscript]; rfl) (.cons ho hwent)
  | ended hwent =>
      rw [← events_cons, ← List.cons_append]
      exact .ended (.cons ho hwent)
  | forkFailed hscript hne hwent =>
      rw [← List.append_assoc, ← events_cons, ← List.cons_append]
      exact .forkFailed (by rw [hscript]; rfl) hne (.cons ho hwent)
  | waitFailed hscript hne hwent =>
      rw [← List.append_assoc, ← events_cons, ← List.cons_append]
      exact .waitFailed (by rw [hscript]; rfl) hne (.cons ho hwent)

theorem Ran.length_le {script : List Line} {os : List Outcome} {status : Option ℕ}
    {l : List Event} (h : Ran script os status l) : os.length ≤ script.length + 1 := by
  cases h with
  | running hscript hwent =>
      rw [hscript, List.length_append, ← hwent.length_eq]
      omega
  | ended hwent => rw [List.length_append, ← hwent.length_eq, List.length_singleton]
  | forkFailed hscript _ hwent =>
      rw [hscript, List.length_append, List.length_append, ← hwent.length_eq]
      simp
  | waitFailed hscript _ hwent =>
      rw [hscript, List.length_append, List.length_append, ← hwent.length_eq]
      simp

/-- A run, as long as no child moves the offset.  The induction is on the lines still to be
read. -/
theorem ran_of_run {script : List Line} : ∀ {s s' : State} {l l' : List Event}
    {os : List Outcome}, s.Runs → s.stdin.rest = text script →
      (s.stdin.seekable = true → .execFails ∉ os) →
      shellObserved.run (s, l) os = some (s', l') →
        ∃ l₁, l' = l ++ l₁ ∧ Ran script os s'.status l₁ := by
  induction script with
  | nil =>
      intro s s' l l' os hs hrest _ hrun
      cases os with
      | nil =>
          cases hrun
          rw [hs.status]
          exact ⟨[], (List.append_nil l).symm, .nil _⟩
      | cons o os =>
          obtain ⟨s₁, hnext, hended⟩ := next_end (l := l) (o := o) hs hrest
          rw [Machine.run_cons, hnext, Option.bind_some] at hrun
          obtain ⟨rfl, hp⟩ := os_nil_of_status (by rw [hended]; nofun) hrun
          cases hp
          rw [hended]
          exact ⟨[], (List.append_nil _).symm,
            (.ended .nil : Ran [] ([] ++ [o]) (some 0) (events []))⟩
  | cons line script ih =>
      intro s s' l l' os hs hrest hseek hrun
      cases os with
      | nil =>
          cases hrun
          rw [hs.status]
          exact ⟨[], (List.append_nil l).symm, .nil _⟩
      | cons o os =>
          rw [text_cons] at hrest
          obtain ⟨stdin, hget, hrest', hsame⟩ := Stdin.getline_line line.one hrest
          have hseek' : stdin.seekable = true → .execFails ∉ os := fun hseekable =>
            (not_or.mp (List.mem_cons.not.mp (hseek (hsame.symm.trans hseekable)))).2
          -- the line is done with, and the rest of the input is the rest of the script
          have hgo : (line.bytes = [] ∨ o = .done ∨ o = .execFails) →
              shellObserved.run ({ s with stdin := stdin }, l ++ line.events) os = some (s', l') →
              ∃ l₁, l' = l ++ l₁ ∧ Ran (line :: script) (o :: os) s'.status l₁ :=
            fun ho hrun => by
              obtain ⟨l₁, rfl, hran⟩ := ih (s := { s with stdin := stdin }) ⟨hs.eof, hs.status⟩
                hrest' hseek' hrun
              exact ⟨line.events ++ l₁, List.append_assoc _ _ _, hran.cons ho⟩
          rw [Machine.run_cons, next_line hs hget] at hrun
          by_cases hempty : line.bytes = []
          · rw [if_pos hempty] at hrun
            exact hgo (.inl hempty) hrun
          rw [if_neg hempty] at hrun
          cases o with
          | done => exact hgo (.inr (.inl rfl)) hrun
          | execFails =>
              have hfixed : stdin.childExits = stdin := by
                rw [Stdin.childExits, if_neg]
                exact fun hboth => hseek (hsame.symm.trans hboth.1) List.mem_cons_self
              refine hgo (.inr (.inr rfl)) ?_
              rw [hfixed] at hrun
              exact hrun
          | forkFails =>
              obtain ⟨rfl, hp⟩ := os_nil_of_status (by nofun) hrun
              cases hp
              exact ⟨_, rfl, (.forkFailed (List.nil_append _).symm hempty .nil :
                Ran (line :: script) ([] ++ [.forkFails]) (some 1) (events [] ++ [.prompt]))⟩
          | waitFails =>
              obtain ⟨rfl, hp⟩ := os_nil_of_status (by nofun) hrun
              cases hp
              exact ⟨_, rfl, (.waitFailed (List.nil_append _).symm hempty .nil :
                Ran (line :: script) ([] ++ [.waitFails]) (some 1) (events [] ++ line.events))⟩

/-- **The shell runs what it is told**, if its input cannot seek or no `execvp` fails.  For every
text of lines (`exists_script`), the commands that are run are, in order and each with the words of
its line for arguments, those of the lines that are not empty, with a prompt after each line that
was read, up to the first `fork` or `waitpid` that fails, where the shell ends with status 1.  If
there is none the shell ends with 0 after all of them, and it always ends. -/
theorem main_executes {script : List Line} {s₀ s : State} {l : List Event} {os : List Outcome}
    (hinit : shell.init s₀) (hfile : s₀.stdin.file = text script)
    (hseek : s₀.stdin.seekable = true → .execFails ∉ os)
    (hrun : shellObserved.run (s₀, []) os = some (s, l)) :
    Ran script os s.status l ∧ os.length ≤ script.length + 1 ∧
      (s.status = none → ∀ o, ∃ p, shellObserved.next (s, l) o = some p) := by
  have hrest : s₀.stdin.rest = text script := by
    rw [Stdin.rest, hinit.2.1, hinit.1, hfile]
    rfl
  obtain ⟨l₁, rfl, hran⟩ := ran_of_run (runs_of_init hinit) hrest hseek hrun
  exact ⟨hran, hran.length_le, fun hnone o => exists_next hnone o⟩

/-- The state in which the loop begins, with this file for the standard input. -/
def start (seekable : Bool) (file : List UInt8) : State :=
  ⟨⟨file, seekable, 4096, by decide, 0, []⟩, false, none⟩

/-- Two commands, an empty line before the second, and one more. -/
def threeCommands : List Line :=
  [.ofBytes (ofText "ls -l") (by decide +kernel), .ofBytes [] (by simp),
    .ofBytes (ofText "no") (by decide +kernel), .ofBytes (ofText "id") (by decide +kernel)]

/-- Through a pipe, with a command that cannot be executed and a `waitpid` that fails. -/
theorem threeCommands_run : ∃ s l,
    shellObserved.run (start false (text threeCommands), [])
      [.done, .done, .execFails, .waitFails] = some (s, l) ∧
    l = [.prompt, .exec [ofText "ls", ofText "-l"], .prompt, .prompt, .exec [ofText "no"], .prompt,
      .exec [ofText "id"]] ∧
    Ran threeCommands [.done, .done, .execFails, .waitFails] (some 1) l := by
  have hrun : (shellObserved.run (start false (text threeCommands), [])
      [.done, .done, .execFails, .waitFails]).map (fun p => (p.1.status, p.2)) = some (some 1,
        [.prompt, .exec [ofText "ls", ofText "-l"], .prompt, .prompt, .exec [ofText "no"], .prompt,
          .exec [ofText "id"]]) := by
    decide +kernel
  obtain ⟨⟨s, l⟩, hs, hobs⟩ := Option.map_eq_some_iff.mp hrun
  obtain ⟨hstatus, hlog⟩ := Prod.mk.inj hobs
  have hran := (main_executes ⟨rfl, rfl, rfl, rfl⟩ rfl (fun h => Bool.noConfusion h) hs).1
  rw [show s.status = some 1 from hstatus] at hran
  exact ⟨s, l, hs, hlog, hran⟩

/-! ### A command that cannot be executed -/

section Seek

variable {s : State} {l : List Event} {before after script : List Line} {line : Line} {off : ℕ}

/-- The state with the offset there and this in the buffer. -/
def State.seek (s : State) (off : ℕ) (buf : List UInt8) : State :=
  { s with stdin := { s.stdin with off := off, buf := buf } }

theorem State.Runs.seek (hs : s.Runs) (off : ℕ) (buf : List UInt8) : (s.seek off buf).Runs :=
  ⟨hs.eof, hs.status⟩

/-- The lines in the buffer are run. -/
theorem run_done (hs : s.Runs) {tail : List UInt8} (l : List Event) :
    shellObserved.run (s.seek off (text before ++ tail), l) (List.replicate before.length .done) =
      some (s.seek off tail, l ++ events before) := by
  induction before generalizing l with
  | nil => simp [text, events]
  | cons line before ih =>
      have hget : (s.seek off (text (line :: before) ++ tail)).stdin.getline =
          ((line.bytes, true), (s.seek off (text before ++ tail)).stdin) :=
        Stdin.getline_buf line.one (by simp [State.seek, text_cons])
      rw [List.length_cons, List.replicate_succ, Machine.run_cons, next_line (hs.seek _ _) hget]
      dsimp only
      rw [ite_self, Option.bind_some, events_cons, ← List.append_assoc]
      exact ih (l ++ line.events)

/-- A buffer that holds nothing but these lines. -/
theorem run_all_done (hs : s.Runs) (l : List Event) :
    shellObserved.run (s.seek off (text script), l) (List.replicate script.length .done) =
      some (s.seek off [], l ++ events script) := by
  have hrun : shellObserved.run (s.seek off (text script ++ []), l)
      (List.replicate script.length .done) = _ := run_done hs l
  rwa [List.append_nil] at hrun

/-- After a command that cannot be executed the offset is where the unused bytes begin. -/
theorem next_execFails (hs : s.Runs) (hseek : s.stdin.seekable = true)
    (hline : line.bytes ≠ []) (hle : (text after).length ≤ off) :
    shellObserved.next (s.seek off (text (line :: after)), l) .execFails =
      some (s.seek (off - (text after).length) (text after), l ++ line.events) := by
  have hget : (s.seek off (text (line :: after))).stdin.getline =
      ((line.bytes, true), (s.seek off (text after)).stdin) :=
    Stdin.getline_buf line.one (by simp [State.seek, text_cons])
  have hexits : (s.seek off (text after)).stdin.childExits =
      (s.seek (off - (text after).length) (text after)).stdin := by
    rw [Stdin.childExits, if_pos ⟨hseek, hle⟩]
    rfl
  rw [next_line (hs.seek _ _) hget, if_neg hline]
  dsimp only
  rw [hexits]
  rfl

/-- An empty buffer is filled first. -/
theorem next_fill (hs : s.Runs) (hfile : s.stdin.file.drop off = text (line :: script))
    (hfits : (text (line :: script)).length ≤ s.stdin.bufSize) (o : Outcome) :
    shellObserved.next (s.seek off [], l) o =
      shellObserved.next
        (s.seek (off + (text (line :: script)).length) (text (line :: script)), l) o := by
  set off' := off + (text (line :: script)).length with hoff
  have hfill : (s.seek off []).stdin.fill = (s.seek off' (text (line :: script))).stdin := by
    simp only [Stdin.fill, State.seek, hfile, List.take_of_length_le hfits, hoff]
  have hget : (s.seek off' (text (line :: script))).stdin.getline =
      ((line.bytes, true), (s.seek off' (text script)).stdin) :=
    Stdin.getline_buf line.one text_cons
  have hget' : (s.seek off []).stdin.getline =
      ((line.bytes, true), (s.seek off' (text script)).stdin) := by
    rw [Stdin.getline_fill rfl (by rw [State.seek, hfile]; exact text_ne_nil), hfill, hget]
  rw [next_line (hs.seek _ _) hget, next_line (hs.seek _ _) hget']
  rfl

theorem run_fill (hs : s.Runs) (hne : script ≠ []) (hfile : s.stdin.file.drop off = text script)
    (hfits : (text script).length ≤ s.stdin.bufSize) {os : List Outcome} (hos : os ≠ []) :
    shellObserved.run (s.seek off [], l) os =
      shellObserved.run (s.seek (off + (text script).length) (text script), l) os := by
  cases script with
  | nil => exact absurd rfl hne
  | cons line script =>
      cases os with
      | nil => exact absurd rfl hos
      | cons o os => rw [Machine.run_cons, Machine.run_cons, next_fill hs hfile hfits]

/-- What is left in the file is run. -/
theorem run_file (hs : s.Runs) (hfile : s.stdin.file.drop off = text script)
    (hfits : (text script).length ≤ s.stdin.bufSize) (l : List Event) :
    ∃ s', shellObserved.run (s.seek off [], l)
        (List.replicate script.length .done ++ [.done]) = some (s', l ++ events script) ∧
      s'.status = some 0 := by
  have hend : ∀ {off : ℕ} {l : List Event}, s.stdin.file.drop off = [] →
      ∃ s', shellObserved.run (s.seek off [], l) [.done] = some (s', l) ∧ s'.status = some 0 := by
    intro off l hdrop
    obtain ⟨s', hnext, hstatus⟩ := next_end (l := l) (o := .done) (hs.seek off [])
      (by rw [Stdin.rest]; exact hdrop)
    exact ⟨s', by rw [Machine.run_cons, hnext]; rfl, hstatus⟩
  by_cases hne : script = []
  · subst hne
    rw [events, List.flatMap_nil, List.append_nil]
    exact hend hfile
  · have hdrop : s.stdin.file.drop (off + (text script).length) = [] := by
      rw [← List.drop_drop, hfile, List.drop_length]
    rw [run_fill hs hne hfile hfits (by simp), Machine.run_append]
    rw [run_all_done hs]
    exact hend hdrop

theorem seek_of_init (hinit : shell.init s) : s.seek 0 [] = s := by
  obtain ⟨hoff, hbuf, -, -⟩ := hinit
  rw [State.seek, ← hoff, ← hbuf]

/-- A file that fits is read at once. -/
theorem run_of_init (hinit : shell.init s) (hne : script ≠ []) (hfile : s.stdin.file = text script)
    (hfits : s.stdin.file.length ≤ s.stdin.bufSize) {os : List Outcome} (hos : os ≠ []) :
    shellObserved.run (s, l) os =
      shellObserved.run (s.seek (text script).length (text script), l) os := by
  have hrun : shellObserved.run (s.seek 0 [], l) os = _ :=
    run_fill (runs_of_init hinit) hne (by rw [List.drop_zero, hfile]) (hfile ▸ hfits) hos
  rwa [seek_of_init hinit, Nat.zero_add] at hrun

/-- **The rest is run twice.**  If the input is a file that fits into the buffer and one command
cannot be executed, then all that follows it is run, and then run once more. -/
theorem main_repeats (hinit : shell.init s) (hseek : s.stdin.seekable = true)
    (hfile : s.stdin.file = text (before ++ line :: after))
    (hfits : s.stdin.file.length ≤ s.stdin.bufSize) (hline : line.bytes ≠ []) :
    ∃ s', shellObserved.run (s, []) (List.replicate before.length .done ++ .execFails ::
        (List.replicate after.length .done ++ (List.replicate after.length .done ++ [.done]))) =
      some (s', events (before ++ line :: after) ++ events after) ∧ s'.status = some 0 := by
  have hs := runs_of_init hinit
  have hcut : text (before ++ line :: after) = text (before ++ [line]) ++ text after := by
    rw [← text_append, List.append_assoc]
    rfl
  have hlen := congrArg List.length hcut
  rw [List.length_append] at hlen
  have hle : (text after).length ≤ (text (before ++ line :: after)).length := by omega
  -- the child of the command has moved the offset to where the rest begins
  have hdrop : s.stdin.file.drop ((text (before ++ line :: after)).length - (text after).length) =
      text after := by
    rw [hfile, hcut, List.drop_left']
    rw [List.length_append]
    omega
  rw [run_of_init hinit (by simp) hfile hfits (by simp), Machine.run_append]
  nth_rewrite 2 [text_append]
  rw [run_done hs, Option.bind_some, Machine.run_cons, next_execFails hs hseek hline hle,
    Option.bind_some, Machine.run_append, run_all_done hs, Option.bind_some, events_append,
    events_cons, ← List.append_assoc (events before), List.nil_append]
  exact run_file hs hdrop (hle.trans (hfile ▸ hfits)) _

example : (shellObserved.run (start true (ofText "no\nid\n"), [])
    [.execFails, .done, .done, .done]).map (fun p => (p.1.status, p.2)) = some (some 0,
      [.prompt, .exec [ofText "no"], .prompt, .exec [ofText "id"], .prompt,
        .exec [ofText "id"]]) := by
  decide +kernel

/-- **The shell may never end.**  If the first two commands of a file cannot be executed, and what
follows them has the length of the first, the shell comes back to where it was. -/
theorem main_loops {first second : Line} (hinit : shell.init s) (hseek : s.stdin.seekable = true)
    (hfile : s.stdin.file = text (first :: second :: after))
    (hfits : s.stdin.file.length ≤ s.stdin.bufSize) (hfirst : first.bytes ≠ [])
    (hsecond : second.bytes ≠ []) (hlen : (text after).length = (text [first]).length) (n : ℕ) :
    shellObserved.run (s, []) (List.replicate n
        (.execFails :: .execFails :: List.replicate after.length .done)).flatten =
      some (s, (List.replicate n (events (first :: second :: after))).flatten) := by
  have hs := runs_of_init hinit
  have hcut : (text (first :: second :: after)).length =
      (text [first]).length + (text (second :: after)).length := by
    rw [← List.length_append, ← text_append]
    rfl
  have hle : (text (second :: after)).length ≤ (text (first :: second :: after)).length := by omega
  have hback : (text (first :: second :: after)).length - (text (second :: after)).length =
      (text after).length := by omega
  have hcycle : ∀ l, shellObserved.run (s, l)
      (.execFails :: .execFails :: List.replicate after.length .done) =
        some (s, l ++ events (first :: second :: after)) := by
    intro l
    rw [run_of_init hinit (by simp) hfile hfits (by simp), Machine.run_cons,
      next_execFails hs hseek hfirst hle, Option.bind_some, Machine.run_cons, hback,
      next_execFails hs hseek hsecond le_rfl, Option.bind_some, Nat.sub_self, run_all_done hs,
      seek_of_init hinit, events_cons, events_cons]
    simp only [List.append_assoc]
  suffices h : ∀ l, shellObserved.run (s, l) (List.replicate n
      (.execFails :: .execFails :: List.replicate after.length .done)).flatten =
        some (s, l ++ (List.replicate n (events (first :: second :: after))).flatten) from h []
  induction n with
  | zero => simp
  | succ n ih =>
      intro l
      rw [List.replicate_succ, List.flatten_cons, Machine.run_append, hcycle, Option.bind_some, ih,
        List.replicate_succ, List.flatten_cons, List.append_assoc]

end Seek

end Apue.Shell
