/-
Apue/Coprocess.lean

The adder coprocess: `15/9_pipe_filter_add_2.cpp` and the filter it starts,
`15/8_filter_add_2.cpp`.

    parent:  while fgets:  write the line;  read the reply;  print it
    filter:  while read:   write the sum, or "invalid arguments"

Two pipes connect the processes, and each of them blocks on the other.  The parent sends
`strlen(line)` bytes: what `fgets` has read up to the first zero byte.  A piece of the
input that begins with a zero byte is a request of no bytes.  `writen` succeeds without
writing, the filter never sees a request, and both processes wait for ever.  On every other
input the two work in lockstep (`lockstep_iff`).

A write of a request or a reply is one atomic step, and a read returns all bytes that are
there, up to the size of the buffer.  Left out: setting up the pipes, `fork` and `exec`,
and failing calls of `read`, `fgets` and `fputs`.
-/
import Apue.Machine
import Apue.UnixSocket

namespace Apue.Coprocess

open ByteCodec IStream
open UnixSocket (cStr cStr_of_notMem zero_notMem_cStr)

/-! ### Lines -/

/-- `MAXLINE`. -/
def maxline : ℕ := 4096

/-- `fgets` stores bytes up to a newline, at most `n`; the second component is left in the
stream. -/
def fgetsLoop : ℕ → List UInt8 → List UInt8 × List UInt8
  | 0, stdin => ([], stdin)
  | _ + 1, [] => ([], [])
  | n + 1, c :: stdin =>
      if c = 10 then ([c], stdin)
      else
        let (line, rest) := fgetsLoop n stdin
        (c :: line, rest)

/-- `fgets(line, size, stdin)`: `none` is `NULL`. -/
def fgets (size : ℕ) (stdin : List UInt8) : Option (List UInt8 × List UInt8) :=
  if stdin = [] then none else some (fgetsLoop (size - 1) stdin)

theorem fgetsLoop_append (n : ℕ) (stdin : List UInt8) :
    (fgetsLoop n stdin).1 ++ (fgetsLoop n stdin).2 = stdin := by
  induction n generalizing stdin with
  | zero => rfl
  | succ n ih =>
      rcases stdin with _ | ⟨c, stdin⟩
      · rfl
      · by_cases hc : c = 10
        · simp [fgetsLoop, hc]
        · simp [fgetsLoop, hc, ih]

theorem length_fgetsLoop_le (n : ℕ) (stdin : List UInt8) : (fgetsLoop n stdin).1.length ≤ n := by
  induction n generalizing stdin with
  | zero => exact Nat.le_refl 0
  | succ n ih =>
      rcases stdin with _ | ⟨c, stdin⟩
      · exact Nat.zero_le _
      · by_cases hc : c = 10
        · simp [fgetsLoop, hc]
        · simpa [fgetsLoop, hc] using ih stdin

/-- What `fgets` returns: a piece of the stream that is not empty and fits the buffer. -/
theorem fgets_eq_some {stdin line rest : List UInt8}
    (h : fgets maxline stdin = some (line, rest)) :
    stdin = line ++ rest ∧ line ≠ [] ∧ line.length < maxline := by
  unfold fgets at h
  split at h
  · cases h
  next hne =>
    have hloop := Option.some.inj h
    have happ := fgetsLoop_append (maxline - 1) stdin
    have hlen := length_fgetsLoop_le (maxline - 1) stdin
    rw [hloop] at happ hlen
    refine ⟨happ.symm, ?_, Nat.lt_of_le_of_lt hlen (by decide)⟩
    rintro rfl
    -- the first byte is always stored
    obtain ⟨c, stdin, rfl⟩ := List.exists_cons_of_ne_nil hne
    have hfirst : (fgetsLoop (4094 + 1) (c :: stdin)).1 ≠ [] := by
      by_cases hc : c = 10 <;> simp [fgetsLoop, hc]
    exact hfirst (congrArg Prod.fst hloop)

theorem fgets_eq_none_iff {stdin : List UInt8} : fgets maxline stdin = none ↔ stdin = [] := by
  simp [fgets]

/-- The pieces into which the parent's calls of `fgets` cut its input. -/
def piecesLoop : ℕ → List UInt8 → List (List UInt8)
  | 0, _ => []
  | fuel + 1, stdin =>
      match fgets maxline stdin with
      | none => []
      | some (line, rest) => line :: piecesLoop fuel rest

def pieces (stdin : List UInt8) : List (List UInt8) := piecesLoop stdin.length stdin

theorem length_rest_lt {stdin line rest : List UInt8}
    (h : fgets maxline stdin = some (line, rest)) : rest.length < stdin.length := by
  obtain ⟨hstdin, hne, -⟩ := fgets_eq_some h
  have := List.length_pos_iff.mpr hne
  rw [hstdin, List.length_append]
  omega

/-- More calls than bytes make no difference. -/
theorem piecesLoop_eq {m n : ℕ} {stdin : List UInt8} (hm : stdin.length ≤ m)
    (hn : stdin.length ≤ n) : piecesLoop m stdin = piecesLoop n stdin := by
  induction m generalizing n stdin with
  | zero =>
      obtain rfl := List.eq_nil_of_length_eq_zero (Nat.le_zero.mp hm)
      cases n <;> simp [piecesLoop, fgets]
  | succ m ih =>
      rcases h : fgets maxline stdin with _ | ⟨line, rest⟩
      · obtain rfl := fgets_eq_none_iff.mp h
        cases n <;> simp [piecesLoop, fgets]
      · have hlt := length_rest_lt h
        obtain ⟨n, rfl⟩ := Nat.exists_eq_succ_of_ne_zero (Nat.ne_of_gt (show 0 < n by omega))
        simp only [piecesLoop, h]
        rw [ih (n := n) (by omega) (by omega)]

theorem pieces_nil : pieces [] = [] := rfl

theorem pieces_cons {stdin line rest : List UInt8}
    (h : fgets maxline stdin = some (line, rest)) : pieces stdin = line :: pieces rest := by
  have hlt := length_rest_lt h
  obtain ⟨k, hk⟩ := Nat.exists_eq_succ_of_ne_zero (Nat.ne_of_gt (show 0 < stdin.length by omega))
  rw [pieces, hk]
  simp only [piecesLoop, h]
  rw [piecesLoop_eq (m := k) (n := rest.length) (by omega) (Nat.le_refl _)]
  rfl

/-! ### The answers of the filter -/

/-- One `%d` of `sscanf`: the number, and what follows it. -/
def scanInt (text : List UInt8) : Option (ℤ × List UInt8) :=
  let (neg, bs) := takeSign (text.dropWhile isSpace)
  let ds := bs.takeWhile isDigit
  if ds = [] then none else some (signed neg (ofDec ds), bs.dropWhile isDigit)

/-- `sscanf(line, "%d%d", &int1, &int2) == 2`, and the two numbers. -/
def scanTwo (text : List UInt8) : Option (ℤ × ℤ) :=
  match scanInt text with
  | none => none
  | some (int1, text) =>
      match scanInt text with
      | none => none
      | some (int2, _) => some (int1, int2)

-- the value of `int1 + int2` where C leaves it undefined
variable (undef : ℤ → ℤ → BitVec 32)

/-- `int1 + int2` for two numbers as they stand in the text.  C leaves undefined what
`sscanf` stores for a number that is not an `int`, and a sum that is none. -/
def sum (int1 int2 : ℤ) : BitVec 32 :=
  if InRange int1 ∧ InRange int2 ∧ InRange (int1 + int2) then BitVec.ofInt 32 (int1 + int2)
  else undef int1 int2

/-- What the filter writes for the text in `line`. -/
def answer (line : List UInt8) : List UInt8 :=
  match scanTwo (cStr line) with
  | some (int1, int2) => intToDec (sum undef int1 int2).toInt ++ ofText "\n"
  | none => ofText "invalid arguments\n"

theorem answer_cStr (line : List UInt8) : answer undef (cStr line) = answer undef line := by
  rw [answer, answer, cStr_of_notMem (zero_notMem_cStr line)]

/-- An answer is a text that fits the parent's buffer. -/
theorem answer_text (line : List UInt8) :
    answer undef line ≠ [] ∧ (answer undef line).length < maxline ∧ 0 ∉ answer undef line := by
  unfold answer
  split
  · next int1 int2 _ =>
    refine ⟨by simp [ofText], ?_, ?_⟩
    · have hlen := length_intToDec_le (sum undef int1 int2)
      rw [List.length_append]
      have hnl : (ofText "\n").length = 1 := by decide
      have : maxline = 4096 := rfl
      omega
    · intro hmem
      rcases List.mem_append.mp hmem with hmem | hmem
      · exact zero_notMem_intToDec _ hmem
      · exact absurd hmem (by decide)
  · decide

/-! ### The two processes -/

/-- Where the parent is. -/
inductive ParentPc
  | fgets
  | write (line : List UInt8)     -- writen(fd1[1], line, strlen(line))
  | read                          -- read(fd2[0], line, MAXLINE)
  | fputs (line : List UInt8)
  | exited (status : ℕ) (msg : Option String)
  /-- `line[n] = 0` past the end of the buffer -/
  | overrun
  deriving DecidableEq, Repr

/-- Where the filter is. -/
inductive FilterPc
  | read                          -- read(STDIN_FILENO, line, MAXLINE)
  | write (msg : List UInt8)
  | exited (status : ℕ) (msg : Option String)
  | killed                        -- by SIGPIPE
  | overrun
  deriving DecidableEq, Repr

/-- The two processes, the pipe to the filter, the pipe back, what is still to be read from
the parent's standard input, and what it has printed, one entry for each call of `fputs`. -/
structure State where
  stdin : List UInt8
  parent : ParentPc
  request : List UInt8
  reply : List UInt8
  filter : FilterPc
  stdout : List (List UInt8)
  deriving DecidableEq, Repr

/-- The parent has closed its ends of the pipes. -/
def ParentPc.gone : ParentPc → Bool
  | .exited _ _ | .overrun => true
  | _ => false

/-- The filter has closed its ends of the pipes. -/
def FilterPc.gone : FilterPc → Bool
  | .exited _ _ | .killed | .overrun => true
  | _ => false

/-- One operation of the parent; `none` if it blocks or has ended. -/
def parentStep (s : State) : Option State :=
  match s.parent with
  | .fgets =>
      match fgets maxline s.stdin with
      | none => some { s with parent := .exited 0 none }
      | some (line, rest) => some { s with stdin := rest, parent := .write line }
  | .write line =>
      -- no bytes, no call of `write`, and so no signal
      if cStr line ≠ [] ∧ s.filter.gone then
        some { s with parent := .exited 1 (some "taken SIGPIPE") }
      else
        match FileIO.writen (cStr line) [] with
        | (none, _, _) => some { s with parent := .exited 1 (some "call write to pipe") }
        | (some _, sent, _) => some { s with request := s.request ++ sent, parent := .read }
  | .read =>
      if s.reply = [] then
        if s.filter.gone then
          some { s with parent := .exited 0 (some "pipe was closed in child process") }
        else none
      else
        let line := s.reply.take maxline
        let s := { s with reply := s.reply.drop maxline }
        if line.length < maxline then some { s with parent := .fputs line }
        else some { s with parent := .overrun }
  | .fputs line => some { s with stdout := s.stdout ++ [cStr line], parent := .fgets }
  | .exited _ _ | .overrun => none

/-- One operation of the filter. -/
def filterStep (s : State) : Option State :=
  match s.filter with
  | .read =>
      if s.request = [] then
        if s.parent.gone then some { s with filter := .exited 0 none } else none
      else
        let line := s.request.take maxline
        let s := { s with request := s.request.drop maxline }
        if line.length < maxline then some { s with filter := .write (answer undef line) }
        else some { s with filter := .overrun }
  | .write msg =>
      if s.parent.gone then some { s with filter := .killed }
      else
        match FileIO.writen msg [] with
        | (none, _, _) => some { s with filter := .exited 1 (some "call write") }
        | (some _, sent, _) => some { s with reply := s.reply ++ sent, filter := .read }
  | .exited _ _ | .killed | .overrun => none

/-- Whose turn it is. -/
inductive Action
  | parent | filter
  deriving DecidableEq, Repr

/-- The program run on a standard input. -/
def coprocess (input : List UInt8) : Machine State Action where
  init s := s = ⟨input, .fgets, [], [], .read, []⟩
  next s
    | .parent => parentStep s
    | .filter => filterStep undef s

/-- Each process waits for the other one. -/
def Deadlocked (s : State) : Prop :=
  s.parent = .read ∧ s.reply = [] ∧ s.filter = .read ∧ s.request = []

/-- The processes never wait for each other, and the `i`-th reply printed is the answer to
the `i`-th piece of the input. -/
def Lockstep (input : List UInt8) : Prop :=
  ∀ s, (coprocess undef input).Reach s →
    ¬ Deadlocked s ∧ s.stdout <+: (pieces input).map (answer undef)

/-! ### One request -/

theorem writen_all (buf : List UInt8) : ∃ os, FileIO.writen buf [] = (some buf.length, buf, os) := by
  obtain ⟨os, h, -⟩ := FileIO.writen_of_reliable buf List.not_mem_nil
  exact ⟨os, h⟩

section Steps

variable {undef} {stdin line : List UInt8} {out : List (List UInt8)}

theorem parentStep_write : parentStep ⟨stdin, .write line, [], [], .read, out⟩
    = some ⟨stdin, .read, cStr line, [], .read, out⟩ := by
  obtain ⟨os, h⟩ := writen_all (cStr line)
  simp [parentStep, FilterPc.gone, h]

theorem filterStep_read (hne : cStr line ≠ []) (hlen : line.length < maxline) :
    filterStep undef ⟨stdin, .read, cStr line, [], .read, out⟩
      = some ⟨stdin, .read, [], [], .write (answer undef line), out⟩ := by
  have hlen' : (cStr line).length < maxline :=
    Nat.lt_of_le_of_lt (List.takeWhile_prefix _).length_le hlen
  simp only [filterStep, if_neg hne, List.take_of_length_le (Nat.le_of_lt hlen'), if_pos hlen',
    List.drop_of_length_le (Nat.le_of_lt hlen'), answer_cStr]

theorem filterStep_write : filterStep undef ⟨stdin, .read, [], [], .write (answer undef line), out⟩
    = some ⟨stdin, .read, [], answer undef line, .read, out⟩ := by
  obtain ⟨os, h⟩ := writen_all (answer undef line)
  simp [filterStep, ParentPc.gone, h]

theorem parentStep_read : parentStep ⟨stdin, .read, [], answer undef line, .read, out⟩
    = some ⟨stdin, .fputs (answer undef line), [], [], .read, out⟩ := by
  obtain ⟨hne, hlen, -⟩ := answer_text undef line
  simp only [parentStep, if_neg hne, List.take_of_length_le (Nat.le_of_lt hlen), if_pos hlen,
    List.drop_of_length_le (Nat.le_of_lt hlen)]

theorem parentStep_fputs : parentStep ⟨stdin, .fputs (answer undef line), [], [], .read, out⟩
    = some ⟨stdin, .fgets, [], [], .read, out ++ [answer undef line]⟩ := by
  simp only [parentStep, cStr_of_notMem (answer_text undef line).2.2]

end Steps

/-! ### Lockstep -/

variable {undef} {input : List UInt8}

theorem mem_pieces {p : List UInt8} : ∀ {stdin : List UInt8}, p ∈ pieces stdin →
    p ≠ [] ∧ p.length < maxline := by
  intro stdin
  induction hn : stdin.length using Nat.strong_induction_on generalizing stdin with
  | _ n ih =>
      intro hp
      rcases h : fgets maxline stdin with _ | ⟨line, rest⟩
      · obtain rfl := fgets_eq_none_iff.mp h
        cases hp
      · rw [pieces_cons h] at hp
        rcases List.mem_cons.mp hp with rfl | hp
        · exact (fgets_eq_some h).2
        · exact ih rest.length (hn ▸ length_rest_lt h) rfl hp

theorem cStr_eq_nil_iff {p : List UInt8} (hp : p ≠ []) : cStr p = [] ↔ p.head? = some 0 := by
  obtain ⟨b, bs, rfl⟩ := List.exists_cons_of_ne_nil hp
  simp [cStr, List.takeWhile_cons]

/-- The states of the program: the pieces `done` have been answered, and the next one is on
its way. -/
inductive Phase (undef : ℤ → ℤ → BitVec 32) (input : List UInt8) : State → Prop
  | fgets {done stdin} (h : pieces input = done ++ pieces stdin) :
      Phase undef input ⟨stdin, .fgets, [], [], .read, done.map (answer undef)⟩
  | write {done line stdin} (h : pieces input = done ++ line :: pieces stdin) :
      Phase undef input ⟨stdin, .write line, [], [], .read, done.map (answer undef)⟩
  | requested {done line stdin} (h : pieces input = done ++ line :: pieces stdin) :
      Phase undef input ⟨stdin, .read, cStr line, [], .read, done.map (answer undef)⟩
  | answered {done line stdin} (h : pieces input = done ++ line :: pieces stdin) :
      Phase undef input
        ⟨stdin, .read, [], [], .write (answer undef line), done.map (answer undef)⟩
  | replied {done line stdin} (h : pieces input = done ++ line :: pieces stdin) :
      Phase undef input
        ⟨stdin, .read, [], answer undef line, .read, done.map (answer undef)⟩
  | fputs {done line stdin} (h : pieces input = done ++ line :: pieces stdin) :
      Phase undef input
        ⟨stdin, .fputs (answer undef line), [], [], .read, done.map (answer undef)⟩
  | exited {f} (hf : f = .read ∨ f = .exited 0 none) :
      Phase undef input
        ⟨[], .exited 0 none, [], [], f, (pieces input).map (answer undef)⟩

/-- The parent goes on to the next phase. -/
theorem Phase.parent {s s' : State} (h : Phase undef input s) (hstep : parentStep s = some s') :
    Phase undef input s' := by
  cases h with
  | @fgets done stdin h =>
      rcases hf : Coprocess.fgets maxline stdin with _ | ⟨line, rest⟩
      · obtain rfl := fgets_eq_none_iff.mp hf
        simp only [parentStep, hf, Option.some.injEq] at hstep
        subst hstep
        rw [pieces_nil, List.append_nil] at h
        rw [← h]
        exact .exited (.inl rfl)
      · simp only [parentStep, hf, Option.some.injEq] at hstep
        subst hstep
        rw [pieces_cons hf] at h
        exact .write h
  | write h =>
      rw [parentStep_write] at hstep
      obtain rfl := Option.some.inj hstep
      exact .requested h
  | requested h => simp [parentStep, FilterPc.gone] at hstep
  | answered h => simp [parentStep, FilterPc.gone] at hstep
  | replied h =>
      rw [parentStep_read] at hstep
      obtain rfl := Option.some.inj hstep
      exact .fputs h
  | @fputs done line stdin h =>
      rw [parentStep_fputs] at hstep
      obtain rfl := Option.some.inj hstep
      have hnew : pieces input = (done ++ [line]) ++ pieces stdin := by simp [h]
      rw [← List.map_singleton, ← List.map_append]
      exact .fgets hnew
  | exited hf => simp [parentStep] at hstep

/-- The filter goes on to the next phase, if no piece begins with a zero byte. -/
theorem Phase.filter (hgood : ∀ p ∈ pieces input, p.head? ≠ some 0) {s s' : State}
    (h : Phase undef input s) (hstep : filterStep undef s = some s') : Phase undef input s' := by
  cases h with
  | fgets h => simp [filterStep, ParentPc.gone] at hstep
  | write h => simp [filterStep, ParentPc.gone] at hstep
  | @requested done line stdin h =>
      have hmem : line ∈ pieces input := by simp [h]
      obtain ⟨hne, hlen⟩ := mem_pieces hmem
      have hsent : cStr line ≠ [] := fun hnil => hgood line hmem ((cStr_eq_nil_iff hne).mp hnil)
      rw [filterStep_read hsent hlen] at hstep
      obtain rfl := Option.some.inj hstep
      exact .answered h
  | answered h =>
      rw [filterStep_write] at hstep
      obtain rfl := Option.some.inj hstep
      exact .replied h
  | replied h => simp [filterStep, ParentPc.gone] at hstep
  | fputs h => simp [filterStep, ParentPc.gone] at hstep
  | exited hf =>
      rcases hf with rfl | rfl
      · simp only [filterStep, ParentPc.gone, if_pos, Option.some.injEq] at hstep
        subst hstep
        exact .exited (.inr rfl)
      · simp [filterStep] at hstep

/-- **One operation goes on to the next phase**, if no piece begins with a zero byte. -/
theorem Phase.next (hgood : ∀ p ∈ pieces input, p.head? ≠ some 0) {s s' : State}
    (h : Phase undef input s) {a : Action} (hstep : (coprocess undef input).next s a = some s') :
    Phase undef input s' := by
  cases a with
  | parent => exact h.parent hstep
  | filter => exact h.filter hgood hstep

/-- In no phase do the processes wait for each other. -/
theorem Phase.lockstep (hgood : ∀ p ∈ pieces input, p.head? ≠ some 0) {s : State}
    (h : Phase undef input s) :
    ¬ Deadlocked s ∧ s.stdout <+: (pieces input).map (answer undef) := by
  have hprefix : ∀ {done rest}, pieces input = done ++ rest →
      done.map (answer undef) <+: (pieces input).map (answer undef) := by
    intro done rest h
    rw [h, List.map_append]
    exact List.prefix_append _ _
  cases h with
  | fgets h => exact ⟨fun hd => by simp [Deadlocked] at hd, hprefix h⟩
  | write h => exact ⟨fun hd => by simp [Deadlocked] at hd, hprefix h⟩
  | @requested done line stdin h =>
      refine ⟨fun hd => ?_, hprefix h⟩
      have hmem : line ∈ pieces input := by simp [h]
      exact hgood line hmem ((cStr_eq_nil_iff (mem_pieces hmem).1).mp hd.2.2.2)
  | answered h => exact ⟨fun hd => by simp [Deadlocked] at hd, hprefix h⟩
  | @replied done line stdin h =>
      exact ⟨fun hd => (answer_text undef line).1 hd.2.1, hprefix h⟩
  | fputs h => exact ⟨fun hd => by simp [Deadlocked] at hd, hprefix h⟩
  | exited hf => exact ⟨fun hd => by simp [Deadlocked] at hd, List.prefix_refl _⟩

/-! ### Requests of no bytes -/

/-- The six operations that deal with a piece. -/
def round : List Action := [.parent, .parent, .filter, .filter, .parent, .parent]

theorem run_round {stdin line rest : List UInt8} {out : List (List UInt8)}
    (h : fgets maxline stdin = some (line, rest)) (hne : cStr line ≠ []) :
    (coprocess undef input).run ⟨stdin, .fgets, [], [], .read, out⟩ round
      = some ⟨rest, .fgets, [], [], .read, out ++ [answer undef line]⟩ := by
  have hfgets : parentStep ⟨stdin, .fgets, [], [], .read, out⟩
      = some ⟨rest, .write line, [], [], .read, out⟩ := by
    simp only [parentStep, h]
  simp only [round, Machine.run_cons, Machine.run_nil, coprocess, hfgets, parentStep_write,
    filterStep_read hne (fgets_eq_some h).2.2, filterStep_write, parentStep_read, parentStep_fputs,
    Option.bind_some]

/-- Once the parent is at a piece that begins with a zero byte, the processes wait for each
other; until then it goes on. -/
theorem exists_deadlocked {out : List (List UInt8)} : ∀ {stdin : List UInt8},
    (coprocess undef input).Reach ⟨stdin, .fgets, [], [], .read, out⟩ →
    (∃ p ∈ pieces stdin, p.head? = some 0) →
    ∃ s, (coprocess undef input).Reach s ∧ Deadlocked s := by
  intro stdin
  induction hn : stdin.length using Nat.strong_induction_on generalizing stdin out with
  | _ n ih =>
      rintro hreach ⟨p, hp, hzero⟩
      rcases h : fgets maxline stdin with _ | ⟨line, rest⟩
      · obtain rfl := fgets_eq_none_iff.mp h
        cases hp
      · by_cases hne : cStr line = []
        · -- nothing is sent
          have hfgets : (coprocess undef input).next ⟨stdin, .fgets, [], [], .read, out⟩ .parent
              = some ⟨rest, .write line, [], [], .read, out⟩ := by
            simp only [coprocess, parentStep, h]
          have hwrite : (coprocess undef input).next ⟨rest, .write line, [], [], .read, out⟩ .parent
              = some ⟨rest, .read, [], [], .read, out⟩ := by
            simp only [coprocess, parentStep_write, hne]
          exact ⟨_, (hreach.step hfgets).step hwrite, rfl, rfl, rfl, rfl⟩
        · have hrest : p ∈ pieces rest := by
            rw [pieces_cons h] at hp
            refine (List.mem_cons.mp hp).resolve_left ?_
            rintro rfl
            exact hne ((cStr_eq_nil_iff (fgets_eq_some h).2.1).mpr hzero)
          exact ih rest.length (hn ▸ length_rest_lt h) rfl (hreach.run (run_round h hne))
            ⟨p, hrest, hzero⟩

/-- **When the coprocess works in lockstep**: for every input, no reachable state has both
processes waiting for each other, and the replies printed are the answers to the pieces in
order, exactly if no piece begins with a zero byte. -/
theorem lockstep_iff (undef : ℤ → ℤ → BitVec 32) (input : List UInt8) :
    Lockstep undef input ↔ ∀ p ∈ pieces input, p.head? ≠ some 0 := by
  constructor
  · intro hlock p hp hzero
    have hinit : (coprocess undef input).Reach ⟨input, .fgets, [], [], .read, []⟩ := .start rfl
    obtain ⟨s, hs, hdead⟩ := exists_deadlocked hinit ⟨p, hp, hzero⟩
    exact (hlock s hs).1 hdead
  · intro hgood s hs
    have hphase : Phase undef input s := by
      refine Machine.Reach.invariant (I := Phase undef input) ?_
        (fun _ _ _ h hstep => h.next hgood hstep) hs
      rintro s rfl
      exact @Phase.fgets _ _ [] _ rfl
    exact hphase.lockstep hgood

/-- An ordinary line is answered. -/
example : answer (fun _ _ => 0) (ofText "1 -3\n") = ofText "-2\n" := by decide +kernel

/-- The input is one line, a zero byte and a newline. -/
theorem zeroByte_deadlocks :
    ∃ s, (coprocess (fun _ _ => 0) [0, 10]).Reach s ∧ Deadlocked s := by
  have hrun : (coprocess (fun _ _ => 0) [0, 10]).run ⟨[0, 10], .fgets, [], [], .read, []⟩
      [.parent, .parent] = some ⟨[], .read, [], [], .read, []⟩ := by decide +kernel
  exact ⟨_, Machine.reach_of_run rfl hrun, rfl, rfl, rfl, rfl⟩

end Apue.Coprocess
