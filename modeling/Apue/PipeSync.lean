/-
Apue/PipeSync.lean

The `TELL_`/`WAIT_` functions over pipes, `lib/apue_ipc_pipe.cpp`, in the program of
`Apue/SignalSync.lean`:

    child:   for each round:  work;  TELL_PARENT;  WAIT_PARENT
    parent:  for each round:  WAIT_CHILD;  work;  TELL_CHILD

The child leads and the parent follows.  A `TELL` writes one byte with `writen` and tests
the result, a `WAIT` reads one byte and compares it.  Both processes keep both ends of both
pipes open, so that a read from an empty pipe blocks.

The protocol is right for any functions that write and expect the same bytes, provided that
no `TELL` takes a successful write for a failure (`refines_iff`).  `TELL_CHILD_PIPE` does: its
test is `!writen(...) != 1`, which is true of a write that succeeded.  So the program does
what the one with signals does only if it has no rounds (`pipe_refines_iff`).
-/
import Apue.ByteCodec
import Apue.FileIO
import Apue.SignalSync

namespace Apue.PipeSync

open ByteCodec FileIO SignalSync

/-! ### The functions -/

/-- A `TELL` function: the byte it writes, and whether it exits with an error after `writen`
has returned this. -/
structure Tell where
  token : UInt8
  exits : Option ℕ → Bool
  msg : String

/-- A `WAIT` function: the byte it expects. -/
structure Wait where
  token : UInt8
  readMsg : String
  tokenMsg : String

/-- `TELL_PARENT_PIPE`: `if (!writen(pfd2[1], &c, 1)) err_sys(...)`. -/
def tellParentPipe : Tell where
  token := ascii 'c'
  exits r := !r.isSome
  msg := "TELL_PARENT: call write"

/-- `WAIT_PARENT_PIPE`. -/
def waitParentPipe : Wait where
  token := ascii 'p'
  readMsg := "WAIT_PARENT: call read"
  tokenMsg := "WAIT_PARENT: taken incorrect data"

/-- `TELL_CHILD_PIPE`: `if (!writen(pfd1[1], &c, 1) != 1) err_sys(...)`. -/
def tellChildPipe : Tell where
  token := ascii 'p'
  exits r := (!r.isSome).toNat != 1
  msg := "TELL_CHILD: call write"

/-- `WAIT_CHILD_PIPE`. -/
def waitChildPipe : Wait where
  token := ascii 'c'
  readMsg := "WAIT_CHILD: call read"
  tokenMsg := "WAIT_CHILD: taken incorrect data"

/-- The functions that each process calls. -/
structure Ops where
  tell : Side → Tell
  wait : Side → Wait

/-- The functions of the library: the child leads. -/
def pipeOps : Ops where
  tell
    | .leader => tellParentPipe
    | .follower => tellChildPipe
  wait
    | .leader => waitParentPipe
    | .follower => waitChildPipe

/-! ### The program -/

/-- The next operation of a process, in round `i`. -/
inductive Pc
  | work (i : ℕ)
  | tell (i : ℕ)                    -- writen(pfd[1], &c, 1)
  | check (i : ℕ) (r : Option ℕ)    -- the test of its result
  | wait (i : ℕ)                    -- read(pfd[0], &c, 1)
  | token (i : ℕ) (c : UInt8)       -- the test of the byte
  | finished
  | exited (msg : String)
  deriving DecidableEq, Repr

/-- The two processes and their pipes. -/
structure State where
  pc : Side → Pc
  /-- what a process will read: `pfd1` for the child, `pfd2` for the parent -/
  pipe : Side → List UInt8
  /-- who worked, in order -/
  log : List Side
  /-- how many bytes a process has written -/
  told : Side → ℕ
  /-- how often its `WAIT` has returned -/
  waited : Side → ℕ

/-- Process `x` continues at `p`. -/
def State.goto (s : State) (x : Side) (p : Pc) : State :=
  { s with pc := Function.update s.pc x p }

/-- Process `x` has written `sent`, and continues at `p`. -/
def State.wrote (s : State) (x : Side) (sent : List UInt8) (p : Pc) : State :=
  { s.goto x p with
    pipe := Function.update s.pipe x.other (s.pipe x.other ++ sent)
    told := Function.update s.told x (s.told x + sent.length) }

/-- Process `x` has taken a byte out of its pipe, `cs` is left. -/
def State.took (s : State) (x : Side) (cs : List UInt8) (p : Pc) : State :=
  { s.goto x p with pipe := Function.update s.pipe x cs }

/-- `WAIT` has returned. -/
def State.returned (s : State) (x : Side) (p : Pc) : State :=
  { s.goto x p with waited := Function.update s.waited x (s.waited x + 1) }

variable (ops : Ops) (n : ℕ)

/-- The loop test `i < n` and the first operation of the loop body. -/
def enter (i : ℕ) : Side → Pc
  | .leader => if i < n then .work i else .finished
  | .follower => if i < n then .wait i else .finished

/-- After `WAIT` in round `i`. -/
def afterWait (i : ℕ) : Side → Pc
  | .leader => enter n (i + 1) .leader
  | .follower => .work i

/-- After `TELL` in round `i`. -/
def afterTell (i : ℕ) : Side → Pc
  | .leader => .wait i
  | .follower => enter n (i + 1) .follower

/-- One operation of process `x`, whose call goes as `o` says. -/
def step (s : State) (x : Side) (o : Outcome) : Option State :=
  match s.pc x with
  | .work i => some { s.goto x (.tell i) with log := s.log ++ [x] }
  | .tell i =>
      let (r, sent, _) := writen [(ops.tell x).token] [o]
      some (s.wrote x sent (.check i r))
  | .check i r =>
      some (s.goto x (if (ops.tell x).exits r then .exited (ops.tell x).msg else afterTell n i x))
  | .wait i =>
      match o with
      | .fail => some (s.goto x (.exited (ops.wait x).readMsg))
      | .upTo _ =>
          match s.pipe x with
          | [] => none
          | c :: cs => some (s.took x cs (.token i c))
  | .token i c =>
      if c = (ops.wait x).token then some (s.returned x (afterWait n i x))
      else some (s.goto x (.exited (ops.wait x).tokenMsg))
  | .finished | .exited _ => none

/-- Both processes at the start of their loops. -/
def initState : State where
  pc := enter n 0
  pipe _ := []
  log := []
  told _ := 0
  waited _ := 0

/-- `n` rounds. -/
def rounds : Machine State (Side × Outcome) where
  init s := s = initState n
  next s a := step ops n s a.1 a.2

/-- The program if every read and write succeeds. -/
def roundsOk : Machine State (Side × Outcome) := (rounds ops n).restrict fun _ a => a.2 ≠ .fail

/-- Both loops have finished. -/
def State.Finished (s : State) : Prop := ∀ x, s.pc x = .finished

/-- A turn of one operation. -/
def oneStep : Work Unit Unit Unit where
  start _ _ := ()
  step _ _ _ _ := some ((), none)

/-- The program with pipes does what the one with signals does: it takes no error exit, no
`WAIT` returns before the `TELL` it waits for, and it finishes with the same sequence of turns. -/
structure Refines : Prop where
  safe : ∀ s, (roundsOk ops n).Reach s → ∀ x msg, s.pc x ≠ .exited msg
  matched : ∀ s, (roundsOk ops n).Reach s → ∀ x, s.waited x ≤ s.told x.other
  live : ∀ s, (roundsOk ops n).Reach s → ¬s.Finished → ∃ a s', (roundsOk ops n).next s a = some s'
  bounded : ∀ as s, (roundsOk ops n).run (initState n) as = some s → as.length ≤ 10 * n
  same : ∀ s, (roundsOk ops n).Reach s → s.log = turns s.log.length ∧
    (s.Finished → s.log = turns (2 * n) ∧
      ∀ s', (SignalSync.rounds oneStep n ()).Reach s' → s'.Finished → s'.log = s.log)

/-! ### Where the turn is -/

/-- In round `k`, the leader after its `TELL` and the follower before its `WAIT`; the test of the
`TELL` before may still be to come. -/
inductive Idle : Side → ℕ → Pc → Prop
  | leaderCheck {k : ℕ} : Idle .leader k (.check k (some 1))
  | leaderWait {k : ℕ} : Idle .leader k (.wait k)
  | followerCheck {k : ℕ} : Idle .follower (k + 1) (.check k (some 1))
  | followerWait {k : ℕ} : k < n → Idle .follower k (.wait k)
  | followerDone {k : ℕ} : ¬k < n → Idle .follower k .finished

/-- Process `x` has turn number `v`, in round `i`. -/
inductive Works (v i : ℕ) (x : Side) (s : State) : Prop
  | work : s.pc x = .work i → s.log = turns v → Works v i x s
  | tell : s.pc x = .tell i → s.log = turns (v + 1) → Works v i x s

/-- Process `x` has been told in round `k`: the byte is in its pipe, or it has read it. -/
inductive Told (k : ℕ) (x : Side) (s : State) : Prop
  | piped : Idle n x k (s.pc x) → s.pipe x = [(ops.wait x).token] → Told k x s
  | taken : s.pc x = .token k (ops.wait x).token → s.pipe x = [] → Told k x s

/-- **The invariant**: one process has the turn, or has just passed it on, while the other one
is idle. -/
inductive Inv (s : State) : Prop
  | leaderWorks {k : ℕ} : k < n → Works (2 * k) k .leader s → s.pipe .leader = [] →
      Idle n .follower k (s.pc .follower) → s.pipe .follower = [] → Inv s
  | followerTold {k : ℕ} : k < n → Idle n .leader k (s.pc .leader) → s.pipe .leader = [] →
      Told ops n k .follower s → s.log = turns (2 * k + 1) → Inv s
  | followerWorks {k : ℕ} : k < n → Idle n .leader k (s.pc .leader) → s.pipe .leader = [] →
      Works (2 * k + 1) k .follower s → s.pipe .follower = [] → Inv s
  | leaderTold {k : ℕ} : k < n → Told ops n k .leader s →
      Idle n .follower (k + 1) (s.pc .follower) → s.pipe .follower = [] →
      s.log = turns (2 * (k + 1)) → Inv s
  | finished : s.pc .leader = .finished → s.pipe .leader = [] →
      Idle n .follower n (s.pc .follower) → s.pipe .follower = [] →
      s.log = turns (2 * n) → Inv s

section Steps

variable {ops n} {s s' : State} {x : Side} {k v i c : ℕ}

theorem other_ne (x : Side) : x.other ≠ x := by
  cases x <;> nofun

@[simp] theorem goto_pc_self (s : State) (x : Side) (p : Pc) : (s.goto x p).pc x = p :=
  Function.update_self ..

@[simp] theorem goto_pc_other (s : State) (x : Side) (p : Pc) :
    (s.goto x p).pc x.other = s.pc x.other := Function.update_of_ne (other_ne x) ..

/-- What an operation can be. -/
theorem step_cases {o : Outcome} (hs : step ops n s x o = some s') :
    (∃ i, s.pc x = .work i ∧ s' = { s.goto x (.tell i) with log := s.log ++ [x] }) ∨
    (∃ i, s.pc x = .tell i ∧ s' = s.wrote x (writen [(ops.tell x).token] [o]).2.1
      (.check i (writen [(ops.tell x).token] [o]).1)) ∨
    (∃ i r, s.pc x = .check i r ∧ (ops.tell x).exits r = false ∧ s' = s.goto x (afterTell n i x)) ∨
    (∃ i b bs, s.pc x = .wait i ∧ s.pipe x = b :: bs ∧ s' = s.took x bs (.token i b)) ∨
    (∃ i, s.pc x = .token i (ops.wait x).token ∧ s' = s.returned x (afterWait n i x)) ∨
    ∃ msg, s' = s.goto x (.exited msg) := by
  unfold step at hs
  cases hp : s.pc x <;> rw [hp] at hs
  case work i => exact .inl ⟨i, rfl, (Option.some.inj hs).symm⟩
  case tell i => exact .inr (.inl ⟨i, rfl, (Option.some.inj hs).symm⟩)
  case check i r =>
      simp only at hs
      split at hs
      case isTrue => exact .inr (.inr (.inr (.inr (.inr ⟨_, (Option.some.inj hs).symm⟩))))
      case isFalse h =>
          exact .inr (.inr (.inl ⟨i, r, rfl, Bool.eq_false_of_not_eq_true h,
            (Option.some.inj hs).symm⟩))
  case wait i =>
      cases o with
      | fail => exact .inr (.inr (.inr (.inr (.inr ⟨_, (Option.some.inj hs).symm⟩))))
      | upTo c =>
          simp only at hs
          split at hs
          case h_1 => cases hs
          case h_2 b bs hpipe =>
              exact .inr (.inr (.inr (.inl ⟨i, b, bs, rfl, hpipe, (Option.some.inj hs).symm⟩)))
  case token i b =>
      simp only at hs
      split at hs
      case isTrue h =>
          rw [h]
          exact .inr (.inr (.inr (.inr (.inl ⟨i, rfl, (Option.some.inj hs).symm⟩))))
      case isFalse => exact .inr (.inr (.inr (.inr (.inr ⟨_, (Option.some.inj hs).symm⟩))))
  case finished | exited => cases hs

/-- A write of one byte that does not fail. -/
theorem writen_one (b : UInt8) (c : ℕ) : writen [b] [.upTo c] = (some 1, [b], []) := by
  simp [writen, writenLoop, write]

/-- A process in its turn works, and then writes the other one's byte. -/
theorem Works.step (h : Works v i x s) (hx : turn v = x)
    (hs : step ops n s x (.upTo c) = some s') :
    (Works v i x s' ∧ s'.pc x.other = s.pc x.other ∧ s'.pipe = s.pipe) ∨
      s.log = turns (v + 1) ∧ s' = s.wrote x [(ops.tell x).token] (.check i (some 1)) := by
  unfold PipeSync.step at hs
  cases h with
  | work hp hlog =>
      rw [hp] at hs
      obtain rfl := Option.some.inj hs
      refine .inl ⟨.tell (goto_pc_self ..) ?_, goto_pc_other .., rfl⟩
      rw [turns_succ, ← hlog, hx]
  | tell hp hlog =>
      rw [hp, writen_one] at hs
      exact .inr ⟨hlog, (Option.some.inj hs).symm⟩

theorem idle_enter (n k : ℕ) : Idle n .follower k (enter n k .follower) := by
  rw [enter]
  split
  case isTrue h => exact .followerWait h
  case isFalse h => exact .followerDone h

/-- An idle process whose pipe is empty stays idle. -/
theorem Idle.step (h : Idle n x k (s.pc x)) (hgood : (ops.tell x).exits (some 1) = false)
    (hpipe : s.pipe x = []) (hs : step ops n s x (.upTo c) = some s') :
    ∃ p, Idle n x k p ∧ s' = s.goto x p := by
  generalize hp : s.pc x = p at h
  unfold PipeSync.step at hs
  rw [hp] at hs
  cases h with
  | leaderCheck =>
      simp only [hgood] at hs
      exact ⟨_, .leaderWait, (Option.some.inj hs).symm⟩
  | followerCheck =>
      simp only [hgood] at hs
      exact ⟨_, idle_enter n _, (Option.some.inj hs).symm⟩
  | leaderWait | followerWait =>
      simp only [hpipe] at hs
      cases hs
  | followerDone => cases hs

/-- A process that was told reads its byte, and its `WAIT` returns. -/
theorem Told.step (h : Told ops n k x s) (hgood : (ops.tell x).exits (some 1) = false)
    (hk : k < n) (hs : step ops n s x (.upTo c) = some s') :
    (Told ops n k x s' ∧ s'.pc x.other = s.pc x.other ∧ s'.pipe x.other = s.pipe x.other ∧
      s'.log = s.log) ∨
    s.pipe x = [] ∧ s' = s.returned x (afterWait n k x) := by
  unfold PipeSync.step at hs
  cases h with
  | piped hidle hpipe =>
      refine .inl ?_
      generalize hp : s.pc x = p at hidle
      rw [hp] at hs
      cases hidle with
      | leaderCheck =>
          simp only [hgood] at hs
          obtain rfl := Option.some.inj hs
          exact ⟨.piped .leaderWait hpipe, goto_pc_other .., rfl, rfl⟩
      | followerCheck =>
          simp only [hgood] at hs
          obtain rfl := Option.some.inj hs
          refine ⟨.piped ?_ hpipe, goto_pc_other .., rfl, rfl⟩
          rw [goto_pc_self]
          exact idle_enter n _
      | leaderWait | followerWait =>
          simp only [hpipe] at hs
          obtain rfl := Option.some.inj hs
          exact ⟨.taken rfl rfl, rfl, rfl, rfl⟩
      | followerDone h => exact absurd hk h
  | taken hp hpipe =>
      rw [hp] at hs
      simp only [if_pos] at hs
      exact .inr ⟨hpipe, (Option.some.inj hs).symm⟩

/-- A byte that is written to an idle process tells it. -/
theorem Idle.wrote (h : Idle n x.other k (s.pc x.other)) (hpipe : s.pipe x.other = [])
    (hmatch : (ops.tell x).token = (ops.wait x.other).token) (p : Pc) :
    Told ops n k x.other (s.wrote x [(ops.tell x).token] p) := by
  refine .piped ?_ ?_
  · show Idle n x.other k ((s.goto x p).pc x.other)
    rw [goto_pc_other]
    exact h
  · show Function.update s.pipe x.other (s.pipe x.other ++ [(ops.tell x).token]) x.other = _
    rw [Function.update_self, hpipe, hmatch]
    rfl

/-- The other process, and the history, are as before. -/
theorem Works.of_eq (h : Works v i x s) (hp : s'.pc x = s.pc x) (hl : s'.log = s.log) :
    Works v i x s' := by
  cases h with
  | work hw hlog => exact .work (hp.trans hw) (hl.trans hlog)
  | tell hw hlog => exact .tell (hp.trans hw) (hl.trans hlog)

theorem Told.of_eq (h : Told ops n k x s) (hp : s'.pc x = s.pc x) (hpipe : s'.pipe x = s.pipe x) :
    Told ops n k x s' := by
  cases h with
  | piped hidle hbyte => exact .piped (hp ▸ hidle) (hpipe.trans hbyte)
  | taken hw hempty => exact .taken (hp.trans hw) (hpipe.trans hempty)

/-- The leader enters round `k`. -/
theorem inv_enter (hk : k ≤ n) (hl : s.pc .leader = enter n k .leader) (hpl : s.pipe .leader = [])
    (hf : Idle n .follower k (s.pc .follower)) (hpf : s.pipe .follower = [])
    (hlog : s.log = turns (2 * k)) : Inv ops n s := by
  rw [enter] at hl
  split at hl
  case isTrue h => exact .leaderWorks h (.work hl hlog) hpl hf hpf
  case isFalse h =>
      obtain rfl : k = n := by omega
      exact .finished hl hpl hf hpf hlog

theorem inv_initState : Inv ops n (initState n) :=
  inv_enter (Nat.zero_le n) rfl rfl (idle_enter n 0) rfl rfl

/-- **Every step keeps the invariant** if no `TELL` takes a success for a failure. -/
theorem Inv.step (hgood : ∀ x, (ops.tell x).exits (some 1) = false)
    (hmatch : ∀ x, (ops.tell x).token = (ops.wait x.other).token) (h : Inv ops n s)
    (hs : step ops n s x (.upTo c) = some s') : Inv ops n s' := by
  cases h with
  | leaderWorks hk hw hpl hf hpf =>
      cases x with
      | leader =>
          obtain ⟨hw', hpc, hpipe⟩ | ⟨hlog, rfl⟩ := hw.step (turn_even _) hs
          · have hpc' : s'.pc .follower = s.pc .follower := hpc
            exact .leaderWorks hk hw' (by rw [hpipe]; exact hpl) (hpc' ▸ hf) (by rw [hpipe]; exact hpf)
          · -- the turn ends with a byte in the follower's pipe
            refine .followerTold hk ?_ hpl (Idle.wrote hf hpf (hmatch .leader) _) hlog
            exact .leaderCheck
      | follower =>
          obtain ⟨p, hp, rfl⟩ := hf.step (hgood _) hpf hs
          exact .leaderWorks hk (hw.of_eq rfl rfl) hpl hp hpf
  | followerTold hk hl hpl hf hlog =>
      cases x with
      | leader =>
          obtain ⟨p, hp, rfl⟩ := hl.step (hgood _) hpl hs
          exact .followerTold hk hp hpl (hf.of_eq rfl rfl) hlog
      | follower =>
          obtain ⟨hf', hpc, hpipe, hlog'⟩ | ⟨hpf, rfl⟩ := hf.step (hgood _) hk hs
          · have hpc' : s'.pc .leader = s.pc .leader := hpc
            exact .followerTold hk (hpc' ▸ hl) (hpipe.trans hpl) hf' (hlog'.trans hlog)
          · exact .followerWorks hk hl hpl (.work rfl hlog) hpf
  | followerWorks hk hl hpl hw hpf =>
      cases x with
      | leader =>
          obtain ⟨p, hp, rfl⟩ := hl.step (hgood _) hpl hs
          exact .followerWorks hk hp hpl (hw.of_eq rfl rfl) hpf
      | follower =>
          obtain ⟨hw', hpc, hpipe⟩ | ⟨hlog, rfl⟩ := hw.step (turn_odd _) hs
          · have hpc' : s'.pc .leader = s.pc .leader := hpc
            exact .followerWorks hk (hpc' ▸ hl) (by rw [hpipe]; exact hpl) hw' (by rw [hpipe]; exact hpf)
          · refine .leaderTold hk (Idle.wrote hl hpl (hmatch .follower) _) ?_ hpf hlog
            exact .followerCheck
  | leaderTold hk hl hf hpf hlog =>
      cases x with
      | leader =>
          obtain ⟨hl', hpc, hpipe, hlog'⟩ | ⟨hpl, rfl⟩ := hl.step (hgood _) hk hs
          · have hpc' : s'.pc .follower = s.pc .follower := hpc
            exact .leaderTold hk hl' (hpc' ▸ hf) (hpipe.trans hpf) (hlog'.trans hlog)
          · -- the next round, or the end of the loop
            exact inv_enter hk rfl hpl hf hpf hlog
      | follower =>
          obtain ⟨p, hp, rfl⟩ := hf.step (hgood _) hpf hs
          exact .leaderTold hk (hl.of_eq rfl rfl) hp hpf hlog
  | finished hl hpl hf hpf hlog =>
      cases x with
      | leader =>
          unfold PipeSync.step at hs
          rw [hl] at hs
          cases hs
      | follower =>
          obtain ⟨p, hp, rfl⟩ := hf.step (hgood _) hpf hs
          exact .finished hl hpl hp hpf hlog

/-! ### Consequences of the invariant -/

/-- In one of the `n` rounds, or finished. -/
def Pc.Within (n : ℕ) : Pc → Prop
  | .work i | .tell i | .check i _ | .wait i | .token i _ => i < n
  | .finished => True
  | .exited _ => False

theorem Works.within (h : Works v i x s) (hi : i < n) : (s.pc x).Within n := by
  cases h with
  | work hp _ | tell hp _ => rw [hp]; exact hi

theorem Idle.leader_within {p : Pc} (h : Idle n .leader k p) (hk : k < n) : p.Within n := by
  cases h <;> exact hk

theorem Idle.follower_within {p : Pc} (h : Idle n .follower k p) (hk : k ≤ n) : p.Within n := by
  cases h with
  | followerCheck => exact hk
  | followerWait h => exact h
  | followerDone _ => trivial

/-- No error exit has been taken. -/
theorem Inv.within (h : Inv ops n s) (x : Side) : (s.pc x).Within n := by
  cases h with
  | leaderWorks hk hw _ hf _ =>
      cases x
      · exact hw.within hk
      · exact hf.follower_within hk.le
  | followerTold hk hl _ hf _ =>
      cases x
      · exact hl.leader_within hk
      · cases hf with
        | piped hi _ => exact hi.follower_within hk.le
        | taken hp _ => rw [hp]; exact hk
  | followerWorks hk hl _ hw _ =>
      cases x
      · exact hl.leader_within hk
      · exact hw.within hk
  | leaderTold hk hl hf _ _ =>
      cases x
      · cases hl with
        | piped hi _ => exact hi.leader_within hk
        | taken hp _ => rw [hp]; exact hk
      · exact hf.follower_within hk
  | finished hl _ hf _ _ =>
      cases x
      · rw [hl]; trivial
      · exact hf.follower_within (Nat.le_refl n)

theorem Works.enabled (ops : Ops) (n : ℕ) (h : Works v i x s) :
    ∃ s', PipeSync.step ops n s x (.upTo 0) = some s' := by
  unfold PipeSync.step
  cases h with
  | work hp _ | tell hp _ => rw [hp]; exact ⟨_, rfl⟩

theorem Told.enabled (hk : k < n) (h : Told ops n k x s) :
    ∃ s', PipeSync.step ops n s x (.upTo 0) = some s' := by
  unfold PipeSync.step
  cases h with
  | taken hp _ =>
      rw [hp]
      simp
  | piped hi hpipe =>
      generalize s.pc x = p at hi
      cases hi with
      | leaderCheck | followerCheck => exact ⟨_, rfl⟩
      | leaderWait | followerWait _ =>
          simp only [hpipe]
          exact ⟨_, rfl⟩
      | followerDone h => exact absurd hk h

/-- Some process can go on until both have finished. -/
theorem Inv.progress (h : Inv ops n s) (hs : ¬s.Finished) :
    ∃ x s', PipeSync.step ops n s x (.upTo 0) = some s' := by
  cases h with
  | leaderWorks _ hw _ _ _ => exact ⟨.leader, hw.enabled ops n⟩
  | followerTold hk _ _ hf _ => exact ⟨.follower, hf.enabled hk⟩
  | followerWorks _ _ _ hw _ => exact ⟨.follower, hw.enabled ops n⟩
  | leaderTold hk hl _ _ _ => exact ⟨.leader, hl.enabled hk⟩
  | finished hl _ hf _ _ =>
      generalize hp : s.pc .follower = p at hf
      cases hf with
      | followerCheck =>
          refine ⟨.follower, ?_⟩
          unfold PipeSync.step
          rw [hp]
          exact ⟨_, rfl⟩
      | followerWait h => exact absurd h (Nat.lt_irrefl n)
      | followerDone _ =>
          refine absurd (fun x => ?_) hs
          cases x
          · exact hl
          · exact hp

/-- The processes take turns. -/
theorem Inv.log_eq (h : Inv ops n s) : s.log = turns s.log.length := by
  have hworks : ∀ {v i x}, Works v i x s → ∃ m, s.log = turns m := by
    intro v i x hw
    cases hw with
    | work _ hlog | tell _ hlog => exact ⟨_, hlog⟩
  obtain ⟨m, hm⟩ : ∃ m, s.log = turns m := by
    cases h with
    | leaderWorks _ hw _ _ _ => exact hworks hw
    | followerTold _ _ _ _ hlog => exact ⟨_, hlog⟩
    | followerWorks _ _ _ hw _ => exact hworks hw
    | leaderTold _ _ _ _ hlog => exact ⟨_, hlog⟩
    | finished _ _ _ _ hlog => exact ⟨_, hlog⟩
  rw [hm, length_turns]

/-- When both loops have finished, each process has worked `n` times. -/
theorem Inv.of_finished (h : Inv ops n s) (hs : s.Finished) : s.log = turns (2 * n) := by
  have hworks : ∀ {v i x}, ¬Works v i x s := by
    rintro v i x (⟨hp, -⟩ | ⟨hp, -⟩) <;> (rw [hs x] at hp; cases hp)
  have hlead : ∀ {k}, ¬Idle n .leader k (s.pc .leader) := by
    intro k hi
    rw [hs .leader] at hi
    cases hi
  cases h with
  | leaderWorks _ hw _ _ _ => exact absurd hw hworks
  | followerTold _ hl _ _ _ => exact absurd hl hlead
  | followerWorks _ hl _ _ _ => exact absurd hl hlead
  | leaderTold _ hl _ _ _ =>
      cases hl with
      | piped hi _ => exact absurd hi hlead
      | taken hp _ =>
          rw [hs .leader] at hp
          cases hp
  | finished _ _ _ _ hlog => exact hlog

/-! ### The length of a run -/

/-- How many operations a process has performed. -/
def Pc.pos (n : ℕ) : Side → Pc → ℕ
  | .leader, .work i => 5 * i
  | .leader, .tell i => 5 * i + 1
  | .leader, .check i _ => 5 * i + 2
  | .leader, .wait i => 5 * i + 3
  | .leader, .token i _ => 5 * i + 4
  | .follower, .wait i => 5 * i
  | .follower, .token i _ => 5 * i + 1
  | .follower, .work i => 5 * i + 2
  | .follower, .tell i => 5 * i + 3
  | .follower, .check i _ => 5 * i + 4
  | _, .finished => 5 * n
  | _, .exited _ => 0

/-- How many operations both processes still have to perform. -/
def State.remaining (n : ℕ) (s : State) : ℕ :=
  10 * n - ((s.pc .leader).pos n .leader + (s.pc .follower).pos n .follower)

theorem Pc.pos_le {p : Pc} (h : p.Within n) (x : Side) : p.pos n x ≤ 5 * n := by
  cases p <;> cases x <;> simp only [Pc.Within] at h <;> simp only [Pc.pos] <;> omega

theorem pos_enter (hi : i < n) (x : Side) : (enter n (i + 1) x).pos n x = 5 * (i + 1) := by
  cases x <;> (rw [enter]; split <;> simp only [Pc.pos]; omega)

/-- An operation that is not an error exit takes the process one further. -/
theorem pos_step (hs : step ops n s x (.upTo c) = some s') (h : (s.pc x).Within n)
    (h' : (s'.pc x).Within n) :
    (s'.pc x).pos n x = (s.pc x).pos n x + 1 ∧ s'.pc x.other = s.pc x.other := by
  have hpc : ∀ {p q}, s.pc x = q → s'.pc = (s.goto x p).pc → p.pos n x = q.pos n x + 1 →
      (s'.pc x).pos n x = (s.pc x).pos n x + 1 ∧ s'.pc x.other = s.pc x.other := by
    intro p q hq hp hpos
    rw [hp, goto_pc_self, goto_pc_other, hq]
    exact ⟨hpos, rfl⟩
  obtain ⟨i, hp, rfl⟩ | ⟨i, hp, rfl⟩ | ⟨i, r, hp, -, rfl⟩ | ⟨i, b, bs, hp, -, rfl⟩ |
    ⟨i, hp, rfl⟩ | ⟨msg, rfl⟩ := step_cases hs
  · exact hpc hp rfl (by cases x <;> rfl)
  · exact hpc hp rfl (by cases x <;> rfl)
  · refine hpc hp rfl ?_
    rw [hp] at h
    cases x with
    | leader => rfl
    | follower => exact pos_enter h .follower
  · exact hpc hp rfl (by cases x <;> rfl)
  · refine hpc hp rfl ?_
    rw [hp] at h
    cases x with
    | leader => exact pos_enter h .leader
    | follower => rfl
  · rw [goto_pc_self] at h'
    exact h'.elim

end Steps

/-! ### Every run -/

section Runs

variable {ops n} {s s' : State} {x : Side} {o : Outcome}

/-- The byte that `WAIT` has read and not yet tested. -/
def Pc.inHand : Pc → ℕ
  | .token _ _ => 1
  | _ => 0

/-- What has been read was written before. -/
def Owes (s : State) (x : Side) : Prop :=
  s.waited x + (s.pipe x).length + (s.pc x).inHand ≤ s.told x.other

theorem inHand_enter (i : ℕ) (x : Side) : (enter n i x).inHand = 0 := by
  cases x <;> (rw [enter]; split <;> rfl)

/-- A move that leaves no byte in hand. -/
theorem Owes.goto {p : Pc} (h : ∀ y, Owes s y) (hp : p.inHand = 0) (y : Side) :
    Owes (s.goto x p) y := by
  have hy : s.waited y + (s.pipe y).length + (s.pc y).inHand ≤ s.told y.other := h y
  show s.waited y + (s.pipe y).length + (Function.update s.pc x p y).inHand ≤ s.told y.other
  by_cases hyx : y = x
  · rw [hyx, Function.update_self, hp]
    rw [hyx] at hy
    omega
  · rw [Function.update_of_ne hyx]
    exact hy

theorem Owes.wrote {p : Pc} (sent : List UInt8) (h : ∀ y, Owes s y) (hp : p.inHand = 0)
    (y : Side) : Owes (s.wrote x sent p) y := by
  have hy := Owes.goto (x := x) h hp y
  unfold Owes at hy ⊢
  -- the bytes are added to both sides, or to neither
  cases x <;> cases y <;>
    simp [State.wrote, State.goto, Side.other] at hy ⊢ <;> omega

theorem Owes.took {i : ℕ} {c : UInt8} {cs : List UInt8} (h : ∀ y, Owes s y)
    (hc : s.pipe x = c :: cs) (y : Side) : Owes (s.took x cs (.token i c)) y := by
  have hy : s.waited y + (s.pipe y).length + (s.pc y).inHand ≤ s.told y.other := h y
  show s.waited y + (Function.update s.pipe x cs y).length +
    (Function.update s.pc x (.token i c) y).inHand ≤ s.told y.other
  by_cases hyx : y = x
  · rw [hyx] at hy ⊢
    rw [hc, List.length_cons] at hy
    rw [Function.update_self, Function.update_self, Pc.inHand]
    omega
  · rw [Function.update_of_ne hyx, Function.update_of_ne hyx]
    exact hy

theorem Owes.returned {p q : Pc} (h : ∀ y, Owes s y) (hq : s.pc x = q) (hin : q.inHand = 1)
    (hp : p.inHand = 0) (y : Side) : Owes (s.returned x p) y := by
  have hy : s.waited y + (s.pipe y).length + (s.pc y).inHand ≤ s.told y.other := h y
  show Function.update s.waited x (s.waited x + 1) y + (s.pipe y).length +
    (Function.update s.pc x p y).inHand ≤ s.told y.other
  by_cases hyx : y = x
  · rw [hyx] at hy ⊢
    rw [hq, hin] at hy
    rw [Function.update_self, Function.update_self, hp]
    omega
  · rw [Function.update_of_ne hyx, Function.update_of_ne hyx]
    exact hy

/-- This is so whatever the functions test and however their calls go. -/
theorem Owes.step (h : ∀ y, Owes s y) (hs : step ops n s x o = some s') (y : Side) :
    Owes s' y := by
  obtain ⟨i, -, rfl⟩ | ⟨i, -, rfl⟩ | ⟨i, r, -, -, rfl⟩ | ⟨i, b, bs, -, hb, rfl⟩ |
    ⟨i, hp, rfl⟩ | ⟨msg, rfl⟩ := step_cases hs
  · exact Owes.goto h rfl y
  · exact Owes.wrote _ h rfl y
  · refine Owes.goto h ?_ y
    cases x with
    | leader => rfl
    | follower => exact inHand_enter (i + 1) .follower
  · exact Owes.took h hb y
  · refine Owes.returned h hp rfl ?_ y
    cases x with
    | leader => exact inHand_enter (i + 1) .leader
    | follower => rfl
  · exact Owes.goto h rfl y

/-- Every step of a run without failing calls. -/
theorem roundsOk_next {a : Side × Outcome} (hs : (roundsOk ops n).next s a = some s') :
    ∃ c, a.2 = .upTo c ∧ step ops n s a.1 (.upTo c) = some s' := by
  obtain ⟨ha, hs⟩ := Machine.restrict_next.mp hs
  obtain ⟨x, o⟩ := a
  cases o with
  | fail => exact absurd rfl ha
  | upTo c => exact ⟨c, rfl, hs⟩

theorem owes_reach (h : (roundsOk ops n).Reach s) (x : Side) : Owes s x := by
  refine h.invariant (I := fun s => ∀ x, Owes s x) ?_ (fun s a s' hi hs => ?_) x
  · rintro s rfl y
    show 0 + 0 + (enter n 0 y).inHand ≤ 0
    rw [inHand_enter]
  · exact Owes.step hi (Machine.restrict_next.mp hs).2

/-- The sequence of turns of the program with signals. -/
theorem signal_log {s : SignalSync.State Unit Unit} (h : (SignalSync.rounds oneStep n ()).Reach s)
    (hs : s.Finished) : s.log = turns (2 * n) := by
  have hkeeps : oneStep.Keeps n (fun _ _ _ => True) (fun _ _ => True) fun _ => True :=
    ⟨fun _ _ => trivial, fun _ _ _ _ => trivial, fun _ _ _ _ => trivial⟩
  exact ((SignalSync.inv_reach hkeeps trivial h).of_finished hs).2

section Good

variable (hgood : ∀ x, (ops.tell x).exits (some 1) = false)
  (hmatch : ∀ x, (ops.tell x).token = (ops.wait x.other).token)

include hgood hmatch

/-- **The invariant holds in every run.** -/
theorem inv_reach (h : (roundsOk ops n).Reach s) : Inv ops n s := by
  refine h.invariant (fun s hs => ?_) fun s a s' hi hs => ?_
  · obtain rfl : s = initState n := hs
    exact inv_initState
  · obtain ⟨c, -, hs⟩ := roundsOk_next hs
    exact hi.step hgood hmatch hs

/-- Every operation takes one of the processes one further. -/
theorem remaining_next (h : Inv ops n s) {a : Side × Outcome}
    (hs : (roundsOk ops n).next s a = some s') : s'.remaining n < s.remaining n := by
  obtain ⟨c, -, hs⟩ := roundsOk_next hs
  have hinv := h.step hgood hmatch hs
  obtain ⟨hpos, hother⟩ := pos_step hs (h.within a.1) (hinv.within a.1)
  have hl := Pc.pos_le (hinv.within .leader) .leader
  have hf := Pc.pos_le (hinv.within .follower) .follower
  unfold State.remaining
  cases hx : a.1 <;> rw [hx] at hpos hother
  case leader =>
      have hsame : s'.pc .follower = s.pc .follower := hother
      rw [hsame] at hf ⊢
      omega
  case follower =>
      have hsame : s'.pc .leader = s.pc .leader := hother
      rw [hsame] at hl ⊢
      omega

/-- **The protocol is right** if no `TELL` takes a success for a failure. -/
theorem refines_of_good : Refines ops n where
  safe s h x msg hx := by
    have hwithin := (inv_reach hgood hmatch h).within x
    rw [hx] at hwithin
    exact hwithin
  matched s h x := by
    have hx : s.waited x + (s.pipe x).length + (s.pc x).inHand ≤ s.told x.other := owes_reach h x
    omega
  live s h hs := by
    obtain ⟨x, s', hs'⟩ := (inv_reach hgood hmatch h).progress hs
    exact ⟨(x, .upTo 0), s', Machine.restrict_next.mpr ⟨nofun, hs'⟩⟩
  bounded as s hs := by
    have hlen := Machine.Reach.length_run_le (State.remaining n)
      (fun _ _ _ hreach => remaining_next hgood hmatch (inv_reach hgood hmatch hreach))
      (.start rfl) hs
    exact hlen.trans (Nat.sub_le _ _)
  same s h := by
    have hinv := inv_reach hgood hmatch h
    refine ⟨hinv.log_eq, fun hs => ⟨hinv.of_finished hs, fun s' h' hs' => ?_⟩⟩
    rw [hinv.of_finished hs, signal_log h' hs']

end Good

/-- The operations up to the test of the first `TELL` of `x`. -/
def firstTell : Side → List (Side × Outcome)
  | .leader => [(.leader, .upTo 1), (.leader, .upTo 1), (.leader, .upTo 1)]
  | .follower => [(.leader, .upTo 1), (.leader, .upTo 1), (.follower, .upTo 1),
      (.follower, .upTo 1), (.follower, .upTo 1), (.follower, .upTo 1), (.follower, .upTo 1)]

/-- A `TELL` that takes a success for a failure exits in the first round. -/
theorem exits_of_bad (hmatch : ∀ x, (ops.tell x).token = (ops.wait x.other).token) (hn : 0 < n)
    (hbad : (ops.tell x).exits (some 1) = true) :
    ∃ s, (roundsOk ops n).run (initState n) (firstTell x) = some s ∧
      s.pc x = .exited (ops.tell x).msg := by
  have hl : (ops.tell .leader).token = (ops.wait .follower).token := hmatch .leader
  cases x <;>
    simp [firstTell, roundsOk, Machine.restrict, rounds, initState, step, enter, hn, State.goto,
      State.wrote, State.took, State.returned, afterWait, Side.other, writen_one, hbad, hl]

/-- Without rounds nothing happens. -/
theorem reach_zero (h : (roundsOk ops 0).Reach s) : s = initState 0 := by
  refine h.invariant (I := fun s => s = initState 0) (fun s hs => hs) fun s a s' hi hs => ?_
  obtain ⟨c, -, hs⟩ := roundsOk_next hs
  unfold step at hs
  rw [hi] at hs
  cases hx : a.1 <;> rw [hx] at hs <;> cases hs

theorem refines_zero : Refines ops 0 where
  safe s h x msg hx := by
    rw [reach_zero h] at hx
    cases x <;> cases hx
  matched s h x := by
    rw [reach_zero h]
    exact Nat.zero_le _
  live s h hs := by
    refine absurd (fun x => ?_) hs
    rw [reach_zero h]
    cases x <;> rfl
  bounded as s hs := by
    cases as with
    | nil => exact Nat.le_refl 0
    | cons a as =>
        obtain ⟨t, ht, -⟩ := Option.bind_eq_some_iff.mp hs
        obtain ⟨c, -, ht⟩ := roundsOk_next ht
        cases hx : a.1 <;> rw [hx] at ht <;> cases ht
  same s h := by
    rw [reach_zero h]
    exact ⟨rfl, fun _ => ⟨rfl, fun s' h' hs' => signal_log h' hs'⟩⟩

/-- **The protocol is right exactly if** no `TELL` takes a success for a failure. -/
theorem refines_iff (hmatch : ∀ x, (ops.tell x).token = (ops.wait x.other).token) :
    Refines ops n ↔ n = 0 ∨ ∀ x, (ops.tell x).exits (some 1) = false := by
  refine ⟨fun h => ?_, ?_⟩
  · refine or_iff_not_imp_left.mpr fun hn x => Bool.eq_false_of_not_eq_true fun hx => ?_
    obtain ⟨s, hs, hexit⟩ := exits_of_bad hmatch (Nat.pos_of_ne_zero hn) hx
    exact h.safe s (Machine.reach_of_run rfl hs) x _ hexit
  · rintro (rfl | hgood)
    · exact refines_zero
    · exact refines_of_good hgood hmatch

/-- The functions of the library write the bytes that are expected, but `TELL_CHILD_PIPE` exits
after every successful write. -/
theorem pipe_refines_iff (n : ℕ) : Refines pipeOps n ↔ n = 0 := by
  have hmatch : ∀ x, (pipeOps.tell x).token = (pipeOps.wait x.other).token := by
    intro x
    cases x <;> rfl
  rw [refines_iff hmatch]
  refine or_iff_left fun hgood => ?_
  have hchild : tellChildPipe.exits (some 1) = false := hgood .follower
  cases hchild

/-- One round: the child works and tells the parent; the parent waits, works, writes its byte and
exits with an error. -/
theorem pipe_exits_one : ∃ s, (roundsOk pipeOps 1).Reach s ∧
    s.log = [.leader, .follower] ∧ s.told .follower = 1 ∧
    s.pc .follower = .exited "TELL_CHILD: call write" := by
  have hrun : ((roundsOk pipeOps 1).run (initState 1) (firstTell .follower)).map
      (fun s => (s.log, s.told .follower, s.pc .follower)) =
      some ([.leader, .follower], 1, .exited "TELL_CHILD: call write") := by
    decide +kernel
  obtain ⟨s, hs, heq⟩ := Option.map_eq_some_iff.mp hrun
  simp only [Prod.mk.injEq] at heq
  exact ⟨s, Machine.reach_of_run rfl hs, heq.1, heq.2.1, heq.2.2⟩

end Runs

end Apue.PipeSync
