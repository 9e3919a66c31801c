/-
Apue/ForeverLock.lean

The write lock among readers of `14/11_forever_lock_file.cpp`.

Two children lock a file for reading again and again, `times` rounds each; the parent waits
until one of them has the lock and then asks for the file for writing.

    child_fn:  readw_lock;  TELL_PARENT;  println;  nanosleep;  un_lock;  println
    main:      fork;  fork;  WAIT_CHILD;  writew_lock;  println;  un_lock;  println;  wait ..

The program asks whether the readers can keep the writer out for ever.  They cannot: however
the three processes are scheduled, all of them come to their end, no request is refused for a
deadlock, and the file was locked for writing once, with no reader in it
(`write_lock_granted`).  One of the children has to make a round, or the parent waits for a
signal that nobody sends.

Left out: calls that fail for another reason than a deadlock, and how long `nanosleep` lasts.
-/
import Apue.LockWait
import Apue.Machine
import Mathlib.Algebra.GroupWithZero.Nat
import Mathlib.Data.Fintype.Basic

namespace Apue.ForeverLock

open RecordLock

/-! ### The processes -/

inductive Who
  | parent
  | child (i : Fin 2)
  deriving DecidableEq, Repr

theorem mem_who (x : Who) : x ∈ [Who.parent, .child 0, .child 1].toFinset := by
  cases x with
  | parent => decide
  | child i =>
      revert i
      decide

instance : Fintype Who := ⟨[Who.parent, .child 0, .child 1].toFinset, mem_who⟩

/-- The next operation of a child, in round `n`. -/
inductive ChildPc
  | unborn
  | test (n : ℕ)            -- i < times
  | readwLock (n : ℕ)
  | tell (n : ℕ)            -- kill(getppid(), SIGUSR2)
  | printSet (n : ℕ)
  | nanosleep (n : ℕ)
  | unLock (n : ℕ)
  | printUnset (n : ℕ)
  | exited (status : ℕ)
  | reaped (status : ℕ)     -- the parent has had it from wait
  deriving DecidableEq, Repr

/-- The next operation of the parent. -/
inductive MainPc
  | fork (i : Fin 2)
  | test                    -- while (sigflag == 0)
  | suspend                 -- sigsuspend(&zeromask)
  | clear                   -- sigflag = 0
  | writewLock
  | printSet
  | unLock
  | printUnset
  | wait
  | done                    -- TELL_DONE_SIGNAL(); exit(0)
  | exited (status : ℕ)
  deriving DecidableEq, Repr

/-- What is printed. -/
inductive Line
  | readSet (i : Fin 2) (n : ℕ)
  | readUnset (i : Fin 2) (n : ℕ)
  | writeSet
  | writeUnset
  | finished (i : Fin 2)
  deriving DecidableEq, Repr

/-- The processes, the signal of the parent, the locks on the file, and what was printed. -/
structure State where
  main : MainPc
  sigflag : Bool
  pending : Bool
  child : Fin 2 → ChildPc
  locks : Locks Who
  out : List Line

/-- Child `i` goes on to `pc`. -/
def State.setChild (s : State) (i : Fin 2) (pc : ChildPc) : State :=
  { s with child := Function.update s.child i pc }

/-- Child `i` exits, which frees its locks. -/
def State.exitChild (s : State) (i : Fin 2) (status : ℕ) : State :=
  { s.setChild i (.exited status) with locks := s.locks.release (.child i) }

/-- The parent exits. -/
def State.exitMain (s : State) (status : ℕ) : State :=
  { s with main := .exited status, locks := s.locks.release .parent }

/-- `readw_lock(fd, 0, SEEK_SET, 0)`, by a child that does not sleep. -/
def readwLock (s : State) (i : Fin 2) (n : ℕ) : State :=
  match s.locks.setLkW maxDeadlkIterations ⟨.child i, .read, whole⟩ with
  | .granted locks => { s.setChild i (.tell n) with locks := locks }
  | .sleeps locks => { s with locks := locks }
  | .edeadlk => s.exitChild i 1

/-- `writew_lock(fd, 0, SEEK_SET, 0)`, by the parent when it does not sleep. -/
def writewLock (s : State) : State :=
  match s.locks.setLkW maxDeadlkIterations ⟨.parent, .write, whole⟩ with
  | .granted locks => { s with main := .printSet, locks := locks }
  | .sleeps locks => { s with locks := locks }
  | .edeadlk => s.exitMain 1

/-- One operation of `child_fn`. -/
def childStep (times : Fin 2 → ℕ) (s : State) (i : Fin 2) : Option State :=
  match s.child i with
  | .unborn => none
  | .test n => some (if n < times i then s.setChild i (.readwLock n) else s.exitChild i 0)
  | .readwLock n => if s.locks.sleeping (.child i) = none then some (readwLock s i n) else none
  | .tell n => some { s.setChild i (.printSet n) with pending := true }
  | .printSet n => some { s.setChild i (.nanosleep n) with out := s.out ++ [.readSet i n] }
  | .nanosleep n => some (s.setChild i (.unLock n))
  | .unLock n =>
      some { s.setChild i (.printUnset n) with locks := s.locks.unlock (.child i) whole }
  | .printUnset n => some { s.setChild i (.test (n + 1)) with out := s.out ++ [.readUnset i n] }
  | .exited _ => none
  | .reaped _ => none

/-- `wait` returns child `i`. -/
def reap (s : State) (i : Fin 2) : Option State :=
  match s.main, s.child i with
  | .wait, .exited status =>
      some { s.setChild i (.reaped status) with out := s.out ++ [.finished i] }
  | _, _ => none

/-- The child is no process any more. -/
def ChildPc.isReaped : ChildPc → Bool
  | .reaped _ => true
  | _ => false

/-- After the `fork` of child `i`. -/
def afterFork (i : Fin 2) : MainPc := if i = 0 then .fork 1 else .test

/-- One operation of `main` in the parent. -/
def mainStep (s : State) : Option State :=
  match s.main with
  | .fork i => some { s.setChild i (.test 0) with main := afterFork i }
  | .test => some { s with main := if s.sigflag then .clear else .suspend }
  | .suspend =>
      if s.pending then some { s with main := .test, sigflag := true, pending := false } else none
  | .clear => some { s with main := .writewLock, sigflag := false }
  | .writewLock => if s.locks.sleeping .parent = none then some (writewLock s) else none
  | .printSet => some { s with main := .unLock, out := s.out ++ [.writeSet] }
  | .unLock => some { s with main := .printUnset, locks := s.locks.unlock .parent whole }
  | .printUnset => some { s with main := .wait, out := s.out ++ [.writeUnset] }
  -- no child is left: wait returns -1
  | .wait => if ∀ i, (s.child i).isReaped then some { s with main := .done } else none
  | .done => some (s.exitMain 0)
  | .exited _ => none

inductive Act
  | main
  | child (i : Fin 2)
  | reap (i : Fin 2)
  deriving DecidableEq, Repr

/-- One operation of one process. -/
def step (times : Fin 2 → ℕ) (s : State) : Act → Option State
  | .main => mainStep s
  | .child i => childStep times s i
  | .reap i => reap s i

/-- The parent before the first `fork`. -/
def initState : State where
  main := .fork 0
  sigflag := false
  pending := false
  child _ := .unborn
  locks := .none
  out := []

/-- The program, with `times i` rounds for child `i`. -/
def program (times : Fin 2 → ℕ) : Machine State Act where
  init s := s = initState
  next := step times

/-! ### Locks -/

/-- The lock of a child. -/
def ChildPc.held : ChildPc → Option Kind
  | .tell _ | .printSet _ | .nanosleep _ | .unLock _ => some .read
  | _ => none

/-- The lock of the parent. -/
def MainPc.held : MainPc → Option Kind
  | .printSet | .unLock => some .write
  | _ => none

def ChildPc.asking : ChildPc → Bool
  | .readwLock _ => true
  | _ => false

def MainPc.asking : MainPc → Bool
  | .writewLock => true
  | _ => false

/-- The lock of each process, by the places they are at. -/
def State.held (s : State) : Who → Option Kind
  | .parent => s.main.held
  | .child i => (s.child i).held

/-- Who asks for a lock. -/
def State.asking (s : State) : Who → Bool
  | .parent => s.main.asking
  | .child i => (s.child i).asking

/-- The locks on the file are those of the places the processes are at. -/
def Locked (s : State) : Prop := OneLock s.locks s.held s.asking

section Steps

variable {times : Fin 2 → ℕ} {s s' : State} {i : Fin 2} {n : ℕ}

theorem held_setChild (s : State) (i : Fin 2) (pc : ChildPc) :
    (s.setChild i pc).held = Function.update s.held (.child i) pc.held := by
  funext x
  cases x with
  | parent => exact (Function.update_of_ne (show Who.parent ≠ .child i from nofun) ..).symm
  | child j =>
      rcases eq_or_ne j i with rfl | hne
      · rw [Function.update_self]
        exact congrArg ChildPc.held (Function.update_self ..)
      · rw [Function.update_of_ne fun h => hne (Who.child.inj h)]
        exact congrArg ChildPc.held (Function.update_of_ne hne ..)

theorem asking_setChild (s : State) (i : Fin 2) (pc : ChildPc) :
    (s.setChild i pc).asking = Function.update s.asking (.child i) pc.asking := by
  funext x
  cases x with
  | parent => exact (Function.update_of_ne (show Who.parent ≠ .child i from nofun) ..).symm
  | child j =>
      rcases eq_or_ne j i with rfl | hne
      · rw [Function.update_self]
        exact congrArg ChildPc.asking (Function.update_self ..)
      · rw [Function.update_of_ne fun h => hne (Who.child.inj h)]
        exact congrArg ChildPc.asking (Function.update_of_ne hne ..)

theorem held_main (s : State) (pc : MainPc) :
    { s with main := pc }.held = Function.update s.held .parent pc.held := by
  funext x
  cases x with
  | parent => exact (Function.update_self Who.parent _ s.held).symm
  | child j => exact (Function.update_of_ne (show Who.child j ≠ .parent from nofun) ..).symm

theorem asking_main (s : State) (pc : MainPc) :
    { s with main := pc }.asking = Function.update s.asking .parent pc.asking := by
  funext x
  cases x with
  | parent => exact (Function.update_self Who.parent _ s.asking).symm
  | child j => exact (Function.update_of_ne (show Who.child j ≠ .parent from nofun) ..).symm

/-- Nobody asks for a second lock. -/
theorem held_of_asking {x : Who} (h : s.asking x = true) : s.held x = none := by
  cases x with
  | parent =>
      have hmain : s.main.asking = true := h
      show s.main.held = none
      revert hmain
      cases s.main <;> simp [MainPc.asking, MainPc.held]
  | child i =>
      have hchild : (s.child i).asking = true := h
      show (s.child i).held = none
      revert hchild
      cases s.child i <;> simp [ChildPc.asking, ChildPc.held]

theorem Locked.awake (h : Locked s) {x : Who} (hx : s.asking x = false) :
    s.locks.sleeping x = none := by
  refine not_not.mp fun hsleep => ?_
  rw [OneLock.asks h x hsleep] at hx
  exact nomatch hx

/-- A step without locks. -/
theorem Locked.of_held_eq (h : Locked s) (hlocks : s'.locks = s.locks) (hheld : s'.held = s.held)
    (hasking : ∀ x, s.asking x = true → s'.asking x = true) : Locked s' where
  sound := hlocks ▸ OneLock.sound h
  table := by
    rw [hlocks, hheld]
    exact OneLock.table h
  asks := by
    rw [hlocks]
    exact fun x hx => hasking x (OneLock.asks h x hx)
  free := fun _ => held_of_asking

/-- A child goes on, with the lock it had. -/
theorem Locked.setChild (h : Locked s) {pc p : ChildPc} (hpc : s.child i = pc)
    (hheld : p.held = pc.held) (hasking : pc.asking = false) : Locked (s.setChild i p) := by
  refine h.of_held_eq rfl ?_ fun x hx => ?_
  · rw [held_setChild, hheld, ← hpc]
    exact Function.update_eq_self (Who.child i) s.held
  · rw [asking_setChild, Function.update_of_ne, hx]
    rintro rfl
    rw [show s.asking (.child i) = (s.child i).asking from rfl, hpc, hasking] at hx
    exact nomatch hx

/-- The parent goes on, with the lock it had. -/
theorem Locked.setMain (h : Locked s) {pc p : MainPc} (hpc : s.main = pc)
    (hheld : p.held = pc.held) (hasking : pc.asking = false) : Locked { s with main := p } := by
  refine h.of_held_eq rfl ?_ fun x hx => ?_
  · rw [held_main, hheld, ← hpc]
    exact Function.update_eq_self Who.parent s.held
  · rw [asking_main, Function.update_of_ne, hx]
    rintro rfl
    rw [show s.asking .parent = s.main.asking from rfl, hpc, hasking] at hx
    exact nomatch hx

/-- What the locks do not depend on. -/
theorem Locked.congr (h : Locked s) (hmain : s'.main = s.main) (hchild : s'.child = s.child)
    (hlocks : s'.locks = s.locks) : Locked s' := by
  have hheld : s'.held = s.held := by
    funext x
    cases x <;> simp [State.held, hmain, hchild]
  have hasking : s'.asking = s.asking := by
    funext x
    cases x <;> simp [State.asking, hmain, hchild]
  exact h.of_held_eq hlocks hheld fun x hx => by rw [hasking, hx]

theorem Locked.exitChild (h : Locked s) (hawake : s.locks.sleeping (.child i) = none) :
    Locked (s.exitChild i n) := by
  have hlocked := OneLock.release h hawake false
  rw [show none = (ChildPc.exited n).held from rfl, ← held_setChild,
    show false = (ChildPc.exited n).asking from rfl, ← asking_setChild] at hlocked
  exact hlocked

theorem Locked.exitMain (h : Locked s) (hawake : s.locks.sleeping .parent = none) :
    Locked (s.exitMain n) := by
  have hlocked := OneLock.release h hawake false
  rw [show none = (MainPc.exited n).held from rfl, ← held_main,
    show false = (MainPc.exited n).asking from rfl, ← asking_main] at hlocked
  exact hlocked

/-! ### What a step can do -/

/-- A process goes to sleep. -/
structure Sleeps (s : State) (x : Who) (s' : State) : Prop where
  eq : s' = { s with locks := s'.locks }
  awake : s.locks.sleeping x = none
  asleep : s'.locks.sleeping x ≠ none
  others : ∀ y, y ≠ x → s'.locks.sleeping y = s.locks.sleeping y

theorem sleeps_of_setLkW {x : Who} {k : Kind} {locks : Locks Who}
    (hawake : s.locks.sleeping x = none)
    (hs : s.locks.setLkW maxDeadlkIterations ⟨x, k, whole⟩ = .sleeps locks) :
    Sleeps s x { s with locks := locks } := by
  obtain ⟨q, -, -, rfl⟩ := setLkW_sleeps hs
  refine ⟨rfl, hawake, ?_, fun y hne => Function.update_of_ne hne ..⟩
  show Function.update s.locks.sleeping x _ x ≠ none
  rw [Function.update_self]
  nofun

/-- How `child_fn` goes on, what it prints, and whether it tells the parent. -/
inductive ChildMove (times : ℕ) (i : Fin 2) : ChildPc → ChildPc → List Line → Bool → Prop
  | test {m : ℕ} : m < times → ChildMove times i (.test m) (.readwLock m) [] false
  | exit {m : ℕ} : ¬m < times → ChildMove times i (.test m) (.exited 0) [] false
  | readwLock {m : ℕ} : ChildMove times i (.readwLock m) (.tell m) [] false
  | tell {m : ℕ} : ChildMove times i (.tell m) (.printSet m) [] true
  | printSet {m : ℕ} : ChildMove times i (.printSet m) (.nanosleep m) [.readSet i m] false
  | nanosleep {m : ℕ} : ChildMove times i (.nanosleep m) (.unLock m) [] false
  | unLock {m : ℕ} : ChildMove times i (.unLock m) (.printUnset m) [] false
  | printUnset {m : ℕ} : ChildMove times i (.printUnset m) (.test (m + 1)) [.readUnset i m] false

/-- A child moves. -/
def ChildMoves (times : Fin 2 → ℕ) (s : State) (i : Fin 2) (s' : State) : Prop :=
  ∃ pc lines tells locks, ChildMove (times i) i (s.child i) pc lines tells ∧
    s' = { s.setChild i pc with
      out := s.out ++ lines, pending := s.pending || tells, locks := locks }

/-- How `main` goes on with its flags, and what it prints. -/
inductive MainMove : MainPc → Bool → Bool → MainPc → Bool → Bool → List Line → Prop
  | testSet {p : Bool} : MainMove .test true p .clear true p []
  | testUnset {p : Bool} : MainMove .test false p .suspend false p []
  | suspend {f : Bool} : MainMove .suspend f true .test true false []
  | clear {f p : Bool} : MainMove .clear f p .writewLock false p []
  | writewLock {f p : Bool} : MainMove .writewLock f p .printSet f p []
  | printSet {f p : Bool} : MainMove .printSet f p .unLock f p [.writeSet]
  | unLock {f p : Bool} : MainMove .unLock f p .printUnset f p []
  | printUnset {f p : Bool} : MainMove .printUnset f p .wait f p [.writeUnset]
  | wait {f p : Bool} : MainMove .wait f p .done f p []
  | done {f p : Bool} : MainMove .done f p (.exited 0) f p []

/-- The parent moves. -/
def MainMoves (s s' : State) : Prop :=
  (s.main = .wait → ∀ i, (s.child i).isReaped = true) ∧
    ∃ pc f p lines locks, MainMove s.main s.sigflag s.pending pc f p lines ∧
      s' = { s with main := pc, sigflag := f, pending := p, out := s.out ++ lines, locks := locks }

/-- The parent makes child `i`. -/
def Forks (s : State) (i : Fin 2) (s' : State) : Prop :=
  s.main = .fork i ∧ s' = { s.setChild i (.test 0) with main := afterFork i }

/-- `wait` returns child `i`. -/
def Reaps (s : State) (i : Fin 2) (s' : State) : Prop :=
  s.main = .wait ∧ ∃ status, s.child i = .exited status ∧
    s' = { s.setChild i (.reaped status) with out := s.out ++ [.finished i] }

theorem childStep_cases (h : Locked s) (hs : childStep times s i = some s') :
    Locked s' ∧ (Sleeps s (.child i) s' ∨ ChildMoves times s i s') := by
  have hawake : (s.child i).asking = false → s.locks.sleeping (.child i) = none :=
    fun hasking => h.awake hasking
  unfold childStep at hs
  split at hs
  case h_1 => exact nomatch hs
  case h_2 n hpc =>
      obtain rfl := Option.some.inj hs
      split
      case isTrue hlt =>
          refine ⟨h.setChild hpc rfl rfl, .inr ⟨.readwLock n, [], false, s.locks, ?_, ?_⟩⟩
          · rw [hpc]
            exact .test hlt
          · simp [State.setChild]
      case isFalse hge =>
          refine ⟨h.exitChild (hawake (by rw [hpc]; rfl)), .inr
            ⟨.exited 0, [], false, s.locks.release (.child i), ?_, ?_⟩⟩
          · rw [hpc]
            exact .exit hge
          · simp [State.setChild, State.exitChild]
  case h_3 n hpc =>
      obtain ⟨hsleeping, hs⟩ := Option.ite_none_right_eq_some.mp hs
      obtain rfl := Option.some.inj hs
      unfold readwLock
      split
      case h_1 locks hgranted =>
          have hlocked := OneLock.granted h hsleeping hgranted
          rw [show some Kind.read = (ChildPc.tell n).held from rfl, ← held_setChild,
            show false = (ChildPc.tell n).asking from rfl, ← asking_setChild] at hlocked
          refine ⟨hlocked, .inr ⟨.tell n, [], false, locks, ?_, ?_⟩⟩
          · rw [hpc]
            exact .readwLock
          · simp [State.setChild]
      case h_2 locks hsleeps =>
          have hasking : s.asking (.child i) = true := by
            rw [show s.asking (.child i) = (s.child i).asking from rfl, hpc]
            rfl
          have hlocked : OneLock locks s.held s.asking :=
            OneLock.sleeps h (by decide) (l := ⟨.child i, .read, whole⟩) hasking hsleeps
          exact ⟨hlocked, .inl (sleeps_of_setLkW hsleeping hsleeps)⟩
      case h_3 hfails => exact absurd hfails (OneLock.not_edeadlk h)
  case h_4 n hpc =>
      obtain rfl := Option.some.inj hs
      refine ⟨(h.setChild (p := .printSet n) hpc rfl rfl).congr rfl rfl rfl, .inr
        ⟨.printSet n, [], true, s.locks, ?_, ?_⟩⟩
      · rw [hpc]
        exact .tell
      · simp [State.setChild]
  case h_5 n hpc =>
      obtain rfl := Option.some.inj hs
      refine ⟨(h.setChild (p := .nanosleep n) hpc rfl rfl).congr rfl rfl rfl, .inr
        ⟨.nanosleep n, [.readSet i n], false, s.locks, ?_, ?_⟩⟩
      · rw [hpc]
        exact .printSet
      · simp [State.setChild]
  case h_6 n hpc =>
      obtain rfl := Option.some.inj hs
      refine ⟨h.setChild hpc rfl rfl, .inr ⟨.unLock n, [], false, s.locks, ?_, ?_⟩⟩
      · rw [hpc]
        exact .nanosleep
      · simp [State.setChild]
  case h_7 n hpc =>
      obtain rfl := Option.some.inj hs
      have hlocked := OneLock.unlock h (hawake (by rw [hpc]; rfl)) false
      rw [show none = (ChildPc.printUnset n).held from rfl, ← held_setChild,
        show false = (ChildPc.printUnset n).asking from rfl, ← asking_setChild] at hlocked
      refine ⟨hlocked, .inr
        ⟨.printUnset n, [], false, s.locks.unlock (.child i) whole, ?_, ?_⟩⟩
      · rw [hpc]
        exact .unLock
      · simp [State.setChild]
  case h_8 n hpc =>
      obtain rfl := Option.some.inj hs
      refine ⟨(h.setChild (p := .test (n + 1)) hpc rfl rfl).congr rfl rfl rfl, .inr
        ⟨.test (n + 1), [.readUnset i n], false, s.locks, ?_, ?_⟩⟩
      · rw [hpc]
        exact .printUnset
      · simp [State.setChild]
  case h_9 => exact nomatch hs
  case h_10 => exact nomatch hs

theorem held_afterFork (i : Fin 2) : (afterFork i).held = none := by
  revert i
  decide

theorem mainStep_cases (h : Locked s) (hunborn : ∀ i, s.main = .fork i → s.child i = .unborn)
    (hs : mainStep s = some s') :
    Locked s' ∧ (Sleeps s .parent s' ∨ MainMoves s s' ∨ ∃ i, Forks s i s') := by
  have hawake : s.main.asking = false → s.locks.sleeping .parent = none :=
    fun hasking => h.awake hasking
  unfold mainStep at hs
  split at hs
  case h_1 i hpc =>
      obtain rfl := Option.some.inj hs
      have hchild : Locked (s.setChild i (.test 0)) := h.setChild (hunborn i hpc) rfl rfl
      exact ⟨hchild.setMain hpc (held_afterFork i) rfl, .inr (.inr ⟨i, hpc, rfl⟩)⟩
  case h_2 hpc =>
      obtain rfl := Option.some.inj hs
      refine ⟨h.setMain hpc (by split <;> rfl) rfl, .inr (.inl ⟨by rw [hpc]; nofun,
        if s.sigflag then .clear else .suspend, s.sigflag, s.pending, [], s.locks, ?_, ?_⟩)⟩
      · rw [hpc]
        cases s.sigflag
        · exact .testUnset
        · exact .testSet
      · rw [List.append_nil]
  case h_3 hpc =>
      obtain ⟨hpending, hs⟩ := Option.ite_none_right_eq_some.mp hs
      obtain rfl := Option.some.inj hs
      refine ⟨(h.setMain (p := .test) hpc rfl rfl).congr rfl rfl rfl, .inr (.inl
        ⟨by rw [hpc]; nofun, .test, true, false, [], s.locks, ?_, ?_⟩)⟩
      · rw [hpc, hpending]
        exact .suspend
      · rw [List.append_nil]
  case h_4 hpc =>
      obtain rfl := Option.some.inj hs
      refine ⟨(h.setMain (p := .writewLock) hpc rfl rfl).congr rfl rfl rfl, .inr (.inl
        ⟨by rw [hpc]; nofun, .writewLock, false, s.pending, [], s.locks, ?_, ?_⟩)⟩
      · rw [hpc]
        exact .clear
      · rw [List.append_nil]
  case h_5 hpc =>
      obtain ⟨hsleeping, hs⟩ := Option.ite_none_right_eq_some.mp hs
      obtain rfl := Option.some.inj hs
      unfold writewLock
      split
      case h_1 locks hgranted =>
          have hlocked := OneLock.granted h hsleeping hgranted
          rw [show some Kind.write = MainPc.printSet.held from rfl, ← held_main,
            show false = MainPc.printSet.asking from rfl, ← asking_main] at hlocked
          refine ⟨hlocked, .inr (.inl
            ⟨by rw [hpc]; nofun, .printSet, s.sigflag, s.pending, [], locks, ?_, ?_⟩)⟩
          · rw [hpc]
            exact .writewLock
          · rw [List.append_nil]
      case h_2 locks hsleeps =>
          have hasking : s.asking .parent = true := by
            rw [show s.asking .parent = s.main.asking from rfl, hpc]
            rfl
          have hlocked : OneLock locks s.held s.asking :=
            OneLock.sleeps h (by decide) (l := ⟨.parent, .write, whole⟩) hasking hsleeps
          exact ⟨hlocked, .inl (sleeps_of_setLkW hsleeping hsleeps)⟩
      case h_3 hfails => exact absurd hfails (OneLock.not_edeadlk h)
  case h_6 hpc =>
      obtain rfl := Option.some.inj hs
      refine ⟨(h.setMain (p := .unLock) hpc rfl rfl).congr rfl rfl rfl, .inr (.inl
        ⟨by rw [hpc]; nofun, .unLock, s.sigflag, s.pending, [.writeSet], s.locks, ?_, rfl⟩)⟩
      rw [hpc]
      exact .printSet
  case h_7 hpc =>
      obtain rfl := Option.some.inj hs
      have hlocked := OneLock.unlock h (hawake (by rw [hpc]; rfl)) false
      rw [show none = MainPc.printUnset.held from rfl, ← held_main,
        show false = MainPc.printUnset.asking from rfl, ← asking_main] at hlocked
      refine ⟨hlocked, .inr (.inl ⟨by rw [hpc]; nofun, .printUnset, s.sigflag, s.pending, [],
        s.locks.unlock .parent whole, ?_, ?_⟩)⟩
      · rw [hpc]
        exact .unLock
      · rw [List.append_nil]
  case h_8 hpc =>
      obtain rfl := Option.some.inj hs
      refine ⟨(h.setMain (p := .wait) hpc rfl rfl).congr rfl rfl rfl, .inr (.inl
        ⟨by rw [hpc]; nofun, .wait, s.sigflag, s.pending, [.writeUnset], s.locks, ?_, rfl⟩)⟩
      rw [hpc]
      exact .printUnset
  case h_9 hpc =>
      obtain ⟨hreaped, hs⟩ := Option.ite_none_right_eq_some.mp hs
      obtain rfl := Option.some.inj hs
      refine ⟨h.setMain hpc rfl rfl, .inr (.inl
        ⟨fun _ => hreaped, .done, s.sigflag, s.pending, [], s.locks, ?_, ?_⟩)⟩
      · rw [hpc]
        exact .wait
      · rw [List.append_nil]
  case h_10 hpc =>
      obtain rfl := Option.some.inj hs
      refine ⟨h.exitMain (hawake (by rw [hpc]; rfl)), .inr (.inl ⟨by rw [hpc]; nofun,
        .exited 0, s.sigflag, s.pending, [], s.locks.release .parent, ?_, ?_⟩)⟩
      · rw [hpc]
        exact .done
      · rw [List.append_nil]
        rfl
  case h_11 => exact nomatch hs

theorem reap_cases (h : Locked s) (hs : reap s i = some s') : Locked s' ∧ Reaps s i s' := by
  unfold reap at hs
  split at hs
  case h_1 status hmain hchild =>
      obtain rfl := Option.some.inj hs
      exact ⟨(h.setChild (p := .reaped status) hchild rfl rfl).congr rfl rfl rfl,
        hmain, status, hchild, rfl⟩
  case h_2 => exact nomatch hs

/-- **What a step can do.** -/
theorem step_cases {a : Act} (h : Locked s)
    (hunborn : ∀ i, s.main = .fork i → s.child i = .unborn) (hs : step times s a = some s') :
    Locked s' ∧ ((∃ x, Sleeps s x s') ∨ (∃ i, ChildMoves times s i s') ∨ MainMoves s s' ∨
      (∃ i, Forks s i s') ∨ ∃ i, Reaps s i s') := by
  cases a with
  | main =>
      obtain ⟨hlocked, hsleeps | hmoves | hforks⟩ := mainStep_cases h hunborn hs
      · exact ⟨hlocked, .inl ⟨_, hsleeps⟩⟩
      · exact ⟨hlocked, .inr (.inr (.inl hmoves))⟩
      · exact ⟨hlocked, .inr (.inr (.inr (.inl hforks)))⟩
  | child i =>
      obtain ⟨hlocked, hsleeps | hmoves⟩ := childStep_cases h hs
      · exact ⟨hlocked, .inl ⟨_, hsleeps⟩⟩
      · exact ⟨hlocked, .inr (.inl ⟨i, hmoves⟩)⟩
  | reap i =>
      obtain ⟨hlocked, hreaps⟩ := reap_cases h hs
      exact ⟨hlocked, .inr (.inr (.inr (.inr ⟨i, hreaps⟩)))⟩

/-! ### The rounds and the signal -/

/-- The child has told the parent at least once. -/
def ChildPc.told (times : ℕ) : ChildPc → Bool
  | .unborn => false
  | .test n | .readwLock n | .tell n => 0 < n
  | .printSet _ | .nanosleep _ | .unLock _ | .printUnset _ => true
  | .exited _ | .reaped _ => 0 < times

/-- The round is one of the loop, and the child has not failed. -/
def ChildPc.Fine (times : ℕ) : ChildPc → Prop
  | .unborn => True
  | .test n => n ≤ times
  | .readwLock n | .tell n | .printSet n | .nanosleep n | .unLock n | .printUnset n => n < times
  | .exited status | .reaped status => status = 0

/-- The parent has been told. -/
def MainPc.passed : MainPc → Bool
  | .fork _ | .test | .suspend | .clear => false
  | _ => true

structure Control (times : Fin 2 → ℕ) (s : State) : Prop where
  unborn : ∀ i, s.child i = .unborn ↔ ∃ j, s.main = .fork j ∧ j ≤ i
  fine : ∀ i, (s.child i).Fine (times i)
  heard : s.sigflag = false → s.pending = false → s.main.passed = false →
    ∀ i, (s.child i).told (times i) = false
  cleared : s.main = .clear → s.sigflag = true
  suspended : s.main = .suspend → s.sigflag = false
  reaped : s.main = .done ∨ (∃ status, s.main = .exited status) → ∀ i, (s.child i).isReaped = true
  status : ∀ status, s.main = .exited status → status = 0

theorem control_init : Control times initState where
  unborn := fun i => ⟨fun _ => ⟨0, rfl, Fin.zero_le i⟩, fun _ => rfl⟩
  fine := fun _ => trivial
  heard := fun _ _ _ _ => rfl
  cleared := nofun
  suspended := nofun
  reaped := by
    rintro (hdone | ⟨status, hexited⟩)
    · exact nomatch hdone
    · exact nomatch hexited
  status := nofun

theorem forall_update {Q : Fin 2 → ChildPc → Prop} {f : Fin 2 → ChildPc} {pc : ChildPc}
    (h : ∀ j, Q j (f j)) (hpc : Q i pc) (j : Fin 2) : Q j (Function.update f i pc j) := by
  rcases eq_or_ne j i with rfl | hne
  · rwa [Function.update_self]
  · rw [Function.update_of_ne hne]
    exact h j

theorem control_child (h : Control times s) (hs : ChildMoves times s i s') : Control times s' := by
  obtain ⟨pc, lines, tells, locks, hmove, rfl⟩ := hs
  have hfine := h.fine i
  have hborn : s.child i ≠ .unborn ∧ pc ≠ .unborn := by
    generalize s.child i = pc₀ at hmove
    cases hmove <;> exact ⟨nofun, nofun⟩
  have hrunning : (s.child i).isReaped = false := by
    generalize s.child i = pc₀ at hmove
    cases hmove <;> rfl
  refine ⟨fun j => ?_, forall_update h.fine ?_, ?_, h.cleared, h.suspended, fun hdone => ?_, h.status⟩
  · refine Iff.trans ?_ (h.unborn j)
    show Function.update s.child i pc j = .unborn ↔ _
    rcases eq_or_ne j i with rfl | hne
    · rw [Function.update_self]
      exact ⟨fun hpc => absurd hpc hborn.2, fun hpc => absurd hpc hborn.1⟩
    · rw [Function.update_of_ne hne]
  · generalize s.child i = pc₀ at hmove hfine
    cases hmove with
    | test hlt => exact hlt
    | exit => rfl
    | printUnset => exact hfine
    | _ => exact hfine
  · intro hflag hpending hpassed
    obtain ⟨hpending, htells⟩ := Bool.or_eq_false_iff.mp hpending
    have hold := h.heard hflag hpending hpassed
    refine forall_update (Q := fun j pc => pc.told (times j) = false) hold ?_
    have htold := hold i
    generalize s.child i = pc₀ at hmove htold
    cases hmove with
    | exit hge =>
        simp only [ChildPc.told, decide_eq_false_iff_not] at htold ⊢
        omega
    | tell => exact nomatch htells
    | printUnset => exact nomatch htold
    | _ => exact htold
  · have hreaped := h.reaped hdone i
    rw [hrunning] at hreaped
    exact nomatch hreaped

theorem control_main (h : Control times s) (hs : MainMoves s s') : Control times s' := by
  obtain ⟨hwait, pc, f, p, lines, locks, hmove, rfl⟩ := hs
  have hfork : ∀ j, s.main ≠ .fork j ∧ pc ≠ .fork j := by
    intro j
    generalize s.main = pc₀, s.sigflag = f₀, s.pending = p₀ at hmove
    cases hmove <;> exact ⟨nofun, nofun⟩
  have hunborn : ∀ j, s.child j = .unborn ↔ ∃ k, pc = .fork k ∧ k ≤ j := by
    intro j
    rw [h.unborn j]
    exact ⟨fun ⟨k, hk, _⟩ => absurd hk (hfork k).1, fun ⟨k, hk, _⟩ => absurd hk (hfork k).2⟩
  have hreaped : pc = .done ∨ (∃ status, pc = .exited status) → ∀ i, (s.child i).isReaped = true := by
    intro hpc
    generalize hmain : s.main = pc₀, s.sigflag = f₀, s.pending = p₀ at hmove
    cases hmove with
    | wait => exact hwait hmain
    | done => exact h.reaped (.inl hmain)
    | _ =>
        rcases hpc with hdone | ⟨status, hexited⟩
        · exact nomatch hdone
        · exact nomatch hexited
  generalize hmain : s.main = pc₀, hflag : s.sigflag = f₀, hpending : s.pending = p₀ at hmove
  cases hmove with
  | testSet => exact ⟨hunborn, h.fine, nofun, fun _ => rfl, nofun, hreaped, nofun⟩
  | testUnset =>
      refine ⟨hunborn, h.fine, fun _ hp _ => ?_, nofun, fun _ => rfl, hreaped, nofun⟩
      exact h.heard hflag (hpending.trans hp) (by rw [hmain]; rfl)
  | suspend => exact ⟨hunborn, h.fine, nofun, nofun, nofun, hreaped, nofun⟩
  | clear => exact ⟨hunborn, h.fine, fun _ _ => nofun, nofun, nofun, hreaped, nofun⟩
  | done =>
      refine ⟨hunborn, h.fine, fun _ _ => nofun, nofun, nofun, hreaped, fun status hstatus => ?_⟩
      exact (MainPc.exited.inj hstatus).symm
  | _ => exact ⟨hunborn, h.fine, fun _ _ => nofun, nofun, nofun, hreaped, nofun⟩

/-- Which children are still to come after the `fork` of child `i`. -/
theorem afterFork_eq_fork_iff (i j : Fin 2) :
    (∃ k, afterFork i = .fork k ∧ k ≤ j) ↔ j ≠ i ∧ i ≤ j := by
  revert i j
  decide

theorem control_forks (h : Control times s) (hs : Forks s i s') : Control times s' := by
  obtain ⟨hmain, rfl⟩ := hs
  have hafter : ∀ i, afterFork i = .fork 1 ∨ afterFork i = .test := by decide
  refine ⟨fun j => ?_, forall_update h.fine (Nat.zero_le _), fun hflag hpending _ => ?_,
    fun hclear => ?_, fun hsuspend => ?_, ?_, fun status hstatus => ?_⟩
  · refine Iff.trans ?_ (afterFork_eq_fork_iff i j).symm
    show Function.update s.child i (.test 0) j = .unborn ↔ _
    rcases eq_or_ne j i with rfl | hne
    · rw [Function.update_self]
      exact ⟨nofun, fun hj => absurd rfl hj.1⟩
    · rw [Function.update_of_ne hne, h.unborn j, hmain]
      constructor
      · rintro ⟨k, hk, hle⟩
        obtain rfl := MainPc.fork.inj hk
        exact ⟨hne, hle⟩
      · exact fun hj => ⟨i, rfl, hj.2⟩
  · exact forall_update (Q := fun j pc => pc.told (times j) = false)
      (h.heard hflag hpending (by rw [hmain]; rfl)) rfl
  · rcases hafter i with hpc | hpc <;> exact nomatch hpc.symm.trans hclear
  · rcases hafter i with hpc | hpc <;> exact nomatch hpc.symm.trans hsuspend
  · rintro (hdone | ⟨status, hexited⟩)
    · rcases hafter i with hpc | hpc <;> exact nomatch hpc.symm.trans hdone
    · rcases hafter i with hpc | hpc <;> exact nomatch hpc.symm.trans hexited
  · rcases hafter i with hpc | hpc <;> exact nomatch hpc.symm.trans hstatus

theorem control_reaps (h : Control times s) (hs : Reaps s i s') : Control times s' := by
  obtain ⟨hmain, status, hchild, rfl⟩ := hs
  have hfine : status = 0 := by
    have hfine := h.fine i
    rwa [hchild] at hfine
  refine ⟨fun j => ?_, forall_update h.fine hfine, ?_, h.cleared, h.suspended, ?_, h.status⟩
  · refine Iff.trans ?_ (h.unborn j)
    show Function.update s.child i (.reaped status) j = .unborn ↔ _
    rcases eq_or_ne j i with rfl | hne
    · rw [Function.update_self, hchild]
      exact ⟨nofun, nofun⟩
    · rw [Function.update_of_ne hne]
  · intro _ _ hpassed
    rw [show (s.setChild i (.reaped status)).main = s.main from rfl, hmain] at hpassed
    exact nomatch hpassed
  · intro hdone
    rw [show (s.setChild i (.reaped status)).main = s.main from rfl, hmain] at hdone
    rcases hdone with hdone | ⟨_, hexited⟩
    · exact nomatch hdone
    · exact nomatch hexited

theorem control_sleeps {x : Who} (h : Control times s) (hs : Sleeps s x s') : Control times s' := by
  rw [hs.eq]
  exact ⟨h.unborn, h.fine, h.heard, h.cleared, h.suspended, h.reaped, h.status⟩

/-- What holds in every state. -/
structure Inv (times : Fin 2 → ℕ) (s : State) : Prop where
  locked : Locked s
  control : Control times s

theorem Control.unborn_of_fork (h : Control times s) (hmain : s.main = .fork i) :
    s.child i = .unborn :=
  (h.unborn i).mpr ⟨i, hmain, Nat.le_refl _⟩

theorem inv_step {a : Act} (h : Inv times s) (hs : step times s a = some s') : Inv times s' := by
  obtain ⟨hlocked, hcases⟩ := step_cases h.locked (fun _ => h.control.unborn_of_fork) hs
  refine ⟨hlocked, ?_⟩
  obtain ⟨x, hsleeps⟩ | ⟨i, hmoves⟩ | hmoves | ⟨i, hforks⟩ | ⟨i, hreaps⟩ := hcases
  · exact control_sleeps h.control hsleeps
  · exact control_child h.control hmoves
  · exact control_main h.control hmoves
  · exact control_forks h.control hforks
  · exact control_reaps h.control hreaps

theorem locked_init : Locked initState := by
  have hheld : initState.held = fun _ => none := by
    funext x
    cases x <;> rfl
  have hasking : initState.asking = fun _ => false := by
    funext x
    cases x <;> rfl
  unfold Locked
  rw [hheld, hasking]
  exact oneLock_none

theorem inv_reach (h : (program times).Reach s) : Inv times s := by
  refine h.invariant (I := Inv times) ?_ fun s a s' => inv_step
  rintro s rfl
  exact ⟨locked_init, control_init⟩

/-! ### What is printed -/

/-- The lines of process `x`, without those for the children that have finished. -/
def Line.isOf : Line → Who → Bool
  | .readSet j _, .child i | .readUnset j _, .child i => j = i
  | .writeSet, .parent | .writeUnset, .parent => true
  | _, _ => false

/-- The lines of child `i` in its first `n` rounds. -/
def rounds (i : Fin 2) (n : ℕ) : List Line :=
  (List.range n).flatMap fun m => [.readSet i m, .readUnset i m]

def ChildPc.lines (times : ℕ) (i : Fin 2) : ChildPc → List Line
  | .unborn => []
  | .test n | .readwLock n | .tell n | .printSet n => rounds i n
  | .nanosleep n | .unLock n | .printUnset n => rounds i n ++ [.readSet i n]
  | .exited _ | .reaped _ => rounds i times

def MainPc.lines : MainPc → List Line
  | .unLock | .printUnset => [.writeSet]
  | .wait | .done | .exited _ => [.writeSet, .writeUnset]
  | _ => []

/-- Each process has printed the lines of the operations that it has made. -/
structure Printed (times : Fin 2 → ℕ) (s : State) : Prop where
  child : ∀ i, s.out.filter (·.isOf (.child i)) = (s.child i).lines (times i) i
  main : s.out.filter (·.isOf .parent) = s.main.lines

theorem rounds_succ (i : Fin 2) (n : ℕ) :
    rounds i (n + 1) = rounds i n ++ [.readSet i n] ++ [.readUnset i n] := by
  simp [rounds, List.range_succ]

/-- What a child prints. -/
theorem lines_of_childMove {pc pc' : ChildPc} {t : ℕ} {lines : List Line} {tells : Bool}
    (hfine : pc.Fine t) (h : ChildMove t i pc pc' lines tells) :
    pc'.lines t i = pc.lines t i ++ lines ∧ (∀ l ∈ lines, l.isOf (.child i) = true) := by
  cases h with
  | exit hge =>
      obtain rfl : t = _ := Nat.le_antisymm (Nat.le_of_not_lt hge) hfine
      exact ⟨(List.append_nil _).symm, nofun⟩
  | printSet => exact ⟨rfl, by simp [Line.isOf]⟩
  | printUnset => exact ⟨rounds_succ i _, by simp [Line.isOf]⟩
  | _ => exact ⟨(List.append_nil _).symm, nofun⟩

/-- What the parent prints. -/
theorem lines_of_mainMove {pc pc' : MainPc} {f p f' p' : Bool} {lines : List Line}
    (h : MainMove pc f p pc' f' p' lines) :
    pc'.lines = pc.lines ++ lines ∧ ∀ l ∈ lines, l.isOf .parent = true := by
  cases h with
  | printSet => exact ⟨rfl, by simp [Line.isOf]⟩
  | printUnset => exact ⟨rfl, by simp [Line.isOf]⟩
  | _ => exact ⟨(List.append_nil _).symm, nofun⟩

theorem isOf_unique {l : Line} {x y : Who} (hx : l.isOf x = true) (hy : l.isOf y = true) :
    x = y := by
  cases l <;> cases x <;> cases y <;> simp_all [Line.isOf]

theorem filter_append {out lines : List Line} {x : Who} (h : ∀ l ∈ lines, l.isOf x = true)
    (y : Who) :
    (out ++ lines).filter (·.isOf y) =
      if y = x then out.filter (·.isOf y) ++ lines else out.filter (·.isOf y) := by
  rw [List.filter_append]
  split
  case isTrue heq =>
      rw [heq, List.filter_eq_self.mpr h]
  case isFalse hne =>
      have hnil : lines.filter (·.isOf y) = [] :=
        List.filter_eq_nil_iff.mpr fun l hl hy => hne (isOf_unique hy (h l hl))
      rw [hnil, List.append_nil]

theorem printed_init : Printed times initState := ⟨fun _ => rfl, rfl⟩

theorem printed_child (hprinted : Printed times s) (hfine : (s.child i).Fine (times i))
    (hs : ChildMoves times s i s') : Printed times s' := by
  obtain ⟨pc, lines, tells, locks, hmove, rfl⟩ := hs
  obtain ⟨hlines, hof⟩ := lines_of_childMove hfine hmove
  refine ⟨fun j => ?_, ?_⟩
  · refine (filter_append hof (.child j)).trans ?_
    show _ = (Function.update s.child i pc j).lines (times j) j
    rcases eq_or_ne j i with rfl | hne
    · rw [if_pos rfl, Function.update_self, hprinted.child j, hlines]
    · rw [if_neg fun h => hne (Who.child.inj h), Function.update_of_ne hne, hprinted.child j]
  · refine (filter_append hof .parent).trans ?_
    rw [if_neg nofun]
    exact hprinted.main

theorem printed_main (hprinted : Printed times s) (hs : MainMoves s s') : Printed times s' := by
  obtain ⟨-, pc, f, p, lines, locks, hmove, rfl⟩ := hs
  obtain ⟨hlines, hof⟩ := lines_of_mainMove hmove
  refine ⟨fun j => ?_, ?_⟩
  · refine (filter_append hof (.child j)).trans ?_
    rw [if_neg nofun]
    exact hprinted.child j
  · refine (filter_append hof .parent).trans ?_
    rw [if_pos rfl, hprinted.main]
    exact hlines.symm

theorem printed_forks (hprinted : Printed times s) (hunborn : s.child i = .unborn)
    (hs : Forks s i s') : Printed times s' := by
  obtain ⟨hmain, rfl⟩ := hs
  have hlines : ∀ i, (afterFork i).lines = [] := by decide
  refine ⟨forall_update (Q := fun j pc => s.out.filter (·.isOf (.child j)) = pc.lines (times j) j)
    hprinted.child ?_, ?_⟩
  · rw [hprinted.child i, hunborn]
    rfl
  · refine hprinted.main.trans ?_
    rw [hmain]
    exact (hlines i).symm

theorem printed_reaps (hprinted : Printed times s) (hs : Reaps s i s') : Printed times s' := by
  obtain ⟨hmain, status, hchild, rfl⟩ := hs
  have hfilter : ∀ x, (s.out ++ [Line.finished i]).filter (·.isOf x) = s.out.filter (·.isOf x) := by
    intro x
    rw [List.filter_append, show [Line.finished i].filter (·.isOf x) = [] from rfl, List.append_nil]
  refine ⟨fun j => (hfilter _).trans ?_, (hfilter _).trans hprinted.main⟩
  refine forall_update (Q := fun j pc => s.out.filter (·.isOf (.child j)) = pc.lines (times j) j)
    hprinted.child ?_ j
  rw [hprinted.child i, hchild]
  rfl

theorem printed_sleeps {x : Who} (hprinted : Printed times s) (hs : Sleeps s x s') :
    Printed times s' := by
  rw [hs.eq]
  exact ⟨hprinted.child, hprinted.main⟩

theorem printed_step {a : Act} (h : Inv times s) (hprinted : Printed times s)
    (hs : step times s a = some s') : Printed times s' := by
  obtain ⟨-, hcases⟩ := step_cases h.locked (fun _ => h.control.unborn_of_fork) hs
  obtain ⟨x, hsleeps⟩ | ⟨i, hmoves⟩ | hmoves | ⟨i, hforks⟩ | ⟨i, hreaps⟩ := hcases
  · exact printed_sleeps hprinted hsleeps
  · exact printed_child hprinted (h.control.fine i) hmoves
  · exact printed_main hprinted hmoves
  · exact printed_forks hprinted (h.control.unborn_of_fork hforks.1) hforks
  · exact printed_reaps hprinted hreaps

theorem printed_reach (h : (program times).Reach s) : Printed times s := by
  have hboth : Inv times s ∧ Printed times s := by
    refine h.invariant (I := fun s => Inv times s ∧ Printed times s) ?_ ?_
    · rintro s rfl
      exact ⟨⟨locked_init, control_init⟩, printed_init⟩
    · rintro s a s' ⟨hinv, hprinted⟩ hs
      exact ⟨inv_step hinv hs, printed_step hinv hprinted hs⟩
  exact hboth.2

/-! ### Every run ends -/

/-- How many operations a child has left. -/
def ChildPc.left (times : ℕ) : ChildPc → ℕ
  | .unborn => 7 * times + 3
  | .test n => 7 * (times - n) + 2
  | .readwLock n => 7 * (times - n - 1) + 8
  | .tell n => 7 * (times - n - 1) + 7
  | .printSet n => 7 * (times - n - 1) + 6
  | .nanosleep n => 7 * (times - n - 1) + 5
  | .unLock n => 7 * (times - n - 1) + 4
  | .printUnset n => 7 * (times - n - 1) + 3
  | .exited _ => 1
  | .reaped _ => 0

/-- How many operations the parent has left. -/
def MainPc.left (sigflag : Bool) : MainPc → ℕ
  | .fork i => if i = 0 then 12 else 11
  | .test => if sigflag then 8 else 10
  | .suspend => 9
  | .clear => 7
  | .writewLock => 6
  | .printSet => 5
  | .unLock => 4
  | .printUnset => 3
  | .wait => 2
  | .done => 1
  | .exited _ => 0

/-- One for a process that is awake. -/
def State.awake (s : State) (x : Who) : ℕ := if s.locks.sleeping x = none then 1 else 0

/-- Who is woken may go to sleep again.  So an operation is worth four: there are three
processes that it can wake. -/
def State.left (times : Fin 2 → ℕ) (s : State) : ℕ :=
  4 * (s.main.left s.sigflag + (s.child 0).left (times 0) + (s.child 1).left (times 1)) +
    (s.awake .parent + s.awake (.child 0) + s.awake (.child 1))

theorem awake_le (s : State) (x : Who) : s.awake x ≤ 1 := by
  unfold State.awake
  split <;> decide

/-- An operation, whatever it does to the locks. -/
theorem left_lt (hlt : s'.main.left s'.sigflag + (s'.child 0).left (times 0) +
      (s'.child 1).left (times 1) < s.main.left s.sigflag + (s.child 0).left (times 0) +
      (s.child 1).left (times 1)) : s'.left times < s.left times := by
  have hparent := awake_le s' .parent
  have hzero := awake_le s' (.child 0)
  have hone := awake_le s' (.child 1)
  unfold State.left
  omega

theorem left_childMove {pc pc' : ChildPc} {t : ℕ} {lines : List Line} {tells : Bool}
    (h : ChildMove t i pc pc' lines tells) : pc'.left t < pc.left t := by
  cases h <;> simp only [ChildPc.left] <;> omega

theorem left_mainMove {pc pc' : MainPc} {f p f' p' : Bool} {lines : List Line}
    (h : MainMove pc f p pc' f' p' lines) : pc'.left f' < pc.left f := by
  cases h <;> simp [MainPc.left]

theorem eq_zero_or_one (i : Fin 2) : i = 0 ∨ i = 1 := by
  revert i
  decide

/-- The work of the children when child `i` goes on. -/
theorem left_setChild {pc : ChildPc} (hlt : pc.left (times i) < (s.child i).left (times i)) :
    (Function.update s.child i pc 0).left (times 0) + (Function.update s.child i pc 1).left (times 1) <
      (s.child 0).left (times 0) + (s.child 1).left (times 1) := by
  obtain rfl | rfl := eq_zero_or_one i
  · rw [Function.update_self, Function.update_of_ne (by decide)]
    omega
  · rw [Function.update_self, Function.update_of_ne (by decide)]
    omega

theorem left_sleeps {x : Who} (hs : Sleeps s x s') : s'.left times < s.left times := by
  have hx : s.awake x = 1 ∧ s'.awake x = 0 := ⟨if_pos hs.awake, if_neg hs.asleep⟩
  have hothers : ∀ y, y ≠ x → s'.awake y = s.awake y := by
    intro y hne
    unfold State.awake
    rw [hs.others y hne]
  have heq : s'.main.left s'.sigflag + (s'.child 0).left (times 0) + (s'.child 1).left (times 1) =
      s.main.left s.sigflag + (s.child 0).left (times 0) + (s.child 1).left (times 1) := by
    rw [hs.eq]
  have hlt : s'.awake .parent + s'.awake (.child 0) + s'.awake (.child 1) <
      s.awake .parent + s.awake (.child 0) + s.awake (.child 1) := by
    cases x with
    | parent =>
        have hzero := hothers (.child 0) nofun
        have hone := hothers (.child 1) nofun
        omega
    | child i =>
        have hparent := hothers .parent nofun
        obtain rfl | rfl := eq_zero_or_one i
        · have hone := hothers (.child 1) (by decide)
          omega
        · have hzero := hothers (.child 0) (by decide)
          omega
  unfold State.left
  omega

theorem left_step {a : Act} (h : Inv times s) (hs : step times s a = some s') :
    s'.left times < s.left times := by
  obtain ⟨-, hcases⟩ := step_cases h.locked (fun _ => h.control.unborn_of_fork) hs
  obtain ⟨x, hsleeps⟩ | ⟨i, hmoves⟩ | hmoves | ⟨i, hforks⟩ | ⟨i, hreaps⟩ := hcases
  · exact left_sleeps hsleeps
  · obtain ⟨pc, lines, tells, locks, hmove, rfl⟩ := hmoves
    have hlt := left_setChild (s := s) (left_childMove hmove)
    refine left_lt ?_
    rw [Nat.add_assoc, Nat.add_assoc]
    exact Nat.add_lt_add_left hlt _
  · obtain ⟨-, pc, f, p, lines, locks, hmove, rfl⟩ := hmoves
    have hlt := left_mainMove hmove
    refine left_lt ?_
    rw [Nat.add_assoc, Nat.add_assoc]
    exact Nat.add_lt_add_right hlt _
  · obtain ⟨hmain, rfl⟩ := hforks
    have hchild : (ChildPc.test 0).left (times i) < (s.child i).left (times i) := by
      rw [h.control.unborn_of_fork hmain]
      simp [ChildPc.left]
    have hlt := left_setChild (s := s) hchild
    have hle : ∀ i f, (afterFork i).left f ≤ (MainPc.fork i).left f := by decide
    refine left_lt ?_
    rw [Nat.add_assoc, Nat.add_assoc, hmain]
    exact Nat.add_lt_add_of_le_of_lt (hle i _) hlt
  · obtain ⟨hmain, status, hchild, rfl⟩ := hreaps
    have hlt : (ChildPc.reaped status).left (times i) < (s.child i).left (times i) := by
      rw [hchild]
      exact Nat.zero_lt_one
    refine left_lt ?_
    rw [Nat.add_assoc, Nat.add_assoc]
    exact Nat.add_lt_add_left (left_setChild (s := s) hlt) _

/-! ### How a run ends -/

/-- A child that can make no step. -/
theorem childStep_stuck (hs : childStep times s i = none) :
    s.child i = .unborn ∨ s.locks.sleeping (.child i) ≠ none ∨ (∃ n, s.child i = .exited n) ∨
      (s.child i).isReaped = true := by
  unfold childStep at hs
  split at hs
  case h_1 hpc => exact .inl hpc
  case h_3 =>
      refine .inr (.inl fun hawake => ?_)
      rw [if_pos hawake] at hs
      exact nomatch hs
  case h_9 n hpc => exact .inr (.inr (.inl ⟨n, hpc⟩))
  case h_10 n hpc => exact .inr (.inr (.inr (by rw [hpc]; rfl)))
  all_goals exact nomatch hs

/-- A parent that can make no step. -/
theorem mainStep_stuck (hs : mainStep s = none) :
    s.main = .suspend ∧ s.pending = false ∨ s.locks.sleeping .parent ≠ none ∨
      (s.main = .wait ∧ ¬∀ i, (s.child i).isReaped = true) ∨ ∃ n, s.main = .exited n := by
  unfold mainStep at hs
  split at hs
  case h_3 hpc =>
      refine .inl ⟨hpc, Bool.eq_false_of_not_eq_true fun hpending => ?_⟩
      rw [if_pos hpending] at hs
      exact nomatch hs
  case h_5 =>
      refine .inr (.inl fun hawake => ?_)
      rw [if_pos hawake] at hs
      exact nomatch hs
  case h_9 hpc =>
      refine .inr (.inr (.inl ⟨hpc, fun hreaped => ?_⟩))
      rw [if_pos hreaped] at hs
      exact nomatch hs
  case h_11 n hpc => exact .inr (.inr (.inr ⟨n, hpc⟩))
  all_goals exact nomatch hs

/-- Who has a lock can go on. -/
theorem Inv.not_held_of_stuck (h : Inv times s) (hstuck : ∀ a, step times s a = none) (x : Who) :
    s.held x = none := by
  cases x with
  | parent =>
      show s.main.held = none
      rcases mainStep_stuck (hstuck .main) with ⟨hpc, -⟩ | hsleep | ⟨hpc, -⟩ | ⟨n, hpc⟩
      · rw [hpc]
        rfl
      · exact held_of_asking (OneLock.asks h.locked _ hsleep)
      · rw [hpc]
        rfl
      · rw [hpc]
        rfl
  | child i =>
      show (s.child i).held = none
      rcases childStep_stuck (hstuck (.child i)) with hpc | hsleep | ⟨n, hpc⟩ | hpc
      · rw [hpc]
        rfl
      · exact held_of_asking (OneLock.asks h.locked _ hsleep)
      · rw [hpc]
        rfl
      · revert hpc
        cases s.child i <;> simp [ChildPc.isReaped, ChildPc.held]

/-- So nobody sleeps at the end. -/
theorem Inv.awake_of_stuck (h : Inv times s) (hstuck : ∀ a, step times s a = none) (x : Who) :
    s.locks.sleeping x = none := by
  refine not_not.mp fun hsleep => ?_
  obtain ⟨q, hq⟩ := OneLock.exists_held h.locked hsleep
  exact hq (h.not_held_of_stuck hstuck q)

/-- All children that were made are done, unless the parent has yet to ask for them. -/
theorem Inv.exited_of_stuck (h : Inv times s) (hstuck : ∀ a, step times s a = none)
    (hmain : ∀ j, s.main ≠ .fork j) (i : Fin 2) :
    (∃ n, s.child i = .exited n) ∨ (s.child i).isReaped = true := by
  rcases childStep_stuck (hstuck (.child i)) with hpc | hsleep | hexited | hreaped
  · obtain ⟨j, hj, -⟩ := (h.control.unborn i).mp hpc
    exact absurd hj (hmain j)
  · exact absurd (h.awake_of_stuck hstuck _) hsleep
  · exact .inl hexited
  · exact .inr hreaped

/-- The parent does not wait for ever for a signal. -/
theorem Inv.not_suspended_of_stuck (h : Inv times s) (hstuck : ∀ a, step times s a = none)
    (htimes : ∃ i, 0 < times i) : ¬(s.main = .suspend ∧ s.pending = false) := by
  rintro ⟨hmain, hpending⟩
  obtain ⟨i, hi⟩ := htimes
  have htold : (s.child i).told (times i) = false :=
    h.control.heard (h.control.suspended hmain) hpending (by rw [hmain]; rfl) i
  have htrue : (s.child i).told (times i) = true := by
    rcases h.exited_of_stuck hstuck (by rw [hmain]; nofun) i with ⟨n, hpc⟩ | hreaped
    · rw [hpc]
      exact decide_eq_true hi
    · revert hreaped
      cases s.child i <;> simp [ChildPc.isReaped, ChildPc.told, hi]
  rw [htrue] at htold
  exact nomatch htold

theorem Inv.main_exited_of_stuck (h : Inv times s) (hstuck : ∀ a, step times s a = none)
    (htimes : ∃ i, 0 < times i) : s.main = .exited 0 := by
  rcases mainStep_stuck (hstuck .main) with hsuspend | hsleep | ⟨hwait, hnot⟩ | ⟨n, hpc⟩
  · exact absurd hsuspend (h.not_suspended_of_stuck hstuck htimes)
  · exact absurd (h.awake_of_stuck hstuck _) hsleep
  · refine absurd (fun i => ?_) hnot
    rcases h.exited_of_stuck hstuck (by rw [hwait]; nofun) i with ⟨n, hpc⟩ | hreaped
    · -- a child that is not reaped: wait can return it
      have hreap : reap s i = none := hstuck (.reap i)
      unfold reap at hreap
      rw [hwait, hpc] at hreap
      exact nomatch hreap
    · exact hreaped
  · rw [hpc, h.control.status n hpc]

/-- **The readers cannot keep the writer out.**  If at least one of the children makes a
round, then however the processes are scheduled: the run ends; while the parent has its
lock, no child has one; and at the end the file was locked for writing, all children have
made all their rounds, and all three processes have exited with status 0. -/
theorem write_lock_granted (htimes : ∃ i, 0 < times i) {acts : List Act}
    (hrun : (program times).run initState acts = some s) :
    acts.length ≤ 28 * (times 0 + times 1) + 75 ∧
      (s.main.held ≠ none → ∀ i, (s.child i).held = none) ∧
      ((∀ a, (program times).next s a = none) →
        s.main = .exited 0 ∧ (∀ i, s.child i = .reaped 0) ∧
        s.out.filter (·.isOf .parent) = [.writeSet, .writeUnset] ∧
        ∀ i, s.out.filter (·.isOf (.child i)) = rounds i (times i)) := by
  have hreach : (program times).Reach s := Machine.reach_of_run rfl hrun
  have hinv := inv_reach hreach
  refine ⟨?_, fun hheld i => ?_, fun hstuck => ?_⟩
  · have hlength := Machine.Reach.length_run_le (State.left times)
      (fun _ _ _ hs => left_step (inv_reach hs)) (.start rfl) hrun
    have hinit : initState.left times = 28 * (times 0 + times 1) + 75 := by
      simp only [State.left, initState, MainPc.left, ChildPc.left, State.awake, Locks.none, if_true]
      omega
    rwa [hinit] at hlength
  · have hwrite : s.held .parent = some .write := by
      show s.main.held = some .write
      revert hheld
      cases s.main <;> simp [MainPc.held]
    exact OneLock.exclusive hinv.locked hwrite (q := .child i) nofun
  · have hmain := hinv.main_exited_of_stuck hstuck htimes
    have hprinted := printed_reach hreach
    have hreaped : ∀ i, s.child i = .reaped 0 := by
      intro i
      have hfine := hinv.control.fine i
      have hreaped := hinv.control.reaped (.inr ⟨0, hmain⟩) i
      revert hfine hreaped
      cases s.child i <;> simp [ChildPc.isReaped, ChildPc.Fine]
    refine ⟨hmain, hreaped, ?_, fun i => ?_⟩
    · rw [hprinted.main, hmain]
      rfl
    · rw [hprinted.child i, hreaped i]
      rfl

end Steps

/-- The program itself, with three rounds each: a run in which the parent asks for its lock
while the first child has the file, and gets it after everybody else is done. -/
theorem write_lock_granted_three : ∃ s, (program fun _ => 3).run initState
      ([.main, .main] ++ List.replicate 3 (.child 0) ++ List.replicate 5 .main ++
        List.replicate 19 (.child 0) ++ List.replicate 22 (.child 1) ++ List.replicate 4 .main ++
        [.reap 1, .reap 0, .main, .main]) = some s ∧
      s.main = .exited 0 ∧ (∀ i, s.child i = .reaped 0) ∧
      s.out.filter (·.isOf .parent) = [.writeSet, .writeUnset] ∧
      ∀ i, s.out.filter (·.isOf (.child i)) = rounds i 3 := by
  have hend : ((program fun _ => 3).run initState
      ([.main, .main] ++ List.replicate 3 (.child 0) ++ List.replicate 5 .main ++
        List.replicate 19 (.child 0) ++ List.replicate 22 (.child 1) ++ List.replicate 4 .main ++
        [.reap 1, .reap 0, .main, .main])).map
        (fun s => ((mainStep s).isNone, decide (∀ i, (childStep (fun _ => 3) s i).isNone),
          decide (∀ i, (reap s i).isNone))) = some (true, true, true) := by
    decide +kernel
  obtain ⟨s, hs, hstuck⟩ := Option.map_eq_some_iff.mp hend
  obtain ⟨hmain, hrest⟩ := Prod.mk.inj hstuck
  obtain ⟨hchild, hreap⟩ := Prod.mk.inj hrest
  refine ⟨s, hs, (write_lock_granted ⟨0, by decide⟩ hs).2.2 fun a => ?_⟩
  cases a with
  | main => exact Option.isNone_iff_eq_none.mp hmain
  | child i => exact Option.isNone_iff_eq_none.mp (of_decide_eq_true hchild i)
  | reap i => exact Option.isNone_iff_eq_none.mp (of_decide_eq_true hreap i)

end Apue.ForeverLock
