/-
Apue/FileDeadlock.lean

The deadlock of `14/4_deadlock_file.cpp`: two processes each lock one byte of a file, wait
until the other one has done so, and then ask for the byte of the other.

    child:   lockabyte 0;  TELL_PARENT;  WAIT_PARENT;  lockabyte 1
    parent:  lockabyte 1;  TELL_CHILD;   WAIT_CHILD;   lockabyte 0

`lockabyte` waits (`F_SETLKW`) and exits with an error if it is told of a deadlock.  The
signals make sure that both processes hold their first byte when one asks for its second.
So whoever asks last closes the chain, gets `EDEADLK` and exits, which frees its byte for the
other one: every run ends, with exactly one process that failed and one that had both bytes
(`exactly_one_fails`).

Left out: calls that fail for another reason than a deadlock.
-/
import Apue.LockWait
import Apue.Machine

namespace Apue.FileDeadlock

open RecordLock

/-! ### The processes -/

inductive Who
  | child
  | parent
  deriving DecidableEq, Repr

instance : Fintype Who := ⟨{.child, .parent}, fun x => by cases x <;> decide⟩

/-- The other process. -/
def Who.other : Who → Who
  | .child => .parent
  | .parent => .child

/-- The two calls of `lockabyte` in a process. -/
inductive Call
  | first
  | second
  deriving DecidableEq, Repr

/-- The byte that is locked. -/
def offset : Who → Call → ℕ
  | .child, .first => 0
  | .child, .second => 1
  | .parent, .first => 1
  | .parent, .second => 0

/-- `writew_lock(fd, offset, SEEK_SET, 1)`. -/
def request (x : Who) (c : Call) : Lock Who := ⟨x, .write, ⟨offset x c, 1⟩⟩

/-- The next operation of a process. -/
inductive Pc
  | lock (c : Call)         -- writew_lock in lockabyte
  | println (c : Call)      -- "{}: set lock for byte {}"
  | tell                    -- kill(pid, SIGUSR1) or kill(getppid(), SIGUSR2)
  | test                    -- while (sigflag == 0)
  | suspend                 -- sigsuspend(&zeromask)
  | clear                   -- sigflag = 0
  | done                    -- TELL_DONE_SIGNAL(); return 0
  | exited (status : ℕ)
  deriving DecidableEq, Repr

/-- A process. -/
structure Proc where
  pc : Pc
  sigflag : Bool
  pending : Bool
  deriving DecidableEq, Repr

/-- The processes, the locks on the file, and what was printed. -/
structure State where
  proc : Who → Proc
  locks : Locks Who
  out : List (Who × ℕ)

/-- Process `x` becomes `p`. -/
def State.set (s : State) (x : Who) (p : Proc) : State :=
  { s with proc := Function.update s.proc x p }

/-- `kill`. -/
def State.kill (s : State) (x : Who) : State := s.set x { s.proc x with pending := true }

/-- Process `x` exits, which frees its locks. -/
def State.exit (s : State) (x : Who) (status : ℕ) : State :=
  { s.set x { s.proc x with pc := .exited status } with locks := s.locks.release x }

/-- After a call of `lockabyte`. -/
def afterLock : Call → Pc
  | .first => .tell
  | .second => .done

/-- `writew_lock`, by a process that does not sleep; `err_sys` if it fails. -/
def lockw (s : State) (x : Who) (c : Call) : State :=
  match s.locks.setLkW maxDeadlkIterations (request x c) with
  | .granted locks => { s.set x { s.proc x with pc := .println c } with locks := locks }
  | .sleeps locks => { s with locks := locks }
  | .edeadlk => s.exit x 1

/-- One operation of process `x`. -/
def step (s : State) (x : Who) : Option State :=
  match s.proc x with
  | ⟨.lock c, _, _⟩ => if s.locks.sleeping x = none then some (lockw s x c) else none
  | ⟨.println c, f, p⟩ =>
      some { s.set x ⟨afterLock c, f, p⟩ with out := s.out ++ [(x, offset x c)] }
  | ⟨.tell, f, p⟩ => some ((s.set x ⟨.test, f, p⟩).kill x.other)
  | ⟨.test, f, p⟩ => some (s.set x ⟨if f then .clear else .suspend, f, p⟩)
  | ⟨.suspend, _, true⟩ => some (s.set x ⟨.test, true, false⟩)
  | ⟨.suspend, _, false⟩ => none
  | ⟨.clear, _, p⟩ => some (s.set x ⟨.lock .second, false, p⟩)
  | ⟨.done, _, _⟩ => some (s.exit x 0)
  | ⟨.exited _, _, _⟩ => none

/-- Both processes after `fork`. -/
def initState : State where
  proc _ := ⟨.lock .first, false, false⟩
  locks := .none
  out := []

/-- The program. -/
def program : Machine State Who where
  init s := s = initState
  next := step

/-! ### Invariant -/

/-- The process has the lock of this call. -/
def Pc.holds : Pc → Call → Bool
  | .lock .first, _ | .exited _, _ => false
  | .println .second, _ | .done, _ => true
  | _, c => c = .first

/-- The process has told the other one. -/
def Pc.told : Pc → Bool
  | .lock .first | .println .first | .tell => false
  | _ => true

/-- The process has been told, and goes on. -/
def Pc.passed : Pc → Bool
  | .lock .second | .println .second | .done | .exited _ => true
  | _ => false

/-- A process `a` and its peer `b`. -/
structure Pair (a b : Proc) : Prop where
  /-- the signal is pending, handled or used exactly if it was sent -/
  heard : (a.sigflag || a.pending || a.pc.passed) = b.pc.told
  suspended : a.pc = .suspend → a.sigflag = false
  cleared : a.pc = .clear → a.sigflag = true
  /-- only the failure of the peer frees the second byte -/
  won : a.pc.holds .second = true ∨ a.pc = .exited 0 → b.pc = .exited 1
  lost : a.pc = .exited 1 → b.pc.passed = true ∧ b.pc ≠ .exited 1
  status : ∀ n, a.pc = .exited n → n = 0 ∨ n = 1

structure Inv (s : State) : Prop where
  sound : Sound s.locks
  table : ∀ m, m ∈ s.locks.table ↔ ∃ x c, (s.proc x).pc.holds c = true ∧ m = request x c
  sleeping : ∀ x w, s.locks.sleeping x = some w → (s.proc x).pc = .lock .second ∧ w.2 = x.other
  pair : ∀ x, Pair (s.proc x) (s.proc x.other)

section Steps

variable {s s' : State} {x : Who}

@[simp] theorem Who.other_ne (x : Who) : x.other ≠ x := by
  cases x <;> decide

@[simp] theorem Who.other_other (x : Who) : x.other.other = x := by
  cases x <;> rfl

theorem Who.eq_other_of_ne {x y : Who} (h : y ≠ x) : y = x.other := by
  cases x <;> cases y <;> first | rfl | exact absurd rfl h

@[simp] theorem set_proc_self (s : State) (x : Who) (p : Proc) : (s.set x p).proc x = p :=
  Function.update_self ..

@[simp] theorem set_proc_other (s : State) (x : Who) (p : Proc) :
    (s.set x p).proc x.other = s.proc x.other :=
  Function.update_of_ne x.other_ne ..

@[simp] theorem kill_proc_other (s : State) (x : Who) : (s.kill x.other).proc x = s.proc x :=
  Function.update_of_ne x.other_ne.symm ..

@[simp] theorem kill_proc_self (s : State) (x : Who) :
    (s.kill x).proc x = { s.proc x with pending := true } :=
  Function.update_self ..

theorem inv_init : Inv initState where
  sound := sound_none
  table := by simp [initState, Locks.none, Pc.holds]
  sleeping := nofun
  pair := fun x => by constructor <;> simp [initState, Pc.passed, Pc.told, Pc.holds]

/-- Enough to say it for one process and for its peer. -/
theorem forall_pair {Q : Proc → Proc → Prop} {s : State} (x : Who)
    (h : Q (s.proc x) (s.proc x.other)) (h' : Q (s.proc x.other) (s.proc x)) :
    ∀ y, Q (s.proc y) (s.proc y.other) := by
  intro y
  rcases eq_or_ne y x with rfl | hne
  · exact h
  · obtain rfl := Who.eq_other_of_ne hne
    rwa [Who.other_other]

/-- A step that does not touch the locks. -/
theorem Inv.of_locks_eq (h : Inv s) (hlocks : s'.locks = s.locks)
    (hother : (s'.proc x.other).pc = (s.proc x.other).pc)
    (hholds : ∀ c, (s'.proc x).pc.holds c = (s.proc x).pc.holds c)
    (hawake : (s.proc x).pc ≠ .lock .second)
    (hpair : Pair (s'.proc x) (s'.proc x.other)) (hpair' : Pair (s'.proc x.other) (s'.proc x)) :
    Inv s' where
  sound := hlocks ▸ h.sound
  table := by
    intro m
    rw [hlocks, h.table m]
    refine exists_congr fun y => exists_congr fun c => and_congr_left fun _ => ?_
    rcases eq_or_ne y x with rfl | hne
    · rw [hholds]
    · obtain rfl := Who.eq_other_of_ne hne
      rw [hother]
  sleeping := by
    intro y w hw
    rw [hlocks] at hw
    obtain ⟨hpc, hw⟩ := h.sleeping y w hw
    rcases eq_or_ne y x with rfl | hne
    · exact absurd hpc hawake
    · obtain rfl := Who.eq_other_of_ne hne
      exact ⟨hother.trans hpc, hw⟩
  pair := forall_pair x hpair hpair'

/-- The program counter moves, within the same part of the program. -/
theorem Pair.move {pc pc' : Pc} {f p : Bool} {b : Proc} (h : Pair ⟨pc, f, p⟩ b)
    (h' : Pair b ⟨pc, f, p⟩) (hpassed : pc'.passed = pc.passed) (htold : pc'.told = pc.told)
    (hholds : pc'.holds .second = pc.holds .second)
    (hrunning : ∀ n, pc ≠ .exited n ∧ pc' ≠ .exited n)
    (hsuspend : pc' = .suspend → f = false) (hclear : pc' = .clear → f = true) :
    Pair ⟨pc', f, p⟩ b ∧ Pair b ⟨pc', f, p⟩ := by
  refine ⟨⟨?_, hsuspend, hclear, ?_, ?_, ?_⟩, ⟨?_, h'.suspended, h'.cleared, ?_, ?_, h'.status⟩⟩
  · exact hpassed ▸ h.heard
  · rintro (hsecond | hexited)
    · exact h.won (.inl (hholds ▸ hsecond))
    · exact absurd hexited (hrunning 0).2
  · exact fun hexited => absurd hexited (hrunning 1).2
  · exact fun n hexited => absurd hexited (hrunning n).2
  · exact htold ▸ h'.heard
  · exact fun hb => absurd (h'.won hb) (hrunning 1).1
  · exact fun hb => ⟨hpassed ▸ (h'.lost hb).1, (hrunning 1).2⟩

/-- `kill`, which the other process is told by. -/
theorem Pair.tell {f p : Bool} {b : Proc} (h : Pair ⟨.tell, f, p⟩ b) (h' : Pair b ⟨.tell, f, p⟩) :
    Pair ⟨.test, f, p⟩ { b with pending := true } ∧ Pair { b with pending := true } ⟨.test, f, p⟩ := by
  have hpassed : b.pc.passed = false := by
    have hheard := h'.heard
    simp only [Pc.told, Bool.or_eq_false_iff] at hheard
    exact hheard.2
  refine ⟨⟨h.heard, nofun, nofun, ?_, nofun, nofun⟩, ⟨?_, h'.suspended, h'.cleared, ?_, ?_, h'.status⟩⟩
  · rintro (hsecond | hexited)
    · exact nomatch hsecond
    · exact nomatch hexited
  · show (b.sigflag || true || b.pc.passed) = true
    rw [Bool.or_true, Bool.true_or]
  · exact fun hb => nomatch h'.won hb
  · intro hb
    exact nomatch (h'.lost hb).1

/-- `sigsuspend` returns after the handler has run. -/
theorem Pair.resume {f : Bool} {b : Proc} (h : Pair ⟨.suspend, f, true⟩ b)
    (h' : Pair b ⟨.suspend, f, true⟩) :
    Pair ⟨.test, true, false⟩ b ∧ Pair b ⟨.test, true, false⟩ := by
  refine ⟨⟨?_, nofun, nofun, ?_, nofun, nofun⟩, ⟨h'.heard, h'.suspended, h'.cleared, ?_, ?_, h'.status⟩⟩
  · have hheard := h.heard
    rw [Bool.or_true, Bool.true_or] at hheard
    exact hheard
  · rintro (hsecond | hexited)
    · exact nomatch hsecond
    · exact nomatch hexited
  · exact fun hb => nomatch h'.won hb
  · exact fun hb => nomatch (h'.lost hb).1

/-- `sigflag = 0`. -/
theorem Pair.pass {f p : Bool} {b : Proc} (h : Pair ⟨.clear, f, p⟩ b) (h' : Pair b ⟨.clear, f, p⟩) :
    Pair ⟨.lock .second, false, p⟩ b ∧ Pair b ⟨.lock .second, false, p⟩ := by
  have hflag : f = true := h.cleared rfl
  refine ⟨⟨?_, nofun, nofun, ?_, nofun, nofun⟩, ⟨h'.heard, h'.suspended, h'.cleared, ?_, ?_, h'.status⟩⟩
  · have hheard := h.heard
    rw [hflag] at hheard
    rw [← hheard]
    cases p <;> rfl
  · rintro (hsecond | hexited)
    · exact nomatch hsecond
    · exact nomatch hexited
  · exact fun hb => nomatch h'.won hb
  · exact fun hb => nomatch (h'.lost hb).1

/-! ### Locks -/

/-- The byte of one call is in the way of the other call of the peer. -/
theorem request_conflicts_iff {x y : Who} {c d : Call} :
    (request x c).Conflicts (request y d) ↔ y = x.other ∧ d ≠ c := by
  cases x <;> cases y <;> cases c <;> cases d <;> decide

/-- One's own other byte is not touched. -/
theorem request_diff {x : Who} {c d : Call} (h : d ≠ c) :
    (request x d).region.diff (request x c).region = [(request x d).region] := by
  cases x <;> cases c <;> cases d <;> first | rfl | exact absurd rfl h

theorem holds_println (c d : Call) :
    (Pc.println c).holds d = true ↔ (Pc.lock c).holds d = true ∨ d = c := by
  cases c <;> cases d <;> decide

theorem not_holds_lock (c : Call) : (Pc.lock c).holds c = false := by
  cases c <;> rfl

/-- Who holds a byte that is in the way. -/
theorem Inv.conflict (h : Inv s) {c : Call} {m : Lock Who} (hm : m ∈ s.locks.table)
    (hconflict : (request x c).Conflicts m) :
    m.owner = x.other ∧ ∃ d, d ≠ c ∧ (s.proc x.other).pc.holds d = true := by
  obtain ⟨y, d, hholds, rfl⟩ := (h.table m).mp hm
  obtain ⟨rfl, hne⟩ := request_conflicts_iff.mp hconflict
  exact ⟨rfl, d, hne, hholds⟩

/-- The first byte is free. -/
theorem Inv.first_free (h : Inv s) (hpc : (s.proc x).pc = .lock .first) :
    ∀ m ∈ s.locks.table, ¬(request x .first).Conflicts m := by
  intro m hm hconflict
  obtain ⟨-, d, hne, hholds⟩ := h.conflict hm hconflict
  obtain rfl : d = .second := by cases d <;> first | rfl | exact absurd rfl hne
  have hlost := (h.pair x.other).won (.inl hholds)
  rw [Who.other_other, hpc] at hlost
  exact nomatch hlost

/-- Nobody sleeps any more once process `x`, which is awake, has changed its locks. -/
theorem Inv.nobody_sleeps (h : Inv s) (hawake : s.locks.sleeping x = none) (t : Table Who)
    (y : Who) : (Locks.wake { s.locks with table := t } x).sleeping y = none := by
  rcases hwoken : (Locks.wake { s.locks with table := t } x).sleeping y with _ | ⟨l, q⟩
  · rfl
  obtain ⟨hsleep, hne⟩ := wake_sleeping.mp hwoken
  change s.locks.sleeping y = some (l, q) at hsleep
  rcases eq_or_ne y x with rfl | hyx
  · exact nomatch hawake.symm.trans hsleep
  · obtain rfl := Who.eq_other_of_ne hyx
    exact absurd ((h.sleeping _ _ hsleep).2.trans x.other_other) hne

/-- A lock is granted. -/
theorem Inv.granted {c : Call} {f p : Bool} {locks : Locks Who} (h : Inv s)
    (hx : s.proc x = ⟨.lock c, f, p⟩) (hawake : s.locks.sleeping x = none)
    (hs : s.locks.setLkW maxDeadlkIterations (request x c) = .granted locks)
    (hpair : Pair ⟨.println c, f, p⟩ (s.proc x.other) ∧
      Pair (s.proc x.other) ⟨.println c, f, p⟩) :
    Inv { s.set x ⟨.println c, f, p⟩ with locks := locks } where
  sound := h.sound.granted hs
  table := by
    intro m
    obtain ⟨-, rfl⟩ := setLkW_granted hs
    show m ∈ request x c :: RecordLock.unlock s.locks.table x (request x c).region ↔
      ∃ y d, ((s.set x ⟨.println c, f, p⟩).proc y).pc.holds d = true ∧ m = request y d
    rw [List.mem_cons, mem_unlock]
    constructor
    · rintro (rfl | ⟨hm, hne⟩ | ⟨m₀, hm₀, howner, d, hd, rfl⟩)
      · exact ⟨x, c, by rw [set_proc_self]; exact (holds_println c c).mpr (.inr rfl), rfl⟩
      · obtain ⟨y, d, hholds, rfl⟩ := (h.table m).mp hm
        obtain rfl : y = x.other := Who.eq_other_of_ne hne
        exact ⟨x.other, d, by rwa [set_proc_other], rfl⟩
      · obtain ⟨y, e, hholds, rfl⟩ := (h.table m₀).mp hm₀
        obtain rfl : y = x := howner
        rw [hx] at hholds
        have hne : e ≠ c := by
          rintro rfl
          rw [not_holds_lock] at hholds
          exact nomatch hholds
        rw [request_diff hne] at hd
        obtain rfl := List.mem_singleton.mp hd
        exact ⟨y, e, by rw [set_proc_self]; exact (holds_println c e).mpr (.inl hholds), rfl⟩
    · rintro ⟨y, d, hholds, rfl⟩
      rcases eq_or_ne y x with rfl | hyx
      · rw [set_proc_self] at hholds
        rcases eq_or_ne d c with rfl | hne
        · exact .inl rfl
        · have hold := ((holds_println c d).mp hholds).resolve_right hne
          have hmem := (h.table (request y d)).mpr ⟨y, d, by rw [hx]; exact hold, rfl⟩
          exact .inr (.inr ⟨_, hmem, rfl, _, by rw [request_diff hne]; exact List.mem_cons_self, rfl⟩)
      · obtain rfl := Who.eq_other_of_ne hyx
        rw [set_proc_other] at hholds
        exact .inr (.inl ⟨(h.table _).mpr ⟨_, d, hholds, rfl⟩, hyx⟩)
  sleeping := by
    intro y w hw
    obtain ⟨-, rfl⟩ := setLkW_granted hs
    exact nomatch (h.nobody_sleeps hawake _ y).symm.trans hw
  pair := forall_pair x (by simpa using hpair.1) (by simpa using hpair.2)

/-- A process exits. -/
theorem Inv.exit {n : ℕ} (h : Inv s) (hawake : s.locks.sleeping x = none)
    (hpair : Pair { s.proc x with pc := .exited n } (s.proc x.other) ∧
      Pair (s.proc x.other) { s.proc x with pc := .exited n }) : Inv (s.exit x n) where
  sound := h.sound.release x
  table := by
    intro m
    show m ∈ RecordLock.release s.locks.table x ↔
      ∃ y d, ((s.set x { s.proc x with pc := .exited n }).proc y).pc.holds d = true ∧
        m = request y d
    rw [mem_release, h.table m]
    constructor
    · rintro ⟨⟨y, d, hholds, rfl⟩, hne⟩
      obtain rfl : y = x.other := Who.eq_other_of_ne hne
      exact ⟨x.other, d, by rwa [set_proc_other], rfl⟩
    · rintro ⟨y, d, hholds, rfl⟩
      rcases eq_or_ne y x with rfl | hyx
      · rw [set_proc_self] at hholds
        exact nomatch hholds
      · obtain rfl := Who.eq_other_of_ne hyx
        rw [set_proc_other] at hholds
        exact ⟨⟨_, d, hholds, rfl⟩, hyx⟩
  sleeping := fun y _ hw => nomatch (h.nobody_sleeps hawake _ y).symm.trans hw
  pair := forall_pair x
    (show Pair ((s.set x _).proc x) ((s.set x _).proc x.other) by simpa using hpair.1)
    (show Pair ((s.set x _).proc x.other) ((s.set x _).proc x) by simpa using hpair.2)

/-- A process that has told the other one and does not hold its first byte is gone. -/
theorem exited_of_told {pc : Pc} (htold : pc.told = true) (hholds : pc.holds .first = false) :
    ∃ n, pc = .exited n := by
  cases pc with
  | exited n => exact ⟨n, rfl⟩
  | lock c => cases c <;> simp [Pc.told, Pc.holds] at htold hholds
  | println c => cases c <;> simp [Pc.told, Pc.holds] at htold hholds
  | _ => simp [Pc.told, Pc.holds] at htold hholds

/-- The second byte is free only if its owner has failed. -/
theorem Inv.second_granted (h : Inv s) {f p : Bool} (hx : s.proc x = ⟨.lock .second, f, p⟩)
    (hfree : ∀ m ∈ s.locks.table, ¬(request x .second).Conflicts m) :
    (s.proc x.other).pc = .exited 1 := by
  have hpair := h.pair x
  rw [hx] at hpair
  have htold : (s.proc x.other).pc.told = true := by
    rw [← hpair.heard]
    exact Bool.or_true _
  have hholds : (s.proc x.other).pc.holds .first = false := by
    refine Bool.eq_false_of_not_eq_true fun hholds => ?_
    exact hfree _ ((h.table _).mpr ⟨x.other, .first, hholds, rfl⟩)
      (request_conflicts_iff.mpr ⟨rfl, nofun⟩)
  obtain ⟨n, hn⟩ := exited_of_told htold hholds
  rcases (h.pair x.other).status n hn with rfl | rfl
  · have hlost := (h.pair x.other).won (.inr hn)
    rw [Who.other_other, hx] at hlost
    exact nomatch hlost
  · exact hn

/-- `writew_lock`. -/
theorem inv_lockw (h : Inv s) {c : Call} {f p : Bool} (hx : s.proc x = ⟨.lock c, f, p⟩)
    (hawake : s.locks.sleeping x = none) : Inv (lockw s x c) := by
  have hpair := h.pair x
  have hpair' := h.pair x.other
  rw [hx] at hpair
  rw [Who.other_other, hx] at hpair'
  unfold lockw
  split
  case h_1 locks hs =>
      rw [hx]
      refine h.granted hx hawake hs ?_
      cases c with
      | first => exact hpair.move hpair' rfl rfl rfl (fun n => ⟨nofun, nofun⟩) nofun nofun
      | second =>
          have hlost := h.second_granted hx (setLkW_granted hs).1
          refine ⟨⟨hpair.heard, nofun, nofun, fun _ => hlost, nofun, nofun⟩,
            ⟨hpair'.heard, hpair'.suspended, hpair'.cleared, ?_, ?_, hpair'.status⟩⟩
          · rw [hlost]
            rintro (hsecond | hexited)
            · exact nomatch hsecond
            · exact nomatch hexited
          · exact fun _ => ⟨rfl, nofun⟩
  case h_2 locks hs =>
      have hsound := h.sound.sleeps (by decide) hs
      obtain ⟨q, hq, -, rfl⟩ := setLkW_sleeps hs
      obtain ⟨m, hm, rfl, hconflict⟩ := exists_of_blocker_eq_some hq
      cases c with
      | first => exact absurd hconflict (h.first_free (by rw [hx]) m hm)
      | second =>
          refine ⟨hsound, h.table, fun y w hw => ?_, h.pair⟩
          dsimp only at hw
          rcases eq_or_ne y x with rfl | hne
          · have hupdate : some (request y .second, m.owner) = some w :=
              (Function.update_self y _ s.locks.sleeping).symm.trans hw
            rw [← Option.some.inj hupdate]
            exact ⟨by rw [hx], (h.conflict hm hconflict).1⟩
          · rw [show (request x .second).owner = x from rfl, Function.update_of_ne hne] at hw
            exact h.sleeping y w hw
  case h_3 hs =>
      obtain ⟨m, hm, hconflict, hsleep⟩ := setLkW_edeadlk hs
      cases c with
      | first => exact absurd hconflict (h.first_free (by rw [hx]) m hm)
      | second =>
          -- the owner of the byte sleeps, so it waits for this process
          obtain ⟨w, hw⟩ := Option.ne_none_iff_exists'.mp hsleep
          rw [(h.conflict hm hconflict).1] at hw
          have hpc := (h.sleeping _ _ hw).1
          refine h.exit hawake ?_
          rw [hx]
          refine ⟨⟨?_, nofun, nofun, ?_, fun _ => ?_, fun n hn => ?_⟩,
            ⟨?_, hpair'.suspended, hpair'.cleared, ?_, ?_, hpair'.status⟩⟩
          · rw [hpc]
            exact Bool.or_true _
          · rintro (hsecond | hexited)
            · exact nomatch hsecond
            · exact nomatch hexited
          · rw [hpc]
            exact ⟨rfl, nofun⟩
          · exact .inr (Pc.exited.inj hn).symm
          · rw [hpc]
            exact Bool.or_true _
          · rw [hpc]
            rintro (hsecond | hexited)
            · exact nomatch hsecond
            · exact nomatch hexited
          · rw [hpc]
            exact nofun

/-- The last thing a process does: it exits with both bytes locked. -/
theorem inv_exit_zero (h : Inv s) {f p : Bool} (hx : s.proc x = ⟨.done, f, p⟩)
    (hawake : s.locks.sleeping x = none) : Inv (s.exit x 0) := by
  have hpair := h.pair x
  have hpair' := h.pair x.other
  rw [hx] at hpair
  rw [Who.other_other, hx] at hpair'
  have hlost : (s.proc x.other).pc = .exited 1 := hpair.won (.inl rfl)
  refine h.exit hawake ?_
  rw [hx]
  refine ⟨⟨hpair.heard, nofun, nofun, fun _ => hlost, nofun, fun n hn => ?_⟩,
    ⟨hpair'.heard, hpair'.suspended, hpair'.cleared, ?_, fun _ => ⟨rfl, nofun⟩, hpair'.status⟩⟩
  · exact .inl (Pc.exited.inj hn).symm
  · rw [hlost]
    rintro (hsecond | hexited)
    · exact nomatch hsecond
    · exact nomatch hexited

theorem inv_step (h : Inv s) (hs : step s x = some s') : Inv s' := by
  have hpair := h.pair x
  have hpair' := h.pair x.other
  rw [Who.other_other] at hpair'
  have hawake : ∀ pc f p, s.proc x = ⟨pc, f, p⟩ → pc ≠ .lock .second →
      s.locks.sleeping x = none := by
    intro pc f p hx hpc
    refine Option.eq_none_iff_forall_ne_some.mpr fun w hw => hpc ?_
    rw [← (h.sleeping x w hw).1, hx]
  unfold step at hs
  split at hs
  case h_1 c f p hx =>
      obtain ⟨hawake, hs⟩ := Option.ite_none_right_eq_some.mp hs
      obtain rfl := Option.some.inj hs
      exact inv_lockw h hx hawake
  case h_2 c f p hx =>
      obtain rfl := Option.some.inj hs
      rw [hx] at hpair hpair'
      obtain ⟨hpair, hpair'⟩ : Pair ⟨afterLock c, f, p⟩ (s.proc x.other) ∧
          Pair (s.proc x.other) ⟨afterLock c, f, p⟩ := by
        cases c <;> exact hpair.move hpair' rfl rfl rfl (fun n => ⟨nofun, nofun⟩) nofun nofun
      refine h.of_locks_eq (x := x) rfl ?_ ?_ (by rw [hx]; nofun) ?_ ?_
      · simp
      · rw [hx]
        cases c <;> simp [afterLock, Pc.holds]
      · simpa using hpair
      · simpa using hpair'
  case h_3 f p hx =>
      obtain rfl := Option.some.inj hs
      rw [hx] at hpair hpair'
      obtain ⟨hpair, hpair'⟩ := hpair.tell hpair'
      refine h.of_locks_eq (x := x) rfl ?_ ?_ (by rw [hx]; nofun) ?_ ?_
      · simp
      · simp [hx, Pc.holds]
      · simpa using hpair
      · simpa using hpair'
  case h_4 f p hx =>
      obtain rfl := Option.some.inj hs
      rw [hx] at hpair hpair'
      obtain ⟨hpair, hpair'⟩ : Pair ⟨if f then .clear else .suspend, f, p⟩ (s.proc x.other) ∧
          Pair (s.proc x.other) ⟨if f then .clear else .suspend, f, p⟩ := by
        cases f <;>
          exact hpair.move hpair' rfl rfl rfl (fun n => ⟨nofun, nofun⟩) (by simp) (by simp)
      refine h.of_locks_eq (x := x) rfl ?_ ?_ (by rw [hx]; nofun) ?_ ?_
      · simp
      · cases f <;> simp [hx, Pc.holds]
      · simpa using hpair
      · simpa using hpair'
  case h_5 f hx =>
      obtain rfl := Option.some.inj hs
      rw [hx] at hpair hpair'
      obtain ⟨hpair, hpair'⟩ := hpair.resume hpair'
      refine h.of_locks_eq (x := x) rfl ?_ ?_ (by rw [hx]; nofun) ?_ ?_
      · simp
      · simp [hx, Pc.holds]
      · simpa using hpair
      · simpa using hpair'
  case h_6 => exact nomatch hs
  case h_7 f p hx =>
      obtain rfl := Option.some.inj hs
      rw [hx] at hpair hpair'
      obtain ⟨hpair, hpair'⟩ := hpair.pass hpair'
      refine h.of_locks_eq (x := x) rfl ?_ ?_ (by rw [hx]; nofun) ?_ ?_
      · simp
      · simp [hx, Pc.holds]
      · simpa using hpair
      · simpa using hpair'
  case h_8 f p hx =>
      obtain rfl := Option.some.inj hs
      exact inv_exit_zero h hx (hawake _ _ _ hx nofun)
  case h_9 => exact nomatch hs

theorem inv_reach (h : program.Reach s) : Inv s := by
  refine h.invariant (I := Inv) ?_ fun s x s' => inv_step
  rintro s rfl
  exact inv_init

/-! ### What is printed -/

/-- The calls of `lockabyte` whose line a process has printed. -/
def Pc.printed : Pc → List Call
  | .lock .first | .println .first => []
  | .done | .exited 0 => [.first, .second]
  | _ => [.first]

/-- The lines of a process are those of the calls that it has finished. -/
def Printed (s : State) : Prop :=
  ∀ x, s.out.filter (·.1 = x) = (s.proc x).pc.printed.map fun c => (x, offset x c)

/-- A step that prints nothing. -/
theorem Printed.of_out_eq (h : Printed s) (hout : s'.out = s.out)
    (hpc : ∀ y, (s'.proc y).pc.printed = (s.proc y).pc.printed) : Printed s' := by
  intro y
  rw [hout, hpc, h y]

/-- The lines of other processes stay. -/
theorem printed_set {p : Proc} (hprinted : p.pc.printed = (s.proc x).pc.printed) (y : Who) :
    ((s.set x p).proc y).pc.printed = (s.proc y).pc.printed := by
  rcases eq_or_ne y x with rfl | hne
  · rw [set_proc_self, hprinted]
  · obtain rfl := Who.eq_other_of_ne hne
    rw [set_proc_other]

theorem printed_kill (s : State) (x y : Who) :
    ((s.kill x).proc y).pc.printed = (s.proc y).pc.printed :=
  printed_set (p := { s.proc x with pending := true }) rfl y

theorem printed_lockw {c : Call} {f p : Bool} (h : Inv s) (hx : s.proc x = ⟨.lock c, f, p⟩)
    (hprinted : Printed s) : Printed (lockw s x c) := by
  unfold lockw
  split
  case h_1 locks hs =>
      refine hprinted.of_out_eq rfl (printed_set ?_)
      rw [hx]
      cases c <;> rfl
  case h_2 => exact hprinted
  case h_3 hs =>
      obtain ⟨m, hm, hconflict, -⟩ := setLkW_edeadlk hs
      refine hprinted.of_out_eq rfl (printed_set ?_)
      cases c with
      | first => exact absurd hconflict (h.first_free (by rw [hx]) m hm)
      | second =>
          rw [hx]
          rfl

theorem printed_println {c : Call} {f p : Bool} (hx : s.proc x = ⟨.println c, f, p⟩)
    (hprinted : Printed s) :
    Printed { s.set x ⟨afterLock c, f, p⟩ with out := s.out ++ [(x, offset x c)] } := by
  intro y
  have hold := hprinted y
  show (s.out ++ [(x, offset x c)]).filter (·.1 = y) = _
  rw [List.filter_append, hold]
  rcases eq_or_ne y x with rfl | hne
  · have hself : ((s.set y ⟨afterLock c, f, p⟩).proc y).pc = afterLock c := by
      rw [set_proc_self]
    show _ = ((s.set y ⟨afterLock c, f, p⟩).proc y).pc.printed.map _
    rw [hself, hx]
    cases c <;> simp [Pc.printed, afterLock]
  · obtain rfl := Who.eq_other_of_ne hne
    show _ = ((s.set x ⟨afterLock c, f, p⟩).proc x.other).pc.printed.map _
    rw [set_proc_other]
    simp [x.other_ne.symm]

theorem printed_step (h : Inv s) (hprinted : Printed s) (hs : step s x = some s') : Printed s' := by
  unfold step at hs
  split at hs
  case h_1 c f p hx =>
      obtain ⟨-, hs⟩ := Option.ite_none_right_eq_some.mp hs
      obtain rfl := Option.some.inj hs
      exact printed_lockw h hx hprinted
  case h_2 c f p hx =>
      obtain rfl := Option.some.inj hs
      exact printed_println hx hprinted
  case h_3 f p hx =>
      obtain rfl := Option.some.inj hs
      refine hprinted.of_out_eq rfl fun y => ?_
      rw [printed_kill, printed_set]
      rw [hx]
      rfl
  case h_4 f p hx =>
      obtain rfl := Option.some.inj hs
      refine hprinted.of_out_eq rfl (printed_set ?_)
      rw [hx]
      cases f <;> rfl
  case h_5 f hx =>
      obtain rfl := Option.some.inj hs
      refine hprinted.of_out_eq rfl (printed_set ?_)
      rw [hx]
      rfl
  case h_6 => exact nomatch hs
  case h_7 f p hx =>
      obtain rfl := Option.some.inj hs
      refine hprinted.of_out_eq rfl (printed_set ?_)
      rw [hx]
      rfl
  case h_8 f p hx =>
      obtain rfl := Option.some.inj hs
      refine hprinted.of_out_eq rfl (printed_set ?_)
      rw [hx]
      rfl
  case h_9 => exact nomatch hs

theorem printed_reach (h : program.Reach s) : Printed s := by
  have hboth : Inv s ∧ Printed s := by
    refine h.invariant (I := fun s => Inv s ∧ Printed s) ?_ ?_
    · rintro s rfl
      exact ⟨inv_init, fun x => rfl⟩
    · rintro s x s' ⟨hinv, hprinted⟩ hs
      exact ⟨inv_step hinv hs, printed_step hinv hprinted hs⟩
  exact hboth.2

/-! ### Every run ends -/

/-- How many operations a process has left at most.  One that is woken tries its lock
again, which costs the process that wakes it one of its own. -/
def weight (p : Proc) (asleep : Bool) : ℕ :=
  match p.pc with
  | .lock .first => if asleep then 14 else 15
  | .println .first => 12
  | .tell => 11
  | .test => if p.sigflag then 8 else 10
  | .suspend => 9
  | .clear => 7
  | .lock .second => if asleep then 5 else 6
  | .println .second => 3
  | .done => 2
  | .exited _ => 0

/-- The weight of a process in a state. -/
def State.weight (s : State) (x : Who) : ℕ :=
  FileDeadlock.weight (s.proc x) (s.locks.sleeping x).isSome

/-- The weights of both processes. -/
def State.left (s : State) : ℕ := s.weight .child + s.weight .parent

theorem left_eq (s : State) (x : Who) : s.left = s.weight x + s.weight x.other := by
  cases x
  · rfl
  · exact Nat.add_comm ..

theorem weight_le_of_asleep (p : Proc) (b b' : Bool) : weight p b ≤ weight p b' + 1 := by
  obtain ⟨pc, f, q⟩ := p
  cases pc with
  | lock c => cases c <;> cases b <;> cases b' <;> simp [weight]
  | println c => cases c <;> exact Nat.le_succ _
  | _ => exact Nat.le_succ _

/-- A step of `x` that may wake the other process. -/
theorem left_lt {a a' : Proc} (hx : s.proc x = a) (hx' : s'.proc x = a')
    (hother : s'.proc x.other = s.proc x.other)
    (hlt : ∀ b, weight a' b + 1 < weight a (s.locks.sleeping x).isSome) : s'.left < s.left := by
  have hle : s'.weight x.other ≤ s.weight x.other + 1 := by
    unfold State.weight
    rw [hother]
    exact weight_le_of_asleep ..
  have hlt := hlt (s'.locks.sleeping x).isSome
  rw [left_eq s x, left_eq s' x]
  rw [← hx, ← hx'] at hlt
  change s'.weight x + 1 < s.weight x at hlt
  omega

/-- A step of `x` that wakes nobody. -/
theorem left_lt_of_sleeping {a a' : Proc} (hx : s.proc x = a) (hx' : s'.proc x = a')
    (hsleeping : s'.locks.sleeping x.other = s.locks.sleeping x.other)
    (hpc : (s'.proc x.other).pc = (s.proc x.other).pc)
    (hflag : (s'.proc x.other).sigflag = (s.proc x.other).sigflag)
    (hlt : weight a' (s'.locks.sleeping x).isSome < weight a (s.locks.sleeping x).isSome) :
    s'.left < s.left := by
  have heq : s'.weight x.other = s.weight x.other := by
    unfold State.weight weight
    rw [hsleeping, hpc, hflag]
  rw [left_eq s x, left_eq s' x, heq]
  rw [← hx, ← hx'] at hlt
  exact Nat.add_lt_add_right hlt _

theorem left_lockw {c : Call} {f p : Bool} (hx : s.proc x = ⟨.lock c, f, p⟩)
    (hawake : s.locks.sleeping x = none) : (lockw s x c).left < s.left := by
  unfold lockw
  split
  case h_1 locks _ =>
      refine left_lt hx (set_proc_self ..) (set_proc_other ..) fun b => ?_
      rw [hawake, hx]
      cases c <;> simp [weight]
  case h_2 locks hsleeps =>
      obtain ⟨q, -, -, rfl⟩ := setLkW_sleeps hsleeps
      refine left_lt_of_sleeping (x := x) hx hx (Function.update_of_ne x.other_ne ..) rfl rfl ?_
      have hasleep : Function.update s.locks.sleeping x (some (request x c, q)) x =
          some (request x c, q) := Function.update_self ..
      show weight _ (Function.update s.locks.sleeping x (some (request x c, q)) x).isSome < _
      rw [hasleep, hawake]
      cases c <;> simp [weight]
  case h_3 _ =>
      refine left_lt hx (set_proc_self ..) (set_proc_other ..) fun b => ?_
      rw [hawake]
      cases c <;> simp [weight]

theorem left_step (hs : step s x = some s') : s'.left < s.left := by
  unfold step at hs
  split at hs
  case h_1 c f p hx =>
      obtain ⟨hawake, hs⟩ := Option.ite_none_right_eq_some.mp hs
      obtain rfl := Option.some.inj hs
      exact left_lockw hx hawake
  case h_2 c f p hx =>
      obtain rfl := Option.some.inj hs
      refine left_lt_of_sleeping hx (set_proc_self ..) rfl (by simp) (by simp) ?_
      cases c <;> simp [weight, afterLock]
  case h_3 f p hx =>
      obtain rfl := Option.some.inj hs
      refine left_lt_of_sleeping hx ((kill_proc_other ..).trans (set_proc_self ..)) rfl
        (by simp) (by simp) ?_
      cases f <;> simp [weight]
  case h_4 f p hx =>
      obtain rfl := Option.some.inj hs
      refine left_lt_of_sleeping hx (set_proc_self ..) rfl (by simp) (by simp) ?_
      cases f <;> simp [weight]
  case h_5 f hx =>
      obtain rfl := Option.some.inj hs
      refine left_lt_of_sleeping hx (set_proc_self ..) rfl (by simp) (by simp) ?_
      simp [weight]
  case h_6 => exact nomatch hs
  case h_7 f p hx =>
      obtain rfl := Option.some.inj hs
      refine left_lt_of_sleeping hx (set_proc_self ..) rfl (by simp) (by simp) ?_
      show (if _ then 5 else 6) < 7
      split <;> decide
  case h_8 f p hx =>
      obtain rfl := Option.some.inj hs
      refine left_lt hx (set_proc_self ..) (set_proc_other ..) fun b => ?_
      simp [weight]
  case h_9 => exact nomatch hs

/-! ### How a run ends -/

/-- Who can make no step sleeps in `writew_lock`, sleeps in `sigsuspend` or is gone. -/
theorem stuck_cases (hs : step s x = none) : s.locks.sleeping x ≠ none ∨
    (∃ f, s.proc x = ⟨.suspend, f, false⟩) ∨ ∃ n, (s.proc x).pc = .exited n := by
  unfold step at hs
  split at hs
  case h_1 =>
      refine .inl fun hawake => ?_
      rw [if_pos hawake] at hs
      exact nomatch hs
  case h_6 f hx => exact .inr (.inl ⟨f, hx⟩)
  case h_9 n f p hx => exact .inr (.inr ⟨n, by rw [hx]⟩)
  all_goals exact nomatch hs

/-- Who waits for a signal is waited for by somebody who has yet to send it. -/
theorem Inv.not_suspended_forever (h : Inv s) {f : Bool} (hx : s.proc x = ⟨.suspend, f, false⟩) :
    step s x.other ≠ none := by
  intro hstuck
  have hpair := h.pair x
  rw [hx] at hpair
  have htold : (s.proc x.other).pc.told = false := by
    rw [← hpair.heard, hpair.suspended rfl]
    rfl
  rcases stuck_cases hstuck with hsleep | ⟨f', hother⟩ | ⟨n, hn⟩
  · obtain ⟨w, hw⟩ := Option.ne_none_iff_exists'.mp hsleep
    rw [(h.sleeping _ _ hw).1] at htold
    exact nomatch htold
  · rw [hother] at htold
    exact nomatch htold
  · rw [hn] at htold
    exact nomatch htold

theorem Inv.exited_of_stuck (h : Inv s) (hstuck : ∀ x, step s x = none) (x : Who) :
    ∃ n, (s.proc x).pc = .exited n := by
  rcases stuck_cases (hstuck x) with hsleep | ⟨f, hx⟩ | hexited
  · -- somebody who holds a byte is awake, and can go on
    obtain ⟨w, hw⟩ := Option.ne_none_iff_exists'.mp hsleep
    obtain ⟨r, -, hawake, m, hm, hr⟩ := h.sound.exists_awake hw
    obtain ⟨y, c, hholds, rfl⟩ := (h.table m).mp hm
    obtain rfl : y = r := hr
    rcases stuck_cases (hstuck y) with hsleep' | ⟨f, hy⟩ | ⟨n, hn⟩
    · exact absurd hawake hsleep'
    · exact absurd (hstuck _) (h.not_suspended_forever hy)
    · rw [hn] at hholds
      exact nomatch hholds
  · exact absurd (hstuck _) (h.not_suspended_forever hx)
  · exact hexited

theorem Inv.one_lost_of_stuck (h : Inv s) (hstuck : ∀ x, step s x = none) :
    ∃ x, (s.proc x).pc = .exited 1 ∧ (s.proc x.other).pc = .exited 0 := by
  obtain ⟨n, hn⟩ := h.exited_of_stuck hstuck .child
  obtain ⟨m, hm⟩ := h.exited_of_stuck hstuck .parent
  rcases (h.pair .child).status n hn with rfl | rfl
  · exact ⟨.parent, (h.pair .child).won (.inr hn), hn⟩
  · have hne := ((h.pair .child).lost hn).2
    rcases (h.pair .parent).status m hm with rfl | rfl
    · exact ⟨.child, hn, hm⟩
    · exact absurd hm hne

/-- The lines that process `x` has printed. -/
def State.lines (s : State) (x : Who) : List ℕ := (s.out.filter (·.1 = x)).map Prod.snd

/-- **Exactly one process fails.**  However the two processes are scheduled, they stop after
at most 30 operations.  Then one of them was told of the deadlock, with its first byte
locked only, and exited with status 1; and the other one has locked both its bytes and exited
with status 0. -/
theorem exactly_one_fails {schedule : List Who}
    (hrun : program.run initState schedule = some s) : schedule.length ≤ 30 ∧
      ((∀ x, program.next s x = none) → ∃ x,
        (s.proc x).pc = .exited 1 ∧ s.lines x = [offset x .first] ∧
        (s.proc x.other).pc = .exited 0 ∧
        s.lines x.other = [offset x.other .first, offset x.other .second]) := by
  have hreach : program.Reach s := Machine.reach_of_run rfl hrun
  refine ⟨?_, fun hstuck => ?_⟩
  · exact Machine.Reach.length_run_le State.left (fun _ _ _ _ hs => left_step hs)
      (.start rfl) hrun
  · have hinv := inv_reach hreach
    have hprinted := printed_reach hreach
    obtain ⟨x, hlost, hwon⟩ := hinv.one_lost_of_stuck hstuck
    refine ⟨x, hlost, ?_, hwon, ?_⟩
    · rw [State.lines, hprinted x, hlost]
      rfl
    · rw [State.lines, hprinted x.other, hwon]
      rfl

end Steps

/-- A run to its end: the parent sleeps on byte 0, and the child fails. -/
theorem exactly_one_fails_child : ∃ s, program.run initState
      [.child, .child, .child, .parent, .parent, .parent, .parent, .parent, .parent, .parent, .parent,
        .child, .child, .child, .child, .child, .parent, .parent, .parent] = some s ∧
      ∃ x, (s.proc x).pc = .exited 1 ∧ s.lines x = [offset x .first] ∧
        (s.proc x.other).pc = .exited 0 ∧
        s.lines x.other = [offset x.other .first, offset x.other .second] := by
  have hend : (program.run initState
      [.child, .child, .child, .parent, .parent, .parent, .parent, .parent, .parent, .parent, .parent,
        .child, .child, .child, .child, .child, .parent, .parent, .parent]).map
        (fun s => ((program.next s .child).isNone, (program.next s .parent).isNone)) =
      some (true, true) := by
    decide +kernel
  obtain ⟨s, hs, hstuck⟩ := Option.map_eq_some_iff.mp hend
  obtain ⟨hchild, hparent⟩ := Prod.mk.inj hstuck
  refine ⟨s, hs, (exactly_one_fails hs).2 fun x => ?_⟩
  cases x
  · exact Option.isNone_iff_eq_none.mp hchild
  · exact Option.isNone_iff_eq_none.mp hparent

end Apue.FileDeadlock
