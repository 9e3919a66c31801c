/-
Apue/SigwaitThread.lean

A thread that waits for signals in place of handlers: `12/6_thread_handle_signal.cpp`.

`main` blocks SIGINT and SIGQUIT, creates the thread, and waits on a condition variable until
`quitflag` is set.  The thread takes the signals with `sigwait`; it prints a line for each
SIGINT, and at the first SIGQUIT it sets the flag, unlocks the mutex, signals the condition and
is done.  Then `main` sets the mask back and exits.

The signal on the condition comes after the mutex is unlocked, and `main` may come to its test
at any time; it never sleeps through the flag all the same (`quit_wakes`).  What can happen is
that the process does not exit with 0: whatever arrives after the thread has taken its SIGQUIT
stays pending, and kills the process when the mask is set back.

`sigwait` may take either of two pending signals, and `pthread_cond_wait` may return without
a cause.  The mask that is set back blocks neither signal.  Left out: failing calls.
-/
import Apue.Machine

namespace Apue.SigwaitThread

inductive Sig
  | int
  | quit
  deriving DecidableEq, Repr

inductive Who
  | main
  | thread
  deriving DecidableEq, Repr

/-- The next operation of `main`. -/
inductive MainPc
  | block                   -- pthread_sigmask(SIG_BLOCK, ..)
  | create
  | lock
  | test                    -- while (!quitflag)
  | asleep                  -- in pthread_cond_wait
  | woken                   -- about to lock the mutex again there
  | unlock
  | clear                   -- quitflag = 0
  | unmask                  -- sigprocmask(SIG_SETMASK, ..)
  | exit
  deriving DecidableEq, Repr

/-- The next operation of the thread. -/
inductive ThreadPc
  | absent
  | sigwait
  | took (g : Sig)          -- println
  | lock
  | set                     -- quitflag = true
  | unlock
  | signal                  -- pthread_cond_signal
  | done
  deriving DecidableEq, Repr

/-- How the process has ended. -/
inductive End
  | exited (status : ℕ)
  | killed (g : Sig)
  deriving DecidableEq, Repr

structure State where
  main : MainPc
  thread : ThreadPc
  owner : Option Who
  quitflag : Bool
  pending : Sig → Bool
  out : List Sig
  ended : Option End

inductive Act
  | main
  | thread
  /-- `sigwait` takes a signal -/
  | take (g : Sig)
  /-- somebody sends a signal to the process -/
  | send (g : Sig)
  /-- `pthread_cond_wait` returns without a cause -/
  | spurious
  deriving DecidableEq, Repr

def mainStep (s : State) : Option State :=
  match s.main with
  | .block => some { s with main := .create }
  | .create => some { s with main := .lock, thread := .sigwait }
  | .lock => if s.owner = none then some { s with main := .test, owner := some .main } else none
  | .test =>
      if s.quitflag then some { s with main := .unlock }
      else some { s with main := .asleep, owner := none }
  | .asleep => none
  | .woken => if s.owner = none then some { s with main := .test, owner := some .main } else none
  | .unlock => some { s with main := .clear, owner := none }
  | .clear => some { s with main := .unmask, quitflag := false }
  | .unmask =>
      if s.pending .int then some { s with ended := some (.killed .int) }
      else if s.pending .quit then some { s with ended := some (.killed .quit) }
      else some { s with main := .exit }
  | .exit => some { s with ended := some (.exited 0) }

def threadStep (s : State) : Option State :=
  match s.thread with
  | .absent | .sigwait | .done => none
  | .took .int => some { s with thread := .sigwait, out := s.out ++ [.int] }
  | .took .quit => some { s with thread := .lock, out := s.out ++ [.quit] }
  | .lock => if s.owner = none then some { s with thread := .set, owner := some .thread } else none
  | .set => some { s with thread := .unlock, quitflag := true }
  | .unlock => some { s with thread := .signal, owner := none }
  | .signal =>
      some { s with thread := .done, main := if s.main = .asleep then .woken else s.main }

/-- A signal that is blocked stays pending; otherwise it kills the process. -/
def MainPc.blocks : MainPc → Bool
  | .block | .exit => false
  | _ => true

/-- One step of a process that has not ended. -/
def live (s : State) : Act → Option State
  | .main => mainStep s
  | .thread => threadStep s
  | .take g =>
      if s.thread = .sigwait ∧ s.pending g = true then
        some { s with thread := .took g, pending := Function.update s.pending g false }
      else none
  | .send g =>
      if s.main.blocks then some { s with pending := Function.update s.pending g true }
      else some { s with ended := some (.killed g) }
  | .spurious => if s.main = .asleep then some { s with main := .woken } else none

def step (s : State) (a : Act) : Option State := if s.ended = none then live s a else none

def initState : State := ⟨.block, .absent, none, false, fun _ => false, [], none⟩

def program : Machine State Act where
  init s := s = initState
  next := step

/-! ### What every step keeps -/

def MainPc.holds : MainPc → Bool
  | .test | .unlock => true
  | _ => false

def ThreadPc.holds : ThreadPc → Bool
  | .set | .unlock => true
  | _ => false

/-- `main` has not created the thread yet. -/
def MainPc.alone : MainPc → Bool
  | .block | .create => true
  | _ => false

/-- `main` has seen the flag. -/
def MainPc.past : MainPc → Bool
  | .unlock | .clear | .unmask | .exit => true
  | _ => false

/-- The thread has printed its last line. -/
def ThreadPc.told : ThreadPc → Bool
  | .lock | .set | .unlock | .signal | .done => true
  | _ => false

/-- The thread has set the flag. -/
def ThreadPc.flagged : ThreadPc → Bool
  | .unlock | .signal | .done => true
  | _ => false

structure Inv (s : State) : Prop where
  mutexMain : s.owner = some .main ↔ s.main.holds = true
  mutexThread : s.owner = some .thread ↔ s.thread.holds = true
  created : s.thread = .absent ↔ s.main.alone = true
  /-- the flag is set from the time the thread sets it until `main` is past its loop -/
  flag : s.main.past = false → (s.quitflag = true ↔ s.thread.flagged = true)
  past : s.main.past = true → s.thread.flagged = true
  /-- nobody sleeps when the condition has been signalled -/
  awake : s.thread = .done → s.main ≠ .asleep
  out : ∃ k, s.out = List.replicate k .int ++ if s.thread.told then [.quit] else []
  exited : s.ended = some (.exited 0) → s.thread.told = true

section Steps

variable {s s' : State} {a : Act}

theorem told_of_flagged {p : ThreadPc} (h : p.flagged = true) : p.told = true := by
  cases p <;> first | rfl | cases h

theorem Inv.main_step (h : Inv s) (hrun : s.ended = none) (hs : mainStep s = some s') : Inv s' := by
  obtain ⟨main, thread, owner, quitflag, pending, out, ended⟩ := s
  obtain ⟨hmain, hthread, hcreated, hflag, hpast, hawake, hout, hexited⟩ := h
  dsimp only at hmain hthread hcreated hflag hpast hawake hout hexited hrun
  subst hrun
  cases main with
  | block =>
      obtain rfl := Option.some.inj hs
      exact ⟨hmain, hthread, hcreated, hflag, nofun, fun _ => nofun, hout, nofun⟩
  | create =>
      obtain rfl := hcreated.mpr rfl
      obtain rfl := Option.some.inj hs
      exact ⟨hmain, hthread, ⟨nofun, nofun⟩, hflag, nofun, nofun, hout, nofun⟩
  | lock =>
      obtain ⟨rfl, hs⟩ := Option.ite_none_right_eq_some.mp hs
      obtain rfl := Option.some.inj hs
      refine ⟨⟨fun _ => rfl, fun _ => rfl⟩, ⟨nofun, fun hholds => ?_⟩, hcreated, hflag, nofun,
        fun _ => nofun, hout, nofun⟩
      cases hthread.mpr hholds
  | test =>
      obtain rfl := hmain.mpr rfl
      cases quitflag with
      | true =>
          obtain rfl := Option.some.inj hs
          exact ⟨⟨fun _ => rfl, fun _ => rfl⟩, hthread, hcreated, nofun,
            fun _ => (hflag rfl).mp rfl, fun _ => nofun, hout, nofun⟩
      | false =>
          obtain rfl := Option.some.inj hs
          refine ⟨⟨nofun, nofun⟩, ⟨nofun, fun hholds => ?_⟩, hcreated, hflag, nofun,
            fun hdone => ?_, hout, nofun⟩
          · cases hthread.mpr hholds
          · -- the thread would have set the flag
            dsimp only at hdone
            subst hdone
            cases (hflag rfl).mpr rfl
  | asleep => cases hs
  | woken =>
      obtain ⟨rfl, hs⟩ := Option.ite_none_right_eq_some.mp hs
      obtain rfl := Option.some.inj hs
      refine ⟨⟨fun _ => rfl, fun _ => rfl⟩, ⟨nofun, fun hholds => ?_⟩, hcreated, hflag, nofun,
        fun _ => nofun, hout, nofun⟩
      cases hthread.mpr hholds
  | unlock =>
      obtain rfl := hmain.mpr rfl
      obtain rfl := Option.some.inj hs
      refine ⟨⟨nofun, nofun⟩, ⟨nofun, fun hholds => ?_⟩, hcreated, nofun, hpast, fun _ => nofun,
        hout, nofun⟩
      cases hthread.mpr hholds
  | clear =>
      obtain rfl := Option.some.inj hs
      exact ⟨hmain, hthread, hcreated, nofun, hpast, fun _ => nofun, hout, nofun⟩
  | unmask =>
      unfold mainStep at hs
      dsimp only at hs
      split at hs
      · obtain rfl := Option.some.inj hs
        exact ⟨hmain, hthread, hcreated, nofun, hpast, fun _ => nofun, hout, nofun⟩
      · split at hs
        · obtain rfl := Option.some.inj hs
          exact ⟨hmain, hthread, hcreated, nofun, hpast, fun _ => nofun, hout, nofun⟩
        · obtain rfl := Option.some.inj hs
          exact ⟨hmain, hthread, hcreated, nofun, hpast, fun _ => nofun, hout, nofun⟩
  | exit =>
      obtain rfl := Option.some.inj hs
      exact ⟨hmain, hthread, hcreated, nofun, hpast, fun _ => nofun, hout,
        fun _ => told_of_flagged (hpast rfl)⟩

theorem replicate_snoc_int (k : ℕ) :
    List.replicate k Sig.int ++ [.int] = List.replicate (k + 1) .int :=
  List.replicate_succ'.symm

theorem Inv.thread_step (h : Inv s) (hrun : s.ended = none) (hs : threadStep s = some s') :
    Inv s' := by
  obtain ⟨main, thread, owner, quitflag, pending, out, ended⟩ := s
  obtain ⟨hmain, hthread, hcreated, hflag, hpast, hawake, ⟨k, hout⟩, hexited⟩ := h
  dsimp only at hmain hthread hcreated hflag hpast hawake hout hexited hrun
  subst hrun
  have halone : thread ≠ .absent → main.alone = true → ∀ p : ThreadPc, p = .absent :=
    fun hne halone => absurd (hcreated.mpr halone) hne
  cases thread with
  | absent => cases hs
  | sigwait => cases hs
  | took g =>
      cases g with
      | int =>
          obtain rfl := Option.some.inj hs
          refine ⟨hmain, hthread, ⟨nofun, (halone nofun · _)⟩, hflag, hpast, nofun, ⟨k + 1, ?_⟩, nofun⟩
          simp [hout, ThreadPc.told, replicate_snoc_int]
      | quit =>
          obtain rfl := Option.some.inj hs
          refine ⟨hmain, hthread, ⟨nofun, (halone nofun · _)⟩, hflag, hpast, nofun, ⟨k, ?_⟩, nofun⟩
          simp [hout, ThreadPc.told]
  | lock =>
      obtain ⟨rfl, hs⟩ := Option.ite_none_right_eq_some.mp hs
      obtain rfl := Option.some.inj hs
      refine ⟨⟨nofun, fun hholds => ?_⟩, ⟨fun _ => rfl, fun _ => rfl⟩, ⟨nofun, (halone nofun · _)⟩, hflag,
        hpast, nofun, ⟨k, hout⟩, nofun⟩
      cases hmain.mpr hholds
  | set =>
      obtain rfl := hthread.mpr rfl
      obtain rfl := Option.some.inj hs
      exact ⟨hmain, ⟨fun _ => rfl, fun _ => rfl⟩, ⟨nofun, (halone nofun · _)⟩,
        fun _ => ⟨fun _ => rfl, fun _ => rfl⟩, fun _ => rfl, nofun, ⟨k, hout⟩, nofun⟩
  | unlock =>
      obtain rfl := hthread.mpr rfl
      obtain rfl := Option.some.inj hs
      refine ⟨⟨nofun, fun hholds => ?_⟩, ⟨nofun, nofun⟩, ⟨nofun, (halone nofun · _)⟩, hflag, hpast, nofun,
        ⟨k, hout⟩, nofun⟩
      cases hmain.mpr hholds
  | signal =>
      obtain rfl := Option.some.inj hs
      by_cases hasleep : main = .asleep
      · subst hasleep
        exact ⟨hmain, hthread, ⟨nofun, nofun⟩, hflag, nofun, fun _ => nofun, ⟨k, hout⟩, nofun⟩
      · dsimp only
        rw [if_neg hasleep]
        exact ⟨hmain, hthread, ⟨nofun, (halone nofun · _)⟩, hflag, hpast, fun _ => hasleep, ⟨k, hout⟩,
          nofun⟩
  | done => cases hs

theorem Inv.live_step (h : Inv s) (hrun : s.ended = none) (hs : live s a = some s') : Inv s' := by
  cases a with
  | main => exact h.main_step hrun hs
  | thread => exact h.thread_step hrun hs
  | take g =>
      obtain ⟨⟨hwait, -⟩, hs⟩ := Option.ite_none_right_eq_some.mp hs
      obtain rfl := Option.some.inj hs
      obtain ⟨hmain, hthread, hcreated, hflag, hpast, hawake, hout, hexited⟩ := h
      rw [hwait] at hthread hcreated hflag hpast hout
      refine ⟨hmain, hthread, ⟨nofun, fun halone => ?_⟩, hflag, hpast, nofun, hout, fun hend => ?_⟩
      · cases hcreated.mpr halone
      · dsimp only at hend
        rw [hrun] at hend
        cases hend
  | send g =>
      unfold live at hs
      dsimp only at hs
      split at hs
      · obtain rfl := Option.some.inj hs
        exact ⟨h.mutexMain, h.mutexThread, h.created, h.flag, h.past, h.awake, h.out, h.exited⟩
      · obtain rfl := Option.some.inj hs
        exact ⟨h.mutexMain, h.mutexThread, h.created, h.flag, h.past, h.awake, h.out, nofun⟩
  | spurious =>
      obtain ⟨hasleep, hs⟩ := Option.ite_none_right_eq_some.mp hs
      obtain rfl := Option.some.inj hs
      obtain ⟨hmain, hthread, hcreated, hflag, hpast, hawake, hout, hexited⟩ := h
      rw [hasleep] at hmain hcreated hflag
      exact ⟨hmain, hthread, hcreated, hflag, nofun, fun _ => nofun, hout, hexited⟩

theorem inv_step (h : Inv s) (hs : step s a = some s') : Inv s' := by
  obtain ⟨hrun, hs⟩ := Option.ite_none_right_eq_some.mp hs
  exact h.live_step hrun hs

theorem inv_reach (h : program.Reach s) : Inv s := by
  refine h.invariant (I := Inv) ?_ fun _ _ _ => inv_step
  rintro s rfl
  exact ⟨⟨nofun, nofun⟩, ⟨nofun, nofun⟩, ⟨fun _ => rfl, fun _ => rfl⟩, fun _ => ⟨nofun, nofun⟩,
    nofun, nofun, ⟨0, rfl⟩, nofun⟩

/-! ### Every run ends, but for what comes from outside -/

def MainPc.weight : MainPc → ℕ
  | .block => 9
  | .create => 8
  | .lock | .woken => 7
  | .test => 6
  | .asleep => 5
  | .unlock => 4
  | .clear => 3
  | .unmask => 2
  | .exit => 1

def ThreadPc.weight : ThreadPc → ℕ
  | .absent | .sigwait | .done => 0
  | .took .int => 1
  | .took .quit => 7
  | .lock => 6
  | .set => 5
  | .unlock => 4
  | .signal => 3

/-- The operations that are left, if nothing comes from outside. -/
def State.left (s : State) : ℕ :=
  if s.ended = none then s.main.weight + s.thread.weight +
    (if s.pending .int then 2 else 0) + (if s.pending .quit then 8 else 0)
  else 0

/-- The environment acts. -/
def Act.isEnv : Act → Bool
  | .send _ | .spurious => true
  | .main | .thread | .take _ => false

theorem left_mainStep (hrun : s.ended = none) (hs : mainStep s = some s') : s'.left < s.left := by
  obtain ⟨main, thread, owner, quitflag, pending, out, ended⟩ := s
  obtain rfl : ended = none := hrun
  cases main with
  | block => cases hs; simp [State.left, MainPc.weight]
  | create =>
      cases hs
      simp [State.left, MainPc.weight, ThreadPc.weight]
      omega
  | lock =>
      obtain ⟨-, hs⟩ := Option.ite_none_right_eq_some.mp hs
      cases hs
      simp [State.left, MainPc.weight]
  | test =>
      cases quitflag with
      | true => cases hs; simp [State.left, MainPc.weight]
      | false => cases hs; simp [State.left, MainPc.weight]
  | asleep => cases hs
  | woken =>
      obtain ⟨-, hs⟩ := Option.ite_none_right_eq_some.mp hs
      cases hs
      simp [State.left, MainPc.weight]
  | unlock => cases hs; simp [State.left, MainPc.weight]
  | clear => cases hs; simp [State.left, MainPc.weight]
  | unmask =>
      unfold mainStep at hs
      dsimp only at hs
      split at hs
      · cases hs; simp only [State.left, MainPc.weight, reduceIte, reduceCtorEq]; omega
      · split at hs
        · cases hs; simp only [State.left, MainPc.weight, reduceIte, reduceCtorEq]; omega
        · cases hs; simp [State.left, MainPc.weight]
  | exit => cases hs; simp only [State.left, MainPc.weight, reduceIte, reduceCtorEq]; omega

theorem left_threadStep (hrun : s.ended = none) (hs : threadStep s = some s') :
    s'.left < s.left := by
  obtain ⟨main, thread, owner, quitflag, pending, out, ended⟩ := s
  obtain rfl : ended = none := hrun
  cases thread with
  | absent => cases hs
  | sigwait => cases hs
  | took g => cases g <;> cases hs <;> simp [State.left, ThreadPc.weight]
  | lock =>
      obtain ⟨-, hs⟩ := Option.ite_none_right_eq_some.mp hs
      cases hs
      simp [State.left, ThreadPc.weight]
  | set => cases hs; simp [State.left, ThreadPc.weight]
  | unlock => cases hs; simp [State.left, ThreadPc.weight]
  | signal =>
      -- waking `main` costs two
      cases hs
      cases main <;> simp [State.left, ThreadPc.weight, MainPc.weight]
  | done => cases hs

theorem left_step (hs : step s a = some s') :
    s'.left + 1 ≤ s.left + if a.isEnv then 9 else 0 := by
  obtain ⟨hrun, hs⟩ := Option.ite_none_right_eq_some.mp hs
  cases a with
  | main => exact left_mainStep hrun hs
  | thread => exact left_threadStep hrun hs
  | take g =>
      obtain ⟨⟨hwait, hpending⟩, hs⟩ := Option.ite_none_right_eq_some.mp hs
      obtain rfl := Option.some.inj hs
      cases g <;>
        simp only [State.left, hrun, hwait, hpending, ThreadPc.weight, Act.isEnv, reduceIte,
          Function.update_self, ne_eq, reduceCtorEq, not_false_eq_true, Function.update_of_ne,
          Bool.false_eq_true] <;>
        omega
  | send g =>
      unfold live at hs
      dsimp only at hs
      split at hs
      · obtain rfl := Option.some.inj hs
        cases g
        · simp [State.left, hrun, Act.isEnv]
          omega
        · simp [State.left, hrun, Act.isEnv]
      · obtain rfl := Option.some.inj hs
        simp [State.left, hrun, Act.isEnv]
  | spurious =>
      obtain ⟨hasleep, hs⟩ := Option.ite_none_right_eq_some.mp hs
      obtain rfl := Option.some.inj hs
      simp [State.left, hrun, hasleep, MainPc.weight, Act.isEnv]
      omega

/-! ### Where the process can stop -/

theorem main_of_stuck (hmain : mainStep s = none) :
    s.main = .asleep ∨ (s.main = .lock ∨ s.main = .woken) ∧ s.owner ≠ none := by
  rcases hpc : s.main with _ | _ | _ | _ | _ | _ | _ | _ | _ | _
  all_goals simp only [mainStep, hpc] at hmain
  case asleep => exact .inl rfl
  case lock =>
    refine .inr ⟨.inl rfl, fun hfree => ?_⟩
    rw [if_pos hfree] at hmain
    cases hmain
  case woken =>
    refine .inr ⟨.inr rfl, fun hfree => ?_⟩
    rw [if_pos hfree] at hmain
    cases hmain
  case test => split at hmain <;> cases hmain
  case unmask =>
    split at hmain
    · cases hmain
    · split at hmain <;> cases hmain
  all_goals cases hmain

theorem thread_of_stuck (hthread : threadStep s = none) :
    s.thread = .absent ∨ s.thread = .sigwait ∨ s.thread = .done ∨
      s.thread = .lock ∧ s.owner ≠ none := by
  rcases hpc : s.thread with _ | _ | (_ | _) | _ | _ | _ | _ | _
  all_goals simp only [threadStep, hpc] at hthread
  case absent => exact .inl rfl
  case sigwait => exact .inr (.inl rfl)
  case done => exact .inr (.inr (.inl rfl))
  case lock =>
    refine .inr (.inr (.inr ⟨rfl, fun hfree => ?_⟩))
    rw [if_pos hfree] at hthread
    cases hthread
  all_goals cases hthread

/-- If neither goes on, both wait for a signal. -/
theorem Inv.waiting_of_stuck (h : Inv s) (hmain : mainStep s = none)
    (hthread : threadStep s = none) : s.main = .asleep ∧ s.thread = .sigwait := by
  have hfree : s.owner = none := by
    rcases howner : s.owner with _ | (_ | _)
    · rfl
    · -- `main` does not wait with the mutex locked
      have hholds := h.mutexMain.mp howner
      rcases main_of_stuck hmain with hpc | ⟨hpc | hpc, -⟩ <;> rw [hpc] at hholds <;> cases hholds
    · have hholds := h.mutexThread.mp howner
      rcases thread_of_stuck hthread with hpc | hpc | hpc | ⟨hpc, -⟩ <;> rw [hpc] at hholds <;>
        cases hholds
  have hasleep : s.main = .asleep :=
    (main_of_stuck hmain).resolve_right fun hwaits => hwaits.2 hfree
  refine ⟨hasleep, ?_⟩
  rcases thread_of_stuck hthread with hpc | hpc | hpc | ⟨-, hlocked⟩
  · have halone := h.created.mp hpc
    rw [hasleep] at halone
    cases halone
  · exact hpc
  · exact absurd hasleep (h.awake hpc)
  · exact absurd hfree hlocked

end Steps

/-- **SIGQUIT ends the program, and nothing else makes it exit.**  Whatever signals are sent and
however the threads are scheduled: the run is bounded by what comes from outside; when the
process has not ended and nothing is left to do, `main` and the thread both wait, no signal is
pending and no SIGQUIT was taken; and if the process has exited with 0, the thread has printed
its lines for SIGINT and one for SIGQUIT after them. -/
theorem quit_wakes {acts : List Act} {s : State} (hrun : program.run initState acts = some s) :
    acts.length ≤ 9 + 9 * acts.countP Act.isEnv ∧
      (s.ended = none → (∀ a, a.isEnv = false → program.next s a = none) →
        s.main = .asleep ∧ s.thread = .sigwait ∧ (∀ g, s.pending g = false) ∧
        ∃ k, s.out = List.replicate k .int) ∧
      (s.ended = some (.exited 0) → ∃ k, s.out = List.replicate k .int ++ [.quit]) := by
  have hinv := inv_reach (Machine.reach_of_run rfl hrun)
  refine ⟨?_, fun hend hstuck => ?_, fun hend => ?_⟩
  · have hlength := Machine.Reach.length_run_add_le State.left Act.isEnv 9
      (fun _ _ _ _ => left_step) (.start rfl) hrun
    have hinit : initState.left = 9 := by decide
    omega
  · have hlive : ∀ a, a.isEnv = false → live s a = none := by
      intro a ha
      have hnone : step s a = none := hstuck a ha
      rwa [step, if_pos hend] at hnone
    obtain ⟨hmain, hthread⟩ :=
      hinv.waiting_of_stuck (hlive .main rfl) (hlive .thread rfl)
    refine ⟨hmain, hthread, fun g => ?_, ?_⟩
    · refine eq_false_of_ne_true fun hpending => ?_
      have hnone := hlive (.take g) rfl
      rw [live, if_pos ⟨hthread, hpending⟩] at hnone
      cases hnone
    · obtain ⟨k, hk⟩ := hinv.out
      rw [hthread] at hk
      exact ⟨k, hk.trans (List.append_nil _)⟩
  · obtain ⟨k, hk⟩ := hinv.out
    rw [hinv.exited hend] at hk
    exact ⟨k, hk⟩

/-- A run to the exit: the flag is set before `main` has come to its test. -/
theorem quit_wakes_early : ∃ s, program.run initState
    [.main, .send .int, .main, .take .int, .thread, .send .quit, .take .quit, .thread, .thread,
      .thread, .thread, .main, .main, .main, .thread, .main, .main, .main] = some s ∧
      s.ended = some (.exited 0) ∧ ∃ k, s.out = List.replicate k .int ++ [.quit] := by
  have hrun : (program.run initState
      [.main, .send .int, .main, .take .int, .thread, .send .quit, .take .quit, .thread, .thread,
        .thread, .thread, .main, .main, .main, .thread, .main, .main, .main]).map State.ended =
      some (some (.exited 0)) := by
    decide
  obtain ⟨s, hs, hend⟩ := Option.map_eq_some_iff.mp hrun
  exact ⟨s, hs, hend, (quit_wakes hs).2.2 hend⟩

end Apue.SigwaitThread
