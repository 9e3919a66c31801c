/-
Apue/RetryTimeout.lean

A function that is called at a time to come, by a thread made for it:
`12/2_recursive_mutex.cpp`, with `makethread` of `lib/apue_proc_threads.cpp`.

`main` calls `timeout` with its mutex locked.  If the thread cannot be made, `timeout` calls
`retry` itself, which locks the mutex a second time: this is why the mutex is recursive.
Otherwise the thread waits for the time and calls `retry` then.  The record that `timeout`
passes to the thread is deleted by whoever has called `retry`, or by `timeout` just before.

Whether the thread is made or not, and however the two threads are scheduled, `retry` is called
once, the record is deleted once and not used afterwards, and nobody is left waiting for the
mutex (`retry_once`).

Time goes by in ticks.  Left out: a mutex that cannot be initialised, and signals that interrupt
`clock_nanosleep`.
-/
import Apue.Machine

namespace Apue.RetryTimeout

inductive Who
  | main
  | helper
  deriving DecidableEq, Repr

/-! ### The recursive mutex -/

/-- The owner, and how often it has locked the mutex. -/
abbrev Mutex := Option (Who × ℕ)

def Mutex.lock (m : Mutex) (w : Who) : Option Mutex :=
  match m with
  | none => some (some (w, 1))
  | some (o, depth) => if o = w then some (some (o, depth + 1)) else none

def Mutex.unlock (m : Mutex) (w : Who) : Mutex :=
  match m with
  | none => none
  | some (o, depth) => if o = w then if depth = 1 then none else some (o, depth - 1) else m

/-! ### The threads -/

/-- `struct to_info`; the function is always `retry`. -/
structure ToInfo where
  toArg : ℕ
  absoluteTime : ℕ
  deriving DecidableEq, Repr

/-- The memory of the record. -/
inductive Tip
  | unallocated
  | live (info : ToInfo)
  | freed
  deriving DecidableEq, Repr

/-- The next operation of the main thread. -/
inductive MainPc
  | lock
  | new                     -- when = now() + 2s; new to_info()
  | attrInit
  | setDetach
  | create
  | attrDestroy (err : Bool)
  | delete
  | retryLock
  | retryPrint
  | retryUnlock
  | unlock
  | done                    -- pthread_exit
  deriving DecidableEq, Repr

/-- The next operation of the thread. -/
inductive HelperPc
  | absent
  | println                 -- the two times
  | sleep                   -- clock_nanosleep
  | call                    -- (*tip->to_fn)(tip->to_arg)
  | retryLock (arg : ℕ)
  | retryPrint (arg : ℕ)
  | retryUnlock
  | delete
  | done
  deriving DecidableEq, Repr

structure State where
  main : MainPc
  helper : HelperPc
  mutex : Mutex
  tip : Tip
  /-- attributes that are initialised -/
  attrs : ℕ
  /-- the local variable of `main` -/
  whenVar : ℕ
  now : ℕ
  /-- what `retry` has printed, who called it and when -/
  out : List (Who × ℕ × ℕ)
  /-- the record was used or deleted when it was not there -/
  fault : Bool
  deriving DecidableEq, Repr

inductive Act
  /-- a call of the main thread, and whether it succeeds -/
  | main (ok : Bool)
  | helper
  | tick
  deriving DecidableEq, Repr

/-- `delete tip`. -/
def State.delete (s : State) : State :=
  match s.tip with
  | .live _ => { s with tip := .freed }
  | .unallocated | .freed => { s with fault := true }

/-- A use of the record. -/
def State.deref (s : State) (k : ToInfo → Option State) : Option State :=
  match s.tip with
  | .live info => k info
  | .unallocated | .freed => some { s with fault := true }

def mainStep (arg delay : ℕ) (s : State) (ok : Bool) : Option State :=
  match s.main with
  | .lock => (s.mutex.lock .main).map fun m => { s with main := .new, mutex := m }
  | .new =>
      some { s with main := .attrInit, whenVar := s.now + delay, tip := .live ⟨arg, s.now + delay⟩ }
  | .attrInit =>
      if ok then some { s with main := .setDetach, attrs := s.attrs + 1 }
      else some { s with main := .delete }
  | .setDetach => some { s with main := if ok then .create else .attrDestroy true }
  | .create =>
      if ok then some { s with main := .attrDestroy false, helper := .println }
      else some { s with main := .attrDestroy true }
  | .attrDestroy err =>
      some { s with main := if err then .delete else .unlock, attrs := s.attrs - 1 }
  | .delete => some { s.delete with main := .retryLock }
  | .retryLock => (s.mutex.lock .main).map fun m => { s with main := .retryPrint, mutex := m }
  | .retryPrint => some { s with main := .retryUnlock, out := s.out ++ [(.main, arg, s.now)] }
  | .retryUnlock => some { s with main := .unlock, mutex := s.mutex.unlock .main }
  | .unlock => some { s with main := .done, mutex := s.mutex.unlock .main }
  | .done => none

def helperStep (s : State) : Option State :=
  match s.helper with
  | .absent | .done => none
  | .println => s.deref fun _ => some { s with helper := .sleep }
  | .sleep => s.deref fun info =>
      if info.absoluteTime ≤ s.now then some { s with helper := .call } else none
  | .call => s.deref fun info => some { s with helper := .retryLock info.toArg }
  | .retryLock a =>
      (s.mutex.lock .helper).map fun m => { s with helper := .retryPrint a, mutex := m }
  | .retryPrint a =>
      some { s with helper := .retryUnlock, out := s.out ++ [(.helper, a, s.now)] }
  | .retryUnlock => some { s with helper := .delete, mutex := s.mutex.unlock .helper }
  | .delete => some { s.delete with helper := .done }

def step (arg delay : ℕ) (s : State) : Act → Option State
  | .main ok => mainStep arg delay s ok
  | .helper => helperStep s
  | .tick => some { s with now := s.now + 1 }

def initState (now : ℕ) : State :=
  ⟨.lock, .absent, none, .unallocated, 0, 0, now, [], false⟩

/-- The program, started at some time; its own argument is 1 and its delay two seconds. -/
def program (arg delay : ℕ) : Machine State Act where
  init s := ∃ now, s = initState now
  next := step arg delay

/-! ### What every step keeps -/

/-- Where the main thread is in `timeout`, before the thread is there, and the attributes it has
initialised. -/
inductive Making : MainPc → ℕ → Prop
  | attrInit : Making .attrInit 0
  | setDetach : Making .setDetach 1
  | create : Making .create 1
  | attrDestroy : Making (.attrDestroy true) 1
  | delete : Making .delete 0

/-- Where it is when there is no thread, and how often `retry` has printed. -/
inductive Failed : MainPc → Mutex → ℕ → Prop
  | retryLock : Failed .retryLock (some (.main, 1)) 0
  | retryPrint : Failed .retryPrint (some (.main, 2)) 0
  | retryUnlock : Failed .retryUnlock (some (.main, 2)) 1
  | unlock : Failed .unlock (some (.main, 1)) 1
  | done : Failed .done none 1

/-- Where it is when the thread is there. -/
inductive Created : MainPc → ℕ → Prop
  | attrDestroy : Created (.attrDestroy false) 1
  | unlock : Created .unlock 0
  | done : Created .done 0

/-- The thread has the mutex. -/
def HelperPc.holds : HelperPc → Bool
  | .retryPrint _ | .retryUnlock => true
  | _ => false

/-- The thread before its `retry` prints, and whether it has waited. -/
inductive Waiting (arg : ℕ) : HelperPc → Bool → Prop
  | println : Waiting arg .println false
  | sleep : Waiting arg .sleep false
  | call : Waiting arg .call true
  | retryLock : Waiting arg (.retryLock arg) true
  | retryPrint : Waiting arg (.retryPrint arg) true

/-- The mutex when both threads are there. -/
def mutexOf (main : MainPc) (helper : HelperPc) : Mutex :=
  if main ≠ .done then some (.main, 1) else if helper.holds then some (.helper, 1) else none

inductive Inv (arg : ℕ) : State → Prop
  | lock {w now : ℕ} : Inv arg ⟨.lock, .absent, none, .unallocated, 0, w, now, [], false⟩
  | new {w now : ℕ} :
      Inv arg ⟨.new, .absent, some (.main, 1), .unallocated, 0, w, now, [], false⟩
  | making {m : MainPc} {k w now : ℕ} : Making m k →
      Inv arg ⟨m, .absent, some (.main, 1), .live ⟨arg, w⟩, k, w, now, [], false⟩
  | failed {m : MainPc} {x : Mutex} {k w t now : ℕ} : Failed m x k →
      Inv arg ⟨m, .absent, x, .freed, 0, w, now, List.replicate k (.main, arg, t), false⟩
  | waiting {m : MainPc} {h : HelperPc} {b : Bool} {k w now : ℕ} : Created m k → Waiting arg h b →
      (h.holds = true → m = .done) → (b = true → w ≤ now) →
      Inv arg ⟨m, h, mutexOf m h, .live ⟨arg, w⟩, k, w, now, [], false⟩
  | printed {m : MainPc} {h : HelperPc} {k w t now : ℕ} : Created m k →
      h = .retryUnlock ∨ h = .delete → m = .done → w ≤ t →
      Inv arg ⟨m, h, mutexOf m h, .live ⟨arg, w⟩, k, w, now, [(.helper, arg, t)], false⟩
  | ended {m : MainPc} {k w t now : ℕ} : Created m k → m = .done → w ≤ t →
      Inv arg ⟨m, .done, none, .freed, k, w, now, [(.helper, arg, t)], false⟩

section Steps

variable {arg delay : ℕ} {s s' : State} {ok : Bool}

theorem Inv.main_step (h : Inv arg s) (hs : mainStep arg delay s ok = some s') : Inv arg s' := by
  cases h with
  | lock => cases hs; exact .new
  | new => cases hs; exact .making .attrInit
  | making hm =>
      cases hm with
      | attrInit =>
          cases ok with
          | true => cases hs; exact .making .setDetach
          | false => cases hs; exact .making .delete
      | setDetach =>
          cases ok with
          | true => cases hs; exact .making .create
          | false => cases hs; exact .making .attrDestroy
      | create =>
          cases ok with
          | true => cases hs; exact .waiting .attrDestroy .println nofun nofun
          | false => cases hs; exact .making .attrDestroy
      | attrDestroy => cases hs; exact .making .delete
      | delete => cases hs; exact .failed (t := 0) .retryLock
  | failed hm =>
      cases hm with
      | retryLock => cases hs; exact .failed (t := 0) .retryPrint
      | retryPrint => cases hs; exact .failed .retryUnlock
      | retryUnlock => cases hs; exact .failed .unlock
      | unlock => cases hs; exact .failed .done
      | done => cases hs
  | waiting hm hh hholds hw =>
      cases hm with
      | attrDestroy =>
          cases hs
          exact .waiting .unlock hh (fun hb => nomatch hholds hb) hw
      | unlock =>
          cases hs
          -- the thread was not inside
          have hout : HelperPc.holds _ = false := eq_false_of_ne_true fun hb => nomatch hholds hb
          have hinv := Inv.waiting .done hh (fun _ => rfl) hw
          rw [mutexOf, if_neg (not_not_intro rfl), hout] at hinv
          exact hinv
      | done => cases hs
  | printed _ _ hdone => subst hdone; cases hs
  | ended _ hdone => subst hdone; cases hs

theorem Inv.helper_step (h : Inv arg s) (hs : helperStep s = some s') : Inv arg s' := by
  cases h with
  | lock => cases hs
  | new => cases hs
  | making => cases hs
  | failed => cases hs
  | waiting hm hh hholds hw =>
      cases hh with
      | println => cases hs; exact .waiting hm .sleep nofun nofun
      | sleep =>
          obtain ⟨hle, hs⟩ := Option.ite_none_right_eq_some.mp hs
          cases hs
          exact .waiting hm .call nofun fun _ => hle
      | call => cases hs; exact .waiting hm .retryLock nofun hw
      | retryLock =>
          cases hm with
          | attrDestroy => cases hs
          | unlock => cases hs
          | done => cases hs; exact .waiting .done .retryPrint (fun _ => rfl) hw
      | retryPrint =>
          obtain rfl := hholds rfl
          cases hs
          exact .printed hm (.inl rfl) rfl (hw rfl)
  | printed hm hh hdone hw =>
      subst hdone
      rcases hh with rfl | rfl
      · cases hs; exact .printed hm (.inr rfl) rfl hw
      · cases hs; exact .ended hm rfl hw
  | ended => cases hs

theorem Inv.tick (h : Inv arg s) : Inv arg { s with now := s.now + 1 } := by
  cases h with
  | lock => exact .lock
  | new => exact .new
  | making hm => exact .making hm
  | failed hm => exact .failed hm
  | waiting hm hh hholds hw => exact .waiting hm hh hholds fun hb => Nat.le_succ_of_le (hw hb)
  | printed hm hh hdone hw => exact .printed hm hh hdone hw
  | ended hm hdone hw => exact .ended hm hdone hw

theorem inv_reach (h : (program arg delay).Reach s) : Inv arg s := by
  refine h.invariant (I := Inv arg) ?_ fun s a s' hinv hs => ?_
  · rintro s ⟨now, rfl⟩
    exact .lock
  · cases a with
    | main ok => exact hinv.main_step hs
    | helper => exact hinv.helper_step hs
    | tick =>
        obtain rfl := Option.some.inj hs
        exact hinv.tick

/-! ### Every run ends -/

def MainPc.weight : MainPc → ℕ
  | .lock => 14
  | .new => 13
  | .attrInit => 12
  | .setDetach => 11
  | .create => 10
  | .attrDestroy true => 6
  | .attrDestroy false => 2
  | .delete => 5
  | .retryLock => 4
  | .retryPrint => 3
  | .retryUnlock => 2
  | .unlock => 1
  | .done => 0

def HelperPc.weight : HelperPc → ℕ
  | .absent | .done => 0
  | .println => 7
  | .sleep => 6
  | .call => 5
  | .retryLock _ => 4
  | .retryPrint _ => 3
  | .retryUnlock => 2
  | .delete => 1

/-- The operations that are left. -/
def State.left (s : State) : ℕ := s.main.weight + s.helper.weight

theorem Inv.left_main (h : Inv arg s) (hs : mainStep arg delay s ok = some s') :
    s'.left < s.left := by
  cases h with
  | lock => cases hs; simp [State.left, MainPc.weight]
  | new => cases hs; simp [State.left, MainPc.weight]
  | making hm =>
      cases hm with
      | attrInit => cases ok <;> cases hs <;> simp [State.left, MainPc.weight]
      | setDetach => cases ok <;> cases hs <;> simp [State.left, MainPc.weight]
      | create => cases ok <;> cases hs <;> simp [State.left, MainPc.weight, HelperPc.weight]
      | attrDestroy => cases hs; simp [State.left, MainPc.weight]
      | delete => cases hs; simp [State.left, State.delete, MainPc.weight]
  | failed hm => cases hm <;> cases hs <;> simp [State.left, MainPc.weight]
  | waiting hm => cases hm <;> cases hs <;> simp [State.left, MainPc.weight]
  | printed _ _ hdone => subst hdone; cases hs
  | ended _ hdone => subst hdone; cases hs

theorem Inv.left_helper (h : Inv arg s) (hs : helperStep s = some s') : s'.left < s.left := by
  cases h with
  | lock => cases hs
  | new => cases hs
  | making => cases hs
  | failed => cases hs
  | waiting hm hh hholds =>
      cases hh with
      | println => cases hs; simp [State.left, HelperPc.weight]
      | sleep =>
          obtain ⟨-, hs⟩ := Option.ite_none_right_eq_some.mp hs
          cases hs
          simp [State.left, HelperPc.weight]
      | call => cases hs; simp [State.left, HelperPc.weight]
      | retryLock => cases hm <;> cases hs; simp [State.left, HelperPc.weight]
      | retryPrint => cases hs; simp [State.left, HelperPc.weight]
  | printed _ hh hdone =>
      subst hdone
      rcases hh with rfl | rfl <;> cases hs <;> simp [State.left, State.delete, HelperPc.weight]
  | ended => cases hs

/-- Time goes by. -/
def Act.isTick (a : Act) : Bool := a = .tick

theorem left_step {a : Act} (h : (program arg delay).Reach s)
    (hs : (program arg delay).next s a = some s') :
    s'.left + 1 ≤ s.left + if a.isTick then 1 else 0 := by
  cases a with
  | main ok => exact (inv_reach h).left_main hs
  | helper => exact (inv_reach h).left_helper hs
  | tick =>
      obtain rfl := Option.some.inj hs
      exact Nat.le_refl _

/-! ### Where the threads can stop -/

/-- The main thread never waits. -/
theorem Inv.main_done (h : Inv arg s) (hstuck : mainStep arg delay s true = none) :
    s.main = .done := by
  cases h with
  | lock => cases hstuck
  | new => cases hstuck
  | making hm => cases hm <;> cases hstuck
  | failed hm =>
      cases hm with
      | done => rfl
      | _ => cases hstuck
  | waiting hm =>
      cases hm with
      | done => rfl
      | _ => cases hstuck
  | printed _ _ hdone => exact hdone
  | ended _ hdone => exact hdone

end Steps

/-- What the end looks like: `retry` was called once, by the main thread if there is no other
one, and otherwise by that, and not before its time. -/
structure Over (arg : ℕ) (s : State) : Prop where
  main : s.main = .done
  mutex : s.mutex = none
  tip : s.tip = .freed
  attrs : s.attrs = 0
  called : ∃ t, (s.helper = .absent ∧ s.out = [(.main, arg, t)]) ∨
    (s.helper = .done ∧ s.whenVar ≤ t ∧ s.out = [(.helper, arg, t)])

/-- **`retry` is called exactly once.**  Whatever calls of `makethread` fail and however the
threads are scheduled, the run is bounded by the time it takes; the record is never used or
deleted when it is not there; and when nobody goes on, either the thread sleeps until its time
or all is over. -/
theorem retry_once {arg delay now : ℕ} {acts : List Act} {s : State}
    (hrun : (program arg delay).run (initState now) acts = some s) :
    acts.length ≤ 14 + acts.countP Act.isTick ∧ s.fault = false ∧
      ((∀ a, a ≠ .tick → (program arg delay).next s a = none) →
        (s.main = .done ∧ s.helper = .sleep ∧ s.now < s.whenVar ∧ s.out = []) ∨ Over arg s) := by
  have hinv := inv_reach (Machine.reach_of_run ⟨now, rfl⟩ hrun)
  refine ⟨?_, ?_, fun hstuck => ?_⟩
  · have hlength := Machine.Reach.length_run_add_le State.left Act.isTick 1
      (fun _ _ _ => left_step) (.start ⟨now, rfl⟩) hrun
    have hinit : (initState now).left = 14 := rfl
    omega
  · cases hinv <;> rfl
  · have hdone := hinv.main_done (hstuck (.main true) nofun)
    have hhelper : helperStep s = none := hstuck .helper nofun
    cases hinv with
    | lock => cases hdone
    | new => cases hdone
    | making hm => cases hm <;> cases hdone
    | @failed m x k w t now hm =>
        cases hm with
        | done => exact .inr ⟨rfl, rfl, rfl, rfl, t, .inl ⟨rfl, rfl⟩⟩
        | _ => cases hdone
    | @waiting m h b k w now hm hh =>
        obtain rfl : m = .done := hdone
        cases hh with
        | sleep =>
            refine .inl ⟨rfl, rfl, Nat.lt_of_not_ge fun hle => ?_, rfl⟩
            change (if w ≤ now then some _ else none) = none at hhelper
            rw [if_pos hle] at hhelper
            cases hhelper
        | _ => cases hhelper
    | printed _ hh =>
        rcases hh with rfl | rfl <;> cases hhelper
    | @ended m k w t now hm hmain hle =>
        subst hmain
        cases hm
        exact .inr ⟨rfl, rfl, rfl, rfl, t, .inr ⟨rfl, hle, rfl⟩⟩

/-- The thread cannot be created: `timeout` calls `retry` with the mutex locked. -/
theorem retry_once_failed : ∃ s, (program 1 2).run (initState 0)
    [.main true, .main true, .main true, .main true, .main false, .main true, .main true,
      .main true, .tick, .main true, .main true, .main true] = some s ∧
      s.out = [(.main, 1, 1)] ∧ Over 1 s := by
  have hrun : (program 1 2).run (initState 0)
      [.main true, .main true, .main true, .main true, .main false, .main true, .main true,
        .main true, .tick, .main true, .main true, .main true] =
      some ⟨.done, .absent, none, .freed, 0, 2, 1, [(.main, 1, 1)], false⟩ := by
    decide
  refine ⟨_, hrun, rfl, ((retry_once hrun).2.2 fun a ha => ?_).resolve_left fun hsleep => ?_⟩
  · cases a with
    | main ok => rfl
    | helper => rfl
    | tick => exact absurd rfl ha
  · exact nomatch hsleep.2.1

end Apue.RetryTimeout
