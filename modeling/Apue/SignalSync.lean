/-
Apue/SignalSync.lean

Two processes that take turns, synchronised by signals: the `TELL_`/`WAIT_`
functions of `lib/apue_ipc_signal.cpp`.

    leader:    for each round:  work;  TELL;  WAIT
    follower:  for each round:  WAIT;  work;  TELL

`SIGUSR1` and `SIGUSR2` are blocked since `TELL_WAIT_SIGNAL`, so a signal sent by
`kill` stays pending, at most once, until `sigsuspend` lets it in; the handler then
sets `sigflag`.  Each process gets only the one kind of signal its peer sends, so a
process has one pending bit.

What the processes do in their turns is a parameter (`Work`): a program with its own
program counter on data that both processes share.  The invariant (`Inv`) says where
the turn is; it is proved for every kind of work that keeps an assertion about the
shared data (`Work.Keeps`).

Left out: `TELL_DONE_SIGNAL`, which a process calls after its loop, and failing calls
of `sigprocmask` and `signal`.
-/
import Mathlib.Data.List.Range
import Mathlib.Logic.Function.Basic
import Apue.Machine

namespace Apue.SignalSync

/-! ### The processes -/

/-- The process that works first in each round, and its peer. -/
inductive Side
  | leader
  | follower
  deriving DecidableEq, Repr

/-- The peer. -/
def Side.other : Side → Side
  | .leader => .follower
  | .follower => .leader

/-- What a process does in its turn: its first operation in round `i`, and what an
operation does to the shared data.  The turn is over when there is no next one. -/
structure Work (D W A : Type*) where
  start : Side → ℕ → W
  step : Side → D → W → A → Option (D × Option W)

/-- The next operation of a process, in round `i`. -/
inductive Pc (W : Type*)
  | work (i : ℕ) (w : W)
  | tell (i : ℕ)      -- kill(pid, SIGUSR1) or kill(pid, SIGUSR2)
  | test (i : ℕ)      -- while (sigflag == 0)
  | suspend (i : ℕ)   -- sigsuspend(&zeromask)
  | clear (i : ℕ)     -- sigflag = 0
  | finished
  deriving DecidableEq, Repr

/-- A process: `sigflag` is its own since `fork`. -/
structure Proc (W : Type*) where
  pc : Pc W
  sigflag : Bool
  pending : Bool
  deriving DecidableEq, Repr

/-- A process at `p` that was told nothing. -/
def Proc.at {W : Type*} (p : Pc W) : Proc W := ⟨p, false, false⟩

/-- The two processes and what they share. -/
structure State (D W : Type*) where
  proc : Side → Proc W
  data : D
  /-- who worked, in order -/
  log : List Side

variable {D W A : Type*}

/-- Process `x` becomes `p`. -/
def State.set (s : State D W) (x : Side) (p : Proc W) : State D W :=
  { s with proc := Function.update s.proc x p }

/-- `kill`: the signal is pending at `x`, whether or not it was before. -/
def State.kill (s : State D W) (x : Side) : State D W :=
  s.set x { s.proc x with pending := true }

variable (work : Work D W A) (n : ℕ)

/-- The loop test `i < n` and the first operation of the loop body. -/
def enter (i : ℕ) : Side → Pc W
  | .leader => if i < n then .work i (work.start .leader i) else .finished
  | .follower => if i < n then .test i else .finished

/-- After `WAIT` in round `i`. -/
def afterWait (i : ℕ) : Side → Pc W
  | .leader => enter work n (i + 1) .leader
  | .follower => .work i (work.start .follower i)

/-- After `TELL` in round `i`. -/
def afterTell (i : ℕ) : Side → Pc W
  | .leader => .test i
  | .follower => enter work n (i + 1) .follower

/-- An operation of `TELL` or `WAIT` by process `x`. -/
def syncStep (s : State D W) (x : Side) : Option (State D W) :=
  match s.proc x with
  | ⟨.test i, f, p⟩ => some (s.set x ⟨if f then .clear i else .suspend i, f, p⟩)
  | ⟨.suspend i, _, true⟩ => some (s.set x ⟨.test i, true, false⟩)
  | ⟨.suspend _, _, false⟩ => none
  | ⟨.clear i, _, p⟩ => some (s.set x ⟨afterWait work n i x, false, p⟩)
  | ⟨.tell i, f, p⟩ => some ((s.set x ⟨afterTell work n i x, f, p⟩).kill x.other)
  | ⟨.work _ _, _, _⟩ => none
  | ⟨.finished, _, _⟩ => none

/-- An operation of process `x` in its turn. -/
def workStep (s : State D W) (x : Side) (a : A) : Option (State D W) :=
  match s.proc x with
  | ⟨.work i w, f, p⟩ =>
      (work.step x s.data w a).map fun
        | (d, some w') => { s.set x ⟨.work i w', f, p⟩ with data := d }
        | (d, none) => { s.set x ⟨.tell i, f, p⟩ with data := d, log := s.log ++ [x] }
  | _ => none

/-- What can happen next. -/
inductive Action (A : Type*)
  | sync (x : Side)
  | work (x : Side) (a : A)

/-- One step of one of the processes. -/
def next (s : State D W) : Action A → Option (State D W)
  | .sync x => syncStep work n s x
  | .work x a => workStep work s x a

/-- Both processes at the start of their loops. -/
def initState (d : D) : State D W where
  proc x := Proc.at (enter work n 0 x)
  data := d
  log := []

/-- `n` rounds, on shared data that is `d` at first. -/
def rounds (d : D) : Machine (State D W) (Action A) where
  init s := s = initState work n d
  next := next work n

/-! ### Whose turn it is -/

/-- Who works when `v` turns are over. -/
def turn (v : ℕ) : Side := if v % 2 = 0 then .leader else .follower

/-- The first `v` turns. -/
def turns (v : ℕ) : List Side := (List.range v).map turn

theorem turn_even (k : ℕ) : turn (2 * k) = .leader := by
  simp [turn]

theorem turn_odd (k : ℕ) : turn (2 * k + 1) = .follower := by
  simp [turn, Nat.add_mod]

theorem turns_succ (v : ℕ) : turns (v + 1) = turns v ++ [turn v] := by
  rw [turns, List.range_succ, List.map_append]
  rfl

@[simp] theorem length_turns (v : ℕ) : (turns v).length = v := by
  simp [turns]

/-- In `WAIT` of round `i`, not told yet. -/
inductive Waits (i : ℕ) : Proc W → Prop
  | test : Waits i (.at (.test i))
  | suspend : Waits i (.at (.suspend i))

/-- In `WAIT` of round `i`, told: the signal is pending or the handler has run. -/
inductive Told (i : ℕ) : Proc W → Prop
  | test : Told i ⟨.test i, false, true⟩
  | suspend : Told i ⟨.suspend i, false, true⟩
  | handled : Told i ⟨.test i, true, false⟩
  | clear : Told i ⟨.clear i, true, false⟩

/-- The follower between two rounds, not told yet, or past its last one. -/
def Parked (i : ℕ) (p : Proc W) : Prop := if i < n then Waits i p else p = .at .finished

variable (busy : ℕ → D → W → Prop) (rest : ℕ → D → Prop)

/-- Process `x` has turn number `v`, in round `i`. -/
inductive Works (v i : ℕ) (x : Side) (s : State D W) : Prop
  | work {w : W} : s.proc x = .at (.work i w) → busy v s.data w → s.log = turns v →
      Works v i x s
  | tell : s.proc x = .at (.tell i) → rest (v + 1) s.data → s.log = turns (v + 1) →
      Works v i x s

/-- **The invariant**: one process has the turn, or has just passed it on, while the
other one waits. -/
inductive Inv (s : State D W) : Prop
  | leaderWorks {k : ℕ} : k < n → Works busy rest (2 * k) k .leader s →
      Waits k (s.proc .follower) → Inv s
  | followerTold {k : ℕ} : k < n → Waits k (s.proc .leader) → Told k (s.proc .follower) →
      rest (2 * k + 1) s.data → s.log = turns (2 * k + 1) → Inv s
  | followerWorks {k : ℕ} : k < n → Waits k (s.proc .leader) →
      Works busy rest (2 * k + 1) k .follower s → Inv s
  | leaderTold {k : ℕ} : k < n → Told k (s.proc .leader) → Parked n (k + 1) (s.proc .follower) →
      rest (2 * (k + 1)) s.data → s.log = turns (2 * (k + 1)) → Inv s
  | finished : s.proc .leader = .at .finished → s.proc .follower = .at .finished →
      rest (2 * n) s.data → s.log = turns (2 * n) → Inv s

/-- What is asked of the work: with `v` turns over, `rest v` holds of the data between
turns and `busy v` during the next turn. -/
structure Work.Keeps (ok : A → Prop) : Prop where
  start : ∀ {v d}, v < 2 * n → rest v d → busy v d (work.start (turn v) (v / 2))
  step : ∀ {v d w a d' w'}, v < 2 * n → ok a → busy v d w →
    work.step (turn v) d w a = some (d', some w') → busy v d' w'
  done : ∀ {v d w a d'}, v < 2 * n → ok a → busy v d w →
    work.step (turn v) d w a = some (d', none) → rest (v + 1) d'

/-- The work never stops in the middle of a turn. -/
def Work.Live (ok : A → Prop) : Prop :=
  ∀ {v d w}, v < 2 * n → busy v d w → ∃ a r, ok a ∧ work.step (turn v) d w a = some r

/-! ### Steps of a process -/

variable {work n busy rest} {s s' : State D W} {x : Side} {i v k : ℕ} {a : A}

@[simp] theorem set_proc_self (s : State D W) (x : Side) (p : Proc W) :
    (s.set x p).proc x = p := Function.update_self ..

@[simp] theorem set_proc_other (s : State D W) (x : Side) (p : Proc W) :
    (s.set x p).proc x.other = s.proc x.other :=
  Function.update_of_ne (by cases x <;> nofun) ..

/-- In its turn. -/
def Pc.working : Pc W → Bool
  | .work _ _ => true
  | _ => false

theorem Waits.not_working {p : Proc W} (h : Waits i p) : p.pc.working = false := by
  cases h <;> rfl

theorem Told.not_working {p : Proc W} (h : Told i p) : p.pc.working = false := by
  cases h <;> rfl

/-- Only a process in its turn works. -/
theorem not_workStep (h : (s.proc x).pc.working = false) : workStep work s x a ≠ some s' := by
  unfold workStep
  generalize s.proc x = p at h
  obtain ⟨pc, f, b⟩ := p
  cases pc with
  | work i w => cases h
  | tell i | test i | suspend i | clear i | finished => nofun

/-- What a process in its turn does is decided by its work. -/
theorem workStep_eq (work : Work D W A) {w : W} {f p : Bool}
    (hp : s.proc x = ⟨.work i w, f, p⟩) (a : A) :
    (work.step x s.data w a = none → workStep work s x a = none) ∧
    (∀ d w', work.step x s.data w a = some (d, some w') →
      workStep work s x a = some { s.set x ⟨.work i w', f, p⟩ with data := d }) ∧
    (∀ d, work.step x s.data w a = some (d, none) → workStep work s x a =
      some { s.set x ⟨.tell i, f, p⟩ with data := d, log := s.log ++ [x] }) := by
  rw [workStep, hp]
  dsimp only
  refine ⟨fun hr => ?_, fun d w' hr => ?_, fun d hr => ?_⟩
  · rw [hr]
    rfl
  · rw [hr]
    rfl
  · rw [hr]
    rfl

theorem Waits.syncStep (h : Waits i (s.proc x)) (hs : syncStep work n s x = some s') :
    ∃ p, Waits i p ∧ s' = s.set x p := by
  generalize hp : s.proc x = p at h
  unfold SignalSync.syncStep at hs
  rw [hp] at hs
  cases h with
  | test => exact ⟨_, .suspend, (Option.some.inj hs).symm⟩
  | suspend => cases hs

theorem Told.syncStep (h : Told i (s.proc x)) (hs : syncStep work n s x = some s') :
    (∃ p, Told i p ∧ s' = s.set x p) ∨ s' = s.set x (.at (afterWait work n i x)) := by
  generalize hp : s.proc x = p at h
  unfold SignalSync.syncStep at hs
  rw [hp] at hs
  cases h with
  | test => exact .inl ⟨_, .suspend, (Option.some.inj hs).symm⟩
  | suspend => exact .inl ⟨_, .handled, (Option.some.inj hs).symm⟩
  | handled => exact .inl ⟨_, .clear, (Option.some.inj hs).symm⟩
  | clear => exact .inr (Option.some.inj hs).symm

/-- A process that was told can go on. -/
theorem Told.enabled (work : Work D W A) (n : ℕ) (h : Told i (s.proc x)) :
    ∃ s', SignalSync.syncStep work n s x = some s' := by
  generalize hp : s.proc x = p at h
  unfold SignalSync.syncStep
  rw [hp]
  cases h <;> exact ⟨_, rfl⟩

/-- `kill` reaches a process that waits. -/
theorem Waits.kill (h : Waits i (s.proc x)) : Told i ((s.kill x).proc x) := by
  generalize hp : s.proc x = p at h
  rw [State.kill, set_proc_self, hp]
  cases h with
  | test => exact .test
  | suspend => exact .suspend

theorem Works.syncStep (h : Works busy rest v i x s) (hs : syncStep work n s x = some s') :
    rest (v + 1) s.data ∧ s.log = turns (v + 1) ∧
      s' = (s.set x (.at (afterTell work n i x))).kill x.other := by
  unfold SignalSync.syncStep at hs
  cases h with
  | work hp _ _ =>
      rw [hp] at hs
      cases hs
  | tell hp hrest hlog =>
      rw [hp] at hs
      exact ⟨hrest, hlog, (Option.some.inj hs).symm⟩

variable {ok : A → Prop}

theorem Works.workStep (hk : work.Keeps n busy rest ok) (hv : v < 2 * n) (ha : ok a)
    (hx : turn v = x) (h : Works busy rest v i x s) (hs : workStep work s x a = some s') :
    Works busy rest v i x s' ∧ s'.proc x.other = s.proc x.other := by
  unfold SignalSync.workStep at hs
  cases h with
  | tell hp _ _ =>
      rw [hp] at hs
      cases hs
  | work hp hbusy hlog =>
      rw [hp] at hs
      obtain ⟨⟨d, w'⟩, hstep, rfl⟩ := Option.map_eq_some_iff.mp hs
      subst hx
      cases w' with
      | some w' =>
          exact ⟨.work (set_proc_self ..) (hk.step hv ha hbusy hstep) hlog, set_proc_other ..⟩
      | none =>
          refine ⟨.tell (set_proc_self ..) (hk.done hv ha hbusy hstep) ?_, set_proc_other ..⟩
          rw [turns_succ, ← hlog]

/-- A process in its turn can go on. -/
theorem Works.enabled (hl : work.Live n busy ok) (hv : v < 2 * n) (hx : turn v = x)
    (h : Works busy rest v i x s) :
    (∃ s', SignalSync.syncStep work n s x = some s') ∨
      ∃ a s', ok a ∧ SignalSync.workStep work s x a = some s' := by
  cases h with
  | tell hp _ _ =>
      refine .inl ⟨(s.set x (.at (afterTell work n i x))).kill x.other, ?_⟩
      unfold SignalSync.syncStep
      rw [hp]
      rfl
  | work hp hbusy _ =>
      obtain ⟨a, r, ha, hr⟩ := hl hv hbusy
      subst hx
      refine .inr ⟨a, (Option.isSome_iff_exists.mp ?_).imp fun _ hs' => ⟨ha, hs'⟩⟩
      unfold SignalSync.workStep
      rw [hp]
      show (Option.map _ (work.step (turn v) s.data _ a)).isSome
      rw [Option.isSome_map, hr]
      rfl

theorem Parked.syncStep (h : Parked n i (s.proc x)) (hs : SignalSync.syncStep work n s x = some s') :
    ∃ p, Parked n i p ∧ s' = s.set x p := by
  unfold Parked at h ⊢
  split at h
  case isTrue hi =>
      obtain ⟨p, hp, rfl⟩ := h.syncStep hs
      exact ⟨p, by rwa [if_pos hi], rfl⟩
  case isFalse hi =>
      unfold SignalSync.syncStep at hs
      rw [h] at hs
      cases hs

theorem Parked.not_working {p : Proc W} (h : Parked n i p) : p.pc.working = false := by
  unfold Parked at h
  split at h
  case isTrue => exact h.not_working
  case isFalse => rw [h]; rfl

/-- The follower, having told the leader, is parked at the next round. -/
theorem parked_afterTell (work : Work D W A) (n i : ℕ) :
    Parked n (i + 1) (.at (afterTell work n i .follower) : Proc W) := by
  unfold Parked afterTell enter
  split
  case isTrue => exact .test
  case isFalse => rfl

/-! ### The invariant -/

/-- The actions of the work that an assumption allows. -/
def Action.Ok (ok : A → Prop) : Action A → Prop
  | .sync _ => True
  | .work _ a => ok a

instance [DecidablePred ok] : DecidablePred (Action.Ok ok)
  | .sync _ => inferInstanceAs (Decidable True)
  | .work _ a => inferInstanceAs (Decidable (ok a))

theorem Keeps.start_even (hk : work.Keeps n busy rest ok) (h : k < n) {d : D}
    (hd : rest (2 * k) d) : busy (2 * k) d (work.start .leader k) := by
  have hstart := hk.start (v := 2 * k) (by omega) hd
  rwa [turn_even, Nat.mul_div_cancel_left k (by decide)] at hstart

theorem Keeps.start_odd (hk : work.Keeps n busy rest ok) (h : k < n) {d : D}
    (hd : rest (2 * k + 1) d) : busy (2 * k + 1) d (work.start .follower k) := by
  have hstart := hk.start (v := 2 * k + 1) (by omega) hd
  rwa [turn_odd, show (2 * k + 1) / 2 = k by omega] at hstart

/-- The leader enters round `k` while the follower is parked there. -/
theorem inv_enter (hk : work.Keeps n busy rest ok) (hkn : k ≤ n)
    (hl : s.proc .leader = .at (enter work n k .leader)) (hf : Parked n k (s.proc .follower))
    (hrest : rest (2 * k) s.data) (hlog : s.log = turns (2 * k)) : Inv n busy rest s := by
  unfold Parked at hf
  rw [enter] at hl
  split at hf
  case isTrue h =>
      rw [if_pos h] at hl
      exact .leaderWorks h (.work hl (Keeps.start_even hk h hrest) hlog) hf
  case isFalse h =>
      obtain rfl : k = n := by omega
      rw [if_neg h] at hl
      exact .finished hl hf hrest hlog

theorem inv_initState (hk : work.Keeps n busy rest ok) {d : D} (hd : rest 0 d) :
    Inv n busy rest (initState work n d) := by
  refine inv_enter hk (Nat.zero_le n) rfl ?_ hd rfl
  show Parked n 0 (.at (enter work n 0 .follower))
  unfold Parked enter
  split
  case isTrue => exact .test
  case isFalse => rfl

/-- Shared data and history are as before. -/
theorem Works.of_eq (h : Works busy rest v i x s) (hp : s'.proc x = s.proc x)
    (hd : s'.data = s.data) (hl : s'.log = s.log) : Works busy rest v i x s' := by
  cases h with
  | work hw hbusy hlog => exact .work (hp.trans hw) (hd ▸ hbusy) (hl.trans hlog)
  | tell hw hrest hlog => exact .tell (hp.trans hw) (hd ▸ hrest) (hl.trans hlog)

/-- **Every step keeps the invariant.** -/
theorem Inv.step (hk : work.Keeps n busy rest ok) (h : Inv n busy rest s) {a : Action A}
    (ha : a.Ok ok) (hs : next work n s a = some s') : Inv n busy rest s' := by
  cases h with
  | leaderWorks hkn hl hf =>
      match a with
      | .sync .leader =>
          obtain ⟨hrest, hlog, rfl⟩ := hl.syncStep hs
          refine .followerTold hkn ?_ (Waits.kill ?_) hrest hlog
          · exact .test
          · exact hf
      | .work .leader a =>
          obtain ⟨hl', hf'⟩ := hl.workStep hk (by omega) ha (turn_even _) hs
          exact .leaderWorks hkn hl' (hf' ▸ hf)
      | .sync .follower =>
          obtain ⟨p, hp, rfl⟩ := hf.syncStep hs
          exact .leaderWorks hkn (hl.of_eq rfl rfl rfl) hp
      | .work .follower a => exact absurd hs (not_workStep hf.not_working)
  | followerTold hkn hl hf hrest hlog =>
      match a with
      | .sync .leader =>
          obtain ⟨p, hp, rfl⟩ := hl.syncStep hs
          exact .followerTold hkn hp hf hrest hlog
      | .work .leader a => exact absurd hs (not_workStep hl.not_working)
      | .sync .follower =>
          obtain ⟨p, hp, rfl⟩ | rfl := hf.syncStep hs
          · exact .followerTold hkn hl hp hrest hlog
          · exact .followerWorks hkn hl (.work rfl (Keeps.start_odd hk hkn hrest) hlog)
      | .work .follower a => exact absurd hs (not_workStep hf.not_working)
  | followerWorks hkn hl hf =>
      match a with
      | .sync .leader =>
          obtain ⟨p, hp, rfl⟩ := hl.syncStep hs
          exact .followerWorks hkn hp (hf.of_eq rfl rfl rfl)
      | .work .leader a => exact absurd hs (not_workStep hl.not_working)
      | .sync .follower =>
          obtain ⟨hrest, hlog, rfl⟩ := hf.syncStep hs
          refine .leaderTold hkn (Waits.kill ?_) ?_ hrest hlog
          · exact hl
          · exact parked_afterTell work n _
      | .work .follower a =>
          obtain ⟨hf', hl'⟩ := hf.workStep hk (by omega) ha (turn_odd _) hs
          exact .followerWorks hkn (hl' ▸ hl) hf'
  | leaderTold hkn hl hf hrest hlog =>
      match a with
      | .sync .leader =>
          obtain ⟨p, hp, rfl⟩ | rfl := hl.syncStep hs
          · exact .leaderTold hkn hp hf hrest hlog
          · exact inv_enter hk hkn rfl hf hrest hlog
      | .work .leader a => exact absurd hs (not_workStep hl.not_working)
      | .sync .follower =>
          obtain ⟨p, hp, rfl⟩ := hf.syncStep hs
          exact .leaderTold hkn hl hp hrest hlog
      | .work .follower a => exact absurd hs (not_workStep hf.not_working)
  | finished hl hf hrest hlog =>
      have hend : ∀ x, s.proc x = .at .finished := fun x => by
        cases x
        · exact hl
        · exact hf
      match a with
      | .sync x =>
          change syncStep work n s x = some s' at hs
          unfold syncStep at hs
          rw [hend x] at hs
          cases hs
      | .work x a => exact absurd hs (not_workStep (by rw [hend x]; rfl))

/-! ### Consequences -/

/-- Both processes are never in their turns at once. -/
theorem Inv.exclusive (h : Inv n busy rest s) :
    ((s.proc .leader).pc.working && (s.proc .follower).pc.working) = false := by
  cases h with
  | leaderWorks _ _ hf => rw [hf.not_working, Bool.and_false]
  | followerTold _ hl _ _ _ => rw [hl.not_working, Bool.false_and]
  | followerWorks _ hl _ => rw [hl.not_working, Bool.false_and]
  | leaderTold _ hl _ _ _ => rw [hl.not_working, Bool.false_and]
  | finished hl _ _ _ => rw [hl]; rfl

/-- A process in its turn keeps the assertion about the shared data. -/
theorem Inv.busy_of_work (h : Inv n busy rest s) {w : W} (hx : (s.proc x).pc = .work i w) :
    ∃ v < 2 * n, busy v s.data w := by
  have hidle : (s.proc x).pc.working ≠ false := by
    rw [hx]
    nofun
  have hworks : ∀ {v k y}, v < 2 * n → Works busy rest v k y s →
      (s.proc y.other).pc.working = false → ∃ v < 2 * n, busy v s.data w := by
    intro v k y hv hw hother
    have hy : x = y := by
      rcases x with _ | _ <;> rcases y with _ | _ <;> first | rfl | exact absurd hother hidle
    subst hy
    cases hw with
    | work hp hbusy _ =>
        rw [hp] at hx
        cases hx
        exact ⟨v, hv, hbusy⟩
    | tell hp _ _ =>
        rw [hp] at hx
        cases hx
  have hquiet : ¬((s.proc .leader).pc.working = false ∧ (s.proc .follower).pc.working = false) := by
    rintro ⟨hl, hf⟩
    cases x
    exacts [hidle hl, hidle hf]
  cases h with
  | leaderWorks hkn hl hf => exact hworks (by omega) hl hf.not_working
  | followerTold _ hl hf _ _ => exact absurd ⟨hl.not_working, hf.not_working⟩ hquiet
  | followerWorks hkn hl hf => exact hworks (by omega) hf hl.not_working
  | leaderTold _ hl hf _ _ => exact absurd ⟨hl.not_working, hf.not_working⟩ hquiet
  | finished hl hf _ _ => exact absurd ⟨by rw [hl]; rfl, by rw [hf]; rfl⟩ hquiet

/-- The shared data are at rest, or in the hands of a process in its turn. -/
theorem Inv.rest_or_busy (h : Inv n busy rest s) :
    (∃ v, rest v s.data) ∨ ∃ v w, busy v s.data w := by
  have hworks : ∀ {v k y}, Works busy rest v k y s →
      (∃ v, rest v s.data) ∨ ∃ v w, busy v s.data w := by
    intro v k y hw
    cases hw with
    | work _ hbusy _ => exact .inr ⟨_, _, hbusy⟩
    | tell _ hrest _ => exact .inl ⟨_, hrest⟩
  cases h with
  | leaderWorks _ hl _ => exact hworks hl
  | followerTold _ _ _ hrest _ => exact .inl ⟨_, hrest⟩
  | followerWorks _ _ hf => exact hworks hf
  | leaderTold _ _ _ hrest _ => exact .inl ⟨_, hrest⟩
  | finished _ _ hrest _ => exact .inl ⟨_, hrest⟩

theorem Works.log_eq (h : Works busy rest v i x s) : ∃ m, s.log = turns m := by
  cases h with
  | work _ _ hlog => exact ⟨_, hlog⟩
  | tell _ _ hlog => exact ⟨_, hlog⟩

/-- The processes take turns. -/
theorem Inv.log_eq (h : Inv n busy rest s) : s.log = turns s.log.length := by
  have hturns : ∃ m, s.log = turns m := by
    cases h with
    | leaderWorks _ hl _ => exact hl.log_eq
    | followerTold _ _ _ _ hlog => exact ⟨_, hlog⟩
    | followerWorks _ _ hf => exact hf.log_eq
    | leaderTold _ _ _ _ hlog => exact ⟨_, hlog⟩
    | finished _ _ _ hlog => exact ⟨_, hlog⟩
  obtain ⟨m, hm⟩ := hturns
  rw [hm, length_turns]

/-- Both loops have finished. -/
def State.Finished (s : State D W) : Prop := ∀ x, (s.proc x).pc = .finished

/-- Some process can go on until both have finished. -/
theorem Inv.progress (hl : work.Live n busy ok) (h : Inv n busy rest s) (hs : ¬ s.Finished) :
    ∃ (a : Action A) (s' : State D W), a.Ok ok ∧ next work n s a = some s' := by
  have hworks : ∀ {v i x}, v < 2 * n → turn v = x → Works busy rest v i x s →
      ∃ (a : Action A) (s' : State D W), a.Ok ok ∧ next work n s a = some s' := by
    intro v i x hv hx hw
    obtain ⟨s', hs'⟩ | ⟨a, s', ha, hs'⟩ := hw.enabled hl hv hx
    · exact ⟨.sync x, s', trivial, hs'⟩
    · exact ⟨.work x a, s', ha, hs'⟩
  cases h with
  | leaderWorks hkn hw _ => exact hworks (by omega) (turn_even _) hw
  | followerTold _ _ hf _ _ =>
      obtain ⟨s', hs'⟩ := hf.enabled work n
      exact ⟨.sync .follower, s', trivial, hs'⟩
  | followerWorks hkn _ hw => exact hworks (by omega) (turn_odd _) hw
  | leaderTold _ ht _ _ _ =>
      obtain ⟨s', hs'⟩ := ht.enabled work n
      exact ⟨.sync .leader, s', trivial, hs'⟩
  | finished hl hf _ _ =>
      refine absurd (fun x => ?_) hs
      cases x
      · rw [hl]; rfl
      · rw [hf]; rfl

/-- When both loops have finished, each process has worked `n` times. -/
theorem Inv.of_finished (h : Inv n busy rest s) (hs : s.Finished) :
    rest (2 * n) s.data ∧ s.log = turns (2 * n) := by
  have hwaits : ∀ {x i}, ¬ Waits i (s.proc x) := by
    intro x i hw
    have hx := hs x
    generalize s.proc x = p at hw hx
    cases hw <;> cases hx
  have htold : ∀ {x i}, ¬ Told i (s.proc x) := by
    intro x i hw
    have hx := hs x
    generalize s.proc x = p at hw hx
    cases hw <;> cases hx
  cases h with
  | leaderWorks _ _ hf => exact absurd hf hwaits
  | followerTold _ hl _ _ _ => exact absurd hl hwaits
  | followerWorks _ hl _ => exact absurd hl hwaits
  | leaderTold _ hl _ _ _ => exact absurd hl htold
  | finished _ _ hrest hlog => exact ⟨hrest, hlog⟩

/-- **The invariant holds in every run.** -/
theorem inv_reach (hk : work.Keeps n busy rest fun _ => True) {d : D} (hd : rest 0 d)
    (h : (rounds work n d).Reach s) : Inv n busy rest s := by
  refine h.invariant (fun s hs => ?_) fun s a s' hi hs => hi.step hk ?_ hs
  · obtain rfl : s = initState work n d := hs
    exact inv_initState hk hd
  · cases a <;> trivial

/-- **The invariant holds in every run** whose work keeps to an assumption. -/
theorem inv_reach_restrict [DecidablePred ok] (hk : work.Keeps n busy rest ok) {d : D} (hd : rest 0 d)
    (h : ((rounds work n d).restrict fun _ a => a.Ok ok).Reach s) : Inv n busy rest s := by
  refine h.invariant (fun s hs => ?_) fun s a s' hi hs => ?_
  · obtain rfl : s = initState work n d := hs
    exact inv_initState hk hd
  · obtain ⟨ha, hs⟩ := Machine.restrict_next.mp hs
    exact hi.step hk ha hs

end Apue.SignalSync
