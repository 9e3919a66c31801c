/-
Apue/CustomSleep.lean

Two implementations of `sleep` with `alarm` and `pause`: `10/4_custom_sleep1.cpp` and
`10/5_custom_sleep2.cpp`.

`sleep1` installs a handler that does nothing, sets the alarm and pauses.  If the alarm goes off
before the process has come to `pause`, nothing is left that would wake it: exactly then it
hangs, and this can happen for every number of seconds (`sleep1_hangs_iff`).

`sleep2` jumps out of the handler instead, behind the `pause`, so that it does not matter where
the process was.  It never waits without an alarm (`sleep2_waits_for_alarm`).  The price is that
the jump also leaves any other handler that has just been at work: in the program, whose handler
for SIGINT works as long as `sleep2` sleeps, no interrupt ever shortens the sleep
(`sleep2_sleeps`).

Time goes by in ticks; a handler is entered at the moment its signal is delivered.  After the jump
the signals of the handlers that were left stay blocked, as `longjmp` does not set the mask back.
-/
import Apue.Machine

namespace Apue.CustomSleep

/-- When the alarm goes off, if it is set. -/
abbrev Alarm := Option ℕ

/-- `alarm(seconds)`: the new alarm. -/
def setAlarm (now seconds : ℕ) : Alarm := if seconds = 0 then none else some (now + seconds)

/-- What `alarm` returns. -/
def Alarm.left (a : Alarm) (now : ℕ) : ℕ :=
  match a with
  | none => 0
  | some e => e - now

/-! ### `sleep1` -/

namespace Sleep1

/-- The next operation. -/
inductive Pc
  | signal
  | alarm
  | pause
  | paused                  -- in `pause`
  | cancel                  -- return(alarm(0))
  | returned (unslept : ℕ)
  deriving DecidableEq, Repr

structure State where
  pc : Pc
  alarm : Alarm
  now : ℕ
  deriving DecidableEq, Repr

inductive Act
  /-- the next operation, and whether `signal` succeeds -/
  | run (ok : Bool)
  | tick
  /-- another signal is caught by the program -/
  | caught
  deriving DecidableEq, Repr

/-- A handler has returned, and with it `pause`. -/
def Pc.wake : Pc → Pc
  | .paused => .cancel
  | p => p

def runStep (seconds : ℕ) (s : State) (ok : Bool) : Option State :=
  match s.pc with
  | .signal => some { s with pc := if ok then .alarm else .returned seconds }
  | .alarm => some { s with pc := .pause, alarm := setAlarm s.now seconds }
  | .pause => some { s with pc := .paused }
  | .paused => none
  | .cancel => some { s with pc := .returned (s.alarm.left s.now), alarm := none }
  | .returned _ => none

def step (seconds : ℕ) (s : State) : Act → Option State
  | .run ok => runStep seconds s ok
  | .tick =>
      if s.alarm = some (s.now + 1) then some ⟨s.pc.wake, none, s.now + 1⟩
      else some { s with now := s.now + 1 }
  | .caught => some { s with pc := s.pc.wake }

/-- A call of `sleep1`, with no alarm set before. -/
def sleep1 (seconds : ℕ) : Machine State Act where
  init s := s = ⟨.signal, none, 0⟩
  next := step seconds

/-- The process waits, or is about to, and there is no alarm, or none will be set. -/
def State.Lost (seconds : ℕ) (s : State) : Prop :=
  (s.pc = .pause ∨ s.pc = .paused) ∧ s.alarm = none ∨ s.pc = .alarm ∧ s.alarm = none ∧ seconds = 0

def State.Returned (s : State) : Prop := ∃ unslept, s.pc = .returned unslept

section Steps

variable {seconds : ℕ} {s s' : State}

/-- Without another signal, a process that is lost stays so. -/
theorem Lost.step {a : Act} (h : s.Lost seconds) (ha : a ≠ .caught)
    (hs : step seconds s a = some s') : s'.Lost seconds := by
  obtain ⟨pc, alarm, now⟩ := s
  rcases h with ⟨hpc, halarm⟩ | ⟨hpc, halarm, hzero⟩
  all_goals
    dsimp only at hpc halarm
    subst halarm
  · cases a with
    | run ok =>
        rcases hpc with rfl | rfl
        · obtain rfl := Option.some.inj hs
          exact .inl ⟨.inr rfl, rfl⟩
        · cases hs
    | tick =>
        obtain rfl := Option.some.inj hs
        exact .inl ⟨hpc, rfl⟩
    | caught => exact absurd rfl ha
  · subst hpc
    cases a with
    | run ok =>
        obtain rfl := Option.some.inj hs
        exact .inl ⟨.inl rfl, if_pos hzero⟩
    | tick =>
        obtain rfl := Option.some.inj hs
        exact .inr ⟨rfl, rfl, hzero⟩
    | caught => exact absurd rfl ha

theorem Lost.run {acts : List Act} : ∀ {s s' : State}, s.Lost seconds →
    (∀ a ∈ acts, a ≠ .caught) → (sleep1 seconds).run s acts = some s' → s'.Lost seconds := by
  induction acts with
  | nil =>
      intro s s' h _ hrun
      obtain rfl := Option.some.inj hrun
      exact h
  | cons a acts ih =>
      intro s s' h hacts hrun
      obtain ⟨s₁, hs₁, hrest⟩ := Option.bind_eq_some_iff.mp hrun
      exact ih (Lost.step h (hacts a List.mem_cons_self) hs₁)
        (fun b hb => hacts b (List.mem_cons_of_mem a hb)) hrest

/-- The alarm is ahead. -/
structure Inv (s : State) : Prop where
  ahead : ∀ e, s.alarm = some e → s.now < e
  early : s.pc = .signal ∨ s.pc = .alarm → s.alarm = none

theorem setAlarm_ahead {now seconds e : ℕ} (h : setAlarm now seconds = some e) : now < e := by
  unfold setAlarm at h
  split at h
  · cases h
  · obtain rfl := Option.some.inj h
    omega

theorem Inv.run_step {ok : Bool} (h : Inv s) (hs : runStep seconds s ok = some s') : Inv s' := by
  obtain ⟨pc, alarm, now⟩ := s
  obtain ⟨hahead, hearly⟩ := h
  dsimp only at hahead hearly
  cases pc with
  | signal =>
      cases hs
      exact ⟨hahead, fun _ => hearly (.inl rfl)⟩
  | alarm => cases hs; exact ⟨fun e => setAlarm_ahead, by rintro (h | h) <;> cases h⟩
  | pause => cases hs; exact ⟨hahead, by rintro (h | h) <;> cases h⟩
  | paused => cases hs
  | cancel => cases hs; exact ⟨nofun, fun _ => rfl⟩
  | returned u => cases hs

theorem wake_early {p : Pc} (h : p.wake = .signal ∨ p.wake = .alarm) : p = .signal ∨ p = .alarm := by
  cases p with
  | paused => rcases h with h | h <;> cases h
  | _ => exact h

theorem inv_step {a : Act} (h : Inv s) (hs : step seconds s a = some s') : Inv s' := by
  cases a with
  | run ok => exact h.run_step hs
  | tick =>
      unfold step at hs
      dsimp only at hs
      split at hs
      · obtain rfl := Option.some.inj hs
        exact ⟨nofun, fun _ => rfl⟩
      · next hnot =>
        obtain rfl := Option.some.inj hs
        refine ⟨fun e he => ?_, h.early⟩
        have hlt := h.ahead e he
        have hne : e ≠ s.now + 1 := fun heq => hnot (heq ▸ he)
        show s.now + 1 < e
        omega
  | caught =>
      obtain rfl := Option.some.inj hs
      exact ⟨h.ahead, fun hpc => h.early (wake_early hpc)⟩

theorem inv_reach (h : (sleep1 seconds).Reach s) : Inv s := by
  refine h.invariant (I := Inv) ?_ fun _ _ _ => inv_step
  rintro s rfl
  exact ⟨nofun, fun _ => rfl⟩

/-- With time going by, the alarm goes off, wherever the process is. -/
theorem run_ticks (p : Pc) (n : ℕ) : ∀ now : ℕ,
    (sleep1 seconds).run ⟨p, some (now + n + 1), now⟩ (List.replicate (n + 1) .tick) =
      some ⟨p.wake, none, now + n + 1⟩ := by
  induction n with
  | zero =>
      intro now
      have hfires : (sleep1 seconds).next ⟨p, some (now + 1), now⟩ .tick =
          some ⟨p.wake, none, now + 1⟩ := if_pos rfl
      rw [List.replicate_one, Machine.run_cons, Nat.add_zero, hfires]
      rfl
  | succ n ih =>
      intro now
      have hnext : (sleep1 seconds).next ⟨p, some (now + (n + 1) + 1), now⟩ .tick =
          some ⟨p, some (now + (n + 1) + 1), now + 1⟩ := by
        refine if_neg fun heq => ?_
        have heq : now + (n + 1) + 1 = now + 1 := Option.some.inj heq
        omega
      rw [List.replicate_succ, Machine.run_cons, hnext]
      have hrun := ih (now + 1)
      rwa [show now + 1 + n + 1 = now + (n + 1) + 1 by omega] at hrun

/-- The process can return from `s`, if nothing but its alarm wakes it. -/
def CanReturn (seconds : ℕ) (s : State) : Prop :=
  ∃ acts s', (∀ a ∈ acts, a ≠ Act.caught) ∧ (sleep1 seconds).run s acts = some s' ∧ s'.Returned

theorem canReturn_of_next {a : Act} (ha : a ≠ .caught) (hs : (sleep1 seconds).next s a = some s')
    (h : CanReturn seconds s') : CanReturn seconds s := by
  obtain ⟨acts, t, hacts, hrun, ht⟩ := h
  refine ⟨a :: acts, t, fun b hb => ?_, ?_, ht⟩
  · rcases List.mem_cons.mp hb with rfl | hb
    · exact ha
    · exact hacts b hb
  · rw [Machine.run_cons, hs]
    exact hrun

theorem canReturn_cancel (alarm : Alarm) (now : ℕ) : CanReturn seconds ⟨.cancel, alarm, now⟩ :=
  ⟨[.run true], _, by simp, rfl, _, rfl⟩

theorem canReturn_paused {e now : ℕ} (h : now < e) : CanReturn seconds ⟨.paused, some e, now⟩ := by
  obtain ⟨n, rfl⟩ : ∃ n, e = now + n + 1 := ⟨e - now - 1, by omega⟩
  have hcancel : CanReturn seconds ⟨.cancel, none, now + n + 1⟩ := canReturn_cancel _ _
  obtain ⟨acts, t, hacts, hrun, ht⟩ := hcancel
  refine ⟨List.replicate (n + 1) .tick ++ acts, t, fun a ha => ?_, ?_, ht⟩
  · rcases List.mem_append.mp ha with ha | ha
    · rw [List.eq_of_mem_replicate ha]
      exact nofun
    · exact hacts a ha
  · rw [Machine.run_append, run_ticks]
    exact hrun

theorem canReturn_pause {e now : ℕ} (h : now < e) : CanReturn seconds ⟨.pause, some e, now⟩ :=
  canReturn_of_next (a := .run true) nofun rfl (canReturn_paused h)

theorem Inv.canReturn (h : Inv s) (hlost : ¬ s.Lost seconds) : CanReturn seconds s := by
  obtain ⟨pc, alarm, now⟩ := s
  cases pc with
  | signal => exact ⟨[.run false], _, by simp, rfl, _, rfl⟩
  | alarm =>
      have hne : seconds ≠ 0 := fun hzero => hlost (.inr ⟨rfl, h.early (.inr rfl), hzero⟩)
      have hset : (sleep1 seconds).next ⟨.alarm, alarm, now⟩ (.run true) =
          some ⟨.pause, some (now + seconds), now⟩ := by
        show some (State.mk .pause (setAlarm now seconds) now) = _
        rw [setAlarm, if_neg hne]
      exact canReturn_of_next (a := .run true) nofun hset (canReturn_pause (by omega))
  | pause =>
      rcases alarm with _ | e
      · exact absurd (.inl ⟨.inl rfl, rfl⟩) hlost
      · exact canReturn_pause (h.ahead e rfl)
  | paused =>
      rcases alarm with _ | e
      · exact absurd (.inl ⟨.inr rfl, rfl⟩) hlost
      · exact canReturn_paused (h.ahead e rfl)
  | cancel => exact canReturn_cancel alarm now
  | returned u => exact ⟨[], _, by simp, rfl, u, rfl⟩

theorem not_canReturn (h : s.Lost seconds) : ¬ CanReturn seconds s := by
  rintro ⟨acts, t, hacts, hrun, u, hu⟩
  rcases Lost.run h hacts hrun with ⟨hpc | hpc, -⟩ | ⟨hpc, -⟩
  all_goals
    rw [hu] at hpc
    cases hpc

/-- The process is kept from its `pause` for the whole time. -/
def late (seconds : ℕ) : List Act := .run true :: .run true :: List.replicate seconds .tick

theorem run_late (seconds : ℕ) :
    (sleep1 seconds).run ⟨.signal, none, 0⟩ (late seconds) = some ⟨.pause, none, seconds⟩ := by
  rcases seconds with _ | n
  · rfl
  · have hset : (sleep1 (n + 1)).next ⟨.alarm, none, 0⟩ (.run true) =
        some ⟨.pause, some (0 + n + 1), 0⟩ := by
      show some (State.mk .pause (setAlarm 0 (n + 1)) 0) = _
      rw [setAlarm, if_neg (Nat.succ_ne_zero n), Nat.add_assoc]
    rw [late, Machine.run_cons, show (sleep1 (n + 1)).next ⟨.signal, none, 0⟩ (.run true) =
      some ⟨.alarm, none, 0⟩ from rfl, Option.bind_some, Machine.run_cons, hset]
    have hticks : (sleep1 (n + 1)).run _ _ = _ := run_ticks .pause n 0
    rw [Nat.zero_add] at hticks ⊢
    exact hticks

end Steps

/-- **When `sleep1` hangs**: exactly if the alarm has gone off before `pause`, or there is none
because the number of seconds is 0.  There is such a run for every number of seconds. -/
theorem sleep1_hangs_iff (seconds : ℕ) :
    (∀ s, (sleep1 seconds).Reach s → (CanReturn seconds s ↔ ¬ s.Lost seconds)) ∧
      ∃ s, (sleep1 seconds).Reach s ∧ s.Lost seconds ∧ s.now = seconds := by
  refine ⟨fun s hs => ⟨fun hret hlost => not_canReturn hlost hret, (inv_reach hs).canReturn⟩, ?_⟩
  exact ⟨_, Machine.reach_of_run rfl (run_late seconds), .inl ⟨.inl rfl, rfl⟩, rfl⟩

end Sleep1

/-! ### `sleep2` -/

namespace Sleep2

/-- The next operation. -/
inductive Pc
  | signal
  | setjmp
  | alarm
  | pause
  | paused                  -- in `pause`
  | cancel                  -- return(alarm(0))
  | returned (unslept : ℕ)
  deriving DecidableEq, Repr

/-- What `sig_int` prints. -/
inductive Line
  | started
  | finished
  deriving DecidableEq, Repr

structure State where
  pc : Pc
  alarm : Alarm
  now : ℕ
  /-- since when `sig_int` is at work -/
  handler : Option ℕ
  intBlocked : Bool
  intPending : Bool
  out : List Line
  deriving DecidableEq, Repr

inductive Act
  /-- the next operation of `sleep2`, and whether `signal` succeeds -/
  | run (ok : Bool)
  | tick
  | sigint
  /-- `sig_int` comes to its end -/
  | handlerEnd
  deriving DecidableEq, Repr

def runStep (seconds : ℕ) (s : State) (ok : Bool) : Option State :=
  match s.pc with
  | .signal => some { s with pc := if ok then .setjmp else .returned seconds }
  | .setjmp => some { s with pc := .alarm }
  | .alarm => some { s with pc := .pause, alarm := setAlarm s.now seconds }
  | .pause => some { s with pc := .paused }
  | .paused => none
  | .cancel => some { s with pc := .returned (s.alarm.left s.now), alarm := none }
  | .returned _ => none

/-- `sig_int` is entered. -/
def State.enter (s : State) : State :=
  { s with handler := some s.now, intBlocked := true, intPending := false,
           out := s.out ++ [.started] }

/-- `sig_int` returns, and with it `pause`. -/
def State.leave (s : State) : State :=
  { s with pc := if s.pc = .paused then .cancel else s.pc, handler := none, intBlocked := false,
           out := s.out ++ [.finished] }

/-- `sig_alrm`: the jump behind `pause`, out of any handler. -/
def State.jump (s : State) : State := { s with pc := .cancel, alarm := none, handler := none }

def step (seconds work : ℕ) (s : State) : Act → Option State
  | .run ok => if s.handler = none then runStep seconds s ok else none
  | .tick =>
      if s.alarm = some (s.now + 1) then some { s with now := s.now + 1 }.jump
      else some { s with now := s.now + 1 }
  | .sigint => if s.intBlocked then some { s with intPending := true } else some s.enter
  | .handlerEnd =>
      match s.handler with
      | none => none
      | some t =>
          if t + work ≤ s.now then some (if s.intPending then s.leave.enter else s.leave)
          else none

/-- A call of `sleep2` in a program whose `sig_int` works for `work` seconds. -/
def sleep2 (seconds work : ℕ) : Machine State Act where
  init s := s = ⟨.signal, none, 0, none, false, false, []⟩
  next := step seconds work

/-- The process is on its way to `pause` or in it, with the alarm set. -/
def Pc.sleeps : Pc → Bool
  | .pause | .paused => true
  | _ => false

structure Inv (seconds : ℕ) (s : State) : Prop where
  /-- the alarm is ahead, and was set no more than `seconds` ago -/
  ahead : ∀ e, s.alarm = some e → s.now < e ∧ e ≤ s.now + seconds ∧ seconds ≤ e
  /-- a handler that interrupts the sleep has begun after the alarm was set -/
  began : ∀ e t, s.alarm = some e → s.handler = some t → e ≤ t + seconds
  sleeps : s.pc.sleeps = true → s.alarm ≠ none
  set : s.alarm ≠ none → s.pc.sleeps = true ∨ s.pc = .cancel
  expired : s.pc = .cancel → s.alarm = none → seconds ≤ s.now
  slept : ∀ u, s.pc = .returned u → seconds ≤ u + s.now

section Steps

variable {seconds work : ℕ} {s s' : State} {ok : Bool}

theorem setAlarm_pos (hseconds : 1 ≤ seconds) (now : ℕ) :
    setAlarm now seconds = some (now + seconds) := if_neg (Nat.one_le_iff_ne_zero.mp hseconds)

/-- Before the alarm is set and after it is cancelled. -/
theorem Inv.of_unset {s : State} (halarm : s.alarm = none) (hsleeps : s.pc.sleeps = false)
    (hexpired : s.pc = .cancel → seconds ≤ s.now) (hslept : ∀ u, s.pc = .returned u → seconds ≤ u + s.now) :
    Inv seconds s where
  ahead e he := by rw [halarm] at he; cases he
  began e t he := by rw [halarm] at he; cases he
  sleeps h := by rw [hsleeps] at h; cases h
  set h := absurd halarm h
  expired h _ := hexpired h
  slept := hslept

theorem Inv.run_step (hseconds : 1 ≤ seconds) (h : Inv seconds s) (hfree : s.handler = none)
    (hs : runStep seconds s ok = some s') : Inv seconds s' := by
  obtain ⟨pc, alarm, now, handler, blocked, pending, out⟩ := s
  obtain rfl : handler = none := hfree
  have hunset : pc.sleeps = false → pc ≠ .cancel → alarm = none := fun hsleeps hcancel => by
    by_contra hset
    rcases h.set hset with hpc | hpc
    · exact absurd (hsleeps.symm.trans hpc) (by decide)
    · exact hcancel hpc
  cases pc with
  | signal =>
      cases hs
      refine .of_unset (hunset rfl nofun) ?_ ?_ ?_ <;> cases ok
      · rfl
      · rfl
      · exact nofun
      · exact nofun
      · rintro u hu
        cases hu
        exact Nat.le_add_right _ _
      · exact nofun
  | setjmp => cases hs; exact .of_unset (hunset rfl nofun) rfl nofun nofun
  | alarm =>
      cases hs
      rw [show setAlarm now seconds = _ from setAlarm_pos hseconds now]
      refine ⟨fun e he => ?_, nofun, fun _ => nofun, fun _ => .inl rfl, nofun, nofun⟩
      obtain rfl := Option.some.inj he
      show now < now + seconds ∧ now + seconds ≤ now + seconds ∧ seconds ≤ now + seconds
      omega
  | pause =>
      cases hs
      exact ⟨h.ahead, h.began, fun _ => h.sleeps rfl, fun _ => .inl rfl, nofun, nofun⟩
  | paused => cases hs
  | cancel =>
      cases hs
      refine .of_unset rfl rfl nofun ?_
      rintro u hu
      cases hu
      rcases alarm with _ | e
      · exact Nat.le_trans (h.expired rfl rfl) (Nat.le_add_left _ _)
      · have hahead := h.ahead e rfl
        show seconds ≤ e - now + now
        dsimp only at hahead
        omega
  | returned u => cases hs

theorem Inv.tick (h : Inv seconds s) (hs : step seconds work s .tick = some s') :
    Inv seconds s' := by
  unfold step at hs
  dsimp only at hs
  split at hs
  · next hfires =>
    obtain rfl := Option.some.inj hs
    exact .of_unset rfl rfl (fun _ => (h.ahead _ hfires).2.2) nofun
  · next hnot =>
    obtain rfl := Option.some.inj hs
    refine ⟨fun e he => ?_, h.began, h.sleeps, h.set,
      fun hpc halarm => Nat.le_succ_of_le (h.expired hpc halarm),
      fun u hu => Nat.le_succ_of_le (h.slept u hu)⟩
    have hahead := h.ahead e he
    have hne : e ≠ s.now + 1 := fun heq => hnot (heq ▸ he)
    show s.now + 1 < e ∧ e ≤ s.now + 1 + seconds ∧ seconds ≤ e
    omega

theorem Inv.enter (h : Inv seconds s) : Inv seconds s.enter := by
  refine ⟨h.ahead, fun e t he ht => ?_, h.sleeps, h.set, h.expired, h.slept⟩
  obtain rfl := Option.some.inj ht
  exact (h.ahead e he).2.1

theorem Inv.leave (h : Inv seconds s) : Inv seconds s.leave := by
  by_cases hpaused : s.pc = .paused
  · have hset := h.sleeps (by rw [hpaused]; rfl)
    have hleave : s.leave = { s with pc := .cancel, handler := none, intBlocked := false,
                                     out := s.out ++ [.finished] } := by
      rw [State.leave, if_pos hpaused]
    rw [hleave]
    exact ⟨h.ahead, nofun, nofun, fun _ => .inr rfl, fun _ hnone => absurd hnone hset, nofun⟩
  · have hleave : s.leave = { s with handler := none, intBlocked := false,
                                     out := s.out ++ [.finished] } := by
      rw [State.leave, if_neg hpaused]
    rw [hleave]
    exact ⟨h.ahead, nofun, h.sleeps, h.set, h.expired, h.slept⟩

/-- What the end of `sig_int` says. -/
theorem step_handlerEnd (hs : step seconds work s .handlerEnd = some s') :
    ∃ t, s.handler = some t ∧ t + work ≤ s.now ∧
      s' = if s.intPending then s.leave.enter else s.leave := by
  unfold step at hs
  dsimp only at hs
  rcases hhandler : s.handler with _ | t
  · rw [hhandler] at hs
    cases hs
  · rw [hhandler] at hs
    obtain ⟨hle, hs⟩ := Option.ite_none_right_eq_some.mp hs
    exact ⟨t, rfl, hle, (Option.some.inj hs).symm⟩

theorem inv_step (hseconds : 1 ≤ seconds) {a : Act} (h : Inv seconds s)
    (hs : step seconds work s a = some s') : Inv seconds s' := by
  cases a with
  | run ok =>
      obtain ⟨hfree, hs⟩ := Option.ite_none_right_eq_some.mp hs
      exact h.run_step hseconds hfree hs
  | tick => exact h.tick hs
  | sigint =>
      unfold step at hs
      dsimp only at hs
      split at hs
      · obtain rfl := Option.some.inj hs
        exact ⟨h.ahead, h.began, h.sleeps, h.set, h.expired, h.slept⟩
      · obtain rfl := Option.some.inj hs
        exact h.enter
  | handlerEnd =>
      obtain ⟨t, -, -, rfl⟩ := step_handlerEnd hs
      split
      · exact h.leave.enter
      · exact h.leave

theorem inv_reach (hseconds : 1 ≤ seconds) (h : (sleep2 seconds work).Reach s) :
    Inv seconds s := by
  refine h.invariant (I := Inv seconds) ?_ fun _ _ _ => inv_step hseconds
  rintro s rfl
  exact .of_unset rfl rfl nofun nofun

/-! Every run ends, but for time and interrupts. -/

def Pc.weight : Pc → ℕ
  | .signal => 6
  | .setjmp => 5
  | .alarm => 4
  | .pause => 3
  | .paused => 2
  | .cancel => 1
  | .returned _ => 0

def State.left (s : State) : ℕ :=
  s.pc.weight + (if s.handler = none then 0 else 1) + if s.intPending then 1 else 0

/-- Time goes by, or an interrupt comes. -/
def Act.isEnv : Act → Bool
  | .tick | .sigint => true
  | .run _ | .handlerEnd => false

theorem left_run (hs : runStep seconds s ok = some s') : s'.left < s.left := by
  obtain ⟨pc, alarm, now, handler, blocked, pending, out⟩ := s
  cases pc with
  | signal => cases ok <;> cases hs <;> simp [State.left, Pc.weight]
  | setjmp => cases hs; simp [State.left, Pc.weight]
  | alarm => cases hs; simp [State.left, Pc.weight]
  | pause => cases hs; simp [State.left, Pc.weight]
  | paused => cases hs
  | cancel => cases hs; simp [State.left, Pc.weight]
  | returned u => cases hs

theorem left_leave {t : ℕ} (hhandler : s.handler = some t) : s.leave.left < s.left := by
  by_cases hpaused : s.pc = .paused
  · simp [State.left, State.leave, hpaused, hhandler, Pc.weight]
  · simp [State.left, State.leave, hpaused, hhandler]

theorem left_handlerEnd (hs : step seconds work s .handlerEnd = some s') : s'.left < s.left := by
  obtain ⟨t, hhandler, -, rfl⟩ := step_handlerEnd hs
  have hleave := left_leave hhandler
  split
  · next hpending =>
    -- the interrupt that was pending is no longer so
    have henter : s.leave.enter.left = s.leave.left := by
      simp [State.left, State.enter, State.leave, hpending]
    rwa [henter]
  · exact hleave

/-- The jump goes forwards, but for a call that has returned. -/
theorem left_jump (h : Inv seconds s) (hset : s.alarm ≠ none) : s.jump.left ≤ s.left := by
  have hpc : 1 ≤ s.pc.weight := by
    rcases h.set hset with hpc | hpc
    · revert hpc
      cases s.pc <;> simp [Pc.sleeps, Pc.weight]
    · rw [hpc]
      exact Nat.le_refl _
  have hjump : s.jump.left = 1 + if s.intPending then 1 else 0 := rfl
  rw [hjump, State.left]
  omega

theorem left_step (hseconds : 1 ≤ seconds) {a : Act} (h : (sleep2 seconds work).Reach s)
    (hs : (sleep2 seconds work).next s a = some s') :
    s'.left + 1 ≤ s.left + if a.isEnv then 2 else 0 := by
  cases a with
  | run ok =>
      obtain ⟨-, hs⟩ := Option.ite_none_right_eq_some.mp hs
      exact left_run hs
  | tick =>
      change step seconds work s .tick = some s' at hs
      unfold step at hs
      dsimp only at hs
      show s'.left + 1 ≤ s.left + 2
      split at hs
      · next hfires =>
        obtain rfl := Option.some.inj hs
        have hle := left_jump (inv_reach hseconds h) (by rw [hfires]; exact nofun)
        exact Nat.le_trans (Nat.succ_le_succ hle) (Nat.le_succ _)
      · obtain rfl := Option.some.inj hs
        exact Nat.le_succ _
  | sigint =>
      change step seconds work s .sigint = some s' at hs
      unfold step at hs
      dsimp only at hs
      show s'.left + 1 ≤ s.left + 2
      split at hs
      · obtain rfl := Option.some.inj hs
        simp only [State.left, if_true]
        omega
      · obtain rfl := Option.some.inj hs
        simp only [State.left, State.enter, reduceCtorEq, if_false]
        omega
  | handlerEnd =>
      change step seconds work s .handlerEnd = some s' at hs
      exact left_handlerEnd hs

end Steps

section Sleeps

variable {seconds work : ℕ} {s s' : State}

/-- Behind `pause`, the alarm has gone off. -/
structure Undisturbed (s : State) : Prop where
  expired : s.pc = .cancel → s.alarm = none
  zero : ∀ u, s.pc = .returned u → u = 0

theorem Undisturbed.run_step (h : Undisturbed s) (hs : runStep seconds s true = some s') :
    Undisturbed s' := by
  obtain ⟨pc, alarm, now, handler, blocked, pending, out⟩ := s
  cases pc with
  | signal => cases hs; exact ⟨nofun, nofun⟩
  | setjmp => cases hs; exact ⟨nofun, nofun⟩
  | alarm => cases hs; exact ⟨nofun, nofun⟩
  | pause => cases hs; exact ⟨nofun, nofun⟩
  | paused => cases hs
  | cancel =>
      obtain rfl : alarm = none := h.expired rfl
      cases hs
      refine ⟨nofun, ?_⟩
      rintro u hu
      cases hu
      rfl
  | returned u => cases hs

/-- `sig_int` does not come to its end while the process sleeps. -/
theorem Inv.not_sleeps (h : Inv seconds s) (hwork : seconds ≤ work) {t : ℕ}
    (hhandler : s.handler = some t) (hend : t + work ≤ s.now) : s.pc ≠ .paused := by
  intro hpc
  obtain ⟨e, he⟩ := Option.ne_none_iff_exists'.mp (h.sleeps (by rw [hpc]; rfl))
  have hahead := h.ahead e he
  have hbegan := h.began e t he hhandler
  omega

theorem undisturbed_step (hwork : seconds ≤ work) {a : Act} (ha : a ≠ .run false)
    (hinv : Inv seconds s) (h : Undisturbed s) (hs : step seconds work s a = some s') :
    Undisturbed s' := by
  cases a with
  | run ok =>
      cases ok with
      | false => exact absurd rfl ha
      | true => exact h.run_step (Option.ite_none_right_eq_some.mp hs).2
  | tick =>
      unfold step at hs
      dsimp only at hs
      split at hs
      · obtain rfl := Option.some.inj hs
        exact ⟨fun _ => rfl, nofun⟩
      · obtain rfl := Option.some.inj hs
        exact ⟨h.expired, h.zero⟩
  | sigint =>
      unfold step at hs
      dsimp only at hs
      split at hs
      · obtain rfl := Option.some.inj hs
        exact ⟨h.expired, h.zero⟩
      · obtain rfl := Option.some.inj hs
        exact ⟨h.expired, h.zero⟩
  | handlerEnd =>
      obtain ⟨t, hhandler, hend, rfl⟩ := step_handlerEnd hs
      have hpc := hinv.not_sleeps hwork hhandler hend
      have hleave : s.leave.pc = s.pc := if_neg hpc
      split
      · exact ⟨fun hcancel => h.expired (hleave.symm.trans hcancel),
          fun u hu => h.zero u (hleave.symm.trans hu)⟩
      · exact ⟨fun hcancel => h.expired (hleave.symm.trans hcancel),
          fun u hu => h.zero u (hleave.symm.trans hu)⟩

end Sleeps

/-- **No interrupt shortens the sleep**, if the handler for SIGINT works for at least as many
seconds as `sleep2` is to sleep: whenever `sleep2` returns, all seconds are over, and it
returns 0. -/
theorem sleep2_sleeps {seconds work : ℕ} (hseconds : 1 ≤ seconds) (hwork : seconds ≤ work)
    {s : State} (h : ((sleep2 seconds work).restrict fun _ a => a ≠ .run false).Reach s)
    {u : ℕ} (hreturned : s.pc = .returned u) : u = 0 ∧ seconds ≤ s.now := by
  have hboth : Inv seconds s ∧ Undisturbed s := by
    refine h.invariant (I := fun s => Inv seconds s ∧ Undisturbed s) ?_ fun s a s' hinv hs => ?_
    · rintro s rfl
      exact ⟨.of_unset rfl rfl nofun nofun, nofun, nofun⟩
    · obtain ⟨ha, hs⟩ := Machine.restrict_next.mp hs
      exact ⟨inv_step hseconds hinv.1 hs, undisturbed_step hwork ha hinv.1 hinv.2 hs⟩
  obtain rfl := hboth.2.zero u hreturned
  have hslept := hboth.1.slept 0 hreturned
  exact ⟨rfl, by omega⟩

/-- The program, interrupted after one second: the handler is left before it has finished. -/
theorem sleep2_sleeps_interrupted : ∃ s,
    ((sleep2 5 5).restrict fun _ a => a ≠ .run false).Reach s ∧ s.pc = .returned 0 ∧
      s.out = [.started] ∧ 5 ≤ s.now := by
  have hrun : ((sleep2 5 5).restrict fun _ a => a ≠ .run false).run
      ⟨.signal, none, 0, none, false, false, []⟩
      [.run true, .run true, .run true, .run true, .tick, .sigint, .tick, .tick, .tick, .tick,
        .run true] = some ⟨.returned 0, none, 5, none, true, false, [.started]⟩ := by
    decide
  have hreach : ((sleep2 5 5).restrict fun _ a => a ≠ .run false).Reach _ :=
    Machine.reach_of_run rfl hrun
  exact ⟨_, hreach, rfl, rfl, (sleep2_sleeps (by decide) (by decide) hreach rfl).2⟩

end Sleep2

end Apue.CustomSleep
