/-
Apue/Timers.lean

The timer multiplexer of `10/23_timers.cpp`: any number of timers on the one
system alarm.

`alarm_set` holds, for every pending timer, the number of seconds it was due in
at some common base time.  The base is not stored anywhere: it is the time of
the last call of `reset_system_alarm`, and both `apue_alarm` and the handler
move it by rebuilding the whole set.

The model is parametrised by `body`, the `apue_alarm` calls each timer function
makes while it runs (`fun _ => []` when timer functions register nothing).  The
kernel keeps the absolute time at which the system alarm expires.  Time is
counted in whole seconds; the two functions and the handler take no time.

`seconds` is an `int`.  A value handed to `alarm` is converted to `unsigned`.
-/
import Mathlib.Data.Prod.Lex
import Mathlib.Algebra.Order.Ring.Int
import Apue.Machine
import Apue.OrdSet
import Apue.TimerService

namespace Apue.Timers

variable {F : Type*} [LinearOrder F]

/-! ### The state -/

/-- The globals of the program, the kernel's clock and alarm, and the calls of
timer functions. -/
structure State (F : Type*) [LinearOrder F] where
  /-- `std::set<std::pair<int, Sigfunc*>>` -/
  alarmSet : OrdSet (ℤ ×ₗ F)
  handlerIsSet : Bool
  now : ℕ
  /-- when the system alarm expires -/
  sysAlarm : Option ℕ
  /-- `SIGALRM` is pending -/
  sigPending : Bool
  calls : List (ℕ × F)

/-- The state at time `now`, before the first call. -/
def initState (now : ℕ) : State F :=
  { alarmSet := .empty, handlerIsSet := false, now := now, sysAlarm := none,
    sigPending := false, calls := [] }

/-! ### The program -/

/-- `alarm(2)`: the seconds that remained, and the new alarm. -/
def alarm (seconds : ℤ) (s : State F) : ℤ × State F :=
  let n := (seconds % 2 ^ 32).toNat
  (match s.sysAlarm with
    | none => 0
    | some e => e - s.now,
   { s with sysAlarm := if n = 0 then none else some (s.now + n) })

/-- `reset_system_alarm`. -/
def resetSystemAlarm (s : State F) : State F :=
  match s.alarmSet.begin? with
  | none => (alarm 0 s).2
  | some p => (alarm (ofLex p).1 s).2

/-- The set rebuilt with `d` subtracted from every time. -/
def rebase (d : ℤ) (a : OrdSet (ℤ ×ₗ F)) : OrdSet (ℤ ×ₗ F) :=
  a.image fun p => toLex ((ofLex p).1 - d, (ofLex p).2)

/-- `apue_alarm` from the moment it has blocked `SIGALRM` until it restores the
mask. -/
def apueAlarmSection (seconds : ℤ) (func : Option F) (s : State F) : State F :=
  match func with
  | none => s
  | some f =>
      if seconds ≤ 0 then s
      else
        let s := { s with handlerIsSet := true }
        let (elapsedTime, s) := alarm 0 s
        let s :=
          if 0 < elapsedTime then
            match s.alarmSet.begin? with
            | none => s
            | some p =>
                { s with alarmSet := rebase ((ofLex p).1 - elapsedTime) s.alarmSet }
          else s
        resetSystemAlarm { s with alarmSet := s.alarmSet.insert (toLex (seconds, f)) }

/-- A timer function runs: the call is recorded, and the function makes its own
registrations.  `SIGALRM` is blocked meanwhile. -/
def callFunction (body : F → List (ℤ × Option F)) (f : F) (s : State F) : State F :=
  (body f).foldl (fun s c => apueAlarmSection c.1 c.2 s)
    { s with calls := s.calls ++ [(s.now, f)] }

/-- `apue_alarm_handler`. -/
def apueAlarmHandler (body : F → List (ℤ × Option F)) (s : State F) : State F :=
  match s.alarmSet.begin? with
  | none => s
  | some p =>
      let elapsedTime := (ofLex p).1
      let s := callFunction body (ofLex p).2 s
      let s := { s with alarmSet := s.alarmSet.eraseBegin }
      resetSystemAlarm { s with alarmSet := rebase elapsedTime s.alarmSet }

/-- The mask is restored: a pending signal is delivered now. -/
def deliver (body : F → List (ℤ × Option F)) (s : State F) : State F :=
  if s.sigPending then apueAlarmHandler body { s with sigPending := false } else s

/-- `apue_alarm`. -/
def apueAlarm (body : F → List (ℤ × Option F)) (seconds : ℤ) (func : Option F)
    (s : State F) : State F :=
  deliver body (apueAlarmSection seconds func s)

/-- The alarm expires: the kernel makes the signal pending. -/
def expire (s : State F) : State F := { s with sysAlarm := none, sigPending := true }

/-! ### The program as a machine -/

/-- What can happen. -/
inductive Action (F : Type*)
  /-- one second passes -/
  | tick
  /-- the alarm expires and the signal is delivered -/
  | sigalrm
  /-- a call of `apue_alarm` -/
  | apueAlarm (seconds : ℤ) (func : Option F)
  /-- a call of `apue_alarm` during which, with `SIGALRM` blocked, the alarm
  expires -/
  | apueAlarmLate (seconds : ℤ) (func : Option F)

/-- The values of type `int`. -/
def IsInt (n : ℤ) : Prop := -2 ^ 31 ≤ n ∧ n < 2 ^ 31

instance (n : ℤ) : Decidable (IsInt n) := inferInstanceAs (Decidable (_ ∧ _))

/-- One step.  Time does not pass the moment at which the alarm expires. -/
def next (body : F → List (ℤ × Option F)) (s : State F) : Action F → Option (State F)
  | .tick => if s.sysAlarm ≠ some s.now then some { s with now := s.now + 1 } else none
  | .sigalrm => if s.sysAlarm = some s.now then some (deliver body (expire s)) else none
  | .apueAlarm seconds func =>
      if s.sysAlarm ≠ some s.now ∧ IsInt seconds then some (apueAlarm body seconds func s)
      else none
  | .apueAlarmLate seconds func =>
      if s.sysAlarm = some s.now ∧ IsInt seconds then
        some (apueAlarm body seconds func (expire s))
      else none

/-- The program, started at any time. -/
def timers (body : F → List (ℤ × Option F)) : Machine (State F) (Action F) where
  init s := ∃ now, s = initState now
  next := next body

/-! ### Registrations -/

/-- The timer that a call `apue_alarm(seconds, func)` at time `now` asks for, with its
due time.  No timer is asked for with `seconds <= 0` or a null `func`. -/
def requested (now : ℕ) (c : ℤ × Option F) : List (ℕ × F) :=
  match c.2 with
  | none => []
  | some f => if 0 < c.1 then [(now + c.1.toNat, f)] else []

/-- The timers that the function the handler calls asks for. -/
def requestedByHandler (body : F → List (ℤ × Option F)) (s : State F) : List (ℕ × F) :=
  match s.alarmSet.begin? with
  | none => []
  | some p => (body (ofLex p).2).flatMap (requested s.now)

/-- The registrations of a step: that of the call of `apue_alarm`, if the step is one,
and those of the timer function that runs. -/
def registers (body : F → List (ℤ × Option F)) (s : State F) : Action F → List (ℕ × F)
  | .tick => []
  | .sigalrm => requestedByHandler body s
  | .apueAlarm seconds func => requested s.now (seconds, func)
  | .apueAlarmLate seconds func =>
      requested s.now (seconds, func) ++
        requestedByHandler body (apueAlarmSection seconds func (expire s))

/-- The program and the registrations made so far. -/
def timersRegistered (body : F → List (ℤ × Option F)) :
    Machine (State F × List (ℕ × F)) (Action F) :=
  (timers body).recorded (registers body)

/-- The registered timers whose function has not been called. -/
def State.pending (s : State F) (registered : List (ℕ × F)) : List (ℕ × F) :=
  registered.filter (· ∉ s.calls)

/-- Simultaneously pending timers have distinct due times, and the alarm never
expires while `apue_alarm` has the signal blocked. -/
def Separate (p : State F × List (ℕ × F)) : Action F → Prop
  | .apueAlarm seconds _ =>
      0 < seconds → ∀ r ∈ p.1.pending p.2, r.1 ≠ p.1.now + seconds.toNat
  | .apueAlarmLate _ _ => False
  | .tick | .sigalrm => True

instance (p : State F × List (ℕ × F)) (a : Action F) : Decidable (Separate p a) :=
  match a with
  | .apueAlarm _ _ => inferInstanceAs (Decidable (_ → ∀ r ∈ _, _))
  | .apueAlarmLate _ _ => .isFalse id
  | .tick | .sigalrm => .isTrue trivial

/-- The program used with distinct due times, by timer functions that register
nothing. -/
def separateTimers (F : Type*) [LinearOrder F] :
    Machine (State F × List (ℕ × F)) (Action F) :=
  (timersRegistered fun _ => []).restrict Separate

/-! ### What the functions do -/

section Functions

variable {s : State F}

theorem mem_rebase {d : ℤ} {a : OrdSet (ℤ ×ₗ F)} {p : ℤ ×ₗ F} :
    p ∈ rebase d a ↔ toLex ((ofLex p).1 + d, (ofLex p).2) ∈ a := by
  rw [rebase, OrdSet.mem_image]
  constructor
  · rintro ⟨q, hq, rfl⟩
    simpa using hq
  · intro hp
    exact ⟨_, hp, by simp⟩

/-- Subtracting the same time keeps the order of the timers. -/
theorem elems_rebase (d : ℤ) (a : OrdSet (ℤ ×ₗ F)) :
    (rebase d a).elems = a.elems.map fun p => toLex ((ofLex p).1 - d, (ofLex p).2) := by
  refine OrdSet.elems_image (fun p q h => ?_) a
  rw [Prod.Lex.lt_iff] at h ⊢
  exact h.imp (sub_lt_sub_right · d) fun ⟨h₁, h₂⟩ => ⟨congrArg (· - d) h₁, h₂⟩

theorem size_rebase (d : ℤ) (a : OrdSet (ℤ ×ₗ F)) : (rebase d a).size = a.size := by
  rw [OrdSet.size, elems_rebase, List.length_map]
  rfl

/-- Arming the alarm for a positive `int`. -/
theorem alarm_pos (s : State F) {n : ℤ} (hpos : 0 < n) (hlt : n < 2 ^ 31) :
    (alarm n s).2 = { s with sysAlarm := some (s.now + n.toNat) } := by
  have hmod : n % 4294967296 = n := by omega
  simp [alarm, hmod, hpos]

/-- `reset_system_alarm` changes nothing but the alarm. -/
theorem resetSystemAlarm_frame (s : State F) :
    ∃ e, resetSystemAlarm s = { s with sysAlarm := e } := by
  rw [resetSystemAlarm]
  split <;> exact ⟨_, rfl⟩

theorem resetSystemAlarm_alarmSet (s : State F) :
    (resetSystemAlarm s).alarmSet = s.alarmSet := by
  obtain ⟨e, he⟩ := resetSystemAlarm_frame s
  rw [he]

theorem resetSystemAlarm_calls (s : State F) : (resetSystemAlarm s).calls = s.calls := by
  obtain ⟨e, he⟩ := resetSystemAlarm_frame s
  rw [he]

/-- `reset_system_alarm` arms the alarm for the first timer if the times are positive. -/
theorem resetSystemAlarm_eq (h : ∀ p ∈ s.alarmSet, 0 < (ofLex p).1 ∧ (ofLex p).1 < 2 ^ 31) :
    resetSystemAlarm s = { s with
      sysAlarm := s.alarmSet.begin?.map fun p => s.now + (ofLex p).1.toNat } := by
  rw [resetSystemAlarm]
  cases hb : s.alarmSet.begin? with
  | none => rfl
  | some p =>
      obtain ⟨hpos, hlt⟩ := h p (OrdSet.mem_of_begin? hb)
      exact alarm_pos s hpos hlt

/-- What remains on the alarm, as `alarm(0)` returns it. -/
def State.left (s : State F) : ℤ :=
  match s.sysAlarm with
  | none => 0
  | some e => e - s.now

/-- How far `apue_alarm` moves the base. -/
def State.shift (s : State F) : ℤ :=
  if 0 < s.left then
    match s.alarmSet.begin? with
    | none => 0
    | some p => (ofLex p).1 - s.left
  else 0

/-- The set as `apue_alarm` has it before the insertion. -/
def State.rebased (s : State F) : OrdSet (ℤ ×ₗ F) :=
  if 0 < s.left then
    match s.alarmSet.begin? with
    | none => s.alarmSet
    | some p => rebase ((ofLex p).1 - s.left) s.alarmSet
  else s.alarmSet

theorem mem_rebased {p : ℤ ×ₗ F} :
    p ∈ s.rebased ↔ toLex ((ofLex p).1 + s.shift, (ofLex p).2) ∈ s.alarmSet := by
  rw [State.rebased, State.shift]
  split
  · split
    · simp
    · rw [mem_rebase]
  · simp

theorem size_rebased (s : State F) : s.rebased.size = s.alarmSet.size := by
  rw [State.rebased]
  split
  · split
    · rfl
    · exact size_rebase ..
  · rfl

/-- `apue_alarm` with arguments that it accepts. -/
theorem apueAlarmSection_eq {seconds : ℤ} (hpos : 0 < seconds) (f : F) (s : State F) :
    apueAlarmSection seconds (some f) s = resetSystemAlarm { s with
      handlerIsSet := true
      sysAlarm := none
      alarmSet := s.rebased.insert (toLex (seconds, f)) } := by
  have hle : ¬seconds ≤ 0 := not_le.mpr hpos
  have halarm : alarm 0 { s with handlerIsSet := true } =
      (s.left, { s with handlerIsSet := true, sysAlarm := none }) := rfl
  by_cases hleft : 0 < s.left
  · cases hb : s.alarmSet.begin? with
    | none => simp [apueAlarmSection, hle, halarm, State.rebased, hb]
    | some p => simp [apueAlarmSection, hle, halarm, State.rebased, hb, hleft]
  · simp [apueAlarmSection, hle, halarm, State.rebased, hleft]

/-- `apue_alarm` with arguments that it refuses. -/
theorem apueAlarmSection_of_not {seconds : ℤ} {func : Option F}
    (h : ¬(0 < seconds ∧ func.isSome)) (s : State F) : apueAlarmSection seconds func s = s := by
  cases func with
  | none => rfl
  | some f => exact if_pos (not_lt.mp fun hpos => h ⟨hpos, rfl⟩)

omit [LinearOrder F] in
theorem requested_pos {seconds : ℤ} (hpos : 0 < seconds) (now : ℕ) (f : F) :
    requested now (seconds, some f) = [(now + seconds.toNat, f)] :=
  if_pos hpos

omit [LinearOrder F] in
theorem requested_of_not {seconds : ℤ} {func : Option F} (h : ¬(0 < seconds ∧ func.isSome))
    (now : ℕ) : requested now (seconds, func) = [] := by
  cases func with
  | none => rfl
  | some f => exact if_neg fun hpos => h ⟨hpos, rfl⟩

/-- Timer functions that register nothing ask for no timer. -/
theorem requestedByHandler_nil (s : State F) : requestedByHandler (fun _ => []) s = [] := by
  rw [requestedByHandler]
  split <;> rfl

/-- The handler, when timer functions register nothing. -/
theorem apueAlarmHandler_eq {p : ℤ ×ₗ F} (hb : s.alarmSet.begin? = some p) :
    apueAlarmHandler (fun _ => []) s = resetSystemAlarm { s with
      calls := s.calls ++ [(s.now, (ofLex p).2)]
      alarmSet := rebase (ofLex p).1 s.alarmSet.eraseBegin } := by
  rw [apueAlarmHandler, hb]
  rfl

/-- With no signal pending, restoring the mask delivers nothing. -/
theorem deliver_quiet {body : F → List (ℤ × Option F)} (h : s.sigPending = false) :
    deliver body s = s := by
  simp [deliver, h]

/-- What a step can be. -/
theorem next_cases {body : F → List (ℤ × Option F)} {a : Action F} {s' : State F}
    (hs : next body s a = some s') :
    (a = .tick ∧ s.sysAlarm ≠ some s.now ∧ s' = { s with now := s.now + 1 }) ∨
    (a = .sigalrm ∧ s.sysAlarm = some s.now ∧ s' = deliver body (expire s)) ∨
    (∃ seconds func, a = .apueAlarm seconds func ∧ s.sysAlarm ≠ some s.now ∧ IsInt seconds ∧
      s' = apueAlarm body seconds func s) ∨
    ∃ seconds func, a = .apueAlarmLate seconds func ∧ s.sysAlarm = some s.now ∧ IsInt seconds ∧
      s' = apueAlarm body seconds func (expire s) := by
  cases a <;> simp only [next, Option.ite_none_right_eq_some, Option.some.injEq] at hs
  case tick => exact .inl ⟨rfl, hs.1, hs.2.symm⟩
  case sigalrm => exact .inr (.inl ⟨rfl, hs.1, hs.2.symm⟩)
  case apueAlarm seconds func =>
      exact .inr (.inr (.inl ⟨seconds, func, rfl, hs.1.1, hs.1.2, hs.2.symm⟩))
  case apueAlarmLate seconds func =>
      exact .inr (.inr (.inr ⟨seconds, func, rfl, hs.1.1, hs.1.2, hs.2.symm⟩))

end Functions

end Apue.Timers
