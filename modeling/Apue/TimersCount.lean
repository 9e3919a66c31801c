/-
Apue/TimersCount.lean

How many timers are in `alarm_set`.

The set is keyed by remaining time and function.  Rebuilding it moves all times by the same
amount, so that no two entries meet then; but a registration whose function has a timer in
the set with the same remaining time is not added.  So the entries, the calls made and the
registrations that were lost in this way are as many as the registrations
(`registered_eq`), whatever else happens.  Registrations and losses are recorded from the
calls.
-/
import Apue.Timers

namespace Apue.Timers

variable {F : Type*} [LinearOrder F]

/-! ### Lost registrations -/

/-- The remaining time of an entry, when `apue_alarm` is called. -/
def State.remaining (s : State F) (p : ℤ ×ₗ F) : ℤ := (ofLex p).1 - s.shift

/-- A timer of function `f` with this remaining time is in the set. -/
def State.Has (s : State F) (seconds : ℤ) (f : F) : Prop :=
  ∃ p ∈ s.alarmSet.elems, s.remaining p = seconds ∧ (ofLex p).2 = f

instance (s : State F) (seconds : ℤ) (f : F) : Decidable (s.Has seconds f) :=
  inferInstanceAs (Decidable (∃ p ∈ s.alarmSet.elems, _ ∧ _))

/-- The registration that a call of `apue_alarm` in this state loses, if it loses one. -/
def lostBy (s : State F) (seconds : ℤ) : Option F → List (ℤ × F)
  | none => []
  | some f => if 0 < seconds ∧ s.Has seconds f then [(seconds, f)] else []

/-- The registration that a step loses. -/
def lost (s : State F) : Action F → List (ℤ × F)
  | .tick | .sigalrm => []
  | .apueAlarm seconds func => lostBy s seconds func
  | .apueAlarmLate seconds func => lostBy (expire s) seconds func

/-- The program, with the registrations made and those that were lost; timer functions register
nothing. -/
def timersLost (F : Type*) [LinearOrder F] :
    Machine ((State F × List (ℕ × F)) × List (ℤ × F)) (Action F) :=
  (timersRegistered fun _ => []).recorded fun p => lost p.1

theorem has_iff {s : State F} {seconds : ℤ} {f : F} :
    s.Has seconds f ↔ toLex (seconds, f) ∈ s.rebased := by
  rw [mem_rebased]
  constructor
  · rintro ⟨p, hp, rfl, rfl⟩
    simpa [State.remaining, OrdSet.mem_def] using hp
  · intro h
    exact ⟨_, h, by simp [State.remaining], rfl⟩

/-! ### The balance -/

/-- The `n` registrations are the entries, the calls, and `k` more. -/
def State.Balance (s : State F) (n k : ℕ) : Prop :=
  n = s.alarmSet.size + s.calls.length + k

section Steps

variable {s s' : State F} {n k : ℕ}

theorem balance_reset (h : s.Balance n k) : (resetSystemAlarm s).Balance n k := by
  obtain ⟨e, he⟩ := resetSystemAlarm_frame s
  rw [he]
  exact h

/-- A registration adds an entry, or is lost. -/
theorem balance_section (h : s.Balance n k) (seconds : ℤ) (func : Option F) :
    (apueAlarmSection seconds func s).Balance (n + (requested s.now (seconds, func)).length)
      (k + (lostBy s seconds func).length) := by
  cases func with
  | none => exact h
  | some f =>
      rw [lostBy]
      by_cases hpos : 0 < seconds
      · rw [apueAlarmSection_eq hpos, requested_pos hpos, List.length_singleton]
        refine balance_reset ?_
        have hbal : n = s.alarmSet.size + s.calls.length + k := h
        have hsize := OrdSet.size_insert s.rebased (toLex (seconds, f))
        rw [size_rebased] at hsize
        show n + 1 = (s.rebased.insert _).size + s.calls.length + _
        rw [hsize]
        -- `std::set` keeps one of two equal entries
        by_cases hmem : toLex (seconds, f) ∈ s.rebased
        · rw [if_pos hmem, if_pos ⟨hpos, has_iff.mpr hmem⟩, List.length_singleton]
          omega
        · rw [if_neg hmem, if_neg fun hh => hmem (has_iff.mp hh.2), List.length_nil]
          omega
      · rw [apueAlarmSection_of_not fun hh => hpos hh.1, requested_of_not fun hh => hpos hh.1,
          if_neg fun hh => hpos hh.1]
        exact h

/-- The handler takes one entry for the call that it makes. -/
theorem balance_handler (h : s.Balance n k) :
    (apueAlarmHandler (fun _ => []) s).Balance n k := by
  cases hb : s.alarmSet.begin? with
  | none =>
      rw [apueAlarmHandler, hb]
      exact h
  | some p =>
      rw [apueAlarmHandler_eq hb]
      refine balance_reset ?_
      have hbal : n = s.alarmSet.size + s.calls.length + k := h
      have hsize := OrdSet.size_eraseBegin hb
      show n = (rebase _ s.alarmSet.eraseBegin).size + (s.calls ++ [_]).length + k
      rw [size_rebase, List.length_append, List.length_singleton]
      omega

theorem balance_deliver (h : s.Balance n k) : (deliver (fun _ => []) s).Balance n k := by
  rw [deliver]
  split
  · exact balance_handler h
  · exact h

/-- **Every step keeps the balance.** -/
theorem balance_next {a : Action F} (h : s.Balance n k)
    (hs : next (fun _ => []) s a = some s') :
    s'.Balance (n + (registers (fun _ => []) s a).length) (k + (lost s a).length) := by
  obtain ⟨rfl, -, rfl⟩ | ⟨rfl, -, rfl⟩ | ⟨seconds, func, rfl, -, -, rfl⟩ |
    ⟨seconds, func, rfl, -, -, rfl⟩ := next_cases hs
  · exact h
  · rw [registers, requestedByHandler_nil]
    exact balance_deliver h
  · exact balance_deliver (balance_section h seconds func)
  · rw [registers, requestedByHandler_nil, List.append_nil]
    exact balance_deliver (balance_section (s := expire s) h seconds func)

end Steps

/-- **No timer disappears otherwise.**  In every run the registrations are the entries, the calls
and the registrations that were lost. -/
theorem registered_eq {s : State F} {registered : List (ℕ × F)} {ls : List (ℤ × F)}
    (h : (timersLost F).Reach ((s, registered), ls)) :
    registered.length = s.alarmSet.size + s.calls.length + ls.length := by
  refine h.invariant (I := fun p => p.1.1.Balance p.1.2.length p.2.length) ?_
    fun p a p' hi hs => ?_
  · rintro ⟨⟨s, registered⟩, ls⟩ ⟨⟨⟨now, rfl⟩, rfl⟩, rfl⟩
    rfl
  · obtain ⟨hnext, hls⟩ := Machine.recorded_next hs
    obtain ⟨hnext, hregistered⟩ := Machine.recorded_next hnext
    rw [hls, hregistered, List.length_append, List.length_append]
    exact balance_next hi hnext

/-- The set has an entry for each registration that has not fired, as long as no call of
`apue_alarm` found a timer of the same function with the same remaining time. -/
theorem size_add_calls_iff {s : State F} {registered : List (ℕ × F)} {ls : List (ℤ × F)}
    (h : (timersLost F).Reach ((s, registered), ls)) :
    s.alarmSet.size + s.calls.length = registered.length ↔ ls = [] := by
  rw [registered_eq h, ← List.length_eq_zero_iff]
  omega

/-- The calls of the program's `main`, up to the first signal. -/
def startRun : List (Action ℕ) :=
  [.apueAlarm 3 (some 0), .apueAlarm 5 (some 0), .apueAlarm 2 (some 0), .tick, .tick, .sigalrm]

theorem startRun_size : ∃ s, (timersLost ℕ).Reach ((s, [(3, 0), (5, 0), (2, 0)]), []) ∧
    s.alarmSet.size = 2 ∧ s.alarmSet.size + s.calls.length = 3 := by
  have hrun : ((timersLost ℕ).run ((initState 0, []), []) startRun).map
      (fun p => (p.2, p.1.2, p.1.1.alarmSet.size)) = some ([], [(3, 0), (5, 0), (2, 0)], 2) := by
    decide +kernel
  obtain ⟨⟨⟨s, registered⟩, ls⟩, hs, hobs⟩ := Option.map_eq_some_iff.mp hrun
  simp only [Prod.mk.injEq] at hobs
  obtain ⟨rfl, rfl, hsize⟩ := hobs
  have hreach := Machine.reach_of_run (M := timersLost ℕ) ⟨⟨⟨0, rfl⟩, rfl⟩, rfl⟩ hs
  exact ⟨s, hreach, hsize, (size_add_calls_iff hreach).mpr rfl⟩

/-- The second of two timers of one function, due at the same time, is not added. -/
def twiceRun : List (Action ℕ) := [.apueAlarm 3 (some 0), .tick, .apueAlarm 2 (some 0)]

theorem twiceRun_size : ∃ s, (timersLost ℕ).Reach ((s, [(3, 0), (3, 0)]), [(2, 0)]) ∧
    s.calls = [] ∧ s.alarmSet.size = 1 := by
  have hrun : ((timersLost ℕ).run ((initState 0, []), []) twiceRun).map
      (fun p => ((p.1.2, p.2), p.1.1.calls, p.1.1.alarmSet.size)) =
      some (([(3, 0), (3, 0)], [(2, 0)]), [], 1) := by
    decide +kernel
  obtain ⟨⟨⟨s, registered⟩, ls⟩, hs, hobs⟩ := Option.map_eq_some_iff.mp hrun
  simp only [Prod.mk.injEq] at hobs
  obtain ⟨⟨rfl, rfl⟩, hcalls, hsize⟩ := hobs
  have hreach := Machine.reach_of_run (M := timersLost ℕ) ⟨⟨⟨0, rfl⟩, rfl⟩, rfl⟩ hs
  exact ⟨s, hreach, hcalls, hsize⟩

end Apue.Timers
