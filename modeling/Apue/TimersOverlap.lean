/-
Apue/TimersOverlap.lean

Registration and expiry at the same moment.

There are two ways for `apue_alarm` to run between the expiry of the first timer and its
removal from `alarm_set`: a timer function calls it, while the handler still has the timer
that it serves in the set; or the alarm expires while `apue_alarm` has `SIGALRM` blocked,
and the handler runs at its end.  In both cases `alarm(0)` returns 0, as it does when no
timer is pending, so the set is not rebased, and the new timer is put among times that count
from an earlier moment.  What the handler then takes for the fired timer is the first one of
all, and what it subtracts was never part of the new timer's time.

A registration from a timer function never comes out right.  An expiry during a registration
does only when all timers have the same function and their times happen to be such that the
wrong times are those of other timers.
-/
import Mathlib.Data.List.Perm.Basic
import Mathlib.Tactic.Ring
import Apue.Timers

namespace Apue.Timers

variable {F : Type*} [LinearOrder F]

/-! ### The first timer is due -/

/-- The first timer of the set is due now, and the others are not overdue. -/
structure Due (s : State F) (p : ℤ ×ₗ F) : Prop where
  quiet : s.sigPending = false
  alarm : s.sysAlarm = some s.now
  first : s.alarmSet.begin? = some p
  pos : ∀ q ∈ s.alarmSet, 0 < (ofLex q).1

/-- An entry with `d` seconds less. -/
def minus (d : ℤ) (q : ℤ ×ₗ F) : ℤ ×ₗ F := toLex ((ofLex q).1 - d, (ofLex q).2)

/-- What should be pending once the first timer `p` has fired and a timer has been registered:
the new timer with `seconds` to go, and every other timer with the time that is left of it. -/
def expected (s : State F) (p : ℤ ×ₗ F) (seconds : ℤ) (f : F) : List (ℤ ×ₗ F) :=
  toLex (seconds, f) :: s.alarmSet.eraseBegin.elems.map (minus (ofLex p).1)

section Insert

variable {a : OrdSet (ℤ ×ₗ F)} {p new : ℤ ×ₗ F}

/-- What is behind the first entry after an insertion. -/
theorem elems_insert_eraseBegin (hp : a.begin? = some p) :
    (a.insert new).eraseBegin.elems =
      if new < p then a.elems
      else if new = p then a.eraseBegin.elems else OrdSet.insertList new a.eraseBegin.elems := by
  show (OrdSet.insertList new a.elems).tail = _
  rw [OrdSet.elems_of_begin? hp, OrdSet.insertList]
  split
  · rfl
  · split <;> rfl

/-- The first entry after an insertion. -/
theorem begin?_insert (hp : a.begin? = some p) :
    (a.insert new).begin? = some (if new < p then new else p) := by
  show (OrdSet.insertList new a.elems).head? = _
  rw [OrdSet.elems_of_begin? hp, OrdSet.insertList]
  split
  · rfl
  · split <;> rfl

end Insert

/-- A list with one element exchanged. -/
theorem eq_of_perm_cons {α : Type*} {a b : α} {l : List α} (h : (a :: l).Perm (b :: l)) :
    a = b := by
  have h' : ([a] ++ l).Perm ([b] ++ l) := h
  exact List.singleton_perm_singleton.mp ((List.perm_append_right_iff l).mp h')

/-- A new timer that is put behind the first one does not keep its time. -/
theorem not_perm_insertList {rest : List (ℤ ×ₗ F)} {new : ℤ ×ₗ F} {d : ℤ} (hd : 0 < d)
    (hrest : rest.Pairwise (· < ·)) :
    ¬((OrdSet.insertList new rest).map (minus d)).Perm (new :: rest.map (minus d)) := by
  intro hperm
  by_cases hmem : new ∈ rest
  · have hlen := hperm.length_eq
    rw [OrdSet.insertList_of_mem hrest hmem] at hlen
    simp at hlen
  · have hcons := ((OrdSet.perm_insertList hmem).map (minus d)).symm.trans hperm
    have hnew : minus d new = new := eq_of_perm_cons hcons
    have hfst : (ofLex new).1 - d = (ofLex new).1 := congrArg (fun q => (ofLex q).1) hnew
    omega

/-- `apue_alarm` after the alarm has expired: nothing is rebased. -/
theorem alarmSet_section {s : State F} {seconds : ℤ} (halarm : s.sysAlarm = none)
    (hpos : 0 < seconds) (f : F) :
    (apueAlarmSection seconds (some f) s).alarmSet = s.alarmSet.insert (toLex (seconds, f)) := by
  have hrebased : s.rebased = s.alarmSet := by
    simp [State.rebased, State.left, halarm]
  rw [apueAlarmSection_eq hpos, resetSystemAlarm_alarmSet, hrebased]

/-! ### Registration from a timer function -/

/-- The handler, when the timer function registers a timer. -/
theorem apueAlarmHandler_registers {s : State F} {p : ℤ ×ₗ F} {body : F → List (ℤ × Option F)}
    {seconds : ℤ} {g : F} (hp : s.alarmSet.begin? = some p) (halarm : s.sysAlarm = none)
    (hbody : body (ofLex p).2 = [(seconds, some g)]) (hpos : 0 < seconds) :
    (apueAlarmHandler body s).alarmSet =
      rebase (ofLex p).1 (s.alarmSet.insert (toLex (seconds, g))).eraseBegin := by
  rw [apueAlarmHandler, hp]
  dsimp only
  rw [resetSystemAlarm_alarmSet, callFunction, hbody, List.foldl_cons, List.foldl_nil]
  have hsection := alarmSet_section
    (s := { s with calls := s.calls ++ [(s.now, (ofLex p).2)] }) halarm hpos g
  dsimp only at hsection ⊢
  rw [hsection]

/-- **A timer that a timer function registers never comes out right.**  Whatever timers are
pending, after the handler the set is not what it should be, and if the new timer is due at
a time of its own, it is not pending with its time. -/
theorem registration_in_handler_lost {body : F → List (ℤ × Option F)} {s s' : State F}
    {p : ℤ ×ₗ F} {seconds : ℤ} {g : F} (hdue : Due s p)
    (hbody : body (ofLex p).2 = [(seconds, some g)]) (hpos : 0 < seconds)
    (hs : (timers body).next s .sigalrm = some s') :
    ¬ s'.alarmSet.elems.Perm (expected s p seconds g) ∧
    ((∀ q ∈ s.alarmSet, (ofLex q).1 ≠ (ofLex p).1 + seconds) →
      toLex (seconds, g) ∉ s'.alarmSet) := by
  have hp := hdue.pos p (OrdSet.mem_of_begin? hdue.first)
  have hset : s'.alarmSet =
      rebase (ofLex p).1 (s.alarmSet.insert (toLex (seconds, g))).eraseBegin := by
    obtain rfl : deliver body (expire s) = s' := by
      change (if _ then _ else _) = _ at hs
      rw [if_pos hdue.alarm] at hs
      exact Option.some.inj hs
    exact apueAlarmHandler_registers (s := { expire s with sigPending := false }) hdue.first rfl
      hbody hpos
  refine ⟨fun hperm => ?_, fun hother hmem => ?_⟩
  · rw [hset, elems_rebase, elems_insert_eraseBegin hdue.first] at hperm
    split at hperm
    · -- the new timer was erased; the fired one is still there, with 0 seconds
      rw [OrdSet.elems_of_begin? hdue.first, List.map_cons] at hperm
      have heq := congrArg (fun q => (ofLex q).1) (eq_of_perm_cons hperm)
      change (ofLex p).1 - (ofLex p).1 = seconds at heq
      omega
    · split at hperm
      · have hlen := hperm.length_eq
        simp [expected] at hlen
      · exact not_perm_insertList hp s.alarmSet.eraseBegin.sorted hperm
  · rw [hset, mem_rebase] at hmem
    have hmem' := List.mem_of_mem_tail hmem
    rcases OrdSet.mem_insert.mp hmem' with heq | hold
    · have hfst := congrArg (fun q => (ofLex q).1) heq
      change seconds + (ofLex p).1 = seconds at hfst
      omega
    · exact hother _ hold (Int.add_comm ..)

/-- A timer function that registers a timer of 5 seconds. -/
def nestedBody (f : Bool) : List (ℤ × Option Bool) := if f then [] else [(5, some true)]

/-- Up to the moment at which its timer of 2 seconds is due. -/
def nestedRun : List (Action Bool) := [.apueAlarm 2 (some false), .tick, .tick]

/-- A run that ends when its only timer is due. -/
theorem due_of_run (body : Bool → List (ℤ × Option Bool)) (acts : List (Action Bool)) {t : ℕ}
    {p : ℤ × Bool} (hpos : 0 < p.1)
    (hrun : ((timers body).run (initState 0) acts).map
      (fun s => (s.sigPending, s.sysAlarm, s.now, s.alarmSet.elems.map ofLex)) =
        some (false, some t, t, [p])) :
    ∃ s, (timers body).Reach s ∧ Due s (toLex p) ∧ s.alarmSet.elems = [toLex p] := by
  obtain ⟨s, hs, heq⟩ := Option.map_eq_some_iff.mp hrun
  simp only [Prod.mk.injEq] at heq
  obtain ⟨hquiet, halarm, hnow, helems⟩ := heq
  have hset : s.alarmSet.elems = [toLex p] := by
    have hlex := congrArg (List.map toLex) helems
    simpa using hlex
  refine ⟨s, Machine.reach_of_run (M := timers body) ⟨0, rfl⟩ hs, ⟨hquiet, ?_, ?_, ?_⟩, hset⟩
  · rw [halarm, hnow]
  · rw [OrdSet.begin?, hset]
    rfl
  · intro q hq
    rw [OrdSet.mem_def, hset, List.mem_singleton] at hq
    rw [hq]
    exact hpos

/-- When it fires at time 2, the new timer is registered for time 7 but has 3 seconds to go. -/
theorem nestedRun_wrong : ∃ s,
    (timersRegistered nestedBody).Reach (s, [(2, false), (7, true)]) ∧ s.now = 2 ∧
    s.calls = [(2, false)] ∧ s.alarmSet.elems.map ofLex = [(3, true)] := by
  have hrun : ((timersRegistered nestedBody).run (initState 0, []) (nestedRun ++ [.sigalrm])).map
      (fun p => ((p.2, p.1.now), p.1.calls, p.1.alarmSet.elems.map ofLex)) =
        some (([(2, false), (7, true)], 2), [(2, false)], [(3, true)]) := by
    decide +kernel
  obtain ⟨⟨s, registered⟩, hs, heq⟩ := Option.map_eq_some_iff.mp hrun
  simp only [Prod.mk.injEq] at heq
  obtain ⟨⟨rfl, hnow⟩, hobs⟩ := heq
  exact ⟨s, Machine.reach_of_run (M := timersRegistered nestedBody) ⟨⟨0, rfl⟩, rfl⟩ hs, hnow, hobs⟩

theorem nestedRun_lost : ∃ s s', (timers nestedBody).Reach s ∧
    (timers nestedBody).next s .sigalrm = some s' ∧ toLex (5, true) ∉ s'.alarmSet := by
  obtain ⟨s, hreach, hdue, hset⟩ :=
    due_of_run nestedBody nestedRun (t := 2) (p := (2, false)) (by decide)
      (by decide +kernel)
  have hnext : (timers nestedBody).next s .sigalrm =
      some (deliver nestedBody (expire s)) := if_pos hdue.alarm
  refine ⟨s, _, hreach, hnext, ?_⟩
  refine (registration_in_handler_lost hdue rfl (by decide) hnext).2 fun q hq => ?_
  rw [OrdSet.mem_def, hset, List.mem_singleton] at hq
  rw [hq]
  decide

/-! ### Expiry during a registration -/

/-- `apue_alarm` during which the first timer expires: the handler takes the first entry of the
set that has the new timer in it. -/
theorem apueAlarmLate_eq {s s' : State F} {q : ℤ ×ₗ F} {seconds : ℤ} {f : F}
    (hpos : 0 < seconds) (hq : (s.alarmSet.insert (toLex (seconds, f))).begin? = some q)
    (hs : (timers fun _ => []).next s (.apueAlarmLate seconds (some f)) = some s') :
    s'.calls = s.calls ++ [(s.now, (ofLex q).2)] ∧
      s'.alarmSet = rebase (ofLex q).1 (s.alarmSet.insert (toLex (seconds, f))).eraseBegin := by
  obtain rfl : deliver (fun _ => []) (apueAlarmSection seconds (some f) (expire s)) = s' := by
    change (if _ then _ else _) = _ at hs
    split at hs
    · exact Option.some.inj hs
    · cases hs
  -- the section adds the new timer, and leaves the signal pending
  have hset := alarmSet_section (s := expire s) rfl hpos f
  obtain ⟨e, he⟩ := resetSystemAlarm_frame { expire s with
    handlerIsSet := true
    sysAlarm := none
    alarmSet := (expire s).rebased.insert (toLex (seconds, f)) }
  have hsection := (apueAlarmSection_eq hpos f (expire s)).trans he
  generalize apueAlarmSection seconds (some f) (expire s) = s₁ at hset hsection ⊢
  have hpending : s₁.sigPending = true := by rw [hsection]; rfl
  have hcalls : s₁.calls = s.calls := by rw [hsection]; rfl
  have hnow : s₁.now = s.now := by rw [hsection]; rfl
  have hfirst : ({ s₁ with sigPending := false } : State F).alarmSet.begin? = some q := by
    show s₁.alarmSet.begin? = some q
    rw [hset]
    exact hq
  rw [deliver, if_pos hpending, apueAlarmHandler_eq hfirst, resetSystemAlarm_calls,
    resetSystemAlarm_alarmSet]
  dsimp only
  rw [hcalls, hnow, hset]
  exact ⟨rfl, rfl⟩

/-- `n` timers with function `f`, due at `t`, `t + d`, `t + 2 d` and so on. -/
def progression (f : F) (d : ℤ) : ℕ → ℤ → List (ℤ ×ₗ F)
  | 0, _ => []
  | n + 1, t => toLex (t, f) :: progression f d n (t + d)

omit [LinearOrder F] in
theorem map_minus_progression (f : F) (d c : ℤ) : ∀ (n : ℕ) (t : ℤ),
    (progression f d n t).map (minus c) = progression f d n (t - c) := by
  intro n
  induction n with
  | zero => exact fun t => rfl
  | succ n ih =>
      intro t
      rw [progression, List.map_cons, ih, progression, sub_add_eq_add_sub]
      rfl

omit [LinearOrder F] in
/-- The last timer can be put first. -/
theorem perm_progression (f : F) (d : ℤ) : ∀ (n : ℕ) (t : ℤ),
    (progression f d (n + 1) t).Perm (toLex (t + n * d, f) :: progression f d n t) := by
  intro n
  induction n with
  | zero =>
      intro t
      rw [Nat.cast_zero, zero_mul, add_zero]
      exact .refl _
  | succ n ih =>
      intro t
      have hlast : t + d + n * d = t + ((n + 1 : ℕ) : ℤ) * d := by
        push_cast
        ring
      rw [progression, progression, ← hlast]
      exact ((ih (t + d)).cons _).trans (.swap _ _ _)

omit [LinearOrder F] in
theorem map_minus_map (a b : ℤ) (l : List (ℤ ×ₗ F)) :
    (l.map (minus a)).map (minus b) = l.map (minus (a + b)) := by
  rw [List.map_map]
  refine List.map_congr_left fun q _ => ?_
  simp only [minus, Function.comp_apply, ofLex_toLex, sub_sub]

omit [LinearOrder F] in
theorem map_minus_zero (l : List (ℤ ×ₗ F)) : l.map (minus 0) = l := by
  refine (List.map_congr_left fun q _ => ?_).trans (List.map_id' l)
  simp [minus]

/-- If delaying all timers of a list by `d` amounts to exchanging one timer, the timers are those
of a progression. -/
theorem progression_of_perm {d : ℤ} (hd : 0 < d) : ∀ (l : List (ℤ ×ₗ F)) (t : ℤ) (g : F)
    (b : ℤ ×ₗ F), l.Pairwise (· < ·) → (toLex (t, g) :: l.map (minus (-d))).Perm (b :: l) →
    l = progression g d l.length t ∧ b = toLex (t + l.length * d, g) := by
  intro l
  induction l with
  | nil =>
      intro t g b _ hperm
      refine ⟨rfl, ?_⟩
      rw [List.length_nil, Nat.cast_zero, zero_mul, add_zero]
      exact (List.singleton_perm_singleton.mp hperm).symm
  | cons r l ih =>
      intro t g b hsorted hperm
      obtain ⟨hr, hl⟩ := List.pairwise_cons.mp hsorted
      have hlt : ∀ q, r ≤ q → r ≠ minus (-d) q := by
        rintro q hq rfl
        have hfst := Prod.Lex.le_iff.mp hq
        simp only [minus, ofLex_toLex] at hfst
        omega
      -- the first timer of the list is not a delayed one
      have hmem : r = toLex (t, g) := by
        have hin := hperm.mem_iff.mpr (List.mem_cons_of_mem b List.mem_cons_self)
        rcases List.mem_cons.mp hin with heq | hin
        · exact heq
        · obtain ⟨q, hq, heq⟩ := List.mem_map.mp hin
          rcases List.mem_cons.mp hq with rfl | hq
          · exact absurd heq.symm (hlt _ le_rfl)
          · exact absurd heq.symm (hlt q (hr q hq).le)
      subst hmem
      have hrest : (toLex (t + d, g) :: l.map (minus (-d))).Perm (b :: l) := by
        have hswap := hperm.trans (.swap _ b l)
        have hcons := List.Perm.cons_inv hswap
        rw [List.map_cons] at hcons
        simpa only [minus, ofLex_toLex, sub_neg_eq_add] using hcons
      obtain ⟨hl', hb⟩ := ih (t + d) g b hl hrest
      refine ⟨congrArg (toLex (t, g) :: ·) hl', hb.trans ?_⟩
      rw [List.length_cons]
      push_cast
      congr 2
      ring

/-- The handler has served the timer `p`, which expired: its function was called, and the other
timers and the new one are pending with their times. -/
def Served (s s' : State F) (p : ℤ ×ₗ F) (seconds : ℤ) (f : F) : Prop :=
  s'.calls = s.calls ++ [(s.now, (ofLex p).2)] ∧ s'.alarmSet.elems.Perm (expected s p seconds f)

/-- If the pending timers are a progression, taking off the new timer's time does to them what
taking off the first one's time and adding the new timer would do. -/
theorem perm_expected_of_progression {s : State F} {p : ℤ ×ₗ F} {seconds d : ℤ} {f : F} {n : ℕ}
    (hdue : Due s p) (hseconds : seconds = (n + 1) * d)
    (hprog : s.alarmSet.elems = progression f d (n + 1) (seconds + d)) :
    (s.alarmSet.elems.map (minus seconds)).Perm (expected s p seconds f) := by
  have helems := OrdSet.elems_of_begin? hdue.first
  rw [hprog, progression] at helems
  obtain ⟨rfl, hrest⟩ := List.cons.inj helems
  rw [hprog, map_minus_progression, expected, ← hrest, map_minus_progression]
  have hperm := perm_progression f d n d
  have hlast : d + n * d = seconds := by
    rw [hseconds]
    ring
  rw [hlast] at hperm
  rw [add_sub_cancel_left]
  show (progression f d (n + 1) d).Perm
    (toLex (seconds, f) :: progression f d n (seconds + d + d - (seconds + d)))
  rw [add_sub_cancel_left]
  exact hperm

/-- The converse, for a new timer with an earlier time and the same function. -/
theorem progression_of_perm_expected {s : State F} {p : ℤ ×ₗ F} {seconds : ℤ} (hdue : Due s p)
    (hseconds : seconds < (ofLex p).1)
    (hperm : (s.alarmSet.elems.map (minus seconds)).Perm (expected s p seconds (ofLex p).2)) :
    ∃ (n : ℕ) (d : ℤ), 0 < d ∧ seconds = (n + 1) * d ∧
      s.alarmSet.elems = progression (ofLex p).2 d (n + 1) (seconds + d) := by
  have helems := OrdSet.elems_of_begin? hdue.first
  -- the timers behind the first one, with the times that they should have
  set l := s.alarmSet.eraseBegin.elems.map (minus (ofLex p).1) with hl
  set d := (ofLex p).1 - seconds with hd
  have hsorted : l.Pairwise (· < ·) := by
    have := (rebase (ofLex p).1 s.alarmSet.eraseBegin).sorted
    rwa [elems_rebase] at this
  have hdelayed : s.alarmSet.elems.map (minus seconds)
      = toLex (d, (ofLex p).2) :: l.map (minus (-d)) := by
    have hsum : (ofLex p).1 + -d = seconds := by omega
    rw [helems, List.map_cons, hl, map_minus_map, hsum]
    rfl
  rw [hdelayed] at hperm
  obtain ⟨hprog, hnew⟩ := progression_of_perm (sub_pos.mpr hseconds) l d _ _ hsorted hperm
  refine ⟨l.length, d, sub_pos.mpr hseconds, ?_, ?_⟩
  · have hfst : seconds = d + l.length * d := congrArg (fun q => (ofLex q).1) hnew
    rw [hfst]
    ring
  · have hback : s.alarmSet.eraseBegin.elems = l.map (minus (-(ofLex p).1)) := by
      rw [hl, map_minus_map, add_neg_cancel, map_minus_zero]
    have hmap : l.map (minus (-(ofLex p).1))
        = progression (ofLex p).2 d l.length (seconds + d + d) := by
      have ht : d - -(ofLex p).1 = seconds + d + d := by omega
      conv_lhs => rw [hprog, map_minus_progression, ht]
    have hp : toLex (seconds + d, (ofLex p).2) = p := by
      rw [hd, add_sub_cancel]
      rfl
    rw [helems, hback, hmap, progression, hp]

/-- The new timer comes before the one that expired. -/
theorem served_of_lt {s s' : State F} {p : ℤ ×ₗ F} {seconds : ℤ} {f : F} (hdue : Due s p)
    (hlt : toLex (seconds, f) < p) (hcalls : s'.calls = s.calls ++ [(s.now, f)])
    (hset : s'.alarmSet.elems = s.alarmSet.elems.map (minus seconds)) :
    Served s s' p seconds f ↔ ∃ (n : ℕ) (d : ℤ), 0 < d ∧ seconds = (n + 1) * d ∧
      s.alarmSet.elems = progression f d (n + 1) (seconds + d) := by
  constructor
  · rintro ⟨hcall, hperm⟩
    have hf : f = (ofLex p).2 := by
      have heq := List.append_cancel_left (hcalls.symm.trans hcall)
      exact congrArg Prod.snd (List.singleton_inj.mp heq)
    subst hf
    have hseconds : seconds < (ofLex p).1 := by
      rcases Prod.Lex.lt_iff.mp hlt with h | ⟨-, h⟩
      · exact h
      · exact absurd h (lt_irrefl _)
    rw [hset] at hperm
    exact progression_of_perm_expected hdue hseconds hperm
  · rintro ⟨n, d, hd, hseconds, hprog⟩
    have hperm := perm_expected_of_progression hdue hseconds hprog
    rw [← hset] at hperm
    have helems := OrdSet.elems_of_begin? hdue.first
    rw [hprog, progression] at helems
    obtain ⟨rfl, -⟩ := List.cons.inj helems
    exact ⟨hcalls, hperm⟩

/-- **An expiry during a registration** is served as it should be exactly if all pending timers
have the function of the new one, and their times go up in equal steps `d` from the new time, which
is `d` times their number. -/
theorem expiry_in_registration_iff {s s' : State F} {p : ℤ ×ₗ F} {seconds : ℤ} {f : F}
    (hdue : Due s p) (hpos : 0 < seconds)
    (hs : (timers fun _ => []).next s (.apueAlarmLate seconds (some f)) = some s') :
    Served s s' p seconds f ↔ ∃ (n : ℕ) (d : ℤ), 0 < d ∧ seconds = (n + 1) * d ∧
      s.alarmSet.elems = progression f d (n + 1) (seconds + d) := by
  obtain ⟨hcalls, hset⟩ := apueAlarmLate_eq hpos (begin?_insert hdue.first) hs
  have helems := (congrArg OrdSet.elems hset).trans (elems_rebase _ _)
  rw [elems_insert_eraseBegin hdue.first] at helems
  by_cases hlt : toLex (seconds, f) < p
  · rw [if_pos hlt] at hcalls helems
    rw [if_pos hlt] at helems
    exact served_of_lt hdue hlt hcalls helems
  · rw [if_neg hlt] at helems
    rw [if_neg hlt] at helems
    refine iff_of_false ?_ ?_
    · -- the new timer is behind the one that expired, and loses time with the others
      rintro ⟨-, hperm⟩
      rw [helems] at hperm
      split at hperm
      · have hlen := hperm.length_eq
        simp [expected] at hlen
      · exact not_perm_insertList (hdue.pos p (OrdSet.mem_of_begin? hdue.first))
          s.alarmSet.eraseBegin.sorted hperm
    · rintro ⟨n, d, hd, -, hprog⟩
      rw [OrdSet.elems_of_begin? hdue.first, progression] at hprog
      obtain ⟨rfl, -⟩ := List.cons.inj hprog
      refine hlt (Prod.Lex.lt_iff.mpr (.inl ?_))
      show seconds < seconds + d
      omega

/-- Up to the moment at which a timer of 2 seconds is due. -/
def dueRun : List (Action Bool) := [.apueAlarm 2 (some false), .tick, .tick]

/-- A timer of 1 second with the same function is registered at that moment: it is taken for the
old one, and the old one for it. -/
theorem dueRun_served : ∃ s s', (timers fun _ => []).Reach s ∧ Due s (toLex (2, false)) ∧
    (timers fun _ => []).next s (.apueAlarmLate 1 (some false)) = some s' ∧
    Served s s' (toLex (2, false)) 1 false := by
  obtain ⟨s, hreach, hdue, hset⟩ :=
    due_of_run (fun _ => []) dueRun (t := 2) (p := (2, false)) (by decide)
      (by decide +kernel)
  have hnext : (timers fun _ => []).next s (.apueAlarmLate 1 (some false)) =
      some (apueAlarm (fun _ => []) 1 (some false) (expire s)) :=
    if_pos ⟨hdue.alarm, by decide⟩
  refine ⟨s, _, hreach, hdue, hnext, ?_⟩
  exact (expiry_in_registration_iff hdue (by decide) hnext).mpr ⟨0, 1, by decide, by decide, hset⟩

/-- A timer of 1 second with another function is registered at that moment: its function is called
at once, and the timer that expired has 1 second to go. -/
theorem dueRun_wrong : ∃ s,
    (timersRegistered fun _ => []).Reach (s, [(2, false), (3, true)]) ∧ s.now = 2 ∧
    s.calls = [(2, true)] ∧ s.alarmSet.elems.map ofLex = [(1, false)] := by
  have hrun : ((timersRegistered fun _ => []).run (initState 0, [])
      (dueRun ++ [.apueAlarmLate 1 (some true)])).map
      (fun p => ((p.2, p.1.now), p.1.calls, p.1.alarmSet.elems.map ofLex)) =
        some (([(2, false), (3, true)], 2), [(2, true)], [(1, false)]) := by
    decide +kernel
  obtain ⟨⟨s, registered⟩, hs, heq⟩ := Option.map_eq_some_iff.mp hrun
  simp only [Prod.mk.injEq] at heq
  obtain ⟨⟨rfl, hnow⟩, hobs⟩ := heq
  exact ⟨s, Machine.reach_of_run (M := timersRegistered fun _ => []) ⟨⟨0, rfl⟩, rfl⟩ hs, hnow, hobs⟩

end Apue.Timers
