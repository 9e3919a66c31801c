/-
Apue/TimersArmed.lean

Whether the system alarm is armed while there are timers.

The stored times count from the last time at which the set was rebuilt, by `apue_alarm` or
by the handler; the history of these moments is kept beside the state (`rebuilds`).  As long
as each timer that fires is alone, the alarm is armed for the first entry (`Sound`).  When
another timer has the same time as the one that fires, it is left in the set with 0 seconds;
`alarm(0)` then cancels the alarm, and does so for ever (`Stuck`): that entry stays the first
one, so every later call of `apue_alarm` ends with `alarm(0)` as well.
-/
import Mathlib.Order.Bounds.Defs
import Apue.Timers

namespace Apue.Timers

variable {F : Type*} [LinearOrder F]

/-! ### The property -/

/-- The first two timers of the set have the same time. -/
def Tied (a : OrdSet (ℤ ×ₗ F)) : Bool :=
  match a.elems with
  | p :: q :: _ => (ofLex p).1 = (ofLex q).1
  | _ => false

/-- The set is rebuilt at this time; another timer has the time of the one that fires. -/
structure Rebuild where
  time : ℕ
  tied : Bool

/-- The set with a new timer, if `apue_alarm` accepts it, and nothing moved. -/
def State.withTimer (s : State F) (seconds : ℤ) : Option F → OrdSet (ℤ ×ₗ F)
  | none => s.alarmSet
  | some f => if 0 < seconds then s.alarmSet.insert (toLex (seconds, f)) else s.alarmSet

/-- The rebuilding of the set in a step. -/
def rebuilds (s : State F) : Action F → List Rebuild
  | .tick => []
  | .sigalrm => [⟨s.now, Tied s.alarmSet⟩]
  | .apueAlarm seconds func => if 0 < seconds ∧ func.isSome then [⟨s.now, false⟩] else []
  | .apueAlarmLate seconds func => [⟨s.now, Tied (s.withTimer seconds func)⟩]

/-- The program, with the history of its set; timer functions register nothing. -/
def timersRebuilt (F : Type*) [LinearOrder F] : Machine (State F × List Rebuild) (Action F) :=
  (timers fun _ => []).recorded rebuilds

/-- The remaining time of an entry of a set that was rebuilt at time `b`. -/
def State.remainingSince (s : State F) (b : ℕ) (p : ℤ ×ₗ F) : ℤ := (ofLex p).1 - (s.now - b)

/-- If there is a timer, the alarm is armed for the smallest remaining time in the set; this is
positive, unless the alarm expires at this moment. -/
def Armed (s : State F) (rs : List Rebuild) : Prop :=
  (∃ p, p ∈ s.alarmSet) → ∃ b e : ℕ, rs.getLast?.map Rebuild.time = some b ∧
    s.sysAlarm = some e ∧ (s.now < e ∨ s.sysAlarm = some s.now) ∧
    IsLeast {r | ∃ p ∈ s.alarmSet, r = s.remainingSince b p} ((e : ℤ) - s.now)

/-! ### The alarm while timers fire alone -/

/-- The set was rebuilt at time `b`, and the alarm is armed for its first entry. -/
structure Sound (s : State F) (b : ℕ) : Prop where
  quiet : s.sigPending = false
  base : b ≤ s.now
  range : ∀ p ∈ s.alarmSet, 0 < (ofLex p).1 ∧ (ofLex p).1 < 2 ^ 31
  alarm : s.sysAlarm = s.alarmSet.begin?.map fun p => b + (ofLex p).1.toNat
  ahead : ∀ e, s.sysAlarm = some e → s.now ≤ e

/-- The first entry has no time left, and the alarm is off. -/
structure Stuck (s : State F) : Prop where
  quiet : s.sigPending = false
  alarm : s.sysAlarm = none
  first : ∃ f, s.alarmSet.begin? = some (toLex (0, f))

section Steps

variable {s s' : State F} {b : ℕ} {seconds : ℤ} {func : Option F}

theorem fst_le_of_le {p q : ℤ ×ₗ F} (h : p ≤ q) : (ofLex p).1 ≤ (ofLex q).1 := by
  rcases Prod.Lex.le_iff.mp h with hlt | heq
  · exact hlt.le
  · exact heq.1.le

theorem begin?_rebase (d : ℤ) (a : OrdSet (ℤ ×ₗ F)) {p : ℤ ×ₗ F} (hp : a.begin? = some p) :
    (rebase d a).begin? = some (toLex ((ofLex p).1 - d, (ofLex p).2)) := by
  obtain ⟨hmem, hle⟩ := OrdSet.begin?_eq_some_iff.mp hp
  refine OrdSet.begin?_eq_some_iff.mpr ⟨mem_rebase.mpr (by simpa using hmem), fun q hq => ?_⟩
  have hpq := hle _ (mem_rebase.mp hq)
  rw [Prod.Lex.le_iff] at hpq ⊢
  simp only [ofLex_toLex] at hpq ⊢
  rcases hpq with hlt | ⟨heq, hf⟩
  · exact .inl (by omega)
  · exact .inr ⟨by omega, hf⟩

theorem sound_reset (hquiet : s.sigPending = false)
    (hrange : ∀ p ∈ s.alarmSet, 0 < (ofLex p).1 ∧ (ofLex p).1 < 2 ^ 31) :
    Sound (resetSystemAlarm s) s.now := by
  rw [resetSystemAlarm_eq hrange]
  refine ⟨hquiet, le_rfl, hrange, rfl, fun e he => ?_⟩
  obtain ⟨p, -, rfl⟩ := Option.map_eq_some_iff.mp he
  exact Nat.le_add_right ..

/-- The first entry of a set that is not empty is the one the alarm is armed for. -/
theorem Sound.first (h : Sound s b) {e : ℕ} (he : s.sysAlarm = some e) :
    ∃ p, s.alarmSet.begin? = some p ∧ (e : ℤ) = b + (ofLex p).1 := by
  have halarm := h.alarm
  rw [he] at halarm
  obtain ⟨p, hp, hpe⟩ := Option.map_eq_some_iff.mp halarm.symm
  have hpos := (h.range p (OrdSet.mem_of_begin? hp)).1
  exact ⟨p, hp, by omega⟩

theorem Sound.armed {rs : List Rebuild} (h : Sound s b)
    (hb : rs.getLast?.map Rebuild.time = some b ∨ s.alarmSet.begin? = none) : Armed s rs := by
  rintro ⟨q, hq⟩
  have hlast := hb.resolve_right fun hnone => OrdSet.begin?_eq_none.mp hnone q hq
  cases he : s.sysAlarm with
  | none =>
      have halarm := h.alarm
      rw [he] at halarm
      exact absurd hq (OrdSet.begin?_eq_none.mp (Option.map_eq_none_iff.mp halarm.symm) q)
  | some e =>
      obtain ⟨p, hp, hpe⟩ := h.first he
      have hle := h.ahead e he
      refine ⟨b, e, hlast, rfl, ?_, ⟨p, OrdSet.mem_of_begin? hp, ?_⟩, ?_⟩
      · rcases Nat.lt_or_eq_of_le hle with hlt | heq
        · exact .inl hlt
        · exact .inr (by rw [heq])
      · rw [State.remainingSince]
        omega
      · rintro r ⟨p', hp', rfl⟩
        have hfst := fst_le_of_le (OrdSet.begin?_le hp hp')
        rw [State.remainingSince]
        omega

theorem Stuck.not_armed {rs : List Rebuild} (h : Stuck s) : ¬Armed s rs := by
  intro harmed
  obtain ⟨f, hf⟩ := h.first
  obtain ⟨b, e, -, he, -⟩ := harmed ⟨_, OrdSet.mem_of_begin? hf⟩
  rw [h.alarm] at he
  cases he

/-! ### The handler -/

/-- A timer that fires alone leaves later ones. -/
theorem lt_of_not_tied {a : OrdSet (ℤ ×ₗ F)} {p q : ℤ ×ₗ F} (ha : Tied a = false)
    (hp : a.begin? = some p) (hq : q ∈ a.eraseBegin) : (ofLex p).1 < (ofLex q).1 := by
  have hsorted := a.sorted
  rw [OrdSet.elems_of_begin? hp] at hsorted
  unfold Tied at ha
  rw [OrdSet.elems_of_begin? hp] at ha
  rw [OrdSet.mem_def] at hq
  cases hrest : a.eraseBegin.elems with
  | nil =>
      rw [hrest] at hq
      cases hq
  | cons r rest =>
      rw [hrest] at ha hq hsorted
      have hpr := fst_le_of_le ((List.pairwise_cons.mp hsorted).1 r List.mem_cons_self).le
      have hne : (ofLex p).1 ≠ (ofLex r).1 := of_decide_eq_false ha
      have hrq : (ofLex r).1 ≤ (ofLex q).1 := by
        rcases List.mem_cons.mp hq with rfl | hq
        · exact le_rfl
        · exact fst_le_of_le ((List.pairwise_cons.mp (List.pairwise_cons.mp hsorted).2).1 q hq).le
      omega

/-- The other timer with the same time becomes the first one. -/
theorem begin?_of_tied {a : OrdSet (ℤ ×ₗ F)} {p : ℤ ×ₗ F} (ha : Tied a = true)
    (hp : a.begin? = some p) :
    ∃ q, a.eraseBegin.begin? = some q ∧ (ofLex q).1 = (ofLex p).1 := by
  unfold Tied at ha
  rw [OrdSet.elems_of_begin? hp] at ha
  cases hrest : a.eraseBegin.elems with
  | nil =>
      rw [hrest] at ha
      cases ha
  | cons r rest =>
      rw [hrest] at ha
      refine ⟨r, ?_, (of_decide_eq_true ha).symm⟩
      rw [OrdSet.begin?, hrest]
      rfl

/-- The first entry has no time left: `alarm(0)`. -/
theorem stuck_reset (hquiet : s.sigPending = false) {f : F}
    (hf : s.alarmSet.begin? = some (toLex (0, f))) : Stuck (resetSystemAlarm s) := by
  have hreset : resetSystemAlarm s = { s with sysAlarm := none } := by
    rw [resetSystemAlarm, hf]
    rfl
  rw [hreset]
  exact ⟨hquiet, rfl, f, hf⟩

/-- **The handler** leaves the alarm armed exactly if the timer that fires is alone. -/
theorem handler_cases {p : ℤ ×ₗ F} (hpending : s.sigPending = true)
    (hrange : ∀ p ∈ s.alarmSet, 0 < (ofLex p).1 ∧ (ofLex p).1 < 2 ^ 31)
    (hp : s.alarmSet.begin? = some p) :
    (Tied s.alarmSet = false ∧ Sound (deliver (fun _ => []) s) s.now) ∨
      (Tied s.alarmSet = true ∧ Stuck (deliver (fun _ => []) s)) := by
  rw [deliver, if_pos hpending, apueAlarmHandler_eq (s := { s with sigPending := false }) hp]
  cases htied : Tied s.alarmSet with
  | false =>
      -- what is left had more time than the one that fires
      refine .inl ⟨rfl, sound_reset (s := { s with
        sigPending := false
        calls := s.calls ++ [(s.now, (ofLex p).2)]
        alarmSet := rebase (ofLex p).1 s.alarmSet.eraseBegin }) rfl fun q hq => ?_⟩
      have hmem := mem_rebase.mp hq
      have hlt := lt_of_not_tied htied hp hmem
      have hbound := hrange _ ((OrdSet.mem_eraseBegin hp).mp hmem).1
      have hpos := hrange p (OrdSet.mem_of_begin? hp)
      simp only [ofLex_toLex] at hlt hbound
      omega
  | true =>
      -- what is left begins with an entry that now has 0 seconds
      obtain ⟨q, hq, heq⟩ := begin?_of_tied htied hp
      refine .inr ⟨rfl, stuck_reset (f := (ofLex q).2) rfl ?_⟩
      rw [begin?_rebase _ _ hq, heq, sub_self]

/-! ### `apue_alarm` -/

/-- The set that `apue_alarm` rebuilds has positive times. -/
theorem Sound.rebased_range (h : Sound s b) (hne : s.sysAlarm ≠ some s.now) {q : ℤ ×ₗ F}
    (hq : q ∈ s.rebased) : 0 < (ofLex q).1 ∧ (ofLex q).1 < 2 ^ 31 := by
  have hmem := mem_rebased.mp hq
  have hbound := h.range _ hmem
  cases he : s.sysAlarm with
  | none =>
      have halarm := h.alarm
      rw [he] at halarm
      exact absurd hmem (OrdSet.begin?_eq_none.mp (Option.map_eq_none_iff.mp halarm.symm) _)
  | some e =>
      obtain ⟨p, hp, hpe⟩ := h.first he
      have hlt : s.now < e := Nat.lt_of_le_of_ne (h.ahead e he) fun heq => hne (by rw [heq, he])
      have hleft : s.left = e - s.now := by rw [State.left, he]
      -- the alarm tells how much time has passed since the set was rebuilt
      have hshift : s.shift = s.now - b := by
        rw [State.shift, hleft, if_pos (by omega), hp]
        show (ofLex p).1 - ((e : ℤ) - s.now) = s.now - b
        omega
      have hfirst := fst_le_of_le (OrdSet.begin?_le hp hmem)
      have hbase := h.base
      rw [hshift] at hfirst hbound
      simp only [ofLex_toLex] at hfirst hbound
      omega

/-- A call of `apue_alarm` while the alarm does not expire. -/
theorem Sound.apueAlarm (h : Sound s b) (hne : s.sysAlarm ≠ some s.now) (hint : IsInt seconds)
    (hpos : 0 < seconds) (f : F) : Sound (apueAlarm (fun _ => []) seconds (some f) s) s.now := by
  have hsound : Sound (apueAlarmSection seconds (some f) s) s.now := by
    rw [apueAlarmSection_eq hpos]
    refine sound_reset (s := { s with
      handlerIsSet := true
      sysAlarm := none
      alarmSet := s.rebased.insert (toLex (seconds, f)) }) h.quiet fun q hq => ?_
    rcases OrdSet.mem_insert.mp hq with rfl | hq
    · exact ⟨hpos, hint.2⟩
    · exact h.rebased_range hne hq
  rw [Timers.apueAlarm, deliver_quiet hsound.quiet]
  exact hsound

/-- After the alarm has expired, nothing remains on it and nothing is moved. -/
theorem section_expire (s : State F) (seconds : ℤ) (func : Option F) :
    (apueAlarmSection seconds func (expire s)).alarmSet = s.withTimer seconds func ∧
      (apueAlarmSection seconds func (expire s)).sigPending = true ∧
      (apueAlarmSection seconds func (expire s)).now = s.now := by
  by_cases hcall : 0 < seconds ∧ func.isSome
  · obtain ⟨hpos, hsome⟩ := hcall
    obtain ⟨f, rfl⟩ := Option.isSome_iff_exists.mp hsome
    have hrebased : (expire s).rebased = s.alarmSet := if_neg (lt_irrefl 0)
    rw [apueAlarmSection_eq hpos, hrebased, State.withTimer, if_pos hpos]
    obtain ⟨e, he⟩ := resetSystemAlarm_frame { expire s with
      handlerIsSet := true
      sysAlarm := none
      alarmSet := s.alarmSet.insert (toLex (seconds, f)) }
    rw [he]
    exact ⟨rfl, rfl, rfl⟩
  · rw [apueAlarmSection_of_not hcall]
    refine ⟨?_, rfl, rfl⟩
    cases func with
    | none => rfl
    | some f => exact (if_neg fun hpos => hcall ⟨hpos, rfl⟩).symm

theorem mem_withTimer {q : ℤ ×ₗ F} : q ∈ s.withTimer seconds func ↔
    q ∈ s.alarmSet ∨ 0 < seconds ∧ ∃ f, func = some f ∧ q = toLex (seconds, f) := by
  cases func with
  | none => simp [State.withTimer]
  | some f =>
      rw [State.withTimer]
      split
      case isTrue hpos => simp [hpos, or_comm]
      case isFalse hpos => simp [hpos]

theorem Stuck.apueAlarm (h : Stuck s) (seconds : ℤ) (func : Option F) :
    Stuck (apueAlarm (fun _ => []) seconds func s) := by
  have hstuck : Stuck (apueAlarmSection seconds func s) := by
    by_cases hcall : 0 < seconds ∧ func.isSome
    · obtain ⟨hpos, hsome⟩ := hcall
      obtain ⟨f, rfl⟩ := Option.isSome_iff_exists.mp hsome
      obtain ⟨g, hg⟩ := h.first
      obtain ⟨hmem, hle⟩ := OrdSet.begin?_eq_some_iff.mp hg
      have hleft : s.left = 0 := by rw [State.left, h.alarm]
      have hrebased : s.rebased = s.alarmSet := by
        rw [State.rebased, hleft, if_neg (lt_irrefl 0)]
      rw [apueAlarmSection_eq hpos, hrebased]
      -- the new timer is due later than the entry without time left
      refine stuck_reset (f := g) h.quiet (OrdSet.begin?_eq_some_iff.mpr
        ⟨OrdSet.mem_insert.mpr (.inr hmem), fun q hq => ?_⟩)
      rcases OrdSet.mem_insert.mp hq with rfl | hq
      · exact Prod.Lex.le_iff.mpr (.inl hpos)
      · exact hle q hq
    · rw [apueAlarmSection_of_not hcall]
      exact h
  rw [Timers.apueAlarm, deliver_quiet hstuck.quiet]
  exact hstuck

end Steps

/-! ### Every run -/

/-- Timers have fired alone and the alarm is right, or it is off for ever. -/
inductive History (s : State F) (rs : List Rebuild) : Prop
  | sound {b : ℕ} : (∀ r ∈ rs, r.tied = false) →
      (rs.getLast?.map Rebuild.time = some b ∨ s.alarmSet.begin? = none) → Sound s b → History s rs
  | stuck : (∃ r ∈ rs, r.tied = true) → Stuck s → History s rs

section Runs

variable {s s' : State F} {rs : List Rebuild} {a : Action F}

/-- The set has been rebuilt now. -/
theorem History.concat {b : ℕ} (hrs : ∀ r ∈ rs, r.tied = false) (h : Sound s b) :
    History s (rs ++ [⟨b, false⟩]) := by
  refine .sound (List.forall_mem_append.mpr ⟨hrs, by simp⟩) (.inl ?_) h
  rw [List.getLast?_concat]
  rfl

/-- The handler runs at the end of a step. -/
theorem History.deliver {u : State F} (hrs : ∀ r ∈ rs, r.tied = false)
    (hpending : u.sigPending = true)
    (hrange : ∀ p ∈ u.alarmSet, 0 < (ofLex p).1 ∧ (ofLex p).1 < 2 ^ 31)
    (hu : ∃ p, p ∈ u.alarmSet) :
    History (Timers.deliver (fun _ => []) u) (rs ++ [⟨u.now, Tied u.alarmSet⟩]) := by
  obtain ⟨q, hq⟩ := hu
  cases hp : u.alarmSet.begin? with
  | none => exact absurd hq (OrdSet.begin?_eq_none.mp hp q)
  | some p =>
      rcases handler_cases hpending hrange hp with ⟨htied, hsound⟩ | ⟨htied, hstuck⟩
      · rw [htied]
        exact .concat hrs hsound
      · exact .stuck ⟨_, List.mem_append_right _ List.mem_cons_self, htied⟩ hstuck

theorem History.next_of_sound {b : ℕ} (hrs : ∀ r ∈ rs, r.tied = false)
    (hb : rs.getLast?.map Rebuild.time = some b ∨ s.alarmSet.begin? = none) (h : Sound s b)
    (hs : next (fun _ => []) s a = some s') : History s' (rs ++ rebuilds s a) := by
  obtain ⟨rfl, hne, rfl⟩ | ⟨rfl, he, rfl⟩ | ⟨seconds, func, rfl, hne, hint, rfl⟩ |
    ⟨seconds, func, rfl, he, hint, rfl⟩ := next_cases hs
  · rw [rebuilds, List.append_nil]
    refine .sound hrs hb ⟨h.quiet, Nat.le_succ_of_le h.base, h.range, h.alarm, fun e he => ?_⟩
    exact Nat.lt_of_le_of_ne (h.ahead e he) fun heq => hne (by rw [heq]; exact he)
  · obtain ⟨p, hp, -⟩ := h.first he
    exact History.deliver (u := expire s) hrs rfl h.range ⟨p, OrdSet.mem_of_begin? hp⟩
  · rw [rebuilds]
    split
    case isTrue hcall =>
        obtain ⟨hpos, hsome⟩ := hcall
        obtain ⟨f, rfl⟩ := Option.isSome_iff_exists.mp hsome
        exact .concat hrs (h.apueAlarm hne hint hpos f)
    case isFalse hcall =>
        rw [List.append_nil, apueAlarm, apueAlarmSection_of_not hcall, deliver_quiet h.quiet]
        exact .sound hrs hb h
  · obtain ⟨p, hp, -⟩ := h.first he
    obtain ⟨hset, hpending, hnow⟩ := section_expire s seconds func
    rw [rebuilds, ← hset, ← hnow]
    refine History.deliver hrs hpending (fun q hq => ?_) ⟨p, ?_⟩
    · rw [hset] at hq
      rcases mem_withTimer.mp hq with hq | ⟨hpos, f, -, rfl⟩
      · exact h.range q hq
      · exact ⟨hpos, hint.2⟩
    · rw [hset]
      exact mem_withTimer.mpr (.inl (OrdSet.mem_of_begin? hp))

/-- Once the alarm is off, nothing arms it again. -/
theorem Stuck.next (h : Stuck s) (hs : next (fun _ => []) s a = some s') : Stuck s' := by
  obtain ⟨rfl, -, rfl⟩ | ⟨-, he, -⟩ | ⟨seconds, func, rfl, -, -, rfl⟩ | ⟨-, -, -, he, -⟩ :=
    next_cases hs
  · exact ⟨h.quiet, h.alarm, h.first⟩
  · rw [h.alarm] at he
    cases he
  · exact h.apueAlarm seconds func
  · rw [h.alarm] at he
    cases he

theorem history_reach {p : State F × List Rebuild} (h : (timersRebuilt F).Reach p) :
    History p.1 p.2 := by
  refine h.invariant (I := fun p => History p.1 p.2) ?_ fun p a p' hi hs => ?_
  · rintro ⟨s, rs⟩ ⟨⟨now, rfl⟩, rfl⟩
    exact .sound (b := now) nofun (.inr rfl) ⟨rfl, le_rfl, nofun, rfl, nofun⟩
  · obtain ⟨hnext, hrs'⟩ := Machine.recorded_next hs
    rw [hrs']
    cases hi with
    | sound hrs hb hsound => exact History.next_of_sound hrs hb hsound hnext
    | stuck hrs hstuck =>
        obtain ⟨r, hr, htied⟩ := hrs
        exact .stuck ⟨r, List.mem_append_left _ hr, htied⟩ (hstuck.next hnext)

/-- The alarm is armed for the smallest remaining time whenever there are timers, as long as no
timer fired while another one had the same time. -/
theorem armed_iff (h : (timersRebuilt F).Reach (s, rs)) :
    Armed s rs ↔ ∀ r ∈ rs, r.tied = false := by
  cases history_reach h with
  | sound hrs hb hsound => exact ⟨fun _ => hrs, fun _ => hsound.armed hb⟩
  | stuck hrs hstuck =>
      refine ⟨fun harmed => absurd harmed hstuck.not_armed, fun hnone => ?_⟩
      obtain ⟨r, hr, htied⟩ := hrs
      rw [hnone r hr] at htied
      cases htied

end Runs

/-- Two timers of different functions, due one second after each other. -/
def apartRun : List (Action ℕ) :=
  [.apueAlarm 2 (some 0), .apueAlarm 3 (some 1), .tick, .tick, .sigalrm]

theorem apartRun_armed : ∃ s rs, (timersRebuilt ℕ).Reach (s, rs) ∧ s.alarmSet.size = 1 ∧
    s.sysAlarm = some 3 ∧ Armed s rs := by
  have hrun : ((timersRebuilt ℕ).run (initState 0, []) apartRun).map
      (fun p => (p.2.map Rebuild.tied, p.1.alarmSet.size, p.1.sysAlarm)) =
      some ([false, false, false], 1, some 3) := by
    decide +kernel
  obtain ⟨⟨s, rs⟩, hs, hobs⟩ := Option.map_eq_some_iff.mp hrun
  obtain ⟨htied, hobs⟩ := Prod.mk.inj hobs
  have hreach := Machine.reach_of_run (M := timersRebuilt ℕ) ⟨⟨0, rfl⟩, rfl⟩ hs
  refine ⟨s, rs, hreach, (Prod.mk.inj hobs).1, (Prod.mk.inj hobs).2,
    (armed_iff hreach).mpr fun r hr => ?_⟩
  have hmem : r.tied ∈ rs.map Rebuild.tied := List.mem_map_of_mem hr
  rw [htied] at hmem
  simpa using hmem

/-- Two timers of different functions with the same due time: the second one stays in the set
without an alarm. -/
def togetherRun : List (Action ℕ) :=
  [.apueAlarm 2 (some 0), .apueAlarm 2 (some 1), .tick, .tick, .sigalrm]

theorem togetherRun_not_armed : ∃ s rs, (timersRebuilt ℕ).Reach (s, rs) ∧
    s.alarmSet.elems = [toLex (0, 1)] ∧ s.sysAlarm = none ∧ ¬Armed s rs := by
  have hrun : ((timersRebuilt ℕ).run (initState 0, []) togetherRun).map
      (fun p => (p.1.alarmSet.elems, p.1.sysAlarm)) = some ([toLex (0, 1)], none) := by
    decide +kernel
  obtain ⟨⟨s, rs⟩, hs, hobs⟩ := Option.map_eq_some_iff.mp hrun
  obtain ⟨hset, halarm⟩ := Prod.mk.inj hobs
  refine ⟨s, rs, Machine.reach_of_run (M := timersRebuilt ℕ) ⟨⟨0, rfl⟩, rfl⟩ hs, hset, halarm,
    fun harmed => ?_⟩
  obtain ⟨b, e, -, he, -⟩ := harmed ⟨toLex (0, 1), by rw [OrdSet.mem_def, hset]; simp⟩
  rw [halarm] at he
  cases he

end Apue.Timers
