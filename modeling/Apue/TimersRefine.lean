/-
Apue/TimersRefine.lean

The timer multiplexer refines the timer service.

`Link` ties the two: with `b` the base of the stored times, a timer is stored as
its absolute due time minus `b`, and the system alarm is armed for the first
stored time.  The program never knows `b`; `apue_alarm` recovers the passage of
time from what remains on the alarm, and the handler from the entry that fired.
Both leave the set based at the current time, so one lemma about
`reset_system_alarm` (`link_reset`) finishes both.

Distinct due times enter in one place: the entry the handler takes is the timer
that is due now, because no other timer is.
-/
import Apue.Timers

namespace Apue.Timers

variable {F : Type*} [LinearOrder F]

/-! ### The relation -/

/-- The stored set is the pending timers seen from base time `b`. -/
structure Based (b : ℤ) (a : OrdSet (ℤ ×ₗ F)) (pending : List (ℕ × F)) : Prop where
  mem : ∀ p, p ∈ a ↔ ∃ r ∈ pending, p = toLex ((r.1 : ℤ) - b, r.2)
  range : ∀ r ∈ pending, b < r.1 ∧ (r.1 : ℤ) < b + 2 ^ 31

/-- The link between the program's state and the service's, with the same
registrations. -/
structure Link (s : State F) (t : TimerService.State F) (registered : List (ℕ × F)) : Prop where
  now : t.now = s.now
  calls : t.calls = s.calls
  quiet : s.sigPending = false
  based : ∃ b : ℤ, b ≤ s.now ∧ Based b s.alarmSet t.pending ∧
    s.sysAlarm = s.alarmSet.begin?.map fun p => (b + (ofLex p).1).toNat
  inv : TimerService.Inv t registered

/-- Rebuilding the set moves its base. -/
theorem Based.rebase {b : ℤ} {a : OrdSet (ℤ ×ₗ F)} {pending : List (ℕ × F)}
    (h : Based b a pending) {d : ℤ} (hd : ∀ r ∈ pending, b + d < r.1) (hnn : 0 ≤ d) :
    Based (b + d) (rebase d a) pending where
  mem := by
    intro p
    rw [mem_rebase, h.mem]
    refine exists_congr fun r => and_congr_right fun _ => ?_
    rw [← toLex_ofLex p, ofLex_toLex, toLex_inj, toLex_inj, Prod.ext_iff, Prod.ext_iff]
    refine and_congr_left fun _ => ?_
    show (ofLex p).1 + d = r.1 - b ↔ (ofLex p).1 = r.1 - (b + d)
    omega
  range := by
    intro r hr
    have := h.range r hr
    exact ⟨hd r hr, by omega⟩

/-- `reset_system_alarm` arms the alarm for the first timer of a set that is
based at the current time. -/
theorem Based.resetSystemAlarm {s : State F} {pending : List (ℕ × F)}
    (h : Based s.now s.alarmSet pending) :
    resetSystemAlarm s = { s with
      sysAlarm := s.alarmSet.begin?.map fun p => ((s.now : ℤ) + (ofLex p).1).toNat } := by
  have hrange : ∀ p ∈ s.alarmSet, 0 < (ofLex p).1 ∧ (ofLex p).1 < 2 ^ 31 := by
    intro p hp
    obtain ⟨r, hr, rfl⟩ := (h.mem p).mp hp
    have := h.range r hr
    rw [ofLex_toLex]
    omega
  rw [resetSystemAlarm_eq hrange]
  cases hb : s.alarmSet.begin? with
  | none => rfl
  | some p =>
      have := hrange p (OrdSet.mem_of_begin? hb)
      simp only [Option.map_some]
      congr 2
      omega

/-- Re-establishing the link after a change of the set. -/
theorem link_reset {s : State F} {t : TimerService.State F} {registered : List (ℕ × F)}
    (hnow : t.now = s.now) (hcalls : t.calls = s.calls) (hquiet : s.sigPending = false)
    (hbased : Based s.now s.alarmSet t.pending) (hinv : TimerService.Inv t registered) :
    Link (resetSystemAlarm s) t registered := by
  rw [hbased.resetSystemAlarm]
  exact ⟨hnow, hcalls, hquiet, ⟨s.now, le_rfl, hbased, rfl⟩, hinv⟩

section Steps

variable {s : State F} {t : TimerService.State F} {registered : List (ℕ × F)}

/-- The pending timers of the service are the ones registered and not called. -/
theorem Link.mem_pending (h : Link s t registered) {r : ℕ × F} :
    r ∈ s.pending registered ↔ r ∈ t.pending := by
  rw [State.pending, List.mem_filter, ← h.calls, ← h.inv.perm.mem_iff, List.mem_append,
    decide_eq_true_iff]
  constructor
  · rintro ⟨hc | hp, hnc⟩
    exacts [absurd hc hnc, hp]
  · intro hp
    refine ⟨.inr hp, fun hc => ?_⟩
    exact lt_irrefl _ (h.inv.before r hc r hp)

/-- The alarm is armed for a pending timer that no other one precedes. -/
theorem Link.alarm_some (h : Link s t registered) {e : ℕ} (he : s.sysAlarm = some e) :
    ∃ b : ℤ, ∃ p, ∃ r ∈ t.pending, Based b s.alarmSet t.pending ∧ b ≤ s.now ∧
      s.alarmSet.begin? = some p ∧ p = toLex ((r.1 : ℤ) - b, r.2) ∧ r.1 = e ∧
      ∀ q ∈ t.pending, e ≤ q.1 := by
  obtain ⟨b, hb, hbased, halarm⟩ := h.based
  rw [he] at halarm
  obtain ⟨p, hp, hpe⟩ := Option.map_eq_some_iff.mp halarm.symm
  obtain ⟨r, hr, rfl⟩ := (hbased.mem p).mp (OrdSet.mem_of_begin? hp)
  have hre : r.1 = e := by
    simp only [ofLex_toLex] at hpe
    omega
  refine ⟨b, _, r, hr, hbased, hb, hp, rfl, hre, ?_⟩
  intro q hq
  have hle := OrdSet.begin?_le hp ((hbased.mem _).mpr ⟨q, hq, rfl⟩)
  rw [Prod.Lex.toLex_le_toLex] at hle
  rcases hle with hlt | ⟨heq, -⟩
  · simp only at hlt; omega
  · simp only at heq; omega

theorem Link.alarm_none (h : Link s t registered) (he : s.sysAlarm = none) :
    t.pending = [] := by
  obtain ⟨b, -, hbased, halarm⟩ := h.based
  rw [he] at halarm
  have hnone := OrdSet.begin?_eq_none.mp (Option.map_eq_none_iff.mp halarm.symm)
  refine List.eq_nil_iff_forall_not_mem.mpr fun r hr => ?_
  exact hnone _ ((hbased.mem _).mpr ⟨r, hr, rfl⟩)

/-- While time has not reached the alarm, no pending timer is due. -/
theorem Link.not_due (h : Link s t registered) (hne : s.sysAlarm ≠ some s.now) :
    ∀ r ∈ t.pending, (s.now : ℤ) < r.1 := by
  intro r hr
  rcases he : s.sysAlarm with _ | e
  · rw [h.alarm_none he] at hr
    cases hr
  · obtain ⟨-, -, r₀, hr₀, -, -, -, -, rfl, hmin⟩ := h.alarm_some he
    have h₁ := h.inv.future r₀ hr₀
    have h₂ := hmin r hr
    have h₃ : r₀.1 ≠ s.now := fun e' => hne (e' ▸ he)
    rw [h.now] at h₁
    omega

/-- Whatever remained on the alarm, the set that `apue_alarm` rebuilds is based at the current
time. -/
theorem Link.rebased (h : Link s t registered) (hne : s.sysAlarm ≠ some s.now) :
    Based s.now s.rebased t.pending := by
  have hdue := h.not_due hne
  rcases he : s.sysAlarm with _ | e
  · have hleft : s.left = 0 := by rw [State.left, he]
    have hnil := h.alarm_none he
    obtain ⟨b, -, hb, -⟩ := h.based
    rw [State.rebased, hleft, if_neg (lt_irrefl 0)]
    refine ⟨fun p => ?_, fun r hr => ?_⟩
    · rw [hb.mem p, hnil]
      simp
    · rw [hnil] at hr
      cases hr
  · obtain ⟨b, p, r, hr, hb, hbn, hp, rfl, rfl, hmin⟩ := h.alarm_some he
    have hleft : s.left = r.1 - s.now := by rw [State.left, he]
    have hlt := hdue r hr
    have hb' := hb.rebase (d := s.now - b) (fun q hq => by
      have := hdue q hq
      omega) (by omega)
    rw [add_sub_cancel] at hb'
    have hshift : (r.1 : ℤ) - b - (r.1 - s.now) = s.now - b := by omega
    rw [State.rebased, hleft, if_pos (by omega), hp]
    simp only [ofLex_toLex, hshift]
    exact hb'

/-- **Registration** in front of, between or behind the pending timers. -/
theorem Link.register (h : Link s t registered) (hne : s.sysAlarm ≠ some s.now) {seconds : ℤ}
    {f : F} (hint : IsInt seconds) (hpos : 0 < seconds)
    (hsep : ∀ r ∈ s.pending registered, r.1 ≠ s.now + seconds.toNat) :
    ∃ t', TimerService.next t (.register seconds.toNat f) = some t' ∧
      Link (apueAlarmSection seconds (some f) s) t'
        (registered ++ [(s.now + seconds.toNat, f)]) := by
  have hsep' : ∀ r ∈ t.pending, r.1 ≠ t.now + seconds.toNat := by
    intro r hr
    rw [h.now]
    exact hsep r (h.mem_pending.mpr hr)
  have hn : 0 < seconds.toNat := by omega
  refine ⟨_, if_pos ⟨hn, hsep'⟩, ?_⟩
  have hbased := h.rebased hne
  rw [apueAlarmSection_eq hpos]
  refine link_reset h.now h.calls h.quiet ?_ (h.now ▸ h.inv.register f hn hsep')
  refine ⟨fun p => ?_, fun r hr => ?_⟩
  · rw [OrdSet.mem_insert, hbased.mem p]
    simp only [List.mem_cons, exists_eq_or_imp]
    refine or_congr_left ?_
    rw [h.now]
    have hcast : ((s.now + seconds.toNat : ℕ) : ℤ) - s.now = seconds := by
      push_cast
      omega
    rw [hcast]
  · rcases List.mem_cons.mp hr with rfl | hr
    · have := hint.2
      simp only [h.now]
      push_cast
      omega
    · exact hbased.range r hr

/-- **Expiry** of the first pending timer; the others are due later. -/
theorem Link.fire (h : Link s t registered) (he : s.sysAlarm = some s.now) :
    ∃ r t', TimerService.next t (.fire r) = some t' ∧ t'.now = t.now ∧
      (∀ q ∈ t'.pending, t.now < q.1) ∧
      Link (deliver (fun _ => []) (expire s)) t' registered := by
  obtain ⟨b, p, r, hr, hb, hbn, hp, rfl, hre, hmin⟩ := h.alarm_some he
  have hrt : r.1 = t.now := hre.trans h.now.symm
  have hlater : ∀ q ∈ t.pending, q ≠ r → (r.1 : ℤ) < q.1 := by
    intro q hq hqr
    have h₁ := hmin q hq
    have h₂ : q.1 ≠ r.1 := fun e => hqr (List.inj_on_of_nodup_map h.inv.distinct hq hr e)
    omega
  refine ⟨r, _, if_pos ⟨hr, hrt⟩, rfl, ?_, ?_⟩
  · intro q hq
    obtain ⟨hne, hmem⟩ := h.inv.nodup.mem_erase_iff.mp hq
    have := hlater q hmem hne
    omega
  have hrest : Based b s.alarmSet.eraseBegin (t.pending.erase r) := by
    refine ⟨fun q => ?_, fun q hq => hb.range q (List.mem_of_mem_erase hq)⟩
    rw [OrdSet.mem_eraseBegin hp, hb.mem q]
    constructor
    · rintro ⟨⟨r', hr', rfl⟩, hne⟩
      refine ⟨r', (h.inv.nodup.mem_erase_iff).mpr ⟨?_, hr'⟩, rfl⟩
      rintro rfl
      exact hne rfl
    · rintro ⟨r', hr', rfl⟩
      obtain ⟨hne, hmem⟩ := h.inv.nodup.mem_erase_iff.mp hr'
      refine ⟨⟨r', hmem, rfl⟩, fun hcontra => ?_⟩
      have := hlater r' hmem hne
      simp only [EmbeddingLike.apply_eq_iff_eq, Prod.mk.injEq] at hcontra
      omega
  have hset := hrest.rebase (d := (r.1 : ℤ) - b) (fun q hq => by
    obtain ⟨hne, hmem⟩ := h.inv.nodup.mem_erase_iff.mp hq
    have := hlater q hmem hne
    omega) (by have := hb.range r hr; omega)
  rw [add_sub_cancel, show (r.1 : ℤ) = s.now from congrArg _ hre] at hset
  have hrun : deliver (fun _ => []) (expire s) = resetSystemAlarm { s with
      sysAlarm := none
      sigPending := false
      alarmSet := rebase ((s.now : ℤ) - b) s.alarmSet.eraseBegin
      calls := s.calls ++ [(s.now, r.2)] } := by
    show apueAlarmHandler (fun _ => []) { expire s with sigPending := false } = _
    rw [apueAlarmHandler_eq (s := { expire s with sigPending := false }) hp]
    simp [expire, hre]
  rw [hrun]
  refine link_reset h.now ?_ rfl hset (h.inv.fire hr hrt)
  show t.calls ++ [r] = s.calls ++ [(s.now, r.2)]
  rw [h.calls, ← hre]

/-- The clock advances only when no timer is due. -/
theorem Link.tick (h : Link s t registered) (hne : s.sysAlarm ≠ some s.now) :
    ∃ t', TimerService.next t .tick = some t' ∧
      Link { s with now := s.now + 1 } t' registered := by
  have hdue : ∀ r ∈ t.pending, r.1 ≠ t.now := by
    intro r hr
    have := h.not_due hne r hr
    rw [h.now]
    omega
  refine ⟨_, if_pos hdue, ?_⟩
  obtain ⟨b, hb, hbased, halarm⟩ := h.based
  exact ⟨congrArg (· + 1) h.now, h.calls, h.quiet,
    ⟨b, hb.trans (by simp), hbased, halarm⟩, h.inv.tick hdue⟩

end Steps

/-! ### The refinement -/

/-- One step of the service, with its registration. -/
theorem service_run {t t' : TimerService.State F} {b : TimerService.Action F}
    (h : TimerService.next t b = some t') (registered : List (ℕ × F)) :
    (TimerService.service F).run (t, registered) [b] =
      some (t', registered ++ TimerService.registers t b) := by
  rw [Machine.run_cons]
  exact (congrArg (Option.bind · _) (Machine.next_recorded h registered))

/-- **The program refines the timer service**: it makes the same calls for the same
registrations. -/
theorem timers_simulation :
    Machine.Simulation (separateTimers F) (TimerService.service F)
      fun p q => q.2 = p.2 ∧ Link p.1 q.1 p.2 where
  init := by
    rintro ⟨s, _⟩ ⟨⟨now, rfl⟩, rfl⟩
    refine ⟨(⟨now, [], []⟩, []), ⟨⟨rfl, rfl⟩, rfl⟩, rfl, ?_⟩
    refine ⟨rfl, rfl, rfl, ⟨now, le_rfl, ⟨fun p => ?_, fun r hr => by cases hr⟩, rfl⟩,
      .init ⟨rfl, rfl⟩⟩
    simp [initState]
  step := by
    rintro ⟨s, registered⟩ ⟨t, _⟩ a ⟨s', registered'⟩ ⟨rfl, hlink⟩ hstep
    obtain ⟨hsep, hstep⟩ := Machine.restrict_next.mp hstep
    obtain ⟨hstep, rfl⟩ := Machine.recorded_next hstep
    obtain ⟨rfl, hne, rfl⟩ | ⟨rfl, he, rfl⟩ | ⟨seconds, func, rfl, hne, hint, rfl⟩ |
      ⟨seconds, func, rfl, -, -, -⟩ := next_cases hstep
    · obtain ⟨t', ht', hlink'⟩ := hlink.tick hne
      refine ⟨[.tick], _, service_run ht' _, rfl, ?_⟩
      simpa [registers] using hlink'
    · obtain ⟨r, t', ht', -, -, hlink'⟩ := hlink.fire he
      refine ⟨[.fire r], _, service_run ht' _, ?_⟩
      simpa [registers, requestedByHandler_nil, TimerService.registers] using hlink'
    · by_cases hcall : 0 < seconds ∧ func.isSome
      · obtain ⟨hpos, hsome⟩ := hcall
        obtain ⟨f, rfl⟩ := Option.isSome_iff_exists.mp hsome
        obtain ⟨t', ht', hlink'⟩ := hlink.register hne hint hpos (hsep hpos) (f := f)
        have hreg : registers (fun _ => []) s (.apueAlarm seconds (some f)) =
            [(s.now + seconds.toNat, f)] := requested_pos hpos s.now f
        refine ⟨[.register seconds.toNat f], _, service_run ht' _, ?_, ?_⟩
        · rw [hreg, TimerService.registers, hlink.now]
        · rw [hreg, apueAlarm, deliver_quiet hlink'.quiet]
          exact hlink'
      · -- the guard of `apue_alarm` returns at once
        have hreg : registers (fun _ => []) s (.apueAlarm seconds func) = [] :=
          requested_of_not hcall s.now
        refine ⟨[], _, rfl, ?_, ?_⟩
        · rw [hreg, List.append_nil]
        · rw [hreg, List.append_nil, apueAlarm, apueAlarmSection_of_not hcall,
            deliver_quiet hlink.quiet]
          exact hlink
    · exact hsep.elim

/-- From a linked state the clock can always be moved on by one second. -/
theorem Link.advance {s : State F} {t : TimerService.State F} {registered : List (ℕ × F)}
    (h : Link s t registered) :
    ∃ acts s' t', (∀ a ∈ acts, a = .tick ∨ a = .sigalrm) ∧
      (separateTimers F).run (s, registered) acts = some (s', registered) ∧
      s'.now = s.now + 1 ∧ Link s' t' registered := by
  have htick : ∀ {s : State F}, s.sysAlarm ≠ some s.now →
      (separateTimers F).next (s, registered) .tick
        = some ({ s with now := s.now + 1 }, registered) := by
    intro s hne
    refine Machine.restrict_next.mpr ⟨trivial, ?_⟩
    rw [timersRegistered, Machine.next_recorded (if_pos hne), registers, List.append_nil]
  by_cases he : s.sysAlarm = some s.now
  · -- the timer that is due fires first; then none is due any more
    obtain ⟨r, t₁, -, hnow₁, hlater, hlink₁⟩ := h.fire he
    have hfire : (separateTimers F).next (s, registered) .sigalrm
        = some (deliver (fun _ => []) (expire s), registered) := by
      refine Machine.restrict_next.mpr ⟨trivial, ?_⟩
      rw [timersRegistered, Machine.next_recorded (if_pos he), registers, requestedByHandler_nil,
        List.append_nil]
    have hnow : (deliver (fun _ => []) (expire s)).now = s.now := by
      rw [← hlink₁.now, hnow₁, h.now]
    have hne : (deliver (fun _ => []) (expire s)).sysAlarm
        ≠ some (deliver (fun _ => []) (expire s)).now := by
      intro hcontra
      obtain ⟨-, -, q, hq, -, -, -, -, hqe, -⟩ := hlink₁.alarm_some hcontra
      have := hlater q hq
      rw [h.now, hqe, hnow] at this
      omega
    obtain ⟨t', -, hlink'⟩ := hlink₁.tick hne
    refine ⟨[.sigalrm, .tick], _, t', by simp, ?_, congrArg (· + 1) hnow, hlink'⟩
    simp [hfire, htick hne]
  · obtain ⟨t', -, hlink'⟩ := h.tick he
    exact ⟨[.tick], _, t', by simp, by simp [htick he], rfl, hlink'⟩

/-- Time never gets stuck: ticks and signal deliveries alone lead to any later
time. -/
theorem Link.reaches_time {s : State F} {t : TimerService.State F} {registered : List (ℕ × F)}
    (h : Link s t registered) (T : ℕ) :
    ∃ acts s', (∀ a ∈ acts, a = .tick ∨ a = .sigalrm) ∧
      (separateTimers F).run (s, registered) acts = some (s', registered) ∧ T ≤ s'.now := by
  induction hd : T - s.now generalizing s t with
  | zero => exact ⟨[], s, by simp, rfl, by omega⟩
  | succ n ih =>
      obtain ⟨acts, s₁, t₁, hacts, hrun, hnow, hlink₁⟩ := h.advance
      obtain ⟨acts', s', hacts', hrun', hT⟩ := ih hlink₁ (by omega)
      refine ⟨acts ++ acts', s', ?_, ?_, hT⟩
      · intro a ha
        exact (List.mem_append.mp ha).elim (hacts a) (hacts' a)
      · rw [Machine.run_append, hrun]
        exact hrun'

/-! ### The main result -/

/-- **Every registered timer is called exactly once, at its due time.**  The
registrations are the calls `apue_alarm(s, f)` made, each with its time plus `s`.
In every reachable state: the calls of timer functions are in strictly increasing
order of time; each is of a registered timer at its due time; the due times are
distinct; no timer has been called twice, and one whose due time has passed has
been called once.  Moreover time can always run on past any due time, without a
further registration. -/
theorem registered_called_once {s : State F} {registered : List (ℕ × F)}
    (h : (separateTimers F).Reach (s, registered)) :
    (s.calls.Pairwise fun a b => a.1 < b.1) ∧
    (∀ c ∈ s.calls, c ∈ registered) ∧
    (registered.map Prod.fst).Nodup ∧
    (∀ r ∈ registered, s.calls.count r ≤ 1 ∧ (r.1 < s.now → s.calls.count r = 1)) ∧
    ∀ T, ∃ acts s', (∀ a ∈ acts, a = .tick ∨ a = .sigalrm) ∧
      (separateTimers F).run (s, registered) acts = some (s', registered) ∧ T ≤ s'.now := by
  obtain ⟨⟨t, _⟩, -, rfl, hlink⟩ := timers_simulation.reach h
  have hinv := hlink.inv
  rw [← hlink.calls, ← hlink.now]
  exact ⟨hinv.increasing, fun _ hc => hinv.mem_registered hc, hinv.registered_distinct,
    fun r hr => ⟨hinv.count_le_one r, hinv.count_eq_one hr⟩, hlink.reaches_time⟩

/-- The calls of the program's `main`, and the signals that answer them. -/
def mainRun : List (Action ℕ) :=
  [.apueAlarm 3 (some 0), .apueAlarm 5 (some 0), .apueAlarm 2 (some 0), .tick, .tick,
    .sigalrm, .tick, .sigalrm, .tick, .tick, .sigalrm, .tick]

theorem mainRun_calls : ∃ s, (separateTimers ℕ).Reach (s, [(3, 0), (5, 0), (2, 0)]) ∧
    s.now = 6 ∧ s.calls = [(2, 0), (3, 0), (5, 0)] ∧
    ∀ r ∈ [(3, 0), (5, 0), (2, 0)], s.calls.count r = 1 := by
  have hrun : ((separateTimers ℕ).run (initState 0, []) mainRun).map
      (fun p => (p.2, p.1.now, p.1.calls)) =
        some ([(3, 0), (5, 0), (2, 0)], 6, [(2, 0), (3, 0), (5, 0)]) := by
    decide +kernel
  obtain ⟨⟨s, registered⟩, hs, hobs⟩ := Option.map_eq_some_iff.mp hrun
  simp only [Prod.mk.injEq] at hobs
  obtain ⟨rfl, hnow, hcalls⟩ := hobs
  have hreach := Machine.reach_of_run (M := separateTimers ℕ) ⟨⟨0, rfl⟩, rfl⟩ hs
  obtain ⟨-, -, -, hcount, -⟩ := registered_called_once hreach
  refine ⟨s, hreach, hnow, hcalls, fun r hr => (hcount r hr).2 ?_⟩
  rw [hnow]
  revert r
  decide

end Apue.Timers
