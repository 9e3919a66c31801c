/-
Apue/MsgQueueInv.lean

What holds of the message queue in every reachable state.

What a step can do, to the state and to messages, is said once (`Step`,
`step_of_next`).  From it follow, in this order: the mutex agrees with the program
counters and protects what a consumer knows about the queue (`Locked`); calls,
pushes, pops and processed messages fit together (`History`); and no wakeup is
lost (`Covered`): while a consumer sleeps, every queued message is covered by a
producer that will still signal or by a consumer that is awake and has not yet
taken its last message.
-/
import Apue.MsgQueue

namespace Apue.MsgQueue

open Threads

variable {T : Type*} [DecidableEq T] {s s' : State T}

/-! ### What a step can do -/

/-- Moves of one thread that touch neither the mutex nor the queue. -/
inductive Quiet (messages : List Msg) : Pc → Pc → Prop
  | processMsg : Quiet messages .idle .processLock
  | spurious : Quiet messages .asleep .woken
  | isEmpty : messages = [] → Quiet messages .processEmpty .processWait
  | nonempty : messages ≠ [] → Quiet messages .processEmpty .processFront
  | front {mp : Msg} : messages.head? = some mp → Quiet messages .processFront (.processPop mp)
  | frontFault : messages = [] → Quiet messages .processFront .fault
  | popFault {mp : Msg} : messages = [] → Quiet messages (.processPop mp) .fault
  | stop {mp : Msg} : mp.id = stopId → Quiet messages (.processBreak mp) .exited
  | again {mp : Msg} : mp.id ≠ stopId → Quiet messages (.processBreak mp) .processLock

/-- Moves that take the mutex. -/
inductive Acquires : Pc → Pc → Prop
  | enqueue (mp : Msg) : Acquires (.enqueueLock mp) (.enqueuePush mp)
  | process : Acquires .processLock .processEmpty
  | woken : Acquires .woken .processEmpty

/-- Moves that release the mutex. -/
inductive Releases : Pc → Pc → Prop
  | enqueue : Releases .enqueueUnlock .enqueueSignal
  | wait : Releases .processWait .asleep
  | process (mp : Msg) : Releases (.processUnlock mp) (.processPrint mp)

/-- The steps of the program, apart from their labels, and what they do to messages. -/
inductive Step (s : State T) : List (Event T) → State T → Prop
  | quiet {t p} : Quiet s.messages (s.pc t) p → Step s [] (s.goto t p)
  | acquire {t p} : s.lock = none → Acquires (s.pc t) p →
      Step s [] ({ s with lock := some t }.goto t p)
  | release {t p} : Releases (s.pc t) p → Step s [] (s.release t p)
  | call {t mp} : s.pc t = .idle → Step s [⟨.called, t, mp⟩] (s.goto t (.enqueueLock mp))
  | push {t mp} : s.pc t = .enqueuePush mp →
      Step s [⟨.pushed, t, mp⟩] ({ s with messages := s.messages ++ [mp] }.goto t .enqueueUnlock)
  | pop {t mp m ms} : s.pc t = .processPop mp → s.messages = m :: ms →
      Step s [⟨.popped, t, m⟩] ({ s with messages := ms }.goto t (.processUnlock mp))
  | print {t mp} : s.pc t = .processPrint mp →
      Step s [⟨.processed, t, mp⟩] (s.goto t (.processBreak mp))
  | wake {t w} : s.pc t = .enqueueSignal → s.pc w = .asleep →
      Step s [] ((s.goto t .idle).goto w .woken)
  | lost {t} : s.pc t = .enqueueSignal → (∀ w, s.pc w ≠ .asleep) → Step s [] (s.goto t .idle)

omit [DecidableEq T] in
/-- The thread that signals is not the one that is woken. -/
theorem ne_of_asleep {t w : T} (hp : s.pc t = .enqueueSignal) (hw : s.pc w = .asleep) :
    w ≠ t := by
  rintro rfl
  rw [hp] at hw
  cases hw

theorem step_of_acquire {t : T} {p : Pc} (hp : Acquires (s.pc t) p)
    (h : s.acquire t p = some s') : Step s [] s' := by
  unfold State.acquire at h
  split at h
  case isTrue hfree =>
      obtain rfl := Option.some.inj h
      exact .acquire hfree hp
  case isFalse => cases h

theorem step_of_step {t : T} (h : step s t = some s') : Step s (observeStep s t) s' := by
  unfold step at h
  unfold observeStep
  cases hp : s.pc t <;> rw [hp] at h
  case idle => cases h
  case exited => cases h
  case fault => cases h
  case asleep => cases h
  case enqueueSignal => cases h
  case enqueueLock mp => exact step_of_acquire (hp ▸ .enqueue mp) h
  case enqueuePush mp => exact Option.some.inj h ▸ .push hp
  case enqueueUnlock => exact Option.some.inj h ▸ .release (hp ▸ .enqueue)
  case processLock => exact step_of_acquire (hp ▸ .process) h
  case processEmpty =>
      obtain rfl := Option.some.inj h
      show Step s [] _
      split
      case isTrue hq => exact .quiet (hp ▸ .isEmpty (List.isEmpty_iff.mp hq))
      case isFalse hq => exact .quiet (hp ▸ .nonempty (mt List.isEmpty_iff.mpr hq))
  case processWait => exact Option.some.inj h ▸ .release (hp ▸ .wait)
  case woken => exact step_of_acquire (hp ▸ .woken) h
  case processFront =>
      cases hq : s.messages with
      | nil =>
          rw [hq] at h
          exact Option.some.inj h ▸ .quiet (hp ▸ .frontFault hq)
      | cons m ms =>
          rw [hq] at h
          exact Option.some.inj h ▸ .quiet (hp ▸ .front (by rw [hq]; rfl))
  case processPop mp =>
      cases hq : s.messages with
      | nil =>
          rw [hq] at h
          exact Option.some.inj h ▸ .quiet (hp ▸ .popFault hq)
      | cons m ms =>
          rw [hq] at h
          exact Option.some.inj h ▸ .pop hp hq
  case processUnlock mp => exact Option.some.inj h ▸ .release (hp ▸ .process mp)
  case processPrint mp => exact Option.some.inj h ▸ .print hp
  case processBreak mp =>
      obtain rfl := Option.some.inj h
      show Step s [] _
      split
      case isTrue hid => exact .quiet (hp ▸ .stop hid)
      case isFalse hid => exact .quiet (hp ▸ .again hid)

/-- Every step of the program is one of these. -/
theorem step_of_next [Fintype T] {a : Action T} (h : next s a = some s') :
    Step s (observe s a) s' := by
  cases a with
  | enqueueMsg t mp =>
      obtain ⟨hp, hs⟩ := Option.ite_none_right_eq_some.mp h
      exact Option.some.inj hs ▸ .call hp
  | processMsg t =>
      obtain ⟨hp, hs⟩ := Option.ite_none_right_eq_some.mp h
      exact Option.some.inj hs ▸ .quiet (hp ▸ .processMsg)
  | step t => exact step_of_step h
  | signal t w =>
      cases w with
      | some w =>
          obtain ⟨⟨hp, hw⟩, hs⟩ := Option.ite_none_right_eq_some.mp h
          exact Option.some.inj hs ▸ .wake hp hw
      | none =>
          obtain ⟨⟨hp, hw⟩, hs⟩ := Option.ite_none_right_eq_some.mp h
          exact Option.some.inj hs ▸ .lost hp hw
  | spurious t =>
      obtain ⟨hp, hs⟩ := Option.ite_none_right_eq_some.mp h
      exact Option.some.inj hs ▸ .quiet (hp ▸ .spurious)

/-! ### The mutex -/

/-- The thread holds the mutex. -/
def Pc.inside : Pc → Bool
  | .enqueuePush _ | .enqueueUnlock | .processEmpty | .processWait | .processFront
  | .processPop _ | .processUnlock _ | .fault => true
  | _ => false

/-- What a thread inside the critical section knows about the queue. -/
def View (messages : List Msg) : Pc → Prop
  | .processWait => messages = []
  | .processFront => messages ≠ []
  | .processPop mp => messages.head? = some mp
  | .fault => False
  | _ => True

/-- The mutex agrees with the program counters, and each thread is right about the
queue. -/
structure Locked (s : State T) : Prop where
  agrees : Agrees s.lock Pc.inside s.pc
  view : ∀ t, View s.messages (s.pc t)

theorem view_of_not_inside {messages : List Msg} {p : Pc} (hp : p.inside = false) :
    View messages p := by
  cases p <;> trivial

/-- The thread that holds the mutex may change the queue. -/
theorem Locked.view_update (h : Locked s) {t : T} (ht : (s.pc t).inside = true) {p : Pc}
    {messages : List Msg} (hp : View messages p) (t' : T) :
    View messages (Function.update s.pc t p t') := by
  refine (Function.forall_update_iff s.pc fun _ q => View messages q).mpr
    ⟨hp, fun t' hne => view_of_not_inside ?_⟩ t'
  exact Bool.eq_false_iff.mpr fun ht' => hne (h.agrees.unique ht' ht)

theorem Locked.goto (h : Locked s) {t : T} {p : Pc} (hin : p.inside = (s.pc t).inside)
    (hp : View s.messages p) : Locked (s.goto t p) where
  agrees := h.agrees.keep hin
  view := (Function.forall_update_iff s.pc fun _ q => View s.messages q).mpr
    ⟨hp, fun t' _ => h.view t'⟩

theorem Quiet.inside {messages : List Msg} {p p' : Pc} (h : Quiet messages p p') :
    p'.inside = p.inside := by
  cases h <;> rfl

theorem Quiet.view {messages : List Msg} {p p' : Pc} (h : Quiet messages p p')
    (hp : View messages p) : View messages p' := by
  cases h with
  | isEmpty hq => exact hq
  | nonempty hq => exact hq
  | front hq => exact hq
  | frontFault hq => exact hp hq
  | popFault hq =>
      rw [hq] at hp
      cases hp
  | processMsg | spurious | stop | again => trivial

theorem Acquires.inside {p p' : Pc} (h : Acquires p p') : p'.inside = true := by
  cases h <;> rfl

theorem Acquires.view {p p' : Pc} (h : Acquires p p') (messages : List Msg) :
    View messages p' := by
  cases h <;> trivial

theorem Releases.inside {p p' : Pc} (h : Releases p p') :
    p.inside = true ∧ p'.inside = false := by
  cases h <;> exact ⟨rfl, rfl⟩

theorem Locked.step {es : List (Event T)} (h : Locked s) (hs : Step s es s') : Locked s' := by
  cases hs with
  | @quiet t p hq => exact h.goto hq.inside (hq.view (h.view t))
  | call hp => exact h.goto (by rw [hp]; rfl) trivial
  | @acquire t p hfree hp =>
      refine ⟨h.agrees.acquire hfree hp.inside, ?_⟩
      exact (Function.forall_update_iff s.pc fun _ q => View s.messages q).mpr
        ⟨hp.view _, fun t' _ => h.view t'⟩
  | @release t p hp =>
      refine ⟨h.agrees.release hp.inside.1 hp.inside.2, ?_⟩
      exact (Function.forall_update_iff s.pc fun _ q => View s.messages q).mpr
        ⟨view_of_not_inside hp.inside.2, fun t' _ => h.view t'⟩
  | @push t mp hp =>
      have hin : (s.pc t).inside = true := by rw [hp]; rfl
      exact ⟨h.agrees.keep (by rw [hin]; rfl), h.view_update hin trivial⟩
  | @pop t mp m ms hp hq =>
      have hin : (s.pc t).inside = true := by rw [hp]; rfl
      exact ⟨h.agrees.keep (by rw [hin]; rfl), h.view_update hin trivial⟩
  | print hp => exact h.goto (by rw [hp]; rfl) trivial
  | @wake t w hp hw =>
      have hne : w ≠ t := ne_of_asleep hp hw
      refine (h.goto (p := .idle) (by rw [hp]; rfl) trivial).goto ?_ trivial
      show _ = (Function.update s.pc t .idle w).inside
      rw [Function.update_of_ne hne, hw]
      rfl
  | lost hp => exact h.goto (by rw [hp]; rfl) trivial

/-! ### The history -/

/-- The message with which a producer has been called and which it has not yet pushed. -/
def Pc.toPush : Pc → List Msg
  | .enqueueLock mp | .enqueuePush mp => [mp]
  | _ => []

/-- The message a consumer has popped and not yet processed. -/
def Pc.inHand : Pc → List Msg
  | .processUnlock mp | .processPrint mp => [mp]
  | _ => []

/-- The consumer has popped a stop message. -/
def Pc.leaving : Pc → Bool
  | .processUnlock mp | .processPrint mp | .processBreak mp => mp.id = stopId
  | .exited => true
  | _ => false

/-- What the history says about a thread at `p`: it has pushed what it was called with, and
processed what it has popped, but for what it is at; and after a stop message it has popped
nothing. -/
structure Thread (l : List (Event T)) (t : T) (p : Pc) : Prop where
  pushes : messagesOfThread .called t l = messagesOfThread .pushed t l ++ p.toPush
  processes : messagesOfThread .popped t l = messagesOfThread .processed t l ++ p.inHand
  stopped : ∀ m ∈ messagesOfThread .popped t l, m.id = stopId → p.leaving = true
  last : ∀ l₁ m l₂, messagesOfThread .popped t l = l₁ ++ m :: l₂ → m.id = stopId → l₂ = []

/-- How the history fits the state. -/
structure History (s : State T) (l : List (Event T)) : Prop where
  order : messagesOf .popped l ++ s.messages = messagesOf .pushed l
  threads : ∀ t, Thread l t (s.pc t)

section Events

variable {l : List (Event T)} {t t' : T} {w w' : What} {m : Msg} {p p' : Pc}

omit [DecidableEq T] in
theorem messagesOf_concat (w w' : What) (l : List (Event T)) (t : T) (m : Msg) :
    messagesOf w (l ++ [⟨w', t, m⟩]) = messagesOf w l ++ if w' = w then [m] else [] := by
  by_cases h : w' = w <;> simp [messagesOf, h]

theorem messagesOfThread_concat (w w' : What) (l : List (Event T)) (t : T) (m : Msg) :
    messagesOfThread w t (l ++ [⟨w', t, m⟩]) =
      messagesOfThread w t l ++ if w' = w then [m] else [] := by
  rw [messagesOfThread, List.filter_append, List.filter_cons_of_pos (by simp), List.filter_nil]
  exact messagesOf_concat w w' _ t m

theorem messagesOfThread_concat_of_ne (w w' : What) (l : List (Event T)) (h : t' ≠ t) (m : Msg) :
    messagesOfThread w t' (l ++ [⟨w', t, m⟩]) = messagesOfThread w t' l := by
  rw [messagesOfThread, List.filter_append, List.filter_cons_of_neg (by simpa using h.symm)]
  rw [List.filter_nil, List.append_nil]
  rfl

/-- What another thread does is not in the history of this one. -/
theorem Thread.of_ne (h : Thread l t' p) (hne : t' ≠ t) (w : What) (m : Msg) :
    Thread (l ++ [⟨w, t, m⟩]) t' p := by
  have heq : ∀ w', messagesOfThread w' t' (l ++ [⟨w, t, m⟩]) = messagesOfThread w' t' l :=
    fun w' => messagesOfThread_concat_of_ne w' w l hne m
  refine ⟨?_, ?_, ?_, ?_⟩
  · rw [heq, heq]
    exact h.pushes
  · rw [heq, heq]
    exact h.processes
  · rw [heq]
    exact h.stopped
  · rw [heq]
    exact h.last

/-- A move of the thread at which nothing happens to a message. -/
theorem Thread.move (h : Thread l t p) (hpush : p'.toPush = p.toPush)
    (hhand : p'.inHand = p.inHand) (hleave : p.leaving = true → p'.leaving = true) :
    Thread l t p' where
  pushes := by rw [hpush]; exact h.pushes
  processes := by rw [hhand]; exact h.processes
  stopped m hm hid := hleave (h.stopped m hm hid)
  last := h.last

/-- `enqueue_msg` is called. -/
theorem Thread.call (h : Thread l t .idle) (m : Msg) :
    Thread (l ++ [⟨.called, t, m⟩]) t (.enqueueLock m) := by
  refine ⟨?_, ?_, ?_, ?_⟩ <;>
    simp only [messagesOfThread_concat, reduceCtorEq, if_true, if_false, List.append_nil]
  · rw [h.pushes]
    exact List.append_assoc _ _ _
  · exact h.processes
  · exact h.stopped
  · exact h.last

/-- The message of the call is pushed. -/
theorem Thread.push (h : Thread l t (.enqueuePush m)) :
    Thread (l ++ [⟨.pushed, t, m⟩]) t .enqueueUnlock := by
  refine ⟨?_, ?_, ?_, ?_⟩ <;>
    simp only [messagesOfThread_concat, reduceCtorEq, if_true, if_false, List.append_nil]
  · exact h.pushes.trans (List.append_nil _).symm
  · exact h.processes
  · exact h.stopped
  · exact h.last

/-- A pop by a consumer that has not popped a stop message before. -/
theorem Thread.pop (h : Thread l t (.processPop m)) :
    Thread (l ++ [⟨.popped, t, m⟩]) t (.processUnlock m) := by
  have hnone : ∀ m' ∈ messagesOfThread .popped t l, m'.id ≠ stopId := by
    intro m' hm' hid
    cases h.stopped m' hm' hid
  refine ⟨?_, ?_, ?_, ?_⟩ <;>
    simp only [messagesOfThread_concat, reduceCtorEq, if_true, if_false, List.append_nil]
  · exact h.pushes
  · rw [h.processes]
    exact List.append_assoc _ _ _
  · intro m' hm' hid
    rcases List.mem_append.mp hm' with hold | hnew
    · exact absurd hid (hnone m' hold)
    · obtain rfl : m' = m := by simpa using hnew
      exact decide_eq_true hid
  · intro l₁ m' l₂ heq hid
    rcases List.eq_nil_or_concat l₂ with rfl | ⟨l', x, rfl⟩
    · rfl
    · -- a stop message would have been popped before
      rw [List.concat_eq_append, ← List.cons_append, ← List.append_assoc] at heq
      have hmem : m' ∈ messagesOfThread .popped t l := by
        rw [(List.append_inj' heq rfl).1]
        simp
      exact absurd hid (hnone m' hmem)

/-- The message popped last is processed. -/
theorem Thread.process (h : Thread l t (.processPrint m)) :
    Thread (l ++ [⟨.processed, t, m⟩]) t (.processBreak m) := by
  refine ⟨?_, ?_, ?_, ?_⟩ <;>
    simp only [messagesOfThread_concat, reduceCtorEq, if_true, if_false, List.append_nil]
  · exact h.pushes
  · exact h.processes.trans (List.append_nil _).symm
  · exact h.stopped
  · exact h.last

end Events

theorem Quiet.history {messages : List Msg} {p p' : Pc} (h : Quiet messages p p') :
    p'.toPush = p.toPush ∧ p'.inHand = p.inHand ∧ (p.leaving = true → p'.leaving = true) := by
  refine ⟨by cases h <;> rfl, by cases h <;> rfl, fun hp => ?_⟩
  cases h with
  | stop => rfl
  | again hid => exact absurd (of_decide_eq_true hp) hid
  | _ => cases hp

theorem Acquires.history {p p' : Pc} (h : Acquires p p') :
    p'.toPush = p.toPush ∧ p'.inHand = p.inHand ∧ (p.leaving = true → p'.leaving = true) := by
  cases h <;> exact ⟨rfl, rfl, id⟩

theorem Releases.history {p p' : Pc} (h : Releases p p') :
    p'.toPush = p.toPush ∧ p'.inHand = p.inHand ∧ (p.leaving = true → p'.leaving = true) := by
  cases h <;> exact ⟨rfl, rfl, id⟩

section History

variable {l : List (Event T)} {t : T} {p : Pc}

/-- A step at which nothing happens to a message. -/
theorem History.goto (h : History s l) (lock : Option T)
    (hp : p.toPush = (s.pc t).toPush ∧ p.inHand = (s.pc t).inHand ∧
      ((s.pc t).leaving = true → p.leaving = true)) :
    History ({ s with lock := lock }.goto t p) l where
  order := h.order
  threads := (Function.forall_update_iff s.pc fun t' q => Thread l t' q).mpr
    ⟨(h.threads t).move hp.1 hp.2.1 hp.2.2, fun t' _ => h.threads t'⟩

/-- A step at which something happens to a message. -/
theorem History.event (h : History s l) {e : Event T} {q : List Msg}
    (horder : messagesOf .popped (l ++ [e]) ++ q = messagesOf .pushed (l ++ [e]))
    (ht : Thread (l ++ [e]) e.thread p) :
    History ({ s with messages := q }.goto e.thread p) (l ++ [e]) where
  order := horder
  threads := (Function.forall_update_iff s.pc fun t' q => Thread (l ++ [e]) t' q).mpr
    ⟨ht, fun t' hne => (h.threads t').of_ne hne e.what e.msg⟩

theorem History.step {es : List (Event T)} (hl : Locked s) (h : History s l)
    (hs : Step s es s') : History s' (l ++ es) := by
  cases hs with
  | quiet hq => exact (List.append_nil l).symm ▸ h.goto s.lock hq.history
  | acquire _ hp => exact (List.append_nil l).symm ▸ h.goto _ hp.history
  | release hp => exact (List.append_nil l).symm ▸ h.goto none hp.history
  | @call t mp hp =>
      refine h.event (e := ⟨.called, t, mp⟩) ?_ ((hp ▸ h.threads t).call mp)
      simpa [messagesOf_concat] using h.order
  | @push t mp hp =>
      refine h.event (e := ⟨.pushed, t, mp⟩) ?_ (hp ▸ h.threads t).push
      simp only [messagesOf_concat]
      rw [← h.order]
      simp
  | @pop t mp m ms hp hq =>
      have hv := hl.view t
      rw [hp, hq] at hv
      obtain rfl : m = mp := Option.some.inj hv
      refine h.event (e := ⟨.popped, t, m⟩) ?_ (hp ▸ h.threads t).pop
      have horder := h.order
      rw [hq] at horder
      simpa [messagesOf_concat] using horder
  | @print t mp hp =>
      refine h.event (e := ⟨.processed, t, mp⟩) (q := s.messages) ?_
        (hp ▸ h.threads t).process
      simpa [messagesOf_concat] using h.order
  | @wake t w hp hw =>
      have hne : w ≠ t := ne_of_asleep hp hw
      have hg : History (s.goto t .idle) l := h.goto s.lock (by rw [hp]; exact ⟨rfl, rfl, id⟩)
      refine (List.append_nil l).symm ▸ hg.goto s.lock ?_
      have hpc : (s.goto t .idle).pc w = .asleep := (Function.update_of_ne hne _ _).trans hw
      rw [hpc]
      exact ⟨rfl, rfl, id⟩
  | lost hp => exact (List.append_nil l).symm ▸ h.goto s.lock (by rw [hp]; exact ⟨rfl, rfl, id⟩)

end History

/-! ### No lost wakeup -/

/-- How many queued messages the thread answers for: a producer that has pushed and
not yet signalled, and a consumer that is awake and has not taken a stop message,
answer for one. -/
def Pc.credit : Pc → ℕ
  | .enqueueUnlock | .enqueueSignal => 1
  | .processLock | .processEmpty | .woken | .processFront | .processPop _ => 1
  | .processUnlock mp | .processPrint mp | .processBreak mp => if mp.id = stopId then 0 else 1
  | _ => 0

variable [Fintype T]

/-- While a consumer sleeps, all queued messages are answered for. -/
def Covered (s : State T) : Prop :=
  (∃ t, s.pc t = .asleep) → s.messages.length ≤ total Pc.credit s.pc

/-- A step after which nobody sleeps who did not sleep before. -/
theorem Covered.goto (h : Covered s) {t : T} {p : Pc} (hpc : s'.pc = Function.update s.pc t p)
    (hp : p ≠ .asleep)
    (hle : s'.messages.length + (s.pc t).credit ≤ s.messages.length + p.credit) :
    Covered s' := by
  rintro ⟨t', ht'⟩
  rw [hpc] at ht' ⊢
  have hasleep : s.pc t' = .asleep := by
    by_cases htt : t' = t
    · subst htt
      rw [Function.update_self] at ht'
      exact absurd ht' hp
    · rwa [Function.update_of_ne htt] at ht'
  have hcov := h ⟨t', hasleep⟩
  have htotal := total_update Pc.credit s.pc t p
  omega

theorem Quiet.credit {messages : List Msg} {p p' : Pc} (h : Quiet messages p p')
    (hp : View messages p) : messages = [] ∨ p' ≠ .asleep ∧ p.credit ≤ p'.credit := by
  cases h with
  | isEmpty hq => exact .inl hq
  | frontFault hq => exact .inl hq
  | popFault hq => exact .inl hq
  | stop hid => exact .inr ⟨nofun, by simp [Pc.credit, hid]⟩
  | again hid => exact .inr ⟨nofun, by simp [Pc.credit, hid]⟩
  | nonempty | front => exact .inr ⟨nofun, Nat.le_refl _⟩
  | processMsg | spurious => exact .inr ⟨nofun, Nat.zero_le _⟩

theorem Acquires.credit {p p' : Pc} (h : Acquires p p') :
    p' ≠ .asleep ∧ p.credit ≤ p'.credit := by
  cases h <;> exact ⟨nofun, Nat.le_refl _⟩

theorem Releases.credit {messages : List Msg} {p p' : Pc} (h : Releases p p')
    (hp : View messages p) : messages = [] ∨ p' ≠ .asleep ∧ p.credit ≤ p'.credit := by
  cases h with
  | wait => exact .inl hp
  | enqueue | process => exact .inr ⟨nofun, Nat.le_refl _⟩

theorem Covered.step {es : List (Event T)} (hl : Locked s) (h : Covered s)
    (hs : Step s es s') : Covered s' := by
  cases hs with
  | @quiet t p hq =>
      rcases hq.credit (hl.view t) with hempty | ⟨hne, hle⟩
      · intro _
        show s.messages.length ≤ _
        rw [hempty]
        exact Nat.zero_le _
      · exact h.goto rfl hne (Nat.add_le_add_left hle _)
  | acquire _ hp => exact h.goto rfl hp.credit.1 (Nat.add_le_add_left hp.credit.2 _)
  | @release t p hp =>
      rcases hp.credit (hl.view t) with hempty | ⟨hne, hle⟩
      · intro _
        show s.messages.length ≤ _
        rw [hempty]
        exact Nat.zero_le _
      · exact h.goto rfl hne (Nat.add_le_add_left hle _)
  | @call t mp hp =>
      refine h.goto rfl nofun ?_
      rw [hp]
      exact Nat.le_refl _
  | @push t mp hp =>
      refine h.goto rfl nofun ?_
      rw [hp]
      show (s.messages ++ [mp]).length ≤ s.messages.length + 1
      rw [List.length_append]
      exact Nat.le_refl _
  | @pop t mp m ms hp hq =>
      refine h.goto rfl nofun ?_
      rw [hp, hq]
      exact Nat.le_add_right _ _
  | @print t mp hp =>
      refine h.goto rfl nofun ?_
      rw [hp]
      exact Nat.le_refl _
  | @wake t w hp hw =>
      -- the signal passes the credit of the producer on to the woken consumer
      have hne : w ≠ t := ne_of_asleep hp hw
      intro _
      have hcov := h ⟨w, hw⟩
      have h₁ := total_update Pc.credit s.pc t .idle
      have h₂ := total_update Pc.credit (Function.update s.pc t .idle) w .woken
      rw [Function.update_of_ne hne, hw] at h₂
      rw [hp] at h₁
      show s.messages.length ≤
        total Pc.credit (Function.update (Function.update s.pc t .idle) w .woken)
      simp only [Pc.credit] at h₁ h₂
      omega
  | @lost t hp hw =>
      rintro ⟨t', ht'⟩
      replace ht' : Function.update s.pc t .idle t' = .asleep := ht'
      by_cases htt : t' = t
      · subst htt
        rw [Function.update_self] at ht'
        cases ht'
      · rw [Function.update_of_ne htt] at ht'
        exact absurd ht' (hw t')

/-! ### Every reachable state -/

theorem locked_reach (h : (msgQueue T).Reach s) : Locked s ∧ Covered s := by
  refine h.invariant (I := fun s => Locked s ∧ Covered s)
    (fun s₀ h₀ => ?_) fun s₁ a s₂ ⟨hl, hc⟩ hs => ?_
  · obtain rfl : s₀ = initState := h₀
    exact ⟨⟨fun _ => ⟨nofun, nofun⟩, fun _ => trivial⟩, nofun⟩
  · exact ⟨hl.step (step_of_next hs), hc.step hl (step_of_next hs)⟩

theorem history_reach {p : State T × List (Event T)} (h : (msgQueueObserved T).Reach p) :
    History p.1 p.2 := by
  induction h with
  | @start p h₀ =>
      obtain ⟨s, l⟩ := p
      obtain ⟨rfl, rfl⟩ : s = initState ∧ l = [] := h₀
      refine ⟨rfl, fun t => ⟨rfl, rfl, nofun, fun l₁ m l₂ heq => ?_⟩⟩
      cases l₁ <;> cases heq
  | step hreach hs ih =>
      obtain ⟨hs, hl⟩ := Machine.recorded_next hs
      rw [hl]
      exact ih.step (locked_reach hreach.of_recorded).1 (step_of_next hs)

/-- **Messages are delivered in order and exactly once.**  The messages popped, in pop
order, followed by those still queued, are the messages pushed, in push order.  Each
thread pushes exactly the messages it calls `enqueue_msg` with, in order, the last one
being possibly still to push.  Each consumer processes exactly the messages it has popped,
in order, the last one being possibly still in its hand.  After a stop message it pops
nothing. -/
theorem popped_append_messages {l : List (Event T)} (h : (msgQueueObserved T).Reach (s, l)) :
    messagesOf .popped l ++ s.messages = messagesOf .pushed l ∧
    (∀ t, messagesOfThread .called t l = messagesOfThread .pushed t l ++ (s.pc t).toPush) ∧
    (∀ t, messagesOfThread .popped t l = messagesOfThread .processed t l ++ (s.pc t).inHand) ∧
    ∀ t l₁ m l₂, messagesOfThread .popped t l = l₁ ++ m :: l₂ → m.id = -1 → l₂ = [] := by
  have hh := history_reach h
  exact ⟨hh.order, fun t => (hh.threads t).pushes, fun t => (hh.threads t).processes,
    fun t => (hh.threads t).last⟩

/-- `t` performs `n` operations. -/
def steps (t : T) (n : ℕ) : List (Action T) := List.replicate n (.step t)

/-- Two producers call `enqueue_msg`; the one that calls last pushes first.  The consumer, which
the first signal wakes, takes both messages and ends at the second. -/
def twoProducers (p p' c : T) : List (Action T) :=
  .processMsg c :: steps c 3 ++ .enqueueMsg p ⟨-1, "Stop"⟩ :: .enqueueMsg p' ⟨0, "Hello 0"⟩ ::
    steps p' 3 ++ .signal p' (some c) :: steps p 3 ++ .signal p none :: steps c 14

theorem twoProducers_popped : ∃ s l, (msgQueueObserved (Fin 3)).Reach (s, l) ∧
    messagesOfThread .called 0 l = [⟨-1, "Stop"⟩] ∧
    messagesOfThread .called 1 l = [⟨0, "Hello 0"⟩] ∧
    messagesOf .popped l = [⟨0, "Hello 0"⟩, ⟨-1, "Stop"⟩] ∧
    messagesOfThread .processed 2 l = [⟨0, "Hello 0"⟩, ⟨-1, "Stop"⟩] := by
  have hrun : ((msgQueueObserved (Fin 3)).run (initState, []) (twoProducers 0 1 2)).map
      (fun p => (p.1.messages, [p.1.pc 0, p.1.pc 1, p.1.pc 2],
        [messagesOfThread .pushed 0 p.2, messagesOfThread .pushed 1 p.2,
        messagesOf .pushed p.2, messagesOfThread .popped 2 p.2])) =
      some ([], [.idle, .idle, .exited], [[⟨-1, "Stop"⟩], [⟨0, "Hello 0"⟩],
        [⟨0, "Hello 0"⟩, ⟨-1, "Stop"⟩], [⟨0, "Hello 0"⟩, ⟨-1, "Stop"⟩]]) := by
    decide +kernel
  obtain ⟨⟨s, l⟩, hs, hobs⟩ := Option.map_eq_some_iff.mp hrun
  simp only [Prod.mk.injEq, List.cons.injEq, and_true] at hobs
  obtain ⟨hempty, ⟨h₀, h₁, h₂⟩, hpush₀, hpush₁, hpushed, hpopped⟩ := hobs
  have hinit : (msgQueueObserved (Fin 3)).init (initState, []) := ⟨rfl, rfl⟩
  have hreach := Machine.reach_of_run hinit hs
  obtain ⟨horder, hcalled, hprocessed, -⟩ := popped_append_messages hreach
  refine ⟨s, l, hreach, ?_, ?_, ?_, ?_⟩
  · rw [hcalled 0, h₀, hpush₀]
    rfl
  · rw [hcalled 1, h₁, hpush₁]
    rfl
  · rw [← hpushed, ← horder, hempty, List.append_nil]
  · rw [← hpopped, hprocessed 2, h₂]
    exact (List.append_nil _).symm

/-- Consumers `c` and `c'` go to sleep, `p` enqueues a stop message, and its signal wakes
`c`, which finds the queue non-empty. -/
def stopRun (p c c' : T) : List (Action T) :=
  .processMsg c :: steps c 3 ++ .processMsg c' :: steps c' 3 ++ .enqueueMsg p ⟨-1, "Stop"⟩ ::
    steps p 3 ++ .signal p (some c) :: steps c 2

/-! ### Wakeups -/

/-- The consumer is awake and will test the queue before it waits or ends. -/
def WillTest (messages : List Msg) : Pc → Prop
  | .processLock | .processEmpty | .woken => True
  | .processFront => ∃ mp, messages.head? = some mp ∧ mp.id ≠ stopId
  | .processPop mp | .processUnlock mp | .processPrint mp | .processBreak mp => mp.id ≠ stopId
  | _ => False

/-- The producer has pushed its message and has its signal still to send. -/
def WillSignal (p : Pc) : Prop := p = .enqueueUnlock ∨ p = .enqueueSignal

/-- The consumer has found the queue non-empty and is about to pop a stop message. -/
def TakesStop (messages : List Msg) (p : Pc) : Prop :=
  ∃ mp, messages.head? = some mp ∧ mp.id = stopId ∧ (p = .processFront ∨ p = .processPop mp)

omit [DecidableEq T] [Fintype T] in
/-- A thread with a credit is one of the three. -/
theorem credit_pos {messages : List Msg} {p : Pc} (hp : View messages p) (h : 0 < p.credit) :
    WillSignal p ∨ WillTest messages p ∨ TakesStop messages p := by
  cases p with
  | enqueueUnlock => exact .inl (.inl rfl)
  | enqueueSignal => exact .inl (.inr rfl)
  | processLock | processEmpty | woken => exact .inr (.inl trivial)
  | processFront =>
      obtain ⟨mp, ms, rfl⟩ := List.exists_cons_of_ne_nil hp
      by_cases hid : mp.id = stopId
      · exact .inr (.inr ⟨mp, rfl, hid, .inl rfl⟩)
      · exact .inr (.inl ⟨mp, rfl, hid⟩)
  | processPop mp =>
      by_cases hid : mp.id = stopId
      · exact .inr (.inr ⟨mp, hp, hid, .inr rfl⟩)
      · exact .inr (.inl hid)
  | processUnlock mp | processPrint mp | processBreak mp =>
      refine .inr (.inl fun hid => ?_)
      rw [Pc.credit, if_pos hid] at h
      cases h
  | idle | enqueueLock | enqueuePush | processWait | asleep | exited | fault => cases h

omit [DecidableEq T] [Fintype T] in
theorem TakesStop.inside {messages : List Msg} {p : Pc} (h : TakesStop messages p) :
    p.inside = true ∧ p.credit = 1 := by
  obtain ⟨mp, -, -, rfl | rfl⟩ := h <;> exact ⟨rfl, rfl⟩

/-- **No wakeup is lost.**  In every reachable state where the queue is non-empty and a
consumer sleeps, a producer has its signal still to send, or a consumer is awake and
will test the queue before it waits, or a consumer inside the critical section has
found the queue non-empty and is about to pop a stop message, the only message in the
queue. -/
theorem no_lost_wakeup (h : (msgQueue T).Reach s) (hq : s.messages ≠ [])
    (hsleep : ∃ t, s.pc t = .asleep) :
    (∃ t, WillSignal (s.pc t)) ∨ (∃ t, WillTest s.messages (s.pc t)) ∨
      s.messages.length = 1 ∧ ∃ t, s.lock = some t ∧ TakesStop s.messages (s.pc t) := by
  obtain ⟨hl, hc⟩ := locked_reach h
  by_cases hsignal : ∃ t, WillSignal (s.pc t)
  · exact .inl hsignal
  by_cases htest : ∃ t, WillTest s.messages (s.pc t)
  · exact .inr (.inl htest)
  have hpos := List.length_pos_iff.mpr hq
  have hcov := hc hsleep
  -- all that is left to answer for a message is a consumer in the critical section
  have hstop : ∀ t, 0 < (s.pc t).credit → TakesStop s.messages (s.pc t) := fun t ht =>
    ((credit_pos (hl.view t) ht).resolve_left fun hs => hsignal ⟨t, hs⟩).resolve_left
      fun hs => htest ⟨t, hs⟩
  obtain ⟨t, ht⟩ := exists_of_total_pos (Nat.lt_of_lt_of_le hpos hcov)
  have honly : ∀ t', t' ≠ t → (s.pc t').credit = 0 := fun t' hne => Nat.eq_zero_of_not_pos
    fun ht' => hne (hl.agrees.unique (hstop t' ht').inside.1 (hstop t ht).inside.1)
  rw [total_eq_of_forall_ne honly, (hstop t ht).inside.2] at hcov
  exact .inr (.inr ⟨by omega, t, (hl.agrees t).mpr (hstop t ht).inside.1, hstop t ht⟩)

/-- The state after `stopRun`. -/
theorem stopRun_state : ∃ s, (msgQueue (Fin 3)).run initState (stopRun 0 1 2) = some s ∧
    s.messages = [⟨-1, "Stop"⟩] ∧ s.pc 0 = .idle ∧ s.pc 1 = .processFront ∧
    s.pc 2 = .asleep := by
  have hrun : ((msgQueue (Fin 3)).run initState (stopRun 0 1 2)).map
      (fun s => (s.messages, s.pc 0, s.pc 1, s.pc 2))
      = some ([⟨-1, "Stop"⟩], .idle, .processFront, .asleep) := by decide +kernel
  obtain ⟨s, hs, hobs⟩ := Option.map_eq_some_iff.mp hrun
  simp only [Prod.mk.injEq] at hobs
  exact ⟨s, hs, hobs⟩

theorem stopRun_covered : ∃ s, (msgQueue (Fin 3)).Reach s ∧ s.messages ≠ [] ∧
    (∃ t, s.pc t = .asleep) ∧
    ((∃ t, WillSignal (s.pc t)) ∨ (∃ t, WillTest s.messages (s.pc t)) ∨
      s.messages.length = 1 ∧ ∃ t, s.lock = some t ∧ TakesStop s.messages (s.pc t)) := by
  obtain ⟨s, hs, hq, -, -, hsleep⟩ := stopRun_state
  have hreach := Machine.reach_of_run (M := msgQueue (Fin 3)) rfl hs
  have hne : s.messages ≠ [] := by rw [hq]; nofun
  exact ⟨s, hreach, hne, ⟨2, hsleep⟩, no_lost_wakeup hreach hne ⟨2, hsleep⟩⟩

/-- The third case is needed: here the message is about to be popped, but no signal is
to come and no consumer will test the queue. -/
theorem stopRun_uncovered : ∃ s, (msgQueue (Fin 3)).Reach s ∧ s.messages ≠ [] ∧
    (∃ t, s.pc t = .asleep) ∧ (¬∃ t, WillSignal (s.pc t)) ∧
    ¬∃ t, WillTest s.messages (s.pc t) := by
  obtain ⟨s, hs, hq, h0, h1, h2⟩ := stopRun_state
  refine ⟨s, Machine.reach_of_run (M := msgQueue (Fin 3)) rfl hs, by rw [hq]; nofun, ⟨2, h2⟩,
    ?_, ?_⟩
  · rintro ⟨t, ht⟩
    obtain rfl | rfl | rfl : t = 0 ∨ t = 1 ∨ t = 2 := by omega
    · rw [h0] at ht; rcases ht with e | e <;> cases e
    · rw [h1] at ht; rcases ht with e | e <;> cases e
    · rw [h2] at ht; rcases ht with e | e <;> cases e
  · rintro ⟨t, ht⟩
    obtain rfl | rfl | rfl : t = 0 ∨ t = 1 ∨ t = 2 := by omega
    · rw [h0] at ht; exact ht
    · -- the woken consumer will pop the stop message and leave
      rw [h1, hq] at ht
      obtain ⟨mp, hmp, hid⟩ := ht
      obtain rfl := Option.some.inj hmp
      exact hid rfl
    · rw [h2] at ht; exact ht

end Apue.MsgQueue
