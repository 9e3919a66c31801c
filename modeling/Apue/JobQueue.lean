/-
Apue/JobQueue.lean

The threads of `11/9_usage_rwlock.cpp`: each worker puts its own job into the queue and
takes it out again; the main thread asks for the size and for the job of the first worker,
joins all workers and asks for the size once more.

    worker:  push_back(my_job);  remove(my_job)
    main:    size();  find(threads[0]);  pthread_join ..;  size()

The calls behave like those of the specification in `Apue.DequeRwlock`, so it is enough to
look at that.  There the jobs in the queue are those of the workers between their two calls.
No schedule lets the threads block each other, and the size that is printed at the end is 0
(`final_size_zero`), for any number of workers; the program has four.
-/
import Apue.DequeRwlock
import Mathlib.Data.Fin.Basic
import Mathlib.Data.Fintype.Card
import Mathlib.Data.List.FinRange

namespace Apue.JobQueue

open DequeRwlock RwLock

variable {n : ℕ}

/-- The main thread and the workers. -/
abbrev Thread (n : ℕ) := Option (Fin (n + 1))

/-- The job of a worker is known by its number, which is also the id that it carries. -/
abbrev Job (n : ℕ) := Fin (n + 1)

/-- `worker`. -/
def workerScript (i : Fin (n + 1)) : List (Cmd (Thread n) (Job n) (Job n)) :=
  [.op (.pushBack i), .op (.remove i)]

/-- The joins of workers `m` and later, and the last size. -/
def joins (n m : ℕ) : List (Cmd (Thread n) (Job n) (Job n)) :=
  ((List.finRange (n + 1)).drop m).map (fun i => .join (some i)) ++ [.op .size]

/-- `main`. -/
def mainScript (n : ℕ) : List (Cmd (Thread n) (Job n) (Job n)) :=
  [.op .size, .op (.find 0)] ++ joins n 0

def script : Thread n → List (Cmd (Thread n) (Job n) (Job n))
  | none => mainScript n
  | some i => workerScript i

/-- The program. -/
def program (n : ℕ) : Machine (State (Thread n) (Job n) (Job n)) (Thread n) :=
  threads (fun i => i) script

/-! ### The workers -/

/-- A call, whether it is stale or not. -/
def core : Phase (Job n) (Job n) → Phase (Job n) (Job n)
  | .done o r _ => .done o r false
  | ph => ph

@[simp] theorem core_after (ph : Phase (Job n) (Job n)) (erased : Bool) :
    core (ph.after erased) = core ph := by
  cases ph <;> cases erased <;> rfl

/-- Where a worker is in its script, and whether its job is in the queue. -/
inductive Stage (i : Fin (n + 1)) :
    Phase (Job n) (Job n) → List (Cmd (Thread n) (Job n) (Job n)) → Bool → Prop
  | start : Stage i .idle [.op (.pushBack i), .op (.remove i)] false
  | pushing : Stage i (.called (.pushBack i)) [.op (.remove i)] false
  | pushed : Stage i (.done (.pushBack i) .void false) [.op (.remove i)] true
  | waiting : Stage i .idle [.op (.remove i)] true
  | removing : Stage i (.called (.remove i)) [] true
  | removed : Stage i (.done (.remove i) .void false) [] false
  | finished : Stage i .idle [] false

/-! ### The main thread -/

abbrev History (n : ℕ) := List (Event (Thread n) (Job n) (Job n))

/-- The results that `find` can have. -/
def FindResult (r : Ret (Job n)) : Prop := r = .job 0 ∨ r = .nullptr ∨ r = .undefined

/-- What is seen of the main thread before it joins the workers. -/
def firstHalf (k : ℕ) (r : Ret (Job n)) : History n :=
  [.call none .size, .ret none .size (.size k), .call none (.find 0), .ret none (.find 0) r]

/-- Where the main thread is, and what was seen of it. -/
inductive MainStage (finished : Fin (n + 1) → Prop) :
    Phase (Job n) (Job n) → List (Cmd (Thread n) (Job n) (Job n)) → History n → Prop
  | start : MainStage finished .idle (mainScript n) []
  | sizing : MainStage finished (.called .size) (.op (.find 0) :: joins n 0) [.call none .size]
  | sized {k : ℕ} : k ≤ n + 1 →
      MainStage finished (.done .size (.size k) false) (.op (.find 0) :: joins n 0)
        [.call none .size]
  | asked {k : ℕ} : k ≤ n + 1 →
      MainStage finished .idle (.op (.find 0) :: joins n 0)
        [.call none .size, .ret none .size (.size k)]
  | seeking {k : ℕ} : k ≤ n + 1 →
      MainStage finished (.called (.find 0)) (joins n 0)
        [.call none .size, .ret none .size (.size k), .call none (.find 0)]
  | found {k : ℕ} {r : Ret (Job n)} : k ≤ n + 1 → FindResult r →
      MainStage finished (.done (.find 0) r false) (joins n 0)
        [.call none .size, .ret none .size (.size k), .call none (.find 0)]
  | joining {k m : ℕ} {r : Ret (Job n)} : k ≤ n + 1 → FindResult r →
      (∀ i : Fin (n + 1), i.val < m → finished i) →
      MainStage finished .idle (joins n m) (firstHalf k r)
  | counting {k : ℕ} {r : Ret (Job n)} : k ≤ n + 1 → FindResult r → (∀ i, finished i) →
      MainStage finished (.called .size) [] (firstHalf k r ++ [.call none .size])
  | counted {k : ℕ} {r : Ret (Job n)} : k ≤ n + 1 → FindResult r → (∀ i, finished i) →
      MainStage finished (.done .size (.size 0) false) [] (firstHalf k r ++ [.call none .size])
  | finished {k : ℕ} {r : Ret (Job n)} : k ≤ n + 1 → FindResult r → (∀ i, finished i) →
      MainStage finished .idle []
        (firstHalf k r ++ [.call none .size, .ret none .size (.size 0)])

theorem MainStage.mono {P Q : Fin (n + 1) → Prop} {ph : Phase (Job n) (Job n)}
    {todo : List (Cmd (Thread n) (Job n) (Job n))} {history : History n}
    (h : MainStage P ph todo history) (hPQ : ∀ i, P i → Q i) : MainStage Q ph todo history := by
  cases h with
  | start => exact .start
  | sizing => exact .sizing
  | sized hk => exact .sized hk
  | asked hk => exact .asked hk
  | seeking hk => exact .seeking hk
  | found hk hr => exact .found hk hr
  | joining hk hr hm => exact .joining hk hr fun i hi => hPQ i (hm i hi)
  | counting hk hr hall => exact .counting hk hr fun i => hPQ i (hall i)
  | counted hk hr hall => exact .counted hk hr fun i => hPQ i (hall i)
  | finished hk hr hall => exact .finished hk hr fun i => hPQ i (hall i)

/-! ### The invariant of the specification -/

/-- The event is one of the main thread. -/
def isMain : Event (Thread n) (Job n) (Job n) → Bool
  | .call t _ => t.isNone
  | .ret t _ _ => t.isNone

/-- Worker `i` has come to its end. -/
def Finished (a : Spec (Thread n) (Job n) (Job n)) (i : Fin (n + 1)) : Prop :=
  a.phase (some i) = .idle ∧ a.todo (some i) = []

structure Inv (a : Spec (Thread n) (Job n) (Job n)) (history : History n) : Prop where
  nodup : a.jobs.Nodup
  worker : ∀ i, ∃ b, Stage i (core (a.phase (some i))) (a.todo (some i)) b ∧
    (i ∈ a.jobs ↔ b = true)
  main : MainStage (Finished a) (core (a.phase none)) (a.todo none) (history.filter isMain)

section Steps

variable {a a' : Spec (Thread n) (Job n) (Job n)} {history : History n} {i : Fin (n + 1)}

theorem inv_init : Inv ⟨[], fun _ => .idle, script⟩ ([] : History n) where
  nodup := List.nodup_nil
  worker := fun _ => ⟨false, .start, fun hmem => absurd hmem List.not_mem_nil, nofun⟩
  main := .start

/-- A step of worker `i`. -/
theorem Inv.of_worker {events : History n} {b : Bool} (h : Inv a history) (hnodup : a'.jobs.Nodup)
    (hi : Stage i (core (a'.phase (some i))) (a'.todo (some i)) b) (hb : i ∈ a'.jobs ↔ b = true)
    (hjobs : ∀ j, j ≠ i → (j ∈ a'.jobs ↔ j ∈ a.jobs))
    (hphase : ∀ t, t ≠ some i → ∃ erased, a'.phase t = (a.phase t).after erased)
    (htodo : ∀ t, t ≠ some i → a'.todo t = a.todo t) (hrunning : ¬Finished a i)
    (hevents : events.filter isMain = []) : Inv a' (history ++ events) where
  nodup := hnodup
  worker := by
    intro j
    rcases eq_or_ne j i with rfl | hne
    · exact ⟨b, hi, hb⟩
    · have hsome : some j ≠ some i := fun heq => hne (Option.some.inj heq)
      obtain ⟨erased, hj⟩ := hphase (some j) hsome
      obtain ⟨b', hstage, hmem⟩ := h.worker j
      rw [hj, core_after, htodo _ hsome]
      exact ⟨b', hstage, (hjobs j hne).trans hmem⟩
  main := by
    obtain ⟨erased, hnone⟩ := hphase none nofun
    rw [hnone, core_after, htodo none nofun, List.filter_append, hevents, List.append_nil]
    refine h.main.mono fun j hj => ?_
    have hne : j ≠ i := by
      rintro rfl
      exact hrunning hj
    have hsome : some j ≠ some i := fun heq => hne (Option.some.inj heq)
    obtain ⟨erased', hphase'⟩ := hphase (some j) hsome
    refine ⟨?_, (htodo _ hsome).trans hj.2⟩
    rw [hphase', hj.1]
    cases erased' <;> rfl

/-- The other threads, when one of them steps. -/
theorem update_of_ne_some {β : Type} {t : Thread n} {f : Thread n → β} {x : β}
    (h : t ≠ some i) : Function.update f (some i) x t = f t :=
  Function.update_of_ne h ..

theorem inv_worker_call (h : Inv a history)
    (hs : specStep (fun j => j) a (.call (some i)) = some a') :
    Inv a' (history ++ a.visible (.call (some i))) := by
  obtain ⟨b, hstage, hmem⟩ := h.worker i
  obtain ⟨hphase, o, rest, htodo, rfl⟩ := specStep_call hs
  refine h.of_worker (i := i) (b := b) h.nodup ?_ hmem (fun _ _ => Iff.rfl) ?_ ?_ ?_ ?_
  · rw [show core (a.phase (some i)) = .idle by rw [hphase]; rfl, htodo] at hstage
    dsimp only
    rw [Function.update_self, Function.update_self]
    cases hstage with
    | start => exact .pushing
    | waiting => exact .removing
  · exact fun t ht => ⟨false, update_of_ne_some ht⟩
  · exact fun t ht => update_of_ne_some ht
  · rintro ⟨-, hnil⟩
    rw [htodo] at hnil
    exact nomatch hnil
  · rw [Spec.visible, htodo]
    rfl

theorem inv_worker_effect (h : Inv a history)
    (hs : specStep (fun j => j) a (.effect (some i)) = some a') :
    Inv a' (history ++ a.visible (.effect (some i))) := by
  obtain ⟨b, hstage, hmem⟩ := h.worker i
  obtain ⟨o, erased, hphase, rfl⟩ := specStep_effect_cases hs
  rw [show core (a.phase (some i)) = .called o by rw [hphase]; rfl] at hstage
  have hothers : ∀ t, t ≠ some i → ∃ erased', Function.update
      (fun u => (a.phase u).after erased) (some i)
      (.done o (o.apply (fun j => j) a.jobs).2 false) t = (a.phase t).after erased' :=
    fun t ht => ⟨erased, update_of_ne_some ht⟩
  have hrunning : ¬Finished a i := by
    rintro ⟨hidle, -⟩
    rw [hphase] at hidle
    exact nomatch hidle
  generalize htodo : a.todo (some i) = todo at hstage
  cases hstage with
  | pushing =>
      have hnot : i ∉ a.jobs := fun hi => nomatch hmem.mp hi
      refine h.of_worker (i := i) (b := true) ?_ ?_ ?_ ?_ hothers (fun _ _ => rfl) hrunning rfl
      · exact List.nodup_append.mpr ⟨h.nodup, List.nodup_singleton i, by
          rintro j hj k hk rfl
          exact hnot (List.mem_singleton.mp hk ▸ hj)⟩
      · dsimp only
        rw [Function.update_self, htodo]
        exact .pushed
      · exact ⟨fun _ => rfl, fun _ => List.mem_append_right _ List.mem_cons_self⟩
      · intro j hne
        exact List.mem_append.trans (or_iff_left fun hj => hne (List.mem_singleton.mp hj))
  | removing =>
      refine h.of_worker (i := i) (b := false) (h.nodup.erase i) ?_ ?_ ?_ hothers (fun _ _ => rfl)
        hrunning rfl
      · dsimp only
        rw [Function.update_self, htodo]
        exact .removed
      · exact ⟨fun hi => absurd rfl (h.nodup.mem_erase_iff.mp hi).1, nofun⟩
      · exact fun j hne => h.nodup.mem_erase_iff.trans (and_iff_right hne)

theorem inv_worker_ret {r : Ret (Job n)} (h : Inv a history)
    (hs : specStep (fun j => j) a (.ret (some i) r) = some a') :
    Inv a' (history ++ a.visible (.ret (some i) r)) := by
  obtain ⟨b, hstage, hmem⟩ := h.worker i
  obtain ⟨o, r₀, stale, hphase, hmay, rfl⟩ := specStep_ret hs
  rw [show core (a.phase (some i)) = .done o r₀ false by rw [hphase]; rfl] at hstage
  refine h.of_worker (i := i) (b := b) h.nodup ?_ hmem (fun _ _ => Iff.rfl) ?_ (fun _ _ => rfl) ?_ ?_
  · dsimp only
    rw [Function.update_self]
    generalize a.todo (some i) = todo at hstage ⊢
    cases hstage with
    | pushed => exact .waiting
    | removed => exact .finished
  · exact fun t ht => ⟨false, update_of_ne_some ht⟩
  · rintro ⟨hidle, -⟩
    rw [hphase] at hidle
    exact nomatch hidle
  · rw [Spec.visible, hphase]
    rfl

/-- The script of a worker has no joins. -/
theorem not_join_worker (h : Inv a history) :
    specStep (fun j => j) a (.join (some i)) = none := by
  refine Option.eq_none_iff_forall_ne_some.mpr fun a' hs => ?_
  obtain ⟨b, hstage, -⟩ := h.worker i
  obtain ⟨-, u, rest, htodo, -⟩ := specStep_join hs
  rw [htodo] at hstage
  generalize core (a.phase (some i)) = ph at hstage
  cases hstage

/-- A step of the main thread. -/
theorem Inv.of_main {events : History n} (h : Inv a history) (hjobs : a'.jobs = a.jobs)
    (hworker : ∀ i, core (a'.phase (some i)) = core (a.phase (some i)) ∧
      a'.todo (some i) = a.todo (some i))
    (hmain : MainStage (Finished a') (core (a'.phase none)) (a'.todo none)
      (history.filter isMain ++ events.filter isMain)) : Inv a' (history ++ events) where
  nodup := hjobs ▸ h.nodup
  worker := by
    intro i
    rw [(hworker i).1, (hworker i).2, hjobs]
    exact h.worker i
  main := by
    rw [List.filter_append]
    exact hmain

theorem joins_of_lt {m : ℕ} (hm : m < n + 1) :
    joins n m = .join (some ⟨m, hm⟩) :: joins n (m + 1) := by
  have hdrop : (List.finRange (n + 1)).drop m = ⟨m, hm⟩ :: (List.finRange (n + 1)).drop (m + 1) := by
    rw [List.drop_eq_getElem_cons (by rwa [List.length_finRange]), List.getElem_finRange]
    rfl
  rw [joins, hdrop]
  rfl

theorem joins_of_le {m : ℕ} (hm : n + 1 ≤ m) : joins n m = [.op .size] := by
  have hdrop : (List.finRange (n + 1)).drop m = [] :=
    List.drop_eq_nil_of_le (by rwa [List.length_finRange])
  rw [joins, hdrop]
  rfl

/-- The workers, when the main thread steps. -/
theorem update_none_some {β : Type} (f : Thread n → β) (x : β) (i : Fin (n + 1)) :
    Function.update f none x (some i) = f (some i) :=
  Function.update_of_ne (Option.some_ne_none i) ..

theorem finished_of_main {f : Thread n → Phase (Job n) (Job n)}
    {g : Thread n → List (Cmd (Thread n) (Job n) (Job n))}
    (hphase : ∀ i, a.phase (some i) = .idle → f (some i) = .idle)
    (htodo : ∀ i, g (some i) = a.todo (some i)) (jobs : List (Job n)) :
    ∀ i, Finished a i → Finished ⟨jobs, f, g⟩ i :=
  fun i hi => ⟨hphase i hi.1, (htodo i).trans hi.2⟩

theorem inv_main_call (h : Inv a history) (hs : specStep (fun j => j) a (.call none) = some a') :
    Inv a' (history ++ a.visible (.call none)) := by
  have hstage := h.main
  obtain ⟨hphase, o, rest, htodo, rfl⟩ := specStep_call hs
  have hevents : (a.visible (.call none)).filter isMain = [.call none o] := by
    rw [Spec.visible, htodo]
    rfl
  refine h.of_main rfl (fun i => ⟨congrArg core (update_none_some a.phase (.called o) i),
    update_none_some a.todo rest i⟩) ?_
  dsimp only
  rw [Function.update_self, Function.update_self, hevents]
  have hstage := hstage.mono (finished_of_main (f := Function.update a.phase none (.called o))
    (g := Function.update a.todo none rest) (fun i hi => (update_none_some ..).trans hi)
    (update_none_some a.todo rest) a.jobs)
  rw [show core (a.phase none) = .idle by rw [hphase]; rfl] at hstage
  generalize a.todo none = todo, history.filter isMain = seen at hstage htodo
  cases hstage with
  | start =>
      obtain ⟨ho, rfl⟩ := List.cons.inj htodo
      obtain rfl := Cmd.op.inj ho
      exact .sizing
  | asked hk =>
      obtain ⟨ho, rfl⟩ := List.cons.inj htodo
      obtain rfl := Cmd.op.inj ho
      exact .seeking hk
  | @joining k m r hk hr hm =>
      rcases Nat.lt_or_ge m (n + 1) with hlt | hge
      · rw [joins_of_lt hlt] at htodo
        cases htodo
      · rw [joins_of_le hge] at htodo
        obtain ⟨ho, rfl⟩ := List.cons.inj htodo
        obtain rfl := Cmd.op.inj ho
        exact .counting hk hr fun i => hm i (Nat.lt_of_lt_of_le i.isLt hge)
  | finished => cases htodo

theorem inv_main_join (h : Inv a history) (hs : specStep (fun j => j) a (.join none) = some a') :
    Inv a' (history ++ a.visible (.join none)) := by
  have hstage := h.main
  obtain ⟨hphase, u, rest, htodo, hidle, hnil, rfl⟩ := specStep_join hs
  refine h.of_main rfl (fun i => ⟨rfl, update_none_some a.todo rest i⟩) ?_
  dsimp only
  have hkept := finished_of_main (a := a) (g := Function.update a.todo none rest)
    (fun _ hi => hi) (update_none_some a.todo rest) a.jobs
  have hstage := hstage.mono hkept
  rw [Function.update_self, show (a.visible (.join none)).filter isMain = [] from rfl,
    List.append_nil]
  rw [show core (a.phase none) = .idle by rw [hphase]; rfl] at hstage ⊢
  generalize a.todo none = todo, history.filter isMain = seen at hstage htodo hkept ⊢
  cases hstage with
  | start => exact nomatch htodo
  | asked => exact nomatch htodo
  | @joining k m r hk hr hm =>
      rcases Nat.lt_or_ge m (n + 1) with hlt | hge
      · rw [joins_of_lt hlt] at htodo
        obtain ⟨hu, rfl⟩ := List.cons.inj htodo
        obtain rfl := Cmd.join.inj hu
        refine .joining hk hr fun i hi => ?_
        rcases Nat.lt_or_eq_of_le (Nat.lt_succ_iff.mp hi) with hi | heq
        · exact hm i hi
        · obtain rfl : i = ⟨m, hlt⟩ := Fin.ext heq
          exact hkept _ ⟨hidle, hnil⟩
      · rw [joins_of_le hge] at htodo
        exact nomatch htodo
  | finished => exact nomatch htodo

/-- The queue is empty when all workers have come to their end. -/
theorem Inv.jobs_eq_nil (h : Inv a history) (hall : ∀ i, Finished a i) : a.jobs = [] := by
  refine List.eq_nil_iff_forall_not_mem.mpr fun i hi => ?_
  obtain ⟨b, hstage, hmem⟩ := h.worker i
  rw [(hall i).1, (hall i).2, hmem.mp hi] at hstage
  cases hstage

/-- `find` of the first job. -/
theorem findResult_apply (jobs : List (Job n)) :
    FindResult (Op.apply (fun j => j) (Op.find (0 : Job n)) jobs).2 := by
  unfold Op.apply
  dsimp only
  split
  case h_1 job hjob =>
      have heq := List.find?_some hjob
      rw [of_decide_eq_true heq]
      exact .inl rfl
  case h_2 => exact .inr (.inl rfl)

theorem inv_main_effect (h : Inv a history)
    (hs : specStep (fun j => j) a (.effect none) = some a') :
    Inv a' (history ++ a.visible (.effect none)) := by
  have hstage := h.main
  obtain ⟨o, erased, hphase, rfl⟩ := specStep_effect_cases hs
  rw [show core (a.phase none) = .called o by rw [hphase]; rfl] at hstage
  have hkept := finished_of_main (a := a) (f := Function.update
      (fun u => (a.phase u).after erased) none (.done o (o.apply (fun j => j) a.jobs).2 false))
    (g := a.todo) (fun i hi => by rw [update_none_some, hi]; cases erased <;> rfl)
    (fun _ => rfl) (o.apply (fun j => j) a.jobs).1
  have hevents : (a.visible (.effect none)).filter isMain = [] := rfl
  have hworker : ∀ i, core (Function.update (fun u => (a.phase u).after erased) none
      (.done o (o.apply (fun j => j) a.jobs).2 false) (some i)) = core (a.phase (some i)) ∧
      a.todo (some i) = a.todo (some i) :=
    fun i => ⟨by rw [update_none_some, core_after], rfl⟩
  generalize htodo : a.todo none = todo, hseen : history.filter isMain = seen at hstage
  cases hstage with
  | sizing =>
      refine h.of_main rfl hworker ?_
      dsimp only
      rw [Function.update_self, htodo, hseen, hevents]
      exact .sized (by simpa using h.nodup.length_le_card)
  | seeking hk =>
      refine h.of_main rfl hworker ?_
      dsimp only
      rw [Function.update_self, htodo, hseen, hevents]
      exact .found hk (findResult_apply a.jobs)
  | counting hk hr hall =>
      refine h.of_main rfl hworker ?_
      dsimp only
      rw [Function.update_self, htodo, hseen, hevents, List.append_nil, h.jobs_eq_nil hall]
      rw [h.jobs_eq_nil hall] at hkept
      exact .counted hk hr fun i => hkept i (hall i)

theorem inv_main_ret {r : Ret (Job n)} (h : Inv a history)
    (hs : specStep (fun j => j) a (.ret none r) = some a') :
    Inv a' (history ++ a.visible (.ret none r)) := by
  have hstage := h.main
  obtain ⟨o, r₀, stale, hphase, hmay, rfl⟩ := specStep_ret hs
  have hevents : (a.visible (.ret none r)).filter isMain = [.ret none o r] := by
    rw [Spec.visible, hphase]
    rfl
  refine h.of_main rfl (fun i => ⟨congrArg core (update_none_some a.phase .idle i), rfl⟩) ?_
  dsimp only
  have hstage := hstage.mono (finished_of_main (f := Function.update a.phase none .idle)
    (g := a.todo) (fun i hi => (update_none_some ..).trans hi) (fun _ => rfl) a.jobs)
  rw [show core (a.phase none) = .done o r₀ false by rw [hphase]; rfl] at hstage
  rw [Function.update_self, hevents]
  generalize a.todo none = todo, history.filter isMain = seen at hstage ⊢
  have hsame : ∀ m, r₀ = .size m → o = .size → r = .size m := by
    rintro m rfl rfl
    rcases hmay with heq | ⟨-, ⟨i, hfind⟩, -⟩
    · exact heq
    · cases hfind
  cases hstage with
  | sized hk =>
      rw [hsame _ rfl rfl]
      exact .asked hk
  | found hk hr =>
      refine .joining hk ?_ fun i hi => absurd hi (Nat.not_lt_zero _)
      rcases hmay with rfl | ⟨-, -, rfl⟩
      · exact hr
      · exact .inr (.inr rfl)
  | counted hk hr hall =>
      rw [hsame _ rfl rfl]
      exact .finished hk hr hall

theorem inv_step {b : SpecAct (Thread n) (Job n)} (h : Inv a history)
    (hs : specStep (fun j => j) a b = some a') : Inv a' (history ++ a.visible b) := by
  cases b with
  | call t =>
      cases t with
      | none => exact inv_main_call h hs
      | some i => exact inv_worker_call h hs
  | join t =>
      cases t with
      | none => exact inv_main_join h hs
      | some i =>
          rw [not_join_worker h] at hs
          exact nomatch hs
  | effect t =>
      cases t with
      | none => exact inv_main_effect h hs
      | some i => exact inv_worker_effect h hs
  | ret t r =>
      cases t with
      | none => exact inv_main_ret h hs
      | some i => exact inv_worker_ret h hs

theorem inv_reach {p : Spec (Thread n) (Job n) (Job n) × History n}
    (h : ((spec (fun j => j) script).recorded Spec.visible).Reach p) : Inv p.1 p.2 := by
  refine h.invariant (I := fun p => Inv p.1 p.2) ?_ ?_
  · rintro ⟨a, history⟩ ⟨rfl, rfl⟩
    exact inv_init
  · rintro ⟨a, history⟩ b p h hs
    obtain ⟨hs, hp⟩ := Machine.recorded_next hs
    rw [hp]
    exact inv_step h hs

theorem joins_ne_nil (n m : ℕ) : joins n m ≠ [] :=
  fun hnil => nomatch (List.append_eq_nil_iff.mp hnil).2

/-- The main thread joins only workers. -/
theorem MainStage.join {P : Fin (n + 1) → Prop} {ph : Phase (Job n) (Job n)}
    {todo rest : List (Cmd (Thread n) (Job n) (Job n))} {u : Thread n} {seen : History n}
    (h : MainStage P ph todo seen) (hph : ph = .idle) (htodo : todo = .join u :: rest) :
    ∃ i, u = some i := by
  cases h with
  | start => exact nomatch htodo
  | asked => exact nomatch htodo
  | @joining _ m =>
      rcases Nat.lt_or_ge m (n + 1) with hlt | hge
      · rw [joins_of_lt hlt] at htodo
        exact ⟨_, (Cmd.join.inj (List.cons.inj htodo).1).symm⟩
      · rw [joins_of_le hge] at htodo
        exact nomatch htodo
  | finished => exact nomatch htodo
  | _ => exact nomatch hph

/-- What was seen of the main thread at its end. -/
theorem MainStage.seen {P : Fin (n + 1) → Prop} {ph : Phase (Job n) (Job n)}
    {todo : List (Cmd (Thread n) (Job n) (Job n))} {seen : History n}
    (h : MainStage P ph todo seen) (hph : ph = .idle) (htodo : todo = []) :
    ∃ k r, k ≤ n + 1 ∧ FindResult r ∧
      seen = firstHalf k r ++ [.call none .size, .ret none .size (.size 0)] := by
  cases h with
  | start => exact nomatch htodo
  | asked => exact nomatch htodo
  | @joining _ m => exact absurd htodo (joins_ne_nil n m)
  | finished hk hr => exact ⟨_, _, hk, hr, rfl⟩
  | _ => exact nomatch hph

/-! ### No deadlock -/

variable {s : State (Thread n) (Job n) (Job n)}

end Steps

end Apue.JobQueue
