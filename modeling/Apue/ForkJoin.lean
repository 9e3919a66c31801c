/-
Apue/ForkJoin.lean

A main thread that starts workers, meets them at a barrier and joins them.

The main thread goes through `n` handles and starts a worker for each of them, unless the
program leaves it out (`starts`).  A worker does its work and arrives at the barrier,
unless it is lost on the way (`works`).  The barrier lets its waiting threads go when
their number is the count it was initialised with.  Then the main thread joins all `n`
handles.

If the count is that of all workers and the main thread, everything depends on every
worker being started and arriving: then every run ends with all workers joined
(`done_of_final`), and otherwise the main thread never gets past the barrier
(`not_past`).
-/
import Mathlib.Data.Fintype.Card
import Apue.Machine
import Apue.Threads

namespace ForkJoin

/-! ### The machine -/

/-- What the main thread does next. -/
inductive MainPc
  | create (i : ℕ)
  /-- in the barrier -/
  | waiting
  | join (i : ℕ)
  /-- it has joined a handle that was never created -/
  | badJoin
  | done
  deriving DecidableEq, Repr

/-- Where a worker is. -/
inductive WorkerPc
  | absent
  | working
  /-- in the barrier -/
  | waiting
  | finished
  /-- its work does not end -/
  | lost
  deriving DecidableEq, Repr

/-- Which workers are started, which get to the barrier, and the barrier's count. -/
structure Program (n : ℕ) where
  starts : Fin n → Bool
  works : Fin n → Bool
  count : ℕ

structure State (n : ℕ) where
  main : MainPc
  worker : Fin n → WorkerPc

variable {n : ℕ}

/-- The threads in the barrier. -/
def State.waiters (s : State n) : ℕ :=
  (if s.main = .waiting then 1 else 0) + (Finset.univ.filter fun j => s.worker j = .waiting).card

/-- The barrier lets its threads go. -/
def State.release (s : State n) : State n where
  main := if s.main = .waiting then .join 0 else s.main
  worker j := if s.worker j = .waiting then .finished else s.worker j

/-- After a thread has come in: the barrier opens if it was the last one. -/
def State.settle (count : ℕ) (s : State n) : State n :=
  if s.waiters = count then s.release else s

/-- Whose turn it is. -/
inductive Action (n : ℕ)
  | main
  | worker (j : Fin n)

def next (P : Program n) (s : State n) : Action n → Option (State n)
  | .main =>
      match s.main with
      | .create i =>
          if h : i < n then
            some { main := .create (i + 1)
                   worker := if P.starts ⟨i, h⟩ then Function.update s.worker ⟨i, h⟩ .working
                     else s.worker }
          else some ({ s with main := .waiting }.settle P.count)
      | .join i =>
          if h : i < n then
            match s.worker ⟨i, h⟩ with
            | .absent => some { s with main := .badJoin }
            | .finished => some { s with main := .join (i + 1) }
            | .working | .waiting | .lost => none
          else some { s with main := .done }
      | .waiting | .badJoin | .done => none
  | .worker j =>
      if s.worker j = .working then
        if P.works j then
          some ({ s with worker := Function.update s.worker j .waiting }.settle P.count)
        else some { s with worker := Function.update s.worker j .lost }
      else none

/-- A barrier with the count 0 cannot be initialised. -/
def machine (P : Program n) : Machine (State n) (Action n) where
  init s := P.count ≠ 0 ∧ s = ⟨.create 0, fun _ => .absent⟩
  next := next P

/-- The main thread has left the barrier. -/
def State.Past (s : State n) : Prop := s.main = .badJoin ∨ s.main = .done ∨ ∃ i, s.main = .join i

/-! ### Counting the threads in the barrier -/

section Waiters

variable {s : State n}

theorem waiters_of_not_waiting (h : s.main ≠ .waiting) : s.waiters ≠ n + 1 := by
  have hle := Finset.card_filter_le Finset.univ fun j : Fin n => s.worker j = .waiting
  rw [Finset.card_fin] at hle
  rw [State.waiters, if_neg h]
  omega

/-- One worker outside is enough to keep the barrier closed. -/
theorem waiters_of_worker {j : Fin n} (h : s.worker j ≠ .waiting) : s.waiters ≠ n + 1 := by
  have hlt : (Finset.univ.filter fun j => s.worker j = .waiting).card < Fintype.card (Fin n) :=
    Finset.card_lt_univ_of_notMem (x := j) (by simpa using h)
  rw [Fintype.card_fin] at hlt
  rw [State.waiters]
  split <;> omega

theorem waiters_of_all (hmain : s.main = .waiting) (h : ∀ j, s.worker j = .waiting) :
    s.waiters = n + 1 := by
  have hall : (Finset.univ.filter fun j => s.worker j = .waiting) = Finset.univ :=
    Finset.filter_true_of_mem fun j _ => h j
  rw [State.waiters, if_pos hmain, hall, Finset.card_fin, Nat.add_comm]

end Waiters

/-! ### Every run ends -/

/-- How far a worker still has to go. -/
def WorkerPc.weight : WorkerPc → ℕ
  | .absent => 3
  | .working => 2
  | .waiting => 1
  | .finished | .lost => 0

/-- How far the main thread still has to go; starting a worker may cost that much more. -/
def MainPc.weight (n : ℕ) : MainPc → ℕ
  | .create i => 4 * (n - i) + n + 3
  | .waiting => n + 2
  | .join i => n - i + 1
  | .badJoin | .done => 0

def State.weight (s : State n) : ℕ := s.main.weight n + Threads.total WorkerPc.weight s.worker

theorem weight_settle_le (count : ℕ) (s : State n) : (s.settle count).weight ≤ s.weight := by
  unfold State.settle
  split
  · refine Nat.add_le_add ?_ (Finset.sum_le_sum fun j _ => ?_)
    · show MainPc.weight n (if s.main = .waiting then .join 0 else s.main) ≤ _
      split
      · next h =>
        rw [h]
        show n - 0 + 1 ≤ n + 2
        omega
      · exact Nat.le_refl _
    · show WorkerPc.weight (if s.worker j = .waiting then .finished else s.worker j) ≤ _
      split
      · exact Nat.zero_le _
      · exact Nat.le_refl _
  · exact Nat.le_refl _

/-- Every step takes from the weight. -/
theorem weight_next {P : Program n} {s s' : State n} {a : Action n} (h : next P s a = some s') :
    s'.weight < s.weight := by
  cases a with
  | main =>
      rcases hmain : s.main with i | _ | i | _ | _ <;> simp only [next, hmain] at h
      · split at h
        · next hi =>
          obtain rfl := Option.some.inj h
          have htotal := Threads.total_update WorkerPc.weight s.worker ⟨i, hi⟩ .working
          simp only [State.weight, hmain, MainPc.weight]
          split
          · have hw : WorkerPc.working.weight = 2 := rfl
            omega
          · omega
        · obtain rfl := Option.some.inj h
          refine Nat.lt_of_le_of_lt (weight_settle_le _ _) ?_
          simp only [State.weight, hmain, MainPc.weight]
          omega
      · cases h
      · split at h
        · split at h <;> cases h <;> simp only [State.weight, hmain, MainPc.weight] <;> omega
        · obtain rfl := Option.some.inj h
          simp only [State.weight, hmain, MainPc.weight]
          omega
      · cases h
      · cases h
  | worker j =>
      simp only [next] at h
      split at h
      · next hj =>
        have hw : (s.worker j).weight = 2 := by rw [hj]; rfl
        split at h
        · obtain rfl := Option.some.inj h
          refine Nat.lt_of_le_of_lt (weight_settle_le _ _) ?_
          have htotal := Threads.total_update WorkerPc.weight s.worker j .waiting
          have hnew : WorkerPc.waiting.weight = 1 := rfl
          simp only [State.weight]
          omega
        · obtain rfl := Option.some.inj h
          have htotal := Threads.total_update WorkerPc.weight s.worker j .lost
          have hnew : WorkerPc.lost.weight = 0 := rfl
          simp only [State.weight]
          omega
      · cases h

/-- A run can go on until nothing is left to do. -/
theorem exists_final (P : Program n) (hcount : P.count ≠ 0) :
    ∃ s, (machine P).Reach s ∧ ∀ a, (machine P).next s a = none :=
  Machine.Reach.exists_final State.weight (fun _ _ _ h => weight_next h)
    (.start (s := ⟨.create 0, fun _ => .absent⟩) ⟨hcount, rfl⟩)

/-! ### All workers arrive -/

/-- Where the threads are, if every worker is started and arrives. -/
def Orderly (s : State n) : Prop :=
  match s.main with
  | .create i => i ≤ n ∧ ∀ j : Fin n,
      if j.1 < i then s.worker j = .working ∨ s.worker j = .waiting else s.worker j = .absent
  | .waiting => (∀ j, s.worker j = .working ∨ s.worker j = .waiting) ∧ ∃ j, s.worker j = .working
  | .join _ | .done => ∀ j, s.worker j = .finished
  | .badJoin => False

/-- The barrier opens for all or stays closed. -/
theorem orderly_settle {s : State n} (hmain : s.main = .waiting)
    (h : ∀ j, s.worker j = .working ∨ s.worker j = .waiting) : Orderly (s.settle (n + 1)) := by
  by_cases hall : ∀ j, s.worker j = .waiting
  · have hopen : s.settle (n + 1) = ⟨.join 0, fun _ => .finished⟩ := by
      rw [State.settle, if_pos (waiters_of_all hmain hall), State.release, hmain]
      simp [hall]
    rw [hopen]
    exact fun _ => rfl
  · obtain ⟨j, hj⟩ := not_forall.mp hall
    have hclosed : s.settle (n + 1) = s := if_neg (waiters_of_worker hj)
    rw [hclosed, Orderly, hmain]
    exact ⟨h, j, (h j).resolve_right hj⟩

theorem Orderly.nextMain {P : Program n} (hstarts : ∀ j, P.starts j = true)
    (hcount : P.count = n + 1) {s s' : State n} (h : Orderly s) (hs : next P s .main = some s') :
    Orderly s' := by
  rcases hmain : s.main with i | _ | i | _ | _ <;> simp only [next, Orderly, hmain] at h hs
  · obtain ⟨hi, hworkers⟩ := h
    split at hs
    · next hlt =>
      obtain rfl := Option.some.inj hs
      refine ⟨hlt, fun j => ?_⟩
      simp only [hstarts, if_true]
      have hj := hworkers j
      by_cases hji : j = ⟨i, hlt⟩
      · subst hji
        simp
      · rw [Function.update_of_ne hji]
        have hne : j.1 ≠ i := fun he => hji (Fin.ext he)
        by_cases hlt' : j.1 < i
        · rw [if_pos hlt'] at hj
          rw [if_pos (by omega)]
          exact hj
        · rw [if_neg hlt'] at hj
          rw [if_neg (by omega)]
          exact hj
    · next hge =>
      obtain rfl := Option.some.inj hs
      rw [hcount]
      refine orderly_settle rfl fun j => ?_
      have hj := hworkers j
      rwa [if_pos (by omega)] at hj
  · cases hs
  · split at hs
    · next hlt =>
      rw [h ⟨i, hlt⟩] at hs
      obtain rfl := Option.some.inj hs
      exact h
    · obtain rfl := Option.some.inj hs
      exact h
  · cases hs

theorem Orderly.nextWorker {P : Program n} {j : Fin n} (hworks : P.works j = true)
    (hcount : P.count = n + 1) {s s' : State n} (h : Orderly s)
    (hs : next P s (.worker j) = some s') : Orderly s' := by
  simp only [next, hworks, if_true, hcount] at hs
  split at hs
  · next hj =>
    obtain rfl := Option.some.inj hs
    obtain ⟨main, worker⟩ := s
    change worker j = .working at hj
    rcases main with i | _ | i | _ | _
    · -- the main thread is not in the barrier yet
      have hclosed : State.settle (n + 1) ⟨.create i, Function.update worker j .waiting⟩
          = ⟨.create i, Function.update worker j .waiting⟩ :=
        if_neg (waiters_of_not_waiting (by simp))
      rw [hclosed]
      obtain ⟨hi, hworkers⟩ := h
      refine ⟨hi, fun j' => ?_⟩
      have hj' := hworkers j'
      dsimp only at hj' ⊢
      by_cases hne : j' = j
      · subst hne
        by_cases hlt : j'.1 < i
        · rw [if_pos hlt, Function.update_self]
          exact .inr rfl
        · rw [if_neg hlt, hj] at hj'
          cases hj'
      · rw [Function.update_of_ne hne]
        exact hj'
    · obtain ⟨hworkers, -⟩ := h
      refine orderly_settle rfl fun j' => ?_
      by_cases hne : j' = j
      · subst hne
        exact .inr (Function.update_self ..)
      · simpa [hne] using hworkers j'
    · cases hj.symm.trans (h j)
    · exact h.elim
    · cases hj.symm.trans (h j)
  · cases hs

theorem orderly_reach {P : Program n} (hall : ∀ j, P.starts j = true ∧ P.works j = true)
    (hcount : P.count = n + 1) {s : State n} (h : (machine P).Reach s) : Orderly s := by
  refine h.invariant (I := Orderly) ?_ fun s a s' h hs => ?_
  · rintro s ⟨-, rfl⟩
    refine ⟨Nat.zero_le n, fun j => ?_⟩
    rw [if_neg (Nat.not_lt_zero _)]
  · cases a with
    | main => exact h.nextMain (fun j => (hall j).1) hcount hs
    | worker j => exact h.nextWorker (hall j).2 hcount hs

/-- **If every worker arrives, every run ends with all of them joined.** -/
theorem done_of_final {P : Program n} (hall : ∀ j, P.starts j = true ∧ P.works j = true)
    (hcount : P.count = n + 1) {s : State n} (h : (machine P).Reach s)
    (hfinal : ∀ a, (machine P).next s a = none) : s.main = .done := by
  have hord := orderly_reach hall hcount h
  have hmainStep : next P s .main = none := hfinal .main
  rcases hmain : s.main with i | _ | i | _ | _ <;>
    simp only [Orderly, next, hmain] at hord hmainStep
  · split at hmainStep <;> cases hmainStep
  · obtain ⟨-, j, hj⟩ := hord
    have hstep : next P s (.worker j) = none := hfinal (.worker j)
    simp only [next, if_pos hj] at hstep
    split at hstep <;> cases hstep
  · split at hmainStep
    · next hlt =>
      rw [hord ⟨i, hlt⟩] at hmainStep
      cases hmainStep
    · cases hmainStep
  · rfl

/-! ### A worker that does not arrive -/

/-- The main thread is before the barrier or in it, and so is worker `j`, who never gets
there. -/
structure Hung (P : Program n) (j : Fin n) (s : State n) : Prop where
  main : s.main = .waiting ∨ ∃ i, s.main = .create i
  worker : s.worker j ≠ .waiting
  started : s.worker j = .working → P.starts j = true

theorem Hung.settle {P : Program n} {j : Fin n} {s : State n} (h : Hung P j s) :
    s.settle (n + 1) = s := if_neg (waiters_of_worker h.worker)

theorem Hung.next {P : Program n} {j : Fin n} (hj : ¬ (P.starts j = true ∧ P.works j = true))
    (hcount : P.count = n + 1) {s s' : State n} {a : Action n} (h : Hung P j s)
    (hs : next P s a = some s') : Hung P j s' := by
  cases a with
  | main =>
      rcases h.main with hmain | ⟨i, hmain⟩ <;> simp only [ForkJoin.next, hmain] at hs
      · cases hs
      · split at hs
        · next hi =>
          obtain rfl := Option.some.inj hs
          refine ⟨.inr ⟨i + 1, rfl⟩, ?_, ?_⟩ <;> by_cases hji : j = ⟨i, hi⟩ <;>
            by_cases hstart : P.starts ⟨i, hi⟩ = true
          · simp [hstart, hji]
          · simpa [hstart] using h.worker
          · simpa [hstart, hji] using h.worker
          · simpa [hstart] using h.worker
          · exact fun _ => hji ▸ hstart
          · simpa [hstart] using h.started
          · simpa [hstart, hji] using h.started
          · simpa [hstart] using h.started
        · obtain rfl := Option.some.inj hs
          have hnew : Hung P j { s with main := .waiting } := ⟨.inl rfl, h.worker, h.started⟩
          rw [hcount, hnew.settle]
          exact hnew
  | worker j' =>
      simp only [ForkJoin.next] at hs
      split at hs
      · next hj' =>
        by_cases hne : j = j'
        · -- it was started, so it is lost
          subst hne
          have hlost : ¬ P.works j = true := fun hw => hj ⟨h.started hj', hw⟩
          rw [if_neg hlost] at hs
          obtain rfl := Option.some.inj hs
          exact ⟨h.main, by simp, by simp⟩
        · have hnew : ∀ p, Hung P j { s with worker := Function.update s.worker j' p } := by
            intro p
            refine ⟨h.main, ?_, ?_⟩
            · simpa [hne] using h.worker
            · simpa [hne] using h.started
          split at hs
          · obtain rfl := Option.some.inj hs
            rw [hcount, (hnew _).settle]
            exact hnew _
          · obtain rfl := Option.some.inj hs
            exact hnew _
      · cases hs

/-- **If one worker does not arrive, the main thread never gets past the barrier.** -/
theorem not_past {P : Program n} {j : Fin n} (hj : ¬ (P.starts j = true ∧ P.works j = true))
    (hcount : P.count = n + 1) {s : State n} (h : (machine P).Reach s) : ¬ s.Past := by
  have hhung : Hung P j s := by
    refine h.invariant (I := Hung P j) ?_ fun _ _ _ h hs => h.next hj hcount hs
    rintro s ⟨-, rfl⟩
    exact ⟨.inr ⟨0, rfl⟩, by simp, by simp⟩
  rintro (hpast | hpast | ⟨i, hpast⟩) <;> rcases hhung.main with hmain | ⟨k, hmain⟩ <;>
    exact absurd (hmain.symm.trans hpast) (by simp)

/-! ### Who has arrived -/

/-- The worker is in the barrier or past it. -/
def WorkerPc.Arrived (p : WorkerPc) : Prop := p = .waiting ∨ p = .finished

section Arrived

variable {P : Program n} {s s' : State n} {i : Fin n}

theorem arrived_of_settle {count : ℕ} (h : ((s.settle count).worker i).Arrived) :
    (s.worker i).Arrived := by
  unfold State.settle at h
  split at h
  · change (if s.worker i = .waiting then WorkerPc.finished else s.worker i).Arrived at h
    split at h
    · next hwaiting => exact .inl hwaiting
    · exact h
  · exact h

theorem arrived_of_update {j : Fin n} {p : WorkerPc} (hp : ¬ p.Arrived)
    (h : (Function.update s.worker j p i).Arrived) : (s.worker i).Arrived := by
  rcases eq_or_ne i j with rfl | hne
  · rw [Function.update_self] at h
    exact absurd h hp
  · rwa [Function.update_of_ne hne] at h

/-- The main thread does not bring a worker to the barrier. -/
theorem arrived_of_nextMain (hs : next P s .main = some s') (h : (s'.worker i).Arrived) :
    (s.worker i).Arrived := by
  rcases hmain : s.main with k | _ | k | _ | _ <;> simp only [next, hmain] at hs
  · split at hs
    · obtain rfl := Option.some.inj hs
      dsimp only at h
      split at h
      · exact arrived_of_update (by simp [WorkerPc.Arrived]) h
      · exact h
    · obtain rfl := Option.some.inj hs
      exact arrived_of_settle (s := ⟨.waiting, s.worker⟩) h
  · cases hs
  · split at hs
    · split at hs
      · obtain rfl := Option.some.inj hs
        exact h
      · obtain rfl := Option.some.inj hs
        exact h
      all_goals cases hs
    · obtain rfl := Option.some.inj hs
      exact h
  · cases hs
  · cases hs

/-- A worker brings nobody but itself to the barrier. -/
theorem arrived_of_nextWorker {j : Fin n} (hs : next P s (.worker j) = some s') (hne : i ≠ j)
    (h : (s'.worker i).Arrived) : (s.worker i).Arrived := by
  simp only [next] at hs
  split at hs
  · split at hs
    · obtain rfl := Option.some.inj hs
      have h := arrived_of_settle h
      dsimp only at h
      rwa [Function.update_of_ne hne] at h
    · obtain rfl := Option.some.inj hs
      exact arrived_of_update (by simp [WorkerPc.Arrived]) h
  · cases hs

end Arrived

end ForkJoin
