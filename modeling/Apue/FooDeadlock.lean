/-
Apue/FooDeadlock.lean

The locks of the reference-counted hash table are taken in one order: `hashlock` before
the lock of an object.  `find` takes them in that order; `rele`, which starts with the lock
of the object, gives it back before it takes `hashlock`; `hold` takes one lock only, and when
`find` calls it the count is positive, so that it does not throw with `hashlock` held.

So no threads wait for each other (`ownedTable_no_deadlock`), and while an operation is
under way some thread can go on (`ownedTable_progress`).
-/
import Mathlib.Data.Fintype.Order
import Apue.FooCalls
import Apue.Threads

namespace Apue.Foo

/-! ### Who waits for which lock -/

/-- The locks of the program. -/
inductive Lock
  | hash
  | obj (o : Ref)
  deriving DecidableEq, Repr

/-- The lock that the next operation takes. -/
def Pc.wants : Pc → Option Lock
  | .createLock _ _ | .findLock _ | .releHash _ => some .hash
  | .holdLock o _ | .releLock o | .releRelock o => some (.obj o)
  | _ => none

/-- `hashlock` is taken before any other lock. -/
def Lock.rank : Lock → Bool
  | .hash => false
  | .obj _ => true

variable {Tid : Type*} {s s' : State Tid} {g : Ghost Tid} {t : Tid}

/-- The thread holds the lock. -/
def State.Holds (s : State Tid) (t : Tid) : Lock → Prop
  | .hash => s.hashlock = .held t
  | .obj o => s.lock o = .held t

/-- The thread waits for a lock that is held. -/
def State.BlockedOn (s : State Tid) (t : Tid) (l : Lock) : Prop :=
  (s.pc t).wants = some l ∧ ∃ u, s.Holds u l

section Step

variable [DecidableEq Tid]

theorem lockHash_eq_none_iff {p : Pc} :
    s.lockHash t p = none ↔ ∃ u, s.Holds u .hash := by
  unfold State.lockHash State.Holds
  cases s.hashlock <;> simp

theorem lockObj_eq_none_iff {o : Ref} {p : Pc} :
    s.lockObj t o p = none ↔ ∃ u, s.Holds u (.obj o) := by
  unfold State.lockObj State.Holds
  cases ho : s.lock o <;> simp [ho]

/-- A thread that is inside an operation and cannot go on is blocked. -/
theorem step_eq_none_iff : step s t = none ↔
    s.pc t = .idle ∨ (∃ e, s.pc t = .fault e) ∨ ∃ l, s.BlockedOn t l := by
  unfold step State.BlockedOn
  cases hp : s.pc t with
  | createLock id r | findLock id | releHash o => simp [lockHash_eq_none_iff, Pc.wants]
  | holdLock o k | releLock o | releRelock o => simp [lockObj_eq_none_iff, Pc.wants]
  | findTest id fp | releWalk o fp => cases fp <;> simp [Pc.wants]
  | _ => simp [Pc.wants]

end Step

/-! ### The order of the locks -/

/-- A thread about to take a lock holds no lock of the same or a higher rank. -/
theorem Inv.lock_order (h : Inv s g) {k l : Lock} (hk : s.Holds t k)
    (hl : s.BlockedOn t l) : k.rank < l.rank := by
  obtain ⟨hwants, -⟩ := hl
  -- what it holds is a function of its program counter
  cases k with
  | hash =>
      have hholds := (h.hash t).mp hk
      cases hp : s.pc t <;> rw [hp] at hwants hholds <;> cases hwants <;>
        first | rfl | cases hholds
  | obj o =>
      have hholds := (h.obj t o).mp hk
      cases hp : s.pc t <;> rw [hp] at hwants hholds <;> cases hwants <;> cases hholds

/-- So threads do not wait for each other. -/
theorem Inv.not_deadlocked (h : Inv s g) (S : Set Tid) :
    ¬Threads.Deadlocked s.Holds s.BlockedOn S := by
  apply Threads.not_deadlocked_of_rank Lock.rank
  intro t k l hk hl
  exact h.lock_order hk hl

/-- A thread between two operations holds no lock. -/
theorem Inv.idle_holds (h : Inv s g) (hp : s.pc t = .idle) (l : Lock) : ¬s.Holds t l := by
  intro hl
  cases l with
  | hash =>
      have := (h.hash t).mp hl
      rw [hp] at this
      cases this
  | obj o =>
      have := (h.obj t o).mp hl
      rw [hp] at this
      cases this

variable [DecidableEq Tid] {l : List (Event Tid)}

/-- **No deadlock.**  Under any interleaving of clients that release only what they own, there
is no set of threads each of which waits for a lock that a thread of the set holds, and no
thread has finished an operation and still holds a lock. -/
theorem ownedTable_no_deadlock (h : (ownedTable Tid).Reach (s, l)) :
    (∀ S : Set Tid, ¬Threads.Deadlocked s.Holds s.BlockedOn S) ∧
      ∀ t, s.pc t = .idle → ∀ l, ¬s.Holds t l := by
  obtain ⟨g, hinv, -⟩ := inv_reach h
  exact ⟨hinv.not_deadlocked, fun t hp l => hinv.idle_holds hp l⟩

/-- **Progress.**  While a thread is inside an operation, some thread can go on. -/
theorem ownedTable_progress (h : (ownedTable Tid).Reach (s, l)) (ht : s.pc t ≠ .idle) :
    ∃ u s', step s u = some s' := by
  obtain ⟨g, hinv, -⟩ := inv_reach h
  by_contra hstuck
  have hnone : ∀ u, step s u = none := by
    intro u
    by_contra hne
    obtain ⟨s', hs'⟩ := Option.ne_none_iff_exists'.mp hne
    exact hstuck ⟨u, s', hs'⟩
  -- the threads that are inside an operation would wait for each other
  apply hinv.not_deadlocked {u | s.pc u ≠ .idle}
  refine ⟨⟨t, ht⟩, fun u hu => ?_⟩
  rcases step_eq_none_iff.mp (hnone u) with hidle | ⟨e, he⟩ | ⟨l, hl⟩
  · exact absurd hidle hu
  · exact absurd he (hinv.not_fault u e)
  · obtain ⟨v, hv⟩ := hl.2
    exact ⟨l, hl, v, fun hidle => hinv.idle_holds hidle l hv, hv⟩

/-- `find` has `hashlock` and waits for the lock of the object that `rele` holds. -/
def findWaitsRun : List (Action Bool) :=
  callRun false (.create 1) 7 ++ callRun false (.rele 0) 2 ++ callRun true (.find 1) 4

theorem findWaitsRun_no_deadlock : ∃ s l, (ownedTable Bool).Reach (s, l) ∧ s.Holds true .hash ∧
    s.BlockedOn true (.obj 0) ∧ s.Holds false (.obj 0) ∧
    ¬Threads.Deadlocked s.Holds s.BlockedOn Set.univ := by
  have hrun : ((ownedTable Bool).run (initState, []) findWaitsRun).map
      (fun p => (p.1.hashlock, p.1.lock 0, (p.1.pc true).wants))
      = some (.held true, .held false, some (.obj 0)) := by decide +kernel
  obtain ⟨⟨s, l⟩, hs, hobs⟩ := Option.map_eq_some_iff.mp hrun
  simp only [Prod.mk.injEq] at hobs
  obtain ⟨hhash, hobj, hwants⟩ := hobs
  have hinit : (ownedTable Bool).init (initState, []) := ⟨rfl, rfl⟩
  have hreach := Machine.reach_of_run hinit hs
  exact ⟨s, l, hreach, hhash, ⟨hwants, false, hobj⟩, hobj, (ownedTable_no_deadlock hreach).1 _⟩

end Apue.Foo
