/-
Apue/Threads.lean

Threads with program counters: what a mutex says about them, and weights summed
over them.

Which threads are inside the critical section is a predicate on program counters.
A mutex agrees with it (`Agrees`) if its owner is exactly the thread inside; this
is kept by taking the mutex while entering, releasing it while leaving, and by any
other step.

A weight on program counters, summed over all threads (`total`), changes by the
weights of the old and the new program counter when one thread steps
(`total_update`).

Threads that take locks in the order of their ranks cannot deadlock
(`not_deadlocked_of_rank`).
-/
import Mathlib.Algebra.BigOperators.Fin
import Mathlib.Algebra.Order.BigOperators.Group.Finset
import Mathlib.Tactic.Common

namespace Threads

variable {T Pc : Type*} [DecidableEq T]

/-! ### A mutex and the threads inside -/

/-- The owner of the mutex is exactly the thread whose program counter is inside. -/
def Agrees (mutex : Option T) (inside : Pc → Bool) (pc : T → Pc) : Prop :=
  ∀ t, mutex = some t ↔ inside (pc t) = true

variable {mutex : Option T} {inside : Pc → Bool} {pc : T → Pc} {t t' : T} {p : Pc}

omit [DecidableEq T] in
/-- Two threads are never inside at once. -/
theorem Agrees.unique (h : Agrees mutex inside pc) (ht : inside (pc t) = true)
    (ht' : inside (pc t') = true) : t = t' :=
  Option.some.inj (((h t).mpr ht).symm.trans ((h t').mpr ht'))

theorem Agrees.keep (h : Agrees mutex inside pc) (hp : inside p = inside (pc t)) :
    Agrees mutex inside (Function.update pc t p) := by
  refine (Function.forall_update_iff pc
    fun t' q => mutex = some t' ↔ inside q = true).mpr ⟨?_, fun t' _ => h t'⟩
  rw [hp]
  exact h t

theorem Agrees.acquire (h : Agrees mutex inside pc) (hfree : mutex = none)
    (hp : inside p = true) : Agrees (some t) inside (Function.update pc t p) := by
  refine (Function.forall_update_iff pc
    fun t' q => some t = some t' ↔ inside q = true).mpr ⟨by simp [hp], fun t' hne => ?_⟩
  rw [← h t', hfree]
  exact ⟨fun e => absurd (Option.some.inj e).symm hne, nofun⟩

theorem Agrees.release (h : Agrees mutex inside pc) (ht : inside (pc t) = true)
    (hp : inside p = false) : Agrees none inside (Function.update pc t p) := by
  refine (Function.forall_update_iff pc
    fun t' q => none = some t' ↔ inside q = true).mpr ⟨by simp [hp], fun t' hne => ?_⟩
  exact ⟨nofun, fun ht' => absurd (h.unique ht' ht) hne⟩

/-! ### Weights -/

variable [Fintype T]

/-- The weight of all threads. -/
def total (w : Pc → ℕ) (pc : T → Pc) : ℕ := ∑ t, w (pc t)

/-- One thread steps. -/
theorem total_update (w : Pc → ℕ) (pc : T → Pc) (t : T) (p : Pc) :
    total w (Function.update pc t p) + w (pc t) = total w pc + w p := by
  have hcomp : (fun i => w (Function.update pc t p i))
      = Function.update (fun i => w (pc i)) t (w p) := by
    funext i
    exact Function.apply_update (fun _ => w) pc t p i
  have hsplit := Finset.sum_erase_add Finset.univ (fun i => w (pc i)) (Finset.mem_univ t)
  rw [total, total, hcomp, Finset.sum_update_of_mem (Finset.mem_univ t), ← hsplit,
    Finset.sdiff_singleton_eq_erase]
  omega

omit [DecidableEq T] in
theorem exists_of_total_pos {w : Pc → ℕ} (h : 0 < total w pc) : ∃ t, 0 < w (pc t) := by
  obtain ⟨t, -, ht⟩ := Finset.exists_ne_zero_of_sum_ne_zero h.ne'
  exact ⟨t, Nat.pos_of_ne_zero ht⟩

omit [DecidableEq T] in
/-- If no other thread has a weight, the weight of all is the weight of one. -/
theorem total_eq_of_forall_ne {w : Pc → ℕ} (h : ∀ t', t' ≠ t → w (pc t') = 0) :
    total w pc = w (pc t) :=
  Finset.sum_eq_single t (fun t' _ hne => h t' hne) fun hmem => absurd (Finset.mem_univ t) hmem

/-! ### Lock order -/

section LockOrder

variable {A L ρ : Type*} {holds waits : A → L → Prop}

/-- Each thread of the set waits for a lock that a thread of the set holds. -/
def Deadlocked (holds waits : A → L → Prop) (S : Set A) : Prop :=
  S.Nonempty ∧ ∀ t ∈ S, ∃ l, waits t l ∧ ∃ u ∈ S, holds u l

/-- **Lock order.**  Threads that wait only for locks of a higher rank than all they hold do
not deadlock. -/
theorem not_deadlocked_of_rank [Preorder ρ] [WellFoundedGT ρ] (rank : L → ρ)
    (horder : ∀ t k l, holds t k → waits t l → rank k < rank l) (S : Set A) :
    ¬Deadlocked holds waits S := by
  rintro ⟨⟨t, ht⟩, hS⟩
  -- the holder of an awaited lock waits for one of a higher rank, for ever
  have hnone : ∀ (l : L) (u : A), u ∈ S → holds u l → False := by
    intro l
    induction l using (InvImage.wf rank wellFounded_gt).induction with
    | h l ih =>
        intro u hu hl
        obtain ⟨l', hwait, u', hu', hl'⟩ := hS u hu
        exact ih l' (horder u l l' hl hwait) u' hu' hl'
  obtain ⟨l, -, u, hu, hl⟩ := hS t ht
  exact hnone l u hu hl

end LockOrder

end Threads
