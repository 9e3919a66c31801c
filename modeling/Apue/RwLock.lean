/-
Apue/RwLock.lean

A readers-writer lock and the threads that use it.

Any number of readers may hold the lock, or one writer alone.  Which threads read and
which write is a predicate on program counters; the lock agrees with it (`Agrees`) if its
holders are exactly these threads.  This is kept by locking and unlocking while the program
counter goes in and out, and by any other step.

What a writer has for itself (`Agrees.alone`) is all that a data structure behind the lock
needs.  Whether a waiting writer keeps new readers out is left open: nothing here
depends on it.
-/
import Mathlib.Data.List.Nodup
import Mathlib.Logic.Function.Basic
import Mathlib.Tactic.Common

namespace RwLock

/-- Who holds the lock. -/
structure Lock (T : Type*) where
  writer : Option T
  readers : List T
  deriving DecidableEq, Repr

/-- The lock after `pthread_rwlock_init`. -/
def Lock.free {T : Type*} : Lock T := ⟨none, []⟩

variable {T Pc : Type*} [DecidableEq T]

/-- `pthread_rwlock_rdlock`; `none` if the thread has to wait. -/
def Lock.rdlock (l : Lock T) (t : T) : Option (Lock T) :=
  if l.writer = none then some { l with readers := t :: l.readers } else none

/-- `pthread_rwlock_wrlock`. -/
def Lock.wrlock (l : Lock T) (t : T) : Option (Lock T) :=
  if l.writer = none ∧ l.readers = [] then some { l with writer := some t } else none

/-- `pthread_rwlock_unlock`. -/
def Lock.unlock (l : Lock T) (t : T) : Lock T :=
  if l.writer = some t then { l with writer := none } else { l with readers := l.readers.erase t }

/-- The holders of the lock are the threads whose program counters read or write. -/
structure Agrees (l : Lock T) (reads writes : Pc → Bool) (pc : T → Pc) : Prop where
  writer : ∀ t, l.writer = some t ↔ writes (pc t) = true
  readers : ∀ t, t ∈ l.readers ↔ reads (pc t) = true
  nodup : l.readers.Nodup
  exclusive : l.writer ≠ none → l.readers = []

variable {l l' : Lock T} {reads writes : Pc → Bool} {pc : T → Pc} {t t' : T} {p : Pc}

omit [DecidableEq T] in
/-- **A writer is alone.** -/
theorem Agrees.alone (h : Agrees l reads writes pc) (ht : writes (pc t) = true) (hne : t' ≠ t) :
    reads (pc t') = false ∧ writes (pc t') = false := by
  have hwriter : l.writer = some t := (h.writer t).mpr ht
  constructor
  · refine eq_false_of_ne_true fun hreads => ?_
    have hmem := (h.readers t').mpr hreads
    rw [h.exclusive (by rw [hwriter]; nofun)] at hmem
    exact absurd hmem List.not_mem_nil
  · refine eq_false_of_ne_true fun hwrites => ?_
    have hwriter' := (h.writer t').mpr hwrites
    rw [hwriter] at hwriter'
    exact hne (Option.some.inj hwriter').symm

/-- A step that neither locks nor unlocks. -/
theorem Agrees.keep (h : Agrees l reads writes pc) (hreads : reads p = reads (pc t))
    (hwrites : writes p = writes (pc t)) : Agrees l reads writes (Function.update pc t p) where
  writer := by
    refine (Function.forall_update_iff pc
      fun t' q => l.writer = some t' ↔ writes q = true).mpr ⟨?_, fun t' _ => h.writer t'⟩
    rw [hwrites]
    exact h.writer t
  readers := by
    refine (Function.forall_update_iff pc
      fun t' q => t' ∈ l.readers ↔ reads q = true).mpr ⟨?_, fun t' _ => h.readers t'⟩
    rw [hreads]
    exact h.readers t
  nodup := h.nodup
  exclusive := h.exclusive

theorem Agrees.rdlock (h : Agrees l reads writes pc) (hl : l.rdlock t = some l')
    (ht : reads (pc t) = false) (hreads : reads p = true) (hwrites : writes p = false) :
    Agrees l' reads writes (Function.update pc t p) := by
  obtain ⟨hfree, hl⟩ := Option.ite_none_right_eq_some.mp hl
  obtain rfl := Option.some.inj hl
  refine ⟨?_, ?_, ?_, fun hwriter => absurd hfree hwriter⟩
  · refine (Function.forall_update_iff pc
      fun t' q => l.writer = some t' ↔ writes q = true).mpr ⟨?_, fun t' _ => h.writer t'⟩
    rw [hfree, hwrites]
    exact ⟨nofun, nofun⟩
  · refine (Function.forall_update_iff pc
      fun t' q => t' ∈ t :: l.readers ↔ reads q = true).mpr ⟨?_, fun t' hne => ?_⟩
    · exact ⟨fun _ => hreads, fun _ => List.mem_cons_self⟩
    · rw [List.mem_cons, h.readers t']
      exact or_iff_right hne
  · refine List.nodup_cons.mpr ⟨fun hmem => ?_, h.nodup⟩
    rw [(h.readers t).mp hmem] at ht
    exact nomatch ht

theorem Agrees.wrlock (h : Agrees l reads writes pc) (hl : l.wrlock t = some l')
    (hreads : reads p = false) (hwrites : writes p = true) :
    Agrees l' reads writes (Function.update pc t p) := by
  obtain ⟨⟨hfree, hreaders⟩, hl⟩ := Option.ite_none_right_eq_some.mp hl
  obtain rfl := Option.some.inj hl
  refine ⟨?_, ?_, h.nodup, fun _ => hreaders⟩
  · refine (Function.forall_update_iff pc
      fun t' q => some t = some t' ↔ writes q = true).mpr ⟨?_, fun t' hne => ?_⟩
    · exact ⟨fun _ => hwrites, fun _ => rfl⟩
    · rw [← h.writer t', hfree]
      exact ⟨fun heq => absurd (Option.some.inj heq).symm hne, nofun⟩
  · refine (Function.forall_update_iff pc
      fun t' q => t' ∈ l.readers ↔ reads q = true).mpr ⟨?_, fun t' _ => h.readers t'⟩
    rw [hreaders, hreads]
    exact ⟨fun hmem => absurd hmem List.not_mem_nil, nofun⟩

theorem Agrees.unlock (h : Agrees l reads writes pc) (hreads : reads p = false)
    (hwrites : writes p = false) (ht : reads (pc t) = true ∨ writes (pc t) = true) :
    Agrees (l.unlock t) reads writes (Function.update pc t p) := by
  unfold Lock.unlock
  split
  case isTrue hwriter =>
      have hempty := h.exclusive (by rw [hwriter]; nofun)
      refine ⟨?_, ?_, h.nodup, fun hnone => absurd rfl hnone⟩
      · refine (Function.forall_update_iff pc
          fun t' q => none = some t' ↔ writes q = true).mpr ⟨?_, fun t' hne => ?_⟩
        · rw [hwrites]
          exact ⟨nofun, nofun⟩
        · rw [(h.alone ((h.writer t).mp hwriter) hne).2]
          exact ⟨nofun, nofun⟩
      · refine (Function.forall_update_iff pc
          fun t' q => t' ∈ l.readers ↔ reads q = true).mpr ⟨?_, fun t' _ => h.readers t'⟩
        rw [hempty, hreads]
        exact ⟨fun hmem => absurd hmem List.not_mem_nil, nofun⟩
  case isFalse hwriter =>
      have hnot : writes (pc t) = false :=
        eq_false_of_ne_true fun hw => hwriter ((h.writer t).mpr hw)
      have hmem : t ∈ l.readers := (h.readers t).mpr (ht.resolve_right (by rw [hnot]; nofun))
      have hfree : l.writer = none := by
        refine not_not.mp fun hne => ?_
        rw [h.exclusive hne] at hmem
        exact absurd hmem List.not_mem_nil
      refine ⟨?_, ?_, h.nodup.erase t, fun hne => absurd hfree hne⟩
      · refine (Function.forall_update_iff pc
          fun t' q => l.writer = some t' ↔ writes q = true).mpr ⟨?_, fun t' _ => h.writer t'⟩
        rw [hfree, hwrites]
        exact ⟨nofun, nofun⟩
      · refine (Function.forall_update_iff pc
          fun t' q => t' ∈ l.readers.erase t ↔ reads q = true).mpr ⟨?_, fun t' hne => ?_⟩
        · rw [hreads, h.nodup.mem_erase_iff]
          exact ⟨fun hself => absurd rfl hself.1, nofun⟩
        · rw [h.nodup.mem_erase_iff, h.readers t']
          exact and_iff_right hne

omit [DecidableEq T] in
theorem agrees_free (hreads : ∀ t, reads (pc t) = false) (hwrites : ∀ t, writes (pc t) = false) :
    Agrees Lock.free reads writes pc where
  writer := fun t => by
    rw [hwrites]
    exact ⟨nofun, nofun⟩
  readers := fun t => by
    rw [hreads]
    exact ⟨fun hmem => absurd hmem List.not_mem_nil, nofun⟩
  nodup := List.nodup_nil
  exclusive := fun _ => rfl

end RwLock
