/-
Apue/RecordLock.lean

Record locks on one file: the table that `fcntl` keeps for `F_SETLK`.

A lock covers a region of the file, given by its first byte and its length; length 0
means to the end of the file, however far it grows.  Locks of different processes
conflict if their regions overlap and one of them is a write lock.  `F_SETLK` fails if
the new lock conflicts with one in the table; otherwise it takes the place of whatever
the process had locked in that region.  All locks of a process go when it exits or
closes the file.

The table never holds two locks that conflict (`Exclusive`).  Nothing here is about what
the processes do.
-/
import Mathlib.Data.List.Basic
import Mathlib.Tactic.Common

namespace RecordLock

/-! ### Regions -/

/-- `l_start` and `l_len`. -/
structure Region where
  start : ℕ
  len : ℕ
  deriving DecidableEq, Repr

/-- The region contains byte `o`. -/
def Region.Covers (r : Region) (o : ℕ) : Prop := r.start ≤ o ∧ (r.len = 0 ∨ o < r.start + r.len)

instance (r : Region) (o : ℕ) : Decidable (r.Covers o) := inferInstanceAs (Decidable (_ ∧ _))

/-- Regions overlap if one of them contains the first byte of the other. -/
def Region.Overlaps (r q : Region) : Prop := r.Covers q.start ∨ q.Covers r.start

instance (r q : Region) : Decidable (r.Overlaps q) := inferInstanceAs (Decidable (_ ∨ _))

theorem Region.overlaps_iff (r q : Region) : r.Overlaps q ↔ ∃ o, r.Covers o ∧ q.Covers o := by
  unfold Region.Overlaps Region.Covers
  constructor
  · rintro (h | h)
    · exact ⟨q.start, h, by omega⟩
    · exact ⟨r.start, by omega, h⟩
  · rintro ⟨o, hr, hq⟩
    omega

/-- What is left of a region when `q` is taken out. -/
def Region.diff (r q : Region) : List Region :=
  -- the part before `q`
  (if r.start < q.start then
    [⟨r.start, if r.len = 0 then q.start - r.start else min r.len (q.start - r.start)⟩] else []) ++
  -- the part behind `q`, if `q` ends before `r` does
  (if q.len ≠ 0 ∧ (r.len = 0 ∨ q.start + q.len < r.start + r.len) then
    [⟨max r.start (q.start + q.len),
      if r.len = 0 then 0 else r.start + r.len - max r.start (q.start + q.len)⟩] else [])

theorem Region.covers_diff (r q : Region) (o : ℕ) :
    (∃ d ∈ r.diff q, d.Covers o) ↔ r.Covers o ∧ ¬q.Covers o := by
  unfold Region.diff Region.Covers
  -- each part is there or not, and ends or not
  by_cases hleft : r.start < q.start <;>
    by_cases hright : q.len ≠ 0 ∧ (r.len = 0 ∨ q.start + q.len < r.start + r.len) <;>
      by_cases hr : r.len = 0 <;> simp [hleft, hright, hr] <;> omega

/-! ### The table -/

variable {P : Type*} [DecidableEq P]

/-- `F_RDLCK` and `F_WRLCK`. -/
inductive Kind
  | read
  | write
  deriving DecidableEq, Repr

/-- A lock of a process. -/
structure Lock (P : Type*) where
  owner : P
  kind : Kind
  region : Region
  deriving DecidableEq, Repr

/-- Two locks that cannot be held at once. -/
def Lock.Conflicts (l m : Lock P) : Prop :=
  l.owner ≠ m.owner ∧ (l.kind = .write ∨ m.kind = .write) ∧ l.region.Overlaps m.region

instance (l m : Lock P) : Decidable (l.Conflicts m) := inferInstanceAs (Decidable (_ ∧ _ ∧ _))

/-- The locks on the file. -/
abbrev Table (P : Type*) := List (Lock P)

/-- `fcntl(fd, F_SETLK, &fl)` with `F_UNLCK` in a region: what process `p` had locked there
is free. -/
def unlock (t : Table P) (p : P) (r : Region) : Table P :=
  t.flatMap fun m => if m.owner = p then (m.region.diff r).map (⟨p, m.kind, ·⟩) else [m]

/-- `fcntl(fd, F_SETLK, &fl)`: fails if another process has a lock in the way. -/
def setLk (t : Table P) (l : Lock P) : Option (Table P) :=
  if ∃ m ∈ t, l.Conflicts m then none else some (l :: unlock t l.owner l.region)

/-- Process `p` closes the file, or exits. -/
def release (t : Table P) (p : P) : Table P := t.filter fun m => m.owner ≠ p

/-- No two locks of the table conflict. -/
def Exclusive (t : Table P) : Prop := ∀ l ∈ t, ∀ m ∈ t, ¬l.Conflicts m

variable {t t' : Table P} {l m : Lock P} {p : P}

omit [DecidableEq P] in
theorem Lock.Conflicts.symm (h : l.Conflicts m) : m.Conflicts l :=
  ⟨h.1.symm, h.2.1.symm, h.2.2.symm⟩

/-- What is left of the locks was there before. -/
theorem exists_of_mem_unlock {r : Region} (h : m ∈ unlock t p r) :
    ∃ m₀ ∈ t, m₀.owner = m.owner ∧ m₀.kind = m.kind ∧
      ∀ o, m.region.Covers o → m₀.region.Covers o := by
  obtain ⟨m₀, hm₀, hm⟩ := List.mem_flatMap.mp h
  refine ⟨m₀, hm₀, ?_⟩
  split at hm
  case isTrue howner =>
      obtain ⟨d, hd, rfl⟩ := List.mem_map.mp hm
      exact ⟨howner, rfl, fun o ho => ((Region.covers_diff _ r o).mp ⟨d, hd, ho⟩).1⟩
  case isFalse =>
      obtain rfl := List.mem_singleton.mp hm
      exact ⟨rfl, rfl, fun _ ho => ho⟩

/-- The locks of the other processes are as before. -/
theorem mem_unlock_iff_of_ne {r : Region} (hp : m.owner ≠ p) : m ∈ unlock t p r ↔ m ∈ t := by
  constructor
  · intro h
    obtain ⟨m₀, hm₀, hm⟩ := List.mem_flatMap.mp h
    split at hm
    case isTrue =>
        obtain ⟨d, -, rfl⟩ := List.mem_map.mp hm
        exact absurd rfl hp
    case isFalse =>
        obtain rfl := List.mem_singleton.mp hm
        exact hm₀
  · intro h
    refine List.mem_flatMap.mpr ⟨m, h, ?_⟩
    rw [if_neg hp]
    exact List.mem_singleton_self m

theorem Exclusive.unlock (h : Exclusive t) (p : P) (r : Region) : Exclusive (unlock t p r) := by
  intro l hl m hm hlm
  obtain ⟨l₀, hl₀, howner, hkind, hcovers⟩ := exists_of_mem_unlock hl
  obtain ⟨m₀, hm₀, howner', hkind', hcovers'⟩ := exists_of_mem_unlock hm
  obtain ⟨o, ho, ho'⟩ := (Region.overlaps_iff _ _).mp hlm.2.2
  refine h l₀ hl₀ m₀ hm₀ ⟨?_, ?_, (Region.overlaps_iff _ _).mpr ⟨o, hcovers o ho, hcovers' o ho'⟩⟩
  · rw [howner, howner']
    exact hlm.1
  · rw [hkind, hkind']
    exact hlm.2.1

/-! ### `F_SETLK` -/

theorem setLk_eq_none_iff : setLk t l = none ↔ ∃ m ∈ t, l.Conflicts m := by
  simp [setLk]

theorem setLk_eq_some_iff :
    setLk t l = some t' ↔ (∀ m ∈ t, ¬l.Conflicts m) ∧ t' = l :: unlock t l.owner l.region := by
  simp [setLk, eq_comm]

/-- **The table stays free of conflicts.** -/
theorem Exclusive.setLk (h : Exclusive t) (hs : setLk t l = some t') : Exclusive t' := by
  obtain ⟨hfree, rfl⟩ := setLk_eq_some_iff.mp hs
  have hl : ∀ m ∈ RecordLock.unlock t l.owner l.region, ¬l.Conflicts m := by
    intro m hm hlm
    obtain ⟨m₀, hm₀, howner, hkind, hcovers⟩ := exists_of_mem_unlock hm
    obtain ⟨o, ho, ho'⟩ := (Region.overlaps_iff _ _).mp hlm.2.2
    exact hfree m₀ hm₀ ⟨howner ▸ hlm.1, hkind ▸ hlm.2.1,
      (Region.overlaps_iff _ _).mpr ⟨o, ho, hcovers o ho'⟩⟩
  intro m hm m' hm' hmm'
  rcases List.mem_cons.mp hm with rfl | hm <;> rcases List.mem_cons.mp hm' with rfl | hm'
  · exact hmm'.1 rfl
  · exact hl m' hm' hmm'
  · exact hl m hm hmm'.symm
  · exact h.unlock _ _ m hm m' hm' hmm'

theorem mem_setLk (hs : setLk t l = some t') : l ∈ t' := by
  obtain ⟨-, rfl⟩ := setLk_eq_some_iff.mp hs
  exact List.mem_cons_self

theorem mem_setLk_iff_of_ne (hs : setLk t l = some t') (hp : m.owner ≠ l.owner) :
    m ∈ t' ↔ m ∈ t := by
  obtain ⟨-, rfl⟩ := setLk_eq_some_iff.mp hs
  have hm : m ≠ l := fun h => hp (congrArg Lock.owner h)
  rw [List.mem_cons, or_iff_right hm, mem_unlock_iff_of_ne hp]

theorem Exclusive.release (h : Exclusive t) (p : P) : Exclusive (release t p) :=
  fun l hl m hm => h l (List.mem_filter.mp hl).1 m (List.mem_filter.mp hm).1

theorem mem_release : m ∈ release t p ↔ m ∈ t ∧ m.owner ≠ p := by
  simp [release]

end RecordLock
