/-
Apue/FdTable.lean

Descriptor tables.

A table maps descriptor numbers to open files.  A new descriptor gets the lowest
free number, so numbers are used again after `close`.  Two tables are compared
by what their numbers are open on (`FdTable.get`), not by their representation.

The type of open files is arbitrary.
-/
import Mathlib.Data.List.Basic
import Mathlib.Tactic.Common

/-- A descriptor table: slot `n` says what descriptor `n` is open on. -/
structure FdTable (φ : Type*) where
  slots : List (Option φ)

namespace FdTable

variable {φ : Type*} (t : FdTable φ) {n : ℕ}

/-- What descriptor `n` is open on. -/
def get (n : ℕ) : Option φ := (t.slots[n]?).join

/-- The lowest free descriptor. -/
def lowest : ℕ := t.slots.findIdx Option.isNone

/-- Open `f` at the lowest free descriptor. -/
def insert (f : φ) : FdTable φ :=
  ⟨if t.lowest < t.slots.length then t.slots.set t.lowest (some f) else t.slots ++ [some f]⟩

/-- Open `f` at the free descriptor `n`. -/
def openAt (n : ℕ) (f : φ) : FdTable φ :=
  ⟨(t.slots ++ List.replicate (n + 1 - t.slots.length) none).set n (some f)⟩

/-- Close descriptor `n`. -/
def close (n : ℕ) : FdTable φ := ⟨t.slots.set n none⟩

theorem get_lowest : t.get t.lowest = none := by
  rw [get, lowest]
  by_cases h : t.slots.findIdx Option.isNone < t.slots.length
  · have hnone := List.findIdx_getElem (w := h)
    rw [List.getElem?_eq_getElem h, Option.isNone_iff_eq_none.mp hnone]
    rfl
  · rw [List.getElem?_eq_none (Nat.le_of_not_lt h)]
    rfl

@[simp] theorem get_insert_lowest (f : φ) : (t.insert f).get t.lowest = some f := by
  have hle : t.lowest ≤ t.slots.length := List.findIdx_le_length
  rw [insert, get]
  split
  case isTrue h => simp [h]
  case isFalse h =>
      have heq : t.lowest = t.slots.length := by omega
      simp [heq]

theorem get_insert_of_ne (f : φ) (h : n ≠ t.lowest) : (t.insert f).get n = t.get n := by
  have hle : t.lowest ≤ t.slots.length := List.findIdx_le_length
  rw [insert, get, get]
  split
  case isTrue => rw [List.getElem?_set_ne h.symm]
  case isFalse hlt =>
      have heq : t.lowest = t.slots.length := by omega
      rcases Nat.lt_or_ge n t.slots.length with hn | hn
      · rw [List.getElem?_append_left hn]
      · rw [List.getElem?_eq_none hn, List.getElem?_eq_none]
        simp
        omega

@[simp] theorem get_openAt_self (f : φ) : (t.openAt n f).get n = some f := by
  have hlt : n < (t.slots ++ List.replicate (n + 1 - t.slots.length) none).length := by
    rw [List.length_append, List.length_replicate]
    omega
  rw [openAt, get, List.getElem?_set_self hlt]
  rfl

theorem get_openAt_of_ne {k : ℕ} (f : φ) (h : k ≠ n) : (t.openAt n f).get k = t.get k := by
  rw [openAt, get, get, List.getElem?_set_ne h.symm]
  rcases Nat.lt_or_ge k t.slots.length with hk | hk
  · rw [List.getElem?_append_left hk]
  · -- a slot past the end is free, and so is a slot of the padding
    rw [List.getElem?_append_right hk, List.getElem?_eq_none hk, List.getElem?_replicate]
    split <;> rfl

@[simp] theorem get_close_self : (t.close n).get n = none := by
  rw [close, get, List.getElem?_set_self']
  cases t.slots[n]? <;> rfl

theorem get_close_of_ne {k : ℕ} (h : k ≠ n) : (t.close n).get k = t.get k := by
  rw [close, get, get, List.getElem?_set_ne h.symm]

/-- Opening a file and closing it again changes no descriptor. -/
theorem get_close_insert (f : φ) : ((t.insert f).close t.lowest).get = t.get := by
  funext k
  by_cases hk : k = t.lowest
  · subst hk
    rw [get_close_self, get_lowest]
  · rw [get_close_of_ne _ hk, get_insert_of_ne _ _ hk]

/-! ### Which descriptor comes next -/

/-- Below the lowest free descriptor all are open. -/
theorem get_of_lt_lowest (h : n < t.lowest) : t.get n ≠ none := by
  have hlength : n < t.slots.length := Nat.lt_of_lt_of_le h List.findIdx_le_length
  have hsome : t.slots[n].isNone = false := List.not_of_lt_findIdx h
  rw [get, List.getElem?_eq_getElem hlength]
  intro hnone
  rw [show t.slots[n] = none from hnone] at hsome
  cases hsome

theorem lowest_eq (hfree : t.get n = none) (hopen : ∀ k < n, t.get k ≠ none) : t.lowest = n := by
  rcases Nat.lt_trichotomy t.lowest n with hlt | heq | hgt
  · exact absurd t.get_lowest (hopen _ hlt)
  · exact heq
  · exact absurd hfree (t.get_of_lt_lowest hgt)

/-- The lowest free descriptor depends only on what is open. -/
theorem lowest_congr {t t' : FdTable φ} (h : t'.get = t.get) : t'.lowest = t.lowest :=
  lowest_eq _ (by rw [h]; exact t.get_lowest) fun k hk => by
    rw [h]
    exact t.get_of_lt_lowest hk

/-! ### One descriptor more -/

/-- `t'` is `t` with the free descriptor `n` opened on `f`. -/
structure Adds (t t' : FdTable φ) (n : ℕ) (f : φ) : Prop where
  free : t.get n = none
  opened : t'.get n = some f
  others : ∀ k ≠ n, t'.get k = t.get k

section Adds

variable {t} {t' t'' : FdTable φ} {f g : φ}

theorem adds_insert (t : FdTable φ) (f : φ) : Adds t (t.insert f) t.lowest f :=
  ⟨t.get_lowest, t.get_insert_lowest f, fun _ => t.get_insert_of_ne f⟩

/-- The file behind the descriptor changes. -/
theorem Adds.openAt (h : Adds t t' n f) (g : φ) : Adds t (t'.openAt n g) n g :=
  ⟨h.free, t'.get_openAt_self g, fun k hk => (t'.get_openAt_of_ne g hk).trans (h.others k hk)⟩

theorem Adds.get_close (h : Adds t t' n f) : (t'.close n).get = t.get := by
  funext k
  rcases eq_or_ne k n with rfl | hne
  · rw [get_close_self, h.free]
  · rw [get_close_of_ne _ hne, h.others k hne]

theorem Adds.congr (h : Adds t t' n f) {u : FdTable φ} (hu : u.get = t.get) : Adds u t' n f :=
  ⟨(congrFun hu n).trans h.free, h.opened, fun k hk => (h.others k hk).trans (congrFun hu k).symm⟩

theorem Adds.of_get_eq (h : Adds t t' n f) (hget : t''.get = t'.get) : Adds t t'' n f :=
  ⟨h.free, (congrFun hget n).trans h.opened, fun k hk => (congrFun hget k).trans (h.others k hk)⟩

/-- Of two descriptors, the first is closed again. -/
theorem Adds.close_first {m : ℕ} (h : Adds t t' n f) (h' : Adds t' t'' m g) :
    Adds t (t''.close n) m g := by
  have hne : m ≠ n := by
    rintro rfl
    exact Option.some_ne_none f (h.opened.symm.trans h'.free)
  refine ⟨(h.others m hne).symm.trans h'.free, ?_, fun k hk => ?_⟩
  · rw [get_close_of_ne _ hne, h'.opened]
  · rcases eq_or_ne k n with rfl | hkn
    · rw [get_close_self, h.free]
    · rw [get_close_of_ne _ hkn, h'.others k hk, h.others k hkn]

end Adds

end FdTable
