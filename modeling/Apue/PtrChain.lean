/-
Apue/PtrChain.lean

Singly linked chains in a heap.

`IsChain next p l` says that following `next` from the pointer `p` visits
exactly the cells `l` and then ends.  A chain is determined by its start
(`IsChain.unique`) and therefore never visits a cell twice (`IsChain.nodup`):
having a list at all is being acyclic.

The three operations on chains are insertion at the head (`IsChain.push`),
removal of the head (`IsChain.tail`) and removal of an inner cell by
redirecting its predecessor (`IsChain.unlink`).  Writes to cells outside a chain
do not touch it (`IsChain.update_of_notMem`).

The type of cells is arbitrary.
-/
import Mathlib.Data.List.Nodup
import Mathlib.Tactic.Common

namespace PtrChain

variable {ρ : Type*}

/-- Following `next` from `p` visits exactly `l`. -/
def IsChain (next : ρ → Option ρ) : Option ρ → List ρ → Prop
  | p, [] => p = none
  | p, a :: l => p = some a ∧ IsChain next (next a) l

variable {next : ρ → Option ρ} {p : Option ρ} {l : List ρ}

@[simp] theorem isChain_nil : IsChain next p [] ↔ p = none := Iff.rfl

@[simp] theorem isChain_cons {a : ρ} :
    IsChain next p (a :: l) ↔ p = some a ∧ IsChain next (next a) l := Iff.rfl

/-- Where a chain starts. -/
theorem IsChain.start (h : IsChain next p l) : p = l.head? := by
  cases l with
  | nil => exact h
  | cons a l => exact h.1

/-- A chain is determined by its start. -/
theorem IsChain.unique {l' : List ρ} (h : IsChain next p l) (h' : IsChain next p l') :
    l = l' := by
  induction l generalizing p l' with
  | nil =>
      cases l' with
      | nil => rfl
      | cons b l' => exact absurd (h.symm.trans h'.1) (by simp)
  | cons a l ih =>
      cases l' with
      | nil => exact absurd (h'.symm.trans h.1) (by simp)
      | cons b l' =>
          obtain rfl : a = b := Option.some.inj (h.1.symm.trans h'.1)
          rw [ih h.2 h'.2]

/-- Following a chain to one of its cells leaves the rest of it. -/
theorem IsChain.drop {l₁ l₂ : List ρ} {a : ρ} (h : IsChain next p (l₁ ++ a :: l₂)) :
    IsChain next (some a) (a :: l₂) := by
  induction l₁ generalizing p with
  | nil => exact ⟨rfl, h.2⟩
  | cons b l₁ ih => exact ih h.2

/-- A chain visits no cell twice. -/
theorem IsChain.nodup (h : IsChain next p l) : l.Nodup := by
  induction l generalizing p with
  | nil => exact List.nodup_nil
  | cons a l ih =>
      refine List.nodup_cons.mpr ⟨fun hmem => ?_, ih h.2⟩
      -- otherwise the chain from `a` would have two different lengths
      obtain ⟨l₁, l₂, rfl⟩ := List.append_of_mem hmem
      have h₁ : IsChain next (some a) (a :: (l₁ ++ a :: l₂)) := ⟨rfl, h.2⟩
      have h₂ : IsChain next (some a) (a :: l₂) := h₁.2.drop
      have hlen := congrArg List.length (h₁.unique h₂)
      simp at hlen
      omega

/-- A chain depends only on the pointers of its own cells. -/
theorem IsChain.congr {next' : ρ → Option ρ} (h : IsChain next p l)
    (hn : ∀ a ∈ l, next' a = next a) : IsChain next' p l := by
  induction l generalizing p with
  | nil => exact h
  | cons a l ih =>
      refine ⟨h.1, ?_⟩
      rw [hn a (by simp)]
      exact ih h.2 fun b hb => hn b (by simp [hb])

variable [DecidableEq ρ]

/-- A write to a cell outside the chain does not touch it. -/
theorem IsChain.update_of_notMem {a : ρ} {q : Option ρ} (h : IsChain next p l) (ha : a ∉ l) :
    IsChain (Function.update next a q) p l := by
  refine h.congr fun b hb => Function.update_of_ne ?_ _ _
  rintro rfl
  exact ha hb

omit [DecidableEq ρ] in
/-- Insertion at the head of a cell that already points to the old head. -/
theorem IsChain.push {a : ρ} (h : IsChain next p l) (ha : next a = p) :
    IsChain next (some a) (a :: l) :=
  ⟨rfl, ha ▸ h⟩

omit [DecidableEq ρ] in
/-- Removal of the head. -/
theorem IsChain.tail {a : ρ} (h : IsChain next p (a :: l)) : IsChain next (next a) l := h.2

/-- Removal of the cell `o` by redirecting its predecessor `t`. -/
theorem IsChain.unlink {l₁ l₂ : List ρ} {t o : ρ} (h : IsChain next p (l₁ ++ t :: o :: l₂)) :
    IsChain (Function.update next t (next o)) p (l₁ ++ t :: l₂) := by
  induction l₁ generalizing p with
  | nil =>
      have hnd := h.nodup
      have ht : t ∉ l₂ := fun hmem => (List.nodup_cons.mp hnd).1 (List.mem_cons_of_mem _ hmem)
      refine ⟨h.1, ?_⟩
      rw [Function.update_self]
      exact h.2.2.update_of_notMem ht
  | cons b l₁ ih =>
      have hb : b ≠ t := by
        rintro rfl
        exact (List.nodup_cons.mp h.nodup).1 (by simp)
      refine ⟨h.1, ?_⟩
      rw [Function.update_of_ne hb]
      exact ih h.2

end PtrChain
