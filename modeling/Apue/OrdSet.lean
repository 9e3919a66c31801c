/-
Apue/OrdSet.lean

Ordered sets as strictly sorted lists.

An `OrdSet` carries the proof that its list is strictly increasing, so a value
with a duplicate or out of order cannot be built, and iteration in order,
`begin` and `erase (begin)` are the list's own traversal, head and tail.  This
is the interface of an ordered associative container as seen by a program that
only walks it from its first element.
-/
import Mathlib.Order.Lattice
import Mathlib.Tactic.Common

/-- A finite set of a linear order, as its strictly increasing list. -/
structure OrdSet (α : Type*) [LinearOrder α] where
  elems : List α
  sorted : elems.Pairwise (· < ·)

namespace OrdSet

variable {α : Type*} [LinearOrder α]

instance : Membership α (OrdSet α) := ⟨fun s a => a ∈ s.elems⟩

theorem mem_def {s : OrdSet α} {a : α} : a ∈ s ↔ a ∈ s.elems := Iff.rfl

instance (a : α) (s : OrdSet α) : Decidable (a ∈ s) := inferInstanceAs (Decidable (a ∈ s.elems))

theorem nodup (s : OrdSet α) : s.elems.Nodup := s.sorted.imp ne_of_lt

/-- `size()`. -/
def size (s : OrdSet α) : ℕ := s.elems.length

/-- The empty set. -/
def empty : OrdSet α := ⟨[], List.Pairwise.nil⟩

@[simp] theorem not_mem_empty (a : α) : a ∉ (empty : OrdSet α) := List.not_mem_nil

/-! ### Insertion -/

/-- Insert into a strictly increasing list; an element that is there already
is not added again. -/
def insertList (a : α) : List α → List α
  | [] => [a]
  | b :: l => if a < b then a :: b :: l else if a = b then b :: l else b :: insertList a l

theorem mem_insertList {a x : α} {l : List α} : x ∈ insertList a l ↔ x = a ∨ x ∈ l := by
  induction l with
  | nil => simp [insertList]
  | cons b l ih =>
      unfold insertList
      split
      · simp
      · split
        · next h => simp [h]
        · simp only [List.mem_cons, ih]
          tauto

theorem sorted_insertList (a : α) {l : List α} (h : l.Pairwise (· < ·)) :
    (insertList a l).Pairwise (· < ·) := by
  induction l with
  | nil => simp [insertList]
  | cons b l ih =>
      obtain ⟨hb, hl⟩ := List.pairwise_cons.mp h
      unfold insertList
      split
      · next hab =>
        refine List.pairwise_cons.mpr ⟨?_, h⟩
        intro x hx
        rcases List.mem_cons.mp hx with rfl | hx
        exacts [hab, hab.trans (hb x hx)]
      · next hab =>
        split
        · exact h
        · next hne =>
          refine List.pairwise_cons.mpr ⟨?_, ih hl⟩
          intro x hx
          rcases mem_insertList.mp hx with rfl | hx
          · exact lt_of_le_of_ne (not_lt.mp hab) (Ne.symm hne)
          · exact hb x hx

/-- `insert`. -/
def insert (s : OrdSet α) (a : α) : OrdSet α :=
  ⟨insertList a s.elems, sorted_insertList a s.sorted⟩

@[simp] theorem mem_insert {s : OrdSet α} {a x : α} : x ∈ s.insert a ↔ x = a ∨ x ∈ s :=
  mem_insertList

theorem insertList_of_mem {a : α} {l : List α} (h : l.Pairwise (· < ·)) (ha : a ∈ l) :
    insertList a l = l := by
  induction l with
  | nil => cases ha
  | cons b l ih =>
      obtain ⟨hb, hl⟩ := List.pairwise_cons.mp h
      rcases List.mem_cons.mp ha with rfl | hal
      · rw [insertList, if_neg (lt_irrefl a), if_pos rfl]
      · have hlt := hb a hal
        rw [insertList, if_neg hlt.not_gt, if_neg hlt.ne', ih hl hal]

theorem perm_insertList {a : α} {l : List α} (ha : a ∉ l) : (insertList a l).Perm (a :: l) := by
  induction l with
  | nil => exact .refl _
  | cons b l ih =>
      obtain ⟨hne, hl⟩ := not_or.mp (mt List.mem_cons.mpr ha)
      rw [insertList, if_neg hne]
      split
      · exact .refl _
      · exact ((ih hl).cons b).trans (.swap a b l)

/-- An element that is there already is lost. -/
theorem size_insert (s : OrdSet α) (a : α) :
    (s.insert a).size = if a ∈ s then s.size else s.size + 1 := by
  split
  case isTrue h => exact congrArg List.length (insertList_of_mem s.sorted h)
  case isFalse h => exact (perm_insertList h).length_eq

/-! ### The first element -/

/-- `*begin()`. -/
def begin? (s : OrdSet α) : Option α := s.elems.head?

/-- `erase(begin())`. -/
def eraseBegin (s : OrdSet α) : OrdSet α :=
  ⟨s.elems.tail, s.sorted.sublist (List.tail_sublist _)⟩

theorem begin?_eq_none {s : OrdSet α} : s.begin? = none ↔ ∀ a, a ∉ s := by
  rw [begin?, List.head?_eq_none_iff, List.eq_nil_iff_forall_not_mem]
  rfl

theorem mem_of_begin? {s : OrdSet α} {a : α} (h : s.begin? = some a) : a ∈ s :=
  List.mem_of_head? h

theorem elems_of_begin? {s : OrdSet α} {a : α} (h : s.begin? = some a) :
    s.elems = a :: s.eraseBegin.elems := by
  obtain ⟨l, hl⟩ := List.head?_eq_some_iff.mp h
  rw [hl, eraseBegin]
  simp [hl]

/-- The first element is the least one. -/
theorem begin?_le {s : OrdSet α} {a x : α} (h : s.begin? = some a) (hx : x ∈ s) : a ≤ x := by
  have hs := s.sorted
  rw [elems_of_begin? h] at hs
  rw [mem_def, elems_of_begin? h] at hx
  rcases List.mem_cons.mp hx with rfl | hx
  · exact le_rfl
  · exact ((List.pairwise_cons.mp hs).1 x hx).le

theorem mem_eraseBegin {s : OrdSet α} {a x : α} (h : s.begin? = some a) :
    x ∈ s.eraseBegin ↔ x ∈ s ∧ x ≠ a := by
  have hs := s.sorted
  rw [elems_of_begin? h] at hs
  have hlt := (List.pairwise_cons.mp hs).1
  rw [mem_def, mem_def, elems_of_begin? h, List.mem_cons]
  constructor
  · intro hx
    exact ⟨.inr hx, (hlt x hx).ne'⟩
  · rintro ⟨rfl | hx, hne⟩
    exacts [absurd rfl hne, hx]

/-- The first element is the least one, and the only one that is. -/
theorem begin?_eq_some_iff {s : OrdSet α} {a : α} :
    s.begin? = some a ↔ a ∈ s ∧ ∀ x ∈ s, a ≤ x := by
  constructor
  · exact fun h => ⟨mem_of_begin? h, fun x hx => begin?_le h hx⟩
  · rintro ⟨ha, hle⟩
    cases h : s.begin? with
    | none => exact absurd ha (begin?_eq_none.mp h a)
    | some b => rw [le_antisymm (begin?_le h ha) (hle b (mem_of_begin? h))]

theorem size_eraseBegin {s : OrdSet α} {a : α} (h : s.begin? = some a) :
    s.eraseBegin.size + 1 = s.size := by
  rw [size, size, elems_of_begin? h, List.length_cons]

/-! ### Rebuilding a set element by element -/

/-- `for (x : s) t.insert(f(x))`, starting from an empty `t`. -/
def image (s : OrdSet α) (f : α → α) : OrdSet α :=
  s.elems.foldl (fun t x => t.insert (f x)) empty

theorem mem_image {s : OrdSet α} {f : α → α} {y : α} : y ∈ s.image f ↔ ∃ x ∈ s, f x = y := by
  have key : ∀ (l : List α) (t : OrdSet α),
      y ∈ l.foldl (fun t x => t.insert (f x)) t ↔ y ∈ t ∨ ∃ x ∈ l, f x = y := by
    intro l
    induction l with
    | nil => simp
    | cons a l ih =>
        intro t
        rw [List.foldl_cons, ih, mem_insert]
        simp only [List.mem_cons, exists_eq_or_imp, eq_comm (a := y)]
        tauto
  rw [image, key]
  exact or_iff_right (not_mem_empty y)

/-- Sets with the same elements have the same list. -/
theorem elems_eq {s : OrdSet α} {l : List α} (hl : l.Pairwise (· < ·)) (h : ∀ x, x ∈ s ↔ x ∈ l) :
    s.elems = l := by
  have hperm : s.elems.Perm l :=
    (List.perm_ext_iff_of_nodup s.nodup (hl.imp ne_of_lt)).mpr h
  exact hperm.eq_of_pairwise (fun _ _ _ _ hab hba => (lt_asymm hab hba).elim) s.sorted hl

/-- Rebuilding with a function that keeps the order maps the list. -/
theorem elems_image {f : α → α} (hf : StrictMono f) (s : OrdSet α) :
    (s.image f).elems = s.elems.map f := by
  refine elems_eq (List.pairwise_map.mpr (s.sorted.imp fun h => hf h)) fun x => ?_
  rw [mem_image, List.mem_map]
  rfl

end OrdSet
