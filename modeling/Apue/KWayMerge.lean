/-
Apue/KWayMerge.lean

Merging any number of sorted runs, with the greatest value as the sentinel.

The least first element is searched with `⊤` as the start value and a strict
comparison, so a run that begins with `⊤` is never chosen: when only `⊤` is
left, the search returns `⊤` and the number 0, whether or not run 0 has any
element left.  Taking the tail of an exhausted run does nothing then, so which
copies of `⊤` have been consumed is no longer known.  Their number is: the
merge makes as many rounds as there are elements, and the elements below `⊤`
come first.

Runs are numbered from 0; `t` is the number of runs.
-/
import Mathlib.Algebra.BigOperators.Group.Finset.Basic
import Mathlib.Algebra.Order.Group.Multiset
import Mathlib.Order.BoundedOrder.Basic

namespace KWayMerge

variable {α : Type*}

/-! ### What is left of the runs -/

/-- The elements of the first `t` runs. -/
def rest (runs : ℕ → List α) (t : ℕ) : Multiset α := ∑ i ∈ Finset.range t, (runs i : Multiset α)

theorem mem_rest {runs : ℕ → List α} {t : ℕ} {x : α} :
    x ∈ rest runs t ↔ ∃ i < t, x ∈ runs i := by
  simp [rest, Multiset.mem_sum]

/-- Run `j` loses its first element, if it has one. -/
def advance (runs : ℕ → List α) (j : ℕ) : ℕ → List α := Function.update runs j (runs j).tail

theorem rest_advance {runs : ℕ → List α} {t j : ℕ} (hj : j < t) {x : α} {l : List α}
    (hx : runs j = x :: l) : rest runs t = x ::ₘ rest (advance runs j) t := by
  have hmem := Finset.mem_range.mpr hj
  rw [rest, rest, ← Finset.add_sum_erase _ _ hmem, ← Finset.add_sum_erase _ _ hmem, advance,
    Function.update_self, hx, ← Multiset.cons_coe, Multiset.cons_add]
  congr 2
  refine Finset.sum_congr rfl fun i hi => ?_
  rw [Function.update_of_ne (Finset.ne_of_mem_erase hi)]

/-- Advancing a run loses elements only. -/
theorem mem_of_mem_advance {runs : ℕ → List α} {i j : ℕ} {x : α} (h : x ∈ advance runs j i) :
    x ∈ runs i := by
  rcases eq_or_ne i j with rfl | hne
  · rw [advance, Function.update_self] at h
    exact List.mem_of_mem_tail h
  · rwa [advance, Function.update_of_ne hne] at h

variable [LinearOrder α]

/-- Every run is sorted. -/
def Sorted (runs : ℕ → List α) (t : ℕ) : Prop := ∀ i < t, (runs i).Pairwise (· ≤ ·)

theorem Sorted.advance {runs : ℕ → List α} {t : ℕ} (h : Sorted runs t) (j : ℕ) :
    Sorted (advance runs j) t := by
  intro i hi
  rcases eq_or_ne i j with rfl | hne
  · rw [KWayMerge.advance, Function.update_self]
    exact (h i hi).tail
  · rw [KWayMerge.advance, Function.update_of_ne hne]
    exact h i hi

variable [OrderTop α]

/-! ### The search -/

/-- The least first element of the first `t` runs, and the number of its run. -/
def leastHead (runs : ℕ → List α) : ℕ → α × ℕ
  | 0 => (⊤, 0)
  | i + 1 =>
      match runs i with
      | [] => leastHead runs i
      | x :: _ => if x < (leastHead runs i).1 then (x, i) else leastHead runs i

/-- No run begins with a smaller element. -/
theorem leastHead_le (runs : ℕ → List α) {t i : ℕ} (hi : i < t) {x : α} {l : List α}
    (hx : runs i = x :: l) : (leastHead runs t).1 ≤ x := by
  induction t with
  | zero => cases hi
  | succ t ih =>
      rw [leastHead]
      rcases Nat.lt_succ_iff_lt_or_eq.mp hi with hlt | rfl
      · split
        · exact ih hlt
        · split
          · next h => exact h.le.trans (ih hlt)
          · exact ih hlt
      · rw [hx]
        show (if x < (leastHead runs i).1 then (x, i) else leastHead runs i).1 ≤ x
        split
        · exact le_rfl
        · next h => exact not_lt.mp h

/-- The search finds a first element, or nothing below the sentinel. -/
theorem leastHead_cases (runs : ℕ → List α) (t : ℕ) :
    leastHead runs t = (⊤, 0) ∨
      (leastHead runs t).1 < ⊤ ∧ (leastHead runs t).2 < t ∧
        ∃ l, runs (leastHead runs t).2 = (leastHead runs t).1 :: l := by
  induction t with
  | zero => exact .inl rfl
  | succ t ih =>
      have hkeep : leastHead runs t = (⊤, 0) ∨
          (leastHead runs t).1 < ⊤ ∧ (leastHead runs t).2 < t + 1 ∧
            ∃ l, runs (leastHead runs t).2 = (leastHead runs t).1 :: l :=
        ih.imp_right fun ⟨hm, hj, hl⟩ => ⟨hm, hj.trans (Nat.lt_succ_self t), hl⟩
      rw [leastHead]
      split
      · exact hkeep
      · next x l hrun =>
        split
        · next hlt => exact .inr ⟨lt_of_lt_of_le hlt le_top, Nat.lt_succ_self t, l, hrun⟩
        · exact hkeep

/-- The search finds a lower bound of all that is left. -/
theorem leastHead_le_of_mem {runs : ℕ → List α} {t : ℕ} (h : Sorted runs t) {x : α}
    (hx : x ∈ rest runs t) : (leastHead runs t).1 ≤ x := by
  obtain ⟨i, hi, hmem⟩ := mem_rest.mp hx
  cases hrun : runs i with
  | nil =>
      rw [hrun] at hmem
      cases hmem
  | cons y l =>
      have hy := leastHead_le runs hi hrun
      have hsorted := h i hi
      rw [hrun] at hmem hsorted
      rcases List.mem_cons.mp hmem with rfl | hxl
      · exact hy
      · exact hy.trans ((List.pairwise_cons.mp hsorted).1 x hxl)

/-! ### The merge -/

/-- `n` rounds: each emits what the search finds and advances the run it names. -/
def mergeRuns (t : ℕ) : ℕ → (ℕ → List α) → List α
  | 0, _ => []
  | n + 1, runs => (leastHead runs t).1 :: mergeRuns t n (advance runs (leastHead runs t).2)

/-- The elements that the search can find. -/
def below (s : Multiset α) : Multiset α := s.filter (· ≠ ⊤)

theorem below_eq_zero {s : Multiset α} :
    below s = 0 ↔ ∀ x ∈ s, x = ⊤ := by
  simp [below, Multiset.filter_eq_nil]

/-- **With enough rounds, the merge emits what is below the sentinel in order**, and the
sentinel for the rest of its rounds. -/
theorem mergeRuns_spec (t : ℕ) : ∀ (n : ℕ) (runs : ℕ → List α), Sorted runs t →
    (below (rest runs t)).card ≤ n →
    (mergeRuns t n runs).Pairwise (· ≤ ·) ∧
      (mergeRuns t n runs : Multiset α) = below (rest runs t) +
        Multiset.replicate (n - (below (rest runs t)).card) ⊤ := by
  intro n
  induction n with
  | zero =>
      intro runs _ hn
      have hzero : below (rest runs t) = 0 := Multiset.card_eq_zero.mp (Nat.le_zero.mp hn)
      refine ⟨List.Pairwise.nil, ?_⟩
      rw [hzero]
      rfl
  | succ n ih =>
      intro runs hs hn
      have hmin : ∀ x ∈ rest runs t, (leastHead runs t).1 ≤ x := fun x hx =>
        leastHead_le_of_mem hs hx
      rw [mergeRuns]
      rcases leastHead_cases runs t with htop | ⟨hlt, hj, l, hrun⟩
      · -- nothing below the sentinel is left, now or later
        rw [htop] at hmin ⊢
        have hrest : below (rest runs t) = 0 :=
          below_eq_zero.mpr fun x hx => top_le_iff.mp (hmin x hx)
        have hrest' : below (rest (advance runs 0) t) = 0 := below_eq_zero.mpr fun x hx => by
          obtain ⟨i, hi, hmem⟩ := mem_rest.mp hx
          exact top_le_iff.mp (hmin x (mem_rest.mpr ⟨i, hi, mem_of_mem_advance hmem⟩))
        obtain ⟨hsorted, heq⟩ := ih (advance runs 0) (hs.advance 0) (by simp [hrest'])
        rw [hrest', zero_add, Multiset.card_zero, Nat.sub_zero] at heq
        refine ⟨List.pairwise_cons.mpr ⟨fun x hx => ?_, hsorted⟩, ?_⟩
        · rw [← Multiset.mem_coe, heq] at hx
          exact (Multiset.eq_of_mem_replicate hx).ge
        · rw [hrest, ← Multiset.cons_coe, heq]
          rfl
      · have hcons := rest_advance hj hrun
        have hbelow : below (rest runs t) = (leastHead runs t).1 ::ₘ
            below (rest (advance runs (leastHead runs t).2) t) := by
          rw [hcons]
          exact Multiset.filter_cons_of_pos _ hlt.ne
        rw [hbelow, Multiset.card_cons] at hn
        obtain ⟨hsorted, heq⟩ := ih _ (hs.advance _) (Nat.le_of_succ_le_succ hn)
        refine ⟨List.pairwise_cons.mpr ⟨fun x hx => ?_, hsorted⟩, ?_⟩
        · rw [← Multiset.mem_coe, heq] at hx
          rcases Multiset.mem_add.mp hx with hx | hx
          · refine hmin x ?_
            rw [hcons]
            exact Multiset.mem_cons_of_mem (Multiset.mem_of_mem_filter hx)
          · rw [Multiset.eq_of_mem_replicate hx]
            exact le_top
        · rw [hbelow, ← Multiset.cons_coe, heq, Multiset.card_cons, Nat.add_sub_add_right,
            Multiset.cons_add]

/-- **The merge sorts**: with one round for each element, it emits the elements of the runs
in order, copies of the sentinel included. -/
theorem mergeRuns_sorts {t : ℕ} {runs : ℕ → List α} (hs : Sorted runs t) :
    (mergeRuns t (rest runs t).card runs).Pairwise (· ≤ ·) ∧
      (mergeRuns t (rest runs t).card runs : Multiset α) = rest runs t := by
  have hsplit : below (rest runs t) + (rest runs t).filter (· = ⊤) = rest runs t := by
    have hnot := Multiset.filter_add_not (· ≠ ⊤) (rest runs t)
    simp only [not_not] at hnot
    exact hnot
  have hcard := congrArg Multiset.card hsplit
  rw [Multiset.card_add] at hcard
  obtain ⟨hsorted, heq⟩ := mergeRuns_spec t (rest runs t).card runs hs (by omega)
  refine ⟨hsorted, heq.trans ?_⟩
  conv_rhs => rw [← hsplit]
  congr 1
  rw [Multiset.filter_eq', ← Multiset.card_replicate (Multiset.count ⊤ (rest runs t)) (⊤ : α),
    ← Multiset.filter_eq', ← hcard, Nat.add_sub_cancel_left]

end KWayMerge
