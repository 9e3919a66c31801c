/-
Apue/ParallelSort.lean

The parallel sort of `11/11_usage_barrier.cpp`: how `sort` divides the vector
among its threads, and how `merge` puts the sorted pieces together.

Both cut the vector at the multiples of `num_elements_per_thread`, the size
divided by the number of threads and rounded up, so the last pieces may begin
past the end of the vector.  `merge` compares a piece's begin with its end
before it reads; `sort` subtracts them, in `std::size_t`.

`std::size_t` has 64 bits.  `merge` is a refinement of the merge of runs
(`KWayMerge`), with indices into one vector for the runs.  The threads and the
barrier are not modelled here, and what the constructor fills the vector with
is arbitrary.
-/
import Mathlib.Algebra.Group.Int.Defs
import Mathlib.Order.Interval.Finset.Nat
import Apue.KWayMerge

namespace Apue.ParallelSort

open KWayMerge

/-! ### The class -/

/-- `int`. -/
abbrev CInt : Type := { n : ℤ // -2 ^ 31 ≤ n ∧ n ≤ 2 ^ 31 - 1 }

instance : LinearOrder CInt := @Subtype.instLinearOrder ℤ Int.instLinearOrder _

instance : OrderTop CInt where
  top := ⟨2 ^ 31 - 1, by decide⟩
  le_top x := x.2.2

/-- `a + b` in `std::size_t`. -/
def addSize (a b : ℕ) : ℕ := (a + b) % 2 ^ 64

/-- `a - b` in `std::size_t`. -/
def subSize (a b : ℕ) : ℕ := (a + 2 ^ 64 - b) % 2 ^ 64

/-- `a * b` in `std::size_t`. -/
def mulSize (a b : ℕ) : ℕ := (a * b) % 2 ^ 64

/-- `num_elements_per_thread`, as the constructor computes it. -/
def elementsPerThread (sz nThreads : ℕ) : ℕ :=
  let n := subSize (addSize sz nThreads) 1 / nThreads
  if n = 0 then 1 else n

/-- The members `v`, `num_threads` and `num_elements_per_thread`.  A vector of `int` has
less than 2^61 elements (`max_size()`). -/
structure MultithreadSort where
  v : List CInt
  numThreads : ℕ
  numElementsPerThread : ℕ
  size_lt : v.length < 2 ^ 61
  numThreads_lt : numThreads < 2 ^ 64

/-! ### The division in `sort` and `merge` -/

/-- Where the piece of thread `i` begins. -/
def startIdx (numElementsPerThread i : ℕ) : ℕ := mulSize i numElementsPerThread

/-- Where the piece of thread `i` ends. -/
def endIdx (size numElementsPerThread i : ℕ) : ℕ :=
  min (addSize (startIdx numElementsPerThread i) numElementsPerThread) size

/-- `struct ThreadArg`. -/
structure ThreadArg where
  startIdx : ℕ
  count : ℕ
  deriving DecidableEq, Repr

/-- What `sort` passes to thread `i`. -/
def threadArg (size numElementsPerThread i : ℕ) : ThreadArg :=
  let start := startIdx numElementsPerThread i
  ⟨start, subSize (endIdx size numElementsPerThread i) start⟩

/-- The threads that `sort` creates. -/
def workers (size numElementsPerThread numThreads : ℕ) : List ThreadArg :=
  ((List.range numThreads).map (threadArg size numElementsPerThread)).filter (0 < ·.count)

/-! ### `merge` -/

section Merge

variable {α : Type*} [LinearOrder α] [OrderTop α]

/-- The body of the inner loop for thread `i`, with `min_val` and `min_thread_idx` so far.
Reading `v` out of range gives no result. -/
def scanStep (v : List α) (currentIdx endIdx : ℕ → ℕ) (acc : α × ℕ) (i : ℕ) : Option (α × ℕ) :=
  if currentIdx i < endIdx i then
    (v[currentIdx i]?).map fun val => if val < acc.1 then (val, i) else acc
  else some acc

/-- The inner loop. -/
def scan (v : List α) (currentIdx endIdx : ℕ → ℕ) (numThreads : ℕ) : Option (α × ℕ) :=
  (List.range numThreads).foldlM (scanStep v currentIdx endIdx) (⊤, 0)

/-- The outer loop, with the number of iterations to go. -/
def mergeLoop (v : List α) (endIdx : ℕ → ℕ) (numThreads : ℕ) :
    ℕ → (ℕ → ℕ) → List α → Option (List α)
  | 0, _, result => some result
  | k + 1, currentIdx, result =>
      (scan v currentIdx endIdx numThreads).bind fun (minVal, minThreadIdx) =>
        mergeLoop v endIdx numThreads k
          (Function.update currentIdx minThreadIdx (currentIdx minThreadIdx + 1))
          (result ++ [minVal])

end Merge

/-- `merge`: what it leaves in `v`. -/
def MultithreadSort.merge (m : MultithreadSort) : Option (List CInt) :=
  mergeLoop m.v (endIdx m.v.length m.numElementsPerThread) m.numThreads m.v.length
    (startIdx m.numElementsPerThread) []

/-! ### The pieces -/

/-- `max(1, ceil(size / num_threads))`. -/
def pieceSize (size numThreads : ℕ) : ℕ := max 1 ((size + numThreads - 1) / numThreads)

theorem pieceSize_pos (size numThreads : ℕ) : 0 < pieceSize size numThreads :=
  Nat.lt_of_lt_of_le Nat.zero_lt_one (Nat.le_max_left _ _)

section Pieces

variable {size t i : ℕ}

/-- The pieces reach the end of the vector. -/
theorem size_le_pieces (ht : 0 < t) : size ≤ t * pieceSize size t := by
  have hceil := Nat.lt_mul_div_succ (size + t - 1) ht
  have hle : t * ((size + t - 1) / t) ≤ t * pieceSize size t :=
    Nat.mul_le_mul_left t (Nat.le_max_right _ _)
  rw [Nat.mul_add, Nat.mul_one] at hceil
  omega

/-- The pieces reach no further than one element for each thread. -/
theorem pieces_le (ht : 0 < t) : t * pieceSize size t ≤ size + t := by
  have hceil := Nat.mul_div_le (size + t - 1) t
  rw [pieceSize, ← Nat.mul_max_mul_left]
  omega

/-- There are no more elements in the pieces than twice the size, if it is not exceeded by the
number of threads already. -/
theorem pieces_le_max (ht : 0 < t) : t * pieceSize size t ≤ max t (2 * size) := by
  rcases Nat.lt_or_ge t size with hlt | hge
  · have : t * pieceSize size t ≤ size + t := pieces_le ht
    omega
  · have hone : pieceSize size t = 1 := by
      have : (size + t - 1) / t ≤ 1 := by
        have := Nat.div_lt_iff_lt_mul (x := size + t - 1) (y := 2) ht
        omega
      rw [pieceSize]
      omega
    rw [hone, Nat.mul_one]
    exact Nat.le_max_left _ _

/-- Without overflow, thread `i` begins at the `i`-th multiple. -/
theorem startIdx_eq {k : ℕ} (hfit : t * k < 2 ^ 64) (hi : i < t) : startIdx k i = i * k :=
  Nat.mod_eq_of_lt (Nat.lt_of_le_of_lt (Nat.mul_le_mul_right k hi.le) hfit)

/-- Without overflow, thread `i` ends at the next multiple or at the end of the vector. -/
theorem endIdx_eq {k : ℕ} (hfit : t * k < 2 ^ 64) (hi : i < t) :
    endIdx size k i = min ((i + 1) * k) size := by
  have hnext : (i + 1) * k < 2 ^ 64 := Nat.lt_of_le_of_lt (Nat.mul_le_mul_right k hi) hfit
  rw [endIdx, startIdx_eq hfit hi, addSize, ← Nat.succ_mul, Nat.mod_eq_of_lt hnext]

end Pieces

/-! ### The threads of `sort` -/

/-- The elements a thread sorts. -/
def ThreadArg.Sorts (a : ThreadArg) (j : ℕ) : Prop := a.startIdx ≤ j ∧ j < a.startIdx + a.count

/-- The threads sort disjoint ranges that make up `[0, size)`. -/
structure Partitions (args : List ThreadArg) (size : ℕ) : Prop where
  inside : ∀ a ∈ args, ∀ j, a.Sorts j → j < size
  disjoint : args.Pairwise fun a b => ∀ j, ¬(a.Sorts j ∧ b.Sorts j)
  cover : ∀ j < size, ∃ a ∈ args, a.Sorts j

section Workers

variable {size t : ℕ}

theorem elementsPerThread_eq (ht : 0 < t) (hfit : size + t < 2 ^ 64) :
    elementsPerThread size t = pieceSize size t := by
  have hsum : subSize (addSize size t) 1 = size + t - 1 := by
    rw [addSize, Nat.mod_eq_of_lt hfit, subSize]
    omega
  rw [elementsPerThread, hsum, pieceSize]
  show (if (size + t - 1) / t = 0 then 1 else (size + t - 1) / t) = _
  split
  · next hzero => rw [hzero]; rfl
  · next hpos => exact (Nat.max_eq_right (Nat.one_le_iff_ne_zero.mpr hpos)).symm

theorem mem_workers {k : ℕ} {a : ThreadArg} :
    a ∈ workers size k t ↔ (∃ i < t, threadArg size k i = a) ∧ 0 < a.count := by
  simp [workers, and_comm]

variable {k i j : ℕ}

/-- A thread that begins inside the vector sorts its piece. -/
theorem threadArg_eq (hfit : t * k < 2 ^ 64) (hsize : size < 2 ^ 64) (hi : i < t)
    (hstart : i * k ≤ size) :
    threadArg size k i = ⟨i * k, min ((i + 1) * k) size - i * k⟩ := by
  have hnext : i * k ≤ (i + 1) * k := Nat.mul_le_mul_right k (Nat.le_succ i)
  rw [threadArg, startIdx_eq hfit hi, endIdx_eq hfit hi, subSize]
  congr 1
  omega

theorem sorts_threadArg (hfit : t * k < 2 ^ 64) (hsize : size < 2 ^ 64) (hi : i < t)
    (hstart : i * k ≤ size) :
    (threadArg size k i).Sorts j ↔ i * k ≤ j ∧ j < (i + 1) * k ∧ j < size := by
  have hnext : i * k ≤ (i + 1) * k := Nat.mul_le_mul_right k (Nat.le_succ i)
  rw [threadArg_eq hfit hsize hi hstart]
  show i * k ≤ j ∧ j < i * k + (min ((i + 1) * k) size - i * k) ↔ _
  omega

/-- A thread that begins past the end of the vector is started too, on a range that begins
there: `end - start` wraps around. -/
theorem threadArg_of_lt (hfit : t * k < 2 ^ 64) (hi : i < t) (hstart : size < i * k) :
    (threadArg size k i).startIdx = i * k ∧ 0 < (threadArg size k i).count := by
  have hlt : i * k < 2 ^ 64 := Nat.lt_of_le_of_lt (Nat.mul_le_mul_right k hi.le) hfit
  rw [threadArg, startIdx_eq hfit hi, endIdx_eq hfit hi, subSize]
  refine ⟨rfl, ?_⟩
  show 0 < (min ((i + 1) * k) size + 2 ^ 64 - i * k) % 2 ^ 64
  omega

/-- If every thread begins inside the vector, the threads divide it among them. -/
theorem workers_partition (hfit : t * k < 2 ^ 64) (hsize : size < 2 ^ 64) (hk : 0 < k)
    (hcover : size ≤ t * k) (hstart : ∀ i < t, i * k ≤ size) :
    Partitions (workers size k t) size where
  inside a ha j hj := by
    obtain ⟨⟨i, hi, rfl⟩, -⟩ := mem_workers.mp ha
    exact ((sorts_threadArg hfit hsize hi (hstart i hi)).mp hj).2.2
  disjoint := by
    refine List.Pairwise.filter _ (List.pairwise_map.mpr ?_)
    refine (List.pairwise_lt_range (n := t)).imp_of_mem fun {i i'} hi hi' hlt j hj => ?_
    have hi := List.mem_range.mp hi
    have hi' := List.mem_range.mp hi'
    have hfst := (sorts_threadArg hfit hsize hi (hstart _ hi)).mp hj.1
    have hsnd := (sorts_threadArg hfit hsize hi' (hstart _ hi')).mp hj.2
    have hnext : (i + 1) * k ≤ i' * k := Nat.mul_le_mul_right k hlt
    omega
  cover j hj := by
    have hdiv : j / k < t :=
      (Nat.div_lt_iff_lt_mul hk).mpr (Nat.lt_of_lt_of_le hj hcover)
    have hlow : j / k * k ≤ j := Nat.div_mul_le_self j k
    have hhigh : j < (j / k + 1) * k := by
      rw [Nat.mul_comm]
      exact Nat.lt_mul_div_succ j hk
    have hsorts := (sorts_threadArg hfit hsize hdiv (hstart _ hdiv)).mpr ⟨hlow, hhigh, hj⟩
    refine ⟨_, mem_workers.mpr ⟨⟨_, hdiv, rfl⟩, ?_⟩, hsorts⟩
    unfold ThreadArg.Sorts at hsorts
    omega

/-- **When the threads divide the vector among them**: exactly if the last thread does not
begin past its end. -/
theorem workers_partition_iff (size t : ℕ) (ht : 1 ≤ t) (hfit : size + t < 2 ^ 64) :
    Partitions (workers size (elementsPerThread size t) t) size ↔
      (t - 1) * max 1 ((size + t - 1) / t) ≤ size := by
  rw [elementsPerThread_eq ht hfit]
  have hfits : t * pieceSize size t < 2 ^ 64 := Nat.lt_of_le_of_lt (pieces_le ht) hfit
  constructor
  · intro hparts
    by_contra hlast
    have hlt : size < (t - 1) * pieceSize size t := Nat.lt_of_not_ge hlast
    obtain ⟨hstart, hcount⟩ := threadArg_of_lt hfits (Nat.sub_lt ht Nat.zero_lt_one) hlt
    have hmem := mem_workers.mpr ⟨⟨t - 1, Nat.sub_lt ht Nat.zero_lt_one, rfl⟩, hcount⟩
    -- its first index is one that it sorts
    have hinside := hparts.inside _ hmem _ ⟨Nat.le_refl _, Nat.lt_add_of_pos_right hcount⟩
    omega
  · intro hlast
    refine workers_partition hfits (by omega) (pieceSize_pos size t) (size_le_pieces ht) ?_
    intro i hi
    exact Nat.le_trans (Nat.mul_le_mul_right _ (Nat.le_sub_one_of_lt hi)) hlast

/-- The program's own vector of 8,000,000 elements and 8 threads. -/
theorem main_partition : Partitions (workers 8000000 (elementsPerThread 8000000 8) 8) 8000000 :=
  (workers_partition_iff 8000000 8 (by decide) (by decide)).mpr (by decide)

/-- Five elements and four threads: the pieces have two elements, and the last thread begins
at index 6. -/
theorem five_not_partition : ¬ Partitions (workers 5 (elementsPerThread 5 4) 4) 5 := by
  intro h
  have hmem : ⟨6, 2 ^ 64 - 1⟩ ∈ workers 5 (elementsPerThread 5 4) 4 := by decide
  exact absurd (h.inside _ hmem 6 ⟨Nat.le_refl 6, by decide⟩) (by decide)

end Workers

/-! ### `merge` merges -/

section Refinement

variable {α : Type*} [LinearOrder α] [OrderTop α] {v : List α}

omit [LinearOrder α] [OrderTop α] in
/-- What is left of the piece of thread `i`. -/
def runs (v : List α) (currentIdx endIdx : ℕ → ℕ) (i : ℕ) : List α :=
  (v.take (endIdx i)).drop (currentIdx i)

omit [LinearOrder α] [OrderTop α] in
theorem runs_update (v : List α) (currentIdx endIdx : ℕ → ℕ) (j : ℕ) :
    runs v (Function.update currentIdx j (currentIdx j + 1)) endIdx =
      advance (runs v currentIdx endIdx) j := by
  funext i
  rcases eq_or_ne i j with rfl | hne
  · rw [runs, advance, Function.update_self, Function.update_self, runs, List.tail_drop]
  · rw [runs, advance, Function.update_of_ne hne, Function.update_of_ne hne, runs]

variable {currentIdx endIdx : ℕ → ℕ}

/-- The body of the inner loop looks at the first element of a run, if there is one. -/
theorem scanStep_eq {i : ℕ} (hend : endIdx i ≤ v.length) :
    scanStep v currentIdx endIdx (leastHead (runs v currentIdx endIdx) i) i =
      some (leastHead (runs v currentIdx endIdx) (i + 1)) := by
  have hlen : (v.take (endIdx i)).length = endIdx i := List.length_take_of_le hend
  rw [scanStep, leastHead]
  split
  · next hlt =>
    have hcur : currentIdx i < (v.take (endIdx i)).length := hlen.symm ▸ hlt
    have hrun : runs v currentIdx endIdx i =
        v[currentIdx i] :: (v.take (endIdx i)).drop (currentIdx i + 1) := by
      rw [runs, List.drop_eq_getElem_cons hcur, List.getElem_take]
    rw [hrun, List.getElem?_eq_getElem (Nat.lt_of_lt_of_le hlt hend)]
    rfl
  · next hge =>
    have hrun : runs v currentIdx endIdx i = [] :=
      List.drop_eq_nil_of_le (hlen.symm ▸ Nat.le_of_not_lt hge)
    rw [hrun]

/-- **The inner loop searches the runs**, and reads `v` only where it has elements. -/
theorem scan_eq {t : ℕ} (hend : ∀ i < t, endIdx i ≤ v.length) :
    scan v currentIdx endIdx t = some (leastHead (runs v currentIdx endIdx) t) := by
  induction t with
  | zero => rfl
  | succ t ih =>
      have hscan := ih fun i hi => hend i (Nat.lt_succ_of_lt hi)
      rw [scan] at hscan ⊢
      rw [List.range_succ, List.foldlM_append, hscan]
      show (scanStep v currentIdx endIdx _ t).bind _ = _
      rw [scanStep_eq (hend t (Nat.lt_succ_self t))]
      rfl

/-- **The outer loop merges the runs.** -/
theorem mergeLoop_eq {t : ℕ} (hend : ∀ i < t, endIdx i ≤ v.length) :
    ∀ (n : ℕ) (currentIdx : ℕ → ℕ) (result : List α),
      mergeLoop v endIdx t n currentIdx result =
        some (result ++ mergeRuns t n (runs v currentIdx endIdx)) := by
  intro n
  induction n with
  | zero =>
      intro currentIdx result
      rw [mergeLoop, mergeRuns, List.append_nil]
  | succ n ih =>
      intro currentIdx result
      rw [mergeLoop, scan_eq hend]
      show mergeLoop v endIdx t n _ _ = _
      rw [ih, runs_update, mergeRuns, List.append_assoc]
      rfl

omit [LinearOrder α] [OrderTop α] in
/-- The first `t` pieces are the first `t * k` elements. -/
theorem rest_runs (v : List α) (k t : ℕ) :
    rest (runs v (fun i => i * k) fun i => (i + 1) * k) t = (v.take (t * k) : Multiset α) := by
  induction t with
  | zero => simp [rest]
  | succ t ih =>
      have hsplit : v.take ((t + 1) * k) =
          v.take (t * k) ++ (v.take ((t + 1) * k)).drop (t * k) := by
        conv_lhs => rw [← List.take_append_drop (t * k) (v.take ((t + 1) * k))]
        rw [List.take_take, Nat.min_eq_left (Nat.mul_le_mul_right k (Nat.le_succ t))]
      rw [rest, Finset.sum_range_succ, ← rest, ih, hsplit, ← Multiset.coe_add]
      rfl

end Refinement

section Merged

variable (m : MultithreadSort)

/-- The pieces of `merge`, when nothing overflows. -/
theorem runs_eq {t : ℕ} {k i : ℕ} (hfit : t * k < 2 ^ 64) (hi : i < t) :
    runs m.v (startIdx k) (endIdx m.v.length k) i = (m.v.take ((i + 1) * k)).drop (i * k) := by
  rw [runs, startIdx_eq hfit hi, endIdx_eq hfit hi]
  congr 1
  rcases Nat.le_total ((i + 1) * k) m.v.length with h | h
  · rw [Nat.min_eq_left h]
  · rw [Nat.min_eq_right h, List.take_of_length_le h, List.take_length]

/-- **`merge` sorts**: if the piece of every thread is sorted, `merge` never reads `v` out of
range and leaves in it the same elements, sorted. -/
theorem merge_sorts (hthreads : 1 ≤ m.numThreads)
    (hk : m.numElementsPerThread = max 1 ((m.v.length + m.numThreads - 1) / m.numThreads))
    (hsorted : ∀ i < m.numThreads,
      ((m.v.take (min ((i + 1) * m.numElementsPerThread) m.v.length)).drop
        (i * m.numElementsPerThread)).Pairwise (· ≤ ·)) :
    ∃ result, m.merge = some result ∧ result.Pairwise (· ≤ ·) ∧ result.Perm m.v := by
  change m.numElementsPerThread = pieceSize m.v.length m.numThreads at hk
  have hfit : m.numThreads * m.numElementsPerThread < 2 ^ 64 := by
    have hmax : m.numThreads * pieceSize m.v.length m.numThreads ≤ max m.numThreads (2 * m.v.length) :=
      pieces_le_max hthreads
    have hsize := m.size_lt
    have ht := m.numThreads_lt
    rw [hk]
    omega
  set k := m.numElementsPerThread
  have hpieces : Sorted (runs m.v (startIdx k) (endIdx m.v.length k)) m.numThreads := by
    intro i hi
    rw [runs, startIdx_eq hfit hi, endIdx_eq hfit hi]
    exact hsorted i hi
  have hrest : rest (runs m.v (startIdx k) (endIdx m.v.length k)) m.numThreads = m.v := by
    have hall : m.v.length ≤ m.numThreads * k := hk ▸ size_le_pieces hthreads
    calc rest (runs m.v (startIdx k) (endIdx m.v.length k)) m.numThreads
        = rest (runs m.v (fun i => i * k) fun i => (i + 1) * k) m.numThreads :=
          Finset.sum_congr rfl fun i hi => by rw [runs_eq m hfit (Finset.mem_range.mp hi)]; rfl
      _ = m.v := by rw [rest_runs, List.take_of_length_le hall]
  obtain ⟨hsort, hperm⟩ := mergeRuns_sorts hpieces
  rw [hrest, Multiset.coe_card] at hsort hperm
  have hend : ∀ i < m.numThreads, endIdx m.v.length k i ≤ m.v.length :=
    fun i _ => Nat.min_le_right _ _
  exact ⟨_, mergeLoop_eq hend _ _ [], hsort, Multiset.coe_eq_coe.mp hperm⟩

/-- Three threads and four elements, all `INT_MAX` but one: the last round advances the index
of the first piece past its end. -/
def maxSorter : MultithreadSort where
  v := [⊤, ⊤, ⟨7, by decide⟩, ⊤]
  numThreads := 3
  numElementsPerThread := 2
  size_lt := by decide
  numThreads_lt := by decide

theorem maxSorter_merge : ∃ result, maxSorter.merge = some result ∧ result.Pairwise (· ≤ ·) ∧
    result.Perm maxSorter.v := by
  refine merge_sorts maxSorter (by decide) rfl fun i hi => ?_
  obtain rfl | rfl | rfl : i = 0 ∨ i = 1 ∨ i = 2 := by
    change i < 3 at hi
    omega
  · decide
  · decide
  · decide

end Merged

end Apue.ParallelSort
