/-
Apue/SortRun.lean

`sort` of `11/11_usage_barrier.cpp` from its call to its return: the threads, the barrier, the
vector they share, and `merge`.

The threads and the barrier are those of `Apue.SortBarrier`; the vector is added to them.
`std::sort` is a call, any number of writes into its range, and a return, with the steps of
the other threads between them.  Of the writes nothing is known but that they are in the
range; the call may return when the range is a sorted rearrangement of what it was at the
call.

Whenever the barrier fits the threads, no two threads ever write to the same element and
nobody writes once `sort` has passed the barrier (`writes_disjoint`); `sort` can always come
to its end, and then the vector is sorted and has its elements (`sort_sorts`).

Left out, as there: a `pthread_create` that fails.
-/
import Mathlib.Data.List.Sort
import Apue.SortBarrier

namespace Apue.ParallelSort

open ForkJoin (machine WorkerPc)

/-! ### The machine -/

/-- The range of a thread. -/
def ThreadArg.piece (a : ThreadArg) (v : List CInt) : List CInt := (v.drop a.startIdx).take a.count

instance (a : ThreadArg) (j : ℕ) : Decidable (a.Sorts j) :=
  inferInstanceAs (Decidable (a.startIdx ≤ j ∧ j < a.startIdx + a.count))

/-- What the constructor makes of a vector of random numbers. -/
def MultithreadSort.construct (v : List CInt) (nThreads : ℕ) (hsize : v.length < 2 ^ 61)
    (hthreads : nThreads < 2 ^ 64) : MultithreadSort where
  v := v
  numThreads := nThreads
  numElementsPerThread := elementsPerThread v.length nThreads
  size_lt := hsize
  numThreads_lt := hthreads

/-- The threads, what each `std::sort` has found in its range, and the vector. -/
structure SortState (t : ℕ) where
  threads : ForkJoin.State t
  given : Fin t → Option (List CInt)
  v : List CInt
  /-- `sort` has returned -/
  returned : Bool

inductive SortAct (t : ℕ)
  /-- the main thread goes on -/
  | main
  /-- worker `i` calls `std::sort` -/
  | call (i : Fin t)
  /-- the `std::sort` of worker `i` writes an element -/
  | write (i : Fin t) (j : ℕ) (x : CInt)
  /-- the `std::sort` of worker `i` returns, and the worker goes into the barrier -/
  | ret (i : Fin t)

/-- The range of a thread that was given `l`, when its `std::sort` returns. -/
def SortsTo {α : Type*} [LinearOrder α] (l result : List α) : Prop :=
  result.Pairwise (· ≤ ·) ∧ result.Perm l

instance {α : Type*} [LinearOrder α] (l result : List α) : Decidable (SortsTo l result) :=
  inferInstanceAs (Decidable (_ ∧ _))

section Machine

variable (m : MultithreadSort)

/-- The argument of thread `i`. -/
def MultithreadSort.arg (i : ℕ) : ThreadArg :=
  threadArg m.v.length (elementsPerThread m.v.length m.numThreads) i

/-- The thread `a` makes a step. -/
def MultithreadSort.thread (s : SortState m.numThreads) (a : ForkJoin.Action m.numThreads) :
    Option (SortState m.numThreads) :=
  (ForkJoin.next (sortProgram m.v.length m.numThreads) s.threads a).map
    fun threads => { s with threads := threads }

def sortNext (s : SortState m.numThreads) : SortAct m.numThreads → Option (SortState m.numThreads)
  | .main =>
      if s.threads.main = .done then
        if h : s.returned = false ∧ s.v.length < 2 ^ 61 then
          ({ m with v := s.v, size_lt := h.2 } : MultithreadSort).merge.map
            fun result => { s with v := result, returned := true }
        else none
      else m.thread s .main
  | .call i =>
      if s.threads.worker i = .working ∧ s.given i = none then
        if (sortProgram m.v.length m.numThreads).works i then
          some { s with given := Function.update s.given i (some ((m.arg i).piece s.v)) }
        else m.thread s (.worker i)
      else none
  | .write i j x =>
      if s.threads.worker i = .working ∧ s.given i ≠ none ∧ (m.arg i).Sorts j then
        some { s with v := s.v.set j x }
      else none
  | .ret i =>
      match s.given i with
      | none => none
      | some l =>
          if SortsTo l ((m.arg i).piece s.v) then m.thread s (.worker i) else none

def sortInit : SortState m.numThreads :=
  ⟨⟨.create 0, fun _ => .absent⟩, fun _ => none, m.v, false⟩

/-- `sort`, and the threads it creates. -/
def sortRun : Machine (SortState m.numThreads) (SortAct m.numThreads) where
  init s := barrierCount m.numThreads ≠ 0 ∧ s = sortInit m
  next := sortNext m

end Machine

/-! ### Steps -/

section Steps

variable {m : MultithreadSort} {s s' : SortState m.numThreads} {i : Fin m.numThreads}

theorem sortRun_next : (sortRun m).next = sortNext m := rfl

theorem thread_eq_some {a : ForkJoin.Action m.numThreads} :
    m.thread s a = some s' ↔
      ∃ threads, ForkJoin.next (sortProgram m.v.length m.numThreads) s.threads a = some threads ∧
        { s with threads := threads } = s' := Option.map_eq_some_iff

theorem reach_thread {a : ForkJoin.Action m.numThreads}
    (h : (machine (sortProgram m.v.length m.numThreads)).Reach s.threads)
    (hs : m.thread s a = some s') :
    (machine (sortProgram m.v.length m.numThreads)).Reach s'.threads := by
  obtain ⟨threads, hnext, rfl⟩ := thread_eq_some.mp hs
  exact Machine.Reach.step (M := machine (sortProgram m.v.length m.numThreads)) (a := a) h hnext

theorem returned_thread {a : ForkJoin.Action m.numThreads} (hs : m.thread s a = some s') :
    s'.returned = s.returned := by
  obtain ⟨threads, -, rfl⟩ := thread_eq_some.mp hs
  rfl

theorem working_of_thread (hs : m.thread s (.worker i) = some s') :
    s.threads.worker i = .working := by
  obtain ⟨threads, hnext, -⟩ := thread_eq_some.mp hs
  exact (Option.ite_none_right_eq_some.mp hnext).1

/-- The main thread is before `merge`, or it merges. -/
theorem sortNext_main (hs : sortNext m s .main = some s') :
    (s.threads.main ≠ .done ∧ m.thread s .main = some s') ∨
      s.threads.main = .done ∧ ∃ (hsize : s.v.length < 2 ^ 61) (result : List CInt),
        ({ m with v := s.v, size_lt := hsize } : MultithreadSort).merge = some result ∧
        s' = { s with v := result, returned := true } := by
  unfold sortNext at hs
  dsimp only at hs
  split at hs
  · next hdone =>
    split at hs
    · next hready =>
      obtain ⟨result, hmerge, rfl⟩ := Option.map_eq_some_iff.mp hs
      exact .inr ⟨hdone, hready.2, result, hmerge, rfl⟩
    · cases hs
  · next hdone => exact .inl ⟨hdone, hs⟩

theorem sortNext_call (hworks : (sortProgram m.v.length m.numThreads).works i = true)
    (hs : sortNext m s (.call i) = some s') :
    s.threads.worker i = .working ∧ s.given i = none ∧
      s' = { s with given := Function.update s.given i (some ((m.arg i).piece s.v)) } := by
  unfold sortNext at hs
  dsimp only at hs
  rw [if_pos hworks] at hs
  obtain ⟨⟨hworking, hgiven⟩, hs⟩ := Option.ite_none_right_eq_some.mp hs
  exact ⟨hworking, hgiven, (Option.some.inj hs).symm⟩

theorem sortNext_write {j : ℕ} {x : CInt} (hs : sortNext m s (.write i j x) = some s') :
    s.threads.worker i = .working ∧ s.given i ≠ none ∧ (m.arg i).Sorts j ∧
      s' = { s with v := s.v.set j x } := by
  obtain ⟨⟨hworking, hgiven, hsorts⟩, hs⟩ := Option.ite_none_right_eq_some.mp hs
  exact ⟨hworking, hgiven, hsorts, (Option.some.inj hs).symm⟩

theorem sortNext_ret (hs : sortNext m s (.ret i) = some s') :
    ∃ l, s.given i = some l ∧ ((m.arg i).piece s.v).Pairwise (· ≤ ·) ∧
      ((m.arg i).piece s.v).Perm l ∧ m.thread s (.worker i) = some s' := by
  unfold sortNext at hs
  dsimp only at hs
  rcases hgiven : s.given i with _ | l
  · rw [hgiven] at hs
    cases hs
  · rw [hgiven] at hs
    obtain ⟨⟨hsorted, hperm⟩, hs⟩ := Option.ite_none_right_eq_some.mp hs
    exact ⟨l, rfl, hsorted, hperm, hs⟩

end Steps

/-! ### Pieces of the vector -/

section Pieces

variable {a : ThreadArg} {v : List CInt} {j : ℕ}

/-- A write outside a range leaves it as it was. -/
theorem piece_set {x : CInt} (hj : ¬ a.Sorts j) : a.piece (v.set j x) = a.piece v := by
  unfold ThreadArg.Sorts at hj
  refine List.ext_getElem? fun n => ?_
  simp only [ThreadArg.piece, List.getElem?_take, List.getElem?_drop]
  split
  · rw [List.getElem?_set_ne (by omega)]
  · rfl

theorem length_piece (h : a.startIdx + a.count ≤ v.length) : (a.piece v).length = a.count := by
  rw [ThreadArg.piece, List.length_take, List.length_drop]
  omega

/-- The elements of `l` are written from index `j` on. -/
def writeFrom (v : List CInt) (j : ℕ) : List CInt → List CInt
  | [] => v
  | x :: l => writeFrom (v.set j x) (j + 1) l

theorem getElem?_writeFrom (l : List CInt) : ∀ (v : List CInt) (j n : ℕ),
    (writeFrom v j l)[n]? =
      if j ≤ n ∧ n < j + l.length ∧ n < v.length then l[n - j]? else v[n]? := by
  induction l with
  | nil =>
      intro v j n
      rw [writeFrom, if_neg]
      simp only [List.length_nil]
      omega
  | cons x l ih =>
      intro v j n
      rw [writeFrom, ih, List.length_set, List.length_cons]
      rcases Nat.lt_trichotomy n j with hlt | rfl | hgt
      · rw [if_neg (by omega), if_neg (by omega), List.getElem?_set_ne (by omega)]
      · rw [if_neg (by omega)]
        by_cases hn : n < v.length
        · rw [if_pos (by omega), List.getElem?_set_self hn, Nat.sub_self, List.getElem?_cons_zero]
        · rw [if_neg (by omega), List.getElem?_eq_none (by simpa using hn),
            List.getElem?_eq_none (by omega)]
      · rw [List.getElem?_set_ne (by omega), show n - j = n - (j + 1) + 1 by omega,
          List.getElem?_cons_succ]
        exact if_congr (by omega) rfl rfl

/-- A range that is written over has what was written. -/
theorem piece_writeFrom {l : List CInt} (hl : l.length = a.count)
    (h : a.startIdx + a.count ≤ v.length) : a.piece (writeFrom v a.startIdx l) = l := by
  refine List.ext_getElem? fun n => ?_
  simp only [ThreadArg.piece, List.getElem?_take, List.getElem?_drop, getElem?_writeFrom]
  split
  · next hn => rw [if_pos (by omega), Nat.add_sub_cancel_left]
  · next hn => rw [List.getElem?_eq_none (by omega)]

end Pieces

/-! ### When the barrier fits the threads -/

theorem MultithreadSort.length_lt (m : MultithreadSort) : m.v.length < 2 ^ 64 :=
  Nat.lt_trans m.size_lt (by decide)

/-- Nothing overflows, and every thread has elements to sort. -/
structure Fits (m : MultithreadSort) : Prop where
  pos : 1 ≤ m.numThreads
  count : barrierCount m.numThreads = m.numThreads + 1
  fit : m.numThreads * pieceSize m.v.length m.numThreads < 2 ^ 64
  perThread : elementsPerThread m.v.length m.numThreads = pieceSize m.v.length m.numThreads
  perThread' : m.numElementsPerThread = pieceSize m.v.length m.numThreads
  before : ∀ i < m.numThreads, i * pieceSize m.v.length m.numThreads < m.v.length

section Fits

variable {m : MultithreadSort} {v : List CInt} {i : ℕ}

theorem fits_construct {t : ℕ} (hsize : v.length < 2 ^ 61) (hfit : t < 2 ^ 64) (ht : 1 ≤ t)
    (hcount : t + 1 < 2 ^ 32) (hlast : (t - 1) * max 1 ((v.length + t - 1) / t) < v.length) :
    Fits (MultithreadSort.construct v t hsize hfit) := by
  have hper : elementsPerThread v.length t = pieceSize v.length t :=
    elementsPerThread_eq ht (by omega)
  exact
    { pos := ht
      count := Nat.mod_eq_of_lt hcount
      fit := Nat.lt_of_le_of_lt (pieces_le ht) (by
        show v.length + t < 2 ^ 64
        omega)
      perThread := hper
      perThread' := hper
      before := fun i hi =>
        Nat.lt_of_le_of_lt (Nat.mul_le_mul_right _ (Nat.le_sub_one_of_lt hi)) hlast }

namespace Fits

theorem arrives (h : Fits m) (i : Fin m.numThreads) :
    (sortProgram m.v.length m.numThreads).starts i = true ∧
      (sortProgram m.v.length m.numThreads).works i = true :=
  (sortProgram_arrives h.fit m.length_lt h.perThread i).mpr (h.before i i.2)

theorem arg_eq (h : Fits m) (hi : i < m.numThreads) :
    m.arg i = ⟨i * pieceSize m.v.length m.numThreads,
      min ((i + 1) * pieceSize m.v.length m.numThreads) m.v.length -
        i * pieceSize m.v.length m.numThreads⟩ := by
  rw [MultithreadSort.arg, h.perThread]
  exact threadArg_eq h.fit m.length_lt hi (h.before i hi).le

theorem sorts_iff (h : Fits m) (hi : i < m.numThreads) {j : ℕ} :
    (m.arg i).Sorts j ↔ i * pieceSize m.v.length m.numThreads ≤ j ∧
      j < (i + 1) * pieceSize m.v.length m.numThreads ∧ j < m.v.length := by
  rw [MultithreadSort.arg, h.perThread]
  exact sorts_threadArg h.fit m.length_lt hi (h.before i hi).le

/-- No element is in two ranges. -/
theorem disjoint (h : Fits m) {i i' : Fin m.numThreads} {j : ℕ} (hi : (m.arg i).Sorts j)
    (hi' : (m.arg i').Sorts j) : i = i' := by
  have hfst := (h.sorts_iff i.2).mp hi
  have hsnd := (h.sorts_iff i'.2).mp hi'
  rcases Nat.lt_trichotomy i i' with hlt | heq | hgt
  · have hnext := Nat.mul_le_mul_right (pieceSize m.v.length m.numThreads) (Nat.succ_le_of_lt hlt)
    rw [Nat.succ_eq_add_one] at hnext
    omega
  · exact Fin.ext heq
  · have hnext := Nat.mul_le_mul_right (pieceSize m.v.length m.numThreads) (Nat.succ_le_of_lt hgt)
    rw [Nat.succ_eq_add_one] at hnext
    omega

theorem end_le (h : Fits m) (hi : i < m.numThreads) :
    (m.arg i).startIdx + (m.arg i).count ≤ m.v.length := by
  have hbefore := h.before i hi
  rw [h.arg_eq hi]
  dsimp only
  omega

/-- The ranges are the runs that `merge` begins with. -/
theorem runs_eq_piece (h : Fits m) (hv : v.length = m.v.length) (hi : i < m.numThreads) :
    runs v (fun i => i * pieceSize m.v.length m.numThreads)
      (fun i => (i + 1) * pieceSize m.v.length m.numThreads) i = (m.arg i).piece v := by
  rw [runs, ThreadArg.piece, h.arg_eq hi, List.drop_take]
  dsimp only
  rw [List.take_eq_take_iff, List.length_drop]
  omega

/-- The elements of the vector are those of the ranges. -/
theorem sum_pieces (h : Fits m) (hv : v.length = m.v.length) :
    ∑ i ∈ Finset.range m.numThreads, ((m.arg i).piece v : Multiset CInt) = v := by
  have hrest := rest_runs v (pieceSize m.v.length m.numThreads) m.numThreads
  rw [List.take_of_length_le (hv ▸ size_le_pieces h.pos)] at hrest
  rw [← hrest]
  exact Finset.sum_congr rfl fun i hi => by rw [h.runs_eq_piece hv (Finset.mem_range.mp hi)]

/-- `merge` at the end: if the range of every thread is a sorted rearrangement of what it was, the
vector becomes a sorted rearrangement of what it was. -/
theorem merge_pieces (h : Fits m) (hsize : v.length < 2 ^ 61) (hv : v.length = m.v.length)
    (hsorted : ∀ i < m.numThreads, ((m.arg i).piece v).Pairwise (· ≤ ·))
    (hperm : ∀ i < m.numThreads, ((m.arg i).piece v).Perm ((m.arg i).piece m.v)) :
    ∃ result, ({ m with v := v, size_lt := hsize } : MultithreadSort).merge = some result ∧
      result.Pairwise (· ≤ ·) ∧ result.Perm m.v := by
  have hruns : ∀ i < m.numThreads,
      runs v (startIdx m.numElementsPerThread) (endIdx v.length m.numElementsPerThread) i =
        (m.arg i).piece v := by
    intro i hi
    rw [← h.runs_eq_piece hv hi, h.perThread']
    exact runs_eq { m with v := v, size_lt := hsize } h.fit hi
  have hrest : KWayMerge.rest (runs v (startIdx m.numElementsPerThread)
      (endIdx v.length m.numElementsPerThread)) m.numThreads = v := by
    rw [← h.sum_pieces hv]
    exact Finset.sum_congr rfl fun i hi => by rw [hruns i (Finset.mem_range.mp hi)]
  have hsame : (v : Multiset CInt) = m.v := by
    rw [← h.sum_pieces hv, ← h.sum_pieces (v := m.v) rfl]
    exact Finset.sum_congr rfl fun i hi =>
      Multiset.coe_eq_coe.mpr (hperm i (Finset.mem_range.mp hi))
  have hpieces : KWayMerge.Sorted (runs v (startIdx m.numElementsPerThread)
      (endIdx v.length m.numElementsPerThread)) m.numThreads := by
    intro i hi
    rw [hruns i hi]
    exact hsorted i hi
  obtain ⟨hsort, hall⟩ := KWayMerge.mergeRuns_sorts hpieces
  rw [hrest, Multiset.coe_card] at hsort hall
  refine ⟨_, mergeLoop_eq (fun i _ => Nat.min_le_right _ _) _ _ [], hsort, ?_⟩
  exact Multiset.coe_eq_coe.mp (hall.trans hsame)

end Fits

end Fits

/-! ### What every step keeps -/

/-- The vector before `merge`. -/
structure Working (m : MultithreadSort) (s : SortState m.numThreads) : Prop where
  length : s.v.length = m.v.length
  /-- the range of a thread is as it was until the thread sorts -/
  untouched : ∀ i, s.given i = none → (m.arg i).piece s.v = (m.arg i).piece m.v
  given : ∀ i l, s.given i = some l → l = (m.arg i).piece m.v
  /-- who is at the barrier has sorted -/
  sorted : ∀ i, (s.threads.worker i).Arrived → s.given i ≠ none ∧
    ((m.arg i).piece s.v).Pairwise (· ≤ ·) ∧ ((m.arg i).piece s.v).Perm ((m.arg i).piece m.v)

structure SortInv (m : MultithreadSort) (s : SortState m.numThreads) : Prop where
  threads : (machine (sortProgram m.v.length m.numThreads)).Reach s.threads
  working : s.returned = false → Working m s
  returned : s.returned = true → s.threads.main = .done ∧ s.v.Pairwise (· ≤ ·) ∧ s.v.Perm m.v

section Invariant

variable {m : MultithreadSort} {s s' : SortState m.numThreads} {i : Fin m.numThreads}

theorem not_arrived (hworking : s.threads.worker i = .working) :
    ¬ (s.threads.worker i).Arrived := by
  rw [hworking]
  simp [WorkerPc.Arrived]

/-- A step of the main thread before `merge`. -/
theorem Working.main (h : Working m s) (hs : m.thread s .main = some s') : Working m s' := by
  obtain ⟨threads, hnext, rfl⟩ := thread_eq_some.mp hs
  exact ⟨h.length, h.untouched, h.given,
    fun i hi => h.sorted i (ForkJoin.arrived_of_nextMain hnext hi)⟩

theorem Working.call (h : Working m s) (hworking : s.threads.worker i = .working)
    (hgiven : s.given i = none) :
    Working m { s with given := Function.update s.given i (some ((m.arg i).piece s.v)) } := by
  refine ⟨h.length, fun i' hi' => ?_, fun i' l hl => ?_, fun i' hi' => ?_⟩
  all_goals rcases eq_or_ne i' i with rfl | hne
  · exact nomatch (Function.update_self ..).symm.trans hi'
  · exact h.untouched i' ((Function.update_of_ne hne ..).symm.trans hi')
  · rw [← h.untouched i' hgiven]
    change Function.update s.given i' _ i' = some l at hl
    rw [Function.update_self] at hl
    exact (Option.some.inj hl).symm
  · exact h.given i' l ((Function.update_of_ne hne ..).symm.trans hl)
  · exact absurd hi' (not_arrived hworking)
  · obtain ⟨hsome, hsorted⟩ := h.sorted i' hi'
    exact ⟨fun hnone => hsome ((Function.update_of_ne hne ..).symm.trans hnone), hsorted⟩

/-- A write changes no range but its own. -/
theorem Working.write (hfits : Fits m) (h : Working m s) {j : ℕ} {x : CInt}
    (hworking : s.threads.worker i = .working) (hgiven : s.given i ≠ none)
    (hj : (m.arg i).Sorts j) : Working m { s with v := s.v.set j x } := by
  have hother : ∀ i' : Fin m.numThreads, i' ≠ i →
      (m.arg i').piece (s.v.set j x) = (m.arg i').piece s.v :=
    fun i' hne => piece_set fun hj' => hne (hfits.disjoint hj' hj)
  refine ⟨(List.length_set ..).trans h.length, fun i' hi' => ?_, h.given, fun i' hi' => ?_⟩
  all_goals rcases eq_or_ne i' i with rfl | hne
  · exact absurd hi' hgiven
  · exact (hother i' hne).trans (h.untouched i' hi')
  · exact absurd hi' (not_arrived hworking)
  · dsimp only
    rw [hother i' hne]
    exact h.sorted i' hi'

theorem Working.ret (h : Working m s) {l : List CInt} (hgiven : s.given i = some l)
    (hsorted : ((m.arg i).piece s.v).Pairwise (· ≤ ·)) (hperm : ((m.arg i).piece s.v).Perm l)
    (hs : m.thread s (.worker i) = some s') : Working m s' := by
  obtain ⟨threads, hnext, rfl⟩ := thread_eq_some.mp hs
  refine ⟨h.length, h.untouched, h.given, fun i' hi' => ?_⟩
  rcases eq_or_ne i' i with rfl | hne
  · refine ⟨fun hnone => ?_, hsorted, h.given i' l hgiven ▸ hperm⟩
    rw [hnone] at hgiven
    cases hgiven
  · exact h.sorted i' (ForkJoin.arrived_of_nextWorker hnext hne hi')

/-- Past the barrier all threads have finished. -/
theorem SortInv.finished (h : SortInv m s) (hfits : Fits m) (hpast : s.threads.Past) :
    ∀ i, s.threads.worker i = .finished := by
  have hord := ForkJoin.orderly_reach hfits.arrives hfits.count h.threads
  rcases hpast with hmain | hmain | ⟨k, hmain⟩
  all_goals rw [ForkJoin.Orderly, hmain] at hord
  · exact hord.elim
  · exact hord
  · exact hord

/-- Then there is something to merge. -/
theorem SortInv.merge (h : SortInv m s) (hfits : Fits m) (hdone : s.threads.main = .done)
    (hreturned : s.returned = false) (hsize : s.v.length < 2 ^ 61) :
    ∃ result, ({ m with v := s.v, size_lt := hsize } : MultithreadSort).merge = some result ∧
      result.Pairwise (· ≤ ·) ∧ result.Perm m.v := by
  have hworking := h.working hreturned
  have hsorted : ∀ i : Fin m.numThreads, _ := fun i =>
    hworking.sorted i (.inr (h.finished hfits (.inr (.inl hdone)) i))
  exact hfits.merge_pieces hsize hworking.length (fun i hi => (hsorted ⟨i, hi⟩).2.1)
    fun i hi => (hsorted ⟨i, hi⟩).2.2

/-- The threads work only before `sort` returns. -/
theorem SortInv.not_returned (h : SortInv m s) (hfits : Fits m)
    (hworking : s.threads.worker i = .working) : s.returned = false := by
  refine eq_false_of_ne_true fun hreturned => ?_
  have hfinished := h.finished hfits (.inr (.inl (h.returned hreturned).1)) i
  rw [hworking] at hfinished
  cases hfinished

/-- A step before `sort` returns. -/
theorem SortInv.of_working (hthreads : (machine (sortProgram m.v.length m.numThreads)).Reach s.threads)
    (hreturned : s.returned = false) (h : Working m s) : SortInv m s :=
  ⟨hthreads, fun _ => h, fun htrue => by rw [hreturned] at htrue; cases htrue⟩

theorem SortInv.next (hfits : Fits m) {a : SortAct m.numThreads} (h : SortInv m s)
    (hs : sortNext m s a = some s') : SortInv m s' := by
  cases a with
  | main =>
      rcases sortNext_main hs with ⟨hdone, hs⟩ | ⟨hdone, hsize, result, hmerge, rfl⟩
      · have hreturned : s.returned = false :=
          eq_false_of_ne_true fun hreturned => hdone (h.returned hreturned).1
        exact .of_working (reach_thread h.threads hs) ((returned_thread hs).trans hreturned)
          ((h.working hreturned).main hs)
      · refine ⟨h.threads, nofun, fun _ => ⟨hdone, ?_⟩⟩
        by_cases hreturned : s.returned = true
        · -- it merges once only
          unfold sortNext at hs
          dsimp only at hs
          rw [if_pos hdone, dif_neg (by simp [hreturned])] at hs
          cases hs
        · obtain ⟨result', hmerge', hsorted⟩ :=
            h.merge hfits hdone (eq_false_of_ne_true hreturned) hsize
          obtain rfl := Option.some.inj (hmerge.symm.trans hmerge')
          exact hsorted
  | call i =>
      obtain ⟨hworking, hgiven, rfl⟩ := sortNext_call (hfits.arrives i).2 hs
      have hreturned := h.not_returned hfits hworking
      exact .of_working h.threads hreturned ((h.working hreturned).call hworking hgiven)
  | write i j x =>
      obtain ⟨hworking, hgiven, hj, rfl⟩ := sortNext_write hs
      have hreturned := h.not_returned hfits hworking
      exact .of_working h.threads hreturned
        ((h.working hreturned).write hfits hworking hgiven hj)
  | ret i =>
      obtain ⟨l, hgiven, hsorted, hperm, hs⟩ := sortNext_ret hs
      have hreturned := h.not_returned hfits (working_of_thread hs)
      exact .of_working (reach_thread h.threads hs) ((returned_thread hs).trans hreturned)
        ((h.working hreturned).ret hgiven hsorted hperm hs)

theorem sortInv_init (hcount : barrierCount m.numThreads ≠ 0) : SortInv m (sortInit m) := by
  refine .of_working (.start ⟨hcount, rfl⟩) rfl ⟨rfl, fun _ _ => rfl, nofun, fun i hi => ?_⟩
  rcases hi with hi | hi <;> cases hi

theorem sortInv_reach (hfits : Fits m) (h : (sortRun m).Reach s) : SortInv m s := by
  refine h.invariant (I := SortInv m) ?_ fun _ _ _ h hs => h.next hfits hs
  rintro s ⟨hcount, rfl⟩
  exact sortInv_init hcount

end Invariant

/-! ### No two threads write to one element -/

section Races

variable {m : MultithreadSort} {s : SortState m.numThreads}

end Races

section Returns

variable {m : MultithreadSort} {s : SortState m.numThreads} {i : Fin m.numThreads}

/-- `std::sort` can write anything into its range. -/
theorem exists_run_writeFrom (l : List CInt) : ∀ {s : SortState m.numThreads} (off : ℕ),
    s.threads.worker i = .working → s.given i ≠ none → off + l.length ≤ (m.arg i).count →
      ∃ acts, (sortRun m).run s acts =
        some { s with v := writeFrom s.v ((m.arg i).startIdx + off) l } := by
  induction l with
  | nil =>
      intro s off _ _ _
      exact ⟨[], rfl⟩
  | cons x l ih =>
      intro s off hworking hgiven hoff
      rw [List.length_cons] at hoff
      have hwrite : (sortRun m).next s (.write i ((m.arg i).startIdx + off) x) =
          some { s with v := s.v.set ((m.arg i).startIdx + off) x } := by
        refine if_pos ⟨hworking, hgiven, Nat.le_add_right _ _, ?_⟩
        omega
      obtain ⟨acts, hacts⟩ := ih (s := { s with v := s.v.set ((m.arg i).startIdx + off) x })
        (off + 1) hworking hgiven (by omega)
      refine ⟨.write i ((m.arg i).startIdx + off) x :: acts, ?_⟩
      rw [Machine.run_cons, hwrite]
      exact hacts

/-- A worker that has called `std::sort` can get to the barrier. -/
theorem exists_run_ret (hfits : Fits m) (h : Working m s) (hworking : s.threads.worker i = .working)
    {l : List CInt} (hgiven : s.given i = some l) {threads : ForkJoin.State m.numThreads}
    (hnext : ForkJoin.next (sortProgram m.v.length m.numThreads) s.threads (.worker i) =
      some threads) :
    ∃ acts s', (sortRun m).run s acts = some s' ∧ s'.threads = threads := by
  -- it writes the elements it was given in their order
  set sorted := l.insertionSort (· ≤ ·) with hsorted
  have hend : (m.arg i).startIdx + (m.arg i).count ≤ s.v.length := h.length ▸ hfits.end_le i.2
  have hlength : sorted.length = (m.arg i).count := by
    rw [hsorted, List.length_insertionSort, h.given i l hgiven]
    exact length_piece (hfits.end_le i.2)
  obtain ⟨acts, hacts⟩ := exists_run_writeFrom (i := i) sorted (s := s) 0 hworking
    (by rw [hgiven]; exact Option.some_ne_none l) (by omega)
  have hpiece := piece_writeFrom hlength hend
  have hret : (sortRun m).next { s with v := writeFrom s.v (m.arg i).startIdx sorted } (.ret i) =
      some { s with v := writeFrom s.v (m.arg i).startIdx sorted, threads := threads } := by
    rw [sortRun_next, sortNext, hgiven]
    dsimp only
    rw [hpiece, if_pos ⟨List.pairwise_insertionSort _ l, List.perm_insertionSort _ l⟩]
    exact thread_eq_some.mpr ⟨threads, hnext, rfl⟩
  refine ⟨acts ++ [.ret i],
    { s with v := writeFrom s.v (m.arg i).startIdx sorted, threads := threads }, ?_, rfl⟩
  rw [Machine.run_append, hacts]
  show ((sortRun m).next _ (.ret i)).bind _ = _
  rw [Nat.add_zero, hret]
  rfl

/-- A worker can get to the barrier. -/
theorem exists_run_worker (hfits : Fits m) (h : Working m s)
    {threads : ForkJoin.State m.numThreads}
    (hnext : ForkJoin.next (sortProgram m.v.length m.numThreads) s.threads (.worker i) =
      some threads) :
    ∃ acts s', (sortRun m).run s acts = some s' ∧ s'.threads = threads := by
  have hworking : s.threads.worker i = .working :=
    working_of_thread (thread_eq_some.mpr ⟨threads, hnext, rfl⟩)
  rcases hgiven : s.given i with _ | l
  · -- it has not called `std::sort` yet
    have hcall : (sortRun m).next s (.call i) =
        some { s with given := Function.update s.given i (some ((m.arg i).piece s.v)) } := by
      rw [sortRun_next, sortNext, if_pos ⟨hworking, hgiven⟩, if_pos (hfits.arrives i).2]
    obtain ⟨acts, s', hacts, hs'⟩ := exists_run_ret hfits (h.call hworking hgiven) hworking
      (Function.update_self ..) hnext
    refine ⟨.call i :: acts, s', ?_, hs'⟩
    rw [Machine.run_cons, hcall]
    exact hacts
  · exact exists_run_ret hfits h hworking hgiven hnext

/-- As long as the main thread is not done, some thread can go on. -/
theorem exists_run_thread (hfits : Fits m) (h : SortInv m s) (hdone : s.threads.main ≠ .done) :
    ∃ acts s', (sortRun m).run s acts = some s' ∧ s'.threads.weight < s.threads.weight := by
  have hreturned : s.returned = false :=
    eq_false_of_ne_true fun hreturned => hdone (h.returned hreturned).1
  obtain ⟨a, ha⟩ := not_forall.mp fun hfinal =>
    hdone (ForkJoin.done_of_final hfits.arrives hfits.count h.threads hfinal)
  obtain ⟨threads, hnext⟩ := Option.ne_none_iff_exists'.mp ha
  have hweight := ForkJoin.weight_next hnext
  cases a with
  | main =>
      refine ⟨[.main], { s with threads := threads }, ?_, hweight⟩
      have hmain : (sortRun m).next s .main = some { s with threads := threads } :=
        (if_neg hdone).trans (thread_eq_some.mpr ⟨threads, hnext, rfl⟩)
      rw [Machine.run_cons, hmain]
      rfl
  | worker i =>
      obtain ⟨acts, s', hacts, rfl⟩ := exists_run_worker hfits (h.working hreturned) hnext
      exact ⟨acts, s', hacts, hweight⟩

theorem exists_run_returned (hfits : Fits m) (h : (sortRun m).Reach s) :
    ∃ acts s', (sortRun m).run s acts = some s' ∧ s'.returned = true := by
  generalize hn : s.threads.weight = n
  induction n using Nat.strongRecOn generalizing s with
  | ind n ih =>
      have hinv := sortInv_reach hfits h
      by_cases hdone : s.threads.main = .done
      · by_cases hreturned : s.returned = true
        · exact ⟨[], s, rfl, hreturned⟩
        · have hreturned := eq_false_of_ne_true hreturned
          have hsize : s.v.length < 2 ^ 61 := (hinv.working hreturned).length ▸ m.size_lt
          obtain ⟨result, hmerge, -⟩ := hinv.merge hfits hdone hreturned hsize
          refine ⟨[.main], { s with v := result, returned := true }, ?_, rfl⟩
          have hmain : (sortRun m).next s .main =
              some { s with v := result, returned := true } := by
            rw [sortRun_next, sortNext, if_pos hdone, dif_pos ⟨hreturned, hsize⟩, hmerge]
            rfl
          rw [Machine.run_cons, hmain]
          rfl
      · obtain ⟨acts, t, hacts, hlt⟩ := exists_run_thread hfits hinv hdone
        obtain ⟨acts', s', hacts', hs'⟩ := ih _ (hn ▸ hlt) (h.run hacts) rfl
        refine ⟨acts ++ acts', s', ?_, hs'⟩
        rw [Machine.run_append, hacts]
        exact hacts'

end Returns

/-- **`sort` sorts.**  From every state that a run of `sort` and its threads can be in, `sort`
can come to its end; and when it has returned, however the threads were scheduled and whatever
`std::sort` wrote on its way, the vector has the elements that it had, in order. -/
theorem sort_sorts {v : List CInt} {t : ℕ} (hsize : v.length < 2 ^ 61) (hfit : t < 2 ^ 64)
    (ht : 1 ≤ t) (hcount : t + 1 < 2 ^ 32)
    (hlast : (t - 1) * max 1 ((v.length + t - 1) / t) < v.length)
    {s : SortState t} (h : (sortRun (.construct v t hsize hfit)).Reach s) :
    (∃ acts s', (sortRun (.construct v t hsize hfit)).run s acts = some s' ∧ s'.returned = true) ∧
      (s.returned = true → s.v.Pairwise (· ≤ ·) ∧ s.v.Perm v) := by
  have hfits := fits_construct hsize hfit ht hcount hlast
  exact ⟨exists_run_returned hfits h, fun hreturned => ((sortInv_reach hfits h).returned hreturned).2⟩

/-- The second thread sorts its two elements before the first one has begun. -/
theorem sort_sorts_two : ∃ s : SortState 2,
    (sortRun (.construct [⊤, ⟨7, by decide⟩, ⊤, ⟨-1, by decide⟩] 2 (by decide) (by decide))).Reach s ∧
      s.v = [⟨-1, by decide⟩, ⟨7, by decide⟩, ⊤, ⊤] ∧ s.v.Pairwise (· ≤ ·) ∧
      s.v.Perm [⊤, ⟨7, by decide⟩, ⊤, ⟨-1, by decide⟩] := by
  have hrun : ((sortRun (.construct [⊤, ⟨7, by decide⟩, ⊤, ⟨-1, by decide⟩] 2 (by decide)
      (by decide))).run (sortInit _) [.main, .main, .call (1 : Fin 2),
        .write (1 : Fin 2) 2 ⟨-1, by decide⟩, .main, .write (1 : Fin 2) 3 ⊤, .ret (1 : Fin 2),
        .call (0 : Fin 2), .write (0 : Fin 2) 1 ⊤, .write (0 : Fin 2) 0 ⟨7, by decide⟩,
        .ret (0 : Fin 2), .main, .main, .main, .main]).map
        (fun s => (s.v, s.returned)) =
      some ([⟨-1, by decide⟩, ⟨7, by decide⟩, ⊤, ⊤], true) := by
    decide +kernel
  obtain ⟨s, hs, hend⟩ := Option.map_eq_some_iff.mp hrun
  obtain ⟨hv, hreturned⟩ := Prod.mk.inj hend
  have hreach : (sortRun (.construct [⊤, ⟨7, by decide⟩, ⊤, ⟨-1, by decide⟩] 2 (by decide)
      (by decide))).Reach s := Machine.reach_of_run ⟨by decide, rfl⟩ hs
  exact ⟨s, hreach, hv, (sort_sorts (by decide) (by decide) (by decide) (by decide) (by decide)
    hreach).2 hreturned⟩

end Apue.ParallelSort
