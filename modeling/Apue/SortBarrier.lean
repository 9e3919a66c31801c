/-
Apue/SortBarrier.lean

The threads of the parallel sort of `11/11_usage_barrier.cpp` and its barrier.

The constructor initialises the barrier with the number of threads and one more, for
`sort` itself.  `sort` creates a thread only if its piece is not empty, and joins all
handles.  A piece that begins exactly at the end of the vector is empty; one that begins
behind it is not, since the subtraction wraps around, and `std::sort` is called with
iterators outside the vector.  Either way a thread is missing at the barrier, and `sort`
waits for ever.

`pthread_barrier_init` takes an `unsigned` of 32 bits.  Left out: a `pthread_create` that
fails, which ends `sort` with an exception.
-/
import Apue.ForkJoin
import Apue.ParallelSort

namespace Apue.ParallelSort

open ForkJoin (Program machine)

/-- The count that the constructor passes to `pthread_barrier_init`. -/
def barrierCount (numThreads : ℕ) : ℕ := (numThreads + 1) % 2 ^ 32

/-- `sort` and its workers.  A worker gets to the barrier if `std::sort` is called with a
range of the vector. -/
def sortProgram (size numThreads : ℕ) : Program numThreads where
  starts i := 0 < (threadArg size (elementsPerThread size numThreads) i).count
  works i :=
    let arg := threadArg size (elementsPerThread size numThreads) i
    arg.startIdx + arg.count ≤ size
  count := barrierCount numThreads

/-- The barrier fits the threads: `sort` creates as many as there are handles, they and
`sort` itself are as many as the barrier waits for, `sort` can pass it and every run that
does not go on has ended, and no handle is joined that was not created. -/
structure BarrierMatches (size numThreads : ℕ) : Prop where
  created : (workers size (elementsPerThread size numThreads) numThreads).length = numThreads
  count : barrierCount numThreads = numThreads + 1
  passes : ∃ s, (machine (sortProgram size numThreads)).Reach s ∧ s.Past
  ends : ∀ s, (machine (sortProgram size numThreads)).Reach s →
    (∀ a, (machine (sortProgram size numThreads)).next s a = none) → s.main = .done
  joins : ∀ s, (machine (sortProgram size numThreads)).Reach s → s.main ≠ .badJoin

section Arrivals

variable {size t i : ℕ}

/-- Which threads are created and get to the barrier: those whose piece begins before the
end of the vector. -/
theorem arrives_iff {k : ℕ} (hfit : t * k < 2 ^ 64) (hsize : size < 2 ^ 64) (hk : 0 < k)
    (hi : i < t) :
    (0 < (threadArg size k i).count ∧
      (threadArg size k i).startIdx + (threadArg size k i).count ≤ size) ↔ i * k < size := by
  rcases Nat.lt_or_ge size (i * k) with hlt | hge
  · obtain ⟨hstart, -⟩ := threadArg_of_lt hfit hi hlt
    rw [hstart]
    omega
  · have hnext : (i + 1) * k = i * k + k := Nat.succ_mul i k
    rw [threadArg_eq hfit hsize hi hge]
    dsimp only
    omega

theorem sortProgram_arrives (hfit : t * pieceSize size t < 2 ^ 64) (hsize : size < 2 ^ 64)
    (hpiece : elementsPerThread size t = pieceSize size t) (i : Fin t) :
    ((sortProgram size t).starts i = true ∧ (sortProgram size t).works i = true) ↔
      i * pieceSize size t < size := by
  rw [← arrives_iff hfit hsize (pieceSize_pos size t) i.2]
  simp [sortProgram, hpiece]

end Arrivals

/-- **When the barrier fits the threads**: exactly if the count fits into an `unsigned` and
the piece of the last thread begins before the end of the vector. -/
theorem barrierMatches_iff (size t : ℕ) (ht : 1 ≤ t) (hsize : size < 2 ^ 61) :
    BarrierMatches size t ↔
      t + 1 < 2 ^ 32 ∧ (t - 1) * max 1 ((size + t - 1) / t) < size := by
  -- nothing overflows, if the count does not
  have hfits : t + 1 < 2 ^ 32 → t * pieceSize size t < 2 ^ 64 ∧
      elementsPerThread size t = pieceSize size t := by
    intro hcount
    exact ⟨Nat.lt_of_le_of_lt (pieces_le ht) (by omega), elementsPerThread_eq ht (by omega)⟩
  have hlast : t - 1 < t := Nat.sub_lt ht Nat.zero_lt_one
  constructor
  · intro h
    have hcount : t + 1 < 2 ^ 32 := by
      have := h.count
      rw [barrierCount] at this
      omega
    obtain ⟨hfit, hpiece⟩ := hfits hcount
    refine ⟨hcount, ?_⟩
    by_contra hge
    obtain ⟨s, hs, hpast⟩ := h.passes
    -- the last thread is missing
    refine ForkJoin.not_past (j := ⟨t - 1, hlast⟩) (fun harrives => hge ?_) h.count hs hpast
    exact (sortProgram_arrives hfit (by omega) hpiece _).mp harrives
  · rintro ⟨hcount, hlt⟩
    obtain ⟨hfit, hpiece⟩ := hfits hcount
    have hbefore : ∀ i < t, i * pieceSize size t < size := fun i hi =>
      Nat.lt_of_le_of_lt (Nat.mul_le_mul_right _ (Nat.le_sub_one_of_lt hi)) hlt
    have hall : ∀ i, (sortProgram size t).starts i = true ∧ (sortProgram size t).works i = true :=
      fun i => (sortProgram_arrives hfit (by omega) hpiece i).mpr (hbefore i i.2)
    have hbarrier : barrierCount t = t + 1 := Nat.mod_eq_of_lt hcount
    have hends : ∀ s, (machine (sortProgram size t)).Reach s →
        (∀ a, (machine (sortProgram size t)).next s a = none) → s.main = .done :=
      fun s hs hfinal => ForkJoin.done_of_final hall hbarrier hs hfinal
    obtain ⟨s, hs, hfinal⟩ := ForkJoin.exists_final (sortProgram size t)
      (show barrierCount t ≠ 0 by omega)
    refine ⟨?_, hbarrier, ⟨s, hs, .inr (.inl (hends s hs hfinal))⟩, hends, fun s hs hbad => ?_⟩
    · rw [workers, hpiece, List.filter_eq_self.mpr, List.length_map, List.length_range]
      intro a ha
      obtain ⟨i, hi, rfl⟩ := List.mem_map.mp ha
      have := (arrives_iff hfit (by omega) (pieceSize_pos size t) (List.mem_range.mp hi)).mpr
        (hbefore i (List.mem_range.mp hi))
      simpa using this.1
    · have hord := ForkJoin.orderly_reach hall hbarrier hs
      rw [ForkJoin.Orderly, hbad] at hord
      exact hord

/-- The program's own vector and threads. -/
theorem main_barrier : BarrierMatches 8000000 8 :=
  (barrierMatches_iff 8000000 8 (by decide) (by decide)).mpr (by decide)

/-- Four elements and three threads: the pieces have two elements, the third one is empty.
Two threads are created, and `sort` never passes the barrier. -/
theorem four_three_hangs : (workers 4 (elementsPerThread 4 3) 3).length = 2 ∧
    barrierCount 3 = 4 ∧ (∀ s, (machine (sortProgram 4 3)).Reach s → ¬ s.Past) ∧
    ¬ BarrierMatches 4 3 := by
  have hhangs : ∀ s, (machine (sortProgram 4 3)).Reach s → ¬ s.Past := by
    intro s hs
    refine ForkJoin.not_past (j := 2) (fun harrives => ?_) rfl hs
    exact absurd harrives.1 (by decide)
  refine ⟨by decide, rfl, hhangs, fun h => ?_⟩
  obtain ⟨s, hs, hpast⟩ := h.passes
  exact hhangs s hs hpast

end Apue.ParallelSort
