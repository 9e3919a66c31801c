/-
Apue/TimeSpec.lean

The conversions between time points and `struct timespec`: `to_timespec` and
`to_time_point` of `lib/apue_time.cpp`, the template for durations of `lib/apue.h`, and the
`to_timespec` that `11/8_usage_pthread_mutex_timedlock.cpp` has of its own.

A `system_clock::time_point` is a signed 64-bit count of nanoseconds since the epoch,
`seconds` and `time_t` are signed 64-bit counts of seconds.  A signed operation whose
result does not fit has no result.

`duration_cast` truncates toward zero.  So before the epoch the seconds are rounded up,
and what is left of the nanoseconds is not positive: the pair has the right value, but is
one that `clock_nanosleep` and `pthread_mutex_timedlock` reject, unless it is a whole
number of seconds (`normalised_iff`).  The three conversions agree in this, and
`to_time_point` undoes them (`conversions_agree_and_invert`).
-/
import Mathlib.Algebra.Group.Int.Defs
import Mathlib.Data.Int.Basic
import Mathlib.Tactic.Common

namespace Apue.TimeSpec

/-! ### Durations -/

/-- Nanoseconds in a second. -/
def billion : ℤ := 1000000000

/-- A time that is representable: the count of a `time_point`. -/
abbrev TimePoint : Type := { n : ℤ // -2 ^ 63 ≤ n ∧ n < 2 ^ 63 }

/-- The result of a signed 64-bit operation. -/
def checked (n : ℤ) : Option ℤ := if -2 ^ 63 ≤ n ∧ n < 2 ^ 63 then some n else none

/-- `duration_cast<seconds>` of nanoseconds. -/
def toSeconds (ns : ℤ) : ℤ := ns.tdiv billion

/-- `ns - sec`: the seconds are converted to nanoseconds first. -/
def subSeconds (ns sec : ℤ) : Option ℤ := (checked (sec * billion)).bind fun n => checked (ns - n)

/-- The factor between the units of two durations, a `std::ratio`. -/
structure Ratio where
  num : ℤ
  den : ℤ
  num_pos : 0 < num
  den_pos : 0 < den

/-- The units are the same. -/
def Ratio.one : Ratio := ⟨1, 1, by decide, by decide⟩

/-- `duration_cast` between units with this factor. -/
def durationCast (cf : Ratio) (count : ℤ) : Option ℤ :=
  (checked (count * cf.num)).map fun n => n.tdiv cf.den

/-! ### `to_timespec` -/

/-- `struct timespec`. -/
structure Timespec where
  tvSec : ℤ
  tvNsec : ℤ
  deriving DecidableEq, Repr

/-- `to_timespec` of a time point. -/
def toTimespec (tp : TimePoint) : Option Timespec :=
  let sec := toSeconds tp.1
  (subSeconds tp.1 sec).map fun nanosec => ⟨sec, nanosec⟩

/-- `to_timespec` of a duration, a 64-bit count of a unit with this many nanoseconds. -/
def toTimespecOf (nanos : Ratio) (count : ℤ) : Option Timespec :=
  (durationCast nanos count).bind fun totalNs =>
    let secs := toSeconds totalNs
    (subSeconds totalNs secs).map fun remNanos => ⟨secs, remNanos⟩

/-- `time_point_cast<seconds>`: the seconds since the epoch. -/
def timePointCast (tp : TimePoint) : ℤ := toSeconds tp.1

/-- `to_timespec` of `11/8`.  The difference of the time points is one of their durations,
a count of nanoseconds. -/
def localToTimespec (tp : TimePoint) : Option Timespec :=
  let secs := timePointCast tp
  (subSeconds tp.1 secs).bind fun diff =>
    (durationCast .one diff).map fun ns => ⟨secs, ns⟩

/-- `to_time_point`: the count of the time point. -/
def toTimePoint (ts : Timespec) : Option ℤ :=
  (checked (ts.tvSec * billion)).bind fun n => checked (n + ts.tvNsec)

/-! ### Which pairs it returns -/

theorem checked_of_fits {n : ℤ} (h : -2 ^ 63 ≤ n ∧ n < 2 ^ 63) : checked n = some n := if_pos h

/-- The quotient and the remainder of a division that truncates. -/
theorem billion_mul_tdiv (n : ℤ) :
    n.tdiv billion * billion + n.tmod billion = n := Int.tdiv_mul_add_tmod n billion

/-- The remainder has the sign of the count. -/
theorem tmod_billion_cases (n : ℤ) :
    (0 ≤ n ∧ 0 ≤ n.tmod billion ∧ n.tmod billion < billion) ∨
      (n < 0 ∧ -billion < n.tmod billion ∧ n.tmod billion ≤ 0) := by
  have hpos : (0 : ℤ) < billion := by decide
  rcases Int.lt_or_le n 0 with hneg | hnonneg
  · have hlow := Int.tmod_nonneg (a := -n) billion (by omega)
    have hhigh := Int.tmod_lt_of_pos (-n) hpos
    rw [Int.neg_tmod] at hlow hhigh
    exact .inr ⟨hneg, by omega, by omega⟩
  · exact .inl ⟨hnonneg, Int.tmod_nonneg billion hnonneg, Int.tmod_lt_of_pos n hpos⟩

/-- The whole seconds of a time point lie between it and the epoch. -/
theorem checked_wholeSeconds (tp : TimePoint) :
    checked (tp.1.tdiv billion * billion) = some (tp.1.tdiv billion * billion) := by
  have hsplit := billion_mul_tdiv tp.1
  have hrem := tmod_billion_cases tp.1
  have hbillion : billion = 1000000000 := rfl
  have hfits := tp.2
  exact checked_of_fits (by omega)

/-- No step of the conversion overflows, and it returns the quotient and the remainder. -/
theorem toTimespec_eq (tp : TimePoint) :
    toTimespec tp = some ⟨tp.1.tdiv billion, tp.1.tmod billion⟩ := by
  have hsplit := billion_mul_tdiv tp.1
  have hrem := tmod_billion_cases tp.1
  have hbillion : billion = 1000000000 := rfl
  have hrest : tp.1 - tp.1.tdiv billion * billion = tp.1.tmod billion := by omega
  rw [toTimespec, toSeconds, subSeconds, checked_wholeSeconds, Option.bind_some, hrest,
    checked_of_fits (by omega)]
  rfl

/-- The value of a time point survives, on both sides of the epoch. -/
theorem toTimePoint_toTimespec (tp : TimePoint) :
    (toTimespec tp).bind toTimePoint = some tp.1 := by
  rw [toTimespec_eq, Option.bind_some, toTimePoint, checked_wholeSeconds, Option.bind_some,
    billion_mul_tdiv, checked_of_fits tp.2]

/-! ### The conversions agree -/

/-- A cast to the same unit keeps the count. -/
theorem durationCast_one {n : ℤ} (h : -2 ^ 63 ≤ n ∧ n < 2 ^ 63) :
    durationCast .one n = some n := by
  show (checked (n * 1)).map (fun m => m.tdiv 1) = some n
  rw [Int.mul_one, checked_of_fits h, Option.map_some, Int.tdiv_one]

/-- A duration whose nanoseconds are those of a time point is converted to the same pair. -/
theorem toTimespecOf_of_durationCast {nanos : Ratio} {count : ℤ} {tp : TimePoint}
    (h : durationCast nanos count = some tp.1) : toTimespecOf nanos count = toTimespec tp := by
  rw [toTimespecOf, h]
  rfl

/-- The difference that `11/8` casts is the remainder, which fits. -/
theorem localToTimespec_eq (tp : TimePoint) : localToTimespec tp = toTimespec tp := by
  have hrem := tmod_billion_cases tp.1
  have hbillion : billion = 1000000000 := rfl
  have hpair := toTimespec_eq tp
  obtain ⟨diff, hdiff, hts⟩ := Option.map_eq_some_iff.mp hpair
  have hfits : durationCast .one diff = some diff := by
    refine durationCast_one ?_
    have heq : diff = tp.1.tmod billion := congrArg Timespec.tvNsec hts
    omega
  have hsub : subSeconds tp.1 (timePointCast tp) = some diff := hdiff
  rw [hpair, localToTimespec, hsub, Option.bind_some, hfits]
  exact congrArg some hts

/-- **The conversions agree and invert.**  For every time point, before the epoch too: the
library's conversion, the template on the nanoseconds since the epoch and the conversion of
`11/8` return the same pair, no 64-bit operation overflows, and `to_time_point` returns the
time point.  The other way around, every pair that `to_timespec` can return comes back. -/
theorem conversions_agree_and_invert :
    (∀ tp : TimePoint, ∃ ts, toTimespec tp = some ts ∧ toTimespecOf .one tp.1 = some ts ∧
      localToTimespec tp = some ts ∧ toTimePoint ts = some tp.1) ∧
    ∀ ts, (∃ tp, toTimespec tp = some ts) →
      ∃ tp : TimePoint, toTimePoint ts = some tp.1 ∧ toTimespec tp = some ts := by
  have hback : ∀ tp ts, toTimespec tp = some ts → toTimePoint ts = some tp.1 := by
    intro tp ts hts
    have hinv := toTimePoint_toTimespec tp
    rwa [hts, Option.bind_some] at hinv
  constructor
  · intro tp
    have hts := toTimespec_eq tp
    refine ⟨_, hts, ?_, (localToTimespec_eq tp).trans hts, hback tp _ hts⟩
    exact (toTimespecOf_of_durationCast (durationCast_one tp.2)).trans hts
  · rintro ts ⟨tp, hts⟩
    exact ⟨tp, hback tp ts hts, hts⟩

/-! ### Normalised pairs -/

/-- The pair is what the system calls require: the nanoseconds are less than a second, and
the value is that of the time point. -/
def Normalised (tp : TimePoint) : Prop :=
  ∃ ts, toTimespec tp = some ts ∧ 0 ≤ ts.tvNsec ∧ ts.tvNsec < billion ∧
    ts.tvSec * billion + ts.tvNsec = tp.1

/-- **When the conversion is normalised**: exactly if the time is not before the epoch, or is
a whole number of seconds. -/
theorem normalised_iff (tp : TimePoint) : Normalised tp ↔ 0 ≤ tp.1 ∨ billion ∣ tp.1 := by
  have hrem := tmod_billion_cases tp.1
  constructor
  · rintro ⟨ts, hts, hlow, -, -⟩
    rw [toTimespec_eq] at hts
    obtain rfl := Option.some.inj hts
    change 0 ≤ tp.1.tmod billion at hlow
    rcases hrem with hnonneg | hneg
    · exact .inl hnonneg.1
    · exact .inr (Int.dvd_of_tmod_eq_zero (by omega))
  · intro h
    refine ⟨_, toTimespec_eq tp, ?_, ?_, billion_mul_tdiv tp.1⟩
    · show 0 ≤ tp.1.tmod billion
      rcases h with hnonneg | hdvd
      · exact Int.tmod_nonneg billion hnonneg
      · exact Int.le_of_eq (Int.tmod_eq_zero_of_dvd hdvd).symm
    · show tp.1.tmod billion < billion
      have hpos : (0 : ℤ) < billion := by decide
      omega

/-- One nanosecond before the epoch. -/
theorem beforeEpoch_not_normalised :
    toTimespec ⟨-1, by decide⟩ = some ⟨0, -1⟩ ∧ ¬ Normalised ⟨-1, by decide⟩ := by
  have hpair : toTimespec ⟨-1, by decide⟩ = some ⟨0, -1⟩ := by decide
  refine ⟨hpair, ?_⟩
  rintro ⟨ts, hts, hlow, -, -⟩
  rw [hpair] at hts
  obtain rfl := Option.some.inj hts
  exact absurd hlow (by decide)

end Apue.TimeSpec
