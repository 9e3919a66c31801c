/-
Apue/TimerService.lean

What a set of timers is for, with absolute due times.

The state is a clock, the pending timers (due time and function) and the calls
made so far.  A registration adds a timer due strictly later, whose due time no
pending timer has; a timer fires when the clock shows its due time; and the
clock does not advance past a due time.  The registrations are recorded from the
actions (`registers`).

The invariant (`Inv`) is that the calls and the pending timers are a permutation
of the registrations, with every call before every pending timer.  The four
consequences at the end are what a client relies on.

The functions are elements of an arbitrary type: nothing is assumed of them.
-/
import Mathlib.Data.List.Nodup
import Mathlib.Data.List.Perm.Basic
import Mathlib.Order.Nat
import Apue.Machine

namespace TimerService

variable {F : Type*} [DecidableEq F]

/-- A clock, the pending timers and the calls made. -/
structure State (F : Type*) where
  now : ℕ
  pending : List (ℕ × F)
  calls : List (ℕ × F)

/-- What can happen. -/
inductive Action (F : Type*)
  | register (seconds : ℕ) (f : F)
  | fire (r : ℕ × F)
  | tick

/-- One step of the service. -/
def next (s : State F) : Action F → Option (State F)
  | .register n f =>
      if 0 < n ∧ ∀ r ∈ s.pending, r.1 ≠ s.now + n then
        some { s with pending := (s.now + n, f) :: s.pending }
      else none
  | .fire r =>
      if r ∈ s.pending ∧ r.1 = s.now then
        some { s with pending := s.pending.erase r, calls := s.calls ++ [r] }
      else none
  | .tick =>
      if ∀ r ∈ s.pending, r.1 ≠ s.now then some { s with now := s.now + 1 } else none

/-- The timer that an action registers, with its due time. -/
def registers (s : State F) : Action F → List (ℕ × F)
  | .register n f => [(s.now + n, f)]
  | .fire _ | .tick => []

/-- The service, started at any time, and the registrations made. -/
def service (F : Type*) [DecidableEq F] : Machine (State F × List (ℕ × F)) (Action F) :=
  Machine.recorded ⟨fun s => s.pending = [] ∧ s.calls = [], next⟩ registers

/-- The invariant of the service. -/
structure Inv (s : State F) (registered : List (ℕ × F)) : Prop where
  future : ∀ r ∈ s.pending, s.now ≤ r.1
  past : ∀ c ∈ s.calls, c.1 ≤ s.now
  distinct : (s.pending.map Prod.fst).Nodup
  increasing : s.calls.Pairwise fun a b => a.1 < b.1
  before : ∀ c ∈ s.calls, ∀ r ∈ s.pending, c.1 < r.1
  perm : (s.calls ++ s.pending).Perm registered

omit [DecidableEq F] in
theorem Inv.init {s : State F} (h : s.pending = [] ∧ s.calls = []) : Inv s [] := by
  obtain ⟨h₁, h₂⟩ := h
  constructor <;> simp [h₁, h₂]

section Steps

variable {s : State F} {registered : List (ℕ × F)}

omit [DecidableEq F] in
theorem Inv.nodup (h : Inv s registered) : s.pending.Nodup :=
  h.distinct.of_map

omit [DecidableEq F] in
theorem Inv.register (h : Inv s registered) {n : ℕ} (f : F) (hn : 0 < n)
    (hd : ∀ r ∈ s.pending, r.1 ≠ s.now + n) :
    Inv { s with pending := (s.now + n, f) :: s.pending }
      (registered ++ [(s.now + n, f)]) where
  future := by
    intro r hr
    rcases List.mem_cons.mp hr with rfl | hr
    · exact Nat.le_add_right _ _
    · exact h.future r hr
  past := h.past
  distinct := by
    refine List.nodup_cons.mpr ⟨?_, h.distinct⟩
    rintro hmem
    obtain ⟨r, hr, he⟩ := List.mem_map.mp hmem
    exact hd r hr he
  increasing := h.increasing
  before := by
    intro c hc r hr
    have hpast := h.past c hc
    rcases List.mem_cons.mp hr with rfl | hr
    · show c.1 < s.now + n
      omega
    · exact h.before c hc r hr
  perm := by
    have hmid : (s.calls ++ (s.now + n, f) :: s.pending).Perm
        ((s.calls ++ s.pending) ++ [(s.now + n, f)]) :=
      List.perm_middle.trans (List.perm_append_singleton _ _).symm
    exact hmid.trans (h.perm.append_right _)

theorem Inv.fire (h : Inv s registered) {r : ℕ × F} (hr : r ∈ s.pending)
    (hnow : r.1 = s.now) :
    Inv { s with pending := s.pending.erase r, calls := s.calls ++ [r] } registered where
  future := fun q hq => h.future q (List.mem_of_mem_erase hq)
  past := by
    intro c hc
    rcases List.mem_append.mp hc with hc | hc
    · exact h.past c hc
    · obtain rfl := List.mem_singleton.mp hc
      exact hnow.le
  distinct := h.distinct.sublist (List.erase_sublist.map _)
  increasing := by
    refine List.pairwise_append.mpr ⟨h.increasing, List.pairwise_singleton _ _, ?_⟩
    intro c hc q hq
    obtain rfl := List.mem_singleton.mp hq
    exact h.before c hc q hr
  before := by
    intro c hc q hq
    have hq' := List.mem_of_mem_erase hq
    rcases List.mem_append.mp hc with hc | hc
    · exact h.before c hc q hq'
    · obtain rfl := List.mem_singleton.mp hc
      -- the others are due later: not earlier, and not at the same time
      have hne : q ≠ c := by
        rintro rfl
        exact h.nodup.not_mem_erase hq
      have hdue : q.1 ≠ c.1 := fun e => hne (List.inj_on_of_nodup_map h.distinct hq' hr e)
      have := h.future q hq'
      omega
  perm := by
    have hback : (s.calls ++ [r] ++ s.pending.erase r).Perm (s.calls ++ s.pending) := by
      rw [List.append_assoc]
      exact (List.perm_cons_erase hr).symm.append_left _
    exact hback.trans h.perm

omit [DecidableEq F] in
theorem Inv.tick (h : Inv s registered) (hd : ∀ r ∈ s.pending, r.1 ≠ s.now) :
    Inv { s with now := s.now + 1 } registered :=
  { h with
    future := fun r hr => Nat.lt_of_le_of_ne (h.future r hr) (hd r hr).symm
    past := fun c hc => Nat.le_succ_of_le (h.past c hc) }

end Steps

/-! ### What a client relies on -/

section Client

variable {s : State F} {registered : List (ℕ × F)}

omit [DecidableEq F] in
/-- No two registrations have the same due time. -/
theorem Inv.registered_distinct (h : Inv s registered) :
    (registered.map Prod.fst).Nodup := by
  refine (h.perm.map Prod.fst).nodup_iff.mp ?_
  rw [List.map_append]
  refine List.Nodup.append ?_ h.distinct ?_
  · exact List.pairwise_map.mpr (h.increasing.imp Nat.ne_of_lt)
  · intro d hd hd'
    obtain ⟨c, hc, rfl⟩ := List.mem_map.mp hd
    obtain ⟨r, hr, he⟩ := List.mem_map.mp hd'
    exact absurd (h.before c hc r hr) (by omega)

omit [DecidableEq F] in
/-- Every call is of a registered timer, at its due time. -/
theorem Inv.mem_registered (h : Inv s registered) {c : ℕ × F} (hc : c ∈ s.calls) :
    c ∈ registered :=
  h.perm.subset (List.mem_append_left _ hc)

/-- A timer is called at most once. -/
theorem Inv.count_le_one (h : Inv s registered) (c : ℕ × F) : s.calls.count c ≤ 1 :=
  List.nodup_iff_count_le_one.mp
    (h.increasing.imp fun hlt he => Nat.ne_of_lt hlt (congrArg Prod.fst he)) c

/-- A timer whose due time has passed has been called. -/
theorem Inv.count_eq_one (h : Inv s registered) {r : ℕ × F} (hr : r ∈ registered)
    (hdue : r.1 < s.now) : s.calls.count r = 1 := by
  have hmem : r ∈ s.calls := by
    rcases List.mem_append.mp (h.perm.mem_iff.mpr hr) with hc | hp
    · exact hc
    · exact absurd (h.future r hp) (by omega)
  exact le_antisymm (h.count_le_one r) (List.count_pos_iff.mpr hmem)

end Client

end TimerService
