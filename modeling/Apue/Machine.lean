/-
Apue/Machine.lean

Labelled machines: a program and its environment as one partial step
function.

    next s a = some s'

says that action `a` is enabled in state `s` and leads to `s'`.  All
nondeterminism (which thread runs, which completion the kernel delivers, how
many bytes a call transfers) sits in the action, so that a run is a list of
actions and every machine can be executed.

Four things are proved once here and used for every program:

* the invariant rule (`Reach.invariant`);
* runs are reachable (`reach_of_run`), which is how a concrete execution is
  exhibited;
* a machine whose steps decrease a measure can be run to its end
  (`Reach.exists_final`), and the measure bounds its runs (`Reach.length_run_le`);
* a machine simulated by another one reaches only images of reachable states
  (`Simulation.reach`).
-/
import Mathlib.Tactic.Common

/-- A labelled machine: initial states and a partial step function. -/
structure Machine (σ α : Type*) where
  init : σ → Prop
  next : σ → α → Option σ

namespace Machine

variable {σ α τ β : Type*}

/-! ### Reachability -/

/-- The states a machine can be in after finitely many actions. -/
inductive Reach (M : Machine σ α) : σ → Prop
  | start {s} : M.init s → Reach M s
  | step {s a s'} : Reach M s → M.next s a = some s' → Reach M s'

/-- **The invariant rule**: what holds initially and is kept by every action
holds in every reachable state. -/
theorem Reach.invariant {M : Machine σ α} {I : σ → Prop}
    (hinit : ∀ s, M.init s → I s)
    (hstep : ∀ s a s', I s → M.next s a = some s' → I s')
    {s : σ} (h : M.Reach s) : I s := by
  induction h with
  | start h₀ => exact hinit _ h₀
  | step _ hs ih => exact hstep _ _ _ ih hs

/-! ### Runs -/

/-- Execute a list of actions. -/
def run (M : Machine σ α) : σ → List α → Option σ
  | s, [] => some s
  | s, a :: as => (M.next s a).bind fun s' => run M s' as

@[simp] theorem run_nil (M : Machine σ α) (s : σ) : M.run s [] = some s := rfl

@[simp] theorem run_cons (M : Machine σ α) (s : σ) (a : α) (as : List α) :
    M.run s (a :: as) = (M.next s a).bind fun s' => M.run s' as := rfl

theorem run_append (M : Machine σ α) (s : σ) (as bs : List α) :
    M.run s (as ++ bs) = (M.run s as).bind fun s' => M.run s' bs := by
  induction as generalizing s with
  | nil => rfl
  | cons a as ih =>
      rw [List.cons_append, run_cons, run_cons, Option.bind_assoc]
      exact congrArg _ (funext fun s' => ih s')

theorem Reach.run {M : Machine σ α} {as : List α} :
    ∀ {s s' : σ}, M.Reach s → M.run s as = some s' → M.Reach s' := by
  induction as with
  | nil =>
      intro s s' hs h
      obtain rfl := Option.some.inj h
      exact hs
  | cons a as ih =>
      intro s s' hs h
      rw [run_cons] at h
      obtain ⟨t, ht, hrest⟩ := Option.bind_eq_some_iff.mp h
      exact ih (hs.step ht) hrest

/-- A concrete execution exhibits a reachable state. -/
theorem reach_of_run {M : Machine σ α} {s s' : σ} {as : List α}
    (h₀ : M.init s) (h : M.run s as = some s') : M.Reach s' :=
  (Reach.start h₀).run h

/-! ### Restriction to an assumption on the environment -/

/-- The machine whose actions are only those an assumption `ok` allows. -/
def restrict (M : Machine σ α) (ok : σ → α → Prop) [∀ s a, Decidable (ok s a)] :
    Machine σ α where
  init := M.init
  next s a := if ok s a then M.next s a else none

theorem restrict_next {M : Machine σ α} {ok : σ → α → Prop}
    [∀ s a, Decidable (ok s a)] {s s' : σ} {a : α} :
    (M.restrict ok).next s a = some s' ↔ ok s a ∧ M.next s a = some s' := by
  by_cases h : ok s a <;> simp [restrict, h]

theorem Reach.of_restrict {M : Machine σ α} {ok : σ → α → Prop}
    [∀ s a, Decidable (ok s a)] {s : σ} (h : (M.restrict ok).Reach s) : M.Reach s := by
  induction h with
  | start h₀ => exact .start h₀
  | step _ hs ih => exact ih.step (restrict_next.mp hs).2

theorem Reach.restrict_mono {M : Machine σ α} {ok ok' : σ → α → Prop}
    [∀ s a, Decidable (ok s a)] [∀ s a, Decidable (ok' s a)]
    (hok : ∀ s a, ok s a → ok' s a) {s : σ} (h : (M.restrict ok).Reach s) :
    (M.restrict ok').Reach s := by
  induction h with
  | start h₀ => exact .start h₀
  | step _ hs ih =>
      obtain ⟨ha, hs⟩ := restrict_next.mp hs
      exact ih.step (restrict_next.mpr ⟨hok _ _ ha, hs⟩)

/-! ### Termination -/

/-- A machine whose steps all decrease a measure can go on to a state without a next
step. -/
theorem Reach.exists_final {M : Machine σ α} (μ : σ → ℕ)
    (hstep : ∀ s a s', M.next s a = some s' → μ s' < μ s) {s : σ} (h : M.Reach s) :
    ∃ s', M.Reach s' ∧ ∀ a, M.next s' a = none := by
  induction hn : μ s using Nat.strongRecOn generalizing s with
  | ind n ih =>
      by_cases hfinal : ∀ a, M.next s a = none
      · exact ⟨s, h, hfinal⟩
      · obtain ⟨a, ha⟩ := not_forall.mp hfinal
        obtain ⟨s', hs'⟩ := Option.ne_none_iff_exists'.mp ha
        exact ih (μ s') (hn ▸ hstep s a s' hs') (h.step hs') rfl

/-- A machine whose steps all decrease a measure makes no more steps than it says. -/
theorem Reach.length_run_le {M : Machine σ α} (μ : σ → ℕ)
    (hstep : ∀ s a s', M.Reach s → M.next s a = some s' → μ s' < μ s) {as : List α} :
    ∀ {s s' : σ}, M.Reach s → M.run s as = some s' → as.length ≤ μ s := by
  induction as with
  | nil =>
      intro s s' _ _
      exact Nat.zero_le _
  | cons a as ih =>
      intro s s' h hrun
      rw [run_cons] at hrun
      obtain ⟨s₁, hs₁, hrest⟩ := Option.bind_eq_some_iff.mp hrun
      exact Nat.lt_of_le_of_lt (ih (h.step hs₁) hrest) (hstep s a s₁ h hs₁)

/-! ### History -/

/-- The machine that also keeps what was observed at its steps, in order. -/
def recorded (M : Machine σ α) (obs : σ → α → List β) : Machine (σ × List β) α where
  init p := M.init p.1 ∧ p.2 = []
  next p a := (M.next p.1 a).map fun s' => (s', p.2 ++ obs p.1 a)

theorem recorded_next {M : Machine σ α} {obs : σ → α → List β} {s : σ} {l : List β} {a : α}
    {p : σ × List β} (h : (M.recorded obs).next (s, l) a = some p) :
    M.next s a = some p.1 ∧ p.2 = l ++ obs s a := by
  obtain ⟨s', hs', rfl⟩ := Option.map_eq_some_iff.mp h
  exact ⟨hs', rfl⟩

theorem next_recorded {M : Machine σ α} {obs : σ → α → List β} {s s' : σ} {a : α}
    (h : M.next s a = some s') (l : List β) :
    (M.recorded obs).next (s, l) a = some (s', l ++ obs s a) :=
  Option.map_eq_some_iff.mpr ⟨s', h, rfl⟩

/-- Keeping a history does not change what the machine does. -/
theorem Reach.of_recorded {M : Machine σ α} {obs : σ → α → List β} {p : σ × List β}
    (h : (M.recorded obs).Reach p) : M.Reach p.1 := by
  induction h with
  | start h₀ => exact .start h₀.1
  | step _ hs ih => exact ih.step (recorded_next hs).1

/-- Every reachable state is reached with some history. -/
theorem Reach.exists_recorded {M : Machine σ α} {s : σ} (h : M.Reach s)
    (obs : σ → α → List β) : ∃ l, (M.recorded obs).Reach (s, l) := by
  induction h with
  | start h₀ => exact ⟨[], .start ⟨h₀, rfl⟩⟩
  | @step s a s' _ hs ih =>
      obtain ⟨l, hl⟩ := ih
      exact ⟨l ++ obs s a, hl.step (next_recorded hs l)⟩

/-! ### Simulation -/

/-- A simulation of `C` by `A`: every step of `C` is matched by a finite run
of `A`. -/
structure Simulation (C : Machine σ α) (A : Machine τ β) (rel : σ → τ → Prop) :
    Prop where
  init : ∀ s, C.init s → ∃ t, A.init t ∧ rel s t
  step : ∀ s t a s', rel s t → C.next s a = some s' →
    ∃ bs t', A.run t bs = some t' ∧ rel s' t'

/-- Every reachable state of a simulated machine is related to a reachable
state of the machine that simulates it. -/
theorem Simulation.reach {C : Machine σ α} {A : Machine τ β}
    {rel : σ → τ → Prop} (h : Simulation C A rel) {s : σ} (hs : C.Reach s) :
    ∃ t, A.Reach t ∧ rel s t := by
  induction hs with
  | start h₀ =>
      obtain ⟨t, ht, hrel⟩ := h.init _ h₀
      exact ⟨t, .start ht, hrel⟩
  | step _ hstep ih =>
      obtain ⟨t, ht, hrel⟩ := ih
      obtain ⟨bs, t', hrun, hrel'⟩ := h.step _ t _ _ hrel hstep
      exact ⟨t', ht.run hrun, hrel'⟩

/-- A machine whose steps are steps of another one, or not seen there, has only histories of
the other one. -/
theorem Reach.refines {γ : Type*} {C : Machine σ α} {A : Machine τ β} {obs : σ → α → List γ}
    {obs' : τ → β → List γ} {rel : σ → τ → Prop}
    (hinit : ∀ s, C.init s → ∃ t, A.init t ∧ rel s t)
    (hstep : ∀ s t a s', rel s t → C.next s a = some s' →
      obs s a = [] ∧ rel s' t ∨ ∃ b t', A.next t b = some t' ∧ obs' t b = obs s a ∧ rel s' t')
    {s : σ} {l : List γ} (h : (C.recorded obs).Reach (s, l)) :
    ∃ t, (A.recorded obs').Reach (t, l) ∧ rel s t := by
  have hsim : Simulation (C.recorded obs) (A.recorded obs')
      fun p q => q.2 = p.2 ∧ rel p.1 q.1 := by
    refine ⟨?_, ?_⟩
    · rintro ⟨s, l⟩ ⟨hs, rfl⟩
      obtain ⟨t, ht, hrel⟩ := hinit s hs
      exact ⟨(t, []), ⟨ht, rfl⟩, rfl, hrel⟩
    · rintro ⟨s, l⟩ ⟨t, m⟩ a ⟨s', l'⟩ ⟨rfl, hrel⟩ hs
      obtain ⟨hs, rfl⟩ := recorded_next hs
      rcases hstep s t a s' hrel hs with ⟨hobs, hrel'⟩ | ⟨b, t', ht, hobs, hrel'⟩
      · refine ⟨[], (t, m), rfl, ?_, hrel'⟩
        rw [hobs, List.append_nil]
      · refine ⟨[b], (t', m ++ obs' t b), ?_, by rw [hobs], hrel'⟩
        rw [run_cons, next_recorded ht]
        rfl
  obtain ⟨⟨t, m⟩, ht, rfl, hrel⟩ := hsim.reach h
  exact ⟨t, ht, hrel⟩

/-- A measure that every step decreases, but for at most `c` that an action of the environment
adds, bounds the runs with a given number of such actions. -/
theorem Reach.length_run_add_le {M : Machine σ α} (μ : σ → ℕ) (env : α → Bool) (c : ℕ)
    (hstep : ∀ s a s', M.Reach s → M.next s a = some s' →
      μ s' + 1 ≤ μ s + if env a then c else 0) {as : List α} :
    ∀ {s s' : σ}, M.Reach s → M.run s as = some s' →
      as.length + μ s' ≤ μ s + c * as.countP env := by
  induction as with
  | nil =>
      intro s s' _ hrun
      obtain rfl := Option.some.inj hrun
      rw [List.length_nil, List.countP_nil]
      omega
  | cons a as ih =>
      intro s s' h hrun
      rw [run_cons] at hrun
      obtain ⟨s₁, hs₁, hrest⟩ := Option.bind_eq_some_iff.mp hrun
      have hle := ih (h.step hs₁) hrest
      have hone := hstep s a s₁ h hs₁
      rw [List.length_cons, List.countP_cons, Nat.mul_add]
      split at hone
      · next henv =>
        rw [if_pos henv, Nat.mul_one]
        omega
      · next henv =>
        rw [if_neg henv, Nat.mul_zero]
        omega

end Machine
