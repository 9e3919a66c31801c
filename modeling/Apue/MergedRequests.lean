/-
Apue/MergedRequests.lean

A service to which the same request comes again and again, and which need not count: a request
that comes while another one is waiting is one with it.  In the end the service is stopped.

    ask      a request comes
    begin    the service takes the request up
    serve    it is served
    stop     somebody asks for the end
    exit     the service ends

What matters is that no request is lost: once nothing waits and nothing is being served, every
request is followed by a service (`Answers.answered`), and one that began after the request
came.  Nor is anything served that nobody has asked for (`Answers.count`).

A program that refines the service (`answers_of_refines`) has these properties.
-/
import Apue.Machine

namespace MergedRequests

/-- What can be seen. -/
inductive Event
  | ask
  | stop
  | serve
  | exit
  deriving DecidableEq, Repr

structure Service where
  /-- a request is waiting -/
  waiting : Bool
  /-- a request is being served -/
  serving : Bool
  stopping : Bool
  ended : Bool
  deriving DecidableEq, Repr

def Service.start : Service := ⟨false, false, false, false⟩

inductive Act
  | ask
  | stop
  | begin
  | serve
  | exit
  deriving DecidableEq, Repr

def Act.visible : Act → List Event
  | .ask => [.ask]
  | .stop => [.stop]
  | .begin => []
  | .serve => [.serve]
  | .exit => [.exit]

def next (s : Service) (a : Act) : Option Service :=
  if s.ended then none
  else
    match a with
    | .ask => some { s with waiting := true }
    | .stop => some { s with stopping := true }
    | .begin =>
        if s.waiting = true ∧ s.serving = false then
          some { s with waiting := false, serving := true }
        else none
    | .serve => if s.serving then some { s with serving := false } else none
    | .exit => if s.stopping then some { s with ended := true } else none

def service : Machine Service Act where
  init s := s = .start
  next := next

/-- The state of the service and what was seen. -/
structure Answers (s : Service) (h : List Event) : Prop where
  answered : ∀ l r, h = l ++ .ask :: r → .serve ∈ r ∨ s.waiting = true ∨ s.serving = true
  /-- the requests that are under way were not served yet -/
  count : h.count .serve + s.waiting.toNat + s.serving.toNat ≤ h.count .ask
  stop_mem : .stop ∈ h ↔ s.stopping = true
  exit_mem : .exit ∈ h ↔ s.ended = true
  stopping : s.ended = true → s.stopping = true

section Answers

variable {s s' : Service} {h : List Event} {a : Act}

theorem answers_start : Answers .start [] where
  answered l r hlr := by simp at hlr
  count := Nat.le_refl 0
  stop_mem := by simp [Service.start]
  exit_mem := by simp [Service.start]
  stopping := nofun

/-- A request that stands before the last event stood in the history before. -/
theorem ask_of_concat {l r : List Event} {e : Event} (hlr : h ++ [e] = l ++ .ask :: r) :
    e = .ask ∧ r = [] ∨ ∃ r', r = r' ++ [e] ∧ h = l ++ .ask :: r' := by
  rcases List.eq_nil_or_concat r with rfl | ⟨r', e', rfl⟩
  · exact .inl ⟨(List.append_inj' hlr rfl).2 |> List.singleton_inj.mp, rfl⟩
  · rw [List.concat_eq_append, ← List.cons_append, ← List.append_assoc] at hlr
    obtain ⟨hh, he⟩ := List.append_inj' hlr rfl
    obtain rfl := List.singleton_inj.mp he
    exact .inr ⟨r', List.concat_eq_append, hh⟩

theorem Answers.step (hs : Answers s h) (hnext : next s a = some s') :
    Answers s' (h ++ a.visible) := by
  unfold next at hnext
  obtain ⟨hended, hnext⟩ := Option.ite_none_left_eq_some.mp hnext
  cases a with
  | ask =>
      obtain rfl := Option.some.inj hnext
      refine ⟨fun _ _ _ => .inr (.inl rfl), ?_, ?_, ?_, hs.stopping⟩
      · have := hs.count
        simp [Act.visible]
        omega
      · simpa [Act.visible] using hs.stop_mem
      · simpa [Act.visible] using hs.exit_mem
  | stop =>
      obtain rfl := Option.some.inj hnext
      refine ⟨fun l r hlr => ?_, ?_, ?_, ?_, fun _ => rfl⟩
      · rcases ask_of_concat hlr with ⟨he, -⟩ | ⟨r', rfl, hh⟩
        · cases he
        · exact (hs.answered l r' hh).imp_left (List.mem_append_left _)
      · simpa [Act.visible] using hs.count
      · simp [Act.visible]
      · simpa [Act.visible] using hs.exit_mem
  | begin =>
      obtain ⟨⟨hwaiting, hserving⟩, hnext⟩ := Option.ite_none_right_eq_some.mp hnext
      obtain rfl := Option.some.inj hnext
      refine ⟨fun _ _ _ => .inr (.inr rfl), ?_, ?_, ?_, hs.stopping⟩
      · have := hs.count
        simp [Act.visible, hwaiting, hserving] at this ⊢
        omega
      · simpa [Act.visible] using hs.stop_mem
      · simpa [Act.visible] using hs.exit_mem
  | serve =>
      obtain ⟨hserving, hnext⟩ := Option.ite_none_right_eq_some.mp hnext
      obtain rfl := Option.some.inj hnext
      refine ⟨fun l r hlr => ?_, ?_, ?_, ?_, hs.stopping⟩
      · rcases ask_of_concat hlr with ⟨he, -⟩ | ⟨r', rfl, -⟩
        · cases he
        · exact .inl (by simp)
      · have := hs.count
        simp [Act.visible, hserving] at this ⊢
        omega
      · simpa [Act.visible] using hs.stop_mem
      · simpa [Act.visible] using hs.exit_mem
  | exit =>
      obtain ⟨hstopping, hnext⟩ := Option.ite_none_right_eq_some.mp hnext
      obtain rfl := Option.some.inj hnext
      refine ⟨fun l r hlr => ?_, ?_, ?_, ?_, fun _ => hstopping⟩
      · rcases ask_of_concat hlr with ⟨he, -⟩ | ⟨r', rfl, hh⟩
        · cases he
        · exact (hs.answered l r' hh).imp_left (List.mem_append_left _)
      · simpa [Act.visible] using hs.count
      · simpa [Act.visible] using hs.stop_mem
      · simp [Act.visible]

end Answers

/-- A program whose steps are steps of the service, or not seen there. -/
theorem answers_of_refines {σ α : Type*} {C : Machine σ α} {obs : σ → α → List Event}
    {abs : σ → Service} (hinit : ∀ s, C.init s → abs s = .start)
    (hstep : ∀ s a s', C.Reach s → C.next s a = some s' →
      obs s a = [] ∧ abs s' = abs s ∨ ∃ b, next (abs s) b = some (abs s') ∧ b.visible = obs s a)
    {s : σ} {h : List Event} (hreach : (C.recorded obs).Reach (s, h)) : Answers (abs s) h := by
  have hsteps : ∀ s t a s', C.Reach s ∧ abs s = t → C.next s a = some s' →
      obs s a = [] ∧ C.Reach s' ∧ abs s' = t ∨
        ∃ b t', service.next t b = some t' ∧ b.visible = obs s a ∧ C.Reach s' ∧ abs s' = t' := by
    rintro s _ a s' ⟨hs, rfl⟩ hnext
    rcases hstep s a s' hs hnext with ⟨hobs, habs⟩ | ⟨b, hb, hobs⟩
    · exact .inl ⟨hobs, hs.step hnext, habs⟩
    · exact .inr ⟨b, abs s', hb, hobs, hs.step hnext, rfl⟩
  have hrefines : ∃ t, (service.recorded fun _ => Act.visible).Reach (t, h) ∧
      C.Reach s ∧ abs s = t :=
    hreach.refines (fun s hs => ⟨abs s, hinit s hs, .start hs, rfl⟩) hsteps
  obtain ⟨t, ht, -, rfl⟩ := hrefines
  refine ht.invariant (I := fun p => Answers p.1 p.2) ?_ ?_
  · rintro ⟨t, l⟩ ⟨rfl, rfl⟩
    exact answers_start
  · rintro ⟨t, l⟩ b ⟨t', l'⟩ ht hb
    obtain ⟨hb, rfl⟩ := Machine.recorded_next hb
    exact ht.step hb

end MergedRequests
