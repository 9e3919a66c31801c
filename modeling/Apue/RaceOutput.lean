/-
Apue/RaceOutput.lean

Two processes that print at the same time: `8/6_race_for_resources.cpp`, and
`8/7_prevent_race_for_resources.cpp`, in which the child waits for a signal of the parent.

Both print a text one character at a time to an unbuffered standard output, so every
character is a `write` of its own, and the file offset is the same for both processes.

Without the signal every shuffle of the two texts can come out, and nothing else
(`race_outputs`).  With it there is one output, the text of the parent and then that of the
child, and no schedule keeps it from being complete (`race_prevented`).

The texts are arbitrary here; those of the programs are `childText` and `parentText`.
Left out: failing calls.
-/
import Apue.Machine

namespace Apue.RaceOutput

/-- The texts of the programs. -/
def childText : List Char := "from child process\n".toList

def parentText : List Char := "from parent process\n".toList

inductive Who
  | child
  | parent
  deriving DecidableEq, Repr

/-! ### Without the signal -/

/-- What the processes have yet to print, and what came out. -/
structure Race where
  child : List Char
  parent : List Char
  out : List Char
  deriving DecidableEq, Repr

/-- One `putc`. -/
def Race.step (s : Race) : Who → Option Race
  | .child =>
      match s.child with
      | [] => none
      | c :: rest => some { s with child := rest, out := s.out ++ [c] }
  | .parent =>
      match s.parent with
      | [] => none
      | c :: rest => some { s with parent := rest, out := s.out ++ [c] }

/-- `8/6`, after `fork`. -/
def race (child parent : List Char) : Machine Race Who where
  init s := s = ⟨child, parent, []⟩
  next := Race.step

/-- A text with two others in it, each in its order. -/
inductive Shuffle : List Char → List Char → List Char → Prop
  | nil : Shuffle [] [] []
  | left {c : Char} {l r o : List Char} : Shuffle l r o → Shuffle (c :: l) r (c :: o)
  | right {c : Char} {l r o : List Char} : Shuffle l r o → Shuffle l (c :: r) (c :: o)

section Race

variable {child parent : List Char} {s s' : Race}

theorem race_step_cases {x : Who} (hs : s.step x = some s') :
    (∃ c, s.child = c :: s'.child ∧ s'.parent = s.parent ∧ s'.out = s.out ++ [c]) ∨
      ∃ c, s.parent = c :: s'.parent ∧ s'.child = s.child ∧ s'.out = s.out ++ [c] := by
  cases x with
  | child =>
      unfold Race.step at hs
      dsimp only at hs
      split at hs
      case h_1 => exact nomatch hs
      case h_2 c rest hchild =>
          obtain rfl := Option.some.inj hs
          exact .inl ⟨c, hchild, rfl, rfl⟩
  | parent =>
      unfold Race.step at hs
      dsimp only at hs
      split at hs
      case h_1 => exact nomatch hs
      case h_2 c rest hparent =>
          obtain rfl := Option.some.inj hs
          exact .inr ⟨c, hparent, rfl, rfl⟩

/-- However what is left is shuffled, together with what came out it is a shuffle. -/
theorem shuffle_reach (h : (race child parent).Reach s) :
    ∀ o, Shuffle s.child s.parent o → Shuffle child parent (s.out ++ o) := by
  refine h.invariant
    (I := fun s => ∀ o, Shuffle s.child s.parent o → Shuffle child parent (s.out ++ o)) ?_ ?_
  · rintro s rfl o ho
    exact ho
  · intro s x s' ih hs o ho
    rcases race_step_cases hs with ⟨c, hchild, hparent, hout⟩ | ⟨c, hparent, hchild, hout⟩
    · rw [hout, List.append_assoc]
      refine ih _ ?_
      rw [hchild, ← hparent]
      exact .left ho
    · rw [hout, List.append_assoc]
      refine ih _ ?_
      rw [hparent, ← hchild]
      exact .right ho

/-- Any shuffle of what is left can still come out. -/
theorem reach_of_shuffle {l r o : List Char} (ho : Shuffle l r o) :
    ∀ {out : List Char}, (race child parent).Reach ⟨l, r, out⟩ →
      (race child parent).Reach ⟨[], [], out ++ o⟩ := by
  induction ho with
  | nil =>
      intro out h
      rwa [List.append_nil]
  | @left c l r o _ ih =>
      intro out h
      have hnext : (race child parent).Reach ⟨l, r, out ++ [c]⟩ := h.step (a := .child) rfl
      have hend := ih hnext
      rwa [List.append_assoc] at hend
  | @right c l r o _ ih =>
      intro out h
      have hnext : (race child parent).Reach ⟨l, r, out ++ [c]⟩ := h.step (a := .parent) rfl
      have hend := ih hnext
      rwa [List.append_assoc] at hend

theorem race_final_iff :
    (∀ x, (race child parent).next s x = none) ↔ s.child = [] ∧ s.parent = [] := by
  constructor
  · intro hfinal
    constructor
    · rcases hchild : s.child with _ | ⟨c, rest⟩
      · rfl
      · have hnone : s.step .child = none := hfinal .child
        rw [Race.step, hchild] at hnone
        exact nomatch hnone
    · rcases hparent : s.parent with _ | ⟨c, rest⟩
      · rfl
      · have hnone : s.step .parent = none := hfinal .parent
        rw [Race.step, hparent] at hnone
        exact nomatch hnone
  · rintro ⟨hchild, hparent⟩ x
    cases x with
    | child =>
        show s.step .child = none
        rw [Race.step, hchild]
    | parent =>
        show s.step .parent = none
        rw [Race.step, hparent]

/-- **What can come out of the race**: exactly the shuffles of the two texts. -/
theorem race_outputs (child parent out : List Char) :
    (∃ s, (race child parent).Reach s ∧ (∀ x, (race child parent).next s x = none) ∧ s.out = out) ↔
      Shuffle child parent out := by
  constructor
  · rintro ⟨s, hs, hfinal, rfl⟩
    obtain ⟨hchild, hparent⟩ := race_final_iff.mp hfinal
    have hshuffle := shuffle_reach hs []
    rw [hchild, hparent, List.append_nil] at hshuffle
    exact hshuffle .nil
  · intro hshuffle
    have hend := reach_of_shuffle hshuffle (.start (M := race child parent) rfl)
    exact ⟨_, hend, race_final_iff.mpr ⟨rfl, rfl⟩, rfl⟩

end Race

/-! ### With the signal -/

/-- The next operation of the child. -/
inductive ChildPc
  | test                    -- while (sigflag == 0)
  | suspend                 -- sigsuspend(&zeromask)
  | clear                   -- sigflag = 0
  | putc (rest : List Char)
  deriving DecidableEq, Repr

/-- The next operation of the parent. -/
inductive ParentPc
  | putc (c : Char) (rest : List Char)
  | tell                    -- kill(pid, SIGUSR1)
  | done
  deriving DecidableEq, Repr

structure State where
  child : ChildPc
  parent : ParentPc
  sigflag : Bool
  pending : Bool
  out : List Char
  deriving DecidableEq, Repr

/-- The loop of `charatatime` in the parent, and what comes after it. -/
def charatatime : List Char → ParentPc
  | [] => .tell
  | c :: rest => .putc c rest

/-- One operation of one process. -/
def step (childText : List Char) (s : State) : Who → Option State
  | .child =>
      match s.child with
      | .test => some { s with child := if s.sigflag then .clear else .suspend }
      | .suspend =>
          if s.pending then some { s with child := .test, sigflag := true, pending := false }
          else none
      | .clear => some { s with child := .putc childText, sigflag := false }
      | .putc [] => none
      | .putc (c :: rest) => some { s with child := .putc rest, out := s.out ++ [c] }
  | .parent =>
      match s.parent with
      | .putc c rest => some { s with parent := charatatime rest, out := s.out ++ [c] }
      | .tell => some { s with parent := .done, pending := true }
      | .done => none

/-- `8/7`, after `fork`. -/
def ordered (child parent : List Char) : Machine State Who where
  init s := s = ⟨.test, charatatime parent, false, false, []⟩
  next := step child

/-- What the parent has yet to print. -/
def ParentPc.rest : ParentPc → List Char
  | .putc c rest => c :: rest
  | .tell | .done => []

/-- Where both processes are: the child waits until it is told, and prints only when the
parent is done. -/
inductive Inv (child parent : List Char) : State → Prop
  | untold {c : ChildPc} {p : ParentPc} {out : List Char} : c = .test ∨ c = .suspend → p ≠ .done →
      out ++ p.rest = parent → Inv child parent ⟨c, p, false, false, out⟩
  | pending {c : ChildPc} : c = .test ∨ c = .suspend →
      Inv child parent ⟨c, .done, false, true, parent⟩
  | handled {c : ChildPc} : c = .test ∨ c = .clear →
      Inv child parent ⟨c, .done, true, false, parent⟩
  | told {rest out : List Char} : out ++ rest = parent ++ child →
      Inv child parent ⟨.putc rest, .done, false, false, out⟩

section Ordered

variable {child parent : List Char} {s s' : State} {x : Who}

theorem rest_charatatime (l : List Char) : (charatatime l).rest = l ∧ charatatime l ≠ .done := by
  cases l with
  | nil => exact ⟨rfl, nofun⟩
  | cons c l => exact ⟨rfl, nofun⟩

theorem inv_step (h : Inv child parent s) (hs : step child s x = some s') : Inv child parent s' := by
  cases h with
  | @untold c p out hc hp hout =>
      cases x with
      | child =>
          rcases hc with rfl | rfl
          · obtain rfl := Option.some.inj hs
            exact .untold (.inr rfl) hp hout
          · exact nomatch hs
      | parent =>
          cases p with
          | putc a rest =>
              obtain rfl := Option.some.inj hs
              obtain ⟨hrest, hne⟩ := rest_charatatime rest
              refine .untold hc hne ?_
              rw [hrest, List.append_assoc]
              exact hout
          | tell =>
              obtain rfl := Option.some.inj hs
              obtain rfl : out = parent := by rwa [ParentPc.rest, List.append_nil] at hout
              exact .pending hc
          | done => exact absurd rfl hp
  | pending hc =>
      cases x with
      | child =>
          rcases hc with rfl | rfl
          · obtain rfl := Option.some.inj hs
            exact .pending (.inr rfl)
          · obtain rfl := Option.some.inj hs
            exact .handled (.inl rfl)
      | parent => exact nomatch hs
  | handled hc =>
      cases x with
      | child =>
          rcases hc with rfl | rfl
          · obtain rfl := Option.some.inj hs
            exact .handled (.inr rfl)
          · obtain rfl := Option.some.inj hs
            exact .told rfl
      | parent => exact nomatch hs
  | @told rest out hout =>
      cases x with
      | child =>
          cases rest with
          | nil => exact nomatch hs
          | cons a rest =>
              obtain rfl := Option.some.inj hs
              refine .told ?_
              rw [List.append_assoc]
              exact hout
      | parent => exact nomatch hs

theorem inv_reach (h : (ordered child parent).Reach s) : Inv child parent s := by
  refine h.invariant (I := Inv child parent) ?_ fun s x s' => inv_step
  rintro s rfl
  obtain ⟨hrest, hne⟩ := rest_charatatime parent
  exact .untold (.inl rfl) hne hrest

/-- The operations that are left. -/
def State.left (childText : List Char) (s : State) : ℕ :=
  (match s.child with
    | .test => if s.sigflag then childText.length + 2 else childText.length + 4
    | .suspend => childText.length + 3
    | .clear => childText.length + 1
    | .putc rest => rest.length) +
  match s.parent with
    | .putc _ rest => rest.length + 2
    | .tell => 1
    | .done => 0

theorem left_step (hs : step child s x = some s') : s'.left child < s.left child := by
  obtain ⟨c, p, f, q, out⟩ := s
  cases x with
  | child =>
      cases c with
      | test =>
          obtain rfl := Option.some.inj hs
          cases f <;> simp [State.left]
      | suspend =>
          obtain ⟨-, hs⟩ := Option.ite_none_right_eq_some.mp hs
          obtain rfl := Option.some.inj hs
          simp [State.left]
      | clear =>
          obtain rfl := Option.some.inj hs
          simp [State.left]
      | putc rest =>
          cases rest with
          | nil => exact nomatch hs
          | cons a rest =>
              obtain rfl := Option.some.inj hs
              simp [State.left]
  | parent =>
      cases p with
      | putc a rest =>
          obtain rfl := Option.some.inj hs
          cases rest <;> simp [State.left, charatatime]
      | tell =>
          obtain rfl := Option.some.inj hs
          simp [State.left]
      | done => exact nomatch hs

/-- **There is no race any more.**  However the processes are scheduled, they stop after a
bounded number of operations; what has come out is at any time a beginning of the text of
the parent with that of the child after it, and at the end it is the whole. -/
theorem race_prevented {schedule : List Who}
    (hrun : (ordered child parent).run ⟨.test, charatatime parent, false, false, []⟩ schedule =
      some s) :
    schedule.length ≤ parent.length + child.length + 5 ∧ s.out <+: parent ++ child ∧
      ((∀ x, (ordered child parent).next s x = none) → s.out = parent ++ child) := by
  have hinv := inv_reach (Machine.reach_of_run (M := ordered child parent) rfl hrun)
  refine ⟨?_, ?_, fun hfinal => ?_⟩
  · have hlength := Machine.Reach.length_run_le (State.left child)
      (fun _ _ _ _ hs => left_step hs) (.start (M := ordered child parent) rfl) hrun
    have hinit : (⟨.test, charatatime parent, false, false, []⟩ : State).left child =
        parent.length + child.length + 5 := by
      cases parent with
      | nil => simp [State.left, charatatime]
      | cons => simp [State.left, charatatime]; omega
    rwa [hinit] at hlength
  · cases hinv with
    | untold _ _ hout =>
        rw [← hout, List.append_assoc]
        exact List.prefix_append _ _
    | pending => exact List.prefix_append _ _
    | handled => exact List.prefix_append _ _
    | told hout =>
        rw [← hout]
        exact List.prefix_append _ _
  · cases hinv with
    | @untold c p out hc hp hout =>
        have hparent := hfinal .parent
        cases p with
        | putc => exact nomatch hparent
        | tell => exact nomatch hparent
        | done => exact absurd rfl hp
    | pending hc =>
        have hchild := hfinal .child
        rcases hc with rfl | rfl <;> exact nomatch hchild
    | handled hc =>
        have hchild := hfinal .child
        rcases hc with rfl | rfl <;> exact nomatch hchild
    | @told rest out hout =>
        have hchild := hfinal .child
        cases rest with
        | nil => rwa [List.append_nil] at hout
        | cons => exact nomatch hchild

end Ordered

/-- The program itself, with a child that gets to `sigsuspend` before the parent prints. -/
theorem race_prevented_texts : ∃ s, (ordered childText parentText).run
      ⟨.test, charatatime parentText, false, false, []⟩
      (.child :: List.replicate 21 .parent ++ List.replicate 22 .child) = some s ∧
      s.out = parentText ++ childText := by
  have hend : ((ordered childText parentText).run
      ⟨.test, charatatime parentText, false, false, []⟩
      (.child :: List.replicate 21 .parent ++ List.replicate 22 .child)).map
        (fun s => ((step childText s .child).isNone, (step childText s .parent).isNone)) =
      some (true, true) := by
    decide +kernel
  obtain ⟨s, hs, hstuck⟩ := Option.map_eq_some_iff.mp hend
  obtain ⟨hchild, hparent⟩ := Prod.mk.inj hstuck
  refine ⟨s, hs, (race_prevented hs).2.2 fun x => ?_⟩
  cases x
  · exact Option.isNone_iff_eq_none.mp hchild
  · exact Option.isNone_iff_eq_none.mp hparent

end Apue.RaceOutput
