/-
Apue/SharedCounter.lean

The shared counter of `15/12_shm_dev_zero.cpp`: parent and child increment a `long`
in shared memory in turn, and each checks that it found the value it expected.

    parent:  for (i = 0; i < NLOOPS; i += 2)      update; TELL_CHILD; WAIT_CHILD
    child:   for (i = 1; i < NLOOPS + 1; i += 2)  WAIT_PARENT; update; TELL_PARENT

The two loops have different variables and bounds.  They are matched with the rounds of
`SignalSync` (`rounds_simulation`): the parent leads, `i` is twice the number of the round
for the parent and one more for the child, and both loops end after `(NLOOPS + 1) / 2`
rounds.

`update` reads the counter and stores its successor in two steps, so that another process
could come between them.
-/
import Mathlib.Algebra.Group.Int.Defs
import Mathlib.Algebra.Group.Nat.Defs
import Apue.SignalSync

namespace Apue.SharedCounter

open SignalSync (Side turn)

/-! ### The program -/

/-- The value of type `int` that `n` is converted to. -/
def toInt (n : ℤ) : ℤ := (n + 2 ^ 31) % 2 ^ 32 - 2 ^ 31

/-- The value of type `long` that `n` is converted to. -/
def toLong (n : ℤ) : ℤ := (n + 2 ^ 63) % 2 ^ 64 - 2 ^ 63

/-- The parent leads. -/
abbrev parent : Side := .leader

/-- The child follows. -/
abbrev child : Side := .follower

/-- A call of `update` that has returned: who called it, what was expected, and what it
returned. -/
structure Update where
  who : Side
  expected : ℤ
  counter : ℤ
  deriving DecidableEq, Repr

/-- The shared area and the calls of `update` so far. -/
structure Data where
  area : ℤ
  updates : List Update
  deriving DecidableEq, Repr

/-- The next operation of `if ((counter = update(area)) != i) err_quit(..)`. -/
inductive UpdatePc
  | load
  | store (v : ℤ)
  | compare (counter : ℤ)
  | quit                      -- err_quit
  deriving DecidableEq, Repr

/-- One operation of process `x` with loop variable `i`. -/
def updateStep (x : Side) (i : ℤ) (d : Data) : UpdatePc → Option (Data × Option UpdatePc)
  | .load => some (d, some (.store d.area))
  | .store v =>
      some (⟨toLong (v + 1), d.updates ++ [⟨x, i, toInt v⟩]⟩, some (.compare (toInt v)))
  | .compare counter => if counter ≠ i then some (d, some .quit) else some (d, none)
  | .quit => none

/-- The next operation of a process, with its loop variable. -/
inductive Pc
  | update (i : ℤ) (w : UpdatePc)
  | tell (i : ℤ)      -- kill(pid, SIGUSR1) or kill(getppid(), SIGUSR2)
  | test (i : ℤ)      -- while (sigflag == 0)
  | suspend (i : ℤ)   -- sigsuspend(&zeromask)
  | clear (i : ℤ)     -- sigflag = 0
  | finished
  deriving DecidableEq, Repr

/-- A process. -/
structure Proc where
  pc : Pc
  sigflag : Bool
  pending : Bool
  deriving DecidableEq, Repr

/-- The two processes and the shared area. -/
structure State where
  proc : Side → Proc
  data : Data

/-- Process `x` becomes `p`. -/
def State.set (s : State) (x : Side) (p : Proc) : State :=
  { s with proc := Function.update s.proc x p }

/-- `kill`. -/
def State.kill (s : State) (x : Side) : State := s.set x { s.proc x with pending := true }

variable (nloops : ℤ)

/-- The loop test with loop variable `i`, and the first operation of the loop body. -/
def enter (i : ℤ) : Side → Pc
  | .leader => if i < nloops then .update i .load else .finished
  | .follower => if i < toInt (nloops + 1) then .test i else .finished

/-- After `WAIT`. -/
def afterWait (i : ℤ) : Side → Pc
  | .leader => enter nloops (toInt (i + 2)) .leader
  | .follower => .update i .load

/-- After `TELL`. -/
def afterTell (i : ℤ) : Side → Pc
  | .leader => .test i
  | .follower => enter nloops (toInt (i + 2)) .follower

/-- One step of process `x`. -/
def next (s : State) (x : Side) : Option State :=
  match s.proc x with
  | ⟨.update i w, f, p⟩ =>
      (updateStep x i s.data w).map fun
        | (d, some w') => { s.set x ⟨.update i w', f, p⟩ with data := d }
        | (d, none) => { s.set x ⟨.tell i, f, p⟩ with data := d }
  | ⟨.tell i, f, p⟩ => some ((s.set x ⟨afterTell nloops i x, f, p⟩).kill x.other)
  | ⟨.test i, f, p⟩ => some (s.set x ⟨if f then .clear i else .suspend i, f, p⟩)
  | ⟨.suspend i, _, true⟩ => some (s.set x ⟨.test i, true, false⟩)
  | ⟨.suspend _, _, false⟩ => none
  | ⟨.clear i, _, p⟩ => some (s.set x ⟨afterWait nloops i x, false, p⟩)
  | ⟨.finished, _, _⟩ => none

/-- The first value of the loop variable. -/
def first : Side → ℤ
  | .leader => 0
  | .follower => 1

/-- Both processes after `fork`; the area was mapped from `/dev/zero`. -/
def initState : State where
  proc x := ⟨enter nloops (first x) x, false, false⟩
  data := ⟨0, []⟩

/-- The program with `NLOOPS` set to `nloops`. -/
def sharedCounter : Machine State Side where
  init s := s = initState nloops
  next := next nloops

/-! ### The rounds -/

/-- The loop variable in round `k`. -/
def index : Side → ℕ → ℤ
  | .leader, k => 2 * k
  | .follower, k => 2 * k + 1

/-- `update` and its check as what a process does in its turn. -/
def update : SignalSync.Work Data (ℤ × UpdatePc) Unit where
  start x k := (index x k, .load)
  step x d w _ := (updateStep x w.1 d w.2).map fun r => (r.1, r.2.map fun w' => (w.1, w'))

/-- The number of rounds of both loops. -/
def nrounds (nloops : ℕ) : ℕ := (nloops + 1) / 2

/-- A program counter of the program, and that of the rounds. -/
inductive SamePc (n : ℕ) (x : Side) : Pc → SignalSync.Pc (ℤ × UpdatePc) → Prop
  | update {k : ℕ} {w : UpdatePc} : k < n →
      SamePc n x (.update (index x k) w) (.work k (index x k, w))
  | tell {k : ℕ} : k < n → SamePc n x (.tell (index x k)) (.tell k)
  | test {k : ℕ} : k < n → SamePc n x (.test (index x k)) (.test k)
  | suspend {k : ℕ} : k < n → SamePc n x (.suspend (index x k)) (.suspend k)
  | clear {k : ℕ} : k < n → SamePc n x (.clear (index x k)) (.clear k)
  | finished : SamePc n x .finished .finished

/-- A process of the program, and that of the rounds. -/
inductive SameProc (n : ℕ) (x : Side) : Proc → SignalSync.Proc (ℤ × UpdatePc) → Prop
  | mk {p : Pc} {q : SignalSync.Pc (ℤ × UpdatePc)} {f b : Bool} : SamePc n x p q →
      SameProc n x ⟨p, f, b⟩ ⟨q, f, b⟩

/-- A state of the program, and that of the rounds. -/
structure Same (n : ℕ) (s : State) (t : SignalSync.State Data (ℤ × UpdatePc)) : Prop where
  proc : ∀ x, SameProc n x (s.proc x) (t.proc x)
  data : s.data = t.data

section Loops

variable {nloops : ℕ} {x : Side} {k : ℕ}

/-- Both loop tests count the same rounds. -/
theorem samePc_enter (hfit : nloops + 1 < 2 ^ 31) (k : ℕ) (x : Side) :
    SamePc (nrounds nloops) x (enter nloops (index x k) x)
      (SignalSync.enter update (nrounds nloops) k x) := by
  cases x with
  | leader =>
      have htest : index .leader k < nloops ↔ k < nrounds nloops := by
        rw [index, nrounds]
        omega
      rw [enter, SignalSync.enter, if_congr htest rfl rfl]
      split
      · next h => exact .update h
      · exact .finished
  | follower =>
      have htest : index .follower k < toInt (nloops + 1) ↔ k < nrounds nloops := by
        rw [index, toInt, nrounds]
        omega
      rw [enter, SignalSync.enter, if_congr htest rfl rfl]
      split
      · next h => exact .test h
      · exact .finished

/-- The loop variable does not overflow. -/
theorem index_succ (hfit : nloops + 1 < 2 ^ 31) (hk : k < nrounds nloops) (x : Side) :
    toInt (index x k + 2) = index x (k + 1) := by
  unfold nrounds at hk
  cases x <;> simp only [index, toInt] <;> omega

theorem samePc_afterWait (hfit : nloops + 1 < 2 ^ 31) (hk : k < nrounds nloops) (x : Side) :
    SamePc (nrounds nloops) x (afterWait nloops (index x k) x)
      (SignalSync.afterWait update (nrounds nloops) k x) := by
  cases x with
  | leader =>
      rw [afterWait, index_succ hfit hk]
      exact samePc_enter hfit (k + 1) .leader
  | follower => exact .update hk

theorem samePc_afterTell (hfit : nloops + 1 < 2 ^ 31) (hk : k < nrounds nloops) (x : Side) :
    SamePc (nrounds nloops) x (afterTell nloops (index x k) x)
      (SignalSync.afterTell update (nrounds nloops) k x) := by
  cases x with
  | leader => exact .test hk
  | follower =>
      rw [afterTell, index_succ hfit hk]
      exact samePc_enter hfit (k + 1) .follower

end Loops

/-! ### The simulation -/

section Simulation

variable {n : ℕ} {s : State} {t : SignalSync.State Data (ℤ × UpdatePc)} {x : Side}

theorem Same.set (h : Same n s t) {p : Proc} {q : SignalSync.Proc (ℤ × UpdatePc)}
    (hp : SameProc n x p q) : Same n (s.set x p) (t.set x q) where
  proc y := by
    show SameProc n y (Function.update s.proc x p y) (Function.update t.proc x q y)
    rcases eq_or_ne y x with rfl | hne
    · rw [Function.update_self, Function.update_self]
      exact hp
    · rw [Function.update_of_ne hne, Function.update_of_ne hne]
      exact h.proc y
  data := h.data

theorem Same.kill (h : Same n s t) (x : Side) : Same n (s.kill x) (t.kill x) := by
  refine h.set ?_
  have hx := h.proc x
  generalize s.proc x = p at hx
  generalize t.proc x = q at hx
  cases hx with
  | mk hpc => exact .mk hpc

variable {nloops : ℕ}

/-- **Every step of the program is a step of the rounds**, and where the program cannot go on,
the rounds cannot. -/
theorem Same.next (hfit : nloops + 1 < 2 ^ 31) (h : Same (nrounds nloops) s t) (x : Side) :
    (SharedCounter.next nloops s x = none ∧
      SignalSync.syncStep update (nrounds nloops) t x = none ∧
      ∀ a, SignalSync.workStep update t x a = none) ∨
    ∃ s' t' a, SharedCounter.next nloops s x = some s' ∧
      SignalSync.next update (nrounds nloops) t a = some t' ∧ Same (nrounds nloops) s' t' := by
  have hx := h.proc x
  generalize hp : s.proc x = p at hx
  generalize hq : t.proc x = q at hx
  -- every operation of `TELL` and `WAIT` is the same in both
  have hsync : ∀ {s' t'}, SharedCounter.next nloops s x = some s' →
      SignalSync.syncStep update (nrounds nloops) t x = some t' → Same (nrounds nloops) s' t' →
      ∃ s' t' a, SharedCounter.next nloops s x = some s' ∧
        SignalSync.next update (nrounds nloops) t a = some t' ∧ Same (nrounds nloops) s' t' :=
    fun hs ht hst => ⟨_, _, .sync x, hs, ht, hst⟩
  rw [SharedCounter.next, SignalSync.syncStep, hp, hq] at hsync ⊢
  cases hx with
  | @mk _ _ f b hpc =>
      cases hpc with
      | @update k w hk =>
          have hstep : ∀ a, update.step x t.data (index x k, w) a =
              (updateStep x (index x k) s.data w).map
                fun r => (r.1, r.2.map fun w' => (index x k, w')) := fun a => by
            rw [← h.data]
            rfl
          have hwork := SignalSync.workStep_eq update hq
          dsimp only
          cases hr : updateStep x (index x k) s.data w with
          | none =>
              rw [hr] at hstep
              exact .inl ⟨rfl, rfl, fun a => (hwork a).1 (hstep a)⟩
          | some r =>
              obtain ⟨d, w'⟩ := r
              rw [hr] at hstep
              refine .inr ?_
              cases w' with
              | none =>
                  refine ⟨_, _, .work x (), rfl, (hwork ()).2.2 d (hstep ()), ?_⟩
                  exact ⟨(h.set (.mk (.tell hk))).proc, rfl⟩
              | some w' =>
                  refine ⟨_, _, .work x (), rfl, (hwork ()).2.1 d _ (hstep ()), ?_⟩
                  exact ⟨(h.set (.mk (.update hk))).proc, rfl⟩
      | tell hk => exact .inr (hsync rfl rfl ((h.set (.mk (samePc_afterTell hfit hk x))).kill _))
      | test hk =>
          refine .inr (hsync rfl rfl (h.set (.mk ?_)))
          cases f
          · exact .suspend hk
          · exact .clear hk
      | suspend hk =>
          cases b
          · exact .inl ⟨rfl, rfl, fun a => by rw [SignalSync.workStep, hq]⟩
          · exact .inr (hsync rfl rfl (h.set (.mk (.test hk))))
      | clear hk => exact .inr (hsync rfl rfl (h.set (.mk (samePc_afterWait hfit hk x))))
      | finished => exact .inl ⟨rfl, rfl, fun a => by rw [SignalSync.workStep, hq]⟩

/-- **The program is simulated by the rounds.** -/
theorem rounds_simulation (hfit : nloops + 1 < 2 ^ 31) :
    Machine.Simulation (sharedCounter nloops)
      (SignalSync.rounds update (nrounds nloops) ⟨0, []⟩) (Same (nrounds nloops)) where
  init := by
    rintro s rfl
    refine ⟨_, rfl, fun x => .mk ?_, rfl⟩
    have hfirst : first x = index x 0 := by cases x <;> rfl
    rw [hfirst]
    exact samePc_enter hfit 0 x
  step s t x s' h hs := by
    obtain ⟨hnone, -⟩ | ⟨s₁, t', a, hs₁, ht, hsame⟩ := h.next hfit x
    · exact absurd (hnone.symm.trans hs) (by simp)
    · obtain rfl := Option.some.inj (hs₁.symm.trans hs)
      refine ⟨[a], t', ?_, hsame⟩
      show (SignalSync.next update (nrounds nloops) t a).bind some = some t'
      rw [ht]
      rfl

end Simulation

/-! ### What `update` keeps -/

/-- The first `v` calls of `update`, when they are made in turn and return what is expected. -/
def history (v : ℕ) : List Update := (List.range v).map fun (j : ℕ) => ⟨turn j, j, j⟩

theorem history_succ (v : ℕ) : history (v + 1) = history v ++ [⟨turn v, v, v⟩] := by
  rw [history, List.range_succ, List.map_append]
  rfl

theorem length_history (v : ℕ) : (history v).length = v := by
  simp [history]

/-- The area between two turns. -/
def Rest (v : ℕ) (d : Data) : Prop := d = ⟨v, history v⟩

/-- The area while the counter goes from `v` to `v + 1`. -/
def Busy (v : ℕ) (d : Data) : ℤ × UpdatePc → Prop
  | (i, .load) => i = v ∧ Rest v d
  | (i, .store c) => i = v ∧ c = v ∧ Rest v d
  | (i, .compare c) => i = v ∧ c = v ∧ Rest (v + 1) d
  | (_, .quit) => False

theorem index_turn (v : ℕ) : index (turn v) (v / 2) = v := by
  unfold turn
  split <;> simp only [index] <;> omega

/-- After an operation: `update` and its check go on or are done. -/
def After (v : ℕ) (d : Data) : Option (ℤ × UpdatePc) → Prop
  | some w => Busy v d w
  | none => Rest (v + 1) d

/-- **One operation of `update` or its check.** -/
theorem update_after {v : ℕ} {d d' : Data} {w : ℤ × UpdatePc} {w' : Option (ℤ × UpdatePc)} {a : Unit}
    (hv : v < 2 ^ 31) (hw : Busy v d w) (hs : update.step (turn v) d w a = some (d', w')) :
    After v d' w' := by
  match w with
  | (i, .load) =>
      obtain ⟨rfl, rfl⟩ := Prod.mk.inj (Option.some.inj hs)
      obtain ⟨hi, rfl⟩ := hw
      exact ⟨hi, rfl, rfl⟩
  | (i, .store c) =>
      obtain ⟨rfl, rfl⟩ := Prod.mk.inj (Option.some.inj hs)
      obtain ⟨rfl, rfl, rfl⟩ := hw
      have hint : toInt v = v := by
        rw [toInt]
        omega
      have hlong : toLong (v + 1) = (v + 1 : ℕ) := by
        rw [toLong]
        omega
      refine ⟨rfl, hint, ?_⟩
      show (⟨toLong (v + 1), history v ++ [⟨turn v, v, toInt v⟩]⟩ : Data) = ⟨_, history (v + 1)⟩
      rw [hint, hlong, history_succ]
  | (i, .compare c) =>
      obtain ⟨rfl, rfl, hd⟩ := hw
      simp only [update, updateStep, ne_eq, not_true_eq_false, if_false, Option.map_some,
        Option.map_none, Option.some.injEq, Prod.mk.injEq] at hs
      obtain ⟨rfl, rfl⟩ := hs
      exact hd
  | (_, .quit) => exact hw.elim

theorem update_keeps {n : ℕ} (hn : 2 * n ≤ 2 ^ 31) : update.Keeps n Busy Rest fun _ => True where
  start {v d} _ hd := ⟨index_turn v, hd⟩
  step hv _ hw hs := update_after (by omega) hw hs
  done hv _ hw hs := update_after (by omega) hw hs

/-- Only `err_quit` ends a process in its turn. -/
theorem update_live (n : ℕ) : update.Live n Busy fun _ => True := by
  intro v d w _ hw
  match w with
  | (i, .load) | (i, .store c) => exact ⟨(), _, trivial, rfl⟩
  | (i, .compare c) =>
      obtain ⟨rfl, rfl, -⟩ := hw
      refine ⟨(), (d, none), trivial, ?_⟩
      simp [update, updateStep]
  | (_, .quit) => exact hw.elim

theorem countP_history (x : Side) (n : ℕ) : (history (2 * n)).countP (·.who = x) = n := by
  induction n with
  | zero => rfl
  | succ n ih =>
      have hlast : history (2 * (n + 1)) = history (2 * n) ++
          [⟨.leader, (2 * n : ℕ), (2 * n : ℕ)⟩, ⟨.follower, (2 * n + 1 : ℕ), (2 * n + 1 : ℕ)⟩] := by
        rw [Nat.mul_succ, history_succ, history_succ, SignalSync.turn_even, SignalSync.turn_odd,
          List.append_assoc]
        rfl
      rw [hlast, List.countP_append, ih]
      cases x <;> rfl

/-! ### The program -/

/-- Both loops have finished. -/
def State.Finished (s : State) : Prop := ∀ x, (s.proc x).pc = .finished

theorem Same.finished_iff {n : ℕ} {s : State} {t : SignalSync.State Data (ℤ × UpdatePc)}
    (h : Same n s t) : s.Finished ↔ t.Finished := by
  refine forall_congr' fun x => ?_
  have hx := h.proc x
  generalize s.proc x = p at hx
  generalize t.proc x = q at hx
  cases hx with
  | mk hpc => cases hpc <;> simp

/-- Where the rounds can go on, the program can. -/
theorem Same.enabled {nloops : ℕ} {s : State} {t t' : SignalSync.State Data (ℤ × UpdatePc)}
    (hfit : nloops + 1 < 2 ^ 31) (h : Same (nrounds nloops) s t) {a : SignalSync.Action Unit}
    (ht : SignalSync.next update (nrounds nloops) t a = some t') :
    ∃ x s', SharedCounter.next nloops s x = some s' := by
  cases a with
  | sync x =>
      obtain ⟨-, hsync, -⟩ | ⟨s', _, _, hs', -⟩ := h.next hfit x
      · exact absurd (hsync.symm.trans ht) (by simp)
      · exact ⟨x, s', hs'⟩
  | work x a =>
      obtain ⟨-, -, hwork⟩ | ⟨s', _, _, hs', -⟩ := h.next hfit x
      · exact absurd ((hwork a).symm.trans ht) (by simp)
      · exact ⟨x, s', hs'⟩

theorem Busy.updates_eq {v : ℕ} {d : Data} {w : ℤ × UpdatePc} (h : Busy v d w) :
    ∃ m, d.updates = history m := by
  match w, h with
  | (_, .load), ⟨_, hd⟩ => exact ⟨_, congrArg Data.updates hd⟩
  | (_, .store _), ⟨_, _, hd⟩ => exact ⟨_, congrArg Data.updates hd⟩
  | (_, .compare _), ⟨_, _, hd⟩ => exact ⟨_, congrArg Data.updates hd⟩

/-- The rounds that process `x` has done: its calls of `update`. -/
def State.rounds (s : State) (x : Side) : ℕ := s.data.updates.countP (·.who = x)

/-- **Parent and child alternate.**  In every run, the calls of `update` are made in turn, the
parent first, and the `v`-th one expects and returns `v`; no process takes the `err_quit` exit;
the program is never stuck before both loops have finished, and then both have done
`(NLOOPS + 1) / 2` rounds. -/
theorem sharedCounter_alternates (nloops : ℕ) (hfit : nloops + 1 < 2 ^ 31) (s : State)
    (h : (sharedCounter nloops).Reach s) :
    s.data.updates = (List.range s.data.updates.length).map (fun (v : ℕ) => ⟨turn v, v, v⟩) ∧
    (∀ x i, (s.proc x).pc ≠ .update i .quit) ∧
    (¬ s.Finished → ∃ x s', (sharedCounter nloops).next s x = some s') ∧
    (s.Finished → ∀ x, s.rounds x = (nloops + 1) / 2) := by
  obtain ⟨t, ht, hsame⟩ := (rounds_simulation hfit).reach h
  have hn : 2 * nrounds nloops ≤ 2 ^ 31 := by
    unfold nrounds
    omega
  have hinv := SignalSync.inv_reach (update_keeps hn) (show Rest 0 ⟨0, []⟩ from rfl) ht
  refine ⟨?_, fun x i hx => ?_, fun hfin => ?_, fun hfin x => ?_⟩
  · have hupdates : ∃ m, s.data.updates = history m := by
      rw [hsame.data]
      obtain ⟨v, hv⟩ | ⟨v, w, hw⟩ := hinv.rest_or_busy
      · exact ⟨v, congrArg Data.updates hv⟩
      · exact hw.updates_eq
    obtain ⟨m, hm⟩ := hupdates
    rw [hm, length_history, history]
  · have hproc := hsame.proc x
    generalize hp : s.proc x = p at hproc hx
    generalize hq : t.proc x = q at hproc
    cases hproc with
    | mk hpc =>
        obtain rfl : _ = Pc.update i .quit := hx
        cases hpc with
        | update hk =>
            obtain ⟨v, -, hbusy⟩ := hinv.busy_of_work (congrArg SignalSync.Proc.pc hq)
            exact hbusy
  · obtain ⟨a, t', -, ht'⟩ := hinv.progress (update_live _) (mt hsame.finished_iff.mpr hfin)
    exact hsame.enabled hfit ht'
  · obtain ⟨hrest, -⟩ := hinv.of_finished (hsame.finished_iff.mp hfin)
    rw [State.rounds, hsame.data, hrest]
    exact countP_history x (nrounds nloops)

/-- One round with `NLOOPS` odd. -/
def oddRun : List Side :=
  List.replicate 5 parent ++ List.replicate 8 child ++ List.replicate 3 parent

theorem oddRun_alternates : ∃ s, (sharedCounter 1).Reach s ∧ s.Finished ∧
    s.data.updates = [⟨parent, 0, 0⟩, ⟨child, 1, 1⟩] ∧ ∀ x, s.rounds x = 1 := by
  have hrun : ((sharedCounter 1).run (initState 1) oddRun).map
      (fun s => ((s.proc parent).pc, (s.proc child).pc, s.data.updates)) =
        some (.finished, .finished, [⟨parent, 0, 0⟩, ⟨child, 1, 1⟩]) := by
    decide +kernel
  obtain ⟨s, hs, hend⟩ := Option.map_eq_some_iff.mp hrun
  obtain ⟨hparent, hchild, hupdates⟩ := by simpa only [Prod.mk.injEq] using hend
  have hreach := Machine.reach_of_run (M := sharedCounter 1) rfl hs
  have hfin : s.Finished := fun x => by
    cases x
    · exact hparent
    · exact hchild
  exact ⟨s, hreach, hfin, hupdates,
    (sharedCounter_alternates 1 (by decide) s hreach).2.2.2 hfin⟩

end Apue.SharedCounter
