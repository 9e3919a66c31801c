/-
Apue/FooWorkload.lean

The threads of `11/6_usage_two_mutex.cpp`: each runs `foo_thread`, which creates an object
with id 1, calls `find(1)` and releases the object it has created twice.

All objects have the same id, so `find(1)` takes its reference on the object inserted
last, whoever has created it.  If that is always the thread's own object
(`ownFirst`), each thread releases exactly what it owns: the invariant of the table holds,
nothing throws, and the table is empty when all have finished (`fooThreads_balanced`).
Otherwise the thread releases one reference too many on its own object
(`overtakenRun_throws`).

What a thread owns at each line follows from what its calls do (`Op.Ok`); of its `find` it is
also asserted that it is on the way to the thread's own object (`Aims`).
-/
import Apue.FooCalls

namespace Apue.Foo

/-! ### The program of a thread -/

/-- Where a thread is in `foo_thread`: the statement it executes next, or the call it is in
if it has not returned.  `foo` is the local variable. -/
inductive Line
  | create                   -- auto foo = Foo::create(1);
  | find                     -- Foo::find(1);
  | rele (foo : Ref)         -- foo->rele();
  | releAgain (foo : Ref)    -- foo->rele();
  | ret                      -- return((void*)0);
  deriving DecidableEq, Repr

/-- The threads and the table. -/
structure Workload (Tid : Type*) where
  table : State Tid
  line : Tid → Line

section Program

variable {Tid : Type*} [DecidableEq Tid]

/-- The call made at a line, and the line after it.  After `create` has returned, `foo` is what
it has returned. -/
def Line.call (returned : Option Ref) : Line → Option (Op × Line)
  | .create => some (.create 1, .find)
  | .find => returned.map fun foo => (.find 1, .rele foo)
  | .rele foo => some (.rele foo, .releAgain foo)
  | .releAgain foo => some (.rele foo, .ret)
  | .ret => none

/-- A thread makes its next call, or performs the next operation inside a call. -/
inductive Turn (Tid : Type*)
  | call (t : Tid)
  | step (t : Tid)

/-- One step of the program. -/
def Workload.next (w : Workload Tid) : Turn Tid → Option (Workload Tid)
  | .call t =>
      ((w.line t).call (w.table.ret t)).bind fun c =>
        (Foo.next w.table (.call t c.1)).map fun s => ⟨s, Function.update w.line t c.2⟩
  | .step t => (Foo.next w.table (.step t)).map fun s => ⟨s, w.line⟩

/-- Any number of threads that run `foo_thread`. -/
def fooThreads (Tid : Type*) [DecidableEq Tid] : Machine (Workload Tid) (Turn Tid) where
  init w := w = ⟨initState, fun _ => .create⟩
  next := Workload.next

/-- Every thread has returned. -/
def Workload.Finished (w : Workload Tid) : Prop := ∀ t, w.line t = .ret ∧ w.table.pc t = .idle

/-- When `find` reads the head of the bucket, the thread's own object is there: no object of
another thread that was inserted later is still linked. -/
def ownFirst (w : Workload Tid) : Turn Tid → Bool
  | .call _ => true
  | .step t =>
      match w.table.pc t, w.line t with
      | .findHead id, .rele foo => w.table.mem.fh (hash id) = some foo
      | _, _ => true

/-- The runs in which this is always so. -/
def ownFirstThreads (Tid : Type*) [DecidableEq Tid] : Machine (Workload Tid) (Turn Tid) :=
  (fooThreads Tid).restrict fun w a => ownFirst w a = true

end Program

/-! ### A search that meets the object -/

/-- `find` is at the object `foo` or has returned it. -/
def Aims (foo : Ref) (ret : Option Ref) : Pc → Prop
  | .findTest _ fp | .findUnlock _ fp => fp = some foo
  | .findNext _ _ => False
  | .holdTest o _ | .holdLock o _ | .holdLoad o _ | .holdStore o _ _ | .holdUnlock o _
  | .holdPrint o _ => o = foo
  | .idle => ret = some foo
  | _ => True

/-- `find(id)` by a thread that owns one reference, on `foo`, when it finds `foo`. -/
def Finds (id : BitVec 64) (foo : Ref) : Assertion := fun refs ret p =>
  (Op.find id).Ok [foo] refs ret p ∧ Aims foo ret p

section Search

variable {Tid : Type*} [DecidableEq Tid] {s s' : State Tid} {g : Ghost Tid} {t : Tid} {foo : Ref}

/-- A step inside `find`, if the object at the head of the bucket is `foo`. -/
theorem Finds.step {id : BitVec 64} (h : s.Meets g.refs t (Finds id foo))
    (hs : step s t = some s') (hid : s.mem.id foo = id)
    (hhead : s.pc t = .findHead id → s.mem.fh (hash id) = some foo) :
    s'.Meets (g.after s t).refs t (Finds id foo) := by
  obtain ⟨hok, haims⟩ := h
  refine ⟨Op.Ok.step hok hs, ?_⟩
  have hfault : ∀ (refs : List Ref) ret e, Aims foo ret (.fault e) := fun _ _ _ => trivial
  suffices h : s'.Meets g.refs t fun _ => Aims foo from h
  unfold Foo.step at hs
  cases hp : s.pc t <;> rw [hp] at hok haims hs <;> try (cases hok.1; done)
  case idle | fault => cases hs
  case createUnlock =>
      obtain ⟨⟨_, hop⟩, -⟩ := hok
      cases hop
  case findLock => exact (moves_lockHash hs).meets hfault trivial
  case findHead i =>
      cases hok.1
      obtain rfl := Option.some.inj hs
      exact moves_goto.meets hfault (hhead hp)
  case findTest i fp =>
      cases hok.1
      obtain rfl : fp = some foo := haims
      obtain rfl := Option.some.inj hs
      rw [if_pos hid]
      exact moves_goto.meets hfault rfl
  case findNext => exact haims.elim
  case holdTest o k =>
      obtain rfl := Option.some.inj hs
      split
      case isTrue => exact moves_goto.meets hfault trivial
      case isFalse => exact moves_goto.meets hfault haims
  case holdLock o k => exact (moves_lockObj hs).meets hfault haims
  case holdLoad o k =>
      obtain rfl := Option.some.inj hs
      exact moves_goto.meets hfault haims
  case holdStore o k v =>
      obtain rfl := Option.some.inj hs
      exact meets_write haims
  case holdUnlock o k =>
      obtain rfl := Option.some.inj hs
      exact moves_unlockObj.meets hfault haims
  case holdPrint o k =>
      obtain rfl := Option.some.inj hs
      cases k with
      | none => cases hok.1
      | some i => exact moves_print_goto.meets hfault (congrArg some haims)
  case findUnlock i fp =>
      obtain rfl := Option.some.inj hs
      exact moves_unlockHash.meets_returns hfault haims

end Search

/-! ### The whole program -/

section Whole

variable {Tid : Type*} [DecidableEq Tid] {w w' : Workload Tid} {g : Ghost Tid} {t : Tid}

/-- What a thread owns, by its line. -/
def Line.Ok : Line → Assertion
  | .create => fun refs _ p => p = .idle ∧ refs = []
  | .find => (Op.create 1).Ok []
  | .rele foo => Finds 1 foo
  | .releAgain foo => (Op.rele foo).Ok [foo, foo]
  | .ret => fun refs ret p => ∃ foo, (Op.rele foo).Ok [foo] refs ret p

/-- The invariant: that of the table, and the threads release only what they own. -/
structure Workload.Inv (w : Workload Tid) (g : Ghost Tid) : Prop where
  table : Foo.Inv w.table g
  ids : ∀ o < w.table.mem.brk, w.table.mem.id o = 1
  lines : ∀ t, w.table.Meets g.refs t (w.line t).Ok

/-- A thread that owns a reference on an object of the table owns it on an object with id 1. -/
theorem Workload.Inv.id_of_ref (h : w.Inv g) {o : Ref} (ho : (t, o) ∈ g.refs) :
    w.table.mem.id o = 1 :=
  h.ids o (h.table.mem.lt_brk (h.table.mem.count_pos ho))

/-- Only `create(1)` allocates. -/
theorem Workload.Inv.eq_one_of_createNew (h : w.Inv g) {id : BitVec 32}
    (hp : w.table.pc t = .createNew id) : id = 1 := by
  have hline := h.lines t
  unfold State.Meets at hline
  rw [hp] at hline
  cases hl : w.line t <;> rw [hl] at hline
  case create => cases hline.1
  case find => exact (Op.create.inj hline.1).symm
  case rele => cases hline.1.1
  case releAgain => cases hline.1
  case ret =>
      obtain ⟨foo, hfoo⟩ := hline
      cases hfoo.1

theorem Workload.Inv.step_ids (h : w.Inv g) {s' : State Tid}
    (hs : Foo.step w.table t = some s') : ∀ o < s'.mem.brk, s'.mem.id o = 1 := by
  by_cases hnew : ∃ id, w.table.pc t = .createNew id
  · obtain ⟨id, hp⟩ := hnew
    obtain rfl := h.eq_one_of_createNew hp
    rw [Foo.step, hp] at hs
    obtain rfl := Option.some.inj hs
    intro o ho
    show Function.update w.table.mem.id w.table.mem.brk (ofInt 1) o = 1
    by_cases hbrk : o = w.table.mem.brk
    · rw [hbrk, Function.update_self]
      decide
    · rw [Function.update_of_ne hbrk]
      exact h.ids o (Nat.lt_of_le_of_ne (Nat.le_of_lt_succ ho) hbrk)
  · obtain ⟨hid, hbrk⟩ := (Local.of_step (g := g) hs).id fun id hp => hnew ⟨id, hp⟩
    rw [hid, hbrk]
    exact h.ids

/-- The own object of a thread that is in `find` has the id it looks for. -/
theorem Workload.Inv.id_of_find (h : w.Inv g) {foo : Ref} {s' : State Tid}
    (hl : w.line t = .rele foo) (hs : Foo.step w.table t = some s') :
    w.table.mem.id foo = 1 := by
  have hline := h.lines t
  unfold State.Meets at hline
  rw [hl] at hline
  have hfoo : foo ∈ refsOf t g.refs := by
    have hok := hline.1
    cases hp : w.table.pc t <;> rw [hp] at hok
    case idle | fault =>
        rw [Foo.step, hp] at hs
        cases hs
    all_goals first | cases hok.1; done | (rw [hok.2]; simp [Pc.holds])
  exact h.id_of_ref (mem_refsOf.mp hfoo)

/-- An operation inside a call keeps the invariant if `find` meets the thread's own object. -/
theorem Workload.Inv.step (h : w.Inv g) {s' : State Tid} (hown : ownFirst w (.step t) = true)
    (hs : Foo.step w.table t = some s') : Workload.Inv ⟨s', w.line⟩ (g.after w.table t) := by
  refine ⟨h.table.step hs, h.step_ids hs, fun u => ?_⟩
  have hline := h.lines u
  by_cases hu : u = t
  · subst hu
    show s'.Meets _ u (w.line u).Ok
    cases hl : w.line u <;> rw [hl] at hline
    case create =>
        rw [Foo.step, hline.1] at hs
        cases hs
    case find => exact Op.Ok.step hline hs
    case rele foo =>
        refine Finds.step hline hs (h.id_of_find hl hs) fun hp => ?_
        rw [ownFirst, hp, hl] at hown
        simpa using hown
    case releAgain foo => exact Op.Ok.step hline hs
    case ret =>
        obtain ⟨foo, hfoo⟩ := hline
        exact ⟨foo, Op.Ok.step hfoo hs⟩
  · have hloc := Local.of_step (g := g) hs
    show (w.line u).Ok _ _ _
    rw [hloc.refs u hu, hloc.ret u hu, hloc.pc u hu]
    exact hline

/-- A thread that makes a call owns what it releases, and starts the call as its line says. -/
theorem Workload.Inv.call_ok (h : w.Inv g) (hp : w.table.pc t = .idle) {op : Op} {l : Line}
    (hcall : (w.line t).call (w.table.ret t) = some (op, l)) :
    (∀ o, op = .hold o ∨ op = .rele o → (t, o) ∈ g.refs) ∧
      l.Ok (refsOf t g.refs) (w.table.ret t) op.entry := by
  have hline := h.lines t
  unfold State.Meets at hline
  rw [hp] at hline
  cases hl : w.line t <;> rw [hl] at hline hcall
  case create =>
      obtain ⟨rfl, rfl⟩ := Prod.mk.inj (Option.some.inj hcall)
      exact ⟨by simp, rfl, hline.2⟩
  case find =>
      obtain ⟨foo, hret, heq⟩ := Option.map_eq_some_iff.mp hcall
      obtain ⟨rfl, rfl⟩ := Prod.mk.inj heq
      have hrefs : refsOf t g.refs = [foo] := by
        rw [show refsOf t g.refs = (Op.create 1).after (w.table.ret t) [] from hline, hret]
        rfl
      exact ⟨by simp, ⟨rfl, hrefs⟩, trivial⟩
  case rele foo =>
      obtain ⟨hok, haims⟩ := hline
      have hret : w.table.ret t = some foo := haims
      have hrefs : refsOf t g.refs = [foo, foo] := by
        rw [show refsOf t g.refs = (Op.find 1).after (w.table.ret t) [foo] from hok, hret]
        rfl
      obtain ⟨rfl, rfl⟩ := Prod.mk.inj (Option.some.inj hcall)
      refine ⟨fun o ho => mem_refsOf.mp ?_, rfl, hrefs⟩
      obtain rfl : o = foo := by simpa [eq_comm] using ho
      rw [hrefs]
      simp
  case releAgain foo =>
      have hrefs : refsOf t g.refs = [foo] := by
        rw [show refsOf t g.refs = [foo, foo].erase foo from hline, List.erase_cons_head]
      obtain ⟨rfl, rfl⟩ := Prod.mk.inj (Option.some.inj hcall)
      refine ⟨fun o ho => mem_refsOf.mp ?_, foo, rfl, hrefs⟩
      obtain rfl : o = foo := by simpa [eq_comm] using ho
      rw [hrefs]
      simp
  case ret => cases hcall

/-- A call keeps the invariant. -/
theorem Workload.Inv.call (h : w.Inv g) {op : Op} {l : Line} {s' : State Tid}
    (hcall : (w.line t).call (w.table.ret t) = some (op, l))
    (hs : Foo.next w.table (.call t op) = some s') :
    Workload.Inv ⟨s', Function.update w.line t l⟩
      { g with raised := Function.update g.raised t [] } := by
  obtain ⟨hidle, hs⟩ := Option.ite_none_right_eq_some.mp hs
  obtain rfl := Option.some.inj hs
  obtain ⟨howns, hok⟩ := h.call_ok hidle hcall
  refine ⟨h.table.call hidle howns, h.ids, fun u => ?_⟩
  show (Function.update w.line t l u).Ok _ _ (Function.update w.table.pc t op.entry u)
  by_cases hu : u = t
  · subst hu
    rw [Function.update_self, Function.update_self]
    exact hok
  · rw [Function.update_of_ne hu, Function.update_of_ne hu]
    exact h.lines u

/-- **The invariant holds in every state** of a run in which `find` always meets the thread's
own object. -/
theorem Workload.inv_of_reach (h : (ownFirstThreads Tid).Reach w) : ∃ g, w.Inv g := by
  refine h.invariant (I := fun w => ∃ g, w.Inv g) (fun w₀ h₀ => ?_) ?_
  · obtain rfl : w₀ = ⟨initState, fun _ => .create⟩ := h₀
    exact ⟨_, inv_init, nofun, fun _ => ⟨rfl, rfl⟩⟩
  · rintro w₁ a w₂ ⟨g, h₁⟩ hs
    obtain ⟨hown, hnext⟩ := Machine.restrict_next.mp hs
    cases a with
    | step t =>
        obtain ⟨s', hs', rfl⟩ := Option.map_eq_some_iff.mp hnext
        exact ⟨_, h₁.step hown hs'⟩
    | call t =>
        obtain ⟨⟨op, l⟩, hcall, hrest⟩ := Option.bind_eq_some_iff.mp hnext
        obtain ⟨s', hs', rfl⟩ := Option.map_eq_some_iff.mp hrest
        exact ⟨_, h₁.call hcall hs'⟩

/-- A thread that has returned owns nothing. -/
theorem Workload.Inv.refs_eq_nil (h : w.Inv g) (hfin : w.Finished) : g.refs = [] := by
  rw [List.eq_nil_iff_forall_not_mem]
  rintro ⟨t, o⟩ hmem
  have hline := h.lines t
  unfold State.Meets at hline
  rw [(hfin t).1, (hfin t).2] at hline
  obtain ⟨foo, hown⟩ := hline
  have ho := mem_refsOf.mpr hmem
  rw [show refsOf t g.refs = [foo].erase foo from hown, List.erase_cons_head] at ho
  cases ho

omit [DecidableEq Tid] in
/-- Without references there are no chains. -/
theorem MemOk.fh_eq_none {m : Noted Tid} (h : MemOk m) (hrefs : m.refs = []) (b : Fin nhash) :
    m.fh b = none := by
  have hlive : m.live = [] := by
    rw [List.eq_nil_iff_forall_not_mem]
    intro o ho
    have hpos := h.counted o ho
    rw [h.counts, hrefs] at hpos
    cases hpos
  have hchain := (h.chains b).start
  rw [hchain, Noted.chain, hlive]
  rfl

/-- Nothing has thrown, and nothing is left at the end. -/
theorem Workload.Inv.balanced (h : w.Inv g) :
    (∀ t e, w.table.pc t ≠ .fault e) ∧ (w.Finished → ∀ b, w.table.mem.fh b = none) :=
  ⟨h.table.not_fault, fun hfin b => h.table.mem.fh_eq_none (h.refs_eq_nil hfin) b⟩

/-- **The workload is balanced when each `find` meets the thread's own object.**  For any number
of threads and any interleaving in which, whenever a thread's `find(1)` reads the head of the
bucket, the thread's own object is there, no thread throws or faults otherwise, and every
bucket is empty when all threads have returned. -/
theorem fooThreads_balanced (h : (ownFirstThreads Tid).Reach w) :
    (∀ t e, w.table.pc t ≠ .fault e) ∧ (w.Finished → ∀ b, w.table.mem.fh b = none) := by
  obtain ⟨g, hinv⟩ := Workload.inv_of_reach h
  exact hinv.balanced

/-- `t` makes its next call and performs `n` operations. -/
def turns {Tid : Type*} (t : Tid) (n : ℕ) : List (Turn Tid) := .call t :: List.replicate n (.step t)

/-- The second thread inserts its object after the first one has found its own. -/
def ownFirstRun : List (Turn Bool) :=
  turns false 7 ++ turns false 10 ++ turns true 7 ++ turns true 10 ++ turns false 6 ++
    turns false 17 ++ turns true 6 ++ turns true 16

theorem ownFirstRun_balanced : ∃ w, (ownFirstThreads Bool).Reach w ∧ w.Finished ∧
    ∀ b, w.table.mem.fh b = none := by
  have hrun : ((ownFirstThreads Bool).run ⟨initState, fun _ => .create⟩ ownFirstRun).map
      (fun w => (w.line false, w.table.pc false, w.line true, w.table.pc true))
      = some (.ret, .idle, .ret, .idle) := by decide +kernel
  obtain ⟨w, hw, hobs⟩ := Option.map_eq_some_iff.mp hrun
  simp only [Prod.mk.injEq] at hobs
  have hreach := Machine.reach_of_run (M := ownFirstThreads Bool) rfl hw
  have hfin : w.Finished := by
    intro t
    cases t
    · exact ⟨hobs.1, hobs.2.1⟩
    · exact ⟨hobs.2.2.1, hobs.2.2.2⟩
  exact ⟨w, hreach, hfin, (fooThreads_balanced hreach).2 hfin⟩

/-- The second thread inserts its object before the first one calls `find`, which takes its
reference there.  The first `rele` of the first thread then removes its object. -/
def overtakenRun : List (Turn Bool) :=
  turns false 7 ++ turns true 7 ++ turns false 10 ++ turns false 17 ++ turns false 1

theorem overtakenRun_throws : ∃ w, (fooThreads Bool).Reach w ∧
    w.table.pc false = .fault .releThrows := by
  have hrun : ((fooThreads Bool).run ⟨initState, fun _ => .create⟩ overtakenRun).map
      (fun w => w.table.pc false) = some (.fault .releThrows) := by decide +kernel
  obtain ⟨w, hw, hobs⟩ := Option.map_eq_some_iff.mp hrun
  exact ⟨w, Machine.reach_of_run (M := fooThreads Bool) rfl hw, hobs⟩

/-! ### One thread -/

/-- A thread that is alone finds its own object. -/
theorem Workload.Inv.finds_own [Subsingleton Tid] (h : w.Inv g) (a : Turn Tid) :
    ownFirst w a = true := by
  cases a with
  | call t => rfl
  | step t =>
      rw [ownFirst]
      split
      case h_1 id foo hp hl =>
          have hline := h.lines t
          have hinv := h.table
          unfold State.Meets at hline
          rw [hp, hl] at hline
          obtain ⟨⟨hop, hrefs⟩, -⟩ := hline
          cases hop
          have hown : refsOf t g.refs = [foo] := hrefs
          have hfoo : (t, foo) ∈ g.refs := mem_refsOf.mp (by simp [hown])
          have hlive := hinv.live_of_ref hfoo (by rw [hp]; rfl) (by rw [hp]; rfl)
          -- every linked object has a reference, and all references are on `foo`
          have honly : ∀ o ∈ (g.note w.table.mem).live, o = foo := by
            intro o ho
            have hpos := hinv.mem.counted o ho
            rw [hinv.mem.counts, List.countP_pos_iff] at hpos
            obtain ⟨⟨u, x⟩, hmem, hx⟩ := hpos
            obtain rfl : x = o := by simpa using hx
            obtain rfl := Subsingleton.elim u t
            simpa [hown] using mem_refsOf.mpr hmem
          have hchain : foo ∈ (g.note w.table.mem).chain (Foo.hash 1) :=
            mem_chain.mpr ⟨hlive, by rw [h.id_of_ref hfoo]⟩
          obtain ⟨o, l, hcons⟩ := List.exists_cons_of_ne_nil (List.ne_nil_of_mem hchain)
          have hstart := (hinv.mem.chains (Foo.hash 1)).start
          have ho : o ∈ (g.note w.table.mem).chain (Foo.hash 1) := by rw [hcons]; simp
          rw [hcons, honly o (mem_chain.mp ho).1] at hstart
          simpa using hstart
      case h_2 => rfl

/-- **One thread alone is balanced**, in every run. -/
theorem fooThread_alone [Subsingleton Tid] (h : (fooThreads Tid).Reach w) :
    (∀ t e, w.table.pc t ≠ .fault e) ∧ (w.Finished → ∀ b, w.table.mem.fh b = none) := by
  have hreach : (ownFirstThreads Tid).Reach w := by
    induction h with
    | start h₀ => exact .start h₀
    | step _ hs ih =>
        obtain ⟨g, hinv⟩ := Workload.inv_of_reach ih
        exact ih.step (Machine.restrict_next.mpr ⟨hinv.finds_own _, hs⟩)
  obtain ⟨g, hinv⟩ := Workload.inv_of_reach hreach
  exact hinv.balanced

end Whole

end Apue.Foo
