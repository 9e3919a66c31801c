/-
Apue/FooCalls.lean

What a client of the reference-counted hash table can rely on.

A thread is seen from outside by its calls and what they have returned (`client`).
At every program counter it is asserted which call the thread is in (`Op.Runs`) and
which references it owns, given those it owned when it made the call (`Pc.holds`);
every step keeps these assertions (`Op.Ok.step`) and leaves those of the other
threads alone (`Local.of_step`).  So the references of the invariant are those that
the clients have got from their calls (`Tied`), and the invariant holds in every
state that clients reach who release only what they own (`inv_reach`).
-/
import Apue.FooSafe

namespace Apue.Foo

open PtrChain

/-! ### The references of a thread -/

section Refs

variable {Tid : Type*} [DecidableEq Tid] {refs : List (Tid × Ref)} {t u : Tid} {o : Ref}

/-- The objects a thread owns references on, one entry for each reference. -/
def refsOf (t : Tid) (refs : List (Tid × Ref)) : List Ref := (refs.filter (·.1 = t)).map Prod.snd

theorem mem_refsOf : o ∈ refsOf t refs ↔ (t, o) ∈ refs := by
  simp [refsOf]

theorem refsOf_cons_self : refsOf t ((t, o) :: refs) = o :: refsOf t refs := by
  simp [refsOf]

theorem refsOf_cons_of_ne (hu : u ≠ t) : refsOf u ((t, o) :: refs) = refsOf u refs := by
  simp [refsOf, hu.symm]

theorem refsOf_erase_self : refsOf t (refs.erase (t, o)) = (refsOf t refs).erase o := by
  rw [refsOf, refsOf]
  induction refs with
  | nil => rfl
  | cons p l ih =>
      obtain ⟨a, b⟩ := p
      by_cases ha : a = t <;> by_cases hb : b = o <;> simp [ha, hb, ih]

theorem refsOf_erase_of_ne (hu : u ≠ t) : refsOf u (refs.erase (t, o)) = refsOf u refs := by
  rw [refsOf, refsOf]
  refine congrArg _ ?_
  induction refs with
  | nil => rfl
  | cons p l ih =>
      by_cases hp : p = (t, o)
      · simp [hp, hu.symm]
      · rw [List.erase_cons_tail (by simpa using hp), List.filter_cons, List.filter_cons, ih]

end Refs

/-! ### What a step leaves alone -/

section Local

variable {Tid : Type*} [DecidableEq Tid] {s s' : State Tid} {g : Ghost Tid} {m : Mem} {t : Tid}
  {o : Ref} {p : Pc}

/-- The thread goes to `p`, or faults, and the shared fields and the results stay. -/
structure Moves (s s' : State Tid) (t : Tid) (p : Pc) : Prop where
  mem : s'.mem = s.mem
  ret : s'.ret = s.ret
  pc : ∃ q, s'.pc = Function.update s.pc t q ∧ (q = p ∨ ∃ e, q = .fault e)

theorem moves_goto : Moves s (s.goto t p) t p := ⟨rfl, rfl, p, rfl, .inl rfl⟩

theorem moves_print_goto {msg : Msg} : Moves s ((s.print o msg).goto t p) t p :=
  ⟨rfl, rfl, p, rfl, .inl rfl⟩

theorem moves_lockHash (hs : s.lockHash t p = some s') : Moves s s' t p := by
  unfold State.lockHash at hs
  split at hs
  · obtain rfl := Option.some.inj hs
    exact ⟨rfl, rfl, p, rfl, .inl rfl⟩
  · cases hs
  · obtain rfl := Option.some.inj hs
    exact ⟨rfl, rfl, _, rfl, .inr ⟨_, rfl⟩⟩

theorem moves_lockObj (hs : s.lockObj t o p = some s') : Moves s s' t p := by
  unfold State.lockObj at hs
  split at hs
  · obtain rfl := Option.some.inj hs
    exact ⟨rfl, rfl, p, rfl, .inl rfl⟩
  · cases hs
  · obtain rfl := Option.some.inj hs
    exact ⟨rfl, rfl, _, rfl, .inr ⟨_, rfl⟩⟩

theorem moves_unlockHash : Moves s (s.unlockHash t p) t p := by
  unfold State.unlockHash
  split
  · exact ⟨rfl, rfl, p, rfl, .inl rfl⟩
  · exact ⟨rfl, rfl, _, rfl, .inr ⟨_, rfl⟩⟩

theorem moves_unlockObj : Moves s (s.unlockObj t o p) t p := by
  unfold State.unlockObj
  split
  · exact ⟨rfl, rfl, p, rfl, .inl rfl⟩
  · exact ⟨rfl, rfl, _, rfl, .inr ⟨_, rfl⟩⟩

theorem moves_destroyObj : Moves s (s.destroyObj t o p) t p := by
  unfold State.destroyObj
  split
  · exact ⟨rfl, rfl, p, rfl, .inl rfl⟩
  · exact ⟨rfl, rfl, _, rfl, .inr ⟨_, rfl⟩⟩

/-- A step of `t` seen from the other threads, with the references before and after it, and what
it does to the ids. -/
structure Local (s s' : State Tid) (t : Tid) (refs refs' : List (Tid × Ref)) : Prop where
  pc : ∀ u, u ≠ t → s'.pc u = s.pc u
  ret : ∀ u, u ≠ t → s'.ret u = s.ret u
  refs : ∀ u, u ≠ t → refsOf u refs' = refsOf u refs
  id : (∀ id, s.pc t ≠ .createNew id) → s'.mem.id = s.mem.id ∧ s'.mem.brk = s.mem.brk

variable {refs refs' : List (Tid × Ref)}

theorem Moves.local (h : Moves s s' t p) : Local s s' t refs refs := by
  obtain ⟨q, hq, -⟩ := h.pc
  refine ⟨fun u hu => ?_, fun u _ => by rw [h.ret], fun _ _ => rfl,
    fun _ => by rw [h.mem]; exact ⟨rfl, rfl⟩⟩
  rw [hq, Function.update_of_ne hu]

theorem Local.write (hrefs : ∀ u, u ≠ t → refsOf u refs' = refsOf u refs)
    (hid : (∀ id, s.pc t ≠ .createNew id) → m.id = s.mem.id ∧ m.brk = s.mem.brk) :
    Local s (s.write t m p) t refs refs' :=
  ⟨fun _ hu => Function.update_of_ne hu _ _, fun _ _ => rfl, hrefs, hid⟩

theorem Local.returns (h : Local s s' t refs refs') (q : Option Ref) :
    Local s (s'.returns t q) t refs refs' :=
  { h with ret := fun u hu => (Function.update_of_ne hu _ _).trans (h.ret u hu) }

/-- **Every operation is local**: it changes only the program counter, the result and the
references of its own thread. -/
theorem Local.of_step (hs : step s t = some s') : Local s s' t g.refs (g.after s t).refs := by
  unfold step at hs
  unfold Ghost.after
  cases hp : s.pc t <;> rw [hp] at hs
  case idle | fault => cases hs
  case createNew id =>
      obtain rfl := Option.some.inj hs
      exact .write (fun u hu => refsOf_cons_of_ne hu) fun hne => absurd hp (hne id)
  case createNext | createHead | releHeadStore | releMidStore =>
      obtain rfl := Option.some.inj hs
      exact .write (fun _ _ => rfl) fun _ => ⟨rfl, rfl⟩
  case holdStore =>
      obtain rfl := Option.some.inj hs
      exact .write (fun u hu => refsOf_cons_of_ne hu) fun _ => ⟨rfl, rfl⟩
  case releStore | releBackStore | releLastStore =>
      obtain rfl := Option.some.inj hs
      exact .write (fun u hu => refsOf_erase_of_ne hu) fun _ => ⟨rfl, rfl⟩
  -- the other operations only move
  case createPrint | holdPrint | releBackPrint | releLastPrint =>
      obtain rfl := Option.some.inj hs
      exact moves_print_goto.local
  case createLock | findLock | releHash => exact (moves_lockHash hs).local
  case holdLock | releLock | releRelock => exact (moves_lockObj hs).local
  case createUnlock | findUnlock =>
      obtain rfl := Option.some.inj hs
      exact moves_unlockHash.local.returns _
  case releBackUnhash | releLastUnhash =>
      obtain rfl := Option.some.inj hs
      exact moves_unlockHash.local
  case holdUnlock | releUnlock | releDrop | releBackUnlock | releLastUnlock =>
      obtain rfl := Option.some.inj hs
      exact moves_unlockObj.local
  case releDestroy =>
      obtain rfl := Option.some.inj hs
      exact moves_destroyObj.local
  case findTest id fp =>
      cases fp <;> (obtain rfl := Option.some.inj hs; exact moves_goto.local)
  case releWalk o tfp =>
      cases tfp <;> (obtain rfl := Option.some.inj hs; exact moves_goto.local)
  all_goals
    obtain rfl := Option.some.inj hs
    exact moves_goto.local

end Local

/-! ### What a call does to the references of its thread -/

/-- `p` is a program counter of the call. -/
def Op.Runs (op : Op) : Pc → Prop
  | .idle | .fault _ => True
  | .createNew id | .createPrint id _ | .createLock id _ | .createLoad id _
  | .createNext id _ _ | .createHead id _ => op = .create id
  | .createUnlock _ => ∃ id, op = .create id
  | .holdTest o k | .holdLock o k | .holdLoad o k | .holdStore o k _ | .holdUnlock o k
  | .holdPrint o k => op = k.elim (.hold o) .find
  | .findLock id | .findHead id | .findTest id _ | .findNext id _
  | .findUnlock id _ => op = .find id
  | .releTest o | .releLock o | .releCheck o | .releLoad o | .releStore o _ | .releUnlock o
  | .releDrop o | .releHash o | .releRelock o | .releRecheck o
  | .releBackLoad o | .releBackStore o _ | .releBackUnlock o | .releBackUnhash o
  | .releBackPrint o
  | .releFirst o | .releHeadLoad o | .releHeadStore o _ | .releWalk o _ | .releMidLoad o _
  | .releMidStore o _ _ | .releLastLoad o | .releLastStore o _ | .releLastPrint o
  | .releLastUnhash o | .releLastUnlock o | .releDestroy o => op = .rele o

/-- What a thread at `p` owns, if it owned `own` when it made the call it is in: one more after the
construction in `create` and after the increment in `hold`, one less after the decrement in
`rele`. -/
def Pc.holds (own : List Ref) : Pc → List Ref
  | .createPrint _ r | .createLock _ r | .createLoad _ r | .createNext _ r _ | .createHead _ r
  | .createUnlock r => r :: own
  | .holdUnlock o _ | .holdPrint o _ => o :: own
  | .findUnlock _ fp => fp.toList ++ own
  | .releUnlock o | .releBackUnlock o | .releBackUnhash o | .releBackPrint o
  | .releLastPrint o | .releLastUnhash o | .releLastUnlock o | .releDestroy o => own.erase o
  | _ => own

/-- The references and the result of a thread at `p`, in the call `op` or just back from it. -/
def Op.Ok (op : Op) (own refs : List Ref) (ret : Option Ref) : Pc → Prop
  | .idle => refs = op.after ret own
  | .fault _ => True
  | p => op.Runs p ∧ refs = p.holds own

section Contracts

variable {Tid : Type*} [DecidableEq Tid] {s s' : State Tid} {g : Ghost Tid} {m : Mem} {t : Tid}
  {o : Ref} {p : Pc} {op : Op} {own : List Ref}

/-- An assertion on what a thread owns, its last result and its program counter. -/
abbrev Assertion := List Ref → Option Ref → Pc → Prop

/-- The assertion holds of a thread. -/
def State.Meets (s : State Tid) (refs : List (Tid × Ref)) (t : Tid) (C : Assertion) : Prop :=
  C (refsOf t refs) (s.ret t) (s.pc t)

variable {C : Assertion} {refs : List (Tid × Ref)}

theorem Moves.meets (h : Moves s s' t p) (hfault : ∀ own ret e, C own ret (.fault e))
    (hp : C (refsOf t refs) (s.ret t) p) : s'.Meets refs t C := by
  obtain ⟨q, hq, rfl | ⟨e, rfl⟩⟩ := h.pc
  · rw [State.Meets, h.ret, hq, Function.update_self]
    exact hp
  · rw [State.Meets, hq, Function.update_self]
    exact hfault _ _ e

theorem Moves.meets_returns (h : Moves s s' t p) (hfault : ∀ own ret e, C own ret (.fault e))
    {q : Option Ref} (hp : C (refsOf t refs) q p) : (s'.returns t q).Meets refs t C := by
  have hret : (s'.returns t q).ret t = q := Function.update_self _ _ _
  obtain ⟨r, hr, rfl | ⟨e, rfl⟩⟩ := h.pc
  · show C _ _ (s'.pc t)
    rw [hret, hr, Function.update_self]
    exact hp
  · show C _ _ (s'.pc t)
    rw [hr, Function.update_self]
    exact hfault _ _ e

theorem meets_write (hp : C (refsOf t refs) (s.ret t) p) : (s.write t m p).Meets refs t C := by
  show C _ _ (Function.update s.pc t p t)
  rw [Function.update_self]
  exact hp

/-- **A step inside a call** keeps what is asserted of it. -/
theorem Op.Ok.step (h : s.Meets g.refs t (op.Ok own)) (hs : step s t = some s') :
    s'.Meets (g.after s t).refs t (op.Ok own) := by
  have hfault : ∀ refs ret e, op.Ok own refs ret (.fault e) := fun _ _ _ => trivial
  unfold State.Meets at h
  unfold Foo.step at hs
  unfold Ghost.after
  cases hp : s.pc t <;> rw [hp] at h hs
  case idle | fault => cases hs
  -- the construction, the increment and the decrements
  case createNew id =>
      obtain rfl := Option.some.inj hs
      exact meets_write ⟨h.1, by rw [refsOf_cons_self, h.2]; rfl⟩
  case holdStore o k v =>
      obtain rfl := Option.some.inj hs
      exact meets_write ⟨h.1, by rw [refsOf_cons_self, h.2]; rfl⟩
  case releStore | releBackStore | releLastStore =>
      obtain rfl := Option.some.inj hs
      exact meets_write ⟨h.1, by rw [refsOf_erase_self, h.2]; rfl⟩
  case createNext | releHeadStore | releMidStore =>
      obtain rfl := Option.some.inj hs
      exact meets_write h
  case createHead id r =>
      obtain rfl := Option.some.inj hs
      exact meets_write ⟨⟨id, h.1⟩, h.2⟩
  -- the returns
  case createUnlock r =>
      obtain ⟨⟨id, rfl⟩, hrefs⟩ := h
      obtain rfl := Option.some.inj hs
      exact moves_unlockHash.meets_returns hfault hrefs
  case findUnlock id fp =>
      obtain ⟨rfl, hrefs⟩ := h
      obtain rfl := Option.some.inj hs
      exact moves_unlockHash.meets_returns hfault hrefs
  case holdPrint o k =>
      obtain ⟨rfl, hrefs⟩ := h
      obtain rfl := Option.some.inj hs
      cases k with
      | none => exact moves_print_goto.meets hfault hrefs
      | some id => exact moves_print_goto.meets hfault ⟨rfl, hrefs⟩
  case releUnlock o =>
      obtain ⟨rfl, hrefs⟩ := h
      obtain rfl := Option.some.inj hs
      exact moves_unlockObj.meets hfault hrefs
  case releBackPrint o =>
      obtain ⟨rfl, hrefs⟩ := h
      obtain rfl := Option.some.inj hs
      exact moves_print_goto.meets hfault hrefs
  case releDestroy o =>
      obtain ⟨rfl, hrefs⟩ := h
      obtain rfl := Option.some.inj hs
      exact moves_destroyObj.meets hfault hrefs
  -- the tests
  case holdTest | releTest | releCheck | releRecheck | releFirst =>
      obtain rfl := Option.some.inj hs
      split <;> exact moves_goto.meets hfault (by first | exact h | trivial)
  case findTest id fp =>
      obtain ⟨rfl, hrefs⟩ := h
      cases fp with
      | none =>
          obtain rfl := Option.some.inj hs
          exact moves_goto.meets hfault ⟨rfl, hrefs⟩
      | some fp =>
          obtain rfl := Option.some.inj hs
          split <;> exact moves_goto.meets hfault ⟨rfl, hrefs⟩
  case releWalk o tfp =>
      cases tfp with
      | none =>
          obtain rfl := Option.some.inj hs
          exact moves_goto.meets hfault trivial
      | some a =>
          obtain rfl := Option.some.inj hs
          split <;> exact moves_goto.meets hfault h
  -- the other operations only move
  case createLock | findLock | releHash => exact (moves_lockHash hs).meets hfault h
  case holdLock | releLock | releRelock => exact (moves_lockObj hs).meets hfault h
  case holdUnlock | releDrop | releBackUnlock | releLastUnlock =>
      obtain rfl := Option.some.inj hs
      exact moves_unlockObj.meets hfault h
  case releBackUnhash | releLastUnhash =>
      obtain rfl := Option.some.inj hs
      exact moves_unlockHash.meets hfault h
  case createPrint | releLastPrint =>
      obtain rfl := Option.some.inj hs
      exact moves_print_goto.meets hfault h
  all_goals
    obtain rfl := Option.some.inj hs
    exact moves_goto.meets hfault h

end Contracts

/-! ### The history and the invariant -/

/-- What the history says of a thread: between two calls it owns what its calls have returned and
it has not released; inside a call it is where its last call leads. -/
def Client.Ok (c : Client) : Assertion := fun refs ret p =>
  (p = .idle → refs = c.owned) ∧ (p ≠ .idle → ∃ op, c.op = some op ∧ op.Ok c.owned refs ret p)

/-- What the invariant adds to the state is what the history says. -/
structure Tied {Tid : Type*} [DecidableEq Tid] (s : State Tid) (l : List (Event Tid))
    (g : Ghost Tid) : Prop where
  inserted : g.inserted = Foo.inserted l
  unlinked : g.unlinked = Foo.unlinked l
  raised : ∀ t, g.raised t = (client t l).raised
  calls : ∀ t, s.Meets g.refs t (client t l).Ok

section History

variable {Tid : Type*} [DecidableEq Tid] {s s' : State Tid} {l : List (Event Tid)} {g : Ghost Tid}
  {t u : Tid} {op : Op}

omit [DecidableEq Tid] in
theorem inserted_append (l l' : List (Event Tid)) :
    inserted (l ++ l') = inserted l' ++ inserted l := by
  simp [inserted]

omit [DecidableEq Tid] in
theorem unlinked_append (l l' : List (Event Tid)) :
    unlinked (l ++ l') = unlinked l' ++ unlinked l := by
  simp [unlinked]

theorem client_append (t : Tid) (l l' : List (Event Tid)) :
    client t (l ++ l') = l'.foldl (Client.see t) (client t l) :=
  List.foldl_append

theorem observe_step (hs : step s t = some s') :
    observe s (.step t) = changes s s' t ++ returned s' t := by
  simp [observe, hs]

theorem after_inserted (g : Ghost Tid) (s s' : State Tid) (t : Tid) :
    (g.after s t).inserted = inserted (changes s s' t) ++ g.inserted := by
  unfold Ghost.after changes
  cases s.pc t with
  | holdStore => dsimp only; split <;> rfl
  | _ => rfl

theorem after_unlinked (g : Ghost Tid) (s s' : State Tid) (t : Tid) :
    (g.after s t).unlinked = unlinked (changes s s' t) ++ g.unlinked := by
  unfold Ghost.after changes
  cases s.pc t with
  | holdStore => dsimp only; split <;> rfl
  | _ => rfl

omit [DecidableEq Tid] in
/-- A return puts no object into a chain and takes none out. -/
theorem returned_objects (s' : State Tid) (t : Tid) :
    inserted (returned s' t) = [] ∧ unlinked (returned s' t) = [] := by
  unfold returned
  split <;> exact ⟨rfl, rfl⟩

/-- A thread does not see what another one does. -/
theorem see_step_of_ne (hu : u ≠ t) (c : Client) :
    (changes s s' t ++ returned s' t).foldl (Client.see u) c = c := by
  have hchanges : (changes s s' t).foldl (Client.see u) c = c := by
    unfold changes
    split
    case h_1 => split <;> simp [Client.see, hu.symm]
    all_goals rfl
  have hreturned : (returned s' t).foldl (Client.see u) c = c := by
    unfold returned
    split <;> simp [Client.see, hu.symm]
  rw [List.foldl_append, hchanges, hreturned]

/-- What a thread sees of an operation of its own before it returns: the counts that were raised. -/
theorem see_changes (h : Inv s g) (hs : step s t = some s') (c : Client)
    (hc : c.raised = g.raised t) :
    (changes s s' t).foldl (Client.see t) c = { c with raised := (g.after s t).raised t } := by
  have hok := h.pcs t
  unfold Foo.step at hs
  unfold changes Ghost.after
  cases hp : s.pc t <;> rw [hp] at hs hok
  case holdStore o k v =>
      obtain ⟨-, rfl⟩ := hok
      obtain rfl := Option.some.inj hs
      have hcount : (s.mem.setCount o (s.mem.count o + 1)).count o = s.mem.count o + 1 :=
        Function.update_self _ _ _
      simp [State.write, hcount, Client.see, hc]
  all_goals simp [Client.see, ← hc]

/-- After a return the client owns what the call has given it or taken from it. -/
theorem see_returned (s' : State Tid) (t : Tid) (c : Client) :
    (returned s' t).foldl (Client.see t) c =
      if s'.pc t = .idle then
        { c with owned := c.op.elim c.owned fun op => op.after (s'.ret t) c.owned }
      else c := by
  unfold returned
  split <;> simp [Client.see]

/-- An operation is recorded as it happens. -/
theorem Tied.step (hinv : Inv s g) (h : Tied s l g) (hs : Foo.step s t = some s') :
    Tied s' (l ++ observe s (.step t)) (g.after s t) := by
  have hlocal := Local.of_step (g := g) hs
  have hraised : ∀ u, u ≠ t → (g.after s t).raised u = g.raised u := by
    intro u hu
    unfold Ghost.after
    cases s.pc t with
    | holdStore => exact Function.update_of_ne hu _ _
    | _ => rfl
  rw [observe_step hs]
  refine ⟨?_, ?_, fun u => ?_, fun u => ?_⟩
  · rw [inserted_append, inserted_append, (returned_objects s' t).1, List.nil_append, ← h.inserted]
    exact after_inserted g s s' t
  · rw [unlinked_append, unlinked_append, (returned_objects s' t).2, List.nil_append, ← h.unlinked]
    exact after_unlinked g s s' t
  · rw [client_append]
    by_cases hu : u = t
    · subst hu
      rw [List.foldl_append, see_changes hinv hs _ (h.raised u).symm, see_returned]
      split <;> rfl
    · rw [see_step_of_ne hu, hraised u hu, h.raised u]
  · rw [client_append]
    by_cases hu : u = t
    · subst hu
      -- a thread that takes a step is inside its last call
      have hne : s.pc u ≠ .idle := by
        intro hp
        rw [Foo.step, hp] at hs
        cases hs
      obtain ⟨op, hop, hmeets⟩ := (h.calls u).2 hne
      have hmeets' : s'.Meets (g.after s u).refs u (op.Ok (client u l).owned) :=
        Op.Ok.step hmeets hs
      rw [List.foldl_append, see_changes hinv hs _ (h.raised u).symm, see_returned]
      unfold State.Meets at hmeets' ⊢
      split
      case isTrue hidle =>
          rw [hidle] at hmeets' ⊢
          refine ⟨fun _ => ?_, fun hcontra => absurd rfl hcontra⟩
          rw [hop]
          exact hmeets'
      case isFalse hidle => exact ⟨fun hcontra => absurd hcontra hidle, fun _ => ⟨op, hop, hmeets'⟩⟩
    · rw [see_step_of_ne hu]
      unfold State.Meets
      rw [hlocal.refs u hu, hlocal.ret u hu, hlocal.pc u hu]
      exact h.calls u

/-- A call starts at its entry, with what the thread owns. -/
theorem Op.ok_entry (op : Op) (own : List Ref) (ret : Option Ref) :
    op.Ok own own ret op.entry := by
  cases op <;> exact ⟨rfl, rfl⟩

/-- A call is recorded as it is made. -/
theorem Tied.call (h : Tied s l g) (hp : s.pc t = .idle) (op : Op) :
    Tied (s.goto t op.entry) (l ++ [.call t op])
      { g with raised := Function.update g.raised t [] } := by
  have hne : op.entry ≠ .idle := by cases op <;> nofun
  refine ⟨?_, ?_, fun u => ?_, fun u => ?_⟩
  · rw [inserted_append]
    exact h.inserted
  · rw [unlinked_append]
    exact h.unlinked
  · show Function.update g.raised t [] u = _
    rw [client_append]
    by_cases hu : u = t
    · subst hu
      simp [Client.see]
    · simp [Client.see, Ne.symm hu, hu, h.raised u]
  · show (client u (l ++ [.call t op])).Ok _ _ (Function.update s.pc t op.entry u)
    rw [client_append]
    by_cases hu : u = t
    · subst hu
      have hown := (h.calls u).1 hp
      rw [Function.update_self]
      simp only [List.foldl_cons, List.foldl_nil, Client.see, if_true]
      refine ⟨fun hcontra => absurd hcontra hne, fun _ => ⟨op, rfl, ?_⟩⟩
      show op.Ok (client u l).owned (refsOf u g.refs) (s.ret u) op.entry
      rw [hown]
      exact op.ok_entry _ _
    · rw [Function.update_of_ne hu]
      simp only [List.foldl_cons, List.foldl_nil, Client.see, if_neg (Ne.symm hu)]
      exact h.calls u

/-- **The invariant holds in every reachable state**, for any number of threads
whose clients call `hold` and `rele` only on objects they own, and it speaks of the references
and the insertions of the history. -/
theorem inv_reach (h : (ownedTable Tid).Reach (s, l)) : ∃ g, Inv s g ∧ Tied s l g := by
  refine h.invariant (I := fun p => ∃ g, Inv p.1 g ∧ Tied p.1 p.2 g) ?_ ?_
  · rintro ⟨s, l⟩ ⟨hs, hl⟩
    obtain rfl : s = initState := hs
    obtain rfl : l = [] := hl
    refine ⟨_, inv_init, rfl, rfl, fun _ => rfl, fun t => ⟨fun _ => rfl, fun hne => ?_⟩⟩
    exact absurd rfl hne
  · rintro ⟨s, l⟩ a ⟨s', l'⟩ ⟨g, hinv, htied⟩ hs
    obtain ⟨hown, hs⟩ := Machine.restrict_next.mp hs
    obtain ⟨hs, rfl⟩ := Machine.recorded_next hs
    cases a with
    | step t => exact ⟨_, hinv.step hs, htied.step hinv hs⟩
    | call t op =>
        obtain ⟨hidle, hs⟩ := Option.ite_none_right_eq_some.mp hs
        obtain rfl := Option.some.inj hs
        refine ⟨_, hinv.call hidle fun o ho => ?_, htied.call hidle op⟩
        -- what the client owns is what the invariant says it owns
        have hrefs : refsOf t g.refs = (client t l).owned := (htied.calls t).1 hidle
        rw [← mem_refsOf, hrefs]
        rcases ho with rfl | rfl <;> exact hown

end History

/-! ### What a client can rely on -/

section Client

variable {Tid : Type*} {s s' : State Tid} {g : Ghost Tid} {t : Tid} {o : Ref} {p : Pc}

/-- Only a thread that holds `hashlock` has an object unlinked but not given up. -/
theorem Pc.holdsHash_of_limbo (hp : p.limbo = some o) : p.holdsHash = true := by
  cases p <;> first | rfl | cases hp

/-- While `hashlock` is free the linked objects are those with a reference, apart
from the ones that `create` has not inserted yet. -/
theorem Inv.mem_live_iff (h : Inv s g) (hfree : s.hashlock = .free)
    (ho : ∀ t, (s.pc t).fresh ≠ some o) : o ∈ (g.note s.mem).live ↔ 1 ≤ s.mem.count o := by
  refine ⟨h.mem.counted o, fun hpos => ?_⟩
  have hcount : s.mem.count o = g.refs.countP fun p => p.2 = o := h.mem.counts o
  rw [hcount, Nat.one_le_iff_ne_zero, ← Nat.pos_iff_ne_zero, List.countP_pos_iff] at hpos
  obtain ⟨⟨t, x⟩, hmem, hx⟩ := hpos
  obtain rfl : x = o := by simpa using hx
  rcases h.refs t x hmem with hl | hf | hl
  · exact hl
  · exact absurd hf (ho t)
  · have := (h.hash t).mpr (Pc.holdsHash_of_limbo hl)
    rw [hfree] at this
    cases this

/-- No thread faults. -/
theorem Inv.not_fault (h : Inv s g) (t : Tid) (e : Fault) : s.pc t ≠ .fault e := by
  intro hp
  have hok := h.pcs t
  rw [hp] at hok
  exact hok

variable [DecidableEq Tid] {l : List (Event Tid)}

/-- The references of a thread are those of its client, but for the effect of the call it is in. -/
theorem Tied.refs_eq (h : Tied s l g) (hinv : Inv s g) (t : Tid) :
    refsOf t g.refs = (s.pc t).holds (client t l).owned := by
  obtain ⟨hidle, hcall⟩ := h.calls t
  by_cases hp : s.pc t = .idle
  · rw [hidle hp, hp]
    rfl
  · obtain ⟨op, -, hok⟩ := hcall hp
    have hfault := hinv.not_fault t
    cases hpc : s.pc t <;> rw [hpc] at hok hp hfault
    case idle => exact absurd rfl hp
    case fault e => exact absurd rfl (hfault e)
    all_goals exact hok.2

/-- **The hash table is safe** under any interleaving of clients that release only
what they own.

Each count is the number of outstanding references, and the outstanding references of
a thread are those that its calls have returned and that it has not released, but for
the call it is in: `create` has one more from its construction on, `hold` and `find` from
the increment on, and `rele` one less from its decrement on.  While `hashlock` is free,
the chain from each `fh[b]` ends (so it has no cycle) and visits each object once
at most; and apart from objects that `create` has not inserted yet, the chain of
bucket `b` holds exactly the objects with count at least 1 that hash to `b`.  No
thread ever throws, dereferences a null pointer, or misuses a mutex. -/
theorem ownedTable_safe (h : (ownedTable Tid).Reach (s, l)) :
    (∃ refs : List (Tid × Ref), (∀ o, s.mem.count o = refs.countP fun p => p.2 = o) ∧
      ∀ t, refsOf t refs = (s.pc t).holds (client t l).owned) ∧
    (s.hashlock = .free → ∃ chain : Fin nhash → List Ref,
      (∀ b, IsChain s.mem.next (s.mem.fh b) (chain b) ∧ (chain b).Nodup) ∧
      ∀ o, (∀ t, (s.pc t).fresh ≠ some o) →
        ∀ b, o ∈ chain b ↔ b = Foo.hash (s.mem.id o) ∧ 1 ≤ s.mem.count o) ∧
    ∀ t e, s.pc t ≠ .fault e := by
  obtain ⟨g, hinv, htied⟩ := inv_reach h
  refine ⟨⟨g.refs, hinv.mem.counts, htied.refs_eq hinv⟩,
    fun hfree => ⟨(g.note s.mem).chain, fun b => ?_, fun o ho b => ?_⟩, hinv.not_fault⟩
  · exact ⟨hinv.mem.chains b, (hinv.mem.chains b).nodup⟩
  · rw [mem_chain, hinv.mem_live_iff hfree ho, and_comm, eq_comm]

/-- `t` calls `op` and performs `n` operations. -/
def callRun {Tid : Type*} (t : Tid) (op : Op) (n : ℕ) : List (Action Tid) :=
  .call t op :: List.replicate n (.step t)

/-- Between the two locks of a `rele` that saw count 1, another thread finds the
object: the recheck leaves it linked. -/
def recheckRun : List (Action Bool) :=
  callRun false (.create 1) 7 ++ callRun false (.rele 0) 4 ++ callRun true (.find 1) 10 ++
    List.replicate 8 (.step false)

theorem recheckRun_linked : ∃ s l, (ownedTable Bool).Reach (s, l) ∧ s.hashlock = .free ∧
    (∃ refs, refsOf false refs = [] ∧ refsOf true refs = [0] ∧
      s.mem.count 0 = refs.countP fun p => p.2 = 0) ∧ s.mem.count 0 = 1 ∧
    ∃ chain, IsChain s.mem.next (s.mem.fh (Foo.hash (s.mem.id 0))) chain ∧ 0 ∈ chain := by
  have hrun : ((ownedTable Bool).run (initState, []) recheckRun).map
      (fun p => (p.1.hashlock, p.1.mem.count 0, [p.1.pc false, p.1.pc true],
        [(client false p.2).owned, (client true p.2).owned]))
      = some (.free, 1, [.idle, .idle], [[], [0]]) := by decide +kernel
  obtain ⟨⟨s, l⟩, hs, hobs⟩ := Option.map_eq_some_iff.mp hrun
  simp only [Prod.mk.injEq, List.cons.injEq, and_true] at hobs
  obtain ⟨hfree, hone, ⟨hpcf, hpct⟩, hownf, hownt⟩ := hobs
  have hinit : (ownedTable Bool).init (initState, []) := ⟨rfl, rfl⟩
  have hreach := Machine.reach_of_run hinit hs
  obtain ⟨⟨refs, hcount, hrefs⟩, hchains, -⟩ := ownedTable_safe hreach
  obtain ⟨chain, hchain, hmem⟩ := hchains hfree
  refine ⟨s, l, hreach, hfree, ⟨refs, ?_, ?_, hcount 0⟩, hone, _, (hchain _).1,
    (hmem 0 ?_ _).mpr ⟨rfl, hone.ge⟩⟩
  · rw [hrefs, hpcf, hownf]
    rfl
  · rw [hrefs, hpct, hownt]
    rfl
  · intro t
    cases t
    · rw [hpcf]; nofun
    · rw [hpct]; nofun

end Client

end Apue.Foo
