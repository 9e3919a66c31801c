/-
Apue/Foo.lean

The reference-counted hash table of `11/6_usage_two_mutex.cpp`: class `Foo` with
`create`, `hold`, `find` and `rele`, run by any number of threads.

A thread's program counter (`Pc`) names the next mutex operation or field access
of the function it is in, so threads interleave between any two of them; an
increment or decrement of `count` is a load and a store.  The locals a function
still needs are arguments of the program counter.  Each branch of `step` is one
such operation.

The fields of the objects are kept as one function per field from addresses.
`new` returns the next unused address; the memory of an object outlives its use
(it is held by a `shared_ptr`).  `count` is a natural number: the `size_t` cannot
wrap before 2^64 references exist.

What the table should do is said over its history (`Event`), which is recorded
beside the program from its steps: the calls with their arguments and what they
return, the increments of counts, and the objects put into and taken out of the
chains.  What a thread owns follows from its own calls and their results
(`client`).
-/
import Mathlib.Data.Fintype.Defs
import Mathlib.Data.Int.Basic
import Mathlib.Logic.Function.Basic
import Apue.Machine
import Apue.PtrChain

namespace Apue.Foo

/-! ### Data -/

/-- An address of a `Foo`. -/
abbrev Ref := ℕ

/-- `NHASH`. -/
def nhash : ℕ := 29

/-- `HASH(id)`, for an `id` that has been converted to `unsigned long`. -/
def hash (id : BitVec 64) : Fin nhash := ⟨id.toNat % nhash, Nat.mod_lt _ (by decide)⟩

/-- The conversion of an `int` to `size_t` or `unsigned long`. -/
def ofInt (id : BitVec 32) : BitVec 64 := id.signExtend 64

/-- A `pthread_mutex_t`. -/
inductive Mutex (Tid : Type*)
  | free
  | held (t : Tid)
  | destroyed
  deriving DecidableEq

/-- The messages given to `print`. -/
inductive Msg
  | created      -- "Created and inserted to list"
  | increased    -- "Increased count"
  | decreased    -- "Decreased count"
  | removed      -- "Decreased count and removed from list"
  deriving DecidableEq, Repr

/-- What must not happen. -/
inductive Fault
  | holdThrows       -- "hold() called on object with count 0", from hold
  | releThrows       -- the same, from rele
  | nullDeref        -- the unlink walk dereferences a null pointer
  | lockDestroyed    -- a destroyed mutex is locked
  | unlockNotOwner   -- a mutex is unlocked by a thread that does not hold it
  | destroyHeld      -- a mutex is destroyed that is held or destroyed
  deriving DecidableEq, Repr

/-- The next operation of a thread.  `k` tells who called `hold`: the client
(`none`) or `find(id)` (`some id`). -/
inductive Pc
  | idle
  -- create(id)
  | createNew (id : BitVec 32)
  | createPrint (id : BitVec 32) (r : Ref)
  | createLock (id : BitVec 32) (r : Ref)
  | createLoad (id : BitVec 32) (r : Ref)
  | createNext (id : BitVec 32) (r : Ref) (head : Option Ref)
  | createHead (id : BitVec 32) (r : Ref)
  | createUnlock (r : Ref)
  -- hold()
  | holdTest (o : Ref) (k : Option (BitVec 64))
  | holdLock (o : Ref) (k : Option (BitVec 64))
  | holdLoad (o : Ref) (k : Option (BitVec 64))
  | holdStore (o : Ref) (k : Option (BitVec 64)) (v : ℕ)
  | holdUnlock (o : Ref) (k : Option (BitVec 64))
  | holdPrint (o : Ref) (k : Option (BitVec 64))
  -- find(id)
  | findLock (id : BitVec 64)
  | findHead (id : BitVec 64)
  | findTest (id : BitVec 64) (fp : Option Ref)
  | findNext (id : BitVec 64) (fp : Ref)
  | findUnlock (id : BitVec 64) (fp : Option Ref)
  -- rele(): the head test, and the branch with other references left
  | releTest (o : Ref)
  | releLock (o : Ref)
  | releCheck (o : Ref)
  | releLoad (o : Ref)
  | releStore (o : Ref) (v : ℕ)
  | releUnlock (o : Ref)
  -- rele(): "last reference", the locks are taken again in order
  | releDrop (o : Ref)
  | releHash (o : Ref)
  | releRelock (o : Ref)
  | releRecheck (o : Ref)
  -- rele(): the recheck found another reference
  | releBackLoad (o : Ref)
  | releBackStore (o : Ref) (v : ℕ)
  | releBackUnlock (o : Ref)
  | releBackUnhash (o : Ref)
  | releBackPrint (o : Ref)
  -- rele(): "remove from list"
  | releFirst (o : Ref)
  | releHeadLoad (o : Ref)
  | releHeadStore (o : Ref) (nx : Option Ref)
  | releWalk (o : Ref) (tfp : Option Ref)
  | releMidLoad (o : Ref) (tfp : Ref)
  | releMidStore (o : Ref) (tfp : Ref) (nx : Option Ref)
  | releLastLoad (o : Ref)
  | releLastStore (o : Ref) (v : ℕ)
  | releLastPrint (o : Ref)
  | releLastUnhash (o : Ref)
  | releLastUnlock (o : Ref)
  | releDestroy (o : Ref)
  | fault (e : Fault)
  deriving DecidableEq, Repr

/-- The shared fields other than the mutexes. -/
structure Mem where
  count : Ref → ℕ
  id : Ref → BitVec 64
  next : Ref → Option Ref
  fh : Fin nhash → Option Ref
  brk : Ref

/-- The state of the program. -/
structure State (Tid : Type*) where
  mem : Mem
  lock : Ref → Mutex Tid
  hashlock : Mutex Tid
  pc : Tid → Pc
  /-- the pointer the thread's last `create` or `find` returned -/
  ret : Tid → Option Ref
  out : List (Msg × BitVec 64 × ℕ)

section Program

variable {Tid : Type*} [DecidableEq Tid]

/-- The empty table. -/
def initState : State Tid where
  mem :=
    { count := fun _ => 0, id := fun _ => 0, next := fun _ => none, fh := fun _ => none,
      brk := 0 }
  lock := fun _ => .free
  hashlock := .free
  pc := fun _ => .idle
  ret := fun _ => none
  out := []

/-! ### Writes to the shared fields -/

/-- `new Foo(id)`: `count(1)`, `id(id)`, a null `next`. -/
def Mem.newFoo (m : Mem) (id : BitVec 64) : Mem :=
  { m with
    count := Function.update m.count m.brk 1
    id := Function.update m.id m.brk id
    next := Function.update m.next m.brk none
    brk := m.brk + 1 }

/-- The store of an increment or a decrement. -/
def Mem.setCount (m : Mem) (o : Ref) (v : ℕ) : Mem :=
  { m with count := Function.update m.count o v }

/-- `o->next = p`. -/
def Mem.setNext (m : Mem) (o : Ref) (p : Option Ref) : Mem :=
  { m with next := Function.update m.next o p }

/-- `fh[b] = p`. -/
def Mem.setFh (m : Mem) (b : Fin nhash) (p : Option Ref) : Mem :=
  { m with fh := Function.update m.fh b p }

/-! ### The operations of a thread -/

/-- The thread continues at `p`. -/
def State.goto (s : State Tid) (t : Tid) (p : Pc) : State Tid :=
  { s with pc := Function.update s.pc t p }

/-- The thread changes the shared fields and continues at `p`. -/
def State.write (s : State Tid) (t : Tid) (m : Mem) (p : Pc) : State Tid :=
  { s with mem := m, pc := Function.update s.pc t p }

/-- `pthread_mutex_lock(&hashlock)`. -/
def State.lockHash (s : State Tid) (t : Tid) (p : Pc) : Option (State Tid) :=
  match s.hashlock with
  | .free => some ({ s with hashlock := .held t }.goto t p)
  | .held _ => none
  | .destroyed => some (s.goto t (.fault .lockDestroyed))

/-- `pthread_mutex_unlock(&hashlock)`. -/
def State.unlockHash (s : State Tid) (t : Tid) (p : Pc) : State Tid :=
  if s.hashlock = .held t then { s with hashlock := .free }.goto t p
  else s.goto t (.fault .unlockNotOwner)

/-- `pthread_mutex_lock(&o->lock)`. -/
def State.lockObj (s : State Tid) (t : Tid) (o : Ref) (p : Pc) : Option (State Tid) :=
  match s.lock o with
  | .free => some ({ s with lock := Function.update s.lock o (.held t) }.goto t p)
  | .held _ => none
  | .destroyed => some (s.goto t (.fault .lockDestroyed))

/-- `pthread_mutex_unlock(&o->lock)`. -/
def State.unlockObj (s : State Tid) (t : Tid) (o : Ref) (p : Pc) : State Tid :=
  if s.lock o = .held t then
    { s with lock := Function.update s.lock o .free }.goto t p
  else s.goto t (.fault .unlockNotOwner)

/-- `pthread_mutex_destroy(&o->lock)`. -/
def State.destroyObj (s : State Tid) (t : Tid) (o : Ref) (p : Pc) : State Tid :=
  if s.lock o = .free then
    { s with lock := Function.update s.lock o .destroyed }.goto t p
  else s.goto t (.fault .destroyHeld)

/-- `print(msg)`. -/
def State.print (s : State Tid) (o : Ref) (msg : Msg) : State Tid :=
  { s with out := s.out ++ [(msg, s.mem.id o, s.mem.count o)] }

/-- The function returns `p`. -/
def State.returns (s : State Tid) (t : Tid) (p : Option Ref) : State Tid :=
  { s with ret := Function.update s.ret t p }

/-- `hold` returns to the client, or to `find`, which breaks out of its loop. -/
def afterHold (o : Ref) : Option (BitVec 64) → Pc
  | none => .idle
  | some id => .findUnlock id (some o)

/-- One operation of thread `t`.  `none` means that the thread is between two
calls, or has to wait for a mutex. -/
def step (s : State Tid) (t : Tid) : Option (State Tid) :=
  match s.pc t with
  | .idle => none
  | .fault _ => none
  -- create
  | .createNew id => some (s.write t (s.mem.newFoo (ofInt id)) (.createPrint id s.mem.brk))
  | .createPrint id r => some ((s.print r .created).goto t (.createLock id r))
  | .createLock id r => s.lockHash t (.createLoad id r)
  | .createLoad id r => some (s.goto t (.createNext id r (s.mem.fh (hash (ofInt id)))))
  | .createNext id r head => some (s.write t (s.mem.setNext r head) (.createHead id r))
  | .createHead id r =>
      some (s.write t (s.mem.setFh (hash (ofInt id)) (some r)) (.createUnlock r))
  | .createUnlock r => some ((s.unlockHash t .idle).returns t (some r))
  -- hold
  | .holdTest o k =>
      some (s.goto t (if s.mem.count o = 0 then .fault .holdThrows else .holdLock o k))
  | .holdLock o k => s.lockObj t o (.holdLoad o k)
  | .holdLoad o k => some (s.goto t (.holdStore o k (s.mem.count o)))
  | .holdStore o k v => some (s.write t (s.mem.setCount o (v + 1)) (.holdUnlock o k))
  | .holdUnlock o k => some (s.unlockObj t o (.holdPrint o k))
  | .holdPrint o k => some ((s.print o .increased).goto t (afterHold o k))
  -- find
  | .findLock id => s.lockHash t (.findHead id)
  | .findHead id => some (s.goto t (.findTest id (s.mem.fh (hash id))))
  | .findTest id none => some (s.goto t (.findUnlock id none))
  | .findTest id (some fp) =>
      some (s.goto t (if s.mem.id fp = id then .holdTest fp (some id) else .findNext id fp))
  | .findNext id fp => some (s.goto t (.findTest id (s.mem.next fp)))
  | .findUnlock _ fp => some ((s.unlockHash t .idle).returns t fp)
  -- rele
  | .releTest o =>
      some (s.goto t (if s.mem.count o = 0 then .fault .releThrows else .releLock o))
  | .releLock o => s.lockObj t o (.releCheck o)
  | .releCheck o => some (s.goto t (if s.mem.count o = 1 then .releDrop o else .releLoad o))
  | .releLoad o => some (s.goto t (.releStore o (s.mem.count o)))
  | .releStore o v => some (s.write t (s.mem.setCount o (v - 1)) (.releUnlock o))
  | .releUnlock o => some (s.unlockObj t o .idle)
  | .releDrop o => some (s.unlockObj t o (.releHash o))
  | .releHash o => s.lockHash t (.releRelock o)
  | .releRelock o => s.lockObj t o (.releRecheck o)
  | .releRecheck o =>
      some (s.goto t (if s.mem.count o ≠ 1 then .releBackLoad o else .releFirst o))
  | .releBackLoad o => some (s.goto t (.releBackStore o (s.mem.count o)))
  | .releBackStore o v => some (s.write t (s.mem.setCount o (v - 1)) (.releBackUnlock o))
  | .releBackUnlock o => some (s.unlockObj t o (.releBackUnhash o))
  | .releBackUnhash o => some (s.unlockHash t (.releBackPrint o))
  | .releBackPrint o => some ((s.print o .decreased).goto t .idle)
  | .releFirst o =>
      let tfp := s.mem.fh (hash (s.mem.id o))
      some (s.goto t (if tfp = some o then .releHeadLoad o else .releWalk o tfp))
  | .releHeadLoad o => some (s.goto t (.releHeadStore o (s.mem.next o)))
  | .releHeadStore o nx =>
      some (s.write t (s.mem.setFh (hash (s.mem.id o)) nx) (.releLastLoad o))
  | .releWalk _ none => some (s.goto t (.fault .nullDeref))
  | .releWalk o (some tfp) =>
      some (s.goto t (if s.mem.next tfp = some o then .releMidLoad o tfp
        else .releWalk o (s.mem.next tfp)))
  | .releMidLoad o tfp => some (s.goto t (.releMidStore o tfp (s.mem.next o)))
  | .releMidStore o tfp nx => some (s.write t (s.mem.setNext tfp nx) (.releLastLoad o))
  | .releLastLoad o => some (s.goto t (.releLastStore o (s.mem.count o)))
  | .releLastStore o v => some (s.write t (s.mem.setCount o (v - 1)) (.releLastPrint o))
  | .releLastPrint o => some ((s.print o .removed).goto t (.releLastUnhash o))
  | .releLastUnhash o => some (s.unlockHash t (.releLastUnlock o))
  | .releLastUnlock o => some (s.unlockObj t o (.releDestroy o))
  | .releDestroy o => some (s.destroyObj t o .idle)

/-! ### The program as a machine -/

/-- A call a client can make. -/
inductive Op
  | create (id : BitVec 32)
  | find (id : BitVec 64)
  | hold (o : Ref)
  | rele (o : Ref)
  deriving DecidableEq, Repr

/-- Where the called function starts. -/
def Op.entry : Op → Pc
  | .create id => .createNew id
  | .find id => .findLock id
  | .hold o => .holdTest o none
  | .rele o => .releTest o

/-- A thread calls a function, or performs its next operation. -/
inductive Action (Tid : Type*)
  | call (t : Tid) (op : Op)
  | step (t : Tid)

/-- One step of the program. -/
def next (s : State Tid) : Action Tid → Option (State Tid)
  | .call t op => if s.pc t = .idle then some (s.goto t op.entry) else none
  | .step t => step s t

/-- The table and the threads that use it. -/
def table (Tid : Type*) [DecidableEq Tid] : Machine (State Tid) (Action Tid) where
  init s := s = initState
  next := next

/-! ### The history -/

/-- What happens to the table. -/
inductive Event (Tid : Type*)
  | call (t : Tid) (op : Op)
  /-- the count of `o` has become one more -/
  | raised (t : Tid) (o : Ref)
  | inserted (o : Ref)
  | unlinked (o : Ref)
  /-- the call returns to the client -/
  | ret (t : Tid) (p : Option Ref)
  deriving DecidableEq

/-- What an operation of thread `t` that leads to `s'` does to the objects. -/
def changes (s s' : State Tid) (t : Tid) : List (Event Tid) :=
  match s.pc t with
  | .holdStore o _ _ => if s'.mem.count o = s.mem.count o + 1 then [.raised t o] else []
  | .createHead _ r => [.inserted r]
  | .releHeadStore o _ | .releMidStore o _ _ => [.unlinked o]
  | _ => []

/-- The call returns with an operation after which the thread is idle. -/
def returned (s' : State Tid) (t : Tid) : List (Event Tid) :=
  if s'.pc t = .idle then [.ret t (s'.ret t)] else []

/-- What happens at an action. -/
def observe (s : State Tid) : Action Tid → List (Event Tid)
  | .call t op => [.call t op]
  | .step t =>
      match step s t with
      | none => []
      | some s' => changes s s' t ++ returned s' t

/-- The objects inserted, most recent first. -/
def inserted (l : List (Event Tid)) : List Ref :=
  (l.filterMap fun e => match e with
    | .inserted o => some o
    | _ => none).reverse

/-- The objects unlinked. -/
def unlinked (l : List (Event Tid)) : List Ref :=
  (l.filterMap fun e => match e with
    | .unlinked o => some o
    | _ => none).reverse

/-- The objects inserted and not yet unlinked, most recent first. -/
def live (l : List (Event Tid)) : List Ref := (inserted l).filter (· ∉ unlinked l)

/-- What a client owns after a call that has returned `p`, if it owned `own` before: `create` and
`find` return a reference, `hold` adds one and `rele` gives one up. -/
def Op.after (op : Op) (p : Option Ref) (own : List Ref) : List Ref :=
  match op with
  | .create _ | .find _ => p.toList ++ own
  | .hold o => o :: own
  | .rele o => own.erase o

/-- A thread seen from outside: its last call, the counts raised since, and the references that
its calls have returned and that it has not released. -/
structure Client where
  op : Option Op
  raised : List Ref
  owned : List Ref

/-- An event as thread `t` sees it. -/
def Client.see (t : Tid) (c : Client) : Event Tid → Client
  | .call u op => if u = t then { c with op := some op, raised := [] } else c
  | .raised u o => if u = t then { c with raised := o :: c.raised } else c
  | .ret u p =>
      if u = t then { c with owned := c.op.elim c.owned fun op => op.after p c.owned } else c
  | .inserted _ | .unlinked _ => c

/-- Thread `t` after a history. -/
def client (t : Tid) (l : List (Event Tid)) : Client := l.foldl (Client.see t) ⟨none, [], []⟩

/-- A client calls `hold` and `rele` only on objects it owns a reference on. -/
def Owns (p : State Tid × List (Event Tid)) : Action Tid → Prop
  | .call t (.hold o) => o ∈ (client t p.2).owned
  | .call t (.rele o) => o ∈ (client t p.2).owned
  | _ => True

instance (p : State Tid × List (Event Tid)) (a : Action Tid) : Decidable (Owns p a) :=
  match a with
  | .call _ (.hold _) | .call _ (.rele _) => inferInstanceAs (Decidable (_ ∈ _))
  | .call _ (.create _) | .call _ (.find _) | .step _ => .isTrue trivial

/-- The table used by such clients, with its history. -/
def ownedTable (Tid : Type*) [DecidableEq Tid] :
    Machine (State Tid × List (Event Tid)) (Action Tid) :=
  ((table Tid).recorded observe).restrict Owns

end Program

end Apue.Foo
