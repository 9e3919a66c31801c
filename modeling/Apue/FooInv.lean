/-
Apue/FooInv.lean

The invariant of the reference-counted hash table.

The invariant speaks of more than the program has (`Ghost`): the outstanding
references, each with the thread that owns it (from the construction in `create`,
or the increment in `hold`, until the decrement in `rele`), the objects inserted
and unlinked, and the counts each thread has raised in its current call.

What a thread may rely on depends on where it is.  `PcOk` is the assertion at
each program counter, over the shared fields only.  Facts about the links are
asserted only where the thread holds `hashlock`, facts about the value of a
count only where it holds the object's lock, where the object is still private
to it (`fresh`) or where the count is zero for good (`ending`).  That is all that
is needed for an assertion to survive the steps of other threads
(`PcOk.frame`).

Which mutexes a thread holds is a function of its program counter
(`holdsHash`, `holdsLock`), and the mutexes agree with it.

Every reference is on an object that is linked, except while its only owner is
about to insert the object or has just unlinked it (`Inv.refs`).
-/
import Mathlib.Data.List.Count
import Apue.Foo

namespace Apue.Foo

open PtrChain

/-! ### What a thread holds at each point -/

/-- The thread holds `hashlock`. -/
def Pc.holdsHash : Pc → Bool
  | .createLoad _ _ | .createNext _ _ _ | .createHead _ _ | .createUnlock _ => true
  | .holdTest _ k | .holdLock _ k | .holdLoad _ k | .holdStore _ k _ | .holdUnlock _ k
  | .holdPrint _ k => k.isSome
  | .findHead _ | .findTest _ _ | .findNext _ _ | .findUnlock _ _ => true
  | .releRelock _ | .releRecheck _ | .releBackLoad _ | .releBackStore _ _
  | .releBackUnlock _ | .releBackUnhash _ => true
  | .releFirst _ | .releHeadLoad _ | .releHeadStore _ _ | .releWalk _ _ | .releMidLoad _ _
  | .releMidStore _ _ _ | .releLastLoad _ | .releLastStore _ _ | .releLastPrint _
  | .releLastUnhash _ => true
  | _ => false

/-- The object whose lock the thread holds. -/
def Pc.holdsLock : Pc → Option Ref
  | .holdLoad o _ | .holdStore o _ _ | .holdUnlock o _ => some o
  | .releCheck o | .releLoad o | .releStore o _ | .releUnlock o | .releDrop o => some o
  | .releRecheck o | .releBackLoad o | .releBackStore o _ | .releBackUnlock o => some o
  | .releFirst o | .releHeadLoad o | .releHeadStore o _ | .releWalk o _ | .releMidLoad o _
  | .releMidStore o _ _ | .releLastLoad o | .releLastStore o _ | .releLastPrint o
  | .releLastUnhash o | .releLastUnlock o => some o
  | _ => none

/-- The object `create` has allocated and not yet inserted. -/
def Pc.fresh : Pc → Option Ref
  | .createPrint _ r | .createLock _ r | .createLoad _ r | .createNext _ r _
  | .createHead _ r => some r
  | _ => none

/-- The object `rele` has unlinked and not yet given up. -/
def Pc.limbo : Pc → Option Ref
  | .releLastLoad o | .releLastStore o _ => some o
  | _ => none

/-- The object whose last reference `rele` has given up. -/
def Pc.ending : Pc → Option Ref
  | .releLastPrint o | .releLastUnhash o | .releLastUnlock o | .releDestroy o => some o
  | _ => none

section Invariant

variable {Tid : Type*}

/-! ### What the invariant adds to the shared fields -/

/-- The shared fields with the outstanding references and the objects inserted and unlinked, most
recent first. -/
structure Noted (Tid : Type*) extends Mem where
  refs : List (Tid × Ref)
  inserted : List Ref
  unlinked : List Ref

/-- What the invariant adds to the state of the program. -/
structure Ghost (Tid : Type*) where
  refs : List (Tid × Ref)
  inserted : List Ref
  unlinked : List Ref
  raised : Tid → List Ref

/-- The shared fields with what is added to them. -/
abbrev Ghost.note (g : Ghost Tid) (m : Mem) : Noted Tid := ⟨m, g.refs, g.inserted, g.unlinked⟩

/-- The objects inserted and not yet unlinked, most recent first. -/
def Noted.live (m : Noted Tid) : List Ref := m.inserted.filter (· ∉ m.unlinked)

/-! ### Assertions on the shared fields -/

/-- The objects of bucket `b` that are inserted and not unlinked, most recent
first. -/
def Noted.chain (m : Noted Tid) (b : Fin nhash) : List Ref :=
  m.live.filter fun o => hash (m.id o) = b

/-- The most recently inserted object with this `id` that is not unlinked. -/
def Noted.firstLive (m : Noted Tid) (id : BitVec 64) : Option Ref :=
  m.live.find? fun o => m.id o = id

/-- `r` is private to the thread that is creating it. -/
structure Fresh (m : Noted Tid) (t : Tid) (id : BitVec 32) (r : Ref) : Prop where
  notMem : r ∉ m.inserted
  owned : (t, r) ∈ m.refs
  count : m.count r = 1
  id : m.id r = ofInt id

/-- The thread owns the only reference on `o`. -/
structure Sole (m : Noted Tid) (t : Tid) (o : Ref) : Prop where
  owned : (t, o) ∈ m.refs
  count : m.count o = 1

/-- `find(id)` stands at `fp`: no match so far, the rest of the chain to go. -/
def Searching (m : Noted Tid) (id : BitVec 64) (fp : Option Ref) : Prop :=
  ∃ pre suf, m.chain (hash id) = pre ++ suf ∧ IsChain m.next fp suf ∧ ∀ x ∈ pre, m.id x ≠ id

/-- Why `hold` may be called on `o`: the client owns a reference, or `find` has
just found it. -/
def Target (m : Noted Tid) (raised : List Ref) (t : Tid) (o : Ref) : Option (BitVec 64) → Prop
  | none => (t, o) ∈ m.refs
  | some id => m.firstLive id = some o ∧ raised = []

/-- What `find` knows when its `hold` has incremented the count. -/
def Raised (m : Noted Tid) (raised : List Ref) (o : Ref) : Option (BitVec 64) → Prop
  | none => True
  | some id => m.firstLive id = some o ∧ raised = [o]

/-- The assertion at a program counter of thread `t`. -/
def PcOk (m : Noted Tid) (raised : List Ref) (t : Tid) : Pc → Prop
  | .idle | .createNew _ | .createUnlock _ => True
  | .fault _ => False
  | .createPrint id r | .createLock id r | .createLoad id r => Fresh m t id r
  | .createNext id r head => Fresh m t id r ∧ head = m.fh (hash (ofInt id))
  | .createHead id r => Fresh m t id r ∧ m.next r = m.fh (hash (ofInt id))
  | .holdTest o k | .holdLock o k | .holdLoad o k => Target m raised t o k
  | .holdStore o k v => Target m raised t o k ∧ v = m.count o
  | .holdUnlock o k | .holdPrint o k => Raised m raised o k
  | .findLock _ | .findHead _ => raised = []
  | .findTest id fp => Searching m id fp ∧ raised = []
  | .findNext id fp => Searching m id (some fp) ∧ m.id fp ≠ id ∧ raised = []
  | .findUnlock id fp => m.firstLive id = fp ∧ raised = fp.toList
  | .releTest o | .releLock o | .releCheck o | .releDrop o | .releHash o | .releRelock o
  | .releRecheck o => (t, o) ∈ m.refs
  | .releLoad o | .releBackLoad o => (t, o) ∈ m.refs ∧ m.count o ≠ 1
  | .releStore o v | .releBackStore o v => (t, o) ∈ m.refs ∧ m.count o ≠ 1 ∧ v = m.count o
  | .releUnlock _ | .releBackUnlock _ | .releBackUnhash _ | .releBackPrint _ => True
  | .releFirst o => Sole m t o
  | .releHeadLoad o => Sole m t o ∧ m.fh (hash (m.id o)) = some o
  | .releHeadStore o nx => Sole m t o ∧ m.fh (hash (m.id o)) = some o ∧ nx = m.next o
  | .releWalk o tfp => Sole m t o ∧
      ∃ pre a suf, tfp = some a ∧ m.chain (hash (m.id o)) = pre ++ a :: suf ∧ o ∈ suf
  | .releMidLoad o tfp => Sole m t o ∧ tfp ∈ m.chain (hash (m.id o)) ∧ m.next tfp = some o
  | .releMidStore o tfp nx => Sole m t o ∧ tfp ∈ m.chain (hash (m.id o)) ∧
      m.next tfp = some o ∧ nx = m.next o
  | .releLastLoad o => Sole m t o ∧ o ∉ m.live
  | .releLastStore o v => Sole m t o ∧ o ∉ m.live ∧ v = m.count o
  | .releLastPrint o | .releLastUnhash o | .releLastUnlock o | .releDestroy o =>
      m.count o = 0 ∧ o < m.brk

/-- What always holds of the shared fields. -/
structure MemOk (m : Noted Tid) : Prop where
  counts : ∀ o, m.count o = m.refs.countP fun p => p.2 = o
  unused : ∀ o, m.brk ≤ o → m.count o = 0 ∧ o ∉ m.inserted
  nodup : m.inserted.Nodup
  sub : ∀ o ∈ m.unlinked, o ∈ m.inserted
  chains : ∀ b, IsChain m.next (m.fh b) (m.chain b)
  counted : ∀ o ∈ m.live, 0 < m.count o

/-- The invariant of the whole program. -/
structure Inv (s : State Tid) (g : Ghost Tid) : Prop where
  mem : MemOk (g.note s.mem)
  refs : ∀ t o, (t, o) ∈ g.refs →
    o ∈ (g.note s.mem).live ∨ (s.pc t).fresh = some o ∨ (s.pc t).limbo = some o
  pcs : ∀ t, PcOk (g.note s.mem) (g.raised t) t (s.pc t)
  hash : ∀ t, s.hashlock = .held t ↔ (s.pc t).holdsHash = true
  hashAlive : s.hashlock ≠ .destroyed
  obj : ∀ t o, s.lock o = .held t ↔ (s.pc t).holdsLock = some o
  used : ∀ o, s.lock o ≠ .free → o < s.mem.brk
  dead : ∀ o, s.lock o = .destroyed → s.mem.count o = 0
  solo : ∀ t t' o, (s.pc t).ending = some o → (s.pc t').ending = some o → t = t'
  ready : ∀ t o, (s.pc t).ending = some o →
    s.lock o ≠ .destroyed ∧ ∀ t', s.lock o = .held t' → t' = t

/-! ### Facts about the shared fields -/

section Mem

variable {m : Noted Tid} {t t' : Tid} {o : Ref}

theorem mem_live : o ∈ m.live ↔ o ∈ m.inserted ∧ o ∉ m.unlinked := by
  simp [Noted.live]

theorem mem_chain {b : Fin nhash} : o ∈ m.chain b ↔ o ∈ m.live ∧ hash (m.id o) = b := by
  simp [Noted.chain]

theorem MemOk.count_pos (h : MemOk m) (ho : (t, o) ∈ m.refs) : 0 < m.count o := by
  rw [h.counts, List.countP_pos_iff]
  exact ⟨_, ho, by simp⟩

theorem MemOk.lt_brk (h : MemOk m) (ho : 0 < m.count o) : o < m.brk := by
  by_contra hge
  have := (h.unused o (Nat.le_of_not_lt hge)).1
  omega

theorem MemOk.live_lt_brk (h : MemOk m) (ho : o ∈ m.live) : o < m.brk :=
  h.lt_brk (h.counted o ho)

/-- Two threads with references on one object count twice. -/
theorem MemOk.two_le_count [DecidableEq Tid] (h : MemOk m) (hne : t ≠ t') (ho : (t, o) ∈ m.refs)
    (ho' : (t', o) ∈ m.refs) : 2 ≤ m.count o := by
  have hmem : (t', o) ∈ m.refs.erase (t, o) := by
    rw [List.mem_erase_of_ne]
    · exact ho'
    · simpa using hne.symm
  have hperm := (List.perm_cons_erase ho).countP_eq fun p => decide (p.2 = o)
  have hpos : 0 < (m.refs.erase (t, o)).countP fun p => p.2 = o :=
    List.countP_pos_iff.mpr ⟨_, hmem, by simp⟩
  rw [h.counts, hperm, List.countP_cons_of_pos (by simp)]
  omega

theorem MemOk.sole_owner [DecidableEq Tid] (h : MemOk m) (hc : m.count o = 1)
    (ho : (t, o) ∈ m.refs) (ho' : (t', o) ∈ m.refs) : t = t' := by
  by_contra hne
  have := h.two_le_count hne ho ho'
  omega

/-- All objects with the same `id` are in the same chain, in the same order. -/
theorem firstLive_eq_find?_chain (m : Noted Tid) (id : BitVec 64) :
    m.firstLive id = (m.chain (hash id)).find? fun o => m.id o = id := by
  rw [Noted.firstLive, Noted.chain, List.find?_filter]
  refine congrArg (fun p => m.live.find? p) (funext fun o => ?_)
  by_cases ho : m.id o = id <;> simp [ho]

theorem mem_live_of_firstLive {id : BitVec 64} (h : m.firstLive id = some o) : o ∈ m.live :=
  List.mem_of_find?_eq_some h

/-- A target of `hold` has a positive count. -/
theorem MemOk.target_pos (h : MemOk m) {R : List Ref} {k : Option (BitVec 64)}
    (ht : Target m R t o k) : 0 < m.count o := by
  cases k with
  | none => exact h.count_pos ht
  | some id => exact h.counted o (mem_live_of_firstLive ht.1)

/-! ### The frame rule -/

theorem chain_congr {m' : Noted Tid} (h : MemOk m) (hlive : m'.live = m.live)
    (hid : ∀ o < m.brk, m'.id o = m.id o) (b : Fin nhash) : m'.chain b = m.chain b := by
  rw [Noted.chain, Noted.chain, hlive]
  refine List.filter_congr fun o ho => ?_
  rw [hid o (h.live_lt_brk ho)]

theorem firstLive_congr {m' : Noted Tid} (h : MemOk m) (hlive : m'.live = m.live)
    (hid : ∀ o < m.brk, m'.id o = m.id o) (id : BitVec 64) :
    m'.firstLive id = m.firstLive id := by
  rw [Noted.firstLive, Noted.firstLive, hlive, ← List.head?_filter, ← List.head?_filter]
  refine congrArg List.head? (List.filter_congr fun o ho => ?_)
  rw [hid o (h.live_lt_brk ho)]

/-- The links seen by a thread that holds `hashlock` are the same. -/
structure SameLinks (m m' : Noted Tid) : Prop where
  live : m'.live = m.live
  fh : m'.fh = m.fh
  next : ∀ o < m.brk, m'.next o = m.next o

theorem Searching.congr {m' : Noted Tid} (h : MemOk m) (hl : SameLinks m m')
    (hid : ∀ o < m.brk, m'.id o = m.id o) {id : BitVec 64} {fp : Option Ref}
    (hs : Searching m id fp) : Searching m' id fp := by
  obtain ⟨pre, suf, heq, hchain, hne⟩ := hs
  have hlt : ∀ x ∈ pre ++ suf, x < m.brk := by
    intro x hx
    rw [← heq] at hx
    exact h.live_lt_brk (mem_chain.mp hx).1
  refine ⟨pre, suf, (chain_congr h hl.live hid _).trans heq, ?_, ?_⟩
  · exact hchain.congr fun o ho => hl.next o (hlt o (by simp [ho]))
  · intro x hx
    rw [hid x (hlt x (by simp [hx]))]
    exact hne x hx

theorem Fresh.congr {m' : Noted Tid} (h : MemOk m)
    (hrefs : ∀ o, (t, o) ∈ m.refs → (t, o) ∈ m'.refs)
    (hid : ∀ o < m.brk, m'.id o = m.id o) {id : BitVec 32} {r : Ref}
    (hcount : m'.count r = m.count r) (hins : r ∉ m'.inserted) (hf : Fresh m t id r) :
    Fresh m' t id r where
  notMem := hins
  owned := hrefs r hf.owned
  count := hcount.trans hf.count
  id := (hid r (h.lt_brk (h.count_pos hf.owned))).trans hf.id

theorem Target.congr {m' : Noted Tid} (h : MemOk m)
    (hrefs : ∀ o, (t, o) ∈ m.refs → (t, o) ∈ m'.refs)
    (hid : ∀ o < m.brk, m'.id o = m.id o) {R : List Ref} {k : Option (BitVec 64)}
    (hl : k.isSome = true → SameLinks m m') (ht : Target m R t o k) : Target m' R t o k := by
  cases k with
  | none => exact hrefs o ht
  | some id => exact ⟨(firstLive_congr h (hl rfl).live hid id).trans ht.1, ht.2⟩

theorem Raised.congr {m' : Noted Tid} (h : MemOk m) (hid : ∀ o < m.brk, m'.id o = m.id o)
    {R : List Ref} {k : Option (BitVec 64)} (hl : k.isSome = true → SameLinks m m')
    (ht : Raised m R o k) : Raised m' R o k := by
  cases k with
  | none => trivial
  | some id => exact ⟨(firstLive_congr h (hl rfl).live hid id).trans ht.1, ht.2⟩

/-- **The frame rule.**  The assertion of a thread survives a change of the shared
fields that keeps its references, the counts it protects and, if it holds
`hashlock`, the links. -/
theorem PcOk.frame {m' : Noted Tid} {R : List Ref} {p : Pc} (h : MemOk m)
    (hok : PcOk m R t p)
    (hrefs : ∀ o, (t, o) ∈ m.refs → (t, o) ∈ m'.refs) (hbrk : m.brk ≤ m'.brk)
    (hid : ∀ o < m.brk, m'.id o = m.id o)
    (hcount : ∀ o, p.holdsLock = some o ∨ p.ending = some o ∨ p.fresh = some o →
      m'.count o = m.count o)
    (hins : ∀ r, p.fresh = some r → r ∉ m'.inserted)
    (hl : p.holdsHash = true → SameLinks m m') : PcOk m' R t p := by
  have hidR : ∀ o, (t, o) ∈ m.refs → m'.id o = m.id o := fun o ho =>
    hid o (h.lt_brk (h.count_pos ho))
  have hsole : ∀ o, p.holdsLock = some o → Sole m t o → Sole m' t o := fun o hp hs =>
    ⟨hrefs o hs.owned, (hcount o (.inl hp)).trans hs.count⟩
  have hfresh : ∀ {id : BitVec 32} {r}, p.fresh = some r → Fresh m t id r → Fresh m' t id r :=
    fun hp hf => hf.congr h hrefs hid (hcount _ (.inr (.inr hp))) (hins _ hp)
  have hnext : ∀ o, p.holdsHash = true → (t, o) ∈ m.refs → m'.next o = m.next o :=
    fun o hp ho => (hl hp).next o (h.lt_brk (h.count_pos ho))
  cases p with
  | idle | createNew _ | createUnlock _ => trivial
  | fault _ => exact hok
  | createPrint id r | createLock id r | createLoad id r => exact hfresh rfl hok
  | createNext id r head => exact ⟨hfresh rfl hok.1, by rw [(hl rfl).fh]; exact hok.2⟩
  | createHead id r =>
      refine ⟨hfresh rfl hok.1, ?_⟩
      rw [(hl rfl).fh, hnext r rfl hok.1.owned]
      exact hok.2
  | holdTest o k | holdLock o k | holdLoad o k => exact Target.congr h hrefs hid hl hok
  | holdStore o k v =>
      exact ⟨Target.congr h hrefs hid hl hok.1, hok.2.trans (hcount o (.inl rfl)).symm⟩
  | holdUnlock o k | holdPrint o k => exact Raised.congr h hid hl hok
  | findLock id | findHead id => exact hok
  | findTest id fp => exact ⟨hok.1.congr h (hl rfl) hid, hok.2⟩
  | findNext id fp =>
      refine ⟨hok.1.congr h (hl rfl) hid, ?_, hok.2.2⟩
      have hmem : fp ∈ m.live := by
        obtain ⟨pre, suf, heq, hchain, -⟩ := hok.1
        obtain ⟨l, rfl⟩ := List.head?_eq_some_iff.mp hchain.start.symm
        have : fp ∈ m.chain (hash id) := by
          rw [heq]
          simp
        exact (mem_chain.mp this).1
      rw [hid fp (h.live_lt_brk hmem)]
      exact hok.2.1
  | findUnlock id fp => exact ⟨(firstLive_congr h (hl rfl).live hid id).trans hok.1, hok.2⟩
  | releTest o | releLock o | releCheck o | releDrop o | releHash o | releRelock o
  | releRecheck o => exact hrefs o hok
  | releLoad o | releBackLoad o =>
      refine ⟨hrefs o hok.1, ?_⟩
      rw [hcount o (.inl rfl)]
      exact hok.2
  | releStore o v | releBackStore o v =>
      refine ⟨hrefs o hok.1, ?_⟩
      rw [hcount o (.inl rfl)]
      exact hok.2
  | releUnlock _ | releBackUnlock _ | releBackUnhash _ | releBackPrint _ => trivial
  | releFirst o => exact hsole o rfl hok
  | releHeadLoad o =>
      refine ⟨hsole o rfl hok.1, ?_⟩
      rw [(hl rfl).fh, hidR o hok.1.owned]
      exact hok.2
  | releHeadStore o nx =>
      refine ⟨hsole o rfl hok.1, ?_⟩
      rw [(hl rfl).fh, hidR o hok.1.owned, hnext o rfl hok.1.owned]
      exact hok.2
  | releWalk o tfp =>
      refine ⟨hsole o rfl hok.1, ?_⟩
      rw [hidR o hok.1.owned, chain_congr h (hl rfl).live hid]
      exact hok.2
  | releMidLoad o tfp =>
      refine ⟨hsole o rfl hok.1, ?_⟩
      rw [hidR o hok.1.owned, chain_congr h (hl rfl).live hid,
        (hl rfl).next tfp (h.live_lt_brk (mem_chain.mp hok.2.1).1)]
      exact hok.2
  | releMidStore o tfp nx =>
      refine ⟨hsole o rfl hok.1, ?_⟩
      rw [hidR o hok.1.owned, chain_congr h (hl rfl).live hid,
        (hl rfl).next tfp (h.live_lt_brk (mem_chain.mp hok.2.1).1),
        hnext o rfl hok.1.owned]
      exact hok.2
  | releLastLoad o => exact ⟨hsole o rfl hok.1, by rw [(hl rfl).live]; exact hok.2⟩
  | releLastStore o v =>
      refine ⟨hsole o rfl hok.1, ?_⟩
      rw [(hl rfl).live, hcount o (.inl rfl)]
      exact hok.2
  | releLastPrint o | releLastUnhash o | releLastUnlock o | releDestroy o =>
      rw [PcOk, hcount o (.inr (.inl rfl))]
      exact ⟨hok.1, Nat.lt_of_lt_of_le hok.2 hbrk⟩

end Mem

end Invariant

end Apue.Foo
