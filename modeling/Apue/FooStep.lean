/-
Apue/FooStep.lean

Every operation of a thread keeps the invariant of the hash table.

The argument is of the rely-guarantee kind.  A write to the shared fields is
bound by a `Guarantee` that depends on what the writer holds: it changes links
only under `hashlock`, counts only under the object's lock, and nobody else's
references.  `Inv.write` shows once that such a write keeps the assertions of
all other threads, `Inv.move` that taking and releasing mutexes does.  What is
left for each program counter is the thread's own next assertion.
-/
import Apue.FooMem

namespace Apue.Foo

open PtrChain

variable {Tid : Type*} [DecidableEq Tid] {s s' : State Tid} {g : Ghost Tid} {m m' : Noted Tid}
variable {t t' : Tid}
variable {o r : Ref} {p p' : Pc} {R : List Ref}

/-! ### What a write leaves to the other threads -/

/-- What thread `t` at `p` guarantees when it changes the shared fields from `m` to
`m'`. -/
structure Guarantee (m m' : Noted Tid) (t : Tid) (p : Pc) : Prop where
  mem : MemOk m'
  refs : ∀ t' o, t' ≠ t → ((t', o) ∈ m'.refs ↔ (t', o) ∈ m.refs)
  brk : m.brk ≤ m'.brk
  id : ∀ o < m.brk, m'.id o = m.id o
  count : ∀ o < m.brk, m'.count o = m.count o ∨
    p.holdsLock = some o ∧ 0 < m.count o ∧ ((t, o) ∈ m.refs ∨ o ∈ m.live)
  inserted : ∀ o ∈ m'.inserted, o ∈ m.inserted ∨ p.fresh = some o
  live : ∀ o ∈ m.live, o ∈ m'.live ∨ Sole m t o
  links : p.holdsHash = false → SameLinks m m'

omit [DecidableEq Tid] in
/-- A thread with an object in creation has it to itself. -/
theorem PcOk.fresh_of (hok : PcOk m R t p) (hp : p.fresh = some r) : ∃ id, Fresh m t id r := by
  cases p <;> simp only [Pc.fresh, reduceCtorEq, Option.some.injEq] at hp <;> subst hp
  case createPrint id _ => exact ⟨id, hok⟩
  case createLock id _ => exact ⟨id, hok⟩
  case createLoad id _ => exact ⟨id, hok⟩
  case createNext id _ _ => exact ⟨id, hok.1⟩
  case createHead id _ => exact ⟨id, hok.1⟩

omit [DecidableEq Tid] in
/-- The count of an object that is being given up for good is zero. -/
theorem PcOk.ending_of (hok : PcOk m R t p) (hp : p.ending = some o) :
    m.count o = 0 ∧ o < m.brk := by
  cases p <;> simp only [Pc.ending, reduceCtorEq, Option.some.injEq] at hp <;> subst hp <;>
    exact hok

/-- A guaranteed write does not disturb the assertions of other threads. -/
theorem Inv.others (h : Inv s g) (hg : Guarantee (g.note s.mem) m' t (s.pc t)) (hne : t' ≠ t) :
    PcOk m' (g.raised t') t' (s.pc t') := by
  have hok := h.pcs t'
  refine PcOk.frame h.mem hok (fun o ho => (hg.refs t' o hne).mpr ho) hg.brk hg.id ?_ ?_ ?_
  · intro x hx
    -- the three reasons why `t'` may speak about the count of `x`
    rcases hx with hlock | hend | hfresh
    · have hheld := (h.obj t' x).mpr hlock
      have hlt : x < s.mem.brk := h.used x (by rw [hheld]; nofun)
      rcases hg.count x hlt with hc | ⟨hown, -⟩
      · exact hc
      · rw [(h.obj t x).mpr hown] at hheld
        exact absurd (Mutex.held.inj hheld).symm hne
    · obtain ⟨hzero, hlt⟩ := hok.ending_of hend
      rcases hg.count x hlt with hc | ⟨-, hpos, -⟩
      · exact hc
      · omega
    · obtain ⟨id, hf⟩ := hok.fresh_of hfresh
      rcases hg.count x (h.mem.lt_brk (h.mem.count_pos hf.owned)) with hc | ⟨-, -, howned | hlive⟩
      · exact hc
      · exact absurd (h.mem.sole_owner hf.count hf.owned howned) hne
      · exact absurd (mem_live.mp hlive).1 hf.notMem
  · intro r hr hins
    obtain ⟨id, hf⟩ := hok.fresh_of hr
    rcases hg.inserted r hins with hins | hr'
    · exact hf.notMem hins
    · obtain ⟨id', hf'⟩ := (h.pcs t).fresh_of hr'
      exact hne (h.mem.sole_owner hf.count hf.owned hf'.owned)
  · intro hhash
    refine hg.links (Bool.eq_false_iff.mpr fun hhash' => hne ?_)
    have h₁ := (h.hash t').mpr hhash
    rw [(h.hash t).mpr hhash'] at h₁
    exact (Mutex.held.inj h₁).symm

/-! ### The writes are guaranteed -/

omit [DecidableEq Tid] in
theorem Guarantee.newFoo (h : MemOk m) (t : Tid) (id : BitVec 64) (p : Pc) :
    Guarantee m (m.newFoo t id) t p where
  mem := h.newFoo t id
  refs t' o hne := by
    show (t', o) ∈ (t, m.brk) :: m.refs ↔ _
    simp [hne]
  brk := Nat.le_succ _
  id o ho := Function.update_of_ne ho.ne _ _
  count o ho := .inl (Function.update_of_ne ho.ne _ _)
  inserted o ho := .inl ho
  live o ho := .inl ho
  links _ := ⟨rfl, rfl, fun o ho => Function.update_of_ne ho.ne _ _⟩

omit [DecidableEq Tid] in
theorem Guarantee.setNext (h : MemOk m) (hr : r ∉ m.inserted) (q : Option Ref)
    (hp : p.holdsHash = true) : Guarantee m (m.setNext r q) t p where
  mem := h.setNext (fun hl => hr (mem_live.mp hl).1) q
  refs _ _ _ := Iff.rfl
  brk := le_rfl
  id _ _ := rfl
  count _ _ := .inl rfl
  inserted _ ho := .inl ho
  live _ ho := .inl ho
  links hp' := absurd (hp.symm.trans hp') (by decide)

omit [DecidableEq Tid] in
theorem Guarantee.link (h : MemOk m) {id : BitVec 32} (hr : Fresh m t id r)
    (hnext : m.next r = m.fh (hash (ofInt id))) (hf : p.fresh = some r)
    (hp : p.holdsHash = true) : Guarantee m (m.link (hash (ofInt id)) r) t p where
  mem := h.link hr hnext
  refs _ _ _ := Iff.rfl
  brk := le_rfl
  id _ _ := rfl
  count _ _ := .inl rfl
  inserted o ho := by
    rcases List.mem_cons.mp ho with rfl | ho
    exacts [.inr hf, .inl ho]
  live o ho := by
    rw [live_link h hr.notMem]
    exact .inl (List.mem_cons_of_mem _ ho)
  links hp' := absurd (hp.symm.trans hp') (by decide)

omit [DecidableEq Tid] in
theorem Guarantee.gain (h : MemOk m) {k : Option (BitVec 64)} (ho : Target m R t o k)
    (hp : p.holdsLock = some o) : Guarantee m (m.gain t o (m.count o)) t p where
  mem := h.gain (h.lt_brk (h.target_pos ho)) t
  refs t' x hne := by
    show (t', x) ∈ (t, o) :: m.refs ↔ _
    simp [hne]
  brk := le_rfl
  id _ _ := rfl
  count x _ := by
    by_cases hx : x = o
    · subst hx
      refine .inr ⟨hp, h.target_pos ho, ?_⟩
      cases k with
      | none => exact .inl ho
      | some id => exact .inr (mem_live_of_firstLive ho.1)
    · exact .inl (Function.update_of_ne hx _ _)
  inserted _ ho := .inl ho
  live _ ho := .inl ho
  links _ := ⟨rfl, rfl, fun _ _ => rfl⟩

theorem Guarantee.drop (h : MemOk m) (ho : (t, o) ∈ m.refs)
    (hcase : m.count o ≠ 1 ∨ o ∉ m.live) (hp : p.holdsLock = some o) :
    Guarantee m (m.drop t o (m.count o)) t p where
  mem := h.drop ho hcase
  refs t' x hne := List.mem_erase_of_ne (by simp [hne])
  brk := le_rfl
  id _ _ := rfl
  count x _ := by
    by_cases hx : x = o
    · subst hx
      exact .inr ⟨hp, h.count_pos ho, .inl ho⟩
    · exact .inl (Function.update_of_ne hx _ _)
  inserted _ ho := .inl ho
  live _ ho := .inl ho
  links _ := ⟨rfl, rfl, fun _ _ => rfl⟩

omit [DecidableEq Tid] in
/-- Unlinking at the head or in the middle of a chain. -/
theorem Guarantee.unlink (hs : Sole m t o) (hm : MemOk m' ∧ m'.live = m.live.filter (· ≠ o))
    (hcount : m'.count = m.count) (hid : m'.id = m.id) (hbrk : m'.brk = m.brk)
    (hrefs : m'.refs = m.refs) (hins : m'.inserted = m.inserted) (hp : p.holdsHash = true) :
    Guarantee m m' t p where
  mem := hm.1
  refs _ _ _ := by rw [hrefs]
  brk := hbrk.ge
  id _ _ := by rw [hid]
  count _ _ := .inl (by rw [hcount])
  inserted _ ho := .inl (hins ▸ ho)
  live x hx := by
    by_cases hxo : x = o
    · exact .inr (hxo ▸ hs)
    · refine .inl ?_
      rw [hm.2]
      exact List.mem_filter.mpr ⟨hx, by simpa using hxo⟩
  links hp' := absurd (hp.symm.trans hp') (by decide)

/-! ### The mutexes after a step of one thread -/

/-- A thread that neither takes nor releases `hashlock`. -/
theorem Inv.hash_update (h : Inv s g) (hp : p'.holdsHash = (s.pc t).holdsHash) :
    ∀ t', s.hashlock = .held t' ↔ (Function.update s.pc t p' t').holdsHash = true := by
  refine (Function.forall_update_iff s.pc
    fun t' q => s.hashlock = .held t' ↔ q.holdsHash = true).mpr ⟨?_, fun t' _ => h.hash t'⟩
  rw [hp]
  exact h.hash t

/-- A thread that neither takes nor releases an object's lock. -/
theorem Inv.obj_update (h : Inv s g) (hp : p'.holdsLock = (s.pc t).holdsLock) (o : Ref) :
    ∀ t', s.lock o = .held t' ↔ (Function.update s.pc t p' t').holdsLock = some o := by
  refine (Function.forall_update_iff s.pc
    fun t' q => s.lock o = .held t' ↔ q.holdsLock = some o).mpr ⟨?_, fun t' _ => h.obj t' o⟩
  rw [hp]
  exact h.obj t o

/-- At most one thread is at the end of an object's life, if `t` does not join
another one there. -/
theorem Inv.solo_update (h : Inv s g)
    (hend : ∀ o, p'.ending = some o → ∀ t', t' ≠ t → (s.pc t').ending ≠ some o)
    {t₁ t₂ : Tid} (h₁ : (Function.update s.pc t p' t₁).ending = some o)
    (h₂ : (Function.update s.pc t p' t₂).ending = some o) : t₁ = t₂ := by
  by_cases e₁ : t₁ = t <;> by_cases e₂ : t₂ = t
  · rw [e₁, e₂]
  · subst e₁
    rw [Function.update_self] at h₁
    rw [Function.update_of_ne e₂] at h₂
    exact absurd h₂ (hend o h₁ t₂ e₂)
  · subst e₂
    rw [Function.update_of_ne e₁] at h₁
    rw [Function.update_self] at h₂
    exact absurd h₁ (hend o h₂ t₁ e₁)
  · rw [Function.update_of_ne e₁] at h₁
    rw [Function.update_of_ne e₂] at h₂
    exact h.solo t₁ t₂ o h₁ h₂

/-- **A guaranteed write keeps the invariant** if the thread keeps its mutexes and
establishes its own next assertion. -/
theorem Inv.write (h : Inv s g) (hp : s.pc t = p) (hg : Guarantee (g.note s.mem) m' t p)
    (hhash : p'.holdsHash = p.holdsHash) (hlock : p'.holdsLock = p.holdsLock)
    (hrefs : ∀ o, (t, o) ∈ m'.refs → o ∈ m'.live ∨ p'.fresh = some o ∨ p'.limbo = some o)
    (hend : ∀ o, p'.ending = some o → p'.holdsLock = some o ∧ 0 < s.mem.count o)
    (hok : PcOk m' R t p') :
    Inv { s with mem := m'.toMem, pc := Function.update s.pc t p' }
      ⟨m'.refs, m'.inserted, m'.unlinked, Function.update g.raised t R⟩ where
  mem := hg.mem
  refs := by
    refine (Function.forall_update_iff s.pc fun t' q => ∀ o, (t', o) ∈ m'.refs →
      o ∈ m'.live ∨ q.fresh = some o ∨ q.limbo = some o).mpr ⟨hrefs, fun t' hne o ho => ?_⟩
    have ho' := (hg.refs t' o hne).mp ho
    rcases h.refs t' o ho' with hl | hf
    · rcases hg.live o hl with hl' | hsole
      · exact .inl hl'
      · exact absurd (h.mem.sole_owner hsole.count hsole.owned ho').symm hne
    · exact .inr hf
  pcs t' := by
    show PcOk m' (Function.update g.raised t R t') t' (Function.update s.pc t p' t')
    by_cases hne : t' = t
    · subst hne
      rw [Function.update_self, Function.update_self]
      exact hok
    · rw [Function.update_of_ne hne, Function.update_of_ne hne]
      exact h.others (hp ▸ hg) hne
  hash := h.hash_update (hp ▸ hhash)
  hashAlive := h.hashAlive
  obj t' o := h.obj_update (hp ▸ hlock) o t'
  used o ho := Nat.lt_of_lt_of_le (h.used o ho) hg.brk
  dead o ho := by
    have hzero := h.dead o ho
    rcases hg.count o (h.used o (by rw [ho]; nofun)) with hc | ⟨-, hpos, -⟩
    · exact hc.trans hzero
    · exact absurd hzero hpos.ne'
  solo _ _ _ := by
    refine h.solo_update fun o ho t' _ hend' => ?_
    exact (hend o ho).2.ne' ((h.pcs t').ending_of hend').1
  ready := by
    refine (Function.forall_update_iff s.pc fun t' q => ∀ o, q.ending = some o →
      s.lock o ≠ .destroyed ∧ ∀ t'', s.lock o = .held t'' → t'' = t').mpr
        ⟨fun o ho => ?_, fun t' _ => h.ready t'⟩
    have hheld := (h.obj t o).mpr (by rw [hp, ← hlock]; exact (hend o ho).1)
    rw [hheld]
    exact ⟨nofun, fun t'' ht => (Mutex.held.inj ht).symm⟩

/-- A write that raises no count. -/
theorem Inv.write_keep (h : Inv s g) (hp : s.pc t = p) (hg : Guarantee (g.note s.mem) m' t p)
    (hhash : p'.holdsHash = p.holdsHash) (hlock : p'.holdsLock = p.holdsLock)
    (hrefs : ∀ o, (t, o) ∈ m'.refs → o ∈ m'.live ∨ p'.fresh = some o ∨ p'.limbo = some o)
    (hend : ∀ o, p'.ending = some o → p'.holdsLock = some o ∧ 0 < s.mem.count o)
    (hok : PcOk m' (g.raised t) t p') :
    Inv (s.write t m'.toMem p') ⟨m'.refs, m'.inserted, m'.unlinked, g.raised⟩ := by
  have hinv := h.write hp hg hhash hlock hrefs hend hok
  rwa [Function.update_eq_self] at hinv

/-- **Taking and releasing mutexes keeps the invariant** if they agree with the new
program counters. -/
theorem Inv.move (h : Inv s g) {H : Mutex Tid} {L : Ref → Mutex Tid}
    (hfresh : p'.fresh = (s.pc t).fresh) (hlimbo : p'.limbo = (s.pc t).limbo)
    (hend : ∀ o, p'.ending = some o → (s.pc t).ending = some o)
    (hok : PcOk (g.note s.mem) (g.raised t) t p')
    (hH : ∀ t', H = .held t' ↔ (Function.update s.pc t p' t').holdsHash = true)
    (hH' : H ≠ .destroyed)
    (hL : ∀ o t', L o = .held t' ↔ (Function.update s.pc t p' t').holdsLock = some o)
    (hused : ∀ o, L o ≠ .free → o < s.mem.brk)
    (hdead : ∀ o, L o = .destroyed → s.mem.count o = 0)
    (hready : ∀ t' o, (Function.update s.pc t p' t').ending = some o →
      L o ≠ .destroyed ∧ ∀ t'', L o = .held t'' → t'' = t') :
    Inv { s with hashlock := H, lock := L, pc := Function.update s.pc t p' } g where
  mem := h.mem
  refs := by
    refine (Function.forall_update_iff s.pc fun t' q => ∀ o, (t', o) ∈ g.refs →
      o ∈ (g.note s.mem).live ∨ q.fresh = some o ∨ q.limbo = some o).mpr
        ⟨?_, fun t' _ => h.refs t'⟩
    rw [hfresh, hlimbo]
    exact h.refs t
  pcs := (Function.forall_update_iff s.pc fun t' q => PcOk (g.note s.mem) (g.raised t') t' q).mpr
    ⟨hok, fun t' _ => h.pcs t'⟩
  hash := hH
  hashAlive := hH'
  obj t' o := hL o t'
  used := hused
  dead := hdead
  solo _ _ _ := h.solo_update fun o ho t' hne ho' => hne (h.solo t' t o ho' (hend o ho))
  ready := hready

/-! ### The operations on program counters and mutexes -/

/-- The threads at the end of an object's life, when `t` moves on without joining
one. -/
theorem Inv.ready_update (h : Inv s g) (hend : ∀ o, p'.ending = some o → (s.pc t).ending = some o) :
    ∀ t' o, (Function.update s.pc t p' t').ending = some o →
      s.lock o ≠ .destroyed ∧ ∀ t'', s.lock o = .held t'' → t'' = t' :=
  (Function.forall_update_iff s.pc fun t' q => ∀ o, q.ending = some o →
    s.lock o ≠ .destroyed ∧ ∀ t'', s.lock o = .held t'' → t'' = t').mpr
      ⟨fun o ho => h.ready t o (hend o ho), fun t' _ => h.ready t'⟩

/-- The thread stands for the same objects at `p'` as at `p`. -/
structure Pc.SameObjs (p p' : Pc) : Prop where
  fresh : p'.fresh = p.fresh
  limbo : p'.limbo = p.limbo
  ending : p'.ending = p.ending

theorem Inv.goto (h : Inv s g) (hp : s.pc t = p) (ho : p.SameObjs p')
    (hhash : p'.holdsHash = p.holdsHash) (hlock : p'.holdsLock = p.holdsLock)
    (hok : PcOk (g.note s.mem) (g.raised t) t p') : Inv (s.goto t p') g := by
  subst hp
  have hend : ∀ o, p'.ending = some o → (s.pc t).ending = some o := fun _ he => ho.ending ▸ he
  exact h.move ho.fresh ho.limbo hend hok (h.hash_update hhash) h.hashAlive (h.obj_update hlock)
    h.used h.dead (h.ready_update hend)

theorem Inv.lockHash (h : Inv s g) (hp : s.pc t = p) (hs : s.lockHash t p' = some s')
    (ho : p.SameObjs p') (hhash : p'.holdsHash = true) (hlock : p'.holdsLock = p.holdsLock)
    (hok : PcOk (g.note s.mem) (g.raised t) t p') : Inv s' g := by
  subst hp
  have hend : ∀ o, p'.ending = some o → (s.pc t).ending = some o := fun _ he => ho.ending ▸ he
  unfold State.lockHash at hs
  cases hH : s.hashlock with
  | destroyed => exact absurd hH h.hashAlive
  | held u => rw [hH] at hs; cases hs
  | free =>
      rw [hH] at hs
      obtain rfl := Option.some.inj hs
      refine h.move ho.fresh ho.limbo hend hok ?_ nofun (h.obj_update hlock) h.used h.dead
        (h.ready_update hend)
      refine (Function.forall_update_iff s.pc fun t' q =>
        (Mutex.held t : Mutex Tid) = .held t' ↔ q.holdsHash = true).mpr
          ⟨by simp [hhash], fun t' hne => ?_⟩
      rw [← h.hash t', hH]
      exact ⟨fun e => absurd (Mutex.held.inj e).symm hne, nofun⟩

theorem Inv.unlockHash (h : Inv s g) (hp : s.pc t = p) (ho : p.SameObjs p')
    (hheld : p.holdsHash = true) (hhash : p'.holdsHash = false)
    (hlock : p'.holdsLock = p.holdsLock) (hok : PcOk (g.note s.mem) (g.raised t) t p') :
    Inv (s.unlockHash t p') g := by
  subst hp
  have hend : ∀ o, p'.ending = some o → (s.pc t).ending = some o := fun _ he => ho.ending ▸ he
  have hH := (h.hash t).mpr hheld
  rw [State.unlockHash, if_pos hH]
  refine h.move ho.fresh ho.limbo hend hok ?_ nofun (h.obj_update hlock) h.used h.dead
    (h.ready_update hend)
  refine (Function.forall_update_iff s.pc fun t' q =>
    (Mutex.free : Mutex Tid) = .held t' ↔ q.holdsHash = true).mpr
      ⟨by simp [hhash], fun t' hne => ?_⟩
  rw [← h.hash t', hH]
  exact ⟨nofun, fun e => absurd (Mutex.held.inj e).symm hne⟩

/-- A step of `t` that changes the lock of `o` to `M`. -/
theorem Inv.setLock (h : Inv s g) {M : Mutex Tid}
    (hfresh : p'.fresh = (s.pc t).fresh) (hlimbo : p'.limbo = (s.pc t).limbo)
    (hend : ∀ x, p'.ending = some x → (s.pc t).ending = some x)
    (hok : PcOk (g.note s.mem) (g.raised t) t p') (hhash : p'.holdsHash = (s.pc t).holdsHash)
    (hown : ∀ t', s.lock o = .held t' → t' = t)
    (hM : ∀ t', M = .held t' ↔ t' = t ∧ p'.holdsLock = some o)
    (hrest : ∀ x, x ≠ o → (p'.holdsLock = some x ↔ (s.pc t).holdsLock = some x))
    (hlt : o < s.mem.brk) (hdead : M = .destroyed → s.mem.count o = 0)
    (hready : ∀ t', (Function.update s.pc t p' t').ending = some o →
      M ≠ .destroyed ∧ ∀ t'', M = .held t'' → t'' = t') :
    Inv { s with lock := Function.update s.lock o M, pc := Function.update s.pc t p' } g := by
  refine h.move hfresh hlimbo hend hok (h.hash_update hhash) h.hashAlive ?_ ?_ ?_ ?_
  · intro x
    refine (Function.forall_update_iff s.pc fun t' q =>
      Function.update s.lock o M x = .held t' ↔ q.holdsLock = some x).mpr ?_
    by_cases hx : x = o
    · subst hx
      rw [Function.update_self]
      refine ⟨by simp [hM t], fun t' hne => ?_⟩
      rw [hM t', ← h.obj t' x]
      exact ⟨fun e => absurd e.1 hne, fun e => absurd (hown t' e) hne⟩
    · rw [Function.update_of_ne hx]
      exact ⟨(h.obj t x).trans (hrest x hx).symm, fun t' _ => h.obj t' x⟩
  · intro x hx
    by_cases hxo : x = o
    · exact hxo ▸ hlt
    · rw [Function.update_of_ne hxo] at hx
      exact h.used x hx
  · intro x hx
    by_cases hxo : x = o
    · subst hxo
      rw [Function.update_self] at hx
      exact hdead hx
    · rw [Function.update_of_ne hxo] at hx
      exact h.dead x hx
  · intro t' x hx
    by_cases hxo : x = o
    · subst hxo
      rw [Function.update_self]
      exact hready t' hx
    · rw [Function.update_of_ne hxo]
      exact h.ready_update hend t' x hx

/-- Only an object with a positive count may be locked. -/
theorem Inv.lockObj (h : Inv s g) (hp : s.pc t = p) (hs : s.lockObj t o p' = some s')
    (ho : p.SameObjs p') (hhash : p'.holdsHash = p.holdsHash) (hnone : p.holdsLock = none)
    (hlock : p'.holdsLock = some o) (hpos : 0 < s.mem.count o)
    (hok : PcOk (g.note s.mem) (g.raised t) t p') : Inv s' g := by
  subst hp
  have hend : ∀ x, p'.ending = some x → (s.pc t).ending = some x := fun _ he => ho.ending ▸ he
  unfold State.lockObj at hs
  cases hL : s.lock o with
  | destroyed =>
      have := h.dead o hL
      omega
  | held u => rw [hL] at hs; cases hs
  | free =>
      rw [hL] at hs
      obtain rfl := Option.some.inj hs
      refine h.setLock ho.fresh ho.limbo hend hok hhash (by rw [hL]; nofun) ?_ ?_
        (h.mem.lt_brk hpos) nofun ?_
      · intro t'
        rw [hlock]
        exact ⟨fun e => ⟨(Mutex.held.inj e).symm, rfl⟩, fun e => by rw [e.1]⟩
      · intro x hx
        rw [hlock, hnone]
        exact ⟨fun e => absurd (Option.some.inj e).symm hx, nofun⟩
      · -- nobody is at the end of the life of an object that still counts
        refine (Function.forall_update_iff s.pc fun t' q => q.ending = some o → _).mpr
          ⟨fun he => ?_, fun t' _ he => ?_⟩
        · exact absurd ((h.pcs t).ending_of (hend o he)).1 hpos.ne'
        · exact absurd ((h.pcs t').ending_of he).1 hpos.ne'

theorem Inv.unlockObj (h : Inv s g) (hp : s.pc t = p) (ho : p.SameObjs p')
    (hhash : p'.holdsHash = p.holdsHash) (hheld : p.holdsLock = some o)
    (hlock : p'.holdsLock = none) (hok : PcOk (g.note s.mem) (g.raised t) t p') :
    Inv (s.unlockObj t o p') g := by
  subst hp
  have hL := (h.obj t o).mpr hheld
  rw [State.unlockObj, if_pos hL]
  refine h.setLock ho.fresh ho.limbo (fun _ he => ho.ending ▸ he) hok hhash ?_ ?_ ?_
    (h.used o (by rw [hL]; nofun)) nofun (fun _ _ => ⟨nofun, nofun⟩)
  · intro t' e
    exact Mutex.held.inj (e.symm.trans hL)
  · intro t'
    rw [hlock]
    exact ⟨nofun, fun e => nomatch e.2⟩
  · intro x hx
    rw [hlock, hheld]
    exact ⟨nofun, fun e => absurd (Option.some.inj e).symm hx⟩

/-- The one thread at the end of an object's life destroys its lock. -/
theorem Inv.destroyObj (h : Inv s g) (hp : s.pc t = .releDestroy o) :
    Inv (s.destroyObj t o .idle) g := by
  have hend : (s.pc t).ending = some o := by rw [hp]; rfl
  have hzero := (h.pcs t).ending_of hend
  have hL : s.lock o = .free := by
    obtain ⟨hnd, howner⟩ := h.ready t o hend
    cases hL : s.lock o with
    | free => rfl
    | destroyed => exact absurd hL hnd
    | held u =>
        obtain rfl := howner u hL
        have := (h.obj u o).mp hL
        rw [hp] at this
        cases this
  rw [State.destroyObj, if_pos hL]
  refine h.setLock (by rw [hp]; rfl) (by rw [hp]; rfl) nofun trivial (by rw [hp]; rfl) ?_ ?_ ?_
    hzero.2 (fun _ => hzero.1) ?_
  · rw [hL]
    nofun
  · exact fun t' => ⟨nofun, fun e => nomatch e.2⟩
  · intro x _
    rw [hp]
    exact Iff.rfl
  · refine (Function.forall_update_iff s.pc fun t' q => q.ending = some o → _).mpr
      ⟨nofun, fun t' hne he => ?_⟩
    exact absurd (h.solo t' t o he hend) hne

omit [DecidableEq Tid] in
theorem Inv.print (h : Inv s g) (o : Ref) (msg : Msg) : Inv (s.print o msg) g := { h with }

theorem Inv.returns (h : Inv s g) (t : Tid) (q : Option Ref) : Inv (s.returns t q) g := { h with }

end Apue.Foo
