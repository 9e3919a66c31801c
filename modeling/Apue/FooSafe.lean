/-
Apue/FooSafe.lean

Safety of the reference-counted hash table: the invariant is kept by every step of
every thread (`Inv.step`) and by the calls of clients that own what they pass
(`Inv.call`).
-/
import Apue.FooStep

namespace Apue.Foo

open PtrChain

variable {Tid : Type*} {s s' : State Tid} {g : Ghost Tid} {m : Noted Tid} {t : Tid} {o : Ref}

/-! ### The search loop of `find` -/

/-- The loop starts at the head of the bucket. -/
theorem MemOk.searching_head (h : MemOk m) (id : BitVec 64) :
    Searching m id (m.fh (hash id)) :=
  ⟨[], m.chain (hash id), rfl, h.chains _, by simp⟩

/-- The loop passes an object with another `id`. -/
theorem Searching.advance {id : BitVec 64} (hs : Searching m id (some o)) (hne : m.id o ≠ id) :
    Searching m id (m.next o) := by
  obtain ⟨pre, suf, heq, hchain, hpre⟩ := hs
  obtain ⟨l, rfl⟩ := List.head?_eq_some_iff.mp hchain.start.symm
  refine ⟨pre ++ [o], l, by simpa using heq, hchain.tail, ?_⟩
  intro x hx
  rcases List.mem_append.mp hx with hx | hx
  · exact hpre x hx
  · rw [List.mem_singleton.mp hx]
    exact hne

/-- The loop ends without a match. -/
theorem Searching.firstLive_none {id : BitVec 64} (hs : Searching m id none) :
    m.firstLive id = none := by
  obtain ⟨pre, suf, heq, hchain, hpre⟩ := hs
  obtain rfl : suf = [] := List.head?_eq_none_iff.mp hchain.start.symm
  rw [firstLive_eq_find?_chain, heq, List.append_nil, List.find?_eq_none]
  simpa using hpre

/-- The loop stops at the first match. -/
theorem Searching.firstLive_some {id : BitVec 64} (hs : Searching m id (some o))
    (ho : m.id o = id) : m.firstLive id = some o := by
  obtain ⟨pre, suf, heq, hchain, hpre⟩ := hs
  obtain ⟨l, rfl⟩ := List.head?_eq_some_iff.mp hchain.start.symm
  have hnone : pre.find? (fun x => decide (m.id x = id)) = none := by
    rw [List.find?_eq_none]
    simpa using hpre
  rw [firstLive_eq_find?_chain, heq, List.find?_append, hnone,
    List.find?_cons_of_pos (by simpa using ho)]
  rfl

/-! ### The unlink walk of `rele` -/

/-- The test `tfp.get() == this` decides between the head and a predecessor that
the walk will find. -/
theorem MemOk.walk_start (h : MemOk m) (ho : o ∈ m.live)
    (hne : m.fh (hash (m.id o)) ≠ some o) :
    ∃ pre a suf, m.fh (hash (m.id o)) = some a ∧
      m.chain (hash (m.id o)) = pre ++ a :: suf ∧ o ∈ suf := by
  have hstart := (h.chains (hash (m.id o))).start
  have hmem : o ∈ m.chain (hash (m.id o)) := mem_chain.mpr ⟨ho, rfl⟩
  cases hc : m.chain (hash (m.id o)) with
  | nil => rw [hc] at hmem; cases hmem
  | cons a l =>
      rw [hc] at hstart hmem
      refine ⟨[], a, l, hstart, rfl, ?_⟩
      rcases List.mem_cons.mp hmem with rfl | hl
      · exact absurd hstart hne
      · exact hl

/-- One iteration of the walk: the next object exists, and it is the last one
before `this` or the walk goes on from it. -/
theorem MemOk.walk_next (h : MemOk m) {b : Fin nhash} {pre suf : List Ref} {a : Ref}
    (hc : m.chain b = pre ++ a :: suf) (ho : o ∈ suf) (hne : m.next a ≠ some o) :
    ∃ pre' a' suf', m.next a = some a' ∧ m.chain b = pre' ++ a' :: suf' ∧ o ∈ suf' := by
  have hchain := h.chains b
  rw [hc] at hchain
  have hstart := hchain.drop.tail.start
  cases suf with
  | nil => cases ho
  | cons a' suf =>
      refine ⟨pre ++ [a], a', suf, hstart, by simp [hc], ?_⟩
      rcases List.mem_cons.mp ho with rfl | hl
      · exact absurd hstart hne
      · exact hl

/-! ### Every step keeps the invariant -/

/-- The table starts in the invariant. -/
theorem inv_init : Inv (initState : State Tid) ⟨[], [], [], fun _ => []⟩ where
  mem := ⟨fun _ => rfl, fun _ _ => ⟨rfl, by simp⟩, List.nodup_nil, nofun,
    fun _ => rfl, nofun⟩
  refs := nofun
  pcs _ := trivial
  hash _ := ⟨nofun, nofun⟩
  hashAlive := nofun
  obj _ _ := ⟨nofun, nofun⟩
  used _ ho := absurd rfl ho
  dead := nofun
  solo := nofun
  ready := nofun

/-- A reference of a thread that is neither creating nor removing is on a linked
object. -/
theorem Inv.live_of_ref (h : Inv s g) (ho : (t, o) ∈ g.refs)
    (hf : (s.pc t).fresh = none) (hl : (s.pc t).limbo = none) : o ∈ (g.note s.mem).live := by
  rcases h.refs t o ho with hlive | hfresh | hlimbo
  · exact hlive
  · rw [hf] at hfresh; cases hfresh
  · rw [hl] at hlimbo; cases hlimbo

variable [DecidableEq Tid] {p : Pc}

/-! ### Steps that write the shared fields -/

theorem Inv.createNew (h : Inv s g) {id : BitVec 32} (hp : s.pc t = .createNew id) :
    Inv (s.write t (s.mem.newFoo (ofInt id)) (.createPrint id s.mem.brk))
      { g with refs := (t, s.mem.brk) :: g.refs } := by
  refine h.write_keep hp (Guarantee.newFoo h.mem t _ _) rfl rfl ?_ nofun ?_
  · intro x hx
    rcases List.mem_cons.mp hx with e | hx
    · obtain rfl := (Prod.mk.inj e).2
      exact .inr (.inl rfl)
    · exact .inl (h.live_of_ref hx (by rw [hp]; rfl) (by rw [hp]; rfl))
  · exact ⟨(h.mem.unused _ le_rfl).2, List.mem_cons_self, Function.update_self _ _ _,
      Function.update_self _ _ _⟩

theorem Inv.createNext (h : Inv s g) {id : BitVec 32} {r : Ref} {head : Option Ref}
    (hp : s.pc t = .createNext id r head) :
    Inv (s.write t (s.mem.setNext r head) (.createHead id r)) g := by
  have hok := h.pcs t
  have hrefs := h.refs t
  rw [hp] at hok hrefs
  obtain ⟨hf, hhead⟩ := hok
  refine h.write_keep hp (Guarantee.setNext h.mem hf.notMem head rfl) rfl rfl hrefs nofun ?_
  exact ⟨⟨hf.notMem, hf.owned, hf.count, hf.id⟩, (Function.update_self _ _ _).trans hhead⟩

theorem Inv.createHead (h : Inv s g) {id : BitVec 32} {r : Ref}
    (hp : s.pc t = .createHead id r) :
    Inv (s.write t (s.mem.setFh (Foo.hash (ofInt id)) (some r)) (.createUnlock r))
      { g with inserted := r :: g.inserted } := by
  have hok := h.pcs t
  have hrefs := h.refs t
  rw [hp] at hok hrefs
  refine h.write_keep hp (Guarantee.link h.mem hok.1 hok.2 rfl rfl) rfl rfl ?_ nofun trivial
  intro x hx
  rw [live_link h.mem hok.1.notMem]
  rcases hrefs x hx with hl | hf | hl
  · exact .inl (List.mem_cons_of_mem _ hl)
  · obtain rfl := Option.some.inj hf
    exact .inl List.mem_cons_self
  · cases hl

theorem Inv.holdStore (h : Inv s g) {k : Option (BitVec 64)} {v : ℕ}
    (hp : s.pc t = .holdStore o k v) :
    Inv (s.write t (s.mem.setCount o (v + 1)) (.holdUnlock o k))
      { g with
        refs := (t, o) :: g.refs
        raised := Function.update g.raised t (o :: g.raised t) } := by
  have hok := h.pcs t
  rw [hp] at hok
  obtain ⟨htarget, rfl⟩ := hok
  refine h.write hp (Guarantee.gain h.mem htarget rfl) rfl rfl ?_ nofun ?_
  · intro x hx
    rcases List.mem_cons.mp hx with e | hx
    · obtain rfl := (Prod.mk.inj e).2
      cases k with
      | none => exact .inl (h.live_of_ref htarget (by rw [hp]; rfl) (by rw [hp]; rfl))
      | some id => exact .inl (mem_live_of_firstLive htarget.1)
    · exact .inl (h.live_of_ref hx (by rw [hp]; rfl) (by rw [hp]; rfl))
  · cases k with
    | none => trivial
    | some id => exact ⟨htarget.1, by rw [htarget.2]⟩

/-- The decrement while other references are left, in either branch of `rele`. -/
theorem Inv.releDec (h : Inv s g) {p' : Pc} (hp : s.pc t = p) (ho : (t, o) ∈ g.refs)
    (hne : s.mem.count o ≠ 1) (hl : p.holdsLock = some o) (hobjs : p.SameObjs p')
    (hhash : p'.holdsHash = p.holdsHash) (hlock : p'.holdsLock = p.holdsLock)
    (hend : p'.ending = none)
    (hok : PcOk ((g.note s.mem).drop t o (s.mem.count o)) (g.raised t) t p') :
    Inv (s.write t (s.mem.setCount o (s.mem.count o - 1)) p')
      { g with refs := g.refs.erase (t, o) } := by
  refine h.write_keep hp (Guarantee.drop h.mem ho (.inl hne) hl) hhash hlock ?_ ?_ hok
  · intro x hx
    have hrefs := h.refs t x (List.mem_of_mem_erase hx)
    rwa [hp, ← hobjs.fresh, ← hobjs.limbo] at hrefs
  · rw [hend]
    nofun

/-- The object is taken out of its chain, in either branch of `rele`: the thread's
references are now on linked objects and on the one it has unlinked. -/
theorem Inv.unlinked (h : Inv s g) {m' : Noted Tid} (hp : s.pc t = p)
    (hg : Guarantee (g.note s.mem) m' t p)
    (hlive : m'.live = (g.note s.mem).live.filter (· ≠ o)) (hrefs : m'.refs = g.refs)
    (hsole : Sole m' t o) (hf : p.fresh = none) (hl : p.limbo = none)
    (hhash : (Pc.releLastLoad o).holdsHash = p.holdsHash)
    (hlock : (Pc.releLastLoad o).holdsLock = p.holdsLock) :
    Inv (s.write t m'.toMem (.releLastLoad o)) ⟨m'.refs, m'.inserted, m'.unlinked, g.raised⟩ := by
  refine h.write_keep hp hg hhash hlock (fun x hx => ?_) nofun ⟨hsole, ?_⟩
  · rw [hrefs] at hx
    by_cases hxo : x = o
    · exact .inr (.inr (by rw [hxo]; rfl))
    · refine .inl ?_
      rw [hlive]
      exact List.mem_filter.mpr ⟨h.live_of_ref hx (by rw [hp, hf]) (by rw [hp, hl]),
        by simpa using hxo⟩
  · rw [hlive]
    simp

theorem Inv.releHeadStore (h : Inv s g) {nx : Option Ref} (hp : s.pc t = .releHeadStore o nx) :
    Inv (s.write t (s.mem.setFh (Foo.hash (s.mem.id o)) nx) (.releLastLoad o))
      { g with unlinked := o :: g.unlinked } := by
  have hok := h.pcs t
  rw [hp] at hok
  obtain ⟨hsole, hfh, rfl⟩ := hok
  have hlive := h.live_of_ref hsole.owned (by rw [hp]; rfl) (by rw [hp]; rfl)
  have hm := h.mem.unlinkHead hfh hlive
  exact h.unlinked hp (Guarantee.unlink hsole hm rfl rfl rfl rfl rfl rfl) hm.2 rfl
    ⟨hsole.owned, hsole.count⟩ rfl rfl rfl rfl

theorem Inv.releMidStore (h : Inv s g) {tfp : Ref} {nx : Option Ref}
    (hp : s.pc t = .releMidStore o tfp nx) :
    Inv (s.write t (s.mem.setNext tfp nx) (.releLastLoad o))
      { g with unlinked := o :: g.unlinked } := by
  have hok := h.pcs t
  rw [hp] at hok
  obtain ⟨hsole, htfp, hnext, rfl⟩ := hok
  have hlive := h.live_of_ref hsole.owned (by rw [hp]; rfl) (by rw [hp]; rfl)
  have hm := h.mem.unlinkMid htfp hnext hlive
  exact h.unlinked hp (Guarantee.unlink hsole hm rfl rfl rfl rfl rfl rfl) hm.2 rfl
    ⟨hsole.owned, hsole.count⟩ rfl rfl rfl rfl

theorem Inv.releLastStore (h : Inv s g) {v : ℕ} (hp : s.pc t = .releLastStore o v) :
    Inv (s.write t (s.mem.setCount o (v - 1)) (.releLastPrint o))
      { g with refs := g.refs.erase (t, o) } := by
  have hok := h.pcs t
  have hrefs := h.refs t
  rw [hp] at hok hrefs
  obtain ⟨hsole, hnot, rfl⟩ := hok
  have hg : Guarantee (g.note s.mem) _ t _ := Guarantee.drop h.mem hsole.owned (.inr hnot)
    (show (Pc.releLastStore o (s.mem.count o)).holdsLock = some o from rfl)
  have hzero : ((g.note s.mem).drop t o (s.mem.count o)).count o = 0 := by
    rw [hsole.count]
    exact Function.update_self _ _ _
  refine h.write_keep hp hg rfl rfl ?_ ?_ ⟨hzero, h.mem.lt_brk (h.mem.count_pos hsole.owned)⟩
  · intro x hx
    rcases hrefs x (List.mem_of_mem_erase hx) with hl | hf | hl
    · exact .inl hl
    · cases hf
    · -- no reference is left on the object itself
      obtain rfl := Option.some.inj hl
      exact absurd hzero (hg.mem.count_pos hx).ne'
  · intro x hx
    obtain rfl := Option.some.inj hx
    exact ⟨rfl, h.mem.count_pos hsole.owned⟩

/-! ### Every step keeps the invariant -/

/-- What an operation of thread `t` changes in what the invariant adds. -/
def Ghost.after (g : Ghost Tid) (s : State Tid) (t : Tid) : Ghost Tid :=
  match s.pc t with
  | .createNew _ => { g with refs := (t, s.mem.brk) :: g.refs }
  | .createHead _ r => { g with inserted := r :: g.inserted }
  | .holdStore o _ _ =>
      { g with
        refs := (t, o) :: g.refs
        raised := Function.update g.raised t (o :: g.raised t) }
  | .releStore o _ | .releBackStore o _ | .releLastStore o _ =>
      { g with refs := g.refs.erase (t, o) }
  | .releHeadStore o _ | .releMidStore o _ _ => { g with unlinked := o :: g.unlinked }
  | _ => g

/-- **One operation of a thread keeps the invariant.** -/
theorem Inv.step (h : Inv s g) (hs : step s t = some s') : Inv s' (g.after s t) := by
  have hok := h.pcs t
  unfold Foo.step at hs
  unfold Ghost.after
  cases hp : s.pc t <;> rw [hp] at hs hok
  case idle => cases hs
  case fault => cases hs
  case createNew id =>
      obtain rfl := Option.some.inj hs
      exact h.createNew hp
  case createPrint id r =>
      obtain rfl := Option.some.inj hs
      exact (h.print r .created).goto hp ⟨rfl, rfl, rfl⟩ rfl rfl hok
  case createLock id r => exact h.lockHash hp hs ⟨rfl, rfl, rfl⟩ rfl rfl hok
  case createLoad id r =>
      obtain rfl := Option.some.inj hs
      exact h.goto hp ⟨rfl, rfl, rfl⟩ rfl rfl ⟨hok, rfl⟩
  case createNext id r head =>
      obtain rfl := Option.some.inj hs
      exact h.createNext hp
  case createHead id r =>
      obtain rfl := Option.some.inj hs
      exact h.createHead hp
  case createUnlock r =>
      obtain rfl := Option.some.inj hs
      have hu : Inv (s.unlockHash t .idle) g :=
        h.unlockHash hp ⟨rfl, rfl, rfl⟩ rfl rfl rfl trivial
      exact hu.returns t _
  case holdTest o k =>
      obtain rfl := Option.some.inj hs
      rw [if_neg (h.mem.target_pos hok).ne']
      exact h.goto hp ⟨rfl, rfl, rfl⟩ rfl rfl hok
  case holdLock o k =>
      exact h.lockObj hp hs ⟨rfl, rfl, rfl⟩ rfl rfl rfl (h.mem.target_pos hok) hok
  case holdLoad o k =>
      obtain rfl := Option.some.inj hs
      exact h.goto hp ⟨rfl, rfl, rfl⟩ rfl rfl ⟨hok, rfl⟩
  case holdStore o k v =>
      obtain rfl := Option.some.inj hs
      exact h.holdStore hp
  case holdUnlock o k =>
      obtain rfl := Option.some.inj hs
      exact h.unlockObj hp ⟨rfl, rfl, rfl⟩ rfl rfl rfl hok
  case holdPrint o k =>
      obtain rfl := Option.some.inj hs
      cases k with
      | none => exact (h.print o .increased).goto hp ⟨rfl, rfl, rfl⟩ rfl rfl trivial
      | some id => exact (h.print o .increased).goto hp ⟨rfl, rfl, rfl⟩ rfl rfl hok
  case findLock id => exact h.lockHash hp hs ⟨rfl, rfl, rfl⟩ rfl rfl hok
  case findHead id =>
      obtain rfl := Option.some.inj hs
      exact h.goto hp ⟨rfl, rfl, rfl⟩ rfl rfl ⟨h.mem.searching_head id, hok⟩
  case findTest id fp =>
      cases fp with
      | none =>
          obtain rfl := Option.some.inj hs
          exact h.goto hp ⟨rfl, rfl, rfl⟩ rfl rfl ⟨hok.1.firstLive_none, hok.2⟩
      | some fp =>
          obtain rfl := Option.some.inj hs
          split
          case isTrue hid =>
              exact h.goto hp ⟨rfl, rfl, rfl⟩ rfl rfl ⟨hok.1.firstLive_some hid, hok.2⟩
          case isFalse hid => exact h.goto hp ⟨rfl, rfl, rfl⟩ rfl rfl ⟨hok.1, hid, hok.2⟩
  case findNext id fp =>
      obtain rfl := Option.some.inj hs
      exact h.goto hp ⟨rfl, rfl, rfl⟩ rfl rfl ⟨hok.1.advance hok.2.1, hok.2.2⟩
  case findUnlock id fp =>
      obtain rfl := Option.some.inj hs
      have hu : Inv (s.unlockHash t .idle) g :=
        h.unlockHash hp ⟨rfl, rfl, rfl⟩ rfl rfl rfl trivial
      exact hu.returns t _
  case releTest o =>
      obtain rfl := Option.some.inj hs
      rw [if_neg (h.mem.count_pos hok).ne']
      exact h.goto hp ⟨rfl, rfl, rfl⟩ rfl rfl hok
  case releLock o =>
      exact h.lockObj hp hs ⟨rfl, rfl, rfl⟩ rfl rfl rfl (h.mem.count_pos hok) hok
  case releCheck o =>
      obtain rfl := Option.some.inj hs
      split
      case isTrue => exact h.goto hp ⟨rfl, rfl, rfl⟩ rfl rfl hok
      case isFalse hne => exact h.goto hp ⟨rfl, rfl, rfl⟩ rfl rfl ⟨hok, hne⟩
  case releLoad o =>
      obtain rfl := Option.some.inj hs
      exact h.goto hp ⟨rfl, rfl, rfl⟩ rfl rfl ⟨hok.1, hok.2, rfl⟩
  case releStore o v =>
      obtain rfl := Option.some.inj hs
      obtain ⟨ho, hne, rfl⟩ := hok
      exact h.releDec hp ho hne rfl ⟨rfl, rfl, rfl⟩ rfl rfl rfl trivial
  case releUnlock o =>
      obtain rfl := Option.some.inj hs
      exact h.unlockObj hp ⟨rfl, rfl, rfl⟩ rfl rfl rfl trivial
  case releDrop o =>
      obtain rfl := Option.some.inj hs
      exact h.unlockObj hp ⟨rfl, rfl, rfl⟩ rfl rfl rfl hok
  case releHash o => exact h.lockHash hp hs ⟨rfl, rfl, rfl⟩ rfl rfl hok
  case releRelock o =>
      exact h.lockObj hp hs ⟨rfl, rfl, rfl⟩ rfl rfl rfl (h.mem.count_pos hok) hok
  case releRecheck o =>
      obtain rfl := Option.some.inj hs
      split
      case isTrue hne => exact h.goto hp ⟨rfl, rfl, rfl⟩ rfl rfl ⟨hok, hne⟩
      case isFalse hone =>
          exact h.goto hp ⟨rfl, rfl, rfl⟩ rfl rfl ⟨hok, not_not.mp hone⟩
  case releBackLoad o =>
      obtain rfl := Option.some.inj hs
      exact h.goto hp ⟨rfl, rfl, rfl⟩ rfl rfl ⟨hok.1, hok.2, rfl⟩
  case releBackStore o v =>
      obtain rfl := Option.some.inj hs
      obtain ⟨ho, hne, rfl⟩ := hok
      exact h.releDec hp ho hne rfl ⟨rfl, rfl, rfl⟩ rfl rfl rfl trivial
  case releBackUnlock o =>
      obtain rfl := Option.some.inj hs
      exact h.unlockObj hp ⟨rfl, rfl, rfl⟩ rfl rfl rfl trivial
  case releBackUnhash o =>
      obtain rfl := Option.some.inj hs
      exact h.unlockHash hp ⟨rfl, rfl, rfl⟩ rfl rfl rfl trivial
  case releBackPrint o =>
      obtain rfl := Option.some.inj hs
      exact (h.print o .decreased).goto hp ⟨rfl, rfl, rfl⟩ rfl rfl trivial
  case releFirst o =>
      obtain rfl := Option.some.inj hs
      have hlive := h.live_of_ref hok.owned (by rw [hp]; rfl) (by rw [hp]; rfl)
      split
      case isTrue hfh => exact h.goto hp ⟨rfl, rfl, rfl⟩ rfl rfl ⟨hok, hfh⟩
      case isFalse hne =>
          exact h.goto hp ⟨rfl, rfl, rfl⟩ rfl rfl ⟨hok, h.mem.walk_start hlive hne⟩
  case releHeadLoad o =>
      obtain rfl := Option.some.inj hs
      exact h.goto hp ⟨rfl, rfl, rfl⟩ rfl rfl ⟨hok.1, hok.2, rfl⟩
  case releHeadStore o nx =>
      obtain rfl := Option.some.inj hs
      exact h.releHeadStore hp
  case releWalk o tfp =>
      obtain ⟨hsole, pre, a, suf, rfl, hc, ho⟩ := hok
      obtain rfl := Option.some.inj hs
      split
      case isTrue hnext =>
          exact h.goto hp ⟨rfl, rfl, rfl⟩ rfl rfl ⟨hsole, by rw [hc]; simp, hnext⟩
      case isFalse hne =>
          exact h.goto hp ⟨rfl, rfl, rfl⟩ rfl rfl ⟨hsole, h.mem.walk_next hc ho hne⟩
  case releMidLoad o tfp =>
      obtain rfl := Option.some.inj hs
      exact h.goto hp ⟨rfl, rfl, rfl⟩ rfl rfl ⟨hok.1, hok.2.1, hok.2.2, rfl⟩
  case releMidStore o tfp nx =>
      obtain rfl := Option.some.inj hs
      exact h.releMidStore hp
  case releLastLoad o =>
      obtain rfl := Option.some.inj hs
      exact h.goto hp ⟨rfl, rfl, rfl⟩ rfl rfl ⟨hok.1, hok.2, rfl⟩
  case releLastStore o v =>
      obtain rfl := Option.some.inj hs
      exact h.releLastStore hp
  case releLastPrint o =>
      obtain rfl := Option.some.inj hs
      exact (h.print o .removed).goto hp ⟨rfl, rfl, rfl⟩ rfl rfl hok
  case releLastUnhash o =>
      obtain rfl := Option.some.inj hs
      exact h.unlockHash hp ⟨rfl, rfl, rfl⟩ rfl rfl rfl hok
  case releLastUnlock o =>
      obtain rfl := Option.some.inj hs
      exact h.unlockObj hp ⟨rfl, rfl, rfl⟩ rfl rfl rfl hok
  case releDestroy o =>
      obtain rfl := Option.some.inj hs
      exact h.destroyObj hp

/-- A call by a client that owns what it passes keeps the invariant. -/
theorem Inv.call (h : Inv s g) {op : Op} (hp : s.pc t = .idle)
    (hown : ∀ o, op = .hold o ∨ op = .rele o → (t, o) ∈ g.refs) :
    Inv (s.goto t op.entry) { g with raised := Function.update g.raised t [] } := by
  have hrefs := h.refs t
  rw [hp] at hrefs
  have hg : Guarantee (g.note s.mem) (g.note s.mem) t .idle :=
    ⟨h.mem, fun _ _ _ => Iff.rfl, le_rfl, fun _ _ => rfl, fun _ _ => .inl rfl,
      fun _ ho => .inl ho, fun _ ho => .inl ho, fun _ => ⟨rfl, rfl, fun _ _ => rfl⟩⟩
  cases op with
  | create id => exact h.write hp hg rfl rfl hrefs nofun trivial
  | find id => exact h.write hp hg rfl rfl hrefs nofun rfl
  | hold o => exact h.write hp hg rfl rfl hrefs nofun (hown o (.inl rfl))
  | rele o => exact h.write hp hg rfl rfl hrefs nofun (hown o (.inr rfl))

end Apue.Foo
