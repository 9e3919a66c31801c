/-
Apue/FooMem.lean

The writes to the shared fields of the hash table keep what always holds of them
(`MemOk`): counts are numbers of references, and the chain of a bucket is the
list of the objects inserted into it and not yet unlinked, most recent first.

Insertion and the two ways of unlinking are where a chain changes; everywhere
else the lists stay and only the pointers of cells outside them may move.
-/
import Apue.FooInv

namespace Apue.Foo

open PtrChain

variable {Tid : Type*} {m : Noted Tid} {t : Tid} {o r : Ref}

/-! ### The writes, with what is added to the shared fields -/

/-- `new Foo(id)`: the thread owns the first reference. -/
def Noted.newFoo (m : Noted Tid) (t : Tid) (id : BitVec 64) : Noted Tid :=
  { m with toMem := m.toMem.newFoo id, refs := (t, m.brk) :: m.refs }

/-- `o->next = p`, on an object that is not linked. -/
def Noted.setNext (m : Noted Tid) (o : Ref) (p : Option Ref) : Noted Tid :=
  { m with toMem := m.toMem.setNext o p }

/-- The store of an increment: the thread now owns one more reference. -/
def Noted.gain (m : Noted Tid) (t : Tid) (o : Ref) (v : ℕ) : Noted Tid :=
  { m with toMem := m.toMem.setCount o (v + 1), refs := (t, o) :: m.refs }

/-- The store of a decrement: the thread gives up a reference. -/
def Noted.drop [DecidableEq Tid] (m : Noted Tid) (t : Tid) (o : Ref) (v : ℕ) : Noted Tid :=
  { m with toMem := m.toMem.setCount o (v - 1), refs := m.refs.erase (t, o) }

/-- `fh[b] = new_foo` in `create`. -/
def Noted.link (m : Noted Tid) (b : Fin nhash) (r : Ref) : Noted Tid :=
  { m with toMem := m.toMem.setFh b (some r), inserted := r :: m.inserted }

/-- `fh[idx] = next` in `rele`. -/
def Noted.unlinkHead (m : Noted Tid) (o : Ref) (nx : Option Ref) : Noted Tid :=
  { m with toMem := m.toMem.setFh (hash (m.id o)) nx, unlinked := o :: m.unlinked }

/-- `tfp->next = next` in `rele`. -/
def Noted.unlinkMid (m : Noted Tid) (o tfp : Ref) (nx : Option Ref) : Noted Tid :=
  { m with toMem := m.toMem.setNext tfp nx, unlinked := o :: m.unlinked }

/-! ### Writes that leave the chains alone -/

theorem MemOk.newFoo (h : MemOk m) (t : Tid) (id : BitVec 64) : MemOk (m.newFoo t id) := by
  have hnew := h.unused m.brk le_rfl
  have hlive : ∀ x ∈ m.live, x ≠ m.brk := fun x hx => (h.live_lt_brk hx).ne
  have hid : ∀ x < m.brk, (m.newFoo t id).id x = m.id x := fun x hx =>
    Function.update_of_ne hx.ne _ _
  refine
    { counts := fun x => ?_
      unused := fun x hx => ?_
      nodup := h.nodup
      sub := h.sub
      chains := fun b => ?_
      counted := fun x hx => ?_ }
  · show Function.update m.count m.brk 1 x = ((t, m.brk) :: m.refs).countP fun p => p.2 = x
    by_cases hx : x = m.brk
    · subst hx
      rw [Function.update_self, List.countP_cons_of_pos (by simp), ← h.counts, hnew.1]
    · rw [Function.update_of_ne hx, List.countP_cons_of_neg (by simpa using Ne.symm hx), h.counts]
  · have hx' : m.brk < x := hx
    refine ⟨?_, (h.unused x hx'.le).2⟩
    show Function.update m.count m.brk 1 x = 0
    rw [Function.update_of_ne hx'.ne', (h.unused x hx'.le).1]
  · have hchain : (m.newFoo t id).chain b = m.chain b :=
        chain_congr h (show (m.newFoo t id).live = m.live from rfl) hid b
    rw [hchain]
    refine (h.chains b).congr fun x hx => ?_
    exact Function.update_of_ne (hlive x (mem_chain.mp hx).1) _ _
  · show 0 < Function.update m.count m.brk 1 x
    rw [Function.update_of_ne (hlive x hx)]
    exact h.counted x hx

/-- The pointer of an object that is not linked may change. -/
theorem MemOk.setNext (h : MemOk m) (hr : r ∉ m.live) (p : Option Ref) :
    MemOk (m.setNext r p) :=
  { h with
    chains := fun b => (h.chains b).update_of_notMem fun hmem => hr (mem_chain.mp hmem).1 }

theorem MemOk.gain (h : MemOk m) (ho : o < m.brk) (t : Tid) :
    MemOk (m.gain t o (m.count o)) := by
  have hcount : ∀ x, m.count x ≤ Function.update m.count o (m.count o + 1) x := by
    intro x
    by_cases hx : x = o
    · subst hx; simp
    · simp [hx]
  refine
    { counts := fun x => ?_
      unused := fun x hx => ?_
      nodup := h.nodup
      sub := h.sub
      chains := h.chains
      counted := fun x hx => Nat.lt_of_lt_of_le (h.counted x hx) (hcount x) }
  · show Function.update m.count o (m.count o + 1) x
      = ((t, o) :: m.refs).countP fun p => p.2 = x
    by_cases hx : x = o
    · subst hx
      rw [Function.update_self, List.countP_cons_of_pos (by simp), ← h.counts]
    · rw [Function.update_of_ne hx, List.countP_cons_of_neg (by simpa using Ne.symm hx), h.counts]
  · have hx' : x ≠ o := (Nat.lt_of_lt_of_le ho hx).ne'
    refine ⟨?_, (h.unused x hx).2⟩
    show Function.update m.count o (m.count o + 1) x = 0
    rw [Function.update_of_ne hx', (h.unused x hx).1]

/-- A reference is given up: the object keeps another one, or is not linked. -/
theorem MemOk.drop [DecidableEq Tid] (h : MemOk m) (ho : (t, o) ∈ m.refs)
    (hcase : m.count o ≠ 1 ∨ o ∉ m.live) : MemOk (m.drop t o (m.count o)) := by
  refine
    { counts := fun x => ?_
      unused := fun x hx => ?_
      nodup := h.nodup
      sub := h.sub
      chains := h.chains
      counted := fun x hx => ?_ }
  · show Function.update m.count o (m.count o - 1) x
      = (m.refs.erase (t, o)).countP fun p => p.2 = x
    have hperm := (List.perm_cons_erase ho).countP_eq fun p => decide (p.2 = x)
    by_cases hx : x = o
    · subst hx
      rw [List.countP_cons_of_pos (by simp), ← h.counts] at hperm
      rw [Function.update_self, hperm, Nat.add_sub_cancel]
    · rw [List.countP_cons_of_neg (by simpa using Ne.symm hx), ← h.counts] at hperm
      rw [Function.update_of_ne hx, hperm]
  · have hx' : x ≠ o := by
      rintro rfl
      exact absurd (h.lt_brk (h.count_pos ho)) (Nat.not_lt.mpr hx)
    refine ⟨?_, (h.unused x hx).2⟩
    show Function.update m.count o (m.count o - 1) x = 0
    rw [Function.update_of_ne hx', (h.unused x hx).1]
  · show 0 < Function.update m.count o (m.count o - 1) x
    by_cases hx' : x = o
    · subst hx'
      have hpos := h.count_pos ho
      rcases hcase with hne | hnl
      · rw [Function.update_self]
        omega
      · exact absurd hx hnl
    · rw [Function.update_of_ne hx']
      exact h.counted x hx

/-! ### Insertion -/

theorem live_link (h : MemOk m) (hr : r ∉ m.inserted) (b : Fin nhash) :
    (m.link b r).live = r :: m.live := by
  have hu : r ∉ m.unlinked := fun hmem => hr (h.sub r hmem)
  show (r :: m.inserted).filter (· ∉ m.unlinked) = _
  rw [List.filter_cons_of_pos (by simpa using hu)]
  rfl

/-- **Insertion at the head of a bucket** of an object that already points to the
old head. -/
theorem MemOk.link (h : MemOk m) {id : BitVec 32} (hr : Fresh m t id r)
    (hnext : m.next r = m.fh (hash (ofInt id))) : MemOk (m.link (hash (ofInt id)) r) := by
  have hlive := live_link h hr.notMem (hash (ofInt id))
  have hpos : 0 < m.count r := hr.count ▸ Nat.one_pos
  refine
    { counts := h.counts
      unused := fun x hx => ⟨(h.unused x hx).1, ?_⟩
      nodup := List.nodup_cons.mpr ⟨hr.notMem, h.nodup⟩
      sub := fun x hx => List.mem_cons_of_mem _ (h.sub x hx)
      chains := fun b => ?_
      counted := fun x hx => ?_ }
  · intro hmem
    rcases List.mem_cons.mp hmem with rfl | hmem
    · exact absurd (h.lt_brk hpos) (Nat.not_lt.mpr hx)
    · exact (h.unused x hx).2 hmem
  · show IsChain m.next (Function.update m.fh (hash (ofInt id)) (some r) b) _
    rw [Noted.chain, hlive]
    by_cases hb : b = hash (ofInt id)
    · subst hb
      rw [Function.update_self, List.filter_cons_of_pos (by simp [Noted.link, Mem.setFh, hr.id])]
      exact (h.chains _).push hnext
    · rw [Function.update_of_ne hb, List.filter_cons_of_neg
        (by simpa [Noted.link, Mem.setFh, hr.id] using Ne.symm hb)]
      exact h.chains b
  · rw [hlive] at hx
    rcases List.mem_cons.mp hx with rfl | hx
    · exact hpos
    · exact h.counted x hx

/-! ### Unlinking -/

/-- Recording `o` as unlinked removes it from the live objects. -/
theorem filter_unlinked (m : Noted Tid) (o : Ref) :
    m.inserted.filter (· ∉ o :: m.unlinked) = m.live.filter (· ≠ o) := by
  rw [Noted.live, List.filter_filter]
  refine List.filter_congr fun x _ => ?_
  by_cases hx : x = o <;> simp [hx]

/-- **Unlinking**, given the new chain of the object's bucket and that the other
chains are as before. -/
theorem MemOk.unlink (h : MemOk m) (ho : o ∈ m.live) {m' : Noted Tid}
    (hcount : m'.count = m.count) (hid : m'.id = m.id) (hbrk : m'.brk = m.brk)
    (hrefs : m'.refs = m.refs) (hins : m'.inserted = m.inserted)
    (hunl : m'.unlinked = o :: m.unlinked)
    (hsame : IsChain m'.next (m'.fh (hash (m.id o)))
      ((m.chain (hash (m.id o))).filter (· ≠ o)))
    (hother : ∀ b, b ≠ hash (m.id o) → IsChain m'.next (m'.fh b) (m.chain b)) :
    MemOk m' ∧ m'.live = m.live.filter (· ≠ o) := by
  have hlive : m'.live = m.live.filter (· ≠ o) := by
    rw [Noted.live, hins, hunl]
    exact filter_unlinked m o
  have hchain : ∀ b, m'.chain b = (m.chain b).filter (· ≠ o) := by
    intro b
    rw [Noted.chain, Noted.chain, hlive, hid, List.filter_filter, List.filter_filter]
    exact List.filter_congr fun x _ => Bool.and_comm _ _
  refine ⟨⟨?_, ?_, hins ▸ h.nodup, ?_, ?_, ?_⟩, hlive⟩
  · rw [hcount, hrefs]
    exact h.counts
  · rw [hcount, hins, hbrk]
    exact h.unused
  · rw [hunl, hins]
    intro x hx
    rcases List.mem_cons.mp hx with rfl | hx
    exacts [(mem_live.mp ho).1, h.sub x hx]
  · intro b
    rw [hchain]
    by_cases hb : b = hash (m.id o)
    · subst hb
      exact hsame
    · rw [List.filter_eq_self.mpr]
      · exact hother b hb
      · intro x hx
        have hne : x ≠ o := by
          rintro rfl
          exact hb (mem_chain.mp hx).2.symm
        simpa using hne
  · rw [hlive, hcount]
    intro x hx
    exact h.counted x (List.mem_filter.mp hx).1

/-- Dropping one element from a list without repetitions. -/
theorem filter_ne_of_nodup {l₁ l₂ : List Ref} (h : (l₁ ++ o :: l₂).Nodup) :
    (l₁ ++ o :: l₂).filter (· ≠ o) = l₁ ++ l₂ := by
  obtain ⟨-, h₂, hdisj⟩ := List.nodup_append.mp h
  have h₁ : o ∉ l₁ := fun hmem => hdisj o hmem o (by simp) rfl
  have h₂' := (List.nodup_cons.mp h₂).1
  rw [List.filter_append, List.filter_cons_of_neg (by simp), List.filter_eq_self.mpr,
    List.filter_eq_self.mpr]
  · intro x hx
    have hne : x ≠ o := fun e => h₂' (e ▸ hx)
    simpa using hne
  · intro x hx
    have hne : x ≠ o := fun e => h₁ (e ▸ hx)
    simpa using hne

/-- `fh[idx] = next`. -/
theorem MemOk.unlinkHead (h : MemOk m) (hfh : m.fh (hash (m.id o)) = some o)
    (ho : o ∈ m.live) :
    MemOk (m.unlinkHead o (m.next o)) ∧
      (m.unlinkHead o (m.next o)).live = m.live.filter (· ≠ o) := by
  have hchain := h.chains (hash (m.id o))
  obtain ⟨l, hl⟩ := List.head?_eq_some_iff.mp (hchain.start.symm.trans hfh)
  rw [hl] at hchain
  have hdrop : (o :: l).filter (· ≠ o) = l := @filter_ne_of_nodup o [] l hchain.nodup
  refine h.unlink ho rfl rfl rfl rfl rfl rfl ?_ ?_
  · show IsChain m.next (Function.update m.fh _ (m.next o) _) _
    rw [Function.update_self, hl, hdrop]
    exact hchain.tail
  · intro b hb
    show IsChain m.next (Function.update m.fh _ (m.next o) b) _
    rw [Function.update_of_ne hb]
    exact h.chains b

/-- `tfp->next = next`. -/
theorem MemOk.unlinkMid (h : MemOk m) {tfp : Ref} (htfp : tfp ∈ m.chain (hash (m.id o)))
    (hnext : m.next tfp = some o) (ho : o ∈ m.live) :
    MemOk (m.unlinkMid o tfp (m.next o)) ∧
      (m.unlinkMid o tfp (m.next o)).live = m.live.filter (· ≠ o) := by
  have hchain := h.chains (hash (m.id o))
  -- the chain passes through `tfp` and then `o`
  obtain ⟨l₁, l, hl⟩ := List.append_of_mem htfp
  rw [hl] at hchain
  obtain ⟨l₂, rfl⟩ := List.head?_eq_some_iff.mp
    (hchain.drop.tail.start.symm.trans hnext)
  refine h.unlink ho rfl rfl rfl rfl rfl rfl ?_ ?_
  · show IsChain (Function.update m.next tfp (m.next o)) _ _
    rw [hl]
    have hsplit : l₁ ++ tfp :: o :: l₂ = (l₁ ++ [tfp]) ++ o :: l₂ := by simp
    have hnd := hchain.nodup
    rw [hsplit] at hnd ⊢
    rw [filter_ne_of_nodup hnd, List.append_assoc]
    exact hchain.unlink
  · intro b hb
    refine (h.chains b).update_of_notMem fun hmem => hb ?_
    rw [← (mem_chain.mp hmem).2, ← (mem_chain.mp htfp).2]

end Apue.Foo
