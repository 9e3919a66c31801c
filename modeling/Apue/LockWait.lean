/-
Apue/LockWait.lean

Record locks on one file with requests that wait: `fcntl` with `F_SETLKW`.

A process whose request conflicts with a lock sleeps, and is woken when the owner of that
lock gives up or changes a lock; then it tries again.  Before it goes to sleep the chain of
sleeping processes is followed, from the owner of the lock in the way to the process that
this one waits for, and so on.  If the chain comes back to the process, the request fails
with `EDEADLK`.

In every state that these operations lead to (`Sound`) the table is free of conflicts, who
sleeps waits for a lock that is really there, and the chain of sleeping processes does not
close.  So there is always somebody awake that a sleeping process waits for
(`Sound.exists_awake`).

The chain is followed for a bounded number of steps; the bound must not be less than the
number of processes.  Nothing here is about what the processes do.
-/
import Apue.RecordLock
import Mathlib.Data.Set.Card
import Mathlib.Logic.Relation
import Mathlib.Order.WellFounded
import Mathlib.Data.Fintype.Order
import Mathlib.Order.CompletePartialOrder

namespace RecordLock

variable {P : Type*} [DecidableEq P]

/-- The locks on a file, and for each sleeping process its request and the process that it
waits for. -/
structure Locks (P : Type*) where
  table : Table P
  sleeping : P → Option (Lock P × P)

/-- No locks. -/
def Locks.none : Locks P := ⟨[], fun _ => Option.none⟩

/-- The owner of the first lock in the way. -/
def blocker (t : Table P) (l : Lock P) : Option P :=
  (t.find? fun m => decide (l.Conflicts m)).map Lock.owner

/-- Following the chain of sleeping processes from `q`, within `fuel` steps, one comes
to `p`. -/
def Locks.leadsTo (s : Locks P) : ℕ → P → P → Bool
  | 0, _, _ => false
  | fuel + 1, q, p =>
      if q = p then true
      else
        match s.sleeping q with
        | Option.none => false
        | some (_, r) => s.leadsTo fuel r p

/-- Those who wait for `q` are woken. -/
def Locks.wake (s : Locks P) (q : P) : Locks P :=
  { s with sleeping := fun p => (s.sleeping p).filter fun w => w.2 ≠ q }

/-- What a request can come to. -/
inductive Answer (P : Type*)
  | granted (s : Locks P)
  | sleeps (s : Locks P)
  | edeadlk

/-- How far the kernel follows the chain of sleeping processes. -/
def maxDeadlkIterations : ℕ := 10

/-- `fcntl(fd, F_SETLKW, &fl)`, first or again. -/
def Locks.setLkW (fuel : ℕ) (s : Locks P) (l : Lock P) : Answer P :=
  match blocker s.table l with
  | Option.none =>
      .granted (Locks.wake { s with table := l :: unlock s.table l.owner l.region } l.owner)
  | some q =>
      if s.leadsTo fuel q l.owner then .edeadlk
      else .sleeps { s with sleeping := Function.update s.sleeping l.owner (some (l, q)) }

/-- `F_UNLCK` in a region by process `p`. -/
def Locks.unlock (s : Locks P) (p : P) (r : Region) : Locks P :=
  Locks.wake { s with table := RecordLock.unlock s.table p r } p

/-- Process `p` exits. -/
def Locks.release (s : Locks P) (p : P) : Locks P :=
  Locks.wake { s with table := RecordLock.release s.table p } p

/-- What is locked after `F_UNLCK`: the locks of the others, and what is left of one's own. -/
theorem mem_unlock {t : Table P} {m : Lock P} {p : P} {r : Region} : m ∈ RecordLock.unlock t p r ↔
    m ∈ t ∧ m.owner ≠ p ∨ ∃ m₀ ∈ t, m₀.owner = p ∧ ∃ d ∈ m₀.region.diff r, m = ⟨p, m₀.kind, d⟩ := by
  rw [RecordLock.unlock, List.mem_flatMap]
  constructor
  · rintro ⟨m₀, hm₀, hm⟩
    split at hm
    case isTrue howner =>
        obtain ⟨d, hd, rfl⟩ := List.mem_map.mp hm
        exact .inr ⟨m₀, hm₀, howner, d, hd, rfl⟩
    case isFalse hne =>
        obtain rfl := List.mem_singleton.mp hm
        exact .inl ⟨hm₀, hne⟩
  · rintro (⟨hm, hne⟩ | ⟨m₀, hm₀, howner, d, hd, rfl⟩)
    · exact ⟨m, hm, by rw [if_neg hne]; exact List.mem_singleton_self m⟩
    · exact ⟨m₀, hm₀, by rw [if_pos howner]; exact List.mem_map_of_mem hd⟩

/-! ### Who waits for whom -/

/-- Process `p` sleeps until `q` gives something up. -/
def Locks.WaitsFor (s : Locks P) (p q : P) : Prop := ∃ l, s.sleeping p = some (l, q)

/-- What holds of the locks at any time. -/
structure Sound (s : Locks P) : Prop where
  exclusive : Exclusive s.table
  /-- who sleeps waits for a lock that is there -/
  blocked : ∀ p l q, s.sleeping p = some (l, q) →
    l.owner = p ∧ ∃ m ∈ s.table, m.owner = q ∧ l.Conflicts m
  /-- nobody waits for itself, however long the chain -/
  acyclic : ∀ p, ¬Relation.TransGen s.WaitsFor p p

variable {s s' : Locks P} {t : Table P} {l : Lock P} {p q r : P} {fuel : ℕ}

theorem blocker_eq_none_iff : blocker t l = none ↔ ∀ m ∈ t, ¬l.Conflicts m := by
  simp [blocker]

theorem exists_of_blocker_eq_some (h : blocker t l = some q) :
    ∃ m ∈ t, m.owner = q ∧ l.Conflicts m := by
  obtain ⟨m, hm, rfl⟩ := Option.map_eq_some_iff.mp h
  have hconflict := List.find?_some hm
  exact ⟨m, List.mem_of_find?_eq_some hm, rfl, of_decide_eq_true hconflict⟩

theorem wake_sleeping :
    (s.wake q).sleeping p = some (l, r) ↔ s.sleeping p = some (l, r) ∧ r ≠ q := by
  simp [Locks.wake, Option.filter_eq_some_iff]

theorem waitsFor_wake : (s.wake r).WaitsFor p q ↔ s.WaitsFor p q ∧ q ≠ r := by
  constructor
  · rintro ⟨l, hl⟩
    exact ⟨⟨l, (wake_sleeping.mp hl).1⟩, (wake_sleeping.mp hl).2⟩
  · rintro ⟨⟨l, hl⟩, hne⟩
    exact ⟨l, wake_sleeping.mpr ⟨hl, hne⟩⟩

/-! ### The search is complete -/

omit [DecidableEq P] in
/-- What a process waits for leads to fewer processes than the process itself. -/
theorem reachable_ssubset (hacyclic : ∀ p, ¬Relation.TransGen s.WaitsFor p p)
    (hqr : s.WaitsFor q r) :
    {x | Relation.ReflTransGen s.WaitsFor r x} ⊂ {x | Relation.ReflTransGen s.WaitsFor q x} := by
  refine ⟨fun x hx => Relation.ReflTransGen.head hqr hx, fun hsub => ?_⟩
  have hback : Relation.ReflTransGen s.WaitsFor r q := hsub Relation.ReflTransGen.refl
  exact hacyclic q (Relation.TransGen.head' hqr hback)

theorem leadsTo_of_reflTransGen [Finite P] (hacyclic : ∀ p, ¬Relation.TransGen s.WaitsFor p p) :
    ∀ {fuel : ℕ} {q : P}, {x | Relation.ReflTransGen s.WaitsFor q x}.ncard ≤ fuel →
      Relation.ReflTransGen s.WaitsFor q p → s.leadsTo fuel q p = true := by
  intro fuel
  induction fuel with
  | zero =>
      intro q hcard hqp
      have hempty := (Set.ncard_eq_zero (Set.toFinite _)).mp (Nat.le_zero.mp hcard)
      exact absurd (show p ∈ {x | Relation.ReflTransGen s.WaitsFor q x} from hqp)
        (hempty ▸ Set.notMem_empty p)
  | succ fuel ih =>
      intro q hcard hqp
      rw [Locks.leadsTo]
      rcases Relation.ReflTransGen.cases_head hqp with rfl | ⟨r, hqr, hrp⟩
      · rw [if_pos rfl]
      split
      · rfl
      obtain ⟨l, hl⟩ := hqr
      rw [hl]
      have hlt := Set.ncard_lt_ncard (reachable_ssubset hacyclic ⟨l, hl⟩) (Set.toFinite _)
      exact ih (by omega) hrp

/-- A search that is allowed as many steps as there are processes does not miss one. -/
theorem not_reflTransGen_of_leadsTo [Finite P] (hacyclic : ∀ p, ¬Relation.TransGen s.WaitsFor p p)
    (hfuel : Nat.card P ≤ fuel) (h : s.leadsTo fuel q p = false) :
    ¬Relation.ReflTransGen s.WaitsFor q p := by
  intro hqp
  have hcard : {x | Relation.ReflTransGen s.WaitsFor q x}.ncard ≤ fuel :=
    Nat.le_trans (Set.ncard_le_card _) hfuel
  rw [leadsTo_of_reflTransGen hacyclic hcard hqp] at h
  exact nomatch h

/-! ### The operations -/

omit [DecidableEq P] in
theorem sound_none : Sound (Locks.none : Locks P) where
  exclusive := fun _ h => absurd h List.not_mem_nil
  blocked := nofun
  acyclic := fun p h => by
    obtain ⟨q, ⟨l, hl⟩, -⟩ := Relation.TransGen.head'_iff.mp h
    exact nomatch hl

/-- Process `p` changes its locks, and those who wait for it are woken. -/
theorem Sound.change (h : Sound s) (hexclusive : Exclusive t)
    (hothers : ∀ m ∈ s.table, m.owner ≠ p → m ∈ t) :
    Sound (Locks.wake { s with table := t } p) where
  exclusive := hexclusive
  blocked := by
    intro x l q hl
    obtain ⟨hl, hne⟩ := wake_sleeping.mp hl
    obtain ⟨howner, m, hm, hq, hconflict⟩ := h.blocked x l q hl
    exact ⟨howner, m, hothers m hm (hq ▸ hne), hq, hconflict⟩
  acyclic := fun x hx => by
    have hfewer : (Locks.wake { s with table := t } p).WaitsFor ≤ s.WaitsFor :=
      fun _ _ hw => (waitsFor_wake.mp hw).1
    exact h.acyclic x (Relation.TransGen.mono hfewer x x hx)

theorem Sound.unlock (h : Sound s) (p : P) (r : Region) : Sound (s.unlock p r) :=
  h.change (h.exclusive.unlock p r) fun _ hm hne => (mem_unlock_iff_of_ne hne).mpr hm

theorem Sound.release (h : Sound s) (p : P) : Sound (s.release p) :=
  h.change (h.exclusive.release p) fun _ hm hne => mem_release.mpr ⟨hm, hne⟩

/-- A new lock is in the table, and those who waited for its owner are awake. -/
theorem setLkW_granted (hs : s.setLkW fuel l = .granted s') :
    (∀ m ∈ s.table, ¬l.Conflicts m) ∧
      s' = Locks.wake { s with table := l :: RecordLock.unlock s.table l.owner l.region } l.owner := by
  unfold Locks.setLkW at hs
  split at hs
  case h_1 hfree => exact ⟨blocker_eq_none_iff.mp hfree, (Answer.granted.inj hs).symm⟩
  case h_2 => split at hs <;> exact nomatch hs

theorem Sound.granted (h : Sound s) (hs : s.setLkW fuel l = .granted s') : Sound s' := by
  obtain ⟨hfree, rfl⟩ := setLkW_granted hs
  have hset : setLk s.table l = some (l :: RecordLock.unlock s.table l.owner l.region) :=
    setLk_eq_some_iff.mpr ⟨hfree, rfl⟩
  exact h.change (h.exclusive.setLk hset) fun _ hm hne => (mem_setLk_iff_of_ne hset hne).mpr hm

/-- A request fails only because of somebody who sleeps. -/
theorem setLkW_edeadlk (hs : s.setLkW fuel l = .edeadlk) :
    ∃ m ∈ s.table, l.Conflicts m ∧ s.sleeping m.owner ≠ none := by
  unfold Locks.setLkW at hs
  split at hs
  case h_1 => exact nomatch hs
  case h_2 q hq =>
      obtain ⟨m, hm, rfl, hconflict⟩ := exists_of_blocker_eq_some hq
      split at hs
      case isFalse => exact nomatch hs
      case isTrue hlead =>
          refine ⟨m, hm, hconflict, fun hawake => ?_⟩
          cases fuel with
          | zero => exact nomatch hlead
          | succ fuel =>
              rw [Locks.leadsTo, if_neg hconflict.1.symm, hawake] at hlead
              exact nomatch hlead

omit [DecidableEq P] in
/-- A path with one edge more than before uses it once, unless it was closed already. -/
theorem transGen_of_new_edge {W W' : P → P → Prop} (hW' : ∀ x y, W' x y → W x y ∨ x = p ∧ y = q)
    (hqp : ¬Relation.ReflTransGen W q p) {x y : P} (h : Relation.TransGen W' x y) :
    Relation.TransGen W x y ∨ Relation.ReflTransGen W x p ∧ Relation.ReflTransGen W q y := by
  induction h with
  | single hxy =>
      rcases hW' _ _ hxy with hxy | ⟨rfl, rfl⟩
      · exact .inl (.single hxy)
      · exact .inr ⟨.refl, .refl⟩
  | tail _ hyz ih =>
      rcases hW' _ _ hyz with hyz | ⟨rfl, rfl⟩
      · exact ih.imp (·.tail hyz) fun hpq => ⟨hpq.1, hpq.2.tail hyz⟩
      · rcases ih with hxp | hpq
        · exact .inr ⟨hxp.to_reflTransGen, .refl⟩
        · exact absurd hpq.2 hqp

/-- Who goes to sleep waits for the owner of a lock in the way. -/
theorem setLkW_sleeps (hs : s.setLkW fuel l = .sleeps s') :
    ∃ q, blocker s.table l = some q ∧ s.leadsTo fuel q l.owner = false ∧
      s' = { s with sleeping := Function.update s.sleeping l.owner (some (l, q)) } := by
  unfold Locks.setLkW at hs
  split at hs
  case h_1 => exact nomatch hs
  case h_2 q hq =>
      split at hs
      case isTrue => exact nomatch hs
      case isFalse hlead =>
          exact ⟨q, hq, Bool.eq_false_of_not_eq_true hlead, (Answer.sleeps.inj hs).symm⟩

/-- **A process goes to sleep only if the chain does not close.** -/
theorem Sound.sleeps [Fintype P] (h : Sound s) (hfuel : Fintype.card P ≤ fuel)
    (hs : s.setLkW fuel l = .sleeps s') : Sound s' := by
  obtain ⟨q, hq, hlead, rfl⟩ := setLkW_sleeps hs
  have hqp := not_reflTransGen_of_leadsTo h.acyclic
    (Nat.card_eq_fintype_card.trans_le hfuel) hlead
  refine ⟨h.exclusive, ?_, ?_⟩
  · intro x m r hx
    dsimp only at hx
    rcases eq_or_ne x l.owner with rfl | hne
    · rw [Function.update_self] at hx
      obtain ⟨rfl, rfl⟩ := Prod.mk.inj (Option.some.inj hx)
      exact ⟨rfl, exists_of_blocker_eq_some hq⟩
    · rw [Function.update_of_ne hne] at hx
      exact h.blocked x m r hx
  · intro x hx
    have hedge : ∀ x y, Locks.WaitsFor
        { s with sleeping := Function.update s.sleeping l.owner (some (l, q)) } x y →
        s.WaitsFor x y ∨ x = l.owner ∧ y = q := by
      rintro x y ⟨m, hm⟩
      dsimp only at hm
      rcases eq_or_ne x l.owner with rfl | hne
      · rw [Function.update_self] at hm
        exact .inr ⟨rfl, (Prod.mk.inj (Option.some.inj hm)).2.symm⟩
      · rw [Function.update_of_ne hne] at hm
        exact .inl ⟨m, hm⟩
    rcases transGen_of_new_edge hedge hqp hx with hcycle | hcycle
    · exact h.acyclic x hcycle
    · exact hqp (hcycle.2.trans hcycle.1)

omit [DecidableEq P] in
/-- **Somebody is awake**: behind every sleeping process there is one that holds a lock and
does not sleep. -/
theorem Sound.exists_awake [Finite P] (h : Sound s) {w : Lock P × P}
    (hp : s.sleeping p = some w) :
    ∃ r, Relation.TransGen s.WaitsFor p r ∧ s.sleeping r = none ∧ ∃ m ∈ s.table, m.owner = r := by
  have hwf : WellFounded (flip (Relation.TransGen s.WaitsFor)) := by
    have htrans : IsTrans P (flip (Relation.TransGen s.WaitsFor)) :=
      ⟨fun _ _ _ hab hbc => hbc.trans hab⟩
    have hirrefl : Std.Irrefl (flip (Relation.TransGen s.WaitsFor)) := ⟨h.acyclic⟩
    exact Finite.wellFounded_of_trans_of_irrefl _
  induction p using hwf.induction generalizing w with
  | h p ih =>
      obtain ⟨l, q⟩ := w
      obtain ⟨-, m, hm, hq, -⟩ := h.blocked p l q hp
      have hpq : s.WaitsFor p q := ⟨l, hp⟩
      rcases hsleep : s.sleeping q with _ | w
      · exact ⟨q, .single hpq, hsleep, m, hm, hq⟩
      · obtain ⟨r, hqr, hr⟩ := ih q (.single hpq) hsleep
        exact ⟨r, .head hpq hqr, hr⟩

/-! ### One lock at a time, on the whole file -/

/-- Length 0: to the end of the file. -/
def whole : Region := ⟨0, 0⟩

/-- Every process has at most one lock, on the whole file, and no lock while it asks for
one. -/
structure OneLock (s : Locks P) (held : P → Option Kind) (asking : P → Bool) : Prop where
  sound : Sound s
  table : ∀ m, m ∈ s.table ↔ held m.owner = some m.kind ∧ m.region = whole
  asks : ∀ p, s.sleeping p ≠ none → asking p = true
  free : ∀ p, asking p = true → held p = none

section OneLock

variable {held : P → Option Kind} {asking : P → Bool} {k : Kind} {b : Bool}

omit [DecidableEq P] in
theorem oneLock_none : OneLock (Locks.none : Locks P) (fun _ => none) (fun _ => false) where
  sound := sound_none
  table := fun _ => ⟨fun hm => absurd hm List.not_mem_nil, fun hm => nomatch hm.1⟩
  asks := fun _ hp => absurd rfl hp
  free := nofun

omit [DecidableEq P] in
theorem conflicts_whole {m : Lock P} (hm : m.region = whole) :
    Lock.Conflicts ⟨p, k, whole⟩ m ↔ p ≠ m.owner ∧ (k = .write ∨ m.kind = .write) := by
  have hoverlaps : whole.Overlaps m.region := by
    rw [hm]
    decide
  exact ⟨fun h => ⟨h.1, h.2.1⟩, fun h => ⟨h.1, h.2, hoverlaps⟩⟩

/-- The lock of a process changes, and those who wait for it are woken. -/
theorem OneLock.change (h : OneLock s held asking)
    (hsound : Sound (Locks.wake { s with table := t } p))
    (hawake : s.sleeping p = none) {o : Option Kind} (hb : b = true → o = none)
    (htable : ∀ m, m ∈ t ↔ m.owner ≠ p ∧ m ∈ s.table ∨
      m.owner = p ∧ o = some m.kind ∧ m.region = whole) :
    OneLock (Locks.wake { s with table := t } p) (Function.update held p o)
      (Function.update asking p b) where
  sound := hsound
  table := by
    intro m
    change m ∈ t ↔ _
    rw [htable m, h.table m]
    rcases eq_or_ne m.owner p with howner | hne
    · rw [howner, Function.update_self]
      simp
    · rw [Function.update_of_ne hne]
      simp [hne]
  asks := by
    intro q hq
    obtain ⟨⟨l, r⟩, hw⟩ := Option.ne_none_iff_exists'.mp hq
    have hsleep : s.sleeping q = some (l, r) := (wake_sleeping.mp hw).1
    have hne : q ≠ p := by
      rintro rfl
      exact nomatch hawake.symm.trans hsleep
    rw [Function.update_of_ne hne]
    exact h.asks q (by rw [hsleep]; nofun)
  free := by
    intro q hq
    rcases eq_or_ne q p with rfl | hne
    · rw [Function.update_self] at hq ⊢
      exact hb hq
    · rw [Function.update_of_ne hne] at hq ⊢
      exact h.free q hq

/-- What is left after `F_UNLCK` of the whole file. -/
theorem OneLock.mem_unlock (h : OneLock s held asking) (m : Lock P) :
    m ∈ RecordLock.unlock s.table p whole ↔ m.owner ≠ p ∧ m ∈ s.table := by
  rw [RecordLock.mem_unlock]
  constructor
  · rintro (⟨hm, hne⟩ | ⟨m₀, hm₀, -, d, hd, -⟩)
    · exact ⟨hne, hm⟩
    · rw [((h.table m₀).mp hm₀).2] at hd
      exact nomatch hd
  · exact fun hm => .inl ⟨hm.2, hm.1⟩

theorem OneLock.granted (h : OneLock s held asking) (hawake : s.sleeping p = none)
    (hs : s.setLkW fuel ⟨p, k, whole⟩ = .granted s') :
    OneLock s' (Function.update held p (some k)) (Function.update asking p false) := by
  have hsound := h.sound.granted hs
  obtain ⟨-, rfl⟩ := setLkW_granted hs
  refine h.change hsound hawake nofun fun m => ?_
  rw [List.mem_cons, h.mem_unlock m]
  constructor
  · rintro (rfl | hm)
    · exact .inr ⟨rfl, rfl, rfl⟩
    · exact .inl hm
  · rintro (hm | ⟨howner, hkind, hregion⟩)
    · exact .inr hm
    · obtain ⟨q, j, r⟩ := m
      obtain rfl : q = p := howner
      obtain rfl := Option.some.inj hkind
      obtain rfl : r = whole := hregion
      exact .inl rfl

theorem OneLock.unlock (h : OneLock s held asking) (hawake : s.sleeping p = none) (b : Bool) :
    OneLock (s.unlock p whole) (Function.update held p none) (Function.update asking p b) := by
  refine h.change (h.sound.unlock p whole) hawake (fun _ => rfl) fun m => ?_
  rw [h.mem_unlock m]
  simp

theorem OneLock.release (h : OneLock s held asking) (hawake : s.sleeping p = none) (b : Bool) :
    OneLock (s.release p) (Function.update held p none) (Function.update asking p b) := by
  refine h.change (h.sound.release p) hawake (fun _ => rfl) fun m => ?_
  rw [mem_release]
  simp [and_comm]

theorem OneLock.sleeps [Fintype P] (h : OneLock s held asking) (hfuel : Fintype.card P ≤ fuel)
    (hasking : asking l.owner = true) (hs : s.setLkW fuel l = .sleeps s') :
    OneLock s' held asking := by
  have hsound := h.sound.sleeps hfuel hs
  obtain ⟨q, -, -, rfl⟩ := setLkW_sleeps hs
  refine ⟨hsound, h.table, fun r hr => ?_, h.free⟩
  rcases eq_or_ne r l.owner with rfl | hne
  · exact hasking
  · dsimp only at hr
    rw [Function.update_of_ne hne] at hr
    exact h.asks r hr

omit [DecidableEq P] in
/-- Who sleeps holds nothing. -/
theorem OneLock.awake_of_mem (h : OneLock s held asking) {m : Lock P} (hm : m ∈ s.table) :
    s.sleeping m.owner = none := by
  refine not_not.mp fun hsleep => ?_
  have hnone := h.free _ (h.asks _ hsleep)
  rw [((h.table m).mp hm).1] at hnone
  exact nomatch hnone

/-- **No deadlock**, if nobody asks for a second lock. -/
theorem OneLock.not_edeadlk (h : OneLock s held asking) : s.setLkW fuel l ≠ .edeadlk := by
  intro hs
  obtain ⟨m, hm, -, hsleep⟩ := setLkW_edeadlk hs
  exact hsleep (h.awake_of_mem hm)

omit [DecidableEq P] in
/-- Who sleeps waits for somebody who has a lock. -/
theorem OneLock.exists_held (h : OneLock s held asking) (hp : s.sleeping p ≠ none) :
    ∃ q, held q ≠ none := by
  obtain ⟨⟨l, q⟩, hw⟩ := Option.ne_none_iff_exists'.mp hp
  obtain ⟨-, m, hm, rfl, -⟩ := h.sound.blocked p l q hw
  exact ⟨m.owner, by rw [((h.table m).mp hm).1]; nofun⟩

omit [DecidableEq P] in
/-- A write lock is alone. -/
theorem OneLock.exclusive (h : OneLock s held asking) (hp : held p = some .write) (hne : q ≠ p) :
    held q = none := by
  refine not_not.mp fun hq => ?_
  obtain ⟨j, hj⟩ := Option.ne_none_iff_exists'.mp hq
  have hmem : (⟨p, .write, whole⟩ : Lock P) ∈ s.table := (h.table _).mpr ⟨hp, rfl⟩
  have hmem' : (⟨q, j, whole⟩ : Lock P) ∈ s.table := (h.table _).mpr ⟨hj, rfl⟩
  exact h.sound.exclusive _ hmem _ hmem' ((conflicts_whole rfl).mpr ⟨hne.symm, .inl rfl⟩)

end OneLock

end RecordLock
