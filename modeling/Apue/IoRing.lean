/-
Apue/IoRing.lean

Submission and completion rings whose entries carry tags.

A request is prepared under a tag, issued, completed, looked at and seen, in this
order.  Tags are the numbers below a bound, handed out in order.  A ring is accounted
for (`Accounted`) if every tag handed out is in exactly one place.  Each operation
keeps this, and says which entries the ring holds afterwards (`has_issue` and so on):
the one that moved, and those of other tags as before.

The types of what is prepared, in flight and completed are arbitrary.
-/
import Mathlib.Data.List.Basic
import Mathlib.Data.List.Nodup
import Mathlib.Data.List.Range
import Mathlib.Tactic.Common

/-- A ring: `cur` is the completion that was looked at and is not yet seen, `seen` the
history of tags seen. -/
structure IoRing (α β γ : Type*) where
  sq : List (ℕ × α)
  inflight : List (ℕ × β)
  cq : List (ℕ × γ)
  cur : Option (ℕ × γ)
  seen : List ℕ

namespace IoRing

variable {α β γ : Type*}

/-- What a ring can hold under a tag. -/
inductive Entry (α β γ : Type*)
  | prepared (a : α)
  | inflight (b : β)
  | done (c : γ)

/-- A ring without entries. -/
def empty : IoRing α β γ := ⟨[], [], [], none, []⟩

variable (r : IoRing α β γ)

/-- The ring holds this entry under this tag; the completion looked at is not counted. -/
def Has (i : ℕ) : Entry α β γ → Prop
  | .prepared a => (i, a) ∈ r.sq
  | .inflight b => (i, b) ∈ r.inflight
  | .done c => (i, c) ∈ r.cq

/-- Prepare a request. -/
def prep (i : ℕ) (a : α) : IoRing α β γ := { r with sq := r.sq ++ [(i, a)] }

/-- The oldest prepared request is issued as `b`. -/
def issue (i : ℕ) (b : β) : IoRing α β γ :=
  { r with sq := r.sq.tail, inflight := r.inflight ++ [(i, b)] }

/-- A request in flight completes with `c`. -/
def complete [DecidableEq β] (i : ℕ) (b : β) (c : γ) : IoRing α β γ :=
  { r with inflight := r.inflight.erase (i, b), cq := r.cq ++ [(i, c)] }

/-- Look at the oldest completion. -/
def peek : IoRing α β γ := { r with cur := r.cq.head?, cq := r.cq.tail }

/-- The completion looked at has been seen. -/
def advance : IoRing α β γ :=
  { r with cur := none, seen := r.seen ++ (r.cur.map Prod.fst).toList }

/-! ### Accounting for tags -/

/-- All tags in the ring and its history. -/
def tags : List ℕ :=
  r.sq.map Prod.fst ++ (r.inflight.map Prod.fst ++ (r.cq.map Prod.fst ++
    ((r.cur.map Prod.fst).toList ++ r.seen)))

/-- Every tag below `n` is in exactly one place. -/
def Accounted (n : ℕ) : Prop := r.tags.Perm (List.range n)

variable {r} {n i j : ℕ} {a : α} {b : β} {c : γ} {e : Entry α β γ}

theorem accounted_empty : (empty : IoRing α β γ).Accounted 0 := .nil

theorem Accounted.nodup (h : r.Accounted n) : r.tags.Nodup :=
  h.nodup_iff.mpr List.nodup_range

theorem Accounted.seen_nodup (h : r.Accounted n) : r.seen.Nodup :=
  h.nodup.of_append_right.of_append_right.of_append_right.of_append_right

theorem Accounted.mem_tags_iff (h : r.Accounted n) : i ∈ r.tags ↔ i < n := by
  rw [List.Perm.mem_iff h, List.mem_range]

theorem Accounted.of_perm {r' : IoRing α β γ} (h : r.Accounted n) (ht : r'.tags.Perm r.tags) :
    r'.Accounted n := List.Perm.trans ht h

theorem mem_tags : i ∈ r.tags ↔
    (∃ e, r.Has i e) ∨ (∃ c, r.cur = some (i, c)) ∨ i ∈ r.seen := by
  constructor
  · intro h
    simp only [tags, List.mem_append, List.mem_map, Prod.exists, exists_and_right,
      exists_eq_right, Option.mem_toList, Option.map_eq_some_iff] at h
    rcases h with ⟨a, ha⟩ | ⟨b, hb⟩ | ⟨c, hc⟩ | ⟨c, hc⟩ | hseen
    · exact .inl ⟨.prepared a, ha⟩
    · exact .inl ⟨.inflight b, hb⟩
    · exact .inl ⟨.done c, hc⟩
    · exact .inr (.inl ⟨c, hc⟩)
    · exact .inr (.inr hseen)
  · rintro (⟨e, he⟩ | ⟨c, hc⟩ | hseen)
    · cases e with
      | prepared a =>
          exact List.mem_append_left _ (List.mem_map_of_mem he)
      | inflight b =>
          exact List.mem_append_right _ (List.mem_append_left _ (List.mem_map_of_mem he))
      | done c =>
          exact List.mem_append_right _ (List.mem_append_right _
            (List.mem_append_left _ (List.mem_map_of_mem he)))
    · simp [tags, hc]
    · simp [tags, hseen]

theorem Has.lt (h : r.Accounted n) (he : r.Has i e) : i < n :=
  h.mem_tags_iff.mp (mem_tags.mpr (.inl ⟨e, he⟩))

theorem Accounted.lt_of_seen (h : r.Accounted n) (hi : i ∈ r.seen) : i < n :=
  h.mem_tags_iff.mp (mem_tags.mpr (.inr (.inr hi)))

/-- A tag is in one place only. -/
theorem Accounted.count_le_one (h : r.Accounted n) (i : ℕ) :
    (r.sq.map Prod.fst).count i + (r.inflight.map Prod.fst).count i +
      (r.cq.map Prod.fst).count i + (r.cur.map Prod.fst).toList.count i + r.seen.count i ≤ 1 := by
  have hcount := List.nodup_iff_count_le_one.mp h.nodup i
  simp only [tags, List.count_append] at hcount
  omega

theorem count_pos_of_mem {δ : Type*} {x : δ} {l : List (ℕ × δ)} (h : (i, x) ∈ l) :
    0 < (l.map Prod.fst).count i :=
  List.count_pos_iff.mpr (List.mem_map_of_mem h)

/-- **A tag has one entry.** -/
theorem Accounted.unique {e' : Entry α β γ} (h : r.Accounted n) (he : r.Has i e)
    (he' : r.Has i e') : e = e' := by
  have hnd := h.nodup
  have hcount := h.count_le_one i
  cases e <;> cases e'
  case prepared.prepared =>
      have hinj := List.inj_on_of_nodup_map hnd.of_append_left he he' rfl
      exact congrArg _ (Prod.mk.inj hinj).2
  case inflight.inflight =>
      have hinj := List.inj_on_of_nodup_map hnd.of_append_right.of_append_left he he' rfl
      exact congrArg _ (Prod.mk.inj hinj).2
  case done.done =>
      have hinj := List.inj_on_of_nodup_map hnd.of_append_right.of_append_right.of_append_left
        he he' rfl
      exact congrArg _ (Prod.mk.inj hinj).2
  all_goals
    have hpos := count_pos_of_mem he
    have hpos' := count_pos_of_mem he'
    omega

/-- The completion looked at is no longer in the ring. -/
theorem Accounted.not_has_cur (h : r.Accounted n) (hcur : r.cur = some (i, c)) : ¬ r.Has i e := by
  intro he
  have hcount := h.count_le_one i
  rw [hcur] at hcount
  cases e <;>
  · have hpos := count_pos_of_mem he
    simp at hcount
    omega

theorem Accounted.not_has_seen (h : r.Accounted n) (hseen : i ∈ r.seen) : ¬ r.Has i e := by
  intro he
  have hcount := h.count_le_one i
  have hpos' := List.count_pos_iff.mpr hseen
  cases e <;>
  · have hpos := count_pos_of_mem he
    omega

theorem Accounted.cur_not_seen (h : r.Accounted n) (hcur : r.cur = some (i, c)) :
    i ∉ r.seen := by
  intro hseen
  have hcount := h.count_le_one i
  have hpos := List.count_pos_iff.mpr hseen
  rw [hcur] at hcount
  simp at hcount
  omega

/-! ### Operations -/

theorem Accounted.prep (h : r.Accounted n) (a : α) : (r.prep n a).Accounted (n + 1) := by
  refine List.Perm.trans ?_ (List.range_succ ▸ (List.perm_append_right_iff [n]).mpr h)
  refine List.perm_iff_count.mpr fun i => ?_
  simp only [tags, IoRing.prep, List.map_append, List.count_append, List.map_cons, List.map_nil]
  omega

theorem has_prep (h : (r.prep i a).Has j e) : (j = i ∧ e = .prepared a) ∨ r.Has j e := by
  cases e with
  | prepared a' =>
      rcases List.mem_append.mp h with h | h
      · exact .inr h
      · obtain ⟨rfl, rfl⟩ := Prod.mk.inj (List.mem_singleton.mp h)
        exact .inl ⟨rfl, rfl⟩
  | inflight b => exact .inr h
  | done c => exact .inr h

theorem Accounted.issue {rest : List (ℕ × α)} (h : r.Accounted n) (hsq : r.sq = (i, a) :: rest)
    (b : β) : (r.issue i b).Accounted n := by
  refine h.of_perm (List.perm_iff_count.mpr fun j => ?_)
  simp only [tags, IoRing.issue, hsq, List.tail_cons, List.map_append, List.count_append,
    List.map_cons, List.map_nil, List.count_cons, List.count_nil]
  omega

theorem has_issue (hacc : (r.issue i b).Accounted n) (h : (r.issue i b).Has j e) :
    (j = i ∧ e = .inflight b) ∨ (j ≠ i ∧ r.Has j e) := by
  rcases eq_or_ne j i with rfl | hne
  · have hj : (r.issue j b).Has j (.inflight b) :=
      List.mem_append_right _ List.mem_cons_self
    exact .inl ⟨rfl, hacc.unique h hj⟩
  refine .inr ⟨hne, ?_⟩
  cases e with
  | prepared a => exact List.mem_of_mem_tail h
  | inflight b' =>
      refine (List.mem_append.mp h).resolve_right fun h => hne ?_
      exact (Prod.mk.inj (List.mem_singleton.mp h)).1
  | done c => exact h

theorem Accounted.complete [DecidableEq β] (h : r.Accounted n) (hb : (i, b) ∈ r.inflight)
    (c : γ) : (r.complete i b c).Accounted n := by
  refine h.of_perm (List.perm_iff_count.mpr fun j => ?_)
  have herase := ((List.perm_cons_erase hb).map Prod.fst).count_eq j
  simp only [tags, IoRing.complete, List.map_append, List.count_append, List.map_cons,
    List.map_nil, List.count_cons, List.count_nil] at herase ⊢
  omega

theorem has_complete [DecidableEq β] (hacc : (r.complete i b c).Accounted n)
    (h : (r.complete i b c).Has j e) : (j = i ∧ e = .done c) ∨ (j ≠ i ∧ r.Has j e) := by
  rcases eq_or_ne j i with rfl | hne
  · have hj : (r.complete j b c).Has j (.done c) :=
      List.mem_append_right _ List.mem_cons_self
    exact .inl ⟨rfl, hacc.unique h hj⟩
  refine .inr ⟨hne, ?_⟩
  cases e with
  | prepared a => exact h
  | inflight b' => exact List.mem_of_mem_erase h
  | done c' =>
      refine (List.mem_append.mp h).resolve_right fun h => hne ?_
      exact (Prod.mk.inj (List.mem_singleton.mp h)).1

theorem Accounted.peek (h : r.Accounted n) (hcur : r.cur = none) : r.peek.Accounted n := by
  refine h.of_perm (List.perm_iff_count.mpr fun j => ?_)
  simp only [tags, IoRing.peek, hcur, List.count_append]
  cases r.cq with
  | nil => rfl
  | cons p rest =>
      simp only [List.head?_cons, List.tail_cons, List.map_cons, Option.map_some,
        Option.toList_some, Option.map_none, Option.toList_none, List.count_cons, List.count_nil]
      omega

theorem has_peek (h : r.peek.Has j e) : r.Has j e := by
  cases e with
  | prepared a => exact h
  | inflight b => exact h
  | done c => exact List.mem_of_mem_tail h

theorem Accounted.advance (h : r.Accounted n) : r.advance.Accounted n := by
  refine h.of_perm (List.perm_iff_count.mpr fun j => ?_)
  simp only [tags, IoRing.advance, List.count_append, Option.map_none, Option.toList_none,
    List.count_nil]
  omega

theorem has_advance (h : r.advance.Has j e) : r.Has j e := by
  cases e <;> exact h

end IoRing
