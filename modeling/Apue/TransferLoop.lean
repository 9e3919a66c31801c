/-
Apue/TransferLoop.lean

The loop that calls a device until a number of items has been transferred.

A call asks for `nleft` items at an offset of the user's buffer.  It fails, or transfers
some of the items, or none.  The loop goes on with the rest after a call that has
transferred something, and ends after any other.  It reports what was transferred, and an
error only if nothing was.

* what holds of a device along the calls holds at the end of the loop (`Keeps.transfer`),
  which is how a transfer is followed;
* devices whose calls have the same results in related states transfer the same
  (`Related.transfer`), which is how a transfer is carried over to another model;
* a device may record its calls (`Device.recorded`): the transfer is the same, and the
  results of the calls say what it reports (`transfer_recorded`).

The state of a device is of an arbitrary type.
-/
import Mathlib.Algebra.GroupWithZero.Nat
import Mathlib.Data.List.Basic
import Mathlib.Tactic.Common

/-- A device: `call s off n` asks for `n` items at offset `off`, and `none` is an error. -/
structure Device (σ : Type*) where
  call : σ → ℕ → ℕ → Option ℕ × σ
  call_le : ∀ {s off n k s'}, call s off n = (some k, s') → k ≤ n

namespace Device

variable {σ : Type*} (D : Device σ)

/-- The loop, with `nleft` of `n` items to go.  Every iteration that continues has
transferred something, so `nleft` iterations are enough. -/
def loop (n : ℕ) : ℕ → ℕ → ℕ → σ → Option ℕ × σ
  | 0, nleft, _, s => (some (n - nleft), s)
  | fuel + 1, nleft, off, s =>
      if nleft = 0 then (some (n - nleft), s)
      else
        match D.call s off nleft with
        | (none, s') => (if nleft = n then none else some (n - nleft), s')
        | (some 0, s') => (some (n - nleft), s')
        | (some (k + 1), s') => loop n fuel (nleft - (k + 1)) (off + (k + 1)) s'

/-- Transfer `n` items: the count reported, and the device afterwards. -/
def transfer (n : ℕ) (s : σ) : Option ℕ × σ := D.loop n n n 0 s

/-! ### What holds along a transfer -/

variable {D} {n : ℕ} {I : ℕ → σ → Prop} {Q : Option ℕ → σ → Prop}

/-- Along a transfer of `n` items the device satisfies `I off` when `off` items have been
transferred, and `Q` when the loop ends, with what it reports. -/
structure Keeps (D : Device σ) (n : ℕ) (I : ℕ → σ → Prop) (Q : Option ℕ → σ → Prop) :
    Prop where
  fail : ∀ {off nleft s s'}, I off s → off + nleft = n → 0 < nleft →
    D.call s off nleft = (none, s') → Q (if off = 0 then none else some off) s'
  zero : ∀ {off nleft s s'}, I off s → off + nleft = n → 0 < nleft →
    D.call s off nleft = (some 0, s') → Q (some off) s'
  more : ∀ {off nleft s k s'}, I off s → off + nleft = n →
    D.call s off nleft = (some (k + 1), s') → I (off + (k + 1)) s'
  done : ∀ {s}, I n s → Q (some n) s

/-- The remaining count and the offset stay in step. -/
theorem Keeps.loop (h : D.Keeps n I Q) : ∀ {fuel nleft off : ℕ} {s : σ}, nleft ≤ fuel →
    off + nleft = n → I off s →
    Q (D.loop n fuel nleft off s).1 (D.loop n fuel nleft off s).2 := by
  have hdone : ∀ {nleft off : ℕ} {s : σ}, nleft = 0 → off + nleft = n → I off s →
      Q (some (n - nleft)) s := by
    rintro nleft off s rfl rfl hs
    exact h.done hs
  intro fuel
  induction fuel with
  | zero =>
      intro nleft off s hfuel hn hs
      exact hdone (Nat.le_zero.mp hfuel) hn hs
  | succ fuel ih =>
      intro nleft off s hfuel hn hs
      rw [Device.loop]
      by_cases hzero : nleft = 0
      · rw [if_pos hzero]
        exact hdone hzero hn hs
      rw [if_neg hzero]
      have hpos : 0 < nleft := Nat.pos_of_ne_zero hzero
      have hoff : n - nleft = off := by omega
      rcases hcall : D.call s off nleft with ⟨_ | _ | k, s'⟩
      · have hfirst : nleft = n ↔ off = 0 := by omega
        have hend := h.fail hs hn hpos hcall
        simpa only [hoff, hfirst] using hend
      · have hend := h.zero hs hn hpos hcall
        simpa only [hoff] using hend
      · have hle := D.call_le hcall
        exact ih (by omega) (by omega) (h.more hs hn hcall)

/-- **What holds along the calls holds at the end.** -/
theorem Keeps.transfer (h : D.Keeps n I Q) {s : σ} (hs : I 0 s) :
    Q (D.transfer n s).1 (D.transfer n s).2 :=
  h.loop (Nat.le_refl n) (Nat.zero_add n) hs

/-- A device whose calls fail or transfer something. -/
theorem keeps_of_cases
    (hcall : ∀ {off nleft s}, I off s → off + nleft = n → 0 < nleft →
      (∃ s', D.call s off nleft = (none, s') ∧ Q (if off = 0 then none else some off) s') ∨
        ∃ k s', D.call s off nleft = (some (k + 1), s') ∧ I (off + (k + 1)) s')
    (hdone : ∀ {s}, I n s → Q (some n) s) : D.Keeps n I Q where
  fail := fun h hn hpos hfail => by
    rcases hcall h hn hpos with ⟨s', hcall, hQ⟩ | ⟨k, s', hcall, -⟩
    · obtain ⟨-, rfl⟩ := Prod.mk.inj (hfail.symm.trans hcall)
      exact hQ
    · cases (Prod.mk.inj (hfail.symm.trans hcall)).1
  zero := fun h hn hpos hzero => by
    rcases hcall h hn hpos with ⟨s', hcall, -⟩ | ⟨k, s', hcall, -⟩
    · cases (Prod.mk.inj (hzero.symm.trans hcall)).1
    · cases (Prod.mk.inj (hzero.symm.trans hcall)).1
  more := fun {off nleft s k s'} h hn hmore => by
    have hpos : 0 < nleft := Nat.lt_of_lt_of_le (Nat.succ_pos k) (D.call_le hmore)
    rcases hcall h hn hpos with ⟨s₁, hcall, -⟩ | ⟨k', s₁, hcall, hI⟩
    · cases (Prod.mk.inj (hmore.symm.trans hcall)).1
    · obtain ⟨hk, rfl⟩ := Prod.mk.inj (hmore.symm.trans hcall)
      rwa [Option.some.inj hk]
  done := hdone

/-- A device whose calls all transfer something transfers everything. -/
theorem keeps_of_moving
    (hcall : ∀ {off nleft s}, I off s → off + nleft = n → 0 < nleft →
      ∃ k s', D.call s off nleft = (some (k + 1), s') ∧ I (off + (k + 1)) s') :
    D.Keeps n I fun res s => res = some n ∧ I n s :=
  keeps_of_cases (fun h hn hpos => .inr (hcall h hn hpos)) fun h => ⟨rfl, h⟩

/-- What the loop reports if the call at `off` has failed stands for `off` items. -/
theorem getD_failed (off : ℕ) : (if off = 0 then none else some off).getD 0 = off := by
  split
  case isTrue h => exact h.symm
  case isFalse => rfl

/-- No more is transferred than was asked for. -/
theorem transfer_le (D : Device σ) (n : ℕ) (s : σ) : (D.transfer n s).1.getD 0 ≤ n := by
  have hkeeps : D.Keeps n (fun off _ => off ≤ n) fun res _ => res.getD 0 ≤ n :=
    { fail := fun {off _ _ _} h _ _ _ => by rwa [getD_failed]
      zero := fun h _ _ _ => h
      more := fun {off nleft s k s'} _ hn hcall => by
        have hle := D.call_le hcall
        omega
      done := fun h => h }
  exact hkeeps.transfer (Nat.zero_le n)

/-! ### Two devices -/

section Related

variable {τ : Type*} {E : Device τ} {R : ℕ → σ → τ → Prop}

/-- In a transfer of `n` items, calls of the two devices in states that are related at an
offset have the same result, and leave states that are related where it gets to. -/
def Related (D : Device σ) (E : Device τ) (n : ℕ) (R : ℕ → σ → τ → Prop) : Prop :=
  ∀ off nleft s t, R off s t → off + nleft = n →
    (E.call t off nleft).1 = (D.call s off nleft).1 ∧
      R (off + (D.call s off nleft).1.getD 0) (D.call s off nleft).2 (E.call t off nleft).2

theorem Related.loop (h : D.Related E n R) : ∀ {fuel nleft off : ℕ} {s : σ} {t : τ},
    off + nleft = n → R off s t →
    (E.loop n fuel nleft off t).1 = (D.loop n fuel nleft off s).1 ∧
      ∃ off', R off' (D.loop n fuel nleft off s).2 (E.loop n fuel nleft off t).2 := by
  intro fuel
  induction fuel with
  | zero =>
      intro nleft off s t _ hR
      exact ⟨rfl, off, hR⟩
  | succ fuel ih =>
      intro nleft off s t hn hR
      rw [Device.loop, Device.loop]
      by_cases hzero : nleft = 0
      · rw [if_pos hzero, if_pos hzero]
        exact ⟨rfl, off, hR⟩
      rw [if_neg hzero, if_neg hzero]
      obtain ⟨hres, hnext⟩ := h off nleft s t hR hn
      rcases hD : D.call s off nleft with ⟨r, s'⟩
      rcases hE : E.call t off nleft with ⟨r', t'⟩
      rw [hD, hE] at hres hnext
      obtain rfl : r' = r := hres
      rcases r' with _ | _ | k
      · exact ⟨rfl, off, hnext⟩
      · exact ⟨rfl, off, hnext⟩
      · have hle := D.call_le hD
        exact ih (by omega) hnext

/-- **Related devices transfer the same.** -/
theorem Related.transfer (h : D.Related E n R) {s : σ} {t : τ} (hR : R 0 s t) :
    (E.transfer n t).1 = (D.transfer n s).1 ∧
      ∃ off, R off (D.transfer n s).2 (E.transfer n t).2 :=
  h.loop (Nat.zero_add n) hR

end Related

/-! ### The calls of a transfer -/

/-- The device, with the results of the calls so far. -/
def recorded (D : Device σ) : Device (σ × List (Option ℕ)) where
  call p off n := ((D.call p.1 off n).1, (D.call p.1 off n).2, p.2 ++ [(D.call p.1 off n).1])
  call_le := fun {p off n k p'} h => by
    obtain ⟨s, rs⟩ := p
    exact D.call_le (Prod.ext (Prod.mk.inj h).1 rfl)

/-- Recording changes nothing else. -/
theorem related_recorded (D : Device σ) (n : ℕ) :
    D.Related D.recorded n fun _ s p => p.1 = s := by
  rintro off nleft s ⟨_, rs⟩ rfl -
  exact ⟨rfl, rfl⟩

/-- The items that calls with these results have transferred. -/
def total (rs : List (Option ℕ)) : ℕ := (rs.map fun r => r.getD 0).sum

/-- What a transfer of `n` items reports after calls with these results. -/
structure Reports (n : ℕ) (res : Option ℕ) (rs : List (Option ℕ)) : Prop where
  /-- it is an error if and only if the first call failed -/
  error : res = none ↔ rs.head? = some none
  /-- otherwise it is what was transferred -/
  count : ∀ k, res = some k → k = total rs
  /-- no call is made after one that failed or transferred nothing -/
  last : ∀ pre r post, rs = pre ++ r :: post → r.getD 0 = 0 → post = []
  /-- without such a call everything is transferred -/
  whole : (∀ r ∈ rs, r.getD 0 ≠ 0) → res = some n

/-- The calls so far have all transferred something. -/
def Moving (rs : List (Option ℕ)) : Prop := ∀ r ∈ rs, r.getD 0 ≠ 0

theorem total_append (rs : List (Option ℕ)) (r : Option ℕ) :
    total (rs ++ [r]) = total rs + r.getD 0 := by
  rw [total, total, List.map_append, List.sum_append, List.map_singleton, List.sum_singleton]

theorem Moving.head? {rs : List (Option ℕ)} (h : Moving rs) : rs.head? ≠ some none := by
  intro hhead
  exact h none (List.mem_of_mem_head? hhead) rfl

theorem Moving.eq_nil_of_total {rs : List (Option ℕ)} (h : Moving rs) (hzero : total rs = 0) :
    rs = [] := by
  rcases rs with _ | ⟨r, rs⟩
  · rfl
  · have hr := h r List.mem_cons_self
    rw [total, List.map_cons, List.sum_cons] at hzero
    omega

/-- The loop ends because nothing is left. -/
theorem Moving.reports {rs : List (Option ℕ)} (h : Moving rs) (htotal : total rs = n) :
    Reports n (some n) rs where
  error := ⟨nofun, fun hhead => absurd hhead h.head?⟩
  count k hk := by rw [htotal, Option.some.inj hk]
  last pre r post hrs hr := absurd hr (h r (by simp [hrs]))
  whole _ := rfl

/-- The loop ends with a call that has transferred nothing. -/
theorem Moving.reports_last {rs : List (Option ℕ)} (h : Moving rs) {r res : Option ℕ}
    (hr : r.getD 0 = 0) (herror : res = none ↔ (rs ++ [r]).head? = some none)
    (hcount : ∀ k, res = some k → k = total rs) : Reports n res (rs ++ [r]) where
  error := herror
  count k hk := by rw [total_append, hr, Nat.add_zero, hcount k hk]
  last pre r' post hrs hr' := by
    rcases List.eq_nil_or_concat post with hnil | ⟨post, x, rfl⟩
    · exact hnil
    · -- the call was made before the last one
      have hsplit : rs ++ [r] = (pre ++ r' :: post) ++ [x] := by simpa using hrs
      have hinit : rs = pre ++ r' :: post := (List.append_inj' hsplit rfl).1
      exact absurd hr' (h r' (by simp [hinit]))
  whole hall := absurd hr (hall r (by simp))

/-- What the recorded calls say along a transfer. -/
theorem keeps_recorded (D : Device σ) (n : ℕ) :
    D.recorded.Keeps n (fun off p => Moving p.2 ∧ total p.2 = off) fun res p =>
      Reports n res p.2 where
  fail := by
    rintro off nleft ⟨s, rs⟩ p' ⟨hmoving, rfl⟩ - - hcall
    obtain ⟨hnone, rfl⟩ := Prod.mk.inj hcall
    rw [hnone]
    refine hmoving.reports_last rfl ?_ ?_
    · rcases rs with _ | ⟨r, rs⟩
      · exact ⟨fun _ => rfl, fun _ => rfl⟩
      · have hne : total (r :: rs) ≠ 0 := fun hz => by cases hmoving.eq_nil_of_total hz
        rw [if_neg hne]
        exact ⟨nofun, fun hhead => absurd hhead hmoving.head?⟩
    · intro k hk
      split at hk
      · cases hk
      · exact (Option.some.inj hk).symm
  zero := by
    rintro off nleft ⟨s, rs⟩ p' ⟨hmoving, rfl⟩ - - hcall
    obtain ⟨hzero, rfl⟩ := Prod.mk.inj hcall
    rw [hzero]
    refine hmoving.reports_last rfl ?_ fun k hk => (Option.some.inj hk).symm
    rcases rs with _ | ⟨r, rs⟩
    · exact ⟨nofun, nofun⟩
    · exact ⟨nofun, fun hhead => absurd hhead hmoving.head?⟩
  more := by
    rintro off nleft ⟨s, rs⟩ k p' ⟨hmoving, rfl⟩ - hcall
    obtain ⟨hsome, rfl⟩ := Prod.mk.inj hcall
    rw [hsome]
    refine ⟨fun r hr => ?_, total_append _ _⟩
    rcases List.mem_append.mp hr with hr | hr
    · exact hmoving r hr
    · rw [List.mem_singleton.mp hr]
      exact Nat.succ_ne_zero k
  done := fun hs => hs.1.reports hs.2

/-- **The calls of a transfer and what it reports.** -/
theorem transfer_recorded (D : Device σ) (n : ℕ) (s : σ) :
    ∃ rs, D.recorded.transfer n (s, []) = ((D.transfer n s).1, (D.transfer n s).2, rs) ∧
      Reports n (D.transfer n s).1 rs := by
  have hreports := (keeps_recorded D n).transfer (s := (s, [])) ⟨nofun, rfl⟩
  obtain ⟨hres, -, hstate⟩ := (related_recorded D n).transfer (t := (s, [])) rfl
  rw [hres] at hreports
  exact ⟨_, Prod.ext hres (Prod.ext hstate rfl), hreports⟩

end Device
