/-
Apue/ByteFile.lean

Files as lists: positioned reads and writes.

A regular file is the list of its bytes.  `pread f o n` is what a read of `n`
bytes at offset `o` returns, `pwrite f o d` the file after `d` has been
written at offset `o`.  A write past the end leaves a hole, which reads as
`default`; a write of no bytes changes nothing, not even the length.

The element type is arbitrary: nothing here is about bytes.
-/
import Mathlib.Data.List.Basic

namespace ByteFile

variable {α : Type*} [Inhabited α]

/-! ### Reading -/

omit [Inhabited α] in
/-- At most `n` elements from offset `o` on. -/
def pread (f : List α) (o n : ℕ) : List α := (f.drop o).take n

omit [Inhabited α] in
@[simp] theorem length_pread (f : List α) (o n : ℕ) :
    (pread f o n).length = min n (f.length - o) := by
  simp [pread]

omit [Inhabited α] in
theorem getElem?_pread (f : List α) (o n i : ℕ) :
    (pread f o n)[i]? = if i < n then f[o + i]? else none := by
  simp [pread, List.getElem?_take, List.getElem?_drop]

omit [Inhabited α] in
/-- A shorter read returns a prefix of a longer one. -/
theorem take_pread (f : List α) {o m n : ℕ} (h : m ≤ n) :
    (pread f o n).take m = pread f o m := by
  simp [pread, List.take_take, Nat.min_eq_left h]

/-! ### Writing -/

/-- The file after `d` has been written at offset `o`. -/
def pwrite (f : List α) (o : ℕ) (d : List α) : List α :=
  if d = [] then f
  else f.take o ++ List.replicate (o - f.length) default ++ d ++ f.drop (o + d.length)

@[simp] theorem pwrite_nil (f : List α) (o : ℕ) : pwrite f o [] = f := rfl

theorem pwrite_of_ne_nil (f : List α) (o : ℕ) {d : List α} (hd : d ≠ []) :
    pwrite f o d =
      f.take o ++ List.replicate (o - f.length) default ++ d ++ f.drop (o + d.length) :=
  if_neg hd

/-- Writing at the end of the file appends. -/
theorem pwrite_length (f d : List α) : pwrite f f.length d = f ++ d := by
  by_cases hd : d = []
  · rw [hd, pwrite_nil, List.append_nil]
  · simp [pwrite_of_ne_nil f f.length hd]

theorem length_pwrite (f : List α) (o : ℕ) {d : List α} (hd : d ≠ []) :
    (pwrite f o d).length = max f.length (o + d.length) := by
  rw [pwrite_of_ne_nil f o hd]
  simp only [List.length_append, List.length_take, List.length_replicate,
    List.length_drop]
  omega

/-- Inside the written range the file holds what was written. -/
theorem getElem?_pwrite_mid (f d : List α) {o i : ℕ} (ho : o ≤ i)
    (hi : i < o + d.length) : (pwrite f o d)[i]? = d[i - o]? := by
  have hd : d ≠ [] := by
    rintro rfl
    simp at hi
    omega
  have hpre : (f.take o ++ List.replicate (o - f.length) (default : α)).length = o := by
    simp only [List.length_append, List.length_take, List.length_replicate]
    omega
  rw [pwrite_of_ne_nil f o hd, List.getElem?_append_left (by
    rw [List.length_append, hpre]; exact hi),
    List.getElem?_append_right (by rw [hpre]; exact ho), hpre]

/-- Outside the written range nothing that was there changes. -/
theorem getElem?_pwrite_of_not_mid (f d : List α) {o i : ℕ}
    (h : i < o ∨ o + d.length ≤ i) (hi : i < f.length) :
    (pwrite f o d)[i]? = f[i]? := by
  by_cases hd : d = []
  · simp [hd]
  rw [pwrite_of_ne_nil f o hd]
  rcases h with h | h
  · rw [List.append_assoc, List.append_assoc,
      List.getElem?_append_left (by simp; omega), List.getElem?_take, if_pos h]
  · have hlen : (f.take o ++ List.replicate (o - f.length) (default : α) ++ d).length
        = o + d.length := by
      simp only [List.length_append, List.length_take, List.length_replicate]
      omega
    rw [List.getElem?_append_right (by rw [hlen]; exact h), hlen, List.getElem?_drop]
    congr 1
    omega

/-- Overwriting goes on: `k` more of the new elements replace as many of the old ones. -/
theorem pwrite_take_drop (old : List α) {new : List α} {j k : ℕ} (hk : j + k ≤ new.length) :
    pwrite (new.take j ++ old.drop j) j ((new.drop j).take k)
      = new.take (j + k) ++ old.drop (j + k) := by
  by_cases hnil : (new.drop j).take k = []
  · obtain rfl : k = 0 := by
      have hlen := congrArg List.length hnil
      simp at hlen
      omega
    simp
  have hj : (new.take j).length = j := by
    rw [List.length_take]
    omega
  have hdk : ((new.drop j).take k).length = k := by
    rw [List.length_take, List.length_drop]
    omega
  rw [pwrite_of_ne_nil _ _ hnil, List.take_left' hj, hdk, List.take_add]
  have hhole : j - (new.take j ++ old.drop j).length = 0 := by
    rw [List.length_append, hj]
    omega
  have hrest : (new.take j ++ old.drop j).drop (j + k) = old.drop (j + k) := by
    rw [← List.drop_drop, List.drop_left' hj, List.drop_drop]
  rw [hhole, hrest, List.replicate_zero, List.append_nil]

/-! ### The length -/

/-- The file cut or extended to length `n`; what is added reads as `default`. -/
def truncate (f : List α) (n : ℕ) : List α := f.take n ++ List.replicate (n - f.length) default

theorem truncate_of_length_le {f : List α} {n : ℕ} (h : f.length ≤ n) :
    truncate f n = f ++ List.replicate (n - f.length) default := by
  rw [truncate, List.take_of_length_le h]

theorem truncate_length (f : List α) : truncate f f.length = f := by
  simp [truncate]

/-- A write past the end of the file extends it first. -/
theorem pwrite_of_length_le {f d : List α} {o : ℕ} (h : f.length ≤ o) (hd : d ≠ []) :
    pwrite f o d = truncate f o ++ d := by
  rw [pwrite_of_ne_nil f o hd, truncate, List.drop_of_length_le (by omega), List.append_nil]

/-- Extending in two steps. -/
theorem truncate_add {f : List α} {n : ℕ} (h : f.length ≤ n) (k : ℕ) :
    truncate f (n + k) = truncate f n ++ List.replicate k default := by
  rw [truncate_of_length_le h, truncate_of_length_le (by omega), List.append_assoc,
    List.replicate_append_replicate]
  congr 2
  omega

/-! ### Files written in pieces -/

/-- `f` has been written in pieces of `g`: the elements at the positions in `W` have been
written and are those of `g`, the others are holes, and the last one has been written. -/
structure Spliced (g : List α) (W : ℕ → Prop) (f : List α) : Prop where
  written : ∀ j, W j → j < f.length ∧ f[j]? = g[j]?
  hole : ∀ j, j < f.length → ¬ W j → f[j]? = some default
  last : ∀ j, j + 1 = f.length → W j

theorem Spliced.nil (g : List α) : Spliced g (fun _ => False) [] where
  written := fun _ h => h.elim
  hole := fun j h => by simp at h
  last := fun j h => by simp at h

theorem Spliced.congr {g f : List α} {W W' : ℕ → Prop} (h : Spliced g W f)
    (hW : ∀ j, W j ↔ W' j) : Spliced g W' f := by
  obtain rfl : W = W' := funext fun j => propext (hW j)
  exact h

/-- One more piece is written. -/
theorem Spliced.pwrite {g f : List α} {W : ℕ → Prop} (h : Spliced g W f) {o n : ℕ}
    (hn : o + n ≤ g.length) :
    Spliced g (fun j => W j ∨ o ≤ j ∧ j < o + n) (pwrite f o (pread g o n)) := by
  rcases Nat.eq_zero_or_pos n with rfl | hpos
  · have hempty : pread g o 0 = [] := List.take_zero
    rw [hempty, pwrite_nil]
    exact h.congr fun j => ⟨.inl, fun hj => hj.elim id (by omega)⟩
  have hlen : (pread g o n).length = n := by
    rw [length_pread]
    omega
  have hne : pread g o n ≠ [] := List.ne_nil_of_length_pos (by omega)
  have hsize : (ByteFile.pwrite f o (pread g o n)).length = max f.length (o + n) := by
    rw [length_pwrite f o hne, hlen]
  have hmid : ∀ j, o ≤ j → j < o + n → (ByteFile.pwrite f o (pread g o n))[j]? = g[j]? := by
    intro j h₁ h₂
    rw [getElem?_pwrite_mid f _ h₁ (by omega), getElem?_pread, if_pos (by omega),
      Nat.add_sub_cancel' h₁]
  have hout : ∀ j, ¬ (o ≤ j ∧ j < o + n) → j < f.length →
      (ByteFile.pwrite f o (pread g o n))[j]? = f[j]? :=
    fun j hj hlt => getElem?_pwrite_of_not_mid f _ (by omega) hlt
  refine ⟨fun j hj => ?_, fun j hlt hj => ?_, fun j hj => ?_⟩
  · by_cases hin : o ≤ j ∧ j < o + n
    · exact ⟨by omega, hmid j hin.1 hin.2⟩
    · obtain ⟨hlt, hget⟩ := h.written j (hj.resolve_right hin)
      exact ⟨by omega, (hout j hin hlt).trans hget⟩
  · obtain ⟨hW, hin⟩ := not_or.mp hj
    by_cases hold : j < f.length
    · exact (hout j hin hold).trans (h.hole j hold hW)
    · -- between the old end of the file and the piece
      have hgap : j < o := by omega
      rw [pwrite_of_ne_nil f o hne, List.append_assoc, List.append_assoc,
        List.getElem?_append_right (by simp; omega),
        List.getElem?_append_left (by simp; omega), List.getElem?_replicate, if_pos]
      simp
      omega
  · by_cases hin : o ≤ j ∧ j < o + n
    · exact .inr hin
    · exact .inl (h.last j (by omega))

/-- What was written in pieces of `g` is `g` exactly when `g` has a hole where nothing
was written, and its last element was written. -/
theorem Spliced.eq_iff {g f : List α} {W : ℕ → Prop} (h : Spliced g W f) :
    f = g ↔ (∀ j, j < g.length → ¬ W j → g[j]? = some default) ∧
      ∀ j, j + 1 = g.length → W j := by
  refine ⟨?_, fun ⟨hhole, hlast⟩ => ?_⟩
  · rintro rfl
    exact ⟨h.hole, h.last⟩
  have hle : f.length ≤ g.length := by
    rcases hf : f.length with _ | k
    · exact Nat.zero_le _
    · obtain ⟨hlt, hget⟩ := h.written k (h.last k hf.symm)
      rw [List.getElem?_eq_getElem hlt] at hget
      exact (List.getElem?_eq_some_iff.mp hget.symm).1
  have hge : g.length ≤ f.length := by
    rcases hg : g.length with _ | k
    · exact Nat.zero_le _
    · exact (h.written k (hlast k hg.symm)).1
  apply List.ext_getElem?
  intro j
  by_cases hW : W j
  · exact (h.written j hW).2
  · by_cases hj : j < f.length
    · rw [h.hole j hj hW, hhole j (by omega) hW]
    · rw [List.getElem?_eq_none (by omega), List.getElem?_eq_none (by omega)]

end ByteFile
