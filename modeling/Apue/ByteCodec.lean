/-
Apue/ByteCodec.lean

Numbers as bytes: fixed-width little-endian numbers and decimal numerals.

Decimal numerals are those of `Nat.toDigits`, as ASCII bytes.  What is used of
them is that reading inverts writing (`ofDec_toDec`) and that a larger number
never has a shorter numeral (`length_toDec_mono`).
-/
import Mathlib.Algebra.Group.Nat.Defs
import Mathlib.Data.Nat.Basic
import Mathlib.Order.Lattice
import Mathlib.Tactic.Common

namespace ByteCodec

/-! ### Little-endian numbers -/

/-- The `k` low bytes of `v`, lowest first. -/
def toLE : ℕ → ℕ → List UInt8
  | 0, _ => []
  | k + 1, v => UInt8.ofNat v :: toLE k (v / 256)

/-- The number with these bytes, lowest first. -/
def ofLE : List UInt8 → ℕ
  | [] => 0
  | b :: bs => b.toNat + 256 * ofLE bs

@[simp] theorem length_toLE (k v : ℕ) : (toLE k v).length = k := by
  induction k generalizing v with
  | zero => rfl
  | succ k ih => rw [toLE, List.length_cons, ih]

theorem ofLE_toLE {k v : ℕ} (h : v < 256 ^ k) : ofLE (toLE k v) = v := by
  induction k generalizing v with
  | zero =>
      rw [Nat.pow_zero, Nat.lt_one_iff] at h
      rw [h]
      rfl
  | succ k ih =>
      have hdiv : v / 256 < 256 ^ k := by
        rw [Nat.pow_succ] at h
        exact Nat.div_lt_of_lt_mul (Nat.mul_comm _ _ ▸ h)
      rw [toLE, ofLE, ih hdiv, UInt8.toNat_ofNat']
      exact Nat.mod_add_div v 256

/-! ### Decimal numerals -/

/-- An ASCII digit. -/
def isDigit (b : UInt8) : Bool := 48 ≤ b && b ≤ 57

/-- The byte of an ASCII character. -/
def ascii (c : Char) : UInt8 := UInt8.ofNat c.toNat

/-- The decimal numeral of `n`. -/
def toDec (n : ℕ) : List UInt8 := (Nat.toDigits 10 n).map ascii

/-- The value of a string of digits. -/
def ofDec (ds : List UInt8) : ℕ := ds.foldl (fun v d => 10 * v + (d.toNat - 48)) 0

/-- The decimal numeral of an integer. -/
def intToDec (z : ℤ) : List UInt8 :=
  if z < 0 then 45 :: toDec z.natAbs else toDec z.natAbs

/-- The bytes of a text. -/
def ofText (s : String) : List UInt8 := s.toList.map ascii

theorem isDigit_iff {b : UInt8} : isDigit b = true ↔ 48 ≤ b.toNat ∧ b.toNat ≤ 57 := by
  simp [isDigit, UInt8.le_iff_toNat_le]

theorem toNat_ascii {c : Char} (h : c.isDigit = true) :
    (ascii c).toNat = c.toNat ∧ 48 ≤ c.toNat ∧ c.toNat ≤ 57 := by
  have hc : 48 ≤ c.toNat ∧ c.toNat ≤ 57 := by
    simpa [Char.isDigit, UInt32.le_iff_toNat_le] using h
  refine ⟨?_, hc⟩
  rw [ascii, UInt8.toNat_ofNat']
  omega

theorem toDec_ne_nil (n : ℕ) : toDec n ≠ [] := by
  simp [toDec]

theorem isDigit_of_mem_toDec {n : ℕ} {b : UInt8} (h : b ∈ toDec n) : isDigit b = true := by
  obtain ⟨c, hc, rfl⟩ := List.mem_map.mp h
  obtain ⟨hval, hle⟩ := toNat_ascii (Nat.isDigit_of_mem_toDigits (by decide) (by decide) hc)
  rw [isDigit_iff, hval]
  exact hle

/-- Reading a numeral inverts writing it. -/
theorem ofDec_toDec (n : ℕ) : ofDec (toDec n) = n := by
  have hfold : ∀ (cs : List Char) (v : ℕ), (∀ c ∈ cs, c.isDigit = true) →
      (cs.map ascii).foldl (fun v d => 10 * v + (d.toNat - 48)) v = Nat.ofDigitChars 10 cs v := by
    intro cs
    induction cs with
    | nil => intro v _; rfl
    | cons c cs ih =>
        intro v hcs
        have hc := (toNat_ascii (hcs c (by simp))).1
        rw [List.map_cons, List.foldl_cons, hc]
        exact ih _ fun c' hc' => hcs c' (by simp [hc'])
  rw [ofDec, toDec, hfold _ _ fun c hc => Nat.isDigit_of_mem_toDigits (by decide) (by decide) hc]
  exact Nat.ofDigitChars_ten_toDigits

/-- More digits do not make a number smaller. -/
theorem ofDec_le_append (ds es : List UInt8) : ofDec ds ≤ ofDec (ds ++ es) := by
  induction es generalizing ds with
  | nil => rw [List.append_nil]
  | cons e es ih =>
      have hstep : ofDec (ds ++ [e]) = 10 * ofDec ds + (e.toNat - 48) := by
        rw [ofDec, List.foldl_append]
        rfl
      have hrest := ih (ds ++ [e])
      rw [List.append_assoc, List.singleton_append] at hrest
      omega

/-- A numeral cut short is another number. -/
theorem eq_nil_of_ofDec_eq {n : ℕ} {ds es : List UInt8} (h : toDec n = ds ++ es) (hds : ds ≠ [])
    (hval : ofDec ds = n) : es = [] := by
  cases es with
  | nil => rfl
  | cons e es =>
      exfalso
      have hlong : 10 * ofDec ds ≤ ofDec (toDec n) := by
        have hrest := ofDec_le_append (ds ++ [e]) es
        rw [List.append_assoc, List.singleton_append, ← h, ofDec, List.foldl_append] at hrest
        exact le_trans (Nat.le_add_right _ _) hrest
      rw [ofDec_toDec, hval] at hlong
      obtain rfl : n = 0 := by omega
      -- zero has one digit
      have hlength := congrArg List.length h
      have hone : (toDec 0).length = 1 := by decide
      have hpos := List.length_pos_iff.mpr hds
      rw [hone, List.length_append, List.length_cons] at hlength
      omega

theorem length_toDec_le_iff {n k : ℕ} (hk : 0 < k) : (toDec n).length ≤ k ↔ n < 10 ^ k := by
  rw [toDec, List.length_map]
  exact Nat.length_toDigits_le_iff (by decide) hk

theorem length_toDec_mono {m n : ℕ} (h : m ≤ n) : (toDec m).length ≤ (toDec n).length := by
  have hpos : 0 < (toDec n).length := List.length_pos_iff.mpr (toDec_ne_nil n)
  rw [length_toDec_le_iff hpos]
  exact Nat.lt_of_le_of_lt h ((length_toDec_le_iff hpos).mp le_rfl)

/-! ### Numerals of machine integers -/

/-- The numeral of an `int` has at most eleven characters. -/
theorem length_intToDec_le (v : BitVec 32) : (intToDec v.toInt).length ≤ 11 := by
  have hlow := BitVec.le_toInt v
  have hhigh := BitVec.toInt_lt (x := v)
  have hdigits : (toDec v.toInt.natAbs).length ≤ 10 := by
    rw [length_toDec_le_iff (by decide)]
    omega
  unfold intToDec
  split
  · rw [List.length_cons]
    omega
  · omega

theorem zero_notMem_intToDec (z : ℤ) : 0 ∉ intToDec z := by
  have hdigits : 0 ∉ toDec z.natAbs := fun h => absurd (isDigit_of_mem_toDec h) (by decide)
  unfold intToDec
  split
  · exact List.not_mem_cons_of_ne_of_not_mem (by decide) hdigits
  · exact hdigits

end ByteCodec
