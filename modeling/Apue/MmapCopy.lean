/-
Apue/MmapCopy.lean

`14/10_copy_file_with_mmap.cpp`: a file is copied through mappings of at most `COPYINCR` bytes.

The output gets its length first, with `ftruncate`; then piece after piece of both files is mapped
and copied.  If all mappings succeed, the output is the input; if one fails, the output has the
right length all the same, and zeros from there on (`main_copies`).  All mappings begin at a
multiple of the page size, as `mmap` asks for.

The input does not change while it is copied.  Left out: failing `open`, `fstat` and `ftruncate`,
which end the program before the loop.
-/
import Apue.ByteFile
import Mathlib.Tactic.NormNum

namespace Apue.MmapCopy

open ByteFile

/-! ### The program -/

/-- The length of a piece, which is not zero. -/
abbrev Incr := { n : ℕ // 0 < n }

/-- How the two calls of `mmap` for a piece go. -/
inductive Outcome
  | mapped
  | inputFails
  | outputFails
  deriving DecidableEq, Repr

structure Result where
  /-- the output file -/
  out : List UInt8
  /-- offset and length of the pieces that were copied -/
  pieces : List (ℕ × ℕ)
  /-- the message of `err_sys`, if there is one -/
  error : Option String
  deriving DecidableEq

/-- `copysz` at offset `fsz`. -/
def copysz (incr : Incr) (size fsz : ℕ) : ℕ :=
  if size - fsz > incr.1 then incr.1 else size - fsz

theorem copysz_pos {incr : Incr} {size fsz : ℕ} (h : fsz < size) : 0 < copysz incr size fsz := by
  have hincr := incr.2
  unfold copysz
  split <;> omega

/-- The loop; the outcomes are those of the pieces in order. -/
def copyLoop (incr : Incr) (file out : List UInt8) (fsz : ℕ) (os : List Outcome) : Result :=
  if _h : fsz < file.length then
    match os.headD .mapped with
    | .inputFails => ⟨out, [], some "call mmap for inputfile"⟩
    | .outputFails => ⟨out, [], some "call mmap for outputfile"⟩
    | .mapped =>
        let n := copysz incr file.length fsz
        let r := copyLoop incr file (pwrite out fsz (pread file fsz n)) (fsz + n) os.tail
        { r with pieces := (fsz, n) :: r.pieces }
  else ⟨out, [], none⟩
termination_by file.length - fsz
decreasing_by
  have hpos : 0 < copysz incr file.length fsz := copysz_pos _h
  omega

/-- `COPYINCR`. -/
def copyIncr : Incr := ⟨1024 * 1024 * 1024, by norm_num⟩

def main (file : List UInt8) (os : List Outcome) : Result :=
  copyLoop copyIncr file (truncate [] file.length) 0 os

/-! ### The loop -/

/-- The output when the pieces before `fsz` were copied. -/
def copied (file : List UInt8) (fsz : ℕ) : List UInt8 :=
  file.take fsz ++ List.replicate (file.length - fsz) 0

section Loop

variable {incr : Incr} {file : List UInt8} {fsz : ℕ} {os : List Outcome}

theorem pwrite_copied {n : ℕ} (hn : fsz + n ≤ file.length) :
    pwrite (copied file fsz) fsz (pread file fsz n) = copied file (fsz + n) := by
  have hzeros : ∀ k, List.replicate (file.length - k) (0 : UInt8) =
      (List.replicate file.length 0).drop k := by
    intro k
    rw [List.drop_replicate]
  rw [copied, copied, hzeros, hzeros, pread]
  exact pwrite_take_drop _ hn

/-- How many pieces there are from `fsz` on. -/
def pieceCount (incr : Incr) (size fsz : ℕ) : ℕ := (size - fsz + incr.1 - 1) / incr.1

theorem pieceCount_self (size : ℕ) : pieceCount incr size size = 0 := by
  have hincr := incr.2
  rw [pieceCount, Nat.sub_self]
  exact Nat.div_eq_of_lt (by omega)

theorem pieceCount_step {size fsz : ℕ} (h : fsz < size) :
    pieceCount incr size fsz = pieceCount incr size (fsz + copysz incr size fsz) + 1 := by
  have hincr := incr.2
  by_cases hbig : size - fsz > incr.1
  · rw [copysz, if_pos hbig, pieceCount, pieceCount, ← Nat.add_div_right _ hincr]
    congr 1
    omega
  · -- the last piece
    have hend : fsz + copysz incr size fsz = size := by
      rw [copysz, if_neg hbig]
      omega
    rw [hend, pieceCount_self, pieceCount]
    exact Nat.div_eq_of_lt_le (by omega) (by omega)

/-- What the loop does from `fsz` on. -/
structure Copies (incr : Incr) (file : List UInt8) (fsz : ℕ) (os : List Outcome)
    (r : Result) : Prop where
  out : ∃ n, fsz ≤ n ∧ n ≤ file.length ∧ r.out = copied file n ∧ (r.error = none → n = file.length)
  pieces : ∀ p ∈ r.pieces, incr.1 ∣ p.1 ∧ 0 < p.2 ∧ p.1 + p.2 ≤ file.length
  error : r.error = none ↔ ∀ o ∈ os.take (pieceCount incr file.length fsz), o = .mapped

/-- A piece cannot be mapped. -/
theorem copies_of_fails {msg : String} (hlt : fsz < file.length) (ho : os.headD .mapped ≠ .mapped) :
    Copies incr file fsz os ⟨copied file fsz, [], some msg⟩ := by
  refine ⟨⟨fsz, le_rfl, hlt.le, rfl, nofun⟩, nofun, ?_⟩
  rw [pieceCount_step hlt]
  cases os with
  | nil => exact absurd rfl ho
  | cons o os => simpa using fun h => absurd h ho

theorem copies_copyLoop (hle : fsz ≤ file.length) (hdvd : fsz < file.length → incr.1 ∣ fsz) :
    Copies incr file fsz os (copyLoop incr file (copied file fsz) fsz os) := by
  generalize hk : file.length - fsz = k
  induction k using Nat.strongRecOn generalizing fsz os with
  | ind k ih =>
      rw [copyLoop]
      by_cases hlt : fsz < file.length
      · rw [dif_pos hlt]
        cases ho : os.headD .mapped with
        | inputFails => exact copies_of_fails hlt (by rw [ho]; exact nofun)
        | outputFails => exact copies_of_fails hlt (by rw [ho]; exact nofun)
        | mapped =>
            have hpos : 0 < copysz incr file.length fsz := copysz_pos hlt
            have hnext : fsz + copysz incr file.length fsz ≤ file.length := by
              unfold copysz
              split <;> omega
            -- only the last piece is shorter
            have hdvd' : fsz + copysz incr file.length fsz < file.length →
                incr.1 ∣ fsz + copysz incr file.length fsz := by
              intro hmore
              have hfull : copysz incr file.length fsz = incr.1 := by
                unfold copysz at hmore ⊢
                split at hmore
                · next hbig => rw [if_pos hbig]
                · omega
              rw [hfull]
              exact (Nat.dvd_add_right (hdvd hlt)).mpr (Nat.dvd_refl _)
            dsimp only
            rw [pwrite_copied hnext]
            obtain ⟨⟨n, hn, hn', hout, hend⟩, hpieces, herror⟩ :=
              @ih _ (by omega) (fsz + copysz incr file.length fsz) os.tail hnext hdvd' rfl
            refine ⟨⟨n, by omega, hn', hout, hend⟩, ?_, ?_⟩
            · intro p hp
              rcases List.mem_cons.mp hp with rfl | hp
              · exact ⟨hdvd hlt, hpos, hnext⟩
              · exact hpieces p hp
            · rw [herror, pieceCount_step hlt]
              cases os with
              | nil => simp
              | cons o os =>
                  obtain rfl : o = .mapped := ho
                  simp
      · rw [dif_neg hlt]
        have hend : fsz = file.length := by omega
        refine ⟨⟨fsz, le_rfl, hle, rfl, fun _ => hend⟩, nofun, ?_⟩
        simp [hend, pieceCount_self]

end Loop

/-- A multiple of the page size. -/
theorem page_dvd_copyIncr : 4096 ∣ copyIncr.1 := by
  show 4096 ∣ 1024 * 1024 * 1024
  norm_num

/-- **The copy.**  Whatever mapping fails, the output has the length of the input; up to some
place it has the input's bytes, and zeros from there on.  If the mappings for all pieces succeed,
and only then, the program does not report an error, and the output is the input.  Every piece
begins at a multiple of the page size and lies within the file. -/
theorem main_copies (file : List UInt8) (os : List Outcome) :
    (∃ n ≤ file.length,
        (main file os).out = file.take n ++ List.replicate (file.length - n) 0) ∧
      ((main file os).error = none ↔
        ∀ o ∈ os.take ((file.length + copyIncr.1 - 1) / copyIncr.1), o = .mapped) ∧
      ((main file os).error = none → (main file os).out = file) ∧
      ∀ p ∈ (main file os).pieces, 4096 ∣ p.1 ∧ 0 < p.2 ∧ p.1 + p.2 ≤ file.length := by
  have hinit : truncate [] file.length = copied file 0 := by
    rw [truncate, copied, List.take_nil, List.take_zero]
    rfl
  obtain ⟨⟨n, -, hn, hout, hend⟩, hpieces, herror⟩ : Copies copyIncr file 0 os (main file os) := by
    rw [main, hinit]
    exact copies_copyLoop (Nat.zero_le _) fun _ => Nat.dvd_zero _
  rw [pieceCount, Nat.sub_zero] at herror
  refine ⟨⟨n, hn, hout⟩, herror, fun h0 => ?_, fun p hp => ?_⟩
  · rw [hout, hend h0, copied]
    simp
  · obtain ⟨hdvd, hrest⟩ := hpieces p hp
    exact ⟨Nat.dvd_trans page_dvd_copyIncr hdvd, hrest⟩

end Apue.MmapCopy
