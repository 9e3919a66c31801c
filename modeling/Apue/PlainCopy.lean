/-
Apue/PlainCopy.lean

The copy loop of `14/7_convert_rot13.cpp`, the plain version of the io_uring copier:
read a block, translate it in place, write it.

How the reads and writes go is chosen by the kernel (`FileIO`).  The loop ends when
`read` returns 0 or -1, and the program does not tell the two apart.  Left out:
`argv`, the two `open` calls and `fsync`, whose result is ignored.
-/
import Apue.FileIO
import Apue.UringCopy

namespace Apue.PlainCopy

open FileIO
open UringCopy (bsz bsz_pos)

/-- How `main` ends. -/
inductive Exit
  /-- `return 0` -/
  | returned
  /-- `err_sys` -/
  | errSys (msg : String)
  deriving DecidableEq, Repr

/-- The loop of `main`, with `out` written so far.  Every pass that continues has read
something, so the number of bytes still to be read bounds the number of passes. -/
def copyLoop : ℕ → Source UInt8 → List Outcome → List UInt8 → Option (Exit × List UInt8)
  | 0, _, _, _ => none
  | fuel + 1, ifd, ofd, out =>
      match ifd.read bsz with
      | (none, _) | (some [], _) => some (.returned, out)
      | (some (b :: bs), ifd') =>
          match writen ((b :: bs).map UringCopy.translate) ofd with
          | (none, d, _) => some (.errSys "call write", out ++ d)
          | (some _, d, ofd') => copyLoop fuel ifd' ofd' (out ++ d)

/-- `main`: how it ends and the content of the output file. -/
def main (ifd : Source UInt8) (ofd : List Outcome) : Option (Exit × List UInt8) :=
  copyLoop (ifd.data.length + 1) ifd ofd []

/-- The calls go well as long as it matters: every block is written whole, and if a read
fails, then only when the whole input has been read. -/
inductive Complete : Source UInt8 → List Outcome → Prop
  | done {ifd : Source UInt8} {ofd : List Outcome} : ifd.data = [] → Complete ifd ofd
  | block {ifd ifd' : Source UInt8} {ofd ofd' : List Outcome} {b : UInt8} {bs : List UInt8}
      {n : ℕ} : ifd.read bsz = (some (b :: bs), ifd') →
      writen ((b :: bs).map UringCopy.translate) ofd
        = (some n, (b :: bs).map UringCopy.translate, ofd') →
      Complete ifd' ofd' → Complete ifd ofd

/-- Where the loop is left, nothing may be missing. -/
theorem complete_iff_of_no_block {ifd : Source UInt8} {ofd : List Outcome}
    (hread : ∀ b bs ifd', ifd.read bsz ≠ (some (b :: bs), ifd')) :
    Complete ifd ofd ↔ ifd.data = [] := by
  refine ⟨?_, .done⟩
  rintro (hend | ⟨hblock, -, -⟩)
  · exact hend
  · exact absurd hblock (hread _ _ _)

/-- A block that was read has to be written whole. -/
theorem complete_iff_of_block {ifd ifd' : Source UInt8} {ofd ofd' : List Outcome} {b : UInt8}
    {bs d : List UInt8} {res : Option ℕ} (hread : ifd.read bsz = (some (b :: bs), ifd'))
    (hwriten : writen ((b :: bs).map UringCopy.translate) ofd = (res, d, ofd')) :
    Complete ifd ofd ↔
      (∃ n, res = some n) ∧ d = (b :: bs).map UringCopy.translate ∧ Complete ifd' ofd' := by
  constructor
  · rintro (hend | ⟨hblock, hall, hrest⟩)
    · rw [(Source.read_eq_some hread).1] at hend
      cases hend
    · rw [hread] at hblock
      obtain ⟨⟨rfl, rfl⟩, rfl⟩ : (b = _ ∧ bs = _) ∧ ifd' = _ := by simpa using hblock
      rw [hwriten] at hall
      obtain ⟨rfl, rfl, rfl⟩ : res = _ ∧ d = _ ∧ ofd' = _ := by simpa using hall
      exact ⟨⟨_, rfl⟩, rfl, hrest⟩
  · rintro ⟨⟨n, rfl⟩, rfl, hrest⟩
    exact .block hread hwriten hrest

/-- Calls that do not fail go well, however short they are. -/
theorem complete_of_reliable : ∀ {ifd : Source UInt8} {ofd : List Outcome}, ifd.Reliable →
    .fail ∉ ofd → Complete ifd ofd := by
  intro ifd
  induction hn : ifd.data.length using Nat.strongRecOn generalizing ifd with
  | ind n ih =>
      intro ofd hifd hofd
      by_cases hend : ifd.data = []
      · exact .done hend
      · obtain ⟨b, bs, ifd', hread, -, hdata, hifd'⟩ := hifd.read_cons bsz_pos hend
        obtain ⟨ofd', hwriten, hofd'⟩ :=
          writen_of_reliable ((b :: bs).map UringCopy.translate) hofd
        have hshorter : ifd'.data.length < n := by
          rw [← hn, hdata, List.length_append, List.length_cons]
          omega
        exact .block hread hwriten (ih _ hshorter rfl hifd' hofd')

/-- The loop ends.  If it ends with `return 0`, what it has added to the output is as long
as the rest of the input only if the calls went well, and then it is that rest
translated. -/
theorem copyLoop_spec : ∀ (fuel : ℕ) (ifd : Source UInt8) (ofd : List Outcome)
    (out : List UInt8), ifd.data.length < fuel →
    ∃ e d, copyLoop fuel ifd ofd out = some (e, out ++ d) ∧ d.length ≤ ifd.data.length ∧
      (e = .returned → d.length = ifd.data.length → Complete ifd ofd) ∧
      (Complete ifd ofd → e = .returned ∧ d = ifd.data.map UringCopy.translate) := by
  intro fuel
  induction fuel with
  | zero =>
      intro ifd ofd out hfuel
      omega
  | succ fuel ih =>
      intro ifd ofd out hfuel
      rw [copyLoop]
      -- the loop is left
      have hleave : (∀ b bs ifd', ifd.read bsz ≠ (some (b :: bs), ifd')) →
          ∃ e d, some (Exit.returned, out) = some (e, out ++ d) ∧ d.length ≤ ifd.data.length ∧
            (e = .returned → d.length = ifd.data.length → Complete ifd ofd) ∧
            (Complete ifd ofd → e = .returned ∧ d = ifd.data.map UringCopy.translate) := by
        intro hread
        rw [complete_iff_of_no_block hread]
        refine ⟨.returned, [], by rw [List.append_nil], Nat.zero_le _, ?_, ?_⟩
        · exact fun _ hlen => List.length_eq_zero_iff.mp hlen.symm
        · exact fun hend => ⟨rfl, by rw [hend, List.map_nil]⟩
      rcases hread : ifd.read bsz with ⟨_ | _ | ⟨b, bs⟩, ifd'⟩
      · exact hleave (by simp [hread])
      · exact hleave (by simp [hread])
      obtain ⟨hdata, -⟩ := Source.read_eq_some hread
      obtain ⟨res, d, used, ofd', hwriten, -, hle, -⟩ :=
        writen_spec ((b :: bs).map UringCopy.translate) ofd
      have hd : d.length ≤ (b :: bs).length := by simpa using hle.length_le
      rw [complete_iff_of_block hread hwriten, hdata, List.length_append]
      dsimp only
      rw [hwriten]
      rcases res with _ | n
      · refine ⟨.errSys "call write", d, rfl, by omega, (fun he => by cases he), ?_⟩
        rintro ⟨⟨n, hn⟩, -⟩
        cases hn
      · have hshort : ifd'.data.length < fuel := by
          rw [hdata, List.length_append, List.length_cons] at hfuel
          omega
        obtain ⟨e, d', hloop, hlen, hback, hforth⟩ := ih ifd' ofd' (out ++ d) hshort
        refine ⟨e, d ++ d', ?_, ?_, ?_, ?_⟩
        · rw [← List.append_assoc]
          exact hloop
        · rw [List.length_append]
          omega
        · intro he hall
          rw [List.length_append] at hall
          have hwhole : d = (b :: bs).map UringCopy.translate :=
            hle.eq_of_length (by rw [List.length_map]; omega)
          exact ⟨⟨n, rfl⟩, hwhole, hback he (by omega)⟩
        · rintro ⟨-, hwhole, hrest⟩
          obtain ⟨he, hd'⟩ := hforth hrest
          exact ⟨he, by rw [hwhole, hd', List.map_append]⟩

/-- **The plain loop translates the whole file**, however short the reads and writes
are, if none of them fails. -/
theorem main_of_reliable {ifd : Source UInt8} {ofd : List Outcome} (hifd : ifd.Reliable)
    (hofd : .fail ∉ ofd) : main ifd ofd = some (.returned, ifd.data.map UringCopy.translate) := by
  obtain ⟨e, d, hloop, -, -, hforth⟩ := copyLoop_spec _ ifd ofd [] (Nat.lt_succ_self _)
  obtain ⟨rfl, rfl⟩ := hforth (complete_of_reliable hifd hofd)
  exact hloop

/-- **Status 0 and the output.**  The program ends, and if it exits with status 0 the
output is the whole input translated exactly when its calls went well; a failing read
before the end of the input and a write that fails after part of a block go unreported. -/
theorem main_exact_iff (ifd : Source UInt8) (ofd : List Outcome) :
    ∃ e out, main ifd ofd = some (e, out) ∧
      (e = .returned → (out = ifd.data.map UringCopy.translate ↔ Complete ifd ofd)) := by
  obtain ⟨e, d, hloop, -, hback, hforth⟩ := copyLoop_spec _ ifd ofd [] (Nat.lt_succ_self _)
  refine ⟨e, d, hloop, fun he => ⟨fun hout => hback he ?_, fun h => (hforth h).2⟩⟩
  rw [hout, List.length_map]

/-- The first read fails; and the second write of a block fails. -/
theorem main_loses_unreported :
    main ⟨[65], [.fail]⟩ [] = some (.returned, []) ∧
      main ⟨[65, 66], []⟩ [.upTo 0, .fail] = some (.returned, [78]) ∧
      [65, 66].map UringCopy.translate = [78, 79] := by
  decide

end Apue.PlainCopy
