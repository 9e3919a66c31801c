/-
Apue/Handshake.lean

The shared counter of `10/24_signal_handshake.cpp`: parent and child take turns
to increment a number that a file holds in decimal.

The child leads and the parent follows, both through the same descriptor, so that
the file offset is shared as well.  `inc` reads the number and writes its successor
over it, with calls that may fail and writes that may be short; it relies on the
processes excluding each other and on a larger number never having a shorter
numeral.
-/
import Mathlib.Data.List.TakeWhile
import Apue.ByteCodec
import Apue.ByteFile
import Apue.SignalSync

namespace Apue.Handshake

open ByteCodec SignalSync

/-! ### The increment -/

/-- The open file that both processes share since `fork`. -/
structure OpenFile where
  content : List UInt8
  offset : ℕ
  deriving DecidableEq, Repr

/-- `std::from_chars` for a `std::size_t`: the digits at the start, which must exist and
denote a number that fits. -/
def fromChars (s : List UInt8) : Option ℕ :=
  if s.takeWhile isDigit ≠ [] ∧ ofDec (s.takeWhile isDigit) < 2 ^ 64 then
    some (ofDec (s.takeWhile isDigit))
  else none

/-- The next operation of `inc`. -/
inductive IncPc
  | seek                                      -- lseek(fd, 0, SEEK_SET)
  | read                                      -- read(fd, s.data(), s.size())
  | fromChars (s : List UInt8)
  | reseek (num : ℕ)                          -- lseek(fd, 0, SEEK_SET)
  | writen (num : ℕ) (buf : List UInt8)       -- the loop of writen, buf to go
  | println (num : ℕ)
  | quit                                      -- err_sys, err_quit
  deriving DecidableEq, Repr

/-- One operation of `inc`; `r` is the result of its call, `none` for -1.  A read of a
regular file returns all there is, up to the 10 bytes asked for. -/
def incStep (f : OpenFile) : IncPc → Option ℕ → Option (OpenFile × Option IncPc)
  | .seek, _ => some ({ f with offset := 0 }, some .read)
  | .read, none => some (f, some .quit)
  | .read, some _ =>
      let s := ByteFile.pread f.content f.offset 10
      some ({ f with offset := f.offset + s.length }, some (.fromChars s))
  | .fromChars s, _ =>
      match fromChars s with
      | some num => some (f, some (.reseek ((num + 1) % 2 ^ 64)))
      | none => some (f, some .quit)
  | .reseek num, _ => some ({ f with offset := 0 }, some (.writen num (toDec num)))
  | .writen num [], _ => some (f, some (.println num))
  | .writen num (b :: buf), none =>
      -- only a failure of the first write is reported
      if (b :: buf).length = (toDec num).length then some (f, some .quit)
      else some (f, some (.println num))
  | .writen num (_ :: _), some 0 => some (f, some (.println num))
  | .writen num (b :: buf), some (k + 1) =>
      if k + 1 ≤ (b :: buf).length then
        some (⟨ByteFile.pwrite f.content f.offset ((b :: buf).take (k + 1)), f.offset + (k + 1)⟩,
          some (.writen num ((b :: buf).drop (k + 1))))
      else none
  | .println _, _ => some (f, none)
  | .quit, _ => none

/-- `inc` as what a process does in its turn. -/
def inc : Work OpenFile IncPc (Option ℕ) where
  start _ _ := .seek
  step _ := incStep

/-- The child leads. -/
abbrev child : Side := .leader

/-- The parent follows. -/
abbrev parent : Side := .follower

/-- The program with `n` rounds; the file holds the 0 that was written before `fork`. -/
def handshake (n : ℕ) : Machine (State OpenFile IncPc) (Action (Option ℕ)) :=
  rounds inc n ⟨ofText "0", 1⟩

/-- The call succeeds, and a write transfers something. -/
def Succeeds (r : Option ℕ) : Prop := r ≠ none ∧ r ≠ some 0

instance : DecidablePred Succeeds := fun _ => inferInstanceAs (Decidable (_ ∧ _))

/-- The program if no call on the file fails. -/
def handshakeOk (n : ℕ) : Machine (State OpenFile IncPc) (Action (Option ℕ)) :=
  (handshake n).restrict fun _ a => a.Ok Succeeds

/-! ### What `inc` keeps -/

/-- The file while the number `v` in it is replaced by `v + 1`. -/
def Busy (v : ℕ) (f : OpenFile) : IncPc → Prop
  | .seek => f.content = toDec v
  | .read => f.content = toDec v ∧ f.offset = 0
  | .fromChars s => f.content = toDec v ∧ s = toDec v
  | .reseek num => f.content = toDec v ∧ num = v + 1
  | .writen num buf => num = v + 1 ∧ buf = (toDec (v + 1)).drop f.offset ∧
      f.content = (toDec (v + 1)).take f.offset ++ (toDec v).drop f.offset
  | .println num => num = v + 1 ∧ f.content = toDec (v + 1)
  | .quit => False

/-- The file between two turns. -/
def Rest (v : ℕ) (f : OpenFile) : Prop := f.content = toDec v

theorem fromChars_toDec {v : ℕ} (hv : v < 2 ^ 64) : fromChars (toDec v) = some v := by
  have hdigits : (toDec v).takeWhile isDigit = toDec v :=
    List.takeWhile_eq_self_iff.mpr fun b hb => isDigit_of_mem_toDec hb
  unfold fromChars
  rw [hdigits, ofDec_toDec]
  exact if_pos ⟨toDec_ne_nil v, hv⟩

/-- A short numeral is read whole. -/
theorem pread_toDec {v : ℕ} (hv : v < 10 ^ 10) : ByteFile.pread (toDec v) 0 10 = toDec v := by
  rw [ByteFile.pread, List.drop_zero]
  exact List.take_of_length_le ((length_toDec_le_iff (by decide)).mpr hv)

/-- The old numeral has no more digits than the new one, so nothing of it is left when
the new one has been written. -/
theorem take_append_drop_toDec {v j : ℕ} (hj : (toDec (v + 1)).length ≤ j) :
    (toDec (v + 1)).take j ++ (toDec v).drop j = toDec (v + 1) := by
  have hold : (toDec v).length ≤ j := Nat.le_trans (length_toDec_mono (Nat.le_succ v)) hj
  rw [List.take_of_length_le hj, List.drop_of_length_le hold, List.append_nil]

/-- After an operation: `inc` goes on or is done. -/
def After (v : ℕ) (f : OpenFile) : Option IncPc → Prop
  | some w => Busy v f w
  | none => Rest (v + 1) f

/-- **One operation of `inc`**, if its call succeeds. -/
theorem incStep_after {v : ℕ} {f f' : OpenFile} {w : IncPc} {w' : Option IncPc} {r : Option ℕ}
    (hv : v + 1 < 10 ^ 10) (hr : Succeeds r) (hw : Busy v f w)
    (hs : incStep f w r = some (f', w')) : After v f' w' := by
  match w, r with
  | .seek, _ =>
      obtain ⟨rfl, rfl⟩ := Prod.mk.inj (Option.some.inj hs)
      exact ⟨hw, rfl⟩
  | .read, none => exact absurd rfl hr.1
  | .read, some _ =>
      obtain ⟨rfl, rfl⟩ := Prod.mk.inj (Option.some.inj hs)
      obtain ⟨hcontent, hoffset⟩ := hw
      refine ⟨hcontent, ?_⟩
      rw [hcontent, hoffset]
      exact pread_toDec (by omega)
  | .fromChars s, _ =>
      obtain ⟨hcontent, rfl⟩ := hw
      have hnum : (v + 1) % 2 ^ 64 = v + 1 := Nat.mod_eq_of_lt (by omega)
      rw [incStep, fromChars_toDec (by omega)] at hs
      obtain ⟨rfl, rfl⟩ := Prod.mk.inj (Option.some.inj hs)
      exact ⟨hcontent, hnum⟩
  | .reseek num, _ =>
      obtain ⟨rfl, rfl⟩ := Prod.mk.inj (Option.some.inj hs)
      obtain ⟨hcontent, rfl⟩ := hw
      exact ⟨rfl, rfl, hcontent⟩
  | .writen num [], _ =>
      obtain ⟨rfl, rfl⟩ := Prod.mk.inj (Option.some.inj hs)
      obtain ⟨hnum, hbuf, hcontent⟩ := hw
      refine ⟨hnum, hcontent.trans (take_append_drop_toDec ?_)⟩
      exact List.drop_eq_nil_iff.mp hbuf.symm
  | .writen num (b :: buf), none => exact absurd rfl hr.1
  | .writen num (b :: buf), some 0 => exact absurd rfl hr.2
  | .writen num (b :: buf), some (k + 1) =>
      obtain ⟨hnum, hbuf, hcontent⟩ := hw
      rw [incStep] at hs
      split at hs
      case isFalse => cases hs
      case isTrue hk =>
          obtain ⟨rfl, rfl⟩ := Prod.mk.inj (Option.some.inj hs)
          refine ⟨hnum, ?_, ?_⟩
          · rw [hbuf, List.drop_drop]
          · rw [hbuf, List.length_drop] at hk
            rw [hbuf, hcontent]
            exact ByteFile.pwrite_take_drop _ (by omega)
  | .println _, _ =>
      obtain ⟨rfl, rfl⟩ := Prod.mk.inj (Option.some.inj hs)
      exact hw.2
  | .quit, _ => exact hw.elim

theorem inc_keeps {n : ℕ} (hn : 2 * n < 10 ^ 10) : inc.Keeps n Busy Rest Succeeds where
  start _ hd := hd
  step hv hr hw hs := incStep_after (by omega) hr hw hs
  done hv hr hw hs := incStep_after (by omega) hr hw hs

/-- `inc` can always go on: a write can transfer at least one byte. -/
theorem inc_live {n : ℕ} (hn : 2 * n < 10 ^ 10) : inc.Live n Busy Succeeds := by
  intro v f w hv hw
  suffices hsome : (incStep f w (some 1)).isSome by
    obtain ⟨r, hr⟩ := Option.isSome_iff_exists.mp hsome
    exact ⟨some 1, r, by decide, hr⟩
  match w with
  | .seek | .read | .reseek _ | .println _ | .writen _ [] => rfl
  | .writen _ (_ :: buf) =>
      rw [incStep, if_pos (by simp)]
      rfl
  | .fromChars s =>
      obtain ⟨-, rfl⟩ := hw
      rw [incStep, fromChars_toDec (by omega)]
      rfl
  | .quit => exact hw.elim

/-- Whatever the calls return, `inc` is only called in turn. -/
theorem inc_keeps_true (n : ℕ) :
    inc.Keeps n (fun _ _ _ => True) (fun _ _ => True) (fun _ => True) where
  start _ _ := trivial
  step _ _ _ _ := trivial
  done _ _ _ _ := trivial

/-! ### The program -/

/-- **Parent and child count to `2 n`.**  Whatever the calls on the file return, parent
and child are never both inside `inc`, and they increment in turn, the child first.  If
no call fails, the program is never stuck before both loops have finished, and then the
file holds the numeral of `2 n`. -/
theorem handshake_counts (n : ℕ) (hn : 2 * n < 10 ^ 10) :
    (∀ s, (handshake n).Reach s →
      ¬ ((s.proc child).pc.working = true ∧ (s.proc parent).pc.working = true) ∧
      s.log = turns s.log.length) ∧
    ∀ s, (handshakeOk n).Reach s →
      (¬ s.Finished → ∃ a s', (handshakeOk n).next s a = some s') ∧
      (s.Finished → s.data.content = toDec (2 * n)) := by
  refine ⟨fun s hs => ?_, fun s hs => ?_⟩
  · have hinv := inv_reach (inc_keeps_true n) trivial hs
    refine ⟨fun hboth => ?_, hinv.log_eq⟩
    exact absurd (Bool.and_eq_true_iff.mpr hboth) (Bool.eq_false_iff.mp hinv.exclusive)
  · have hzero : Rest 0 ⟨ofText "0", 1⟩ := by
      show ofText "0" = toDec 0
      decide
    have hinv := inv_reach_restrict (inc_keeps hn) hzero hs
    refine ⟨fun hfin => ?_, fun hfin => (hinv.of_finished hfin).1⟩
    obtain ⟨a, s', ha, hs'⟩ := hinv.progress (inc_live hn) hfin
    exact ⟨a, s', Machine.restrict_next.mpr ⟨ha, hs'⟩⟩

/-- One call of `inc` by `x`, with every call successful. -/
def incRun (x : Side) : List (Action (Option ℕ)) := List.replicate 7 (.work x (some 1))

/-- One round: the parent is told before it tests its flag, the child while it sleeps. -/
def oneRound : List (Action (Option ℕ)) :=
  incRun child ++ List.replicate 2 (.sync child) ++ List.replicate 4 (.sync parent) ++
    incRun parent ++ [.sync parent] ++ List.replicate 3 (.sync child)

theorem oneRound_counts : ∃ s, (handshakeOk 1).Reach s ∧ s.Finished ∧
    s.data.content = ofText "2" := by
  have hrun : ((handshakeOk 1).run (initState inc 1 ⟨ofText "0", 1⟩) oneRound).map
      (fun s => ((s.proc child).pc, (s.proc parent).pc)) = some (.finished, .finished) := by
    decide +kernel
  obtain ⟨s, hs, hpcs⟩ := Option.map_eq_some_iff.mp hrun
  have hreach := Machine.reach_of_run (M := handshakeOk 1) rfl hs
  have hfin : s.Finished := fun x => by
    cases x
    · exact congrArg Prod.fst hpcs
    · exact congrArg Prod.snd hpcs
  refine ⟨s, hreach, hfin, ?_⟩
  rw [((handshake_counts 1 (by decide)).2 s hreach).2 hfin]
  decide

end Apue.Handshake
