/-
Apue/CpHoles.lean

The copy loop of `4/11_cp_holes.cpp`: a file is copied without writing the bytes
that are zero.

Each block that `read` returns is scanned from left to right.  A run of non-zero
bytes is written, a run of zeros is skipped with `lseek`, so that the kernel leaves
a hole.  A run may end at the end of the block, or go on in the next one; zeros at
the end of the file are never followed by a write, and only the `ftruncate` at the
end makes the file long enough.

How the reads and writes go is chosen by the kernel (`FileIO`).  Left out: `open`,
`mkdir` and the names, and a failing `lseek` or `ftruncate`, which is reported and
otherwise ignored.
-/
import Mathlib.Algebra.Group.Nat.Defs
import Mathlib.Data.List.TakeWhile
import Apue.ByteFile
import Apue.FileIO

namespace Apue.CpHoles

open ByteFile FileIO

/-! ### The program -/

/-- `BUFF_SIZE`. -/
def buffSize : ℕ := 4096

/-- How the copy of a file ends before its time. -/
inductive Exit
  /-- `err_sys` -/
  | errSys (msg : String)
  /-- an iterator past the end of `buf_read` -/
  | outOfRange
  deriving DecidableEq, Repr

/-- The destination, how the next writes will go, and the bytes that were handed to
`writen`, in order. -/
structure State where
  content : List UInt8
  offset : ℕ
  outcomes : List Outcome
  handed : List UInt8
  deriving DecidableEq, Repr

/-- `writen(fd_dest, ..)`.  Its calls of `write` are adjacent, so they are one. -/
def State.writen (s : State) (buf : List UInt8) : Option ℕ × State :=
  let (n, out, outcomes) := FileIO.writen buf s.outcomes
  (n, { content := pwrite s.content s.offset out, offset := s.offset + out.length,
        outcomes := outcomes, handed := s.handed ++ buf })

/-- `lseek(fd_dest, n, SEEK_CUR)`. -/
def State.lseek (s : State) (n : ℕ) : State := { s with offset := s.offset + n }

/-- The non-zero bytes are written, if there are any. -/
def writeNonZero (nonZero : List UInt8) (s : State) : Except Exit State :=
  if 0 < nonZero.length then
    match s.writen nonZero with
    | (none, _) => .error (.errSys "call write to destination file")
    | (some _, s') => .ok s'
  else .ok s

/-- The scanning loop, over the first `r` bytes of `buf_read`.  Every iteration that does
not leave the loop advances, so `r` iterations are enough. -/
def scanLoop (bufRead : List UInt8) (r : ℕ) : ℕ → ℕ → State → Except Exit State
  | 0, _, s => .ok s
  | fuel + 1, written, s =>
      if written < r then
        -- `buf_read.begin() + r`
        if bufRead.length < r then .error .outOfRange
        else
          let bytes := (bufRead.take r).drop written
          let nonZero := bytes.takeWhile (· ≠ 0)
          (writeNonZero nonZero s).bind fun s =>
            -- `it_first_zero == it_end`
            if nonZero.length = bytes.length then .ok s
            else
              let zeros := (bytes.drop nonZero.length).takeWhile (· = 0)
              scanLoop bufRead r fuel (written + (nonZero.length + zeros.length))
                (s.lseek zeros.length)
      else .ok s

/-- `read` has stored `d` at the start of `buf_read`. -/
def load (bufRead d : List UInt8) : List UInt8 := d ++ bufRead.drop d.length

theorem length_load {bufRead d : List UInt8} (hbuf : bufRead.length = buffSize)
    (hd : d.length ≤ buffSize) : (load bufRead d).length = buffSize := by
  rw [load, List.length_append, List.length_drop, hbuf]
  omega

theorem take_load (bufRead d : List UInt8) : (load bufRead d).take d.length = d :=
  List.take_left

/-- The loop over the source, with `total_size` so far.  The result -1 becomes the
`std::size_t` 2^64 - 1, which is not less than 0. -/
def readLoop : ℕ → Source UInt8 → List UInt8 → ℕ → State → Except Exit (State × ℕ)
  | 0, _, _, totalSize, s => .ok (s, totalSize)
  | fuel + 1, src, bufRead, totalSize, s =>
      match src.read buffSize with
      | (some [], _) => .ok (s, totalSize)
      | (some (b :: bs), src') =>
          let r := (b :: bs).length
          (scanLoop (load bufRead (b :: bs)) r r 0 s).bind fun s =>
            readLoop fuel src' (load bufRead (b :: bs)) (totalSize + r) s
      | (none, src') =>
          let r := 2 ^ 64 - 1
          (scanLoop bufRead r r 0 s).bind fun s =>
            readLoop fuel src' bufRead ((totalSize + r) % 2 ^ 64) s

/-- `ftruncate(fd_dest, total_size)`. -/
def State.ftruncate (s : State) (n : ℕ) : State := { s with content := truncate s.content n }

/-- The destination, opened with `O_TRUNC`. -/
def openDest (outcomes : List Outcome) : State :=
  { content := [], offset := 0, outcomes := outcomes, handed := [] }

/-- The per-file loop.  Each iteration consumes bytes of the source or a failing read. -/
def copyFile (src : Source UInt8) (outcomes : List Outcome) : Except Exit State :=
  (readLoop (src.data.length + src.sched.length + 1) src (List.replicate buffSize 0) 0
    (openDest outcomes)).map fun (s, totalSize) => s.ftruncate totalSize

/-! ### Rules for the loops -/

/-- What holds of the result of a step: `I` of the state it leaves, or `E` of its error. -/
def Ends {σ : Type*} (E : Exit → Prop) (I : σ → Prop) : Except Exit σ → Prop
  | .ok s => I s
  | .error e => E e

theorem Ends.bind {σ τ : Type*} {E : Exit → Prop} {I : σ → Prop} {J : τ → Prop}
    {x : Except Exit σ} {f : σ → Except Exit τ} (hx : Ends E I x)
    (hf : ∀ s, I s → Ends E J (f s)) : Ends E J (x.bind f) := by
  cases x with
  | ok s => exact hf s hx
  | error e => exact hx

/-- Zeros are zeros. -/
theorem takeWhile_zero (l : List UInt8) :
    l.takeWhile (· = 0) = List.replicate (l.takeWhile (· = 0)).length 0 :=
  List.eq_replicate_of_mem fun b hb => by simpa using List.mem_takeWhile_imp hb

/-- A non-empty list begins with a run of non-zero bytes or of zeros. -/
theorem run_pos {bytes : List UInt8} (h : bytes ≠ []) :
    0 < (bytes.takeWhile (· ≠ 0)).length +
      ((bytes.drop (bytes.takeWhile (· ≠ 0)).length).takeWhile (· = 0)).length := by
  cases bytes with
  | nil => exact absurd rfl h
  | cons b l =>
      by_cases hb : b = 0
      · simp [hb]
      · rw [List.takeWhile_cons_of_pos (by simpa using hb), List.length_cons]
        omega

/-- The two runs at the front of what is left of a block and what is behind them make it up. -/
theorem runs_append (bytes : List UInt8) :
    bytes.takeWhile (· ≠ 0) ++
      (List.replicate ((bytes.drop (bytes.takeWhile (· ≠ 0)).length).takeWhile (· = 0)).length 0 ++
        bytes.drop ((bytes.takeWhile (· ≠ 0)).length +
          ((bytes.drop (bytes.takeWhile (· ≠ 0)).length).takeWhile (· = 0)).length)) = bytes := by
  set nonZero := bytes.takeWhile (· ≠ 0)
  set zeros := (bytes.drop nonZero.length).takeWhile (· = 0) with hzeros
  have hrest : zeros ++ (bytes.drop nonZero.length).drop zeros.length =
      bytes.drop nonZero.length :=
    List.prefix_iff_eq_append.mp (List.takeWhile_prefix _)
  have hbytes : nonZero ++ bytes.drop nonZero.length = bytes :=
    List.prefix_iff_eq_append.mp (List.takeWhile_prefix _)
  rw [hzeros, ← takeWhile_zero, ← hzeros, ← List.drop_drop, hrest, hbytes]

section Rules

variable {E : Exit → Prop} {I : List UInt8 → State → Prop}

/-- **The rule of the scanning loop.**  `I p s` says what the state has to do with the
bytes `p` scanned so far; it is enough that writing a run of non-zero bytes and skipping
a run of zeros keep it. -/
theorem scanLoop_rule
    (hwrite : ∀ p s d, I p s → (∀ b ∈ d, b ≠ 0) → Ends E (I (p ++ d)) (writeNonZero d s))
    (hseek : ∀ p s n, I p s → I (p ++ List.replicate n 0) (s.lseek n))
    {bufRead : List UInt8} {r : ℕ} (hr : r ≤ bufRead.length) :
    ∀ (fuel written : ℕ) (p : List UInt8) (s : State), r ≤ fuel + written → I p s →
      Ends E (I (p ++ (bufRead.take r).drop written)) (scanLoop bufRead r fuel written s) := by
  have hlen : (bufRead.take r).length = r := List.length_take_of_le hr
  intro fuel
  induction fuel with
  | zero =>
      intro written p s hfuel h
      rw [List.drop_of_length_le (by omega), List.append_nil]
      exact h
  | succ fuel ih =>
      intro written p s hfuel h
      rw [scanLoop]
      by_cases hlt : written < r
      · rw [if_pos hlt, if_neg (by omega)]
        set bytes := (bufRead.take r).drop written with hbytes
        have hpos : 0 < bytes.length := by
          rw [hbytes, List.length_drop]
          omega
        refine (hwrite p s (bytes.takeWhile (· ≠ 0)) h fun b hb => by
          simpa using List.mem_takeWhile_imp hb).bind fun s₁ h₁ => ?_
        by_cases hend : (bytes.takeWhile (· ≠ 0)).length = bytes.length
        · rw [if_pos hend]
          rw [(List.takeWhile_prefix _).eq_of_length hend] at h₁
          exact h₁
        · rw [if_neg hend]
          have hrun := run_pos (List.length_pos_iff.mp hpos)
          have hruns := runs_append bytes
          set nonZero := bytes.takeWhile (· ≠ 0)
          set zeros := (bytes.drop nonZero.length).takeWhile (· = 0)
          have hnext := ih (written + (nonZero.length + zeros.length)) _ _ (by omega)
            (hseek _ s₁ zeros.length h₁)
          rw [← List.drop_drop, ← hbytes, List.append_assoc, List.append_assoc, hruns] at hnext
          exact hnext
      · rw [if_neg hlt, List.drop_of_length_le (by omega), List.append_nil]
        exact h

/-- **The rule of the loop over the source**, if no read fails. -/
theorem readLoop_rule
    (hwrite : ∀ p s d, I p s → (∀ b ∈ d, b ≠ 0) → Ends E (I (p ++ d)) (writeNonZero d s))
    (hseek : ∀ p s n, I p s → I (p ++ List.replicate n 0) (s.lseek n)) :
    ∀ (fuel : ℕ) (src : Source UInt8) (bufRead p : List UInt8) (s : State),
      src.data.length < fuel → src.Reliable → bufRead.length = buffSize → I p s →
      Ends E (fun x => I (p ++ src.data) x.1 ∧ x.2 = (p ++ src.data).length)
        (readLoop fuel src bufRead p.length s) := by
  intro fuel
  induction fuel with
  | zero =>
      intro src bufRead p s hfuel
      cases hfuel
  | succ fuel ih =>
      intro src bufRead p s hfuel hsrc hbuf h
      rw [readLoop]
      by_cases hend : src.data = []
      · obtain ⟨src', hread⟩ := hsrc.read_end buffSize hend
        rw [hread, hend, List.append_nil]
        exact ⟨h, rfl⟩
      · obtain ⟨b, bs, src', hread, hle, hdata, hsrc'⟩ :=
          hsrc.read_cons (n := buffSize) (by decide) hend
        have hload := length_load hbuf hle
        have hscan := scanLoop_rule hwrite hseek (r := (b :: bs).length) (hload ▸ hle)
          (b :: bs).length 0 p s (Nat.le_refl _) h
        rw [take_load, List.drop_zero] at hscan
        have hshort : src'.data.length < fuel := by
          rw [hdata, List.length_append, List.length_cons] at hfuel
          omega
        rw [hread]
        refine hscan.bind fun s₁ h₁ => ?_
        have hnext := ih src' (load bufRead (b :: bs)) _ s₁ hshort hsrc' hload h₁
        have hlen : (p ++ b :: bs).length = p.length + (b :: bs).length := List.length_append
        rw [List.append_assoc, ← hdata, hlen] at hnext
        exact hnext

/-- **The rule of the per-file loop**: what the loops keep holds of the whole source before
`ftruncate`. -/
theorem copyFile_rule
    (hwrite : ∀ p s d, I p s → (∀ b ∈ d, b ≠ 0) → Ends E (I (p ++ d)) (writeNonZero d s))
    (hseek : ∀ p s n, I p s → I (p ++ List.replicate n 0) (s.lseek n))
    {src : Source UInt8} {outcomes : List Outcome} (hsrc : src.Reliable)
    (h : I [] (openDest outcomes)) :
    Ends E (fun s => ∃ s₀, I src.data s₀ ∧ s = s₀.ftruncate src.data.length)
      (copyFile src outcomes) := by
  have hloop := readLoop_rule hwrite hseek (src.data.length + src.sched.length + 1) src
    (List.replicate buffSize 0) [] (openDest outcomes)
    (Nat.lt_succ_of_le (Nat.le_add_right _ src.sched.length)) hsrc List.length_replicate h
  rw [List.nil_append, List.length_nil] at hloop
  rw [copyFile]
  rcases hres : readLoop (src.data.length + src.sched.length + 1) src
    (List.replicate buffSize 0) 0 (openDest outcomes) with e | ⟨s, totalSize⟩
  · rw [hres] at hloop
    exact hloop
  · rw [hres] at hloop
    obtain ⟨hI, rfl⟩ : I src.data s ∧ totalSize = src.data.length := hloop
    exact ⟨s, hI, rfl⟩

end Rules

/-! ### What has been copied -/

/-- The destination holds `p`, up to zeros at its end, and the next write goes behind them. -/
structure Copied (p : List UInt8) (s : State) : Prop where
  offset : s.offset = p.length
  short : s.content.length ≤ p.length
  content : truncate s.content p.length = p
  nonzero : ∀ b ∈ s.handed, b ≠ 0
  reliable : .fail ∉ s.outcomes

variable {p : List UInt8} {s : State}

theorem copied_openDest {outcomes : List Outcome} (h : .fail ∉ outcomes) :
    Copied [] (openDest outcomes) where
  offset := rfl
  short := Nat.le_refl _
  content := rfl
  nonzero _ hb := by cases hb
  reliable := h

/-- Writing non-zero bytes. -/
theorem Copied.writeNonZero (h : Copied p s) {d : List UInt8} (hd : ∀ b ∈ d, b ≠ 0) :
    Ends (fun _ => False) (Copied (p ++ d)) (CpHoles.writeNonZero d s) := by
  rw [CpHoles.writeNonZero]
  split
  · next hpos =>
    obtain ⟨outcomes, hwriten, hok⟩ := writen_of_reliable d h.reliable
    have hne : d ≠ [] := List.length_pos_iff.mp hpos
    have hcontent : pwrite s.content s.offset d = p ++ d := by
      rw [h.offset, pwrite_of_length_le h.short hne, h.content]
    rw [State.writen, hwriten]
    refine ⟨?_, ?_, ?_, ?_, hok⟩
    · rw [List.length_append, ← h.offset]
    · exact (congrArg List.length hcontent).le
    · show truncate (pwrite s.content s.offset d) _ = _
      rw [hcontent, truncate_length]
    · intro b hb
      rcases List.mem_append.mp hb with hb | hb
      · exact h.nonzero b hb
      · exact hd b hb
  · next hzero =>
    obtain rfl : d = [] := List.length_eq_zero_iff.mp (by omega)
    rw [List.append_nil]
    exact h

/-- Skipping zeros. -/
theorem Copied.lseek (h : Copied p s) (n : ℕ) :
    Copied (p ++ List.replicate n 0) (s.lseek n) where
  offset := by
    rw [List.length_append, List.length_replicate, ← h.offset]
    rfl
  short := by
    have := h.short
    rw [List.length_append]
    exact Nat.le_add_right_of_le this
  content := by
    show truncate s.content _ = _
    rw [List.length_append, List.length_replicate, truncate_add h.short, h.content]
    rfl
  nonzero := h.nonzero
  reliable := h.reliable

/-! ### The file -/

/-- **The copy is exact**: however the reads cut the source into blocks, and however short the
writes are, the destination ends up with the bytes of the source, none of which was handed to
`writen` if it is zero. -/
theorem copyFile_copies (src : Source UInt8) (outcomes : List Outcome) (hsrc : src.Reliable)
    (houtcomes : .fail ∉ outcomes) :
    ∃ s, copyFile src outcomes = .ok s ∧ s.content = src.data ∧ ∀ b ∈ s.handed, b ≠ 0 := by
  have hcopy := copyFile_rule (I := Copied) (fun _ _ _ h hd => h.writeNonZero hd)
    (fun _ _ n h => h.lseek n) hsrc (copied_openDest houtcomes)
  rcases hres : copyFile src outcomes with e | s
  · rw [hres] at hcopy
    exact hcopy.elim
  · rw [hres] at hcopy
    obtain ⟨s₀, hs₀, rfl⟩ := hcopy
    exact ⟨_, rfl, hs₀.content, hs₀.nonzero⟩

/-- Zeros at the start, across a block boundary and at the end, with short reads and writes. -/
def holesSource : Source UInt8 := ⟨[0, 7, 0, 0, 8, 9, 0], [.upTo 2, .upTo 0]⟩

theorem holesSource_copied : ∃ s, copyFile holesSource [.upTo 0] = .ok s ∧
    s.content = [0, 7, 0, 0, 8, 9, 0] ∧ ∀ b ∈ s.handed, b ≠ 0 :=
  copyFile_copies holesSource [.upTo 0] (show .fail ∉ holesSource.sched by decide) (by decide)

end Apue.CpHoles
