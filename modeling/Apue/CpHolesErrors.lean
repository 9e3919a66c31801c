/-
Apue/CpHolesErrors.lean

The copy loop of `4/11_cp_holes.cpp` when its reads and writes fail.

A failing write.  `writen` returns -1 only if its first call of `write` fails; after that
a failure is a short count, which the loop does not look at.  The next run of bytes goes
where the file offset stands, too far to the front, and `ftruncate` makes up the length
again.  Whether the copy is right after all is settled by counting: every byte that is
written is non-zero and lands behind all others, so one that `writen` has left out is
missing from the number of non-zero bytes for good.

A failing read.  Its result is kept in an unsigned variable, so the test for an error
never succeeds, and the scan begins with an iterator far outside the buffer.
-/
import Apue.CpHoles

namespace Apue.CpHoles

open ByteFile FileIO

/-! ### Non-zero bytes -/

/-- The number of bytes that are not zero. -/
def nonZeros (l : List UInt8) : ℕ := l.countP (· ≠ 0)

theorem nonZeros_append (l l' : List UInt8) : nonZeros (l ++ l') = nonZeros l + nonZeros l' :=
  List.countP_append

theorem nonZeros_of_ne_zero {d : List UInt8} (hd : ∀ b ∈ d, b ≠ 0) : nonZeros d = d.length :=
  List.countP_eq_length.mpr fun b hb => by simpa using hd b hb

theorem nonZeros_replicate_zero (n : ℕ) : nonZeros (List.replicate n 0) = 0 :=
  List.countP_eq_zero.mpr fun b hb => by simp [List.eq_of_mem_replicate hb]

/-- What `ftruncate` adds is zero. -/
theorem nonZeros_truncate {f : List UInt8} {n : ℕ} (h : f.length ≤ n) :
    nonZeros (truncate f n) = nonZeros f := by
  rw [truncate_of_length_le h, nonZeros_append]
  exact congrArg _ (nonZeros_replicate_zero _)

/-- A write behind the end of the file adds all its bytes. -/
theorem nonZeros_pwrite {f d : List UInt8} {o : ℕ} (h : f.length ≤ o) (hd : ∀ b ∈ d, b ≠ 0) :
    nonZeros (pwrite f o d) = nonZeros f + d.length := by
  by_cases hnil : d = []
  · rw [hnil]
    rfl
  · rw [pwrite_of_length_le h hnil, nonZeros_append, nonZeros_truncate h, nonZeros_of_ne_zero hd]

theorem length_pwrite_le {f d : List UInt8} {o : ℕ} (h : f.length ≤ o) :
    (pwrite f o d).length ≤ o + d.length := by
  by_cases hnil : d = []
  · rw [hnil]
    exact h
  · rw [length_pwrite f o hnil]
    omega

/-! ### Writes that fail -/

/-- What the destination has to do with the bytes `p` of the source: a copy of them up to
zeros at the end, or, when a write has failed, one with fewer non-zero bytes. -/
structure Ledger (p : List UInt8) (failed : Prop) (s : State) : Prop where
  short : s.content.length ≤ s.offset
  offset : s.offset ≤ p.length
  exact : ¬ failed → s.offset = p.length ∧ truncate s.content p.length = p
  fewer : failed → nonZeros s.content < nonZeros p

variable {p : List UInt8} {failed : Prop} {s : State}

theorem ledger_openDest (outcomes : List Outcome) : Ledger [] (.fail ∈ ([] : List Outcome))
    (openDest outcomes) where
  short := Nat.le_refl _
  offset := Nat.le_refl _
  exact _ := ⟨rfl, rfl⟩
  fewer h := by cases h

/-- There are never more non-zero bytes than in the source. -/
theorem Ledger.nonZeros_le (h : Ledger p failed s) : nonZeros s.content ≤ nonZeros p := by
  by_cases hf : failed
  · exact Nat.le_of_lt (h.fewer hf)
  · have hlen := h.short.trans h.offset
    rw [← nonZeros_truncate hlen, (h.exact hf).2]

/-- The first part `out` of the non-zero bytes `d` is written. -/
theorem Ledger.write (h : Ledger p failed s) {d out : List UInt8} (hd : ∀ b ∈ d, b ≠ 0)
    (hout : out <+: d) {failed' : Prop} (hfailed : failed' ↔ out ≠ d) (outcomes : List Outcome)
    (handed : List UInt8) :
    Ledger (p ++ d) (failed ∨ failed')
      { content := pwrite s.content s.offset out, offset := s.offset + out.length,
        outcomes := outcomes, handed := handed } := by
  have hlen := hout.length_le
  have hoff := h.offset
  have hcount : nonZeros (pwrite s.content s.offset out) = nonZeros s.content + out.length :=
    nonZeros_pwrite h.short fun b hb => hd b (hout.subset hb)
  have htotal : nonZeros (p ++ d) = nonZeros p + d.length := by
    rw [nonZeros_append, nonZeros_of_ne_zero hd]
  refine ⟨length_pwrite_le h.short, ?_, fun hok => ?_, fun hf => ?_⟩
  · show s.offset + out.length ≤ _
    rw [List.length_append]
    omega
  · -- the whole of `d` is written, behind a copy of `p`
    obtain ⟨hok, hok'⟩ := not_or.mp hok
    obtain rfl : out = d := not_not.mp fun hne => hok' (hfailed.mpr hne)
    obtain ⟨hoff, hcopy⟩ := h.exact hok
    refine ⟨by rw [List.length_append, ← hoff], ?_⟩
    show truncate (pwrite s.content s.offset out) _ = _
    by_cases hnil : out = []
    · subst hnil
      rw [pwrite_nil, List.append_nil, hcopy]
    · rw [pwrite_of_length_le h.short hnil, hoff, hcopy, truncate_length]
  · show nonZeros (pwrite s.content s.offset out) < _
    rw [hcount, htotal]
    rcases hf with hf | hf
    · have := h.fewer hf
      omega
    · have hle := h.nonZeros_le
      have hlt : out.length < d.length :=
        Nat.lt_of_le_of_ne hlen fun he => (hfailed.mp hf) (hout.eq_of_length he)
      omega

/-- Zeros are skipped. -/
theorem Ledger.lseek (h : Ledger p failed s) (n : ℕ) :
    Ledger (p ++ List.replicate n 0) failed (s.lseek n) where
  short := Nat.le_add_right_of_le h.short
  offset := by
    rw [List.length_append, List.length_replicate]
    exact Nat.add_le_add_right h.offset n
  exact hok := by
    obtain ⟨hoff, hcopy⟩ := h.exact hok
    rw [List.length_append, List.length_replicate]
    refine ⟨congrArg (· + n) hoff, ?_⟩
    show truncate s.content _ = _
    rw [truncate_add (h.short.trans h.offset), hcopy]
    rfl
  fewer hf := by
    rw [nonZeros_append, nonZeros_replicate_zero]
    exact h.fewer hf

/-- The only error reported when the reads go well. -/
def callWrite : Exit := .errSys "call write to destination file"

/-- One run of non-zero bytes, with the outcomes used up so far. -/
theorem Ledger.writeNonZero {outcomes : List Outcome} {d : List UInt8}
    (h : ∃ used, outcomes = used ++ s.outcomes ∧ Ledger p (.fail ∈ used) s)
    (hd : ∀ b ∈ d, b ≠ 0) :
    Ends (· = callWrite)
      (fun s' => ∃ used, outcomes = used ++ s'.outcomes ∧ Ledger (p ++ d) (.fail ∈ used) s')
      (CpHoles.writeNonZero d s) := by
  obtain ⟨used, hused, hledger⟩ := h
  rw [CpHoles.writeNonZero]
  by_cases hpos : 0 < d.length
  · obtain ⟨res, out, used', outcomes', hwriten, hrest, hout, hfailed, -, -⟩ :=
      writen_spec d s.outcomes
    rw [if_pos hpos, State.writen, hwriten]
    rcases res with _ | n
    · exact rfl
    · refine ⟨used ++ used', ?_, ?_⟩
      · rw [List.append_assoc, ← hrest, ← hused]
      · have := hledger.write hd hout hfailed outcomes' (s.handed ++ d)
        rwa [← List.mem_append] at this
  · obtain rfl : d = [] := List.length_eq_zero_iff.mp (by omega)
    rw [if_neg hpos, List.append_nil]
    exact ⟨used, hused, hledger⟩

/-- **The copy under failing writes.**  However the reads cut the source and whatever the
writes return: if no error is reported, the destination has the bytes of the source
exactly when none of the calls of `write` that were made has failed. -/
theorem copyFile_exact_iff (src : Source UInt8) (outcomes : List Outcome) (hsrc : src.Reliable)
    {s : State} (hok : copyFile src outcomes = .ok s) :
    ∃ used, outcomes = used ++ s.outcomes ∧ (s.content = src.data ↔ .fail ∉ used) := by
  have hcopy := copyFile_rule (E := (· = callWrite))
    (I := fun p s => ∃ used, outcomes = used ++ s.outcomes ∧ Ledger p (.fail ∈ used) s)
    (fun _ _ _ h hd => Ledger.writeNonZero h hd)
    (fun _ _ n ⟨used, hused, h⟩ => ⟨used, hused, h.lseek n⟩) hsrc
    ⟨[], rfl, ledger_openDest outcomes⟩
  rw [hok] at hcopy
  obtain ⟨s₀, ⟨used, hused, h⟩, rfl⟩ := hcopy
  refine ⟨used, hused, fun hcontent hfail => ?_, fun hfail => (h.exact hfail).2⟩
  have hlt := h.fewer hfail
  have heq : nonZeros s₀.content = nonZeros src.data := by
    rw [← nonZeros_truncate (h.short.trans h.offset)]
    exact congrArg nonZeros hcontent
  omega

/-- Two bytes, a zero and a third byte; the write of the second byte fails. -/
def shortWriteSource : Source UInt8 := ⟨[7, 8, 0, 9], []⟩

theorem shortWriteSource_exact_iff : ∃ s, copyFile shortWriteSource [.upTo 0, .upTo 0] = .ok s ∧
    ∃ used, [.upTo 0, .upTo 0] = used ++ s.outcomes ∧
      (s.content = shortWriteSource.data ↔ .fail ∉ used) := by
  have hok : copyFile shortWriteSource [.upTo 0, .upTo 0]
      = .ok ⟨[7, 8, 0, 9], 4, [], [7, 8, 9]⟩ := by decide +kernel
  exact ⟨_, hok, copyFile_exact_iff shortWriteSource [.upTo 0, .upTo 0]
    (show .fail ∉ shortWriteSource.sched by decide) hok⟩

/-- The third byte is put in the place of the zero, and no error is reported. -/
theorem shortWriteSource_shifted :
    copyFile shortWriteSource [.upTo 0, .fail] = .ok ⟨[7, 0, 9, 0], 3, [], [7, 8, 9]⟩ := by
  decide +kernel

/-! ### Reads that fail -/

/-- A read of the loop over the source fails before the loop ends. -/
inductive ReadFails : Source UInt8 → List UInt8 → State → Prop
  | now {src src' : Source UInt8} {bufRead : List UInt8} {s : State} :
      src.read buffSize = (none, src') → ReadFails src bufRead s
  | later {src src' : Source UInt8} {bufRead : List UInt8} {s s' : State} {b : UInt8}
      {bs : List UInt8} : src.read buffSize = (some (b :: bs), src') →
      scanLoop (load bufRead (b :: bs)) (b :: bs).length (b :: bs).length 0 s = .ok s' →
      ReadFails src' (load bufRead (b :: bs)) s' → ReadFails src bufRead s

theorem not_readFails_of_end {src src' : Source UInt8} {bufRead : List UInt8} {s : State}
    (hread : src.read buffSize = (some [], src')) : ¬ ReadFails src bufRead s := by
  rintro (h | ⟨h, -, -⟩) <;>
  · rw [hread] at h
    cases h

/-- After a block, the scan has to succeed for the loop to read on. -/
theorem readFails_iff_of_block {src src' : Source UInt8} {bufRead : List UInt8} {s : State}
    {b : UInt8} {bs : List UInt8} (hread : src.read buffSize = (some (b :: bs), src')) :
    ReadFails src bufRead s ↔ ∃ s',
      scanLoop (load bufRead (b :: bs)) (b :: bs).length (b :: bs).length 0 s = .ok s' ∧
        ReadFails src' (load bufRead (b :: bs)) s' := by
  constructor
  · rintro (h | ⟨h, hok, hrest⟩)
    · rw [hread] at h
      cases h
    · rw [hread] at h
      obtain ⟨⟨rfl, rfl⟩, rfl⟩ : (b = _ ∧ bs = _) ∧ src' = _ := by simpa using h
      exact ⟨_, hok, hrest⟩
  · rintro ⟨s', hok, hrest⟩
    exact .later hread hok hrest

/-- The error exit for a failing read, line 33 (the message goes on with the file's name). -/
def callRead : Exit := .errSys "call read from source file"

/-- The failing reads of the program are handled: it forms no iterator outside `buf_read`,
and a failing read leads to the error exit. -/
def ReadsHandled (src : Source UInt8) (outcomes : List Outcome) : Prop :=
  copyFile src outcomes ≠ .error .outOfRange ∧
    (ReadFails src (List.replicate buffSize 0) (openDest outcomes) →
      copyFile src outcomes = .error callRead)

/-- A scan of more than the buffer does not get anywhere. -/
theorem scanLoop_outOfRange {bufRead : List UInt8} {r : ℕ} (hr : bufRead.length < r) (fuel : ℕ)
    (s : State) : scanLoop bufRead r (fuel + 1) 0 s = .error .outOfRange := by
  rw [scanLoop, if_pos (Nat.zero_lt_of_lt hr), if_pos hr]

/-- A scan of no more than the buffer can only fail in a write. -/
theorem scanLoop_inRange {bufRead : List UInt8} {r : ℕ} (hr : r ≤ bufRead.length) (s : State) :
    Ends (· = callWrite) (fun _ => True) (scanLoop bufRead r r 0 s) := by
  refine scanLoop_rule (I := fun _ _ => True) (fun _ s d _ _ => ?_) (fun _ _ _ _ => trivial) hr r 0
    [] s (Nat.le_refl _) trivial
  rw [CpHoles.writeNonZero]
  split
  · rcases s.writen d with ⟨_ | n, s'⟩
    · exact rfl
    · trivial
  · trivial

/-- The loop over the source runs out of the buffer if a read fails, and otherwise it can
only fail in a write. -/
theorem readLoop_reads : ∀ (fuel : ℕ) (src : Source UInt8) (bufRead : List UInt8)
    (totalSize : ℕ) (s : State), src.data.length < fuel → bufRead.length = buffSize →
    (ReadFails src bufRead s → readLoop fuel src bufRead totalSize s = .error .outOfRange) ∧
      (¬ ReadFails src bufRead s →
        Ends (· = callWrite) (fun _ => True) (readLoop fuel src bufRead totalSize s)) := by
  intro fuel
  induction fuel with
  | zero =>
      intro src bufRead totalSize s hfuel
      cases hfuel
  | succ fuel ih =>
      intro src bufRead totalSize s hfuel hbuf
      rw [readLoop]
      rcases hread : src.read buffSize with ⟨_ | _ | ⟨b, bs⟩, src'⟩
      · -- the result is `2^64 - 1`
        have hwrap : bufRead.length < 2 ^ 64 - 2 + 1 := by
          rw [hbuf]
          decide
        refine ⟨fun _ => ?_, fun h => absurd (.now hread) h⟩
        show (scanLoop bufRead (2 ^ 64 - 2 + 1) (2 ^ 64 - 2 + 1) 0 s).bind _ = _
        rw [scanLoop_outOfRange hwrap]
        rfl
      · -- the end of the source
        exact ⟨fun h => absurd h (not_readFails_of_end hread), fun _ => trivial⟩
      · obtain ⟨hdata, hle⟩ := Source.read_eq_some hread
        have hload := length_load hbuf hle
        have hscan := scanLoop_inRange (hload ▸ hle) s
        have hshort : src'.data.length < fuel := by
          rw [hdata, List.length_append, List.length_cons] at hfuel
          omega
        rw [readFails_iff_of_block hread]
        dsimp only
        constructor
        · rintro ⟨s', hok, hrest⟩
          rw [hok]
          exact (ih _ _ _ _ hshort hload).1 hrest
        · intro h
          rcases hres : scanLoop (load bufRead (b :: bs)) (b :: bs).length (b :: bs).length 0 s
            with e | s'
          · rw [hres] at hscan
            exact hscan
          · exact (ih _ _ _ s' hshort hload).2 fun hrest => h ⟨s', hres, hrest⟩

/-- **The copy under failing reads.**  Whatever the reads and writes return, the program
keeps within its buffer and reports failing reads exactly in the runs in which no read
fails: every failing read takes it out of the buffer. -/
theorem readsHandled_iff (src : Source UInt8) (outcomes : List Outcome) :
    ReadsHandled src outcomes ↔
      ¬ ReadFails src (List.replicate buffSize 0) (openDest outcomes) := by
  obtain ⟨hfails, hok⟩ := readLoop_reads (src.data.length + src.sched.length + 1) src
    (List.replicate buffSize 0) 0 (openDest outcomes)
    (Nat.lt_succ_of_le (Nat.le_add_right _ _)) List.length_replicate
  constructor
  · rintro ⟨hrange, -⟩ h
    refine hrange ?_
    rw [copyFile, hfails h]
    rfl
  · intro h
    refine ⟨fun hrange => ?_, fun h' => absurd h' h⟩
    have hends := hok h
    rw [copyFile] at hrange
    rcases hres : readLoop (src.data.length + src.sched.length + 1) src
      (List.replicate buffSize 0) 0 (openDest outcomes) with e | x
    · rw [hres] at hends hrange
      obtain rfl : e = callWrite := hends
      cases hrange
    · rw [hres] at hrange
      cases hrange

/-- The first read fails. -/
theorem failingRead_not_handled : ¬ ReadsHandled ⟨[7], [.fail]⟩ [] ∧
    copyFile ⟨[7], [.fail]⟩ [] = .error .outOfRange := by
  have hrun : copyFile ⟨[7], [.fail]⟩ [] = .error .outOfRange := by
    obtain ⟨hfails, -⟩ := readLoop_reads 3 ⟨[7], [.fail]⟩ (List.replicate buffSize 0) 0 (openDest [])
      (by decide) List.length_replicate
    rw [copyFile]
    show (readLoop 3 _ _ _ _).map _ = _
    rw [hfails (.now rfl)]
    rfl
  exact ⟨fun h => h.1 hrun, hrun⟩

end Apue.CpHoles
