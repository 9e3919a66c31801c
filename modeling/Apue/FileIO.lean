/-
Apue/FileIO.lean

`readn` and `writen` of `lib/apue_file.cpp`, over a stream whose calls may be short
or fail.

What a call of `read` or `write` does is chosen by the kernel: the choices are a
list of outcomes, one for each call, and an exhausted list stands for calls that
transfer all they can.  An item of the stream is usually a byte; sockets use
bytes that carry ancillary data.

Both functions are transfers of a device (`readn_eq`, `writen_eq`), and what is known of
them follows from what one call does.
-/
import Apue.TransferLoop

namespace Apue.FileIO

variable {β : Type*}

/-- What the kernel does with one call. -/
inductive Outcome
  | fail
  /-- at most `c + 1` items are transferred -/
  | upTo (c : ℕ)
  deriving DecidableEq, Repr

/-- The readable end of a stream: what is still to be read before the end of
file, and how the next reads will go. -/
structure Source (β : Type*) where
  data : List β
  sched : List Outcome

/-- `read(fd, buf, n)`: `none` is the result -1, an empty list the end of file. -/
def Source.read (s : Source β) (n : ℕ) : Option (List β) × Source β :=
  match s.sched with
  | [] => (some (s.data.take n), ⟨s.data.drop n, []⟩)
  | .fail :: os => (none, ⟨s.data, os⟩)
  | .upTo c :: os => (some (s.data.take (min n (c + 1))), ⟨s.data.drop (min n (c + 1)), os⟩)

/-- The loop of `readn`, with `nleft` of `n` items to go.  Every iteration that
continues has read something, so `nleft` iterations are enough. -/
def readnLoop (n : ℕ) : ℕ → ℕ → List β → Source β → Option ℕ × List β × Source β
  | 0, nleft, buf, s => (some (n - nleft), buf, s)
  | fuel + 1, nleft, buf, s =>
      if nleft = 0 then (some (n - nleft), buf, s)
      else
        match s.read nleft with
        | (none, s') => (if nleft = n then none else some (n - nleft), buf, s')
        | (some [], s') => (some (n - nleft), buf, s')
        | (some (b :: bs), s') =>
            readnLoop n fuel (nleft - (b :: bs).length) (buf ++ b :: bs) s'

/-- `readn(fd, ptr, n)`: the count returned, what was stored at `ptr`, and the rest
of the stream. -/
def readn (s : Source β) (n : ℕ) : Option ℕ × List β × Source β := readnLoop n n n [] s

/-- `write(fd, buf, nleft)`: the count returned, `none` for -1. -/
def write (buf : List β) : List Outcome → Option ℕ × List Outcome
  | [] => (some buf.length, [])
  | .fail :: os => (none, os)
  | .upTo c :: os => (some (min buf.length (c + 1)), os)

/-- The loop of `writen`, with `buf` of `n` items to go and `out` written so far. -/
def writenLoop (n : ℕ) :
    ℕ → List β → List β → List Outcome → Option ℕ × List β × List Outcome
  | 0, buf, out, os => (some (n - buf.length), out, os)
  | fuel + 1, buf, out, os =>
      if buf.length = 0 then (some (n - buf.length), out, os)
      else
        match write buf os with
        | (none, os') => (if buf.length = n then none else some (n - buf.length), out, os')
        | (some 0, os') => (some (n - buf.length), out, os')
        | (some (k + 1), os') =>
            writenLoop n fuel (buf.drop (k + 1)) (out ++ buf.take (k + 1)) os'

/-- `writen(fd, ptr, n)`: the count returned, what was written, and how the next
calls will go. -/
def writen (buf : List β) (os : List Outcome) : Option ℕ × List β × List Outcome :=
  writenLoop buf.length buf.length buf [] os

/-! ### Reads -/

/-- What a read returns is taken from the front of the stream. -/
theorem Source.read_eq_some {s s' : Source β} {n : ℕ} {d : List β}
    (h : s.read n = (some d, s')) : s.data = d ++ s'.data ∧ d.length ≤ n := by
  obtain ⟨data, sched⟩ := s
  match sched with
  | [] =>
      obtain ⟨rfl, rfl⟩ : data.take n = d ∧ _ = s' := by simpa [Source.read] using h
      exact ⟨(List.take_append_drop n data).symm, List.length_take_le _ _⟩
  | .fail :: os => simp [Source.read] at h
  | .upTo c :: os =>
      obtain ⟨rfl, rfl⟩ : data.take (min n (c + 1)) = d ∧ _ = s' := by
        simpa [Source.read] using h
      exact ⟨(List.take_append_drop _ data).symm,
        Nat.le_trans (List.length_take_le _ _) (Nat.min_le_left _ _)⟩

theorem Source.read_eq_none {s s' : Source β} {n : ℕ} (h : s.read n = (none, s')) :
    s'.data = s.data := by
  obtain ⟨data, sched⟩ := s
  match sched with
  | [] => simp [Source.read] at h
  | .fail :: os =>
      obtain rfl : _ = s' := (Prod.mk.inj h).2
      rfl
  | .upTo c :: os => simp [Source.read] at h

/-- A read as a call of a device, which keeps what was stored at `ptr`. -/
def readDevice : Device (List β × Source β) where
  call p _ n := ((p.2.read n).1.map List.length, p.1 ++ (p.2.read n).1.getD [], (p.2.read n).2)
  call_le := fun {p off n k p'} h => by
    obtain ⟨d, hd, rfl⟩ := Option.map_eq_some_iff.mp (Prod.mk.inj h).1
    exact (Source.read_eq_some (Prod.ext hd rfl)).2

theorem readnLoop_eq (n : ℕ) : ∀ (fuel nleft off : ℕ) (buf : List β) (s : Source β),
    readnLoop n fuel nleft buf s = readDevice.loop n fuel nleft off (buf, s) := by
  intro fuel
  induction fuel with
  | zero =>
      intro nleft off buf s
      rfl
  | succ fuel ih =>
      intro nleft off buf s
      rw [readnLoop, Device.loop]
      by_cases hzero : nleft = 0
      · rw [if_pos hzero, if_pos hzero]
      rw [if_neg hzero, if_neg hzero]
      rcases hread : s.read nleft with ⟨_ | _ | ⟨b, bs⟩, s'⟩
      · simp only [readDevice, hread, Option.map_none, Option.getD_none, List.append_nil]
      · simp only [readDevice, hread, Option.map_some, List.length_nil, Option.getD_some,
          List.append_nil]
      · simp only [readDevice, hread, Option.map_some, List.length_cons, Option.getD_some]
        exact ih _ _ _ s'

theorem readn_eq (s : Source β) (n : ℕ) : readn s n = readDevice.transfer n ([], s) :=
  readnLoop_eq n n n 0 [] s

/-- What was read so far is stored, and the rest is still to be read. -/
theorem readDevice_call {p p' : List β × Source β} {off n : ℕ} {r : Option ℕ}
    (h : readDevice.call p off n = (r, p')) :
    p'.1 ++ p'.2.data = p.1 ++ p.2.data ∧ p'.1.length = p.1.length + r.getD 0 := by
  obtain ⟨rfl, rfl⟩ := Prod.mk.inj h
  show (p.1 ++ (p.2.read n).1.getD []) ++ (p.2.read n).2.data = _ ∧
    (p.1 ++ (p.2.read n).1.getD []).length = _
  rcases hread : p.2.read n with ⟨_ | d, s'⟩
  · simp [Source.read_eq_none hread]
  · simp [(Source.read_eq_some hread).1]

theorem keeps_readDevice (s : Source β) (n : ℕ) :
    readDevice.Keeps n (fun off p => p.1 ++ p.2.data = s.data ∧ p.1.length = off)
      fun _ p => s.data = p.1 ++ p.2.data ∧ p.1.length ≤ n where
  fail := fun {off nleft p p'} h hn _ hcall => by
    obtain ⟨hdata, hlen⟩ := readDevice_call hcall
    rw [Option.getD_none, h.2] at hlen
    exact ⟨(hdata.trans h.1).symm, by omega⟩
  zero := fun {off nleft p p'} h hn _ hcall => by
    obtain ⟨hdata, hlen⟩ := readDevice_call hcall
    rw [Option.getD_some, h.2] at hlen
    exact ⟨(hdata.trans h.1).symm, by omega⟩
  more := fun {off nleft p k p'} h _ hcall => by
    obtain ⟨hdata, hlen⟩ := readDevice_call hcall
    rw [h.2] at hlen
    exact ⟨hdata.trans h.1, hlen⟩
  done := fun h => ⟨h.1.symm, Nat.le_of_eq h.2⟩

/-- `readn` takes at most `n` items from the front of the stream, whatever its calls
return. -/
theorem readn_data (s : Source β) (n : ℕ) :
    ∃ d, s.data = d ++ (readn s n).2.2.data ∧ d.length ≤ n := by
  rw [readn_eq]
  exact ⟨_, (keeps_readDevice s n).transfer ⟨rfl, rfl⟩⟩

/-- No call fails. -/
def Source.Reliable (s : Source β) : Prop := .fail ∉ s.sched

/-- A reliable read of a stream that is not at its end transfers something. -/
theorem Source.Reliable.read {s : Source β} (h : s.Reliable) {n : ℕ} (hn : 0 < n)
    (hs : s.data ≠ []) :
    ∃ k s', 0 < k ∧ k ≤ n ∧ s.read n = (some (s.data.take k), s') ∧
      s'.data = s.data.drop k ∧ s'.Reliable := by
  obtain ⟨data, sched⟩ := s
  match sched, h with
  | [], h => exact ⟨n, _, hn, Nat.le_refl n, rfl, rfl, h⟩
  | .fail :: os, h => exact absurd List.mem_cons_self h
  | .upTo c :: os, h =>
      refine ⟨min n (c + 1), _, by omega, by omega, rfl, rfl, ?_⟩
      exact fun hmem => h (List.mem_cons_of_mem _ hmem)

/-- The same, with the chunk that was read split off the stream. -/
theorem Source.Reliable.read_cons {s : Source β} (h : s.Reliable) {n : ℕ} (hn : 0 < n)
    (hs : s.data ≠ []) :
    ∃ b bs s', s.read n = (some (b :: bs), s') ∧ (b :: bs).length ≤ n ∧
      s.data = b :: bs ++ s'.data ∧ s'.Reliable := by
  obtain ⟨k, s', hk, hkn, hread, hdata, hs'⟩ := h.read hn hs
  rcases hchunk : s.data.take k with _ | ⟨b, bs⟩
  · rcases List.take_eq_nil_iff.mp hchunk with hzero | hnil
    · omega
    · exact absurd hnil hs
  · refine ⟨b, bs, s', by rw [hread, hchunk], ?_, ?_, hs'⟩
    · rw [← hchunk]
      exact Nat.le_trans (List.length_take_le _ _) hkn
    · rw [← hchunk, hdata, List.take_append_drop]

/-- A reliable read at the end of the stream says so. -/
theorem Source.Reliable.read_end {s : Source β} (h : s.Reliable) (n : ℕ) (hs : s.data = []) :
    ∃ s', s.read n = (some [], s') := by
  obtain ⟨data, sched⟩ := s
  obtain rfl : data = [] := hs
  match sched, h with
  | [], _ => exact ⟨_, congrArg₂ Prod.mk (congrArg some List.take_nil) rfl⟩
  | .fail :: os, h => exact absurd List.mem_cons_self h
  | .upTo c :: os, _ => exact ⟨_, congrArg₂ Prod.mk (congrArg some List.take_nil) rfl⟩

/-- The first `off` items are stored, and the other reads will not fail either. -/
def Source.ReadTo (s : Source β) (off : ℕ) (p : List β × Source β) : Prop :=
  p.1 = s.data.take off ∧ p.2.data = s.data.drop off ∧ p.2.Reliable

/-- A reliable read of a stream that has all that is asked for goes on. -/
theorem Source.ReadTo.call {s : Source β} {off nleft : ℕ} {p : List β × Source β}
    (h : s.ReadTo off p) (hlen : off + nleft ≤ s.data.length) (hpos : 0 < nleft) :
    ∃ k p', readDevice.call p off nleft = (some (k + 1), p') ∧ s.ReadTo (off + (k + 1)) p' := by
  obtain ⟨buf, s₁⟩ := p
  obtain ⟨rfl, hdata, hs₁⟩ := h
  change s₁.data = s.data.drop off at hdata
  have hle : nleft ≤ s₁.data.length := by
    rw [hdata, List.length_drop]
    omega
  have hne : s₁.data ≠ [] := List.ne_nil_of_length_pos (Nat.lt_of_lt_of_le hpos hle)
  obtain ⟨k, s₂, hk, hkn, hread, hdata₂, hs₂⟩ := Source.Reliable.read hs₁ hpos hne
  obtain ⟨k, rfl⟩ := Nat.exists_eq_succ_of_ne_zero (Nat.ne_of_gt hk)
  refine ⟨k, (s.data.take (off + (k + 1)), s₂), ?_, rfl, ?_, hs₂⟩
  · show ((s₁.read nleft).1.map List.length, _ ++ (s₁.read nleft).1.getD [],
      (s₁.read nleft).2) = _
    rw [hread, Option.map_some, List.length_take_of_le (Nat.le_trans hkn hle),
      Option.getD_some, hdata, List.take_add]
  · rw [hdata₂, hdata, List.drop_drop]

/-- **`readn` reads exactly `n` items** whatever the reads return, if there are
that many and none of the calls fails. -/
theorem readn_of_reliable {s : Source β} {n : ℕ} (hs : s.Reliable) (hn : n ≤ s.data.length) :
    ∃ s', readn s n = (some n, s.data.take n, s') ∧ s'.data = s.data.drop n ∧ s'.Reliable := by
  have hkeeps := Device.keeps_of_moving (D := readDevice) (n := n) (I := s.ReadTo)
    fun h hoff hpos => h.call (hoff ▸ hn) hpos
  obtain ⟨hres, hbuf, hdata, hs'⟩ := hkeeps.transfer (s := ([], s)) ⟨rfl, rfl, hs⟩
  rw [readn_eq]
  exact ⟨_, Prod.ext hres (Prod.ext hbuf rfl), hdata, hs'⟩

/-! ### Writes -/

/-- A call of `write` fails, or it transfers something. -/
theorem write_cases {buf : List β} (hbuf : buf ≠ []) (os : List Outcome) :
    (∃ os', os = .fail :: os' ∧ write buf os = (none, os')) ∨
      ∃ k used os', k < buf.length ∧ write buf os = (some (k + 1), os') ∧
        os = used ++ os' ∧ .fail ∉ used := by
  have hlen : 0 < buf.length := List.length_pos_iff.mpr hbuf
  match os with
  | [] =>
      right
      exact ⟨buf.length - 1, [], [], by omega, by rw [write]; congr 2; omega, rfl, by simp⟩
  | .fail :: os => exact .inl ⟨os, rfl, rfl⟩
  | .upTo c :: os =>
      right
      exact ⟨min buf.length (c + 1) - 1, [.upTo c], os, by omega, by rw [write]; congr 2; omega,
        rfl, by simp⟩

/-- A write that does not fail transfers something. -/
theorem write_of_reliable {buf : List β} {os : List Outcome} (hos : .fail ∉ os) (hbuf : buf ≠ []) :
    ∃ k os', k < buf.length ∧ write buf os = (some (k + 1), os') ∧ .fail ∉ os' := by
  rcases write_cases hbuf os with ⟨os', rfl, -⟩ | ⟨k, used, os', hk, hwrite, rfl, -⟩
  · exact absurd List.mem_cons_self hos
  · exact ⟨k, os', hk, hwrite, fun h => hos (List.mem_append_right _ h)⟩

theorem write_le {buf : List β} {os os' : List Outcome} {k : ℕ}
    (h : write buf os = (some k, os')) : k ≤ buf.length := by
  match os with
  | [] => exact Nat.le_of_eq (Option.some.inj (Prod.mk.inj h).1).symm
  | .fail :: os => cases (Prod.mk.inj h).1
  | .upTo c :: os =>
      rw [← Option.some.inj (Prod.mk.inj h).1]
      exact Nat.min_le_left _ _

/-- A write as a call of a device, which keeps what was written. -/
def writeDevice (ptr : List β) : Device (List β × List Outcome) where
  call p off n :=
    let r := write ((ptr.drop off).take n) p.2
    (r.1, p.1 ++ (ptr.drop off).take (r.1.getD 0), r.2)
  call_le := fun h =>
    Nat.le_trans (write_le (Prod.ext (Prod.mk.inj h).1 rfl)) (List.length_take_le _ _)

theorem writeDevice_call {ptr : List β} {off nleft : ℕ} (hn : (ptr.drop off).length = nleft)
    {r : Option ℕ} {os os' : List Outcome} (h : write (ptr.drop off) os = (r, os'))
    (out : List β) : (writeDevice ptr).call (out, os) off nleft
      = (r, out ++ (ptr.drop off).take (r.getD 0), os') := by
  subst hn
  simp only [writeDevice, List.take_length, h]

theorem writenLoop_eq (n : ℕ) (ptr : List β) :
    ∀ (fuel off : ℕ) (buf out : List β) (os : List Outcome), ptr.drop off = buf →
    writenLoop n fuel buf out os = (writeDevice ptr).loop n fuel buf.length off (out, os) := by
  intro fuel
  induction fuel with
  | zero =>
      intro off buf out os _
      rfl
  | succ fuel ih =>
      rintro off buf out os rfl
      rw [writenLoop, Device.loop]
      by_cases hzero : (ptr.drop off).length = 0
      · rw [if_pos hzero, if_pos hzero]
      rw [if_neg hzero, if_neg hzero]
      rcases hwrite : write (ptr.drop off) os with ⟨r, os'⟩
      rw [writeDevice_call rfl hwrite]
      rcases r with _ | _ | k
      · simp only [Option.getD_none, List.take_zero, List.append_nil]
      · simp only [Option.getD_some, List.take_zero, List.append_nil]
      · have hrest := ih (off + (k + 1)) _ (out ++ (ptr.drop off).take (k + 1)) os'
          List.drop_drop.symm
        rwa [List.length_drop] at hrest

theorem writen_eq (buf : List β) (os : List Outcome) :
    writen buf os = (writeDevice buf).transfer buf.length ([], os) :=
  writenLoop_eq buf.length buf buf.length 0 buf [] os rfl

/-- The first `off` items have been written, by calls that went as `used` says. -/
def WrittenTo (buf : List β) (os : List Outcome) (off : ℕ) (p : List β × List Outcome) : Prop :=
  p.1 = buf.take off ∧ ∃ used, os = used ++ p.2 ∧ .fail ∉ used

/-- The first part of the buffer has been written, all of it unless a call failed, and the
result says how much; a failure shows in it only if nothing was written before. -/
def Written (buf : List β) (os : List Outcome) (res : Option ℕ) (p : List β × List Outcome) :
    Prop :=
  ∃ used, os = used ++ p.2 ∧ p.1 <+: buf ∧ (.fail ∈ used ↔ p.1 ≠ buf) ∧
    (res = none → p.1 = [] ∧ .fail ∈ used) ∧ ∀ k, res = some k → k = p.1.length

/-- The call that fails is the last one. -/
theorem WrittenTo.failed {buf : List β} {os os' : List Outcome} {off : ℕ} {out : List β}
    (h : WrittenTo buf os off (out, .fail :: os')) (hoff : off < buf.length) :
    Written buf os (if off = 0 then none else some off) (out, os') := by
  obtain ⟨rfl, used, rfl, -⟩ := h
  have hlen : (buf.take off).length = off := List.length_take_of_le (Nat.le_of_lt hoff)
  refine ⟨used ++ [.fail], List.append_cons .., List.take_prefix _ _, ?_, ?_, ?_⟩
  · refine iff_of_true (by simp) fun hall => ?_
    have hsame : (buf.take off).length = buf.length := congrArg List.length hall
    omega
  · intro hres
    split at hres
    case isTrue hzero => exact ⟨List.length_eq_zero_iff.mp (hlen.trans hzero), by simp⟩
    case isFalse => cases hres
  · intro k hres
    split at hres
    case isTrue => cases hres
    case isFalse => exact (Option.some.inj hres).symm.trans hlen.symm

/-- Everything has been written. -/
theorem WrittenTo.all {buf : List β} {os : List Outcome} {p : List β × List Outcome}
    (h : WrittenTo buf os buf.length p) : Written buf os (some buf.length) p := by
  obtain ⟨hout, used, hos, hused⟩ := h
  rw [List.take_length] at hout
  exact ⟨used, hos, hout ▸ List.prefix_refl _, iff_of_false hused (not_not.mpr hout), nofun,
    fun k hk => by rw [hout, Option.some.inj hk]⟩

theorem keeps_written (buf : List β) (os : List Outcome) :
    (writeDevice buf).Keeps buf.length (WrittenTo buf os) (Written buf os) := by
  refine Device.keeps_of_cases ?_ WrittenTo.all
  rintro off nleft ⟨out, os₁⟩ h hn hpos
  have hlen : (buf.drop off).length = nleft := by
    rw [List.length_drop]
    omega
  have hne : buf.drop off ≠ [] := List.ne_nil_of_length_pos (hlen ▸ hpos)
  rcases write_cases hne os₁ with ⟨os', rfl, hwrite⟩ | ⟨k, used₁, os', hk, hwrite, rfl, hused₁⟩
  · refine .inl ⟨(out, os'), ?_, h.failed (by omega)⟩
    rw [writeDevice_call hlen hwrite, Option.getD_none, List.take_zero, List.append_nil]
  · obtain ⟨rfl, used, rfl, hused⟩ := h
    refine .inr ⟨k, _, writeDevice_call hlen hwrite _, List.take_add.symm, used ++ used₁,
      (List.append_assoc ..).symm, ?_⟩
    exact fun hmem => (List.mem_append.mp hmem).elim hused hused₁

/-- **What `writen` does, whatever its calls return.**  It writes the first part of the
buffer, all of it unless a call failed.  It returns the number of bytes written; -1 means
that the first call failed. -/
theorem writen_spec (buf : List β) (os : List Outcome) :
    ∃ res out used os', writen buf os = (res, out, os') ∧ os = used ++ os' ∧ out <+: buf ∧
      (.fail ∈ used ↔ out ≠ buf) ∧ (res = none → out = [] ∧ .fail ∈ used) ∧
      ∀ k, res = some k → k = out.length := by
  obtain ⟨used, hused⟩ := (keeps_written buf os).transfer (s := ([], os))
    ⟨rfl, [], rfl, List.not_mem_nil⟩
  rw [← writen_eq] at hused
  exact ⟨_, _, used, _, rfl, hused⟩

/-- **`writen` writes the whole buffer** however short the writes are, if none of them
fails. -/
theorem writen_of_reliable (buf : List β) {os : List Outcome} (hos : .fail ∉ os) :
    ∃ os', writen buf os = (some buf.length, buf, os') ∧ .fail ∉ os' := by
  obtain ⟨res, out, used, os', hwriten, rfl, -, hfailed, hnone, hsome⟩ := writen_spec buf os
  have hused : .fail ∉ used := fun h => hos (List.mem_append_left _ h)
  obtain rfl : out = buf := not_not.mp fun h => hused (hfailed.mpr h)
  cases res with
  | none => exact absurd (hnone rfl).2 hused
  | some k =>
      obtain rfl := hsome k rfl
      exact ⟨os', hwriten, fun h => hos (List.mem_append_right _ h)⟩

end Apue.FileIO
