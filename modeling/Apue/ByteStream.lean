/-
Apue/ByteStream.lean

`readn` and `writen` of `lib/apue_file.cpp` at the two ends of a stream.

Here the calls of `read` and `write` may fail, transfer nothing, or transfer any part of
what was asked, in any order; and the buffer is memory, in which the two loops move their
pointer.  Both are the loop of `TransferLoop` over a device of their own:

* `readn` over the reading end and the memory at `ptr`;
* `writen` over the writing end, which takes what is at `ptr`.

Whatever the calls return, the two report an error exactly if their first call failed, and
otherwise what was transferred, which is a first part of the data; without failing and empty
calls a block goes through unchanged (`readn_writen_stream`).

`FileIO` has the same functions for calls that do not return 0 before the end of the stream
(`readn_of_fileIO`, `writen_of_fileIO`).
-/
import Apue.FileIO
import Apue.TransferLoop

namespace Apue.ByteStream

variable {β : Type*}

/-! ### Streams -/

/-- What the kernel does with one call. -/
inductive Reply
  /-- the result is -1 -/
  | fail
  /-- the result is 0 -/
  | zero
  /-- at most `c + 1` items are transferred -/
  | upTo (c : ℕ)
  deriving DecidableEq, Repr

/-- The result of the next call, which can transfer `avail` items.  An exhausted list stands
for calls that transfer all they can. -/
def nextReply (avail : ℕ) : List Reply → Option ℕ × List Reply
  | [] => (some avail, [])
  | .fail :: rs => (none, rs)
  | .zero :: rs => (some 0, rs)
  | .upTo c :: rs => (some (min avail (c + 1)), rs)

/-- A stream: what was written and not yet read, and how the calls at its ends will go. -/
structure Stream (β : Type*) where
  queue : List β
  writes : List Reply
  reads : List Reply

/-- `write(fd, buf, nleft)`, with `buf` at the first item of the list. -/
def Stream.write (s : Stream β) (buf : List β) (nleft : ℕ) : Option ℕ × Stream β :=
  let r := nextReply nleft s.writes
  (r.1, { s with queue := s.queue ++ buf.take (r.1.getD 0), writes := r.2 })

/-- `read(fd, buf, nleft)`: what was read, `none` for -1. -/
def Stream.read (s : Stream β) (nleft : ℕ) : Option (List β) × Stream β :=
  let r := nextReply (min nleft s.queue.length) s.reads
  (r.1.map s.queue.take, { s with queue := s.queue.drop (r.1.getD 0), reads := r.2 })

/-- Memory with the items `d` stored at an offset. -/
def store (mem : List β) (off : ℕ) (d : List β) : List β :=
  mem.take off ++ d ++ mem.drop (off + d.length)

theorem nextReply_le {avail k : ℕ} {rs rs' : List Reply}
    (h : nextReply avail rs = (some k, rs')) : k ≤ avail := by
  match rs with
  | [] => exact Nat.le_of_eq (Option.some.inj (Prod.mk.inj h).1).symm
  | .fail :: rs => cases (Prod.mk.inj h).1
  | .zero :: rs =>
      rw [← Option.some.inj (Prod.mk.inj h).1]
      exact Nat.zero_le _
  | .upTo c :: rs =>
      rw [← Option.some.inj (Prod.mk.inj h).1]
      exact Nat.min_le_left _ _

/-! ### `readn` and `writen` -/

/-- The memory at `ptr` and the reading end. -/
def reader : Device (List β × Stream β) where
  call p off nleft :=
    let r := p.2.read nleft
    (r.1.map List.length, store p.1 off (r.1.getD []), r.2)
  call_le := fun {p off nleft k p'} h => by
    obtain ⟨d, hd, rfl⟩ := Option.map_eq_some_iff.mp (Prod.mk.inj h).1
    obtain ⟨k, hk, rfl⟩ := Option.map_eq_some_iff.mp hd
    have hle := nextReply_le (Prod.ext hk rfl)
    exact Nat.le_trans (List.length_take_le _ _) (Nat.le_trans hle (Nat.min_le_left _ _))

/-- The writing end, with what is at `ptr`. -/
def writer (ptr : List β) : Device (Stream β) where
  call s off nleft := s.write (ptr.drop off) nleft
  call_le := fun h => nextReply_le (Prod.ext (Prod.mk.inj h).1 rfl)

/-- `readn(fd, ptr, n)`: the count returned, the memory at `ptr`, and the stream. -/
def readn (s : Stream β) (ptr : List β) (n : ℕ) : Option ℕ × List β × Stream β :=
  reader.transfer n (ptr, s)

/-- `writen(fd, ptr, n)`: the count returned, and the stream. -/
def writen (s : Stream β) (ptr : List β) (n : ℕ) : Option ℕ × Stream β :=
  (writer ptr).transfer n s

/-! ### The bytes of a transfer -/

section Bytes

variable {s s' : Stream β} {ptr mem : List β} {n off nleft : ℕ}

/-- What a read returns is taken from the front of the stream. -/
theorem Stream.read_queue (s : Stream β) (nleft : ℕ) :
    s.queue = (s.read nleft).1.getD [] ++ (s.read nleft).2.queue := by
  unfold Stream.read
  rcases nextReply (min nleft s.queue.length) s.reads with ⟨_ | k, rs⟩
  · rfl
  · exact (List.take_append_drop k s.queue).symm

/-- The first `off` items of the stream `s` are at `ptr`, and the others are still there. -/
structure Stored (s : Stream β) (ptr : List β) (off : ℕ) (p : List β × Stream β) : Prop where
  mem : p.1 = s.queue.take off ++ ptr.drop off
  queue : p.2.queue = s.queue.drop off
  le : off ≤ s.queue.length
  writes : p.2.writes = s.writes

/-- Storing at the offset goes on where the last call stopped. -/
theorem store_append (taken ptr d : List β) :
    store (taken ++ ptr.drop taken.length) taken.length d
      = (taken ++ d) ++ ptr.drop (taken ++ d).length := by
  rw [store, List.take_left, List.length_append, List.drop_append, List.drop_drop,
    List.drop_of_length_le (Nat.le_add_right _ _), List.nil_append, Nat.add_sub_cancel_left]

/-- One call of `read`. -/
theorem Stored.call {p p' : List β × Stream β} {r : Option ℕ} (h : Stored s ptr off p)
    (hcall : reader.call p off nleft = (r, p')) : Stored s ptr (off + r.getD 0) p' := by
  obtain ⟨hr, rfl⟩ := Prod.mk.inj hcall
  have hread := p.2.read_queue nleft
  have hlen : ((p.2.read nleft).1.getD []).length = r.getD 0 := by
    rw [← hr]
    cases (p.2.read nleft).1 <;> rfl
  have hsplit : s.queue.drop off = (p.2.read nleft).1.getD [] ++ (p.2.read nleft).2.queue :=
    h.queue.symm.trans hread
  have hle := h.le
  have htaken : (s.queue.take off).length = off := List.length_take_of_le hle
  constructor
  · show store p.1 off _ = _
    have hstore := store_append (s.queue.take off) ptr ((p.2.read nleft).1.getD [])
    rw [List.length_append, htaken, hlen] at hstore
    rw [h.mem, hstore, List.take_add, hsplit, ← hlen, List.take_left]
  · show (p.2.read nleft).2.queue = _
    rw [← List.drop_drop, hsplit, ← hlen, List.drop_left]
  · have htotal := congrArg List.length hsplit
    rw [List.length_drop, List.length_append, hlen] at htotal
    omega
  · exact h.writes

/-- The first `off` items at `ptr` have been appended to the stream `s`. -/
structure Sent (s : Stream β) (ptr : List β) (off : ℕ) (s' : Stream β) : Prop where
  queue : s'.queue = s.queue ++ ptr.take off
  reads : s'.reads = s.reads

/-- One call of `write`. -/
theorem Sent.call {s₁ : Stream β} {r : Option ℕ} (h : Sent s ptr off s₁)
    (hcall : (writer ptr).call s₁ off nleft = (r, s')) : Sent s ptr (off + r.getD 0) s' := by
  obtain ⟨rfl, rfl⟩ := Prod.mk.inj hcall
  constructor
  · show s₁.queue ++ (ptr.drop off).take _ = _
    rw [h.queue, List.append_assoc, ← List.take_add]
  · exact h.reads

theorem keeps_stored (s : Stream β) (ptr : List β) (n : ℕ) :
    reader.Keeps n (Stored s ptr) fun res p => Stored s ptr (res.getD 0) p where
  fail := fun {off nleft p p'} h _ _ hcall => by
    rw [Device.getD_failed]
    exact h.call hcall
  zero := fun h _ _ hcall => h.call hcall
  more := fun h _ hcall => h.call hcall
  done := fun h => h

theorem keeps_sent (s : Stream β) (ptr : List β) (n : ℕ) :
    (writer ptr).Keeps n (Sent s ptr) fun res s' => Sent s ptr (res.getD 0) s' where
  fail := fun {off nleft p p'} h _ _ hcall => by
    rw [Device.getD_failed]
    exact h.call hcall
  zero := fun h _ _ hcall => h.call hcall
  more := fun h _ hcall => h.call hcall
  done := fun h => h

/-- **`readn` stores the first items of the stream at `ptr`**, as many as it reports. -/
theorem readn_stored (s : Stream β) (ptr : List β) (n : ℕ) :
    Stored s ptr ((readn s ptr n).1.getD 0) (readn s ptr n).2 :=
  (keeps_stored s ptr n).transfer ⟨by simp, by simp, Nat.zero_le _, rfl⟩

/-- **`writen` appends the first items at `ptr` to the stream**, as many as it reports. -/
theorem writen_sent (s : Stream β) (ptr : List β) (n : ℕ) :
    Sent s ptr ((writen s ptr n).1.getD 0) (writen s ptr n).2 :=
  (keeps_sent s ptr n).transfer ⟨by simp, rfl⟩

end Bytes

/-! ### Short calls -/

/-- Every call transfers something. -/
def Short (rs : List Reply) : Prop := ∀ r ∈ rs, ∃ c, r = .upTo c

theorem Short.next {rs : List Reply} (h : Short rs) {avail : ℕ} (hpos : 0 < avail) :
    ∃ k rs', nextReply avail rs = (some (k + 1), rs') ∧ Short rs' := by
  match rs with
  | [] =>
      obtain ⟨k, rfl⟩ := Nat.exists_eq_succ_of_ne_zero (Nat.ne_of_gt hpos)
      exact ⟨k, [], rfl, h⟩
  | r :: rs =>
      obtain ⟨c, rfl⟩ := h r List.mem_cons_self
      refine ⟨min avail (c + 1) - 1, rs, ?_, fun r hr => h r (List.mem_cons_of_mem _ hr)⟩
      show (some (min avail (c + 1)), rs) = _
      congr 2
      omega

/-- `writen` writes everything if its calls all transfer something. -/
theorem writen_of_short {s : Stream β} (h : Short s.writes) (ptr : List β) (n : ℕ) :
    (writen s ptr n).1 = some n := by
  refine ((Device.keeps_of_moving (I := fun _ s => Short s.writes) ?_).transfer h).1
  intro off nleft s hs _ hpos
  obtain ⟨k, rs, hnext, hrs⟩ := hs.next hpos
  refine ⟨k, _, Prod.ext ?_ rfl, ?_⟩
  · show (nextReply nleft s.writes).1 = _
    rw [hnext]
  · show Short (nextReply nleft s.writes).2
    rw [hnext]
    exact hrs

/-- `readn` reads everything if its calls all transfer something and it is there. -/
theorem readn_of_short {s : Stream β} (h : Short s.reads) (ptr : List β) {n : ℕ}
    (hn : n ≤ s.queue.length) : (readn s ptr n).1 = some n := by
  refine ((Device.keeps_of_moving (I := fun off p =>
    Short p.2.reads ∧ n ≤ off + p.2.queue.length) ?_).transfer
      ⟨h, Nat.le_trans hn (Nat.le_of_eq (Nat.zero_add _).symm)⟩).1
  rintro off nleft ⟨mem, s⟩ ⟨hs, hlen⟩ hoff hpos
  change Short s.reads at hs
  change n ≤ off + s.queue.length at hlen
  -- the rest of the `n` items is in the stream
  have havail : min nleft s.queue.length = nleft := by omega
  obtain ⟨k, rs, hnext, hrs⟩ := hs.next hpos
  have hk : k + 1 ≤ nleft := nextReply_le hnext
  have hread : s.read nleft
      = (some (s.queue.take (k + 1)), { s with queue := s.queue.drop (k + 1), reads := rs }) := by
    rw [Stream.read, havail, hnext]
    rfl
  refine ⟨k, _, Prod.ext ?_ rfl, ?_⟩
  · show (s.read nleft).1.map List.length = _
    rw [hread, Option.map_some, List.length_take_of_le (by omega)]
  · show Short (s.read nleft).2.reads ∧ n ≤ off + (k + 1) + (s.read nleft).2.queue.length
    rw [hread]
    refine ⟨hrs, ?_⟩
    rw [List.length_drop]
    omega

/-! ### Every schedule -/

/-- **`readn` and `writen` over a stream.**  If every call transfers something, a block of
`n` items that is written and then read is reproduced, and both report `n`.  Whatever the
calls return, `writen` appends to the stream, and `readn` takes from it and stores at `ptr`,
a first part of the data; and each reports, from the results of its calls, an error exactly
if the first call failed and otherwise the number of items transferred, and makes no call
after one that failed or returned 0. -/
theorem readn_writen_stream {β : Type*} :
    (∀ (s : Stream β) (block ptr : List β) (n : ℕ), n ≤ block.length → s.queue = [] →
      Short s.writes → Short s.reads → ∃ s₁ s₂, writen s block n = (some n, s₁) ∧
        readn s₁ ptr n = (some n, block.take n ++ ptr.drop n, s₂) ∧ s₂.queue = []) ∧
    (∀ (s : Stream β) (block : List β) (n : ℕ), n ≤ block.length → ∃ res s' rs sent,
      (writer block).recorded.transfer n (s, []) = (res, s', rs) ∧
        writen s block n = (res, s') ∧ Device.Reports n res rs ∧
        sent.length = res.getD 0 ∧ sent <+: block ∧ s'.queue = s.queue ++ sent) ∧
    ∀ (s : Stream β) (ptr : List β) (n : ℕ), ∃ res mem s' rs taken,
      reader.recorded.transfer n ((ptr, s), []) = (res, (mem, s'), rs) ∧
        readn s ptr n = (res, mem, s') ∧ Device.Reports n res rs ∧
        taken.length = res.getD 0 ∧ s.queue = taken ++ s'.queue ∧
        mem = taken ++ ptr.drop taken.length := by
  refine ⟨fun s block ptr n hn hempty hwrites hreads => ?_, fun s block n hn => ?_,
    fun s ptr n => ?_⟩
  · have hwriten := writen_of_short hwrites block n
    have hsent := writen_sent s block n
    rw [hwriten, Option.getD_some] at hsent
    have hqueue : (writen s block n).2.queue = block.take n := by
      rw [hsent.queue, hempty, List.nil_append]
    have hlen : (block.take n).length = n := List.length_take_of_le hn
    have hthere : n ≤ (writen s block n).2.queue.length := Nat.le_of_eq (by rw [hqueue, hlen])
    have hreadn := readn_of_short (hsent.reads ▸ hreads) ptr hthere
    have hstored := readn_stored (writen s block n).2 ptr n
    rw [hreadn, Option.getD_some] at hstored
    refine ⟨_, _, Prod.ext hwriten rfl, Prod.ext hreadn (Prod.ext ?_ rfl), ?_⟩
    · rw [hstored.mem, hqueue, List.take_of_length_le (Nat.le_of_eq hlen)]
    · rw [hstored.queue, hqueue, List.drop_of_length_le (Nat.le_of_eq hlen)]
  · obtain ⟨rs, hrec, hreports⟩ := Device.transfer_recorded (writer block) n s
    have hle : (writen s block n).1.getD 0 ≤ n := Device.transfer_le (writer block) n s
    exact ⟨_, _, rs, _, hrec, rfl, hreports, List.length_take_of_le (Nat.le_trans hle hn),
      List.take_prefix _ _, (writen_sent s block n).queue⟩
  · obtain ⟨rs, hrec, hreports⟩ := Device.transfer_recorded reader n (ptr, s)
    have hstored := readn_stored s ptr n
    have hlen := List.length_take_of_le hstored.le
    refine ⟨_, _, _, rs, _, hrec, rfl, hreports, hlen, ?_, ?_⟩
    · exact (List.take_append_drop _ _).symm.trans (congrArg _ hstored.queue.symm)
    · rw [hlen]
      exact hstored.mem

/-- Four items in three writes and three reads. -/
def shortCalls : Stream ℕ := ⟨[], [.upTo 0, .upTo 1], [.upTo 1, .upTo 0]⟩

theorem shortCalls_reproduced : ∃ s₁ s₂, writen shortCalls [1, 2, 3, 4] 4 = (some 4, s₁) ∧
    readn s₁ [0, 0, 0, 0, 9] 4 = (some 4, [1, 2, 3, 4, 9], s₂) ∧ s₂.queue = [] :=
  readn_writen_stream.1 shortCalls [1, 2, 3, 4] [0, 0, 0, 0, 9] 4 (by decide) rfl
    (by simp [Short, shortCalls]) (by simp [Short, shortCalls])

/-! ### `FileIO` -/

/-- The calls of `FileIO` never return 0 before the end of the stream. -/
def Reply.ofOutcome : FileIO.Outcome → Reply
  | .fail => .fail
  | .upTo c => .upTo c

/-- The stream whose reading end is a source of `FileIO`. -/
def Stream.ofSource (src : FileIO.Source β) (writes : List Reply) : Stream β :=
  ⟨src.data, writes, src.sched.map Reply.ofOutcome⟩

theorem read_ofSource (src : FileIO.Source β) (writes : List Reply) (n : ℕ) :
    (Stream.ofSource src writes).read n
      = ((src.read n).1, Stream.ofSource (src.read n).2 writes) := by
  obtain ⟨data, sched⟩ := src
  -- taking and dropping do not go past the end
  have htake : ∀ k, data.take (min k data.length) = data.take k := by
    intro k
    rw [← List.take_take, List.take_length]
  have hdrop : ∀ k, data.drop (min k data.length) = data.drop k := by
    intro k
    rcases Nat.le_total k data.length with h | h
    · rw [Nat.min_eq_left h]
    · rw [Nat.min_eq_right h, List.drop_length, List.drop_of_length_le h]
  match sched with
  | [] =>
      show (some (data.take (min n data.length)),
        (⟨data.drop (min n data.length), _, _⟩ : Stream β)) = _
      rw [htake, hdrop]
      rfl
  | .fail :: os => rfl
  | .upTo c :: os =>
      show (some (data.take (min (min n data.length) (c + 1))),
        (⟨data.drop (min (min n data.length) (c + 1)), _, _⟩ : Stream β)) = _
      rw [Nat.min_right_comm, htake, hdrop]
      rfl

/-- The memory at `ptr` holds what was stored, and the source is at the reading end. -/
def AtReader (ptr : List β) (writes : List Reply) (off : ℕ) (p : List β × FileIO.Source β)
    (q : List β × Stream β) : Prop :=
  p.1.length = off ∧ q = (p.1 ++ ptr.drop p.1.length, Stream.ofSource p.2 writes)

theorem related_reader (n : ℕ) (ptr : List β) (writes : List Reply) :
    Device.Related FileIO.readDevice reader n (AtReader ptr writes) := by
  rintro off nleft ⟨buf, src⟩ q ⟨rfl, rfl⟩ -
  have hread := read_ofSource src writes nleft
  have hcall : FileIO.readDevice.call (buf, src) buf.length nleft = (_, _) := rfl
  have hstored := FileIO.readDevice_call hcall
  refine ⟨?_, hstored.2, ?_⟩
  · show ((Stream.ofSource src writes).read nleft).1.map List.length = _
    rw [hread]
    rfl
  · show (store (buf ++ ptr.drop buf.length) buf.length
      (((Stream.ofSource src writes).read nleft).1.getD []), _) = _
    rw [hread, store_append]
    rfl

/-- `readn` of `FileIO` is `readn` on the stream of the source. -/
theorem readn_of_fileIO {src src' : FileIO.Source β} {n : ℕ} {res : Option ℕ} {buf : List β}
    (h : FileIO.readn src n = (res, buf, src')) (writes : List Reply) (ptr : List β) :
    readn (Stream.ofSource src writes) ptr n
      = (res, buf ++ ptr.drop buf.length, Stream.ofSource src' writes) := by
  obtain ⟨hres, -, -, hend⟩ := (related_reader n ptr writes).transfer
    (s := ([], src)) (t := (ptr, Stream.ofSource src writes)) ⟨rfl, rfl⟩
  rw [← FileIO.readn_eq, h] at hres hend
  exact Prod.ext hres hend

/-- The stream whose writing end goes on with outcomes of `FileIO`. -/
def Stream.ofOutcomes (queue : List β) (os : List FileIO.Outcome) (reads : List Reply) :
    Stream β :=
  ⟨queue, os.map Reply.ofOutcome, reads⟩

theorem nextReply_ofOutcome {buf : List β} {os os' : List FileIO.Outcome} {r : Option ℕ}
    (h : FileIO.write buf os = (r, os')) :
    nextReply buf.length (os.map Reply.ofOutcome) = (r, os'.map Reply.ofOutcome) := by
  match os with
  | [] =>
      cases h
      rfl
  | .fail :: os =>
      cases h
      rfl
  | .upTo c :: os =>
      cases h
      rfl

open FileIO (writeDevice) in
theorem related_writer (ptr queue : List β) (reads : List Reply) :
    Device.Related (writeDevice ptr) (writer ptr) ptr.length fun _ p s =>
      s = .ofOutcomes (queue ++ p.1) p.2 reads := by
  rintro off nleft ⟨out, os⟩ s rfl hn
  have hlen : (ptr.drop off).length = nleft := by
    rw [List.length_drop]
    omega
  rcases hwrite : FileIO.write (ptr.drop off) os with ⟨r, os'⟩
  have hnext := nextReply_ofOutcome hwrite
  have hcall : (writer ptr).call (.ofOutcomes (queue ++ out) os reads) off nleft
      = (r, .ofOutcomes (queue ++ (out ++ (ptr.drop off).take (r.getD 0))) os' reads) := by
    rw [hlen] at hnext
    simp only [writer, Stream.write, Stream.ofOutcomes, hnext, List.append_assoc]
  rw [hcall, FileIO.writeDevice_call hlen hwrite]
  exact ⟨rfl, rfl⟩

/-- `writen` of `FileIO` is `writen` on the stream with its outcomes. -/
theorem writen_of_fileIO {buf out : List β} {os os' : List FileIO.Outcome} {res : Option ℕ}
    (h : FileIO.writen buf os = (res, out, os')) (queue : List β) (reads : List Reply) :
    writen (.ofOutcomes queue os reads) buf buf.length
      = (res, .ofOutcomes (queue ++ out) os' reads) := by
  obtain ⟨hres, -, hend⟩ := (related_writer buf queue reads).transfer
    (s := ([], os)) (t := .ofOutcomes queue os reads) (by rw [List.append_nil])
  rw [← FileIO.writen_eq, h] at hres hend
  exact Prod.ext hres hend

end Apue.ByteStream
