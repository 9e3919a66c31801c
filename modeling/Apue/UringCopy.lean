/-
Apue/UringCopy.lean

The io_uring copier of `14/8_convert_rot13_io_uring.cpp`: `translate`, the two
queueing functions, the event loop of `main`, and the kernel on the other side
of the ring.

The program never looks at more than one completion at a time, and the kernel
works on submitted requests in any order.  So the ring is two lists: `sq`, the
requests the kernel has not performed yet, and `cq`, the completions `main` has
not consumed yet.  The action `perform i res` lets the kernel carry out the
`i`-th submitted request with result `res`; `complete` is one pass through the
body of the `while` loop.  Every order of completions is a choice of indices.

The model covers failing and short operations as well; what a well-behaved
kernel does is the assumption `FullKernel`, stated separately.

Left out: `argv`, the two `open` calls and the set-up of the ring.  The file
descriptors are fixed (`ifd` is the input, `ofd` the output file).
-/
import Mathlib.Data.Int.Basic
import Apue.Machine
import Apue.ByteFile

namespace Apue.UringCopy

open ByteFile

/-! ### The translation of one byte -/

/-- `isalpha` in the "C" locale. -/
def isalpha (c : UInt8) : Bool :=
  (65 ≤ c && c ≤ 90) || (97 ≤ c && c ≤ 122)

/-- `translate` (the same function in `14/7` and `14/8`). -/
def translate (c : UInt8) : UInt8 :=
  if isalpha c then
    if 110 ≤ c then c - 13        -- 'n'
    else if 97 ≤ c then c + 13    -- 'a'
    else if 78 ≤ c then c - 13    -- 'N'
    else c + 13
  else c

/-! ### Requests -/

/-- `BSZ`. -/
def bsz : ℕ := 4096

/-- `QUEUE_DEPTH`. -/
def queueDepth : ℕ := 16

theorem bsz_pos : 0 < bsz := by decide

/-- `unsigned char buf[BSZ]`. -/
structure Buf where
  bytes : List UInt8
  size_eq : bytes.length = bsz

/-- A value-initialised buffer. -/
def Buf.zero : Buf := ⟨List.replicate bsz 0, List.length_replicate⟩

/-- The kernel stores `d` at the start of the buffer. -/
def Buf.load (b : Buf) (d : List UInt8) : Buf :=
  ⟨(d ++ b.bytes.drop d.length).take bsz, by
    have := b.size_eq
    simp only [List.length_take, List.length_append, List.length_drop]
    omega⟩

/-- The loop `for (i = 0; i < n; ++i) buf[i] = f(buf[i])`. -/
def Buf.mapPrefix (b : Buf) (n : ℕ) (f : UInt8 → UInt8) : Buf :=
  ⟨(b.bytes.take n).map f ++ b.bytes.drop n, by
    have := b.size_eq
    simp only [List.length_append, List.length_map, List.length_take, List.length_drop]
    omega⟩

theorem Buf.take_load (b : Buf) {d : List UInt8} (hd : d.length ≤ bsz) :
    (b.load d).bytes.take d.length = d := by
  simp [Buf.load, List.take_take, Nat.min_eq_left hd]

theorem Buf.take_mapPrefix (b : Buf) (n : ℕ) (f : UInt8 → UInt8) (hn : n ≤ bsz) :
    (b.mapPrefix n f).bytes.take n = (b.bytes.take n).map f := by
  have hlen : ((b.bytes.take n).map f).length = n := by
    have := b.size_eq
    simp only [List.length_map, List.length_take]
    omega
  exact List.take_left' hlen

/-- `enum OpType`. -/
inductive OpType
  | opRead | opWrite
  deriving DecidableEq, Repr

/-- `struct Request`. -/
structure Request where
  id : ℕ
  type : OpType
  buf : Buf
  offset : ℕ
  iovecLen : ℤ

/-- A submission queue entry.  `data` is the user data, the request whose
buffer is also the operation's buffer. -/
structure Sqe where
  opcode : OpType
  data : Fin queueDepth
  len : ℕ
  offset : ℕ

/-- A completion queue entry. -/
structure Cqe where
  data : Fin queueDepth
  res : ℤ

/-- How `main` ends: it leaves the loop, or an error function ends it. -/
inductive Exit
  | finished
  /-- `err_sys("wait_cqe")` -/
  | waitCqe
  /-- `err_exit(res, "Async operation failed")` -/
  | asyncFailed (res : ℤ)
  /-- `err_quit("written less than read (res/len)")` -/
  | shortWrite (res len : ℤ)
  deriving DecidableEq, Repr

/-- The globals and the `requests` vector of the program, the two ends of the
ring, the output file, and the way the program ended, if it did. -/
structure State where
  globalReadOffset : ℕ
  pendingOperations : ℤ
  eofReached : Bool
  requests : Fin queueDepth → Request
  sq : List Sqe
  cq : List Cqe
  outfile : List UInt8
  exit : Option Exit

/-- `*req = r` for the request in slot `i`. -/
def State.setRequest (s : State) (i : Fin queueDepth) (r : Request) : State :=
  { s with requests := Function.update s.requests i r }

/-! ### The two queueing functions -/

/-- `queue_read`. -/
def queueRead (s : State) (i : Fin queueDepth) : State :=
  if s.eofReached then s
  else
    let req := { s.requests i with type := .opRead, offset := s.globalReadOffset }
    { s.setRequest i req with
      globalReadOffset := s.globalReadOffset + bsz
      sq := s.sq ++ [⟨.opRead, i, bsz, req.offset⟩]
      pendingOperations := s.pendingOperations + 1 }

/-- `queue_write`. -/
def queueWrite (s : State) (i : Fin queueDepth) : State :=
  let req := { s.requests i with type := .opWrite }
  { s.setRequest i req with
    sq := s.sq ++ [⟨.opWrite, i, req.iovecLen.toNat, req.offset⟩]
    pendingOperations := s.pendingOperations + 1 }

/-! ### `main` -/

/-- The request slots before the first `queue_read`. -/
def initRequest (i : Fin queueDepth) : Request :=
  { id := i, type := .opRead, buf := .zero, offset := 0, iovecLen := 0 }

/-- The state after the program's globals are initialised. -/
def blank : State :=
  { globalReadOffset := 0, pendingOperations := 0, eofReached := false,
    requests := initRequest, sq := [], cq := [], outfile := [], exit := none }

/-- The state at the head of the loop: a read is queued for every slot. -/
def initState : State := (List.finRange queueDepth).foldl queueRead blank

/-- The `OP_READ` branch of the loop body. -/
def onRead (s : State) (i : Fin queueDepth) (res : ℤ) : State :=
  if 0 < res then
    let req := s.requests i
    let s := { s with eofReached := if res < bsz then true else s.eofReached }
    queueWrite
      (s.setRequest i
        { req with iovecLen := res, buf := req.buf.mapPrefix res.toNat translate }) i
  else { s with eofReached := true }

/-- The `OP_WRITE` branch of the loop body. -/
def onWrite (s : State) (i : Fin queueDepth) (res : ℤ) : State :=
  let len := (s.requests i).iovecLen
  if res ≠ len then { s with exit := some (.shortWrite res len) }
  else queueRead s i

/-- The body of the loop, for the completion `io_uring_wait_cqe` returned. -/
def loopBody (s : State) (c : Cqe) : State :=
  let s := { s with pendingOperations := s.pendingOperations - 1 }
  if c.res < 0 then { s with exit := some (.asyncFailed c.res) }
  else
    match (s.requests c.data).type with
    | .opRead => onRead s c.data c.res
    | .opWrite => onWrite s c.data c.res

/-! ### The kernel -/

/-- The kernel performs the `i`-th submitted request with result `res`: a
negative result has no effect, a read may return any number of bytes that are
there, a write may write any number of the bytes it was given. -/
def perform (input : List UInt8) (s : State) (i : ℕ) (res : ℤ) : Option State :=
  match s.sq[i]? with
  | none => none
  | some e =>
      let s' := { s with sq := s.sq.eraseIdx i, cq := s.cq ++ [⟨e.data, res⟩] }
      if res < 0 then some s'
      else
        match e.opcode with
        | .opRead =>
            if res.toNat ≤ (pread input e.offset e.len).length then
              let req := s.requests e.data
              some (s'.setRequest e.data
                { req with buf := req.buf.load (pread input e.offset res.toNat) })
            else none
        | .opWrite =>
            if res.toNat ≤ e.len then
              let d := (s.requests e.data).buf.bytes.take res.toNat
              some { s' with outfile := pwrite s.outfile e.offset d }
            else none

/-! ### The program as a machine -/

/-- What can happen next. -/
inductive Action
  /-- the kernel performs the `i`-th submitted request with result `res` -/
  | perform (i : ℕ) (res : ℤ)
  /-- `main` consumes the oldest completion -/
  | complete
  /-- `io_uring_wait_cqe` fails -/
  | waitFail
  /-- the loop condition `pending_operations > 0` fails -/
  | leave
  deriving DecidableEq, Repr

/-- One step of the program or of the kernel. -/
def next (input : List UInt8) (s : State) : Action → Option State
  | .perform i res => if s.exit = none then perform input s i res else none
  | .complete =>
      if s.exit = none ∧ 0 < s.pendingOperations then
        match s.cq with
        | [] => none
        | c :: rest => some (loopBody { s with cq := rest } c)
      else none
  | .waitFail =>
      if s.exit = none ∧ 0 < s.pendingOperations then some { s with exit := some .waitCqe }
      else none
  | .leave =>
      if s.exit = none ∧ ¬ 0 < s.pendingOperations then some { s with exit := some .finished }
      else none

/-- The steps of the program and the kernel while the loop runs. -/
inductive Step (input : List UInt8) (s : State) : Action → State → Prop
  | perform {i : ℕ} {res : ℤ} {s' : State} :
      UringCopy.perform input s i res = some s' → Step input s (.perform i res) s'
  | complete {c : Cqe} {rest : List Cqe} : 0 < s.pendingOperations → s.cq = c :: rest →
      Step input s .complete (loopBody { s with cq := rest } c)
  | waitFail : 0 < s.pendingOperations →
      Step input s .waitFail { s with exit := some .waitCqe }
  | leave : ¬ 0 < s.pendingOperations →
      Step input s .leave { s with exit := some .finished }

theorem step_of_next {input : List UInt8} {s s' : State} {a : Action}
    (h : next input s a = some s') : s.exit = none ∧ Step input s a s' := by
  cases a with
  | perform i res =>
      simp only [next] at h
      split at h
      case isTrue hexit => exact ⟨hexit, .perform h⟩
      case isFalse => cases h
  | complete =>
      simp only [next] at h
      split at h
      case isTrue hcond =>
          rcases hcq : s.cq with _ | ⟨c, rest⟩
          · simp [hcq] at h
          · simp only [hcq, Option.some.injEq] at h
            subst h
            exact ⟨hcond.1, .complete hcond.2 hcq⟩
      case isFalse => cases h
  | waitFail =>
      simp only [next] at h
      split at h
      case isTrue hcond =>
          obtain rfl := Option.some.inj h
          exact ⟨hcond.1, .waitFail hcond.2⟩
      case isFalse => cases h
  | leave =>
      simp only [next] at h
      split at h
      case isTrue hcond =>
          obtain rfl := Option.some.inj h
          exact ⟨hcond.1, .leave hcond.2⟩
      case isFalse => cases h

/-- The copier run on a file with content `input`. -/
def copier (input : List UInt8) : Machine State Action where
  init s := s = initState
  next := next input

/-- The result of an operation that transfers all it can: `min (BSZ, size - o)`
bytes for a read at `o`, all bytes for a write. -/
def fullResult (input : List UInt8) (e : Sqe) : ℤ :=
  match e.opcode with
  | .opRead => (min bsz (input.length - e.offset) : ℕ)
  | .opWrite => e.len

/-- The kernel assumed for correctness: every operation it performs transfers
all it can. -/
def FullKernel (input : List UInt8) (s : State) : Action → Prop
  | .perform i res => (s.sq[i]?).all fun e => res = fullResult input e
  | _ => True

instance (input : List UInt8) (s : State) (a : Action) :
    Decidable (FullKernel input s a) :=
  match a with
  | .perform _ _ => inferInstanceAs (Decidable (_ = true))
  | .complete | .waitFail | .leave => .isTrue trivial

/-- The copier on top of such a kernel. -/
def fullCopier (input : List UInt8) : Machine State Action :=
  (copier input).restrict (FullKernel input)

end Apue.UringCopy
