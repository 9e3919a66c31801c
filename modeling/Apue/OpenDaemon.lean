/-
Apue/OpenDaemon.lean

The event loop of the open daemon, `17/5_unix_socket_transmit_fd_daemon_server.cpp`.

Accepts and reads of all clients are in one ring, and complete in any order.  A
request is a heap object whose address is the tag of its entry; addresses are not
used again here, so that a use after `delete` shows (`Pc.fault`), whether the daemon
or the kernel does it.  Descriptor numbers are used again: the kernel installs an
accepted connection at a free number, and `close` frees it.

What happens to a connection is recorded in a log, under the connection that a
descriptor number is open on when it is used.

Left out: the set-up before the loop and the clean-up after it, and what is written to
the system log.  `io_uring_submit` does not fail.  A reply to a client that is gone is
lost; the signal `SIGPIPE` that it raises is not modelled.
-/
import Apue.IoRing
import Apue.Machine
import Apue.OpenRequest

namespace Apue.OpenDaemon

open UnixSocket

/-! ### State -/

/-- What a descriptor of the daemon is open on. -/
inductive Obj (φ : Type*)
  | listener
  | conn (c : ℕ)
  | file (f : φ)
  deriving DecidableEq

inductive OpType
  | accept
  | read
  deriving DecidableEq, Repr

/-- `struct Request`.  An accept does not set `client_fd`; the buffer is not initialised
either, and holds what was written to it. -/
structure Request where
  type : OpType
  clientFd : ℕ := 0
  buffer : List UInt8 := []

/-- The entries of the submission queue: a queue depth of 10, rounded up by the kernel. -/
def sqEntries : ℕ := 16

/-- A prepared operation. -/
structure Sqe where
  op : OpType
  fd : ℕ

/-- An operation in flight, on what its descriptor was open on when it was issued. -/
structure Flight (φ : Type*) where
  op : OpType
  file : Option (Obj φ)
  deriving DecidableEq

/-- What happens to a connection; a read that failed has no bytes. -/
inductive Event (φ : Type*)
  | accepted
  | queued
  | read (r : Option (List UInt8))
  | replied (m : List (Cell (Obj φ)))
  | closed

/-- The next operation of the daemon. -/
inductive Pc
  | addAccept                         -- add_accept_request(listen_fd)
  | submit                            -- io_uring_submit(&ring)
  | waitCqe                           -- io_uring_wait_cqe(&ring, &cqe)
  | switch (req : ℕ) (res : ℤ)        -- switch (req->type)
  | addRead (req : ℕ) (clientFd : ℕ)  -- add_read_request(client_fd)
  | addAcceptAgain (req : ℕ)          -- add_accept_request(listen_fd)
  | handle (req : ℕ) (len : ℕ)        -- handle_client_request(req->client_fd, req->buffer, res)
  | close (req : ℕ)                   -- close(req->client_fd)
  | delete (req : ℕ)                  -- delete req
  | cqeSeen                           -- io_uring_cqe_seen(&ring, cqe)
  | submitAgain                       -- io_uring_submit(&ring)
  | exited
  | fault                             -- a freed request or a missing queue entry was used
  deriving DecidableEq, Repr

/-- The state of the daemon and of its part of the kernel. -/
structure State (φ : Type*) where
  pc : Pc
  heap : ℕ → Option Request
  nextReq : ℕ
  ring : IoRing Sqe (Flight φ) ℤ
  fds : FdTable (Obj φ)
  nextConn : ℕ
  log : List (ℕ × Event φ)
  /-- the requests deleted, in order -/
  freed : List ℕ

/-- The daemon before its loop. -/
def initState {φ : Type*} (fds : FdTable (Obj φ)) : State φ where
  pc := .addAccept
  heap := fun _ => none
  nextReq := 0
  ring := .empty
  fds := fds
  nextConn := 0
  log := []
  freed := []

variable {φ : Type*}

/-- Record `e` for the connection that `o` is, if it is one. -/
def record (o : Option (Obj φ)) (e : Event φ) : List (ℕ × Event φ) :=
  match o with
  | some (.conn c) => [(c, e)]
  | _ => []

/-! ### The daemon -/

variable (s : State φ)

/-- The daemon continues at `p`. -/
def State.goto (p : Pc) : State φ := { s with pc := p }

/-- `io_uring_get_sqe`, `new Request` and `io_uring_prep_*`, then on to `p`. -/
def State.addRequest (req : Request) (sqe : Sqe) (p : Pc) : State φ :=
  if s.ring.sq.length < sqEntries then
    { s with
      pc := p
      heap := Function.update s.heap s.nextReq (some req)
      nextReq := s.nextReq + 1
      ring := s.ring.prep s.nextReq sqe }
  else s.goto .fault

/-- `add_accept_request`. -/
def State.addAcceptRequest (lfd : ℕ) (p : Pc) : State φ :=
  s.addRequest { type := .accept } ⟨.accept, lfd⟩ p

/-- `add_read_request`. -/
def State.addReadRequest (cfd : ℕ) (p : Pc) : State φ :=
  s.addRequest { type := .read, clientFd := cfd } ⟨.read, cfd⟩ p

/-- `io_uring_submit`: the kernel issues the prepared operations one by one, then the
daemon continues at `p`. -/
def State.submit (p : Pc) : State φ :=
  match s.ring.sq with
  | [] => s.goto p
  | (i, sqe) :: _ =>
      { s with
        ring := s.ring.issue i ⟨sqe.op, s.fds.get sqe.fd⟩
        log := s.log ++ if sqe.op = .read then record (s.fds.get sqe.fd) .queued else [] }

/-- `switch (req->type)`: what to do with a completion. -/
def dispatch (req : ℕ) (res : ℤ) : OpType → Pc
  | .accept => if 0 ≤ res then .addRead req res.toNat else .delete req
  | .read => if 0 < res then .handle req res.toNat else .close req

/-- One operation of the daemon, apart from `handle_client_request`. -/
def step (listenFd : ℕ) : Option (State φ) :=
  match s.pc with
  | .addAccept => some (s.addAcceptRequest listenFd .submit)
  | .submit => some (s.submit .waitCqe)
  | .waitCqe =>
      match s.ring.cq with
      | [] => none
      | (req, res) :: _ => some { s with pc := .switch req res, ring := s.ring.peek }
  | .switch req res =>
      match s.heap req with
      | none => some (s.goto .fault)
      | some r => some (s.goto (dispatch req res r.type))
  | .addRead req fd => some (s.addReadRequest fd (.addAcceptAgain req))
  | .addAcceptAgain req => some (s.addAcceptRequest listenFd (.delete req))
  | .close req =>
      match s.heap req with
      | none => some (s.goto .fault)
      | some r =>
          some { s with
            pc := .delete req
            fds := s.fds.close r.clientFd
            log := s.log ++ record (s.fds.get r.clientFd) .closed }
  | .delete req =>
      match s.heap req with
      | none => some (s.goto .fault)
      | some _ =>
          some { s with
            pc := .cqeSeen
            heap := Function.update s.heap req none
            freed := s.freed ++ [req] }
  | .cqeSeen => some { s with pc := .submitAgain, ring := s.ring.advance }
  | .submitAgain => some (s.submit .addAccept)
  | .handle _ _ | .exited | .fault => none

/-- How `open` will go in the daemon. -/
def fileOpens (opens : Opens φ) : Opens (Obj φ) := fun path flags => (opens path flags).map .file

/-- `handle_client_request`: the reply goes to what `client_fd` is open on, unless sending
fails. -/
def handleClientRequest (opens : Opens φ) (pad : BitVec 32) (sent : Bool) : Option (State φ) :=
  match s.pc with
  | .handle req len =>
      match s.heap req with
      | none => some (s.goto .fault)
      | some r =>
          let result := processRequest (fileOpens opens) pad s.fds (r.buffer.take len)
          let replies := if sent then result.1 else []
          some { s with
            pc := .close req
            fds := result.2
            log := s.log ++ replies.flatMap fun m => record (s.fds.get r.clientFd) (.replied m) }
  | _ => none

/-! ### The kernel -/

variable [DecidableEq φ]

/-- An accept completes: a new connection, at the free descriptor `n`.  The address of
the client is stored in the request. -/
def accepts (i n : ℕ) : Option (State φ) :=
  if (i, ⟨.accept, some .listener⟩) ∈ s.ring.inflight ∧ s.fds.get n = none then
    match s.heap i with
    | none => some (s.goto .fault)
    | some _ =>
        some { s with
          ring := s.ring.complete i ⟨.accept, some .listener⟩ n
          fds := s.fds.openAt n (.conn s.nextConn)
          nextConn := s.nextConn + 1
          log := s.log ++ [(s.nextConn, .accepted)] }
  else none

/-- A read of connection `c` completes with these bytes, none at the end of file. -/
def reads (i c : ℕ) (bytes : List UInt8) : Option (State φ) :=
  if (i, ⟨.read, some (.conn c)⟩) ∈ s.ring.inflight ∧ bytes.length ≤ maxMsgSize then
    match s.heap i with
    | none => some (s.goto .fault)
    | some r =>
        some { s with
          heap := Function.update s.heap i
            (some { r with buffer := bytes ++ r.buffer.drop bytes.length })
          ring := s.ring.complete i ⟨.read, some (.conn c)⟩ bytes.length
          log := s.log ++ [(c, .read (some bytes))] }
  else none

/-- An operation fails. -/
def fails (i : ℕ) (f : Flight φ) (errno : ℕ) : Option (State φ) :=
  if (i, f) ∈ s.ring.inflight ∧ 0 < errno then
    some { s with
      ring := s.ring.complete i f (-errno)
      log := s.log ++ if f.op = .read then record f.file (.read none) else [] }
  else none

/-- What can happen next. -/
inductive Action (φ : Type*)
  | step
  | handle (opens : Opens φ) (pad : BitVec 32) (sent : Bool)
  | waitFails
  | accepts (i n : ℕ)
  | reads (i c : ℕ) (bytes : List UInt8)
  | fails (i : ℕ) (f : Flight φ) (errno : ℕ)

/-- One step of the daemon or of the kernel. -/
def next (listenFd : ℕ) (s : State φ) : Action φ → Option (State φ)
  | .step => step s listenFd
  | .handle opens pad sent => handleClientRequest s opens pad sent
  | .waitFails => if s.pc = .waitCqe then some (s.goto .exited) else none
  | .accepts i n => accepts s i n
  | .reads i c bytes => reads s i c bytes
  | .fails i f errno => fails s i f errno

/-- A table with the listening socket at `listenFd` and without connections. -/
def Listening (listenFd : ℕ) (fds : FdTable (Obj φ)) : Prop :=
  fds.get listenFd = some .listener ∧ ∀ n c, fds.get n ≠ some (.conn c)

omit [DecidableEq φ] in
/-- The daemon with its listening socket only. -/
theorem listening_single : Listening 0 (⟨[some .listener]⟩ : FdTable (Obj φ)) := by
  refine ⟨rfl, fun n c hn => ?_⟩
  match n with
  | 0 => cases hn
  | n + 1 => cases hn

/-- The daemon and its clients. -/
def daemon (φ : Type*) [DecidableEq φ] (listenFd : ℕ) : Machine (State φ) (Action φ) where
  init s := ∃ fds, Listening listenFd fds ∧ s = initState fds
  next := next listenFd

end Apue.OpenDaemon
