/-
Apue/UnixSocket.lean

Passing descriptors over a UNIX stream socket (`lib/apue_unix_socket.cpp`):
`unix_socket_send_fd`, `unix_socket_recv_fd`, `unix_socket_send_request` and
`unix_socket_process_request`.

The stream is a list of bytes, each with the files that `SCM_RIGHTS` has attached
to it: `sendmsg` attaches a file to the first byte of its message, and `recvmsg`
opens a descriptor, in the receiver's own table, for every file attached to a byte
it returns, as far as they fit into its control buffer.  The calls of `recvmsg` and
`read` may be short or fail as an `Outcome` list says.

`φ` is the type of open files.  Sockets are UNIX sockets, so
`unix_socket_check_domain` always succeeds, and so does `setsockopt`.
-/
import Mathlib.Data.Int.Basic
import Apue.FdTable
import Apue.FileIO
import Apue.FormatMessage
import Apue.IStream

namespace Apue.UnixSocket

open ByteCodec FileIO

variable {φ : Type*}

/-! ### Data -/

/-- `UNIX_SOCKET_MAX_MSG_SIZE`. -/
def maxMsgSize : ℕ := 1024

/-- `UNIX_SOCKET_MAX_ERR_MSG_SIZE`. -/
def maxErrMsgSize : ℕ := 1024

/-- The outcome of a request. -/
structure StatusMsg where
  code : BitVec 32 := 0
  msg : List UInt8 := []
  deriving DecidableEq

def StatusMsg.hasError (s : StatusMsg) : Bool := s.code != 0 || !s.msg.isEmpty

def StatusMsg.toString (strerror : ℤ → List UInt8) (s : StatusMsg) : List UInt8 :=
  s.msg ++
    if s.code ≠ 0 then (if s.msg.isEmpty then [] else ofText ": ") ++ strerror s.code.toInt else []

/-- What precedes the message on the wire. -/
structure WireHeader where
  code : BitVec 32
  msgLen : ℕ

/-- `sizeof(WireHeader)`: an `int`, four bytes of padding, a `size_t`. -/
def sizeofHeader : ℕ := 16

/-- The bytes of a header.  The padding is whatever was there. -/
def WireHeader.bytes (h : WireHeader) (pad : BitVec 32) : List UInt8 :=
  toLE 4 h.code.toNat ++ toLE 4 pad.toNat ++ toLE 8 h.msgLen

/-- The header with these bytes. -/
def WireHeader.ofBytes (bs : List UInt8) : WireHeader where
  code := BitVec.ofNat 32 (ofLE (bs.take 4))
  msgLen := ofLE ((bs.drop 8).take 8)

/-- A byte in the stream and the files attached to it. -/
abbrev Cell (φ : Type*) := UInt8 × List φ

/-- The cells of a `sendmsg` with these bytes and files. -/
def cells (files : List φ) : List UInt8 → List (Cell φ)
  | [] => []
  | b :: bs => (b, files) :: bs.map fun b => (b, [])

/-! ### The sender -/

/-- `unix_socket_send_fd`: what is put into the stream.  `none` is a failed
`sendmsg`: the descriptor to be attached is not open. -/
def sendFd (fds : FdTable φ) (pad : BitVec 32) (fdToSend : ℤ) (status : Option StatusMsg) :
    Option (List (Cell φ)) :=
  let status := status.getD {}
  let header : WireHeader := ⟨status.code, min status.msg.length maxErrMsgSize⟩
  let bytes := header.bytes pad ++ status.msg.take header.msgLen
  if 0 ≤ fdToSend ∧ status.hasError = false then
    (fds.get fdToSend.toNat).map fun f => cells [f] bytes
  else some (cells [] bytes)

/-! ### The receiver -/

/-- The receiving end of a socket and the receiver's descriptors. -/
structure Sock (φ : Type*) where
  stream : Source (Cell φ)
  /-- how the next calls of `recvmsg` will go -/
  recvs : List Outcome
  fds : FdTable φ
  peerUid : ℕ

/-- An ancillary item. -/
inductive Cmsg
  | rights (fds : List ℕ)
  | credentials (uid : ℕ)
  deriving DecidableEq, Repr

/-- Open a descriptor for each of the files. -/
def install (fds : FdTable φ) : List φ → List ℕ × FdTable φ
  | [] => ([], fds)
  | f :: fs =>
      let (ns, fds') := install (fds.insert f) fs
      (fds.lowest :: ns, fds')

/-- How many descriptors fit into the receiver's control buffer, which has
`CMSG_SPACE(sizeof(int)) + CMSG_SPACE(sizeof(struct ucred))` = 24 + 32 bytes: the
credentials come first and leave 24, of which the head of the item takes 16. -/
def maxRights : ℕ := 2

/-- `recvmsg` with `SO_PASSCRED` and room for `n` bytes: the bytes, the ancillary
items, and the socket afterwards.  Files that do not fit into the control buffer are
dropped. -/
def Sock.recvmsg (s : Sock φ) (n : ℕ) : Option (List UInt8 × List Cmsg) × Sock φ :=
  match (Source.mk s.stream.data s.recvs).read n with
  | (none, src) => (none, { s with recvs := src.sched })
  | (some cs, src) =>
      let (ns, fds) := install s.fds ((cs.flatMap Prod.snd).take maxRights)
      let cmsgs := .credentials s.peerUid :: if ns = [] then [] else [.rights ns]
      (some (cs.map Prod.fst, cmsgs),
        { s with stream := ⟨src.data, s.stream.sched⟩, recvs := src.sched, fds := fds })

/-- What `unix_socket_recv_fd` reports: a text of its own, through `err_msg` or `err_ret`,
or the status it has received, through `err_msg(status.toString())`. -/
inductive Diag
  | errMsg (s : String)
  | errRet (s : String)
  | remote (status : StatusMsg)
  deriving DecidableEq

/-- The line that is printed.  The received text is the format string. -/
def Diag.print (env : Messages.Env) (errno : ℤ) : Diag → List UInt8
  | .errMsg s => Messages.errMsg env (ofText s)
  | .errRet s => Messages.errRet env errno (ofText s)
  | .remote status => Messages.errMsg env (status.toString env.strerror)

/-- The result of `unix_socket_recv_fd`: what it returns, the status it has decoded,
what it reports, and what it stores at `uidptr` if that is not null. -/
structure Received where
  ret : ℤ
  status : Option StatusMsg := none
  diag : Option Diag := none
  uid : Option ℕ := none
  deriving DecidableEq

/-- The loop over the ancillary items. -/
def scanCmsgs : List Cmsg → ℤ → Option ℕ → ℤ × Option ℕ
  | [], receivedFd, uid => (receivedFd, uid)
  | .rights (n :: _) :: cs, _, uid => scanCmsgs cs n uid
  | .rights [] :: cs, receivedFd, uid => scanCmsgs cs receivedFd uid
  | .credentials u :: cs, receivedFd, _ => scanCmsgs cs receivedFd (some u)

/-- The end of `unix_socket_recv_fd`, when the status is known. -/
def Received.ofStatus (status : StatusMsg) (cmsgs : List Cmsg) : Received :=
  if status.hasError then { ret := -1, status := some status, diag := some (.remote status) }
  else
    let (receivedFd, uid) := scanCmsgs cmsgs (-1) none
    { ret := receivedFd, status := some status, uid := uid,
      diag := if receivedFd = -1 then
          some (.errRet "[unix_socket_recv_fd] Protocol OK but no FD received")
        else none }

/-- `unix_socket_recv_fd`. -/
def recvFd (s : Sock φ) : Received × Sock φ :=
  match s.recvmsg sizeofHeader with
  | (none, s) => ({ ret := -1, diag := some (.errRet "[unix_socket_recv_fd] call recvmsg") }, s)
  | (some (bytes, cmsgs), s) =>
      if bytes.length < sizeofHeader then
        ({ ret := -1,
           diag := some (.errMsg "[unix_socket_recv_fd] Protocol message too short") }, s)
      else
        let header := WireHeader.ofBytes bytes
        if 0 < header.msgLen then
          if maxErrMsgSize < header.msgLen then
            ({ ret := -1,
               diag := some (.errMsg "[unix_socket_recv_fd] Protocol message error too long") }, s)
          else
            match readn s.stream header.msgLen with
            | (none, _, src) =>
                ({ ret := -1,
                   diag := some
                    (.errMsg "[unix_socket_recv_fd] Protocol failed to read message body") },
                  { s with stream := src })
            | (some _, buf, src) =>
                -- the string was resized before, so what is missing stays zero
                let remoteMsg := buf.map Prod.fst ++ List.replicate (header.msgLen - buf.length) 0
                (.ofStatus ⟨header.code, remoteMsg⟩ cmsgs, { s with stream := src })
        else (.ofStatus ⟨header.code, []⟩ cmsgs, s)

/-! ### The client's request -/

/-- `UNIX_SOCKET_COMMAND::OPEN`. -/
def opOpen : ℤ := 0

/-- The text `req` of a request. -/
def requestText (cmd : ℤ) (path : List UInt8) (mode : BitVec 32) : List UInt8 :=
  intToDec cmd ++ ofText " " ++ path ++ ofText " " ++ intToDec mode.toInt

/-- `unix_socket_send_request`: what it returns, what has been written to the socket, and
how the next writes will go. -/
def sendRequest (os : List Outcome) (cmd : ℤ) (path : List UInt8) (mode : BitVec 32) :
    ℤ × List UInt8 × List Outcome :=
  match writen (requestText cmd path mode) os with
  | (none, sent, os') => (-1, sent, os')
  | (some _, sent, os') => (0, sent, os')

/-! ### The server -/

/-- The values of `errno` after a failed call. -/
abbrev Errno := { e : BitVec 32 // e ≠ 0 }

/-- How `open(path, flags)` will go. -/
abbrev Opens (φ : Type*) := List UInt8 → BitVec 32 → Except Errno φ

/-- `path_str.c_str()` as the kernel reads it. -/
def cStr (path : List UInt8) : List UInt8 := path.takeWhile (· != 0)

theorem zero_notMem_cStr (path : List UInt8) : 0 ∉ cStr path := by
  intro hmem
  have := List.mem_takeWhile_imp hmem
  simp at this

theorem cStr_of_notMem {path : List UInt8} (h : 0 ∉ path) : cStr path = path := by
  rw [cStr, List.takeWhile_eq_self_iff]
  intro b hb
  have hne : b ≠ 0 := fun he => h (he ▸ hb)
  simpa using hne

/-- `open(path_str.c_str(), mode_val)` in the server: the descriptor or -1, the
status, and the table. -/
def openTarget (opens : Opens φ) (fds : FdTable φ) (path : List UInt8) (mode : ℤ) :
    ℤ × StatusMsg × FdTable φ :=
  match opens (cStr path) (BitVec.ofInt 32 mode) with
  | .ok f => (fds.lowest, {}, fds.insert f)
  | .error e => (-1, { code := e.1 }, fds)

/-- The end of `unix_socket_process_request`: send the reply and close the target.
The messages sent and the table are returned. -/
def replyAndClose (pad : BitVec 32) :
    ℤ × StatusMsg × FdTable φ → List (List (Cell φ)) × FdTable φ
  | (targetFd, status, fds) =>
      let sent := if status.hasError then sendFd fds pad (-1) (some status)
        else sendFd fds pad targetFd none
      (sent.toList, if 0 ≤ targetFd then fds.close targetFd.toNat else fds)

/-- `unix_socket_process_request`: the replies sent, and the server's table. -/
def processRequest (opens : Opens φ) (pad : BitVec 32) (fds : FdTable φ)
    (request : List UInt8) : List (List (Cell φ)) × FdTable φ :=
  match (IStream.ofBytes request).extractInt with
  | (none, _) =>
      ((sendFd fds pad (-1)
        (some { msg := ofText "Empty request or invalid opcode format" })).toList, fds)
  | (some op, ss) =>
      replyAndClose pad <|
        if op = opOpen then
          match ss.extractWord with
          | (some path, ss) =>
              match ss.extractInt with
              | (some mode, _) => openTarget opens fds path mode
              | (none, _) =>
                  (-1, { msg := ofText "Invalid arguments for OPEN (expected: path mode)" }, fds)
          | (none, _) =>
              (-1, { msg := ofText "Invalid arguments for OPEN (expected: path mode)" }, fds)
        else (-1, { msg := ofText "Unknown command opcode: " ++ intToDec op }, fds)

end Apue.UnixSocket
