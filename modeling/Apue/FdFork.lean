/-
Apue/FdFork.lean

`unix_socket_client_open` of `17/3_unix_socket_transmit_fd_fork.cpp`: a process opens a file
through a child that it forks for this.

The two are connected by a socket pair.  The parent writes its request, in as many pieces as
`write` likes; the child reads what there is and answers each piece it has read with one
message, with the descriptor in it if the piece is a request that can be granted.  The parent
takes the first answer, closes its socket and waits for the child, which ends when it reads the
end of the stream, or is killed by SIGPIPE if it answers once more.

Each direction of the connection holds up to `cap` bytes.  A `write` takes as much as there is
room for and waits if there is none; `sendmsg` waits until the whole answer fits.  A `write` may
fail, a `read` or `recvmsg` does not.

What the parent gets is the file that it has asked for or nothing (`clientOpen_returns`): the
mode, `O_RDONLY`, is one digit, so that no piece of the request is a request for something else.
It gets the file only if the child has read the request at once.  The parent has then exactly the
descriptors it had before, and the new one.

If the request fits into the socket, the parent returns however the two are scheduled
(`clientOpen_ends`).  It reads no answer before it has written all of the request, so that with a
longer one both may wait for room (`clientOpen_blocks`).

If the first `write` fails, the function returns with its socket open and the child not waited
for.
-/
import Apue.RequestText
import Apue.UnixSocketReceive

namespace Apue.FdFork

open UnixSocket FileIO IStream ByteCodec

variable {φ : Type*}

/-! ### The machine -/

inductive ClientPc
  /-- in `writen`, with what is left; the flag says that nothing has been written yet -/
  | write (first : Bool) (left : List UInt8)
  | recv
  | close (fd : ℤ)
  | wait (fd : ℤ)
  | returned (fd : ℤ)
  deriving DecidableEq, Repr

inductive ServerPc
  | read
  /-- in `sendmsg`, with an answer -/
  | send
  | exited
  | killed
  deriving DecidableEq, Repr

def ServerPc.ended : ServerPc → Bool
  | .exited | .killed => true
  | _ => false

structure State (φ : Type*) where
  client : ClientPc
  server : ServerPc
  /-- what the server has not read yet -/
  requests : List UInt8
  /-- what the client has not read yet -/
  replies : List (Cell φ)
  /-- the answer that the server has not sent yet -/
  reply : List (Cell φ)
  clientFds : FdTable φ
  serverFds : FdTable φ
  /-- the texts that were processed -/
  served : List (List UInt8)

inductive Act
  /-- a `write` that takes at most this many bytes more than one -/
  | write (n : ℕ)
  | writeFails
  /-- `unix_socket_recv_fd`, with the lengths of its reads -/
  | recv (sched : List Outcome)
  | close
  | wait
  /-- a `read` of at most this many bytes more than one, and the work on it -/
  | serve (n : ℕ) (pad : BitVec 32)
  | send
  | serverEnd
  deriving DecidableEq

/-- The client has closed its end. -/
def ClientPc.closed : ClientPc → Bool
  | .wait _ => true
  | _ => false

section Source

variable (opens : Opens φ) (cap : ℕ) (path : List UInt8) (fds : FdTable φ) (e₀ e₁ : φ)

/-- The table after `socketpair`, with the two ends of the connection. -/
def paired : FdTable φ := (fds.insert e₀).insert e₁

/-- `sockfd[0]` and `sockfd[1]`. -/
def sockfd₀ : ℕ := fds.lowest

def sockfd₁ : ℕ := (fds.insert e₀).lowest

/-- After the last byte the client goes on to receive. -/
def writing (left : List UInt8) : ClientPc := if left = [] then .recv else .write false left

def step (s : State φ) : Act → Option (State φ)
  | .write n =>
      match s.client with
      | .write _ left =>
          if s.requests.length < cap then
            let k := min (n + 1) (cap - s.requests.length)
            some { s with client := writing (left.drop k), requests := s.requests ++ left.take k }
          else none
      | _ => none
  | .writeFails =>
      match s.client with
      | .write true _ => some { s with client := .returned (-1) }
      | .write false _ => some { s with client := .recv }
      | _ => none
  | .recv sched =>
      if s.client = .recv ∧ (s.replies ≠ [] ∨ s.server.ended = true) ∧ .fail ∉ sched then
        let res := recvFd ⟨⟨s.replies, sched⟩, [], s.clientFds, 0⟩
        some { s with client := .close res.1.ret, replies := res.2.stream.data,
                      clientFds := res.2.fds }
      else none
  | .close =>
      match s.client with
      | .close r => some { s with client := .wait r, clientFds := s.clientFds.close (sockfd₀ fds) }
      | _ => none
  | .wait =>
      match s.client with
      | .wait r => if s.server.ended then some { s with client := .returned r } else none
      | _ => none
  | .serve n pad =>
      if s.server = .read ∧ s.requests ≠ [] then
        let buf := s.requests.take (min (n + 1) maxMsgSize)
        let res := processRequest opens pad s.serverFds buf
        some { s with server := .send, requests := s.requests.drop buf.length,
                      reply := res.1.flatten, serverFds := res.2, served := s.served ++ [buf] }
      else none
  | .send =>
      if s.server = .send then
        if s.client.closed then some { s with server := .killed }
        else if s.replies.length + s.reply.length ≤ cap then
          some { s with server := .read, replies := s.replies ++ s.reply, reply := [] }
        else none
      else none
  | .serverEnd =>
      if s.server = .read ∧ s.requests = [] ∧ s.client.closed = true then
        some { s with server := .exited }
      else none

/-- `O_RDONLY`. -/
def oRdonly : BitVec 32 := 0

/-- What the client writes. -/
def text : List UInt8 := requestText opOpen path oRdonly

def initState : State φ where
  client := .write true (text path)
  server := .read
  requests := []
  replies := []
  reply := []
  clientFds := (paired fds e₀ e₁).close (sockfd₁ fds e₀)
  serverFds := (paired fds e₀ e₁).close (sockfd₀ fds)
  served := []

/-- `unix_socket_client_open(path, O_RDONLY)` and its child, after `fork`. -/
def clientOpen : Machine (State φ) Act where
  init s := s = initState path fds e₀ e₁
  next := step opens cap fds

end Source

/-! ### What the client receives -/

section Receive

/-- What the answer to `q` comes to, in a table `t` that becomes `t'`. -/
def Got (opens : Opens φ) (q : List UInt8) (r : ℤ) (t t' : FdTable φ) : Prop :=
  (∃ f n, Grants opens q f ∧ r = (n : ℕ) ∧ t.Adds t' n f) ∨
    (¬∃ f, Grants opens q f) ∧ r = -1 ∧ t'.get = t.get

/-- Every text is answered with one message. -/
theorem exists_msg (opens : Opens φ) (pad : BitVec 32) (sfds : FdTable φ) (q : List UInt8) :
    ∃ fds fd status msg, sendFd fds pad fd status = some msg ∧
      (processRequest opens pad sfds q).1 = [msg] ∧
      ((∃ f, Grants opens q f ∧ (status.getD {}).hasError = false ∧
          attached fds fd (status.getD {}) = [f]) ∨
        (¬∃ f, Grants opens q f) ∧ (status.getD {}).hasError = true ∧
          attached fds fd (status.getD {}) = []) := by
  rcases processRequest_cases opens pad sfds q with ⟨f, hf, heq⟩ | ⟨hno, status, herr, heq⟩
  · have hcond : (0 : ℤ) ≤ sfds.lowest ∧ StatusMsg.hasError {} = false :=
      ⟨Int.natCast_nonneg _, rfl⟩
    have hattach : attached (sfds.insert f) sfds.lowest {} = [f] := by
      rw [attached, if_pos hcond, Int.toNat_natCast, sfds.get_insert_lowest]
      rfl
    obtain ⟨msg, hmsg⟩ : ∃ msg, sendFd (sfds.insert f) pad sfds.lowest none = some msg := by
      unfold sendFd
      simp only [Option.getD_none, if_pos hcond, Int.toNat_natCast, sfds.get_insert_lowest]
      exact ⟨_, rfl⟩
    exact ⟨_, _, _, msg, hmsg, by rw [heq, hmsg]; rfl, .inl ⟨f, hf, rfl, hattach⟩⟩
  · obtain ⟨msg, hmsg⟩ : ∃ msg, sendFd sfds pad (-1) (some status) = some msg := ⟨_, rfl⟩
    exact ⟨_, _, _, msg, hmsg, by rw [heq, hmsg]; rfl, .inr ⟨hno, herr, rfl⟩⟩

/-- The length of an answer. -/
theorem length_reply (opens : Opens φ) (pad : BitVec 32) (sfds : FdTable φ) (q : List UInt8) :
    0 < (processRequest opens pad sfds q).1.flatten.length ∧
      (processRequest opens pad sfds q).1.flatten.length ≤ sizeofHeader + maxErrMsgSize := by
  obtain ⟨fds, fd, status, msg, hmsg, heq, -⟩ := exists_msg opens pad sfds q
  have hle := (status.getD {}).length_truncate_le
  rw [heq, List.flatten_singleton, sendFd_eq_some hmsg, length_cells, List.length_append,
    WireHeader.length_bytes, sizeofHeader]
  omega

/-- The client takes an answer for what it is. -/
theorem got_of_reply {opens : Opens φ} {pad : BitVec 32} {sfds : FdTable φ} {q : List UInt8}
    {rest : List (Cell φ)} {s : Sock φ} (hrecvs : s.recvs = []) (hrel : s.stream.Reliable)
    (hdata : s.stream.data = (processRequest opens pad sfds q).1.flatten ++ rest) :
    Got opens q (recvFd s).1.ret s.fds (recvFd s).2.fds := by
  obtain ⟨fds, fd, status, msg, hmsg, heq, hcases⟩ := exists_msg opens pad sfds q
  rw [heq, List.flatten_singleton] at hdata
  obtain ⟨s', hr, -, -, -, hfds⟩ := recvFd_sendFd hmsg hrecvs hrel hdata
  rw [hr, ret_ofStatus, StatusMsg.hasError_truncate]
  rcases hcases with ⟨f, hf, herr, hattach⟩ | ⟨hno, herr, hattach⟩
  · rw [hattach] at hfds ⊢
    refine .inl ⟨f, s.fds.lowest, hf, by rw [herr]; rfl, ?_⟩
    rw [show s'.fds = s.fds.insert f from hfds]
    exact s.fds.adds_insert f
  · rw [hattach] at hfds
    exact .inr ⟨hno, by rw [herr, if_pos rfl], congrArg FdTable.get hfds⟩

end Receive

/-! ### Pieces of the request -/

section Pieces

variable {opens : Opens φ} {path q : List UInt8} {f : φ}

/-- A piece of the text that asks for a file is the whole text, and asks for this one. -/
theorem grants_iff (hne : path ≠ []) (hpath : ∀ b ∈ path, isSpace b = false) (hnul : 0 ∉ path)
    (hq : q ≠ []) (hpre : q <+: text path) :
    Grants opens q f ↔ q = text path ∧ opens path oRdonly = .ok f := by
  have htext : text path = intToDec opOpen ++ ofText " " ++ path ++ ofText " " ++ toDec 0 := rfl
  rw [htext] at hpre ⊢
  by_cases hcut : q <+: intToDec opOpen ++ ofText " " ++ path ++ ofText " "
  · refine iff_of_false ?_ ?_
    · rintro ⟨p, m, hreq, -⟩
      exact not_isOpenRequest_of_cut hpath hq hcut hreq
    · rintro ⟨rfl, -⟩
      have hlen := hcut.length_le
      rw [List.length_append] at hlen
      exact absurd hlen (by simp [toDec])
  · -- the mode is one digit, so nothing is missing
    obtain ⟨ds, rfl⟩ := (List.prefix_or_prefix_of_prefix hpre
      (List.prefix_append _ _)).resolve_left hcut
    have hds : ds <+: toDec 0 := (List.prefix_append_right_inj _).mp hpre
    have hds' : ds ≠ [] := by
      rintro rfl
      exact hcut ⟨[], by rw [List.append_nil, List.append_nil]⟩
    obtain rfl : ds = toDec 0 := hds.eq_of_length_le (List.length_pos_of_ne_nil hds')
    have hiff : ∀ {p : List UInt8} {m : ℤ}, _ ↔ p = path ∧ m = _ :=
      isOpenRequest_digits_iff hne hpath hds hds' (by decide)
    rw [eq_self_iff_true, true_and]
    constructor
    · rintro ⟨p, m, hreq, hopen⟩
      obtain ⟨rfl, rfl⟩ := hiff.mp hreq
      rwa [cStr_of_notMem hnul] at hopen
    · intro hopen
      exact ⟨path, _, hiff.mpr ⟨rfl, rfl⟩, by rwa [cStr_of_notMem hnul]⟩

end Pieces

/-! ### The invariant -/

section Invariant

variable (opens : Opens φ) (path : List UInt8) (fds : FdTable φ) (e₀ e₁ : φ)

/-- The table of the client while it has its socket. -/
def connected : FdTable φ := (paired fds e₀ e₁).close (sockfd₁ fds e₀)

theorem adds_connected : fds.Adds (connected fds e₀ e₁) (sockfd₀ fds) e₀ :=
  (fds.adds_insert e₀).of_get_eq ((fds.insert e₀).get_close_insert e₁)

/-- The client has not received anything yet, and the answers are in the order of the
pieces. -/
structure Pending (s : State φ) : Prop where
  server : s.server.ended = false
  fds : s.clientFds = connected fds e₀ e₁
  replies : s.served = [] ∧ s.server = .read ∧ s.replies = [] ∨
    ∃ q qs pad sfds, s.served = q :: qs ∧
      ((s.server = .send ∧ s.replies = [] ∧ s.reply = (processRequest opens pad sfds q).1.flatten) ∨
        ∃ rest, s.replies = (processRequest opens pad sfds q).1.flatten ++ rest)

/-- The client has taken the answer to the first piece. -/
def Settled (s : State φ) (r : ℤ) (t : FdTable φ) : Prop :=
  ∃ q qs, s.served = q :: qs ∧ Got opens q r t s.clientFds

/-- Nothing was sent, and the child is left alone. -/
structure Leaked (s : State φ) (r : ℤ) : Prop where
  ret : r = -1
  server : s.server = .read
  requests : s.requests = []
  served : s.served = []
  fds : s.clientFds = connected fds e₀ e₁

/-- What holds at each place of the client. -/
def AtPc (s : State φ) : ClientPc → Prop
  | .write first left => Pending opens fds e₀ e₁ s ∧ left ≠ [] ∧
      s.served.flatten ++ s.requests ++ left = text path ∧
      (first = true ↔ s.served.flatten ++ s.requests = [])
  | .recv => Pending opens fds e₀ e₁ s ∧ s.served.flatten ++ s.requests ≠ []
  | .close r => s.server.ended = false ∧ Settled opens s r (connected fds e₀ e₁)
  | .wait r => Settled opens s r fds
  | .returned r => s.server.ended = true ∧ Settled opens s r fds ∨ Leaked fds e₀ e₁ s r

structure Inv (s : State φ) : Prop where
  sent : s.served.flatten ++ s.requests <+: text path
  pieces : ∀ q ∈ s.served, q ≠ []
  reply : s.reply.length ≤ sizeofHeader + maxErrMsgSize
  pc : AtPc opens path fds e₀ e₁ s s.client

variable {opens path fds e₀ e₁} {s : State φ} {r : ℤ}

theorem inv_init : Inv opens path fds e₀ e₁ (initState path fds e₀ e₁) := by
  have htext : text path ≠ [] := by
    rw [text, requestText_open]
    exact List.cons_ne_nil _ _
  refine ⟨List.nil_prefix, nofun, Nat.zero_le _, ⟨rfl, rfl, .inl ⟨rfl, rfl, rfl⟩⟩, htext, rfl, ?_⟩
  exact iff_of_true rfl rfl

theorem Inv.write (h : Inv opens path fds e₀ e₁ s) {first : Bool} {left : List UInt8}
    (hc : s.client = .write first left) {k : ℕ} (hk : 0 < k) :
    Inv opens path fds e₀ e₁ { s with client := writing (left.drop k),
                                      requests := s.requests ++ left.take k } := by
  have hpc := h.pc
  rw [hc] at hpc
  obtain ⟨hpending, hleft, htext, -⟩ := hpc
  have hsent : s.served.flatten ++ (s.requests ++ left.take k) ++ left.drop k = text path := by
    rw [← List.append_assoc, List.append_assoc, List.take_append_drop, htext]
  have hne : s.served.flatten ++ (s.requests ++ left.take k) ≠ [] := by
    simp [hleft, hk.ne']
  refine ⟨⟨_, hsent⟩, h.pieces, h.reply, ?_⟩
  by_cases hend : left.drop k = []
  · simp only [writing, if_pos hend]
    exact ⟨⟨hpending.server, hpending.fds, hpending.replies⟩, hne⟩
  · simp only [writing, if_neg hend]
    exact ⟨⟨hpending.server, hpending.fds, hpending.replies⟩, hend, hsent,
      iff_of_false Bool.false_ne_true hne⟩

theorem Inv.writeFails_first (h : Inv opens path fds e₀ e₁ s) {left : List UInt8}
    (hc : s.client = .write true left) :
    Inv opens path fds e₀ e₁ { s with client := .returned (-1) } := by
  have hpc := h.pc
  rw [hc] at hpc
  obtain ⟨hpending, -, -, hfirst⟩ := hpc
  have hnone : s.served.flatten ++ s.requests = [] := hfirst.mp rfl
  obtain ⟨hflatten, hrequests⟩ := List.append_eq_nil_iff.mp hnone
  have hserved : s.served = [] := by
    refine List.eq_nil_iff_forall_not_mem.mpr fun q hq => ?_
    exact h.pieces q hq (List.flatten_eq_nil_iff.mp hflatten q hq)
  have hserver : s.server = .read := by
    rcases hpending.replies with ⟨-, hread, -⟩ | ⟨q, qs, pad, sfds, hq, -⟩
    · exact hread
    · rw [hserved] at hq
      cases hq
  exact ⟨h.sent, h.pieces, h.reply, .inr ⟨rfl, hserver, hrequests, hserved, hpending.fds⟩⟩

theorem Inv.writeFails_later (h : Inv opens path fds e₀ e₁ s) {left : List UInt8}
    (hc : s.client = .write false left) :
    Inv opens path fds e₀ e₁ { s with client := .recv } := by
  have hpc := h.pc
  rw [hc] at hpc
  obtain ⟨hpending, -, -, hfirst⟩ := hpc
  refine ⟨h.sent, h.pieces, h.reply, ⟨hpending.server, hpending.fds, hpending.replies⟩, ?_⟩
  exact fun hnone => Bool.false_ne_true (hfirst.mpr hnone)

theorem Inv.recv (h : Inv opens path fds e₀ e₁ s) (hc : s.client = .recv)
    (hready : s.replies ≠ [] ∨ s.server.ended = true) {sched : List Outcome}
    (hsched : .fail ∉ sched) :
    Inv opens path fds e₀ e₁
      { s with client := .close (recvFd ⟨⟨s.replies, sched⟩, [], s.clientFds, 0⟩).1.ret,
               replies := (recvFd ⟨⟨s.replies, sched⟩, [], s.clientFds, 0⟩).2.stream.data,
               clientFds := (recvFd ⟨⟨s.replies, sched⟩, [], s.clientFds, 0⟩).2.fds } := by
  have hpc := h.pc
  rw [hc] at hpc
  obtain ⟨⟨hserver, hfds, hreplies⟩, -⟩ := hpc
  have hsome := hready.resolve_right (Bool.eq_false_iff.mp hserver)
  rcases hreplies with ⟨-, -, hnone⟩ | ⟨q, qs, pad, sfds, hserved, ⟨-, hnone, -⟩ | ⟨rest, hdata⟩⟩
  · exact absurd hnone hsome
  · exact absurd hnone hsome
  · refine ⟨h.sent, h.pieces, h.reply, hserver, q, qs, hserved, ?_⟩
    rw [← hfds]
    exact got_of_reply rfl hsched hdata

theorem Inv.close (h : Inv opens path fds e₀ e₁ s) (hc : s.client = .close r) :
    Inv opens path fds e₀ e₁
      { s with client := .wait r, clientFds := s.clientFds.close (sockfd₀ fds) } := by
  have hpc := h.pc
  rw [hc] at hpc
  obtain ⟨-, q, qs, hserved, hgot⟩ := hpc
  refine ⟨h.sent, h.pieces, h.reply, q, qs, hserved, ?_⟩
  rcases hgot with ⟨f, n, hf, hr, hadds⟩ | ⟨hno, hr, hget⟩
  · exact .inl ⟨f, n, hf, hr, (adds_connected fds e₀ e₁).close_first hadds⟩
  · refine .inr ⟨hno, hr, ?_⟩
    have hadds : fds.Adds s.clientFds (sockfd₀ fds) e₀ := (adds_connected fds e₀ e₁).of_get_eq hget
    exact hadds.get_close

theorem Inv.wait (h : Inv opens path fds e₀ e₁ s) (hc : s.client = .wait r)
    (hended : s.server.ended = true) :
    Inv opens path fds e₀ e₁ { s with client := .returned r } := by
  have hpc := h.pc
  rw [hc] at hpc
  exact ⟨h.sent, h.pieces, h.reply, .inl ⟨hended, hpc⟩⟩

/-- The state when the server has read `buf` and is about to answer. -/
def serving (opens : Opens φ) (pad : BitVec 32) (s : State φ) (buf : List UInt8) : State φ :=
  { s with server := .send, requests := s.requests.drop buf.length,
           reply := (processRequest opens pad s.serverFds buf).1.flatten,
           serverFds := (processRequest opens pad s.serverFds buf).2,
           served := s.served ++ [buf] }

theorem Pending.serving (h : Pending opens fds e₀ e₁ s) (hserver : s.server = .read)
    (pad : BitVec 32) (buf : List UInt8) :
    Pending opens fds e₀ e₁ (serving opens pad s buf) := by
  refine ⟨rfl, h.fds, .inr ?_⟩
  rcases h.replies with ⟨hserved, -, hnone⟩ | ⟨q, qs, pad', sfds, hserved, hreplies⟩
  · refine ⟨buf, [], pad, s.serverFds, ?_, .inl ⟨rfl, hnone, rfl⟩⟩
    rw [FdFork.serving, hserved]
    rfl
  · refine ⟨q, qs ++ [buf], pad', sfds, by rw [FdFork.serving, hserved]; rfl, .inr ?_⟩
    exact hreplies.resolve_left fun hsend => absurd (hserver.symm.trans hsend.1) nofun

theorem Settled.serving {t : FdTable φ} (h : Settled opens s r t) (pad : BitVec 32)
    (buf : List UInt8) : Settled opens (serving opens pad s buf) r t := by
  obtain ⟨q, qs, hserved, hgot⟩ := h
  refine ⟨q, qs ++ [buf], ?_, hgot⟩
  rw [FdFork.serving, hserved]
  rfl

theorem Inv.serve (h : Inv opens path fds e₀ e₁ s) (hserver : s.server = .read)
    {buf : List UInt8} (hbuf : buf ≠ []) (hpre : buf <+: s.requests) (pad : BitVec 32) :
    Inv opens path fds e₀ e₁ (serving opens pad s buf) := by
  -- what was sent is the same, with the bound between the two sides moved
  have hsent : (serving opens pad s buf).served.flatten ++ (serving opens pad s buf).requests =
      s.served.flatten ++ s.requests := by
    obtain ⟨rest, hrest⟩ := hpre
    simp [serving, ← hrest]
  have hpieces : ∀ q ∈ s.served ++ [buf], q ≠ [] := by
    intro q hq
    rcases List.mem_append.mp hq with hq | hq
    · exact h.pieces q hq
    · rwa [List.mem_singleton.mp hq]
  refine ⟨hsent ▸ h.sent, hpieces, (length_reply opens pad s.serverFds buf).2, ?_⟩
  have hpc := h.pc
  change AtPc opens path fds e₀ e₁ (serving opens pad s buf) s.client
  cases hc : s.client with
  | write first left =>
      rw [hc] at hpc
      obtain ⟨hpending, hleft, htext, hfirst⟩ := hpc
      refine ⟨hpending.serving hserver pad buf, hleft, ?_, ?_⟩
      · rw [hsent, htext]
      · rw [hsent, hfirst]
  | recv =>
      rw [hc] at hpc
      refine ⟨hpc.1.serving hserver pad buf, ?_⟩
      rw [hsent]
      exact hpc.2
  | close r =>
      rw [hc] at hpc
      exact ⟨rfl, hpc.2.serving pad buf⟩
  | wait r =>
      rw [hc] at hpc
      exact Settled.serving hpc pad buf
  | returned r =>
      rw [hc] at hpc
      rcases hpc with ⟨hended, -⟩ | hleaked
      · rw [hserver] at hended
        cases hended
      · rw [hleaked.requests] at hpre
        exact absurd (List.prefix_nil.mp hpre) hbuf

/-- The state when the answer is in the socket. -/
def answered (s : State φ) : State φ :=
  { s with server := .read, replies := s.replies ++ s.reply, reply := [] }

theorem Pending.answered (h : Pending opens fds e₀ e₁ s) (hserver : s.server = .send) :
    Pending opens fds e₀ e₁ (answered s) := by
  refine ⟨rfl, h.fds, ?_⟩
  rcases h.replies with ⟨-, hread, -⟩ | ⟨q, qs, pad, sfds, hserved, hreplies⟩
  · exact absurd (hserver.symm.trans hread) nofun
  · refine .inr ⟨q, qs, pad, sfds, hserved, .inr ?_⟩
    rcases hreplies with ⟨-, hnone, hreply⟩ | ⟨rest, hdata⟩
    · exact ⟨[], by simp [FdFork.answered, hnone, hreply]⟩
    · exact ⟨rest ++ s.reply, by simp [FdFork.answered, hdata]⟩

theorem Inv.send (h : Inv opens path fds e₀ e₁ s) (hserver : s.server = .send) :
    Inv opens path fds e₀ e₁ (answered s) := by
  refine ⟨h.sent, h.pieces, Nat.zero_le _, ?_⟩
  have hpc := h.pc
  change AtPc opens path fds e₀ e₁ (answered s) s.client
  cases hc : s.client with
  | write first left =>
      rw [hc] at hpc
      exact ⟨hpc.1.answered hserver, hpc.2⟩
  | recv =>
      rw [hc] at hpc
      exact ⟨hpc.1.answered hserver, hpc.2⟩
  | close r =>
      rw [hc] at hpc
      exact ⟨rfl, hpc.2⟩
  | wait r =>
      rw [hc] at hpc
      exact hpc
  | returned r =>
      rw [hc] at hpc
      rcases hpc with ⟨hended, -⟩ | hleaked
      · rw [hserver] at hended
        cases hended
      · exact absurd (hserver.symm.trans hleaked.server) nofun

/-- The server ends, when the client has closed its socket. -/
theorem Inv.ends (h : Inv opens path fds e₀ e₁ s) (hclosed : s.client.closed = true)
    (server : ServerPc) : Inv opens path fds e₀ e₁ { s with server := server } := by
  have hpc := h.pc
  refine ⟨h.sent, h.pieces, h.reply, ?_⟩
  change AtPc opens path fds e₀ e₁ { s with server := server } s.client
  cases hc : s.client with
  | wait r =>
      rw [hc] at hpc
      exact hpc
  | _ =>
      rw [hc] at hclosed
      cases hclosed

/-- What a step is. -/
inductive Steps (opens : Opens φ) (fds : FdTable φ) (s : State φ) : Act → State φ → Prop
  | write {first : Bool} {left : List UInt8} {n k : ℕ} : s.client = .write first left → 0 < k →
      Steps opens fds s (.write n)
        { s with client := writing (left.drop k), requests := s.requests ++ left.take k }
  | fails_first {left : List UInt8} : s.client = .write true left →
      Steps opens fds s .writeFails { s with client := .returned (-1) }
  | fails_later {left : List UInt8} : s.client = .write false left →
      Steps opens fds s .writeFails { s with client := .recv }
  | recv {sched : List Outcome} : s.client = .recv → s.replies ≠ [] ∨ s.server.ended = true →
      .fail ∉ sched → Steps opens fds s (.recv sched)
        { s with client := .close (recvFd ⟨⟨s.replies, sched⟩, [], s.clientFds, 0⟩).1.ret,
                 replies := (recvFd ⟨⟨s.replies, sched⟩, [], s.clientFds, 0⟩).2.stream.data,
                 clientFds := (recvFd ⟨⟨s.replies, sched⟩, [], s.clientFds, 0⟩).2.fds }
  | close {r : ℤ} : s.client = .close r →
      Steps opens fds s .close
        { s with client := .wait r, clientFds := s.clientFds.close (sockfd₀ fds) }
  | wait {r : ℤ} : s.client = .wait r → s.server.ended = true →
      Steps opens fds s .wait { s with client := .returned r }
  | serve {n : ℕ} {pad : BitVec 32} {buf : List UInt8} : s.server = .read → buf ≠ [] →
      buf <+: s.requests → Steps opens fds s (.serve n pad) (serving opens pad s buf)
  | send : s.server = .send → Steps opens fds s .send (answered s)
  | killed : s.server = .send → s.client.closed = true →
      Steps opens fds s .send { s with server := .killed }
  | serverEnd : s.server = .read → s.client.closed = true →
      Steps opens fds s .serverEnd { s with server := .exited }

theorem steps_of_step {cap : ℕ} {a : Act} {s' : State φ} (hs : step opens cap fds s a = some s') :
    Steps opens fds s a s' := by
  cases a with
  | write n =>
      cases hc : s.client with
      | write first left =>
          simp only [step, hc] at hs
          obtain ⟨hroom, hs⟩ := Option.ite_none_right_eq_some.mp hs
          obtain rfl := Option.some.inj hs
          exact .write hc (Nat.lt_min.mpr ⟨Nat.succ_pos n, Nat.sub_pos_of_lt hroom⟩)
      | _ => simp [step, hc] at hs
  | writeFails =>
      cases hc : s.client with
      | write first left =>
          cases first with
          | true =>
              simp only [step, hc] at hs
              obtain rfl := Option.some.inj hs
              exact .fails_first hc
          | false =>
              simp only [step, hc] at hs
              obtain rfl := Option.some.inj hs
              exact .fails_later hc
      | _ => simp [step, hc] at hs
  | recv sched =>
      obtain ⟨⟨hc, hready, hsched⟩, hs⟩ := Option.ite_none_right_eq_some.mp hs
      obtain rfl := Option.some.inj hs
      exact .recv hc hready hsched
  | close =>
      cases hc : s.client with
      | close r =>
          simp only [step, hc] at hs
          obtain rfl := Option.some.inj hs
          exact .close hc
      | _ => simp [step, hc] at hs
  | wait =>
      cases hc : s.client with
      | wait r =>
          simp only [step, hc] at hs
          obtain ⟨hended, hs⟩ := Option.ite_none_right_eq_some.mp hs
          obtain rfl := Option.some.inj hs
          exact .wait hc hended
      | _ => simp [step, hc] at hs
  | serve n pad =>
      obtain ⟨⟨hserver, hne⟩, hs⟩ := Option.ite_none_right_eq_some.mp hs
      obtain rfl := Option.some.inj hs
      refine .serve hserver (fun hnil => ?_) (List.take_prefix _ _)
      rw [List.take_eq_nil_iff] at hnil
      exact hnil.elim (by simp [maxMsgSize]) hne
  | send =>
      obtain ⟨hserver, hs⟩ := Option.ite_none_right_eq_some.mp hs
      by_cases hclosed : s.client.closed = true
      · rw [if_pos hclosed] at hs
        obtain rfl := Option.some.inj hs
        exact .killed hserver hclosed
      · rw [if_neg hclosed] at hs
        obtain ⟨-, hs⟩ := Option.ite_none_right_eq_some.mp hs
        obtain rfl := Option.some.inj hs
        exact .send hserver
  | serverEnd =>
      obtain ⟨⟨hserver, -, hclosed⟩, hs⟩ := Option.ite_none_right_eq_some.mp hs
      obtain rfl := Option.some.inj hs
      exact .serverEnd hserver hclosed

theorem Inv.step {a : Act} {s' : State φ} (h : Inv opens path fds e₀ e₁ s)
    (hs : Steps opens fds s a s') : Inv opens path fds e₀ e₁ s' := by
  cases hs with
  | write hc hk => exact h.write hc hk
  | fails_first hc => exact h.writeFails_first hc
  | fails_later hc => exact h.writeFails_later hc
  | recv hc hready hsched => exact h.recv hc hready hsched
  | close hc => exact h.close hc
  | wait hc hended => exact h.wait hc hended
  | serve hserver hbuf hpre => exact h.serve hserver hbuf hpre _
  | send hserver => exact h.send hserver
  | killed _ hclosed => exact h.ends hclosed _
  | serverEnd _ hclosed => exact h.ends hclosed _

theorem inv_of_reach {cap : ℕ} (h : (clientOpen opens cap path fds e₀ e₁).Reach s) :
    Inv opens path fds e₀ e₁ s := by
  refine h.invariant ?_ ?_
  · rintro _ rfl
    exact inv_init
  · intro s a s' hinv hs
    exact hinv.step (steps_of_step hs)

end Invariant

/-! ### What the client gets -/

section Results

variable {opens : Opens φ} {cap : ℕ} {path : List UInt8} {fds : FdTable φ} {e₀ e₁ : φ}
  {s : State φ} {r : ℤ}

/-- **What `unix_socket_client_open` returns.**  Either nothing could be written: then the socket
stays open, and the child goes on waiting for a request.  Or the child has ended; if the first
piece it has read was the whole request and the file can be opened, the client has a new
descriptor for it, and otherwise none. -/
theorem clientOpen_returns (hne : path ≠ []) (hpath : ∀ b ∈ path, isSpace b = false)
    (hnul : 0 ∉ path) (h : (clientOpen opens cap path fds e₀ e₁).Reach s)
    (hret : s.client = .returned r) :
    (s.served = [] ∧ r = -1 ∧ s.server = .read ∧ fds.Adds s.clientFds (sockfd₀ fds) e₀) ∨
      s.server.ended = true ∧ ∃ q qs, s.served = q :: qs ∧
        ((∃ f n, q = text path ∧ opens path oRdonly = .ok f ∧ r = (n : ℕ) ∧
            fds.Adds s.clientFds n f) ∨
          (q = text path → ∃ e, opens path oRdonly = .error e) ∧ r = -1 ∧
            s.clientFds.get = fds.get) := by
  have hinv := inv_of_reach h
  have hpc := hinv.pc
  rw [hret] at hpc
  rcases hpc with ⟨hended, q, qs, hserved, hgot⟩ | hleaked
  · refine .inr ⟨hended, q, qs, hserved, ?_⟩
    have hq : q ≠ [] := hinv.pieces q (by simp [hserved])
    have hpre : q <+: text path := by
      refine .trans ?_ hinv.sent
      rw [hserved, List.flatten_cons, List.append_assoc]
      exact List.prefix_append _ _
    have hgrants : ∀ f, Grants opens q f ↔ q = text path ∧ opens path oRdonly = .ok f :=
      fun f => grants_iff hne hpath hnul hq hpre
    rcases hgot with ⟨f, n, hf, hr, hadds⟩ | ⟨hno, hr, hget⟩
    · obtain ⟨htext, hopen⟩ := (hgrants f).mp hf
      exact .inl ⟨f, n, htext, hopen, hr, hadds⟩
    · refine .inr ⟨fun htext => ?_, hr, hget⟩
      cases hopen : opens path oRdonly with
      | ok f => exact absurd ⟨f, (hgrants f).mpr ⟨htext, hopen⟩⟩ hno
      | error e => exact ⟨e, rfl⟩
  · refine .inl ⟨hleaked.served, hleaked.ret, hleaked.server, ?_⟩
    rw [hleaked.fds]
    exact adds_connected fds e₀ e₁

/-- The child reads the request in two pieces, so that the client gets nothing although the file
can be opened. -/
theorem clientOpen_returns_cut : ∃ s : State ℕ,
    (clientOpen (fun _ _ => .ok 7) 64 (ofText "a") ⟨[]⟩ 1 2).Reach s ∧ s.client = .returned (-1) ∧
      s.served = [ofText "0 a", ofText " 0"] ∧
      ((s.served = [] ∧ (-1 : ℤ) = -1 ∧ s.server = .read ∧
          FdTable.Adds ⟨[]⟩ s.clientFds (sockfd₀ (φ := ℕ) ⟨[]⟩) 1) ∨
        s.server.ended = true ∧ ∃ q qs, s.served = q :: qs ∧
          ((∃ f n, q = text (ofText "a") ∧ (Except.ok 7 : Except Errno ℕ) = .ok f ∧
              (-1 : ℤ) = (n : ℕ) ∧ FdTable.Adds ⟨[]⟩ s.clientFds n f) ∨
            (q = text (ofText "a") → ∃ e, (Except.ok 7 : Except Errno ℕ) = .error e) ∧
              (-1 : ℤ) = -1 ∧ s.clientFds.get = FdTable.get ⟨[]⟩)) := by
  have hrun : ((clientOpen (fun _ _ => .ok 7) 64 (ofText "a") ⟨[]⟩ 1 2).run
      (initState (ofText "a") ⟨[]⟩ 1 2)
      [.write 9, .serve 2 0, .send, .recv [], .close, .serve 9 0, .send, .wait]).map
        (fun s => (s.client, s.served)) =
      some (.returned (-1), [ofText "0 a", ofText " 0"]) := by
    decide +kernel
  obtain ⟨s, hs, hobs⟩ := Option.map_eq_some_iff.mp hrun
  obtain ⟨hclient, hserved⟩ := Prod.mk.inj hobs
  have hreach : (clientOpen (fun _ _ => .ok 7) 64 (ofText "a") ⟨[]⟩ 1 2).Reach s :=
    Machine.reach_of_run rfl hs
  exact ⟨s, hreach, hclient, hserved,
    clientOpen_returns (by decide) (by decide +kernel) (by decide) hreach hclient⟩

/-! ### The function returns -/

def ClientPc.rank : ClientPc → ℕ
  | .write _ left => 3 * left.length + 4
  | .recv => 3
  | .close _ => 2
  | .wait _ => 1
  | .returned _ => 0

def ServerPc.rank : ServerPc → ℕ
  | .read => 1
  | .send => 2
  | _ => 0

/-- Every byte is written, read and answered once. -/
def State.rank (s : State φ) : ℕ := s.client.rank + s.server.rank + 2 * s.requests.length

theorem rank_writing (left : List UInt8) : (writing left).rank ≤ 3 * left.length + 4 := by
  rw [writing]
  split
  · exact Nat.le_add_left_of_le (by decide)
  · exact le_rfl

theorem rank_lt {a : Act} {s' : State φ} (h : Inv opens path fds e₀ e₁ s)
    (hs : Steps opens fds s a s') : s'.rank < s.rank := by
  cases hs with
  | @write first left n k hc hk =>
      have hpc := h.pc
      rw [hc] at hpc
      have hpos := List.length_pos_of_ne_nil hpc.2.1
      have hle := rank_writing (left.drop k)
      have hrank : (ClientPc.write first left).rank = 3 * left.length + 4 := rfl
      rw [List.length_drop] at hle
      simp only [State.rank, hc, hrank, List.length_append, List.length_take]
      omega
  | fails_first hc | fails_later hc | recv hc | close hc | wait hc =>
      simp only [State.rank, hc, ClientPc.rank]
      omega
  | serve hserver hbuf hpre =>
      have hpos := List.length_pos_of_ne_nil hbuf
      have hlen := hpre.length_le
      simp only [State.rank, serving, hserver, ServerPc.rank, List.length_drop]
      omega
  | send hserver | killed hserver | serverEnd hserver =>
      simp only [State.rank, answered, hserver, ServerPc.rank]
      omega

/-- As long as something is left to write, there is room for it. -/
theorem Inv.length_requests_lt (h : Inv opens path fds e₀ e₁ s) {first : Bool}
    {left : List UInt8} (hc : s.client = .write first left) :
    s.requests.length < (text path).length := by
  have hpc := h.pc
  rw [hc] at hpc
  obtain ⟨-, hleft, htext, -⟩ := hpc
  have hpos := List.length_pos_of_ne_nil hleft
  have hlen := congrArg List.length htext
  rw [List.length_append, List.length_append] at hlen
  omega

/-- Before the client has returned, it or the child can go on without a failure. -/
theorem exists_step (hcap : (text path).length ≤ cap) (hreply : sizeofHeader + maxErrMsgSize ≤ cap)
    (h : Inv opens path fds e₀ e₁ s) (hret : ∀ r, s.client ≠ .returned r) :
    ∃ a, a ≠ .writeFails ∧ step opens cap fds s a ≠ none := by
  have hpc := h.pc
  have hserve : s.server = .read → s.requests ≠ [] →
      step opens cap fds s (.serve 0 0) ≠ none := by
    intro hserver hne
    rw [step, if_pos ⟨hserver, hne⟩]
    exact Option.some_ne_none _
  cases hc : s.client with
  | write first left =>
      have hroom := (h.length_requests_lt hc).trans_le hcap
      exact ⟨.write 0, nofun, by simp [step, hc, hroom]⟩
  | recv =>
      rw [hc] at hpc
      obtain ⟨⟨-, -, hreplies⟩, hsent⟩ := hpc
      rcases hreplies with ⟨hserved, hserver, -⟩ |
        ⟨q, qs, pad, sfds, -, ⟨hserver, hnone, -⟩ | ⟨rest, hdata⟩⟩
      · rw [hserved] at hsent
        exact ⟨.serve 0 0, nofun, hserve hserver hsent⟩
      · have hroom : s.replies.length + s.reply.length ≤ cap := by
          rw [hnone, List.length_nil, Nat.zero_add]
          exact h.reply.trans hreply
        exact ⟨.send, nofun, by simp [step, hc, hserver, hroom, ClientPc.closed]⟩
      · have hne : s.replies ≠ [] := by
          rw [hdata]
          exact List.append_ne_nil_of_left_ne_nil
            (List.ne_nil_of_length_pos (length_reply opens pad sfds q).1) rest
        exact ⟨.recv [], nofun, by simp [step, hc, hne]⟩
  | close r => exact ⟨.close, nofun, by simp [step, hc]⟩
  | wait r =>
      cases hserver : s.server with
      | read =>
          by_cases hnone : s.requests = []
          · exact ⟨.serverEnd, nofun, by simp [step, hc, hserver, hnone, ClientPc.closed]⟩
          · exact ⟨.serve 0 0, nofun, hserve hserver hnone⟩
      | send => exact ⟨.send, nofun, by simp [step, hc, hserver, ClientPc.closed]⟩
      | exited => exact ⟨.wait, nofun, by simp [step, hc, hserver, ServerPc.ended]⟩
      | killed => exact ⟨.wait, nofun, by simp [step, hc, hserver, ServerPc.ended]⟩
  | returned r => exact absurd hc (hret r)

/-- **`unix_socket_client_open` returns**, if the request and any one answer fit into the socket.
However the two processes are scheduled, they make no more than three steps for each byte of the
request and five others; and neither the client nor the child waits for what does not come, unless
the client has returned. -/
theorem clientOpen_ends (opens : Opens φ) {cap : ℕ} {path : List UInt8}
    (hcap : (text path).length ≤ cap) (hreply : sizeofHeader + maxErrMsgSize ≤ cap)
    (fds : FdTable φ) (e₀ e₁ : φ) :
    (∀ as s', (clientOpen opens cap path fds e₀ e₁).run (initState path fds e₀ e₁) as = some s' →
        as.length ≤ 3 * (text path).length + 5) ∧
      ∀ s, (clientOpen opens cap path fds e₀ e₁).Reach s →
        (∀ a, a ≠ .writeFails → (clientOpen opens cap path fds e₀ e₁).next s a = none) →
        ∃ r, s.client = .returned r := by
  refine ⟨fun as s' hrun => ?_, fun s hs hstuck => ?_⟩
  · refine Machine.Reach.length_run_le State.rank ?_ (.start rfl) hrun
    intro s a s' hs hnext
    exact rank_lt (inv_of_reach hs) (steps_of_step hnext)
  · by_contra hret
    obtain ⟨a, hfail, ha⟩ := exists_step hcap hreply (inv_of_reach hs) (not_exists.mp hret)
    exact ha (hstuck a hfail)

/-- A path of 1023 bytes, the longest that the program reads, fits into a socket of 1040. -/
theorem clientOpen_ends_longest : (text (List.replicate 1023 97)).length = 1027 ∧
    ∀ s : State ℕ,
      (clientOpen (fun _ _ => .ok 7) 1040 (List.replicate 1023 97) ⟨[]⟩ 1 2).Reach s →
      (∀ a, a ≠ .writeFails →
        (clientOpen (fun _ _ => .ok 7) 1040 (List.replicate 1023 97) ⟨[]⟩ 1 2).next s a = none) →
      ∃ r, s.client = .returned r := by
  have hlen : (text (List.replicate 1023 97)).length = 1027 := by decide +kernel
  refine ⟨hlen, (clientOpen_ends (fun _ _ => .ok 7) ?_ (by decide) ⟨[]⟩ 1 2).2⟩
  rw [hlen]
  decide

/-- With a longer request both may wait for room: the client has not written all of it, and the
child cannot send its second answer. -/
theorem clientOpen_blocks : ∃ s : State ℕ,
    (clientOpen (fun _ _ => .ok 7) 64 (List.replicate 70 97) ⟨[]⟩ 1 2).Reach s ∧
      (∃ left, s.client = .write false left) ∧ s.server = .send ∧
      ∀ a, a ≠ .writeFails →
        (clientOpen (fun _ _ => .ok 7) 64 (List.replicate 70 97) ⟨[]⟩ 1 2).next s a = none := by
  have hrun : ((clientOpen (fun _ _ => .ok 7) 64 (List.replicate 70 97) ⟨[]⟩ 1 2).run
      (initState (List.replicate 70 97) ⟨[]⟩ 1 2)
      [.write 63, .serve 0 0, .send, .serve 0 0, .write 1]).map
        (fun s => (s.client, s.server, s.requests.length, s.replies.length + s.reply.length)) =
      some (.write false (ofText "aaaaaa 0"), .send, 64, 118) := by
    decide +kernel
  obtain ⟨s, hs, hobs⟩ := Option.map_eq_some_iff.mp hrun
  simp only [Prod.mk.injEq] at hobs
  obtain ⟨hclient, hserver, hrequests, hreplies⟩ := hobs
  refine ⟨s, Machine.reach_of_run rfl hs, ⟨_, hclient⟩, hserver, fun a ha => ?_⟩
  change step _ 64 _ s a = none
  cases a <;> simp_all [step, ClientPc.closed]

end Results

end Apue.FdFork
