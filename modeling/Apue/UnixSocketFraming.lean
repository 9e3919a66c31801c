/-
Apue/UnixSocketFraming.lean

The framing of `unix_socket_send_fd` and `unix_socket_recv_fd`.

One receive consumes exactly the cells of one send (`recvFd_sendFd`), so over any
interleaving of sends and receives on one stream the receives decode the sends
one for one and in order (`link_decodes`).  What a receive reports of an error is what
`err_msg` makes of its text as a format string: the text itself only if it has no brace
(`link_reports_iff`).
-/
import Mathlib.Data.List.Forall2
import Apue.Machine
import Apue.UnixSocket

namespace Apue.UnixSocket

open ByteCodec FileIO

variable {φ : Type*}

/-! ### The header -/

theorem WireHeader.length_bytes (h : WireHeader) (pad : BitVec 32) :
    (h.bytes pad).length = sizeofHeader := by
  simp [WireHeader.bytes, sizeofHeader]

/-- Decoding a header inverts encoding it, whatever the padding. -/
theorem WireHeader.ofBytes_bytes {h : WireHeader} (hlen : h.msgLen < 2 ^ 64) (pad : BitVec 32) :
    WireHeader.ofBytes (h.bytes pad) = h := by
  have hcode : (h.bytes pad).take 4 = toLE 4 h.code.toNat := by
    simp [WireHeader.bytes]
  have hmsg : ((h.bytes pad).drop 8).take 8 = toLE 8 h.msgLen := by
    rw [WireHeader.bytes, List.drop_left' (by simp), List.take_of_length_le (by simp)]
  rw [WireHeader.ofBytes, hcode, hmsg, ofLE_toLE, ofLE_toLE]
  · simp
  · simpa using hlen
  · simpa using h.code.isLt

/-! ### Cells -/

@[simp] theorem map_fst_cells (files : List φ) (bs : List UInt8) :
    (cells files bs).map Prod.fst = bs := by
  cases bs with
  | nil => rfl
  | cons b bs => simp [cells, Function.comp_def]

@[simp] theorem length_cells (files : List φ) (bs : List UInt8) :
    (cells files bs).length = bs.length := by
  rw [← List.length_map Prod.fst, map_fst_cells]

theorem flatMap_snd_cells (files : List φ) {bs : List UInt8} (h : bs ≠ []) :
    (cells files bs).flatMap Prod.snd = files := by
  cases bs with
  | nil => exact absurd rfl h
  | cons b bs => simp [cells, List.flatMap_map]

theorem cells_append (files : List φ) {bs : List UInt8} (h : bs ≠ []) (bs' : List UInt8) :
    cells files (bs ++ bs') = cells files bs ++ bs'.map fun b => (b, []) := by
  cases bs with
  | nil => exact absurd rfl h
  | cons b bs => simp [cells]

/-! ### One message -/

/-- The message as it goes over the wire. -/
def StatusMsg.truncate (s : StatusMsg) : StatusMsg := ⟨s.code, s.msg.take maxErrMsgSize⟩

/-- Truncation does not hide an error. -/
@[simp] theorem StatusMsg.hasError_truncate (s : StatusMsg) :
    s.truncate.hasError = s.hasError := by
  cases s with
  | mk code msg =>
      cases msg with
      | nil => rfl
      | cons b bs => simp [StatusMsg.truncate, StatusMsg.hasError, maxErrMsgSize]

theorem StatusMsg.length_truncate_le (s : StatusMsg) : s.truncate.msg.length ≤ maxErrMsgSize := by
  rw [StatusMsg.truncate, List.length_take]
  exact Nat.min_le_left _ _

/-- The files a send attaches. -/
def attached (fds : FdTable φ) (fd : ℤ) (status : StatusMsg) : List φ :=
  if 0 ≤ fd ∧ status.hasError = false then (fds.get fd.toNat).toList else []

theorem length_attached_le (fds : FdTable φ) (fd : ℤ) (status : StatusMsg) :
    (attached fds fd status).length ≤ maxRights := by
  rw [attached]
  split
  · exact Nat.le_trans Option.length_toList_le (by decide)
  · exact Nat.zero_le _

/-- The shape of what a successful send puts into the stream. -/
theorem sendFd_eq_some {fds : FdTable φ} {pad : BitVec 32} {fd : ℤ} {status : Option StatusMsg}
    {msg : List (Cell φ)} (h : sendFd fds pad fd status = some msg) :
    msg = cells (attached fds fd (status.getD {}))
      (WireHeader.bytes ⟨(status.getD {}).code, (status.getD {}).truncate.msg.length⟩ pad
        ++ (status.getD {}).truncate.msg) := by
  have hlen : (status.getD {}).truncate.msg.length
      = min (status.getD {}).msg.length maxErrMsgSize := by
    rw [StatusMsg.truncate, List.length_take, Nat.min_comm]
  have htake : (status.getD {}).msg.take (min (status.getD {}).msg.length maxErrMsgSize)
      = (status.getD {}).truncate.msg := by
    rw [StatusMsg.truncate, Nat.min_comm, ← List.take_take, List.take_length]
  rw [hlen, ← htake]
  unfold sendFd at h
  by_cases hattach : 0 ≤ fd ∧ (status.getD {}).hasError = false
  · simp only [if_pos hattach] at h
    obtain ⟨f, hf, rfl⟩ := Option.map_eq_some_iff.mp h
    rw [attached, if_pos hattach, hf]
    rfl
  · simp only [if_neg hattach] at h
    rw [attached, if_neg hattach]
    exact (Option.some.inj h).symm

/-- The ancillary items that announce these descriptors. -/
def rightsOf (ns : List ℕ) : List Cmsg := if ns = [] then [] else [.rights ns]

/-- `recvmsg` of a header: it takes the header's bytes and the files attached to
the message. -/
theorem recvmsg_cells {s : Sock φ} (hrecvs : s.recvs = []) {files : List φ}
    (hfiles : files.length ≤ maxRights) {hdr : List UInt8}
    (hlen : hdr.length = sizeofHeader) {rest : List (Cell φ)}
    (hdata : s.stream.data = cells files hdr ++ rest) :
    s.recvmsg sizeofHeader =
      (some (hdr, .credentials s.peerUid :: rightsOf (install s.fds files).1),
        { s with stream := ⟨rest, s.stream.sched⟩, fds := (install s.fds files).2 }) := by
  have hne : hdr ≠ [] := by
    rintro rfl
    cases hlen
  have htake : s.stream.data.take sizeofHeader = cells files hdr := by
    rw [hdata, ← hlen, ← length_cells files hdr, List.take_left']
    rfl
  have hdrop : s.stream.data.drop sizeofHeader = rest := by
    rw [hdata, ← hlen, ← length_cells files hdr, List.drop_left']
    rfl
  rw [Sock.recvmsg, hrecvs, Source.read]
  simp only [htake, hdrop, flatMap_snd_cells files hne, List.take_of_length_le hfiles,
    map_fst_cells, rightsOf]

/-- The loop over the items of one message. -/
theorem scanCmsgs_rightsOf (uid : ℕ) (ns : List ℕ) :
    scanCmsgs (.credentials uid :: rightsOf ns) (-1) none
      = ((ns.head?.map Int.ofNat).getD (-1), some uid) := by
  cases ns with
  | nil => rfl
  | cons n ns => rfl

/-- A receive from a stream that starts with a well-formed message. -/
theorem recvFd_cells {s : Sock φ} (hrecvs : s.recvs = []) (hs : s.stream.Reliable)
    {files : List φ} (hfiles : files.length ≤ maxRights) {status : StatusMsg} {pad : BitVec 32}
    {rest : List (Cell φ)} (hlen : status.msg.length ≤ maxErrMsgSize)
    (hdata : s.stream.data =
      cells files (WireHeader.bytes ⟨status.code, status.msg.length⟩ pad ++ status.msg) ++ rest) :
    ∃ s', recvFd s =
        (.ofStatus status (.credentials s.peerUid :: rightsOf (install s.fds files).1), s') ∧
      s'.stream.data = rest ∧ s'.stream.Reliable ∧ s'.recvs = [] ∧
      s'.fds = (install s.fds files).2 := by
  set header : WireHeader := ⟨status.code, status.msg.length⟩ with hheader
  have hhdr : (header.bytes pad).length = sizeofHeader := header.length_bytes pad
  have hne : header.bytes pad ≠ [] := by
    intro he
    rw [he] at hhdr
    cases hhdr
  rw [cells_append files hne, List.append_assoc] at hdata
  have hdecode : WireHeader.ofBytes (header.bytes pad) = header := by
    refine WireHeader.ofBytes_bytes ?_ pad
    have : status.msg.length ≤ 1024 := hlen
    show status.msg.length < 2 ^ 64
    omega
  rw [recvFd, recvmsg_cells hrecvs hfiles hhdr hdata]
  simp only [hhdr, lt_irrefl, if_false, hdecode]
  by_cases hempty : status.msg = []
  · have hzero : ¬ 0 < header.msgLen := by simp [hheader, hempty]
    rw [if_neg hzero]
    refine ⟨_, congrArg₂ Prod.mk ?_ rfl, ?_, hs, hrecvs, rfl⟩
    · rw [← hempty]
    · simp [hempty]
  · have hpos : 0 < header.msgLen := List.length_pos_iff.mpr hempty
    rw [if_pos hpos, if_neg (Nat.not_lt.mpr hlen)]
    obtain ⟨src, hread, hrest, hsrc⟩ := readn_of_reliable (n := header.msgLen)
      (s := ⟨status.msg.map (fun b => (b, ([] : List φ))) ++ rest, s.stream.sched⟩) hs
      (by simp [hheader])
    have hdrop : (status.msg.map (fun b => (b, ([] : List φ))) ++ rest).drop header.msgLen
        = rest := by
      rw [List.drop_left']
      simp [hheader]
    rw [hread]
    refine ⟨_, congrArg₂ Prod.mk ?_ rfl, hrest.trans hdrop, hsrc, hrecvs, rfl⟩
    simp [hheader, Function.comp_def]

/-- **One receive consumes exactly one send** and decodes its status; what it
returns is decided by the files that were attached. -/
theorem recvFd_sendFd {fds : FdTable φ} {pad : BitVec 32} {fd : ℤ} {status : Option StatusMsg}
    {msg rest : List (Cell φ)} (hmsg : sendFd fds pad fd status = some msg) {s : Sock φ}
    (hrecvs : s.recvs = []) (hs : s.stream.Reliable) (hdata : s.stream.data = msg ++ rest) :
    ∃ s', recvFd s =
        (.ofStatus (status.getD {}).truncate (.credentials s.peerUid ::
          rightsOf (install s.fds (attached fds fd (status.getD {}))).1), s') ∧
      s'.stream.data = rest ∧ s'.stream.Reliable ∧ s'.recvs = [] ∧
      s'.fds = (install s.fds (attached fds fd (status.getD {}))).2 := by
  rw [sendFd_eq_some hmsg] at hdata
  exact recvFd_cells hrecvs hs (length_attached_le _ _ _) (StatusMsg.length_truncate_le _) hdata

/-! ### Any interleaving of sends and receives -/

/-- A completed send: its arguments, what the descriptor was open on, and what went
into the stream. -/
structure Sent (φ : Type*) where
  fd : ℤ
  status : StatusMsg
  file : Option φ
  msg : List (Cell φ)

/-- A stream socket with the history of both ends.  A receive is recorded with what
the returned descriptor is open on in the receiver. -/
structure Link (φ : Type*) where
  sock : Sock φ
  sent : List (Sent φ)
  received : List (Received × Option φ)

/-- What descriptor `fd` is open on. -/
def fileOf (fds : FdTable φ) (fd : ℤ) : Option φ := if 0 ≤ fd then fds.get fd.toNat else none

/-- A call at one end.  The sender's table at the time of the call is its own
affair. -/
inductive Call (φ : Type*)
  | send (fds : FdTable φ) (pad : BitVec 32) (fd : ℤ) (status : Option StatusMsg)
  | recv

/-- A send adds to the stream, a receive blocks until there is something in it. -/
def Link.next (s : Link φ) : Call φ → Option (Link φ)
  | .send fds pad fd status =>
      (sendFd fds pad fd status).map fun msg =>
        let src := s.sock.stream
        { s with
          sock := { s.sock with stream := { src with data := src.data ++ msg } }
          sent := s.sent ++ [⟨fd, status.getD {}, fileOf fds fd, msg⟩] }
  | .recv =>
      if s.sock.stream.data.isEmpty then none
      else
        let (r, sock) := recvFd s.sock
        some { s with sock := sock, received := s.received ++ [(r, fileOf sock.fds r.ret)] }

/-- One stream: it is empty at first, `recvmsg` returns whole headers, and `read` may be
short but does not fail. -/
def link (φ : Type*) : Machine (Link φ) (Call φ) where
  init s := s.sock.stream.data = [] ∧ s.sock.stream.Reliable ∧ s.sock.recvs = [] ∧
    s.sent = [] ∧ s.received = []
  next := Link.next

/-- The receive `r` decodes the send `e`. -/
def Decodes (e : Sent φ) (r : Received × Option φ) : Prop :=
  if 0 ≤ e.fd ∧ e.status.hasError = false then 0 ≤ r.1.ret ∧ e.file.isSome ∧ r.2 = e.file
  else r.1.ret = -1 ∧ r.1.status = some e.status.truncate ∧
    (e.status.hasError = true → r.1.diag = some (.remote e.status.truncate))

/-- The record of a send is that of a call of `unix_socket_send_fd`. -/
def Sent.Ok (e : Sent φ) : Prop :=
  ∃ fds pad status, sendFd fds pad e.fd status = some e.msg ∧ e.status = status.getD {} ∧
    e.file = fileOf fds e.fd

/-- A message without error and with a descriptor yields a descriptor for its file;
any other yields -1 and its status. -/
theorem decodes_ofStatus {fds rfds rfds' : FdTable φ} {pad : BitVec 32} {e : Sent φ}
    {st : Option StatusMsg} {uid : ℕ} {r : Received}
    (hmsg : sendFd fds pad e.fd st = some e.msg) (hst : e.status = st.getD {})
    (hfile : e.file = fileOf fds e.fd)
    (hr : r = .ofStatus e.status.truncate
      (.credentials uid :: rightsOf (install rfds (attached fds e.fd e.status)).1))
    (hrfds : rfds' = (install rfds (attached fds e.fd e.status)).2) :
    Decodes e (r, fileOf rfds' r.ret) := by
  rw [Received.ofStatus, StatusMsg.hasError_truncate, scanCmsgs_rightsOf] at hr
  unfold Decodes
  by_cases hattach : 0 ≤ e.fd ∧ e.status.hasError = false
  · rw [if_pos hattach]
    obtain ⟨f, hf⟩ : ∃ f, fds.get e.fd.toNat = some f := by
      unfold sendFd at hmsg
      rw [← hst, if_pos hattach] at hmsg
      obtain ⟨f, hf, -⟩ := Option.map_eq_some_iff.mp hmsg
      exact ⟨f, hf⟩
    have hfiles : attached fds e.fd e.status = [f] := by
      rw [attached, if_pos hattach, hf]
      rfl
    have hsent : e.file = some f := by rw [hfile, fileOf, if_pos hattach.1, hf]
    have hret : r.ret = rfds.lowest := by
      rw [hr, hattach.2, hfiles]
      rfl
    refine ⟨by rw [hret]; exact Int.natCast_nonneg _, by rw [hsent]; rfl, ?_⟩
    rw [hret, hrfds, hfiles, hsent, fileOf, if_pos (Int.natCast_nonneg _)]
    exact rfds.get_insert_lowest f
  · rw [if_neg hattach]
    have hfiles : attached fds e.fd e.status = [] := by rw [attached, if_neg hattach]
    rw [hfiles] at hr
    cases herr : e.status.hasError with
    | true =>
        rw [herr] at hr
        subst hr
        exact ⟨rfl, rfl, fun _ => rfl⟩
    | false =>
        rw [herr] at hr
        subst hr
        exact ⟨rfl, rfl, nofun⟩

/-- What holds of a stream at any time: it contains exactly the messages sent and
not yet received. -/
structure Link.Inv (s : Link φ) : Prop where
  reliable : s.sock.stream.Reliable
  recvs : s.sock.recvs = []
  sent : ∀ e ∈ s.sent, e.Ok
  len : s.received.length ≤ s.sent.length
  data : s.sock.stream.data = (s.sent.drop s.received.length).flatMap Sent.msg
  decoded : List.Forall₂ Decodes (s.sent.take s.received.length) s.received

theorem Sent.Ok.msg_ne_nil {e : Sent φ} (h : e.Ok) : e.msg ≠ [] := by
  obtain ⟨fds, pad, status, hmsg, -, -⟩ := h
  have hlen := congrArg List.length (sendFd_eq_some hmsg)
  rw [length_cells, List.length_append, WireHeader.length_bytes] at hlen
  intro hnil
  rw [hnil, List.length_nil, sizeofHeader] at hlen
  omega

theorem Link.Inv.send {s s' : Link φ} (h : s.Inv) {fds : FdTable φ} {pad : BitVec 32} {fd : ℤ}
    {status : Option StatusMsg} (hs : s.next (.send fds pad fd status) = some s') : s'.Inv := by
  obtain ⟨msg, hmsg, rfl⟩ := Option.map_eq_some_iff.mp hs
  have hlen := h.len
  refine
    { reliable := h.reliable
      recvs := h.recvs
      sent := fun e he => ?_
      len := ?_
      data := ?_
      decoded := ?_ }
  · rcases List.mem_append.mp he with he | he
    · exact h.sent e he
    · obtain rfl := List.mem_singleton.mp he
      exact ⟨fds, pad, status, hmsg, rfl, rfl⟩
  · show s.received.length ≤ (s.sent ++ _).length
    rw [List.length_append]
    omega
  · show s.sock.stream.data ++ msg = _
    rw [List.drop_append_of_le_length hlen, List.flatMap_append, h.data]
    simp
  · show List.Forall₂ Decodes ((s.sent ++ _).take s.received.length) s.received
    rw [List.take_append_of_le_length hlen]
    exact h.decoded

theorem Link.Inv.recv {s s' : Link φ} (h : s.Inv) (hs : s.next .recv = some s') : s'.Inv := by
  have hne : s.sock.stream.data.isEmpty = false := by
    cases hd : s.sock.stream.data.isEmpty with
    | false => rfl
    | true =>
        unfold Link.next at hs
        rw [hd] at hs
        cases hs
  -- the first message not yet received
  obtain ⟨e, es, hes⟩ : ∃ e es, s.sent.drop s.received.length = e :: es := by
    cases hdrop : s.sent.drop s.received.length with
    | nil =>
        have := h.data
        rw [hdrop] at this
        rw [this] at hne
        cases hne
    | cons e es => exact ⟨e, es, rfl⟩
  have hlt : s.received.length < s.sent.length := by
    by_contra hge
    rw [List.drop_eq_nil_of_le (Nat.le_of_not_lt hge)] at hes
    cases hes
  have hget : s.sent[s.received.length]? = some e := by
    rw [← List.head?_drop, hes]
    rfl
  obtain ⟨fds, pad, status, hmsg, hst, hfile⟩ := h.sent e (List.mem_of_getElem? hget)
  have hdata := h.data
  rw [hes, List.flatMap_cons] at hdata
  obtain ⟨sock, hrecv, hrest, hrel, hrecvs, hfds⟩ :=
    recvFd_sendFd hmsg h.recvs h.reliable hdata
  rw [← hst] at hrecv hfds
  unfold Link.next at hs
  rw [hne] at hs
  simp only [hrecv] at hs
  obtain rfl := Option.some.inj hs
  refine
    { reliable := hrel
      recvs := hrecvs
      sent := h.sent
      len := ?_
      data := ?_
      decoded := ?_ }
  · show (s.received ++ _).length ≤ s.sent.length
    rw [List.length_append, List.length_singleton]
    omega
  · show sock.stream.data = (s.sent.drop (s.received ++ _).length).flatMap Sent.msg
    rw [hrest, List.length_append, List.length_singleton, ← List.drop_drop, hes]
    rfl
  · show List.Forall₂ Decodes (s.sent.take (s.received ++ _).length) (s.received ++ _)
    rw [List.length_append, List.length_singleton, List.take_add_one, hget]
    exact List.rel_append h.decoded (.cons (decodes_ofStatus hmsg hst hfile rfl hfds) .nil)

theorem Link.inv_reach {s : Link φ} (h : (link φ).Reach s) : s.Inv := by
  refine h.invariant (fun s₀ h₀ => ?_) fun s₁ a s₂ h₁ hs => ?_
  · obtain ⟨hdata, hrel, hrecvs, hsent, hrecd⟩ := h₀
    refine ⟨hrel, hrecvs, ?_, ?_, ?_, ?_⟩
    · rw [hsent]; nofun
    · rw [hrecd]; exact Nat.zero_le _
    · rw [hdata, hsent, hrecd]; rfl
    · rw [hsent, hrecd]; exact .nil
  · cases a with
    | send fds pad fd status => exact h₁.send hs
    | recv => exact h₁.recv hs

/-- Replies are decoded one for one and in order, under any interleaving of sends and
receives and any short reads.

The `i`-th receive returns a descriptor open on the file of the `i`-th send if that
send had a descriptor and no error, and otherwise -1 with the code and the first
1024 bytes of the message of the `i`-th send.  When all messages have been received
nothing is left in the stream, and until then a receive does not block. -/
theorem link_decodes {s : Link φ} (h : (link φ).Reach s) :
    s.received.length ≤ s.sent.length ∧
    List.Forall₂ Decodes (s.sent.take s.received.length) s.received ∧
    (s.received.length = s.sent.length → s.sock.stream.data = []) ∧
    (s.received.length < s.sent.length → ∃ s', (link φ).next s .recv = some s') := by
  have hinv := Link.inv_reach h
  refine ⟨hinv.len, hinv.decoded, fun heq => ?_, fun hlt => ?_⟩
  · rw [hinv.data, heq, List.drop_length]
    rfl
  · have hne : s.sock.stream.data ≠ [] := by
      rw [hinv.data, List.drop_eq_getElem_cons hlt, List.flatMap_cons]
      have := (hinv.sent _ (List.getElem_mem hlt)).msg_ne_nil
      simp [this]
    show ∃ s', s.next .recv = some s'
    unfold Link.next
    rw [if_neg (by simpa using hne)]
    exact ⟨_, rfl⟩

/-! ### What is reported -/

/-- The text that says what error a send has signalled. -/
def Sent.text (strerror : ℤ → List UInt8) (e : Sent φ) : List UInt8 :=
  e.status.truncate.toString strerror

/-- If the send `e` signals an error, the receive `r` prints the line that says so. -/
def Reports (env : Messages.Env) (errno : ℤ) (e : Sent φ) (r : Received × Option φ) : Prop :=
  e.status.hasError = true →
    r.1.diag.map (Diag.print env errno) = some (env.line (e.text env.strerror))

theorem Decodes.reports_iff {e : Sent φ} {r : Received × Option φ} (h : Decodes e r)
    (env : Messages.Env) (errno : ℤ) : Reports env errno e r ↔
      (e.status.hasError = true → env.Plain (e.text env.strerror)) := by
  refine imp_congr_right fun herr => ?_
  have hattach : ¬(0 ≤ e.fd ∧ e.status.hasError = false) := by simp [herr]
  rw [Decodes, if_neg hattach] at h
  rw [h.2.2 herr, Option.map_some, Option.some.injEq]
  exact Messages.errMsg_eq_line_iff env (e.text env.strerror)

/-- **Replies are decoded one for one and in order, and an error is reported by its code
and text exactly if these have no brace** (and no NUL once the process is a daemon, which
reports to `syslog`), under any interleaving of sends and receives and any short reads.

The `i`-th receive returns a descriptor open on the file of the `i`-th send if that
send had a descriptor and no error, and otherwise -1 with the code and the first
1024 bytes of the message of the `i`-th send.  When all messages have been received
nothing is left in the stream, and until then a receive does not block. -/
theorem link_reports_iff (env : Messages.Env) (errno : ℤ) {s : Link φ} (h : (link φ).Reach s) :
    s.received.length ≤ s.sent.length ∧
    List.Forall₂ (fun e r => Decodes e r ∧ (Reports env errno e r ↔
        (e.status.hasError = true → env.Plain (e.text env.strerror))))
      (s.sent.take s.received.length) s.received ∧
    (s.received.length = s.sent.length → s.sock.stream.data = []) ∧
    (s.received.length < s.sent.length → ∃ s', (link φ).next s .recv = some s') := by
  obtain ⟨hlen, hdec, hempty, hready⟩ := link_decodes h
  exact ⟨hlen, hdec.imp fun e r hd => ⟨hd, hd.reports_iff env errno⟩, hempty, hready⟩

/-- Messages to standard error, with a library that has one text for all errors. -/
def plainEnv : Messages.Env := ⟨true, fun _ => ofText "failed", fun _ => ofText "no argument"⟩

/-- An error with a text, and a descriptor; the receiver's first `read` of the text
returns one byte. -/
def twoReplies : List (Call ℕ) :=
  [.send ⟨[]⟩ 7 (-1) (some { msg := ofText "no" }), .send ⟨[none, some 5]⟩ 0 1 none, .recv, .recv]

/-- The stream with nothing in it. -/
def emptyLink : Link ℕ := ⟨⟨⟨[], [.upTo 0]⟩, [], ⟨[]⟩, 0⟩, [], []⟩

theorem emptyLink_init : (link ℕ).init emptyLink :=
  ⟨rfl, by simp [emptyLink, Source.Reliable], rfl, rfl, rfl⟩

theorem twoReplies_reported : ∃ s, (link ℕ).Reach s ∧ s.sent.length = 2 ∧
    List.Forall₂ (fun e r => Decodes e r ∧ Reports plainEnv 0 e r) s.sent s.received ∧
    s.sock.stream.data = [] := by
  have hrun : ((link ℕ).run emptyLink twoReplies).map
      (fun s => (s.sent.length, s.received.length, s.sent.map (Sent.text plainEnv.strerror)))
      = some (2, 2, [ofText "no", []]) := by decide +kernel
  obtain ⟨s, hs, hobs⟩ := Option.map_eq_some_iff.mp hrun
  simp only [Prod.mk.injEq] at hobs
  obtain ⟨hsent, hreceived, htexts⟩ := hobs
  have hreach := Machine.reach_of_run (M := link ℕ) emptyLink_init hs
  obtain ⟨-, hdec, hempty, -⟩ := link_reports_iff plainEnv 0 hreach
  rw [hreceived, ← hsent, List.take_length] at hdec
  have hplain : ∀ e ∈ s.sent, plainEnv.Plain (e.text plainEnv.strerror) := by
    intro e he
    have hall : ∀ t ∈ [ofText "no", []], ∀ b ∈ t, Messages.isBrace b = false := by
      decide +kernel
    rw [← htexts] at hall
    exact ⟨hall _ (List.mem_map_of_mem he), nofun⟩
  refine ⟨s, hreach, hsent, ?_, hempty (hreceived.trans hsent.symm)⟩
  refine ((List.forall₂_and_left _ _).mpr ⟨hplain, hdec⟩).imp ?_
  rintro e r ⟨hp, hd, hiff⟩
  exact ⟨hd, hiff.mpr fun _ => hp⟩

/-- Two errors whose texts have braces. -/
def braceReplies : List (Call ℕ) :=
  [.send ⟨[]⟩ 0 (-1) (some { msg := ofText "a\x7b\x7bb" }),
    .send ⟨[]⟩ 0 (-1) (some { msg := ofText "x\x7b\x7dy" }), .recv, .recv]

/-- The first text is reported with one brace less, the second not at all: the library
is left without an argument for its replacement field. -/
theorem braceReplies_reported : ∃ s, (link ℕ).Reach s ∧
    s.sent.map (Sent.text plainEnv.strerror) = [ofText "a\x7b\x7bb", ofText "x\x7b\x7dy"] ∧
    s.received.map (fun r => r.1.diag.map (Diag.print plainEnv 0)) =
      [some (ofText "Error: a\x7bb\n"),
        some (ofText "Formatting error: x\x7b\x7dy (no argument)\n")] ∧
    ¬ List.Forall₂ (Reports plainEnv 0) s.sent s.received := by
  have hrun : ((link ℕ).run emptyLink braceReplies).map
      (fun s => (s.sent.map (Sent.text plainEnv.strerror),
        s.received.map (fun r => r.1.diag.map (Diag.print plainEnv 0)),
        s.sent.map fun e => e.status.hasError)) =
      some ([ofText "a\x7b\x7bb", ofText "x\x7b\x7dy"],
        [some (ofText "Error: a\x7bb\n"),
          some (ofText "Formatting error: x\x7b\x7dy (no argument)\n")], [true, true]) := by
    decide +kernel
  obtain ⟨s, hs, hobs⟩ := Option.map_eq_some_iff.mp hrun
  simp only [Prod.mk.injEq] at hobs
  obtain ⟨hsent, hreceived, herrs⟩ := hobs
  refine ⟨s, Machine.reach_of_run (M := link ℕ) emptyLink_init hs, hsent, hreceived, fun hall => ?_⟩
  generalize s.sent = sent, s.received = received at hall hsent hreceived herrs
  cases hall with
  | nil => cases hsent
  | cons hd _ =>
      simp only [List.map_cons, List.cons.injEq] at hsent hreceived herrs
      have hsame := (hreceived.1.symm.trans (hd herrs.1)).trans
        (congrArg (fun t => some (plainEnv.line t)) hsent.1)
      revert hsame
      decide +kernel

end Apue.UnixSocket
