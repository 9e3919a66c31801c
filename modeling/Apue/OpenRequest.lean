/-
Apue/OpenRequest.lean

A request to open a file, from its text to the descriptor the client receives.

`IsOpenRequest` says which texts are requests to open a path with a mode; it is
what the extractions of `unix_socket_process_request` accept
(`extract_open_iff`).  Exactly those requests are tried, and the client gets a
descriptor exactly if one of them succeeds.
-/
import Apue.UnixSocketFraming

namespace Apue.UnixSocket

open ByteCodec FileIO IStream

variable {φ : Type*}

/-! ### The text of a request -/

/-- The text is an opcode `OPEN`, a path and a mode: blanks may stand before each
of them, at least one before the mode, and anything may follow that is not another
digit of it. -/
def IsOpenRequest (request path : List UInt8) (mode : ℤ) : Prop :=
  ∃ ws₀ op ws₁ ws₂ num tail,
    request = ws₀ ++ op ++ (ws₁ ++ path ++ (ws₂ ++ num ++ tail)) ∧
    Blank ws₀ ∧ Numeral op opOpen ∧ StopsAt isDigit (ws₁ ++ path ++ (ws₂ ++ num ++ tail)) ∧
    Blank ws₁ ∧ path ≠ [] ∧ (∀ b ∈ path, isSpace b = false) ∧
    ws₂ ≠ [] ∧ Blank ws₂ ∧ Numeral num mode ∧ InRange mode ∧ StopsAt isDigit tail

theorem good_ofBytes (bs : List UInt8) : (IStream.ofBytes bs).Good := ⟨rfl, rfl⟩

/-- A successful extraction leaves a good stream unless it has reached the end. -/
theorem good_rest {tail : List UInt8} : (IStream.mk tail tail.isEmpty false).Good ↔ tail ≠ [] := by
  simp [IStream.Good]

/-- The three extractions succeed on the requests, and on no other text. -/
theorem extract_open_iff {request path : List UInt8} {mode : ℤ} :
    (∃ ss₁ ss₂ ss₃, (IStream.ofBytes request).extractInt = (some opOpen, ss₁) ∧
      ss₁.extractWord = (some path, ss₂) ∧ ss₂.extractInt = (some mode, ss₃)) ↔
    IsOpenRequest request path mode := by
  constructor
  · rintro ⟨ss₁, ss₂, ss₃, h₁, h₂, h₃⟩
    obtain ⟨ws₀, op, tail₁, hreq, hws₀, hop, -, hstop₁, rfl⟩ :=
      (extractInt_eq_some_iff (good_ofBytes request)).mp h₁
    have hgood₁ : (IStream.mk tail₁ tail₁.isEmpty false).Good := by
      by_contra hbad
      rw [extractWord, sentry_of_not_good hbad] at h₂
      cases h₂
    obtain ⟨ws₁, tail₂, htail₁, hws₁, hpath, hrun, rfl⟩ := (extractWord_eq_some_iff hgood₁).mp h₂
    have hgood₂ : (IStream.mk tail₂ tail₂.isEmpty false).Good := by
      by_contra hbad
      rw [extractInt, sentry_of_not_good hbad] at h₃
      cases h₃
    obtain ⟨ws₂, num, tail₃, htail₂, hws₂, hnum, hrange, hstop₃, -⟩ :=
      (extractInt_eq_some_iff hgood₂).mp h₃
    obtain rfl : tail₁ = ws₁ ++ path ++ tail₂ := htail₁
    obtain rfl : tail₂ = ws₂ ++ num ++ tail₃ := htail₂
    refine ⟨ws₀, op, ws₁, ws₂, num, tail₃, hreq, hws₀, hop, hstop₁, hws₁, hpath, ?_, ?_, hws₂,
      hnum, hrange, hstop₃⟩
    · intro b hb
      simpa using hrun.all b hb
    · -- the path has ended at a blank, which the mode cannot start with
      rintro rfl
      rw [List.nil_append] at hrun
      cases hhead : (num ++ tail₃).head? with
      | none => simp [hnum.ne_nil] at hhead
      | some b =>
          have h₄ := hrun.stop b hhead
          rw [hnum.stopsAt tail₃ b hhead] at h₄
          cases h₄
  · rintro ⟨ws₀, op, ws₁, ws₂, num, tail, rfl, hws₀, hop, hstop, hws₁, hpath, hword, hne, hws₂,
      hnum, hrange, hstop'⟩
    have hrun : LongestRun (!isSpace ·) path (ws₂ ++ num ++ tail) := by
      refine ⟨fun b hb => by simpa using hword b hb, fun b hb => ?_⟩
      cases ws₂ with
      | nil => exact absurd rfl hne
      | cons c ws₂ =>
          obtain rfl : c = b := by simpa using hb
          simp [hws₂ c (by simp)]
    have h₁ := (extractInt_eq_some_iff (good_ofBytes _)).mpr
      ⟨ws₀, op, ws₁ ++ path ++ (ws₂ ++ num ++ tail), rfl, hws₀, hop, by decide, hstop, rfl⟩
    have h₂ := (extractWord_eq_some_iff (good_rest.mpr (by simp [hpath]))).mpr
      ⟨ws₁, ws₂ ++ num ++ tail, rfl, hws₁, hpath, hrun, rfl⟩
    have h₃ := (extractInt_eq_some_iff (good_rest.mpr (by simp [hne]))).mpr
      ⟨ws₂, num, tail, rfl, hws₂, hnum, hrange, hstop', rfl⟩
    exact ⟨_, _, _, h₁, h₂, h₃⟩

/-- A text is a request for one path and mode only. -/
theorem IsOpenRequest.unique {request path path' : List UInt8} {mode mode' : ℤ}
    (h : IsOpenRequest request path mode) (h' : IsOpenRequest request path' mode') :
    path = path' ∧ mode = mode' := by
  obtain ⟨ss₁, ss₂, ss₃, h₁, h₂, h₃⟩ := extract_open_iff.mpr h
  obtain ⟨ss₁', ss₂', ss₃', h₁', h₂', h₃'⟩ := extract_open_iff.mpr h'
  obtain rfl := (Prod.mk.inj (h₁.symm.trans h₁')).2
  obtain ⟨hpath, rfl⟩ := Prod.mk.inj (h₂.symm.trans h₂')
  obtain ⟨hmode, -⟩ := Prod.mk.inj (h₃.symm.trans h₃')
  exact ⟨Option.some.inj hpath, Option.some.inj hmode⟩

/-! ### The reply -/

/-- A well-formed request is tried. -/
theorem processRequest_of_isOpenRequest {request path : List UInt8} {mode : ℤ}
    (h : IsOpenRequest request path mode) (opens : Opens φ) (pad : BitVec 32) (fds : FdTable φ) :
    processRequest opens pad fds request = replyAndClose pad (openTarget opens fds path mode) := by
  obtain ⟨ss₁, ss₂, ss₃, h₁, h₂, h₃⟩ := extract_open_iff.mpr h
  rw [processRequest, h₁]
  simp only [if_pos, h₂, h₃]

/-- Any other request is answered with an error that is the same whatever `open` would do. -/
theorem exists_error_of_not {request : List UInt8}
    (h : ¬∃ path mode, IsOpenRequest request path mode) :
    ∃ status : StatusMsg, status.hasError = true ∧
      ∀ (opens : Opens φ) (pad : BitVec 32) (fds : FdTable φ),
        processRequest opens pad fds request = ((sendFd fds pad (-1) (some status)).toList, fds) := by
  have hreply : ∀ msg : List UInt8, msg ≠ [] → StatusMsg.hasError { msg := msg } = true ∧
      ∀ (pad : BitVec 32) (fds : FdTable φ), replyAndClose pad (-1, { msg := msg }, fds) =
        ((sendFd fds pad (-1) (some { msg := msg })).toList, fds) := by
    intro msg hmsg
    have herr : StatusMsg.hasError { msg := msg } = true := by
      simpa [StatusMsg.hasError] using hmsg
    refine ⟨herr, fun pad fds => ?_⟩
    rw [replyAndClose, herr]
    rfl
  rcases h₁ : (IStream.ofBytes request).extractInt with ⟨_ | op, ss₁⟩
  · refine ⟨{ msg := ofText "Empty request or invalid opcode format" }, by decide,
      fun opens pad fds => ?_⟩
    rw [processRequest, h₁]
  · by_cases hop : op = opOpen
    · subst hop
      have hargs := hreply (ofText "Invalid arguments for OPEN (expected: path mode)") (by decide)
      refine ⟨_, hargs.1, fun opens pad fds => ?_⟩
      rcases h₂ : ss₁.extractWord with ⟨_ | path, ss₂⟩
      · simp only [processRequest, h₁, if_pos, h₂]
        exact hargs.2 pad fds
      · rcases h₃ : ss₂.extractInt with ⟨_ | mode, ss₃⟩
        · simp only [processRequest, h₁, if_pos, h₂, h₃]
          exact hargs.2 pad fds
        · exact absurd ⟨path, mode, extract_open_iff.mp ⟨ss₁, ss₂, ss₃, h₁, h₂, h₃⟩⟩ h
    · have hop' := hreply (ofText "Unknown command opcode: " ++ intToDec op) (by simp [ofText])
      refine ⟨_, hop'.1, fun opens pad fds => ?_⟩
      simp only [processRequest, h₁, if_neg hop]
      exact hop'.2 pad fds

/-- Any other request is answered with an error, and nothing is opened. -/
theorem processRequest_of_not {request : List UInt8}
    (h : ¬∃ path mode, IsOpenRequest request path mode) (opens : Opens φ) (pad : BitVec 32)
    (fds : FdTable φ) :
    ∃ status, status.hasError = true ∧ processRequest opens pad fds request =
      ((sendFd fds pad (-1) (some status)).toList, fds) := by
  obtain ⟨status, herr, heq⟩ := exists_error_of_not h
  exact ⟨status, herr, heq opens pad fds⟩

/-- The request asks for `f` and gets it. -/
def Grants (opens : Opens φ) (request : List UInt8) (f : φ) : Prop :=
  ∃ path mode, IsOpenRequest request path mode ∧
    opens (cStr path) (BitVec.ofInt 32 mode) = .ok f

/-- The two ways a request is answered: with a descriptor that is then closed, or
with an error. -/
theorem processRequest_cases (opens : Opens φ) (pad : BitVec 32) (fds : FdTable φ)
    (request : List UInt8) :
    (∃ f, Grants opens request f ∧ processRequest opens pad fds request =
      ((sendFd (fds.insert f) pad fds.lowest none).toList, (fds.insert f).close fds.lowest)) ∨
    (¬∃ f, Grants opens request f) ∧ ∃ status, status.hasError = true ∧
      processRequest opens pad fds request =
        ((sendFd fds pad (-1) (some status)).toList, fds) := by
  by_cases hreq : ∃ path mode, IsOpenRequest request path mode
  · obtain ⟨path, mode, hreq⟩ := hreq
    rw [processRequest_of_isOpenRequest hreq, openTarget]
    cases hopen : opens (cStr path) (BitVec.ofInt 32 mode) with
    | ok f =>
        refine .inl ⟨f, ⟨path, mode, hreq, hopen⟩, ?_⟩
        have hnonneg : (0 : ℤ) ≤ fds.lowest := Int.natCast_nonneg _
        rw [replyAndClose, if_pos hnonneg]
        rfl
    | error e =>
        have herr : StatusMsg.hasError { code := e.1 } = true := by
          simpa [StatusMsg.hasError] using e.2
        refine .inr ⟨?_, { code := e.1 }, herr, ?_⟩
        · rintro ⟨f, path', mode', hreq', hopen'⟩
          obtain ⟨rfl, rfl⟩ := hreq.unique hreq'
          rw [hopen] at hopen'
          cases hopen'
        · rw [replyAndClose, herr]
          rfl
  · obtain ⟨status, herr, heq⟩ := processRequest_of_not hreq opens pad fds
    refine .inr ⟨?_, status, herr, heq⟩
    rintro ⟨f, path, mode, hopen, -⟩
    exact hreq ⟨path, mode, hopen⟩

/-- At most one reply is sent, and the server has the same descriptors open as before. -/
theorem processRequest_frame (opens : Opens φ) (pad : BitVec 32) (fds : FdTable φ)
    (request : List UInt8) : (processRequest opens pad fds request).1.length ≤ 1 ∧
      (processRequest opens pad fds request).2.get = fds.get := by
  have hlen : ∀ o : Option (List (Cell φ)), o.toList.length ≤ 1 := by
    intro o
    cases o <;> simp
  rcases processRequest_cases opens pad fds request with ⟨f, -, heq⟩ | ⟨-, status, -, heq⟩
  · rw [heq]
    exact ⟨hlen _, fds.get_close_insert f⟩
  · rw [heq]
    exact ⟨hlen (sendFd fds pad (-1) (some status)), rfl⟩

/-- **A request is answered once, and truthfully.**  For every request text and
every way `open` may go, one reply is sent and the server has the same descriptors
open as before.  A client that receives the reply gets a new descriptor, open on the
file, if the text asks to open a path and the open succeeded, and -1 otherwise. -/
theorem processRequest_recvFd (opens : Opens φ) (pad : BitVec 32) (fds : FdTable φ)
    (request : List UInt8) (client : Sock φ) (hempty : client.stream.data = [])
    (hrel : client.stream.Reliable) (hrecvs : client.recvs = []) :
    ∃ reply, (processRequest opens pad fds request).1 = [reply] ∧
      (processRequest opens pad fds request).2.get = fds.get ∧
      ∃ r client',
        recvFd { client with stream := ⟨client.stream.data ++ reply, client.stream.sched⟩ }
          = (r, client') ∧
        (∀ f, Grants opens request f → 0 ≤ r.ret ∧ client.fds.get r.ret.toNat = none ∧
          client'.fds.get r.ret.toNat = some f) ∧
        ((¬∃ f, Grants opens request f) → r.ret = -1) := by
  -- receiving a message that is alone in the stream
  have hrecv : ∀ {sfds : FdTable φ} {fd : ℤ} {status : Option StatusMsg} {msg : List (Cell φ)},
      sendFd sfds pad fd status = some msg → ∃ client', recvFd
          { client with stream := ⟨client.stream.data ++ msg, client.stream.sched⟩ } =
        (.ofStatus (status.getD {}).truncate (.credentials client.peerUid ::
          rightsOf (install client.fds (attached sfds fd (status.getD {}))).1), client') ∧
        client'.fds = (install client.fds (attached sfds fd (status.getD {}))).2 := by
    intro sfds fd status msg hmsg
    have hdata : client.stream.data ++ msg = msg ++ [] := by simp [hempty]
    obtain ⟨client', hr, -, -, -, hfds⟩ := recvFd_sendFd hmsg
      (s := { client with stream := ⟨client.stream.data ++ msg, client.stream.sched⟩ })
      hrecvs hrel hdata
    exact ⟨client', hr, hfds⟩
  rcases processRequest_cases opens pad fds request with ⟨f, hf, heq⟩ | ⟨hno, status, herr, heq⟩
  · have hcond : (0 : ℤ) ≤ fds.lowest ∧ StatusMsg.hasError {} = false :=
      ⟨Int.natCast_nonneg _, rfl⟩
    have hattach : attached (fds.insert f) fds.lowest {} = [f] := by
      rw [attached, if_pos hcond, Int.toNat_natCast, fds.get_insert_lowest]
      rfl
    obtain ⟨msg, hmsg⟩ : ∃ msg, sendFd (fds.insert f) pad fds.lowest none = some msg := by
      unfold sendFd
      simp only [Option.getD_none, if_pos hcond, Int.toNat_natCast, fds.get_insert_lowest]
      exact ⟨_, rfl⟩
    obtain ⟨client', hr, hfds⟩ := hrecv hmsg
    rw [Option.getD_none, hattach] at hr hfds
    refine ⟨msg, by rw [heq, hmsg]; rfl, (processRequest_frame opens pad fds request).2, _,
      client', hr, ?_, fun hno => absurd ⟨f, hf⟩ hno⟩
    · rintro f' ⟨path', mode', hreq', hopen'⟩
      obtain ⟨path, mode, hreq, hopen⟩ := hf
      obtain ⟨rfl, rfl⟩ := hreq.unique hreq'
      obtain rfl : f = f' := Except.ok.inj (hopen.symm.trans hopen')
      refine ⟨Int.natCast_nonneg client.fds.lowest, client.fds.get_lowest, ?_⟩
      rw [hfds]
      exact client.fds.get_insert_lowest f
  · obtain ⟨msg, hmsg⟩ : ∃ msg, sendFd fds pad (-1) (some status) = some msg := ⟨_, rfl⟩
    obtain ⟨client', hr, -⟩ := hrecv hmsg
    refine ⟨msg, by rw [heq, hmsg]; rfl, by rw [heq], _, client', hr,
      fun f hf => absurd ⟨f, hf⟩ hno, fun _ => ?_⟩
    rw [Received.ofStatus, StatusMsg.hasError_truncate]
    simp [herr]

/-- A server where every open gives file 7, and a client that has descriptor 0 open. -/
theorem processRequest_recvFd_granted : ∃ reply r client',
    (processRequest (fun _ _ => .ok 7) 0 ⟨[]⟩ (ofText "0 a 2")).1 = [reply] ∧
    recvFd (⟨⟨[] ++ reply, []⟩, [], ⟨[some 3]⟩, 0⟩ : Sock ℕ) = (r, client') ∧
    0 ≤ r.ret ∧ client'.fds.get r.ret.toNat = some 7 := by
  have hgrant : Grants (fun _ _ => .ok 7) (ofText "0 a 2") 7 :=
    ⟨[97], 2, extract_open_iff.mp ⟨_, _, _, rfl, rfl, rfl⟩, rfl⟩
  obtain ⟨reply, hreply, -, r, client', hr, hyes, -⟩ :=
    processRequest_recvFd (fun _ _ => .ok 7) 0 ⟨[]⟩ (ofText "0 a 2")
      ⟨⟨[], []⟩, [], ⟨[some 3]⟩, 0⟩ rfl (by simp [Source.Reliable]) rfl
  exact ⟨reply, r, client', hreply, hr, (hyes 7 hgrant).1, (hyes 7 hgrant).2.2⟩

end Apue.UnixSocket
