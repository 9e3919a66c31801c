/-
Apue/UnixSocketReceive.lean

`unix_socket_recv_fd` on input that nobody vouches for.

The peer may send any bytes with any files attached, the stream may end anywhere, and the
calls of `recvmsg` and `read` may be short or fail.  What the function returns depends on
the header alone (`recvFd_of_some`): a message makes it an error even if its text could not
be read, since the string was resized before.  So a truncated reply is not taken for a
descriptor.

The kernel opens the descriptors before any of this is looked at, and none of the error
returns closes them.
-/
import Apue.UnixSocketFraming

namespace Apue.UnixSocket

open ByteCodec FileIO

variable {φ : Type*}

/-! ### What one receive does -/

/-- The cells hold a complete header that announces neither an error nor a message. -/
def GoodHeader (cs : List (Cell φ)) : Prop :=
  cs.length = sizeofHeader ∧ (WireHeader.ofBytes (cs.map Prod.fst)).code = 0 ∧
    (WireHeader.ofBytes (cs.map Prod.fst)).msgLen = 0

instance (cs : List (Cell φ)) : Decidable (GoodHeader cs) := inferInstanceAs (Decidable (_ ∧ _ ∧ _))

/-- The files that come with the cells and fit into the control buffer. -/
def filesOf (cs : List (Cell φ)) : List φ := (cs.flatMap Prod.snd).take maxRights

/-- The call of `recvmsg` in `unix_socket_recv_fd`. -/
def Sock.recvHeader (s : Sock φ) : Option (List (Cell φ)) × Source (Cell φ) :=
  (Source.mk s.stream.data s.recvs).read sizeofHeader

/-- The first of the new descriptors, or -1. -/
def firstFd (ns : List ℕ) : ℤ := (ns.head?.map Int.ofNat).getD (-1)

theorem ret_ofStatus (status : StatusMsg) (uid : ℕ) (ns : List ℕ) :
    (Received.ofStatus status (.credentials uid :: rightsOf ns)).ret
      = if status.hasError then -1 else firstFd ns := by
  rw [Received.ofStatus, scanCmsgs_rightsOf]
  split <;> rfl

/-- A status with a message is an error. -/
theorem hasError_of_length_pos {status : StatusMsg} (h : 0 < status.msg.length) :
    status.hasError = true := by
  cases status with
  | mk code msg =>
      cases msg with
      | nil => cases h
      | cons b bs => simp [StatusMsg.hasError]

theorem recvmsg_of_some {s : Sock φ} {cs : List (Cell φ)} {src : Source (Cell φ)}
    (h : s.recvHeader = (some cs, src)) :
    s.recvmsg sizeofHeader =
      (some (cs.map Prod.fst,
        .credentials s.peerUid :: rightsOf (install s.fds (filesOf cs)).1),
        { s with stream := ⟨src.data, s.stream.sched⟩, recvs := src.sched,
                 fds := (install s.fds (filesOf cs)).2 }) := by
  unfold Sock.recvHeader at h
  rw [Sock.recvmsg, h]
  rfl

theorem recvFd_of_none {s : Sock φ} {src : Source (Cell φ)} (h : s.recvHeader = (none, src)) :
    (recvFd s).1.ret = -1 ∧ (recvFd s).2.stream = s.stream ∧ (recvFd s).2.fds = s.fds := by
  unfold Sock.recvHeader at h
  rw [recvFd, Sock.recvmsg, h]
  exact ⟨rfl, rfl, rfl⟩

/-- **What one receive does with the cells `recvmsg` returned.**  It leaves the
descriptors that the kernel has opened, takes at most a message from the rest of the
stream, and returns a descriptor only after a good header. -/
theorem recvFd_of_some {s : Sock φ} {cs : List (Cell φ)} {src : Source (Cell φ)}
    (h : s.recvHeader = (some cs, src)) :
    (recvFd s).2.fds = (install s.fds (filesOf cs)).2 ∧
      (∃ body, src.data = body ++ (recvFd s).2.stream.data ∧ body.length ≤ maxErrMsgSize) ∧
      (recvFd s).1.ret
        = if GoodHeader cs then firstFd (install s.fds (filesOf cs)).1 else -1 := by
  have hnone : ∃ body, src.data = body ++ src.data ∧ body.length ≤ maxErrMsgSize :=
    ⟨[], rfl, Nat.zero_le _⟩
  rw [recvFd, recvmsg_of_some h]
  simp only [List.length_map]
  by_cases hshort : cs.length < sizeofHeader
  · have hbad : ¬ GoodHeader cs := fun hgood => Nat.ne_of_lt hshort hgood.1
    rw [if_pos hshort, if_neg hbad]
    exact ⟨rfl, hnone, rfl⟩
  have hlen : cs.length = sizeofHeader :=
    Nat.le_antisymm (Source.read_eq_some h).2 (Nat.not_lt.mp hshort)
  rw [if_neg hshort]
  by_cases hmsg : 0 < (WireHeader.ofBytes (cs.map Prod.fst)).msgLen
  · have hbad : ¬ GoodHeader cs := fun hgood => Nat.ne_of_gt hmsg hgood.2.2
    rw [if_pos hmsg, if_neg hbad]
    by_cases hlong : maxErrMsgSize < (WireHeader.ofBytes (cs.map Prod.fst)).msgLen
    · rw [if_pos hlong]
      exact ⟨rfl, hnone, rfl⟩
    rw [if_neg hlong]
    obtain ⟨body, hbody, hle⟩ := readn_data (⟨src.data, s.stream.sched⟩ : Source (Cell φ))
      (WireHeader.ofBytes (cs.map Prod.fst)).msgLen
    have hbody' : ∃ body, src.data = body ++ _ ∧ body.length ≤ maxErrMsgSize :=
      ⟨body, hbody, hle.trans (Nat.not_lt.mp hlong)⟩
    rcases hread : readn (⟨src.data, s.stream.sched⟩ : Source (Cell φ))
      (WireHeader.ofBytes (cs.map Prod.fst)).msgLen with ⟨_ | n, buf, rest⟩
    · rw [hread] at hbody'
      exact ⟨rfl, hbody', rfl⟩
    · rw [hread] at hbody'
      refine ⟨rfl, hbody', ?_⟩
      -- the string has its full length, however little was read into it
      refine (ret_ofStatus _ _ _).trans (if_pos (hasError_of_length_pos ?_))
      show 0 < (buf.map Prod.fst ++ List.replicate _ 0).length
      rw [List.length_append, List.length_map, List.length_replicate]
      omega
  · rw [if_neg hmsg]
    refine ⟨rfl, hnone, (ret_ofStatus _ _ _).trans ?_⟩
    by_cases hcode : (WireHeader.ofBytes (cs.map Prod.fst)).code = 0
    · have hgood : GoodHeader cs := ⟨hlen, hcode, Nat.eq_zero_of_not_pos hmsg⟩
      rw [if_pos hgood, if_neg]
      simp [StatusMsg.hasError, hcode]
    · have hbad : ¬ GoodHeader cs := fun hgood => hcode hgood.2.1
      rw [if_neg hbad, if_pos]
      simpa [StatusMsg.hasError] using hcode

/-! ### Any input -/

/-- A receive never takes more than a header and the longest message. -/
theorem recvFd_consumes (s : Sock φ) :
    ∃ used, s.stream.data = used ++ (recvFd s).2.stream.data ∧
      used.length ≤ sizeofHeader + maxErrMsgSize := by
  rcases h : s.recvHeader with ⟨_ | cs, src⟩
  · rw [(recvFd_of_none h).2.1]
    exact ⟨[], rfl, Nat.zero_le _⟩
  · obtain ⟨-, ⟨body, hbody, hle⟩, -⟩ := recvFd_of_some h
    obtain ⟨hdata, hcs⟩ := Source.read_eq_some h
    refine ⟨cs ++ body, ?_, ?_⟩
    · rw [List.append_assoc, ← hbody]
      exact hdata
    · rw [List.length_append]
      omega

/-- A receive returns -1, or the first descriptor that came with a good header. -/
theorem recvFd_ret (s : Sock φ) : (recvFd s).1.ret = -1 ∨
    ∃ cs src n ns, s.recvHeader = (some cs, src) ∧ GoodHeader cs ∧
      (install s.fds (filesOf cs)).1 = n :: ns ∧ (recvFd s).1.ret = n := by
  rcases h : s.recvHeader with ⟨_ | cs, src⟩
  · exact .inl (recvFd_of_none h).1
  obtain ⟨-, -, hret⟩ := recvFd_of_some h
  by_cases hgood : GoodHeader cs
  · rw [if_pos hgood] at hret
    rcases hns : (install s.fds (filesOf cs)).1 with _ | ⟨n, ns⟩
    · rw [hns] at hret
      exact .inl hret
    · rw [hns] at hret
      exact .inr ⟨cs, src, n, ns, rfl, hgood, hns, hret⟩
  · rw [if_neg hgood] at hret
    exact .inl hret

/-- A message with a good header is nothing but its header. -/
theorem length_of_goodHeader {fds : FdTable φ} {pad : BitVec 32} {fd : ℤ}
    {status : Option StatusMsg} {msg cs rest : List (Cell φ)}
    (hmsg : sendFd fds pad fd status = some msg) (hcs : msg = cs ++ rest) (hgood : GoodHeader cs) :
    msg.length = sizeofHeader := by
  have hshape := sendFd_eq_some hmsg
  set st := (status.getD {}).truncate
  set header : WireHeader := ⟨(status.getD {}).code, st.msg.length⟩ with hheader
  have hbytes : cs.map Prod.fst = header.bytes pad := by
    have hmap := congrArg (List.map Prod.fst) (hcs.symm.trans hshape)
    rw [List.map_append, map_fst_cells] at hmap
    refine (List.append_inj hmap ?_).1
    rw [List.length_map, header.length_bytes]
    exact hgood.1
  have hlt : st.msg.length < 2 ^ 64 := by
    have hle : st.msg.length ≤ 1024 := StatusMsg.length_truncate_le _
    omega
  have hzero : st.msg.length = 0 := by
    have := hgood.2.2
    rwa [hbytes, WireHeader.ofBytes_bytes hlt] at this
  rw [hshape, length_cells, List.length_append, header.length_bytes, hzero, Nat.add_zero]

/-- **A receive on arbitrary input.**  Whatever bytes and files the peer has sent, wherever
the stream ends and however the calls go: it takes at most `16 + 1024` bytes; it returns a
descriptor only if `recvmsg` returned a complete header with code 0 and `msg_len` 0
together with an `SCM_RIGHTS` item; and it returns -1 on every strict prefix of a message
of `unix_socket_send_fd` that is followed by the end of the stream. -/
theorem recvFd_any_input (s : Sock φ) :
    (∃ used, s.stream.data = used ++ (recvFd s).2.stream.data ∧ used.length ≤ 16 + 1024) ∧
    (0 ≤ (recvFd s).1.ret → ∃ bytes cmsgs s₁ ns,
      s.recvmsg sizeofHeader = (some (bytes, cmsgs), s₁) ∧ bytes.length = sizeofHeader ∧
      (WireHeader.ofBytes bytes).code = 0 ∧ (WireHeader.ofBytes bytes).msgLen = 0 ∧
      .rights ns ∈ cmsgs) ∧
    (∀ fds pad fd status msg, sendFd fds pad fd status = some msg →
      s.stream.data <+: msg → s.stream.data ≠ msg → (recvFd s).1.ret = -1) := by
  refine ⟨recvFd_consumes s, fun hret => ?_, fun fds pad fd status msg hmsg hprefix hstrict => ?_⟩
  · rcases recvFd_ret s with hneg | ⟨cs, src, n, ns, h, hgood, hns, -⟩
    · omega
    refine ⟨_, _, _, n :: ns, recvmsg_of_some h, by rw [List.length_map, hgood.1], hgood.2.1,
      hgood.2.2, ?_⟩
    rw [hns, rightsOf, if_neg (List.cons_ne_nil n ns)]
    simp
  · rcases recvFd_ret s with hneg | ⟨cs, src, n, ns, h, hgood, -, -⟩
    · exact hneg
    -- a prefix with the whole header of a message without text is the whole message
    obtain ⟨rest, hrest⟩ := hprefix
    have hdata : s.stream.data = cs ++ src.data := (Source.read_eq_some h).1
    have hcs : msg = cs ++ (src.data ++ rest) := by rw [← hrest, hdata, List.append_assoc]
    have hlen := length_of_goodHeader hmsg hcs hgood
    have htotal := congrArg List.length hrest
    rw [hdata, List.length_append, List.length_append, hlen, hgood.1] at htotal
    obtain rfl : rest = [] := List.length_eq_zero_iff.mp (by omega)
    rw [List.append_nil] at hrest
    exact absurd hrest hstrict

/-! ### Descriptors left open -/

/-- The descriptors that the call has left open are its result, if it is one, and no
other. -/
def NoLeak (s : Sock φ) : Prop :=
  ∀ n, (s.fds.get n = none ∧ ((recvFd s).2.fds.get n).isSome) ↔ (n : ℤ) = (recvFd s).1.ret

/-- What is open stays open when files are installed. -/
theorem get_install_of_isSome {fds : FdTable φ} {n : ℕ} (h : (fds.get n).isSome) (fs : List φ) :
    ((install fds fs).2.get n).isSome := by
  induction fs generalizing fds with
  | nil => exact h
  | cons f fs ih =>
      have hne : n ≠ fds.lowest := by
        rintro rfl
        rw [fds.get_lowest] at h
        cases h
      have hinsert : ((fds.insert f).get n).isSome := by
        rw [fds.get_insert_of_ne f hne]
        exact h
      exact ih hinsert

/-- The new descriptors are those that `install` returns. -/
theorem mem_install {fds : FdTable φ} {n : ℕ} (fs : List φ) :
    (fds.get n = none ∧ ((install fds fs).2.get n).isSome) ↔ n ∈ (install fds fs).1 := by
  induction fs generalizing fds with
  | nil =>
      simp only [install, List.not_mem_nil, iff_false]
      rintro ⟨hnone, hsome⟩
      rw [hnone] at hsome
      cases hsome
  | cons f fs ih =>
      show (fds.get n = none ∧ ((install (fds.insert f) fs).2.get n).isSome) ↔
        n ∈ fds.lowest :: (install (fds.insert f) fs).1
      rw [List.mem_cons, ← ih]
      by_cases hn : n = fds.lowest
      · subst hn
        simp only [fds.get_lowest, true_and, true_or, iff_true]
        exact get_install_of_isSome (by rw [fds.get_insert_lowest]; rfl) fs
      · rw [fds.get_insert_of_ne f hn]
        simp [hn]

theorem length_install (fds : FdTable φ) (fs : List φ) :
    (install fds fs).1.length = fs.length := by
  induction fs generalizing fds with
  | nil => rfl
  | cons f fs ih => exact congrArg Nat.succ (ih (fds.insert f))

/-- Different files get different descriptors. -/
theorem nodup_install (fds : FdTable φ) (fs : List φ) : (install fds fs).1.Nodup := by
  induction fs generalizing fds with
  | nil => exact List.nodup_nil
  | cons f fs ih =>
      refine List.nodup_cons.mpr ⟨fun hmem => ?_, ih (fds.insert f)⟩
      -- the number of the first file is taken when the others get theirs
      have hfree := ((mem_install fs).mpr hmem).1
      rw [fds.get_insert_lowest] at hfree
      cases hfree

/-- The first of some descriptors is all of them only if there is no other. -/
theorem forall_mem_iff_eq_firstFd {ns : List ℕ} (hnd : ns.Nodup) :
    (∀ n : ℕ, n ∈ ns ↔ (n : ℤ) = firstFd ns) ↔ ns.length ≤ 1 := by
  rcases ns with _ | ⟨m, _ | ⟨k, ns⟩⟩
  · refine ⟨fun _ => Nat.zero_le _, fun _ n => ⟨(fun hn => by cases hn), fun hn => ?_⟩⟩
    have hneg : firstFd [] = -1 := rfl
    omega
  · refine ⟨fun _ => Nat.le_refl _, fun _ n => ?_⟩
    rw [List.mem_singleton]
    exact Int.natCast_inj.symm
  · refine ⟨fun hall => ?_, fun hle => by simp at hle⟩
    have hk : (k : ℤ) = m := (hall k).mp (by simp)
    have hne : m ≠ k := by
      rintro rfl
      simp at hnd
    exact absurd (Int.natCast_inj.mp hk).symm hne

/-- Nothing is -1 only if there is nothing. -/
theorem forall_mem_iff_eq_neg_one {ns : List ℕ} :
    (∀ n : ℕ, n ∈ ns ↔ (n : ℤ) = -1) ↔ ns.length = 0 := by
  rw [List.length_eq_zero_iff, List.eq_nil_iff_forall_not_mem]
  refine forall_congr' fun n => ⟨fun hn hmem => ?_, fun hn => ⟨fun hmem => absurd hmem hn, ?_⟩⟩
  · have := hn.mp hmem
    omega
  · intro he
    omega

/-- No file comes with the bytes that `recvmsg` returns, or one file with a good header. -/
def Harmless (s : Sock φ) : Prop :=
  ∀ cs src, s.recvHeader = (some cs, src) →
    cs.flatMap Prod.snd = [] ∨ ((cs.flatMap Prod.snd).length = 1 ∧ GoodHeader cs)

/-- **Which receives leak.**  A receive leaves no descriptor open but the one it returns
exactly when no file came with the header, or one file with a complete header that has
code 0 and `msg_len` 0. -/
theorem noLeak_iff (s : Sock φ) : NoLeak s ↔ Harmless s := by
  unfold NoLeak Harmless
  rcases h : s.recvHeader with ⟨_ | cs, src⟩
  · -- `recvmsg` failed
    obtain ⟨hret, -, hfds⟩ := recvFd_of_none h
    rw [hret, hfds]
    refine ⟨fun _ _ _ hcs => (by cases hcs), fun _ n => ⟨?_, fun hn => by omega⟩⟩
    rintro ⟨hnone, hsome⟩
    rw [hnone] at hsome
    cases hsome
  obtain ⟨hfds, -, hret⟩ := recvFd_of_some h
  have hnew : ∀ n, (s.fds.get n = none ∧ ((recvFd s).2.fds.get n).isSome)
      ↔ n ∈ (install s.fds (filesOf cs)).1 := by
    intro n
    rw [hfds]
    exact mem_install _
  have hcs : (∀ cs' src', (some cs, src) = (some cs', src') →
        cs'.flatMap Prod.snd = [] ∨ ((cs'.flatMap Prod.snd).length = 1 ∧ GoodHeader cs'))
      ↔ cs.flatMap Prod.snd = [] ∨ ((cs.flatMap Prod.snd).length = 1 ∧ GoodHeader cs) :=
    ⟨fun hall => hall cs src rfl, fun hcs _ _ he => by cases he; exact hcs⟩
  have hlen : (install s.fds (filesOf cs)).1.length = min 2 (cs.flatMap Prod.snd).length := by
    rw [length_install, filesOf, List.length_take, maxRights]
  rw [hcs, hret, ← List.length_eq_zero_iff]
  simp only [hnew]
  by_cases hgood : GoodHeader cs
  · rw [if_pos hgood, forall_mem_iff_eq_firstFd (nodup_install _ _), hlen]
    simp only [hgood, and_true]
    omega
  · rw [if_neg hgood, forall_mem_iff_eq_neg_one, hlen]
    simp only [hgood, and_false, or_false]
    omega

/-- A socket on which one message has arrived, with the files `files` attached. -/
def arrived (files : List ℕ) (header : WireHeader) : Sock ℕ :=
  ⟨⟨cells files (header.bytes 0), []⟩, [], ⟨[]⟩, 0⟩

/-- A descriptor with an error code, and two descriptors with a good header. -/
theorem arrived_leaks :
    ((recvFd (arrived [5] ⟨1, 0⟩)).1.ret = -1 ∧
      (recvFd (arrived [5] ⟨1, 0⟩)).2.fds.get 0 = some 5 ∧ ¬ NoLeak (arrived [5] ⟨1, 0⟩)) ∧
    ((recvFd (arrived [5, 6] ⟨0, 0⟩)).1.ret = 0 ∧
      (recvFd (arrived [5, 6] ⟨0, 0⟩)).2.fds.get 1 = some 6 ∧ ¬ NoLeak (arrived [5, 6] ⟨0, 0⟩)) := by
  have hret : (recvFd (arrived [5] ⟨1, 0⟩)).1.ret = -1 := by decide +kernel
  have hfds : (recvFd (arrived [5] ⟨1, 0⟩)).2.fds.get 0 = some 5 := by decide +kernel
  have hret' : (recvFd (arrived [5, 6] ⟨0, 0⟩)).1.ret = 0 := by decide +kernel
  have hfds' : (recvFd (arrived [5, 6] ⟨0, 0⟩)).2.fds.get 1 = some 6 := by decide +kernel
  refine ⟨⟨hret, hfds, fun h => ?_⟩, hret', hfds', fun h => ?_⟩
  · have := (h 0).mp ⟨rfl, by rw [hfds]; rfl⟩
    omega
  · have := (h 1).mp ⟨rfl, by rw [hfds']; rfl⟩
    omega

end Apue.UnixSocket
