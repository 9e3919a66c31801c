/-
Apue/OpenDaemonAccepts.lean

How many accepts the open daemon has in its ring.

The loop prepares an accept at its head, and another one for each client it accepts; only
an accept that failed takes one away without a new one.  So after each read and after each
accepted client there is one accept more (`outstandingAccepts_eq`), and there is exactly
one only as long as every completion was a failed accept (`outstandingAccepts_eq_one_iff`).

An accept is outstanding from its preparation until the loop takes its completion; when the
loop really waits, no completion is left, and these are the accepts that the kernel has.
-/
import Apue.OpenDaemonInv

namespace Apue.OpenDaemon

variable {φ : Type*}

/-! ### What is counted -/

/-- An accept that is allocated. -/
def isAccept (heap : ℕ → Option Request) (i : ℕ) : Bool :=
  (heap i).any fun r => r.type = .accept

/-- The accepts that are prepared, in flight, or completed and not yet looked at. -/
def State.outstandingAccepts (s : State φ) : ℕ :=
  (s.ring.sq.map Prod.fst ++ (s.ring.inflight.map Prod.fst ++ s.ring.cq.map Prod.fst)).countP
    (isAccept s.heap)

/-- The completion that the loop takes in a step: what it is of, and its result. -/
def taken (s : State φ) : Action φ → List (OpType × ℤ)
  | .step =>
      match s.pc with
      | .switch req res => ((s.heap req).map fun r => (r.type, res)).toList
      | _ => []
  | _ => []

/-- An accept that failed. -/
def acceptFailed (c : OpType × ℤ) : Bool := c.1 = .accept ∧ c.2 < 0

/-- The daemon, with the completions that its loop has taken. -/
def daemonTaken (φ : Type*) [DecidableEq φ] (listenFd : ℕ) :
    Machine (State φ × List (OpType × ℤ)) (Action φ) :=
  (daemon φ listenFd).recorded taken

/-! ### Allocated accepts -/

/-- The number of accepts that are allocated. -/
def State.liveAccepts (s : State φ) : ℕ := (List.range s.nextReq).countP (isAccept s.heap)

/-- The completions that were not failed accepts. -/
def served (cs : List (OpType × ℤ)) : ℕ := cs.countP fun c => !acceptFailed c

/-- How many accepts are allocated at this program counter, when `n` completions were not
failed accepts. -/
def Count (heap : ℕ → Option Request) (n live : ℕ) : Pc → Prop
  | .addAccept | .cqeSeen | .submitAgain => live = n
  -- the accept of the loop head
  | .submit | .waitCqe | .exited | .switch _ _ => live = n + 1
  -- the accept at hand has just been counted, its successor is not there yet
  | .addRead i _ | .addAcceptAgain i => live = n ∧ isAccept heap i = true
  | .handle i _ | .close i => live = n ∧ isAccept heap i = false
  -- the request at hand is still allocated
  | .delete i => live = n + (isAccept heap i).toNat
  | .fault => True

/-- The count is right in a state with this history. -/
def State.Counted (s : State φ) (cs : List (OpType × ℤ)) : Prop :=
  Count s.heap (served cs) s.liveAccepts s.pc

theorem served_append_singleton (cs : List (OpType × ℤ)) (c : OpType × ℤ) :
    served (cs ++ [c]) = served cs + (!acceptFailed c).toNat := by
  rw [served, List.countP_append, List.countP_singleton]
  cases acceptFailed c <;> rfl

/-- One number changes sides. -/
theorem countP_range_of_ne {p q : ℕ → Bool} {i : ℕ} (hne : ∀ j, j ≠ i → q j = p j) :
    ∀ {n : ℕ}, i < n →
      (List.range n).countP q + (p i).toNat = (List.range n).countP p + (q i).toNat
  | n + 1, hi => by
      have hlast : ∀ f : ℕ → Bool,
          (List.range (n + 1)).countP f = (List.range n).countP f + (f n).toNat := by
        intro f
        rw [List.range_succ, List.countP_append, List.countP_singleton]
        cases f n <;> rfl
      rw [hlast, hlast]
      rcases Nat.lt_succ_iff_lt_or_eq.mp hi with hlt | rfl
      · have ih := countP_range_of_ne hne hlt
        rw [hne n (by omega)]
        omega
      · have hsame : (List.range i).countP q = (List.range i).countP p :=
          List.countP_congr fun j hj => by rw [hne j (by have := List.mem_range.mp hj; omega)]
        omega

/-- `delete req`. -/
theorem liveAccepts_delete {s : State φ} {i : ℕ} (hi : i < s.nextReq) :
    (List.range s.nextReq).countP (isAccept (Function.update s.heap i none)) +
      (isAccept s.heap i).toNat = s.liveAccepts := by
  have hcount := countP_range_of_ne (p := isAccept s.heap)
    (q := isAccept (Function.update s.heap i none))
    (fun j hj => by rw [isAccept, isAccept, Function.update_of_ne hj]) hi
  have hgone : isAccept (Function.update s.heap i none) i = false := by
    rw [isAccept, Function.update_self]
    rfl
  rw [hgone] at hcount
  exact hcount

/-- `new Request`. -/
theorem liveAccepts_new {s : State φ} (r : Request) :
    (List.range (s.nextReq + 1)).countP (isAccept (Function.update s.heap s.nextReq (some r))) =
      s.liveAccepts + (decide (r.type = .accept)).toNat := by
  have hold : (List.range s.nextReq).countP
      (isAccept (Function.update s.heap s.nextReq (some r))) = s.liveAccepts := by
    refine List.countP_congr fun j hj => ?_
    have hne : j ≠ s.nextReq := by
      have := List.mem_range.mp hj
      omega
    rw [isAccept, isAccept, Function.update_of_ne hne]
  rw [List.range_succ, List.countP_append, hold, List.countP_singleton, isAccept,
    Function.update_self]
  show s.liveAccepts + (if decide (r.type = .accept) = true then 1 else 0) = _
  cases decide (r.type = .accept) <;> rfl

/-! ### Steps -/

section Steps

variable {listenFd : ℕ} {s s' : State φ} {held : ℕ → Option (Held φ)} {cs : List (OpType × ℤ)}

/-- What the accepts are, and how many, stays the same. -/
theorem Count.of_eq {heap heap' : ℕ → Option Request} {n live : ℕ} {p : Pc}
    (h : Count heap n live p) (hheap : isAccept heap' = isAccept heap) : Count heap' n live p := by
  unfold Count at h ⊢
  rw [hheap]
  exact h

/-- A request is prepared, or there is no queue entry for it. -/
theorem counted_addRequest {r : Request} {sqe : Sqe} {p : Pc}
    (h : Count (Function.update s.heap s.nextReq (some r)) (served cs)
      (s.liveAccepts + (decide (r.type = .accept)).toNat) p) :
    (s.addRequest r sqe p).Counted cs := by
  unfold State.addRequest
  split
  · unfold State.Counted State.liveAccepts
    rw [liveAccepts_new r]
    exact h
  · trivial

/-- `io_uring_submit`. -/
theorem counted_submit {p : Pc} (h : s.Counted cs)
    (hp : Count s.heap (served cs) s.liveAccepts p) : (s.submit p).Counted cs := by
  unfold State.submit
  split
  · exact hp
  · exact h

/-- The loop takes a completion. -/
theorem counted_switch {i : ℕ} {res : ℤ} {r : Request} (hr : s.heap i = some r)
    (hlive : s.liveAccepts = served cs + 1) :
    (s.goto (dispatch i res r.type)).Counted (cs ++ [(r.type, res)]) := by
  have haccept : isAccept s.heap i = decide (r.type = .accept) := by
    rw [isAccept, hr]
    rfl
  show Count s.heap (served (cs ++ [(r.type, res)])) s.liveAccepts (dispatch i res r.type)
  rw [served_append_singleton, hlive]
  cases htype : r.type <;> rw [htype] at haccept <;> rw [dispatch] <;> split
  case accept.isTrue hres =>
      have hok : acceptFailed (.accept, res) = false := by simp [acceptFailed, hres]
      rw [hok]
      exact ⟨rfl, haccept⟩
  case accept.isFalse hres =>
      have hfail : acceptFailed (.accept, res) = true := by simpa [acceptFailed] using hres
      rw [hfail]
      show served cs + 1 = served cs + 0 + (isAccept s.heap i).toNat
      rw [haccept]
      rfl
  case read.isTrue => exact ⟨rfl, haccept⟩
  case read.isFalse => exact ⟨rfl, haccept⟩

/-- **One operation of the daemon keeps the count.** -/
theorem counted_step (hinv : Inv listenFd s held) (h : s.Counted cs)
    (hs : step s listenFd = some s') : s'.Counted (cs ++ taken s .step) := by
  have hat := hinv.pc
  have htaken : ∀ {p : Pc}, s.pc = p → (∀ i res, p ≠ .switch i res) →
      cs ++ taken s .step = cs := by
    intro p hp hne
    rw [taken, hp]
    cases p with
    | switch i res => exact absurd rfl (hne i res)
    | _ => exact List.append_nil cs
  unfold State.Counted at h
  unfold OpenDaemon.step at hs
  cases hpc : s.pc <;> rw [hpc] at hs hat h
  case switch i res =>
      cases hr : s.heap i with
      | none =>
          simp only [hr] at hs
          obtain rfl := Option.some.inj hs
          trivial
      | some r =>
          simp only [hr] at hs
          obtain rfl := Option.some.inj hs
          have hcs : taken s .step = [(r.type, res)] := by
            rw [taken, hpc]
            simp only [hr]
            rfl
          rw [hcs]
          exact counted_switch hr h
  all_goals rw [htaken hpc nofun]
  case addAccept =>
      obtain rfl := Option.some.inj hs
      refine counted_addRequest ?_
      show s.liveAccepts + 1 = served cs + 1
      rw [h]
  case submit | submitAgain =>
      obtain rfl := Option.some.inj hs
      exact counted_submit (by rw [State.Counted, hpc]; exact h) h
  case waitCqe =>
      cases hcq : s.ring.cq with
      | nil =>
          simp only [hcq] at hs
          cases hs
      | cons c tail =>
          simp only [hcq] at hs
          obtain rfl := Option.some.inj hs
          exact h
  case addRead i fd =>
      obtain rfl := Option.some.inj hs
      obtain ⟨-, res, r, c, hcur, -⟩ := hat
      refine counted_addRequest ⟨h.1, ?_⟩
      rw [isAccept, Function.update_of_ne (hinv.cur_ne_nextReq hcur)]
      exact h.2
  case addAcceptAgain i =>
      obtain rfl := Option.some.inj hs
      obtain ⟨-, res, r, hcur, -⟩ := hat
      refine counted_addRequest ?_
      show s.liveAccepts + 1 = served cs + (isAccept _ i).toNat
      have hi : isAccept (Function.update s.heap s.nextReq (some { type := .accept })) i = true := by
        rw [isAccept, Function.update_of_ne (hinv.cur_ne_nextReq hcur)]
        exact h.2
      rw [hi, h.1]
      rfl
  case close i =>
      cases hr : s.heap i with
      | none =>
          simp only [hr] at hs
          obtain rfl := Option.some.inj hs
          trivial
      | some r =>
          simp only [hr] at hs
          obtain rfl := Option.some.inj hs
          show s.liveAccepts = served cs + (isAccept s.heap i).toNat
          rw [h.1, h.2]
          rfl
  case delete i =>
      obtain ⟨res, r, hcur, hr, -⟩ := hat
      simp only [hr] at hs
      obtain rfl := Option.some.inj hs
      have hlt : i < s.nextReq := by
        have hgone := hinv.reqs.not_gone (.inr ⟨res, hcur⟩)
        omega
      have hlive := liveAccepts_delete hlt
      have hbefore : s.liveAccepts = served cs + (isAccept s.heap i).toNat := h
      show (List.range s.nextReq).countP (isAccept (Function.update s.heap i none)) = served cs
      omega
  case cqeSeen =>
      obtain rfl := Option.some.inj hs
      exact h
  case handle | exited | fault => cases hs

/-- `handle_client_request`. -/
theorem counted_handleClientRequest (h : s.Counted cs) {opens : UnixSocket.Opens φ}
    {pad : BitVec 32} {sent : Bool} (hs : handleClientRequest s opens pad sent = some s') :
    s'.Counted cs := by
  unfold State.Counted at h
  unfold OpenDaemon.handleClientRequest at hs
  cases hpc : s.pc <;> rw [hpc] at hs h
  case handle i len =>
      cases hr : s.heap i with
      | none =>
          simp only [hr] at hs
          obtain rfl := Option.some.inj hs
          trivial
      | some r =>
          simp only [hr] at hs
          obtain rfl := Option.some.inj hs
          exact h
  all_goals cases hs

/-- The kernel stores what was read in the request. -/
theorem isAccept_update {heap : ℕ → Option Request} {i : ℕ} {r r' : Request}
    (hr : heap i = some r) (htype : r'.type = r.type) :
    isAccept (Function.update heap i (some r')) = isAccept heap := by
  funext j
  rcases eq_or_ne j i with rfl | hne
  · rw [isAccept, isAccept, Function.update_self, hr]
    show decide (r'.type = .accept) = decide (r.type = .accept)
    rw [htype]
  · rw [isAccept, isAccept, Function.update_of_ne hne]

variable [DecidableEq φ]

/-- **Every action keeps the count.** -/
theorem counted_next (hinv : Inv listenFd s held) (h : s.Counted cs)
    {a : Action φ} (hs : next listenFd s a = some s') : s'.Counted (cs ++ taken s a) := by
  have htaken : taken s a = [] → cs ++ taken s a = cs := fun hnil => by
    rw [hnil, List.append_nil]
  cases a with
  | step => exact counted_step hinv h hs
  | handle opens pad sent =>
      rw [htaken rfl]
      exact counted_handleClientRequest h hs
  | waitFails =>
      rw [htaken rfl]
      change (if s.pc = .waitCqe then some (s.goto .exited) else none) = some s' at hs
      split at hs
      case isFalse => cases hs
      case isTrue hpc =>
          obtain rfl := Option.some.inj hs
          unfold State.Counted at h
          rw [hpc] at h
          exact h
  | accepts i n =>
      rw [htaken rfl]
      change accepts s i n = some s' at hs
      unfold accepts at hs
      split at hs
      case isFalse => cases hs
      case isTrue =>
          split at hs <;> obtain rfl := Option.some.inj hs
          · trivial
          · exact h
  | reads i c bytes =>
      rw [htaken rfl]
      change reads s i c bytes = some s' at hs
      unfold reads at hs
      split at hs
      case isFalse => cases hs
      case isTrue =>
          split at hs <;> obtain rfl := Option.some.inj hs
          case h_1 => trivial
          case h_2 r hr =>
              have hsame : isAccept (Function.update s.heap i
                  (some { r with buffer := bytes ++ r.buffer.drop bytes.length })) =
                  isAccept s.heap := isAccept_update hr rfl
              unfold State.Counted State.liveAccepts
              rw [hsame]
              exact h.of_eq hsame
  | fails i f errno =>
      rw [htaken rfl]
      change fails s i f errno = some s' at hs
      unfold fails at hs
      split at hs
      case isFalse => cases hs
      case isTrue =>
          obtain rfl := Option.some.inj hs
          exact h

/-- **The count is right in every run.** -/
theorem counted_reach {p : State φ × List (OpType × ℤ)} (h : (daemonTaken φ listenFd).Reach p) :
    p.1.Counted p.2 := by
  induction h with
  | start h₀ =>
      obtain ⟨⟨fds, -, hinit⟩, hnil⟩ := h₀
      rw [hinit, hnil]
      rfl
  | step hreach hs ih =>
      obtain ⟨hnext, hcs⟩ := Machine.recorded_next hs
      obtain ⟨held, hinv⟩ := inv_reach hreach.of_recorded
      rw [hcs]
      exact counted_next hinv ih hnext

end Steps

/-! ### The ring -/

section Waiting

variable {listenFd : ℕ} {s : State φ} {held : ℕ → Option (Held φ)} {cs : List (OpType × ℤ)}

/-- When the loop waits, the allocated accepts are those in the ring. -/
theorem Inv.outstandingAccepts (h : Inv listenFd s held) (hpc : s.pc = .waitCqe) :
    s.outstandingAccepts = s.liveAccepts := by
  have hat := h.pc
  rw [hpc] at hat
  have hseen : s.ring.seen.countP (isAccept s.heap) = 0 := by
    refine List.countP_eq_zero.mpr fun i hi => ?_
    rw [isAccept, (h.reqs.gone (.inr hi)).1]
    nofun
  -- every request is in the ring, at hand, or seen
  have htags := h.reqs.acc.countP_eq (isAccept s.heap)
  rw [IoRing.tags, hat.2] at htags
  simp only [List.countP_append, hseen] at htags
  rw [State.outstandingAccepts, State.liveAccepts, ← htags, List.countP_append, List.countP_append]
  simp

variable [DecidableEq φ]

/-- **The number of accepts** each time the loop waits: one more than the clients accepted and
the reads completed so far. -/
theorem outstandingAccepts_eq (h : (daemonTaken φ listenFd).Reach (s, cs)) (hpc : s.pc = .waitCqe) :
    s.outstandingAccepts = served cs + 1 := by
  obtain ⟨held, hinv⟩ := inv_reach h.of_recorded
  have hcount := counted_reach h
  unfold State.Counted at hcount
  rw [hpc] at hcount
  exact (hinv.outstandingAccepts hpc).trans hcount

/-- There is exactly one accept in the ring as long as every completion was a failed accept. -/
theorem outstandingAccepts_eq_one_iff (h : (daemonTaken φ listenFd).Reach (s, cs))
    (hpc : s.pc = .waitCqe) :
    s.outstandingAccepts = 1 ↔ ∀ c ∈ cs, c.1 = .accept ∧ c.2 < 0 := by
  rw [outstandingAccepts_eq h hpc, Nat.add_eq_right, served, List.countP_eq_zero]
  simp [acceptFailed]

end Waiting

/-- A client that is gone before it is accepted. -/
def abortedRun : List (Action ℕ) :=
  List.replicate 3 .step ++ [.fails 0 ⟨.accept, some .listener⟩ 103] ++ List.replicate 8 .step

theorem abortedRun_accepts : ∃ s, (daemonTaken ℕ 0).Reach (s, [(.accept, -103)]) ∧
    s.pc = .waitCqe ∧ s.outstandingAccepts = 1 := by
  have hrun : ((daemonTaken ℕ 0).run (initState ⟨[some .listener]⟩, []) abortedRun).map
      (fun p => (p.1.pc, p.2)) = some (.waitCqe, [(.accept, -103)]) := by
    decide +kernel
  obtain ⟨⟨s, cs⟩, hs, hobs⟩ := Option.map_eq_some_iff.mp hrun
  obtain ⟨hpc, rfl⟩ := Prod.mk.inj hobs
  have hreach := Machine.reach_of_run (M := daemonTaken ℕ 0)
    ⟨⟨_, listening_single, rfl⟩, rfl⟩ hs
  exact ⟨s, hreach, hpc, (outstandingAccepts_eq_one_iff hreach hpc).mpr (by simp)⟩

/-- A client is accepted, at descriptor 1, and the loop waits again: the kernel has two accepts. -/
def acceptedRun : List (Action ℕ) :=
  List.replicate 3 .step ++ [.accepts 0 1] ++ List.replicate 12 .step

theorem acceptedRun_accepts : ∃ s, (daemonTaken ℕ 0).Reach (s, [(.accept, 1)]) ∧
    s.pc = .waitCqe ∧ s.ring.cq = [] ∧ s.outstandingAccepts = 2 ∧
    s.ring.inflight.countP (fun f => f.2.op = .accept) = 2 := by
  have hrun : ((daemonTaken ℕ 0).run (initState ⟨[some .listener]⟩, []) acceptedRun).map
      (fun p => ((p.1.pc, p.2), p.1.ring.cq, p.1.outstandingAccepts,
        p.1.ring.inflight.countP fun f => f.2.op = .accept)) =
      some ((.waitCqe, [(.accept, 1)]), [], 2, 2) := by
    decide +kernel
  obtain ⟨⟨s, cs⟩, hs, hobs⟩ := Option.map_eq_some_iff.mp hrun
  obtain ⟨hstate, hring⟩ := Prod.mk.inj hobs
  obtain ⟨hpc, rfl⟩ := Prod.mk.inj hstate
  obtain ⟨hcq, hcount⟩ := Prod.mk.inj hring
  have hreach := Machine.reach_of_run (M := daemonTaken ℕ 0)
    ⟨⟨_, listening_single, rfl⟩, rfl⟩ hs
  exact ⟨s, hreach, hpc, hcq, (Prod.mk.inj hcount).1, (Prod.mk.inj hcount).2⟩

end Apue.OpenDaemon
