/-
Apue/UptimeServers.lean

The loops of the uptime servers, `16/6_remote_uptime_server_tcp.cpp` and
`16/8_remote_uptime_server_udp.cpp`.

    do {
        queue a request;  io_uring_submit;
        if (io_uring_wait_cqe fails) continue;
        io_uring_cqe_seen;  serve the client;  delete req;
    } while (true)

The servers differ in the operation they queue and in what they do with its result.  Every
iteration allocates and queues one request, and ends by freeing one whose completion it has
consumed, or, if waiting fails, by nothing.  So the requests outstanding are one and those of
the iterations that failed (`outstanding_eq`), and there is one only as long as waiting has
never failed (`one_outstanding_iff`).  Each request is freed once, when its completion has
been consumed.  The TCP server closes every descriptor it gets (`no_client_open`).

A request is a heap object whose address is the tag of its entry in the ring; addresses are
not used again here, so that a use after `delete` shows (`Pc.fault`).  A request is
outstanding from its submission until the loop consumes its completion.

Left out: the set-up before the loop, what is written to the system log, and the child
processes that run `uptime`.  `io_uring_submit` does not fail.
-/
import Apue.FdTable
import Apue.IoRing
import Apue.Machine

namespace Apue.UptimeServers

/-! ### State -/

inductive OpType
  | accept
  | recieve
  deriving DecidableEq, Repr

/-- The two programs. -/
inductive Server
  | tcp
  | udp
  deriving DecidableEq, Repr

/-- The operation that `queue_accept` and `queue_recv` prepare. -/
def Server.op : Server → OpType
  | .tcp => .accept
  | .udp => .recieve

/-- `struct Request`; the address and the buffer that the kernel fills are used by the child
process only. -/
structure Request where
  type : OpType
  deriving DecidableEq, Repr

/-- `QUEUE_DEPTH`, a power of two. -/
def queueDepth : ℕ := 256

/-- `BUFLEN`. -/
def buflen : ℕ := 128

/-- The next operation of a server. -/
inductive Pc
  | queue                         -- queue_accept(&ring, server_fd), queue_recv(&ring, server_fd)
  | submit                        -- io_uring_submit(&ring)
  | waitCqe                       -- io_uring_wait_cqe(&ring, &cqe)
  | cqeSeen (req : ℕ) (res : ℤ)   -- io_uring_cqe_seen(&ring, cqe)
  | test (req : ℕ) (res : ℤ)      -- if (req->type == ...) if (res >= 0)
  | handle (req : ℕ) (res : ℤ)    -- handle_client_fork(...)
  | delete (req : ℕ)              -- delete req
  | fault                         -- a freed request or a missing queue entry was used
  deriving DecidableEq, Repr

/-- The state of a server and of its part of the kernel: `fds` are the descriptors of the
clients, open on a connection. -/
structure State where
  pc : Pc
  heap : ℕ → Option Request
  nextReq : ℕ
  ring : IoRing OpType OpType ℤ
  fds : FdTable ℕ
  nextConn : ℕ
  /-- the requests deleted, in order -/
  freed : List ℕ

/-- A server before its loop. -/
def initState (fds : FdTable ℕ) : State where
  pc := .queue
  heap := fun _ => none
  nextReq := 0
  ring := .empty
  fds := fds
  nextConn := 0
  freed := []

/-! ### The servers -/

/-- The server continues at `p`. -/
def State.goto (s : State) (p : Pc) : State := { s with pc := p }

/-- `queue_accept` and `queue_recv`: a new request and an entry for it. -/
def State.queueRequest (srv : Server) (s : State) : State :=
  if s.ring.sq.length < queueDepth then
    { s with
      pc := .submit
      heap := Function.update s.heap s.nextReq (some ⟨srv.op⟩)
      nextReq := s.nextReq + 1
      ring := s.ring.prep s.nextReq srv.op }
  else s.goto .fault

/-- `io_uring_submit`: the kernel issues the prepared operations one by one. -/
def State.submit (s : State) : State :=
  match s.ring.sq with
  | [] => s.goto .waitCqe
  | (i, op) :: _ => { s with ring := s.ring.issue i op }

/-- What `handle_client_fork` does in the parent: the TCP server closes the descriptor of the
client, whether `fork` has failed or not. -/
def State.handleClientFork (srv : Server) (s : State) (req : ℕ) (res : ℤ) : State :=
  match srv with
  | .tcp => { s with pc := .delete req, fds := s.fds.close res.toNat }
  | .udp => s.goto (.delete req)

/-- One operation of a server. -/
def step (srv : Server) (s : State) : Option State :=
  match s.pc with
  | .queue => some (s.queueRequest srv)
  | .submit => some s.submit
  | .waitCqe =>
      match s.ring.cq with
      | [] => none
      | (req, res) :: _ => some { s with pc := .cqeSeen req res, ring := s.ring.peek }
  | .cqeSeen req res => some { s with pc := .test req res, ring := s.ring.advance }
  | .test req res =>
      match s.heap req with
      | none => some (s.goto .fault)
      | some r =>
          if r.type = srv.op ∧ 0 ≤ res then some (s.goto (.handle req res))
          else some (s.goto (.delete req))
  | .handle req res => some (s.handleClientFork srv req res)
  | .delete req =>
      match s.heap req with
      | none => some (s.goto .fault)
      | some _ =>
          some { s with
            pc := .queue
            heap := Function.update s.heap req none
            freed := s.freed ++ [req] }
  | .fault => none

/-! ### The kernel -/

/-- The operation of request `i` completes with `res`.  An accepted connection gets a free
descriptor; the address of the client is stored in the request. -/
def completes (srv : Server) (s : State) (i : ℕ) (res : ℤ) : Option State :=
  if (i, srv.op) ∈ s.ring.inflight then
    let s' := { s with ring := s.ring.complete i srv.op res }
    if res < 0 then some s'
    else
      match s.heap i with
      | none => some (s.goto .fault)
      | some _ =>
          match srv with
          | .tcp =>
              if s.fds.get res.toNat = none then
                some { s' with
                  fds := s.fds.openAt res.toNat s.nextConn
                  nextConn := s.nextConn + 1 }
              else none
          | .udp => if res.toNat ≤ buflen then some s' else none
  else none

/-- What can happen next. -/
inductive Action
  | step
  | waitFails
  | completes (i : ℕ) (res : ℤ)
  deriving DecidableEq, Repr

/-- One step of a server or of the kernel.  The loop goes on if waiting fails. -/
def next (srv : Server) (s : State) : Action → Option State
  | .step => step srv s
  | .waitFails => if s.pc = .waitCqe then some (s.goto .queue) else none
  | .completes i res => completes srv s i res

/-- A server and its clients. -/
def server (srv : Server) (fds : FdTable ℕ) : Machine State Action where
  init s := s = initState fds
  next := next srv

/-! ### What is counted -/

/-- What `io_uring_wait_cqe` returned. -/
inductive Wait
  | error
  | completion (res : ℤ)
  deriving DecidableEq, Repr

/-- What waiting returned in a step, if the step was one. -/
def waited (s : State) : Action → List Wait
  | .step =>
      if s.pc = .waitCqe then (s.ring.cq.head?.map fun c => Wait.completion c.2).toList else []
  | .waitFails => [.error]
  | .completes _ _ => []

/-- A server, with what waiting has returned. -/
def serverWaits (srv : Server) (fds : FdTable ℕ) : Machine (State × List Wait) Action :=
  (server srv fds).recorded waited

/-- The requests for `op` that are prepared, in flight, or completed and not yet consumed. -/
def State.outstanding (s : State) (op : OpType) : ℕ :=
  (s.ring.sq.map Prod.fst ++ (s.ring.inflight.map Prod.fst ++ s.ring.cq.map Prod.fst)).countP
    fun i => (s.heap i).any fun r => r.type = op

/-- The requests deleted are those whose completion was consumed, each once, and the others
are allocated. -/
structure State.FreedOnce (s : State) : Prop where
  nodup : s.freed.Nodup
  consumed : s.freed = s.ring.seen
  allocated : ∀ i < s.nextReq, (s.heap i).isSome ↔ i ∉ s.freed

/-! ### Invariant -/

/-- What the ring and the freed requests are at each program counter. -/
def At (r : IoRing OpType OpType ℤ) (freed : List ℕ) : Pc → Prop
  | .queue | .waitCqe => r.sq = [] ∧ r.cur = none ∧ r.seen = freed
  | .submit => r.cur = none ∧ r.seen = freed
  | .cqeSeen i res => r.sq = [] ∧ r.cur = some (i, res) ∧ r.seen = freed
  -- consumed and not yet freed
  | .test i _ | .delete i => r.sq = [] ∧ r.cur = none ∧ r.seen = freed ++ [i]
  | .handle i res => (r.sq = [] ∧ r.cur = none ∧ r.seen = freed ++ [i]) ∧ 0 ≤ res
  | .fault => False

/-- The request that the iteration has allocated. -/
def Pc.allocated : Pc → ℕ
  | .queue => 0
  | _ => 1

/-- A state after `errors` failures of waiting. -/
structure Inv (srv : Server) (errors : ℕ) (s : State) : Prop where
  accounted : s.ring.Accounted s.nextReq
  live : ∀ i < s.nextReq, i ∉ s.freed → s.heap i = some ⟨srv.op⟩
  gone : ∀ i ∈ s.freed, s.heap i = none
  pc : At s.ring s.freed s.pc
  -- every iteration allocates one request, and frees one or has failed to wait
  count : s.nextReq = errors + s.freed.length + s.pc.allocated

section Steps

variable {srv : Server} {fds : FdTable ℕ} {errors : ℕ} {s s' : State} {i : ℕ} {res : ℤ}

theorem inv_init : Inv srv 0 (initState fds) :=
  ⟨IoRing.accounted_empty, fun _ h => absurd h (Nat.not_lt_zero _),
    fun _ h => absurd h List.not_mem_nil, ⟨rfl, rfl, rfl⟩, rfl⟩

/-- A request that is in the ring is not freed. -/
theorem Inv.not_freed_of_has {e : IoRing.Entry OpType OpType ℤ} (h : Inv srv errors s)
    (he : s.ring.Has i e) : i ∉ s.freed := by
  have hseen : i ∉ s.ring.seen := fun hi => h.accounted.not_has_seen hi he
  have hpc := h.pc
  cases hp : s.pc <;> rw [hp] at hpc
  case fault => exact hpc.elim
  case submit => exact hpc.2 ▸ hseen
  case queue | waitCqe | cqeSeen => exact hpc.2.2 ▸ hseen
  case test | delete =>
      rw [hpc.2.2] at hseen
      exact fun hi => hseen (List.mem_append_left _ hi)
  case handle =>
      rw [hpc.1.2.2] at hseen
      exact fun hi => hseen (List.mem_append_left _ hi)

/-- The request whose completion was consumed is still allocated. -/
theorem Inv.live_consumed (h : Inv srv errors s) (hseen : s.ring.seen = s.freed ++ [i]) :
    s.heap i = some ⟨srv.op⟩ := by
  have hmem : i ∈ s.ring.seen := hseen ▸ List.mem_append_right _ List.mem_cons_self
  have hnd := hseen ▸ h.accounted.seen_nodup
  refine h.live i (h.accounted.lt_of_seen hmem) ?_
  exact fun hi => (List.nodup_append.mp hnd).2.2 i hi i List.mem_cons_self rfl

/-- The program counter moves. -/
theorem Inv.goto {p : Pc} (h : Inv srv errors s) (hp : At s.ring s.freed p)
    (hcount : p.allocated = s.pc.allocated) : Inv srv errors (s.goto p) :=
  ⟨h.accounted, h.live, h.gone, hp, hcount ▸ h.count⟩

/-- `queue_accept`, `queue_recv`. -/
theorem inv_queueRequest (h : Inv srv errors s) (hpc : s.pc = .queue) :
    Inv srv errors (s.queueRequest srv) := by
  have hat := h.pc
  have hcount := h.count
  rw [hpc] at hat hcount
  obtain ⟨hsq, hcur, hseen⟩ := hat
  have hroom : s.ring.sq.length < queueDepth := by
    rw [hsq]
    decide
  rw [State.queueRequest, if_pos hroom]
  refine ⟨h.accounted.prep srv.op, fun i hi hf => ?_, fun i hi => ?_, ⟨hcur, hseen⟩,
    congrArg (· + 1) hcount⟩
  · show Function.update s.heap s.nextReq _ i = _
    rcases Nat.lt_succ_iff_lt_or_eq.mp hi with hlt | rfl
    · rw [Function.update_of_ne (Nat.ne_of_lt hlt)]
      exact h.live i hlt hf
    · exact Function.update_self ..
  · show Function.update s.heap s.nextReq _ i = none
    rw [Function.update_of_ne (Nat.ne_of_lt (h.accounted.lt_of_seen (hseen ▸ hi)))]
    exact h.gone i hi

/-- `io_uring_submit`. -/
theorem inv_submit (h : Inv srv errors s) (hpc : s.pc = .submit) : Inv srv errors s.submit := by
  have hat := h.pc
  rw [hpc] at hat
  unfold State.submit
  split
  case h_1 hsq =>
      refine h.goto ⟨hsq, hat⟩ ?_
      rw [hpc]
      rfl
  case h_2 i op rest hsq =>
      refine ⟨h.accounted.issue hsq op, h.live, h.gone, ?_, h.count⟩
      show At _ s.freed s.pc
      rw [hpc]
      exact hat

/-- `delete req`. -/
theorem inv_delete (h : Inv srv errors s) (hpc : s.pc = .delete i) :
    Inv srv errors { s with
      pc := .queue
      heap := Function.update s.heap i none
      freed := s.freed ++ [i] } := by
  have hat := h.pc
  have hcount := h.count
  rw [hpc] at hat hcount
  refine ⟨h.accounted, fun j hj hf => ?_, fun j hj => ?_, hat, ?_⟩
  · have hne : j ≠ i := fun hji => hf (List.mem_append_right _ (List.mem_singleton.mpr hji))
    show Function.update s.heap i none j = _
    rw [Function.update_of_ne hne]
    exact h.live j hj fun hmem => hf (List.mem_append_left _ hmem)
  · show Function.update s.heap i none j = none
    rcases eq_or_ne j i with rfl | hne
    · exact Function.update_self ..
    · rw [Function.update_of_ne hne]
      exact h.gone j ((List.mem_append.mp hj).resolve_right
        fun hmem => hne (List.mem_singleton.mp hmem))
  · show s.nextReq = errors + (s.freed ++ [i]).length + 0
    rw [List.length_append, hcount]
    exact Nat.add_assoc ..

/-- **One operation of a server keeps the invariant.** -/
theorem inv_step (h : Inv srv errors s) (hs : step srv s = some s') : Inv srv errors s' := by
  have hat := h.pc
  have hcount := h.count
  unfold step at hs
  cases hpc : s.pc <;> rw [hpc] at hs hat hcount <;> dsimp only at hs
  case queue =>
      obtain rfl := Option.some.inj hs
      exact inv_queueRequest h hpc
  case submit =>
      obtain rfl := Option.some.inj hs
      exact inv_submit h hpc
  case waitCqe =>
      obtain ⟨hsq, hcur, hseen⟩ := hat
      split at hs
      case h_1 => exact nomatch hs
      case h_2 req res rest hcq =>
          obtain rfl := Option.some.inj hs
          have hhead : s.ring.peek.cur = some (req, res) := congrArg List.head? hcq
          exact ⟨h.accounted.peek hcur, h.live, h.gone, ⟨hsq, hhead, hseen⟩, hcount⟩
  case cqeSeen req res =>
      obtain ⟨hsq, hcur, hseen⟩ := hat
      obtain rfl := Option.some.inj hs
      have hadvance : s.ring.advance.seen = s.freed ++ [req] := by
        show s.ring.seen ++ (s.ring.cur.map Prod.fst).toList = _
        rw [hcur, hseen]
        rfl
      exact ⟨h.accounted.advance, h.live, h.gone, ⟨hsq, rfl, hadvance⟩, hcount⟩
  case test req res =>
      rw [h.live_consumed hat.2.2] at hs
      dsimp only at hs
      split at hs <;> obtain rfl := Option.some.inj hs
      case isTrue hcond => exact h.goto ⟨hat, hcond.2⟩ (by rw [hpc]; rfl)
      case isFalse => exact h.goto hat (by rw [hpc]; rfl)
  case handle req res =>
      obtain rfl := Option.some.inj hs
      cases srv <;> exact ⟨h.accounted, h.live, h.gone, hat.1, hcount⟩
  case delete req =>
      rw [h.live_consumed hat.2.2] at hs
      obtain rfl := Option.some.inj hs
      exact inv_delete h hpc
  case fault => exact nomatch hs

/-- A failure leaves the request of the iteration where it is. -/
theorem inv_waitFails (h : Inv srv errors s) (hpc : s.pc = .waitCqe) :
    Inv srv (errors + 1) (s.goto .queue) := by
  have hat := h.pc
  have hcount := h.count
  rw [hpc] at hat hcount
  refine ⟨h.accounted, h.live, h.gone, hat, ?_⟩
  show s.nextReq = errors + 1 + s.freed.length + 0
  rw [hcount]
  exact Nat.add_right_comm errors s.freed.length 1

/-- What a completion does to the descriptors. -/
def Opens (srv : Server) (res : ℤ) (fds fds' : FdTable ℕ) : Prop :=
  fds' = fds ∧ (srv = .tcp → res < 0) ∨
    ∃ n c, srv = .tcp ∧ res = (n : ℕ) ∧ fds.get n = none ∧ fds' = fds.openAt n c

/-- What `completes` can do: the operation is completed, and the descriptors change. -/
theorem completes_cases (h : Inv srv errors s) (hs : completes srv s i res = some s') :
    (i, srv.op) ∈ s.ring.inflight ∧ ∃ fds n, Opens srv res s.fds fds ∧
      s' = { s with ring := s.ring.complete i srv.op res, fds := fds, nextConn := n } := by
  unfold completes at hs
  split at hs
  case isFalse => exact nomatch hs
  case isTrue hmem =>
      have hlive : s.heap i = some ⟨srv.op⟩ :=
        h.live i (IoRing.Has.lt h.accounted (e := .inflight srv.op) hmem)
          (h.not_freed_of_has (e := .inflight srv.op) hmem)
      refine ⟨hmem, ?_⟩
      rw [hlive] at hs
      dsimp only at hs
      split at hs
      case isTrue hneg => exact ⟨_, _, .inl ⟨rfl, fun _ => hneg⟩, (Option.some.inj hs).symm⟩
      case isFalse hres =>
          cases srv <;> dsimp only at hs <;> split at hs
          case tcp.isTrue hfree =>
              have hnat : res = (res.toNat : ℕ) := (Int.toNat_of_nonneg (Int.not_lt.mp hres)).symm
              exact ⟨_, _, .inr ⟨_, _, rfl, hnat, hfree, rfl⟩, (Option.some.inj hs).symm⟩
          case udp.isTrue => exact ⟨_, _, .inl ⟨rfl, nofun⟩, (Option.some.inj hs).symm⟩
          all_goals exact nomatch hs

/-- **A completion keeps the invariant.** -/
theorem inv_completes (h : Inv srv errors s) (hs : completes srv s i res = some s') :
    Inv srv errors s' := by
  obtain ⟨hmem, fds, n, -, rfl⟩ := completes_cases h hs
  refine ⟨h.accounted.complete hmem res, h.live, h.gone, ?_, h.count⟩
  have hat := h.pc
  show At _ s.freed s.pc
  cases hpc : s.pc <;> rw [hpc] at hat <;> exact hat

end Steps

/-! ### Runs -/

section Runs

variable {srv : Server} {fds : FdTable ℕ} {errors : ℕ} {s : State} {ws : List Wait}

theorem count_error_waited_step (s : State) : (waited s .step).count .error = 0 := by
  refine List.count_eq_zero.mpr fun hmem => ?_
  rw [waited] at hmem
  split at hmem
  · obtain ⟨c, -, hc⟩ := Option.map_eq_some_iff.mp (Option.mem_toList.mp hmem)
    exact nomatch hc
  · exact List.not_mem_nil hmem

/-- **The invariant holds in every run.** -/
theorem inv_reach (h : (serverWaits srv fds).Reach (s, ws)) : Inv srv (ws.count .error) s := by
  refine Machine.Reach.invariant (I := fun p => Inv srv (p.2.count .error) p.1) ?_ ?_ h
  · rintro ⟨s, ws⟩ ⟨rfl, rfl⟩
    exact inv_init
  · rintro ⟨s, ws⟩ a ⟨s', ws'⟩ hinv hs
    obtain ⟨hnext, rfl⟩ := Machine.recorded_next hs
    dsimp only at hnext hinv ⊢
    rw [List.count_append]
    cases a with
    | step =>
        rw [count_error_waited_step]
        exact inv_step hinv hnext
    | waitFails =>
        obtain ⟨hpc, hs'⟩ := Option.ite_none_right_eq_some.mp hnext
        obtain rfl := Option.some.inj hs'
        exact inv_waitFails hinv hpc
    | completes i res => exact inv_completes hinv hnext

/-- All requests that are allocated are outstanding when the server waits. -/
theorem Inv.outstanding_add_freed (h : Inv srv errors s) (hpc : s.pc = .waitCqe) :
    s.outstanding srv.op + s.freed.length = s.nextReq := by
  have hat := h.pc
  rw [hpc] at hat
  obtain ⟨-, hcur, hseen⟩ := hat
  have hall : s.outstanding srv.op = (s.ring.sq.map Prod.fst ++
      (s.ring.inflight.map Prod.fst ++ s.ring.cq.map Prod.fst)).length := by
    refine List.countP_eq_length.mpr fun i hi => ?_
    obtain ⟨e, he⟩ : ∃ e, s.ring.Has i e := by
      simp only [List.mem_append, List.mem_map, Prod.exists, exists_and_right,
        exists_eq_right] at hi
      rcases hi with ⟨op, hop⟩ | ⟨op, hop⟩ | ⟨res, hres⟩
      · exact ⟨.prepared op, hop⟩
      · exact ⟨.inflight op, hop⟩
      · exact ⟨.done res, hres⟩
    rw [h.live i (IoRing.Has.lt h.accounted he) (h.not_freed_of_has he)]
    exact decide_eq_true rfl
  have hlen := h.accounted.length_eq
  rw [IoRing.tags, hcur, hseen, List.length_range] at hlen
  rw [hall, ← hlen]
  simp only [List.length_append, Option.map_none, Option.toList_none, List.length_nil]
  omega

/-- **The requests outstanding are one and those of the iterations that failed.** -/
theorem outstanding_eq (h : (serverWaits srv fds).Reach (s, ws)) (hpc : s.pc = .waitCqe) :
    s.outstanding srv.op = ws.count .error + 1 := by
  have hinv := inv_reach h
  have hcount := hinv.count
  have hall := hinv.outstanding_add_freed hpc
  rw [hpc] at hcount
  simp only [Pc.allocated] at hcount
  omega

theorem Inv.freedOnce (h : Inv srv errors s) (hpc : s.pc = .waitCqe) : s.FreedOnce := by
  have hat := h.pc
  rw [hpc] at hat
  refine ⟨hat.2.2 ▸ h.accounted.seen_nodup, hat.2.2.symm, fun i hi => ⟨fun hsome hf => ?_, ?_⟩⟩
  · rw [h.gone i hf] at hsome
    exact nomatch hsome
  · intro hf
    rw [h.live i hi hf]
    rfl

/-- **When a server waits, one request is outstanding exactly if waiting has never failed; no
freed request is ever used, and each is freed once, when its completion has been consumed.** -/
theorem one_outstanding_iff (h : (serverWaits srv fds).Reach (s, ws)) :
    s.pc ≠ .fault ∧ (s.pc = .waitCqe →
      (s.outstanding srv.op = 1 ↔ Wait.error ∉ ws) ∧ s.FreedOnce) := by
  have hinv := inv_reach h
  refine ⟨fun hpc => ?_, fun hpc => ⟨?_, hinv.freedOnce hpc⟩⟩
  · have hat := hinv.pc
    rw [hpc] at hat
    exact hat
  · rw [outstanding_eq h hpc, Nat.add_eq_right]
    exact List.count_eq_zero

/-- An iteration queues and submits its request. -/
def queueAndSubmit : List Action := [.step, .step, .step]

/-- An iteration goes on after the completion of request `i`. -/
def serveClient (i : ℕ) (res : ℤ) : List Action :=
  [.completes i res, .step, .step, .step, .step, .step]

theorem serverWaits_init (srv : Server) (fds : FdTable ℕ) :
    (serverWaits srv fds).init (initState fds, []) := ⟨rfl, rfl⟩

/-- What a reader of a run looks at. -/
def observe (op : OpType) (p : State × List Wait) : Pc × ℕ × List ℕ × List Wait :=
  (p.1.pc, p.1.outstanding op, p.1.freed, p.2)

/-- A client is served, an accept fails, and one accept is outstanding again. -/
theorem one_outstanding_after_serving :
    ∃ p, (serverWaits .tcp ⟨[]⟩).Reach p ∧
      (p.1.pc ≠ .fault ∧ (p.1.pc = .waitCqe →
        (p.1.outstanding .accept = 1 ↔ Wait.error ∉ p.2) ∧ p.1.FreedOnce)) ∧
      observe .accept p = (.waitCqe, 1, [0, 1], [.completion 3, .completion (-11)]) := by
  have hrun : ((serverWaits .tcp ⟨[]⟩).run (initState ⟨[]⟩, [])
      (queueAndSubmit ++ serveClient 0 3 ++ queueAndSubmit ++ [.completes 1 (-11)] ++
        [.step, .step, .step, .step] ++ queueAndSubmit)).map (observe .accept) =
      some (.waitCqe, 1, [0, 1], [.completion 3, .completion (-11)]) := by
    decide +kernel
  obtain ⟨p, hp, hobs⟩ := Option.map_eq_some_iff.mp hrun
  have hreach := Machine.reach_of_run (serverWaits_init _ _) hp
  exact ⟨p, hreach, one_outstanding_iff hreach, hobs⟩

/-- An iteration fails to wait, and the next one waits. -/
theorem reach_after_error (srv : Server) :
    ∃ p, (serverWaits srv ⟨[]⟩).Reach p ∧ observe srv.op p = (.waitCqe, 2, [], [.error]) := by
  have hrun : ((serverWaits srv ⟨[]⟩).run (initState ⟨[]⟩, [])
      (queueAndSubmit ++ [.waitFails] ++ queueAndSubmit)).map (observe srv.op) =
      some (.waitCqe, 2, [], [.error]) := by
    cases srv <;> decide +kernel
  obtain ⟨p, hp, hobs⟩ := Option.map_eq_some_iff.mp hrun
  exact ⟨p, Machine.reach_of_run (serverWaits_init _ _) hp, hobs⟩

/-- Waiting fails once, and at the next wait two requests are outstanding. -/
theorem two_outstanding_after_error :
    (∃ p, (serverWaits .tcp ⟨[]⟩).Reach p ∧
      p.1.pc = .waitCqe ∧ p.1.outstanding .accept = 2 ∧ p.2 = [.error]) ∧
    ∃ p, (serverWaits .udp ⟨[]⟩).Reach p ∧
      p.1.pc = .waitCqe ∧ p.1.outstanding .recieve = 2 ∧ p.2 = [.error] := by
  obtain ⟨p, hp, hobs⟩ := reach_after_error .tcp
  obtain ⟨q, hq, hobs'⟩ := reach_after_error .udp
  simp only [observe, Prod.mk.injEq] at hobs hobs'
  exact ⟨⟨p, hp, hobs.1, hobs.2.1, hobs.2.2.2⟩, q, hq, hobs'.1, hobs'.2.1, hobs'.2.2.2⟩

end Runs

/-! ### Descriptors of the TCP server -/

/-- The result that the loop is about to handle. -/
def Pc.result : Pc → List ℤ
  | .cqeSeen _ res | .test _ res | .handle _ res => [res]
  | _ => []

/-- The results of completions that the loop has not handled yet. -/
def State.unhandled (s : State) : List ℤ := s.pc.result ++ s.ring.cq.map Prod.snd

/-- The descriptors open besides those of `fds` are the results not handled yet. -/
structure Clients (fds : FdTable ℕ) (s : State) : Prop where
  distinct : s.unhandled.Pairwise fun a b => 0 ≤ a → a ≠ b
  opened : ∀ n : ℕ, (n : ℤ) ∈ s.unhandled → fds.get n = none ∧ (s.fds.get n).isSome
  others : ∀ n : ℕ, (n : ℤ) ∉ s.unhandled → s.fds.get n = fds.get n

section Clients

variable {fds : FdTable ℕ} {errors : ℕ} {s s' : State} {i : ℕ} {res : ℤ}

theorem Clients.of_eq (h : Clients fds s) (hu : s'.unhandled = s.unhandled)
    (hfds : s'.fds = s.fds) : Clients fds s' := by
  refine ⟨?_, ?_, ?_⟩ <;> rw [hu]
  · exact h.distinct
  · exact hfds ▸ h.opened
  · exact hfds ▸ h.others

/-- The program counter moves, with the same result at hand. -/
theorem Clients.of_result (h : Clients fds s) (hpc : s'.pc.result = s.pc.result)
    (hcq : s'.ring.cq = s.ring.cq) (hfds : s'.fds = s.fds) : Clients fds s' :=
  h.of_eq (by rw [State.unhandled, State.unhandled, hpc, hcq]) hfds

/-- A result that is no descriptor is dropped. -/
theorem Clients.drop (h : Clients fds s) (hu : s.unhandled = res :: s'.unhandled)
    (hres : res < 0) (hfds : s'.fds = s.fds) : Clients fds s' := by
  have hmem : ∀ n : ℕ, (n : ℤ) ∈ s.unhandled ↔ (n : ℤ) ∈ s'.unhandled := by
    intro n
    rw [hu, List.mem_cons, or_iff_right]
    omega
  refine ⟨(List.pairwise_cons.mp (hu ▸ h.distinct)).2, fun n hn => ?_, fun n hn => ?_⟩ <;> rw [hfds]
  · exact h.opened n ((hmem n).mpr hn)
  · exact h.others n fun hn' => hn ((hmem n).mp hn')

/-- `close(clfd)`. -/
theorem Clients.close {n : ℕ} (h : Clients fds s) (hu : s.unhandled = (n : ℤ) :: s'.unhandled)
    (hfds : s'.fds = s.fds.close n) : Clients fds s' := by
  obtain ⟨hhead, htail⟩ := List.pairwise_cons.mp (hu ▸ h.distinct)
  have hfresh : ∀ k : ℕ, (k : ℤ) ∈ s'.unhandled → k ≠ n := by
    rintro k hk rfl
    exact hhead _ hk (Int.natCast_nonneg k) rfl
  refine ⟨htail, fun k hk => ?_, fun k hk => ?_⟩ <;> rw [hfds]
  · rw [FdTable.get_close_of_ne _ (hfresh k hk)]
    exact h.opened k (hu ▸ List.mem_cons_of_mem _ hk)
  · rcases eq_or_ne k n with rfl | hne
    · rw [FdTable.get_close_self, (h.opened k (hu ▸ List.mem_cons_self)).1]
    · rw [FdTable.get_close_of_ne _ hne]
      refine h.others k fun hk' => ?_
      rcases List.mem_cons.mp (hu ▸ hk') with hkn | hk'
      · exact hne (Int.ofNat.inj hkn)
      · exact hk hk'

/-- A result comes in, with its descriptor if it is one. -/
theorem Clients.arrive (h : Clients fds s) (hu : s'.unhandled = s.unhandled ++ [res])
    (hfds : Opens .tcp res s.fds s'.fds) : Clients fds s' := by
  have hmem : ∀ n : ℕ, (n : ℤ) ∈ s'.unhandled ↔ (n : ℤ) ∈ s.unhandled ∨ (n : ℤ) = res := by
    intro n
    rw [hu, List.mem_append, List.mem_singleton]
  rcases hfds with ⟨hfds, hneg⟩ | ⟨n, c, -, rfl, hfree, hfds⟩
  · have hneg := hneg rfl
    refine ⟨?_, fun n hn => ?_, fun n hn => ?_⟩
    · rw [hu]
      refine List.pairwise_append.mpr ⟨h.distinct, List.pairwise_singleton _ _, ?_⟩
      intro a _ b hb ha
      rw [List.mem_singleton.mp hb]
      omega
    · rw [hfds]
      exact h.opened n (((hmem n).mp hn).resolve_right (by omega))
    · rw [hfds]
      exact h.others n fun hn' => hn ((hmem n).mpr (.inl hn'))
  · -- the descriptor is free, so it is not a result that waits already
    have hfresh : (n : ℤ) ∉ s.unhandled := by
      intro hn
      have hsome := (h.opened n hn).2
      rw [hfree] at hsome
      exact nomatch hsome
    refine ⟨?_, fun k hk => ?_, fun k hk => ?_⟩
    · rw [hu]
      refine List.pairwise_append.mpr ⟨h.distinct, List.pairwise_singleton _ _, ?_⟩
      rintro a ha b hb - rfl
      exact hfresh (List.mem_singleton.mp hb ▸ ha)
    · rw [hfds]
      rcases eq_or_ne k n with rfl | hne
      · rw [FdTable.get_openAt_self]
        exact ⟨h.others k hfresh ▸ hfree, rfl⟩
      · rw [FdTable.get_openAt_of_ne _ _ hne]
        exact h.opened k (((hmem k).mp hk).resolve_right fun hkn => hne (Int.ofNat.inj hkn))
    · have hne : k ≠ n := fun hkn => hk ((hmem k).mpr (.inr (congrArg _ hkn)))
      rw [hfds, FdTable.get_openAt_of_ne _ _ hne]
      exact h.others k fun hk' => hk ((hmem k).mpr (.inl hk'))

/-- **One operation of the TCP server keeps the descriptors accounted for.** -/
theorem clients_step (hinv : Inv .tcp errors s) (h : Clients fds s)
    (hs : step .tcp s = some s') : Clients fds s' := by
  have hat := hinv.pc
  unfold step at hs
  cases hpc : s.pc <;> rw [hpc] at hs hat <;> dsimp only at hs
  case queue =>
      obtain rfl := Option.some.inj hs
      unfold State.queueRequest
      split <;> exact h.of_result (by rw [hpc]; rfl) rfl rfl
  case submit =>
      obtain rfl := Option.some.inj hs
      unfold State.submit
      split
      · exact h.of_result (by rw [hpc]; rfl) rfl rfl
      · exact h.of_eq rfl rfl
  case waitCqe =>
      split at hs
      case h_1 => exact nomatch hs
      case h_2 req res rest hcq =>
          obtain rfl := Option.some.inj hs
          refine h.of_eq ?_ rfl
          rw [State.unhandled, State.unhandled, hpc, hcq]
          show [res] ++ s.ring.cq.tail.map Prod.snd = _
          rw [hcq]
          rfl
  case cqeSeen req res =>
      obtain rfl := Option.some.inj hs
      exact h.of_result (by rw [hpc]; rfl) rfl rfl
  case test req res =>
      rw [hinv.live_consumed hat.2.2] at hs
      dsimp only at hs
      split at hs <;> obtain rfl := Option.some.inj hs
      case isTrue => exact h.of_result (by rw [hpc]; rfl) rfl rfl
      case isFalse hres =>
          have hneg : res < 0 := Int.not_le.mp fun hle => hres ⟨rfl, hle⟩
          exact h.drop (by rw [State.unhandled, hpc]; rfl) hneg rfl
  case handle req res =>
      obtain rfl := Option.some.inj hs
      have hnat : ((res.toNat : ℕ) : ℤ) = res := Int.toNat_of_nonneg hat.2
      refine h.close (n := res.toNat) ?_ rfl
      rw [State.unhandled, hpc, hnat]
      rfl
  case delete req =>
      rw [hinv.live_consumed hat.2.2] at hs
      obtain rfl := Option.some.inj hs
      exact h.of_result (by rw [hpc]; rfl) rfl rfl
  case fault => exact nomatch hs

/-- **The descriptors are accounted for in every run.** -/
theorem clients_reach (h : (server .tcp fds).Reach s) : Clients fds s := by
  induction h with
  | start h₀ =>
      obtain rfl := h₀
      exact ⟨List.Pairwise.nil, fun _ hn => absurd hn List.not_mem_nil, fun _ _ => rfl⟩
  | @step s a s' hreach hs ih =>
      obtain ⟨ws, hws⟩ := hreach.exists_recorded waited
      have hinv : Inv .tcp (ws.count .error) s := inv_reach hws
      cases a with
      | step => exact clients_step hinv ih hs
      | waitFails =>
          obtain ⟨hpc, hs'⟩ := Option.ite_none_right_eq_some.mp hs
          obtain rfl := Option.some.inj hs'
          exact ih.of_result (by rw [hpc]; rfl) rfl rfl
      | completes i res =>
          obtain ⟨-, fds', n, hopens, rfl⟩ := completes_cases hinv hs
          refine ih.arrive ?_ hopens
          show s.pc.result ++ (s.ring.cq ++ [(i, res)]).map Prod.snd = _
          rw [List.map_append, ← List.append_assoc]
          rfl

/-- **When the TCP server waits and no client has come, it has none open.** -/
theorem no_client_open (h : (server .tcp fds).Reach s) (hpc : s.pc = .waitCqe)
    (hcq : s.ring.cq = []) : s.fds.get = fds.get := by
  funext n
  refine (clients_reach h).others n ?_
  rw [State.unhandled, hpc, hcq]
  exact List.not_mem_nil

end Clients

end Apue.UptimeServers
