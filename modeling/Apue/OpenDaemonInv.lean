/-
Apue/OpenDaemonInv.lean

What holds of the open daemon in every reachable state.

The invariant has three parts: every request in the ring fits what it holds
(`Reqs`), the holders fit the descriptor table and the histories (`Conns`), and the
request at hand fits the program counter (`PcOk`).  A step concerns one tag of the
ring and one connection, so each part is kept by a lemma about the operation on the
ring and one about the connection.
-/
import Apue.OpenDaemonConns

namespace Apue.OpenDaemon

open UnixSocket

variable {φ : Type*}

/-! ### Requests in the ring -/

/-- An entry of the ring fits its request and what that holds. -/
inductive Ok (listenFd : ℕ) :
    Option Request → Option (Held φ) → IoRing.Entry Sqe (Flight φ) ℤ → Prop
  | accept {r : Request} : r.type = .accept →
      Ok listenFd (some r) none (.prepared ⟨.accept, listenFd⟩)
  | read {c fd : ℕ} {buf : List UInt8} :
      Ok listenFd (some ⟨.read, fd, buf⟩) (some ⟨c, fd, .accepted⟩) (.prepared ⟨.read, fd⟩)
  | accepting {r : Request} : r.type = .accept →
      Ok listenFd (some r) none (.inflight ⟨.accept, some .listener⟩)
  | reading {c fd : ℕ} {buf : List UInt8} :
      Ok listenFd (some ⟨.read, fd, buf⟩) (some ⟨c, fd, .queued⟩)
        (.inflight ⟨.read, some (.conn c)⟩)
  | accepted {r : Request} {c fd : ℕ} : r.type = .accept →
      Ok listenFd (some r) (some ⟨c, fd, .accepted⟩) (.done fd)
  | acceptFailed {r : Request} {res : ℤ} : r.type = .accept → res < 0 →
      Ok listenFd (some r) none (.done res)
  | readDone {c fd : ℕ} {buf bytes : List UInt8} : buf.take bytes.length = bytes →
      Ok listenFd (some ⟨.read, fd, buf⟩) (some ⟨c, fd, .read (some bytes) [] (answers_nil _)⟩)
        (.done bytes.length)
  | readFailed {c fd : ℕ} {buf : List UInt8} {res : ℤ} : res < 0 →
      Ok listenFd (some ⟨.read, fd, buf⟩) (some ⟨c, fd, .read none [] (answers_nil _)⟩) (.done res)

/-- The heap and the holders fit the ring; nothing is left of a request that was seen. -/
structure Reqs (listenFd : ℕ) (heap : ℕ → Option Request) (nextReq : ℕ)
    (ring : IoRing Sqe (Flight φ) ℤ) (held : ℕ → Option (Held φ)) : Prop where
  acc : ring.Accounted nextReq
  entries : ∀ {i e}, ring.Has i e → Ok listenFd (heap i) (held i) e
  gone : ∀ {i}, nextReq ≤ i ∨ i ∈ ring.seen → heap i = none ∧ held i = none

section Reqs

variable {listenFd nextReq i : ℕ} {heap heap' : ℕ → Option Request}
  {ring : IoRing Sqe (Flight φ) ℤ} {held held' : ℕ → Option (Held φ)}

theorem reqs_init : Reqs listenFd (fun _ => none) 0 (.empty : IoRing Sqe (Flight φ) ℤ)
    fun _ => none where
  acc := IoRing.accounted_empty
  entries := @fun i e h => by cases e <;> cases h
  gone _ := ⟨rfl, rfl⟩

/-- A tag in the ring, or at hand, is not gone. -/
theorem Reqs.not_gone (h : Reqs listenFd heap nextReq ring held)
    (hi : (∃ e, ring.Has i e) ∨ ∃ c, ring.cur = some (i, c)) :
    ¬ (nextReq ≤ i ∨ i ∈ ring.seen) := by
  have hlt : i < nextReq := h.acc.mem_tags_iff.mp (IoRing.mem_tags.mpr (by
    rcases hi with he | hc
    · exact .inl he
    · exact .inr (.inl hc)))
  rintro (hge | hseen)
  · exact Nat.not_le_of_lt hlt hge
  · rcases hi with ⟨e, he⟩ | ⟨c, hc⟩
    · exact h.acc.not_has_seen hseen he
    · exact h.acc.cur_not_seen hc hseen

/-- The request at hand changes. -/
theorem Reqs.cur (h : Reqs listenFd heap nextReq ring held) {c : ℤ}
    (hcur : ring.cur = some (i, c))
    (hoff : ∀ j, j ≠ i → heap' j = heap j ∧ held' j = held j) :
    Reqs listenFd heap' nextReq ring held' where
  acc := h.acc
  entries := @fun j e he => by
    have hne : j ≠ i := by
      rintro rfl
      exact h.acc.not_has_cur hcur he
    rw [(hoff j hne).1, (hoff j hne).2]
    exact h.entries he
  gone := @fun j hj => by
    have hne : j ≠ i := by
      rintro rfl
      exact h.not_gone (.inr ⟨c, hcur⟩) hj
    rw [(hoff j hne).1, (hoff j hne).2]
    exact h.gone hj

/-- A request is prepared. -/
theorem Reqs.prep (h : Reqs listenFd heap nextReq ring held) {r : Request} {sqe : Sqe}
    (hoff : ∀ j, j ≠ nextReq → held' j = held j)
    (hok : Ok listenFd (some r) (held' nextReq) (.prepared sqe)) :
    Reqs listenFd (Function.update heap nextReq (some r)) (nextReq + 1) (ring.prep nextReq sqe)
      held' where
  acc := h.acc.prep sqe
  entries := @fun j e he => by
    rcases IoRing.has_prep he with ⟨rfl, rfl⟩ | he
    · rw [Function.update_self]
      exact hok
    · have hne : j ≠ nextReq := Nat.ne_of_lt (he.lt h.acc)
      rw [Function.update_of_ne hne, hoff j hne]
      exact h.entries he
  gone := @fun j hj => by
    have hold : nextReq ≤ j ∨ j ∈ ring.seen := hj.imp_left fun hle => by omega
    have hne : j ≠ nextReq := by
      rintro rfl
      rcases hj with hle | hseen
      · omega
      · have hlt := h.acc.lt_of_seen hseen
        omega
    rw [Function.update_of_ne hne, hoff j hne]
    exact h.gone hold

/-- A prepared request is issued. -/
theorem Reqs.issue (h : Reqs listenFd heap nextReq ring held) {sqe : Sqe} {b : Flight φ}
    {tail : List (ℕ × Sqe)} (hsq : ring.sq = (i, sqe) :: tail)
    (hoff : ∀ j, j ≠ i → held' j = held j)
    (hok : Ok listenFd (heap i) (held' i) (.inflight b)) :
    Reqs listenFd heap nextReq (ring.issue i b) held' where
  acc := h.acc.issue hsq b
  entries := @fun j e he => by
    rcases IoRing.has_issue (h.acc.issue hsq b) he with ⟨rfl, rfl⟩ | ⟨hne, he⟩
    · exact hok
    · rw [hoff j hne]
      exact h.entries he
  gone := @fun j hj => by
    have hi : ring.Has i (.prepared sqe) := by
      show (i, sqe) ∈ ring.sq
      rw [hsq]
      exact List.mem_cons_self
    have hne : j ≠ i := by
      rintro rfl
      exact h.not_gone (.inl ⟨_, hi⟩) hj
    rw [hoff j hne]
    exact h.gone hj

/-- A request in flight completes. -/
theorem Reqs.complete [DecidableEq φ] (h : Reqs listenFd heap nextReq ring held) {b : Flight φ}
    {c : ℤ} (hb : ring.Has i (.inflight b))
    (hoff : ∀ j, j ≠ i → heap' j = heap j ∧ held' j = held j)
    (hok : Ok listenFd (heap' i) (held' i) (.done c)) :
    Reqs listenFd heap' nextReq (ring.complete i b c) held' where
  acc := h.acc.complete hb c
  entries := @fun j e he => by
    rcases IoRing.has_complete (h.acc.complete hb c) he with ⟨rfl, rfl⟩ | ⟨hne, he⟩
    · exact hok
    · rw [(hoff j hne).1, (hoff j hne).2]
      exact h.entries he
  gone := @fun j hj => by
    have hne : j ≠ i := by
      rintro rfl
      exact h.not_gone (.inl ⟨_, hb⟩) hj
    rw [(hoff j hne).1, (hoff j hne).2]
    exact h.gone hj

/-- A completion is looked at. -/
theorem Reqs.peek (h : Reqs listenFd heap nextReq ring held) (hcur : ring.cur = none) :
    Reqs listenFd heap nextReq ring.peek held where
  acc := h.acc.peek hcur
  entries he := h.entries (IoRing.has_peek he)
  gone := h.gone

/-- The completion at hand has been seen. -/
theorem Reqs.advance (h : Reqs listenFd heap nextReq ring held) {c : ℤ}
    (hcur : ring.cur = some (i, c)) (hi : heap i = none ∧ held i = none) :
    Reqs listenFd heap nextReq ring.advance held where
  acc := h.acc.advance
  entries he := h.entries (IoRing.has_advance he)
  gone := @fun j hj => by
    rcases hj with hle | hseen
    · exact h.gone (.inl hle)
    · rw [IoRing.advance, hcur] at hseen
      rcases List.mem_append.mp hseen with hseen | hji
      · exact h.gone (.inr hseen)
      · obtain rfl := List.mem_singleton.mp hji
        exact hi

end Reqs

/-! ### The request at hand -/

/-- The request at hand, if there is one, fits the program counter. -/
def PcOk (listenFd : ℕ) (heap : ℕ → Option Request) (held : ℕ → Option (Held φ))
    (sq : List (ℕ × Sqe)) (cur : Option (ℕ × ℤ)) : Pc → Prop
  | .addAccept => sq = [] ∧ cur = none
  | .submit => cur = none
  | .waitCqe => sq = [] ∧ cur = none
  | .switch i res => sq = [] ∧ cur = some (i, res) ∧ Ok listenFd (heap i) (held i) (.done res)
  | .addRead i fd => sq = [] ∧ ∃ res r c, cur = some (i, res) ∧ heap i = some r ∧
      held i = some ⟨c, fd, .accepted⟩
  | .addAcceptAgain i => sq.length = 1 ∧ ∃ res r, cur = some (i, res) ∧ heap i = some r ∧
      held i = none
  | .handle i len => sq = [] ∧ ∃ res c fd buf bytes, cur = some (i, res) ∧
      heap i = some ⟨.read, fd, buf⟩ ∧ held i = some ⟨c, fd, .read (some bytes) [] (answers_nil _)⟩ ∧
      buf.take len = bytes ∧ bytes ≠ []
  | .close i => sq = [] ∧ ∃ res c fd buf r replies hans, cur = some (i, res) ∧
      heap i = some ⟨.read, fd, buf⟩ ∧ held i = some ⟨c, fd, .read r replies hans⟩
  | .delete i => ∃ res r, cur = some (i, res) ∧ heap i = some r ∧ held i = none
  | .cqeSeen => ∃ i res, cur = some (i, res) ∧ heap i = none ∧ held i = none
  | .submitAgain => cur = none
  | .exited => cur = none
  | .fault => False

/-- What happens to other requests does not matter. -/
theorem PcOk.frame {listenFd : ℕ} {heap heap' : ℕ → Option Request}
    {held held' : ℕ → Option (Held φ)} {sq : List (ℕ × Sqe)} {cur : Option (ℕ × ℤ)} {p : Pc}
    (h : PcOk listenFd heap held sq cur p)
    (hcur : ∀ i res, cur = some (i, res) → heap' i = heap i ∧ held' i = held i) :
    PcOk listenFd heap' held' sq cur p := by
  cases p with
  | addAccept | submit | waitCqe | submitAgain | exited | fault => exact h
  | switch i res =>
      obtain ⟨hsq, hc, hok⟩ := h
      rw [PcOk, (hcur i _ hc).1, (hcur i _ hc).2]
      exact ⟨hsq, hc, hok⟩
  | addRead i fd =>
      obtain ⟨hsq, res, r, c, hc, hrest⟩ := h
      rw [PcOk, (hcur i _ hc).1, (hcur i _ hc).2]
      exact ⟨hsq, res, r, c, hc, hrest⟩
  | addAcceptAgain i =>
      obtain ⟨hsq, res, r, hc, hrest⟩ := h
      rw [PcOk, (hcur i _ hc).1, (hcur i _ hc).2]
      exact ⟨hsq, res, r, hc, hrest⟩
  | handle i len =>
      obtain ⟨hsq, res, c, fd, buf, bytes, hc, hrest⟩ := h
      rw [PcOk, (hcur i _ hc).1, (hcur i _ hc).2]
      exact ⟨hsq, res, c, fd, buf, bytes, hc, hrest⟩
  | close i =>
      obtain ⟨hsq, res, c, fd, buf, r, replies, hans, hc, hrest⟩ := h
      rw [PcOk, (hcur i _ hc).1, (hcur i _ hc).2]
      exact ⟨hsq, res, c, fd, buf, r, replies, hans, hc, hrest⟩
  | delete i =>
      obtain ⟨res, r, hc, hrest⟩ := h
      rw [PcOk, (hcur i _ hc).1, (hcur i _ hc).2]
      exact ⟨res, r, hc, hrest⟩
  | cqeSeen =>
      obtain ⟨i, res, hc, hrest⟩ := h
      refine ⟨i, res, hc, ?_⟩
      rw [(hcur i _ hc).1, (hcur i _ hc).2]
      exact hrest

/-- **The invariant.** -/
structure Inv (listenFd : ℕ) (s : State φ) (held : ℕ → Option (Held φ)) : Prop where
  reqs : Reqs listenFd s.heap s.nextReq s.ring held
  conns : Conns listenFd s.fds s.log s.nextConn held
  pc : PcOk listenFd s.heap held s.ring.sq s.ring.cur s.pc
  freed : s.freed = s.ring.seen ++
    if s.pc = .cqeSeen then (s.ring.cur.map Prod.fst).toList else []

theorem inv_init {listenFd : ℕ} {fds : FdTable (Obj φ)} (hl : Listening listenFd fds) :
    Inv listenFd (initState fds) fun _ => none where
  reqs := reqs_init
  conns := conns_init hl
  pc := ⟨rfl, rfl⟩
  freed := rfl

section Steps

variable {listenFd : ℕ} {s s' : State φ} {held : ℕ → Option (Held φ)}

/-! ### Steps of the kernel -/

/-- A tag in the ring is not at hand. -/
theorem Inv.cur_ne (h : Inv listenFd s held) {i : ℕ} {e : IoRing.Entry Sqe (Flight φ) ℤ}
    (hi : s.ring.Has i e) {j : ℕ} {res : ℤ} (hj : s.ring.cur = some (j, res)) : j ≠ i := by
  rintro rfl
  exact h.reqs.acc.not_has_cur hj hi

variable [DecidableEq φ]

/-- A request in flight completes; its connection, if it holds one, moves on. -/
theorem Inv.complete (h : Inv listenFd s held) {i : ℕ} {b : Flight φ} {res : ℤ}
    {heap' : ℕ → Option Request} {fds' : FdTable (Obj φ)} {nextConn' : ℕ}
    {log' : List (ℕ × Event φ)} {held' : ℕ → Option (Held φ)}
    (hb : s.ring.Has i (.inflight b))
    (hoff : ∀ j, j ≠ i → heap' j = s.heap j ∧ held' j = held j)
    (hok : Ok listenFd (heap' i) (held' i) (.done res))
    (hconns : Conns listenFd fds' log' nextConn' held') :
    Inv listenFd ⟨s.pc, heap', s.nextReq, s.ring.complete i b res, fds', nextConn', log', s.freed⟩
      held' where
  reqs := h.reqs.complete hb hoff hok
  conns := hconns
  pc := h.pc.frame fun j _ hj => hoff j (h.cur_ne hb hj)
  freed := h.freed

theorem Inv.accepts (h : Inv listenFd s held) {i n : ℕ} (hs : accepts s i n = some s') :
    ∃ held', Inv listenFd s' held' := by
  unfold OpenDaemon.accepts at hs
  split at hs
  case isFalse => cases hs
  case isTrue hen =>
      have hb : s.ring.Has i (.inflight ⟨.accept, some .listener⟩) := hen.1
      have hok := h.reqs.entries hb
      generalize hx : s.heap i = x at hok hs
      generalize hy : held i = y at hok
      cases hok with
      | accepting htype =>
          obtain rfl := Option.some.inj hs
          refine ⟨_, h.complete hb (fun j hj => ⟨rfl, Function.update_of_ne hj ..⟩) ?_
            (h.conns.accept hen.2 hy)⟩
          rw [Function.update_self, hx]
          exact .accepted htype

theorem Inv.reads (h : Inv listenFd s held) {i c : ℕ} {bytes : List UInt8}
    (hs : reads s i c bytes = some s') : ∃ held', Inv listenFd s' held' := by
  unfold OpenDaemon.reads at hs
  split at hs
  case isFalse => cases hs
  case isTrue hen =>
      have hb : s.ring.Has i (.inflight ⟨.read, some (.conn c)⟩) := hen.1
      have hok := h.reqs.entries hb
      generalize hx : s.heap i = x at hok hs
      generalize hy : held i = y at hok
      cases hok with
      | @reading _ fd buf =>
          obtain rfl := Option.some.inj hs
          refine ⟨_, h.complete hb
            (fun j hj => ⟨Function.update_of_ne hj .., Function.update_of_ne hj ..⟩) ?_
            (h.conns.advance hy (.read (some bytes) [] (answers_nil _)) [.read (some bytes)] rfl)⟩
          rw [Function.update_self, Function.update_self]
          exact .readDone (List.take_left' rfl)

theorem Inv.fails (h : Inv listenFd s held) {i : ℕ} {f : Flight φ} {errno : ℕ}
    (hs : fails s i f errno = some s') : ∃ held', Inv listenFd s' held' := by
  unfold OpenDaemon.fails at hs
  split at hs
  case isFalse => cases hs
  case isTrue hen =>
      have hb : s.ring.Has i (.inflight f) := hen.1
      have hneg : -(errno : ℤ) < 0 := by omega
      have hok := h.reqs.entries hb
      obtain rfl := Option.some.inj hs
      generalize hx : s.heap i = x at hok
      generalize hy : held i = y at hok
      cases hok with
      | accepting htype =>
          refine ⟨held, h.complete hb (fun j _ => ⟨rfl, rfl⟩) ?_ ?_⟩
          · rw [hx, hy]
            exact .acceptFailed htype hneg
          · show Conns listenFd s.fds (s.log ++ []) s.nextConn held
            rw [List.append_nil]
            exact h.conns
      | @reading c fd buf =>
          refine ⟨_, h.complete hb (fun j hj => ⟨rfl, Function.update_of_ne hj ..⟩) ?_
            (h.conns.advance hy (.read none [] (answers_nil _)) [.read none] rfl)⟩
          rw [Function.update_self, hx]
          exact .readFailed hneg

/-! ### Steps of the daemon -/

omit [DecidableEq φ]

theorem Inv.freed_eq (h : Inv listenFd s held) (hp : s.pc ≠ .cqeSeen) :
    s.freed = s.ring.seen := by
  rw [h.freed, if_neg hp, List.append_nil]

/-- The daemon moves on. -/
theorem Inv.goto (h : Inv listenFd s held) {p : Pc} (hs : s.pc ≠ .cqeSeen) (hp : p ≠ .cqeSeen)
    (hpc : PcOk listenFd s.heap held s.ring.sq s.ring.cur p) : Inv listenFd (s.goto p) held where
  reqs := h.reqs
  conns := h.conns
  pc := hpc
  freed := by
    show s.freed = s.ring.seen ++ if p = .cqeSeen then _ else []
    rw [h.freed_eq hs, if_neg hp, List.append_nil]

/-- The next request is new. -/
theorem Inv.nextReq_gone (h : Inv listenFd s held) :
    s.heap s.nextReq = none ∧ held s.nextReq = none := h.reqs.gone (.inl (Nat.le_refl _))

theorem Inv.cur_ne_nextReq (h : Inv listenFd s held) {i : ℕ} {res : ℤ}
    (hcur : s.ring.cur = some (i, res)) : i ≠ s.nextReq := by
  rintro rfl
  exact h.reqs.not_gone (.inr ⟨res, hcur⟩) (.inl (Nat.le_refl _))

/-- `add_accept_request`. -/
theorem Inv.addAcceptRequest (h : Inv listenFd s held) {p : Pc}
    (hlen : s.ring.sq.length < sqEntries) (hs : s.pc ≠ .cqeSeen) (hp : p ≠ .cqeSeen)
    (hpc : ∀ heap' sq', (∀ i, i ≠ s.nextReq → heap' i = s.heap i) →
      PcOk listenFd heap' held sq' s.ring.cur p) :
    Inv listenFd (s.addAcceptRequest listenFd p) held := by
  unfold State.addAcceptRequest State.addRequest
  rw [if_pos hlen]
  refine ⟨h.reqs.prep (fun _ _ => rfl) ?_, h.conns, hpc _ _ ?_, ?_⟩
  · rw [h.nextReq_gone.2]
    exact .accept rfl
  · exact fun i hi => Function.update_of_ne hi ..
  · show s.freed = s.ring.seen ++ if p = .cqeSeen then _ else []
    rw [h.freed_eq hs, if_neg hp, List.append_nil]

/-- `add_read_request`: the connection is handed from the accept to the new read. -/
theorem Inv.addReadRequest (h : Inv listenFd s held) {i fd : ℕ} (hpc : s.pc = .addRead i fd) :
    ∃ held', Inv listenFd (s.addReadRequest fd (.addAcceptAgain i)) held' := by
  have hat := h.pc
  rw [hpc] at hat
  obtain ⟨hsq, res, r, c, hcur, hheap, hheld⟩ := hat
  have hne := h.cur_ne_nextReq hcur
  unfold State.addReadRequest State.addRequest
  rw [if_pos (by rw [hsq]; decide)]
  refine ⟨_, ?_, h.conns.give hheld h.nextReq_gone.2, ?_, ?_⟩
  · have hfree : Reqs listenFd s.heap s.nextReq s.ring (Function.update held i none) :=
      h.reqs.cur hcur fun j hj => ⟨rfl, Function.update_of_ne hj ..⟩
    refine hfree.prep (fun j hj => Function.update_of_ne hj ..) ?_
    rw [Function.update_self]
    exact .read
  · refine ⟨?_, res, r, hcur, ?_, ?_⟩
    · show (s.ring.sq ++ _).length = 1
      rw [hsq]
      rfl
    · exact (Function.update_of_ne hne ..).trans hheap
    · rw [Function.update_of_ne hne, Function.update_self]
  · show s.freed = s.ring.seen ++ []
    rw [h.freed_eq (by rw [hpc]; nofun), List.append_nil]

/-- `io_uring_submit`: a read is issued on the connection that its request holds. -/
theorem Inv.submit (h : Inv listenFd s held) {p : Pc} (hs : s.pc ≠ .cqeSeen) (hp : p ≠ .cqeSeen)
    (hpc : ∀ (held' : ℕ → Option (Held φ)) sq', PcOk listenFd s.heap held' sq' s.ring.cur s.pc)
    (hpc' : s.ring.sq = [] → PcOk listenFd s.heap held s.ring.sq s.ring.cur p) :
    ∃ held', Inv listenFd (s.submit p) held' := by
  unfold State.submit
  split
  case h_1 hsq => exact ⟨held, h.goto hs hp (hpc' hsq)⟩
  case h_2 i sqe tail hsq =>
      have hi : s.ring.Has i (.prepared sqe) := by
        show (i, sqe) ∈ s.ring.sq
        rw [hsq]
        exact List.mem_cons_self
      have hok := h.reqs.entries hi
      generalize hx : s.heap i = x at hok
      generalize hy : held i = y at hok
      cases hok with
      | accept htype =>
          refine ⟨held, h.reqs.issue hsq (fun _ _ => rfl) ?_, ?_, hpc _ _, h.freed⟩
          · rw [hx, hy, h.conns.listener]
            exact .accepting htype
          · show Conns listenFd s.fds (s.log ++ []) s.nextConn held
            rw [List.append_nil]
            exact h.conns
      | @read c fd buf =>
          have hget : s.fds.get fd = some (.conn c) := h.conns.get_fd hy
          refine ⟨Function.update held i (some ⟨c, fd, .queued⟩),
            h.reqs.issue hsq (fun j hj => Function.update_of_ne hj ..) ?_, ?_, hpc _ _, h.freed⟩
          · rw [hx, Function.update_self, hget]
            exact .reading
          · show Conns listenFd s.fds (s.log ++ record (s.fds.get fd) .queued) s.nextConn _
            rw [hget]
            exact h.conns.advance hy .queued [.queued] rfl

/-- `io_uring_wait_cqe`. -/
theorem Inv.waitCqe (h : Inv listenFd s held) (hpc : s.pc = .waitCqe) {i : ℕ} {res : ℤ}
    {tail : List (ℕ × ℤ)} (hcq : s.ring.cq = (i, res) :: tail) :
    Inv listenFd { s with pc := .switch i res, ring := s.ring.peek } held := by
  have hat := h.pc
  rw [hpc] at hat
  obtain ⟨hsq, hcur⟩ := hat
  have hi : s.ring.Has i (.done res) := by
    show (i, res) ∈ s.ring.cq
    rw [hcq]
    exact List.mem_cons_self
  refine ⟨h.reqs.peek hcur, h.conns, ⟨hsq, ?_, h.reqs.entries hi⟩, ?_⟩
  · show s.ring.cq.head? = some (i, res)
    rw [hcq]
    rfl
  · show s.freed = s.ring.seen ++ []
    rw [h.freed_eq (by rw [hpc]; nofun), List.append_nil]

/-- `switch (req->type)`: a completion is treated as what it is. -/
theorem Inv.switch (h : Inv listenFd s held) {i : ℕ} {res : ℤ} (hpc : s.pc = .switch i res) :
    ∃ r, s.heap i = some r ∧ Inv listenFd (s.goto (dispatch i res r.type)) held := by
  have hat := h.pc
  rw [hpc] at hat
  obtain ⟨hsq, hcur, hok⟩ := hat
  have hs : s.pc ≠ .cqeSeen := by rw [hpc]; nofun
  generalize hx : s.heap i = x at hok
  generalize hy : held i = y at hok
  cases hok with
  | @accepted r c fd htype =>
      refine ⟨r, rfl, ?_⟩
      rw [htype, dispatch, if_pos (Int.natCast_nonneg fd)]
      exact h.goto hs nofun ⟨hsq, _, r, c, hcur, hx, hy⟩
  | @acceptFailed r res htype hneg =>
      refine ⟨r, rfl, ?_⟩
      rw [htype, dispatch, if_neg (by omega)]
      exact h.goto hs nofun ⟨_, r, hcur, hx, hy⟩
  | @readDone c fd buf bytes hbuf =>
      refine ⟨_, rfl, ?_⟩
      rw [dispatch]
      split
      case isTrue hpos =>
          have hne : bytes ≠ [] := List.ne_nil_of_length_pos (by omega)
          exact h.goto hs nofun ⟨hsq, _, c, fd, buf, bytes, hcur, hx, hy, hbuf, hne⟩
      case isFalse =>
          exact h.goto hs nofun ⟨hsq, _, c, fd, buf, _, [], _, hcur, hx, hy⟩
  | @readFailed c fd buf res hneg =>
      refine ⟨_, rfl, ?_⟩
      rw [dispatch, if_neg (by omega)]
      exact h.goto hs nofun ⟨hsq, _, c, fd, buf, _, [], _, hcur, hx, hy⟩

/-- `close(req->client_fd)`: the connection that the request holds is closed. -/
theorem Inv.close (h : Inv listenFd s held) {i : ℕ} (hpc : s.pc = .close i) :
    ∃ r held', s.heap i = some r ∧ Inv listenFd
      { s with
        pc := .delete i
        fds := s.fds.close r.clientFd
        log := s.log ++ record (s.fds.get r.clientFd) .closed } held' := by
  have hat := h.pc
  rw [hpc] at hat
  obtain ⟨hsq, res, c, fd, buf, r, replies, hans, hcur, hheap, hheld⟩ := hat
  refine ⟨_, Function.update held i none, hheap, ?_, ?_, ?_, ?_⟩
  · exact h.reqs.cur hcur fun j hj => ⟨rfl, Function.update_of_ne hj ..⟩
  · show Conns listenFd (s.fds.close fd) (s.log ++ record (s.fds.get fd) .closed) s.nextConn _
    rw [h.conns.get_fd hheld]
    exact h.conns.close hheld ⟨r, replies, hans, rfl⟩
  · exact ⟨res, _, hcur, hheap, Function.update_self ..⟩
  · show s.freed = s.ring.seen ++ []
    rw [h.freed_eq (by rw [hpc]; nofun), List.append_nil]

/-- `delete req`. -/
theorem Inv.delete (h : Inv listenFd s held) {i : ℕ} (hpc : s.pc = .delete i) :
    (∃ r, s.heap i = some r) ∧ Inv listenFd
      { s with
        pc := .cqeSeen
        heap := Function.update s.heap i none
        freed := s.freed ++ [i] } held := by
  have hat := h.pc
  rw [hpc] at hat
  obtain ⟨res, r, hcur, hheap, hheld⟩ := hat
  refine ⟨⟨r, hheap⟩, ?_, h.conns, ⟨i, res, hcur, Function.update_self .., hheld⟩, ?_⟩
  · exact h.reqs.cur hcur fun j hj => ⟨Function.update_of_ne hj .., rfl⟩
  · show s.freed ++ [i] = s.ring.seen ++ (s.ring.cur.map Prod.fst).toList
    rw [h.freed_eq (by rw [hpc]; nofun), hcur]
    rfl

/-- `io_uring_cqe_seen`. -/
theorem Inv.cqeSeen (h : Inv listenFd s held) (hpc : s.pc = .cqeSeen) :
    Inv listenFd { s with pc := .submitAgain, ring := s.ring.advance } held := by
  have hat := h.pc
  rw [hpc] at hat
  obtain ⟨i, res, hcur, hgone⟩ := hat
  refine ⟨h.reqs.advance hcur hgone, h.conns, rfl, ?_⟩
  show s.freed = s.ring.seen ++ (s.ring.cur.map Prod.fst).toList ++ []
  rw [h.freed, if_pos hpc, List.append_nil]

/-- `handle_client_request`: the reply to what was read from a connection goes to that
connection. -/
theorem Inv.handleClientRequest (h : Inv listenFd s held) {opens : Opens φ} {pad : BitVec 32}
    {sent : Bool} (hs : handleClientRequest s opens pad sent = some s') :
    ∃ held', Inv listenFd s' held' := by
  have hat := h.pc
  unfold OpenDaemon.handleClientRequest at hs
  cases hpc : s.pc <;> rw [hpc] at hs hat
  case handle i len =>
      obtain ⟨hsq, res, c, fd, buf, bytes, hcur, hheap, hheld, hbuf, hne⟩ := hat
      have hget : s.fds.get fd = some (.conn c) := h.conns.get_fd hheld
      simp only [hheap, hbuf] at hs
      generalize hres : processRequest (fileOpens opens) pad s.fds bytes = result at hs
      obtain ⟨hlen, hfds⟩ := processRequest_frame (fileOpens opens) pad s.fds bytes
      rw [hres] at hlen hfds
      have hans : Answers (some bytes) (if sent then result.1 else []) := by
        cases sent
        · exact answers_nil _
        · exact ⟨hlen, fun m hm => ⟨bytes, opens, pad, s.fds, rfl, hne, hres ▸ hm⟩⟩
      generalize (if sent then result.1 else []) = replies at hs hans
      obtain rfl := Option.some.inj hs
      refine ⟨Function.update held i (some ⟨c, fd, .read (some bytes) replies hans⟩),
        ?_, ?_, ?_, ?_⟩
      · exact h.reqs.cur hcur fun j hj => ⟨rfl, Function.update_of_ne hj ..⟩
      · have hlog : (replies.flatMap fun m => record (s.fds.get fd) (.replied m))
            = (replies.map .replied).map (Prod.mk c) := by
          rw [hget, List.map_map]
          exact List.map_eq_flatMap.symm
        have hconns := h.conns.advance hheld (.read (some bytes) replies hans)
          (replies.map .replied) rfl
        show Conns listenFd result.2 (s.log ++ replies.flatMap _) s.nextConn _
        rw [hlog]
        exact hconns.congr hfds
      · exact ⟨hsq, res, c, fd, buf, some bytes, replies, hans, hcur, hheap,
          Function.update_self ..⟩
      · show s.freed = s.ring.seen ++ []
        rw [h.freed_eq (by rw [hpc]; nofun), List.append_nil]
  all_goals cases hs

/-- **One operation of the daemon keeps the invariant.** -/
theorem Inv.step (h : Inv listenFd s held) (hs : step s listenFd = some s') :
    ∃ held', Inv listenFd s' held' := by
  have hat := h.pc
  unfold OpenDaemon.step at hs
  cases hpc : s.pc <;> rw [hpc] at hs hat
  case addAccept =>
      obtain rfl := Option.some.inj hs
      refine ⟨held, h.addAcceptRequest ?_ (by rw [hpc]; nofun) nofun fun _ _ _ => hat.2⟩
      rw [hat.1]
      decide
  case submit =>
      obtain rfl := Option.some.inj hs
      refine h.submit (by rw [hpc]; nofun) nofun (fun _ _ => ?_) fun hsq => ⟨hsq, hat⟩
      rw [hpc]
      exact hat
  case waitCqe =>
      cases hcq : s.ring.cq with
      | nil =>
          simp only [hcq] at hs
          cases hs
      | cons p tail =>
          simp only [hcq] at hs
          obtain rfl := Option.some.inj hs
          exact ⟨held, h.waitCqe hpc hcq⟩
  case switch i res =>
      obtain ⟨r, hr, hinv⟩ := h.switch hpc
      simp only [hr] at hs
      obtain rfl := Option.some.inj hs
      exact ⟨held, hinv⟩
  case addRead i fd =>
      obtain rfl := Option.some.inj hs
      exact h.addReadRequest hpc
  case addAcceptAgain i =>
      obtain rfl := Option.some.inj hs
      obtain ⟨hlen, res, r, hcur, hheap, hheld⟩ := hat
      refine ⟨held, h.addAcceptRequest ?_ (by rw [hpc]; nofun) nofun fun heap' _ hoff => ?_⟩
      · rw [hlen]
        decide
      · exact ⟨res, r, hcur, (hoff i (h.cur_ne_nextReq hcur)).trans hheap, hheld⟩
  case close i =>
      obtain ⟨r, held', hr, hinv⟩ := h.close hpc
      simp only [hr] at hs
      obtain rfl := Option.some.inj hs
      exact ⟨held', hinv⟩
  case delete i =>
      obtain ⟨⟨r, hr⟩, hinv⟩ := h.delete hpc
      simp only [hr] at hs
      obtain rfl := Option.some.inj hs
      exact ⟨held, hinv⟩
  case cqeSeen =>
      obtain rfl := Option.some.inj hs
      exact ⟨held, h.cqeSeen hpc⟩
  case submitAgain =>
      obtain rfl := Option.some.inj hs
      refine h.submit (by rw [hpc]; nofun) nofun (fun _ _ => ?_) fun hsq => ⟨hsq, hat⟩
      rw [hpc]
      exact hat
  case handle => cases hs
  case exited => cases hs
  case fault => cases hs

end Steps

/-! ### Reachable states -/

variable [DecidableEq φ]

/-- **The invariant holds in every reachable state.** -/
theorem inv_reach {listenFd : ℕ} {s : State φ} (h : (daemon φ listenFd).Reach s) :
    ∃ held, Inv listenFd s held := by
  refine h.invariant (I := fun s => ∃ held, Inv listenFd s held) (fun s hs => ?_)
    fun s a s' hinv hs => ?_
  · obtain ⟨fds, hl, rfl⟩ := hs
    exact ⟨_, inv_init hl⟩
  · obtain ⟨held, hinv⟩ := hinv
    cases a with
    | step => exact hinv.step hs
    | handle opens pad sent => exact hinv.handleClientRequest hs
    | waitFails =>
        change (if s.pc = .waitCqe then some (s.goto .exited) else none) = some s' at hs
        split at hs
        case isFalse => cases hs
        case isTrue hpc =>
            obtain rfl := Option.some.inj hs
            have hat := hinv.pc
            rw [hpc] at hat
            exact ⟨held, hinv.goto (by rw [hpc]; nofun) nofun hat.2⟩
    | accepts i n => exact hinv.accepts hs
    | reads i c bytes => exact hinv.reads hs
    | fails i f errno => exact hinv.fails hs

end Apue.OpenDaemon
