/-
Apue/MqRelay.lean

The message-queue relay of `17/1_unix_socket_mqueue_read.cpp`, fed by the program of
`17/2_unix_socket_mqueue_write.cpp`.

    sender --> message queue --> thread --> datagram socket --> ring --> main

There is a message queue, a thread, a socket pair and a static buffer for each index.  A
thread moves messages from its queue to its socket.  `main` has one read in the ring for
each socket; it takes a completion, puts a zero byte behind the message in the buffer,
prints the buffer as a C string, and queues the next read for the same index.

The invariant (`Inv`) says where every message sent to a queue is: it follows the messages
through the five places, and says that each index has exactly one read that is submitted,
completed or in the hands of `main`.  So nothing is lost or printed under another index.
But a message of `MAXMSZ` bytes fills the buffer, and the zero byte replaces its last byte.
The relay prints what was sent exactly if no message is that long (`relayed_iff`).

The senders' calls of `mq_send` wait while the queue is full.  A read may fail, which is
reported and the read queued again.  Left out: setting up the queues, the sockets and the
ring, and failures of the other calls.
-/
import Apue.FileIO
import Apue.Machine
import Apue.Threads
import Apue.UnixSocket

namespace Apue.MqRelay

open UnixSocket (cStr cStr_of_notMem)

/-! ### Messages and buffers -/

/-- `NQ`. -/
def nq : ℕ := 3

/-- `MAXMSZ`. -/
def maxmsz : ℕ := 512

/-- `attr.mq_maxmsg`. -/
def maxmsg : ℕ := 10

/-- A text that `17/2` can send and that the queue accepts. -/
structure Message where
  bytes : List UInt8
  ne_nil : bytes ≠ []
  nul_free : 0 ∉ bytes
  length_le : bytes.length ≤ maxmsz

/-- `char buf[MAXMSZ]`. -/
structure Buffer where
  bytes : List UInt8
  size_eq : bytes.length = maxmsz

/-- `memset(buf, 0, sizeof(buf))`, and the static buffers at the start. -/
def Buffer.zero : Buffer := ⟨List.replicate maxmsz 0, List.length_replicate⟩

/-- At most `MAXMSZ` bytes are stored at the start of the buffer. -/
def Buffer.load (b : Buffer) (d : List UInt8) : Buffer :=
  ⟨(d ++ b.bytes.drop d.length).take maxmsz, by
    have := b.size_eq
    simp only [List.length_take, List.length_append, List.length_drop]
    omega⟩

/-- `buf[k] = 0`. -/
def Buffer.setZero (b : Buffer) (k : ℕ) : Buffer :=
  ⟨b.bytes.set k 0, by rw [List.length_set, b.size_eq]⟩

theorem Buffer.take_load (b : Buffer) (m : Message) :
    (b.load m.bytes).bytes.take m.bytes.length = m.bytes := by
  simp [Buffer.load, List.take_take, Nat.min_eq_left m.length_le]

/-- A buffer with a zero byte at `k` prints as its first `k` bytes. -/
theorem Buffer.cStr_setZero {b : Buffer} {k : ℕ} (hk : k < maxmsz) (hnul : 0 ∉ b.bytes.take k) :
    cStr (b.setZero k).bytes = b.bytes.take k := by
  have hset : (b.setZero k).bytes = b.bytes.take k ++ 0 :: b.bytes.drop (k + 1) := by
    show b.bytes.set k 0 = _
    rw [List.set_eq_take_append_cons_drop, if_pos (by rw [b.size_eq]; exact hk)]
  have hall : ∀ x ∈ b.bytes.take k, (x != 0) = true := by
    intro x hx
    have hne : x ≠ 0 := fun he => hnul (he ▸ hx)
    simpa using hne
  rw [hset, cStr, List.takeWhile_append_of_pos hall, List.takeWhile_cons]
  simp

/-- What is printed of a message: all but the byte that the zero byte replaces. -/
def Message.shown (m : Message) : List UInt8 := m.bytes.take (maxmsz - 1)

theorem Message.shown_eq_iff (m : Message) : m.shown = m.bytes ↔ m.bytes.length < maxmsz := by
  have hpos : 0 < maxmsz := by decide
  rw [Message.shown, List.take_eq_self_iff]
  omega

/-! ### The program -/

/-- Where a thread is. -/
inductive ThreadPc
  | receive                          -- memset, mq_receive
  | write (buf : Buffer) (n : ℕ)     -- writen(tip->fd, buf, n)
  | exited (msg : String)

/-- What belongs to an index: the messages still to be sent, the queue, the thread, the
datagrams in the socket, and `read_buffers[index]`. -/
structure Lane where
  unsent : List Message
  queue : List Message
  thread : ThreadPc
  socket : List (List UInt8)
  buffer : Buffer

/-- Where `main` is in its loop. -/
inductive MainPc
  | wait                                   -- io_uring_wait_cqe
  | handle (index : Fin nq) (res : ℤ)      -- the test of `res`, the zero byte
  | print (index : Fin nq)                 -- std::println
  | rearm (index : Fin nq)                 -- queue_read, io_uring_submit
  deriving DecidableEq

/-- The lanes, the ring, `main`, and what was printed, with the index. -/
structure State where
  lanes : Fin nq → Lane
  sq : List (Fin nq)
  cq : List (Fin nq × ℤ)
  main : MainPc
  stdout : List (Fin nq × List UInt8)

/-- What was printed for an index. -/
def State.printed (s : State) (i : Fin nq) : List (List UInt8) :=
  (s.stdout.filter fun p => p.1 = i).map Prod.snd

def State.setLane (s : State) (i : Fin nq) (l : Lane) : State :=
  { s with lanes := Function.update s.lanes i l }

/-- What can happen next. -/
inductive Action
  /-- `mq_send` to queue `i` -/
  | send (i : Fin nq)
  /-- the thread of index `i` goes on -/
  | thread (i : Fin nq)
  /-- the kernel performs the `k`-th submitted read -/
  | read (k : ℕ)
  /-- the `k`-th submitted read fails with the error `err + 1` -/
  | readFail (k : ℕ) (err : ℕ)
  /-- `main` goes on -/
  | main
  deriving DecidableEq

/-- One pass of `thr_fun`, in two steps. -/
def threadStep (l : Lane) : Option Lane :=
  match l.thread with
  | .receive =>
      match l.queue with
      | [] => none
      | m :: rest =>
          some { l with queue := rest, thread := .write (Buffer.zero.load m.bytes) m.bytes.length }
  | .write buf n =>
      match FileIO.writen (buf.bytes.take n) [] with
      | (none, _, _) => some { l with thread := .exited "call write" }
      | (some _, [], _) => some { l with thread := .receive }
      | (some _, b :: bs, _) => some { l with socket := l.socket ++ [b :: bs], thread := .receive }
  | .exited _ => none

/-- The zero byte behind a message of `res` bytes. -/
def terminate (b : Buffer) (res : ℤ) : Buffer :=
  if res < maxmsz then b.setZero res.toNat else b.setZero (maxmsz - 1)

/-- The message read is printed up to the zero byte. -/
theorem cStr_terminate {b : Buffer} {m : Message} {res : ℤ} (hres : res = m.bytes.length)
    (hb : b.bytes.take m.bytes.length = m.bytes) : cStr (terminate b res).bytes = m.shown := by
  have hle := m.length_le
  have hshort : ∀ k, k ≤ m.bytes.length → b.bytes.take k = m.bytes.take k := by
    intro k hk
    rw [← hb, List.take_take, Nat.min_eq_left hk]
  have hnul : ∀ k, 0 ∉ m.bytes.take k := fun k h => m.nul_free (List.mem_of_mem_take h)
  subst hres
  unfold terminate
  by_cases hlt : m.bytes.length < maxmsz
  · rw [if_pos (by exact_mod_cast hlt), Int.toNat_natCast,
      Buffer.cStr_setZero hlt (by rw [hb]; exact m.nul_free), hb]
    exact (m.shown_eq_iff.mpr hlt).symm
  · have hpos : 0 < maxmsz := by decide
    rw [if_neg (by exact_mod_cast hlt), Buffer.cStr_setZero (by omega), hshort _ (by omega),
      Message.shown]
    rw [hshort _ (by omega)]
    exact hnul _

/-- One step of the loop of `main`. -/
def mainStep (s : State) : Option State :=
  match s.main with
  | .wait =>
      match s.cq with
      | [] => none
      | (index, res) :: rest => some { s with cq := rest, main := .handle index res }
  | .handle index res =>
      if 0 < res then
        let l := s.lanes index
        some { s.setLane index { l with buffer := terminate l.buffer res } with
          main := .print index }
      else some { s with main := .rearm index }
  | .print index =>
      some { s with
        stdout := s.stdout ++ [(index, cStr (s.lanes index).buffer.bytes)]
        main := .rearm index }
  | .rearm index => some { s with sq := s.sq ++ [index], main := .wait }

/-- One step of a sender, of a thread, of the kernel, or of `main`. -/
def next (s : State) : Action → Option State
  | .send i =>
      match (s.lanes i).unsent with
      | [] => none
      | m :: rest =>
          if (s.lanes i).queue.length < maxmsg then
            some (s.setLane i
              { s.lanes i with unsent := rest, queue := (s.lanes i).queue ++ [m] })
          else none
  | .thread i => (threadStep (s.lanes i)).map (s.setLane i)
  | .read k =>
      match s.sq[k]? with
      | none => none
      | some i =>
          match (s.lanes i).socket with
          | [] => none
          | d :: rest =>
              let d := d.take maxmsz
              some { s.setLane i
                  { s.lanes i with socket := rest, buffer := (s.lanes i).buffer.load d } with
                sq := s.sq.eraseIdx k
                cq := s.cq ++ [(i, (d.length : ℤ))] }
  | .readFail k err =>
      match s.sq[k]? with
      | none => none
      | some i =>
          some { s with sq := s.sq.eraseIdx k, cq := s.cq ++ [(i, -(err + 1 : ℤ))] }
  | .main => mainStep s

/-- The relay at the head of its loop, when `sent i` will be sent to queue `i`. -/
def initState (sent : Fin nq → List Message) : State where
  lanes i := ⟨sent i, [], .receive, [], .zero⟩
  sq := List.finRange nq
  cq := []
  main := .wait
  stdout := []

def relay (sent : Fin nq → List Message) : Machine State Action where
  init s := s = initState sent
  next := next

/-- The action is not a failing read. -/
def Succeeds (_ : State) : Action → Prop
  | .readFail _ _ => False
  | _ => True

instance (s : State) (a : Action) : Decidable (Succeeds s a) :=
  match a with
  | .readFail _ _ => .isFalse id
  | .send _ | .thread _ | .read _ | .main => .isTrue trivial

/-- Nothing more happens, but for failing reads. -/
def Settled (s : State) : Prop := ∀ a, Succeeds s a → next s a = none

/-- At any time the messages printed for a queue are the first ones sent to it, whole and
in order, and when nothing more happens they are all of them. -/
def Relayed (sent : Fin nq → List Message) : Prop :=
  ∀ s, (relay sent).Reach s → ∀ i,
    s.printed i <+: (sent i).map Message.bytes ∧
      (Settled s → s.printed i = (sent i).map Message.bytes)

/-! ### The reads in the ring -/

/-- Where the read of an index is. -/
inductive Slot
  | submitted
  | completed (res : ℤ)
  | handled (res : ℤ)
  | terminated
  | consumed

/-- The read in the hands of `main`. -/
def MainPc.token : MainPc → List (Fin nq × Slot)
  | .wait => []
  | .handle i res => [(i, .handled res)]
  | .print i => [(i, .terminated)]
  | .rearm i => [(i, .consumed)]

/-- All reads, with the places they are at. -/
def State.tokens (s : State) : List (Fin nq × Slot) :=
  s.sq.map (fun i => (i, .submitted)) ++
    (s.cq.map (fun c => (c.1, .completed c.2)) ++ s.main.token)

/-- Each index has one read, at the place `slot` says. -/
def Ring (slot : Fin nq → Slot) (s : State) : Prop :=
  s.tokens.Perm ((List.finRange nq).map fun i => (i, slot i))

section Ring

variable {slot : Fin nq → Slot} {s s' : State} {i : Fin nq} {x y : Slot}

theorem Ring.slot_eq (h : Ring slot s) (hmem : (i, x) ∈ s.tokens) : slot i = x := by
  obtain ⟨j, -, hj⟩ := List.mem_map.mp (List.Perm.mem_iff h |>.mp hmem)
  obtain ⟨rfl, rfl⟩ := Prod.mk.inj hj
  rfl

theorem Ring.mem_tokens (h : Ring slot s) (i : Fin nq) : (i, slot i) ∈ s.tokens :=
  List.Perm.mem_iff h |>.mpr (List.mem_map.mpr ⟨i, List.mem_finRange i, rfl⟩)

/-- The read of one index moves. -/
theorem Ring.move (h : Ring slot s) (rest : List (Fin nq × Slot))
    (hold : s.tokens.Perm ((i, x) :: rest)) (hnew : s'.tokens.Perm ((i, y) :: rest)) :
    Ring (Function.update slot i y) s' := by
  have hx : slot i = x := h.slot_eq (hold.mem_iff.mpr List.mem_cons_self)
  have hsplit := List.perm_cons_erase (List.mem_finRange i)
  have hrest : rest.Perm (((List.finRange nq).erase i).map fun k => (k, slot k)) := by
    have hall := (hold.symm.trans h).trans (hsplit.map fun k => (k, slot k))
    rw [List.map_cons, hx] at hall
    exact (List.perm_cons _).mp hall
  -- the other indices keep their places
  have hother : ((List.finRange nq).erase i).map (fun k => (k, Function.update slot i y k))
      = ((List.finRange nq).erase i).map fun k => (k, slot k) := by
    refine List.map_congr_left fun k hk => ?_
    rw [Function.update_of_ne ((List.nodup_finRange nq).mem_erase_iff.mp hk).1]
  refine hnew.trans (List.Perm.trans ?_ (hsplit.map _).symm)
  rw [List.map_cons, hother, Function.update_self]
  exact hrest.cons _

theorem tokens_read {k : ℕ} (hk : s.sq[k]? = some i) :
    s.tokens.Perm ((i, .submitted) :: ((s.sq.eraseIdx k).map (fun i => (i, .submitted)) ++
      (s.cq.map (fun c => (c.1, .completed c.2)) ++ s.main.token))) := by
  obtain ⟨hlt, hget⟩ := List.getElem?_eq_some_iff.mp hk
  have hperm : s.sq.Perm (i :: s.sq.eraseIdx k) := by
    rw [← hget]
    exact (List.getElem_cons_eraseIdx_perm hlt).symm
  exact (hperm.map _).append_right _

/-- A submitted read completes. -/
theorem Ring.complete (h : Ring slot s) {k : ℕ} (hk : s.sq[k]? = some i) (res : ℤ)
    {lanes : Fin nq → Lane} :
    Ring (Function.update slot i (.completed res))
      { s with lanes := lanes, sq := s.sq.eraseIdx k, cq := s.cq ++ [(i, res)] } := by
  refine h.move _ (tokens_read hk) ?_
  rw [State.tokens, List.map_append, List.map_singleton, List.append_assoc]
  refine (List.Perm.append_left _ List.perm_middle).trans List.perm_middle

/-- `main` takes a completion. -/
theorem Ring.take (h : Ring slot s) {res : ℤ} {rest : List (Fin nq × ℤ)} (hmain : s.main = .wait)
    (hcq : s.cq = (i, res) :: rest) :
    Ring (Function.update slot i (.handled res))
      { s with cq := rest, main := .handle i res } := by
  refine h.move (x := .completed res) (s.sq.map (fun i => (i, .submitted)) ++
    rest.map (fun c => (c.1, .completed c.2))) ?_ ?_
  · rw [State.tokens, hcq, hmain, List.map_cons]
    simp only [MainPc.token, List.append_nil]
    exact List.perm_middle
  · rw [State.tokens, ← List.append_assoc]
    exact List.perm_append_singleton _ _

/-- The read in the hands of `main` goes on. -/
theorem Ring.advance (h : Ring slot s) {p : MainPc} (hold : s.main.token = [(i, x)])
    (hnew : p.token = [(i, y)]) {lanes : Fin nq → Lane} {stdout : List (Fin nq × List UInt8)} :
    Ring (Function.update slot i y)
      { s with lanes := lanes, main := p, stdout := stdout } := by
  refine h.move (x := x) (s.sq.map (fun i => (i, .submitted)) ++
    s.cq.map (fun c => (c.1, .completed c.2))) ?_ ?_
  · rw [State.tokens, hold, ← List.append_assoc]
    exact List.perm_append_singleton _ _
  · rw [State.tokens, hnew, ← List.append_assoc]
    exact List.perm_append_singleton _ _

/-- `main` queues the next read. -/
theorem Ring.rearm (h : Ring slot s) (hmain : s.main = .rearm i) :
    Ring (Function.update slot i .submitted) { s with sq := s.sq ++ [i], main := .wait } := by
  refine h.move (x := .consumed) (s.sq.map (fun i => (i, .submitted)) ++
    s.cq.map (fun c => (c.1, .completed c.2))) ?_ ?_
  · rw [State.tokens, hmain, ← List.append_assoc]
    exact List.perm_append_singleton _ _
  · rw [State.tokens, List.map_append, List.map_singleton, List.append_assoc]
    simp only [MainPc.token, List.append_nil]
    exact List.perm_middle

end Ring

/-! ### The invariant -/

/-- The messages of an index that have left the queue: printed, in the buffer, in the
socket, with the thread. -/
structure Journey where
  printed : List Message
  buffered : Option Message
  datagrams : List Message
  received : Option Message

/-- The message in the buffer, for a read at this place. -/
def Holds (b : Buffer) (m : Option Message) : Slot → Prop
  | .submitted | .consumed => m = none
  | .completed res | .handled res =>
      match m with
      | none => res ≤ 0
      | some m => res = m.bytes.length ∧ b.bytes.take m.bytes.length = m.bytes
  | .terminated => ∃ m', m = some m' ∧ cStr b.bytes = m'.shown

/-- A thread with this message. -/
def threadWith : Option Message → ThreadPc
  | none => .receive
  | some m => .write (Buffer.zero.load m.bytes) m.bytes.length

/-- Where the messages sent to a queue are. -/
structure LaneOk (sent : List Message) (slot : Slot) (j : Journey) (l : Lane)
    (printed : List (List UInt8)) : Prop where
  sent_eq : sent = j.printed ++ (j.buffered.toList ++ (j.datagrams ++ (j.received.toList ++
    (l.queue ++ l.unsent))))
  printed_eq : printed = j.printed.map Message.shown
  holds : Holds l.buffer j.buffered slot
  socket_eq : l.socket = j.datagrams.map Message.bytes
  thread_eq : l.thread = threadWith j.received

/-- The invariant. -/
def Inv (sent : Fin nq → List Message) (s : State) : Prop :=
  ∃ (slot : Fin nq → Slot) (j : Fin nq → Journey), Ring slot s ∧
    ∀ i, LaneOk (sent i) (slot i) (j i) (s.lanes i) (s.printed i)

section Steps

variable {sent : Fin nq → List Message} {s s' : State} {slot : Fin nq → Slot}
  {j : Fin nq → Journey} {i : Fin nq}

/-- The lane of a read, by the place of the read. -/
theorem Ring.laneOk (hring : Ring slot s)
    (hok : ∀ k, LaneOk (sent k) (slot k) (j k) (s.lanes k) (s.printed k)) {x : Slot}
    (hmem : (i, x) ∈ s.tokens) : LaneOk (sent i) x (j i) (s.lanes i) (s.printed i) := by
  rw [← hring.slot_eq hmem]
  exact hok i

/-- A step that concerns one index only. -/
theorem inv_of_lane (hok : ∀ k, LaneOk (sent k) (slot k) (j k) (s.lanes k) (s.printed k))
    {x : Slot} {g : Journey} {l : Lane} (hring : Ring (Function.update slot i x) s')
    (hlanes : s'.lanes = Function.update s.lanes i l)
    (hlane : LaneOk (sent i) x g l (s'.printed i))
    (hprinted : ∀ k, k ≠ i → s'.printed k = s.printed k) : Inv sent s' := by
  refine ⟨Function.update slot i x, Function.update j i g, hring, fun k => ?_⟩
  rw [hlanes]
  by_cases hk : k = i
  · subst hk
    rw [Function.update_self, Function.update_self, Function.update_self]
    exact hlane
  · rw [Function.update_of_ne hk, Function.update_of_ne hk, Function.update_of_ne hk,
      hprinted k hk]
    exact hok k

/-- A step that changes no lane. -/
theorem inv_of_lanes_eq (hok : ∀ k, LaneOk (sent k) (slot k) (j k) (s.lanes k) (s.printed k))
    {x : Slot} {g : Journey} (hring : Ring (Function.update slot i x) s')
    (hlanes : s'.lanes = s.lanes) (hlane : LaneOk (sent i) x g (s.lanes i) (s'.printed i))
    (hprinted : ∀ k, k ≠ i → s'.printed k = s.printed k) : Inv sent s' := by
  refine inv_of_lane hok hring ?_ hlane hprinted
  rw [hlanes, Function.update_eq_self]

/-- A step of a sender or a thread. -/
theorem inv_setLane (hring : Ring slot s)
    (hok : ∀ k, LaneOk (sent k) (slot k) (j k) (s.lanes k) (s.printed k)) {l : Lane} {g : Journey}
    (hlane : LaneOk (sent i) (slot i) g l (s.printed i)) : Inv sent (s.setLane i l) := by
  refine inv_of_lane (x := slot i) hok ?_ rfl hlane fun _ _ => rfl
  rw [Function.update_eq_self]
  exact hring

/-- A thread goes on. -/
theorem LaneOk.threadStep {sent : List Message} {x : Slot} {g : Journey} {l l' : Lane}
    {printed : List (List UInt8)} (h : LaneOk sent x g l printed)
    (hstep : threadStep l = some l') : ∃ g', LaneOk sent x g' l' printed := by
  obtain ⟨p, b, ds, received⟩ := g
  obtain ⟨hsent, hprinted, hholds, hsocket, hthread⟩ := h
  unfold MqRelay.threadStep at hstep
  rcases received with _ | m
  · -- a message is received
    simp only [hthread, threadWith] at hstep
    rcases hq : l.queue with _ | ⟨m, rest⟩
    · simp [hq] at hstep
    · simp only [hq, Option.some.injEq] at hstep
      subst hstep
      refine ⟨⟨p, b, ds, some m⟩, ?_, hprinted, hholds, hsocket, rfl⟩
      rw [hsent, hq]
      rfl
  · -- it is written to the socket
    simp only [hthread, threadWith, Buffer.take_load] at hstep
    obtain ⟨os, hwrite, -⟩ := FileIO.writen_of_reliable m.bytes List.not_mem_nil
    obtain ⟨c, cs, hbytes⟩ := List.exists_cons_of_ne_nil m.ne_nil
    rw [hbytes] at hwrite
    simp only [hbytes, hwrite, Option.some.injEq] at hstep
    subst hstep
    refine ⟨⟨p, b, ds ++ [m], none⟩, ?_, hprinted, hholds, ?_, rfl⟩
    · rw [hsent]
      simp
    · show l.socket ++ [c :: cs] = _
      rw [hsocket, List.map_append, List.map_singleton, hbytes]

/-- `main` handles a result: the zero byte, if something was read. -/
theorem Inv.handle (h : Inv sent s) {res : ℤ} (hmain : s.main = .handle i res)
    (hstep : mainStep s = some s') : Inv sent s' := by
  obtain ⟨slot, j, hring, hok⟩ := h
  have hlane := hring.laneOk hok (i := i) (x := .handled res)
    (by simp [State.tokens, hmain, MainPc.token])
  have hholds := hlane.holds
  have htoken : s.main.token = [(i, .handled res)] := by rw [hmain]; rfl
  simp only [MqRelay.mainStep, hmain] at hstep
  by_cases hpos : 0 < res
  · rw [if_pos hpos] at hstep
    obtain rfl := Option.some.inj hstep
    rcases hb : (j i).buffered with _ | m
    · simp only [Holds, hb] at hholds
      omega
    · simp only [Holds, hb] at hholds
      exact inv_of_lane hok (hring.advance htoken (y := .terminated) rfl) rfl
        ⟨hlane.sent_eq, hlane.printed_eq, ⟨m, hb, cStr_terminate hholds.1 hholds.2⟩,
          hlane.socket_eq, hlane.thread_eq⟩ fun _ _ => rfl
  · rw [if_neg hpos] at hstep
    obtain rfl := Option.some.inj hstep
    refine inv_of_lanes_eq hok (hring.advance htoken (y := .consumed) rfl) rfl
      ⟨hlane.sent_eq, hlane.printed_eq, ?_, hlane.socket_eq, hlane.thread_eq⟩ fun _ _ => rfl
    -- a message has at least one byte
    rcases hb : (j i).buffered with _ | m
    · exact rfl
    · simp only [Holds, hb] at hholds
      have := List.length_pos_iff.mpr m.ne_nil
      omega

/-- `main` prints the buffer. -/
theorem Inv.print (h : Inv sent s) (hmain : s.main = .print i) (hstep : mainStep s = some s') :
    Inv sent s' := by
  obtain ⟨slot, j, hring, hok⟩ := h
  have hlane := hring.laneOk hok (i := i) (x := .terminated)
    (by simp [State.tokens, hmain, MainPc.token])
  have htoken : s.main.token = [(i, .terminated)] := by rw [hmain]; rfl
  obtain ⟨m, hb, hshown⟩ := hlane.holds
  simp only [MqRelay.mainStep, hmain, Option.some.injEq] at hstep
  subst hstep
  refine inv_of_lanes_eq (g := { j i with printed := (j i).printed ++ [m], buffered := none }) hok
    (hring.advance htoken (y := .consumed) rfl) rfl
    ⟨?_, ?_, rfl, hlane.socket_eq, hlane.thread_eq⟩ ?_
  · rw [hlane.sent_eq, hb]
    simp
  · rw [List.map_append, List.map_singleton, ← hshown, ← hlane.printed_eq]
    simp [State.printed]
  · intro k hk
    simp [State.printed, Ne.symm hk]

/-- **Each step of `main` keeps the invariant.** -/
theorem Inv.mainStep (h : Inv sent s) (hstep : mainStep s = some s') : Inv sent s' := by
  rcases hmain : s.main with _ | ⟨i, res⟩ | i | i
  · -- a completion is taken
    obtain ⟨slot, j, hring, hok⟩ := h
    simp only [MqRelay.mainStep, hmain] at hstep
    rcases hcq : s.cq with _ | ⟨⟨i, res⟩, rest⟩
    · simp [hcq] at hstep
    · simp only [hcq, Option.some.injEq] at hstep
      subst hstep
      have hlane := hring.laneOk hok (i := i) (x := .completed res)
        (by simp [State.tokens, hcq])
      exact inv_of_lanes_eq hok (hring.take hmain hcq) rfl
        ⟨hlane.1, hlane.2, hlane.3, hlane.4, hlane.5⟩ fun _ _ => rfl
  · exact h.handle hmain hstep
  · exact h.print hmain hstep
  · -- the next read is queued
    obtain ⟨slot, j, hring, hok⟩ := h
    have hlane := hring.laneOk hok (i := i) (x := .consumed)
      (by simp [State.tokens, hmain, MainPc.token])
    simp only [MqRelay.mainStep, hmain, Option.some.injEq] at hstep
    subst hstep
    exact inv_of_lanes_eq hok (hring.rearm hmain) rfl
      ⟨hlane.1, hlane.2, hlane.3, hlane.4, hlane.5⟩ fun _ _ => rfl

/-- A read returns the oldest datagram. -/
theorem Inv.read (h : Inv sent s) {k : ℕ} (hstep : next s (.read k) = some s') : Inv sent s' := by
  obtain ⟨slot, j, hring, hok⟩ := h
  simp only [MqRelay.next] at hstep
  rcases hk : s.sq[k]? with _ | i
  · simp [hk] at hstep
  simp only [hk] at hstep
  have hlane := hring.laneOk hok ((tokens_read hk).mem_iff.mpr List.mem_cons_self)
  have hnone : (j i).buffered = none := hlane.holds
  rcases hds : (j i).datagrams with _ | ⟨m, ds⟩
  · rw [hlane.socket_eq, hds] at hstep
    simp at hstep
  · -- it is a message, and it fits the buffer
    have hfit : m.bytes.take maxmsz = m.bytes := List.take_of_length_le m.length_le
    rw [hlane.socket_eq, hds] at hstep
    simp only [List.map_cons, hfit, Option.some.injEq] at hstep
    subst hstep
    refine inv_of_lane (g := { j i with buffered := some m, datagrams := ds }) hok
      (hring.complete hk _) rfl
      ⟨?_, hlane.printed_eq, ⟨rfl, Buffer.take_load _ m⟩, rfl, hlane.thread_eq⟩ fun _ _ => rfl
    rw [hlane.sent_eq, hnone, hds]
    rfl

/-- A read fails. -/
theorem Inv.readFail (h : Inv sent s) {k err : ℕ} (hstep : next s (.readFail k err) = some s') :
    Inv sent s' := by
  obtain ⟨slot, j, hring, hok⟩ := h
  simp only [MqRelay.next] at hstep
  rcases hk : s.sq[k]? with _ | i
  · simp [hk] at hstep
  simp only [hk, Option.some.injEq] at hstep
  subst hstep
  have hlane := hring.laneOk hok ((tokens_read hk).mem_iff.mpr List.mem_cons_self)
  have hnone : (j i).buffered = none := hlane.holds
  refine inv_of_lanes_eq hok (hring.complete hk _) rfl
    ⟨hlane.sent_eq, hlane.printed_eq, ?_, hlane.socket_eq, hlane.thread_eq⟩ fun _ _ => rfl
  rw [hnone]
  show -(err + 1 : ℤ) ≤ 0
  omega

/-- **Every step keeps the invariant.** -/
theorem Inv.next (h : Inv sent s) {a : Action} (hstep : next s a = some s') : Inv sent s' := by
  cases a with
  | send i =>
      obtain ⟨slot, j, hring, hok⟩ := h
      simp only [MqRelay.next] at hstep
      rcases hu : (s.lanes i).unsent with _ | ⟨m, rest⟩
      · simp [hu] at hstep
      · simp only [hu] at hstep
        split at hstep
        · obtain rfl := Option.some.inj hstep
          have hlane := hok i
          refine inv_setLane hring hok (g := j i)
            ⟨?_, hlane.printed_eq, hlane.holds, hlane.socket_eq, hlane.thread_eq⟩
          rw [hlane.sent_eq, hu]
          simp
        · cases hstep
  | thread i =>
      obtain ⟨slot, j, hring, hok⟩ := h
      obtain ⟨l, hl, rfl⟩ := Option.map_eq_some_iff.mp hstep
      obtain ⟨g, hg⟩ := (hok i).threadStep hl
      exact inv_setLane hring hok hg
  | read k => exact h.read hstep
  | readFail k err => exact h.readFail hstep
  | main => exact h.mainStep hstep

end Steps

theorem inv_reach {sent : Fin nq → List Message} {s : State} (h : (relay sent).Reach s) :
    Inv sent s := by
  refine Machine.Reach.invariant (I := Inv sent) ?_ (fun _ _ _ hs hstep => hs.next hstep) h
  rintro s rfl
  refine ⟨fun _ => .submitted, fun _ => ⟨[], none, [], none⟩, ?_, fun i => ?_⟩
  · rw [Ring, State.tokens]
    simp [initState, MainPc.token]
  · exact ⟨rfl, rfl, rfl, rfl, rfl⟩

/-! ### The end of a run -/

/-- How many steps the messages of a lane have before them. -/
def Lane.weight (l : Lane) : ℕ :=
  8 * l.unsent.length + 7 * l.queue.length +
    (match l.thread with
      | .write _ _ => 6
      | .receive | .exited _ => 0) + 5 * l.socket.length

def MainPc.weight : MainPc → ℕ
  | .wait => 0
  | .handle _ _ => 3
  | .print _ => 2
  | .rearm _ => 1

def State.weight (s : State) : ℕ :=
  Threads.total Lane.weight s.lanes + 4 * s.cq.length + s.main.weight

theorem total_setLane (s : State) (i : Fin nq) (l : Lane) :
    Threads.total Lane.weight (s.setLane i l).lanes + (s.lanes i).weight
      = Threads.total Lane.weight s.lanes + l.weight :=
  Threads.total_update Lane.weight s.lanes i l

/-- Another lane at one index shifts the weight by the difference. -/
theorem weight_setLane (s : State) (i : Fin nq) (l : Lane) :
    (s.setLane i l).weight + (s.lanes i).weight = s.weight + l.weight := by
  have htotal := total_setLane s i l
  simp only [State.weight, State.setLane] at htotal ⊢
  omega

theorem weight_threadStep {l l' : Lane} (h : threadStep l = some l') : l'.weight < l.weight := by
  unfold threadStep at h
  rcases hthread : l.thread with _ | ⟨buf, n⟩ | msg
  · simp only [hthread] at h
    rcases hq : l.queue with _ | ⟨m, rest⟩
    · simp [hq] at h
    · simp only [hq, Option.some.injEq] at h
      subst h
      simp only [Lane.weight, hthread, hq, List.length_cons]
      omega
  · simp only [hthread] at h
    split at h <;> obtain rfl := Option.some.inj h
    · simp only [Lane.weight, hthread]
      omega
    · simp only [Lane.weight, hthread]
      omega
    · simp only [Lane.weight, hthread, List.length_append, List.length_singleton]
      omega
  · simp [hthread] at h

/-- A step of `main` brings the end nearer. -/
theorem weight_mainStep {s s' : State} (h : mainStep s = some s') : s'.weight < s.weight := by
  unfold mainStep at h
  rcases hmain : s.main with _ | ⟨i, res⟩ | i | i
  · simp only [hmain] at h
    rcases hcq : s.cq with _ | ⟨⟨i, res⟩, rest⟩
    · simp [hcq] at h
    · simp only [hcq, Option.some.injEq] at h
      subst h
      simp only [State.weight, MainPc.weight, hmain, hcq, List.length_cons]
      omega
  · simp only [hmain] at h
    split at h <;> obtain rfl := Option.some.inj h
    · -- the lane weighs the same with the zero byte in its buffer
      have htotal := total_setLane s i
        { s.lanes i with buffer := terminate (s.lanes i).buffer res }
      simp only [State.weight, MainPc.weight, hmain, State.setLane] at htotal ⊢
      simp only [Lane.weight] at htotal
      omega
    · simp only [State.weight, MainPc.weight, hmain]
      omega
  · simp only [hmain, Option.some.injEq] at h
    subst h
    simp only [State.weight, MainPc.weight, hmain]
    omega
  · simp only [hmain, Option.some.injEq] at h
    subst h
    simp only [State.weight, MainPc.weight, hmain]
    omega

/-- Every step but a failing read brings the end nearer. -/
theorem weight_next {s s' : State} {a : Action} (ha : Succeeds s a) (h : next s a = some s') :
    s'.weight < s.weight := by
  cases a with
  | send i =>
      simp only [next] at h
      rcases hu : (s.lanes i).unsent with _ | ⟨m, rest⟩
      · simp [hu] at h
      · simp only [hu] at h
        split at h
        · obtain rfl := Option.some.inj h
          have hweight := weight_setLane s i
            { s.lanes i with unsent := rest, queue := (s.lanes i).queue ++ [m] }
          simp only [Lane.weight, hu, List.length_append, List.length_cons,
            List.length_nil] at hweight
          omega
        · cases h
  | thread i =>
      obtain ⟨l, hl, rfl⟩ := Option.map_eq_some_iff.mp h
      have hlt := weight_threadStep hl
      have hweight := weight_setLane s i l
      omega
  | read k =>
      simp only [next] at h
      rcases hk : s.sq[k]? with _ | i
      · simp [hk] at h
      simp only [hk] at h
      rcases hs : (s.lanes i).socket with _ | ⟨d, rest⟩
      · simp [hs] at h
      · simp only [hs, Option.some.injEq] at h
        subst h
        have htotal := total_setLane s i
          { s.lanes i with socket := rest, buffer := (s.lanes i).buffer.load (d.take maxmsz) }
        simp only [State.weight, State.setLane, List.length_append, List.length_singleton] at htotal ⊢
        simp only [Lane.weight, hs, List.length_cons] at htotal
        omega
  | readFail k err => exact ha.elim
  | main => exact weight_mainStep h

/-- Without failing reads the relay comes to rest. -/
theorem exists_settled (sent : Fin nq → List Message) :
    ∃ s, (relay sent).Reach s ∧ Settled s := by
  have hinit : ((relay sent).restrict Succeeds).Reach (initState sent) := .start rfl
  obtain ⟨s, hs, hfinal⟩ := hinit.exists_final State.weight fun s a s' hstep => by
    obtain ⟨ha, hstep⟩ := Machine.restrict_next.mp hstep
    exact weight_next ha hstep
  refine ⟨s, hs.of_restrict, fun a ha => ?_⟩
  have hnone : (if Succeeds s a then next s a else none) = none := hfinal a
  rwa [if_pos ha] at hnone

/-- At rest `main` waits for a completion, and there is none. -/
theorem Settled.waits {s : State} (h : Settled s) : s.main = .wait ∧ s.cq = [] := by
  have hstep := h .main trivial
  rcases hm : s.main with _ | ⟨k, res⟩ | k | k
  · refine ⟨rfl, ?_⟩
    rcases hc : s.cq with _ | ⟨⟨k, res⟩, rest⟩
    · rfl
    · simp [next, mainStep, hm, hc] at hstep
  · by_cases hpos : 0 < res <;> simp [next, mainStep, hm, hpos] at hstep
  · simp [next, mainStep, hm] at hstep
  · simp [next, mainStep, hm] at hstep

/-- At rest no message is with a thread, in a queue or yet to be sent. -/
theorem Settled.received {s : State} (h : Settled s) {i : Fin nq} {m : Option Message}
    (hpc : (s.lanes i).thread = threadWith m) :
    m = none ∧ (s.lanes i).queue = [] ∧ (s.lanes i).unsent = [] := by
  have hthread := h (.thread i) trivial
  simp only [next, Option.map_eq_none_iff] at hthread
  have hm : m = none := by
    rcases m with _ | m
    · rfl
    · unfold threadStep at hthread
      simp only [hpc, threadWith] at hthread
      split at hthread <;> cases hthread
  have hqueue : (s.lanes i).queue = [] := by
    rcases hq : (s.lanes i).queue with _ | ⟨m', rest⟩
    · rfl
    · rw [hm] at hpc
      simp [threadStep, hpc, threadWith, hq] at hthread
  refine ⟨hm, hqueue, ?_⟩
  have hsend := h (.send i) trivial
  rcases hu : (s.lanes i).unsent with _ | ⟨m', rest⟩
  · rfl
  · simp [next, hu, hqueue, maxmsg] at hsend

/-- In a state at rest everything has been printed. -/
theorem Settled.printed_eq {sent : Fin nq → List Message} {s : State} (h : Settled s)
    (hinv : Inv sent s) (i : Fin nq) : s.printed i = (sent i).map Message.shown := by
  obtain ⟨slot, j, hring, hok⟩ := hinv
  obtain ⟨hmain, hcq⟩ := h.waits
  -- the read is submitted, so the socket is empty
  have hmem := hring.mem_tokens i
  simp only [State.tokens, hcq, hmain, MainPc.token, List.map_nil, List.append_nil] at hmem
  obtain ⟨k, hk, hki⟩ := List.mem_map.mp hmem
  obtain ⟨rfl, hslot⟩ := Prod.mk.inj hki
  have hlane := hok k
  rw [← hslot] at hlane
  have hbuffered : (j k).buffered = none := hlane.holds
  have hsocket : (s.lanes k).socket = [] := by
    obtain ⟨n, hn⟩ := List.mem_iff_getElem?.mp hk
    have hstep := h (.read n) trivial
    rcases hs : (s.lanes k).socket with _ | ⟨d, rest⟩
    · rfl
    · simp [next, hn, hs] at hstep
  have hdatagrams : (j k).datagrams = [] := by
    rw [hlane.socket_eq] at hsocket
    exact List.map_eq_nil_iff.mp hsocket
  obtain ⟨hreceived, hqueue, hunsent⟩ := h.received hlane.thread_eq
  have hsent : sent k = (j k).printed := by
    rw [hlane.sent_eq, hbuffered, hdatagrams, hreceived, hqueue, hunsent]
    simp
  rw [hlane.printed_eq, hsent]

/-- At any time the first messages sent have been printed. -/
theorem Inv.printed_initial {sent : Fin nq → List Message} {s : State} (h : Inv sent s)
    (i : Fin nq) : s.printed i <+: (sent i).map Message.shown := by
  obtain ⟨slot, j, -, hok⟩ := h
  rw [(hok i).printed_eq, (hok i).sent_eq, List.map_append]
  exact List.prefix_append _ _

/-- **When the relay prints what was sent**: for all messages sent to the queues, in every
interleaving the messages printed for a queue are those sent to it, whole and in order, and
in the end all of them, exactly if every message is shorter than `MAXMSZ`. -/
theorem relayed_iff (sent : Fin nq → List Message) :
    Relayed sent ↔ ∀ i, ∀ m ∈ sent i, m.bytes.length < maxmsz := by
  constructor
  · intro hrelayed i m hm
    obtain ⟨s, hs, hsettled⟩ := exists_settled sent
    have hall := (hrelayed s hs i).2 hsettled
    rw [hsettled.printed_eq (inv_reach hs)] at hall
    exact m.shown_eq_iff.mp (List.map_inj_left.mp hall m hm)
  · intro hshort s hs i
    have hshown : (sent i).map Message.shown = (sent i).map Message.bytes :=
      List.map_congr_left fun m hm => m.shown_eq_iff.mpr (hshort i m hm)
    rw [← hshown]
    exact ⟨(inv_reach hs).printed_initial i, fun hsettled => hsettled.printed_eq (inv_reach hs) i⟩

/-- A message that fills the buffer. -/
def fullMessage : Message where
  bytes := List.replicate maxmsz 97
  ne_nil := List.ne_nil_of_length_pos (by rw [List.length_replicate]; decide)
  nul_free := fun h => absurd (List.eq_of_mem_replicate h) (by decide)
  length_le := Nat.le_of_eq List.length_replicate

/-- It is sent to the first queue only. -/
def sentFull (i : Fin nq) : List Message := if i.val = 0 then [fullMessage] else []

def firstQueue : Fin nq := ⟨0, by decide⟩

/-- It is printed without its last byte. -/
theorem fullMessage_cut : ∃ s, (relay sentFull).Reach s ∧
    s.printed firstQueue = [List.replicate 511 97] ∧
      ¬ s.printed firstQueue <+: (sentFull firstQueue).map Message.bytes := by
  have hrun : ((relay sentFull).run (initState sentFull)
      [.send firstQueue, .thread firstQueue, .thread firstQueue, .read 0, .main, .main, .main]).map
        (fun s => s.printed firstQueue) = some [List.replicate 511 97] := by decide +kernel
  obtain ⟨s, hs, hprinted⟩ := Option.map_eq_some_iff.mp hrun
  refine ⟨s, Machine.reach_of_run rfl hs, hprinted, ?_⟩
  rw [hprinted]
  decide +kernel

end Apue.MqRelay
