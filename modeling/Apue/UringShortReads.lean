/-
Apue/UringShortReads.lean

The io_uring copier when a read may return less than it was asked for.

The plain loop of `14/7` reads on from where the last read ended.  The io_uring program
hands out block offsets in advance: what a short read leaves of its block is never read
again, and the short result is taken for the end of the file, so that blocks not handed
out yet may be left out as well.  Here it is worked out what this does to the output.

The kernel's operations and their results are kept as a history beside the state.  The
invariant (`Flow`) follows every byte a read has returned: it is in the output file, or
in a write not performed yet, or in a completion `main` has not seen.  So when `main`
leaves its loop the output holds exactly the bytes that reads have returned, at their
places, and holes elsewhere.  Nothing is assumed of the writes: a write that fails or is
short ends the program with an error.
-/
import Apue.UringCopyInv
import Apue.PlainCopy

namespace Apue.UringCopy

open ByteFile

variable {input : List UInt8}

/-! ### What the kernel did -/

/-- An operation the kernel performed, with its result. -/
abbrev Performed := Sqe × ℤ

/-- The operation performed at a step. -/
def performed (s : State) : Action → List Performed
  | .perform i res => (s.sq[i]?).toList.map fun e => (e, res)
  | .complete | .waitFail | .leave => []

/-- A kernel whose reads may be short: before the end of the file a read returns
something, at the end nothing.  It is free in what it does with writes. -/
def ShortReads (input : List UInt8) (s : State) : Action → Prop
  | .perform i res => (s.sq[i]?).all fun e =>
      e.opcode = .opWrite ∨ 0 < res ∨ (res = 0 ∧ input.length ≤ e.offset)
  | _ => True

instance (input : List UInt8) (s : State) (a : Action) : Decidable (ShortReads input s a) :=
  match a with
  | .perform _ _ => inferInstanceAs (Decidable (_ = true))
  | .complete | .waitFail | .leave => .isTrue trivial

/-- The copier on top of such a kernel, with the history of operations. -/
def shortCopier (input : List UInt8) : Machine (State × List Performed) Action :=
  ((copier input).restrict (ShortReads input)).recorded performed

/-- The byte at `j` was transferred by an operation of the given kind. -/
def Covered (op : OpType) (hist : List Performed) (j : ℕ) : Prop :=
  ∃ p ∈ hist, p.1.opcode = op ∧ p.1.offset ≤ j ∧ j < p.1.offset + p.2.toNat

theorem covered_append_singleton {op : OpType} {hist : List Performed} {e : Sqe} {res : ℤ}
    {j : ℕ} : Covered op (hist ++ [(e, res)]) j ↔
      Covered op hist j ∨ e.opcode = op ∧ e.offset ≤ j ∧ j < e.offset + res.toNat := by
  simp [Covered, or_and_right, exists_or]

/-! ### The invariant -/

/-- Some read at `offset` returned `n` bytes. -/
def ReadAt (hist : List Performed) (offset : ℕ) (n : ℤ) : Prop :=
  ∃ q ∈ hist, q.1.opcode = .opRead ∧ q.1.offset = offset ∧ q.2 = n

/-- A submitted request agrees with its slot; a write carries the translation of what a
read has returned. -/
structure SqeFlow (input : List UInt8) (hist : List Performed) (r : Request) (e : Sqe) :
    Prop where
  opcode : e.opcode = r.type
  offset : e.offset = r.offset
  read : r.type = .opRead → e.len = bsz
  write : r.type = .opWrite → r.iovecLen = e.len ∧ e.offset + e.len ≤ input.length ∧
    r.buf.bytes.take e.len = pread (input.map translate) e.offset e.len ∧
    ReadAt hist e.offset e.len

/-- After a read has returned something, the slot holds it. -/
def CqeFlow (input : List UInt8) (hist : List Performed) (r : Request) (c : Cqe) : Prop :=
  r.type = .opRead → 0 < c.res → r.offset + c.res.toNat ≤ input.length ∧
    c.res.toNat ≤ bsz ∧ r.buf.bytes.take c.res.toNat = pread input r.offset c.res.toNat ∧
    ReadAt hist r.offset c.res

/-- Nothing is left to do for an operation: a read returned nothing or what it returned
has been written, a write was complete. -/
def Done (hist : List Performed) (p : Performed) : Prop :=
  match p.1.opcode with
  | .opRead => p.2 ≤ 0 ∨ ∃ w ∈ hist, w.1.opcode = .opWrite ∧ w.1.offset = p.1.offset ∧ w.2 = p.2
  | .opWrite => p.2 = p.1.len

/-- The submitted write `e` is for what the read `p` returned. -/
def Continues (e : Sqe) (p : Performed) : Prop :=
  p.1.opcode = .opRead ∧ e.opcode = .opWrite ∧ e.offset = p.1.offset ∧ (e.len : ℤ) = p.2

/-- The completion `c` of the request `r` stands between `p` and the end of the loop: it
is the completion of the read `p`, or one of a write that will end the program. -/
def Carries (r : Request) (c : Cqe) (p : Performed) : Prop :=
  match r.type with
  | .opRead => p.1.opcode = .opRead ∧ r.offset = p.1.offset ∧ c.res = p.2
  | .opWrite => c.res ≠ r.iovecLen

/-- The invariant, at any point of the loop body; `hand` are the operations whose
completion is in the hands of `main`. -/
structure Flow (input : List UInt8) (hand : Performed → Prop) (s : State)
    (hist : List Performed) : Prop where
  nodup : s.inflight.Nodup
  pending : s.pendingOperations = s.inflight.length
  sqes : ∀ e ∈ s.sq, SqeFlow input hist (s.requests e.data) e
  cqes : ∀ c ∈ s.cq, CqeFlow input hist (s.requests c.data) c
  kept : ∀ p ∈ hist, Done hist p ∨ (∃ e ∈ s.sq, Continues e p) ∨
    (∃ c ∈ s.cq, Carries (s.requests c.data) c p) ∨ hand p
  back : ∀ p ∈ hist, p.1.opcode = .opWrite →
    p.2 ≤ p.1.len ∧ ReadAt hist p.1.offset p.1.len
  output : Spliced (input.map translate) (Covered .opWrite hist) s.outfile

section Steps

variable {hand : Performed → Prop} {s : State} {hist : List Performed} {i : Fin queueDepth}

/-! ### The program's own steps -/

theorem flow_initState (input : List UInt8) : Flow input (fun _ => False) initState [] where
  nodup := (inv_initState input).nodup
  pending := (inv_initState input).pending
  sqes := by
    intro e he
    have hok := (inv_initState input).sqes e he
    have hread : e.opcode = .opRead :=
      (by decide +kernel : ∀ e ∈ initState.sq, e.opcode = .opRead) e he
    exact ⟨hok.opcode, hok.offset, hok.read, fun hw =>
      absurd (hread.symm.trans (hok.opcode.trans hw)) (by simp)⟩
  cqes := fun c hc => by cases hc
  kept := fun p hp => by cases hp
  back := fun p hp => by cases hp
  output := (Spliced.nil _).congr fun j => by simp [Covered]

/-- A slot that is not in flight may change. -/
theorem Flow.setRequest (h : Flow input hand s hist) (hi : i ∉ s.inflight) (r : Request) :
    Flow input hand (s.setRequest i r) hist := by
  have hother := requests_of_not_mem s hi r
  exact
    { h with
      sqes := fun e he => by
        show SqeFlow input hist (Function.update s.requests i r e.data) e
        rw [hother _ (mem_inflight_of_sqe he)]
        exact h.sqes e he
      cqes := fun c hc => by
        show CqeFlow input hist (Function.update s.requests i r c.data) c
        rw [hother _ (mem_inflight_of_cqe hc)]
        exact h.cqes c hc
      kept := fun p hp => by
        rcases h.kept p hp with hd | he | ⟨c, hc, hcar⟩ | hh
        · exact .inl hd
        · exact .inr (.inl he)
        · refine .inr (.inr (.inl ⟨c, hc, ?_⟩))
          show Carries (Function.update s.requests i r c.data) c p
          rw [hother _ (mem_inflight_of_cqe hc)]
          exact hcar
        · exact .inr (.inr (.inr hh)) }

/-- A request for slot `i` is handed to the ring; it carries on with what is in the
hands of `main`. -/
theorem Flow.submit (h : Flow input hand s hist) (hi : i ∉ s.inflight) {e : Sqe}
    (he : e.data = i) (hok : SqeFlow input hist (s.requests i) e)
    (hhand : ∀ p ∈ hist, hand p → Continues e p) :
    Flow input (fun _ => False)
      { s with
        sq := s.sq ++ [e]
        pendingOperations := s.pendingOperations + 1 } hist := by
  have hperm := he ▸ inflight_submit s e
  refine
    { h with
      nodup := hperm.nodup_iff.mpr (List.nodup_cons.mpr ⟨hi, h.nodup⟩)
      pending := ?_
      sqes := ?_
      kept := ?_ }
  · show s.pendingOperations + 1 = _
    rw [State.inflight, hperm.length_eq, List.length_cons, h.pending]
    norm_cast
  · intro e' he'
    rcases List.mem_append.mp he' with he' | he'
    · exact h.sqes e' he'
    · obtain rfl := List.mem_singleton.mp he'
      show SqeFlow input hist (s.requests e'.data) e'
      rw [he]
      exact hok
  · intro p hp
    rcases h.kept p hp with hd | ⟨e', he', hcon⟩ | hc | hh
    · exact .inl hd
    · exact .inr (.inl ⟨e', List.mem_append_left _ he', hcon⟩)
    · exact .inr (.inr (.inl hc))
    · exact .inr (.inl ⟨e, List.mem_append_right _ (List.mem_singleton_self e), hhand p hp hh⟩)

/-- `main` takes a completion. -/
theorem Flow.pop (h : Flow input (fun _ => False) s hist) {c : Cqe} {rest : List Cqe}
    (hcq : s.cq = c :: rest) :
    c.data ∉ (popped s rest).inflight ∧
      Flow input (Carries (s.requests c.data) c) (popped s rest) hist := by
  have hperm := inflight_popped hcq
  have hnd := List.nodup_cons.mp (hperm.nodup_iff.mp h.nodup)
  refine ⟨hnd.1,
    { h with
      nodup := hnd.2
      pending := ?_
      cqes := fun c' hc' => h.cqes c' (hcq ▸ List.mem_cons_of_mem _ hc')
      kept := ?_ }⟩
  · show s.pendingOperations - 1 = _
    rw [h.pending, hperm.length_eq, List.length_cons]
    simp
  · intro p hp
    rcases h.kept p hp with hd | he | ⟨c', hc', hcar⟩ | hh
    · exact .inl hd
    · exact .inr (.inl he)
    · rcases List.mem_cons.mp (hcq ▸ hc') with rfl | hc'
      · exact .inr (.inr (.inr hcar))
      · exact .inr (.inr (.inl ⟨c', hc', hcar⟩))
    · exact hh.elim

/-- What is in the hands of `main` may be dropped when nothing is left to do for it. -/
theorem Flow.settle (h : Flow input hand s hist) (hdone : ∀ p ∈ hist, hand p → Done hist p) :
    Flow input (fun _ => False) s hist :=
  { h with
    kept := fun p hp => by
      rcases h.kept p hp with hd | he | hc | hh
      · exact .inl hd
      · exact .inr (.inl he)
      · exact .inr (.inr (.inl hc))
      · exact .inl (hdone p hp hh) }

/-- `queue_read`, with nothing in the hands of `main`. -/
theorem Flow.queueRead (h : Flow input (fun _ => False) s hist) (hi : i ∉ s.inflight) :
    Flow input (fun _ => False) (queueRead s i) hist := by
  unfold UringCopy.queueRead
  by_cases heof : s.eofReached = true
  · rw [if_pos heof]
    exact h
  · rw [if_neg heof]
    have hset := h.setRequest hi
      { s.requests i with type := .opRead, offset := s.globalReadOffset }
    have hsub := hset.submit (e := ⟨.opRead, i, bsz, s.globalReadOffset⟩) hi rfl
      (by
        show SqeFlow input hist (Function.update s.requests i _ i) _
        rw [Function.update_self]
        exact ⟨rfl, rfl, fun _ => rfl, fun hw => by cases hw⟩)
      (fun _ _ hh => hh.elim)
    exact { hsub with }

/-- The `OP_READ` branch. -/
theorem Flow.onRead {c : Cqe} {r : Request} (h : Flow input (Carries r c) s hist)
    (hr : s.requests i = r) (hi : i ∉ s.inflight) (ht : r.type = .opRead)
    (hc : CqeFlow input hist r c) (hnn : ¬ c.res < 0) :
    Flow input (fun _ => False) (onRead s i c.res) hist := by
  subst hr
  have hcar : ∀ p, Carries (s.requests i) c p →
      p.1.opcode = .opRead ∧ (s.requests i).offset = p.1.offset ∧ c.res = p.2 := by
    intro p hp
    simpa only [Carries, ht] using hp
  unfold UringCopy.onRead
  by_cases hpos : 0 < c.res
  · rw [if_pos hpos]
    obtain ⟨hle, hbsz, hbuf, hread⟩ := hc ht hpos
    have hres : (c.res.toNat : ℤ) = c.res := Int.toNat_of_nonneg (Int.not_lt.mp hnn)
    -- the slot now holds the translated bytes and their number
    have hset := (h.setRequest hi { s.requests i with
        iovecLen := c.res
        buf := (s.requests i).buf.mapPrefix c.res.toNat translate }).setRequest hi
      { s.requests i with
        type := .opWrite
        iovecLen := c.res
        buf := (s.requests i).buf.mapPrefix c.res.toNat translate }
    have hsub := hset.submit (e := ⟨.opWrite, i, c.res.toNat, (s.requests i).offset⟩) hi rfl
      (by
        show SqeFlow input hist (Function.update (Function.update s.requests i _) i _ i) _
        rw [Function.update_self]
        refine ⟨rfl, rfl, (fun hw => by cases hw), fun _ => ⟨hres.symm, hle, ?_, ?_⟩⟩
        · show List.take c.res.toNat (Buf.mapPrefix _ _ _).bytes = _
          rw [Buf.take_mapPrefix _ _ _ hbsz, hbuf, pread, pread, List.map_take, List.map_drop]
        · show ReadAt hist (s.requests i).offset (c.res.toNat : ℤ)
          rw [hres]
          exact hread)
      (fun p _ hp => by
        obtain ⟨hop, hoff, hcount⟩ := hcar p hp
        exact ⟨hop, rfl, hoff, hres.trans hcount⟩)
    simp only [queueWrite, State.setRequest, Function.update_self]
    exact { hsub with }
  · rw [if_neg hpos]
    have hset := h.settle fun p _ hp => by
      obtain ⟨hop, -, hcount⟩ := hcar p hp
      simp only [Done, hop]
      exact .inl (by omega)
    exact { hset with }

/-- The `OP_WRITE` branch, when it goes on. -/
theorem Flow.onWrite {c : Cqe} {r : Request} (h : Flow input (Carries r c) s hist)
    (hr : s.requests i = r) (hi : i ∉ s.inflight) (ht : r.type = .opWrite)
    (hexit : (onWrite s i c.res).exit = none) :
    Flow input (fun _ => False) (onWrite s i c.res) hist := by
  subst hr
  unfold UringCopy.onWrite at hexit ⊢
  by_cases hlen : c.res = (s.requests i).iovecLen
  · rw [if_neg (not_not.mpr hlen)]
    refine Flow.queueRead (h.settle fun p _ hp => ?_) hi
    simp only [Carries, ht] at hp
    exact absurd hlen hp
  · simp [hlen] at hexit

/-- **One pass through the loop body keeps the invariant**, unless it ends the program. -/
theorem Flow.loopBody (h : Flow input (fun _ => False) s hist) {c : Cqe} {rest : List Cqe}
    (hcq : s.cq = c :: rest)
    (hexit : (loopBody { s with cq := rest } c).exit = none) :
    Flow input (fun _ => False) (loopBody { s with cq := rest } c) hist := by
  obtain ⟨hout, hpop⟩ := h.pop hcq
  by_cases hneg : c.res < 0
  · simp [UringCopy.loopBody, hneg] at hexit
  rcases ht : (s.requests c.data).type with _ | _
  · rw [loopBody_of_read rest hneg ht]
    exact hpop.onRead rfl hout ht (h.cqes c (by simp [hcq])) hneg
  · rw [loopBody_of_write rest hneg ht] at hexit ⊢
    exact hpop.onWrite rfl hout ht hexit

/-! ### The kernel's steps -/

theorem ReadAt.append {offset : ℕ} {n : ℤ} (h : ReadAt hist offset n) (l : List Performed) :
    ReadAt (hist ++ l) offset n := by
  obtain ⟨q, hq, hread⟩ := h
  exact ⟨q, List.mem_append_left _ hq, hread⟩

theorem SqeFlow.append {r : Request} {e : Sqe} (h : SqeFlow input hist r e)
    (l : List Performed) : SqeFlow input (hist ++ l) r e :=
  { h with
    write := fun ht =>
      let ⟨h₁, h₂, h₃, h₄⟩ := h.write ht
      ⟨h₁, h₂, h₃, h₄.append l⟩ }

theorem CqeFlow.append {r : Request} {c : Cqe} (h : CqeFlow input hist r c)
    (l : List Performed) : CqeFlow input (hist ++ l) r c := by
  intro ht hpos
  obtain ⟨h₁, h₂, h₃, h₄⟩ := h ht hpos
  exact ⟨h₁, h₂, h₃, h₄.append l⟩

theorem Done.append {p : Performed} (h : Done hist p) (l : List Performed) :
    Done (hist ++ l) p := by
  rcases hop : p.1.opcode with _ | _
  · simp only [Done, hop] at h ⊢
    rcases h with h | ⟨w, hw, hwrite⟩
    · exact .inl h
    · exact .inr ⟨w, List.mem_append_left _ hw, hwrite⟩
  · simpa only [Done, hop] using h

/-- What the request `e` stood for is done when the kernel performs it, or hangs on its
completion. -/
theorem done_or_carries {e : Sqe} {r : Request} (ht : r.type = e.opcode)
    (hoff : r.offset = e.offset) (hlen : e.opcode = .opWrite → r.iovecLen = e.len) (res : ℤ)
    {p : Performed} (hp : p = (e, res) ∨ Continues e p) :
    Done (hist ++ [(e, res)]) p ∨ Carries r ⟨e.data, res⟩ p := by
  rcases hop : e.opcode with _ | _
  · rcases hp with rfl | hcon
    · right
      simp only [Carries, ht, hop]
      exact ⟨trivial, hoff, trivial⟩
    · exact absurd (hop.symm.trans hcon.2.1) (by simp)
  · by_cases hfull : res = e.len
    · left
      rcases hp with rfl | ⟨hread, -, hoff', hcount⟩
      · simpa only [Done, hop] using hfull
      · simp only [Done, hread]
        exact .inr ⟨(e, res), by simp, hop, hoff', hfull.trans hcount⟩
    · right
      simp only [Carries, ht, hop, hlen hop]
      exact hfull

/-- No operation is lost when the kernel performs the request `e`. -/
theorem Flow.kept_perform (h : Flow input (fun _ => False) s hist) {n : ℕ} {e : Sqe}
    (he : s.sq[n]? = some e) {res : ℤ} {requests : Fin queueDepth → Request}
    (hother : ∀ c ∈ s.cq, requests c.data = s.requests c.data)
    (hnew : ∀ p, p = (e, res) ∨ Continues e p →
      Done (hist ++ [(e, res)]) p ∨ Carries (requests e.data) ⟨e.data, res⟩ p) :
    ∀ p ∈ hist ++ [(e, res)], Done (hist ++ [(e, res)]) p ∨
      (∃ e' ∈ s.sq.eraseIdx n, Continues e' p) ∨
      (∃ c ∈ s.cq ++ [⟨e.data, res⟩], Carries (requests c.data) c p) ∨ False := by
  -- what `e` stood for is done, or hangs on the new completion
  have hmoved : ∀ p, p = (e, res) ∨ Continues e p → Done (hist ++ [(e, res)]) p ∨
      ∃ c ∈ s.cq ++ [⟨e.data, res⟩], Carries (requests c.data) c p := by
    intro p hp
    exact (hnew p hp).imp_right fun hcar =>
      ⟨_, List.mem_append_right _ (List.mem_singleton_self _), hcar⟩
  intro p hp
  rcases List.mem_append.mp hp with hp | hp
  · rcases h.kept p hp with hd | ⟨e', he', hcon⟩ | ⟨c, hc, hcar⟩ | hh
    · exact .inl (hd.append _)
    · rcases List.mem_cons.mp ((sq_perm_eraseIdx he).mem_iff.mp he') with rfl | he'
      · exact (hmoved p (.inr hcon)).imp_right fun hcar => .inr (.inl hcar)
      · exact .inr (.inl ⟨e', he', hcon⟩)
    · refine .inr (.inr (.inl ⟨c, List.mem_append_left _ hc, ?_⟩))
      rw [hother c hc]
      exact hcar
    · exact hh.elim
  · obtain rfl := List.mem_singleton.mp hp
    exact (hmoved _ (.inl rfl)).imp_right fun hcar => .inr (.inl hcar)

/-- What the kernel may change when it performs the request `e`: the slot's buffer and the
output file. -/
theorem Flow.carryOut (h : Flow input (fun _ => False) s hist) {n : ℕ} {e : Sqe}
    (he : s.sq[n]? = some e) (res : ℤ) (buf : Buf) {out : List UInt8}
    (hc : CqeFlow input (hist ++ [(e, res)]) { s.requests e.data with buf := buf } ⟨e.data, res⟩)
    (hle : e.opcode = .opWrite → res ≤ e.len)
    (hout : Spliced (input.map translate) (Covered .opWrite (hist ++ [(e, res)])) out) :
    Flow input (fun _ => False)
      { s.setRequest e.data { s.requests e.data with buf := buf } with
        sq := s.sq.eraseIdx n
        cq := s.cq ++ [⟨e.data, res⟩]
        outfile := out } (hist ++ [(e, res)]) := by
  have hok := h.sqes e (List.mem_of_getElem? he)
  have hperm := inflight_perform he res
  have hother := requests_of_not_mem s (not_mem_inflight_perform h.nodup he)
    { s.requests e.data with buf := buf }
  have hcqes : ∀ c ∈ s.cq, Function.update s.requests e.data
      { s.requests e.data with buf := buf } c.data = s.requests c.data :=
    fun c hc => hother _ (List.mem_append_right _ (List.mem_map_of_mem hc))
  refine
    { nodup := hperm.nodup_iff.mp h.nodup
      pending := h.pending.trans (congrArg _ hperm.length_eq)
      sqes := ?_
      cqes := ?_
      kept := h.kept_perform he hcqes fun p hp => ?_
      back := ?_
      output := hout }
  · intro e' he'
    show SqeFlow input _ (Function.update s.requests e.data _ e'.data) e'
    rw [hother _ (List.mem_append_left _ (List.mem_map_of_mem he'))]
    exact (h.sqes e' (List.mem_of_mem_eraseIdx he')).append _
  · intro c hc'
    show CqeFlow input _ (Function.update s.requests e.data _ c.data) c
    rcases List.mem_append.mp hc' with hc' | hc'
    · rw [hcqes c hc']
      exact (h.cqes c hc').append _
    · obtain rfl := List.mem_singleton.mp hc'
      rw [Function.update_self]
      exact hc
  · show _ ∨ Carries (Function.update s.requests e.data _ e.data) _ p
    rw [Function.update_self]
    exact done_or_carries hok.opcode.symm hok.offset.symm
      (fun hop => (hok.write (hok.opcode.symm.trans hop)).1) res hp
  · intro p hp hop
    rcases List.mem_append.mp hp with hp | hp
    · exact ⟨(h.back p hp hop).1, (h.back p hp hop).2.append _⟩
    · obtain rfl := List.mem_singleton.mp hp
      exact ⟨hle hop, (hok.write (hok.opcode.symm.trans hop)).2.2.2.append _⟩

/-- The same for an operation that brings nothing into the buffer. -/
theorem Flow.carryOut_keep (h : Flow input (fun _ => False) s hist) {n : ℕ} {e : Sqe}
    (he : s.sq[n]? = some e) {res : ℤ} {out : List UInt8}
    (hread : e.opcode = .opRead → res ≤ 0) (hle : e.opcode = .opWrite → res ≤ e.len)
    (hout : Spliced (input.map translate) (Covered .opWrite (hist ++ [(e, res)])) out) :
    Flow input (fun _ => False)
      { s with
        sq := s.sq.eraseIdx n
        cq := s.cq ++ [⟨e.data, res⟩]
        outfile := out } (hist ++ [(e, res)]) := by
  have hself : s.setRequest e.data { s.requests e.data with buf := (s.requests e.data).buf } = s := by
    simp [State.setRequest]
  have hok := h.sqes e (List.mem_of_getElem? he)
  have hnew := h.carryOut he res (s.requests e.data).buf
    (fun ht hpos => absurd hpos (Int.not_lt.mpr (hread (hok.opcode.trans ht)))) hle hout
  rwa [hself] at hnew

/-- An operation that transfers no bytes of its own kind to the output leaves the written
positions as they are. -/
theorem Spliced.perform_other {e : Sqe} {res : ℤ} {g out : List UInt8}
    (h : Spliced g (Covered .opWrite hist) out) (he : e.opcode = .opRead ∨ res < 0) :
    Spliced g (Covered .opWrite (hist ++ [(e, res)])) out := by
  refine h.congr fun j => ?_
  rw [covered_append_singleton]
  refine ⟨.inl, fun hj => hj.elim id fun hj => ?_⟩
  rcases he with he | he
  · exact absurd (he.symm.trans hj.1) (by simp)
  · omega

/-- A read brings what it returns into the buffer. -/
theorem Flow.performRead (h : Flow input (fun _ => False) s hist) {n : ℕ} {e : Sqe}
    (he : s.sq[n]? = some e) (hop : e.opcode = .opRead) {res : ℤ}
    (hfit : res.toNat ≤ (pread input e.offset e.len).length) :
    Flow input (fun _ => False)
      { s.setRequest e.data { s.requests e.data with
          buf := (s.requests e.data).buf.load (pread input e.offset res.toNat) } with
        sq := s.sq.eraseIdx n
        cq := s.cq ++ [⟨e.data, res⟩] } (hist ++ [(e, res)]) := by
  have hok := h.sqes e (List.mem_of_getElem? he)
  rw [length_pread, hok.read (hok.opcode.symm.trans hop), hok.offset] at hfit
  refine h.carryOut he res _ ?_ (fun hw => absurd (hop.symm.trans hw) (by simp))
    (Spliced.perform_other h.output (.inl hop))
  intro _ hpos
  change 0 < res at hpos
  have hlen : (pread input e.offset res.toNat).length = res.toNat := by
    rw [length_pread, hok.offset]
    omega
  refine ⟨?_, ?_, ?_, (e, res), by simp, hop, hok.offset, rfl⟩
  · show (s.requests e.data).offset + res.toNat ≤ _
    omega
  · show res.toNat ≤ bsz
    omega
  · show ((s.requests e.data).buf.load (pread input e.offset res.toNat)).bytes.take res.toNat
      = pread input (s.requests e.data).offset res.toNat
    have htake := Buf.take_load (s.requests e.data).buf
      (d := pread input e.offset res.toNat) (by omega)
    rw [hlen] at htake
    rw [htake, hok.offset]

/-- A write puts the translated bytes into the output file. -/
theorem Flow.performWrite (h : Flow input (fun _ => False) s hist) {n : ℕ} {e : Sqe}
    (he : s.sq[n]? = some e) (hop : e.opcode = .opWrite) {res : ℤ} (hle : res.toNat ≤ e.len) :
    Flow input (fun _ => False)
      { s with
        sq := s.sq.eraseIdx n
        cq := s.cq ++ [⟨e.data, res⟩]
        outfile := pwrite s.outfile e.offset ((s.requests e.data).buf.bytes.take res.toNat) }
      (hist ++ [(e, res)]) := by
  have hok := h.sqes e (List.mem_of_getElem? he)
  obtain ⟨-, hfits, hbuf, -⟩ := hok.write (hok.opcode.symm.trans hop)
  have hdata : (s.requests e.data).buf.bytes.take res.toNat
      = pread (input.map translate) e.offset res.toNat := by
    rw [← take_pread _ hle, ← hbuf, List.take_take, Nat.min_eq_left hle]
  have hout := h.output.pwrite (o := e.offset) (n := res.toNat)
    (by rw [List.length_map]; omega)
  rw [hdata]
  refine h.carryOut_keep he (fun hr => absurd (hop.symm.trans hr) (by simp)) (fun _ => by omega)
    (hout.congr fun j => ?_)
  rw [covered_append_singleton]
  simp [hop]

/-- **The kernel keeps the invariant**, whatever the operation's result. -/
theorem Flow.perform (h : Flow input (fun _ => False) s hist) {n : ℕ} {res : ℤ} {s' : State}
    (hstep : perform input s n res = some s') :
    s'.exit = s.exit ∧
      Flow input (fun _ => False) s' (hist ++ performed s (.perform n res)) := by
  rcases he : s.sq[n]? with _ | e
  · simp [UringCopy.perform, he] at hstep
  simp only [performed, he, Option.toList_some, List.map_singleton]
  unfold UringCopy.perform at hstep
  simp only [he] at hstep
  by_cases hneg : res < 0
  · rw [if_pos hneg] at hstep
    obtain rfl := Option.some.inj hstep
    exact ⟨rfl, h.carryOut_keep he (fun _ => by omega) (fun _ => by omega)
      (Spliced.perform_other h.output (.inr hneg))⟩
  rw [if_neg hneg] at hstep
  rcases hop : e.opcode with _ | _
  · simp only [hop] at hstep
    split at hstep
    · next hfit =>
      obtain rfl := Option.some.inj hstep
      exact ⟨rfl, h.performRead he hop hfit⟩
    · cases hstep
  · simp only [hop] at hstep
    split at hstep
    · next hle =>
      obtain rfl := Option.some.inj hstep
      exact ⟨rfl, h.performWrite he hop hle⟩
    · cases hstep

end Steps

/-! ### Every reachable state -/

/-- The loop body does not leave the loop by itself. -/
theorem loopBody_ne_finished {s : State} (h : s.exit = none) (c : Cqe) (rest : List Cqe) :
    (loopBody { s with cq := rest } c).exit ≠ some .finished := by
  unfold loopBody
  by_cases hneg : c.res < 0
  · simp [hneg]
  rcases ht : (s.requests c.data).type with _ | _
  · by_cases hpos : 0 < c.res <;>
      simp [hneg, ht, onRead, queueWrite, State.setRequest, hpos, h]
  · by_cases hlen : c.res = (s.requests c.data).iovecLen
    · simp only [if_neg hneg, ht, onWrite, if_neg (not_not.mpr hlen), queueRead_exit, h]
      simp
    · simp [hneg, ht, onWrite, hlen]

/-- As long as the program runs, and when it has left its loop, the invariant holds; in
the second case nothing is in flight. -/
theorem flow_reach {p : State × List Performed} (h : (shortCopier input).Reach p) :
    (p.1.exit = none → Flow input (fun _ => False) p.1 p.2) ∧
      (p.1.exit = some .finished →
        Flow input (fun _ => False) p.1 p.2 ∧ p.1.inflight = []) := by
  refine Machine.Reach.invariant (I := fun p : State × List Performed =>
    (p.1.exit = none → Flow input (fun _ => False) p.1 p.2) ∧
      (p.1.exit = some .finished → Flow input (fun _ => False) p.1 p.2 ∧ p.1.inflight = []))
    ?_ ?_ h
  · rintro ⟨s, hist⟩ ⟨rfl, rfl⟩
    exact ⟨fun _ => flow_initState input, fun he => by cases he⟩
  · rintro ⟨s, hist⟩ a ⟨s', hist'⟩ ⟨hflow, -⟩ hstep
    obtain ⟨hstep, rfl⟩ := Machine.recorded_next hstep
    obtain ⟨-, hstep⟩ := Machine.restrict_next.mp hstep
    obtain ⟨hexit, hstep⟩ := step_of_next hstep
    have hold : Flow input (fun _ => False) s hist := hflow hexit
    cases hstep with
    | perform hperf =>
        obtain ⟨hexit', hnew⟩ := hold.perform hperf
        refine ⟨fun _ => hnew, fun hfin => ?_⟩
        exact absurd (hfin.symm.trans (hexit'.trans hexit)) (by simp)
    | @complete c rest _ hcq =>
        simp only [performed, List.append_nil]
        refine ⟨fun hexit' => hold.loopBody hcq hexit', fun hfin => ?_⟩
        exact absurd hfin (loopBody_ne_finished hexit c rest)
    | waitFail => exact ⟨(fun he => by cases he), fun he => by cases he⟩
    | leave hpend =>
        simp only [performed, List.append_nil]
        refine ⟨(fun he => by cases he), fun _ => ⟨{ hold with }, ?_⟩⟩
        have hlen : s.pendingOperations = s.inflight.length := hold.pending
        have hzero : s.inflight.length = 0 := by omega
        exact List.eq_nil_of_length_eq_zero hzero

/-- With nothing in flight, nothing is left to do for any operation. -/
theorem Flow.done {s : State} {hist : List Performed}
    (h : Flow input (fun _ => False) s hist) (hnil : s.inflight = []) :
    ∀ p ∈ hist, Done hist p := by
  intro p hp
  rcases h.kept p hp with hd | ⟨e, he, -⟩ | ⟨c, hc, -⟩ | hh
  · exact hd
  · exact absurd (mem_inflight_of_sqe he) (by simp [hnil])
  · exact absurd (mem_inflight_of_cqe hc) (by simp [hnil])
  · exact hh.elim

/-- With nothing in flight, the bytes written are the bytes reads have returned. -/
theorem Flow.covered_iff {s : State} {hist : List Performed}
    (h : Flow input (fun _ => False) s hist) (hnil : s.inflight = []) (j : ℕ) :
    Covered .opWrite hist j ↔ Covered .opRead hist j := by
  constructor
  · rintro ⟨p, hp, hop, hlow, hhigh⟩
    obtain ⟨hle, q, hq, hqop, hqoff, hqlen⟩ := h.back p hp hop
    exact ⟨q, hq, hqop, by omega, by omega⟩
  · rintro ⟨p, hp, hop, hlow, hhigh⟩
    have hdone := h.done hnil p hp
    simp only [Done, hop] at hdone
    rcases hdone with hle | ⟨w, hw, hwop, hwoff, hwres⟩
    · omega
    · exact ⟨w, hw, hwop, by omega, by omega⟩

/-- Only a zero byte is translated to a zero byte. -/
theorem translate_eq_zero_iff (c : UInt8) : translate c = 0 ↔ c = 0 := by
  have hall : ∀ b : Fin 256, translate (UInt8.ofFin b) = 0 ↔ UInt8.ofFin b = 0 := by
    decide +kernel
  exact hall c.toFin

theorem getElem?_map_translate_eq_zero_iff (input : List UInt8) (j : ℕ) :
    (input.map translate)[j]? = some 0 ↔ input[j]? = some 0 := by
  rw [List.getElem?_map, Option.map_eq_some_iff]
  constructor
  · rintro ⟨c, hc, htr⟩
    rw [hc, (translate_eq_zero_iff c).mp htr]
  · intro hz
    exact ⟨0, hz, rfl⟩

/-- A run all of whose operations transfer all they can is a run of the copier on the
kernel that always does so. -/
theorem fullCopier_reach {p : State × List Performed} (h : (shortCopier input).Reach p)
    (hfull : ∀ q ∈ p.2, q.2 = fullResult input q.1) : (fullCopier input).Reach p.1 := by
  induction h with
  | start hinit => exact .start hinit.1
  | @step p a p' hreach hstep ih =>
      obtain ⟨s, hist⟩ := p
      obtain ⟨hnext, hhist⟩ := Machine.recorded_next hstep
      obtain ⟨-, hnext⟩ := Machine.restrict_next.mp hnext
      rw [hhist] at hfull
      refine (ih fun q hq => hfull q (List.mem_append_left _ hq)).step (a := a) ?_
      refine Machine.restrict_next.mpr ⟨?_, hnext⟩
      cases a with
      | perform n res =>
          rcases he : s.sq[n]? with _ | e
          · simp [FullKernel, he]
          · have := hfull (e, res) (List.mem_append_right _ (by simp [performed, he]))
            simpa [FullKernel, he] using this
      | complete => trivial
      | waitFail => trivial
      | leave => trivial

/-- **What short reads do to the copy.**  Take any run of the io_uring program in which
reads before the end of the file return at least one byte, and compare the output with
that of the plain loop on the same file.  When `main` has left its loop the two are the
same exactly when every byte that no read returned is zero and the last byte was returned.
In particular they are the same when every read returned all it could. -/
theorem same_output_iff (input : List UInt8) {ifd : FileIO.Source UInt8}
    {ofd : List FileIO.Outcome} (hdata : ifd.data = input) (hifd : ifd.Reliable)
    (hofd : .fail ∉ ofd) {s : State} {hist : List Performed}
    (h : (shortCopier input).Reach (s, hist)) (hexit : s.exit = some .finished) :
    (PlainCopy.main ifd ofd = some (.returned, s.outfile) ↔
      (∀ j, j < input.length → ¬ Covered .opRead hist j → input[j]? = some 0) ∧
        ∀ j, j + 1 = input.length → Covered .opRead hist j) ∧
      ((∀ p ∈ hist, p.1.opcode = .opRead → p.2 = fullResult input p.1) →
        PlainCopy.main ifd ofd = some (.returned, s.outfile)) := by
  obtain ⟨hflow, hnil⟩ := (flow_reach h).2 hexit
  have hplain : PlainCopy.main ifd ofd = some (.returned, s.outfile) ↔
      s.outfile = input.map translate := by
    rw [PlainCopy.main_of_reliable hifd hofd, hdata]
    simp [eq_comm]
  rw [hplain]
  constructor
  · rw [(hflow.output.congr (hflow.covered_iff hnil)).eq_iff]
    rw [List.length_map]
    have hzero : ∀ j : ℕ, (input.map translate)[j]? = some default ↔
        input[j]? = some (0 : UInt8) := getElem?_map_translate_eq_zero_iff input
    simp only [hzero]
  · intro hfull
    have hall : ∀ p ∈ hist, p.2 = fullResult input p.1 := by
      intro p hp
      rcases hop : p.1.opcode with _ | _
      · exact hfull p hp hop
      · have hdone := hflow.done hnil p hp
        simp only [Done, hop] at hdone
        simp only [fullResult, hop, hdone]
    obtain ⟨hinv, -⟩ := inv_reach (fullCopier_reach h hall)
    exact hinv.outfile_eq hnil

/-- A run on the two-byte file "AB": the read of the first block returns one byte. -/
def shortRun : List Action :=
  [.perform 0 1, .complete] ++ List.replicate 15 (.perform 0 0) ++ [.perform 0 1] ++
    List.replicate 16 .complete ++ [.leave]

theorem shortRun_reach :
    ∃ s hist, (shortCopier [65, 66]).Reach (s, hist) ∧ s.exit = some .finished ∧
      s.outfile = [78] := by
  have hrun : ((shortCopier [65, 66]).run (initState, []) shortRun).map
      (fun p => (p.1.exit, p.1.outfile)) = some (some .finished, [78]) := by decide +kernel
  obtain ⟨⟨s, hist⟩, hs, hout⟩ := Option.map_eq_some_iff.mp hrun
  obtain ⟨hexit, hfile⟩ := Prod.mk.inj hout
  have hinit : (shortCopier [65, 66]).init (initState, []) := ⟨rfl, rfl⟩
  exact ⟨s, hist, Machine.reach_of_run hinit hs, hexit, hfile⟩

/-- The plain loop, with the same short read, copies both bytes. -/
theorem plain_short : PlainCopy.main ⟨[65, 66], [.upTo 0]⟩ [] = some (.returned, [78, 79]) := by
  decide +kernel

theorem shortRun_wrong :
    ∃ s hist, (shortCopier [65, 66]).Reach (s, hist) ∧ s.exit = some .finished ∧
      PlainCopy.main ⟨[65, 66], [.upTo 0]⟩ [] ≠ some (.returned, s.outfile) := by
  obtain ⟨s, hist, hreach, hexit, hfile⟩ := shortRun_reach
  refine ⟨s, hist, hreach, hexit, ?_⟩
  rw [plain_short, hfile]
  decide

/-- The second byte was not returned by any read. -/
theorem shortRun_lost :
    ∃ s hist, (shortCopier [65, 66]).Reach (s, hist) ∧ s.exit = some .finished ∧
      ¬ ((∀ j, j < 2 → ¬ Covered .opRead hist j → [(65 : UInt8), 66][j]? = some 0) ∧
        ∀ j, j + 1 = 2 → Covered .opRead hist j) := by
  obtain ⟨s, hist, hreach, hexit, hfile⟩ := shortRun_reach
  refine ⟨s, hist, hreach, hexit, fun hcond => ?_⟩
  have hifd : FileIO.Source.Reliable ⟨[(65 : UInt8), 66], [.upTo 0]⟩ := by
    show FileIO.Outcome.fail ∉ _
    decide
  have hsame : PlainCopy.main ⟨[65, 66], [.upTo 0]⟩ [] = some (.returned, s.outfile) :=
    (same_output_iff [65, 66] rfl hifd (by decide) hreach hexit).1.mpr hcond
  rw [plain_short, hfile] at hsame
  exact absurd hsame (by decide)

end Apue.UringCopy
