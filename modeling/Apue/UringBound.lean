/-
Apue/UringBound.lean

How much work the event loop of the io_uring copier does.

The loop queues new operations from inside itself, and slots that have not seen the end
of the file yet go on reading behind it.  That it ends nevertheless, and how soon, is
counted with a load: the completions the operations in flight can still lead to, and two
for every block not handed out yet.

* a read before the end of the file stands for its own completion, that of the write of
  the block and that of the next read of the slot, which may lie behind the end;
* a write stands for its completion and that of the next read;
* a read behind the end of the file stands for its completion only.

Handing out a block moves its two units to the slot that reads it.  So every completion
`main` handles takes at least one from the load, and the kernel leaves it alone.
-/
import Mathlib.Algebra.GroupWithZero.Nat
import Mathlib.Data.Fintype.Card
import Apue.UringShortReads

namespace Apue.UringCopy

variable {input : List UInt8}

/-! ### The kernel and the completions handled -/

/-- A kernel that reports no error: a read returns all there is, up to a block, and a
write may write any number of the bytes it was given. -/
def NoErrors (input : List UInt8) (s : State) : Action → Prop
  | .perform i res => (s.sq[i]?).all fun e =>
      0 ≤ res ∧ (e.opcode = .opRead → res = fullResult input e)
  | _ => True

instance (input : List UInt8) (s : State) (a : Action) : Decidable (NoErrors input s a) :=
  match a with
  | .perform _ _ => inferInstanceAs (Decidable (_ = true))
  | .complete | .waitFail | .leave => .isTrue trivial

/-- The completion handled at a step. -/
def handled (s : State) : Action → List Cqe
  | .complete => s.cq.take 1
  | .perform _ _ | .waitFail | .leave => []

/-- The copier on top of such a kernel, with the completions its loop has handled. -/
def countedCopier (input : List UInt8) : Machine (State × List Cqe) Action :=
  ((copier input).restrict (NoErrors input)).recorded handled

theorem NoErrors.shortReads {s : State} {a : Action} (h : NoErrors input s a) :
    ShortReads input s a := by
  cases a with
  | perform n res =>
      rcases he : s.sq[n]? with _ | e
      · simp [ShortReads, he]
      simp only [NoErrors, ShortReads, he, Option.all_some, decide_eq_true_eq] at h ⊢
      rcases hop : e.opcode with _ | _
      · have hres := h.2 hop
        simp only [fullResult, hop] at hres
        have := bsz_pos
        omega
      · exact .inl rfl
  | complete => trivial
  | waitFail => trivial
  | leave => trivial

/-- While the loop runs, the invariant of the copier with short reads holds. -/
theorem flow_of_reach {s : State} {l : List Cqe} (h : (countedCopier input).Reach (s, l))
    (hexit : s.exit = none) : ∃ hist, Flow input (fun _ => False) s hist := by
  have hshort : ((copier input).restrict (ShortReads input)).Reach s :=
    h.of_recorded.restrict_mono fun _ _ => NoErrors.shortReads
  obtain ⟨hist, hreach⟩ := hshort.exists_recorded performed
  exact ⟨hist, (flow_reach hreach).1 hexit⟩

/-! ### The load -/

/-- The completions an operation in flight can lead to, but for the block a later read of
its slot takes up. -/
def Request.weight (size : ℕ) (r : Request) : ℕ :=
  match r.type with
  | .opRead => if r.offset < size then 3 else 1
  | .opWrite => 2

/-- The blocks of a file from `offset` on. -/
def blocksFrom (size offset : ℕ) : ℕ := (size - offset + bsz - 1) / bsz

/-- The load of a state. -/
def State.load (size : ℕ) (s : State) : ℕ :=
  (s.inflight.map fun k => (s.requests k).weight size).sum
    + 2 * blocksFrom size s.globalReadOffset

theorem Request.weight_pos (size : ℕ) (r : Request) : 1 ≤ r.weight size := by
  unfold Request.weight
  split
  · split <;> omega
  · omega

theorem blocksFrom_of_lt {size offset : ℕ} (h : offset < size) :
    blocksFrom size offset = blocksFrom size (offset + bsz) + 1 := by
  unfold blocksFrom bsz
  omega

theorem blocksFrom_of_le {size offset : ℕ} (h : size ≤ offset) : blocksFrom size offset = 0 := by
  unfold blocksFrom bsz
  omega

section Steps

variable {s : State} {i : Fin queueDepth}

/-- A slot that is not in flight may change. -/
theorem load_setRequest (size : ℕ) (hi : i ∉ s.inflight) (r : Request) :
    (s.setRequest i r).load size = s.load size := by
  have hother := requests_of_not_mem s hi r
  have hmap : (s.inflight.map fun k => ((s.setRequest i r).requests k).weight size)
      = s.inflight.map fun k => (s.requests k).weight size :=
    List.map_congr_left fun k hk => congrArg (Request.weight size) (hother k hk)
  exact congrArg (fun l => l.sum + 2 * blocksFrom size s.globalReadOffset) hmap

/-- A submitted request adds its weight. -/
theorem load_submit (size : ℕ) (s : State) (e : Sqe) (p : ℤ) :
    { s with sq := s.sq ++ [e], pendingOperations := p }.load size
      = (s.requests e.data).weight size + s.load size := by
  have hsum := ((inflight_submit s e).map fun k => (s.requests k).weight size).sum_nat
  rw [List.map_cons, List.sum_cons] at hsum
  unfold State.load
  rw [← Nat.add_assoc, ← hsum]
  rfl

/-- A completion taken from the ring takes the weight of its slot away. -/
theorem load_popped (size : ℕ) {c : Cqe} {rest : List Cqe} (hcq : s.cq = c :: rest) :
    s.load size = (s.requests c.data).weight size + (popped s rest).load size := by
  have hsum := ((inflight_popped hcq).map fun k => (s.requests k).weight size).sum_nat
  rw [List.map_cons, List.sum_cons] at hsum
  unfold State.load
  rw [hsum, Nat.add_assoc]
  rfl

/-- `queue_read` adds at most one: what the new read weighs more was set aside for its
block. -/
theorem load_queueRead_le (size : ℕ) (hi : i ∉ s.inflight) :
    (queueRead s i).load size ≤ s.load size + 1 := by
  unfold queueRead
  by_cases heof : s.eofReached = true
  · rw [if_pos heof]
    omega
  rw [if_neg heof]
  let r : Request := { s.requests i with type := .opRead, offset := s.globalReadOffset }
  let t : State := { s.setRequest i r with globalReadOffset := s.globalReadOffset + bsz }
  have hsub := load_submit size t ⟨.opRead, i, bsz, s.globalReadOffset⟩ (s.pendingOperations + 1)
  have hreq : t.requests i = r := Function.update_self ..
  rw [hreq] at hsub
  have hset := load_setRequest size hi r
  have ht : t.load size + 2 * blocksFrom size s.globalReadOffset
      = s.load size + 2 * blocksFrom size (s.globalReadOffset + bsz) := by
    rw [← hset]
    show (_ + 2 * blocksFrom size (s.globalReadOffset + bsz)) + _
      = (_ + 2 * blocksFrom size s.globalReadOffset) + _
    exact Nat.add_right_comm _ _ _
  refine (Nat.le_of_eq hsub).trans ?_
  by_cases hlt : s.globalReadOffset < size
  · have hblock := blocksFrom_of_lt hlt
    have hw : r.weight size = 3 := if_pos hlt
    omega
  · have hblock := blocksFrom_of_le (Nat.not_lt.mp hlt)
    have hblock' : blocksFrom size (s.globalReadOffset + bsz) = 0 :=
      blocksFrom_of_le (Nat.le_add_right_of_le (Nat.not_lt.mp hlt))
    have hw : r.weight size = 1 := if_neg hlt
    omega

/-- The `OP_READ` branch: a block that was read goes on as a write. -/
theorem load_onRead_le (size : ℕ) (hi : i ∉ s.inflight) (res : ℤ) :
    (onRead s i res).load size ≤ s.load size + if 0 < res then 2 else 0 := by
  unfold onRead
  by_cases hpos : 0 < res
  · rw [if_pos hpos, if_pos hpos]
    let r : Request := { s.requests i with
      type := .opWrite
      iovecLen := res
      buf := (s.requests i).buf.mapPrefix res.toNat translate }
    let t : State := { s.setRequest i r with eofReached := if res < bsz then true else s.eofReached }
    have hsub := load_submit size t ⟨.opWrite, i, res.toNat, r.offset⟩ (s.pendingOperations + 1)
    have hreq : t.requests i = r := Function.update_self ..
    have hw : r.weight size = 2 := rfl
    have hset : t.load size = s.load size := load_setRequest size hi r
    simp only [queueWrite, State.setRequest, Function.update_self, Function.update_idem]
    rw [hreq, hw, hset, Nat.add_comm] at hsub
    exact Nat.le_of_eq hsub
  · rw [if_neg hpos]
    exact Nat.le_add_right _ _

/-- The `OP_WRITE` branch. -/
theorem load_onWrite_le (size : ℕ) (hi : i ∉ s.inflight) (res : ℤ) :
    (onWrite s i res).load size ≤ s.load size + 1 := by
  unfold onWrite
  by_cases hlen : res = (s.requests i).iovecLen
  · rw [if_neg (not_not.mpr hlen)]
    exact load_queueRead_le size hi
  · rw [if_pos hlen]
    exact Nat.le_succ _

/-- **One pass through the loop body takes at least one from the load.** -/
theorem Flow.load_loopBody {hist : List Performed} (h : Flow input (fun _ => False) s hist)
    {c : Cqe} {rest : List Cqe} (hcq : s.cq = c :: rest) :
    (UringCopy.loopBody { s with cq := rest } c).load input.length + 1 ≤ s.load input.length := by
  obtain ⟨hout, -⟩ := h.pop hcq
  rw [load_popped input.length hcq]
  have hpos := (s.requests c.data).weight_pos input.length
  by_cases hneg : c.res < 0
  · -- `err_exit` leaves the ring as it is
    have hexit : UringCopy.loopBody { s with cq := rest } c
        = { popped s rest with exit := some (.asyncFailed c.res) } := if_pos hneg
    rw [hexit]
    show (popped s rest).load input.length + 1 ≤ _
    omega
  rcases ht : (s.requests c.data).type with _ | _
  · rw [loopBody_of_read rest hneg ht]
    have hle := load_onRead_le input.length hout c.res
    by_cases hres : 0 < c.res
    · -- what a read returns lies before the end of the file
      have hlt : (s.requests c.data).offset < input.length := by
        have := (h.cqes c (by simp [hcq]) ht hres).1
        omega
      have hw : (s.requests c.data).weight input.length = 3 := by
        simp only [Request.weight, ht, if_pos hlt]
      rw [if_pos hres] at hle
      omega
    · rw [if_neg hres] at hle
      omega
  · rw [loopBody_of_write rest hneg ht]
    have hle := load_onWrite_le input.length hout c.res
    have hw : (s.requests c.data).weight input.length = 2 := by
      simp only [Request.weight, ht]
    omega

/-- What a step of the kernel changes: the request moves to the completions, and the
slot's buffer and the output file may be written. -/
theorem perform_eq_some {n : ℕ} {res : ℤ} {s' : State}
    (hstep : perform input s n res = some s') :
    ∃ e, s.sq[n]? = some e ∧ ∃ buf out,
      s' = { s.setRequest e.data { s.requests e.data with buf := buf } with
        sq := s.sq.eraseIdx n
        cq := s.cq ++ [⟨e.data, res⟩]
        outfile := out } := by
  rcases he : s.sq[n]? with _ | e
  · simp [perform, he] at hstep
  have hself : s.setRequest e.data { s.requests e.data with buf := (s.requests e.data).buf } = s := by
    simp [State.setRequest]
  refine ⟨e, rfl, ?_⟩
  unfold perform at hstep
  simp only [he] at hstep
  split at hstep
  · refine ⟨(s.requests e.data).buf, s.outfile, ?_⟩
    rw [hself]
    exact (Option.some.inj hstep).symm
  rcases hop : e.opcode with _ | _
  · simp only [hop] at hstep
    split at hstep
    · exact ⟨_, _, (Option.some.inj hstep).symm⟩
    · cases hstep
  · simp only [hop] at hstep
    split at hstep
    · obtain rfl := Option.some.inj hstep
      refine ⟨(s.requests e.data).buf,
        ByteFile.pwrite s.outfile e.offset ((s.requests e.data).buf.bytes.take res.toNat), ?_⟩
      rw [hself]
    · cases hstep

/-- The kernel leaves the load alone. -/
theorem load_perform (size : ℕ) {n : ℕ} {res : ℤ} {s' : State}
    (hstep : perform input s n res = some s') : s'.load size = s.load size := by
  obtain ⟨e, he, buf, out, rfl⟩ := perform_eq_some hstep
  let r : Request := { s.requests e.data with buf := buf }
  have hw : ∀ k, (Function.update s.requests e.data r k).weight size
      = (s.requests k).weight size := by
    intro k
    by_cases hk : k = e.data
    · subst hk
      rw [Function.update_self]
      rfl
    · rw [Function.update_of_ne hk]
  have hsum := ((inflight_perform he res).map fun k => (s.requests k).weight size).sum_nat
  unfold State.load
  rw [hsum]
  show (List.map (fun k => (Function.update s.requests e.data r k).weight size) _).sum + _ = _
  rw [funext hw]
  rfl

end Steps

/-- The load before the loop. -/
theorem load_initState_le (size : ℕ) :
    initState.load size ≤ queueDepth + 2 * ((size + bsz - 1) / bsz) := by
  -- each slot still to come adds at most one
  have hload : initState.load size + ([] : List (Fin queueDepth)).length
      ≤ queueDepth + 2 * ((size + bsz - 1) / bsz) := by
    refine initState_induction (P := fun l s =>
      s.load size + l.length ≤ queueDepth + 2 * ((size + bsz - 1) / bsz)) ?_ ?_
    · simp [State.load, State.inflight, blank, blocksFrom, Nat.add_comm]
    · intro i l s hi h
      have hone := load_queueRead_le size hi
      rw [List.length_cons] at h
      omega
  rwa [List.length_nil, Nat.add_zero] at hload

/-! ### Every reachable state -/

/-- What a run from here can still cost: two steps for each unit of the load, the kernel's
and the loop's, one for each request the kernel has yet to perform, and the last one. -/
def State.effort (size : ℕ) (s : State) : ℕ :=
  2 * s.load size + s.sq.length + if s.exit = none then 1 else 0

theorem length_sq_queueRead_le (s : State) (i : Fin queueDepth) :
    (queueRead s i).sq.length ≤ s.sq.length + 1 := by
  unfold queueRead
  split
  · exact Nat.le_succ _
  · exact Nat.le_of_eq List.length_append

/-- A pass through the loop body submits at most one request. -/
theorem length_sq_loopBody_le (s : State) (c : Cqe) :
    (loopBody s c).sq.length ≤ s.sq.length + 1 := by
  unfold loopBody
  by_cases hneg : c.res < 0
  · simp only [if_pos hneg, Nat.le_add_right]
  simp only [if_neg hneg]
  split
  · unfold onRead
    split
    · exact Nat.le_of_eq List.length_append
    · exact Nat.le_succ _
  · unfold onWrite
    simp only
    split
    · exact Nat.le_succ _
    · exact length_sq_queueRead_le _ _

/-- Leaving the loop costs the last step. -/
theorem effort_exit_lt (size : ℕ) {s : State} (hexit : s.exit = none) (e : Exit) :
    { s with exit := some e }.effort size < s.effort size := by
  unfold State.effort
  rw [if_pos hexit]
  exact Nat.lt_succ_self _

/-- **One step.**  A completion that is handled is paid for by the load, and every step
costs effort. -/
theorem load_effort_next {s s' : State} {hist : List Cqe} {a : Action}
    (hreach : (countedCopier input).Reach (s, hist)) (hs : next input s a = some s') :
    (handled s a).length + s'.load input.length ≤ s.load input.length ∧
      s'.effort input.length < s.effort input.length := by
  obtain ⟨hexit, hstep⟩ := step_of_next hs
  cases hstep with
  | @perform n res _ hperf =>
      have hload := load_perform input.length hperf
      have hmoved : s'.sq.length + 1 = s.sq.length ∧ s'.exit = s.exit := by
        obtain ⟨e, he, buf, out, rfl⟩ := perform_eq_some hperf
        have hn : n < s.sq.length := (List.getElem?_eq_some_iff.mp he).1
        exact ⟨List.length_eraseIdx_add_one hn, rfl⟩
      refine ⟨Nat.le_of_eq ((Nat.zero_add _).trans hload), ?_⟩
      unfold State.effort
      rw [hload, hmoved.2]
      omega
  | @complete c rest _ hcq =>
      obtain ⟨performed, hflow⟩ := flow_of_reach hreach hexit
      have hload := hflow.load_loopBody hcq
      have hsq := length_sq_loopBody_le { s with cq := rest } c
      refine ⟨by simpa [handled, hcq, Nat.add_comm] using hload, ?_⟩
      unfold State.effort
      rw [if_pos hexit]
      simp only at hsq
      split <;> omega
  | waitFail => exact ⟨Nat.le_of_eq (Nat.zero_add _), effort_exit_lt _ hexit _⟩
  | leave => exact ⟨Nat.le_of_eq (Nat.zero_add _), effort_exit_lt _ hexit _⟩

/-- A step of the counted copier is one of the copier. -/
theorem countedCopier_next {p p' : State × List Cqe} {a : Action}
    (hs : (countedCopier input).next p a = some p') :
    next input p.1 a = some p'.1 ∧ p'.2 = p.2 ++ handled p.1 a := by
  obtain ⟨hnext, hhist⟩ := Machine.recorded_next hs
  exact ⟨(Machine.restrict_next.mp hnext).2, hhist⟩

/-- What has been handled and what the load still stands for stay within the load at the
start. -/
theorem handled_add_load_le {p : State × List Cqe} (h : (countedCopier input).Reach p) :
    p.2.length + p.1.load input.length
      ≤ queueDepth + 2 * ((input.length + bsz - 1) / bsz) := by
  induction h with
  | @start p h₀ =>
      obtain ⟨s, hist⟩ := p
      obtain ⟨rfl, rfl⟩ : s = initState ∧ hist = [] := h₀
      simpa using load_initState_le input.length
  | @step p a p' hreach hs ih =>
      obtain ⟨hnext, hhist⟩ := countedCopier_next hs
      have hload := (load_effort_next hreach hnext).1
      rw [hhist, List.length_append]
      omega

/-- A run makes no more steps than the effort of the state it starts from. -/
theorem length_run_le_effort {p p' : State × List Cqe} {as : List Action}
    (h : (countedCopier input).Reach p) (hrun : (countedCopier input).run p as = some p') :
    as.length ≤ p.1.effort input.length :=
  Machine.Reach.length_run_le (fun p : State × List Cqe => p.1.effort input.length)
    (fun _ _ _ hreach hs => (load_effort_next hreach (countedCopier_next hs).1).2) h hrun

/-- A submitted request can be performed in full. -/
theorem perform_fullResult_isSome {s : State} {n : ℕ} {e : Sqe} (he : s.sq[n]? = some e)
    (hlen : e.opcode = .opRead → e.len = bsz) :
    (perform input s n (fullResult input e)).isSome := by
  have hnn : ¬ fullResult input e < 0 := by
    unfold fullResult
    split <;> exact Int.not_lt.mpr (Int.natCast_nonneg _)
  unfold perform
  simp only [he, if_neg hnn]
  rcases hop : e.opcode with _ | _
  · have hfit : (fullResult input e).toNat ≤ (ByteFile.pread input e.offset e.len).length := by
      simp only [fullResult, hop]
      rw [ByteFile.length_pread, hlen hop, Int.toNat_natCast]
    simp only [if_pos hfit, Option.isSome_some]
  · have hfit : (fullResult input e).toNat ≤ e.len := by
      simp only [fullResult, hop]
      exact Nat.le_of_eq (Int.toNat_natCast _)
    simp only [if_pos hfit, Option.isSome_some]

/-- The loop never waits for nothing: as long as it runs, there is a completion to
handle, or the kernel has something to perform, or the loop condition fails. -/
theorem Flow.exists_next {s : State} {hist : List Performed}
    (h : Flow input (fun _ => False) s hist) (hexit : s.exit = none) :
    ∃ a, a ≠ .waitFail ∧ NoErrors input s a ∧ (next input s a).isSome := by
  by_cases hpend : 0 < s.pendingOperations
  · rcases hcq : s.cq with _ | ⟨c, rest⟩
    · rcases hsq : s.sq with _ | ⟨e, rest⟩
      · have hzero := h.pending
        simp only [State.inflight, hsq, hcq, List.map_nil, List.append_nil, List.length_nil] at hzero
        omega
      -- the kernel performs the oldest request
      have he : s.sq[0]? = some e := by rw [hsq, List.getElem?_cons_zero]
      have hok := h.sqes e (List.mem_of_getElem? he)
      refine ⟨.perform 0 (fullResult input e), by simp, ?_, ?_⟩
      · simp only [NoErrors, he, Option.all_some, decide_eq_true_eq]
        refine ⟨?_, fun _ => trivial⟩
        unfold fullResult
        split <;> exact Int.natCast_nonneg _
      · simp only [next, if_pos hexit]
        exact perform_fullResult_isSome he fun hop => hok.read (hok.opcode.symm.trans hop)
    · refine ⟨.complete, by simp, trivial, ?_⟩
      simp only [next, if_pos (And.intro hexit hpend), hcq, Option.isSome_some]
  · refine ⟨.leave, by simp, trivial, ?_⟩
    simp only [next, if_pos (And.intro hexit hpend), Option.isSome_some]

/-- **The bookkeeping of the loop and its bound.**  On a kernel that reports no error, for
every input file and every order of completions: while the loop runs,
`pending_operations` is the number of operations in flight, no slot has two of them, and
there are at most `QUEUE_DEPTH`.  The loop handles at most `QUEUE_DEPTH` completions and
two for every block of the file.  It does end: until then it can go on, and no run goes on
for more steps, of the loop and the kernel together, than the last bound says. -/
theorem loop_bookkeeping (input : List UInt8) {s : State} {hist : List Cqe}
    (h : (countedCopier input).Reach (s, hist)) :
    (s.exit = none → s.pendingOperations = s.inflight.length ∧ s.inflight.Nodup ∧
      s.inflight.length ≤ queueDepth ∧
      (∃ a, a ≠ .waitFail ∧ ((countedCopier input).next (s, hist) a).isSome) ∧
      ∀ as p, (countedCopier input).run (s, hist) as = some p →
        as.length ≤ 2 * (queueDepth + 2 * ((input.length + bsz - 1) / bsz)) + queueDepth + 1) ∧
    hist.length ≤ queueDepth + 2 * ((input.length + bsz - 1) / bsz) := by
  have hload := handled_add_load_le h
  simp only at hload
  refine ⟨fun hexit => ?_, by omega⟩
  obtain ⟨performed, hflow⟩ := flow_of_reach h hexit
  have hdepth : s.inflight.length ≤ queueDepth := by
    simpa using List.Nodup.length_le_card hflow.nodup
  refine ⟨hflow.pending, hflow.nodup, hdepth, ?_, fun as p hrun => ?_⟩
  · obtain ⟨a, ha, hok, hnext⟩ := hflow.exists_next hexit
    refine ⟨a, ha, ?_⟩
    simp only [countedCopier, Machine.recorded, Machine.restrict, if_pos hok, Option.isSome_map]
    exact hnext
  · have hsteps := length_run_le_effort h hrun
    have hsq : s.sq.length ≤ s.inflight.length := by simp [State.inflight]
    simp only [State.effort, if_pos hexit] at hsteps
    omega

/-- The run on the one-byte file, before the last completion: the write is in flight. -/
theorem oneByteRun_bookkeeping :
    ∃ s hist, (countedCopier [65]).Reach (s, hist) ∧ s.exit = none ∧ hist.length = 16 ∧
      s.pendingOperations = s.inflight.length ∧ s.inflight.Nodup ∧
      s.inflight.length ≤ queueDepth ∧
      hist.length ≤ queueDepth + 2 * ((([65] : List UInt8).length + bsz - 1) / bsz) := by
  have hrun : ((countedCopier [65]).run (initState, []) (oneByteRun.take 33)).map
      (fun p => (p.1.exit, p.2.length)) = some (none, 16) := by decide +kernel
  obtain ⟨⟨s, hist⟩, hs, hobs⟩ := Option.map_eq_some_iff.mp hrun
  obtain ⟨hexit, hlen⟩ := Prod.mk.inj hobs
  have hinit : (countedCopier [65]).init (initState, []) := ⟨rfl, rfl⟩
  have hreach := Machine.reach_of_run hinit hs
  obtain ⟨hloop, hbound⟩ := loop_bookkeeping [65] hreach
  obtain ⟨hpending, hnodup, hdepth, -, -⟩ := hloop hexit
  exact ⟨s, hist, hreach, hexit, hlen, hpending, hnodup, hdepth, hbound⟩

end Apue.UringCopy
