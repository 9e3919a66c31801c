/-
Apue/UringCopyInv.lean

The io_uring copier is correct for every order of completions.

The invariant (`Inv`) follows each block of the input through the program.  A
slot is *in flight* while a request for it is in `sq` or its completion in
`cq`.  For every block that has been handed out (offset below
`global_read_offset`), either a slot in flight carries it, or its translation
is already in the output file (`covered`).  The end of the loop is where the
flag matters: as long as `eof_reached` is false every slot is in flight
(`busy`), so an empty ring means the flag is set, and the flag is set only when
all blocks of the input have been handed out (`eof`).

No order of the blocks is assumed: a late block may see the end of file first,
and an early one may still be unread then.
-/
import Mathlib.Data.List.Perm.Basic
import Apue.UringCopy

namespace Apue.UringCopy

open ByteFile

variable {input : List UInt8}

/-! ### Blocks -/

/-- The block of the input at offset `o`. -/
def block (input : List UInt8) (o : ℕ) : List UInt8 := pread input o bsz

theorem length_block (input : List UInt8) (o : ℕ) :
    (block input o).length = min bsz (input.length - o) :=
  length_pread input o bsz

theorem length_block_le (input : List UInt8) (o : ℕ) : (block input o).length ≤ bsz := by
  rw [length_block]
  exact Nat.min_le_left _ _

/-- The bytes of `out` in the block at `o` are the translated input. -/
def Written (input out : List UInt8) (o : ℕ) : Prop :=
  ∀ j, o ≤ j → j < o + bsz → j < input.length → out[j]? = (input[j]?).map translate

/-- Past the end of the input there is nothing to write. -/
theorem Written.of_length_le {out : List UInt8} {o : ℕ} (h : input.length ≤ o) :
    Written input out o := by
  intro j hj _ hlt
  omega

/-- Writing the translated block at `p` keeps what is written elsewhere. -/
theorem Written.pwrite {out : List UInt8} {o : ℕ} (p : ℕ) (h : Written input out o) :
    Written input (pwrite out p ((block input p).map translate)) o := by
  intro j h₁ h₂ h₃
  have hj := h j h₁ h₂ h₃
  have hlt : j < out.length := by
    by_contra hge
    rw [List.getElem?_eq_none (by omega), List.getElem?_eq_getElem h₃] at hj
    simp at hj
  by_cases hmid : p ≤ j ∧ j < p + ((block input p).map translate).length
  · -- `j` lies in the block being written, whose bytes are right
    have hk : j - p < bsz := by
      have := length_block_le input p
      simp only [List.length_map] at hmid
      omega
    rw [getElem?_pwrite_mid _ _ hmid.1 hmid.2, List.getElem?_map, block,
      getElem?_pread, if_pos hk, Nat.add_sub_cancel' hmid.1]
  · rw [getElem?_pwrite_of_not_mid _ _ (by omega) hlt]
    exact hj

/-- After the translated block at `p` is written, it is written. -/
theorem Written.of_pwrite (out : List UInt8) (p : ℕ) :
    Written input (ByteFile.pwrite out p ((block input p).map translate)) p := by
  intro j h₁ h₂ h₃
  have hlt : j < p + ((block input p).map translate).length := by
    rw [List.length_map, length_block]
    omega
  rw [getElem?_pwrite_mid _ _ h₁ hlt, List.getElem?_map, block, getElem?_pread,
    if_pos (by omega), Nat.add_sub_cancel' h₁]

/-- Writing a translated block does not make the output longer than the input. -/
theorem length_pwrite_block {out : List UInt8} (p : ℕ) (h : out.length ≤ input.length) :
    (ByteFile.pwrite out p ((block input p).map translate)).length ≤ input.length := by
  by_cases hd : (block input p).map translate = []
  · rw [hd]
    exact h
  · have hpos := List.length_pos_of_ne_nil hd
    rw [length_pwrite _ _ hd]
    simp only [List.length_map, length_block] at hpos ⊢
    omega

/-! ### Slots in flight -/

/-- The slots with a request submitted or a completion not yet consumed. -/
def State.inflight (s : State) : List (Fin queueDepth) :=
  s.sq.map Sqe.data ++ s.cq.map Cqe.data

/-- `main` takes a completion from the ring. -/
def popped (s : State) (rest : List Cqe) : State :=
  { s with cq := rest, pendingOperations := s.pendingOperations - 1 }

section InFlight

variable {s : State}

theorem mem_inflight_of_sqe {e : Sqe} (h : e ∈ s.sq) : e.data ∈ s.inflight :=
  List.mem_append_left _ (List.mem_map_of_mem h)

theorem mem_inflight_of_cqe {c : Cqe} (h : c ∈ s.cq) : c.data ∈ s.inflight :=
  List.mem_append_right _ (List.mem_map_of_mem h)

/-- A request handed to the ring puts its slot in flight. -/
theorem inflight_submit (s : State) (e : Sqe) :
    ((s.sq ++ [e]).map Sqe.data ++ s.cq.map Cqe.data).Perm (e.data :: s.inflight) := by
  rw [List.map_append, List.map_singleton, List.append_assoc]
  exact List.perm_middle

/-- A completion taken from the ring puts its slot out of flight. -/
theorem inflight_popped {c : Cqe} {rest : List Cqe} (hcq : s.cq = c :: rest) :
    s.inflight.Perm (c.data :: (popped s rest).inflight) := by
  rw [State.inflight, hcq]
  exact List.perm_middle

theorem sq_perm_eraseIdx {n : ℕ} {e : Sqe} (he : s.sq[n]? = some e) :
    s.sq.Perm (e :: s.sq.eraseIdx n) := by
  obtain ⟨hn, hget⟩ := List.getElem?_eq_some_iff.mp he
  rw [← hget]
  exact (List.getElem_cons_eraseIdx_perm hn).symm

/-- When the kernel performs a request, its slot moves from `sq` to `cq`. -/
theorem inflight_perform {n : ℕ} {e : Sqe} (he : s.sq[n]? = some e) (res : ℤ) :
    s.inflight.Perm
      ((s.sq.eraseIdx n).map Sqe.data ++ (s.cq ++ [Cqe.mk e.data res]).map Cqe.data) := by
  refine (((sq_perm_eraseIdx he).map Sqe.data).append_right (s.cq.map Cqe.data)).trans ?_
  rw [List.map_cons, List.map_append, List.map_singleton, ← List.append_assoc]
  exact (List.perm_append_singleton _ _).symm

/-- No other request or completion is for the slot of the request performed. -/
theorem not_mem_inflight_perform (h : s.inflight.Nodup) {n : ℕ} {e : Sqe}
    (he : s.sq[n]? = some e) :
    e.data ∉ (s.sq.eraseIdx n).map Sqe.data ++ s.cq.map Cqe.data := by
  have hperm := ((sq_perm_eraseIdx he).map Sqe.data).append_right (s.cq.map Cqe.data)
  exact (List.nodup_cons.mp (hperm.nodup_iff.mp h)).1

/-- A request written to one slot leaves the other slots alone. -/
theorem requests_of_not_mem (s : State) {l : List (Fin queueDepth)} {i : Fin queueDepth}
    (hi : i ∉ l) (r : Request) : ∀ k ∈ l, Function.update s.requests i r k = s.requests k := by
  intro k hk
  rw [Function.update_of_ne]
  rintro rfl
  exact hi hk

end InFlight

/-! ### The invariant -/

/-- A submitted request agrees with its slot; a write carries the translated
block. -/
structure SqeOk (input : List UInt8) (r : Request) (e : Sqe) : Prop where
  opcode : e.opcode = r.type
  offset : e.offset = r.offset
  read : r.type = .opRead → e.len = bsz
  write : r.type = .opWrite → e.len = (block input r.offset).length ∧
    r.iovecLen = e.len ∧ r.buf.bytes.take e.len = (block input r.offset).map translate

/-- A completion tells the truth: after a read the slot holds the block, after
a write the block is in the output. -/
structure CqeOk (input out : List UInt8) (r : Request) (c : Cqe) : Prop where
  read : r.type = .opRead → c.res = (block input r.offset).length ∧
    r.buf.bytes.take (block input r.offset).length = block input r.offset
  write : r.type = .opWrite → c.res = r.iovecLen ∧ 0 ≤ c.res ∧ Written input out r.offset

/-- The invariant, at any point of the loop body.  `idle` are the slots that may
be out of flight although the end of file has not been seen, `loose` the slots
whose block is in the hands of `main`. -/
structure Core (input : List UInt8) (idle loose : Fin queueDepth → Prop) (s : State) :
    Prop where
  nodup : s.inflight.Nodup
  pending : s.pendingOperations = s.inflight.length
  aligned : bsz ∣ s.globalReadOffset
  busy : s.eofReached = false → ∀ i, ¬ idle i → i ∈ s.inflight
  eof : s.eofReached = true → input.length ≤ s.globalReadOffset
  slot : ∀ i, i ∈ s.inflight ∨ loose i →
    (s.requests i).offset + bsz ≤ s.globalReadOffset
  sqes : ∀ e ∈ s.sq, SqeOk input (s.requests e.data) e
  cqes : ∀ c ∈ s.cq, CqeOk input s.outfile (s.requests c.data) c
  covered : ∀ o, bsz ∣ o → o < s.globalReadOffset →
    Written input s.outfile o ∨
      ∃ i, (i ∈ s.inflight ∨ loose i) ∧ (s.requests i).offset = o
  short : s.outfile.length ≤ input.length

/-- The invariant between two passes through the loop. -/
def Inv (input : List UInt8) (s : State) : Prop :=
  Core input (fun _ => False) (fun _ => False) s

/-! ### The program's own steps -/

section Steps

variable {idle loose : Fin queueDepth → Prop} {s : State} {i : Fin queueDepth}

theorem core_blank (input : List UInt8) :
    Core input (fun _ => True) (fun _ => False) blank where
  nodup := List.nodup_nil
  pending := rfl
  aligned := Nat.dvd_zero _
  busy := fun _ _ h => absurd trivial h
  eof := fun h => by cases h
  slot := fun i h => by simp [State.inflight, blank] at h
  sqes := fun e h => by cases h
  cqes := fun c h => by cases h
  covered := fun o _ h => by cases h
  short := Nat.zero_le _

/-- A loose block that is written needs no slot any more. -/
theorem Core.settle (h : Core input idle loose s)
    (hw : ∀ i, loose i → Written input s.outfile (s.requests i).offset) :
    Core input idle (fun _ => False) s :=
  { h with
    slot := fun i hi => h.slot i (hi.imp_right False.elim)
    covered := by
      intro o hdvd hlt
      rcases h.covered o hdvd hlt with hW | ⟨i, hi | hi, ho⟩
      · exact .inl hW
      · exact .inr ⟨i, .inl hi, ho⟩
      · subst ho
        exact .inl (hw i hi) }

/-- The flag may be set once every block of the input has been handed out. -/
theorem Core.setEof (h : Core input idle loose s)
    (hlen : input.length ≤ s.globalReadOffset) :
    Core input idle loose { s with eofReached := true } :=
  { h with
    busy := fun he => by cases he
    eof := fun _ => hlen }

/-- A slot that is not in flight may change everything but its offset. -/
theorem Core.setRequest (h : Core input idle loose s) (hi : i ∉ s.inflight)
    {r : Request} (hr : r.offset = (s.requests i).offset) :
    Core input idle loose (s.setRequest i r) := by
  have hoff : ∀ k, (Function.update s.requests i r k).offset = (s.requests k).offset := by
    intro k
    by_cases hk : k = i
    · subst hk; simpa using hr
    · simp [hk]
  have hother := requests_of_not_mem s hi r
  exact
    { h with
      slot := fun k hk => by
        show (Function.update s.requests i r k).offset + bsz ≤ _
        rw [hoff k]
        exact h.slot k hk
      sqes := fun e he => by
        show SqeOk input (Function.update s.requests i r e.data) e
        rw [hother _ (mem_inflight_of_sqe he)]
        exact h.sqes e he
      cqes := fun c hc => by
        show CqeOk input _ (Function.update s.requests i r c.data) c
        rw [hother _ (mem_inflight_of_cqe hc)]
        exact h.cqes c hc
      covered := fun o hdvd hlt => by
        rcases h.covered o hdvd hlt with hW | ⟨k, hk, ho⟩
        · exact .inl hW
        · exact .inr ⟨k, hk, (hoff k).trans ho⟩ }

/-- The effect of handing a request for slot `i` to the ring. -/
theorem Core.submit (h : Core input idle loose s) (hi : i ∉ s.inflight)
    {e : Sqe} (he : e.data = i) (hok : SqeOk input (s.requests i) e)
    (hslot : (s.requests i).offset + bsz ≤ s.globalReadOffset)
    (hloose : ∀ k, loose k → k = i) :
    Core input (fun k => idle k ∧ k ≠ i) (fun _ => False)
      { s with
        sq := s.sq ++ [e]
        pendingOperations := s.pendingOperations + 1 } := by
  have hperm := he ▸ inflight_submit s e
  have hmem : ∀ k, k ∈ (s.sq ++ [e]).map Sqe.data ++ s.cq.map Cqe.data ↔
      k = i ∨ k ∈ s.inflight := fun k => by rw [hperm.mem_iff, List.mem_cons]
  refine
    { nodup := hperm.nodup_iff.mpr (List.nodup_cons.mpr ⟨hi, h.nodup⟩)
      pending := ?_
      aligned := h.aligned
      busy := ?_
      eof := h.eof
      slot := ?_
      sqes := ?_
      cqes := h.cqes
      covered := ?_
      short := h.short }
  · show s.pendingOperations + 1 = _
    rw [State.inflight, hperm.length_eq, List.length_cons, h.pending]
    norm_cast
  · intro he k hk
    refine (hmem k).mpr ?_
    by_cases hki : k = i
    · exact .inl hki
    · exact .inr (h.busy he k fun hid => hk ⟨hid, hki⟩)
  · rintro k (hk | hk)
    · rcases (hmem k).mp hk with rfl | hk
      · exact hslot
      · exact h.slot k (.inl hk)
    · exact hk.elim
  · intro e' he'
    rcases List.mem_append.mp he' with he' | he'
    · exact h.sqes e' he'
    · obtain rfl := List.mem_singleton.mp he'
      show SqeOk input (s.requests e'.data) e'
      rw [he]
      exact hok
  · intro o hdvd hlt
    rcases h.covered o hdvd hlt with hW | ⟨k, hk, ho⟩
    · exact .inl hW
    · refine .inr ⟨k, .inl ((hmem k).mpr ?_), ho⟩
      exact hk.elim .inr fun hl => .inl (hloose k hl)

/-- A fresh block is handed out to slot `i`. -/
theorem Core.handOut (h : Core input idle (fun _ => False) s) (hi : i ∉ s.inflight)
    (heof : s.eofReached = false) {r : Request} (hr : r.offset = s.globalReadOffset) :
    Core input idle (· = i)
      { s.setRequest i r with globalReadOffset := s.globalReadOffset + bsz } := by
  have hother := requests_of_not_mem s hi r
  refine
    { nodup := h.nodup
      pending := h.pending
      aligned := (Nat.dvd_add_right h.aligned).mpr (Nat.dvd_refl _)
      busy := h.busy
      eof := fun he => ?_
      slot := ?_
      sqes := fun e he => ?_
      cqes := fun c hc => ?_
      covered := ?_
      short := h.short }
  · exact absurd (heof.symm.trans he) (by simp)
  · rintro k (hk | rfl)
    · show (Function.update s.requests i r k).offset + bsz ≤ s.globalReadOffset + bsz
      rw [hother k hk]
      exact Nat.le_trans (h.slot k (.inl hk)) (Nat.le_add_right _ _)
    · show (Function.update s.requests k r k).offset + bsz ≤ s.globalReadOffset + bsz
      rw [Function.update_self, hr]
  · show SqeOk input (Function.update s.requests i r e.data) e
    rw [hother _ (mem_inflight_of_sqe he)]
    exact h.sqes e he
  · show CqeOk input _ (Function.update s.requests i r c.data) c
    rw [hother _ (mem_inflight_of_cqe hc)]
    exact h.cqes c hc
  · intro o hdvd hlt
    -- the only new offset is the one handed out
    have hcases : o < s.globalReadOffset ∨ o = s.globalReadOffset := by
      obtain ⟨a, ha⟩ := h.aligned
      obtain ⟨b, rfl⟩ := hdvd
      rw [ha] at hlt ⊢
      have hlt' : bsz * b < bsz * (a + 1) := hlt
      have hle := Nat.lt_succ_iff.mp (Nat.lt_of_mul_lt_mul_left hlt')
      rcases Nat.lt_or_eq_of_le hle with hba | rfl
      · exact .inl (Nat.mul_lt_mul_of_pos_left hba bsz_pos)
      · exact .inr rfl
    rcases hcases with hlt | rfl
    · rcases h.covered o hdvd hlt with hW | ⟨k, hk | hk, ho⟩
      · exact .inl hW
      · refine .inr ⟨k, .inl hk, ?_⟩
        show (Function.update s.requests i r k).offset = o
        rw [hother k hk]
        exact ho
      · exact hk.elim
    · refine .inr ⟨i, .inr rfl, ?_⟩
      show (Function.update s.requests i r i).offset = _
      rw [Function.update_self, hr]

/-- `queue_read` puts its slot in flight, or finds the flag set. -/
theorem Core.queueRead (h : Core input idle (fun _ => False) s) (hi : i ∉ s.inflight) :
    Core input (fun k => idle k ∧ k ≠ i) (fun _ => False) (queueRead s i) := by
  unfold UringCopy.queueRead
  by_cases heof : s.eofReached = true
  · rw [if_pos heof]
    exact { h with busy := fun he => absurd (heof.symm.trans he) (by simp) }
  · rw [if_neg heof]
    have hnew := h.handOut hi (by simpa using heof)
      (r := { s.requests i with type := .opRead, offset := s.globalReadOffset }) rfl
    refine hnew.submit (e := ⟨.opRead, i, bsz, s.globalReadOffset⟩) hi rfl ?_ ?_
      fun _ hk => hk
    · show SqeOk input (Function.update s.requests i _ i) _
      rw [Function.update_self]
      exact ⟨rfl, rfl, fun _ => rfl, fun h => by cases h⟩
    · exact hnew.slot i (.inr rfl)

/-- `queue_write` puts its slot in flight, when the slot holds the translated
block and its length. -/
theorem Core.queueWrite (h : Core input idle (· = i) s) (hi : i ∉ s.inflight)
    (hlen : (s.requests i).iovecLen = (block input (s.requests i).offset).length)
    (hbuf : (s.requests i).buf.bytes.take (block input (s.requests i).offset).length
      = (block input (s.requests i).offset).map translate) :
    Core input (fun k => idle k ∧ k ≠ i) (fun _ => False) (queueWrite s i) := by
  have hset := h.setRequest hi (r := { s.requests i with type := .opWrite }) rfl
  unfold UringCopy.queueWrite
  refine hset.submit
    (e := ⟨.opWrite, i, (s.requests i).iovecLen.toNat, (s.requests i).offset⟩)
    hi rfl ?_ ?_ fun _ hk => hk
  · show SqeOk input (Function.update s.requests i _ i) _
    rw [Function.update_self]
    refine ⟨rfl, rfl, (fun h => by cases h), fun _ => ?_⟩
    simp only [hlen, Int.toNat_natCast]
    exact ⟨trivial, trivial, hbuf⟩
  · exact hset.slot i (.inr rfl)

/-- **The rule of the `for` loop before the event loop**: what holds with all slots still
to come and is kept by each `queue_read` holds at the head of the event loop.  A slot is not
in flight when its turn comes. -/
theorem initState_induction {P : List (Fin queueDepth) → State → Prop}
    (hblank : P (List.finRange queueDepth) blank)
    (hstep : ∀ i l s, i ∉ s.inflight → P (i :: l) s → P l (queueRead s i)) :
    P [] initState := by
  have key : ∀ (l : List (Fin queueDepth)) (s : State), l.Nodup →
      (∀ k ∈ l, k ∉ s.inflight) → P l s → P [] (l.foldl queueRead s) := by
    intro l
    induction l with
    | nil =>
        intro s _ _ h
        exact h
    | cons i l ih =>
        intro s hnd hout h
        obtain ⟨hil, hnd⟩ := List.nodup_cons.mp hnd
        refine ih _ hnd (fun k hk hmem => ?_) (hstep i l s (hout i (by simp)) h)
        have hki : k ≠ i := fun e => hil (e ▸ hk)
        refine hout k (by simp [hk]) ?_
        unfold queueRead at hmem
        split at hmem
        · exact hmem
        · simpa [State.inflight, State.setRequest, hki] using hmem
  exact key _ blank (List.nodup_finRange _) (fun k _ => by simp [State.inflight, blank]) hblank

/-- The state at the head of the loop satisfies the invariant. -/
theorem inv_initState (input : List UInt8) : Inv input initState := by
  -- the slots still to come are idle
  have hcore : Core input (· ∈ []) (fun _ => False) initState := by
    refine initState_induction (P := fun l s => Core input (· ∈ l) (fun _ => False) s) ?_ ?_
    · exact { core_blank input with busy := fun _ i hi => absurd (List.mem_finRange i) hi }
    · intro i l s hi h
      have hq := h.queueRead hi
      refine { hq with busy := fun he k hk => hq.busy he k ?_ }
      rintro ⟨hmem, hne⟩
      rcases List.mem_cons.mp hmem with e | e
      exacts [hne e, hk e]
  exact { hcore with busy := fun he k _ => hcore.busy he k List.not_mem_nil }

/-- Taking a completion puts its slot out of flight and its block into the hands
of `main`. -/
theorem Inv.pop (h : Inv input s) {c : Cqe} {rest : List Cqe} (hcq : s.cq = c :: rest) :
    c.data ∉ (popped s rest).inflight ∧
      Core input (· = c.data) (· = c.data) (popped s rest) := by
  have hperm := inflight_popped hcq
  have hnd := List.nodup_cons.mp (hperm.nodup_iff.mp h.nodup)
  have hmem : ∀ k, k ∈ s.inflight ↔ k = c.data ∨ k ∈ (popped s rest).inflight :=
    fun k => by rw [hperm.mem_iff, List.mem_cons]
  refine ⟨hnd.1,
    { nodup := hnd.2
      pending := ?_
      aligned := h.aligned
      busy := fun he k hk => ((hmem k).mp (h.busy he k id)).resolve_left hk
      eof := h.eof
      slot := fun k hk => h.slot k (.inl ((hmem k).mpr hk.symm))
      sqes := h.sqes
      cqes := fun c' hc' => h.cqes c' (hcq ▸ List.mem_cons_of_mem _ hc')
      covered := ?_
      short := h.short }⟩
  · show s.pendingOperations - 1 = _
    rw [h.pending, hperm.length_eq, List.length_cons]
    simp
  · intro o hdvd hlt
    rcases h.covered o hdvd hlt with hW | ⟨k, hk | hk, ho⟩
    · exact .inl hW
    · exact .inr ⟨k, ((hmem k).mp hk).symm, ho⟩
    · exact hk.elim

/-- The `OP_READ` branch. -/
theorem Core.onRead (h : Core input (· = i) (· = i) s) (hi : i ∉ s.inflight) {res : ℤ}
    (hres : res = (block input (s.requests i).offset).length)
    (hbuf : (s.requests i).buf.bytes.take (block input (s.requests i).offset).length
      = block input (s.requests i).offset) :
    Inv input (onRead s i res) := by
  have hslot := h.slot i (.inr rfl)
  unfold UringCopy.onRead
  by_cases hpos : 0 < res
  · rw [if_pos hpos]
    -- the flag is set exactly when the block is short
    have hflag : Core input (· = i) (· = i)
        { s with eofReached := if res < bsz then true else s.eofReached } := by
      by_cases hshort : res < bsz
      · rw [if_pos hshort]
        refine h.setEof ?_
        rw [hres, length_block] at hshort
        omega
      · rw [if_neg hshort]
        exact h
    have hset := hflag.setRequest hi
      (r := { s.requests i with
        iovecLen := res
        buf := (s.requests i).buf.mapPrefix res.toNat translate }) rfl
    have hq := hset.queueWrite hi (by
      show (Function.update s.requests i _ i).iovecLen = _
      simpa [State.setRequest] using hres) (by
      simp only [State.setRequest, Function.update_self]
      rw [hres, Int.toNat_natCast, Buf.take_mapPrefix _ _ _ (length_block_le _ _), hbuf])
    exact { hq with busy := fun he k _ => hq.busy he k fun hk => hk.2 hk.1 }
  · rw [if_neg hpos]
    -- an empty block lies past the end of the input
    have hpast : input.length ≤ (s.requests i).offset := by
      have := bsz_pos
      rw [hres, length_block] at hpos
      omega
    have hset := (h.setEof (by omega)).settle (by
      rintro k rfl
      exact Written.of_length_le hpast)
    exact { hset with busy := fun he => by cases he }

/-- The `OP_WRITE` branch. -/
theorem Core.onWrite (h : Core input (· = i) (· = i) s) (hi : i ∉ s.inflight) {res : ℤ}
    (hres : res = (s.requests i).iovecLen)
    (hw : Written input s.outfile (s.requests i).offset) :
    Inv input (onWrite s i res) := by
  unfold UringCopy.onWrite
  rw [if_neg (not_not.mpr hres)]
  have hq := (h.settle (by rintro k rfl; exact hw)).queueRead hi
  exact { hq with busy := fun he k _ => hq.busy he k fun hk => hk.2 hk.1 }

theorem loopBody_of_read {c : Cqe} (rest : List Cqe) (hres : ¬ c.res < 0)
    (ht : (s.requests c.data).type = .opRead) :
    loopBody { s with cq := rest } c = onRead (popped s rest) c.data c.res := by
  unfold loopBody
  simp only [if_neg hres, ht]
  rfl

theorem loopBody_of_write {c : Cqe} (rest : List Cqe) (hres : ¬ c.res < 0)
    (ht : (s.requests c.data).type = .opWrite) :
    loopBody { s with cq := rest } c = onWrite (popped s rest) c.data c.res := by
  unfold loopBody
  simp only [if_neg hres, ht]
  rfl

/-- **One pass through the loop body keeps the invariant**, whichever slot the
completion is for. -/
theorem Inv.loopBody (h : Inv input s) {c : Cqe} {rest : List Cqe} (hcq : s.cq = c :: rest) :
    Inv input (loopBody { s with cq := rest } c) := by
  obtain ⟨hout, hcore⟩ := h.pop hcq
  have hc := h.cqes c (by simp [hcq])
  have hnonneg : ¬ c.res < 0 := by
    rcases ht : (s.requests c.data).type with _ | _
    · have := (hc.read ht).1
      omega
    · have := (hc.write ht).2.1
      omega
  rcases ht : (s.requests c.data).type with _ | _
  · rw [loopBody_of_read rest hnonneg ht]
    exact hcore.onRead hout (hc.read ht).1 (hc.read ht).2
  · rw [loopBody_of_write rest hnonneg ht]
    exact hcore.onWrite hout (hc.write ht).1 (hc.write ht).2.2

/-! ### The kernel's steps -/

/-- What the kernel may change when it performs the request `e` for its slot:
the slot's buffer and the output file. -/
theorem Inv.performed (h : Inv input s) {n : ℕ} {e : Sqe} (he : s.sq[n]? = some e)
    {res : ℤ} {r : Request} {out : List UInt8} (hr : r.offset = (s.requests e.data).offset)
    (hc : CqeOk input out r ⟨e.data, res⟩)
    (hout : ∀ o, Written input s.outfile o → Written input out o)
    (hlen : out.length ≤ input.length) :
    Inv input { s.setRequest e.data r with
      sq := s.sq.eraseIdx n
      cq := s.cq ++ [⟨e.data, res⟩]
      outfile := out } := by
  -- the slot moves from `sq` to `cq`, so the slots in flight are the same
  have hperm := inflight_perform he res
  have hother := requests_of_not_mem s (not_mem_inflight_perform h.nodup he) r
  have hoff : ∀ k, (Function.update s.requests e.data r k).offset = (s.requests k).offset := by
    intro k
    by_cases hk : k = e.data
    · subst hk; simpa using hr
    · simp [hk]
  refine
    { nodup := hperm.nodup_iff.mp h.nodup
      pending := ?_
      aligned := h.aligned
      busy := fun hf k hk => hperm.mem_iff.mp (h.busy hf k hk)
      eof := h.eof
      slot := ?_
      sqes := ?_
      cqes := ?_
      covered := ?_
      short := hlen }
  · show s.pendingOperations = _
    rw [h.pending]
    exact congrArg _ hperm.length_eq
  · rintro k (hk | hk)
    · show (Function.update s.requests e.data r k).offset + bsz ≤ _
      rw [hoff k]
      exact h.slot k (.inl (hperm.mem_iff.mpr hk))
    · exact hk.elim
  · intro e' he'
    show SqeOk input (Function.update s.requests e.data r e'.data) e'
    rw [hother _ (List.mem_append_left _ (List.mem_map_of_mem he'))]
    exact h.sqes e' (List.mem_of_mem_eraseIdx he')
  · intro c hc'
    show CqeOk input out (Function.update s.requests e.data r c.data) c
    rcases List.mem_append.mp hc' with hc' | hc'
    · rw [hother _ (List.mem_append_right _ (List.mem_map_of_mem hc'))]
      have hold := h.cqes c hc'
      exact ⟨hold.read, fun ht => ⟨(hold.write ht).1, (hold.write ht).2.1,
        hout _ (hold.write ht).2.2⟩⟩
    · obtain rfl := List.mem_singleton.mp hc'
      rw [Function.update_self]
      exact hc
  · intro o hdvd hlt
    rcases h.covered o hdvd hlt with hW | ⟨k, hk | hk, ho⟩
    · exact .inl (hout o hW)
    · exact .inr ⟨k, .inl (hperm.mem_iff.mp hk), (hoff k).trans ho⟩
    · exact hk.elim

/-- **The kernel keeps the invariant** when it transfers all it can. -/
theorem Inv.perform (h : Inv input s) {n : ℕ} {res : ℤ} {s' : State}
    (hfull : FullKernel input s (.perform n res))
    (hstep : perform input s n res = some s') : Inv input s' ∧ s'.exit = s.exit := by
  rcases he : s.sq[n]? with _ | e
  · simp [UringCopy.perform, he] at hstep
  have hok := h.sqes e (List.mem_of_getElem? he)
  have hres : res = fullResult input e := by simpa [FullKernel, he] using hfull
  unfold UringCopy.perform at hstep
  simp only [he] at hstep
  rcases ht : e.opcode with _ | _
  · -- a read brings the block into the buffer
    have hlen : e.len = bsz := hok.read (hok.opcode.symm.trans ht)
    have hres' : res = (block input (s.requests e.data).offset).length := by
      rw [hres, length_block, ← hok.offset]
      simp [fullResult, ht]
    have hnn : ¬ res < 0 := by omega
    have hdata : pread input e.offset res.toNat = block input (s.requests e.data).offset := by
      rw [hres', Int.toNat_natCast, hok.offset, ← take_pread _ (length_block_le _ _)]
      exact List.take_length
    rw [if_neg hnn] at hstep
    simp only [ht] at hstep
    split at hstep
    · obtain rfl := Option.some.inj hstep
      refine ⟨?_, rfl⟩
      refine h.performed he (r := { s.requests e.data with
        buf := (s.requests e.data).buf.load (pread input e.offset res.toNat) }) rfl ?_
        (fun _ hW => hW) h.short
      refine ⟨fun _ => ⟨hres', ?_⟩, fun hw => ?_⟩
      · rw [hdata]
        exact Buf.take_load _ (length_block_le _ _)
      · exact absurd (ht.symm.trans (hok.opcode.trans hw)) (by simp)
    · cases hstep
  · -- a write puts the translated block into the output file
    have hw := hok.write (hok.opcode.symm.trans ht)
    have hres' : res = e.len := by simp [hres, fullResult, ht]
    have hnn : ¬ res < 0 := by omega
    have hdata : (s.requests e.data).buf.bytes.take res.toNat
        = (block input e.offset).map translate := by
      rw [hres', Int.toNat_natCast, hw.2.2, hok.offset]
    rw [if_neg hnn] at hstep
    simp only [ht] at hstep
    split at hstep
    · obtain rfl := Option.some.inj hstep
      refine ⟨?_, rfl⟩
      have hcqe : CqeOk input (pwrite s.outfile e.offset ((block input e.offset).map translate))
          (s.requests e.data) ⟨e.data, res⟩ :=
        ⟨fun hr => absurd (ht.symm.trans (hok.opcode.trans hr)) (by simp), fun _ =>
          ⟨hres'.trans hw.2.1.symm, Int.not_lt.mp hnn, hok.offset ▸ Written.of_pwrite _ _⟩⟩
      have hp := h.performed he rfl hcqe (fun _ hW => hW.pwrite _)
        (length_pwrite_block _ h.short)
      rw [hdata]
      simpa [State.setRequest] using hp
    · cases hstep

end Steps

/-! ### Every reachable state -/

theorem queueRead_exit (s : State) (i : Fin queueDepth) : (queueRead s i).exit = s.exit := by
  unfold queueRead
  split <;> rfl

/-- Under the invariant the loop body takes no error exit. -/
theorem Inv.loopBody_exit {s : State} (h : Inv input s) {c : Cqe} {rest : List Cqe}
    (hcq : s.cq = c :: rest) :
    (UringCopy.loopBody { s with cq := rest } c).exit = s.exit := by
  have hc := h.cqes c (by simp [hcq])
  rcases ht : (s.requests c.data).type with _ | _
  · have hnn : ¬ c.res < 0 := by
      have := (hc.read ht).1
      omega
    by_cases hpos : 0 < c.res <;>
      simp [UringCopy.loopBody, onRead, queueWrite, State.setRequest, hnn, ht, hpos]
  · have hnn : ¬ c.res < 0 := by
      have := (hc.write ht).2.1
      omega
    simp [UringCopy.loopBody, onWrite, ht, (hc.write ht).1 ▸ hnn, (hc.write ht).1,
      queueRead_exit]

/-- How the program can have ended: it left the loop with an empty ring, or the
wait failed. -/
def ExitOk (s : State) : Prop :=
  s.exit = none ∨ s.exit = some .waitCqe ∨ (s.exit = some .finished ∧ s.inflight = [])

theorem inv_reach {s : State} (h : (fullCopier input).Reach s) : Inv input s ∧ ExitOk s := by
  refine Machine.Reach.invariant (I := fun s => Inv input s ∧ ExitOk s) ?_ ?_ h
  · rintro s rfl
    refine ⟨inv_initState input, .inl ?_⟩
    exact initState_induction (P := fun _ s => s.exit = none) rfl
      fun i _ s _ h => (queueRead_exit s i).trans h
  · rintro s a s' ⟨hinv, -⟩ hstep
    obtain ⟨hfull, hstep⟩ := Machine.restrict_next.mp hstep
    obtain ⟨hexit, hstep⟩ := step_of_next hstep
    cases hstep with
    | perform hperf =>
        obtain ⟨hinv', hexit'⟩ := hinv.perform hfull hperf
        exact ⟨hinv', .inl (hexit'.trans hexit)⟩
    | complete _ hcq =>
        exact ⟨hinv.loopBody hcq, .inl ((hinv.loopBody_exit hcq).trans hexit)⟩
    | waitFail => exact ⟨{ hinv with }, .inr (.inl rfl)⟩
    | leave hpend =>
        refine ⟨{ hinv with }, .inr (.inr ⟨rfl, ?_⟩)⟩
        -- the counter is the number of slots in flight
        have hlen := hinv.pending
        have hzero : s.inflight.length = 0 := by omega
        exact List.eq_nil_of_length_eq_zero hzero

/-- With nothing in flight the flag is set, and the whole input has been written. -/
theorem Inv.outfile_eq {s : State} (hinv : Inv input s) (hnil : s.inflight = []) :
    s.outfile = input.map translate := by
  have heof : s.eofReached = true := by
    by_contra hne
    have hmem := hinv.busy (by simpa using hne) ⟨0, by decide⟩ id
    rw [hnil] at hmem
    cases hmem
  apply List.ext_getElem?
  intro j
  rw [List.getElem?_map]
  by_cases hj : j < input.length
  · -- the block of `j` was handed out, and no slot carries it any more
    have hlt : bsz * (j / bsz) < s.globalReadOffset := by
      have h₁ := Nat.div_mul_le_self j bsz
      have h₂ := hinv.eof heof
      rw [Nat.mul_comm] at h₁
      omega
    rcases hinv.covered _ (Nat.dvd_mul_right _ _) hlt with hW | ⟨i, hi | hi, -⟩
    · refine hW j ?_ ?_ hj
      · rw [Nat.mul_comm]
        exact Nat.div_mul_le_self j bsz
      · exact Nat.lt_mul_div_succ j bsz_pos
    · rw [hnil] at hi
      cases hi
    · exact hi.elim
  · have hshort := hinv.short
    rw [List.getElem?_eq_none (by omega), List.getElem?_eq_none (by omega)]
    rfl

/-- `main` leaves its loop with an empty ring. -/
theorem ExitOk.inflight_eq_nil {s : State} (h : ExitOk s) (hexit : s.exit = some .finished) :
    s.inflight = [] := by
  rcases h with he | he | he
  · simp [hexit] at he
  · simp [hexit] at he
  · exact he.2

/-- **The io_uring copier is correct.**  In every run, whatever the order in
which the kernel performs the reads and writes, once `main` has left its loop
the output file is the input with `translate` applied to each byte. -/
theorem outfile_eq_of_finished (input : List UInt8) {s : State}
    (h : (fullCopier input).Reach s) (hexit : s.exit = some .finished) :
    s.pendingOperations = 0 ∧ s.outfile = input.map translate := by
  obtain ⟨hinv, hex⟩ := inv_reach h
  have hnil := hex.inflight_eq_nil hexit
  exact ⟨by simpa [hnil] using hinv.pending, hinv.outfile_eq hnil⟩

/-- A run on the one-byte file "A": the read of the second block reports the end
of file before the first block has been read. -/
def oneByteRun : List Action :=
  [.perform 1 0, .complete, .perform 0 1, .complete] ++
    List.replicate 14 (.perform 0 0) ++ [.perform 0 1] ++
    List.replicate 15 .complete ++ [.leave]

theorem oneByteRun_outfile :
    ∃ s, (fullCopier [65]).Reach s ∧ s.exit = some .finished ∧ s.outfile = [78] := by
  have hrun : ((fullCopier [65]).run initState oneByteRun).map State.exit
      = some (some .finished) := by decide +kernel
  obtain ⟨s, hs, hexit⟩ := Option.map_eq_some_iff.mp hrun
  have hreach := Machine.reach_of_run (M := fullCopier [65]) rfl hs
  exact ⟨s, hreach, hexit, (outfile_eq_of_finished [65] hreach hexit).2⟩

end Apue.UringCopy
