/-
Apue/OpenDaemonConns.lean

Who holds which connection of the open daemon.

At any time each open connection is held by one request: first by the accept that
completed with its descriptor, then by the read that was queued for it.  Which
request holds what (`held`) is not part of the daemon's state; `Conns` says when it
agrees with the descriptor table and with the history of every connection.  The
lemmas are about the four things that can happen to a connection: it is accepted,
it moves on, it is handed from one request to another, and it is closed.
-/
import Apue.OpenDaemon

namespace Apue.OpenDaemon

open UnixSocket

variable {φ : Type*}

/-! ### The history of a connection -/

/-- What happened to connection `c`. -/
def trace (log : List (ℕ × Event φ)) (c : ℕ) : List (Event φ) :=
  log.filterMap fun p => if p.1 = c then some p.2 else none

theorem trace_append (log log' : List (ℕ × Event φ)) (c : ℕ) :
    trace (log ++ log') c = trace log c ++ trace log' c := List.filterMap_append

theorem trace_map_self (c : ℕ) (es : List (Event φ)) : trace (es.map (Prod.mk c)) c = es := by
  rw [trace, List.filterMap_map]
  exact (List.filterMap_congr fun e _ => if_pos rfl).trans List.filterMap_some

theorem trace_map_of_ne {c c' : ℕ} (h : c ≠ c') (es : List (Event φ)) :
    trace (es.map (Prod.mk c)) c' = [] := by
  rw [trace, List.filterMap_map]
  exact List.filterMap_eq_nil_iff.mpr fun e _ => if_neg h

/-- At most one reply, computed from the bytes read. -/
def Answers (r : Option (List UInt8)) (replies : List (List (Cell (Obj φ)))) : Prop :=
  replies.length ≤ 1 ∧ ∀ m ∈ replies, ∃ bytes opens pad fds, r = some bytes ∧ bytes ≠ [] ∧
    m ∈ (processRequest (fileOpens opens) pad fds bytes).1

theorem answers_nil (r : Option (List UInt8)) :
    Answers r ([] : List (List (Cell (Obj φ)))) := ⟨Nat.zero_le 1, nofun⟩

/-- The whole history of a connection that was answered and closed. -/
def life (r : Option (List UInt8)) (replies : List (List (Cell (Obj φ)))) : List (Event φ) :=
  [.accepted, .queued, .read r] ++ replies.map .replied ++ [.closed]

/-- The history ends with the close. -/
def Closed (es : List (Event φ)) : Prop := ∃ r replies, Answers r replies ∧ es = life r replies

/-! ### Holders -/

/-- How far a connection has come. -/
inductive Stage (φ : Type*)
  | accepted
  | queued
  | read (r : Option (List UInt8)) (replies : List (List (Cell (Obj φ))))
      (answers : Answers r replies)

/-- The history of a connection at this stage. -/
def Stage.trace : Stage φ → List (Event φ)
  | .accepted => [.accepted]
  | .queued => [.accepted, .queued]
  | .read r replies _ => [.accepted, .queued, .read r] ++ replies.map .replied

theorem Stage.trace_ne_nil (st : Stage φ) : st.trace ≠ [] := by
  cases st <;> simp [Stage.trace]

/-- What a request holds: a connection, its descriptor, and how far it has come. -/
structure Held (φ : Type*) where
  conn : ℕ
  fd : ℕ
  stage : Stage φ

/-- The holders agree with the descriptor table and with the history. -/
structure Conns (listenFd : ℕ) (fds : FdTable (Obj φ)) (log : List (ℕ × Event φ)) (nextConn : ℕ)
    (held : ℕ → Option (Held φ)) : Prop where
  listener : fds.get listenFd = some .listener
  table : ∀ {n c}, fds.get n = some (.conn c) ↔ ∃ i h, held i = some h ∧ h.conn = c ∧ h.fd = n
  inj : ∀ {i j h h'}, held i = some h → held j = some h' → h.conn = h'.conn → i = j
  traces : ∀ {i h}, held i = some h → trace log h.conn = h.stage.trace
  rest : ∀ {c}, (∀ i h, held i = some h → h.conn ≠ c) → trace log c = [] ∨ Closed (trace log c)
  fresh : ∀ {c}, nextConn ≤ c → trace log c = []

variable {listenFd nextConn i j n : ℕ} {fds fds' : FdTable (Obj φ)} {log : List (ℕ × Event φ)}
  {held : ℕ → Option (Held φ)} {h h' : Held φ}

theorem conns_init (hl : Listening listenFd fds) : Conns listenFd fds [] 0 fun _ => none where
  listener := hl.1
  table := ⟨fun hget => absurd hget (hl.2 _ _), nofun⟩
  inj := nofun
  traces := nofun
  rest _ := .inl rfl
  fresh _ := rfl

/-- A connection that is held is not new. -/
theorem Conns.lt (hc : Conns listenFd fds log nextConn held) (hi : held i = some h) :
    h.conn < nextConn := by
  rcases Nat.lt_or_ge h.conn nextConn with hlt | hge
  · exact hlt
  · exact absurd ((hc.traces hi).symm.trans (hc.fresh hge)) h.stage.trace_ne_nil

/-- The holder of a connection finds it at its descriptor. -/
theorem Conns.get_fd (hc : Conns listenFd fds log nextConn held) (hi : held i = some h) :
    fds.get h.fd = some (.conn h.conn) := hc.table.mpr ⟨i, h, hi, rfl, rfl⟩

/-- Only what the descriptors are open on matters. -/
theorem Conns.congr (hc : Conns listenFd fds log nextConn held) (hfds : fds'.get = fds.get) :
    Conns listenFd fds' log nextConn held where
  listener := hfds ▸ hc.listener
  table := hfds ▸ hc.table
  inj := hc.inj
  traces := hc.traces
  rest := hc.rest
  fresh := hc.fresh

/-- What holders hold, after the holder `i` has changed. -/
theorem update_eq_some {x : Option (Held φ)} (hj : Function.update held i x j = some h) :
    (j = i ∧ x = some h) ∨ (j ≠ i ∧ held j = some h) := by
  rcases eq_or_ne j i with rfl | hne
  · exact .inl ⟨rfl, (Function.update_self j x held) ▸ hj⟩
  · exact .inr ⟨hne, (Function.update_of_ne hne x held) ▸ hj⟩

/-- Request `i` comes to hold `x`, and nothing but connection `c` is concerned. -/
theorem Conns.update (hc : Conns listenFd fds log nextConn held) (es : List (Event φ))
    {c nextConn' : ℕ} {x : Option (Held φ)}
    (hother : ∀ j h, j ≠ i → held j = some h → h.conn ≠ c)
    (hold : ∀ h, held i = some h → h.conn = c) (hx : ∀ h, x = some h → h.conn = c)
    (hfds : ∀ n o, o ≠ .conn c → (fds'.get n = some o ↔ fds.get n = some o))
    (hget : ∀ n, fds'.get n = some (.conn c) ↔ ∃ h, x = some h ∧ h.fd = n)
    (htrace : ∀ h, x = some h → trace log c ++ es = h.stage.trace)
    (hend : x = none → Closed (trace log c ++ es))
    (hle : nextConn ≤ nextConn') (hlt : c < nextConn') :
    Conns listenFd fds' (log ++ es.map (Prod.mk c)) nextConn' (Function.update held i x) := by
  have htrace_c : trace (log ++ es.map (Prod.mk c)) c = trace log c ++ es := by
    rw [trace_append, trace_map_self]
  have htrace_ne : ∀ c', c' ≠ c → trace (log ++ es.map (Prod.mk c)) c' = trace log c' := by
    intro c' hne
    rw [trace_append, trace_map_of_ne hne.symm, List.append_nil]
  refine ⟨(hfds listenFd .listener nofun).mpr hc.listener, @fun n c' => ?_, @fun j k h h' hj hk heq => ?_,
    @fun j h hj => ?_, @fun c' hno => ?_, @fun c' hge => ?_⟩
  · -- the table: `c` is at the descriptor of `x`, the others are where they were
    rcases eq_or_ne c' c with rfl | hne
    · rw [hget]
      constructor
      · rintro ⟨h, rfl, hfd⟩
        exact ⟨i, h, Function.update_self .., hx h rfl, hfd⟩
      · rintro ⟨j, h, hj, hcj, hfd⟩
        rcases update_eq_some hj with ⟨-, hxh⟩ | ⟨hne, hj⟩
        · exact ⟨h, hxh, hfd⟩
        · exact absurd hcj (hother j h hne hj)
    · rw [hfds _ _ fun heq => hne (Obj.conn.inj heq), hc.table]
      constructor
      · rintro ⟨j, h, hj, hcj, hfd⟩
        have hji : j ≠ i := by
          rintro rfl
          exact hne (hcj.symm.trans (hold h hj))
        exact ⟨j, h, (Function.update_of_ne hji ..).trans hj, hcj, hfd⟩
      · rintro ⟨j, h, hj, hcj, hfd⟩
        rcases update_eq_some hj with ⟨-, hxh⟩ | ⟨-, hj⟩
        · exact absurd (hcj.symm.trans (hx h hxh)) hne
        · exact ⟨j, h, hj, hcj, hfd⟩
  · rcases update_eq_some hj with ⟨rfl, hxj⟩ | ⟨hji, hj'⟩ <;>
      rcases update_eq_some hk with ⟨rfl, hxk⟩ | ⟨hki, hk'⟩
    · rfl
    · exact absurd (heq.symm.trans (hx h hxj)) (hother k h' hki hk')
    · exact absurd (heq.trans (hx h' hxk)) (hother j h hji hj')
    · exact hc.inj hj' hk' heq
  · rcases update_eq_some hj with ⟨-, hxh⟩ | ⟨hji, hj⟩
    · rw [hx h hxh, htrace_c, htrace h hxh]
    · rw [htrace_ne _ (hother j h hji hj), hc.traces hj]
  · rcases eq_or_ne c' c with rfl | hne
    · cases hxi : x with
      | none =>
          rw [htrace_c]
          exact .inr (hend hxi)
      | some h =>
          exact absurd (hx h hxi) (hno i h ((Function.update_self i x held).trans hxi))
    · rw [htrace_ne _ hne]
      refine hc.rest fun j h hj hcj => ?_
      have hji : j ≠ i := by
        rintro rfl
        exact hne (hcj.symm.trans (hold h hj))
      exact hno j h ((Function.update_of_ne hji ..).trans hj) hcj
  · rw [htrace_ne _ (by omega)]
    exact hc.fresh (Nat.le_trans hle hge)

/-- **A connection is accepted.** -/
theorem Conns.accept (hc : Conns listenFd fds log nextConn held) (hn : fds.get n = none)
    (hi : held i = none) :
    Conns listenFd (fds.openAt n (.conn nextConn)) (log ++ [(nextConn, .accepted)]) (nextConn + 1)
      (Function.update held i (some ⟨nextConn, n, .accepted⟩)) := by
  have hnew : ∀ k, fds.get k ≠ some (.conn nextConn) := by
    intro k hk
    obtain ⟨j, h, hj, hcj, -⟩ := hc.table.mp hk
    exact absurd hcj (Nat.ne_of_lt (hc.lt hj))
  refine hc.update [.accepted] (fun j h _ hj => Nat.ne_of_lt (hc.lt hj))
    (fun h hh => absurd (hi.symm.trans hh) nofun) ?_ (fun k o ho => ?_) (fun k => ?_) ?_ nofun
    (Nat.le_succ _) (Nat.lt_succ_self _)
  · rintro h ⟨⟩
    rfl
  · rcases eq_or_ne k n with rfl | hne
    · rw [fds.get_openAt_self, hn]
      exact ⟨fun heq => absurd (Option.some.inj heq).symm ho, nofun⟩
    · rw [fds.get_openAt_of_ne _ hne]
  · rcases eq_or_ne k n with rfl | hne
    · rw [fds.get_openAt_self]
      exact ⟨fun _ => ⟨_, rfl, rfl⟩, fun _ => rfl⟩
    · rw [fds.get_openAt_of_ne _ hne]
      refine ⟨fun hk => absurd hk (hnew k), ?_⟩
      rintro ⟨h, ⟨⟩, hfd⟩
      exact absurd hfd.symm hne
  · rintro h ⟨⟩
    rw [hc.fresh (Nat.le_refl _)]
    rfl

/-- Only its holder holds a connection. -/
theorem Conns.conn_ne (hc : Conns listenFd fds log nextConn held) (hi : held i = some h)
    (hj : held j = some h') (hne : j ≠ i) : h'.conn ≠ h.conn :=
  fun heq => hne (hc.inj hj hi heq)

/-- **A connection moves on**: its holder stays, and its history grows. -/
theorem Conns.advance (hc : Conns listenFd fds log nextConn held) (hi : held i = some h)
    (st : Stage φ) (es : List (Event φ)) (hst : st.trace = h.stage.trace ++ es) :
    Conns listenFd fds (log ++ es.map (Prod.mk h.conn)) nextConn
      (Function.update held i (some { h with stage := st })) := by
  refine hc.update es (fun j h' hne hj => hc.conn_ne hi hj hne) (fun h' hh => ?_) ?_
    (fun _ _ _ => Iff.rfl) (fun k => ?_) ?_ nofun (Nat.le_refl _) (hc.lt hi)
  · rw [Option.some.inj (hi.symm.trans hh)]
  · rintro h' ⟨⟩
    rfl
  · rw [hc.table]
    constructor
    · rintro ⟨j, h', hj, hcj, hfd⟩
      obtain rfl := hc.inj hj hi hcj
      obtain rfl := Option.some.inj (hi.symm.trans hj)
      exact ⟨_, rfl, hfd⟩
    · rintro ⟨h', ⟨⟩, hfd⟩
      exact ⟨i, h, hi, rfl, hfd⟩
  · rintro h' ⟨⟩
    rw [hc.traces hi, hst]

/-- **A connection is closed.** -/
theorem Conns.close (hc : Conns listenFd fds log nextConn held) (hi : held i = some h)
    (hend : Closed (h.stage.trace ++ [.closed])) :
    Conns listenFd (fds.close h.fd) (log ++ [(h.conn, .closed)]) nextConn
      (Function.update held i none) := by
  refine hc.update [.closed] (fun j h' hne hj => hc.conn_ne hi hj hne) (fun h' hh => ?_)
    nofun (fun k o ho => ?_) (fun k => ?_) nofun (fun _ => ?_) (Nat.le_refl _) (hc.lt hi)
  · rw [Option.some.inj (hi.symm.trans hh)]
  · rcases eq_or_ne k h.fd with rfl | hne
    · rw [fds.get_close_self, hc.get_fd hi]
      exact ⟨nofun, fun heq => absurd (Option.some.inj heq).symm ho⟩
    · rw [fds.get_close_of_ne hne]
  · refine ⟨fun hk => ?_, nofun⟩
    rcases eq_or_ne k h.fd with rfl | hne
    · rw [fds.get_close_self] at hk
      cases hk
    · rw [fds.get_close_of_ne hne, hc.table] at hk
      obtain ⟨j, h', hj, hcj, hfd⟩ := hk
      obtain rfl := hc.inj hj hi hcj
      obtain rfl := Option.some.inj (hi.symm.trans hj)
      exact absurd hfd.symm hne
  · rw [hc.traces hi]
    exact hend

/-- **A connection is handed over** to request `j`. -/
theorem Conns.give (hc : Conns listenFd fds log nextConn held) (hi : held i = some h)
    (hj : held j = none) :
    Conns listenFd fds log nextConn (Function.update (Function.update held i none) j (some h)) := by
  have hij : i ≠ j := by
    rintro rfl
    exact absurd (hi.symm.trans hj) nofun
  -- the same things are held as before, those of `i` by `j`
  have hback : ∀ {k h'}, Function.update (Function.update held i none) j (some h) k = some h' →
      (k = j ∧ h' = h) ∨ (k ≠ i ∧ k ≠ j ∧ held k = some h') := by
    intro k h' hk
    rcases update_eq_some hk with ⟨hkj, hh⟩ | ⟨hkj, hk⟩
    · exact .inl ⟨hkj, (Option.some.inj hh).symm⟩
    · rcases update_eq_some hk with ⟨-, hh⟩ | ⟨hki, hk⟩
      · cases hh
      · exact .inr ⟨hki, hkj, hk⟩
  have hforth : ∀ {k h'}, held k = some h' →
      ∃ k', Function.update (Function.update held i none) j (some h) k' = some h' := by
    intro k h' hk
    rcases eq_or_ne k i with rfl | hki
    · obtain rfl := Option.some.inj (hi.symm.trans hk)
      exact ⟨j, Function.update_self ..⟩
    · have hkj : k ≠ j := by
        rintro rfl
        exact absurd (hk.symm.trans hj) nofun
      exact ⟨k, by rw [Function.update_of_ne hkj, Function.update_of_ne hki, hk]⟩
  have hsame : ∀ {k h'}, Function.update (Function.update held i none) j (some h) k = some h' →
      ∃ k', held k' = some h' := by
    intro k h' hk
    rcases hback hk with ⟨-, rfl⟩ | ⟨-, -, hk⟩
    · exact ⟨i, hi⟩
    · exact ⟨k, hk⟩
  refine ⟨hc.listener, @fun n c => ?_, @fun k l h₁ h₂ hk hl heq => ?_, @fun k h' hk => ?_,
    @fun c hno => ?_, hc.fresh⟩
  · rw [hc.table]
    constructor
    · rintro ⟨k, h', hk, hcn, hfd⟩
      obtain ⟨k', hk'⟩ := hforth hk
      exact ⟨k', h', hk', hcn, hfd⟩
    · rintro ⟨k, h', hk, hcn, hfd⟩
      obtain ⟨k', hk'⟩ := hsame hk
      exact ⟨k', h', hk', hcn, hfd⟩
  · rcases hback hk with ⟨rfl, rfl⟩ | ⟨hki, -, hk'⟩ <;>
      rcases hback hl with ⟨rfl, rfl⟩ | ⟨hli, -, hl'⟩
    · rfl
    · exact absurd heq.symm (hc.conn_ne hi hl' hli)
    · exact absurd heq (hc.conn_ne hi hk' hki)
    · exact hc.inj hk' hl' heq
  · obtain ⟨k', hk'⟩ := hsame hk
    exact hc.traces hk'
  · refine hc.rest fun k h' hk => ?_
    obtain ⟨k', hk'⟩ := hforth hk
    exact hno k' h' hk'

end Apue.OpenDaemon
