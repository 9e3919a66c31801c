/-
Apue/DequeRwlock.lean

The job queue behind a readers-writer lock of `11/9_usage_rwlock.cpp`.

Every member function of `deque_rwlock` locks, works on the `std::deque`, and unlocks:
`push_front`, `push_back` and `remove` for writing, `find` and `size` for reading.
`remove` and `find` walk over the deque, one element at a time.  Any number of threads call
them, each the calls of a script.

What the class is for is the machine `spec`: there each call takes effect at one moment
between its beginning and its return, on a plain list.  Whatever the threads do, the calls
and returns that are seen of the class are also seen of `spec` (`calls_linearizable`).

There is one thing that `spec` has to allow.  `find` keeps a reference to the element of the
deque, unlocks, and copies the pointer only then.  If another thread erases an element in
between, the reference may be gone and the pointer undefined; `spec` says so (`stale`).
A reference is a number that an element gets when it is put in.  Erasing the first or the
last element leaves the other references as they are; erasing one in the middle gives every
element a new number, as no reference to the deque is valid after that.
-/
import Apue.Machine
import Apue.RwLock

namespace Apue.DequeRwlock

open RwLock

variable {T J I : Type}

/-! ### Calls -/

/-- The member functions, over jobs `J` and thread ids `I`. -/
inductive Op (J I : Type)
  | pushFront (job : J)
  | pushBack (job : J)
  | remove (job : J)
  | find (id : I)
  | size
  deriving DecidableEq, Repr

/-- What they return. -/
inductive Ret (J : Type)
  | void
  | nullptr
  | job (job : J)
  | undefined               -- read through a reference that is not valid
  | size (n : ℕ)
  deriving DecidableEq, Repr

/-- What a thread does next: a call, or `pthread_join`. -/
inductive Cmd (T J I : Type)
  | op (o : Op J I)
  | join (u : T)
  deriving DecidableEq, Repr

/-- The function locks for writing. -/
def Op.writes : Op J I → Bool
  | .pushFront _ | .pushBack _ | .remove _ => true
  | .find _ | .size => false

/-- What is seen from outside. -/
inductive Event (T J I : Type)
  | call (t : T) (o : Op J I)
  | ret (t : T) (o : Op J I) (r : Ret J)
  deriving DecidableEq, Repr

/-! ### The class -/

/-- Where a thread is. -/
inductive Pc (J I : Type)
  | idle
  | lock (o : Op J I)                     -- pthread_rwlock_wrlock or rdlock
  | body (o : Op J I) (k : ℕ)             -- at element k of a loop
  | erase (job : J) (k : ℕ)               -- job_queue.erase(it)
  | unlock (o : Op J I) (r : Ret J)       -- pthread_rwlock_unlock; return
  | unlockFound (id : I) (ref : ℕ)        -- pthread_rwlock_unlock in the loop of find
  | copy (id : I) (ref : ℕ)               -- return job
  | ret (o : Op J I) (r : Ret J)
  deriving DecidableEq, Repr

/-- The deque, with the reference of each element, the lock and the threads. -/
structure State (T J I : Type) where
  queue : List (ℕ × J)
  fresh : ℕ
  lock : Lock T
  pc : T → Pc J I
  todo : T → List (Cmd T J I)

/-- `std::deque::erase` of element `k`. -/
def eraseAt (q : List (ℕ × J)) (fresh k : ℕ) : List (ℕ × J) :=
  if k = 0 ∨ k + 1 = q.length then q.eraseIdx k
  else ((q.eraseIdx k).zipIdx fresh).map fun p => (p.2, p.1.2)

section Machines

variable [DecidableEq T] [DecidableEq J] [DecidableEq I]

/-- Thread `t` goes on to `p`. -/
def State.goto (s : State T J I) (t : T) (p : Pc J I) : State T J I :=
  { s with pc := Function.update s.pc t p }

/-- One step of a member function, under the lock. -/
def bodyStep (id : J → I) (s : State T J I) (t : T) : Op J I → ℕ → State T J I
  | .pushFront job, _ =>
      { s.goto t (.unlock (.pushFront job) .void) with
        queue := (s.fresh, job) :: s.queue, fresh := s.fresh + 1 }
  | .pushBack job, _ =>
      { s.goto t (.unlock (.pushBack job) .void) with
        queue := s.queue ++ [(s.fresh, job)], fresh := s.fresh + 1 }
  | .remove job, k =>
      match s.queue[k]? with
      | none => s.goto t (.unlock (.remove job) .void)
      | some p => s.goto t (if p.2 = job then .erase job k else .body (.remove job) (k + 1))
  | .find i, k =>
      match s.queue[k]? with
      | none => s.goto t (.unlock (.find i) .nullptr)
      | some p => s.goto t (if id p.2 = i then .unlockFound i p.1 else .body (.find i) (k + 1))
  | .size, _ => s.goto t (.unlock .size (.size s.queue.length))

/-- The thread has no call left. -/
def State.finished (s : State T J I) (u : T) : Bool :=
  match s.pc u, s.todo u with
  | .idle, [] => true
  | _, _ => false

/-- One step of thread `t`. -/
def step (id : J → I) (s : State T J I) (t : T) : Option (State T J I) :=
  match s.pc t with
  | .idle =>
      match s.todo t with
      | [] => none
      | .op o :: rest => some { s.goto t (.lock o) with todo := Function.update s.todo t rest }
      | .join u :: rest =>
          if s.finished u then some { s with todo := Function.update s.todo t rest } else none
  | .lock o =>
      (if o.writes then s.lock.wrlock t else s.lock.rdlock t).map fun l =>
        { s.goto t (.body o 0) with lock := l }
  | .body o k => some (bodyStep id s t o k)
  | .erase job k =>
      some { s.goto t (.unlock (.remove job) .void) with
        queue := eraseAt s.queue s.fresh k, fresh := s.fresh + s.queue.length }
  | .unlock o r => some { s.goto t (.ret o r) with lock := s.lock.unlock t }
  | .unlockFound i ref => some { s.goto t (.copy i ref) with lock := s.lock.unlock t }
  | .copy i ref =>
      some (s.goto t (.ret (.find i)
        (match s.queue.find? (·.1 = ref) with
          | some p => .job p.2
          | none => .undefined)))
  | .ret _ _ => some (s.goto t .idle)

/-- What is seen of a step. -/
def visible (s : State T J I) (t : T) : List (Event T J I) :=
  match s.pc t with
  | .idle =>
      match s.todo t with
      | .op o :: _ => [.call t o]
      | _ => []
  | .ret o r => [.ret t o r]
  | _ => []

/-- The threads with their scripts, and an empty queue. -/
def initState (script : T → List (Cmd T J I)) : State T J I where
  queue := []
  fresh := 0
  lock := Lock.free
  pc _ := .idle
  todo := script

def threads (id : J → I) (script : T → List (Cmd T J I)) : Machine (State T J I) T where
  init s := s = initState script
  next := step id

/-! ### What it is for -/

/-- The effect and the result of a call on a plain list of jobs. -/
def Op.apply (id : J → I) : Op J I → List J → List J × Ret J
  | .pushFront job, l => (job :: l, .void)
  | .pushBack job, l => (l ++ [job], .void)
  | .remove job, l => (l.erase job, .void)
  | .find i, l =>
      (l, match l.find? (id · = i) with
        | some job => .job job
        | none => .nullptr)
  | .size, l => (l, .size l.length)

/-- A call that has not begun, has begun, or has had its effect and result.  It is stale if an
element was erased after that. -/
inductive Phase (J I : Type)
  | idle
  | called (o : Op J I)
  | done (o : Op J I) (r : Ret J) (stale : Bool)
  deriving DecidableEq, Repr

def Phase.outdate : Phase J I → Phase J I
  | .done o r _ => .done o r true
  | p => p

structure Spec (T J I : Type) where
  jobs : List J
  phase : T → Phase J I
  todo : T → List (Cmd T J I)

inductive SpecAct (T J : Type)
  | call (t : T)
  | join (t : T)
  | effect (t : T)
  | ret (t : T) (r : Ret J)

/-- The results that a call may return. -/
def Op.mayReturn (o : Op J I) (r : Ret J) (stale : Bool) (r' : Ret J) : Prop :=
  r' = r ∨ stale = true ∧ (∃ i, o = .find i) ∧ r' = .undefined

instance (o : Op J I) : Decidable (∃ i, o = .find i) :=
  match o with
  | .find i => .isTrue ⟨i, rfl⟩
  | .pushFront _ => .isFalse nofun
  | .pushBack _ => .isFalse nofun
  | .remove _ => .isFalse nofun
  | .size => .isFalse nofun

instance (o : Op J I) (r : Ret J) (stale : Bool) (r' : Ret J) : Decidable (o.mayReturn r stale r') :=
  inferInstanceAs (Decidable (_ ∨ _ ∧ _ ∧ _))

/-- One step of the specification. -/
def specStep (id : J → I) (s : Spec T J I) : SpecAct T J → Option (Spec T J I)
  | .call t =>
      match s.phase t, s.todo t with
      | .idle, .op o :: rest =>
          some { s with
            phase := Function.update s.phase t (.called o), todo := Function.update s.todo t rest }
      | _, _ => none
  | .join t =>
      match s.phase t, s.todo t with
      | .idle, .join u :: rest =>
          if s.phase u = .idle ∧ s.todo u = [] then
            some { s with todo := Function.update s.todo t rest }
          else none
      | _, _ => none
  | .effect t =>
      match s.phase t with
      | .called o =>
          let (jobs, r) := o.apply id s.jobs
          some { s with
            jobs := jobs
            phase := Function.update
              (if jobs.length < s.jobs.length then fun u => (s.phase u).outdate else s.phase) t
              (.done o r false) }
      | _ => none
  | .ret t r' =>
      match s.phase t with
      | .done o r stale =>
          if o.mayReturn r stale r' then
            some { s with phase := Function.update s.phase t .idle }
          else none
      | _ => none

/-- What is seen of a step. -/
def Spec.visible (s : Spec T J I) : SpecAct T J → List (Event T J I)
  | .call t =>
      match s.todo t with
      | .op o :: _ => [.call t o]
      | _ => []
  | .ret t r =>
      match s.phase t with
      | .done o _ _ => [.ret t o r]
      | _ => []
  | _ => []

/-- The specification: each call has its effect at one moment. -/
def spec (id : J → I) (script : T → List (Cmd T J I)) : Machine (Spec T J I) (SpecAct T J) where
  init s := s = ⟨[], fun _ => .idle, script⟩
  next := specStep id

end Machines

/-! ### References -/

variable {q q' : List (ℕ × J)} {fresh fresh' k ref : ℕ} {job : J} {id : J → I}

theorem map_snd_eraseAt (q : List (ℕ × J)) (fresh k : ℕ) :
    (eraseAt q fresh k).map Prod.snd = (q.eraseIdx k).map Prod.snd := by
  unfold eraseAt
  split
  · rfl
  · have hfst := congrArg (List.map Prod.snd) (List.zipIdx_map_fst fresh (q.eraseIdx k))
    rw [List.map_map] at hfst ⊢
    exact hfst

/-- Every element has a reference of its own, which was given out before. -/
structure Fresh (q : List (ℕ × J)) (fresh : ℕ) : Prop where
  nodup : (q.map Prod.fst).Nodup
  lt : ∀ p ∈ q, p.1 < fresh

/-- How the deque may change: elements are put in with new references, or erased. -/
structure Changes (q : List (ℕ × J)) (fresh : ℕ) (q' : List (ℕ × J)) (fresh' : ℕ)
    (erased : Bool) : Prop where
  le : fresh ≤ fresh'
  old : ∀ p ∈ q', p ∈ q ∨ fresh ≤ p.1
  kept : erased = false → ∀ p ∈ q, p ∈ q'

theorem fresh_nil : Fresh ([] : List (ℕ × J)) 0 := ⟨List.nodup_nil, nofun⟩

theorem Fresh.pushFront (h : Fresh q fresh) (job : J) :
    Fresh ((fresh, job) :: q) (fresh + 1) ∧
      Changes q fresh ((fresh, job) :: q) (fresh + 1) false := by
  refine ⟨⟨?_, ?_⟩, ⟨Nat.le_succ _, ?_, fun _ p hp => List.mem_cons_of_mem _ hp⟩⟩
  · rw [List.map_cons, List.nodup_cons]
    refine ⟨fun hmem => ?_, h.nodup⟩
    obtain ⟨p, hp, heq⟩ := List.mem_map.mp hmem
    exact absurd (h.lt p hp) (by omega)
  · intro p hp
    rcases List.mem_cons.mp hp with rfl | hp
    · exact Nat.lt_succ_self _
    · exact Nat.lt_succ_of_lt (h.lt p hp)
  · intro p hp
    rcases List.mem_cons.mp hp with rfl | hp
    · exact .inr (Nat.le_refl _)
    · exact .inl hp

theorem Fresh.pushBack (h : Fresh q fresh) (job : J) :
    Fresh (q ++ [(fresh, job)]) (fresh + 1) ∧
      Changes q fresh (q ++ [(fresh, job)]) (fresh + 1) false := by
  have hperm : (q ++ [(fresh, job)]).Perm ((fresh, job) :: q) := List.perm_append_singleton _ _
  obtain ⟨hfresh, hchanges⟩ := h.pushFront job
  refine ⟨⟨?_, fun p hp => hfresh.lt p (hperm.mem_iff.mp hp)⟩, hchanges.le,
    fun p hp => hchanges.old p (hperm.mem_iff.mp hp),
    fun _ p hp => List.mem_append_left _ hp⟩
  exact (hperm.map Prod.fst).nodup_iff.mpr hfresh.nodup

theorem Fresh.eraseAt (h : Fresh q fresh) (k : ℕ) :
    Fresh (eraseAt q fresh k) (fresh + q.length) ∧
      Changes q fresh (eraseAt q fresh k) (fresh + q.length) true := by
  have hsub := List.eraseIdx_sublist q k
  unfold DequeRwlock.eraseAt
  split
  · refine ⟨⟨(hsub.map Prod.fst).nodup h.nodup, fun p hp => ?_⟩, Nat.le_add_right _ _, ?_, nofun⟩
    · exact Nat.lt_of_lt_of_le (h.lt p (hsub.subset hp)) (Nat.le_add_right _ _)
    · exact fun p hp => .inl (hsub.subset hp)
  · have hmem : ∀ p ∈ ((q.eraseIdx k).zipIdx fresh).map fun p => (p.2, p.1.2),
        fresh ≤ p.1 ∧ p.1 < fresh + q.length := by
      intro p hp
      obtain ⟨⟨x, i⟩, hx, rfl⟩ := List.mem_map.mp hp
      obtain ⟨hle, hlt, -⟩ := List.mem_zipIdx hx
      exact ⟨hle, Nat.lt_of_lt_of_le hlt (Nat.add_le_add_left hsub.length_le _)⟩
    refine ⟨⟨?_, fun p hp => (hmem p hp).2⟩, Nat.le_add_right _ _, ?_, nofun⟩
    · have hsnd := List.zipIdx_map_snd fresh (q.eraseIdx k)
      rw [List.map_map]
      exact hsnd ▸ List.nodup_range'
    · exact fun p hp => .inr (hmem p hp).1

theorem Fresh.unique {p p' : ℕ × J} (h : Fresh q fresh) (hp : p ∈ q) (hp' : p' ∈ q)
    (heq : p.1 = p'.1) : p = p' :=
  List.inj_on_of_nodup_map h.nodup hp hp' heq

/-! ### Where a thread is, and what its call has come to -/

/-- The elements before `k` are not the one that a loop looks for. -/
def Scanned (id : J → I) (q : List (ℕ × J)) : Op J I → ℕ → Prop
  | .remove job, k => ∀ p ∈ q.take k, p.2 ≠ job
  | .find i, k => ∀ p ∈ q.take k, id p.2 ≠ i
  | _, _ => True

/-- The loop goes on. -/
theorem forall_mem_take_succ {P : ℕ × J → Prop} {p : ℕ × J} (h : ∀ x ∈ q.take k, P x)
    (hk : q[k]? = some p) (hp : P p) : ∀ x ∈ q.take (k + 1), P x := by
  intro x hx
  rw [List.take_add_one, hk] at hx
  rcases List.mem_append.mp hx with hx | hx
  · exact h x hx
  · obtain rfl := List.mem_singleton.mp hx
    exact hp

/-- The loop is over. -/
theorem forall_mem_of_take {P : ℕ × J → Prop} (h : ∀ x ∈ q.take k, P x) (hk : q[k]? = none) :
    ∀ x ∈ q, P x := by
  rwa [List.take_of_length_le (List.getElem?_eq_none_iff.mp hk)] at h

/-- The deque around an element. -/
theorem eq_take_append {p : ℕ × J} (hk : q[k]? = some p) : q = q.take k ++ p :: q.drop (k + 1) := by
  obtain ⟨hlt, rfl⟩ := List.getElem?_eq_some_iff.mp hk
  rw [List.getElem_cons_drop, List.take_append_drop]

theorem not_mem_of_scanned (hscanned : Scanned id q (.remove job) k) (hk : q[k]? = none) :
    job ∉ q.map Prod.snd := by
  intro hmem
  obtain ⟨p, hp, rfl⟩ := List.mem_map.mp hmem
  exact forall_mem_of_take hscanned hk p hp rfl

/-- `std::find` has stopped at the first occurrence. -/
theorem erase_of_scanned [DecidableEq J] {p : ℕ × J} (hscanned : Scanned id q (.remove p.2) k)
    (hk : q[k]? = some p) : (q.map Prod.snd).erase p.2 = (q.eraseIdx k).map Prod.snd := by
  have hnot : p.2 ∉ (q.take k).map Prod.snd := by
    intro hmem
    obtain ⟨x, hx, heq⟩ := List.mem_map.mp hmem
    exact hscanned x hx heq
  rw [List.eraseIdx_eq_take_drop_succ, List.map_append]
  nth_rewrite 1 [eq_take_append hk]
  rw [List.map_append, List.map_cons, List.erase_append_right _ hnot, List.erase_cons_head]

theorem find?_eq_none_of_scanned [DecidableEq I] {i : I} (hscanned : Scanned id q (.find i) k)
    (hk : q[k]? = none) : (q.map Prod.snd).find? (id · = i) = none := by
  rw [List.find?_eq_none]
  intro j hj
  obtain ⟨p, hp, rfl⟩ := List.mem_map.mp hj
  exact fun hfound => forall_mem_of_take hscanned hk p hp (of_decide_eq_true hfound)

/-- The loop of `find` has stopped at the first job of the thread. -/
theorem find?_of_scanned [DecidableEq I] {i : I} {p : ℕ × J} (hscanned : Scanned id q (.find i) k)
    (hk : q[k]? = some p) (hp : id p.2 = i) : (q.map Prod.snd).find? (id · = i) = some p.2 := by
  have hnone : ((q.take k).map Prod.snd).find? (id · = i) = none := by
    rw [List.find?_eq_none]
    intro j hj
    obtain ⟨x, hx, rfl⟩ := List.mem_map.mp hj
    exact fun hfound => hscanned x hx (of_decide_eq_true hfound)
  rw [eq_take_append hk, List.map_append, List.find?_append, hnone, List.map_cons,
    List.find?_cons_of_pos (p := fun x => decide (id x = i)) (decide_eq_true hp)]
  rfl

/-- A reference to `job`: valid, unless an element was erased. -/
structure Refers (q : List (ℕ × J)) (fresh ref : ℕ) (job : J) (stale : Bool) : Prop where
  old : ref < fresh
  same : ∀ p ∈ q, p.1 = ref → p.2 = job
  valid : stale = false → (ref, job) ∈ q

inductive At (id : J → I) (q : List (ℕ × J)) (fresh : ℕ) : Pc J I → Phase J I → Prop
  | idle : At id q fresh .idle .idle
  | lock {o : Op J I} : At id q fresh (.lock o) (.called o)
  | body {o : Op J I} {n : ℕ} : Scanned id q o n → At id q fresh (.body o n) (.called o)
  | erase {j : J} {n : ℕ} : (q[n]?.map Prod.snd = some j) → Scanned id q (.remove j) n →
      At id q fresh (.erase j n) (.called (.remove j))
  | unlock {o : Op J I} {r : Ret J} {stale : Bool} : At id q fresh (.unlock o r) (.done o r stale)
  | unlockFound {i : I} {n : ℕ} {j : J} {stale : Bool} : Refers q fresh n j stale →
      At id q fresh (.unlockFound i n) (.done (.find i) (.job j) stale)
  | copy {i : I} {n : ℕ} {j : J} {stale : Bool} : Refers q fresh n j stale →
      At id q fresh (.copy i n) (.done (.find i) (.job j) stale)
  | ret {o : Op J I} {r r' : Ret J} {stale : Bool} : o.mayReturn r stale r' →
      At id q fresh (.ret o r') (.done o r stale)

/-- The thread holds the lock for reading. -/
def Pc.reads : Pc J I → Bool
  | .body o _ | .unlock o _ => !o.writes
  | .unlockFound _ _ => true
  | _ => false

/-- The thread holds the lock for writing. -/
def Pc.writes : Pc J I → Bool
  | .body o _ | .unlock o _ => o.writes
  | .erase _ _ => true
  | _ => false

/-- The class and the specification side by side. -/
structure Rel (id : J → I) (s : State T J I) (a : Spec T J I) : Prop where
  jobs : a.jobs = s.queue.map Prod.snd
  todo : a.todo = s.todo
  fresh : Fresh s.queue s.fresh
  lock : Agrees s.lock Pc.reads Pc.writes s.pc
  pc : ∀ t, At id s.queue s.fresh (s.pc t) (a.phase t)

theorem Rel.called_of_body {s : State T J I} {a : Spec T J I} {t : T} {o : Op J I}
    (h : Rel id s a) (hpc : s.pc t = .body o k) :
    a.phase t = .called o ∧ Scanned id s.queue o k := by
  have hat := h.pc t
  rw [hpc] at hat
  generalize a.phase t = ph at hat
  cases hat with
  | body hscanned => exact ⟨rfl, hscanned⟩

theorem Rel.idle {s : State T J I} {a : Spec T J I} {t : T} (h : Rel id s a)
    (hpc : s.pc t = .idle) : a.phase t = .idle := by
  have hat := h.pc t
  rw [hpc] at hat
  generalize a.phase t = ph at hat
  cases hat with
  | idle => rfl

/-- The scripts are the same on both sides. -/
theorem Rel.setTodo {s : State T J I} {a : Spec T J I} (h : Rel id s a)
    (todo : T → List (Cmd T J I)) : Rel id { s with todo := todo } { a with todo := todo } :=
  ⟨h.jobs, rfl, h.fresh, h.lock, h.pc⟩

theorem Refers.change {stale erased : Bool} (h : Refers q fresh ref job stale)
    (hchanges : Changes q fresh q' fresh' erased) :
    Refers q' fresh' ref job (stale || erased) where
  old := Nat.lt_of_lt_of_le h.old hchanges.le
  same := by
    rintro p hp rfl
    rcases hchanges.old p hp with hp | hle
    · exact h.same p hp rfl
    · exact absurd h.old (Nat.not_lt.mpr hle)
  valid := by
    intro hfalse
    obtain ⟨hstale, herased⟩ := Bool.or_eq_false_iff.mp hfalse
    exact hchanges.kept herased _ (h.valid hstale)

/-- What `find` reads through its reference. -/
theorem mayReturn_copy {i : I} {stale : Bool} (h : Refers q fresh ref job stale) :
    (Op.find i : Op J I).mayReturn (.job job) stale
      (match q.find? (·.1 = ref) with
        | some p => .job p.2
        | none => .undefined) := by
  split
  case h_1 p hp =>
      have href := List.find?_some hp
      rw [h.same p (List.mem_of_find?_eq_some hp) (of_decide_eq_true href)]
      exact .inl rfl
  case h_2 hnone =>
      refine .inr ⟨eq_true_of_ne_false fun hvalid => ?_, ⟨i, rfl⟩, rfl⟩
      exact List.find?_eq_none.mp hnone _ (h.valid hvalid) (decide_eq_true rfl)

/-- A call after another thread has changed the deque. -/
def Phase.after (erased : Bool) (p : Phase J I) : Phase J I := if erased then p.outdate else p

theorem after_done (o : Op J I) (r : Ret J) (stale erased : Bool) :
    (Phase.done o r stale).after erased = .done o r (stale || erased) := by
  cases erased <;> simp [Phase.after, Phase.outdate]

theorem Op.mayReturn.or {o : Op J I} {r r' : Ret J} {stale : Bool} (h : o.mayReturn r stale r')
    (erased : Bool) : o.mayReturn r (stale || erased) r' := by
  rcases h with heq | ⟨hstale, hfind⟩
  · exact .inl heq
  · exact .inr ⟨by rw [hstale, Bool.true_or], hfind⟩

/-- A thread outside the lock does not mind what happens to the deque. -/
theorem At.change {p : Pc J I} {ph : Phase J I} {erased : Bool} (h : At id q fresh p ph)
    (hreads : p.reads = false) (hwrites : p.writes = false)
    (hchanges : Changes q fresh q' fresh' erased) : At id q' fresh' p (ph.after erased) := by
  cases h with
  | idle => cases erased <;> exact .idle
  | lock => cases erased <;> exact .lock
  | @body o n _ =>
      have hneg : (!o.writes) = false := hreads
      rw [show o.writes = false from hwrites] at hneg
      exact nomatch hneg
  | erase => exact nomatch hwrites
  | unlock =>
      rw [after_done]
      exact .unlock
  | unlockFound => exact nomatch hreads
  | copy hrefers =>
      rw [after_done]
      exact .copy (hrefers.change hchanges)
  | ret hmay =>
      rw [after_done]
      exact .ret (hmay.or erased)

/-! ### Every step is a step of the specification, or not seen -/

section Steps

variable [DecidableEq T] {s s' : State T J I} {a : Spec T J I} {t : T} {o : Op J I} {r : Ret J}

/-- A thread moves, with the deque as it is. -/
theorem Rel.move {p : Pc J I} {ph : Phase J I} {l : Lock T} (h : Rel id s a)
    (hlock : Agrees l Pc.reads Pc.writes (Function.update s.pc t p))
    (hat : At id s.queue s.fresh p ph) :
    Rel id { s.goto t p with lock := l } { a with phase := Function.update a.phase t ph } where
  jobs := h.jobs
  todo := h.todo
  fresh := h.fresh
  lock := hlock
  pc := by
    intro u
    show At id s.queue s.fresh (Function.update s.pc t p u) (Function.update a.phase t ph u)
    rcases eq_or_ne u t with rfl | hne
    · rwa [Function.update_self, Function.update_self]
    · rw [Function.update_of_ne hne, Function.update_of_ne hne]
      exact h.pc u

/-- A step that is not seen. -/
theorem Rel.stutter {p : Pc J I} {l : Lock T} (h : Rel id s a)
    (hlock : Agrees l Pc.reads Pc.writes (Function.update s.pc t p))
    (hat : At id s.queue s.fresh p (a.phase t)) : Rel id { s.goto t p with lock := l } a := by
  have hmove := h.move hlock hat
  rwa [Function.update_eq_self] at hmove

/-- The effect of a call, by a thread that holds the lock for writing. -/
theorem Rel.effect {erased : Bool} (h : Rel id s a) (hwrites : (s.pc t).writes = true)
    (hreads : (s.pc t).reads = false) (ho : o.writes = true)
    (hfresh : Fresh q' fresh') (hchanges : Changes s.queue s.fresh q' fresh' erased) :
    Rel id { s.goto t (.unlock o r) with queue := q', fresh := fresh' }
      { a with
        jobs := q'.map Prod.snd
        phase := Function.update (fun u => (a.phase u).after erased) t (.done o r false) } where
  jobs := rfl
  todo := h.todo
  fresh := hfresh
  lock := by
    refine h.lock.keep ?_ ?_
    · rw [hreads]
      show (!o.writes) = false
      rw [ho]
      rfl
    · rw [hwrites]
      exact ho
  pc := by
    intro u
    show At id q' fresh' (Function.update s.pc t (.unlock o r) u)
      (Function.update (fun u => (a.phase u).after erased) t (.done o r false) u)
    rcases eq_or_ne u t with rfl | hne
    · rw [Function.update_self, Function.update_self]
      exact .unlock
    · rw [Function.update_of_ne hne, Function.update_of_ne hne]
      obtain ⟨hureads, huwrites⟩ := h.lock.alone hwrites hne
      exact (h.pc u).change hureads huwrites hchanges

variable [DecidableEq J] [DecidableEq I]

theorem specStep_effect {jobs : List J} (hphase : a.phase t = .called o)
    (happly : o.apply id a.jobs = (jobs, r)) :
    specStep id a (.effect t) = some { a with
      jobs := jobs
      phase := Function.update
        (fun u => (a.phase u).after (decide (jobs.length < a.jobs.length))) t (.done o r false) } := by
  rw [specStep, hphase]
  simp only [happly]
  congr 3
  split
  case isTrue hlt =>
      funext u
      rw [decide_eq_true hlt]
      rfl
  case isFalse hge =>
      funext u
      rw [decide_eq_false hge]
      rfl

/-- What a step of the specification can do. -/
theorem specStep_call {a' : Spec T J I} (hs : specStep id a (.call t) = some a') :
    a.phase t = .idle ∧ ∃ o rest, a.todo t = .op o :: rest ∧ a' = { a with
      phase := Function.update a.phase t (.called o), todo := Function.update a.todo t rest } := by
  unfold specStep at hs
  dsimp only at hs
  split at hs
  case h_1 o rest hphase htodo => exact ⟨hphase, o, rest, htodo, (Option.some.inj hs).symm⟩
  case h_2 => exact nomatch hs

theorem specStep_join {a' : Spec T J I} (hs : specStep id a (.join t) = some a') :
    a.phase t = .idle ∧ ∃ u rest, a.todo t = .join u :: rest ∧ a.phase u = .idle ∧ a.todo u = [] ∧
      a' = { a with todo := Function.update a.todo t rest } := by
  unfold specStep at hs
  dsimp only at hs
  split at hs
  case h_1 u rest hphase htodo =>
      obtain ⟨hu, hs⟩ := Option.ite_none_right_eq_some.mp hs
      exact ⟨hphase, u, rest, htodo, hu.1, hu.2, (Option.some.inj hs).symm⟩
  case h_2 => exact nomatch hs

theorem specStep_effect_cases {a' : Spec T J I} (hs : specStep id a (.effect t) = some a') :
    ∃ o erased, a.phase t = .called o ∧ a' = { a with
      jobs := (o.apply id a.jobs).1
      phase := Function.update (fun u => (a.phase u).after erased) t
        (.done o (o.apply id a.jobs).2 false) } := by
  rcases hphase : a.phase t with _ | o | _
  · rw [specStep, hphase] at hs
    exact nomatch hs
  · rw [specStep_effect hphase rfl] at hs
    exact ⟨o, _, rfl, (Option.some.inj hs).symm⟩
  · rw [specStep, hphase] at hs
    exact nomatch hs

theorem specStep_ret {a' : Spec T J I} (hs : specStep id a (.ret t r) = some a') :
    ∃ o r₀ stale, a.phase t = .done o r₀ stale ∧ o.mayReturn r₀ stale r ∧
      a' = { a with phase := Function.update a.phase t .idle } := by
  unfold specStep at hs
  dsimp only at hs
  split at hs
  case h_1 o r₀ stale hphase =>
      obtain ⟨hmay, hs⟩ := Option.ite_none_right_eq_some.mp hs
      exact ⟨o, r₀, stale, hphase, hmay, (Option.some.inj hs).symm⟩
  case h_2 => exact nomatch hs

/-- A call that leaves the deque as it is takes effect. -/
theorem Rel.effect_same {p : Pc J I} (h : Rel id s a) (hphase : a.phase t = .called o)
    (happly : o.apply id a.jobs = (a.jobs, r)) (hreads : p.reads = (s.pc t).reads)
    (hwrites : p.writes = (s.pc t).writes) (hat : At id s.queue s.fresh p (.done o r false)) :
    ∃ a', specStep id a (.effect t) = some a' ∧ Rel id (s.goto t p) a' := by
  refine ⟨_, specStep_effect hphase happly, ?_⟩
  have hsame : decide (a.jobs.length < a.jobs.length) = false := decide_eq_false (Nat.lt_irrefl _)
  rw [hsame]
  exact h.move (h.lock.keep hreads hwrites) hat

/-- A call that changes the deque takes effect. -/
theorem Rel.effect_change {erased : Bool} (h : Rel id s a) (hphase : a.phase t = .called o)
    (happly : o.apply id a.jobs = (q'.map Prod.snd, r)) (hwrites : (s.pc t).writes = true)
    (hreads : (s.pc t).reads = false) (ho : o.writes = true)
    (hnew : Fresh q' fresh' ∧ Changes s.queue s.fresh q' fresh' erased)
    (herased : decide (q'.length < s.queue.length) = erased) :
    ∃ a', specStep id a (.effect t) = some a' ∧
      Rel id { s.goto t (.unlock o r) with queue := q', fresh := fresh' } a' := by
  refine ⟨_, specStep_effect hphase happly, ?_⟩
  have hlength : decide ((q'.map Prod.snd).length < a.jobs.length) = erased := by
    rw [h.jobs, List.length_map, List.length_map]
    exact herased
  rw [hlength]
  exact h.effect hwrites hreads ho hnew.1 hnew.2

theorem rel_body (h : Rel id s a) (hpc : s.pc t = .body o k) :
    Rel id (bodyStep id s t o k) a ∨
      ∃ a', specStep id a (.effect t) = some a' ∧ Rel id (bodyStep id s t o k) a' := by
  obtain ⟨hphase, hscanned⟩ := h.called_of_body hpc
  cases o with
  | pushFront job =>
      refine .inr (h.effect_change hphase ?_ (by rw [hpc]; rfl) (by rw [hpc]; rfl) rfl
        (h.fresh.pushFront job) (by simp))
      rw [h.jobs]
      rfl
  | pushBack job =>
      refine .inr (h.effect_change hphase ?_ (by rw [hpc]; rfl) (by rw [hpc]; rfl) rfl
        (h.fresh.pushBack job) (by simp))
      rw [h.jobs, List.map_append]
      rfl
  | remove job =>
      rcases hk : s.queue[k]? with _ | p
      · simp only [bodyStep, hk]
        refine .inr (h.effect_same hphase ?_ (by rw [hpc]; rfl) (by rw [hpc]; rfl) .unlock)
        rw [h.jobs, Op.apply, List.erase_of_not_mem (not_mem_of_scanned hscanned hk)]
      · simp only [bodyStep, hk]
        refine .inl (h.stutter (h.lock.keep ?_ ?_) ?_)
        · rw [hpc]
          split <;> rfl
        · rw [hpc]
          split <;> rfl
        · rw [hphase]
          split
          case isTrue heq =>
              refine .erase ?_ hscanned
              rw [hk, ← heq]
              rfl
          case isFalse hne => exact .body (forall_mem_take_succ hscanned hk hne)
  | find i =>
      rcases hk : s.queue[k]? with _ | p
      · simp only [bodyStep, hk]
        refine .inr (h.effect_same hphase ?_ (by rw [hpc]; rfl) (by rw [hpc]; rfl) .unlock)
        rw [h.jobs, Op.apply, find?_eq_none_of_scanned hscanned hk]
      · simp only [bodyStep, hk]
        split
        case isTrue heq =>
            have hmem := List.mem_of_getElem? hk
            refine .inr (h.effect_same (r := .job p.2) hphase ?_ (by rw [hpc]; rfl)
              (by rw [hpc]; rfl) (.unlockFound ⟨h.fresh.lt p hmem, ?_, fun _ => hmem⟩))
            · rw [h.jobs, Op.apply, find?_of_scanned hscanned hk heq]
            · exact fun x hx href => congrArg Prod.snd (h.fresh.unique hx hmem href)
        case isFalse hne =>
            refine .inl (h.stutter (h.lock.keep (by rw [hpc]; rfl) (by rw [hpc]; rfl)) ?_)
            rw [hphase]
            exact .body (forall_mem_take_succ hscanned hk hne)
  | size =>
      refine .inr (h.effect_same hphase ?_ (by rw [hpc]; rfl) (by rw [hpc]; rfl) .unlock)
      rw [h.jobs, Op.apply, List.length_map]

theorem rel_erase (h : Rel id s a) (hpc : s.pc t = .erase job k) :
    ∃ a', specStep id a (.effect t) = some a' ∧
      Rel id { s.goto t (.unlock (.remove job) .void) with
        queue := eraseAt s.queue s.fresh k, fresh := s.fresh + s.queue.length } a' := by
  have hat := h.pc t
  rw [hpc] at hat
  generalize hphase : a.phase t = ph at hat
  cases hat with
  | erase hk hscanned =>
      obtain ⟨p, hp, rfl⟩ := Option.map_eq_some_iff.mp hk
      refine h.effect_change hphase ?_ (by rw [hpc]; rfl) (by rw [hpc]; rfl) rfl
        (h.fresh.eraseAt k) ?_
      · rw [h.jobs, Op.apply, map_snd_eraseAt, erase_of_scanned hscanned hp]
      · have hlt := (List.getElem?_eq_some_iff.mp hp).1
        have hlength := congrArg List.length (map_snd_eraseAt s.queue s.fresh k)
        rw [List.length_map, List.length_map, List.length_eraseIdx_of_lt hlt] at hlength
        rw [decide_eq_true_iff]
        omega

theorem rel_idle (h : Rel id s a) (hpc : s.pc t = .idle) (hs : step id s t = some s') :
    ∃ b a', specStep id a b = some a' ∧ a.visible b = visible s t ∧ Rel id s' a' := by
  have hphase := h.idle hpc
  rw [step, hpc] at hs
  dsimp only at hs
  rcases htodo : s.todo t with _ | ⟨o | u, rest⟩
  · rw [htodo] at hs
    exact nomatch hs
  · rw [htodo] at hs
    obtain rfl := Option.some.inj hs
    refine ⟨.call t, _, ?_, ?_, (h.move (h.lock.keep (by rw [hpc]; rfl) (by rw [hpc]; rfl))
      (.lock (o := o))).setTodo _⟩
    · rw [specStep, hphase, h.todo, htodo]
    · rw [Spec.visible, visible, hpc, h.todo, htodo]
  · rw [htodo] at hs
    obtain ⟨hfinished, hs⟩ := Option.ite_none_right_eq_some.mp hs
    obtain rfl := Option.some.inj hs
    have hu : a.phase u = .idle ∧ a.todo u = [] := by
      unfold State.finished at hfinished
      split at hfinished
      case h_1 hupc hutodo => exact ⟨h.idle hupc, by rw [h.todo, hutodo]⟩
      case h_2 => exact nomatch hfinished
    refine ⟨.join t, _, ?_, ?_, h.setTodo _⟩
    · rw [specStep, hphase, h.todo, htodo]
      dsimp only
      rw [← h.todo, if_pos hu]
    · show [] = visible s t
      rw [visible, hpc, htodo]

theorem rel_lock (h : Rel id s a) (hpc : s.pc t = .lock o) (hs : step id s t = some s') :
    Rel id s' a := by
  rw [step, hpc] at hs
  obtain ⟨l, hl, rfl⟩ := Option.map_eq_some_iff.mp hs
  have hat := h.pc t
  rw [hpc] at hat
  have hscanned : Scanned id s.queue o 0 := by
    cases o <;> simp [Scanned]
  refine h.stutter ?_ ?_
  · cases hw : o.writes
    · rw [hw] at hl
      refine h.lock.rdlock hl (by rw [hpc]; rfl) ?_ hw
      show (!o.writes) = true
      rw [hw]
      rfl
    · rw [hw] at hl
      refine h.lock.wrlock hl ?_ hw
      show (!o.writes) = false
      rw [hw]
      rfl
  · generalize a.phase t = ph at hat
    cases hat with
    | lock => exact .body hscanned

/-- **Every step is a step of the specification, or is not seen.** -/
theorem rel_step (h : Rel id s a) (hs : step id s t = some s') :
    visible s t = [] ∧ Rel id s' a ∨
      ∃ b a', specStep id a b = some a' ∧ a.visible b = visible s t ∧ Rel id s' a' := by
  rcases hpc : s.pc t with _ | o | ⟨o, k⟩ | ⟨job, k⟩ | ⟨o, r⟩ | ⟨i, ref⟩ | ⟨i, ref⟩ | ⟨o, r⟩
  · exact .inr (rel_idle h hpc hs)
  · exact .inl ⟨by rw [visible, hpc], rel_lock h hpc hs⟩
  · rw [step, hpc] at hs
    obtain rfl := Option.some.inj hs
    have hquiet : visible s t = [] := by rw [visible, hpc]
    rcases rel_body h hpc with hrel | ⟨a', ha', hrel⟩
    · exact .inl ⟨hquiet, hrel⟩
    · exact .inr ⟨.effect t, a', ha', hquiet.symm, hrel⟩
  · rw [step, hpc] at hs
    obtain rfl := Option.some.inj hs
    obtain ⟨a', ha', hrel⟩ := rel_erase h hpc
    exact .inr ⟨.effect t, a', ha', by rw [visible, hpc]; rfl, hrel⟩
  · rw [step, hpc] at hs
    obtain rfl := Option.some.inj hs
    have hat := h.pc t
    rw [hpc] at hat
    refine .inl ⟨by rw [visible, hpc], h.stutter (h.lock.unlock rfl rfl ?_) ?_⟩
    · rw [hpc]
      show (!o.writes) = true ∨ o.writes = true
      cases o.writes
      · exact .inl rfl
      · exact .inr rfl
    · generalize a.phase t = ph at hat
      cases hat with
      | unlock => exact .ret (.inl rfl)
  · rw [step, hpc] at hs
    obtain rfl := Option.some.inj hs
    have hat := h.pc t
    rw [hpc] at hat
    refine .inl ⟨by rw [visible, hpc], h.stutter (h.lock.unlock rfl rfl (.inl (by rw [hpc]; rfl))) ?_⟩
    generalize a.phase t = ph at hat
    cases hat with
    | unlockFound hrefers => exact .copy hrefers
  · rw [step, hpc] at hs
    obtain rfl := Option.some.inj hs
    have hat := h.pc t
    rw [hpc] at hat
    refine .inl ⟨by rw [visible, hpc],
      h.stutter (h.lock.keep (by rw [hpc]; rfl) (by rw [hpc]; rfl)) ?_⟩
    generalize a.phase t = ph at hat
    cases hat with
    | copy hrefers => exact .ret (mayReturn_copy hrefers)
  · rw [step, hpc] at hs
    obtain rfl := Option.some.inj hs
    have hat := h.pc t
    rw [hpc] at hat
    generalize hphase : a.phase t = ph at hat
    cases hat with
    | ret hmay =>
        refine .inr ⟨.ret t r, _, ?_, ?_, h.move (h.lock.keep (by rw [hpc]; rfl) (by rw [hpc]; rfl)) .idle⟩
        · rw [specStep, hphase]
          exact if_pos hmay
        · rw [Spec.visible, visible, hphase, hpc]

/-- Every history of the class is one of the specification. -/
theorem exists_rel {script : T → List (Cmd T J I)} {history : List (Event T J I)}
    (h : ((threads id script).recorded visible).Reach (s, history)) :
    ∃ a, ((spec id script).recorded Spec.visible).Reach (a, history) ∧ Rel id s a := by
  refine h.refines ?_ fun s a t s' => rel_step
  rintro s rfl
  refine ⟨_, rfl, rfl, rfl, fresh_nil, ?_, fun _ => .idle⟩
  exact agrees_free (fun _ => rfl) fun _ => rfl

/-- **The class is linearizable**, up to the copy in `find`: whatever the scripts and the
schedule, the calls and returns are those of a run of the specification, in which each call
has its effect at one moment, and the deque holds the jobs of that run. -/
theorem calls_linearizable {script : T → List (Cmd T J I)} {history : List (Event T J I)}
    (h : ((threads id script).recorded visible).Reach (s, history)) :
    ∃ a, ((spec id script).recorded Spec.visible).Reach (a, history) ∧
      a.jobs = s.queue.map Prod.snd := by
  obtain ⟨a, ha, hrel⟩ := exists_rel h
  exact ⟨a, ha, hrel.jobs⟩

end Steps

/-- Thread 1 looks for the job of thread 0, which takes it out before the pointer is copied. -/
def raceScript : Fin 2 → List (Cmd (Fin 2) ℕ ℕ)
  | 0 => [.op (.pushBack 7), .op (.remove 7)]
  | 1 => [.op (.find 7)]

theorem calls_linearizable_race : ∃ s history,
    ((threads (J := ℕ) (fun j => j) raceScript).recorded visible).Reach (s, history) ∧
      .ret 1 (.find 7) .undefined ∈ history ∧
      ∃ a, ((spec (J := ℕ) (fun j => j) raceScript).recorded Spec.visible).Reach (a, history) ∧
        a.jobs = s.queue.map Prod.snd := by
  have hrun : (((threads (J := ℕ) (fun j => j) raceScript).recorded visible).run
      (initState raceScript, []) [0, 0, 0, 0, 0, 1, 1, 1, 1, 0, 0, 0, 0, 1, 1]).map
        (fun p => decide (Event.ret 1 (.find 7) .undefined ∈ p.2)) = some true := by
    decide +kernel
  obtain ⟨⟨s, history⟩, hs, hmem⟩ := Option.map_eq_some_iff.mp hrun
  have hinit : ((threads (J := ℕ) (fun j => j) raceScript).recorded visible).init
      (initState raceScript, []) := ⟨rfl, rfl⟩
  have hreach := Machine.reach_of_run hinit hs
  exact ⟨s, history, hreach, of_decide_eq_true hmem, calls_linearizable hreach⟩

end Apue.DequeRwlock
