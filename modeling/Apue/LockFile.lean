/-
Apue/LockFile.lean

`already_running` of `lib/apue_daemon.cpp` and `lockfile` of `lib/apue_lock.cpp`: a daemon
that takes a record lock on its pid file, so that it runs only once.

    open(LOCKFILE, O_RDWR | O_CREAT);  F_SETLK;  ftruncate(fd, 0);  write the pid;  return 0
                                       close(fd);  return 1        if the lock is taken

Any number of processes call the function once each, in any interleaving of these calls, and
exit when they like, also in the middle; a pid may be used again after that.  The file holds
anything at first.

The holder of the lock is the only one that changes the file (`Inv`): it empties it and
appends its digits, so that a longer pid of an earlier holder leaves nothing behind.

Every call may fail, with the error exits of the source, except that writes do not fail in
`completeWrites`: a `write` that fails after a short one ends `writen` without an error.
-/
import Apue.ByteCodec
import Apue.ByteFile
import Apue.FileIO
import Apue.Machine
import Apue.RecordLock

namespace Apue.LockFile

open ByteCodec ByteFile FileIO RecordLock

/-! ### The function -/

/-- The next call of a process. -/
inductive Pc
  | openFile                    -- open(LOCKFILE, O_RDWR | O_CREAT, LOCKMODE)
  | setLk                       -- lockfile(fd)
  | close                       -- close(fd)
  | truncate                    -- ftruncate(fd, 0)
  | write (buf : List UInt8)    -- write(fd, buf, nleft)
  | returned (v : ℕ)
  | exited (msg : Option String)
  deriving DecidableEq, Repr

variable {T : Type*} [DecidableEq T]

/-- The processes and the file. -/
structure State (T : Type*) where
  pc : T → Pc
  /-- the offset of a process's descriptor -/
  off : T → ℕ
  /-- what is in the file, `none` before it is created -/
  file : Option (List UInt8)
  locks : Table T

/-- Process `x` continues at `p`. -/
def State.goto (s : State T) (x : T) (p : Pc) : State T :=
  { s with pc := Function.update s.pc x p }

/-- Process `x` exits: its locks are released. -/
def State.exit (s : State T) (x : T) (msg : Option String) : State T :=
  { s.goto x (.exited msg) with locks := release s.locks x }

/-- `lockfile`: `F_WRLCK`, `l_start` 0, `SEEK_SET`, `l_len` 0. -/
def lockfile (x : T) : Lock T := ⟨x, .write, ⟨0, 0⟩⟩

variable (pid : T → ℕ)

/-- The next call of process `x`, which goes as `o` says. -/
def call (s : State T) (x : T) (o : Outcome) : Option (State T) :=
  match s.pc x with
  | .openFile =>
      match o with
      | .fail => some (s.exit x (some "can't open %s: %s"))
      | .upTo _ =>
          some { s.goto x .setLk with
            file := some (s.file.getD [])
            off := Function.update s.off x 0 }
  | .setLk =>
      match o with
      | .fail => some (s.exit x (some "can't set block for %s: %s"))
      | .upTo _ =>
          match RecordLock.setLk s.locks (lockfile x) with
          | none => some (s.goto x .close)    -- EACCES or EAGAIN
          | some locks => some { s.goto x .truncate with locks := locks }
  | .close => some { s.goto x (.returned 1) with locks := release s.locks x }
  | .truncate =>
      match o with
      | .fail => some (s.exit x (some "ftruncate error"))
      | .upTo _ =>
          some { s.goto x (.write (toDec (pid x))) with file := s.file.map fun _ => [] }
  | .write buf =>
      match (write buf [o]).1 with
      | none =>
          -- `nullopt` only if nothing was written before
          if buf.length = (toDec (pid x)).length then some (s.exit x (some "call write"))
          else some (s.goto x (.returned 0))
      | some 0 => some (s.goto x (.returned 0))
      | some (k + 1) =>
          some { s.goto x (if buf.drop (k + 1) = [] then .returned 0 else .write (buf.drop (k + 1)))
            with
            file := s.file.map fun f => pwrite f (s.off x) (buf.take (k + 1))
            off := Function.update s.off x (s.off x + (k + 1)) }
  | .returned _ | .exited _ => none

/-- What can happen next. -/
inductive Action (T : Type*)
  | call (x : T) (o : Outcome)
  | exit (x : T)

/-- The process has exited. -/
def Pc.isExited : Pc → Bool
  | .exited _ => true
  | _ => false

/-- A call of a process, or its exit. -/
def next (s : State T) : Action T → Option (State T)
  | .call x o => call pid s x o
  | .exit x => if (s.pc x).isExited then none else some (s.exit x none)

/-- No process has called the function yet, and the file is whatever an earlier holder left. -/
def singleInstance : Machine (State T) (Action T) where
  init s := (∀ x, s.pc x = .openFile) ∧ s.locks = []
  next := next pid

/-- In the loop of `writen`. -/
def Pc.isWrite : Pc → Bool
  | .write _ => true
  | _ => false

/-- The call does not fail if it is a `write`. -/
def WriteOk (s : State T) : Action T → Prop
  | .call x o => (s.pc x).isWrite → o ≠ .fail
  | .exit _ => True

instance (s : State T) : DecidablePred (WriteOk s)
  | .call x o => inferInstanceAs (Decidable ((s.pc x).isWrite → o ≠ .fail))
  | .exit _ => inferInstanceAs (Decidable True)

/-- The system in which every write completes. -/
def completeWrites : Machine (State T) (Action T) := (singleInstance pid).restrict WriteOk

/-! ### The property -/

/-- Between `F_SETLK` and the exit of the process. -/
def Pc.inside : Pc → Bool
  | .truncate | .write _ | .returned 0 => true
  | _ => false

/-- Process `x` is alive and has acquired the lock. -/
def State.Holds (s : State T) (x : T) : Prop := (s.pc x).inside = true

/-- Another process holds the lock. -/
def State.HeldAgainst (s : State T) (x : T) : Prop := ∃ y, y ≠ x ∧ s.Holds y

/-- The process that acts. -/
def Action.proc : Action T → T
  | .call x _ => x
  | .exit x => x

/-- A run in which other processes hold the lock all the time; `k` calls of `x` in it. -/
inductive WhileHeld (x : T) : State T → ℕ → State T → Prop
  | refl {s : State T} : s.HeldAgainst x → WhileHeld x s 0 s
  | own {s t s' : State T} {c k : ℕ} : s.HeldAgainst x →
      (completeWrites pid).next s (.call x (.upTo c)) = some t → WhileHeld x t k s' →
      WhileHeld x s (k + 1) s'
  | other {s t s' : State T} {a : Action T} {k : ℕ} : s.HeldAgainst x → a.proc ≠ x →
      (completeWrites pid).next s a = some t → WhileHeld x t k s' → WhileHeld x s k s'

/-- Where a process is after `k` calls that find the lock taken. -/
def refusedPc : ℕ → Pc
  | 0 => .openFile
  | 1 => .setLk
  | 2 => .close
  | _ => .returned 1

/-- The function does what it is for. -/
structure SingleInstance : Prop where
  unique : ∀ s, (completeWrites pid).Reach s → ∀ x y, s.Holds x → s.Holds y → x = y
  refused : ∀ s, (completeWrites pid).Reach s → ∀ x k s', s.pc x = .openFile →
    WhileHeld pid x s k s' → s'.pc x = refusedPc k
  untouched : ∀ s, (completeWrites pid).Reach s → ∀ x o s', s.HeldAgainst x →
    (completeWrites pid).next s (.call x o) = some s' → s'.file = s.file
  returns : ∀ s x c, ∀ k < 3, s.pc x = refusedPc k →
    ∃ s', (completeWrites pid).next s (.call x (.upTo c)) = some s'
  content : ∀ s, (completeWrites pid).Reach s → ∀ x, s.pc x = .returned 0 →
    s.file = some (toDec (pid x))

/-! ### The invariant -/

/-- What a process at this program counter knows of its descriptor and of the file, where
`digits` are those of its pid. -/
inductive Fits (digits : List UInt8) (file : Option (List UInt8)) (off : ℕ) : Pc → Prop
  | openFile : Fits digits file off .openFile
  | setLk : file.isSome → off = 0 → Fits digits file off .setLk
  | close : Fits digits file off .close
  | truncate : file.isSome → off = 0 → Fits digits file off .truncate
  | write {done buf : List UInt8} : digits = done ++ buf → buf ≠ [] → file = some done →
      off = done.length → Fits digits file off (.write buf)
  | acquired : file = some digits → Fits digits file off (.returned 0)
  | refused : Fits digits file off (.returned 1)
  | exited {msg : Option String} : Fits digits file off (.exited msg)

/-- The processes that hold the lock are those in the table. -/
structure Guards (locks : Table T) (pc : T → Pc) : Prop where
  exclusive : Exclusive locks
  locked : ∀ x, (pc x).inside = true → lockfile x ∈ locks
  owner : ∀ l ∈ locks, (pc l.owner).inside = true

/-- **The invariant**: the table is right, and the file is as the holder has made it. -/
structure Inv (s : State T) : Prop where
  guards : Guards s.locks s.pc
  fits : ∀ x, Fits (toDec (pid x)) s.file (s.off x) (s.pc x)

section Steps

variable {pid} {s s' : State T} {x y : T} {p : Pc} {o : Outcome} {locks locks' : Table T}
  {pc : T → Pc}

/-! #### The table -/

omit [DecidableEq T] in
theorem lockfile_conflicts (h : x ≠ y) : (lockfile x).Conflicts (lockfile y) :=
  ⟨h, .inl rfl, .inl ⟨Nat.le_refl 0, .inl rfl⟩⟩

omit [DecidableEq T] in
/-- **At most one live process has acquired the lock.** -/
theorem Guards.unique (h : Guards locks pc) (hx : (pc x).inside = true)
    (hy : (pc y).inside = true) : x = y := by
  by_contra hne
  exact h.exclusive _ (h.locked x hx) _ (h.locked y hy) (lockfile_conflicts hne)

theorem Guards.keep (h : Guards locks pc) (hp : p.inside = (pc x).inside) :
    Guards locks (Function.update pc x p) := by
  have hinside : ∀ y, (Function.update pc x p y).inside = (pc y).inside :=
    (Function.forall_update_iff pc fun y q => q.inside = (pc y).inside).mpr ⟨hp, fun _ _ => rfl⟩
  refine ⟨h.exclusive, fun y hy => h.locked y ?_, fun l hl => ?_⟩
  · rw [← hinside]
    exact hy
  · rw [hinside]
    exact h.owner l hl

/-- `F_SETLK` has succeeded. -/
theorem Guards.acquire (h : Guards locks pc) (hs : setLk locks (lockfile x) = some locks')
    (hp : p.inside = true) : Guards locks' (Function.update pc x p) := by
  refine ⟨h.exclusive.setLk hs, ?_, fun l hl => ?_⟩
  · refine (Function.forall_update_iff pc fun y q => q.inside = true → lockfile y ∈ locks').mpr
      ⟨fun _ => mem_setLk hs, fun y hy hin => ?_⟩
    exact (mem_setLk_iff_of_ne hs hy).mpr (h.locked y hin)
  · by_cases howner : l.owner = x
    · rw [howner, Function.update_self]
      exact hp
    · rw [Function.update_of_ne howner]
      exact h.owner l ((mem_setLk_iff_of_ne hs howner).mp hl)

/-- The process closes the file, or exits. -/
theorem Guards.release (h : Guards locks pc) (hp : p.inside = false) :
    Guards (release locks x) (Function.update pc x p) := by
  refine ⟨h.exclusive.release x, ?_, fun l hl => ?_⟩
  · refine (Function.forall_update_iff pc
      fun y q => q.inside = true → lockfile y ∈ RecordLock.release locks x).mpr
      ⟨fun hin => ?_, fun y hy hin => mem_release.mpr ⟨h.locked y hin, hy⟩⟩
    rw [hp] at hin
    cases hin
  · obtain ⟨hmem, howner⟩ := mem_release.mp hl
    rw [Function.update_of_ne howner]
    exact h.owner l hmem

/-- `F_SETLK` fails exactly if another live process has acquired the lock. -/
theorem Guards.setLk_eq_none_iff (h : Guards locks pc) :
    setLk locks (lockfile x) = none ↔ ∃ y, y ≠ x ∧ (pc y).inside = true := by
  rw [RecordLock.setLk_eq_none_iff]
  constructor
  · rintro ⟨l, hl, hconf⟩
    exact ⟨l.owner, hconf.1.symm, h.owner l hl⟩
  · rintro ⟨y, hne, hy⟩
    exact ⟨lockfile y, h.locked y hy, lockfile_conflicts hne.symm⟩

/-! #### The file -/

/-- The file may change under a process that does not hold the lock. -/
theorem Fits.of_not_inside {digits : List UInt8} {file file' : Option (List UInt8)} {off : ℕ}
    (h : Fits digits file off p) (hp : p.inside = false) (hfile : file.isSome → file'.isSome) :
    Fits digits file' off p := by
  cases h with
  | openFile => exact .openFile
  | setLk hsome hoff => exact .setLk (hfile hsome) hoff
  | close => exact .close
  | truncate | write | acquired => cases hp
  | refused => exact .refused
  | exited => exact .exited

/-- While a process holds the lock, the file exists. -/
theorem Fits.isSome {digits : List UInt8} {file : Option (List UInt8)} {off : ℕ}
    (h : Fits digits file off p) (hp : p.inside = true) : file.isSome := by
  cases h with
  | openFile | setLk | close | refused | exited => cases hp
  | truncate hsome _ => exact hsome
  | write _ _ hfile _ => rw [hfile]; rfl
  | acquired hfile => rw [hfile]; rfl

/-- Process `x` moves to `p`.  It changes the file only if no other process holds the lock. -/
theorem fits_update (h : Inv pid s) (hsome : s.file.isSome → s'.file.isSome)
    (hfile : ∀ y, y ≠ x → s.Holds y → s'.file = s.file) (hoff : ∀ y, y ≠ x → s'.off y = s.off y)
    (hp : Fits (toDec (pid x)) s'.file (s'.off x) p) (y : T) :
    Fits (toDec (pid y)) s'.file (s'.off y) (Function.update s.pc x p y) := by
  refine (Function.forall_update_iff s.pc
    fun y q => Fits (toDec (pid y)) s'.file (s'.off y) q).mpr ⟨hp, fun y hy => ?_⟩ y
  rw [hoff y hy]
  cases hin : (s.pc y).inside with
  | true =>
      rw [hfile y hy hin]
      exact h.fits y
  | false => exact (h.fits y).of_not_inside hin hsome

/-- Process `x` moves to `p`, and the file stays as it is. -/
theorem fits_goto (h : Inv pid s) (hp : Fits (toDec (pid x)) s.file (s.off x) p) (y : T) :
    Fits (toDec (pid y)) s.file (s.off y) (Function.update s.pc x p y) :=
  @fits_update _ _ _ s s x p h id (fun _ _ _ => rfl) (fun _ _ => rfl) hp y

theorem Inv.exit (h : Inv pid s) (x : T) (msg : Option String) : Inv pid (s.exit x msg) :=
  ⟨h.guards.release rfl, fits_goto h .exited⟩

/-- The holder has changed the file. -/
theorem fits_of_holds (h : Inv pid s) (hx : s.Holds x)
    (hsome : s'.file.isSome) (hoff : ∀ y, y ≠ x → s'.off y = s.off y)
    (hp : Fits (toDec (pid x)) s'.file (s'.off x) p) (y : T) :
    Fits (toDec (pid y)) s'.file (s'.off y) (Function.update s.pc x p y) :=
  fits_update h (fun _ => hsome) (fun _ hy hin => absurd (h.guards.unique hin hx) hy) hoff hp y

/-- The loop of `writen` has written `k` more digits. -/
theorem Fits.wrote {digits done buf : List UInt8} {k : ℕ} (hdigits : digits = done ++ buf)
    (hk : k ≤ buf.length) :
    Fits digits (some (done ++ buf.take k)) (done.length + k)
      (if buf.drop k = [] then .returned 0 else .write (buf.drop k)) := by
  have hsplit : digits = (done ++ buf.take k) ++ buf.drop k := by
    rw [List.append_assoc, List.take_append_drop, hdigits]
  split
  case isTrue hend =>
      rw [hend, List.append_nil] at hsplit
      exact .acquired (congrArg some hsplit.symm)
  case isFalse hmore =>
      refine .write hsplit hmore rfl ?_
      rw [List.length_append, List.length_take_of_le hk]

/-- **Every call keeps the invariant.** -/
theorem Inv.call (h : Inv pid s) (hok : (s.pc x).isWrite → o ≠ .fail)
    (hs : call pid s x o = some s') : Inv pid s' := by
  have hx := h.fits x
  unfold LockFile.call at hs
  generalize hpc : s.pc x = q at hx hs hok
  have hgoto : ∀ {p : Pc}, p.inside = q.inside → Guards s.locks (Function.update s.pc x p) :=
    fun hp => h.guards.keep (by rw [hpc, hp])
  cases hx with
  | openFile =>
      cases o with
      | fail =>
          obtain rfl := Option.some.inj hs
          exact h.exit x _
      | upTo c =>
          obtain rfl := Option.some.inj hs
          refine ⟨hgoto rfl, fits_update h (fun _ => rfl) (fun y _ hin => ?_)
            (fun y hy => Function.update_of_ne hy ..) (.setLk rfl (Function.update_self ..))⟩
          -- a file that a process has locked exists
          obtain ⟨f, hf⟩ := Option.isSome_iff_exists.mp ((h.fits y).isSome hin)
          show some (s.file.getD []) = s.file
          rw [hf]
          rfl
  | setLk hsome hoff =>
      cases o with
      | fail =>
          obtain rfl := Option.some.inj hs
          exact h.exit x _
      | upTo c =>
          -- the lock is taken, or granted
          simp only at hs
          split at hs
          case h_1 =>
              obtain rfl := Option.some.inj hs
              exact ⟨hgoto rfl, fits_goto h .close⟩
          case h_2 locks hlocks =>
              obtain rfl := Option.some.inj hs
              exact ⟨h.guards.acquire hlocks rfl, fits_goto h (.truncate hsome hoff)⟩
  | close =>
      obtain rfl := Option.some.inj hs
      exact ⟨h.guards.release rfl, fits_goto h .refused⟩
  | truncate hsome hoff =>
      cases o with
      | fail =>
          obtain rfl := Option.some.inj hs
          exact h.exit x _
      | upTo c =>
          obtain rfl := Option.some.inj hs
          -- an earlier holder's digits go, however many they were
          obtain ⟨f, hf⟩ := Option.isSome_iff_exists.mp hsome
          have hfile : (s.file.map fun _ => ([] : List UInt8)) = some [] := by rw [hf]; rfl
          have hholds : s.Holds x := by rw [State.Holds, hpc]; rfl
          exact ⟨hgoto rfl, fits_of_holds h hholds (by rw [hfile]; rfl) (fun _ _ => rfl)
            (.write rfl (toDec_ne_nil _) hfile hoff)⟩
  | @write done buf hdigits hbuf hfile hoff =>
      obtain ⟨k, os, hk, hwrite, -⟩ := write_of_reliable
        (fun hmem => hok rfl (List.mem_singleton.mp hmem).symm) hbuf
      simp only [hwrite] at hs
      obtain rfl := Option.some.inj hs
      have hholds : s.Holds x := by rw [State.Holds, hpc]; rfl
      have hinside : (if buf.drop (k + 1) = [] then Pc.returned 0
          else .write (buf.drop (k + 1))).inside = true := by split <;> rfl
      -- the offset is the length of what was written, so the write appends
      have happend : (s.file.map fun f => pwrite f (s.off x) (buf.take (k + 1))) =
          some (done ++ buf.take (k + 1)) := by
        rw [hfile, hoff, Option.map_some, pwrite_length]
      refine ⟨hgoto hinside, fits_of_holds h hholds ?_ (fun y hy => Function.update_of_ne hy ..) ?_⟩
      · show (Option.map _ s.file).isSome = true
        rw [happend]
        rfl
      · show Fits _ (Option.map _ s.file) (Function.update s.off x _ x) _
        rw [happend, Function.update_self, hoff]
        exact Fits.wrote hdigits hk
  | acquired | refused | exited => cases hs

/-- **Every step keeps the invariant.** -/
theorem Inv.next {a : Action T} (h : Inv pid s) (hs : (completeWrites pid).next s a = some s') :
    Inv pid s' := by
  obtain ⟨hok, hs⟩ := Machine.restrict_next.mp hs
  cases a with
  | call x o => exact h.call hok hs
  | exit x =>
      change (if (s.pc x).isExited then none else some (s.exit x none)) = some s' at hs
      split at hs
      · cases hs
      · obtain rfl := Option.some.inj hs
        exact h.exit x none

/-- **The invariant holds in every run.** -/
theorem inv_reach (h : (completeWrites pid).Reach s) : Inv pid s := by
  refine h.invariant (fun s hs => ?_) fun s a s' hi hs => hi.next hs
  obtain ⟨hpc, hlocks⟩ := hs
  refine ⟨?_, fun x => ?_⟩
  · rw [hlocks]
    refine ⟨nofun, fun x hx => ?_, nofun⟩
    rw [hpc x] at hx
    cases hx
  · rw [hpc x]
    exact .openFile

/-! ### Calls that find the lock taken -/

/-- What a call of `x` leaves alone: the other processes, and the file unless `x` holds the lock
or creates it. -/
theorem call_frame (hs : call pid s x o = some s') :
    (∃ p, s'.pc = Function.update s.pc x p) ∧
      ((s.pc x).inside = false → s'.file = s.file ∨ s'.file = some (s.file.getD [])) := by
  unfold LockFile.call at hs
  cases hpc : s.pc x <;> rw [hpc] at hs
  case openFile =>
      cases o with
      | fail =>
          obtain rfl := Option.some.inj hs
          exact ⟨⟨_, rfl⟩, fun _ => .inl rfl⟩
      | upTo c =>
          obtain rfl := Option.some.inj hs
          exact ⟨⟨_, rfl⟩, fun _ => .inr rfl⟩
  case setLk =>
      cases o with
      | fail =>
          obtain rfl := Option.some.inj hs
          exact ⟨⟨_, rfl⟩, fun _ => .inl rfl⟩
      | upTo c =>
          simp only at hs
          split at hs <;> (obtain rfl := Option.some.inj hs; exact ⟨⟨_, rfl⟩, fun _ => .inl rfl⟩)
  case close =>
      obtain rfl := Option.some.inj hs
      exact ⟨⟨_, rfl⟩, fun _ => .inl rfl⟩
  case truncate =>
      cases o <;> (obtain rfl := Option.some.inj hs; exact ⟨⟨_, rfl⟩, nofun⟩)
  case write buf =>
      refine ⟨?_, nofun⟩
      simp only at hs
      split at hs
      · split at hs <;> (obtain rfl := Option.some.inj hs; exact ⟨_, rfl⟩)
      · obtain rfl := Option.some.inj hs
        exact ⟨_, rfl⟩
      · obtain rfl := Option.some.inj hs
        exact ⟨_, rfl⟩
  case returned | exited => cases hs

/-- A step of one process leaves the others where they are. -/
theorem pc_of_ne {a : Action T} (hs : next pid s a = some s') (hx : a.proc ≠ x) :
    s'.pc x = s.pc x := by
  cases a with
  | call y o =>
      obtain ⟨⟨p, hp⟩, -⟩ := call_frame (show call pid s y o = some s' from hs)
      rw [hp]
      exact Function.update_of_ne hx.symm ..
  | exit y =>
      change (if (s.pc y).isExited then none else some (s.exit y none)) = some s' at hs
      split at hs
      · cases hs
      · obtain rfl := Option.some.inj hs
        exact Function.update_of_ne hx.symm ..

/-- A process that does not hold the lock leaves the file alone, once it exists. -/
theorem Inv.call_file (h : Inv pid s) (hheld : s.HeldAgainst x)
    (hs : LockFile.call pid s x o = some s') : s'.file = s.file := by
  obtain ⟨y, hne, hy⟩ := hheld
  have hx : (s.pc x).inside = false :=
    Bool.eq_false_of_not_eq_true fun hx => hne (h.guards.unique hy hx)
  obtain ⟨f, hf⟩ := Option.isSome_iff_exists.mp ((h.fits y).isSome hy)
  rcases (call_frame hs).2 hx with hsame | hcreated
  · exact hsame
  · rw [hcreated, hf]
    rfl

/-- The next call of a process that finds the lock taken. -/
theorem Inv.call_refused {c k : ℕ} (h : Inv pid s) (hheld : s.HeldAgainst x)
    (hk : s.pc x = refusedPc k) (hs : LockFile.call pid s x (.upTo c) = some s') :
    s'.pc x = refusedPc (k + 1) := by
  unfold LockFile.call at hs
  rw [hk] at hs
  match k with
  | 0 =>
      obtain rfl := Option.some.inj hs
      exact Function.update_self ..
  | 1 =>
      simp only [refusedPc, h.guards.setLk_eq_none_iff.mpr hheld] at hs
      obtain rfl := Option.some.inj hs
      exact Function.update_self ..
  | 2 =>
      obtain rfl := Option.some.inj hs
      exact Function.update_self ..
  | k + 3 => cases hs

/-- **A call that is made while others hold the lock** ends with the result 1. -/
theorem WhileHeld.pc_eq {k j : ℕ} (hrun : WhileHeld pid x s k s') (h : Inv pid s)
    (hj : s.pc x = refusedPc j) : s'.pc x = refusedPc (j + k) := by
  induction hrun generalizing j with
  | refl => exact hj
  | own hheld hs _ ih =>
      have hnext := h.call_refused hheld hj (Machine.restrict_next.mp hs).2
      rw [ih (h.next hs) hnext]
      congr 1
      omega
  | other _ hne hs _ ih =>
      refine ih (h.next hs) ?_
      rw [pc_of_ne (Machine.restrict_next.mp hs).2 hne]
      exact hj

/-- A process on its way to the result 1 is never blocked. -/
theorem refused_enabled {c k : ℕ} (hk : k < 3) (h : s.pc x = refusedPc k) :
    ∃ s', (completeWrites pid).next s (.call x (.upTo c)) = some s' := by
  have hcall : ∃ s', LockFile.call pid s x (.upTo c) = some s' := by
    unfold LockFile.call
    rw [h]
    match k with
    | 0 | 2 => exact ⟨_, rfl⟩
    | 1 =>
        simp only [refusedPc]
        split <;> exact ⟨_, rfl⟩
  obtain ⟨s', hs'⟩ := hcall
  exact ⟨s', Machine.restrict_next.mpr ⟨fun _ => nofun, hs'⟩⟩

end Steps

/-- **One instance at a time**: at most one live process has the lock, all other calls return 1
and leave the file alone, and a process that has returned 0 finds exactly its own pid there. -/
theorem already_running_singleInstance : SingleInstance pid where
  unique _ h _ _ hx hy := (inv_reach h).guards.unique hx hy
  refused s h x k s' hx hrun := by
    have hpc := hrun.pc_eq (inv_reach h) (j := 0) hx
    rwa [Nat.zero_add] at hpc
  untouched _ h _ _ _ hheld hs := (inv_reach h).call_file hheld (Machine.restrict_next.mp hs).2
  returns _ _ _ _ hk hx := refused_enabled hk hx
  content s h x hx := by
    have hfits := (inv_reach h).fits x
    rw [hx] at hfits
    cases hfits with
    | acquired hfile => exact hfile

/-- The pid of process 2 is short. -/
def somePids (x : ℕ) : ℕ := if x = 2 then 7 else 12345 + x

/-- The first calls of one process. -/
def calls (x n : ℕ) : List (Action ℕ) := List.replicate n (.call x (.upTo 9))

/-- Process 0 has the lock when process 1 calls, and exits; then process 2 takes over, whose
pid is shorter. -/
def takeOver : List (Action ℕ) := calls 0 4 ++ calls 1 3 ++ [.exit 0] ++ calls 2 4

theorem takeOver_file : ∃ s, (completeWrites somePids).Reach s ∧ s.pc 1 = .returned 1 ∧
    s.pc 2 = .returned 0 ∧ s.Holds 2 ∧ (∀ x, s.Holds x → x = 2) ∧ s.file = some (toDec 7) := by
  have hrun : ((completeWrites somePids).run ⟨fun _ => .openFile, fun _ => 0, none, []⟩
      takeOver).map (fun s => (s.pc 1, s.pc 2)) = some (.returned 1, .returned 0) := by
    decide +kernel
  obtain ⟨s, hs, hobs⟩ := Option.map_eq_some_iff.mp hrun
  obtain ⟨hrefused, hreturned⟩ := Prod.mk.inj hobs
  have hreach : (completeWrites somePids).Reach s :=
    Machine.reach_of_run ⟨fun _ => rfl, rfl⟩ hs
  have hholds : s.Holds 2 := by
    rw [State.Holds, hreturned]
    rfl
  have hsingle : SingleInstance somePids := already_running_singleInstance somePids
  exact ⟨s, hreach, hrefused, hreturned, hholds,
    fun x hx => hsingle.unique s hreach x 2 hx hholds, hsingle.content s hreach 2 hreturned⟩

/-- The lock can be taken whenever no live process has it, whatever became of the earlier
holders. -/
theorem acquires {s : State T} {x : T} {c : ℕ} (h : (completeWrites pid).Reach s)
    (hx : s.pc x = .setLk) (hfree : ∀ y, ¬s.Holds y) :
    ∃ s', (completeWrites pid).next s (.call x (.upTo c)) = some s' ∧ s'.Holds x := by
  cases hlk : RecordLock.setLk s.locks (lockfile x) with
  | none =>
      obtain ⟨y, -, hy⟩ := (inv_reach h).guards.setLk_eq_none_iff.mp hlk
      exact absurd hy (hfree y)
  | some locks =>
      refine ⟨{ s.goto x .truncate with locks := locks }, Machine.restrict_next.mpr
        ⟨fun _ => nofun, ?_⟩, ?_⟩
      · show LockFile.call pid s x (.upTo c) = _
        unfold LockFile.call
        rw [hx]
        simp only [hlk]
      · show (Function.update s.pc x .truncate x).inside = true
        rw [Function.update_self]
        rfl

end Apue.LockFile
