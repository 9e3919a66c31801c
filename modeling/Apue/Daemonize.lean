/-
Apue/Daemonize.lean

`daemonize` of `lib/apue_daemon.cpp`: a process becomes a daemon.

It forks, makes the child the leader of a new session, and forks again, so that what goes on is
not the leader and can never get a controlling terminal.  Then it closes all descriptors below
the limit and opens `/dev/null` as 0, 1 and 2.

The function returns in the last process only, and exactly if no call fails and the descriptors
0, 1 and 2 are free after closing (`daemonize_spec`).  Then that process is a daemon, and open are
0, 1 and 2 and what was open at the limit or above it.  If there is no limit, 1024 is taken
for it.

`close` takes an `int`, so that the counter of the loop, which has 64 bits, is cut.  Left out: the
messages to the system log.
-/
import Apue.FdTable
import Mathlib.Data.Nat.Init
import Mathlib.Algebra.Group.Nat.Defs
import Mathlib.Algebra.Group.Int.Defs

namespace Apue.Daemonize

/-! ### The process -/

structure Proc (φ : Type*) where
  pid : ℕ
  pgid : ℕ
  sid : ℕ
  /-- it has a controlling terminal -/
  tty : Bool
  umask : ℕ
  cwd : String
  hupIgnored : Bool
  logToStderr : Bool
  fds : FdTable φ

/-- `rlim_max`. -/
inductive Rlim
  | infinity
  | max (n : ℕ)
  deriving DecidableEq, Repr

/-- What the calls do; `none` and `false` is failure. -/
structure Env (φ : Type*) where
  getrlimit : Option Rlim
  /-- the process id of the child -/
  fork₁ : Option ℕ
  sigaction : Bool
  fork₂ : Option ℕ
  chdir : Bool
  /-- what `/dev/null` is opened on -/
  devNull : Option φ
  dup₁ : Bool
  dup₂ : Bool

/-- A process that has exited, with its status and its last message. -/
structure Exit where
  status : ℕ
  message : Option String
  deriving DecidableEq, Repr

section Source

variable {φ : Type*}

/-- `setsid`, which fails for the leader of a process group. -/
def setsid (p : Proc φ) : Proc φ :=
  if p.pid = p.pgid then p else { p with sid := p.pid, pgid := p.pid, tty := false }

/-- `close(i)` for a counter of 64 bits. -/
def closeCounter (t : FdTable φ) (i : ℕ) : FdTable φ :=
  match (BitVec.ofNat 32 i).toInt with
  | .ofNat n => t.close n
  | .negSucc _ => t

/-- The loop over the descriptors. -/
def closeAll (t : FdTable φ) (limit : ℕ) : FdTable φ := (List.range limit).foldl closeCounter t

/-- `rl.rlim_max`, after the comparison with `RLIM_INFINITY`. -/
def Rlim.limit : Rlim → ℕ
  | .infinity => 1024
  | .max n => n

/-- A call that opens a descriptor on `f`. -/
def openFd (f : Option φ) (t : FdTable φ) : ℤ × FdTable φ :=
  match f with
  | none => (-1, t)
  | some f => (t.lowest, t.insert f)

/-- `dup(0)`. -/
def dupZero (ok : Bool) (t : FdTable φ) : ℤ × FdTable φ := openFd (if ok then t.get 0 else none) t

/-- The end of `daemonize`: the three descriptors. -/
def openStd (env : Env φ) (p : Proc φ) : Option (Proc φ) :=
  let (fd0, t₀) := openFd env.devNull p.fds
  let (fd1, t₁) := dupZero env.dup₁ t₀
  let (fd2, t₂) := dupZero env.dup₂ t₁
  if fd0 ≠ 0 ∨ fd1 ≠ 1 ∨ fd2 ≠ 2 then none
  else some { p with fds := t₂, logToStderr := false }

/-- `daemonize`: the processes that exit, in order, and the one that returns. -/
def daemonize (cmd : String) (env : Env φ) (p : Proc φ) : List Exit × Option (Proc φ) :=
  let p := { p with umask := 0 }
  match env.getrlimit with
  | none => ([⟨1, some (cmd ++ ": cant get max descriptor number")⟩], none)
  | some rl =>
    match env.fork₁ with
    | none => ([⟨1, some (cmd ++ ": call fork")⟩], none)
    | some pid =>
      let p := setsid { p with pid := pid }
      if env.sigaction then
        let p := { p with hupIgnored := true }
        match env.fork₂ with
        | none => ([⟨0, none⟩, ⟨1, some (cmd ++ ": call fork")⟩], none)
        | some pid =>
          let p := { p with pid := pid }
          if env.chdir then
            let p := { p with cwd := "/", fds := closeAll p.fds rl.limit }
            match openStd env p with
            | none => ([⟨0, none⟩, ⟨0, none⟩, ⟨1, none⟩], none)
            | some p => ([⟨0, none⟩, ⟨0, none⟩], some p)
          else ([⟨0, none⟩, ⟨0, none⟩, ⟨1, some (cmd ++ ": call chdir(\"/\")")⟩], none)
      else ([⟨0, none⟩, ⟨1, some (cmd ++ ": call sigaction to ignore SIGHUP")⟩], none)

end Source

/-! ### Closing the descriptors -/

section Close

variable {φ : Type*} {t : FdTable φ} {n : ℕ}

/-- A counter is the number of a descriptor, or it is negative. -/
theorem closeCounter_eq (t : FdTable φ) (i : ℕ) :
    closeCounter t i = if i % 2 ^ 32 < 2 ^ 31 then t.close (i % 2 ^ 32) else t := by
  have htoInt : (BitVec.ofNat 32 i).toInt =
      if i % 2 ^ 32 < 2 ^ 31 then ((i % 2 ^ 32 : ℕ) : ℤ) else ((i % 2 ^ 32 : ℕ) : ℤ) - 2 ^ 32 := by
    rw [BitVec.toInt_eq_toNat_cond, BitVec.toNat_ofNat]
    split <;> split <;> omega
  rw [closeCounter, htoInt]
  by_cases hlt : i % 2 ^ 32 < 2 ^ 31
  · rw [if_pos hlt, if_pos hlt]
  · have hmod : i % 2 ^ 32 < 2 ^ 32 := Nat.mod_lt _ (by decide)
    obtain ⟨m, hm⟩ : ∃ m, ((i % 2 ^ 32 : ℕ) : ℤ) - 2 ^ 32 = .negSucc m :=
      ⟨2 ^ 32 - 1 - i % 2 ^ 32, by omega⟩
    rw [if_neg hlt, if_neg hlt, hm]

theorem get_closeCounter (t : FdTable φ) (i n : ℕ) :
    (closeCounter t i).get n = if i % 2 ^ 32 = n ∧ n < 2 ^ 31 then none else t.get n := by
  rw [closeCounter_eq]
  by_cases hlt : i % 2 ^ 32 < 2 ^ 31
  · rw [if_pos hlt]
    by_cases hn : n = i % 2 ^ 32
    · subst hn
      rw [FdTable.get_close_self, if_pos ⟨rfl, hlt⟩]
    · rw [FdTable.get_close_of_ne _ hn, if_neg fun h => hn h.1.symm]
  · rw [if_neg hlt, if_neg]
    rintro ⟨rfl, h⟩
    exact hlt h

/-- What is open after the loop. -/
theorem get_closeAll (t : FdTable φ) (limit n : ℕ) :
    (closeAll t limit).get n = if n < limit ∧ n < 2 ^ 31 then none else t.get n := by
  induction limit with
  | zero => rw [if_neg fun h => Nat.not_lt_zero _ h.1]; rfl
  | succ k ih =>
      rw [closeAll, List.range_succ, List.foldl_append]
      show (closeCounter (closeAll t k) k).get n = _
      rw [get_closeCounter, ih]
      by_cases hn : n < 2 ^ 31
      · rcases Nat.lt_trichotomy n k with hlt | rfl | hgt
        · rw [if_pos (show n < k ∧ n < 2 ^ 31 from ⟨hlt, hn⟩), ite_self,
            if_pos ⟨Nat.lt_succ_of_lt hlt, hn⟩]
        · rw [if_pos ⟨Nat.mod_eq_of_lt (by omega), hn⟩, if_pos ⟨Nat.lt_succ_self n, hn⟩]
        · have hmod : k % 2 ^ 32 ≤ k := Nat.mod_le _ _
          rw [if_neg (by omega), if_neg (by omega), if_neg (by omega)]
      · rw [if_neg fun h => hn h.2, if_neg fun h => hn h.2, if_neg fun h => hn h.2]

end Close

/-! ### The three descriptors -/

section Std

variable {φ : Type*} {t : FdTable φ} {env : Env φ}

/-- A new descriptor has the number `n` exactly if `n` is the lowest free one. -/
theorem openFd_fst_eq {f : Option φ} {n : ℕ} :
    (openFd f t).1 = n ↔ f ≠ none ∧ t.lowest = n := by
  rcases f with _ | f
  · constructor
    · intro h
      change (-1 : ℤ) = n at h
      omega
    · rintro ⟨h, -⟩
      exact absurd rfl h
  · constructor
    · exact fun h => ⟨nofun, Int.ofNat.inj h⟩
    · exact fun h => congrArg _ h.2

/-- Below `n` the descriptors are open on `f`, and otherwise as in `t`. -/
def Filled (t t' : FdTable φ) (n : ℕ) (f : φ) : Prop :=
  ∀ k, t'.get k = if k < n then some f else t.get k

section Filled

variable {t' : FdTable φ} {n : ℕ} {f : φ}

theorem Filled.lowest_eq_iff (h : Filled t t' n f) : t'.lowest = n ↔ t.get n = none := by
  have hn : t'.get n = t.get n := by rw [h, if_neg (Nat.lt_irrefl n)]
  constructor
  · intro hlowest
    have hfree := t'.get_lowest
    rwa [hlowest, hn] at hfree
  · intro hfree
    refine t'.lowest_eq (hn.trans hfree) fun k hk => ?_
    rw [h, if_pos hk]
    exact nofun

/-- The next descriptor is opened. -/
theorem Filled.insert (h : Filled t t' n f) (hfree : t.get n = none) :
    Filled t (t'.insert f) (n + 1) f := by
  have hlowest := h.lowest_eq_iff.mpr hfree
  intro k
  rcases Nat.lt_trichotomy k n with hlt | rfl | hgt
  · rw [FdTable.get_insert_of_ne _ _ (by omega), h, if_pos hlt, if_pos (by omega)]
  · have hself := t'.get_insert_lowest f
    rw [hlowest] at hself
    rw [hself, if_pos (Nat.lt_succ_self k)]
  · rw [FdTable.get_insert_of_ne _ _ (by omega), h, if_neg (by omega), if_neg (by omega)]

/-- `dup(0)` opens the next descriptor, if it is free. -/
theorem Filled.dupZero_fst (h : Filled t t' n f) (hn : 0 < n) (ok : Bool) :
    (dupZero ok t').1 = n ↔ ok = true ∧ t.get n = none := by
  have hzero : t'.get 0 = some f := by rw [h, if_pos hn]
  rw [dupZero, openFd_fst_eq, h.lowest_eq_iff, hzero]
  cases ok <;> simp

theorem Filled.dupZero_snd (h : Filled t t' n f) (hn : 0 < n) (hfree : t.get n = none) :
    Filled t (dupZero true t').2 (n + 1) f := by
  have hzero : t'.get 0 = some f := by rw [h, if_pos hn]
  rw [dupZero, if_pos rfl, hzero]
  exact h.insert hfree

end Filled

/-- When the three descriptors can be opened. -/
structure Ready (env : Env φ) (t : FdTable φ) : Prop where
  devNull : env.devNull ≠ none
  dup₁ : env.dup₁ = true
  dup₂ : env.dup₂ = true
  free : ∀ n < 3, t.get n = none

/-- The three descriptors, and nothing else. -/
theorem openStd_of_ready {p : Proc φ} (h : Ready env p.fds) :
    ∃ f t', env.devNull = some f ∧ Filled p.fds t' 3 f ∧
      openStd env p = some { p with fds := t', logToStderr := false } := by
  obtain ⟨f, hf⟩ := Option.ne_none_iff_exists'.mp h.devNull
  have hnone : Filled p.fds p.fds 0 f := fun k => by rw [if_neg (Nat.not_lt_zero k)]
  have hone := hnone.insert (h.free 0 (by decide))
  have htwo := hone.dupZero_snd (by decide) (h.free 1 (by decide))
  have hthree := htwo.dupZero_snd (by decide) (h.free 2 (by decide))
  refine ⟨f, _, hf, hthree, ?_⟩
  have h₀ : (openFd env.devNull p.fds).1 = (0 : ℕ) :=
    openFd_fst_eq.mpr ⟨h.devNull, hnone.lowest_eq_iff.mpr (h.free 0 (by decide))⟩
  have h₁ := (hone.dupZero_fst (by decide) true).mpr ⟨rfl, h.free 1 (by decide)⟩
  have h₂ := (htwo.dupZero_fst (by decide) true).mpr ⟨rfl, h.free 2 (by decide)⟩
  rw [hf] at h₀
  rw [openStd, hf, h.dup₁, h.dup₂]
  refine if_neg ?_
  rintro (hne | hne | hne)
  · exact hne h₀
  · exact hne h₁
  · exact hne h₂

theorem ready_of_openStd {p d : Proc φ} (h : openStd env p = some d) : Ready env p.fds := by
  have hnot : ¬ ((openFd env.devNull p.fds).1 ≠ 0 ∨
      (dupZero env.dup₁ (openFd env.devNull p.fds).2).1 ≠ 1 ∨
      (dupZero env.dup₂ (dupZero env.dup₁ (openFd env.devNull p.fds).2).2).1 ≠ 2) := by
    intro hbad
    have hnone : openStd env p = none := if_pos hbad
    rw [hnone] at h
    cases h
  rw [not_or, not_or, not_not, not_not, not_not] at hnot
  obtain ⟨h₀, h₁, h₂⟩ := hnot
  obtain ⟨hdev, hlowest⟩ := openFd_fst_eq.mp (show _ = ((0 : ℕ) : ℤ) from h₀)
  obtain ⟨f, hf⟩ := Option.ne_none_iff_exists'.mp hdev
  have hnone : Filled p.fds p.fds 0 f := fun k => by rw [if_neg (Nat.not_lt_zero k)]
  have hfree₀ := hnone.lowest_eq_iff.mp hlowest
  have hone := hnone.insert hfree₀
  rw [hf] at h₁ h₂
  obtain ⟨hdup₁, hfree₁⟩ := (hone.dupZero_fst (by decide) _).mp h₁
  rw [hdup₁] at h₂
  have htwo := hone.dupZero_snd (by decide) hfree₁
  obtain ⟨hdup₂, hfree₂⟩ := (htwo.dupZero_fst (by decide) _).mp h₂
  refine ⟨hdev, hdup₁, hdup₂, fun n hn => ?_⟩
  obtain rfl | rfl | rfl : n = 0 ∨ n = 1 ∨ n = 2 := by omega
  · exact hfree₀
  · exact hfree₁
  · exact hfree₂

end Std

/-! ### The daemon -/

section Daemon

variable {φ : Type*} {cmd : String} {env : Env φ} {p d : Proc φ} {exits : List Exit}

/-- No call fails, and the descriptors 0, 1 and 2 are free when the others have been closed. -/
structure Succeeds (env : Env φ) (p : Proc φ) (rl : Rlim) : Prop where
  getrlimit : env.getrlimit = some rl
  fork₁ : env.fork₁ ≠ none
  sigaction : env.sigaction = true
  fork₂ : env.fork₂ ≠ none
  chdir : env.chdir = true
  ready : Ready env (closeAll p.fds rl.limit)

/-- The new process ids are not in use. -/
structure FreshPids (env : Env φ) (p : Proc φ) : Prop where
  fork₁ : ∀ pid, env.fork₁ = some pid → pid ≠ p.pgid
  fork₂ : ∀ pid pid', env.fork₁ = some pid → env.fork₂ = some pid' → pid' ≠ pid

/-- A process in the background: it has no terminal and cannot get one, as it does not lead its
session; nothing else keeps it from where it was started. -/
structure IsDaemon (d : Proc φ) : Prop where
  notLeader : d.pid ≠ d.sid
  tty : d.tty = false
  umask : d.umask = 0
  cwd : d.cwd = "/"
  hupIgnored : d.hupIgnored = true
  logToStderr : d.logToStderr = false

/-- What `daemonize` comes to when the forks and the calls between them succeed. -/
theorem daemonize_eq {rl : Rlim} {pid pid' : ℕ} (hrl : env.getrlimit = some rl)
    (hfork₁ : env.fork₁ = some pid) (hsig : env.sigaction = true) (hfork₂ : env.fork₂ = some pid')
    (hchdir : env.chdir = true) (hpid : pid ≠ p.pgid) :
    daemonize cmd env p =
      match openStd env ⟨pid', pid, pid, false, 0, "/", true, p.logToStderr,
          closeAll p.fds rl.limit⟩ with
      | none => ([⟨0, none⟩, ⟨0, none⟩, ⟨1, none⟩], none)
      | some d => ([⟨0, none⟩, ⟨0, none⟩], some d) := by
  have hsetsid : setsid { p with umask := 0, pid := pid } =
      { p with umask := 0, pid := pid, sid := pid, pgid := pid, tty := false } := if_neg hpid
  simp only [daemonize, hrl, hfork₁, hsig, hfork₂, hchdir, if_true, hsetsid]

/-- A process that returns has not failed before. -/
theorem exists_calls (h : daemonize cmd env p = (exits, some d)) :
    ∃ rl pid pid', env.getrlimit = some rl ∧ env.fork₁ = some pid ∧ env.sigaction = true ∧
      env.fork₂ = some pid' ∧ env.chdir = true := by
  rcases hrl : env.getrlimit with _ | rl
  · simp only [daemonize, hrl] at h
    cases h
  rcases hfork₁ : env.fork₁ with _ | pid
  · simp only [daemonize, hrl, hfork₁] at h
    cases h
  cases hsig : env.sigaction with
  | false =>
      simp only [daemonize, hrl, hfork₁, hsig] at h
      cases h
  | true =>
      rcases hfork₂ : env.fork₂ with _ | pid'
      · simp only [daemonize, hrl, hfork₁, hsig, hfork₂] at h
        cases h
      cases hchdir : env.chdir with
      | false =>
          simp only [daemonize, hrl, hfork₁, hsig, hfork₂, hchdir] at h
          cases h
      | true => exact ⟨rl, pid, pid', rfl, rfl, rfl, rfl, rfl⟩

/-- **What `daemonize` makes of a process.**  It returns exactly if no call fails and 0, 1 and 2
are free after closing.  Then the two processes before have exited with 0, the one that is
left is a daemon, its descriptors 0, 1 and 2 are open on `/dev/null`, all others below the limit
are closed, and those at the limit and above are as they were. -/
theorem daemonize_spec (cmd : String) (hpids : FreshPids env p) :
    ((∃ exits d, daemonize cmd env p = (exits, some d)) ↔ ∃ rl, Succeeds env p rl) ∧
      ∀ exits d, daemonize cmd env p = (exits, some d) →
        exits = [⟨0, none⟩, ⟨0, none⟩] ∧ IsDaemon d ∧
        ∃ rl f, env.getrlimit = some rl ∧ env.devNull = some f ∧ ∀ n, d.fds.get n =
          if n < 3 then some f else if n < rl.limit ∧ n < 2 ^ 31 then none else p.fds.get n := by
  refine ⟨⟨?_, ?_⟩, ?_⟩
  · rintro ⟨exits, d, h⟩
    obtain ⟨rl, pid, pid', hrl, hfork₁, hsig, hfork₂, hchdir⟩ := exists_calls h
    rw [daemonize_eq hrl hfork₁ hsig hfork₂ hchdir (hpids.fork₁ pid hfork₁)] at h
    rcases hstd : openStd env ⟨pid', pid, pid, false, 0, "/", true, p.logToStderr,
        closeAll p.fds rl.limit⟩ with _ | d'
    · rw [hstd] at h
      cases h
    · exact ⟨rl, hrl, by rw [hfork₁]; exact nofun, hsig, by rw [hfork₂]; exact nofun, hchdir,
        ready_of_openStd hstd⟩
  · rintro ⟨rl, hrl, hfork₁, hsig, hfork₂, hchdir, hready⟩
    obtain ⟨pid, hfork₁⟩ := Option.ne_none_iff_exists'.mp hfork₁
    obtain ⟨pid', hfork₂⟩ := Option.ne_none_iff_exists'.mp hfork₂
    obtain ⟨f, t', -, -, hstd⟩ := openStd_of_ready
      (p := ⟨pid', pid, pid, false, 0, "/", true, p.logToStderr, closeAll p.fds rl.limit⟩) hready
    have heq : daemonize cmd env p = _ :=
      daemonize_eq hrl hfork₁ hsig hfork₂ hchdir (hpids.fork₁ pid hfork₁)
    rw [hstd] at heq
    exact ⟨_, _, heq⟩
  · intro exits d h
    obtain ⟨rl, pid, pid', hrl, hfork₁, hsig, hfork₂, hchdir⟩ := exists_calls h
    rw [daemonize_eq hrl hfork₁ hsig hfork₂ hchdir (hpids.fork₁ pid hfork₁)] at h
    rcases hstd : openStd env ⟨pid', pid, pid, false, 0, "/", true, p.logToStderr,
        closeAll p.fds rl.limit⟩ with _ | d'
    · rw [hstd] at h
      cases h
    · rw [hstd] at h
      obtain ⟨f, t', hf, hfilled, hstd'⟩ := openStd_of_ready (ready_of_openStd hstd)
      obtain rfl := Option.some.inj (hstd.symm.trans hstd')
      cases h
      refine ⟨rfl, ⟨hpids.fork₂ pid pid' hfork₁ hfork₂, rfl, rfl, rfl, rfl, rfl⟩, rl, f, hrl, hf,
        fun n => ?_⟩
      rw [← get_closeAll]
      exact hfilled n

end Daemon

/-- A shell starts the process in its own group, with 0, 1, 2 and 5 open on a terminal and 1030 on
a file; there is no limit. -/
def started : Proc ℕ where
  pid := 100
  pgid := 100
  sid := 90
  tty := true
  umask := 18
  cwd := "/home"
  hupIgnored := false
  logToStderr := true
  fds := (FdTable.mk [some 7, some 7, some 7, none, none, some 7]).openAt 1030 8

def allCalls : Env ℕ := ⟨some .infinity, some 101, true, some 102, true, some 1, true, true⟩

theorem daemonize_spec_started : ∃ exits d, daemonize "prog" allCalls started = (exits, some d) ∧
    IsDaemon d ∧ d.fds.get 5 = none ∧ d.fds.get 1030 = some 8 := by
  have hpids : FreshPids allCalls started := by
    refine ⟨fun pid h => ?_, fun pid pid' h h' => ?_⟩
    · cases h
      decide
    · cases h
      cases h'
      decide
  have hlimit : Rlim.infinity.limit = 1024 := rfl
  have hfree : ∀ n < 3, (closeAll started.fds Rlim.infinity.limit).get n = none := fun n hn => by
    rw [get_closeAll, hlimit, if_pos (by omega)]
  have hspec := daemonize_spec "prog" hpids
  obtain ⟨exits, d, h⟩ := hspec.1.mpr ⟨.infinity, rfl, nofun, rfl, nofun, rfl, nofun, rfl, rfl, hfree⟩
  obtain ⟨-, hdaemon, rl, f, hrl, -, hfds⟩ := hspec.2 exits d h
  cases hrl
  refine ⟨exits, d, h, hdaemon, ?_, ?_⟩
  · rw [hfds, hlimit, if_neg (by decide), if_pos (by decide)]
  · rw [hfds, hlimit, if_neg (by decide), if_neg (by decide)]
    exact FdTable.get_openAt_self _ 8

end Apue.Daemonize
