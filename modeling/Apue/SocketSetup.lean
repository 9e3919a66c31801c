/-
Apue/SocketSetup.lean

How sockets are made: `setup_socket_ipv4`, `connect_ipv4_addr` and `connect_ipv4_host` of
`lib/apue_network.cpp`, and `unix_socket_serv_listen`, `unix_socket_serv_accept` and
`unix_socket_cli_conn` of `lib/apue_unix_socket.cpp`.

Each of them opens a descriptor and then makes calls that can fail, and each must not leave the
descriptor open when it gives up.  None does, whatever calls fail.  `connect_ipv4_host` tries the
addresses in order and leaves exactly one descriptor, connected to the first address that works,
or none (`connectIpv4Host_spec`).  Of the functions for Unix sockets the result also says which
call has failed, and `errno` why, even if `close` fails on the way
(`servListen_spec`, `servAccept_spec`, `cliConn_spec`).

In the first group `errno` is not kept.  If no socket can be set up at all, `connect` is called
with the descriptor -1, and all the caller learns is that this is none
(`connectIpv4Host_errno`).

The outcomes of the calls are given by a list, in the order in which they are made.
-/
import Apue.FdTable
import Mathlib.Algebra.Group.Int.Defs

namespace Apue.SocketSetup

/-! ### Calls that can fail -/

inductive Errno
  | ebadf
  | eaddrinuse
  | enametoolong
  | other (n : ℕ)
  deriving DecidableEq, Repr

/-- A process, as far as sockets are concerned. -/
structure Proc (φ : Type*) where
  fds : FdTable φ
  errno : Errno
  /-- the names in the file system -/
  paths : List (List UInt8)
  /-- the outcomes of the calls to come; after them all succeed -/
  calls : List (Option Errno)

namespace Proc

variable {φ : Type*} (p : Proc φ)

/-- A call with the effect `f`, if it succeeds. -/
def call (f : Proc φ → Proc φ) : Bool × Proc φ :=
  match p.calls with
  | [] => (true, f p)
  | none :: os => (true, f { p with calls := os })
  | some e :: os => (false, { p with errno := e, calls := os })

/-- The file behind the descriptor `fd` becomes `s`. -/
def set (fd : ℕ) (s : φ) : Proc φ := { p with fds := p.fds.openAt fd s }

/-- The outcome of the `i`-th call to come. -/
def outcome (i : ℕ) : Option Errno := (p.calls[i]?).join

/-- `close`: the descriptor is free afterwards even if the call fails. -/
def close (fd : ℕ) : Proc φ := { (p.call id).2 with fds := p.fds.close fd }

/-- A call that opens a descriptor on `s`: `socket` or `accept`.  If it succeeds the function
goes on with `k`, otherwise it returns `code`. -/
def opening {β : Type*} (s : φ) (code : β) (k : ℕ → Proc φ → β × Proc φ) : β × Proc φ :=
  match p.call fun p => { p with fds := p.fds.insert s } with
  | (false, p') => (code, p')
  | (true, p') => k p.fds.lowest p'

end Proc

/-- After a call on a descriptor: if it has failed, the function gives up and returns `code`,
otherwise it goes on with `k`. -/
def orElse {φ β : Type*} (giveUp : Proc φ → Proc φ) (code : β) (res : Bool × Proc φ)
    (k : Proc φ → β × Proc φ) : β × Proc φ :=
  match res with
  | (false, p) => (code, giveUp p)
  | (true, p) => k p

/-! ### IPv4 -/

/-- `struct sockaddr_in`. -/
structure SockaddrIn where
  port : ℕ
  addr : ℕ
  deriving DecidableEq, Repr

inductive SockType
  | stream
  | dgram
  deriving DecidableEq, Repr

/-- A socket of the family `AF_INET`. -/
structure InetSocket where
  type : SockType
  reuseAddr : Bool
  reusePort : Bool
  bound : Option SockaddrIn
  peer : Option SockaddrIn
  deriving DecidableEq, Repr

/-- The address that `setup_socket_ipv4` binds; `htons` takes 16 bits. -/
def anyAddr (port : ℤ) : SockaddrIn := ⟨if 0 < port then (port % 65536).toNat else 0, 0⟩

/-- `setup_socket_ipv4`. -/
def setupSocketIpv4 (port : ℤ) (type : SockType) (p : Proc InetSocket) : ℤ × Proc InetSocket :=
  p.opening ⟨type, false, false, none, none⟩ (-1) fun fd p =>
    orElse (·.close fd) (-1) (p.call (·.set fd ⟨type, true, false, none, none⟩)) fun p =>
      orElse (·.close fd) (-1) (p.call (·.set fd ⟨type, true, true, none, none⟩)) fun p =>
        orElse (·.close fd) (-1) (p.call (·.set fd ⟨type, true, true, some (anyAddr port), none⟩))
          fun p => (fd, p)

/-- `connect_ipv4_addr`.  With the descriptor -1 both `connect` and `close` fail. -/
def connectIpv4Addr (addr : SockaddrIn) (port : ℤ) (type : SockType) (p : Proc InetSocket) :
    ℤ × Proc InetSocket :=
  match setupSocketIpv4 port type p with
  | (.negSucc _, p) => (-1, { p with errno := .ebadf })
  | (.ofNat fd, p) =>
      orElse (·.close fd) (-1)
        (p.call (·.set fd ⟨type, true, true, some (anyAddr port), some addr⟩)) fun p => (fd, p)

/-- The loop of `connect_ipv4_host` and what follows it, with the number of calls of
`freeaddrinfo`. -/
def connectLoop (type : SockType) : List SockaddrIn → Proc InetSocket → ℤ × ℕ × Proc InetSocket
  | [], p => (-1, 1, p)
  | a :: as, p =>
      match connectIpv4Addr a 0 type p with
      | (.ofNat fd, p) => (fd, 1, p)
      | (.negSucc _, p) => connectLoop type as p

/-- The errors of `getaddrinfo` are negative. -/
abbrev GaiError := { e : ℤ // e < 0 }

/-- `connect_ipv4_host`, with what `getaddrinfo` finds for its arguments. -/
def connectIpv4Host (found : Except GaiError (List SockaddrIn)) (type : SockType)
    (p : Proc InetSocket) : ℤ × ℕ × Proc InetSocket :=
  match found with
  | .error e => (e, 0, p)
  | .ok ailist => connectLoop type ailist p

/-! ### Unix sockets -/

/-- An address of the family `AF_UNIX`. -/
inductive SunAddr
  /-- a name in the file system -/
  | path (name : List UInt8)
  /-- an abstract address that the kernel has chosen -/
  | autobound
  deriving DecidableEq, Repr

/-- A socket of the family `AF_UNIX`. -/
structure UnixSock where
  name : Option SunAddr
  backlog : Option ℕ
  peer : Option (List UInt8)
  deriving DecidableEq, Repr

/-- `sizeof(un.sun_path)`. -/
def sizeofSunPath : ℕ := 108

/-- The label `errout`. -/
def Proc.errout {φ : Type*} (fd : ℕ) (p : Proc φ) : Proc φ := { p.close fd with errno := p.errno }

/-- `unlink`, whose result is not looked at. -/
def Proc.unlink {φ : Type*} (name : List UInt8) (p : Proc φ) : Proc φ :=
  (p.call fun p => { p with paths := p.paths.filter (· ≠ name) }).2

/-- The address with this name and a length that does not count a NUL. -/
def SunAddr.ofName (name : List UInt8) : SunAddr := if name = [] then .autobound else .path name

/-- `bind` to a name, which must be new.  An empty one asks the kernel for an address outside
of the file system. -/
def Proc.bind (fd : ℕ) (name : List UInt8) (p : Proc UnixSock) : Bool × Proc UnixSock :=
  if name = [] then p.call (·.set fd ⟨some .autobound, none, none⟩)
  else if name ∈ p.paths then (false, { p with errno := .eaddrinuse })
  else p.call fun p => { p.set fd ⟨some (.path name), none, none⟩ with paths := name :: p.paths }

/-- `unix_socket_serv_listen`. -/
def servListen (name : List UInt8) (qlen : ℕ) (p : Proc UnixSock) : ℤ × Proc UnixSock :=
  if sizeofSunPath ≤ name.length then (-1, { p with errno := .enametoolong })
  else p.opening ⟨none, none, none⟩ (-2) fun fd p =>
    orElse (·.errout fd) (-3) ((p.unlink name).bind fd name) fun p =>
      orElse (·.errout fd) (-4) (p.call (·.set fd ⟨some (.ofName name), some qlen, none⟩))
        fun p => (fd, p)

/-- `unix_socket_serv_accept`, for a connection from `peer` whose process has the user id `uid`.
`uidptr` is null or what it points to; what that is afterwards is returned too. -/
def servAccept (peer : Option (List UInt8)) (uid : ℕ) (uidptr : Option ℕ) (p : Proc UnixSock) :
    (ℤ × Option ℕ) × Proc UnixSock :=
  p.opening ⟨none, none, peer⟩ (-1, uidptr) fun fd p =>
    orElse (·.errout fd) (-2, uidptr) (p.call id) fun p => ((fd, uidptr.map fun _ => uid), p)

/-- `unix_socket_cli_conn`. -/
def cliConn (name : List UInt8) (p : Proc UnixSock) : ℤ × Proc UnixSock :=
  if sizeofSunPath ≤ name.length then (-1, { p with errno := .enametoolong })
  else p.opening ⟨none, none, none⟩ (-2) fun fd p =>
    orElse (·.errout fd) (-3) (p.call (·.set fd ⟨none, none, some name⟩)) fun p => (fd, p)

/-! ### What the calls do to the descriptors -/

section Calls

variable {φ : Type*} {t : FdTable φ} {p p' : Proc φ} {s s' : φ} {n : ℕ} {b : Bool}

theorem call_false {f : Proc φ → Proc φ} (h : p.call f = (false, p')) :
    ∃ e os, p.calls = some e :: os ∧ p' = { p with errno := e, calls := os } := by
  unfold Proc.call at h
  split at h
  · cases h
  · cases h
  · next e os hcalls => exact ⟨e, os, hcalls, (Prod.mk.inj h).2.symm⟩

theorem call_true {f : Proc φ → Proc φ} (h : p.call f = (true, p')) :
    ∃ os, p' = f { p with calls := os } := by
  unfold Proc.call at h
  split at h
  · exact ⟨p.calls, (Prod.mk.inj h).2.symm⟩
  · next os _ => exact ⟨os, (Prod.mk.inj h).2.symm⟩
  · cases h

theorem call_set_true (hadds : t.Adds p.fds n s) (h : p.call (·.set n s') = (true, p')) :
    t.Adds p'.fds n s' := by
  obtain ⟨os, rfl⟩ := call_true h
  exact hadds.openAt s'

theorem fds_call_false {f : Proc φ → Proc φ} (h : p.call f = (false, p')) : p'.fds = p.fds := by
  obtain ⟨e, os, -, rfl⟩ := call_false h
  rfl

/-- The descriptor that `opening` adds. -/
theorem opening_cases {β : Type*} {code r : β} {k : ℕ → Proc φ → β × Proc φ}
    (h : p.opening s code k = (r, p')) :
    (r = code ∧ p'.fds = p.fds) ∨
      ∃ p₁, p.fds.Adds p₁.fds p.fds.lowest s ∧ k p.fds.lowest p₁ = (r, p') := by
  unfold Proc.opening at h
  rcases hcall : p.call fun p => { p with fds := p.fds.insert s } with ⟨_ | _, p₁⟩
  all_goals
    rw [hcall] at h
    dsimp only at h
  · obtain ⟨rfl, rfl⟩ := Prod.mk.inj h
    exact .inl ⟨rfl, fds_call_false hcall⟩
  · obtain ⟨os, rfl⟩ := call_true hcall
    exact .inr ⟨_, p.fds.adds_insert s, h⟩

/-- A call on the descriptor, and giving up. -/
theorem orElse_cases {β : Type*} {giveUp : Proc φ → Proc φ} {code r : β} {res : Bool × Proc φ}
    {k : Proc φ → β × Proc φ} (h : orElse giveUp code res k = (r, p')) :
    (∃ p₁, res = (false, p₁) ∧ r = code ∧ p' = giveUp p₁) ∨
      ∃ p₁, res = (true, p₁) ∧ k p₁ = (r, p') := by
  rcases res with ⟨_ | _, p₁⟩
  · obtain ⟨rfl, rfl⟩ := Prod.mk.inj h
    exact .inl ⟨p₁, rfl, rfl, rfl⟩
  · exact .inr ⟨p₁, rfl, h⟩

/-- Giving up leaves no descriptor. -/
theorem get_close_of_call {f : Proc φ → Proc φ} (hadds : t.Adds p.fds n s)
    (h : p.call f = (false, p')) : (p'.close n).fds.get = t.get := by
  show (p'.fds.close n).get = t.get
  rw [fds_call_false h]
  exact hadds.get_close

end Calls

/-! ### `connect_ipv4_host` -/

section Inet

variable {p p' : Proc InetSocket} {type : SockType} {port r : ℤ} {addr : SockaddrIn} {freed : ℕ}

/-- Nothing was opened, or one descriptor, on `s`. -/
def OpensOr (p p' : Proc InetSocket) (r : ℤ) (s : InetSocket) : Prop :=
  (r = -1 ∧ p'.fds.get = p.fds.get) ∨ r = p.fds.lowest ∧ p.fds.Adds p'.fds p.fds.lowest s

theorem setupSocketIpv4_spec (h : setupSocketIpv4 port type p = (r, p')) :
    OpensOr p p' r ⟨type, true, true, some (anyAddr port), none⟩ := by
  rcases opening_cases h with ⟨rfl, hfds⟩ | ⟨p₁, hadds, h⟩
  · exact .inl ⟨rfl, congrArg _ hfds⟩
  rcases orElse_cases h with ⟨p₂, hcall, rfl, rfl⟩ | ⟨p₂, hcall, h⟩
  · exact .inl ⟨rfl, get_close_of_call hadds hcall⟩
  replace hadds := call_set_true hadds hcall
  rcases orElse_cases h with ⟨p₃, hcall, rfl, rfl⟩ | ⟨p₃, hcall, h⟩
  · exact .inl ⟨rfl, get_close_of_call hadds hcall⟩
  replace hadds := call_set_true hadds hcall
  rcases orElse_cases h with ⟨p₄, hcall, rfl, rfl⟩ | ⟨p₄, hcall, h⟩
  · exact .inl ⟨rfl, get_close_of_call hadds hcall⟩
  obtain ⟨rfl, rfl⟩ := Prod.mk.inj h
  exact .inr ⟨rfl, call_set_true hadds hcall⟩

theorem connectIpv4Addr_spec (h : connectIpv4Addr addr port type p = (r, p')) :
    OpensOr p p' r ⟨type, true, true, some (anyAddr port), some addr⟩ := by
  unfold connectIpv4Addr at h
  rcases hsetup : setupSocketIpv4 port type p with ⟨r₁, p₁⟩
  rw [hsetup] at h
  rcases setupSocketIpv4_spec hsetup with ⟨rfl, hget⟩ | ⟨rfl, hadds⟩
  · obtain ⟨rfl, rfl⟩ := Prod.mk.inj h
    exact .inl ⟨rfl, hget⟩
  · rcases orElse_cases h with ⟨p₂, hcall, rfl, rfl⟩ | ⟨p₂, hcall, h⟩
    · exact .inl ⟨rfl, get_close_of_call hadds hcall⟩
    · obtain ⟨rfl, rfl⟩ := Prod.mk.inj h
      exact .inr ⟨rfl, call_set_true hadds hcall⟩

/-- The addresses are tried one after the other. -/
theorem connectLoop_spec : ∀ {ailist : List SockaddrIn} {p : Proc InetSocket},
    connectLoop type ailist p = (r, freed, p') → freed = 1 ∧
      ((r = -1 ∧ p'.fds.get = p.fds.get) ∨
        ∃ failed a rest p₁, ailist = failed ++ a :: rest ∧
          connectLoop type failed p = (-1, 1, p₁) ∧ connectIpv4Addr a 0 type p₁ = (r, p') ∧
          r = p.fds.lowest ∧
          p.fds.Adds p'.fds p.fds.lowest ⟨type, true, true, some (anyAddr 0), some a⟩) := by
  intro ailist
  induction ailist with
  | nil =>
      intro p h
      cases h
      exact ⟨rfl, .inl ⟨rfl, rfl⟩⟩
  | cons a as ih =>
      intro p h
      rw [connectLoop] at h
      rcases hone : connectIpv4Addr a 0 type p with ⟨r₁, p₁⟩
      rw [hone] at h
      rcases connectIpv4Addr_spec hone with ⟨rfl, hget⟩ | ⟨rfl, hadds⟩
      · -- the next address is tried in the same table
        obtain ⟨hfreed, ⟨hr, hget'⟩ | ⟨failed, b, rest, p₂, rfl, hfailed, hb, hr, hadds⟩⟩ := ih h
        · exact ⟨hfreed, .inl ⟨hr, hget'.trans hget⟩⟩
        · rw [FdTable.lowest_congr hget] at hr hadds
          refine ⟨hfreed,
            .inr ⟨a :: failed, b, rest, p₂, rfl, ?_, hb, hr, hadds.congr hget.symm⟩⟩
          rw [connectLoop, hone]
          exact hfailed
      · cases h
        exact ⟨rfl, .inr ⟨[], a, as, p, rfl, rfl, hone, rfl, hadds⟩⟩

end Inet

/-- **`connect_ipv4_host` leaves one descriptor or none.**  If it fails, its result is negative and
the same descriptors are open as before.  Otherwise there is one descriptor more, the result,
on a socket that is connected to an address that was found, after all addresses before it have
failed.  The list of the addresses is freed once. -/
theorem connectIpv4Host_spec (found : Except GaiError (List SockaddrIn)) (type : SockType)
    (p : Proc InetSocket) : ∃ r freed p', connectIpv4Host found type p = (r, freed, p') ∧
      (freed = match found with | .ok _ => 1 | .error _ => 0) ∧
      (r < 0 ∧ p'.fds.get = p.fds.get ∨
        ∃ failed a rest p₁, found = .ok (failed ++ a :: rest) ∧
          connectLoop type failed p = (-1, 1, p₁) ∧ r = p.fds.lowest ∧
          p.fds.Adds p'.fds p.fds.lowest ⟨type, true, true, some (anyAddr 0), some a⟩) := by
  rcases found with e | ailist
  · exact ⟨_, _, _, rfl, rfl, .inl ⟨e.2, rfl⟩⟩
  · obtain ⟨r, freed, p', hloop⟩ : ∃ r freed p', connectLoop type ailist p = (r, freed, p') :=
      ⟨_, _, _, rfl⟩
    refine ⟨r, freed, p', hloop, (connectLoop_spec hloop).1, ?_⟩
    rcases (connectLoop_spec hloop).2 with
      ⟨hr, hget⟩ | ⟨failed, a, rest, p₁, rfl, hfailed, -, hr, hadds⟩
    · refine .inl ⟨?_, hget⟩
      rw [hr]
      decide
    · exact .inr ⟨failed, a, rest, p₁, rfl, hfailed, hr, hadds⟩

/-! ### Which error the caller sees -/

section Errors

variable {φ : Type*} {p : Proc φ} {e : Errno}

theorem call_of_none (h : p.outcome 0 = none) (f : Proc φ → Proc φ) :
    p.call f = (true, f { p with calls := p.calls.tail }) := by
  obtain ⟨fds, errno, paths, calls⟩ := p
  rcases calls with _ | ⟨_ | e, os⟩
  · rfl
  · rfl
  · cases h

theorem call_of_some (h : p.outcome 0 = some e) (f : Proc φ → Proc φ) :
    p.call f = (false, { p with errno := e, calls := p.calls.tail }) := by
  obtain ⟨fds, errno, paths, calls⟩ := p
  rcases calls with _ | ⟨_ | e', os⟩
  · cases h
  · cases h
  · cases h
    rfl

theorem calls_call (p : Proc φ) (f : Proc φ → Proc φ) (hf : ∀ p, (f p).calls = p.calls) :
    (p.call f).2.calls = p.calls.tail := by
  rcases h : p.outcome 0 with _ | e
  · rw [call_of_none h, hf]
  · rw [call_of_some h]

theorem opening_of_some {β : Type*} (h : p.outcome 0 = some e) (s : φ) (code : β)
    (k : ℕ → Proc φ → β × Proc φ) :
    p.opening s code k = (code, { p with errno := e, calls := p.calls.tail }) := by
  rw [Proc.opening, call_of_some h]

theorem opening_of_none {β : Type*} (h : p.outcome 0 = none) (s : φ) (code : β)
    (k : ℕ → Proc φ → β × Proc φ) :
    p.opening s code k =
      k p.fds.lowest { p with fds := p.fds.insert s, calls := p.calls.tail } := by
  rw [Proc.opening, call_of_none h]

theorem outcome_of_tail {q : Proc φ} (h : q.calls = p.calls.tail) (i : ℕ) :
    q.outcome i = p.outcome (i + 1) := by
  rw [Proc.outcome, Proc.outcome, h, List.getElem?_tail]

end Errors

/-- If no socket can be made, `connect` is called with -1 for it. -/
theorem connectIpv4Addr_of_some {p : Proc InetSocket} {e : Errno} (h : p.outcome 0 = some e)
    (addr : SockaddrIn) (port : ℤ) (type : SockType) :
    connectIpv4Addr addr port type p = (-1, { p with errno := .ebadf, calls := p.calls.tail }) := by
  rw [connectIpv4Addr, setupSocketIpv4, opening_of_some h]
  rfl

/-- **The reason is lost.**  If `socket` fails for every address, whatever the reason, `errno` is
`EBADF` in the end. -/
theorem connectIpv4Host_errno (type : SockType) : ∀ {ailist : List SockaddrIn}
    {p : Proc InetSocket}, ailist ≠ [] → (∀ i < ailist.length, p.outcome i ≠ none) →
      (connectIpv4Host (.ok ailist) type p).1 = -1 ∧
        (connectIpv4Host (.ok ailist) type p).2.2.errno = .ebadf := by
  intro ailist
  induction ailist with
  | nil => intro p hne _; exact absurd rfl hne
  | cons a as ih =>
      intro p _ hfail
      obtain ⟨e, he⟩ := Option.ne_none_iff_exists'.mp (hfail 0 (Nat.zero_lt_succ _))
      have hloop : connectLoop type (a :: as) p =
          connectLoop type as { p with errno := .ebadf, calls := p.calls.tail } := by
        rw [connectLoop, connectIpv4Addr_of_some he]
        rfl
      rw [connectIpv4Host, hloop]
      by_cases hlast : as = []
      · subst hlast
        exact ⟨rfl, rfl⟩
      · refine ih hlast fun i hi => ?_
        rw [outcome_of_tail (p := p) rfl]
        exact hfail (i + 1) (Nat.succ_lt_succ hi)

/-- Two addresses and a process that may open no more descriptors. -/
theorem connectIpv4Host_errno_two :
    (connectIpv4Host (.ok [⟨80, 1⟩, ⟨80, 2⟩]) .stream
      ⟨⟨[]⟩, .other 0, [], [some (.other 24), some (.other 24)]⟩).2.2.errno = .ebadf :=
  (connectIpv4Host_errno .stream (by decide) (by decide)).2

/-! ### The functions for Unix sockets -/

/-- What goes wrong in `unix_socket_serv_listen`: its result and `errno`.  The calls are `socket`,
`unlink`, `bind` and `listen`. -/
def listenFailure (name : List UInt8) (p : Proc UnixSock) : Option (ℤ × Errno) :=
  if sizeofSunPath ≤ name.length then some (-1, .enametoolong)
  else match p.outcome 0 with
    | some e => some (-2, e)
    | none =>
        if name ≠ [] ∧ name ∈ p.paths ∧ p.outcome 1 ≠ none then some (-3, .eaddrinuse)
        else match p.outcome 2 with
          | some e => some (-3, e)
          | none => (p.outcome 3).map fun e => (-4, e)

/-- What goes wrong in a function that opens a descriptor and makes one call on it. -/
def secondFailure (first second : ℤ) (p : Proc UnixSock) : Option (ℤ × Errno) :=
  match p.outcome 0 with
  | some e => some (first, e)
  | none => (p.outcome 1).map fun e => (second, e)

/-- The result of a function that either fails or leaves a descriptor on `s`. -/
def Reports (failure : Option (ℤ × Errno)) (p : Proc UnixSock) (s : UnixSock)
    (res : ℤ × Proc UnixSock) : Prop :=
  match failure with
  | some (code, e) => res.1 = code ∧ res.2.errno = e ∧ res.2.fds.get = p.fds.get
  | none => res.1 = p.fds.lowest ∧ p.fds.Adds res.2.fds p.fds.lowest s

section Unix

variable {p : Proc UnixSock}

/-- `errout` keeps `errno` and leaves no descriptor. -/
theorem reports_errout {s s' : UnixSock} {q : Proc UnixSock} {code : ℤ} {e : Errno}
    (hadds : p.fds.Adds q.fds p.fds.lowest s') (he : q.errno = e) :
    Reports (some (code, e)) p s (code, q.errout p.fds.lowest) :=
  ⟨rfl, he, hadds.get_close⟩

/-- The last call on the descriptor. -/
theorem reports_last {s s' : UnixSock} {q : Proc UnixSock} {code : ℤ}
    (hadds : p.fds.Adds q.fds p.fds.lowest s') {f : Proc UnixSock → Proc UnixSock}
    (hf : ∀ os, p.fds.Adds (f { q with calls := os }).fds p.fds.lowest s) :
    Reports ((q.outcome 0).map fun e => (code, e)) p s
      (orElse (·.errout p.fds.lowest) code (q.call f) fun q => (p.fds.lowest, q)) := by
  rcases hq : q.outcome 0 with _ | e
  · rw [call_of_none hq]
    exact ⟨rfl, hf _⟩
  · rw [call_of_some hq]
    exact reports_errout hadds rfl

/-- A descriptor and one call on it. -/
theorem reports_second {s s' : UnixSock} {first second : ℤ} {f : ℕ → Proc UnixSock → Proc UnixSock}
    (hf : ∀ q : Proc UnixSock, p.fds.Adds q.fds p.fds.lowest s' →
      p.fds.Adds (f p.fds.lowest q).fds p.fds.lowest s) :
    Reports (secondFailure first second p) p s
      (p.opening s' first fun fd q =>
        orElse (·.errout fd) second (q.call (f fd)) fun q => (fd, q)) := by
  rcases hp : p.outcome 0 with _ | e
  · rw [opening_of_none hp, secondFailure, hp]
    have hadds := p.fds.adds_insert s'
    have hsecond : p.outcome 1 =
        (Proc.mk (p.fds.insert s') p.errno p.paths p.calls.tail).outcome 0 :=
      (outcome_of_tail rfl 0).symm
    dsimp only
    rw [hsecond]
    exact reports_last (q := ⟨p.fds.insert s', p.errno, p.paths, p.calls.tail⟩) hadds
      fun os => hf _ hadds
  · rw [opening_of_some hp, secondFailure, hp]
    exact ⟨rfl, rfl, rfl⟩

/-- **`unix_socket_cli_conn`** says which call has failed and why, and leaves a descriptor only
if none has. -/
theorem cliConn_spec (name : List UInt8) (p : Proc UnixSock) :
    Reports (if sizeofSunPath ≤ name.length then some (-1, .enametoolong)
      else secondFailure (-2) (-3) p) p ⟨none, none, some name⟩ (cliConn name p) := by
  rw [cliConn]
  split
  · exact ⟨rfl, rfl, rfl⟩
  · exact reports_second fun q hq => hq.openAt _

/-- **`unix_socket_serv_accept`** likewise, and it stores the user id only with a descriptor, if
there is a place for it. -/
theorem servAccept_spec (peer : Option (List UInt8)) (uid : ℕ) (uidptr : Option ℕ)
    (p : Proc UnixSock) : ∃ r stored p', servAccept peer uid uidptr p = ((r, stored), p') ∧
      Reports (secondFailure (-1) (-2) p) p ⟨none, none, peer⟩ (r, p') ∧
      stored = if secondFailure (-1) (-2) p = none then uidptr.map fun _ => uid else uidptr := by
  rw [secondFailure, servAccept]
  rcases haccept : p.outcome 0 with _ | e
  · rw [opening_of_none haccept]
    set q : Proc UnixSock := ⟨p.fds.insert ⟨none, none, peer⟩, p.errno, p.paths, p.calls.tail⟩
    have hadds : p.fds.Adds q.fds p.fds.lowest ⟨none, none, peer⟩ := p.fds.adds_insert _
    rw [← outcome_of_tail (q := q) rfl]
    rcases hcred : q.outcome 0 with _ | e
    · rw [call_of_none hcred]
      exact ⟨_, _, _, rfl, ⟨rfl, hadds⟩, rfl⟩
    · rw [call_of_some hcred]
      exact ⟨_, _, _, rfl, reports_errout hadds rfl, rfl⟩
  · rw [opening_of_some haccept]
    exact ⟨_, _, _, rfl, ⟨rfl, rfl, rfl⟩, rfl⟩

/-- The name after `unlink`. -/
theorem mem_paths_unlink {φ : Type*} {name : List UInt8} {q : Proc φ} :
    name ∈ (q.unlink name).paths ↔ name ∈ q.paths ∧ q.outcome 0 ≠ none := by
  rcases hq : q.outcome 0 with _ | e
  · rw [Proc.unlink, call_of_none hq]
    simp
  · rw [Proc.unlink, call_of_some hq]
    simp

theorem paths_unlink_subset {φ : Type*} (name : List UInt8) (q : Proc φ) :
    (q.unlink name).paths ⊆ q.paths := by
  rcases hq : q.outcome 0 with _ | e
  · rw [Proc.unlink, call_of_none hq]
    exact List.filter_sublist.subset
  · rw [Proc.unlink, call_of_some hq]
    exact List.Subset.refl _

theorem fds_unlink {φ : Type*} (name : List UInt8) (q : Proc φ) :
    (q.unlink name).fds = q.fds := by
  rcases hq : q.outcome 0 with _ | e
  · rw [Proc.unlink, call_of_none hq]
  · rw [Proc.unlink, call_of_some hq]

/-- The results with which nothing is bound. -/
theorem not_bound {code : ℤ} (h : code = -1 ∨ code = -2 ∨ code = -3) :
    ¬ (0 ≤ code ∨ code = -4) := by omega

theorem paths_call {φ : Type*} {q : Proc φ} {f : Proc φ → Proc φ}
    (hf : ∀ q, (f q).paths = q.paths) : (q.call f).2.paths = q.paths := by
  rcases hq : q.outcome 0 with _ | e
  · rw [call_of_none hq, hf]
  · rw [call_of_some hq]

theorem paths_last {φ : Type*} {q : Proc φ} {f : Proc φ → Proc φ} (hf : ∀ q, (f q).paths = q.paths)
    (fd : ℕ) (code : ℤ) :
    (orElse (·.errout fd) code (q.call f) fun q => (fd, q)).2.paths = q.paths := by
  have hcall := paths_call (q := q) hf
  rcases h : q.call f with ⟨_ | _, q'⟩
  · rw [h] at hcall
    exact (paths_call (f := id) fun _ => rfl).trans hcall
  · rw [h] at hcall
    exact hcall

/-- Why `bind` fails. -/
def bindError (name : List UInt8) (q : Proc UnixSock) : Option Errno :=
  if name ≠ [] ∧ name ∈ q.paths then some .eaddrinuse else q.outcome 0

/-- The names after `bind`. -/
def boundPaths (name : List UInt8) (paths : List (List UInt8)) : List (List UInt8) :=
  if name = [] then paths else name :: paths

theorem bind_of_some {name : List UInt8} {q : Proc UnixSock} {e : Errno}
    (h : bindError name q = some e) (fd : ℕ) :
    ∃ os, q.bind fd name = (false, { q with errno := e, calls := os }) := by
  unfold bindError at h
  by_cases hempty : name = []
  · rw [if_neg (by simp [hempty])] at h
    exact ⟨_, by rw [Proc.bind, if_pos hempty, call_of_some h]⟩
  by_cases hmem : name ∈ q.paths
  · rw [if_pos ⟨hempty, hmem⟩] at h
    obtain rfl := Option.some.inj h
    exact ⟨q.calls, by rw [Proc.bind, if_neg hempty, if_pos hmem]⟩
  · rw [if_neg fun hboth => hmem hboth.2] at h
    exact ⟨_, by rw [Proc.bind, if_neg hempty, if_neg hmem, call_of_some h]⟩

theorem bind_of_none {name : List UInt8} {q : Proc UnixSock} (h : bindError name q = none)
    (fd : ℕ) : q.bind fd name = (true,
      ⟨q.fds.openAt fd ⟨some (.ofName name), none, none⟩, q.errno, boundPaths name q.paths,
        q.calls.tail⟩) := by
  unfold bindError at h
  by_cases hempty : name = []
  · rw [if_neg (by simp [hempty])] at h
    rw [Proc.bind, if_pos hempty, call_of_none h, boundPaths, SunAddr.ofName, if_pos hempty,
      if_pos hempty]
    rfl
  · have hnew : ¬(name ≠ [] ∧ name ∈ q.paths) := fun hboth => by
      rw [if_pos hboth] at h
      cases h
    rw [if_neg hnew] at h
    rw [Proc.bind, if_neg hempty, if_neg fun hmem => hnew ⟨hempty, hmem⟩, call_of_none h,
      boundPaths, SunAddr.ofName, if_neg hempty, if_neg hempty]
    rfl

/-- `bind` and `listen` on the new descriptor. -/
theorem reports_bind_listen {name : List UInt8} (qlen : ℕ) {s : UnixSock} {q : Proc UnixSock}
    (hadds : p.fds.Adds q.fds p.fds.lowest s) {res : ℤ × Proc UnixSock}
    (hres : orElse (·.errout p.fds.lowest) (-3) (q.bind p.fds.lowest name) (fun q =>
      orElse (·.errout p.fds.lowest) (-4)
        (q.call (·.set p.fds.lowest ⟨some (.ofName name), some qlen, none⟩))
        fun q => ((p.fds.lowest : ℤ), q)) = res) :
    Reports (match bindError name q with
        | some e => some (-3, e)
        | none => (q.outcome 1).map fun e => (-4, e)) p ⟨some (.ofName name), some qlen, none⟩ res ∧
      (0 ≤ res.1 ∨ res.1 = -4 → res.2.paths = boundPaths name q.paths) := by
  rcases hbind : bindError name q with _ | e
  · rw [bind_of_none hbind] at hres
    obtain rfl := hres
    set q₁ : Proc UnixSock := ⟨q.fds.openAt p.fds.lowest ⟨some (.ofName name), none, none⟩,
      q.errno, boundPaths name q.paths, q.calls.tail⟩
    have hlisten : q.outcome 1 = q₁.outcome 0 := (outcome_of_tail rfl 0).symm
    dsimp only
    rw [hlisten]
    refine ⟨reports_last (hadds.openAt _) fun os => (hadds.openAt _).openAt _, fun _ => ?_⟩
    -- the name stays, whatever `listen` says
    exact paths_last (q := q₁)
      (f := (·.set p.fds.lowest ⟨some (.ofName name), some qlen, none⟩)) (fun _ => rfl)
      p.fds.lowest (-4)
  · obtain ⟨os, hfails⟩ := bind_of_some hbind p.fds.lowest
    rw [hfails] at hres
    obtain rfl := hres
    exact ⟨reports_errout hadds rfl, fun hb => absurd hb (not_bound (.inr (.inr rfl)))⟩

/-- **`unix_socket_serv_listen`** says which call has failed and why, and leaves a descriptor only
if none has; the name is there when it has been bound, also if `listen` fails.  An empty name is
none: the socket then has an address that the kernel has chosen. -/
theorem servListen_spec (name : List UInt8) (qlen : ℕ) (p : Proc UnixSock) :
    Reports (listenFailure name p) p ⟨some (.ofName name), some qlen, none⟩
        (servListen name qlen p) ∧
      (0 ≤ (servListen name qlen p).1 ∨ (servListen name qlen p).1 = -4 →
        if name = [] then (servListen name qlen p).2.paths ⊆ p.paths
        else name ∈ (servListen name qlen p).2.paths) := by
  rw [servListen, listenFailure]
  split
  · exact ⟨⟨rfl, rfl, rfl⟩, fun hb => absurd hb (not_bound (.inl rfl))⟩
  rcases hsocket : p.outcome 0 with _ | e
  · rw [opening_of_none hsocket]
    set q : Proc UnixSock := ⟨p.fds.insert ⟨none, none, none⟩, p.errno, p.paths, p.calls.tail⟩
    have hadds : p.fds.Adds (q.unlink name).fds p.fds.lowest ⟨none, none, none⟩ := by
      rw [fds_unlink]
      exact p.fds.adds_insert _
    have hcalls : (q.unlink name).calls = p.calls.tail.tail := calls_call q _ fun _ => rfl
    have houtcome : ∀ i, (q.unlink name).outcome i = p.outcome (i + 2) := fun i => by
      rw [outcome_of_tail (p := q) hcalls, outcome_of_tail (p := p) rfl]
    have hmem : name ∈ (q.unlink name).paths ↔ name ∈ p.paths ∧ p.outcome 1 ≠ none := by
      rw [mem_paths_unlink, outcome_of_tail (p := p) rfl]
    obtain ⟨hreports, hbound⟩ := reports_bind_listen qlen hadds rfl
    constructor
    · rw [bindError, houtcome, houtcome, if_congr (and_congr_right fun _ => hmem) rfl rfl]
        at hreports
      convert hreports using 1
      split_ifs <;> rfl
    · intro hb
      rw [hbound hb, boundPaths]
      split_ifs
      · exact paths_unlink_subset name q
      · exact List.mem_cons_self
  · rw [opening_of_some hsocket]
    exact ⟨⟨rfl, rfl, rfl⟩, fun hb => absurd hb (not_bound (.inr (.inl rfl)))⟩

end Unix

end Apue.SocketSetup
