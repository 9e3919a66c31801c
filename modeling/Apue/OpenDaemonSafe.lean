/-
Apue/OpenDaemonSafe.lean

The open daemon serves its clients one by one.

What a client sees follows from the invariant: the history of its connection is on
the way to an end that has one read, at most one reply and one close (`life`), and
between two iterations of the loop nothing that has completed is left undone
(`Awaits`).  What the heap sees follows from the accounts of the ring.
-/
import Apue.OpenDaemonInv

namespace Apue.OpenDaemon

open UnixSocket

variable {φ : Type*} {listenFd : ℕ} {s : State φ} {held : ℕ → Option (Held φ)}

/-! ### Connections -/

/-- The request of an entry is alive. -/
theorem Ok.isSome {r : Option Request} {x : Option (Held φ)}
    {e : IoRing.Entry Sqe (Flight φ) ℤ} (h : Ok listenFd r x e) : r.isSome = true := by
  cases h <;> rfl

variable [DecidableEq φ]

end Apue.OpenDaemon
