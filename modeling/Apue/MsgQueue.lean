/-
Apue/MsgQueue.lean

The message queue of `11/10_usage_cond.cpp`: class `message_process` with
`enqueue_msg` and `process_msg`, run by any number of threads.

A program counter names the next operation of a thread, so that threads
interleave between the empty test, the wait, the copy of the front element and the
pop.  A thread that calls `pthread_cond_wait` releases the mutex and sleeps in one
step; `pthread_cond_signal` wakes one sleeping thread, chosen by the scheduler, and
is lost if there is none; a sleeping thread may also wake up for no reason.  A
woken thread takes the mutex again before it goes on.

A thread that runs `process_msg` ends when the function returns.  What happens to
messages (calls of `enqueue_msg`, pushes, pops, processing) is recorded beside the
program, from its steps (`observe`).
-/
import Mathlib.Data.Fintype.Basic
import Mathlib.Data.Int.Basic
import Apue.Machine
import Apue.Threads

namespace Apue.MsgQueue

/-- `struct msg`. -/
structure Msg where
  id : ℤ
  data : String
  deriving DecidableEq, Repr

/-- The id that ends a consumer. -/
def stopId : ℤ := -1

/-- The next operation of a thread. -/
inductive Pc
  | idle
  -- enqueue_msg(mp)
  | enqueueLock (mp : Msg)
  | enqueuePush (mp : Msg)
  | enqueueUnlock
  | enqueueSignal
  -- process_msg()
  | processLock
  | processEmpty            -- while (messages.empty())
  | processWait             -- pthread_cond_wait(&ready, &lock)
  | asleep                  -- inside pthread_cond_wait, not woken
  | woken                   -- inside pthread_cond_wait, taking the mutex again
  | processFront            -- msg mp = messages.front()
  | processPop (mp : Msg)
  | processUnlock (mp : Msg)
  | processPrint (mp : Msg)
  | processBreak (mp : Msg) -- if (mp.id == -1) break
  | exited
  | fault                   -- front() or pop() of an empty queue
  deriving DecidableEq, Repr

/-- The state of the program. -/
structure State (T : Type*) where
  messages : List Msg
  lock : Option T
  pc : T → Pc

variable {T : Type*}

/-- An empty queue. -/
def initState : State T where
  messages := []
  lock := none
  pc := fun _ => .idle

variable [DecidableEq T] (s : State T) (t : T)

/-- The thread continues at `p`. -/
def State.goto (p : Pc) : State T := { s with pc := Function.update s.pc t p }

/-- `pthread_mutex_lock(&lock)`. -/
def State.acquire (p : Pc) : Option (State T) :=
  if s.lock = none then some ({ s with lock := some t }.goto t p) else none

/-- The mutex is released. -/
def State.release (p : Pc) : State T := { s with lock := none }.goto t p

/-- One operation of thread `t`, apart from a signal.  `none` means that the thread is
between two calls, asleep, finished, or has to wait for the mutex. -/
def step : Option (State T) :=
  match s.pc t with
  | .idle | .exited | .fault | .asleep | .enqueueSignal => none
  | .enqueueLock mp => s.acquire t (.enqueuePush mp)
  | .enqueuePush mp => some ({ s with messages := s.messages ++ [mp] }.goto t .enqueueUnlock)
  | .enqueueUnlock => some (s.release t .enqueueSignal)
  | .processLock => s.acquire t .processEmpty
  | .processEmpty =>
      some (s.goto t (if s.messages.isEmpty then .processWait else .processFront))
  | .processWait => some (s.release t .asleep)
  | .woken => s.acquire t .processEmpty
  | .processFront =>
      match s.messages with
      | [] => some (s.goto t .fault)
      | mp :: _ => some (s.goto t (.processPop mp))
  | .processPop mp =>
      match s.messages with
      | [] => some (s.goto t .fault)
      | _ :: ms => some ({ s with messages := ms }.goto t (.processUnlock mp))
  | .processUnlock mp => some (s.release t (.processPrint mp))
  | .processPrint mp => some (s.goto t (.processBreak mp))
  | .processBreak mp => some (s.goto t (if mp.id = stopId then .exited else .processLock))

variable [Fintype T]

/-- `pthread_cond_signal(&ready)` by `t`: it wakes `w`. -/
def signal : Option T → Option (State T)
  | some w =>
      if s.pc t = .enqueueSignal ∧ s.pc w = .asleep then
        some ((s.goto t .idle).goto w .woken)
      else none
  | none =>
      if s.pc t = .enqueueSignal ∧ ∀ w, s.pc w ≠ .asleep then some (s.goto t .idle) else none

/-- What can happen next. -/
inductive Action (T : Type*)
  /-- a thread calls `enqueue_msg` -/
  | enqueueMsg (t : T) (mp : Msg)
  /-- a thread is started that runs `process_msg` -/
  | processMsg (t : T)
  | step (t : T)
  | signal (t : T) (w : Option T)
  | spurious (t : T)

/-- One step of the program. -/
def next (s : State T) : Action T → Option (State T)
  | .enqueueMsg t mp => if s.pc t = .idle then some (s.goto t (.enqueueLock mp)) else none
  | .processMsg t => if s.pc t = .idle then some (s.goto t .processLock) else none
  | .step t => step s t
  | .signal t w => signal s t w
  | .spurious t => if s.pc t = .asleep then some (s.goto t .woken) else none

/-- The message queue and the threads that use it. -/
def msgQueue (T : Type*) [DecidableEq T] [Fintype T] : Machine (State T) (Action T) where
  init s := s = initState
  next := next

/-! ### What happens to messages -/

/-- What can happen to a message: a thread calls `enqueue_msg` with it, pushes it, pops it,
processes it. -/
inductive What
  | called
  | pushed
  | popped
  | processed
  deriving DecidableEq, Repr

/-- What happened, in which thread, to which message. -/
structure Event (T : Type*) where
  what : What
  thread : T
  msg : Msg
  deriving DecidableEq

/-- What the next operation of thread `t` does to messages.  What is popped is the front of the
queue, whatever the thread takes it for. -/
def observeStep (s : State T) (t : T) : List (Event T) :=
  match s.pc t with
  | .enqueuePush mp => [⟨.pushed, t, mp⟩]
  | .processPop _ => s.messages.head?.toList.map (⟨.popped, t, ·⟩)
  | .processPrint mp => [⟨.processed, t, mp⟩]
  | _ => []

/-- What an action does to messages. -/
def observe (s : State T) : Action T → List (Event T)
  | .enqueueMsg t mp => [⟨.called, t, mp⟩]
  | .step t => observeStep s t
  | .processMsg _ | .signal _ _ | .spurious _ => []

/-- The message queue and its history. -/
def msgQueueObserved (T : Type*) [DecidableEq T] [Fintype T] :
    Machine (State T × List (Event T)) (Action T) :=
  (msgQueue T).recorded observe

/-- The messages to which it happened, in order. -/
def messagesOf (w : What) (l : List (Event T)) : List Msg :=
  (l.filter fun e => e.what = w).map Event.msg

/-- The messages to which it happened in thread `t`, in order. -/
def messagesOfThread (w : What) (t : T) (l : List (Event T)) : List Msg :=
  messagesOf w (l.filter fun e => e.thread = t)

end Apue.MsgQueue
