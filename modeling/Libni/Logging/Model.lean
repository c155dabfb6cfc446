import Mathlib.Data.List.Count
import Mathlib.Logic.Function.Basic
import Libni.Transition.System

/-!
A `LogService` whose worker has been started: any number of logging threads, the
worker's `run` and one call of `stop`. The channel of a thread is named by the
thread. Pushes and pops of channels and of `m_pending_channels` are one step each,
so registrations do not overlap; every other access of shared memory is a step
of its own.
-/

namespace Libni.Logging

open Function Libni.Transition

/-- What `log` does at a full channel: try again until there is room, or give
up the message. -/
inductive OverflowStrategy where
  | retry
  | dropMessage
  deriving DecidableEq

/-- The `seq`-th message of a thread. -/
structure Message (τ ι : Type*) where
  thread : τ
  seq : Nat
  logger : ι
  deriving DecidableEq

/-- The loggers' overflow strategies and the capacity of a channel. Both are
fixed when the service is created. -/
structure Config (ι : Type*) where
  strategy : ι → OverflowStrategy
  queueSize : Nat

/-- The next access of `MessageBus::notify`. It calls `wake` only if its
exchange has set the futex word. -/
inductive NotifyPc where
  | load
  | exchange
  | wake
  deriving DecidableEq

/-- The next access of `Logger::log`. A thread registers its channel with its
first message. -/
inductive LogPc (τ ι : Type*) where
  | idle
  | register (message : Message τ ι)
  | push (message : Message τ ι)
  | notify (message : Message τ ι) (pc : NotifyPc)
  deriving DecidableEq

/-- The next access of `LogWorker::stop`, up to the join. -/
inductive StopPc where
  | notCalled
  | storeStopping
  | notify (pc : NotifyPc)
  | join
  | returned
  deriving DecidableEq

/-- The next access of `LogWorker::run`. A scan is about to pop from the
channel with the given index, and remembers `has_messages`; `woken` is a
return of `Futex::wait` with true. -/
inductive WorkerPc (τ ι : Type*) where
  | collecting
  | scan (index : Nat) (hasMessages : Bool)
  | saving (index : Nat) (message : Message τ ι)
  | loadStopping
  | storeZero
  | futexWait
  | asleep
  | woken
  | returned
  deriving DecidableEq

/-- What a failing system call leaves behind, as far as `wait` tells it apart.
It stays until something else sets it. -/
inductive Errno where
  | intr
  | wouldBlock
  | other
  deriving DecidableEq

/-- A service with its message bus, the threads that log to it, its worker and
the thread that calls `stop`. `queue` holds the messages in the channel of
each thread and `registered` says whose channel has been pushed. The last four
fields are history: how many messages each thread has logged, which numbers
them, the messages passed to the loggers' `save`, those whose `log` has
returned and those whose `log` had returned when `stop` was called. -/
structure Service (τ ι : Type*) where
  channels : List τ
  pending : List τ
  queue : τ → List (Message τ ι)
  futex : Bool
  stopping : Bool
  threads : τ → LogPc τ ι
  registered : τ → Bool
  stopper : StopPc
  worker : WorkerPc τ ι
  spins : Nat
  errno : Errno
  sent : τ → Nat
  saved : ι → List (Message τ ι)
  returned : List (Message τ ι)
  atStop : List (Message τ ι)

/-- A step of a thread or of the stopper, a step of the worker, the ways out
of the futex other than `wake`, and a change of the worker's `errno`. -/
inductive Label (τ ι : Type*) where
  | log (thread : τ) (logger : ι)
  | step (thread : τ)
  | stop
  | stopStep
  | work
  | interrupt
  | spurious
  | setErrno (errno : Errno)
  deriving DecidableEq

def maxSpins : Nat := 2048

section Notify

/-- What `notify` does after its access, given the futex word it finds. -/
def NotifyPc.next (futex : Bool) : NotifyPc → Option NotifyPc
  | .load => if futex then none else some .exchange
  | .exchange => if futex then none else some .wake
  | .wake => none

/-- The futex word after the access. -/
def NotifyPc.store (futex : Bool) : NotifyPc → Bool
  | .exchange => true
  | _ => futex

variable {τ ι : Type*}

/-- The worker after the access. A `wake` while it is not asleep is not
remembered. -/
def NotifyPc.rouse (worker : WorkerPc τ ι) : NotifyPc → WorkerPc τ ι
  | .wake => if worker matches .asleep then .woken else worker
  | _ => worker

def Service.notify (s : Service τ ι) (pc : NotifyPc) : Service τ ι :=
  { s with futex := pc.store s.futex, worker := pc.rouse s.worker }

end Notify

section Step

variable {τ ι : Type*} [DecidableEq τ] [DecidableEq ι]

/-- One access of `get_input_channel`, on the first message of a thread. It
tries again while four channels are pending. -/
def Service.register (s : Service τ ι) (t : τ) (m : Message τ ι) : Service τ ι :=
  if s.pending.length < 4 then
    { s with
      pending := s.pending ++ [t]
      registered := update s.registered t true
      threads := update s.threads t (.push m) }
  else s

def Service.push (c : Config ι) (s : Service τ ι) (t : τ) (m : Message τ ι) : Service τ ι :=
  if (s.queue t).length < c.queueSize then
    { s with
      queue := update s.queue t (s.queue t ++ [m])
      threads := update s.threads t (.notify m .load) }
  else
    match c.strategy m.logger with
    | .retry => s
    | .dropMessage =>
        { s with threads := update s.threads t .idle, returned := m :: s.returned }

/-- One access of `notify` by a thread, after which its `log` may return. -/
def Service.notifyStep (s : Service τ ι) (t : τ) (m : Message τ ι) (pc : NotifyPc) :
    Service τ ι :=
  { s.notify pc with
    threads := update s.threads t ((pc.next s.futex).elim .idle (.notify m))
    returned := if (pc.next s.futex).isNone then m :: s.returned else s.returned }

def Service.log (s : Service τ ι) (t : τ) (logger : ι) : Option (Service τ ι) :=
  match s.threads t with
  | .idle =>
      let m := { thread := t, seq := s.sent t, logger := logger }
      some { s with
        sent := update s.sent t (s.sent t + 1)
        threads := update s.threads t (if s.registered t then .push m else .register m) }
  | _ => none

def Service.logStep (c : Config ι) (s : Service τ ι) (t : τ) : Option (Service τ ι) :=
  match s.threads t with
  | .idle => none
  | .register m => some (s.register t m)
  | .push m => some (s.push c t m)
  | .notify m pc => some (s.notifyStep t m pc)

/-- `stop` is called, at most once. -/
def Service.stop (s : Service τ ι) : Option (Service τ ι) :=
  match s.stopper with
  | .notCalled => some { s with stopper := .storeStopping, atStop := s.returned }
  | _ => none

/-- One access of `stop`. The join goes on only when the worker has returned. -/
def Service.stopStep (s : Service τ ι) : Option (Service τ ι) :=
  match s.stopper with
  | .storeStopping => some { s with stopping := true, stopper := .notify .load }
  | .notify pc => some { s.notify pc with stopper := (pc.next s.futex).elim .join .notify }
  | .join =>
      match s.worker with
      | .returned => some { s with stopper := .returned }
      | _ => none
  | _ => none

/-- The end of a pass over the channels that has found a message, or of
`wait`. -/
def Service.again (s : Service τ ι) : Service τ ι :=
  { s with spins := 0, worker := .collecting }

/-- One access of the pass over the channels. A pass takes one message from a
channel at most. -/
def Service.scan (s : Service τ ι) (i : Nat) (hasMessages : Bool) : Service τ ι :=
  match s.channels[i]? with
  | some t =>
      match s.queue t with
      | [] => { s with worker := .scan (i + 1) hasMessages }
      | m :: rest => { s with queue := update s.queue t rest, worker := .saving i m }
  | none => if hasMessages then s.again else { s with worker := .loadStopping }

/-- One access of the worker. After a pass without messages it loads
`m_stopping`, and sleeps when it has spun long enough; before that it stores 0
in the futex word. -/
def Service.work (s : Service τ ι) : Option (Service τ ι) :=
  match s.worker with
  | .collecting =>
      match s.pending with
      | t :: rest => some { s with pending := rest, channels := s.channels ++ [t] }
      | [] => some { s with worker := .scan 0 false }
  | .scan i hasMessages => some (s.scan i hasMessages)
  | .saving i m => some { s with
      saved := update s.saved m.logger (s.saved m.logger ++ [m])
      worker := .scan (i + 1) true }
  | .loadStopping => some (
      if s.stopping then { s with worker := .returned }
      else if s.spins < maxSpins then { s with spins := s.spins + 1, worker := .collecting }
      else { s with worker := .storeZero })
  | .storeZero => some { s with futex := false, worker := .futexWait }
  -- the kernel compares the word and puts the worker to sleep in one step
  | .futexWait => some (
      if s.futex then { s with errno := .wouldBlock, worker := .woken }
      else { s with worker := .asleep })
  -- `Futex::wait` has returned true, so `errno` is whatever was left in it
  | .woken => some (if s.errno = .intr then { s with worker := .futexWait } else s.again)
  | .asleep | .returned => none

/-- The steps of all threads. A sleep ends with a `wake`, a signal or without
any cause. -/
def Service.next (c : Config ι) (s : Service τ ι) : Label τ ι → Option (Service τ ι)
  | .log t logger => s.log t logger
  | .step t => s.logStep c t
  | .stop => s.stop
  | .stopStep => s.stopStep
  | .work => s.work
  -- `Futex::wait` returns false on a signal, which ends the loop of `wait`
  | .interrupt => if s.worker = .asleep then some { s.again with errno := .intr } else none
  | .spurious => if s.worker = .asleep then some { s with worker := .woken } else none
  | .setErrno e =>
      match s.worker with
      | .futexWait | .asleep | .woken => none
      | _ => some { s with errno := e }

def Service.initial : Service τ ι where
  channels := []
  pending := []
  queue _ := []
  futex := false
  stopping := false
  threads _ := .idle
  registered _ := false
  stopper := .notCalled
  worker := .collecting
  spins := 0
  errno := .other
  sent _ := 0
  saved _ := []
  returned := []
  atStop := []

variable (τ) in
/-- The service with any number of threads that log to it. Every access of
shared memory is a step, in any order. -/
def system (c : Config ι) : System (Service τ ι) (Label τ ι) where
  init s := s = Service.initial
  next := Service.next c

end Step

end Libni.Logging
