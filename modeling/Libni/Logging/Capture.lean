import Libni.Logging.Model
import Libni.Logging.Registration

/-!
One `MessageBus` with its loggers, their sinks and the worker, for messages
created by `Capture`. Every access of a thread's channel and of
`m_pending_channels` is a step, in any interleaving of the threads and the
worker's passes. Waking the worker up and stopping it only decide when its next
pass begins, so a pass may begin at any time here. A message stands for the
pointer to it; what is formatted into it is left out.
-/

namespace Libni.Logging

open Function Libni.Transition
open Libni.RingBuffer (PushPc PopPc)

inductive LogSeverity where
  | debug
  | info
  | notice
  | warning
  | error
  | critical
  deriving DecidableEq

def LogSeverity.toNat : LogSeverity → Nat
  | .debug => 0
  | .info => 1
  | .notice => 2
  | .warning => 3
  | .error => 4
  | .critical => 5

/-- The `seq`-th message created by a thread, with the logger and the severity
that `Capture` was given. -/
structure LogMessage (τ ι : Type*) where
  thread : τ
  seq : Nat
  logger : ι
  severity : LogSeverity
  deriving DecidableEq

/-- The loggers with the levels of their sinks, and the size of a channel.
They do not change while the threads log. -/
structure Setup (ι : Type*) where
  level : ι → LogSeverity
  overflowStrategy : ι → OverflowStrategy
  sinks : ι → List LogSeverity
  queueSize : Nat
  size_pow : ∃ k, queueSize = 2 ^ (k + 1)

/-- Where a thread is in `log`: initializing its channel, or in the loop
around `push`. -/
inductive CallerPc (τ ι : Type*) where
  | idle
  | registering (message : LogMessage τ ι) (pc : PushPc (Option τ))
  | pushing (message : LogMessage τ ι) (pc : PushPc (Option (LogMessage τ ι)))

/-- Where the worker is in a pass: collecting channels, at the channel with
the given index, popping from it, or saving what it has popped. -/
inductive PassPc (τ ι : Type*) where
  | collecting (pc : PopPc (Option τ))
  | placing (channel : τ)
  | scan (index : Nat)
  | popping (index : Nat) (channel : τ) (pc : PopPc (Option (LogMessage τ ι)))
  | saving (index : Nat) (message : LogMessage τ ι)

/-- The state of the bus and of what its threads have produced. `received` is
what the sinks have written. The last three fields are history: what each
channel has accepted, what `log` has discarded, and what the loggers have
saved, in order. -/
structure Delivery (τ ι : Type*) where
  channel : τ → RingBuffer.Ring (Option (LogMessage τ ι))
  pending : RingBuffer.Ring (Option τ)
  channels : List τ
  registered : τ → Bool
  threads : τ → CallerPc τ ι
  worker : PassPc τ ι
  created : τ → Nat
  received : ι → Nat → List (LogMessage τ ι)
  accepted : τ → List (LogMessage τ ι)
  discarded : List (LogMessage τ ι)
  saved : List (ι × LogMessage τ ι)

/-- `Capture` is given a logger or null. The other actions are one access of a
thread or of the worker. -/
inductive Action (τ ι : Type*) where
  | capture (thread : τ) (logger : Option ι) (severity : LogSeverity)
  | step (thread : τ)
  | work

section Step

variable {τ ι : Type*} [DecidableEq τ] [DecidableEq ι]

/-- `Sink::should_accept` for a sink of the given level. -/
def shouldAccept (level : LogSeverity) (message : LogMessage τ ι) : Bool :=
  decide (level.toNat ≤ message.severity.toNat)

/-- `m_enabled`. -/
def Setup.enabled (c : Setup ι) (logger : ι) (severity : LogSeverity) : Bool :=
  decide ((c.level logger).toNat ≤ severity.toNat)

/-- The constructor of `Capture` and, if it has created a message, the call of
`log` by its destructor. -/
def Delivery.capture (c : Setup ι) (s : Delivery τ ι) (t : τ) (logger : Option ι)
    (severity : LogSeverity) : Option (Delivery τ ι) :=
  match s.threads t, logger with
  | .idle, none => some s
  | .idle, some i =>
      if c.enabled i severity then
        let message := { thread := t, seq := s.created t, logger := i, severity := severity }
        some { s with
          created := update s.created t (s.created t + 1)
          threads := update s.threads t
            (if s.registered t then .pushing message (.loadIndex (some message))
              else .registering message (.loadIndex (some t))) }
      else some s
  | _, _ => none

/-- One access of the initialization of `channel`. -/
def Delivery.registerStep (s : Delivery τ ι) (t : τ) (message : LogMessage τ ι)
    (pc : PushPc (Option τ)) : Delivery τ ι :=
  match Logging.registerStep s.pending t pc with
  | (r, .registering pc) =>
      { s with pending := r, threads := update s.threads t (.registering message pc) }
  | (r, .registered) => { s with
      pending := r
      registered := update s.registered t true
      threads := update s.threads t (.pushing message (.loadIndex (some message))) }
  | (_, .idle) => s

/-- What a channel accepts with an access of `push`. -/
def accepts : PushPc (Option (LogMessage τ ι)) → List (LogMessage τ ι)
  | .storeSlot (some message) _ => [message]
  | _ => []

/-- One access of the loop of `log`. A push that has failed is tried again or
given up, as the logger's strategy says. -/
def Delivery.pushStep (c : Setup ι) (s : Delivery τ ι) (t : τ) (message : LogMessage τ ι)
    (pc : PushPc (Option (LogMessage τ ι))) : Delivery τ ι :=
  match RingBuffer.pushStep none (s.channel t) pc with
  | (r, .push pc') => { s with
      channel := update s.channel t r
      accepted := update s.accepted t (s.accepted t ++ accepts pc)
      threads := update s.threads t (.pushing message pc') }
  | (r, .done (.pushed true)) =>
      { s with channel := update s.channel t r, threads := update s.threads t .idle }
  | (_, _) =>
      match c.overflowStrategy message.logger with
      | .retry => { s with
          threads := update s.threads t (.pushing message (.loadIndex (some message))) }
      | .dropMessage => { s with
          discarded := message :: s.discarded
          threads := update s.threads t .idle }

def Delivery.logStep (c : Setup ι) (s : Delivery τ ι) (t : τ) : Option (Delivery τ ι) :=
  match s.threads t with
  | .idle => none
  | .registering message pc => some (s.registerStep t message pc)
  | .pushing message pc => some (s.pushStep c t message pc)

/-- `save` of logger `i`: every sink writes the message if it accepts it. -/
def Delivery.save (c : Setup ι) (s : Delivery τ ι) (i : ι) (message : LogMessage τ ι) :
    Delivery τ ι :=
  { s with
    saved := s.saved ++ [(i, message)]
    received := update s.received i fun k =>
      match (c.sinks i)[k]? with
      | some level =>
          if shouldAccept level message then s.received i k ++ [message] else s.received i k
      | none => s.received i k }

/-- One access of the worker's pop from the channel of `t`. -/
def Delivery.popStep (s : Delivery τ ι) (index : Nat) (t : τ)
    (pc : PopPc (Option (LogMessage τ ι))) : Delivery τ ι :=
  match RingBuffer.popStep none (s.channel t) pc with
  | (r, .pop pc) =>
      { s with channel := update s.channel t r, worker := .popping index t pc }
  | (r, .done (.popped (some message))) =>
      { s with channel := update s.channel t r, worker := .saving index message }
  | (r, _) =>
      { s with channel := update s.channel t r, worker := .scan (index + 1) }

/-- One access of a pass. After the last channel the next pass begins with
collecting. -/
def Delivery.work (c : Setup ι) (s : Delivery τ ι) : Delivery τ ι :=
  match s.worker with
  | .collecting pc =>
      match collectStep s.pending pc with
      | (r, .popping pc) => { s with pending := r, worker := .collecting pc }
      | (r, .placing t) => { s with pending := r, worker := .placing t }
      | (r, .idle) => { s with pending := r, worker := .scan 0 }
  | .placing t => { s with channels := s.channels ++ [t], worker := .collecting .loadIndex }
  | .scan index =>
      match s.channels[index]? with
      | some t => { s with worker := .popping index t .loadIndex }
      | none => { s with worker := .collecting .loadIndex }
  | .popping index t pc => s.popStep index t pc
  | .saving index message =>
      { s.save c message.logger message with worker := .scan (index + 1) }

def Delivery.next (c : Setup ι) (s : Delivery τ ι) : Action τ ι → Option (Delivery τ ι)
  | .capture t logger severity => s.capture c t logger severity
  | .step t => s.logStep c t
  | .work => some (s.work c)

def Delivery.initial (c : Setup ι) : Delivery τ ι where
  channel _ := RingBuffer.Ring.new none c.queueSize c.size_pow
  pending := RingBuffer.Ring.new none 4 RingBuffer.Ring.four_eq_pow
  channels := []
  registered _ := false
  threads _ := .idle
  worker := .collecting .loadIndex
  created _ := 0
  received _ _ := []
  accepted _ := []
  discarded := []
  saved := []

variable (τ) in
def delivery (c : Setup ι) : System (Delivery τ ι) (Action τ ι) where
  init s := s = Delivery.initial c
  next := Delivery.next c

section Next

variable {c : Setup ι} {s s' : Delivery τ ι} {t : τ}

omit [DecidableEq ι] in
/-- A message that is captured gets the next number of its thread. One below
the level of its logger is not created at all. -/
theorem Delivery.capture_cases {logger : Option ι} {severity : LogSeverity}
    (h : s.capture c t logger severity = some s') : s' = s ∨
      ∃ i, s.threads t = .idle ∧ c.enabled i severity = true ∧
        let message := { thread := t, seq := s.created t, logger := i, severity := severity }
        s' = { s with
          created := update s.created t (s.created t + 1)
          threads := update s.threads t
            (if s.registered t then .pushing message (.loadIndex (some message))
              else .registering message (.loadIndex (some t))) } := by
  unfold Delivery.capture at h
  split at h
  · exact .inl (Option.some.inj h).symm
  · next i hidle =>
    split at h
    · next henabled => exact .inr ⟨i, hidle, henabled, (Option.some.inj h).symm⟩
    · exact .inl (Option.some.inj h).symm
  · cases h

/-- A thread in `log` makes an access of the bus's ring buffer or of its own
channel. -/
theorem Delivery.logStep_cases (h : s.logStep c t = some s') :
    (∃ message pc, s.threads t = .registering message pc ∧ s' = s.registerStep t message pc) ∨
      ∃ message pc, s.threads t = .pushing message pc ∧ s' = s.pushStep c t message pc := by
  unfold Delivery.logStep at h
  split at h
  · cases h
  · next message pc hpc => exact .inl ⟨message, pc, hpc, (Option.some.inj h).symm⟩
  · next message pc hpc => exact .inr ⟨message, pc, hpc, (Option.some.inj h).symm⟩

end Next

end Step

end Libni.Logging
