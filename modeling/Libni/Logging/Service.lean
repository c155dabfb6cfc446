import Mathlib.Logic.Function.Basic
import Libni.Logging.Model

/-!
Services and the loggers connected to them. Creating and destroying services,
adding loggers and the steps of `log` come in any order, from any threads; the
workers collect and consume in between. Objects are numbered as they are created
and a number is never used again, so a channel that has been freed stays
recognizable. A channel is its bounded list of messages and `m_pending_channels` a
list of at most four channels.
-/

namespace Libni.Logging

open Function Libni.Transition

/-- A `LogService` with its message bus; `loggers` is `m_loggers`. A name may
lead to one logger only. -/
structure LogService where
  queueSize : Nat
  pending : List Nat
  channels : List Nat
  futex : Bool
  loggers : List (String × Nat)
  deriving DecidableEq

structure Channel where
  size : Nat
  messages : List Nat
  deriving DecidableEq

structure Logger where
  output : Option Nat
  overflowStrategy : OverflowStrategy

/-- Where a thread is in `log` of a logger: in `get_input_channel` with the
channel it has created, before an attempt to push, or before `notify`. -/
inductive LogCall where
  | idle
  | registering (logger : Nat) (channel : Nat)
  | pushing (logger : Nat)
  | notifying (logger : Nat)
  deriving DecidableEq

/-- All services. `channel` is the static of `log`, one for each thread. The
last two fields are history: the bus each channel was created by, and the
service of each thread's first call of `log`. -/
structure Services (τ : Type*) where
  services : Nat → Option LogService
  serviceInstance : Option Nat
  loggers : Nat → Logger
  channels : Nat → Option Channel
  channel : τ → Option Nat
  threads : τ → LogCall
  serviceCount : Nat
  loggerCount : Nat
  channelCount : Nat
  creator : Nat → Option Nat
  first : τ → Option Nat

/-- What a thread, a worker or the program may do next. Commands for something
that does not exist are not possible. -/
inductive Command (τ : Type*) where
  | create (queueSize : Nat)
  | destroy (service : Nat)
  | init (queueSize : Nat)
  | addLogger (service : Nat) (name : String) (overflowStrategy : OverflowStrategy)
  | log (thread : τ) (logger : Nat)
  | step (thread : τ)
  | collect (service : Nat)
  | consume (service : Nat) (index : Nat)

namespace Services

variable {τ : Type*}

def setService (s : Services τ) (b : Nat) (service : LogService) : Services τ :=
  { s with services := update s.services b (some service) }

/-- A new service with an empty bus. Its number is used for no other, so
whatever refers to it can be told from what refers to a later one. -/
def create (s : Services τ) (queueSize : Nat) : Services τ :=
  { s with
    services := update s.services s.serviceCount
      (some ⟨queueSize, [], [], false, []⟩)
    serviceCount := s.serviceCount + 1 }

/-- The bus frees its channels; pending ones, which the ring buffer of
pointers does not own, stay allocated. -/
def destroy (s : Services τ) (b : Nat) (service : LogService) : Services τ :=
  { s with
    services := update s.services b none
    channels c := if c ∈ service.channels then none else s.channels c }

/-- `init` replaces the service it has created before. -/
def init (s : Services τ) (queueSize : Nat) : Services τ :=
  match s.serviceInstance.bind fun b => (s.services b).map (Prod.mk b) with
  | some (b, service) =>
      { (s.destroy b service).create queueSize with serviceInstance := some s.serviceCount }
  | none => { s.create queueSize with serviceInstance := some s.serviceCount }

/-- A logger whose name is taken is not connected, and freed at once. -/
def addLogger (s : Services τ) (b : Nat) (service : LogService) (name : String)
    (overflowStrategy : OverflowStrategy) : Services τ :=
  if (service.loggers.map Prod.fst).contains name then
    { s with loggerCount := s.loggerCount + 1 }
  else
    { s.setService b { service with loggers := (name, s.loggerCount) :: service.loggers } with
      loggers := update s.loggers s.loggerCount ⟨some b, overflowStrategy⟩
      loggerCount := s.loggerCount + 1 }

def output (s : Services τ) (logger : Nat) : Option Nat := (s.loggers logger).output

/-- The existing service that owns a logger, with its number. -/
def owner (s : Services τ) (logger : Nat) : Option (Nat × LogService) :=
  match s.output logger with
  | none => none
  | some b =>
      match s.services b with
      | none => none
      | some service => if logger ∈ service.loggers.map Prod.snd then some (b, service) else none

variable [DecidableEq τ]

/-- A call of `log`; the first one of a thread initializes `channel`. Later
calls use that channel, whatever the logger. -/
def log (s : Services τ) (t : τ) (logger : Nat) (b : Nat) (service : LogService) : Services τ :=
  match s.channel t with
  | some _ => { s with threads := update s.threads t (.pushing logger) }
  | none => { s with
      channels := update s.channels s.channelCount (some ⟨service.queueSize, []⟩)
      channelCount := s.channelCount + 1
      creator := update s.creator s.channelCount (some b)
      first := update s.first t (some b)
      threads := update s.threads t (.registering logger s.channelCount) }

/-- An attempt of `get_input_channel` to push the channel. -/
def register (s : Services τ) (t : τ) (logger c b : Nat) (service : LogService) : Services τ :=
  if service.pending.length < 4 then
    { s.setService b { service with pending := service.pending ++ [c] } with
      channel := update s.channel t (some c)
      threads := update s.threads t (.pushing logger) }
  else s

/-- An attempt to push a message. In a freed channel the message is lost. -/
def push (s : Services τ) (t : τ) (logger c : Nat) : Services τ :=
  match s.channels c with
  | none => { s with threads := update s.threads t (.notifying logger) }
  | some channel =>
      if channel.messages.length < channel.size then { s with
        channels := update s.channels c
          (some { channel with messages := channel.messages ++ [logger] })
        threads := update s.threads t (.notifying logger) }
      else match (s.loggers logger).overflowStrategy with
        | .retry => s
        | .dropMessage => { s with threads := update s.threads t .idle }

def notify (s : Services τ) (t : τ) (b : Nat) (service : LogService) : Services τ :=
  { s.setService b { service with futex := true } with threads := update s.threads t .idle }

/-- One step of `log`, while the service of the logger exists. -/
def step (s : Services τ) (t : τ) : Option (Services τ) :=
  match s.threads t with
  | .idle => none
  | .registering logger c =>
      (s.owner logger).map fun p => s.register t logger c p.1 p.2
  | .pushing logger =>
      match s.owner logger, s.channel t with
      | some _, some c => some (s.push t logger c)
      | _, _ => none
  | .notifying logger => (s.owner logger).map fun p => s.notify t p.1 p.2

/-- The worker of a service pops a message from the channel with the given
index. -/
def consume (s : Services τ) (service : LogService) (index : Nat) : Services τ :=
  match service.channels[index]? with
  | none => s
  | some c =>
      { s with
        channels := update s.channels c
          ((s.channels c).map fun channel => { channel with messages := channel.messages.tail }) }

/-- Loggers are only used, and services only destroyed, while they exist; the
service `init` has created is left to `init`. -/
def next (s : Services τ) : Command τ → Option (Services τ)
  | .create queueSize => some (s.create queueSize)
  | .destroy b =>
      if s.serviceInstance = some b then none else (s.services b).map (s.destroy b)
  | .init queueSize => some (s.init queueSize)
  | .addLogger b name overflowStrategy =>
      (s.services b).map fun service => s.addLogger b service name overflowStrategy
  | .log t logger =>
      match s.threads t, s.owner logger with
      | .idle, some (b, service) => some (s.log t logger b service)
      | _, _ => none
  | .step t => s.step t
  | .collect b => (s.services b).map fun service =>
      s.setService b
        { service with pending := [], channels := service.channels ++ service.pending }
  | .consume b index => (s.services b).map fun service => s.consume service index

omit [DecidableEq τ] in
def initial : Services τ where
  services _ := none
  serviceInstance := none
  loggers _ := ⟨none, .retry⟩
  channels _ := none
  channel _ := none
  threads _ := .idle
  serviceCount := 0
  loggerCount := 0
  channelCount := 0
  creator _ := none
  first _ := none

end Services

variable (τ : Type*) [DecidableEq τ]

def logging : System (Services τ) (Command τ) where
  init s := s = Services.initial
  next := Services.next

end Libni.Logging
