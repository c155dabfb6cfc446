import Mathlib.Logic.Function.Basic
import Libni.Transition.System

/-!
`ScopeGuard` in the scopes of one thread. A scope is the body of a function or a
block; it is left normally or by an exception, and then its objects are destroyed,
the latest first. The destructor of an object and the function of a guard run in a
scope of their own, out of which an exception terminates the program. What happens
inside a scope is any sequence of the labels below, so that a run is any properly
nested execution. The exceptions in flight at once are fewer than `unsigned` counts.
-/

namespace Libni.Scopes

open Function Libni.Transition

/-- The conditions under which a guard calls its function: always, when its
scope is not left by an exception, or when it is. -/
inductive ScopeExit where
  | all
  | noException
  | uncaughtException
  deriving DecidableEq

/-- `fn` is the number of the function that was given to the first
constructor, by which its calls are counted. -/
structure ScopeGuard where
  exitCondition : ScopeExit
  fn : Nat
  active : Bool
  uncaughtExceptions : Nat
  deriving DecidableEq

namespace ScopeGuard

/-- The constructors from a function, where `uncaught_exceptions()` is `now`.
The number is remembered unless the guard fires in any case. -/
def new (exitCondition : ScopeExit) (fn now : Nat) : ScopeGuard where
  exitCondition := exitCondition
  fn := fn
  active := true
  uncaughtExceptions := if exitCondition = .all then 0 else now

def deactivate (guard : ScopeGuard) : ScopeGuard := { guard with active := false }

/-- The move constructor: the new guard and what is left of the other one,
which is inactive. -/
def move (other : ScopeGuard) : ScopeGuard × ScopeGuard :=
  ({ exitCondition := other.exitCondition
     fn := other.fn
     active := other.active
     uncaughtExceptions := other.uncaughtExceptions },
    other.deactivate)

/-- Whether the destructor calls the function, given the number of uncaught
exceptions it finds. -/
def fires (guard : ScopeGuard) (now : Nat) : Bool :=
  if guard.active then
    match guard.exitCondition with
    | .all => true
    | .noException => if now > guard.uncaughtExceptions then false else true
    | .uncaughtException => if now ≤ guard.uncaughtExceptions then false else true
  else false

end ScopeGuard

/-- How a scope is left. -/
inductive Exit where
  | normal
  | exception
  deriving DecidableEq

inductive Status where
  | running
  | leaving (exit : Exit)
  deriving DecidableEq

/-- A `try` block may catch an exception; none leaves a destructor. -/
inductive Kind where
  | plain
  | tryBlock
  | destructor
  deriving DecidableEq

/-- A guard, which may have been moved from, or another object with a
destructor. -/
inductive Object where
  | guard (guard : ScopeGuard) (moved : Bool)
  | other
  deriving DecidableEq

/-- The objects are those not yet destroyed, the latest first. -/
structure Scope where
  kind : Kind
  status : Status
  objects : List Object
  deriving DecidableEq

/-- The scopes of a thread, the innermost first. `uncaught` is the value of
`uncaught_exceptions()` and `ran` are the functions that were called. The rest
is history: the conditions of the guards made so far, which of them were
deactivated, and how the scope was left at whose end a guard was destroyed. -/
structure Thread where
  scopes : List Scope
  uncaught : Nat
  ran : List Nat
  guards : List ScopeExit
  deactivated : Nat → Bool
  ended : Nat → Option Exit

/-- What a thread does next. A scope at depth `0` is the innermost one; guards
may be moved into and deactivated in the scopes around it. -/
inductive Label where
  | enter (kind : Kind)
  | construct
  | make (exitCondition : ScopeExit)
  | move (depth index target : Nat)
  | deactivate (depth index : Nat)
  | expire (index : Nat)
  | throw
  | leave
  | destroy
  | finish (caught : Bool)

def objectAt (scopes : List Scope) (depth index : Nat) : Option Object :=
  scopes[depth]?.bind fun scope => scope.objects[index]?

/-- Changes the objects of the scope at the given depth. -/
def changeObjects (scopes : List Scope) (depth : Nat) (change : List Object → List Object) :
    List Scope :=
  scopes.modify depth fun scope => { scope with objects := change scope.objects }

def setObject (scopes : List Scope) (depth index : Nat) (object : Object) : List Scope :=
  changeObjects scopes depth fun objects => objects.set index object

def addObject (scopes : List Scope) (depth : Nat) (object : Object) : List Scope :=
  changeObjects scopes depth fun objects => object :: objects

/-- The scopes up to the given depth exist and none of them is being left, so
that code running in the innermost one can name their objects. -/
def runningTo (scopes : List Scope) (depth : Nat) : Bool :=
  decide (depth < scopes.length) &&
    (scopes.take (depth + 1)).all fun scope => decide (scope.status = .running)

def Thread.enter (s : Thread) (kind : Kind) : Thread :=
  { s with scopes := ⟨kind, .running, []⟩ :: s.scopes }

/-- The destructor of a guard calls its function, in a scope of its own that
no exception may leave. -/
def Thread.run (s : Thread) (guard : ScopeGuard) : Thread :=
  if guard.fires s.uncaught then { s with ran := guard.fn :: s.ran }.enter .destructor else s

/-- The latest object of the innermost scope is destroyed, which is being
left. -/
def Thread.destroy (s : Thread) : Option Thread :=
  match s.scopes with
  | ⟨kind, .leaving exit, .other :: objects⟩ :: scopes =>
      some ({ s with scopes := ⟨kind, .leaving exit, objects⟩ :: scopes }.enter .destructor)
  | ⟨kind, .leaving exit, .guard guard moved :: objects⟩ :: scopes =>
      some ({ s with
        scopes := ⟨kind, .leaving exit, objects⟩ :: scopes
        ended := if moved then s.ended else update s.ended guard.fn (some exit) }.run guard)
  | _ => none

/-- The innermost scope ends. An exception is caught by a `try` block or goes
on to leave the next scope; out of a destructor it terminates the program. -/
def Thread.finish (s : Thread) (caught : Bool) : Option Thread :=
  match s.scopes with
  | ⟨_, .leaving .normal, []⟩ :: scopes => some { s with scopes := scopes }
  | ⟨kind, .leaving .exception, []⟩ :: parent :: scopes =>
      if kind = .destructor then none
      else if kind = .tryBlock ∧ caught then
        some { s with scopes := parent :: scopes, uncaught := s.uncaught - 1 }
      else some { s with scopes := { parent with status := .leaving .exception } :: scopes }
  | _ => none

/-- The labels that are possible where the thread is, and what they do. -/
def Thread.next (s : Thread) : Label → Option Thread
  | .enter kind => if runningTo s.scopes 0 then some (s.enter kind) else none
  | .construct =>
      if runningTo s.scopes 0 then some { s with scopes := addObject s.scopes 0 .other } else none
  | .make exitCondition =>
      if runningTo s.scopes 0 then
        let guard := ScopeGuard.new exitCondition s.guards.length s.uncaught
        some { s with
          scopes := addObject s.scopes 0 (.guard guard false)
          guards := s.guards ++ [exitCondition] }
      else none
  | .move depth index target =>
      if runningTo s.scopes (max depth target) then
        match objectAt s.scopes depth index with
        | some (.guard guard moved) => some { s with
            scopes := addObject (setObject s.scopes depth index (.guard guard.move.2 true)) target
              (.guard guard.move.1 moved) }
        | _ => none
      else none
  | .deactivate depth index =>
      if runningTo s.scopes 0 then
        match objectAt s.scopes depth index with
        | some (.guard guard moved) => some { s with
            scopes := setObject s.scopes depth index (.guard guard.deactivate moved)
            deactivated := if moved then s.deactivated else update s.deactivated guard.fn true }
        | _ => none
      else none
  | .expire index =>
      match s.scopes with
      | ⟨kind, .running, objects⟩ :: scopes =>
          match objects[index]? with
          | some (.guard guard true) =>
              some ({ s with
                scopes := ⟨kind, .running, objects.eraseIdx index⟩ :: scopes }.run guard)
          | _ => none
      | _ => none
  | .throw =>
      match s.scopes with
      | ⟨kind, .running, objects⟩ :: scopes => some { s with
          scopes := ⟨kind, .leaving .exception, objects⟩ :: scopes, uncaught := s.uncaught + 1 }
      | _ => none
  | .leave =>
      match s.scopes with
      | ⟨kind, .running, objects⟩ :: scopes =>
          some { s with scopes := ⟨kind, .leaving .normal, objects⟩ :: scopes }
      | _ => none
  | .destroy => s.destroy
  | .finish caught => s.finish caught

/-- A thread in its first function, which no exception leaves. -/
def Thread.initial : Thread where
  scopes := [⟨.plain, .running, []⟩]
  uncaught := 0
  ran := []
  guards := []
  deactivated _ := false
  ended _ := none

def execution : System Thread Label where
  init s := s = .initial
  next := Thread.next

end Libni.Scopes
