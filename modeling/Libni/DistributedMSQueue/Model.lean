import Mathlib.Data.Fintype.Basic
import Libni.MSQueue.Observation

/-!
`put` and `get` of `LLDynamicDistributed<MSQueue<T>>` for a fixed set of
registered threads, so that the segment, its length and its version do not
change and every backend is alive. A thread's calls on the backends go on at
the granularity of their accesses, with exchanges that fail only on a mismatch;
the branching of `get` after a backend's operation is part of the step that
returns from it. Elements carry the call of `put` they were passed to.
-/

namespace Libni.DistributedMSQueue

open Function Libni.Transition Libni.MSQueue

/-- An element with the thread that put it and the number of that call. By
these two the elements of a history can be told apart, also if their values
agree. -/
structure Item (τ α : Type*) where
  thread : τ
  seq : Nat
  value : α
  deriving DecidableEq

/-- Where a thread is in `put` or `get`; `element` is what `get` has in its
output variable. In `first` and `second`, the thread is at turn `i` of the
loop of that pass over `m_segment`, which begins at index `start`. -/
inductive Caller (n : Nat) (τ α : Type*) where
  | idle
  | put (element : Item τ α)
  | own (element : Item τ α)
  | retry (element : Item τ α)
  | first (element : Item τ α) (start : Fin n) (i : Nat) (tailsStates : Nat → Tag)
  | second (element : Item τ α) (start : Fin n) (i : Nat) (tailsStates : Nat → Tag)
  | putDone (element : Item τ α) (ok : Bool)
  | getDone (element : Item τ α) (ok : Bool)

/-- The backends and the callers. The other fields are history: how many calls
of `put` a thread has made, what happened to the backends, how often the tail
of a backend had moved when a `pop` of the thread last loaded it, and the
elements whose `put` has returned. -/
structure Container (n : Nat) (τ α : Type*) where
  backends : MSQueue.State (Fin n) τ (Item τ α)
  callers : τ → Caller n τ α
  puts : τ → Nat
  history : History (Fin n) (Item τ α)
  seen : τ → Fin n → Nat
  returned : List (Item τ α)

/-- The label of a round of `get` supplies the random start. -/
inductive Label (n : Nat) (τ α : Type*) where
  | put (thread : τ) (value : α)
  | get (thread : τ) (element : Item τ α)
  | round (thread : τ) (start : Fin n)
  | step (thread : τ) (fresh : Addr)
  | ret (thread : τ)
  deriving DecidableEq

section Step

variable {n : Nat} {τ α : Type*} [DecidableEq τ] [DecidableEq α]

/-- `(start + i) % m_segment_length`. -/
def segmentIndex (start : Fin n) (i : Nat) : Fin n :=
  ⟨(start + i) % n, Nat.mod_lt _ (Nat.lt_of_le_of_lt (Nat.zero_le _) start.isLt)⟩

/-- The thread goes on as `c`, outside of any backend. -/
def Container.settle (s : Container n τ α) (t : τ) (c : Caller n τ α) : Container n τ α :=
  { s with
    backends := { s.backends with threads := update s.backends.threads t .idle }
    callers := update s.callers t c }

/-- The thread goes on as `c` and calls an operation of a backend. -/
def Container.invoke (s : Container n τ α) (t : τ) (c : Caller n τ α)
    (op : Op (Fin n) (Item τ α)) : Container n τ α :=
  { s with
    backends := { s.backends with threads := update s.backends.threads t (start op) }
    callers := update s.callers t c }

/-- Turn `i` of the first pass, or the second pass after the last turn. -/
def Container.firstTurn (s : Container n τ α) (t : τ) (element : Item τ α) (start : Fin n)
    (i : Nat) (tailsStates : Nat → Tag) : Container n τ α :=
  if i < n then
    s.invoke t (.first element start i tailsStates)
      (.pop (segmentIndex start i) element (some (tailsStates i)))
  else
    s.invoke t (.second element start 0 tailsStates) (.tailState (segmentIndex start 0))

/-- Turn `i` of the second pass, or the end of `get` after the last turn. -/
def Container.secondTurn (s : Container n τ α) (t : τ) (element : Item τ α) (start : Fin n)
    (i : Nat) (tailsStates : Nat → Tag) : Container n τ α :=
  if i < n then
    s.invoke t (.second element start i tailsStates) (.tailState (segmentIndex start i))
  else s.settle t (.getDone element false)

/-- A backend's operation has returned to `put` or `get`. An element found
ends `get`, and a tag that differs from the one stored in the first pass
begins a further round. -/
def Container.resume (s : Container n τ α) (t : τ) :
    Caller n τ α → Res (Item τ α) → Option (Container n τ α)
  | .put element, .pushed ok => some (s.settle t (.putDone element ok))
  | .own _, .popped true element _ => some (s.settle t (.getDone element true))
  | .own _, .popped false element _ => some (s.settle t (.retry element))
  | .first _ _ _ _, .popped true element _ => some (s.settle t (.getDone element true))
  | .first _ start i tailsStates, .popped false element headState =>
      some (s.firstTurn t element start (i + 1)
        (update tailsStates i (headState.getD (tailsStates i))))
  | .second element start i tailsStates, .state tag =>
      if tag = tailsStates i then some (s.secondTurn t element start (i + 1) tailsStates)
      else some (s.settle t (.retry element))
  | _, _ => none

/-- What a thread has seen after an access inside a backend. Only the load of
a tail in a `pop` changes it. -/
def look (h : History (Fin n) (Item τ α)) (seen : Fin n → Nat) :
    Local (Fin n) (Item τ α) → Fin n → Nat
  | .pop q _ _ _ pc => update seen q (pc.seen (h.advances q) (seen q))
  | _ => seen

/-- An access inside a backend, whose effect is recorded beside it. -/
def Container.access (s : Container n τ α) (t : τ) (fresh : Addr) :
    Option (Container n τ α) :=
  (MSQueue.next s.backends (.step t fresh false)).map fun b => { s with
    backends := b
    history := s.history.after s.backends.mem b.mem
    seen := update s.seen t (look s.history (s.seen t) (s.backends.threads t)) }

variable (backend : τ → Option (Fin n))

/-- The steps of `put` and `get`. A thread inside an operation of a backend
makes the next access of it, and one whose operation has ended goes on in its
caller. -/
def Container.next (s : Container n τ α) : Label n τ α → Option (Container n τ α)
  | .put t value =>
      match s.callers t, backend t with
      | .idle, some q =>
          let element := { thread := t, seq := s.puts t, value := value }
          some { s.invoke t (.put element) (.push q element) with
            puts := update s.puts t (s.puts t + 1) }
      | _, _ => none
  | .get t element =>
      match s.callers t, backend t with
      | .idle, some q => some (s.invoke t (.own element) (.pop q element none))
      | .idle, none => some (s.settle t (.retry element))
      | _, _ => none
  | .round t start =>
      match s.callers t with
      | .retry element => some (s.firstTurn t element start 0 fun _ => 0)
      | _ => none
  | .step t fresh =>
      match s.backends.threads t with
      | .done r => s.resume t (s.callers t) r
      | .idle =>
          match s.callers t with
          | .retry element => if n = 0 then some (s.settle t (.getDone element false)) else none
          | _ => none
      | _ => s.access t fresh
  | .ret t =>
      match s.callers t with
      | .putDone element _ => some { s with
          callers := update s.callers t .idle, returned := element :: s.returned }
      | .getDone _ _ => some { s with callers := update s.callers t .idle }
      | _ => none

/-- Empty backends with their threads registered. How they came to be
registered is left out. -/
structure Initial (s : Container n τ α) : Prop where
  backends : MSQueue.Initial s.backends
  callers : ∀ t, s.callers t = .idle
  puts : ∀ t, s.puts t = 0
  history : s.history = .start
  seen : ∀ t q, s.seen t q = 0
  returned : s.returned = []

def container : System (Container n τ α) (Label n τ α) where
  init := Initial
  next := Container.next backend

def Label.thread : Label n τ α → τ
  | .put t _ | .get t _ | .round t _ | .step t _ | .ret t => t

/-- `new` hands out no address that a thread still holds from a load of a head
or tail. -/
def Unheld (s : Container n τ α) : Label n τ α → Prop
  | .step t fresh => MSQueue.NotHeld s.backends (.step t fresh false)
  | _ => True

/-- Moreover no tail has moved a nonzero multiple of `2 ^ 16` times when `get`
of the thread `t` loads it in the second pass, since its load in the first
pass. -/
def NoWrap (t : τ) (s : Container n τ α) (l : Label n τ α) : Prop :=
  Unheld s l ∧ (l.thread = t → ∀ q, s.backends.threads t = .tailState q →
    (s.history.advances q - s.seen t q) % 2 ^ 16 = 0 → s.history.advances q = s.seen t q)

instance [Fintype τ] (s : Container n τ α) (l : Label n τ α) : Decidable (Unheld s l) := by
  cases l <;> unfold Unheld <;> infer_instance

instance [Fintype τ] (t : τ) (s : Container n τ α) (l : Label n τ α) :
    Decidable (NoWrap t s l) := by
  unfold NoWrap
  infer_instance

/-- Every element whose `put` has returned has been removed. This is the
instant that an answer false of `get` is about. -/
def Container.Emptied (s : Container n τ α) : Prop :=
  ∀ e ∈ s.returned, ∃ q, e ∈ s.history.taken q

end Step

end Libni.DistributedMSQueue
