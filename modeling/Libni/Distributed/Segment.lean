import Libni.Transition.System
import Libni.Distributed.Container

/-!
`LLDynamicDistributed` when its operations overlap. Every load or store of the
segment, of its length and of its version is a step, as is every access of a node's
tag, every attempt to take the lock and every operation of a backend. A node counts as
created when the entry for it is stored. A thread that divides by zero or dereferences
a null entry stops for good.
-/

namespace Libni.Distributed

open Function Libni.Transition

/-- The next access of `remove_backend`. What it has loaded so far is kept
with it, since another thread may change the segment in between. -/
inductive RemovePc where
  | loadEntry (index : Nat)
  | alive (index node : Nat)
  | empty (index node : Nat)
  | delete (index node : Nat)
  | loadLength (index : Nat)
  | storeLength (index length : Nat)
  | loadLast (index : Nat)
  | loadMoved (index last : Nat)
  | move (index : Nat) (moved : Option Nat)
  | loadEnd
  | clear (last : Nat)
  | loadVersion
  | storeVersion (version : Nat)
  deriving DecidableEq

/-- The next access of `put`. `lock` to `unlock` is the registering part, and
`push` is reached at once if the thread already has a backend. -/
inductive PutPc where
  | lock
  | loadLength
  | sweepLength (i : Nat)
  | sweepEntry (i : Nat)
  | sweepAlive (i node : Nat)
  | sweepEntryAgain (i : Nat)
  | sweepEmpty (i node : Nat)
  | removing (i : Nat) (pc : RemovePc)
  | reloadLength
  | loadIndex
  | storeLength (index : Nat)
  | storeEntry (index : Nat)
  | loadVersion (node : Nat)
  | storeVersion (node version : Nat)
  | unlock (node : Option Nat)
  | push (node : Nat)
  deriving DecidableEq

/-- One round of `get`'s loop: the offset of its passes, the version it has
read, and `tails_states` with its length. A state is kept with the node it was
read from. -/
structure Round where
  start : Nat
  version : Nat
  size : Nat
  states : Nat → Option (Nat × Nat)

/-- The next access of `get`, from the thread's own backend to the comparison
of the states; `removing` is a call of `remove_backend` without the lock. -/
inductive GetPc where
  | own (node : Nat)
  | testLength
  | loadStart
  | loadVersion (start : Nat)
  | arrayLength (start version : Nat)
  | firstLength (round : Round) (i : Nat)
  | firstIndex (round : Round) (i : Nat)
  | firstEntry (round : Round) (i index : Nat)
  | pop (round : Round) (i index node : Nat)
  | alive (round : Round) (i index node : Nat)
  | removing (pc : RemovePc)
  | compareVersion (round : Round)
  | secondLength (round : Round) (i : Nat)
  | secondIndex (round : Round) (i : Nat)
  | secondEntry (round : Round) (i index : Nat)
  | tailState (round : Round) (i node : Nat)

/-- The next access of `deregister_thread`, which searches the segment without
the lock and takes it only to remove the node. -/
inductive DeregisterPc where
  | turnOff
  | empty
  | loadLength (i : Nat)
  | loadEntry (i : Nat)
  | lock (i : Nat)
  | removing (pc : RemovePc)
  | unlock
  deriving DecidableEq

inductive Res (α : Type*) where
  | put (ok : Bool)
  | get (element : Option α)
  | deregistered
  deriving DecidableEq

/-- Where a thread is. It is at `done` until its call returns, and at `fault`
after an access that the program does not survive. -/
inductive Local (α : Type*) where
  | idle
  | put (element : α) (pc : PutPc)
  | get (pc : GetPc)
  | deregister (node : Nat) (pc : DeregisterPc)
  | done (result : Res α)
  | fault

/-- The container with its lock, and for every thread its `BackendPtr` and
where it is. -/
structure State (τ α : Type*) where
  container : Container α
  lock : Option τ
  ptr : τ → Option Nat
  threads : τ → Local α

inductive Op (α : Type*) where
  | put (element : α)
  | get
  | deregister
  deriving DecidableEq

/-- `random` is the next value of the generator, where a step asks for one.
Any value may come, so the results hold for every generator. -/
inductive Label (τ α : Type*) where
  | call (thread : τ) (op : Op α)
  | step (thread : τ) (random : Nat)
  | ret (thread : τ)

section Step

variable {τ α : Type*}

/-- One access of `remove_backend`; without a program counter it returns. A
null entry ends it without an effect. -/
def removeStep (c : Container α) : RemovePc → Container α × Option RemovePc
  | .loadEntry index =>
      match c.segment index with
      | none => (c, none)
      | some node => (c, some (.alive index node))
  | .alive index node =>
      (c, if (c.nodes node).alive then none else some (.empty index node))
  | .empty index node =>
      (c, if (c.nodes node).empty then some (.delete index node) else none)
  | .delete index node => (c.delete node, some (.loadLength index))
  | .loadLength index => (c, some (.storeLength index c.length))
  | .storeLength index length => (c.setLength (decrement length), some (.loadLast index))
  | .loadLast index => (c, some (.loadMoved index c.length))
  | .loadMoved index last => (c, some (.move index (c.segment last)))
  | .move index moved => (c.setEntry index moved, some .loadEnd)
  | .loadEnd => (c, some (.clear c.length))
  | .clear last => (c.setEntry last none, some .loadVersion)
  | .loadVersion => (c, some (.storeVersion c.version))
  | .storeVersion version => (c.setVersion (increment version), none)

variable [DecidableEq τ]

def State.goto (s : State τ α) (t : τ) (l : Local α) : State τ α :=
  { s with threads := update s.threads t l }

def State.setContainer (s : State τ α) (c : Container α) : State τ α :=
  { s with container := c }

/-- One access of `remove_backend` by a thread that is then at `resume pc`, or
at `after` when it has returned. -/
def State.remove (s : State τ α) (t : τ) (pc : RemovePc) (resume : RemovePc → Local α)
    (after : Local α) : State τ α :=
  let r := removeStep s.container pc
  (s.setContainer r.1).goto t (r.2.elim after resume)

/-- An attempt to take the lock, which leaves everything as it is while
somebody has it. -/
def State.acquire (s : State τ α) (t : τ) (after : Local α) : State τ α :=
  match s.lock with
  | none => { s.goto t after with lock := some t }
  | some _ => s

def State.release (s : State τ α) (t : τ) (after : Local α) : State τ α :=
  { s.goto t after with lock := none }

/-- One access of `put`. The sweep looks at every entry of a full segment, and
the length is read once more before a node is registered. -/
def State.putStep (s : State τ α) (t : τ) (element : α) : PutPc → State τ α
  | .lock => s.acquire t (.put element .loadLength)
  | .loadLength =>
      s.goto t (.put element
        (if s.container.length ≥ s.container.capacity then .sweepLength 0 else .reloadLength))
  | .sweepLength i =>
      s.goto t (.put element (if i < s.container.length then .sweepEntry i else .reloadLength))
  | .sweepEntry i =>
      match s.container.segment i with
      | none => s.goto t .fault
      | some node => s.goto t (.put element (.sweepAlive i node))
  | .sweepAlive i node =>
      s.goto t (.put element
        (if (s.container.nodes node).alive then .sweepLength (i + 1) else .sweepEntryAgain i))
  | .sweepEntryAgain i =>
      match s.container.segment i with
      | none => s.goto t .fault
      | some node => s.goto t (.put element (.sweepEmpty i node))
  | .sweepEmpty i node =>
      s.goto t (.put element
        (if (s.container.nodes node).empty then .removing i (.loadEntry i)
          else .sweepLength (i + 1)))
  | .removing i pc =>
      s.remove t pc (fun pc => .put element (.removing i pc)) (.put element (.sweepLength (i + 1)))
  | .reloadLength =>
      s.goto t (.put element
        (if s.container.length ≥ s.container.capacity then .unlock none else .loadIndex))
  | .loadIndex => s.goto t (.put element (.storeLength s.container.length))
  | .storeLength index =>
      (s.setContainer (s.container.setLength (increment index))).goto t
        (.put element (.storeEntry index))
  | .storeEntry index =>
      let node := s.container.nodeCount
      { (s.setContainer (s.container.allocate.setEntry index (some node))).goto t
          (.put element (.loadVersion node)) with
        ptr := update s.ptr t (some node) }
  | .loadVersion node => s.goto t (.put element (.storeVersion node s.container.version))
  | .storeVersion node version =>
      (s.setContainer (s.container.setVersion (increment version))).goto t
        (.put element (.unlock (some node)))
  | .unlock none => s.release t (.done (.put false))
  | .unlock (some node) => s.release t (.put element (.push node))
  | .push node =>
      (s.setContainer (s.container.setNode node ((s.container.nodes node).push element))).goto t
        (.done (.put true))

/-- `pop` of a backend by a thread that is then at `after` if there is no
element. -/
def State.popStep (s : State τ α) (t : τ) (node : Nat) (after : Local α) : State τ α :=
  match (s.container.nodes node).elements.head? with
  | some element =>
      (s.setContainer (s.container.setNode node (s.container.nodes node).pop)).goto t
        (.done (.get (some element)))
  | none => s.goto t after

def Round.record (round : Round) (i node state : Nat) : Round :=
  { round with states := update round.states i (some (node, state)) }

/-- One access of `get`. The length is read afresh for every index, so a
change of the segment may come between any two of these steps. -/
def State.getStep (s : State τ α) (t : τ) (random : Nat) : GetPc → State τ α
  | .own node => s.popStep t node (.get .testLength)
  | .testLength =>
      s.goto t (if s.container.length = 0 then .done (.get none) else .get .loadStart)
  | .loadStart =>
      s.goto t (if s.container.length = 0 then .fault
        else .get (.loadVersion (random % s.container.length)))
  | .loadVersion start => s.goto t (.get (.arrayLength start s.container.version))
  | .arrayLength start version =>
      s.goto t (.get (.firstLength ⟨start, version, s.container.length, fun _ => none⟩ 0))
  | .firstLength round i =>
      s.goto t (.get
        (if i < s.container.length then .firstIndex round i else .compareVersion round))
  | .firstIndex round i =>
      s.goto t (if s.container.length = 0 then .fault
        else .get (.firstEntry round i ((round.start + i) % s.container.length)))
  | .firstEntry round i index =>
      match s.container.segment index with
      | none => s.goto t .fault
      | some node => s.goto t (.get (.pop round i index node))
  | .pop round i index node =>
      s.popStep t node (.get (.alive
        (round.record i node (s.container.nodes node).tailState) i index node))
  | .alive round i index node =>
      s.goto t (.get (if (s.container.nodes node).alive then .firstLength round (i + 1)
        else .removing (.loadEntry index)))
  | .removing pc => s.remove t pc (fun pc => .get (.removing pc)) (.get .testLength)
  | .compareVersion round =>
      s.goto t (.get (if s.container.version = round.version then .secondLength round 0
        else .testLength))
  | .secondLength round i =>
      s.goto t (if i < s.container.length then .get (.secondIndex round i) else .done (.get none))
  | .secondIndex round i =>
      s.goto t (if s.container.length = 0 then .fault
        else .get (.secondEntry round i ((round.start + i) % s.container.length)))
  | .secondEntry round i index =>
      match s.container.segment index with
      | none => s.goto t .fault
      | some node => s.goto t (.get (.tailState round i node))
  | .tailState round i node =>
      s.goto t (.get
        (if (round.states i).map Prod.snd = some (s.container.nodes node).tailState
          then .secondLength round (i + 1) else .testLength))

/-- One access of `deregister_thread`, by a thread that has given up its
`BackendPtr` to `node`. -/
def State.deregisterStep (s : State τ α) (t : τ) (node : Nat) : DeregisterPc → State τ α
  | .turnOff =>
      (s.setContainer (s.container.setNode node (s.container.nodes node).turnOff)).goto t
        (.deregister node .empty)
  | .empty =>
      s.goto t (if (s.container.nodes node).empty then .deregister node (.loadLength 0)
        else .done .deregistered)
  | .loadLength i =>
      s.goto t (if i < s.container.length then .deregister node (.loadEntry i)
        else .done .deregistered)
  | .loadEntry i =>
      s.goto t (.deregister node
        (if s.container.segment i = some node then .lock i else .loadLength (i + 1)))
  | .lock i => s.acquire t (.deregister node (.removing (.loadEntry i)))
  | .removing pc =>
      s.remove t pc (fun pc => .deregister node (.removing pc)) (.deregister node .unlock)
  | .unlock => s.release t (.done .deregistered)

/-- A call starts by the thread's `BackendPtr`: `deregister_thread` moves it
out, and does nothing if it is null. -/
def State.call (s : State τ α) (t : τ) : Op α → State τ α
  | .put element => s.goto t (.put element ((s.ptr t).elim .lock .push))
  | .get => s.goto t (.get ((s.ptr t).elim .testLength .own))
  | .deregister =>
      match s.ptr t with
      | none => s.goto t (.done .deregistered)
      | some node => { s.goto t (.deregister node .turnOff) with ptr := update s.ptr t none }

def State.step (s : State τ α) (t : τ) (random : Nat) : Option (State τ α) :=
  match s.threads t with
  | .put element pc => some (s.putStep t element pc)
  | .get pc => some (s.getStep t random pc)
  | .deregister node pc => some (s.deregisterStep t node pc)
  | .idle | .done _ | .fault => none

def State.next (s : State τ α) : Label τ α → Option (State τ α)
  | .call t op =>
      match s.threads t with
      | .idle => some (s.call t op)
      | _ => none
  | .step t random => s.step t random
  | .ret t =>
      match s.threads t with
      | .done _ => some (s.goto t .idle)
      | _ => none

section Next

variable {s s' : State τ α} {t : τ}

/-- A call is made by a thread that is in none, and touches nothing but that
thread. -/
theorem State.next_call {op : Op α} (h : s.next (.call t op) = some s') :
    s.threads t = .idle ∧ s' = s.call t op := by
  simp only [State.next] at h
  split at h
  · next hidle => exact ⟨hidle, (Option.some.inj h).symm⟩
  · cases h

/-- A step is one access of `put`, `get` or `deregister`. Every invariant of
the container is proved along these three cases. -/
theorem State.next_step {random : Nat} (h : s.next (.step t random) = some s') :
    (∃ element pc, s.threads t = .put element pc ∧ s' = s.putStep t element pc) ∨
      (∃ pc, s.threads t = .get pc ∧ s' = s.getStep t random pc) ∨
        ∃ node pc, s.threads t = .deregister node pc ∧ s' = s.deregisterStep t node pc := by
  simp only [State.next, State.step] at h
  split at h
  · next element pc hpc => exact .inl ⟨element, pc, hpc, (Option.some.inj h).symm⟩
  · next pc hpc => exact .inr (.inl ⟨pc, hpc, (Option.some.inj h).symm⟩)
  · next node pc hpc => exact .inr (.inr ⟨node, pc, hpc, (Option.some.inj h).symm⟩)
  all_goals cases h

theorem State.next_ret (h : s.next (.ret t) = some s') :
    ∃ result, s.threads t = .done result ∧ s' = s.goto t .idle := by
  simp only [State.next] at h
  split at h
  · next result hdone => exact ⟨result, hdone, (Option.some.inj h).symm⟩
  · cases h

end Next

omit [DecidableEq τ] in
variable (τ α) in
def State.initial (capacity : Nat) (h : capacity < 2 ^ 64) : State τ α where
  container := .new capacity h
  lock := none
  ptr _ := none
  threads _ := .idle

variable (τ α) in
/-- The container with any number of threads, in any order of their accesses.
It starts with an empty segment and no registration. -/
def distributed (capacity : Nat) (h : capacity < 2 ^ 64) : System (State τ α) (Label τ α) where
  init s := s = State.initial τ α capacity h
  next := State.next

end Step

end Libni.Distributed
