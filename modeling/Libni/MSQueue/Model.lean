import Mathlib.Logic.Function.Basic
import Libni.TaggedPtr
import Libni.Transition.Linearizable

/-!
The Michael-Scott queue at the granularity of its atomic accesses. Any number
of queues of one element type share one heap, so that the address of a deleted
node can come back as a node of another queue. A program counter names the next
atomic access of its operation and carries the locals that are still used; the
local branching after an access belongs to the step of that access.

A step label supplies the two choices the code does not make: the address
`new` returns, and whether a weak compare-exchange fails spuriously. Freed
memory keeps its contents until its address is handed out again.
-/

namespace Libni.MSQueue

open Function Libni.Transition

abbrev Addr := Nat

/-- `State` of the source: the tag of `m_head` or `m_tail`. It comes round
after `2 ^ 16` moves. -/
abbrev Tag := BitVec 16

/-- A node of the linked list. `next` is exchanged as a whole, address and tag
together, so that a list that has changed in between makes the exchange fail. -/
structure Node (α : Type*) where
  value : α
  next : TaggedPtr

/-- Shared memory: the heap with its allocation state, and the two pointers of
every queue. `used` remembers every address `new` has returned; no step reads
it except to state that addresses are not handed out twice. -/
structure Mem (κ α : Type*) where
  heap : Addr → Node α
  live : Addr → Bool
  used : Addr → Bool
  head : κ → TaggedPtr
  tail : κ → TaggedPtr

/-- `PopResult` of the source. `failure` is given for a head state that is out
of date, and also when the tail lags or the exchange is lost. -/
inductive PopResult where
  | success
  | emptyQueue
  | failure
  deriving DecidableEq, Repr

/-- An operation with its arguments. The output parameters of `pop` and
`try_pop` are passed with the contents they have at the call; `headState` of
`pop` is `none` for a null pointer. -/
inductive Op (κ α : Type*) where
  | push (q : κ) (element : α)
  | tryPush (q : κ) (element : α) (oldTailState : Tag)
  | pop (q : κ) (element : α) (headState : Option Tag)
  | tryPop (q : κ) (element : α) (oldHeadState : Tag) (headState : Tag)
  | empty (q : κ)
  | tailState (q : κ)
  deriving DecidableEq

/-- What an operation returns, with the contents its output parameters have at
the return. -/
inductive Res (α : Type*) where
  | pushed (ok : Bool)
  | popped (ok : Bool) (element : α) (headState : Option Tag)
  | tryPopped (result : PopResult) (element : α) (headState : Tag)
  | isEmpty (empty : Bool)
  | state (tag : Tag)
  deriving DecidableEq

/-- The next access of `push`. Up to the exchange of `next` the thread carries
the node it has created; `casTail` comes after the element is in the queue. -/
inductive PushPc (α : Type*) where
  | newNode (element : α)
  | loadTail (node : Addr)
  | loadNext (node : Addr) (oldTail : TaggedPtr)
  | checkTail (node : Addr) (oldTail next : TaggedPtr)
  | casNext (node : Addr) (oldTail next : TaggedPtr)
  | casTail (node : Addr) (oldTail : TaggedPtr)
  | helpTail (node : Addr) (oldTail next : TaggedPtr)
  deriving DecidableEq

/-- The next access of `try_push`, which compares the tag of the tail before
it allocates and deletes its node again if the exchange is lost. -/
inductive TryPushPc (α : Type*) where
  | loadTail (element : α) (oldTailState : Tag)
  | loadNext (element : α) (oldTail : TaggedPtr)
  | newNode (element : α) (oldTail next : TaggedPtr)
  | casNext (node : Addr) (oldTail next : TaggedPtr)
  | casTail (node : Addr) (oldTail : TaggedPtr)
  | deleteNode (node : Addr)
  | helpTail (oldTail next : TaggedPtr)
  deriving DecidableEq

/-- The next access of `pop`. The value is read before the head is exchanged,
since the node may be gone afterwards. -/
inductive PopPc where
  | loadHead
  | loadTail (oldHead : TaggedPtr)
  | loadNext (oldHead oldTail : TaggedPtr)
  | checkHead (oldHead oldTail next : TaggedPtr)
  | helpTail (oldTail next : TaggedPtr)
  | readValue (oldHead next : TaggedPtr)
  | casHead (oldHead next : TaggedPtr)
  | deleteHead (oldHead : TaggedPtr)
  deriving DecidableEq

/-- The next access of `try_pop`. It has no second load of the head, and is
refused instead of going back. -/
inductive TryPopPc where
  | loadHead
  | loadTail (oldHead : TaggedPtr)
  | loadNext (oldHead oldTail : TaggedPtr)
  | helpTail (oldTail next : TaggedPtr)
  | readValue (oldHead next : TaggedPtr)
  | casHead (oldHead next : TaggedPtr)
  | deleteHead (oldHead : TaggedPtr)
  deriving DecidableEq

/-- The next access of `empty`. It starts over if the head has moved since its
first load. -/
inductive EmptyPc where
  | loadHead
  | loadTail (oldHead : TaggedPtr)
  | loadNext (oldHead oldTail : TaggedPtr)
  | checkHead (oldHead oldTail next : TaggedPtr)
  deriving DecidableEq

/-- Where a thread is. During `pop` and `try_pop` the variable the caller
passed as `element` is carried with its contents at the call, in `arg`, and
its current contents; no step reads `arg`. -/
inductive Local (κ α : Type*) where
  | idle
  | push (q : κ) (pc : PushPc α)
  | tryPush (q : κ) (pc : TryPushPc α)
  | pop (q : κ) (arg element : α) (headState : Option Tag) (pc : PopPc)
  | tryPop (q : κ) (arg element : α) (oldHeadState headState : Tag) (pc : TryPopPc)
  | empty (q : κ) (pc : EmptyPc)
  | tailState (q : κ)
  | done (result : Res α)
  deriving DecidableEq

namespace Mem

variable {κ α : Type*} (m : Mem κ α)

def nextAddr (a : Addr) : Addr := (m.heap a).next.value

def setNext (a : Addr) (p : TaggedPtr) : Mem κ α :=
  { m with heap := update m.heap a { m.heap a with next := p } }

/-- `new Node(element)` at an address the allocator may choose: not null and
not allocated. The constructor leaves `next` null with tag 0, also at an
address that has had a node before. -/
def new (a : Addr) (element : α) : Option (Mem κ α) :=
  if a = 0 ∨ m.live a = true then none
  else some { m with
    heap := update m.heap a ⟨element, .null⟩
    live := update m.live a true
    used := update m.used a true }

/-- `delete` leaves the contents of the node in place, as stale memory that
another thread may still look at. -/
def delete (a : Addr) : Mem κ α := { m with live := update m.live a false }

variable [DecidableEq κ]

def setHead (q : κ) (p : TaggedPtr) : Mem κ α := { m with head := update m.head q p }

def setTail (q : κ) (p : TaggedPtr) : Mem κ α := { m with tail := update m.tail q p }

/-- `m_tail.compare_exchange(old_tail, NodePtr(node, old_tail.tag() + 1))`. -/
def casTail (q : κ) (oldTail : TaggedPtr) (node : Addr) (spurious : Bool) : Mem κ α :=
  if m.tail q = oldTail ∧ spurious = false then m.setTail q ⟨node, oldTail.tag + 1⟩ else m

end Mem

section Step

variable {κ α : Type*} [DecidableEq κ]

/-- One access of `push`. A lost exchange, by another thread or spuriously,
leads back to the load of the tail; the last exchange is tried once. -/
def pushStep (m : Mem κ α) (q : κ) (fresh : Addr) (spurious : Bool) :
    PushPc α → Option (Mem κ α × Local κ α)
  | .newNode element => (m.new fresh element).map fun m' => (m', .push q (.loadTail fresh))
  | .loadTail node => some (m, .push q (.loadNext node (m.tail q)))
  | .loadNext node oldTail =>
      some (m, .push q (.checkTail node oldTail (m.heap oldTail.value).next))
  | .checkTail node oldTail next =>
      if m.tail q ≠ oldTail then some (m, .push q (.loadTail node))
      else if next.value = 0 then some (m, .push q (.casNext node oldTail next))
      else some (m, .push q (.helpTail node oldTail next))
  | .casNext node oldTail next =>
      if (m.heap oldTail.value).next = next ∧ spurious = false then
        some (m.setNext oldTail.value ⟨node, next.tag + 1⟩, .push q (.casTail node oldTail))
      else some (m, .push q (.loadTail node))
  | .casTail node oldTail => some (m.casTail q oldTail node spurious, .done (.pushed true))
  | .helpTail node oldTail next =>
      -- a failed exchange leaves the value it read in `old_tail`
      if m.tail q = oldTail ∧ spurious = false then
        some (m.casTail q oldTail next.value spurious, .push q (.loadNext node oldTail))
      else some (m, .push q (.loadNext node (m.tail q)))

/-- One access of `try_push`; its exchanges are strong. -/
def tryPushStep (m : Mem κ α) (q : κ) (fresh : Addr) :
    TryPushPc α → Option (Mem κ α × Local κ α)
  | .loadTail element oldTailState =>
      if (m.tail q).tag = oldTailState then
        some (m, .tryPush q (.loadNext element (m.tail q)))
      else some (m, .done (.pushed false))
  | .loadNext element oldTail =>
      if ((m.heap oldTail.value).next).value = 0 then
        some (m, .tryPush q (.newNode element oldTail (m.heap oldTail.value).next))
      else some (m, .tryPush q (.helpTail oldTail (m.heap oldTail.value).next))
  | .newNode element oldTail next =>
      (m.new fresh element).map fun m' => (m', .tryPush q (.casNext fresh oldTail next))
  | .casNext node oldTail next =>
      if (m.heap oldTail.value).next = next then
        some (m.setNext oldTail.value ⟨node, next.tag + 1⟩, .tryPush q (.casTail node oldTail))
      else some (m, .tryPush q (.deleteNode node))
  | .casTail node oldTail => some (m.casTail q oldTail node false, .done (.pushed true))
  | .deleteNode node => some (m.delete node, .done (.pushed false))
  | .helpTail oldTail next =>
      some (m.casTail q oldTail next.value false, .done (.pushed false))

/-- One access of `pop`. Each of its three ways on from the loads, empty,
helping and removing, is decided after the head has been loaded once more. -/
def popStep (m : Mem κ α) (q : κ) (spurious : Bool) (arg element : α)
    (headState : Option Tag) :
    PopPc → Mem κ α × Local κ α
  | .loadHead => (m, .pop q arg element headState (.loadTail (m.head q)))
  | .loadTail oldHead => (m, .pop q arg element headState (.loadNext oldHead (m.tail q)))
  | .loadNext oldHead oldTail =>
      (m, .pop q arg element headState (.checkHead oldHead oldTail (m.heap oldHead.value).next))
  | .checkHead oldHead oldTail next =>
      if m.head q ≠ oldHead then (m, .pop q arg element headState .loadHead)
      else if oldHead.value = oldTail.value then
        if next.value = 0 then
          (m, .done (.popped false element (headState.map fun _ => oldTail.tag)))
        else (m, .pop q arg element headState (.helpTail oldTail next))
      else (m, .pop q arg element headState (.readValue oldHead next))
  | .helpTail oldTail next =>
      (m.casTail q oldTail next.value spurious, .pop q arg element headState .loadHead)
  | .readValue oldHead next =>
      (m, .pop q arg (m.heap next.value).value headState (.casHead oldHead next))
  | .casHead oldHead next =>
      if m.head q = oldHead ∧ spurious = false then
        (m.setHead q ⟨next.value, oldHead.tag + 1⟩,
          .pop q arg element headState (.deleteHead oldHead))
      else (m, .pop q arg element headState .loadHead)
  | .deleteHead oldHead =>
      (m.delete oldHead.value,
        .done (.popped true element (headState.map fun _ => oldHead.tag)))

/-- One access of `try_pop`, which does not load the head a second time. The
tag is compared after all three loads. -/
def tryPopStep (m : Mem κ α) (q : κ) (arg element : α) (oldHeadState headState : Tag) :
    TryPopPc → Mem κ α × Local κ α
  | .loadHead => (m, .tryPop q arg element oldHeadState headState (.loadTail (m.head q)))
  | .loadTail oldHead =>
      (m, .tryPop q arg element oldHeadState headState (.loadNext oldHead (m.tail q)))
  | .loadNext oldHead oldTail =>
      if oldHead.tag = oldHeadState then
        if oldHead.value = oldTail.value then
          if ((m.heap oldHead.value).next).value = 0 then
            (m, .done (.tryPopped .emptyQueue element oldTail.tag))
          else
            (m, .tryPop q arg element oldHeadState headState
              (.helpTail oldTail (m.heap oldHead.value).next))
        else
          (m, .tryPop q arg element oldHeadState headState
            (.readValue oldHead (m.heap oldHead.value).next))
      else (m, .done (.tryPopped .failure element headState))
  | .helpTail oldTail next =>
      (m.casTail q oldTail next.value false, .done (.tryPopped .failure element headState))
  | .readValue oldHead next =>
      (m, .tryPop q arg (m.heap next.value).value oldHeadState headState (.casHead oldHead next))
  | .casHead oldHead next =>
      if m.head q = oldHead then
        (m.setHead q ⟨next.value, oldHead.tag + 1⟩,
          .tryPop q arg element oldHeadState headState (.deleteHead oldHead))
      else (m, .done (.tryPopped .failure element headState))
  | .deleteHead oldHead =>
      (m.delete oldHead.value, .done (.tryPopped .success element headState))

def emptyStep (m : Mem κ α) (q : κ) : EmptyPc → Mem κ α × Local κ α
  | .loadHead => (m, .empty q (.loadTail (m.head q)))
  | .loadTail oldHead => (m, .empty q (.loadNext oldHead (m.tail q)))
  | .loadNext oldHead oldTail =>
      (m, .empty q (.checkHead oldHead oldTail (m.heap oldHead.value).next))
  | .checkHead oldHead oldTail next =>
      if m.head q = oldHead then
        (m, .done (.isEmpty (decide (oldHead.value = oldTail.value ∧ next.value = 0))))
      else (m, .empty q .loadHead)

/-- One access of a thread that is inside an operation. -/
def localStep (m : Mem κ α) (fresh : Addr) (spurious : Bool) :
    Local κ α → Option (Mem κ α × Local κ α)
  | .idle => none
  | .push q pc => pushStep m q fresh spurious pc
  | .tryPush q pc => tryPushStep m q fresh pc
  | .pop q arg element headState pc => some (popStep m q spurious arg element headState pc)
  | .tryPop q arg element oldHeadState headState pc =>
      some (tryPopStep m q arg element oldHeadState headState pc)
  | .empty q pc => some (emptyStep m q pc)
  | .tailState q => some (m, .done (.state (m.tail q).tag))
  | .done _ => none

def start : Op κ α → Local κ α
  | .push q element => .push q (.newNode element)
  | .tryPush q element oldTailState => .tryPush q (.loadTail element oldTailState)
  | .pop q element headState => .pop q element element headState .loadHead
  | .tryPop q element oldHeadState headState =>
      .tryPop q element element oldHeadState headState .loadHead
  | .empty q => .empty q .loadHead
  | .tailState q => .tailState q

end Step

/-- The shared memory, and for every thread the operation it is in. A thread
that has its result is still inside until it returns. -/
structure State (κ τ α : Type*) where
  mem : Mem κ α
  threads : τ → Local κ α

/-- The actions of a thread. Only an access that allocates looks at `fresh`,
and only a weak exchange at `spurious`. -/
inductive Label (κ τ α : Type*) where
  | call (thread : τ) (op : Op κ α)
  | step (thread : τ) (fresh : Addr) (spurious : Bool)
  | ret (thread : τ) (result : Res α)

section System

variable {κ τ α : Type*} [DecidableEq κ] [DecidableEq τ] [DecidableEq α]

/-- One action. A thread calls one operation at a time and returns what that
operation has left as its result. -/
def next (s : State κ τ α) : Label κ τ α → Option (State κ τ α)
  | .call t op =>
      match s.threads t with
      | .idle => some { s with threads := update s.threads t (start op) }
      | _ => none
  | .step t fresh spurious =>
      (localStep s.mem fresh spurious (s.threads t)).map fun r =>
        ⟨r.1, update s.threads t r.2⟩
  | .ret t result =>
      match s.threads t with
      | .done r =>
          if r = result then some { s with threads := update s.threads t .idle } else none
      | _ => none

omit [DecidableEq κ] [DecidableEq τ] [DecidableEq α] in
/-- Freshly constructed queues: one dummy node each, head and tail on it with
tag 0, no other node allocated and no thread inside an operation. -/
structure Initial (s : State κ τ α) : Prop where
  idle : ∀ t, s.threads t = .idle
  head_ne : ∀ q, (s.mem.head q).value ≠ 0
  head_tag : ∀ q, (s.mem.head q).tag = 0
  tail_eq : ∀ q, s.mem.tail q = s.mem.head q
  next_null : ∀ q, (s.mem.heap (s.mem.head q).value).next = .null
  distinct : ∀ q q', (s.mem.head q).value = (s.mem.head q').value → q = q'
  live_iff : ∀ a, s.mem.live a = true ↔ ∃ q, a = (s.mem.head q).value
  used_eq : s.mem.used = s.mem.live

omit [DecidableEq κ] [DecidableEq τ] [DecidableEq α] in
/-- `n` queues just constructed, the dummy node of queue `q` at address `q +
1`. -/
def constructed (n : Nat) (value : α) : State (Fin n) τ α where
  mem := {
    heap := fun _ => ⟨value, .null⟩
    live := fun a => decide (1 ≤ a ∧ a ≤ n)
    used := fun a => decide (1 ≤ a ∧ a ≤ n)
    head := fun q => ⟨q + 1, 0⟩
    tail := fun q => ⟨q + 1, 0⟩ }
  threads := fun _ => .idle

omit [DecidableEq κ] [DecidableEq τ] [DecidableEq α] in
theorem initial_constructed (n : Nat) (value : α) :
    Initial (constructed n value : State (Fin n) τ α) where
  idle _ := rfl
  head_ne q := Nat.succ_ne_zero q
  head_tag _ := rfl
  tail_eq _ := rfl
  next_null _ := rfl
  distinct q q' h := Fin.ext (Nat.succ.inj h)
  live_iff a := by
    simp only [constructed, decide_eq_true_eq]
    constructor
    · rintro ⟨hpos, hle⟩
      exact ⟨⟨a - 1, Nat.lt_of_lt_of_le (Nat.sub_lt hpos Nat.one_pos) hle⟩,
        (Nat.sub_add_cancel hpos).symm⟩
    · rintro ⟨q, rfl⟩
      exact ⟨Nat.succ_pos q, q.isLt⟩
  used_eq := rfl

variable (κ τ α) in
/-- Any number of queues used by any number of threads, one access at a time. -/
def system : System (State κ τ α) (Label κ τ α) where
  init := Initial
  next := next

section Next

variable {s s' : State κ τ α} {t : τ}

theorem next_call {op : Op κ α} (h : (system κ τ α).next s (.call t op) = some s') :
    s.threads t = .idle ∧ s' = { s with threads := update s.threads t (start op) } := by
  simp only [system, next] at h
  split at h
  · next hidle => exact ⟨hidle, (Option.some.inj h).symm⟩
  · cases h

/-- A step is one access of the call the thread is in. What it does to memory
is the business of `localStep`, and no other thread moves. -/
theorem next_step {fresh : Addr} {spurious : Bool}
    (h : (system κ τ α).next s (.step t fresh spurious) = some s') :
    ∃ m l, localStep s.mem fresh spurious (s.threads t) = some (m, l) ∧
      s' = ⟨m, update s.threads t l⟩ := by
  obtain ⟨⟨m, l⟩, hstep, hs⟩ := Option.map_eq_some_iff.mp h
  exact ⟨m, l, hstep, hs.symm⟩

theorem next_ret {result : Res α} (h : (system κ τ α).next s (.ret t result) = some s') :
    s.threads t = .done result ∧ s' = { s with threads := update s.threads t .idle } := by
  simp only [system, next] at h
  split at h
  · next r hdone =>
    split at h
    · next heq =>
      subst heq
      exact ⟨hdone, (Option.some.inj h).symm⟩
    · cases h
  · cases h

end Next

def Label.actor : Label κ τ α → τ
  | .call t _ => t
  | .step t _ _ => t
  | .ret t _ => t

def Label.event : Label κ τ α → Option (Event τ (Op κ α) (Res α))
  | .call t op => some (.call t op)
  | .step _ _ _ => none
  | .ret t result => some (.ret t result)

end System

end Libni.MSQueue
