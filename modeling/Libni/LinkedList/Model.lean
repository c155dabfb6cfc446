import Mathlib.Data.Finset.Basic
import Mathlib.Order.Lattice.Nat
import Libni.RingBuffer.Sequential

/-!
`SPSCLinkedList` in sequential use. A null pointer is address 0; the nodes
taken out of the list are kept in the ring buffer `m_cache` and handed out again
by `push`. An access to memory that is not allocated has no result. Where a new
node goes is up to the allocator, which may hand out a deleted node's address
again.
-/

namespace Libni.LinkedList

open Function

abbrev Addr := Nat

structure Node (α : Type*) where
  data : α
  next : Addr

/-- The addresses `new` returns: for every number of earlier allocations and
every set of allocated addresses one that is not among them. A deleted node's
address may come back at once. -/
structure Allocator where
  choose : Nat → Finset Addr → Addr
  ne_zero : ∀ n live, choose n live ≠ 0
  notMem : ∀ n live, choose n live ∉ live

/-- The list, its cache and the memory; `live` are the allocated addresses and
`allocated` counts the calls of `new`. -/
structure State (α : Type*) where
  head : Addr
  tail : Addr
  cache : RingBuffer.Ring Addr
  heap : Addr → Node α
  live : Finset Addr
  allocated : Nat

inductive Op (α : Type*) where
  | push (element : α)
  | pop
  deriving DecidableEq

section Step

variable {α : Type*} (alloc : Allocator)

namespace State

variable (s : State α)

/-- A dereference, which has no result where nothing is allocated. -/
def load (a : Addr) : Option (Node α) := if a ∈ s.live then some (s.heap a) else none

/-- `new Node(data)`, at the address the allocator chooses. -/
def new (data : α) : State α × Addr :=
  ({ s with
      heap := update s.heap (alloc.choose s.allocated s.live) ⟨data, 0⟩
      live := insert (alloc.choose s.allocated s.live) s.live
      allocated := s.allocated + 1 },
    alloc.choose s.allocated s.live)

def delete (a : Addr) : State α := { s with live := s.live.erase a }

/-- `a->next.store(n)`. -/
def setNext (a n : Addr) : Option (State α) :=
  if a ∈ s.live then some { s with heap := update s.heap a { s.heap a with next := n } }
  else none

end State

/-- `m_tail->next.store(n); m_tail = n`. -/
def State.link (s : State α) (n : Addr) : Option (State α) :=
  (s.setNext s.tail n).map fun s => { s with tail := n }

/-- A node of the constructor's loop. -/
def State.fill (init : α) (s : State α) : State α :=
  { (s.new alloc init).1 with cache := (s.cache.push 0 (s.new alloc init).2).1 }

/-- The constructor; `init` is `T()`, the data of a node made by `Node()`.
With `fillCache` as many nodes as the cache takes are made in advance. -/
def create (init : α) (cacheSize : Nat) (h : ∃ k, cacheSize = 2 ^ (k + 1)) (fillCache : Bool) :
    State α :=
  let s : State α := ⟨0, 0, RingBuffer.Ring.new 0 cacheSize h, fun _ => ⟨init, 0⟩, ∅, 0⟩
  let s := { (s.new alloc init).1 with
    head := (s.new alloc init).2, tail := (s.new alloc init).2 }
  if fillCache = true then (State.fill alloc init)^[cacheSize] s else s

/-- A node from the cache is linked as it is, with the data and the successor
it has. -/
def push (s : State α) (element : α) : Option (State α) :=
  let n := (s.cache.pop 0).2
  let s := { s with cache := (s.cache.pop 0).1 }
  if n = 0 then (s.new alloc element).1.link (s.new alloc element).2 else s.link n

/-- `m_cache.push(n)`, or `delete n` if it is full. -/
def State.recycle (s : State α) (n : Addr) : State α :=
  if (s.cache.push 0 n).2 = true then { s with cache := (s.cache.push 0 n).1 } else s.delete n

/-- A pop moves the head to its successor and returns the data of that node;
the old head is recycled. A null successor means an empty list. -/
def pop (empty : α) (s : State α) : Option (State α × α) :=
  (s.load s.head).bind fun head =>
    if head.next = 0 then some (s, empty)
    else (s.load head.next).map fun next =>
      (({ s with head := head.next } : State α).recycle s.head, next.data)

/-- The state after a sequence of calls and what its pops returned. -/
def run (empty : α) : State α → List (Op α) → Option (State α × List α)
  | s, [] => some (s, [])
  | s, .push element :: ops => (push alloc s element).bind fun s => run empty s ops
  | s, .pop :: ops => (pop empty s).bind fun r =>
      (run empty r.1 ops).map fun rest => (rest.1, r.2 :: rest.2)

end Step

section Spec

variable {α : Type*}

/-- What the pops of a FIFO that holds `q` return, the measure the list is
held against. -/
def fifoPops (empty : α) : List α → List (Op α) → List α
  | _, [] => []
  | q, .push element :: ops => fifoPops empty (q ++ [element]) ops
  | q, .pop :: ops => q.headD empty :: fifoPops empty q.tail ops

end Spec

end Libni.LinkedList
