import Mathlib.Algebra.Group.Nat.Defs
import Mathlib.Logic.Function.Basic

/-!
The data of `LLDynamicDistributed`: nodes with their backends and the segment that
lists them. A backend is an `MSQueue` seen from outside, a FIFO queue with the count of
its pushes, of which `tail_state` gives the low 16 bits. Nodes are numbered as they are
created. A removed node keeps its fields, so that uses of it can be told.
-/

namespace Libni.Distributed

open Function

/-- A node as the threads see it: the flag `alive`, and the backend as the
elements in it with the number of pushes so far. -/
structure Node (α : Type*) where
  alive : Bool
  elements : List α
  pushes : Nat

namespace Node

variable {α : Type*} (node : Node α)

/-- The backend of a new node. -/
def new : Node α := ⟨true, [], 0⟩

def empty : Bool := node.elements.isEmpty

/-- `tail_state`, the tag of the backend's tail. It is also what `pop` stores
when the queue is empty, and it comes round after `2 ^ 16` pushes. -/
def tailState : Nat := node.pushes % 2 ^ 16

def push (element : α) : Node α :=
  { node with elements := node.elements ++ [element], pushes := node.pushes + 1 }

/-- `pop` takes the first element, if any. It leaves the tail, and therefore
`tailState`, as it is. -/
def pop : Node α := { node with elements := node.elements.tail }

def turnOff : Node α := { node with alive := false }

end Node

/-- `segment` is the array `m_segment` with its null entries; `capacity`,
`length` and `version` are `size_t`. The nodes that have been deleted are
history, the last one first. -/
structure Container (α : Type*) where
  nodes : Nat → Node α
  nodeCount : Nat
  segment : Nat → Option Nat
  capacity : Nat
  capacity_lt : capacity < 2 ^ 64
  length : Nat
  version : Nat
  removed : List Nat

namespace Container

theorem one_lt : 1 < 2 ^ 64 := by decide

theorem two_lt : 2 < 2 ^ 64 := by decide

theorem three_lt : 3 < 2 ^ 64 := by decide

variable {α : Type*} (c : Container α)

def new (capacity : Nat) (h : capacity < 2 ^ 64) : Container α where
  nodes _ := ⟨false, [], 0⟩
  nodeCount := 0
  segment _ := none
  capacity := capacity
  capacity_lt := h
  length := 0
  version := 0
  removed := []

/-- `node->alive() || !node->backend()->empty()`: the node is not to be
removed, since its owner or an element in it would be lost. -/
def kept (n : Nat) : Bool := (c.nodes n).alive || !(c.nodes n).empty

def setNode (n : Nat) (node : Node α) : Container α :=
  { c with nodes := update c.nodes n node }

/-- `new Node()`. Nodes are never numbered twice, so a node can be told from
one that takes its place. -/
def allocate : Container α :=
  { c with nodes := update c.nodes c.nodeCount .new, nodeCount := c.nodeCount + 1 }

def setEntry (i : Nat) (entry : Option Nat) : Container α :=
  { c with segment := update c.segment i entry }

/-- The node is only noted as deleted. It keeps its fields, so that an access
of it can be told from one of a live node. -/
def delete (n : Nat) : Container α := { c with removed := n :: c.removed }

def setLength (length : Nat) : Container α := { c with length := length }

def setVersion (version : Nat) : Container α := { c with version := version }

end Container

/-- `++` and `--` of a `size_t`, which wrap around. -/
def increment (n : Nat) : Nat := if n = 2 ^ 64 - 1 then 0 else n + 1

def decrement (n : Nat) : Nat := if n = 0 then 2 ^ 64 - 1 else n - 1

theorem increment_eq {n m : Nat} (h : n < m) (hm : m < 2 ^ 64) : increment n = n + 1 :=
  if_neg (by omega)

theorem decrement_eq {n : Nat} (h : 0 < n) : decrement n = n - 1 := if_neg (by omega)

end Libni.Distributed
