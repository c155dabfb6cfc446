import Libni.BufferList.Model
import Libni.LinkedList.Fifo

/-!
`SPSCBufferList` in sequential use, with its ring buffers and with `SPSCLinkedList`
as they are: `m_in_use` is the linked list of buffer addresses, `m_cache` a ring buffer
of them, and a null pointer is address 0. An access to a buffer that is not allocated
has no result.
-/

namespace Libni.BufferList.Sequential

open Function
open Libni.LinkedList (Allocator)

/-- The list with its parts as they are; `live` are the allocated buffers and
`allocated` counts the calls of `new`. -/
structure State (α : Type*) where
  bufToRead : Addr
  bufToWrite : Addr
  bufSize : Nat
  inUse : LinkedList.State Addr
  cache : RingBuffer.Ring Addr
  heap : Addr → RingBuffer.Ring α
  live : Finset Addr
  allocated : Nat
  size_pow : ∃ k, bufSize = 2 ^ (k + 1)

section Step

variable {α : Type*} [DecidableEq α] (nodes buffers : Allocator) (empty : α)

namespace State

variable (s : State α)

omit [DecidableEq α] in
/-- A dereference. -/
def load (a : Addr) : Option (RingBuffer.Ring α) := if a ∈ s.live then some (s.heap a) else none

omit [DecidableEq α] in
def store (a : Addr) (ring : RingBuffer.Ring α) : State α := { s with heap := update s.heap a ring }

omit [DecidableEq α] in
/-- `new Buffer(buf_size)`, at the address the allocator chooses. -/
def new : State α × Addr :=
  ({ s with
      heap := update s.heap (buffers.choose s.allocated s.live)
        (RingBuffer.Ring.new empty s.bufSize s.size_pow)
      live := insert (buffers.choose s.allocated s.live) s.live
      allocated := s.allocated + 1 },
    buffers.choose s.allocated s.live)

omit [DecidableEq α] in
def delete (a : Addr) : State α := { s with live := s.live.erase a }

end State

omit [DecidableEq α] in
/-- A buffer of the constructor's loop. -/
def State.fill (s : State α) : State α :=
  { (s.new buffers empty).1 with cache := (s.cache.push 0 (s.new buffers empty).2).1 }

omit [DecidableEq α] in
/-- The constructor. The linked list of buffers in use is made without nodes
in its cache. -/
def create (bufferSize cacheSize : Nat) (hbuffer : ∃ k, bufferSize = 2 ^ (k + 1))
    (hcache : ∃ k, cacheSize = 2 ^ (k + 1)) (fillCache : Bool) : State α :=
  let s : State α := ⟨0, 0, bufferSize, LinkedList.create nodes 0 cacheSize hcache false,
    RingBuffer.Ring.new 0 cacheSize hcache, fun _ => RingBuffer.Ring.new empty bufferSize hbuffer,
    ∅, 0, hbuffer⟩
  let s := { (s.new buffers empty).1 with
    bufToRead := (s.new buffers empty).2, bufToWrite := (s.new buffers empty).2 }
  if fillCache = true then (State.fill buffers empty)^[cacheSize] s else s

omit [DecidableEq α] in
/-- `next_to_read`: the address the linked list delivers, null if it finds
itself empty. -/
def State.nextToRead (s : State α) : Option (State α × Addr) :=
  (LinkedList.pop 0 s.inUse).map fun r => ({ s with inUse := r.1 }, r.2)

omit [DecidableEq α] in
/-- A buffer from `m_cache`, or a new one if there is none. -/
def State.takeBuffer (s : State α) : State α × Addr :=
  let s' := { s with cache := (s.cache.pop 0).1 }
  if (s.cache.pop 0).2 = 0 then s'.new buffers empty else (s', (s.cache.pop 0).2)

omit [DecidableEq α] in
/-- `next_to_write`: the buffer is put into the linked list before it is
written. -/
def State.nextToWrite (s : State α) : Option (State α × Addr) :=
  let r := s.takeBuffer buffers empty
  (LinkedList.push nodes r.1.inUse r.2).map fun inUse => ({ r.1 with inUse := inUse }, r.2)

omit [DecidableEq α] in
/-- `m_cache.push(buf)`, or `delete buf` if it is full. The cache refuses a
buffer when it holds as many as it may. -/
def State.recycle (s : State α) (buf : Addr) : State α :=
  if (s.cache.push 0 buf).2 = true then { s with cache := (s.cache.push 0 buf).1 }
  else s.delete buf

omit [DecidableEq α] in
/-- `release`: the buffer is reset and recycled. -/
def State.release (s : State α) (buf : Addr) : Option (State α) :=
  (s.load buf).map fun ring => (s.store buf (ring.reset empty)).recycle buf

/-- `m_buf_to_write->push(element)`, whose result `push` ignores. -/
def State.pushBuffer (s : State α) (element : α) : Option (State α) :=
  (s.load s.bufToWrite).map fun ring => s.store s.bufToWrite (ring.push empty element).1

/-- `m_buf_to_read->pop()`. -/
def State.popBuffer (s : State α) : Option (State α × α) :=
  (s.load s.bufToRead).map fun ring =>
    (s.store s.bufToRead (ring.pop empty).1, (ring.pop empty).2)

/-- A push into a full buffer goes on to another one first. -/
def push (s : State α) (element : α) : Option (State α) :=
  (s.load s.bufToWrite).bind fun ring =>
    if ring.available empty = true then s.pushBuffer empty element
    else (s.nextToWrite nodes buffers empty).bind fun r =>
      ({ r.1 with bufToWrite := r.2 } : State α).pushBuffer empty element

/-- A pop from a drained buffer goes on to the next one, unless it is the one
being written. -/
def pop (s : State α) : Option (State α × α) :=
  (s.load s.bufToRead).bind fun ring =>
    if ring.isEmpty empty = true then
      if s.bufToRead = s.bufToWrite then some (s, empty)
      else if ring.isEmpty empty = true then
        s.nextToRead.bind fun r =>
          if r.2 = 0 then r.1.popBuffer empty
          else (r.1.release empty r.1.bufToRead).bind fun s =>
            ({ s with bufToRead := r.2 } : State α).popBuffer empty
      else s.popBuffer empty
    else s.popBuffer empty

/-- The state after a sequence of calls. -/
def run : State α → List (LinkedList.Op α) → Option (State α)
  | s, [] => some s
  | s, .push element :: ops => (push nodes buffers empty s element).bind fun s => run s ops
  | s, .pop :: ops => (pop empty s).bind fun r => run r.1 ops

end Step

section Store

variable {α : Type*} (s : State α) (a : Addr) (ring : RingBuffer.Ring α)

@[simp] theorem State.heap_store_self : (s.store a ring).heap a = ring := update_self _ _ _

theorem State.heap_store_of_ne {b : Addr} (h : b ≠ a) : (s.store a ring).heap b = s.heap b :=
  update_of_ne h _ _

end Store

section Spec

variable {α : Type*} [DecidableEq α]

/-- What a linked list of addresses delivers: the results of further pops,
until one finds it empty. -/
inductive Delivers : LinkedList.State Addr → List Addr → Prop where
  | done {l l' : LinkedList.State Addr} (h : LinkedList.pop 0 l = some (l', 0)) : Delivers l []
  | next {l l' : LinkedList.State Addr} {b : Addr} {q : List Addr}
      (h : LinkedList.pop 0 l = some (l', b)) (hb : b ≠ 0) (hrest : Delivers l' q) :
      Delivers l (b :: q)

/-- The elements in a ring buffer. -/
def contents {β : Type*} [DecidableEq β] (empty : β) (r : RingBuffer.Ring β) : List β :=
  r.stored empty r.readIndex

/-- Every buffer has one owner: it is the one read, the one written, delivered
by `m_in_use` once or held by `m_cache` once; `m_in_use` delivers `inUse`. -/
structure OneOwner (empty : α) (s : State α) (inUse : List Addr) : Prop where
  delivers : Delivers s.inUse inUse
  cache_distinct : (contents 0 s.cache).Nodup
  cache_empty : ∀ b ∈ contents 0 s.cache, contents empty (s.heap b) = []
  cache_apart : ∀ b ∈ contents 0 s.cache, b ≠ s.bufToRead ∧ b ≠ s.bufToWrite ∧ b ∉ inUse
  not_deleted : ∀ b ∈ s.bufToRead :: s.bufToWrite :: inUse ++ contents 0 s.cache, b ∈ s.live
  order_distinct : (s.bufToRead :: inUse).Nodup
  order_last : (s.bufToRead :: inUse).getLast? = some s.bufToWrite

end Spec

end Libni.BufferList.Sequential
