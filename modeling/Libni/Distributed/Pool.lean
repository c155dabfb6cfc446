import Libni.Transition.System
import Libni.Distributed.Container

/-!
`LLDynamicDistributed` when its operations do not overlap: `put`, `get` and
`deregister_thread` as functions on the container and its `BackendPtr`s, `none` where
the source dereferences a null entry. The loops are those of the source, with fuel
for the iterations left; `get`, which starts over with a `goto`, has its own.
-/

namespace Libni.Distributed

open Function Libni.Transition

namespace Container

variable {α : Type*}

/-- `remove_backend` with nothing in between. The last entry takes the place
of the one removed. -/
def removeBackend (c : Container α) (index : Nat) : Container α :=
  match c.segment index with
  | none => c
  | some n =>
      if c.kept n then c
      else
        let c := (c.delete n).setLength (decrement c.length)
        let c := c.setEntry index (c.segment c.length)
        let c := c.setEntry c.length none
        c.setVersion (increment c.version)

/-- The loop of `put` over a full segment, from iteration `i` on. After a
removal it goes on with the next index, as the source does. -/
def sweep (c : Container α) : Nat → Nat → Option (Container α)
  | 0, _ => some c
  | fuel + 1, i =>
      if i < c.length then
        match c.segment i with
        | none => none
        | some n => sweep (if c.kept n then c else c.removeBackend i) fuel (i + 1)
      else some c

/-- `m_segment[m_segment_length++] = new Node()` and `++m_version`. -/
def register (c : Container α) : Container α :=
  let n := c.nodeCount
  let c := c.allocate
  let c := (c.setLength (increment c.length)).setEntry c.length (some n)
  c.setVersion (increment c.version)

/-- What the first pass of `get` over the segment ends with: an element, a
removal, after which `get` starts over, or the states of all tails. -/
inductive Pass (α : Type*) where
  | found (element : α) (node : Nat) (c : Container α)
  | retry (c : Container α)
  | finished (states : Nat → Option Nat)

/-- The first pass of `get` from iteration `i` on; `states` is `tails_states`.
A dead node found empty ends the pass with its removal. -/
def firstPass (c : Container α) (start : Nat) :
    Nat → Nat → (Nat → Option Nat) → Option (Pass α)
  | 0, _, states => some (.finished states)
  | fuel + 1, i, states =>
      if i < c.length then
        let index := (start + i) % c.length
        match c.segment index with
        | none => none
        | some n =>
            match (c.nodes n).elements.head? with
            | some element => some (.found element n (c.setNode n (c.nodes n).pop))
            | none =>
                if (c.nodes n).alive then
                  firstPass c start fuel (i + 1)
                    (update states i (some (c.nodes n).tailState))
                else some (.retry (c.removeBackend index))
      else some (.finished states)

/-- The second pass: whether no tail has moved since the first one. It is
false, too, if a state was not recorded. -/
def secondPass (c : Container α) (start : Nat) (states : Nat → Option Nat) :
    Nat → Nat → Option Bool
  | 0, _ => some true
  | fuel + 1, i =>
      if i < c.length then
        match c.segment ((start + i) % c.length) with
        | none => none
        | some n =>
            if some (c.nodes n).tailState = states i then secondPass c start states fuel (i + 1)
            else some false
      else some true

/-- The loop of `get` from attempt `k` on, with the values of the random
generator. -/
def retryLoop (rng : Nat → Nat) : Nat → Nat → Container α →
    Option (Option (α × Nat) × Container α)
  | 0, _, _ => none
  | fuel + 1, k, c =>
      if c.length = 0 then some (none, c)
      else
        let start := rng k % c.length
        let version := c.version
        match c.firstPass start c.length 0 fun _ => none with
        | none => none
        | some (.found element n c) => some (some (element, n), c)
        | some (.retry c) => retryLoop rng fuel (k + 1) c
        | some (.finished states) =>
            if c.version ≠ version then retryLoop rng fuel (k + 1) c
            else
              match c.secondPass start states c.length 0 with
              | none => none
              | some false => retryLoop rng fuel (k + 1) c
              | some true => some (none, c)

/-- The search of `deregister_thread` from iteration `i` on, which stops at
the first entry for the node. -/
def search (c : Container α) (node : Nat) : Nat → Nat → Container α
  | 0, _ => c
  | fuel + 1, i =>
      if i < c.length then
        if c.segment i = some node then c.removeBackend i else search c node fuel (i + 1)
      else c

end Container

/-- The container with the node each `BackendPtr` refers to. A `BackendPtr` is
named by whoever holds it. -/
structure Pool (κ α : Type*) where
  container : Container α
  ptr : κ → Option Nat

namespace Pool

variable {κ α : Type*} [DecidableEq κ] (s : Pool κ α)

/-- `put`, which gives the node the element has gone to, or null for false. -/
def put (k : κ) (element : α) : Option (Option Nat × Pool κ α) :=
  let c := s.container
  match s.ptr k with
  | some n => some (some n, { s with container := c.setNode n ((c.nodes n).push element) })
  | none =>
      match if c.length ≥ c.capacity then c.sweep c.length 0 else some c with
      | none => none
      | some c =>
          if c.length ≥ c.capacity then some (none, { s with container := c })
          else
            let n := c.nodeCount
            let c := c.register
            some (some n,
              ⟨c.setNode n ((c.nodes n).push element), update s.ptr k (some n)⟩)

/-- `get`, which gives an element and the node it comes from. The thread's own
backend is asked first. -/
def get (k : κ) (rng : Nat → Nat) (fuel : Nat) : Option (Option (α × Nat) × Pool κ α) :=
  let c := s.container
  match (s.ptr k).bind fun n => ((c.nodes n).elements.head?).map fun element => (element, n) with
  | some (element, n) =>
      some (some (element, n), { s with container := c.setNode n (c.nodes n).pop })
  | none => (c.retryLoop rng fuel 0).map fun r => (r.1, { s with container := r.2 })

/-- `deregister_thread`. The node is turned off before it is looked for, and
stays in the segment if it has elements. -/
def deregisterThread (k : κ) : Pool κ α :=
  match s.ptr k with
  | none => s
  | some n =>
      let c := s.container.setNode n (s.container.nodes n).turnOff
      ⟨if (c.nodes n).empty then c.search n c.length 0 else c, update s.ptr k none⟩

end Pool

end Libni.Distributed
