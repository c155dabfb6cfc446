import Mathlib.Logic.Function.Basic
import Mathlib.Data.Nat.Bitwise
import Libni.Transition.Linearizable

/-!
`SPSCRingBuffer` at the granularity of its atomic accesses. A slot that holds
`Empty` is free; the two indices are advanced after the slot they point at has
been written, so between the two accesses an index is one slot behind. The
step functions are those of single calls and do not say which thread makes
them; the system below has one producer and one consumer.
-/

namespace Libni.RingBuffer

open Function Libni.Transition

/-- `size` is what the constructor asserts: a power of two greater than one.
The indices stay below it, so `size_t` never wraps. -/
structure Ring (α : Type*) where
  size : Nat
  mask : Nat
  writeIndex : Nat
  readIndex : Nat
  buf : Nat → α
  size_pow : ∃ k, size = 2 ^ (k + 1)
  mask_eq : mask = size - 1

namespace Ring

variable {α : Type*}

def new (empty : α) (size : Nat) (h : ∃ k, size = 2 ^ (k + 1)) : Ring α where
  size := size
  mask := size - 1
  writeIndex := 0
  readIndex := 0
  buf _ := empty
  size_pow := h
  mask_eq := rfl

theorem two_eq_pow : ∃ k, 2 = 2 ^ (k + 1) := ⟨0, rfl⟩

theorem four_eq_pow : ∃ k, 4 = 2 ^ (k + 1) := ⟨1, rfl⟩

variable (r : Ring α)

/-- The index after `i`, masked as in the source. -/
def advance (i : Nat) : Nat := (i + 1) &&& r.mask

def setSlot (i : Nat) (element : α) : Ring α := { r with buf := update r.buf i element }

def setWriteIndex (i : Nat) : Ring α := { r with writeIndex := i }

def setReadIndex (i : Nat) : Ring α := { r with readIndex := i }

/-- `reset()`, called when no other thread uses the buffer. -/
def reset (empty : α) : Ring α :=
  { r with writeIndex := 0, readIndex := 0, buf := fun _ => empty }

/-- `len()` with no other access in between; equal indices mean a buffer that
is empty or full, which the slot tells. -/
def len [DecidableEq α] (empty : α) : Nat :=
  if r.writeIndex > r.readIndex then r.writeIndex - r.readIndex
  else if r.writeIndex < r.readIndex then r.size - r.readIndex + r.writeIndex
  else if r.buf r.writeIndex = empty then 0
  else r.size

end Ring

/-- The accesses of `push`. The index is loaded three times, to look at the
slot, to store into it and to move on, since the source asks the atomic each
time. -/
inductive PushPc (α : Type*) where
  | loadIndex (element : α)
  | loadSlot (element : α) (w : Nat)
  | storeIndex (element : α)
  | storeSlot (element : α) (w : Nat)
  | nextIndex
  | setIndex (w : Nat)
  deriving DecidableEq

/-- The accesses of `pop`, with the same three loads of the index. The slot is
set to `Empty` before the index moves on. -/
inductive PopPc (α : Type*) where
  | loadIndex
  | loadSlot (r : Nat)
  | clearIndex (element : α)
  | clearSlot (element : α) (r : Nat)
  | nextIndex (element : α)
  | setIndex (element : α) (r : Nat)
  deriving DecidableEq

/-- `available`, `empty` and `top` load an index and then its slot. -/
inductive PeekPc where
  | loadIndex
  | loadSlot (i : Nat)
  deriving DecidableEq

/-- `len` loads both indices one after the other, and the slot if they agree. -/
inductive LenPc where
  | loadWrite
  | loadRead (w : Nat)
  | loadSlot (w : Nat)
  deriving DecidableEq

inductive Op (α : Type*) where
  | push (element : α)
  | available
  | pop
  | top
  | empty
  | len
  deriving DecidableEq

inductive Res (α : Type*) where
  | pushed (ok : Bool)
  | isAvailable (available : Bool)
  | popped (element : α)
  | top (element : α)
  | isEmpty (empty : Bool)
  | len (count : Nat)
  deriving DecidableEq

inductive Local (α : Type*) where
  | idle
  | push (pc : PushPc α)
  | available (pc : PeekPc)
  | pop (pc : PopPc α)
  | top (pc : PeekPc)
  | empty (pc : PeekPc)
  | len (pc : LenPc)
  | done (result : Res α)
  deriving DecidableEq

section Step

variable {α : Type*} [DecidableEq α] (empty : α)

/-- One access of `push`. The element becomes visible with the store into the
slot, one access before the index follows. -/
def pushStep (r : Ring α) : PushPc α → Ring α × Local α
  | .loadIndex element => (r, .push (.loadSlot element r.writeIndex))
  | .loadSlot element w =>
      if r.buf w = empty then (r, .push (.storeIndex element)) else (r, .done (.pushed false))
  | .storeIndex element => (r, .push (.storeSlot element r.writeIndex))
  | .storeSlot element w => (r.setSlot w element, .push .nextIndex)
  | .nextIndex => (r, .push (.setIndex r.writeIndex))
  | .setIndex w => (r.setWriteIndex (r.advance w), .done (.pushed true))

/-- One access of `pop`. The element is gone with the store of `Empty` into
its slot. -/
def popStep (r : Ring α) : PopPc α → Ring α × Local α
  | .loadIndex => (r, .pop (.loadSlot r.readIndex))
  | .loadSlot i =>
      if r.buf i = empty then (r, .done (.popped empty)) else (r, .pop (.clearIndex (r.buf i)))
  | .clearIndex element => (r, .pop (.clearSlot element r.readIndex))
  | .clearSlot element i => (r.setSlot i empty, .pop (.nextIndex element))
  | .nextIndex element => (r, .pop (.setIndex element r.readIndex))
  | .setIndex element i => (r.setReadIndex (r.advance i), .done (.popped element))

def availableStep (r : Ring α) : PeekPc → Local α
  | .loadIndex => .available (.loadSlot r.writeIndex)
  | .loadSlot w => .done (.isAvailable (decide (r.buf w = empty)))

def topStep (r : Ring α) : PeekPc → Local α
  | .loadIndex => .top (.loadSlot r.readIndex)
  | .loadSlot i => .done (.top (r.buf i))

def emptyStep (r : Ring α) : PeekPc → Local α
  | .loadIndex => .empty (.loadSlot r.readIndex)
  | .loadSlot i => .done (.isEmpty (decide (r.buf i = empty)))

/-- One access of `len`; the slot is only loaded when the indices agree. It
then tells a full buffer from an empty one. -/
def lenStep (r : Ring α) : LenPc → Local α
  | .loadWrite => .len (.loadRead r.writeIndex)
  | .loadRead w =>
      if w > r.readIndex then .done (.len (w - r.readIndex))
      else if w < r.readIndex then .done (.len (r.size - r.readIndex + w))
      else .len (.loadSlot w)
  | .loadSlot w => .done (.len (if r.buf w = empty then 0 else r.size))

def localStep (r : Ring α) : Local α → Option (Ring α × Local α)
  | .idle => none
  | .push pc => some (pushStep empty r pc)
  | .available pc => some (r, availableStep empty r pc)
  | .pop pc => some (popStep empty r pc)
  | .top pc => some (r, topStep r pc)
  | .empty pc => some (r, emptyStep empty r pc)
  | .len pc => some (r, lenStep empty r pc)
  | .done _ => none

omit [DecidableEq α] in
def start : Op α → Local α
  | .push element => .push (.loadIndex element)
  | .available => .available .loadIndex
  | .pop => .pop .loadIndex
  | .top => .top .loadIndex
  | .empty => .empty .loadIndex
  | .len => .len .loadWrite

end Step

inductive Role where
  | producer
  | consumer
  deriving DecidableEq, Repr

structure State (α : Type*) where
  ring : Ring α
  threads : Role → Local α

inductive Label (α : Type*) where
  | call (role : Role) (op : Op α)
  | step (role : Role)
  | ret (role : Role) (result : Res α)

section System

variable {α : Type*} [DecidableEq α] (empty : α)

/-- A call, an access of the call a thread is in, or its return. Calls of the
two sides interleave at every access. -/
def next (s : State α) : Label α → Option (State α)
  | .call t op =>
      match s.threads t with
      | .idle => some { s with threads := update s.threads t (start op) }
      | _ => none
  | .step t =>
      (localStep empty s.ring (s.threads t)).map fun r => ⟨r.1, update s.threads t r.2⟩
  | .ret t result =>
      match s.threads t with
      | .done r =>
          if r = result then some { s with threads := update s.threads t .idle } else none
      | _ => none

omit [DecidableEq α] in
/-- A buffer just constructed, with no call in progress. Every slot is `Empty`
and both indices are 0. -/
def Initial (size : Nat) (s : State α) : Prop :=
  (∃ h, s.ring = Ring.new empty size h) ∧ ∀ t, s.threads t = .idle

def system (size : Nat) : System (State α) (Label α) where
  init := Initial empty size
  next := next empty

section Next

variable {empty} {size : Nat} {s s' : State α} {t : Role}

theorem next_call {op : Op α} (h : (system empty size).next s (.call t op) = some s') :
    s.threads t = .idle ∧ s' = { s with threads := update s.threads t (start op) } := by
  simp only [system, next] at h
  split at h
  · next hidle => exact ⟨hidle, (Option.some.inj h).symm⟩
  · cases h

/-- A step is one access of the call the thread is in, and changes no other
thread. -/
theorem next_step (h : (system empty size).next s (.step t) = some s') :
    ∃ r l, localStep empty s.ring (s.threads t) = some (r, l) ∧
      s' = ⟨r, update s.threads t l⟩ := by
  obtain ⟨⟨r, l⟩, hstep, hs⟩ := Option.map_eq_some_iff.mp h
  exact ⟨r, l, hstep, hs.symm⟩

theorem next_ret {result : Res α} (h : (system empty size).next s (.ret t result) = some s') :
    s.threads t = .done result ∧ s' = { s with threads := update s.threads t .idle } := by
  simp only [system, next] at h
  split at h
  · next r hdone =>
    split at h
    · next heq =>
      subst heq
      exact ⟨hdone, (Option.some.inj h).symm⟩
    · cases h
  · cases h

end Next

omit [DecidableEq α] in
/-- Which calls each side makes: the producer pushes elements different from
`Empty` and the consumer takes them; both may ask for the length. -/
def Allowed : Role → Op α → Prop
  | .producer, .push element => element ≠ empty
  | .producer, .available | .producer, .len => True
  | .consumer, .pop | .consumer, .top | .consumer, .empty | .consumer, .len => True
  | _, _ => False

omit [DecidableEq α] in
/-- Runs with one producer and one consumer, which is what the class is
documented for. -/
def Disciplined (_ : State α) : Label α → Prop
  | .call t op => Allowed empty t op
  | _ => True

instance (t : Role) (op : Op α) : Decidable (Allowed empty t op) := by
  cases t <;> cases op <;> unfold Allowed <;> infer_instance

instance (s : State α) (l : Label α) : Decidable (Disciplined empty s l) :=
  match l with
  | .call t op => inferInstanceAs (Decidable (Allowed empty t op))
  | .step _ => inferInstanceAs (Decidable True)
  | .ret _ _ => inferInstanceAs (Decidable True)

def Label.actor : Label α → Role
  | .call t _ => t
  | .step t => t
  | .ret t _ => t

def Label.event : Label α → Option (Event Role (Op α) (Res α))
  | .call t op => some (.call t op)
  | .step _ => none
  | .ret t result => some (.ret t result)

end System

end Libni.RingBuffer
