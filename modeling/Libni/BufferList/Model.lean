import Libni.RingBuffer.Effects

/-!
`SPSCBufferList`: an unbounded queue made of fixed-size ring buffers. The ring
buffers, `m_in_use` and `m_cache` enter through their contracts as bounded and
unbounded FIFOs, each of their operations one step; the buffer pointers are
addresses of a heap of buffers, and the address of a deleted buffer may be
handed out again. `m_buf_to_read` belongs to the consumer and `m_buf_to_write`
to the producer, but the consumer also reads the latter.
-/

namespace Libni.BufferList

open Function Libni.Transition
open Libni.RingBuffer (Role)

abbrev Addr := Nat

/-- The buffers in memory, with the lists that `m_in_use` and `m_cache` hold;
`live` says which addresses are allocated. -/
structure Mem (α : Type*) where
  bufToRead : Addr
  bufToWrite : Addr
  bufSize : Nat
  inUse : List Addr
  cache : List Addr
  cacheSize : Nat
  buf : Addr → List α
  live : Addr → Bool

inductive Op (α : Type*) where
  | push (element : α)
  | pop
  | empty
  deriving DecidableEq

inductive Res (α : Type*) where
  | pushed
  | popped (element : α)
  | isEmpty (empty : Bool)
  deriving DecidableEq

/-- `push` with `next_to_write` inlined. The buffer being written is looked at
once, before another one is fetched. -/
inductive PushPc (α : Type*) where
  | checkAvailable (element : α)
  | takeCache (element : α)
  | newBuffer (element : α)
  | publish (element : α) (buf : Addr)
  | setWrite (element : α) (buf : Addr)
  | store (element : α)
  deriving DecidableEq

/-- `pop` with `next_to_read` and `release` inlined. The buffer is found empty
twice before the consumer goes on to the next one. -/
inductive PopPc where
  | checkEmpty
  | compare
  | checkAgain
  | nextToRead
  | resetOld (next : Addr)
  | cacheOld (next : Addr)
  | deleteOld (next : Addr)
  | setRead (next : Addr)
  | popBuffer
  deriving DecidableEq

inductive EmptyPc where
  | checkEmpty
  | compare
  deriving DecidableEq

inductive Local (α : Type*) where
  | idle
  | push (pc : PushPc α)
  | pop (pc : PopPc)
  | empty (pc : EmptyPc)
  | done (result : Res α)
  deriving DecidableEq

namespace Mem

variable {α : Type*} (m : Mem α)

def setBuf (a : Addr) (l : List α) : Mem α := { m with buf := update m.buf a l }

/-- `new Buffer(buf_size)` at an address the allocator may choose, which may
be that of a buffer deleted before. -/
def newBuffer (a : Addr) : Option (Mem α) :=
  if a = 0 ∨ m.live a = true then none
  else some { m with buf := update m.buf a [], live := update m.live a true }

def delete (a : Addr) : Mem α := { m with live := update m.live a false }

end Mem

section Step

variable {α : Type*} (empty : α)

/-- `push` of a ring buffer of `size` slots, whose result the list ignores.
The invariant shows that there is always room. -/
def ringPush (size : Nat) (l : List α) (element : α) : List α :=
  if l.length < size then l ++ [element] else l

/-- One operation of `push` on a buffer, a list or the allocator. Those are
atomic here, as their contracts allow; what is between them is not. -/
def pushStep (m : Mem α) (fresh : Addr) : PushPc α → Option (Mem α × Local α)
  | .checkAvailable element =>
      if (m.buf m.bufToWrite).length < m.bufSize then some (m, .push (.store element))
      else some (m, .push (.takeCache element))
  | .takeCache element =>
      match m.cache with
      | [] => some (m, .push (.newBuffer element))
      | buf :: rest => some ({ m with cache := rest }, .push (.publish element buf))
  | .newBuffer element => (m.newBuffer fresh).map fun m' => (m', .push (.publish element fresh))
  | .publish element buf =>
      some ({ m with inUse := m.inUse ++ [buf] }, .push (.setWrite element buf))
  | .setWrite element buf => some ({ m with bufToWrite := buf }, .push (.store element))
  | .store element =>
      some (m.setBuf m.bufToWrite (ringPush m.bufSize (m.buf m.bufToWrite) element),
        .done .pushed)

/-- One operation of `pop`. It reads `m_buf_to_write` once, between its two
looks at the buffer. -/
def popStep (m : Mem α) : PopPc → Mem α × Local α
  | .checkEmpty =>
      if (m.buf m.bufToRead).isEmpty then (m, .pop .compare) else (m, .pop .popBuffer)
  | .compare =>
      if m.bufToRead = m.bufToWrite then (m, .done (.popped empty)) else (m, .pop .checkAgain)
  | .checkAgain =>
      if (m.buf m.bufToRead).isEmpty then (m, .pop .nextToRead) else (m, .pop .popBuffer)
  | .nextToRead =>
      match m.inUse with
      | [] => (m, .pop .popBuffer)
      | next :: rest => ({ m with inUse := rest }, .pop (.resetOld next))
  | .resetOld next => (m.setBuf m.bufToRead [], .pop (.cacheOld next))
  | .cacheOld next =>
      if m.cache.length < m.cacheSize then
        ({ m with cache := m.cache ++ [m.bufToRead] }, .pop (.setRead next))
      else (m, .pop (.deleteOld next))
  | .deleteOld next => (m.delete m.bufToRead, .pop (.setRead next))
  | .setRead next => ({ m with bufToRead := next }, .pop .popBuffer)
  | .popBuffer =>
      match m.buf m.bufToRead with
      | [] => (m, .done (.popped empty))
      | element :: rest => (m.setBuf m.bufToRead rest, .done (.popped element))

def emptyStep (m : Mem α) : EmptyPc → Local α
  | .checkEmpty =>
      if (m.buf m.bufToRead).isEmpty then .empty .compare else .done (.isEmpty false)
  | .compare => .done (.isEmpty (decide (m.bufToRead = m.bufToWrite)))

def localStep (m : Mem α) (fresh : Addr) : Local α → Option (Mem α × Local α)
  | .idle => none
  | .push pc => pushStep m fresh pc
  | .pop pc => some (popStep empty m pc)
  | .empty pc => some (m, emptyStep m pc)
  | .done _ => none

def start : Op α → Local α
  | .push element => .push (.checkAvailable element)
  | .pop => .pop .checkEmpty
  | .empty => .empty .checkEmpty

end Step

structure State (α : Type*) where
  mem : Mem α
  threads : Role → Local α

inductive Label (α : Type*) where
  | call (role : Role) (op : Op α)
  | step (role : Role) (fresh : Addr)
  | ret (role : Role) (result : Res α)

section System

variable {α : Type*} [DecidableEq α] (empty : α)

def next (s : State α) : Label α → Option (State α)
  | .call t op =>
      match s.threads t with
      | .idle => some { s with threads := update s.threads t (start op) }
      | _ => none
  | .step t fresh =>
      (localStep empty s.mem fresh (s.threads t)).map fun r =>
        ⟨r.1, update s.threads t r.2⟩
  | .ret t result =>
      match s.threads t with
      | .done r =>
          if r = result then some { s with threads := update s.threads t .idle } else none
      | _ => none

omit [DecidableEq α] in
/-- A list just constructed: one buffer of a power-of-two size that is both
read and written, and a cache that is empty or filled with new buffers. -/
structure Initial (s : State α) : Prop where
  idle : ∀ t, s.threads t = .idle
  same : s.mem.bufToWrite = s.mem.bufToRead
  size_pow : ∃ k, s.mem.bufSize = 2 ^ (k + 1)
  inUse_nil : s.mem.inUse = []
  nodup : (s.mem.bufToRead :: s.mem.cache).Nodup
  live : ∀ a ∈ s.mem.bufToRead :: s.mem.cache, s.mem.live a = true
  buf_nil : ∀ a ∈ s.mem.bufToRead :: s.mem.cache, s.mem.buf a = []

def system : System (State α) (Label α) where
  init := Initial
  next := next empty

section Next

variable {empty} {s s' : State α} {t : Role}

theorem next_call {op : Op α} (h : (system empty).next s (.call t op) = some s') :
    s.threads t = .idle ∧ s' = { s with threads := update s.threads t (start op) } := by
  simp only [system, next] at h
  split at h
  · next hidle => exact ⟨hidle, (Option.some.inj h).symm⟩
  · cases h

/-- A step is one access of the call the thread is in, and changes no other
thread. -/
theorem next_step {fresh : Addr} (h : (system empty).next s (.step t fresh) = some s') :
    ∃ m l, localStep empty s.mem fresh (s.threads t) = some (m, l) ∧
      s' = ⟨m, update s.threads t l⟩ := by
  obtain ⟨⟨m, l⟩, hstep, hs⟩ := Option.map_eq_some_iff.mp h
  exact ⟨m, l, hstep, hs.symm⟩

theorem next_ret {result : Res α} (h : (system empty).next s (.ret t result) = some s') :
    s.threads t = .done result ∧ s' = { s with threads := update s.threads t .idle } := by
  simp only [system, next] at h
  split at h
  · next r hdone =>
    split at h
    · next heq =>
      subst heq
      exact ⟨hdone, (Option.some.inj h).symm⟩
    · cases h
  · cases h

end Next

omit [DecidableEq α] in
/-- The producer pushes elements different from `Empty`, the consumer pops.
Neither does the other's part. -/
def Allowed : Role → Op α → Prop
  | .producer, .push element => element ≠ empty
  | .consumer, .pop | .consumer, .empty => True
  | _, _ => False

omit [DecidableEq α] in
/-- Runs with one producer and one consumer. -/
def Disciplined (_ : State α) : Label α → Prop
  | .call t op => Allowed empty t op
  | _ => True

instance (t : Role) (op : Op α) : Decidable (Allowed empty t op) := by
  cases t <;> cases op <;> unfold Allowed <;> infer_instance

instance (s : State α) (l : Label α) : Decidable (Disciplined empty s l) :=
  match l with
  | .call t op => inferInstanceAs (Decidable (Allowed empty t op))
  | .step _ _ => inferInstanceAs (Decidable True)
  | .ret _ _ => inferInstanceAs (Decidable True)

def Label.actor : Label α → Role
  | .call t _ => t
  | .step t _ => t
  | .ret t _ => t

def Label.event : Label α → Option (Event Role (Op α) (Res α))
  | .call t op => some (.call t op)
  | .step _ _ => none
  | .ret t result => some (.ret t result)

end System

end Libni.BufferList
