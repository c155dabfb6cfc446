import Libni.BufferList.Model

/-!
The invariant of the buffer list. The buffers to be read are `m_buf_to_read`
followed by those of `m_in_use`; `m_buf_to_write` is the last of them, or the
one before a buffer just published. What lies between the first buffer and the
one written is full and stays so, so a consumer that has seen its buffer empty
and the producer elsewhere can abandon it, and everything in the cache is empty
and in nobody's hands.
-/

namespace Libni.BufferList

open Function Libni.Transition
open Libni.RingBuffer (Role)

variable {α : Type*}

namespace Local

/-- The buffers to be read, in order. While the consumer goes on to the next
buffer, the one it has taken is the first of them. -/
def chain (m : Mem α) : Local α → List Addr
  | .pop (.resetOld next) | .pop (.cacheOld next) | .pop (.deleteOld next)
  | .pop (.setRead next) => next :: m.inUse
  | _ => m.bufToRead :: m.inUse

/-- The buffer the consumer has left and not yet released. -/
def released (m : Mem α) : Local α → List Addr
  | .pop (.resetOld _) | .pop (.cacheOld _) | .pop (.deleteOld _) => [m.bufToRead]
  | _ => []

/-- The buffer the producer has taken and not yet published. -/
def inHand : Local α → List Addr
  | .push (.publish _ buf) => [buf]
  | _ => []

/-- The buffer the producer has published and does not yet write to. Between
the two the consumer may already have come to it. -/
def post : Local α → List Addr
  | .push (.setWrite _ buf) => [buf]
  | _ => []

/-- Whether the consumer has decided to pop from the first buffer, so that
this must still hold an element. -/
def fresh : Local α → Bool
  | .pop (.resetOld _) | .pop (.cacheOld _) | .pop (.deleteOld _) | .pop (.setRead _)
  | .pop .popBuffer => true
  | _ => false

/-- The producer between its check of the buffer and its move to the next one:
the buffer written is not empty, unless the consumer reads it as well. -/
def Full (m : Mem α) (pre : List Addr) (fresh : Bool) : Prop :=
  m.buf m.bufToWrite ≠ [] ∨ (pre = [] ∧ fresh = false)

/-- What the producer's program counter says about the buffer it writes. -/
def Producing (empty : α) (m : Mem α) (pre : List Addr) (fresh : Bool) : Local α → Prop
  | .push (.checkAvailable element) => element ≠ empty
  | .push (.takeCache element) | .push (.newBuffer element) | .push (.publish element _)
  | .push (.setWrite element _) => element ≠ empty ∧ Full m pre fresh
  | .push (.store element) => element ≠ empty ∧ (m.buf m.bufToWrite).length < m.bufSize
  | .pop _ | .empty _ => False
  | .idle | .done _ => True

/-- What the consumer's program counter says; `pre` are the buffers before the
one written. -/
def Consuming (m : Mem α) (pre : List Addr) : Local α → Prop
  | .pop .checkAgain => pre ≠ []
  | .pop .nextToRead => pre ≠ [] ∧ m.buf m.bufToRead = []
  | .pop (.resetOld next) | .pop (.setRead next) => m.buf next ≠ [] ∨ pre = []
  | .pop (.cacheOld next) | .pop (.deleteOld next) =>
      (m.buf next ≠ [] ∨ pre = []) ∧ m.buf m.bufToRead = []
  | .pop .popBuffer => m.buf m.bufToRead ≠ [] ∨ pre = []
  | .push _ => False
  | _ => True

end Local

/-- Every buffer somebody may still use. No address occurs in it twice, so a
buffer taken from the cache is nobody else's. -/
def owned (m : Mem α) (p c : Local α) : List Addr :=
  c.chain m ++ m.cache ++ p.inHand ++ c.released m

/-- The shape of the list when the producer is at `p`, the consumer at `c` and
the buffers before the one written are `pre`. -/
structure Placed (empty : α) (m : Mem α) (p c : Local α) (pre : List Addr) : Prop where
  chain_eq : c.chain m = pre ++ m.bufToWrite :: p.post
  nodup : (owned m p c).Nodup
  live : ∀ a ∈ owned m p c, m.live a = true
  full : ∀ a ∈ pre.tail, m.buf a ≠ []
  unused : ∀ a ∈ m.cache ++ p.inHand ++ p.post, m.buf a = []
  proper : ∀ a ∈ c.chain m, ∀ e ∈ m.buf a, e ≠ empty
  size_pos : 0 < m.bufSize
  producing : p.Producing empty m pre c.fresh
  consuming : c.Consuming m pre

/-- The stored elements, front first: those of the buffers to be read, one
buffer after the other. -/
def contents (m : Mem α) (c : Local α) : List α := (c.chain m).flatMap m.buf

namespace Placed

variable {empty : α} {m : Mem α} {p c : Local α} {pre : List Addr}

theorem chain_nodup (h : Placed empty m p c pre) : (pre ++ m.bufToWrite :: p.post).Nodup := by
  rw [← h.chain_eq]
  have := h.nodup
  simp only [owned, List.append_assoc] at this
  exact (List.nodup_append.mp this).1

theorem notMem_pre (h : Placed empty m p c pre) : m.bufToWrite ∉ pre := by
  have := h.chain_nodup
  rw [List.nodup_append] at this
  exact fun hmem => this.2.2 _ hmem _ List.mem_cons_self rfl

theorem mem_chain (h : Placed empty m p c pre) : m.bufToWrite ∈ c.chain m := by
  rw [h.chain_eq]
  simp

/-- A buffer to be read is not waiting to be written, so that resetting or
reusing one of those does not touch the contents. -/
theorem ne_of_chain (h : Placed empty m p c pre) {a b : Addr} (ha : a ∈ c.chain m)
    (hb : b ∈ m.cache ++ p.inHand ++ c.released m) : a ≠ b := by
  have := h.nodup
  rw [owned, List.append_assoc, List.append_assoc, List.nodup_append] at this
  rw [List.append_assoc] at hb
  exact this.2.2 a ha b hb

theorem contents_eq (h : Placed empty m p c pre) :
    contents m c = pre.flatMap m.buf ++ m.buf m.bufToWrite := by
  rw [contents, h.chain_eq, List.flatMap_append, List.flatMap_cons]
  have hpost : p.post.flatMap m.buf = [] := by
    rw [List.flatMap_eq_nil_iff]
    intro a ha
    exact h.unused a (by simp [ha])
  rw [hpost, List.append_nil]

/-- If no buffer comes before the one written, its elements are all there are. -/
theorem contents_of_pre_nil (h : Placed empty m p c pre) (hpre : pre = []) :
    contents m c = m.buf m.bufToWrite := by
  rw [h.contents_eq, hpre]
  rfl

/-- The first buffer is the one written exactly if none comes before it. This
is what the consumer learns from comparing the two pointers. -/
theorem head_eq_write_iff (h : Placed empty m p c pre) {a : Addr} {rest : List Addr}
    (hchain : c.chain m = a :: rest) : a = m.bufToWrite ↔ pre = [] := by
  have heq := h.chain_eq
  rw [hchain] at heq
  cases pre with
  | nil => simpa using (List.cons.inj heq).1
  | cons b pre =>
      have hab := (List.cons.inj heq).1
      refine ⟨fun hwrite => absurd List.mem_cons_self (hwrite ▸ hab ▸ h.notMem_pre), by simp⟩

end Placed

end Libni.BufferList
