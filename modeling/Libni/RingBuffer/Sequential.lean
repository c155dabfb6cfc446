import Libni.RingBuffer.Layout

/-!
The ring buffer used by one thread: `push` and `pop` as whole calls.
-/

namespace Libni.RingBuffer

variable {α : Type*} [DecidableEq α] {empty : α} {r : Ring α} {q : List α} {e : α}

namespace Ring

def available (empty : α) (r : Ring α) : Bool := r.buf r.writeIndex = empty

def isEmpty (empty : α) (r : Ring α) : Bool := r.buf r.readIndex = empty

/-- `push` as a whole call; false if the slot at the write index is taken. -/
def push (empty : α) (r : Ring α) (element : α) : Ring α × Bool :=
  if r.buf r.writeIndex = empty then
    ((r.setSlot r.writeIndex element).setWriteIndex (r.advance r.writeIndex), true)
  else (r, false)

/-- `pop` as a whole call; it returns `Empty` from an empty buffer. -/
def pop (empty : α) (r : Ring α) : Ring α × α :=
  if r.buf r.readIndex = empty then (r, empty)
  else
    ((r.setSlot r.readIndex empty).setReadIndex (r.advance r.readIndex), r.buf r.readIndex)

end Ring

omit [DecidableEq α] in
/-- Between calls the elements lie between the two indices, and the other
slots are `Empty`. -/
def Holds (empty : α) (r : Ring α) (q : List α) : Prop :=
  Layout empty r r.readIndex r.writeIndex q

namespace Holds

omit [DecidableEq α] in
theorem new (size : Nat) (h : ∃ k, size = 2 ^ (k + 1)) :
    Holds empty (Ring.new empty size h) [] := Layout.new size h

@[simp] theorem size_push : (r.push empty e).1.size = r.size := by
  unfold Ring.push
  split <;> rfl

@[simp] theorem size_pop : (r.pop empty).1.size = r.size := by
  unfold Ring.pop
  split <;> rfl

theorem available_iff (h : Holds empty r q) : r.available empty = true ↔ q.length < r.size :=
  decide_eq_true_iff.trans h.back_slot_eq_empty

theorem isEmpty_iff (h : Holds empty r q) : r.isEmpty empty = true ↔ q = [] :=
  decide_eq_true_iff.trans h.front_slot_eq_empty

omit [DecidableEq α] in
theorem reset : Holds empty (r.reset empty) [] :=
  ⟨r.size_pos, (Nat.zero_mod _).symm, Nat.zero_le _, fun _ _ => rfl, by simp⟩

theorem push_of_lt (h : Holds empty r q) (hlt : q.length < r.size) (he : e ≠ empty) :
    (r.push empty e).2 = true ∧ Holds empty (r.push empty e).1 (q ++ [e]) := by
  rw [Ring.push, if_pos (h.back_slot_eq_empty.mpr hlt)]
  have hlayout := h.store hlt he
  exact ⟨rfl, hlayout.front_lt, hlayout.back_eq, hlayout.le, hlayout.slots, hlayout.proper⟩

theorem push_of_full (h : Holds empty r q) (hfull : ¬ q.length < r.size) :
    r.push empty e = (r, false) := by
  rw [Ring.push, if_neg (mt h.back_slot_eq_empty.mp hfull)]

theorem pop_nil (h : Holds empty r []) : r.pop empty = (r, empty) := by
  rw [Ring.pop, if_pos (h.front_slot_eq_empty.mpr rfl)]

theorem pop_cons (h : Holds empty r (e :: q)) :
    (r.pop empty).2 = e ∧ Holds empty (r.pop empty).1 q := by
  rw [Ring.pop, if_neg (mt h.front_slot_eq_empty.mp (List.cons_ne_nil _ _))]
  have hlayout := h.clear
  exact ⟨h.front_slot, hlayout.front_lt, hlayout.back_eq, hlayout.le, hlayout.slots,
    hlayout.proper⟩

end Holds

end Libni.RingBuffer
