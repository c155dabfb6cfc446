import Mathlib.Data.List.GetD
import Mathlib.Data.List.TakeWhile
import Mathlib.Data.Nat.ModEq
import Libni.RingBuffer.Model

/-!
The layout of a ring buffer: from the front index on, as many slots as there
are stored elements hold them in order and the others hold `Empty`. Storing at
the back and clearing the front are the two changes of the slots; both keep the
layout, across the wrap-around of the indices as well.
-/

namespace Libni.RingBuffer

open Function

variable {α : Type*}

namespace Ring

variable (r : Ring α)

theorem size_pos : 0 < r.size := by
  obtain ⟨k, hk⟩ := r.size_pow
  rw [hk]
  exact Nat.two_pow_pos _

/-- Masking is the remainder, since the size is a power of two. The
constructor asserts that it is. -/
theorem advance_eq (i : Nat) : r.advance i = (i + 1) % r.size := by
  obtain ⟨k, hk⟩ := r.size_pow
  rw [advance, r.mask_eq, hk, Nat.and_two_pow_sub_one_eq_mod]

theorem advance_lt (i : Nat) : r.advance i < r.size := by
  rw [advance_eq]
  exact Nat.mod_lt _ r.size_pos

/-- The elements met from index `front` on, up to the first free slot. It is
computed from the slots alone and used as the contents of the buffer. -/
def stored [DecidableEq α] (empty : α) (front : Nat) : List α :=
  ((List.range r.size).map fun i => r.buf ((front + i) % r.size)).takeWhile (· ≠ empty)

end Ring

/-- The ring `r` stores the elements of `q` from `front` up to `back`, and
every other slot is free. -/
structure Layout (empty : α) (r : Ring α) (front back : Nat) (q : List α) : Prop where
  front_lt : front < r.size
  back_eq : back = (front + q.length) % r.size
  le : q.length ≤ r.size
  slots : ∀ i < r.size, r.buf ((front + i) % r.size) = q.getD i empty
  proper : ∀ e ∈ q, e ≠ empty

namespace Layout

variable {empty : α} {r : Ring α} {front back : Nat} {q : List α}

theorem new (size : Nat) (h : ∃ k, size = 2 ^ (k + 1)) :
    Layout empty (Ring.new empty size h) 0 0 [] :=
  ⟨(Ring.new empty size h).size_pos, (Nat.zero_mod _).symm, Nat.zero_le _, fun _ _ => rfl,
    by simp⟩

/-- The front slot holds the first element, or `Empty` if there is none. -/
theorem front_slot (h : Layout empty r front back q) : r.buf front = q.headD empty := by
  have hslot := h.slots 0 r.size_pos
  rw [Nat.add_zero, Nat.mod_eq_of_lt h.front_lt] at hslot
  rw [hslot]
  cases q <;> rfl

theorem front_slot_eq_empty (h : Layout empty r front back q) :
    r.buf front = empty ↔ q = [] := by
  rw [h.front_slot]
  cases q with
  | nil => simp
  | cons e q => simpa using h.proper e (by simp)

/-- The back slot is free unless the buffer is full, and then it is the front
slot. -/
theorem back_slot_eq_empty (h : Layout empty r front back q) :
    r.buf back = empty ↔ q.length < r.size := by
  rw [h.back_eq]
  constructor
  · intro hempty
    rcases Nat.lt_or_ge q.length r.size with hlt | hge
    · exact hlt
    · have hfull : q.length = r.size := le_antisymm h.le hge
      rw [hfull, Nat.add_mod_right, Nat.mod_eq_of_lt h.front_lt, h.front_slot_eq_empty] at hempty
      rw [hempty] at hfull
      exact absurd hfull.symm r.size_pos.ne'
  · intro hlt
    rw [h.slots _ hlt]
    exact List.getD_eq_default _ _ le_rfl

/-- Distinct offsets below the size are distinct slots, across the end of the
array as well. -/
theorem index_injective {n i j : Nat} (hi : i < r.size) (hj : j < r.size)
    (h : (n + i) % r.size = (n + j) % r.size) : i = j := by
  have hmod : Nat.ModEq r.size i j := Nat.ModEq.add_left_cancel' n h
  exact hmod.eq_of_lt_of_lt hi hj

/-- Storing an element in the free back slot appends it to the contents. The
index is moved by a later access. -/
theorem store (h : Layout empty r front back q) (hlt : q.length < r.size) {e : α}
    (he : e ≠ empty) : Layout empty (r.setSlot back e) front (r.advance back) (q ++ [e]) := by
  refine ⟨h.front_lt, ?_, by simpa [Ring.setSlot] using Nat.succ_le_of_lt hlt, ?_, ?_⟩
  · rw [Ring.advance_eq, h.back_eq]
    simp [Ring.setSlot, Nat.add_assoc]
  · intro i hi
    change update r.buf back e ((front + i) % r.size) = _
    rcases lt_trichotomy i q.length with hless | rfl | hgreater
    · have hne : (front + i) % r.size ≠ back := by
        rw [h.back_eq]
        intro heq
        have := index_injective hi hlt heq
        omega
      rw [update_of_ne hne, h.slots i hi, List.getD_append _ _ _ _ hless]
    · rw [← h.back_eq, update_self, List.getD_append_right _ _ _ _ le_rfl]
      simp
    · have hne : (front + i) % r.size ≠ back := by
        rw [h.back_eq]
        intro heq
        have := index_injective hi hlt heq
        omega
      rw [update_of_ne hne, h.slots i hi, List.getD_eq_default _ _ hgreater.le,
        List.getD_eq_default _ _ (by simpa using Nat.succ_le_of_lt hgreater)]
  · intro x hx
    rcases List.mem_append.mp hx with hold | hnew
    · exact h.proper x hold
    · rw [List.mem_singleton.mp hnew]
      exact he

theorem clear {e : α} (h : Layout empty r front back (e :: q)) :
    Layout empty (r.setSlot front empty) (r.advance front) back q := by
  have hsize := r.size_pos
  have hlength : q.length + 1 ≤ r.size := h.le
  refine ⟨Ring.advance_lt _ _, ?_, ?_, ?_, fun x hx => h.proper x (by simp [hx])⟩
  · rw [h.back_eq, Ring.advance_eq]
    change _ = ((front + 1) % r.size + q.length) % r.size
    rw [Nat.mod_add_mod, List.length_cons]
    congr 1
    omega
  · change q.length ≤ r.size
    omega
  · intro i hi
    change update r.buf front empty ((r.advance front + i) % r.size) = _
    have hi : i < r.size := hi
    rw [Ring.advance_eq, Nat.mod_add_mod, Nat.add_assoc, Nat.add_comm 1 i]
    have hfront : front = (front + 0) % r.size := by
      rw [Nat.add_zero, Nat.mod_eq_of_lt h.front_lt]
    by_cases hlast : i + 1 = r.size
    · -- the last offset comes back to the slot just cleared
      rw [hlast, Nat.add_mod_right, Nat.mod_eq_of_lt h.front_lt, update_self,
        List.getD_eq_default _ _ (by omega)]
    · have hlt : i + 1 < r.size := by omega
      have hne : (front + (i + 1)) % r.size ≠ front := by
        intro heq
        rw [hfront, ← hfront] at heq
        have := index_injective hlt hsize (heq.trans hfront)
        omega
      rw [update_of_ne hne, h.slots _ hlt, List.getD_cons_succ]

/-- The stored elements can be read off the slots, so that the contents of a
layout are unique. -/
theorem stored_eq [DecidableEq α] (h : Layout empty r front back q) :
    r.stored empty front = q := by
  have hslots : ((List.range r.size).map fun i => r.buf ((front + i) % r.size)) =
      q ++ List.replicate (r.size - q.length) empty := by
    apply List.ext_getElem (by simp [Nat.add_sub_cancel' h.le])
    intro i hi _
    have hi : i < r.size := by simpa using hi
    simp only [List.getElem_map, List.getElem_range, h.slots i hi]
    rcases Nat.lt_or_ge i q.length with hlt | hge
    · rw [List.getElem_append_left hlt, List.getD_eq_getElem _ _ hlt]
    · rw [List.getElem_append_right hge, List.getD_eq_default _ _ hge, List.getElem_replicate]
  rw [Ring.stored, hslots, List.takeWhile_append_of_pos (by simpa using h.proper)]
  cases r.size - q.length with
  | zero => simp
  | succ n => simp [List.replicate_succ]

end Layout

end Libni.RingBuffer
