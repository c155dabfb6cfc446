import Mathlib.Order.Basic
import Mathlib.Order.Nat
import Libni.Distributed.Pool

/-!
The segment of a container between two changes: its entries up to the length are
distinct nodes, and no node that is alive or has elements is missing. Removing and
registering a node keep this.
-/

namespace Libni.Distributed

open Function

namespace Container

variable {α : Type*}

/-- The entries below the length are distinct nodes that have not been
removed, and every node that is kept has one. This is what a change of the
segment has to restore. -/
structure WellFormed (c : Container α) : Prop where
  entry_lt : ∀ i n, c.segment i = some n → i < c.length ∧ n < c.nodeCount
  filled : ∀ i < c.length, ∃ n, c.segment i = some n
  distinct : ∀ i j n, c.segment i = some n → c.segment j = some n → i = j
  length_le : c.length ≤ c.capacity
  held : ∀ n < c.nodeCount, c.kept n = true → ∃ i, c.segment i = some n
  blank : ∀ n, c.nodeCount ≤ n → c.nodes n = ⟨false, [], 0⟩
  removed : ∀ n ∈ c.removed, n < c.nodeCount ∧ ∀ i, c.segment i ≠ some n
  removed_once : c.removed.Nodup

variable {c : Container α} {n : Nat} {node : Node α}

theorem kept_eq_false : c.kept n = false ↔ (c.nodes n).alive = false ∧ (c.nodes n).elements = [] := by
  simp [kept, Node.empty]

theorem kept_of_alive (h : (c.nodes n).alive = true) : c.kept n = true := by
  simp [kept, h]

/-- The segment after the entry at index `last` has been moved to index `i`.
The two may be the same. -/
theorem segment_erased (segment : Nat → Option Nat) (i last j : Nat) :
    update (update segment i (segment last)) last none j =
      if j = last then none else if j = i then segment last else segment j := by
  by_cases hlast : j = last
  · rw [if_pos hlast, hlast, update_self]
  · rw [if_neg hlast, update_of_ne hlast, update_apply]

/-- Every entry but the one removed is left, though perhaps at another index. -/
theorem erased_entry {segment : Nat → Option Nat} {i j m : Nat} (last : Nat)
    (hi : segment i = some n) (hj : segment j = some m) (hmn : m ≠ n) :
    ∃ j', update (update segment i (segment last)) last none j' = some m := by
  have hne : j ≠ i := by
    rintro rfl
    rw [hi] at hj
    cases hj
    exact hmn rfl
  by_cases hlast : j = last
  · subst hlast
    refine ⟨i, ?_⟩
    rw [segment_erased, if_neg hne.symm, if_pos rfl, hj]
  · refine ⟨j, ?_⟩
    rw [segment_erased, if_neg hlast, if_neg hne, hj]

namespace WellFormed

theorem new (capacity : Nat) (h : capacity < 2 ^ 64) :
    (Container.new capacity h : Container α).WellFormed where
  entry_lt := by rintro _ _ ⟨⟩
  filled := by rintro _ ⟨⟩
  distinct := by rintro _ _ _ ⟨⟩
  length_le := Nat.zero_le _
  held := by rintro _ ⟨⟩
  blank _ _ := rfl
  removed := by rintro _ ⟨⟩
  removed_once := .nil

theorem setVersion (h : c.WellFormed) (version : Nat) : (c.setVersion version).WellFormed :=
  ⟨h.entry_lt, h.filled, h.distinct, h.length_le, h.held, h.blank, h.removed, h.removed_once⟩

/-- A node that is in the segment, or need not be there, changes. Whoever
turns a node on has to see to its entry first. -/
theorem setNode (h : c.WellFormed) (hn : n < c.nodeCount)
    (hkept : (node.alive || !node.empty) = true → c.kept n = true) :
    (c.setNode n node).WellFormed where
  entry_lt := h.entry_lt
  filled := h.filled
  distinct := h.distinct
  length_le := h.length_le
  held := by
    intro m hm hm'
    by_cases hmn : m = n
    · subst hmn
      have hm' : ((update c.nodes m node m).alive || !(update c.nodes m node m).empty) = true := hm'
      rw [update_self] at hm'
      exact h.held m hm (hkept hm')
    · have hm' : ((update c.nodes n node m).alive || !(update c.nodes n node m).empty) = true := hm'
      rw [update_of_ne hmn] at hm'
      exact h.held m hm hm'
  blank := by
    intro m hm
    change update c.nodes n node m = _
    rw [update_of_ne (hn.trans_le hm).ne']
    exact h.blank m hm
  removed := h.removed
  removed_once := h.removed_once

section Erase

variable (h : c.WellFormed) {i : Nat} (hi : c.segment i = some n)

include h hi

theorem entry_erased {j m : Nat} (hj : update (update c.segment i (c.segment (c.length - 1)))
    (c.length - 1) none j = some m) : j < c.length - 1 ∧ m ≠ n ∧
      ((j = i ∧ c.segment (c.length - 1) = some m) ∨ (j ≠ i ∧ c.segment j = some m)) := by
  rw [segment_erased] at hj
  split at hj
  · cases hj
  · next hlast =>
    have hlt := (h.entry_lt i n hi).1
    split at hj
    · next hji =>
      subst hji
      refine ⟨by omega, ?_, .inl ⟨rfl, hj⟩⟩
      rintro rfl
      exact hlast (h.distinct _ _ _ hi hj)
    · next hji =>
      have hj' := (h.entry_lt j m hj).1
      refine ⟨by omega, ?_, .inr ⟨hji, hj⟩⟩
      rintro rfl
      exact hji (h.distinct _ _ _ hj hi)

/-- The last entry takes the place of the one at index `i`. The node there is
the only one that is missing afterwards, and it is not kept. -/
theorem erase (hkept : c.kept n = false) (version : Nat) : WellFormed { c with
    removed := n :: c.removed
    length := c.length - 1
    segment := update (update c.segment i (c.segment (c.length - 1))) (c.length - 1) none
    version := version } where
  entry_lt j m hj := by
    obtain ⟨hj', _, hcase⟩ := h.entry_erased hi hj
    refine ⟨hj', ?_⟩
    rcases hcase with ⟨_, hm⟩ | ⟨_, hm⟩ <;> exact (h.entry_lt _ m hm).2
  filled j hj := by
    have hj : j < c.length - 1 := hj
    change ∃ m, update (update c.segment i _) (c.length - 1) none j = some m
    rw [segment_erased, if_neg hj.ne]
    split
    · exact h.filled _ (by omega)
    · exact h.filled j (by omega)
  distinct j j' m hj hj' := by
    obtain ⟨hlt, _, hcase⟩ := h.entry_erased hi hj
    obtain ⟨hlt', _, hcase'⟩ := h.entry_erased hi hj'
    rcases hcase with ⟨rfl, hm⟩ | ⟨_, hm⟩ <;> rcases hcase' with ⟨rfl, hm'⟩ | ⟨_, hm'⟩
    · rfl
    · have := h.distinct _ _ _ hm hm'
      omega
    · have := h.distinct _ _ _ hm hm'
      omega
    · exact h.distinct _ _ _ hm hm'
  length_le := (Nat.sub_le _ 1).trans h.length_le
  held m hm hm' := by
    replace hm' : c.kept m = true := hm'
    have hmn : m ≠ n := by
      rintro rfl
      rw [hkept] at hm'
      cases hm'
    obtain ⟨j, hj⟩ := h.held m hm hm'
    exact erased_entry _ hi hj hmn
  blank := h.blank
  removed m hm := by
    rcases List.mem_cons.mp hm with rfl | hm
    · exact ⟨(h.entry_lt i m hi).2, fun j hj => (h.entry_erased hi hj).2.1 rfl⟩
    · refine ⟨(h.removed m hm).1, fun j hj => ?_⟩
      obtain ⟨_, _, hcase⟩ := h.entry_erased hi hj
      rcases hcase with ⟨_, hm'⟩ | ⟨_, hm'⟩ <;> exact (h.removed m hm).2 _ hm'
  removed_once := List.nodup_cons.mpr ⟨fun hm => (h.removed n hm).2 i hi, h.removed_once⟩

end Erase

/-- On a well-formed segment `remove_backend` is one update of the container.
The intermediate length and the moved entry are no longer seen. -/
theorem removeBackend_eq (h : c.WellFormed) {i : Nat} (hi : c.segment i = some n)
    (hkept : c.kept n = false) : c.removeBackend i = { c with
      removed := n :: c.removed
      length := c.length - 1
      segment := update (update c.segment i (c.segment (c.length - 1))) (c.length - 1) none
      version := increment c.version } := by
  have hlt := (h.entry_lt i n hi).1
  have hdec : decrement c.length = c.length - 1 := decrement_eq (by omega)
  unfold removeBackend
  rw [hi]
  simp only [hkept, hdec]
  rfl

/-- `remove_backend` of the node at index `i`. The segment stays well formed,
and the node is noted as deleted. -/
theorem removed_entry (h : c.WellFormed) {i : Nat} (hi : c.segment i = some n)
    (hkept : c.kept n = false) : (c.removeBackend i).WellFormed ∧
      (c.removeBackend i).length = c.length - 1 ∧ (c.removeBackend i).removed = n :: c.removed := by
  rw [h.removeBackend_eq hi hkept]
  exact ⟨h.erase hi hkept _, rfl, rfl⟩

theorem enroll (h : c.WellFormed) (hlt : c.length < c.capacity) (version : Nat) :
    WellFormed { c with
      nodes := update c.nodes c.nodeCount .new
      nodeCount := c.nodeCount + 1
      segment := update c.segment c.length (some c.nodeCount)
      length := c.length + 1
      version := version } := by
  have hentry (j m : Nat) (hj : update c.segment c.length (some c.nodeCount) j = some m) :
      (j = c.length ∧ m = c.nodeCount) ∨ (j < c.length ∧ m < c.nodeCount ∧ c.segment j = some m) := by
    by_cases hj' : j = c.length
    · subst hj'
      rw [update_self] at hj
      cases hj
      exact .inl ⟨rfl, rfl⟩
    · rw [update_of_ne hj'] at hj
      exact .inr ⟨(h.entry_lt j m hj).1, (h.entry_lt j m hj).2, hj⟩
  refine ⟨fun j m hj => ?_, fun j hj => ?_, fun j j' m hj hj' => ?_, hlt, fun m hm hm' => ?_,
    fun m hm => ?_, fun m hm => ?_, h.removed_once⟩
  · change j < c.length + 1 ∧ m < c.nodeCount + 1
    rcases hentry j m hj with ⟨rfl, rfl⟩ | ⟨hj, hm, _⟩ <;> omega
  · change ∃ m, update c.segment c.length (some c.nodeCount) j = some m
    have hj : j < c.length + 1 := hj
    by_cases hj' : j = c.length
    · subst hj'
      exact ⟨c.nodeCount, update_self _ _ _⟩
    · rw [update_of_ne hj']
      exact h.filled j (by omega)
  · rcases hentry j m hj with ⟨rfl, rfl⟩ | ⟨_, hm, hj⟩ <;>
      rcases hentry j' _ hj' with ⟨rfl, hm'⟩ | ⟨_, hm', hj'⟩
    · rfl
    · omega
    · omega
    · exact h.distinct _ _ _ hj hj'
  · have hm : m < c.nodeCount + 1 := hm
    change ∃ i, update c.segment c.length (some c.nodeCount) i = some m
    by_cases hmn : m = c.nodeCount
    · subst hmn
      exact ⟨c.length, update_self _ _ _⟩
    · have hm' : ((update c.nodes c.nodeCount .new m).alive ||
          !(update c.nodes c.nodeCount .new m).empty) = true := hm'
      rw [update_of_ne hmn] at hm'
      obtain ⟨i, hi⟩ := h.held m (by omega) hm'
      refine ⟨i, ?_⟩
      rw [update_of_ne (h.entry_lt i m hi).1.ne]
      exact hi
  · have hm : c.nodeCount + 1 ≤ m := hm
    change update c.nodes c.nodeCount .new m = _
    rw [update_of_ne (by omega)]
    exact h.blank m (by omega)
  · obtain ⟨hlt', hnone⟩ := h.removed m hm
    refine ⟨hlt'.trans (Nat.lt_succ_self _), fun j hj => ?_⟩
    rcases hentry j m hj with ⟨_, rfl⟩ | ⟨_, _, hj⟩
    · exact lt_irrefl _ hlt'
    · exact hnone j hj

/-- Registering a node keeps the segment well formed as long as there is room
for it. -/
theorem register (h : c.WellFormed) (hlt : c.length < c.capacity) : c.register.WellFormed := by
  have hinc : increment c.length = c.length + 1 := increment_eq hlt c.capacity_lt
  have heq : c.register = { c with
      nodes := update c.nodes c.nodeCount .new
      nodeCount := c.nodeCount + 1
      segment := update c.segment c.length (some c.nodeCount)
      length := c.length + 1
      version := increment c.version } := by
    rw [← hinc]
    rfl
  rw [heq]
  exact h.enroll hlt _

end WellFormed

end Container

end Libni.Distributed
