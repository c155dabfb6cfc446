import Mathlib.Data.Fintype.Basic
import Libni.Distributed.Segment
import Libni.Distributed.WellFormed

/-!
Changes of the segment that exclude each other. `get` calls `remove_backend` without
the lock, so the lock alone does not see to it. In the runs where it never happens
that a thread begins a change inside another one's, the segment is well formed between
changes, and inside a change it is what the access about to be made is going to mend.
-/

namespace Libni.Distributed

open Function Libni.Transition Libni.Transition.System

section Guard

variable {τ α : Type*}

def PutPc.registering : PutPc → Bool
  | .lock | .push _ => false
  | _ => true

/-- The thread is inside `remove_backend` or the registering part of `put`.
These are the parts that store to the segment, its length or its version. -/
def Local.changing : Local α → Bool
  | .put _ pc => pc.registering
  | .get (.removing _) | .deregister _ (.removing _) => true
  | _ => false

/-- The next access of the thread begins a change. For `get` that is the load
of a dead node's tag, after which it calls `remove_backend`. -/
def State.Entering (s : State τ α) (t : τ) : Prop :=
  match s.threads t with
  | .put _ .lock | .deregister _ (.lock _) => s.lock = none
  | .get (.alive _ _ _ node) => (s.container.nodes node).alive = false
  | _ => False

/-- No change begins while another thread is inside one. The lock sees to it
for `put` and `deregister_thread`, but not for `get`. -/
def Exclusive (s : State τ α) : Label τ α → Prop
  | .step t _ => s.Entering t → ∀ u, u ≠ t → (s.threads u).changing = false
  | _ => True

instance [DecidableEq τ] (s : State τ α) (t : τ) : Decidable (s.Entering t) :=
  decidable_of_bool
    (match s.threads t with
      | .put _ .lock | .deregister _ (.lock _) => decide (s.lock = none)
      | .get (.alive _ _ _ node) => !(s.container.nodes node).alive
      | _ => false)
    (by unfold State.Entering; split <;> simp)

instance [DecidableEq τ] [Fintype τ] (s : State τ α) (l : Label τ α) :
    Decidable (Exclusive s l) :=
  match l with
  | .step t _ => inferInstanceAs (Decidable
      (s.Entering t → ∀ u, u ≠ t → (s.threads u).changing = false))
  | .call _ _ | .ret _ => inferInstanceAs (Decidable True)

end Guard

section Phase

variable {α : Type*}

/-- The node at `index` of `segment` has been deleted; with that segment and
the given length the container is well formed. -/
def Container.Removing (c : Container α) (index : Nat) (segment : Nat → Option Nat)
    (length : Nat) : Prop :=
  ∃ node removed, c.removed = node :: removed ∧ segment index = some node ∧
    c.kept node = false ∧
    Container.WellFormed { c with segment := segment, length := length, removed := removed }

/-- What `remove_backend` has left of the well-formed container at its next
access: which store is still missing, and with which value. -/
def RemovePc.Phase (c : Container α) : RemovePc → Prop
  | .loadEntry _ | .loadVersion | .storeVersion _ => c.WellFormed
  | .alive index node => c.WellFormed ∧ c.segment index = some node
  | .empty index node =>
      c.WellFormed ∧ c.segment index = some node ∧ (c.nodes node).alive = false
  | .delete index node => c.WellFormed ∧ c.segment index = some node ∧ c.kept node = false
  | .loadLength index => c.Removing index c.segment c.length
  | .storeLength index length => c.Removing index c.segment c.length ∧ length = c.length
  | .loadLast index => c.Removing index c.segment (c.length + 1)
  | .loadMoved index last => c.Removing index c.segment (c.length + 1) ∧ last = c.length
  | .move index moved =>
      c.Removing index c.segment (c.length + 1) ∧ moved = c.segment c.length
  | .loadEnd => ∃ index segment, c.Removing index segment (c.length + 1) ∧
      c.segment = update segment index (segment c.length)
  | .clear last => (∃ index segment, c.Removing index segment (c.length + 1) ∧
      c.segment = update segment index (segment c.length)) ∧ last = c.length

/-- What the registering part of `put` relies on at its next access. -/
def PutPc.Phase (c : Container α) : PutPc → Prop
  | .lock | .push _ => True
  | .removing _ pc => pc.Phase c
  | .loadIndex => c.WellFormed ∧ c.length < c.capacity
  | .storeLength index => c.WellFormed ∧ c.length < c.capacity ∧ index = c.length
  | .storeEntry index => c.length = index + 1 ∧ index < c.capacity ∧
      Container.WellFormed { c with length := index }
  | _ => c.WellFormed

/-- What holds of the container while the thread is inside a change. At most
one thread is, so there is one phase at a time. -/
def Local.Phase (c : Container α) : Local α → Prop
  | .put _ pc => pc.Phase c
  | .get (.removing pc) | .deregister _ (.removing pc) => pc.Phase c
  | _ => True

/-- The container would be well formed with another segment. So much is known
in the midst of any change. -/
def Container.Sound (c : Container α) : Prop :=
  ∃ segment length removed,
    Container.WellFormed { c with segment := segment, length := length, removed := removed }

variable {c : Container α} {node : Node α} {n : Nat}

theorem Container.Removing.sound {index length : Nat} {segment : Nat → Option Nat}
    (h : c.Removing index segment length) : c.Sound := by
  obtain ⟨_, removed, _, _, _, hwell⟩ := h
  exact ⟨segment, length, removed, hwell⟩

theorem Container.WellFormed.sound (h : c.WellFormed) : c.Sound := ⟨_, _, _, h⟩

theorem RemovePc.Phase.sound {pc : RemovePc} (h : pc.Phase c) : c.Sound := by
  cases pc with
  | loadEntry | loadVersion | storeVersion => exact Container.WellFormed.sound h
  | alive | empty | delete => exact h.1.sound
  | loadLength | loadLast => exact Container.Removing.sound h
  | storeLength | loadMoved | move => exact h.1.sound
  | loadEnd =>
      obtain ⟨_, _, h, _⟩ := h
      exact h.sound
  | clear =>
      obtain ⟨⟨_, _, h, _⟩, _⟩ := h
      exact h.sound

theorem Local.Phase.sound {l : Local α} (h : l.Phase c) (hl : l.changing = true) : c.Sound := by
  cases l with
  | put e pc =>
      cases pc with
      | lock | push => cases hl
      | removing i pc => exact RemovePc.Phase.sound h
      | loadIndex | storeLength => exact h.1.sound
      | storeEntry => exact ⟨_, _, _, h.2.2⟩
      | loadLength | sweepLength | sweepEntry | sweepAlive | sweepEntryAgain | sweepEmpty
      | reloadLength | loadVersion | storeVersion | unlock => exact Container.WellFormed.sound h
  | get pc =>
      cases pc with
      | removing pc => exact RemovePc.Phase.sound h
      | _ => cases hl
  | deregister n pc =>
      cases pc with
      | removing pc => exact RemovePc.Phase.sound h
      | _ => cases hl
  | idle | done | fault => cases hl

theorem Local.phase_of_not_changing {l : Local α} (h : l.changing = false) : l.Phase c := by
  cases l with
  | put e pc =>
      cases pc with
      | lock | push => trivial
      | _ => cases h
  | get pc =>
      cases pc with
      | removing => cases h
      | _ => trivial
  | deregister n pc =>
      cases pc with
      | removing => cases h
      | _ => trivial
  | idle | done | fault => trivial

/-- How a backend may change: what need not be kept stays so, and nothing is
turned on. -/
structure Container.Fading (c : Container α) (n : Nat) (node : Node α) : Prop where
  known : n < c.nodeCount
  kept : (node.alive || !node.empty) = true → c.kept n = true
  alive : node.alive = true → (c.nodes n).alive = true

theorem Container.kept_setNode (h : c.Fading n node) {m : Nat} (hm : c.kept m = false) :
    (c.setNode n node).kept m = false := by
  by_cases hmn : m = n
  · subst hmn
    cases hset : (c.setNode m node).kept m with
    | false => rfl
    | true =>
        have hkept : ((update c.nodes m node m).alive || !(update c.nodes m node m).empty) = true :=
          hset
        rw [update_self] at hkept
        rw [h.kept hkept] at hm
        cases hm
  · change ((update c.nodes n node m).alive || !(update c.nodes n node m).empty) = false
    rw [update_of_ne hmn]
    exact hm

theorem Container.Removing.setNode {index length : Nat} {segment : Nat → Option Nat}
    (h : c.Removing index segment length) (hnode : c.Fading n node) :
    (c.setNode n node).Removing index segment length := by
  obtain ⟨m, removed, hremoved, hindex, hkept, hwell⟩ := h
  exact ⟨m, removed, hremoved, hindex, Container.kept_setNode hnode hkept,
    hwell.setNode hnode.known hnode.kept⟩

/-- A removal goes on undisturbed while others work on the backends, also
while they drain or turn off nodes it has yet to look at. -/
theorem RemovePc.Phase.setNode {pc : RemovePc} (h : pc.Phase c) (hnode : c.Fading n node) :
    pc.Phase (c.setNode n node) := by
  cases pc with
  | loadEntry | loadVersion | storeVersion =>
      exact Container.WellFormed.setNode h hnode.known hnode.kept
  | alive => exact ⟨h.1.setNode hnode.known hnode.kept, h.2⟩
  | empty index m =>
      refine ⟨h.1.setNode hnode.known hnode.kept, h.2.1, ?_⟩
      change (update c.nodes n node m).alive = false
      by_cases hmn : m = n
      · subst hmn
        rw [update_self]
        by_contra halive
        have hoff := h.2.2
        rw [hnode.alive (by simpa using halive)] at hoff
        cases hoff
      · rw [update_of_ne hmn]
        exact h.2.2
  | delete =>
      exact ⟨h.1.setNode hnode.known hnode.kept, h.2.1, Container.kept_setNode hnode h.2.2⟩
  | loadLength | loadLast => exact Container.Removing.setNode h hnode
  | storeLength | loadMoved | move => exact ⟨h.1.setNode hnode, h.2⟩
  | loadEnd =>
      obtain ⟨index, segment, hremoving, heq⟩ := h
      exact ⟨index, segment, hremoving.setNode hnode, heq⟩
  | clear =>
      obtain ⟨⟨index, segment, hremoving, heq⟩, hlast⟩ := h
      exact ⟨⟨index, segment, hremoving.setNode hnode, heq⟩, hlast⟩

theorem Local.Phase.setNode {l : Local α} (h : l.Phase c) (hnode : c.Fading n node) :
    l.Phase (c.setNode n node) := by
  cases l with
  | put e pc =>
      cases pc with
      | lock | push => trivial
      | removing i pc => exact RemovePc.Phase.setNode h hnode
      | loadIndex => exact ⟨h.1.setNode hnode.known hnode.kept, h.2⟩
      | storeLength => exact ⟨h.1.setNode hnode.known hnode.kept, h.2⟩
      | storeEntry => exact ⟨h.1, h.2.1, h.2.2.setNode hnode.known hnode.kept⟩
      | loadLength | sweepLength | sweepEntry | sweepAlive | sweepEntryAgain | sweepEmpty
      | reloadLength | loadVersion | storeVersion | unlock =>
          exact Container.WellFormed.setNode h hnode.known hnode.kept
  | get pc =>
      cases pc with
      | removing pc => exact RemovePc.Phase.setNode h hnode
      | _ => trivial
  | deregister m pc =>
      cases pc with
      | removing pc => exact RemovePc.Phase.setNode h hnode
      | _ => trivial
  | idle | done | fault => trivial

theorem removeStep_frame (c : Container α) (pc : RemovePc) :
    (removeStep c pc).1.nodes = c.nodes ∧ (removeStep c pc).1.nodeCount = c.nodeCount := by
  cases pc with
  | loadEntry index =>
      simp only [removeStep]
      split <;> exact ⟨rfl, rfl⟩
  | _ => exact ⟨rfl, rfl⟩

/-- The access mends the container when `remove_backend` returns with it, and
goes on to the next phase otherwise. -/
theorem RemovePc.Phase.step {pc : RemovePc} (h : pc.Phase c) :
    (∀ pc', (removeStep c pc).2 = some pc' → pc'.Phase (removeStep c pc).1) ∧
      ((removeStep c pc).2 = none → (removeStep c pc).1.WellFormed) := by
  cases pc with
  | loadEntry index =>
      simp only [removeStep]
      split
      · exact ⟨by rintro _ ⟨⟩, fun _ => h⟩
      · next node hentry =>
          refine ⟨?_, by rintro ⟨⟩⟩
          rintro _ ⟨⟩
          exact ⟨h, hentry⟩
  | alive index node =>
      refine ⟨fun pc' hpc' => ?_, fun _ => h.1⟩
      simp only [removeStep] at hpc'
      split at hpc' <;> cases hpc'
      next halive => exact ⟨h.1, h.2, Bool.eq_false_iff.mpr halive⟩
  | empty index node =>
      refine ⟨fun pc' hpc' => ?_, fun _ => h.1⟩
      simp only [removeStep] at hpc'
      split at hpc' <;> cases hpc'
      next hempty =>
        exact ⟨h.1, h.2.1, Container.kept_eq_false.mpr ⟨h.2.2, List.isEmpty_iff.mp hempty⟩⟩
  | delete index node =>
      refine ⟨?_, by rintro ⟨⟩⟩
      rintro _ ⟨⟩
      exact ⟨node, c.removed, rfl, h.2.1, h.2.2, h.1⟩
  | loadLength index =>
      refine ⟨?_, by rintro ⟨⟩⟩
      rintro _ ⟨⟩
      exact ⟨h, rfl⟩
  | storeLength index length =>
      refine ⟨?_, by rintro ⟨⟩⟩
      rintro _ ⟨⟩
      obtain ⟨⟨node, removed, hremoved, hindex, hkept, hwell⟩, rfl⟩ := h
      have hpos : index < c.length := (hwell.entry_lt index node hindex).1
      refine ⟨node, removed, hremoved, hindex, hkept, ?_⟩
      have hlength : (removeStep c (.storeLength index c.length)).1.length + 1 = c.length := by
        change decrement c.length + 1 = c.length
        rw [decrement_eq (by omega)]
        omega
      rw [hlength]
      exact hwell
  | loadLast index =>
      refine ⟨?_, by rintro ⟨⟩⟩
      rintro _ ⟨⟩
      exact ⟨h, rfl⟩
  | loadMoved index last =>
      refine ⟨?_, by rintro ⟨⟩⟩
      rintro _ ⟨⟩
      exact ⟨h.1, by rw [h.2]; rfl⟩
  | move index moved =>
      refine ⟨?_, by rintro ⟨⟩⟩
      rintro _ ⟨⟩
      obtain ⟨hremoving, rfl⟩ := h
      exact ⟨index, c.segment, hremoving, rfl⟩
  | loadEnd =>
      refine ⟨?_, by rintro ⟨⟩⟩
      rintro _ ⟨⟩
      exact ⟨h, rfl⟩
  | clear last =>
      refine ⟨?_, by rintro ⟨⟩⟩
      rintro _ ⟨⟩
      obtain ⟨⟨index, segment, ⟨node, removed, hremoved, hindex, hkept, hwell⟩, heq⟩, rfl⟩ := h
      have herase := hwell.erase hindex hkept c.version
      simp only [Nat.add_sub_cancel, ← hremoved, ← heq] at herase
      exact herase
  | loadVersion =>
      refine ⟨?_, by rintro ⟨⟩⟩
      rintro _ ⟨⟩
      exact h
  | storeVersion version =>
      exact ⟨by rintro _ ⟨⟩, fun _ => Container.WellFormed.setVersion h _⟩

end Phase

end Libni.Distributed
