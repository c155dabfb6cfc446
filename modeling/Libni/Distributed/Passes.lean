import Libni.Distributed.WellFormed

/-!
The loops of the operations over a segment that nothing else changes: the sweep of
`put`, the two passes of `get` with their retries, and the search of
`deregister_thread`. Every retry of `get` has removed a node, so as many attempts
as there are entries, and one more, are enough.
-/

namespace Libni.Distributed

open Function

namespace Container

variable {α : Type*} {c : Container α} {n : Nat}

/-- `remove_backend` touches the segment only, whatever it finds there. -/
theorem removeBackend_frame (i : Nat) : (c.removeBackend i).nodes = c.nodes ∧
    (c.removeBackend i).nodeCount = c.nodeCount ∧ (c.removeBackend i).capacity = c.capacity := by
  unfold removeBackend
  split
  · exact ⟨rfl, rfl, rfl⟩
  · split
    · exact ⟨rfl, rfl, rfl⟩
    · exact ⟨rfl, rfl, rfl⟩

/-- What an operation may do to the segment: remove nodes that are not kept.
The nodes themselves, their number and the capacity stay. -/
structure Shrunk (c c' : Container α) : Prop where
  wellFormed : c'.WellFormed
  nodes : c'.nodes = c.nodes
  nodeCount : c'.nodeCount = c.nodeCount
  capacity : c'.capacity = c.capacity
  length_le : c'.length ≤ c.length

namespace Shrunk

theorem refl (h : c.WellFormed) : c.Shrunk c := ⟨h, rfl, rfl, rfl, le_rfl⟩

theorem trans {c' c'' : Container α} (h : c.Shrunk c') (h' : c'.Shrunk c'') : c.Shrunk c'' :=
  ⟨h'.wellFormed, h'.nodes.trans h.nodes, h'.nodeCount.trans h.nodeCount,
    h'.capacity.trans h.capacity, h'.length_le.trans h.length_le⟩

end Shrunk

/-- `remove_backend` of a node that is not kept makes the segment shorter,
which is why the retries of `get` come to an end. -/
theorem WellFormed.shrunk (h : c.WellFormed) {i : Nat} (hi : c.segment i = some n)
    (hkept : c.kept n = false) :
    c.Shrunk (c.removeBackend i) ∧ (c.removeBackend i).length < c.length := by
  obtain ⟨hwell, hlength, _⟩ := h.removed_entry hi hkept
  obtain ⟨hnodes, hcount, hcapacity⟩ := removeBackend_frame (c := c) i
  have hlt := (h.entry_lt i n hi).1
  exact ⟨⟨hwell, hnodes, hcount, hcapacity, by omega⟩, by omega⟩

/-- The sweep of `put` never meets a null entry. It leaves the container alone
if all nodes are kept, and makes room as soon as one of them is not. -/
theorem sweep_spec (h : c.WellFormed) {fuel i : Nat} (hfuel : c.length ≤ i + fuel) :
    ∃ c', c.sweep fuel i = some c' ∧ c.Shrunk c' ∧
      ((∀ j n, i ≤ j → c.segment j = some n → c.kept n = true) → c' = c) ∧
      ((∃ j n, i ≤ j ∧ c.segment j = some n ∧ c.kept n = false) → c'.length < c.length) := by
  induction fuel generalizing c i with
  | zero =>
      refine ⟨c, rfl, .refl h, fun _ => rfl, ?_⟩
      rintro ⟨j, n, hij, hj, _⟩
      have := (h.entry_lt j n hj).1
      omega
  | succ fuel ih =>
      unfold sweep
      by_cases hi : i < c.length
      · obtain ⟨n, hn⟩ := h.filled i hi
        rw [if_pos hi, hn]
        cases hkept : c.kept n with
        | true =>
            obtain ⟨c', hc', hshrunk, hsame, hless⟩ := ih h (i := i + 1) (by omega)
            refine ⟨c', by simpa [hkept] using hc', hshrunk, fun hall => ?_, ?_⟩
            · exact hsame fun j m hj => hall j m (by omega)
            · rintro ⟨j, m, hij, hj, hm⟩
              refine hless ⟨j, m, ?_, hj, hm⟩
              by_contra hle
              obtain rfl : i = j := by omega
              rw [hn] at hj
              cases hj
              rw [hkept] at hm
              cases hm
        | false =>
            obtain ⟨hremoved, hlt⟩ := h.shrunk hn hkept
            obtain ⟨c', hc', hshrunk, _, _⟩ := ih hremoved.wellFormed (i := i + 1) (by omega)
            refine ⟨c', by simpa [hkept] using hc', hremoved.trans hshrunk, fun hall => ?_,
              fun _ => hshrunk.length_le.trans_lt hlt⟩
            rw [hall i n le_rfl hn] at hkept
            cases hkept
      · rw [if_neg hi]
        refine ⟨c, rfl, .refl h, fun _ => rfl, ?_⟩
        rintro ⟨j, n, hij, hj, _⟩
        have := (h.entry_lt j n hj).1
        omega

/-- What the first pass can end with, told from the container it started with. -/
def Passed (c : Container α) (start : Nat) : Pass α → Prop
  | .found element n c' => n < c.nodeCount ∧ (c.nodes n).elements.head? = some element ∧
      c' = c.setNode n (c.nodes n).pop
  | .retry c' => c.Shrunk c' ∧ c'.length < c.length
  | .finished states => ∀ j < c.length, ∀ n, c.segment ((start + j) % c.length) = some n →
      (c.nodes n).elements = [] ∧ states j = some (c.nodes n).tailState

/-- The first pass ends for any fuel that covers the entries. The backends it
has passed by were empty, and the states of their tails are recorded. -/
theorem firstPass_spec (h : c.WellFormed) (start : Nat) {fuel i : Nat}
    (states : Nat → Option Nat)
    (hfuel : c.length ≤ i + fuel) (hdone : ∀ j < i, ∀ n,
      c.segment ((start + j) % c.length) = some n →
        (c.nodes n).elements = [] ∧ states j = some (c.nodes n).tailState) :
    ∃ pass, c.firstPass start fuel i states = some pass ∧ c.Passed start pass := by
  induction fuel generalizing i states with
  | zero =>
      exact ⟨.finished states, rfl, fun j hj => hdone j (by omega)⟩
  | succ fuel ih =>
      unfold firstPass
      by_cases hi : i < c.length
      · obtain ⟨n, hn⟩ := h.filled ((start + i) % c.length) (Nat.mod_lt _ (by omega))
        simp only [if_pos hi, hn]
        cases hhead : (c.nodes n).elements.head? with
        | some element => exact ⟨_, rfl, (h.entry_lt _ n hn).2, hhead, rfl⟩
        | none =>
            have hempty : (c.nodes n).elements = [] := List.head?_eq_none_iff.mp hhead
            cases halive : (c.nodes n).alive with
            | false =>
                exact ⟨_, rfl, h.shrunk hn (kept_eq_false.mpr ⟨halive, hempty⟩)⟩
            | true =>
                refine ih _ (by omega) fun j hj m hm => ?_
                by_cases hji : j = i
                · subst hji
                  rw [hn] at hm
                  cases hm
                  exact ⟨hempty, update_self _ _ _⟩
                · rw [update_of_ne hji]
                  exact hdone j (by omega) m hm
      · rw [if_neg hi]
        exact ⟨.finished states, rfl, fun j hj => hdone j (by omega)⟩

/-- Nothing changes between the two passes of one call, so the second one
agrees with the first. -/
theorem secondPass_spec (h : c.WellFormed) {start fuel i : Nat} {states : Nat → Option Nat}
    (hstates : ∀ j < c.length, ∀ n, c.segment ((start + j) % c.length) = some n →
      states j = some (c.nodes n).tailState) :
    c.secondPass start states fuel i = some true := by
  induction fuel generalizing i with
  | zero => rfl
  | succ fuel ih =>
      unfold secondPass
      by_cases hi : i < c.length
      · obtain ⟨n, hn⟩ := h.filled ((start + i) % c.length) (Nat.mod_lt _ (by omega))
        simp only [if_pos hi, hn, hstates i hi n hn]
        exact ih
      · rw [if_neg hi]

/-- From any start, the indices of a pass go through the whole segment. -/
theorem pass_covers (start : Nat) {length i : Nat} (hi : i < length) :
    ∃ j < length, (start + j) % length = i := by
  have hstart : start % length < length := Nat.mod_lt _ (by omega)
  have hsum : start % length + (i + (length - start % length)) = i + length := by omega
  refine ⟨(i + (length - start % length)) % length, Nat.mod_lt _ (by omega), ?_⟩
  rw [Nat.add_mod_mod, ← Nat.mod_add_mod, hsum, Nat.add_mod_right, Nat.mod_eq_of_lt hi]

/-- No element is left in the container, neither in the segment nor in a node
that has been removed. -/
def Drained (c : Container α) : Prop := ∀ n, (c.nodes n).elements = []

/-- A pass that finds every listed backend empty has found the container
empty, since backends that are not listed have no elements. -/
theorem WellFormed.drained (h : c.WellFormed) (start : Nat)
    (hempty : ∀ j < c.length, ∀ n, c.segment ((start + j) % c.length) = some n →
      (c.nodes n).elements = []) : c.Drained := by
  intro n
  by_cases hn : n < c.nodeCount
  · by_contra hne
    have hkept : c.kept n = true := by simp [kept, Node.empty, hne]
    obtain ⟨i, hi⟩ := h.held n hn hkept
    obtain ⟨j, hj, heq⟩ := pass_covers start (h.entry_lt i n hi).1
    exact hne (hempty j hj n (by rw [heq]; exact hi))
  · rw [h.blank n (by omega)]

/-- What the loop of `get` can return: nothing if the container is drained,
and otherwise the first element of some backend. -/
def Got (c : Container α) : Option (α × Nat) × Container α → Prop
  | (none, c') => c.Drained ∧ c.Shrunk c'
  | (some (element, n), c') => n < c.nodeCount ∧ (c.nodes n).elements.head? = some element ∧
      ∃ c₁, c.Shrunk c₁ ∧ c' = c₁.setNode n (c₁.nodes n).pop

/-- What is returned after a removal could have been returned before it, since
a node that is not kept has nothing to give. -/
theorem Got.of_shrunk {c₁ : Container α} {r : Option (α × Nat) × Container α}
    (hshrunk : c.Shrunk c₁) (h : c₁.Got r) : c.Got r := by
  obtain ⟨result, c'⟩ := r
  cases result with
  | none =>
      refine ⟨fun n => ?_, hshrunk.trans h.2⟩
      rw [← hshrunk.nodes]
      exact h.1 n
  | some p =>
      obtain ⟨hn, hhead, c₂, hshrunk', rfl⟩ := h
      refine ⟨?_, ?_, c₂, hshrunk.trans hshrunk', rfl⟩
      · rw [← hshrunk.nodeCount]
        exact hn
      · rw [← hshrunk.nodes]
        exact hhead

/-- With one attempt more than there are entries, the loop of `get` returns.
The induction is on the length of the segment: every retry has made it
shorter. -/
theorem retryLoop_spec (h : c.WellFormed) (rng : Nat → Nat) {fuel k : Nat}
    (hfuel : c.length < fuel) : ∃ r, retryLoop rng fuel k c = some r ∧ c.Got r := by
  induction fuel generalizing c k with
  | zero => omega
  | succ fuel ih =>
      unfold retryLoop
      by_cases hlength : c.length = 0
      · rw [if_pos hlength]
        exact ⟨_, rfl, h.drained 0 fun j hj => by omega, .refl h⟩
      · simp only [if_neg hlength]
        obtain ⟨pass, hpass, hpassed⟩ := firstPass_spec h (rng k % c.length)
          (fun _ => none) (Nat.zero_add c.length).ge (by rintro j ⟨⟩)
        rw [hpass]
        cases pass with
        | found element n c' =>
            obtain ⟨hn, hhead, rfl⟩ := hpassed
            exact ⟨_, rfl, hn, hhead, c, .refl h, rfl⟩
        | retry c' =>
            obtain ⟨hshrunk, hlt⟩ := hpassed
            obtain ⟨r, hr, hgot⟩ := ih hshrunk.wellFormed (k := k + 1) (by omega)
            exact ⟨r, hr, hgot.of_shrunk hshrunk⟩
        | finished states =>
            simp only [ne_eq, not_true_eq_false, if_false,
              secondPass_spec h fun j hj n hn => (hpassed j hj n hn).2]
            exact ⟨_, rfl, h.drained (rng k % c.length) fun j hj n hn => (hpassed j hj n hn).1, .refl h⟩

theorem retryLoop_mono {rng : Nat → Nat} {fuel k : Nat} {r : Option (α × Nat) × Container α}
    (h : retryLoop rng fuel k c = some r) : retryLoop rng (fuel + 1) k c = some r := by
  induction fuel generalizing c k with
  | zero => cases h
  | succ fuel ih =>
      rw [retryLoop] at h ⊢
      split
      · rwa [if_pos ‹_›] at h
      · rw [if_neg ‹_›] at h
        simp only at h ⊢
        split at h
        · cases h
        · exact h
        · exact ih h
        · split at h
          · rw [if_pos ‹_›]
            exact ih h
          · rw [if_neg ‹_›]
            split at h
            · cases h
            · exact ih h
            · exact h

/-- The search finds the entry of the node and removes it. Entries are
distinct, so none is left for it. -/
theorem search_spec (h : c.WellFormed) {fuel i : Nat} (hfuel : c.length ≤ i + fuel)
    (hmissed : ∀ j < i, c.segment j ≠ some n) (hkept : c.kept n = false) :
    c.Shrunk (c.search n fuel i) ∧ ∀ j, (c.search n fuel i).segment j ≠ some n := by
  have hnone (hall : c.length ≤ i) (j : Nat) : c.segment j ≠ some n := fun hj =>
    hmissed j ((h.entry_lt j n hj).1.trans_le hall) hj
  induction fuel generalizing i with
  | zero => exact ⟨.refl h, hnone hfuel⟩
  | succ fuel ih =>
      unfold search
      by_cases hi : i < c.length
      · rw [if_pos hi]
        by_cases hn : c.segment i = some n
        · rw [if_pos hn]
          obtain ⟨hwell, _, hremoved⟩ := h.removed_entry hn hkept
          refine ⟨(h.shrunk hn hkept).1, (hwell.removed n ?_).2⟩
          rw [hremoved]
          exact List.mem_cons_self
        · rw [if_neg hn]
          have hmissed' (j : Nat) (hj : j < i + 1) : c.segment j ≠ some n := by
            rcases Nat.lt_succ_iff_lt_or_eq.mp hj with hj | rfl
            · exact hmissed j hj
            · exact hn
          exact ih (by omega) hmissed' fun hall j hj =>
            hmissed' j ((h.entry_lt j n hj).1.trans_le hall) hj
      · rw [if_neg hi]
        exact ⟨.refl h, hnone (by omega)⟩

end Container

end Libni.Distributed
