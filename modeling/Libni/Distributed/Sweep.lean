import Mathlib.Data.Nat.Count
import Libni.Distributed.Fifos

/-!
What the sweep of `put` leaves behind. `remove_backend` moves the last entry to the
index of the removed one, which the loop has done with, so the entries moved are not
looked at: the sweep is complete if none of them is to be reclaimed.
-/

namespace Libni.Distributed

open Function Libni.Transition Libni.Transition.System

namespace Container

variable {α : Type*} {c c' : Container α} {n i fuel : Nat}

/-- The entry at index `i` is a node that is dead and empty. -/
def reclaimable (c : Container α) (i : Nat) : Bool :=
  match c.segment i with
  | some n => !c.kept n
  | none => false

/-- The number of such entries from index `i` on. -/
def reclaimableFrom (c : Container α) (i : Nat) : Nat :=
  Nat.count (fun j => c.reclaimable (i + j) = true) (c.length - i)

theorem reclaimable_iff :
    c.reclaimable i = true ↔ ∃ n, c.segment i = some n ∧ c.kept n = false := by
  unfold reclaimable
  cases c.segment i <;> simp

theorem reclaimable_of (hi : c.segment i = some n) (hkept : c.kept n = false) :
    c.reclaimable i = true := reclaimable_iff.mpr ⟨n, hi, hkept⟩

theorem WellFormed.lt_of_reclaimable (h : c.WellFormed) (hi : c.reclaimable i = true) :
    i < c.length := by
  obtain ⟨n, hn, -⟩ := reclaimable_iff.mp hi
  exact (h.entry_lt i n hn).1

/-- The count from `i` on goes over to the one from `i + 1` on, as the loop
does. -/
theorem reclaimableFrom_eq (hi : i < c.length) : c.reclaimableFrom i =
    c.reclaimableFrom (i + 1) + if c.reclaimable i = true then 1 else 0 := by
  unfold reclaimableFrom
  rw [show c.length - i = 1 + (c.length - (i + 1)) by omega, Nat.count_add, Nat.count_one,
    Nat.add_comm]
  simp only [← Nat.add_assoc, Nat.add_zero]

section Remove

variable (h : c.WellFormed) (hi : c.segment i = some n) (hkept : c.kept n = false)

include h hi hkept

/-- The entries after a removal at index `i`: only those at `i` and at the end
are others than before. -/
theorem WellFormed.segment_removed (j : Nat) : (c.removeBackend i).segment j =
    if j = c.length - 1 then none
    else if j = i then c.segment (c.length - 1) else c.segment j := by
  rw [h.removeBackend_eq hi hkept]
  exact segment_erased _ _ _ _

/-- The sweep finds the entries it has yet to look at as they were, except for
the last one. -/
theorem WellFormed.reclaimable_removed {j : Nat} (hj : i < j) (hlast : j < c.length - 1) :
    (c.removeBackend i).reclaimable j = c.reclaimable j := by
  unfold reclaimable kept
  rw [h.segment_removed hi hkept, if_neg (by omega), if_neg (by omega),
    (removeBackend_frame i).1]

/-- The entry removed and the one moved are not counted again, and the one
moved is not looked at either. -/
theorem WellFormed.reclaimableFrom_removed : c.reclaimableFrom i =
    (c.removeBackend i).reclaimableFrom (i + 1) + 1 +
      if i + 1 < c.length ∧ c.reclaimable (c.length - 1) = true then 1 else 0 := by
  have hlt := (h.entry_lt i n hi).1
  have hlength := (h.removed_entry hi hkept).2.1
  rw [reclaimableFrom_eq hlt, if_pos (reclaimable_of hi hkept), Nat.add_right_comm]
  congr 1
  unfold reclaimableFrom
  rw [hlength]
  cases hk : c.length - (i + 1) with
  | zero =>
      rw [show c.length - 1 - (i + 1) = 0 by omega, if_neg (by omega)]
      rfl
  | succ k =>
      have hcount : Nat.count (fun j => c.reclaimable (i + 1 + j) = true) k =
          Nat.count (fun j => (c.removeBackend i).reclaimable (i + 1 + j) = true) k := by
        rw [Nat.count_eq_card_filter_range, Nat.count_eq_card_filter_range]
        refine congrArg Finset.card (Finset.filter_congr fun j hj => ?_)
        have hj : j < k := Finset.mem_range.mp hj
        rw [h.reclaimable_removed hi hkept (by omega) (by omega)]
      rw [Nat.count_succ, hcount, show i + 1 + k = c.length - 1 by omega,
        show c.length - 1 - (i + 1) = k by omega]
      simp only [show i + 1 < c.length by omega, true_and]

end Remove

/-- What the sweep from index `i` on does. It removes every entry it should if
and only if those are not among the last ones, as many as it removes after the
first. -/
structure Swept (c : Container α) (i : Nat) (c' : Container α) : Prop where
  below : ∀ j < i, c'.segment j = c.segment j
  entries : ∀ j n, c'.segment j = some n → ∃ j', c.segment j' = some n
  complete_iff :
    (∀ j n, i ≤ j → c.segment j = some n → c.kept n = false → ∀ j', c'.segment j' ≠ some n) ↔
      ∀ j, i ≤ j → c.reclaimable j = true → j + c.reclaimableFrom i ≤ c.length

/-- At the end of the segment there is nothing left to remove. -/
theorem Swept.past (h : c.WellFormed) (hle : c.length ≤ i) : c.Swept i c where
  below _ _ := rfl
  entries j _ hj := ⟨j, hj⟩
  complete_iff := by
    constructor
    · intro _ j hij hj
      exact absurd (h.lt_of_reclaimable hj) (by omega)
    · intro _ j n hij hj
      exact absurd (h.entry_lt j n hj).1 (by omega)

theorem Swept.of_kept (hi : c.segment i = some n) (hlt : i < c.length) (hkept : c.kept n = true)
    (h' : c.Swept (i + 1) c') : c.Swept i c' where
  below j hj := h'.below j (by omega)
  entries := h'.entries
  complete_iff := by
    have hnot : c.reclaimable i ≠ true := by
      intro hi'
      obtain ⟨m, hm, hdead⟩ := reclaimable_iff.mp hi'
      rw [hi] at hm
      cases hm
      rw [hkept] at hdead
      cases hdead
    have hfrom : c.reclaimableFrom i = c.reclaimableFrom (i + 1) := by
      rw [reclaimableFrom_eq hlt, if_neg hnot, Nat.add_zero]
    rw [hfrom]
    constructor
    · intro hgone j hij hj
      have hne : j ≠ i := by
        rintro rfl
        exact hnot hj
      exact h'.complete_iff.mp (fun j m hij => hgone j m (by omega)) j (by omega) hj
    · intro hcond j m hij hj hdead
      have hne : j ≠ i := by
        rintro rfl
        exact hnot (reclaimable_of hj hdead)
      exact h'.complete_iff.mpr (fun j hij => hcond j (by omega)) j m (by omega) hj hdead

/-- After a removal the sweep goes on behind the entry that was moved. If that
one was to be reclaimed it is left behind, and otherwise nothing is missed. -/
theorem Swept.of_removed (h : c.WellFormed) (hi : c.segment i = some n)
    (hkept : c.kept n = false) (h' : (c.removeBackend i).Swept (i + 1) c') : c.Swept i c' := by
  have hlt := (h.entry_lt i n hi).1
  have hsegment := h.segment_removed hi hkept
  obtain ⟨hwell, hlength, hremoved⟩ := h.removed_entry hi hkept
  have hfrom := h.reclaimableFrom_removed hi hkept
  have hbound : (c.removeBackend i).reclaimableFrom (i + 1) ≤ c.length - 1 - (i + 1) := by
    rw [← hlength]
    exact Nat.count_le _
  have hsame (m : Nat) : (c.removeBackend i).kept m = c.kept m := by
    unfold kept
    rw [(removeBackend_frame i).1]
  refine ⟨fun j hj => ?_, fun j m hj => ?_, fun hgone j hij hj => ?_, fun hcond j m hij hj hdead => ?_⟩
  · rw [h'.below j (by omega), hsegment, if_neg (by omega), if_neg (by omega)]
  · obtain ⟨j', hj'⟩ := h'.entries j m hj
    rw [hsegment] at hj'
    split at hj'
    · cases hj'
    · split at hj'
      · exact ⟨_, hj'⟩
      · exact ⟨_, hj'⟩
  · -- the entry moved to index `i` stays there
    have hlast : ¬ (i + 1 < c.length ∧ c.reclaimable (c.length - 1) = true) := by
      rintro ⟨hroom, hrec⟩
      obtain ⟨m, hm, hdead⟩ := reclaimable_iff.mp hrec
      apply hgone _ m (by omega) hm hdead i
      rw [h'.below i (Nat.lt_succ_self i), hsegment, if_neg (by omega), if_pos rfl, hm]
    rw [if_neg hlast] at hfrom
    have hrest := h'.complete_iff.mp fun j m hij hj hdead => by
      rw [hsegment] at hj
      split at hj
      · cases hj
      · rw [if_neg (by omega)] at hj
        exact hgone j m (by omega) hj (hsame m ▸ hdead)
    by_cases hij' : j = i
    · omega
    · have hj' := h.lt_of_reclaimable hj
      have hbefore : j < c.length - 1 := by
        by_contra hge
        obtain rfl : j = c.length - 1 := by omega
        exact hlast ⟨by omega, hj⟩
      have hle := hrest j (by omega) (by rwa [h.reclaimable_removed hi hkept (by omega) hbefore])
      omega
  · by_cases hij' : j = i
    · subst hij'
      rw [hi] at hj
      cases hj
      intro j' hj'
      obtain ⟨j₁, hj₁⟩ := h'.entries j' n hj'
      have hmem : n ∈ (c.removeBackend j).removed := by
        rw [hremoved]
        exact List.mem_cons_self
      exact (hwell.removed n hmem).2 j₁ hj₁
    · have hrec := reclaimable_of hj hdead
      have hj' := (h.entry_lt j m hj).1
      have hle := hcond j hij hrec
      have hbefore : j < c.length - 1 := by
        by_contra hge
        obtain rfl : j = c.length - 1 := by omega
        rw [if_pos ⟨by omega, hrec⟩] at hfrom
        omega
      refine h'.complete_iff.mpr (fun j₁ hj₁ hrec₁ => ?_) j m (by omega) ?_ ((hsame m).trans hdead)
      · have hlt₁ := hwell.lt_of_reclaimable hrec₁
        rw [h.reclaimable_removed hi hkept (by omega) (by omega)] at hrec₁
        have hle₁ := hcond j₁ (by omega) hrec₁
        omega
      · rw [hsegment, if_neg (by omega), if_neg hij', hj]

/-- The sweep does what `Swept` says, by induction along the loop. A removal
makes the segment shorter but the index goes on all the same. -/
theorem WellFormed.swept (h : c.WellFormed) (hfuel : c.length ≤ i + fuel)
    (hsweep : c.sweep fuel i = some c') : c.Swept i c' := by
  induction fuel generalizing c i with
  | zero =>
      cases hsweep
      exact .past h hfuel
  | succ fuel ih =>
      unfold sweep at hsweep
      by_cases hi : i < c.length
      · obtain ⟨n, hn⟩ := h.filled i hi
        rw [if_pos hi, hn] at hsweep
        cases hkept : c.kept n with
        | true =>
            simp only [hkept, if_true] at hsweep
            exact .of_kept hn hi hkept (ih h (by omega) hsweep)
        | false =>
            simp only [hkept] at hsweep
            obtain ⟨hwell, hlength, -⟩ := h.removed_entry hn hkept
            exact .of_removed h hn hkept (ih hwell (by omega) hsweep)
      · rw [if_neg hi] at hsweep
        cases hsweep
        exact .past h (by omega)

section Register

variable (h : c.WellFormed)

include h

theorem WellFormed.segment_length : c.segment c.length = none := by
  cases hentry : c.segment c.length with
  | none => rfl
  | some m => exact absurd (h.entry_lt _ m hentry).1 (lt_irrefl _)

theorem WellFormed.register_push (hlt : c.length < c.capacity) (element : α) :
    (c.register.setNode c.nodeCount
      ((c.register.nodes c.nodeCount).push element)).WellFormed := by
  apply (h.register hlt).setNode (Nat.lt_succ_self _)
  intro _
  apply kept_of_alive
  change (update c.nodes c.nodeCount .new c.nodeCount).alive = true
  rw [update_self]
  rfl

theorem WellFormed.register_segment_iff (hn : n < c.nodeCount) {j : Nat} :
    c.register.segment j = some n ↔ c.segment j = some n := by
  change update c.segment c.length (some c.nodeCount) j = some n ↔ _
  by_cases hj : j = c.length
  · subst hj
    rw [update_self, h.segment_length]
    simp [hn.ne']
  · rw [update_of_ne hj]

omit h in
theorem register_push_nodes (hn : n < c.nodeCount) (element : α) :
    (c.register.setNode c.nodeCount ((c.register.nodes c.nodeCount).push element)).nodes n =
      c.nodes n := by
  change update (update c.nodes c.nodeCount .new) c.nodeCount _ n = _
  rw [update_of_ne hn.ne, update_of_ne hn.ne]

end Register

/-- The entries of nodes that are kept stay, exactly one for each. -/
theorem WellFormed.entry_stays (h : c.WellFormed) (h' : c'.WellFormed)
    (hcount : c.nodeCount ≤ c'.nodeCount) (hnodes : ∀ n < c.nodeCount, c'.nodes n = c.nodes n)
    (hi : c.segment i = some n) (hkept : c.kept n = true) : ∃! j, c'.segment j = some n := by
  have hn := (h.entry_lt i n hi).2
  have hkept' : c'.kept n = true := by
    unfold kept at hkept ⊢
    rw [hnodes n hn]
    exact hkept
  obtain ⟨j, hj⟩ := h'.held n (by omega) hkept'
  exact ⟨j, hj, fun j' hj' => h'.distinct _ _ _ hj' hj⟩

end Container

section Put

variable {κ α : Type*} [DecidableEq κ] {s s' : Pool κ α} {k : κ}

omit [DecidableEq κ] in
/-- What is asked of a `put` into a full segment. A node is reclaimed when it
is deleted. -/
structure Pool.Reclaims (s : Pool κ α) (k : κ) (s' : Pool κ α) : Prop where
  reclaimed : ∀ i n, s.container.segment i = some n → s.container.kept n = false →
    ∀ j, s'.container.segment j ≠ some n
  others : ∀ i n, s.container.segment i = some n → s.container.kept n = true →
    ∃! j, s'.container.segment j = some n
  present : (∃ n ∈ s'.container.removed, n ∉ s.container.removed) →
    ∃ n, s'.ptr k = some n ∧ s.container.nodeCount ≤ n ∧ ∃ j, s'.container.segment j = some n

/-- A `put` through a null pointer into a full segment always returns, and
reclaims every dead and empty backend exactly if none of them is among the
last entries, as many as there are such backends besides the first. One of
them is enough to make room. -/
theorem Pool.put_reclaims_iff (h : s.container.WellFormed)
    (hfull : s.container.length = s.container.capacity) (hptr : s.ptr k = none) (element : α) :
    ∃ registration s', s.put k element = some (registration, s') ∧
      (s.Reclaims k s' ↔ ∀ i, s.container.reclaimable i = true →
        i + s.container.reclaimableFrom 0 ≤ s.container.length) := by
  obtain ⟨c, hc, hshrunk, hsame, hless⟩ :=
    Container.sweep_spec h (Nat.zero_add s.container.length).ge
  have hswept := h.swept (Nat.zero_add s.container.length).ge hc
  have hcapacity := hshrunk.capacity
  have hput : s.put k element = if c.length ≥ c.capacity then some (none, { s with container := c })
      else some (some c.nodeCount, ⟨c.register.setNode c.nodeCount
        ((c.register.nodes c.nodeCount).push element), update s.ptr k (some c.nodeCount)⟩) := by
    unfold Pool.put
    simp only [hptr, if_pos hfull.ge, hc]
  have hcomplete := hswept.complete_iff
  simp only [Nat.zero_le, true_implies] at hcomplete
  rw [hput, ← hcomplete]
  by_cases hroom : c.length ≥ c.capacity
  · rw [if_pos hroom]
    refine ⟨none, _, rfl, fun hreclaims => hreclaims.reclaimed, fun hgone => ⟨hgone, ?_, ?_⟩⟩
    · intro i n hi hkept
      exact h.entry_stays hshrunk.wellFormed hshrunk.nodeCount.ge
        (fun n _ => congrFun hshrunk.nodes n) hi hkept
    · -- nothing is removed where the segment stays full
      have hall : ∀ j n, 0 ≤ j → s.container.segment j = some n → s.container.kept n = true := by
        intro j n _ hj
        by_contra hne
        have hlt := hless ⟨j, n, Nat.zero_le j, hj, Bool.eq_false_of_not_eq_true hne⟩
        omega
      rintro ⟨n, hn, hn'⟩
      rw [hsame hall] at hn
      exact absurd hn hn'
  · rw [if_neg hroom]
    have hcount := hshrunk.nodeCount
    have hentry {i n : Nat} (hi : s.container.segment i = some n) (j : Nat) :
        c.register.segment j = some n ↔ c.segment j = some n :=
      hshrunk.wellFormed.register_segment_iff (hcount ▸ (h.entry_lt i n hi).2)
    refine ⟨some c.nodeCount, _, rfl, fun hreclaims i n hi hkept j hj => ?_,
      fun hgone => ⟨fun i n hi hkept j hj => ?_, fun i n hi hkept => ?_, fun _ => ?_⟩⟩
    · exact hreclaims.reclaimed i n hi hkept j ((hentry hi j).mpr hj)
    · exact hgone i n hi hkept j ((hentry hi j).mp hj)
    · have hwell := hshrunk.wellFormed.register_push (Nat.lt_of_not_le hroom) element
      refine h.entry_stays hwell (hcount.ge.trans (Nat.le_succ _)) (fun m hm => ?_) hi hkept
      rw [Container.register_push_nodes (hcount ▸ hm), hshrunk.nodes]
    · exact ⟨c.nodeCount, update_self _ _ _, hcount.ge, c.length, update_self _ _ _⟩

/-- One of two producers is gone and its element taken. -/
def onceAbandoned : List (PoolLabel Nat Nat) :=
  [.put 0 5 (some 0), .put 1 6 (some 1), .deregister 0, .get 2 (fun _ => 0) (some (5, 0))]

def onceAbandonedPool : Pool Nat Nat :=
  ((pool Nat Nat 2 Container.two_lt).exec Free ⟨.new 2 Container.two_lt, fun _ => none⟩
    onceAbandoned).get (by decide +kernel)

theorem put_reclaims_onceAbandoned : ∃ registration s',
    onceAbandonedPool.put 2 7 = some (registration, s') ∧ onceAbandonedPool.Reclaims 2 s' := by
  have hrun : (pool Nat Nat 2 Container.two_lt).Run Free onceAbandoned onceAbandonedPool :=
    run_of_exec rfl _
  have hwell := (Pool.tied_of_run hrun).wellFormed
  obtain ⟨registration, s', hput, hiff⟩ :=
    Pool.put_reclaims_iff hwell (k := 2) (by decide +kernel) (by decide +kernel) 7
  refine ⟨registration, s', hput, hiff.mpr fun i hi => ?_⟩
  have hlt : i < 2 := hwell.lt_of_reclaimable hi
  have hall : ∀ i < 2, onceAbandonedPool.container.reclaimable i = true →
      i + onceAbandonedPool.container.reclaimableFrom 0 ≤ 2 := by decide +kernel
  exact hall i hlt hi

/-- Both producers are gone. -/
def abandoned : List (PoolLabel Nat Nat) :=
  [.put 0 5 (some 0), .put 1 6 (some 1), .deregister 0, .deregister 1,
    .get 2 (fun _ => 0) (some (5, 0)), .get 2 (fun _ => 1) (some (6, 1))]

def abandonedPool : Pool Nat Nat :=
  ((pool Nat Nat 2 Container.two_lt).exec Free ⟨.new 2 Container.two_lt, fun _ => none⟩
    abandoned).get (by decide +kernel)

def sweptPool : Option Nat × Pool Nat Nat := (abandonedPool.put 2 7).get (by decide +kernel)

/-- The second of two dead and empty backends is moved to the first index and
stays. -/
theorem put_leaves_backend : ¬ ∀ (capacity : Nat) (hcapacity : capacity < 2 ^ 64)
    (ls : List (PoolLabel Nat Nat)) (s s' : Pool Nat Nat) (k element : Nat)
    (registration : Option Nat), (pool Nat Nat capacity hcapacity).Run Free ls s →
      s.container.length = s.container.capacity → s.ptr k = none →
        s.put k element = some (registration, s') → s.Reclaims k s' := by
  intro hall
  have hrun : (pool Nat Nat 2 Container.two_lt).Run Free abandoned abandonedPool :=
    run_of_exec rfl _
  have hput : abandonedPool.put 2 7 = some sweptPool := (Option.some_get _).symm
  have hreclaims := hall 2 _ _ _ _ 2 7 _ hrun (by decide +kernel) (by decide +kernel) hput
  exact hreclaims.reclaimed 1 1 (by decide +kernel) (by decide +kernel) 0 (by decide +kernel)

end Put

end Libni.Distributed
