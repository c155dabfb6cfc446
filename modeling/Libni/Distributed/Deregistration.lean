import Libni.Distributed.Frame

/-!
Deregistration next to removals. Once `turn_off` has run, any thread may remove the
node while `deregister_thread` still inspects it or looks for it. In the runs where
nobody does so, `deregister_thread` finds its own node where it was.
-/

namespace Libni.Distributed

open Function Libni.Transition Libni.Transition.System

section Guard

variable {τ α : Type*}

def Local.retiring : Local α → Bool
  | .deregister _ .turnOff => false
  | .deregister _ _ => true
  | _ => false

/-- The thread is inside a change of the segment, or deregisters past
`turn_off`. -/
def Local.inSection (l : Local α) : Bool := l.changing || l.retiring

/-- The next access of the thread begins a change or is `turn_off`. The latter
counts, since any thread may remove the node from then on. -/
def State.Starting (s : State τ α) (t : τ) : Prop :=
  match s.threads t with
  | .deregister _ .turnOff => True
  | _ => s.Entering t

/-- Changes of the segment and deregistrations exclude each other, from
`turn_off` to the return of `deregister_thread`. -/
def Apart (s : State τ α) : Label τ α → Prop
  | .step t _ => s.Starting t → ∀ u, u ≠ t → (s.threads u).inSection = false
  | _ => True

instance [DecidableEq τ] (s : State τ α) (t : τ) : Decidable (s.Starting t) :=
  decidable_of_bool
    (match s.threads t with
      | .deregister _ .turnOff => true
      | _ => decide (s.Entering t))
    (by unfold State.Starting; split <;> simp)

instance [DecidableEq τ] [Fintype τ] (s : State τ α) (l : Label τ α) :
    Decidable (Apart s l) :=
  match l with
  | .step t _ => inferInstanceAs (Decidable
      (s.Starting t → ∀ u, u ≠ t → (s.threads u).inSection = false))
  | .call _ _ | .ret _ => inferInstanceAs (Decidable True)

theorem starting_of_entering {s : State τ α} {t : τ} (h : s.Entering t) : s.Starting t := by
  unfold State.Starting
  split
  · trivial
  · exact h

theorem Apart.exclusive {s : State τ α} {l : Label τ α} (h : Apart s l) : Exclusive s l := by
  cases l with
  | step t random =>
      intro hentering u hu
      have hsection := h (starting_of_entering hentering) u hu
      rw [Local.inSection, Bool.or_eq_false_iff] at hsection
      exact hsection.1
  | call | ret => trivial

end Guard

section Step

variable {τ α : Type*} [DecidableEq τ] {s s' : State τ α}

theorem retiring_step {l : Label τ α} (hnext : s.next l = some s')
    (h' : (s'.threads l.actor).retiring = true) :
    ∃ n pc random, l = .step l.actor random ∧ s.threads l.actor = .deregister n pc := by
  cases l with
  | call t op =>
      obtain ⟨_, rfl⟩ := State.next_call hnext
      cases op with
      | put | get =>
          simp only [State.call, State.goto, Label.actor, update_self] at h'
          cases h'
      | deregister =>
          simp only [State.call, Label.actor] at h'
          split at h'
          all_goals
            simp only [State.goto, update_self] at h'
            cases h'
  | step t random =>
      obtain ⟨l', hthreads, hfollows⟩ := step_threads hnext
      rw [Label.actor, hthreads, update_self] at h'
      cases l' with
      | deregister m pc' =>
          cases hl : s.threads t with
          | deregister n pc => exact ⟨n, pc, random, rfl, hl⟩
          | _ =>
              rw [hl] at hfollows
              cases hfollows
      | _ => cases h'
  | ret t =>
      obtain ⟨_, _, rfl⟩ := State.next_ret hnext
      simp only [State.goto, Label.actor, update_self] at h'
      cases h'

end Step

section Retire

variable {α : Type*} {c : Container α} {n : Nat}

/-- Node `n` is the one about to be removed, or has been. -/
def RemovePc.Retire (c : Container α) (n : Nat) : RemovePc → Prop
  | .loadEntry index => c.kept n = false ∧ c.segment index = some n
  | .alive _ node | .empty _ node => c.kept n = false ∧ node = n
  | .delete _ node => node = n
  | _ => n ∈ c.removed

/-- Node `n` stays in the segment, dead, until it is found there. The search
has not gone past its entry. -/
def DeregisterPc.Retire (c : Container α) (n : Nat) : DeregisterPc → Prop
  | .turnOff => True
  | .empty => (c.nodes n).alive = false ∧ ∃ i, c.segment i = some n
  | .loadLength i | .loadEntry i => c.kept n = false ∧ ∃ j, i ≤ j ∧ c.segment j = some n
  | .lock i => c.kept n = false ∧ c.segment i = some n
  | .removing pc => pc.Retire c n
  | .unlock => n ∈ c.removed

/-- What a deregistering thread knows of its node. -/
def Local.Retire (c : Container α) : Local α → Prop
  | .deregister n pc => pc.Retire c n
  | _ => True

/-- The node whose tag or backend the next access consults. -/
def DeregisterPc.consults (n : Nat) : DeregisterPc → Option Nat
  | .turnOff | .empty => some n
  | .removing (.alive _ node) | .removing (.empty _ node) => some node
  | _ => none

theorem Local.retire_of_not_retiring {l : Local α} (h : l.retiring = false) : l.Retire c := by
  cases l with
  | deregister n pc =>
      cases pc with
      | turnOff => trivial
      | _ => cases h
  | idle | put | get | done | fault => trivial

/-- A node that is dead and empty stays so, and its entry is not touched,
whatever others do to the backends. -/
theorem Local.Retire.setNode {l : Local α} {m : Nat} {node : Node α} (h : l.Retire c)
    (hnode : c.Fading m node) : l.Retire (c.setNode m node) := by
  cases l with
  | deregister n pc =>
      cases pc with
      | turnOff => trivial
      | empty =>
          refine ⟨?_, h.2⟩
          change (update c.nodes m node n).alive = false
          by_cases hnm : n = m
          · subst hnm
            rw [update_self]
            by_contra halive
            have hoff := h.1
            rw [hnode.alive (by simpa using halive)] at hoff
            cases hoff
          · rw [update_of_ne hnm]
            exact h.1
      | loadLength | loadEntry | lock => exact ⟨Container.kept_setNode hnode h.1, h.2⟩
      | removing pc =>
          cases pc with
          | loadEntry | alive | empty => exact ⟨Container.kept_setNode hnode h.1, h.2⟩
          | _ => exact h
      | unlock => exact h
  | idle | put | get | done | fault => trivial

/-- `remove_backend` called by `deregister_thread` removes the node. It finds
the node where the search has seen it, dead and empty. -/
theorem RemovePc.Retire.step {pc : RemovePc} (h : pc.Retire c n) :
    (∀ pc', (removeStep c pc).2 = some pc' → pc'.Retire (removeStep c pc).1 n) ∧
      ((removeStep c pc).2 = none → n ∈ (removeStep c pc).1.removed) := by
  cases pc with
  | loadEntry index =>
      simp only [removeStep, h.2]
      refine ⟨?_, by rintro ⟨⟩⟩
      rintro _ ⟨⟩
      exact ⟨h.1, rfl⟩
  | alive index node =>
      obtain ⟨hkept, rfl⟩ := h
      have halive := (Container.kept_eq_false.mp hkept).1
      refine ⟨fun pc' hpc' => ?_, fun hnone => ?_⟩
      · simp only [removeStep, halive] at hpc'
        cases hpc'
        exact ⟨hkept, rfl⟩
      · simp only [removeStep, halive] at hnone
        cases hnone
  | empty index node =>
      obtain ⟨hkept, rfl⟩ := h
      have hempty : (c.nodes node).empty = true :=
        List.isEmpty_iff.mpr (Container.kept_eq_false.mp hkept).2
      refine ⟨fun pc' hpc' => ?_, fun hnone => ?_⟩
      · simp only [removeStep, hempty] at hpc'
        cases hpc'
        rfl
      · simp only [removeStep, hempty] at hnone
        cases hnone
  | delete index node =>
      obtain rfl : node = n := h
      refine ⟨?_, by rintro ⟨⟩⟩
      rintro _ ⟨⟩
      exact List.mem_cons_self
  | storeVersion version => exact ⟨by rintro _ ⟨⟩, fun _ => h⟩
  | loadLength | storeLength | loadLast | loadMoved | move | loadEnd | clear | loadVersion =>
      refine ⟨?_, by rintro ⟨⟩⟩
      rintro _ ⟨⟩
      exact h

/-- Removed nodes have been removed once, and are dead and empty. -/
theorem Container.WellFormed.gone (h : c.WellFormed) :
    c.removed.Nodup ∧ ∀ m ∈ c.removed, c.kept m = false := by
  refine ⟨h.removed_once, fun m hm => ?_⟩
  obtain ⟨hlt, hnone⟩ := h.removed m hm
  cases hkept : c.kept m with
  | false => rfl
  | true =>
      obtain ⟨i, hi⟩ := h.held m hlt hkept
      exact absurd hi (hnone i)

theorem Container.Removing.gone {index length : Nat} {segment : Nat → Option Nat}
    (h : c.Removing index segment length) :
    c.removed.Nodup ∧ ∀ m ∈ c.removed, c.kept m = false := by
  obtain ⟨node, removed, hremoved, hindex, hkept, hwell⟩ := h
  obtain ⟨hnodup, hgone⟩ := hwell.gone
  rw [hremoved]
  refine ⟨List.nodup_cons.mpr ⟨fun hmem => (hwell.removed node hmem).2 index hindex, hnodup⟩,
    fun m hm => ?_⟩
  rcases List.mem_cons.mp hm with rfl | hm
  · exact hkept
  · exact hgone m hm

theorem RemovePc.Phase.gone {pc : RemovePc} (h : pc.Phase c) :
    c.removed.Nodup ∧ ∀ m ∈ c.removed, c.kept m = false := by
  cases pc with
  | loadEntry | loadVersion | storeVersion => exact Container.WellFormed.gone h
  | alive | empty | delete => exact h.1.gone
  | loadLength | loadLast => exact Container.Removing.gone h
  | storeLength | loadMoved | move => exact h.1.gone
  | loadEnd =>
      obtain ⟨_, _, h, _⟩ := h
      exact h.gone
  | clear =>
      obtain ⟨⟨_, _, h, _⟩, _⟩ := h
      exact h.gone

/-- The same inside a change, where the node being removed is already among
them. -/
theorem Local.Phase.gone {l : Local α} (h : l.Phase c) (hl : l.changing = true) :
    c.removed.Nodup ∧ ∀ m ∈ c.removed, c.kept m = false := by
  cases l with
  | put e pc =>
      cases pc with
      | lock | push => cases hl
      | removing i pc => exact RemovePc.Phase.gone h
      | loadIndex | storeLength => exact h.1.gone
      | storeEntry => exact h.2.2.gone
      | loadLength | sweepLength | sweepEntry | sweepAlive | sweepEntryAgain | sweepEmpty
      | reloadLength | loadVersion | storeVersion | unlock => exact Container.WellFormed.gone h
  | get pc =>
      cases pc with
      | removing pc => exact RemovePc.Phase.gone h
      | _ => cases hl
  | deregister m pc =>
      cases pc with
      | removing pc => exact RemovePc.Phase.gone h
      | _ => cases hl
  | idle | done | fault => cases hl

end Retire

section Runs

variable {τ α : Type*} {s s' : State τ α} {t : τ}

/-- In no state of a run has a node been removed twice, nor one that is in
use. -/
theorem State.Guarded.gone (h : s.Guarded) :
    s.container.removed.Nodup ∧ ∀ m ∈ s.container.removed, s.container.kept m = false := by
  by_cases hquiet : ∀ t, (s.threads t).changing = false
  · exact (h.settled hquiet).gone
  · push Not at hquiet
    obtain ⟨t, ht⟩ := hquiet
    exact (h.phase t).gone (by simpa using ht)

/-- The invariant of these runs: at most one thread is in a section, and one
that deregisters keeps sight of its node. -/
structure State.Retired (s : State τ α) : Prop where
  guarded : s.Guarded
  single : ∀ t u, (s.threads t).inSection = true → (s.threads u).inSection = true → t = u
  retire : ∀ t, (s.threads t).Retire s.container

namespace State.Retired

/-- A thread that deregisters past `turn_off` is alone with the segment. -/
theorem wellFormed (h : s.Retired) (hl : (s.threads t).retiring = true)
    (hchanging : (s.threads t).changing = false) : s.container.WellFormed := by
  refine h.guarded.settled fun u => ?_
  by_cases hu : u = t
  · rw [hu]
    exact hchanging
  · cases hc : (s.threads u).changing with
    | false => rfl
    | true =>
        exact absurd (h.single u t (by rw [Local.inSection, hc]; rfl)
          (by rw [Local.inSection, hl, Bool.or_true])) hu

variable [DecidableEq τ]

/-- A step of `deregister_thread`, which keeps sight of its node. -/
theorem deregisterStep (h : s.Retired) {n : Nat} {pc : DeregisterPc}
    (hpc : s.threads t = .deregister n pc) (hguard : s.Starting t →
      ∀ u, u ≠ t → (s.threads u).inSection = false) :
    ((s.deregisterStep t n pc).threads t).Retire (s.deregisterStep t n pc).container := by
  have hretire := h.retire t
  rw [hpc] at hretire
  cases pc with
  | turnOff =>
      have hwell : s.container.WellFormed := by
        refine h.guarded.settled fun u => ?_
        by_cases hu : u = t
        · rw [hu, hpc]
          rfl
        · have hsection := hguard (by rw [State.Starting, hpc]; trivial) u hu
          rw [Local.inSection, Bool.or_eq_false_iff] at hsection
          exact hsection.1
      obtain ⟨hlt, halive⟩ := h.guarded.owner t n (.inr hpc)
      obtain ⟨i, hi⟩ := hwell.held n hlt (Container.kept_of_alive halive)
      simp only [State.deregisterStep, State.goto, update_self]
      refine ⟨?_, i, hi⟩
      simp [State.setContainer, Container.setNode, Node.turnOff]
  | empty =>
      simp only [State.deregisterStep, State.goto, update_self]
      split
      · next hempty =>
          obtain ⟨halive, i, hi⟩ := hretire
          exact ⟨Container.kept_eq_false.mpr ⟨halive, List.isEmpty_iff.mp hempty⟩, i,
            Nat.zero_le _, hi⟩
      · trivial
  | loadLength i =>
      simp only [State.deregisterStep, State.goto, update_self]
      split
      · exact hretire
      · trivial
  | loadEntry i =>
      obtain ⟨hkept, j, hij, hj⟩ := hretire
      simp only [State.deregisterStep, State.goto, update_self]
      split
      · next hi => exact ⟨hkept, hi⟩
      · next hi =>
          refine ⟨hkept, j, ?_, hj⟩
          have hne : i ≠ j := by
            rintro rfl
            exact hi hj
          omega
  | lock i =>
      simp only [State.deregisterStep, State.acquire]
      split
      · simp only [State.goto, update_self]
        exact hretire
      · rw [hpc]
        exact hretire
  | removing pc =>
      obtain ⟨hsome, hnone⟩ := RemovePc.Retire.step hretire
      simp only [State.deregisterStep, State.remove, State.goto, update_self]
      cases hr : (removeStep s.container pc).2 with
      | none => exact hnone hr
      | some pc' => exact hsome pc' hr
  | unlock =>
      simp only [State.deregisterStep, State.release, State.goto, update_self]
      trivial

/-- Every step that keeps to `Apart` keeps the invariant. Threads outside
sections work on the backends only. -/
theorem next (h : s.Retired) {l : Label τ α} (hguard : Apart s l)
    (hnext : s.next l = some s') : s'.Retired := by
  obtain ⟨l', hthreads⟩ := next_threads hnext
  have hother (u : τ) (hu : u ≠ l.actor) : s'.threads u = s.threads u := by
    rw [hthreads, update_of_ne hu]
  -- whoever is inside after the step was so before, or nobody else is
  have hmover (hsection : (s'.threads l.actor).inSection = true) :
      (s.threads l.actor).inSection = true ∨
        ∀ u, u ≠ l.actor → (s.threads u).inSection = false := by
    rw [Local.inSection, Bool.or_eq_true] at hsection
    rcases hsection with hchanging | hretiring
    · rcases changing_step hnext hchanging with hold | ⟨random, heq, hentering⟩
      · exact .inl (by rw [Local.inSection, hold]; rfl)
      · right
        rw [heq] at hguard
        exact hguard (starting_of_entering hentering)
    · obtain ⟨n, pc, random, heq, hpc⟩ := retiring_step hnext hretiring
      cases pc with
      | turnOff =>
          right
          rw [heq] at hguard
          exact hguard (by rw [State.Starting, hpc]; trivial)
      | _ =>
          left
          rw [hpc]
          simp [Local.inSection, Local.retiring]
  refine ⟨h.guarded.next hguard.exclusive hnext, fun u v hu hv => ?_, fun u => ?_⟩
  · by_cases hua : u = l.actor <;> by_cases hva : v = l.actor
    · exact hua.trans hva.symm
    · rw [hother v hva] at hv
      rw [hua] at hu ⊢
      rcases hmover hu with hu | hothers
      · exact h.single _ v hu hv
      · rw [hothers v hva] at hv
        cases hv
    · rw [hother u hua] at hu
      rw [hva] at hv ⊢
      rcases hmover hv with hv | hothers
      · exact h.single u _ hu hv
      · rw [hothers u hua] at hu
        cases hu
    · rw [hother u hua] at hu
      rw [hother v hva] at hv
      exact h.single u v hu hv
  · by_cases hua : u = l.actor
    · rw [hua]
      cases hretiring : (s'.threads l.actor).retiring with
      | false => exact Local.retire_of_not_retiring hretiring
      | true =>
          obtain ⟨n, pc, random, heq, hpc⟩ := retiring_step hnext hretiring
          rw [heq] at hnext hguard
          simp only [State.next, State.step, hpc] at hnext
          cases hnext
          exact h.deregisterStep hpc hguard
    · rw [hother u hua]
      cases hretiring : (s.threads u).retiring with
      | false => exact Local.retire_of_not_retiring hretiring
      | true =>
          have hquiet : (s.threads l.actor).changing = false := by
            cases hc : (s.threads l.actor).changing with
            | false => rfl
            | true =>
                exact absurd (h.single u _ (by rw [Local.inSection, hretiring, Bool.or_true])
                  (by rw [Local.inSection, hc]; rfl)) hua
          rcases h.guarded.next_container hnext hquiet with heq | ⟨m, node, hnode, heq⟩
          · rw [heq]
            exact h.retire u
          · rw [heq]
            exact (h.retire u).setNode hnode

omit [DecidableEq τ] in
theorem initial (capacity : Nat) (h : capacity < 2 ^ 64) :
    (State.initial τ α capacity h).Retired where
  guarded := .initial capacity h
  single := by rintro _ _ ⟨⟩
  retire _ := trivial

omit [DecidableEq τ] in
/-- `deregister_thread` consults nodes that have not been removed. Its own
node is still in the segment, and it looks at no other. -/
theorem consults (h : s.Retired) {n m : Nat} {pc : DeregisterPc}
    (hpc : s.threads t = .deregister n pc) (hm : pc.consults n = some m) :
    m ∉ s.container.removed := by
  intro hmem
  have hkept := h.guarded.gone.2 m hmem
  have hretire := h.retire t
  have hphase := h.guarded.phase t
  rw [hpc] at hretire hphase
  cases pc with
  | turnOff =>
      cases hm
      rw [Container.kept_of_alive (h.guarded.owner t n (.inr hpc)).2] at hkept
      cases hkept
  | empty =>
      cases hm
      have hwell := h.wellFormed (t := t) (by rw [hpc]; rfl) (by rw [hpc]; rfl)
      obtain ⟨_, i, hi⟩ := hretire
      exact (hwell.removed n hmem).2 i hi
  | removing pc =>
      cases pc with
      | alive index node =>
          cases hm
          exact (hphase.1.removed m hmem).2 index hphase.2
      | empty index node =>
          cases hm
          exact (hphase.1.removed m hmem).2 index hphase.2.1
      | _ => cases hm
  | _ => cases hm

/-- When `deregister_thread` returns, its node has elements left or has been
removed. -/
theorem returns (h : s.Retired) {n : Nat} {pc : DeregisterPc}
    (hpc : s.threads t = .deregister n pc)
    (hdone : (s.deregisterStep t n pc).threads t = .done .deregistered)
    (hempty : ((s.deregisterStep t n pc).container.nodes n).elements = []) (i : Nat) :
    (s.deregisterStep t n pc).container.segment i ≠ some n := by
  have hretire := h.retire t
  rw [hpc] at hretire
  cases pc with
  | turnOff =>
      simp only [State.deregisterStep, State.goto, update_self] at hdone
      cases hdone
  | empty =>
      simp only [State.deregisterStep, State.goto, update_self] at hdone
      split at hdone
      · cases hdone
      · next hne => exact absurd (List.isEmpty_iff.mpr hempty) hne
  | loadLength j =>
      have hwell := h.wellFormed (t := t) (by rw [hpc]; rfl) (by rw [hpc]; rfl)
      obtain ⟨_, k, hjk, hk⟩ := hretire
      have hlt := (hwell.entry_lt k n hk).1
      simp only [State.deregisterStep, State.goto, update_self] at hdone
      rw [if_pos (by omega)] at hdone
      cases hdone
  | loadEntry j =>
      simp only [State.deregisterStep, State.goto, update_self] at hdone
      cases hdone
  | lock j =>
      simp only [State.deregisterStep, State.acquire] at hdone
      split at hdone
      · simp only [State.goto, update_self] at hdone
        cases hdone
      · rw [hpc] at hdone
        cases hdone
  | removing pc =>
      simp only [State.deregisterStep, State.remove, State.goto, update_self] at hdone
      cases hr : (removeStep s.container pc).2 <;> rw [hr] at hdone <;> cases hdone
  | unlock =>
      have hwell := h.wellFormed (t := t) (by rw [hpc]; rfl) (by rw [hpc]; rfl)
      exact (hwell.removed n hretire).2 i

end State.Retired

variable [DecidableEq τ] {capacity : Nat} {hcapacity : capacity < 2 ^ 64}
  {ls : List (Label τ α)}

/-- `deregister_thread` consults no removed node, no node is removed twice,
and when a `deregister_thread` returns its node is in the segment only if it
has elements left. -/
def State.Undisturbed (s : State τ α) (guard : State τ α → Label τ α → Prop) : Prop :=
  s.container.removed.Nodup ∧
    (∀ t n pc m, s.threads t = .deregister n pc → pc.consults n = some m →
      m ∉ s.container.removed) ∧
    ∀ t random n pc s', s.threads t = .deregister n pc → guard s (.step t random) →
      s.next (.step t random) = some s' → s'.threads t = .done .deregistered →
        (s'.container.nodes n).elements = [] → ∀ i, s'.container.segment i ≠ some n

end Runs

end Libni.Distributed
