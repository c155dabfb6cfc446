import Mathlib.Data.Finset.Card
import Libni.Distributed.Frame

/-!
The nodes over the whole life of the container. Every node is created by `put`, and
deleted either by `remove_backend` or by the destructor, which takes what is left in
the segment. That the two do not miss a node is a matter of counting: between changes
the length of the segment is the number of nodes that have not been removed.
-/

namespace Libni.Distributed

open Function Libni.Transition Libni.Transition.System

section Destroy

variable {α : Type*}

/-- The loop of `~LLDynamicDistributed`; a null entry or a node that has been
deleted is an error. -/
def Container.destroyFrom : (fuel : Nat) → Container α → Option (Container α)
  | 0, _ => none
  | fuel + 1, c =>
      if 0 < c.length then
        let c := c.setLength (decrement c.length)
        match c.segment c.length with
        | none => none
        | some n => if n ∈ c.removed then none else destroyFrom fuel (c.delete n)
      else some c

/-- `~LLDynamicDistributed` ends without an error and leaves `c'`. -/
def Container.Destroys (c c' : Container α) : Prop := ∃ fuel, c.destroyFrom fuel = some c'

/-- The segment lists distinct nodes that have not been removed. The
destructor relies on no more than this. -/
structure Container.Listed (c : Container α) : Prop where
  filled : ∀ i < c.length, ∃ n, c.segment i = some n
  distinct : ∀ i j n, c.segment i = some n → c.segment j = some n → i = j
  present : ∀ i n, c.segment i = some n → i < c.length → n ∉ c.removed
  once : c.removed.Nodup

theorem Container.WellFormed.listed {c : Container α} (h : c.WellFormed) : c.Listed :=
  ⟨h.filled, h.distinct, fun i n hi _ hmem => (h.removed n hmem).2 i hi, h.removed_once⟩

/-- On a segment that lists distinct nodes the destructor ends, and deletes
exactly those. -/
theorem Container.Listed.destroys {c : Container α} (h : c.Listed) :
    ∃ c', c.Destroys c' ∧ c'.removed.Nodup ∧
      c'.removed.length = c.length + c.removed.length ∧
      ∀ n ∈ c'.removed, n ∈ c.removed ∨ ∃ i, c.segment i = some n := by
  generalize hk : c.length = k
  induction k generalizing c with
  | zero =>
      refine ⟨c, ⟨1, ?_⟩, h.once, by simp, fun n hn => .inl hn⟩
      simp [destroyFrom, hk]
  | succ k ih =>
      have hdecrement : decrement c.length = k := by rw [decrement_eq (by omega), hk]; rfl
      obtain ⟨n, hn⟩ := h.filled k (by omega)
      have hpresent : n ∉ c.removed := h.present k n hn (by omega)
      have hrest : ((c.setLength k).delete n).Listed := by
        refine ⟨fun i hi => h.filled i (Nat.lt_of_lt_of_le hi (by rw [hk]; exact Nat.le_succ k)),
          h.distinct, fun i m hi hlt => ?_, List.nodup_cons.mpr ⟨hpresent, h.once⟩⟩
        have hlt : i < k := hlt
        intro hmem
        rcases List.mem_cons.mp hmem with rfl | hmem
        · exact absurd (h.distinct i k m hi hn) (by omega)
        · exact h.present i m hi (by omega) hmem
      obtain ⟨c', ⟨fuel, hloop⟩, hnodup, hlength, hfrom⟩ := ih hrest rfl
      refine ⟨c', ⟨fuel + 1, ?_⟩, hnodup, ?_, fun m hm => ?_⟩
      · have hentry : (c.setLength k).segment k = some n := hn
        simp only [destroyFrom, if_pos (show 0 < c.length by omega), hdecrement]
        change (match (c.setLength k).segment k with
          | none => none
          | some n => if n ∈ c.removed then none else destroyFrom fuel ((c.setLength k).delete n)) = _
        rw [hentry]
        simpa only [if_neg hpresent] using hloop
      · rw [hlength]
        change k + (n :: c.removed).length = _
        rw [List.length_cons]
        omega
      · rcases hfrom m hm with hold | hlisted
        · rcases List.mem_cons.mp hold with rfl | hold
          · exact .inr ⟨k, hn⟩
          · exact .inl hold
        · exact .inr hlisted

end Destroy

section Count

variable {τ α : Type*}

/-- By how much the length and the removed nodes are ahead of the nodes
created, at the next access of `remove_backend`. -/
def RemovePc.ahead : RemovePc → Nat
  | .loadLength _ | .storeLength _ _ => 1
  | _ => 0

/-- The same for a thread. In the registering part of `put` the length goes up
before the node is counted as created. -/
def Local.ahead : Local α → Nat
  | .put _ (.storeEntry _) => 1
  | .put _ (.removing _ pc) | .get (.removing pc) | .deregister _ (.removing pc) => pc.ahead
  | _ => 0

/-- A step of a thread from `l` to `l'` counts what it changes. Written as a
sum on both sides, since the numbers are natural ones. -/
def Counts (c : Container α) (l : Local α) (c' : Container α) (l' : Local α) : Prop :=
  c'.length + c'.removed.length + c.nodeCount + l.ahead =
    c.length + c.removed.length + c'.nodeCount + l'.ahead

/-- `remove_backend` counts: it deletes a node and later takes one from the
length. -/
theorem removeStep_counts {c : Container α} {pc : RemovePc} (h : pc.Phase c) :
    (removeStep c pc).1.length + (removeStep c pc).1.removed.length + pc.ahead =
      c.length + c.removed.length + (removeStep c pc).2.elim 0 RemovePc.ahead := by
  cases pc with
  | loadEntry index =>
      simp only [removeStep]
      split <;> rfl
  | alive index node | empty index node =>
      simp only [removeStep]
      split <;> rfl
  | delete index node => exact Nat.add_assoc _ _ _
  | storeLength index length =>
      obtain ⟨⟨node, removed, -, hindex, -, hwell⟩, rfl⟩ := h
      have hpos : index < c.length := (hwell.entry_lt index node hindex).1
      change decrement c.length + c.removed.length + 1 = c.length + c.removed.length + 0
      rw [decrement_eq (by omega)]
      omega
  | _ => rfl

variable [DecidableEq τ] {s s' : State τ α} {t : τ}

@[simp] theorem State.goto_threads (s : State τ α) (t : τ) (l : Local α) :
    (s.goto t l).threads t = l := update_self ..

/-- A step that leaves the counts alone, of a thread that is not ahead before
or after. -/
theorem Counts.even {c c' : Container α} {l l' : Local α} (hlength : c'.length = c.length)
    (hremoved : c'.removed = c.removed) (hcount : c'.nodeCount = c.nodeCount)
    (hl : l.ahead = 0) (hl' : l'.ahead = 0) : Counts c l c' l' := by
  rw [Counts, hlength, hremoved, hcount, hl, hl']

/-- The calls of `remove_backend` count, wherever they come from. -/
theorem remove_counts {pc : RemovePc} {resume : RemovePc → Local α} {after : Local α}
    (h : pc.Phase s.container) (hl : (s.threads t).ahead = pc.ahead)
    (hresume : ∀ pc, (resume pc).ahead = pc.ahead) (hafter : after.ahead = 0) :
    Counts s.container (s.threads t) (s.remove t pc resume after).container
      ((s.remove t pc resume after).threads t) := by
  have hcount := removeStep_counts h
  have hnodes : (removeStep s.container pc).1.nodeCount = s.container.nodeCount :=
    (removeStep_frame s.container pc).2
  have hnext : ((removeStep s.container pc).2.elim after resume).ahead =
      (removeStep s.container pc).2.elim 0 RemovePc.ahead := by
    cases (removeStep s.container pc).2 with
    | none => exact hafter
    | some pc' => exact hresume pc'
  rw [Counts, hl]
  change (removeStep s.container pc).1.length + (removeStep s.container pc).1.removed.length +
    s.container.nodeCount + pc.ahead = s.container.length + s.container.removed.length +
      (removeStep s.container pc).1.nodeCount + _
  rw [State.remove, State.goto_threads, hnext, hnodes]
  omega

theorem putStep_counts (h : s.Guarded) {element : α} {pc : PutPc}
    (hpc : s.threads t = .put element pc) :
    Counts s.container (s.threads t) (s.putStep t element pc).container
      ((s.putStep t element pc).threads t) := by
  have hphase := h.phase t
  rw [hpc] at hphase
  have hgoto {l : Local α} (hold : (Local.put element pc).ahead = 0) (hl : l.ahead = 0) :
      Counts s.container (s.threads t) (s.goto t l).container ((s.goto t l).threads t) := by
    rw [hpc, State.goto_threads]
    exact .even rfl rfl rfl hold hl
  cases pc with
  | lock =>
      simp only [State.putStep, State.acquire]
      split
      · exact hgoto rfl rfl
      · rw [hpc]
        exact .even rfl rfl rfl rfl rfl
  | loadLength | sweepLength | sweepAlive | sweepEmpty | reloadLength =>
      simp only [State.putStep]
      split <;> exact hgoto rfl rfl
  | sweepEntry | sweepEntryAgain =>
      simp only [State.putStep]
      split <;> exact hgoto rfl rfl
  | removing i pc =>
      exact remove_counts hphase (by rw [hpc]; rfl) (fun _ => rfl) rfl
  | loadIndex | loadVersion => exact hgoto rfl rfl
  | storeLength index =>
      obtain ⟨-, hlt, rfl⟩ := hphase
      have hinc := increment_eq hlt s.container.capacity_lt
      rw [hpc, Counts]
      simp only [State.putStep, State.goto, update_self]
      change increment s.container.length + s.container.removed.length + s.container.nodeCount + 0 =
        s.container.length + s.container.removed.length + s.container.nodeCount + 1
      rw [hinc]
      omega
  | storeEntry index =>
      rw [hpc, Counts]
      simp only [State.putStep, State.goto, update_self]
      rfl
  | storeVersion node version =>
      rw [hpc]
      simp only [State.putStep, State.goto, update_self]
      exact .even rfl rfl rfl rfl rfl
  | unlock node =>
      rw [hpc]
      cases node <;> simp only [State.putStep, State.release, State.goto, update_self] <;>
        exact .even rfl rfl rfl rfl rfl
  | push node =>
      rw [hpc]
      simp only [State.putStep, State.goto, update_self]
      exact .even rfl rfl rfl rfl rfl

theorem getStep_counts (h : s.Guarded) {random : Nat} {pc : GetPc}
    (hpc : s.threads t = .get pc) :
    Counts s.container (s.threads t) (s.getStep t random pc).container
      ((s.getStep t random pc).threads t) := by
  have hphase := h.phase t
  rw [hpc] at hphase
  have hgoto {l : Local α} (hold : (Local.get pc : Local α).ahead = 0) (hl : l.ahead = 0) :
      Counts s.container (s.threads t) (s.goto t l).container ((s.goto t l).threads t) := by
    rw [hpc, State.goto_threads]
    exact .even rfl rfl rfl hold hl
  have hpop (node : Nat) {l : Local α} (hold : (Local.get pc : Local α).ahead = 0)
      (hl : l.ahead = 0) : Counts s.container (s.threads t) (s.popStep t node l).container
        ((s.popStep t node l).threads t) := by
    unfold State.popStep
    split
    · rw [hpc, State.goto_threads]
      exact .even rfl rfl rfl hold rfl
    · exact hgoto hold hl
  cases pc with
  | own node => exact hpop node rfl rfl
  | pop round i index node => exact hpop node rfl rfl
  | removing pc => exact remove_counts hphase (by rw [hpc]; rfl) (fun _ => rfl) rfl
  | firstEntry | secondEntry =>
      simp only [State.getStep]
      split <;> exact hgoto rfl rfl
  | testLength | loadStart | firstLength | firstIndex | alive | compareVersion | secondLength
  | secondIndex | tailState =>
      simp only [State.getStep]
      split <;> exact hgoto rfl rfl
  | loadVersion | arrayLength => exact hgoto rfl rfl

theorem deregisterStep_counts (h : s.Guarded) {node : Nat} {pc : DeregisterPc}
    (hpc : s.threads t = .deregister node pc) :
    Counts s.container (s.threads t) (s.deregisterStep t node pc).container
      ((s.deregisterStep t node pc).threads t) := by
  have hphase := h.phase t
  rw [hpc] at hphase
  have hgoto {l : Local α} (hold : (Local.deregister node pc : Local α).ahead = 0)
      (hl : l.ahead = 0) :
      Counts s.container (s.threads t) (s.goto t l).container ((s.goto t l).threads t) := by
    rw [hpc, State.goto_threads]
    exact .even rfl rfl rfl hold hl
  cases pc with
  | lock i =>
      simp only [State.deregisterStep, State.acquire]
      split
      · exact hgoto rfl rfl
      · rw [hpc]
        exact .even rfl rfl rfl rfl rfl
  | unlock =>
      rw [hpc]
      simp only [State.deregisterStep, State.release, State.goto_threads]
      exact .even rfl rfl rfl rfl rfl
  | removing pc => exact remove_counts hphase (by rw [hpc]; rfl) (fun _ => rfl) rfl
  | turnOff =>
      rw [hpc]
      simp only [State.deregisterStep, State.goto_threads]
      exact .even rfl rfl rfl rfl rfl
  | empty | loadLength | loadEntry =>
      simp only [State.deregisterStep]
      split <;> exact hgoto rfl rfl

/-- Every step counts what it changes, so the sum is off only by what the
threads inside changes are ahead. -/
theorem next_counts (h : s.Guarded) {l : Label τ α} (hnext : s.next l = some s') :
    Counts s.container (s.threads l.actor) s'.container (s'.threads l.actor) := by
  cases l with
  | call t op =>
      obtain ⟨hidle, rfl⟩ := State.next_call hnext
      have hl : (s.threads t).ahead = 0 := by rw [hidle]; rfl
      cases op with
      | put element =>
          simp only [State.call, Label.actor]
          cases s.ptr t <;> exact .even rfl rfl rfl hl (by rw [State.goto_threads]; rfl)
      | get =>
          simp only [State.call, Label.actor]
          cases s.ptr t <;> exact .even rfl rfl rfl hl (by rw [State.goto_threads]; rfl)
      | deregister =>
          simp only [State.call, Label.actor]
          split
          · exact .even rfl rfl rfl hl (by rw [State.goto_threads]; rfl)
          · exact .even rfl rfl rfl hl (by simp only [State.goto_threads]; rfl)
  | step t random =>
      rcases State.next_step hnext with ⟨_, _, hpc, rfl⟩ | ⟨_, hpc, rfl⟩ | ⟨_, _, hpc, rfl⟩
      · exact putStep_counts h hpc
      · exact getStep_counts h hpc
      · exact deregisterStep_counts h hpc
  | ret t =>
      obtain ⟨_, hdone, rfl⟩ := State.next_ret hnext
      simp only [Label.actor, State.goto_threads]
      exact .even rfl rfl rfl (by rw [hdone]; rfl) rfl

omit [DecidableEq τ] in
theorem ahead_of_not_changing {l : Local α} (h : l.changing = false) : l.ahead = 0 := by
  cases l with
  | put e pc => cases pc <;> first | rfl | cases h
  | get pc => cases pc <;> first | rfl | cases h
  | deregister n pc => cases pc <;> first | rfl | cases h
  | idle | done | fault => rfl

/-- Between changes, the segment lists as many nodes as there are; the thread
inside a change knows by how many it is ahead. -/
structure State.Tallied (s : State τ α) : Prop where
  guarded : s.Guarded
  settled : (∀ t, (s.threads t).changing = false) →
    s.container.length + s.container.removed.length = s.container.nodeCount
  changing : ∀ t, (s.threads t).changing = true →
    s.container.length + s.container.removed.length =
      s.container.nodeCount + (s.threads t).ahead

omit [DecidableEq τ] in
/-- If no other thread is inside a change, the thread knows the number of
nodes. -/
theorem State.Tallied.alone (h : s.Tallied)
    (hquiet : ∀ u, u ≠ t → (s.threads u).changing = false) :
    s.container.length + s.container.removed.length =
      s.container.nodeCount + (s.threads t).ahead := by
  cases ht : (s.threads t).changing with
  | true => exact h.changing t ht
  | false =>
      rw [ahead_of_not_changing ht, h.settled fun u => ?_, Nat.add_zero]
      by_cases hu : u = t
      · rw [hu, ht]
      · exact hquiet u hu

/-- The tally is kept by every step that begins no change inside another
one's. -/
theorem State.Tallied.next (h : s.Tallied) {l : Label τ α} (hguard : Exclusive s l)
    (hnext : s.next l = some s') : s'.Tallied := by
  have hguarded := h.guarded.next hguard hnext
  have hcounts := next_counts h.guarded hnext
  obtain ⟨l', hthreads⟩ := next_threads hnext
  have hother (u : τ) (hu : u ≠ l.actor) : s'.threads u = s.threads u := by
    rw [hthreads, update_of_ne hu]
  rw [Counts] at hcounts
  refine ⟨hguarded, fun hquiet => ?_, fun u hu => ?_⟩
  · have hold := h.alone (t := l.actor) fun u hu => by rw [← hother u hu]; exact hquiet u
    rw [ahead_of_not_changing (hquiet l.actor)] at hcounts
    omega
  · by_cases hactor : u = l.actor
    · subst hactor
      have hold := h.alone (t := l.actor) fun v hv => by
        rw [← hother v hv]
        exact hguarded.others_quiet hu v hv
      omega
    · -- the actor is outside changes before and after
      have hbefore : (s.threads u).changing = true := by rw [← hother u hactor]; exact hu
      have hold := h.changing u hbefore
      rw [ahead_of_not_changing (h.guarded.others_quiet hbefore _ (Ne.symm hactor)),
        ahead_of_not_changing (hguarded.others_quiet hu _ (Ne.symm hactor))] at hcounts
      rw [hother u hactor]
      omega

omit [DecidableEq τ] in
theorem State.Tallied.initial (capacity : Nat) (h : capacity < 2 ^ 64) :
    (State.initial τ α capacity h).Tallied :=
  ⟨.initial capacity h, fun _ => rfl, by rintro _ ⟨⟩⟩

end Count

section Main

variable {τ α : Type*} [DecidableEq τ] {capacity : Nat} {hcapacity : capacity < 2 ^ 64}
  {s : State τ α} {ls : List (Label τ α)}

/-- Once no thread is inside a change, the destructor meets no null entry and
deletes the nodes that `remove_backend` has not deleted: in the end every node
has been deleted exactly once. -/
theorem distributed_frees_all (h : (distributed τ α capacity hcapacity).Run Exclusive ls s)
    (hquiet : ∀ t, (s.threads t).changing = false) :
    ∃ c', s.container.Destroys c' ∧ c'.removed.Nodup ∧
      ∀ n, n ∈ c'.removed ↔ n < s.container.nodeCount := by
  have htallied : s.Tallied := h.invariant (fun s hs => hs ▸ .initial capacity hcapacity)
    fun _ _ _ hu hguard hnext => hu.next hguard hnext
  have hwell := htallied.guarded.settled hquiet
  obtain ⟨c', hdestroys, hnodup, hlength, hfrom⟩ := hwell.listed.destroys
  have hsubset : c'.removed.toFinset ⊆ Finset.range s.container.nodeCount := by
    intro n hn
    rw [Finset.mem_range]
    rcases hfrom n (List.mem_toFinset.mp hn) with hremoved | ⟨i, hi⟩
    · exact (hwell.removed n hremoved).1
    · exact (hwell.entry_lt i n hi).2
  have heq : c'.removed.toFinset = Finset.range s.container.nodeCount := by
    refine Finset.eq_of_subset_of_card_le hsubset ?_
    rw [Finset.card_range, List.toFinset_card_of_nodup hnodup, hlength, htallied.settled hquiet]
  exact ⟨c', hdestroys, hnodup, fun n => by rw [← List.mem_toFinset, heq, Finset.mem_range]⟩

/-- One node has been removed and another one is in the segment. -/
theorem distributed_frees_all_removalRun : ∃ c', removalState.container.Destroys c' ∧
    c'.removed.Nodup ∧ ∀ n, n ∈ c'.removed ↔ n < removalState.container.nodeCount := by
  have hrun : (distributed (Fin 2) Nat 1 Container.one_lt).Run Exclusive removalRun removalState :=
    run_of_exec rfl _
  exact distributed_frees_all hrun (by decide +kernel)

end Main

end Libni.Distributed
