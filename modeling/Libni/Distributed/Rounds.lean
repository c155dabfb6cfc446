import Libni.Distributed.Frame

/-!
The rounds of `get`. A round reads the length of the segment afresh for every index, and
creates `tails_states` with the length it reads once. The reads agree in the runs where
nobody stores to the segment or its length while a round is collecting or comparing
states, where no array is created between the two stores of a registration, and where
the last node does not go between the loop's test and the choice of the offset.
-/

namespace Libni.Distributed

open Function Libni.Transition Libni.Transition.System

section Guard

variable {τ α : Type*}

/-- The next access of `remove_backend` stores to the segment or to its
length. -/
def RemovePc.storing : RemovePc → Bool
  | .storeLength _ _ | .move _ _ | .clear _ => true
  | _ => false

/-- The next access stores the length 0. -/
def RemovePc.vacating : RemovePc → Bool
  | .storeLength _ length => decrement length = 0
  | _ => false

/-- Where the thread is in `remove_backend`, whoever called it. -/
def Local.removal : Local α → Option RemovePc
  | .put _ (.removing _ pc) | .get (.removing pc) | .deregister _ (.removing pc) => some pc
  | _ => none

/-- The next access stores to the segment or to its length. -/
def Local.storing : Local α → Bool
  | .put _ (.storeLength _) | .put _ (.storeEntry _) => true
  | l => l.removal.any RemovePc.storing

def Local.vacating (l : Local α) : Bool := l.removal.any RemovePc.vacating

/-- `put` has stored the new length and is about to store the entry, so that
the last entry is still null. -/
def Local.enrolling : Local α → Bool
  | .put _ (.storeEntry _) => true
  | _ => false

/-- `get` has tested the length and is about to choose the offset, for which
it divides by the length. -/
def Local.choosing : Local α → Bool
  | .get .loadStart => true
  | _ => false

/-- `get` is about to create `tails_states`, with the length it reads now. -/
def Local.sizing : Local α → Bool
  | .get (.arrayLength _ _) => true
  | _ => false

/-- `tails_states` exists. -/
def GetPc.collecting : GetPc → Bool
  | .own _ | .testLength | .loadStart | .loadVersion _ | .arrayLength _ _ | .removing _ => false
  | _ => true

def Local.collecting : Local α → Bool
  | .get pc => pc.collecting
  | _ => false

/-- Changes of the segment exclude each other, and rounds of `get` where they
matter to each other. Each of the three clauses leaves out one overlap: a
store while states are collected or compared, the last removal before an
offset is chosen, and an array created between the two stores of a
registration. -/
def Steady (s : State τ α) : Label τ α → Prop
  | .step t random => Exclusive s (.step t random) ∧ ∀ u, u ≠ t →
      ((s.threads t).storing = true → (s.threads u).collecting = false) ∧
      ((s.threads t).vacating = true → (s.threads u).choosing = false) ∧
      ((s.threads t).sizing = true → (s.threads u).enrolling = false)
  | _ => True

instance [DecidableEq τ] [Fintype τ] (s : State τ α) (l : Label τ α) :
    Decidable (Steady s l) :=
  match l with
  | .step t random => inferInstanceAs (Decidable
      (Exclusive s (.step t random) ∧ ∀ u, u ≠ t →
        ((s.threads t).storing = true → (s.threads u).collecting = false) ∧
        ((s.threads t).vacating = true → (s.threads u).choosing = false) ∧
        ((s.threads t).sizing = true → (s.threads u).enrolling = false)))
  | .call _ _ | .ret _ => inferInstanceAs (Decidable True)

theorem Steady.exclusive {s : State τ α} {l : Label τ α} (h : Steady s l) : Exclusive s l := by
  cases l with
  | step t random => exact h.1
  | call | ret => trivial

end Guard

section Facts

variable {α : Type*}

/-- The states of the first `k` entries from the offset on have been recorded,
in an array that is long enough. -/
structure Round.Upto (round : Round) (k length : Nat) (segment : Nat → Option Nat) : Prop where
  size : round.size = length
  filled : ∀ i < length, ∃ n, segment i = some n
  recorded : ∀ j < k, ∃ node state,
    segment ((round.start + j) % length) = some node ∧ round.states j = some (node, state)

/-- What a round knows of the segment at its next access. It has read the
length several times, and relies on having read the same each time. -/
def GetPc.Facts (length : Nat) (segment : Nat → Option Nat) : GetPc → Prop
  | .own _ | .testLength | .loadVersion _ | .arrayLength _ _ | .removing _ => True
  | .loadStart => length ≠ 0
  | .firstLength round i => round.Upto i length segment
  | .firstIndex round i => round.Upto i length segment ∧ i < length
  | .firstEntry round i index =>
      round.Upto i length segment ∧ i < length ∧ index = (round.start + i) % length
  | .pop round i index node => round.Upto i length segment ∧ i < length ∧
      index = (round.start + i) % length ∧ segment index = some node
  | .alive round i _ _ => round.Upto (i + 1) length segment
  | .compareVersion round | .secondLength round _ => round.Upto length length segment
  | .secondIndex round i => round.Upto length length segment ∧ i < length
  | .secondEntry round i index =>
      round.Upto length length segment ∧ i < length ∧ index = (round.start + i) % length
  | .tailState round i node => round.Upto length length segment ∧ i < length ∧
      segment ((round.start + i) % length) = some node

def Local.Facts (length : Nat) (segment : Nat → Option Nat) : Local α → Prop
  | .get pc => pc.Facts length segment
  | _ => True

variable {length k : Nat} {segment : Nat → Option Nat} {round : Round}

theorem Round.Upto.mono (h : round.Upto k length segment) {k' : Nat} (hk : k' ≤ k) :
    round.Upto k' length segment :=
  ⟨h.size, h.filled, fun j hj => h.recorded j (hj.trans_le hk)⟩

theorem Round.Upto.record (h : round.Upto k length segment) {node : Nat}
    (hnode : segment ((round.start + k) % length) = some node) (state : Nat) :
    (round.record k node state).Upto (k + 1) length segment where
  size := h.size
  filled := h.filled
  recorded j hj := by
    change ∃ node' state', segment ((round.start + j) % length) = some node' ∧
      update round.states k (some (node, state)) j = some (node', state')
    by_cases hjk : j = k
    · subst hjk
      exact ⟨node, state, hnode, update_self _ _ _⟩
    · rw [update_of_ne hjk]
      exact h.recorded j (by omega)

theorem Local.facts_of_not_collecting {l : Local α} (h : l.collecting = false)
    (hlength : l.choosing = true → length ≠ 0) : l.Facts length segment := by
  cases l with
  | get pc =>
      cases pc with
      | loadStart => exact hlength rfl
      | own | testLength | loadVersion | arrayLength | removing => trivial
      | _ => cases h
  | _ => trivial

/-- What may not happen at the next access of `get`: a division by zero, an
access of `tails_states` out of bounds, a null entry that is dereferenced, and
a comparison with a state that was not recorded or belongs to another node. -/
def GetPc.Safe (c : Container α) : GetPc → Prop
  | .loadStart | .firstIndex _ _ | .secondIndex _ _ => c.length ≠ 0
  | .firstEntry _ _ index | .secondEntry _ _ index => c.segment index ≠ none
  | .pop round i _ _ => i < round.size
  | .tailState round i node => i < round.size ∧ ∃ state, round.states i = some (node, state)
  | _ => True

theorem GetPc.Facts.safe {c : Container α} {pc : GetPc} (h : pc.Facts c.length c.segment) :
    pc.Safe c := by
  have hentry {k i : Nat} {round : Round} (hupto : round.Upto k c.length c.segment)
      (hi : i < c.length) : c.segment ((round.start + i) % c.length) ≠ none := by
    obtain ⟨n, hn⟩ := hupto.filled _ (Nat.mod_lt (round.start + i) (by omega))
    rw [hn]
    exact Option.some_ne_none n
  cases pc with
  | own | testLength | loadVersion | arrayLength | removing | firstLength | alive | compareVersion
  | secondLength => trivial
  | loadStart => exact h
  | firstIndex | secondIndex => exact Nat.ne_of_gt (Nat.zero_lt_of_lt h.2)
  | firstEntry | secondEntry =>
      obtain ⟨hupto, hi, rfl⟩ := h
      exact hentry hupto hi
  | pop =>
      obtain ⟨hupto, hi, _⟩ := h
      exact hi.trans_eq hupto.size.symm
  | tailState round i node =>
      obtain ⟨hupto, hi, hnode⟩ := h
      obtain ⟨node', state, hnode', hstate⟩ := hupto.recorded i hi
      obtain rfl : node' = node := Option.some.inj (hnode'.symm.trans hnode)
      exact ⟨hi.trans_eq hupto.size.symm, state, hstate⟩

end Facts

section Filled

variable {α : Type*} {c : Container α}

/-- No entry below the length is null. -/
def Container.Filled (c : Container α) : Prop := ∀ i < c.length, ∃ n, c.segment i = some n

theorem Container.Removing.filled {index length : Nat}
    (h : c.Removing index c.segment length) (hlength : c.length ≤ length) : c.Filled := by
  obtain ⟨_, _, _, _, _, hwell⟩ := h
  exact fun i hi => hwell.filled i (hi.trans_le hlength)

theorem Container.Removing.filled_of_moved {index : Nat} {segment : Nat → Option Nat}
    (h : c.Removing index segment (c.length + 1))
    (heq : c.segment = update segment index (segment c.length)) : c.Filled := by
  obtain ⟨_, _, _, _, _, hwell⟩ := h
  intro i hi
  rw [heq]
  by_cases hi' : i = index
  · rw [hi', update_self]
    exact hwell.filled c.length (Nat.lt_succ_self _)
  · rw [update_of_ne hi']
    exact hwell.filled i (Nat.lt_succ_of_lt hi)

/-- In no phase of `remove_backend` is an entry below the length null: the
length goes down before the last entry is cleared. -/
theorem RemovePc.Phase.filled {pc : RemovePc} (h : pc.Phase c) : c.Filled := by
  cases pc with
  | loadEntry | loadVersion | storeVersion => exact Container.WellFormed.filled h
  | alive | empty | delete => exact h.1.filled
  | loadLength => exact Container.Removing.filled h le_rfl
  | loadLast => exact Container.Removing.filled h (Nat.le_succ _)
  | storeLength => exact h.1.filled le_rfl
  | loadMoved | move => exact h.1.filled (Nat.le_succ _)
  | loadEnd =>
      obtain ⟨_, _, h, heq⟩ := h
      exact h.filled_of_moved heq
  | clear =>
      obtain ⟨⟨_, _, h, heq⟩, _⟩ := h
      exact h.filled_of_moved heq

/-- Inside a change an entry below the length can be null in one place only,
between the two stores of a registration. -/
theorem Local.Phase.filled {l : Local α} (h : l.Phase c) (hl : l.changing = true)
    (henrolling : l.enrolling = false) : c.Filled := by
  cases l with
  | put e pc =>
      cases pc with
      | lock | push => cases hl
      | removing i pc => exact RemovePc.Phase.filled h
      | loadIndex | storeLength => exact h.1.filled
      | storeEntry => cases henrolling
      | loadLength | sweepLength | sweepEntry | sweepAlive | sweepEntryAgain | sweepEmpty
      | reloadLength | loadVersion | storeVersion | unlock => exact Container.WellFormed.filled h
  | get pc =>
      cases pc with
      | removing pc => exact RemovePc.Phase.filled h
      | _ => cases hl
  | deregister m pc =>
      cases pc with
      | removing pc => exact RemovePc.Phase.filled h
      | _ => cases hl
  | idle | done | fault => cases hl

/-- Unless a registration is between its stores, no entry is null, in a change
or outside. -/
theorem State.Guarded.filled {τ : Type*} {s : State τ α} (h : s.Guarded)
    (henrolling : ∀ t, (s.threads t).enrolling = false) : s.container.Filled := by
  by_cases hquiet : ∀ t, (s.threads t).changing = false
  · exact (h.settled hquiet).filled
  · push Not at hquiet
    obtain ⟨t, ht⟩ := hquiet
    exact (h.phase t).filled (by simpa using ht) (henrolling t)

end Filled

section Step

variable {τ α : Type*} [DecidableEq τ] {s s' : State τ α} {t : τ}

/-- The other accesses of `remove_backend` leave the segment alone. -/
theorem removeStep_unstored {c : Container α} {pc : RemovePc} (h : pc.storing = false) :
    (removeStep c pc).1.length = c.length ∧ (removeStep c pc).1.segment = c.segment := by
  cases pc with
  | storeLength | move | clear => cases h
  | loadEntry index =>
      simp only [removeStep]
      split <;> exact ⟨rfl, rfl⟩
  | _ => exact ⟨rfl, rfl⟩

theorem removeStep_length {c : Container α} {pc : RemovePc} (h : pc.vacating = false)
    (hlength : c.length ≠ 0) : (removeStep c pc).1.length ≠ 0 := by
  cases pc with
  | storeLength index length => exact of_decide_eq_false h
  | loadEntry index =>
      simp only [removeStep]
      split <;> exact hlength
  | _ => exact hlength

theorem State.Guarded.next_unstored (h : s.Guarded) {l : Label τ α} (hnext : s.next l = some s')
    (hl : (s.threads l.actor).storing = false) :
    s'.container.length = s.container.length ∧ s'.container.segment = s.container.segment := by
  cases hchanging : (s.threads l.actor).changing with
  | false =>
      rcases h.next_container hnext hchanging with heq | ⟨n, node, _, heq⟩
      all_goals
        rw [heq]
        exact ⟨rfl, rfl⟩
  | true =>
      cases l with
      | call t op =>
          obtain ⟨hidle, _⟩ := State.next_call hnext
          rw [Label.actor, hidle] at hchanging
          cases hchanging
      | step t random =>
          rw [Label.actor] at hl hchanging
          rcases State.next_step hnext with
            ⟨element, pc, hpc, rfl⟩ | ⟨pc, hpc, rfl⟩ | ⟨n, pc, hpc, rfl⟩
          · rw [hpc] at hl hchanging
            cases pc with
            | lock | push => cases hchanging
            | storeLength | storeEntry => cases hl
            | removing i pc => exact removeStep_unstored hl
            | sweepEntry | sweepEntryAgain =>
                simp only [State.putStep]
                split <;> exact ⟨rfl, rfl⟩
            | unlock node => cases node <;> exact ⟨rfl, rfl⟩
            | _ => exact ⟨rfl, rfl⟩
          · rw [hpc] at hl hchanging
            cases pc with
            | removing pc => exact removeStep_unstored hl
            | _ => cases hchanging
          · rw [hpc] at hl hchanging
            cases pc with
            | removing pc => exact removeStep_unstored hl
            | _ => cases hchanging
      | ret t =>
          obtain ⟨_, hdone, _⟩ := State.next_ret hnext
          rw [Label.actor, hdone] at hchanging
          cases hchanging

theorem State.Guarded.next_length (h : s.Guarded) {l : Label τ α} (hnext : s.next l = some s')
    (hl : (s.threads l.actor).vacating = false) (hlength : s.container.length ≠ 0) :
    s'.container.length ≠ 0 := by
  cases hstoring : (s.threads l.actor).storing with
  | false => rwa [(h.next_unstored hnext hstoring).1]
  | true =>
      cases l with
      | call t op =>
          obtain ⟨hidle, _⟩ := State.next_call hnext
          rw [Label.actor, hidle] at hstoring
          cases hstoring
      | step t random =>
          rw [Label.actor] at hl hstoring
          rcases State.next_step hnext with
            ⟨element, pc, hpc, rfl⟩ | ⟨pc, hpc, rfl⟩ | ⟨n, pc, hpc, rfl⟩
          · have hphase := h.phase t
            rw [hpc] at hl hstoring hphase
            cases pc with
            | storeLength index =>
                obtain ⟨_, hlt, rfl⟩ := hphase
                change increment s.container.length ≠ 0
                rw [increment_eq hlt s.container.capacity_lt]
                exact Nat.succ_ne_zero _
            | storeEntry index => exact hlength
            | removing i pc => exact removeStep_length hl hlength
            | _ => cases hstoring
          · rw [hpc] at hl hstoring
            cases pc with
            | removing pc => exact removeStep_length hl hlength
            | _ => cases hstoring
          · rw [hpc] at hl hstoring
            cases pc with
            | removing pc => exact removeStep_length hl hlength
            | _ => cases hstoring
      | ret t =>
          obtain ⟨_, hdone, _⟩ := State.next_ret hnext
          rw [Label.actor, hdone] at hstoring
          cases hstoring

/-- A step of `get` leaves the thread with what its next access relies on.
Only the creation of the array asks for more than the segment: that no entry
is null. -/
theorem getStep_facts {pc : GetPc} {random : Nat}
    (h : pc.Facts s.container.length s.container.segment)
    (hfilled : (Local.get pc : Local α).sizing = true → s.container.Filled) :
    ((s.getStep t random pc).threads t).Facts s.container.length s.container.segment := by
  cases pc with
  | own node =>
      simp only [State.getStep, State.popStep]
      split <;> (simp only [State.goto, update_self]; trivial)
  | testLength =>
      simp only [State.getStep, State.goto, update_self]
      split
      · trivial
      · next hlength => exact hlength
  | loadStart =>
      simp only [State.getStep, State.goto, update_self]
      split <;> trivial
  | loadVersion start =>
      simp only [State.getStep, State.goto, update_self]
      trivial
  | arrayLength start version =>
      simp only [State.getStep, State.goto, update_self]
      exact ⟨rfl, hfilled rfl, by rintro j ⟨⟩⟩
  | firstLength round i =>
      simp only [State.getStep, State.goto, update_self]
      split
      · next hi => exact ⟨h, hi⟩
      · next hi => exact h.mono (Nat.le_of_not_lt hi)
  | firstIndex round i =>
      simp only [State.getStep, State.goto, update_self]
      split
      · trivial
      · exact ⟨h.1, h.2, rfl⟩
  | firstEntry round i index =>
      simp only [State.getStep]
      split <;> simp only [State.goto, update_self]
      · trivial
      · next node hnode => exact ⟨h.1, h.2.1, h.2.2, hnode⟩
  | pop round i index node =>
      obtain ⟨hupto, _, hindex, hnode⟩ := h
      simp only [State.getStep, State.popStep]
      split <;> simp only [State.goto, update_self]
      · trivial
      · exact hupto.record (hindex ▸ hnode) _
  | alive round i index node =>
      simp only [State.getStep, State.goto, update_self]
      split
      · exact h
      · trivial
  | removing pc =>
      obtain ⟨l', hthreads, rfl | ⟨pc', rfl⟩⟩ := remove_threads (s := s) (t := t) pc
        (fun pc => .get (.removing pc)) (.get .testLength)
      all_goals
        rw [State.getStep, hthreads, update_self]
        trivial
  | compareVersion round =>
      simp only [State.getStep, State.goto, update_self]
      split
      · exact h
      · trivial
  | secondLength round i =>
      simp only [State.getStep, State.goto, update_self]
      split
      · next hi => exact ⟨h, hi⟩
      · trivial
  | secondIndex round i =>
      simp only [State.getStep, State.goto, update_self]
      split
      · trivial
      · exact ⟨h.1, h.2, rfl⟩
  | secondEntry round i index =>
      obtain ⟨hupto, hi, rfl⟩ := h
      simp only [State.getStep]
      split <;> simp only [State.goto, update_self]
      · trivial
      · next node hnode => exact ⟨hupto, hi, hnode⟩
  | tailState round i node =>
      simp only [State.getStep, State.goto, update_self]
      split
      · exact h.1
      · trivial

end Step

section Runs

variable {τ α : Type*} {s s' : State τ α} {t : τ}

/-- The invariant of the rounds: every thread knows what it relies on of the
segment as it is. -/
structure State.Consistent (s : State τ α) : Prop where
  guarded : s.Guarded
  facts : ∀ t, (s.threads t).Facts s.container.length s.container.segment

namespace State.Consistent

/-- Stores of another thread do not reach what a thread relies on. While it
collects or compares states there are none, by the guard. -/
theorem other [DecidableEq τ] (h : s.Consistent) {l : Label τ α} (hguard : Steady s l)
    (hnext : s.next l = some s') (ht : t ≠ l.actor) :
    (s.threads t).Facts s'.container.length s'.container.segment := by
  cases hstoring : (s.threads l.actor).storing with
  | false =>
      obtain ⟨hlength, hsegment⟩ := h.guarded.next_unstored hnext hstoring
      rw [hlength, hsegment]
      exact h.facts t
  | true =>
      cases l with
      | step u random =>
          obtain ⟨hcollecting, hchoosing, _⟩ := hguard.2 t ht
          refine Local.facts_of_not_collecting (hcollecting hstoring) fun hchoose => ?_
          refine h.guarded.next_length hnext (Bool.eq_false_iff.mpr fun hvacating => ?_) ?_
          · rw [hchoosing hvacating] at hchoose
            cases hchoose
          · have hfacts := h.facts t
            cases hl : s.threads t with
            | get pc =>
                rw [hl] at hchoose hfacts
                cases pc with
                | loadStart => exact hfacts
                | _ => cases hchoose
            | _ =>
                rw [hl] at hchoose
                cases hchoose
      | call u op =>
          obtain ⟨hidle, _⟩ := State.next_call hnext
          rw [Label.actor, hidle] at hstoring
          cases hstoring
      | ret u =>
          obtain ⟨_, hdone, _⟩ := State.next_ret hnext
          rw [Label.actor, hdone] at hstoring
          cases hstoring

variable [DecidableEq τ]

/-- A step of `get` itself. The length it finds when it creates the array is
the one it goes on with. -/
theorem getStep (h : s.Consistent) {pc : GetPc} {random : Nat} (hpc : s.threads t = .get pc)
    (hguard : Steady s (.step t random)) (hnext : s.next (.step t random) = some s') :
    (s'.threads t).Facts s'.container.length s'.container.segment := by
  have heq : s.getStep t random pc = s' := by
    simpa only [State.next, State.step, hpc, Option.some.injEq] using hnext
  have hfacts := h.facts t
  rw [hpc] at hfacts
  have hfilled (hsizing : (Local.get pc : Local α).sizing = true) : s.container.Filled := by
    refine h.guarded.filled fun u => ?_
    by_cases hu : u = t
    · rw [hu, hpc]
      rfl
    · exact (hguard.2 u hu).2.2 (by rw [hpc]; exact hsizing)
  have hself : ((s.getStep t random pc).threads t).Facts s.container.length
      s.container.segment := getStep_facts hfacts hfilled
  rw [heq] at hself
  cases pc with
  | removing pc =>
      obtain ⟨l', hthreads, rfl | ⟨pc', rfl⟩⟩ := remove_threads (s := s) (t := t) pc
        (fun pc => .get (.removing pc)) (.get .testLength)
      all_goals
        rw [← heq, State.getStep, hthreads, update_self]
        trivial
  | _ =>
      obtain ⟨hlength, hsegment⟩ := h.guarded.next_unstored hnext
        (by rw [Label.actor, hpc]; rfl)
      rw [hlength, hsegment]
      exact hself

/-- Every step that keeps to `Steady` leaves all rounds consistent. The thread
that moves is one case, the others are the other. -/
theorem next (h : s.Consistent) {l : Label τ α} (hguard : Steady s l)
    (hnext : s.next l = some s') : s'.Consistent := by
  refine ⟨h.guarded.next hguard.exclusive hnext, fun t => ?_⟩
  by_cases ht : t = l.actor
  · subst ht
    cases l with
    | call t op =>
        obtain ⟨_, rfl⟩ := State.next_call hnext
        cases op with
        | put element =>
            simp only [State.call, State.goto, Label.actor, update_self]
            trivial
        | get =>
            simp only [State.call, State.goto, Label.actor, update_self]
            cases s.ptr t <;> trivial
        | deregister =>
            simp only [State.call, Label.actor]
            split <;> (simp only [State.goto, update_self]; trivial)
    | step t random =>
        obtain ⟨l', hthreads, hfollows⟩ := step_threads hnext
        rw [Label.actor]
        cases hl : s.threads t with
        | get pc => exact h.getStep hl hguard hnext
        | _ =>
            rw [hthreads, update_self]
            rw [hl] at hfollows
            cases l' with
            | get => cases hfollows
            | _ => trivial
    | ret t =>
        obtain ⟨_, _, rfl⟩ := State.next_ret hnext
        simp only [State.goto, Label.actor, update_self]
        trivial
  · obtain ⟨l', hthreads⟩ := next_threads hnext
    rw [hthreads, update_of_ne ht]
    exact h.other hguard hnext ht

omit [DecidableEq τ] in
theorem initial (capacity : Nat) (h : capacity < 2 ^ 64) :
    (State.initial τ α capacity h).Consistent where
  guarded := .initial capacity h
  facts _ := trivial

end State.Consistent

variable [DecidableEq τ] {capacity : Nat} {hcapacity : capacity < 2 ^ 64}
  {ls : List (Label τ α)}

/-- In the runs in which changes exclude each other and keep out of the rounds
of `get`, no access of `get` divides by zero, runs over `tails_states`,
dereferences a null entry or compares the states of two nodes. The condition
is on what other threads do at that moment; nothing is asked of the lengths,
the offsets or the number of rounds. -/
theorem rounds_safe (h : (distributed τ α capacity hcapacity).Run Steady ls s) {pc : GetPc}
    (hpc : s.threads t = .get pc) : pc.Safe s.container := by
  have hconsistent : s.Consistent := h.invariant (fun s hs => hs ▸ .initial capacity hcapacity)
    fun _ _ _ hu hguard hnext => hu.next hguard hnext
  have hfacts := hconsistent.facts t
  rw [hpc] at hfacts
  exact GetPc.Facts.safe hfacts

end Runs

/-- Threads 0 and 1 have registered and emptied their backends, and thread 2
compares the last state of its round. -/
def comparingRun : List (Label (Fin 3) Nat) :=
  registering 0 7 ++ [Label.call 0 .get, .step 0 0, .ret 0] ++
    registering 1 8 ++ [Label.call 1 .get, .step 1 0, .ret 1] ++ .call 2 .get :: steps 2 23 1

def comparingState : State (Fin 3) Nat :=
  ((distributed (Fin 3) Nat 2 Container.two_lt).exec Steady (.initial _ _ 2 Container.two_lt)
    comparingRun).get (by decide +kernel)

theorem rounds_safe_comparingRun : ∃ round,
    comparingState.threads 2 = .get (.tailState round 1 0) ∧
      (GetPc.tailState round 1 0).Safe comparingState.container := by
  have hrun : (distributed (Fin 3) Nat 2 Container.two_lt).Run Steady comparingRun comparingState :=
    run_of_exec rfl _
  have hpc : (match comparingState.threads 2 with
      | .get (.tailState _ i node) => some (i, node)
      | _ => none) = some (1, 0) := by decide +kernel
  split at hpc
  · next round i node heq =>
      cases hpc
      exact ⟨round, heq, rounds_safe hrun heq⟩
  · cases hpc

/-- Thread 0 removes the only node after thread 1 has found the length to be
1. -/
def dividingRun : List (Label (Fin 2) Nat) :=
  registering 0 7 ++ [Label.call 0 .get, .step 0 0, .ret 0, .call 1 .get, .step 1 0,
    .call 0 .deregister] ++ steps 0 11 0

def dividingState : State (Fin 2) Nat :=
  ((distributed (Fin 2) Nat 1 Container.one_lt).exec Free (.initial _ _ 1 Container.one_lt)
    dividingRun).get (by decide +kernel)

/-- Without the condition `get` may divide by zero when it chooses its offset. -/
theorem modulo_by_zero : ¬ ∀ (ls : List (Label (Fin 2) Nat)) (s : State (Fin 2) Nat),
    (distributed (Fin 2) Nat 1 Container.one_lt).Run Free ls s →
      ∀ t pc, s.threads t = .get pc → pc.Safe s.container := by
  intro hall
  have hrun : (distributed (Fin 2) Nat 1 Container.one_lt).Run Free dividingRun dividingState :=
    run_of_exec rfl _
  have hpc : (match dividingState.threads 1 with
      | .get .loadStart => true
      | _ => false) = true := by decide +kernel
  have hlength : dividingState.container.length = 0 := by decide +kernel
  split at hpc
  · next heq => exact hall dividingRun dividingState hrun 1 _ heq hlength
  · cases hpc

end Libni.Distributed
