import Libni.Distributed.Steps

/-!
What a step leaves alone: the other threads, and, outside changes, everything of the
container but one backend. A change only begins where the guards look for it.
-/

namespace Libni.Distributed

open Function Libni.Transition Libni.Transition.System

variable {τ α : Type*}

def Label.actor : Label τ α → τ
  | .call t _ | .step t _ | .ret t => t

variable [DecidableEq τ] {s s' : State τ α} {t : τ}

/-- Where an access can take a thread: it stays in its call, returns from it,
or stops for good. -/
def Local.Follows : Local α → Local α → Prop
  | .put _ _, .put _ _ | .get _, .get _ => True
  | .deregister n _, .deregister m _ => m = n
  | .put _ _, .done _ | .get _, .done _ | .deregister _ _, .done _ => True
  | .put _ _, .fault | .get _, .fault => True
  | _, _ => False

theorem acquire_threads (l : Local α) :
    ∃ l', (s.acquire t l).threads = update s.threads t l' ∧ (l' = l ∨ l' = s.threads t) := by
  unfold State.acquire
  split
  · exact ⟨l, rfl, .inl rfl⟩
  · exact ⟨s.threads t, (update_eq_self t _).symm, .inr rfl⟩

theorem popStep_threads (node : Nat) (l : Local α) :
    ∃ l', (s.popStep t node l).threads = update s.threads t l' ∧
      (l' = l ∨ ∃ result, l' = .done result) := by
  unfold State.popStep
  split
  · exact ⟨_, rfl, .inr ⟨_, rfl⟩⟩
  · exact ⟨_, rfl, .inl rfl⟩

theorem remove_threads (pc : RemovePc) (resume : RemovePc → Local α) (after : Local α) :
    ∃ l', (s.remove t pc resume after).threads = update s.threads t l' ∧
      (l' = after ∨ ∃ pc', l' = resume pc') := by
  cases hr : (removeStep s.container pc).2 with
  | none => exact ⟨after, by simp only [State.remove, hr]; rfl, .inl rfl⟩
  | some pc' => exact ⟨resume pc', by simp only [State.remove, hr]; rfl, .inr ⟨pc', rfl⟩⟩

theorem putStep_threads {element : α} {pc : PutPc} (hpc : s.threads t = .put element pc) :
    ∃ l', (s.putStep t element pc).threads = update s.threads t l' ∧
      (s.threads t).Follows l' := by
  rw [hpc]
  cases pc with
  | lock =>
      obtain ⟨l', hthreads, rfl | rfl⟩ := acquire_threads (s := s) (t := t) (.put element .loadLength)
      · exact ⟨_, hthreads, trivial⟩
      · exact ⟨_, hthreads, by rw [hpc]; trivial⟩
  | removing i pc =>
      obtain ⟨l', hthreads, rfl | ⟨pc', rfl⟩⟩ := remove_threads (s := s) (t := t) pc
        (fun pc => .put element (.removing i pc)) (.put element (.sweepLength (i + 1)))
      · exact ⟨_, hthreads, trivial⟩
      · exact ⟨_, hthreads, trivial⟩
  | sweepEntry | sweepEntryAgain =>
      simp only [State.putStep]
      split <;> exact ⟨_, rfl, trivial⟩
  | unlock node => cases node <;> exact ⟨_, rfl, trivial⟩
  | _ => exact ⟨_, rfl, trivial⟩

theorem getStep_threads (random : Nat) {pc : GetPc} (hpc : s.threads t = .get pc) :
    ∃ l', (s.getStep t random pc).threads = update s.threads t l' ∧
      (s.threads t).Follows l' := by
  rw [hpc]
  cases pc with
  | own node =>
      obtain ⟨l', hthreads, rfl | ⟨result, rfl⟩⟩ := popStep_threads (s := s) (t := t) node
        (.get .testLength)
      · exact ⟨_, hthreads, trivial⟩
      · exact ⟨_, hthreads, trivial⟩
  | pop round i index node =>
      obtain ⟨l', hthreads, rfl | ⟨result, rfl⟩⟩ := popStep_threads (s := s) (t := t) node
        (.get (.alive (round.record i node (s.container.nodes node).tailState) i index node))
      · exact ⟨_, hthreads, trivial⟩
      · exact ⟨_, hthreads, trivial⟩
  | removing pc =>
      obtain ⟨l', hthreads, rfl | ⟨pc', rfl⟩⟩ := remove_threads (s := s) (t := t) pc
        (fun pc => .get (.removing pc)) (.get .testLength)
      · exact ⟨_, hthreads, trivial⟩
      · exact ⟨_, hthreads, trivial⟩
  | firstEntry | secondEntry =>
      simp only [State.getStep]
      split <;> exact ⟨_, rfl, trivial⟩
  | testLength | loadStart | firstIndex | secondLength | secondIndex =>
      simp only [State.getStep]
      split <;> exact ⟨_, rfl, trivial⟩
  | _ => exact ⟨_, rfl, trivial⟩

theorem deregisterStep_threads {node : Nat} {pc : DeregisterPc}
    (hpc : s.threads t = .deregister node pc) :
    ∃ l', (s.deregisterStep t node pc).threads = update s.threads t l' ∧
      (s.threads t).Follows l' := by
  rw [hpc]
  cases pc with
  | lock i =>
      obtain ⟨l', hthreads, rfl | rfl⟩ := acquire_threads (s := s) (t := t)
        (.deregister node (.removing (.loadEntry i)))
      · exact ⟨_, hthreads, rfl⟩
      · exact ⟨_, hthreads, by rw [hpc]; rfl⟩
  | removing pc =>
      obtain ⟨l', hthreads, rfl | ⟨pc', rfl⟩⟩ := remove_threads (s := s) (t := t) pc
        (fun pc => .deregister node (.removing pc)) (.deregister node .unlock)
      · exact ⟨_, hthreads, rfl⟩
      · exact ⟨_, hthreads, rfl⟩
  | empty | loadLength =>
      simp only [State.deregisterStep]
      split
      · exact ⟨_, rfl, rfl⟩
      · exact ⟨_, rfl, trivial⟩
  | unlock => exact ⟨_, rfl, trivial⟩
  | _ => exact ⟨_, rfl, rfl⟩

theorem step_threads {random : Nat} (hnext : s.next (.step t random) = some s') :
    ∃ l', s'.threads = update s.threads t l' ∧ (s.threads t).Follows l' := by
  rcases State.next_step hnext with ⟨_, _, hpc, rfl⟩ | ⟨_, hpc, rfl⟩ | ⟨_, _, hpc, rfl⟩
  · exact putStep_threads hpc
  · exact getStep_threads random hpc
  · exact deregisterStep_threads hpc

theorem next_threads {l : Label τ α} (hnext : s.next l = some s') :
    ∃ l', s'.threads = update s.threads l.actor l' := by
  cases l with
  | call t op =>
      obtain ⟨_, rfl⟩ := State.next_call hnext
      cases op with
      | put | get => exact ⟨_, rfl⟩
      | deregister =>
          simp only [State.call]
          split <;> exact ⟨_, rfl⟩
  | step t random =>
      obtain ⟨l', hthreads, _⟩ := step_threads hnext
      exact ⟨l', hthreads⟩
  | ret t =>
      obtain ⟨_, _, rfl⟩ := State.next_ret hnext
      exact ⟨_, rfl⟩

/-- What a thread outside changes does to the container: nothing, or something
to one backend that keeps every removal valid. -/
theorem State.Guarded.next_container (h : s.Guarded) {l : Label τ α}
    (hnext : s.next l = some s') (hl : (s.threads l.actor).changing = false) :
    s'.container = s.container ∨ ∃ n node, s.container.Fading n node ∧
      s'.container = s.container.setNode n node := by
  have hacquire (t : τ) (l : Local α) : (s.acquire t l).container = s.container := by
    unfold State.acquire
    split <;> rfl
  have hpop (t : τ) (node : Nat) (l : Local α) : (s.popStep t node l).container = s.container ∨
      ∃ n node', s.container.Fading n node' ∧
        (s.popStep t node l).container = s.container.setNode n node' := by
    unfold State.popStep
    split
    · next element hhead =>
        exact .inr ⟨node, _, h.fading_pop hhead, rfl⟩
    · exact .inl rfl
  cases l with
  | call t op =>
      obtain ⟨_, rfl⟩ := State.next_call hnext
      cases op with
      | put | get => exact .inl rfl
      | deregister =>
          simp only [State.call]
          split <;> exact .inl rfl
  | step t random =>
      rcases State.next_step hnext with
        ⟨element, pc, hpc, rfl⟩ | ⟨pc, hpc, rfl⟩ | ⟨node, pc, hpc, rfl⟩
      · cases pc with
        | lock => exact .inl (hacquire _ _)
        | push node =>
            have hfits := h.fits t
            rw [hpc] at hfits
            obtain ⟨hlt, halive⟩ := h.owner t node (.inl hfits)
            exact .inr ⟨node, _, ⟨hlt, fun _ => Container.kept_of_alive halive, fun _ => halive⟩,
              rfl⟩
        | _ =>
            rw [Label.actor, hpc] at hl
            cases hl
      · cases pc with
        | own | pop => exact hpop _ _ _
        | firstEntry | secondEntry =>
            simp only [State.getStep]
            split <;> exact .inl rfl
        | removing =>
            rw [Label.actor, hpc] at hl
            cases hl
        | _ => exact .inl rfl
      · cases pc with
        | turnOff =>
            obtain ⟨hlt, halive⟩ := h.owner t node (.inr hpc)
            exact .inr ⟨node, _, ⟨hlt, fun _ => Container.kept_of_alive halive, by rintro ⟨⟩⟩, rfl⟩
        | lock => exact .inl (hacquire _ _)
        | removing =>
            rw [Label.actor, hpc] at hl
            cases hl
        | _ => exact .inl rfl
  | ret t =>
      obtain ⟨_, _, rfl⟩ := State.next_ret hnext
      exact .inl rfl

theorem call_not_changing (op : Op α) : ((s.call t op).threads t).changing = false := by
  cases op with
  | put element =>
      simp only [State.call, State.goto, update_self]
      cases s.ptr t <;> rfl
  | get =>
      simp only [State.call, State.goto, update_self]
      cases s.ptr t <;> rfl
  | deregister =>
      simp only [State.call]
      split
      all_goals
        simp only [State.goto, update_self]
        rfl

/-- Only `remove_backend` and the registering part of `put` change the
segment, and `put` begins the latter with the lock. -/
theorem putStep_changing {element : α} {pc : PutPc} (hpc : s.threads t = .put element pc)
    (h' : ((s.putStep t element pc).threads t).changing = true) :
    (s.threads t).changing = true ∨ s.Entering t := by
  cases pc with
  | lock =>
      simp only [State.putStep, State.acquire] at h'
      split at h'
      · next hlock =>
          right
          rw [State.Entering, hpc]
          exact hlock
      · exact .inl h'
  | push node =>
      simp only [State.putStep, State.goto, update_self] at h'
      cases h'
  | _ =>
      left
      rw [hpc]
      rfl

theorem popStep_not_changing (node : Nat) {after : GetPc} (hafter : ∀ pc, after ≠ .removing pc) :
    ((s.popStep t node (.get after)).threads t).changing = false := by
  unfold State.popStep
  split <;> simp only [State.goto, update_self]
  · rfl
  · cases after with
    | removing pc => exact absurd rfl (hafter pc)
    | _ => rfl

theorem getStep_changing (random : Nat) {pc : GetPc} (hpc : s.threads t = .get pc)
    (h' : ((s.getStep t random pc).threads t).changing = true) :
    (s.threads t).changing = true ∨ s.Entering t := by
  cases pc with
  | own | pop =>
      simp only [State.getStep] at h'
      rw [popStep_not_changing _ (by rintro _ ⟨⟩)] at h'
      cases h'
  | firstEntry | secondEntry =>
      simp only [State.getStep] at h'
      split at h'
      all_goals
        simp only [State.goto, update_self] at h'
        cases h'
  | removing pc =>
      left
      rw [hpc]
      rfl
  | alive round i index node =>
      cases halive : (s.container.nodes node).alive with
      | true =>
          simp only [State.getStep, State.goto, update_self, halive] at h'
          cases h'
      | false =>
          right
          rw [State.Entering, hpc]
          exact halive
  | loadVersion | arrayLength =>
      simp only [State.getStep, State.goto, update_self] at h'
      cases h'
  | testLength | loadStart | firstLength | firstIndex | compareVersion | secondLength
  | secondIndex | tailState =>
      simp only [State.getStep, State.goto, update_self] at h'
      split at h' <;> cases h'

theorem deregisterStep_changing {node : Nat} {pc : DeregisterPc}
    (hpc : s.threads t = .deregister node pc)
    (h' : ((s.deregisterStep t node pc).threads t).changing = true) :
    (s.threads t).changing = true ∨ s.Entering t := by
  cases pc with
  | lock =>
      simp only [State.deregisterStep, State.acquire] at h'
      split at h'
      · next hlock =>
          right
          rw [State.Entering, hpc]
          exact hlock
      · exact .inl h'
  | removing pc =>
      left
      rw [hpc]
      rfl
  | turnOff | unlock =>
      simp only [State.deregisterStep, State.release, State.goto, update_self] at h'
      cases h'
  | empty | loadLength | loadEntry =>
      simp only [State.deregisterStep, State.goto, update_self] at h'
      split at h' <;> cases h'

/-- A thread that is inside a change was so before, or begins it with an
access that `Entering` names. -/
theorem changing_step {l : Label τ α} (hnext : s.next l = some s')
    (h' : (s'.threads l.actor).changing = true) : (s.threads l.actor).changing = true ∨
      ∃ random, l = .step l.actor random ∧ s.Entering l.actor := by
  cases l with
  | call t op =>
      obtain ⟨_, rfl⟩ := State.next_call hnext
      rw [Label.actor, call_not_changing] at h'
      cases h'
  | step t random =>
      have hentering (h : (s.threads t).changing = true ∨ s.Entering t) :
          (s.threads t).changing = true ∨
            ∃ random', (Label.step t random : Label τ α) = .step t random' ∧ s.Entering t :=
        h.imp_right fun hentering => ⟨random, rfl, hentering⟩
      rcases State.next_step hnext with ⟨_, _, hpc, rfl⟩ | ⟨_, hpc, rfl⟩ | ⟨_, _, hpc, rfl⟩
      · exact hentering (putStep_changing hpc h')
      · exact hentering (getStep_changing random hpc h')
      · exact hentering (deregisterStep_changing hpc h')
  | ret t =>
      obtain ⟨_, _, rfl⟩ := State.next_ret hnext
      simp only [State.goto, Label.actor, update_self] at h'
      cases h'

end Libni.Distributed
