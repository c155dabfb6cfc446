import Libni.MSQueue.Effects

/-!
Linearizability of the Michael-Scott queue against a family of FIFO queues:
the steps of every thread are traced back to calls, effects and returns of the
atomic object.
-/

namespace Libni.MSQueue

open Function Libni.Transition Libni.Transition.System

variable {κ τ α : Type*} [DecidableEq κ] [DecidableEq τ] [DecidableEq α]

theorem threads_of_ne {s s' : State κ τ α} {l : Label κ τ α} {t : τ}
    (hnext : (system κ τ α).next s l = some s') (ht : t ≠ l.actor) :
    s'.threads t = s.threads t := by
  cases l with
  | call u op =>
      obtain ⟨_, rfl⟩ := next_call hnext
      exact update_of_ne ht _ _
  | step u fresh spurious =>
      obtain ⟨_, _, _, rfl⟩ := next_step hnext
      exact update_of_ne ht _ _
  | ret u result =>
      obtain ⟨_, rfl⟩ := next_ret hnext
      exact update_of_ne ht _ _

/-- A step of the system changes memory as classified, for the thread acting.
Calls and returns do not change it. -/
theorem change_of_next {s s' : State κ τ α} {l : Label κ τ α} (h : Inv s)
    (hguard : NotHeld s l) (hnext : (system κ τ α).next s l = some s') :
    ∃ fresh, Change fresh s.mem (s.threads l.actor) (s'.threads l.actor) s'.mem := by
  cases l with
  | call t op =>
      obtain ⟨hidle, rfl⟩ := next_call hnext
      refine ⟨0, .same ?_ ?_⟩
      · simp only [Label.actor, update_self, hidle, start_node]
        rfl
      · simp only [Label.actor, update_self, hidle, start_owned]
        rfl
  | step t fresh spurious =>
      obtain ⟨m', l', hstep, rfl⟩ := next_step hnext
      refine ⟨fresh, ?_⟩
      simpa only [Label.actor, update_self] using (localStep_ok ⟨h.shape, h.owner t,
        h.facts t, h.held_used t, fun hl => hguard hl t⟩ hstep).change
  | ret t result =>
      obtain ⟨hdone, rfl⟩ := next_ret hnext
      refine ⟨0, .same ?_ ?_⟩ <;> simp only [Label.actor, update_self, hdone] <;> rfl

omit [DecidableEq κ] [DecidableEq α] in
theorem pending_of_start {m : Mem κ α} {op : Op κ α} {st : Status (Op κ α) (Res α)}
    (hopen : (start op).Open m st) : st = .pending op := by
  cases op <;> exact hopen

/-- The queues do nothing that the atomic object does not: every reading of
all statuses after a step comes from one before it, with at most one effect in
between. -/
theorem refines : (client κ τ α).Refines NotHeld Inv (fifo κ α) where
  inv_init _ := Initial.inv
  inv_step _ _ _ := Inv.step
  value_init s hinit q := by
    have hs := hinit.inv.shape
    apply hs.contents_nil
    rw [Mem.nextAddr, hinit.next_null]
    rfl
  idle_init s t st hinit hopen := by
    have hopen : (s.threads t).Open s.mem st := hopen
    rw [hinit.idle t] at hopen
    exact hopen
  some_open s t _ := by
    change ∃ st, (s.threads t).Open s.mem st
    generalize s.threads t = l
    cases l with
    | idle | tailState | done => exact ⟨_, rfl⟩
    | push q pc => cases pc <;> exact ⟨_, rfl⟩
    | tryPush q pc => cases pc <;> exact ⟨_, rfl⟩
    | pop q arg e hs pc => cases pc <;> first | exact ⟨_, rfl⟩ | exact ⟨_, Or.inl rfl⟩
    | tryPop q arg e s hs pc => cases pc <;> exact ⟨_, rfl⟩
    | empty q pc => cases pc <;> first | exact ⟨_, rfl⟩ | exact ⟨_, Or.inl rfl⟩
  frame s l s' t st h hguard hnext ht hopen := by
    obtain ⟨fresh, hc⟩ := change_of_next h hguard hnext
    have hopen : (s'.threads t).Open s'.mem st := hopen
    rw [threads_of_ne hnext ht] at hopen
    exact hc.open_back h.shape (h.owner t) (h.facts t) hopen
  back s l s' st' h hguard hnext hopen := by
    cases l with
    | call t op =>
        obtain ⟨hidle, rfl⟩ := next_call hnext
        obtain rfl : st' = .pending op := by
          apply pending_of_start
          simpa only [client, Label.actor, update_self] using hopen
        exact ⟨.idle, by change (s.threads t).Open _ _; rw [hidle]; rfl, .call _ op⟩
    | step t fresh spurious =>
        obtain ⟨m', l', hstep, rfl⟩ := next_step hnext
        refine localStep_back ⟨h.shape, h.owner t, h.facts t, h.held_used t,
          fun hl => hguard hl t⟩ hstep ?_
        simpa [client, Label.actor] using hopen
    | ret t result =>
        obtain ⟨hdone, rfl⟩ := next_ret hnext
        have hst : st' = .idle := by
          simpa [client, Label.actor, Local.Open] using hopen
        subst hst
        exact ⟨.done result, by change (s.threads t).Open _ _; rw [hdone]; rfl, .ret _ result⟩

/-- Every history of any number of queues whose memory is never reused is a
history of FIFO queues: each operation takes effect at one instant between its
call and its return. Weak exchanges may fail spuriously as often as they like. -/
theorem msQueue_linearizable {s : State κ τ α} {ls : List (Label κ τ α)}
    (hrun : (system κ τ α).Run NeverReused ls s) :
    LinearizesTo (fifo κ α) ((client κ τ α).history ls) s.mem.contents :=
  refines.linearizesTo (run_of_neverReused hrun)

/-- Two threads on one queue: the push fails spuriously once and is delayed
before it moves the tail, so the pop moves it first. -/
def overlappingRun : List (Label (Fin 1) Bool Nat) :=
  [.call false (.push 0 7), .step false 2 false, .call true (.pop 0 0 none),
    .step true 0 false, .step true 0 false, .step false 0 false, .step false 0 false,
    .step false 0 false, .step false 0 true, .step false 0 false, .step false 0 false,
    .step false 0 false, .step false 0 false, .step true 0 false, .step true 0 false,
    .step true 0 false, .step true 0 false, .step true 0 false, .step true 0 false,
    .step true 0 false, .step true 0 false, .step true 0 false, .step true 0 false,
    .ret true (.popped true 7 none), .step false 0 false, .ret false (.pushed true)]

theorem msQueue_linearizable_overlappingRun : ∃ s : State (Fin 1) Bool Nat,
    (system (Fin 1) Bool Nat).Run NeverReused overlappingRun s ∧
      LinearizesTo (fifo (Fin 1) Nat)
        [.call false (.push 0 7), .call true (.pop 0 0 none),
          .ret true (.popped true 7 none), .ret false (.pushed true)] s.mem.contents := by
  have haccepted : ((system (Fin 1) Bool Nat).exec NeverReused
      (constructed 1 0) overlappingRun).isSome = true := by decide +kernel
  have hrun := run_of_exec (initial_constructed 1 0) haccepted
  exact ⟨_, hrun, msQueue_linearizable hrun⟩

end Libni.MSQueue
