import Libni.Logging.Shutdown

/-!
A `LogWorker` over any sequence of calls of `start` and `stop`. The flag
`m_stopping`, the futex word and the channels are carried from one cycle into the
next; the locals of `run` are new with every thread.
-/

namespace Libni.Logging

open Function Libni.Transition Libni.Transition.System

/-- `thread` tells whether `m_thread` names a thread. The service is the same
object in all cycles. -/
structure Lifecycle (τ ι : Type*) where
  service : Service τ ι
  thread : Bool

/-- `start` and `stop` of the worker, and the steps of a started service. -/
inductive LifecycleLabel (τ ι : Type*) where
  | start
  | stop
  | inside (label : Label τ ι)
  deriving DecidableEq

section Step

variable {τ ι : Type*} [DecidableEq τ] [DecidableEq ι]

omit [DecidableEq τ] [DecidableEq ι] in
/-- `start` asserts that there is no thread. It stores to no field but
`m_thread`, so the flag `m_stopping` is what the last cycle has left. -/
def Lifecycle.start (s : Lifecycle τ ι) : Option (Lifecycle τ ι) :=
  if s.thread then none
  else some {
    service := { s.service with
      worker := .collecting
      spins := 0
      errno := .other
      stopper := .notCalled
      atStop := [] }
    thread := true }

omit [DecidableEq τ] [DecidableEq ι] in
/-- `stop` does nothing without a thread. -/
def Lifecycle.stop (s : Lifecycle τ ι) : Option (Lifecycle τ ι) :=
  if s.thread then s.service.stop.map fun v => { s with service := v } else some s

def Lifecycle.next (c : Config ι) (s : Lifecycle τ ι) :
    LifecycleLabel τ ι → Option (Lifecycle τ ι)
  | .start => s.start
  | .stop => s.stop
  -- the calls of `stop` are those above
  | .inside .stop => none
  -- `stop` clears `m_thread` after the join
  | .inside .stopStep => s.service.stopStep.map fun v =>
      { service := v, thread := s.thread && decide (v.stopper ≠ .returned) }
  | .inside l => (s.service.next c l).map fun v => { s with service := v }

omit [DecidableEq τ] [DecidableEq ι] in
def Lifecycle.initial : Lifecycle τ ι where
  service := { Service.initial with worker := .returned, stopper := .returned }
  thread := false

variable (τ) in
def lifecycle (c : Config ι) : System (Lifecycle τ ι) (LifecycleLabel τ ι) where
  init s := s = Lifecycle.initial
  next := Lifecycle.next c

omit [DecidableEq τ] [DecidableEq ι] in
/-- `start` finds `m_stopping` false: no thread has been stopped before. This
is a condition on the state in which `start` is called. -/
def NeverStopped (s : Lifecycle τ ι) : LifecycleLabel τ ι → Prop
  | .start => s.service.stopping = false
  | _ => True

instance (s : Lifecycle τ ι) (l : LifecycleLabel τ ι) : Decidable (NeverStopped s l) :=
  match l with
  | .start => inferInstanceAs (Decidable (s.service.stopping = false))
  | .stop | .inside _ => inferInstanceAs (Decidable True)

omit [DecidableEq τ] [DecidableEq ι] in
/-- The `run` begun by the last `start` has not returned before `stop` is
called. -/
def Lifecycle.RunsUntilStopped (s : Lifecycle τ ι) : Prop :=
  s.thread = true → s.service.stopper = .notCalled → s.service.worker ≠ .returned

end Step

section Invariant

variable {τ ι : Type*} {s s' : Lifecycle τ ι}

/-- While there is a thread, a set flag means that it has been told to stop. -/
def Lifecycle.Told (s : Lifecycle τ ι) : Prop := s.thread = true → Stopped s.service

theorem Lifecycle.Told.start (hguard : s.service.stopping = false)
    (hnext : s.start = some s') : s'.Told := by
  intro _
  unfold Lifecycle.start at hnext
  split at hnext <;> cases hnext
  constructor
  · intro m hm
    cases hm
  · intro hset
    rw [hguard] at hset
    cases hset
  · intro hworker
    cases hworker
  · intro hjoined
    cases hjoined

variable [DecidableEq τ] [DecidableEq ι] {c : Config ι}

theorem Lifecycle.Told.inside (h : s.Told) {l : Label τ ι}
    (hnext : s.next c (.inside l) = some s') : s'.Told := by
  cases l with
  | stop => cases hnext
  | stopStep =>
      obtain ⟨v, hstep, rfl⟩ := Option.map_eq_some_iff.mp hnext
      intro hthread
      exact (h (Bool.and_eq_true_iff.mp hthread).1).next (c := c) (l := .stopStep) hstep
  | log | step | work | interrupt | spurious | setErrno =>
      obtain ⟨v, hstep, rfl⟩ := Option.map_eq_some_iff.mp hnext
      intro hthread
      exact (h hthread).next hstep

theorem Lifecycle.Told.next (h : s.Told) {l : LifecycleLabel τ ι} (hguard : NeverStopped s l)
    (hnext : s.next c l = some s') : s'.Told := by
  cases l with
  | start => exact .start hguard hnext
  | stop =>
      simp only [Lifecycle.next, Lifecycle.stop] at hnext
      split at hnext
      · next hthread =>
          obtain ⟨v, hstop, rfl⟩ := Option.map_eq_some_iff.mp hnext
          intro _
          exact (h hthread).next (c := c) (l := .stop) hstop
      · cases hnext
        exact h
  | inside l => exact h.inside hnext

end Invariant

section Main

variable {τ ι : Type*} [DecidableEq τ] [DecidableEq ι] {c : Config ι}

/-- As long as no worker is started that has been stopped before, every `run`
goes on until `stop` is called. The source never clears `m_stopping`, so a
second `start` is outside this. -/
theorem runs_until_stopped {s : Lifecycle τ ι} {ls : List (LifecycleLabel τ ι)}
    (hrun : (lifecycle τ c).Run NeverStopped ls s) : s.RunsUntilStopped := by
  have h : s.Told := by
    refine hrun.invariant ?_ fun _ _ _ h hguard hnext => h.next hguard hnext
    rintro _ rfl hthread
    cases hthread
  intro hthread hcalled hreturned
  have hstopped := h hthread
  exact hstopped.called (hstopped.worker hreturned) hcalled

/-- A worker is started, saves a message and is stopped. -/
def firstCycle : List (LifecycleLabel Unit Unit) :=
  .start :: (savedRun.map .inside ++ [LifecycleLabel.stop, .inside .stopStep, .inside .stopStep] ++
    List.replicate 4 (LifecycleLabel.inside .work) ++ [LifecycleLabel.inside .stopStep])

/-- The state after the `start` and the first message. -/
def startedState : Lifecycle Unit Unit :=
  ((lifecycle Unit retrying).exec NeverStopped .initial
    (.start :: savedRun.map .inside)).get (by decide +kernel)

theorem runs_until_stopped_startedState :
    startedState.thread = true ∧ startedState.RunsUntilStopped := by
  have hrun : (lifecycle Unit retrying).Run NeverStopped (.start :: savedRun.map .inside)
      startedState := run_of_exec rfl _
  exact ⟨by decide +kernel, runs_until_stopped hrun⟩

/-- A second `start` and one pass over the channels, and then a message that
is pushed and notified. -/
def secondCycle : List (LifecycleLabel Unit Unit) :=
  firstCycle ++ .start :: List.replicate 4 (.inside .work) ++
    .inside (.log () ()) :: List.replicate 2 (.inside (.step ()))

def restartedState : Lifecycle Unit Unit :=
  ((lifecycle Unit retrying).exec Free .initial secondCycle).get (by decide +kernel)

/-- The second `run` has returned with no call of `stop`, and a message whose
`log` has returned waits in its channel. -/
theorem restarted_returns :
    (lifecycle Unit retrying).Run Free secondCycle restartedState ∧
      (restartedState.thread = true ∧ restartedState.service.stopper = .notCalled) ∧
      ⟨(), 1, ()⟩ ∈ restartedState.service.returned ∧
      ⟨(), 1, ()⟩ ∈ restartedState.service.queue () ∧ ¬ restartedState.RunsUntilStopped := by
  have hthread : restartedState.thread = true := by decide +kernel
  have hcalled : restartedState.service.stopper = .notCalled := by decide +kernel
  have hworker : restartedState.service.worker = .returned := by decide +kernel
  refine ⟨run_of_exec rfl _, ⟨hthread, hcalled⟩, by decide +kernel, by decide +kernel, ?_⟩
  intro h
  exact h hthread hcalled hworker

end Main

end Libni.Logging
