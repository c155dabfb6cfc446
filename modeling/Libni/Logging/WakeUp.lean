import Libni.Logging.Delivery

/-!
Who wakes the worker. A `notify` that finds the futex word set returns at once and
relies on the one that set it. While the worker sleeps it may do so: whoever has set
the word since the worker stored 0 in it is about to call `wake`.
-/

namespace Libni.Logging

open Function Libni.Transition Libni.Transition.System

section WakeDue

variable {τ ι : Type*} [DecidableEq τ] {c : Config ι} {s s' : Service τ ι} {t : τ}
  {m : Message τ ι}

/-- Some `notify`, of a thread or of `stop`, has set the futex word and is yet
to call `wake`. -/
def Service.WakeDue (s : Service τ ι) : Prop :=
  (∃ t m, s.threads t = .notify m .wake) ∨ s.stopper = .notify .wake

/-- A worker asleep over a word that is set is owed a `wake`. The word was 0
when the worker fell asleep, so that an exchange has set it since, and the
`wake` that follows this exchange ends the sleep. -/
def Woken (s : Service τ ι) : Prop :=
  s.worker = .asleep → s.futex = true → s.WakeDue

theorem Service.WakeDue.thread_moves (h : s.WakeDue) {l : LogPc τ ι}
    (hpc : ∀ m, s.threads t ≠ .notify m .wake) (hthreads : s'.threads = update s.threads t l)
    (hstopper : s'.stopper = s.stopper) : s'.WakeDue := by
  rcases h with ⟨u, m, hu⟩ | hstop
  · refine .inl ⟨u, m, ?_⟩
    have hut : u ≠ t := by
      rintro rfl
      exact hpc m hu
    rw [hthreads, update_of_ne hut]
    exact hu
  · exact .inr (hstopper.trans hstop)

omit [DecidableEq τ] in
theorem Service.WakeDue.stopper_moves (h : s.WakeDue) (hpc : s.stopper ≠ .notify .wake)
    (hthreads : s'.threads = s.threads) : s'.WakeDue := by
  rcases h with ⟨u, m, hu⟩ | hstop
  · exact .inl ⟨u, m, by rw [hthreads]; exact hu⟩
  · exact absurd hstop hpc

/-- A thread that is not about to call `wake` moves and touches neither the
word nor the worker. -/
theorem Woken.thread_moves (h : Woken s) {l : LogPc τ ι}
    (hpc : ∀ m, s.threads t ≠ .notify m .wake) (hthreads : s'.threads = update s.threads t l)
    (hstopper : s'.stopper = s.stopper) (hworker : s'.worker = s.worker)
    (hfutex : s'.futex = s.futex) : Woken s' := by
  intro hasleep hset
  rw [hworker] at hasleep
  rw [hfutex] at hset
  exact (h hasleep hset).thread_moves hpc hthreads hstopper

omit [DecidableEq τ] in
/-- An access of `notify` moves the worker only out of its sleep. Anywhere
else a `wake` has no effect and is forgotten. -/
theorem NotifyPc.rouse_cases (pc : NotifyPc) (w : WorkerPc τ ι) :
    pc.rouse w = w ∨ pc = .wake ∧ w = .asleep ∧ pc.rouse w = .woken := by
  cases pc with
  | load | exchange => exact .inl rfl
  | wake =>
      cases w with
      | asleep => exact .inr ⟨rfl, rfl, rfl⟩
      | _ => exact .inl rfl

omit [DecidableEq τ] in
theorem NotifyPc.of_rouse_asleep {pc : NotifyPc} {w : WorkerPc τ ι} (h : pc.rouse w = .asleep) :
    pc ≠ .wake ∧ w = .asleep := by
  rcases pc.rouse_cases w with hsame | ⟨-, -, hwoken⟩
  · obtain rfl : w = .asleep := hsame.symm.trans h
    refine ⟨?_, rfl⟩
    rintro rfl
    cases h
  · cases hwoken.symm.trans h

/-- The exchange that sets the word is the one that owes the `wake`. A
`notify` that finds the word set leaves the debt with another. -/
theorem Woken.notify (h : Woken s) {pc : NotifyPc} (hpc : s.threads t = .notify m pc) :
    Woken (s.notifyStep t m pc) := by
  intro hasleep hset
  obtain ⟨hwake, hold⟩ := NotifyPc.of_rouse_asleep hasleep
  have hnot (n : Message τ ι) : s.threads t ≠ .notify n .wake := by
    rw [hpc]
    intro heq
    injection heq with _ heq
    exact hwake heq
  cases pc with
  | load => exact (h hold hset).thread_moves hnot rfl rfl
  | exchange =>
      cases hword : s.futex with
      | true => exact (h hold hword).thread_moves hnot rfl rfl
      | false => exact .inl ⟨t, m, by simp [Service.notifyStep, NotifyPc.next, hword]⟩
  | wake => exact absurd rfl hwake

omit [DecidableEq τ] in
theorem Woken.stopStep (h : Woken s) (hnext : s.stopStep = some s') : Woken s' := by
  simp only [Service.stopStep] at hnext
  split at hnext
  · next hpc =>
      cases hnext
      exact fun hasleep hset => (h hasleep hset).stopper_moves (by rw [hpc]; simp) rfl
  · next pc hpc =>
      cases hnext
      intro hasleep hset
      obtain ⟨hwake, hold⟩ := NotifyPc.of_rouse_asleep hasleep
      have hnot : s.stopper ≠ .notify .wake := by
        rw [hpc]
        exact fun heq => hwake (StopPc.notify.inj heq)
      cases pc with
      | load => exact (h hold hset).stopper_moves hnot rfl
      | exchange =>
          cases hword : s.futex with
          | true => exact (h hold hword).stopper_moves hnot rfl
          | false => exact .inr (by simp [NotifyPc.next])
      | wake => exact absurd rfl hwake
  · next hpc =>
      split at hnext <;> cases hnext
      exact fun hasleep hset => (h hasleep hset).stopper_moves (by rw [hpc]; simp) rfl
  · cases hnext

theorem Woken.logStep (h : Woken s) (hnext : s.logStep c t = some s') : Woken s' := by
  simp only [Service.logStep] at hnext
  split at hnext <;> cases hnext
  · next m hpc =>
      unfold Service.register
      split
      · exact h.thread_moves (l := .push m) (by rw [hpc]; simp) rfl rfl rfl rfl
      · exact h
  · next m hpc =>
      have hnot (n : Message τ ι) : s.threads t ≠ .notify n .wake := by rw [hpc]; simp
      unfold Service.push
      split
      · exact h.thread_moves (l := .notify m .load) hnot rfl rfl rfl rfl
      · split
        · exact h
        · exact h.thread_moves (l := .idle) hnot rfl rfl rfl rfl
  · next hpc => exact h.notify hpc

variable [DecidableEq ι]

/-- The worker falls asleep only in `futexWait` and over the word 0. The check
and the falling asleep are one step of the kernel. -/
theorem Service.work_asleep (hnext : s.work = some s') (hasleep : s'.worker = .asleep) :
    s.worker = .futexWait ∧ s.futex = false ∧ s' = { s with worker := .asleep } := by
  cases hpc : s.worker with
  | futexWait =>
      simp only [Service.work, hpc] at hnext
      cases hnext
      split at hasleep
      · cases hasleep
      · next hclear => exact ⟨rfl, by simpa using hclear, if_neg hclear⟩
  | collecting =>
      simp only [Service.work, hpc] at hnext
      split at hnext <;> cases hnext <;> cases hasleep
  | scan i hasMessages =>
      simp only [Service.work, hpc, Service.scan] at hnext
      cases hnext
      split at hasleep
      · split at hasleep <;> cases hasleep
      · split at hasleep <;> cases hasleep
  | saving | storeZero =>
      simp only [Service.work, hpc] at hnext
      cases hnext
      cases hasleep
  | loadStopping =>
      simp only [Service.work, hpc] at hnext
      cases hnext
      split at hasleep
      · cases hasleep
      · split at hasleep <;> cases hasleep
  | woken =>
      simp only [Service.work, hpc] at hnext
      cases hnext
      split at hasleep <;> cases hasleep
  | asleep | returned =>
      simp only [Service.work, hpc] at hnext
      cases hnext

theorem Woken.next {l : Label τ ι} (h : Woken s) (hnext : s.next c l = some s') :
    Woken s' := by
  cases l with
  | log t i =>
      simp only [Service.next, Service.log] at hnext
      split at hnext <;> cases hnext
      next hpc => exact h.thread_moves (by rw [hpc]; simp) rfl rfl rfl rfl
  | step t => exact h.logStep hnext
  | stop =>
      simp only [Service.next, Service.stop] at hnext
      split at hnext <;> cases hnext
      next hpc => exact fun hasleep hset => (h hasleep hset).stopper_moves (by rw [hpc]; simp) rfl
  | stopStep => exact h.stopStep hnext
  | work =>
      intro hasleep hset
      obtain ⟨-, hclear, rfl⟩ := Service.work_asleep hnext hasleep
      cases hclear.symm.trans hset
  | interrupt | spurious =>
      simp only [Service.next] at hnext
      split at hnext <;> cases hnext
      exact fun hasleep => by cases hasleep
  | setErrno e =>
      simp only [Service.next] at hnext
      split at hnext <;> cases hnext
      exact h

theorem Woken.of_reach {guard : Service τ ι → Label τ ι → Prop}
    (hreach : (system τ c).Reach guard s) : Woken s := by
  refine hreach.invariant ?_ fun _ _ _ h _ hnext => h.next hnext
  rintro _ rfl
  exact fun hasleep => by cases hasleep

end WakeDue

section SpunOut

variable {τ ι : Type*} [DecidableEq τ] [DecidableEq ι] {c : Config ι}

/-- The worker spins as long as it finds no channel. The run holds for any
guard that lets the worker go on. -/
theorem spinning {guard : Service τ ι → Label τ ι → Prop} (hguard : ∀ u, guard u .work)
    (s : Service τ ι) (hworker : s.worker = .collecting) (hchannels : s.channels = [])
    (hpending : s.pending = []) (hstopping : s.stopping = false) (n : Nat)
    (hn : s.spins + n ≤ maxSpins) :
    ∃ ls, (system τ c).Steps guard s ls { s with spins := s.spins + n } := by
  induction n with
  | zero => exact ⟨[], .refl⟩
  | succ n ih =>
      obtain ⟨ls, hsteps⟩ := ih (by omega)
      have hlt : s.spins + n < maxSpins := by omega
      let spun : Service τ ι := { s with spins := s.spins + n }
      have hscan : (system τ c).next spun .work = some { spun with worker := .scan 0 false } := by
        simp [spun, system, Service.next, Service.work, hworker, hpending]
      have hload : (system τ c).next { spun with worker := .scan 0 false } .work =
          some { spun with worker := .loadStopping } := by
        simp [spun, system, Service.next, Service.work, Service.scan, hchannels]
      have hspin : (system τ c).next { spun with worker := .loadStopping } .work =
          some { s with spins := s.spins + (n + 1) } := by
        simp [spun, system, Service.next, Service.work, hstopping, hlt, hworker, Nat.add_assoc]
      exact ⟨_, ((hsteps.snoc (hguard _) hscan).snoc (hguard _) hload).snoc (hguard _) hspin⟩

/-- A service whose worker has spun as long as it may. -/
def spunOut : Service Bool Unit := { Service.initial with spins := maxSpins }

theorem spunOut_reach {guard : Service Bool Unit → Label Bool Unit → Prop}
    (hguard : ∀ u, guard u .work) (c : Config Unit) : (system Bool c).Reach guard spunOut := by
  obtain ⟨ls, hsteps⟩ := spinning (c := c) hguard (Service.initial : Service Bool Unit)
    rfl rfl rfl rfl maxSpins (Nat.le_of_eq (Nat.zero_add _))
  exact (Reach.of_init rfl).trans hsteps

/-- One logger that drops, with channels for one message. -/
def dropping : Config Unit := ⟨fun _ => .dropMessage, 1⟩

end SpunOut

end Libni.Logging
