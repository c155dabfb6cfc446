import Libni.Distributed.Frame
import Libni.Sync.SpinLock

/-!
The lock of the container. `put` registers a thread and `deregister_thread` removes a
backend under it, and every change of the lock is an operation of the mutex. So these
parts exclude each other in all runs, also in those in which `get` calls
`remove_backend` in between or a thread has stopped for good.
-/

namespace Libni.Distributed

open Function Libni.Transition Libni.Transition.System
open Libni.Sync (mutex)

section Locking

variable {τ α : Type*}

/-- The thread is in a part of `put` or `deregister_thread` that holds the
lock. -/
def Local.locking : Local α → Bool
  | .put _ pc => pc.registering
  | .deregister _ (.removing _) | .deregister _ .unlock => true
  | _ => false

/-- Whoever is in a locked part holds the lock. The converse need not hold, as
a thread may stop for good inside one. -/
def State.Locking (s : State τ α) : Prop :=
  ∀ t, (s.threads t).locking = true → s.lock = some t

variable [DecidableEq τ] {s s' : State τ α} {t : τ}

/-- A step of thread `t` as the lock sees it: it enters no locked part, or it
changes the lock as the mutex does. -/
inductive Locks (s s' : State τ α) (t : τ) : Prop
  | keep (hlock : s'.lock = s.lock)
      (hin : (s'.threads t).locking = true → (s.threads t).locking = true)
  | lock (hlock : mutex.apply s.lock (t, .lock) .locked s'.lock)
  | unlock (hlock : mutex.apply s.lock (t, .unlock) .unlocked s'.lock)
      (hout : (s'.threads t).locking = false)

/-- A thread that moves on without the lock enters no locked part. -/
theorem Locks.goto {l : Local α} (hl : l.locking = true → (s.threads t).locking = true) :
    Locks s (s.goto t l) t :=
  .keep rfl fun hin => hl (by simpa only [State.goto, update_self] using hin)

/-- A thread may leave a locked part without the lock being given back, which
is how a fault inside one looks. -/
theorem Locks.leave {l : Local α} (hl : l.locking = false) : Locks s (s.goto t l) t :=
  .goto fun hin => absurd (hl.symm.trans hin) Bool.false_ne_true

/-- An attempt to take the lock changes nothing, or the mutex grants it. -/
theorem Locks.acquire (l : Local α) : Locks s (s.acquire t l) t := by
  unfold State.acquire
  split
  · next hnone => exact .lock ⟨hnone, rfl⟩
  · exact .keep rfl id

theorem Locks.release (h : s.Locking) (hin : (s.threads t).locking = true) {l : Local α}
    (hl : l.locking = false) : Locks s (s.release t l) t :=
  .unlock ⟨h t hin, rfl⟩ (by simpa only [State.release, State.goto, update_self] using hl)

/-- Every access of `put` keeps to the mutex; the unlock is one by the holder. -/
theorem putStep_locks (h : s.Locking) {element : α} {pc : PutPc}
    (hpc : s.threads t = .put element pc) : Locks s (s.putStep t element pc) t := by
  have hkeep (hin : pc.registering = true) (hlock : (s.putStep t element pc).lock = s.lock) :
      Locks s (s.putStep t element pc) t := by
    refine .keep hlock fun _ => ?_
    rw [hpc]
    exact hin
  cases pc with
  | lock => exact .acquire _
  | push node => exact .keep rfl fun hin => by simp [State.putStep, State.goto, Local.locking] at hin
  | unlock node =>
      have hin : (s.threads t).locking = true := by rw [hpc]; rfl
      cases node with
      | none => exact .release h hin rfl
      | some node => exact .release h hin rfl
  | sweepEntry i | sweepEntryAgain i =>
      refine hkeep rfl ?_
      simp only [State.putStep]
      split <;> rfl
  | _ => exact hkeep rfl rfl

theorem getStep_locks {random : Nat} {pc : GetPc} :
    Locks s (s.getStep t random pc) t := by
  have hpop (node : Nat) {l : Local α} (hl : l.locking = false) : Locks s (s.popStep t node l) t := by
    unfold State.popStep
    split
    · exact .keep rfl fun hin => by simp [State.goto, Local.locking] at hin
    · exact .leave hl
  cases pc with
  | own node => exact hpop node rfl
  | pop round i index node => exact hpop node rfl
  | removing pc =>
      refine .keep rfl fun hin => ?_
      simp only [State.getStep, State.remove, State.goto, update_self] at hin
      cases hr : (removeStep s.container pc).2 <;> simp [hr, Local.locking] at hin
  | firstEntry round i index | secondEntry round i index =>
      simp only [State.getStep]
      split <;> exact .leave rfl
  | testLength | loadStart | firstIndex | secondLength | secondIndex =>
      simp only [State.getStep]
      split <;> exact .leave rfl
  | _ => exact .leave rfl

theorem deregisterStep_locks (h : s.Locking) {node : Nat} {pc : DeregisterPc}
    (hpc : s.threads t = .deregister node pc) : Locks s (s.deregisterStep t node pc) t := by
  cases pc with
  | lock i => exact .acquire _
  | unlock => exact .release h (by rw [hpc]; rfl) rfl
  | removing pc => exact .keep rfl fun _ => by rw [hpc]; rfl
  | turnOff => exact .keep rfl fun hin => by simp [State.deregisterStep, State.goto, Local.locking] at hin
  | empty | loadLength i =>
      simp only [State.deregisterStep]
      split <;> exact .leave rfl
  | loadEntry i =>
      simp only [State.deregisterStep]
      split <;> exact .leave rfl

/-- Every step of the container keeps to the mutex, whichever operation it
belongs to. -/
theorem next_locks (h : s.Locking) {l : Label τ α} (hnext : s.next l = some s') :
    Locks s s' l.actor := by
  cases l with
  | call t op =>
      obtain ⟨-, rfl⟩ := State.next_call hnext
      cases op with
      | put element =>
          simp only [State.call]
          cases s.ptr t <;> exact .leave rfl
      | get =>
          simp only [State.call]
          cases s.ptr t <;> exact .leave rfl
      | deregister =>
          simp only [State.call]
          split
          · exact .leave rfl
          · exact .keep rfl fun hin => by simp [Label.actor, State.goto, Local.locking] at hin
  | step t random =>
      rcases State.next_step hnext with ⟨_, _, hpc, rfl⟩ | ⟨_, hpc, rfl⟩ | ⟨_, _, hpc, rfl⟩
      · exact putStep_locks h hpc
      · exact getStep_locks
      · exact deregisterStep_locks h hpc
  | ret t =>
      obtain ⟨_, -, rfl⟩ := State.next_ret hnext
      exact .leave rfl

theorem State.Locking.next (h : s.Locking) {l : Label τ α} (hnext : s.next l = some s') :
    s'.Locking := by
  obtain ⟨l', hthreads⟩ := next_threads hnext
  have hothers (u : τ) (hu : u ≠ l.actor) (hin : (s'.threads u).locking = true) :
      s.lock = some u := by
    rw [hthreads, update_of_ne hu] at hin
    exact h u hin
  intro u hin
  by_cases hu : u = l.actor
  · subst hu
    cases next_locks h hnext with
    | keep hlock hkept => rw [hlock]; exact h _ (hkept hin)
    | lock hlock => exact hlock.2
    | unlock _ hout => rw [hout] at hin; cases hin
  · have hold := hothers u hu hin
    cases next_locks h hnext with
    | keep hlock _ => rw [hlock]; exact hold
    | lock hlock => rw [hlock.1] at hold; cases hold
    | unlock hlock _ =>
        rw [hlock.1] at hold
        exact absurd (Option.some.inj hold).symm hu

end Locking

section Main

variable {τ α : Type*} [DecidableEq τ] {capacity : Nat} {hcap : capacity < 2 ^ 64}

/-- The locked parts of `put` and `deregister_thread` exclude each other in
every run, and whatever a thread does next, the lock changes as the mutex
allows it to that thread. -/
theorem locked_parts_exclusive {s : State τ α} {ls : List (Label τ α)}
    (hrun : (distributed τ α capacity hcap).Run Free ls s) :
    (∀ t u, (s.threads t).locking = true → (s.threads u).locking = true → t = u) ∧
      ∀ l s', s.next l = some s' → s'.lock = s.lock ∨
        mutex.apply s.lock (l.actor, .lock) .locked s'.lock ∨
          mutex.apply s.lock (l.actor, .unlock) .unlocked s'.lock := by
  have h : s.Locking := by
    refine hrun.invariant (fun u hu => ?_) fun _ _ _ hu _ hnext => State.Locking.next hu hnext
    obtain rfl : u = State.initial τ α capacity hcap := hu
    intro t hin
    cases hin
  refine ⟨fun t u ht hu => ?_, fun l s' hnext => ?_⟩
  · exact Option.some.inj ((h t ht).symm.trans (h u hu))
  · cases next_locks h hnext with
    | keep hlock => exact .inl hlock
    | lock hlock => exact .inr (.inl hlock)
    | unlock hlock => exact .inr (.inr hlock)

/-- Thread 0 has the lock, and thread 1 tries to take it. -/
def lockingRun : List (Label (Fin 2) Nat) :=
  [.call 0 (.put 5), .call 1 (.put 6), .step 0 0, .step 1 0, .step 0 0]

def lockingState : State (Fin 2) Nat :=
  ((distributed (Fin 2) Nat 1 (by decide)).exec Free (.initial (Fin 2) Nat 1 (by decide))
    lockingRun).get (by decide)

theorem locked_parts_exclusive_lockingRun :
    (lockingState.threads 0).locking = true ∧ (lockingState.threads 1).locking = false := by
  have hrun : (distributed (Fin 2) Nat 1 (by decide)).Run Free lockingRun lockingState :=
    run_of_exec rfl _
  have hfirst : (lockingState.threads 0).locking = true := by decide
  refine ⟨hfirst, Bool.eq_false_iff.mpr fun hsecond => ?_⟩
  exact absurd ((locked_parts_exclusive hrun).1 0 1 hfirst hsecond) (by decide)

end Main

end Libni.Distributed
