import Libni.Transition.Progress
import Libni.Logging.WakeUp

/-!
How long `stop` takes. Once `m_stopping` is set, the messages still to be saved and
the channels still to be collected bound what the worker has left to do, and every
`wake` costs it two accesses at most. It cannot sleep for good, unless the flag was
set while it was about to store 0 in the futex word: that store forgets the `notify`
of `stop`.
-/

namespace Libni.Logging

open Function Finset Libni.Transition Libni.Transition.System

section Measure

variable {τ ι : Type*}

/-- The accesses that `notify` has left at most. -/
def NotifyPc.left : NotifyPc → Nat
  | .load => 3
  | .exchange => 2
  | .wake => 1

/-- An access of a thread counts for three, since its `wake` may cost the
worker two. -/
def LogPc.left : LogPc τ ι → Nat
  | .idle => 0
  | .register _ => 15
  | .push _ => 12
  | .notify _ pc => 3 * pc.left

def LogPc.toRegister : LogPc τ ι → Nat
  | .register _ => 1
  | _ => 0

def LogPc.toPush : LogPc τ ι → Nat
  | .register _ | .push _ => 1
  | _ => 0

def StopPc.left : StopPc → Nat
  | .notCalled => 12
  | .storeStopping => 11
  | .notify pc => 3 * pc.left + 1
  | .join => 1
  | .returned => 0

/-- What the worker does before it has gone through the given number of
channels, if it finds no message, and all of them again if it has found one. -/
def WorkerPc.left (round channels : Nat) (errno : Errno) : WorkerPc τ ι → Nat
  | .collecting => round
  | .scan i false => channels - i + 2
  | .scan i true => channels - i + 1 + round
  | .saving i _ => channels - (i + 1) + 2 + round
  | .loadStopping => 1
  | .storeZero => round + 3
  | .futexWait => round + 2
  | .asleep => round + 1
  -- a success with an old `EINTR` leads back to the futex
  | .woken => if errno = .intr then round + 3 else round + 1
  | .returned => 0

theorem WorkerPc.left_rouse (round channels : Nat) (errno : Errno) (w : WorkerPc τ ι)
    (pc : NotifyPc) :
    (pc.rouse w).left round channels errno ≤ w.left round channels errno + 2 := by
  cases pc with
  | load | exchange => exact Nat.le_add_right _ _
  | wake =>
      cases w <;> simp only [NotifyPc.rouse, WorkerPc.left, reduceCtorEq, if_false, if_true] <;>
        (try split) <;> omega

variable [Fintype τ]

/-- The channels not collected yet, and those of threads about to register. -/
def Service.toCollect (s : Service τ ι) : Nat :=
  s.pending.length + ∑ t, (s.threads t).toRegister

/-- The channels the worker will have collected in the end. -/
def Service.toVisit (s : Service τ ι) : Nat := s.channels.length + s.toCollect

/-- The messages in the channels, and those of threads about to push. -/
def Service.toSave (s : Service τ ι) : Nat :=
  ∑ t, ((s.queue t).length + (s.threads t).toPush)

def Service.round (s : Service τ ι) : Nat := s.toCollect + s.toVisit + 3

/-- What is left to do before `stop` returns, if the worker is told to. Every
message still to be saved may cost a pass of its own. -/
def Service.left (s : Service τ ι) : Nat :=
  s.toSave * s.round + s.worker.left s.round s.toVisit s.errno +
    ∑ t, (s.threads t).left + s.stopper.left

end Measure

section Worker

variable {τ ι : Type*} [DecidableEq τ] [DecidableEq ι] [Fintype τ] {s s' : Service τ ι}

omit [DecidableEq τ] [DecidableEq ι] in
theorem Service.left_lt {w : WorkerPc τ ι} {errno : Errno} {p : StopPc}
    (hqueue : s'.queue = s.queue) (hpending : s'.pending = s.pending)
    (hchannels : s'.channels = s.channels) (hthreads : s'.threads = s.threads)
    (hworker : s'.worker = w) (herrno : s'.errno = errno) (hstopper : s'.stopper = p)
    (hleft : w.left s.round s.toVisit errno + p.left <
      s.worker.left s.round s.toVisit s.errno + s.stopper.left) :
    s'.left < s.left := by
  have hcollect : s'.toCollect = s.toCollect := by
    rw [Service.toCollect, hpending, hthreads, Service.toCollect]
  have hvisit : s'.toVisit = s.toVisit := by
    rw [Service.toVisit, hchannels, hcollect, Service.toVisit]
  have hround : s'.round = s.round := by rw [Service.round, hcollect, hvisit, Service.round]
  have hsave : s'.toSave = s.toSave := by
    rw [Service.toSave, hqueue, hthreads, Service.toSave]
  rw [Service.left, hsave, hround, hvisit, hthreads, hstopper, hworker, herrno, Service.left]
  omega

omit [DecidableEq τ] [DecidableEq ι] in
/-- A step of the worker that takes no message and collects no channel. -/
theorem Service.left_worker {w : WorkerPc τ ι} {errno : Errno} (hqueue : s'.queue = s.queue)
    (hpending : s'.pending = s.pending) (hchannels : s'.channels = s.channels)
    (hthreads : s'.threads = s.threads) (hstopper : s'.stopper = s.stopper)
    (hworker : s'.worker = w) (herrno : s'.errno = errno)
    (hw : w.left s.round s.toVisit errno < s.worker.left s.round s.toVisit s.errno) :
    s'.left < s.left :=
  Service.left_lt hqueue hpending hchannels hthreads hworker herrno hstopper
    (Nat.add_lt_add_right hw _)

omit [DecidableEq ι] in
/-- A message taken pays for the pass that its finding begins. -/
theorem Service.left_pop {t : τ} {m : Message τ ι} {rest : List (Message τ ι)} {i : Nat}
    {hasMessages : Bool} (hpc : s.worker = .scan i hasMessages) (hi : s.channels[i]? = some t)
    (hqueue : s.queue t = m :: rest) :
    Service.left { s with queue := update s.queue t rest, worker := .saving i m } < s.left := by
  set s' : Service τ ι := { s with queue := update s.queue t rest, worker := .saving i m } with hs'
  have hsave : s.toSave = s'.toSave + 1 := by
    have hsum := sum_add_eq (f := fun u => (s.queue u).length + (s.threads u).toPush)
      (g := fun u => (s'.queue u).length + (s'.threads u).toPush) t fun u hu => by
        simp [hs', update_of_ne hu]
    simp only [hs', update_self, hqueue, List.length_cons] at hsum
    simp only [Service.toSave, hs']
    omega
  have hlt : i < s.toVisit := by
    have := (List.getElem?_eq_some_iff.mp hi).1
    unfold Service.toVisit
    omega
  have hmul : s.toSave * s.round = s'.toSave * s.round + s.round := by
    rw [hsave, Nat.add_mul, Nat.one_mul]
  have hround : 0 < s.round := Nat.succ_pos _
  have hworker : s'.worker.left s.round s.toVisit s.errno <
      s.round + s.worker.left s.round s.toVisit s.errno := by
    rw [hpc]
    cases hasMessages <;> simp only [hs', WorkerPc.left] <;> omega
  change s'.toSave * s.round + s'.worker.left s.round s.toVisit s.errno +
    ∑ t, (s.threads t).left + s.stopper.left < s.left
  unfold Service.left
  omega

omit [DecidableEq τ] [DecidableEq ι] in
/-- A channel collected is counted in a pass before and after, but not for
collecting. -/
theorem Service.left_collect {t : τ} {rest : List τ} (hpc : s.worker = .collecting)
    (hpending : s.pending = t :: rest) :
    Service.left { s with pending := rest, channels := s.channels ++ [t] } < s.left := by
  set s' : Service τ ι := { s with pending := rest, channels := s.channels ++ [t] } with hs'
  have hcollect : s.toCollect = s'.toCollect + 1 := by
    simp only [Service.toCollect, hs', hpending, List.length_cons]
    omega
  have hvisit : s.toVisit = s'.toVisit := by
    rw [Service.toVisit, hcollect, Service.toVisit]
    simp only [hs', List.length_append, List.length_singleton]
    omega
  have hround : s.round = s'.round + 1 := by
    unfold Service.round
    omega
  have hmul : s'.toSave * s'.round ≤ s.toSave * s.round :=
    Nat.mul_le_mul_left _ (by omega)
  have hworker : s'.worker.left s'.round s'.toVisit s'.errno < s.worker.left s.round s.toVisit
      s.errno := by
    simp only [hs', hpc, WorkerPc.left]
    exact Nat.lt_of_lt_of_eq (Nat.lt_succ_self _) hround.symm
  have hrest : ∑ t, (s'.threads t).left = ∑ t, (s.threads t).left := rfl
  have hstop : s'.stopper = s.stopper := rfl
  unfold Service.left
  rw [hrest, hstop]
  omega

/-- Every access of the worker brings the end nearer. It spins no longer,
since the load of `m_stopping` lets it leave. -/
theorem Service.left_work (hstopping : s.stopping = true) (hnext : s.work = some s') :
    s'.left < s.left := by
  cases hpc : s.worker with
  | collecting =>
      simp only [Service.work, hpc] at hnext
      split at hnext
      · next t rest hpending =>
          cases hnext
          simpa only [hpc] using Service.left_collect hpc hpending
      · next hpending =>
          cases hnext
          refine Service.left_worker rfl rfl rfl rfl rfl rfl rfl ?_
          rw [hpc]
          simp only [WorkerPc.left, Service.round]
          omega
  | scan i hasMessages =>
      simp only [Service.work, hpc, Service.scan] at hnext
      cases hnext
      split
      · next t hi =>
          have hlt : i < s.toVisit := by
            have := (List.getElem?_eq_some_iff.mp hi).1
            unfold Service.toVisit
            omega
          split
          · refine Service.left_worker rfl rfl rfl rfl rfl rfl rfl ?_
            rw [hpc]
            cases hasMessages <;> simp only [WorkerPc.left] <;> omega
          · next m rest hqueue => exact Service.left_pop hpc hi hqueue
      · split
        · refine Service.left_worker rfl rfl rfl rfl rfl rfl rfl ?_
          rw [hpc]
          simp only [Service.again, WorkerPc.left, *]
          omega
        · refine Service.left_worker rfl rfl rfl rfl rfl rfl rfl ?_
          rw [hpc]
          simp only [WorkerPc.left, *]
          omega
  | saving i m =>
      simp only [Service.work, hpc] at hnext
      cases hnext
      refine Service.left_worker rfl rfl rfl rfl rfl rfl rfl ?_
      rw [hpc]
      simp only [WorkerPc.left]
      omega
  | loadStopping =>
      simp only [Service.work, hpc, hstopping, if_true] at hnext
      cases hnext
      refine Service.left_worker rfl rfl rfl rfl rfl rfl rfl ?_
      rw [hpc]
      simp [WorkerPc.left]
  | storeZero =>
      simp only [Service.work, hpc] at hnext
      cases hnext
      refine Service.left_worker rfl rfl rfl rfl rfl rfl rfl ?_
      rw [hpc]
      simp only [WorkerPc.left]
      omega
  | futexWait =>
      simp only [Service.work, hpc] at hnext
      cases hnext
      split
      all_goals
        refine Service.left_worker rfl rfl rfl rfl rfl rfl rfl ?_
        rw [hpc]
        simp [WorkerPc.left]
  | woken =>
      simp only [Service.work, hpc] at hnext
      cases hnext
      split
      all_goals
        refine Service.left_worker rfl rfl rfl rfl rfl rfl rfl ?_
        rw [hpc]
        simp [Service.again, WorkerPc.left, *]
  | asleep | returned =>
      simp only [Service.work, hpc] at hnext
      cases hnext

end Worker

section Threads

variable {τ ι : Type*} [DecidableEq τ] [Fintype τ] {c : Config ι} {s s' : Service τ ι} {t : τ}
  {m : Message τ ι} {l : LogPc τ ι}

/-- A step of a thread that adds no message and no channel to those it had
announced. -/
theorem Service.left_thread (hthreads : s'.threads = update s.threads t l)
    (hqueue : ∀ u, u ≠ t → s'.queue u = s.queue u)
    (hpush : (s'.queue t).length + l.toPush ≤ (s.queue t).length + (s.threads t).toPush)
    (hpending : s'.pending.length + l.toRegister = s.pending.length + (s.threads t).toRegister)
    (hchannels : s'.channels = s.channels) (hstopper : s'.stopper = s.stopper)
    (herrno : s'.errno = s.errno)
    (hleft : s'.worker.left s.round s.toVisit s.errno + l.left <
      s.worker.left s.round s.toVisit s.errno + (s.threads t).left) :
    s'.left < s.left := by
  have hsame (u : τ) (hu : u ≠ t) : s'.threads u = s.threads u := by
    rw [hthreads, update_of_ne hu]
  have hself : s'.threads t = l := by rw [hthreads, update_self]
  have hregister := sum_add_eq (f := fun u => (s.threads u).toRegister)
    (g := fun u => (s'.threads u).toRegister) t fun u hu => by rw [hsame u hu]
  have hmessages := sum_add_eq (f := fun u => (s.queue u).length + (s.threads u).toPush)
    (g := fun u => (s'.queue u).length + (s'.threads u).toPush) t fun u hu => by
      rw [hqueue u hu, hsame u hu]
  have hsum := sum_add_eq (f := fun u => (s.threads u).left)
    (g := fun u => (s'.threads u).left) t fun u hu => by rw [hsame u hu]
  simp only [hself] at hregister hmessages hsum
  have hcollect : s'.toCollect = s.toCollect := by
    unfold Service.toCollect
    omega
  have hvisit : s'.toVisit = s.toVisit := by
    rw [Service.toVisit, hchannels, hcollect, Service.toVisit]
  have hround : s'.round = s.round := by rw [Service.round, hcollect, hvisit, Service.round]
  have hsave : s'.toSave * s.round ≤ s.toSave * s.round := by
    refine Nat.mul_le_mul_right _ ?_
    unfold Service.toSave
    omega
  rw [Service.left, hround, hvisit, hstopper, herrno, Service.left]
  omega

theorem Service.left_register (hpc : s.threads t = .register m) :
    (s.register t m).left ≤ s.left := by
  unfold Service.register
  split
  · refine Nat.le_of_lt (Service.left_thread (t := t) (l := .push m) rfl (fun _ _ => rfl) ?_ ?_
      rfl rfl rfl ?_) <;>
      simp [hpc, LogPc.toPush, LogPc.toRegister, LogPc.left]
  · exact Nat.le_refl _

theorem Service.left_push (hpc : s.threads t = .push m) : (s.push c t m).left ≤ s.left := by
  unfold Service.push
  split
  · refine Nat.le_of_lt (Service.left_thread (t := t) (l := .notify m .load) rfl
      (fun u hu => update_of_ne hu _ _) ?_ ?_ rfl rfl rfl ?_) <;>
      simp [hpc, LogPc.toPush, LogPc.toRegister, LogPc.left, NotifyPc.left]
  · split
    · exact Nat.le_refl _
    · refine Nat.le_of_lt (Service.left_thread (t := t) (l := .idle) rfl (fun _ _ => rfl) ?_ ?_
        rfl rfl rfl ?_) <;>
        simp [hpc, LogPc.toPush, LogPc.toRegister, LogPc.left]

/-- What a thread or the stopper has left of `notify` pays for the worker it
wakes. -/
theorem NotifyPc.left_elim (pc : NotifyPc) (futex : Bool) :
    3 * ((pc.next futex).elim 0 NotifyPc.left) + 3 ≤ 3 * pc.left := by
  cases pc <;> cases futex <;> decide

theorem Service.left_notify {pc : NotifyPc} (hpc : s.threads t = .notify m pc) :
    (s.notifyStep t m pc).left < s.left := by
  have hrouse := WorkerPc.left_rouse s.round s.toVisit s.errno s.worker pc
  have hpays := pc.left_elim s.futex
  refine Service.left_thread (t := t) (l := (pc.next s.futex).elim .idle (.notify m)) rfl
    (fun _ _ => rfl) ?_ ?_ rfl rfl rfl ?_
  · rw [hpc]
    cases pc.next s.futex <;> exact Nat.le_refl _
  · rw [hpc]
    cases pc.next s.futex <;> rfl
  · rw [hpc]
    change (pc.rouse s.worker).left _ _ _ + _ < _
    cases hnext : pc.next s.futex with
    | none =>
        simp only [hnext, Option.elim_none] at hpays
        simp only [Option.elim_none, LogPc.left]
        omega
    | some pc' =>
        simp only [hnext, Option.elim_some] at hpays
        simp only [Option.elim_some, LogPc.left]
        omega

/-- A thread that logs takes the end no further. It may go around in its loop
at a full channel, so its steps are not counted. -/
theorem Service.left_logStep (hnext : s.logStep c t = some s') : s'.left ≤ s.left := by
  unfold Service.logStep at hnext
  split at hnext <;> cases hnext
  · next m hpc => exact Service.left_register hpc
  · next m hpc => exact Service.left_push hpc
  · next m pc hpc => exact Nat.le_of_lt (Service.left_notify hpc)

omit [DecidableEq τ] in
theorem Service.left_stopStep (hnext : s.stopStep = some s') : s'.left < s.left := by
  unfold Service.stopStep at hnext
  split at hnext
  · next hpc =>
      cases hnext
      refine Service.left_lt (p := .notify .load) rfl rfl rfl rfl rfl rfl rfl ?_
      rw [hpc]
      exact Nat.add_lt_add_left (by decide) _
  · next pc hpc =>
      cases hnext
      have hrouse := WorkerPc.left_rouse s.round s.toVisit s.errno s.worker pc
      have hpays := pc.left_elim s.futex
      have hstop : ((pc.next s.futex).elim StopPc.join .notify).left =
          3 * ((pc.next s.futex).elim 0 NotifyPc.left) + 1 := by
        cases pc.next s.futex <;> rfl
      refine Service.left_lt (w := pc.rouse s.worker)
        (p := (pc.next s.futex).elim .join .notify) rfl rfl rfl rfl rfl rfl rfl ?_
      change (pc.rouse s.worker).left _ _ s.errno + _ < _
      rw [hstop, hpc, StopPc.left]
      omega
  · next hpc =>
      split at hnext <;> cases hnext
      refine Service.left_lt (p := .returned) rfl rfl rfl rfl rfl rfl rfl ?_
      rw [hpc]
      exact Nat.add_lt_add_left (by decide) _
  · cases hnext

end Threads

section Heard

variable {τ ι : Type*} [DecidableEq τ] [DecidableEq ι] {c : Config ι} {s s' : Service τ ι}

/-- The worker will find `m_stopping` set, or be found asleep by a `notify`.
The case left out is a worker about to store 0, over which the `notify` of
`stop` is forgotten. -/
structure Heard (s : Service τ ι) : Prop where
  stopping : s.stopping = true
  called : s.stopper ≠ .notCalled ∧ s.stopper ≠ .storeStopping
  awake : s.worker ≠ .storeZero
  word : s.futex = false → s.stopper = .notify .load ∨ s.stopper = .notify .exchange

omit [DecidableEq τ] [DecidableEq ι] in
theorem NotifyPc.rouse_ne_storeZero {w : WorkerPc τ ι} (pc : NotifyPc) (h : w ≠ .storeZero) :
    pc.rouse w ≠ .storeZero := by
  cases pc with
  | load | exchange => exact h
  | wake => cases w <;> simp_all [NotifyPc.rouse]

omit [DecidableEq τ] [DecidableEq ι] in
theorem NotifyPc.store_false {futex : Bool} {pc : NotifyPc} (h : pc.store futex = false) :
    futex = false := by
  cases pc <;> simp_all [NotifyPc.store]

omit [DecidableEq τ] [DecidableEq ι] in
theorem Heard.keeps (h : Heard s) (hstopping : s'.stopping = s.stopping)
    (hstopper : s'.stopper = s.stopper) (hworker : s'.worker ≠ .storeZero)
    (hfutex : s'.futex = false → s.futex = false) : Heard s' where
  stopping := hstopping.trans h.stopping
  called := by
    rw [hstopper]
    exact h.called
  awake := hworker
  word hclear := by
    rw [hstopper]
    exact h.word (hfutex hclear)

omit [DecidableEq ι] in
theorem Heard.logStep {t : τ} (h : Heard s) (hnext : s.logStep c t = some s') : Heard s' := by
  unfold Service.logStep at hnext
  split at hnext <;> cases hnext
  · unfold Service.register
    split
    · exact h.keeps rfl rfl h.awake id
    · exact h
  · unfold Service.push
    split
    · exact h.keeps rfl rfl h.awake id
    · split
      · exact h
      · exact h.keeps rfl rfl h.awake id
  · exact h.keeps rfl rfl (NotifyPc.rouse_ne_storeZero _ h.awake) NotifyPc.store_false

omit [DecidableEq τ] [DecidableEq ι] in
/-- A call of `notify` that is over has left the futex word set. -/
theorem Heard.set (h : Heard s) (hpc : s.stopper = .notify .wake ∨ s.stopper = .join) :
    s.futex = true := by
  by_contra hclear
  rcases h.word (Bool.eq_false_of_not_eq_true hclear) with hload | hexchange
  · rcases hpc with hpc | hpc <;> rw [hpc] at hload <;> cases hload
  · rcases hpc with hpc | hpc <;> rw [hpc] at hexchange <;> cases hexchange

omit [DecidableEq τ] [DecidableEq ι] in
theorem Heard.stopStep (h : Heard s) (hnext : s.stopStep = some s') : Heard s' := by
  unfold Service.stopStep at hnext
  split at hnext
  · next hpc => exact absurd hpc h.called.2
  · next pc hpc =>
      cases hnext
      have hawake := pc.rouse_ne_storeZero h.awake
      have hcalled : (pc.next s.futex).elim StopPc.join .notify ≠ .notCalled ∧
          (pc.next s.futex).elim StopPc.join .notify ≠ .storeStopping := by
        cases pc.next s.futex <;> simp
      refine ⟨h.stopping, hcalled, hawake, fun hclear => ?_⟩
      cases pc with
      | load =>
          have hfutex : s.futex = false := hclear
          exact .inr (by simp [NotifyPc.next, hfutex])
      | exchange => cases hclear
      | wake =>
          have hset : s.futex = true := h.set (.inl hpc)
          have hfutex : s.futex = false := hclear
          rw [hset] at hfutex
          cases hfutex
  · next hpc =>
      split at hnext <;> cases hnext
      refine ⟨h.stopping, ⟨by simp, by simp⟩, h.awake, fun hclear => ?_⟩
      have hset := h.set (.inr hpc)
      rw [hset] at hclear
      cases hclear
  · cases hnext

omit [DecidableEq ι] in
theorem Heard.scan (h : Heard s) (i : Nat) (hasMessages : Bool) :
    Heard (s.scan i hasMessages) := by
  unfold Service.scan
  split
  · split <;> exact h.keeps rfl rfl (by simp) id
  · split <;> exact h.keeps rfl rfl (by simp [Service.again]) id

/-- The worker stores 0 only after a load that has found `m_stopping` clear. -/
theorem Heard.work (h : Heard s) (hnext : s.work = some s') : Heard s' := by
  cases hpc : s.worker with
  | collecting =>
      simp only [Service.work, hpc] at hnext
      split at hnext <;> cases hnext
      · exact h.keeps rfl rfl (by simp) id
      · exact h.keeps rfl rfl (by simp) id
  | scan i hasMessages =>
      simp only [Service.work, hpc] at hnext
      cases hnext
      exact h.scan i hasMessages
  | saving i m =>
      simp only [Service.work, hpc] at hnext
      cases hnext
      exact h.keeps rfl rfl (by simp) id
  | loadStopping =>
      simp only [Service.work, hpc, if_pos h.stopping] at hnext
      cases hnext
      exact h.keeps rfl rfl (by simp) id
  | storeZero => exact absurd hpc h.awake
  | futexWait | woken =>
      simp only [Service.work, hpc] at hnext
      cases hnext
      split <;> exact h.keeps rfl rfl (by simp [Service.again]) id
  | asleep | returned =>
      simp only [Service.work, hpc] at hnext
      cases hnext

/-- Once heard, `stop` stays heard, whatever the threads, signals and wake-ups
without cause do. -/
theorem Heard.next {l : Label τ ι} (h : Heard s) (hnext : s.next c l = some s') : Heard s' := by
  cases l with
  | log t i =>
      simp only [Service.next, Service.log] at hnext
      split at hnext <;> cases hnext
      exact h.keeps rfl rfl h.awake id
  | step t => exact h.logStep hnext
  | stop =>
      simp only [Service.next, Service.stop] at hnext
      split at hnext
      · next hpc => exact absurd hpc h.called.1
      · cases hnext
  | stopStep => exact h.stopStep hnext
  | work => exact h.work hnext
  | interrupt | spurious =>
      simp only [Service.next] at hnext
      split at hnext <;> cases hnext
      exact h.keeps rfl rfl (by simp [Service.again]) id
  | setErrno e =>
      simp only [Service.next] at hnext
      split at hnext <;> cases hnext
      exact h.keeps rfl rfl h.awake id

end Heard

section Main

variable {τ ι : Type*} [DecidableEq τ] [DecidableEq ι] {c : Config ι}

/-- No thread calls `log` any more, and the kernel wakes the worker without
cause only where `wait` does not take that for an interruption. -/
def Closing (s : Service τ ι) : Label τ ι → Prop
  | .log _ _ => False
  | .spurious => s.errno ≠ .intr
  | _ => True

instance (s : Service τ ι) (l : Label τ ι) : Decidable (Closing s l) :=
  match l with
  | .log _ _ => inferInstanceAs (Decidable False)
  | .spurious => inferInstanceAs (Decidable (s.errno ≠ .intr))
  | .step _ | .stop | .stopStep | .work | .interrupt | .setErrno _ =>
      inferInstanceAs (Decidable True)

def Label.serves : Label τ ι → Bool
  | .work | .stopStep => true
  | _ => false

/-- A step of neither the worker nor `stop` takes the end no further. -/
theorem Service.left_elsewhere [Fintype τ] {s s' : Service τ ι} {l : Label τ ι}
    (hclosing : Closing s l) (hwork : l ≠ .work) (hstopStep : l ≠ .stopStep)
    (hnext : s.next c l = some s') : s'.left ≤ s.left := by
  cases l with
  | log t i => exact hclosing.elim
  | stopStep => exact absurd rfl hstopStep
  | work => exact absurd rfl hwork
  | step t => exact Service.left_logStep hnext
  | stop =>
      simp only [Service.next, Service.stop] at hnext
      split at hnext
      · next hpc =>
          cases hnext
          refine Nat.le_of_lt (Service.left_lt (p := .storeStopping) rfl rfl rfl rfl rfl rfl rfl ?_)
          rw [hpc]
          exact Nat.add_lt_add_left (by decide) _
      · cases hnext
  | interrupt =>
      simp only [Service.next] at hnext
      split at hnext <;> cases hnext
      next hpc =>
      refine Nat.le_of_lt (Service.left_lt (w := .collecting) rfl rfl rfl rfl rfl rfl rfl ?_)
      rw [hpc]
      exact Nat.add_lt_add_right (Nat.lt_succ_self _) _
  | spurious =>
      simp only [Service.next] at hnext
      split at hnext <;> cases hnext
      next hpc =>
      have hwoken : (WorkerPc.woken : WorkerPc τ ι).left s.round s.toVisit s.errno ≤
          s.worker.left s.round s.toVisit s.errno := by
        rw [hpc]
        simp only [WorkerPc.left, if_neg hclosing]
        exact Nat.le_refl _
      change Service.left { s with worker := .woken } ≤ s.left
      unfold Service.left
      exact Nat.add_le_add_right (Nat.add_le_add_right (Nat.add_le_add_left hwoken _) _) _
  | setErrno e =>
      simp only [Service.next] at hnext
      split at hnext <;> cases hnext
      next hwoken =>
      have hworker : s.worker.left s.round s.toVisit e =
          s.worker.left s.round s.toVisit s.errno := by
        cases hpc : s.worker with
        | woken => exact absurd hpc hwoken
        | scan i hasMessages => cases hasMessages <;> rfl
        | _ => rfl
      change Service.left { s with errno := e } ≤ s.left
      unfold Service.left
      rw [← hworker]
      exact Nat.le_refl _

/-- So the steps of the worker and of `stop` are as many as are left, whatever
comes between them. -/
theorem Service.left_next [Fintype τ] {s s' : Service τ ι} {l : Label τ ι}
    (hstopping : s.stopping = true) (hclosing : Closing s l) (hnext : s.next c l = some s') :
    s'.left + (if l.serves then 1 else 0) ≤ s.left := by
  cases l with
  | log t i => exact hclosing.elim
  | stopStep => exact Service.left_stopStep hnext
  | work => exact Service.left_work hstopping hnext
  | step t | stop | interrupt | spurious | setErrno e =>
      simp only [Label.serves, Bool.false_eq_true, if_false, Nat.add_zero]
      exact Service.left_elsewhere hclosing nofun nofun hnext

/-- As long as `stop` has not returned some step brings it nearer. A worker
asleep over a set word is owed a `wake`, which is such a step. -/
theorem Heard.goes_on [Fintype τ] {s : Service τ ι} (h : Heard s) (hwoken : Woken s)
    (hstopper : s.stopper ≠ .returned) :
    ∃ l s', Closing s l ∧ s.next c l = some s' ∧ s'.left < s.left := by
  have hstep (hpc : s.stopper ≠ .join ∨ s.worker = .returned) :
      ∃ l s', Closing s l ∧ s.next c l = some s' ∧ s'.left < s.left := by
    cases hcase : s.stopper with
    | notCalled => exact absurd hcase h.called.1
    | storeStopping => exact absurd hcase h.called.2
    | notify pc =>
        have hnext : s.stopStep = some { s.notify pc with
            stopper := (pc.next s.futex).elim .join .notify } := by rw [Service.stopStep, hcase]
        exact ⟨.stopStep, _, trivial, hnext, Service.left_stopStep hnext⟩
    | join =>
        have hnext : s.stopStep = some { s with stopper := .returned } := by
          rw [Service.stopStep, hcase, hpc.resolve_left fun hne => hne hcase]
        exact ⟨.stopStep, _, trivial, hnext, Service.left_stopStep hnext⟩
    | returned => exact absurd hcase hstopper
  have hwork (hidle : s.work.isSome = true) :
      ∃ l s', Closing s l ∧ s.next c l = some s' ∧ s'.left < s.left := by
    obtain ⟨s', hnext⟩ := Option.isSome_iff_exists.mp hidle
    exact ⟨.work, s', trivial, hnext, Service.left_work h.stopping hnext⟩
  cases hpc : s.worker with
  | returned => exact hstep (.inr hpc)
  | asleep =>
      cases hfutex : s.futex with
      | false =>
          -- nobody but `stop` itself has to set the word
          refine hstep (.inl fun hjoin => ?_)
          rcases h.word hfutex with hload | hexchange
          · rw [hjoin] at hload
            cases hload
          · rw [hjoin] at hexchange
            cases hexchange
      | true =>
          rcases hwoken hpc hfutex with ⟨t, m, hwake⟩ | hwake
          · refine ⟨.step t, s.notifyStep t m .wake, trivial, ?_, Service.left_notify hwake⟩
            simp only [Service.next, Service.logStep, hwake]
          · exact hstep (.inl fun hjoin => by rw [hwake] at hjoin; cases hjoin)
  | collecting =>
      refine hwork ?_
      simp only [Service.work, hpc]
      split <;> rfl
  | scan | saving | loadStopping | storeZero | futexWait | woken =>
      exact hwork (by simp only [Service.work, hpc]; rfl)

/-- When `stop` sets `m_stopping` and the worker is not about to store 0 in
the futex word, the number of steps the worker and `stop` still take is
bounded, and some step brings the end nearer until `stop` has returned.
Wake-ups without cause are left out while `errno` is an old `EINTR`, since
each of them would send the worker back to sleep. -/
theorem stop_returns [Fintype τ] {s s₁ t : Service τ ι} {ls : List (Label τ ι)}
    (hreach : (system τ c).Reach Free s) (hstopper : s.stopper = .storeStopping)
    (hworker : s.worker ≠ .storeZero) (hstore : (system τ c).next s .stopStep = some s₁)
    (hsteps : (system τ c).Steps Closing s₁ ls t) :
    ls.countP Label.serves ≤ s₁.left ∧ (t.stopper ≠ .returned →
      ∃ l u, Closing t l ∧ (system τ c).next t l = some u ∧ u.left < t.left) := by
  have hwoken : Woken s₁ := .of_reach (hreach.step trivial hstore)
  have hheard : Heard s₁ := by
    change s.stopStep = some s₁ at hstore
    rw [Service.stopStep, hstopper] at hstore
    cases hstore
    exact ⟨rfl, ⟨by simp, by simp⟩, hworker, fun _ => .inl rfl⟩
  have hcount := hsteps.countP_le (f := Service.left) (p := Label.serves) hheard
    fun u l v hu hclosing hnext => ⟨hu.next hnext, Service.left_next hu.stopping hclosing hnext⟩
  refine ⟨by omega, fun hreturned => ?_⟩
  have hheard' : Heard t := hsteps.preserves hheard fun _ _ _ hu _ hnext => hu.next hnext
  have hwoken' : Woken t := hsteps.preserves hwoken fun _ _ _ hu _ hnext => hu.next hnext
  exact hheard'.goes_on hwoken' hreturned

/-- A thread logs while the worker sleeps, and `stop` is called before it has
called `wake`. -/
def stoppedAsleep : List (Label Bool Unit) :=
  List.replicate 5 Label.work ++ .log false () :: List.replicate 4 (Label.step false) ++ [.stop]

def stoppedAsleepState : Service Bool Unit :=
  ((system Bool dropping).exec Free spunOut stoppedAsleep).get (by decide +kernel)

def toldState : Service Bool Unit :=
  ((system Bool dropping).next stoppedAsleepState .stopStep).get (by decide +kernel)

/-- `notify` of `stop` finds the word set; the thread wakes the worker. -/
def wokenRun : List (Label Bool Unit) := [.stopStep, .step false, .work, .work, .work]

def wokenState : Service Bool Unit :=
  ((system Bool dropping).exec Closing toldState wokenRun).get (by decide +kernel)

theorem stop_returns_wokenRun : 4 ≤ toldState.left ∧
    ∃ l u, Closing wokenState l ∧ (system Bool dropping).next wokenState l = some u ∧
      u.left < wokenState.left := by
  have hreach : (system Bool dropping).Reach Free stoppedAsleepState :=
    (spunOut_reach (fun _ => trivial) dropping).trans (steps_of_exec (Option.some_get _).symm)
  have hstore : (system Bool dropping).next stoppedAsleepState .stopStep = some toldState :=
    (Option.some_get _).symm
  have hsteps : (system Bool dropping).Steps Closing toldState wokenRun wokenState :=
    steps_of_exec (Option.some_get _).symm
  obtain ⟨hcount, hgoes⟩ :=
    stop_returns hreach (by decide +kernel) (by decide +kernel) hstore hsteps
  exact ⟨hcount, hgoes (by decide +kernel)⟩

/-- No new call of `log`, no signal and no wake-up without cause. These are
the only steps that could help a worker asleep over a forgotten `notify`. -/
def Undisturbed : Label τ ι → Prop
  | .log _ _ | .interrupt | .spurious => False
  | _ => True

omit [DecidableEq τ] [DecidableEq ι] in
theorem closing_stopStep (s : Service τ ι) : Closing s .stopStep := trivial

/-- The call of `stop` runs to the join while the worker stays where it is. -/
theorem stop_reaches_join {s : Service τ ι} (hstopper : s.stopper = .storeStopping)
    (hworker : s.worker = .storeZero) : ∃ ls u, (system τ c).Steps Closing s (.stopStep :: ls) u ∧
      u.stopper = .join ∧ u.worker = .storeZero ∧ u.threads = s.threads := by
  have hstore : (system τ c).next s .stopStep =
      some { s with stopping := true, stopper := .notify .load } := by
    simp [system, Service.next, Service.stopStep, hstopper]
  have hfirst : (system τ c).Steps Closing s ([] ++ [.stopStep]) _ :=
    Steps.snoc .refl (closing_stopStep s) hstore
  cases hfutex : s.futex with
  | true =>
      refine ⟨[.stopStep], _, hfirst.snoc (closing_stopStep _) rfl, ?_⟩
      simp [Service.notify, NotifyPc.rouse, NotifyPc.next, hfutex, hworker]
  | false =>
      have hload : (system τ c).next { s with stopping := true, stopper := .notify .load }
          .stopStep = some { s with stopping := true, stopper := .notify .exchange } := by
        simp [system, Service.next, Service.stopStep, Service.notify, NotifyPc.rouse,
          NotifyPc.next, NotifyPc.store, hfutex]
      have hexchange : (system τ c).next { s with stopping := true, stopper := .notify .exchange }
          .stopStep = some { s with
            stopping := true, stopper := .notify .wake, futex := true } := by
        simp [system, Service.next, Service.stopStep, Service.notify, NotifyPc.rouse,
          NotifyPc.next, NotifyPc.store, hfutex]
      refine ⟨[.stopStep, .stopStep, .stopStep], _,
        ((hfirst.snoc (closing_stopStep _) hload).snoc (closing_stopStep _) hexchange).snoc
          (closing_stopStep _) rfl, ?_⟩
      simp [Service.notify, NotifyPc.rouse, NotifyPc.next, hworker]

/-- When `stop` sets `m_stopping` while the worker is about to store 0 in the
futex word, it can happen that the worker sleeps and `stop` waits for it, with
nobody left to wake it. -/
theorem stop_hangs {s : Service τ ι} (hstopper : s.stopper = .storeStopping)
    (hworker : s.worker = .storeZero) (hidle : ∀ t, s.threads t = .idle) :
    ∃ ls u, (system τ c).Steps Closing s (.stopStep :: ls) u ∧ u.stopper = .join ∧
      ∀ l, Undisturbed l → (system τ c).next u l = none := by
  obtain ⟨ls, v, hsteps, hjoin, hzero, hthreads⟩ := stop_reaches_join (c := c) hstopper hworker
  let u : Service τ ι := { v with futex := false, worker := .asleep }
  have hstore : (system τ c).next v .work = some { u with worker := .futexWait } := by
    simp [system, Service.next, Service.work, hzero, u]
  have hsleep : (system τ c).next { u with worker := .futexWait } .work = some u := by
    simp [system, Service.next, Service.work, u]
  have hlast := (hsteps.snoc (l := Label.work) trivial hstore).snoc (l := Label.work) trivial hsleep
  rw [List.cons_append, List.cons_append] at hlast
  refine ⟨_, u, hlast, hjoin, fun l hl => ?_⟩
  cases l with
  | log t i => exact hl.elim
  | step t =>
      have ht : u.threads t = .idle := (congrFun hthreads t).trans (hidle t)
      simp only [system, Service.next, Service.logStep, ht]
  | stop => simp only [system, Service.next, Service.stop, u, hjoin]
  | stopStep => simp only [system, Service.next, Service.stopStep, u, hjoin]
  | work => rfl
  | interrupt | spurious => exact hl.elim
  | setErrno e => rfl

/-- `stop` is called after the load of `m_stopping` that precedes a sleep. -/
def stoppedLate : List (Label Bool Unit) := List.replicate 3 Label.work ++ [.stop]

def stoppedLateState : Service Bool Unit :=
  ((system Bool dropping).exec Free spunOut stoppedLate).get (by decide +kernel)

theorem stop_hangs_stoppedLate : (system Bool dropping).Reach Free stoppedLateState ∧
    ∃ ls u, (system Bool dropping).Steps Closing stoppedLateState (.stopStep :: ls) u ∧
      u.stopper = .join ∧ ∀ l, Undisturbed l → (system Bool dropping).next u l = none :=
  ⟨(spunOut_reach (fun _ => trivial) dropping).trans (steps_of_exec (Option.some_get _).symm),
    stop_hangs (by decide +kernel) (by decide +kernel) (by decide +kernel)⟩

end Main

end Libni.Logging
