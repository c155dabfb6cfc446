import Libni.Logging.Delivery

/-!
What `stop` delivers. The worker returns after a pass that found every channel
empty and a load of `m_stopping`; a message pushed between the two is lost unless
`stop` comes after the next pass has begun.
-/

namespace Libni.Logging

open Function Libni.Transition Libni.Transition.System

section Exposed

variable {τ ι : Type*} [DecidableEq τ] [DecidableEq ι]

/-- Whether the worker finds no message in the rest of a pass that has found
none. -/
def Service.PassEnds (s : Service τ ι) : Prop :=
  match s.worker with
  | .scan i false => ∀ t ∈ s.channels.drop i, s.queue t = []
  | .loadStopping => True
  | _ => False

/-- The worker is about to leave without a message whose `log` has returned. -/
def Service.Exposed (c : Config ι) (s : Service τ ι) : Prop :=
  s.PassEnds ∧ ∃ m ∈ s.returned, c.strategy m.logger = .retry ∧ m ∈ s.queue m.thread

/-- `stop` is not called while the worker is about to leave without a message
whose `log` has returned. -/
def StopsCovered (c : Config ι) (s : Service τ ι) : Label τ ι → Prop
  | .stop => ¬ s.Exposed c
  | _ => True

/-- Every message whose `log` had returned when `stop` was called, of a logger
that retries, has been saved exactly once when the worker has returned; `stop`
returns after the worker. -/
def Service.NothingLost (c : Config ι) (s : Service τ ι) : Prop :=
  (s.worker = .returned →
    ∀ m ∈ s.atStop, c.strategy m.logger = .retry → (s.saved m.logger).count m = 1) ∧
  (s.stopper = .returned → s.worker = .returned)

end Exposed

section Invariant

variable {τ ι : Type*} [DecidableEq τ] {c : Config ι} {s s' : Service τ ι} {t : τ}
  {m : Message τ ι}

/-- What holds of the flag, the worker and the stopper in every run. The
worker returns only when it has been told to. -/
structure Stopped (s : Service τ ι) : Prop where
  atStop : ∀ m ∈ s.atStop, m ∈ s.returned
  called : s.stopping = true → s.stopper ≠ .notCalled
  worker : s.worker = .returned → s.stopping = true
  joined : s.stopper = .returned → s.worker = .returned

/-- No channel holds a message that `stop` has to wait for. -/
def Service.Cleared (c : Config ι) (s : Service τ ι) : Prop :=
  ∀ m ∈ s.atStop, c.strategy m.logger = .retry → m ∉ s.queue m.thread

/-- A pass that has found no message will find one unless `cleared` holds. -/
def WorkerPc.Draining (channels : List τ) (queue : τ → List (Message τ ι)) (cleared : Prop) :
    WorkerPc τ ι → Prop
  | .scan i false => (∃ t ∈ channels.drop i, queue t ≠ []) ∨ cleared
  | .loadStopping | .returned => cleared
  | _ => True

/-- Once `stop` has been called, the worker leaves only with all those
messages taken. -/
def Drained (c : Config ι) (s : Service τ ι) : Prop :=
  s.stopper ≠ .notCalled → s.worker.Draining s.channels s.queue (s.Cleared c)

omit [DecidableEq τ] in
theorem NotifyPc.rouse_eq_returned {w : WorkerPc τ ι} {pc : NotifyPc} :
    pc.rouse w = .returned ↔ w = .returned := by
  cases pc <;> cases w <;> simp [NotifyPc.rouse]

omit [DecidableEq τ] in
theorem Stopped.keeps (h : Stopped s) (hatStop : s'.atStop = s.atStop)
    (hreturned : ∀ m ∈ s.returned, m ∈ s'.returned) (hstopping : s'.stopping = s.stopping)
    (hstopper : s'.stopper = s.stopper)
    (hworker : s'.worker = .returned ↔ s.worker = .returned) : Stopped s' where
  atStop m hm := hreturned m (h.atStop m (by rw [← hatStop]; exact hm))
  called hs := by rw [hstopper]; exact h.called (by rw [← hstopping]; exact hs)
  worker hw := by rw [hstopping]; exact h.worker (hworker.mp hw)
  joined hj := hworker.mpr (h.joined (by rw [← hstopper]; exact hj))

omit [DecidableEq τ] in
theorem WorkerPc.Draining.rouse {channels : List τ} {queue : τ → List (Message τ ι)}
    {cleared : Prop} {w : WorkerPc τ ι} (h : w.Draining channels queue cleared)
    (pc : NotifyPc) : (pc.rouse w).Draining channels queue cleared := by
  cases pc with
  | load | exchange => exact h
  | wake =>
      cases w with
      | asleep => trivial
      | _ => exact h

omit [DecidableEq τ] in
/-- Messages that are added to channels only make it more certain that a pass
finds one. -/
theorem WorkerPc.Draining.mono {channels : List τ} {queue queue' : τ → List (Message τ ι)}
    {cleared cleared' : Prop} {w : WorkerPc τ ι} (h : w.Draining channels queue cleared)
    (hqueue : ∀ t, queue t ≠ [] → queue' t ≠ []) (hcleared : cleared → cleared') :
    w.Draining channels queue' cleared' := by
  cases w with
  | scan i hasMessages =>
      cases hasMessages with
      | true => trivial
      | false =>
          rcases h with ⟨t, ht, hne⟩ | h
          · exact .inl ⟨t, ht, hqueue t hne⟩
          · exact .inr (hcleared h)
  | loadStopping | returned => exact hcleared h
  | _ => trivial

variable [DecidableEq ι]

/-- A message that is nowhere yet was not returned, so pushing it leaves what
`stop` waits for as it was. -/
theorem Drained.push (h : Drained c s) (hcount : Counted c s) (hstop : Stopped s)
    (hpc : s.threads t = .push m) : Drained c (s.push c t m) := by
  have hfacts := hcount.thread t
  rw [hpc] at hfacts
  obtain ⟨rfl, -, hnowhere⟩ := hfacts
  unfold Service.push
  split
  · refine fun hcalled => (h hcalled).mono (fun u hu => ?_) fun hcleared n hn hretry hmem => ?_
    · by_cases hut : u = m.thread
      · simp [hut]
      · simpa only [update_of_ne hut] using hu
    · by_cases hnt : n.thread = m.thread
      · simp only [hnt, update_self, List.mem_append, List.mem_singleton] at hmem
        rcases hmem with hmem | rfl
        · exact hcleared n hn hretry (by rw [hnt]; exact hmem)
        · have hplaces := hcount.returned n (hstop.atStop n hn) hretry
          omega
      · simp only [update_of_ne hnt] at hmem
        exact hcleared n hn hretry hmem
  · split
    · exact h
    · exact h

omit [DecidableEq τ] [DecidableEq ι] in
/-- A pass starts when every channel has been collected: a message in any of
them will be found. -/
theorem Drained.startPass (hlisted : Listed s) (hpending : s.pending = []) :
    Drained c { s with worker := .scan 0 false } := by
  intro _
  by_cases hempty : ∀ t ∈ s.channels, s.queue t = []
  · refine .inr fun m _ _ hm => ?_
    have hmem := hlisted.registered m.thread (hlisted.queued m.thread (List.ne_nil_of_mem hm))
    rw [hpending] at hmem
    have hnil := hempty m.thread (hmem.resolve_right List.not_mem_nil)
    have hm' : m ∈ s.queue m.thread := hm
    rw [hnil] at hm'
    exact absurd hm' List.not_mem_nil
  · obtain ⟨u, hu, hne⟩ : ∃ u ∈ s.channels, s.queue u ≠ [] := by simpa using hempty
    exact .inl ⟨u, hu, hne⟩

omit [DecidableEq ι] in
/-- A channel found empty holds no message that `stop` waits for. If all the
others are empty as well, nothing is left to wait for. -/
theorem Drained.scan (h : Drained c s) {i : Nat} {hasMessages : Bool}
    (hpc : s.worker = .scan i hasMessages) : Drained c (s.scan i hasMessages) := by
  intro hcalled
  unfold Service.scan
  split
  · next t hchannel =>
      split
      · next hqueue =>
          cases hasMessages with
          | true => trivial
          | false =>
              have hdrain := h (by simpa only [Service.scan, hchannel, hqueue] using hcalled)
              rw [hpc] at hdrain
              rcases hdrain with ⟨u, hu, hne⟩ | hcleared
              · obtain ⟨hlt, rfl⟩ := List.getElem?_eq_some_iff.mp hchannel
                rw [List.drop_eq_getElem_cons hlt, List.mem_cons] at hu
                rcases hu with rfl | hu
                · exact absurd hqueue hne
                · exact .inl ⟨u, hu, hne⟩
              · exact .inr hcleared
      · trivial
  · next hend =>
      cases hasMessages with
      | true => trivial
      | false =>
          have hdrain := h (by simpa [Service.scan, hend] using hcalled)
          rw [hpc] at hdrain
          rcases hdrain with ⟨u, hu, -⟩ | hcleared
          · rw [List.drop_eq_nil_of_le (List.getElem?_eq_none_iff.mp hend)] at hu
            exact absurd hu List.not_mem_nil
          · exact hcleared

/-- The accesses of the worker. It loads `m_stopping` only after a pass
without messages, so all channels were empty in turn. -/
theorem Drained.work (h : Drained c s) (hlisted : Listed s) (hstop : Stopped s)
    (hnext : s.work = some s') : Drained c s' := by
  cases hpc : s.worker with
  | collecting =>
      simp only [Service.work, hpc] at hnext
      split at hnext
      · cases hnext
        exact fun _ => trivial
      · next hpending =>
          cases hnext
          exact Drained.startPass hlisted hpending
  | scan i hasMessages =>
      simp only [Service.work, hpc] at hnext
      cases hnext
      exact h.scan hpc
  | loadStopping =>
      simp only [Service.work, hpc] at hnext
      cases hnext
      split
      · next hstopping =>
          have hdrain := h (hstop.called hstopping)
          rw [hpc] at hdrain
          exact fun _ => hdrain
      · split <;> exact fun _ => trivial
  | saving i n | storeZero =>
      simp only [Service.work, hpc] at hnext
      cases hnext
      exact fun _ => trivial
  | futexWait | woken =>
      simp only [Service.work, hpc] at hnext
      cases hnext
      split <;> exact fun _ => trivial
  | asleep | returned =>
      simp only [Service.work, hpc] at hnext
      cases hnext

theorem Stopped.work (h : Stopped s) (hnext : s.work = some s') : Stopped s' := by
  cases hpc : s.worker with
  | loadStopping =>
      simp only [Service.work, hpc] at hnext
      cases hnext
      split
      · next hstopping =>
          exact ⟨h.atStop, h.called, fun _ => hstopping, fun _ => rfl⟩
      · split <;> exact h.keeps rfl (fun _ hm => hm) rfl rfl (by simp [hpc])
  | collecting =>
      simp only [Service.work, hpc] at hnext
      split at hnext <;> cases hnext <;>
        exact h.keeps rfl (fun _ hm => hm) rfl rfl (by simp [hpc])
  | scan i hasMessages =>
      simp only [Service.work, hpc, Service.scan] at hnext
      cases hnext
      split
      · split <;> exact h.keeps rfl (fun _ hm => hm) rfl rfl (by simp [hpc])
      · split <;> exact h.keeps rfl (fun _ hm => hm) rfl rfl (by simp [hpc, Service.again])
  | saving i n | storeZero =>
      simp only [Service.work, hpc] at hnext
      cases hnext
      exact h.keeps rfl (fun _ hm => hm) rfl rfl (by simp [hpc])
  | futexWait | woken =>
      simp only [Service.work, hpc] at hnext
      cases hnext
      split <;> exact h.keeps rfl (fun _ hm => hm) rfl rfl (by simp [hpc, Service.again])
  | asleep | returned =>
      simp only [Service.work, hpc] at hnext
      cases hnext

omit [DecidableEq ι] in
theorem Stopped.logStep (h : Stopped s) (hnext : s.logStep c t = some s') : Stopped s' := by
  simp only [Service.logStep] at hnext
  split at hnext <;> cases hnext
  · unfold Service.register
    split
    · exact h.keeps rfl (fun _ hm => hm) rfl rfl Iff.rfl
    · exact h
  · unfold Service.push
    split
    · exact h.keeps rfl (fun _ hm => hm) rfl rfl Iff.rfl
    · split
      · exact h
      · exact h.keeps rfl (fun _ hm => List.mem_cons_of_mem _ hm) rfl rfl Iff.rfl
  · refine h.keeps rfl (fun n hn => ?_) rfl rfl NotifyPc.rouse_eq_returned
    simp only [Service.notifyStep]
    split
    · exact List.mem_cons_of_mem _ hn
    · exact hn

omit [DecidableEq τ] [DecidableEq ι] in
theorem Stopped.stopStep (h : Stopped s) (hnext : s.stopStep = some s') : Stopped s' := by
  simp only [Service.stopStep] at hnext
  split at hnext
  · cases hnext
    exact ⟨h.atStop, fun _ => by simp, fun _ => rfl, fun hj => by cases hj⟩
  · next pc hpc =>
      cases hnext
      refine ⟨h.atStop, fun _ => ?_, fun hw => h.worker (NotifyPc.rouse_eq_returned.mp hw),
        fun hj => ?_⟩
      · cases hpc' : pc.next s.futex <;> simp
      · cases hpc' : pc.next s.futex <;> simp [hpc'] at hj
  · split at hnext <;> cases hnext
    next hworker => exact ⟨h.atStop, fun _ => by simp, h.worker, fun _ => hworker⟩
  · cases hnext

theorem Stopped.next {l : Label τ ι} (h : Stopped s) (hnext : s.next c l = some s') :
    Stopped s' := by
  cases l with
  | log t i =>
      simp only [Service.next, Service.log] at hnext
      split at hnext <;> cases hnext
      exact h.keeps rfl (fun _ hm => hm) rfl rfl Iff.rfl
  | step t => exact h.logStep hnext
  | stop =>
      simp only [Service.next, Service.stop] at hnext
      split at hnext <;> cases hnext
      exact ⟨fun _ hm => hm, fun _ => by simp, h.worker, fun hj => by cases hj⟩
  | stopStep => exact h.stopStep hnext
  | work => exact h.work hnext
  | interrupt | spurious =>
      simp only [Service.next] at hnext
      split at hnext <;> cases hnext
      next hpc => exact h.keeps rfl (fun _ hm => hm) rfl rfl (by simp [hpc, Service.again])
  | setErrno e =>
      simp only [Service.next] at hnext
      split at hnext <;> cases hnext
      exact h.keeps rfl (fun _ hm => hm) rfl rfl Iff.rfl

theorem Drained.logStep (h : Drained c s) (hcount : Counted c s) (hstop : Stopped s)
    (hnext : s.logStep c t = some s') : Drained c s' := by
  simp only [Service.logStep] at hnext
  split at hnext <;> cases hnext
  · unfold Service.register
    split <;> exact h
  · next hpc => exact h.push hcount hstop hpc
  · exact fun hcalled => (h hcalled).rouse _

omit [DecidableEq τ] [DecidableEq ι] in
/-- Calling `stop` while the worker is not about to leave without a returned
message. -/
theorem Drained.stop (hworker : s.worker ≠ .returned) (hguard : ¬ s.Exposed c) :
    Drained c { s with stopper := .storeStopping, atStop := s.returned } := by
  have hcleared (hends : s.PassEnds) :
      Service.Cleared c { s with stopper := .storeStopping, atStop := s.returned } :=
    fun m hm hretry hmem => hguard ⟨hends, m, hm, hretry, hmem⟩
  intro _
  cases hpc : s.worker with
  | scan i hasMessages =>
      cases hasMessages with
      | true => trivial
      | false =>
          by_cases hempty : ∀ u ∈ s.channels.drop i, s.queue u = []
          · exact .inr (hcleared (by simpa only [Service.PassEnds, hpc] using hempty))
          · obtain ⟨u, hu, hne⟩ : ∃ u ∈ s.channels.drop i, s.queue u ≠ [] := by
              simpa using hempty
            exact .inl ⟨u, hu, hne⟩
  | loadStopping => exact hcleared (by simp only [Service.PassEnds, hpc])
  | returned => exact absurd hpc hworker
  | _ => trivial

/-- Every step keeps this, if `stop` is called where the guard allows it. -/
theorem Drained.next {l : Label τ ι} (h : Drained c s) (hcount : Counted c s)
    (hlisted : Listed s) (hstop : Stopped s) (hguard : StopsCovered c s l)
    (hnext : s.next c l = some s') : Drained c s' := by
  cases l with
  | log t i =>
      simp only [Service.next, Service.log] at hnext
      split at hnext <;> cases hnext
      exact h
  | step t => exact h.logStep hcount hstop hnext
  | stop =>
      simp only [Service.next, Service.stop] at hnext
      split at hnext <;> cases hnext
      next hcall =>
        exact Drained.stop (fun hreturned => hstop.called (hstop.worker hreturned) hcall) hguard
  | stopStep =>
      simp only [Service.next, Service.stopStep] at hnext
      split at hnext
      · next hpc =>
          cases hnext
          exact fun _ => h (by rw [hpc]; simp)
      · next hpc =>
          cases hnext
          exact fun _ => (h (by rw [hpc]; simp)).rouse _
      · next hpc =>
          split at hnext <;> cases hnext
          exact fun _ => h (by rw [hpc]; simp)
      · cases hnext
  | work => exact h.work hlisted hstop hnext
  | interrupt | spurious =>
      simp only [Service.next] at hnext
      split at hnext <;> cases hnext
      exact fun _ => trivial
  | setErrno e =>
      simp only [Service.next] at hnext
      split at hnext <;> cases hnext
      exact h

end Invariant

section Main

variable {τ ι : Type*} [DecidableEq τ] [DecidableEq ι] {c : Config ι}

/-- The invariant of a service up to the return of `stop`. Its last part is
the one that needs the guard. -/
structure Inv (c : Config ι) (s : Service τ ι) : Prop where
  counted : Counted c s
  listed : Listed s
  stopped : Stopped s
  drained : Drained c s

theorem Inv.initial : Inv c (Service.initial : Service τ ι) where
  counted := Counted.initial
  listed := Listed.initial
  stopped := by
    refine ⟨fun _ hm => hm, fun hs => ?_, fun hw => ?_, fun hj => ?_⟩
    · cases hs
    · cases hw
    · cases hj
  drained hcalled := absurd rfl hcalled

theorem Inv.next {s s' : Service τ ι} {l : Label τ ι} (h : Inv c s)
    (hguard : StopsCovered c s l) (hnext : s.next c l = some s') : Inv c s' where
  counted := h.counted.next hnext
  listed := h.listed.next hnext
  stopped := h.stopped.next hnext
  drained := h.drained.next h.counted h.listed h.stopped hguard hnext

/-- Shutdown loses nothing, as long as `stop` is not called while the worker
is about to leave without a message whose `log` has returned. The condition is
on the one moment at which `stop` is called. -/
theorem shutdown_loses_nothing {s : Service τ ι} {ls : List (Label τ ι)}
    (hrun : (system τ c).Run (StopsCovered c) ls s) : s.NothingLost c := by
  have h : Inv c s := by
    refine hrun.invariant ?_ fun _ _ _ h hguard hnext => h.next hguard hnext
    rintro _ rfl
    exact Inv.initial
  refine ⟨fun hworker m hm hretry => ?_, h.stopped.joined⟩
  have hcalled := h.stopped.called (h.stopped.worker hworker)
  have hcleared : s.Cleared c := by
    have hdrain := h.drained hcalled
    rw [hworker] at hdrain
    exact hdrain
  have hplaces := h.counted.returned m (h.stopped.atStop m hm) hretry
  rw [Service.places, List.count_eq_zero_of_not_mem (hcleared m hm hretry), hworker] at hplaces
  simpa [WorkerPc.hand] using hplaces

instance (s : Service τ ι) : Decidable s.PassEnds := by
  unfold Service.PassEnds
  split <;> infer_instance

instance (s : Service τ ι) (l : Label τ ι) : Decidable (StopsCovered c s l) := by
  unfold StopsCovered Service.Exposed
  split <;> infer_instance

/-- One logger that retries, with channels for two messages. -/
def retrying : Config Unit := ⟨fun _ => .retry, 2⟩

def savedRun : List (Label Unit Unit) :=
  .log () () :: List.replicate 5 (.step ()) ++ List.replicate 5 .work

/-- `stop` after a second message and before the next pass. -/
def coveredRun : List (Label Unit Unit) :=
  savedRun ++ [Label.log () (), .step (), .step (), .stop, .stopStep, .stopStep] ++
    List.replicate 8 Label.work ++ [Label.stopStep]

def coveredState : Service Unit Unit :=
  ((system Unit retrying).exec (StopsCovered retrying) Service.initial coveredRun).get
    (by decide +kernel)

theorem shutdown_loses_nothing_coveredRun :
    coveredState.stopper = .returned ∧ coveredState.atStop.length = 2 ∧
      coveredState.NothingLost retrying := by
  have hrun : (system Unit retrying).Run (StopsCovered retrying) coveredRun coveredState :=
    run_of_exec rfl _
  exact ⟨by decide +kernel, by decide +kernel, shutdown_loses_nothing hrun⟩

/-- The second message comes when its channel has been found empty, and `stop`
before the load of `m_stopping`. -/
def exposedRun : List (Label Unit Unit) :=
  savedRun ++ [Label.work, .work, .log () (), .step (), .step (), .stop, .stopStep, .stopStep,
    .work, .work, .stopStep]

def exposedState : Service Unit Unit :=
  ((system Unit retrying).exec Free Service.initial exposedRun).get (by decide +kernel)

/-- `stop` has returned, and a message whose `log` had returned before was
never saved. -/
theorem shutdown_loses_message :
    (system Unit retrying).Run Free exposedRun exposedState ∧
      exposedState.stopper = .returned ∧ ⟨(), 1, ()⟩ ∈ exposedState.atStop ∧
      (exposedState.saved ()).count ⟨(), 1, ()⟩ = 0 ∧ ¬ exposedState.NothingLost retrying := by
  have hworker : exposedState.worker = .returned := by decide +kernel
  have hmem : ⟨(), 1, ()⟩ ∈ exposedState.atStop := by decide +kernel
  have hsaved : (exposedState.saved ()).count ⟨(), 1, ()⟩ = 0 := by decide +kernel
  refine ⟨run_of_exec rfl _, by decide +kernel, hmem, hsaved, fun hnone => ?_⟩
  have hone := hnone.1 hworker _ hmem rfl
  rw [hsaved] at hone
  cases hone

/-- A pass that finds no message in the rest of the channels goes on to the
load of `m_stopping`. -/
theorem scan_ends {s : Service τ ι} {i : Nat} (hpc : s.worker = .scan i false)
    (hempty : ∀ t ∈ s.channels.drop i, s.queue t = []) :
    ∃ ls, (system τ c).Steps Free s ls { s with worker := .loadStopping } := by
  induction hn : s.channels.length - i generalizing s i with
  | zero =>
      have hend : s.channels[i]? = none := List.getElem?_eq_none_iff.mpr (by omega)
      refine ⟨[.work], Steps.snoc .refl trivial ?_⟩
      simp [system, Service.next, Service.work, hpc, Service.scan, hend]
  | succ n ih =>
      have hlt : i < s.channels.length := by omega
      rw [List.drop_eq_getElem_cons hlt, List.forall_mem_cons] at hempty
      have hskip : s.work = some { s with worker := .scan (i + 1) false } := by
        simp [Service.work, hpc, Service.scan, List.getElem?_eq_getElem hlt, hempty.1]
      obtain ⟨ls, hrest⟩ := ih (s := { s with worker := .scan (i + 1) false }) rfl hempty.2
        (by change s.channels.length - (i + 1) = n; omega)
      have hfirst : (system τ c).Steps Free s ([] ++ [.work]) _ :=
        Steps.snoc .refl trivial hskip
      exact ⟨_, hfirst.trans hrest⟩

theorem Service.PassEnds.loads {s : Service τ ι} (h : s.PassEnds) :
    ∃ ls, (system τ c).Steps Free s ls { s with worker := .loadStopping } := by
  unfold Service.PassEnds at h
  split at h
  · next hpc => exact scan_ends hpc h
  · next hpc =>
      refine ⟨[], ?_⟩
      rw [← hpc]
      exact .refl
  · exact h.elim

/-- Calling `stop` where `StopsCovered` forbids it can lose a message, so the
condition is exact. -/
theorem exposed_stop_loses {s : Service τ ι} (hreach : (system τ c).Reach Free s)
    (hstop : s.stopper = .notCalled) (hexposed : s.Exposed c) :
    ∃ ls s', (system τ c).Steps Free s (.stop :: ls) s' ∧ ¬ s'.NothingLost c := by
  have hcount : Counted c s := by
    refine hreach.invariant ?_ fun _ _ _ h _ hnext => h.next hnext
    rintro _ rfl
    exact Counted.initial
  obtain ⟨hends, m, hm, hretry, hmem⟩ := hexposed
  let s₁ : Service τ ι :=
    { s with stopper := .notify .load, atStop := s.returned, stopping := true }
  have hstopping : (system τ c).Steps Free s (([] ++ [.stop]) ++ [.stopStep]) s₁ := by
    refine Steps.snoc (Steps.snoc .refl trivial (t := s) (u := { s with
      stopper := .storeStopping, atStop := s.returned }) ?_) trivial rfl
    simp [system, Service.next, Service.stop, hstop]
  obtain ⟨ls, hpass⟩ := Service.PassEnds.loads (c := c) (s := s₁) hends
  refine ⟨_, { s₁ with worker := .returned },
    hstopping.trans (hpass.snoc (l := .work) trivial rfl), fun hnone => ?_⟩
  have hplaces := hcount.returned m hm hretry
  have hsaved : (s.saved m.logger).count m = 1 := hnone.1 rfl m hm hretry
  have hqueued := List.count_pos_iff.mpr hmem
  unfold Service.places at hplaces
  omega

end Main

end Libni.Logging
