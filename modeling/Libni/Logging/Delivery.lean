import Libni.Logging.Model

/-!
Where a message is between `log` and `save`. A message pushed by a logger that
retries is in its thread's channel, in the worker's hands or saved, in exactly
one of them once; channels that hold messages are known to the bus.
-/

namespace Libni.Logging

open Function Libni.Transition Libni.Transition.System

section Places

variable {τ ι : Type*}

/-- The message that the worker has popped and not yet saved. -/
def WorkerPc.hand : WorkerPc τ ι → List (Message τ ι)
  | .saving _ m => [m]
  | _ => []

@[simp] theorem WorkerPc.hand_rouse (w : WorkerPc τ ι) (pc : NotifyPc) :
    (pc.rouse w).hand = w.hand := by
  cases pc <;> cases w <;> rfl

variable [DecidableEq τ] [DecidableEq ι]

/-- How often a message is in its channel, in the worker's hands and saved by
its logger. -/
def Service.places (s : Service τ ι) (m : Message τ ι) : Nat :=
  (s.queue m.thread).count m + s.worker.hand.count m + (s.saved m.logger).count m

/-- A message about to be pushed is nowhere yet, one whose `notify` has begun
is in one place. -/
def LogPc.Facts (s : Service τ ι) (t : τ) : LogPc τ ι → Prop
  | .idle => True
  | .register m | .push m => m.thread = t ∧ m.seq < s.sent t ∧ s.places m = 0
  | .notify m _ => s.places m = 1

/-- Channels hold messages of their own threads, a message not yet logged is
nowhere, and one whose `log` has returned is in one place, if its logger
retries. -/
structure Counted (c : Config ι) (s : Service τ ι) : Prop where
  owned : ∀ t, ∀ m ∈ s.queue t, m.thread = t
  fresh : ∀ m, s.sent m.thread ≤ m.seq → s.places m = 0
  thread : ∀ t, (s.threads t).Facts s t
  returned : ∀ m ∈ s.returned, c.strategy m.logger = .retry → s.places m = 1

end Places

section Counted

variable {τ ι : Type*} [DecidableEq τ] [DecidableEq ι] {c : Config ι} {s s' : Service τ ι}
  {t : τ} {m : Message τ ι}

/-- What a thread knows of its message stays true while the message stays
where it is. -/
theorem LogPc.Facts.keeps {l : LogPc τ ι} (h : l.Facts s t) (hplaces : s'.places = s.places)
    (hsent : s.sent t ≤ s'.sent t) : l.Facts s' t := by
  cases l with
  | idle => trivial
  | register m | push m => exact ⟨h.1, Nat.lt_of_lt_of_le h.2.1 hsent, by rw [hplaces]; exact h.2.2⟩
  | notify m pc => exact (congrFun hplaces m).trans h

/-- A step that moves no message, or moves one within its places. -/
theorem Counted.keeps (h : Counted c s) (hqueue : ∀ u, ∀ m ∈ s'.queue u, m ∈ s.queue u)
    (hplaces : s'.places = s.places) (hsent : s'.sent = s.sent)
    (hthreads : ∀ u, (s'.threads u).Facts s u)
    (hreturned : ∀ m ∈ s'.returned, c.strategy m.logger = .retry → s.places m = 1) :
    Counted c s' where
  owned u m hm := h.owned u m (hqueue u m hm)
  fresh m hm := by rw [hplaces]; exact h.fresh m (by rw [← hsent]; exact hm)
  thread u := (hthreads u).keeps hplaces (Nat.le_of_eq (by rw [hsent]))
  returned m hm hretry := by rw [hplaces]; exact hreturned m hm hretry

theorem Counted.elsewhere (h : Counted c s) (hqueue : ∀ u, ∀ m ∈ s'.queue u, m ∈ s.queue u)
    (hplaces : s'.places = s.places) (hsent : s'.sent = s.sent)
    (hthreads : s'.threads = s.threads) (hreturned : s'.returned = s.returned) :
    Counted c s' :=
  h.keeps hqueue hplaces hsent (by rw [hthreads]; exact h.thread)
    (by rw [hreturned]; exact h.returned)

theorem Counted.threads_update (h : Counted c s) {l : LogPc τ ι} (hl : l.Facts s t) (u : τ) :
    (update s.threads t l u).Facts s u := by
  by_cases hu : u = t
  · subst hu
    simpa using hl
  · simpa [update_of_ne hu] using h.thread u

theorem Counted.thread_moves (h : Counted c s) {l : LogPc τ ι} (hqueue : s'.queue = s.queue)
    (hhand : s'.worker.hand = s.worker.hand) (hsaved : s'.saved = s.saved)
    (hsent : s'.sent = s.sent) (hthreads : s'.threads = update s.threads t l)
    (hl : l.Facts s t)
    (hreturned : ∀ m ∈ s'.returned, c.strategy m.logger = .retry → s.places m = 1) :
    Counted c s' := by
  refine h.keeps (by simp [hqueue]) ?_ hsent ?_ hreturned
  · funext m
    simp only [Service.places, hqueue, hhand, hsaved]
  · rw [hthreads]
    exact h.threads_update hl

theorem Counted.register (h : Counted c s) (hpc : s.threads t = .register m) :
    Counted c (s.register t m) := by
  have hfacts := h.thread t
  rw [hpc] at hfacts
  unfold Service.register
  split
  · exact h.thread_moves (l := .push m) rfl rfl rfl rfl rfl hfacts h.returned
  · exact h

/-- A push that succeeds brings the message into one place, and one that drops
it ends a `log` that the invariant does not speak of. -/
theorem Counted.push (h : Counted c s) (hpc : s.threads t = .push m) :
    Counted c (s.push c t m) := by
  have hfacts := h.thread t
  rw [hpc] at hfacts
  obtain ⟨rfl, hseq, hnowhere⟩ := hfacts
  unfold Service.push
  split
  · -- every other message keeps its places
    have hplaces (n : Message τ ι) : Service.places { s with
          queue := update s.queue m.thread (s.queue m.thread ++ [m])
          threads := update s.threads m.thread (.notify m .load) } n =
        s.places n + if n = m then 1 else 0 := by
      by_cases hn : n.thread = m.thread
      · simp only [Service.places, hn, update_self, List.count_append, List.count_singleton,
          beq_iff_eq, eq_comm (a := m)]
        omega
      · have hne : n ≠ m := fun heq => hn (by rw [heq])
        simp only [Service.places, update_of_ne hn, if_neg hne, Nat.add_zero]
    have hother {n : Message τ ι} (hn : s.places n = 1) : n ≠ m := by
      rintro rfl
      omega
    refine ⟨fun u n hn => ?_, fun n (hn : s.sent n.thread ≤ n.seq) => ?_, fun u => ?_,
      fun n hn hretry => ?_⟩
    · by_cases hu : u = m.thread
      · subst hu
        simp only [update_self, List.mem_append, List.mem_singleton] at hn
        rcases hn with hn | rfl
        · exact h.owned _ n hn
        · rfl
      · simp only [update_of_ne hu] at hn
        exact h.owned u n hn
    · have hne : n ≠ m := by
        rintro rfl
        omega
      rw [hplaces, if_neg hne]
      exact h.fresh n hn
    · by_cases hu : u = m.thread
      · subst hu
        simp only [update_self]
        exact (hplaces m).trans (by simp [hnowhere])
      · have hu' := h.thread u
        simp only [update_of_ne hu]
        cases hl : s.threads u with
        | idle => trivial
        | register n | push n =>
            rw [hl] at hu'
            refine ⟨hu'.1, hu'.2.1, (hplaces n).trans ?_⟩
            rw [if_neg fun heq => hu (by rw [← hu'.1, heq]), hu'.2.2]
        | notify n pc =>
            rw [hl] at hu'
            refine (hplaces n).trans ?_
            rw [if_neg (hother hu'), hu']
    · rw [hplaces, if_neg (hother (h.returned n hn hretry))]
      exact h.returned n hn hretry
  · split
    · exact h
    · next hdrop =>
        refine h.thread_moves (l := .idle) rfl rfl rfl rfl rfl trivial fun n hn hretry => ?_
        rcases List.mem_cons.mp hn with rfl | hn
        · rw [hdrop] at hretry
          cases hretry
        · exact h.returned n hn hretry

/-- When `notify` is over the message is still in one place, and its `log`
returns. -/
theorem Counted.notify (h : Counted c s) {pc : NotifyPc}
    (hpc : s.threads t = .notify m pc) : Counted c (s.notifyStep t m pc) := by
  have hfacts := h.thread t
  rw [hpc] at hfacts
  refine h.thread_moves rfl (WorkerPc.hand_rouse _ _) rfl rfl rfl ?_ fun n hn hretry => ?_
  · cases hnext : pc.next s.futex with
    | none => trivial
    | some pc' => exact hfacts
  · simp only [Service.notifyStep] at hn
    split at hn
    · rcases List.mem_cons.mp hn with rfl | hn
      · exact hfacts
      · exact h.returned n hn hretry
    · exact h.returned n hn hretry

theorem Counted.log (h : Counted c s) {i : ι} (hnext : s.log t i = some s') :
    Counted c s' := by
  unfold Service.log at hnext
  split at hnext
  · cases hnext
    have hmono (u : τ) : s.sent u ≤ update s.sent t (s.sent t + 1) u := by
      by_cases hu : u = t
      · subst hu
        simp
      · simp [update_of_ne hu]
    refine ⟨h.owned, fun n hn => h.fresh n (Nat.le_trans (hmono _) hn), fun u => ?_, h.returned⟩
    by_cases hu : u = t
    · subst hu
      have hnowhere := h.fresh ⟨u, s.sent u, i⟩ (Nat.le_refl _)
      simp only [update_self]
      split
      · exact ⟨rfl, by simp, hnowhere⟩
      · exact ⟨rfl, by simp, hnowhere⟩
    · simp only [update_of_ne hu]
      exact (h.thread u).keeps rfl (hmono u)
  · cases hnext

/-- The worker, when it has popped the first message of a channel. -/
theorem Counted.pop (h : Counted c s) {rest : List (Message τ ι)} {i : Nat}
    (hhand : s.worker.hand = []) (hqueue : s.queue t = m :: rest) :
    Counted c { s with queue := update s.queue t rest, worker := .saving i m } := by
  have hm : m.thread = t := h.owned t m (by rw [hqueue]; exact List.mem_cons_self)
  refine h.elsewhere (fun u n hn => ?_) ?_ rfl rfl rfl
  · by_cases hu : u = t
    · subst hu
      simp only [update_self] at hn
      rw [hqueue]
      exact List.mem_cons_of_mem _ hn
    · simpa only [update_of_ne hu] using hn
  · have hheld : (WorkerPc.saving i m).hand = [m] := rfl
    funext n
    simp only [Service.places, hhand, hheld, List.count_nil, List.count_singleton, beq_iff_eq]
    by_cases hn : n.thread = t
    · rw [hn, hqueue, update_self, List.count_cons]
      simp only [beq_iff_eq]
      omega
    · rw [update_of_ne hn, if_neg fun heq => hn (by rw [← heq, hm])]

/-- The message in the worker's hands is saved, which keeps it in one place. -/
theorem Counted.save (h : Counted c s) {i : Nat} (hpc : s.worker = .saving i m) :
    Counted c { s with
      saved := update s.saved m.logger (s.saved m.logger ++ [m])
      worker := .scan (i + 1) true } := by
  refine h.elsewhere (fun u n hn => hn) ?_ rfl rfl rfl
  funext n
  simp only [Service.places, hpc, WorkerPc.hand, List.count_nil, List.count_singleton,
    beq_iff_eq]
  by_cases hn : n.logger = m.logger
  · rw [hn, update_self, List.count_append, List.count_singleton]
    simp only [beq_iff_eq]
    omega
  · rw [update_of_ne hn, if_neg fun heq => hn (by rw [heq])]

theorem Counted.worker_moves (h : Counted c s) (hqueue : s'.queue = s.queue)
    (hhand : s'.worker.hand = s.worker.hand) (hsaved : s'.saved = s.saved)
    (hsent : s'.sent = s.sent) (hthreads : s'.threads = s.threads)
    (hreturned : s'.returned = s.returned) : Counted c s' := by
  refine h.elsewhere (by simp [hqueue]) ?_ hsent hthreads hreturned
  funext m
  simp only [Service.places, hqueue, hhand, hsaved]

theorem Counted.scan (h : Counted c s) {i : Nat} {hasMessages : Bool}
    (hpc : s.worker = .scan i hasMessages) : Counted c (s.scan i hasMessages) := by
  have hhand : s.worker.hand = [] := by rw [hpc]; rfl
  unfold Service.scan
  split
  · split
    · exact h.worker_moves rfl hhand.symm rfl rfl rfl rfl
    · next hqueue => exact h.pop hhand hqueue
  · split <;> exact h.worker_moves rfl hhand.symm rfl rfl rfl rfl

theorem Counted.work (h : Counted c s) (hnext : s.work = some s') : Counted c s' := by
  cases hpc : s.worker with
  | scan i hasMessages =>
      simp only [Service.work, hpc] at hnext
      cases hnext
      exact h.scan hpc
  | saving i m =>
      simp only [Service.work, hpc] at hnext
      cases hnext
      exact h.save hpc
  | asleep | returned =>
      simp only [Service.work, hpc] at hnext
      cases hnext
  | collecting =>
      simp only [Service.work, hpc] at hnext
      split at hnext <;> cases hnext
      · exact h.worker_moves rfl (by rw [hpc]) rfl rfl rfl rfl
      · exact h.worker_moves rfl (by rw [hpc]; rfl) rfl rfl rfl rfl
  | loadStopping =>
      simp only [Service.work, hpc] at hnext
      cases hnext
      split
      · exact h.worker_moves rfl (by rw [hpc]; rfl) rfl rfl rfl rfl
      · split <;> exact h.worker_moves rfl (by rw [hpc]; rfl) rfl rfl rfl rfl
  | storeZero =>
      simp only [Service.work, hpc] at hnext
      cases hnext
      exact h.worker_moves rfl (by rw [hpc]; rfl) rfl rfl rfl rfl
  | futexWait | woken =>
      simp only [Service.work, hpc] at hnext
      cases hnext
      split <;> exact h.worker_moves rfl (by rw [hpc]; rfl) rfl rfl rfl rfl

theorem Counted.stopStep (h : Counted c s) (hnext : s.stopStep = some s') : Counted c s' := by
  unfold Service.stopStep at hnext
  split at hnext
  · cases hnext
    exact h.worker_moves rfl rfl rfl rfl rfl rfl
  · cases hnext
    exact h.worker_moves rfl (WorkerPc.hand_rouse _ _) rfl rfl rfl rfl
  · split at hnext
    · cases hnext
      exact h.worker_moves rfl rfl rfl rfl rfl rfl
    · cases hnext
  · cases hnext

theorem Counted.initial : Counted c (Service.initial : Service τ ι) :=
  ⟨fun _ _ hm => absurd hm List.not_mem_nil, fun _ _ => rfl, fun _ => trivial,
    fun _ hm => absurd hm List.not_mem_nil⟩

/-- No step loses a message or doubles it. One lemma for each access of a
thread and of the worker. -/
theorem Counted.next {l : Label τ ι} (h : Counted c s) (hnext : s.next c l = some s') :
    Counted c s' := by
  cases l with
  | log t i => exact h.log hnext
  | step t =>
      simp only [Service.next, Service.logStep] at hnext
      split at hnext <;> cases hnext
      · next hpc => exact h.register hpc
      · next hpc => exact h.push hpc
      · next hpc => exact h.notify hpc
  | stop =>
      simp only [Service.next, Service.stop] at hnext
      split at hnext <;> cases hnext
      exact h.worker_moves rfl rfl rfl rfl rfl rfl
  | stopStep => exact h.stopStep hnext
  | work => exact h.work hnext
  | interrupt | spurious =>
      simp only [Service.next] at hnext
      split at hnext <;> cases hnext
      next hpc => exact h.worker_moves rfl (by rw [hpc]; rfl) rfl rfl rfl rfl
  | setErrno e =>
      simp only [Service.next] at hnext
      split at hnext <;> cases hnext
      exact h.worker_moves rfl rfl rfl rfl rfl rfl

end Counted

section Listed

variable {τ ι : Type*} [DecidableEq τ] {c : Config ι} {s s' : Service τ ι} {t : τ}
  {m : Message τ ι}

/-- Every channel that holds a message is one the worker visits or collects.
So no message waits where nobody looks. -/
structure Listed (s : Service τ ι) : Prop where
  registered : ∀ t, s.registered t = true → t ∈ s.channels ∨ t ∈ s.pending
  pushing : ∀ t m, s.threads t = .push m → s.registered t = true
  queued : ∀ t, s.queue t ≠ [] → s.registered t = true

/-- A thread that does not reach a push it was not at, and whose channel does
not become non-empty. -/
theorem Listed.thread_moves (h : Listed s) {l : LogPc τ ι}
    (hregistered : s'.registered = s.registered) (hchannels : s'.channels = s.channels)
    (hpending : s'.pending = s.pending) (hqueue : ∀ u, u ≠ t → s'.queue u = s.queue u)
    (hqueued : s'.queue t ≠ [] → s.registered t = true)
    (hthreads : s'.threads = update s.threads t l)
    (hl : ∀ m, l = .push m → s.registered t = true) : Listed s' := by
  refine ⟨fun u hu => ?_, fun u m hu => ?_, fun u hu => ?_⟩
  · rw [hchannels, hpending]
    exact h.registered u (by rw [← hregistered]; exact hu)
  · rw [hregistered]
    rw [hthreads] at hu
    by_cases hut : u = t
    · subst hut
      rw [update_self] at hu
      exact hl m hu
    · rw [update_of_ne hut] at hu
      exact h.pushing u m hu
  · rw [hregistered]
    by_cases hut : u = t
    · subst hut
      exact hqueued hu
    · rw [hqueue u hut] at hu
      exact h.queued u hu

theorem Listed.register (h : Listed s) : Listed (s.register t m) := by
  unfold Service.register
  split
  · refine ⟨fun u hu => ?_, fun u n hu => ?_, fun u hu => ?_⟩
    · by_cases hut : u = t
      · exact .inr (by simp [hut])
      · simp only [update_of_ne hut] at hu
        exact (h.registered u hu).imp_right fun hmem => List.mem_append_left _ hmem
    · by_cases hut : u = t
      · simp [hut]
      · simp only [update_of_ne hut] at hu ⊢
        exact h.pushing u n hu
    · by_cases hut : u = t
      · simp [hut]
      · simp only [update_of_ne hut]
        exact h.queued u hu
  · exact h

theorem Listed.push (h : Listed s) (hpc : s.threads t = .push m) :
    Listed (s.push c t m) := by
  unfold Service.push
  split
  · exact h.thread_moves (l := .notify m .load) rfl rfl rfl
      (fun u hu => update_of_ne hu _ _) (fun _ => h.pushing t m hpc) rfl
      fun _ heq => nomatch heq
  · split
    · exact h
    · exact h.thread_moves (l := .idle) rfl rfl rfl (fun _ _ => rfl) (h.queued t) rfl
        fun _ heq => nomatch heq

theorem Listed.notify (h : Listed s) {pc : NotifyPc} : Listed (s.notifyStep t m pc) := by
  refine h.thread_moves rfl rfl rfl (fun _ _ => rfl) (h.queued t) rfl fun n heq => ?_
  cases hnext : pc.next s.futex with
  | none => simp [hnext] at heq
  | some pc' => simp [hnext] at heq

variable [DecidableEq ι]

/-- The worker moves a channel from those pending to those it visits. -/
theorem Listed.work (h : Listed s) (hnext : s.work = some s') : Listed s' := by
  cases hpc : s.worker with
  | collecting =>
      simp only [Service.work, hpc] at hnext
      split at hnext
      · next u rest hpending =>
          cases hnext
          refine ⟨fun v hv => ?_, h.pushing, h.queued⟩
          rcases h.registered v hv with hmem | hmem
          · exact .inl (List.mem_append_left _ hmem)
          · rw [hpending, List.mem_cons] at hmem
            rcases hmem with rfl | hmem
            · exact .inl (by simp)
            · exact .inr hmem
      · cases hnext
        exact ⟨h.registered, h.pushing, h.queued⟩
  | scan i hasMessages =>
      simp only [Service.work, hpc, Service.scan] at hnext
      cases hnext
      split
      · next t _ =>
          split
          · exact ⟨h.registered, h.pushing, h.queued⟩
          · next n rest hqueue =>
              refine ⟨h.registered, h.pushing, fun u hu => h.queued u ?_⟩
              by_cases hut : u = t
              · subst hut
                simp [hqueue]
              · simpa only [update_of_ne hut] using hu
      · split <;> exact ⟨h.registered, h.pushing, h.queued⟩
  | loadStopping =>
      simp only [Service.work, hpc] at hnext
      cases hnext
      split
      · exact ⟨h.registered, h.pushing, h.queued⟩
      · split <;> exact ⟨h.registered, h.pushing, h.queued⟩
  | saving i n =>
      simp only [Service.work, hpc] at hnext
      cases hnext
      exact ⟨h.registered, h.pushing, h.queued⟩
  | storeZero =>
      simp only [Service.work, hpc] at hnext
      cases hnext
      exact ⟨h.registered, h.pushing, h.queued⟩
  | futexWait | woken =>
      simp only [Service.work, hpc] at hnext
      cases hnext
      split <;> exact ⟨h.registered, h.pushing, h.queued⟩
  | asleep | returned =>
      simp only [Service.work, hpc] at hnext
      cases hnext

omit [DecidableEq τ] [DecidableEq ι] in
theorem Listed.initial : Listed (Service.initial : Service τ ι) := by
  refine ⟨fun _ hu => ?_, fun _ _ hu => ?_, fun _ hu => absurd rfl hu⟩
  · cases hu
  · cases hu

/-- A thread pushes only after it has registered, so every step keeps this. -/
theorem Listed.next {l : Label τ ι} (h : Listed s) (hnext : s.next c l = some s') :
    Listed s' := by
  cases l with
  | log t i =>
      simp only [Service.next, Service.log] at hnext
      split at hnext <;> cases hnext
      refine h.thread_moves rfl rfl rfl (fun _ _ => rfl) (h.queued t) rfl fun n heq => ?_
      split at heq
      · assumption
      · cases heq
  | step t =>
      simp only [Service.next, Service.logStep] at hnext
      split at hnext <;> cases hnext
      · exact h.register
      · next hpc => exact h.push hpc
      · exact h.notify
  | work => exact h.work hnext
  | stop =>
      simp only [Service.next, Service.stop] at hnext
      split at hnext <;> cases hnext
      exact ⟨h.registered, h.pushing, h.queued⟩
  | stopStep =>
      simp only [Service.next, Service.stopStep] at hnext
      split at hnext
      · cases hnext
        exact ⟨h.registered, h.pushing, h.queued⟩
      · cases hnext
        exact ⟨h.registered, h.pushing, h.queued⟩
      · split at hnext <;> cases hnext
        exact ⟨h.registered, h.pushing, h.queued⟩
      · cases hnext
  | interrupt | spurious | setErrno e =>
      simp only [Service.next] at hnext
      split at hnext <;> cases hnext
      exact ⟨h.registered, h.pushing, h.queued⟩

end Listed

end Libni.Logging
