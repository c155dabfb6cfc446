import Libni.Logging.Shutdown
import Libni.Logging.WakeUp

/-!
When no wake-up is lost. The worker looks into every channel before it sleeps, so a
message is missed only if its `notify` reads the futex word for the last time when the
worker has gone past its channel and is yet to store 0, or finds the word set while the
worker is asleep and the `notify` that set it has not yet called `wake`. Where every
`notify` keeps clear of these two windows a worker asleep leaves no returned message
behind, and where one does not the worker can be left asleep over its message. A
message caught in the second window waits for the `wake` that is due; one caught in the
first waits for the next `log`.
-/

namespace Libni.Logging

open Function Libni.Transition Libni.Transition.System

section Windows

variable {τ ι : Type*}

/-- A message whose `log` has returned and that the worker has not popped. -/
def Service.Waiting (s : Service τ ι) (m : Message τ ι) : Prop :=
  m ∈ s.returned ∧ ∃ t, (t ∈ s.channels ∨ t ∈ s.pending) ∧ m ∈ s.queue t

/-- `stop` has set `m_stopping` and completed its `notify`. -/
def Service.StopNotified (s : Service τ ι) : Prop :=
  s.stopping = true ∧ s.stopper = .join

/-- The worker does not sleep over a message of a `log` that has returned, nor
over a request to stop. -/
def Service.NoLostWakeUp (s : Service τ ι) : Prop :=
  s.worker = .asleep → (∀ m, ¬ s.Waiting m) ∧ ¬ s.StopNotified

/-- Whether the access is the last one of `notify` that reads the futex word:
the load if it finds the word set, the exchange otherwise. -/
def NotifyPc.decides (futex : Bool) : NotifyPc → Bool
  | .load => futex
  | .exchange => true
  | .wake => false

/-- The worker goes to sleep without looking into a channel again, unless a
message comes into one that it has still to visit: it has spun as long as it
may, has not been told to stop and finds no message in the rest of its pass,
or it is about to store 0. -/
def Service.Dozing (s : Service τ ι) : Prop :=
  s.worker = .storeZero ∨ s.PassEnds ∧ maxSpins ≤ s.spins ∧ s.stopping = false

/-- A `notify` that reads the futex word for the last time now does not keep
the worker from sleeping: the store of 0 is still to come, or the worker is
asleep and the word already set. -/
def Service.Misses (s : Service τ ι) : Prop :=
  s.Dozing ∨ s.worker = .asleep ∧ s.futex = true

/-- The next access of a thread is not the last read of the word by a `notify`
whose message is still in its channel, or the state does not miss it. That of
a message which has left its channel by then does not matter. -/
def LogPc.HeardOutside (missed : Service τ ι → Prop) (s : Service τ ι) (t : τ) :
    LogPc τ ι → Prop
  | .notify m pc => pc.decides s.futex = true → m ∈ s.queue t → ¬ missed s
  | _ => True

def StopPc.HeardOutside (missed : Service τ ι → Prop) (s : Service τ ι) : StopPc → Prop
  | .notify pc => pc.decides s.futex = true → ¬ missed s
  | _ => True

/-- No `notify` reads the futex word for the last time in a state that misses
it. -/
def HeardOutside (missed : Service τ ι → Prop) (s : Service τ ι) : Label τ ι → Prop
  | .step t => (s.threads t).HeardOutside missed s t
  | .stopStep => s.stopper.HeardOutside missed s
  | _ => True

section Decidable

variable [DecidableEq τ] [DecidableEq ι] (s : Service τ ι)

instance : Decidable s.Dozing := inferInstanceAs (Decidable (_ ∨ _ ∧ _ ∧ _))

instance : Decidable s.Misses := inferInstanceAs (Decidable (_ ∨ _ ∧ _))

variable (missed : Service τ ι → Prop) [DecidablePred missed]

instance (t : τ) (pc : LogPc τ ι) : Decidable (pc.HeardOutside missed s t) :=
  match pc with
  | .notify m pc =>
      inferInstanceAs (Decidable (pc.decides s.futex = true → m ∈ s.queue t → ¬ missed s))
  | .idle | .register _ | .push _ => isTrue trivial

instance (pc : StopPc) : Decidable (pc.HeardOutside missed s) :=
  match pc with
  | .notify pc => inferInstanceAs (Decidable (pc.decides s.futex = true → ¬ missed s))
  | .notCalled | .storeStopping | .join | .returned => isTrue trivial

instance (l : Label τ ι) : Decidable (HeardOutside missed s l) :=
  match l with
  | .step t => inferInstanceAs (Decidable ((s.threads t).HeardOutside missed s t))
  | .stopStep => inferInstanceAs (Decidable (s.stopper.HeardOutside missed s))
  | .log _ _ | .stop | .work | .interrupt | .spurious | .setErrno _ => isTrue trivial

end Decidable

theorem HeardOutside.mono {missed missed' : Service τ ι → Prop} {s : Service τ ι} {l : Label τ ι}
    (hmissed : ∀ u, missed u → missed' u) (h : HeardOutside missed' s l) :
    HeardOutside missed s l := by
  cases l with
  | step t =>
      change (s.threads t).HeardOutside _ s t at h ⊢
      cases hpc : s.threads t with
      | notify m pc =>
          rw [hpc] at h
          exact fun hdecides hm hnow => h hdecides hm (hmissed s hnow)
      | idle | register | push => trivial
  | stopStep =>
      change s.stopper.HeardOutside _ s at h ⊢
      cases hpc : s.stopper with
      | notify pc =>
          rw [hpc] at h
          exact fun hdecides hnow => h hdecides (hmissed s hnow)
      | notCalled | storeStopping | join | returned => trivial
  | log | stop | work | interrupt | spurious | setErrno => trivial

end Windows

section Unreturned

variable {τ ι : Type*} [DecidableEq τ] {c : Config ι} {s s' : Service τ ι} {t : τ}

/-- The message of the call of `log` a thread is in. -/
def LogPc.message : LogPc τ ι → Option (Message τ ι)
  | .idle => none
  | .register m | .push m | .notify m _ => some m

/-- The `log` of the message a thread is at has not returned, nor have those
of later messages. -/
structure Unreturned (s : Service τ ι) : Prop where
  lt : ∀ m ∈ s.returned, m.seq < s.sent m.thread
  current : ∀ t m, (s.threads t).message = some m →
    m.thread = t ∧ m.seq < s.sent t ∧ m ∉ s.returned

/-- A thread that stays at its message or leaves it, returning no other. -/
theorem Unreturned.moves (h : Unreturned s) {l : LogPc τ ι} (hsent : s'.sent = s.sent)
    (hthreads : s'.threads = update s.threads t l)
    (hl : l = .idle ∧ (∀ n ∈ s'.returned, n ∈ s.returned ∨ (s.threads t).message = some n) ∨
      l.message = (s.threads t).message ∧ s'.returned = s.returned) : Unreturned s' where
  lt n hn := by
    rw [hsent]
    rcases hl with ⟨-, hl⟩ | ⟨-, hl⟩
    · rcases hl n hn with hold | hcurrent
      · exact h.lt n hold
      · obtain ⟨rfl, hlt, -⟩ := h.current t n hcurrent
        exact hlt
    · rw [hl] at hn
      exact h.lt n hn
  current u n hu := by
    rw [hsent]
    rw [hthreads] at hu
    by_cases hut : u = t
    · subst hut
      rw [update_self] at hu
      rcases hl with ⟨rfl, -⟩ | ⟨hmessage, hreturned⟩
      · cases hu
      · rw [hreturned]
        exact h.current u n (hmessage ▸ hu)
    · rw [update_of_ne hut] at hu
      obtain ⟨hthread, hlt, hnot⟩ := h.current u n hu
      refine ⟨hthread, hlt, fun hn => ?_⟩
      rcases hl with ⟨-, hl⟩ | ⟨-, hl⟩
      · rcases hl n hn with hold | hcurrent
        · exact hnot hold
        · exact hut (hthread.symm.trans (h.current t n hcurrent).1)
      · rw [hl] at hn
        exact hnot hn

theorem Unreturned.log (h : Unreturned s) {i : ι} (hnext : s.log t i = some s') :
    Unreturned s' := by
  simp only [Service.log] at hnext
  split at hnext <;> cases hnext
  refine ⟨fun n hn => ?_, fun u n hu => ?_⟩
  · have hlt := h.lt n hn
    by_cases hnt : n.thread = t
    · simp only [hnt, update_self]
      rw [hnt] at hlt
      omega
    · simpa only [update_of_ne hnt] using hlt
  · by_cases hut : u = t
    · subst hut
      have hn : n = ⟨u, s.sent u, i⟩ := by
        simp only [update_self] at hu
        split at hu <;> exact (Option.some.inj hu).symm
      subst hn
      refine ⟨rfl, by simp, fun hn => ?_⟩
      exact absurd (h.lt _ hn) (Nat.lt_irrefl _)
    · simp only [update_of_ne hut] at hu ⊢
      exact h.current u n hu

theorem Unreturned.logStep (h : Unreturned s) (hnext : s.logStep c t = some s') :
    Unreturned s' := by
  simp only [Service.logStep] at hnext
  split at hnext <;> cases hnext
  · next m hpc =>
      unfold Service.register
      split
      · exact h.moves (l := .push m) rfl rfl (.inr ⟨by rw [hpc]; rfl, rfl⟩)
      · exact h
  · next m hpc =>
      unfold Service.push
      split
      · exact h.moves (l := .notify m .load) rfl rfl (.inr ⟨by rw [hpc]; rfl, rfl⟩)
      · split
        · exact h
        · refine h.moves (l := .idle) rfl rfl (.inl ⟨rfl, fun n hn => ?_⟩)
          rw [hpc]
          exact (List.mem_cons.mp hn).symm.imp_right fun heq => by rw [heq]; rfl
  · next m pc hpc =>
      refine h.moves rfl rfl ?_
      cases hgoes : pc.next s.futex with
      | none =>
          refine .inl ⟨rfl, fun n hn => ?_⟩
          simp only [Service.notifyStep, hgoes, Option.isNone_none, if_true] at hn
          rw [hpc]
          exact (List.mem_cons.mp hn).symm.imp_right fun heq => by rw [heq]; rfl
      | some pc' =>
          refine .inr ⟨by rw [hpc]; rfl, ?_⟩
          simp only [Service.notifyStep, hgoes, Option.isNone_some, Bool.false_eq_true, if_false]

variable [DecidableEq ι]

theorem Service.work_frame (hnext : s.work = some s') :
    s'.sent = s.sent ∧ s'.threads = s.threads ∧ s'.returned = s.returned ∧
      s'.stopper = s.stopper ∧ s'.stopping = s.stopping := by
  cases hpc : s.worker with
  | collecting =>
      simp only [Service.work, hpc] at hnext
      split at hnext <;> cases hnext <;> exact ⟨rfl, rfl, rfl, rfl, rfl⟩
  | scan i hasMessages =>
      simp only [Service.work, hpc, Service.scan] at hnext
      cases hnext
      (repeat' split) <;> exact ⟨rfl, rfl, rfl, rfl, rfl⟩
  | saving | storeZero =>
      simp only [Service.work, hpc] at hnext
      cases hnext
      exact ⟨rfl, rfl, rfl, rfl, rfl⟩
  | loadStopping | futexWait | woken =>
      simp only [Service.work, hpc] at hnext
      cases hnext
      (repeat' split) <;> exact ⟨rfl, rfl, rfl, rfl, rfl⟩
  | asleep | returned =>
      simp only [Service.work, hpc] at hnext
      cases hnext

theorem Unreturned.next {l : Label τ ι} (h : Unreturned s) (hnext : s.next c l = some s') :
    Unreturned s' := by
  have helsewhere (hsent : s'.sent = s.sent) (hthreads : s'.threads = s.threads)
      (hreturned : s'.returned = s.returned) : Unreturned s' :=
    ⟨by rw [hsent, hreturned]; exact h.lt,
      by rw [hsent, hthreads, hreturned]; exact h.current⟩
  cases l with
  | log t i => exact h.log hnext
  | step t => exact h.logStep hnext
  | work =>
      obtain ⟨hsent, hthreads, hreturned, -⟩ := Service.work_frame hnext
      exact helsewhere hsent hthreads hreturned
  | stop =>
      simp only [Service.next, Service.stop] at hnext
      split at hnext <;> cases hnext
      exact helsewhere rfl rfl rfl
  | stopStep =>
      simp only [Service.next, Service.stopStep] at hnext
      split at hnext
      · cases hnext
        exact helsewhere rfl rfl rfl
      · cases hnext
        exact helsewhere rfl rfl rfl
      · split at hnext <;> cases hnext
        exact helsewhere rfl rfl rfl
      · cases hnext
  | interrupt | spurious =>
      simp only [Service.next] at hnext
      split at hnext <;> cases hnext
      exact helsewhere rfl rfl rfl
  | setErrno e =>
      simp only [Service.next] at hnext
      split at hnext <;> cases hnext
      exact helsewhere rfl rfl rfl

end Unreturned

section Unheard

variable {τ ι : Type*} [DecidableEq τ] {c : Config ι} {s s' : Service τ ι} {t : τ}
  {m : Message τ ι} {pc : NotifyPc}

/-- Every `notify` that concerns a message in a channel, and that of `stop`,
has still to read the futex word for the last time. -/
structure Service.Unheard (s : Service τ ι) : Prop where
  messages : ∀ t, ∀ m ∈ s.queue t, m ∉ s.returned ∧ s.threads t ≠ .notify m .wake
  stop : s.stopper ≠ .notify .wake ∧ s.stopper ≠ .join

/-- A `notify` ends with the call of `wake` or by finding the word set. -/
theorem NotifyPc.of_next_none {futex : Bool} (h : pc.next futex = none) :
    pc = .wake ∨ futex = true ∧ pc.decides futex = true := by
  cases pc with
  | load | exchange => cases futex <;> simp_all [NotifyPc.next, NotifyPc.decides]
  | wake => exact .inl rfl

theorem NotifyPc.of_next_wake {futex : Bool} (h : pc.next futex = some .wake) :
    pc.decides futex = true := by
  cases pc with
  | load | wake => cases futex <;> simp [NotifyPc.next] at h
  | exchange => rfl

/-- A message that `log` returns in a step of `notify` is its own, and this
step has called `wake` or found the word set. -/
theorem Service.mem_returned_notifyStep {n : Message τ ι}
    (hmem : n ∈ (s.notifyStep t m pc).returned) :
    n ∈ s.returned ∨ n = m ∧ (pc = .wake ∨ s.futex = true ∧ pc.decides s.futex = true) := by
  simp only [Service.notifyStep] at hmem
  split at hmem
  · next hends =>
      have hlast := NotifyPc.of_next_none (Option.isNone_iff_eq_none.mp hends)
      exact (List.mem_cons.mp hmem).symm.imp_right fun heq => ⟨heq, hlast⟩
  · exact .inl hmem

/-- The step of a `notify` whose last read of the word, if this is it,
concerns no message in the channel. The messages that are in channels keep
their own `notify` ahead. -/
theorem Service.Unheard.notify (h : s.Unheard) (howned : ∀ u, ∀ n ∈ s.queue u, n.thread = u)
    (hthread : m.thread = t) (hpc : s.threads t = .notify m pc)
    (hgone : pc.decides s.futex = true → m ∉ s.queue t) : (s.notifyStep t m pc).Unheard := by
  have hother {u : τ} {n : Message τ ι} (hn : n ∈ s.queue u)
      (hnot : pc = .wake ∨ pc.decides s.futex = true) : n ≠ m := by
    rintro rfl
    obtain rfl : t = u := hthread.symm.trans (howned u n hn)
    rcases hnot with rfl | hnot
    · exact (h.messages t n hn).2 hpc
    · exact hgone hnot hn
  refine ⟨fun u n hn => ?_, h.stop⟩
  obtain ⟨hreturned, hwake⟩ := h.messages u n hn
  refine ⟨fun hmem => ?_, fun hat => ?_⟩
  · rcases Service.mem_returned_notifyStep hmem with hmem | ⟨heq, hlast⟩
    · exact hreturned hmem
    · exact hother hn (hlast.imp_right And.right) heq
  · simp only [Service.notifyStep] at hat
    by_cases hu : u = t
    · subst hu
      rw [update_self] at hat
      cases hgoes : pc.next s.futex with
      | none =>
          rw [hgoes] at hat
          cases hat
      | some pc' =>
          rw [hgoes] at hat
          obtain ⟨heq, rfl⟩ := LogPc.notify.inj hat
          exact hother hn (.inr (NotifyPc.of_next_wake hgoes)) heq.symm
    · rw [update_of_ne hu] at hat
      exact hwake hat

/-- A thread that goes elsewhere than to a call of `wake` and fills at most
its own channel. -/
theorem Service.Unheard.moves (h : s.Unheard) {l : LogPc τ ι} (hl : ∀ n, l ≠ .notify n .wake)
    (hthreads : s'.threads = update s.threads t l) (hstopper : s'.stopper = s.stopper)
    (hqueue : ∀ u ≠ t, s'.queue u = s.queue u)
    (hreturned : ∀ u, ∀ n ∈ s'.queue u, n ∉ s'.returned) : s'.Unheard := by
  refine ⟨fun u n hn => ⟨hreturned u n hn, ?_⟩, by rw [hstopper]; exact h.stop⟩
  rw [hthreads]
  by_cases hut : u = t
  · subst hut
    rw [update_self]
    exact hl n
  · rw [update_of_ne hut]
    rw [hqueue u hut] at hn
    exact (h.messages u n hn).2

omit [DecidableEq τ] in
/-- A pass that begins will find every message, since all channels have been
collected. -/
theorem Service.Unheard.startPass (hlisted : Listed s) (hpending : s.pending = [])
    (hstop : s.stopper ≠ .notify .wake ∧ s.stopper ≠ .join)
    (hempty : ∀ u ∈ s.channels, s.queue u = []) : s.Unheard := by
  refine ⟨fun u n hn => ?_, hstop⟩
  have hmem := hlisted.registered u (hlisted.queued u (List.ne_nil_of_mem hn))
  rw [hpending] at hmem
  rw [hempty u (hmem.resolve_right List.not_mem_nil)] at hn
  exact absurd hn List.not_mem_nil

variable [DecidableEq ι]

theorem Counted.not_queued (hcount : Counted c s) (hpc : s.threads t = .push m) (u : τ) :
    m ∉ s.queue u := by
  intro hm
  have hfacts := hcount.thread t
  rw [hpc] at hfacts
  obtain rfl := hcount.owned u m hm
  have hpos := List.count_pos_iff.mpr hm
  have hnowhere := hfacts.2.2
  unfold Service.places at hnowhere
  omega

/-- A push puts into the channel a message whose `log` has not returned, and
one that `log` drops is in no channel. -/
theorem Service.push_unreturned (hfresh : Unreturned s) (hcount : Counted c s)
    (hpc : s.threads t = .push m) (hnone : ∀ u, ∀ n ∈ s.queue u, n ∉ s.returned) :
    ∀ u, ∀ n ∈ (s.push c t m).queue u, n ∉ (s.push c t m).returned := by
  obtain ⟨-, -, hnot⟩ := hfresh.current t m (by rw [hpc]; rfl)
  intro u n
  unfold Service.push
  split
  · intro hn
    by_cases hut : u = t
    · subst hut
      simp only [update_self, List.mem_append, List.mem_singleton] at hn
      rcases hn with hn | rfl
      · exact hnone u n hn
      · exact hnot
    · simp only [update_of_ne hut] at hn
      exact hnone u n hn
  · split
    · exact hnone u n
    · intro hn hmem
      rcases List.mem_cons.mp hmem with rfl | hmem
      · exact hcount.not_queued hpc u hn
      · exact hnone u n hn hmem

/-- The message about to be pushed has its whole `notify` ahead. -/
theorem Service.Unheard.push (h : s.Unheard) (hfresh : Unreturned s) (hcount : Counted c s)
    (hpc : s.threads t = .push m) : (s.push c t m).Unheard := by
  have hnone := Service.push_unreturned hfresh hcount hpc fun u n hn => (h.messages u n hn).1
  unfold Service.push at hnone ⊢
  split
  · next hroom =>
      simp only [if_pos hroom] at hnone
      exact h.moves (l := .notify m .load) (by simp) rfl rfl (fun u hu => update_of_ne hu _ _) hnone
  · next hfull =>
      simp only [if_neg hfull] at hnone
      split
      · exact h
      · next hdrops =>
          simp only [hdrops] at hnone
          exact h.moves (l := .idle) (by simp) rfl rfl (fun _ _ => rfl) hnone

end Unheard

section Attentive

variable {τ ι : Type*} [DecidableEq τ] {c : Config ι} {s s' : Service τ ι} {t : τ}
  {m : Message τ ι} {pc : NotifyPc}

/-- The worker is inside `wait`, past the store of 0, and nobody has set the
word since. -/
def Service.Waits (s : Service τ ι) : Prop :=
  s.futex = false ∧ (s.worker = .futexWait ∨ s.worker = .asleep ∨ s.worker = .woken)

/-- `stop` sets `m_stopping` before it calls `notify`. -/
def Told (s : Service τ ι) : Prop :=
  (∃ pc, s.stopper = .notify pc) ∨ s.stopper = .join → s.stopping = true

/-- From the end of the last pass on, and for as long as the word is 0, every
`notify` that could end the sleep is still to come. -/
def Attentive (s : Service τ ι) : Prop :=
  s.Dozing ∨ s.Waits → s.Unheard

omit [DecidableEq τ] in
theorem Service.Dozing.of_notify (pc : NotifyPc) (h : (s.notify pc).Dozing) : s.Dozing := by
  rcases pc.rouse_cases s.worker with hsame | ⟨-, -, hwoken⟩
  · simpa only [Service.Dozing, Service.PassEnds, Service.notify, hsame] using h
  · simp only [Service.Dozing, Service.PassEnds, Service.notify, hwoken] at h
    rcases h with hstore | ⟨hends, -⟩
    · cases hstore
    · exact hends.elim

omit [DecidableEq τ] in
/-- A word that is clear after an access of `notify` was not set by it, and
the access is not the last one that reads it. -/
theorem Service.Waits.of_notify (pc : NotifyPc) (h : (s.notify pc).Waits) :
    s.Waits ∧ pc.decides s.futex = false := by
  obtain ⟨hclear, hworker⟩ := h
  simp only [Service.notify] at hclear hworker
  have hold : s.futex = false ∧ pc.decides s.futex = false := by
    cases pc with
    | load => exact ⟨hclear, hclear⟩
    | exchange => cases hclear
    | wake => exact ⟨hclear, rfl⟩
  refine ⟨⟨hold.1, ?_⟩, hold.2⟩
  rcases pc.rouse_cases s.worker with hsame | ⟨-, hasleep, -⟩
  · rwa [hsame] at hworker
  · exact .inr (.inl hasleep)

omit [DecidableEq τ] in
/-- A thread that is not in `notify`. It may fill a channel, which can only
keep the worker from dozing. -/
theorem Attentive.keeps (h : Attentive s) (hworker : s'.worker = s.worker)
    (hfutex : s'.futex = s.futex) (hstopping : s'.stopping = s.stopping)
    (hspins : s'.spins = s.spins) (hchannels : s'.channels = s.channels)
    (hempty : ∀ u, s'.queue u = [] → s.queue u = []) (hunheard : s.Unheard → s'.Unheard) :
    Attentive s' := by
  intro hcase
  refine hunheard (h (hcase.imp (fun hdozing => ?_) fun hwaits => ?_))
  · unfold Service.Dozing Service.PassEnds at hdozing ⊢
    rw [hworker, hspins, hstopping, hchannels] at hdozing
    refine hdozing.imp_right fun ⟨hends, hrest⟩ => ⟨?_, hrest⟩
    split at hends
    · exact fun u hu => hempty u (hends u hu)
    · trivial
    · exact hends.elim
  · unfold Service.Waits at hwaits ⊢
    rwa [hworker, hfutex] at hwaits

theorem Attentive.notify (h : Attentive s) (howned : ∀ u, ∀ n ∈ s.queue u, n.thread = u)
    (hthread : m.thread = t) (hpc : s.threads t = .notify m pc)
    (hguard : pc.decides s.futex = true → m ∈ s.queue t → ¬ s.Dozing) :
    Attentive (s.notifyStep t m pc) := by
  intro hcase
  rcases hcase with hdozing | hwaits
  · have hold : s.Dozing := Service.Dozing.of_notify pc hdozing
    exact (h (.inl hold)).notify howned hthread hpc fun hdecides hm => hguard hdecides hm hold
  · obtain ⟨hold, hnot⟩ := Service.Waits.of_notify pc hwaits
    refine (h (.inr hold)).notify howned hthread hpc fun hdecides => ?_
    rw [hnot] at hdecides
    cases hdecides

theorem Attentive.log (h : Attentive s) {i : ι} (hnext : s.log t i = some s') :
    Attentive s' := by
  simp only [Service.log] at hnext
  split at hnext <;> cases hnext
  refine h.keeps rfl rfl rfl rfl rfl (fun _ hu => hu) fun hquiet => ?_
  refine hquiet.moves (fun n => ?_) rfl rfl (fun _ _ => rfl)
    fun u n hn => (hquiet.messages u n hn).1
  split <;> simp

omit [DecidableEq τ] in
/-- `stop` sets `m_stopping`, which ends the dozing before the load of it, and
its `notify` is heard if the worker is past that load. -/
theorem Attentive.stopStep (h : Attentive s) (hguard : HeardOutside Service.Dozing s .stopStep)
    (hnext : s.stopStep = some s') : Attentive s' := by
  simp only [Service.stopStep] at hnext
  change s.stopper.HeardOutside _ s at hguard
  split at hnext
  · cases hnext
    intro hcase
    have hold : s.Dozing ∨ s.Waits := by
      refine hcase.imp_left fun hdozing => hdozing.imp_right fun hends => ?_
      cases hends.2.2
    exact ⟨(h hold).messages, by simp⟩
  · next pc hpc =>
      cases hnext
      rw [hpc] at hguard
      intro hcase
      have hold : (s.Dozing ∨ s.Waits) ∧ pc.decides s.futex = false := by
        rcases hcase with hdozing | hwaits
        · have hold : s.Dozing := Service.Dozing.of_notify pc hdozing
          exact ⟨.inl hold, Bool.eq_false_iff.mpr fun hdecides => hguard hdecides hold⟩
        · obtain ⟨hold, hnot⟩ := Service.Waits.of_notify pc hwaits
          exact ⟨.inr hold, hnot⟩
      have hquiet := h hold.1
      refine ⟨hquiet.messages, ?_⟩
      cases hgoes : pc.next s.futex with
      | none =>
          rcases NotifyPc.of_next_none hgoes with rfl | ⟨-, hdecides⟩
          · exact absurd hpc hquiet.stop.1
          · cases hold.2.symm.trans hdecides
      | some pc' =>
          refine ⟨fun hwake => ?_, by simp⟩
          obtain rfl : pc' = .wake := StopPc.notify.inj hwake
          cases hold.2.symm.trans (NotifyPc.of_next_wake hgoes)
  · split at hnext <;> cases hnext
    next hworker =>
      intro hcase
      simp [Service.Dozing, Service.PassEnds, Service.Waits, hworker] at hcase
  · cases hnext

omit [DecidableEq τ] in
/-- A worker that neither dozes nor waits has nothing to answer for. -/
theorem Attentive.awake (hdozing : ¬ s'.Dozing)
    (hworker : s'.worker ≠ .futexWait ∧ s'.worker ≠ .asleep ∧ s'.worker ≠ .woken) :
    Attentive s' := by
  intro hcase
  rcases hcase with hcase | ⟨-, hcase | hcase | hcase⟩
  · exact absurd hcase hdozing
  · exact absurd hcase hworker.1
  · exact absurd hcase hworker.2.1
  · exact absurd hcase hworker.2.2

omit [DecidableEq τ] in
theorem Attentive.goes (h : Attentive s) (hstopper : s'.stopper = s.stopper)
    (hqueue : s'.queue = s.queue) (hthreads : s'.threads = s.threads)
    (hreturned : s'.returned = s.returned)
    (hcase : s'.Dozing ∨ s'.Waits → s.Dozing ∨ s.Waits) : Attentive s' := by
  intro hnow
  have hold := h (hcase hnow)
  refine ⟨?_, by rw [hstopper]; exact hold.stop⟩
  rw [hqueue, hthreads, hreturned]
  exact hold.messages

/-- A pass only gets nearer to its end: a channel it leaves behind was empty,
and one that was not keeps the worker awake. -/
theorem Attentive.scan (h : Attentive s) {i : Nat} {hasMessages : Bool}
    (hpc : s.worker = .scan i hasMessages) : Attentive (s.scan i hasMessages) := by
  unfold Service.scan
  split
  · next t hchannel =>
      split
      · next hqueue =>
          refine h.goes rfl rfl rfl rfl fun hcase => ?_
          cases hasMessages with
          | true => simp [Service.Dozing, Service.PassEnds, Service.Waits] at hcase
          | false =>
              obtain ⟨hlt, rfl⟩ := List.getElem?_eq_some_iff.mp hchannel
              simp only [Service.Dozing, Service.PassEnds, Service.Waits, reduceCtorEq, false_or,
                and_false, or_false] at hcase
              refine .inl (.inr ⟨?_, hcase.2⟩)
              simp only [Service.PassEnds, hpc, List.drop_eq_getElem_cons hlt,
                List.forall_mem_cons]
              exact ⟨hqueue, hcase.1⟩
      · refine Attentive.awake ?_ (by simp)
        simp [Service.Dozing, Service.PassEnds]
  · next hend =>
      cases hasMessages with
      | true =>
          refine Attentive.awake ?_ (by simp [Service.again])
          simp [Service.Dozing, Service.PassEnds, Service.again]
      | false =>
          refine h.goes rfl rfl rfl rfl fun hcase => ?_
          simp only [Bool.false_eq_true, if_false, Service.Dozing, Service.PassEnds,
            Service.Waits, reduceCtorEq, false_or, true_and, or_false, and_false] at hcase
          refine .inl (.inr ⟨?_, hcase⟩)
          simp only [Service.PassEnds, hpc,
            List.drop_eq_nil_of_le (List.getElem?_eq_none_iff.mp hend)]
          exact fun u hu => absurd hu List.not_mem_nil

variable [DecidableEq ι]

theorem Attentive.push (h : Attentive s) (hfresh : Unreturned s) (hcount : Counted c s)
    (hpc : s.threads t = .push m) : Attentive (s.push c t m) := by
  have hunheard (hquiet : s.Unheard) : (s.push c t m).Unheard := hquiet.push hfresh hcount hpc
  unfold Service.push at hunheard ⊢
  split
  · next hroom =>
      rw [if_pos hroom] at hunheard
      refine h.keeps rfl rfl rfl rfl rfl (fun u hu => ?_) hunheard
      by_cases hut : u = t
      · subst hut
        simp at hu
      · simpa only [update_of_ne hut] using hu
  · next hfull =>
      rw [if_neg hfull] at hunheard
      split
      · exact h
      · next hdrops =>
          rw [hdrops] at hunheard
          exact h.keeps rfl rfl rfl rfl rfl (fun _ hu => hu) hunheard

theorem Attentive.logStep (h : Attentive s) (hfresh : Unreturned s) (hcount : Counted c s)
    (hguard : HeardOutside Service.Dozing s (.step t)) (hnext : s.logStep c t = some s') :
    Attentive s' := by
  simp only [Service.logStep] at hnext
  change (s.threads t).HeardOutside _ s t at hguard
  split at hnext <;> cases hnext
  · next m hpc =>
      unfold Service.register
      split
      · refine h.keeps rfl rfl rfl rfl rfl (fun _ hu => hu) fun hquiet => ?_
        exact hquiet.moves (l := .push m) (by simp) rfl rfl (fun _ _ => rfl)
          fun u n hn => (hquiet.messages u n hn).1
      · exact h
  · next m hpc => exact h.push hfresh hcount hpc
  · next m pc hpc =>
      rw [hpc] at hguard
      exact h.notify hcount.owned (hfresh.current t m (by rw [hpc]; rfl)).1 hpc hguard

theorem Told.next {l : Label τ ι} (h : Told s) (hnext : s.next c l = some s') : Told s' := by
  have helsewhere (hstopper : s'.stopper = s.stopper) (hstopping : s'.stopping = s.stopping) :
      Told s' := by
    rw [Told, hstopper, hstopping]
    exact h
  cases l with
  | log t i =>
      simp only [Service.next, Service.log] at hnext
      split at hnext <;> cases hnext
      exact helsewhere rfl rfl
  | step t =>
      simp only [Service.next, Service.logStep] at hnext
      split at hnext <;> cases hnext
      · unfold Service.register
        split <;> exact h
      · unfold Service.push
        (repeat' split) <;> exact h
      · exact h
  | stop =>
      simp only [Service.next, Service.stop] at hnext
      split at hnext <;> cases hnext
      exact fun hcalled => by simp at hcalled
  | stopStep =>
      simp only [Service.next, Service.stopStep] at hnext
      split at hnext
      · cases hnext
        exact fun _ => rfl
      · next pc hpc =>
          cases hnext
          exact fun _ => h (.inl ⟨pc, hpc⟩)
      · split at hnext <;> cases hnext
        exact fun hcalled => by simp at hcalled
      · cases hnext
  | work =>
      obtain ⟨-, -, -, hstopper, hstopping⟩ := Service.work_frame hnext
      exact helsewhere hstopper hstopping
  | interrupt | spurious =>
      simp only [Service.next] at hnext
      split at hnext <;> cases hnext
      exact h
  | setErrno e =>
      simp only [Service.next] at hnext
      split at hnext <;> cases hnext
      exact h

/-- The worker dozes off only from a pass that has collected every channel,
and what such a pass finds empty holds no message. -/
theorem Attentive.work (h : Attentive s) (htold : Told s) (hlisted : Listed s)
    (hnext : s.work = some s') : Attentive s' := by
  cases hpc : s.worker with
  | collecting =>
      simp only [Service.work, hpc] at hnext
      split at hnext
      · cases hnext
        refine Attentive.awake ?_ (by simp)
        simp [Service.Dozing, Service.PassEnds]
      · next hpending =>
          cases hnext
          intro hcase
          simp only [Service.Dozing, Service.PassEnds, Service.Waits, reduceCtorEq, false_or,
            and_false, or_false, List.drop_zero] at hcase
          obtain ⟨hempty, -, hclear⟩ := hcase
          refine Service.Unheard.startPass ⟨hlisted.registered, hlisted.pushing, hlisted.queued⟩
            hpending ⟨fun hwake => ?_, fun hjoin => ?_⟩ hempty
          · exact absurd (htold (.inl ⟨_, hwake⟩)) (by rw [hclear]; simp)
          · exact absurd (htold (.inr hjoin)) (by rw [hclear]; simp)
  | scan i hasMessages =>
      simp only [Service.work, hpc] at hnext
      cases hnext
      exact h.scan hpc
  | saving i n =>
      simp only [Service.work, hpc] at hnext
      cases hnext
      refine Attentive.awake ?_ (by simp)
      simp [Service.Dozing, Service.PassEnds]
  | loadStopping =>
      simp only [Service.work, hpc] at hnext
      cases hnext
      split
      · refine Attentive.awake ?_ (by simp)
        simp [Service.Dozing, Service.PassEnds]
      · next hclear =>
          split
          · refine Attentive.awake ?_ (by simp)
            simp [Service.Dozing, Service.PassEnds]
          · next hspun =>
              refine h.goes rfl rfl rfl rfl fun _ => ?_
              refine .inl (.inr ⟨?_, Nat.le_of_not_lt hspun, by simpa using hclear⟩)
              simp only [Service.PassEnds, hpc]
  | storeZero =>
      simp only [Service.work, hpc] at hnext
      cases hnext
      exact h.goes rfl rfl rfl rfl fun _ => .inl (.inl hpc)
  | futexWait =>
      simp only [Service.work, hpc] at hnext
      cases hnext
      split
      · next hset =>
          refine h.goes rfl rfl rfl rfl fun hcase => ?_
          simp [Service.Dozing, Service.PassEnds, Service.Waits, hset] at hcase
      · next hclear => exact h.goes rfl rfl rfl rfl fun _ => .inr ⟨by simpa using hclear, .inl hpc⟩
  | woken =>
      simp only [Service.work, hpc] at hnext
      cases hnext
      split
      · refine h.goes rfl rfl rfl rfl fun hcase => ?_
        simp only [Service.Dozing, Service.PassEnds, Service.Waits, reduceCtorEq, false_and,
          false_or, and_true, or_false] at hcase
        exact .inr ⟨hcase, .inr (.inr hpc)⟩
      · refine Attentive.awake ?_ (by simp [Service.again])
        simp [Service.Dozing, Service.PassEnds, Service.again]
  | asleep | returned =>
      simp only [Service.work, hpc] at hnext
      cases hnext

theorem Attentive.next {l : Label τ ι} (h : Attentive s) (htold : Told s) (hfresh : Unreturned s)
    (hcount : Counted c s) (hlisted : Listed s) (hguard : HeardOutside Service.Dozing s l)
    (hnext : s.next c l = some s') : Attentive s' := by
  cases l with
  | log t i => exact h.log hnext
  | step t => exact h.logStep hfresh hcount hguard hnext
  | stopStep => exact h.stopStep hguard hnext
  | work => exact h.work htold hlisted hnext
  | stop =>
      simp only [Service.next, Service.stop] at hnext
      split at hnext <;> cases hnext
      exact fun hcase => ⟨(h hcase).messages, by simp⟩
  | interrupt =>
      simp only [Service.next] at hnext
      split at hnext <;> cases hnext
      refine Attentive.awake ?_ (by simp [Service.again])
      simp [Service.Dozing, Service.PassEnds, Service.again]
  | spurious =>
      simp only [Service.next] at hnext
      split at hnext <;> cases hnext
      next hpc =>
        refine h.goes rfl rfl rfl rfl fun hcase => ?_
        simp only [Service.Dozing, Service.PassEnds, Service.Waits, reduceCtorEq, false_and,
          false_or, or_true, and_true] at hcase
        exact .inr ⟨hcase, .inr (.inl hpc)⟩
  | setErrno e =>
      simp only [Service.next] at hnext
      split at hnext <;> cases hnext
      exact h.goes rfl rfl rfl rfl id

end Attentive

section Answered

variable {τ ι : Type*} [DecidableEq τ] {c : Config ι} {s s' : Service τ ι} {t : τ}
  {m : Message τ ι} {pc : NotifyPc}

/-- While the worker sleeps, no message in a channel is one of a `log` that
has returned, and `stop` has not completed its `notify`. -/
def Answered (s : Service τ ι) : Prop :=
  s.worker = .asleep → (∀ t, ∀ m ∈ s.queue t, m ∉ s.returned) ∧ s.stopper ≠ .join

/-- A `notify` that ends with the worker still asleep has found the word set,
so that its message must have left the channel. -/
theorem Answered.notify (h : Answered s) (howned : ∀ u, ∀ n ∈ s.queue u, n.thread = u)
    (hthread : m.thread = t)
    (hguard : pc.decides s.futex = true → m ∈ s.queue t → ¬ s.Misses) :
    Answered (s.notifyStep t m pc) := by
  intro hasleep
  obtain ⟨hwake, hold⟩ := NotifyPc.of_rouse_asleep hasleep
  obtain ⟨hnone, hjoin⟩ := h hold
  refine ⟨fun u n hn hmem => ?_, hjoin⟩
  rcases Service.mem_returned_notifyStep hmem with hmem | ⟨rfl, hlast⟩
  · exact hnone u n hn hmem
  · obtain rfl : t = u := hthread.symm.trans (howned u n hn)
    obtain ⟨hset, hdecides⟩ := hlast.resolve_left hwake
    exact hguard hdecides hn (.inr ⟨hold, hset⟩)

omit [DecidableEq τ] in
theorem Answered.stopStep (h : Answered s) (hguard : HeardOutside Service.Misses s .stopStep)
    (hnext : s.stopStep = some s') : Answered s' := by
  simp only [Service.stopStep] at hnext
  change s.stopper.HeardOutside _ s at hguard
  split at hnext
  · cases hnext
    exact fun hasleep => ⟨(h hasleep).1, by simp⟩
  · next pc hpc =>
      cases hnext
      rw [hpc] at hguard
      intro hasleep
      obtain ⟨hwake, hold⟩ := NotifyPc.of_rouse_asleep hasleep
      refine ⟨(h hold).1, ?_⟩
      cases hgoes : pc.next s.futex with
      | none =>
          obtain ⟨hset, hdecides⟩ := (NotifyPc.of_next_none hgoes).resolve_left hwake
          exact absurd (.inr ⟨hold, hset⟩) (hguard hdecides)
      | some pc' => simp
  · split at hnext <;> cases hnext
    next hworker => exact fun hasleep => by cases hworker.symm.trans hasleep
  · cases hnext

variable [DecidableEq ι]

theorem Answered.logStep (h : Answered s) (hfresh : Unreturned s) (hcount : Counted c s)
    (hguard : HeardOutside Service.Misses s (.step t)) (hnext : s.logStep c t = some s') :
    Answered s' := by
  simp only [Service.logStep] at hnext
  change (s.threads t).HeardOutside _ s t at hguard
  split at hnext <;> cases hnext
  · unfold Service.register
    split <;> exact h
  · next m hpc =>
      intro hasleep
      have hsame : (s.push c t m).worker = s.worker ∧ (s.push c t m).stopper = s.stopper := by
        unfold Service.push
        (repeat' split) <;> exact ⟨rfl, rfl⟩
      rw [hsame.1] at hasleep
      rw [hsame.2]
      exact ⟨Service.push_unreturned hfresh hcount hpc (h hasleep).1, (h hasleep).2⟩
  · next m pc hpc =>
      rw [hpc] at hguard
      exact h.notify hcount.owned (hfresh.current t m (by rw [hpc]; rfl)).1 hguard

theorem Answered.next {l : Label τ ι} (h : Answered s) (hattentive : Attentive s)
    (hfresh : Unreturned s) (hcount : Counted c s) (hguard : HeardOutside Service.Misses s l)
    (hnext : s.next c l = some s') : Answered s' := by
  cases l with
  | log t i =>
      simp only [Service.next, Service.log] at hnext
      split at hnext <;> cases hnext
      exact h
  | step t => exact h.logStep hfresh hcount hguard hnext
  | stopStep => exact h.stopStep hguard hnext
  | work =>
      -- it enters its sleep over the word 0, where every `notify` is still to come
      intro hasleep
      obtain ⟨hpc, hclear, rfl⟩ := Service.work_asleep hnext hasleep
      have hquiet := hattentive (.inr ⟨hclear, .inl hpc⟩)
      exact ⟨fun u n hn => (hquiet.messages u n hn).1, hquiet.stop.2⟩
  | stop =>
      simp only [Service.next, Service.stop] at hnext
      split at hnext <;> cases hnext
      exact fun hasleep => ⟨(h hasleep).1, by simp⟩
  | interrupt | spurious =>
      simp only [Service.next] at hnext
      split at hnext <;> cases hnext
      exact fun hasleep => by cases hasleep
  | setErrno e =>
      simp only [Service.next] at hnext
      split at hnext <;> cases hnext
      exact h

end Answered

section Main

variable {τ ι : Type*} [DecidableEq τ] [DecidableEq ι] {c : Config ι}

/-- What a run keeps in which no `notify` reads the word for the last time
while the worker dozes. -/
structure Wakeful (c : Config ι) (s : Service τ ι) : Prop where
  counted : Counted c s
  listed : Listed s
  unreturned : Unreturned s
  told : Told s
  attentive : Attentive s

theorem Wakeful.initial : Wakeful c (Service.initial : Service τ ι) where
  counted := Counted.initial
  listed := Listed.initial
  unreturned := ⟨fun _ hm => absurd hm List.not_mem_nil, fun _ _ hm => by cases hm⟩
  told hcalled := by simp [Service.initial] at hcalled
  attentive _ := ⟨fun _ _ hm => absurd hm List.not_mem_nil, by simp [Service.initial]⟩

theorem Wakeful.next {s s' : Service τ ι} {l : Label τ ι} (h : Wakeful c s)
    (hguard : HeardOutside Service.Dozing s l) (hnext : s.next c l = some s') : Wakeful c s' where
  counted := h.counted.next hnext
  listed := h.listed.next hnext
  unreturned := h.unreturned.next hnext
  told := h.told.next hnext
  attentive := h.attentive.next h.told h.unreturned h.counted h.listed hguard hnext

end Main

section Missed

variable {τ ι : Type*} [DecidableEq τ] {c : Config ι} {s : Service τ ι} {t : τ}
  {m : Message τ ι} {pc : NotifyPc}

omit [DecidableEq τ] in
theorem Service.Dozing.notify (pc : NotifyPc) (h : s.Dozing) : (s.notify pc).Dozing := by
  rcases pc.rouse_cases s.worker with hsame | ⟨-, hasleep, -⟩
  · simpa only [Service.Dozing, Service.PassEnds, Service.notify, hsame] using h
  · simp [Service.Dozing, Service.PassEnds, hasleep] at h

/-- A deciding access that does not end `notify` has set the word. -/
theorem NotifyPc.next_of_decides {futex : Bool} {pc' : NotifyPc}
    (hdecides : pc.decides futex = true) (h : pc.next futex = some pc') : pc' = .wake := by
  cases pc with
  | load => simp [NotifyPc.next, show futex = true from hdecides] at h
  | exchange =>
      cases futex with
      | true => cases h
      | false => exact (Option.some.inj h).symm
  | wake => cases hdecides

omit [DecidableEq τ] in
/-- A deciding access that finds the word set ends `notify` and wakes nobody. -/
theorem NotifyPc.ends_of_set (hdecides : pc.decides true = true) (w : WorkerPc τ ι) :
    pc.next true = none ∧ pc.rouse w = w := by
  cases pc with
  | load | exchange => exact ⟨rfl, rfl⟩
  | wake => cases hdecides

variable [DecidableEq ι]

/-- Left to itself, a worker that dozes goes on to its sleep. -/
theorem Service.Dozing.sleeps (h : s.Dozing) :
    ∃ ls, (system τ c).Steps Free s ls { s with futex := false, worker := .asleep } := by
  have hlast {ls : List (Label τ ι)}
      (hsteps : (system τ c).Steps Free s ls { s with worker := .storeZero }) :
      ∃ ls, (system τ c).Steps Free s ls { s with futex := false, worker := .asleep } :=
    ⟨_, (hsteps.snoc (l := .work) trivial rfl).snoc (l := .work) trivial rfl⟩
  rcases h with hpc | ⟨hends, hspun, hclear⟩
  · have hstart : (system τ c).Steps Free s [] { s with worker := .storeZero } := by
      rw [← hpc]
      exact .refl
    exact hlast hstart
  · obtain ⟨ls, hpass⟩ := hends.loads (c := c)
    refine hlast (hpass.snoc (l := .work) trivial ?_)
    simp [system, Service.next, Service.work, hclear, Nat.not_lt.mpr hspun]

/-- A call of `log` whose `notify` decides now can return with the worker
asleep, and nothing else happens to its message. -/
theorem Service.Misses.returns (h : s.Misses) (hpc : s.threads t = .notify m pc)
    (hdecides : pc.decides s.futex = true) :
    ∃ ls u, (system τ c).Steps Free s (.step t :: ls) u ∧ u.worker = .asleep ∧ m ∈ u.returned ∧
      u.channels = s.channels ∧ u.pending = s.pending ∧ u.queue = s.queue := by
  have hstep : (system τ c).next s (.step t) = some (s.notifyStep t m pc) := by
    simp only [system, Service.next, Service.logStep, hpc]
  have hfirst : (system τ c).Steps Free s ([] ++ [.step t]) (s.notifyStep t m pc) :=
    .snoc .refl trivial hstep
  rcases h with hdozing | ⟨hasleep, hset⟩
  · have hdozing' : (s.notifyStep t m pc).Dozing := Service.Dozing.notify pc hdozing
    cases hgoes : pc.next s.futex with
    | none =>
        obtain ⟨ls, hsleep⟩ := hdozing'.sleeps (c := c)
        refine ⟨_, _, hfirst.trans hsleep, rfl, ?_, rfl, rfl, rfl⟩
        simp [Service.notifyStep, hgoes]
    | some pc' =>
        obtain rfl := NotifyPc.next_of_decides hdecides hgoes
        have hwake : (s.notifyStep t m pc).threads t = .notify m .wake := by
          simp [Service.notifyStep, hgoes]
        have hnext : (system τ c).next (s.notifyStep t m pc) (.step t) =
            some ((s.notifyStep t m pc).notifyStep t m .wake) := by
          simp only [system, Service.next, Service.logStep, hwake]
        obtain ⟨ls, hsleep⟩ := Service.Dozing.sleeps (c := c)
          (s := (s.notifyStep t m pc).notifyStep t m .wake)
          (Service.Dozing.notify .wake hdozing')
        refine ⟨_, _, (hfirst.snoc trivial hnext).trans hsleep, rfl, ?_, rfl, rfl, rfl⟩
        simp [Service.notifyStep, NotifyPc.next]
  · rw [hset] at hdecides
    obtain ⟨hends, hsame⟩ := NotifyPc.ends_of_set hdecides s.worker
    refine ⟨[], _, hfirst, hsame.trans hasleep, ?_, rfl, rfl, rfl⟩
    simp [Service.notifyStep, hset, hends]

/-- The call of `stop` whose `notify` decides now can come to the join with
the worker asleep. -/
theorem Service.Misses.joins (h : s.Misses) (hpc : s.stopper = .notify pc)
    (hdecides : pc.decides s.futex = true) :
    ∃ ls u, (system τ c).Steps Free s (.stopStep :: ls) u ∧ u.worker = .asleep ∧
      u.stopper = .join ∧ u.stopping = s.stopping := by
  have hstep : (system τ c).next s .stopStep =
      some { s.notify pc with stopper := (pc.next s.futex).elim .join .notify } := by
    simp only [system, Service.next, Service.stopStep, hpc]
  have hfirst : (system τ c).Steps Free s ([] ++ [.stopStep]) _ := .snoc .refl trivial hstep
  rcases h with hdozing | ⟨hasleep, hset⟩
  · have hdozing' : (s.notify pc).Dozing := hdozing.notify pc
    cases hgoes : pc.next s.futex with
    | none =>
        rw [hgoes] at hfirst
        obtain ⟨ls, hsleep⟩ := Service.Dozing.sleeps (c := c)
          (s := { s.notify pc with stopper := .join }) hdozing'
        exact ⟨_, _, hfirst.trans hsleep, rfl, rfl, rfl⟩
    | some pc' =>
        obtain rfl := NotifyPc.next_of_decides hdecides hgoes
        rw [hgoes] at hfirst
        let u : Service τ ι := { (s.notify pc).notify .wake with stopper := .join }
        have hwake : (system τ c).next { s.notify pc with stopper := .notify .wake } .stopStep =
            some u := rfl
        obtain ⟨ls, hsleep⟩ := Service.Dozing.sleeps (c := c) (s := u)
          (Service.Dozing.notify .wake hdozing')
        exact ⟨_, _, (hfirst.snoc trivial hwake).trans hsleep, rfl, rfl, rfl⟩
  · rw [hset] at hdecides hfirst
    obtain ⟨hends, hsame⟩ := NotifyPc.ends_of_set hdecides s.worker
    rw [hends] at hfirst
    exact ⟨[], _, hfirst, hsame.trans hasleep, rfl, rfl⟩

/-- Wherever a `notify` reads the word for the last time in a state that
misses it, the run can go on to a lost wake-up, so that no weaker condition on
the steps would do. -/
theorem missed_notify_loses {l : Label τ ι} (hreach : (system τ c).Reach Free s)
    (hmissed : ¬ HeardOutside Service.Misses s l) :
    ∃ ls u, (system τ c).Steps Free s (l :: ls) u ∧ ¬ u.NoLostWakeUp := by
  have hfacts : Listed s ∧ Told s := by
    refine hreach.invariant (I := fun s => Listed s ∧ Told s) ?_
      fun _ _ _ h _ hnext => ⟨h.1.next hnext, h.2.next hnext⟩
    rintro _ rfl
    exact ⟨Listed.initial, fun hcalled => by simp [Service.initial] at hcalled⟩
  cases l with
  | step t =>
      change ¬ (s.threads t).HeardOutside _ s t at hmissed
      cases hpc : s.threads t with
      | notify m pc =>
          rw [hpc] at hmissed
          obtain ⟨hdecides, hm, hmisses⟩ : pc.decides s.futex = true ∧ m ∈ s.queue t ∧ s.Misses := by
            simpa only [LogPc.HeardOutside, Classical.not_imp, not_not] using hmissed
          obtain ⟨ls, u, hsteps, hasleep, hreturned, hchannels, hpending, hqueue⟩ :=
            hmisses.returns (c := c) hpc hdecides
          refine ⟨ls, u, hsteps, fun hnone => (hnone hasleep).1 m ⟨hreturned, t, ?_⟩⟩
          rw [hchannels, hpending, hqueue]
          have hregistered := hfacts.1.queued t (List.ne_nil_of_mem hm)
          exact ⟨hfacts.1.registered t hregistered, hm⟩
      | idle | register | push =>
          rw [hpc] at hmissed
          exact absurd trivial hmissed
  | stopStep =>
      change ¬ s.stopper.HeardOutside _ s at hmissed
      cases hpc : s.stopper with
      | notify pc =>
          rw [hpc] at hmissed
          obtain ⟨hdecides, hmisses⟩ : pc.decides s.futex = true ∧ s.Misses := by
            simpa only [StopPc.HeardOutside, Classical.not_imp, not_not] using hmissed
          obtain ⟨ls, u, hsteps, hasleep, hjoin, hstill⟩ := hmisses.joins (c := c) hpc hdecides
          exact ⟨ls, u, hsteps,
            fun hnone => (hnone hasleep).2 ⟨hstill.trans (hfacts.2 (.inl ⟨pc, hpc⟩)), hjoin⟩⟩
      | notCalled | storeStopping | join | returned =>
          rw [hpc] at hmissed
          exact absurd trivial hmissed
  | log | stop | work | interrupt | spurious | setErrno => exact absurd trivial hmissed

end Missed

end Libni.Logging
