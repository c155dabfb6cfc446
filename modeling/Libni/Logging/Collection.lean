import Mathlib.Data.List.Nodup
import Libni.Logging.Capture

/-!
No channel enters `m_channels` twice. Registrations that overlap may overwrite
each other's slots, but a thread stores its channel once, and the pop of
`collect_pending_channels` clears a slot after it has read it, so a channel that
was read has at most left the slot that is about to be cleared.
-/

namespace Libni.Logging

open Function Libni.Transition Libni.Transition.System
open Libni.RingBuffer (PushPc PopPc)

variable {τ : Type*}

/-- The channel that the worker has read and not yet appended to `m_channels`. -/
def Collector.found : Collector τ → List τ
  | .popping (.clearIndex (some t)) | .popping (.clearSlot (some t) _) => [t]
  | c => c.hand

/-- The slots of `m_pending_channels` less the one that the worker is about to
clear. -/
def Collector.leaves (r : RingBuffer.Ring (Option τ)) : Collector τ → Nat → Option τ
  | .popping (.clearIndex _) => update r.buf r.readIndex none
  | .popping (.clearSlot _ i) => update r.buf i none
  | _ => r.buf

section Once

variable [DecidableEq τ] {r : RingBuffer.Ring (Option τ)} {t : τ} {s s' : Bus τ}

/-- How often the worker still finds channel `t`, or has found it. A slot that
it has read counts as found, although it is yet to be cleared. -/
def Bus.finds (s : Bus τ) (t : τ) : Nat :=
  slotCount (s.worker.leaves s.pending) t s.pending.size + s.channels.count t +
    s.worker.found.count t

/-- What holds of the registrations in every run, also if they overlap: no
channel is found twice. -/
structure Once (s : Bus τ) : Prop where
  write_lt : s.pending.writeIndex < s.pending.size
  read_lt : s.pending.readIndex < s.pending.size
  registrant : ∀ t, (s.threads t).Facts s.pending t
  loaded : ∀ i, s.worker = .popping (.loadSlot i) → i = s.pending.readIndex
  finds : ∀ t, s.finds t ≤ if (s.threads t).stored then 1 else 0

theorem Once.initial : Once (Bus.initial : Bus τ) := by
  refine ⟨Nat.succ_pos 3, Nat.succ_pos 3, fun _ => trivial, ?_, fun t => le_rfl⟩
  rintro i ⟨⟩

omit [DecidableEq τ] in
/-- The slots are looked at through the index of the worker only. -/
theorem Collector.leaves_congr {r' : RingBuffer.Ring (Option τ)} (c : Collector τ)
    (hbuf : r'.buf = r.buf) (hread : r'.readIndex = r.readIndex) : c.leaves r' = c.leaves r := by
  unfold Collector.leaves
  split <;> simp only [hbuf, hread]

theorem Once.register (h : Once s) {l : Registrant τ} (hbuf : r.buf = s.pending.buf)
    (hsize : r.size = s.pending.size) (hread : r.readIndex = s.pending.readIndex)
    (hwrite : r.writeIndex < r.size) (hfacts : l.Facts r t)
    (hstored : l.stored = (s.threads t).stored) :
    Once { s with pending := r, threads := update s.threads t l } := by
  refine ⟨hwrite, by rw [hread, hsize]; exact h.read_lt, fun u => ?_, fun i hi => ?_, fun u => ?_⟩
  · by_cases hu : u = t
    · subst hu
      simpa using hfacts
    · simpa [update_of_ne hu] using (h.registrant u).keeps hsize
  · exact (h.loaded i hi).trans hread.symm
  · have hfinds := h.finds u
    simp only [Bus.finds, s.worker.leaves_congr hbuf hread, hsize] at hfinds ⊢
    by_cases hu : u = t
    · subst hu
      simpa [hstored] using hfinds
    · simpa [update_of_ne hu] using hfinds

/-- A store into a slot adds at most the channel that is stored. -/
theorem slotCount_leaves_le (c : Collector τ) {w : Nat} (hw : w < r.size) (t u : τ) :
    slotCount (c.leaves (r.setSlot w (some t))) u r.size ≤
      slotCount (c.leaves r) u r.size + if u = t then 1 else 0 := by
  have hstore (buf : Nat → Option τ) : slotCount (update buf w (some t)) u r.size ≤
      slotCount buf u r.size + if u = t then 1 else 0 := by
    have hcount := slotCount_update buf u hw (some t)
    simp only [Option.some.injEq, eq_comm (a := t)] at hcount
    omega
  have hclearing (i : Nat) : slotCount (update (update r.buf w (some t)) i none) u r.size ≤
      slotCount (update r.buf i none) u r.size + if u = t then 1 else 0 := by
    by_cases hi : w = i
    · subst hi
      rw [update_idem]
      exact Nat.le_add_right _ _
    · rw [update_comm hi]
      exact hstore _
  unfold Collector.leaves
  split
  · exact hclearing _
  · exact hclearing _
  · exact hstore _

/-- A channel is stored once, whether or not the store overwrites another one.
The one overwritten is found less often than it should, never more. -/
theorem Once.store (h : Once s) {e : Option τ} {w : Nat}
    (hpc : s.threads t = .registering (.storeSlot e w)) :
    Once { s with
      pending := s.pending.setSlot w e
      threads := update s.threads t (.registering .nextIndex) } := by
  have hfacts := h.registrant t
  rw [hpc] at hfacts
  obtain ⟨rfl, hw⟩ := hfacts
  refine ⟨h.write_lt, h.read_lt, fun u => ?_, h.loaded, fun u => ?_⟩
  · by_cases hu : u = t
    · subst hu
      simp [Registrant.Facts]
    · simp only [update_of_ne hu]
      exact (h.registrant u).keeps rfl
  · have hfinds := h.finds u
    have hstore := slotCount_leaves_le s.worker hw t u
    change slotCount (s.worker.leaves (s.pending.setSlot w (some t))) u s.pending.size +
      s.channels.count u + s.worker.found.count u ≤ _
    rw [Bus.finds] at hfinds
    by_cases hu : u = t
    · subst hu
      simp only [hpc, Registrant.stored, update_self, if_true, Bool.false_eq_true, if_false]
        at hfinds hstore ⊢
      omega
    · simp only [update_of_ne hu, hu, if_false] at hstore ⊢
      omega

theorem Once.work (h : Once s) {c : Collector τ} {channels : List τ}
    (hsize : r.size = s.pending.size) (hwrite : r.writeIndex = s.pending.writeIndex)
    (hread : r.readIndex < r.size) (hloaded : ∀ i, c = .popping (.loadSlot i) → i = r.readIndex)
    (hfinds : ∀ u, slotCount (c.leaves r) u r.size + channels.count u + c.found.count u =
      s.finds u) :
    Once { s with pending := r, channels := channels, worker := c } := by
  refine ⟨by rw [hwrite, hsize]; exact h.write_lt, hread, fun u => (h.registrant u).keeps hsize,
    hloaded, fun u => ?_⟩
  rw [Bus.finds, hfinds]
  exact h.finds u

theorem Once.step (h : Once s) {pc : PushPc (Option τ)} (hpc : s.threads t = .registering pc) :
    Once { s with
      pending := (registerStep s.pending t pc).1
      threads := update s.threads t (registerStep s.pending t pc).2 } := by
  have hfacts := h.registrant t
  rw [hpc] at hfacts
  cases pc with
  | loadIndex e => exact h.register rfl rfl rfl h.write_lt hfacts (by rw [hpc]; rfl)
  | loadSlot e w =>
      simp only [registerStep, RingBuffer.pushStep]
      by_cases hfree : s.pending.buf w = none
      · rw [if_pos hfree]
        exact h.register rfl rfl rfl h.write_lt hfacts (by rw [hpc]; rfl)
      · rw [if_neg hfree]
        exact h.register rfl rfl rfl h.write_lt rfl (by rw [hpc]; rfl)
  | storeIndex e =>
      exact h.register rfl rfl rfl h.write_lt ⟨hfacts, h.write_lt⟩ (by rw [hpc]; rfl)
  | storeSlot e w => exact h.store hpc
  | nextIndex => exact h.register rfl rfl rfl h.write_lt trivial (by rw [hpc]; rfl)
  | setIndex w =>
      exact h.register rfl rfl rfl (RingBuffer.Ring.advance_lt _ _) trivial (by rw [hpc]; rfl)

/-- Reading a slot counts its channel as found instead of pending. -/
theorem Once.collect (h : Once s) {pc : PopPc (Option τ)} (hpc : s.worker = .popping pc) :
    Once { s with
      pending := (collectStep s.pending pc).1, worker := (collectStep s.pending pc).2 } := by
  cases pc with
  | loadIndex =>
      refine h.work rfl rfl h.read_lt ?_ fun u => by rw [Bus.finds, hpc]; rfl
      rintro i ⟨⟩
      rfl
  | loadSlot i =>
      obtain rfl : i = s.pending.readIndex := h.loaded i hpc
      simp only [collectStep, RingBuffer.popStep]
      by_cases hempty : s.pending.buf s.pending.readIndex = none
      · rw [if_pos hempty]
        refine h.work rfl rfl h.read_lt ?_ fun u => by rw [Bus.finds, hpc]; rfl
        rintro i ⟨⟩
      · rw [if_neg hempty]
        refine h.work rfl rfl h.read_lt ?_ fun u => ?_
        · rintro i ⟨⟩
        · obtain ⟨c, hc⟩ := Option.ne_none_iff_exists'.mp hempty
          have hcount := slotCount_update s.pending.buf u h.read_lt none
          simp only [hc, reduceCtorEq, if_false, Option.some.injEq] at hcount
          simp only [Bus.finds, hpc, hc, Collector.leaves, Collector.found, Collector.hand,
            List.count_nil, List.count_singleton, beq_iff_eq]
          omega
  | clearIndex e =>
      refine h.work rfl rfl h.read_lt ?_ fun u => by rw [Bus.finds, hpc]; cases e <;> rfl
      rintro i ⟨⟩
  | clearSlot e i =>
      refine h.work rfl rfl h.read_lt ?_ fun u => by rw [Bus.finds, hpc]; cases e <;> rfl
      rintro i ⟨⟩
  | nextIndex e =>
      refine h.work rfl rfl h.read_lt ?_ fun u => by rw [Bus.finds, hpc]; cases e <;> rfl
      rintro i ⟨⟩
  | setIndex e i =>
      cases e with
      | none =>
          refine h.work rfl rfl (RingBuffer.Ring.advance_lt _ _) ?_ fun u => by
            rw [Bus.finds, hpc]; rfl
          rintro i ⟨⟩
      | some t =>
          refine h.work rfl rfl (RingBuffer.Ring.advance_lt _ _) ?_ fun u => by
            rw [Bus.finds, hpc]; rfl
          rintro i ⟨⟩

/-- Every step keeps this, with no condition on the registrations. -/
theorem Once.next {l : BusLabel τ} (h : Once s) (hnext : s.next l = some s') : Once s' := by
  cases l with
  | register t =>
      simp only [Bus.next] at hnext
      split at hnext
      · next hidle =>
          cases hnext
          exact h.register rfl rfl rfl h.write_lt rfl (by rw [hidle]; rfl)
      · cases hnext
  | step t =>
      simp only [Bus.next] at hnext
      split at hnext
      · next hpc =>
          cases hnext
          exact h.step hpc
      · cases hnext
  | collect =>
      simp only [Bus.next] at hnext
      split at hnext
      · next hidle =>
          cases hnext
          refine h.work rfl rfl h.read_lt ?_ fun u => by rw [Bus.finds, hidle]; rfl
          rintro i ⟨⟩
      · cases hnext
  | work =>
      simp only [Bus.next] at hnext
      split at hnext
      · next hpc =>
          cases hnext
          exact h.collect hpc
      · next t hpc =>
          cases hnext
          refine h.work rfl rfl h.read_lt ?_ fun u => ?_
          · rintro i ⟨⟩
          · rw [Bus.finds, hpc, List.count_append, ← Nat.add_assoc]
            rfl
      · cases hnext

/-- The worker visits no channel twice in a pass, however the registrations
overlap. -/
theorem Bus.channels_nodup (h : (busSystem τ).Reach Free s) : s.channels.Nodup := by
  have honce : Once s :=
    h.invariant (fun _ hs => hs ▸ .initial) fun _ _ _ hu _ hnext => hu.next hnext
  rw [List.nodup_iff_count_le_one]
  intro t
  have hfinds := honce.finds t
  rw [Bus.finds] at hfinds
  have hone : (if (s.threads t).stored then 1 else 0) ≤ 1 := by
    split <;> decide
  omega

end Once

section Registrations

variable {ι : Type*}

/-- A thread that does not register has registered, or not begun to. -/
def CallerPc.registrant (registered : Bool) : CallerPc τ ι → Registrant τ
  | .registering _ pc => .registering pc
  | _ => if registered then .registered else .idle

def PassPc.collector : PassPc τ ι → Collector τ
  | .collecting pc => .popping pc
  | .placing t => .placing t
  | _ => .idle

/-- What a `Delivery` has of the bus of the registrations. -/
def Delivery.bus (s : Delivery τ ι) : Bus τ where
  pending := s.pending
  channels := s.channels
  threads t := (s.threads t).registrant (s.registered t)
  worker := s.worker.collector

variable [DecidableEq τ] [DecidableEq ι] {c : Setup ι} {s s' : Delivery τ ι} {t : τ}

omit [DecidableEq ι] in
theorem Delivery.bus_thread {l : Registrant τ} {r : RingBuffer.Ring (Option τ)}
    (hpending : s'.pending = r) (hchannels : s'.channels = s.channels)
    (hworker : s'.worker = s.worker)
    (hself : (s'.threads t).registrant (s'.registered t) = l)
    (hother : ∀ u, u ≠ t → (s'.threads u).registrant (s'.registered u) =
      (s.threads u).registrant (s.registered u)) :
    s'.bus = { s.bus with pending := r, threads := update s.bus.threads t l } := by
  simp only [Delivery.bus, hpending, hchannels, hworker, Bus.mk.injEq, true_and, and_true]
  funext u
  by_cases hu : u = t
  · subst hu
    rw [update_self, hself]
  · rw [update_of_ne hu, hother u hu]

omit [DecidableEq τ] [DecidableEq ι] in
/-- A thread that neither registers nor has registered in this step. -/
theorem Delivery.bus_eq (hpending : s'.pending = s.pending) (hchannels : s'.channels = s.channels)
    (hregistered : s'.registered = s.registered)
    (hworker : s'.worker.collector = s.worker.collector) (hthreads : ∀ u,
      (s'.threads u).registrant (s.registered u) = (s.threads u).registrant (s.registered u)) :
    s'.bus = s.bus := by
  simp only [Delivery.bus, hpending, hchannels, hregistered, hworker, hthreads]

omit [DecidableEq ι] in
theorem registrant_update {pc : CallerPc τ ι}
    (hpc : pc.registrant (s.registered t) = (s.threads t).registrant (s.registered t)) (u : τ) :
    (update s.threads t pc u).registrant (s.registered u) =
      (s.threads u).registrant (s.registered u) := by
  by_cases hu : u = t
  · subst hu
    rw [update_self, hpc]
  · rw [update_of_ne hu]

omit [DecidableEq ι] in
theorem Delivery.bus_capture {logger : Option ι} {severity : LogSeverity}
    (hnext : s.capture c t logger severity = some s') :
    s'.bus = s.bus ∨ s.bus.next (.register t) = some s'.bus := by
  rcases Delivery.capture_cases hnext with rfl | ⟨i, hidle, _, rfl⟩
  · exact .inl rfl
  · cases hregistered : s.registered t with
    | true =>
        refine .inl (Delivery.bus_eq rfl rfl rfl rfl fun u => registrant_update ?_ u)
        rw [hidle]
        rfl
    | false =>
        have hbus : s.bus.threads t = .idle := by
          simp [Delivery.bus, hidle, CallerPc.registrant, hregistered]
        right
        simp only [Bus.next, hbus, Option.some.injEq]
        symm
        refine Delivery.bus_thread rfl rfl rfl ?_ fun u hu => ?_
        · simp [CallerPc.registrant]
        · simp [update_of_ne hu]

omit [DecidableEq ι] in
theorem Delivery.bus_registerStep {message : LogMessage τ ι} {pc : PushPc (Option τ)}
    (hpc : s.threads t = .registering message pc) :
    s.bus.next (.step t) = some (s.registerStep t message pc).bus := by
  have hbus : s.bus.threads t = .registering pc := by
    change (s.threads t).registrant (s.registered t) = _
    rw [hpc]
    rfl
  simp only [Bus.next, hbus, Option.some.injEq]
  symm
  unfold Delivery.registerStep
  split
  · next r pc' heq =>
      rw [show s.bus.pending = s.pending from rfl, heq]
      refine Delivery.bus_thread rfl rfl rfl ?_ fun u hu => ?_
      · simp [CallerPc.registrant]
      · simp [update_of_ne hu]
  · next r heq =>
      rw [show s.bus.pending = s.pending from rfl, heq]
      refine Delivery.bus_thread rfl rfl rfl ?_ fun u hu => ?_
      · simp [CallerPc.registrant]
      · simp [update_of_ne hu]
  · next r heq =>
      -- a push always goes on or succeeds at last
      unfold Logging.registerStep at heq
      split at heq <;> cases heq

theorem Delivery.bus_pushStep {message : LogMessage τ ι} {pc : PushPc (Option (LogMessage τ ι))}
    (hpc : s.threads t = .pushing message pc) : (s.pushStep c t message pc).bus = s.bus := by
  unfold Delivery.pushStep
  split
  · exact Delivery.bus_eq rfl rfl rfl rfl (registrant_update (by rw [hpc]; rfl))
  · exact Delivery.bus_eq rfl rfl rfl rfl (registrant_update (by rw [hpc]; rfl))
  · split
    · exact Delivery.bus_eq rfl rfl rfl rfl (registrant_update (by rw [hpc]; rfl))
    · exact Delivery.bus_eq rfl rfl rfl rfl (registrant_update (by rw [hpc]; rfl))

theorem Delivery.bus_popStep {index : Nat} {pc : PopPc (Option (LogMessage τ ι))}
    (hpc : s.worker = .popping index t pc) : (s.popStep index t pc).bus = s.bus := by
  unfold Delivery.popStep
  split <;> exact Delivery.bus_eq rfl rfl rfl (by rw [hpc]; rfl) fun _ => rfl

theorem Delivery.bus_work : (s.work c).bus = s.bus ∨ ∃ l, s.bus.next l = some (s.work c).bus := by
  unfold Delivery.work
  split
  · next pc hpc =>
      have hbus : s.bus.worker = .popping pc := by
        rw [Delivery.bus, hpc]
        rfl
      refine .inr ⟨.work, ?_⟩
      simp only [Bus.next, hbus, Option.some.injEq]
      rw [show s.bus.pending = s.pending from rfl]
      split
      all_goals
        next heq =>
          rw [heq]
          rfl
  · next u hpc =>
      have hbus : s.bus.worker = .placing u := by
        rw [Delivery.bus, hpc]
        rfl
      refine .inr ⟨.work, ?_⟩
      simp only [Bus.next, hbus]
      rfl
  · next index hpc =>
      have hbus : s.bus.worker = .idle := by
        rw [Delivery.bus, hpc]
        rfl
      split
      · exact .inl (Delivery.bus_eq rfl rfl rfl (by rw [hpc]; rfl) fun _ => rfl)
      · refine .inr ⟨.collect, ?_⟩
        simp only [Bus.next, hbus]
        rfl
  · next index u pc hpc => exact .inl (Delivery.bus_popStep hpc)
  · next index message hpc =>
      exact .inl (Delivery.bus_eq rfl rfl rfl (by rw [hpc]; rfl) fun _ => rfl)

/-- Every step of a `Delivery` is a step of its registrations, or leaves them
alone. -/
theorem Delivery.bus_next {a : Action τ ι} (hnext : (delivery τ c).next s a = some s') :
    s'.bus = s.bus ∨ ∃ l, s.bus.next l = some s'.bus := by
  cases a with
  | capture t logger severity =>
      exact (Delivery.bus_capture hnext).imp_right fun h => ⟨.register t, h⟩
  | step t =>
      rcases Delivery.logStep_cases hnext with ⟨_, _, hpc, rfl⟩ | ⟨_, _, hpc, rfl⟩
      · exact .inr ⟨.step t, Delivery.bus_registerStep hpc⟩
      · exact .inl (Delivery.bus_pushStep hpc)
  | work =>
      cases hnext
      exact Delivery.bus_work

omit [DecidableEq ι] in
theorem Delivery.bus_initial :
    Bus.initial.next .collect = some (Delivery.initial c : Delivery τ ι).bus := rfl

/-- So the results about registrations are about the channels of a `Delivery`,
whose registrations go through the same accesses. -/
theorem Delivery.bus_reach {as : List (Action τ ι)} (h : (delivery τ c).Run Free as s) :
    (busSystem τ).Reach Free s.bus := by
  apply h.invariant (I := fun s => (busSystem τ).Reach Free s.bus)
  · rintro _ rfl
    have hinit : (busSystem τ).Reach Free Bus.initial := Reach.of_init rfl
    exact hinit.step (l := .collect) trivial Delivery.bus_initial
  · intro u a v hu _ hnext
    rcases Delivery.bus_next hnext with heq | ⟨l, hl⟩
    · rw [heq]
      exact hu
    · exact hu.step trivial hl

/-- The list of channels of a `Delivery` names no channel twice. -/
theorem Delivery.channels_nodup {as : List (Action τ ι)} (h : (delivery τ c).Run Free as s) :
    s.channels.Nodup :=
  Bus.channels_nodup (Delivery.bus_reach h)

end Registrations

end Libni.Logging
