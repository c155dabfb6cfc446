import Libni.RingBuffer.Layout

/-!
Registration of channels. `get_input_channel` pushes the new channel of a thread
into `m_pending_channels`, a ring buffer for one producer that every logging
thread pushes into; the worker pops it and appends the channels to `m_channels`.
A channel is named by its thread, since a thread registers once. The accesses of
the pushes and of the pop are those of the ring buffer, in any interleaving.
-/

namespace Libni.Logging

open Function Libni.Transition Libni.Transition.System
open Libni.RingBuffer (Ring PushPc PopPc)

/-- A thread before, in and after the registration of its channel. -/
inductive Registrant (τ : Type*) where
  | idle
  | registering (pc : PushPc (Option τ))
  | registered
  deriving DecidableEq

/-- The worker outside `channels()`, inside a pop of
`collect_pending_channels`, or about to append the channel it has popped. -/
inductive Collector (τ : Type*) where
  | idle
  | popping (pc : PopPc (Option τ))
  | placing (channel : τ)
  deriving DecidableEq

/-- The ring buffer of pending channels with `m_channels`, and where the
threads and the worker are. -/
structure Bus (τ : Type*) where
  pending : RingBuffer.Ring (Option τ)
  channels : List τ
  threads : τ → Registrant τ
  worker : Collector τ

inductive BusLabel (τ : Type*) where
  | register (thread : τ)
  | step (thread : τ)
  | collect
  | work
  deriving DecidableEq

section Step

variable {τ : Type*} [DecidableEq τ]

/-- One access of `get_input_channel`, which pushes until it succeeds. -/
def registerStep (r : RingBuffer.Ring (Option τ)) (t : τ) (pc : PushPc (Option τ)) :
    RingBuffer.Ring (Option τ) × Registrant τ :=
  match RingBuffer.pushStep none r pc with
  | (r, .push pc) => (r, .registering pc)
  | (r, .done (.pushed true)) => (r, .registered)
  | (r, _) => (r, .registering (.loadIndex (some t)))

/-- One access of `collect_pending_channels`, which pops until it gets null. -/
def collectStep (r : RingBuffer.Ring (Option τ)) (pc : PopPc (Option τ)) :
    RingBuffer.Ring (Option τ) × Collector τ :=
  match RingBuffer.popStep none r pc with
  | (r, .pop pc) => (r, .popping pc)
  | (r, .done (.popped (some t))) => (r, .placing t)
  | (r, _) => (r, .idle)

/-- Threads may register at the same time, though the ring buffer is for one
producer. -/
def Bus.next (s : Bus τ) : BusLabel τ → Option (Bus τ)
  | .register t =>
      match s.threads t with
      | .idle =>
          some { s with threads := update s.threads t (.registering (.loadIndex (some t))) }
      | _ => none
  | .step t =>
      match s.threads t with
      | .registering pc => some { s with
          pending := (registerStep s.pending t pc).1
          threads := update s.threads t (registerStep s.pending t pc).2 }
      | _ => none
  | .collect =>
      match s.worker with
      | .idle => some { s with worker := .popping .loadIndex }
      | _ => none
  | .work =>
      match s.worker with
      | .popping pc => some { s with
          pending := (collectStep s.pending pc).1, worker := (collectStep s.pending pc).2 }
      | .placing t =>
          some { s with channels := s.channels ++ [t], worker := .popping .loadIndex }
      | .idle => none

def Bus.initial : Bus τ where
  pending := Ring.new none 4 Ring.four_eq_pow
  channels := []
  threads _ := .idle
  worker := .idle

variable (τ) in
def busSystem : System (Bus τ) (BusLabel τ) where
  init s := s = Bus.initial
  next := Bus.next

/-- The next access of a push overwrites no channel: its slot store finds the
slot free. -/
def StoresFree (s : Bus τ) : BusLabel τ → Prop
  | .step t =>
      match s.threads t with
      | .registering (.storeSlot _ w) => s.pending.buf w = none
      | _ => True
  | _ => True

end Step

section Places

variable {τ : Type*} [DecidableEq τ]

/-- The slots below `n` that hold channel `t`. -/
def slotCount (buf : Nat → Option τ) (t : τ) (n : Nat) : Nat :=
  (List.range n).countP fun i => buf i = some t

/-- The channel in the worker's hands. It counts from the access that clears
its slot. -/
def Collector.hand : Collector τ → List τ
  | .popping (.nextIndex (some t)) | .popping (.setIndex (some t) _) | .placing t => [t]
  | _ => []

/-- In how many places channel `t` is held: slots of `m_pending_channels`,
entries of `m_channels` and the worker's hands. -/
def Bus.places (s : Bus τ) (t : τ) : Nat :=
  slotCount s.pending.buf t s.pending.size + s.channels.count t + s.worker.hand.count t

theorem slotCount_succ (buf : Nat → Option τ) (t : τ) (n : Nat) :
    slotCount buf t (n + 1) = slotCount buf t n + if buf n = some t then 1 else 0 := by
  simp only [slotCount, List.range_succ, List.countP_append, List.countP_singleton,
    decide_eq_true_eq]

/-- Writing a slot moves the count from its old content to its new one. -/
theorem slotCount_update (buf : Nat → Option τ) (t : τ) {n i : Nat} (hi : i < n)
    (x : Option τ) :
    slotCount (update buf i x) t n + (if buf i = some t then 1 else 0) =
      slotCount buf t n + if x = some t then 1 else 0 := by
  have habove (m : Nat) (hm : m ≤ i) : slotCount (update buf i x) t m = slotCount buf t m := by
    induction m with
    | zero => rfl
    | succ m ih =>
        rw [slotCount_succ, slotCount_succ, ih (by omega), update_of_ne (by omega)]
  induction n with
  | zero => omega
  | succ n ih =>
      rw [slotCount_succ, slotCount_succ]
      rcases Nat.lt_succ_iff_lt_or_eq.mp hi with hlt | rfl
      · rw [update_of_ne (by omega)]
        have := ih hlt
        omega
      · rw [habove i le_rfl, update_self]
        omega

end Places

section Invariant

variable {τ : Type*} {r r' : RingBuffer.Ring (Option τ)} {t : τ}

/-- Whether the channel of the thread has been stored into a slot. -/
def Registrant.stored : Registrant τ → Bool
  | .registering .nextIndex | .registering (.setIndex _) | .registered => true
  | _ => false

/-- A registering thread pushes its own channel, into a slot of the buffer. -/
def Registrant.Facts (r : RingBuffer.Ring (Option τ)) (t : τ) : Registrant τ → Prop
  | .registering (.loadIndex e) | .registering (.storeIndex e) => e = some t
  | .registering (.loadSlot e _) => e = some t
  | .registering (.storeSlot e w) => e = some t ∧ w < r.size
  | _ => True

/-- A pop that has loaded a channel finds it still in its slot. -/
def Collector.Facts (r : RingBuffer.Ring (Option τ)) : Collector τ → Prop
  | .popping (.loadSlot i) => i = r.readIndex
  | .popping (.clearIndex e) => e ≠ none ∧ r.buf r.readIndex = e
  | .popping (.clearSlot e i) => i < r.size ∧ e ≠ none ∧ r.buf i = e
  | .popping (.nextIndex e) | .popping (.setIndex e _) => e ≠ none
  | _ => True

theorem Registrant.Facts.keeps {l : Registrant τ} (h : l.Facts r t) (hsize : r'.size = r.size) :
    l.Facts r' t := by
  cases l with
  | idle | registered => trivial
  | registering pc =>
      cases pc with
      | storeSlot e w => exact ⟨h.1, by rw [hsize]; exact h.2⟩
      | _ => exact h

theorem Collector.Facts.keeps {c : Collector τ} (h : c.Facts r) (hsize : r'.size = r.size)
    (hindex : r'.readIndex = r.readIndex) (hbuf : ∀ i, r.buf i ≠ none → r'.buf i = r.buf i) :
    c.Facts r' := by
  cases c with
  | idle | placing => trivial
  | popping pc =>
      cases pc with
      | loadSlot i => exact Eq.trans h hindex.symm
      | clearIndex e =>
          exact ⟨h.1, by rw [hindex, hbuf _ (by rw [h.2]; exact h.1)]; exact h.2⟩
      | clearSlot e i =>
          exact ⟨by rw [hsize]; exact h.1, h.2.1,
            by rw [hbuf _ (by rw [h.2.2]; exact h.2.1)]; exact h.2.2⟩
      | _ => exact h

variable [DecidableEq τ]

/-- The invariant of the registrations: a channel is held in one place if its
thread has stored it, and nowhere before. -/
structure BusInv (s : Bus τ) : Prop where
  write_lt : s.pending.writeIndex < s.pending.size
  read_lt : s.pending.readIndex < s.pending.size
  registrant : ∀ t, (s.threads t).Facts s.pending t
  collector : s.worker.Facts s.pending
  places : ∀ t, s.places t = if (s.threads t).stored then 1 else 0

variable {s : Bus τ}

theorem BusInv.register (h : BusInv s) {l : Registrant τ} (hbuf : r.buf = s.pending.buf)
    (hsize : r.size = s.pending.size) (hread : r.readIndex = s.pending.readIndex)
    (hwrite : r.writeIndex < r.size) (hfacts : l.Facts r t)
    (hstored : l.stored = (s.threads t).stored) :
    BusInv { s with pending := r, threads := update s.threads t l } := by
  refine ⟨hwrite, by rw [hread, hsize]; exact h.read_lt, ?_,
    h.collector.keeps hsize hread fun i _ => by rw [hbuf], ?_⟩
  · intro u
    by_cases hu : u = t
    · subst hu
      simpa using hfacts
    · simpa [update_of_ne hu] using (h.registrant u).keeps hsize
  · intro u
    have hplaces := h.places u
    simp only [Bus.places, hbuf, hsize] at hplaces ⊢
    by_cases hu : u = t
    · subst hu
      simpa [hstored] using hplaces
    · simpa [update_of_ne hu] using hplaces

theorem BusInv.store (h : BusInv s) {e : Option τ} {w : Nat}
    (hpc : s.threads t = .registering (.storeSlot e w)) (hfree : s.pending.buf w = none) :
    BusInv { s with
      pending := s.pending.setSlot w e
      threads := update s.threads t (.registering .nextIndex) } := by
  have hfacts := h.registrant t
  rw [hpc] at hfacts
  obtain ⟨rfl, hw⟩ := hfacts
  refine ⟨h.write_lt, h.read_lt, ?_, ?_, ?_⟩
  · intro u
    by_cases hu : u = t
    · subst hu
      simp [Registrant.Facts]
    · simp only [update_of_ne hu]
      exact (h.registrant u).keeps rfl
  · refine h.collector.keeps rfl rfl fun i hi => update_of_ne ?_ _ _
    rintro rfl
    exact hi hfree
  · intro u
    have hplaces := h.places u
    have hcount := slotCount_update s.pending.buf u hw (some t)
    simp only [hfree, reduceCtorEq, if_false, Option.some.injEq] at hcount
    simp only [Bus.places, RingBuffer.Ring.setSlot] at hplaces ⊢
    by_cases hu : u = t
    · subst hu
      simp only [hpc, Registrant.stored, update_self, if_true, Bool.false_eq_true, if_false]
        at hplaces hcount ⊢
      omega
    · simp only [update_of_ne hu, Ne.symm hu, if_false] at hplaces hcount ⊢
      omega

theorem BusInv.clear (h : BusInv s) {e : Option τ} {i : Nat}
    (hpc : s.worker = .popping (.clearSlot e i)) :
    BusInv { s with
      pending := s.pending.setSlot i none
      worker := .popping (.nextIndex e) } := by
  have hfacts := h.collector
  rw [hpc] at hfacts
  obtain ⟨hi, he, hslot⟩ := hfacts
  obtain ⟨c, rfl⟩ := Option.ne_none_iff_exists'.mp he
  refine ⟨h.write_lt, h.read_lt, fun u => (h.registrant u).keeps rfl, he, ?_⟩
  intro u
  have hplaces := h.places u
  have hcount := slotCount_update s.pending.buf u hi none
  simp only [hslot, reduceCtorEq, if_false, Option.some.injEq] at hcount
  simp only [Bus.places, RingBuffer.Ring.setSlot, hpc, Collector.hand, List.count_nil,
    List.count_singleton, beq_iff_eq] at hplaces ⊢
  omega

/-- A worker that writes no slot and keeps what is in its hands or in
`m_channels`. -/
theorem BusInv.work (h : BusInv s) {c : Collector τ} {channels : List τ}
    (hbuf : r.buf = s.pending.buf) (hsize : r.size = s.pending.size)
    (hwrite : r.writeIndex = s.pending.writeIndex) (hread : r.readIndex < r.size)
    (hfacts : c.Facts r)
    (hcount : ∀ u, channels.count u + c.hand.count u =
      s.channels.count u + s.worker.hand.count u) :
    BusInv { s with pending := r, channels := channels, worker := c } := by
  refine ⟨by rw [hwrite, hsize]; exact h.write_lt, hread,
    fun u => (h.registrant u).keeps hsize, hfacts, ?_⟩
  intro u
  have hplaces := h.places u
  have hmoved := hcount u
  simp only [Bus.places, hbuf, hsize] at hplaces ⊢
  omega

theorem BusInv.initial : BusInv (Bus.initial : Bus τ) := by
  refine ⟨Nat.succ_pos 3, Nat.succ_pos 3, fun _ => trivial, trivial, fun t => ?_⟩
  rfl

/-- The accesses of a registration. The guard is used at the slot store only,
where it says that no other channel is in the slot. -/
theorem BusInv.step (h : BusInv s) {pc : PushPc (Option τ)}
    (hpc : s.threads t = .registering pc) (hguard : StoresFree s (.step t)) :
    BusInv { s with
      pending := (registerStep s.pending t pc).1
      threads := update s.threads t (registerStep s.pending t pc).2 } := by
  have hfacts := h.registrant t
  rw [hpc] at hfacts
  cases pc with
  | loadIndex e => exact h.register rfl rfl rfl h.write_lt hfacts (by rw [hpc]; rfl)
  | loadSlot e w =>
      simp only [registerStep, RingBuffer.pushStep]
      split
      · next heq =>
          split at heq <;> cases heq
          exact h.register rfl rfl rfl h.write_lt hfacts (by rw [hpc]; rfl)
      · next heq => split at heq <;> cases heq
      · next heq =>
          split at heq <;> cases heq
          · exact h.register rfl rfl rfl h.write_lt rfl (by rw [hpc]; rfl)
          · exact h.register rfl rfl rfl h.write_lt rfl (by rw [hpc]; rfl)
  | storeIndex e =>
      exact h.register rfl rfl rfl h.write_lt ⟨hfacts, h.write_lt⟩ (by rw [hpc]; rfl)
  | storeSlot e w =>
      simp only [StoresFree, hpc] at hguard
      exact h.store hpc hguard
  | nextIndex => exact h.register rfl rfl rfl h.write_lt trivial (by rw [hpc]; rfl)
  | setIndex w =>
      exact h.register rfl rfl rfl (RingBuffer.Ring.advance_lt _ _) trivial (by rw [hpc]; rfl)

/-- The accesses of the pop. A slot that it has read is overwritten by no
registration, since it is not free. -/
theorem BusInv.collect (h : BusInv s) {pc : PopPc (Option τ)}
    (hpc : s.worker = .popping pc) :
    BusInv { s with
      pending := (collectStep s.pending pc).1, worker := (collectStep s.pending pc).2 } := by
  have hfacts := h.collector
  rw [hpc] at hfacts
  cases pc with
  | loadIndex => exact h.work rfl rfl rfl h.read_lt rfl fun u => by rw [hpc]; rfl
  | loadSlot i =>
      simp only [collectStep, RingBuffer.popStep]
      by_cases hempty : s.pending.buf i = none
      · rw [if_pos hempty]
        exact h.work rfl rfl rfl h.read_lt trivial fun u => by rw [hpc]; rfl
      · rw [if_neg hempty]
        obtain rfl : i = s.pending.readIndex := hfacts
        exact h.work rfl rfl rfl h.read_lt ⟨hempty, rfl⟩ fun u => by rw [hpc]; rfl
  | clearIndex e =>
      exact h.work rfl rfl rfl h.read_lt ⟨h.read_lt, hfacts⟩ fun u => by rw [hpc]; rfl
  | clearSlot e i => exact h.clear hpc
  | nextIndex e =>
      refine h.work rfl rfl rfl h.read_lt hfacts fun u => ?_
      obtain ⟨c, rfl⟩ := Option.ne_none_iff_exists'.mp hfacts
      rw [hpc]
      rfl
  | setIndex e i =>
      obtain ⟨c, rfl⟩ := Option.ne_none_iff_exists'.mp hfacts
      refine h.work rfl rfl rfl (RingBuffer.Ring.advance_lt _ _) trivial fun u => ?_
      rw [hpc]
      rfl

/-- Every step keeps the channels in one place, as long as no slot store
overwrites one. -/
theorem BusInv.next {s' : Bus τ} {l : BusLabel τ} (h : BusInv s) (hguard : StoresFree s l)
    (hnext : s.next l = some s') : BusInv s' := by
  cases l with
  | register t =>
      simp only [Bus.next] at hnext
      split at hnext
      · next hidle =>
          cases hnext
          exact h.register rfl rfl rfl h.write_lt rfl (by rw [hidle]; rfl)
      · cases hnext
  | step t =>
      simp only [Bus.next] at hnext
      split at hnext
      · next hpc =>
          cases hnext
          exact h.step hpc hguard
      · cases hnext
  | collect =>
      simp only [Bus.next] at hnext
      split at hnext
      · next hidle =>
          cases hnext
          exact h.work rfl rfl rfl h.read_lt trivial fun u => by rw [hidle]; rfl
      · cases hnext
  | work =>
      simp only [Bus.next] at hnext
      split at hnext
      · next hpc =>
          cases hnext
          exact h.collect hpc
      · next hpc =>
          cases hnext
          refine h.work rfl rfl rfl h.read_lt trivial fun u => ?_
          rw [hpc, List.count_append]
          rfl
      · cases hnext

end Invariant

section Main

variable {τ : Type*} [DecidableEq τ]

/-- Every channel whose registration has returned is held in exactly one
place. -/
def Bus.NoneLost (s : Bus τ) : Prop := ∀ t, s.threads t = .registered → s.places t = 1

/-- As long as every slot store of a registration finds its slot free, no
registered channel is lost or duplicated. The source pushes from every logging
thread without a lock, so nothing but chance sees to that condition. -/
theorem registered_in_one_place {s : Bus τ} {ls : List (BusLabel τ)}
    (hrun : (busSystem τ).Run StoresFree ls s) : s.NoneLost := by
  have hinv : BusInv s := by
    refine hrun.invariant ?_ fun _ _ _ h hguard hnext => h.next hguard hnext
    rintro _ rfl
    exact BusInv.initial
  intro t ht
  rw [hinv.places t, ht]
  rfl

instance (s : Bus τ) (l : BusLabel τ) : Decidable (StoresFree s l) := by
  unfold StoresFree
  split
  · split <;> infer_instance
  · infer_instance

/-- Two registrations one after the other while the worker collects. -/
def separateRegistrations : List (BusLabel Bool) :=
  [BusLabel.register false, .collect, .work] ++ List.replicate 6 (BusLabel.step false) ++
    [BusLabel.work, .register true] ++ List.replicate 4 (BusLabel.step true) ++
    List.replicate 5 BusLabel.work ++ [BusLabel.step true, .step true]

theorem registered_in_one_place_separate : ∃ s : Bus Bool,
    (busSystem Bool).Run StoresFree separateRegistrations s ∧ s.NoneLost := by
  have haccepted : ((busSystem Bool).exec StoresFree Bus.initial
      separateRegistrations).isSome = true := by decide +kernel
  have hrun : (busSystem Bool).Run StoresFree separateRegistrations _ :=
    run_of_exec rfl haccepted
  exact ⟨_, hrun, registered_in_one_place hrun⟩

/-- Both threads check the first slot, then both store into it. Neither finds
out. -/
def overlappingRegistrations : List (BusLabel Bool) :=
  [.register false, .register true, .step false, .step false, .step true, .step true,
    .step false, .step false, .step true, .step true, .step false, .step false, .step true,
    .step true]

def overwrittenState : Bus Bool :=
  ((busSystem Bool).exec Free Bus.initial overlappingRegistrations).get (by decide +kernel)

/-- The channel stored first is overwritten: both registrations have returned
and one of the channels is nowhere. -/
theorem registered_overwritten :
    (busSystem Bool).Run Free overlappingRegistrations overwrittenState ∧
      overwrittenState.threads false = .registered ∧ overwrittenState.places false = 0 ∧
      ¬ overwrittenState.NoneLost := by
  have hthread : overwrittenState.threads false = .registered := by decide +kernel
  have hplaces : overwrittenState.places false = 0 := by decide +kernel
  refine ⟨run_of_exec rfl _, hthread, hplaces, fun hnone => ?_⟩
  have hone := hnone false hthread
  rw [hplaces] at hone
  cases hone

end Main

end Libni.Logging
