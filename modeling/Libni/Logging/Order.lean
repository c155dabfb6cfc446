import Mathlib.Data.List.Nodup
import Libni.Logging.Capture
import Libni.RingBuffer.Linearizable

/-!
The order in which messages reach the sinks. Each channel is a ring buffer with
its thread as the producer and the worker as the consumer, whatever the loggers
its messages are for, so what it has accepted is what has been saved, followed by
the message in the worker's hands and the stored ones.
-/

namespace Libni.Logging

open Function Libni.Transition Libni.Transition.System
open Libni.RingBuffer (PushPc PopPc Role)

section Sides

variable {α : Type*} {empty : α} {size : Nat} {r r' : RingBuffer.Ring α}
  {p p' c c' : RingBuffer.Local α}

/-- A ring buffer with its two sides. A channel with its thread and the worker
is one of these. -/
def linkOf (r : RingBuffer.Ring α) (p c : RingBuffer.Local α) : RingBuffer.State α where
  ring := r
  threads
    | .producer => p
    | .consumer => c

theorem linkOf_producer :
    (⟨r', update (linkOf r p c).threads .producer p'⟩ : RingBuffer.State α) = linkOf r' p' c := by
  rw [linkOf]
  congr 1
  funext role
  cases role <;> rfl

theorem linkOf_consumer :
    (⟨r', update (linkOf r p c).threads .consumer c'⟩ : RingBuffer.State α) = linkOf r' p c' := by
  rw [linkOf]
  congr 1
  funext role
  cases role <;> rfl

variable [DecidableEq α]

theorem link_producer (h : RingBuffer.Inv empty size (linkOf r p c))
    (p' : RingBuffer.Local α) (hfront : p'.front r = p.front r) (hback : p'.back r = p.back r)
    (hp : ∀ q, p'.Producing empty r q) :
    RingBuffer.Inv empty size (linkOf r p' c) ∧
      (linkOf r p' c).stored empty = (linkOf r p c).stored empty := by
  have hmove := h.move (t := .producer) (l := p') hfront hback (fun _ => hp _) (by rintro ⟨⟩)
  rwa [show (linkOf r p c).ring = r from rfl, linkOf_producer] at hmove

theorem link_consumer (h : RingBuffer.Inv empty size (linkOf r p c))
    (c' : RingBuffer.Local α) (hfront : c'.front r = c.front r) (hback : c'.back r = c.back r)
    (hc : ∀ q, c'.Consuming r q) :
    RingBuffer.Inv empty size (linkOf r p c') ∧
      (linkOf r p c').stored empty = (linkOf r p c).stored empty := by
  have hmove := h.move (t := .consumer) (l := c') hfront hback (by rintro ⟨⟩) (fun _ => hc _)
  rwa [show (linkOf r p c).ring = r from rfl, linkOf_consumer] at hmove

def storing : PushPc α → List α
  | .storeSlot element _ => [element]
  | _ => []

def taking : PopPc α → List α
  | .clearSlot element _ => [element]
  | _ => []

/-- One access of the producer; a push that fails has found the buffer full.
This and the next lemma carry the refinement of the ring buffer over to a
channel. -/
theorem link_push {pc : PushPc α} (h : RingBuffer.Inv empty size (linkOf r (.push pc) c))
    (hstep : RingBuffer.pushStep empty r pc = (r', p')) :
    RingBuffer.Inv empty size (linkOf r' p' c) ∧
      (linkOf r' p' c).stored empty = (linkOf r (.push pc) c).stored empty ++ storing pc ∧
      (p' = .done (.pushed false) → ((linkOf r (.push pc) c).stored empty).length = size) := by
  have hlocal : RingBuffer.localStep empty (linkOf r (.push pc) c).ring
      ((linkOf r (.push pc) c).threads .producer) = some (r', p') := congrArg some hstep
  obtain ⟨hinv, hsim⟩ := h.localStep hlocal
  rw [linkOf_producer] at hinv hsim
  refine ⟨hinv, ?_⟩
  generalize (linkOf r' p' c).stored empty = q' at hsim ⊢
  generalize (linkOf r (.push pc) c).stored empty = q at hsim ⊢
  cases pc with
  | loadIndex e =>
      cases hstep
      exact ⟨by simpa [storing] using hsim.of_pending, by rintro ⟨⟩⟩
  | loadSlot e w =>
      simp only [RingBuffer.pushStep] at hstep
      split at hstep <;> cases hstep
      · exact ⟨by simpa [storing] using hsim.of_pending, by rintro ⟨⟩⟩
      · obtain ⟨hlength, hq⟩ := hsim.of_perform
        exact ⟨by simpa [storing] using hq, fun _ => hlength⟩
  | storeIndex e =>
      cases hstep
      exact ⟨by simpa [storing] using hsim.of_pending, by rintro ⟨⟩⟩
  | storeSlot e w =>
      cases hstep
      exact ⟨hsim.of_perform.2, by rintro ⟨⟩⟩
  | nextIndex | setIndex =>
      cases hstep
      exact ⟨by simpa [storing] using hsim.of_done, by rintro ⟨⟩⟩

/-- One access of the consumer; only a pop that finds the slot free returns
`Empty`. -/
theorem link_pop {pc : PopPc α} (h : RingBuffer.Inv empty size (linkOf r p (.pop pc)))
    (hstep : RingBuffer.popStep empty r pc = (r', c')) :
    RingBuffer.Inv empty size (linkOf r' p c') ∧
      (linkOf r p (.pop pc)).stored empty = taking pc ++ (linkOf r' p c').stored empty := by
  have hlocal : RingBuffer.localStep empty (linkOf r p (.pop pc)).ring
      ((linkOf r p (.pop pc)).threads .consumer) = some (r', c') := congrArg some hstep
  have hconsuming := h.consuming
  obtain ⟨hinv, hsim⟩ := h.localStep hlocal
  rw [linkOf_consumer] at hinv hsim
  refine ⟨hinv, ?_⟩
  have hproper := h.layout.proper
  generalize (linkOf r' p c').stored empty = q' at hsim ⊢
  generalize (linkOf r p (.pop pc)).stored empty = q at hsim hconsuming hproper ⊢
  cases pc with
  | loadIndex | clearIndex =>
      cases hstep
      exact hsim.of_pending.symm
  | loadSlot i =>
      simp only [RingBuffer.popStep] at hstep
      split at hstep <;> cases hstep
      · rcases hsim.of_perform with ⟨_, _, hq⟩ | ⟨hne, _⟩
        · exact hq.symm
        · exact absurd rfl hne
      · exact hsim.of_pending.symm
  | clearSlot e i =>
      cases hstep
      have hhead : q.head? = some e := hconsuming.2
      obtain ⟨rest, rfl⟩ := List.head?_eq_some_iff.mp hhead
      rcases hsim.of_perform with ⟨he, _, _⟩ | ⟨_, hq⟩
      · exact absurd he (hproper e (by simp))
      · exact hq
  | nextIndex | setIndex =>
      cases hstep
      exact hsim.of_done.symm

end Sides

variable {τ ι : Type*}

/-- What a thread is doing as the producer of its channel. -/
def CallerPc.role : CallerPc τ ι → RingBuffer.Local (Option (LogMessage τ ι))
  | .pushing _ pc => .push pc
  | _ => .idle

/-- The message a thread has not yet handed over. -/
def CallerPc.waiting : CallerPc τ ι → Option (LogMessage τ ι)
  | .registering message _ => some message
  | .pushing _ .nextIndex | .pushing _ (.setIndex _) => none
  | .pushing message _ => some message
  | .idle => none

/-- The thread pushes the message it was called with. -/
def CallerPc.Carries : CallerPc τ ι → Prop
  | .pushing message (.loadIndex element) | .pushing message (.loadSlot element _)
  | .pushing message (.storeIndex element) | .pushing message (.storeSlot element _) =>
      element = some message
  | _ => True

section Link

variable [DecidableEq τ] [DecidableEq ι]

/-- What the worker is doing as the consumer of channel `t`. -/
def PassPc.role (t : τ) : PassPc τ ι → RingBuffer.Local (Option (LogMessage τ ι))
  | .popping _ u pc => if u = t then .pop pc else .idle
  | _ => .idle

def popped : PopPc (Option (LogMessage τ ι)) → List (LogMessage τ ι)
  | .nextIndex (some message) | .setIndex (some message) _ => [message]
  | _ => []

/-- The message of channel `t` that the worker has popped and not yet saved. -/
def PassPc.hand (t : τ) : PassPc τ ι → List (LogMessage τ ι)
  | .popping _ u pc => if u = t then popped pc else []
  | .saving _ message => if message.thread = t then [message] else []
  | _ => []

def Delivery.link (s : Delivery τ ι) (t : τ) : RingBuffer.State (Option (LogMessage τ ι)) :=
  linkOf (s.channel t) (s.threads t).role (s.worker.role t)

def Delivery.stored (s : Delivery τ ι) (t : τ) : List (Option (LogMessage τ ι)) :=
  (s.link t).stored none

/-- The saved messages of thread `t`, in order. -/
def Delivery.savedOf (s : Delivery τ ι) (t : τ) : List (LogMessage τ ι) :=
  (s.saved.map Prod.snd).filter fun message => message.thread = t

/-- Nothing is lost or doubled between a channel and the sinks: what a channel
has accepted is what was saved of it, what the worker has in its hands, and
what it still stores, in that order. -/
structure Conserved (c : Setup ι) (s : Delivery τ ι) : Prop where
  link : ∀ t, RingBuffer.Inv none c.queueSize (s.link t)
  accounts : ∀ t, (s.accepted t).map some =
    (s.savedOf t ++ s.worker.hand t).map some ++ s.stored t

/-- The messages of a thread are enabled and come in the order of their
creation. -/
structure Numbered (c : Setup ι) (s : Delivery τ ι) : Prop where
  carries : ∀ t, (s.threads t).Carries
  waiting : ∀ t m, (s.threads t).waiting = some m → m.thread = t ∧
    c.enabled m.logger m.severity = true ∧ m.seq < s.created t ∧ ∀ x ∈ s.accepted t, x.seq < m.seq
  accepted : ∀ t, ∀ m ∈ s.accepted t, m.thread = t ∧
    c.enabled m.logger m.severity = true ∧ m.seq < s.created t
  order : ∀ t, (s.accepted t).Pairwise fun x y => x.seq < y.seq

/-- Loggers save their own messages, into the sinks that accept them, and only
discard where their strategy says so. -/
structure Written (c : Setup ι) (s : Delivery τ ι) : Prop where
  loggers : ∀ p ∈ s.saved, p.1 = p.2.logger
  received : ∀ i k level, (c.sinks i)[k]? = some level → s.received i k =
    ((s.saved.filter fun p => p.1 = i).map Prod.snd).filter (shouldAccept level)
  discarded : ∀ m ∈ s.discarded, c.overflowStrategy m.logger = .dropMessage

variable {c : Setup ι} {s s' : Delivery τ ι} {t : τ}

/-- A thread moves on, possibly with an access of its channel that accepts
`new`. -/
theorem Conserved.thread (h : Conserved c s) {pc : CallerPc τ ι}
    {r : RingBuffer.Ring (Option (LogMessage τ ι))} (new : List (LogMessage τ ι))
    (hthreads : s'.threads = update s.threads t pc)
    (hchannel : s'.channel = update s.channel t r)
    (haccepted : s'.accepted = update s.accepted t (s.accepted t ++ new))
    (hworker : s'.worker = s.worker) (hsaved : s'.saved = s.saved)
    (hinv : RingBuffer.Inv none c.queueSize (linkOf r pc.role (s.worker.role t)))
    (hstored : (linkOf r pc.role (s.worker.role t)).stored none = s.stored t ++ new.map some) :
    Conserved c s' := by
  have hlink : s'.link t = linkOf r pc.role (s.worker.role t) := by
    simp [Delivery.link, hthreads, hchannel, hworker]
  have hother (u : τ) (hu : u ≠ t) : s'.link u = s.link u := by
    simp [Delivery.link, hthreads, hchannel, hworker, update_of_ne hu]
  have hsavedOf (u : τ) : s'.savedOf u = s.savedOf u := by
    simp only [Delivery.savedOf, hsaved]
  refine ⟨fun u => ?_, fun u => ?_⟩
  · by_cases hu : u = t
    · subst hu
      rw [hlink]
      exact hinv
    · rw [hother u hu]
      exact h.link u
  · rw [hsavedOf, hworker, haccepted, Delivery.stored]
    by_cases hu : u = t
    · subst hu
      rw [hlink, hstored, update_self, List.map_append, h.accounts u, List.append_assoc]
    · rw [hother u hu, update_of_ne hu]
      exact h.accounts u

/-- The worker moves on outside the channels, possibly saving what it has in
its hands. -/
theorem Conserved.pass (h : Conserved c s) (hthreads : s'.threads = s.threads)
    (hchannel : s'.channel = s.channel) (haccepted : s'.accepted = s.accepted)
    (hrole : ∀ u, s'.worker.role u = s.worker.role u)
    (hhand : ∀ u, s'.savedOf u ++ s'.worker.hand u = s.savedOf u ++ s.worker.hand u) :
    Conserved c s' := by
  have hlink (u : τ) : s'.link u = s.link u := by
    simp [Delivery.link, hthreads, hchannel, hrole]
  refine ⟨fun u => ?_, fun u => ?_⟩
  · rw [hlink]
    exact h.link u
  · rw [Delivery.stored, hlink, haccepted, hhand]
    exact h.accounts u

/-- The worker enters, leaves or goes on in a pop from the channel of `t`. -/
theorem Conserved.pop (h : Conserved c s) {w : PassPc τ ι}
    {r : RingBuffer.Ring (Option (LogMessage τ ι))}
    (hthreads : s'.threads = s.threads) (hchannel : s'.channel = update s.channel t r)
    (haccepted : s'.accepted = s.accepted) (hsaved : s'.saved = s.saved)
    (hworker : s'.worker = w) (hrole : ∀ u, u ≠ t → w.role u = s.worker.role u)
    (hhand : ∀ u, u ≠ t → w.hand u = s.worker.hand u)
    (hinv : RingBuffer.Inv none c.queueSize (linkOf r (s.threads t).role (w.role t)))
    (hstored : (s.worker.hand t).map some ++ s.stored t =
      (w.hand t).map some ++ (linkOf r (s.threads t).role (w.role t)).stored none) :
    Conserved c s' := by
  subst hworker
  have hlink : s'.link t = linkOf r (s.threads t).role (s'.worker.role t) := by
    simp [Delivery.link, hthreads, hchannel]
  have hother (u : τ) (hu : u ≠ t) : s'.link u = s.link u := by
    simp [Delivery.link, hthreads, hchannel, hrole u hu, update_of_ne hu]
  have hsavedOf (u : τ) : s'.savedOf u = s.savedOf u := by
    simp only [Delivery.savedOf, hsaved]
  refine ⟨fun u => ?_, fun u => ?_⟩
  · by_cases hu : u = t
    · subst hu
      rw [hlink]
      exact hinv
    · rw [hother u hu]
      exact h.link u
  · rw [haccepted, hsavedOf, h.accounts u, List.map_append, List.map_append, List.append_assoc,
      List.append_assoc]
    congr 1
    by_cases hu : u = t
    · subst hu
      rw [hstored, ← hlink]
      rfl
    · rw [hhand u hu, Delivery.stored, Delivery.stored, hother u hu]

/-- A thread enters or leaves `push`, or does not touch its channel. -/
theorem Conserved.enter (h : Conserved c s) {pc : CallerPc τ ι}
    (hthreads : s'.threads = update s.threads t pc) (hchannel : s'.channel = s.channel)
    (haccepted : s'.accepted = s.accepted) (hworker : s'.worker = s.worker)
    (hsaved : s'.saved = s.saved)
    (hfront : pc.role.front (s.channel t) = (s.threads t).role.front (s.channel t))
    (hback : pc.role.back (s.channel t) = (s.threads t).role.back (s.channel t))
    (hproducing : ∀ q, pc.role.Producing none (s.channel t) q) : Conserved c s' := by
  obtain ⟨hinv, hstored⟩ := link_producer (h.link t) pc.role hfront hback hproducing
  refine h.thread [] hthreads (hchannel.trans (update_eq_self t _).symm) ?_ hworker
    hsaved hinv ?_
  · rw [haccepted, List.append_nil, update_eq_self]
  · rw [hstored, List.map_nil, List.append_nil]
    rfl

theorem Conserved.capture (h : Conserved c s) {logger : Option ι} {severity : LogSeverity}
    (hnext : s.capture c t logger severity = some s') : Conserved c s' := by
  rcases Delivery.capture_cases hnext with rfl | ⟨i, hidle, _, rfl⟩
  · exact h
  · refine h.enter rfl rfl rfl rfl rfl ?_ ?_ fun q => ?_
    · rw [hidle]
      split <;> rfl
    · rw [hidle]
      split <;> rfl
    · split
      · exact Option.some_ne_none _
      · trivial

theorem Conserved.registerStep (h : Conserved c s) {message : LogMessage τ ι}
    {pc : PushPc (Option τ)} (hpc : s.threads t = .registering message pc) :
    Conserved c (s.registerStep t message pc) := by
  unfold Delivery.registerStep
  split
  · exact h.enter rfl rfl rfl rfl rfl (by rw [hpc]; rfl) (by rw [hpc]; rfl) fun q => trivial
  · exact h.enter rfl rfl rfl rfl rfl (by rw [hpc]; rfl) (by rw [hpc]; rfl)
      fun q => Option.some_ne_none _
  · exact h

theorem pushStep_local {α : Type*} [DecidableEq α] (empty : α) (r : RingBuffer.Ring α)
    (pc : PushPc α) :
    (∃ pc', (RingBuffer.pushStep empty r pc).2 = .push pc') ∨
      ((RingBuffer.pushStep empty r pc).2 = .done (.pushed true) ∧ storing pc = []) ∨
      ((RingBuffer.pushStep empty r pc).2 = .done (.pushed false) ∧
        ∃ element w, pc = .loadSlot element w) := by
  cases pc with
  | loadSlot e w =>
      simp only [RingBuffer.pushStep]
      split
      · exact .inl ⟨_, rfl⟩
      · exact .inr (.inr ⟨rfl, e, w, rfl⟩)
  | setIndex => exact .inr (.inl ⟨rfl, rfl⟩)
  | loadIndex | storeIndex | storeSlot | nextIndex => exact .inl ⟨_, rfl⟩

omit [DecidableEq τ] [DecidableEq ι] in
theorem storing_eq_accepts {message : LogMessage τ ι} {pc : PushPc (Option (LogMessage τ ι))}
    (h : (CallerPc.pushing message pc).Carries) : storing pc = (accepts pc).map some := by
  cases pc with
  | storeSlot e w =>
      obtain rfl : e = some message := h
      rfl
  | loadIndex | loadSlot | storeIndex | nextIndex | setIndex => rfl

/-- An access of the loop of `log`. Only the slot store hands the message
over. -/
theorem Conserved.pushStep (h : Conserved c s) {message : LogMessage τ ι}
    {pc : PushPc (Option (LogMessage τ ι))} (hpc : s.threads t = .pushing message pc)
    (hcarries : (CallerPc.pushing message pc).Carries) :
    Conserved c (s.pushStep c t message pc) := by
  have hlink : s.link t = linkOf (s.channel t) (.push pc) (s.worker.role t) := by
    rw [Delivery.link, hpc]
    rfl
  have hinv := h.link t
  rw [hlink] at hinv
  obtain ⟨hinv', hstored, _⟩ := link_push hinv (Prod.eta _).symm
  have hstore : (linkOf (s.channel t) (.push pc) (s.worker.role t)).stored none = s.stored t := by
    rw [Delivery.stored, hlink]
  rw [hstore, storing_eq_accepts hcarries] at hstored
  unfold Delivery.pushStep
  rcases pushStep_local none (s.channel t) pc with
    ⟨pc', hl⟩ | ⟨hl, hstoring⟩ | ⟨hl, element, w, rfl⟩
  · rw [hl] at hinv' hstored
    rw [← Prod.eta (RingBuffer.pushStep none (s.channel t) pc), hl]
    exact h.thread (accepts pc) rfl rfl rfl rfl rfl hinv' hstored
  · rw [hl] at hinv' hstored
    rw [← Prod.eta (RingBuffer.pushStep none (s.channel t) pc), hl]
    obtain ⟨hidle, hidleStored⟩ := link_producer hinv' .idle rfl rfl fun _ => trivial
    rw [← storing_eq_accepts hcarries, hstoring, List.append_nil] at hstored
    refine h.thread [] rfl rfl ?_ rfl rfl hidle (hidleStored.trans ?_)
    · rw [List.append_nil, update_eq_self]
    · rw [hstored, List.map_nil, List.append_nil]
  · rw [← Prod.eta (RingBuffer.pushStep none (s.channel t) _), hl]
    simp only
    split
    · exact h.enter rfl rfl rfl rfl rfl (by rw [hpc]; rfl) (by rw [hpc]; rfl)
        fun _ => Option.some_ne_none _
    · exact h.enter rfl rfl rfl rfl rfl (by rw [hpc]; rfl) (by rw [hpc]; rfl) fun _ => trivial

theorem Conserved.quiet (h : Conserved c s) (hthreads : s'.threads = s.threads)
    (hchannel : s'.channel = s.channel) (haccepted : s'.accepted = s.accepted)
    (hsaved : s'.saved = s.saved) (hrole : ∀ u, s'.worker.role u = s.worker.role u)
    (hhand : ∀ u, s'.worker.hand u = s.worker.hand u) : Conserved c s' := by
  refine h.pass hthreads hchannel haccepted hrole fun u => ?_
  simp only [Delivery.savedOf, hsaved, hhand]

/-- An access of `pop` goes on, or returns what the worker has in its hands. -/
theorem popStep_local (r : RingBuffer.Ring (Option (LogMessage τ ι)))
    (pc : PopPc (Option (LogMessage τ ι))) :
    (∃ pc', (RingBuffer.popStep none r pc).2 = .pop pc') ∨
      ∃ element, (RingBuffer.popStep none r pc).2 = .done (.popped element) ∧
        popped pc = element.toList ∧ taking pc = [] := by
  cases pc with
  | loadSlot i =>
      simp only [RingBuffer.popStep]
      split
      · exact .inr ⟨none, rfl, rfl, rfl⟩
      · exact .inl ⟨_, rfl⟩
  | setIndex e i => exact .inr ⟨e, rfl, by cases e <;> rfl, rfl⟩
  | loadIndex | clearIndex | clearSlot | nextIndex => exact .inl ⟨_, rfl⟩

omit [DecidableEq τ] [DecidableEq ι] in
theorem popped_step [DecidableEq τ] [DecidableEq ι]
    {r : RingBuffer.Ring (Option (LogMessage τ ι))}
    {pc pc' : PopPc (Option (LogMessage τ ι))} (hproper : ∀ e ∈ taking pc, e ≠ none)
    (hl : (RingBuffer.popStep none r pc).2 = .pop pc') :
    (popped pc').map some = (popped pc).map some ++ taking pc := by
  cases pc with
  | loadIndex | clearIndex =>
      cases hl
      rfl
  | loadSlot i =>
      simp only [RingBuffer.popStep] at hl
      split at hl <;> cases hl
      rfl
  | clearSlot e i =>
      cases hl
      obtain ⟨m, rfl⟩ := Option.ne_none_iff_exists'.mp (hproper e (by simp [taking]))
      rfl
  | nextIndex e =>
      cases hl
      cases e <;> rfl
  | setIndex e i => cases hl

/-- What the worker has popped from a channel was accepted there. -/
theorem Conserved.popped_accepted (h : Conserved c s) {index : Nat}
    {pc : PopPc (Option (LogMessage τ ι))} (hpc : s.worker = .popping index t pc)
    {message : LogMessage τ ι} (hmem : message ∈ popped pc) : message ∈ s.accepted t := by
  have hhand : s.worker.hand t = popped pc := by
    rw [hpc, PassPc.hand, if_pos rfl]
  have haccounts := h.accounts t
  rw [hhand] at haccounts
  have hsome : some message ∈ (s.accepted t).map some := by
    rw [haccounts]
    simp [hmem]
  simpa using hsome

/-- An access of the worker's pop, which takes the first stored message into
its hands. -/
theorem Conserved.popStep (h : Conserved c s) (hthread : ∀ m ∈ s.accepted t, m.thread = t)
    {index : Nat} {pc : PopPc (Option (LogMessage τ ι))}
    (hpc : s.worker = .popping index t pc) : Conserved c (s.popStep index t pc) := by
  have hrole : s.worker.role t = .pop pc := by
    rw [hpc, PassPc.role, if_pos rfl]
  have hhand : s.worker.hand t = popped pc := by
    rw [hpc, PassPc.hand, if_pos rfl]
  have hother (u : τ) (hu : u ≠ t) : s.worker.role u = .idle := by
    rw [hpc, PassPc.role, if_neg (Ne.symm hu)]
  have hempty (u : τ) (hu : u ≠ t) : s.worker.hand u = [] := by
    rw [hpc, PassPc.hand, if_neg (Ne.symm hu)]
  have hinv := h.link t
  rw [Delivery.link, hrole] at hinv
  obtain ⟨hinv', hstored⟩ := link_pop hinv (Prod.eta _).symm
  have hstore : (linkOf (s.channel t) (s.threads t).role (.pop pc)).stored none = s.stored t := by
    rw [Delivery.stored, Delivery.link, hrole]
  rw [hstore] at hstored
  have hproper : ∀ e ∈ taking pc, e ≠ none := by
    intro e he
    apply hinv.layout.proper e
    rw [hstore, hstored]
    exact List.mem_append_left _ he
  unfold Delivery.popStep
  rw [← Prod.eta (RingBuffer.popStep none (s.channel t) pc)]
  rcases popStep_local (s.channel t) pc with ⟨pc', hl⟩ | ⟨element, hl, hpopped, htaking⟩
  · have hpopped := popped_step hproper hl
    rw [hl] at hinv' hstored ⊢
    refine h.pop (w := .popping index t pc') rfl rfl rfl rfl rfl (fun u hu => ?_)
      (fun u hu => ?_) ?_ ?_
    · rw [hother u hu, PassPc.role, if_neg (Ne.symm hu)]
    · rw [hempty u hu, PassPc.hand, if_neg (Ne.symm hu)]
    · rwa [PassPc.role, if_pos rfl]
    · rw [hhand, hstored, PassPc.hand, PassPc.role, if_pos rfl, if_pos rfl, hpopped,
        List.append_assoc]
  · rw [hl] at hinv' hstored ⊢
    obtain ⟨hidle, hidleStored⟩ := link_consumer hinv' .idle rfl rfl fun _ => trivial
    rw [htaking, List.nil_append, ← hidleStored] at hstored
    cases element with
    | none =>
        refine h.pop (w := .scan (index + 1)) rfl rfl rfl rfl rfl
          (fun u hu => (hother u hu).symm) (fun u hu => (hempty u hu).symm) hidle ?_
        rw [hhand, hpopped, hstored]
        rfl
    | some message =>
        have hown := hthread message (h.popped_accepted hpc (by rw [hpopped]; exact .head _))
        refine h.pop (w := .saving index message) rfl rfl rfl rfl rfl
          (fun u hu => (hother u hu).symm) (fun u hu => ?_) hidle ?_
        · rw [hempty u hu, PassPc.hand, if_neg (by rw [hown]; exact Ne.symm hu)]
        · rw [hhand, hpopped, hstored, PassPc.hand, if_pos hown]
          rfl

theorem Conserved.work (h : Conserved c s) (hthread : ∀ t, ∀ m ∈ s.accepted t, m.thread = t) :
    Conserved c (s.work c) := by
  unfold Delivery.work
  split
  · next pc hpc =>
      split
      all_goals
        exact h.quiet rfl rfl rfl rfl (fun u => by rw [hpc]; rfl) fun u => by rw [hpc]; rfl
  · next t hpc =>
      exact h.quiet rfl rfl rfl rfl (fun u => by rw [hpc]; rfl) fun u => by rw [hpc]; rfl
  · next index hpc =>
      split
      · next t _ =>
          have hidle (u : τ) : s.worker.role u = .idle := by rw [hpc]; rfl
          have hempty (u : τ) : s.worker.hand u = [] := by rw [hpc]; rfl
          have hinv := h.link t
          rw [Delivery.link, hidle] at hinv
          obtain ⟨hinv', hstored⟩ := link_consumer hinv (.pop .loadIndex) rfl rfl fun _ => trivial
          refine h.pop (t := t) (w := .popping index t .loadIndex) rfl (update_eq_self t _).symm
            rfl rfl rfl (fun u hu => ?_) (fun u hu => ?_) ?_ ?_
          · rw [hidle, PassPc.role, if_neg (Ne.symm hu)]
          · rw [hempty, PassPc.hand, if_neg (Ne.symm hu)]
          · rwa [PassPc.role, if_pos rfl]
          · rw [hempty, PassPc.hand, PassPc.role, if_pos rfl, if_pos rfl, hstored, ← hidle t]
            rfl
      · exact h.quiet rfl rfl rfl rfl (fun u => by rw [hpc]; rfl) fun u => by rw [hpc]; rfl
  · next index t pc hpc => exact h.popStep (hthread t) hpc
  · next index message hpc =>
      refine h.pass rfl rfl rfl (fun u => by rw [hpc]; rfl) fun u => ?_
      rw [hpc]
      simp only [Delivery.savedOf, Delivery.save, PassPc.hand, List.map_append, List.filter_append,
        List.append_nil, List.map_cons, List.map_nil]
      by_cases hu : message.thread = u <;> simp [hu]

omit [DecidableEq ι] in
/-- A thread moves on with the message it has, or is done with it. -/
theorem Numbered.thread (h : Numbered c s) {pc : CallerPc τ ι}
    (hthreads : s'.threads = update s.threads t pc) (haccepted : s'.accepted = s.accepted)
    (hcreated : s'.created = s.created) (hcarries : pc.Carries)
    (hwaiting : ∀ m, pc.waiting = some m → (s.threads t).waiting = some m) : Numbered c s' := by
  refine ⟨fun u => ?_, fun u m hm => ?_, ?_, ?_⟩
  · rw [hthreads]
    by_cases hu : u = t
    · subst hu
      rwa [update_self]
    · rw [update_of_ne hu]
      exact h.carries u
  · rw [haccepted, hcreated]
    rw [hthreads] at hm
    by_cases hu : u = t
    · subst hu
      rw [update_self] at hm
      exact h.waiting u m (hwaiting m hm)
    · rw [update_of_ne hu] at hm
      exact h.waiting u m hm
  · rw [haccepted, hcreated]
    exact h.accepted
  · rw [haccepted]
    exact h.order

omit [DecidableEq ι] in
theorem Numbered.capture (h : Numbered c s) {logger : Option ι} {severity : LogSeverity}
    (hnext : s.capture c t logger severity = some s') : Numbered c s' := by
  rcases Delivery.capture_cases hnext with rfl | ⟨i, _, henabled, rfl⟩
  · exact h
  · refine ⟨fun u => ?_, fun u m hm => ?_, fun u m hm => ?_, h.order⟩
    · by_cases hu : u = t
      · subst hu
        simp only [update_self]
        split
        · rfl
        · trivial
      · simp only [update_of_ne hu]
        exact h.carries u
    · by_cases hu : u = t
      · subst hu
        simp only [update_self] at hm ⊢
        have hm : some { thread := u, seq := s.created u, logger := i, severity := severity } =
            some m := by
          split at hm
          · exact hm
          · exact hm
        cases hm
        exact ⟨rfl, henabled, Nat.lt_succ_self _, fun x hx => (h.accepted u x hx).2.2⟩
      · simp only [update_of_ne hu] at hm ⊢
        exact h.waiting u m hm
    · obtain ⟨hown, hen, hlt⟩ := h.accepted u m hm
      refine ⟨hown, hen, ?_⟩
      by_cases hu : u = t
      · subst hu
        simp only [update_self]
        omega
      · simpa only [update_of_ne hu] using hlt

omit [DecidableEq ι] in
theorem Numbered.registerStep (h : Numbered c s) {message : LogMessage τ ι}
    {pc : PushPc (Option τ)} (hpc : s.threads t = .registering message pc) :
    Numbered c (s.registerStep t message pc) := by
  unfold Delivery.registerStep
  split
  · exact h.thread rfl rfl rfl trivial fun m hm => by rw [hpc]; exact hm
  · exact h.thread rfl rfl rfl rfl fun m hm => by rw [hpc]; exact hm
  · exact h

omit [DecidableEq ι] in
/-- The channel accepts the message its thread was called with. It is the
latest one, so the order is that of creation. -/
theorem Numbered.accept (h : Numbered c s) {message : LogMessage τ ι} {w : Nat}
    (hpc : s.threads t = .pushing message (.storeSlot (some message) w))
    (hthreads : s'.threads = update s.threads t (.pushing message .nextIndex))
    (haccepted : s'.accepted = update s.accepted t (s.accepted t ++ [message]))
    (hcreated : s'.created = s.created) : Numbered c s' := by
  obtain ⟨hown, hen, hlt, hlast⟩ := h.waiting t message (by rw [hpc]; rfl)
  refine ⟨fun u => ?_, fun u m hm => ?_, fun u m hm => ?_, fun u => ?_⟩
  · rw [hthreads]
    by_cases hu : u = t
    · subst hu
      rw [update_self]
      trivial
    · rw [update_of_ne hu]
      exact h.carries u
  · rw [hthreads] at hm
    rw [haccepted, hcreated]
    by_cases hu : u = t
    · subst hu
      rw [update_self] at hm
      cases hm
    · rw [update_of_ne hu] at hm ⊢
      exact h.waiting u m hm
  · rw [hcreated]
    rw [haccepted] at hm
    by_cases hu : u = t
    · subst hu
      rw [update_self, List.mem_append, List.mem_singleton] at hm
      rcases hm with hm | rfl
      · exact h.accepted u m hm
      · exact ⟨hown, hen, hlt⟩
    · rw [update_of_ne hu] at hm
      exact h.accepted u m hm
  · rw [haccepted]
    by_cases hu : u = t
    · subst hu
      rw [update_self, List.pairwise_append]
      refine ⟨h.order u, List.pairwise_singleton _ _, fun x hx y hy => ?_⟩
      rw [List.mem_singleton.mp hy]
      exact hlast x hx
    · rw [update_of_ne hu]
      exact h.order u

theorem Numbered.pushStep (h : Numbered c s) {message : LogMessage τ ι}
    {pc : PushPc (Option (LogMessage τ ι))} (hpc : s.threads t = .pushing message pc) :
    Numbered c (s.pushStep c t message pc) := by
  have hcarries := h.carries t
  rw [hpc] at hcarries
  have hsame : update s.accepted t (s.accepted t ++ []) = s.accepted := by
    rw [List.append_nil, update_eq_self]
  cases pc with
  | loadIndex e | storeIndex e =>
      exact h.thread rfl hsame rfl hcarries fun m hm => by rw [hpc]; exact hm
  | loadSlot e w =>
      simp only [Delivery.pushStep, RingBuffer.pushStep]
      split
      · next heq =>
          split at heq <;> cases heq
          exact h.thread rfl hsame rfl hcarries fun m hm => by rw [hpc]; exact hm
      · next heq => split at heq <;> cases heq
      · split
        · exact h.thread rfl rfl rfl rfl fun m hm => by rw [hpc]; exact hm
        · exact h.thread rfl rfl rfl trivial (by rintro m ⟨⟩)
  | storeSlot e w =>
      obtain rfl : e = some message := hcarries
      exact h.accept hpc rfl rfl rfl
  | nextIndex => exact h.thread rfl hsame rfl trivial (by rintro m ⟨⟩)
  | setIndex w => exact h.thread rfl rfl rfl trivial (by rintro m ⟨⟩)

theorem work_frame : (s.work c).threads = s.threads ∧ (s.work c).accepted = s.accepted ∧
    (s.work c).created = s.created ∧ (s.work c).discarded = s.discarded := by
  unfold Delivery.work
  split
  · split <;> exact ⟨rfl, rfl, rfl, rfl⟩
  · exact ⟨rfl, rfl, rfl, rfl⟩
  · split <;> exact ⟨rfl, rfl, rfl, rfl⟩
  · unfold Delivery.popStep
    split <;> exact ⟨rfl, rfl, rfl, rfl⟩
  · exact ⟨rfl, rfl, rfl, rfl⟩

theorem Numbered.work (h : Numbered c s) : Numbered c (s.work c) := by
  obtain ⟨hthreads, haccepted, hcreated, _⟩ := work_frame (c := c) (s := s)
  refine ⟨?_, ?_, ?_, ?_⟩
  · rw [hthreads]
    exact h.carries
  · rw [hthreads, haccepted, hcreated]
    exact h.waiting
  · rw [haccepted, hcreated]
    exact h.accepted
  · rw [haccepted]
    exact h.order

omit [DecidableEq τ] in
theorem Written.quiet (h : Written c s) (hsaved : s'.saved = s.saved)
    (hreceived : s'.received = s.received)
    (hdiscarded : ∀ m ∈ s'.discarded, m ∈ s.discarded ∨
      c.overflowStrategy m.logger = .dropMessage) : Written c s' := by
  refine ⟨?_, ?_, fun m hm => (hdiscarded m hm).elim (h.discarded m) id⟩
  · rw [hsaved]
    exact h.loggers
  · rw [hsaved, hreceived]
    exact h.received

theorem Written.capture (h : Written c s) {logger : Option ι} {severity : LogSeverity}
    (hnext : s.capture c t logger severity = some s') : Written c s' := by
  rcases Delivery.capture_cases hnext with rfl | ⟨_, _, _, rfl⟩
  · exact h
  · exact h.quiet rfl rfl fun m hm => .inl hm

theorem Written.registerStep (h : Written c s) {message : LogMessage τ ι}
    {pc : PushPc (Option τ)} : Written c (s.registerStep t message pc) := by
  unfold Delivery.registerStep
  split
  · exact h.quiet rfl rfl fun m hm => .inl hm
  · exact h.quiet rfl rfl fun m hm => .inl hm
  · exact h

theorem pushStep_discarded (c : Setup ι) (s : Delivery τ ι) (t : τ)
    (message : LogMessage τ ι) (pc : PushPc (Option (LogMessage τ ι))) :
    (s.pushStep c t message pc).discarded = s.discarded ∨
      (s.pushStep c t message pc).discarded = message :: s.discarded ∧
        c.overflowStrategy message.logger = .dropMessage ∧
        (RingBuffer.pushStep none (s.channel t) pc).2 = .done (.pushed false) := by
  unfold Delivery.pushStep
  rcases pushStep_local none (s.channel t) pc with ⟨pc', hl⟩ | ⟨hl, _⟩ | ⟨hl, _⟩
  · rw [← Prod.eta (RingBuffer.pushStep none (s.channel t) pc), hl]
    exact .inl rfl
  · rw [← Prod.eta (RingBuffer.pushStep none (s.channel t) pc), hl]
    exact .inl rfl
  · rw [← Prod.eta (RingBuffer.pushStep none (s.channel t) pc), hl]
    simp only
    split
    · exact .inl rfl
    · next hdrop => exact .inr ⟨rfl, hdrop, trivial⟩

theorem pushStep_frame {message : LogMessage τ ι} {pc : PushPc (Option (LogMessage τ ι))} :
    (s.pushStep c t message pc).saved = s.saved ∧
      (s.pushStep c t message pc).received = s.received := by
  unfold Delivery.pushStep
  split
  · exact ⟨rfl, rfl⟩
  · exact ⟨rfl, rfl⟩
  · split <;> exact ⟨rfl, rfl⟩

theorem Written.pushStep (h : Written c s) {message : LogMessage τ ι}
    {pc : PushPc (Option (LogMessage τ ι))} : Written c (s.pushStep c t message pc) := by
  refine h.quiet pushStep_frame.1 pushStep_frame.2 fun m hm => ?_
  rcases pushStep_discarded c s t message pc with
    heq | ⟨heq, hdrop, _⟩
  · exact .inl (heq ▸ hm)
  · rw [heq] at hm
    rcases List.mem_cons.mp hm with rfl | hm
    · exact .inr hdrop
    · exact .inl hm

omit [DecidableEq τ] in
/-- A logger hands the message to each of its sinks that accepts it. -/
theorem Written.save (h : Written c s) (message : LogMessage τ ι) :
    Written c (s.save c message.logger message) := by
  refine ⟨fun p hp => ?_, fun i k level hlevel => ?_, h.discarded⟩
  · rcases List.mem_append.mp hp with hp | hp
    · exact h.loggers p hp
    · rw [List.mem_singleton.mp hp]
  · change update s.received message.logger _ i k = _
    simp only [Delivery.save, List.filter_append, List.map_append]
    rw [← h.received i k level hlevel]
    by_cases hi : message.logger = i
    · subst hi
      rw [update_self, hlevel]
      by_cases haccept : shouldAccept level message = true <;> simp [haccept]
    · rw [update_of_ne (Ne.symm hi)]
      simp [hi]

theorem Written.work (h : Written c s) : Written c (s.work c) := by
  unfold Delivery.work
  split
  · split <;> exact h.quiet rfl rfl fun m hm => .inl hm
  · exact h.quiet rfl rfl fun m hm => .inl hm
  · split <;> exact h.quiet rfl rfl fun m hm => .inl hm
  · unfold Delivery.popStep
    split <;> exact h.quiet rfl rfl fun m hm => .inl hm
  · exact (h.save _).quiet rfl rfl fun m hm => .inl hm

/-- What holds between any two steps. The three parts are about different
fields and are shown one by one. -/
structure Ordered (c : Setup ι) (s : Delivery τ ι) : Prop where
  conserved : Conserved c s
  numbered : Numbered c s
  written : Written c s

theorem Ordered.initial (c : Setup ι) : Ordered c (Delivery.initial c : Delivery τ ι) := by
  have hring (t : τ) : RingBuffer.Initial none c.queueSize
      ((Delivery.initial c : Delivery τ ι).link t) :=
    ⟨⟨c.size_pow, rfl⟩, fun role => by cases role <;> rfl⟩
  refine ⟨⟨fun t => (hring t).inv_stored.1, fun t => (hring t).inv_stored.2.symm⟩, ?_, ?_⟩
  · exact ⟨fun _ => trivial, by rintro _ _ ⟨⟩, by rintro _ _ ⟨⟩, fun _ => .nil⟩
  · exact ⟨by rintro _ ⟨⟩, fun _ _ _ _ => rfl, by rintro _ ⟨⟩⟩

/-- Every step keeps the three parts; each looks at other fields of the state. -/
theorem Ordered.next (h : Ordered c s) {a : Action τ ι}
    (hnext : (delivery τ c).next s a = some s') : Ordered c s' := by
  obtain ⟨hconserved, hnumbered, hwritten⟩ := h
  cases a with
  | capture t logger severity =>
      exact ⟨hconserved.capture hnext, hnumbered.capture hnext, hwritten.capture hnext⟩
  | step t =>
      rcases Delivery.logStep_cases hnext with ⟨message, pc, hpc, rfl⟩ | ⟨message, pc, hpc, rfl⟩
      · exact ⟨hconserved.registerStep hpc, hnumbered.registerStep hpc, hwritten.registerStep⟩
      · have hcarries := hnumbered.carries t
        rw [hpc] at hcarries
        exact ⟨hconserved.pushStep hpc hcarries, hnumbered.pushStep hpc, hwritten.pushStep⟩
  | work =>
      cases hnext
      exact ⟨hconserved.work fun t m hm => (hnumbered.accepted t m hm).1, hnumbered.work,
        hwritten.work⟩

/-- Channel `t` is full of messages that have not been saved. They are
distinct and fill all its slots. -/
def Delivery.Full (c : Setup ι) (s : Delivery τ ι) (t : τ) : Prop :=
  ∃ held : List (LogMessage τ ι), held.length = c.queueSize ∧ held.Nodup ∧
    ∀ message ∈ held, (∃ k < c.queueSize, (s.channel t).buf k = some message) ∧
      ∀ p ∈ s.saved, p.2 ≠ message

/-- The accepted messages of a thread that are neither saved nor in the
worker's hands are what its channel stores. -/
theorem Conserved.split (h : Conserved c s) (t : τ) : ∃ held,
    s.stored t = held.map some ∧ s.accepted t = s.savedOf t ++ s.worker.hand t ++ held := by
  have haccounts := h.accounts t
  obtain ⟨front, held, haccepted, hfront, hheld⟩ := List.map_eq_append_iff.mp haccounts
  refine ⟨held, hheld.symm, ?_⟩
  rw [haccepted, List.map_injective_iff.mpr (Option.some_injective _) hfront]

/-- The saved messages of a thread are the first ones its channel has
accepted. -/
theorem Conserved.saved_isPrefix (h : Conserved c s) (t : τ) : s.savedOf t <+: s.accepted t := by
  obtain ⟨held, _, haccepted⟩ := h.split t
  rw [haccepted, List.append_assoc]
  exact List.prefix_append _ _

omit [DecidableEq τ] [DecidableEq ι] in
theorem Numbered.accepted_nodup (h : Numbered c s) (t : τ) : (s.accepted t).Nodup :=
  (h.order t).imp fun hlt heq => by
    rw [heq] at hlt
    exact lt_irrefl _ hlt

omit [DecidableEq ι] in
theorem mem_savedOf {message : LogMessage τ ι} (hmem : message ∈ s.saved.map Prod.snd) :
    message ∈ s.savedOf message.thread := by
  rw [Delivery.savedOf, List.mem_filter]
  exact ⟨hmem, decide_eq_true rfl⟩

/-- A message saved twice would be twice among the saved messages of its
thread. -/
theorem Ordered.saved_nodup (h : Ordered c s) : (s.saved.map Prod.snd).Nodup := by
  rw [List.nodup_iff_count_le_one]
  intro message
  have hcount : (s.saved.map Prod.snd).count message =
      (s.savedOf message.thread).count message := by
    rw [Delivery.savedOf, List.count_filter (by simp)]
  rw [hcount]
  have hnodup : (s.savedOf message.thread).Nodup :=
    (h.numbered.accepted_nodup message.thread).sublist (h.conserved.saved_isPrefix _).sublist
  exact List.nodup_iff_count_le_one.mp hnodup message

/-- A push that fails has found the channel full of unsaved messages, since
the slot at the write index is free otherwise. -/
theorem Ordered.full (h : Ordered c s) {message : LogMessage τ ι}
    {pc : PushPc (Option (LogMessage τ ι))} (hpc : s.threads t = .pushing message pc)
    (hfail : (RingBuffer.pushStep none (s.channel t) pc).2 = .done (.pushed false)) :
    s.Full c t := by
  have hlink : s.link t = linkOf (s.channel t) (.push pc) (s.worker.role t) := by
    rw [Delivery.link, hpc]
    rfl
  have hinv := h.conserved.link t
  have hlayout := hinv.layout
  have hsize := hinv.size_eq
  rw [hlink] at hinv
  have hlength := (link_push hinv (Prod.eta _).symm).2.2 hfail
  rw [← hlink] at hlength
  obtain ⟨held, hheld, haccepted⟩ := h.conserved.split t
  have hnodup := h.numbered.accepted_nodup t
  rw [haccepted] at hnodup
  have hstored : (s.link t).stored none = held.map some := hheld
  rw [hstored, List.length_map] at hlength
  refine ⟨held, hlength, hnodup.of_append_right, fun m hm => ⟨?_, ?_⟩⟩
  · obtain ⟨i, hi, hget⟩ := List.mem_iff_getElem.mp hm
    have hi' : i < (s.link t).ring.size := by rw [hsize]; omega
    have hslot := hlayout.slots i hi'
    rw [hstored, List.getD_eq_getElem _ _ (by simpa using hi), List.getElem_map, hget] at hslot
    refine ⟨_, ?_, hslot⟩
    rw [← hsize]
    exact Nat.mod_lt _ (s.link t).ring.size_pos
  · rintro p hp rfl
    have hown : p.2.thread = t := by
      refine (h.numbered.accepted t p.2 ?_).1
      rw [haccepted]
      exact List.mem_append_right _ hm
    have hsaved : p.2 ∈ s.savedOf t := by
      have hmem := mem_savedOf (List.mem_map_of_mem (f := Prod.snd) hp)
      rwa [hown] at hmem
    exact List.disjoint_of_nodup_append hnodup (List.mem_append_left _ hsaved) hm

/-- A message is discarded only at a full channel, by a logger that drops. -/
theorem Ordered.discards (h : Ordered c s) {a : Action τ ι}
    (hnext : (delivery τ c).next s a = some s') : s'.discarded = s.discarded ∨
      ∃ message, s'.discarded = message :: s.discarded ∧
        c.overflowStrategy message.logger = .dropMessage ∧ s.Full c message.thread := by
  cases a with
  | capture t logger severity =>
      rcases Delivery.capture_cases hnext with rfl | ⟨_, _, _, rfl⟩
      · exact .inl rfl
      · exact .inl rfl
  | step t =>
      rcases Delivery.logStep_cases hnext with ⟨message, pc, _, rfl⟩ | ⟨message, pc, hpc, rfl⟩
      · unfold Delivery.registerStep
        split <;> exact .inl rfl
      · rcases pushStep_discarded c s t message pc with heq | ⟨heq, hdrop, hfail⟩
        · exact .inl heq
        · refine .inr ⟨message, heq, hdrop, ?_⟩
          have hwaiting := h.numbered.waiting t message
          obtain hpush | ⟨hpush, _⟩ | ⟨_, element, w, rfl⟩ :=
            pushStep_local none (s.channel t) pc
          · rw [hfail] at hpush
            obtain ⟨_, ⟨⟩⟩ := hpush
          · rw [hfail] at hpush
            cases hpush
          · rw [(hwaiting (by rw [hpc]; rfl)).1]
            exact h.full hpc hfail
  | work =>
      cases hnext
      exact .inl work_frame.2.2.2

/-- Every sink has received the saved messages of its logger that pass both
levels. -/
theorem Ordered.received (h : Ordered c s) {i : ι} {k : Nat} {level : LogSeverity}
    (hlevel : (c.sinks i)[k]? = some level) : s.received i k =
      ((s.saved.filter fun p => p.1 = i).map Prod.snd).filter fun message =>
        (c.level i).toNat ≤ message.severity.toNat ∧ level.toNat ≤ message.severity.toNat := by
  rw [h.written.received i k level hlevel]
  refine List.filter_congr fun m hm => ?_
  obtain ⟨p, hp, rfl⟩ := List.mem_map.mp hm
  obtain ⟨hp, hi⟩ := List.mem_filter.mp hp
  have hlogger : p.2.logger = i := (h.written.loggers p hp).symm.trans (of_decide_eq_true hi)
  have hmem : p.2 ∈ s.accepted p.2.thread :=
    (h.conserved.saved_isPrefix _).subset (mem_savedOf (List.mem_map_of_mem (f := Prod.snd) hp))
  have henabled := (h.numbered.accepted _ _ hmem).2.1
  rw [Setup.enabled, hlogger, decide_eq_true_eq] at henabled
  simp [shouldAccept, henabled]

/-- Whatever the threads, the loggers and the schedule: the saved messages of
a thread are the first ones its channel has accepted, in that order, and no
message is saved twice or by a foreign logger. A message is discarded only at
a full channel of a logger that drops, and a sink receives exactly the saved
messages of its logger that pass both levels. -/
theorem delivery_in_order {as : List (Action τ ι)} (h : (delivery τ c).Run Free as s) :
    (∀ t, s.savedOf t <+: s.accepted t) ∧ (s.saved.map Prod.snd).Nodup ∧
      (∀ p ∈ s.saved, p.1 = p.2.logger) ∧
      (∀ a s', (delivery τ c).next s a = some s' → s'.discarded = s.discarded ∨
        ∃ message, s'.discarded = message :: s.discarded ∧
          c.overflowStrategy message.logger = .dropMessage ∧ s.Full c message.thread) ∧
      ∀ i k level, (c.sinks i)[k]? = some level → s.received i k =
        ((s.saved.filter fun p => p.1 = i).map Prod.snd).filter fun message =>
          (c.level i).toNat ≤ message.severity.toNat ∧ level.toNat ≤ message.severity.toNat := by
  have hordered : Ordered c s :=
    h.invariant (fun s hs => hs ▸ .initial c) fun _ _ _ hu _ hnext => hu.next hnext
  exact ⟨hordered.conserved.saved_isPrefix, hordered.saved_nodup, hordered.written.loggers,
    fun _ _ => hordered.discards, fun _ _ _ => hordered.received⟩

end Link

/-- One logger that drops messages and one that does not, with channels of two
slots. -/
def twoLoggers : Setup Bool where
  level drops := if drops then .info else .debug
  overflowStrategy drops := if drops then .dropMessage else .retry
  sinks drops := if drops then [.debug, .error] else [.warning]
  queueSize := 2
  size_pow := RingBuffer.Ring.two_eq_pow

/-- The third enabled message of thread 0 finds its channel full and is
dropped; then the worker saves the first two and the one of thread 1. -/
def overflowRun : List (Action (Fin 2) Bool) :=
  .capture 0 (some true) .notice :: List.replicate 12 (Action.step 0) ++
    [Action.capture 0 (some false) .error] ++ List.replicate 6 (Action.step 0) ++
    [Action.capture 0 (some true) .debug, .capture 0 none .error, .capture 0 (some true) .critical,
      .step 0, .step 0, .capture 1 (some true) .error] ++
    List.replicate 12 (Action.step 1) ++ List.replicate 50 Action.work

def overflowState : Delivery (Fin 2) Bool :=
  ((delivery (Fin 2) twoLoggers).exec Free (Delivery.initial twoLoggers) overflowRun).get
    (by decide +kernel)

theorem delivery_in_order_overflowRun :
    (overflowState.saved.map fun p => (p.1, p.2.thread, p.2.seq)) =
        [(true, 0, 0), (true, 1, 0), (false, 0, 1)] ∧
      overflowState.discarded.map LogMessage.seq = [2] ∧
      (∀ t, overflowState.savedOf t <+: overflowState.accepted t) ∧
      (overflowState.saved.map Prod.snd).Nodup := by
  have hrun : (delivery (Fin 2) twoLoggers).Run Free overflowRun overflowState :=
    run_of_exec rfl _
  have horder := delivery_in_order hrun
  exact ⟨by decide +kernel, by decide +kernel, horder.1, horder.2.1⟩

end Libni.Logging
