import Mathlib.Data.List.Perm.Subperm
import Libni.Logging.Model

/-!
What the service asks of the system. `run` flushes the loggers of a pass at its end,
so nothing it has saved stays in a stream while it waits or when it returns; and
`notify` calls `wake` at most once for each time the worker has been about to sleep,
however many messages are logged.
-/

namespace Libni.Logging

open Function Libni.Transition Libni.Transition.System

section Flush

variable {τ ι : Type*}

/-- `loggers` of `run`, and the messages each logger had saved when its sinks
were last flushed. -/
structure Flushing (τ ι : Type*) where
  loggers : List ι
  flushed : ι → List (Message τ ι)

def Flushing.start : Flushing τ ι := ⟨[], fun _ => []⟩

/-- The worker has saved a message in this pass. -/
def WorkerPc.Busy : WorkerPc τ ι → Prop
  | .scan _ true | .saving _ _ => True
  | _ => False

/-- The worker has found no message in this pass. -/
def WorkerPc.Empty : WorkerPc τ ι → Prop
  | .scan _ false | .loadStopping => True
  | _ => False

variable [DecidableEq ι]

def Flushing.flushLoggers (f : Flushing τ ι) (s : Service τ ι) : Flushing τ ι :=
  { f with flushed := f.loggers.foldl (fun flushed i => update flushed i (s.saved i)) f.flushed }

theorem foldl_update_apply {α β : Type*} [DecidableEq α] (l : List α) (f g : α → β) (a : α) :
    l.foldl (fun f x => update f x (g x)) f a = if a ∈ l then g a else f a := by
  induction l generalizing f with
  | nil => simp
  | cons x l ih =>
      rw [List.foldl_cons, ih]
      by_cases hl : a ∈ l
      · simp [hl]
      · by_cases hx : a = x
        · simp [hx]
        · simp [hl, hx]

theorem Flushing.flushLoggers_flushed (f : Flushing τ ι) (s : Service τ ι) (i : ι) :
    (f.flushLoggers s).flushed i = if i ∈ f.loggers then s.saved i else f.flushed i :=
  foldl_update_apply f.loggers f.flushed s.saved i

variable [DecidableEq τ]

/-- What an access of the worker does besides, with variables of its own. -/
def Flushing.see (f : Flushing τ ι) (s : Service τ ι) (l : Label τ ι) (_ : Service τ ι) :
    Flushing τ ι :=
  match l, s.worker with
  | .work, .collecting => { f with loggers := [] }
  | .work, .saving _ m => { f with loggers := f.loggers ++ [m.logger] }
  | .work, .scan i true => if s.channels[i]?.isNone then f.flushLoggers s else f
  | .work, .loadStopping => if s.stopping || s.spins = 0 then f.flushLoggers s else f
  | _, _ => f

variable (τ) in
def flushing (c : Config ι) : System (Service τ ι × Flushing τ ι) (Label τ ι) :=
  (system τ c).observed .start Flushing.see

/-- What the streams of each logger still hold back was saved in this pass.
Outside of a pass with messages they hold back nothing. -/
structure Flushes (s : Service τ ι) (f : Flushing τ ι) : Prop where
  ahead : ∀ i, f.flushed i <+: s.saved i
  held : ∀ i, i ∉ f.loggers → f.flushed i = s.saved i
  settled : ¬ s.worker.Busy → ∀ i, f.flushed i = s.saved i
  cleared : s.worker.Empty → f.loggers = []

variable {c : Config ι} {s s' : Service τ ι} {f : Flushing τ ι}

omit [DecidableEq τ] [DecidableEq ι] in
theorem Flushes.keeps (h : Flushes s f) (hsaved : s'.saved = s.saved)
    (hbusy : ¬ s'.worker.Busy → ¬ s.worker.Busy) (hempty : s'.worker.Empty → s.worker.Empty) :
    Flushes s' f where
  ahead i := by rw [hsaved]; exact h.ahead i
  held i hi := by rw [hsaved]; exact h.held i hi
  settled hidle i := by rw [hsaved]; exact h.settled (hbusy hidle) i
  cleared he := h.cleared (hempty he)

omit [DecidableEq τ] in
theorem Flushes.flush (h : Flushes s f) (hsaved : s'.saved = s.saved)
    (hempty : ¬ s'.worker.Empty) : Flushes s' (f.flushLoggers s) := by
  have hall (i : ι) : (f.flushLoggers s).flushed i = s'.saved i := by
    rw [Flushing.flushLoggers_flushed, hsaved]
    split
    · rfl
    · next hi => exact h.held i hi
  refine ⟨fun i => ?_, fun i _ => hall i, fun _ => hall, fun he => absurd he hempty⟩
  simp only [hall i, List.prefix_rfl]

omit [DecidableEq τ] in
/-- A logger that saves a message is noted for the flush at the end of the
pass. -/
theorem Flushes.save (h : Flushes s f) {i : Nat} {m : Message τ ι} :
    Flushes { s with
        saved := update s.saved m.logger (s.saved m.logger ++ [m])
        worker := .scan (i + 1) true }
      { f with loggers := f.loggers ++ [m.logger] } := by
  refine ⟨fun j => ?_, fun j hj => ?_, fun hidle => absurd trivial hidle, fun he => he.elim⟩
  · by_cases hjm : j = m.logger
    · subst hjm
      simpa using (h.ahead _).trans (List.prefix_append _ _)
    · simpa [update_of_ne hjm] using h.ahead j
  · simp only [List.mem_append, List.mem_singleton, not_or] at hj
    simpa [update_of_ne hj.2] using h.held j hj.1

omit [DecidableEq τ] in
/-- The flush of a pass that has found no message has no logger to flush. -/
theorem Flushing.flushLoggers_nil (hnil : f.loggers = []) : f.flushLoggers s = f := by
  cases f
  cases hnil
  rfl

/-- A pass ends with a flush of all loggers that have saved in it, and the
next one begins with none. -/
theorem Flushes.scan (h : Flushes s f) {i : Nat} {hasMessages : Bool}
    (hpc : s.worker = .scan i hasMessages) (s'' : Service τ ι) :
    Flushes (s.scan i hasMessages) (f.see s .work s'') := by
  cases hi : s.channels[i]? with
  | some t =>
      have hsee : f.see s .work s'' = f := by
        cases hasMessages <;> simp [Flushing.see, hpc, hi]
      rw [hsee]
      simp only [Service.scan, hi]
      split
      · cases hasMessages
        · exact h.keeps rfl (fun _ => by rw [hpc]; exact id) fun _ => by rw [hpc]; trivial
        · exact h.keeps rfl (fun hidle => absurd trivial hidle) fun he => he.elim
      · exact h.keeps rfl (fun hidle => absurd trivial hidle) fun he => he.elim
  | none =>
      cases hasMessages with
      | true =>
          simp only [Flushing.see, hpc, hi, Option.isNone_none, if_true, Service.scan]
          exact h.flush rfl id
      | false =>
          simp only [Flushing.see, hpc, Service.scan, hi]
          exact h.keeps rfl (fun _ => by rw [hpc]; exact id) fun _ => by rw [hpc]; trivial

theorem Flushes.work (h : Flushes s f) (hnext : s.work = some s') :
    Flushes s' (f.see s .work s') := by
  cases hpc : s.worker with
  | collecting =>
      have hall := h.settled (by rw [hpc]; exact id)
      simp only [Service.work, hpc] at hnext
      split at hnext
      all_goals
        cases hnext
        simp only [Flushing.see, hpc]
        exact ⟨h.ahead, fun i _ => hall i, fun _ => hall, fun _ => rfl⟩
  | scan i hasMessages =>
      simp only [Service.work, hpc] at hnext
      cases hnext
      exact h.scan hpc _
  | saving i m =>
      simp only [Service.work, hpc] at hnext
      cases hnext
      simp only [Flushing.see, hpc]
      exact h.save
  | loadStopping =>
      have hidle : ¬ s.worker.Busy := by rw [hpc]; exact id
      have hsee : f.see s .work s' = f := by
        simp only [Flushing.see, hpc, Flushing.flushLoggers_nil (h.cleared (by rw [hpc]; trivial)),
          ite_self]
      rw [hsee]
      simp only [Service.work, hpc] at hnext
      cases hnext
      split
      · exact h.keeps rfl (fun _ => hidle) fun he => he.elim
      · split <;> exact h.keeps rfl (fun _ => hidle) fun he => he.elim
  | storeZero =>
      simp only [Service.work, hpc] at hnext
      cases hnext
      simp only [Flushing.see, hpc]
      exact h.keeps rfl (fun _ => by rw [hpc]; exact id) fun he => he.elim
  | futexWait | woken =>
      have hidle : ¬ s.worker.Busy := by rw [hpc]; exact id
      simp only [Service.work, hpc] at hnext
      cases hnext
      simp only [Flushing.see, hpc]
      split <;> exact h.keeps rfl (fun _ => hidle) fun he => he.elim
  | asleep | returned =>
      simp only [Service.work, hpc] at hnext
      cases hnext

omit [DecidableEq τ] [DecidableEq ι] in
theorem NotifyPc.busy_rouse {w : WorkerPc τ ι} {pc : NotifyPc} :
    ((pc.rouse w).Busy ↔ w.Busy) ∧ ((pc.rouse w).Empty ↔ w.Empty) := by
  cases pc <;> cases w <;> exact ⟨Iff.rfl, Iff.rfl⟩

omit [DecidableEq τ] in
/-- A step that saves nothing and leaves the worker where it is in its pass. -/
theorem Flushes.elsewhere (h : Flushes s f) {l : Label τ ι} (hl : l ≠ .work)
    (hsaved : s'.saved = s.saved) (hbusy : s'.worker.Busy ↔ s.worker.Busy)
    (hempty : s'.worker.Empty ↔ s.worker.Empty) : Flushes s' (f.see s l s') := by
  have hsee : f.see s l s' = f := by
    cases l <;> first | rfl | exact absurd rfl hl
  rw [hsee]
  exact h.keeps hsaved (mt hbusy.mpr) hempty.mp

/-- No step leaves a message in a stream past the end of its pass. -/
theorem Flushes.next {l : Label τ ι} (h : Flushes s f) (hnext : s.next c l = some s') :
    Flushes s' (f.see s l s') := by
  cases l with
  | log t i =>
      simp only [Service.next, Service.log] at hnext
      split at hnext <;> cases hnext
      exact h.elsewhere nofun rfl Iff.rfl Iff.rfl
  | step t =>
      simp only [Service.next, Service.logStep] at hnext
      split at hnext <;> cases hnext
      · unfold Service.register
        split <;> exact h.elsewhere nofun rfl Iff.rfl Iff.rfl
      · unfold Service.push
        split
        · exact h.elsewhere nofun rfl Iff.rfl Iff.rfl
        · split <;> exact h.elsewhere nofun rfl Iff.rfl Iff.rfl
      · exact h.elsewhere nofun rfl NotifyPc.busy_rouse.1 NotifyPc.busy_rouse.2
  | stop =>
      simp only [Service.next, Service.stop] at hnext
      split at hnext <;> cases hnext
      exact h.elsewhere nofun rfl Iff.rfl Iff.rfl
  | stopStep =>
      simp only [Service.next, Service.stopStep] at hnext
      split at hnext
      · cases hnext
        exact h.elsewhere nofun rfl Iff.rfl Iff.rfl
      · cases hnext
        exact h.elsewhere nofun rfl NotifyPc.busy_rouse.1 NotifyPc.busy_rouse.2
      · split at hnext <;> cases hnext
        exact h.elsewhere nofun rfl Iff.rfl Iff.rfl
      · cases hnext
  | work => exact h.work hnext
  | interrupt | spurious =>
      simp only [Service.next] at hnext
      split at hnext <;> cases hnext
      next hpc => exact h.elsewhere nofun rfl (by rw [hpc]; exact Iff.rfl) (by rw [hpc]; exact Iff.rfl)
  | setErrno e =>
      simp only [Service.next] at hnext
      split at hnext <;> cases hnext
      exact h.elsewhere nofun rfl Iff.rfl Iff.rfl

/-- Outside a pass that has found a message, in particular while the worker
sleeps and when it has returned, every message saved has been flushed; in such
a pass, only loggers that have saved one in it have to be. -/
theorem saved_flushed {p : Service τ ι × Flushing τ ι} {ls : List (Label τ ι)}
    (hrun : (flushing τ c).Run Free ls p) :
    (∀ i, p.2.flushed i <+: p.1.saved i ∧
      (p.2.flushed i ≠ p.1.saved i → i ∈ p.2.loggers)) ∧
    (¬ p.1.worker.Busy → p.2.flushed = p.1.saved) := by
  have h : Flushes p.1 p.2 := by
    refine hrun.invariant (I := fun p => Flushes p.1 p.2) ?_ fun p l p' h _ hnext => ?_
    · rintro ⟨s₀, f₀⟩ ⟨rfl, rfl⟩
      exact ⟨fun _ => List.prefix_rfl, fun _ _ => rfl, fun _ _ => rfl, fun _ => rfl⟩
    · obtain ⟨hstep, hsee⟩ := observed_next.mp hnext
      rw [← hsee]
      exact h.next hstep
  refine ⟨fun i => ⟨h.ahead i, fun hne => ?_⟩, fun hidle => funext (h.settled hidle)⟩
  by_contra hi
  exact hne (h.held i hi)

def oneRetrying : Config Unit := ⟨fun _ => .retry, 2⟩

/-- A thread logs a message, and the worker ends the pass in which it saves
it. -/
def loggedOnce : List (Label Unit Unit) :=
  .log () () :: List.replicate 5 (Label.step ()) ++ List.replicate 5 Label.work

def loggedOnceState : Service Unit Unit × Flushing Unit Unit :=
  ((flushing Unit oneRetrying).exec Free (Service.initial, .start) loggedOnce).get
    (by decide +kernel)

theorem saved_flushed_loggedOnce : loggedOnceState.1.saved () = [⟨(), 0, ()⟩] ∧
    loggedOnceState.2.flushed = loggedOnceState.1.saved := by
  have hinit : (flushing Unit oneRetrying).init (Service.initial, .start) := ⟨rfl, rfl⟩
  have hrun : (flushing Unit oneRetrying).Run Free loggedOnce loggedOnceState :=
    run_of_exec hinit _
  have hcollecting : loggedOnceState.1.worker = .collecting := by decide +kernel
  refine ⟨by decide +kernel, (saved_flushed hrun).2 ?_⟩
  rw [hcollecting]
  exact id

end Flush

section Wake

variable {τ ι : Type*}

/-- How often 0 has been stored in the futex word, and which calls of `notify`
have exchanged a 0 for a 1 and which have called `wake`; those of `stop` are
`none`. -/
structure Wakes (τ : Type*) where
  zeros : Nat
  won : List (Option τ)
  called : List (Option τ)

def Wakes.start : Wakes τ := ⟨0, [], []⟩

def Wakes.notify (g : Wakes τ) (futex : Bool) (who : Option τ) : NotifyPc → Wakes τ
  | .load => g
  | .exchange => if futex then g else { g with won := who :: g.won }
  | .wake => { g with called := who :: g.called }

def Wakes.see (g : Wakes τ) (s : Service τ ι) (l : Label τ ι) (_ : Service τ ι) : Wakes τ :=
  match l with
  | .step t =>
      match s.threads t with
      | .notify _ pc => g.notify s.futex (some t) pc
      | _ => g
  | .stopStep =>
      match s.stopper with
      | .notify pc => g.notify s.futex none pc
      | _ => g
  | .work => if s.worker matches .storeZero then { g with zeros := g.zeros + 1 } else g
  | _ => g

/-- The access of `notify` that a thread, or `stop`, is at. -/
def Service.notifying (s : Service τ ι) : Option τ → Option NotifyPc
  | some t =>
      match s.threads t with
      | .notify _ pc => some pc
      | _ => none
  | none =>
      match s.stopper with
      | .notify pc => some pc
      | _ => none

variable [DecidableEq τ]

/-- Whoever has set the word has called `wake` or is about to. The word can be
set once for each store of 0, and once at the start. -/
structure Paid (s : Service τ ι) (g : Wakes τ) : Prop where
  word : g.won.length + (if s.futex then 0 else 1) ≤ g.zeros + 1
  calls : ∀ who, g.called.count who + (if s.notifying who = some .wake then 1 else 0) =
    g.won.count who

variable {c : Config ι} {s s' : Service τ ι} {g : Wakes τ}

omit [DecidableEq τ] in
theorem Paid.keeps [DecidableEq τ] (h : Paid s g) (hfutex : s'.futex = s.futex)
    (hnotifying : ∀ who, s'.notifying who = some .wake ↔ s.notifying who = some .wake) :
    Paid s' g where
  word := by rw [hfutex]; exact h.word
  calls who := by
    simp only [hnotifying who]
    exact h.calls who

/-- A step of one caller, which calls `wake` or sets the word or neither. The
counts of the other callers stay. -/
theorem Paid.moves (h : Paid s g) {g' : Wakes τ} (who : Option τ)
    (hword : g'.won.length + (if s'.futex then 0 else 1) ≤ g'.zeros + 1)
    (hself : g'.called.count who + (if s'.notifying who = some .wake then 1 else 0) =
      g'.won.count who)
    (hothers : ∀ x, x ≠ who → s'.notifying x = s.notifying x ∧
      g'.called.count x = g.called.count x ∧ g'.won.count x = g.won.count x) : Paid s' g' where
  word := hword
  calls x := by
    by_cases hx : x = who
    · subst hx
      exact hself
    · obtain ⟨hpc, hcalled, hwon⟩ := hothers x hx
      rw [hpc, hcalled, hwon]
      exact h.calls x

theorem Paid.notify (h : Paid s g) {who : Option τ} {pc : NotifyPc}
    (hpc : s.notifying who = some pc) (hfutex : s'.futex = pc.store s.futex)
    (hself : s'.notifying who = pc.next s.futex)
    (hothers : ∀ x, x ≠ who → s'.notifying x = s.notifying x) :
    Paid s' (g.notify s.futex who pc) := by
  have hword := h.word
  have hcalls := h.calls who
  rw [hpc] at hcalls
  have hcons {l : List (Option τ)} (x : Option τ) (hx : x ≠ who) :
      (who :: l).count x = l.count x := List.count_cons_of_ne (Ne.symm hx)
  cases pc with
  | load =>
      refine h.moves who (by rw [hfutex]; exact hword) ?_
        fun x hx => ⟨hothers x hx, rfl, rfl⟩
      rw [hself]
      cases s.futex <;> simpa [NotifyPc.next, Wakes.notify] using hcalls
  | exchange =>
      cases hset : s.futex with
      | true =>
          refine h.moves who (by rw [hfutex]; rw [hset] at hword; exact hword) ?_
            fun x hx => ⟨hothers x hx, rfl, rfl⟩
          rw [hself, hset]
          simpa [NotifyPc.next, Wakes.notify] using hcalls
      | false =>
          rw [hset] at hword
          refine h.moves who (by rw [hfutex]; exact hword) ?_
            fun x hx => ⟨hothers x hx, rfl, hcons x hx⟩
          rw [hself, hset]
          simpa [NotifyPc.next, Wakes.notify] using hcalls
  | wake =>
      refine h.moves who (by rw [hfutex]; exact hword) ?_
        fun x hx => ⟨hothers x hx, hcons x hx, rfl⟩
      rw [hself]
      simpa [NotifyPc.next, Wakes.notify] using hcalls

omit [DecidableEq τ] in
theorem Service.notifying_congr (hthreads : s'.threads = s.threads)
    (hstopper : s'.stopper = s.stopper) : s'.notifying = s.notifying := by
  funext who
  cases who with
  | none => simp only [Service.notifying, hstopper]
  | some t => simp only [Service.notifying, hthreads]

theorem Service.notifying_update {t : τ} {l : LogPc τ ι}
    (hthreads : s'.threads = update s.threads t l) (hstopper : s'.stopper = s.stopper)
    (x : Option τ) (hx : x ≠ some t) : s'.notifying x = s.notifying x := by
  cases x with
  | none => simp only [Service.notifying, hstopper]
  | some u =>
      have hu : u ≠ t := fun heq => hx (by rw [heq])
      simp only [Service.notifying, hthreads, update_of_ne hu]

theorem Paid.thread_moves (h : Paid s g) {t : τ} {l : LogPc τ ι}
    (hpc : ∀ m, s.threads t ≠ .notify m .wake) (hl : ∀ m, l ≠ .notify m .wake)
    (hthreads : s'.threads = update s.threads t l) (hstopper : s'.stopper = s.stopper)
    (hfutex : s'.futex = s.futex) : Paid s' g := by
  refine h.keeps hfutex fun who => ?_
  by_cases hwho : who = some t
  · subst hwho
    simp only [Service.notifying, hthreads, update_self]
    constructor <;> intro hwake <;> split at hwake <;> cases hwake
    · exact absurd rfl (hl _)
    · next _ hcase => exact absurd hcase (hpc _)
  · rw [Service.notifying_update hthreads hstopper who hwho]

theorem Paid.logStep (h : Paid s g) {t : τ} (hnext : s.logStep c t = some s') :
    Paid s' (g.see s (.step t : Label τ ι) s') := by
  unfold Service.logStep at hnext
  split at hnext
  · cases hnext
  · next m hpc =>
      cases hnext
      simp only [Wakes.see, hpc]
      unfold Service.register
      split
      · exact h.thread_moves (l := .push m) (by simp [hpc]) nofun rfl rfl rfl
      · exact h
  · next m hpc =>
      cases hnext
      simp only [Wakes.see, hpc]
      unfold Service.push
      split
      · exact h.thread_moves (l := .notify m .load) (by simp [hpc]) nofun rfl rfl rfl
      · split
        · exact h
        · exact h.thread_moves (l := .idle) (by simp [hpc]) nofun rfl rfl rfl
  · next m pc hpc =>
      cases hnext
      simp only [Wakes.see, hpc]
      refine h.notify (by simp only [Service.notifying, hpc]) rfl ?_
        (Service.notifying_update rfl rfl)
      simp only [Service.notifying, Service.notifyStep, update_self]
      cases pc.next s.futex <;> rfl

theorem Paid.stopStep (h : Paid s g) (hnext : s.stopStep = some s') :
    Paid s' (g.see s (.stopStep : Label τ ι) s') := by
  unfold Service.stopStep at hnext
  have hothers {s' : Service τ ι} (hthreads : s'.threads = s.threads) (x : Option τ)
      (hx : x ≠ none) : s'.notifying x = s.notifying x := by
    cases x with
    | none => exact absurd rfl hx
    | some t => simp only [Service.notifying, hthreads]
  have hsilent {s' : Service τ ι} (hthreads : s'.threads = s.threads)
      (hfutex : s'.futex = s.futex) (hpc : s.stopper ≠ .notify .wake)
      (hpc' : s'.stopper ≠ .notify .wake) : Paid s' g := by
    refine h.keeps hfutex fun who => ?_
    cases who with
    | none =>
        simp only [Service.notifying]
        constructor <;> intro hwake <;> split at hwake <;> cases hwake
        · next hcase => exact absurd hcase hpc'
        · next hcase => exact absurd hcase hpc
    | some t => rw [hothers hthreads (some t) nofun]
  split at hnext
  · next hpc =>
      cases hnext
      simp only [Wakes.see, hpc]
      exact hsilent rfl rfl (by simp [hpc]) nofun
  · next pc hpc =>
      cases hnext
      simp only [Wakes.see, hpc]
      refine h.notify (by simp only [Service.notifying, hpc]) rfl ?_ (hothers rfl)
      simp only [Service.notifying]
      cases pc.next s.futex <;> rfl
  · next hpc =>
      split at hnext <;> cases hnext
      simp only [Wakes.see, hpc]
      exact hsilent rfl rfl (by simp [hpc]) nofun
  · cases hnext

variable [DecidableEq ι]

variable (τ) in
def waking (c : Config ι) : System (Service τ ι × Wakes τ) (Label τ ι) :=
  (system τ c).observed .start Wakes.see

theorem Paid.work (h : Paid s g) (hnext : s.work = some s') :
    Paid s' (g.see s (.work : Label τ ι) s') := by
  have hkeeps {s' : Service τ ι} (hthreads : s'.threads = s.threads)
      (hstopper : s'.stopper = s.stopper) (hfutex : s'.futex = s.futex) : Paid s' g :=
    h.keeps hfutex fun who => by rw [Service.notifying_congr hthreads hstopper]
  cases hpc : s.worker with
  | storeZero =>
      simp only [Service.work, hpc] at hnext
      cases hnext
      simp only [Wakes.see, hpc, if_true]
      refine ⟨?_, h.calls⟩
      have hword := h.word
      simp only [Bool.false_eq_true, if_false]
      omega
  | collecting =>
      simp only [Service.work, hpc] at hnext
      simp only [Wakes.see, hpc]
      split at hnext <;> cases hnext <;> exact hkeeps rfl rfl rfl
  | scan i hasMessages =>
      simp only [Service.work, hpc, Service.scan] at hnext
      cases hnext
      simp only [Wakes.see, hpc]
      split
      · split <;> exact hkeeps rfl rfl rfl
      · split <;> exact hkeeps rfl rfl rfl
  | loadStopping =>
      simp only [Service.work, hpc] at hnext
      cases hnext
      simp only [Wakes.see, hpc]
      split
      · exact hkeeps rfl rfl rfl
      · split <;> exact hkeeps rfl rfl rfl
  | saving i m =>
      simp only [Service.work, hpc] at hnext
      cases hnext
      simp only [Wakes.see, hpc]
      exact hkeeps rfl rfl rfl
  | futexWait | woken =>
      simp only [Service.work, hpc] at hnext
      cases hnext
      simp only [Wakes.see, hpc]
      split <;> exact hkeeps rfl rfl rfl
  | asleep | returned =>
      simp only [Service.work, hpc] at hnext
      cases hnext

theorem Paid.next {l : Label τ ι} (h : Paid s g) (hnext : s.next c l = some s') :
    Paid s' (g.see s l s') := by
  cases l with
  | log t i =>
      simp only [Service.next, Service.log] at hnext
      split at hnext <;> cases hnext
      next hpc =>
      refine h.thread_moves (t := t) (by simp [hpc]) ?_ rfl rfl rfl
      intro m
      split <;> exact nofun
  | step t => exact h.logStep hnext
  | stop =>
      simp only [Service.next, Service.stop] at hnext
      split at hnext <;> cases hnext
      next hpc =>
      refine h.keeps rfl fun who => ?_
      cases who with
      | none => simp [Service.notifying, hpc]
      | some t => exact Iff.rfl
  | stopStep => exact h.stopStep hnext
  | work => exact h.work hnext
  | interrupt | spurious =>
      simp only [Service.next] at hnext
      split at hnext <;> cases hnext
      exact h.keeps rfl fun _ => Iff.rfl
  | setErrno e =>
      simp only [Service.next] at hnext
      split at hnext <;> cases hnext
      exact h.keeps rfl fun _ => Iff.rfl

/-- However many messages are logged, `wake` is called at most once for each
store of 0 in the futex word, and once more. -/
theorem wakes_le_zeros {p : Service τ ι × Wakes τ} {ls : List (Label τ ι)}
    (hrun : (waking τ c).Run Free ls p) : p.2.called.length ≤ p.2.zeros + 1 := by
  have h : Paid p.1 p.2 := by
    refine hrun.invariant (I := fun p => Paid p.1 p.2) ?_ fun p l p' h _ hnext => ?_
    · rintro ⟨s₀, g₀⟩ ⟨rfl, rfl⟩
      exact ⟨Nat.le_refl _, fun who => by cases who <;> rfl⟩
    · obtain ⟨hstep, hsee⟩ := observed_next.mp hnext
      rw [← hsee]
      exact h.next hstep
  have hcalled : p.2.called.length ≤ p.2.won.length := by
    refine List.Subperm.length_le (List.subperm_ext_iff.mpr fun who _ => ?_)
    rw [← h.calls who]
    exact Nat.le_add_right _ _
  have hword := h.word
  omega

/-- Two threads log; the second finds the futex word set. -/
def loggedTwice : List (Label Bool Unit) :=
  .log false () :: List.replicate 5 (Label.step false) ++
    .log true () :: List.replicate 3 (Label.step true)

def loggedTwiceState : Service Bool Unit × Wakes Bool :=
  ((waking Bool oneRetrying).exec Free (Service.initial, .start) loggedTwice).get
    (by decide +kernel)

theorem wakes_le_zeros_loggedTwice : loggedTwiceState.1.returned.length = 2 ∧
    loggedTwiceState.2.called.length ≤ loggedTwiceState.2.zeros + 1 ∧
    loggedTwiceState.2.zeros = 0 := by
  have hinit : (waking Bool oneRetrying).init (Service.initial, .start) := ⟨rfl, rfl⟩
  have hrun : (waking Bool oneRetrying).Run Free loggedTwice loggedTwiceState :=
    run_of_exec hinit _
  exact ⟨by decide +kernel, wakes_le_zeros hrun, by decide +kernel⟩

end Wake

end Libni.Logging
