import Mathlib.Order.Nat
import Libni.Transition.System
import Libni.Logging.Service

/-!
Which bus a message goes to. The static of `log` keeps the channel of the first
service a thread has logged to, and the bus of that service owns the channel as long
as it exists. So a message reaches the bus of its logger exactly if that service is
the thread's first one.
-/

namespace Libni.Logging

open Function Libni.Transition Libni.Transition.System

/-- The logger whose `log` the thread is in. -/
def LogCall.logger : LogCall → Option Nat
  | .idle => none
  | .registering logger _ | .pushing logger | .notifying logger => some logger

namespace Services

section Basic

variable {τ : Type*}

/-- The channel that thread `t` uses was created by the bus its logger is
connected to, and still belongs to it. -/
def Routed (s : Services τ) (t : τ) (logger : Nat) : Prop :=
  ∃ b service c, s.output logger = some b ∧ s.services b = some service ∧
    s.channel t = some c ∧ s.creator c = some b ∧ c ∈ service.pending ++ service.channels

/-- A thread logs to the service of its first call of `log`. Several threads
may well log to several services. -/
def OneService (s : Services τ) : Command τ → Prop
  | .log t logger => s.first t = none ∨ s.first t = s.output logger
  | _ => True

instance (s : Services τ) (command : Command τ) : Decidable (s.OneService command) := by
  cases command <;> unfold OneService <;> infer_instance

/-- What is known of a thread; the last fact only where threads log to one
service. -/
structure Caller (P : Prop) (s : Services τ) (t : τ) : Prop where
  cached : ∀ c, s.channel t = some c → ∃ b, s.first t = some b ∧ b < s.serviceCount ∧
    c < s.channelCount ∧ s.creator c = some b ∧
    ∀ service, s.services b = some service → c ∈ service.pending ++ service.channels
  registering : ∀ logger c, s.threads t = .registering logger c → c < s.channelCount ∧
    ∃ b, s.first t = some b ∧ s.output logger = some b ∧ b < s.serviceCount ∧
      s.creator c = some b
  calling : ∀ logger, s.threads t = .pushing logger ∨ s.threads t = .notifying logger →
    ∃ c, s.channel t = some c
  bounded : ∀ logger, (s.threads t).logger = some logger → logger < s.loggerCount
  loyal : P → ∀ logger, (s.threads t).logger = some logger → s.first t = s.output logger

/-- What is known of all services and threads. Numbers that will be given
later belong to nobody yet. -/
structure Tracked (P : Prop) (s : Services τ) : Prop where
  services : ∀ b service, s.services b = some service → b < s.serviceCount ∧
    ∀ logger ∈ service.loggers.map Prod.snd, logger < s.loggerCount
  callers : ∀ t, s.Caller P t

/-- What changes of the services, the loggers and the channels leave alone: no
bus gives up a channel, no logger changes its bus. -/
structure Later (s s' : Services τ) : Prop where
  serviceCount : s.serviceCount ≤ s'.serviceCount
  channelCount : s.channelCount ≤ s'.channelCount
  loggerCount : s.loggerCount ≤ s'.loggerCount
  services : ∀ b service', b < s.serviceCount → s'.services b = some service' →
    ∃ service, s.services b = some service ∧
      ∀ c ∈ service.pending ++ service.channels, c ∈ service'.pending ++ service'.channels
  output : ∀ logger < s.loggerCount, s'.output logger = s.output logger
  creator : ∀ c < s.channelCount, s'.creator c = s.creator c

variable {s s' : Services τ} {t : τ} {b : Nat} {service : LogService}
  {P : Prop}

theorem Caller.later (h : s.Caller P t) (hlater : Later s s')
    (hthreads : s'.threads t = s.threads t) (hchannel : s'.channel t = s.channel t)
    (hfirst : s'.first t = s.first t) : s'.Caller P t := by
  refine ⟨fun c hc => ?_, fun logger c hpc => ?_, fun logger hpc => ?_, fun logger hl => ?_,
    fun hP logger hl => ?_⟩
  · rw [hchannel] at hc
    obtain ⟨b, hb, hcount, hlt, hcreator, hmem⟩ := h.cached c hc
    refine ⟨b, hfirst.trans hb, hcount.trans_le hlater.serviceCount,
      hlt.trans_le hlater.channelCount, (hlater.creator c hlt).trans hcreator,
      fun service' hs' => ?_⟩
    obtain ⟨service, hs, hsub⟩ := hlater.services b service' hcount hs'
    exact hsub c (hmem service hs)
  · rw [hthreads] at hpc
    obtain ⟨hlt, b, hb, hout, hcount, hcreator⟩ := h.registering logger c hpc
    have hl := h.bounded logger (by rw [hpc]; rfl)
    exact ⟨hlt.trans_le hlater.channelCount, b, hfirst.trans hb,
      (hlater.output logger hl).trans hout, hcount.trans_le hlater.serviceCount,
      (hlater.creator c hlt).trans hcreator⟩
  · rw [hthreads] at hpc
    rw [hchannel]
    exact h.calling logger hpc
  · rw [hthreads] at hl
    exact (h.bounded logger hl).trans_le hlater.loggerCount
  · rw [hthreads] at hl
    rw [hfirst, hlater.output logger (h.bounded logger hl)]
    exact h.loyal hP logger hl

/-- The owner of a logger exists and has it among its loggers. -/
theorem owner_eq_some {logger : Nat} (h : s.owner logger = some (b, service)) :
    s.output logger = some b ∧ s.services b = some service ∧
      logger ∈ service.loggers.map Prod.snd := by
  unfold owner at h
  split at h
  · cases h
  · next b' hout =>
      split at h
      · cases h
      · next service' hs =>
          split at h
          · next hmem =>
              cases h
              exact ⟨hout, hs, hmem⟩
          · cases h

/-- A service changes, without giving up channels or forgetting loggers. -/
theorem Later.setService (hs : s.services b = some service) {service' : LogService}
    (hservices : s'.services = update s.services b (some service'))
    (hsub : ∀ c ∈ service.pending ++ service.channels,
      c ∈ service'.pending ++ service'.channels)
    (hserviceCount : s'.serviceCount = s.serviceCount)
    (hchannelCount : s.channelCount ≤ s'.channelCount)
    (hloggerCount : s.loggerCount ≤ s'.loggerCount)
    (houtput : ∀ logger < s.loggerCount, s'.output logger = s.output logger)
    (hcreator : ∀ c < s.channelCount, s'.creator c = s.creator c) : Later s s' := by
  refine ⟨hserviceCount.ge, hchannelCount, hloggerCount, fun b' service'' _ hs'' => ?_,
    houtput, hcreator⟩
  rw [hservices] at hs''
  by_cases hb : b' = b
  · subst hb
    rw [update_self] at hs''
    cases hs''
    exact ⟨service, hs, hsub⟩
  · rw [update_of_ne hb] at hs''
    exact ⟨service'', hs'', fun c hc => hc⟩

theorem Later.create (queueSize : Nat) : Later s (s.create queueSize) := by
  refine ⟨Nat.le_succ _, le_rfl, le_rfl, fun b service' hlt hs' => ?_, fun _ _ => rfl,
    fun _ _ => rfl⟩
  have hs' : update s.services s.serviceCount _ b = some service' := hs'
  rw [update_of_ne hlt.ne] at hs'
  exact ⟨service', hs', fun c hc => hc⟩

/-- A service that is destroyed takes its channels with it, and nothing is
said of those. -/
theorem Later.destroy (b : Nat) (service : LogService) : Later s (s.destroy b service) := by
  refine ⟨le_rfl, le_rfl, le_rfl, fun b' service' _ hs' => ?_, fun _ _ => rfl, fun _ _ => rfl⟩
  have hs' : update s.services b none b' = some service' := hs'
  by_cases hb : b' = b
  · subst hb
    rw [update_self] at hs'
    cases hs'
  · rw [update_of_ne hb] at hs'
    exact ⟨service', hs', fun c hc => hc⟩

theorem Tracked.of_later (h : Tracked P s) (hlater : Later s s')
    (hthreads : s'.threads = s.threads) (hchannel : s'.channel = s.channel)
    (hfirst : s'.first = s.first)
    (hservices : ∀ b service, s'.services b = some service → b < s'.serviceCount ∧
      ∀ logger ∈ service.loggers.map Prod.snd, logger < s'.loggerCount) : Tracked P s' :=
  ⟨hservices, fun t => (h.callers t).later hlater (congrFun hthreads t) (congrFun hchannel t)
    (congrFun hfirst t)⟩

theorem Tracked.create (h : Tracked P s) (queueSize : Nat) : Tracked P (s.create queueSize) := by
  refine h.of_later (.create queueSize) rfl rfl rfl fun b service hs => ?_
  have hs : update s.services s.serviceCount _ b = some service := hs
  by_cases hb : b = s.serviceCount
  · subst hb
    rw [update_self] at hs
    cases hs
    exact ⟨Nat.lt_succ_self _, by rintro _ ⟨⟩⟩
  · rw [update_of_ne hb] at hs
    exact ⟨(h.services b service hs).1.trans (Nat.lt_succ_self _), (h.services b service hs).2⟩

theorem Tracked.destroy (h : Tracked P s) (b : Nat) (service : LogService) :
    Tracked P (s.destroy b service) := by
  refine h.of_later (.destroy b service) rfl rfl rfl fun b' service' hs => ?_
  have hs : update s.services b none b' = some service' := hs
  by_cases hb : b' = b
  · subst hb
    rw [update_self] at hs
    cases hs
  · rw [update_of_ne hb] at hs
    exact h.services b' service' hs

/-- `serviceInstance`, the threads and the messages of the channels do not
matter. -/
theorem Later.unseen (hservices : s'.services = s.services) (hloggers : s'.loggers = s.loggers)
    (hserviceCount : s'.serviceCount = s.serviceCount)
    (hloggerCount : s'.loggerCount = s.loggerCount)
    (hchannelCount : s'.channelCount = s.channelCount) (hcreator : s'.creator = s.creator) :
    Later s s' := by
  refine ⟨hserviceCount.ge, hchannelCount.ge, hloggerCount.ge, fun b service' _ hs => ?_,
    fun logger _ => ?_, fun c _ => congrFun hcreator c⟩
  · rw [hservices] at hs
    exact ⟨service', hs, fun c hc => hc⟩
  · exact congrArg Logger.output (congrFun hloggers logger)

theorem Tracked.unseen (h : Tracked P s) (hlater : Later s s') (hservices : s'.services = s.services)
    (hthreads : s'.threads = s.threads) (hchannel : s'.channel = s.channel)
    (hfirst : s'.first = s.first) : Tracked P s' := by
  refine h.of_later hlater hthreads hchannel hfirst fun b service hs => ?_
  rw [hservices] at hs
  obtain ⟨hlt, hl⟩ := h.services b service hs
  exact ⟨hlt.trans_le hlater.serviceCount, fun logger hmem =>
    (hl logger hmem).trans_le hlater.loggerCount⟩

theorem Tracked.init (h : Tracked P s) (queueSize : Nat) : Tracked P (s.init queueSize) := by
  unfold Services.init
  split
  · next b service _ =>
      exact ((h.destroy b service).create queueSize).unseen (.unseen rfl rfl rfl rfl rfl rfl) rfl
        rfl rfl rfl
  · exact (h.create queueSize).unseen (.unseen rfl rfl rfl rfl rfl rfl) rfl rfl rfl rfl

end Basic

section Calls

variable {τ : Type*} [DecidableEq τ] {s s' : Services τ} {t : τ} {b : Nat}
  {service : LogService} {P : Prop}

omit [DecidableEq τ] in
theorem Tracked.addLogger (h : Tracked P s) (hs : s.services b = some service) (name : String)
    (overflowStrategy : OverflowStrategy) :
    Tracked P (s.addLogger b service name overflowStrategy) := by
  unfold Services.addLogger
  split
  · refine h.of_later ⟨le_rfl, le_rfl, Nat.le_succ _, fun b' service' _ hs' => ?_, fun _ _ => rfl,
      fun _ _ => rfl⟩ rfl rfl rfl fun b' service' hs' => ?_
    · exact ⟨service', hs', fun c hc => hc⟩
    · obtain ⟨hlt, hl⟩ := h.services b' service' hs'
      exact ⟨hlt, fun logger hmem => (hl logger hmem).trans (Nat.lt_succ_self _)⟩
  · refine h.of_later (.setService hs rfl (fun c hc => hc) rfl le_rfl (Nat.le_succ _)
      (fun logger hlt => ?_) fun _ _ => rfl) rfl rfl rfl fun b' service' hs' => ?_
    · change (update s.loggers s.loggerCount _ logger).output = _
      rw [update_of_ne hlt.ne]
      rfl
    · have hs' : update s.services b (some _) b' = some service' := hs'
      by_cases hb : b' = b
      · subst hb
        rw [update_self] at hs'
        cases hs'
        obtain ⟨hlt, hl⟩ := h.services b' service hs
        refine ⟨hlt, fun logger hmem => ?_⟩
        rcases List.mem_cons.mp hmem with rfl | hmem
        · exact Nat.lt_succ_self _
        · exact (hl logger hmem).trans (Nat.lt_succ_self _)
      · rw [update_of_ne hb] at hs'
        obtain ⟨hlt, hl⟩ := h.services b' service' hs'
        exact ⟨hlt, fun logger hmem => (hl logger hmem).trans (Nat.lt_succ_self _)⟩

omit [DecidableEq τ] in
theorem services_of_setService (h : Tracked P s) (hs : s.services b = some service)
    {service' : LogService} (hservices : s'.services = update s.services b (some service'))
    (hloggers : service'.loggers = service.loggers)
    (hserviceCount : s'.serviceCount = s.serviceCount)
    (hloggerCount : s'.loggerCount = s.loggerCount) (b' : Nat) (service'' : LogService)
    (hs'' : s'.services b' = some service'') : b' < s'.serviceCount ∧
      ∀ logger ∈ service''.loggers.map Prod.snd, logger < s'.loggerCount := by
  rw [hserviceCount, hloggerCount]
  rw [hservices] at hs''
  by_cases hb : b' = b
  · subst hb
    rw [update_self] at hs''
    cases hs''
    rw [hloggers]
    exact h.services b' service hs
  · rw [update_of_ne hb] at hs''
    exact h.services b' service'' hs''

omit [DecidableEq τ] in
theorem Tracked.mover (h : Tracked P s) (hlater : Later s s')
    (hthreads : ∀ u, u ≠ t → s'.threads u = s.threads u)
    (hchannel : ∀ u, u ≠ t → s'.channel u = s.channel u)
    (hfirst : ∀ u, u ≠ t → s'.first u = s.first u) (hcaller : s'.Caller P t)
    (hservices : ∀ b service, s'.services b = some service → b < s'.serviceCount ∧
      ∀ logger ∈ service.loggers.map Prod.snd, logger < s'.loggerCount) : Tracked P s' := by
  refine ⟨hservices, fun u => ?_⟩
  by_cases hu : u = t
  · subst hu
    exact hcaller
  · exact (h.callers u).later hlater (hthreads u hu) (hchannel u hu) (hfirst u hu)

omit [DecidableEq τ] in
theorem Caller.goto (h : s.Caller P t) (hlater : Later s s')
    (hchannel : s'.channel t = s.channel t) (hfirst : s'.first t = s.first t)
    (hregistering : ∀ logger c, s'.threads t ≠ .registering logger c)
    (hcalling : ∀ logger, s'.threads t = .pushing logger ∨ s'.threads t = .notifying logger →
      logger < s.loggerCount ∧ (P → s.first t = s.output logger) ∧
        ∃ c, s.channel t = some c) : s'.Caller P t := by
  have hlogger (logger : Nat) (hl : (s'.threads t).logger = some logger) :
      s'.threads t = .pushing logger ∨ s'.threads t = .notifying logger := by
    cases hpc : s'.threads t with
    | idle =>
        rw [hpc] at hl
        cases hl
    | registering logger' c => exact absurd hpc (hregistering logger' c)
    | pushing logger' =>
        rw [hpc] at hl
        cases hl
        exact .inl rfl
    | notifying logger' =>
        rw [hpc] at hl
        cases hl
        exact .inr rfl
  refine ⟨fun c hc => ?_, fun logger c hpc => absurd hpc (hregistering logger c),
    fun logger hpc => ?_, fun logger hl => ?_, fun hP logger hl => ?_⟩
  · rw [hchannel] at hc
    obtain ⟨b, hb, hcount, hlt, hcreator, hmem⟩ := h.cached c hc
    refine ⟨b, hfirst.trans hb, hcount.trans_le hlater.serviceCount,
      hlt.trans_le hlater.channelCount, (hlater.creator c hlt).trans hcreator,
      fun service' hs' => ?_⟩
    obtain ⟨service, hs, hsub⟩ := hlater.services b service' hcount hs'
    exact hsub c (hmem service hs)
  · rw [hchannel]
    exact (hcalling logger hpc).2.2
  · exact (hcalling logger (hlogger logger hl)).1.trans_le hlater.loggerCount
  · obtain ⟨hlt, hloyal, _⟩ := hcalling logger (hlogger logger hl)
    rw [hfirst, hlater.output logger hlt]
    exact hloyal hP

/-- A thread with a channel moves on and nothing else changes that matters
here. -/
theorem Tracked.goto (h : Tracked P s) {pc : LogCall} (hservices : s'.services = s.services)
    (hlater : Later s s') (hthreads : s'.threads = update s.threads t pc)
    (hchannel : s'.channel = s.channel) (hfirst : s'.first = s.first)
    (hregistering : ∀ logger c, pc ≠ .registering logger c)
    (hcalling : ∀ logger, pc = .pushing logger ∨ pc = .notifying logger →
      logger < s.loggerCount ∧ (P → s.first t = s.output logger) ∧
        ∃ c, s.channel t = some c) : Tracked P s' := by
  refine h.mover (t := t) hlater (fun u hu => ?_) (fun u _ => congrFun hchannel u)
    (fun u _ => congrFun hfirst u)
    ((h.callers t).goto hlater (congrFun hchannel t) (congrFun hfirst t) ?_ ?_)
    fun b service hs => ?_
  · rw [hthreads, update_of_ne hu]
  · rwa [hthreads, update_self]
  · rwa [hthreads, update_self]
  · rw [hservices] at hs
    obtain ⟨hlt, hl⟩ := h.services b service hs
    exact ⟨hlt.trans_le hlater.serviceCount, fun logger hmem =>
      (hl logger hmem).trans_le hlater.loggerCount⟩

/-- The first call of `log` settles which service the thread's channel belongs
to. -/
theorem Tracked.log (h : Tracked P s) {logger : Nat}
    (hguard : P → s.first t = none ∨ s.first t = s.output logger)
    (howner : s.owner logger = some (b, service)) : Tracked P (s.log t logger b service) := by
  obtain ⟨hout, hs, hmem⟩ := owner_eq_some howner
  obtain ⟨hb, hbound⟩ := h.services b service hs
  have hlogger := hbound logger hmem
  unfold Services.log
  split
  · next c hc =>
      refine h.goto rfl (.unseen rfl rfl rfl rfl rfl rfl) rfl rfl rfl (by rintro _ _ ⟨⟩) ?_
      rintro logger' (heq | heq) <;> cases heq
      obtain ⟨b', hfirst, _⟩ := (h.callers t).cached c hc
      refine ⟨hlogger, fun hP => (hguard hP).resolve_left ?_, c, hc⟩
      rw [hfirst]
      exact Option.some_ne_none b'
  · next hnone =>
      have hcreator (c : Nat) (hc : c < s.channelCount) :
          update s.creator s.channelCount (some b) c = s.creator c := update_of_ne hc.ne _ _
      refine h.mover (t := t) ⟨le_rfl, Nat.le_succ _, le_rfl, fun b' service' _ hs' =>
        ⟨service', hs', fun c hc => hc⟩, fun _ _ => rfl, hcreator⟩
        (fun u hu => update_of_ne hu _ _) (fun _ _ => rfl) (fun u hu => update_of_ne hu _ _)
        ⟨fun c hc => ?_, fun logger' c hpc => ?_, fun logger' hpc => ?_, fun logger' hl => ?_,
          fun _ logger' hl => ?_⟩
        h.services
      · rw [hnone] at hc
        cases hc
      · have hpc : LogCall.registering logger s.channelCount = .registering logger' c := by
          simpa only [update_self] using hpc
        cases hpc
        exact ⟨Nat.lt_succ_self _, b, update_self _ _ _, hout, hb, update_self _ _ _⟩
      · simp only [update_self] at hpc
        rcases hpc with hpc | hpc <;> cases hpc
      · simp only [update_self] at hl
        cases hl
        exact hlogger
      · simp only [update_self] at hl ⊢
        cases hl
        exact hout.symm

theorem Tracked.register (h : Tracked P s) {logger c : Nat}
    (hpc : s.threads t = .registering logger c) (howner : s.owner logger = some (b, service)) :
    Tracked P (s.register t logger c b service) := by
  obtain ⟨hout, hs, _⟩ := owner_eq_some howner
  obtain ⟨hc, b', hfirst, hout', hb, hcreator⟩ := (h.callers t).registering logger c hpc
  obtain rfl : b' = b := Option.some.inj (hout'.symm.trans hout)
  have hlogger := (h.callers t).bounded logger (by rw [hpc]; rfl)
  unfold Services.register
  split
  · refine h.mover (t := t) (.setService hs rfl (fun x hx => ?_) rfl le_rfl le_rfl
        (fun _ _ => rfl) fun _ _ => rfl)
      (fun u hu => update_of_ne hu _ _) (fun u hu => update_of_ne hu _ _) (fun _ _ => rfl)
      ⟨fun x hx => ?_, fun logger' x hpc' => ?_, fun logger' _ => ⟨c, update_self _ _ _⟩,
        fun logger' hl => ?_, fun _ logger' hl => ?_⟩ (services_of_setService h hs rfl rfl rfl rfl)
    · simp only [List.mem_append] at hx ⊢
      exact hx.imp_left .inl
    · have hx : update s.channel t (some c) t = some x := hx
      rw [update_self] at hx
      cases hx
      refine ⟨b', hfirst, hb, hc, hcreator, fun service' hs' => ?_⟩
      have hs' : update s.services b' (some _) b' = some service' := hs'
      rw [update_self] at hs'
      cases hs'
      simp
    · simp only [update_self] at hpc'
      cases hpc'
    · simp only [update_self] at hl
      cases hl
      exact hlogger
    · simp only [update_self] at hl
      cases hl
      exact hfirst.trans hout.symm
  · exact h

theorem Tracked.push (h : Tracked P s) {logger c : Nat} (hpc : s.threads t = .pushing logger) :
    Tracked P (s.push t logger c) := by
  have hlogger := (h.callers t).bounded logger (by rw [hpc]; rfl)
  have hchannel := (h.callers t).calling logger (.inl hpc)
  have hnotifying (logger' : Nat) (heq : LogCall.notifying logger = .pushing logger' ∨
      LogCall.notifying logger = .notifying logger') :
      logger' < s.loggerCount ∧ (P → s.first t = s.output logger') ∧
        ∃ c, s.channel t = some c := by
    rcases heq with heq | heq <;> cases heq
    exact ⟨hlogger, fun hP => (h.callers t).loyal hP logger (by rw [hpc]; rfl), hchannel⟩
  unfold Services.push
  split
  · exact h.goto rfl (.unseen rfl rfl rfl rfl rfl rfl) rfl rfl rfl (by rintro _ _ ⟨⟩) hnotifying
  · split
    · exact h.goto rfl (.unseen rfl rfl rfl rfl rfl rfl) rfl rfl rfl (by rintro _ _ ⟨⟩) hnotifying
    · split
      · exact h
      · exact h.goto rfl (.unseen rfl rfl rfl rfl rfl rfl) rfl rfl rfl (by rintro _ _ ⟨⟩)
          (by rintro _ (hidle | hidle) <;> cases hidle)

theorem Tracked.notify (h : Tracked P s) (hs : s.services b = some service) :
    Tracked P (s.notify t b service) := by
  have hlater : Later s (s.notify t b service) :=
    .setService hs rfl (fun c hc => hc) rfl le_rfl le_rfl (fun _ _ => rfl) fun _ _ => rfl
  refine h.mover (t := t) hlater (fun u hu => update_of_ne hu _ _) (fun _ _ => rfl)
    (fun _ _ => rfl) ((h.callers t).goto hlater rfl rfl ?_ ?_)
    (services_of_setService h hs rfl rfl rfl rfl)
  · intro logger c hpc
    simp only [Services.notify, update_self] at hpc
    cases hpc
  · intro logger hpc
    simp only [Services.notify, update_self] at hpc
    rcases hpc with hpc | hpc <;> cases hpc

/-- Every step keeps track of the channels; where `P` is assumed, it has to
keep to one service. -/
theorem Tracked.next (h : Tracked P s) {command : Command τ}
    (hguard : P → s.OneService command) (hnext : s.next command = some s') : Tracked P s' := by
  cases command with
  | create queueSize =>
      cases hnext
      exact h.create queueSize
  | destroy b =>
      simp only [Services.next] at hnext
      split at hnext
      · cases hnext
      · obtain ⟨service, _, rfl⟩ := Option.map_eq_some_iff.mp hnext
        exact h.destroy b service
  | init queueSize =>
      cases hnext
      exact h.init queueSize
  | addLogger b name overflowStrategy =>
      obtain ⟨service, hs, rfl⟩ := Option.map_eq_some_iff.mp hnext
      exact h.addLogger hs name overflowStrategy
  | log t logger =>
      simp only [Services.next] at hnext
      split at hnext
      · next b service _ howner =>
          cases hnext
          exact h.log hguard howner
      · cases hnext
  | step t =>
      simp only [Services.next, Services.step] at hnext
      split at hnext
      · cases hnext
      · next logger c hpc =>
          obtain ⟨⟨b, service⟩, howner, rfl⟩ := Option.map_eq_some_iff.mp hnext
          exact h.register hpc howner
      · next logger hpc =>
          split at hnext <;> cases hnext
          exact h.push hpc
      · obtain ⟨⟨b, service⟩, howner, rfl⟩ := Option.map_eq_some_iff.mp hnext
        exact h.notify (owner_eq_some howner).2.1
  | collect b =>
      obtain ⟨service, hs, rfl⟩ := Option.map_eq_some_iff.mp hnext
      refine h.of_later (.setService hs rfl (fun c hc => ?_) rfl le_rfl le_rfl (fun _ _ => rfl)
        fun _ _ => rfl) rfl rfl rfl (services_of_setService h hs rfl rfl rfl rfl)
      rw [List.nil_append]
      exact List.mem_append.mpr (List.mem_append.mp hc).symm
  | consume b index =>
      obtain ⟨service, _, rfl⟩ := Option.map_eq_some_iff.mp hnext
      unfold Services.consume
      split
      · exact h
      · exact h.unseen (.unseen rfl rfl rfl rfl rfl rfl) rfl rfl rfl rfl

omit [DecidableEq τ] in
theorem Tracked.initial : Tracked P (initial : Services τ) where
  services := by rintro _ _ ⟨⟩
  callers _ := by
    refine ⟨by rintro _ ⟨⟩, by rintro _ _ ⟨⟩, fun logger h => ?_, by rintro _ ⟨⟩,
      by rintro _ _ ⟨⟩⟩
    rcases h with h | h <;> cases h

/-- The channel of a thread is the one its logger's bus would give it exactly
if that bus is the one of the thread's first call. -/
theorem Tracked.routed_iff (h : Tracked P s) {logger : Nat}
    (hpc : s.threads t = .pushing logger ∨ s.threads t = .notifying logger)
    (hstep : (s.step t).isSome = true) : s.Routed t logger ↔ s.first t = s.output logger := by
  obtain ⟨c, hc⟩ := (h.callers t).calling logger hpc
  obtain ⟨b, hfirst, _, _, hcreator, hmem⟩ := (h.callers t).cached c hc
  constructor
  · rintro ⟨b', service, c', hout, _, hc', hcreator', _⟩
    obtain rfl : c = c' := Option.some.inj (hc.symm.trans hc')
    rw [hfirst, hout, ← hcreator, hcreator']
  · intro heq
    have howner : (s.owner logger).isSome = true := by
      rcases hpc with hpc | hpc
      · rw [step, hpc] at hstep
        cases howner : s.owner logger with
        | none => simp [howner] at hstep
        | some _ => rfl
      · rw [step, hpc] at hstep
        simpa using hstep
    obtain ⟨⟨b', service⟩, howner⟩ := Option.isSome_iff_exists.mp howner
    obtain ⟨hout, hs, _⟩ := owner_eq_some howner
    obtain rfl : b = b' := by
      rw [hfirst, hout] at heq
      exact Option.some.inj heq
    exact ⟨b, service, c, hout, hs, hc, hcreator, hmem service hs⟩

end Calls

end Services

open Services

/-- Where every thread logs to one service only, each push and each `notify`
is to the bus of the logger. Where threads log to several, it is so exactly
for the calls to the service of the thread's first one, since the static of
`log` is initialized once. -/
theorem messages_routed {τ : Type*} [DecidableEq τ] {commands : List (Command τ)}
    {s : Services τ} {t : τ} {logger : Nat}
    (hpc : s.threads t = .pushing logger ∨ s.threads t = .notifying logger)
    (hstep : (s.step t).isSome = true) :
    ((logging τ).Run OneService commands s → s.Routed t logger) ∧
      ((logging τ).Run Free commands s → (s.Routed t logger ↔ s.first t = s.output logger)) := by
  constructor
  · intro h
    have htracked : s.Tracked True := h.invariant (fun s hs => hs ▸ .initial)
      fun _ _ _ hu hguard hnext => hu.next (fun _ => hguard) hnext
    rw [htracked.routed_iff hpc hstep]
    refine (htracked.callers t).loyal trivial logger ?_
    rcases hpc with hpc | hpc <;> rw [hpc] <;> rfl
  · intro h
    have htracked : s.Tracked False := h.invariant (fun s hs => hs ▸ .initial)
      fun _ _ _ hu _ hnext => hu.next (by rintro ⟨⟩) hnext
    exact htracked.routed_iff hpc hstep

def twoServicesRun : List (Command (Fin 2)) :=
  [.init 2, .create 2, .addLogger 0 "console" .retry, .addLogger 1 "console" .dropMessage,
    .log 0 0, .log 1 1, .step 0, .step 0, .step 1, .collect 1, .step 0, .log 0 0]

def twoServicesState : Services (Fin 2) :=
  ((logging (Fin 2)).exec OneService initial twoServicesRun).get (by decide +kernel)

theorem messages_routed_twoServicesRun :
    twoServicesState.Routed 0 0 ∧ twoServicesState.Routed 1 1 := by
  have hrun : (logging (Fin 2)).Run OneService twoServicesRun twoServicesState :=
    run_of_exec rfl _
  exact ⟨(messages_routed (.inl (by decide +kernel)) (by decide +kernel)).1 hrun,
    (messages_routed (.inl (by decide +kernel)) (by decide +kernel)).1 hrun⟩

/-- One thread logs to two services in turn; the first is gone at the second
call. -/
def reinitRun : List (Command Unit) :=
  [.init 2, .addLogger 0 "console" .retry, .log () 0, .step (), .step (), .step (), .collect 0,
    .init 2, .addLogger 1 "console" .retry, .log () 1]

def reinitState : Services Unit :=
  ((logging Unit).exec Free initial reinitRun).get (by decide +kernel)

/-- The second message goes to the channel that the first service has freed. -/
theorem message_pushed_to_freed_channel :
    (reinitState.channel () = some 0 ∧ reinitState.channels 0 = none) ∧
      ¬ ∀ (commands : List (Command Unit)) (s : Services Unit) (t : Unit) (logger : Nat),
        (logging Unit).Run Free commands s →
          s.threads t = .pushing logger ∨ s.threads t = .notifying logger →
            (s.step t).isSome = true → s.Routed t logger := by
  refine ⟨by decide +kernel, fun h => ?_⟩
  have hrun : (logging Unit).Run Free reinitRun reinitState := run_of_exec rfl _
  obtain ⟨b, _, c, hout, _, hc, hcreator, _⟩ :=
    h reinitRun reinitState () 1 hrun (.inl (by decide +kernel)) (by decide +kernel)
  have hout' : reinitState.output 1 = some 1 := by decide +kernel
  have hc' : reinitState.channel () = some 0 := by decide +kernel
  have hcreator' : reinitState.creator 0 = some 0 := by decide +kernel
  obtain rfl : 1 = b := Option.some.inj (hout'.symm.trans hout)
  obtain rfl : 0 = c := Option.some.inj (hc'.symm.trans hc)
  rw [hcreator'] at hcreator
  cases hcreator

end Libni.Logging
