import Libni.Logging.Routing

/-!
Looking up loggers by name. While a service exists, `get` returns the first logger
that has been added to it under the name, whatever is added later to it or to other
services, and that logger is connected to its bus; a name under which none has been
added is refused with an exception that tells it.
-/

namespace Libni.Logging

open Function Libni.Transition Libni.Transition.System

/-- The exception of `get`, with its text. -/
structure LoggerNotFound where
  what : String
  deriving DecidableEq

/-- The constructor of `LoggerNotFound`. -/
def loggerNotFound (logger : String) : LoggerNotFound :=
  ⟨"Logger \"" ++ logger ++ "\" not found"⟩

/-- What `get` does with the logger it finds. -/
def found (name : String) : Option Nat → Except LoggerNotFound Nat
  | some logger => .ok logger
  | none => .error (loggerNotFound name)

def LogService.get (service : LogService) (name : String) : Except LoggerNotFound Nat :=
  found name (service.loggers.lookup name)

/-- What `add_logger` returns for the name. -/
def LogService.accepts (service : LogService) (name : String) : Bool :=
  !(service.loggers.map Prod.fst).contains name

/-- A call of `add_logger`, with the number of the logger it is given. -/
structure Addition where
  service : Nat
  name : String
  logger : Nat
  deriving DecidableEq

/-- The first logger added to a service under a name. -/
def firstAdded (added : List Addition) (b : Nat) (name : String) : Option Nat :=
  (added.find? fun a => a.service = b ∧ a.name = name).map Addition.logger

section Lookup

variable {α β : Type*} [BEq α]

theorem contains_keys_eq (l : List (α × β)) (a : α) :
    (l.map Prod.fst).contains a = (l.lookup a).isSome := by
  induction l with
  | nil => rfl
  | cons x l ih =>
      obtain ⟨k, v⟩ := x
      rw [List.map_cons, List.contains_cons, List.lookup_cons, ih]
      cases a == k <;> rfl

end Lookup

namespace Services

section Basic

variable {τ : Type*}

/-- `logging::logger`, null if `init` has not been called. -/
def logger (s : Services τ) (name : String) : Except LoggerNotFound (Option Nat) :=
  match s.serviceInstance.bind s.services with
  | some service => (service.get name).map some
  | none => .ok none

/-- The loggers that have been given to `add_logger`. -/
def added (additions : List Addition) (s : Services τ) (command : Command τ) (_ : Services τ) :
    List Addition :=
  match command with
  | .addLogger b name _ => additions ++ [⟨b, name, s.loggerCount⟩]
  | _ => additions

/-- Every service keeps the first logger of each name, connected to its own
bus. -/
structure Registered (s : Services τ) (additions : List Addition) : Prop where
  counted : ∀ b service, s.services b = some service → b < s.serviceCount
  numbered : ∀ a ∈ additions, a.service < s.serviceCount ∧ a.logger < s.loggerCount
  lookup : ∀ b service, s.services b = some service → ∀ name,
    service.loggers.lookup name = firstAdded additions b name
  connected : ∀ b service name logger, s.services b = some service →
    service.loggers.lookup name = some logger → s.output logger = some b
  existing : ∀ b, s.serviceInstance = some b → (s.services b).isSome = true

variable {s s' : Services τ} {additions : List Addition} {b : Nat} {service : LogService}

theorem firstAdded_mem {name : String} {l : Nat} (h : firstAdded additions b name = some l) :
    ∃ a ∈ additions, a.service = b ∧ a.logger = l := by
  obtain ⟨a, ha, rfl⟩ := Option.map_eq_some_iff.mp h
  have hcond := List.find?_some ha
  simp only [decide_eq_true_eq] at hcond
  exact ⟨a, List.mem_of_find?_eq_some ha, hcond.1, rfl⟩

theorem Registered.logger_lt (h : Registered s additions) {name : String} {l : Nat}
    (hs : s.services b = some service) (hl : service.loggers.lookup name = some l) :
    l < s.loggerCount := by
  rw [h.lookup b service hs name] at hl
  obtain ⟨a, ha, -, rfl⟩ := firstAdded_mem hl
  exact (h.numbered a ha).2

/-- A step that adds no logger: each service has been there with the same
loggers, or is a new one without any. -/
theorem Registered.keeps (h : Registered s additions)
    (hserviceCount : s.serviceCount ≤ s'.serviceCount)
    (hloggerCount : s.loggerCount ≤ s'.loggerCount) (hloggers : s'.loggers = s.loggers)
    (hservices : ∀ b service', s'.services b = some service' → b < s'.serviceCount ∧
      ((∃ service, s.services b = some service ∧ service'.loggers = service.loggers) ∨
        s.serviceCount ≤ b ∧ service'.loggers = []))
    (hinstance : ∀ b, s'.serviceInstance = some b → (s'.services b).isSome = true) :
    Registered s' additions where
  counted b service' hs' := (hservices b service' hs').1
  numbered a ha :=
    ⟨(h.numbered a ha).1.trans_le hserviceCount, (h.numbered a ha).2.trans_le hloggerCount⟩
  lookup b service' hs' name := by
    obtain ⟨-, ⟨service, hs, hsame⟩ | ⟨hnew, hnil⟩⟩ := hservices b service' hs'
    · rw [hsame]
      exact h.lookup b service hs name
    · rw [hnil]
      cases hfirst : firstAdded additions b name with
      | none => rfl
      | some l =>
          obtain ⟨a, ha, rfl, -⟩ := firstAdded_mem hfirst
          exact absurd (h.numbered a ha).1 (not_lt.mpr hnew)
  connected b service' name l hs' hl := by
    obtain ⟨-, ⟨service, hs, hsame⟩ | ⟨hnew, hnil⟩⟩ := hservices b service' hs'
    · rw [hsame] at hl
      rw [← h.connected b service name l hs hl, Services.output, hloggers, Services.output]
    · rw [hnil] at hl
      cases hl
  existing := hinstance

theorem Registered.unseen (h : Registered s additions) (hservices : s'.services = s.services)
    (hloggers : s'.loggers = s.loggers) (hinstance : s'.serviceInstance = s.serviceInstance)
    (hserviceCount : s'.serviceCount = s.serviceCount)
    (hloggerCount : s'.loggerCount = s.loggerCount) : Registered s' additions := by
  refine h.keeps hserviceCount.ge hloggerCount.ge hloggers (fun b service hs => ?_) ?_
  · rw [hservices] at hs
    rw [hserviceCount]
    exact ⟨h.counted b service hs, .inl ⟨service, hs, rfl⟩⟩
  · rw [hinstance, hservices]
    exact h.existing

theorem Registered.setService (h : Registered s additions) {service' : LogService}
    (hs : s.services b = some service)
    (hservices : s'.services = update s.services b (some service'))
    (hsame : service'.loggers = service.loggers)
    (hloggers : s'.loggers = s.loggers) (hinstance : s'.serviceInstance = s.serviceInstance)
    (hserviceCount : s'.serviceCount = s.serviceCount)
    (hloggerCount : s'.loggerCount = s.loggerCount) : Registered s' additions := by
  refine h.keeps hserviceCount.ge hloggerCount.ge hloggers (fun b' service'' hs'' => ?_)
    fun b' hb' => ?_
  · rw [hservices] at hs''
    rw [hserviceCount]
    by_cases hb : b' = b
    · subst hb
      rw [update_self] at hs''
      cases hs''
      exact ⟨h.counted b' service hs, .inl ⟨service, hs, hsame⟩⟩
    · rw [update_of_ne hb] at hs''
      exact ⟨h.counted b' service'' hs'', .inl ⟨service'', hs'', rfl⟩⟩
  · rw [hinstance] at hb'
    rw [hservices]
    by_cases hb : b' = b
    · rw [hb, update_self]
      rfl
    · rw [update_of_ne hb]
      exact h.existing b' hb'

theorem Registered.create (h : Registered s additions) (queueSize : Nat) :
    Registered (s.create queueSize) additions := by
  refine h.keeps (Nat.le_succ _) le_rfl rfl (fun b service hs => ?_) fun b hb => ?_
  · have hs : update s.services s.serviceCount _ b = some service := hs
    by_cases hb : b = s.serviceCount
    · subst hb
      rw [update_self] at hs
      cases hs
      exact ⟨Nat.lt_succ_self _, .inr ⟨le_rfl, rfl⟩⟩
    · rw [update_of_ne hb] at hs
      exact ⟨(h.counted b service hs).trans (Nat.lt_succ_self _), .inl ⟨service, hs, rfl⟩⟩
  · change (update s.services s.serviceCount _ b).isSome = true
    by_cases hnew : b = s.serviceCount
    · rw [hnew, update_self]
      rfl
    · rw [update_of_ne hnew]
      exact h.existing b hb

theorem Registered.created (h : Registered s additions) (queueSize : Nat) :
    Registered { s.create queueSize with serviceInstance := some s.serviceCount } additions := by
  have hcreate := h.create queueSize
  refine ⟨hcreate.counted, hcreate.numbered, hcreate.lookup, hcreate.connected, fun b hb => ?_⟩
  cases hb
  change (update s.services s.serviceCount _ s.serviceCount).isSome = true
  rw [update_self]
  rfl

/-- A service other than the one of `init` is destroyed, or `serviceInstance`
is set in the same step. -/
theorem Registered.destroy (h : Registered s additions) (b : Nat) (service : LogService)
    (other : Option Nat) (hother : ∀ b', other = some b' → b' ≠ b ∧ s.serviceInstance = other) :
    Registered { s.destroy b service with serviceInstance := other } additions := by
  refine h.keeps le_rfl le_rfl rfl (fun b' service' hs' => ?_) fun b' hb' => ?_
  · have hs' : update s.services b none b' = some service' := hs'
    by_cases hb : b' = b
    · subst hb
      rw [update_self] at hs'
      cases hs'
    · rw [update_of_ne hb] at hs'
      exact ⟨h.counted b' service' hs', .inl ⟨service', hs', rfl⟩⟩
  · obtain ⟨hb, hsame⟩ := hother b' hb'
    change (update s.services b none b').isSome = true
    rw [update_of_ne hb]
    exact h.existing b' (hsame.trans hb')

theorem Registered.init (h : Registered s additions) (queueSize : Nat) :
    Registered (s.init queueSize) additions := by
  unfold Services.init
  split
  · next b service _ => exact (h.destroy b service none nofun).created queueSize
  · exact h.created queueSize

/-- A later addition is the first one of a name only if there was none.
Another service's loggers do not count. -/
theorem firstAdded_append (a : Addition) (b : Nat) (name : String) :
    firstAdded (additions ++ [a]) b name = (firstAdded additions b name).or
      (if a.service = b ∧ a.name = name then some a.logger else none) := by
  unfold firstAdded
  rw [List.find?_append, Option.map_or, List.find?_singleton]
  by_cases ha : a.service = b ∧ a.name = name <;> simp [ha]

/-- A logger added under a new name is found from then on, and one under a
name that is taken changes nothing. -/
theorem Registered.addLogger (h : Registered s additions) (hs : s.services b = some service)
    (name : String) (overflowStrategy : OverflowStrategy) :
    Registered (s.addLogger b service name overflowStrategy)
      (additions ++ [⟨b, name, s.loggerCount⟩]) := by
  have hnumbered (a : Addition) (ha : a ∈ additions ++ [⟨b, name, s.loggerCount⟩]) :
      a.service < s.serviceCount ∧ a.logger < s.loggerCount + 1 := by
    rcases List.mem_append.mp ha with ha | ha
    · exact ⟨(h.numbered a ha).1, (h.numbered a ha).2.trans (Nat.lt_succ_self _)⟩
    · cases List.mem_singleton.mp ha
      exact ⟨h.counted b service hs, Nat.lt_succ_self _⟩
  unfold Services.addLogger
  rw [contains_keys_eq]
  split
  · next htaken =>
      -- the first logger of this name stays the first
      refine ⟨h.counted, hnumbered, fun b' service' hs' name' => ?_, h.connected, h.existing⟩
      rw [h.lookup b' service' hs' name', firstAdded_append]
      by_cases hsame : b = b' ∧ name = name'
      · obtain ⟨rfl, rfl⟩ := hsame
        rw [h.lookup b service hs name] at htaken
        obtain ⟨l, hl⟩ := Option.isSome_iff_exists.mp htaken
        rw [hl, Option.some_or]
      · rw [if_neg hsame, Option.or_none]
  · next hfree =>
      have hnone : firstAdded additions b name = none := by
        rw [← h.lookup b service hs name]
        exact Option.not_isSome_iff_eq_none.mp hfree
      have hother (b' : Nat) (service' : LogService) (hb : b' ≠ b)
          (hs' : update s.services b (some { service with
            loggers := (name, s.loggerCount) :: service.loggers }) b' = some service') :
          s.services b' = some service' := by rwa [update_of_ne hb] at hs'
      refine ⟨fun b' service' hs' => ?_, hnumbered, fun b' service' hs' name' => ?_,
        fun b' service' name' l hs' hl => ?_, fun b' hb' => ?_⟩
      · by_cases hb : b' = b
        · rw [hb]
          exact h.counted b service hs
        · exact h.counted b' service' (hother b' service' hb hs')
      · rw [firstAdded_append]
        by_cases hb : b' = b
        · subst hb
          have hs' : update s.services b' (some _) b' = some service' := hs'
          rw [update_self] at hs'
          cases hs'
          rw [List.lookup_cons]
          by_cases hname : name' = name
          · subst hname
            simp [hnone]
          · have hne : ¬ (b' = b' ∧ name = name') := fun heq => hname heq.2.symm
            rw [if_neg hne, Option.or_none, beq_eq_false_iff_ne.mpr hname]
            exact h.lookup b' service hs name'
        · rw [if_neg fun heq => hb heq.1.symm, Option.or_none]
          exact h.lookup b' service' (hother b' service' hb hs') name'
      · change (update s.loggers s.loggerCount _ l).output = some b'
        by_cases hb : b' = b
        · subst hb
          have hs' : update s.services b' (some _) b' = some service' := hs'
          rw [update_self] at hs'
          cases hs'
          rw [List.lookup_cons] at hl
          split at hl
          · cases hl
            rw [update_self]
          · rw [update_of_ne (h.logger_lt hs hl).ne]
            exact h.connected b' service name' l hs hl
        · have hs'' := hother b' service' hb hs'
          rw [update_of_ne (h.logger_lt hs'' hl).ne]
          exact h.connected b' service' name' l hs'' hl
      · change (update s.services b (some _) b').isSome = true
        by_cases hb : b' = b
        · rw [hb, update_self]
          rfl
        · rw [update_of_ne hb]
          exact h.existing b' hb'

end Basic

section Run

variable {τ : Type*} [DecidableEq τ] {s s' : Services τ} {additions : List Addition} {t : τ}

theorem Registered.log (h : Registered s additions) (logger b : Nat) (service : LogService) :
    Registered (s.log t logger b service) additions := by
  unfold Services.log
  split <;> exact h.unseen rfl rfl rfl rfl rfl

theorem Registered.step (h : Registered s additions) (hnext : s.step t = some s') :
    Registered s' additions := by
  unfold Services.step at hnext
  split at hnext
  · cases hnext
  · next logger c _ =>
      obtain ⟨⟨b, service⟩, howner, rfl⟩ := Option.map_eq_some_iff.mp hnext
      unfold Services.register
      split
      · exact h.setService (owner_eq_some howner).2.1 rfl rfl rfl rfl rfl rfl
      · exact h
  · split at hnext <;> cases hnext
    unfold Services.push
    split
    · exact h.unseen rfl rfl rfl rfl rfl
    · split
      · exact h.unseen rfl rfl rfl rfl rfl
      · split
        · exact h
        · exact h.unseen rfl rfl rfl rfl rfl
  · obtain ⟨⟨b, service⟩, howner, rfl⟩ := Option.map_eq_some_iff.mp hnext
    exact h.setService (owner_eq_some howner).2.1 rfl rfl rfl rfl rfl rfl

/-- Every step keeps the first logger of each name. Only `add_logger` adds
one, and only under a name that is free. -/
theorem Registered.next {command : Command τ} (h : Registered s additions)
    (hnext : s.next command = some s') : Registered s' (added additions s command s') := by
  cases command with
  | create queueSize =>
      cases hnext
      exact h.create queueSize
  | destroy b =>
      simp only [Services.next] at hnext
      split at hnext
      · cases hnext
      · next hb =>
          obtain ⟨service, -, rfl⟩ := Option.map_eq_some_iff.mp hnext
          refine h.destroy b service _ fun b' hb' => ⟨fun heq => hb ?_, rfl⟩
          rw [← heq]
          exact hb'
  | init queueSize =>
      cases hnext
      exact h.init queueSize
  | addLogger b name overflowStrategy =>
      obtain ⟨service, hs, rfl⟩ := Option.map_eq_some_iff.mp hnext
      exact h.addLogger hs name overflowStrategy
  | log t logger =>
      simp only [Services.next] at hnext
      split at hnext <;> cases hnext
      exact h.log logger _ _
  | step t => exact h.step hnext
  | collect b =>
      obtain ⟨service, hs, rfl⟩ := Option.map_eq_some_iff.mp hnext
      exact h.setService hs rfl rfl rfl rfl rfl rfl
  | consume b index =>
      obtain ⟨service, -, rfl⟩ := Option.map_eq_some_iff.mp hnext
      unfold Services.consume
      split
      · exact h
      · exact h.unseen rfl rfl rfl rfl rfl

end Run

end Services

variable {τ : Type*} [DecidableEq τ]

variable (τ) in
/-- The services with the loggers that have been added. -/
def registry : System (Services τ × List Addition) (Command τ) :=
  (logging τ).observed [] Services.added

/-- `add_logger` accepts the first logger of each name, and `get` of an
existing service finds it from then on, connected to that service;
`logging::logger` is `get` of the service `init` has created last. -/
theorem get_first_added {p : Services τ × List Addition} {commands : List (Command τ)}
    (hrun : (registry τ).Run Free commands p) :
    (∀ b service, p.1.services b = some service → ∀ name,
      service.accepts name = (firstAdded p.2 b name).isNone ∧
      service.get name = found name (firstAdded p.2 b name) ∧
      ∀ logger, firstAdded p.2 b name = some logger → p.1.output logger = some b) ∧
    ∀ name, p.1.logger name = match p.1.serviceInstance with
      | some b => (found name (firstAdded p.2 b name)).map some
      | none => .ok none := by
  have h : p.1.Registered p.2 := by
    refine hrun.invariant (I := fun p => p.1.Registered p.2) ?_ fun p l p' h _ hnext => ?_
    · rintro ⟨s, additions⟩ ⟨rfl, rfl⟩
      exact ⟨nofun, nofun, nofun, nofun, nofun⟩
    · obtain ⟨hstep, hadded⟩ := observed_next.mp hnext
      rw [← hadded]
      exact h.next hstep
  refine ⟨fun b service hs name => ⟨?_, ?_, fun logger hl => ?_⟩, fun name => ?_⟩
  · rw [LogService.accepts, contains_keys_eq, h.lookup b service hs name]
    cases firstAdded p.2 b name <;> rfl
  · rw [LogService.get, h.lookup b service hs name]
  · exact h.connected b service name logger hs (by rw [h.lookup b service hs name, hl])
  · unfold Services.logger
    cases hb : p.1.serviceInstance with
    | none => rfl
    | some b =>
        obtain ⟨service, hs⟩ := Option.isSome_iff_exists.mp (h.existing b hb)
        simp only [Option.bind_some, hs, LogService.get, h.lookup b service hs name]

/-- Two loggers of one name, and a second service with a logger of that name. -/
def twiceNamed : List (Command Unit) :=
  [.init 2, .addLogger 0 "console" .retry, .addLogger 0 "console" .dropMessage, .create 2,
    .addLogger 1 "console" .retry, .addLogger 0 "file" .retry]

def twiceNamedState : Services Unit × List Addition :=
  ((registry Unit).exec Free (Services.initial, []) twiceNamed).get (by decide +kernel)

theorem get_first_added_twiceNamed :
    twiceNamedState.1.logger "console" = .ok (some 0) ∧
      twiceNamedState.1.logger "null" = .error ⟨"Logger \"null\" not found"⟩ := by
  have hinit : (registry Unit).init (Services.initial, []) := ⟨rfl, rfl⟩
  have hrun : (registry Unit).Run Free twiceNamed twiceNamedState := run_of_exec hinit _
  have hinstance : twiceNamedState.1.serviceInstance = some 0 := by decide +kernel
  have hlogger := (get_first_added hrun).2
  rw [hinstance] at hlogger
  constructor
  · rw [hlogger "console"]
    decide +kernel
  · rw [hlogger "null"]
    decide +kernel

end Libni.Logging
