import Mathlib.Algebra.GroupWithZero.Nat
import Mathlib.Data.Option.Basic
import Mathlib.Data.List.Basic

/-!
Labelled transition systems whose labels resolve every choice, so that the
next state is a partial function of the state and the label. A run is a list
of labels accepted from an initial state; a guarded run also meets a condition
on the state before each of its steps. The induction rules below are the only
place where a run is taken apart: everything proved about all runs of a program
goes through one of them.
-/

namespace Libni.Transition

/-- A transition system as a partial function of state and label. A label
names the actor and resolves every choice of the environment, so that a step
is determined by its label. -/
structure System (σ ℓ : Type*) where
  init : σ → Prop
  next : σ → ℓ → Option σ

namespace System

variable {σ ℓ : Type*} (sys : System σ ℓ)

/-- No condition on the steps of a run. A guarded result that is stated with
it holds of every run of the system. -/
def Free : σ → ℓ → Prop := fun _ _ => True

instance (s : σ) (l : ℓ) : Decidable (Free s l) := inferInstanceAs (Decidable True)

/-- Executes a list of labels, failing at the first one that is not enabled or
does not meet the guard. This is the computable side of `Steps`, by which
concrete runs are evaluated. -/
def exec (guard : σ → ℓ → Prop) [∀ s l, Decidable (guard s l)] : σ → List ℓ → Option σ
  | s, [] => some s
  | s, l :: ls => if guard s l then (sys.next s l).bind fun s' => exec guard s' ls else none

/-- The steps from `s` that end in a state `t`, each meeting `guard` in the
state it is taken from. The last step is on the outside, so that an induction
goes from a state to the next one. -/
inductive Steps (guard : σ → ℓ → Prop) (s : σ) : List ℓ → σ → Prop
  | refl : Steps guard s [] s
  | snoc {ls : List ℓ} {t u : σ} {l : ℓ} :
      Steps guard s ls t → guard t l → sys.next t l = some u →
      Steps guard s (ls ++ [l]) u

/-- A guarded run from some initial state. The guard is looked at in the state
before each step. -/
def Run (guard : σ → ℓ → Prop) (ls : List ℓ) (t : σ) : Prop :=
  ∃ s, sys.init s ∧ sys.Steps guard s ls t

/-- The states some guarded run ends in. The guard has been met at every step
on the way, not only at the last one. -/
def Reach (guard : σ → ℓ → Prop) (t : σ) : Prop :=
  ∃ ls, sys.Run guard ls t

/-- Steps from `s` to `t` through a state that satisfies `P`. It places an
instant inside an interval, such as the moment between a call and its return
at which an answer was right. -/
def Through (guard : σ → ℓ → Prop) (P : σ → Prop) (s : σ) (ls : List ℓ) (t : σ) : Prop :=
  ∃ ms ns u, ls = ms ++ ns ∧ sys.Steps guard s ms u ∧ P u ∧ sys.Steps guard u ns t

variable {sys} {guard : σ → ℓ → Prop}

/-- What one guarded step preserves, a whole sequence of them preserves. The
step lemma may use the guard, which is how conditions on a schedule enter an
invariant. -/
theorem Steps.preserves {I : σ → Prop} {s t : σ} {ls : List ℓ}
    (h : sys.Steps guard s ls t) (hs : I s)
    (hstep : ∀ u l v, I u → guard u l → sys.next u l = some v → I v) : I t := by
  induction h with
  | refl => exact hs
  | snoc _ hguard hnext ih => exact hstep _ _ _ ih hguard hnext

/-- The induction rule for runs: what holds initially and is kept by every
guarded step holds in the state a run ends in, hence in every state on its
way. -/
theorem Run.invariant {I : σ → Prop} {t : σ} {ls : List ℓ}
    (h : sys.Run guard ls t) (hinit : ∀ s, sys.init s → I s)
    (hstep : ∀ u l v, I u → guard u l → sys.next u l = some v → I v) : I t := by
  obtain ⟨s, hs, hsteps⟩ := h
  exact hsteps.preserves (hinit s hs) hstep

/-- An invariant may also speak of the labels so far. It then relates the
state to the history of calls and returns that the labels show. -/
theorem Run.invariant_labels {I : List ℓ → σ → Prop} {t : σ} {ls : List ℓ}
    (h : sys.Run guard ls t) (hinit : ∀ s, sys.init s → I [] s)
    (hstep : ∀ ms u l v, I ms u → guard u l → sys.next u l = some v → I (ms ++ [l]) v) :
    I ls t := by
  obtain ⟨s, hs, hsteps⟩ := h
  induction hsteps with
  | refl => exact hinit s hs
  | snoc _ hguard hnext ih => exact hstep _ _ _ _ ih hguard hnext

theorem Reach.invariant {I : σ → Prop} {t : σ}
    (h : sys.Reach guard t) (hinit : ∀ s, sys.init s → I s)
    (hstep : ∀ u l v, I u → guard u l → sys.next u l = some v → I v) : I t := by
  obtain ⟨ls, hrun⟩ := h
  exact hrun.invariant hinit hstep

theorem Reach.of_init {s : σ} (h : sys.init s) : sys.Reach guard s :=
  ⟨[], s, h, .refl⟩

theorem Reach.step {s t : σ} {l : ℓ} (h : sys.Reach guard s)
    (hguard : guard s l) (hnext : sys.next s l = some t) : sys.Reach guard t := by
  obtain ⟨ls, s₀, hinit, hsteps⟩ := h
  exact ⟨ls ++ [l], s₀, hinit, hsteps.snoc hguard hnext⟩

/-- Two sequences of steps under one guard make one. -/
theorem Steps.trans {s t u : σ} {ls ms : List ℓ} (h : sys.Steps guard s ls t)
    (h' : sys.Steps guard t ms u) : sys.Steps guard s (ls ++ ms) u := by
  induction h' with
  | refl => simpa using h
  | snoc _ hguard hnext ih =>
      rw [← List.append_assoc]
      exact ih.snoc hguard hnext

theorem Reach.trans {s t : σ} {ls : List ℓ} (h : sys.Reach guard s)
    (hsteps : sys.Steps guard s ls t) : sys.Reach guard t := by
  obtain ⟨ms, s₀, hinit, hfirst⟩ := h
  exact ⟨ms ++ ls, s₀, hinit, hfirst.trans hsteps⟩

theorem Through.now {P : σ → Prop} {s t : σ} {ls : List ℓ} (h : sys.Steps guard s ls t)
    (ht : P t) : sys.Through guard P s ls t :=
  ⟨ls, [], t, by simp, h, ht, .refl⟩

/-- The next step goes through the same state, of which more may be known. The
interval that an operation spans thus grows with the run while the instant
found in it stays. -/
theorem Through.snoc {P Q : σ → Prop} {s t u : σ} {ls : List ℓ} {l : ℓ}
    (h : sys.Through guard P s ls t) (hguard : guard t l) (hnext : sys.next t l = some u)
    (hPQ : ∀ v, P v → Q v) : sys.Through guard Q s (ls ++ [l]) u := by
  obtain ⟨ms, ns, v, rfl, hfirst, hv, hrest⟩ := h
  exact ⟨ms, ns ++ [l], v, by simp, hfirst, hPQ v hv, hrest.snoc hguard hnext⟩

/-- A quantity that every step changes by at most one takes all values between
its first and its last one. An answer between two values of a counter has
therefore been right at some instant. -/
theorem Steps.attains {I : σ → Prop} {f : σ → Nat} {s t : σ} {ls : List ℓ} {n : Nat}
    (h : sys.Steps guard s ls t) (hs : I s)
    (hstep : ∀ u l v, I u → guard u l → sys.next u l = some v →
      I v ∧ f v ≤ f u + 1 ∧ f u ≤ f v + 1)
    (hn : f s ≤ n ∧ n ≤ f t ∨ f t ≤ n ∧ n ≤ f s) :
    sys.Through guard (fun u => f u = n) s ls t := by
  induction h with
  | refl => exact .now .refl (by omega)
  | @snoc ls u v l hsteps hguard hnext ih =>
      have hu : I u :=
        hsteps.preserves hs fun _ _ _ hI hg hx => (hstep _ _ _ hI hg hx).1
      obtain ⟨_, hup, hdown⟩ := hstep u l v hu hguard hnext
      by_cases hlast : f v = n
      · exact .now (hsteps.snoc hguard hnext) hlast
      · exact (ih (by omega)).snoc hguard hnext fun _ hv => hv

/-- A guard may be exchanged for one that follows from it in every state that
satisfies an invariant of the runs under the new guard. So a result under a
weak condition applies to runs under one that is easier to state. -/
theorem Steps.strengthen {guard' : σ → ℓ → Prop} {I : σ → Prop} {s t : σ}
    {ls : List ℓ} (h : sys.Steps guard s ls t) (hs : I s)
    (hguard : ∀ u l, I u → guard u l → guard' u l)
    (hstep : ∀ u l v, I u → guard' u l → sys.next u l = some v → I v) :
    sys.Steps guard' s ls t ∧ I t := by
  induction h with
  | refl => exact ⟨.refl, hs⟩
  | snoc _ hg hnext ih =>
      have hg' := hguard _ _ ih.2 hg
      exact ⟨ih.1.snoc hg' hnext, hstep _ _ _ ih.2 hg' hnext⟩

theorem Run.strengthen {guard' : σ → ℓ → Prop} {I : σ → Prop} {t : σ}
    {ls : List ℓ} (h : sys.Run guard ls t) (hinit : ∀ s, sys.init s → I s)
    (hguard : ∀ u l, I u → guard u l → guard' u l)
    (hstep : ∀ u l v, I u → guard' u l → sys.next u l = some v → I v) :
    sys.Run guard' ls t := by
  obtain ⟨s, hs, hsteps⟩ := h
  exact ⟨s, hs, (hsteps.strengthen (hinit s hs) hguard hstep).1⟩

/-- An execution in two parts, the second from where the first has ended. -/
theorem exec_append [∀ s l, Decidable (guard s l)] (s : σ) (ls ms : List ℓ) :
    sys.exec guard s (ls ++ ms) = (sys.exec guard s ls).bind fun t => sys.exec guard t ms := by
  induction ls generalizing s with
  | nil => rfl
  | cons l ls ih =>
      simp only [List.cons_append, exec]
      split
      · cases sys.next s l with
        | none => rfl
        | some u => exact ih u
      · rfl

theorem exec_cons [∀ s l, Decidable (guard s l)] {s t : σ} {l : ℓ} (hguard : guard s l)
    (hnext : sys.next s l = some t) (ls : List ℓ) :
    sys.exec guard s (l :: ls) = sys.exec guard t ls := by
  rw [exec, if_pos hguard, hnext, Option.bind_some]

/-- Concrete executions have up to three threads or queues, numbered in `Fin
1` to `Fin 3`; their numerals need this instance and the two below. -/
instance one_neZero : NeZero 1 := ⟨Nat.succ_ne_zero 0⟩

instance two_neZero : NeZero 2 := ⟨Nat.succ_ne_zero 1⟩

instance three_neZero : NeZero 3 := ⟨Nat.succ_ne_zero 2⟩

/-- An executed list of labels is a guarded sequence of steps, so a concrete
execution can be evaluated and then used as a run. -/
theorem steps_of_exec [∀ s l, Decidable (guard s l)] {s t : σ} {ls : List ℓ}
    (h : sys.exec guard s ls = some t) : sys.Steps guard s ls t := by
  induction ls generalizing s with
  | nil =>
      simp only [exec, Option.some.injEq] at h
      subst h
      exact .refl
  | cons l ls ih =>
      simp only [exec] at h
      split at h
      · next hguard =>
          obtain ⟨u, hnext, hrest⟩ := Option.bind_eq_some_iff.mp h
          have hfirst : sys.Steps guard s [l] u := Steps.snoc .refl hguard hnext
          simpa using hfirst.trans (ih hrest)
      · cases h

/-- Conversely a sequence of steps is what its labels execute to, since a
label leaves nothing open. -/
theorem Steps.exec_eq [∀ s l, Decidable (guard s l)] {s t : σ} {ls : List ℓ}
    (h : sys.Steps guard s ls t) : sys.exec guard s ls = some t := by
  induction h with
  | refl => rfl
  | snoc _ hguard hnext ih =>
      rw [exec_append, ih, Option.bind_some, exec, if_pos hguard, hnext, Option.bind_some, exec]

theorem run_of_exec [∀ s l, Decidable (guard s l)] {s : σ} {ls : List ℓ}
    (hinit : sys.init s) (h : (sys.exec guard s ls).isSome = true) :
    sys.Run guard ls ((sys.exec guard s ls).get h) :=
  ⟨s, hinit, steps_of_exec (Option.some_get h).symm⟩

/-- Steps are determined by their labels: two ways to the same state are one.
A state that was passed somewhere in a longer sequence lies in its first or in
its second part. -/
theorem Through.split [∀ s l, Decidable (guard s l)] {P : σ → Prop} {s t u : σ}
    {ls ms : List ℓ} (h : sys.Through guard P s (ls ++ ms) u)
    (hfirst : sys.Steps guard s ls t) : sys.Through guard P s ls t ∨ sys.Through guard P t ms u := by
  obtain ⟨pre, post, v, heq, hpre, hv, hpost⟩ := h
  rcases List.append_eq_append_iff.mp heq with ⟨rest, rfl, rfl⟩ | ⟨rest, rfl, rfl⟩
  · refine .inr ⟨rest, post, v, rfl, steps_of_exec ?_, hv, hpost⟩
    have hexec := hpre.exec_eq
    rwa [exec_append, hfirst.exec_eq, Option.bind_some] at hexec
  · refine .inl ⟨pre, rest, v, rfl, hpre, hv, steps_of_exec ?_⟩
    have hexec := hfirst.exec_eq
    rwa [exec_append, hpre.exec_eq, Option.bind_some] at hexec

section Observed

variable {η : Type*}

/-- The system with an observation beside its state, which every step may
extend and none can consult. History variables are added in this way without
touching the program. -/
def observed (sys : System σ ℓ) (start : η) (see : η → σ → ℓ → σ → η) : System (σ × η) ℓ where
  init p := sys.init p.1 ∧ p.2 = start
  next p l := (sys.next p.1 l).map fun s => (s, see p.2 p.1 l s)

variable {start : η} {see : η → σ → ℓ → σ → η} {p p' : σ × η} {l : ℓ} {ls : List ℓ}

/-- A step of the observed system is a step of the system, with the
observation it makes. -/
theorem observed_next : (sys.observed start see).next p l = some p' ↔
    sys.next p.1 l = some p'.1 ∧ see p.2 p.1 l p'.1 = p'.2 := by
  simp only [observed, Option.map_eq_some_iff, Prod.ext_iff]
  constructor
  · rintro ⟨s, hnext, rfl, hsee⟩
    exact ⟨hnext, hsee⟩
  · rintro ⟨hnext, hsee⟩
    exact ⟨p'.1, hnext, rfl, hsee⟩

end Observed

end System

end Libni.Transition
