import Libni.Logging.Model

/-!
The loop of `MessageBus::wait` over any sequence of outcomes of the system call.
`Futex::wait` returns a `bool` that is true on success; the loop stores it in an
`int` and tests it as an error code, so what it does depends on what `errno` was
left at before.
-/

namespace Libni.Logging

/-- What the system call returns: 0, or -1 with `errno` set. -/
inductive Outcome where
  | success
  | failure (errno : Errno)
  deriving DecidableEq

def Outcome.rv : Outcome → Int
  | .success => 0
  | .failure _ => -1

/-- `errno` after the call, which a success leaves as it was. -/
def Outcome.errno (errno : Errno) : Outcome → Errno
  | .success => errno
  | .failure e => e

def Outcome.Interrupted (o : Outcome) : Prop := o = .failure .intr

instance (o : Outcome) : Decidable o.Interrupted :=
  inferInstanceAs (Decidable (o = .failure .intr))

/-- The result of `Futex::wait` and `errno` after it. -/
def futexWait (errno : Errno) (o : Outcome) : Bool × Errno :=
  (decide (o.rv = 0) || decide (o.errno errno = .wouldBlock), o.errno errno)

/-- The loop of `wait` after a number of calls: the number of calls when it
ends. Its `rv` is the `bool` turned into an `int`, so that 0 stands for a
failure. -/
def waitLoop (outcomes : Nat → Outcome) : (fuel calls : Nat) → Errno → Option Nat
  | 0, _, _ => none
  | fuel + 1, calls, errno =>
      let (rv, errno) := futexWait errno (outcomes calls)
      if rv.toNat ≠ 0 ∧ errno = .intr then waitLoop outcomes fuel (calls + 1) errno
      else some (calls + 1)

def WaitReturns (outcomes : Nat → Outcome) (errno : Errno) (calls : Nat) : Prop :=
  ∃ fuel, waitLoop outcomes fuel 0 errno = some calls

section Wait

variable {outcomes : Nat → Outcome} {errno : Errno} {fuel calls n : Nat}

/-- The loop goes on only after a success that finds an old `EINTR`. -/
theorem futexWait_again_iff (o : Outcome) :
    ((futexWait errno o).1.toNat ≠ 0 ∧ (futexWait errno o).2 = .intr) ↔
      o = .success ∧ errno = .intr := by
  cases o with
  | success => simp [futexWait, Outcome.rv, Outcome.errno]
  | failure e => cases e <;> simp [futexWait, Outcome.rv, Outcome.errno]

theorem waitLoop_again (hsuccess : outcomes calls = .success) (hintr : errno = .intr) :
    waitLoop outcomes (fuel + 1) calls errno = waitLoop outcomes fuel (calls + 1) errno := by
  have hagain : _ ∧ (futexWait errno (outcomes calls)).2 = .intr :=
    (futexWait_again_iff _).mpr ⟨hsuccess, hintr⟩
  simp only [waitLoop]
  rw [if_pos hagain, hagain.2, hintr]

theorem waitLoop_return (h : ¬ (outcomes calls = .success ∧ errno = .intr)) :
    waitLoop outcomes (fuel + 1) calls errno = some (calls + 1) := by
  simp only [waitLoop]
  rw [if_neg (mt (futexWait_again_iff _).mp h)]

/-- The loop goes on after each of the next `n` calls and not after the one
that follows. -/
def GoesOn (outcomes : Nat → Outcome) (errno : Errno) (calls n : Nat) : Prop :=
  (∀ i < n, outcomes (calls + i) = .success ∧ errno = .intr) ∧
    ¬ (outcomes (calls + n) = .success ∧ errno = .intr)

theorem GoesOn.succ_iff (h : outcomes calls = .success ∧ errno = .intr) :
    GoesOn outcomes errno calls (n + 1) ↔ GoesOn outcomes errno (calls + 1) n := by
  have hshift : ∀ i, calls + (i + 1) = calls + 1 + i := fun i => by omega
  constructor
  · rintro ⟨hbefore, hlast⟩
    refine ⟨fun i hi => ?_, hshift n ▸ hlast⟩
    rw [← hshift]
    exact hbefore (i + 1) (by omega)
  · rintro ⟨hbefore, hlast⟩
    refine ⟨fun i hi => ?_, (hshift n).symm ▸ hlast⟩
    cases i with
    | zero => exact h
    | succ i =>
        rw [hshift]
        exact hbefore i (by omega)

/-- `errno` keeps its value through the calls after which the loop goes on. -/
theorem waitLoop_goesOn {m : Nat} (h : waitLoop outcomes fuel calls errno = some m) :
    ∃ n, m = calls + n + 1 ∧ GoesOn outcomes errno calls n := by
  induction fuel generalizing calls with
  | zero => cases h
  | succ fuel ih =>
      by_cases hagain : outcomes calls = .success ∧ errno = .intr
      · rw [waitLoop_again hagain.1 hagain.2] at h
        obtain ⟨n, rfl, hn⟩ := ih h
        exact ⟨n + 1, by omega, (GoesOn.succ_iff hagain).mpr hn⟩
      · rw [waitLoop_return hagain, Option.some.injEq] at h
        exact ⟨0, h.symm, fun i hi => absurd hi (Nat.not_lt_zero i), hagain⟩

theorem GoesOn.waitLoop_eq (h : GoesOn outcomes errno calls n) :
    waitLoop outcomes (n + 1) calls errno = some (calls + n + 1) := by
  induction n generalizing calls with
  | zero => exact waitLoop_return h.2
  | succ n ih =>
      have hagain : outcomes calls = .success ∧ errno = .intr := h.1 0 (Nat.zero_lt_succ n)
      rw [waitLoop_again hagain.1 hagain.2, ih ((GoesOn.succ_iff hagain).mp h)]
      congr 1
      omega

/-- When `wait` returns: it calls again after successes only, and only as long
as `errno` has been left at `EINTR` by something before. -/
theorem waitReturns_iff :
    WaitReturns outcomes errno calls ↔ ∃ n, calls = n + 1 ∧ GoesOn outcomes errno 0 n := by
  constructor
  · rintro ⟨fuel, h⟩
    obtain ⟨n, rfl, hn⟩ := waitLoop_goesOn h
    exact ⟨n, by omega, hn⟩
  · rintro ⟨n, rfl, hn⟩
    exact ⟨n + 1, hn.waitLoop_eq.trans (by congr 1; omega)⟩

/-- The futex is called again after each interruption, and `wait` returns at
the first outcome that is none. -/
def RetriesOnInterruption (outcomes : Nat → Outcome) (errno : Errno) : Prop :=
  ∀ calls, WaitReturns outcomes errno calls ↔
    ∃ n, calls = n + 1 ∧ (∀ i < n, (outcomes i).Interrupted) ∧ ¬ (outcomes n).Interrupted

/-- The loop does what it is meant to do exactly if the first call is not
interrupted and is no success that finds an old `EINTR`: then it ends after
that call, as it should. After an interruption it never calls the futex again,
since `Futex::wait` has returned false and the loop takes that for 0. -/
theorem retriesOnInterruption_iff (outcomes : Nat → Outcome) (errno : Errno) :
    RetriesOnInterruption outcomes errno ↔
      ¬ (outcomes 0).Interrupted ∧ (outcomes 0 = .success → errno ≠ .intr) := by
  constructor
  · intro h
    have hfirst : ¬ (outcomes 0).Interrupted := by
      intro hintr
      have hreturns : WaitReturns outcomes errno 1 := by
        refine ⟨1, waitLoop_return ?_⟩
        rintro ⟨hsuccess, -⟩
        rw [hintr] at hsuccess
        cases hsuccess
      obtain ⟨n, hn, -, hlast⟩ := (h 1).mp hreturns
      obtain rfl : n = 0 := by omega
      exact hlast hintr
    refine ⟨hfirst, fun hsuccess hold => ?_⟩
    -- one call is enough, but an old `EINTR` asks for another
    have hreturns := (h 1).mpr ⟨0, rfl, fun i hi => absurd hi (Nat.not_lt_zero i), hfirst⟩
    obtain ⟨n, hn, hgoes⟩ := waitReturns_iff.mp hreturns
    obtain rfl : n = 0 := by omega
    exact hgoes.2 ⟨hsuccess, hold⟩
  · rintro ⟨hfirst, hold⟩ calls
    rw [waitReturns_iff]
    constructor
    · rintro ⟨n, rfl, hgoes⟩
      cases n with
      | zero => exact ⟨0, rfl, fun i hi => absurd hi (Nat.not_lt_zero i), hfirst⟩
      | succ n =>
          obtain ⟨hsuccess, hintr⟩ := hgoes.1 0 (Nat.zero_lt_succ n)
          exact absurd hintr (hold hsuccess)
    · rintro ⟨n, rfl, hbefore, -⟩
      cases n with
      | zero =>
          refine ⟨0, rfl, fun i hi => absurd hi (Nat.not_lt_zero i), ?_⟩
          rintro ⟨hsuccess, hintr⟩
          exact hold hsuccess hintr
      | succ n => exact absurd (hbefore 0 (Nat.zero_lt_succ n)) hfirst

/-- A signal ends `wait` at once, although the loop is there to call the futex
again. -/
theorem interrupted_wait_returns :
    ¬ RetriesOnInterruption (fun i => if i = 0 then .failure .intr else .success) .other := by
  intro h
  obtain ⟨n, hn, -, hlast⟩ := (h 1).mp ⟨1, rfl⟩
  obtain rfl : n = 0 := by omega
  exact hlast rfl

end Wait

section Service

variable {τ ι : Type*} [DecidableEq τ] [DecidableEq ι] {s s' : Service τ ι}

/-- The worker back from the futex makes the decision of the loop. By this the
loop of the service's model is the one looked at here. -/
theorem Service.work_woken_iff (hworker : s.worker = .woken) (hwork : s.work = some s') :
    s'.worker = .futexWait ↔
      (futexWait s.errno .success).1.toNat ≠ 0 ∧ (futexWait s.errno .success).2 = .intr := by
  rw [futexWait_again_iff]
  simp only [Service.work, hworker, Option.some.injEq] at hwork
  subst hwork
  split
  · next hintr => simp [hintr]
  · next hintr => simp [hintr, Service.again]

end Service

end Libni.Logging
