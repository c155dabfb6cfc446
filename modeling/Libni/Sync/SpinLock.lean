import Libni.Transition.Linearizable
import Libni.Transition.Progress

/-!
`SpinLock`: a flag that `lock` sets with a weak exchange after it has seen it clear.
While it is set, `lock` waits with a `Pause` of its own. Each access of the flag and
each wait is one step.
-/

namespace Libni.Sync

open Function Libni.Transition Libni.Transition.System

/-- What a waiting thread does in a turn of its loop, by which the back-off is
observed. -/
inductive Wait where
  | spin
  | sleep
  deriving DecidableEq

/-- The back-off of a waiting thread: it spins a bounded number of times and
sleeps from then on. -/
structure Pause where
  maxSpins : Nat
  spins : Nat
  deriving DecidableEq

namespace Pause

/-- The constructor. -/
def new (maxSpins : Nat) : Pause := ⟨maxSpins, 0⟩

/-- `operator()`, with what it does to the thread. -/
def wait (p : Pause) : Pause × Wait :=
  if p.spins < p.maxSpins then ({ p with spins := p.spins + 1 }, .spin) else (p, .sleep)

/-- What a pause was asked for so far: spins up to the bound, and then only
sleeps. -/
structure After (ws : List Wait) (p : Pause) : Prop where
  spins : p.spins = min ws.length p.maxSpins
  waits : ws = List.replicate p.spins .spin ++ List.replicate (ws.length - p.maxSpins) .sleep

theorem After.new (maxSpins : Nat) : After [] (new maxSpins) :=
  ⟨(Nat.zero_min _).symm, by simp [Pause.new]⟩

theorem After.wait {ws : List Wait} {p : Pause} (h : After ws p) :
    After (ws ++ [p.wait.2]) p.wait.1 := by
  obtain ⟨hspins, hwaits⟩ := h
  unfold Pause.wait
  split
  · next hlt =>
      have hlen : ws.length < p.maxSpins := by omega
      rw [Nat.sub_eq_zero_of_le hlen.le, List.replicate_zero, List.append_nil] at hwaits
      constructor
      · simp only [List.length_append, List.length_singleton]
        omega
      · have hrest : (ws ++ [Wait.spin]).length - p.maxSpins = 0 := by
          simp only [List.length_append, List.length_singleton]
          omega
        rw [hrest, List.replicate_zero, List.append_nil, List.replicate_succ', ← hwaits]
  · next hge =>
      have hlen : p.maxSpins ≤ ws.length := by omega
      constructor
      · simp only [List.length_append, List.length_singleton]
        omega
      · have hrest : (ws ++ [Wait.sleep]).length - p.maxSpins = ws.length - p.maxSpins + 1 := by
          simp only [List.length_append, List.length_singleton]
          omega
        rw [hrest, List.replicate_succ', ← List.append_assoc, ← hwaits]

end Pause

inductive Op where
  | lock
  | tryLock
  | unlock
  deriving DecidableEq

inductive Res where
  | locked
  | tried (ok : Bool)
  | unlocked
  deriving DecidableEq

/-- The accesses of `lock`: a load, a wait if the flag is set, and the weak
exchange if it is clear. -/
inductive LockPc where
  | load
  | pause
  | exchange
  deriving DecidableEq

inductive Local where
  | idle
  | lock (pc : LockPc) (pause : Pause)
  | tryLock
  | unlock
  | done (result : Res)
  deriving DecidableEq

/-- The flag and the threads. The other fields are history: who set the flag,
which threads were told that they have the lock and have not called `unlock`
since, and what the waits of a thread's latest call were. -/
structure State (τ : Type*) where
  locked : Bool
  threads : τ → Local
  holder : Option τ
  owns : τ → Bool
  waits : τ → List Wait

/-- An exchange that `spurious` makes fail is one of `compare_exchange_weak`. -/
inductive Label (τ : Type*) where
  | call (thread : τ) (op : Op)
  | step (thread : τ) (spurious : Bool)
  | ret (thread : τ) (result : Res)
  deriving DecidableEq

def start : Op → Local
  | .lock => .lock .load (.new 2048)
  | .tryLock => .tryLock
  | .unlock => .unlock

/-- The answers with which a thread gets the lock. -/
def Res.grants : Res → Bool
  | .locked | .tried true => true
  | _ => false

section Step

variable {τ : Type*} [DecidableEq τ]

namespace State

variable (s : State τ)

def goOn (t : τ) (l : Local) : State τ := { s with threads := update s.threads t l }

def acquire (t : τ) (r : Res) : State τ :=
  { s.goOn t (.done r) with locked := true, holder := some t }

def release (t : τ) : State τ :=
  { s.goOn t (.done .unlocked) with locked := false, holder := none }

@[simp] theorem goOn_threads (t : τ) (l : Local) : (s.goOn t l).threads t = l := update_self ..

@[simp] theorem acquire_threads (t : τ) (r : Res) : (s.acquire t r).threads t = .done r :=
  update_self ..

@[simp] theorem release_threads (t : τ) : (s.release t).threads t = .done .unlocked :=
  update_self ..

/-- One access or wait of `lock`. A failed exchange leads back to the load. -/
def lockStep (t : τ) (spurious : Bool) (p : Pause) : LockPc → State τ
  | .load => if s.locked = true then s.goOn t (.lock .pause p) else s.goOn t (.lock .exchange p)
  | .pause => { s.goOn t (.lock .load p.wait.1) with
      waits := update s.waits t (s.waits t ++ [p.wait.2]) }
  | .exchange =>
      if s.locked = false ∧ spurious = false then s.acquire t .locked
      else s.goOn t (.lock .load p)

def step (t : τ) (spurious : Bool) : Local → Option (State τ)
  | .lock pc p => some (s.lockStep t spurious p pc)
  | .tryLock =>
      some (if s.locked = false then s.acquire t (.tried true)
        else s.goOn t (.done (.tried false)))
  | .unlock => some (s.release t)
  | .idle | .done _ => none

def next : Label τ → Option (State τ)
  | .call t op =>
      match s.threads t with
      | .idle => some { s.goOn t (start op) with
          owns := if op = .unlock then update s.owns t false else s.owns
          waits := update s.waits t [] }
      | _ => none
  | .step t spurious => s.step t spurious (s.threads t)
  | .ret t result =>
      match s.threads t with
      | .done r =>
          if r = result then some { s.goOn t .idle with
            owns := if r.grants = true then update s.owns t true else s.owns }
          else none
      | _ => none

end State

/-- A lock that no thread has or waits for. -/
structure Initial (s : State τ) : Prop where
  locked : s.locked = false
  threads : ∀ t, s.threads t = .idle
  holder : s.holder = none
  owns : ∀ t, s.owns t = false
  waits : ∀ t, s.waits t = []

variable (τ) in
def spinLock : System (State τ) (Label τ) where
  init := Initial
  next := State.next

def Label.thread : Label τ → τ
  | .call t _ | .step t _ | .ret t _ => t

/-- Only a thread that was given the lock calls `unlock`, and only once. The
source does not check this. -/
def Disciplined (s : State τ) : Label τ → Prop
  | .call t .unlock => s.owns t = true
  | _ => True

instance (s : State τ) (l : Label τ) : Decidable (Disciplined s l) := by
  unfold Disciplined
  split <;> infer_instance

/-- A thread at `l` has the lock, although its call has not returned yet or
`unlock` has not stored to the flag. -/
def Local.claims : Local → Bool
  | .unlock => true
  | .done r => r.grants
  | _ => false

/-- What thread `t` at `l` has to do with the holder of the lock, and how its
pause follows from its waits. -/
structure Knows (holder : Option τ) (t : τ) (owns : Bool) (waits : List Wait) (l : Local) :
    Prop where
  owner : owns = true → holder = some t
  claims : l.claims = true → holder = some t
  unlocking : l = .unlock → owns = false
  waited : ∀ pc p, l = .lock pc p → p.maxSpins = 2048 ∧ Pause.After waits p

/-- The flag is set exactly while somebody holds the lock, and every thread
knows whether it is the holder. -/
structure Inv (s : State τ) : Prop where
  flag : s.locked = s.holder.isSome
  knows : ∀ t, Knows s.holder t (s.owns t) (s.waits t) (s.threads t)

variable {s s' : State τ} {t : τ}

omit [DecidableEq τ] in
theorem Inv.initial (h : Initial s) : Inv s where
  flag := by rw [h.locked, h.holder]; rfl
  knows t := by
    rw [h.owns, h.threads]
    exact ⟨nofun, nofun, nofun, nofun⟩

omit [DecidableEq τ] in
theorem Inv.free (h : Inv s) (hfree : s.locked = false) : s.holder = none := by
  rw [← Option.isNone_iff_eq_none, ← Option.not_isSome, ← h.flag, hfree]
  rfl

/-- A step of a thread that changes the holder only from none or from itself.
What the other threads know is about themselves, so it stays. -/
theorem Inv.move (h : Inv s) {l : Local} (hthreads : s'.threads = update s.threads t l)
    (hflag : s'.locked = s'.holder.isSome)
    (hothers : ∀ u, u ≠ t → s'.owns u = s.owns u ∧ s'.waits u = s.waits u)
    (hholder : s'.holder = s.holder ∨ s.holder = none ∨ s.holder = some t)
    (hknows : Knows s'.holder t (s'.owns t) (s'.waits t) l) : Inv s' where
  flag := hflag
  knows u := by
    by_cases hut : u = t
    · subst hut
      rwa [hthreads, update_self]
    · have hu := h.knows u
      have hkeep (hold : s.holder = some u) : s'.holder = some u := by
        rcases hholder with heq | hnone | hself
        · rwa [heq]
        · rw [hnone] at hold
          cases hold
        · rw [hself] at hold
          exact absurd (Option.some.inj hold).symm hut
      rw [hthreads, update_of_ne hut, (hothers u hut).1, (hothers u hut).2]
      exact ⟨fun ho => hkeep (hu.owner ho), fun hc => hkeep (hu.claims hc), hu.unlocking, hu.waited⟩

theorem Inv.acquire (h : Inv s) (hfree : s.locked = false) (r : Res) : Inv (s.acquire t r) :=
  h.move rfl rfl (fun _ _ => ⟨rfl, rfl⟩) (.inr (.inl (h.free hfree)))
    ⟨fun _ => rfl, fun _ => rfl, nofun, nofun⟩

theorem Inv.goOn (h : Inv s) {l : Local} (hl : l.claims = false)
    (hwaits : ∀ pc p, l = .lock pc p → p.maxSpins = 2048 ∧ Pause.After (s.waits t) p) :
    Inv (s.goOn t l) := by
  refine h.move rfl h.flag (fun _ _ => ⟨rfl, rfl⟩) (.inl rfl)
    ⟨(h.knows t).owner, fun hc => ?_, fun heq => ?_, hwaits⟩
  · rw [hl] at hc
    cases hc
  · rw [heq] at hl
    cases hl

/-- The accesses of `lock`. An exchange that succeeds has found the flag
clear, hence nobody holding the lock. -/
theorem Inv.lockStep (h : Inv s) {spurious : Bool} {pc : LockPc} {p : Pause}
    (ht : s.threads t = .lock pc p) : Inv (s.lockStep t spurious p pc) := by
  have hp := (h.knows t).waited pc p ht
  have hsame {pc' : LockPc} (pc₁ : LockPc) (p₁ : Pause) (heq : Local.lock pc' p = .lock pc₁ p₁) :
      p₁.maxSpins = 2048 ∧ Pause.After (s.waits t) p₁ := by
    cases heq
    exact hp
  cases pc with
  | load =>
      simp only [State.lockStep]
      split
      · exact h.goOn rfl hsame
      · exact h.goOn rfl hsame
  | pause =>
      refine h.move rfl h.flag (fun u hu => ⟨rfl, update_of_ne hu _ _⟩) (.inl rfl)
        ⟨(h.knows t).owner, nofun, nofun, fun pc₁ p₁ heq => ?_⟩
      cases heq
      refine ⟨?_, ?_⟩
      · rw [Pause.wait]
        split <;> exact hp.1
      · simpa only [State.lockStep, update_self] using hp.2.wait
  | exchange =>
      simp only [State.lockStep]
      split
      · next hcas => exact h.acquire hcas.1 _
      · exact h.goOn rfl hsame

theorem Inv.step (h : Inv s) {spurious : Bool} (hnext : s.step t spurious (s.threads t) = some s') :
    Inv s' := by
  cases hl : s.threads t with
  | idle | done =>
      rw [hl] at hnext
      cases hnext
  | lock pc p =>
      rw [hl] at hnext
      cases hnext
      exact h.lockStep hl
  | tryLock =>
      rw [hl] at hnext
      cases hnext
      split
      · next hfree => exact h.acquire hfree _
      · exact h.goOn rfl nofun
  | unlock =>
      rw [hl] at hnext
      cases hnext
      refine h.move rfl rfl (fun _ _ => ⟨rfl, rfl⟩) (.inr (.inr ((h.knows t).claims (by rw [hl]; rfl))))
        ⟨fun ho => ?_, nofun, nofun, nofun⟩
      have hnot : s.owns t = false := (h.knows t).unlocking hl
      rw [show (s.release t).owns t = s.owns t from rfl, hnot] at ho
      cases ho

theorem Inv.next {l : Label τ} (h : Inv s) (hguard : Disciplined s l)
    (hnext : s.next l = some s') : Inv s' := by
  cases l with
  | call t op =>
      simp only [State.next] at hnext
      split at hnext <;> cases hnext
      have hothers (u : τ) (hu : u ≠ t) :
          (if op = .unlock then update s.owns t false else s.owns) u = s.owns u ∧
            update s.waits t [] u = s.waits u := by
        refine ⟨?_, update_of_ne hu _ _⟩
        split
        · exact update_of_ne hu _ _
        · rfl
      refine h.move rfl h.flag hothers (.inl rfl) ?_
      cases op with
      | lock =>
          refine ⟨(h.knows t).owner, nofun, nofun, fun pc p heq => ?_⟩
          cases heq
          simp only [update_self]
          exact ⟨rfl, .new 2048⟩
      | tryLock => exact ⟨(h.knows t).owner, nofun, nofun, nofun⟩
      | unlock =>
          have hholder : s.holder = some t := (h.knows t).owner hguard
          exact ⟨fun _ => hholder, fun _ => hholder, fun _ => by simp, nofun⟩
  | step t spurious => exact h.step hnext
  | ret t result =>
      simp only [State.next] at hnext
      split at hnext
      · next r hdone =>
          split at hnext <;> cases hnext
          refine h.move rfl h.flag (fun u hu => ⟨?_, rfl⟩) (.inl rfl) ⟨fun ho => ?_, nofun, nofun, nofun⟩
          · split
            · exact update_of_ne hu _ _
            · rfl
          · by_cases hgrants : r.grants = true
            · exact (h.knows t).claims (by rw [hdone]; exact hgrants)
            · simp only [hgrants] at ho
              exact (h.knows t).owner ho
      · cases hnext

/-- A mutex by its holder, whose operations are called with the thread. `lock`
has no effect while somebody holds it, and `tryLock` then answers false. -/
def mutex : Object (Option τ) (τ × Op) Res where
  init a := a = none
  apply a op r a' :=
    match op, r with
    | (t, .lock), .locked => a = none ∧ a' = some t
    | (t, .tryLock), .tried true => a = none ∧ a' = some t
    | (_, .tryLock), .tried false => a ≠ none ∧ a' = a
    | (t, .unlock), .unlocked => a = some t ∧ a' = none
    | _, _ => False

def Label.event : Label τ → Option (Event τ (τ × Op) Res)
  | .call t op => some (.call t (t, op))
  | .step _ _ => none
  | .ret t result => some (.ret t result)

/-- An operation takes effect with its last access of the flag. -/
def Local.status (t : τ) : Local → Status (τ × Op) Res
  | .idle => .idle
  | .lock _ _ => .pending (t, .lock)
  | .tryLock => .pending (t, .tryLock)
  | .unlock => .pending (t, .unlock)
  | .done r => .done r

def client : Client (spinLock τ) τ (Option τ) (τ × Op) Res where
  actor := Label.thread
  event := Label.event
  value := State.holder
  Open s t st := st = (s.threads t).status t

theorem threads_of_ne {l : Label τ} {u : τ} (hnext : s.next l = some s') (hu : u ≠ l.thread) :
    s'.threads u = s.threads u := by
  cases l with
  | call t op =>
      simp only [State.next] at hnext
      split at hnext <;> cases hnext
      exact update_of_ne hu _ _
  | ret t result =>
      simp only [State.next] at hnext
      split at hnext
      · split at hnext <;> cases hnext
        exact update_of_ne hu _ _
      · cases hnext
  | step t spurious =>
      simp only [State.next, State.step] at hnext
      split at hnext <;> cases hnext
      · next pc p _ =>
          cases pc <;> simp only [State.lockStep] <;>
            first | exact update_of_ne hu _ _ | (split <;> exact update_of_ne hu _ _)
      · split <;> exact update_of_ne hu _ _
      · exact update_of_ne hu _ _

/-- A step of an operation changes the holder as the mutex does, or not at
all. -/
theorem step_simulates (h : Inv s) {spurious : Bool}
    (hnext : s.step t spurious (s.threads t) = some s') :
    Simulates mutex t s.holder ((s.threads t).status t) none s'.holder
      ((s'.threads t).status t) := by
  have hacquire {op : Op} {r : Res} (hfree : s.locked = false)
      (happly : s.holder = none → mutex.apply s.holder (t, op) r (some t)) :
      Simulates mutex t s.holder (.pending (t, op)) none (s.acquire t r).holder
        (((s.acquire t r).threads t).status t) := by
    rw [State.acquire_threads]
    exact .perform (happly (h.free hfree))
  cases hl : s.threads t with
  | idle | done =>
      rw [hl] at hnext
      cases hnext
  | lock pc p =>
      rw [hl] at hnext
      cases hnext
      have hstay (pc' : LockPc) (p' : Pause) :
          Simulates mutex t s.holder (.pending (t, .lock)) none s.holder
            (((s.goOn t (.lock pc' p')).threads t).status t) := by
        rw [State.goOn_threads]
        exact .inl ⟨rfl, rfl, rfl⟩
      cases pc with
      | load =>
          simp only [State.lockStep]
          split <;> exact hstay _ _
      | pause => exact hstay .load p.wait.1
      | exchange =>
          simp only [State.lockStep]
          split
          · next hcas => exact hacquire hcas.1 fun hnone => ⟨hnone, rfl⟩
          · exact hstay _ _
  | tryLock =>
      rw [hl] at hnext
      cases hnext
      split
      · next hfree => exact hacquire hfree fun hnone => ⟨hnone, rfl⟩
      · next hheld =>
          have hsome : s.holder ≠ none := fun hnone => hheld (by rw [h.flag, hnone]; rfl)
          rw [State.goOn_threads]
          exact .perform ⟨hsome, rfl⟩
  | unlock =>
      have hholder : s.holder = some t := (h.knows t).claims (by rw [hl]; rfl)
      rw [hl] at hnext
      cases hnext
      rw [State.release_threads]
      exact .perform ⟨hholder, rfl⟩

/-- The lock simulates the mutex step by step. The exchange that finds the
flag clear is the instant at which the lock is taken. -/
theorem refines : (client (τ := τ)).Refines Disciplined Inv mutex where
  inv_init _ := Inv.initial
  inv_step _ _ _ := Inv.next
  value_init _ h := h.holder
  idle_init s t st h hopen := by
    obtain rfl : st = (s.threads t).status t := hopen
    rw [h.threads]
    rfl
  some_open s t _ := ⟨_, rfl⟩
  frame s l s' t st _ _ hnext ht hopen := by
    have hopen : st = (s'.threads t).status t := hopen
    rw [threads_of_ne hnext ht] at hopen
    exact hopen
  back s l s' st' h hguard hnext hopen := by
    obtain rfl : st' = (s'.threads l.thread).status l.thread := hopen
    refine ⟨_, rfl, ?_⟩
    replace hnext : s.next l = some s' := hnext
    change Simulates mutex l.thread s.holder ((s.threads l.thread).status l.thread) l.event
      s'.holder ((s'.threads l.thread).status l.thread)
    cases l with
    | call t op =>
        simp only [State.next] at hnext
        split at hnext
        · next hidle =>
            cases hnext
            simp only [Label.thread, State.goOn, update_self, hidle]
            cases op <;> exact .call _ _
        · cases hnext
    | step t spurious => exact step_simulates h hnext
    | ret t result =>
        simp only [State.next] at hnext
        split at hnext
        · next r hdone =>
            split at hnext
            · next heq =>
                subst heq
                cases hnext
                simp only [Label.thread, State.goOn, update_self, hdone]
                exact .ret _ _
            · cases hnext
        · cases hnext

theorem Inv.of_run {ls : List (Label τ)} (hrun : (spinLock τ).Run Disciplined ls s) : Inv s :=
  hrun.invariant (fun _ => Inv.initial) fun _ _ _ => Inv.next

/-- The spin lock is a mutex: between the instant at which one thread gets it
and the one at which that thread gives it back, no other thread gets it. The
flag is what the source keeps of the holder. -/
theorem spinLock_linearizable {ls : List (Label τ)} (hrun : (spinLock τ).Run Disciplined ls s) :
    LinearizesTo mutex (client.history ls) s.holder ∧ s.locked = s.holder.isSome ∧
      ∀ t, s.owns t = true → s.holder = some t :=
  have h : Inv s := .of_run hrun
  ⟨refines.linearizesTo hrun, h.flag, fun t => (h.knows t).owner⟩

end Step

/-- Thread 1 waits for thread 0 and fails once with its exchange. -/
def handover : List (Label (Fin 2)) :=
  [.call 0 .tryLock, .call 1 .lock, .step 0 false, .step 1 false, .step 1 false, .ret 0 (.tried true),
    .call 0 .unlock, .step 0 false, .step 1 false, .step 1 true, .step 1 false, .step 1 false,
    .ret 0 .unlocked, .ret 1 .locked]

def unlocked (n : Nat) : State (Fin n) := ⟨false, fun _ => .idle, none, fun _ => false, fun _ => []⟩

theorem initial_unlocked (n : Nat) : Initial (unlocked n) :=
  ⟨rfl, fun _ => rfl, rfl, fun _ => rfl, fun _ => rfl⟩

def handoverState : State (Fin 2) :=
  ((spinLock (Fin 2)).exec Disciplined (unlocked 2) handover).get (by decide)

theorem spinLock_linearizable_handover :
    LinearizesTo mutex (client.history handover) handoverState.holder ∧
      handoverState.locked = handoverState.holder.isSome ∧
      ∀ t, handoverState.owns t = true → handoverState.holder = some t := by
  have hrun : (spinLock (Fin 2)).Run Disciplined handover handoverState :=
    run_of_exec (initial_unlocked 2) _
  exact spinLock_linearizable hrun

section Progress

variable {τ : Type*} [DecidableEq τ] {s s' : State τ} {ls : List (Label τ)}

def Local.inLock : Local → Bool
  | .lock _ _ => true
  | _ => false

/-- The labels of steps inside `lock` of some of the threads, whose exchanges
fail only on a mismatch. -/
def Waiting (threads : Finset τ) (s : State τ) (l : Label τ) : Prop :=
  ∃ t ∈ threads, l = .step t false ∧ (s.threads t).inLock = true

instance (threads : Finset τ) (s : State τ) (l : Label τ) : Decidable (Waiting threads s l) := by
  unfold Waiting
  infer_instance

/-- How many steps a thread takes until it has the lock, if the flag stays
clear. -/
def Local.patience : Local → Nat
  | .lock .exchange _ => 1
  | .lock .load _ => 2
  | .lock .pause _ => 3
  | _ => 0

/-- With the flag clear, a waiting thread comes closer to the lock or gets it.
It waits no longer, since its next load finds the flag clear. -/
theorem step_free {t : τ} (hfree : s.locked = false) (hin : (s.threads t).inLock = true)
    (hnext : s.next (.step t false) = some s') :
    (s'.locked = false ∨ s'.threads t = .done .locked) ∧
      (s'.threads t).patience < (s.threads t).patience := by
  obtain ⟨pc, p, hl⟩ : ∃ pc p, s.threads t = .lock pc p := by
    cases hl : s.threads t with
    | lock pc p => exact ⟨pc, p, rfl⟩
    | _ => simp [hl, Local.inLock] at hin
  simp only [State.next, hl, State.step, Option.some.injEq] at hnext
  subst hnext
  rw [hl]
  cases pc with
  | load =>
      simp only [State.lockStep, hfree, Bool.false_eq_true, if_false, State.goOn_threads]
      exact ⟨.inl hfree, by simp [Local.patience]⟩
  | pause =>
      simp only [State.lockStep, State.goOn_threads]
      exact ⟨.inl hfree, by simp [Local.patience]⟩
  | exchange =>
      simp only [State.lockStep, hfree, and_self, if_true, State.acquire_threads]
      exact ⟨.inr trivial, by simp [Local.patience]⟩

/-- The steps that waiting threads take while the flag is clear use up a
patience of three each. -/
theorem spends (threads : Finset τ) :
    (spinLock τ).Spends (fun s l => Waiting threads s l ∧ s.locked = false) (fun _ => True)
      Label.thread threads (fun _ => 0) (fun s t => (s.threads t).patience) 3 where
  inv _ _ _ _ _ _ := trivial
  actor_mem s l hguard := by
    obtain ⟨⟨t, ht, rfl, -⟩, -⟩ := hguard
    exact ht
  le_cap s t := by
    cases s.threads t with
    | lock pc p => cases pc <;> simp [Local.patience]
    | _ => simp [Local.patience]
  step s l s' _ hguard hnext := by
    obtain ⟨⟨t, ht, rfl, hin⟩, hfree⟩ := hguard
    refine .inr ⟨le_rfl, (step_free hfree hin hnext).2, fun u hu => ?_⟩
    rw [threads_of_ne (l := .step t false) hnext hu]

/-- Until the flag is set, only steps with a clear flag were taken; then one
of the threads has the lock. -/
theorem free_or_acquired {threads : Finset τ} (hfree : s.locked = false)
    (hsteps : (spinLock τ).Steps (Waiting threads) s ls s') :
    s'.locked = false ∧
        (spinLock τ).Steps (fun s l => Waiting threads s l ∧ s.locked = false) s ls s' ∨
      ∃ t ∈ threads, s'.threads t = .done .locked := by
  induction hsteps with
  | refl => exact .inl ⟨hfree, .refl⟩
  | @snoc ls u v l _ hguard hnext ih =>
      have hwaiting := hguard
      obtain ⟨t, ht, rfl, hin⟩ := hguard
      rcases ih with ⟨hclear, hclearSteps⟩ | ⟨w, hw, hdone⟩
      · rcases (step_free hclear hin hnext).1 with hclear' | hdone
        · exact .inl ⟨hclear', hclearSteps.snoc ⟨hwaiting, hclear⟩ hnext⟩
        · exact .inr ⟨t, ht, hdone⟩
      · have hne : w ≠ t := by
          intro heq
          rw [← heq, hdone] at hin
          cases hin
        refine .inr ⟨w, hw, ?_⟩
        rw [threads_of_ne (l := .step t false) hnext hne, hdone]

/-- Deadlock freedom: if the flag is clear and `n` threads wait for the lock,
one of them has it after `3 n + 1` of their steps, whatever the schedule, and
a thread that still waits can always go on. It is not fairness: the same
thread may be passed over forever. -/
theorem lock_deadlockFree {threads : Finset τ} (hfree : s.locked = false)
    (hsteps : (spinLock τ).Steps (Waiting threads) s ls s') :
    (threads.card * 3 < ls.length → ∃ t ∈ threads, s'.threads t = .done .locked) ∧
      ∀ t ∈ threads, (s'.threads t).inLock = true →
        Waiting threads s' (.step t false) ∧ ∃ v, (spinLock τ).next s' (.step t false) = some v := by
  refine ⟨fun hlen => ?_, fun t ht hin => ⟨⟨t, ht, rfl, hin⟩, ?_⟩⟩
  · rcases free_or_acquired hfree hsteps with ⟨-, hclear⟩ | hacquired
    · have hle := (spends threads).length_le trivial hclear
      omega
    · exact hacquired
  · cases hl : s'.threads t with
    | lock pc p => simp [spinLock, State.next, State.step, hl]
    | _ => simp [hl, Local.inLock] at hin

end Progress

def contended : State (Fin 2) :=
  ((spinLock (Fin 2)).exec Disciplined (unlocked 2) [.call 0 .lock, .call 1 .lock]).get (by decide)

/-- Thread 0 gets the lock with its second step, thread 1 pauses for it. -/
def contendedSteps : List (Label (Fin 2)) :=
  [.step 0 false, .step 0 false, .step 1 false, .step 1 false, .step 1 false, .step 1 false,
    .step 1 false]

def contendedState : State (Fin 2) :=
  ((spinLock (Fin 2)).exec (Waiting Finset.univ) contended contendedSteps).get (by decide)

theorem lock_deadlockFree_contended : ∃ t ∈ Finset.univ, contendedState.threads t = .done .locked := by
  have hsteps : (spinLock (Fin 2)).Steps (Waiting Finset.univ) contended contendedSteps
      contendedState := steps_of_exec (Option.some_get _).symm
  exact (lock_deadlockFree rfl hsteps).1 (by decide)

end Libni.Sync
