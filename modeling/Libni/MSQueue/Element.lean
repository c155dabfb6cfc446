import Libni.MSQueue.Linearizable

/-!
The variable that the caller of `pop` or `try_pop` passes for the element. The value
is copied into it before the compare-exchange that claims it, so a call that loses
an exchange has already overwritten it, and may still find the queue empty later.
-/

namespace Libni.MSQueue

open Function Libni.Transition Libni.Transition.System

section Claim

variable {κ τ α : Type*}

/-- A compare-exchange of `m_head`, with the caller's variable at the call and
now. -/
structure Claim (κ α : Type*) where
  queue : κ
  oldHead : TaggedPtr
  weak : Bool
  arg : α
  element : α

/-- The compare-exchange that a thread is about to make on a head. -/
def Local.claim : Local κ α → Option (Claim κ α)
  | .pop q arg element _ (.casHead oldHead _) => some ⟨q, oldHead, true, arg, element⟩
  | .tryPop q arg element _ _ (.casHead oldHead _) => some ⟨q, oldHead, false, arg, element⟩
  | _ => none

/-- The exchange succeeds, or the value copied is the one the variable had. In
the second case nobody can tell that it was copied. -/
def Claim.Kept (m : Mem κ α) (spurious : Bool) (c : Claim κ α) : Prop :=
  (m.head c.queue = c.oldHead ∧ (c.weak = true → spurious = false)) ∨ c.element = c.arg

instance [DecidableEq α] (m : Mem κ α) (spurious : Bool) (c : Claim κ α) :
    Decidable (c.Kept m spurious) :=
  inferInstanceAs (Decidable (_ ∨ _))

/-- Thread `t` loses no exchange after it has overwritten its caller's
variable. What other threads do is left open. -/
def NoClaimLost (t : τ) (s : State κ τ α) : Label κ τ α → Prop
  | .step u _ spurious => u = t → ∀ c ∈ (s.threads t).claim, c.Kept s.mem spurious
  | _ => True

instance [DecidableEq τ] [DecidableEq α] (t : τ) (s : State κ τ α) (l : Label κ τ α) :
    Decidable (NoClaimLost t s l) :=
  match l with
  | .step u _ spurious =>
      inferInstanceAs (Decidable (u = t → ∀ c ∈ (s.threads t).claim, c.Kept s.mem spurious))
  | .call _ _ => inferInstanceAs (Decidable True)
  | .ret _ _ => inferInstanceAs (Decidable True)

/-- The variable passed for the element, with its contents at the call. -/
def Op.element : Op κ α → Option α
  | .pop _ element _ | .tryPop _ element _ _ => some element
  | _ => none

/-- Its contents at the return of a call that has removed nothing. -/
def Res.unclaimed : Res α → Option α
  | .popped false element _ => some element
  | .tryPopped .emptyQueue element _ | .tryPopped .failure element _ => some element
  | _ => none

/-- Inside the call, the variable has its old contents, except where the head
is claimed or has been. -/
def Local.Untouched (arg : Option α) : Local κ α → Prop
  | .idle => False
  | .pop _ old element _ pc =>
      arg = some old ∧ (element = old ∨ pc matches .casHead _ _ ∨ pc matches .deleteHead _)
  | .tryPop _ old element _ _ pc =>
      arg = some old ∧ (element = old ∨ pc matches .casHead _ _ ∨ pc matches .deleteHead _)
  | .done r => ∀ element, r.unclaimed = some element → arg = some element
  | _ => True

theorem start_untouched (op : Op κ α) : (start op).Untouched op.element := by
  cases op with
  | pop | tryPop => exact ⟨rfl, .inl rfl⟩
  | _ => trivial

end Claim

section Step

variable {κ τ α : Type*} [DecidableEq κ] {arg : Option α} {m m' : Mem κ α} {l l' : Local κ α}
  {fresh : Addr} {spurious : Bool} {q : κ} {old element : α}

/-- A `pop` that keeps its claims leaves the variable alone until it has the
head. -/
theorem popStep_untouched {headState : Option Tag} {pc : PopPc}
    (h : (Local.pop q old element headState pc).Untouched arg)
    (hkept : ∀ c ∈ (Local.pop q old element headState pc).claim, c.Kept m spurious) :
    (popStep m q spurious old element headState pc).2.Untouched arg := by
  obtain ⟨harg, hold⟩ := h
  cases pc with
  | readValue oldHead next => exact ⟨harg, .inr (.inl rfl)⟩
  | casHead oldHead next =>
      have hkept := hkept _ rfl
      simp only [popStep]
      split
      · exact ⟨harg, .inr (.inr rfl)⟩
      · next hlost =>
          rcases hkept with hwon | hsame
          · exact absurd ⟨hwon.1, hwon.2 rfl⟩ hlost
          · exact ⟨harg, .inl hsame⟩
  | deleteHead oldHead => rintro e ⟨⟩
  | checkHead oldHead oldTail next =>
      have hsame : element = old := by simpa using hold
      subst hsame
      simp only [popStep]
      split
      · exact ⟨harg, .inl rfl⟩
      · split
        · split
          · rintro e ⟨⟩
            exact harg
          · exact ⟨harg, .inl rfl⟩
        · exact ⟨harg, .inl rfl⟩
  | loadHead | loadTail | loadNext | helpTail =>
      have hsame : element = old := by simpa using hold
      exact ⟨harg, .inl hsame⟩

theorem tryPopStep_untouched {oldHeadState headState : Tag} {pc : TryPopPc}
    (h : (Local.tryPop q old element oldHeadState headState pc).Untouched arg)
    (hkept : ∀ c ∈ (Local.tryPop q old element oldHeadState headState pc).claim,
      c.Kept m spurious) :
    (tryPopStep m q old element oldHeadState headState pc).2.Untouched arg := by
  obtain ⟨harg, hold⟩ := h
  cases pc with
  | readValue oldHead next => exact ⟨harg, .inr (.inl rfl)⟩
  | casHead oldHead next =>
      have hkept := hkept _ rfl
      simp only [tryPopStep]
      split
      · exact ⟨harg, .inr (.inr rfl)⟩
      · next hlost =>
          rcases hkept with hwon | hsame
          · exact absurd hwon.1 hlost
          · rintro e ⟨⟩
            rw [harg]
            exact congrArg some hsame.symm
  | deleteHead oldHead => rintro e ⟨⟩
  | helpTail oldTail next =>
      have hsame : element = old := by simpa using hold
      rintro e ⟨⟩
      exact hsame ▸ harg
  | loadNext oldHead oldTail =>
      have hsame : element = old := by simpa using hold
      subst hsame
      simp only [tryPopStep]
      split
      · split
        · split
          · rintro e ⟨⟩
            exact harg
          · exact ⟨harg, .inl rfl⟩
        · exact ⟨harg, .inl rfl⟩
      · rintro e ⟨⟩
        exact harg
  | loadHead | loadTail =>
      have hsame : element = old := by simpa using hold
      exact ⟨harg, .inl hsame⟩

/-- The other operations do not return an element. -/
def Local.Other : Local κ α → Prop
  | .idle | .pop .. | .tryPop .. => False
  | .done r => r.unclaimed = none
  | _ => True

omit [DecidableEq κ] in
theorem Local.Other.untouched (h : l.Other) : l.Untouched arg := by
  cases l with
  | idle | pop | tryPop => exact h.elim
  | done r =>
      intro e he
      have hnone : r.unclaimed = none := h
      rw [hnone] at he
      cases he
  | _ => trivial

theorem pushStep_other {pc : PushPc α} (hstep : pushStep m q fresh spurious pc = some (m', l')) :
    l'.Other := by
  cases pc with
  | newNode e =>
      obtain ⟨_, -, heq⟩ := Option.map_eq_some_iff.mp hstep
      cases heq
      trivial
  | checkTail | casNext | helpTail =>
      simp only [pushStep] at hstep
      split at hstep
      · cases hstep
        trivial
      · first
          | cases hstep
            trivial
          | split at hstep <;> cases hstep <;> trivial
  | casTail =>
      cases hstep
      rfl
  | loadTail | loadNext =>
      cases hstep
      trivial

theorem tryPushStep_other {pc : TryPushPc α} (hstep : tryPushStep m q fresh pc = some (m', l')) :
    l'.Other := by
  cases pc with
  | newNode e =>
      obtain ⟨_, -, heq⟩ := Option.map_eq_some_iff.mp hstep
      cases heq
      trivial
  | loadTail | loadNext | casNext =>
      simp only [tryPushStep] at hstep
      split at hstep <;> cases hstep <;> trivial
  | casTail | deleteNode | helpTail =>
      cases hstep
      rfl

omit [DecidableEq κ] in
theorem emptyStep_other {pc : EmptyPc} : (emptyStep m q pc).2.Other := by
  cases pc with
  | checkHead =>
      simp only [emptyStep]
      split
      · rfl
      · trivial
  | _ => trivial

/-- Whatever the operation, its own steps leave the variable alone. -/
theorem localStep_untouched (h : l.Untouched arg) (hkept : ∀ c ∈ l.claim, c.Kept m spurious)
    (hstep : localStep m fresh spurious l = some (m', l')) : l'.Untouched arg := by
  cases l with
  | idle | done => cases hstep
  | push q pc => exact (pushStep_other hstep).untouched
  | tryPush q pc => exact (tryPushStep_other hstep).untouched
  | pop q old element headState pc =>
      have huntouched := popStep_untouched h hkept
      rw [Option.some.inj hstep] at huntouched
      exact huntouched
  | tryPop q old element oldHeadState headState pc =>
      have huntouched := tryPopStep_untouched h hkept
      rw [Option.some.inj hstep] at huntouched
      exact huntouched
  | empty q pc =>
      have hother : (emptyStep m q pc).2.Other := emptyStep_other
      rw [Option.some.inj hstep] at hother
      exact hother.untouched
  | tailState q =>
      cases hstep
      rintro e ⟨⟩

end Step

section Run

variable {κ τ α : Type*} [DecidableEq κ] [DecidableEq τ] [DecidableEq α] {s s' s₀ : State κ τ α}
  {t : τ} {op : Op κ α} {ms : List (Label κ τ α)}

/-- The steps of the other threads do not touch the variable at all. It
belongs to the caller, and only this call has a reference to it. -/
theorem next_untouched {l : Label κ τ α} (h : (s.threads t).Untouched op.element)
    (hguard : NoClaimLost t s l) (hnext : (system κ τ α).next s l = some s')
    (hret : ∀ r, l ≠ .ret t r) : (s'.threads t).Untouched op.element := by
  by_cases ht : t = l.actor
  · subst ht
    cases l with
    | call u op' =>
        simp only [Label.actor, (next_call hnext).1] at h
        exact h.elim
    | step u fresh spurious =>
        obtain ⟨m', l', hstep, rfl⟩ := next_step hnext
        simp only [Label.actor, update_self] at *
        exact localStep_untouched h (hguard rfl) hstep
    | ret u r => exact absurd rfl (hret r)
  · rw [threads_of_ne hnext ht]
    exact h

/-- A call that returns without an element leaves its caller's variable as it
was, if it has lost no exchange after overwriting it. A call that loses one
may still find the queue empty, and then returns with an element that another
thread has got. -/
theorem element_unchanged {r : Res α} {e : α}
    (hcall : (system κ τ α).next s (.call t op) = some s₀)
    (hsteps : (system κ τ α).Steps (NoClaimLost t) s₀ ms s') (hret : ∀ r, .ret t r ∉ ms)
    (hdone : s'.threads t = .done r) (hr : r.unclaimed = some e) : op.element = some e := by
  have hstart : (s₀.threads t).Untouched op.element := by
    obtain ⟨_, rfl⟩ := next_call hcall
    simp only [update_self]
    exact start_untouched op
  have huntouched : (s'.threads t).Untouched op.element := by
    clear hdone
    induction hsteps with
    | refl => exact hstart
    | snoc _ hguard hnext ih =>
        apply next_untouched (ih fun r hmem => hret r (List.mem_append_left _ hmem)) hguard hnext
        rintro r rfl
        exact hret r (List.mem_append_right _ (List.mem_singleton_self _))
  rw [hdone] at huntouched
  exact huntouched e hr

end Run

section Runs

def pushSeven : List (Label (Fin 1) Bool Nat) :=
  .call false (.push 0 7) :: .step false 2 false :: List.replicate 5 (Label.step false 0 false) ++
    [Label.ret false (.pushed true)]

def seven : State (Fin 1) Bool Nat :=
  ((system (Fin 1) Bool Nat).exec NeverReused (constructed 1 0) pushSeven).get (by decide +kernel)

def popCalled : State (Fin 1) Bool Nat :=
  ((system (Fin 1) Bool Nat).next seven (.call true (.pop 0 0 none))).get (by decide +kernel)

/-- The other thread's pop has copied the element, then the first one takes
it. -/
def overtaken : List (Label (Fin 1) Bool Nat) :=
  List.replicate 5 (Label.step true 0 false) ++
    .call false (.pop 0 0 none) :: List.replicate 7 (Label.step false 0 false) ++
      .ret false (.popped true 7 none) :: List.replicate 5 (Label.step true 0 false)

/-- The same pop, overtaken before it has copied the element. -/
def overtakenBefore : List (Label (Fin 1) Bool Nat) :=
  .step true 0 false :: .call false (.pop 0 0 none) :: List.replicate 7 (Label.step false 0 false) ++
    .ret false (.popped true 7 none) :: List.replicate 7 (Label.step true 0 false)

def refused : State (Fin 1) Bool Nat :=
  ((system (Fin 1) Bool Nat).exec (NoClaimLost true) popCalled overtakenBefore).get
    (by decide +kernel)

theorem element_unchanged_overtakenBefore :
    refused.threads true = .done (.popped false 0 none) ∧
      (.pop 0 0 none : Op (Fin 1) Nat).element = some 0 := by
  have hcall : (system (Fin 1) Bool Nat).next seven (.call true (.pop 0 0 none)) = some popCalled :=
    (Option.some_get _).symm
  have hsteps : (system (Fin 1) Bool Nat).Steps (NoClaimLost true) popCalled overtakenBefore
      refused := steps_of_exec (Option.some_get _).symm
  have hdone : refused.threads true = .done (.popped false 0 none) := by decide +kernel
  refine ⟨hdone, element_unchanged hcall hsteps (fun r => ?_) hdone rfl⟩
  simp [overtakenBefore]

def overwritten : State (Fin 1) Bool Nat :=
  ((system (Fin 1) Bool Nat).exec NeverReused popCalled overtaken).get (by decide +kernel)

/-- A pop that returns false leaves the other thread's element in its caller's
variable. -/
theorem refused_pop_overwrites : ¬ ∀ (ls ms : List (Label (Fin 1) Bool Nat))
    (s s₀ s' : State (Fin 1) Bool Nat) (t : Bool) (op : Op (Fin 1) Nat) (r : Res Nat) (e : Nat),
    (system (Fin 1) Bool Nat).Run NeverReused ls s →
      (system (Fin 1) Bool Nat).next s (.call t op) = some s₀ →
        (system (Fin 1) Bool Nat).Steps NeverReused s₀ ms s' → (∀ r, .ret t r ∉ ms) →
          s'.threads t = .done r → r.unclaimed = some e → op.element = some e := by
  intro hall
  have hrun : (system (Fin 1) Bool Nat).Run NeverReused pushSeven seven :=
    run_of_exec (initial_constructed 1 0) _
  have hcall : (system (Fin 1) Bool Nat).next seven (.call true (.pop 0 0 none)) = some popCalled :=
    (Option.some_get _).symm
  have hsteps : (system (Fin 1) Bool Nat).Steps NeverReused popCalled overtaken overwritten :=
    steps_of_exec (Option.some_get _).symm
  have hdone : overwritten.threads true = .done (.popped false 7 none) := by decide +kernel
  have hsame := hall _ _ _ _ _ true _ _ 7 hrun hcall hsteps (by simp [overtaken]) hdone rfl
  exact absurd hsame (by decide)

end Runs

end Libni.MSQueue
