import Libni.DistributedMSQueue.Linearizable

/-!
A tail that moves 2^16 times between the two passes of `get` has the tag it had in the
first pass. Then `get` answers false although at every instant of the call an element
whose `put` had returned was still there.
-/

namespace Libni.DistributedMSQueue

open Function Libni.Transition Libni.Transition.System Libni.MSQueue

section Pending

variable {n : Nat} {τ α : Type*}

/-- What has returned and what has been removed only grows. So an element that
is there in the end was there all along. -/
structure Grows (s s' : Container n τ α) : Prop where
  returned : ∀ e ∈ s.returned, e ∈ s'.returned
  taken : ∀ q, s.history.taken q <+: s'.history.taken q

variable {s s' u : Container n τ α} {t : τ} {e : Item τ α}

theorem Grows.of_eq (hreturned : s'.returned = s.returned) (hhistory : s'.history = s.history) :
    Grows s s' :=
  ⟨fun e he => by rwa [hreturned], fun q => by rw [hhistory]⟩

theorem Grows.trans (h : Grows s u) (h' : Grows u s') : Grows s s' :=
  ⟨fun e he => h'.returned e (h.returned e he), fun q => (h.taken q).trans (h'.taken q)⟩

variable [DecidableEq τ] [DecidableEq α] {backend : τ → Option (Fin n)}

omit [DecidableEq α] in
theorem Grows.firstTurn {element : Item τ α} {start : Fin n} {i : Nat} {tailsStates : Nat → Tag} :
    Grows s (s.firstTurn t element start i tailsStates) := by
  unfold Container.firstTurn
  split <;> exact .of_eq rfl rfl

omit [DecidableEq α] in
theorem Grows.secondTurn {element : Item τ α} {start : Fin n} {i : Nat} {tailsStates : Nat → Tag} :
    Grows s (s.secondTurn t element start i tailsStates) := by
  unfold Container.secondTurn
  split <;> exact .of_eq rfl rfl

omit [DecidableEq α] in
theorem Grows.resume {c : Caller n τ α} {r : Res (Item τ α)}
    (hnext : s.resume t c r = some s') : Grows s s' := by
  unfold Container.resume at hnext
  split at hnext
  · cases hnext
    exact .of_eq rfl rfl
  · cases hnext
    exact .of_eq rfl rfl
  · cases hnext
    exact .of_eq rfl rfl
  · cases hnext
    exact .of_eq rfl rfl
  · cases hnext
    exact .firstTurn
  · split at hnext <;> cases hnext
    · exact .secondTurn
    · exact .of_eq rfl rfl
  · cases hnext

theorem Grows.next {l : Label n τ α} (hnext : s.next backend l = some s') : Grows s s' := by
  cases l with
  | put t value =>
      simp only [Container.next] at hnext
      split at hnext <;> cases hnext
      exact .of_eq rfl rfl
  | get t element =>
      simp only [Container.next] at hnext
      split at hnext <;> cases hnext <;> exact .of_eq rfl rfl
  | round t start =>
      simp only [Container.next] at hnext
      split at hnext <;> cases hnext
      exact .firstTurn
  | step t fresh =>
      simp only [Container.next] at hnext
      split at hnext
      · exact .resume hnext
      · split at hnext
        · split at hnext <;> cases hnext
          exact .of_eq rfl rfl
        · cases hnext
      · simp only [Container.access, MSQueue.next, Option.map_map, Option.map_eq_some_iff,
          Function.comp_apply] at hnext
        obtain ⟨⟨m', l'⟩, -, rfl⟩ := hnext
        exact ⟨fun e he => he, fun q => s.history.taken_after q⟩
  | ret t =>
      simp only [Container.next] at hnext
      split at hnext <;> cases hnext
      · exact ⟨fun e he => List.mem_cons_of_mem _ he, fun q => List.prefix_rfl⟩
      · exact .of_eq rfl rfl

theorem Grows.steps {guard : Container n τ α → Label n τ α → Prop} {ls : List (Label n τ α)}
    (h : (container backend).Steps guard s ls s') : Grows s s' := by
  induction h with
  | refl => exact .of_eq rfl rfl
  | snoc _ _ hnext ih => exact ih.trans (.next hnext)

/-- An element that has returned before and not been removed after was there
at every instant in between. -/
theorem not_through_emptied {guard : Container n τ α → Label n τ α → Prop}
    {ls : List (Label n τ α)} (he : e ∈ s.returned) (htaken : ∀ q, e ∉ s'.history.taken q) :
    ¬ (container backend).Through guard Container.Emptied s ls s' := by
  rintro ⟨pre, post, u, rfl, hpre, hempty, hpost⟩
  obtain ⟨q, hq⟩ := hempty e ((Grows.steps hpre).returned e he)
  exact htaken q (((Grows.steps hpost).taken q).subset hq)

end Pending

section Puts

variable {n : Nat} {τ α : Type*} [DecidableEq τ] [DecidableEq α] {backend : τ → Option (Fin n)}

/-- One thread puts an element with no other thread in between. -/
def putLabels (t : τ) (value : α) (fresh : Addr) : List (Label n τ α) :=
  .put t value :: .step t fresh :: List.replicate 6 (.step t 0) ++ [.ret t]

/-- The queue `q` with a node linked behind the tail and the tail on it. -/
def appended (m : Mem (Fin n) α) (q : Fin n) (fresh : Addr) (e : α) : Mem (Fin n) α where
  heap := update (update m.heap fresh ⟨e, .null⟩) (m.tail q).value
    ⟨(m.heap (m.tail q).value).value, ⟨fresh, (m.heap (m.tail q).value).next.tag + 1⟩⟩
  live := update m.live fresh true
  used := update m.used fresh true
  head := m.head
  tail := update m.tail q ⟨fresh, (m.tail q).tag + 1⟩

/-- The thread `t` is inside a `push` of `put`. -/
def Container.putting (s : Container n τ α) (t : τ) (m : Mem (Fin n) (Item τ α)) (value : α)
    (l : Local (Fin n) (Item τ α)) (h : History (Fin n) (Item τ α)) : Container n τ α where
  backends := ⟨m, update s.backends.threads t l⟩
  callers := update s.callers t (.put ⟨t, s.puts t, value⟩)
  puts := update s.puts t (s.puts t + 1)
  history := h
  seen := s.seen
  returned := s.returned

variable {s : Container n τ α} {t : τ} {q : Fin n} {value : α} {fresh : Addr}

theorem next_putting {m m' : Mem (Fin n) (Item τ α)} {h : History (Fin n) (Item τ α)}
    {pc : PushPc (Item τ α)} {l : Local (Fin n) (Item τ α)}
    (hstep : pushStep m q fresh false pc = some (m', l)) :
    (container backend).next (s.putting t m value (.push q pc) h) (.step t fresh) =
      some (s.putting t m' value l (h.after m m')) := by
  simp [container, Container.next, Container.putting, Container.access, MSQueue.next, localStep,
    hstep, look]

/-- The state after an undisturbed `put`. -/
def Container.afterPut (s : Container n τ α) (t : τ) (q : Fin n) (value : α) (fresh : Addr) :
    Container n τ α :=
  let m' := appended s.backends.mem q fresh ⟨t, s.puts t, value⟩
  { s with
    backends := { s.backends with mem := m' }
    puts := update s.puts t (s.puts t + 1)
    history := s.history.after s.backends.mem m'
    returned := ⟨t, s.puts t, value⟩ :: s.returned }

/-- An undisturbed `put` leads there, for every state with an idle thread and
a tail on its last node. So it can be repeated as often as the tag has values. -/
theorem put_steps (value : α) (hbackend : backend t = some q) (hcaller : s.callers t = .idle)
    (hlocal : s.backends.threads t = .idle)
    (hnull : (s.backends.mem.heap (s.backends.mem.tail q).value).next.value = 0)
    (hfresh : fresh ≠ 0) (hfree : s.backends.mem.live fresh = false)
    (hne : fresh ≠ (s.backends.mem.tail q).value) :
    (container backend).exec Free s (putLabels t value fresh) =
      some (s.afterPut t q value fresh) := by
  let m := s.backends.mem
  let e : Item τ α := ⟨t, s.puts t, value⟩
  let m₁ : Mem (Fin n) (Item τ α) := { m with
    heap := update m.heap fresh ⟨e, .null⟩
    live := update m.live fresh true
    used := update m.used fresh true }
  let m₂ : Mem (Fin n) (Item τ α) := m₁.setNext (m.tail q).value
    ⟨fresh, (m.heap (m.tail q).value).next.tag + 1⟩
  have hcall : (container backend).next s (.put t value) =
      some (s.putting t m value (.push q (.newNode e)) s.history) := by
    simp only [container, Container.next, hcaller, hbackend]
    rfl
  have hnew : pushStep m q fresh false (.newNode e) = some (m₁, .push q (.loadTail fresh)) := by
    simp [pushStep, Mem.new, hfresh, hfree, m, m₁]
  have hload : pushStep m₁ q 0 false (.loadTail fresh) =
      some (m₁, .push q (.loadNext fresh (m.tail q))) := rfl
  have hnext : (m₁.heap (m.tail q).value).next = (m.heap (m.tail q).value).next := by
    change (update m.heap fresh _ (m.tail q).value).next = _
    rw [update_of_ne hne.symm]
  have hread : pushStep m₁ q 0 false (.loadNext fresh (m.tail q)) =
      some (m₁, .push q (.checkTail fresh (m.tail q) (m.heap (m.tail q).value).next)) := by
    rw [← hnext]
    rfl
  have hcheck : pushStep m₁ q 0 false
      (.checkTail fresh (m.tail q) (m.heap (m.tail q).value).next) =
        some (m₁, .push q (.casNext fresh (m.tail q) (m.heap (m.tail q).value).next)) := by
    simp [pushStep, m₁, m, hnull]
  have hlink : pushStep m₁ q 0 false
      (.casNext fresh (m.tail q) (m.heap (m.tail q).value).next) =
        some (m₂, .push q (.casTail fresh (m.tail q))) := by
    rw [pushStep, if_pos ⟨hnext, rfl⟩]
  have hswing : pushStep m₂ q 0 false (.casTail fresh (m.tail q)) =
      some (appended m q fresh e, .done (.pushed true)) := by
    simp [pushStep, Mem.casTail, m₂, m₁, m, Mem.setNext, Mem.setTail, appended, hne.symm]
  have hkeep₁ : s.history.after m m₁ = s.history := by simp [History.after, m₁]
  have hkeep₂ : s.history.after m₁ m₂ = s.history := by simp [History.after, m₂]
  have hswung : s.history.after m₂ (appended m q fresh e) =
      s.history.after m (appended m q fresh e) :=
    congrArg₂ History.mk (funext fun _ => (if_pos rfl).trans (if_pos rfl).symm) rfl
  let s' := s.putting t (appended m q fresh e) value (.done (.pushed true))
    (s.history.after m (appended m q fresh e))
  have hreturn : (container backend).next s' (.step t 0) =
      some (s'.settle t (.putDone e true)) := by
    simp [container, Container.next, s', Container.putting, Container.resume, e]
  have hret : (container backend).next (s'.settle t (.putDone e true)) (.ret t) =
      some (s.afterPut t q value fresh) := by
    have hself : update s.callers t Caller.idle = s.callers := by rw [← hcaller, update_eq_self]
    have hself' : update s.backends.threads t Local.idle = s.backends.threads := by
      rw [← hlocal, update_eq_self]
    simp [container, Container.next, Container.settle, s', Container.putting, hself, hself',
      Container.afterPut, e, m]
  change (container backend).exec Free s [.put t value, .step t fresh, .step t 0, .step t 0,
    .step t 0, .step t 0, .step t 0, .step t 0, .ret t] = _
  rw [exec_cons trivial hcall, exec_cons trivial (next_putting hnew), hkeep₁,
    exec_cons trivial (next_putting hload), History.after_self,
    exec_cons trivial (next_putting hread), History.after_self,
    exec_cons trivial (next_putting hcheck), History.after_self,
    exec_cons trivial (next_putting hlink), hkeep₂,
    exec_cons trivial (next_putting hswing), hswung, exec_cons trivial hreturn,
    exec_cons trivial hret]
  rfl

end Puts

section Second

variable {n : Nat} {τ α : Type*} [DecidableEq τ] [DecidableEq α] {backend : τ → Option (Fin n)}
  {s : Container n τ α} {t : τ} {e : Item τ α} {start : Fin n} {i : Nat}
  {tailsStates : Nat → Tag}

/-- The second pass, also with no other thread in between: a tag that agrees
leads to the next turn. -/
theorem turn_steps (hc : s.callers t = .second e start i tailsStates)
    (hl : s.backends.threads t = .tailState (segmentIndex start i))
    (htag : (s.backends.mem.tail (segmentIndex start i)).tag = tailsStates i) :
    (container backend).exec Free s [.step t 0, .step t 0] =
      some (s.secondTurn t e start (i + 1) tailsStates) := by
  let s₁ : Container n τ α := { s with backends := ⟨s.backends.mem, update s.backends.threads t
    (.done (.state (s.backends.mem.tail (segmentIndex start i)).tag))⟩ }
  have hload : (container backend).next s (.step t 0) = some s₁ := by
    simp [container, Container.next, hl, Container.access, MSQueue.next, localStep, look, s₁]
  have hresume : (container backend).next s₁ (.step t 0) =
      some (s.secondTurn t e start (i + 1) tailsStates) := by
    simp only [container, Container.next, s₁, update_self, hc, Container.resume, if_pos htag,
      Container.secondTurn]
    split
    · simp [Container.invoke]
    · simp [Container.settle]
  rw [exec_cons trivial hload, exec_cons trivial hresume]
  rfl

theorem second_steps
    (htags : ∀ j < n, (s.backends.mem.tail (segmentIndex start j)).tag = tailsStates j)
    (hi : i < n) (hc : s.callers t = .second e start i tailsStates)
    (hl : s.backends.threads t = .tailState (segmentIndex start i)) :
    ∃ ls s', (container backend).Steps Free s ls s' ∧ s'.callers t = .getDone e false ∧
      s'.history = s.history := by
  induction hk : n - i generalizing s i with
  | zero => omega
  | succ k ih =>
      have hturn : (container backend).exec Free s [.step t 0, .step t 0] =
          some (s.secondTurn t e start (i + 1) tailsStates) := turn_steps hc hl (htags i hi)
      by_cases hlast : i + 1 < n
      · rw [Container.secondTurn, if_pos hlast] at hturn
        obtain ⟨ls, s', hsteps, hcaller, hhistory⟩ :=
          ih (s := s.invoke t (.second e start (i + 1) tailsStates)
            (.tailState (segmentIndex start (i + 1)))) htags hlast
            (update_self _ _ _) (update_self _ _ _) (by omega)
        exact ⟨_, s', (steps_of_exec hturn).trans hsteps, hcaller, hhistory⟩
      · rw [Container.secondTurn, if_neg hlast] at hturn
        exact ⟨_, _, steps_of_exec hturn, update_self _ _ _, rfl⟩

end Second

/-- Thread 2 has begun to get while an element of thread 1 was there, and has
found the backend of thread 0 empty. Then thread 0 has put an element. -/
def beforeRun : List (Label 3 (Fin 3) Unit) := putLabels 1 () 4

def beforeState : Container 3 (Fin 3) Unit :=
  ((container registered).exec Free emptyContainer beforeRun).get (by decide +kernel)

def calledState : Container 3 (Fin 3) Unit :=
  (beforeState.next registered (.get 2 ⟨2, 0, ()⟩)).get (by decide +kernel)

def halfPass : List (Label 3 (Fin 3) Unit) :=
  steps 2 5 ++ .round 2 0 :: steps 2 4 ++ putLabels 0 () 5

def halfState : Container 3 (Fin 3) Unit :=
  ((container registered).exec Free calledState halfPass).get (by decide +kernel)

/-- Thread 1 gets its element back, and thread 2 ends its first pass. -/
def restPass : List (Label 3 (Fin 3) Unit) :=
  .get 1 ⟨1, 0, ()⟩ :: steps 1 8 ++ .ret 1 :: steps 2 11

def passedState : Container 3 (Fin 3) Unit :=
  ((container registered).exec Free halfState restPass).get (by decide +kernel)

/-- After `k` more puts of thread 0. The reader has not moved, and the tag of
the tail is `k` further. -/
structure Grown (k : Nat) (s : Container 3 (Fin 3) Unit) : Prop where
  idle : s.callers 0 = .idle ∧ s.backends.threads 0 = .idle
  reader : s.callers 2 = passedState.callers 2 ∧ s.backends.threads 2 = .tailState 0
  last : (s.backends.mem.heap (s.backends.mem.tail 0).value).next.value = 0
  tail : s.backends.mem.tail 0 = ⟨5 + k, BitVec.ofNat 16 (1 + k)⟩
  free : ∀ a, 5 + k < a → s.backends.mem.live a = false
  tails : (s.backends.mem.tail 1).tag = 1 ∧ (s.backends.mem.tail 2).tag = 0
  taken : s.history.taken = passedState.history.taken

theorem grown_passedState : Grown 0 passedState where
  idle := ⟨rfl, rfl⟩
  reader := ⟨rfl, rfl⟩
  last := rfl
  tail := rfl
  free a ha := by
    have hlive : passedState.backends.mem.live a = update (update (update
        (fun a => decide (1 ≤ a ∧ a ≤ 3)) 4 true) 5 true) 2 false a := rfl
    rw [hlive, update_of_ne (by omega), update_of_ne (by omega), update_of_ne (by omega)]
    simp
    omega
  tails := ⟨rfl, rfl⟩
  taken := rfl

theorem Grown.put {k : Nat} {s : Container 3 (Fin 3) Unit} (h : Grown k s) :
    Grown (k + 1) (s.afterPut 0 0 () (6 + k)) ∧
      (container registered).exec Free s (putLabels 0 () (6 + k)) =
        some (s.afterPut 0 0 () (6 + k)) := by
  have htail : (s.backends.mem.tail 0).value = 5 + k := by rw [h.tail]
  have hne : 6 + k ≠ (s.backends.mem.tail 0).value := by omega
  have hfresh : 6 + k ≠ 0 := by omega
  have hfree : s.backends.mem.live (6 + k) = false := h.free _ (by omega)
  refine ⟨⟨h.idle, h.reader, ?_, ?_, fun a ha => ?_, h.tails, ?_⟩, ?_⟩
  · simp [Container.afterPut, appended, update_of_ne hne]
  · simp only [Container.afterPut, appended, update_self, h.tail, TaggedPtr.mk.injEq]
    refine ⟨by omega, ?_⟩
    rw [← Nat.add_assoc]
    exact (BitVec.ofNat_add _ 1).symm
  · have hnew : a ≠ 6 + k := by omega
    exact (update_of_ne hnew _ _).trans (h.free a (by omega))
  · rw [← h.taken]
    exact funext fun _ => if_pos rfl
  · exact put_steps () rfl h.idle.1 h.idle.2 h.last hfresh hfree hne

theorem grown_steps (k : Nat) : ∃ ls s,
    (container registered).Steps Free passedState ls s ∧ Grown k s := by
  induction k with
  | zero => exact ⟨[], _, .refl, grown_passedState⟩
  | succ k ih =>
      obtain ⟨ls, s, hsteps, hgrown⟩ := ih
      exact ⟨_, _, hsteps.trans (steps_of_exec hgrown.put.2), hgrown.put.1⟩

/-- The tail of thread 0's backend moves `2 ^ 16` times between the two
passes. At every instant of the call there is an element that could have been
removed. -/
theorem get_false_wraps : ¬ ∀ (ls ms : List (Label 3 (Fin 3) Unit))
    (s s₀ s' : Container 3 (Fin 3) Unit) (t : Fin 3) (element element' : Item (Fin 3) Unit),
    (container registered).Run Free ls s → s.next registered (.get t element) = some s₀ →
      (container registered).Steps Free s₀ ms s' → s'.callers t = .getDone element' false →
        (container registered).Through Free Container.Emptied s₀ ms s' := by
  intro hall
  have hrun : (container registered).Run Free beforeRun beforeState :=
    run_of_exec initial_emptyContainer _
  have hcall : beforeState.next registered (.get 2 ⟨2, 0, ()⟩) = some calledState :=
    (Option.some_get _).symm
  have hhalf : (container registered).Steps Free calledState halfPass halfState :=
    steps_of_exec (Option.some_get _).symm
  have hrest : (container registered).Steps Free halfState restPass passedState :=
    steps_of_exec (Option.some_get _).symm
  obtain ⟨puts, s, hputs, hgrown⟩ := grown_steps (2 ^ 16 - 1)
  obtain ⟨tailsStates, hc, htags⟩ : ∃ tailsStates,
      passedState.callers 2 = .second ⟨2, 0, ()⟩ 0 0 tailsStates ∧
        tailsStates 0 = 0 ∧ tailsStates 1 = 1 ∧ tailsStates 2 = 0 :=
    ⟨_, rfl, rfl, rfl, rfl⟩
  obtain ⟨check, s', hcheck, hfalse, hhistory⟩ :
      ∃ ls s', (container registered).Steps Free s ls s' ∧
        s'.callers 2 = .getDone ⟨2, 0, ()⟩ false ∧ s'.history = s.history := by
    refine second_steps (fun j hj => ?_) (by omega) (hgrown.reader.1.trans hc) hgrown.reader.2
    match j with
    | 0 => exact (congrArg TaggedPtr.tag hgrown.tail).trans htags.1.symm
    | 1 => exact hgrown.tails.1.trans htags.2.1.symm
    | 2 => exact hgrown.tails.2.trans htags.2.2.symm
  have hthrough := hall _ _ _ _ _ 2 _ _ hrun hcall
    (hhalf.trans ((hrest.trans hputs).trans hcheck)) hfalse
  rcases hthrough.split hhalf with hfirst | hsecond
  · refine not_through_emptied (e := ⟨1, 0, ()⟩) ?_ (fun q => ?_) hfirst
    · decide +kernel
    · revert q
      decide +kernel
  · refine not_through_emptied (e := ⟨0, 0, ()⟩) ?_ (fun q => ?_) hsecond
    · decide +kernel
    · rw [hhistory, hgrown.taken]
      revert q
      decide +kernel

end Libni.DistributedMSQueue
