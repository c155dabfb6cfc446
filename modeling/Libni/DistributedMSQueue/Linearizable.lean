import Libni.DistributedMSQueue.Callers

/-!
The instant at which the answer false of `get` holds: the end of the first pass
of its last round. While the second pass goes on, each backend whose tail it has
found unchanged is known not to have changed since that instant either.
-/

namespace Libni.DistributedMSQueue

open Function Libni.Transition Libni.Transition.System Libni.MSQueue

section Watching

variable {n : Nat} {τ α : Type*}

/-- What is known in `s`, at turn `i` of the second pass of thread `t`, of the
end `u` of the first pass: of the backends whose tails have been found
unchanged, that they had not moved then. -/
structure Unmoved (s : Container n τ α) (t : τ) (start : Fin n) (i : Nat)
    (tailsStates : Nat → Tag) (u : Container n τ α) : Prop where
  seen_le : ∀ q, s.seen t q ≤ u.history.advances q
  le : ∀ q, u.history.advances q ≤ s.history.advances q
  caught : ∀ q, s.seen t q ≤ (u.history.taken q).length
  passed : ∀ e ∈ u.returned, ∃ q, e ∈ u.history.passed u.backends.mem q
  checked : ∀ j < i, u.history.advances (segmentIndex start j) = s.seen t (segmentIndex start j)
  answer : ∀ tag, s.backends.threads t = .done (.state tag) → tag = tailsStates i →
    u.history.advances (segmentIndex start i) = s.seen t (segmentIndex start i)

variable {s s' u : Container n τ α} {t : τ} {start : Fin n} {i : Nat}
  {tailsStates : Nat → Tag} {e : Item τ α}

/-- After the last turn, everything the tails had passed had been removed.
Each tail has been found where it was seen, so this was so at one instant for
all. -/
theorem Unmoved.emptied (h : Unmoved s t start i tailsStates u)
    (hall : ∀ j < n, u.history.advances (segmentIndex start j) =
      s.seen t (segmentIndex start j)) : u.Emptied := by
  intro e he
  obtain ⟨q, hq⟩ := h.passed e he
  obtain ⟨j, hj, rfl⟩ := segmentIndex_surj start q
  refine ⟨segmentIndex start j, ?_⟩
  rw [History.passed, hall j hj, History.log,
    List.take_append_of_le_length (h.caught _)] at hq
  exact List.mem_of_mem_take hq

/-- The end of the first pass is past, so what is known of it stays true while
others go on. -/
theorem Unmoved.keeps (h : Unmoved s t start i tailsStates u) (hseen : s'.seen t = s.seen t)
    (hthread : s'.backends.threads t = s.backends.threads t)
    (hle : ∀ q, s.history.advances q ≤ s'.history.advances q) :
    Unmoved s' t start i tailsStates u where
  seen_le q := by rw [hseen]; exact h.seen_le q
  le q := (h.le q).trans (hle q)
  caught q := by rw [hseen]; exact h.caught q
  passed := h.passed
  checked j hj := by rw [hseen]; exact h.checked j hj
  answer tag htag heq := by
    rw [hthread] at htag
    rw [hseen]
    exact h.answer tag htag heq

theorem Inv.unmoved (h : Inv s) (hthread : s.backends.threads t = .tailState (segmentIndex start 0))
    (hobs : ∀ j < n, Observed s.history (s.seen t) (segmentIndex start j) (tailsStates j)) :
    Unmoved s t start 0 tailsStates s where
  seen_le := h.seen_le t
  le _ := Nat.le_refl _
  caught q := by
    obtain ⟨j, hj, rfl⟩ := segmentIndex_surj start q
    exact (hobs j hj).2
  passed := h.returned
  checked j hj := absurd hj (Nat.not_lt_zero j)
  answer tag htag _ := by
    rw [hthread] at htag
    cases htag

/-- Tags that agree belong to tails that have moved equally often, unless one
has moved a nonzero multiple of `2 ^ 16` times more. -/
theorem eq_of_tags {a b : Nat} (hle : b ≤ a)
    (htag : BitVec.ofNat 16 a = BitVec.ofNat 16 b) (hwrap : (a - b) % 2 ^ 16 = 0 → a = b) :
    a = b := by
  have hmod := congrArg BitVec.toNat htag
  simp only [BitVec.toNat_ofNat] at hmod
  apply hwrap
  omega

variable [DecidableEq τ] [DecidableEq α] {backend : τ → Option (Fin n)}
  {s₀ : Container n τ α} {ls : List (Label n τ α)}

variable (backend) in
/-- What the run from `s₀` to `s` says of a thread that is in the second pass
or has answered false: it went through the end of a first pass of which the
above is known. -/
def Watching (s₀ : Container n τ α) (ls : List (Label n τ α)) (s : Container n τ α) (t : τ) :
    Prop :=
  match s.callers t with
  | .second _ start i tailsStates =>
      (container backend).Through (NoWrap t) (Unmoved s t start i tailsStates) s₀ ls s
  | .getDone _ false => (container backend).Through (NoWrap t) Container.Emptied s₀ ls s
  | _ => True

/-- A step that does not concern thread `t`: it leaves the thread where it is
and takes no move of a tail back. -/
structure Frame (t : τ) (s s' : Container n τ α) : Prop where
  caller : s'.callers t = s.callers t
  seen : s'.seen t = s.seen t
  thread : s'.backends.threads t = s.backends.threads t
  le : ∀ q, s.history.advances q ≤ s'.history.advances q

omit [DecidableEq α] in
theorem Frame.settle {v : τ} {c : Caller n τ α} (hv : t ≠ v) : Frame t s (s.settle v c) :=
  ⟨update_of_ne hv _ _, rfl, update_of_ne hv _ _, fun _ => Nat.le_refl _⟩

omit [DecidableEq α] in
theorem Frame.invoke {v : τ} {c : Caller n τ α} {op : Op (Fin n) (Item τ α)} (hv : t ≠ v) :
    Frame t s (s.invoke v c op) :=
  ⟨update_of_ne hv _ _, rfl, update_of_ne hv _ _, fun _ => Nat.le_refl _⟩

omit [DecidableEq α] in
theorem Frame.firstTurn {v : τ} (hv : t ≠ v) :
    Frame t s (s.firstTurn v e start i tailsStates) := by
  unfold Container.firstTurn
  split <;> exact .invoke hv

omit [DecidableEq α] in
theorem Frame.secondTurn {v : τ} (hv : t ≠ v) :
    Frame t s (s.secondTurn v e start i tailsStates) := by
  unfold Container.secondTurn
  split
  · exact .invoke hv
  · exact .settle hv

omit [DecidableEq α] in
theorem Frame.resume {v : τ} (hv : t ≠ v) {c : Caller n τ α} {r : Res (Item τ α)}
    (hnext : s.resume v c r = some s') : Frame t s s' := by
  unfold Container.resume at hnext
  split at hnext
  · cases hnext
    exact .settle hv
  · cases hnext
    exact .settle hv
  · cases hnext
    exact .settle hv
  · cases hnext
    exact .settle hv
  · cases hnext
    exact .firstTurn hv
  · split at hnext <;> cases hnext
    · exact .secondTurn hv
    · exact .settle hv
  · cases hnext

theorem Frame.access {v : τ} {fresh : Addr} (hv : t ≠ v)
    (hnext : s.access v fresh = some s') : Frame t s s' := by
  simp only [Container.access, MSQueue.next, Option.map_map, Option.map_eq_some_iff,
    Function.comp_apply] at hnext
  obtain ⟨⟨m', l'⟩, -, rfl⟩ := hnext
  exact ⟨rfl, update_of_ne hv _ _, update_of_ne hv _ _, fun q => s.history.advances_le q⟩

/-- A step of another thread is of this kind, whatever it does. -/
theorem Frame.next {l : Label n τ α} (hl : t ≠ l.thread)
    (hnext : s.next backend l = some s') : Frame t s s' := by
  cases l with
  | put v value =>
      simp only [Container.next] at hnext
      split at hnext <;> cases hnext
      exact ⟨update_of_ne hl _ _, rfl, update_of_ne hl _ _, fun _ => Nat.le_refl _⟩
  | get v element =>
      simp only [Container.next] at hnext
      split at hnext <;> cases hnext
      · exact .invoke hl
      · exact .settle hl
  | round v start =>
      simp only [Container.next] at hnext
      split at hnext <;> cases hnext
      exact .firstTurn hl
  | step v fresh =>
      simp only [Container.next] at hnext
      split at hnext
      · exact .resume hl hnext
      · split at hnext
        · split at hnext <;> cases hnext
          exact .settle hl
        · cases hnext
      · exact .access hl hnext
  | ret v =>
      simp only [Container.next] at hnext
      split at hnext <;> cases hnext <;>
        exact ⟨update_of_ne hl _ _, rfl, rfl, fun _ => Nat.le_refl _⟩

/-- The step of another thread takes nothing from what is known. -/
theorem Watching.frame {l : Label n τ α} (h : Watching backend s₀ ls s t)
    (hframe : Frame t s s') (hguard : NoWrap t s l) (hnext : s.next backend l = some s') :
    Watching backend s₀ (ls ++ [l]) s' t := by
  unfold Watching at h ⊢
  rw [hframe.caller]
  split at h
  · next hc =>
      exact h.snoc hguard hnext fun u hu => hu.keeps hframe.seen hframe.thread hframe.le
  · next hc => exact h.snoc hguard hnext fun _ hu => hu
  · trivial

/-- A thread that is neither in the second pass nor has answered false. -/
theorem Watching.trivial_of {c : Caller n τ α} (hc : s.callers t = c)
    (hnot : match c with
      | .second _ _ _ _ | .getDone _ false => False
      | _ => True) : Watching backend s₀ ls s t := by
  unfold Watching
  rw [hc]
  split
  · exact hnot.elim
  · exact hnot.elim
  · trivial

theorem Watching.load {fresh : Addr} {e : Item τ α} (h : Watching backend s₀ ls s t)
    (hinv : Inv s) (hguard : NoWrap t s (.step t fresh))
    (hnext : s.next backend (.step t fresh) = some s')
    (hc : s.callers t = .second e start i tailsStates)
    (hl : s.backends.threads t = .tailState (segmentIndex start i)) :
    Watching backend s₀ (ls ++ [.step t fresh]) s' t := by
  have hok := hinv.caller t
  rw [hc] at hok
  obtain ⟨hi, -, hobs⟩ := hok
  have hstep := hnext
  simp only [Container.next, hl, Container.access, MSQueue.next, localStep, Option.map_some,
    Option.some.injEq, look] at hstep
  unfold Watching at h ⊢
  rw [hc] at h
  subst hstep
  simp only [hc]
  refine h.snoc hguard hnext fun u hu => ?_
  refine ⟨by simpa using hu.seen_le, by simpa using hu.le, by simpa using hu.caught, hu.passed,
    by simpa using hu.checked, fun tag htag heq => ?_⟩
  simp only [update_self, Local.done.injEq, Res.state.injEq] at htag ⊢
  have hwrap := hguard.2 rfl _ hl
  have htags : BitVec.ofNat 16 (s.history.advances (segmentIndex start i)) =
      BitVec.ofNat 16 (s.seen t (segmentIndex start i)) := by
    rw [← hinv.recorded.tail_tag, ← (hobs i hi).1, ← heq, ← htag]
  have hnow := eq_of_tags (hinv.seen_le t _) htags hwrap
  exact Nat.le_antisymm ((hu.le _).trans (Nat.le_of_eq hnow)) (hu.seen_le _)

/-- The answer of a load of the second pass. If the tag is the one stored, the
tail has not moved since, by the condition on the run. -/
theorem Watching.check {fresh : Addr} {tag : Tag} (h : Watching backend s₀ ls s t)
    (hguard : NoWrap t s (.step t fresh)) (hnext : s.next backend (.step t fresh) = some s')
    (hc : s.callers t = .second e start i tailsStates)
    (hl : s.backends.threads t = .done (.state tag)) :
    Watching backend s₀ (ls ++ [.step t fresh]) s' t := by
  have hstep := hnext
  simp only [Container.next, hl, hc, Container.resume] at hstep
  unfold Watching at h
  rw [hc] at h
  split at hstep
  · next heq =>
      have hchecked {u : Container n τ α} (hu : Unmoved s t start i tailsStates u)
          (j : Nat) (hj : j < i + 1) :
          u.history.advances (segmentIndex start j) = s.seen t (segmentIndex start j) := by
        rcases Nat.lt_succ_iff_lt_or_eq.mp hj with hlt | rfl
        · exact hu.checked j hlt
        · exact hu.answer tag hl heq
      simp only [Option.some.injEq] at hstep
      subst hstep
      unfold Watching
      by_cases hlast : i + 1 < n
      · simp only [Container.secondTurn, if_pos hlast, Container.invoke, update_self] at hnext ⊢
        refine h.snoc hguard hnext fun u hu => ?_
        refine ⟨hu.seen_le, hu.le, hu.caught, hu.passed, hchecked hu, fun _ htag => ?_⟩
        simp [MSQueue.start] at htag
      · simp only [Container.secondTurn, if_neg hlast, Container.settle, update_self] at hnext ⊢
        exact h.snoc hguard hnext fun u hu =>
          hu.emptied fun j hj => hchecked hu j (by omega)
  · cases hstep
    exact .trivial_of (update_self _ _ _) trivial

/-- The end of an operation of a backend outside the second pass. -/
theorem Watching.resume {r : Res (Item τ α)} {l : Label n τ α} (hinv : Inv s) (hinv' : Inv s')
    (hsteps : (container backend).Steps (NoWrap t) s₀ (ls ++ [l]) s')
    (hl : s.backends.threads t = .done r)
    (hsecond : ∀ e start i tailsStates, s.callers t ≠ .second e start i tailsStates)
    (hstep : s.resume t (s.callers t) r = some s') :
    Watching backend s₀ (ls ++ [l]) s' t := by
  generalize hc : s.callers t = c at hstep
  have hok := hinv.caller t
  rw [hc, hl] at hok
  unfold Container.resume at hstep
  split at hstep
  · cases hstep
    exact .trivial_of (update_self _ _ _) trivial
  · cases hstep
    exact .trivial_of (update_self _ _ _) trivial
  · cases hstep
    exact .trivial_of (update_self _ _ _) trivial
  · cases hstep
    exact .trivial_of (update_self _ _ _) trivial
  · next element start i tailsStates e headState =>
      simp only [Option.some.injEq] at hstep
      by_cases hlast : i + 1 < n
      · rw [Container.firstTurn, if_pos hlast] at hstep
        subst hstep
        exact .trivial_of (update_self _ _ _) trivial
      · rw [Container.firstTurn, if_neg hlast] at hstep
        have hok' := hinv'.caller t
        subst hstep
        simp only [Container.invoke, update_self] at hok'
        unfold Watching
        simp only [Container.invoke, update_self] at hsteps ⊢
        exact .now hsteps (hinv'.unmoved (update_self _ _ _) hok'.2.2)
  · exact absurd hc (hsecond _ _ _ _)
  · cases hstep

theorem Watching.own {l : Label n τ α} (h : Watching backend s₀ ls s t) (hinv : Inv s)
    (hinv' : Inv s') (hsteps : (container backend).Steps (NoWrap t) s₀ (ls ++ [l]) s')
    (hguard : NoWrap t s l) (hnext : s.next backend l = some s') (ht : l.thread = t) :
    Watching backend s₀ (ls ++ [l]) s' t := by
  subst ht
  cases l with
  | put t value =>
      simp only [Container.next] at hnext
      split at hnext <;> cases hnext
      exact .trivial_of (update_self _ _ _) trivial
  | get t element =>
      simp only [Container.next] at hnext
      split at hnext <;> cases hnext <;> exact .trivial_of (update_self _ _ _) trivial
  | round t start =>
      simp only [Container.next] at hnext
      split at hnext <;> cases hnext
      rw [Container.firstTurn, if_pos (Nat.lt_of_le_of_lt (Nat.zero_le _) start.isLt)]
      exact .trivial_of (update_self _ _ _) trivial
  | ret t =>
      simp only [Container.next] at hnext
      split at hnext <;> cases hnext <;> exact .trivial_of (update_self _ _ _) trivial
  | step t fresh =>
      change Watching backend s₀ ls s t at h
      change Watching backend s₀ _ s' t
      have hok := hinv.caller t
      by_cases hsecond : ∃ e start i tailsStates, s.callers t = .second e start i tailsStates
      · obtain ⟨e, start, i, tailsStates, hc⟩ := hsecond
        rw [hc] at hok
        rcases hok.2.1 with hl | ⟨tag, hl⟩
        · exact h.load hinv hguard hnext hc hl
        · exact h.check hguard hnext hc hl
      · have hother e start i tailsStates : s.callers t ≠ .second e start i tailsStates :=
          fun hc => hsecond ⟨e, start, i, tailsStates, hc⟩
        have hstep := hnext
        simp only [Container.next] at hstep
        split at hstep
        · next r hl => exact Watching.resume hinv hinv' hsteps hl hother hstep
        · next hl =>
            split at hstep
            · split at hstep
              · next hzero =>
                  cases hstep
                  unfold Watching
                  simp only [Container.settle, update_self] at hsteps ⊢
                  refine .now hsteps fun e he => ?_
                  obtain ⟨q, -⟩ := hinv.returned e he
                  exact absurd q.isLt (by omega)
              · cases hstep
            · cases hstep
        · next hbusy =>
            have hcaller : s'.callers t = s.callers t := by
              simp only [Container.access, MSQueue.next, Option.map_map,
                Option.map_eq_some_iff, Function.comp_apply] at hstep
              obtain ⟨_, -, rfl⟩ := hstep
              rfl
            cases hc : s.callers t with
            | second e start i tailsStates => exact absurd hc (hother _ _ _ _)
            | getDone e ok =>
                rw [hc] at hok
                exact absurd hok hbusy
            | _ => exact .trivial_of (hcaller.trans hc) trivial

end Watching

section Main

variable {n : Nat} {τ α : Type*} [DecidableEq τ] [DecidableEq α] {backend : τ → Option (Fin n)}

/-- When a `get` called in `s` has answered false in `s'`, there was a state
in between in which every element whose `put` had returned had been removed.
That state is the end of the first pass of the last round. The tags are
compared modulo `2 ^ 16`, so no tail may move a multiple of that between the
passes. -/
theorem get_false_linearizable {s s₀ s' : Container n τ α} {ls ms : List (Label n τ α)}
    {t : τ} {element element' : Item τ α}
    (hrun : (container backend).Run Unheld ls s)
    (hcall : s.next backend (.get t element) = some s₀)
    (hsteps : (container backend).Steps (NoWrap t) s₀ ms s')
    (hfalse : s'.callers t = .getDone element' false) :
    (container backend).Through (NoWrap t) Container.Emptied s₀ ms s' := by
  have hinv : Inv s := by
    refine hrun.invariant (fun _ => Inv.initial) fun _ _ _ h hguard hnext => h.next hguard hnext
  have hinv₀ : Inv s₀ := hinv.next (l := .get t element) trivial hcall
  have hstart : Watching backend s₀ [] s₀ t := by
    simp only [Container.next] at hcall
    split at hcall <;> cases hcall <;> exact .trivial_of (update_self _ _ _) trivial
  have hwatching : Inv s' ∧ Watching backend s₀ ms s' t := by
    clear hfalse
    induction hsteps with
    | refl => exact ⟨hinv₀, hstart⟩
    | @snoc _ _ _ l hsteps hguard hnext ih =>
        obtain ⟨hinv, hwatch⟩ := ih
        have hinv' := hinv.next hguard.1 hnext
        refine ⟨hinv', ?_⟩
        by_cases ht : t = l.thread
        · exact hwatch.own hinv hinv' (hsteps.snoc hguard hnext) hguard hnext ht.symm
        · exact hwatch.frame (.next ht hnext) hguard hnext
  have hwatch := hwatching.2
  unfold Watching at hwatch
  rw [hfalse] at hwatch
  exact hwatch

def registered : Fin 3 → Option (Fin 3) := some

def emptyContainer : Container 3 (Fin 3) Unit where
  backends := constructed 3 ⟨0, 0, ()⟩
  callers _ := .idle
  puts _ := 0
  history := .start
  seen _ _ := 0
  returned := []

theorem initial_emptyContainer : Initial emptyContainer :=
  ⟨initial_constructed 3 _, fun _ => rfl, fun _ => rfl, rfl, fun _ _ => rfl, rfl⟩

def steps (t : Fin 3) (k : Nat) : List (Label 3 (Fin 3) Unit) := List.replicate k (.step t 0)

def drainedRun : List (Label 3 (Fin 3) Unit) :=
  .put 1 () :: .step 1 4 :: steps 1 6 ++ .ret 1 :: .get 1 ⟨1, 0, ()⟩ :: steps 1 8 ++ [.ret 1]

def drainedState : Container 3 (Fin 3) Unit :=
  ((container registered).exec Unheld emptyContainer drainedRun).get (by decide +kernel)

/-- Thread 2 then looks into all three backends twice. -/
def searchRun : List (Label 3 (Fin 3) Unit) := steps 2 5 ++ .round 2 1 :: steps 2 21

def searchState : Container 3 (Fin 3) Unit :=
  (drainedState.next registered (.get 2 ⟨2, 0, ()⟩)).get (by decide +kernel)

def foundNone : Container 3 (Fin 3) Unit :=
  ((container registered).exec (NoWrap 2) searchState searchRun).get (by decide +kernel)

theorem get_false_linearizable_searchRun :
    (container registered).Through (NoWrap 2) Container.Emptied searchState searchRun
      foundNone := by
  have hrun : (container registered).Run Unheld drainedRun drainedState :=
    run_of_exec initial_emptyContainer _
  have hcall : drainedState.next registered (.get 2 ⟨2, 0, ()⟩) = some searchState :=
    (Option.some_get _).symm
  have hsteps : (container registered).Steps (NoWrap 2) searchState searchRun foundNone :=
    steps_of_exec (Option.some_get _).symm
  have hfalse : foundNone.callers 2 = .getDone ⟨2, 0, ()⟩ false := rfl
  exact get_false_linearizable hrun hcall hsteps hfalse

end Main

end Libni.DistributedMSQueue
