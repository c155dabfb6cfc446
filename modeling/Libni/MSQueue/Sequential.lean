import Libni.MSQueue.Steps

/-!
Calls that do not overlap: each is run to its end before the next one, and no weak
compare-exchange fails spuriously. Between two such calls the tail of every queue is
its last node, so the four operations take their short ways, and `try_push` and
`try_pop` can be compared with `push` and `pop`.
-/

namespace Libni.MSQueue

open Function Libni.Transition Libni.Transition.System

section Finish

variable {κ α : Type*} [DecidableEq κ]

omit [DecidableEq κ] in
def Local.result : Local κ α → Option (Res α)
  | .done r => some r
  | _ => none

/-- Running an operation to its end, with fuel for the accesses left. -/
def finish (fresh : Addr) : (fuel : Nat) → Mem κ α → Local κ α → Option (Mem κ α × Res α)
  | 0, m, l => l.result.map fun r => (m, r)
  | fuel + 1, m, l =>
      match localStep m fresh false l with
      | some (m', l') => finish fresh fuel m' l'
      | none => l.result.map fun r => (m, r)

/-- The operation ends with this memory and result. -/
def Finishes (fresh : Addr) (m : Mem κ α) (l : Local κ α) (out : Mem κ α × Res α) : Prop :=
  ∃ fuel, finish fresh fuel m l = some out

variable {fresh : Addr} {m m' : Mem κ α} {l l' : Local κ α} {out out' : Mem κ α × Res α}
  {fuel fuel' : Nat}

theorem localStep_of_result {r : Res α} {spurious : Bool} (h : l.result = some r) :
    localStep m fresh spurious l = none := by
  cases l with
  | done => rfl
  | _ => cases h

theorem finish_mono (h : finish fresh fuel m l = some out) :
    finish fresh (fuel + 1) m l = some out := by
  induction fuel generalizing m l with
  | zero =>
      obtain ⟨r, hr, -⟩ := Option.map_eq_some_iff.mp h
      rw [finish, localStep_of_result hr]
      exact h
  | succ fuel ih =>
      rw [finish] at h ⊢
      split at h
      · next hstep => exact ih h
      · exact h

theorem finish_le (h : finish fresh fuel m l = some out) (hle : fuel ≤ fuel') :
    finish fresh fuel' m l = some out := by
  induction hle with
  | refl => exact h
  | step _ ih => exact finish_mono ih

/-- A call ends in one way only, since nothing else runs and no exchange
fails. -/
theorem Finishes.unique (h : Finishes fresh m l out) (h' : Finishes fresh m l out') :
    out = out' := by
  obtain ⟨fuel, hfuel⟩ := h
  obtain ⟨fuel', hfuel'⟩ := h'
  have hmore := finish_le hfuel (Nat.le_max_left fuel fuel')
  rw [finish_le hfuel' (Nat.le_max_right fuel fuel')] at hmore
  exact Option.some.inj hmore.symm

theorem Finishes.step (hstep : localStep m fresh false l = some (m', l'))
    (h : Finishes fresh m l out) : Finishes fresh m' l' out := by
  obtain ⟨fuel, hfuel⟩ := h
  have hmore := finish_mono hfuel
  rw [finish, hstep] at hmore
  exact ⟨fuel, hmore⟩

theorem not_finishes (hstep : localStep m fresh false l = none) (hresult : l.result = none) :
    ¬ Finishes fresh m l out := by
  rintro ⟨fuel, hfuel⟩
  have hmore := finish_mono hfuel
  rw [finish, hstep, hresult] at hmore
  cases hmore

end Finish

section Settled

variable {κ α : Type*}

/-- The memory between two calls: the tail of every queue is its last node. A
call that links a node also moves the tail. -/
structure Settled (m : Mem κ α) : Prop where
  shape : Shape m
  last : ∀ q, m.nextAddr (m.tail q).value = 0

variable {m m' : Mem κ α} {fresh : Addr} {q : κ} {e : α}

theorem Settled.contents_eq_nil_iff (h : Settled m) :
    m.contents q = [] ↔ (m.head q).value = (m.tail q).value := by
  constructor
  · intro hempty
    by_contra hne
    obtain ⟨rest, -, hcontents⟩ :=
      h.shape.contents_cons (h.shape.next_ne_of_tail_ne (Ne.symm hne))
    rw [hempty] at hcontents
    cases hcontents
  · intro heq
    apply h.shape.contents_nil
    rw [heq]
    exact h.last q

theorem tail_new (hnew : m.new fresh e = some m') : m'.tail = m.tail := by
  obtain ⟨-, rfl⟩ := Mem.new_eq_some.mp hnew
  rfl

theorem Settled.next_new (h : Settled m) (hnew : m.new fresh e = some m') :
    (m'.heap (m.tail q).value).next = (m.heap (m.tail q).value).next := by
  have hne := h.shape.ne_of_new hnew (h.shape.tail_mem q)
  obtain ⟨-, rfl⟩ := Mem.new_eq_some.mp hnew
  change (update m.heap fresh _ (m.tail q).value).next = _
  rw [update_of_ne hne]

theorem Settled.new (h : Settled m) (hnew : m.new fresh e = some m') : Settled m' where
  shape := h.shape.new hnew
  last q := by
    rw [Mem.nextAddr, tail_new hnew, h.next_new hnew]
    exact h.last q

variable [DecidableEq κ]

/-- A node is linked behind the last one, and the tail moved to it. -/
def Mem.append (m : Mem κ α) (q : κ) (node : Addr) : Mem κ α :=
  (m.setNext (m.tail q).value ⟨node, (m.heap (m.tail q).value).next.tag + 1⟩).setTail q
    ⟨node, (m.tail q).tag + 1⟩

/-- The head moves to the next node, and the old one is deleted. -/
def Mem.remove (m : Mem κ α) (q : κ) : Mem κ α :=
  (m.setHead q ⟨m.nextAddr (m.head q).value, (m.head q).tag + 1⟩).delete (m.head q).value

theorem Settled.append (h : Settled m) (hnew : m.new fresh e = some m') :
    Settled (m'.append q fresh) := by
  have h' := h.new hnew
  have hnodes := h.shape.nodes_new hnew
  have hout (q' : κ) : fresh ∉ m'.nodes q' := by
    rw [hnodes]
    exact fun hmem => h.shape.ne_of_new hnew hmem rfl
  have hne : fresh ≠ (m'.tail q).value := by
    rintro rfl
    exact hout q (h'.shape.tail_mem q)
  have hnull := Mem.nextAddr_new_self hnew
  have hlive : fresh ≠ 0 ∧ m'.live fresh = true := by
    obtain ⟨⟨hzero, -⟩, rfl⟩ := Mem.new_eq_some.mp hnew
    exact ⟨hzero, update_self _ _ _⟩
  have hlinked := h'.shape.link (t := (m'.heap (m'.tail q).value).next.tag + 1)
    (h'.shape.tail_mem q) (h'.last q) rfl hlive.1 hnull hout hlive.2
  have hnext := Mem.nextAddr_setNext_self (m := m') (m'.tail q).value
    ⟨fresh, (m'.heap (m'.tail q).value).next.tag + 1⟩
  have hmoved := hlinked.setTail (q := q) (t := (m'.tail q).tag + 1) (hnext.trans_ne hlive.1)
  refine ⟨?_, fun q' => ?_⟩
  · rw [Mem.tail_setNext, hnext] at hmoved
    exact hmoved
  · by_cases hq : q' = q
    · subst hq
      rw [Mem.append, Mem.tail_setTail_self, Mem.nextAddr_setTail, Mem.nextAddr_setNext_of_ne _ hne]
      exact hnull
    · rw [Mem.append, Mem.tail_setTail_of_ne _ hq, Mem.nextAddr_setTail]
      rw [Mem.tail_setNext, Mem.nextAddr_setNext_of_ne]
      · exact h'.last q'
      · intro heq
        have hmem := h'.shape.tail_mem q'
        rw [heq] at hmem
        exact hq (h'.shape.disjoint q' q _ hmem (h'.shape.tail_mem q))

theorem Settled.remove (h : Settled m) (hne : (m.head q).value ≠ (m.tail q).value) :
    Settled (m.remove q) := by
  have hmoved := h.shape.setHead (t := (m.head q).tag + 1) (Ne.symm hne)
  refine ⟨hmoved.delete fun q' hmem => ?_, h.last⟩
  rw [h.shape.nodes_setHead] at hmem
  by_cases hq : q' = q
  · subst hq
    rw [update_self] at hmem
    obtain ⟨rest, hnodes, -⟩ := h.shape.nodes_cons q'
    have hnodup := (h.shape.chain q').nodup
    rw [hnodes] at hmem hnodup
    exact (List.nodup_cons.mp hnodup).1 hmem
  · rw [update_of_ne hq] at hmem
    exact hq (h.shape.disjoint q' q _ hmem (h.shape.head_mem q))

end Settled

section Calls

variable {κ α : Type*} [DecidableEq κ] {m m' : Mem κ α} {fresh : Addr} {q : κ} {e x : α}
  {headState : Option Tag} {s st : Tag}

/-- A `push` that is not interrupted goes through its loop once. -/
theorem Settled.finishes_push (h : Settled m) (hnew : m.new fresh e = some m') :
    Finishes fresh m (start (.push q e)) (m'.append q fresh, .pushed true) := by
  have hlast : (m'.heap (m'.tail q).value).next.value = 0 := (h.new hnew).last q
  refine ⟨6, ?_⟩
  simp [finish, localStep, start, pushStep, hnew, hlast, Mem.append, Mem.casTail, Local.result]

/-- With the tag of the tail, `try_push` does what `push` does. -/
theorem Settled.finishes_tryPush (h : Settled m) (hnew : m.new fresh e = some m') :
    Finishes fresh m (start (.tryPush q e (m.tail q).tag)) (m'.append q fresh, .pushed true) := by
  have hlast : (m.heap (m.tail q).value).next.value = 0 := h.last q
  have hnext := h.next_new hnew (q := q)
  have htail := tail_new hnew
  refine ⟨5, ?_⟩
  simp [finish, localStep, start, tryPushStep, hnew, hlast, hnext, htail, Mem.append, Mem.casTail,
    Local.result]

theorem finishes_tryPush_refused (hs : s ≠ (m.tail q).tag) :
    Finishes fresh m (start (.tryPush q e s)) (m, .pushed false) := by
  refine ⟨1, ?_⟩
  simp [finish, localStep, start, tryPushStep, hs.symm, Local.result]

/-- A `pop` from a queue whose tail has left the head removes the front
element, and stores the tag the head had. -/
theorem finishes_pop (hne : (m.head q).value ≠ (m.tail q).value) :
    Finishes fresh m (start (.pop q x headState))
      (m.remove q, .popped true (m.heap (m.nextAddr (m.head q).value)).value
        (headState.map fun _ => (m.head q).tag)) := by
  refine ⟨7, ?_⟩
  simp [finish, localStep, start, popStep, hne, Mem.remove, Mem.nextAddr, Local.result]

/-- `try_pop` with the tag of the head removes the same element, but does not
store the tag. -/
theorem finishes_tryPop (hne : (m.head q).value ≠ (m.tail q).value) :
    Finishes fresh m (start (.tryPop q x (m.head q).tag st))
      (m.remove q, .tryPopped .success (m.heap (m.nextAddr (m.head q).value)).value st) := by
  refine ⟨6, ?_⟩
  simp [finish, localStep, start, tryPopStep, hne, Mem.remove, Mem.nextAddr, Local.result]

theorem Settled.finishes_pop_empty (h : Settled m) (heq : (m.head q).value = (m.tail q).value) :
    Finishes fresh m (start (.pop q x headState))
      (m, .popped false x (headState.map fun _ => (m.tail q).tag)) := by
  have hlast : (m.heap (m.tail q).value).next.value = 0 := h.last q
  refine ⟨4, ?_⟩
  simp [finish, localStep, start, popStep, heq, hlast, Local.result]

theorem Settled.finishes_tryPop_empty (h : Settled m)
    (heq : (m.head q).value = (m.tail q).value) :
    Finishes fresh m (start (.tryPop q x (m.head q).tag st))
      (m, .tryPopped .emptyQueue x (m.tail q).tag) := by
  have hlast : (m.heap (m.tail q).value).next.value = 0 := h.last q
  refine ⟨3, ?_⟩
  simp [finish, localStep, start, tryPopStep, heq, hlast, Local.result]

theorem finishes_tryPop_refused (hs : s ≠ (m.head q).tag) :
    Finishes fresh m (start (.tryPop q x s st)) (m, .tryPopped .failure x st) := by
  refine ⟨3, ?_⟩
  simp [finish, localStep, start, tryPopStep, hs.symm, Local.result]

theorem finishes_empty :
    Finishes fresh m (start (.empty q))
      (m, .isEmpty (decide ((m.head q).value = (m.tail q).value ∧
        (m.heap (m.head q).value).next.value = 0))) := by
  refine ⟨4, ?_⟩
  simp [finish, localStep, start, emptyStep, Local.result]

theorem finishes_tailState :
    Finishes fresh m (start (.tailState q)) (m, .state (m.tail q).tag) :=
  ⟨1, rfl⟩

/-- `push` and, with the tag of the tail, `try_push` end only with an
allocation. -/
theorem Settled.new_of_finishes {out : Mem κ α × Res α} (h : Settled m)
    (hfinish : Finishes fresh m (start (.push q e)) out ∨
      Finishes fresh m (start (.tryPush q e (m.tail q).tag)) out) :
    ∃ m', m.new fresh e = some m' := by
  by_contra! hnone
  have hnew : m.new fresh e = none := Option.eq_none_iff_forall_not_mem.mpr hnone
  have hlast : (m.heap (m.tail q).value).next.value = 0 := h.last q
  rcases hfinish with hpush | hpush
  · exact not_finishes (by simp [start, localStep, pushStep, hnew]) rfl hpush
  · have hload := hpush.step (by simp [start, localStep, tryPushStep]; exact ⟨rfl, rfl⟩)
    have hnext := hload.step (by simp [localStep, tryPushStep, hlast]; exact ⟨rfl, rfl⟩)
    exact not_finishes (by simp [localStep, tryPushStep, hnew]) rfl hnext

theorem Settled.call {op : Op κ α} {out : Mem κ α × Res α} (h : Settled m)
    (hfinish : Finishes fresh m (start op) out) : Settled out.1 := by
  cases op with
  | push q e =>
      obtain ⟨m', hnew⟩ := h.new_of_finishes (.inl hfinish)
      rw [hfinish.unique (h.finishes_push hnew)]
      exact h.append hnew
  | tryPush q e s =>
      by_cases hs : s = (m.tail q).tag
      · subst hs
        obtain ⟨m', hnew⟩ := h.new_of_finishes (.inr hfinish)
        rw [hfinish.unique (h.finishes_tryPush hnew)]
        exact h.append hnew
      · rw [hfinish.unique (finishes_tryPush_refused hs)]
        exact h
  | pop q x headState =>
      by_cases heq : (m.head q).value = (m.tail q).value
      · rw [hfinish.unique (h.finishes_pop_empty heq)]
        exact h
      · rw [hfinish.unique (finishes_pop heq)]
        exact h.remove heq
  | tryPop q x s st =>
      by_cases hs : s = (m.head q).tag
      · subst hs
        by_cases heq : (m.head q).value = (m.tail q).value
        · rw [hfinish.unique (h.finishes_tryPop_empty heq)]
          exact h
        · rw [hfinish.unique (finishes_tryPop heq)]
          exact h.remove heq
      · rw [hfinish.unique (finishes_tryPop_refused hs)]
        exact h
  | empty q =>
      rw [hfinish.unique finishes_empty]
      exact h
  | tailState q =>
      rw [hfinish.unique finishes_tailState]
      exact h

end Calls

section Sequential

/-- A call with the address `new` returns in it, if it allocates. The fuel
bounds its accesses, and a call that needs more does not take place. -/
structure Call (κ α : Type*) where
  op : Op κ α
  fresh : Addr
  fuel : Nat

variable {κ α : Type*} [DecidableEq κ]

variable (κ α) in
def sequential : System (Mem κ α) (Call κ α) where
  init m := Initial (⟨m, fun _ => .idle⟩ : State κ Unit α)
  next m c := (finish c.fresh c.fuel m (start c.op)).map Prod.fst

/-- Between completed calls memory is settled, by induction over the calls. -/
theorem settled_of_reach {m : Mem κ α} (h : (sequential κ α).Reach Free m) : Settled m := by
  refine h.invariant (fun m hm => ⟨hm.inv.shape, fun q => ?_⟩) fun m c m' hm _ hnext => ?_
  · have hnext : (m.heap (m.head q).value).next = .null := hm.next_null q
    have htail : m.tail q = m.head q := hm.tail_eq q
    rw [Mem.nextAddr, htail, hnext]
    rfl
  · obtain ⟨out, hfinish, rfl⟩ := Option.map_eq_some_iff.mp hnext
    exact hm.call ⟨c.fuel, hfinish⟩

section Interleaved

variable [DecidableEq α] {fresh : Addr} {fuel : Nat} {out : Mem κ α × Res α}

omit [DecidableEq κ] [DecidableEq α] in
theorem state_of_result {τ : Type*} [DecidableEq τ] {s : State κ τ α} {t : τ}
    (h : (s.threads t).result.map (fun r => (s.mem, r)) = some out) :
    s = ⟨out.1, update s.threads t (.done out.2)⟩ := by
  obtain ⟨r, hr, rfl⟩ := Option.map_eq_some_iff.mp h
  have hdone : s.threads t = .done r := by
    unfold Local.result at hr
    split at hr
    · next heq => rw [heq, Option.some.inj hr]
    · cases hr
  rw [← hdone, update_eq_self]

/-- A call that is run to its end is a sequence of steps of one thread. So
sequences of calls are runs of the concurrent system. -/
theorem finish_steps {τ : Type*} [DecidableEq τ] {s : State κ τ α} {t : τ}
    (h : finish fresh fuel s.mem (s.threads t) = some out) :
    ∃ n, (system κ τ α).Steps Free s (List.replicate n (.step t fresh false))
      ⟨out.1, update s.threads t (.done out.2)⟩ := by
  induction fuel generalizing s with
  | zero =>
      refine ⟨0, ?_⟩
      rw [← state_of_result h]
      exact .refl
  | succ fuel ih =>
      rw [finish] at h
      split at h
      · next m' l' hstep =>
          have hnext : (system κ τ α).next s (.step t fresh false) =
              some ⟨m', update s.threads t l'⟩ := by
            simp [system, next, hstep]
          obtain ⟨n, hsteps⟩ := ih (s := ⟨m', update s.threads t l'⟩) (by simpa using h)
          rw [update_idem] at hsteps
          have hfirst : (system κ τ α).Steps Free s [.step t fresh false] _ :=
            Steps.snoc .refl trivial hnext
          exact ⟨n + 1, hfirst.trans hsteps⟩
      · refine ⟨0, ?_⟩
        rw [← state_of_result h]
        exact .refl

/-- Sequences of completed calls are runs of the queues with one thread. -/
theorem reach_of_sequential {m : Mem κ α} (h : (sequential κ α).Reach Free m) :
    (system κ Unit α).Reach Free ⟨m, fun _ => .idle⟩ := by
  refine h.invariant (I := fun m => (system κ Unit α).Reach Free ⟨m, fun _ => .idle⟩)
    (fun m hm => .of_init hm) fun m c m' hm _ hnext => ?_
  obtain ⟨out, hfinish, rfl⟩ := Option.map_eq_some_iff.mp hnext
  have hone (f : Unit → Local κ α) (l : Local κ α) : update f () l = fun _ => l :=
    funext fun _ => update_self _ _ _
  have hcall : (system κ Unit α).next ⟨m, fun _ => .idle⟩ (.call () c.op) =
      some ⟨m, fun _ => start c.op⟩ := by
    simp only [system, next, hone]
  obtain ⟨n, hsteps⟩ := finish_steps (s := ⟨m, fun _ => start c.op⟩) (t := ()) hfinish
  have hret : (system κ Unit α).next ⟨out.1, update (fun _ => start c.op) () (.done out.2)⟩
      (.ret () out.2) = some ⟨out.1, fun _ => .idle⟩ := by
    simp only [system, next, hone, if_pos]
  exact ((hm.step trivial hcall).trans hsteps).step trivial hret

end Interleaved

end Sequential

section Agree

variable {κ α : Type*} [DecidableEq κ] {m : Mem κ α} {q : κ} {x : α} {st : Tag}

/-- How a call of `pop` with a state pointer reads as one of `try_pop`. -/
def popOutcome (ok : Bool) : PopResult := if ok then .success else .emptyQueue

/-- The two operations that may fail agree with the two that do not, where the
caller's variables hold `x` and `st`. -/
structure TriesAgree (m : Mem κ α) (q : κ) (x : α) (st : Tag) : Prop where
  try_push : ∀ fresh e, fresh ≠ 0 → m.live fresh = false → ∃ m',
    Finishes fresh m (start (.push q e)) (m', .pushed true) ∧
      Finishes fresh m (start (.tryPush q e (m.tail q).tag)) (m', .pushed true)
  try_push_refused : ∀ fresh e s, s ≠ (m.tail q).tag →
    Finishes fresh m (start (.tryPush q e s)) (m, .pushed false)
  try_pop : ∀ fresh, ∃ m' ok x' st',
    Finishes fresh m (start (.pop q x (some st))) (m', .popped ok x' (some st')) ∧
      Finishes fresh m (start (.tryPop q x (m.head q).tag st)) (m', .tryPopped (popOutcome ok) x' st')
  try_pop_refused : ∀ fresh s, s ≠ (m.head q).tag →
    Finishes fresh m (start (.tryPop q x s st)) (m, .tryPopped .failure x st)

/-- The one difference is the head state, which `try_pop` does not store when
it succeeds. -/
theorem Settled.agree_iff (h : Settled m) :
    TriesAgree m q x st ↔ (m.head q).value = (m.tail q).value ∨ st = (m.head q).tag := by
  constructor
  · intro hagree
    by_contra! hboth
    obtain ⟨hne, hst⟩ := hboth
    obtain ⟨m', ok, x', st', hpop, htry⟩ := hagree.try_pop 0
    have hpopped := hpop.unique (finishes_pop hne)
    have htried := htry.unique (finishes_tryPop hne)
    simp only [Option.map_some, Prod.mk.injEq, Res.popped.injEq, Option.some.injEq] at hpopped
    simp only [Prod.mk.injEq, Res.tryPopped.injEq] at htried
    exact hst (htried.2.2.2.symm.trans hpopped.2.2.2)
  · intro hcond
    refine ⟨fun fresh e hzero hlive => ?_, fun _ _ _ => finishes_tryPush_refused, fun fresh => ?_,
      fun _ _ => finishes_tryPop_refused⟩
    · have hnew : m.new fresh e = some _ := Mem.new_eq_some.mpr ⟨⟨hzero, hlive⟩, rfl⟩
      exact ⟨_, h.finishes_push hnew, h.finishes_tryPush hnew⟩
    · by_cases heq : (m.head q).value = (m.tail q).value
      · exact ⟨m, false, x, _, h.finishes_pop_empty heq, h.finishes_tryPop_empty heq⟩
      · obtain rfl := hcond.resolve_left heq
        exact ⟨_, true, _, _, finishes_pop heq, finishes_tryPop heq⟩

/-- Between completed calls, `try_push` agrees with `push`, and `try_pop` with
`pop` if and only if there is nothing to pop or the state it does not report
is already there. -/
theorem tries_agree_iff (h : (sequential κ α).Reach Free m) (q : κ) (x : α) (st : Tag) :
    TriesAgree m q x st ↔ m.contents q = [] ∨ st = (m.head q).tag := by
  have hsettled := settled_of_reach h
  rw [hsettled.contents_eq_nil_iff]
  exact hsettled.agree_iff

def pushOnce : List (Call (Fin 1) Nat) := [⟨.push 0 7, 2, 6⟩]

def oneElement : Mem (Fin 1) Nat :=
  ((sequential (Fin 1) Nat).exec Free (constructed 1 0 : State (Fin 1) Unit Nat).mem pushOnce).get
    (by decide +kernel)

theorem reach_oneElement : (sequential (Fin 1) Nat).Reach Free oneElement :=
  ⟨pushOnce, run_of_exec (initial_constructed 1 0) _⟩

theorem tries_agree_oneElement : TriesAgree oneElement 0 3 0 :=
  (tries_agree_iff reach_oneElement 0 3 0).mpr (.inr (by decide +kernel))

/-- `try_pop` leaves the caller's state 5, where `pop` stores the tag 0. -/
theorem try_pop_keeps_state : ¬ ∀ (m : Mem (Fin 1) Nat) (q : Fin 1) (x : Nat) (st : Tag),
    (sequential (Fin 1) Nat).Reach Free m → TriesAgree m q x st := by
  intro hall
  have hagree := hall oneElement 0 3 5 reach_oneElement
  rcases (settled_of_reach reach_oneElement).agree_iff.mp hagree with hempty | hst
  · exact absurd hempty (by decide +kernel)
  · exact absurd hst (by decide +kernel)

end Agree

end Libni.MSQueue
