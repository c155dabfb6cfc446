import Libni.MSQueue.History
import Libni.MSQueue.Linearizable

/-!
The tags as counters. `m_head`'s tag counts the nodes removed and `m_tail`'s tag
the position of its node, both modulo 2^16, whoever moves the pointers. So the
`k`-th removal of a queue, if a `pop` makes it, is reported with head state `k`,
and a `pop` that finds the queue empty reports how many nodes had been removed by
then, although it takes that number from the tail's tag.
-/

namespace Libni.MSQueue

open Function Libni.Transition Libni.Transition.System

variable {κ τ α : Type*}

/-- What happened to the queues; the removals of each queue in order, with
what `pop` returned as `head_state` once it has returned; and the last removal
of each thread, as a queue and a position in that order. -/
structure Ledger (κ τ α : Type*) where
  history : History κ α
  takes : κ → List (Option (Option Tag))
  turn : τ → Option (κ × Nat)

def Ledger.start : Ledger κ τ α := ⟨.start, fun _ => [], fun _ => none⟩

/-- The queue whose head the next step of the thread may move. -/
def Local.removes : Local κ α → Option κ
  | .pop q _ _ _ (.casHead _ _) => some q
  | .tryPop q _ _ _ _ (.casHead _ _) => some q
  | _ => none

/-- The last removal of a thread after its step from `m` to `m'`. -/
def Ledger.turnAfter (g : Ledger κ τ α) (m m' : Mem κ α) (t : τ) (l : Local κ α) :
    Option (κ × Nat) :=
  match l.removes with
  | some q => if m'.head q = m.head q then g.turn t else some (q, (g.takes q).length)
  | none => g.turn t

section Step

variable [DecidableEq κ] [DecidableEq τ]

/-- What the ledger notes of a step. It is kept beside the queues and no
operation reads it. -/
def Ledger.see (g : Ledger κ τ α) (s : State κ τ α) (l : Label κ τ α) (s' : State κ τ α) :
    Ledger κ τ α :=
  match l with
  | .call _ _ => g
  | .step t _ _ =>
      { history := g.history.after s.mem s'.mem
        takes := fun q =>
          if s'.mem.head q = s.mem.head q then g.takes q else g.takes q ++ [none]
        turn := update g.turn t (g.turnAfter s.mem s'.mem t (s.threads t)) }
  | .ret t (.popped true _ headState) =>
      match g.turn t with
      | some (q, k) => { g with takes := update g.takes q ((g.takes q).set k (some headState)) }
      | none => g
  | .ret _ _ => g

variable [DecidableEq α]

variable (κ τ α) in
def counted : System (State κ τ α × Ledger κ τ α) (Label κ τ α) :=
  (system κ τ α).observed .start Ledger.see

def Fresh (p : State κ τ α × Ledger κ τ α) (l : Label κ τ α) : Prop := NeverReused p.1 l

end Step

/-- What a thread will report of its last removal. It has it from the head it
held at the exchange, so a later removal does not matter. -/
def Local.Awaits (turn : Option (κ × Nat)) : Local κ α → Prop
  | .pop q _ _ _ (.deleteHead oldHead) =>
      ∃ k, turn = some (q, k) ∧ oldHead.tag = BitVec.ofNat 16 k
  | .done (.popped true _ headState) =>
      ∃ q k, turn = some (q, k) ∧ ∀ tag, headState = some tag → tag = BitVec.ofNat 16 k
  | _ => True

/-- The ledger belongs to the state. The reports made so far, and those a
thread is about to make, are the positions of the removals. -/
structure Fits (p : State κ τ α × Ledger κ τ α) : Prop where
  inv : Inv p.1
  recorded : Recorded p.2.history p.1.mem
  length : ∀ q, (p.2.takes q).length = p.2.history.removals q
  reports : ∀ q k tag, (p.2.takes q)[k]? = some (some (some tag)) → tag = BitVec.ofNat 16 k
  awaits : ∀ t, (p.1.threads t).Awaits (p.2.turn t)

section Awaits

variable [DecidableEq κ] {g : Ledger κ τ α} {m m' : Mem κ α} {l l' : Local κ α} {q : κ} {t : τ}
  {fresh : Addr} {spurious : Bool} {turn : Option (κ × Nat)}

omit [DecidableEq κ] in
theorem start_awaits (op : Op κ α) : (start op).Awaits turn := by
  cases op <;> trivial

theorem pushStep_awaits {pc : PushPc α}
    (hstep : pushStep m q fresh spurious pc = some (m', l')) : l'.Awaits turn := by
  cases pc with
  | newNode e =>
      simp only [pushStep, Option.map_eq_some_iff] at hstep
      obtain ⟨_, _, ⟨⟩⟩ := hstep
      trivial
  | loadTail | loadNext | casTail =>
      cases hstep
      trivial
  | checkTail node oldTail next =>
      simp only [pushStep] at hstep
      split at hstep
      · cases hstep
        trivial
      · split at hstep <;> cases hstep <;> trivial
  | casNext | helpTail =>
      simp only [pushStep] at hstep
      split at hstep <;> cases hstep <;> trivial

theorem tryPushStep_awaits {pc : TryPushPc α}
    (hstep : tryPushStep m q fresh pc = some (m', l')) : l'.Awaits turn := by
  cases pc with
  | newNode e oldTail next =>
      simp only [tryPushStep, Option.map_eq_some_iff] at hstep
      obtain ⟨_, _, ⟨⟩⟩ := hstep
      trivial
  | casTail | deleteNode | helpTail =>
      cases hstep
      trivial
  | loadTail | loadNext | casNext =>
      simp only [tryPushStep] at hstep
      split at hstep <;> cases hstep <;> trivial

/-- An exchange of the head that takes effect takes the number of removals so
far from the tag. -/
theorem popStep_awaits {arg element : α} {headState : Option Tag} {pc : PopPc}
    (hr : Recorded g.history m) (hlength : (g.takes q).length = g.history.removals q)
    (h : (Local.pop q arg element headState pc).Awaits (g.turn t)) :
    (popStep m q spurious arg element headState pc).2.Awaits
      (g.turnAfter m (popStep m q spurious arg element headState pc).1 t
        (.pop q arg element headState pc)) := by
  cases pc with
  | loadHead | loadTail | loadNext | helpTail | readValue => trivial
  | checkHead oldHead oldTail next =>
      simp only [popStep]
      split
      · trivial
      · split
        · split <;> trivial
        · trivial
  | casHead oldHead next =>
      simp only [popStep]
      split
      · next hcas =>
          obtain ⟨rfl, _⟩ := hcas
          have hmoved : (⟨next.value, (m.head q).tag + 1⟩ : TaggedPtr) ≠ m.head q := by
            intro heq
            have htag := congrArg TaggedPtr.tag heq
            simp at htag
          refine ⟨(g.takes q).length, ?_, ?_⟩
          · simp only [Ledger.turnAfter, Local.removes, Mem.head_setHead_self, if_neg hmoved]
          · rw [hr.head_tag q, hlength]
      · trivial
  | deleteHead oldHead =>
      obtain ⟨k, hturn, htag⟩ := h
      refine ⟨q, k, hturn, fun tag hsome => ?_⟩
      obtain ⟨_, _, rfl⟩ := Option.map_eq_some_iff.mp hsome
      exact htag

theorem tryPopStep_awaits {arg element : α} {oldHeadState headState : Tag} {pc : TryPopPc} :
    (tryPopStep m q arg element oldHeadState headState pc).2.Awaits turn := by
  cases pc with
  | loadHead | loadTail | helpTail | readValue | deleteHead => trivial
  | loadNext oldHead oldTail =>
      simp only [tryPopStep]
      split
      · split
        · split <;> trivial
        · trivial
      · trivial
  | casHead oldHead next =>
      simp only [tryPopStep]
      split <;> trivial

/-- The other operations make no report, so only `pop` matters. -/
theorem localStep_awaits (hr : Recorded g.history m)
    (hlength : ∀ q, (g.takes q).length = g.history.removals q) (h : l.Awaits (g.turn t))
    (hstep : localStep m fresh spurious l = some (m', l')) :
    l'.Awaits (g.turnAfter m m' t l) := by
  cases l with
  | idle | done => cases hstep
  | push q pc => exact pushStep_awaits hstep
  | tryPush q pc => exact tryPushStep_awaits hstep
  | pop q arg element headState pc =>
      obtain ⟨rfl, rfl⟩ := pair_eq (Option.some.inj hstep)
      exact popStep_awaits hr (hlength q) h
  | tryPop q arg element oldHeadState headState pc =>
      obtain ⟨rfl, rfl⟩ := pair_eq (Option.some.inj hstep)
      exact tryPopStep_awaits
  | empty q pc =>
      obtain ⟨rfl, rfl⟩ := pair_eq (Option.some.inj hstep)
      cases pc with
      | checkHead =>
          simp only [emptyStep]
          split <;> trivial
      | loadHead | loadTail | loadNext => trivial
  | tailState q =>
      cases hstep
      trivial

end Awaits

section Runs

variable [DecidableEq κ] [DecidableEq τ] [DecidableEq α] {p p' : State κ τ α × Ledger κ τ α}
  {l : Label κ τ α}

omit [DecidableEq κ] [DecidableEq τ] [DecidableEq α] in
theorem Fits.start {s : State κ τ α} (hinit : Initial s) :
    Fits (s, (Ledger.start : Ledger κ τ α)) where
  inv := hinit.inv
  recorded := .start hinit
  length _ := rfl
  reports q k tag h := by simp [Ledger.start] at h
  awaits t := by
    rw [hinit.idle t]
    trivial

omit [DecidableEq α] in
theorem Fits.ret {s : State κ τ α} {g : Ledger κ τ α} {t : τ} {r : Res α} (h : Fits (s, g))
    (hdone : s.threads t = .done r)
    (hinv : Inv { s with threads := update s.threads t .idle }) :
    Fits ({ s with threads := update s.threads t .idle },
      g.see s (.ret t r) { s with threads := update s.threads t .idle }) := by
  have hidle (u : τ) : Local.Awaits (g.turn u) (update s.threads t .idle u) := by
    by_cases hu : u = t
    · subst hu
      rw [update_self]
      trivial
    · rw [update_of_ne hu]
      exact h.awaits u
  have hawaits := h.awaits t
  simp only [hdone] at hawaits
  cases r with
  | popped ok element headState =>
      cases ok with
      | false => exact ⟨hinv, h.recorded, h.length, h.reports, hidle⟩
      | true =>
          obtain ⟨q, k, hturn, hstate⟩ := hawaits
          simp only [Ledger.see, hturn]
          refine ⟨hinv, h.recorded, fun q' => ?_, fun q' k' tag hk => ?_, hidle⟩
          · by_cases hq : q' = q
            · subst hq
              simpa using h.length q'
            · simpa only [update_of_ne hq] using h.length q'
          · by_cases hq : q' = q
            · subst hq
              simp only [update_self, List.getElem?_set] at hk
              split at hk
              · next hkk =>
                  subst hkk
                  split at hk
                  · exact hstate tag (by simpa using hk)
                  · cases hk
              · exact h.reports q' k' tag hk
            · simp only [update_of_ne hq] at hk
              exact h.reports q' k' tag hk
  | pushed | tryPopped | isEmpty | state =>
      exact ⟨hinv, h.recorded, h.length, h.reports, hidle⟩

theorem Fits.step (h : Fits p) (hguard : Fresh p l) (hnext : (counted κ τ α).next p l = some p') :
    Fits p' := by
  obtain ⟨s, g⟩ := p
  obtain ⟨s', g'⟩ := p'
  obtain ⟨hnext, hsee⟩ := observed_next.mp hnext
  have hnext : (system κ τ α).next s l = some s' := hnext
  have hsee : g.see s l s' = g' := hsee
  have hheld := NeverReused.notHeld h.inv hguard
  have hinv := h.inv.step hheld hnext
  cases l with
  | call t op =>
      obtain ⟨_, rfl⟩ := next_call hnext
      cases hsee
      refine ⟨hinv, h.recorded, h.length, h.reports, fun u => ?_⟩
      by_cases hu : u = t
      · subst hu
        simp only [update_self]
        exact start_awaits op
      · simpa only [Ledger.see, update_of_ne hu] using h.awaits u
  | step t fresh spurious =>
      obtain ⟨fresh', hc⟩ := change_of_next h.inv hheld hnext
      obtain ⟨m', l', hstep, rfl⟩ := next_step hnext
      cases hsee
      refine ⟨hinv, hc.recorded h.inv.shape (h.inv.owner t) (localStep_tags hstep) h.recorded,
        fun q => ?_, fun q k tag hk => ?_, fun u => ?_⟩
      · have hlength := h.length q
        simp only [Ledger.see, History.removals_after]
        split <;> simp [hlength]
      · simp only [Ledger.see] at hk
        split at hk
        · exact h.reports q k tag hk
        · rw [List.getElem?_append] at hk
          split at hk
          · exact h.reports q k tag hk
          · simp [List.getElem?_singleton] at hk
      · by_cases hu : u = t
        · subst hu
          simp only [Ledger.see, update_self]
          exact localStep_awaits h.recorded h.length (h.awaits u) hstep
        · simpa only [Ledger.see, update_of_ne hu] using h.awaits u
  | ret t result =>
      obtain ⟨hdone, rfl⟩ := next_ret hnext
      cases hsee
      exact h.ret hdone hinv

end Runs

section Empty

variable [DecidableEq κ] {h : History κ α} {m m' : Mem κ α} {q : κ} {fresh : Addr}
  {l l' k : Local κ α} {seen seen' : Tag → Prop}

/-- What a `pop` of queue `q` knows of the tail's tag it has loaded: if the
head it holds is still there and on the tail's node, the tag is the number of
removals. Once it has seen a null successor, some instant of its call was as
`seen` says. -/
def PopPc.Counts (h : History κ α) (m : Mem κ α) (q : κ) (seen : Tag → Prop) : PopPc → Prop
  | .loadNext oldHead oldTail => oldHead.value = oldTail.value → m.head q = oldHead →
      oldTail.tag = BitVec.ofNat 16 (h.removals q)
  | .checkHead oldHead oldTail next =>
      oldHead.value = oldTail.value → next.value = 0 → seen oldTail.tag
  | _ => True

/-- A thread since its call of `pop` on queue `q`. -/
def Local.Counts (h : History κ α) (m : Mem κ α) (q : κ) (seen : Tag → Prop) :
    Local κ α → Prop
  | .pop q' _ _ _ pc => q' = q ∧ pc.Counts h m q seen
  | .done (.popped false _ (some tag)) => seen tag
  | .done (.popped false _ none) | .done (.popped true _ _) | .idle => True
  | _ => False

/-- The step of another thread. It may remove nodes, but then the head held is
no longer there. -/
theorem Local.Counts.other (hk : k.Counts h m q seen) (hc : Change fresh m l l' m')
    (hs : Shape m) (hfacts : k.Facts m) (hseen : ∀ tag, seen tag → seen' tag) :
    k.Counts (h.after m m') m' q seen' := by
  cases k with
  | pop q' arg element headState pc =>
      obtain ⟨rfl, hpc⟩ := hk
      refine ⟨rfl, ?_⟩
      cases pc with
      | loadNext oldHead oldTail =>
          intro heq hhead
          have hback := hc.head_back hs hfacts.1 hhead
          rw [History.removals_after, if_pos (hhead.trans hback.symm)]
          exact hpc heq hback
      | checkHead oldHead oldTail next => exact fun heq hnull => hseen _ (hpc heq hnull)
      | loadHead | loadTail | helpTail | readValue | casHead | deleteHead => trivial
  | done r =>
      cases r with
      | popped ok element headState =>
          cases ok with
          | true => trivial
          | false =>
              cases headState with
              | none => trivial
              | some tag => exact hseen tag hk
      | pushed | tryPopped | isEmpty | state => exact hk
  | idle => trivial
  | push | tryPush | tryPop | empty | tailState => exact hk

/-- The thread's own step. The instant sought is before the load of a null
successor: then the node held is the only one of the queue. -/
theorem popStep_counts {arg element : α} {headState : Option Tag} {pc : PopPc}
    {spurious : Bool} (hpre : StepPre fresh m (.pop q arg element headState pc))
    (hr : Recorded h m) (hpc : pc.Counts h m q seen) (hseen : ∀ tag, seen tag → seen' tag)
    (hnow : ∀ tag, m.contents q = [] → tag = BitVec.ofNat 16 (h.removals q) → seen' tag) :
    (popStep m q spurious arg element headState pc).2.Counts
      (h.after m (popStep m q spurious arg element headState pc).1)
      (popStep m q spurious arg element headState pc).1 q seen' := by
  have hs := hpre.shape
  cases pc with
  | loadHead | helpTail | readValue => exact ⟨rfl, trivial⟩
  | loadTail oldHead =>
      refine ⟨rfl, fun heq hhead => ?_⟩
      obtain ⟨rest, hcons, _⟩ := hs.nodes_cons q
      have hpos := hr.position q
      obtain rfl : m.head q = oldHead := hhead
      rw [← show (m.head q).value = (m.tail q).value from heq, hcons, List.idxOf_cons_self] at hpos
      simp only [popStep, History.after_self, hr.tail_tag q, hpos, Nat.add_zero]
  | loadNext oldHead oldTail =>
      refine ⟨rfl, fun heq hnull => ?_⟩
      have hhead := hs.head_of_null hpre.facts.1 hnull
      refine hnow _ (hs.contents_nil ?_) (hpc heq hhead)
      rw [hhead]
      exact hnull
  | checkHead oldHead oldTail next =>
      simp only [popStep]
      split
      · exact ⟨rfl, trivial⟩
      · split
        · next heq =>
            split
            · next hnull =>
                cases headState with
                | none => trivial
                | some tag => exact hseen _ (hpc heq hnull)
            · exact ⟨rfl, trivial⟩
        · exact ⟨rfl, trivial⟩
  | casHead oldHead next =>
      simp only [popStep]
      split <;> exact ⟨rfl, trivial⟩
  | deleteHead oldHead => trivial

end Empty

section Runs

variable [DecidableEq κ] [DecidableEq τ] [DecidableEq α]

/-- The queue is empty and `tag` is the number of nodes removed, modulo `2 ^
16`. -/
def EmptyAt (q : κ) (tag : Tag) (p : State κ τ α × Ledger κ τ α) : Prop :=
  p.1.mem.contents q = [] ∧ tag = BitVec.ofNat 16 (p.2.history.removals q)

omit [DecidableEq α] in
theorem Ledger.see_history [DecidableEq α] {s s' : State κ τ α} {g : Ledger κ τ α}
    {l : Label κ τ α} (hnext : (system κ τ α).next s l = some s') :
    (g.see s l s').history = g.history.after s.mem s'.mem := by
  cases l with
  | call t op =>
      obtain ⟨_, rfl⟩ := next_call hnext
      exact (History.after_self _ _).symm
  | step t fresh spurious => rfl
  | ret t result =>
      have hmem : s'.mem = s.mem := by
        obtain ⟨_, rfl⟩ := next_ret hnext
        rfl
      have hsee : (g.see s (.ret t result) s').history = g.history := by
        cases result with
        | popped ok element headState =>
            cases ok with
            | true =>
                simp only [Ledger.see]
                split <;> rfl
            | false => rfl
        | pushed | tryPopped | isEmpty | state => rfl
      rw [hmem, History.after_self, hsee]

/-- From a call of `pop` on, the thread knows of the instant it will report.
The induction is along the steps, of any thread, since that call. -/
theorem counts_of_steps {p p' : State κ τ α × Ledger κ τ α} {ls : List (Label κ τ α)} {t : τ}
    {q : κ} {element : α} {headState : Option Tag}
    (hsteps : (counted κ τ α).Steps Fresh p ls p') (hfits : Fits p)
    (hstart : p.1.threads t = start (.pop q element headState))
    (hcalls : ∀ op, Label.call t op ∉ ls) :
    Fits p' ∧ (p'.1.threads t).Counts p'.2.history p'.1.mem q
      fun tag => (counted κ τ α).Through Fresh (EmptyAt q tag) p ls p' := by
  induction hsteps with
  | refl =>
      rw [hstart]
      exact ⟨hfits, rfl, trivial⟩
  | @snoc ls p₁ p₂ l hsteps hguard hnext ih =>
      obtain ⟨hfits₁, hcounts⟩ := ih fun op hop => hcalls op (List.mem_append_left _ hop)
      have hfits₂ := hfits₁.step hguard hnext
      refine ⟨hfits₂, ?_⟩
      have hseen (tag : Tag) (h : (counted κ τ α).Through Fresh (EmptyAt q tag) p ls p₁) :
          (counted κ τ α).Through Fresh (EmptyAt q tag) p (ls ++ [l]) p₂ :=
        h.snoc hguard hnext fun _ h => h
      have hnow (tag : Tag) (h : EmptyAt q tag p₁) :
          (counted κ τ α).Through Fresh (EmptyAt q tag) p (ls ++ [l]) p₂ :=
        (Through.now hsteps h).snoc hguard hnext fun _ h => h
      obtain ⟨s, g⟩ := p₁
      obtain ⟨s', g'⟩ := p₂
      obtain ⟨hnext, hsee⟩ := observed_next.mp hnext
      have hnext : (system κ τ α).next s l = some s' := hnext
      have hhistory := Ledger.see_history (g := g) hnext
      rw [show g.see s l s' = g' from hsee] at hhistory
      have hinv := hfits₁.inv
      have hheld := NeverReused.notHeld hinv hguard
      simp only [hhistory]
      by_cases hactor : t = l.actor
      · cases l with
        | call u op =>
            obtain rfl : t = u := hactor
            exact absurd (List.mem_append_right _ (List.mem_singleton.mpr rfl)) (hcalls op)
        | step u fresh spurious =>
            obtain rfl : t = u := hactor
            have hpre : StepPre fresh s.mem (s.threads t) :=
              ⟨hinv.shape, hinv.owner t, hinv.facts t, hinv.held_used t, fun hl => hheld hl t⟩
            obtain ⟨m', l', hstep, rfl⟩ := next_step hnext
            simp only [update_self]
            generalize s.threads t = k at hstep hpre hcounts
            cases k with
            | pop q' arg element headState pc =>
                obtain ⟨rfl, hpc⟩ := hcounts
                obtain ⟨rfl, rfl⟩ := pair_eq (Option.some.inj hstep)
                exact popStep_counts hpre hfits₁.recorded hpc hseen
                  fun tag hnil htag => hnow tag ⟨hnil, htag⟩
            | idle | done => cases hstep
            | push | tryPush | tryPop | empty | tailState => exact hcounts.elim
        | ret u result =>
            obtain rfl : t = u := hactor
            obtain ⟨_, rfl⟩ := next_ret hnext
            simp only [update_self]
            trivial
      · obtain ⟨fresh, hc⟩ := change_of_next hinv hheld hnext
        rw [threads_of_ne hnext hactor]
        exact hcounts.other hc hinv.shape (hinv.facts t) hseen

/-- The number of nodes from the initial dummy to the tail's node: those the
head has left and those between the head and the tail. -/
noncomputable def tailPosition (p : State κ τ α × Ledger κ τ α) (q : κ) : Nat :=
  p.2.history.removals q + (p.1.mem.nodes q).idxOf (p.1.mem.tail q).value

/-- Both tags are counters, and what `pop` reports is the number of removals
before its own or, for an empty queue, the number of all removals at an
instant of its call. Counts are modulo `2 ^ 16`; it does not matter which
thread moved the pointers. -/
theorem tags_count_operations {p : State κ τ α × Ledger κ τ α} {ls : List (Label κ τ α)}
    (hrun : (counted κ τ α).Run Fresh ls p) :
    (∀ q, (p.1.mem.head q).tag = BitVec.ofNat 16 (p.2.history.removals q) ∧
      (p.1.mem.tail q).tag = BitVec.ofNat 16 (tailPosition p q)) ∧
    (∀ q, (p.2.takes q).length = p.2.history.removals q) ∧
    (∀ t element tag, p.1.threads t = .done (.popped true element (some tag)) →
      ∃ q k, p.2.turn t = some (q, k) ∧ tag = BitVec.ofNat 16 k) ∧
    (∀ q k tag, (p.2.takes q)[k]? = some (some (some tag)) → tag = BitVec.ofNat 16 k) ∧
    ∀ t q element headState ls' p', p.1.threads t = start (.pop q element headState) →
      (counted κ τ α).Steps Fresh p ls' p' → (∀ op, Label.call t op ∉ ls') →
      ∀ element' tag, p'.1.threads t = .done (.popped false element' (some tag)) →
        (counted κ τ α).Through Fresh (EmptyAt q tag) p ls' p' := by
  have hfits : Fits p := by
    refine hrun.invariant ?_ fun _ _ _ h => h.step
    rintro ⟨s, g⟩ ⟨hinit, rfl⟩
    exact .start hinit
  refine ⟨fun q => ⟨hfits.recorded.head_tag q, ?_⟩, hfits.length, fun t element tag hdone => ?_,
    hfits.reports, fun t q element headState ls' p' hstart hsteps hcalls element' tag hdone => ?_⟩
  · rw [hfits.recorded.tail_tag q, hfits.recorded.position q, tailPosition]
  · have hawaits := hfits.awaits t
    rw [hdone] at hawaits
    obtain ⟨q, k, hturn, htag⟩ := hawaits
    exact ⟨q, k, hturn, htag tag rfl⟩
  · have hcounts := (counts_of_steps hsteps hfits hstart hcalls).2
    rw [hdone] at hcounts
    exact hcounts

/-- A push, a pop that returns its element, and the call of another pop. -/
def popTwice : List (Label (Fin 1) Unit Nat) :=
  .call () (.push 0 7) :: .step () 2 false :: List.replicate 5 (Label.step () 0 false) ++
    .ret () (.pushed true) :: .call () (.pop 0 0 (some 0)) ::
      List.replicate 7 (Label.step () 0 false) ++
        [Label.ret () (.popped true 7 (some 0)), .call () (.pop 0 0 (some 0))]

instance (p : State κ τ α × Ledger κ τ α) (l : Label κ τ α) : Decidable (Fresh p l) :=
  inferInstanceAs (Decidable (NeverReused p.1 l))

def poppedTwice : State (Fin 1) Unit Nat × Ledger (Fin 1) Unit Nat :=
  ((counted (Fin 1) Unit Nat).exec Fresh (constructed 1 0, .start) popTwice).get
    (by decide +kernel)

def foundEmpty : State (Fin 1) Unit Nat × Ledger (Fin 1) Unit Nat :=
  ((counted (Fin 1) Unit Nat).exec Fresh poppedTwice
    (List.replicate 4 (.step () 0 false))).get (by decide +kernel)

/-- The second pop stores 1, the number of nodes removed. -/
theorem tags_count_operations_popTwice :
    (counted (Fin 1) Unit Nat).Run Fresh popTwice poppedTwice ∧
      (poppedTwice.1.mem.head 0).tag = 1 ∧ poppedTwice.2.takes 0 = [some (some 0)] ∧
      (∀ k tag, (poppedTwice.2.takes 0)[k]? = some (some (some tag)) →
        tag = BitVec.ofNat 16 k) ∧
      (counted (Fin 1) Unit Nat).Through Fresh (EmptyAt 0 1) poppedTwice
        (List.replicate 4 (.step () 0 false)) foundEmpty := by
  have hinit : (counted (Fin 1) Unit Nat).init (constructed 1 0, .start) :=
    ⟨initial_constructed 1 0, rfl⟩
  have hrun : (counted (Fin 1) Unit Nat).Run Fresh popTwice poppedTwice := run_of_exec hinit _
  have hsteps : (counted (Fin 1) Unit Nat).Steps Fresh poppedTwice
      (List.replicate 4 (.step () 0 false)) foundEmpty :=
    steps_of_exec (Option.some_get _).symm
  have hdone : foundEmpty.1.threads () = .done (.popped false 0 (some 1)) := by decide +kernel
  obtain ⟨_, _, _, hreports, hempty⟩ := tags_count_operations hrun
  exact ⟨hrun, by decide +kernel, by decide +kernel, hreports 0,
    hempty () 0 0 (some 0) _ _ (by decide +kernel) hsteps (by simp) 0 1 hdone⟩

end Runs

end Libni.MSQueue
