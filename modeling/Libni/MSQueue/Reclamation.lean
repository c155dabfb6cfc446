import Libni.MSQueue.Linearizable

/-!
What the queue may delete. `pop` and `try_pop` delete the old head as soon as they
have removed it, while other threads may have loaded it and not yet used it. An
operation can only lose a node this way in the windows listed in `needs`: from a
load to the first check that would notice the removal, or where there is none to
the last access. If no node is deleted inside such a window of another thread, no
retired node is ever accessed.
-/

namespace Libni.MSQueue

open Function Libni.Transition Libni.Transition.System

variable {κ τ α : Type*}

/-- `new` has returned the node and it has been deleted since. An address
handed out again is not retired. -/
def Mem.Retired (m : Mem κ α) (a : Addr) : Prop := m.used a = true ∧ m.live a = false

instance (m : Mem κ α) (a : Addr) : Decidable (m.Retired a) :=
  inferInstanceAs (Decidable (_ ∧ _))

/-- The node whose `next` or `value` the next step of the thread reads or
compare-exchanges, other than the node it has created itself. -/
def Local.accesses : Local κ α → Option Addr
  | .push _ (.loadNext _ oldTail) | .push _ (.casNext _ oldTail _) => some oldTail.value
  | .tryPush _ (.loadNext _ oldTail) | .tryPush _ (.casNext _ oldTail _) => some oldTail.value
  | .pop _ _ _ _ (.loadNext oldHead _) | .tryPop _ _ _ _ _ (.loadNext oldHead _)
  | .empty _ (.loadNext oldHead _) => some oldHead.value
  | .pop _ _ _ _ (.readValue _ next) | .tryPop _ _ _ _ _ (.readValue _ next) =>
      some next.value
  | _ => none

/-- No thread's next step accesses a retired node. As a property of every
state of a run it says that no access does. -/
def NoRetiredAccess (s : State κ τ α) : Prop :=
  ∀ t a, (s.threads t).accesses = some a → ¬ s.mem.Retired a

/-- The node behind that of `p`, if there is one. -/
def Mem.successors (m : Mem κ α) (p : TaggedPtr) : List Addr :=
  if m.nextAddr p.value = 0 then [] else [m.nextAddr p.value]

/-- The nodes a thread will still access without noticing that they have been
removed. `try_pop` does not load the head again, so once its tag has matched
it also goes on to the successor of its old head. -/
def Local.needs (m : Mem κ α) : Local κ α → List Addr
  | .push _ (.loadNext _ oldTail) | .push _ (.casNext _ oldTail _) => [oldTail.value]
  | .tryPush _ (.loadNext _ oldTail) | .tryPush _ (.newNode _ oldTail _)
  | .tryPush _ (.casNext _ oldTail _) => [oldTail.value]
  | .pop _ _ _ _ (.loadTail oldHead) | .pop _ _ _ _ (.loadNext oldHead _)
  | .empty _ (.loadTail oldHead) | .empty _ (.loadNext oldHead _) => [oldHead.value]
  | .tryPop _ _ _ oldHeadState _ (.loadTail oldHead) =>
      oldHead.value :: if oldHead.tag = oldHeadState then m.successors oldHead else []
  | .tryPop _ _ _ oldHeadState _ (.loadNext oldHead oldTail) =>
      oldHead.value ::
        if oldHead.tag = oldHeadState ∧ oldHead.value ≠ oldTail.value then m.successors oldHead
        else []
  | .pop _ _ _ _ (.readValue _ next) | .tryPop _ _ _ _ _ (.readValue _ next) => [next.value]
  | _ => []

theorem Local.accesses_needs {m : Mem κ α} {l : Local κ α} {a : Addr}
    (h : l.accesses = some a) : a ∈ l.needs m := by
  unfold Local.accesses at h
  split at h <;> cases h
  all_goals exact .head _

/-- `pop` and `try_pop` delete no node that a thread still needs. The source
has nothing that would see to this. -/
def DeletesUnneeded (s : State κ τ α) : Label κ τ α → Prop
  | .step t _ _ =>
      ∀ a, (s.threads t).unlinked = some a → ∀ u, a ∉ (s.threads u).needs s.mem
  | _ => True

/-- Nodes are deleted when no thread needs them, and addresses handed out
again when no thread holds them. -/
def Reclaims (s : State κ τ α) (l : Label κ τ α) : Prop := NotHeld s l ∧ DeletesUnneeded s l

/-- What a thread needs has been linked and is allocated. So it is no node
that another thread has created and may give up. -/
structure Needed (s : State κ τ α) : Prop where
  live : ∀ u a, a ∈ (s.threads u).needs s.mem → s.mem.live a = true
  linked : ∀ u t a, a ∈ (s.threads u).needs s.mem → (s.threads t).node ≠ some a

section Change

variable {m m' : Mem κ α} {q : κ} {l l' k : Local κ α} {fresh a x : Addr} {p : TaggedPtr}

theorem Mem.mem_successors : a ∈ m.successors p ↔ a = m.nextAddr p.value ∧ a ≠ 0 := by
  unfold Mem.successors
  split
  · next h => simp [h]
  · next h =>
      simp only [List.mem_singleton]
      constructor
      · rintro rfl
        exact ⟨rfl, h⟩
      · exact And.left

variable [DecidableEq κ]

theorem Change.next_new (hc : Change fresh m l l' m') (hs : Shape m) (ho : Owner m l)
    (hx : l.allocates = true → x ≠ fresh) (hnull : m.nextAddr x = 0) (hne : m'.nextAddr x ≠ 0) :
    ∃ q, m'.nextAddr x ∈ m'.nodes q := by
  cases hc with
  | alloc e _ hnew hl =>
      rw [Mem.nextAddr_new hnew (hx hl)] at hne
      exact absurd hnull hne
  | link q n t hlast hn =>
      by_cases hxt : x = (m.tail q).value
      · subst hxt
        refine ⟨q, ?_⟩
        rw [Mem.nextAddr_setNext_self, hs.nodes_link (hs.tail_mem q) hlast (ho.null n hn).1
          (ho.null n hn).2 (ho.out n q (Local.owned_of_node hn)), update_self]
        exact List.mem_append_right _ (List.mem_singleton.mpr rfl)
      · rw [Mem.nextAddr_setNext_of_ne _ hxt] at hne
        exact absurd hnull hne
  | same | swing | advance | free => exact absurd hnull hne

/-- A thread comes to own a node to be linked by creating it only. -/
theorem Change.node_new (hc : Change fresh m l l' m') (ha : l'.node = some a) :
    l.node = some a ∨ m.live a = false := by
  cases hc with
  | same hnode | swing q t hne hnode =>
      rw [hnode] at ha
      exact .inl ha
  | alloc e _ hnew hl hnode =>
      rw [hnode] at ha
      obtain rfl : fresh = a := by simpa using ha
      obtain ⟨⟨_, hfree⟩, _⟩ := Mem.new_eq_some.mp hnew
      exact .inr hfree
  | link q n t hnull hn hnode =>
      rw [hnode] at ha
      cases ha
  | advance q t htail hl hnode =>
      rw [hnode] at ha
      cases ha
  | free b hl hnode =>
      rw [hnode] at ha
      cases ha

/-- While `new` stays away from `x`, its successors are as before or in a
queue. -/
theorem Change.successors (hc : Change fresh m l l' m') (hs : Shape m) (ho : Owner m l)
    (hx : l.allocates = true → p.value ≠ fresh) (ha : a ∈ m'.successors p) :
    a ∈ m.successors p ∨ ∃ q, a ∈ m'.nodes q := by
  obtain ⟨rfl, hne⟩ := Mem.mem_successors.mp ha
  by_cases hnull : m.nextAddr p.value = 0
  · exact .inr (hc.next_new hs ho hx hnull hne)
  · have hkeep := (hc.keeps hs ho hx).next hnull
    exact .inl (Mem.mem_successors.mpr ⟨hkeep, hne⟩)

/-- What another thread needs it needed before, or it is in a queue. In both
cases it is allocated. -/
theorem Change.needs_other (hc : Change fresh m l l' m') (hs : Shape m) (ho : Owner m l)
    (hheld : l.allocates = true → k.held ≠ some fresh) (ha : a ∈ k.needs m') :
    a ∈ k.needs m ∨ ∃ q, a ∈ m'.nodes q := by
  cases k with
  | idle | tailState | done => exact .inl ha
  | push q pc | tryPush q pc | pop q arg element headState pc | empty q pc =>
      cases pc <;> exact .inl ha
  | tryPop q arg element oldHeadState headState pc =>
      cases pc with
      | loadTail | loadNext =>
          simp only [Local.needs, List.mem_cons] at ha ⊢
          rcases ha with rfl | ha
          · exact .inl (.inl rfl)
          · split at ha
            · next hcond =>
                rw [if_pos hcond]
                exact (hc.successors hs ho (fun hl heq => hheld hl (congrArg some heq))
                  ha).imp_left .inr
            · cases ha
      | loadHead | helpTail | readValue | casHead | deleteHead => exact .inl ha

end Change

section Step

variable [DecidableEq κ] {m m' : Mem κ α} {q : κ} {l l' : Local κ α} {fresh a : Addr}
  {spurious : Bool}

omit [DecidableEq κ] in
theorem Shape.tail_linked (hs : Shape m) (h : a ∈ [(m.tail q).value]) : ∃ q, a ∈ m.nodes q :=
  ⟨q, List.mem_singleton.mp h ▸ hs.tail_mem q⟩

omit [DecidableEq κ] in
theorem Shape.head_linked (hs : Shape m) (h : a ∈ [(m.head q).value]) : ∃ q, a ∈ m.nodes q :=
  ⟨q, List.mem_singleton.mp h ▸ hs.head_mem q⟩

/-- What `push` needs it has just loaded from the tail, or needed before. -/
theorem pushStep_needs {pc : PushPc α} (hpre : StepPre fresh m (.push q pc))
    (hstep : pushStep m q fresh spurious pc = some (m', l')) (ha : a ∈ l'.needs m') :
    a ∈ (Local.push q pc : Local κ α).needs m ∨ ∃ q, a ∈ m'.nodes q := by
  have hs := hpre.shape
  cases pc with
  | newNode e =>
      simp only [pushStep, Option.map_eq_some_iff] at hstep
      obtain ⟨_, hnew, ⟨⟩⟩ := hstep
      cases ha
  | loadTail node =>
      cases hstep
      exact .inr (hs.tail_linked ha)
  | loadNext node oldTail =>
      cases hstep
      cases ha
  | checkTail node oldTail next =>
      simp only [pushStep] at hstep
      split at hstep
      · cases hstep
        cases ha
      · next htail =>
          have htail : m.tail q = oldTail := by simpa using htail
          subst htail
          split at hstep <;> cases hstep
          · exact .inr (hs.tail_linked ha)
          · cases ha
  | casNext node oldTail next =>
      simp only [pushStep] at hstep
      split at hstep <;> cases hstep <;> cases ha
  | casTail node oldTail =>
      cases hstep
      cases ha
  | helpTail node oldTail next =>
      simp only [pushStep] at hstep
      split at hstep
      · next hcas =>
          obtain ⟨rfl, rfl⟩ := hcas
          cases hstep
          rw [Mem.casTail, if_pos ⟨rfl, rfl⟩]
          exact .inr (hs.tail_linked ha)
      · cases hstep
        exact .inr (hs.tail_linked ha)

theorem tryPushStep_needs {pc : TryPushPc α} (hs : Shape m)
    (hstep : tryPushStep m q fresh pc = some (m', l')) (ha : a ∈ l'.needs m') :
    a ∈ (Local.tryPush q pc : Local κ α).needs m ∨ ∃ q, a ∈ m'.nodes q := by
  cases pc with
  | loadTail e oldTailState =>
      simp only [tryPushStep] at hstep
      split at hstep <;> cases hstep
      · exact .inr (hs.tail_linked ha)
      · cases ha
  | loadNext e oldTail =>
      simp only [tryPushStep] at hstep
      split at hstep <;> cases hstep
      · exact .inl ha
      · cases ha
  | newNode e oldTail next =>
      simp only [tryPushStep, Option.map_eq_some_iff] at hstep
      obtain ⟨_, _, ⟨⟩⟩ := hstep
      exact .inl ha
  | casNext node oldTail next =>
      simp only [tryPushStep] at hstep
      split at hstep <;> cases hstep <;> cases ha
  | casTail | deleteNode | helpTail =>
      cases hstep
      cases ha

/-- What `pop` needs it has just loaded from the head or found behind it while
the head was still there. -/
theorem popStep_needs {arg element : α} {headState : Option Tag} {pc : PopPc}
    (hpre : StepPre fresh m (.pop q arg element headState pc))
    (ha : a ∈ (popStep m q spurious arg element headState pc).2.needs
      (popStep m q spurious arg element headState pc).1) :
    a ∈ (Local.pop q arg element headState pc).needs m ∨
      ∃ q', a ∈ (popStep m q spurious arg element headState pc).1.nodes q' := by
  have hs := hpre.shape
  cases pc with
  | loadHead => exact .inr (hs.head_linked ha)
  | loadTail oldHead => exact .inl ha
  | loadNext oldHead oldTail => cases ha
  | checkHead oldHead oldTail next =>
      simp only [popStep] at ha ⊢
      split at ha
      · cases ha
      · next hhead =>
          split at ha
          · split at ha <;> cases ha
          · next hne =>
              -- the head is still there, so its successor is in the queue
              have hhead : m.head q = oldHead := by simpa using hhead
              obtain ⟨_, _, hnext, hnext0⟩ := hpre.facts.2.1 hne
              obtain rfl : a = next.value := List.mem_singleton.mp ha
              subst hhead
              refine .inr ⟨q, ?_⟩
              rw [if_neg (by simp), if_neg hne]
              rw [← hnext] at hnext0 ⊢
              exact hs.next_mem (hs.head_mem q) hnext0
  | helpTail oldTail next => cases ha
  | readValue oldHead next => cases ha
  | casHead oldHead next =>
      simp only [popStep] at ha
      split at ha <;> cases ha
  | deleteHead oldHead => cases ha

theorem tryPopStep_needs {arg element : α} {oldHeadState headState : Tag} {pc : TryPopPc}
    (hpre : StepPre fresh m (.tryPop q arg element oldHeadState headState pc))
    (ha : a ∈ (tryPopStep m q arg element oldHeadState headState pc).2.needs
      (tryPopStep m q arg element oldHeadState headState pc).1) :
    a ∈ (Local.tryPop q arg element oldHeadState headState pc).needs m ∨
      ∃ q', a ∈ (tryPopStep m q arg element oldHeadState headState pc).1.nodes q' := by
  have hs := hpre.shape
  cases pc with
  | loadHead =>
      simp only [tryPopStep, Local.needs, List.mem_cons] at ha
      rcases ha with rfl | ha
      · exact .inr ⟨q, hs.head_mem q⟩
      · split at ha
        · obtain ⟨rfl, hne⟩ := Mem.mem_successors.mp ha
          exact .inr ⟨q, hs.next_mem (hs.head_mem q) hne⟩
        · cases ha
  | loadTail oldHead =>
      simp only [tryPopStep, Local.needs, List.mem_cons] at ha ⊢
      rcases ha with rfl | ha
      · exact .inl (.inl rfl)
      · split at ha
        · next hc => exact .inl (.inr (by rwa [if_pos hc.1]))
        · cases ha
  | loadNext oldHead oldTail =>
      simp only [tryPopStep] at ha
      split at ha
      · next htag =>
          split at ha
          · split at ha <;> cases ha
          · next hne =>
              obtain rfl : a = m.nextAddr oldHead.value := List.mem_singleton.mp ha
              have hnext := hs.next_ne_of_past hpre.facts.1 (hpre.facts.2 hne)
              refine .inl (List.mem_cons_of_mem _ ?_)
              rw [if_pos ⟨htag, hne⟩]
              exact Mem.mem_successors.mpr ⟨rfl, hnext⟩
      · cases ha
  | helpTail | readValue | deleteHead => cases ha
  | casHead oldHead next =>
      simp only [tryPopStep] at ha
      split at ha <;> cases ha

/-- A thread comes to need a node only by finding it in a queue. A load from a
head or a tail is the only way to it. -/
theorem localStep_needs (hpre : StepPre fresh m l)
    (hstep : localStep m fresh spurious l = some (m', l')) (ha : a ∈ l'.needs m') :
    a ∈ l.needs m ∨ ∃ q, a ∈ m'.nodes q := by
  cases l with
  | idle | done => cases hstep
  | push q pc => exact pushStep_needs hpre hstep ha
  | tryPush q pc => exact tryPushStep_needs hpre.shape hstep ha
  | pop q arg element headState pc =>
      obtain ⟨rfl, rfl⟩ := pair_eq (Option.some.inj hstep)
      exact popStep_needs hpre ha
  | tryPop q arg element oldHeadState headState pc =>
      obtain ⟨rfl, rfl⟩ := pair_eq (Option.some.inj hstep)
      exact tryPopStep_needs hpre ha
  | empty q pc =>
      obtain ⟨rfl, rfl⟩ := pair_eq (Option.some.inj hstep)
      cases pc with
      | loadHead => exact .inr (hpre.shape.head_linked ha)
      | loadTail => exact .inl ha
      | loadNext => cases ha
      | checkHead oldHead oldTail next =>
          simp only [emptyStep] at ha
          split at ha <;> cases ha
  | tailState q =>
      cases hstep
      cases ha

end Step

section Runs

variable [DecidableEq κ] [DecidableEq τ] [DecidableEq α] {s s' : State κ τ α}
  {l : Label κ τ α}

omit [DecidableEq κ] [DecidableEq τ] [DecidableEq α] in
theorem start_needs {m : Mem κ α} (op : Op κ α) : (start op).needs m = [] := by
  cases op <;> rfl

omit [DecidableEq κ] [DecidableEq τ] [DecidableEq α] in
theorem Needed.start (hinit : Initial s) : Needed s := by
  constructor <;> simp [hinit.idle, Local.needs]

omit [DecidableEq κ] [DecidableEq α] in
/-- A thread that enters or leaves an operation needs nothing. -/
theorem Needed.update (h : Needed s) (t : τ) {k : Local κ α} (hneeds : k.needs s.mem = [])
    (hnode : k.node = none) : Needed { s with threads := update s.threads t k } := by
  have hold {u : τ} {a : Addr} (ha : a ∈ (Function.update s.threads t k u).needs s.mem) :
      a ∈ (s.threads u).needs s.mem := by
    by_cases hu : u = t
    · subst hu
      rw [update_self, hneeds] at ha
      cases ha
    · rwa [update_of_ne hu] at ha
  refine ⟨fun u a ha => h.live u a (hold ha), fun u v a ha => ?_⟩
  by_cases hv : v = t
  · subst hv
    simp [hnode]
  · simpa only [update_of_ne hv] using h.linked u v a (hold ha)

/-- Every step that keeps to `Reclaims` leaves alone what is needed. The case
of interest is a deletion by another thread, which the guard is about. -/
theorem Needed.step (h : Needed s) (hinv : Inv s) (hguard : Reclaims s l)
    (hnext : (system κ τ α).next s l = some s') : Needed s' := by
  have hinv' := hinv.step hguard.1 hnext
  cases l with
  | call t op =>
      obtain ⟨_, rfl⟩ := next_call hnext
      exact h.update t (start_needs op) (start_node op)
  | step t fresh spurious =>
      obtain ⟨m', l', hstep, rfl⟩ := next_step hnext
      have hpre : StepPre fresh s.mem (s.threads t) :=
        ⟨hinv.shape, hinv.owner t, hinv.facts t, hinv.held_used t, fun hl => hguard.1 hl t⟩
      have hc := (localStep_ok hpre hstep).change
      have hneeds (u : τ) (a : Addr) (ha : a ∈ (Function.update s.threads t l' u).needs m') :
          a ∈ (s.threads u).needs s.mem ∨ ∃ q, a ∈ m'.nodes q := by
        by_cases hu : u = t
        · subst hu
          rw [update_self] at ha
          exact localStep_needs hpre hstep ha
        · rw [update_of_ne hu] at ha
          exact hc.needs_other hinv.shape hpre.owner (fun hl => hguard.1 hl u) ha
      refine ⟨fun u a ha => ?_, fun u v a ha => ?_⟩
      · rcases hneeds u a ha with hold | ⟨q, hq⟩
        · refine hc.live (h.live u a hold) fun howned => ?_
          rcases Option.or_eq_some_iff.mp howned with hnode | ⟨-, hunlinked⟩
          · exact h.linked u t a hold hnode
          · exact hguard.2 a hunlinked u hold
        · exact hinv'.shape.live q a hq
      · intro (hnode : (Function.update s.threads t l' v).node = some a)
        rcases hneeds u a ha with hold | ⟨q, hq⟩
        · by_cases hv : v = t
          · subst hv
            rw [update_self] at hnode
            rcases hc.node_new hnode with hnode | hfree
            · exact h.linked u v a hold hnode
            · rw [h.live u a hold] at hfree
              cases hfree
          · rw [update_of_ne hv] at hnode
            exact h.linked u v a hold hnode
        · exact hinv'.owned_out v a q (Local.owned_of_node hnode) hq
  | ret t result =>
      obtain ⟨_, rfl⟩ := next_ret hnext
      exact h.update t rfl rfl

/-- While nodes are only deleted when no other thread needs them, no thread
ever accesses a retired node. The windows are those of `needs`, and outside
them a thread finds out by its checks. -/
theorem no_retired_access {ls : List (Label κ τ α)}
    (hrun : (system κ τ α).Run Reclaims ls s) : NoRetiredAccess s := by
  have hneeded : Inv s ∧ Needed s :=
    hrun.invariant (I := fun u => Inv u ∧ Needed u) (fun _ hinit => ⟨hinit.inv, .start hinit⟩)
      fun _ _ _ h hguard hnext => ⟨h.1.step hguard.1 hnext, h.2.step h.1 hguard hnext⟩
  rintro t a haccess ⟨_, hfree⟩
  rw [hneeded.2.live t a (Local.accesses_needs haccess)] at hfree
  cases hfree

instance [Fintype τ] (s : State κ τ α) (l : Label κ τ α) : Decidable (DeletesUnneeded s l) :=
  match l with
  | .step t _ _ =>
      match h : (s.threads t).unlinked with
      | some a =>
          decidable_of_iff (∀ u, a ∉ (s.threads u).needs s.mem) (by simp [DeletesUnneeded, h])
      | none => isTrue (by simp [DeletesUnneeded, h])
  | .call _ _ => inferInstanceAs (Decidable True)
  | .ret _ _ => inferInstanceAs (Decidable True)

instance [Fintype τ] (s : State κ τ α) (l : Label κ τ α) : Decidable (Reclaims s l) :=
  inferInstanceAs (Decidable (_ ∧ _))

/-- One thread pushes, and the other one pops what it pushed and deletes the
first dummy node before the next push. -/
def pushThenPop : List (Label (Fin 1) Bool Nat) :=
  .call false (.push 0 7) :: .step false 2 false :: List.replicate 5 (Label.step false 0 false) ++
    .ret false (.pushed true) :: .call true (.pop 0 0 none) ::
      List.replicate 7 (Label.step true 0 false) ++
        [Label.call false (.push 0 8), .step false 3 false, .step false 0 false]

def pushedAfterPop : State (Fin 1) Bool Nat :=
  ((system (Fin 1) Bool Nat).exec Reclaims (constructed 1 0) pushThenPop).get
    (by decide +kernel)

theorem no_retired_access_pushThenPop :
    (system (Fin 1) Bool Nat).Run Reclaims pushThenPop pushedAfterPop ∧
      (pushedAfterPop.threads false).accesses = some 2 ∧ pushedAfterPop.mem.Retired 1 ∧
      NoRetiredAccess pushedAfterPop := by
  have hrun : (system (Fin 1) Bool Nat).Run Reclaims pushThenPop pushedAfterPop :=
    run_of_exec (initial_constructed 1 0) _
  exact ⟨hrun, by decide +kernel, by decide +kernel, no_retired_access hrun⟩

/-- A push and a pop of one thread while the other one is between its load of
`m_head` and its load of `next` in a call of `empty`. -/
def popDuringEmpty : List (Label (Fin 1) Bool Nat) :=
  [Label.call false (.empty 0), .step false 0 false] ++
    .call true (.push 0 7) :: .step true 2 false :: List.replicate 5 (Label.step true 0 false) ++
      .ret true (.pushed true) :: .call true (.pop 0 0 none) ::
        List.replicate 7 (Label.step true 0 false) ++ [Label.step false 0 false]

def poppedDuringEmpty : State (Fin 1) Bool Nat :=
  ((system (Fin 1) Bool Nat).exec NeverReused (constructed 1 0) popDuringEmpty).get
    (by decide +kernel)

/-- The next step of `empty` reads the `next` field of the node that the pop
has deleted. -/
theorem retired_node_accessed :
    (system (Fin 1) Bool Nat).Run NeverReused popDuringEmpty poppedDuringEmpty ∧
      ¬ NoRetiredAccess poppedDuringEmpty :=
  ⟨run_of_exec (initial_constructed 1 0) _,
    fun hsafe => hsafe false 1 (by decide +kernel) (by decide +kernel)⟩

end Runs

end Libni.MSQueue
