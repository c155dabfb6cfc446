import Mathlib.Data.Fintype.Defs
import Libni.MSQueue.Invariant

/-!
Every access of every operation is one of the classified changes, and after it
the thread knows what its new program counter says. The cases follow the
program counters of the operations; together they give the invariant for every
run in which no held address is handed out, hence for every run in which no
address is handed out twice.
-/

namespace Libni.MSQueue

open Function Libni.Transition

variable {κ τ α : Type*} [DecidableEq κ]

/-- The obligations of one step of a thread that goes from `l` to `l'`. With
them the invariant after the step follows for all threads. -/
structure StepOk (fresh : Addr) (m : Mem κ α) (l l' : Local κ α) (m' : Mem κ α) : Prop where
  change : Change fresh m l l' m'
  facts : l'.Facts m'
  held : ∀ a, l'.held = some a → m'.used a = true

/-- What a thread may assume before its step. The last field is the condition
on the run: the address handed out is not the one it holds. -/
structure StepPre (fresh : Addr) (m : Mem κ α) (l : Local κ α) : Prop where
  shape : Shape m
  owner : Owner m l
  facts : l.Facts m
  held : ∀ a, l.held = some a → m.used a = true
  fresh : l.allocates = true → l.held ≠ some fresh

section Memory

variable {fresh : Addr} {m m' : Mem κ α} {q : κ} {l l' : Local κ α} {p : TaggedPtr}
  {n : Addr} {spurious : Bool}

omit [DecidableEq κ] in
theorem Shape.tail_used (h : Shape m) (q : κ) : m.used (m.tail q).value = true :=
  h.used _ (h.live q _ (h.tail_mem q))

omit [DecidableEq κ] in
theorem Shape.head_used (h : Shape m) (q : κ) : m.used (m.head q).value = true :=
  h.used _ (h.live q _ (h.head_mem q))

/-- What a thread knows of the address it holds survives its own step. -/
theorem StepPre.keeps (h : StepPre fresh m l) (hc : Change fresh m l l' m') {x : Addr}
    (hx : l.held = some x) : Keeps m m' x := by
  refine hc.keeps h.shape h.owner fun hl => ?_
  rintro rfl
  exact h.fresh hl hx

theorem StepOk.same (hnode : l'.node = l.node) (howned : l'.owned = l.owned)
    (hfacts : l'.Facts m) (hheld : ∀ a, l'.held = some a → m.used a = true) :
    StepOk fresh m l l' m := ⟨.same hnode howned, hfacts, hheld⟩

/-- Helping, or finishing one's own push: the tail moves to the successor of
the value held, or stays. -/
theorem change_casTail (hnext : m.nextAddr p.value = n) (hn : n ≠ 0)
    (hnode : l'.node = l.node) (howned : l'.owned = l.owned) :
    Change fresh m l l' (m.casTail q p n spurious) := by
  unfold Mem.casTail
  split
  · next h =>
      obtain ⟨rfl, _⟩ := h
      subst hnext
      exact .swing q _ hn hnode howned
  · exact .same hnode howned

/-- The exchange of `next`: the node created is linked behind the last one of
the queue. -/
theorem change_casNext (hs : Shape m) (hp : TailHeld m q p) (hnull : m.nextAddr p.value = 0)
    (hn : l.node = some n) (t : Tag) (hnode : l'.node = none) (howned : l'.owned = none) :
    Change fresh m l l' (m.setNext p.value ⟨n, t⟩) := by
  obtain rfl := hs.tail_eq hp hnull
  exact .link q n t hnull hn hnode howned

/-- The exchange of the head. If it succeeds nobody has moved the head since
it was loaded, so the tail has left it. -/
theorem change_casHead {next : TaggedPtr} (hr : Removing m q p next) (hhead : m.head q = p)
    (t : Tag) (hl : l.owned = none) (hnode : l'.node = none)
    (howned : l'.owned = some p.value) :
    Change fresh m l l' (m.setHead q ⟨next.value, t⟩) := by
  have htail := hr.past hhead
  subst hhead
  rw [← hr.linked.1]
  exact .advance q t htail hl hnode howned

end Memory

section Operations

variable {fresh : Addr} {m m' : Mem κ α} {q : κ} {l' : Local κ α} {spurious : Bool}

/-- The accesses of `push` are classified changes. Case by program counter;
the exchange of `next` is the one that needs what the thread holds of the
tail. -/
theorem pushStep_ok {pc : PushPc α} (h : StepPre fresh m (.push q pc))
    (hstep : pushStep m q fresh spurious pc = some (m', l')) :
    StepOk fresh m (.push q pc) l' m' := by
  have hs := h.shape
  have htailUsed : ∀ a, some (m.tail q).value = some a → m.used a = true := by
    rintro a ⟨⟩
    exact hs.tail_used q
  cases pc with
  | newNode e =>
      simp only [pushStep, Option.map_eq_some_iff] at hstep
      obtain ⟨_, hnew, ⟨⟩⟩ := hstep
      exact ⟨.alloc e _ hnew rfl rfl rfl, trivial, by rintro a ⟨⟩⟩
  | loadTail node =>
      cases hstep
      exact .same rfl rfl (hs.tailHeld q) htailUsed
  | loadNext node oldTail =>
      cases hstep
      refine .same rfl rfl ⟨h.facts, fun hne => ⟨rfl, hne⟩⟩ h.held
  | checkTail node oldTail next =>
      simp only [pushStep] at hstep
      split at hstep
      · cases hstep
        exact .same rfl rfl trivial (by rintro a ⟨⟩)
      · split at hstep
        · next hnull =>
            cases hstep
            exact .same rfl rfl ⟨h.facts.1, hnull⟩ h.held
        · next hne =>
            cases hstep
            exact .same rfl rfl ⟨h.facts.1, h.facts.2 hne⟩ h.held
  | casNext node oldTail next =>
      simp only [pushStep] at hstep
      split at hstep
      · next hcas =>
          cases hstep
          have hnull : m.nextAddr oldTail.value = 0 := by
            rw [Mem.nextAddr, hcas.1, h.facts.2]
          have hc : Change fresh m (.push q (.casNext node oldTail next))
              (.push q (.casTail node oldTail)) _ :=
            change_casNext hs h.facts.1 hnull rfl (next.tag + 1) rfl rfl
          refine ⟨hc, ⟨(h.keeps hc rfl).tailHeld q oldTail rfl h.facts.1, ?_, ?_⟩, h.held⟩
          · exact Mem.nextAddr_setNext_self _ _
          · exact (h.owner.null node rfl).1
      · cases hstep
        exact .same rfl rfl trivial (by rintro a ⟨⟩)
  | casTail node oldTail =>
      cases hstep
      exact ⟨change_casTail h.facts.2.1 h.facts.2.2 rfl rfl, trivial, by rintro a ⟨⟩⟩
  | helpTail node oldTail next =>
      simp only [pushStep] at hstep
      split at hstep
      · cases hstep
        have hc : Change fresh m (.push q (.helpTail node oldTail next))
            (.push q (.loadNext node oldTail)) (m.casTail q oldTail next.value spurious) :=
          change_casTail h.facts.2.1 h.facts.2.2 rfl rfl
        exact ⟨hc, (h.keeps hc rfl).tailHeld q oldTail rfl h.facts.1,
          fun a ha => hc.used (h.held a ha)⟩
      · cases hstep
        exact .same rfl rfl (hs.tailHeld q) htailUsed

/-- The accesses of `try_push`, where a lost exchange leaves a node to be
deleted. -/
theorem tryPushStep_ok {pc : TryPushPc α} (h : StepPre fresh m (.tryPush q pc))
    (hstep : tryPushStep m q fresh pc = some (m', l')) :
    StepOk fresh m (.tryPush q pc) l' m' := by
  have hs := h.shape
  cases pc with
  | loadTail e oldTailState =>
      simp only [tryPushStep] at hstep
      split at hstep
      · cases hstep
        refine .same rfl rfl (hs.tailHeld q) ?_
        rintro a ⟨⟩
        exact hs.tail_used q
      · cases hstep
        exact .same rfl rfl trivial (by rintro a ⟨⟩)
  | loadNext e oldTail =>
      simp only [tryPushStep] at hstep
      split at hstep
      · next hnull =>
          cases hstep
          exact .same rfl rfl ⟨h.facts, hnull⟩ h.held
      · next hne =>
          cases hstep
          exact .same rfl rfl ⟨h.facts, rfl, hne⟩ h.held
  | newNode e oldTail next =>
      simp only [tryPushStep, Option.map_eq_some_iff] at hstep
      obtain ⟨_, hnew, ⟨⟩⟩ := hstep
      have hc : Change fresh m (.tryPush q (.newNode e oldTail next))
          (.tryPush q (.casNext fresh oldTail next)) m' := .alloc e _ hnew rfl rfl rfl
      exact ⟨hc, ⟨(h.keeps hc rfl).tailHeld q oldTail rfl h.facts.1, h.facts.2⟩,
        fun a ha => hc.used (h.held a ha)⟩
  | casNext node oldTail next =>
      simp only [tryPushStep] at hstep
      split at hstep
      · next hcas =>
          cases hstep
          have hnull : m.nextAddr oldTail.value = 0 := by
            rw [Mem.nextAddr, hcas, h.facts.2]
          have hc : Change fresh m (.tryPush q (.casNext node oldTail next))
              (.tryPush q (.casTail node oldTail)) _ :=
            change_casNext hs h.facts.1 hnull rfl (next.tag + 1) rfl rfl
          refine ⟨hc, ⟨(h.keeps hc rfl).tailHeld q oldTail rfl h.facts.1, ?_, ?_⟩, h.held⟩
          · exact Mem.nextAddr_setNext_self _ _
          · exact (h.owner.null node rfl).1
      · cases hstep
        exact .same rfl rfl trivial (by rintro a ⟨⟩)
  | casTail node oldTail =>
      cases hstep
      exact ⟨change_casTail h.facts.2.1 h.facts.2.2 rfl rfl, trivial, by rintro a ⟨⟩⟩
  | deleteNode node =>
      cases hstep
      exact ⟨.free node rfl rfl rfl, trivial, by rintro a ⟨⟩⟩
  | helpTail oldTail next =>
      cases hstep
      exact ⟨change_casTail h.facts.2.1 h.facts.2.2 rfl rfl, trivial, by rintro a ⟨⟩⟩

omit [DecidableEq κ] in
/-- The load of the tail after the load of the head. -/
theorem tailPast_load (_ : Shape m) {oldHead : TaggedPtr}
    (hne : oldHead.value ≠ (m.tail q).value) : TailPast m q oldHead :=
  fun _ heq => hne heq.symm

omit [DecidableEq κ] in
/-- The load of the successor when the tail was seen past the head. -/
theorem removing_load (hs : Shape m) {oldHead : TaggedPtr} (hheld : HeadHeld m q oldHead)
    (hpast : TailPast m q oldHead) : Removing m q oldHead (m.heap oldHead.value).next :=
  ⟨hheld, hpast, rfl, hs.next_ne_of_past hheld hpast⟩

omit [DecidableEq κ] in
/-- The read of the successor's value: it is the front element if the head has
not moved. -/
theorem front_read {oldHead next : TaggedPtr} (hr : Removing m q oldHead next) :
    Front m q oldHead (m.heap next.value).value := by
  intro _
  rw [hr.linked.1]

theorem popStep_ok {arg element : α} {headState : Option Tag} {pc : PopPc}
    (h : StepPre fresh m (.pop q arg element headState pc)) :
    StepOk fresh m (.pop q arg element headState pc)
      (popStep m q spurious arg element headState pc).2
      (popStep m q spurious arg element headState pc).1 := by
  have hs := h.shape
  cases pc with
  | loadHead =>
      refine .same rfl rfl (hs.headHeld q) ?_
      rintro a ⟨⟩
      exact hs.head_used q
  | loadTail oldHead => exact .same rfl rfl ⟨h.facts, tailPast_load hs⟩ h.held
  | loadNext oldHead oldTail =>
      refine .same rfl rfl ⟨h.facts.1, fun hne => removing_load hs h.facts.1 (h.facts.2 hne),
        fun heq hne => ⟨?_, hne⟩⟩ h.held
      rw [← heq]
      rfl
  | checkHead oldHead oldTail next =>
      simp only [popStep]
      split
      · exact .same rfl rfl trivial (by rintro a ⟨⟩)
      · split
        · next heq =>
            split
            · exact .same rfl rfl trivial (by rintro a ⟨⟩)
            · next hne =>
                refine .same rfl rfl (h.facts.2.2 heq hne) ?_
                rintro a ⟨⟩
                exact h.held _ (congrArg some heq)
        · next hne => exact .same rfl rfl (h.facts.2.1 hne) h.held
  | helpTail oldTail next =>
      exact ⟨change_casTail h.facts.1 h.facts.2 rfl rfl, trivial, by rintro a ⟨⟩⟩
  | readValue oldHead next => exact .same rfl rfl ⟨h.facts, front_read h.facts⟩ h.held
  | casHead oldHead next =>
      simp only [popStep]
      split
      · next hcas =>
          exact ⟨change_casHead h.facts.1 hcas.1 _ rfl rfl rfl, trivial, by rintro a ⟨⟩⟩
      · exact .same rfl rfl trivial (by rintro a ⟨⟩)
  | deleteHead oldHead =>
      exact ⟨.free oldHead.value rfl rfl rfl, trivial, by rintro a ⟨⟩⟩

theorem tryPopStep_ok {arg element : α} {oldHeadState headState : Tag} {pc : TryPopPc}
    (h : StepPre fresh m (.tryPop q arg element oldHeadState headState pc)) :
    StepOk fresh m (.tryPop q arg element oldHeadState headState pc)
      (tryPopStep m q arg element oldHeadState headState pc).2
      (tryPopStep m q arg element oldHeadState headState pc).1 := by
  have hs := h.shape
  cases pc with
  | loadHead =>
      refine .same rfl rfl (hs.headHeld q) ?_
      rintro a ⟨⟩
      exact hs.head_used q
  | loadTail oldHead => exact .same rfl rfl ⟨h.facts, tailPast_load hs⟩ h.held
  | loadNext oldHead oldTail =>
      simp only [tryPopStep]
      split
      · split
        · next heq =>
            split
            · exact .same rfl rfl trivial (by rintro a ⟨⟩)
            · next hne =>
                refine .same rfl rfl ⟨?_, hne⟩ ?_
                · rw [← heq]
                  rfl
                · rintro a ⟨⟩
                  exact h.held _ (congrArg some heq)
        · next hne =>
            exact .same rfl rfl (removing_load hs h.facts.1 (h.facts.2 hne)) h.held
      · exact .same rfl rfl trivial (by rintro a ⟨⟩)
  | helpTail oldTail next =>
      exact ⟨change_casTail h.facts.1 h.facts.2 rfl rfl, trivial, by rintro a ⟨⟩⟩
  | readValue oldHead next => exact .same rfl rfl ⟨h.facts, front_read h.facts⟩ h.held
  | casHead oldHead next =>
      simp only [tryPopStep]
      split
      · next hcas =>
          exact ⟨change_casHead h.facts.1 hcas _ rfl rfl rfl, trivial, by rintro a ⟨⟩⟩
      · exact .same rfl rfl trivial (by rintro a ⟨⟩)
  | deleteHead oldHead =>
      exact ⟨.free oldHead.value rfl rfl rfl, trivial, by rintro a ⟨⟩⟩

theorem emptyStep_ok {pc : EmptyPc} (h : StepPre fresh m (.empty q pc)) :
    StepOk fresh m (.empty q pc) (emptyStep m q pc).2 (emptyStep m q pc).1 := by
  have hs := h.shape
  cases pc with
  | loadHead =>
      refine .same rfl rfl (hs.headHeld q) ?_
      rintro a ⟨⟩
      exact hs.head_used q
  | loadTail oldHead => exact .same rfl rfl h.facts h.held
  | loadNext oldHead oldTail => exact .same rfl rfl h.facts h.held
  | checkHead oldHead oldTail next =>
      simp only [emptyStep]
      split <;> exact .same rfl rfl trivial (by rintro a ⟨⟩)

/-- One access of any operation is a classified change, and leaves the thread
with what its new program counter says. -/
theorem localStep_ok {l : Local κ α} (h : StepPre fresh m l)
    (hstep : localStep m fresh spurious l = some (m', l')) : StepOk fresh m l l' m' := by
  cases l with
  | idle => cases hstep
  | done => cases hstep
  | push q pc => exact pushStep_ok h hstep
  | tryPush q pc => exact tryPushStep_ok h hstep
  | pop q arg e hs pc =>
      have hok : StepOk fresh m (.pop q arg e hs pc) (popStep m q spurious arg e hs pc).2
          (popStep m q spurious arg e hs pc).1 := popStep_ok h
      rw [Option.some.inj hstep] at hok
      exact hok
  | tryPop q arg e s hs pc =>
      have hok := tryPopStep_ok h
      rw [Option.some.inj hstep] at hok
      exact hok
  | empty q pc =>
      have hok := emptyStep_ok h
      rw [Option.some.inj hstep] at hok
      exact hok
  | tailState q =>
      cases hstep
      exact .same rfl rfl trivial (by rintro a ⟨⟩)

end Operations

section Start

omit [DecidableEq κ] in
theorem start_node (op : Op κ α) : (start op).node = none := by
  cases op <;> rfl

omit [DecidableEq κ] in
theorem start_owned (op : Op κ α) : (start op).owned = none := by
  cases op <;> rfl

omit [DecidableEq κ] in
theorem start_held (op : Op κ α) : (start op).held = none := by
  cases op <;> rfl

omit [DecidableEq κ] in
theorem start_facts {m : Mem κ α} (op : Op κ α) : (start op).Facts m := by
  cases op <;> trivial

end Start

section Runs

variable [DecidableEq τ] [DecidableEq α]

/-- The allocator hands out no address that some thread still holds from an
earlier load of a head or a tail. This is weaker than never reusing memory,
and it is what the tags are meant to replace. -/
def NotHeld (s : State κ τ α) : Label κ τ α → Prop
  | .step t fresh _ => (s.threads t).allocates = true → ∀ u, (s.threads u).held ≠ some fresh
  | _ => True

/-- The allocator never hands out an address a second time. Memory that is
freed stays out of use. -/
def NeverReused (s : State κ τ α) : Label κ τ α → Prop
  | .step t fresh _ => (s.threads t).allocates = true → s.mem.used fresh = false
  | _ => True

instance (s : State κ τ α) (l : Label κ τ α) : Decidable (NeverReused s l) :=
  match l with
  | .step t fresh _ =>
      inferInstanceAs (Decidable ((s.threads t).allocates = true → s.mem.used fresh = false))
  | .call _ _ => inferInstanceAs (Decidable True)
  | .ret _ _ => inferInstanceAs (Decidable True)

instance [Fintype τ] (s : State κ τ α) (l : Label κ τ α) : Decidable (NotHeld s l) :=
  match l with
  | .step t fresh _ =>
      inferInstanceAs (Decidable ((s.threads t).allocates = true →
        ∀ u, (s.threads u).held ≠ some fresh))
  | .call _ _ => inferInstanceAs (Decidable True)
  | .ret _ _ => inferInstanceAs (Decidable True)

omit [DecidableEq κ] [DecidableEq τ] [DecidableEq α] in
/-- Freshly constructed queues satisfy the invariant: every queue is its
dummy, and no thread knows anything. -/
theorem Initial.inv {s : State κ τ α} (h : Initial s) : Inv s := by
  have hchain (q : κ) : s.mem.Chain q [(s.mem.head q).value] := by
    refine ⟨rfl, h.head_ne q, ?_⟩
    change (s.mem.heap (s.mem.head q).value).next.value = 0
    rw [h.next_null q]
    rfl
  have hnodes (q : κ) : s.mem.nodes q = [(s.mem.head q).value] := Mem.nodes_eq (hchain q)
  refine ⟨⟨h.head_ne, fun q => by rw [hnodes]; exact hchain q, ?_, ?_, ?_, ?_, ?_⟩,
    ?_, ?_, ?_, ?_, ?_, ?_⟩
  · intro q
    simp [hnodes, h.tail_eq q]
  · intro q
    rw [h.tail_eq q, Mem.nextAddr, h.next_null q]
    exact Or.inl rfl
  · intro q a ha
    rw [hnodes, List.mem_singleton] at ha
    exact (h.live_iff a).mpr ⟨q, ha⟩
  · intro q q' a ha ha'
    rw [hnodes, List.mem_singleton] at ha ha'
    exact h.distinct q q' (ha ▸ ha')
  · intro a ha
    rw [h.used_eq]
    exact ha
  · intro t
    rw [h.idle t]
    trivial
  all_goals simp [h.idle, Local.held, Local.owned, Local.node, Local.unlinked]

/-- Every step keeps the invariant, as long as it hands out no address that is
held. -/
theorem Inv.step {s s' : State κ τ α} {l : Label κ τ α} (h : Inv s) (hguard : NotHeld s l)
    (hnext : (system κ τ α).next s l = some s') : Inv s' := by
  cases l with
  | call t op =>
      obtain ⟨hidle, rfl⟩ := next_call hnext
      have hsame : Change 0 s.mem (s.threads t) (start op) s.mem :=
        .same (by rw [hidle, start_node]; rfl) (by rw [hidle, start_owned]; rfl)
      exact h.change t hsame (start_facts op) (by simp [start_held])
        (by simp [hidle, Local.allocates])
  | step t fresh spurious =>
      obtain ⟨m', l', hstep, rfl⟩ := next_step hnext
      have hok := localStep_ok ⟨h.shape, h.owner t, h.facts t, h.held_used t,
        fun hl => hguard hl t⟩ hstep
      exact h.change t hok.change hok.facts hok.held hguard
  | ret t result =>
      obtain ⟨hdone, rfl⟩ := next_ret hnext
      have hsame : Change 0 s.mem (s.threads t) .idle s.mem :=
        .same (by rw [hdone]; rfl) (by rw [hdone]; rfl)
      exact h.change t hsame trivial (by rintro a ⟨⟩)
        (by simp [hdone, Local.allocates])

/-- The invariant holds in every state that is reached without handing out a
held address. -/
theorem inv_of_run {s : State κ τ α} {ls : List (Label κ τ α)}
    (hrun : (system κ τ α).Run NotHeld ls s) : Inv s :=
  hrun.invariant (fun _ => Initial.inv) fun _ _ _ h => h.step

omit [DecidableEq κ] [DecidableEq τ] [DecidableEq α] in
/-- A held address has been handed out, so never reusing an address is a
special case of never handing out a held one. -/
theorem NeverReused.notHeld {s : State κ τ α} {l : Label κ τ α} (h : Inv s)
    (hguard : NeverReused s l) : NotHeld s l := by
  cases l with
  | call => trivial
  | ret => trivial
  | step t fresh spurious =>
      intro hl u hu
      have := h.held_used u fresh hu
      rw [hguard hl] at this
      cases this

theorem run_of_neverReused {s : State κ τ α} {ls : List (Label κ τ α)}
    (hrun : (system κ τ α).Run NeverReused ls s) : (system κ τ α).Run NotHeld ls s :=
  hrun.strengthen (fun _ => Initial.inv) (fun _ _ h => NeverReused.notHeld h)
    fun _ _ _ h => h.step

end Runs

end Libni.MSQueue
