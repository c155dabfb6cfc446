import Libni.MSQueue.Steps

/-!
Where the operations of the Michael-Scott queue take effect. Pushes take effect
at the exchange of the last `next`, successful pops at the exchange of the head.
An unsuccessful pop and `empty` take effect at a load whose outcome a later load
of the head confirms, so until then both readings of their status are open.
-/

namespace Libni.MSQueue

open Function Libni.Transition

variable {κ τ α : Type*} [DecidableEq κ]

/-- The sequential meaning of the operations on a family of FIFO queues. The
failing outcomes of the `try` operations say nothing about the queue. -/
def Apply (a : κ → List α) : Op κ α → Res α → (κ → List α) → Prop
  | .push q element, .pushed true, a' => a' = update a q (a q ++ [element])
  | .tryPush q element _, .pushed true, a' => a' = update a q (a q ++ [element])
  | .tryPush _ _ _, .pushed false, a' => a' = a
  | .pop q _ _, .popped true element _, a' => a q = element :: a' q ∧ a' = update a q (a q).tail
  | .pop q _ _, .popped false _ _, a' => a q = [] ∧ a' = a
  | .tryPop q _ _ _, .tryPopped .success element _, a' =>
      a q = element :: a' q ∧ a' = update a q (a q).tail
  | .tryPop q _ _ _, .tryPopped .emptyQueue _ _, a' => a q = [] ∧ a' = a
  | .tryPop _ _ _ _, .tryPopped .failure _ _, a' => a' = a
  | .empty q, .isEmpty b, a' => (b = true ↔ a q = []) ∧ a' = a
  | .tailState _, .state _, a' => a' = a
  | _, _, _ => False

variable (κ α) in
/-- Initially empty FIFO queues, one for each queue of the family. They are
unbounded, as the source's are. -/
def fifo : Object (κ → List α) (Op κ α) (Res α) where
  init a := ∀ q, a q = []
  apply := Apply

/-- A `push` has taken effect once its node is linked. -/
def PushPc.Open (m : Mem κ α) (q : κ) (st : Status (Op κ α) (Res α)) : PushPc α → Prop
  | .newNode element => st = .pending (.push q element)
  | .loadTail node | .loadNext node _ | .checkTail node _ _ | .casNext node _ _
  | .helpTail node _ _ => st = .pending (.push q (m.heap node).value)
  | .casTail _ _ => st = .done (.pushed true)

/-- The same for `try_push`; a refused one takes effect when it finds out. -/
def TryPushPc.Open (m : Mem κ α) (q : κ) (st : Status (Op κ α) (Res α)) :
    TryPushPc α → Prop
  | .loadTail element oldTailState => st = .pending (.tryPush q element oldTailState)
  | .loadNext element oldTail | .newNode element oldTail _ =>
      st = .pending (.tryPush q element oldTail.tag)
  | .casNext node oldTail _ => st = .pending (.tryPush q (m.heap node).value oldTail.tag)
  | .deleteNode _ | .helpTail _ _ => st = .done (.pushed false)
  | .casTail _ _ => st = .done (.pushed true)

/-- A pop that has seen a null successor may or may not have taken effect. The
load of the head decides it: if the head is still the one loaded, the queue
was empty when the successor was read. -/
def PopPc.Open (q : κ) (arg element : α) (headState : Option Tag)
    (st : Status (Op κ α) (Res α)) : PopPc → Prop
  | .checkHead oldHead oldTail next =>
      st = .pending (.pop q arg headState) ∨
        (oldHead.value = oldTail.value ∧ next.value = 0 ∧
          st = .done (.popped false element (headState.map fun _ => oldTail.tag)))
  | .deleteHead oldHead =>
      st = .done (.popped true element (headState.map fun _ => oldHead.tag))
  | _ => st = .pending (.pop q arg headState)

/-- `try_pop` takes effect with its exchange or when it finds out that it
fails. -/
def TryPopPc.Open (q : κ) (arg element : α) (oldHeadState headState : Tag)
    (st : Status (Op κ α) (Res α)) : TryPopPc → Prop
  | .deleteHead _ => st = .done (.tryPopped .success element headState)
  | .helpTail _ _ => st = .done (.tryPopped .failure element headState)
  | _ => st = .pending (.tryPop q arg oldHeadState headState)

/-- `empty` may have taken effect only if the head it loaded is still there. -/
def EmptyPc.Open (m : Mem κ α) (q : κ) (st : Status (Op κ α) (Res α)) : EmptyPc → Prop
  | .loadHead | .loadTail _ => st = .pending (.empty q)
  | .loadNext oldHead oldTail =>
      st = .pending (.empty q) ∨
        (m.head q = oldHead ∧ oldHead.value ≠ oldTail.value ∧ st = .done (.isEmpty false))
  | .checkHead oldHead oldTail next =>
      st = .pending (.empty q) ∨
        (m.head q = oldHead ∧
          st = .done (.isEmpty (decide (oldHead.value = oldTail.value ∧ next.value = 0))))

/-- The statuses the atomic object may give a thread at this point. There may
be two, where only a later load tells whether the operation has taken effect. -/
def Local.Open (m : Mem κ α) (st : Status (Op κ α) (Res α)) : Local κ α → Prop
  | .idle => st = .idle
  | .push q pc => pc.Open m q st
  | .tryPush q pc => pc.Open m q st
  | .pop q arg element headState pc => pc.Open q arg element headState st
  | .tryPop q arg element oldHeadState headState pc =>
      pc.Open q arg element oldHeadState headState st
  | .empty q pc => pc.Open m q st
  | .tailState q => st = .pending (.tailState q)
  | .done r => st = .done r

variable (κ τ α) in
/-- The queues as clients of the atomic object. The contents are what the
object's value has to be. -/
noncomputable def client [DecidableEq τ] [DecidableEq α] :
    Client (system κ τ α) τ (κ → List α) (Op κ α) (Res α) where
  actor := Label.actor
  event := Label.event
  value s := s.mem.contents
  Open s t st := (s.threads t).Open s.mem st

section Change

variable {fresh : Addr} {m m' : Mem κ α} {q : κ} {l l' : Local κ α} {p : TaggedPtr}

theorem contents_casTail (n : Addr) (spurious : Bool) :
    (m.casTail q p n spurious).contents = m.contents := by
  unfold Mem.casTail
  split <;> rfl

theorem heap_casTail (n : Addr) (spurious : Bool) :
    (m.casTail q p n spurious).heap = m.heap := by
  unfold Mem.casTail
  split <;> rfl

/-- A node that is allocated keeps its value, whatever the others do. -/
theorem Change.value (h : Change fresh m l l' m') {a : Addr} (ha : m.live a = true) :
    (m'.heap a).value = (m.heap a).value := by
  cases h with
  | alloc e _ hnew =>
      apply Mem.value_new hnew
      rintro rfl
      obtain ⟨⟨_, hfree⟩, _⟩ := Mem.new_eq_some.mp hnew
      rw [ha] at hfree
      cases hfree
  | link => exact Mem.value_setNext _ _ _
  | same | swing | advance | free => rfl

theorem Change.head_back (h : Change fresh m l l' m') (hs : Shape m) (hp : HeadHeld m q p)
    (hhead : m'.head q = p) : m.head q = p := by
  cases h with
  | alloc e _ hnew =>
      obtain ⟨_, rfl⟩ := Mem.new_eq_some.mp hnew
      exact hhead
  | advance q' t htail =>
      by_cases hq : q = q'
      · subst hq
        rw [Mem.head_setHead_self] at hhead
        apply hp.head
        rw [← hhead]
        exact hs.next_mem (hs.head_mem q) (hs.next_ne_of_tail_ne htail)
      · rwa [Mem.head_setHead_of_ne _ hq] at hhead
  | same | swing | link | free => exact hhead

/-- A reading of another thread's status after a step was open before it. A
head that has been removed does not come back, so no reading is opened from
outside. -/
theorem Change.open_back (h : Change fresh m l l' m') (hs : Shape m) {k : Local κ α}
    (hk : Owner m k) (hf : k.Facts m) {st : Status (Op κ α) (Res α)}
    (hopen : k.Open m' st) : k.Open m st := by
  have hvalue {n : Addr} (hn : k.node = some n) : (m'.heap n).value = (m.heap n).value :=
    h.value (hk.live n (Local.owned_of_node hn))
  cases k with
  | idle | tailState | done => exact hopen
  | push q pc =>
      cases pc with
      | newNode | casTail => exact hopen
      | loadTail n | loadNext n | checkTail n | casNext n | helpTail n =>
          have hst : st = .pending (.push q (m'.heap n).value) := hopen
          rwa [hvalue rfl] at hst
  | tryPush q pc =>
      cases pc with
      | loadTail | loadNext | newNode | casTail | deleteNode | helpTail => exact hopen
      | casNext n ot nx =>
          have hst : st = .pending (.tryPush q (m'.heap n).value ot.tag) := hopen
          rwa [hvalue rfl] at hst
  | pop => exact hopen
  | tryPop => exact hopen
  | empty q pc =>
      cases pc with
      | loadHead | loadTail => exact hopen
      | loadNext oh ot =>
          exact hopen.imp_right fun hdone => ⟨h.head_back hs hf hdone.1, hdone.2⟩
      | checkHead oh ot nx =>
          exact hopen.imp_right fun hdone => ⟨h.head_back hs hf hdone.1, hdone.2⟩

end Change

section Back

variable {fresh : Addr} {m m' : Mem κ α} {q : κ} {l l' : Local κ α} {spurious : Bool} {t : τ}

/-- A reading `st'` after a step from `l` comes from one before it: the
effect, if there is one, is that of the atomic object. -/
def Back (t : τ) (m : Mem κ α) (l : Local κ α) (m' : Mem κ α)
    (st' : Status (Op κ α) (Res α)) : Prop :=
  ∃ st, l.Open m st ∧ Simulates (fifo κ α) t m.contents st none m'.contents st'

theorem Back.same {st' : Status (Op κ α) (Res α)} (h : l.Open m st')
    (hc : m'.contents = m.contents) : Back t m l m' st' :=
  ⟨st', h, Or.inl ⟨rfl, hc, rfl⟩⟩

theorem Back.perform {op : Op κ α} {r : Res α} (h : l.Open m (.pending op))
    (happly : Apply m.contents op r m'.contents) : Back t m l m' (.done r) :=
  ⟨.pending op, h, .perform happly⟩

/-- An operation that only looks takes effect without changing the queues. -/
theorem Back.observe {op : Op κ α} {r : Res α} (h : l.Open m (.pending op))
    (happly : Apply m.contents op r m.contents) (hc : m'.contents = m.contents) :
    Back t m l m' (.done r) :=
  .perform h (by rw [hc]; exact happly)

omit [DecidableEq κ] in
theorem value_new_self {e : α} (hnew : m.new fresh e = some m') :
    (m'.heap fresh).value = e := by
  obtain ⟨_, rfl⟩ := Mem.new_eq_some.mp hnew
  simp

/-- The exchange of the last `next` appends the element of the node. The node
held is the tail, as its successor was null. -/
theorem contents_casNext (h : StepPre fresh m l) {p : TaggedPtr} (hp : TailHeld m q p)
    (hnull : m.nextAddr p.value = 0) {n : Addr} (hn : l.node = some n) (tag : Tag) :
    (m.setNext p.value ⟨n, tag⟩).contents =
      update m.contents q (m.contents q ++ [(m.heap n).value]) :=
  h.shape.contents_link (hp.mem hnull) hnull (h.owner.null n hn).1 (h.owner.null n hn).2
    (h.owner.out n q (Local.owned_of_node hn))

/-- The exchange of the head removes the element read from its successor. The
value read before is still there, as nobody has moved the head. -/
theorem contents_casHead (hs : Shape m) {p next : TaggedPtr} {v : α}
    (hr : Removing m q p next) (hv : Front m q p v) (hhead : m.head q = p) (tag : Tag) :
    m.contents q = v :: (m.setHead q ⟨next.value, tag⟩).contents q ∧
      (m.setHead q ⟨next.value, tag⟩).contents =
        update m.contents q (m.contents q).tail := by
  have hfront := hv hhead
  subst hhead
  have hne := hr.linked.ne_zero
  obtain ⟨rest, _, hcontents⟩ := hs.contents_cons hne
  have hafter : (m.setHead q ⟨next.value, tag⟩).contents =
      update m.contents q (m.contents q).tail := by
    rw [← hr.linked.1]
    exact hs.contents_setHead
  refine ⟨?_, hafter⟩
  rw [hafter, update_self, hcontents, hfront]
  rfl

/-- The accesses of `push` are those of an atomic push: all but the exchange
of `next` leave the contents alone. -/
theorem pushStep_back {pc : PushPc α} (h : StepPre fresh m (.push q pc))
    (hstep : pushStep m q fresh spurious pc = some (m', l'))
    {st' : Status (Op κ α) (Res α)} (hopen : l'.Open m' st') :
    Back t m (.push q pc) m' st' := by
  cases pc with
  | newNode e =>
      simp only [pushStep, Option.map_eq_some_iff] at hstep
      obtain ⟨_, hnew, ⟨⟩⟩ := hstep
      have hst : st' = .pending (.push q (m'.heap fresh).value) := hopen
      rw [value_new_self hnew] at hst
      exact .same hst (h.shape.contents_new hnew)
  | loadTail | loadNext =>
      cases hstep
      exact .same hopen rfl
  | checkTail node oldTail next =>
      simp only [pushStep] at hstep
      split at hstep
      · cases hstep
        exact .same hopen rfl
      · split at hstep <;> cases hstep <;> exact .same hopen rfl
  | casNext node oldTail next =>
      simp only [pushStep] at hstep
      split at hstep
      · next hcas =>
          cases hstep
          have hnull : m.nextAddr oldTail.value = 0 := by
            rw [Mem.nextAddr, hcas.1, h.facts.2]
          have hst : st' = .done (.pushed true) := hopen
          subst hst
          have hpending : Local.Open m (.pending (.push q (m.heap node).value))
              (.push q (.casNext node oldTail next)) := rfl
          exact .perform hpending (contents_casNext h h.facts.1 hnull rfl _)
      · cases hstep
        exact .same hopen rfl
  | casTail node oldTail =>
      cases hstep
      exact .same hopen (contents_casTail node spurious)
  | helpTail node oldTail next =>
      simp only [pushStep] at hstep
      split at hstep
      · cases hstep
        have hst : st' = .pending (.push q
            ((m.casTail q oldTail next.value spurious).heap node).value) := hopen
        rw [heap_casTail] at hst
        exact .same hst (contents_casTail next.value spurious)
      · cases hstep
        exact .same hopen rfl

theorem tryPushStep_back {pc : TryPushPc α} (h : StepPre fresh m (.tryPush q pc))
    (hstep : tryPushStep m q fresh pc = some (m', l'))
    {st' : Status (Op κ α) (Res α)} (hopen : l'.Open m' st') :
    Back t m (.tryPush q pc) m' st' := by
  cases pc with
  | loadTail e s =>
      have hpending : Local.Open m (.pending (.tryPush q e s))
          (.tryPush q (.loadTail e s)) := rfl
      simp only [tryPushStep] at hstep
      split at hstep
      · next htag =>
          cases hstep
          have hst : st' = .pending (.tryPush q e (m.tail q).tag) := hopen
          rw [htag] at hst
          exact .same hst rfl
      · cases hstep
        cases hopen
        exact .observe hpending rfl rfl
  | loadNext e oldTail =>
      have hpending : Local.Open m (.pending (.tryPush q e oldTail.tag))
          (.tryPush q (.loadNext e oldTail)) := rfl
      simp only [tryPushStep] at hstep
      split at hstep
      · cases hstep
        exact .same hopen rfl
      · cases hstep
        cases hopen
        exact .observe hpending rfl rfl
  | newNode e oldTail next =>
      simp only [tryPushStep, Option.map_eq_some_iff] at hstep
      obtain ⟨_, hnew, ⟨⟩⟩ := hstep
      have hst : st' = .pending (.tryPush q (m'.heap fresh).value oldTail.tag) := hopen
      rw [value_new_self hnew] at hst
      exact .same hst (h.shape.contents_new hnew)
  | casNext node oldTail next =>
      have hpending : Local.Open m (.pending (.tryPush q (m.heap node).value oldTail.tag))
          (.tryPush q (.casNext node oldTail next)) := rfl
      simp only [tryPushStep] at hstep
      split at hstep
      · next hcas =>
          cases hstep
          have hnull : m.nextAddr oldTail.value = 0 := by
            rw [Mem.nextAddr, hcas, h.facts.2]
          have hst : st' = .done (.pushed true) := hopen
          subst hst
          exact .perform hpending (contents_casNext h h.facts.1 hnull rfl _)
      · cases hstep
        cases hopen
        exact .observe hpending rfl rfl
  | casTail node oldTail =>
      cases hstep
      exact .same hopen (contents_casTail node false)
  | deleteNode node =>
      cases hstep
      exact .same hopen rfl
  | helpTail oldTail next =>
      cases hstep
      exact .same hopen (contents_casTail next.value false)

omit [DecidableEq κ] in
/-- A head whose loaded successor is null is the only node of its queue. -/
theorem contents_load_null (hs : Shape m) {oldHead : TaggedPtr} (hp : HeadHeld m q oldHead)
    (hnull : (m.heap oldHead.value).next.value = 0) : m.contents q = [] := by
  obtain rfl := hs.head_of_null hp hnull
  exact hs.contents_nil hnull

/-- The accesses of `pop`. The reading in which an empty `pop` has already
taken effect is opened by the load of a null successor and settled by the load
of the head after it. -/
theorem popStep_back {arg element : α} {headState : Option Tag} {pc : PopPc}
    (h : StepPre fresh m (.pop q arg element headState pc)) {st' : Status (Op κ α) (Res α)}
    (hopen : (popStep m q spurious arg element headState pc).2.Open
      (popStep m q spurious arg element headState pc).1 st') :
    Back t m (.pop q arg element headState pc)
      (popStep m q spurious arg element headState pc).1 st' := by
  cases pc with
  | loadHead | loadTail | readValue => exact .same hopen rfl
  | loadNext oldHead oldTail =>
      rcases hopen with hpending | ⟨heq, hnull, rfl⟩
      · exact .same hpending rfl
      · have hpending : Local.Open m (.pending (.pop q arg headState))
            (.pop q arg element headState (.loadNext oldHead oldTail)) := rfl
        exact .observe hpending ⟨contents_load_null h.shape h.facts.1 hnull, rfl⟩ rfl
  | checkHead oldHead oldTail next =>
      simp only [popStep] at hopen ⊢
      split at hopen
      · next hhead =>
          rw [if_pos hhead]
          exact .same (Or.inl hopen) rfl
      · next hhead =>
          split at hopen
          · next heq =>
              split at hopen
              · next hnull =>
                  simp only [hhead, heq, hnull, if_false, if_true]
                  exact .same (Or.inr ⟨heq, hnull, hopen⟩) rfl
              · next hne =>
                  simp only [hhead, heq, hne, if_false, if_true]
                  exact .same (Or.inl hopen) rfl
          · next hne =>
              simp only [hhead, hne, if_false]
              exact .same (Or.inl hopen) rfl
  | helpTail oldTail next => exact .same hopen (contents_casTail next.value spurious)
  | casHead oldHead next =>
      simp only [popStep] at hopen ⊢
      split at hopen
      · next hcas =>
          rw [if_pos hcas]
          obtain ⟨hfront, hafter⟩ :=
            contents_casHead h.shape h.facts.1 h.facts.2 hcas.1 (oldHead.tag + 1)
          have hst : st' = .done (.popped true element (headState.map fun _ => oldHead.tag)) :=
            hopen
          subst hst
          have hpending : Local.Open m (.pending (.pop q arg headState))
              (.pop q arg element headState (.casHead oldHead next)) := rfl
          exact .perform hpending ⟨hfront, hafter⟩
      · next hcas =>
          rw [if_neg hcas]
          exact .same hopen rfl
  | deleteHead oldHead => exact .same hopen rfl

/-- The accesses of `try_pop`, which reports an empty queue at once. -/
theorem tryPopStep_back {arg element : α} {oldHeadState headState : Tag} {pc : TryPopPc}
    (h : StepPre fresh m (.tryPop q arg element oldHeadState headState pc))
    {st' : Status (Op κ α) (Res α)}
    (hopen : (tryPopStep m q arg element oldHeadState headState pc).2.Open
      (tryPopStep m q arg element oldHeadState headState pc).1 st') :
    Back t m (.tryPop q arg element oldHeadState headState pc)
      (tryPopStep m q arg element oldHeadState headState pc).1 st' := by
  cases pc with
  | loadHead | loadTail | readValue => exact .same hopen rfl
  | loadNext oldHead oldTail =>
      have hpending : Local.Open m (.pending (.tryPop q arg oldHeadState headState))
          (.tryPop q arg element oldHeadState headState (.loadNext oldHead oldTail)) := rfl
      simp only [tryPopStep] at hopen ⊢
      split at hopen
      · next htag =>
          split at hopen
          · next heq =>
              split at hopen
              · next hnull =>
                  rw [if_pos htag, if_pos heq, if_pos hnull]
                  cases hopen
                  exact .observe hpending
                    ⟨contents_load_null h.shape h.facts.1 hnull, rfl⟩ rfl
              · next hne =>
                  rw [if_pos htag, if_pos heq, if_neg hne]
                  cases hopen
                  exact .observe hpending rfl rfl
          · next hne =>
              rw [if_pos htag, if_neg hne]
              exact .same hopen rfl
      · next htag =>
          rw [if_neg htag]
          cases hopen
          exact .observe hpending rfl rfl
  | helpTail oldTail next => exact .same hopen (contents_casTail next.value false)
  | casHead oldHead next =>
      have hpending : Local.Open m (.pending (.tryPop q arg oldHeadState headState))
          (.tryPop q arg element oldHeadState headState (.casHead oldHead next)) := rfl
      simp only [tryPopStep] at hopen ⊢
      split at hopen
      · next hcas =>
          rw [if_pos hcas]
          have hst : st' = .done (.tryPopped .success element headState) := hopen
          subst hst
          exact .perform hpending
            (contents_casHead h.shape h.facts.1 h.facts.2 hcas (oldHead.tag + 1))
      · next hcas =>
          rw [if_neg hcas]
          cases hopen
          exact .observe hpending rfl rfl
  | deleteHead oldHead => exact .same hopen rfl

omit [DecidableEq κ] in
/-- Tail and head seen apart: the queue is not empty while the head stays. By
this the answer false of `empty` is right from its load of the tail on. -/
theorem contents_ne_nil (hs : Shape m) (hne : (m.tail q).value ≠ (m.head q).value) :
    m.contents q ≠ [] := by
  obtain ⟨rest, _, hcontents⟩ := hs.contents_cons (hs.next_ne_of_tail_ne hne)
  rw [hcontents]
  exact List.cons_ne_nil _ _

omit [DecidableEq κ] in
/-- The head's successor decides emptiness, not the comparison of head and
tail. -/
theorem contents_eq_nil_iff (hs : Shape m) :
    m.contents q = [] ↔ (m.heap (m.head q).value).next.value = 0 := by
  refine ⟨fun hnil => ?_, hs.contents_nil⟩
  by_contra hne
  obtain ⟨rest, _, hcontents⟩ := hs.contents_cons (q := q) hne
  rw [hcontents] at hnil
  cases hnil

/-- The accesses of `empty`, whose answer may be settled by the load of the
tail or by that of the successor. -/
theorem emptyStep_back {pc : EmptyPc} (h : StepPre fresh m (.empty q pc))
    {st' : Status (Op κ α) (Res α)}
    (hopen : (emptyStep m q pc).2.Open (emptyStep m q pc).1 st') :
    Back t m (.empty q pc) (emptyStep m q pc).1 st' := by
  have hs := h.shape
  cases pc with
  | loadHead => exact .same hopen rfl
  | loadTail oldHead =>
      have hpending : Local.Open m (.pending (.empty q))
          (.empty q (.loadTail oldHead) : Local κ α) := rfl
      rcases hopen with hst | ⟨hhead, hne, rfl⟩
      · exact .same hst rfl
      · refine .observe hpending ⟨?_, rfl⟩ rfl
        obtain rfl : m.head q = oldHead := hhead
        simpa using contents_ne_nil hs (Ne.symm hne)
  | loadNext oldHead oldTail =>
      have hpending : Local.Open m (.pending (.empty q))
          (.empty q (.loadNext oldHead oldTail) : Local κ α) := Or.inl rfl
      rcases hopen with hst | ⟨hhead, rfl⟩
      · exact .same (Or.inl hst) rfl
      · by_cases heq : oldHead.value = oldTail.value
        · -- the successor of the head decides, as long as the head stays
          refine .observe hpending ⟨?_, rfl⟩ rfl
          obtain rfl : m.head q = oldHead := hhead
          rw [contents_eq_nil_iff hs]
          simp [heq]
        · exact .same (Or.inr ⟨hhead, heq, by simp [heq]⟩) rfl
  | checkHead oldHead oldTail next =>
      simp only [emptyStep] at hopen ⊢
      split at hopen
      · next hhead =>
          rw [if_pos hhead]
          exact .same (Or.inr ⟨hhead, hopen⟩) rfl
      · next hhead =>
          rw [if_neg hhead]
          exact .same (Or.inl hopen) rfl

omit [DecidableEq κ] in
theorem pair_eq {r : Mem κ α × Local κ α} (h : r = (m', l')) : r.1 = m' ∧ r.2 = l' := by
  simp [h]

/-- One access of any operation does what the atomic object does, for some
reading of what has taken effect before. -/
theorem localStep_back {l : Local κ α} (h : StepPre fresh m l)
    (hstep : localStep m fresh spurious l = some (m', l'))
    {st' : Status (Op κ α) (Res α)} (hopen : l'.Open m' st') : Back t m l m' st' := by
  cases l with
  | idle | done => cases hstep
  | push q pc => exact pushStep_back h hstep hopen
  | tryPush q pc => exact tryPushStep_back h hstep hopen
  | pop q arg e hs pc =>
      obtain ⟨rfl, rfl⟩ := pair_eq (Option.some.inj hstep)
      exact popStep_back h hopen
  | tryPop q arg e s hs pc =>
      obtain ⟨rfl, rfl⟩ := pair_eq (Option.some.inj hstep)
      exact tryPopStep_back h hopen
  | empty q pc =>
      obtain ⟨rfl, rfl⟩ := pair_eq (Option.some.inj hstep)
      exact emptyStep_back h hopen
  | tailState q =>
      cases hstep
      cases hopen
      have hpending : Local.Open m (.pending (.tailState q)) (.tailState q) := rfl
      exact .observe hpending rfl rfl

end Back

end Libni.MSQueue
