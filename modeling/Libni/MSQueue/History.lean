import Libni.MSQueue.Effects

/-!
What happened to a queue so far: the elements its head has passed, and how often
its tail has moved. The tail's tag is that count modulo 2^16. An element whose
push has returned has been passed by the tail, and a `pop` that finds the queue
empty has seen the head catch up with the tail.
-/

namespace Libni.MSQueue

open Function

/-- What has happened so far: the elements the head has passed, and how often
the tail has moved. -/
structure History (κ α : Type*) where
  taken : κ → List α
  advances : κ → Nat

section After

variable {κ α : Type*}

def History.start : History κ α := ⟨fun _ => [], fun _ => 0⟩

/-- The history after a step from `m` to `m'`. The element removed by an
exchange of the head is the one in the node that becomes the dummy. -/
def History.after (h : History κ α) (m m' : Mem κ α) : History κ α where
  taken q :=
    if m'.head q = m.head q then h.taken q
    else h.taken q ++ [(m.heap (m'.head q).value).value]
  advances q := if m'.tail q = m.tail q then h.advances q else h.advances q + 1

/-- All elements ever linked into the queue, in order. The head divides it
into what was removed and what is there. -/
noncomputable def History.log (h : History κ α) (m : Mem κ α) (q : κ) : List α :=
  h.taken q ++ m.contents q

/-- The elements the tail has passed. -/
noncomputable def History.passed (h : History κ α) (m : Mem κ α) (q : κ) : List α :=
  (h.log m q).take (h.advances q)

def History.removals (h : History κ α) (q : κ) : Nat := (h.taken q).length

/-- The history belongs to the memory: the tags are the numbers of moves
modulo `2 ^ 16`, and the tail is as many nodes ahead of the head as it has
moved more often. -/
structure Recorded (h : History κ α) (m : Mem κ α) : Prop where
  position : ∀ q, h.advances q = h.removals q + (m.nodes q).idxOf (m.tail q).value
  head_tag : ∀ q, (m.head q).tag = BitVec.ofNat 16 (h.removals q)
  tail_tag : ∀ q, (m.tail q).tag = BitVec.ofNat 16 (h.advances q)

/-- Every move of a head or a tail bumps its tag. What else a step does to
memory is left open. -/
structure TagsCount (m m' : Mem κ α) : Prop where
  head : ∀ q, m'.head q ≠ m.head q → (m'.head q).tag = (m.head q).tag + 1
  tail : ∀ q, m'.tail q ≠ m.tail q → (m'.tail q).tag = (m.tail q).tag + 1

theorem Recorded.start {τ : Type*} {s : State κ τ α} (hinit : Initial s) :
    Recorded .start s.mem := by
  refine ⟨fun q => ?_, fun q => ?_, fun q => ?_⟩
  · have hnull : s.mem.nextAddr (s.mem.head q).value = 0 := by
      rw [Mem.nextAddr, hinit.next_null q]
      rfl
    simp [History.start, History.removals, hinit.inv.shape.nodes_of_next_null hnull,
      hinit.tail_eq q]
  · simp [History.start, History.removals, hinit.head_tag q]
  · simp [History.start, hinit.tail_eq q, hinit.head_tag q]

end After

section Change

variable {κ α : Type*} [DecidableEq κ] {h : History κ α} {fresh : Addr} {m m' : Mem κ α}
  {l l' : Local κ α} {q : κ}

omit [DecidableEq κ] in
@[simp] theorem Mem.head_setNext (a : Addr) (p : TaggedPtr) : (m.setNext a p).head = m.head := rfl

omit [DecidableEq κ] in
@[simp] theorem Mem.head_delete (a : Addr) : (m.delete a).head = m.head := rfl

omit [DecidableEq κ] in
@[simp] theorem Mem.tail_delete (a : Addr) : (m.delete a).tail = m.tail := rfl

omit [DecidableEq κ] in
@[simp] theorem History.after_self (h : History κ α) (m : Mem κ α) : h.after m m = h := by
  simp [History.after]

omit [DecidableEq κ] in
/-- The head is never moved onto the node it is at, so a move is seen by the
history. -/
theorem Shape.head_advance_ne (hs : Shape m) (t : Tag) :
    (⟨m.nextAddr (m.head q).value, t⟩ : TaggedPtr) ≠ m.head q := by
  intro heq
  have hvalue := congrArg TaggedPtr.value heq
  exact (hs.chain q).next_ne_start (hs.head_ne q) (hs.head_mem q) hvalue

omit [DecidableEq κ] in
theorem Shape.tail_swing_ne (hs : Shape m) (hne : m.nextAddr (m.tail q).value ≠ 0) (t : Tag) :
    (⟨m.nextAddr (m.tail q).value, t⟩ : TaggedPtr) ≠ m.tail q := by
  intro heq
  have hvalue := congrArg TaggedPtr.value heq
  have hidx := (hs.chain q).idxOf_next (hs.tail_mem q) hne
  simp only at hvalue
  rw [hvalue] at hidx
  omega

/-- A change of shared memory only appends to what was linked. Moving the head
takes an element from the contents and puts it into the history. -/
theorem Change.log (hc : Change fresh m l l' m') (hs : Shape m) (ho : Owner m l) (q : κ) :
    h.log m q <+: (h.after m m').log m' q := by
  cases hc with
  | same => simp
  | swing | free => simp [History.log, History.after]
  | alloc e _ hnew =>
      have hcontents := hs.contents_new hnew
      obtain ⟨_, rfl⟩ := Mem.new_eq_some.mp hnew
      simp [History.log, History.after, hcontents]
  | link q' n t hnull hn =>
      have hcontents := hs.contents_link (t := t) (hs.tail_mem q') hnull (ho.null n hn).1
        (ho.null n hn).2 (ho.out n q' (Local.owned_of_node hn))
      by_cases hq : q = q'
      · subst hq
        simp [History.log, History.after, hcontents]
      · simp [History.log, History.after, hcontents, update_of_ne hq]
  | advance q' t htail =>
      have hne := hs.next_ne_of_tail_ne htail
      by_cases hq : q = q'
      · subst hq
        obtain ⟨rest, _, hcontents⟩ := hs.contents_cons hne
        simp [History.log, History.after, hs.contents_setHead, hcontents,
          hs.head_advance_ne t]
      · simp [History.log, History.after, hs.contents_setHead, update_of_ne hq,
          Mem.head_setHead_of_ne _ hq]

omit [DecidableEq κ] in
theorem History.taken_after (q : κ) : h.taken q <+: (h.after m m').taken q := by
  simp only [History.after]
  split
  · exact List.prefix_rfl
  · exact List.prefix_append _ _

omit [DecidableEq κ] in
theorem History.advances_le (q : κ) : h.advances q ≤ (h.after m m').advances q := by
  simp only [History.after]
  split <;> omega

omit [DecidableEq κ] in
theorem History.removals_after (q : κ) : (h.after m m').removals q =
    if m'.head q = m.head q then h.removals q else h.removals q + 1 := by
  simp only [History.removals, History.after]
  split
  · rfl
  · exact List.length_append ..

theorem Change.recorded (hc : Change fresh m l l' m') (hs : Shape m) (ho : Owner m l)
    (htags : TagsCount m m') (hr : Recorded h m) : Recorded (h.after m m') m' := by
  refine ⟨fun q => ?_, fun q => ?_, fun q => ?_⟩
  · have hpos := hr.position q
    simp only [History.removals] at hpos ⊢
    cases hc with
    | same => simpa using hpos
    | swing q' t hne =>
        by_cases hq : q = q'
        · subst hq
          have hidx := (hs.chain q).idxOf_next (hs.tail_mem q) hne
          simp [History.after, hs.tail_swing_ne hne t, hidx, hpos, Nat.add_assoc]
        · simpa [History.after, Mem.tail_setTail_of_ne _ hq] using hpos
    | alloc e _ hnew =>
        have hnodes := hs.nodes_new hnew
        obtain ⟨_, rfl⟩ := Mem.new_eq_some.mp hnew
        simpa [History.after, hnodes] using hpos
    | link q' n t hnull hn =>
        have hnodes := hs.nodes_link (t := t) (hs.tail_mem q') hnull (ho.null n hn).1
          (ho.null n hn).2 (ho.out n q' (Local.owned_of_node hn))
        by_cases hq : q = q'
        · subst hq
          simpa [History.after, hnodes, List.idxOf_append_of_mem (hs.tail_mem q)]
            using hpos
        · simpa [History.after, hnodes, update_of_ne hq] using hpos
    | advance q' t htail =>
        have hne := hs.next_ne_of_tail_ne htail
        by_cases hq : q = q'
        · subst hq
          obtain ⟨rest, hcons, _⟩ := hs.nodes_cons q
          rw [hcons, List.idxOf_cons_ne _ htail.symm] at hpos
          simp [History.after, hs.nodes_setHead, hcons, hs.head_advance_ne t, hpos]
          omega
        · simpa [History.after, hs.nodes_setHead, update_of_ne hq,
            Mem.head_setHead_of_ne _ hq] using hpos
    | free a => simpa [History.after] using hpos
  · have htag := hr.head_tag q
    rw [History.removals_after]
    split
    · next heq => rw [heq, htag]
    · next hne =>
        rw [htags.head q hne, htag, BitVec.ofNat_add]
        rfl
  · have htag := hr.tail_tag q
    simp only [History.after]
    split
    · next heq => rw [heq, htag]
    · next hne =>
        rw [htags.tail q hne, htag, BitVec.ofNat_add]
        rfl

omit [DecidableEq κ] in
/-- What the tail has passed, it has passed for good. -/
theorem mem_passed {h' : History κ α} {e : α} (hlog : h.log m q <+: h'.log m' q)
    (hadvances : h.advances q ≤ h'.advances q) (he : e ∈ h.passed m q) :
    e ∈ h'.passed m' q := by
  obtain ⟨rest, hrest⟩ := hlog
  have hmem : e ∈ (h'.log m' q).take (h.advances q) := by
    rw [← hrest, List.take_append]
    exact List.mem_append_left _ he
  exact List.take_subset_take_left _ hadvances hmem

omit [DecidableEq κ] in
/-- The element behind the tail comes next in the order of linking. -/
theorem Shape.contents_behind_tail (hs : Shape m) (hne : m.nextAddr (m.tail q).value ≠ 0) :
    (m.contents q)[(m.nodes q).idxOf (m.tail q).value]? =
      some (m.heap (m.nextAddr (m.tail q).value)).value := by
  have hidx := (hs.chain q).idxOf_next (hs.tail_mem q) hne
  have hmem := hs.next_mem (hs.tail_mem q) hne
  rw [Mem.contents, List.getElem?_map, List.getElem?_tail, ← hidx, List.getElem?_idxOf hmem]
  rfl

/-- When the tail moves, it passes the element of the node it moves to.
Whoever moves it, that element is then behind the tail for good. -/
theorem Change.passes (hc : Change fresh m l l' m') (hs : Shape m) (hr : Recorded h m)
    (hmoved : m'.tail q ≠ m.tail q) :
    (m.heap (m.nextAddr (m.tail q).value)).value ∈ (h.after m m').passed m' q := by
  cases hc with
  | swing q' t hne =>
      by_cases hq : q = q'
      · subst hq
        have hbehind := hs.contents_behind_tail hne
        rw [History.passed, History.log]
        simp only [History.after, Mem.head_setTail, Mem.tail_setTail_self, Mem.contents_setTail,
          if_true, hs.tail_swing_ne hne t, if_false, hr.position q, History.removals]
        rw [Nat.add_assoc, List.take_length_add_append]
        refine List.mem_append_right _
          (List.mem_of_getElem? (i := (m.nodes q).idxOf (m.tail q).value) ?_)
        rw [List.getElem?_take, if_pos (Nat.lt_succ_self _), hbehind]
      · exact absurd (Mem.tail_setTail_of_ne _ hq) hmoved
  | alloc e _ hnew =>
      obtain ⟨_, rfl⟩ := Mem.new_eq_some.mp hnew
      exact absurd rfl hmoved
  | same | link | advance | free => exact absurd rfl hmoved

end Change

section Operations

variable {κ α : Type*} [DecidableEq κ] {m m' : Mem κ α} {q : κ} {fresh : Addr}
  {l l' : Local κ α}

omit [DecidableEq κ] in
theorem TagsCount.same (hhead : m'.head = m.head) (htail : m'.tail = m.tail) : TagsCount m m' :=
  ⟨fun q hne => absurd (congrFun hhead q) hne, fun q hne => absurd (congrFun htail q) hne⟩

omit [DecidableEq κ] in
theorem TagsCount.refl (m : Mem κ α) : TagsCount m m := .same rfl rfl

omit [DecidableEq κ] in
theorem tagsCount_new {e : α} (hnew : m.new fresh e = some m') : TagsCount m m' := by
  obtain ⟨_, rfl⟩ := Mem.new_eq_some.mp hnew
  exact .same rfl rfl

theorem tagsCount_casTail {p : TaggedPtr} {n : Addr} {spurious : Bool} :
    TagsCount m (m.casTail q p n spurious) := by
  unfold Mem.casTail
  split
  · next hcas =>
      refine ⟨fun _ hne => absurd rfl hne, fun q' hne => ?_⟩
      by_cases hq : q' = q
      · subst hq
        rw [Mem.tail_setTail_self, hcas.1]
      · exact absurd (Mem.tail_setTail_of_ne _ hq) hne
  · exact .refl m

theorem tagsCount_setHead {p : TaggedPtr} {n : Addr} (hhead : m.head q = p) :
    TagsCount m (m.setHead q ⟨n, p.tag + 1⟩) := by
  refine ⟨fun q' hne => ?_, fun _ hne => absurd rfl hne⟩
  by_cases hq : q' = q
  · subst hq
    rw [Mem.head_setHead_self, hhead]
  · exact absurd (Mem.head_setHead_of_ne _ hq) hne

theorem pushStep_tags {pc : PushPc α} {spurious : Bool}
    (hstep : pushStep m q fresh spurious pc = some (m', l')) : TagsCount m m' := by
  cases pc with
  | newNode e =>
      simp only [pushStep, Option.map_eq_some_iff] at hstep
      obtain ⟨_, hnew, ⟨⟩⟩ := hstep
      exact tagsCount_new hnew
  | loadTail | loadNext =>
      cases hstep
      exact .refl _
  | checkTail node oldTail next =>
      simp only [pushStep] at hstep
      split at hstep
      · cases hstep
        exact .refl _
      · split at hstep <;> cases hstep <;> exact .refl _
  | casNext node oldTail next =>
      simp only [pushStep] at hstep
      split at hstep <;> cases hstep <;> exact .same rfl rfl
  | casTail node oldTail =>
      cases hstep
      exact tagsCount_casTail
  | helpTail node oldTail next =>
      simp only [pushStep] at hstep
      split at hstep <;> cases hstep
      · exact tagsCount_casTail
      · exact .refl _

theorem tryPushStep_tags {pc : TryPushPc α} (hstep : tryPushStep m q fresh pc = some (m', l')) :
    TagsCount m m' := by
  cases pc with
  | newNode e oldTail next =>
      simp only [tryPushStep, Option.map_eq_some_iff] at hstep
      obtain ⟨_, hnew, ⟨⟩⟩ := hstep
      exact tagsCount_new hnew
  | casTail | helpTail =>
      cases hstep
      exact tagsCount_casTail
  | deleteNode =>
      cases hstep
      exact .same rfl rfl
  | loadTail | loadNext | casNext =>
      simp only [tryPushStep] at hstep
      split at hstep <;> cases hstep <;> exact .same rfl rfl

theorem popStep_tags {arg element : α} {headState : Option Tag} {pc : PopPc} {spurious : Bool} :
    TagsCount m (popStep m q spurious arg element headState pc).1 := by
  cases pc with
  | helpTail oldTail next => exact tagsCount_casTail
  | loadHead | loadTail | loadNext | readValue | deleteHead => exact .same rfl rfl
  | checkHead oldHead oldTail next =>
      simp only [popStep]
      split
      · exact .refl _
      · split
        · split <;> exact .refl _
        · exact .refl _
  | casHead oldHead next =>
      simp only [popStep]
      split
      · next hcas => exact tagsCount_setHead hcas.1
      · exact .refl _

theorem tryPopStep_tags {arg element : α} {oldHeadState headState : Tag} {pc : TryPopPc} :
    TagsCount m (tryPopStep m q arg element oldHeadState headState pc).1 := by
  cases pc with
  | helpTail oldTail next => exact tagsCount_casTail
  | loadHead | loadTail | readValue | deleteHead => exact .same rfl rfl
  | loadNext oldHead oldTail =>
      simp only [tryPopStep]
      split
      · split
        · split <;> exact .refl _
        · exact .refl _
      · exact .refl _
  | casHead oldHead next =>
      simp only [tryPopStep]
      split
      · next hcas => exact tagsCount_setHead hcas
      · exact .refl _

/-- Every access that moves a head or a tail bumps its tag by one. -/
theorem localStep_tags {spurious : Bool} (hstep : localStep m fresh spurious l = some (m', l')) :
    TagsCount m m' := by
  cases l with
  | idle | done => cases hstep
  | push q pc => exact pushStep_tags hstep
  | tryPush q pc => exact tryPushStep_tags hstep
  | pop q arg element headState pc =>
      obtain ⟨rfl, rfl⟩ := pair_eq (Option.some.inj hstep)
      exact popStep_tags
  | tryPop q arg element oldHeadState headState pc =>
      obtain ⟨rfl, rfl⟩ := pair_eq (Option.some.inj hstep)
      exact tryPopStep_tags
  | empty q pc =>
      obtain ⟨rfl, rfl⟩ := pair_eq (Option.some.inj hstep)
      cases pc with
      | checkHead =>
          simp only [emptyStep]
          split <;> exact .refl _
      | loadHead | loadTail | loadNext => exact .refl _
  | tailState q =>
      cases hstep
      exact .refl _

end Operations

end Libni.MSQueue
