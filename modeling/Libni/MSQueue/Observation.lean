import Libni.MSQueue.History

/-!
What `push` and `pop` know of the history. An element whose push has returned has been
passed by the tail, and a `pop` that finds the queue empty has seen the head catch up
with the tail.
-/

namespace Libni.MSQueue

open Function

section Operations

variable {κ α : Type*} {h h' : History κ α} {m m' : Mem κ α} {q : κ}

/-- The element `e` of a push: in the node to be linked, and once it is linked
either passed by the tail or next to be. -/
def PushPc.Delivers (h : History κ α) (m : Mem κ α) (q : κ) (e : α) : PushPc α → Prop
  | .newNode element => element = e
  | .loadTail node | .loadNext node _ | .checkTail node _ _ | .casNext node _ _
  | .helpTail node _ _ => (m.heap node).value = e
  | .casTail node oldTail =>
      e ∈ h.passed m q ∨ (m.tail q = oldTail ∧ (m.heap node).value = e)

/-- What `pop` will report as `head_state` when it finds the queue empty is
the tag of a tail that had moved `n` times, and then the head has moved as
often. -/
def PopPc.Observes (h : History κ α) (m : Mem κ α) (q : κ) (n : Nat) : PopPc → Prop
  | .loadNext oldHead oldTail | .checkHead oldHead oldTail _ =>
      oldTail.tag = BitVec.ofNat 16 n ∧
        (oldHead.value = oldTail.value → m.head q = oldHead → n ≤ (h.taken q).length)
  | _ => True

variable [DecidableEq κ] {fresh : Addr} {l l' : Local κ α} {e : α}

/-- The step of another thread. It may help, and then the tail has passed the
element. -/
theorem PushPc.Delivers.other {pc : PushPc α} (hd : pc.Delivers h m q e)
    (hc : Change fresh m l l' m') (hs : Shape m) (ho : Owner m l) (hr : Recorded h m)
    (hown : Owner m (.push q pc : Local κ α)) (hfacts : pc.Facts m q) :
    pc.Delivers (h.after m m') m' q e := by
  cases pc with
  | newNode => exact hd
  | loadTail node | loadNext node | checkTail node | casNext node | helpTail node =>
      exact (hc.value (hown.live node rfl)).trans hd
  | casTail node oldTail =>
      rcases hd with hpassed | ⟨rfl, hvalue⟩
      · exact .inl (mem_passed (hc.log hs ho q) (h.advances_le q) hpassed)
      · obtain ⟨-, hnext, hnode⟩ := hfacts
        by_cases hmoved : m'.tail q = m.tail q
        · refine .inr ⟨hmoved, (hc.value (hs.live q node ?_)).trans hvalue⟩
          rw [← hnext] at hnode ⊢
          exact hs.next_mem (hs.tail_mem q) hnode
        · have hpasses := hc.passes hs hr hmoved
          rw [hnext, hvalue] at hpasses
          exact .inl hpasses

/-- A push's own step, if its exchanges fail only on a mismatch. When it
returns, the tail has passed its element, by its own exchange or that of a
helper. -/
theorem pushStep_delivers {pc : PushPc α} (hpre : StepPre fresh m (.push q pc))
    (hr : Recorded h m) (hd : pc.Delivers h m q e)
    (hstep : pushStep m q fresh false pc = some (m', l')) :
    (∃ pc', l' = .push q pc' ∧ pc'.Delivers (h.after m m') m' q e) ∨
      (l' = .done (.pushed true) ∧ e ∈ (h.after m m').passed m' q) := by
  have hs := hpre.shape
  have hc : Change fresh m (.push q pc) l' m' := (pushStep_ok hpre hstep).change
  cases pc with
  | newNode element =>
      simp only [pushStep, Option.map_eq_some_iff] at hstep
      obtain ⟨_, hnew, ⟨⟩⟩ := hstep
      obtain rfl : element = e := hd
      refine .inl ⟨_, rfl, ?_⟩
      obtain ⟨_, rfl⟩ := Mem.new_eq_some.mp hnew
      simp [PushPc.Delivers]
  | loadTail node | loadNext node =>
      cases hstep
      exact .inl ⟨_, rfl, hd⟩
  | checkTail node oldTail next =>
      simp only [pushStep] at hstep
      split at hstep
      · cases hstep
        exact .inl ⟨_, rfl, hd⟩
      · split at hstep <;> cases hstep <;> exact .inl ⟨_, rfl, hd⟩
  | casNext node oldTail next =>
      simp only [pushStep] at hstep
      split at hstep
      · next hcas =>
          cases hstep
          have hnull : m.nextAddr oldTail.value = 0 := by
            rw [Mem.nextAddr, hcas.1, hpre.facts.2]
          refine .inl ⟨_, rfl, .inr ⟨hs.tail_eq hpre.facts.1 hnull, ?_⟩⟩
          exact (Mem.value_setNext _ _ _).trans hd
      · cases hstep
        exact .inl ⟨_, rfl, hd⟩
  | casTail node oldTail =>
      cases hstep
      refine .inr ⟨rfl, ?_⟩
      rcases hd with hpassed | ⟨htail, hvalue⟩
      · exact mem_passed (hc.log hs hpre.owner q) (h.advances_le q) hpassed
      · obtain ⟨-, hnext, hnode⟩ := hpre.facts
        have hmoved : (m.casTail q oldTail node false).tail q ≠ m.tail q := by
          subst htail
          rw [Mem.casTail, if_pos ⟨rfl, rfl⟩, Mem.tail_setTail_self, ← hnext]
          exact hs.tail_swing_ne (by rw [hnext]; exact hnode) _
        have hpasses := hc.passes hs hr hmoved
        rw [htail, hnext, hvalue] at hpasses
        exact hpasses
  | helpTail node oldTail next =>
      simp only [pushStep] at hstep
      have hlive := hpre.owner.live node rfl
      split at hstep
      · cases hstep
        exact .inl ⟨_, rfl, (hc.value hlive).trans hd⟩
      · cases hstep
        exact .inl ⟨_, rfl, hd⟩

/-- How often the tail had moved when a `pop` loaded it for the last time. -/
def PopPc.seen (advances n : Nat) : PopPc → Nat
  | .loadTail _ => advances
  | _ => n

/-- The step of another thread. The tail moves on, but the tag loaded remains
that of an instant of the call. -/
theorem PopPc.Observes.other {pc : PopPc} {n : Nat} (hobs : pc.Observes h m q n)
    (hc : Change fresh m l l' m') (hs : Shape m) (hfacts : pc.Facts m q e) :
    pc.Observes (h.after m m') m' q n := by
  have hkeep {oldHead oldTail : TaggedPtr} (hheld : HeadHeld m q oldHead)
      (hn : oldHead.value = oldTail.value → m.head q = oldHead → n ≤ (h.taken q).length)
      (heq : oldHead.value = oldTail.value) (hhead : m'.head q = oldHead) :
      n ≤ ((h.after m m').taken q).length :=
    (hn heq (hc.head_back hs hheld hhead)).trans (h.taken_after q).length_le
  cases pc with
  | loadNext oldHead oldTail => exact ⟨hobs.1, hkeep hfacts.1 hobs.2⟩
  | checkHead oldHead oldTail next => exact ⟨hobs.1, hkeep hfacts.1 hobs.2⟩
  | _ => trivial

/-- What a `pop` has found out after its own step: it goes on, has an element,
or has found the queue empty. -/
inductive Found (h : History κ α) (m : Mem κ α) (q : κ) (n : Nat) (arg : α)
    (headState : Option Tag) : Local κ α → Prop
  | searching {element : α} {pc : PopPc} (hobs : pc.Observes h m q n) :
      Found h m q n arg headState (.pop q arg element headState pc)
  | taken {element : α} {tag : Option Tag} :
      Found h m q n arg headState (.done (.popped true element tag))
  | empty {element : α} {tag : Tag} (htag : tag = BitVec.ofNat 16 n)
      (hn : n ≤ (h.taken q).length) :
      Found h m q n arg headState (.done (.popped false element (headState.map fun _ => tag)))

/-- What a `pop` has found out stays true while others go on. -/
theorem Found.other {n : Nat} {arg : α} {headState : Option Tag} {k k' : Local κ α}
    (hfound : Found h m q n arg headState l) (hc : Change fresh m k k' m') (hs : Shape m)
    (hfacts : l.Facts m) : Found (h.after m m') m' q n arg headState l := by
  cases hfound with
  | searching hobs => exact .searching (hobs.other hc hs hfacts)
  | taken => exact .taken
  | empty htag hn => exact .empty htag (hn.trans (h.taken_after q).length_le)

/-- The own step of a `pop`. The instant it reports is its last load of the
tail. -/
theorem popStep_found {arg element : α} {headState : Option Tag} {pc : PopPc}
    {spurious : Bool} {n : Nat} (hpre : StepPre fresh m (.pop q arg element headState pc))
    (hr : Recorded h m) (hobs : pc.Observes h m q n) :
    Found (h.after m (popStep m q spurious arg element headState pc).1)
      (popStep m q spurious arg element headState pc).1 q (pc.seen (h.advances q) n) arg
      headState (popStep m q spurious arg element headState pc).2 := by
  have hs := hpre.shape
  cases pc with
  | loadHead => exact .searching trivial
  | loadTail oldHead =>
      refine .searching ⟨?_, fun heq hhead => ?_⟩
      · simpa [popStep, PopPc.seen] using hr.tail_tag q
      · obtain ⟨rest, hcons, _⟩ := hs.nodes_cons q
        have hpos := hr.position q
        obtain rfl : m.head q = oldHead := hhead
        rw [← show (m.head q).value = (m.tail q).value from heq, hcons,
          List.idxOf_cons_self] at hpos
        simp [popStep, PopPc.seen, hpos, History.removals]
  | loadNext oldHead oldTail =>
      exact .searching (by simpa [popStep, PopPc.Observes, PopPc.seen] using hobs)
  | checkHead oldHead oldTail next =>
      simp only [popStep]
      split
      · exact .searching trivial
      · next hhead =>
          split
          · next heq =>
              split
              · have hhead : m.head q = oldHead := by simpa using hhead
                exact .empty hobs.1 (by simpa [PopPc.seen] using hobs.2 heq hhead)
              · exact .searching trivial
          · exact .searching trivial
  | helpTail | readValue => exact .searching trivial
  | casHead oldHead next =>
      simp only [popStep]
      split <;> exact .searching trivial
  | deleteHead oldHead => exact .taken

end Operations

end Libni.MSQueue
