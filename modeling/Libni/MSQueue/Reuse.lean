import Libni.MSQueue.Linearizable

/-!
What address reuse does to a push. The expected value of the exchange on
`old_tail->next` is null with the tag the push loaded, and the constructor of
`Node` starts every lifetime of an address with null and tag 0. While no
address is handed out that a thread still holds, the exchange writes to the
last node of the queue pushed to; otherwise a stalled push can write to a node
of another queue.
-/

namespace Libni.MSQueue

open Function Libni.Support Libni.Transition Libni.Transition.System

variable {κ τ α : Type*} [DecidableEq κ]

/-- Node `x` is the last node of queue `q`. -/
def Mem.IsLast (m : Mem κ α) (q : κ) (x : Addr) : Prop := ∃ l, m.Chain q (l ++ [x])

/-- The exchange on `old_tail->next` that a thread is about to make for queue
`q` succeeds and writes to node `x`. -/
inductive Local.Links (m : Mem κ α) (q : κ) (x : Addr) : Local κ α → Bool → Prop
  | push {node : Addr} {oldTail next : TaggedPtr} (hx : oldTail.value = x)
      (heq : (m.heap oldTail.value).next = next) :
      Links m q x (.push q (.casNext node oldTail next)) false
  | tryPush {node : Addr} {oldTail next : TaggedPtr} {spurious : Bool}
      (hx : oldTail.value = x) (heq : (m.heap oldTail.value).next = next) :
      Links m q x (.tryPush q (.casNext node oldTail next)) spurious

/-- Every successful exchange the next step may make on `old_tail->next`
writes to the last node of the queue being pushed to. -/
def LinksLast (s : State κ τ α) : Prop :=
  ∀ t spurious q x, (s.threads t).Links s.mem q x spurious → s.mem.IsLast q x

omit [DecidableEq κ] in
theorem Shape.isLast {m : Mem κ α} {q : κ} {x : Addr} (h : Shape m) (hx : x ∈ m.nodes q)
    (hnull : m.nextAddr x = 0) : m.IsLast q x := by
  obtain ⟨l, hl⟩ := (h.chain q).last_of_next_null hx hnull
  exact ⟨l, hl ▸ h.chain q⟩

omit [DecidableEq κ] in
/-- A queue whose head has no successor has no other last node. -/
theorem Mem.IsLast.eq_head {m : Mem κ α} {q : κ} {x : Addr} (h : m.IsLast q x)
    (hnull : m.nextAddr (m.head q).value = 0) : x = (m.head q).value := by
  obtain ⟨l, hchain⟩ := h
  have hne : (m.head q).value ≠ 0 := by
    intro hzero
    rw [Mem.Chain, hzero] at hchain
    cases l with
    | nil => exact hchain.2.1 rfl
    | cons b l => exact hchain.2.1 rfl
  have hone : m.Chain q [(m.head q).value] := ⟨rfl, hne, hnull⟩
  have heq := hchain.unique hone
  simpa using congrArg List.getLast? heq

omit [DecidableEq κ] in
/-- A thread that holds a tail with a null successor holds the last node, by
the invariant alone. -/
theorem Inv.linksLast {s : State κ τ α} (h : Inv s) : LinksLast s := by
  intro t spurious q x hlinks
  have hfacts := h.facts t
  generalize s.threads t = l at hlinks hfacts
  cases hlinks with
  | push hx heq =>
      obtain ⟨hheld, hnull⟩ := hfacts
      subst hx
      rw [← heq] at hnull
      exact h.shape.isLast (hheld.mem hnull) hnull
  | tryPush hx heq =>
      obtain ⟨hheld, hnull⟩ := hfacts
      subst hx
      rw [← heq] at hnull
      exact h.shape.isLast (hheld.mem hnull) hnull

variable [DecidableEq τ] [DecidableEq α]

/-- While the allocator hands out no address that a thread still holds, every
exchange on `old_tail->next` that succeeds writes to the last node of its own
queue, and the elements pushed stay in their queues until they are popped. -/
theorem link_hits_last {s : State κ τ α} {ls : List (Label κ τ α)}
    (hrun : (system κ τ α).Run NotHeld ls s) :
    LinksLast s ∧ LinearizesTo (fifo κ α) ((client κ τ α).history ls) s.mem.contents :=
  ⟨(inv_of_run hrun).linksLast, refines.linearizesTo hrun⟩

/-- A push and a pop of one thread on queue 0 of two; the pop deletes the
first dummy node and a push on queue 1 gets its address again. -/
def reuseRun : List (Label (Fin 2) Bool Nat) :=
  .call true (.push 0 11) :: .step true 4 false :: List.replicate 5 (Label.step true 0 false) ++
    .ret true (.pushed true) :: .call true (.pop 0 0 none) ::
      List.replicate 7 (Label.step true 0 false) ++
        [Label.ret true (.popped true 11 none), .call true (.push 1 22), .step true 1 false]

/-- An address may be handed out again once nobody holds it. -/
theorem link_hits_last_reuseRun : ∃ s : State (Fin 2) Bool Nat,
    (system (Fin 2) Bool Nat).Run NotHeld reuseRun s ∧ LinksLast s ∧
      LinearizesTo (fifo (Fin 2) Nat) [.call true (.push 0 11), .ret true (.pushed true),
        .call true (.pop 0 0 none), .ret true (.popped true 11 none),
        .call true (.push 1 22)] s.mem.contents := by
  have haccepted : ((system (Fin 2) Bool Nat).exec NotHeld (constructed 2 0)
      reuseRun).isSome = true := by decide +kernel
  have hrun := run_of_exec (initial_constructed 2 0) haccepted
  exact ⟨_, hrun, link_hits_last hrun⟩

/-- The other thread's push on queue 0 has stopped before its exchange on the
first dummy node. -/
def stalledPush : List (Label (Fin 2) Bool Nat) :=
  [.call false (.push 0 7), .step false 3 false, .step false 0 false, .step false 0 false,
    .step false 0 false]

/-- The stalled push goes on: its exchange succeeds on the node of the other
queue, it returns true, and a pop then finds queue 0 empty. -/
def lostPush : List (Label (Fin 2) Bool Nat) :=
  [.step false 0 false, .step false 0 false, .ret false (.pushed true),
    .call false (.pop 0 0 none), .step false 0 false, .step false 0 false,
    .step false 0 false, .step false 0 false, .ret false (.popped false 0 none)]

/-- The state in which the stalled push meets the reused address. -/
def reusedState : State (Fin 2) Bool Nat :=
  ((system (Fin 2) Bool Nat).exec Free (constructed 2 0) (stalledPush ++ reuseRun)).get
    (by decide +kernel)

/-- The tag does not protect the exchange: with the dummy node's address
handed out again for queue 1, the stalled push on queue 0 links its node into
queue 1, returns true, and a later pop reports queue 0 empty. -/
theorem link_misses_last :
    (system (Fin 2) Bool Nat).Run Free (stalledPush ++ reuseRun) reusedState ∧
      ¬ LinksLast reusedState ∧
      ∃ s, (system (Fin 2) Bool Nat).Steps Free reusedState lostPush s := by
  have hthread : reusedState.threads false = .push 0 (.casNext 3 ⟨1, 0⟩ .null) := by
    decide +kernel
  have hnext : (reusedState.mem.heap 1).next = .null := by decide +kernel
  have hhead : (reusedState.mem.head 0).value = 4 := by decide +kernel
  have hlast : reusedState.mem.nextAddr 4 = 0 := by decide +kernel
  refine ⟨run_of_exec (initial_constructed 2 0) _, fun hall => ?_, ?_⟩
  · have hlinks : (reusedState.threads false).Links reusedState.mem 0 1 false := by
      rw [hthread]
      exact .push rfl hnext
    have heq := (hall false false 0 1 hlinks).eq_head (by rw [hhead, hlast])
    rw [hhead] at heq
    cases heq
  · have haccepted : ((system (Fin 2) Bool Nat).exec Free reusedState lostPush).isSome =
        true := by decide +kernel
    exact ⟨_, steps_of_exec (Option.some_get haccepted).symm⟩

end Libni.MSQueue
