import Libni.BufferList.Producer
import Libni.BufferList.Consumer

/-!
The buffer list refines an unbounded FIFO in every run with one producer and one
consumer, whatever buffers are recycled or reallocated on the way.
-/

namespace Libni.BufferList

open Function Libni.Transition Libni.Transition.System
open Libni.RingBuffer (Role)

variable {α : Type*} {empty : α}

def State.contents (s : State α) : List α := BufferList.contents s.mem (s.threads .consumer)

/-- The list has its shape, for some division of the buffers before and behind
the one written. -/
def Inv (empty : α) (s : State α) : Prop :=
  ∃ pre, Placed empty s.mem (s.threads .producer) (s.threads .consumer) pre

section Threads

variable {m m' : Mem α} {p p' c c' : Local α} {pre : List Addr} {fresh : Addr}

theorem start_post (op : Op α) : (start op).post = [] := by
  cases op <;> rfl

theorem start_inHand (op : Op α) : (start op).inHand = [] := by
  cases op <;> rfl

theorem start_chain (op : Op α) : (start op).chain m = m.bufToRead :: m.inUse := by
  cases op <;> rfl

theorem start_released (op : Op α) : (start op).released m = [] := by
  cases op <;> rfl

theorem start_fresh (op : Op α) : (start op).fresh = false := by
  cases op <;> rfl

/-- A reading of the consumer's status after a step of the producer was open
before it: the producer never comes back to the buffer being read. -/
theorem Placed.open_consumer (h : Placed empty m p c pre)
    (hstep : localStep empty m fresh p = some (m', p')) {st : Status (Op α) (Res α)}
    (hopen : c.Open empty m' st) : c.Open empty m st := by
  cases p with
  | idle | done => cases hstep
  | pop | empty => exact h.producing.elim
  | push pc =>
      have hkeep : (c.chain m = m.bufToRead :: m.inUse → m'.bufToRead = m'.bufToWrite →
          m.bufToRead = m.bufToWrite) → c.Open empty m st := by
        intro hback
        cases c with
        | idle | done => exact hopen
        | push => exact (h.consuming : False).elim
        | pop pc =>
            cases pc with
            | compare => exact hopen.imp_right fun hdone => ⟨hback rfl hdone.1, hdone.2⟩
            | _ => exact hopen
        | empty pc =>
            cases pc with
            | checkEmpty => exact hopen
            | compare => exact hopen.imp_right fun hdone => ⟨hback rfl hdone.1, hdone.2⟩
      apply hkeep
      intro hchain hsame
      cases pc with
      | checkAvailable e =>
          simp only [localStep, pushStep] at hstep
          split at hstep <;> cases hstep <;> exact hsame
      | takeCache e =>
          simp only [localStep, pushStep] at hstep
          split at hstep <;> cases hstep <;> exact hsame
      | newBuffer e =>
          simp only [localStep, pushStep, Option.map_eq_some_iff] at hstep
          obtain ⟨_, hnew, ⟨⟩⟩ := hstep
          obtain ⟨_, rfl⟩ := Mem.newBuffer_eq_some.mp hnew
          exact hsame
      | publish | store =>
          cases hstep
          exact hsame
      | setWrite e b =>
          cases hstep
          have hafter := h.setWrite
          have hnil := (hafter.head_eq_write_iff
            (by rw [chain_congr rfl rfl]; exact hchain)).mp hsame
          simp at hnil

theorem Placed.open_producer (h : Placed empty m p c pre) {st : Status (Op α) (Res α)}
    (hopen : p.Open empty m' st) : p.Open empty m st := by
  cases p with
  | idle | done => exact hopen
  | pop | empty => exact h.producing.elim
  | push pc => cases pc <;> exact hopen

end Threads

theorem Initial.placed {s : State α} (h : Initial s) :
    Placed empty s.mem (s.threads .producer) (s.threads .consumer) [] := by
  have hp := h.idle .producer
  have hc := h.idle .consumer
  have howned : owned s.mem (s.threads .producer) (s.threads .consumer) =
      s.mem.bufToRead :: s.mem.cache := by
    simp [owned, hp, hc, Local.chain, Local.inHand, Local.released, h.inUse_nil]
  refine ⟨?_, by rw [howned]; exact h.nodup, by rw [howned]; exact h.live, by simp, ?_, ?_,
    ?_, by rw [hp]; trivial, by rw [hc]; trivial⟩
  · simp [hp, hc, Local.chain, Local.post, h.inUse_nil, h.same]
  · intro a ha
    apply h.buf_nil a
    simp only [hp, Local.inHand, Local.post, List.append_nil] at ha
    exact List.mem_cons_of_mem _ ha
  · intro a ha
    rw [hc] at ha
    change a ∈ s.mem.bufToRead :: s.mem.inUse at ha
    rw [h.inUse_nil, List.mem_singleton] at ha
    rw [ha, h.buf_nil _ List.mem_cons_self]
    simp
  · obtain ⟨k, hk⟩ := h.size_pow
    rw [hk]
    exact Nat.two_pow_pos _

theorem start_placed {s : State α} {t : Role} {op : Op α} (h : Inv empty s)
    (hidle : s.threads t = .idle) (hallowed : Allowed empty t op) :
    Inv empty ⟨s.mem, update s.threads t (start op)⟩ ∧
      State.contents ⟨s.mem, update s.threads t (start op)⟩ = s.contents := by
  obtain ⟨pre, hplaced⟩ := h
  cases t with
  | producer =>
      refine ⟨⟨pre, ?_⟩, by simp [State.contents]⟩
      rw [hidle] at hplaced
      simp only [update_self, update_of_ne (show Role.consumer ≠ .producer by decide)]
      apply hplaced.producer (start_post op) (start_inHand op)
      cases op with
      | push => exact hallowed
      | pop | empty => exact hallowed
  | consumer =>
      refine ⟨⟨pre, ?_⟩, ?_⟩
      · rw [hidle] at hplaced
        simp only [update_self, update_of_ne (show Role.producer ≠ .consumer by decide)]
        apply hplaced.consumer (start_chain op) (start_released op)
        · rw [start_fresh]
          exact id
        · cases op with
          | push => exact hallowed
          | pop | empty => trivial
      · simp only [State.contents, update_self, hidle, contents, start_chain]
        rfl

theorem ret_placed {s : State α} {t : Role} {res : Res α} (h : Inv empty s)
    (hdone : s.threads t = .done res) :
    Inv empty ⟨s.mem, update s.threads t .idle⟩ ∧
      State.contents ⟨s.mem, update s.threads t .idle⟩ = s.contents := by
  obtain ⟨pre, hplaced⟩ := h
  cases t with
  | producer =>
      refine ⟨⟨pre, ?_⟩, by simp [State.contents]⟩
      rw [hdone] at hplaced
      simp only [update_self, update_of_ne (show Role.consumer ≠ .producer by decide)]
      exact hplaced.producer rfl rfl trivial
  | consumer =>
      refine ⟨⟨pre, ?_⟩, ?_⟩
      · rw [hdone] at hplaced
        simp only [update_self, update_of_ne (show Role.producer ≠ .consumer by decide)]
        exact hplaced.consumer rfl rfl id trivial
      · simp only [State.contents, update_self, hdone]
        rfl

/-- A step of a thread inside an operation keeps the shape, and every reading
of the statuses after it comes from one before. -/
theorem localStep_placed {s : State α} {t : Role} {m : Mem α} {l : Local α} {fresh : Addr}
    (h : Inv empty s) (hstep : localStep empty s.mem fresh (s.threads t) = some (m, l)) :
    Inv empty ⟨m, update s.threads t l⟩ ∧
      Back empty t s.mem (s.threads t) s.contents m l
        (State.contents ⟨m, update s.threads t l⟩) := by
  obtain ⟨pre, hplaced⟩ := h
  cases t with
  | producer =>
      have hproducing := hplaced.producing
      simp only [State.contents, Inv, update_self,
        update_of_ne (show Role.consumer ≠ .producer by decide)]
      generalize s.threads .producer = p at hplaced hstep hproducing ⊢
      cases p with
      | idle | done => cases hstep
      | pop | empty => exact hproducing.elim
      | push pc =>
          obtain ⟨pre', hplaced', hback⟩ := pushStep_ok hplaced hstep
          exact ⟨⟨pre', hplaced'⟩, hback⟩
  | consumer =>
      have hconsuming := hplaced.consuming
      simp only [State.contents, Inv, update_self,
        update_of_ne (show Role.producer ≠ .consumer by decide)]
      generalize s.threads .consumer = c at hplaced hstep hconsuming ⊢
      cases c with
      | idle | done => cases hstep
      | push => exact hconsuming.elim
      | pop pc =>
          obtain ⟨pre', hplaced', hback⟩ := popStep_ok hplaced
          obtain ⟨rfl, rfl⟩ := Prod.ext_iff.mp (Option.some.inj hstep)
          exact ⟨⟨pre', hplaced'⟩, hback⟩
      | empty pc =>
          cases hstep
          exact ⟨⟨pre, (emptyStep_ok hplaced).1⟩, (emptyStep_ok hplaced).2⟩

variable [DecidableEq α]

variable (empty) in
/-- Calls, returns and the readings of the two threads. -/
def client : Client (system empty) Role (List α) (Op α) (Res α) where
  actor := Label.actor
  event := Label.event
  value := State.contents
  Open s t st := (s.threads t).Open empty s.mem st

/-- The invariant after a step, and what its readings come from. One case for
each operation on a buffer, a list or the allocator. -/
theorem Inv.next {s s' : State α} {l : Label α} (h : Inv empty s)
    (hguard : Disciplined empty s l) (hnext : (system empty).next s l = some s') :
    Inv empty s' ∧ ∀ st', (s'.threads l.actor).Open empty s'.mem st' →
      ∃ st, (s.threads l.actor).Open empty s.mem st ∧
        Simulates (fifo empty) l.actor s.contents st l.event s'.contents st' := by
  cases l with
  | call t op =>
      obtain ⟨hidle, rfl⟩ := next_call hnext
      obtain ⟨hinv, hcontents⟩ := start_placed h hidle hguard
      refine ⟨hinv, fun st' hopen => ⟨.idle, ?_, ?_⟩⟩
      · simp only [Label.actor, hidle]
        rfl
      · simp only [Label.actor, update_self] at hopen
        obtain rfl : st' = .pending op := by cases op <;> exact hopen
        rw [hcontents]
        exact .call _ op
  | step t fresh =>
      obtain ⟨m, l, hstep, rfl⟩ := next_step hnext
      simp only [Label.actor, Label.event, update_self]
      exact localStep_placed h hstep
  | ret t result =>
      obtain ⟨hdone, rfl⟩ := next_ret hnext
      obtain ⟨hinv, hcontents⟩ := ret_placed h hdone
      refine ⟨hinv, fun st' hopen => ⟨.done result, ?_, ?_⟩⟩
      · simp only [Label.actor, hdone]
        rfl
      · simp only [Label.actor, update_self] at hopen
        obtain rfl : st' = .idle := hopen
        rw [hcontents]
        exact .ret _ result

/-- A reading of the status of a thread that does not move was open before. -/
theorem Inv.frame {s s' : State α} {l : Label α} {t : Role} {st : Status (Op α) (Res α)}
    (h : Inv empty s) (hnext : (system empty).next s l = some s') (ht : t ≠ l.actor)
    (hopen : (s'.threads t).Open empty s'.mem st) : (s.threads t).Open empty s.mem st := by
  obtain ⟨pre, hplaced⟩ := h
  cases l with
  | call u op =>
      obtain ⟨_, rfl⟩ := next_call hnext
      change t ≠ u at ht
      simpa only [update_of_ne ht] using hopen
  | step u fresh =>
      obtain ⟨m, l, hstep, rfl⟩ := next_step hnext
      change t ≠ u at ht
      simp only [update_of_ne ht] at hopen
      cases t with
      | producer => exact hplaced.open_producer hopen
      | consumer =>
          cases u with
          | producer => exact hplaced.open_consumer hstep hopen
          | consumer => exact absurd rfl ht
  | ret u result =>
      obtain ⟨_, rfl⟩ := next_ret hnext
      change t ≠ u at ht
      simpa only [update_of_ne ht] using hopen

/-- The buffer list simulates the unbounded FIFO backwards along every run: a
reading of the statuses after a step comes from one before it. -/
theorem refines : (client empty).Refines (Disciplined empty) (Inv empty) (fifo empty) where
  inv_init _ h := ⟨[], h.placed⟩
  inv_step _ _ _ h hguard hnext := (h.next hguard hnext).1
  value_init s h := by
    have hplaced : Placed empty s.mem (s.threads .producer) (s.threads .consumer) [] := h.placed
    change contents s.mem (s.threads .consumer) = []
    rw [hplaced.contents_of_pre_nil rfl, h.same]
    exact h.buf_nil _ List.mem_cons_self
  idle_init s t st h hopen := by
    change (s.threads t).Open empty s.mem st at hopen
    rw [h.idle t] at hopen
    exact hopen
  some_open s t _ := by
    change ∃ st, (s.threads t).Open empty s.mem st
    generalize s.threads t = l
    cases l with
    | idle | done => exact ⟨_, rfl⟩
    | push pc => cases pc <;> exact ⟨_, rfl⟩
    | pop pc => cases pc <;> first | exact ⟨_, rfl⟩ | exact ⟨_, Or.inl rfl⟩
    | empty pc => cases pc <;> first | exact ⟨_, rfl⟩ | exact ⟨_, Or.inl rfl⟩
  frame _ _ _ _ _ h _ hnext ht hopen := h.frame hnext ht hopen
  back _ _ _ st' h hguard hnext hopen := (h.next hguard hnext).2 st' hopen

def pushed (p : Performed Role (Op α) (Res α)) : List α :=
  match p.op, p.result with
  | .push element, .pushed => [element]
  | _, _ => []

def popped (empty : α) (p : Performed Role (Op α) (Res α)) : List α :=
  match p.op, p.result with
  | .pop, .popped element => if element = empty then [] else [element]
  | _, _ => []

/-- An operation pops from the front of what is stored and what it pushes. -/
theorem pushed_eq {a a' : List α} {p : Performed Role (Op α) (Res α)}
    (h : Apply empty a p.op p.result a') : a ++ pushed p = popped empty p ++ a' := by
  obtain ⟨t, op, res⟩ := p
  cases op <;> cases res <;> try exact h.elim
  case push.pushed e => simpa [pushed, popped] using Eq.symm h
  case pop.popped e =>
    rcases h with ⟨he, _, rfl⟩ | ⟨he, rfl⟩ <;> simp [pushed, popped, he]
  case empty.isEmpty b => simpa [pushed, popped] using h.2.symm

/-- In every run with one producer and one consumer the buffer list is an
unbounded FIFO: its operations take effect at one instant of their calls, the
elements popped are a prefix of those pushed and the others are stored.
Buffers may be recycled and addresses reused at any time. -/
theorem bufferList_refines_fifo {s : State α} {ls : List (Label α)}
    (hrun : (system empty).Run (Disciplined empty) ls s) :
    ∃ lin status, Atomic (fifo empty) ((client empty).history ls) lin s.contents status ∧
      lin.flatMap pushed = lin.flatMap (popped empty) ++ s.contents := by
  obtain ⟨lin, status, hatomic⟩ := refines.linearizesTo hrun
  refine ⟨lin, status, hatomic, ?_⟩
  obtain ⟨a, rfl, hseq⟩ := hatomic.sequential
  exact hseq.conserves fun _ _ _ => pushed_eq

/-- One buffer of two slots and room for another one in the cache. -/
def oneBuffer : State Nat where
  mem := {
    bufToRead := 1
    bufToWrite := 1
    bufSize := 2
    inUse := []
    cache := []
    cacheSize := 2
    buf := fun _ => []
    live := fun a => a == 1 }
  threads := fun _ => .idle

/-- The third push opens a second buffer; the consumer abandons the first one
while the producer is about to store, and the fifth push gets it back. -/
def recyclingRun : List (Label Nat) :=
  [Label.call .producer (.push 5), .step .producer 0, .step .producer 0, .ret .producer .pushed,
    .call .producer (.push 6), .step .producer 0, .step .producer 0, .ret .producer .pushed,
    .call .producer (.push 7), .step .producer 0, .step .producer 0, .step .producer 2,
    .step .producer 0, .step .producer 0, .call .consumer .pop, .step .consumer 0,
    .step .consumer 0, .ret .consumer (.popped 5), .call .consumer .pop, .step .consumer 0,
    .step .consumer 0, .ret .consumer (.popped 6), .call .consumer .pop] ++
    List.replicate 7 (Label.step .consumer 0) ++
    [Label.step .producer 0, .ret .producer .pushed, .call .producer (.push 8),
      .step .producer 0, .step .producer 0, .ret .producer .pushed,
      .call .producer (.push 9)] ++
    List.replicate 5 (Label.step .producer 0) ++
    [Label.ret .producer .pushed, .step .consumer 0, .ret .consumer (.popped 7)]

theorem bufferList_refines_fifo_recyclingRun : ∃ s : State Nat,
    (system 0).Run (Disciplined 0) recyclingRun s ∧
      ∃ lin status, Atomic (fifo 0) ((client 0).history recyclingRun) lin s.contents status ∧
        lin.flatMap pushed = lin.flatMap (popped 0) ++ s.contents := by
  have hinit : Initial oneBuffer :=
    ⟨fun _ => rfl, rfl, ⟨0, rfl⟩, rfl, by decide, by decide, by decide⟩
  have haccepted : ((system 0).exec (Disciplined 0) oneBuffer recyclingRun).isSome = true := by
    decide +kernel
  have hrun := run_of_exec hinit haccepted
  exact ⟨_, hrun, bufferList_refines_fifo hrun⟩

end Libni.BufferList
