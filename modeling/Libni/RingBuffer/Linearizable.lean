import Libni.RingBuffer.Effects

/-!
The ring buffer refines a bounded FIFO: the steps of the two sides keep the
layout and are moves of the atomic object, in every run with one producer and
one consumer.
-/

namespace Libni.RingBuffer

open Function Libni.Transition Libni.Transition.System

variable {α : Type*} {empty : α} {size : Nat}

section Frame

variable {r r' : Ring α} {q q' : List α} {l : Local α}

theorem Local.front_congr (hsize : r'.size = r.size) (hindex : r'.readIndex = r.readIndex)
    (l : Local α) : l.front r' = l.front r := by
  unfold Local.front
  split <;> simp only [Ring.advance_eq, hsize, hindex]

theorem Local.back_congr (hsize : r'.size = r.size) (hindex : r'.writeIndex = r.writeIndex)
    (l : Local α) : l.back r' = l.back r := by
  unfold Local.back
  split <;> simp only [Ring.advance_eq, hsize, hindex]

/-- What the producer knows survives the steps of the consumer, which only
make room. -/
theorem Local.Producing.keeps (h : l.Producing empty r q) (hsize : r'.size = r.size)
    (hindex : r'.writeIndex = r.writeIndex) (hroom : q'.length ≤ q.length) :
    l.Producing empty r' q' := by
  cases l with
  | push pc =>
      cases pc with
      | loadIndex | nextIndex => exact h
      | loadSlot e w => exact ⟨h.1, by rw [hindex]; exact h.2⟩
      | storeIndex e => exact ⟨h.1, by rw [hsize]; exact hroom.trans_lt h.2⟩
      | storeSlot e w =>
          exact ⟨h.1, by rw [hindex]; exact h.2.1, by rw [hsize]; exact hroom.trans_lt h.2.2⟩
      | setIndex w => exact Eq.trans h hindex.symm
  | available pc =>
      cases pc with
      | loadIndex => trivial
      | loadSlot w => exact Eq.trans h hindex.symm
  | pop | top | empty => exact h
  | idle | len | done => trivial

/-- What the consumer knows survives the steps of the producer, which keep the
front element. -/
theorem Local.Consuming.keeps (h : l.Consuming r q) (hindex : r'.readIndex = r.readIndex)
    (hhead : ∀ e, q.head? = some e → q'.head? = some e) : l.Consuming r' q' := by
  cases l with
  | pop pc =>
      cases pc with
      | loadIndex | nextIndex => trivial
      | loadSlot i | setIndex e i => exact Eq.trans h hindex.symm
      | clearIndex e => exact hhead e h
      | clearSlot e i => exact ⟨by rw [hindex]; exact h.1, hhead e h.2⟩
  | top pc | empty pc =>
      cases pc with
      | loadIndex => trivial
      | loadSlot i => exact Eq.trans h hindex.symm
  | push | available => exact h
  | idle | len | done => trivial

theorem start_front (op : Op α) : (start op).front r = r.readIndex := by
  cases op <;> rfl

theorem start_back (op : Op α) : (start op).back r = r.writeIndex := by
  cases op <;> rfl

theorem start_producing {op : Op α} (h : Allowed empty .producer op) :
    (start op).Producing empty r q := by
  cases op with
  | push e => exact h
  | available | len => trivial
  | pop | top | empty => exact h

theorem start_consuming {op : Op α} (h : Allowed empty .consumer op) :
    (start op).Consuming r q := by
  cases op with
  | pop | top | empty | len => trivial
  | push | available => exact h

theorem start_status (op : Op α) : (start op).status = .pending op := by
  cases op <;> rfl

end Frame

variable [DecidableEq α]

/-- A state whose parts fit a list stores that list, because a layout
determines its contents. -/
theorem Inv.of_layout {s : State α} {q : List α} (hsize : s.ring.size = size)
    (hlayout : Layout empty s.ring s.front s.back q)
    (hproducing : (s.threads .producer).Producing empty s.ring q)
    (hconsuming : (s.threads .consumer).Consuming s.ring q) :
    Inv empty size s ∧ s.stored empty = q := by
  have hstored : s.stored empty = q := hlayout.stored_eq
  exact ⟨⟨hsize, hstored ▸ hlayout, hstored ▸ hproducing, hstored ▸ hconsuming⟩, hstored⟩

theorem Initial.inv_stored {s : State α} (h : Initial empty size s) :
    Inv empty size s ∧ s.stored empty = [] := by
  obtain ⟨⟨hsize, hring⟩, hidle⟩ := h
  have hfront : s.front = 0 := by
    rw [State.front, hidle, hring]
    rfl
  have hback : s.back = 0 := by
    rw [State.back, hidle, hring]
    rfl
  apply Inv.of_layout (by rw [hring]; rfl)
  · rw [hfront, hback, hring]
    exact .new size hsize
  · rw [hidle]
    trivial
  · rw [hidle]
    trivial

/-- A thread that goes from one program counter outside the updates to another
leaves the buffer as it is. -/
theorem Inv.move {s : State α} (h : Inv empty size s) {t : Role} {l : Local α}
    (hfront : l.front s.ring = (s.threads t).front s.ring)
    (hback : l.back s.ring = (s.threads t).back s.ring)
    (hproducing : t = .producer → l.Producing empty s.ring (s.stored empty))
    (hconsuming : t = .consumer → l.Consuming s.ring (s.stored empty)) :
    Inv empty size ⟨s.ring, update s.threads t l⟩ ∧
      State.stored empty ⟨s.ring, update s.threads t l⟩ = s.stored empty := by
  cases t with
  | producer =>
      refine Inv.of_layout h.size_eq ?_ (by simpa using hproducing rfl)
        (by simpa using h.consuming)
      simpa [State.front, State.back, hback] using h.layout
  | consumer =>
      refine Inv.of_layout h.size_eq ?_ (by simpa using h.producing)
        (by simpa using hconsuming rfl)
      simpa [State.front, State.back, hfront] using h.layout

/-- A step of a thread inside an operation keeps the invariant and is a move
of the bounded FIFO. The side that moves is one of two, and what the other
side knows is kept. -/
theorem Inv.localStep {s : State α} {r : Ring α} {t : Role} {l : Local α}
    (h : Inv empty size s) (hstep : localStep empty s.ring (s.threads t) = some (r, l)) :
    Inv empty size ⟨r, update s.threads t l⟩ ∧
      Simulates (fifo empty size) t (s.stored empty) (s.threads t).status none
        (State.stored empty ⟨r, update s.threads t l⟩) l.status := by
  have hsize := h.size_eq
  cases t with
  | producer =>
      obtain ⟨q, hq⟩ := producer_ok h.layout h.producing hstep
      have hfront : State.front ⟨r, update s.threads .producer l⟩ = s.front := by
        simpa [State.front] using Local.front_congr hq.size_eq hq.readIndex_eq _
      obtain ⟨hinv, hstored⟩ : Inv empty size ⟨r, update s.threads .producer l⟩ ∧
          State.stored empty ⟨r, update s.threads .producer l⟩ = q :=
        Inv.of_layout (hq.size_eq.trans hsize) (by simpa [hfront, State.back] using hq.layout)
        (by simpa using hq.producing) (by simpa using h.consuming.keeps hq.readIndex_eq hq.head)
      exact ⟨hinv, by rw [hstored, ← hsize]; exact hq.simulates⟩
  | consumer =>
      obtain ⟨q, hq⟩ := consumer_ok h.layout h.consuming hstep
      have hback : State.back ⟨r, update s.threads .consumer l⟩ = s.back := by
        simpa [State.back] using Local.back_congr hq.size_eq hq.writeIndex_eq _
      obtain ⟨hinv, hstored⟩ : Inv empty size ⟨r, update s.threads .consumer l⟩ ∧
          State.stored empty ⟨r, update s.threads .consumer l⟩ = q :=
        Inv.of_layout (hq.size_eq.trans hsize) (by simpa [hback, State.front] using hq.layout)
        (by simpa using h.producing.keeps hq.size_eq hq.writeIndex_eq hq.room)
        (by simpa using hq.consuming)
      exact ⟨hinv, by rw [hstored, ← hsize]; exact hq.simulates⟩

theorem threads_of_ne {s s' : State α} {l : Label α} {t : Role}
    (hnext : (system empty size).next s l = some s') (ht : t ≠ l.actor) :
    s'.threads t = s.threads t := by
  cases l with
  | call u op =>
      obtain ⟨_, rfl⟩ := next_call hnext
      exact update_of_ne ht _ _
  | step u =>
      obtain ⟨_, _, _, rfl⟩ := next_step hnext
      exact update_of_ne ht _ _
  | ret u result =>
      obtain ⟨_, rfl⟩ := next_ret hnext
      exact update_of_ne ht _ _

/-- What the label of a step shows, the invariant after it and the move it is. -/
theorem Inv.next {s s' : State α} {l : Label α} (h : Inv empty size s)
    (hguard : Disciplined empty s l) (hnext : (system empty size).next s l = some s') :
    Inv empty size s' ∧
      Simulates (fifo empty size) l.actor (s.stored empty) (s.threads l.actor).status l.event
        (s'.stored empty) (s'.threads l.actor).status := by
  cases l with
  | call t op =>
      obtain ⟨hidle, rfl⟩ := next_call hnext
      obtain ⟨hinv, hstored⟩ := h.move (t := t) (l := start op)
        (by rw [hidle, start_front]; rfl) (by rw [hidle, start_back]; rfl)
        (by rintro rfl; exact start_producing hguard)
        (by rintro rfl; exact start_consuming hguard)
      refine ⟨hinv, ?_⟩
      rw [hstored]
      simp only [Label.actor, Label.event, update_self, hidle, start_status]
      exact .call _ op
  | step t =>
      obtain ⟨r, l, hstep, rfl⟩ := next_step hnext
      simpa only [Label.actor, Label.event, update_self] using h.localStep hstep
  | ret t result =>
      obtain ⟨hdone, rfl⟩ := next_ret hnext
      obtain ⟨hinv, hstored⟩ := h.move (t := t) (l := .idle)
        (by rw [hdone]; rfl) (by rw [hdone]; rfl) (fun _ => trivial)
        (fun _ => trivial)
      refine ⟨hinv, ?_⟩
      rw [hstored]
      simp only [Label.actor, Label.event, update_self, hdone]
      exact .ret _ result

/-- The status of every thread is determined by its program counter, so every
state has one reading. -/
def client (empty : α) (size : Nat) :
    Client (system empty size) Role (List α) (Op α) (Res α) where
  actor := Label.actor
  event := Label.event
  value := State.stored empty
  Open s t st := (s.threads t).status = st

/-- The ring buffer simulates the bounded FIFO step by step. A push takes
effect with its slot store, a pop with the store of `Empty`. -/
theorem refines : (client empty size).Refines (Disciplined empty) (Inv empty size)
    (fifo empty size) where
  inv_init _ h := h.inv_stored.1
  inv_step _ _ _ h hguard hnext := (h.next hguard hnext).1
  value_init _ h := h.inv_stored.2
  idle_init s t st hinit hst := by
    change (s.threads t).status = st at hst
    rw [hinit.2 t] at hst
    exact hst.symm
  some_open s t _ := ⟨_, rfl⟩
  frame s l s' t st h hguard hnext ht hst := by
    change (s.threads t).status = st
    rw [← threads_of_ne hnext ht]
    exact hst
  back s l s' st' h hguard hnext hst := by
    obtain rfl : (s'.threads l.actor).status = st' := hst
    exact ⟨_, rfl, (h.next hguard hnext).2⟩

/-- With no call in progress the indices and the slot they may share determine
the number of stored elements. -/
theorem Inv.len_eq {s : State α} (h : Inv empty size s) (hidle : ∀ t, s.threads t = .idle) :
    s.ring.len empty = (s.stored empty).length := by
  have hlayout := h.layout
  have hfront : s.front = s.ring.readIndex := by rw [State.front, hidle]; rfl
  have hback : s.back = s.ring.writeIndex := by rw [State.back, hidle]; rfl
  rw [hfront, hback] at hlayout
  generalize s.stored empty = q at hlayout
  have hread := hlayout.front_lt
  have hle := hlayout.le
  have hslot := hlayout.back_slot_eq_empty
  have hwrite := hlayout.back_eq
  unfold Ring.len
  rcases Nat.lt_or_ge (s.ring.readIndex + q.length) s.ring.size with hlt | hge
  · rw [Nat.mod_eq_of_lt hlt] at hwrite
    split
    · omega
    · rw [if_neg (by omega), if_pos (hslot.mpr (by omega))]
      omega
  · rw [Nat.mod_eq_sub_mod hge, Nat.mod_eq_of_lt (by omega)] at hwrite
    rw [if_neg (by omega)]
    split
    · omega
    · rw [if_neg (by rw [hslot]; omega)]
      omega

def pushed (p : Performed Role (Op α) (Res α)) : List α :=
  match p.op, p.result with
  | .push element, .pushed true => [element]
  | _, _ => []

def popped (empty : α) (p : Performed Role (Op α) (Res α)) : List α :=
  match p.op, p.result with
  | .pop, .popped element => if element = empty then [] else [element]
  | _, _ => []

/-- An operation pops from the front of what is stored and what it pushes,
which is what conservation over a run asks of each step. -/
theorem pushed_eq {a a' : List α} {p : Performed Role (Op α) (Res α)}
    (h : Apply empty size a p.op p.result a') : a ++ pushed p = popped empty p ++ a' := by
  obtain ⟨t, op, res⟩ := p
  cases op <;> cases res <;> try exact h.elim
  case push.pushed e ok =>
    cases ok with
    | true => simpa [pushed, popped] using h.2.symm
    | false => simpa [pushed, popped] using h.2.symm
  case pop.popped e =>
    rcases h with ⟨he, _, rfl⟩ | ⟨he, rfl⟩ <;> simp [pushed, popped, he]
  case available.isAvailable b => simpa [pushed, popped] using h.2.symm
  case top.top e => simpa [pushed, popped] using h.2.symm
  case empty.isEmpty b => simpa [pushed, popped] using h.2.symm
  case len.len n => simpa [pushed, popped] using Eq.symm h

/-- In every run with one producer and one consumer the ring buffer is a FIFO
of capacity `size` whose operations take effect at one instant of their calls.
The elements popped are a prefix of those pushed and the rest are stored; with
no call in progress `len` counts them. -/
theorem ring_refines_fifo {s : State α} {ls : List (Label α)}
    (hrun : (system empty size).Run (Disciplined empty) ls s) :
    (∃ lin status,
      Atomic (fifo empty size) ((client empty size).history ls) lin (s.stored empty) status ∧
        lin.flatMap pushed = lin.flatMap (popped empty) ++ s.stored empty) ∧
    ((∀ t, s.threads t = .idle) → s.ring.len empty = (s.stored empty).length) := by
  obtain ⟨lin, status, hatomic⟩ := refines.linearizesTo hrun
  refine ⟨⟨lin, status, hatomic, ?_⟩, ?_⟩
  · obtain ⟨a, rfl, hseq⟩ := hatomic.sequential
    exact hseq.conserves fun _ _ _ => pushed_eq
  · have hinv := hrun.invariant refines.inv_init refines.inv_step
    exact hinv.len_eq

/-- A buffer of two slots: the third push finds it full until the consumer has
cleared a slot, and goes round to the slot cleared. -/
def wrappingRun : List (Label Nat) :=
  .call .producer (.push 5) :: List.replicate 6 (Label.step .producer) ++
    [Label.ret .producer (.pushed true), .call .producer (.push 6), .call .consumer .pop] ++
    List.replicate 6 (Label.step .producer) ++ List.replicate 3 (Label.step .consumer) ++
    [Label.ret .producer (.pushed true), .call .producer (.push 7), .step .producer,
      .step .producer, .ret .producer (.pushed false), .call .producer (.push 7),
      .step .consumer] ++
    List.replicate 6 (Label.step .producer) ++
    [Label.step .consumer, .step .consumer, .ret .consumer (.popped 5),
      .ret .producer (.pushed true)]

def twoSlots : State Nat := ⟨Ring.new 0 2 Ring.two_eq_pow, fun _ => .idle⟩

def wrappedState : State Nat :=
  ((system 0 2).exec (Disciplined 0) twoSlots wrappingRun).get (by decide +kernel)

theorem ring_refines_fifo_wrappingRun :
    (∃ lin status, Atomic (fifo 0 2) ((client 0 2).history wrappingRun) lin
      (wrappedState.stored 0) status ∧
        lin.flatMap pushed = lin.flatMap (popped 0) ++ wrappedState.stored 0) ∧
      wrappedState.ring.len 0 = (wrappedState.stored 0).length := by
  have hinit : Initial 0 2 twoSlots := ⟨⟨Ring.two_eq_pow, rfl⟩, fun _ => rfl⟩
  have hrun : (system 0 2).Run (Disciplined 0) wrappingRun wrappedState :=
    run_of_exec hinit _
  have hproducer : wrappedState.threads .producer = .idle := by decide +kernel
  have hconsumer : wrappedState.threads .consumer = .idle := by decide +kernel
  have hidle (t : Role) : wrappedState.threads t = .idle := by
    cases t with
    | producer => exact hproducer
    | consumer => exact hconsumer
  exact ⟨(ring_refines_fifo hrun).1, (ring_refines_fifo hrun).2 hidle⟩

end Libni.RingBuffer
