import Libni.BufferList.Invariant

/-!
Where the operations of the buffer list take effect. A push takes effect when
it stores its element, a pop that returns an element when it takes it from the
buffer. A pop that finds its buffer empty and then finds the producer at the
same buffer took effect at the first of the two reads, so in between both
readings of its status are open; the same holds for `empty`.
-/

namespace Libni.BufferList

open Function Libni.Transition
open Libni.RingBuffer (Role)

variable {α : Type*}

/-- The sequential meaning of the operations on an unbounded FIFO. Nothing is
said about `empty` returning false. -/
def Apply (empty : α) (a : List α) : Op α → Res α → List α → Prop
  | .push element, .pushed, a' => a' = a ++ [element]
  | .pop, .popped element, a' => (element = empty ∧ a = [] ∧ a' = a) ∨
      (element ≠ empty ∧ a = element :: a')
  | .empty, .isEmpty b, a' => (b = true → a = []) ∧ a' = a
  | _, _, _ => False

def fifo (empty : α) : Object (List α) (Op α) (Res α) where
  init a := a = []
  apply := Apply empty

/-- The statuses the atomic object may give a thread at this point. A pop that
has seen its buffer empty may have taken effect with that, if the producer
turns out to be at the same buffer. -/
def Local.Open (empty : α) (m : Mem α) (st : Status (Op α) (Res α)) : Local α → Prop
  | .idle => st = .idle
  | .push (.checkAvailable element) | .push (.takeCache element) | .push (.newBuffer element)
  | .push (.publish element _) | .push (.setWrite element _) | .push (.store element) =>
      st = .pending (.push element)
  | .pop .compare => st = .pending .pop ∨
      (m.bufToRead = m.bufToWrite ∧ st = .done (.popped empty))
  | .pop _ => st = .pending .pop
  | .empty .checkEmpty => st = .pending .empty
  | .empty .compare => st = .pending .empty ∨
      (m.bufToRead = m.bufToWrite ∧ st = .done (.isEmpty true))
  | .done result => st = .done result

/-- Every reading after a step of thread `t` comes from one before it. This is
the form in which a step is handed over to the simulation. -/
def Back (empty : α) (t : Role) (m : Mem α) (l : Local α) (a : List α) (m' : Mem α)
    (l' : Local α) (a' : List α) : Prop :=
  ∀ st', l'.Open empty m' st' → ∃ st, l.Open empty m st ∧
    Simulates (fifo empty) t a st none a' st'

section Frame

variable {empty : α} {m m' : Mem α} {p p' c c' : Local α} {pre pre' : List Addr}

theorem chain_congr (hread : m'.bufToRead = m.bufToRead) (huse : m'.inUse = m.inUse)
    (c : Local α) : c.chain m' = c.chain m := by
  unfold Local.chain
  split <;> simp only [hread, huse]

theorem released_congr (hread : m'.bufToRead = m.bufToRead) (c : Local α) :
    c.released m' = c.released m := by
  unfold Local.released
  split <;> simp only [hread]

theorem contents_congr (hchain : c.chain m' = c.chain m)
    (hbuf : ∀ a ∈ c.chain m, m'.buf a = m.buf a) : contents m' c = contents m c := by
  rw [contents, contents, hchain, List.flatMap_congr hbuf]

/-- What the consumer knows survives a step of the producer that empties no
buffer and fills only the one it writes. -/
theorem Placed.consuming_keeps (h : Placed empty m p c pre)
    (hread : m'.bufToRead = m.bufToRead)
    (hne : ∀ a ∈ c.chain m, m.buf a ≠ [] → m'.buf a ≠ [])
    (hsame : ∀ a ∈ c.chain m ++ c.released m, a ≠ m.bufToWrite → m'.buf a = m.buf a) :
    c.Consuming m' pre := by
  have hc := h.consuming
  have hchain := h.chain_eq
  cases c with
  | idle | done => trivial
  | push => exact hc
  | empty => trivial
  | pop pc =>
      cases pc with
      | checkEmpty | compare => trivial
      | checkAgain => exact hc
      | nextToRead =>
          obtain ⟨hpre, hempty⟩ := hc
          have hdiff := mt (h.head_eq_write_iff rfl).mp hpre
          exact ⟨hpre, by
            rw [hread, hsame _ (by simp [Local.chain]) hdiff]
            exact hempty⟩
      | resetOld next | setRead next =>
          exact hc.imp_left (hne next List.mem_cons_self)
      | cacheOld next | deleteOld next =>
          have hdiff : m.bufToRead ≠ m.bufToWrite :=
            (h.ne_of_chain h.mem_chain (by simp [Local.released])).symm
          exact ⟨hc.1.imp_left (hne next List.mem_cons_self),
            by
              rw [hread, hsame _ (by simp [Local.released]) hdiff]
              exact hc.2⟩
      | popBuffer =>
          rw [Local.Consuming, hread]
          exact hc.imp_left (hne m.bufToRead List.mem_cons_self)

/-- What the producer knows survives a step of the consumer that adds nothing
to the buffer written. -/
theorem Placed.producing_keeps (h : Placed empty m p c pre) (hsize : m'.bufSize = m.bufSize)
    (hle : (m'.buf m'.bufToWrite).length ≤ (m.buf m.bufToWrite).length)
    (hfull : Local.Full m pre c.fresh → Local.Full m' pre' c'.fresh) :
    p.Producing empty m' pre' c'.fresh := by
  have hp := h.producing
  cases p with
  | idle | done => trivial
  | pop | empty => exact hp
  | push pc =>
      cases pc with
      | checkAvailable => exact hp
      | takeCache | newBuffer | publish | setWrite => exact ⟨hp.1, hfull hp.2⟩
      | store => exact ⟨hp.1, by rw [hsize]; exact hle.trans_lt hp.2⟩

theorem Placed.producer (h : Placed empty m p c pre) (hpost : p'.post = p.post)
    (hhand : p'.inHand = p.inHand) (hp : p'.Producing empty m pre c.fresh) :
    Placed empty m p' c pre := by
  refine ⟨by rw [hpost]; exact h.chain_eq, ?_, ?_, h.full, ?_, h.proper, h.size_pos, hp,
    h.consuming⟩
  · rw [owned, hhand]
    exact h.nodup
  · rw [owned, hhand]
    exact h.live
  · rw [hhand, hpost]
    exact h.unused

theorem Placed.consumer (h : Placed empty m p c pre) (hchain : c'.chain m = c.chain m)
    (hreleased : c'.released m = c.released m)
    (hfull : Local.Full m pre c.fresh → Local.Full m pre c'.fresh)
    (hc : c'.Consuming m pre) : Placed empty m p c' pre := by
  refine ⟨by rw [hchain]; exact h.chain_eq, ?_, ?_, h.full, h.unused, ?_, h.size_pos,
    h.producing_keeps rfl le_rfl hfull, hc⟩
  · rw [owned, hchain, hreleased]
    exact h.nodup
  · rw [owned, hchain, hreleased]
    exact h.live
  · rw [hchain]
    exact h.proper

/-- A step that leaves the contents alone and opens no new reading. -/
theorem Back.quiet {t : Role} {a a' : List α} {l l' : Local α}
    (hopen : ∀ st, l'.Open empty m' st → l.Open empty m st) (ha : a' = a) :
    Back empty t m l a m' l' a' :=
  fun st' hst => ⟨st', hopen st' hst, Or.inl ⟨rfl, ha, rfl⟩⟩

/-- The step at which an operation takes effect and gets its result. -/
theorem Back.perform {t : Role} {a a' : List α} {l : Local α} {op : Op α} {res : Res α}
    (hl : l.Open empty m (.pending op)) (happly : Apply empty a op res a') :
    Back empty t m l a m' (.done res) a' := by
  rintro st' rfl
  exact ⟨_, hl, .perform happly⟩

end Frame

end Libni.BufferList
