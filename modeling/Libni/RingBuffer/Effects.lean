import Libni.RingBuffer.Layout

/-!
Where the operations of the ring buffer take effect. A push takes effect when it stores into
its slot and a pop when it clears its slot; the index that is updated afterwards
is private to the side that updates it, so while the update is outstanding the
front or back of the layout is one slot ahead of the index. What each side knows
about the slots survives the steps of the other: a producer that saw room keeps
it, and a consumer that saw an element keeps that element in front.
-/

namespace Libni.RingBuffer

open Function Libni.Transition

variable {α : Type*}

/-- The sequential meaning of the operations on a FIFO of capacity `size`.
Nothing is said about the length, which a call of `len` does not read in one
access. -/
def Apply (empty : α) (size : Nat) (a : List α) : Op α → Res α → List α → Prop
  | .push element, .pushed true, a' => a.length < size ∧ a' = a ++ [element]
  | .push _, .pushed false, a' => a.length = size ∧ a' = a
  | .available, .isAvailable b, a' => (b = false ↔ a.length = size) ∧ a' = a
  | .pop, .popped element, a' => (element = empty ∧ a = [] ∧ a' = a) ∨
      (element ≠ empty ∧ a = element :: a')
  | .top, .top element, a' => element = a.headD empty ∧ a' = a
  | .empty, .isEmpty b, a' => (b = true ↔ a = []) ∧ a' = a
  | .len, .len _, a' => a' = a
  | _, _, _ => False

def fifo (empty : α) (size : Nat) : Object (List α) (Op α) (Res α) where
  init a := a = []
  apply := Apply empty size

/-- The status of a thread: an operation is done once its slot is written,
although it has its index still to move. -/
def Local.status : Local α → Status (Op α) (Res α)
  | .idle => .idle
  | .push (.loadIndex element) | .push (.loadSlot element _) | .push (.storeIndex element)
  | .push (.storeSlot element _) => .pending (.push element)
  | .push .nextIndex | .push (.setIndex _) => .done (.pushed true)
  | .available _ => .pending .available
  | .pop .loadIndex | .pop (.loadSlot _) | .pop (.clearIndex _) | .pop (.clearSlot _ _) =>
      .pending .pop
  | .pop (.nextIndex element) | .pop (.setIndex element _) => .done (.popped element)
  | .top _ => .pending .top
  | .empty _ => .pending .empty
  | .len _ => .pending .len
  | .done result => .done result

/-- Where the elements start: a pop that has cleared its slot has not yet
moved the index, so that the front is one slot ahead of it. -/
def Local.front (r : Ring α) : Local α → Nat
  | .pop (.nextIndex _) | .pop (.setIndex _ _) => r.advance r.readIndex
  | _ => r.readIndex

/-- Where the next element goes, with the same correction for a push that has
stored its element. -/
def Local.back (r : Ring α) : Local α → Nat
  | .push .nextIndex | .push (.setIndex _) => r.advance r.writeIndex
  | _ => r.writeIndex

/-- What the producer's program counter says about the buffer. The room it has
seen stays, because only the producer fills slots. -/
def Local.Producing (empty : α) (r : Ring α) (q : List α) : Local α → Prop
  | .push (.loadIndex element) => element ≠ empty
  | .push (.loadSlot element w) => element ≠ empty ∧ w = r.writeIndex
  | .push (.storeIndex element) => element ≠ empty ∧ q.length < r.size
  | .push (.storeSlot element w) => element ≠ empty ∧ w = r.writeIndex ∧ q.length < r.size
  | .push (.setIndex w) => w = r.writeIndex
  | .available (.loadSlot w) => w = r.writeIndex
  | .pop _ | .top _ | .empty _ => False
  | _ => True

/-- What the consumer's program counter says about the buffer. The element it
has seen stays in front, because only the consumer clears slots. -/
def Local.Consuming (r : Ring α) (q : List α) : Local α → Prop
  | .pop (.loadSlot i) | .top (.loadSlot i) | .empty (.loadSlot i) => i = r.readIndex
  | .pop (.clearIndex element) => q.head? = some element
  | .pop (.clearSlot element i) => i = r.readIndex ∧ q.head? = some element
  | .pop (.setIndex _ i) => i = r.readIndex
  | .push _ | .available _ => False
  | _ => True

variable [DecidableEq α] {empty : α} {size : Nat}

namespace State

def front (s : State α) : Nat := (s.threads .consumer).front s.ring

def back (s : State α) : Nat := (s.threads .producer).back s.ring

def stored (empty : α) (s : State α) : List α := s.ring.stored empty s.front

end State

/-- The slots are laid out between the corrected indices, and each side's
knowledge is true of the contents. -/
structure Inv (empty : α) (size : Nat) (s : State α) : Prop where
  size_eq : s.ring.size = size
  layout : Layout empty s.ring s.front s.back (s.stored empty)
  producing : (s.threads .producer).Producing empty s.ring (s.stored empty)
  consuming : (s.threads .consumer).Consuming s.ring (s.stored empty)

section Steps

variable {r r' : Ring α} {front back : Nat} {q q' : List α} {l l' : Local α}

/-- What a step of the producer gives: `back` follows its program counter, the
front element stays and the step is a move of the bounded FIFO. -/
structure Produces (empty : α) (front : Nat) (r : Ring α) (l : Local α) (q : List α)
    (r' : Ring α) (l' : Local α) (q' : List α) : Prop where
  layout : Layout empty r' front (l'.back r') q'
  producing : l'.Producing empty r' q'
  size_eq : r'.size = r.size
  readIndex_eq : r'.readIndex = r.readIndex
  head : ∀ e, q.head? = some e → q'.head? = some e
  simulates : Simulates (fifo empty r.size) Role.producer q l.status none q' l'.status

/-- The same for a step of the consumer, which moves the front and leaves the
back alone. -/
structure Consumes (empty : α) (back : Nat) (r : Ring α) (l : Local α) (q : List α)
    (r' : Ring α) (l' : Local α) (q' : List α) : Prop where
  layout : Layout empty r' (l'.front r') back q'
  consuming : l'.Consuming r' q'
  size_eq : r'.size = r.size
  writeIndex_eq : r'.writeIndex = r.writeIndex
  room : q'.length ≤ q.length
  simulates : Simulates (fifo empty r.size) Role.consumer q l.status none q' l'.status

omit [DecidableEq α] in
theorem Layout.setWriteIndex (h : Layout empty r front back q) (i : Nat) :
    Layout empty (r.setWriteIndex i) front back q :=
  ⟨h.front_lt, h.back_eq, h.le, h.slots, h.proper⟩

omit [DecidableEq α] in
theorem Layout.setReadIndex (h : Layout empty r front back q) (i : Nat) :
    Layout empty (r.setReadIndex i) front back q :=
  ⟨h.front_lt, h.back_eq, h.le, h.slots, h.proper⟩

omit [DecidableEq α] in
/-- A step of the producer that writes nothing and shows nothing. -/
theorem Produces.quiet (h : Layout empty r front (l.back r) q) (hback : l'.back r = l.back r)
    (hl : l'.Producing empty r q) (hstatus : l'.status = l.status) :
    Produces empty front r l q r l' q :=
  ⟨hback ▸ h, hl, rfl, rfl, fun _ he => he, Or.inl ⟨rfl, rfl, hstatus⟩⟩

omit [DecidableEq α] in
/-- A step of the producer that writes nothing and decides its result, as
`available` does. -/
theorem Produces.observe (h : Layout empty r front (l.back r) q) {op : Op α} {res : Res α}
    (hback : r.writeIndex = l.back r) (hl : l.status = .pending op)
    (happly : Apply empty r.size q op res q) :
    Produces empty front r l q r (.done res) q := by
  rw [← hback] at h
  exact ⟨h, trivial, rfl, rfl, fun _ he => he, hl ▸ .perform happly⟩

omit [DecidableEq α] in
theorem Consumes.quiet (h : Layout empty r (l.front r) back q) (hfront : l'.front r = l.front r)
    (hl : l'.Consuming r q) (hstatus : l'.status = l.status) :
    Consumes empty back r l q r l' q :=
  ⟨hfront ▸ h, hl, rfl, rfl, le_rfl, Or.inl ⟨rfl, rfl, hstatus⟩⟩

omit [DecidableEq α] in
theorem Consumes.observe (h : Layout empty r (l.front r) back q) {op : Op α} {res : Res α}
    (hfront : r.readIndex = l.front r) (hl : l.status = .pending op)
    (happly : Apply empty r.size q op res q) :
    Consumes empty back r l q r (.done res) q := by
  rw [← hfront] at h
  exact ⟨h, trivial, rfl, rfl, le_rfl, hl ▸ .perform happly⟩

/-- The accesses of `push`. The store into the slot is the one that extends
the contents, and from then on the back is one slot ahead of the index until
that has followed. -/
theorem pushStep_ok {pc : PushPc α} (h : Layout empty r front (Local.back r (.push pc)) q)
    (hl : Local.Producing empty r q (.push pc)) :
    ∃ q', Produces empty front r (.push pc) q (pushStep empty r pc).1
      (pushStep empty r pc).2 q' := by
  cases pc with
  | loadIndex e => exact ⟨q, .quiet h rfl ⟨hl, rfl⟩ rfl⟩
  | loadSlot e w =>
      obtain ⟨he, rfl⟩ := hl
      simp only [pushStep]
      split
      · next hfree => exact ⟨q, .quiet h rfl ⟨he, h.back_slot_eq_empty.mp hfree⟩ rfl⟩
      · next hfull =>
          have hlen : q.length = r.size := by
            have hge := mt h.back_slot_eq_empty.mpr hfull
            exact le_antisymm h.le (Nat.le_of_not_lt hge)
          exact ⟨q, .observe h rfl rfl ⟨hlen, rfl⟩⟩
  | storeIndex e => exact ⟨q, .quiet h rfl ⟨hl.1, rfl, hl.2⟩ rfl⟩
  | storeSlot e w =>
      obtain ⟨he, rfl, hlt⟩ := hl
      exact ⟨q ++ [e], h.store hlt he, trivial, rfl, rfl, by simp_all,
        .perform ⟨hlt, rfl⟩⟩
  | nextIndex => exact ⟨q, .quiet h rfl rfl rfl⟩
  | setIndex w =>
      obtain rfl : w = r.writeIndex := hl
      exact ⟨q, h.setWriteIndex _, trivial, rfl, rfl, fun _ he => he,
        Or.inl ⟨rfl, rfl, rfl⟩⟩

theorem availableStep_ok {pc : PeekPc} (h : Layout empty r front r.writeIndex q)
    (hl : Local.Producing empty r q (.available pc)) :
    Produces empty front r (.available pc) q r (availableStep empty r pc) q := by
  cases pc with
  | loadIndex => exact .quiet h rfl rfl rfl
  | loadSlot w =>
      obtain rfl : w = r.writeIndex := hl
      refine .observe h rfl rfl ⟨?_, rfl⟩
      rw [decide_eq_false_iff_not, h.back_slot_eq_empty]
      have := h.le
      omega

/-- The accesses of `pop`. The element read stays in front until the slot is
cleared, which is where the pop takes effect. -/
theorem popStep_ok {pc : PopPc α} (h : Layout empty r (Local.front r (.pop pc)) back q)
    (hl : Local.Consuming r q (.pop pc)) :
    ∃ q', Consumes empty back r (.pop pc) q (popStep empty r pc).1 (popStep empty r pc).2 q' := by
  cases pc with
  | loadIndex => exact ⟨q, .quiet h rfl rfl rfl⟩
  | loadSlot i =>
      obtain rfl : i = r.readIndex := hl
      simp only [popStep]
      split
      · next hfree =>
          exact ⟨q, .observe h rfl rfl (Or.inl ⟨rfl, h.front_slot_eq_empty.mp hfree, rfl⟩)⟩
      · next hfull =>
          refine ⟨q, .quiet h rfl ?_ rfl⟩
          have hslot : r.buf r.readIndex = q.headD empty := h.front_slot
          change q.head? = some (r.buf r.readIndex)
          cases q with
          | nil => exact absurd hslot hfull
          | cons e q => rw [hslot]; rfl
  | clearIndex e => exact ⟨q, .quiet h rfl ⟨rfl, hl⟩ rfl⟩
  | clearSlot e i =>
      obtain ⟨rfl, hhead⟩ := hl
      obtain ⟨q', rfl⟩ : ∃ q', q = e :: q' := List.head?_eq_some_iff.mp hhead
      have he : e ≠ empty := h.proper e (by simp)
      exact ⟨q', h.clear, trivial, rfl, rfl, by simp, .perform (Or.inr ⟨he, rfl⟩)⟩
  | nextIndex e => exact ⟨q, .quiet h rfl rfl rfl⟩
  | setIndex e i =>
      obtain rfl : i = r.readIndex := hl
      exact ⟨q, h.setReadIndex _, trivial, rfl, rfl, le_rfl, Or.inl ⟨rfl, rfl, rfl⟩⟩

omit [DecidableEq α] in
theorem topStep_ok {pc : PeekPc} (h : Layout empty r r.readIndex back q)
    (hl : Local.Consuming r q (.top pc)) :
    Consumes empty back r (.top pc) q r (topStep r pc) q := by
  cases pc with
  | loadIndex => exact .quiet h rfl rfl rfl
  | loadSlot i =>
      obtain rfl : i = r.readIndex := hl
      exact .observe h rfl rfl ⟨h.front_slot, rfl⟩

theorem emptyStep_ok {pc : PeekPc} (h : Layout empty r r.readIndex back q)
    (hl : Local.Consuming r q (.empty pc)) :
    Consumes empty back r (.empty pc) q r (emptyStep empty r pc) q := by
  cases pc with
  | loadIndex => exact .quiet h rfl rfl rfl
  | loadSlot i =>
      obtain rfl : i = r.readIndex := hl
      refine .observe h rfl rfl ⟨?_, rfl⟩
      rw [decide_eq_true_eq, h.front_slot_eq_empty]

/-- `len` goes on or has its result; in neither case does it touch the buffer. -/
theorem lenStep_cases (empty : α) (r : Ring α) (pc : LenPc) :
    (∃ pc', lenStep empty r pc = .len pc') ∨ ∃ count, lenStep empty r pc = .done (.len count) := by
  cases pc with
  | loadWrite => exact .inl ⟨_, rfl⟩
  | loadRead w =>
      simp only [lenStep]
      split
      · exact .inr ⟨_, rfl⟩
      · split
        · exact .inr ⟨_, rfl⟩
        · exact .inl ⟨_, rfl⟩
  | loadSlot w => exact .inr ⟨_, rfl⟩

/-- Every step of the producer inside one of its operations keeps the layout
and is a move of the FIFO. -/
theorem producer_ok (h : Layout empty r front (l.back r) q) (hl : l.Producing empty r q)
    (hstep : localStep empty r l = some (r', l')) :
    ∃ q', Produces empty front r l q r' l' q' := by
  cases l with
  | idle | done => cases hstep
  | pop | top | empty => exact hl.elim
  | push pc =>
      obtain ⟨rfl, rfl⟩ := Prod.ext_iff.mp (Option.some.inj hstep)
      exact pushStep_ok h hl
  | available pc =>
      cases hstep
      exact ⟨q, availableStep_ok h hl⟩
  | len pc =>
      cases hstep
      rcases lenStep_cases empty r pc with ⟨pc', heq⟩ | ⟨count, heq⟩
      · rw [heq]
        exact ⟨q, .quiet h rfl trivial rfl⟩
      · rw [heq]
        exact ⟨q, .observe h rfl rfl rfl⟩

/-- Every step of the consumer inside one of its operations keeps the layout
and is a move of the FIFO. -/
theorem consumer_ok (h : Layout empty r (l.front r) back q) (hl : l.Consuming r q)
    (hstep : localStep empty r l = some (r', l')) :
    ∃ q', Consumes empty back r l q r' l' q' := by
  cases l with
  | idle | done => cases hstep
  | push | available => exact hl.elim
  | pop pc =>
      obtain ⟨rfl, rfl⟩ := Prod.ext_iff.mp (Option.some.inj hstep)
      exact popStep_ok h hl
  | top pc =>
      cases hstep
      exact ⟨q, topStep_ok h hl⟩
  | empty pc =>
      cases hstep
      exact ⟨q, emptyStep_ok h hl⟩
  | len pc =>
      cases hstep
      rcases lenStep_cases empty r pc with ⟨pc', heq⟩ | ⟨count, heq⟩
      · rw [heq]
        exact ⟨q, .quiet h rfl trivial rfl⟩
      · rw [heq]
        exact ⟨q, .observe h rfl rfl rfl⟩

end Steps

end Libni.RingBuffer
