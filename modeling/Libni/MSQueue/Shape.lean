import Libni.MSQueue.Model
import Libni.Support.Path

/-!
The shape of the shared memory. The nodes of a queue are those met from
`m_head` along `next`; the first is the dummy and the others carry the
contents. The shape invariant speaks of the shared memory alone; what a thread
knows about an address it loaded some steps ago is stated beside it.
-/

namespace Libni.MSQueue

open Function Libni.Support

variable {κ α : Type*}

namespace Mem

/-- The nodes of queue `q` from its head on, up to the null pointer. -/
def Chain (m : Mem κ α) (q : κ) (l : List Addr) : Prop :=
  Path 0 m.nextAddr (m.head q).value l

open Classical in
/-- The list of nodes of a queue. It is unique where there is one, and only
proofs refer to it. -/
noncomputable def nodes (m : Mem κ α) (q : κ) : List Addr :=
  if h : ∃ l, m.Chain q l then h.choose else []

/-- The elements stored in queue `q`, front first. -/
noncomputable def contents (m : Mem κ α) (q : κ) : List α :=
  (m.nodes q).tail.map fun a => (m.heap a).value

variable {m m' : Mem κ α} {q : κ} {l : List Addr}

@[simp] theorem nextAddr_delete (a : Addr) : (m.delete a).nextAddr = m.nextAddr := rfl

/-- Freed memory keeps its contents, so a deletion is not seen by whoever
walks along `next`. -/
@[simp] theorem nodes_delete (a : Addr) : (m.delete a).nodes = m.nodes := rfl

@[simp] theorem contents_delete (a : Addr) : (m.delete a).contents = m.contents := rfl

theorem nextAddr_setNext_self (a : Addr) (p : TaggedPtr) :
    (m.setNext a p).nextAddr a = p.value := by
  simp [nextAddr, setNext]

theorem nextAddr_setNext_of_ne {a b : Addr} (p : TaggedPtr) (h : b ≠ a) :
    (m.setNext a p).nextAddr b = m.nextAddr b := by
  simp [nextAddr, setNext, update_of_ne h]

@[simp] theorem tail_setNext (a : Addr) (p : TaggedPtr) : (m.setNext a p).tail = m.tail := rfl

@[simp] theorem value_setNext (a b : Addr) (p : TaggedPtr) :
    ((m.setNext a p).heap b).value = (m.heap b).value := by
  by_cases h : b = a
  · subst h
    simp [setNext]
  · simp [setNext, update_of_ne h]

theorem new_eq_some {a : Addr} {e : α} :
    m.new a e = some m' ↔ (a ≠ 0 ∧ m.live a = false) ∧
      { m with heap := update m.heap a ⟨e, .null⟩, live := update m.live a true,
               used := update m.used a true } = m' := by
  simp [new]

section

variable [DecidableEq κ]

@[simp] theorem nextAddr_setTail (q : κ) (p : TaggedPtr) :
    (m.setTail q p).nextAddr = m.nextAddr := rfl

@[simp] theorem nodes_setTail (q : κ) (p : TaggedPtr) :
    (m.setTail q p).nodes = m.nodes := rfl

@[simp] theorem contents_setTail (q : κ) (p : TaggedPtr) :
    (m.setTail q p).contents = m.contents := rfl

@[simp] theorem heap_setTail (q : κ) (p : TaggedPtr) : (m.setTail q p).heap = m.heap := rfl

@[simp] theorem head_setTail (q : κ) (p : TaggedPtr) : (m.setTail q p).head = m.head := rfl

@[simp] theorem tail_setTail_self (q : κ) (p : TaggedPtr) : (m.setTail q p).tail q = p := by
  simp [setTail]

theorem tail_setTail_of_ne {q q' : κ} (p : TaggedPtr) (h : q' ≠ q) :
    (m.setTail q p).tail q' = m.tail q' := by
  simp [setTail, update_of_ne h]

@[simp] theorem nextAddr_setHead (q : κ) (p : TaggedPtr) :
    (m.setHead q p).nextAddr = m.nextAddr := rfl

@[simp] theorem heap_setHead (q : κ) (p : TaggedPtr) : (m.setHead q p).heap = m.heap := rfl

@[simp] theorem tail_setHead (q : κ) (p : TaggedPtr) : (m.setHead q p).tail = m.tail := rfl

@[simp] theorem head_setHead_self (q : κ) (p : TaggedPtr) : (m.setHead q p).head q = p := by
  simp [setHead]

theorem head_setHead_of_ne {q q' : κ} (p : TaggedPtr) (h : q' ≠ q) :
    (m.setHead q p).head q' = m.head q' := by
  simp [setHead, update_of_ne h]

end

/-- The nodes of a queue are those of any walk from its head to null. -/
theorem nodes_eq (h : m.Chain q l) : m.nodes q = l := by
  have hex : ∃ l, m.Chain q l := ⟨l, h⟩
  rw [nodes, dif_pos hex]
  exact hex.choose_spec.unique h

theorem contents_eq (h : m.Chain q l) :
    m.contents q = l.tail.map fun a => (m.heap a).value := by
  rw [contents, nodes_eq h]

end Mem

/-- The Michael-Scott invariant: every queue is a null-terminated chain of
allocated nodes of its own, with the tail on the last node or on the one
before it. -/
structure Shape (m : Mem κ α) : Prop where
  head_ne : ∀ q, (m.head q).value ≠ 0
  chain : ∀ q, m.Chain q (m.nodes q)
  tail_mem : ∀ q, (m.tail q).value ∈ m.nodes q
  lag : ∀ q, m.nextAddr (m.tail q).value = 0 ∨
    m.nextAddr (m.nextAddr (m.tail q).value) = 0
  live : ∀ q a, a ∈ m.nodes q → m.live a = true
  disjoint : ∀ q q' a, a ∈ m.nodes q → a ∈ m.nodes q' → q = q'
  used : ∀ a, m.live a = true → m.used a = true

/-- What a thread knows of a value `p` it loaded from `m_tail` of `q`: a null
successor means the node is still in the queue, the tail is not before it, and
it is the tail only with the tag loaded. -/
structure TailHeld (m : Mem κ α) (q : κ) (p : TaggedPtr) : Prop where
  mem : m.nextAddr p.value = 0 → p.value ∈ m.nodes q
  le : p.value ∈ m.nodes q →
    (m.nodes q).idxOf p.value ≤ (m.nodes q).idxOf (m.tail q).value
  tag : (m.tail q).value = p.value → m.tail q = p

/-- What a thread knows of a value `p` it loaded from `m_head` of `q`: while
the node is in the queue it is the head, and a null successor means it is. -/
structure HeadHeld (m : Mem κ α) (q : κ) (p : TaggedPtr) : Prop where
  mem : m.nextAddr p.value = 0 → p.value ∈ m.nodes q
  head : p.value ∈ m.nodes q → m.head q = p

/-- If `p` is still the head then the tail has left it. Only then may the head
be moved. -/
def TailPast (m : Mem κ α) (q : κ) (p : TaggedPtr) : Prop :=
  m.head q = p → (m.tail q).value ≠ p.value

/-- If `p` is still the head then `v` is the front element, which is why a
`pop` may read the value before its exchange. -/
def Front (m : Mem κ α) (q : κ) (p : TaggedPtr) (v : α) : Prop :=
  m.head q = p → v = (m.heap (m.nextAddr p.value)).value

/-- The knowledge about address `x` that survives a change of memory. Every
change is shown to keep it for all addresses but the one it hands out. -/
structure Keeps (m m' : Mem κ α) (x : Addr) : Prop where
  next : m.nextAddr x ≠ 0 → m'.nextAddr x = m.nextAddr x
  tailHeld : ∀ q p, p.value = x → TailHeld m q p → TailHeld m' q p
  headHeld : ∀ q p, p.value = x → HeadHeld m q p → HeadHeld m' q p
  tailPast : ∀ q p, p.value = x → HeadHeld m q p → m.nextAddr x ≠ 0 →
    TailPast m q p → TailPast m' q p
  front : ∀ q p v, p.value = x → HeadHeld m q p → m.nextAddr x ≠ 0 →
    Front m q p v → Front m' q p v

theorem Keeps.refl (m : Mem κ α) (x : Addr) : Keeps m m x :=
  ⟨fun _ => rfl, fun _ _ _ h => h, fun _ _ _ h => h, fun _ _ _ _ _ h => h,
    fun _ _ _ _ _ _ h => h⟩

namespace Shape

variable {m : Mem κ α} {q : κ} {x n : Addr} {p : TaggedPtr}

theorem nodes_cons (h : Shape m) (q : κ) :
    ∃ rest, m.nodes q = (m.head q).value :: rest ∧
      Path 0 m.nextAddr (m.nextAddr (m.head q).value) rest :=
  (h.chain q).eq_cons (h.head_ne q)

theorem head_mem (h : Shape m) (q : κ) : (m.head q).value ∈ m.nodes q :=
  (h.chain q).mem_start (h.head_ne q)

theorem ne_zero (h : Shape m) (hx : x ∈ m.nodes q) : x ≠ 0 := by
  rintro rfl
  exact (h.chain q).null_notMem hx

theorem next_mem (h : Shape m) (hx : x ∈ m.nodes q) (hne : m.nextAddr x ≠ 0) :
    m.nextAddr x ∈ m.nodes q :=
  (h.chain q).next_mem hx hne

theorem nodes_of_next_null (h : Shape m) (hnull : m.nextAddr (m.head q).value = 0) :
    m.nodes q = [(m.head q).value] := by
  obtain ⟨rest, hnodes, hrest⟩ := h.nodes_cons q
  rw [hnull] at hrest
  cases rest with
  | nil => exact hnodes
  | cons b rest => exact absurd rfl hrest.2.1

theorem contents_nil (h : Shape m) (hnull : m.nextAddr (m.head q).value = 0) :
    m.contents q = [] := by
  simp [Mem.contents, h.nodes_of_next_null hnull]

theorem contents_cons (h : Shape m) (hne : m.nextAddr (m.head q).value ≠ 0) :
    ∃ rest, m.nodes q = (m.head q).value :: m.nextAddr (m.head q).value :: rest ∧
      m.contents q = (m.heap (m.nextAddr (m.head q).value)).value ::
        rest.map fun a => (m.heap a).value := by
  obtain ⟨tl, hnodes, htl⟩ := h.nodes_cons q
  obtain ⟨rest, rfl, _⟩ := htl.eq_cons hne
  exact ⟨rest, hnodes, by simp [Mem.contents, hnodes]⟩

theorem next_ne_of_tail_ne (h : Shape m) (hne : (m.tail q).value ≠ (m.head q).value) :
    m.nextAddr (m.head q).value ≠ 0 := by
  intro hnull
  have htail := h.tail_mem q
  rw [h.nodes_of_next_null hnull, List.mem_singleton] at htail
  exact hne htail

/-- A node known from the tail with a null successor is the tail. By this an
exchange that succeeds on `old_tail->next` writes to the last node. -/
theorem tail_eq (h : Shape m) (hp : TailHeld m q p) (hnull : m.nextAddr p.value = 0) :
    m.tail q = p := by
  have hmem := hp.mem hnull
  obtain ⟨before, hnodes⟩ := (h.chain q).last_of_next_null hmem hnull
  have hnodup := (h.chain q).nodup
  have hle := hp.le hmem
  have htail := h.tail_mem q
  rw [hnodes] at hnodup hle htail
  simp only [List.nodup_append, List.mem_singleton, forall_eq] at hnodup
  have hlast : p.value ∉ before := fun hb => hnodup.2.2 _ hb rfl
  rw [List.idxOf_append_of_notMem hlast, List.idxOf_cons_self] at hle
  apply hp.tag
  rcases List.mem_append.mp htail with hb | hl
  · have := List.idxOf_lt_length_of_mem hb
    rw [List.idxOf_append_of_mem hb] at hle
    omega
  · simpa using hl

/-- A load of the tail gives a thread what it has to know of it. Later changes
take nothing from that, by `Keeps`. -/
theorem tailHeld (h : Shape m) (q : κ) : TailHeld m q (m.tail q) :=
  ⟨fun _ => h.tail_mem q, fun _ => le_rfl, fun _ => rfl⟩

theorem headHeld (h : Shape m) (q : κ) : HeadHeld m q (m.head q) :=
  ⟨fun _ => h.head_mem q, fun _ => rfl⟩

/-- A value held from the head whose successor is null is the head. So a `pop`
that has loaded null has loaded it from the only node. -/
theorem head_of_null (_ : Shape m) (hp : HeadHeld m q p) (hnull : m.nextAddr p.value = 0) :
    m.head q = p := hp.head (hp.mem hnull)

theorem next_ne_of_past (h : Shape m) (hp : HeadHeld m q p) (hpast : TailPast m q p) :
    m.nextAddr p.value ≠ 0 := by
  intro hnull
  have hhead := hp.head (hp.mem hnull)
  rw [← hhead] at hnull
  refine h.next_ne_of_tail_ne ?_ hnull
  rw [hhead]
  exact hpast hhead

end Shape

end Libni.MSQueue
