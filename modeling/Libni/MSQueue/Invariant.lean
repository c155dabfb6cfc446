import Libni.MSQueue.Change

/-!
The invariant of the queues: the shape of the memory, what each program counter
knows, and who owns the nodes that are in no queue. It is kept by every step
whose `new` returns an address that no thread still holds from an earlier load.
Every step is first classified as one of the changes of shared memory; the
invariant is then proved once for each kind of change.
-/

namespace Libni.MSQueue

open Function Libni.Transition

variable {κ τ α : Type*}

/-- The node a thread has created and not yet linked. -/
def Local.node : Local κ α → Option Addr
  | .push _ (.loadTail node) | .push _ (.loadNext node _) | .push _ (.checkTail node _ _)
  | .push _ (.casNext node _ _) | .push _ (.helpTail node _ _) => some node
  | .tryPush _ (.casNext node _ _) | .tryPush _ (.deleteNode node) => some node
  | _ => none

/-- The node a thread has unlinked and not yet deleted. -/
def Local.unlinked : Local κ α → Option Addr
  | .pop _ _ _ _ (.deleteHead oldHead) => some oldHead.value
  | .tryPop _ _ _ _ _ (.deleteHead oldHead) => some oldHead.value
  | _ => none

/-- The node that no queue has and the thread answers for. It is linked,
deleted or kept, and no other thread touches it. -/
def Local.owned (l : Local κ α) : Option Addr := l.node.or l.unlinked

/-- The address of `old_tail` in `push` and `try_push`, or of `old_head` in
the other operations, from its load to its last use. -/
def Local.held : Local κ α → Option Addr
  | .push _ (.loadNext _ oldTail) | .push _ (.checkTail _ oldTail _)
  | .push _ (.casNext _ oldTail _) | .push _ (.casTail _ oldTail)
  | .push _ (.helpTail _ oldTail _) => some oldTail.value
  | .tryPush _ (.loadNext _ oldTail) | .tryPush _ (.newNode _ oldTail _)
  | .tryPush _ (.casNext _ oldTail _) | .tryPush _ (.casTail _ oldTail)
  | .tryPush _ (.helpTail oldTail _) => some oldTail.value
  | .pop _ _ _ _ (.loadTail oldHead) | .pop _ _ _ _ (.loadNext oldHead _)
  | .pop _ _ _ _ (.checkHead oldHead _ _) | .pop _ _ _ _ (.readValue oldHead _)
  | .pop _ _ _ _ (.casHead oldHead _) => some oldHead.value
  | .pop _ _ _ _ (.helpTail oldTail _) => some oldTail.value
  | .tryPop _ _ _ _ _ (.loadTail oldHead) | .tryPop _ _ _ _ _ (.loadNext oldHead _)
  | .tryPop _ _ _ _ _ (.readValue oldHead _) | .tryPop _ _ _ _ _ (.casHead oldHead _) =>
      some oldHead.value
  | .tryPop _ _ _ _ _ (.helpTail oldTail _) => some oldTail.value
  | .empty _ (.loadTail oldHead) | .empty _ (.loadNext oldHead _)
  | .empty _ (.checkHead oldHead _ _) => some oldHead.value
  | _ => none

/-- Whether the next step of the thread calls `new`. Only then does the
address a label supplies matter. -/
def Local.allocates : Local κ α → Bool
  | .push _ (.newNode _) => true
  | .tryPush _ (.newNode _ _ _) => true
  | _ => false

/-- The node of `p` is followed by the node of `next`. -/
def Linked (m : Mem κ α) (p next : TaggedPtr) : Prop :=
  m.nextAddr p.value = next.value ∧ next.value ≠ 0

/-- What `push` knows between two accesses. After the check of the tail, a
null successor loaded before it tells nothing more; the exchange will. -/
def PushPc.Facts (m : Mem κ α) (q : κ) : PushPc α → Prop
  | .newNode _ | .loadTail _ => True
  | .loadNext _ oldTail => TailHeld m q oldTail
  | .checkTail _ oldTail next =>
      TailHeld m q oldTail ∧ (next.value ≠ 0 → Linked m oldTail next)
  | .casNext _ oldTail next => TailHeld m q oldTail ∧ next.value = 0
  | .casTail node oldTail =>
      TailHeld m q oldTail ∧ m.nextAddr oldTail.value = node ∧ node ≠ 0
  | .helpTail _ oldTail next => TailHeld m q oldTail ∧ Linked m oldTail next

/-- What `try_push` knows, which had a null successor when it decided to
allocate. -/
def TryPushPc.Facts (m : Mem κ α) (q : κ) : TryPushPc α → Prop
  | .loadTail _ _ | .deleteNode _ => True
  | .loadNext _ oldTail => TailHeld m q oldTail
  | .newNode _ oldTail next | .casNext _ oldTail next =>
      TailHeld m q oldTail ∧ next.value = 0
  | .casTail node oldTail =>
      TailHeld m q oldTail ∧ m.nextAddr oldTail.value = node ∧ node ≠ 0
  | .helpTail oldTail next => TailHeld m q oldTail ∧ Linked m oldTail next

/-- What holds of an old head whose successor will be removed. All of it was
seen by loads, and the exchange finds out whether it still holds. -/
structure Removing (m : Mem κ α) (q : κ) (oldHead next : TaggedPtr) : Prop where
  held : HeadHeld m q oldHead
  past : TailPast m q oldHead
  linked : Linked m oldHead next

/-- What `pop` knows. The order of its loads matters: head before tail, so
that a tail that differs has left the head, and both before the successor. -/
def PopPc.Facts (m : Mem κ α) (q : κ) (element : α) : PopPc → Prop
  | .loadHead | .deleteHead _ => True
  | .loadTail oldHead => HeadHeld m q oldHead
  | .loadNext oldHead oldTail =>
      HeadHeld m q oldHead ∧ (oldHead.value ≠ oldTail.value → TailPast m q oldHead)
  | .checkHead oldHead oldTail next =>
      HeadHeld m q oldHead ∧
        (oldHead.value ≠ oldTail.value → Removing m q oldHead next) ∧
        (oldHead.value = oldTail.value → next.value ≠ 0 → Linked m oldTail next)
  | .helpTail oldTail next => Linked m oldTail next
  | .readValue oldHead next => Removing m q oldHead next
  | .casHead oldHead next => Removing m q oldHead next ∧ Front m q oldHead element

/-- What `try_pop` knows; it is what `pop` knows without the second load of
the head. -/
def TryPopPc.Facts (m : Mem κ α) (q : κ) (element : α) : TryPopPc → Prop
  | .loadHead | .deleteHead _ => True
  | .loadTail oldHead => HeadHeld m q oldHead
  | .loadNext oldHead oldTail =>
      HeadHeld m q oldHead ∧ (oldHead.value ≠ oldTail.value → TailPast m q oldHead)
  | .helpTail oldTail next => Linked m oldTail next
  | .readValue oldHead next => Removing m q oldHead next
  | .casHead oldHead next => Removing m q oldHead next ∧ Front m q oldHead element

def EmptyPc.Facts (m : Mem κ α) (q : κ) : EmptyPc → Prop
  | .loadHead => True
  | .loadTail oldHead | .loadNext oldHead _ | .checkHead oldHead _ _ => HeadHeld m q oldHead

/-- What the program counter of a thread says about the memory. It speaks of
the address the thread holds and of nothing else. -/
def Local.Facts (m : Mem κ α) : Local κ α → Prop
  | .push q pc => pc.Facts m q
  | .tryPush q pc => pc.Facts m q
  | .pop q _ element _ pc => pc.Facts m q element
  | .tryPop q _ element _ _ pc => pc.Facts m q element
  | .empty q pc => pc.Facts m q
  | .idle | .tailState _ | .done _ => True

/-- The invariant of the queues: the shape of the memory, what every thread
knows, and that every node a thread owns is allocated, in no queue and owned
by nobody else. -/
structure Inv (s : State κ τ α) : Prop where
  shape : Shape s.mem
  facts : ∀ t, (s.threads t).Facts s.mem
  held_used : ∀ t a, (s.threads t).held = some a → s.mem.used a = true
  owned_live : ∀ t a, (s.threads t).owned = some a → s.mem.live a = true
  owned_out : ∀ t a q, (s.threads t).owned = some a → a ∉ s.mem.nodes q
  owned_unique : ∀ t t' a, (s.threads t).owned = some a →
    (s.threads t').owned = some a → t = t'
  node_null : ∀ t a, (s.threads t).node = some a → a ≠ 0 ∧ s.mem.nextAddr a = 0

section Keeps

variable {m m' : Mem κ α} {q : κ} {p next : TaggedPtr}

theorem Keeps.linked (h : Keeps m m' p.value) (hl : Linked m p next) : Linked m' p next := by
  have hne : m.nextAddr p.value ≠ 0 := by
    rw [hl.1]
    exact hl.2
  exact ⟨by rw [h.next hne, hl.1], hl.2⟩

theorem Linked.ne_zero (hl : Linked m p next) : m.nextAddr p.value ≠ 0 := by
  rw [hl.1]
  exact hl.2

/-- What a `pop` knows of the head it is going to remove survives a change. -/
theorem Keeps.removing (h : Keeps m m' p.value) (hr : Removing m q p next) :
    Removing m' q p next :=
  ⟨h.headHeld q p rfl hr.held,
    h.tailPast q p rfl hr.held hr.linked.ne_zero hr.past, h.linked hr.linked⟩

theorem Keeps.node (h : Keeps m m' p.value) {n : Addr}
    (hp : TailHeld m q p ∧ m.nextAddr p.value = n ∧ n ≠ 0) :
    TailHeld m' q p ∧ m'.nextAddr p.value = n ∧ n ≠ 0 := by
  obtain ⟨htail, hnext, hn⟩ := hp
  exact ⟨h.tailHeld q p rfl htail, by rw [h.next (by rwa [hnext]), hnext], hn⟩

/-- A thread's knowledge depends only on the address it holds. -/
theorem Local.Facts.keeps (hshape : Shape m) {l : Local κ α}
    (hk : ∀ x, l.held = some x → Keeps m m' x) (h : l.Facts m) : l.Facts m' := by
  cases l with
  | idle => trivial
  | tailState q => trivial
  | done r => trivial
  | push q pc =>
      cases pc with
      | newNode e => trivial
      | loadTail n => trivial
      | loadNext n ot => exact (hk _ rfl).tailHeld q ot rfl h
      | checkTail n ot nx =>
          exact ⟨(hk _ rfl).tailHeld q ot rfl h.1, fun hne => (hk _ rfl).linked (h.2 hne)⟩
      | casNext n ot nx => exact ⟨(hk _ rfl).tailHeld q ot rfl h.1, h.2⟩
      | casTail n ot => exact (hk _ rfl).node h
      | helpTail n ot nx => exact ⟨(hk _ rfl).tailHeld q ot rfl h.1, (hk _ rfl).linked h.2⟩
  | tryPush q pc =>
      cases pc with
      | loadTail e s => trivial
      | deleteNode n => trivial
      | loadNext e ot => exact (hk _ rfl).tailHeld q ot rfl h
      | newNode e ot nx => exact ⟨(hk _ rfl).tailHeld q ot rfl h.1, h.2⟩
      | casNext n ot nx => exact ⟨(hk _ rfl).tailHeld q ot rfl h.1, h.2⟩
      | casTail n ot => exact (hk _ rfl).node h
      | helpTail ot nx => exact ⟨(hk _ rfl).tailHeld q ot rfl h.1, (hk _ rfl).linked h.2⟩
  | pop q arg e hs pc =>
      cases pc with
      | loadHead => trivial
      | deleteHead oh => trivial
      | loadTail oh => exact (hk _ rfl).headHeld q oh rfl h
      | loadNext oh ot =>
          refine ⟨(hk _ rfl).headHeld q oh rfl h.1, fun hne => ?_⟩
          exact (hk _ rfl).tailPast q oh rfl h.1 (hshape.next_ne_of_past h.1 (h.2 hne)) (h.2 hne)
      | checkHead oh ot nx =>
          refine ⟨(hk _ rfl).headHeld q oh rfl h.1, fun hne => (hk _ rfl).removing (h.2.1 hne),
            fun heq hne => ?_⟩
          have hl := h.2.2 heq hne
          rw [Linked, ← heq] at hl ⊢
          exact (hk _ rfl).linked hl
      | helpTail ot nx => exact (hk _ rfl).linked h
      | readValue oh nx => exact (hk _ rfl).removing h
      | casHead oh nx =>
          exact ⟨(hk _ rfl).removing h.1,
            (hk _ rfl).front q oh e rfl h.1.held h.1.linked.ne_zero h.2⟩
  | tryPop q arg e s hs pc =>
      cases pc with
      | loadHead => trivial
      | deleteHead oh => trivial
      | loadTail oh => exact (hk _ rfl).headHeld q oh rfl h
      | loadNext oh ot =>
          refine ⟨(hk _ rfl).headHeld q oh rfl h.1, fun hne => ?_⟩
          exact (hk _ rfl).tailPast q oh rfl h.1 (hshape.next_ne_of_past h.1 (h.2 hne)) (h.2 hne)
      | helpTail ot nx => exact (hk _ rfl).linked h
      | readValue oh nx => exact (hk _ rfl).removing h
      | casHead oh nx =>
          exact ⟨(hk _ rfl).removing h.1,
            (hk _ rfl).front q oh e rfl h.1.held h.1.linked.ne_zero h.2⟩
  | empty q pc =>
      cases pc with
      | loadHead => trivial
      | loadTail oh => exact (hk _ rfl).headHeld q oh rfl h
      | loadNext oh ot => exact (hk _ rfl).headHeld q oh rfl h
      | checkHead oh ot nx => exact (hk _ rfl).headHeld q oh rfl h

end Keeps

section Change

variable [DecidableEq κ]

/-- The change of memory made by one step of a thread that goes from `l` to
`l'`, with what happens to the node it owns. All invariants below are proved
along these cases, and only the classification of the steps looks at the
operations. -/
inductive Change (fresh : Addr) (m : Mem κ α) (l l' : Local κ α) : Mem κ α → Prop
  | same (hnode : l'.node = l.node) (howned : l'.owned = l.owned) : Change fresh m l l' m
  | swing (q : κ) (t : Tag) (hne : m.nextAddr (m.tail q).value ≠ 0)
      (hnode : l'.node = l.node) (howned : l'.owned = l.owned) :
      Change fresh m l l' (m.setTail q ⟨m.nextAddr (m.tail q).value, t⟩)
  | alloc (e : α) (m' : Mem κ α) (hnew : m.new fresh e = some m')
      (hl : l.allocates = true) (hnode : l'.node = some fresh)
      (howned : l'.owned = some fresh) : Change fresh m l l' m'
  | link (q : κ) (n : Addr) (t : Tag) (hnull : m.nextAddr (m.tail q).value = 0)
      (hn : l.node = some n) (hnode : l'.node = none) (howned : l'.owned = none) :
      Change fresh m l l' (m.setNext (m.tail q).value ⟨n, t⟩)
  | advance (q : κ) (t : Tag) (htail : (m.tail q).value ≠ (m.head q).value)
      (hl : l.owned = none) (hnode : l'.node = none)
      (howned : l'.owned = some (m.head q).value) :
      Change fresh m l l' (m.setHead q ⟨m.nextAddr (m.head q).value, t⟩)
  | free (a : Addr) (hl : l.owned = some a) (hnode : l'.node = none)
      (howned : l'.owned = none) : Change fresh m l l' (m.delete a)

variable {fresh : Addr} {m m' : Mem κ α} {q : κ} {l l' : Local κ α}

omit [DecidableEq κ] in
theorem Local.owned_of_node {a : Addr} (h : l.node = some a) : l.owned = some a := by
  simp [Local.owned, h]

/-- What the invariant says of the node a thread owns. A node that is yet to
be linked has no successor. -/
structure Owner (m : Mem κ α) (l : Local κ α) : Prop where
  live : ∀ a, l.owned = some a → m.live a = true
  out : ∀ a q, l.owned = some a → a ∉ m.nodes q
  null : ∀ a, l.node = some a → a ≠ 0 ∧ m.nextAddr a = 0

omit [DecidableEq κ] in
theorem Inv.owner {s : State κ τ α} (h : Inv s) (t : τ) : Owner s.mem (s.threads t) :=
  ⟨h.owned_live t, h.owned_out t, h.node_null t⟩

theorem Change.shape (h : Change fresh m l l' m') (hs : Shape m) (ho : Owner m l) :
    Shape m' := by
  cases h with
  | same => exact hs
  | swing q t hne => exact hs.setTail hne
  | alloc e _ hnew => exact hs.new hnew
  | link q n t hnull hn =>
      have howned := Local.owned_of_node hn
      exact hs.link (hs.tail_mem q) hnull rfl (ho.null n hn).1 (ho.null n hn).2
        (fun q => ho.out n q howned) (ho.live n howned)
  | advance q t htail => exact hs.setHead htail
  | free a hl => exact hs.delete fun q => ho.out a q hl

/-- Every change keeps what is known about an address, other than the one
handed out. -/
theorem Change.keeps (h : Change fresh m l l' m') (hs : Shape m) (ho : Owner m l) {x : Addr}
    (hx : l.allocates = true → x ≠ fresh) : Keeps m m' x := by
  cases h with
  | same => exact .refl m x
  | swing q t hne => exact hs.keeps_setTail hne x
  | alloc e _ hnew hl => exact hs.keeps_new hnew (hx hl)
  | link q n t hnull hn =>
      have howned := Local.owned_of_node hn
      exact hs.keeps_link (hs.tail_mem q) hnull (ho.null n hn).1 (ho.null n hn).2
        (fun q => ho.out n q howned) x
  | advance q t htail => exact hs.keeps_setHead htail x
  | free a => exact keeps_delete m a x

/-- The nodes of the queues after a change: a queue gains only the node its
thread owned, and nothing else enters one. -/
theorem Change.nodes_subset (h : Change fresh m l l' m') (hs : Shape m) (ho : Owner m l)
    {a : Addr} {q : κ} (ha : a ∈ m'.nodes q) : a ∈ m.nodes q ∨ l.node = some a := by
  cases h with
  | same => exact Or.inl ha
  | swing => exact Or.inl ha
  | alloc e _ hnew =>
      rw [hs.nodes_new hnew] at ha
      exact Or.inl ha
  | link q' n t hnull hn =>
      have howned := Local.owned_of_node hn
      rw [hs.nodes_link (hs.tail_mem q') hnull (ho.null n hn).1 (ho.null n hn).2
        (ho.out n q' howned)] at ha
      by_cases hq : q = q'
      · subst hq
        simp only [update_self, List.mem_append, List.mem_singleton] at ha
        rcases ha with ha | rfl
        · exact Or.inl ha
        · exact Or.inr hn
      · rw [update_of_ne hq] at ha
        exact Or.inl ha
  | advance q' t htail =>
      rw [hs.nodes_setHead] at ha
      by_cases hq : q = q'
      · subst hq
        rw [update_self] at ha
        exact Or.inl (List.mem_of_mem_tail ha)
      · rw [update_of_ne hq] at ha
        exact Or.inl ha
  | free => exact Or.inl ha

theorem Change.used (h : Change fresh m l l' m') {a : Addr} (ha : m.used a = true) :
    m'.used a = true := by
  cases h with
  | alloc e _ hnew =>
      obtain ⟨_, rfl⟩ := Mem.new_eq_some.mp hnew
      by_cases hf : a = fresh
      · simp [hf]
      · simpa [update_of_ne hf] using ha
  | same | swing | link | advance | free => exact ha

theorem Change.live (h : Change fresh m l l' m') {a : Addr} (ha : m.live a = true)
    (hl : l.owned ≠ some a) : m'.live a = true := by
  cases h with
  | alloc e _ hnew =>
      obtain ⟨_, rfl⟩ := Mem.new_eq_some.mp hnew
      by_cases hf : a = fresh
      · simp [hf]
      · simpa [update_of_ne hf] using ha
  | free b hb =>
      have hab : a ≠ b := by
        rintro rfl
        exact hl hb
      simpa [Mem.delete, update_of_ne hab] using ha
  | same | swing | link | advance => exact ha

/-- The successor of a node another thread owns does not change. Links are
written to nodes in queues only. -/
theorem Change.nextAddr (h : Change fresh m l l' m') (hs : Shape m) {a : Addr}
    (ha : m.live a = true) (hout : ∀ q, a ∉ m.nodes q) : m'.nextAddr a = m.nextAddr a := by
  cases h with
  | alloc e _ hnew =>
      apply Mem.nextAddr_new hnew
      rintro rfl
      obtain ⟨⟨_, hfree⟩, _⟩ := Mem.new_eq_some.mp hnew
      rw [ha] at hfree
      cases hfree
  | link q n t =>
      apply Mem.nextAddr_setNext_of_ne _
      rintro rfl
      exact hout q (hs.tail_mem q)
  | same | swing | advance | free => rfl

/-- The thread's own node, which it has just created, kept, linked or taken
out of a queue. -/
theorem Change.owner (h : Change fresh m l l' m') (hs : Shape m) (ho : Owner m l) :
    Owner m' l' := by
  cases h with
  | same hnode howned =>
      exact ⟨by rw [howned]; exact ho.live, by rw [howned]; exact ho.out,
        by rw [hnode]; exact ho.null⟩
  | swing q t hne hnode howned =>
      exact ⟨by rw [howned]; exact ho.live, by rw [howned]; exact ho.out,
        by rw [hnode]; exact ho.null⟩
  | alloc e _ hnew hl hnode howned =>
      have hnodes := hs.nodes_new hnew
      have hnull := Mem.nextAddr_new_self hnew
      obtain ⟨⟨hne, hfree⟩, rfl⟩ := Mem.new_eq_some.mp hnew
      refine ⟨?_, ?_, ?_⟩
      · rintro a ha
        obtain rfl : fresh = a := by simpa [howned] using ha
        simp
      · rintro a q ha hmem
        obtain rfl : fresh = a := by simpa [howned] using ha
        rw [hnodes] at hmem
        rw [hs.live q _ hmem] at hfree
        cases hfree
      · rintro a ha
        obtain rfl : fresh = a := by simpa [hnode] using ha
        exact ⟨hne, hnull⟩
  | link q n t hnull hn hnode howned =>
      exact ⟨by simp [howned], by simp [howned], by simp [hnode]⟩
  | advance q t htail hl hnode howned =>
      refine ⟨?_, ?_, by simp [hnode]⟩
      · rintro a ha
        obtain rfl : (m.head q).value = a := by simpa [howned] using ha
        exact hs.live q _ (hs.head_mem q)
      · rintro a q' ha hmem
        obtain rfl : (m.head q).value = a := by simpa [howned] using ha
        rw [hs.nodes_setHead] at hmem
        by_cases hq : q' = q
        · subst hq
          obtain ⟨rest, hcons, _⟩ := hs.nodes_cons q'
          have hnodup := (hs.chain q').nodup
          rw [hcons] at hnodup
          rw [update_self, hcons] at hmem
          exact (List.nodup_cons.mp hnodup).1 hmem
        · rw [update_of_ne hq] at hmem
          exact hq (hs.disjoint _ _ _ hmem (hs.head_mem q))
  | free a hl hnode howned =>
      exact ⟨by simp [howned], by simp [howned], by simp [hnode]⟩

theorem Change.owner_other (h : Change fresh m l l' m') (hs : Shape m) (ho : Owner m l)
    {k : Local κ α} (hk : Owner m k) (hne : ∀ a, k.owned = some a → l.owned ≠ some a) :
    Owner m' k := by
  refine ⟨fun a ha => h.live (hk.live a ha) (hne a ha), ?_, ?_⟩
  · intro a q ha hmem
    rcases h.nodes_subset hs ho hmem with hold | hnode
    · exact hk.out a q ha hold
    · exact hne a ha (Local.owned_of_node hnode)
  · intro a ha
    have howned := Local.owned_of_node ha
    rw [h.nextAddr hs (hk.live a howned) fun q => hk.out a q howned]
    exact hk.null a ha

/-- The node a thread owns after its step was its own before, or was nobody's. -/
theorem Change.owned_new (h : Change fresh m l l' m') (hs : Shape m) {a : Addr}
    (ha : l'.owned = some a) {k : Local κ α} (hk : Owner m k) (hka : k.owned = some a) :
    l.owned = some a := by
  cases h with
  | same _ howned => rwa [howned] at ha
  | swing _ _ _ _ howned => rwa [howned] at ha
  | alloc e _ hnew _ _ howned =>
      obtain rfl : fresh = a := by simpa [howned] using ha
      obtain ⟨⟨_, hfree⟩, _⟩ := Mem.new_eq_some.mp hnew
      rw [hk.live _ hka] at hfree
      cases hfree
  | link _ _ _ _ _ _ howned => simp [howned] at ha
  | advance q _ _ _ _ howned =>
      obtain rfl : (m.head q).value = a := by simpa [howned] using ha
      exact absurd (hs.head_mem q) (hk.out _ q hka)
  | free _ _ _ howned => simp [howned] at ha

/-- Every thread owns its node alone. So a deletion frees no node that another
thread is about to link. -/
structure Owners (m : Mem κ α) (threads : τ → Local κ α) : Prop where
  owner : ∀ t, Owner m (threads t)
  unique : ∀ t t' a, (threads t).owned = some a → (threads t').owned = some a → t = t'

omit [DecidableEq κ] in
theorem Inv.owners {s : State κ τ α} (h : Inv s) : Owners s.mem s.threads :=
  ⟨h.owner, h.owned_unique⟩

theorem Owners.change [DecidableEq τ] {threads : τ → Local κ α} (h : Owners m threads)
    (hs : Shape m) (t : τ) (hc : Change fresh m (threads t) l' m') :
    Owners m' (update threads t l') := by
  have ho := h.owner t
  refine ⟨fun u => ?_, fun u v a hua hva => ?_⟩
  · by_cases hu : u = t
    · subst hu
      simpa using hc.owner hs ho
    · simpa [update_of_ne hu] using hc.owner_other hs ho (h.owner u) fun a ha hta =>
        hu (h.unique u t a ha hta)
  · by_cases hu : u = t
    · subst hu
      by_cases hv : v = u
      · exact hv.symm
      · simp only [update_self] at hua
        simp only [update_of_ne hv] at hva
        exact h.unique u v a (hc.owned_new hs hua (h.owner v) hva) hva
    · simp only [update_of_ne hu] at hua
      by_cases hv : v = t
      · subst hv
        simp only [update_self] at hva
        exact h.unique u v a hua (hc.owned_new hs hva (h.owner u) hua)
      · simp only [update_of_ne hv] at hva
        exact h.unique u v a hua hva

/-- The invariant is kept by every change after which the thread knows what
its new program counter says, if no thread holds the address handed out. What
the other threads know is kept by `Local.Facts.keeps`. -/
theorem Inv.change [DecidableEq τ] {s : State κ τ α} (h : Inv s) (t : τ)
    (hc : Change fresh s.mem (s.threads t) l' m') (hfacts : l'.Facts m')
    (hheld : ∀ a, l'.held = some a → m'.used a = true)
    (hfresh : (s.threads t).allocates = true → ∀ u, (s.threads u).held ≠ some fresh) :
    Inv ⟨m', update s.threads t l'⟩ := by
  have ho := h.owner t
  have hnew := h.owners.change h.shape t hc
  refine ⟨hc.shape h.shape ho, ?_, ?_, fun u => (hnew.owner u).live,
    fun u => (hnew.owner u).out, hnew.unique, fun u => (hnew.owner u).null⟩
  · intro u
    by_cases hu : u = t
    · subst hu
      simpa using hfacts
    · simp only [update_of_ne hu]
      refine (h.facts u).keeps h.shape fun x hx => hc.keeps h.shape ho fun hl => ?_
      rintro rfl
      exact hfresh hl u hx
  · intro u a ha
    by_cases hu : u = t
    · subst hu
      exact hheld a (by simpa using ha)
    · simp only [update_of_ne hu] at ha
      exact hc.used (h.held_used u a ha)

end Change

end Libni.MSQueue
