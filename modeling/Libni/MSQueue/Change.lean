import Libni.MSQueue.Shape

/-!
Shared memory changes in five ways only: a node is allocated, freed or linked
behind the last one, and the tail or the head moves to a successor. Each change
keeps the shape, and each keeps what a thread knows about an address it loaded
earlier, as long as that address is not handed out again.
-/

namespace Libni.MSQueue

open Function Libni.Support

variable {κ α : Type*}

section Alloc

variable {m m' : Mem κ α} {a x : Addr} {e : α}

theorem Mem.nextAddr_new (hnew : m.new a e = some m') (hx : x ≠ a) :
    m'.nextAddr x = m.nextAddr x := by
  obtain ⟨_, rfl⟩ := Mem.new_eq_some.mp hnew
  simp [Mem.nextAddr, update_of_ne hx]

theorem Mem.nextAddr_new_self (hnew : m.new a e = some m') : m'.nextAddr a = 0 := by
  obtain ⟨_, rfl⟩ := Mem.new_eq_some.mp hnew
  simp [Mem.nextAddr]

theorem Mem.value_new (hnew : m.new a e = some m') (hx : x ≠ a) :
    (m'.heap x).value = (m.heap x).value := by
  obtain ⟨_, rfl⟩ := Mem.new_eq_some.mp hnew
  simp [update_of_ne hx]

/-- The address handed out is that of no node in a queue, since those are
allocated. -/
theorem Shape.ne_of_new (h : Shape m) (hnew : m.new a e = some m') {q : κ}
    (hx : x ∈ m.nodes q) : x ≠ a := by
  rintro rfl
  obtain ⟨⟨_, hfree⟩, _⟩ := Mem.new_eq_some.mp hnew
  rw [h.live q x hx] at hfree
  cases hfree

theorem Shape.nodes_new (h : Shape m) (hnew : m.new a e = some m') :
    m'.nodes = m.nodes := by
  funext q
  apply Mem.nodes_eq
  have hhead : m'.head = m.head := by
    obtain ⟨_, rfl⟩ := Mem.new_eq_some.mp hnew
    rfl
  rw [Mem.Chain, hhead]
  exact (h.chain q).congr fun y hy => Mem.nextAddr_new hnew (h.ne_of_new hnew hy)

theorem Shape.contents_new (h : Shape m) (hnew : m.new a e = some m') :
    m'.contents = m.contents := by
  funext q
  rw [Mem.contents, Mem.contents, h.nodes_new hnew]
  apply List.map_congr_left
  intro y hy
  exact Mem.value_new hnew (h.ne_of_new hnew (List.mem_of_mem_tail hy))

theorem Shape.new (h : Shape m) (hnew : m.new a e = some m') : Shape m' := by
  have hnodes := h.nodes_new hnew
  have hnext (x : Addr) (q : κ) (hx : x ∈ m.nodes q) : m'.nextAddr x = m.nextAddr x :=
    Mem.nextAddr_new hnew (h.ne_of_new hnew hx)
  obtain ⟨⟨ha, hfree⟩, hm'⟩ := Mem.new_eq_some.mp hnew
  have hhead : m'.head = m.head := by rw [← hm']
  have htail : m'.tail = m.tail := by rw [← hm']
  have hlive : m'.live = update m.live a true := by rw [← hm']
  have hused : m'.used = update m.used a true := by rw [← hm']
  refine ⟨by simpa [hhead] using h.head_ne, ?_, by simpa [htail, hnodes] using h.tail_mem,
    ?_, ?_, by simpa [hnodes] using h.disjoint, ?_⟩
  · intro q
    rw [Mem.Chain, hhead, hnodes]
    exact (h.chain q).congr fun y hy => hnext y q hy
  · intro q
    rw [htail, hnext _ q (h.tail_mem q)]
    by_cases hlast : m.nextAddr (m.tail q).value = 0
    · exact Or.inl hlast
    · rw [hnext _ q (h.next_mem (h.tail_mem q) hlast)]
      exact h.lag q
  · intro q y hy
    rw [hnodes] at hy
    rw [hlive, update_of_ne (h.ne_of_new hnew hy)]
    exact h.live q y hy
  · intro y hy
    rw [hused]
    by_cases hya : y = a
    · subst hya
      simp
    · rw [hlive, update_of_ne hya] at hy
      rw [update_of_ne hya]
      exact h.used y hy

/-- Everything known about an address survives allocation elsewhere. It does
not survive at the address itself, which is the one case that the guards of a
run are about. -/
theorem Shape.keeps_new (h : Shape m) (hnew : m.new a e = some m') (hx : x ≠ a) :
    Keeps m m' x := by
  have hnodes := h.nodes_new hnew
  have hnext := Mem.nextAddr_new hnew hx
  have hhead : m'.head = m.head := by
    obtain ⟨_, rfl⟩ := Mem.new_eq_some.mp hnew
    rfl
  have htail : m'.tail = m.tail := by
    obtain ⟨_, rfl⟩ := Mem.new_eq_some.mp hnew
    rfl
  refine ⟨fun _ => hnext, ?_, ?_, ?_, ?_⟩
  · rintro q p rfl hp
    exact ⟨by rw [hnodes, hnext]; exact hp.mem, by rw [hnodes, htail]; exact hp.le,
      by rw [htail]; exact hp.tag⟩
  · rintro q p rfl hp
    exact ⟨by rw [hnodes, hnext]; exact hp.mem, by rw [hnodes, hhead]; exact hp.head⟩
  · rintro q p rfl _ _ hpast
    rw [TailPast, hhead, htail]
    exact hpast
  · rintro q p v rfl hp hne hfront
    rw [Front, hhead, hnext]
    intro hq
    rw [hfront hq]
    have hmem : m.nextAddr p.value ∈ m.nodes q := by
      rw [← hq] at hne ⊢
      exact h.next_mem (h.head_mem q) hne
    exact (Mem.value_new hnew (h.ne_of_new hnew hmem)).symm

end Alloc

section Free

variable {m : Mem κ α} {a : Addr}

theorem Shape.delete (h : Shape m) (ha : ∀ q, a ∉ m.nodes q) : Shape (m.delete a) := by
  refine ⟨h.head_ne, h.chain, h.tail_mem, h.lag, ?_, h.disjoint, ?_⟩
  · intro q x hx
    have hne : x ≠ a := by
      rintro rfl
      exact ha q hx
    simp only [Mem.delete, update_of_ne hne]
    exact h.live q x hx
  · intro x hx
    by_cases hxa : x = a
    · subst hxa
      simp [Mem.delete] at hx
    · simp only [Mem.delete, update_of_ne hxa] at hx
      exact h.used x hx

/-- What is known about an address survives its deallocation, since the
contents stay. -/
theorem keeps_delete (m : Mem κ α) (a x : Addr) : Keeps m (m.delete a) x :=
  ⟨fun _ => rfl, fun _ _ _ hp => ⟨hp.mem, hp.le, hp.tag⟩, fun _ _ _ hp => ⟨hp.mem, hp.head⟩,
    fun _ _ _ _ _ h => h, fun _ _ _ _ _ _ h => h⟩

end Free

section Link

variable {m : Mem κ α} {q : κ} {x n : Addr} {t : Tag}

theorem Shape.chain_link (h : Shape m) (hx : x ∈ m.nodes q) (hnull : m.nextAddr x = 0)
    (hn : n ≠ 0) (hend : m.nextAddr n = 0) (hout : n ∉ m.nodes q) :
    (m.setNext x ⟨n, t⟩).Chain q (m.nodes q ++ [n]) := by
  have hne : n ≠ x := by
    rintro rfl
    exact hout hx
  have hchain := h.chain q
  obtain ⟨before, hnodes⟩ := hchain.last_of_next_null hx hnull
  have hnodup := hchain.nodup
  rw [Mem.Chain, hnodes] at hchain ⊢
  rw [hnodes] at hnodup
  simp only [List.nodup_append, List.mem_singleton, forall_eq] at hnodup
  refine hchain.snoc hn ?_ (Mem.nextAddr_setNext_self _ _) ?_
  · intro y hy
    exact Mem.nextAddr_setNext_of_ne _ (hnodup.2.2 y hy)
  · rw [Mem.nextAddr_setNext_of_ne _ hne, hend]

/-- The other queues do not meet the node written to, as no two queues share a
node. -/
theorem Shape.chain_link_of_ne (h : Shape m) {q' : κ} (hq : q' ≠ q) (hx : x ∈ m.nodes q) :
    (m.setNext x ⟨n, t⟩).Chain q' (m.nodes q') := by
  refine (h.chain q').congr fun y hy => Mem.nextAddr_setNext_of_ne _ ?_
  rintro rfl
  exact hq (h.disjoint q' q y hy hx)

variable [DecidableEq κ]

theorem Shape.nodes_link (h : Shape m) (hx : x ∈ m.nodes q) (hnull : m.nextAddr x = 0)
    (hn : n ≠ 0) (hend : m.nextAddr n = 0) (hout : n ∉ m.nodes q) :
    (m.setNext x ⟨n, t⟩).nodes = update m.nodes q (m.nodes q ++ [n]) := by
  funext q'
  by_cases hq : q' = q
  · subst hq
    rw [update_self]
    exact Mem.nodes_eq (h.chain_link hx hnull hn hend hout)
  · rw [update_of_ne hq]
    exact Mem.nodes_eq (h.chain_link_of_ne hq hx)

theorem Shape.contents_link (h : Shape m) (hx : x ∈ m.nodes q) (hnull : m.nextAddr x = 0)
    (hn : n ≠ 0) (hend : m.nextAddr n = 0) (hout : n ∉ m.nodes q) :
    (m.setNext x ⟨n, t⟩).contents =
      update m.contents q (m.contents q ++ [(m.heap n).value]) := by
  funext q'
  rw [Mem.contents, h.nodes_link hx hnull hn hend hout]
  by_cases hq : q' = q
  · subst hq
    obtain ⟨rest, hnodes, _⟩ := h.nodes_cons q'
    simp [Mem.contents, hnodes]
  · simp [Mem.contents, update_of_ne hq]

/-- A node is linked behind the last one, and the tail is then one node
behind. -/
theorem Shape.link (h : Shape m) (hx : x ∈ m.nodes q) (hnull : m.nextAddr x = 0)
    (htail : (m.tail q).value = x) (hn : n ≠ 0) (hend : m.nextAddr n = 0)
    (hout : ∀ q, n ∉ m.nodes q) (hlive : m.live n = true) :
    Shape (m.setNext x ⟨n, t⟩) := by
  have hnodes := h.nodes_link (t := t) hx hnull hn hend (hout q)
  have hne : n ≠ x := by
    rintro rfl
    exact hout q hx
  have hmem (q' : κ) (y : Addr) (hy : y ∈ (m.setNext x ⟨n, t⟩).nodes q') :
      y ∈ m.nodes q' ∨ q' = q ∧ y = n := by
    rw [hnodes] at hy
    by_cases hq : q' = q
    · subst hq
      simpa using hy
    · rw [update_of_ne hq] at hy
      exact Or.inl hy
  refine ⟨h.head_ne, ?_, ?_, ?_, ?_, ?_, h.used⟩
  · intro q'
    rw [hnodes]
    by_cases hq : q' = q
    · subst hq
      rw [update_self]
      exact h.chain_link hx hnull hn hend (hout q')
    · rw [update_of_ne hq]
      exact h.chain_link_of_ne hq hx
  · intro q'
    have := h.tail_mem q'
    rw [hnodes]
    by_cases hq : q' = q
    · subst hq
      simp only [update_self, List.mem_append]
      exact Or.inl this
    · rw [update_of_ne hq]
      exact this
  · intro q'
    change (m.setNext x ⟨n, t⟩).nextAddr (m.tail q').value = 0 ∨
      (m.setNext x ⟨n, t⟩).nextAddr ((m.setNext x ⟨n, t⟩).nextAddr (m.tail q').value) = 0
    by_cases hq : (m.tail q').value = x
    · rw [hq, Mem.nextAddr_setNext_self, Mem.nextAddr_setNext_of_ne _ hne, hend]
      exact Or.inr rfl
    · rw [Mem.nextAddr_setNext_of_ne _ hq]
      rcases h.lag q' with hlast | hlast
      · exact Or.inl hlast
      · by_cases hx' : m.nextAddr (m.tail q').value = x
        · -- then the linked queue would have its tail before its last node
          have hmem' : x ∈ m.nodes q' := by
            rw [← hx']
            exact h.next_mem (h.tail_mem q') (by rw [hx']; exact h.ne_zero hx)
          have := h.disjoint q' q x hmem' hx
          subst this
          exact absurd htail hq
        · rw [Mem.nextAddr_setNext_of_ne _ hx']
          exact Or.inr hlast
  · intro q' y hy
    rcases hmem q' y hy with hold | ⟨_, rfl⟩
    · exact h.live q' y hold
    · exact hlive
  · intro q₁ q₂ y h₁ h₂
    rcases hmem q₁ y h₁ with hold₁ | ⟨hq₁, hy₁⟩
    · rcases hmem q₂ y h₂ with hold₂ | ⟨_, hy₂⟩
      · exact h.disjoint q₁ q₂ y hold₁ hold₂
      · exact absurd (hy₂ ▸ hold₁) (hout q₁)
    · rcases hmem q₂ y h₂ with hold₂ | ⟨hq₂, _⟩
      · exact absurd (hy₁ ▸ hold₂) (hout q₂)
      · rw [hq₁, hq₂]

/-- What is known survives: the only null successor that becomes another is
that of the last node. -/
theorem Shape.keeps_link (h : Shape m) (hx : x ∈ m.nodes q) (hnull : m.nextAddr x = 0)
    (hn : n ≠ 0) (hend : m.nextAddr n = 0) (hout : ∀ q, n ∉ m.nodes q) (y : Addr) :
    Keeps m (m.setNext x ⟨n, t⟩) y := by
  have hnodes := h.nodes_link (t := t) hx hnull hn hend (hout q)
  have hnext (hy : m.nextAddr y ≠ 0) : (m.setNext x ⟨n, t⟩).nextAddr y = m.nextAddr y := by
    apply Mem.nextAddr_setNext_of_ne
    rintro rfl
    exact hy hnull
  have hzero (hy : (m.setNext x ⟨n, t⟩).nextAddr y = 0) : m.nextAddr y = 0 := by
    by_contra hne
    rw [hnext hne] at hy
    exact hne hy
  have hsub (q' : κ) : m.nodes q' ⊆ (m.setNext x ⟨n, t⟩).nodes q' := by
    rw [hnodes]
    by_cases hq : q' = q
    · subst hq
      simp
    · rw [update_of_ne hq]
      exact List.Subset.refl _
  -- the new node has a null successor and was in no queue, so no one held it
  have hback (q' : κ) (hmem : m.nextAddr y = 0 → y ∈ m.nodes q')
      (hy : y ∈ (m.setNext x ⟨n, t⟩).nodes q') : y ∈ m.nodes q' := by
    rw [hnodes] at hy
    by_cases hq : q' = q
    · subst hq
      simp only [update_self, List.mem_append, List.mem_singleton] at hy
      rcases hy with hy | rfl
      · exact hy
      · exact hmem hend
    · rwa [update_of_ne hq] at hy
  refine ⟨hnext, ?_, ?_, fun _ _ _ _ _ hpast => hpast, ?_⟩
  · rintro q' p rfl hp
    refine ⟨fun hz => hsub q' (hp.mem (hzero hz)), ?_, hp.tag⟩
    intro hy
    have hy := hback q' hp.mem hy
    have hle := hp.le hy
    rw [hnodes]
    by_cases hq : q' = q
    · subst hq
      rw [update_self, List.idxOf_append_of_mem hy]
      exact (List.idxOf_append_of_mem (h.tail_mem q')).symm ▸ hle
    · rw [update_of_ne hq]
      exact hle
  · rintro q' p rfl hp
    exact ⟨fun hz => hsub q' (hp.mem (hzero hz)), fun hy => hp.head (hback q' hp.mem hy)⟩
  · rintro q' p v rfl hp hne hfront
    rw [Front, hnext hne, Mem.value_setNext]
    exact hfront

end Link

section Swing

variable [DecidableEq κ] {m : Mem κ α} {q : κ} {t : Tag}

theorem Shape.setTail (h : Shape m) (hne : m.nextAddr (m.tail q).value ≠ 0) :
    Shape (m.setTail q ⟨m.nextAddr (m.tail q).value, t⟩) := by
  have htail (q' : κ) : (m.setTail q ⟨m.nextAddr (m.tail q).value, t⟩).tail q' =
      if q' = q then ⟨m.nextAddr (m.tail q).value, t⟩ else m.tail q' := by
    by_cases hq : q' = q
    · subst hq
      simp
    · simp [Mem.tail_setTail_of_ne _ hq, hq]
  refine ⟨h.head_ne, h.chain, ?_, ?_, h.live, h.disjoint, h.used⟩
  · intro q'
    rw [htail]
    split
    · next hq =>
        subst hq
        exact h.next_mem (h.tail_mem q') hne
    · exact h.tail_mem q'
  · intro q'
    rw [htail]
    split
    · exact Or.inl ((h.lag q).resolve_left hne)
    · exact h.lag q'

/-- The tail does not come back, so a node that was left behind stays behind.
A thread that still holds it finds its successor. -/
theorem Shape.keeps_setTail (h : Shape m) (hne : m.nextAddr (m.tail q).value ≠ 0) (y : Addr) :
    Keeps m (m.setTail q ⟨m.nextAddr (m.tail q).value, t⟩) y := by
  have hidx := (h.chain q).idxOf_next (h.tail_mem q) hne
  refine ⟨fun _ => rfl, ?_, fun _ _ _ hp => ⟨hp.mem, hp.head⟩, ?_,
    fun _ _ _ _ _ _ hfront => hfront⟩
  · rintro q' p rfl hp
    by_cases hq : q' = q
    · subst hq
      refine ⟨hp.mem, ?_, ?_⟩
      · intro hmem
        have := hp.le hmem
        rw [Mem.nodes_setTail, Mem.tail_setTail_self, hidx]
        omega
      · intro heq
        rw [Mem.tail_setTail_self] at heq
        -- the tail does not come back to a node it was on
        have := hp.le (by rw [← heq]; exact h.next_mem (h.tail_mem q') hne)
        rw [← heq, hidx] at this
        omega
    · refine ⟨hp.mem, ?_, ?_⟩
      · simpa [Mem.tail_setTail_of_ne _ hq] using hp.le
      · simpa [Mem.tail_setTail_of_ne _ hq] using hp.tag
  · rintro q' p rfl _ _ hpast
    by_cases hq : q' = q
    · subst hq
      intro hhead
      rw [Mem.tail_setTail_self, ← show m.head q' = p from hhead]
      exact (h.chain q').next_ne_start (h.head_ne q') (h.tail_mem q')
    · simpa [TailPast, Mem.tail_setTail_of_ne _ hq] using hpast

end Swing

section Advance

variable [DecidableEq κ] {m : Mem κ α} {q : κ} {t : Tag}

/-- The walk from the new head is that from the old one without its first
node. -/
theorem Shape.chain_setHead (h : Shape m) (q' : κ) :
    (m.setHead q ⟨m.nextAddr (m.head q).value, t⟩).Chain q'
      (if q' = q then (m.nodes q).tail else m.nodes q') := by
  by_cases hq : q' = q
  · subst hq
    obtain ⟨rest, hnodes, hrest⟩ := h.nodes_cons q'
    simpa [Mem.Chain, hnodes] using hrest
  · simpa [Mem.Chain, Mem.head_setHead_of_ne _ hq, hq] using h.chain q'

theorem Shape.nodes_setHead (h : Shape m) :
    (m.setHead q ⟨m.nextAddr (m.head q).value, t⟩).nodes =
      update m.nodes q (m.nodes q).tail := by
  funext q'
  rw [Mem.nodes_eq (h.chain_setHead q'), update_apply]

/-- Moving the head removes the front element, whose node is the new dummy.
The value stays in the node, where it no longer counts. -/
theorem Shape.contents_setHead (h : Shape m) :
    (m.setHead q ⟨m.nextAddr (m.head q).value, t⟩).contents =
      update m.contents q (m.contents q).tail := by
  funext q'
  rw [Mem.contents, h.nodes_setHead]
  by_cases hq : q' = q
  · subst hq
    simp [Mem.contents]
  · simp [Mem.contents, update_of_ne hq]

/-- The head moves to its successor. It must not pass the tail, which would
then be outside the queue. -/
theorem Shape.setHead (h : Shape m) (htail : (m.tail q).value ≠ (m.head q).value) :
    Shape (m.setHead q ⟨m.nextAddr (m.head q).value, t⟩) := by
  have hne := h.next_ne_of_tail_ne htail
  have hnodes := h.nodes_setHead (q := q) (t := t)
  have hsub (q' : κ) : (m.setHead q ⟨m.nextAddr (m.head q).value, t⟩).nodes q' ⊆
      m.nodes q' := by
    rw [hnodes]
    by_cases hq : q' = q
    · subst hq
      simpa using List.tail_subset _
    · rw [update_of_ne hq]
      exact List.Subset.refl _
  refine ⟨?_, ?_, ?_, h.lag, fun q' y hy => h.live q' y (hsub q' hy),
    fun q₁ q₂ y h₁ h₂ => h.disjoint q₁ q₂ y (hsub q₁ h₁) (hsub q₂ h₂), h.used⟩
  · intro q'
    by_cases hq : q' = q
    · subst hq
      simpa using hne
    · simpa [Mem.head_setHead_of_ne _ hq] using h.head_ne q'
  · intro q'
    rw [hnodes, update_apply]
    exact h.chain_setHead q'
  · intro q'
    have hmem := h.tail_mem q'
    rw [hnodes]
    by_cases hq : q' = q
    · subst hq
      obtain ⟨rest, hcons, _⟩ := h.nodes_cons q'
      rw [hcons, List.mem_cons] at hmem
      simpa [hcons] using hmem.resolve_left htail
    · simpa [update_of_ne hq] using hmem

/-- The head does not come back either. A thread that holds the old one can
find out by loading the head again. -/
theorem Shape.keeps_setHead (h : Shape m) (htail : (m.tail q).value ≠ (m.head q).value)
    (y : Addr) : Keeps m (m.setHead q ⟨m.nextAddr (m.head q).value, t⟩) y := by
  have hne := h.next_ne_of_tail_ne htail
  have hnodes := h.nodes_setHead (q := q) (t := t)
  obtain ⟨rest, hcons, _⟩ := h.nodes_cons q
  have hnodup := (h.chain q).nodup
  rw [hcons, List.nodup_cons] at hnodup
  have htl : (m.setHead q ⟨m.nextAddr (m.head q).value, t⟩).nodes q = rest := by
    simp [hnodes, hcons]
  have hother (q' : κ) (hq : q' ≠ q) :
      (m.setHead q ⟨m.nextAddr (m.head q).value, t⟩).nodes q' = m.nodes q' := by
    rw [hnodes, update_of_ne hq]
  -- a node held from the head is not among those behind the head
  have hgone (p : TaggedPtr) (hp : HeadHeld m q p) : p.value ∉ rest := by
    intro hmem
    have := hp.head (by rw [hcons]; simp [hmem])
    rw [← this] at hmem
    exact hnodup.1 hmem
  have hkept (p : TaggedPtr) (hmem : m.nextAddr p.value = 0 → p.value ∈ m.nodes q)
      (hz : m.nextAddr p.value = 0) : p.value ∈ rest := by
    have := hmem hz
    rw [hcons, List.mem_cons] at this
    exact this.resolve_left fun heq => hne (heq ▸ hz)
  have hnew (p : TaggedPtr) (hp : HeadHeld m q p) :
      (m.setHead q ⟨m.nextAddr (m.head q).value, t⟩).head q ≠ p := by
    intro heq
    rw [Mem.head_setHead_self] at heq
    have hmem := h.next_mem (h.head_mem q) hne
    rw [hcons, List.mem_cons] at hmem
    apply hgone p hp
    rw [← heq]
    exact hmem.resolve_left
      ((h.chain q).next_ne_start (h.head_ne q) (h.head_mem q))
  refine ⟨fun _ => rfl, ?_, ?_, ?_, ?_⟩
  · rintro q' p rfl hp
    by_cases hq : q' = q
    · subst hq
      refine ⟨fun hz => by rw [htl]; exact hkept p hp.mem hz, ?_, hp.tag⟩
      rw [htl]
      intro hmem
      have hle := hp.le (by rw [hcons]; simp [hmem])
      have hp' : (m.head q').value ≠ p.value := by
        rintro heq
        rw [← heq] at hmem
        exact hnodup.1 hmem
      rw [hcons, List.idxOf_cons_ne _ hp', List.idxOf_cons_ne _ (Ne.symm htail)] at hle
      exact Nat.le_of_succ_le_succ hle
    · exact ⟨by rw [hother q' hq]; exact hp.mem, by rw [hother q' hq]; exact hp.le, hp.tag⟩
  · rintro q' p rfl hp
    by_cases hq : q' = q
    · subst hq
      refine ⟨fun hz => by rw [htl]; exact hkept p hp.mem hz, ?_⟩
      rw [htl]
      intro hmem
      exact absurd hmem (hgone p hp)
    · refine ⟨by rw [hother q' hq]; exact hp.mem, ?_⟩
      rw [hother q' hq]
      simpa [Mem.head_setHead_of_ne _ hq] using hp.head
  · rintro q' p rfl hp _ hpast
    by_cases hq : q' = q
    · subst hq
      exact fun heq => absurd heq (hnew p hp)
    · simpa [TailPast, Mem.head_setHead_of_ne _ hq] using hpast
  · rintro q' p v rfl hp _ hfront
    by_cases hq : q' = q
    · subst hq
      exact fun heq => absurd heq (hnew p hp)
    · simpa [Front, Mem.head_setHead_of_ne _ hq] using hfront

end Advance

end Libni.MSQueue
