import Libni.BufferList.Ownership
import Libni.LinkedList.Lifetime

/-!
The end of a buffer list used sequentially, with `SPSCLinkedList` as it is. The
destructor deletes the buffers it gets by popping, so one that the linked list does not
deliver stays allocated. It frees every buffer and every node exactly as long as the
linked list has recycled no node.
-/

namespace Libni.BufferList.Sequential

open Function
open Libni.LinkedList (Allocator Owned)
open Libni.RingBuffer (Holds)

section Destroy

variable {α : Type*} {s s' : State α} {q cached : List Addr} {b : Addr} {n : Nat}

/-- `delete` of a buffer; deleting one that is not allocated is an error,
which has no result. -/
def State.free (s : State α) (b : Addr) : Option (State α) :=
  if b ∈ s.live then some (s.delete b) else none

/-- `if (m_buf_to_read) delete m_buf_to_read;`. -/
def State.deleteRead (s : State α) : Option (State α) :=
  if s.bufToRead = 0 then some s else s.free s.bufToRead

/-- `while ((buf = m_in_use.pop())) delete buf;`. -/
def State.deleteInUse : (fuel : Nat) → State α → Option (State α)
  | 0, _ => none
  | fuel + 1, s => s.nextToRead.bind fun r =>
      if r.2 = 0 then some r.1 else (r.1.free r.2).bind (deleteInUse fuel)

/-- `while ((buf = m_cache.pop())) delete buf;`. -/
def State.deleteCache : (fuel : Nat) → State α → Option (State α)
  | 0, _ => none
  | fuel + 1, s =>
      let buf := (s.cache.pop 0).2
      let s := { s with cache := (s.cache.pop 0).1 }
      if buf = 0 then some s else (s.free buf).bind (deleteCache fuel)

/-- `~SPSCBufferList` ends without an error and leaves `s'`. The destructor of
`m_in_use` comes after the body. -/
def State.Destroys (s s' : State α) : Prop :=
  ∃ fuel u l, (s.deleteRead.bind fun s => (s.deleteInUse fuel).bind (State.deleteCache fuel)) =
    some u ∧ u.inUse.Destroys l ∧ s' = { u with inUse := l }

@[simp] theorem State.mem_delete {x : Addr} : x ∈ (s.delete b).live ↔ x ∈ s.live ∧ x ≠ b := by
  rw [State.delete, Finset.mem_erase, and_comm]

theorem State.free_of_mem (hb : b ∈ s.live) : s.free b = some (s.delete b) := if_pos hb

theorem State.free_eq_some (h : s.free b = some s') : b ∈ s.live ∧ s' = s.delete b := by
  unfold State.free at h
  split at h
  · next hb => exact ⟨hb, (Option.some.inj h).symm⟩
  · cases h

/-- The loop over the linked list deletes what it delivers and leaves every
other buffer allocated. -/
theorem deleteInUse_leaves (h : s.deleteInUse n = some s') : ∃ q, Delivers s.inUse q ∧
    s'.cache = s.cache ∧ ∀ x, x ∈ s.live → x ∉ q → x ∈ s'.live := by
  induction n generalizing s with
  | zero => cases h
  | succ n ih =>
      obtain ⟨_, hnext, h⟩ := Option.bind_eq_some_iff.mp h
      obtain ⟨⟨l, b⟩, hpop, rfl⟩ := Option.map_eq_some_iff.mp hnext
      simp only at h
      split at h
      · next hb =>
          cases h
          exact ⟨[], .done (hb ▸ hpop), rfl, fun x hx _ => hx⟩
      · next hb =>
          obtain ⟨s₂, hfree, h⟩ := Option.bind_eq_some_iff.mp h
          obtain ⟨-, rfl⟩ := State.free_eq_some hfree
          obtain ⟨q, hdelivers, hcache, hleft⟩ := ih h
          refine ⟨b :: q, .next hpop hb hdelivers, hcache, fun x hx hnot => ?_⟩
          rw [List.mem_cons, not_or] at hnot
          exact hleft x (State.mem_delete.mpr ⟨hx, hnot.1⟩) hnot.2

theorem deleteCache_leaves (hcache : Holds 0 s.cache cached) (h : s.deleteCache n = some s')
    (hb : b ∈ s.live) (hnot : b ∉ cached) : b ∈ s'.live := by
  induction n generalizing s cached with
  | zero => cases h
  | succ n ih =>
      rw [State.deleteCache] at h
      cases cached with
      | nil =>
          rw [hcache.pop_nil, if_pos rfl] at h
          cases h
          exact hb
      | cons a rest =>
          obtain ⟨hpop, hrest⟩ := hcache.pop_cons
          rw [hpop, if_neg (hcache.proper a List.mem_cons_self)] at h
          obtain ⟨s₁, hfree, h⟩ := Option.bind_eq_some_iff.mp h
          obtain ⟨-, rfl⟩ := State.free_eq_some hfree
          rw [List.mem_cons, not_or] at hnot
          exact ih hrest h (State.mem_delete.mpr ⟨hb, hnot.1⟩) hnot.2

/-- The loop over the linked list ends as long as that has recycled nothing,
and deletes each of the buffers in use once. -/
theorem deleteInUse_ends {ns rs ns' rs' : List Addr} {moved : Bool}
    (hlink : Link s.inUse ns rs q moved) (howned : Owned s.inUse ns' rs')
    (hlength : ns'.length = q.length) (hnodup : q.Nodup) (hlive : ∀ b ∈ q, b ∈ s.live)
    (hfuel : q.length < n) : ∃ s' rs'', s.deleteInUse n = some s' ∧ s'.cache = s.cache ∧
      Owned s'.inUse [] rs'' ∧ ∀ x, x ∈ s'.live ↔ x ∈ s.live ∧ x ∉ q := by
  induction q generalizing s ns rs ns' rs' moved n with
  | nil =>
      obtain ⟨n, rfl⟩ := Nat.exists_eq_succ_of_ne_zero (Nat.ne_zero_of_lt hfuel)
      obtain rfl : ns = [] := List.map_eq_nil_iff.mp hlink.shape.data
      obtain rfl : ns' = [] := List.eq_nil_of_length_eq_zero hlength
      refine ⟨s, rs', ?_, rfl, howned, by simp⟩
      rw [State.deleteInUse, State.nextToRead, hlink.shape.pop_nil hlink.end_null]
      rfl
  | cons b q ih =>
      obtain ⟨n, rfl⟩ := Nat.exists_eq_succ_of_ne_zero (Nat.ne_zero_of_lt hfuel)
      obtain ⟨l, ns₁, rs₁, hpop, hlink₁⟩ := hlink.pop
      obtain ⟨a, ns', rfl⟩ := List.exists_cons_of_length_eq_add_one hlength
      obtain ⟨l', x, rs₂, hpop', howned₁⟩ := howned.pop 0
      rw [hpop] at hpop'
      cases hpop'
      rw [List.nodup_cons] at hnodup
      let u : State α := { s with inUse := l }
      have hb : b ∈ u.live := hlive b List.mem_cons_self
      obtain ⟨s', rs'', hloop, hcache, howned', hfreed⟩ := ih (s := u.delete b) (n := n) hlink₁
        howned₁ (Nat.succ.inj hlength) hnodup.2
        (fun x hx => State.mem_delete.mpr ⟨hlive x (List.mem_cons_of_mem b hx),
          ne_of_mem_of_not_mem hx hnodup.1⟩) (Nat.lt_of_succ_lt_succ hfuel)
      refine ⟨s', rs'', ?_, hcache, howned', fun x => ?_⟩
      · rw [State.deleteInUse, State.nextToRead, hpop, Option.map_some, Option.bind_some,
          if_neg (hlink.proper b List.mem_cons_self)]
        exact (congrArg (·.bind (State.deleteInUse n)) (State.free_of_mem hb)).trans hloop
      · rw [hfreed, State.mem_delete, List.mem_cons, not_or, and_assoc]

/-- The loop over the cache ends and deletes each of the buffers held once.
The induction is on the number of them, which every turn makes smaller. -/
theorem deleteCache_ends (hcache : Holds 0 s.cache cached) (hnodup : cached.Nodup)
    (hlive : ∀ b ∈ cached, b ∈ s.live) (hfuel : cached.length < n) :
    ∃ s', s.deleteCache n = some s' ∧ s'.inUse = s.inUse ∧
      ∀ x, x ∈ s'.live ↔ x ∈ s.live ∧ x ∉ cached := by
  induction cached generalizing s n with
  | nil =>
      obtain ⟨n, rfl⟩ := Nat.exists_eq_succ_of_ne_zero (Nat.ne_zero_of_lt hfuel)
      refine ⟨s, ?_, rfl, by simp⟩
      rw [State.deleteCache, hcache.pop_nil, if_pos rfl]
  | cons a rest ih =>
      obtain ⟨n, rfl⟩ := Nat.exists_eq_succ_of_ne_zero (Nat.ne_zero_of_lt hfuel)
      obtain ⟨hpop, hrest⟩ := hcache.pop_cons
      rw [List.nodup_cons] at hnodup
      let u : State α := { s with cache := (s.cache.pop 0).1 }
      have ha : a ∈ u.live := hlive a List.mem_cons_self
      obtain ⟨s', hloop, hinUse, hfreed⟩ := ih (s := u.delete a) (n := n) hrest hnodup.2
        (fun x hx => State.mem_delete.mpr ⟨hlive x (List.mem_cons_of_mem a hx),
          ne_of_mem_of_not_mem hx hnodup.1⟩) (Nat.lt_of_succ_lt_succ hfuel)
      refine ⟨s', ?_, hinUse, fun x => ?_⟩
      · rw [State.deleteCache, hpop, if_neg (hcache.proper a List.mem_cons_self)]
        exact (congrArg (·.bind (State.deleteCache n)) (State.free_of_mem ha)).trans hloop
      · rw [hfreed, State.mem_delete, List.mem_cons, not_or, and_assoc]

end Destroy

section Effect

variable {α : Type*} [DecidableEq α] {nodes buffers : Allocator} {empty : α} {s s' : State α}
  {q cached : List Addr} {moved : Bool} {b : Addr} {e x : α}

theorem holds_unique {β : Type*} [DecidableEq β] {null : β} {r : RingBuffer.Ring β}
    {elements elements' : List β} (h : Holds null r elements) (h' : Holds null r elements') :
    elements = elements' :=
  (RingBuffer.Layout.stored_eq h).symm.trans (RingBuffer.Layout.stored_eq h')

omit [DecidableEq α] in
theorem card_new (buffers : Allocator) (empty : α) (s : State α) :
    (s.new buffers empty).1.live.card = s.live.card + 1 :=
  Finset.card_insert_of_notMem (buffers.notMem s.allocated s.live)

omit [DecidableEq α] in
theorem takeBuffer_card (buffers : Allocator) (empty : α) (hcache : Holds 0 s.cache cached) :
    ∃ cached', Holds 0 (s.takeBuffer buffers empty).1.cache cached' ∧
      (s.takeBuffer buffers empty).1.live.card + cached.length =
        s.live.card + cached'.length + 1 := by
  unfold State.takeBuffer
  cases cached with
  | nil =>
      rw [hcache.pop_nil, if_pos rfl]
      exact ⟨[], hcache, by rw [card_new]; rfl⟩
  | cons a rest =>
      obtain ⟨hpop, hrest⟩ := hcache.pop_cons
      rw [hpop, if_neg (hcache.proper a List.mem_cons_self)]
      refine ⟨rest, hrest, ?_⟩
      rw [List.length_cons, Nat.add_assoc]

omit [DecidableEq α] in
/-- A buffer recycled is one more in the cache or one less allocated. Either
way there is one buffer less outside the cache. -/
theorem recycle_card (hcache : Holds 0 s.cache cached) (hb : b ∈ s.live) (hne : b ≠ 0) :
    ∃ cached', Holds 0 (s.recycle b).cache cached' ∧
      (s.recycle b).live.card + cached.length + 1 = s.live.card + cached'.length := by
  unfold State.recycle
  by_cases hroom : cached.length < s.cache.size
  · obtain ⟨hpushed, hholds⟩ := hcache.push_of_lt hroom hne
    rw [if_pos hpushed]
    refine ⟨cached ++ [b], hholds, ?_⟩
    rw [List.length_append, List.length_singleton, Nat.add_assoc]
  · rw [hcache.push_of_full hroom, if_neg Bool.false_ne_true]
    refine ⟨cached, hcache, ?_⟩
    have hcard : (s.delete b).live.card = s.live.card - 1 := Finset.card_erase_of_mem hb
    have hpos : 0 < s.live.card := Finset.card_pos.mpr ⟨b, hb⟩
    omega

omit [DecidableEq α] in
/-- `release` looks at the cache and at what is allocated, and at nothing
else. -/
theorem recycle_congr {u : State α} (b : Addr) (hlive : u.live = s.live)
    (hcache : u.cache = s.cache) : (u.recycle b).inUse = u.inUse ∧
      (u.recycle b).live = (s.recycle b).live ∧ (u.recycle b).cache = (s.recycle b).cache := by
  unfold State.recycle
  rw [hcache]
  split
  · exact ⟨rfl, hlive, rfl⟩
  · exact ⟨rfl, congrArg (fun live => live.erase b) hlive, hcache⟩

/-- What a push leaves of the buffers that are not in use: nothing changes, or
one is taken. -/
theorem push_effect (h : Kept empty s q cached moved)
    (hpush : Sequential.push nodes buffers empty s e = some s') :
    ((s.counts empty q).getLastD 0 < s.bufSize ∧ s'.live = s.live ∧ s'.cache = s.cache ∧
      s'.inUse = s.inUse) ∨
    (¬ (s.counts empty q).getLastD 0 < s.bufSize ∧ ∃ r, s.takeBuffer buffers empty = r ∧
      s'.live = r.1.live ∧ s'.cache = r.1.cache ∧ s'.bufToRead = r.1.bufToRead ∧
        LinkedList.push nodes r.1.inUse r.2 = some s'.inUse) := by
  rw [Sequential.push, h.write.load, Option.bind_some] at hpush
  by_cases hroom : (s.counts empty q).getLastD 0 < s.bufSize
  · rw [if_pos (h.available_iff.mpr hroom)] at hpush
    obtain ⟨ring, -, rfl⟩ := Option.map_eq_some_iff.mp hpush
    exact .inl ⟨hroom, rfl, rfl, rfl⟩
  · rw [if_neg (mt h.available_iff.mp hroom)] at hpush
    obtain ⟨_, hnext, hpush⟩ := Option.bind_eq_some_iff.mp hpush
    obtain ⟨l, hlinked, rfl⟩ := Option.map_eq_some_iff.mp hnext
    obtain ⟨ring, -, rfl⟩ := Option.map_eq_some_iff.mp hpush
    exact .inr ⟨hroom, _, rfl, rfl, rfl, rfl, hlinked⟩

/-- What a pop does to them: when it goes on to the next buffer, the old one
is recycled. -/
theorem pop_effect (h : Kept empty s q cached moved) (hpop : Sequential.pop empty s = some (s', x)) :
    (moves (s.counts empty q) = false ∧ s'.live = s.live ∧ s'.cache = s.cache ∧
      s'.inUse = s.inUse) ∨
    (moves (s.counts empty q) = true ∧ ∃ b, LinkedList.pop 0 s.inUse = some (s'.inUse, b) ∧
      s'.live = (s.recycle s.bufToRead).live ∧ s'.cache = (s.recycle s.bufToRead).cache) := by
  have hread := h.used _ List.mem_cons_self
  rw [Sequential.pop, hread.load, Option.bind_some] at hpop
  by_cases hdrained : contents empty (s.heap s.bufToRead) = []
  · have hempty : (s.heap s.bufToRead).isEmpty empty = true := hread.holds.isEmpty_iff.mpr hdrained
    rw [Kept.counts_eq_nil hdrained]
    rw [if_pos hempty] at hpop
    cases q with
    | nil =>
        have hsame : s.bufToRead = s.bufToWrite := by simpa using h.last
        rw [if_pos hsame] at hpop
        cases hpop
        exact .inl ⟨rfl, rfl, rfl, rfl⟩
    | cons b q =>
        have hother : s.bufToRead ≠ s.bufToWrite := by
          intro hsame
          have hlast := h.last
          rw [List.getLast?_cons_cons] at hlast
          have hnodup := (List.nodup_append.mp h.nodup).1
          exact (List.nodup_cons.mp hnodup).1 (hsame ▸ List.mem_of_getLast? hlast)
        obtain ⟨ns, recycled, hlink⟩ := h.link
        obtain ⟨l, _, _, hlinked, -⟩ := hlink.pop
        rw [if_neg hother, if_pos hempty, State.nextToRead, hlinked, Option.map_some,
          Option.bind_some, if_neg (hlink.proper b List.mem_cons_self)] at hpop
        obtain ⟨u, hrelease, hpop⟩ := Option.bind_eq_some_iff.mp hpop
        obtain ⟨ring, -, rfl⟩ := Option.map_eq_some_iff.mp hrelease
        obtain ⟨ring', -, heq⟩ := Option.map_eq_some_iff.mp hpop
        cases heq
        let u := ({ s with inUse := l } : State α).store s.bufToRead (ring.reset empty)
        obtain ⟨hinUse, hlive, hcache⟩ := recycle_congr (s := s) (u := u) s.bufToRead rfl rfl
        refine .inr ⟨rfl, b, ?_, hlive, hcache⟩
        exact hlinked.trans (congrArg (fun l => some (l, b)) hinUse.symm)
  · have hfilled : ¬ (s.heap s.bufToRead).isEmpty empty = true :=
      mt hread.holds.isEmpty_iff.mp hdrained
    obtain ⟨count, hcount⟩ := Nat.exists_eq_succ_of_ne_zero (mt List.length_eq_zero_iff.mp hdrained)
    rw [if_neg hfilled] at hpop
    obtain ⟨ring, -, heq⟩ := Option.map_eq_some_iff.mp hpop
    cases heq
    refine .inl ⟨?_, rfl, rfl, rfl⟩
    rw [State.counts, List.map_cons, hcount]
    rfl

end Effect

section Accounted

variable {α : Type*} [DecidableEq α] {nodes buffers : Allocator} {empty : α} {s s' : State α}
  {q q' cached cached' : List Addr} {moved moved' : Bool} {e x : α}

/-- The nodes are those of the linked list and its cache, and there are no
buffers but the one read, those in use and those in the cache. It is stated by
numbers, since the addresses are distinct. -/
structure Accounted (s : State α) (q cached : List Addr) : Prop where
  nodes : ∃ ns rs, Owned s.inUse ns rs ∧ ns.length = q.length
  buffers : s.live.card = q.length + cached.length + 1

theorem length_pushCounts (size : Nat) (counts : List Nat) (hne : counts ≠ []) :
    (pushCounts size counts).length =
      if counts.getLastD 0 < size then counts.length else counts.length + 1 := by
  have hpos := List.length_pos_of_ne_nil hne
  unfold pushCounts
  split
  · rw [List.length_append, List.length_dropLast, List.length_singleton]
    omega
  · rw [List.length_append, List.length_singleton]

theorem length_popCounts (counts : List Nat) :
    (popCounts counts).length + (if moves counts = true then 1 else 0) = counts.length := by
  unfold popCounts moves
  split
  · rfl
  · next count counts hnot =>
      cases count with
      | zero =>
          cases counts with
          | nil => rfl
          | cons count counts => exact (hnot count counts rfl rfl).elim
      | succ count => rfl
  · rfl

omit [DecidableEq α] in
theorem Accounted.congr (h : Accounted s q cached) (hlength : q'.length = q.length)
    (hlive : s'.live = s.live) (hinUse : s'.inUse = s.inUse) : Accounted s' q' cached := by
  refine ⟨?_, ?_⟩
  · rw [hinUse, hlength]
    exact h.nodes
  · rw [hlive, hlength]
    exact h.buffers

theorem Accounted.push (hkept : Kept empty s q cached moved) (h : Accounted s q cached)
    (hpush : Sequential.push nodes buffers empty s e = some s')
    (hkept' : Kept empty s' q' cached' moved')
    (hcounts : s'.counts empty q' = pushCounts s.bufSize (s.counts empty q)) :
    Accounted s' q' cached' := by
  have hlength : q'.length + 1 =
      if (s.counts empty q).getLastD 0 < s.bufSize then q.length + 1 else q.length + 1 + 1 := by
    have hcount : (s.counts empty q).length = q.length + 1 := by simp [State.counts]
    rw [← hcount, ← length_pushCounts _ _ (by simp [State.counts]), ← hcounts]
    simp [State.counts]
  rcases push_effect hkept hpush with ⟨hroom, hlive, hcache, hinUse⟩ | ⟨hfull, r, rfl, hlive, hcache,
    -, hlinked⟩
  · obtain rfl : cached' = cached := holds_unique hkept'.cache (hcache ▸ hkept.cache)
    rw [if_pos hroom] at hlength
    exact h.congr (Nat.succ.inj hlength) hlive hinUse
  · rw [if_neg hfull] at hlength
    obtain ⟨ns, rs, howned, hns⟩ := h.nodes
    obtain ⟨taken, htaken, hcard⟩ := takeBuffer_card buffers empty hkept.cache
    obtain rfl : cached' = taken := holds_unique hkept'.cache (hcache ▸ htaken)
    have hsame : (s.takeBuffer buffers empty).1.inUse = s.inUse := by
      unfold State.takeBuffer
      split <;> rfl
    rw [hsame] at hlinked
    obtain ⟨l, ns', rs', hpushed, howned', hns'⟩ := howned.push nodes (s.takeBuffer buffers empty).2
    rw [hlinked] at hpushed
    cases hpushed
    refine ⟨⟨ns', rs', howned', by omega⟩, ?_⟩
    have hbuffers := h.buffers
    rw [hlive]
    omega

/-- A pop that goes on gives a buffer and a node back together. -/
theorem Accounted.pop (hkept : Kept empty s q cached moved) (h : Accounted s q cached)
    (hpop : Sequential.pop empty s = some (s', x)) (hkept' : Kept empty s' q' cached' moved')
    (hcounts : s'.counts empty q' = popCounts (s.counts empty q)) : Accounted s' q' cached' := by
  have hlength : q'.length + 1 + (if moves (s.counts empty q) = true then 1 else 0) =
      q.length + 1 := by
    have hcount := length_popCounts (s.counts empty q)
    rw [← hcounts] at hcount
    simpa [State.counts] using hcount
  rcases pop_effect hkept hpop with ⟨hstays, hlive, hcache, hinUse⟩ | ⟨hmoves, b, hlinked, hlive, hcache⟩
  · obtain rfl : cached' = cached := holds_unique hkept'.cache (hcache ▸ hkept.cache)
    rw [hstays, if_neg Bool.false_ne_true] at hlength
    exact h.congr (Nat.succ.inj hlength) hlive hinUse
  · rw [if_pos hmoves] at hlength
    obtain ⟨ns, rs, howned, hns⟩ := h.nodes
    obtain ⟨n, ns, rfl⟩ := List.exists_cons_of_length_pos (show 0 < ns.length by omega)
    obtain ⟨l, _, rs', hpopped, howned'⟩ := howned.pop 0
    rw [hlinked] at hpopped
    cases hpopped
    obtain ⟨recycled, hrecycled, hcard⟩ := recycle_card hkept.cache
      (hkept.used _ List.mem_cons_self).live hkept.read_ne_zero
    obtain rfl : cached' = recycled := holds_unique hkept'.cache (hcache ▸ hrecycled)
    rw [List.length_cons] at hns
    refine ⟨⟨ns, rs', howned', by omega⟩, ?_⟩
    have hbuffers := h.buffers
    rw [hlive]
    omega

omit [DecidableEq α] in
theorem fill_iterate (buffers : Allocator) (empty : α) (hcache : Holds 0 s.cache []) (m : Nat)
    (hm : m ≤ s.cache.size) : ∃ cached,
      Holds 0 ((State.fill buffers empty)^[m] s).cache cached ∧ cached.length = m ∧
        ((State.fill buffers empty)^[m] s).cache.size = s.cache.size ∧
        ((State.fill buffers empty)^[m] s).live.card = s.live.card + m ∧
        ((State.fill buffers empty)^[m] s).inUse = s.inUse := by
  induction m with
  | zero => exact ⟨[], hcache, rfl, rfl, rfl, rfl⟩
  | succ m ih =>
      obtain ⟨cached, hholds, hlength, hsize, hcard, hinUse⟩ := ih (by omega)
      rw [iterate_succ_apply']
      generalize (State.fill buffers empty)^[m] s = u at hholds hsize hcard hinUse ⊢
      have hpush := hholds.push_of_lt (by omega) (buffers.ne_zero u.allocated u.live)
      refine ⟨_, hpush.2, by rw [List.length_append, hlength]; rfl, Holds.size_push.trans hsize, ?_,
        hinUse⟩
      exact (card_new buffers empty _).trans (by rw [hcard, Nat.add_assoc])

theorem Accounted.create (nodes buffers : Allocator) (empty : α) (bufferSize cacheSize : Nat)
    (hbuffer : ∃ k, bufferSize = 2 ^ (k + 1)) (hcache : ∃ k, cacheSize = 2 ^ (k + 1))
    (fillCache : Bool) (hkept : Kept empty
      (Sequential.create nodes buffers empty bufferSize cacheSize hbuffer hcache fillCache) []
      cached moved) : Accounted
      (Sequential.create nodes buffers empty bufferSize cacheSize hbuffer hcache fillCache) []
      cached := by
  let s₀ : State α := ⟨0, 0, bufferSize, LinkedList.create nodes 0 cacheSize hcache false,
    RingBuffer.Ring.new 0 cacheSize hcache, fun _ => RingBuffer.Ring.new empty bufferSize hbuffer,
    ∅, 0, hbuffer⟩
  let s : State α := { (s₀.new buffers empty).1 with
    bufToRead := (s₀.new buffers empty).2, bufToWrite := (s₀.new buffers empty).2 }
  have hcreate : Sequential.create nodes buffers empty bufferSize cacheSize hbuffer hcache
      fillCache = if fillCache = true then (State.fill buffers empty)^[cacheSize] s else s := rfl
  have hcard : s.live.card = 1 := card_new buffers empty s₀
  obtain ⟨rs, howned⟩ := LinkedList.create_owned nodes (0 : Addr) cacheSize hcache false
  rw [hcreate] at hkept ⊢
  cases fillCache with
  | false =>
      obtain rfl : cached = [] := holds_unique hkept.cache (Holds.new cacheSize hcache)
      exact ⟨⟨[], rs, howned, rfl⟩, hcard⟩
  | true =>
      obtain ⟨cached', hholds, hlength, -, hfilled, hinUse⟩ :=
        fill_iterate buffers empty (s := s) (Holds.new cacheSize hcache) cacheSize le_rfl
      obtain rfl : cached = cached' := holds_unique hkept.cache hholds
      refine ⟨⟨[], rs, ?_, rfl⟩, ?_⟩
      · exact hinUse.symm ▸ howned
      · refine hfilled.trans ?_
        rw [hcard, hlength, List.length_nil, Nat.zero_add, Nat.add_comm]

end Accounted

section Main

variable {α : Type*} [DecidableEq α] {nodes buffers : Allocator} {empty : α} {s s' : State α}
  {q cached : List Addr} {moved : Bool} {e : α}

theorem Accounted.live_iff (hkept : Kept empty s q cached moved) (h : Accounted s q cached)
    (x : Addr) : x ∈ s.live ↔ x ∈ s.bufToRead :: q ++ cached := by
  have hsub : (s.bufToRead :: q ++ cached).toFinset ⊆ s.live := by
    intro x hx
    rcases List.mem_append.mp (List.mem_toFinset.mp hx) with hx | hx
    · exact (hkept.used x hx).live
    · exact (hkept.spare x hx).live
  have hcard : s.live.card ≤ (s.bufToRead :: q ++ cached).toFinset.card := by
    rw [List.toFinset_card_of_nodup hkept.nodup, h.buffers, List.length_append, List.length_cons]
    omega
  rw [← Finset.eq_of_subset_of_card_le hsub hcard, List.mem_toFinset]

/-- Between calls the destructor frees everything as long as no buffer is
lost. -/
theorem Accounted.destroys (hkept : Kept empty s q cached moved) (h : Accounted s q cached) :
    ∃ s', s.Destroys s' ∧ s'.live = ∅ ∧ s'.inUse.live = ∅ := by
  obtain ⟨ns, rs, hlink⟩ := hkept.link
  obtain ⟨ns', rs', howned, hlength⟩ := h.nodes
  obtain ⟨hused, hspare, hapart⟩ := List.nodup_append.mp hkept.nodup
  rw [List.nodup_cons] at hused
  have hread : s.deleteRead = some (s.delete s.bufToRead) := by
    rw [State.deleteRead, if_neg hkept.read_ne_zero]
    exact State.free_of_mem (hkept.used _ List.mem_cons_self).live
  obtain ⟨s₁, rs'', hinUse, hcache₁, howned₁, hfreed₁⟩ :=
    deleteInUse_ends (s := s.delete s.bufToRead) (n := q.length + cached.length + 1) hlink howned
      hlength hused.2 (fun x hx => State.mem_delete.mpr
        ⟨(hkept.used x (List.mem_cons_of_mem _ hx)).live, ne_of_mem_of_not_mem hx hused.1⟩)
      (by omega)
  have hcached (x : Addr) (hx : x ∈ cached) : x ∈ s₁.live := by
    refine (hfreed₁ x).mpr ⟨State.mem_delete.mpr ⟨(hkept.spare x hx).live, ?_⟩, fun hmem => ?_⟩
    · exact fun heq => hapart _ List.mem_cons_self x hx heq.symm
    · exact hapart x (List.mem_cons_of_mem _ hmem) x hx rfl
  have hholds : Holds 0 s₁.cache cached := hcache₁ ▸ hkept.cache
  obtain ⟨s₂, hcache, hinUse₂, hfreed₂⟩ :=
    deleteCache_ends (n := q.length + cached.length + 1) hholds hspare hcached (by omega)
  obtain ⟨l, hdestroys, hempty⟩ := howned₁.destroys
  refine ⟨{ s₂ with inUse := l }, ⟨q.length + cached.length + 1, s₂, l, ?_, ?_, rfl⟩, ?_, hempty⟩
  · rw [hread, Option.bind_some, hinUse, Option.bind_some, hcache]
  · rw [hinUse₂]
    exact hdestroys
  · refine Finset.eq_empty_of_forall_notMem fun x hx => ?_
    rw [hfreed₂, hfreed₁, State.mem_delete, h.live_iff hkept] at hx
    obtain ⟨⟨⟨hx, hne⟩, hnotUsed⟩, hnotSpare⟩ := hx
    rcases List.mem_append.mp hx with hx | hx
    · rcases List.mem_cons.mp hx with rfl | hx
      · exact hne rfl
      · exact hnotUsed hx
    · exact hnotSpare hx

/-- The buffer published in a recycled node is never deleted, because the loop
over the linked list stops at the null pointer before it. -/
theorem Kept.leaks {s'' : State α} (h : Kept empty s q cached true)
    (hfull : ¬ (s.counts empty q).getLastD 0 < s.bufSize)
    (hpush : Sequential.push nodes buffers empty s e = some s') (hdestroys : s'.Destroys s'') :
    s''.live ≠ ∅ := by
  obtain ⟨r, b, cached', htake, hkept, hbuffer, -, hnot, -⟩ := h.takeBuffer buffers
  rcases push_effect h hpush with ⟨hroom, -⟩ | ⟨-, _, htake', hlive, hcache, hread, hlinked⟩
  · exact absurd hroom hfull
  rw [htake] at htake'
  subst htake'
  obtain ⟨ns, rs, hlink⟩ := hkept.link
  rw [List.cons_append, List.mem_cons, List.mem_append, not_or, not_or] at hnot
  obtain ⟨hnotRead, hnotUsed, hnotSpare⟩ := hnot
  obtain ⟨fuel, u, l, hbody, -, rfl⟩ := hdestroys
  obtain ⟨s₁, hdelete, hbody⟩ := Option.bind_eq_some_iff.mp hbody
  obtain ⟨s₂, hinUse, hcached⟩ := Option.bind_eq_some_iff.mp hbody
  have hread' : s'.bufToRead ≠ 0 := by
    rw [hread]
    exact hkept.read_ne_zero
  rw [State.deleteRead, if_neg hread'] at hdelete
  obtain ⟨-, rfl⟩ := State.free_eq_some hdelete
  obtain ⟨q', hdelivers, hsame, hleft⟩ := deleteInUse_leaves hinUse
  have hq : q' = q := hlink.push_recycled hlinked hdelivers
  have hb : b ∈ s₂.live := by
    refine hleft b (State.mem_delete.mpr ⟨?_, ?_⟩) (hq ▸ hnotUsed)
    · rw [hlive]
      exact hbuffer.live
    · rw [hread]
      exact hnotRead
  have hholds : Holds 0 s₂.cache cached' := by
    rw [hsame]
    exact hcache.symm ▸ hkept.cache
  have hleaked : b ∈ u.live := deleteCache_leaves hholds hcached hb hnotSpare
  exact Finset.ne_empty_of_mem hleaked

/-- The calls that lose no buffer leave a list that can be destroyed without a
leak. -/
theorem Accounted.run {ops : List (LinkedList.Op α)} (hkept : Kept empty s q cached moved)
    (h : Accounted s q cached) (hproper : LinkedList.Proper empty ops)
    (hclean : Clean s.bufSize (s.counts empty q) moved ops) :
    ∃ s' s'', Sequential.run nodes buffers empty s ops = some s' ∧ s'.Destroys s'' ∧
      s''.live = ∅ ∧ s''.inUse.live = ∅ := by
  induction ops generalizing s q cached moved with
  | nil =>
      obtain ⟨s', hdestroys⟩ := h.destroys hkept
      exact ⟨s, s', rfl, hdestroys⟩
  | cons op ops ih =>
      have hrest : LinkedList.Proper empty ops := fun e he => hproper e (List.mem_cons_of_mem _ he)
      cases op with
      | push e =>
          obtain ⟨s₁, q', cached', hpush, hkept', hsize, hcounts⟩ :=
            hkept.push nodes buffers (hproper e List.mem_cons_self) hclean.1
          rw [Sequential.run, hpush, Option.bind_some]
          refine ih hkept' (h.push hkept hpush hkept' hcounts) hrest ?_
          rw [hsize, hcounts]
          exact hclean.2
      | pop =>
          obtain ⟨s₁, x, q', cached', hpop, hkept', hsize, hcounts⟩ := hkept.pop
          rw [Sequential.run, hpop, Option.bind_some]
          refine ih hkept' (h.pop hkept hpop hkept' hcounts) hrest ?_
          rw [hsize, hcounts]
          exact hclean

/-- A list that can be destroyed without a leak after every call has recycled
no node. -/
theorem Kept.clean_of_freed {ops : List (LinkedList.Op α)} (h : Kept empty s q cached moved)
    (hproper : LinkedList.Proper empty ops)
    (hfreed : ∀ pre, pre <+: ops → ∃ s' s'', Sequential.run nodes buffers empty s pre = some s' ∧
      s'.Destroys s'' ∧ s''.live = ∅) : Clean s.bufSize (s.counts empty q) moved ops := by
  induction ops generalizing s q cached moved with
  | nil => trivial
  | cons op ops ih =>
      have hrest : LinkedList.Proper empty ops := fun e he => hproper e (List.mem_cons_of_mem _ he)
      cases op with
      | push e =>
          have hroom : moved = true → (s.counts empty q).getLastD 0 < s.bufSize := by
            rintro rfl
            by_contra hfull
            obtain ⟨s', s'', hrun, hdestroys, hempty⟩ := hfreed [.push e] (by simp)
            obtain ⟨s₁, hpush, hnil⟩ := Option.bind_eq_some_iff.mp hrun
            cases hnil
            exact h.leaks hfull hpush hdestroys hempty
          obtain ⟨s₁, q', cached', hpush, hkept, hsize, hcounts⟩ :=
            h.push nodes buffers (hproper e List.mem_cons_self) hroom
          have hclean := ih hkept hrest fun pre hpre => by
            have hrun := hfreed (.push e :: pre) (List.cons_prefix_cons.mpr ⟨rfl, hpre⟩)
            rwa [Sequential.run, hpush, Option.bind_some] at hrun
          rw [hsize, hcounts] at hclean
          exact ⟨hroom, hclean⟩
      | pop =>
          obtain ⟨s₁, x, q', cached', hpop, hkept, hsize, hcounts⟩ := h.pop
          have hclean := ih hkept hrest fun pre hpre => by
            have hrun := hfreed (.pop :: pre) (List.cons_prefix_cons.mpr ⟨rfl, hpre⟩)
            rwa [Sequential.run, hpop, Option.bind_some] at hrun
          rwa [hsize, hcounts] at hclean

/-- The destructor can be called after any prefix of a sequence of calls and
frees every buffer and every node, if and only if no push finds the buffer to
be written full after a pop has gone on to another buffer. -/
theorem all_freed_iff (nodes buffers : Allocator) (bufferSize cacheSize : Nat)
    (hbuffer : ∃ k, bufferSize = 2 ^ (k + 1)) (hcache : ∃ k, cacheSize = 2 ^ (k + 1))
    (fillCache : Bool) {ops : List (LinkedList.Op α)} (hproper : LinkedList.Proper empty ops) :
    (∀ pre, pre <+: ops → ∃ s s', run nodes buffers empty
      (create nodes buffers empty bufferSize cacheSize hbuffer hcache fillCache) pre = some s ∧
        s.Destroys s' ∧ s'.live = ∅ ∧ s'.inUse.live = ∅) ↔ Clean bufferSize [0] false ops := by
  obtain ⟨_, cached, rfl, hkept, hsize, hcounts⟩ :=
    Kept.create nodes buffers empty bufferSize cacheSize hbuffer hcache fillCache
  constructor
  · intro hfreed
    have hclean := hkept.clean_of_freed hproper fun pre hpre => by
      obtain ⟨s, s', hrun, hdestroys, hempty, -⟩ := hfreed pre hpre
      exact ⟨s, s', hrun, hdestroys, hempty⟩
    rwa [hsize, hcounts] at hclean
  · intro hclean pre hpre
    have haccounted := Accounted.create nodes buffers empty bufferSize cacheSize hbuffer hcache
      fillCache hkept
    refine haccounted.run hkept (fun e he => hproper e (hpre.subset he)) ?_
    rw [hsize, hcounts]
    exact hclean.of_isPrefix hpre

end Main

/-- The second buffer is new, and the first one goes to the cache. -/
theorem all_freed_iff_movedOn : ∃ s s', run LinkedList.bump LinkedList.bump 0
    (create LinkedList.bump LinkedList.bump 0 2 2 RingBuffer.Ring.two_eq_pow
      RingBuffer.Ring.two_eq_pow false)
      [.push 1, .push 2, .push 3, .pop, .pop, .pop, .push 4] = some s ∧ s.Destroys s' ∧
        s'.live = ∅ ∧ s'.inUse.live = ∅ := by
  have hproper : LinkedList.Proper 0 [.push 1, .push 2, .push 3, .pop, .pop, .pop, .push 4] := by
    intro e he
    simp at he
    omega
  refine (all_freed_iff LinkedList.bump LinkedList.bump 2 2 RingBuffer.Ring.two_eq_pow
    RingBuffer.Ring.two_eq_pow false hproper).mpr ?_ _ (List.prefix_refl _)
  simp [Clean, pushCounts, popCounts, moves]

end Libni.BufferList.Sequential
