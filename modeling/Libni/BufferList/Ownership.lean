import Libni.BufferList.Sequential

/-!
Who owns a buffer. As long as `m_in_use` recycles none of its nodes, the buffers from
`m_buf_to_read` to `m_buf_to_write` and those in the cache stay apart. The first push
that takes a node out of the linked list's cache loses the buffer it publishes.
-/

namespace Libni.BufferList.Sequential

open Function
open Libni.LinkedList (Allocator Shape)
open Libni.RingBuffer (Holds)

section Link

variable {l : LinkedList.State Addr} {nodes recycled cached q : List Addr} {moved : Bool} {b : Addr}

/-- The linked list between calls as long as it has recycled nothing; `moved`
says whether it has delivered a buffer. The first node it gave up is the
constructor's, whose data is a null pointer. -/
structure Link (l : LinkedList.State Addr) (nodes recycled q : List Addr) (moved : Bool) : Prop where
  shape : Shape l nodes recycled q
  end_null : (l.heap l.tail).next = 0
  proper : ∀ b ∈ q, b ≠ 0
  first : ∀ n ∈ (recycled ++ [l.head]).head?, (l.heap n).data = 0
  moved_iff : moved = true ↔ recycled ≠ []

/-- A pop from a list that is not empty delivers the address of its second
node. -/
theorem pop_shape (h : Shape l nodes cached (b :: q)) : ∃ l' nodes' cached',
    LinkedList.pop 0 l = some (l', b) ∧ Shape l' nodes' cached' q ∧ l'.heap = l.heap ∧
      l'.tail = l.tail ∧ (cached' = cached ++ [l.head] ∨ (cached' = cached ∧ cached ≠ [])) := by
  cases nodes with
  | nil =>
      have hdata : [] = b :: q := h.data
      cases hdata
  | cons n nodes =>
      obtain ⟨l', cached', hpop, hshape, hheap, htail, _, hcached⟩ := h.pop_cons 0
      have hb : (l.heap n).data = b := (List.cons.inj h.data).1
      rw [hb] at hpop
      refine ⟨l', nodes, cached', hpop, hshape, hheap, htail, ?_⟩
      rcases hcached with hroom | ⟨heq, hfull⟩
      · exact .inl hroom
      · refine .inr ⟨heq, ?_⟩
        rintro rfl
        exact hfull l.cache.size_pos

theorem delivers_of_shape (h : Shape l nodes cached q) (hnull : (l.heap l.tail).next = 0)
    (hproper : ∀ b ∈ q, b ≠ 0) : Delivers l q := by
  induction q generalizing l nodes cached with
  | nil =>
      obtain rfl : nodes = [] := List.map_eq_nil_iff.mp h.data
      exact .done (h.pop_nil hnull)
  | cons b q ih =>
      obtain ⟨l', nodes', cached', hpop, hshape, hheap, htail, _⟩ := pop_shape h
      refine .next hpop (hproper b List.mem_cons_self) (ih hshape ?_ ?_)
      · rw [hheap, htail]
        exact hnull
      · exact fun x hx => hproper x (List.mem_cons_of_mem _ hx)

theorem Delivers.eq_nil (h : Delivers l q) (hpop : (LinkedList.pop 0 l).map Prod.snd = some 0) :
    q = [] := by
  cases h with
  | done => rfl
  | next h hb =>
      rw [h] at hpop
      exact absurd (Option.some.inj hpop) hb

theorem Delivers.eq_of_null {q' : List Addr} (h : Delivers l q')
    (hshape : Shape l nodes cached (q ++ [0])) (hproper : ∀ b ∈ q, b ≠ 0) : q' = q := by
  induction q generalizing l nodes cached q' with
  | nil =>
      obtain ⟨l', _, _, hpop, _⟩ := pop_shape hshape
      cases h with
      | done => rfl
      | next h hb =>
          rw [hpop] at h
          cases h
          exact absurd rfl hb
  | cons b q ih =>
      obtain ⟨l', _, _, hpop, hshape', _⟩ := pop_shape hshape
      cases h with
      | done h =>
          rw [hpop] at h
          cases h
          exact absurd rfl (hproper 0 List.mem_cons_self)
      | next h _ hrest =>
          rw [hpop] at h
          cases h
          rw [ih hrest hshape' fun x hx => hproper x (List.mem_cons_of_mem _ hx)]

namespace Link

theorem delivers (h : Link l nodes recycled q moved) : Delivers l q :=
  delivers_of_shape h.shape h.end_null h.proper

/-- A push that recycles no node of the linked list keeps everything in place. -/
theorem push (alloc : Allocator) (h : Link l nodes recycled q false) (hb : b ≠ 0) :
    ∃ l' nodes', LinkedList.push alloc l b = some l' ∧ Link l' nodes' [] (q ++ [b]) false := by
  obtain rfl : recycled = [] := by
    by_contra hne
    cases h.moved_iff.mpr hne
  obtain ⟨l', n, hpush, hshape, hnull, _, hhead, hdata⟩ := h.shape.push_new alloc b
  refine ⟨l', nodes ++ [n], hpush, hshape, hnull, fun x hx => ?_, fun n hn => ?_, h.moved_iff⟩
  · rcases List.mem_append.mp hx with hx | hx
    · exact h.proper x hx
    · rw [List.mem_singleton.mp hx]
      exact hb
  · obtain rfl : l.head = n := by simpa [hhead] using hn
    rw [hdata]
    exact h.first _ rfl

/-- A pop keeps everything in place; if it goes on to another buffer, the
linked list has a node to recycle from then on. -/
theorem pop (h : Link l nodes recycled (b :: q) moved) : ∃ l' nodes' recycled',
    LinkedList.pop 0 l = some (l', b) ∧ Link l' nodes' recycled' q true := by
  obtain ⟨l', nodes', recycled', hpop, hshape, hheap, htail, hrecycled⟩ := pop_shape h.shape
  refine ⟨l', nodes', recycled', hpop, hshape, ?_, fun x hx => ?_, fun n hn => ?_, ?_⟩
  · rw [hheap, htail]
    exact h.end_null
  · exact h.proper x (List.mem_cons_of_mem _ hx)
  · rw [hheap]
    apply h.first n
    rcases hrecycled with rfl | ⟨heq, hne⟩
    · cases recycled <;> exact hn
    · rw [heq] at hn
      cases recycled with
      | nil => exact absurd rfl hne
      | cons => exact hn
  · rcases hrecycled with rfl | ⟨rfl, hne⟩
    · simp
    · simpa using hne

/-- A push into a recycled node publishes a null pointer instead of the
buffer, since the node keeps the data it has. -/
theorem push_recycled {alloc : Allocator} {l' : LinkedList.State Addr} {q' : List Addr}
    (h : Link l nodes recycled q true) (hpush : LinkedList.push alloc l b = some l')
    (hdelivers : Delivers l' q') : q' = q := by
  obtain ⟨n, rest, rfl⟩ := List.exists_cons_of_ne_nil (h.moved_iff.mp rfl)
  obtain ⟨l'', hpush', hshape, _⟩ := h.shape.push_cached alloc b
  rw [hpush] at hpush'
  cases hpush'
  rw [h.first n rfl] at hshape
  exact hdelivers.eq_of_null hshape h.proper

/-- The constructor makes one buffer, both read and written, and the buffers
of the cache. -/
theorem create (alloc : Allocator) (size : Nat) (hsize : ∃ k, size = 2 ^ (k + 1)) :
    Link (LinkedList.create alloc 0 size hsize false) [] [] [] false := by
  obtain ⟨cached, hfilled, hlength, _⟩ := LinkedList.create_filled alloc (0 : Addr) size hsize false
  obtain rfl : cached = [] := List.eq_nil_of_length_eq_zero hlength
  refine ⟨hfilled.shape, hfilled.end_null, by simp, fun n hn => ?_, by simp⟩
  obtain rfl : (LinkedList.create alloc 0 size hsize false).head = n := by simpa using hn
  simp [LinkedList.create, LinkedList.State.new]

end Link

end Link

section Kept

variable {α : Type*} [DecidableEq α] {empty : α} {s s' : State α} {q cached : List Addr}
  {moved : Bool} {b : Addr} {e : α}

/-- A buffer that is allocated, has the list's size and holds the elements.
The cache holds such buffers without elements. -/
structure Buffer (empty : α) (s : State α) (b : Addr) (elements : List α) : Prop where
  live : b ∈ s.live
  size_eq : (s.heap b).size = s.bufSize
  holds : Holds empty (s.heap b) elements

/-- The list between calls: `q` is what `m_in_use` delivers, `cached` what
`m_cache` holds, and all buffers are distinct. -/
structure Kept (empty : α) (s : State α) (q cached : List Addr) (moved : Bool) : Prop where
  link : ∃ nodes recycled, Link s.inUse nodes recycled q moved
  cache : Holds 0 s.cache cached
  nodup : (s.bufToRead :: q ++ cached).Nodup
  read_ne_zero : s.bufToRead ≠ 0
  last : (s.bufToRead :: q).getLast? = some s.bufToWrite
  used : ∀ b ∈ s.bufToRead :: q, Buffer empty s b (contents empty (s.heap b))
  spare : ∀ b ∈ cached, Buffer empty s b []

/-- The numbers of elements in the buffers from the one read to the one
written. The calls are decided by these numbers alone. -/
def State.counts (s : State α) (empty : α) (q : List Addr) : List Nat :=
  (s.bufToRead :: q).map fun b => (contents empty (s.heap b)).length

theorem Buffer.contents_eq {elements : List α} (h : Buffer empty s b elements) :
    contents empty (s.heap b) = elements :=
  RingBuffer.Layout.stored_eq h.holds

omit [DecidableEq α] in
theorem Buffer.load {elements : List α} (h : Buffer empty s b elements) :
    s.load b = some (s.heap b) := if_pos h.live

omit [DecidableEq α] in
theorem Buffer.of_eq {elements : List α} (h : Buffer empty s b elements) (hlive : b ∈ s'.live)
    (hsize : s'.bufSize = s.bufSize) (hheap : s'.heap b = s.heap b) :
    Buffer empty s' b elements :=
  ⟨hlive, by rw [hheap, hsize]; exact h.size_eq, by rw [hheap]; exact h.holds⟩

omit [DecidableEq α] in
theorem State.recycle_heap (s : State α) (buf : Addr) : (s.recycle buf).heap = s.heap := by
  unfold State.recycle
  split <;> rfl

omit [DecidableEq α] in
theorem State.recycle_bufSize (s : State α) (buf : Addr) :
    (s.recycle buf).bufSize = s.bufSize := by
  unfold State.recycle
  split <;> rfl

namespace Kept

theorem write_mem (h : Kept empty s q cached moved) : s.bufToWrite ∈ s.bufToRead :: q :=
  List.mem_of_getLast? h.last

theorem write (h : Kept empty s q cached moved) :
    Buffer empty s s.bufToWrite (contents empty (s.heap s.bufToWrite)) :=
  h.used _ h.write_mem

theorem apart (h : Kept empty s q cached moved) (hb : b ∈ cached) : b ∉ s.bufToRead :: q :=
  fun hmem => (List.nodup_append.mp h.nodup).2.2 b hmem b hb rfl

/-- What is kept between calls gives every buffer its owner: the producer, the
consumer, the list in use or the cache. -/
theorem oneOwner (h : Kept empty s q cached moved) : OneOwner empty s q := by
  obtain ⟨nodes, recycled, hlink⟩ := h.link
  have hcached : contents 0 s.cache = cached := RingBuffer.Layout.stored_eq h.cache
  obtain ⟨hused, hspare, _⟩ := List.nodup_append.mp h.nodup
  refine ⟨hlink.delivers, ?_, ?_, ?_, ?_, hused, h.last⟩
  all_goals rw [hcached]
  · exact hspare
  · exact fun b hb => (h.spare b hb).contents_eq
  · intro b hb
    have hapart := h.apart hb
    refine ⟨?_, ?_, fun hmem => hapart (List.mem_cons_of_mem _ hmem)⟩
    · rintro rfl
      exact hapart List.mem_cons_self
    · rintro rfl
      exact hapart h.write_mem
  · intro b hb
    rcases List.mem_cons.mp hb with rfl | hb
    · exact (h.used _ List.mem_cons_self).live
    · rcases List.mem_cons.mp hb with rfl | hb
      · exact h.write.live
      · rcases List.mem_append.mp hb with hb | hb
        · exact (h.used b (List.mem_cons_of_mem _ hb)).live
        · exact (h.spare b hb).live

theorem store (h : Kept empty s q cached moved) (hb : b ∈ s.bufToRead :: q)
    {ring : RingBuffer.Ring α} {elements : List α} (hsize : ring.size = s.bufSize)
    (hring : Holds empty ring elements) : Kept empty (s.store b ring) q cached moved := by
  refine ⟨h.link, h.cache, h.nodup, h.read_ne_zero, h.last, fun x hx => ?_, fun x hx => ?_⟩
  · by_cases hxb : x = b
    · subst hxb
      have hbuffer : Buffer empty (s.store x ring) x elements :=
        ⟨(h.used x hx).live, by rw [State.heap_store_self]; exact hsize,
          by rw [State.heap_store_self]; exact hring⟩
      rw [hbuffer.contents_eq]
      exact hbuffer
    · have hheap : (s.store b ring).heap x = s.heap x := s.heap_store_of_ne b ring hxb
      rw [hheap]
      exact (h.used x hx).of_eq (h.used x hx).live rfl hheap
  · refine (h.spare x hx).of_eq (h.spare x hx).live rfl (s.heap_store_of_ne b ring ?_)
    rintro rfl
    exact h.apart hx hb

theorem front (h : Kept empty s q cached moved) :
    ∃ before, s.bufToRead :: q = before ++ [s.bufToWrite] ∧ s.bufToWrite ∉ before := by
  obtain ⟨before, hbefore⟩ := List.getLast?_eq_some_iff.mp h.last
  have hnodup := (List.nodup_append.mp h.nodup).1
  rw [hbefore] at hnodup
  exact ⟨before, hbefore, fun hmem =>
    (List.nodup_append.mp hnodup).2.2 _ hmem _ (List.mem_singleton_self _) rfl⟩

theorem counts_last (h : Kept empty s q cached moved) :
    (s.counts empty q).getLastD 0 = (contents empty (s.heap s.bufToWrite)).length := by
  obtain ⟨before, hbefore, _⟩ := h.front
  simp [State.counts, hbefore]

theorem pushBuffer (h : Kept empty s q cached moved) (he : e ≠ empty)
    (hroom : (s.counts empty q).getLastD 0 < s.bufSize) :
    ∃ s', s.pushBuffer empty e = some s' ∧ Kept empty s' q cached moved ∧
      s'.bufSize = s.bufSize ∧
      s'.counts empty q = (s.counts empty q).dropLast ++ [(s.counts empty q).getLastD 0 + 1] := by
  have hwrite := h.write
  rw [h.counts_last, ← hwrite.size_eq] at hroom
  obtain ⟨_, hpush⟩ := hwrite.holds.push_of_lt hroom he
  have hkept := h.store h.write_mem (Holds.size_push.trans hwrite.size_eq) hpush
  refine ⟨_, by rw [State.pushBuffer, hwrite.load]; rfl, hkept, rfl, ?_⟩
  obtain ⟨before, hbefore, hnot⟩ := h.front
  have hother : ∀ x ∈ before, (contents empty ((s.store s.bufToWrite
      ((s.heap s.bufToWrite).push empty e).1).heap x)).length =
        (contents empty (s.heap x)).length := by
    intro x hx
    have hne : x ≠ s.bufToWrite := by
      rintro rfl
      exact hnot hx
    rw [State.heap_store_of_ne _ _ _ hne]
  have hself : contents empty ((s.store s.bufToWrite
      ((s.heap s.bufToWrite).push empty e).1).heap s.bufToWrite) =
        contents empty (s.heap s.bufToWrite) ++ [e] := by
    rw [State.heap_store_self]
    exact RingBuffer.Layout.stored_eq hpush
  change ((s.bufToRead :: q).map fun b => (contents empty ((s.store s.bufToWrite
    ((s.heap s.bufToWrite).push empty e).1).heap b)).length) = _
  rw [h.counts_last, State.counts, hbefore, List.map_append, List.map_append,
    List.map_congr_left hother, List.map_singleton, List.map_singleton, List.dropLast_concat, hself,
    List.length_append, List.length_singleton]

theorem popBuffer (h : Kept empty s q cached moved) :
    ∃ s' x, s.popBuffer empty = some (s', x) ∧ Kept empty s' q cached moved ∧
      s'.bufSize = s.bufSize ∧
      s'.counts empty q = ((s.counts empty q).headD 0 - 1) :: (s.counts empty q).tail := by
  have hread := h.used _ List.mem_cons_self
  have hpop : Holds empty ((s.heap s.bufToRead).pop empty).1
      (contents empty (s.heap s.bufToRead)).tail := by
    cases hcontents : contents empty (s.heap s.bufToRead) with
    | nil =>
        have hholds := hcontents ▸ hread.holds
        rw [hholds.pop_nil]
        exact hholds
    | cons x rest => exact (hcontents ▸ hread.holds).pop_cons.2
  have hkept := h.store List.mem_cons_self (Holds.size_pop.trans hread.size_eq) hpop
  refine ⟨_, _, by rw [State.popBuffer, hread.load]; rfl, hkept, rfl, ?_⟩
  have hother : ∀ x ∈ q, (contents empty ((s.store s.bufToRead
      ((s.heap s.bufToRead).pop empty).1).heap x)).length =
        (contents empty (s.heap x)).length := by
    intro x hx
    have hne : x ≠ s.bufToRead := by
      rintro rfl
      exact (List.nodup_cons.mp (List.nodup_append.mp h.nodup).1).1 hx
    rw [State.heap_store_of_ne _ _ _ hne]
  have hself : contents empty ((s.store s.bufToRead
      ((s.heap s.bufToRead).pop empty).1).heap s.bufToRead) =
        (contents empty (s.heap s.bufToRead)).tail := by
    rw [State.heap_store_self]
    exact RingBuffer.Layout.stored_eq hpop
  change ((s.bufToRead :: q).map fun b => (contents empty ((s.store s.bufToRead
    ((s.heap s.bufToRead).pop empty).1).heap b)).length) = _
  rw [List.map_cons, hself, List.length_tail, List.map_congr_left hother]
  rfl

theorem new (buffers : Allocator) (h : Kept empty s q cached moved) :
    Kept empty (s.new buffers empty).1 q cached moved ∧
      Buffer empty (s.new buffers empty).1 (s.new buffers empty).2 [] ∧
      (s.new buffers empty).2 ≠ 0 ∧ (s.new buffers empty).2 ∉ s.bufToRead :: q ++ cached ∧
      (s.new buffers empty).1.counts empty q = s.counts empty q := by
  have hfresh := buffers.notMem s.allocated s.live
  have hself : (s.new buffers empty).1.heap (s.new buffers empty).2 =
      RingBuffer.Ring.new empty s.bufSize s.size_pow := update_self _ _ _
  have hkeep {x : Addr} {elements : List α} (hx : Buffer empty s x elements) :
      (s.new buffers empty).1.heap x = s.heap x ∧
        Buffer empty (s.new buffers empty).1 x elements := by
    have hne : x ≠ buffers.choose s.allocated s.live := by
      rintro rfl
      exact hfresh hx.live
    have hheap : (s.new buffers empty).1.heap x = s.heap x := update_of_ne hne _ _
    exact ⟨hheap, hx.of_eq (Finset.mem_insert_of_mem hx.live) rfl hheap⟩
  refine ⟨⟨h.link, h.cache, h.nodup, h.read_ne_zero, h.last, fun x hx => ?_,
    fun x hx => (hkeep (h.spare x hx)).2⟩, ⟨Finset.mem_insert_self _ _, ?_, ?_⟩,
    buffers.ne_zero _ _, fun hmem => ?_, ?_⟩
  · obtain ⟨hheap, hbuffer⟩ := hkeep (h.used x hx)
    rw [hheap]
    exact hbuffer
  · rw [hself]
    rfl
  · rw [hself]
    exact Holds.new s.bufSize s.size_pow
  · apply hfresh
    rcases List.mem_append.mp hmem with hmem | hmem
    · exact (h.used _ hmem).live
    · exact (h.spare _ hmem).live
  · refine List.map_congr_left fun x hx => ?_
    rw [(hkeep (h.used x hx)).1]

theorem fill (buffers : Allocator) (h : Kept empty s q cached moved)
    (hroom : cached.length < s.cache.size) :
    ∃ b, Kept empty (s.fill buffers empty) q (cached ++ [b]) moved ∧
      (s.fill buffers empty).cache.size = s.cache.size ∧
      (s.fill buffers empty).bufSize = s.bufSize ∧
      (s.fill buffers empty).counts empty q = s.counts empty q := by
  obtain ⟨hkept, hbuffer, hne, hnot, hcounts⟩ := h.new buffers
  refine ⟨(s.new buffers empty).2, ⟨hkept.link, (h.cache.push_of_lt hroom hne).2, ?_,
    hkept.read_ne_zero, hkept.last,
    fun x hx => (hkept.used x hx).of_eq (hkept.used x hx).live rfl rfl, fun x hx => ?_⟩,
    Holds.size_push, rfl, hcounts⟩
  · rw [← List.append_assoc]
    exact List.nodup_append.mpr ⟨h.nodup, List.nodup_singleton _, fun x hx y hy => by
      rw [List.mem_singleton.mp hy]
      rintro rfl
      exact hnot hx⟩
  · rcases List.mem_append.mp hx with hx | hx
    · exact (hkept.spare x hx).of_eq (hkept.spare x hx).live rfl rfl
    · rw [List.mem_singleton.mp hx]
      exact hbuffer.of_eq hbuffer.live rfl rfl

/-- A buffer taken from the cache or the allocator is empty and nobody else's. -/
theorem takeBuffer (buffers : Allocator) (h : Kept empty s q cached moved) :
    ∃ s' b cached', s.takeBuffer buffers empty = (s', b) ∧ Kept empty s' q cached' moved ∧
      Buffer empty s' b [] ∧ b ≠ 0 ∧ b ∉ s'.bufToRead :: q ++ cached' ∧ s'.inUse = s.inUse ∧
      s'.bufSize = s.bufSize ∧ s'.counts empty q = s.counts empty q := by
  cases cached with
  | nil =>
      have hpop : s.cache.pop 0 = (s.cache, 0) := h.cache.pop_nil
      obtain ⟨hkept, hbuffer, hne, hnot, hcounts⟩ := h.new buffers
      refine ⟨_, _, [], ?_, hkept, hbuffer, hne, hnot, rfl, rfl, hcounts⟩
      rw [State.takeBuffer, hpop, if_pos rfl]
  | cons b rest =>
      obtain ⟨hpop, hcache⟩ := h.cache.pop_cons
      have hne : b ≠ 0 := h.cache.proper b List.mem_cons_self
      have hnodup : (b :: (s.bufToRead :: q ++ rest)).Nodup :=
        List.perm_middle.nodup_iff.mp h.nodup
      refine ⟨{ s with cache := (s.cache.pop 0).1 }, b, rest, ?_, ⟨h.link, hcache,
        (List.nodup_cons.mp hnodup).2, h.read_ne_zero, h.last,
        fun x hx => (h.used x hx).of_eq (h.used x hx).live rfl rfl, fun x hx => ?_⟩, ?_, hne,
        (List.nodup_cons.mp hnodup).1, rfl, rfl, rfl⟩
      · rw [State.takeBuffer, hpop, if_neg hne]
      · have hspare := h.spare x (List.mem_cons_of_mem _ hx)
        exact hspare.of_eq hspare.live rfl rfl
      · have hspare := h.spare b List.mem_cons_self
        exact hspare.of_eq hspare.live rfl rfl

/-- The buffer to be written is published before it is written. -/
theorem nextToWrite (nodes buffers : Allocator) (h : Kept empty s q cached false) :
    ∃ s' b cached', s.nextToWrite nodes buffers empty = some (s', b) ∧
      Kept empty { s' with bufToWrite := b } (q ++ [b]) cached' false ∧
      s'.bufSize = s.bufSize ∧
      ({ s' with bufToWrite := b } : State α).counts empty (q ++ [b]) =
        s.counts empty q ++ [0] := by
  obtain ⟨s₁, b, cached', htake, hkept, hbuffer, hne, hnot, hinUse, hsize, hcounts⟩ :=
    h.takeBuffer buffers
  obtain ⟨ns, recycled, hlink⟩ := hkept.link
  obtain ⟨l', ns', hpush, hlink'⟩ := hlink.push nodes hne
  have hmem {x : Addr} (hx : x ∈ s₁.bufToRead :: (q ++ [b])) :
      x ∈ s₁.bufToRead :: q ∨ x = b := by
    rw [← List.cons_append] at hx
    rcases List.mem_append.mp hx with hx | hx
    · exact .inl hx
    · exact .inr (List.mem_singleton.mp hx)
  refine ⟨{ s₁ with inUse := l' }, b, cached', ?_, ⟨⟨ns', [], hlink'⟩, hkept.cache, ?_,
    hkept.read_ne_zero, ?_, fun x hx => ?_, fun x hx => ?_⟩, hsize, ?_⟩
  · simp only [State.nextToWrite, htake, hpush, Option.map_some]
  · have hmiddle : s₁.bufToRead :: (q ++ [b]) ++ cached' =
        s₁.bufToRead :: q ++ b :: cached' := by simp
    change (s₁.bufToRead :: (q ++ [b]) ++ cached').Nodup
    rw [hmiddle]
    exact List.perm_middle.nodup_iff.mpr (List.nodup_cons.mpr ⟨hnot, hkept.nodup⟩)
  · change (s₁.bufToRead :: (q ++ [b])).getLast? = some b
    rw [← List.cons_append, List.getLast?_concat]
  · rcases hmem hx with hx | rfl
    · exact (hkept.used x hx).of_eq (hkept.used x hx).live rfl rfl
    · have heq : contents empty (s₁.heap x) = [] := hbuffer.contents_eq
      change Buffer empty _ x (contents empty (s₁.heap x))
      rw [heq]
      exact hbuffer.of_eq hbuffer.live rfl rfl
  · exact (hkept.spare x hx).of_eq (hkept.spare x hx).live rfl rfl
  · rw [← hcounts]
    change (s₁.bufToRead :: (q ++ [b])).map _ = _
    rw [← List.cons_append, List.map_append, List.map_singleton]
    change _ ++ [(contents empty (s₁.heap b)).length] = _
    rw [hbuffer.contents_eq]
    rfl

/-- The buffer read, drained, goes to the cache or is deleted, and the next
one is read. -/
theorem recycle (h : Kept empty s (b :: q) cached moved) (hread : Buffer empty s s.bufToRead [])
    {l : LinkedList.State Addr} {nodes recycled : List Addr}
    (hlink : Link l nodes recycled q true) : ∃ cached', Kept empty
      { ({ s with inUse := l } : State α).recycle s.bufToRead with bufToRead := b } q cached'
        true := by
  obtain ⟨_, _, hbefore⟩ := h.link
  have hb : b ≠ 0 := hbefore.proper b List.mem_cons_self
  have hnodup : (s.bufToRead :: (b :: q ++ cached)).Nodup := h.nodup
  obtain ⟨hnot, hnodup'⟩ := List.nodup_cons.mp hnodup
  unfold State.recycle
  by_cases hroom : cached.length < s.cache.size
  · obtain ⟨hpushed, hcache⟩ := h.cache.push_of_lt hroom h.read_ne_zero
    rw [if_pos hpushed]
    refine ⟨cached ++ [s.bufToRead], ⟨nodes, recycled, hlink⟩, hcache, ?_, hb, h.last,
      fun x hx => ?_, fun x hx => ?_⟩
    · change (b :: q ++ (cached ++ [s.bufToRead])).Nodup
      rw [← List.append_assoc]
      exact (List.perm_append_singleton _ _).nodup_iff.mpr hnodup
    · have hold := h.used x (List.mem_cons_of_mem _ hx)
      exact hold.of_eq hold.live rfl rfl
    · rcases List.mem_append.mp hx with hx | hx
      · have hold := h.spare x hx
        exact hold.of_eq hold.live rfl rfl
      · rw [List.mem_singleton.mp hx]
        exact hread.of_eq hread.live rfl rfl
  · have hpushed : ¬ (s.cache.push 0 s.bufToRead).2 = true := by
      rw [h.cache.push_of_full hroom]
      exact Bool.false_ne_true
    rw [if_neg hpushed]
    have hlive {x : Addr} (hx : x ∈ b :: q ++ cached) (hlive : x ∈ s.live) :
        x ∈ s.live.erase s.bufToRead := by
      refine Finset.mem_erase.mpr ⟨?_, hlive⟩
      rintro rfl
      exact hnot hx
    refine ⟨cached, ⟨nodes, recycled, hlink⟩, h.cache, hnodup', hb, h.last, fun x hx => ?_,
      fun x hx => ?_⟩
    · have hold := h.used x (List.mem_cons_of_mem _ hx)
      exact hold.of_eq (hlive (List.mem_append_left _ hx) hold.live) rfl rfl
    · have hold := h.spare x hx
      exact hold.of_eq (hlive (List.mem_append_right _ hx) hold.live) rfl rfl

/-- The drained buffer is released and the next one taken from the list. -/
theorem moveOn (h : Kept empty s (b :: q) cached moved) :
    ∃ s₁ s₂ cached', s.nextToRead = some (s₁, b) ∧
      s₁.release empty s₁.bufToRead = some s₂ ∧
      Kept empty { s₂ with bufToRead := b } q cached' true ∧ s₂.bufSize = s.bufSize ∧
      ({ s₂ with bufToRead := b } : State α).counts empty q = (s.counts empty (b :: q)).tail := by
  obtain ⟨ns, recycled, hlink⟩ := h.link
  obtain ⟨l', ns', recycled', hpop, hlink'⟩ := hlink.pop
  have hread := h.used _ List.mem_cons_self
  have hload : ({ s with inUse := l' } : State α).load s.bufToRead =
      some (s.heap s.bufToRead) := hread.load
  have hreset : Kept empty (s.store s.bufToRead ((s.heap s.bufToRead).reset empty)) (b :: q)
      cached moved := h.store List.mem_cons_self hread.size_eq Holds.reset
  have hdrained : Buffer empty (s.store s.bufToRead ((s.heap s.bufToRead).reset empty))
      s.bufToRead [] := by
    refine ⟨hread.live, ?_, ?_⟩
    · rw [State.heap_store_self]
      exact hread.size_eq
    · rw [State.heap_store_self]
      exact Holds.reset
  obtain ⟨cached', hkept⟩ := hreset.recycle hdrained hlink'
  refine ⟨{ s with inUse := l' }, _, cached', ?_, ?_, hkept, State.recycle_bufSize _ _, ?_⟩
  · rw [State.nextToRead, hpop, Option.map_some]
  · change (({ s with inUse := l' } : State α).load s.bufToRead).map _ = _
    rw [hload, Option.map_some]
    rfl
  · change (b :: q).map (fun x => (contents empty
      ((State.recycle _ s.bufToRead).heap x)).length) =
        (b :: q).map fun x => (contents empty (s.heap x)).length
    rw [State.recycle_heap]
    refine List.map_congr_left fun x hx => ?_
    -- the buffers other than the drained one are left alone
    have hne : x ≠ s.bufToRead := by
      rintro rfl
      exact (List.nodup_cons.mp h.nodup).1 (List.mem_append_left _ hx)
    exact congrArg (fun ring => (contents empty ring).length) (State.heap_store_of_ne _ _ _ hne)

end Kept

end Kept

section Clean

variable {α : Type*}

/-- What a push does to the numbers of elements in the buffers in use. -/
def pushCounts (size : Nat) (counts : List Nat) : List Nat :=
  if counts.getLastD 0 < size then counts.dropLast ++ [counts.getLastD 0 + 1]
  else counts ++ [1]

/-- A pop finds the first buffer drained and another one behind it. -/
def moves : List Nat → Bool
  | 0 :: _ :: _ => true
  | _ => false

/-- What a pop does to the numbers of elements in the buffers in use. -/
def popCounts : List Nat → List Nat
  | 0 :: count :: counts => (count - 1) :: counts
  | count :: counts => (count - 1) :: counts
  | [] => []

/-- With these numbers of elements in the buffers in use, and `moved` saying
whether a pop has gone on to another buffer: no push needs another buffer
after that. -/
def Clean (size : Nat) : List Nat → Bool → List (LinkedList.Op α) → Prop
  | _, _, [] => True
  | counts, moved, .push _ :: ops => (moved = true → counts.getLastD 0 < size) ∧
      Clean size (pushCounts size counts) moved ops
  | counts, moved, .pop :: ops => Clean size (popCounts counts) (moved || moves counts) ops

theorem Clean.of_isPrefix {size : Nat} {counts : List Nat} {moved : Bool}
    {pre ops : List (LinkedList.Op α)} (hpre : pre <+: ops) (h : Clean size counts moved ops) :
    Clean size counts moved pre := by
  induction pre generalizing ops counts moved with
  | nil => trivial
  | cons op pre ih =>
      obtain ⟨rest, rfl⟩ := hpre
      have hrest : pre <+: pre ++ rest := List.prefix_append pre rest
      cases op with
      | push e => exact ⟨h.1, ih hrest h.2⟩
      | pop => exact ih hrest h

end Clean

section Calls

variable {α : Type*} [DecidableEq α] {nodes buffers : Allocator} {empty : α} {s s' : State α}
  {q cached : List Addr} {moved : Bool} {e : α}

namespace Kept

theorem available_iff (h : Kept empty s q cached moved) :
    (s.heap s.bufToWrite).available empty = true ↔ (s.counts empty q).getLastD 0 < s.bufSize := by
  rw [h.write.holds.available_iff, h.counts_last, h.write.size_eq]

theorem push (nodes buffers : Allocator) (h : Kept empty s q cached moved) (he : e ≠ empty)
    (hclean : moved = true → (s.counts empty q).getLastD 0 < s.bufSize) :
    ∃ s' q' cached', Sequential.push nodes buffers empty s e = some s' ∧
      Kept empty s' q' cached' moved ∧ s'.bufSize = s.bufSize ∧
      s'.counts empty q' = pushCounts s.bufSize (s.counts empty q) := by
  by_cases hroom : (s.counts empty q).getLastD 0 < s.bufSize
  · obtain ⟨s', hpush, hkept, hsize, hcounts⟩ := h.pushBuffer he hroom
    refine ⟨s', q, cached, ?_, hkept, hsize, by rw [hcounts, pushCounts, if_pos hroom]⟩
    rw [Sequential.push, h.write.load, Option.bind_some, if_pos (h.available_iff.mpr hroom)]
    exact hpush
  · obtain rfl : moved = false := Bool.eq_false_iff.mpr fun hmoved => hroom (hclean hmoved)
    obtain ⟨s₁, b, cached', hnext, hkept, hsize, hcounts⟩ := h.nextToWrite nodes buffers
    have hpos : 0 < s₁.bufSize := by
      obtain ⟨k, hk⟩ := s₁.size_pow
      rw [hk]
      exact Nat.two_pow_pos _
    obtain ⟨s', hpush, hkept', hsize', hcounts'⟩ := hkept.pushBuffer he (by
      rw [hcounts, List.getLastD_concat]
      exact hpos)
    refine ⟨s', q ++ [b], cached', ?_, hkept', hsize'.trans hsize, ?_⟩
    · rw [Sequential.push, h.write.load, Option.bind_some,
        if_neg (mt h.available_iff.mp hroom), hnext, Option.bind_some]
      exact hpush
    · rw [hcounts', hcounts, pushCounts, if_neg hroom, List.dropLast_concat,
        List.getLastD_concat]

/-- A push that recycles a node of the linked list loses the buffer it
publishes. -/
theorem not_oneOwner {inUse : List Addr} (h : Kept empty s q cached true)
    (hfull : ¬ (s.counts empty q).getLastD 0 < s.bufSize)
    (hpush : Sequential.push nodes buffers empty s e = some s') : ¬ OneOwner empty s' inUse := by
  intro howner
  obtain ⟨s₁, b, cached', htake, hkept, _, _, hnot, _⟩ := h.takeBuffer buffers
  obtain ⟨ns, recycled, hlink⟩ := hkept.link
  rw [Sequential.push, h.write.load, Option.bind_some, if_neg (mt h.available_iff.mp hfull),
    State.nextToWrite, htake] at hpush
  cases hlinked : LinkedList.push nodes s₁.inUse b with
  | none =>
      simp only [hlinked, Option.map_none, Option.bind_none] at hpush
      cases hpush
  | some l =>
      simp only [hlinked, Option.map_some, Option.bind_some, State.pushBuffer] at hpush
      obtain ⟨ring, _, rfl⟩ := Option.map_eq_some_iff.mp hpush
      have hinUse : inUse = q := hlink.push_recycled hlinked howner.delivers
      subst hinUse
      exact hnot (List.mem_append_left _ (List.mem_of_getLast? howner.order_last))

theorem counts_eq_nil (hcounts : contents empty (s.heap s.bufToRead) = []) :
    s.counts empty q = 0 :: q.map fun b => (contents empty (s.heap b)).length := by
  rw [State.counts, List.map_cons, hcounts]
  rfl

theorem pop (h : Kept empty s q cached moved) :
    ∃ s' x q' cached', Sequential.pop empty s = some (s', x) ∧
      Kept empty s' q' cached' (moved || moves (s.counts empty q)) ∧ s'.bufSize = s.bufSize ∧
      s'.counts empty q' = popCounts (s.counts empty q) := by
  have hread := h.used _ List.mem_cons_self
  by_cases hdrained : contents empty (s.heap s.bufToRead) = []
  · have hempty : (s.heap s.bufToRead).isEmpty empty = true := hread.holds.isEmpty_iff.mpr hdrained
    rw [counts_eq_nil hdrained]
    cases q with
    | nil =>
        have hsame : s.bufToRead = s.bufToWrite := by simpa using h.last
        refine ⟨s, empty, [], cached, ?_, by simpa [moves] using h, rfl,
          counts_eq_nil hdrained⟩
        rw [Sequential.pop, hread.load, Option.bind_some, if_pos hempty, if_pos hsame]
    | cons b q =>
        have hother : s.bufToRead ≠ s.bufToWrite := by
          intro hsame
          have hlast := h.last
          rw [List.getLast?_cons_cons] at hlast
          have hnodup := (List.nodup_append.mp h.nodup).1
          exact (List.nodup_cons.mp hnodup).1 (hsame ▸ List.mem_of_getLast? hlast)
        obtain ⟨ns, recycled, hlink⟩ := h.link
        have hb : b ≠ 0 := hlink.proper b List.mem_cons_self
        obtain ⟨s₁, s₂, cached', hnext, hrelease, hkept, hsize, hcounts⟩ := h.moveOn
        obtain ⟨s', x, hpop, hkept', hsize', hcounts'⟩ := hkept.popBuffer
        refine ⟨s', x, q, cached', ?_, by simpa [moves] using hkept', hsize'.trans hsize, ?_⟩
        · rw [Sequential.pop, hread.load, Option.bind_some, if_pos hempty, if_neg hother,
            if_pos hempty, hnext, Option.bind_some, if_neg hb, hrelease, Option.bind_some]
          exact hpop
        · rw [hcounts', hcounts, counts_eq_nil hdrained]
          rfl
  · have hempty : ¬ (s.heap s.bufToRead).isEmpty empty = true :=
      mt hread.holds.isEmpty_iff.mp hdrained
    obtain ⟨s', x, hpop, hkept, hsize, hcounts⟩ := h.popBuffer
    obtain ⟨count, hcount⟩ := Nat.exists_eq_succ_of_ne_zero (mt List.length_eq_zero_iff.mp hdrained)
    refine ⟨s', x, q, cached, ?_, ?_, hsize, ?_⟩
    · rw [Sequential.pop, hread.load, Option.bind_some, if_neg hempty]
      exact hpop
    · rw [State.counts, List.map_cons, hcount]
      simpa [moves] using hkept
    · rw [hcounts, State.counts, List.map_cons, hcount]
      rfl

theorem iterate (buffers : Allocator) (h : Kept empty s q [] moved) (m : Nat)
    (hm : m ≤ s.cache.size) : ∃ cached, Kept empty ((State.fill buffers empty)^[m] s) q cached moved ∧
      cached.length = m ∧ ((State.fill buffers empty)^[m] s).cache.size = s.cache.size ∧
      ((State.fill buffers empty)^[m] s).bufSize = s.bufSize ∧
      ((State.fill buffers empty)^[m] s).counts empty q = s.counts empty q := by
  induction m with
  | zero => exact ⟨[], h, rfl, rfl, rfl, rfl⟩
  | succ m ih =>
      obtain ⟨cached, hkept, hlength, hcache, hsize, hcounts⟩ := ih (by omega)
      obtain ⟨b, hkept', hcache', hsize', hcounts'⟩ := hkept.fill buffers (by omega)
      rw [Function.iterate_succ_apply']
      exact ⟨cached ++ [b], hkept', by simp [hlength], hcache'.trans hcache,
        hsize'.trans hsize, hcounts'.trans hcounts⟩

theorem create (nodes buffers : Allocator) (empty : α) (bufferSize cacheSize : Nat)
    (hbuffer : ∃ k, bufferSize = 2 ^ (k + 1)) (hcache : ∃ k, cacheSize = 2 ^ (k + 1))
    (fillCache : Bool) : ∃ s cached,
      Sequential.create nodes buffers empty bufferSize cacheSize hbuffer hcache fillCache = s ∧
        Kept empty s [] cached false ∧ s.bufSize = bufferSize ∧ s.counts empty [] = [0] := by
  let s₀ : State α := ⟨0, 0, bufferSize, LinkedList.create nodes 0 cacheSize hcache false,
    RingBuffer.Ring.new 0 cacheSize hcache, fun _ => RingBuffer.Ring.new empty bufferSize hbuffer,
    ∅, 0, hbuffer⟩
  let s : State α := { (s₀.new buffers empty).1 with
    bufToRead := (s₀.new buffers empty).2, bufToWrite := (s₀.new buffers empty).2 }
  have hcreate : Sequential.create nodes buffers empty bufferSize cacheSize hbuffer hcache
      fillCache = if fillCache = true then (State.fill buffers empty)^[cacheSize] s else s := rfl
  have hheap : s.heap s.bufToRead = RingBuffer.Ring.new empty bufferSize hbuffer :=
    update_self _ _ _
  have hbuffer : Buffer empty s s.bufToRead [] :=
    ⟨Finset.mem_insert_self _ _, by rw [hheap]; rfl, by rw [hheap]; exact Holds.new _ _⟩
  have hkept : Kept empty s [] [] false := by
    refine ⟨⟨[], [], Link.create nodes cacheSize hcache⟩, Holds.new cacheSize hcache,
      List.nodup_singleton _, buffers.ne_zero _ _, rfl, fun b hb => ?_, by simp⟩
    rw [List.mem_singleton.mp hb, hbuffer.contents_eq]
    exact hbuffer
  have hcounts : s.counts empty [] = [0] := counts_eq_nil hbuffer.contents_eq
  rw [hcreate]
  cases fillCache with
  | false => exact ⟨s, [], rfl, hkept, rfl, hcounts⟩
  | true =>
      obtain ⟨cached, hkept', _, _, hsize, hcounts'⟩ := hkept.iterate buffers cacheSize le_rfl
      exact ⟨_, cached, rfl, hkept', hsize, hcounts'.trans hcounts⟩

/-- A sequence of calls that recycles no node keeps every buffer's owner. -/
theorem run {ops : List (LinkedList.Op α)} (h : Kept empty s q cached moved)
    (hproper : LinkedList.Proper empty ops)
    (hclean : Clean s.bufSize (s.counts empty q) moved ops) :
    ∃ s' inUse, Sequential.run nodes buffers empty s ops = some s' ∧ OneOwner empty s' inUse := by
  induction ops generalizing s q cached moved with
  | nil => exact ⟨s, q, rfl, h.oneOwner⟩
  | cons op ops ih =>
      have hrest : LinkedList.Proper empty ops := fun e he => hproper e (List.mem_cons_of_mem _ he)
      cases op with
      | push e =>
          obtain ⟨s', q', cached', hpush, hkept, hsize, hcounts⟩ :=
            h.push nodes buffers (hproper e List.mem_cons_self) hclean.1
          obtain ⟨s'', inUse, hrun, howner⟩ := ih hkept hrest (by
            rw [hsize, hcounts]
            exact hclean.2)
          exact ⟨s'', inUse, by rw [Sequential.run, hpush, Option.bind_some, hrun], howner⟩
      | pop =>
          obtain ⟨s', x, q', cached', hpop, hkept, hsize, hcounts⟩ := h.pop
          obtain ⟨s'', inUse, hrun, howner⟩ := ih hkept hrest (by
            rw [hsize, hcounts]
            exact hclean)
          exact ⟨s'', inUse, by rw [Sequential.run, hpop, Option.bind_some, hrun], howner⟩

/-- Conversely the first push that recycles a node leaves a buffer without an
owner. -/
theorem clean {ops : List (LinkedList.Op α)} (h : Kept empty s q cached moved)
    (hproper : LinkedList.Proper empty ops)
    (howned : ∀ pre, pre <+: ops → ∃ s' inUse,
      Sequential.run nodes buffers empty s pre = some s' ∧ OneOwner empty s' inUse) :
    Clean s.bufSize (s.counts empty q) moved ops := by
  induction ops generalizing s q cached moved with
  | nil => trivial
  | cons op ops ih =>
      have hrest : LinkedList.Proper empty ops := fun e he => hproper e (List.mem_cons_of_mem _ he)
      cases op with
      | push e =>
          have hroom : moved = true → (s.counts empty q).getLastD 0 < s.bufSize := by
            rintro rfl
            by_contra hfull
            obtain ⟨s', inUse, hrun, howner⟩ := howned [.push e] (by simp)
            obtain ⟨s'', hpush, hnil⟩ := Option.bind_eq_some_iff.mp hrun
            cases hnil
            exact h.not_oneOwner hfull hpush howner
          obtain ⟨s', q', cached', hpush, hkept, hsize, hcounts⟩ :=
            h.push nodes buffers (hproper e List.mem_cons_self) hroom
          refine ⟨hroom, ?_⟩
          have hclean := ih hkept hrest fun pre hpre => by
            obtain ⟨s'', inUse, hrun, howner⟩ :=
              howned (.push e :: pre) (List.cons_prefix_cons.mpr ⟨rfl, hpre⟩)
            rw [Sequential.run, hpush, Option.bind_some] at hrun
            exact ⟨s'', inUse, hrun, howner⟩
          rwa [hsize, hcounts] at hclean
      | pop =>
          obtain ⟨s', x, q', cached', hpop, hkept, hsize, hcounts⟩ := h.pop
          have hclean := ih hkept hrest fun pre hpre => by
            obtain ⟨s'', inUse, hrun, howner⟩ :=
              howned (.pop :: pre) (List.cons_prefix_cons.mpr ⟨rfl, hpre⟩)
            rw [Sequential.run, hpop, Option.bind_some] at hrun
            exact ⟨s'', inUse, hrun, howner⟩
          rwa [hsize, hcounts] at hclean

end Kept

/-- The buffers keep one owner each through a sequence of calls if and only if
no push finds the buffer to be written full after a pop has gone on to another
buffer. That push gets its node back from the cache of the linked list. -/
theorem one_owner_iff (nodes buffers : Allocator) (bufferSize cacheSize : Nat)
    (hbuffer : ∃ k, bufferSize = 2 ^ (k + 1)) (hcache : ∃ k, cacheSize = 2 ^ (k + 1))
    (fillCache : Bool) {ops : List (LinkedList.Op α)} (hproper : LinkedList.Proper empty ops) :
    (∀ pre, pre <+: ops → ∃ s inUse, run nodes buffers empty
      (create nodes buffers empty bufferSize cacheSize hbuffer hcache fillCache) pre = some s ∧
        OneOwner empty s inUse) ↔ Clean bufferSize [0] false ops := by
  obtain ⟨s, cached, hcreate, hkept, hsize, hcounts⟩ :=
    Kept.create nodes buffers empty bufferSize cacheSize hbuffer hcache fillCache
  rw [hcreate]
  constructor
  · intro howned
    have hclean := hkept.clean hproper howned
    rwa [hsize, hcounts] at hclean
  · intro hclean pre hpre
    apply hkept.run (fun e he => hproper e (hpre.subset he))
    rw [hsize, hcounts]
    exact hclean.of_isPrefix hpre

end Calls

/-- Two buffers come from the filled cache, and the first one goes back to it. -/
theorem one_owner_iff_filled : ∃ s inUse, run LinkedList.bump LinkedList.bump 0
    (create LinkedList.bump LinkedList.bump 0 2 2 RingBuffer.Ring.two_eq_pow
      RingBuffer.Ring.two_eq_pow true)
      [.push 1, .push 2, .push 3, .push 4, .push 5, .pop, .pop, .pop, .push 6] = some s ∧
        OneOwner 0 s inUse := by
  have hproper : LinkedList.Proper 0
      [.push 1, .push 2, .push 3, .push 4, .push 5, .pop, .pop, .pop, .push 6] := by
    intro e he
    simp at he
    omega
  refine (one_owner_iff LinkedList.bump LinkedList.bump 2 2 RingBuffer.Ring.two_eq_pow
    RingBuffer.Ring.two_eq_pow true hproper).mpr
    ?_ _ (List.prefix_refl _)
  simp [Clean, pushCounts, popCounts, moves]

/-- The buffer that the last push takes from the cache is not delivered. -/
def losingCalls : List (LinkedList.Op Nat) :=
  [.push 1, .push 2, .push 3, .pop, .pop, .pop, .push 4, .push 5, .push 6]

def losingState : State Nat :=
  (run LinkedList.bump LinkedList.bump 0
    (create LinkedList.bump LinkedList.bump 0 2 2 RingBuffer.Ring.two_eq_pow
      RingBuffer.Ring.two_eq_pow false)
      losingCalls).get (by decide +kernel)

theorem buffer_not_delivered : ¬ ∀ ops : List (LinkedList.Op Nat), LinkedList.Proper 0 ops →
    ∃ s inUse, run LinkedList.bump LinkedList.bump 0
      (create LinkedList.bump LinkedList.bump 0 2 2 RingBuffer.Ring.two_eq_pow
        RingBuffer.Ring.two_eq_pow false) ops = some s ∧
        OneOwner 0 s inUse := by
  intro hall
  have hproper : LinkedList.Proper 0 losingCalls := by
    intro e he
    simp [losingCalls] at he
    omega
  obtain ⟨s, inUse, hrun, howner⟩ := hall losingCalls hproper
  obtain rfl : losingState = s := Option.get_of_eq_some _ hrun
  have hpop : (LinkedList.pop 0 losingState.inUse).map Prod.snd = some 0 := by decide +kernel
  have hread : losingState.bufToRead = 2 := by decide +kernel
  have hwrite : losingState.bufToWrite = 1 := by decide +kernel
  have hlast := howner.order_last
  rw [howner.delivers.eq_nil hpop, hread, hwrite] at hlast
  cases hlast

end Libni.BufferList.Sequential
