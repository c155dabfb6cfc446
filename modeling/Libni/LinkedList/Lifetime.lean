import Libni.LinkedList.Fifo

/-!
The nodes of the linked list over its whole life. The list may be asked for more than
it holds only while the tail has no successor, because behind a recycled tail `pop`
goes on into nodes that are not in the list any more. As long as every pop finds an
element, no call touches a node that is not allocated, and the destructor deletes
every node exactly once, whatever the elements have become.
-/

namespace Libni.LinkedList

open Function
open Libni.RingBuffer (Holds)

section Destroy

variable {α : Type*}

/-- `delete` of a node; deleting one that is not allocated is an error, which
has no result. -/
def State.free (s : State α) (a : Addr) : Option (State α) :=
  if a ∈ s.live then some (s.delete a) else none

/-- `while ((p = m_cache.pop())) delete p;`, the first loop of the destructor. -/
def State.emptyCache : (fuel : Nat) → State α → Option (State α)
  | 0, _ => none
  | fuel + 1, s =>
      let p := (s.cache.pop 0).2
      let s := { s with cache := (s.cache.pop 0).1 }
      if p = 0 then some s else (s.free p).bind (emptyCache fuel)

/-- The loop over the nodes, and the deletion of the last one. -/
def State.deleteNodes : (fuel : Nat) → State α → Option (State α)
  | 0, _ => none
  | fuel + 1, s =>
      if s.head = s.tail then (if s.head = 0 then some s else s.free s.head)
      else
        let p := s.head
        (s.load p).bind fun head => (({ s with head := head.next } : State α).free p).bind (deleteNodes fuel)

/-- `~SPSCLinkedList` ends without an error and leaves `s'`. -/
def State.Destroys (s s' : State α) : Prop :=
  ∃ fuel, ((s.emptyCache fuel).bind (State.deleteNodes fuel)) = some s'

end Destroy

section Owned

variable {α : Type*} {s s' : State α} {nodes cached : List Addr} {empty e x : α}

/-- The nodes of the list and of the cache are all there are. What the
elements have become does not matter here. -/
structure Owned (s : State α) (nodes cached : List Addr) : Prop where
  shape : Shape s nodes cached (nodes.map fun a => (s.heap a).data)
  card : s.live.card = nodes.length + cached.length + 1

theorem Owned.of_shape {q : List α} (h : Shape s nodes cached q)
    (hcard : s.live.card = nodes.length + cached.length + 1) : Owned s nodes cached := by
  refine ⟨?_, hcard⟩
  rw [h.data]
  exact h

/-- The allocated addresses are exactly those of the head, the nodes and the
cache, since there are as many. -/
theorem Owned.live_eq (h : Owned s nodes cached) :
    s.live = (s.head :: nodes ++ cached).toFinset := by
  refine (Finset.eq_of_subset_of_card_le (fun a ha => ?_) ?_).symm
  · exact h.shape.live a (List.mem_toFinset.mp ha)
  · rw [List.toFinset_card_of_nodup h.shape.nodup, h.card]
    simp only [List.length_append, List.length_cons]
    omega

theorem card_new (alloc : Allocator) (data : α) :
    (s.new alloc data).1.live.card = s.live.card + 1 :=
  Finset.card_insert_of_notMem (alloc.notMem s.allocated s.live)

theorem live_link {n : Addr} (h : s.link n = some s') : s'.live = s.live := by
  simp only [State.link, State.setNext] at h
  split at h <;> cases h
  rfl

/-- A push never finds memory that is not allocated, and puts one more node
into the list. -/
theorem Owned.push (alloc : Allocator) (e : α) (h : Owned s nodes cached) :
    ∃ s' nodes' cached', LinkedList.push alloc s e = some s' ∧ Owned s' nodes' cached' ∧
      nodes'.length = nodes.length + 1 := by
  cases cached with
  | nil =>
      obtain ⟨s', n, hpush, hshape, -, -, -, -⟩ := h.shape.push_new alloc e
      refine ⟨s', nodes ++ [n], [], hpush, .of_shape hshape ?_, by simp⟩
      have hcard : s'.live.card = s.live.card + 1 := by
        simp only [LinkedList.push, h.shape.cache.pop_nil, if_true] at hpush
        rw [live_link hpush, card_new]
      rw [hcard, h.card]
      simp
  | cons n rest =>
      obtain ⟨s', hpush, hshape, -, -⟩ := h.shape.push_cached alloc e
      refine ⟨s', nodes ++ [n], rest, hpush, .of_shape hshape ?_, by simp⟩
      have hlive : s'.live = s.live := by
        have hn : n ≠ 0 := h.shape.cache.proper n List.mem_cons_self
        simp only [LinkedList.push, h.shape.cache.pop_cons.1, if_neg hn] at hpush
        have hlink := live_link hpush
        exact hlink
      rw [hlive, h.card]
      simp only [List.length_append, List.length_cons, List.length_nil]
      omega

theorem pop_recycle (hnext : (s.heap s.head).next ≠ 0) (hpop : pop empty s = some (s', x)) :
    s' = ({ s with head := (s.heap s.head).next } : State α).recycle s.head := by
  simp only [LinkedList.pop, State.load] at hpop
  split at hpop
  · simp only [Option.bind_some, if_neg hnext] at hpop
    split at hpop <;> cases hpop
    rfl
  · cases hpop

theorem Owned.pop {b : Addr} (empty : α) (h : Owned s (b :: nodes) cached) :
    ∃ s' x cached', LinkedList.pop empty s = some (s', x) ∧ Owned s' nodes cached' := by
  obtain ⟨s', cached', hpop, hshape, -, -, hsize, hcached⟩ := h.shape.pop_cons empty
  refine ⟨s', _, cached', hpop, .of_shape hshape ?_⟩
  have hnext : (s.heap s.head).next = b := (List.isChain_cons_cons.mp h.shape.chain).1
  have hne : (s.heap s.head).next ≠ 0 := by
    rw [hnext]
    exact h.shape.ne_zero b (by simp)
  have hcard := h.card
  have hle := hshape.cache.le
  rw [hsize] at hle
  by_cases hroom : cached.length < s.cache.size
  · have hpush := h.shape.cache.push_of_lt hroom (h.shape.ne_zero s.head List.mem_cons_self)
    have hlive : s'.live = s.live := by
      rw [pop_recycle hne hpop, State.recycle, if_pos hpush.1]
    obtain rfl : cached' = cached ++ [s.head] := hcached.resolve_right fun hfull => hfull.2 hroom
    rw [hlive, hcard]
    simp only [List.length_append, List.length_cons, List.length_nil]
    omega
  · have hpush : s.cache.push 0 s.head = (s.cache, false) := h.shape.cache.push_of_full hroom
    have hlive : s'.live = s.live.erase s.head := by
      rw [pop_recycle hne hpop, State.recycle, hpush, if_neg (by simp)]
      rfl
    have hsame : cached'.length = cached.length := by
      rcases hcached with rfl | ⟨rfl, -⟩
      · simp only [List.length_append, List.length_singleton] at hle
        omega
      · rfl
    rw [hlive, Finset.card_erase_of_mem (h.shape.live _ (by simp)), hcard, hsame, List.length_cons]
    omega

theorem card_fill (alloc : Allocator) (init : α) (m : Nat) :
    ((State.fill alloc init)^[m] s).live.card = s.live.card + m := by
  induction m with
  | zero => rfl
  | succ m ih =>
      have hnew : (((State.fill alloc init)^[m] s).fill alloc init).live.card =
          ((State.fill alloc init)^[m] s).live.card + 1 := card_new alloc init
      rw [iterate_succ_apply', hnew, ih, Nat.add_assoc]

theorem create_owned (alloc : Allocator) (init : α) (size : Nat)
    (hsize : ∃ k, size = 2 ^ (k + 1)) (fillCache : Bool) :
    ∃ cached, Owned (create alloc init size hsize fillCache) [] cached := by
  obtain ⟨cached, hfilled, hlength, -⟩ := create_filled alloc init size hsize fillCache
  refine ⟨cached, .of_shape hfilled.shape ?_⟩
  rw [hlength]
  cases fillCache with
  | false => exact card_new alloc init
  | true =>
      have hfirst : (insert (alloc.choose 0 ∅) ∅ : Finset Addr).card = 1 := by simp
      refine (card_fill alloc init size).trans ?_
      rw [if_pos rfl, List.length_nil, Nat.zero_add, Nat.add_comm]
      exact congrArg _ hfirst

/-- Every pop of a list that holds `n` elements finds one. -/
def Covered : Nat → List (Op α) → Prop
  | _, [] => True
  | n, .push _ :: ops => Covered (n + 1) ops
  | n, .pop :: ops => 0 < n ∧ Covered (n - 1) ops

theorem Owned.run (alloc : Allocator) (empty : α) {ops : List (Op α)} (h : Owned s nodes cached)
    (hops : Covered nodes.length ops) :
    ∃ s' out nodes' cached', LinkedList.run alloc empty s ops = some (s', out) ∧
      Owned s' nodes' cached' := by
  induction ops generalizing s nodes cached with
  | nil => exact ⟨s, [], nodes, cached, rfl, h⟩
  | cons op ops ih =>
      cases op with
      | push e =>
          obtain ⟨s', nodes', cached', hpush, howned, hlength⟩ := h.push alloc e
          obtain ⟨u, out, nodes'', cached'', hrun, hend⟩ := ih howned (hlength ▸ hops)
          refine ⟨u, out, nodes'', cached'', ?_, hend⟩
          simp only [LinkedList.run, hpush, Option.bind_some, hrun]
      | pop =>
          obtain ⟨hpos, hrest⟩ := hops
          obtain ⟨b, nodes, rfl⟩ := List.exists_cons_of_length_pos hpos
          obtain ⟨s', x, cached', hpop, howned⟩ := h.pop empty
          obtain ⟨u, out, nodes'', cached'', hrun, hend⟩ := ih howned (by simpa using hrest)
          refine ⟨u, x :: out, nodes'', cached'', ?_, hend⟩
          simp only [LinkedList.run, hpop, Option.bind_some, hrun, Option.map_some]

theorem free_of_mem {a : Addr} (ha : a ∈ s.live) : s.free a = some (s.delete a) := if_pos ha

@[simp] theorem mem_delete {a b : Addr} : b ∈ (s.delete a).live ↔ b ∈ s.live ∧ b ≠ a := by
  rw [State.delete, Finset.mem_erase, and_comm]

/-- The first loop deletes the nodes of the cache and leaves the list. -/
theorem emptyCache_eq {n : Nat} (hcache : Holds 0 s.cache cached) (hnodup : cached.Nodup)
    (hlive : ∀ a ∈ cached, a ∈ s.live) (hfuel : cached.length < n) :
    ∃ s', s.emptyCache n = some s' ∧ s'.head = s.head ∧ s'.tail = s.tail ∧ s'.heap = s.heap ∧
      ∀ b, b ∈ s'.live ↔ b ∈ s.live ∧ b ∉ cached := by
  induction cached generalizing s n with
  | nil =>
      obtain ⟨n, rfl⟩ := Nat.exists_eq_succ_of_ne_zero (Nat.ne_zero_of_lt hfuel)
      refine ⟨s, ?_, rfl, rfl, rfl, by simp⟩
      simp only [State.emptyCache, hcache.pop_nil, if_true]
  | cons a rest ih =>
      obtain ⟨n, rfl⟩ := Nat.exists_eq_succ_of_ne_zero (Nat.ne_zero_of_lt hfuel)
      obtain ⟨hpop, hrest⟩ := hcache.pop_cons
      have ha : a ≠ 0 := hcache.proper a List.mem_cons_self
      rw [List.nodup_cons] at hnodup
      let u : State α := { s with cache := (s.cache.pop 0).1 }
      have hau : a ∈ u.live := hlive a List.mem_cons_self
      obtain ⟨s', hloop, hhead, htail, hheap, hfreed⟩ := ih (s := u.delete a) (n := n) hrest
        hnodup.2 (fun b hb => mem_delete.mpr ⟨hlive b (List.mem_cons_of_mem a hb),
          ne_of_mem_of_not_mem hb hnodup.1⟩) (Nat.lt_of_succ_lt_succ hfuel)
      refine ⟨s', ?_, hhead, htail, hheap, fun b => ?_⟩
      · rw [State.emptyCache, hpop, if_neg ha]
        exact (congrArg (·.bind (State.emptyCache n)) (free_of_mem hau)).trans hloop
      · rw [hfreed, mem_delete, List.mem_cons, not_or, and_assoc]

/-- The second loop deletes the nodes it walks over and the last one. It reads
a successor before it deletes the node. -/
theorem deleteNodes_eq {n : Nat}
    (hchain : List.IsChain (fun a b => (s.heap a).next = b) (s.head :: nodes))
    (htail : (s.head :: nodes).getLast? = some s.tail) (hnodup : (s.head :: nodes).Nodup)
    (hlive : ∀ a ∈ s.head :: nodes, a ∈ s.live) (hne : ∀ a ∈ s.head :: nodes, a ≠ 0)
    (hfuel : nodes.length < n) :
    ∃ s', s.deleteNodes n = some s' ∧ ∀ b, b ∈ s'.live ↔ b ∈ s.live ∧ b ∉ s.head :: nodes := by
  induction nodes generalizing s n with
  | nil =>
      obtain ⟨n, rfl⟩ := Nat.exists_eq_succ_of_ne_zero (Nat.ne_zero_of_lt hfuel)
      have heq : s.head = s.tail := by simpa using htail
      refine ⟨s.delete s.head, ?_, fun b => by simp⟩
      rw [State.deleteNodes, if_pos heq, if_neg (hne _ List.mem_cons_self)]
      exact free_of_mem (hlive _ List.mem_cons_self)
  | cons a nodes ih =>
      obtain ⟨n, rfl⟩ := Nat.exists_eq_succ_of_ne_zero (Nat.ne_zero_of_lt hfuel)
      obtain ⟨hnext, hrest⟩ := List.isChain_cons_cons.mp hchain
      have hlast : (a :: nodes).getLast? = some s.tail := by
        rwa [List.getLast?_cons_cons] at htail
      rw [List.nodup_cons] at hnodup
      have hhead : s.head ≠ s.tail := by
        intro heq
        rw [heq] at hnodup
        exact hnodup.1 (List.mem_of_getLast? hlast)
      let u : State α := { s with head := a }
      have hmem (b : Addr) (hb : b ∈ a :: nodes) : b ∈ (u.delete s.head).live :=
        mem_delete.mpr ⟨hlive b (List.mem_cons_of_mem _ hb), ne_of_mem_of_not_mem hb hnodup.1⟩
      obtain ⟨s', hloop, hfreed⟩ := ih (s := u.delete s.head) (n := n) hrest hlast hnodup.2 hmem
        (fun b hb => hne b (List.mem_cons_of_mem _ hb)) (Nat.lt_of_succ_lt_succ hfuel)
      refine ⟨s', ?_, fun b => ?_⟩
      · have hload : s.load s.head = some (s.heap s.head) := if_pos (hlive _ List.mem_cons_self)
        have hfree : u.free s.head = some (u.delete s.head) :=
          free_of_mem (hlive _ List.mem_cons_self)
        rw [State.deleteNodes, if_neg hhead]
        simp only [hload, Option.bind_some, hnext]
        exact (congrArg (·.bind (State.deleteNodes n)) hfree).trans hloop
      · rw [hfreed, mem_delete, List.mem_cons (b := s.head), not_or, and_assoc]
        exact Iff.rfl

/-- The destructor of a list that owns all nodes leaves none, and deletes none
twice. -/
theorem Owned.destroys (h : Owned s nodes cached) : ∃ s', s.Destroys s' ∧ s'.live = ∅ := by
  have hnodup := List.nodup_append.mp h.shape.nodup
  have hmem {a : Addr} (ha : a ∈ s.live) : a ∈ s.head :: nodes ∨ a ∈ cached := by
    rw [h.live_eq, List.mem_toFinset] at ha
    exact List.mem_append.mp ha
  obtain ⟨u, hcache, hhead, htail, hheap, hfreed⟩ := emptyCache_eq (n := nodes.length + cached.length + 1)
    h.shape.cache hnodup.2.1 (fun a ha => h.shape.live a (List.mem_append_right _ ha)) (by omega)
  have hulive (a : Addr) (ha : a ∈ u.head :: nodes) : a ∈ u.live := by
    rw [hhead] at ha
    exact (hfreed a).mpr ⟨h.shape.live a (List.mem_append_left _ ha), fun hc => hnodup.2.2 a ha a hc rfl⟩
  obtain ⟨s', hnodes, hfreed'⟩ := deleteNodes_eq (s := u)
    (n := nodes.length + cached.length + 1) (by rw [hhead, hheap]; exact h.shape.chain)
    (by rw [hhead, htail]; exact h.shape.tail_eq) (by rw [hhead]; exact hnodup.1) hulive
    (by rw [hhead]; exact h.shape.ne_zero) (by omega)
  refine ⟨s', ⟨nodes.length + cached.length + 1, ?_⟩, Finset.eq_empty_of_forall_notMem fun b hb => ?_⟩
  · rw [hcache]
    exact hnodes
  · rw [hfreed', hfreed, hhead] at hb
    rcases hmem hb.1.1 with hlist | hcached
    · exact hb.2 hlist
    · exact hb.1.2 hcached

/-- If every pop finds an element, no call touches memory that is not
allocated, and the destructor deletes every node exactly once. For this the
elements may have been mixed up by recycling. -/
theorem linkedList_frees_all (alloc : Allocator) (empty init : α) (size : Nat)
    (hsize : ∃ k, size = 2 ^ (k + 1)) (fillCache : Bool) {ops : List (Op α)}
    (hops : Covered 0 ops) :
    ∃ s out s', LinkedList.run alloc empty (create alloc init size hsize fillCache) ops =
      some (s, out) ∧ s.Destroys s' ∧ s'.live = ∅ := by
  obtain ⟨cached, howned⟩ := create_owned alloc init size hsize fillCache
  obtain ⟨s, out, nodes', cached', hrun, hend⟩ := howned.run alloc empty hops
  obtain ⟨s', hdestroys, hempty⟩ := hend.destroys
  exact ⟨s, out, s', hrun, hdestroys, hempty⟩

end Owned

/-- The second element goes into the node of the first. -/
theorem linkedList_frees_all_recycled : ∃ s out s',
    run bump (-1 : Int) (create bump 0 2 RingBuffer.Ring.two_eq_pow false)
      [.push 1, .pop, .push 2, .push 3, .pop] = some (s, out) ∧ s.Destroys s' ∧ s'.live = ∅ :=
  linkedList_frees_all bump (-1) 0 2 RingBuffer.Ring.two_eq_pow false (by simp [Covered])

end Libni.LinkedList
