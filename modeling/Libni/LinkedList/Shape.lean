import Mathlib.Data.List.Chain
import Libni.LinkedList.Model

/-!
The shape of the linked list: the nodes from the head to the tail, the elements
they carry and the nodes kept in the cache, all allocated and distinct. The
successor of the tail is left open, because a node taken from the cache becomes
the tail with whatever successor it last had.
-/

namespace Libni.LinkedList

open Function
open Libni.RingBuffer (Holds)

variable {α : Type*}

/-- The head and the nodes behind it are chained up to the tail, carry the
elements of `q`, and are distinct from each other and from those of the cache;
all of them are allocated. -/
structure Shape (s : State α) (nodes cached : List Addr) (q : List α) : Prop where
  chain : List.IsChain (fun a b => (s.heap a).next = b) (s.head :: nodes)
  tail_eq : (s.head :: nodes).getLast? = some s.tail
  data : nodes.map (fun a => (s.heap a).data) = q
  cache : Holds 0 s.cache cached
  nodup : (s.head :: nodes ++ cached).Nodup
  live : ∀ a ∈ s.head :: nodes ++ cached, a ∈ s.live
  ne_zero : ∀ a ∈ s.head :: nodes, a ≠ 0

namespace Shape

variable {s : State α} {nodes cached rest : List Addr} {q : List α} {b n : Addr}

theorem tail_mem (h : Shape s nodes cached q) : s.tail ∈ s.head :: nodes :=
  List.mem_of_getLast? h.tail_eq

theorem tail_live (h : Shape s nodes cached q) : s.tail ∈ s.live :=
  h.live _ (List.mem_append_left _ h.tail_mem)

/-- Only the tail's successor is written when a node is linked, so the chain
before it stays. -/
theorem chain_link (h : Shape s nodes cached q) {heap : Addr → Node α}
    (hheap : ∀ a ∈ s.head :: nodes, a ≠ s.tail → (heap a).next = (s.heap a).next)
    (htail : (heap s.tail).next = n) :
    List.IsChain (fun a b => (heap a).next = b) (s.head :: (nodes ++ [n])) := by
  rw [← List.cons_append, List.isChain_append]
  refine ⟨?_, List.isChain_singleton _, ?_⟩
  · rw [List.isChain_iff_forall_rel_of_append_cons_cons]
    intro a b before after heq
    have hnext := List.isChain_iff_forall_rel_of_append_cons_cons.mp h.chain heq
    have hnodup : (s.head :: nodes).Nodup := (List.nodup_append.mp h.nodup).1
    have hlast := h.tail_eq
    rw [heq] at hnodup hlast
    have ha : a ≠ s.tail := by
      rintro rfl
      rw [List.getLast?_append_cons, List.getLast?_cons_cons] at hlast
      have hmem := List.mem_of_getLast? hlast
      exact (List.nodup_cons.mp (List.nodup_append.mp hnodup).2.1).1 hmem
    rw [hheap a (by rw [heq]; simp) ha]
    exact hnext
  · intro a ha b hb
    rw [h.tail_eq, Option.mem_some_iff] at ha
    simp only [List.head?_cons, Option.mem_some_iff] at hb
    rw [← ha, ← hb]
    exact htail

theorem getLast?_snoc (a : Addr) (l : List Addr) : (a :: (l ++ [n])).getLast? = some n := by
  rw [← List.cons_append, List.getLast?_concat]

theorem ne_tail_of_cached (h : Shape s nodes cached q) {a : Addr} (ha : a ∈ cached) :
    a ≠ s.tail := by
  rintro rfl
  exact (List.nodup_append.mp h.nodup).2.2 _ h.tail_mem _ ha rfl

/-- A push that finds a node in the cache links it with the data it has. The
element of the call is not stored anywhere. -/
theorem push_cached (alloc : Allocator) (e : α) (h : Shape s nodes (n :: rest) q) :
    ∃ s', push alloc s e = some s' ∧ Shape s' (nodes ++ [n]) rest (q ++ [(s.heap n).data]) ∧
      s'.heap = update s.heap s.tail { s.heap s.tail with next := n } ∧
      s'.cache.size = s.cache.size := by
  obtain ⟨hpop, hcache⟩ := h.cache.pop_cons
  have hn : n ≠ 0 := h.cache.proper n List.mem_cons_self
  have hdata (a : Addr) : (update s.heap s.tail { s.heap s.tail with next := n } a).data =
      (s.heap a).data := by
    by_cases ha : a = s.tail
    · rw [ha, update_self]
    · rw [update_of_ne ha]
  refine ⟨⟨s.head, n, (s.cache.pop 0).1,
    update s.heap s.tail { s.heap s.tail with next := n }, s.live, s.allocated⟩, ?_,
    ⟨?_, getLast?_snoc _ _, ?_, hcache, ?_, ?_, ?_⟩, rfl, by simp⟩
  · simp only [push, hpop, if_neg hn, State.link, State.setNext, if_pos h.tail_live,
      Option.map_some]
  · refine h.chain_link (fun a _ ha => ?_) ?_
    · simp only [update_of_ne ha]
    · simp only [update_self]
  · simp only [hdata, List.map_append, h.data, List.map_cons, List.map_nil]
  · simpa using h.nodup
  · intro a ha
    exact h.live a (by simpa using ha)
  · intro a ha
    rcases List.mem_append.mp (List.cons_append ▸ ha) with hold | hnew
    · exact h.ne_zero a hold
    · rw [List.mem_singleton.mp hnew]
      exact hn

/-- A push that finds the cache empty links a new node with its element, which
ends the list. -/
theorem push_new (alloc : Allocator) (e : α) (h : Shape s nodes [] q) :
    ∃ s' n, push alloc s e = some s' ∧ Shape s' (nodes ++ [n]) [] (q ++ [e]) ∧
      (s'.heap s'.tail).next = 0 ∧ s'.cache.size = s.cache.size ∧ s'.head = s.head ∧
      (s'.heap s.head).data = (s.heap s.head).data := by
  have hpop : s.cache.pop 0 = (s.cache, 0) := h.cache.pop_nil
  have hfresh := alloc.notMem s.allocated s.live
  have hzero := alloc.ne_zero s.allocated s.live
  generalize hn : alloc.choose s.allocated s.live = n at hfresh hzero
  have hout {a : Addr} (ha : a ∈ s.head :: nodes) : a ≠ n := by
    rintro rfl
    exact hfresh (h.live _ (List.mem_append_left _ ha))
  have htail := hout h.tail_mem
  have hlive : s.tail ∈ insert n s.live := Finset.mem_insert_of_mem h.tail_live
  have hdata {a : Addr} (ha : a ∈ s.head :: nodes) :
      (update (update s.heap n ⟨e, 0⟩) s.tail ⟨(s.heap s.tail).data, n⟩ a).data =
        (s.heap a).data := by
    by_cases hat : a = s.tail
    · rw [hat, update_self]
    · rw [update_of_ne hat, update_of_ne (hout ha)]
  have hself : update (update s.heap n ⟨e, 0⟩) s.tail ⟨(s.heap s.tail).data, n⟩ n = ⟨e, 0⟩ := by
    rw [update_of_ne htail.symm, update_self]
  refine ⟨⟨s.head, n, s.cache,
    update (update s.heap n ⟨e, 0⟩) s.tail ⟨(s.heap s.tail).data, n⟩, insert n s.live,
    s.allocated + 1⟩, n, ?_, ⟨?_, getLast?_snoc _ _, ?_, h.cache, ?_, ?_, ?_⟩, ?_, rfl, rfl,
    hdata List.mem_cons_self⟩
  · simp only [push, hpop, if_pos, State.link, State.setNext, State.new, hn, if_pos hlive,
      Option.map_some, update_of_ne htail]
  · refine h.chain_link (fun a ha hat => ?_) ?_
    · simp only [update_of_ne hat, update_of_ne (hout ha)]
    · simp only [update_self]
  · simp only [List.map_append, List.map_cons, List.map_nil, hself]
    rw [List.map_congr_left fun a ha => hdata (List.mem_cons_of_mem _ ha), h.data]
  · have hnodup := h.nodup
    rw [List.append_nil] at hnodup ⊢
    rw [← List.cons_append, List.nodup_append]
    refine ⟨hnodup, List.nodup_singleton n, ?_⟩
    intro a ha b hb
    rw [List.mem_singleton.mp hb]
    exact hout ha
  · intro a ha
    rw [List.append_nil, ← List.cons_append, List.mem_append, List.mem_singleton] at ha
    rcases ha with hold | rfl
    · exact Finset.mem_insert_of_mem (h.live a (by simpa using hold))
    · exact Finset.mem_insert_self _ _
  · intro a ha
    rcases List.mem_append.mp (List.cons_append ▸ ha) with hold | hnew
    · exact h.ne_zero a hold
    · rw [List.mem_singleton.mp hnew]
      exact hzero
  · simp only [hself]

/-- A pop with a node behind the head returns that node's data; the old head
goes to the cache if there is room. -/
theorem pop_cons (empty : α) (h : Shape s (b :: nodes) cached q) :
    ∃ s' cached', pop empty s = some (s', (s.heap b).data) ∧ Shape s' nodes cached' q.tail ∧
      s'.heap = s.heap ∧ s'.tail = s.tail ∧ s'.cache.size = s.cache.size ∧
      (cached' = cached ++ [s.head] ∨ (cached' = cached ∧ ¬ cached.length < s.cache.size)) := by
  have hhead : s.head ∈ s.live := h.live _ (by simp)
  have hb : b ∈ s.live := h.live _ (by simp)
  have hnext : (s.heap s.head).next = b := (List.isChain_cons_cons.mp h.chain).1
  have hchain := (List.isChain_cons_cons.mp h.chain).2
  have hbzero : b ≠ 0 := h.ne_zero b (by simp)
  have hpop : pop empty s =
      some (({ s with head := b } : State α).recycle s.head, (s.heap b).data) := by
    simp only [pop, State.load, if_pos hhead, Option.bind_some, hnext, if_neg hbzero, if_pos hb,
      Option.map_some]
  have htail : (b :: nodes).getLast? = some s.tail := by
    rw [← List.getLast?_cons_cons (a := s.head)]
    exact h.tail_eq
  have hdata : nodes.map (fun a => (s.heap a).data) = q.tail := by
    rw [← h.data]
    rfl
  have hnodup := h.nodup
  rw [List.cons_append, List.nodup_cons] at hnodup
  have hzero {a : Addr} (ha : a ∈ b :: nodes) : a ≠ 0 := h.ne_zero a (List.mem_cons_of_mem _ ha)
  have hheadzero : s.head ≠ 0 := h.ne_zero s.head List.mem_cons_self
  by_cases hroom : cached.length < s.cache.size
  · have hpush := h.cache.push_of_lt hroom hheadzero
    refine ⟨_, cached ++ [s.head], hpop, ?_⟩
    rw [State.recycle, if_pos hpush.1]
    refine ⟨⟨hchain, htail, hdata, hpush.2, ?_, ?_, fun a => hzero⟩, rfl, rfl, by simp,
      Or.inl rfl⟩
    · rw [← List.append_assoc]
      exact (List.perm_append_singleton _ _).nodup_iff.mpr (List.nodup_cons.mpr hnodup)
    · intro a ha
      apply h.live a
      rw [← List.append_assoc] at ha
      exact (List.perm_append_singleton _ _).mem_iff.mp ha
  · have hpush := h.cache.push_of_full hroom (e := s.head)
    refine ⟨_, cached, hpop, ?_⟩
    rw [State.recycle, hpush, if_neg (by simp)]
    refine ⟨⟨hchain, htail, hdata, h.cache, hnodup.2, ?_, fun a => hzero⟩, rfl, rfl, rfl,
      Or.inr ⟨rfl, hroom⟩⟩
    intro a ha
    have hne : a ≠ s.head := by
      rintro rfl
      exact hnodup.1 ha
    exact Finset.mem_erase.mpr ⟨hne, h.live a (List.mem_cons_of_mem _ ha)⟩

end Shape

end Libni.LinkedList
