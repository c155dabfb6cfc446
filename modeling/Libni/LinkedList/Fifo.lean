import Mathlib.Data.Finset.Lattice.Fold
import Libni.LinkedList.Recycling

/-!
The sequences of calls on which the linked list is a FIFO, from its
constructor on.
-/

namespace Libni.LinkedList

open Function
open Libni.RingBuffer (Holds)

variable {α : Type*} {alloc : Allocator} {empty init : α} {s s' : State α} {q : List α}
  {e : α} {ops : List (Op α)}

/-- What conforms from now on conforms after a push, with one more element
held. -/
theorem Conforms.push (h : Conforms alloc empty s q (.push e :: ops))
    (hpush : LinkedList.push alloc s e = some s') : Conforms alloc empty s' (q ++ [e]) ops := by
  intro pre hpre n
  have hfifo := h (.push e :: pre) (List.cons_prefix_cons.mpr ⟨rfl, hpre⟩) n
  simpa only [List.cons_append, run, hpush, Option.bind_some, fifoPops] using hfifo

theorem Conforms.pop {x : α} (h : Conforms alloc empty s q (.pop :: ops))
    (hpop : LinkedList.pop empty s = some (s', x)) : Conforms alloc empty s' q.tail ops := by
  intro pre hpre n
  have hfifo := h (.pop :: pre) (List.cons_prefix_cons.mpr ⟨rfl, hpre⟩) n
  simp only [List.cons_append, run, hpop, Option.bind_some, Option.map_map, fifoPops] at hfifo
  obtain ⟨r, hrun, hr⟩ := Option.map_eq_some_iff.mp hfifo
  rw [hrun, Option.map_some]
  exact congrArg some (List.cons.inj hr).2

theorem Proper.of_isPrefix {pre : List (Op α)} (h : Proper empty ops) (hpre : pre <+: ops) (n : Nat) :
    Proper empty (pre ++ List.replicate n .pop) := by
  intro e he
  rcases List.mem_append.mp he with hmem | hpop
  · exact h e (hpre.subset hmem)
  · cases List.eq_of_mem_replicate hpop

/-- From a state between calls the list is a FIFO on exactly the sequences
that recycle nothing. The induction is on the calls; the first one that takes
a node back is where the list fails. -/
theorem Good.conforms_iff {k i : Nat} {popped : Bool} {nodes spare recycled : List Addr}
    (h : Good empty init k i popped s q nodes spare recycled) (hproper : Proper empty ops) :
    Conforms alloc empty s q ops ↔ Clean init k i q.length popped ops := by
  refine ⟨fun hconforms => ?_,
    fun hclean pre hpre n => h.run (hproper.of_isPrefix hpre n) (hclean.of_isPrefix hpre n)⟩
  induction ops generalizing s q i popped nodes spare recycled with
  | nil => trivial
  | cons op ops ih =>
      have hrest : Proper empty ops := fun e he => hproper e (List.mem_cons_of_mem _ he)
      cases op with
      | push e =>
          have hstep : if i < k then e = init else popped = false := by
            split
            · next hi =>
                by_contra he
                exact h.not_conforms_spare hi he hconforms
            · next hi =>
                cases popped with
                | false => rfl
                | true => exact absurd hconforms (h.not_conforms_recycled hi)
          obtain ⟨s', _, _, hpush, hgood⟩ := h.push alloc (hproper e List.mem_cons_self) hstep
          refine ⟨hstep, ?_⟩
          have hclean := ih hgood hrest (hconforms.push hpush)
          rwa [List.length_append, List.length_singleton] at hclean
      | pop =>
          obtain ⟨s', _, _, hpop, hgood⟩ := h.pop
          have hclean := ih hgood hrest (hconforms.pop hpop)
          rwa [List.length_tail] at hclean

/-- An empty list whose cache holds nodes made by `Node()` only. -/
structure Filled (init : α) (s : State α) (cached : List Addr) : Prop where
  shape : Shape s [] cached []
  end_null : (s.heap s.tail).next = 0
  cached_eq : ∀ a ∈ cached, s.heap a = ⟨init, 0⟩

theorem Filled.fill {cached : List Addr} (alloc : Allocator) (h : Filled init s cached)
    (hroom : cached.length < s.cache.size) :
    ∃ n, Filled init (s.fill alloc init) (cached ++ [n]) := by
  have hshape := h.shape
  have hfresh := alloc.notMem s.allocated s.live
  have hzero := alloc.ne_zero s.allocated s.live
  have hpush := hshape.cache.push_of_lt hroom hzero
  have hfill : s.fill alloc init = ⟨s.head, s.tail,
      (s.cache.push 0 (alloc.choose s.allocated s.live)).1,
      update s.heap (alloc.choose s.allocated s.live) ⟨init, 0⟩,
      insert (alloc.choose s.allocated s.live) s.live, s.allocated + 1⟩ := rfl
  rw [hfill]
  generalize alloc.choose s.allocated s.live = n at hfresh hzero hpush
  have hout {a : Addr} (ha : a ∈ [s.head] ++ cached) : a ≠ n := by
    rintro rfl
    exact hfresh (hshape.live _ ha)
  refine ⟨n, ⟨List.isChain_singleton _, hshape.tail_eq, rfl, hpush.2, ?_, ?_,
    hshape.ne_zero⟩, ?_, ?_⟩
  · rw [← List.append_assoc, List.nodup_append]
    refine ⟨hshape.nodup, List.nodup_singleton n, ?_⟩
    intro a ha b hb
    rw [List.mem_singleton.mp hb]
    exact hout ha
  · intro a ha
    rw [← List.append_assoc, List.mem_append, List.mem_singleton] at ha
    rcases ha with hold | rfl
    · exact Finset.mem_insert_of_mem (hshape.live a hold)
    · exact Finset.mem_insert_self _ _
  · simp only [update_of_ne (hout (List.mem_append_left _ hshape.tail_mem))]
    exact h.end_null
  · intro a ha
    rcases List.mem_append.mp ha with hold | hnew
    · simp only [update_of_ne (hout (List.mem_append_right _ hold))]
      exact h.cached_eq a hold
    · rw [List.mem_singleton.mp hnew]
      simp

theorem Filled.iterate (h : Filled init s []) (m : Nat) (hm : m ≤ s.cache.size) :
    ∃ cached, Filled init ((State.fill alloc init)^[m] s) cached ∧ cached.length = m ∧
      ((State.fill alloc init)^[m] s).cache.size = s.cache.size := by
  induction m with
  | zero => exact ⟨[], h, rfl, rfl⟩
  | succ m ih =>
      obtain ⟨cached, hfilled, hlength, hsize⟩ := ih (by omega)
      obtain ⟨n, hnext⟩ := hfilled.fill alloc (by omega)
      rw [Function.iterate_succ_apply']
      refine ⟨cached ++ [n], hnext, by simp [hlength], ?_⟩
      rw [← hsize]
      exact Holds.size_push

theorem create_filled (alloc : Allocator) (init : α) (size : Nat)
    (hsize : ∃ k, size = 2 ^ (k + 1)) (fillCache : Bool) :
    ∃ cached, Filled init (create alloc init size hsize fillCache) cached ∧
      cached.length = (if fillCache = true then size else 0) ∧
      (create alloc init size hsize fillCache).cache.size = size := by
  let s : State α := ⟨alloc.choose 0 ∅, alloc.choose 0 ∅, RingBuffer.Ring.new 0 size hsize,
    update (fun _ => ⟨init, 0⟩) (alloc.choose 0 ∅) ⟨init, 0⟩, insert (alloc.choose 0 ∅) ∅, 1⟩
  have hcreate : create alloc init size hsize fillCache =
      if fillCache = true then (State.fill alloc init)^[size] s else s := rfl
  have hfilled : Filled init s [] := by
    refine ⟨⟨List.isChain_singleton _, rfl, rfl, Holds.new size hsize, by simp, ?_, ?_⟩, ?_,
      by simp⟩
    · intro a ha
      obtain rfl : a = s.head := by simpa using ha
      exact Finset.mem_insert_self _ _
    · intro a ha
      obtain rfl : a = s.head := by simpa using ha
      exact alloc.ne_zero 0 ∅
    · simp [s]
  rw [hcreate]
  cases fillCache with
  | false => exact ⟨[], hfilled, rfl, rfl⟩
  | true => exact hfilled.iterate size le_rfl

/-- The linked list is a FIFO on a sequence of calls if and only if the pushes
into nodes of `fill_cache` push `T()` and no later push comes after a pop that
returned an element, that is, takes its node back. -/
theorem linkedList_conforms_iff (alloc : Allocator) (size : Nat)
    (hsize : ∃ k, size = 2 ^ (k + 1)) (fillCache : Bool) (hproper : Proper empty ops) :
    Conforms alloc empty (create alloc init size hsize fillCache) [] ops ↔
      Clean init (if fillCache = true then size else 0) 0 0 false ops := by
  obtain ⟨cached, hfilled, hlength, hcache⟩ :=
    create_filled alloc init size hsize fillCache
  have hgood : Good empty init (if fillCache = true then size else 0) 0 false
      (create alloc init size hsize fillCache) [] [] cached [] := by
    refine ⟨by rw [List.append_nil]; exact hfilled.shape, hfilled.end_null, by simp,
      hfilled.cached_eq, by simpa using hlength, ?_, by simp, by simp, by simp⟩
    rw [hcache]
    split <;> omega
  exact hgood.conforms_iff hproper

/-- The allocator that takes the address after the largest one in use. -/
def bump : Allocator where
  choose := fun _ live => live.sup id + 1
  ne_zero _ _ := Nat.succ_ne_zero _
  notMem _ _ hmem := Nat.not_succ_le_self _ (Finset.le_sup (f := id) hmem)

theorem linkedList_conforms_iff_no_reuse :
    Conforms bump (-1 : Int) (create bump 0 4 RingBuffer.Ring.four_eq_pow true) []
      [.push 0, .pop, .push 0, .push 0, .push 0, .pop] := by
  have hproper : Proper (-1 : Int) [.push 0, .pop, .push 0, .push 0, .push 0, .pop] := by
    intro e he
    simp at he
    subst he
    decide
  refine (linkedList_conforms_iff bump 4 RingBuffer.Ring.four_eq_pow true hproper).mpr ?_
  simp [Clean]

/-- The second push gets the node the first pop gave back, and the second pop
returns what that node held before. -/
theorem linkedList_not_fifo :
    (run bump (-1 : Int) (create bump 0 2 RingBuffer.Ring.two_eq_pow false)
      [.push 1, .pop, .push 2, .pop]).map
        Prod.snd = some [1, 0] ∧
      fifoPops (-1 : Int) [] [.push 1, .pop, .push 2, .pop] = [1, 2] ∧
      ¬ Conforms bump (-1 : Int) (create bump 0 2 RingBuffer.Ring.two_eq_pow false) []
        [.push 1, .pop, .push 2, .pop] := by
  have hrun : (run bump (-1 : Int) (create bump 0 2 RingBuffer.Ring.two_eq_pow false)
      [.push 1, .pop, .push 2, .pop]).map Prod.snd = some [1, 0] := by decide +kernel
  refine ⟨hrun, rfl, fun hconforms => ?_⟩
  have hfifo := hconforms _ (List.prefix_refl _) 0
  rw [List.replicate_zero, List.append_nil, hrun] at hfifo
  cases hfifo

end Libni.LinkedList
