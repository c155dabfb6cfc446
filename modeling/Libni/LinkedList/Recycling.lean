import Libni.LinkedList.Shape

/-!
What the recycling of nodes does to the linked list. A push stores its element
only in a node it allocates. A node from the cache keeps its data, and unless
`fill_cache` put it there its successor as well, which then follows the tail.
So the list is a FIFO exactly as long as no push takes a node out of the cache,
except for `T()` into the nodes `fill_cache` made.
-/

namespace Libni.LinkedList

open Function
open Libni.RingBuffer (Holds)

variable {α : Type*} {alloc : Allocator} {empty init : α} {s : State α} {q : List α}

theorem run_append (s : State α) (ops ops' : List (Op α)) :
    run alloc empty s (ops ++ ops') = (run alloc empty s ops).bind fun r =>
      (run alloc empty r.1 ops').map fun r' => (r'.1, r.2 ++ r'.2) := by
  induction ops generalizing s with
  | nil =>
      simp only [List.nil_append, run, Option.bind_some]
      cases run alloc empty s ops' <;> rfl
  | cons op ops ih =>
      cases op with
      | push e =>
          simp only [List.cons_append, run]
          cases push alloc s e with
          | none => rfl
          | some s' => exact ih s'
      | pop =>
          simp only [List.cons_append, run]
          cases pop empty s with
          | none => rfl
          | some r =>
              simp only [Option.bind_some, ih]
              cases run alloc empty r.1 ops with
              | none => rfl
              | some r' =>
                  simp only [Option.bind_some, Option.map_some]
                  cases run alloc empty r'.1 ops' <;> rfl

theorem fifoPops_drain (empty : α) (q : List α) (ops : List (Op α)) :
    fifoPops empty q (List.replicate q.length .pop ++ ops) = q ++ fifoPops empty [] ops := by
  induction q with
  | nil => rfl
  | cons e q ih =>
      rw [List.length_cons, List.replicate_succ]
      exact congrArg (e :: ·) ih

/-- As many pops as there are elements return them, whatever follows the tail. -/
theorem Shape.drain {nodes cached : List Addr} (alloc : Allocator) (empty : α)
    (h : Shape s nodes cached q) :
    ∃ s' cached', run alloc empty s (List.replicate q.length .pop) = some (s', q) ∧
      Shape s' [] cached' [] ∧ s'.heap = s.heap ∧ s'.tail = s.tail := by
  induction nodes generalizing s cached q with
  | nil =>
      obtain rfl : [] = q := h.data
      exact ⟨s, cached, rfl, h, rfl, rfl⟩
  | cons b nodes ih =>
      obtain rfl : _ = q := h.data
      obtain ⟨s', cached', hpop, hshape, hheap, htail, -⟩ := h.pop_cons empty
      obtain ⟨s'', cached'', hrun, hshape', hheap', htail'⟩ := ih hshape
      refine ⟨s'', cached'', ?_, hshape', hheap'.trans hheap, htail'.trans htail⟩
      simp only [List.map_cons, List.length_cons, List.replicate_succ, run, hpop,
        Option.bind_some]
      simp only [List.map_cons, List.tail_cons] at hrun
      rw [hrun]
      rfl

theorem Shape.pop_nil {cached : List Addr} (h : Shape s [] cached q)
    (hnull : (s.heap s.tail).next = 0) : pop empty s = some (s, empty) := by
  have htail : s.head = s.tail := by simpa using h.tail_eq
  have hlive : s.head ∈ s.live := h.live _ (by simp)
  rw [← htail] at hnull
  simp only [pop, State.load, if_pos hlive, Option.bind_some, hnull, if_pos]

/-- The list between calls: `i` elements have been pushed, `k` nodes were made
by `fill_cache`, and `popped` says whether a pop has returned an element. The
cache holds what is left of the `k` nodes and then the recycled ones, which
still point at the node that came behind them. -/
structure Good (empty init : α) (k i : Nat) (popped : Bool) (s : State α) (q : List α)
    (nodes spare recycled : List Addr) : Prop where
  shape : Shape s nodes (spare ++ recycled) q
  end_null : (s.heap s.tail).next = 0
  proper : ∀ e ∈ q, e ≠ empty
  spare_eq : ∀ a ∈ spare, s.heap a = ⟨init, 0⟩
  spare_length : spare.length = k - i
  le_size : k ≤ s.cache.size
  started : q ≠ [] → 0 < i
  recycled_next : ∀ a ∈ recycled,
    (s.heap a).next ≠ 0 ∧ (s.heap (s.heap a).next).data ≠ empty
  recycled_iff : popped = true ↔ recycled ≠ []

namespace Good

variable {k i : Nat} {popped : Bool} {nodes spare recycled : List Addr} {e : α}

/-- Pushing `T()` into a node of `fill_cache`, or any element while the cache
is empty. These are the pushes that store what they are given. -/
theorem push (alloc : Allocator) (h : Good empty init k i popped s q nodes spare recycled)
    (he : e ≠ empty)
    (hclean : if i < k then e = init else popped = false) :
    ∃ s' nodes' spare', LinkedList.push alloc s e = some s' ∧
      Good empty init k (i + 1) popped s' (q ++ [e]) nodes' spare' recycled := by
  have hproper : ∀ x ∈ q ++ [e], x ≠ empty := by
    intro x hx
    rcases List.mem_append.mp hx with hold | hnew
    · exact h.proper x hold
    · rw [List.mem_singleton.mp hnew]
      exact he
  have hlength := h.spare_length
  cases spare with
  | cons n spare =>
      rw [List.length_cons] at hlength
      rw [if_pos (by omega)] at hclean
      obtain ⟨s', hpush, hshape, hheap, hsize⟩ := h.shape.push_cached alloc e
      have hn : s.heap n = ⟨init, 0⟩ := h.spare_eq n List.mem_cons_self
      have htail : s'.tail = n := by
        have := hshape.tail_eq
        rw [Shape.getLast?_snoc, Option.some.injEq] at this
        exact this.symm
      have hkeep (a : Addr) (ha : a ∈ n :: spare ++ recycled) : s'.heap a = s.heap a := by
        rw [hheap, update_of_ne (h.shape.ne_tail_of_cached ha)]
      have hdata (a : Addr) : (s'.heap a).data = (s.heap a).data := by
        rw [hheap]
        by_cases ha : a = s.tail
        · rw [ha, update_self]
        · rw [update_of_ne ha]
      rw [hn, ← hclean] at hshape
      refine ⟨s', nodes ++ [n], spare, hpush, hshape, ?_, hproper, ?_, by omega,
        hsize ▸ h.le_size, fun _ => Nat.succ_pos i, ?_, h.recycled_iff⟩
      · rw [htail, hkeep n (by simp), hn]
      · intro a ha
        rw [hkeep a (by simp [ha])]
        exact h.spare_eq a (List.mem_cons_of_mem _ ha)
      · intro a ha
        rw [hkeep a (by simp [ha]), hdata]
        exact h.recycled_next a ha
  | nil =>
      rw [List.length_nil] at hlength
      rw [if_neg (by omega)] at hclean
      have hnone : recycled = [] := by
        by_contra hne
        rw [h.recycled_iff.mpr hne] at hclean
        cases hclean
      subst hnone
      obtain ⟨s', n, hpush, hshape, hnull, hsize, -⟩ := h.shape.push_new alloc e
      exact ⟨s', nodes ++ [n], [], hpush, hshape, hnull, hproper, by simp,
        by rw [List.length_nil]; omega, hsize ▸ h.le_size, fun _ => Nat.succ_pos i, by simp,
        h.recycled_iff⟩

/-- A pop keeps the list in order, whether it finds an element or not; what it
recycles goes behind the nodes of `fill_cache`. -/
theorem pop (h : Good empty init k i popped s q nodes spare recycled) :
    ∃ s' nodes' recycled', LinkedList.pop empty s = some (s', q.headD empty) ∧
      Good empty init k i (popped || decide (0 < q.length)) s' q.tail nodes' spare
        recycled' := by
  have hshape := h.shape
  cases nodes with
  | nil =>
      obtain rfl : [] = q := hshape.data
      exact ⟨s, [], recycled, hshape.pop_nil h.end_null, by simpa using h⟩
  | cons b nodes =>
      obtain rfl : _ = q := hshape.data
      obtain ⟨s', cached', hpop, hshape', hheap, htail, hsize, hcached⟩ :=
        hshape.pop_cons empty
      have hhead : (s.heap s.head).next ≠ 0 ∧
          (s.heap (s.heap s.head).next).data ≠ empty := by
        rw [(List.isChain_cons_cons.mp hshape.chain).1]
        exact ⟨hshape.ne_zero b (by simp), h.proper _ (by simp)⟩
      have hstarted := h.started (by simp)
      have hlength := h.spare_length
      have hroom : recycled = [] → (spare ++ recycled).length < s.cache.size := by
        rintro rfl
        have hle := h.le_size
        have hpos := s.cache.size_pos
        rw [List.append_nil]
        omega
      have hgood (recycled' : List Addr) (heq : cached' = spare ++ recycled')
          (hmem : ∀ a ∈ recycled', a ∈ recycled ∨ a = s.head) (hne : recycled' ≠ []) :
          Good empty init k i
            (popped || decide (0 < ((b :: nodes).map fun a => (s.heap a).data).length)) s'
            ((b :: nodes).map fun a => (s.heap a).data).tail nodes spare recycled' := by
        subst heq
        refine ⟨hshape', by rw [htail, hheap]; exact h.end_null,
          fun x hx => h.proper x (List.mem_of_mem_tail hx), by rw [hheap]; exact h.spare_eq,
          hlength, hsize ▸ h.le_size, fun _ => hstarted, ?_, by simpa using hne⟩
        intro a ha
        rw [hheap]
        rcases hmem a ha with hold | rfl
        · exact h.recycled_next a hold
        · exact hhead
      rcases hcached with heq | ⟨heq, hfull⟩
      · refine ⟨s', nodes, recycled ++ [s.head], hpop, hgood _ ?_ ?_ (by simp)⟩
        · rw [heq, List.append_assoc]
        · intro a ha
          simpa using ha
      · exact ⟨s', nodes, recycled, hpop,
          hgood _ heq (fun a ha => Or.inl ha) fun hnil => hfull (hroom hnil)⟩

end Good

/-- With `i` elements pushed before, `n` of them stored and `popped` saying
whether a pop has returned one: each of the first `k` pushes is of `T()`, and
no later one comes after a pop that returned an element. -/
def Clean (init : α) (k : Nat) : Nat → Nat → Bool → List (Op α) → Prop
  | _, _, _, [] => True
  | i, n, popped, .push element :: ops =>
      (if i < k then element = init else popped = false) ∧
        Clean init k (i + 1) (n + 1) popped ops
  | i, n, popped, .pop :: ops => Clean init k i (n - 1) (popped || decide (0 < n)) ops

/-- The calls of a list only push elements different from `Empty`. -/
def Proper (empty : α) (ops : List (Op α)) : Prop := ∀ e, .push e ∈ ops → e ≠ empty

/-- The list that holds `q` behaves as a FIFO on a sequence of calls and loses
nothing on the way: whenever it is emptied by pops, everything comes out. -/
def Conforms (alloc : Allocator) (empty : α) (s : State α) (q : List α)
    (ops : List (Op α)) : Prop :=
  ∀ pre, pre <+: ops → ∀ n,
    (run alloc empty s (pre ++ List.replicate n .pop)).map Prod.snd =
      some (fifoPops empty q (pre ++ List.replicate n .pop))

theorem Clean.pops {k i n : Nat} {popped : Bool} (m : Nat) :
    Clean init k i n popped (List.replicate m (.pop : Op α)) := by
  induction m generalizing n popped with
  | zero => trivial
  | succ m ih => exact ih

theorem Clean.of_isPrefix {k i n : Nat} {popped : Bool} {pre ops : List (Op α)} (hpre : pre <+: ops)
    (h : Clean init k i n popped ops) (m : Nat) :
    Clean init k i n popped (pre ++ List.replicate m .pop) := by
  induction pre generalizing ops i n popped with
  | nil => exact Clean.pops m
  | cons op pre ih =>
      obtain ⟨rest, rfl⟩ := hpre
      have hrest : pre <+: pre ++ rest := List.prefix_append pre rest
      cases op with
      | push e => exact ⟨h.1, ih hrest h.2⟩
      | pop => exact ih hrest h

/-- Calls that recycle nothing return what a FIFO returns, by induction on the
calls. -/
theorem Good.run {k i : Nat} {popped : Bool} {nodes spare recycled : List Addr}
    {ops : List (Op α)} (h : Good empty init k i popped s q nodes spare recycled)
    (hproper : Proper empty ops) (hclean : Clean init k i q.length popped ops) :
    (LinkedList.run alloc empty s ops).map Prod.snd = some (fifoPops empty q ops) := by
  induction ops generalizing s q i popped nodes spare recycled with
  | nil => rfl
  | cons op ops ih =>
      have hrest : Proper empty ops := fun e he => hproper e (List.mem_cons_of_mem _ he)
      cases op with
      | push e =>
          obtain ⟨s', _, _, hpush, hgood⟩ :=
            h.push alloc (hproper e List.mem_cons_self) hclean.1
          simp only [LinkedList.run, hpush, Option.bind_some, fifoPops]
          exact ih hgood hrest (by simpa using hclean.2)
      | pop =>
          obtain ⟨s', _, _, hpop, hgood⟩ := h.pop
          have hlater := ih hgood hrest (by rw [List.length_tail]; exact hclean)
          obtain ⟨r, hrun, hr⟩ := Option.map_eq_some_iff.mp hlater
          simp only [LinkedList.run, hpop, Option.bind_some, hrun, Option.map_some, hr, fifoPops]

section Recycled

variable {nodes cached rest : List Addr} {e : α} {n : Addr}

theorem fifoPops_push_drain (q : List α) (e : α) (m : Nat) :
    fifoPops empty q (.push e :: List.replicate (q.length + 1 + m) .pop) =
      q ++ [e] ++ fifoPops empty [] (List.replicate m .pop) := by
  have h := fifoPops_drain empty (q ++ [e]) (List.replicate m .pop)
  rw [List.length_append, List.length_singleton, List.replicate_append_replicate] at h
  exact h

/-- Emptying the list after a push into a node of the cache brings out the
data of that node. -/
theorem Shape.drain_cached (alloc : Allocator) (empty e : α)
    (h : Shape s nodes (n :: rest) q) (m : Nat) :
    ∃ s', (run alloc empty s (.push e :: List.replicate (q.length + 1 + m) .pop)).map Prod.snd =
        (run alloc empty s' (List.replicate m .pop)).map
          (fun r => q ++ [(s.heap n).data] ++ r.2) ∧
      s'.head ∈ s'.live ∧
      s'.heap = update s.heap s.tail { s.heap s.tail with next := n } ∧ s'.head = n := by
  obtain ⟨s₁, hpush, hshape, hheap, _⟩ := h.push_cached alloc e
  obtain ⟨s₂, cached, hrun, hshape', hheap', htail'⟩ :=
    hshape.drain alloc empty
  have htail : s₁.tail = n := by
    have := hshape.tail_eq
    rw [getLast?_snoc, Option.some.injEq] at this
    exact this.symm
  have hhead : s₂.head = s₂.tail := by simpa using hshape'.tail_eq
  refine ⟨s₂, ?_, hshape'.live _ (by simp), hheap'.trans hheap,
    hhead.trans (htail'.trans htail)⟩
  simp only [run, hpush, Option.bind_some]
  rw [← List.replicate_append_replicate, run_append]
  rw [List.length_append, List.length_singleton] at hrun
  rw [hrun]
  simp only [Option.bind_some, Option.map_map]
  rfl

/-- A node of `fill_cache` carries `T()`, whatever was pushed, so that `T()`
comes out in place of another element. -/
theorem Good.not_conforms_spare {k i : Nat} {popped : Bool} {spare recycled : List Addr}
    {ops : List (Op α)} (h : Good empty init k i popped s q nodes spare recycled) (hi : i < k)
    (he : e ≠ init) : ¬ Conforms alloc empty s q (.push e :: ops) := by
  intro hconforms
  have hlength := h.spare_length
  obtain ⟨n, spare, rfl⟩ := List.exists_cons_of_length_pos (by omega : 0 < spare.length)
  obtain ⟨s', hrun, _⟩ := h.shape.drain_cached alloc empty e 0
  have hfifo := hconforms [.push e] (by simp) (q.length + 1 + 0)
  rw [List.singleton_append, hrun, fifoPops_push_drain, h.spare_eq n (by simp)] at hfifo
  simp only [LinkedList.run, List.replicate_zero, Option.map_some, fifoPops, List.append_nil,
    Option.some.injEq, List.append_cancel_left_eq, List.cons.injEq, and_true] at hfifo
  exact he hfifo.symm

/-- A recycled node still has a successor, so a pop after the last element
returns the data of that node, or reads it after it has been deleted. -/
theorem Good.not_conforms_recycled {k i : Nat} {spare recycled : List Addr}
    {ops : List (Op α)} (h : Good empty init k i true s q nodes spare recycled) (hi : ¬ i < k) :
    ¬ Conforms alloc empty s q (.push e :: ops) := by
  intro hconforms
  have hlength := h.spare_length
  obtain rfl : spare = [] := List.eq_nil_of_length_eq_zero (by omega)
  obtain ⟨n, recycled, rfl⟩ := List.exists_cons_of_ne_nil (h.recycled_iff.mp rfl)
  obtain ⟨s', hrun, hlive, hheap, hhead⟩ :=
    h.shape.drain_cached alloc empty e 1
  have hfifo := hconforms [.push e] (by simp) (q.length + 1 + 1)
  rw [List.singleton_append, hrun, fifoPops_push_drain] at hfifo
  obtain ⟨hnext, hdata⟩ := h.recycled_next n List.mem_cons_self
  have hn : s'.heap n = s.heap n := by
    rw [hheap, update_of_ne (h.shape.ne_tail_of_cached (by simp))]
  have hsucc : (s'.heap (s.heap n).next).data = (s.heap (s.heap n).next).data := by
    rw [hheap]
    by_cases ht : (s.heap n).next = s.tail
    · rw [ht, update_self]
    · rw [update_of_ne ht]
  rw [hhead] at hlive
  by_cases hsucclive : (s.heap n).next ∈ s'.live
  · simp only [List.replicate_one, LinkedList.run, LinkedList.pop, State.load, if_pos hlive,
      if_pos hsucclive, Option.bind_some, Option.map_some, hhead, hn, if_neg hnext, fifoPops,
      hsucc, List.headD_nil, Option.some.injEq] at hfifo
    have hlast := congrArg List.getLast? hfifo
    simp only [List.getLast?_append, List.getLast?_singleton, Option.some_or,
      Option.some.injEq] at hlast
    exact hdata hlast
  · simp only [List.replicate_one, LinkedList.run, LinkedList.pop, State.load, if_pos hlive,
      if_neg hsucclive, Option.bind_some, Option.map_none, Option.bind_none, hhead, hn,
      if_neg hnext] at hfifo
    cases hfifo

end Recycled

end Libni.LinkedList
