import Libni.Distributed.Passes

/-!
`LLDynamicDistributed` as a pool of FIFO queues, one for each registration of a
`BackendPtr`, in every sequence of completed calls. The labels say what the calls
return, and which registration an element was put through or comes from.
-/

namespace Libni.Distributed

open Function Libni.Transition Libni.Transition.System

/-- A call with what it returns. A registration is told by the number of its
node. -/
inductive PoolLabel (κ α : Type*) where
  | put (ptr : κ) (element : α) (registration : Option Nat)
  | get (ptr : κ) (rng : Nat → Nat) (result : Option (α × Nat))
  | deregister (ptr : κ)

section Pool

variable {κ α : Type*}

/-- The elements put through registration `r`, in order. -/
def putsOf (r : Nat) (ls : List (PoolLabel κ α)) : List α :=
  ls.filterMap fun
    | .put _ element (some n) => if n = r then some element else none
    | _ => none

/-- The elements returned from registration `r`, in order, by whichever
thread. -/
def gotsOf (r : Nat) (ls : List (PoolLabel κ α)) : List α :=
  ls.filterMap fun
    | .get _ _ (some (element, n)) => if n = r then some element else none
    | _ => none

variable [DecidableEq κ]

/-- A call takes place if it returns what its label says. -/
def Pool.next [DecidableEq α] (s : Pool κ α) : PoolLabel κ α → Option (Pool κ α)
  | .put k element registration =>
      (s.put k element).bind fun r => if r.1 = registration then some r.2 else none
  | .get k rng result =>
      (s.get k rng (s.container.length + 1)).bind fun r => if r.1 = result then some r.2 else none
  | .deregister k => some (s.deregisterThread k)

variable (κ α) in
def pool [DecidableEq α] (capacity : Nat) (h : capacity < 2 ^ 64) :
    System (Pool κ α) (PoolLabel κ α) where
  init s := s = ⟨.new capacity h, fun _ => none⟩
  next := Pool.next

/-- The segment is full of backends that are alive or have elements, so that
the sweep of `put` finds none to remove. -/
def Pool.Full (s : Pool κ α) : Prop :=
  s.container.length = s.container.capacity ∧
    ∀ i n, s.container.segment i = some n → s.container.kept n = true

omit [DecidableEq κ] in
/-- What holds between two calls; `ls` are the calls so far. By `fifo` a
backend holds exactly what was put through its registration and has not been
returned. -/
structure Pool.Tied (ls : List (PoolLabel κ α)) (s : Pool κ α) : Prop where
  wellFormed : s.container.WellFormed
  alive : ∀ k n, s.ptr k = some n → n < s.container.nodeCount ∧ (s.container.nodes n).alive = true
  owned : ∀ k k' n, s.ptr k = some n → s.ptr k' = some n → k = k'
  fifo : ∀ r, putsOf r ls = gotsOf r ls ++ (s.container.nodes r).elements
  fresh : ∀ r, s.container.nodeCount ≤ r → putsOf r ls = []

variable {ls : List (PoolLabel κ α)} {s : Pool κ α} {k : κ}

omit [DecidableEq κ] in
/-- The history of a registration grows by the elements put through it and by
nothing else. -/
theorem putsOf_put {element : α} {registration : Option Nat} (r : Nat) :
    putsOf r (ls ++ [.put k element registration]) =
      putsOf r ls ++ if registration = some r then [element] else [] := by
  cases registration with
  | none => simp [putsOf]
  | some n => by_cases hn : n = r <;> simp [putsOf, hn]

omit [DecidableEq κ] in
theorem gotsOf_put {element : α} {registration : Option Nat} (r : Nat) :
    gotsOf r (ls ++ [.put k element registration]) = gotsOf r ls := by
  simp [gotsOf]

omit [DecidableEq κ] in
theorem putsOf_get {rng : Nat → Nat} {result : Option (α × Nat)} (r : Nat) :
    putsOf r (ls ++ [.get k rng result]) = putsOf r ls := by
  simp [putsOf]

omit [DecidableEq κ] in
/-- What is returned from a registration is returned once and in its own
history only. -/
theorem gotsOf_get {rng : Nat → Nat} {element : α} {n : Nat} (r : Nat) :
    gotsOf r (ls ++ [.get k rng (some (element, n))]) =
      gotsOf r ls ++ if n = r then [element] else [] := by
  by_cases hn : n = r <;> simp [gotsOf, hn]

omit [DecidableEq κ] in
theorem gotsOf_get_none {rng : Nat → Nat} (r : Nat) :
    gotsOf r (ls ++ [.get k rng none]) = gotsOf r ls := by
  simp [gotsOf]

omit [DecidableEq κ] in
theorem putsOf_deregister (r : Nat) : putsOf r (ls ++ [.deregister k]) = putsOf r ls := by
  simp [putsOf]

omit [DecidableEq κ] in
theorem gotsOf_deregister (r : Nat) : gotsOf r (ls ++ [.deregister k]) = gotsOf r ls := by
  simp [gotsOf]

namespace Pool.Tied

omit [DecidableEq κ] in
/-- Removing nodes that are not kept does not show: they have no elements, and
no `BackendPtr` refers to them. -/
theorem shrunk (h : s.Tied ls) {c : Container α} (hc : s.container.Shrunk c) :
    ({ s with container := c } : Pool κ α).Tied ls where
  wellFormed := hc.wellFormed
  alive := by
    intro k n hk
    change n < c.nodeCount ∧ (c.nodes n).alive = true
    rw [hc.nodeCount, hc.nodes]
    exact h.alive k n hk
  owned := h.owned
  fifo := by
    intro r
    change _ = _ ++ (c.nodes r).elements
    rw [hc.nodes]
    exact h.fifo r
  fresh := by
    intro r hr
    have hr : c.nodeCount ≤ r := hr
    rw [hc.nodeCount] at hr
    exact h.fresh r hr

omit [DecidableEq κ] in
/-- An element is put into a node that its `BackendPtr` keeps alive. It goes
to the end of that registration's history and into no other. -/
theorem push (h : s.Tied ls) {n : Nat} (hk : s.ptr k = some n) (element : α) :
    ({ s with container := s.container.setNode n ((s.container.nodes n).push element) } :
      Pool κ α).Tied (ls ++ [.put k element (some n)]) := by
  obtain ⟨hn, halive⟩ := h.alive k n hk
  refine ⟨h.wellFormed.setNode hn fun _ => Container.kept_of_alive halive, fun k' m hk' => ?_,
    h.owned, fun r => ?_, fun r hr => ?_⟩
  · obtain ⟨hm, halive'⟩ := h.alive k' m hk'
    refine ⟨hm, ?_⟩
    change (update s.container.nodes n _ m).alive = true
    by_cases hmn : m = n
    · subst hmn
      rw [update_self]
      exact halive'
    · rw [update_of_ne hmn]
      exact halive'
  · rw [putsOf_put, gotsOf_put, h.fifo r]
    change _ = _ ++ (update s.container.nodes n _ r).elements
    by_cases hrn : r = n
    · subst hrn
      rw [update_self, if_pos rfl, List.append_assoc]
      rfl
    · rw [update_of_ne hrn, if_neg (by simpa using Ne.symm hrn), List.append_nil]
  · have hr : s.container.nodeCount ≤ r := hr
    rw [putsOf_put, if_neg (by simp; omega), List.append_nil]
    exact h.fresh r hr

omit [DecidableEq κ] in
/-- The first element of a node is returned, also after the node was turned
off. -/
theorem pop (h : s.Tied ls) {n : Nat} {element : α} (rng : Nat → Nat)
    (hn : n < s.container.nodeCount)
    (hhead : (s.container.nodes n).elements.head? = some element) :
    ({ s with container := s.container.setNode n (s.container.nodes n).pop } : Pool κ α).Tied
      (ls ++ [.get k rng (some (element, n))]) := by
  obtain ⟨rest, hrest⟩ := List.head?_eq_some_iff.mp hhead
  have hkept : s.container.kept n = true := by simp [Container.kept, Node.empty, hrest]
  refine ⟨h.wellFormed.setNode hn fun _ => hkept, fun k' m hk' => ?_, h.owned, fun r => ?_,
    fun r hr => ?_⟩
  · obtain ⟨hm, halive⟩ := h.alive k' m hk'
    refine ⟨hm, ?_⟩
    change (update s.container.nodes n _ m).alive = true
    by_cases hmn : m = n
    · subst hmn
      rw [update_self]
      exact halive
    · rw [update_of_ne hmn]
      exact halive
  · rw [putsOf_get, gotsOf_get, h.fifo r]
    change _ = _ ++ (update s.container.nodes n _ r).elements
    by_cases hrn : r = n
    · subst hrn
      rw [update_self, if_pos rfl, List.append_assoc, hrest]
      simp [Node.pop, hrest]
    · rw [update_of_ne hrn, if_neg (Ne.symm hrn), List.append_nil]
  · rw [putsOf_get]
    exact h.fresh r hr

/-- A new node is registered for a null `BackendPtr`. Its number is new, so
nothing was ever put through it. -/
theorem register (h : s.Tied ls) (hlt : s.container.length < s.container.capacity) :
    (⟨s.container.register, update s.ptr k (some s.container.nodeCount)⟩ : Pool κ α).Tied ls := by
  refine ⟨h.wellFormed.register hlt, fun k' n hk' => ?_, fun k' k'' n hk' hk'' => ?_,
    fun r => ?_, fun r hr => ?_⟩
  · change n < s.container.nodeCount + 1 ∧
      (update s.container.nodes s.container.nodeCount .new n).alive = true
    have hk' : update s.ptr k (some s.container.nodeCount) k' = some n := hk'
    by_cases hkk : k' = k
    · subst hkk
      rw [update_self] at hk'
      cases hk'
      rw [update_self]
      exact ⟨Nat.lt_succ_self _, rfl⟩
    · rw [update_of_ne hkk] at hk'
      obtain ⟨hn, halive⟩ := h.alive k' n hk'
      rw [update_of_ne hn.ne]
      exact ⟨hn.trans (Nat.lt_succ_self _), halive⟩
  · have hk' : update s.ptr k (some s.container.nodeCount) k' = some n := hk'
    have hk'' : update s.ptr k (some s.container.nodeCount) k'' = some n := hk''
    by_cases hkk : k' = k <;> by_cases hkk' : k'' = k
    · exact hkk.trans hkk'.symm
    · rw [hkk, update_self] at hk'
      rw [update_of_ne hkk'] at hk''
      cases hk'
      exact absurd (h.alive k'' _ hk'').1 (lt_irrefl _)
    · rw [hkk', update_self] at hk''
      rw [update_of_ne hkk] at hk'
      cases hk''
      exact absurd (h.alive k' _ hk').1 (lt_irrefl _)
    · rw [update_of_ne hkk] at hk'
      rw [update_of_ne hkk'] at hk''
      exact h.owned k' k'' n hk' hk''
  · rw [h.fifo r]
    change _ = _ ++ (update s.container.nodes s.container.nodeCount .new r).elements
    by_cases hr : r = s.container.nodeCount
    · subst hr
      rw [update_self, h.wellFormed.blank _ le_rfl]
      rfl
    · rw [update_of_ne hr]
  · have hr : s.container.nodeCount + 1 ≤ r := hr
    exact h.fresh r (by omega)

theorem turnOff (h : s.Tied ls) {n : Nat} (hk : s.ptr k = some n) :
    (⟨s.container.setNode n (s.container.nodes n).turnOff, update s.ptr k none⟩ :
      Pool κ α).Tied (ls ++ [.deregister k]) := by
  obtain ⟨hn, halive⟩ := h.alive k n hk
  have hother (k' : κ) (m : Nat) (hk' : update s.ptr k none k' = some m) :
      s.ptr k' = some m ∧ m ≠ n := by
    by_cases hkk : k' = k
    · rw [hkk, update_self] at hk'
      cases hk'
    · rw [update_of_ne hkk] at hk'
      refine ⟨hk', ?_⟩
      rintro rfl
      exact hkk (h.owned k' k m hk' hk)
  refine ⟨h.wellFormed.setNode hn fun _ => Container.kept_of_alive halive, fun k' m hk' => ?_,
    fun k' k'' m hk' hk'' => ?_, fun r => ?_, fun r hr => ?_⟩
  · obtain ⟨hk', hmn⟩ := hother k' m hk'
    obtain ⟨hm, halive'⟩ := h.alive k' m hk'
    refine ⟨hm, ?_⟩
    change (update s.container.nodes n _ m).alive = true
    rwa [update_of_ne hmn]
  · exact h.owned k' k'' m (hother k' m hk').1 (hother k'' m hk'').1
  · rw [putsOf_deregister, gotsOf_deregister, h.fifo r]
    change _ = _ ++ (update s.container.nodes n _ r).elements
    by_cases hrn : r = n
    · subst hrn
      rw [update_self]
      rfl
    · rw [update_of_ne hrn]
  · rw [putsOf_deregister]
    exact h.fresh r hr

omit [DecidableEq κ] in
theorem unchanged (h : s.Tied ls) {l : PoolLabel κ α}
    (hputs : ∀ r, putsOf r (ls ++ [l]) = putsOf r ls)
    (hgots : ∀ r, gotsOf r (ls ++ [l]) = gotsOf r ls) : s.Tied (ls ++ [l]) := by
  refine ⟨h.wellFormed, h.alive, h.owned, fun r => ?_, fun r hr => ?_⟩
  · rw [hputs, hgots]
    exact h.fifo r
  · rw [hputs]
    exact h.fresh r hr

/-- `deregister_thread` returns nothing and loses nothing: a node with
elements stays in the segment until it is drained. -/
theorem deregister (h : s.Tied ls) (k : κ) :
    (s.deregisterThread k).Tied (ls ++ [.deregister k]) := by
  unfold Pool.deregisterThread
  cases hk : s.ptr k with
  | none => exact h.unchanged putsOf_deregister gotsOf_deregister
  | some n =>
      have hoff := h.turnOff hk
      simp only
      split
      · next hempty =>
          refine hoff.shrunk (Container.search_spec hoff.wellFormed (Nat.zero_add _).ge
            (by rintro j ⟨⟩) ?_).1
          rw [Container.kept_eq_false]
          refine ⟨?_, List.isEmpty_iff.mp hempty⟩
          simp [Container.setNode, Node.turnOff]
      · exact hoff

/-- What `put` returns, and when it refuses. It always returns, and a refusal
leaves the pool as it was. -/
theorem put (h : s.Tied ls) (k : κ) (element : α) : ∃ registration s',
    s.put k element = some (registration, s') ∧
      s'.Tied (ls ++ [.put k element registration]) ∧
      (registration = none ↔ s.ptr k = none ∧ s.Full) ∧ (registration = none → s' = s) ∧
      ∀ n, registration = some n → s.ptr k = some n ∨
        s.ptr k = none ∧ putsOf n ls = [] ∧ ∀ k', s.ptr k' ≠ some n := by
  unfold Pool.put
  cases hk : s.ptr k with
  | some n =>
      refine ⟨some n, _, rfl, h.push hk element, ?_, by rintro ⟨⟩, ?_⟩
      · simp
      · rintro m hm
        exact .inl hm
  | none =>
      have hsweep : ∃ c, (if s.container.length ≥ s.container.capacity then
            s.container.sweep s.container.length 0 else some s.container) = some c ∧
          s.container.Shrunk c ∧ (c.length ≥ c.capacity ↔ s.Full) ∧
          (c.length ≥ c.capacity → c = s.container) := by
        have hle := h.wellFormed.length_le
        by_cases hfull : s.container.length ≥ s.container.capacity
        · rw [if_pos hfull]
          obtain ⟨c, hc, hshrunk, hsame, hless⟩ :=
            Container.sweep_spec h.wellFormed (Nat.zero_add s.container.length).ge
          have hcapacity := hshrunk.capacity
          by_cases hall : ∀ i n, s.container.segment i = some n → s.container.kept n = true
          · have heq := hsame fun j n _ hj => hall j n hj
            subst heq
            exact ⟨_, hc, hshrunk, ⟨fun _ => ⟨le_antisymm hle hfull, hall⟩, fun _ => hfull⟩,
              fun _ => rfl⟩
          · push Not at hall
            obtain ⟨i, n, hi, hkept⟩ := hall
            have hlt := hless ⟨i, n, Nat.zero_le _, hi, Bool.eq_false_iff.mpr hkept⟩
            have hroom : ¬ c.length ≥ c.capacity := by omega
            exact ⟨c, hc, hshrunk, ⟨fun hge => absurd hge hroom,
              fun hfull' => absurd (hfull'.2 i n hi) hkept⟩, fun hge => absurd hge hroom⟩
        · rw [if_neg hfull]
          exact ⟨_, rfl, .refl h.wellFormed, ⟨fun hge => absurd hge hfull,
            fun hfull' => absurd hfull'.1.ge hfull⟩, fun _ => rfl⟩
      obtain ⟨c, hc, hshrunk, hfull, hsame⟩ := hsweep
      have hc' := h.shrunk hshrunk
      simp only [hc]
      by_cases hroom : c.length ≥ c.capacity
      · obtain rfl := hsame hroom
        simp only [if_pos hroom]
        refine ⟨none, s, rfl, h.unchanged ?_ fun r => gotsOf_put r, ?_, fun _ => rfl, by rintro n ⟨⟩⟩
        · intro r
          rw [putsOf_put, if_neg (by simp), List.append_nil]
        · exact ⟨fun _ => ⟨trivial, hfull.mp hroom⟩, fun _ => rfl⟩
      · simp only [if_neg hroom]
        have hregistered := (hc'.register (k := k) (by simpa using hroom)).push (k := k)
          (n := c.nodeCount) (update_self _ _ _) element
        refine ⟨some c.nodeCount, _, rfl, hregistered, ?_, by rintro ⟨⟩, ?_⟩
        · constructor
          · rintro ⟨⟩
          · rintro ⟨_, hfull'⟩
            exact absurd (hfull.mpr hfull') hroom
        · rintro n hn
          cases hn
          refine .inr ⟨trivial, hc'.fresh _ le_rfl, fun k' hk' => ?_⟩
          exact absurd (hc'.alive k' _ hk').1 (lt_irrefl _)

omit [DecidableEq κ] in
/-- What `get` returns, given enough fuel. It finds nothing only in a
container without elements. -/
theorem get (h : s.Tied ls) (k : κ) (rng : Nat → Nat) {fuel : Nat}
    (hfuel : s.container.length < fuel) : ∃ result s', s.get k rng fuel = some (result, s') ∧
      s'.Tied (ls ++ [.get k rng result]) ∧ (result = none → s.container.Drained) ∧
      ∀ element n, result = some (element, n) →
        (s.container.nodes n).elements.head? = some element ∧
        ∀ own, s.ptr k = some own → (s.container.nodes own).elements ≠ [] → n = own := by
  simp only [Pool.get]
  cases hown : (s.ptr k).bind fun n =>
      ((s.container.nodes n).elements.head?).map fun element => (element, n) with
  | some p =>
      obtain ⟨element, n⟩ := p
      obtain ⟨n', hk, hhead⟩ := Option.bind_eq_some_iff.mp hown
      obtain ⟨element', hhead, heq⟩ := Option.map_eq_some_iff.mp hhead
      cases heq
      refine ⟨_, _, rfl, h.pop rng (h.alive k n hk).1 hhead, by rintro ⟨⟩, ?_⟩
      rintro element' n' heq
      cases heq
      refine ⟨hhead, fun own hk' _ => ?_⟩
      rw [hk] at hk'
      exact Option.some.inj hk'
  | none =>
      have hempty (own : Nat) (hk : s.ptr k = some own) :
          (s.container.nodes own).elements = [] := by
        rw [hk] at hown
        simpa using hown
      obtain ⟨⟨result, c⟩, hloop, hgot⟩ := Container.retryLoop_spec h.wellFormed rng (k := 0) hfuel
      simp only [hloop, Option.map_some]
      refine ⟨result, _, rfl, ?_, ?_, ?_⟩
      · cases result with
        | none =>
            refine (h.shrunk hgot.2).unchanged (fun r => putsOf_get r) fun r => gotsOf_get_none r
        | some p =>
            obtain ⟨element, n⟩ := p
            obtain ⟨hn, hhead, c₁, hshrunk, rfl⟩ := hgot
            refine (h.shrunk hshrunk).pop rng ?_ ?_
            · exact hshrunk.nodeCount.symm ▸ hn
            · change ((c₁.nodes n).elements).head? = _
              rw [hshrunk.nodes]
              exact hhead
      · rintro rfl
        exact hgot.1
      · rintro element n rfl
        exact ⟨hgot.2.1, fun own hk hne => absurd (hempty own hk) hne⟩

end Pool.Tied

omit [DecidableEq κ] in
theorem Pool.get_mono {rng : Nat → Nat} {fuel fuel' : Nat} {r : Option (α × Nat) × Pool κ α}
    (h : s.get k rng fuel = some r) (hle : fuel ≤ fuel') : s.get k rng fuel' = some r := by
  induction hle with
  | refl => exact h
  | @step fuel' _ ih =>
      simp only [Pool.get] at ih ⊢
      split
      · simpa only [*] using ih
      · simp only [*] at ih
        obtain ⟨r', hr', rfl⟩ := Option.map_eq_some_iff.mp ih
        rw [Container.retryLoop_mono hr']
        rfl

variable [DecidableEq α] {capacity : Nat} {hcapacity : capacity < 2 ^ 64}

/-- Every call keeps the pool tied to its history, by the specification of
that call. -/
theorem Pool.Tied.next {l : PoolLabel κ α} {s' : Pool κ α} (h : s.Tied ls)
    (hnext : (pool κ α capacity hcapacity).next s l = some s') : s'.Tied (ls ++ [l]) := by
  cases l with
  | put k element registration =>
      obtain ⟨registration', s'', hput, htied, _⟩ := h.put k element
      simp only [pool, Pool.next, hput, Option.bind_some] at hnext
      split at hnext
      · next heq =>
          cases hnext
          exact heq ▸ htied
      · cases hnext
  | get k rng result =>
      obtain ⟨result', s'', hget, htied, _⟩ := h.get k rng (Nat.lt_succ_self _)
      simp only [pool, Pool.next, hget, Option.bind_some] at hnext
      split at hnext
      · next heq =>
          cases hnext
          exact heq ▸ htied
      · cases hnext
  | deregister k =>
      cases hnext
      exact h.deregister k

/-- The history of a run accounts for the elements of every backend. The
induction is along the calls. -/
theorem Pool.tied_of_run (h : (pool κ α capacity hcapacity).Run Free ls s) : s.Tied ls := by
  refine h.invariant_labels (fun s hs => ?_) fun _ _ _ _ hu _ hnext => hu.next hnext
  subst hs
  exact ⟨.new capacity hcapacity, by rintro _ _ ⟨⟩, by rintro _ _ _ ⟨⟩, fun _ => rfl, fun _ _ => rfl⟩

/-- The container is a pool of FIFO queues, one for each registration.
Elements leave a registration in the order they were put, `get` always returns
and finds nothing only if nothing is left, and `put` refuses only a thread
without a backend at a segment full of backends in use. Calls do not overlap
here. -/
theorem pool_of_fifos (h : (pool κ α capacity hcapacity).Run Free ls s) :
    (∀ r, gotsOf r ls <+: putsOf r ls) ∧
      (∀ k rng, ∃ result s',
        (∀ fuel, s.container.length < fuel → s.get k rng fuel = some (result, s')) ∧
        (result = none ↔ ∀ r, gotsOf r ls = putsOf r ls) ∧
        ∀ element n, result = some (element, n) → gotsOf n ls ++ [element] <+: putsOf n ls ∧
          ∀ own, s.ptr k = some own → gotsOf own ls ≠ putsOf own ls → n = own) ∧
      (∀ k element, ∃ registration s', s.put k element = some (registration, s') ∧
        (registration = none ↔ s.ptr k = none ∧ s.Full) ∧ (registration = none → s' = s) ∧
        ∀ n, registration = some n → s.ptr k = some n ∨
          s.ptr k = none ∧ putsOf n ls = [] ∧ ∀ k', s.ptr k' ≠ some n) ∧
      ∀ k n, s.ptr k = some n → (s.container.nodes n).alive = true ∧
        ∃! i, i < s.container.length ∧ s.container.segment i = some n := by
  have htied : s.Tied ls := Pool.tied_of_run h
  have hremaining (r : Nat) : gotsOf r ls = putsOf r ls ↔ (s.container.nodes r).elements = [] := by
    rw [htied.fifo r]
    simp
  refine ⟨fun r => ?_, fun k rng => ?_, fun k element => ?_, fun k n hk => ?_⟩
  · rw [htied.fifo r]
    exact List.prefix_append _ _
  · obtain ⟨result, s', hget, _, hnone, hsome⟩ := htied.get k rng (Nat.lt_succ_self _)
    refine ⟨result, s', fun fuel hfuel => Pool.get_mono hget hfuel, ⟨fun heq r => ?_, fun hall => ?_⟩,
      fun element n heq => ?_⟩
    · exact (hremaining r).mpr (hnone heq r)
    · cases result with
      | none => rfl
      | some p =>
          have hhead := (hsome p.1 p.2 rfl).1
          rw [(hremaining p.2).mp (hall p.2)] at hhead
          cases hhead
    · obtain ⟨hhead, hown⟩ := hsome element n heq
      obtain ⟨rest, hrest⟩ := List.head?_eq_some_iff.mp hhead
      refine ⟨?_, fun own hk hne => hown own hk fun hempty => hne ((hremaining own).mpr hempty)⟩
      rw [htied.fifo n, hrest]
      exact ⟨rest, by simp⟩
  · obtain ⟨registration, s', hput, _, hrest⟩ := htied.put k element
    exact ⟨registration, s', hput, hrest⟩
  · obtain ⟨hn, halive⟩ := htied.alive k n hk
    obtain ⟨i, hi⟩ := htied.wellFormed.held n hn (Container.kept_of_alive halive)
    exact ⟨halive, i, ⟨(htied.wellFormed.entry_lt i n hi).1, hi⟩,
      fun j hj => htied.wellFormed.distinct _ _ _ hj.2 hi⟩

end Pool

/-- Two `BackendPtr`s share a segment of one entry: the second one is refused
until the first one's backend has been given up and drained, and its own
elements are drained in turn by the first one. -/
def sharedRun : List (PoolLabel (Fin 2) Nat) :=
  [.put 0 7 (some 0), .put 1 8 none, .deregister 0, .put 1 8 none, .get 1 id (some (7, 0)),
    .put 1 8 (some 1), .put 1 9 (some 1), .get 1 id (some (8, 1)), .deregister 1,
    .get 0 id (some (9, 1)), .get 0 id none]

def sharedState : Pool (Fin 2) Nat :=
  ((pool (Fin 2) Nat 1 Container.one_lt).exec Free ⟨.new 1 Container.one_lt, fun _ => none⟩
    sharedRun).get
    (by decide +kernel)

theorem pool_of_fifos_sharedRun :
    (∀ r, gotsOf r sharedRun <+: putsOf r sharedRun) ∧ putsOf 1 sharedRun = [8, 9] ∧
      sharedState.container.removed = [1, 0] := by
  have hrun : (pool (Fin 2) Nat 1 Container.one_lt).Run Free sharedRun sharedState :=
    run_of_exec rfl _
  exact ⟨(pool_of_fifos hrun).1, by decide, by decide +kernel⟩

end Libni.Distributed
