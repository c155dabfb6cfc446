import Libni.MSQueue.Linearizable

/-!
What becomes of the nodes. Every allocated node is in a queue or belongs to a thread
that will link or delete it, so once all operations have returned the destructors
have to delete exactly the nodes of the queues. The destructor walks from `m_head`
to `m_tail`; it misses a node that has been linked behind the tail, which can only
stay behind if the exchange of the tail has failed spuriously.
-/

namespace Libni.MSQueue

open Function Libni.Transition Libni.Transition.System Libni.Support

variable {κ τ α : Type*}

section Destroy

/-- `delete` of a node; deleting one that is not allocated is an error. The
source has no check, so the error shows in the result. -/
def Mem.free (m : Mem κ α) (a : Addr) : Option (Mem κ α) :=
  if m.live a = true then some (m.delete a) else none

/-- The loop of `~MSQueue`, and the deletion of the tail after it. -/
def Mem.destroyFrom (tail : Addr) : (fuel : Nat) → Mem κ α → Addr → Option (Mem κ α)
  | 0, _, _ => none
  | fuel + 1, m, head =>
      if head = tail then m.free tail
      else (m.free head).bind fun m' => destroyFrom tail fuel m' (m.nextAddr head)

/-- `~MSQueue` terminates without an error and leaves `m'`. -/
def Mem.Destroys (m : Mem κ α) (q : κ) (m' : Mem κ α) : Prop :=
  ∃ fuel, Mem.destroyFrom (m.tail q).value fuel m (m.head q).value = some m'

variable {m m' : Mem κ α} {a tail : Addr} {before after : List Addr}

theorem Mem.free_of_live (h : m.live a = true) : m.free a = some (m.delete a) := if_pos h

theorem Mem.live_delete_iff (b : Addr) :
    (m.delete a).live b = true ↔ m.live b = true ∧ b ≠ a := by
  by_cases hb : b = a
  · subst hb
    simp [Mem.delete]
  · simp [Mem.delete, hb]

/-- The loop deletes the nodes it walks over and the one it stops at. Deleted
nodes keep their `next`, but the loop has read it before. -/
theorem Mem.destroyFrom_path (hpath : Path 0 m.nextAddr a (before ++ tail :: after))
    (hlive : ∀ b ∈ before ++ [tail], m.live b = true) :
    ∃ m', Mem.destroyFrom tail (before.length + 1) m a = some m' ∧
      m'.nextAddr = m.nextAddr ∧
      ∀ b, m'.live b = true ↔ m.live b = true ∧ b ∉ before ++ [tail] := by
  induction before generalizing m a with
  | nil =>
      obtain ⟨rfl, -, -⟩ := hpath
      refine ⟨m.delete tail, ?_, rfl, fun b => ?_⟩
      · simp only [List.length_nil, Mem.destroyFrom, if_true]
        exact Mem.free_of_live (hlive tail (by simp))
      · simp [Mem.live_delete_iff]
  | cons c before ih =>
      have hnodup := hpath.nodup
      obtain ⟨rfl, -, hrest⟩ := hpath
      simp only [List.cons_append, List.nodup_cons, List.mem_append, List.mem_cons,
        not_or] at hnodup
      have hne : c ≠ tail := hnodup.1.2.1
      obtain ⟨m', hloop, hnext, hfreed⟩ := ih (m := m.delete c) hrest fun b hb => by
        refine Mem.live_delete_iff b |>.mpr ⟨hlive b (List.mem_cons_of_mem c hb), ?_⟩
        rintro rfl
        rcases List.mem_append.mp hb with hb | hb
        · exact hnodup.1.1 hb
        · exact hne (List.mem_singleton.mp hb)
      refine ⟨m', ?_, hnext, fun b => ?_⟩
      · rw [List.length_cons, Mem.destroyFrom, if_neg hne,
          Mem.free_of_live (hlive c (by simp)), Option.bind_some]
        exact hloop
      · rw [hfreed, Mem.live_delete_iff, List.cons_append, List.mem_cons, not_or, and_assoc]

/-- The destructor deletes the nodes of the queue except the one behind its
tail. -/
theorem Shape.destroys (hs : Shape m) (q : κ) : ∃ m', m.Destroys q m' ∧
    ∀ b, m'.live b = true ↔ m.live b = true ∧
      (b ∈ m.nodes q → b = m.nextAddr (m.tail q).value) := by
  obtain ⟨before, after, hnodes, hafter⟩ := (hs.chain q).suffix (hs.tail_mem q)
  have hpath := hs.chain q
  have hnodup := hpath.nodup
  rw [Mem.Chain, hnodes] at hpath
  rw [hnodes] at hnodup
  have hlive (b : Addr) (hb : b ∈ before ++ [(m.tail q).value]) : m.live b = true := by
    apply hs.live q
    rw [hnodes]
    rw [List.append_cons]
    exact List.mem_append_left after hb
  obtain ⟨m', hloop, -, hfreed⟩ := Mem.destroyFrom_path hpath hlive
  refine ⟨m', ⟨_, hloop⟩, fun b => ?_⟩
  -- what comes after the tail is at most its successor
  have hbehind : b ∈ after ↔ b = m.nextAddr (m.tail q).value ∧ b ≠ 0 := by
    cases after with
    | nil =>
        rw [show m.nextAddr (m.tail q).value = 0 from hafter]
        simp
    | cons x rest =>
        obtain ⟨rfl, hne, hrest⟩ := hafter
        have hlast := (hs.lag q).resolve_left hne
        rw [hlast] at hrest
        cases rest with
        | nil =>
            simp only [List.mem_singleton]
            exact ⟨fun hb => ⟨hb, hb ▸ hne⟩, And.left⟩
        | cons y rest => exact absurd rfl hrest.2.1
  rw [hfreed, and_congr_right_iff]
  intro _
  rw [hnodes]
  simp only [List.mem_append, List.mem_cons, List.not_mem_nil, or_false]
  simp only [List.nodup_append, List.nodup_cons, List.mem_cons, forall_eq_or_imp] at hnodup
  constructor
  · rintro hout (hb | rfl | hb)
    · exact absurd (.inl hb) hout
    · exact absurd (.inr rfl) hout
    · exact (hbehind.mp hb).1
  · rintro hnext (hb | rfl)
    · have heq := hnext (.inl hb)
      have hne : b ≠ 0 := hs.ne_zero (q := q) (by rw [hnodes]; simp [hb])
      exact (hnodup.2.2 b hb).2 b (hbehind.mpr ⟨heq, hne⟩) rfl
    · have heq := hnext (.inr (.inl rfl))
      exact hnodup.2.1.1 (hbehind.mpr ⟨heq, hs.ne_zero (hs.tail_mem q)⟩)

end Destroy

section Accounted

variable [DecidableEq κ]

/-- Every allocated node is in a queue or belongs to a thread. Nothing is lost
while operations are in progress. -/
def Accounted (s : State κ τ α) : Prop :=
  ∀ a, s.mem.live a = true → (∃ q, a ∈ s.mem.nodes q) ∨ ∃ t, (s.threads t).owned = some a

variable {fresh : Addr} {m m' : Mem κ α} {l l' : Local κ α}

omit [DecidableEq κ] in
theorem Local.owned_of_allocates (h : l.allocates = true) : l.owned = none := by
  cases l with
  | push q pc => cases pc <;> first | rfl | cases h
  | tryPush q pc => cases pc <;> first | rfl | cases h
  | idle | pop | tryPop | empty | tailState | done => cases h

/-- A node allocated after a change was allocated before it in a place it has
kept, or the thread has it. -/
theorem Change.accounted (h : Change fresh m l l' m') (hs : Shape m) (ho : Owner m l)
    {a : Addr} (ha : m'.live a = true) :
    l'.owned = some a ∨ (∃ q, a ∈ m'.nodes q) ∨
      m.live a = true ∧ (∀ q, a ∉ m.nodes q) ∧ l.owned ≠ some a := by
  by_cases hout : ∃ q, a ∈ m'.nodes q
  · exact .inr (.inl hout)
  by_cases hown : l'.owned = some a
  · exact .inl hown
  refine .inr (.inr ?_)
  rw [not_exists] at hout
  cases h with
  | same _ howned => exact ⟨ha, hout, howned ▸ hown⟩
  | swing _ _ _ _ howned => exact ⟨ha, hout, howned ▸ hown⟩
  | alloc e _ hnew hl _ howned =>
      rw [hs.nodes_new hnew] at hout
      obtain ⟨_, rfl⟩ := Mem.new_eq_some.mp hnew
      have hne : a ≠ fresh := by
        rintro rfl
        exact hown howned
      refine ⟨by simpa [update_of_ne hne] using ha, hout, ?_⟩
      simp [Local.owned_of_allocates hl]
  | link q n t hnull hn =>
      have howned := Local.owned_of_node hn
      have hnodes := hs.nodes_link (t := t) (hs.tail_mem q) hnull (ho.null n hn).1 (ho.null n hn).2
        (ho.out n q howned)
      refine ⟨ha, fun q' hq' => hout q' ?_, fun hl => hout q ?_⟩
      · rw [hnodes]
        by_cases hq : q' = q
        · subst hq
          rw [update_self]
          exact List.mem_append_left _ hq'
        · rwa [update_of_ne hq]
      · obtain rfl : n = a := Option.some.inj (howned.symm.trans hl)
        rw [hnodes, update_self]
        exact List.mem_append_right _ (List.mem_singleton_self n)
  | advance q t htail hl _ howned =>
      rw [hs.nodes_setHead] at hout
      refine ⟨ha, fun q' hq' => ?_, by simp [hl]⟩
      by_cases hq : q' = q
      · subst hq
        obtain ⟨rest, hcons, -⟩ := hs.nodes_cons q'
        have hrest := hout q'
        rw [update_self, hcons, List.tail_cons] at hrest
        rw [hcons] at hq'
        rcases List.mem_cons.mp hq' with rfl | hmem
        · exact hown howned
        · exact hrest hmem
      · have := hout q'
        rw [update_of_ne hq] at this
        exact this hq'
  | free b hl =>
      obtain ⟨hlive, hne⟩ := (Mem.live_delete_iff a).mp ha
      refine ⟨hlive, hout, fun heq => hne ?_⟩
      exact Option.some.inj (heq.symm.trans hl)

omit [DecidableEq κ] in
theorem Initial.accounted {s : State κ τ α} (h : Initial s) : Accounted s := by
  intro a ha
  obtain ⟨q, rfl⟩ := (h.live_iff a).mp ha
  exact .inl ⟨q, h.inv.shape.head_mem q⟩

/-- No step loses a node. A node taken out of a queue belongs to the thread
that has taken it, until it deletes it. -/
theorem Accounted.step [DecidableEq τ] [DecidableEq α] {s s' : State κ τ α} {l : Label κ τ α}
    (h : Accounted s) (hinv : Inv s) (hguard : NotHeld s l)
    (hnext : (system κ τ α).next s l = some s') : Accounted s' := by
  obtain ⟨fresh, hc⟩ := change_of_next hinv hguard hnext
  intro a ha
  rcases hc.accounted hinv.shape (hinv.owner _) ha with hown | hmem | ⟨hlive, hout, hnot⟩
  · exact .inr ⟨_, hown⟩
  · exact .inl hmem
  · rcases h a hlive with ⟨q, hq⟩ | ⟨t, ht⟩
    · exact absurd hq (hout q)
    · have hne : t ≠ l.actor := by
        rintro rfl
        exact hnot ht
      exact .inr ⟨t, by rw [threads_of_ne hnext hne, ht]⟩

end Accounted

section Settling

/-- The queue and the tail a thread is about to exchange after it has linked a
node. -/
def Local.finishing : Local κ α → Option (κ × TaggedPtr)
  | .push q (.casTail _ oldTail) | .tryPush q (.casTail _ oldTail) => some (q, oldTail)
  | _ => none

/-- Whoever has linked the last node behind a tail is about to move that tail.
So no tail stays behind once all operations have returned. -/
def Settling (s : State κ τ α) : Prop :=
  ∀ q, s.mem.nextAddr (s.mem.tail q).value ≠ 0 →
    ∃ t, (s.threads t).finishing = some (q, s.mem.tail q)

/-- Exchanges fail on a mismatch only, and no held address is handed out. -/
def Exact (s : State κ τ α) : Label κ τ α → Prop
  | .step t fresh spurious => spurious = false ∧ NotHeld s (.step t fresh spurious)
  | _ => True

theorem Exact.notHeld {s : State κ τ α} {l : Label κ τ α} (h : Exact s l) : NotHeld s l := by
  cases l with
  | step t fresh spurious => exact h.2
  | call | ret => trivial

variable [DecidableEq κ] {fresh : Addr} {m m' : Mem κ α} {q : κ} {l l' : Local κ α}

theorem nextAddr_casTail (oldTail : TaggedPtr) (n : Addr) (spurious : Bool) :
    (m.casTail q oldTail n spurious).nextAddr = m.nextAddr := by
  unfold Mem.casTail
  split <;> rfl

/-- The only successor an access changes is that of a tail, which the thread
is then about to move. -/
theorem localStep_nextAddr (h : StepPre fresh m l)
    (hstep : localStep m fresh false l = some (m', l')) {x : Addr} (hx : m.live x = true) :
    m'.nextAddr x = m.nextAddr x ∨
      m'.tail = m.tail ∧ ∃ q, x = (m.tail q).value ∧ l'.finishing = some (q, m.tail q) := by
  have hlinked {q : κ} {oldTail next : TaggedPtr} (n : Addr) (hp : TailHeld m q oldTail)
      (hnull : next.value = 0) (hnext : (m.heap oldTail.value).next = next)
      (hfinishing : l'.finishing = some (q, oldTail)) :
      (m.setNext oldTail.value ⟨n, next.tag + 1⟩).nextAddr x = m.nextAddr x ∨
        (m.setNext oldTail.value ⟨n, next.tag + 1⟩).tail = m.tail ∧
          ∃ q, x = (m.tail q).value ∧ l'.finishing = some (q, m.tail q) := by
    have htail : m.tail q = oldTail := h.shape.tail_eq hp (by rw [Mem.nextAddr, hnext, hnull])
    by_cases hxt : x = oldTail.value
    · exact .inr ⟨rfl, q, by rw [htail, hxt], by rw [htail, hfinishing]⟩
    · exact .inl (Mem.nextAddr_setNext_of_ne _ hxt)
  have hfresh {e : α} (hnew : m.new fresh e = some m') : m'.nextAddr x = m.nextAddr x := by
    apply Mem.nextAddr_new hnew
    rintro rfl
    obtain ⟨⟨_, hfree⟩, _⟩ := Mem.new_eq_some.mp hnew
    rw [hx] at hfree
    cases hfree
  cases l with
  | idle | done => cases hstep
  | push q pc =>
      cases pc with
      | newNode e =>
          simp only [localStep, pushStep, Option.map_eq_some_iff] at hstep
          obtain ⟨_, hnew, ⟨⟩⟩ := hstep
          exact .inl (hfresh hnew)
      | casNext node oldTail next =>
          simp only [localStep, pushStep] at hstep
          split at hstep <;> cases hstep
          · next hcas => exact hlinked node h.facts.1 h.facts.2 hcas.1 rfl
          · exact .inl rfl
      | loadTail | loadNext =>
          cases hstep
          exact .inl rfl
      | checkTail node oldTail next =>
          simp only [localStep, pushStep] at hstep
          split at hstep
          · cases hstep
            exact .inl rfl
          · split at hstep <;> cases hstep <;> exact .inl rfl
      | casTail node oldTail =>
          cases hstep
          rw [nextAddr_casTail]
          exact .inl rfl
      | helpTail node oldTail next =>
          simp only [localStep, pushStep] at hstep
          split at hstep <;> cases hstep
          · rw [nextAddr_casTail]
            exact .inl rfl
          · exact .inl rfl
  | tryPush q pc =>
      cases pc with
      | newNode e oldTail next =>
          simp only [localStep, tryPushStep, Option.map_eq_some_iff] at hstep
          obtain ⟨_, hnew, ⟨⟩⟩ := hstep
          exact .inl (hfresh hnew)
      | casNext node oldTail next =>
          simp only [localStep, tryPushStep] at hstep
          split at hstep <;> cases hstep
          · next hcas => exact hlinked node h.facts.1 h.facts.2 hcas rfl
          · exact .inl rfl
      | loadTail | loadNext =>
          simp only [localStep, tryPushStep] at hstep
          split at hstep <;> cases hstep <;> exact .inl rfl
      | casTail node oldTail =>
          cases hstep
          rw [nextAddr_casTail]
          exact .inl rfl
      | helpTail oldTail next =>
          cases hstep
          rw [nextAddr_casTail]
          exact .inl rfl
      | deleteNode =>
          cases hstep
          exact .inl rfl
  | pop q arg e hs pc =>
      obtain ⟨rfl, -⟩ := pair_eq (Option.some.inj hstep)
      refine .inl (congrFun ?_ x)
      cases pc <;> simp only [popStep, nextAddr_casTail] <;> (repeat' split) <;> rfl
  | tryPop q arg e s hs pc =>
      obtain ⟨rfl, -⟩ := pair_eq (Option.some.inj hstep)
      refine .inl (congrFun ?_ x)
      cases pc <;> simp only [tryPopStep, nextAddr_casTail] <;> (repeat' split) <;> rfl
  | empty q pc =>
      obtain ⟨rfl, -⟩ := pair_eq (Option.some.inj hstep)
      refine .inl (congrFun ?_ x)
      cases pc with
      | checkHead =>
          simp only [emptyStep]
          split <;> rfl
      | loadHead | loadTail | loadNext => rfl
  | tailState q =>
      cases hstep
      exact .inl rfl

/-- A thread that has linked a node behind the tail moves the tail on to it. -/
theorem localStep_finishing (h : StepPre fresh m l)
    (hstep : localStep m fresh false l = some (m', l'))
    (hl : l.finishing = some (q, m.tail q)) : m'.nextAddr (m'.tail q).value = 0 := by
  have hcaught {node : Addr} (hnext : m.nextAddr (m.tail q).value = node) (hn : node ≠ 0) :
      (m.casTail q (m.tail q) node false).nextAddr
        ((m.casTail q (m.tail q) node false).tail q).value = 0 := by
    have hlast := (h.shape.lag q).resolve_left (by rwa [hnext])
    rw [hnext] at hlast
    rw [nextAddr_casTail, Mem.casTail, if_pos ⟨rfl, rfl⟩, Mem.tail_setTail_self]
    exact hlast
  cases l with
  | push q' pc =>
      cases pc with
      | casTail node oldTail =>
          cases hl
          cases hstep
          exact hcaught h.facts.2.1 h.facts.2.2
      | _ => cases hl
  | tryPush q' pc =>
      cases pc with
      | casTail node oldTail =>
          cases hl
          cases hstep
          exact hcaught h.facts.2.1 h.facts.2.2
      | _ => cases hl
  | _ => cases hl

/-- A tail that is behind after an access was behind before it, through
another thread, or the thread is about to move it. -/
theorem localStep_settles (h : StepPre fresh m l)
    (hstep : localStep m fresh false l = some (m', l'))
    (hbehind : m'.nextAddr (m'.tail q).value ≠ 0) :
    l'.finishing = some (q, m'.tail q) ∨ m'.tail q = m.tail q ∧
      m.nextAddr (m.tail q).value ≠ 0 ∧ l.finishing ≠ some (q, m.tail q) := by
  have hs := h.shape
  have htail : m'.tail q = m.tail q := by
    cases (localStep_ok h hstep).change with
    | swing q' t hne =>
        by_cases hq : q = q'
        · subst hq
          rw [Mem.tail_setTail_self, Mem.nextAddr_setTail] at hbehind
          exact absurd ((hs.lag q).resolve_left hne) hbehind
        · exact Mem.tail_setTail_of_ne _ hq
    | alloc e _ hnew =>
        obtain ⟨_, rfl⟩ := Mem.new_eq_some.mp hnew
        rfl
    | same | link | advance | free => rfl
  have hnot : l.finishing ≠ some (q, m.tail q) := fun hl =>
    hbehind (localStep_finishing h hstep hl)
  rw [htail] at hbehind ⊢
  rcases localStep_nextAddr h hstep (hs.live q _ (hs.tail_mem q)) with hsame | ⟨_, q', hq', hfin⟩
  · exact .inr ⟨rfl, by rwa [hsame] at hbehind, hnot⟩
  · obtain rfl : q = q' := hs.disjoint q q' _ (hs.tail_mem q) (by rw [hq']; exact hs.tail_mem q')
    exact .inl hfin

omit [DecidableEq κ] in
theorem Initial.settling {s : State κ τ α} (h : Initial s) : Settling s := by
  intro q hbehind
  rw [h.tail_eq, Mem.nextAddr, h.next_null] at hbehind
  exact absurd rfl hbehind

/-- Every exact step keeps it so. If the exchange of the thread that has
linked the node fails, another thread has helped. -/
theorem Settling.step [DecidableEq τ] [DecidableEq α] {s s' : State κ τ α} {l : Label κ τ α}
    (h : Settling s) (hinv : Inv s) (hguard : Exact s l)
    (hnext : (system κ τ α).next s l = some s') : Settling s' := by
  intro q hbehind
  have hother {t : τ} (ht : (s.threads t).finishing = some (q, s.mem.tail q))
      (hne : t ≠ l.actor) (htail : s'.mem.tail q = s.mem.tail q) :
      ∃ t, (s'.threads t).finishing = some (q, s'.mem.tail q) :=
    ⟨t, by rw [threads_of_ne hnext hne, ht, htail]⟩
  cases l with
  | call t op =>
      obtain ⟨hidle, rfl⟩ := next_call hnext
      obtain ⟨u, hu⟩ := h q hbehind
      refine hother hu ?_ rfl
      intro (heq : u = t)
      rw [heq, hidle] at hu
      cases hu
  | ret t result =>
      obtain ⟨hdone, rfl⟩ := next_ret hnext
      obtain ⟨u, hu⟩ := h q hbehind
      refine hother hu ?_ rfl
      intro (heq : u = t)
      rw [heq, hdone] at hu
      cases hu
  | step t fresh spurious =>
      obtain ⟨rfl, hheld⟩ := hguard
      obtain ⟨m', l', hstep, rfl⟩ := next_step hnext
      have hpre : StepPre fresh s.mem (s.threads t) :=
        ⟨hinv.shape, hinv.owner t, hinv.facts t, hinv.held_used t, fun hl => hheld hl t⟩
      rcases localStep_settles hpre hstep hbehind with hfin | ⟨htail, hold, hnot⟩
      · exact ⟨t, by simpa only [update_self] using hfin⟩
      · obtain ⟨u, hu⟩ := h q hold
        refine hother hu ?_ htail
        rintro rfl
        exact hnot hu

end Settling

section Main

variable [DecidableEq κ] [DecidableEq τ] [DecidableEq α] {s : State κ τ α} {q : κ}

/-- After all operations have returned, the destructor of a queue deletes its
nodes without deleting any twice; of all allocated nodes only those of other
queues and the one behind its tail remain. The run is one in which no held
address is handed out. -/
theorem destructor_leaves (hreach : (system κ τ α).Reach NotHeld s)
    (hidle : ∀ t, s.threads t = .idle) : ∃ m, s.mem.Destroys q m ∧
      ∀ a, m.live a = true ↔ (∃ q', q' ≠ q ∧ a ∈ s.mem.nodes q') ∨
        a = s.mem.nextAddr (s.mem.tail q).value ∧ a ≠ 0 := by
  obtain ⟨hinv, haccounted⟩ : Inv s ∧ Accounted s :=
    hreach.invariant (I := fun u => Inv u ∧ Accounted u)
      (fun _ hinit => ⟨hinit.inv, hinit.accounted⟩)
      fun _ _ _ h hguard hnext => ⟨h.1.step hguard hnext, h.2.step h.1 hguard hnext⟩
  have hs := hinv.shape
  obtain ⟨m, hdestroys, hlive⟩ := hs.destroys q
  refine ⟨m, hdestroys, fun a => ?_⟩
  rw [hlive]
  constructor
  · rintro ⟨ha, hbehind⟩
    have hqueue : ∃ q', a ∈ s.mem.nodes q' := by
      rcases haccounted a ha with hmem | ⟨t, ht⟩
      · exact hmem
      · rw [hidle t] at ht
        cases ht
    obtain ⟨q', hq'⟩ := hqueue
    by_cases hq : q' = q
    · subst hq
      exact .inr ⟨hbehind hq', hs.ne_zero hq'⟩
    · exact .inl ⟨q', hq, hq'⟩
  · rintro (⟨q', hq, ha⟩ | ⟨rfl, hne⟩)
    · exact ⟨hs.live q' a ha, fun hmem => absurd (hs.disjoint _ _ _ ha hmem) hq⟩
    · exact ⟨hs.live q _ (hs.next_mem (hs.tail_mem q) hne), fun _ => rfl⟩

/-- A push whose last exchange has failed spuriously. -/
def laggingRun : List (Label (Fin 1) Bool Nat) :=
  .call false (.push 0 7) :: .step false 2 false :: List.replicate 4 (Label.step false 0 false) ++
    [.step false 0 true, .ret false (.pushed true)]

def laggingState : State (Fin 1) Bool Nat :=
  ((system (Fin 1) Bool Nat).exec NotHeld (constructed 1 0) laggingRun).get (by decide +kernel)

/-- The destructor deletes the dummy and leaves the node of the element
behind. -/
theorem destructor_leaves_lagging : ∃ m, laggingState.mem.Destroys 0 m ∧ m.live 2 = true := by
  have hrun : (system (Fin 1) Bool Nat).Run NotHeld laggingRun laggingState :=
    run_of_exec (initial_constructed 1 0) _
  have hidle : ∀ t, laggingState.threads t = .idle := by decide +kernel
  obtain ⟨m, hdestroys, hlive⟩ := destructor_leaves (q := 0) ⟨_, hrun⟩ hidle
  refine ⟨m, hdestroys, (hlive 2).mpr (.inr ?_)⟩
  decide +kernel

/-- If in addition no exchange has failed spuriously, nothing of the queue
remains. -/
theorem destructor_frees_all (hreach : (system κ τ α).Reach Exact s)
    (hidle : ∀ t, s.threads t = .idle) : ∃ m, s.mem.Destroys q m ∧
      ∀ a, m.live a = true ↔ ∃ q', q' ≠ q ∧ a ∈ s.mem.nodes q' := by
  have hsettling : Inv s ∧ Settling s :=
    hreach.invariant (I := fun u => Inv u ∧ Settling u)
      (fun _ hinit => ⟨hinit.inv, hinit.settling⟩)
      fun _ _ _ h hguard hnext => ⟨h.1.step hguard.notHeld hnext, h.2.step h.1 hguard hnext⟩
  have hlast : s.mem.nextAddr (s.mem.tail q).value = 0 := by
    by_contra hbehind
    obtain ⟨t, ht⟩ := hsettling.2 q hbehind
    rw [hidle t] at ht
    cases ht
  have hheld : (system κ τ α).Reach NotHeld s := by
    obtain ⟨ls, hrun⟩ := hreach
    exact ⟨ls, hrun.strengthen (I := fun _ => True) (fun _ _ => trivial)
      (fun _ _ _ hguard => hguard.notHeld) fun _ _ _ _ _ _ => trivial⟩
  obtain ⟨m, hdestroys, hlive⟩ := destructor_leaves (q := q) hheld hidle
  refine ⟨m, hdestroys, fun a => ?_⟩
  rw [hlive, hlast]
  constructor
  · rintro (hother | ⟨rfl, hne⟩)
    · exact hother
    · exact absurd rfl hne
  · exact .inl

def settledRun : List (Label (Fin 1) Bool Nat) :=
  .call false (.push 0 7) :: .step false 2 false :: List.replicate 5 (Label.step false 0 false) ++
    .ret false (.pushed true) :: .call false (.push 0 8) :: .step false 3 false ::
      List.replicate 5 (Label.step false 0 false) ++
        .ret false (.pushed true) :: .call true (.pop 0 0 none) ::
          List.replicate 7 (Label.step true 0 false) ++ [.ret true (.popped true 7 none)]

instance (s : State κ τ α) (l : Label κ τ α) [Decidable (NotHeld s l)] : Decidable (Exact s l) := by
  cases l <;> unfold Exact <;> infer_instance

def settledState : State (Fin 1) Bool Nat :=
  ((system (Fin 1) Bool Nat).exec Exact (constructed 1 0) settledRun).get (by decide +kernel)

theorem destructor_frees_all_settled : (settledState.mem.live 2 = true ∧
      settledState.mem.live 3 = true) ∧
    ∃ m, settledState.mem.Destroys 0 m ∧ ∀ a, m.live a = false := by
  have hrun : (system (Fin 1) Bool Nat).Run Exact settledRun settledState :=
    run_of_exec (initial_constructed 1 0) _
  have hidle : ∀ t, settledState.threads t = .idle := by decide +kernel
  obtain ⟨m, hdestroys, hlive⟩ := destructor_frees_all (q := 0) ⟨_, hrun⟩ hidle
  refine ⟨by decide +kernel, m, hdestroys, fun a => Bool.eq_false_iff.mpr fun ha => ?_⟩
  obtain ⟨q', hne, _⟩ := (hlive a).mp ha
  exact hne (Subsingleton.elim _ _)

end Main

end Libni.MSQueue
