import Libni.MSQueue.Steps
import Libni.Transition.Progress

/-!
The queue is lock-free: a thread can only be kept from finishing by others that
get something done. An operation allocates, links, unlinks and deletes a bounded
number of nodes, and every node linked lets the tail move once; between two such
changes of memory each thread goes through its loop at most once more before it
finishes or makes one itself. Exchanges that fail spuriously are left out, since
they could send a thread back forever.
-/

namespace Libni.MSQueue

open Function Libni.Transition Libni.Transition.System

variable {κ τ α : Type*}

/-- The queue of the operation a thread is in. -/
@[simp] def Local.queue : Local κ α → Option κ
  | .push q _ | .tryPush q _ | .pop q _ _ _ _ | .tryPop q _ _ _ _ _ | .empty q _
  | .tailState q => some q
  | .idle | .done _ => none

/-- How often the operation may still allocate, link, unlink or delete a node.
All of these are behind it when it returns. -/
@[simp] def Local.pending : Local κ α → Nat
  | .push _ (.newNode _) => 2
  | .push _ (.casTail _ _) => 0
  | .push _ _ => 1
  | .tryPush _ (.casTail _ _) | .tryPush _ (.helpTail _ _) => 0
  | .tryPush _ (.casNext _ _ _) | .tryPush _ (.deleteNode _) => 1
  | .tryPush _ _ => 2
  | .pop _ _ _ _ (.deleteHead _) => 1
  | .pop _ _ _ _ _ => 2
  | .tryPop _ _ _ _ _ (.deleteHead _) => 1
  | .tryPop _ _ _ _ _ (.helpTail _ _) => 0
  | .tryPop _ _ _ _ _ _ => 2
  | .empty _ _ | .tailState _ | .idle | .done _ => 0

/-- The accesses `push` makes at most before it changes memory, if no other
thread does. A thread with outdated values has to go back to the load of the
tail. -/
@[simp] def PushPc.patience (m : Mem κ α) (q : κ) : PushPc α → Nat
  | .newNode _ => 5
  | .loadTail _ => 4
  | .loadNext _ oldTail => if m.tail q = oldTail then 3 else 6
  | .checkTail _ oldTail next =>
      if m.tail q = oldTail then if (m.heap oldTail.value).next = next then 2 else 6 else 5
  | .casNext _ oldTail next => if (m.heap oldTail.value).next = next then 1 else 5
  | .casTail _ _ => 1
  | .helpTail _ oldTail _ => if m.tail q = oldTail then 1 else 4

@[simp] def TryPushPc.patience : TryPushPc α → Nat
  | .loadTail _ _ => 5
  | .loadNext _ _ => 4
  | .newNode _ _ _ => 3
  | .casNext _ _ _ => 2
  | .casTail _ _ | .deleteNode _ | .helpTail _ _ => 1

/-- The same for `pop`, which goes back to the load of the head. -/
@[simp] def PopPc.patience (m : Mem κ α) (q : κ) : PopPc → Nat
  | .loadHead => 6
  | .loadTail oldHead => if m.head q = oldHead then 5 else 9
  | .loadNext oldHead oldTail =>
      if m.head q = oldHead then if m.tail q = oldTail then 4 else 9 else 8
  | .checkHead oldHead oldTail _ =>
      if m.head q = oldHead then if m.tail q = oldTail then 3 else 8 else 7
  | .helpTail oldTail _ => if m.tail q = oldTail then 1 else 7
  | .readValue oldHead _ => if m.head q = oldHead then 2 else 8
  | .casHead oldHead _ => if m.head q = oldHead then 1 else 7
  | .deleteHead _ => 1

@[simp] def TryPopPc.patience : TryPopPc → Nat
  | .loadHead => 6
  | .loadTail _ => 5
  | .loadNext _ _ => 4
  | .readValue _ _ => 3
  | .casHead _ _ => 2
  | .helpTail _ _ | .deleteHead _ => 1

/-- The same for `empty`, which never changes memory and returns instead. -/
@[simp] def EmptyPc.patience (m : Mem κ α) (q : κ) : EmptyPc → Nat
  | .loadHead => 4
  | .loadTail oldHead => if m.head q = oldHead then 3 else 7
  | .loadNext oldHead _ => if m.head q = oldHead then 2 else 6
  | .checkHead oldHead _ _ => if m.head q = oldHead then 1 else 5

@[simp] def Local.patience (m : Mem κ α) : Local κ α → Nat
  | .push q pc => pc.patience m q
  | .tryPush _ pc => pc.patience
  | .pop q _ _ _ pc => pc.patience m q
  | .tryPop _ _ _ _ _ pc => pc.patience
  | .empty q pc => pc.patience m q
  | .tailState _ => 1
  | .idle | .done _ => 0

theorem PushPc.patience_le (m : Mem κ α) (q : κ) (pc : PushPc α) : pc.patience m q ≤ 9 := by
  cases pc <;> simp only [patience] <;> (repeat' split) <;> decide

theorem PopPc.patience_le (m : Mem κ α) (q : κ) (pc : PopPc) : pc.patience m q ≤ 9 := by
  cases pc <;> simp only [patience] <;> (repeat' split) <;> decide

theorem EmptyPc.patience_le (m : Mem κ α) (q : κ) (pc : EmptyPc) : pc.patience m q ≤ 9 := by
  cases pc <;> simp only [patience] <;> (repeat' split) <;> decide

theorem Local.patience_le (m : Mem κ α) (l : Local κ α) : l.patience m ≤ 9 := by
  cases l with
  | push q pc => exact pc.patience_le m q
  | tryPush q pc => cases pc <;> simp
  | pop q arg e hs pc => exact pc.patience_le m q
  | tryPop q arg e s hs pc => cases pc <;> simp
  | empty q pc => exact pc.patience_le m q
  | tailState | idle | done => simp

/-- How far the tail is behind the last node. By the shape of the queue it is
one node at most. -/
def Mem.lag (m : Mem κ α) (q : κ) : Nat := if m.nextAddr (m.tail q).value = 0 then 0 else 1

theorem Mem.lag_le (m : Mem κ α) (q : κ) : m.lag q ≤ 1 := by
  unfold lag
  split <;> decide

def Local.lag (m : Mem κ α) (l : Local κ α) : Nat := l.queue.elim 0 m.lag

theorem Local.lag_le (m : Mem κ α) (l : Local κ α) : l.lag m ≤ 1 := by
  unfold lag
  cases l.queue with
  | none => exact Nat.zero_le 1
  | some q => exact m.lag_le q

/-- What an operation contributes to the budget of `n` threads: each of its
changes may let the tail of every thread's queue fall behind. -/
def Local.due (n : Nat) (m : Mem κ α) (l : Local κ α) : Nat := (n + 1) * l.pending + l.lag m

theorem Local.pending_le (l : Local κ α) : l.pending ≤ 2 := by
  cases l with
  | push q pc => cases pc <;> simp
  | tryPush q pc => cases pc <;> simp
  | pop q arg e hs pc => cases pc <;> simp
  | tryPop q arg e s hs pc => cases pc <;> simp
  | empty | tailState | idle | done => simp

/-- An operation makes at most two changes: `push` allocates and links, `pop`
unlinks and deletes. -/
theorem Local.due_le (n : Nat) (m : Mem κ α) (l : Local κ α) : l.due n m ≤ 2 * n + 3 := by
  have hpending := Nat.mul_le_mul_left (n + 1) l.pending_le
  have hlag := l.lag_le m
  unfold due
  omega

section Paid

variable [DecidableEq κ]

/-- An access uses up patience and leaves memory alone, or makes one of the
changes its operation may still make, or moves the tail up to the last node. -/
inductive Paid (m : Mem κ α) (l l' : Local κ α) : Mem κ α → Prop
  | waited (hpending : l'.pending ≤ l.pending) (hqueue : l'.queue = l.queue ∨ l'.queue = none)
      (hpatience : l'.patience m < l.patience m) : Paid m l l' m
  | changed (m' : Mem κ α) (hpending : l'.pending < l.pending) : Paid m l l' m'
  | swung (q : κ) (p : TaggedPtr) (hpending : l'.pending ≤ l.pending)
      (hq : l.queue = some q) (hqueue : l'.queue = l.queue ∨ l'.queue = none)
      (hbehind : m.lag q = 1) (hcaught : (m.setTail q p).lag q = 0) :
      Paid m l l' (m.setTail q p)

variable {fresh : Addr} {m m' : Mem κ α} {q : κ} {l l' : Local κ α} {oldTail : TaggedPtr}
  {n : Addr}

/-- The exchange of the tail. It moves the tail up, or has lost because the
tail has been moved up already. -/
theorem Paid.casTail (hs : Shape m) (hq : l.queue = some q)
    (hqueue : l'.queue = l.queue ∨ l'.queue = none) (hpending : l'.pending ≤ l.pending)
    (hnext : m.nextAddr oldTail.value = n) (hn : n ≠ 0)
    (hpatience : m.tail q ≠ oldTail → l'.patience m < l.patience m) :
    Paid m l l' (m.casTail q oldTail n false) := by
  unfold Mem.casTail
  split
  · next h =>
      obtain ⟨rfl, -⟩ := h
      refine .swung q _ hpending hq hqueue ?_ ?_
      · rw [Mem.lag, if_neg (by rwa [hnext])]
      · have hlast := (hs.lag q).resolve_left (by rwa [hnext])
        rw [hnext] at hlast
        rw [Mem.lag, Mem.tail_setTail_self, Mem.nextAddr_setTail, if_pos hlast]
  · next h => exact .waited hpending hqueue (hpatience fun heq => h ⟨heq, rfl⟩)

theorem pushStep_paid {pc : PushPc α} (h : StepPre fresh m (.push q pc))
    (hstep : pushStep m q fresh false pc = some (m', l')) : Paid m (.push q pc) l' m' := by
  have hs := h.shape
  cases pc with
  | newNode e =>
      simp only [pushStep, Option.map_eq_some_iff] at hstep
      obtain ⟨_, _, ⟨⟩⟩ := hstep
      exact .changed _ (by simp)
  | loadTail node =>
      cases hstep
      exact .waited (by simp) (.inl rfl) (by simp)
  | loadNext node oldTail =>
      cases hstep
      refine .waited (by simp) (.inl rfl) ?_
      simp only [Local.patience, PushPc.patience]
      split <;> simp
  | checkTail node oldTail next =>
      simp only [pushStep] at hstep
      split at hstep
      · next hne =>
          cases hstep
          exact .waited (by simp) (.inl rfl) (by simp [hne])
      · next heq =>
          rw [not_not] at heq
          split at hstep <;> cases hstep <;> refine .waited (by simp) (.inl rfl) ?_ <;>
            simp only [Local.patience, PushPc.patience, if_pos heq] <;> split <;> simp
  | casNext node oldTail next =>
      simp only [pushStep] at hstep
      split at hstep
      · cases hstep
        exact .changed _ (by simp)
      · next hne =>
          cases hstep
          have hstale : (m.heap oldTail.value).next ≠ next := by simpa using hne
          exact .waited (by simp) (.inl rfl) (by simp [hstale])
  | casTail node oldTail =>
      cases hstep
      exact .casTail hs rfl (.inr rfl) (by simp) h.facts.2.1 h.facts.2.2 (by simp)
  | helpTail node oldTail next =>
      simp only [pushStep] at hstep
      split at hstep
      · next heq =>
          cases hstep
          exact .casTail hs rfl (.inl rfl) (by simp) h.facts.2.1 h.facts.2.2
            fun hne => absurd heq.1 hne
      · next hne =>
          cases hstep
          have hstale : m.tail q ≠ oldTail := by simpa using hne
          exact .waited (by simp) (.inl rfl) (by simp [hstale])

theorem tryPushStep_paid {pc : TryPushPc α} (h : StepPre fresh m (.tryPush q pc))
    (hstep : tryPushStep m q fresh pc = some (m', l')) : Paid m (.tryPush q pc) l' m' := by
  have hs := h.shape
  cases pc with
  | loadTail e oldTailState =>
      simp only [tryPushStep] at hstep
      split at hstep <;> cases hstep
      · exact .waited (by simp) (.inl rfl) (by simp)
      · exact .waited (by simp) (.inr rfl) (by simp)
  | loadNext e oldTail =>
      simp only [tryPushStep] at hstep
      split at hstep <;> cases hstep <;> exact .waited (by simp) (.inl rfl) (by simp)
  | newNode e oldTail next =>
      simp only [tryPushStep, Option.map_eq_some_iff] at hstep
      obtain ⟨_, _, ⟨⟩⟩ := hstep
      exact .changed _ (by simp)
  | casNext node oldTail next =>
      simp only [tryPushStep] at hstep
      split at hstep <;> cases hstep
      · exact .changed _ (by simp)
      · exact .waited (by simp) (.inl rfl) (by simp)
  | casTail node oldTail =>
      cases hstep
      exact .casTail hs rfl (.inr rfl) (by simp) h.facts.2.1 h.facts.2.2 (by simp)
  | deleteNode node =>
      cases hstep
      exact .changed _ (by simp)
  | helpTail oldTail next =>
      cases hstep
      exact .casTail hs rfl (.inr rfl) (by simp) h.facts.2.1 h.facts.2.2 (by simp)

/-- Every access of `pop` is paid for. It goes back only with a head or a tail
that is out of date. -/
theorem popStep_paid {arg element : α} {headState : Option Tag} {pc : PopPc}
    (h : StepPre fresh m (.pop q arg element headState pc)) :
    Paid m (.pop q arg element headState pc) (popStep m q false arg element headState pc).2
      (popStep m q false arg element headState pc).1 := by
  have hs := h.shape
  cases pc with
  | loadHead => exact .waited (by simp [popStep]) (.inl rfl) (by simp [popStep])
  | loadTail oldHead =>
      refine .waited (by simp [popStep]) (.inl rfl) ?_
      simp only [popStep, Local.patience, PopPc.patience]
      split <;> simp
  | loadNext oldHead oldTail =>
      refine .waited (by simp [popStep]) (.inl rfl) ?_
      simp only [popStep, Local.patience, PopPc.patience]
      (repeat' split) <;> decide
  | checkHead oldHead oldTail next =>
      simp only [popStep]
      split
      · next hne => exact .waited (by simp) (.inl rfl) (by simp [hne])
      · next heq =>
          rw [not_not] at heq
          split
          · split
            · exact .waited (by simp) (.inr rfl) (by simp [heq]; split <;> simp)
            · refine .waited (by simp) (.inl rfl) ?_
              simp only [Local.patience, PopPc.patience, if_pos heq]
              split <;> simp
          · refine .waited (by simp) (.inl rfl) ?_
            simp only [Local.patience, PopPc.patience, if_pos heq]
            split <;> simp
  | helpTail oldTail next =>
      exact .casTail hs rfl (.inl rfl) (by simp [popStep]) h.facts.1 h.facts.2
        fun hne => by simp [popStep, hne]
  | readValue oldHead next =>
      refine .waited (by simp [popStep]) (.inl rfl) ?_
      simp only [popStep, Local.patience, PopPc.patience]
      split <;> simp
  | casHead oldHead next =>
      simp only [popStep]
      split
      · exact .changed _ (by simp)
      · next hne =>
          have hstale : m.head q ≠ oldHead := by simpa using hne
          exact .waited (by simp) (.inl rfl) (by simp [hstale])
  | deleteHead oldHead => exact .changed _ (by simp [popStep])

theorem tryPopStep_paid {arg element : α} {oldHeadState headState : Tag} {pc : TryPopPc}
    (h : StepPre fresh m (.tryPop q arg element oldHeadState headState pc)) :
    Paid m (.tryPop q arg element oldHeadState headState pc)
      (tryPopStep m q arg element oldHeadState headState pc).2
      (tryPopStep m q arg element oldHeadState headState pc).1 := by
  have hs := h.shape
  cases pc with
  | loadHead => exact .waited (by simp [tryPopStep]) (.inl rfl) (by simp [tryPopStep])
  | loadTail oldHead => exact .waited (by simp [tryPopStep]) (.inl rfl) (by simp [tryPopStep])
  | loadNext oldHead oldTail =>
      simp only [tryPopStep]
      split
      · split
        · split
          · exact .waited (by simp) (.inr rfl) (by simp)
          · exact .waited (by simp) (.inl rfl) (by simp)
        · exact .waited (by simp) (.inl rfl) (by simp)
      · exact .waited (by simp) (.inr rfl) (by simp)
  | helpTail oldTail next =>
      exact .casTail hs rfl (.inr rfl) (by simp [tryPopStep]) h.facts.1 h.facts.2
        (by simp [tryPopStep])
  | readValue oldHead next =>
      exact .waited (by simp [tryPopStep]) (.inl rfl) (by simp [tryPopStep])
  | casHead oldHead next =>
      simp only [tryPopStep]
      split
      · exact .changed _ (by simp)
      · exact .waited (by simp) (.inr rfl) (by simp)
  | deleteHead oldHead => exact .changed _ (by simp [tryPopStep])

theorem emptyStep_paid (pc : EmptyPc) :
    Paid m (.empty q pc) (emptyStep m q pc).2 (emptyStep m q pc).1 := by
  cases pc with
  | loadHead => exact .waited (by simp [emptyStep]) (.inl rfl) (by simp [emptyStep])
  | loadTail oldHead =>
      refine .waited (by simp [emptyStep]) (.inl rfl) ?_
      simp only [emptyStep, Local.patience, EmptyPc.patience]
      split <;> simp
  | loadNext oldHead oldTail =>
      refine .waited (by simp [emptyStep]) (.inl rfl) ?_
      simp only [emptyStep, Local.patience, EmptyPc.patience]
      split <;> simp
  | checkHead oldHead oldTail next =>
      simp only [emptyStep]
      split
      · next heq => exact .waited (by simp) (.inr rfl) (by simp [heq])
      · next hne => exact .waited (by simp) (.inl rfl) (by simp [hne])

/-- Every access is paid for, as long as exchanges fail on a mismatch only. A
mismatch means that some other thread has paid. -/
theorem localStep_paid (h : StepPre fresh m l)
    (hstep : localStep m fresh false l = some (m', l')) : Paid m l l' m' := by
  cases l with
  | idle => cases hstep
  | done => cases hstep
  | push q pc => exact pushStep_paid h hstep
  | tryPush q pc => exact tryPushStep_paid h hstep
  | pop q arg e hs pc =>
      have hpaid := popStep_paid h
      rw [Option.some.inj hstep] at hpaid
      exact hpaid
  | tryPop q arg e s hs pc =>
      have hpaid := tryPopStep_paid h
      rw [Option.some.inj hstep] at hpaid
      exact hpaid
  | empty q pc =>
      have hpaid := emptyStep_paid (m := m) (q := q) pc
      rw [Option.some.inj hstep] at hpaid
      exact hpaid
  | tailState q =>
      cases hstep
      exact .waited (by simp) (.inr rfl) (by simp)

end Paid

theorem localStep_isSome [DecidableEq κ] {m : Mem κ α} {l : Local κ α} {fresh : Addr}
    (spurious : Bool) (hl : l.queue.isSome = true) (hne : fresh ≠ 0)
    (hfree : m.live fresh = false) : (localStep m fresh spurious l).isSome = true := by
  have hnew (e : α) : (m.new fresh e).isSome = true := by simp [Mem.new, hne, hfree]
  cases l with
  | push q pc =>
      cases pc <;> simp only [localStep, pushStep, Option.isSome_map, hnew, Option.isSome_some] <;>
        (repeat' split) <;> rfl
  | tryPush q pc =>
      cases pc <;>
        simp only [localStep, tryPushStep, Option.isSome_map, hnew, Option.isSome_some] <;>
        (repeat' split) <;> rfl
  | pop | tryPop | empty | tailState => rfl
  | idle | done => cases hl

/-- How many nodes the operation may still link. One that `try_push` gives up
counts until it is deleted. -/
@[simp] def Local.links : Local κ α → Nat
  | .push _ (.casTail _ _) => 0
  | .push _ _ => 1
  | .tryPush _ (.casTail _ _) | .tryPush _ (.helpTail _ _) => 0
  | .tryPush _ _ => 1
  | _ => 0

theorem Local.links_le (l : Local κ α) : l.links ≤ 1 := by
  cases l with
  | push q pc => cases pc <;> simp
  | tryPush q pc => cases pc <;> simp
  | pop | tryPop | empty | tailState | idle | done => simp

/-- The number of tails behind the last node of their queue. -/
def Mem.lags [Fintype κ] (m : Mem κ α) : Nat := ∑ q, m.lag q

theorem Mem.lags_le [Fintype κ] (m : Mem κ α) : m.lags ≤ Fintype.card κ := by
  have hle := Finset.univ.sum_le_card_nsmul m.lag 1 fun q _ => m.lag_le q
  simpa [Mem.lags, Finset.card_univ] using hle

section Tails

variable [DecidableEq κ] {fresh : Addr} {m m' : Mem κ α} {q : κ} {l l' : Local κ α}

theorem pushStep_links {pc : PushPc α} {spurious : Bool}
    (hstep : pushStep m q fresh spurious pc = some (m', l')) :
    l'.links ≤ (Local.push q pc).links ∧
      ((Local.push q pc).node ≠ none → l'.node = none → l'.links < (Local.push q pc).links) := by
  have hle : l'.links ≤ 1 := l'.links_le
  cases pc with
  | newNode e => exact ⟨hle, fun hnode => absurd rfl hnode⟩
  | loadTail node | loadNext node oldTail =>
      cases hstep
      exact ⟨hle, fun _ hnode => by cases hnode⟩
  | checkTail node oldTail next =>
      simp only [pushStep] at hstep
      refine ⟨hle, fun _ hnode => ?_⟩
      split at hstep
      · cases hstep
        cases hnode
      · split at hstep <;> cases hstep <;> cases hnode
  | casNext node oldTail next =>
      simp only [pushStep] at hstep
      refine ⟨hle, fun _ hnode => ?_⟩
      split at hstep <;> cases hstep
      · exact Nat.one_pos
      · cases hnode
  | casTail node oldTail =>
      cases hstep
      exact ⟨Nat.le_refl 0, fun hnode => absurd rfl hnode⟩
  | helpTail node oldTail next =>
      simp only [pushStep] at hstep
      refine ⟨hle, fun _ hnode => ?_⟩
      split at hstep <;> cases hstep <;> cases hnode

theorem tryPushStep_links {pc : TryPushPc α}
    (hstep : tryPushStep m q fresh pc = some (m', l')) :
    l'.links ≤ (Local.tryPush q pc).links ∧ ((Local.tryPush q pc).node ≠ none →
      l'.node = none → l'.links < (Local.tryPush q pc).links) := by
  have hle : l'.links ≤ 1 := l'.links_le
  cases pc with
  | loadTail | loadNext | newNode => exact ⟨hle, fun hnode => absurd rfl hnode⟩
  | casNext node oldTail next =>
      simp only [tryPushStep] at hstep
      refine ⟨hle, fun _ hnode => ?_⟩
      split at hstep <;> cases hstep
      · exact Nat.one_pos
      · cases hnode
  | deleteNode node =>
      cases hstep
      exact ⟨hle, fun _ _ => Nat.one_pos⟩
  | casTail | helpTail =>
      cases hstep
      exact ⟨Nat.le_refl 0, fun hnode => absurd rfl hnode⟩

/-- An operation that gives away its node, by linking or deleting it, links no
other. -/
theorem localStep_links {spurious : Bool}
    (hstep : localStep m fresh spurious l = some (m', l')) :
    l'.links ≤ l.links ∧ (l.node ≠ none → l'.node = none → l'.links < l.links) := by
  cases l with
  | idle | done => cases hstep
  | push q pc => exact pushStep_links hstep
  | tryPush q pc => exact tryPushStep_links hstep
  | pop q arg e hs pc =>
      have hle : (popStep m q spurious arg e hs pc).2.links ≤ 0 := by
        cases pc <;> simp only [popStep] <;> (repeat' split) <;> exact Nat.le_refl 0
      rw [Option.some.inj hstep] at hle
      exact ⟨hle, fun hnode => absurd rfl hnode⟩
  | tryPop q arg e s hs pc =>
      have hle : (tryPopStep m q arg e s hs pc).2.links ≤ 0 := by
        cases pc <;> simp only [tryPopStep] <;> (repeat' split) <;> exact Nat.le_refl 0
      rw [Option.some.inj hstep] at hle
      exact ⟨hle, fun hnode => absurd rfl hnode⟩
  | empty q pc =>
      have hle : (emptyStep m q pc).2.links ≤ 0 := by
        cases pc <;> simp only [emptyStep] <;> (repeat' split) <;> exact Nat.le_refl 0
      rw [Option.some.inj hstep] at hle
      exact ⟨hle, fun hnode => absurd rfl hnode⟩
  | tailState q =>
      cases hstep
      exact ⟨Nat.le_refl 0, fun hnode => absurd rfl hnode⟩

variable [Fintype κ]

/-- Only a node that is linked lets a tail fall behind, and a tail that moves
catches up. -/
theorem localStep_lags {spurious : Bool} (h : StepPre fresh m l)
    (hstep : localStep m fresh spurious l = some (m', l')) :
    m'.lags + l'.links ≤ m.lags + l.links ∧
      (m'.tail ≠ m.tail → m'.lags + l'.links < m.lags + l.links) := by
  have hs := h.shape
  obtain ⟨hle, hgives⟩ := localStep_links hstep
  have hquiet (htail : m'.tail = m.tail) (hlag : m'.lag = m.lag) :
      m'.lags + l'.links ≤ m.lags + l.links ∧
        (m'.tail ≠ m.tail → m'.lags + l'.links < m.lags + l.links) := by
    refine ⟨?_, fun hne => absurd htail hne⟩
    rw [Mem.lags, Mem.lags, hlag]
    exact Nat.add_le_add_left hle _
  cases (localStep_ok h hstep).change with
  | same | advance | free => exact hquiet rfl rfl
  | alloc e _ hnew =>
      refine hquiet ?_ ?_
      · obtain ⟨_, rfl⟩ := Mem.new_eq_some.mp hnew
        rfl
      · funext q
        have hnext := Mem.nextAddr_new hnew (hs.ne_of_new hnew (hs.tail_mem q))
        obtain ⟨_, rfl⟩ := Mem.new_eq_some.mp hnew
        rw [Mem.lag, Mem.lag, hnext]
  | link q n t hnull hn hnode =>
      have hfewer := hgives (by rw [hn]; simp) hnode
      have hothers (q' : κ) (hq : q' ≠ q) :
          (m.setNext (m.tail q).value ⟨n, t⟩).lag q' = m.lag q' := by
        have hne : (m.tail q').value ≠ (m.tail q).value := fun heq =>
          hq (hs.disjoint q' q _ (hs.tail_mem q') (by rw [heq]; exact hs.tail_mem q))
        rw [Mem.lag, Mem.tail_setNext, Mem.nextAddr_setNext_of_ne _ hne, Mem.lag]
      have hsum := sum_add_eq q hothers
      have hone := (m.setNext (m.tail q).value ⟨n, t⟩).lag_le q
      refine ⟨?_, fun hne => absurd rfl hne⟩
      unfold Mem.lags
      omega
  | swing q t hne =>
      have hbehind : m.lag q = 1 := if_neg hne
      have hcaught : (m.setTail q ⟨m.nextAddr (m.tail q).value, t⟩).lag q = 0 := by
        rw [Mem.lag, Mem.tail_setTail_self, Mem.nextAddr_setTail,
          if_pos ((hs.lag q).resolve_left hne)]
      have hothers (q' : κ) (hq : q' ≠ q) :
          (m.setTail q ⟨m.nextAddr (m.tail q).value, t⟩).lag q' = m.lag q' := by
        rw [Mem.lag, Mem.tail_setTail_of_ne _ hq, Mem.nextAddr_setTail, Mem.lag]
      have hsum := sum_add_eq q hothers
      have hless : (m.setTail q ⟨m.nextAddr (m.tail q).value, t⟩).lags + l'.links <
          m.lags + l.links := by
        unfold Mem.lags
        omega
      exact ⟨hless.le, fun _ => hless⟩

end Tails

section Runs

variable [DecidableEq κ] [DecidableEq τ] [DecidableEq α]

/-- A step of one of the threads inside its operation, without a spurious
failure and without an address that is held. -/
def Busy (threads : Finset τ) (s : State κ τ α) : Label κ τ α → Prop
  | .step t fresh spurious =>
      t ∈ threads ∧ spurious = false ∧ NotHeld s (.step t fresh spurious)
  | _ => False

instance [Fintype τ] (threads : Finset τ) (s : State κ τ α) (l : Label κ τ α) :
    Decidable (Busy threads s l) :=
  match l with
  | .step t fresh spurious =>
      inferInstanceAs (Decidable (t ∈ threads ∧ spurious = false ∧
        NotHeld s (.step t fresh spurious)))
  | .call _ _ | .ret _ _ => inferInstanceAs (Decidable False)

variable {threads : Finset τ} {s s' : State κ τ α} {ls : List (Label κ τ α)}

omit [DecidableEq κ] [DecidableEq α] [DecidableEq τ] in
theorem Busy.notHeld {l : Label κ τ α} (h : Busy threads s l) : NotHeld s l := by
  cases l with
  | step t fresh spurious => exact h.2.2
  | call | ret => exact h.elim

/-- What all operations of the threads may still do. -/
def budget (threads : Finset τ) (s : State κ τ α) : Nat :=
  ∑ t ∈ threads, (s.threads t).due threads.card s.mem

omit [DecidableEq κ] [DecidableEq α] [DecidableEq τ] in
theorem budget_le (threads : Finset τ) (s : State κ τ α) :
    budget threads s ≤ threads.card * (2 * threads.card + 3) :=
  threads.sum_le_card_nsmul _ _ fun _ _ => Local.due_le _ _ _

omit [DecidableEq κ] [DecidableEq α] in
/-- A change one operation makes is paid for, whatever it does to the tails. -/
theorem budget_lt_of_pending {t : τ} {m : Mem κ α} {l : Local κ α} (ht : t ∈ threads)
    (hpending : l.pending < (s.threads t).pending) :
    budget threads ⟨m, update s.threads t l⟩ < budget threads s := by
  refine sum_lt_of_pays ht ?_ fun u hu => ?_
  · have hmul := Nat.mul_le_mul_left (threads.card + 1) hpending
    have hlag := l.lag_le m
    rw [Nat.mul_succ] at hmul
    simp only [update_self, Local.due]
    omega
  · have hlag := (s.threads u).lag_le m
    simp only [update_of_ne hu, Local.due]
    omega

/-- Between two changes of memory, every thread of the group uses up its
patience, which a change gives back. -/
theorem spends (threads : Finset τ) : Spends (system κ τ α) (Busy threads) Inv Label.actor threads
    (budget threads) (fun s t => (s.threads t).patience s.mem) 9 where
  inv _ _ _ h hguard := h.step hguard.notHeld
  actor_mem s l hguard := by
    cases l with
    | step t fresh spurious => exact hguard.1
    | call | ret => exact hguard.elim
  le_cap s t := Local.patience_le _ _
  step s l s' h hguard hnext := by
    cases l with
    | call | ret => exact hguard.elim
    | step t fresh spurious =>
        obtain ⟨ht, rfl, hheld⟩ := hguard
        obtain ⟨m', l', hstep, rfl⟩ := next_step hnext
        have hpre : StepPre fresh s.mem (s.threads t) :=
          ⟨h.shape, h.owner t, h.facts t, h.held_used t, fun hl => hheld hl t⟩
        have hlag {m : Mem κ α} (hq : l'.queue = (s.threads t).queue ∨ l'.queue = none) :
            l'.lag m ≤ (s.threads t).lag m := by
          rcases hq with hq | hq
          · rw [Local.lag, Local.lag, hq]
          · rw [Local.lag, hq]
            exact Nat.zero_le _
        cases localStep_paid hpre hstep with
        | waited hpending hqueue hpatience =>
            refine .inr ⟨Finset.sum_le_sum fun u _ => ?_, ?_, fun u hu => ?_⟩
            · by_cases hu : u = t
              · subst hu
                simp only [update_self, Local.due]
                exact Nat.add_le_add (Nat.mul_le_mul_left _ hpending) (hlag hqueue)
              · simp only [update_of_ne hu]
                exact Nat.le_refl _
            · simpa only [Label.actor, update_self] using hpatience
            · simp only [Label.actor] at hu
              simp only [update_of_ne hu]
        | changed _ hpending => exact .inl (budget_lt_of_pending ht hpending)
        | swung q p hpending hq hqueue hbehind hcaught =>
            have hle (k : Local κ α) : k.lag (s.mem.setTail q p) ≤ k.lag s.mem := by
              unfold Local.lag
              cases hk : k.queue with
              | none => exact Nat.le_refl _
              | some q' =>
                  change (s.mem.setTail q p).lag q' ≤ s.mem.lag q'
                  by_cases hq' : q' = q
                  · subst hq'
                    rw [hcaught]
                    exact Nat.zero_le _
                  · rw [Mem.lag, Mem.lag, Mem.tail_setTail_of_ne p hq', Mem.nextAddr_setTail]
            have hown : l'.lag (s.mem.setTail q p) < (s.threads t).lag s.mem := by
              have hzero : (s.threads t).lag (s.mem.setTail q p) = 0 := by
                rw [Local.lag, hq]
                exact hcaught
              have hone : (s.threads t).lag s.mem = 1 := by
                rw [Local.lag, hq]
                exact hbehind
              have := hlag (m := s.mem.setTail q p) hqueue
              omega
            refine .inl (Finset.sum_lt_sum (fun u _ => ?_) ⟨t, ht, ?_⟩)
            · by_cases hu : u = t
              · subst hu
                simp only [update_self, Local.due]
                exact Nat.add_le_add (Nat.mul_le_mul_left _ hpending) hown.le
              · simp only [update_of_ne hu, Local.due]
                exact Nat.add_le_add_left (hle _) _
            · simp only [update_self, Local.due]
              exact Nat.add_lt_add_of_le_of_lt (Nat.mul_le_mul_left _ hpending) hown

/-- The steps `n` threads can take before one of them returns. It depends on
nothing but their number. -/
def stepBound (n : Nat) : Nat := n * (2 * n + 3) * (n * 9 + 1) + n * 9

/-- However many threads are inside operations and however they are scheduled,
the number of steps they can take without a return is bounded, and until all
of them are done there is a step to take. No held address is handed out,
neither before nor in these steps: a tail that lags by many nodes would need
more of them. -/
theorem msQueue_lockFree (hreach : (system κ τ α).Reach NotHeld s)
    (hsteps : (system κ τ α).Steps (Busy threads) s ls s') :
    ls.length ≤ stepBound threads.card ∧
      ∀ t ∈ threads, (s'.threads t).queue.isSome = true →
        ∀ fresh, fresh ≠ 0 → s'.mem.live fresh = false →
          (∀ u, (s'.threads u).held ≠ some fresh) →
            Busy threads s' (.step t fresh false) ∧
              ((system κ τ α).next s' (.step t fresh false)).isSome = true := by
  obtain ⟨_, hrun⟩ := hreach
  have hlength := (spends threads).length_le (inv_of_run hrun) hsteps
  have hbudget := Nat.mul_le_mul_right (threads.card * 9 + 1) (budget_le threads s)
  refine ⟨?_, fun t ht hl fresh hne hfree hheld => ⟨⟨ht, rfl, fun _ => hheld⟩, ?_⟩⟩
  · unfold stepBound
    omega
  · change (Option.map _ (localStep s'.mem fresh false (s'.threads t))).isSome = true
    rw [Option.isSome_map]
    exact localStep_isSome false hl hne hfree

/-- One thread has called `push` and another `pop`. -/
def bothCalled : State (Fin 1) Bool Nat :=
  ((system (Fin 1) Bool Nat).exec NotHeld (constructed 1 0)
    [.call false (.push 0 7), .call true (.pop 0 0 none)]).get (by decide +kernel)

/-- The pop has seen the new node behind the dummy and the tail still on it. -/
def contended : List (Label (Fin 1) Bool Nat) :=
  .step false 2 false :: List.replicate 4 (Label.step false 0 false) ++
    List.replicate 4 (Label.step true 0 false)

def contendedState : State (Fin 1) Bool Nat :=
  ((system (Fin 1) Bool Nat).exec (Busy .univ) bothCalled contended).get (by decide +kernel)

theorem msQueue_lockFree_contended : contended.length ≤ stepBound 2 ∧
    ((system (Fin 1) Bool Nat).next contendedState (.step true 3 false)).isSome = true := by
  have hrun : (system (Fin 1) Bool Nat).Run NotHeld
      [.call false (.push 0 7), .call true (.pop 0 0 none)] bothCalled :=
    run_of_exec (initial_constructed 1 0) _
  have hsteps : (system (Fin 1) Bool Nat).Steps (Busy .univ) bothCalled contended
      contendedState := steps_of_exec (Option.some_get _).symm
  have hfree := msQueue_lockFree ⟨_, hrun⟩ hsteps
  refine ⟨hfree.1, (hfree.2 true (Finset.mem_univ _) ?_ 3 ?_ ?_ ?_).2⟩
  · decide +kernel
  · decide
  · decide +kernel
  · decide +kernel

end Runs

end Libni.MSQueue
