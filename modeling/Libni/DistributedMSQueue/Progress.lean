import Libni.DistributedMSQueue.Linearizable
import Libni.MSQueue.Progress

/-!
The container is lock-free as its backends are. A `get` goes through its passes again
only if a tail has moved since it looked at it. A tail moves once for each element that
is put, and once more if it was behind, so that without new calls the rounds of all
threads together are bounded, and with them the turns of the passes and the accesses
of each turn.
-/

namespace Libni.DistributedMSQueue

open Function Libni.Transition Libni.Transition.System Libni.MSQueue

section Turns

variable {n : Nat} {τ α : Type*}

/-- How many turns of a first pass have looked at the tail they may report, if
the thread is at turn `i`. -/
def looked (i : Nat) : Local (Fin n) (Item τ α) → Nat
  | .pop _ _ _ _ (.loadNext _ _) | .pop _ _ _ _ (.checkHead _ _ _)
  | .done (.popped false _ _) => i + 1
  | _ => i

/-- A tail has moved since a pass looked at it in one of its first `k` turns. -/
def Outrun (h : History (Fin n) (Item τ α)) (seen : Fin n → Nat) (start : Fin n) (k : Nat) :
    Prop :=
  ∃ j < k, seen (segmentIndex start j) < h.advances (segmentIndex start j)

instance (h : History (Fin n) (Item τ α)) (seen : Fin n → Nat) (start : Fin n) (k : Nat) :
    Decidable (Outrun h seen start k) :=
  inferInstanceAs (Decidable (∃ j < k, _ < _))

/-- The turns of the further round that the second pass may ask for. -/
def further (h : History (Fin n) (Item τ α)) (seen : Fin n → Nat) (start : Fin n) (k : Nat) :
    Nat :=
  if Outrun h seen start k then 2 * n + 2 else 0

/-- The turns a thread in `put` or `get` may still take if no tail moves any
more. -/
def Caller.turns (h : History (Fin n) (Item τ α)) (seen : Fin n → Nat)
    (l : Local (Fin n) (Item τ α)) : Caller n τ α → Nat
  | .idle | .putDone _ _ | .getDone _ _ => 0
  | .put _ => 1
  | .own _ => 2 * n + 3
  | .retry _ => 2 * n + 2
  | .first _ start i _ => 2 * n + 1 - i + further h seen start (looked i l)
  | .second _ start i _ => n + 1 - i + further h seen start n

variable {h h' : History (Fin n) (Item τ α)} {seen seen' : Fin n → Nat} {start : Fin n}
  {k k' : Nat} {l l' : Local (Fin n) (Item τ α)} {c : Caller n τ α}

theorem further_le : further h seen start k ≤ 2 * n + 2 := by
  unfold further
  split
  · exact Nat.le_refl _
  · exact Nat.zero_le _

theorem further_mono (hout : Outrun h seen start k → Outrun h' seen' start k') :
    further h seen start k ≤ further h' seen' start k' := by
  unfold further
  split
  · next hk => rw [if_pos (hout hk)]
  · exact Nat.zero_le _

theorem Outrun.mono (hout : Outrun h seen start k) (hle : k ≤ k') : Outrun h seen start k' := by
  obtain ⟨j, hj, hlt⟩ := hout
  exact ⟨j, hj.trans_le hle, hlt⟩

theorem Caller.turns_le : c.turns h seen l ≤ 4 * n + 3 := by
  cases c with
  | first _ start i =>
      have hle : further h seen start (looked i l) ≤ 2 * n + 2 := further_le
      simp only [turns]
      omega
  | second _ start i =>
      have hle : further h seen start n ≤ 2 * n + 2 := further_le
      simp only [turns]
      omega
  | idle | put | own | retry | putDone | getDone =>
      simp only [turns]
      omega

/-- Whatever happens to the tails asks for one more round at most. That round
is paid by the tail that has moved. -/
theorem Caller.turns_le_add : c.turns h' seen' l' ≤ c.turns h seen l + (2 * n + 2) := by
  cases c with
  | first _ start i =>
      have hle : further h' seen' start (looked i l') ≤ 2 * n + 2 := further_le
      simp only [turns]
      omega
  | second _ start i =>
      have hle : further h' seen' start n ≤ 2 * n + 2 := further_le
      simp only [turns]
      omega
  | _ => exact Nat.le_add_right _ _

theorem Caller.turns_congr (hadvances : h'.advances = h.advances) :
    c.turns h' seen l = c.turns h seen l := by
  have heq (start : Fin n) (k : Nat) : further h' seen start k = further h seen start k := by
    have hout : Outrun h' seen start k ↔ Outrun h seen start k := by
      rw [Outrun, Outrun, hadvances]
    exact Nat.le_antisymm (further_mono hout.mp) (further_mono hout.mpr)
  cases c <;> simp only [turns, heq]

variable {m m' : Mem (Fin n) (Item τ α)} {fresh : Addr}

theorem advances_after (htail : m'.tail = m.tail) : (h.after m m').advances = h.advances := by
  funext q
  simp [History.after, htail]

theorem seen_of_ne {pc : PopPc} {a b : Nat} (hpc : ∀ oldHead, pc ≠ .loadTail oldHead) :
    pc.seen a b = b := by
  cases pc with
  | loadTail oldHead => exact absurd rfl (hpc oldHead)
  | _ => rfl

theorem looked_popStep {q : Fin n} {arg e : Item τ α} {headState : Option Tag} {pc : PopPc}
    (i : Nat) (hpc : ∀ oldHead, pc ≠ .loadTail oldHead) :
    looked i (popStep m q false arg e headState pc).2 ≤ looked i (.pop q arg e headState pc) := by
  cases pc with
  | loadTail oldHead => exact absurd rfl (hpc oldHead)
  | loadHead | loadNext | helpTail | readValue | deleteHead => exact Nat.le_refl _
  | checkHead oldHead oldTail next =>
      simp only [popStep]
      split
      · exact Nat.le_succ i
      · split
        · split
          · exact Nat.le_refl _
          · exact Nat.le_succ i
        · exact Nat.le_succ i
  | casHead oldHead next =>
      simp only [popStep]
      split <;> exact Nat.le_refl _

/-- An access that moves no tail: a thread that looks at a tail looks at it as
it is. -/
theorem Caller.turns_access (hok : c.Ok h m seen l)
    (hstep : localStep m fresh false l = some (m', l')) (htail : m'.tail = m.tail) :
    c.turns (h.after m m') (look h seen l) l' ≤ c.turns h seen l := by
  rw [turns_congr (advances_after htail)]
  cases c with
  | idle | put | own | retry | putDone | getDone => exact Nat.le_refl _
  | first e start i tailsStates =>
      obtain ⟨hi, ⟨arg, tag, hfound⟩, -⟩ := hok
      refine Nat.add_le_add_left (further_mono ?_) _
      cases hfound with
      | taken | empty => cases hstep
      | @searching e pc =>
          rw [localStep, Option.some.injEq] at hstep
          obtain ⟨rfl, rfl⟩ := Prod.mk.inj hstep.symm
          by_cases hload : ∃ oldHead, pc = .loadTail oldHead
          · obtain ⟨oldHead, rfl⟩ := hload
            rintro ⟨j, hj, hlt⟩
            have hj : j < i + 1 := hj
            by_cases hji : j = i
            · subst hji
              simp [look, PopPc.seen] at hlt
            · have hne : segmentIndex start j ≠ segmentIndex start i := fun heq =>
                hji (segmentIndex_inj (by omega) hi heq)
              rw [look, update_of_ne hne] at hlt
              exact ⟨j, show j < i by omega, hlt⟩
          · have hpc (oldHead : TaggedPtr) : pc ≠ .loadTail oldHead := fun heq =>
              hload ⟨oldHead, heq⟩
            have hseen : look h seen (.pop (segmentIndex start i) arg e (some tag) pc) = seen := by
              rw [look, seen_of_ne hpc, update_eq_self]
            rw [hseen]
            exact fun hout => hout.mono (looked_popStep i hpc)
  | second e start i tailsStates =>
      obtain ⟨-, rfl | ⟨tag, rfl⟩, -⟩ := hok
      · exact Nat.le_refl _
      · cases hstep

end Turns

section Steps

variable {n : Nat} {τ α : Type*}

def Container.turns (s : Container n τ α) (t : τ) : Nat :=
  (s.callers t).turns s.history (s.seen t) (s.backends.threads t)

/-- A tail whose tag the second pass has loaded and that is not the one of the
first pass has moved since. -/
def Heeded (s : Container n τ α) : Prop :=
  ∀ t element start i tailsStates tag, s.callers t = .second element start i tailsStates →
    s.backends.threads t = .done (.state tag) → tag ≠ tailsStates i →
      s.seen t (segmentIndex start i) < s.history.advances (segmentIndex start i)

/-- The thread goes on from one operation of a backend to the next, or is
done, and has a turn less to take. -/
structure Turn (t : τ) (s s' : Container n τ α) : Prop where
  mem : s'.backends.mem = s.backends.mem
  history : s'.history = s.history
  seen : s'.seen = s.seen
  callers : ∀ u ≠ t, s'.callers u = s.callers u
  threads : ∀ u ≠ t, s'.backends.threads u = s.backends.threads u
  links : (s'.backends.threads t).links = 0
  notDone : ∀ r, s'.backends.threads t ≠ .done r
  spent : s'.turns t < s.turns t

variable {s s' : Container n τ α} {t : τ} {c : Caller n τ α} {e : Item τ α} {start : Fin n}
  {i : Nat} {tailsStates : Nat → Tag} [DecidableEq τ] [DecidableEq α]

omit [DecidableEq α] in
theorem Turn.settle (hspent : c.turns s.history (s.seen t) .idle < s.turns t) :
    Turn t s (s.settle t c) where
  mem := rfl
  history := rfl
  seen := rfl
  callers u hu := update_of_ne hu _ _
  threads u hu := update_of_ne hu _ _
  links := by simp [Container.settle]
  notDone r := by simp [Container.settle]
  spent := by simpa [Container.turns, Container.settle] using hspent

omit [DecidableEq α] in
theorem Turn.invoke {op : Op (Fin n) (Item τ α)} (hlinks : (MSQueue.start op).links = 0)
    (hspent : c.turns s.history (s.seen t) (MSQueue.start op) < s.turns t) :
    Turn t s (s.invoke t c op) where
  mem := rfl
  history := rfl
  seen := rfl
  callers u hu := update_of_ne hu _ _
  threads u hu := update_of_ne hu _ _
  links := by simpa [Container.invoke] using hlinks
  notDone r := by cases op <;> simp [Container.invoke, MSQueue.start]
  spent := by simpa [Container.turns, Container.invoke] using hspent

omit [DecidableEq α] in
theorem Turn.firstTurn (hi : i ≤ n)
    (hspent : 2 * n + 1 - i + further s.history (s.seen t) start i < s.turns t) :
    Turn t s (s.firstTurn t e start i tailsStates) := by
  unfold Container.firstTurn
  split
  · exact .invoke rfl hspent
  · obtain rfl : i = n := by omega
    refine .invoke rfl ?_
    simp only [Caller.turns]
    omega

omit [DecidableEq α] in
theorem Turn.secondTurn
    (hspent : n + 1 - i + further s.history (s.seen t) start n < s.turns t) :
    Turn t s (s.secondTurn t e start i tailsStates) := by
  unfold Container.secondTurn
  split
  · exact .invoke rfl hspent
  · exact .settle (Nat.lt_of_le_of_lt (Nat.zero_le _) hspent)

omit [DecidableEq α] in
/-- The answer of a backend takes a turn. Only an outrun pass begins another
round. -/
theorem Turn.resume {r : Res (Item τ α)} (hinv : Inv s) (hheeded : Heeded s)
    (hdone : s.backends.threads t = .done r)
    (hnext : s.resume t (s.callers t) r = some s') : Turn t s s' := by
  have hok := hinv.caller t
  have hturns : s.turns t = (s.callers t).turns s.history (s.seen t) (.done r) := by
    rw [Container.turns, hdone]
  rw [hdone] at hok
  have hheeded := hheeded t
  rw [hdone] at hheeded
  generalize s.callers t = c at hok hturns hheeded hnext
  unfold Container.resume at hnext
  split at hnext
  · cases hnext
    exact .settle (by rw [hturns]; exact Nat.one_pos)
  · cases hnext
    exact .settle (by rw [hturns]; exact Nat.succ_pos _)
  · cases hnext
    exact .settle (by rw [hturns]; exact Nat.lt_succ_self _)
  · cases hnext
    have hi := hok.1
    refine .settle ?_
    rw [hturns]
    simp only [Caller.turns]
    omega
  · cases hnext
    have hi := hok.1
    refine .firstTurn hi ?_
    rw [hturns]
    simp only [Caller.turns, looked]
    omega
  · next element start i tailsStates tag =>
      have hi := hok.1
      split at hnext <;> cases hnext
      · refine .secondTurn ?_
        rw [hturns]
        simp only [Caller.turns]
        omega
      · next hne =>
          have hout : Outrun s.history (s.seen t) start n :=
            ⟨_, hi, hheeded _ _ _ _ _ rfl rfl hne⟩
          refine .settle ?_
          rw [hturns]
          simp only [Caller.turns, further, if_pos hout]
          omega
  · cases hnext

def Label.inside : Label n τ α → Bool
  | .round _ _ | .step _ _ => true
  | .put _ _ | .get _ _ | .ret _ => false

variable {backend : τ → Option (Fin n)} {l : Label n τ α}

/-- Inside `put` and `get` a thread makes an access inside a backend or takes
a turn. -/
theorem Turn.or_access (hinv : Inv s) (hheeded : Heeded s) (hl : l.inside = true)
    (hnext : s.next backend l = some s') :
    Turn l.thread s s' ∨ ∃ fresh, l = .step l.thread fresh ∧ s.access l.thread fresh = some s' := by
  cases l with
  | put | get | ret => cases hl
  | round t start =>
      change Turn t s s' ∨ _
      simp only [Container.next] at hnext
      split at hnext
      · next e hc =>
          cases hnext
          refine .inl (.firstTurn (Nat.zero_le n) ?_)
          have hnone : ¬ Outrun s.history (s.seen t) start 0 := by
            rintro ⟨j, hj, -⟩
            exact absurd hj (Nat.not_lt_zero j)
          rw [Container.turns, hc, further, if_neg hnone]
          exact Nat.lt_succ_self _
      · cases hnext
  | step t fresh =>
      change Turn t s s' ∨ _
      simp only [Container.next] at hnext
      split at hnext
      · next r hdone => exact .inl (.resume hinv hheeded hdone hnext)
      · split at hnext
        · next e hc =>
            split at hnext <;> cases hnext
            refine .inl (.settle ?_)
            rw [Container.turns, hc]
            exact Nat.succ_pos _
        · cases hnext
      · exact .inr ⟨fresh, rfl, hnext⟩

/-- An access inside a backend moves its thread there and is recorded. -/
theorem access_eq {fresh : Addr} (hnext : s.access t fresh = some s') :
    ∃ m' l', localStep s.backends.mem fresh false (s.backends.threads t) = some (m', l') ∧
      s' = { s with
        backends := ⟨m', update s.backends.threads t l'⟩
        history := s.history.after s.backends.mem m'
        seen := update s.seen t (look s.history (s.seen t) (s.backends.threads t)) } := by
  simp only [Container.access, MSQueue.next, Option.map_map, Option.map_eq_some_iff,
    Function.comp_apply] at hnext
  obtain ⟨⟨m', l'⟩, hstep, hs⟩ := hnext
  exact ⟨m', l', hstep, hs.symm⟩

/-- The load of a tail in the second pass tells whether it has moved. -/
theorem Inv.heeds {fresh : Addr} (hinv : Inv s) (hnext : s.access t fresh = some s')
    {element : Item τ α} {tag : Tag} (hc : s'.callers t = .second element start i tailsStates)
    (hdone : s'.backends.threads t = .done (.state tag)) (hne : tag ≠ tailsStates i) :
    s'.seen t (segmentIndex start i) < s'.history.advances (segmentIndex start i) := by
  have hok := hinv.caller t
  obtain ⟨m', l', hstep, rfl⟩ := access_eq hnext
  simp only [update_self] at hc hdone ⊢
  rw [hc] at hok
  obtain ⟨hi, hl | ⟨tag', hl⟩, hobs⟩ := hok
  · rw [hl] at hstep ⊢
    cases hstep
    obtain rfl : (s.backends.mem.tail (segmentIndex start i)).tag = tag := by simpa using hdone
    simp only [look, History.after_self]
    refine lt_of_le_of_ne (hinv.seen_le t _) fun heq => hne ?_
    rw [hinv.recorded.tail_tag, (hobs i hi).1, heq]
  · rw [hl] at hstep
    cases hstep

theorem Heeded.next (h : Heeded s) (hinv : Inv s) (hnext : s.next backend l = some s') :
    Heeded s' := by
  intro u element start i tailsStates tag hc hdone hne
  by_cases hu : u = l.thread
  · subst hu
    cases l with
    | put t value =>
        simp only [Container.next] at hnext
        split at hnext <;> cases hnext
        simp [Label.thread, Container.invoke] at hc
    | get t element =>
        simp only [Container.next] at hnext
        split at hnext <;> cases hnext <;>
          simp [Label.thread, Container.invoke, Container.settle] at hc
    | ret t =>
        simp only [Container.next] at hnext
        split at hnext <;> cases hnext <;> simp [Label.thread] at hc
    | round | step =>
        rcases Turn.or_access hinv h rfl hnext with hturn | ⟨fresh, -, haccess⟩
        · exact absurd hdone (hturn.notDone _)
        · exact hinv.heeds haccess hc hdone hne
  · have hframe := Frame.next hu hnext
    rw [hframe.caller] at hc
    rw [hframe.thread] at hdone
    rw [hframe.seen]
    exact (h u _ _ _ _ _ hc hdone hne).trans_le (hframe.le _)

end Steps

section Runs

variable {n : Nat} {τ α : Type*}

/-- How often the tails can still move. -/
def moves (threads : Finset τ) (s : Container n τ α) : Nat :=
  s.backends.mem.lags + ∑ t ∈ threads, (s.backends.threads t).links

/-- What a thread may still do: each turn calls an operation of a backend that
changes memory twice at most. -/
def Container.due (s : Container n τ α) (t : τ) : Nat :=
  3 * s.turns t + (s.backends.threads t).pending

/-- A tail that moves may send every thread into a further round, so each move
still possible counts for as much. -/
def budget (threads : Finset τ) (s : Container n τ α) : Nat :=
  moves threads s * (threads.card * (6 * n + 6) + 1) + ∑ t ∈ threads, s.due t

variable {threads : Finset τ} {s s' : Container n τ α} {t : τ}

/-- Without new calls, each tail catches up once and each thread links one
node. -/
theorem moves_le (threads : Finset τ) (s : Container n τ α) :
    moves threads s ≤ n + threads.card := by
  have hlags := s.backends.mem.lags_le
  have hlinks := threads.sum_le_card_nsmul (fun t => (s.backends.threads t).links) 1 fun t _ =>
    Local.links_le _
  rw [Fintype.card_fin] at hlags
  rw [smul_eq_mul, Nat.mul_one] at hlinks
  exact Nat.add_le_add hlags hlinks

theorem due_le (s : Container n τ α) (t : τ) : s.due t ≤ 12 * n + 11 := by
  have hturns : s.turns t ≤ 4 * n + 3 := Caller.turns_le
  have hpending := (s.backends.threads t).pending_le
  unfold Container.due
  omega

theorem due_le_add (hcaller : s'.callers t = s.callers t)
    (hpending : (s'.backends.threads t).pending ≤ (s.backends.threads t).pending) :
    s'.due t ≤ s.due t + (6 * n + 6) := by
  have hturns : s'.turns t ≤ s.turns t + (2 * n + 2) := by
    unfold Container.turns
    rw [hcaller]
    exact Caller.turns_le_add
  unfold Container.due
  omega

theorem budget_le (threads : Finset τ) (s : Container n τ α) : budget threads s ≤
    (n + threads.card) * (threads.card * (6 * n + 6) + 1) + threads.card * (12 * n + 11) :=
  Nat.add_le_add (Nat.mul_le_mul_right _ (moves_le threads s))
    (threads.sum_le_card_nsmul _ _ fun t _ => due_le s t)

/-- A tail that has moved pays for a further round of every thread. -/
theorem budget_lt_of_moves (hmoves : moves threads s' < moves threads s)
    (hdue : ∀ u, s'.due u ≤ s.due u + (6 * n + 6)) : budget threads s' < budget threads s := by
  have hsum : ∑ u ∈ threads, s'.due u ≤ ∑ u ∈ threads, s.due u + threads.card * (6 * n + 6) := by
    rw [← smul_eq_mul, ← Finset.sum_const, ← Finset.sum_add_distrib]
    exact Finset.sum_le_sum fun u _ => hdue u
  have hmul := Nat.mul_le_mul_right (threads.card * (6 * n + 6) + 1) (Nat.succ_le_of_lt hmoves)
  rw [Nat.succ_mul] at hmul
  unfold budget
  omega

theorem budget_le_of_due (hmoves : moves threads s' ≤ moves threads s)
    (hdue : ∀ u, s'.due u ≤ s.due u) : budget threads s' ≤ budget threads s :=
  Nat.add_le_add (Nat.mul_le_mul_right _ hmoves) (Finset.sum_le_sum fun u _ => hdue u)

theorem budget_lt_of_due (ht : t ∈ threads) (hmoves : moves threads s' ≤ moves threads s)
    (hdue : ∀ u, s'.due u ≤ s.due u) (hown : s'.due t < s.due t) :
    budget threads s' < budget threads s :=
  Nat.add_lt_add_of_le_of_lt (Nat.mul_le_mul_right _ hmoves)
    (Finset.sum_lt_sum (fun u _ => hdue u) ⟨t, ht, hown⟩)

theorem Turn.budget_lt (h : Turn t s s') (ht : t ∈ threads) :
    budget threads s' < budget threads s := by
  have hothers (u : τ) (hu : u ≠ t) : s'.due u = s.due u := by
    simp only [Container.due, Container.turns, h.history, h.seen, h.callers u hu, h.threads u hu]
  have hown : s'.due t < s.due t := by
    have hpending := (s'.backends.threads t).pending_le
    have hspent := h.spent
    unfold Container.due
    omega
  refine budget_lt_of_due ht ?_ (fun u => ?_) hown
  · refine Nat.add_le_add (Nat.le_of_eq (by rw [h.mem])) (Finset.sum_le_sum fun u _ => ?_)
    by_cases hu : u = t
    · subst hu
      rw [h.links]
      exact Nat.zero_le _
    · rw [h.threads u hu]
  · by_cases hu : u = t
    · subst hu
      exact hown.le
    · exact (hothers u hu).le

variable [DecidableEq τ] [DecidableEq α]

/-- An access inside a backend is paid by the changes left in its operation,
or by the thread's patience. -/
theorem access_spends {fresh : Addr} (hinv : Inv s) (ht : t ∈ threads)
    (hguard : Unheld s (.step t fresh)) (hnext : s.access t fresh = some s') :
    budget threads s' < budget threads s ∨ budget threads s' ≤ budget threads s ∧
      (s'.backends.threads t).patience s'.backends.mem <
        (s.backends.threads t).patience s.backends.mem ∧
      ∀ u, u ≠ t → (s'.backends.threads u).patience s'.backends.mem =
        (s.backends.threads u).patience s.backends.mem := by
  obtain ⟨m', l', hstep, rfl⟩ := access_eq hnext
  have hb := hinv.backends
  have hpre : StepPre fresh s.backends.mem (s.backends.threads t) :=
    ⟨hb.shape, hb.owner t, hb.facts t, hb.held_used t, fun hl => hguard hl t⟩
  have hpaid := localStep_paid hpre hstep
  obtain ⟨hle, hlt⟩ := localStep_lags hpre hstep
  have hlinks := sum_add_eq_of_mem (f := fun u => (s.backends.threads u).links)
    (g := fun u => (update s.backends.threads t l' u).links) ht fun u hu => by
      simp only [update_of_ne hu]
  simp only [update_self] at hlinks
  have hpending (u : τ) : (update s.backends.threads t l' u).pending ≤
      (s.backends.threads u).pending := by
    by_cases hu : u = t
    · subst hu
      rw [update_self]
      cases hpaid with
      | waited hpending => exact hpending
      | changed _ hpending => exact hpending.le
      | swung q p hpending => exact hpending
    · rw [update_of_ne hu]
  by_cases htail : m'.tail = s.backends.mem.tail
  · have hmoves : m'.lags + ∑ u ∈ threads, (update s.backends.threads t l' u).links ≤
        moves threads s := by
      unfold moves
      omega
    have hturns (u : τ) : (s.callers u).turns (s.history.after s.backends.mem m')
        (update s.seen t (look s.history (s.seen t) (s.backends.threads t)) u)
        (update s.backends.threads t l' u) ≤ s.turns u := by
      by_cases hu : u = t
      · subst hu
        simp only [update_self]
        exact Caller.turns_access (hinv.caller u) hstep htail
      · simp only [update_of_ne hu]
        exact (Caller.turns_congr (advances_after htail)).le
    cases hpaid with
    | waited hpending' hqueue hpatience =>
        refine .inr ⟨budget_le_of_due hmoves fun u => ?_, ?_, fun u hu => ?_⟩
        · exact Nat.add_le_add (Nat.mul_le_mul_left 3 (hturns u)) (hpending u)
        · simpa only [update_self] using hpatience
        · simp only [update_of_ne hu]
    | changed _ hpending' =>
        refine .inl (budget_lt_of_due ht hmoves (fun u => ?_) ?_)
        · exact Nat.add_le_add (Nat.mul_le_mul_left 3 (hturns u)) (hpending u)
        · refine Nat.add_lt_add_of_le_of_lt (Nat.mul_le_mul_left 3 (hturns t)) ?_
          simpa only [update_self] using hpending'
    | swung q p hpending' hq hqueue hbehind hcaught =>
        -- a tail that catches up has moved
        have hlag : (s.backends.mem.setTail q p).lag q = s.backends.mem.lag q := by
          rw [Mem.lag, Mem.lag, htail, Mem.nextAddr_setTail]
        omega
  · refine .inl (budget_lt_of_moves ?_ fun u => due_le_add rfl (hpending u))
    have hfewer := hlt htail
    simp only [moves]
    omega

/-- A step of one of the threads inside `put` or `get`, which hands out no
held address. -/
def Going (threads : Finset τ) (s : Container n τ α) (l : Label n τ α) : Prop :=
  l.thread ∈ threads ∧ l.inside = true ∧ Unheld s l

instance [Fintype τ] (threads : Finset τ) (s : Container n τ α) (l : Label n τ α) :
    Decidable (Going threads s l) :=
  inferInstanceAs (Decidable (_ ∧ _ ∧ _))

variable {backend : τ → Option (Fin n)} {ls : List (Label n τ α)}

/-- Between two payments a thread takes no more steps than its operation on a
backend has patience for. -/
theorem spends (threads : Finset τ) : Spends (container backend) (Going threads)
    (fun s : Container n τ α => Inv s ∧ Heeded s) Label.thread threads (budget threads)
    (fun s t => (s.backends.threads t).patience s.backends.mem) 9 where
  inv _ _ _ h hguard hnext := ⟨h.1.next hguard.2.2 hnext, h.2.next h.1 hnext⟩
  actor_mem _ _ hguard := hguard.1
  le_cap _ _ := Local.patience_le _ _
  step s l s' h hguard hnext := by
    obtain ⟨ht, hinside, hunheld⟩ := hguard
    rcases Turn.or_access h.1 h.2 hinside hnext with hturn | ⟨fresh, hl, haccess⟩
    · exact .inl (hturn.budget_lt ht)
    · rw [hl] at hunheld
      exact access_spends h.1 ht hunheld haccess

/-- The call of `put` or `get` is over, or there is none. -/
def Caller.over : Caller n τ α → Bool
  | .idle | .putDone _ _ | .getDone _ _ => true
  | _ => false

/-- A thread inside an operation of a backend, or at its end, can go on. -/
theorem step_isSome {fresh : Addr} (hinv : Inv s) (hover : (s.callers t).over = false)
    (hretry : ∀ e, s.callers t ≠ .retry e) (hne : fresh ≠ 0)
    (hfree : s.backends.mem.live fresh = false) :
    (s.next backend (.step t fresh)).isSome = true := by
  have haccess (hl : (s.backends.threads t).queue.isSome = true) :
      (s.next backend (.step t fresh)).isSome = true := by
    have hstep := localStep_isSome false hl hne hfree
    simp only [Container.next]
    split
    · next r hdone =>
        rw [hdone] at hl
        cases hl
    · next hidle =>
        rw [hidle] at hl
        cases hl
    · simpa only [Container.access, MSQueue.next, Option.isSome_map] using hstep
  have hresume {r : Res (Item τ α)} (hl : s.backends.threads t = .done r)
      (hr : (s.resume t (s.callers t) r).isSome = true) :
      (s.next backend (.step t fresh)).isSome = true := by
    simpa only [Container.next, hl] using hr
  have hok := hinv.caller t
  generalize s.callers t = c at hok hover hretry hresume
  generalize s.backends.threads t = l at hok haccess hresume
  cases c with
  | idle | putDone | getDone => cases hover
  | retry e => exact absurd rfl (hretry e)
  | put e =>
      rcases hok with ⟨q, pc, rfl, -⟩ | ⟨rfl, -⟩
      · exact haccess rfl
      · exact hresume rfl rfl
  | own e =>
      obtain ⟨q, arg, hfound⟩ := hok
      cases hfound with
      | searching => exact haccess rfl
      | taken | empty => exact hresume rfl rfl
  | first e start i tailsStates =>
      obtain ⟨-, ⟨arg, tag, hfound⟩, -⟩ := hok
      cases hfound with
      | searching => exact haccess rfl
      | taken | empty => exact hresume rfl rfl
  | second e start i tailsStates =>
      obtain ⟨-, rfl | ⟨tag, rfl⟩, -⟩ := hok
      · exact haccess rfl
      · refine hresume rfl ?_
        simp only [Container.resume]
        split <;> rfl

/-- The steps the threads can take before a call is over. It depends on the
number of backends and of threads only. -/
def stepBound (n threads : Nat) : Nat :=
  ((n + threads) * (threads * (6 * n + 6) + 1) + threads * (12 * n + 11)) * (threads * 9 + 1) +
    threads * 9

/-- However many threads are inside `put` and `get` and however they are
scheduled, the number of steps they can take before one of them is over is
bounded, and until all of them are over there is a step to take. As for the
queues, no held address is handed out before or in these steps. -/
theorem container_lockFree (hreach : (container backend).Reach Unheld s)
    (hsteps : (container backend).Steps (Going threads) s ls s') :
    ls.length ≤ stepBound n threads.card ∧
      ∀ t ∈ threads, (s'.callers t).over = false →
        ∀ fresh, fresh ≠ 0 → s'.backends.mem.live fresh = false →
          (∀ u, (s'.backends.threads u).held ≠ some fresh) →
            ∃ l, l.thread = t ∧ Going threads s' l ∧
              ((container backend).next s' l).isSome = true := by
  obtain ⟨_, hrun⟩ := hreach
  have hinv : Inv s ∧ Heeded s := by
    refine hrun.invariant (I := fun u => Inv u ∧ Heeded u) (fun u hinit => ?_)
      fun _ _ _ h hguard hnext => ⟨h.1.next hguard hnext, h.2.next h.1 hnext⟩
    refine ⟨.initial hinit, fun t _ _ _ _ _ hc => ?_⟩
    rw [hinit.callers t] at hc
    cases hc
  have hlength := (spends threads).length_le hinv hsteps
  have hbudget := Nat.mul_le_mul_right (threads.card * 9 + 1) (budget_le threads s)
  refine ⟨?_, fun t ht hover fresh hne hfree hheld => ?_⟩
  · unfold stepBound
    omega
  · have hinv' := (hsteps.preserves hinv (spends threads).inv).1
    by_cases hretry : ∃ e, s'.callers t = .retry e
    · obtain ⟨e, hc⟩ := hretry
      by_cases hn : n = 0
      · have hidle := hinv'.caller t
        rw [hc] at hidle
        have hnext : (s'.next backend (.step t fresh)).isSome = true := by
          simp only [Container.next, show s'.backends.threads t = .idle from hidle, hc, if_pos hn]
          rfl
        exact ⟨.step t fresh, rfl, ⟨ht, rfl, fun _ => hheld⟩, hnext⟩
      · have hnext : (s'.next backend (.round t ⟨0, Nat.pos_of_ne_zero hn⟩)).isSome = true := by
          simp only [Container.next, hc]
          rfl
        exact ⟨.round t ⟨0, Nat.pos_of_ne_zero hn⟩, rfl, ⟨ht, rfl, trivial⟩, hnext⟩
    · have hnext : (s'.next backend (.step t fresh)).isSome = true :=
        step_isSome hinv' hover (fun e hc => hretry ⟨e, hc⟩) hne hfree
      exact ⟨.step t fresh, rfl, ⟨ht, rfl, fun _ => hheld⟩, hnext⟩

def bothInside : Container 3 (Fin 3) Unit :=
  ((container registered).exec Unheld emptyContainer
    [.put 1 (), .get 2 ⟨2, 0, ()⟩]).get (by decide +kernel)

/-- Thread 2 finds all backends empty, thread 1 links and publishes its
element, and thread 2 sees that a tail has moved. -/
def outrunRun : List (Label 3 (Fin 3) Unit) :=
  steps 2 5 ++ .round 2 1 :: steps 2 15 ++ .step 1 4 :: steps 1 5 ++ steps 2 2

def outrunState : Container 3 (Fin 3) Unit :=
  ((container registered).exec (Going .univ) bothInside outrunRun).get (by decide +kernel)

theorem container_lockFree_outrun : outrunRun.length ≤ stepBound 3 3 ∧
    outrunState.callers 2 = .retry ⟨2, 0, ()⟩ ∧
      ∃ l, l.thread = 2 ∧ Going .univ outrunState l ∧
        ((container registered).next outrunState l).isSome = true := by
  have hrun : (container registered).Run Unheld [.put 1 (), .get 2 ⟨2, 0, ()⟩] bothInside :=
    run_of_exec initial_emptyContainer _
  have hsteps : (container registered).Steps (Going .univ) bothInside outrunRun outrunState :=
    steps_of_exec (Option.some_get _).symm
  have hfree := container_lockFree ⟨_, hrun⟩ hsteps
  refine ⟨hfree.1, rfl, hfree.2 2 (Finset.mem_univ _) rfl 5 ?_ ?_ ?_⟩
  · decide
  · decide +kernel
  · decide +kernel

end Runs

end Libni.DistributedMSQueue
