import Libni.DistributedMSQueue.Model

/-!
When `get` answers false, every backend was seen empty in the first pass and with
the same tail in the second. Between the two passes there is an instant at which
no tail had moved since it was seen in the first pass and none would move before
it was seen in the second; at that instant the head of each backend had caught up
with its tail, and the tail had passed every element whose `put` had returned.
-/

namespace Libni.DistributedMSQueue

open Function Libni.Transition Libni.Transition.System Libni.MSQueue

section Turns

variable {n : Nat} {start : Fin n} {i j : Nat}

theorem segmentIndex_val (hi : i < n) : (segmentIndex start i : Nat) =
    if start + i < n then start + i else start + i - n := by
  have hstart := start.isLt
  simp only [segmentIndex]
  split
  · next hlt => exact Nat.mod_eq_of_lt hlt
  · next hge =>
      rw [Nat.mod_eq_sub_mod (by omega), Nat.mod_eq_of_lt (by omega)]

theorem segmentIndex_inj (hi : i < n) (hj : j < n)
    (heq : segmentIndex start i = segmentIndex start j) : i = j := by
  have hval := congrArg Fin.val heq
  rw [segmentIndex_val hi, segmentIndex_val hj] at hval
  have hstart := start.isLt
  split at hval <;> split at hval <;> omega

theorem segmentIndex_surj (start q : Fin n) : ∃ i < n, segmentIndex start i = q := by
  have hstart := start.isLt
  have hq := q.isLt
  by_cases hle : (start : Nat) ≤ q
  · refine ⟨q - start, by omega, Fin.ext ?_⟩
    rw [segmentIndex_val (by omega), if_pos (by omega)]
    omega
  · refine ⟨q + n - start, by omega, Fin.ext ?_⟩
    rw [segmentIndex_val (by omega), if_neg (by omega)]
    omega

end Turns

section Callers

variable {n : Nat} {τ α : Type*}

/-- The first pass has stored the tag of a tail that had moved as often as the
thread has seen, and the head of that backend has moved as often. -/
def Observed (h : History (Fin n) (Item τ α)) (seen : Fin n → Nat) (q : Fin n) (tag : Tag) :
    Prop :=
  tag = BitVec.ofNat 16 (seen q) ∧ seen q ≤ (h.taken q).length

/-- A `put` inside its backend. When its push is over, the tail has passed the
element. -/
def Putting (h : History (Fin n) (Item τ α)) (m : Mem (Fin n) (Item τ α)) (e : Item τ α)
    (l : Local (Fin n) (Item τ α)) : Prop :=
  (∃ q pc, l = .push q pc ∧ pc.Delivers h m q e) ∨
    (l = .done (.pushed true) ∧ ∃ q, e ∈ h.passed m q)

/-- What the caller of a thread at `l` knows. In the second pass all backends
have been observed; in the first, those of the turns taken. -/
def Caller.Ok (h : History (Fin n) (Item τ α)) (m : Mem (Fin n) (Item τ α))
    (seen : Fin n → Nat) (l : Local (Fin n) (Item τ α)) : Caller n τ α → Prop
  | .idle | .retry _ | .getDone _ _ => l = .idle
  | .putDone e _ => l = .idle ∧ ∃ q, e ∈ h.passed m q
  | .put e => Putting h m e l
  | .own _ => ∃ q arg, Found h m q (seen q) arg none l
  | .first _ start i tailsStates =>
      i < n ∧
        (∃ arg tag, Found h m (segmentIndex start i) (seen (segmentIndex start i)) arg
          (some tag) l) ∧
        ∀ j < i, Observed h seen (segmentIndex start j) (tailsStates j)
  | .second _ start i tailsStates =>
      i < n ∧ (l = .tailState (segmentIndex start i) ∨ ∃ tag, l = .done (.state tag)) ∧
        ∀ j < n, Observed h seen (segmentIndex start j) (tailsStates j)

variable {h h' : History (Fin n) (Item τ α)} {m m' : Mem (Fin n) (Item τ α)}
  {seen : Fin n → Nat} {l k k' : Local (Fin n) (Item τ α)} {fresh : Addr} {q : Fin n}
  {e : Item τ α} {c : Caller n τ α} {tag : Tag}

theorem Observed.mono (hobs : Observed h seen q tag) (m m' : Mem (Fin n) (Item τ α)) :
    Observed (h.after m m') seen q tag :=
  ⟨hobs.1, hobs.2.trans (h.taken_after q).length_le⟩

theorem passed_after (hc : Change fresh m k k' m') (hs : Shape m) (ho : Owner m k)
    (he : ∃ q, e ∈ h.passed m q) : ∃ q, e ∈ (h.after m m').passed m' q := by
  obtain ⟨q, hq⟩ := he
  exact ⟨q, mem_passed (hc.log hs ho q) (h.advances_le q) hq⟩

theorem Caller.Ok.other (hok : c.Ok h m seen l) (hc : Change fresh m k k' m') (hs : Shape m)
    (ho : Owner m k) (hr : Recorded h m) (hown : Owner m l) (hfacts : l.Facts m) :
    c.Ok (h.after m m') m' seen l := by
  cases c with
  | idle | retry | getDone => exact hok
  | putDone e ok => exact ⟨hok.1, passed_after hc hs ho hok.2⟩
  | put e =>
      rcases hok with ⟨q, pc, rfl, hd⟩ | ⟨hdone, hpassed⟩
      · exact .inl ⟨q, pc, rfl, hd.other hc hs ho hr hown hfacts⟩
      · exact .inr ⟨hdone, passed_after hc hs ho hpassed⟩
  | own e =>
      obtain ⟨q, arg, hfound⟩ := hok
      exact ⟨q, arg, hfound.other hc hs hfacts⟩
  | first e start i tailsStates =>
      obtain ⟨hi, ⟨arg, tag, hfound⟩, hobs⟩ := hok
      exact ⟨hi, ⟨arg, tag, hfound.other hc hs hfacts⟩, fun j hj => (hobs j hj).mono m m'⟩
  | second e start i tailsStates =>
      exact ⟨hok.1, hok.2.1, fun j hj => (hok.2.2 j hj).mono m m'⟩

variable [DecidableEq τ] [DecidableEq α]

omit [DecidableEq τ] [DecidableEq α] in
theorem Caller.Ok.access {l' : Local (Fin n) (Item τ α)} (hok : c.Ok h m seen l)
    (hpre : StepPre fresh m l) (hr : Recorded h m)
    (hstep : localStep m fresh false l = some (m', l')) :
    c.Ok (h.after m m') m' (look h seen l) l' := by
  have hfound {q : Fin n} {arg : Item τ α} {headState : Option Tag}
      (hf : Found h m q (seen q) arg headState l) :
      (∃ element pc, l = .pop q arg element headState pc) ∧
        Found (h.after m m') m' q (look h seen l q) arg headState l' := by
    cases hf with
    | searching hobs =>
        obtain ⟨rfl, rfl⟩ := pair_eq (Option.some.inj hstep)
        refine ⟨⟨_, _, rfl⟩, ?_⟩
        simpa only [look, update_self] using popStep_found hpre hr hobs
    | taken | empty => cases hstep
  cases c with
  | idle | retry | getDone =>
      obtain rfl : l = .idle := hok
      cases hstep
  | putDone e ok =>
      obtain ⟨rfl, -⟩ := hok
      cases hstep
  | put e =>
      rcases hok with ⟨q, pc, rfl, hd⟩ | ⟨rfl, -⟩
      · rcases pushStep_delivers hpre hr hd hstep with ⟨pc', rfl, hd'⟩ | ⟨rfl, hpassed⟩
        · exact .inl ⟨q, pc', rfl, hd'⟩
        · exact .inr ⟨rfl, q, hpassed⟩
      · cases hstep
  | own e =>
      obtain ⟨q, arg, hf⟩ := hok
      exact ⟨q, arg, (hfound hf).2⟩
  | first e start i tailsStates =>
      obtain ⟨hi, ⟨arg, tag, hf⟩, hobs⟩ := hok
      obtain ⟨⟨element, pc, rfl⟩, hf'⟩ := hfound hf
      refine ⟨hi, ⟨arg, tag, hf'⟩, fun j hj => ?_⟩
      have hne : segmentIndex start j ≠ segmentIndex start i := fun heq =>
        absurd (segmentIndex_inj (by omega) hi heq) (by omega)
      have hobs' := (hobs j hj).mono m m'
      simpa only [Observed, look, update_of_ne hne] using hobs'
  | second e start i tailsStates =>
      obtain ⟨hi, rfl | ⟨tag, rfl⟩, hobs⟩ := hok
      · cases hstep
        rw [History.after_self]
        exact ⟨hi, .inr ⟨_, rfl⟩, hobs⟩
      · cases hstep

end Callers

section Invariant

variable {n : Nat} {τ α : Type*}

/-- The invariant of the container: that of the backends, their recorded
history, and what every caller knows of both. -/
structure Inv (s : Container n τ α) : Prop where
  backends : MSQueue.Inv s.backends
  recorded : Recorded s.history s.backends.mem
  seen_le : ∀ t q, s.seen t q ≤ s.history.advances q
  caller : ∀ t, (s.callers t).Ok s.history s.backends.mem (s.seen t) (s.backends.threads t)
  returned : ∀ e ∈ s.returned, ∃ q, e ∈ s.history.passed s.backends.mem q

variable {s s' : Container n τ α} {t : τ} {c : Caller n τ α} {l : Local (Fin n) (Item τ α)}

theorem look_le (h : History (Fin n) (Item τ α)) {seen : Fin n → Nat} (m m' : Mem _ _)
    (hseen : ∀ q, seen q ≤ h.advances q) (q : Fin n) :
    look h seen l q ≤ (h.after m m').advances q := by
  refine Nat.le_trans ?_ (h.advances_le q)
  cases l with
  | pop q' _ _ _ pc =>
      by_cases hq : q = q'
      · subst hq
        rw [look, update_self]
        cases pc with
        | loadTail => exact Nat.le_refl _
        | _ => exact hseen q
      · rw [look, update_of_ne hq]
        exact hseen q
  | _ => exact hseen q

variable [DecidableEq τ] [DecidableEq α]

/-- An access inside a backend keeps the invariant. The threads that do not
move keep what they know by `Caller.Ok.other`. -/
theorem Inv.access {fresh : Addr} (h : Inv s)
    (hguard : MSQueue.NotHeld s.backends (.step t fresh false))
    (hnext : s.access t fresh = some s') : Inv s' := by
  simp only [Container.access, MSQueue.next, Option.map_map, Option.map_eq_some_iff,
    Function.comp_apply] at hnext
  obtain ⟨⟨m', l'⟩, hstep, rfl⟩ := hnext
  have hb := h.backends
  have hpre : StepPre fresh s.backends.mem (s.backends.threads t) :=
    ⟨hb.shape, hb.owner t, hb.facts t, hb.held_used t, fun hl => hguard hl t⟩
  have hok := localStep_ok hpre hstep
  have hc := hok.change
  refine ⟨hb.change t hc hok.facts hok.held hguard,
    hc.recorded hb.shape (hb.owner t) (localStep_tags hstep) h.recorded, fun u q => ?_,
    fun u => ?_, fun e he => ?_⟩
  · by_cases hu : u = t
    · subst hu
      simp only [update_self]
      exact look_le s.history _ _ (h.seen_le u) q
    · simp only [update_of_ne hu]
      exact (h.seen_le u q).trans (s.history.advances_le q)
  · by_cases hu : u = t
    · subst hu
      simp only [update_self]
      exact (h.caller u).access hpre h.recorded hstep
    · simp only [update_of_ne hu]
      exact (h.caller u).other hc hb.shape (hb.owner t) h.recorded (hb.owner u) (hb.facts u)
  · exact passed_after hc hb.shape (hb.owner t) (h.returned e he)

omit [DecidableEq α] in
theorem Inv.move (h : Inv s) {l' : Local (Fin n) (Item τ α)}
    (hquiet : s.backends.threads t = .idle ∨ ∃ r, s.backends.threads t = .done r)
    (hl' : l' = .idle ∨ ∃ op, l' = start op)
    (hbackends : s'.backends = ⟨s.backends.mem, update s.backends.threads t l'⟩)
    (hcallers : s'.callers = update s.callers t c) (hhistory : s'.history = s.history)
    (hseen : s'.seen = s.seen) (hok : c.Ok s.history s.backends.mem (s.seen t) l')
    (hreturned : ∀ e ∈ s'.returned, ∃ q, e ∈ s.history.passed s.backends.mem q) : Inv s' := by
  have hold : (s.backends.threads t).node = none ∧ (s.backends.threads t).owned = none ∧
      (s.backends.threads t).allocates = false := by
    rcases hquiet with hl | ⟨r, hl⟩
    · rw [hl]
      exact ⟨rfl, rfl, rfl⟩
    · rw [hl]
      exact ⟨rfl, rfl, rfl⟩
  have hnew : l'.node = none ∧ l'.owned = none ∧ l'.held = none ∧
      l'.Facts s.backends.mem := by
    rcases hl' with rfl | ⟨op, rfl⟩
    · exact ⟨rfl, rfl, rfl, trivial⟩
    · exact ⟨start_node op, start_owned op, start_held op, start_facts op⟩
  have hsame : Change 0 s.backends.mem (s.backends.threads t) l' s.backends.mem :=
    .same (hnew.1.trans hold.1.symm) (hnew.2.1.trans hold.2.1.symm)
  refine ⟨?_, ?_, ?_, fun u => ?_, ?_⟩
  · rw [hbackends]
    refine h.backends.change t hsame hnew.2.2.2 (by simp [hnew.2.2.1]) fun hl => ?_
    rw [hold.2.2] at hl
    cases hl
  · rw [hbackends, hhistory]
    exact h.recorded
  · rw [hseen, hhistory]
    exact h.seen_le
  · rw [hbackends, hcallers, hhistory, hseen]
    by_cases hu : u = t
    · subst hu
      simpa using hok
    · simpa [update_of_ne hu] using h.caller u
  · rw [hbackends, hhistory]
    exact hreturned

omit [DecidableEq α] in
theorem Inv.settle (h : Inv s)
    (hquiet : s.backends.threads t = .idle ∨ ∃ r, s.backends.threads t = .done r)
    (hok : c.Ok s.history s.backends.mem (s.seen t) .idle) : Inv (s.settle t c) :=
  h.move hquiet (.inl rfl) rfl rfl rfl rfl hok h.returned

omit [DecidableEq α] in
theorem Inv.invoke (h : Inv s) {op : Op (Fin n) (Item τ α)}
    (hquiet : s.backends.threads t = .idle ∨ ∃ r, s.backends.threads t = .done r)
    (hok : c.Ok s.history s.backends.mem (s.seen t) (start op)) : Inv (s.invoke t c op) :=
  h.move hquiet (.inr ⟨op, rfl⟩) rfl rfl rfl rfl hok h.returned

omit [DecidableEq α] in
theorem Inv.firstTurn (h : Inv s) {element : Item τ α} {start : Fin n} {i : Nat}
    {tailsStates : Nat → Tag}
    (hquiet : s.backends.threads t = .idle ∨ ∃ r, s.backends.threads t = .done r)
    (hi : i ≤ n)
    (hobs : ∀ j < i, Observed s.history (s.seen t) (segmentIndex start j) (tailsStates j)) :
    Inv (s.firstTurn t element start i tailsStates) := by
  unfold Container.firstTurn
  split
  · next hlt =>
      exact h.invoke hquiet ⟨hlt, ⟨element, tailsStates i, .searching trivial⟩, hobs⟩
  · next hge =>
      obtain rfl : i = n := by omega
      exact h.invoke hquiet ⟨Nat.lt_of_le_of_lt (Nat.zero_le _) start.isLt, .inl rfl, hobs⟩

omit [DecidableEq α] in
theorem Inv.secondTurn (h : Inv s) {element : Item τ α} {start : Fin n} {i : Nat}
    {tailsStates : Nat → Tag}
    (hquiet : s.backends.threads t = .idle ∨ ∃ r, s.backends.threads t = .done r)
    (hobs : ∀ j < n, Observed s.history (s.seen t) (segmentIndex start j) (tailsStates j)) :
    Inv (s.secondTurn t element start i tailsStates) := by
  unfold Container.secondTurn
  split
  · next hlt => exact h.invoke hquiet ⟨hlt, .inl rfl, hobs⟩
  · exact h.settle hquiet rfl

omit [DecidableEq τ] [DecidableEq α] in
theorem observed_of_found {h : History (Fin n) (Item τ α)} {m : Mem (Fin n) (Item τ α)}
    {q : Fin n} {seen : Fin n → Nat} {arg element : Item τ α} {tag tag' : Tag}
    {headState : Option Tag}
    (hfound : Found h m q (seen q) arg (some tag) (.done (.popped false element headState))) :
    Observed h seen q (headState.getD tag') := by
  cases hfound with
  | empty htag hn => exact ⟨htag, hn⟩

omit [DecidableEq α] in
/-- A backend's answer, after which the caller knows what the operation has
found out. -/
theorem Inv.resume (h : Inv s) {r : Res (Item τ α)} (hdone : s.backends.threads t = .done r)
    (hnext : s.resume t (s.callers t) r = some s') : Inv s' := by
  have hquiet : s.backends.threads t = .idle ∨ ∃ r, s.backends.threads t = .done r :=
    .inr ⟨r, hdone⟩
  have hok := h.caller t
  rw [hdone] at hok
  generalize s.callers t = c at hok hnext
  unfold Container.resume at hnext
  split at hnext
  · cases hnext
    rcases hok with ⟨q, pc, hpush, -⟩ | ⟨-, hpassed⟩
    · cases hpush
    · exact h.settle hquiet ⟨rfl, hpassed⟩
  · cases hnext
    exact h.settle hquiet rfl
  · cases hnext
    exact h.settle hquiet rfl
  · cases hnext
    exact h.settle hquiet rfl
  · cases hnext
    obtain ⟨hi, ⟨arg, tag, hfound⟩, hobs⟩ := hok
    refine h.firstTurn hquiet hi fun j hj => ?_
    rcases Nat.lt_succ_iff_lt_or_eq.mp hj with hlt | rfl
    · rw [update_of_ne (Nat.ne_of_lt hlt)]
      exact hobs j hlt
    · rw [update_self]
      exact observed_of_found hfound
  · split at hnext
    · cases hnext
      exact h.secondTurn hquiet hok.2.2
    · cases hnext
      exact h.settle hquiet rfl
  · cases hnext

variable {backend : τ → Option (Fin n)}

/-- Every step keeps the invariant, as long as no held address is handed out.
The backends' own invariant asks for that. -/
theorem Inv.next {l : Label n τ α} (h : Inv s) (hguard : Unheld s l)
    (hnext : s.next backend l = some s') : Inv s' := by
  cases l with
  | put t value =>
      simp only [Container.next] at hnext
      have hok := h.caller t
      split at hnext
      · next q hc hq =>
          cases hnext
          rw [hc] at hok
          exact h.move (.inl hok) (.inr ⟨.push q _, rfl⟩) rfl rfl rfl rfl
            (.inl ⟨q, _, rfl, rfl⟩) h.returned
      · cases hnext
  | get t element =>
      simp only [Container.next] at hnext
      have hok := h.caller t
      split at hnext
      · next q hc hq =>
          cases hnext
          rw [hc] at hok
          exact h.invoke (.inl hok) ⟨q, element, .searching trivial⟩
      · next hc hq =>
          cases hnext
          rw [hc] at hok
          exact h.settle (.inl hok) rfl
      · cases hnext
  | round t start =>
      simp only [Container.next] at hnext
      have hok := h.caller t
      split at hnext
      · next element hc =>
          cases hnext
          rw [hc] at hok
          exact h.firstTurn (.inl hok) (Nat.zero_le _) fun j hj => absurd hj (Nat.not_lt_zero j)
      · cases hnext
  | step t fresh =>
      simp only [Container.next] at hnext
      split at hnext
      · next r hdone => exact h.resume hdone hnext
      · next hl =>
          split at hnext
          · split at hnext <;> cases hnext
            exact h.settle (.inl hl) rfl
          · cases hnext
      · exact h.access hguard hnext
  | ret t =>
      simp only [Container.next] at hnext
      have hok := h.caller t
      split at hnext
      · next element ok hc =>
          cases hnext
          rw [hc] at hok
          refine h.move (c := .idle) (.inl hok.1) (.inl rfl) ?_ rfl rfl rfl rfl fun e he => ?_
          · rw [← hok.1, update_eq_self]
          · rcases List.mem_cons.mp he with rfl | he
            · exact hok.2
            · exact h.returned e he
      · next element ok hc =>
          cases hnext
          rw [hc] at hok
          refine h.move (c := .idle) (.inl hok) (.inl rfl) ?_ rfl rfl rfl rfl h.returned
          rw [← show s.backends.threads t = .idle from hok, update_eq_self]
      · cases hnext

omit [DecidableEq τ] [DecidableEq α] in
theorem Inv.initial (h : Initial s) : Inv s where
  backends := h.backends.inv
  recorded := by
    rw [h.history]
    exact Recorded.start h.backends
  seen_le t q := by rw [h.seen]; exact Nat.zero_le _
  caller t := by
    rw [h.callers]
    exact h.backends.idle t
  returned e he := by
    rw [h.returned] at he
    exact absurd he List.not_mem_nil

end Invariant

end Libni.DistributedMSQueue
