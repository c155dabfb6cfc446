import Libni.Transition.Parts
import Libni.DistributedMSQueue.Linearizable

/-!
Local linearizability of the container. Of a history of `put` and `get`, the part of
one thread are its own calls of `put` and the calls of `get`, by any thread, that
return one of its elements. Every such part is a history of a FIFO queue: a thread's
elements only ever enter its own backend, and its backend holds no others.
-/

namespace Libni.DistributedMSQueue

open Function Libni.Transition Libni.Transition.System Libni.MSQueue

section Effects

variable {κ α : Type*}

def linked : Local κ α → Bool
  | .push _ (.casTail _ _) | .done (.pushed true) => true
  | _ => false

def removed : Local κ α → Option α
  | .pop _ _ element _ (.deleteHead _) | .done (.popped true element _) => some element
  | _ => none

variable [DecidableEq κ] {h h' : History κ α} {fresh : Addr} {m m' : Mem κ α} {q : κ}
  {l' : Local κ α} {e : α} {spurious : Bool}

omit [DecidableEq κ] in
/-- Whether a push has taken effect is told by its program counter. -/
theorem push_open {pc : PushPc α} (hd : pc.Delivers h m q e) (st : Status (Op κ α) (Res α)) :
    pc.Open m q st ↔
      st = if linked (.push q pc : Local κ α) then .done (.pushed true) else .pending (.push q e) := by
  cases pc <;> simp only [PushPc.Delivers, PushPc.Open, linked] at hd ⊢ <;> simp [hd]

/-- A push appends its element with the step that links its node, and changes
nothing else. -/
theorem push_effect {pc : PushPc α} (hpre : StepPre fresh m (.push q pc))
    (hd : pc.Delivers h m q e) (hr : Recorded h m)
    (hstep : localStep m fresh false (.push q pc) = some (m', l')) :
    linked l' = linked (.push q pc : Local κ α) ∧ m'.contents = m.contents ∨
      linked (.push q pc : Local κ α) = false ∧ linked l' = true ∧
        m'.contents = update m.contents q (m.contents q ++ [e]) := by
  have hopen : l'.Open m' (if linked l' then .done (.pushed true) else .pending (.push q e)) := by
    rcases pushStep_delivers hpre hr hd hstep with ⟨pc', rfl, hd'⟩ | ⟨rfl, -⟩
    · exact (push_open hd' _).mpr rfl
    · rfl
  obtain ⟨st, hst, hsim⟩ := localStep_back (t := ()) hpre hstep hopen
  rw [(push_open hd st).mp hst] at hsim
  cases hold : linked (.push q pc : Local κ α) <;> cases hnew : linked l' <;>
    simp only [hold, hnew, if_true, Bool.false_eq_true, if_false] at hsim
  · exact .inl ⟨rfl, hsim.of_pending⟩
  · exact .inr ⟨rfl, rfl, hsim.of_perform⟩
  · rcases hsim with ⟨_, _, hbad⟩ | ⟨_, hmove⟩
    · cases hbad
    · cases hmove
  · exact .inl ⟨rfl, hsim.of_done⟩

omit [DecidableEq κ] in
/-- A pop that has removed an element has taken effect. One that has not may
be pending or have found the queue empty. -/
theorem pop_open {arg element : α} {headState : Option Tag} {pc : PopPc}
    {st : Status (Op κ α) (Res α)} (hopen : pc.Open q arg element headState st) :
    (∃ tag, removed (.pop q arg element headState pc : Local κ α) = some element ∧
        st = .done (.popped true element tag)) ∨
      removed (.pop q arg element headState pc : Local κ α) = none ∧
        (st = .pending (.pop q arg headState) ∨ ∃ x tag, st = .done (.popped false x tag)) := by
  cases pc with
  | deleteHead oldHead => exact .inl ⟨_, rfl, hopen⟩
  | checkHead oldHead oldTail next =>
      exact .inr ⟨rfl, hopen.imp_right fun hdone => ⟨_, _, hdone.2.2⟩⟩
  | loadHead | loadTail | loadNext | helpTail | readValue | casHead => exact .inr ⟨rfl, .inl hopen⟩

omit [DecidableEq κ] in
/-- A reading of a pop with arguments `q`, `arg` and `headState`, by what it
has removed. -/
def PopReading (m : Mem κ α) (q : κ) (arg : α) (headState : Option Tag) (l : Local κ α) : Prop :=
  ∃ st, l.Open m st ∧
    ((∃ x tag, removed l = some x ∧ st = .done (.popped true x tag)) ∨
      removed l = none ∧
        (st = .pending (.pop q arg headState) ∨ ∃ x tag, st = .done (.popped false x tag)))

omit [DecidableEq κ] in
theorem PopReading.inside (m : Mem κ α) (q : κ) (arg element : α) (headState : Option Tag)
    (pc : PopPc) : PopReading m q arg headState (.pop q arg element headState pc) := by
  cases pc with
  | deleteHead => exact ⟨_, rfl, .inl ⟨_, _, rfl, rfl⟩⟩
  | checkHead => exact ⟨_, .inl rfl, .inr ⟨rfl, .inl rfl⟩⟩
  | loadHead | loadTail | loadNext | helpTail | readValue | casHead =>
      exact ⟨_, rfl, .inr ⟨rfl, .inl rfl⟩⟩

theorem PopReading.step {arg element : α} {headState : Option Tag} {pc : PopPc}
    (hstep : localStep m fresh spurious (.pop q arg element headState pc) = some (m', l')) :
    PopReading m' q arg headState l' := by
  obtain ⟨rfl, rfl⟩ := pair_eq (Option.some.inj hstep)
  cases pc with
  | deleteHead => exact ⟨_, rfl, .inl ⟨_, _, rfl, rfl⟩⟩
  | checkHead oldHead oldTail next =>
      simp only [popStep]
      split
      · exact .inside ..
      · split
        · split
          · exact ⟨_, rfl, .inr ⟨rfl, .inr ⟨_, _, rfl⟩⟩⟩
          · exact .inside ..
        · exact .inside ..
  | casHead oldHead next =>
      simp only [popStep]
      split <;> exact .inside ..
  | loadHead | loadTail | loadNext | helpTail | readValue => exact .inside ..

/-- A pop removes the front element with the exchange of the head, and changes
nothing else. -/
theorem pop_effect {arg element : α} {headState : Option Tag} {pc : PopPc}
    (hpre : StepPre fresh m (.pop q arg element headState pc))
    (hstep : localStep m fresh spurious (.pop q arg element headState pc) = some (m', l')) :
    removed l' = removed (.pop q arg element headState pc : Local κ α) ∧
        m'.contents = m.contents ∨
      removed (.pop q arg element headState pc : Local κ α) = none ∧
        ∃ x, removed l' = some x ∧ m.contents q = x :: m'.contents q ∧
          m'.contents = update m.contents q (m.contents q).tail := by
  obtain ⟨st', hopen', hnew⟩ := PopReading.step hstep
  obtain ⟨st, hopen, hsim⟩ := localStep_back (t := ()) hpre hstep hopen'
  rcases pop_open hopen with ⟨tag, hold, rfl⟩ | ⟨hold, rfl | ⟨x, tag, rfl⟩⟩
  · rcases hsim with ⟨_, hsame, rfl⟩ | ⟨_, hmove⟩
    · rcases hnew with ⟨y, tag', hremoved, heq⟩ | ⟨_, heq | ⟨_, _, heq⟩⟩
      · obtain ⟨rfl, rfl⟩ : element = y ∧ tag = tag' := by simpa using heq
        exact .inl ⟨by rw [hold, hremoved], hsame⟩
      · cases heq
      · simp at heq
    · cases hmove
  · rcases hnew with ⟨y, tag', hremoved, rfl⟩ | ⟨hremoved, rfl | ⟨y, tag', rfl⟩⟩
    · obtain ⟨hfront, hrest⟩ := hsim.of_perform
      exact .inr ⟨hold, y, hremoved, hfront, hrest⟩
    · exact .inl ⟨by rw [hold, hremoved], hsim.of_pending⟩
    · exact .inl ⟨by rw [hold, hremoved], hsim.of_perform.2⟩
  · rcases hsim with ⟨_, hsame, rfl⟩ | ⟨_, hmove⟩
    · rcases hnew with ⟨y, tag', _, heq⟩ | ⟨hremoved, _⟩
      · simp at heq
      · exact .inl ⟨by rw [hold, hremoved], hsame⟩
    · cases hmove

end Effects

/-- The calls of the container. That the element comes with its thread and
number is for the statement only. -/
inductive Call (τ α : Type*) where
  | put (element : Item τ α)
  | get
  deriving DecidableEq

inductive Answer (τ α : Type*) where
  | put (ok : Bool)
  | got (element : Item τ α)
  | nothing
  deriving DecidableEq

/-- The calls that concern elements of thread `T`. A `get` that finds nothing
concerns no thread. -/
def Mine {τ α : Type*} (T : τ) : Call τ α → Answer τ α → Prop
  | .put e, .put _ => e.thread = T
  | .get, .got e => e.thread = T
  | _, _ => False

/-- A FIFO queue whose `get` waits for an element. What a `get` that finds
nothing may answer is the matter of another result. -/
def queue {τ α : Type*} : Object (List (Item τ α)) (Call τ α) (Answer τ α) where
  init a := a = []
  apply a op r a' :=
    match op, r with
    | .put e, .put ok => ok = true ∧ a' = a ++ [e]
    | .get, .got e => a = e :: a'
    | _, _ => False

section Parts

variable {n : Nat} {τ α : Type*}

/-- The calls and returns that a history consists of. -/
def Container.event (s : Container n τ α) :
    Label n τ α → Option (Event τ (Call τ α) (Answer τ α))
  | .put t value => some (.call t (.put ⟨t, s.puts t, value⟩))
  | .get t _ => some (.call t .get)
  | .round _ _ | .step _ _ => none
  | .ret t =>
      match s.callers t with
      | .putDone _ ok => some (.ret t (.put ok))
      | .getDone e true => some (.ret t (.got e))
      | .getDone _ false => some (.ret t .nothing)
      | _ => none

variable [DecidableEq τ]

/-- The reading of a `get` by what it has removed. Before that it is open
whether it will remove an element of `T`. -/
def Gets (T : τ) (x : Reading (Call τ α) (Answer τ α)) : Option (Item τ α) → Prop
  | some e => x = if e.thread = T then .done .get (.got e) else .left .get
  | none => x = .left .get ∨ x = .pending .get

/-- The reading of a caller whose thread is at `l` in its backend. It depends
on where the thread is and not on the memory. -/
def Caller.Open (T : τ) (l : Local (Fin n) (Item τ α))
    (x : Reading (Call τ α) (Answer τ α)) : Caller n τ α → Prop
  | .idle => x = .outside
  | .put e =>
      x = if e.thread = T then
          if linked l then .done (.put e) (.put true) else .pending (.put e)
        else .left (.put e)
  | .putDone e ok => x = if e.thread = T then .done (.put e) (.put ok) else .left (.put e)
  | .own _ | .first _ _ _ _ => Gets T x (removed l)
  | .retry _ | .second _ _ _ _ => Gets T x none
  | .getDone e true => Gets T x (some e)
  | .getDone _ false => x = .left .get

variable (backend : τ → Option (Fin n)) in
/-- The container seen from thread `T`, whose backend is `q`. -/
noncomputable def part [DecidableEq α] (T : τ) (q : Fin n) :
    PartClient (container backend (α := α)) τ (List (Item τ α)) (Call τ α) (Answer τ α) where
  actor := Label.thread
  event := Container.event
  value s := s.backends.mem.contents q
  Open s t x := (s.callers t).Open T (s.backends.threads t) x

/-- Every thread puts into its own backend, and what a backend holds was put
by its threads. -/
structure Placed (backend : τ → Option (Fin n)) (s : Container n τ α) : Prop where
  putting : ∀ t e q pc, s.callers t = .put e → s.backends.threads t = .push q pc →
    backend e.thread = some q
  contents : ∀ q, ∀ e ∈ s.backends.mem.contents q, backend e.thread = some q

end Parts

section Access

variable {n : Nat} {τ α : Type*} [DecidableEq τ]

/-- What an access of a thread may do, by its caller and by where the thread
was and is in its backend. -/
inductive Access (c : Caller n τ α) (l l' : Local (Fin n) (Item τ α))
    (a a' : Fin n → List (Item τ α)) : Prop
  | quiet (hopen : ∀ T x, c.Open T l' x → c.Open T l x)
      (hpush : ∀ e q pc, c = .put e → l' = .push q pc → ∃ pc, l = .push q pc) (ha : a' = a)
  | link (e : Item τ α) (q : Fin n) (pc : PushPc (Item τ α)) (hc : c = .put e)
      (hl : l = .push q pc) (hold : linked l = false) (hnew : linked l' = true)
      (hpush : ∀ q' pc, l' = .push q' pc → q' = q) (ha : a' = update a q (a q ++ [e]))
  | remove (e : Item τ α) (q : Fin n) (hc : ∀ T x l, c.Open T l x ↔ Gets T x (removed l))
      (hput : ∀ e, c ≠ .put e) (hold : removed l = none) (hnew : removed l' = some e)
      (hfront : a q = e :: a' q) (ha : a' = update a q (a q).tail)

variable {h : History (Fin n) (Item τ α)} {m m' : Mem (Fin n) (Item τ α)}
  {seen : Fin n → Nat} {l l' : Local (Fin n) (Item τ α)} {fresh : Addr} {c : Caller n τ α}

/-- An access of a pop. It takes an element away or nobody notices it. Which
of the two is told by what it has removed after it. -/
theorem Access.of_found [DecidableEq α] {q : Fin n} {k : Nat} {arg : Item τ α}
    {headState : Option Tag} (hc : ∀ T x l, c.Open T l x ↔ Gets T x (removed l))
    (hput : ∀ e, c ≠ .put e) (hfound : Found h m q k arg headState l) (hpre : StepPre fresh m l)
    (hstep : localStep m fresh false l = some (m', l')) :
    Access c l l' m.contents m'.contents := by
  cases hfound with
  | searching =>
      rcases pop_effect hpre hstep with ⟨hsame, ha⟩ | ⟨hold, e, hnew, hfront, ha⟩
      · refine .quiet (fun T x hx => ?_) (fun e _ _ hce => absurd hce (hput e)) ha
        rw [hc] at hx ⊢
        rwa [← hsame]
      · exact .remove e q hc hput hold hnew hfront ha
  | taken | empty => cases hstep

theorem Access.of_delivers {q : Fin n} {e : Item τ α} {pc : PushPc (Item τ α)}
    (hd : pc.Delivers h m q e) (hr : Recorded h m) (hpre : StepPre fresh m (.push q pc))
    (hstep : localStep m fresh false (.push q pc) = some (m', l')) :
    Access (.put e) (.push q pc) l' m.contents m'.contents := by
  have hpush (q' : Fin n) (pc' : PushPc (Item τ α)) (hl : l' = .push q' pc') : q' = q := by
    rcases pushStep_delivers hpre hr hd hstep with ⟨pc₁, heq, -⟩ | ⟨heq, -⟩
    · rw [heq] at hl
      cases hl
      rfl
    · rw [heq] at hl
      cases hl
  rcases push_effect hpre hd hr hstep with ⟨hsame, ha⟩ | ⟨hold, hnew, ha⟩
  · refine .quiet (fun T x hx => ?_) (fun _ q' pc' _ hl => ?_) ha
    · simpa only [Caller.Open, hsame] using hx
    · obtain rfl := hpush q' pc' hl
      exact ⟨pc, rfl⟩
  · exact .link e q pc rfl rfl hold hnew hpush ha

theorem Caller.Ok.effect [DecidableEq α] (hok : c.Ok h m seen l) (hr : Recorded h m)
    (hpre : StepPre fresh m l) (hstep : localStep m fresh false l = some (m', l')) :
    Access c l l' m.contents m'.contents := by
  cases c with
  | idle | retry | getDone =>
      obtain rfl : l = .idle := hok
      cases hstep
  | putDone e ok =>
      obtain ⟨rfl, -⟩ := hok
      cases hstep
  | put e =>
      rcases hok with ⟨q, pc, rfl, hd⟩ | ⟨rfl, -⟩
      · exact .of_delivers hd hr hpre hstep
      · cases hstep
  | own e =>
      obtain ⟨q, arg, hfound⟩ := hok
      exact .of_found (fun _ _ _ => Iff.rfl) nofun hfound hpre hstep
  | first e start i tailsStates =>
      obtain ⟨-, ⟨arg, tag, hfound⟩, -⟩ := hok
      exact .of_found (fun _ _ _ => Iff.rfl) nofun hfound hpre hstep
  | second e start i tailsStates =>
      obtain ⟨-, rfl | ⟨tag, rfl⟩, -⟩ := hok
      · cases hstep
        exact .quiet (fun _ _ hx => hx) nofun rfl
      · cases hstep

end Access

section Seen

variable {n : Nat} {τ α : Type*} [DecidableEq τ] [DecidableEq α] {s s' : Container n τ α}
  {t : τ} {backend : τ → Option (Fin n)}

/-- An access leaves the callers and the other threads as they are. -/
theorem access_effect {fresh : Addr} (h : Inv s)
    (hguard : MSQueue.NotHeld s.backends (.step t fresh false))
    (hnext : s.access t fresh = some s') :
    s'.callers = s.callers ∧
      (∃ l', s'.backends.threads = update s.backends.threads t l') ∧
      Access (s.callers t) (s.backends.threads t) (s'.backends.threads t)
        s.backends.mem.contents s'.backends.mem.contents := by
  simp only [Container.access, MSQueue.next, Option.map_map, Option.map_eq_some_iff,
    Function.comp_apply] at hnext
  obtain ⟨⟨m', l'⟩, hstep, rfl⟩ := hnext
  have hb := h.backends
  have hpre : StepPre fresh s.backends.mem (s.backends.threads t) :=
    ⟨hb.shape, hb.owner t, hb.facts t, hb.held_used t, fun hl => hguard hl t⟩
  refine ⟨rfl, ⟨l', rfl⟩, ?_⟩
  simpa using (h.caller t).effect h.recorded hpre hstep

/-- The thread goes on outside of its backend or calls an operation of one. As
seen from any thread `T`, it is read as it was. -/
def Silent (s s' : Container n τ α) (t : τ)
    (old : τ → Reading (Call τ α) (Answer τ α) → Prop) : Prop :=
  ∃ c l, s'.callers = update s.callers t c ∧
    s'.backends = ⟨s.backends.mem, update s.backends.threads t l⟩ ∧ (∀ e, c ≠ .put e) ∧
    ∀ T x, c.Open T l x → old T x

omit [DecidableEq α] in
theorem Silent.firstTurn (s : Container n τ α) (t : τ) (e : Item τ α) (start : Fin n) (i : Nat)
    (tailsStates : Nat → Tag) :
    Silent s (s.firstTurn t e start i tailsStates) t fun T x => Gets T x none := by
  unfold Container.firstTurn
  split
  · exact ⟨_, _, rfl, rfl, nofun, fun _ _ hx => hx⟩
  · exact ⟨_, _, rfl, rfl, nofun, fun _ _ hx => hx⟩

omit [DecidableEq α] in
theorem Silent.secondTurn (s : Container n τ α) (t : τ) (e : Item τ α) (start : Fin n) (i : Nat)
    (tailsStates : Nat → Tag) :
    Silent s (s.secondTurn t e start i tailsStates) t fun T x => Gets T x none := by
  unfold Container.secondTurn
  split
  · exact ⟨_, _, rfl, rfl, nofun, fun _ _ hx => hx⟩
  · exact ⟨_, _, rfl, rfl, nofun, fun _ _ hx => .inl hx⟩

omit [DecidableEq α] in
/-- The answer of a backend. What it means for the caller was known before it
returned. -/
theorem Silent.resume {r : Res (Item τ α)} (h : Inv s) (hdone : s.backends.threads t = .done r)
    (hnext : s.resume t (s.callers t) r = some s') :
    Silent s s' t fun T x => (s.callers t).Open T (s.backends.threads t) x := by
  have hok := h.caller t
  rw [hdone] at hok ⊢
  generalize s.callers t = c at hok hnext ⊢
  unfold Container.resume at hnext
  split at hnext
  · cases hnext
    rcases hok with ⟨_, _, hpush, -⟩ | ⟨hpushed, -⟩
    · cases hpush
    · cases hpushed
      exact ⟨_, _, rfl, rfl, nofun, fun _ _ hx => hx⟩
  · cases hnext
    exact ⟨_, _, rfl, rfl, nofun, fun _ _ hx => hx⟩
  · cases hnext
    exact ⟨_, _, rfl, rfl, nofun, fun _ _ hx => hx⟩
  · cases hnext
    exact ⟨_, _, rfl, rfl, nofun, fun _ _ hx => hx⟩
  · cases hnext
    exact .firstTurn ..
  · split at hnext <;> cases hnext
    · exact .secondTurn ..
    · exact ⟨_, _, rfl, rfl, nofun, fun _ _ hx => hx⟩
  · cases hnext

/-- A step of a thread in `put` or `get` is an access of its backend, or none
that the backends notice. -/
theorem step_cases {fresh : Addr} (h : Inv s)
    (hnext : s.next backend (.step t fresh) = some s') :
    s.access t fresh = some s' ∨
      Silent s s' t fun T x => (s.callers t).Open T (s.backends.threads t) x := by
  simp only [Container.next] at hnext
  split at hnext
  · next r hdone => exact .inr (.resume h hdone hnext)
  · split at hnext
    · next hc =>
        split at hnext <;> cases hnext
        rw [hc]
        exact .inr ⟨_, _, rfl, rfl, by simp, fun _ _ hx => .inl hx⟩
    · cases hnext
  · exact .inl hnext

omit [DecidableEq α] in
/-- A silent step moves no element. -/
theorem Placed.silent {old : τ → Reading (Call τ α) (Answer τ α) → Prop}
    (hp : Placed backend s) (h : Silent s s' t old) : Placed backend s' := by
  obtain ⟨c, l, hcallers, hbackends, hput, -⟩ := h
  refine ⟨fun u e q pc hu hl => ?_, ?_⟩
  · rw [hcallers] at hu
    rw [hbackends] at hl
    by_cases htu : u = t
    · subst htu
      rw [update_self] at hu
      exact absurd hu (hput e)
    · rw [update_of_ne htu] at hu
      simp only [update_of_ne htu] at hl
      exact hp.putting u e q pc hu hl
  · rw [hbackends]
    exact hp.contents

/-- An access puts an element into the backend of its thread only. -/
theorem Placed.access {fresh : Addr} (hp : Placed backend s) (h : Inv s)
    (hguard : MSQueue.NotHeld s.backends (.step t fresh false))
    (hnext : s.access t fresh = some s') : Placed backend s' := by
  obtain ⟨hcallers, ⟨l', hthreads⟩, heffect⟩ := access_effect h hguard hnext
  have hputting (hpush : ∀ e q pc, s.callers t = .put e → s'.backends.threads t = .push q pc →
      backend e.thread = some q) (u : τ) (e : Item τ α) (q : Fin n) (pc : PushPc (Item τ α))
      (hu : s'.callers u = .put e) (hl : s'.backends.threads u = .push q pc) :
      backend e.thread = some q := by
    rw [hcallers] at hu
    by_cases htu : u = t
    · subst htu
      exact hpush e q pc hu hl
    · rw [hthreads, update_of_ne htu] at hl
      exact hp.putting u e q pc hu hl
  cases heffect with
  | quiet _ hpush ha =>
      refine ⟨hputting fun e q pc he hl => ?_, by rw [ha]; exact hp.contents⟩
      obtain ⟨pc', hl'⟩ := hpush e q pc he hl
      exact hp.putting t e q pc' he hl'
  | link e q pc hc hl _ _ hpush ha =>
      refine ⟨hputting fun e' q' pc' he' hl' => ?_, fun p x hx => ?_⟩
      · obtain rfl := hpush q' pc' hl'
        exact hp.putting t e' q' pc he' hl
      · rw [ha] at hx
        by_cases hpq : p = q
        · subst hpq
          rw [update_self, List.mem_append, List.mem_singleton] at hx
          rcases hx with hx | rfl
          · exact hp.contents p x hx
          · exact hp.putting t x p pc hc hl
        · rw [update_of_ne hpq] at hx
          exact hp.contents p x hx
  | remove e q _ hput _ _ _ ha =>
      refine ⟨hputting fun e' _ _ he' => absurd he' (hput e'), fun p x hx => ?_⟩
      rw [ha] at hx
      by_cases hpq : p = q
      · subst hpq
        rw [update_self] at hx
        exact hp.contents p x (List.mem_of_mem_tail hx)
      · rw [update_of_ne hpq] at hx
        exact hp.contents p x hx

/-- So the elements stay in the backends of the threads that put them. -/
theorem Placed.next {l : Label n τ α} (hp : Placed backend s) (h : Inv s) (hguard : Unheld s l)
    (hnext : s.next backend l = some s') : Placed backend s' := by
  cases l with
  | put t value =>
      simp only [Container.next] at hnext
      split at hnext
      · next q hc hq =>
          cases hnext
          refine ⟨fun u e q' pc hu hl => ?_, hp.contents⟩
          simp only [Container.invoke] at hu hl
          by_cases htu : u = t
          · subst htu
            rw [update_self] at hu hl
            cases hu
            cases hl
            exact hq
          · rw [update_of_ne htu] at hu hl
            exact hp.putting u e q' pc hu hl
      · cases hnext
  | get t element =>
      simp only [Container.next] at hnext
      have hsilent : Silent s s' t fun _ _ => True := by
        split at hnext <;> cases hnext <;> exact ⟨_, _, rfl, rfl, by simp, fun _ _ _ => trivial⟩
      exact hp.silent hsilent
  | round t start =>
      simp only [Container.next] at hnext
      split at hnext <;> cases hnext
      exact hp.silent (.firstTurn ..)
  | step t fresh =>
      rcases step_cases h hnext with haccess | hsilent
      · exact hp.access h hguard haccess
      · exact hp.silent hsilent
  | ret t =>
      have hsilent : Silent s s' t fun _ _ => True := by
        refine ⟨.idle, s.backends.threads t, ?_, ?_, by simp, fun _ _ _ => trivial⟩
        · simp only [Container.next] at hnext
          split at hnext <;> cases hnext <;> rfl
        · rw [update_eq_self]
          simp only [Container.next] at hnext
          split at hnext <;> cases hnext <;> rfl
      exact hp.silent hsilent

omit [DecidableEq τ] [DecidableEq α] in
theorem contents_initial (h : Initial s) (q : Fin n) : s.backends.mem.contents q = [] := by
  apply h.backends.inv.shape.contents_nil
  rw [Mem.nextAddr, h.backends.next_null]
  rfl

omit [DecidableEq τ] [DecidableEq α] in
theorem Placed.initial (h : Initial s) : Placed backend s where
  putting t e q pc hc _ := by
    rw [h.callers] at hc
    cases hc
  contents q e he := by
    rw [contents_initial h] at he
    exact absurd he List.not_mem_nil

variable {T : τ} {q : Fin n}

omit [DecidableEq α] in
theorem Caller.Open.exists (c : Caller n τ α) (T : τ) (l : Local (Fin n) (Item τ α)) :
    ∃ x, c.Open T l x := by
  have hgets : ∀ o : Option (Item τ α), ∃ x, Gets T x o
    | some _ => ⟨_, rfl⟩
    | none => ⟨_, .inl rfl⟩
  cases c with
  | idle | put | putDone => exact ⟨_, rfl⟩
  | own | first => exact hgets _
  | retry | second => exact hgets none
  | getDone e ok =>
      cases ok
      · exact ⟨_, rfl⟩
      · exact hgets (some e)

omit [DecidableEq α] in
theorem Silent.back {old : τ → Reading (Call τ α) (Answer τ α) → Prop} (h : Silent s s' t old)
    {x : Reading (Call τ α) (Answer τ α)}
    (hopen : (s'.callers t).Open T (s'.backends.threads t) x) :
    old T x ∧ s'.backends.mem.contents q = s.backends.mem.contents q := by
  obtain ⟨c, l, hcallers, hbackends, -, hold⟩ := h
  rw [hcallers, hbackends] at hopen
  simp only [update_self] at hopen
  rw [hbackends]
  exact ⟨hold T x hopen, rfl⟩

/-- An access, read backwards: the backend of `T` sees the puts of `T`, and a
`get` that removes an element of `T` takes it from there. -/
theorem access_back {fresh : Addr} (h : Inv s) (hp : Placed backend s)
    (hguard : MSQueue.NotHeld s.backends (.step t fresh false))
    (hnext : s.access t fresh = some s') (hT : backend T = some q)
    (halone : ∀ u, backend u = some q → u = T) {x' : Reading (Call τ α) (Answer τ α)}
    (hopen : (s'.callers t).Open T (s'.backends.threads t) x') :
    ∃ x, (s.callers t).Open T (s.backends.threads t) x ∧
      PartSimulates queue (Mine T) t (s.backends.mem.contents q) x none
        (s'.backends.mem.contents q) x' := by
  obtain ⟨hcallers, -, heffect⟩ := access_effect h hguard hnext
  rw [hcallers] at hopen
  cases heffect with
  | quiet hback _ ha =>
      rw [ha]
      exact ⟨x', hback T x' hopen, .stay _ _⟩
  | link e p pc hc hl hold hnew _ ha =>
      have hplace := hp.putting t e p pc hc hl
      rw [hc] at hopen ⊢
      simp only [Caller.Open, hnew, if_true] at hopen
      subst hopen
      by_cases he : e.thread = T
      · obtain rfl : q = p := Option.some.inj (hT.symm.trans (he ▸ hplace))
        refine ⟨.pending (.put e), by simp [Caller.Open, he, hold], ?_⟩
        rw [ha, update_self, if_pos he]
        exact .perform ⟨rfl, rfl⟩
      · have hne : q ≠ p := fun heq => he (halone e.thread (heq ▸ hplace))
        refine ⟨.left (.put e), by simp [Caller.Open, he], ?_⟩
        rw [ha, update_of_ne hne, if_neg he]
        exact .stay _ _
  | remove e p hc _ hold hnew hfront ha =>
      have hplace : backend e.thread = some p := hp.contents p e (by rw [hfront]; exact .head _)
      rw [hc, hnew] at hopen
      simp only [hc, hold]
      have hopen : x' = if e.thread = T then .done .get (.got e) else .left .get := hopen
      subst hopen
      by_cases he : e.thread = T
      · obtain rfl : q = p := Option.some.inj (hT.symm.trans (he ▸ hplace))
        refine ⟨.pending .get, .inr rfl, ?_⟩
        rw [if_pos he]
        exact .perform hfront
      · have hne : q ≠ p := fun heq => he (halone e.thread (heq ▸ hplace))
        refine ⟨.left .get, .inl rfl, ?_⟩
        rw [ha, update_of_ne hne, if_neg he]
        exact .stay _ _

/-- Seen from a thread with a backend of its own, the container is a FIFO
queue, step by step. -/
theorem refines (hT : backend T = some q) (halone : ∀ u, backend u = some q → u = T) :
    (part backend T q (α := α)).Refines Unheld (fun s => Inv s ∧ Placed backend s) queue
      (Mine T) where
  inv_init _ h := ⟨.initial h, .initial h⟩
  inv_step _ _ _ h hguard hnext := ⟨h.1.next hguard hnext, h.2.next h.1 hguard hnext⟩
  value_init _ h := contents_initial h q
  outside_init s t x h hopen := by
    have hopen : (s.callers t).Open T (s.backends.threads t) x := hopen
    rw [h.callers] at hopen
    exact hopen
  some_open s t _ := Caller.Open.exists (s.callers t) T (s.backends.threads t)
  frame s l s' t x _ _ hnext ht hopen := by
    have hframe : Frame t s s' := .next ht hnext
    have hopen : (s'.callers t).Open T (s'.backends.threads t) x := hopen
    rw [hframe.caller, hframe.thread] at hopen
    exact hopen
  back s l s' x' h hguard hnext hopen := by
    have hopen : (s'.callers l.thread).Open T (s'.backends.threads l.thread) x' := hopen
    change ∃ x, (s.callers l.thread).Open T (s.backends.threads l.thread) x ∧
      PartSimulates queue (Mine T) l.thread (s.backends.mem.contents q) x (s.event l)
        (s'.backends.mem.contents q) x'
    have hstay {old : τ → Reading (Call τ α) (Answer τ α) → Prop}
        (hsilent : Silent s s' l.thread old)
        (hold : old T x' → (s.callers l.thread).Open T (s.backends.threads l.thread) x')
        (hevent : s.event l = none) :
        ∃ x, (s.callers l.thread).Open T (s.backends.threads l.thread) x ∧
          PartSimulates queue (Mine T) l.thread (s.backends.mem.contents q) x (s.event l)
            (s'.backends.mem.contents q) x' := by
      obtain ⟨hx, hsame⟩ := hsilent.back (q := q) hopen
      rw [hsame, hevent]
      exact ⟨x', hold hx, .stay _ _⟩
    have hnext : s.next backend l = some s' := hnext
    cases l with
    | put t value =>
        simp only [Container.next] at hnext
        split at hnext
        · next p hc hp =>
            cases hnext
            simp only [Label.thread, Container.invoke, update_self] at hopen
            refine ⟨.outside, hc ▸ rfl, ?_⟩
            by_cases ht : t = T
            · obtain rfl : x' = .pending (.put ⟨t, s.puts t, value⟩) := by
                simpa [Caller.Open, ht, MSQueue.start, linked] using hopen
              exact .call _ _
            · obtain rfl : x' = .left (.put ⟨t, s.puts t, value⟩) := by
                simpa [Caller.Open, ht] using hopen
              exact .leave _ _
        · cases hnext
    | get t element =>
        simp only [Container.next] at hnext
        have hidle : s.callers t = .idle := by
          split at hnext
          · assumption
          · assumption
          · cases hnext
        have hsilent : Silent s s' t fun T x => Gets T x none := by
          split at hnext <;> cases hnext <;> exact ⟨_, _, rfl, rfl, by simp, fun _ _ hx => hx⟩
        obtain ⟨hx, hsame⟩ := hsilent.back (q := q) hopen
        rw [hsame]
        refine ⟨.outside, hidle ▸ rfl, ?_⟩
        rcases hx with rfl | rfl
        · exact .leave _ _
        · exact .call _ _
    | round t start =>
        simp only [Container.next] at hnext
        split at hnext
        · next element hc =>
            cases hnext
            exact hstay (.firstTurn ..) (fun hx => by rw [Label.thread, hc]; exact hx) rfl
        · cases hnext
    | step t fresh =>
        rcases step_cases h.1 hnext with haccess | hsilent
        · exact access_back h.1 h.2 hguard haccess hT halone hopen
        · exact hstay hsilent id rfl
    | ret t =>
        simp only [Container.next] at hnext
        split at hnext
        · next e ok hc =>
            cases hnext
            obtain rfl : x' = .outside := by simpa [Label.thread, Caller.Open] using hopen
            simp only [Container.event, Label.thread, hc]
            by_cases he : e.thread = T
            · exact ⟨.done (.put e) (.put ok), by simp [Caller.Open, he], .ret _ he⟩
            · exact ⟨.left (.put e), by simp [Caller.Open, he], .pass _ he⟩
        · next e ok hc =>
            cases hnext
            obtain rfl : x' = .outside := by simpa [Label.thread, Caller.Open] using hopen
            simp only [Container.event, Label.thread, hc]
            cases ok with
            | false => exact ⟨.left .get, rfl, .pass _ id⟩
            | true =>
                by_cases he : e.thread = T
                · exact ⟨.done .get (.got e), by simp [Caller.Open, Gets, he], .ret _ he⟩
                · exact ⟨.left .get, by simp [Caller.Open, Gets, he], .pass _ he⟩
        · cases hnext

end Seen

section Main

variable {n : Nat} {τ α : Type*} [DecidableEq τ] [DecidableEq α] {backend : τ → Option (Fin n)}

/-- The container is locally linearizable: of every history, the calls that
put an element of a thread or return one are a history of a FIFO queue. `new`
is to hand out no address that a thread still holds; between the parts of two
threads nothing is promised. -/
theorem container_locally_linearizable {s : Container n τ α} {ls : List (Label n τ α)}
    {hist : List (Event τ (Call τ α) (Answer τ α))} {T : τ} {q : Fin n}
    (hT : backend T = some q) (halone : ∀ u, backend u = some q → u = T)
    (hrun : (part backend T q (α := α)).recorded.Run (fun p => Unheld p.1) ls (s, hist)) :
    PartLinearizesTo queue (Mine T) hist (s.backends.mem.contents q) :=
  (refines hT halone).linearizesTo hrun

/-- Thread 1 finds its own backend empty and takes the element of thread 0. -/
def stealingRun : List (Label 3 (Fin 3) Unit) :=
  .put 0 () :: .step 0 4 :: steps 0 6 ++ .ret 0 :: .get 1 ⟨1, 0, ()⟩ :: steps 1 5 ++
    .round 1 2 :: steps 1 13 ++ [.ret 1]

def stealingHistory : List (Event (Fin 3) (Call (Fin 3) Unit) (Answer (Fin 3) Unit)) :=
  [.call 0 (.put ⟨0, 0, ()⟩), .ret 0 (.put true), .call 1 .get, .ret 1 (.got ⟨0, 0, ()⟩)]

theorem container_locally_linearizable_stealingRun :
    ∃ s : Container 3 (Fin 3) Unit,
      PartLinearizesTo queue (Mine 0) stealingHistory (s.backends.mem.contents 0) := by
  have hsome : ((part registered 0 0).recorded.exec (fun p => Unheld p.1) (emptyContainer, [])
      stealingRun).map Prod.snd = some stealingHistory := by decide +kernel
  obtain ⟨⟨s, hist⟩, hexec, hhist⟩ := Option.map_eq_some_iff.mp hsome
  have hrun : (part registered 0 0).recorded.Run (fun p => Unheld p.1) stealingRun (s, hist) :=
    ⟨(emptyContainer, []), ⟨initial_emptyContainer, rfl⟩, steps_of_exec hexec⟩
  have halone (u : Fin 3) (hu : registered u = some 0) : u = 0 := Option.some.inj hu
  obtain rfl : hist = stealingHistory := hhist
  exact ⟨s, container_locally_linearizable rfl halone hrun⟩

end Main

end Libni.DistributedMSQueue
