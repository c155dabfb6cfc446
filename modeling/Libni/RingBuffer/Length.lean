import Mathlib.Data.List.Infix
import Mathlib.Data.Nat.Count
import Libni.RingBuffer.Linearizable

/-!
`len` while the other side is at work. It compares the two indices, and the index of
the other side is one slot behind between the update of a slot and that of the index;
if the indices agree it asks one slot whether the buffer is empty or full. The length
it returns is one that the buffer had during the call, unless it meets the index of a
slot updated before the call, or the slot has changed since the indices agreed.
-/

namespace Libni.RingBuffer

open Function Libni.Transition Libni.Transition.System

section Occupied

variable {α : Type*} [DecidableEq α] {empty : α} {r : Ring α} {front back : Nat} {q : List α}

/-- The number of slots different from `Empty`. It is the length of the
contents at every moment, also while an index lags behind. -/
def Ring.occupied (empty : α) (r : Ring α) : Nat := Nat.count (fun i => r.buf i ≠ empty) r.size

/-- The other side is between the update of a slot and that of its index.
There the two indices say something else than the slots. -/
def Local.updating : Local α → Bool
  | .push .nextIndex | .push (.setIndex _) => true
  | .pop (.nextIndex _) | .pop (.setIndex _ _) => true
  | _ => false

theorem Layout.occupied_eq (h : Layout empty r front back q) : r.occupied empty = q.length := by
  rw [Ring.occupied, Nat.count_eq_card_filter_range]
  refine Eq.trans ?_ (Finset.card_range q.length)
  symm
  refine Finset.card_bij (fun i _ => (front + i) % r.size) ?_ ?_ ?_
  · intro i hi
    have hi : i < q.length := Finset.mem_range.mp hi
    have hslot := h.slots i (hi.trans_le h.le)
    rw [List.getD_eq_getElem _ _ hi] at hslot
    rw [Finset.mem_filter, Finset.mem_range, hslot]
    exact ⟨Nat.mod_lt _ r.size_pos, h.proper _ (List.getElem_mem hi)⟩
  · intro i hi j hj hij
    have hi : i < q.length := Finset.mem_range.mp hi
    have hj : j < q.length := Finset.mem_range.mp hj
    exact Layout.index_injective (hi.trans_le h.le) (hj.trans_le h.le) hij
  · intro j hj
    obtain ⟨hj, hfull⟩ := Finset.mem_filter.mp hj
    have hj : j < r.size := Finset.mem_range.mp hj
    have hfront := h.front_lt
    -- the offset of slot `j` from the front
    obtain ⟨i, hi, rfl⟩ : ∃ i < r.size, (front + i) % r.size = j := by
      refine ⟨(j + (r.size - front)) % r.size, Nat.mod_lt _ r.size_pos, ?_⟩
      rw [Nat.add_mod_mod, show front + (j + (r.size - front)) = j + r.size by omega,
        Nat.add_mod_right, Nat.mod_eq_of_lt hj]
    refine ⟨i, Finset.mem_range.mpr ?_, rfl⟩
    by_contra hge
    rw [h.slots i hi, List.getD_eq_default _ _ (Nat.le_of_not_lt hge)] at hfull
    exact hfull rfl

omit [DecidableEq α] in
/-- What `len` computes from different indices, with the case of an index that
has gone round. -/
def Ring.between (r : Ring α) (w i : Nat) : Nat := if w > i then w - i else r.size - i + w

theorem lenStep_of_ne (empty : α) {r : Ring α} {w : Nat} (hne : w ≠ r.readIndex) :
    lenStep empty r (.loadRead w) = .done (.len (r.between w r.readIndex)) := by
  simp only [lenStep, Ring.between]
  split
  · rfl
  · rw [if_pos (by omega)]

omit [DecidableEq α] in
theorem Ring.advance_cases {i : Nat} (hi : i < r.size) :
    (r.advance i = i + 1 ∧ i + 1 < r.size) ∨ (r.advance i = 0 ∧ i + 1 = r.size) := by
  rw [Ring.advance_eq]
  rcases Nat.lt_or_ge (i + 1) r.size with hlt | hge
  · exact .inl ⟨Nat.mod_eq_of_lt hlt, hlt⟩
  · have hlast : i + 1 = r.size := by omega
    exact .inr ⟨by rw [hlast, Nat.mod_self], hlast⟩

omit [DecidableEq α] in
theorem Layout.back_cases (h : Layout empty r front back q) :
    (back = front + q.length ∧ back < r.size) ∨ back + r.size = front + q.length := by
  have hfront := h.front_lt
  have hle := h.le
  have hback := h.back_eq
  rcases Nat.lt_or_ge (front + q.length) r.size with hlt | hge
  · rw [Nat.mod_eq_of_lt hlt] at hback
    exact .inl ⟨hback, by omega⟩
  · rw [Nat.mod_eq_sub_mod hge, Nat.mod_eq_of_lt (by omega)] at hback
    exact .inr (by omega)

omit [DecidableEq α] in
theorem Layout.between_eq (h : Layout empty r front back q) (hne : back ≠ front) :
    r.between back front = q.length := by
  have hfront := h.front_lt
  have hle := h.le
  unfold Ring.between
  rcases h.back_cases with hback | hback
  · rw [if_pos (by omega)]
    omega
  · rw [if_neg (by omega)]
    omega

omit [DecidableEq α] in
/-- A read index that is one slot behind counts one element too many, the one
just removed. -/
theorem Layout.between_behind {i : Nat} (h : Layout empty r (r.advance i) back q)
    (hi : i < r.size) (hlt : q.length < r.size) :
    r.between back i = q.length + 1 := by
  unfold Ring.between
  rcases Ring.advance_cases hi with ⟨hnext, hi'⟩ | ⟨hnext, hi'⟩ <;>
    rcases h.back_cases with hback | hback <;> rw [hnext] at hback <;> split <;> omega

omit [DecidableEq α] in
/-- A write index that is one slot behind counts one element too few, the one
just stored. -/
theorem Layout.between_ahead {w : Nat} (h : Layout empty r front (r.advance w) q)
    (hw : w < r.size) (hne : w ≠ front) (hpos : 0 < q.length) :
    r.between w front + 1 = q.length := by
  have hfront := h.front_lt
  have hle := h.le
  unfold Ring.between
  rcases Ring.advance_cases hw with ⟨hnext, hw'⟩ | ⟨hnext, hw'⟩ <;>
    rcases h.back_cases with hback | hback <;> rw [hnext] at hback <;> split <;> omega

end Occupied

section Guard

variable {α : Type*} [DecidableEq α] (empty : α)

/-- An access of the `len` of thread `t`, called in `s₀`. When it loads the
index of the other side, the other side is not between the updates of a slot
and of its index, unless it has updated the slot since the call; where the
indices agree that does not matter. Then the slot holds `Empty` only if the
buffer is empty, for the producer, and something else only if the buffer is
full, for the consumer. -/
def UndisturbedLoad (s₀ s : State α) (t : Role) (pc : LenPc) : Prop :=
  match t, pc with
  | .producer, .loadRead w =>
      w ≠ s.ring.readIndex → (s.threads .consumer).updating = true →
        s.ring.occupied empty < s₀.ring.occupied empty
  | .producer, .loadSlot w => s.ring.buf w = empty → s.ring.occupied empty = 0
  | .consumer, .loadWrite =>
      s.ring.writeIndex ≠ s.ring.readIndex → (s.threads .producer).updating = true →
        s₀.ring.occupied empty < s.ring.occupied empty
  | .consumer, .loadSlot w => s.ring.buf w ≠ empty → s.ring.occupied empty = s.ring.size
  | .producer, .loadWrite | .consumer, .loadRead _ => True

/-- Every step is allowed, and those of `t` are undisturbed accesses of its
`len`. The condition is on the state before the access and does not mention
its result. -/
def Undisturbed (s₀ : State α) (t : Role) (s : State α) (l : Label α) : Prop :=
  Disciplined empty s l ∧
    match l, s.threads t with
    | .step u, .len pc => u = t → UndisturbedLoad empty s₀ s t pc
    | _, _ => True

variable {empty} in
theorem Undisturbed.load {s₀ s : State α} {t : Role} {pc : LenPc}
    (h : Undisturbed empty s₀ t s (.step t)) (hpc : s.threads t = .len pc) :
    UndisturbedLoad empty s₀ s t pc := by
  have hload := h.2
  rw [hpc] at hload
  exact hload rfl

end Guard

section Steps

variable {α : Type*} [DecidableEq α] {empty : α} {size : Nat} {s s' s₀ : State α} {t : Role}

theorem Inv.occupied_eq (h : Inv empty size s) :
    s.ring.occupied empty = (s.stored empty).length := h.layout.occupied_eq

omit [DecidableEq α] in
theorem length_pushed (p : Performed Role (Op α) (Res α)) : (pushed p).length ≤ 1 := by
  unfold pushed
  split <;> simp

theorem length_popped (p : Performed Role (Op α) (Res α)) : (popped empty p).length ≤ 1 := by
  unfold popped
  split
  · split <;> simp
  · simp

/-- A step stores or removes at most one element, so that the length takes
every value between any two it has had. -/
theorem Inv.occupied_next {l : Label α} (h : Inv empty size s) (hguard : Disciplined empty s l)
    (hnext : (system empty size).next s l = some s') :
    s'.ring.occupied empty ≤ s.ring.occupied empty + 1 ∧
      s.ring.occupied empty ≤ s'.ring.occupied empty + 1 := by
  obtain ⟨hinv, hsim⟩ := h.next hguard hnext
  rw [h.occupied_eq, hinv.occupied_eq]
  generalize s.stored empty = a at hsim
  generalize s'.stored empty = a' at hsim
  rcases hsim with ⟨-, rfl, -⟩ | ⟨perf, hmove⟩
  · omega
  · rcases hmove.performs with ⟨-, rfl⟩ | ⟨p, -, happly⟩
    · omega
    · have hconserved := congrArg List.length (pushed_eq happly)
      have hpushed := length_pushed p
      have hpopped : (popped empty p).length ≤ 1 := length_popped p
      simp only [List.length_append] at hconserved
      omega

omit [DecidableEq α] in
/-- The indices stay below the size. -/
def Ring.Indexed (r : Ring α) : Prop := r.writeIndex < r.size ∧ r.readIndex < r.size

theorem Ring.Indexed.localStep {r r' : Ring α} {l l' : Local α} (h : r.Indexed)
    (hstep : localStep empty r l = some (r', l')) : r'.Indexed := by
  cases l with
  | idle | done => cases hstep
  | available | top | empty | len =>
      cases hstep
      exact h
  | push pc =>
      cases pc with
      | setIndex w =>
          cases hstep
          exact ⟨r.advance_lt w, h.2⟩
      | loadSlot e w =>
          simp only [RingBuffer.localStep, pushStep] at hstep
          split at hstep <;> cases hstep <;> exact h
      | _ =>
          cases hstep
          exact h
  | pop pc =>
      cases pc with
      | setIndex e i =>
          cases hstep
          exact ⟨h.1, r.advance_lt i⟩
      | loadSlot i =>
          simp only [RingBuffer.localStep, popStep] at hstep
          split at hstep <;> cases hstep <;> exact h
      | _ =>
          cases hstep
          exact h

theorem Ring.Indexed.next {l : Label α} (h : s.ring.Indexed)
    (hnext : (system empty size).next s l = some s') : s'.ring.Indexed := by
  cases l with
  | call u op =>
      obtain ⟨_, rfl⟩ := next_call hnext
      exact h
  | step u =>
      obtain ⟨r, l, hstep, rfl⟩ := next_step hnext
      exact h.localStep hstep
  | ret u result =>
      obtain ⟨_, rfl⟩ := next_ret hnext
      exact h

/-- A side's index is not touched by the other side, so the index it has
loaded itself stays right. -/
theorem Inv.index_next {l : Label α} (h : Inv empty size s)
    (hnext : (system empty size).next s l = some s') :
    (l.actor = .consumer → s'.ring.writeIndex = s.ring.writeIndex) ∧
      (l.actor = .producer → s'.ring.readIndex = s.ring.readIndex) := by
  cases l with
  | call u op =>
      obtain ⟨_, rfl⟩ := next_call hnext
      exact ⟨fun _ => rfl, fun _ => rfl⟩
  | step u =>
      obtain ⟨r, l, hstep, rfl⟩ := next_step hnext
      constructor
      · rintro rfl
        obtain ⟨q, hq⟩ := consumer_ok h.layout h.consuming hstep
        exact hq.writeIndex_eq
      · rintro rfl
        obtain ⟨q, hq⟩ := producer_ok h.layout h.producing hstep
        exact hq.readIndex_eq
  | ret u result =>
      obtain ⟨_, rfl⟩ := next_ret hnext
      exact ⟨fun _ => rfl, fun _ => rfl⟩

omit [DecidableEq α] in
theorem Local.front_eq {r : Ring α} {q : List α} {l : Local α} (h : l.Consuming r q) :
    l.front r = if l.updating then r.advance r.readIndex else r.readIndex := by
  unfold Local.front Local.updating
  split
  · rfl
  · rfl
  · split
    · exact h.elim
    · exact h.elim
    · simp_all
    · simp_all
    · rfl

omit [DecidableEq α] in
theorem Local.back_eq {r : Ring α} {q : List α} {l : Local α} (h : l.Producing empty r q) :
    l.back r = if l.updating then r.advance r.writeIndex else r.writeIndex := by
  unfold Local.back Local.updating
  split
  · rfl
  · rfl
  · split
    · simp_all
    · simp_all
    · exact h.elim
    · exact h.elim
    · rfl

end Steps

section Watching

variable {α : Type*} [DecidableEq α] {empty : α} {size : Nat} {s s' s₀ : State α} {t : Role}
  {ms : List (Label α)} {w : Nat}

structure Ready (empty : α) (size : Nat) (s : State α) : Prop where
  inv : Inv empty size s
  indexed : s.ring.Indexed

theorem Ready.next {l : Label α} (h : Ready empty size s) (hguard : Disciplined empty s l)
    (hnext : (system empty size).next s l = some s') : Ready empty size s' :=
  ⟨(h.inv.next hguard hnext).1, h.indexed.next hnext⟩

/-- The buffer has had `n` elements at some instant since the call. That is
what a `len` that overlaps with pushes and pops may answer. -/
abbrev Had (empty : α) (size : Nat) (t : Role) (s₀ : State α) (ms : List (Label α))
    (s : State α) (n : Nat) : Prop :=
  (system empty size).Through (Undisturbed empty s₀ t) (fun u => u.ring.occupied empty = n)
    s₀ ms s

/-- What is known of a `len` in progress and of one that has its result: an
index loaded by its own side is still the current one, one of the other side
was current at some instant, and a result is a length the buffer has had. -/
def Watching (empty : α) (size : Nat) (t : Role) (s₀ : State α) (ms : List (Label α))
    (s : State α) : Prop :=
  match t, s.threads t with
  | _, .len .loadWrite => True
  | .producer, .len (.loadRead w) | .producer, .len (.loadSlot w) => w = s.ring.writeIndex
  | .consumer, .len (.loadRead w) =>
      w ≠ s.ring.readIndex → Had empty size t s₀ ms s (s.ring.between w s.ring.readIndex)
  | .consumer, .len (.loadSlot w) => w = s.ring.readIndex
  | _, .done (.len v) => Had empty size t s₀ ms s v
  | _, _ => False

/-- A number between the lengths at the call and now was the length at some
instant, by the steps of one. -/
theorem had_of_between (h₀ : Ready empty size s₀)
    (hsteps : (system empty size).Steps (Undisturbed empty s₀ t) s₀ ms s) {n : Nat}
    (hn : s₀.ring.occupied empty ≤ n ∧ n ≤ s.ring.occupied empty ∨
      s.ring.occupied empty ≤ n ∧ n ≤ s₀.ring.occupied empty) : Had empty size t s₀ ms s n :=
  hsteps.attains h₀ (fun _ _ _ h hguard hnext =>
    ⟨h.next hguard.1 hnext, h.inv.occupied_next hguard.1 hnext⟩) hn

/-- The producer's comparison of different indices. The read index may be one
behind, which counts an element that was there when the call began. -/
theorem had_between_producer (h₀ : Ready empty size s₀) (h : Ready empty size s)
    (hsteps : (system empty size).Steps (Undisturbed empty s₀ .producer) s₀ ms s)
    (hback : s.back = s.ring.writeIndex) (hne : s.ring.writeIndex ≠ s.ring.readIndex)
    (hguard : (s.threads .consumer).updating = true →
      s.ring.occupied empty < s₀.ring.occupied empty) :
    Had empty size .producer s₀ ms s (s.ring.between s.ring.writeIndex s.ring.readIndex) := by
  have hlayout := h.inv.layout
  have hfront := Local.front_eq h.inv.consuming
  have hoccupied := h.inv.occupied_eq
  rw [hback, State.front, hfront] at hlayout
  by_cases hupdating : (s.threads .consumer).updating = true
  · rw [if_pos hupdating] at hlayout
    have hless := hguard hupdating
    have hle := h₀.inv.layout.le
    have hle₀ := h₀.inv.occupied_eq
    have hsize : s.ring.size = s₀.ring.size := by rw [h.inv.size_eq, h₀.inv.size_eq]
    rw [hlayout.between_behind h.indexed.2 (by omega)]
    exact had_of_between h₀ hsteps (by omega)
  · rw [if_neg hupdating] at hlayout
    rw [hlayout.between_eq hne]
    exact had_of_between h₀ hsteps (by omega)

/-- The consumer's comparison of different indices, which are those of the
state in which it loads the write index. -/
theorem had_between_consumer (h₀ : Ready empty size s₀) (h : Ready empty size s)
    (hsteps : (system empty size).Steps (Undisturbed empty s₀ .consumer) s₀ ms s)
    (hfront : s.front = s.ring.readIndex) (hne : s.ring.writeIndex ≠ s.ring.readIndex)
    (hguard : (s.threads .producer).updating = true →
      s₀.ring.occupied empty < s.ring.occupied empty) :
    Had empty size .consumer s₀ ms s (s.ring.between s.ring.writeIndex s.ring.readIndex) := by
  have hlayout := h.inv.layout
  have hback := Local.back_eq h.inv.producing
  have hoccupied := h.inv.occupied_eq
  rw [hfront, State.back, hback] at hlayout
  by_cases hupdating : (s.threads .producer).updating = true
  · rw [if_pos hupdating] at hlayout
    have hless := hguard hupdating
    have hahead := hlayout.between_ahead h.indexed.1 hne (by omega)
    exact had_of_between h₀ hsteps (by omega)
  · rw [if_neg hupdating] at hlayout
    rw [hlayout.between_eq hne]
    exact had_of_between h₀ hsteps (by omega)

theorem Watching.producer {pc : LenPc} (h₀ : Ready empty size s₀) (h : Ready empty size s)
    (hwatch : Watching empty size .producer s₀ ms s)
    (hsteps : (system empty size).Steps (Undisturbed empty s₀ .producer) s₀ ms s)
    (hguard : Undisturbed empty s₀ .producer s (.step .producer))
    (hnext : (system empty size).next s (.step .producer) = some s')
    (hpc : s.threads .producer = .len pc) :
    Watching empty size .producer s₀ (ms ++ [.step .producer]) s' := by
  have hback : s.back = s.ring.writeIndex := by rw [State.back, hpc]; rfl
  have hexact := hguard.load hpc
  have hstep := hnext
  simp only [system, RingBuffer.next, hpc, localStep, Option.map_some, Option.some.injEq] at hstep
  unfold Watching at hwatch
  rw [hpc] at hwatch
  subst hstep
  cases pc with
  | loadWrite => simp [Watching, lenStep]
  | loadRead w =>
      obtain rfl : w = s.ring.writeIndex := hwatch
      by_cases hne : s.ring.writeIndex = s.ring.readIndex
      · simp [Watching, lenStep, hne]
      · have hhad := had_between_producer h₀ h hsteps hback hne (hexact hne)
        have hdone := lenStep_of_ne empty hne
        rw [hdone] at hnext
        simp only [Watching, update_self, hdone]
        exact hhad.snoc hguard hnext fun _ hu => hu
  | loadSlot w =>
      obtain rfl : w = s.ring.writeIndex := hwatch
      have hlayout := h.inv.layout
      rw [hback] at hlayout
      have hoccupied := h.inv.occupied_eq
      have hle := hlayout.le
      have hslot := hlayout.back_slot_eq_empty
      simp only [Watching, update_self, lenStep]
      refine .now (hsteps.snoc hguard hnext) ?_
      split
      · next hempty => exact hexact hempty
      · next hfull =>
          rw [hslot] at hfull
          change s.ring.occupied empty = s.ring.size
          omega

theorem Watching.consumer {pc : LenPc} (h₀ : Ready empty size s₀) (h : Ready empty size s)
    (hwatch : Watching empty size .consumer s₀ ms s)
    (hsteps : (system empty size).Steps (Undisturbed empty s₀ .consumer) s₀ ms s)
    (hguard : Undisturbed empty s₀ .consumer s (.step .consumer))
    (hnext : (system empty size).next s (.step .consumer) = some s')
    (hpc : s.threads .consumer = .len pc) :
    Watching empty size .consumer s₀ (ms ++ [.step .consumer]) s' := by
  have hfront : s.front = s.ring.readIndex := by rw [State.front, hpc]; rfl
  have hexact := hguard.load hpc
  have hstep := hnext
  simp only [system, RingBuffer.next, hpc, localStep, Option.map_some, Option.some.injEq] at hstep
  unfold Watching at hwatch
  rw [hpc] at hwatch
  subst hstep
  cases pc with
  | loadWrite =>
      simp only [Watching, update_self, lenStep]
      intro hne
      have hhad := had_between_consumer h₀ h hsteps hfront hne (hexact hne)
      exact hhad.snoc hguard hnext fun _ hu => hu
  | loadRead w =>
      by_cases hne : w = s.ring.readIndex
      · simp [Watching, lenStep, hne]
      · have hdone := lenStep_of_ne empty hne
        rw [hdone] at hnext
        simp only [Watching, update_self, hdone]
        exact (hwatch hne).snoc hguard hnext fun _ hu => hu
  | loadSlot w =>
      obtain rfl : w = s.ring.readIndex := hwatch
      have hlayout := h.inv.layout
      rw [hfront] at hlayout
      have hoccupied := h.inv.occupied_eq
      have hslot := hlayout.front_slot_eq_empty
      simp only [Watching, update_self, lenStep]
      refine .now (hsteps.snoc hguard hnext) ?_
      split
      · next hempty =>
          rw [hslot] at hempty
          change s.ring.occupied empty = 0
          rw [hoccupied, hempty, List.length_nil]
      · next hfull => exact hexact hfull

/-- A step of the thread that has called `len`, before `len` returns. -/
theorem Watching.own {l : Label α} (h₀ : Ready empty size s₀) (h : Ready empty size s)
    (hwatch : Watching empty size t s₀ ms s)
    (hsteps : (system empty size).Steps (Undisturbed empty s₀ t) s₀ ms s)
    (hguard : Undisturbed empty s₀ t s l) (hnext : (system empty size).next s l = some s')
    (ht : l.actor = t) (hret : ∀ result, l ≠ .ret t result) :
    Watching empty size t s₀ (ms ++ [l]) s' := by
  subst ht
  cases l with
  | call t op =>
      unfold Watching at hwatch
      simp only [Label.actor, (next_call hnext).1] at hwatch
  | step t =>
      cases hpc : s.threads t with
      | len pc =>
          cases t with
          | producer => exact hwatch.producer h₀ h hsteps hguard hnext hpc
          | consumer => exact hwatch.consumer h₀ h hsteps hguard hnext hpc
      | idle | done => simp [system, RingBuffer.next, hpc, localStep] at hnext
      | _ =>
          unfold Watching at hwatch
          simp only [Label.actor, hpc] at hwatch
  | ret t result => exact absurd rfl (hret result)

/-- A step of the other side, which can only add instants to the interval of
the call. -/
theorem Watching.other {l : Label α} (h : Ready empty size s)
    (hwatch : Watching empty size t s₀ ms s) (hguard : Undisturbed empty s₀ t s l)
    (hnext : (system empty size).next s l = some s') (ht : t ≠ l.actor) :
    Watching empty size t s₀ (ms ++ [l]) s' := by
  have hthread := threads_of_ne hnext ht
  have hindex := h.inv.index_next hnext
  have hsize : s'.ring.size = s.ring.size := by
    rw [(h.next hguard.1 hnext).inv.size_eq, h.inv.size_eq]
  cases t with
  | producer =>
      have hactor : l.actor = .consumer := by
        cases hl : l.actor with
        | producer => exact absurd hl.symm ht
        | consumer => rfl
      unfold Watching at hwatch ⊢
      rw [hthread, hindex.1 hactor]
      cases hpc : s.threads .producer with
      | len pc =>
          rw [hpc] at hwatch
          cases pc <;> exact hwatch
      | done r =>
          rw [hpc] at hwatch
          cases r with
          | len v => exact hwatch.snoc hguard hnext fun _ hu => hu
          | _ => exact hwatch
      | _ =>
          rw [hpc] at hwatch
          exact hwatch.elim
  | consumer =>
      have hactor : l.actor = .producer := by
        cases hl : l.actor with
        | producer => rfl
        | consumer => exact absurd hl.symm ht
      unfold Watching at hwatch ⊢
      rw [hthread, hindex.2 hactor]
      cases hpc : s.threads .consumer with
      | len pc =>
          rw [hpc] at hwatch
          cases pc with
          | loadWrite => trivial
          | loadRead w =>
              intro hne
              have hhad := hwatch hne
              unfold Ring.between at hhad ⊢
              rw [hsize]
              exact hhad.snoc hguard hnext fun _ hu => hu
          | loadSlot w => exact hwatch
      | done r =>
          rw [hpc] at hwatch
          cases r with
          | len v => exact hwatch.snoc hguard hnext fun _ hu => hu
          | _ => exact hwatch
      | _ =>
          rw [hpc] at hwatch
          exact hwatch.elim

end Watching

section Main

variable {α : Type*} [DecidableEq α] {empty : α} {size : Nat} {s s' s₀ : State α} {t : Role}
  {ls ms : List (Label α)}

/-- A length that `len` returns undisturbed is one the buffer had during the
call. The comparison of the indices is off by at most one, by the element that
the other side has just stored or removed; that it did so during the call
makes both numbers lengths of the interval. -/
theorem len_linearizable {v : Nat} (hrun : (system empty size).Run (Disciplined empty) ls s)
    (hcall : (system empty size).next s (.call t .len) = some s₀)
    (hsteps : (system empty size).Steps (Undisturbed empty s₀ t) s₀ ms s')
    (hret : ∀ result, .ret t result ∉ ms) (hdone : s'.threads t = .done (.len v)) :
    (system empty size).Through (Undisturbed empty s₀ t) (fun u => u.ring.occupied empty = v)
      s₀ ms s' := by
  have h : Ready empty size s := by
    refine hrun.invariant (fun s hs => ?_) fun _ _ _ h hguard hnext => h.next hguard hnext
    refine ⟨hs.inv_stored.1, ?_⟩
    obtain ⟨⟨hsize, hring⟩, -⟩ := hs
    rw [hring]
    exact ⟨(Ring.new empty size hsize).size_pos, (Ring.new empty size hsize).size_pos⟩
  have h₀ : Ready empty size s₀ := h.next (l := .call t .len) (by cases t <;> trivial) hcall
  have hstart : s₀.threads t = .len .loadWrite := by
    obtain ⟨_, rfl⟩ := next_call hcall
    exact update_self _ _ _
  have hwatching : Ready empty size s' ∧ Watching empty size t s₀ ms s' := by
    clear hdone
    induction hsteps with
    | refl =>
        refine ⟨h₀, ?_⟩
        unfold Watching
        rw [hstart]
        cases t <;> trivial
    | @snoc ms u u' l hsteps hguard hnext ih =>
        obtain ⟨hu, hwatch⟩ := ih fun result hmem => hret result (List.mem_append_left _ hmem)
        refine ⟨hu.next hguard.1 hnext, ?_⟩
        by_cases ht : t = l.actor
        · refine hwatch.own h₀ hu hsteps hguard hnext ht.symm fun result heq => ?_
          exact hret result (List.mem_append_right _ (by simp [heq]))
        · exact hwatch.other hu hguard hnext ht
  have hwatch := hwatching.2
  unfold Watching at hwatch
  rw [hdone] at hwatch
  cases t <;> exact hwatch

instance (s₀ s : State α) (t : Role) (pc : LenPc) :
    Decidable (UndisturbedLoad empty s₀ s t pc) :=
  match t, pc with
  | .producer, .loadRead _ => inferInstanceAs (Decidable (_ → _ → _))
  | .producer, .loadSlot _ => inferInstanceAs (Decidable (_ → _))
  | .consumer, .loadWrite => inferInstanceAs (Decidable (_ → _ → _))
  | .consumer, .loadSlot _ => inferInstanceAs (Decidable (_ → _))
  | .producer, .loadWrite => .isTrue trivial
  | .consumer, .loadRead _ => .isTrue trivial

instance (s₀ : State α) (t : Role) (s : State α) (l : Label α) :
    Decidable (Undisturbed empty s₀ t s l) := by
  unfold Undisturbed
  refine @instDecidableAnd _ _ inferInstance ?_
  split <;> infer_instance

/-- The producer puts one element into a buffer of two slots. -/
def filling : List (Label Nat) :=
  .call .producer (.push 5) :: List.replicate 6 (.step .producer) ++ [.ret .producer (.pushed true)]

def filled : State Nat :=
  ((system 0 2).exec (Disciplined 0) twoSlots filling).get (by decide +kernel)

/-- It asks for the length, and the consumer clears the slot before it loads
the read index. -/
def asked : State Nat :=
  ((system 0 2).next filled (.call .producer .len)).get (by decide +kernel)

def clearing : List (Label Nat) :=
  .step .producer :: .call .consumer .pop :: List.replicate 4 (.step .consumer) ++
    [.step .producer]

def cleared : State Nat :=
  ((system 0 2).exec (Undisturbed 0 asked .producer) asked clearing).get (by decide +kernel)

theorem len_linearizable_clearing : cleared.ring.occupied 0 = 0 ∧
    (system 0 2).Through (Undisturbed 0 asked .producer) (fun u => u.ring.occupied 0 = 1)
      asked clearing cleared := by
  have hinit : Initial 0 2 twoSlots := ⟨⟨Ring.two_eq_pow, rfl⟩, fun _ => rfl⟩
  have hrun : (system 0 2).Run (Disciplined 0) filling filled :=
    run_of_exec hinit _
  have hcall : (system 0 2).next filled (.call .producer .len) = some asked :=
    (Option.some_get _).symm
  have hsteps : (system 0 2).Steps (Undisturbed 0 asked .producer) asked clearing cleared :=
    steps_of_exec (Option.some_get _).symm
  refine ⟨by decide +kernel, len_linearizable hrun hcall hsteps (fun result => ?_) (by decide +kernel)⟩
  simp [clearing]

/-- The producer has stored an element in an empty buffer of two slots and not
yet updated its index. -/
def storing : List (Label Nat) :=
  .call .producer (.push 5) :: List.replicate 4 (.step .producer)

def stored : State Nat :=
  ((system 0 2).exec (Disciplined 0) twoSlots storing).get (by decide +kernel)

def counting : State Nat :=
  ((system 0 2).next stored (.call .consumer .len)).get (by decide +kernel)

def counted : State Nat :=
  ((system 0 2).exec (Disciplined 0) counting (List.replicate 3 (.step .consumer))).get
    (by decide +kernel)

/-- The consumer's `len` returns 2 while the buffer holds one element all the
time: the indices agree and the slot they share is the one just filled. -/
theorem len_counts_free_slot : ¬ ∀ (ls ms : List (Label Nat)) (s s₀ s' : State Nat) (t : Role)
    (v : Nat), (system 0 2).Run (Disciplined 0) ls s →
      (system 0 2).next s (.call t .len) = some s₀ →
        (system 0 2).Steps (Disciplined 0) s₀ ms s' → (∀ result, .ret t result ∉ ms) →
          s'.threads t = .done (.len v) →
            (system 0 2).Through (Disciplined 0) (fun u => u.ring.occupied 0 = v) s₀ ms s' := by
  intro hall
  have hinit : Initial 0 2 twoSlots := ⟨⟨Ring.two_eq_pow, rfl⟩, fun _ => rfl⟩
  have hrun : (system 0 2).Run (Disciplined 0) storing stored :=
    run_of_exec hinit _
  have hcall : (system 0 2).next stored (.call .consumer .len) = some counting :=
    (Option.some_get _).symm
  have hsteps : (system 0 2).Steps (Disciplined 0) counting
      (List.replicate 3 (.step .consumer)) counted := steps_of_exec (Option.some_get _).symm
  have hone : ∀ pre ∈ (List.replicate 3 (.step .consumer : Label Nat)).inits,
      ((system 0 2).exec (Disciplined 0) counting pre).map (fun u => u.ring.occupied 0) =
        some 1 := by decide +kernel
  obtain ⟨pre, post, u, heq, hpre, htwo, -⟩ :=
    hall _ _ _ _ _ .consumer 2 hrun hcall hsteps (by simp) (by decide +kernel)
  have hexec := hone pre ((List.mem_inits _ _).mpr (heq ▸ List.prefix_append pre post))
  rw [hpre.exec_eq, Option.map_some, htwo] at hexec
  cases hexec

end Main

end Libni.RingBuffer
