import Libni.Scopes.Stack

/-!
When the functions of guards run. The number of uncaught exceptions is the number
of scopes that are being left by one, and a guard remembers how many of these are
around its scope. So the number has grown by the end of the scope if and only if
the scope itself is left by an exception.
-/

namespace Libni.Scopes

open Function Libni.Transition Libni.Transition.System

/-- The way of leaving a scope that a condition names. -/
def ScopeExit.names : ScopeExit → Exit → Bool
  | .all, _ => true
  | .noException, exit => decide (exit = .normal)
  | .uncaughtException, exit => decide (exit = .exception)

/-- What is known of a guard with `n` scopes around its own that are being
left by an exception: its condition, whether it is active, and that it
remembers `n` unless it fires in any case. -/
def Object.Sound (guards : List ScopeExit) (deactivated : Nat → Bool) (n : Nat) : Object → Prop
  | .guard g moved => guards[g.fn]? = some g.exitCondition ∧
      g.active = (!moved && !deactivated g.fn) ∧
      (g.exitCondition ≠ .all → g.uncaughtExceptions = n)
  | .other => True

/-- How often the function of a guard has to have run: once, if the guard has
been destroyed at the end of a scope that was left the way it names. -/
def Thread.due (s : Thread) (fn : Nat) : Nat :=
  match s.ended fn, s.guards[fn]? with
  | some exit, some condition =>
      if s.deactivated fn = false ∧ condition.names exit = true then 1 else 0
  | _, _ => 0

/-- The scopes of a thread and its guards. A guard lives in exactly one object
from its construction until the end of that object's scope. -/
structure Stacked (s : Thread) : Prop where
  uncaught : s.uncaught = unwinding s.scopes
  nested : Nested s.scopes
  sound : EachObject (Object.Sound s.guards s.deactivated) s.scopes
  held : ∀ fn, holders s.scopes fn = if fn < s.guards.length ∧ s.ended fn = none then 1 else 0
  fresh : ∀ fn, s.guards.length ≤ fn → s.deactivated fn = false ∧ s.ended fn = none

/-- The stack is in order, and every function has run as often as it is due.
Due is counted from the scopes that were left, and in which way. -/
structure Inv (s : Thread) : Prop where
  stacked : Stacked s
  ran : ∀ fn, s.ran.count fn = s.due fn

variable {s s' : Thread} {depth index : Nat}

theorem Stacked.holders_le_one (h : Stacked s) (fn : Nat) : holders s.scopes fn ≤ 1 := by
  rw [h.held]
  split <;> omega

theorem Stacked.uncaught_eq (h : Stacked s) (change : List Object → List Object) :
    s.uncaught = unwinding (changeObjects s.scopes depth change) :=
  h.uncaught.trans (unwinding_changeObjects s.scopes depth 0 change).symm

/-- At the end of its scope, a guard finds one more uncaught exception than
there are around the scope if it is left by one. Comparing with the remembered
number therefore tells how this scope is left, whatever is unwinding around
it. -/
theorem Object.Sound.fires_eq {guards : List ScopeExit} {deactivated : Nat → Bool} {n : Nat}
    {g : ScopeGuard} {moved : Bool} (h : Object.Sound guards deactivated n (.guard g moved))
    (exit : Exit) :
    g.fires (n + if Status.leaving exit = .leaving .exception then 1 else 0) =
      (!moved && !deactivated g.fn && g.exitCondition.names exit) := by
  obtain ⟨_, hactive, huncaught⟩ := h
  rw [ScopeGuard.fires, hactive]
  cases (!moved && !deactivated g.fn) with
  | false => rfl
  | true =>
      cases hcondition : g.exitCondition with
      | all => rfl
      | noException =>
          rw [huncaught (by rw [hcondition]; rintro ⟨⟩)]
          cases exit <;> simp [ScopeExit.names]
      | uncaughtException =>
          rw [huncaught (by rw [hcondition]; rintro ⟨⟩)]
          cases exit <;> simp [ScopeExit.names]

theorem Object.Sound.append {guards : List ScopeExit} {deactivated : Nat → Bool} {n : Nat}
    {object : Object} (h : Object.Sound guards deactivated n object) (condition : ScopeExit) :
    Object.Sound (guards ++ [condition]) deactivated n object := by
  cases object with
  | other => trivial
  | guard g moved =>
      obtain ⟨hget, hrest⟩ := h
      refine ⟨?_, hrest⟩
      rw [List.getElem?_append_left (List.getElem?_eq_some_iff.mp hget).1]
      exact hget

/-- Another guard is deactivated, or this object has been moved from. -/
theorem Object.Sound.update {guards : List ScopeExit} {deactivated : Nat → Bool} {n fn : Nat}
    {object : Object} (h : Object.Sound guards deactivated n object)
    (hholds : object.holds fn = false) :
    Object.Sound guards (update deactivated fn true) n object := by
  cases object with
  | other => trivial
  | guard g moved =>
      obtain ⟨hget, hactive, huncaught⟩ := h
      refine ⟨hget, ?_, huncaught⟩
      cases moved with
      | true => exact hactive
      | false =>
          have hne : g.fn ≠ fn := of_decide_eq_false hholds
          rw [update_of_ne hne]
          exact hactive

/-- What is left of a guard after a move is known to be inactive. -/
theorem EachObject.setMoved {guards : List ScopeExit} {deactivated : Nat → Bool}
    {scopes : List Scope} {g : ScopeGuard} {moved : Bool}
    (h : EachObject (Object.Sound guards deactivated) scopes)
    (hat : objectAt scopes depth index = some (.guard g moved)) (hone : holders scopes g.fn ≤ 1) :
    EachObject (Object.Sound guards deactivated)
      (Scopes.setObject scopes depth index (.guard g.deactivate true)) := by
  apply h.setObject hat hone
  · intro n hold
    exact ⟨hold.1, rfl, hold.2.2⟩
  · intro n object hobject _
    exact hobject

theorem Inv.scopes (h : Inv s) {scopes : List Scope} {uncaught : Nat}
    (huncaught : uncaught = unwinding scopes) (hnested : Nested scopes)
    (hsound : EachObject (Object.Sound s.guards s.deactivated) scopes)
    (hheld : ∀ fn, holders scopes fn = holders s.scopes fn) :
    Inv { s with scopes := scopes, uncaught := uncaught } := by
  refine ⟨⟨huncaught, hnested, hsound, fun fn => ?_, h.stacked.fresh⟩, h.ran⟩
  rw [hheld]
  exact h.stacked.held fn

theorem Stacked.enter (h : Stacked s) {kind : Kind}
    (hkind : kind ≠ .destructor → outerStatus s.scopes = .running) : Stacked (s.enter kind) := by
  refine ⟨?_, ⟨hkind, h.nested⟩, ⟨by simp, h.sound⟩, fun fn => ?_, h.fresh⟩
  · rw [Thread.enter, unwinding_cons]
    exact h.uncaught
  · rw [Thread.enter, holders_cons]
    simpa using h.held fn

theorem Inv.enter (h : Inv s) {kind : Kind}
    (hkind : kind ≠ .destructor → outerStatus s.scopes = .running) : Inv (s.enter kind) :=
  ⟨h.stacked.enter hkind, h.ran⟩

theorem Stacked.run (h : Stacked s) (g : ScopeGuard) : Stacked (s.run g) := by
  unfold Thread.run
  split
  · have hran : Stacked { s with ran := g.fn :: s.ran } :=
      ⟨h.uncaught, h.nested, h.sound, h.held, h.fresh⟩
    exact hran.enter fun hne => absurd rfl hne
  · exact h

theorem count_run (g : ScopeGuard) (fn : Nat) : (s.run g).ran.count fn =
    s.ran.count fn + if g.fires s.uncaught = true ∧ g.fn = fn then 1 else 0 := by
  unfold Thread.run
  split
  · next hfires =>
      simp only [Thread.enter, List.count_cons, hfires, true_and, beq_iff_eq]
  · next hfires => simp [hfires]

theorem due_run (g : ScopeGuard) (fn : Nat) : (s.run g).due fn = s.due fn := by
  unfold Thread.run
  split <;> rfl

theorem Inv.construct (h : Inv s) (hrunning : runningTo s.scopes 0 = true) :
    Inv { s with scopes := addObject s.scopes 0 .other } := by
  apply h.scopes (h.stacked.uncaught_eq _) (h.stacked.nested.changeObjects _)
  · exact h.stacked.sound.addObject trivial
  · intro fn
    exact holders_addObject (unwinding_of_runningTo hrunning (Nat.le_refl 0)).1

/-- A guard is made where no scope in between is being left, so it remembers
the number of those around its own scope. -/
theorem Inv.make (h : Inv s) (hrunning : runningTo s.scopes 0 = true) (condition : ScopeExit) :
    Inv { s with
      scopes := addObject s.scopes 0
        (.guard (ScopeGuard.new condition s.guards.length s.uncaught) false)
      guards := s.guards ++ [condition] } := by
  have hstacked := h.stacked
  obtain ⟨⟨huncaught, hnested, hsound, hheld, hfresh⟩, hran⟩ := h
  obtain ⟨hlt, houter⟩ := unwinding_of_runningTo hrunning (Nat.le_refl 0)
  refine ⟨⟨hstacked.uncaught_eq _, hnested.changeObjects _, ?_, fun fn => ?_, fun fn hfn => ?_⟩,
    fun fn => ?_⟩
  · apply (hsound.imp fun n object hobject => hobject.append condition).addObject
    refine ⟨List.getElem?_concat_length, ?_, fun hne => ?_⟩
    · change true = (!false && !s.deactivated s.guards.length)
      rw [(hfresh _ (Nat.le_refl _)).1]
      rfl
    · rw [houter, ← huncaught]
      exact if_neg hne
  · rw [holders_addObject hlt, hheld fn, List.length_append, List.length_singleton]
    have hnew : (Object.guard (ScopeGuard.new condition s.guards.length s.uncaught) false).holds fn =
        decide (s.guards.length = fn) := rfl
    simp only [hnew, decide_eq_true_eq]
    by_cases hfn : s.guards.length = fn
    · rw [if_pos hfn, if_neg (by omega), if_pos ⟨by omega, (hfresh fn (Nat.le_of_eq hfn)).2⟩]
    · rw [if_neg hfn, Nat.add_zero]
      congr 1
      simp only [eq_iff_iff, and_congr_left_iff]
      omega
  · rw [List.length_append] at hfn
    exact hfresh fn (Nat.le_of_add_right_le hfn)
  · refine (hran fn).trans ?_
    unfold Thread.due
    cases hended : s.ended fn with
    | none => simp
    | some exit =>
        have hlt : fn < s.guards.length := by
          by_contra hge
          rw [(hfresh fn (Nat.le_of_not_lt hge)).2] at hended
          cases hended
        simp only [List.getElem?_append_left hlt]

/-- The guard moves between scopes with the same scopes around them that are
being left. -/
theorem Inv.move (h : Inv s) {target : Nat} {g : ScopeGuard} {moved : Bool}
    (hrunning : runningTo s.scopes (max depth target) = true)
    (hat : objectAt s.scopes depth index = some (.guard g moved)) :
    Inv { s with
      scopes := addObject (setObject s.scopes depth index (.guard g.move.2 true)) target
        (.guard g.move.1 moved) } := by
  have hsource := unwinding_of_runningTo hrunning (Nat.le_max_left depth target)
  have htarget := unwinding_of_runningTo hrunning (Nat.le_max_right depth target)
  have hunwinding (n : Nat) : unwinding ((setObject s.scopes depth index
      (.guard g.deactivate true)).drop n) = unwinding (s.scopes.drop n) :=
    unwinding_changeObjects _ _ _ _
  refine h.scopes ?_ ((h.stacked.nested.changeObjects _).changeObjects _) ?_ fun fn => ?_
  · rw [h.stacked.uncaught]
    exact ((unwinding_changeObjects _ target 0 _).trans (hunwinding 0)).symm
  · apply (h.stacked.sound.setMoved hat (h.stacked.holders_le_one g.fn)).addObject
    have hold := h.stacked.sound.get hat
    rw [hunwinding, htarget.2, ← hsource.2]
    exact hold
  · have hlength : target < (setObject s.scopes depth index (.guard g.move.2 true)).length := by
      rw [setObject, changeObjects, List.length_modify]
      exact htarget.1
    have hset := holders_setObject hat (.guard g.move.2 true) fn
    rw [holders_addObject hlength]
    simp only [Object.holds, Bool.false_eq_true, if_false, Nat.add_zero] at hset
    exact hset

theorem Stacked.ended_of_holds (h : Stacked s) {object : Object} {fn : Nat}
    (hat : objectAt s.scopes depth index = some object) (hholds : object.holds fn = true) :
    fn < s.guards.length ∧ s.ended fn = none := by
  have hpos := holders_pos hat hholds
  rw [h.held] at hpos
  by_contra hnone
  rw [if_neg hnone] at hpos
  cases hpos

/-- No other object of the stack is this guard, so none has to become
inactive. -/
theorem Inv.deactivate (h : Inv s) {g : ScopeGuard}
    (hat : objectAt s.scopes depth index = some (.guard g false)) :
    Inv { s with
      scopes := setObject s.scopes depth index (.guard g.deactivate false)
      deactivated := update s.deactivated g.fn true } := by
  have hholds : (Object.guard g false).holds g.fn = true := decide_eq_true rfl
  obtain ⟨hlt, hended⟩ := h.stacked.ended_of_holds hat hholds
  have huncaught : s.uncaught = unwinding (setObject s.scopes depth index
      (.guard g.deactivate false)) := h.stacked.uncaught_eq _
  have hnested : Nested (setObject s.scopes depth index (.guard g.deactivate false)) :=
    h.stacked.nested.changeObjects _
  have hsound : EachObject (Object.Sound s.guards (update s.deactivated g.fn true))
      (setObject s.scopes depth index (.guard g.deactivate false)) := by
    apply h.stacked.sound.setObject hat (h.stacked.holders_le_one g.fn)
    · intro n hold
      refine ⟨hold.1, ?_, hold.2.2⟩
      change false = (!false && !update s.deactivated g.fn true g.fn)
      rw [update_self]
      rfl
    · intro n object hobject hother
      exact hobject.update (hother hholds)
  refine ⟨⟨huncaught, hnested, hsound, fun fn => ?_, fun fn hfn => ?_⟩, fun fn => ?_⟩
  · have hset := holders_setObject hat (.guard g.deactivate false) fn
    have hsame : (Object.guard g.deactivate false).holds fn = (Object.guard g false).holds fn := rfl
    rw [hsame] at hset
    exact (Nat.add_right_cancel hset).trans (h.stacked.held fn)
  · obtain ⟨hdeactivated, hnone⟩ := h.stacked.fresh fn hfn
    have hne : fn ≠ g.fn := by
      rintro rfl
      exact absurd hlt (Nat.not_lt_of_le hfn)
    exact ⟨(update_of_ne hne _ _).trans hdeactivated, hnone⟩
  · refine (h.ran fn).trans ?_
    unfold Thread.due
    by_cases hfn : fn = g.fn
    · subst hfn
      simp only [hended]
    · simp only [update_of_ne hfn]

theorem Inv.deactivate_moved (h : Inv s) {g : ScopeGuard}
    (hat : objectAt s.scopes depth index = some (.guard g true)) :
    Inv { s with scopes := setObject s.scopes depth index (.guard g.deactivate true) } := by
  apply h.scopes (h.stacked.uncaught_eq _) (h.stacked.nested.changeObjects _)
  · exact h.stacked.sound.setMoved hat (h.stacked.holders_le_one g.fn)
  · exact holders_setObject hat (.guard g.deactivate true)

/-- The destructor of an object that was moved from does nothing. The function
went to the object it was moved to. -/
theorem run_of_moved {g : ScopeGuard} {n : Nat}
    (hsound : Object.Sound s.guards s.deactivated n (.guard g true)) : s'.run g = s' := by
  have hactive : g.active = false := hsound.2.1
  rw [Thread.run, ScopeGuard.fires, hactive]
  rfl

theorem Inv.expire (h : Inv s) {kind : Kind} {objects : List Object} {scopes : List Scope}
    (hscopes : s.scopes = ⟨kind, .running, objects⟩ :: scopes) {g : ScopeGuard}
    (hget : objects[index]? = some (.guard g true)) :
    Inv ({ s with scopes := ⟨kind, .running, objects.eraseIdx index⟩ :: scopes }.run g) := by
  have hnested := h.stacked.nested
  have hsound := h.stacked.sound
  rw [hscopes] at hnested hsound
  rw [run_of_moved (hsound.1 _ (List.mem_of_getElem? hget))]
  refine h.scopes ?_ hnested ⟨fun object hmem => ?_, hsound.2⟩ fun fn => ?_
  · rw [h.stacked.uncaught, hscopes, unwinding_cons, unwinding_cons]
  · exact hsound.1 object (List.mem_of_mem_eraseIdx hmem)
  · obtain ⟨hlt, hget⟩ := List.getElem?_eq_some_iff.mp hget
    have herase := (List.getElem_cons_eraseIdx_perm hlt).countP_eq (Object.holds fn)
    rw [hget, List.countP_cons] at herase
    rw [hscopes, holders_cons, holders_cons]
    simp only [Object.holds, Bool.false_eq_true, if_false, Nat.add_zero] at herase
    rw [← herase]

/-- The innermost scope begins to be left, which raises the number of uncaught
exceptions if it is by one. -/
theorem Inv.leaving (h : Inv s) {kind : Kind} {objects : List Object} {scopes : List Scope}
    (hscopes : s.scopes = ⟨kind, .running, objects⟩ :: scopes) (exit : Exit) :
    Inv { s with
      scopes := ⟨kind, .leaving exit, objects⟩ :: scopes
      uncaught := s.uncaught + if exit = .exception then 1 else 0 } := by
  have hnested := h.stacked.nested
  have hsound := h.stacked.sound
  rw [hscopes] at hnested hsound
  refine h.scopes ?_ hnested hsound fun fn => ?_
  · rw [h.stacked.uncaught, hscopes, unwinding_cons, unwinding_cons]
    simp
  · rw [hscopes, holders_cons, holders_cons]

/-- The end of the scope of a guard, where its function becomes due and is
called, or neither. -/
theorem Inv.destroyGuard (h : Inv s) {kind : Kind} {exit : Exit} {g : ScopeGuard} {moved : Bool}
    {objects : List Object} {scopes : List Scope}
    (hscopes : s.scopes = ⟨kind, .leaving exit, .guard g moved :: objects⟩ :: scopes) :
    Inv ({ s with
      scopes := ⟨kind, .leaving exit, objects⟩ :: scopes
      ended := if moved then s.ended else update s.ended g.fn (some exit) }.run g) := by
  have hnested := h.stacked.nested
  have hsound := h.stacked.sound
  have huncaught := h.stacked.uncaught
  rw [hscopes] at hnested hsound huncaught
  rw [unwinding_cons] at huncaught
  have hguard := hsound.1 _ (.head _)
  have hpopped : EachObject (Object.Sound s.guards s.deactivated)
      (⟨kind, .leaving exit, objects⟩ :: scopes) :=
    ⟨fun object hmem => hsound.1 object (List.mem_cons_of_mem _ hmem), hsound.2⟩
  have hholders (fn : Nat) : holders s.scopes fn =
      holders (⟨kind, .leaving exit, objects⟩ :: scopes) fn +
        if (Object.guard g moved).holds fn then 1 else 0 := by
    rw [hscopes, holders_cons, holders_cons, List.countP_cons]
    exact Nat.add_right_comm _ _ _
  cases moved with
  | true =>
      rw [run_of_moved hguard]
      refine h.scopes ?_ hnested hpopped fun fn => ?_
      · rw [huncaught, unwinding_cons]
      · exact (hholders fn).symm
  | false =>
      have hat : objectAt s.scopes 0 0 = some (.guard g false) := by
        rw [hscopes]
        rfl
      obtain ⟨hlt, hended⟩ := h.stacked.ended_of_holds hat (decide_eq_true rfl)
      have hfires := hguard.fires_eq exit
      rw [← huncaught] at hfires
      refine ⟨Stacked.run ⟨?_, hnested, hpopped, fun fn => ?_, fun fn hfn => ?_⟩ g, fun fn => ?_⟩
      · rw [huncaught, unwinding_cons]
      · have hheld := h.stacked.held fn
        rw [hholders fn] at hheld
        simp only [Object.holds, decide_eq_true_eq] at hheld
        change _ = if fn < s.guards.length ∧ update s.ended g.fn (some exit) fn = none then 1 else 0
        by_cases hfn : fn = g.fn
        · subst hfn
          rw [if_pos rfl, if_pos ⟨hlt, hended⟩] at hheld
          rw [update_self]
          exact (Nat.add_right_cancel hheld).trans (if_neg (by rintro ⟨_, ⟨⟩⟩)).symm
        · rw [if_neg (Ne.symm hfn)] at hheld
          rw [update_of_ne hfn]
          exact hheld
      · obtain ⟨hdeactivated, hnone⟩ := h.stacked.fresh fn hfn
        have hne : fn ≠ g.fn := by
          rintro rfl
          exact absurd hlt (Nat.not_lt_of_le hfn)
        exact ⟨hdeactivated, (update_of_ne hne _ _).trans hnone⟩
      · rw [count_run, due_run]
        have hran := h.ran fn
        unfold Thread.due at hran ⊢
        by_cases hfn : fn = g.fn
        · subst hfn
          simp only [hended] at hran
          simp only [Bool.false_eq_true, if_false, update_self, hguard.1, hran, hfires]
          simp
        · simp only [Bool.false_eq_true, if_false, update_of_ne hfn, hran, Ne.symm hfn, and_false,
            Nat.add_zero]

theorem Inv.destroy (h : Inv s) (hnext : s.destroy = some s') : Inv s' := by
  unfold Thread.destroy at hnext
  split at hnext
  · next kind exit objects scopes hscopes =>
      cases hnext
      have hnested := h.stacked.nested
      have hsound := h.stacked.sound
      rw [hscopes] at hnested hsound
      have hrest : Inv { s with scopes := ⟨kind, .leaving exit, objects⟩ :: scopes } := by
        refine h.scopes ?_ hnested ⟨fun object hmem => ?_, hsound.2⟩ fun fn => ?_
        · rw [h.stacked.uncaught, hscopes, unwinding_cons, unwinding_cons]
        · exact hsound.1 object (List.mem_cons_of_mem _ hmem)
        · rw [hscopes, holders_cons, holders_cons, List.countP_cons]
          rfl
      exact hrest.enter fun hne => absurd rfl hne
  · next hscopes =>
      cases hnext
      exact h.destroyGuard hscopes
  · cases hnext

theorem Inv.finish (h : Inv s) {caught : Bool} (hnext : s.finish caught = some s') : Inv s' := by
  have hnested := h.stacked.nested
  have hsound := h.stacked.sound
  unfold Thread.finish at hnext
  split at hnext
  · next kind scopes hscopes =>
      cases hnext
      rw [hscopes] at hnested hsound
      refine h.scopes ?_ hnested.2 hsound.2 fun fn => ?_
      · rw [h.stacked.uncaught, hscopes, unwinding_cons]
        rfl
      · rw [hscopes, holders_cons]
        exact (Nat.zero_add _).symm
  · next kind parent scopes hscopes =>
      rw [hscopes] at hnested hsound
      have huncaught := h.stacked.uncaught
      rw [hscopes, unwinding_cons, if_pos rfl] at huncaught
      split at hnext
      · cases hnext
      · next hkind =>
          have hrunning : parent.status = .running := hnested.1 hkind
          split at hnext
          · cases hnext
            refine h.scopes ?_ hnested.2 hsound.2 fun fn => ?_
            · omega
            · simp only [hscopes, holders_cons, List.countP_nil, Nat.zero_add]
          · cases hnext
            refine h.scopes ?_ hnested.2 hsound.2 fun fn => ?_
            · rw [huncaught, unwinding_cons, unwinding_cons, hrunning]
              rfl
            · simp only [hscopes, holders_cons, List.countP_nil, Nat.zero_add]
  · cases hnext

theorem Inv.initial : Inv Thread.initial := by
  refine ⟨⟨rfl, ⟨fun _ => rfl, trivial⟩, ⟨by rintro _ ⟨⟩, trivial⟩, fun fn => ?_,
    fun _ _ => ⟨rfl, rfl⟩⟩, fun _ => rfl⟩
  exact (if_neg fun h => Nat.not_lt_zero fn h.1).symm

/-- Every label keeps the invariant. -/
theorem Inv.next (h : Inv s) {l : Label} (hnext : s.next l = some s') : Inv s' := by
  cases l with
  | enter kind =>
      simp only [Thread.next, Option.ite_none_right_eq_some, Option.some.injEq] at hnext
      obtain ⟨hrunning, rfl⟩ := hnext
      exact h.enter fun _ => outerStatus_of_runningTo hrunning
  | construct =>
      simp only [Thread.next, Option.ite_none_right_eq_some, Option.some.injEq] at hnext
      obtain ⟨hrunning, rfl⟩ := hnext
      exact h.construct hrunning
  | make condition =>
      simp only [Thread.next, Option.ite_none_right_eq_some, Option.some.injEq] at hnext
      obtain ⟨hrunning, rfl⟩ := hnext
      exact h.make hrunning condition
  | move depth index target =>
      simp only [Thread.next, Option.ite_none_right_eq_some] at hnext
      obtain ⟨hrunning, hnext⟩ := hnext
      split at hnext
      · next hat =>
          cases hnext
          exact h.move hrunning hat
      · cases hnext
  | deactivate depth index =>
      simp only [Thread.next, Option.ite_none_right_eq_some] at hnext
      obtain ⟨_, hnext⟩ := hnext
      split at hnext
      · next g moved hat =>
          cases hnext
          cases moved with
          | true => exact h.deactivate_moved hat
          | false => exact h.deactivate hat
      · cases hnext
  | expire index =>
      simp only [Thread.next] at hnext
      split at hnext
      · next hscopes =>
          split at hnext
          · next hget =>
              cases hnext
              exact h.expire hscopes hget
          · cases hnext
      · cases hnext
  | throw =>
      simp only [Thread.next] at hnext
      split at hnext
      · next hscopes =>
          cases hnext
          exact h.leaving hscopes .exception
      · cases hnext
  | leave =>
      simp only [Thread.next] at hnext
      split at hnext
      · next hscopes =>
          cases hnext
          exact h.leaving hscopes .normal
      · cases hnext
  | destroy => exact h.destroy hnext
  | finish caught => exact h.finish hnext

/-- Until the scope ends that a guard lives in, its function has not run;
afterwards it has run once if the guard was not deactivated and the scope was
left the way it names, and never otherwise. The scope is that of the object
the guard has been moved to last. -/
theorem runs_as_named {ls : List Label} (h : execution.Run Free ls s) {fn : Nat}
    {condition : ScopeExit} (hget : s.guards[fn]? = some condition) :
    (s.ended fn = none ∧ (∃ scope ∈ s.scopes, scope.Holds fn) ∧ s.ran.count fn = 0) ∨
      ∃ exit, s.ended fn = some exit ∧ (∀ scope ∈ s.scopes, ¬ scope.Holds fn) ∧
        s.ran.count fn =
          if s.deactivated fn = false ∧ condition.names exit = true then 1 else 0 := by
  have hinv : Inv s :=
    h.invariant (fun _ hs => hs ▸ .initial) fun _ _ _ hu _ hnext => hu.next hnext
  obtain ⟨hlt, _⟩ := List.getElem?_eq_some_iff.mp hget
  have hheld := hinv.stacked.held fn
  have hran := hinv.ran fn
  unfold Thread.due at hran
  cases hended : s.ended fn with
  | none =>
      refine .inl ⟨rfl, ?_, ?_⟩
      · rw [if_pos ⟨hlt, hended⟩] at hheld
        by_contra hnone
        have hzero := holders_eq_zero_iff.mpr fun scope hmem hholds => hnone ⟨scope, hmem, hholds⟩
        omega
      · simpa only [hended] using hran
  | some exit =>
      refine .inr ⟨exit, rfl, ?_, ?_⟩
      · rw [if_neg (by rintro ⟨_, hnone⟩; rw [hended] at hnone; cases hnone)] at hheld
        exact holders_eq_zero_iff.mp hheld
      · simpa only [hended, hget] using hran

/-- A `try` block with three guards, the second of which is made in a function
of its own, is left by an exception; the function of that guard has another
one. -/
def unwindingRun : List Label :=
  [.enter .tryBlock, .make .all,
    .enter .plain, .make .uncaughtException, .move 0 0 1, .leave, .destroy, .finish false,
    .make .noException, .throw, .destroy, .destroy,
    .enter .plain, .make .noException, .leave, .destroy, .leave, .finish false, .finish false,
    .leave, .finish false, .destroy, .leave, .finish false, .finish true]

def unwindingState : Thread :=
  (execution.exec Free Thread.initial unwindingRun).get (by decide +kernel)

theorem runs_as_named_unwindingRun :
    unwindingState.scopes = [⟨.plain, .running, []⟩] ∧ unwindingState.ran = [0, 3, 1] ∧
      ∃ exit, unwindingState.ended 1 = some exit ∧ unwindingState.ran.count 1 =
        if unwindingState.deactivated 1 = false ∧ ScopeExit.uncaughtException.names exit = true
          then 1 else 0 := by
  have hrun : execution.Run Free unwindingRun unwindingState := run_of_exec rfl _
  have hget : unwindingState.guards[1]? = some .uncaughtException := by decide +kernel
  have hended : unwindingState.ended 1 ≠ none := by decide +kernel
  refine ⟨by decide +kernel, by decide +kernel, ?_⟩
  rcases runs_as_named hrun hget with ⟨hnone, _⟩ | ⟨exit, hexit, _, hcount⟩
  · exact absurd hnone hended
  · exact ⟨exit, hexit, hcount⟩

end Libni.Scopes
