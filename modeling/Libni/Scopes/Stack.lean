import Mathlib.Data.List.Perm.Basic
import Libni.Scopes.Model

/-!
The stack of scopes: how many of them are being left by an exception, which objects
hold a guard, and what is known of every object from the scopes around its own. The
changes of the objects of one scope leave the scopes as they are.
-/

namespace Libni.Scopes

open Function Libni.Transition Libni.Transition.System

/-- The guard of this number lives in the object: it has not been moved
elsewhere. -/
def Object.holds (fn : Nat) : Object → Bool
  | .guard g false => decide (g.fn = fn)
  | _ => false

/-- How many scopes are being left by an exception. Several may be at once,
since a destructor that runs meanwhile may throw inside. -/
def unwinding (scopes : List Scope) : Nat :=
  scopes.countP fun scope => decide (scope.status = .leaving .exception)

/-- How many objects hold a guard. -/
def holders (scopes : List Scope) (fn : Nat) : Nat :=
  (scopes.flatMap Scope.objects).countP (Object.holds fn)

/-- Some object of the scope holds the guard. -/
def Scope.Holds (fn : Nat) (scope : Scope) : Prop :=
  ∃ object ∈ scope.objects, object.holds fn = true

/-- The status of the scope that control returns to. -/
def outerStatus : List Scope → Status
  | [] => .running
  | scope :: _ => scope.status

/-- Only destructors run in scopes that are being left. A scope of another
kind is entered from one that is running. -/
def Nested : List Scope → Prop
  | [] => True
  | scope :: scopes => (scope.kind ≠ .destructor → outerStatus scopes = .running) ∧ Nested scopes

/-- Every object satisfies `P` for the number of scopes around its own that
are being left by an exception. -/
def EachObject (P : Nat → Object → Prop) : List Scope → Prop
  | [] => True
  | scope :: scopes => (∀ object ∈ scope.objects, P (unwinding scopes) object) ∧ EachObject P scopes

section Stack

variable {scopes : List Scope} {scope : Scope} {depth index fn : Nat} {old new : Object}

@[simp] theorem unwinding_cons : unwinding (scope :: scopes) =
    unwinding scopes + if scope.status = .leaving .exception then 1 else 0 := by
  simp [unwinding, List.countP_cons]

@[simp] theorem holders_cons : holders (scope :: scopes) fn =
    scope.objects.countP (Object.holds fn) + holders scopes fn := by
  simp [holders]

@[simp] theorem changeObjects_nil (change : List Object → List Object) :
    changeObjects [] depth change = [] := by
  simp [changeObjects]

@[simp] theorem changeObjects_zero (change : List Object → List Object) :
    changeObjects (scope :: scopes) 0 change =
      { scope with objects := change scope.objects } :: scopes := rfl

@[simp] theorem changeObjects_succ (change : List Object → List Object) :
    changeObjects (scope :: scopes) (depth + 1) change =
      scope :: changeObjects scopes depth change := by
  simp [changeObjects]

/-- A change of objects leaves no scope, from whichever depth on the scopes
are counted. -/
theorem unwinding_changeObjects (scopes : List Scope) (depth n : Nat)
    (change : List Object → List Object) :
    unwinding ((changeObjects scopes depth change).drop n) = unwinding (scopes.drop n) := by
  induction depth generalizing scopes n with
  | zero => cases scopes <;> cases n <;> simp
  | succ depth ih =>
      cases scopes with
      | nil => simp
      | cons scope scopes =>
          cases n with
          | zero => simpa using ih scopes 0
          | succ n => simpa using ih scopes n

theorem outerStatus_changeObjects (change : List Object → List Object) :
    outerStatus (changeObjects scopes depth change) = outerStatus scopes := by
  cases scopes with
  | nil => simp
  | cons scope scopes => cases depth <;> simp [outerStatus]

theorem Nested.changeObjects (h : Nested scopes) (change : List Object → List Object) :
    Nested (changeObjects scopes depth change) := by
  induction depth generalizing scopes with
  | zero =>
      cases scopes with
      | nil => exact h
      | cons scope scopes => exact h
  | succ depth ih =>
      cases scopes with
      | nil => exact h
      | cons scope scopes =>
          obtain ⟨hkind, hrest⟩ := h
          rw [changeObjects_succ]
          exact ⟨fun hne => (outerStatus_changeObjects change).trans (hkind hne), ih hrest⟩

theorem objectAt_zero : objectAt (scope :: scopes) 0 index = scope.objects[index]? := rfl

theorem objectAt_succ :
    objectAt (scope :: scopes) (depth + 1) index = objectAt scopes depth index := by
  simp [objectAt]

theorem holders_setObject (hat : objectAt scopes depth index = some old) (new : Object) (fn : Nat) :
    holders (setObject scopes depth index new) fn + (if old.holds fn then 1 else 0) =
      holders scopes fn + if new.holds fn then 1 else 0 := by
  induction depth generalizing scopes with
  | zero =>
      cases scopes with
      | nil => cases hat
      | cons scope scopes =>
          rw [objectAt_zero] at hat
          obtain ⟨hlt, rfl⟩ := List.getElem?_eq_some_iff.mp hat
          have hset := (List.set_perm_cons_eraseIdx hlt new).countP_eq (Object.holds fn)
          have herase := (List.getElem_cons_eraseIdx_perm hlt).countP_eq (Object.holds fn)
          rw [List.countP_cons] at hset herase
          simp only [setObject, changeObjects_zero, holders_cons]
          omega
  | succ depth ih =>
      cases scopes with
      | nil => cases hat
      | cons scope scopes =>
          rw [objectAt_succ] at hat
          have hrest := ih hat
          simp only [setObject, changeObjects_succ, holders_cons] at hrest ⊢
          omega

theorem holders_addObject (hlt : depth < scopes.length) :
    holders (addObject scopes depth new) fn = holders scopes fn + if new.holds fn then 1 else 0 := by
  induction depth generalizing scopes with
  | zero =>
      cases scopes with
      | nil => cases hlt
      | cons scope scopes =>
          simp only [addObject, changeObjects_zero, holders_cons, List.countP_cons]
          omega
  | succ depth ih =>
      cases scopes with
      | nil => cases hlt
      | cons scope scopes =>
          have hrest := ih (Nat.lt_of_succ_lt_succ hlt)
          simp only [addObject, changeObjects_succ, holders_cons] at hrest ⊢
          omega

theorem holders_pos (hat : objectAt scopes depth index = some old) (hholds : old.holds fn = true) :
    0 < holders scopes fn := by
  have hset := holders_setObject hat .other fn
  rw [if_pos hholds] at hset
  simp only [Object.holds, Bool.false_eq_true, if_false] at hset
  omega

theorem outerStatus_of_runningTo {n : Nat} (h : runningTo scopes n = true) :
    outerStatus scopes = .running := by
  rw [runningTo, Bool.and_eq_true, decide_eq_true_eq, List.all_eq_true] at h
  cases scopes with
  | nil => rfl
  | cons scope scopes => exact of_decide_eq_true (h.2 scope (by simp))

/-- The scopes within which the running code lies are those around each of the
running scopes, so that a guard may be moved between these without its
remembered number becoming wrong. -/
theorem unwinding_of_runningTo {n : Nat} (h : runningTo scopes n = true) (hle : depth ≤ n) :
    depth < scopes.length ∧ unwinding (scopes.drop (depth + 1)) = unwinding scopes := by
  rw [runningTo, Bool.and_eq_true, decide_eq_true_eq, List.all_eq_true] at h
  obtain ⟨hlt, hrunning⟩ := h
  have htake : unwinding (scopes.take (depth + 1)) = 0 := by
    refine List.countP_eq_zero.mpr fun scope hmem => ?_
    have hstatus := hrunning scope ((List.take_sublist_take_left (by omega)).subset hmem)
    rw [of_decide_eq_true hstatus]
    simp
  have hsplit : unwinding scopes =
      unwinding (scopes.take (depth + 1)) + unwinding (scopes.drop (depth + 1)) := by
    rw [unwinding, unwinding, unwinding, ← List.countP_append, List.take_append_drop]
  omega

theorem holders_eq_zero_iff : holders scopes fn = 0 ↔ ∀ scope ∈ scopes, ¬ scope.Holds fn := by
  rw [holders, List.countP_eq_zero]
  constructor
  · rintro hnone scope hscope ⟨object, hobject, hholds⟩
    exact hnone object (List.mem_flatMap.mpr ⟨scope, hscope, hobject⟩) hholds
  · intro hnone object hmem hholds
    obtain ⟨scope, hscope, hobject⟩ := List.mem_flatMap.mp hmem
    exact hnone scope hscope ⟨object, hobject, hholds⟩

variable {P Q : Nat → Object → Prop}

/-- What is said of each object is said of the one at a given place. -/
theorem EachObject.get (h : EachObject P scopes) (hat : objectAt scopes depth index = some old) :
    P (unwinding (scopes.drop (depth + 1))) old := by
  induction depth generalizing scopes with
  | zero =>
      cases scopes with
      | nil => cases hat
      | cons scope scopes => exact h.1 old (List.mem_of_getElem? hat)
  | succ depth ih =>
      cases scopes with
      | nil => cases hat
      | cons scope scopes =>
          rw [objectAt_succ] at hat
          exact ih h.2 hat

theorem EachObject.addObject (h : EachObject P scopes)
    (hnew : P (unwinding (scopes.drop (depth + 1))) new) :
    EachObject P (addObject scopes depth new) := by
  induction depth generalizing scopes with
  | zero =>
      cases scopes with
      | nil => exact h
      | cons scope scopes => exact ⟨List.forall_mem_cons.mpr ⟨hnew, h.1⟩, h.2⟩
  | succ depth ih =>
      cases scopes with
      | nil => exact h
      | cons scope scopes =>
          rw [Scopes.addObject, changeObjects_succ]
          refine ⟨?_, ih h.2 hnew⟩
          rw [← List.drop_zero (l := changeObjects _ _ _), unwinding_changeObjects]
          exact h.1

theorem holds_eq_false {object : Object} {objects : List Object}
    (hcount : objects.countP (Object.holds fn) = 0) (hmem : object ∈ objects) :
    object.holds fn = false :=
  (Bool.not_eq_true _).mp (List.countP_eq_zero.mp hcount object hmem)

theorem EachObject.imp (h : EachObject P scopes) (himp : ∀ n object, P n object → Q n object) :
    EachObject Q scopes := by
  induction scopes with
  | nil => trivial
  | cons scope scopes ih => exact ⟨fun object hmem => himp _ _ (h.1 object hmem), ih h.2⟩

/-- The guard may be known to live elsewhere, which the objects that do not
hold it can use. -/
theorem EachObject.imp_holds (h : EachObject P scopes) {p : Prop} (hnone : p → holders scopes fn = 0)
    (himp : ∀ n object, P n object → (p → object.holds fn = false) → Q n object) :
    EachObject Q scopes := by
  induction scopes with
  | nil => trivial
  | cons scope scopes ih =>
      have hnone' (hp : p) : scope.objects.countP (Object.holds fn) = 0 ∧ holders scopes fn = 0 := by
        have hsum := hnone hp
        rw [holders_cons] at hsum
        omega
      refine ⟨fun object hmem => himp _ _ (h.1 object hmem) fun hp => ?_,
        ih h.2 fun hp => (hnone' hp).2⟩
      exact holds_eq_false (hnone' hp).1 hmem

/-- If the object that changes holds the guard, no other one does. -/
theorem EachObject.setObject (h : EachObject P scopes)
    (hat : objectAt scopes depth index = some old) (hone : holders scopes fn ≤ 1)
    (hnew : ∀ n, P n old → Q n new)
    (himp : ∀ n object, P n object → (old.holds fn = true → object.holds fn = false) →
      Q n object) : EachObject Q (setObject scopes depth index new) := by
  induction depth generalizing scopes with
  | zero =>
      cases scopes with
      | nil => cases hat
      | cons scope scopes =>
          rw [objectAt_zero] at hat
          obtain ⟨hlt, rfl⟩ := List.getElem?_eq_some_iff.mp hat
          have hset := List.set_perm_cons_eraseIdx hlt new
          have herase := (List.getElem_cons_eraseIdx_perm hlt).countP_eq (Object.holds fn)
          rw [List.countP_cons] at herase
          rw [holders_cons] at hone
          have hothers (hholds : scope.objects[index].holds fn = true) :
              (scope.objects.eraseIdx index).countP (Object.holds fn) = 0 ∧
                holders scopes fn = 0 := by
            rw [if_pos hholds] at herase
            omega
          refine ⟨fun object hmem => ?_, h.2.imp_holds (fun hholds => (hothers hholds).2) himp⟩
          rcases List.mem_cons.mp (hset.subset hmem) with rfl | hmem
          · exact hnew _ (h.1 _ (List.getElem_mem hlt))
          · exact himp _ _ (h.1 object (List.mem_of_mem_eraseIdx hmem))
              fun hholds => holds_eq_false (hothers hholds).1 hmem
  | succ depth ih =>
      cases scopes with
      | nil => cases hat
      | cons scope scopes =>
          rw [objectAt_succ] at hat
          rw [holders_cons] at hone
          have hrest := ih h.2 hat (by omega)
          rw [Scopes.setObject, changeObjects_succ]
          refine ⟨?_, hrest⟩
          rw [← List.drop_zero (l := changeObjects _ _ _), unwinding_changeObjects]
          intro object hmem
          refine himp _ _ (h.1 object hmem) fun hholds => ?_
          have hpos := holders_pos hat hholds
          exact holds_eq_false (by omega) hmem

end Stack

end Libni.Scopes
