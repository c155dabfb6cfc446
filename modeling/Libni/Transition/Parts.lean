import Libni.Transition.Linearizable

/-!
Linearizability of a part of a history. The operations that belong to the part are
told apart by what they were called with and what they have returned, so an
operation that has not returned yet may be counted in or left out. If one object is
spread over several, each part can be that of a simpler object, although the
operations of a thread are found in different parts.

The simulation rule works backwards, as for whole histories: going backwards it is
known at its call what an operation will have returned.
-/

namespace Libni.Transition

open Function

variable {τ Op Res A σ ℓ : Type*}

/-- How an operation in progress is read: left out, or counted in and not yet
or already performed. The reading is settled at the call, by what the
operation will have returned. -/
inductive Reading (Op Res : Type*) where
  | outside
  | left (op : Op)
  | pending (op : Op)
  | done (op : Op) (result : Res)

namespace Reading

/-- The operation in progress, and whether it is one of the part. Where it may
still turn out either way, the thread has two readings. -/
def choice : Reading Op Res → Option (Op × Bool)
  | .outside => none
  | .left op => some (op, false)
  | .pending op | .done op _ => some (op, true)

/-- What the object of the part knows of the thread. -/
def status : Reading Op Res → Status Op Res
  | .outside | .left _ => .idle
  | .pending op => .pending op
  | .done _ r => .done r

end Reading

/-- `Selected mine hist chosen part`: of the operations that have returned in
`hist`, `part` shows those that `mine` is true of, and of those in progress
the ones `chosen` counts in. An operation in progress may be counted in
although it never returns. -/
inductive Selected [DecidableEq τ] (mine : Op → Res → Prop) :
    List (Event τ Op Res) → (τ → Option (Op × Bool)) → List (Event τ Op Res) → Prop
  | nil : Selected mine [] (fun _ => none) []
  | call {hist part : List (Event τ Op Res)} {chosen : τ → Option (Op × Bool)} {t : τ}
      (h : Selected mine hist chosen part) (ht : chosen t = none) (op : Op) (keep : Bool) :
      Selected mine (hist ++ [.call t op]) (update chosen t (some (op, keep)))
        (if keep then part ++ [.call t op] else part)
  | ret {hist part : List (Event τ Op Res)} {chosen : τ → Option (Op × Bool)} {t : τ} {op : Op}
      {keep : Bool} {r : Res} (h : Selected mine hist chosen part)
      (ht : chosen t = some (op, keep)) (hkeep : keep = true ↔ mine op r) :
      Selected mine (hist ++ [.ret t r]) (update chosen t none)
        (if keep then part ++ [.ret t r] else part)

/-- The part of the history that `mine` is true of is a history of the object,
which ends with the value `a`. -/
def PartLinearizesTo [DecidableEq τ] (obj : Object A Op Res) (mine : Op → Res → Prop)
    (hist : List (Event τ Op Res)) (a : A) : Prop :=
  ∃ chosen part, Selected mine hist chosen part ∧ LinearizesTo obj part a

/-- What one program step may amount to for the part: nothing, a move of the
atomic object by an operation that is counted in, or the call or return of one
that is not. -/
inductive PartSimulates (obj : Object A Op Res) (mine : Op → Res → Prop) (t : τ) :
    A → Reading Op Res → Option (Event τ Op Res) → A → Reading Op Res → Prop
  | stay (a : A) (x : Reading Op Res) : PartSimulates obj mine t a x none a x
  | perform {a a' : A} {op : Op} {r : Res} (h : obj.apply a op r a') :
      PartSimulates obj mine t a (.pending op) none a' (.done op r)
  | leave (a : A) (op : Op) : PartSimulates obj mine t a .outside (some (.call t op)) a (.left op)
  | call (a : A) (op : Op) :
      PartSimulates obj mine t a .outside (some (.call t op)) a (.pending op)
  | pass {op : Op} {r : Res} (a : A) (h : ¬ mine op r) :
      PartSimulates obj mine t a (.left op) (some (.ret t r)) a .outside
  | ret {op : Op} {r : Res} (a : A) (h : mine op r) :
      PartSimulates obj mine t a (.done op r) (some (.ret t r)) a .outside

/-- A program of which a part is looked at. The event may depend on the state,
from which an operation's arguments and its result are read. -/
structure PartClient (sys : System σ ℓ) (τ A Op Res : Type*) where
  actor : ℓ → τ
  event : σ → ℓ → Option (Event τ Op Res)
  value : σ → A
  Open : σ → τ → Reading Op Res → Prop

/-- The program with its history. -/
def PartClient.recorded {sys : System σ ℓ} (c : PartClient sys τ A Op Res) :
    System (σ × List (Event τ Op Res)) ℓ :=
  sys.observed [] fun hist s l _ => hist ++ (c.event s l).toList

/-- A backward simulation of the part under an invariant. It differs from that
of whole histories in that readings include being left out. -/
structure PartClient.Refines {sys : System σ ℓ} (c : PartClient sys τ A Op Res)
    (guard : σ → ℓ → Prop) (I : σ → Prop) (obj : Object A Op Res) (mine : Op → Res → Prop) :
    Prop where
  inv_init : ∀ s, sys.init s → I s
  inv_step : ∀ s l s', I s → guard s l → sys.next s l = some s' → I s'
  value_init : ∀ s, sys.init s → obj.init (c.value s)
  outside_init : ∀ s t x, sys.init s → c.Open s t x → x = .outside
  some_open : ∀ s t, I s → ∃ x, c.Open s t x
  frame : ∀ s l s' t x, I s → guard s l → sys.next s l = some s' → t ≠ c.actor l →
    c.Open s' t x → c.Open s t x
  back : ∀ s l s' x', I s → guard s l → sys.next s l = some s' → c.Open s' (c.actor l) x' →
    ∃ x, c.Open s (c.actor l) x ∧
      PartSimulates obj mine (c.actor l) (c.value s) x (c.event s l) (c.value s') x'

section Rule

variable [DecidableEq τ] {sys : System σ ℓ} {c : PartClient sys τ A Op Res}
  {guard : σ → ℓ → Prop} {I : σ → Prop} {obj : Object A Op Res} {mine : Op → Res → Prop}

omit [DecidableEq τ] in
theorem update_view [DecidableEq τ] {β : Type*} (view : Reading Op Res → β)
    {readings : τ → Reading Op Res} {t : τ} {x : Reading Op Res}
    (h : view x = view (readings t)) : update (view ∘ readings) t (view x) = view ∘ readings := by
  rw [h, ← comp_apply (f := view), update_eq_self]

/-- One step of the part, given what came before: the selection and the run of
the object are extended by the same event, or neither is. -/
theorem PartSimulates.extend {hist part : List (Event τ Op Res)}
    {lin : List (Performed τ Op Res)} {a a' : A} {readings : τ → Reading Op Res} {t : τ}
    {ev : Option (Event τ Op Res)} {x' : Reading Op Res}
    (h : PartSimulates obj mine t a (readings t) ev a' x')
    (hselected : Selected mine hist (Reading.choice ∘ readings) part)
    (hatomic : Atomic obj part lin a (Reading.status ∘ readings)) :
    ∃ lin part, Selected mine (hist ++ ev.toList) (Reading.choice ∘ update readings t x') part ∧
      Atomic obj part lin a' (Reading.status ∘ update readings t x') := by
  rw [comp_update, comp_update]
  generalize hx : readings t = x at h
  have hchoice : (Reading.choice ∘ readings) t = x.choice := congrArg Reading.choice hx
  have hstatus : (Reading.status ∘ readings) t = x.status := congrArg Reading.status hx
  cases h with
  | stay =>
      rw [update_view _ (congrArg _ hx.symm), update_view _ (congrArg _ hx.symm)]
      exact ⟨lin, part, by simpa using hselected, hatomic⟩
  | @perform _ _ op r happly =>
      rw [update_view Reading.choice (by rw [hx]; rfl)]
      have hmove : Move obj t a ((Reading.status ∘ readings) t) none (some ⟨t, op, r⟩) a' (.done r) := by
        rw [hstatus]
        exact .perform happly
      exact ⟨_, part, by simpa using hselected, by simpa [Reading.status] using hatomic.move hmove⟩
  | leave _ op =>
      rw [update_view Reading.status (by rw [hx]; rfl)]
      exact ⟨lin, part, hselected.call hchoice op false, hatomic⟩
  | call _ op =>
      have hmove : Move obj t a ((Reading.status ∘ readings) t) (some (.call t op)) none a
          (.pending op) := by
        rw [hstatus]
        exact .call a op
      exact ⟨_, _, hselected.call hchoice op true, hatomic.move hmove⟩
  | @pass op r _ hnot =>
      rw [update_view Reading.status (by rw [hx]; rfl)]
      exact ⟨lin, part, hselected.ret hchoice (by simpa using hnot), hatomic⟩
  | @ret op r _ hmine =>
      have hmove : Move obj t a ((Reading.status ∘ readings) t) (some (.ret t r)) none a .idle := by
        rw [hstatus]
        exact .ret a r
      exact ⟨_, _, hselected.ret hchoice (by simpa using hmine), hatomic.move hmove⟩

namespace PartClient.Refines

/-- Every open reading at the end of a run is reached by a run of the object
with the part of the history that the reading counts in. -/
theorem atomic_of_open (h : c.Refines guard I obj mine) {p₀ p : σ × List (Event τ Op Res)}
    {ls : List ℓ} (hinit : c.recorded.init p₀)
    (hsteps : c.recorded.Steps (fun p => guard p.1) p₀ ls p)
    {readings : τ → Reading Op Res} (hopen : ∀ t, c.Open p.1 t (readings t)) :
    ∃ lin part, Selected mine p.2 (Reading.choice ∘ readings) part ∧
      Atomic obj part lin (c.value p.1) (Reading.status ∘ readings) := by
  induction hsteps generalizing readings with
  | refl =>
      have houtside : readings = fun _ => .outside :=
        funext fun t => h.outside_init p₀.1 t _ hinit.1 (hopen t)
      rw [houtside, hinit.2]
      exact ⟨[], [], .nil, .init (h.value_init p₀.1 hinit.1)⟩
  | @snoc ls p p' l hprefix hguard hnext ih =>
      obtain ⟨hstep, hhist⟩ := System.observed_next.mp hnext
      have hinv : I p.1 := hprefix.preserves (I := fun u => I u.1) (h.inv_init p₀.1 hinit.1)
        fun u l v hu hg hx => h.inv_step u.1 l v.1 hu hg (System.observed_next.mp hx).1
      obtain ⟨x, hx, hsim⟩ := h.back p.1 l p'.1 _ hinv hguard hstep (hopen (c.actor l))
      have hbefore (t : τ) : c.Open p.1 t (update readings (c.actor l) x t) := by
        by_cases ht : t = c.actor l
        · subst ht
          simpa using hx
        · simpa [update_of_ne ht] using h.frame p.1 l p'.1 t _ hinv hguard hstep ht (hopen t)
      obtain ⟨lin, part, hselected, hatomic⟩ := ih hbefore
      have hlast : readings =
          update (update readings (c.actor l) x) (c.actor l) (readings (c.actor l)) := by
        rw [update_idem, update_eq_self]
      rw [← hhist, hlast]
      refine PartSimulates.extend ?_ hselected hatomic
      simpa using hsim

/-- The part of every history of the program is one of the object. The
simulation is read backwards from the end of the run. -/
theorem linearizesTo (h : c.Refines guard I obj mine) {s : σ} {hist : List (Event τ Op Res)}
    {ls : List ℓ} (hrun : c.recorded.Run (fun p => guard p.1) ls (s, hist)) :
    PartLinearizesTo obj mine hist (c.value s) := by
  have hinv : I s := hrun.invariant (I := fun u => I u.1) (fun u hu => h.inv_init u.1 hu.1)
    fun u l v hu hg hx => h.inv_step u.1 l v.1 hu hg (System.observed_next.mp hx).1
  obtain ⟨p₀, hinit, hsteps⟩ := hrun
  choose readings hopen using fun t => h.some_open s t hinv
  obtain ⟨lin, part, hselected, hatomic⟩ := h.atomic_of_open hinit hsteps hopen
  exact ⟨_, part, hselected, lin, _, hatomic⟩

end PartClient.Refines

end Rule

end Libni.Transition
