import Mathlib.Logic.Function.Basic
import Mathlib.Data.List.Basic
import Libni.Transition.System

/-!
Linearizability as refinement of the atomic object. A sequential object says
which results an operation may return and how it changes the object. The
atomic object lets every thread call, perform and return: the one `perform`
move of an operation lies between its call and its return, and it is the only
move that consults or changes the object. A history of calls and returns is
linearizable when some run of the atomic object produces it.

The simulation rule works backwards along the run. An operation such as a
dequeue of an empty queue takes effect at a load whose outcome is only
confirmed by a later load, so at that load its status is still open; going
backwards the later outcome is already known.
-/

namespace Libni.Transition

open Function

variable {τ Op Res A σ ℓ : Type*}

/-- What is seen of an operation from outside: that a thread calls it and that
it returns. -/
inductive Event (τ Op Res : Type*) where
  | call (thread : τ) (op : Op)
  | ret (thread : τ) (result : Res)
  deriving DecidableEq, Repr

/-- A sequential object: its initial values, and the results and new values an
operation may have. It need not be deterministic, so that an operation may be
allowed to fail. -/
structure Object (A Op Res : Type*) where
  init : A → Prop
  apply : A → Op → Res → A → Prop

/-- Where a thread of the atomic object is: outside, in an operation that has
not taken effect, or in one that has and knows its result. -/
inductive Status (Op Res : Type*) where
  | idle
  | pending (op : Op)
  | done (result : Res)
  deriving DecidableEq, Repr

/-- One entry of a linearization: who performed what, with which result. The
order of the entries is the order in which the operations took effect. -/
structure Performed (τ Op Res : Type*) where
  thread : τ
  op : Op
  result : Res

/-- The moves of one thread of the atomic object, with the event each shows
and the entry it adds to the linearization. Only `perform` consults or changes
the object. -/
inductive Move (obj : Object A Op Res) (t : τ) :
    A → Status Op Res → Option (Event τ Op Res) → Option (Performed τ Op Res) →
    A → Status Op Res → Prop
  | call (a : A) (op : Op) : Move obj t a .idle (some (.call t op)) none a (.pending op)
  | perform {a a' : A} {op : Op} {r : Res} (h : obj.apply a op r a') :
      Move obj t a (.pending op) none (some ⟨t, op, r⟩) a' (.done r)
  | ret (a : A) (r : Res) : Move obj t a (.done r) (some (.ret t r)) none a .idle

/-- A move either leaves the object alone or performs the one operation it
adds to the linearization. -/
theorem Move.performs {obj : Object A Op Res} {t : τ} {a a' : A} {st st' : Status Op Res}
    {ev : Option (Event τ Op Res)} {perf : Option (Performed τ Op Res)}
    (h : Move obj t a st ev perf a' st') :
    (perf = none ∧ a' = a) ∨ ∃ p, perf = some p ∧ obj.apply a p.op p.result a' := by
  cases h with
  | call => exact Or.inl ⟨rfl, rfl⟩
  | perform happly => exact Or.inr ⟨_, rfl, happly⟩
  | ret => exact Or.inl ⟨rfl, rfl⟩

/-- What one program step may amount to for the thread that takes it: nothing,
or one move of the atomic object. Steps that only prepare or clean up amount
to nothing. -/
def Simulates (obj : Object A Op Res) (t : τ) (a : A) (st : Status Op Res)
    (ev : Option (Event τ Op Res)) (a' : A) (st' : Status Op Res) : Prop :=
  (ev = none ∧ a' = a ∧ st' = st) ∨ ∃ perf, Move obj t a st ev perf a' st'

namespace Simulates

variable {obj : Object A Op Res} {t : τ}

theorem call (a : A) (op : Op) :
    Simulates obj t a .idle (some (.call t op)) a (.pending op) :=
  Or.inr ⟨none, .call a op⟩

theorem perform {a a' : A} {op : Op} {r : Res} (h : obj.apply a op r a') :
    Simulates obj t a (.pending op) none a' (.done r) :=
  Or.inr ⟨some ⟨t, op, r⟩, .perform h⟩

theorem ret (a : A) (r : Res) :
    Simulates obj t a (.done r) (some (.ret t r)) a .idle :=
  Or.inr ⟨none, .ret a r⟩

variable {a a' : A} {op op' : Op} {r r' : Res}

/-- An operation that stays pending has not touched the object. -/
theorem of_pending (h : Simulates obj t a (.pending op) none a' (.pending op')) : a' = a := by
  rcases h with ⟨_, h, _⟩ | ⟨_, hmove⟩
  · exact h
  · cases hmove

theorem of_done (h : Simulates obj t a (.done r) none a' (.done r')) : a' = a := by
  rcases h with ⟨_, h, _⟩ | ⟨_, hmove⟩
  · exact h
  · cases hmove

theorem of_perform (h : Simulates obj t a (.pending op) none a' (.done r)) :
    obj.apply a op r a' := by
  rcases h with ⟨_, _, h⟩ | ⟨_, hmove⟩
  · cases h
  · cases hmove with
    | perform happly => exact happly

end Simulates

variable [DecidableEq τ]

/-- Runs of the atomic object: the history shown, the operations performed in
the order they took effect, the object and the status of every thread. Every
operation of such a run takes effect between its call and its return. -/
inductive Atomic (obj : Object A Op Res) :
    List (Event τ Op Res) → List (Performed τ Op Res) → A → (τ → Status Op Res) → Prop
  | init {a : A} (h : obj.init a) : Atomic obj [] [] a fun _ => .idle
  | move {hist : List (Event τ Op Res)} {lin : List (Performed τ Op Res)} {a a' : A}
      {status : τ → Status Op Res} {t : τ} {ev : Option (Event τ Op Res)}
      {perf : Option (Performed τ Op Res)} {st : Status Op Res}
      (h : Atomic obj hist lin a status) (hm : Move obj t a (status t) ev perf a' st) :
      Atomic obj (hist ++ ev.toList) (lin ++ perf.toList) a' (update status t st)

/-- The history is that of the object, which ends with the value `a`.
Operations that have not returned may or may not have taken effect. -/
def LinearizesTo (obj : Object A Op Res) (hist : List (Event τ Op Res)) (a : A) : Prop :=
  ∃ lin status, Atomic obj hist lin a status

/-- A sequential run of the object over a list of performed operations, one
after the other and without threads. -/
inductive Sequential (obj : Object A Op Res) : A → List (Performed τ Op Res) → A → Prop
  | nil (a : A) : Sequential obj a [] a
  | snoc {a b c : A} {lin : List (Performed τ Op Res)} {p : Performed τ Op Res} :
      Sequential obj a lin b → obj.apply b p.op p.result c → Sequential obj a (lin ++ [p]) c

/-- The operations of an atomic run, in the order they took effect, are a run
of the sequential object. Whatever holds of its sequential runs therefore
holds of linearizations. -/
theorem Atomic.sequential {obj : Object A Op Res} {hist : List (Event τ Op Res)}
    {lin : List (Performed τ Op Res)} {a : A} {status : τ → Status Op Res}
    (h : Atomic obj hist lin a status) : ∃ a₀, obj.init a₀ ∧ Sequential obj a₀ lin a := by
  induction h with
  | init ha => exact ⟨_, ha, .nil _⟩
  | move _ hm ih =>
      obtain ⟨a₀, hinit, hseq⟩ := ih
      rcases hm.performs with ⟨rfl, rfl⟩ | ⟨p, rfl, happly⟩
      · exact ⟨a₀, hinit, by simpa using hseq⟩
      · exact ⟨a₀, hinit, hseq.snoc happly⟩

omit [DecidableEq τ] in
/-- Conservation: if every operation takes out, of what was stored and what it
puts in, a front part, then so does a run. For a queue, what is taken out is
what was put in, in order and without gaps. -/
theorem Sequential.conserves {β : Type*} {obj : Object (List β) Op Res}
    {put taken : Performed τ Op Res → List β}
    (hop : ∀ a p a', obj.apply a p.op p.result a' → a ++ put p = taken p ++ a')
    {a b : List β} {lin : List (Performed τ Op Res)} (h : Sequential obj a lin b) :
    a ++ lin.flatMap put = lin.flatMap taken ++ b := by
  induction h with
  | nil => simp
  | snoc _ happly ih =>
      have hlast := hop _ _ _ happly
      simp only [List.flatMap_append, List.flatMap_singleton]
      rw [← List.append_assoc, ih, List.append_assoc, hlast, List.append_assoc]

/-- A program whose threads call and return operations of an object. `Open s t
st` says that in state `s` the status of thread `t` may be `st`: when an
operation has passed a load that may or may not turn out to be the instant it
took effect, both readings are open. -/
structure Client (sys : System σ ℓ) (τ A Op Res : Type*) where
  actor : ℓ → τ
  event : ℓ → Option (Event τ Op Res)
  value : σ → A
  Open : σ → τ → Status Op Res → Prop

/-- The history of calls and returns a list of labels shows. -/
def Client.history {sys : System σ ℓ} (c : Client sys τ A Op Res) (ls : List ℓ) :
    List (Event τ Op Res) := ls.filterMap c.event

/-- A backward simulation of the atomic object under an invariant: every
reading of the statuses after a step comes from a reading before it. Other
threads' steps leave the readings of a thread as they are, and the thread's
own step amounts to one move. -/
structure Client.Refines {sys : System σ ℓ} (c : Client sys τ A Op Res)
    (guard : σ → ℓ → Prop) (I : σ → Prop) (obj : Object A Op Res) : Prop where
  inv_init : ∀ s, sys.init s → I s
  inv_step : ∀ s l s', I s → guard s l → sys.next s l = some s' → I s'
  value_init : ∀ s, sys.init s → obj.init (c.value s)
  idle_init : ∀ s t st, sys.init s → c.Open s t st → st = .idle
  some_open : ∀ s t, I s → ∃ st, c.Open s t st
  frame : ∀ s l s' t st, I s → guard s l → sys.next s l = some s' → t ≠ c.actor l →
    c.Open s' t st → c.Open s t st
  back : ∀ s l s' st', I s → guard s l → sys.next s l = some s' →
    c.Open s' (c.actor l) st' → ∃ st, c.Open s (c.actor l) st ∧
      Simulates obj (c.actor l) (c.value s) st (c.event l) (c.value s') st'

namespace Client.Refines

variable {sys : System σ ℓ} {c : Client sys τ A Op Res} {guard : σ → ℓ → Prop}
  {I : σ → Prop} {obj : Object A Op Res}

/-- Every open reading of the statuses at the end of a run is reached by a run
of the atomic object with the same history. The induction extends the run of
the object by the move that the last step amounts to under the reading chosen
for its end. -/
theorem atomic_of_open (h : c.Refines guard I obj) {s₀ s : σ} {ls : List ℓ}
    (hinit : sys.init s₀) (hsteps : sys.Steps guard s₀ ls s)
    {status : τ → Status Op Res} (hopen : ∀ t, c.Open s t (status t)) :
    ∃ lin, Atomic obj (c.history ls) lin (c.value s) status := by
  induction hsteps generalizing status with
  | refl =>
      have hidle : status = fun _ => .idle :=
        funext fun t => h.idle_init s₀ t _ hinit (hopen t)
      subst hidle
      exact ⟨[], .init (h.value_init s₀ hinit)⟩
  | snoc hprefix hguard hnext ih =>
      rename_i ls s s' l
      have hinv := hprefix.preserves (h.inv_init s₀ hinit) h.inv_step
      obtain ⟨st, hst, hsim⟩ := h.back s l s' _ hinv hguard hnext (hopen (c.actor l))
      have hbefore (t : τ) : c.Open s t (update status (c.actor l) st t) := by
        by_cases ht : t = c.actor l
        · subst ht
          simpa using hst
        · simpa [update_of_ne ht] using
            h.frame s l s' t _ hinv hguard hnext ht (hopen t)
      obtain ⟨lin, hatomic⟩ := ih hbefore
      have hhist : c.history (ls ++ [l]) = c.history ls ++ (c.event l).toList := by
        cases hev : c.event l <;> simp [Client.history, hev]
      rw [hhist]
      rcases hsim with ⟨hev, hvalue, hstatus⟩ | ⟨perf, hm⟩
      · refine ⟨lin, ?_⟩
        have hsame : update status (c.actor l) st = status := by
          rw [← hstatus, update_eq_self]
        simpa [hsame, hev, hvalue] using hatomic
      · refine ⟨lin ++ perf.toList, ?_⟩
        have hlast : status =
            update (update status (c.actor l) st) (c.actor l) (status (c.actor l)) := by
          rw [update_idem, update_eq_self]
        rw [hlast]
        exact hatomic.move (by simpa using hm)

/-- Every history of a program that refines the atomic object is one of the
object, and the object then has the value of the program's last state. -/
theorem linearizesTo (h : c.Refines guard I obj) {s : σ} {ls : List ℓ}
    (hrun : sys.Run guard ls s) : LinearizesTo obj (c.history ls) (c.value s) := by
  classical
  have hinv := hrun.invariant h.inv_init h.inv_step
  obtain ⟨s₀, hinit, hsteps⟩ := hrun
  choose status hopen using fun t => h.some_open s t hinv
  obtain ⟨lin, hatomic⟩ := h.atomic_of_open hinit hsteps hopen
  exact ⟨lin, _, hatomic⟩

end Client.Refines

end Libni.Transition
