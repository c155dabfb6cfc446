import Mathlib.Algebra.Order.BigOperators.Group.Finset
import Libni.Transition.System

/-!
How long threads can go on without getting anything done. The steps that make
progress are paid for from a budget; between two of them every thread has some
patience, which only its own steps use up. Then the number of steps is bounded,
whatever the schedule: a thread can only be sent back by the progress of another
one.
-/

namespace Libni.Transition.System

open Finset

variable {σ ℓ τ : Type*} {sys : System σ ℓ} {guard : σ → ℓ → Prop} {s t : σ} {ls : List ℓ}

/-- A measure that no guarded step increases bounds the number of those that
decrease it, whatever the other steps do. -/
theorem Steps.countP_le {I : σ → Prop} {f : σ → Nat} {p : ℓ → Bool}
    (h : sys.Steps guard s ls t) (hs : I s)
    (hstep : ∀ u l v, I u → guard u l → sys.next u l = some v →
      I v ∧ f v + (if p l then 1 else 0) ≤ f u) :
    ls.countP p + f t ≤ f s := by
  induction h with
  | refl => simp
  | @snoc ls u v l hsteps hguard hnext ih =>
      have hu : I u :=
        hsteps.preserves hs fun _ _ _ hI hg hx => (hstep _ _ _ hI hg hx).1
      have hle := (hstep u l v hu hguard hnext).2
      rw [List.countP_append, List.countP_singleton]
      omega

/-- A measure that every guarded step decreases bounds the number of steps. It
is the plain case of what follows. -/
theorem Steps.length_le {I : σ → Prop} {f : σ → Nat} (h : sys.Steps guard s ls t) (hs : I s)
    (hstep : ∀ u l v, I u → guard u l → sys.next u l = some v → I v ∧ f v < f u) :
    ls.length + f t ≤ f s := by
  have hcount := h.countP_le (f := f) (p := fun _ => true) hs fun u l v hu hguard hnext => by
    simpa [Nat.succ_le_iff] using hstep u l v hu hguard hnext
  rwa [List.countP_true] at hcount

/-- A sum of which one term changes: what the sum gains is what the term
gains. Stated with additions, since the measures are natural numbers. -/
theorem sum_add_eq_of_mem {threads : Finset τ} {f g : τ → Nat} {x : τ} (hx : x ∈ threads)
    (hothers : ∀ y, y ≠ x → g y = f y) :
    ∑ y ∈ threads, g y + f x = ∑ y ∈ threads, f y + g x := by
  classical
  have hrest : ∑ y ∈ threads.erase x, g y = ∑ y ∈ threads.erase x, f y :=
    sum_congr rfl fun y hy => hothers y (ne_of_mem_erase hy)
  rw [← add_sum_erase threads g hx, ← add_sum_erase threads f hx, hrest]
  omega

theorem sum_add_eq [Fintype τ] {f g : τ → Nat} (x : τ) (hothers : ∀ y, y ≠ x → g y = f y) :
    ∑ y, g y + f x = ∑ y, f y + g x :=
  sum_add_eq_of_mem (mem_univ x) hothers

/-- What one thread pays must make up for what it lets the others have. The
payer gives up at least one for each thread, and no other gains more than one. -/
theorem sum_lt_of_pays {threads : Finset τ} {f g : τ → Nat} {x : τ} (hx : x ∈ threads)
    (hpays : g x + threads.card ≤ f x) (hothers : ∀ y, y ≠ x → g y ≤ f y + 1) :
    ∑ y ∈ threads, g y < ∑ y ∈ threads, f y := by
  classical
  have hrest : ∑ y ∈ threads.erase x, g y ≤ ∑ y ∈ threads.erase x, (f y + 1) :=
    sum_le_sum fun y hy => hothers y (ne_of_mem_erase hy)
  have hcard := card_erase_add_one hx
  rw [sum_add_distrib, ← card_eq_sum_ones] at hrest
  rw [← add_sum_erase threads g hx, ← add_sum_erase threads f hx]
  omega

/-- Every guarded step of one of the threads either spends some of the budget
or uses up some of the patience of its own thread and of no other. Spending
may restore everyone's patience, up to the cap. -/
structure Spends (sys : System σ ℓ) (guard : σ → ℓ → Prop) (I : σ → Prop) (actor : ℓ → τ)
    (threads : Finset τ) (budget : σ → Nat) (patience : σ → τ → Nat) (cap : Nat) : Prop where
  inv : ∀ u l v, I u → guard u l → sys.next u l = some v → I v
  actor_mem : ∀ u l, guard u l → actor l ∈ threads
  le_cap : ∀ u t, patience u t ≤ cap
  step : ∀ u l v, I u → guard u l → sys.next u l = some v → budget v < budget u ∨
    budget v ≤ budget u ∧ patience v (actor l) < patience u (actor l) ∧
      ∀ t, t ≠ actor l → patience v t = patience u t

namespace Spends

variable {I : σ → Prop} {actor : ℓ → τ} {threads : Finset τ} {budget : σ → Nat}
  {patience : σ → τ → Nat} {cap : Nat}

theorem sum_le (h : Spends sys guard I actor threads budget patience cap) (u : σ) :
    ∑ t ∈ threads, patience u t ≤ threads.card * cap :=
  threads.sum_le_card_nsmul (patience u) cap fun t _ => h.le_cap u t

/-- One unit of the budget outweighs all the patience the threads can have, so
that budget and patience together make a measure that every step decreases. -/
theorem length_le (h : Spends sys guard I actor threads budget patience cap) (hs : I s)
    (hsteps : sys.Steps guard s ls t) :
    ls.length ≤ budget s * (threads.card * cap + 1) + threads.card * cap := by
  have hmeasure := hsteps.length_le
    (f := fun u => budget u * (threads.card * cap + 1) + ∑ t ∈ threads, patience u t) hs
    fun u l v hu hguard hnext => by
      refine ⟨h.inv u l v hu hguard hnext, ?_⟩
      have hsum := h.sum_le v
      rcases h.step u l v hu hguard hnext with hspent | ⟨hbudget, hown, hothers⟩
      · calc budget v * (threads.card * cap + 1) + ∑ t ∈ threads, patience v t
            < (budget v + 1) * (threads.card * cap + 1) := by
              rw [Nat.add_mul, Nat.one_mul]
              omega
          _ ≤ budget u * (threads.card * cap + 1) := Nat.mul_le_mul_right _ hspent
          _ ≤ _ := Nat.le_add_right _ _
      · refine Nat.add_lt_add_of_le_of_lt (Nat.mul_le_mul_right _ hbudget) ?_
        refine sum_lt_sum (fun x _ => ?_) ⟨actor l, h.actor_mem u l hguard, hown⟩
        by_cases hx : x = actor l
        · rw [hx]
          exact hown.le
        · exact (hothers x hx).le
  have hsum := h.sum_le s
  omega

end Spends

end Libni.Transition.System
