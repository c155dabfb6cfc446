import Mathlib.Algebra.BigOperators.Ring.Finset
import Mathlib.Data.Fintype.BigOperators
import Mathlib.Data.Matrix.Mul
import Mathlib.Tactic.LinearCombination

/-!
Uniform functions of a uniform argument. A function from a finite type takes
each of its values equally often if every fibre can be carried into every other
one by a permutation of the arguments. Two linear forms followed by a map that
forgets the low part of their values are such a function, jointly, if shifting
the argument can shift both results by any amounts.
-/

namespace Libni.Support

open Finset

/-- All fibres have one size, so each has its share of the arguments. The
permutations that carry one fibre into another show it without computing the
size. -/
theorem card_fiber_mul_card {α β : Type*} [Fintype α] [Fintype β] [DecidableEq β] (f : α → β)
    (hshift : ∀ b b', ∃ e : α ≃ α, ∀ a, f a = b → f (e a) = b') (b : β) :
    #{a | f a = b} * Fintype.card β = Fintype.card α := by
  have hle (b b' : β) : #{a | f a = b} ≤ #{a | f a = b'} := by
    obtain ⟨e, he⟩ := hshift b b'
    refine card_le_card_of_injOn e (fun a ha => ?_) e.injective.injOn
    simpa using he a (by simpa using ha)
  have hsize (b' : β) : #{a | f a = b'} = #{a | f a = b} := le_antisymm (hle b' b) (hle b b')
  calc
    #{a | f a = b} * Fintype.card β = ∑ b' : β, #{a | f a = b'} := by
      simp [hsize, mul_comm]
    _ = Fintype.card α := (card_eq_sum_card_fiberwise fun a _ => mem_univ (f a)).symm

section Forms

variable {R Y ι : Type*} [CommRing R] [AddCommGroup Y] [Fintype ι] [DecidableEq ι]
  {top : R → Y} {lift : Y → R} {a b : ι → R} {i j : ι}

omit [AddCommGroup Y] in
/-- Two forms that agree in a coefficient 1 at `j` and differ at `i` by a
divisor of every difference of lifted amounts can be shifted independently.
Two coordinates of the argument suffice for it. -/
theorem exists_shift (ha : a j = 1) (hb : b j = 1)
    (hdvd : ∀ p q, a i - b i ∣ lift p - lift q) (p q : Y) :
    ∃ w : ι → R, a ⬝ᵥ w = lift p ∧ b ⬝ᵥ w = lift q := by
  obtain ⟨u, hu⟩ := hdvd p q
  refine ⟨Pi.single i u + Pi.single j (lift p - a i * u), ?_, ?_⟩
  · rw [dotProduct_add, dotProduct_single, dotProduct_single, ha]
    ring
  · rw [dotProduct_add, dotProduct_single, dotProduct_single, hb]
    linear_combination hu

/-- Over a uniform argument the tops of two such forms take every pair of
values equally often. -/
theorem card_forms_mul [Fintype R] [Fintype Y] [DecidableEq Y]
    (htop : ∀ x p, top (x + lift p) = top x + p) (ha : a j = 1) (hb : b j = 1)
    (hdvd : ∀ p q, a i - b i ∣ lift p - lift q) (y z : Y) :
    #{r : ι → R | top (a ⬝ᵥ r) = y ∧ top (b ⬝ᵥ r) = z} * Fintype.card Y ^ 2 =
      Fintype.card R ^ Fintype.card ι := by
  have hfiber := card_fiber_mul_card
    (fun r : ι → R => (top (a ⬝ᵥ r), top (b ⬝ᵥ r))) (fun v v' => ?_) (y, z)
  · simpa [Prod.ext_iff, Fintype.card_prod, sq] using hfiber
  · obtain ⟨w, hwa, hwb⟩ := exists_shift ha hb hdvd (v'.1 - v.1) (v'.2 - v.2)
    refine ⟨Equiv.addRight w, ?_⟩
    rintro r rfl
    simp only [Equiv.coe_addRight, dotProduct_add, hwa, hwb, htop, add_sub_cancel]

end Forms

end Libni.Support
