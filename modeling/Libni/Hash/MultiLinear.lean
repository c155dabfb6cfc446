import Mathlib.Algebra.BigOperators.Fin
import Mathlib.Data.BitVec
import Mathlib.Data.FinEnum
import Mathlib.Data.Nat.Prime.Pow
import Mathlib.Tactic.LinearCombination
import Mathlib.Tactic.Ring
import Libni.Support.Uniform

/-!
`MultiLinearDoubleHash`: the keys `m_rand`, the two loops of `operator()` and the
strong universality of the family. The sum both loops compute is the scalar
product of the keys with the input extended by a leading and a trailing 1, so
that two different inputs have different coefficients even where one is a prefix
of the other up to zero bytes.
-/

namespace Libni.Hash

open Finset Libni.Support

namespace MultiLinearDoubleHash

abbrev Byte := BitVec 8

abbrev Word := BitVec 64

variable {l : Nat}

/-- `m_rand[i]`; an index past the end has no value, so that a hash that
exists has read inside the array only. -/
def read (mRand : Fin (l + 2) → Word) (i : Nat) : Option Word :=
  if h : i < l + 2 then some (mRand ⟨i, h⟩) else none

/-- The loop for an odd length, one byte a turn; `random` is the index the
pointer has reached. -/
def oddLoop (mRand : Fin (l + 2) → Word) : List Byte → Nat → Word → Option (Nat × Word)
  | [], random, sum => some (random, sum)
  | byte :: bytes, random, sum => do
      let r ← read mRand random
      oddLoop mRand bytes (random + 1) (sum + r * byte.setWidth 64)

/-- The loop for an even length, two bytes a turn and two accumulators. A
single byte at the end would make `bytes` step over `end`, which has no result
here. -/
def evenLoop (mRand : Fin (l + 2) → Word) :
    List Byte → Nat → Word → Word → Option (Nat × Word × Word)
  | [], random, sum, s2 => some (random, sum, s2)
  | [_], _, _, _ => none
  | byte :: byte' :: bytes, random, sum, s2 => do
      let r ← read mRand random
      let r' ← read mRand (random + 1)
      evenLoop mRand bytes (random + 2) (sum + r * byte.setWidth 64)
        (s2 + r' * byte'.setWidth 64)

/-- `static_cast<uint32_t>(sum >> 32)`. -/
def top (sum : Word) : BitVec 32 := (sum >>> 32).setWidth 32

/-- `operator()`: the first key, the loop that the parity of the length
selects, the key after the last byte's, and the upper half of the sum. -/
def hash (mRand : Fin (l + 2) → Word) (input : List Byte) : Option (BitVec 32) := do
  let sum ← read mRand 0
  if input.length % 2 = 1 then
    let (random, sum) ← oddLoop mRand input 1 sum
    let r ← read mRand random
    return top (sum + r)
  else
    let (random, sum, s2) ← evenLoop mRand input 1 sum 0
    let r ← read mRand random
    return top (sum + (r + s2))

def word (mRand : Fin (l + 2) → Word) (i : Nat) : Word := (read mRand i).getD 0

/-- The sum of the coefficients with the keys from index `i` on, the scalar
product read as a recursion over the input. -/
def weigh (mRand : Fin (l + 2) → Word) : List Word → Nat → Word
  | [], _ => 0
  | c :: cs, i => word mRand i * c + weigh mRand cs (i + 1)

/-- The input as coefficients, with the two of the first and the last key. The
trailing 1 is what tells an input from one with zero bytes appended. -/
def extended (input : List Byte) : List Word :=
  1 :: input.map (BitVec.setWidth 64) ++ [1]

/-- The coefficients of all keys; those beyond the input are zero. With them
every hash is one sum over all keys. -/
def coefficients (l : Nat) (input : List Byte) : Fin (l + 2) → Word :=
  fun i => (extended input).getD i 0

variable (mRand : Fin (l + 2) → Word) {input : List Byte}

theorem read_eq {i : Nat} (h : i < l + 2) : read mRand i = some (word mRand i) := by
  simp [read, word, h]

@[simp] theorem length_extended : (extended input).length = input.length + 2 := by
  simp [extended]

theorem weigh_append (xs ys : List Word) (i : Nat) :
    weigh mRand (xs ++ ys) i = weigh mRand xs i + weigh mRand ys (i + xs.length) := by
  induction xs generalizing i with
  | nil => simp [weigh]
  | cons c cs ih =>
      simp only [List.cons_append, weigh, ih, List.length_cons]
      rw [show i + 1 + cs.length = i + (cs.length + 1) by omega, add_assoc]

/-- The loop adds the weighted bytes to its accumulator and leaves the pointer
behind their keys. -/
theorem oddLoop_eq (bytes : List Byte) (random : Nat) (sum : Word)
    (h : random + bytes.length ≤ l + 2) :
    oddLoop mRand bytes random sum =
      some (random + bytes.length, sum + weigh mRand (bytes.map (BitVec.setWidth 64)) random) := by
  induction bytes generalizing random sum with
  | nil => simp [oddLoop, weigh]
  | cons byte bytes ih =>
      simp only [List.length_cons] at h
      simp only [oddLoop, read_eq mRand (show random < l + 2 by omega), Option.bind_eq_bind,
        Option.bind_some, ih (random + 1) _ (by omega), List.map_cons, weigh, List.length_cons,
        add_assoc, Nat.add_comm 1]

/-- The two accumulators together are the sum of the one-byte loop. The
induction is on pairs of bytes, as the loop is. -/
theorem evenLoop_eq (bytes : List Byte) (random : Nat) (sum s2 : Word)
    (heven : bytes.length % 2 = 0) (h : random + bytes.length ≤ l + 2) :
    ∃ sum' s2', evenLoop mRand bytes random sum s2 = some (random + bytes.length, sum', s2') ∧
      sum' + s2' = sum + s2 + weigh mRand (bytes.map (BitVec.setWidth 64)) random := by
  induction bytes, random, sum, s2 using evenLoop.induct with
  | case1 random sum s2 => exact ⟨sum, s2, rfl, by simp [weigh]⟩
  | case2 byte random sum s2 => simp at heven
  | case3 byte byte' bytes random sum s2 ih =>
      simp only [List.length_cons] at heven h
      have hread := read_eq mRand (show random < l + 2 by omega)
      have hread' := read_eq mRand (show random + 1 < l + 2 by omega)
      obtain ⟨sum', s2', hloop, hsum⟩ := ih (word mRand random) (word mRand (random + 1))
        (by omega) (by omega)
      refine ⟨sum', s2', ?_, ?_⟩
      · simp only [evenLoop, hread, hread', Option.bind_eq_bind, Option.bind_some, hloop,
          List.length_cons]
        rw [show random + 2 + bytes.length = random + (bytes.length + 1 + 1) by omega]
      · rw [hsum]
        simp only [List.map_cons, weigh]
        ring

/-- Both paths return the top half of the same sum and read no key past the
end, for inputs of at most `l` bytes. -/
theorem hash_eq (hlen : input.length ≤ l) :
    hash mRand input = some (top (weigh mRand (extended input) 0)) := by
  have hfirst := read_eq mRand (show 0 < l + 2 by omega)
  have hlast := read_eq mRand (show 1 + input.length < l + 2 by omega)
  have hsum : weigh mRand (extended input) 0 = word mRand 0 +
      (weigh mRand (input.map (BitVec.setWidth 64)) 1 + word mRand (1 + input.length)) := by
    rw [extended, List.cons_append, weigh, weigh_append]
    simp [weigh]
  by_cases hodd : input.length % 2 = 1
  · have hloop := oddLoop_eq mRand input 1 (word mRand 0) (by omega)
    simp only [hash, hfirst, Option.bind_eq_bind, Option.bind_some, if_pos hodd, hloop, hlast,
      hsum]
    rw [add_assoc]
    rfl
  · obtain ⟨sum, s2, hloop, htotal⟩ :=
      evenLoop_eq mRand input 1 (word mRand 0) 0 (by omega) (by omega)
    simp only [hash, hfirst, Option.bind_eq_bind, Option.bind_some, if_neg hodd, hloop, hlast,
      hsum]
    have hmoved : sum + (word mRand (1 + input.length) + s2) =
        word mRand 0 + (weigh mRand (input.map (BitVec.setWidth 64)) 1 +
          word mRand (1 + input.length)) := by
      linear_combination htotal
    rw [hmoved]
    rfl

theorem weigh_eq_sum (cs : List Word) (i : Nat) :
    weigh mRand cs i = ∑ k ∈ range cs.length, cs.getD k 0 * word mRand (i + k) := by
  induction cs generalizing i with
  | nil => simp [weigh]
  | cons c cs ih =>
      rw [weigh, ih, List.length_cons, sum_range_succ']
      simp only [List.getD_cons_succ, List.getD_cons_zero, Nat.add_zero]
      rw [add_comm, mul_comm]
      congr 1
      refine sum_congr rfl fun k _ => ?_
      rw [Nat.add_assoc, Nat.add_comm 1]

theorem weigh_extended (hlen : input.length ≤ l) :
    weigh mRand (extended input) 0 = coefficients l input ⬝ᵥ mRand := by
  have hword (i : Fin (l + 2)) : word mRand i = mRand i := by
    simp [word, read]
  have hbeyond : ∀ k ∈ range (l + 2), k ∉ range (extended input).length →
      (extended input).getD k 0 * word mRand (0 + k) = 0 := by
    intro k _ hk
    rw [List.getD_eq_getElem?_getD, List.getElem?_eq_none (by simpa using hk), Option.getD_none,
      zero_mul]
  calc
    weigh mRand (extended input) 0
      = ∑ k ∈ range (extended input).length, (extended input).getD k 0 * word mRand (0 + k) :=
        weigh_eq_sum mRand _ 0
    _ = ∑ k ∈ range (l + 2), (extended input).getD k 0 * word mRand (0 + k) :=
        sum_subset (range_subset_range.mpr (by simp; omega)) hbeyond
    _ = ∑ i : Fin (l + 2), (extended input).getD i 0 * word mRand (0 + i) :=
        sum_range fun k => (extended input).getD k 0 * word mRand (0 + k)
    _ = coefficients l input ⬝ᵥ mRand := by
        simp only [Nat.zero_add, hword]
        rfl

/-- The hash as a linear form in the keys, from which everything below is
derived. -/
theorem hash_eq_top (hlen : input.length ≤ l) :
    hash mRand input = some (top (coefficients l input ⬝ᵥ mRand)) := by
  rw [hash_eq mRand hlen, weigh_extended mRand hlen]

/-- A summand that adds `p` to the hash: the low half of the sum is not seen
and no carry comes out of it. -/
def lift (p : BitVec 32) : Word := p.setWidth 64 <<< 32

/-- Adding to the upper half changes the hash by the same amount, whatever the
lower half holds. -/
theorem top_add_lift (x : Word) (p : BitVec 32) : top (x + lift p) = top x + p := by
  apply BitVec.eq_of_toNat_eq
  simp only [top, lift, BitVec.toNat_setWidth, BitVec.toNat_ushiftRight, BitVec.toNat_add,
    BitVec.toNat_shiftLeft, Nat.shiftRight_eq_div_pow, Nat.shiftLeft_eq]
  have hx := x.isLt
  have hp := p.isLt
  omega

theorem dvd_lift (p : BitVec 32) : ((2 ^ 32 : Nat) : Word) ∣ lift p := by
  refine ⟨p.setWidth 64, ?_⟩
  apply BitVec.eq_of_toNat_eq
  simp [lift, Nat.shiftLeft_eq, Nat.mul_comm]

/-- A number of one byte has at most seven factors 2, so it divides 2^32
modulo 2^64. Its odd part has an inverse there. -/
theorem natCast_dvd {k : Nat} (hpos : 0 < k) (hlt : k < 256) :
    (k : Word) ∣ ((2 ^ 32 : Nat) : Word) := by
  obtain ⟨e, he, hgcd⟩ := (Nat.dvd_prime_pow Nat.prime_two).mp (Nat.gcd_dvd_right k (2 ^ 64))
  have hle : 2 ^ e ≤ k := hgcd ▸ Nat.gcd_le_left _ hpos
  have he8 : e < 8 := (Nat.pow_lt_pow_iff_right (a := 2) (by omega)).mp (by omega)
  have hbezout := congrArg (Int.cast : Int → Word) (Nat.gcd_eq_gcd_ab k (2 ^ 64))
  have hzero : ((2 ^ 64 : Nat) : Word) = 0 := by
    apply BitVec.eq_of_toNat_eq
    simp
  rw [Int.cast_add, Int.cast_mul, Int.cast_mul, Int.cast_natCast, Int.cast_natCast,
    Int.cast_natCast, hzero, zero_mul, add_zero, hgcd] at hbezout
  exact (Dvd.intro _ hbezout.symm).trans (Nat.cast_dvd_cast (pow_dvd_pow 2 (by omega)))

/-- The difference of two bytes divides every amount the hash can be shifted
by. -/
theorem byte_sub_dvd {x y : Byte} (hne : x ≠ y) :
    x.setWidth 64 - y.setWidth 64 ∣ ((2 ^ 32 : Nat) : Word) := by
  have hcast (b : Byte) : b.setWidth 64 = (b.toNat : Word) := by
    apply BitVec.eq_of_toNat_eq
    simp
  have hnat : x.toNat ≠ y.toNat := fun h => hne (BitVec.eq_of_toNat_eq h)
  have hx := x.isLt
  have hy := y.isLt
  rw [hcast, hcast]
  rcases Nat.lt_or_gt_of_ne hnat with hlt | hlt
  · rw [← neg_sub, neg_dvd, ← Nat.cast_sub hlt.le]
    exact natCast_dvd (by omega) (by omega)
  · rw [← Nat.cast_sub hlt.le]
    exact natCast_dvd (by omega) (by omega)

variable {s t : List Byte}

theorem coefficients_zero (input : List Byte) : coefficients l input 0 = 1 := rfl

theorem coefficients_byte {k : Nat} (hk : k < input.length) (hl : k + 1 < l + 2) :
    coefficients l input ⟨k + 1, hl⟩ = input[k].setWidth 64 := by
  simp [coefficients, extended, List.getElem?_append_left, hk]

theorem coefficients_last (hl : input.length + 1 < l + 2) :
    coefficients l input ⟨input.length + 1, hl⟩ = 1 := by
  simp [coefficients, extended]

theorem coefficients_beyond {k : Nat} (hk : input.length < k) (hl : k + 1 < l + 2) :
    coefficients l input ⟨k + 1, hl⟩ = 0 := by
  have hnone : (extended input)[k + 1]? = none := List.getElem?_eq_none (by simp; omega)
  simp [coefficients, hnone]

/-- Inputs of different lengths differ at the last key of the longer one,
where one has its closing 1 and the other a zero. -/
theorem sub_of_length_lt (hs : s.length ≤ l) (hlt : t.length < s.length) :
    coefficients l s ⟨s.length + 1, by omega⟩ - coefficients l t ⟨s.length + 1, by omega⟩ = 1 := by
  rw [coefficients_last, coefficients_beyond hlt, sub_zero]

/-- Two inputs have coefficients at some key whose difference divides every
shift: at the first byte in which they differ, or at the end of the longer
one. -/
theorem exists_sub_dvd (hs : s.length ≤ l) (ht : t.length ≤ l) (hne : s ≠ t) :
    ∃ i, coefficients l s i - coefficients l t i ∣ ((2 ^ 32 : Nat) : Word) := by
  rcases Nat.lt_trichotomy t.length s.length with hlt | hlen | hlt
  · refine ⟨⟨s.length + 1, by omega⟩, ?_⟩
    rw [sub_of_length_lt hs hlt]
    exact one_dvd _
  · obtain ⟨k, hk, hbyte⟩ : ∃ k, ∃ h : k < s.length, s[k] ≠ t[k] := by
      by_contra! hall
      exact hne (List.ext_getElem hlen.symm fun k hks _ => hall k hks)
    refine ⟨⟨k + 1, by omega⟩, ?_⟩
    rw [coefficients_byte hk, coefficients_byte (by omega)]
    exact byte_sub_dvd hbyte
  · refine ⟨⟨t.length + 1, by omega⟩, ?_⟩
    rw [← neg_sub, neg_dvd, sub_of_length_lt ht hlt]
    exact one_dvd _

/-- For two different inputs, every pair of hashes has the same number of key
arrays. The fibres of the pair of hashes are carried into each other by
shifting two keys, since both forms have the coefficient 1 at the first key
and their difference at another one divides every shift. -/
theorem hash_strongly_universal (hs : s.length ≤ l) (ht : t.length ≤ l) (hne : s ≠ t)
    (y z : BitVec 32) :
    #{mRand : Fin (l + 2) → Word | hash mRand s = some y ∧ hash mRand t = some z} =
      2 ^ (64 * (l + 2) - 64) := by
  obtain ⟨i, hi⟩ := exists_sub_dvd hs ht hne
  have hdvd (p q : BitVec 32) :
      coefficients l s i - coefficients l t i ∣ lift p - lift q :=
    hi.trans (dvd_sub (dvd_lift p) (dvd_lift q))
  have hcount := card_forms_mul top_add_lift (coefficients_zero s) (coefficients_zero t) hdvd y z
  simp only [hash_eq_top _ hs, hash_eq_top _ ht, Option.some.injEq]
  have hcard : Fintype.card (BitVec 32) = 2 ^ 32 := FinEnum.card_eq_fintypeCard.symm
  have hcard' : Fintype.card Word = 2 ^ 64 := FinEnum.card_eq_fintypeCard.symm
  rw [hcard, hcard', Fintype.card_fin, ← pow_mul, ← pow_mul] at hcount
  refine Nat.eq_of_mul_eq_mul_right (show 0 < 2 ^ (32 * 2) by positivity) (hcount.trans ?_)
  rw [← pow_add, show 64 * (l + 2) - 64 + 32 * 2 = 64 * (l + 2) by omega]

/-- The empty input and a zero byte, which have the same sum of weighted bytes
and differ by the closing coefficient only. -/
theorem hash_strongly_universal_zeroByte :
    #{mRand : Fin 3 → Word | hash mRand [] = some 7 ∧ hash mRand [0] = some 9} = 2 ^ 128 :=
  hash_strongly_universal (by decide) (by decide) (by decide) 7 9

end MultiLinearDoubleHash

end Libni.Hash
