import Mathlib.Algebra.BigOperators.Intervals
import Libni.Hash.MultiLinear

/-!
`operator()` over its two pointers. The loops of the source compare `bytes` with
`end` by inequality, so what they compute depends on the pointer meeting `end`; here
they follow the loops over the remaining bytes, with every access to a key recorded.
-/

namespace Libni.Hash.MultiLinearDoubleHash

variable {l : Nat}

/-- The offsets of `bytes` and `random`, and the keys read so far. The offset
of `bytes` is compared with the length by inequality, as the pointers are. -/
structure Cursor where
  bytes : Nat
  random : Nat
  reads : List Nat
  deriving DecidableEq

/-- `*random`. -/
def Cursor.key (mRand : Fin (l + 2) → Word) (c : Cursor) : Option (Word × Cursor) :=
  (read mRand c.random).map fun r => (r, { c with reads := c.reads ++ [c.random] })

/-- `*random++ * *bytes++`. -/
def Cursor.product (mRand : Fin (l + 2) → Word) (input : List Byte) (c : Cursor) :
    Option (Word × Cursor) := do
  let (r, c) ← c.key mRand
  let byte ← input[c.bytes]?
  return (r * byte.setWidth 64, { c with bytes := c.bytes + 1, random := c.random + 1 })

/-- The loop for an odd length. It ends only where the pointers meet, and has
no result when the fuel runs out before. -/
def oddWhile (mRand : Fin (l + 2) → Word) (input : List Byte) :
    (fuel : Nat) → Cursor → Word → Option (Cursor × Word)
  | 0, _, _ => none
  | fuel + 1, c, sum =>
      if c.bytes ≠ input.length then do
        let (p, c) ← c.product mRand input
        oddWhile mRand input fuel c (sum + p)
      else some (c, sum)

/-- The loop for an even length, which moves the pointer by two and so can
step over the end. -/
def evenWhile (mRand : Fin (l + 2) → Word) (input : List Byte) :
    (fuel : Nat) → Cursor → Word → Word → Option (Cursor × Word × Word)
  | 0, _, _, _ => none
  | fuel + 1, c, sum, s2 =>
      if c.bytes ≠ input.length then do
        let (p, c) ← c.product mRand input
        let (p', c) ← c.product mRand input
        evenWhile mRand input fuel c (sum + p) (s2 + p')
      else some (c, sum, s2)

/-- `operator()`: the pointers it ends with, the keys it has read and the
hash. -/
def apply (mRand : Fin (l + 2) → Word) (input : List Byte) (fuel : Nat) :
    Option (Cursor × BitVec 32) := do
  let (sum, c) ← Cursor.key mRand ⟨0, 0, []⟩
  let c := { c with random := c.random + 1 }
  if input.length % 2 = 1 then
    let (c, sum) ← oddWhile mRand input fuel c sum
    let (r, c) ← c.key mRand
    return (c, top (sum + r))
  else
    let (c, sum, s2) ← evenWhile mRand input fuel c sum 0
    let (r, c) ← c.key mRand
    return (c, top (sum + (r + s2)))

section Follows

variable (mRand : Fin (l + 2) → Word) {input : List Byte}

/-- The pointers at the end of the input, with the keys of the remaining bytes
read in order. -/
def Cursor.atEnd (c : Cursor) (input : List Byte) : Cursor where
  bytes := input.length
  random := c.random + (input.length - c.bytes)
  reads := c.reads ++ List.range' c.random (input.length - c.bytes)

/-- The pointers after a byte. -/
def Cursor.next (c : Cursor) : Cursor := ⟨c.bytes + 1, c.random + 1, c.reads ++ [c.random]⟩

theorem Cursor.next_atEnd {c : Cursor} (h : c.bytes < input.length) :
    c.next.atEnd input = c.atEnd input := by
  have hrest : input.length - c.bytes = input.length - (c.bytes + 1) + 1 := by omega
  rw [atEnd, atEnd, next, hrest, List.range'_succ, List.append_assoc, List.singleton_append]
  simp only [mk.injEq, and_true, true_and]
  omega

theorem Cursor.product_eq {c : Cursor} (h : c.bytes < input.length) :
    c.product mRand input =
      (read mRand c.random).map fun r => (r * input[c.bytes].setWidth 64, c.next) := by
  unfold product key
  cases read mRand c.random with
  | none => rfl
  | some r =>
      simp [List.getElem?_eq_getElem h, next]

/-- The loop over the pointers is the recursion over the bytes still to come. -/
theorem oddWhile_eq {fuel : Nat} {c : Cursor} (sum : Word) (hle : c.bytes ≤ input.length)
    (hfuel : input.length - c.bytes < fuel) :
    oddWhile mRand input fuel c sum =
      (oddLoop mRand (input.drop c.bytes) c.random sum).map fun p => (c.atEnd input, p.2) := by
  induction fuel generalizing c sum with
  | zero => omega
  | succ fuel ih =>
      rw [oddWhile]
      split
      · next hne =>
          have hlt : c.bytes < input.length := by omega
          rw [c.product_eq mRand hlt, List.drop_eq_getElem_cons hlt, oddLoop]
          cases read mRand c.random with
          | none => rfl
          | some r =>
              have hnext := ih (c := c.next) (sum + r * input[c.bytes].setWidth 64)
                (show c.bytes + 1 ≤ input.length by omega)
                (show input.length - (c.bytes + 1) < fuel by omega)
              rw [c.next_atEnd hlt] at hnext
              exact hnext
      · next hend =>
          have hend : c.bytes = input.length := by omega
          rw [hend, List.drop_length, oddLoop, Cursor.atEnd, hend]
          simp [← hend]

theorem Cursor.product_past {c : Cursor} (h : input.length ≤ c.bytes) :
    c.product mRand input = none := by
  unfold product key
  cases read mRand c.random with
  | none => rfl
  | some r => simp [List.getElem?_eq_none h]

/-- The same for pairs of bytes. A single byte at the end takes both loops out
of the input, where they have no result. -/
theorem evenWhile_eq {fuel : Nat} {c : Cursor} (sum s2 : Word) (hle : c.bytes ≤ input.length)
    (hfuel : input.length - c.bytes < fuel) :
    evenWhile mRand input fuel c sum s2 =
      (evenLoop mRand (input.drop c.bytes) c.random sum s2).map fun p => (c.atEnd input, p.2) := by
  induction fuel generalizing c sum s2 with
  | zero => omega
  | succ fuel ih =>
      rw [evenWhile]
      split
      · next hne =>
          have hlt : c.bytes < input.length := by omega
          rw [c.product_eq mRand hlt, List.drop_eq_getElem_cons hlt]
          rcases Nat.lt_or_ge (c.bytes + 1) input.length with hlt' | hge
          · have hsecond : c.next.product mRand input = _ := c.next.product_eq mRand hlt'
            rw [List.drop_eq_getElem_cons hlt', evenLoop]
            cases read mRand c.random with
            | none => rfl
            | some r =>
                simp only [Option.map_some, Option.bind_eq_bind, Option.bind_some, hsecond]
                change (Option.map _ (read mRand (c.random + 1))).bind _ = _
                cases read mRand (c.random + 1) with
                | none => rfl
                | some r' =>
                    have hnext := ih (c := c.next.next) (sum + r * input[c.bytes].setWidth 64)
                      (s2 + r' * input[c.bytes + 1].setWidth 64)
                      (show c.bytes + 1 + 1 ≤ input.length by omega)
                      (show input.length - (c.bytes + 1 + 1) < fuel by omega)
                    rw [c.next.next_atEnd hlt', c.next_atEnd hlt] at hnext
                    exact hnext
          · rw [List.drop_eq_nil_of_le hge, evenLoop]
            cases read mRand c.random with
            | none => rfl
            | some r =>
                simp only [Option.map_some, Option.bind_eq_bind, Option.bind_some,
                  c.next.product_past mRand hge]
                rfl
      · next hend =>
          have hend : c.bytes = input.length := by omega
          rw [hend, List.drop_length, evenLoop, Cursor.atEnd, hend]
          simp [← hend]

theorem key_eq {c : Cursor} (h : c.random < l + 2) :
    c.key mRand = some (word mRand c.random, { c with reads := c.reads ++ [c.random] }) := by
  rw [Cursor.key, read_eq mRand h]
  rfl

/-- Over the pointers `operator()` is `hash`; it reads the keys in order up to
the one after the last byte's, and the bytes up to the end. -/
theorem apply_eq {fuel : Nat} (hlen : input.length ≤ l) (hfuel : input.length < fuel) :
    apply mRand input fuel =
      (hash mRand input).map fun h =>
        (⟨input.length, input.length + 1, List.range (input.length + 2)⟩, h) := by
  have hstart := key_eq mRand (c := ⟨0, 0, []⟩) (show 0 < l + 2 by omega)
  have hend : Cursor.atEnd ⟨0, 1, [0]⟩ input =
      ⟨input.length, input.length + 1, List.range (input.length + 1)⟩ := by
    rw [Cursor.atEnd, List.range_succ_eq_map]
    simp only [Nat.sub_zero, List.singleton_append, Nat.add_comm 1, List.range'_eq_map_range]
  have hlast := key_eq mRand
    (c := ⟨input.length, input.length + 1, List.range (input.length + 1)⟩)
    (show input.length + 1 < l + 2 by omega)
  have hfirst := read_eq mRand (show 0 < l + 2 by omega)
  have hread := read_eq mRand (show input.length + 1 < l + 2 by omega)
  simp only [apply, hash, hstart, hfirst, Option.bind_eq_bind, Option.bind_some]
  by_cases hodd : input.length % 2 = 1
  · have hloop := oddLoop_eq mRand input 1 (word mRand 0) (by omega)
    have hwhile := oddWhile_eq mRand (c := ⟨0, 1, [0]⟩) (word mRand 0) (Nat.zero_le _) hfuel
    rw [List.drop_zero, hloop, Option.map_some, hend] at hwhile
    rw [if_pos hodd, if_pos hodd, hloop]
    change Option.bind (oddWhile mRand input fuel ⟨0, 1, [0]⟩ (word mRand 0)) _ = _
    rw [hwhile]
    simp only [Option.bind_some, hlast, Nat.add_comm 1, hread,
      List.range_succ (n := input.length + 1)]
    rfl
  · have hloop := evenLoop_eq mRand input 1 (word mRand 0) 0 (by omega) (by omega)
    obtain ⟨sum, s2, hloop, -⟩ := hloop
    have hwhile := evenWhile_eq mRand (c := ⟨0, 1, [0]⟩) (word mRand 0) 0 (Nat.zero_le _) hfuel
    rw [List.drop_zero, hloop, Option.map_some, hend] at hwhile
    rw [if_neg hodd, if_neg hodd, hloop]
    change Option.bind (evenWhile mRand input fuel ⟨0, 1, [0]⟩ (word mRand 0) 0) _ = _
    rw [hwhile]
    simp only [Option.bind_some, hlast, Nat.add_comm 1, hread,
      List.range_succ (n := input.length + 1)]
    rfl

end Follows

section Formula

open Finset

variable (mRand : Fin (l + 2) → Word) {input : List Byte}

/-- `m[0] + ∑ m[i] * s[i - 1] + m[n + 1]` modulo 2^64, for an input of `n`
bytes. -/
def formula (mRand : Fin (l + 2) → Word) (input : List Byte) (hlen : input.length ≤ l) : Word :=
  mRand 0 +
    ∑ i : Fin input.length, mRand ⟨i + 1, by omega⟩ * input[i].setWidth 64 +
      mRand ⟨input.length + 1, by omega⟩

theorem weigh_extended_eq (hlen : input.length ≤ l) :
    weigh mRand (extended input) 0 = formula mRand input hlen := by
  have hword (i : Nat) (hi : i < l + 2) : word mRand i = mRand ⟨i, hi⟩ := by
    simp [word, read, hi]
  have hbytes : weigh mRand (input.map (BitVec.setWidth 64)) 1 =
      ∑ i : Fin input.length, mRand ⟨i + 1, by omega⟩ * input[i].setWidth 64 := by
    rw [weigh_eq_sum, List.length_map, Finset.sum_range]
    refine Finset.sum_congr rfl fun i _ => ?_
    rw [Nat.add_comm 1, hword (i + 1) (by omega), mul_comm]
    simp
  rw [extended, List.cons_append, weigh, weigh_append, hbytes, formula, ← add_assoc]
  simp only [weigh, mul_one, add_zero, List.length_map]
  rw [hword 0 (by omega), hword _ (show 0 + 1 + input.length < l + 2 by omega)]
  congr 2
  simp [Nat.add_comm]

/-- Both paths return bits 32 to 63 of the formula, end with `bytes` at the
end of the input and read the keys up to that after the last byte's, and no
other. The parity of the length selects the path and does not show in the
result. -/
theorem apply_eq_formula {fuel : Nat} (hlen : input.length ≤ l) (hfuel : input.length < fuel) :
    apply mRand input fuel =
      some (⟨input.length, input.length + 1, List.range (input.length + 2)⟩,
        (formula mRand input hlen).extractLsb' 32 32) := by
  rw [apply_eq mRand hlen hfuel, hash_eq mRand hlen, weigh_extended_eq mRand hlen, Option.map_some]
  rfl

theorem apply_eq_formula_threeBytes :
    apply (l := 3) ![1, 2, 3, 4, 5] [10, 20, 30] 4 =
      some (⟨3, 4, [0, 1, 2, 3, 4]⟩,
        (formula (l := 3) ![1, 2, 3, 4, 5] [10, 20, 30] (by decide)).extractLsb' 32 32) :=
  apply_eq_formula _ (by decide) (by decide)

end Formula

end Libni.Hash.MultiLinearDoubleHash
