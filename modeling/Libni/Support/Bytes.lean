import Mathlib.Data.BitVec
import Mathlib.Logic.Basic

/-!
Words in a memory of bytes, low byte first. A word is determined by its bytes, so
a stretch of memory filled with one byte reads as a given word exactly if all bytes
of the word are that byte.
-/

namespace Libni.Support

/-- Byte `j` of a word, counted from the low end. -/
def byte {n : Nat} (x : BitVec n) (j : Nat) : BitVec 8 := x.extractLsb' (8 * j) 8

section Byte

variable {n w : Nat} {x y : BitVec (8 * w)}

theorem getLsbD_byte (x : BitVec n) (j : Nat) {i : Nat} (hi : i < 8) :
    (byte x j).getLsbD i = x.getLsbD (8 * j + i) := by
  rw [byte, BitVec.getLsbD_extractLsb', decide_eq_true hi, Bool.true_and]

theorem byte_zero (x : BitVec n) : byte x 0 = x.setWidth 8 := by
  apply BitVec.eq_of_getLsbD_eq
  intro i hi
  rw [getLsbD_byte x 0 hi, BitVec.getLsbD_setWidth, decide_eq_true hi, Bool.true_and,
    Nat.mul_zero, Nat.zero_add]

theorem eq_of_bytes (h : ∀ j < w, byte x j = byte y j) : x = y := by
  apply BitVec.eq_of_getLsbD_eq
  intro i hi
  have hbit := congrArg (fun b => b.getLsbD (i % 8)) (h (i / 8) (by omega))
  have hmod : i % 8 < 8 := Nat.mod_lt i (by decide)
  simpa only [getLsbD_byte _ _ hmod, Nat.div_add_mod] using hbit

/-- All bytes of a word are its low byte. These are the words that a `memset`
can write. -/
def SameBytes (x : BitVec (8 * w)) : Prop := ∀ j < w, byte x j = byte x 0

instance (x : BitVec (8 * w)) : Decidable (SameBytes x) :=
  inferInstanceAs (Decidable (∀ j < w, byte x j = byte x 0))

theorem sameBytes_of_le_one (hw : w ≤ 1) : SameBytes x := by
  intro j hj
  obtain rfl : j = 0 := by omega
  rfl

/-- A word of equal bits, all of them clear or all of them set. -/
theorem sameBytes_of_bits {c : Bool} (h : ∀ i < 8 * w, x.getLsbD i = c) : SameBytes x := by
  intro j hj
  apply BitVec.eq_of_getLsbD_eq
  intro i hi
  rw [getLsbD_byte x j hi, getLsbD_byte x 0 hi, h _ (by omega), h _ (by omega)]

theorem sameBytes_zero : SameBytes (0#(8 * w)) :=
  sameBytes_of_bits fun _ _ => BitVec.getLsbD_zero

/-- All bytes that a sign extension adds are filled with the sign bit, so only
0 and -1 are extended to words of equal bytes. The low byte of any other value
differs from one of those above it. -/
theorem sameBytes_signExtend_iff {v : Nat} {x : BitVec (8 * v)} (hv : 0 < v) (hw : v < w) :
    SameBytes (x.signExtend (8 * w)) ↔ x = 0#(8 * v) ∨ x = BitVec.allOnes (8 * v) := by
  have hbit {i : Nat} (hi : i < 8 * w) : (x.signExtend (8 * w)).getLsbD i =
      if i < 8 * v then x.getLsbD i else x.msb := by
    rw [BitVec.getLsbD_signExtend, decide_eq_true hi, Bool.true_and]
  constructor
  · intro h
    have hsign {i : Nat} (hi : i < 8 * v) : x.getLsbD i = x.msb := by
      have hmod : i % 8 < 8 := Nat.mod_lt i (by decide)
      have hbyte : byte (x.signExtend (8 * w)) (i / 8) = byte (x.signExtend (8 * w)) v :=
        (h _ (by omega)).trans (h v hw).symm
      have hequal := congrArg (fun b => b.getLsbD (i % 8)) hbyte
      simp only [getLsbD_byte _ _ hmod, Nat.div_add_mod] at hequal
      rwa [hbit (by omega), if_pos hi, hbit (by omega), if_neg (by omega)] at hequal
    cases hmsb : x.msb with
    | false =>
        left
        apply BitVec.eq_of_getLsbD_eq
        intro i hi
        rw [hsign hi, hmsb, BitVec.getLsbD_zero]
    | true =>
        right
        apply BitVec.eq_of_getLsbD_eq
        intro i hi
        rw [hsign hi, hmsb, BitVec.getLsbD_allOnes, decide_eq_true hi]
  · rintro (rfl | rfl)
    · apply sameBytes_of_bits (c := false)
      intro i hi
      rw [hbit hi, BitVec.getLsbD_zero, BitVec.msb_zero, ite_self]
    · apply sameBytes_of_bits (c := true)
      intro i hi
      rw [hbit hi]
      split
      · next hlt => rw [BitVec.getLsbD_allOnes, decide_eq_true hlt]
      · exact BitVec.msb_allOnes (by omega)

end Byte

abbrev Bytes := Nat → BitVec 8

namespace Bytes

/-- The word of `w` bytes at address `a`, the byte at `a` being the low one. -/
def load : (w : Nat) → Bytes → Nat → BitVec (8 * w)
  | 0, _, _ => 0#0
  | w + 1, m, a => (m (a + w) ++ load w m a).cast (Nat.add_comm 8 (8 * w))

variable {w : Nat} (m : Bytes)

def store (a : Nat) (x : BitVec (8 * w)) : Bytes :=
  fun b => if a ≤ b ∧ b < a + w then byte x (b - a) else m b

/-- `count` bytes from address `a` on become `c`, as after `memset`. The other
bytes stay. -/
def fill (a count : Nat) (c : BitVec 8) : Bytes :=
  fun b => if a ≤ b ∧ b < a + count then c else m b

variable {m} {a b count j : Nat} {c : BitVec 8} {x : BitVec (8 * w)}

theorem byte_load (hj : j < w) : byte (load w m a) j = m (a + j) := by
  induction w with
  | zero => exact absurd hj (Nat.not_lt_zero j)
  | succ w ih =>
      apply BitVec.eq_of_getLsbD_eq
      intro i hi
      rw [getLsbD_byte _ _ hi, load, BitVec.getLsbD_cast, BitVec.getLsbD_append]
      rcases Nat.lt_succ_iff_lt_or_eq.mp hj with hlt | rfl
      · rw [if_pos (by omega), ← getLsbD_byte _ _ hi, ih hlt]
      · rw [if_neg (by omega), Nat.add_sub_cancel_left]

/-- A stretch of memory reads as a word exactly if each byte in it is the one
of the word. -/
theorem load_eq_iff : load w m a = x ↔ ∀ j < w, m (a + j) = byte x j := by
  constructor
  · rintro rfl j hj
    exact (byte_load hj).symm
  · intro h
    apply eq_of_bytes
    intro j hj
    rw [byte_load hj, h j hj]

theorem load_store : load w (m.store a x) a = x := by
  refine load_eq_iff.mpr fun j hj => ?_
  rw [store, if_pos (by omega), Nat.add_sub_cancel_left]

/-- A store leaves the other words alone, if they share no byte with it. -/
theorem load_store_of_apart (h : b + w ≤ a ∨ a + w ≤ b) :
    load w (m.store a x) b = load w m b := by
  refine load_eq_iff.mpr fun j hj => ?_
  rw [store, if_neg (by omega), byte_load hj]

/-- What a word filled with a byte of `x` reads as: `x` itself only if all its
bytes are that byte. -/
theorem load_fill_iff (ha : b ≤ a) (hle : a + w ≤ b + count) :
    load w (m.fill b count (byte x 0)) a = x ↔ SameBytes x := by
  have hfill (j : Nat) (hj : j < w) : m.fill b count (byte x 0) (a + j) = byte x 0 :=
    if_pos (by omega)
  rw [load_eq_iff]
  exact forall₂_congr fun j hj => by rw [hfill j hj, eq_comm]

end Bytes

end Libni.Support
