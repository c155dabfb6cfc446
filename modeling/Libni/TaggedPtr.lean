import Mathlib.Data.BitVec
import Mathlib.Tactic

/-!
Tagged pointers: a 48-bit address and a 16-bit tag in one 64-bit word, so that
one compare-exchange covers both. The queues below use the two-field view
`TaggedPtr`; this module shows that for addresses below 2^48, which is what the
source asserts, the word and the two fields determine each other. Comparing raw
words is then comparing both fields.
-/

namespace Libni

/-- The word stored by the source, which is also what its comparisons and
exchanges look at. -/
structure RawTaggedPtr where
  rawValue : BitVec 64
  deriving DecidableEq, Repr

namespace RawTaggedPtr

def valueBits : Nat := 48

def valueMask : BitVec 64 := (1#64 <<< valueBits) - 1#64

def tagMask : BitVec 64 := ~~~valueMask

/-- The constructor from a pointer and a tag. Bits of an address above the
48th would mix with the tag; the assertion excludes them. -/
def make (value : BitVec 64) (tag : BitVec 16) : RawTaggedPtr :=
  ⟨value ||| (tag.setWidth 64 <<< valueBits)⟩

def value (p : RawTaggedPtr) : BitVec 64 := p.rawValue &&& valueMask

def tag (p : RawTaggedPtr) : BitVec 16 := (p.rawValue >>> valueBits).setWidth 16

def setValue (p : RawTaggedPtr) (value : BitVec 64) : RawTaggedPtr :=
  ⟨value ||| (p.rawValue &&& tagMask)⟩

def setTag (p : RawTaggedPtr) (tag : BitVec 16) : RawTaggedPtr :=
  ⟨(p.rawValue &&& valueMask) ||| (tag.setWidth 64 <<< valueBits)⟩

def clearTag (p : RawTaggedPtr) : RawTaggedPtr := ⟨p.rawValue &&& valueMask⟩

theorem getLsbD_valueMask (i : Nat) : valueMask.getLsbD i = decide (i < 48) := by
  have hmask : valueMask = BitVec.setWidth 64 (BitVec.allOnes 48) := by decide
  rw [hmask, BitVec.getLsbD_setWidth, BitVec.getLsbD_allOnes]
  simp only [Bool.and_eq_right_iff_imp, decide_eq_true_eq]
  omega

/-- An address the constructor's assertion accepts has no bit at or above 48. -/
theorem getLsbD_of_lt {v : BitVec 64} (hv : v.toNat < 2 ^ 48) {i : Nat} (hi : 48 ≤ i) :
    v.getLsbD i = false := by
  rw [BitVec.getLsbD, Nat.testBit_lt_two_pow]
  exact lt_of_lt_of_le hv (Nat.pow_le_pow_right (by omega) hi)

/-- The address comes back out of the word, if it is one the assertion
accepts. -/
theorem value_make {v : BitVec 64} (t : BitVec 16) (hv : v.toNat < 2 ^ 48) :
    (make v t).value = v := by
  apply BitVec.eq_of_getLsbD_eq
  intro i hi
  by_cases h48 : i < 48
  · simp [make, value, valueBits, getLsbD_valueMask, h48]
  · simp [make, value, valueBits, getLsbD_valueMask, h48,
      getLsbD_of_lt hv (by omega : 48 ≤ i)]

/-- The tag comes back out of the word under the same condition. -/
theorem tag_make {v : BitVec 64} (t : BitVec 16) (hv : v.toNat < 2 ^ 48) :
    (make v t).tag = t := by
  apply BitVec.eq_of_getLsbD_eq
  intro i hi
  have hlow : v.getLsbD (48 + i) = false := getLsbD_of_lt hv (by omega)
  rw [BitVec.getLsbD_eq_getElem (by omega)] at hlow
  simp [make, tag, valueBits, hlow, hi, show 48 + i < 64 by omega]

/-- Every word is that of its own two fields, so the constructor from a raw
word adds no pointer that the other one cannot build. -/
theorem make_value_tag (p : RawTaggedPtr) : make p.value p.tag = p := by
  have hbits : p.value ||| (p.tag.setWidth 64 <<< valueBits) = p.rawValue := by
    apply BitVec.eq_of_getLsbD_eq
    intro i hi
    by_cases h48 : i < 48
    · simp [value, tag, valueBits, getLsbD_valueMask, h48]
    · simp +contextual [value, tag, valueBits, h48, hi,
        show i - 48 < 16 by omega, show i - 48 < 64 by omega,
        show 48 + (i - 48) = i by omega]
  simp [make, hbits]

theorem setTag_eq_make (p : RawTaggedPtr) (t : BitVec 16) : p.setTag t = make p.value t := rfl

theorem clearTag_eq_make (p : RawTaggedPtr) : p.clearTag = make p.value 0 := by
  simp [clearTag, make, value]

theorem value_lt (p : RawTaggedPtr) : p.value.toNat < 2 ^ 48 := by
  have hmask : valueMask.toNat = 2 ^ 48 - 1 := by decide
  rw [value, BitVec.toNat_and, hmask, Nat.and_two_pow_sub_one_eq_mod]
  exact Nat.mod_lt _ (by positivity)

theorem value_clearTag (p : RawTaggedPtr) : p.clearTag.value = p.value := by
  rw [clearTag_eq_make, value_make _ p.value_lt]

theorem tag_clearTag (p : RawTaggedPtr) : p.clearTag.tag = 0 := by
  rw [clearTag_eq_make, tag_make _ p.value_lt]

end RawTaggedPtr

/-- The two fields of a tagged pointer, the address as a number. The queues
are stated over these. -/
structure TaggedPtr where
  value : Nat
  tag : BitVec 16
  deriving DecidableEq, Repr

namespace TaggedPtr

/-- The default constructor: a null pointer with tag 0. -/
def null : TaggedPtr := ⟨0, 0⟩

@[simp] theorem null_value : null.value = 0 := rfl

@[simp] theorem null_tag : null.tag = 0 := rfl

/-- The word of the two fields. -/
def toRaw (p : TaggedPtr) : RawTaggedPtr := .make (BitVec.ofNat 64 p.value) p.tag

/-- On addresses of 48 bits the comparison of raw words in `operator==` and in
the compare-exchanges is equality of both fields. -/
theorem toRaw_eq_iff {p q : TaggedPtr} (hp : p.value < 2 ^ 48) (hq : q.value < 2 ^ 48) :
    p.toRaw = q.toRaw ↔ p = q := by
  have hwide (n : Nat) (hn : n < 2 ^ 48) : (BitVec.ofNat 64 n).toNat = n := by
    rw [BitVec.toNat_ofNat, Nat.mod_eq_of_lt (by omega)]
  constructor
  · intro h
    have hpv := hwide p.value hp
    have hqv := hwide q.value hq
    have hvalue : BitVec.ofNat 64 p.value = BitVec.ofNat 64 q.value :=
      calc
        BitVec.ofNat 64 p.value = p.toRaw.value :=
          (RawTaggedPtr.value_make p.tag (by rwa [hpv])).symm
        _ = q.toRaw.value := by rw [h]
        _ = BitVec.ofNat 64 q.value := RawTaggedPtr.value_make q.tag (by rwa [hqv])
    have htag : p.tag = q.tag :=
      calc
        p.tag = p.toRaw.tag := (RawTaggedPtr.tag_make p.tag (by rwa [hpv])).symm
        _ = q.toRaw.tag := by rw [h]
        _ = q.tag := RawTaggedPtr.tag_make q.tag (by rwa [hqv])
    have hnat : p.value = q.value := by rw [← hpv, ← hqv, hvalue]
    cases p
    cases q
    simp_all
  · rintro rfl
    rfl

end TaggedPtr

end Libni
