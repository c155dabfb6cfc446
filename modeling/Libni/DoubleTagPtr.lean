import Libni.TaggedPtr

/-!
Pointers with two tags: 16 bits above the address and, below it, as many bits as
the alignment leaves free. The second tag is read into an integer type that may
be signed, and goes through the integer conversions on its way back into the
word; that the three fields and the word determine each other depends on whether
the sign bit of that type is a bit of the tag.
-/

namespace Libni

/-- A signed or unsigned integer type of some width. The two tags may be of
different ones. -/
structure IntType where
  width : Nat
  signed : Bool
  width_pos : 0 < width

namespace IntType

variable (T : IntType)

def value (x : BitVec T.width) : Int := if T.signed then x.toInt else x.toNat

/-- Promotion and conversion to `uint64_t`: a signed value is sign extended,
an unsigned one is filled with zeros. -/
def toUInt64 (x : BitVec T.width) : BitVec 64 :=
  if T.signed then x.signExtend 64 else x.setWidth 64

variable {T}

/-- A value that is not negative is converted without a change. -/
theorem toNat_of_value {x : BitVec T.width} (hpos : 0 ≤ T.value x) :
    (x.toNat : Int) = T.value x ∧ T.toUInt64 x = x.setWidth 64 := by
  unfold value toUInt64 at *
  split at hpos
  · next hsigned =>
      have hmsb : x.msb = false := by
        rw [BitVec.msb_eq_false_iff_two_mul_lt]
        exact BitVec.toInt_pos_iff.mp hpos
      rw [if_pos hsigned, if_pos hsigned, BitVec.toInt_eq_toNat_of_msb hmsb,
        BitVec.signExtend_eq_setWidth_of_msb_false hmsb]
      exact ⟨rfl, rfl⟩
  · next hunsigned =>
      rw [if_neg hunsigned, if_neg hunsigned]
      exact ⟨rfl, rfl⟩

theorem getLsbD_toUInt64 (x : BitVec T.width) {i : Nat} (hi : i < 64) :
    (T.toUInt64 x).getLsbD i = if i < T.width then x.getLsbD i else T.signed && x.msb := by
  unfold toUInt64
  split
  · next hsigned =>
      rw [BitVec.getLsbD_signExtend, decide_eq_true hi, Bool.true_and, hsigned, Bool.true_and]
  · next hunsigned =>
      rw [BitVec.getLsbD_setWidth, decide_eq_true hi, Bool.true_and]
      split
      · rfl
      · next hge =>
          rw [BitVec.getLsbD_of_ge _ _ (Nat.le_of_not_lt hge), Bool.eq_false_of_not_eq_true hunsigned,
            Bool.false_and]

end IntType

/-- The template's parameters: the alignment is `2 ^ alignBits`, of which
`__builtin_ctz` takes an `unsigned int`, and the static assertion holds. -/
structure TagLayout where
  alignBits : Nat
  tag2 : IntType
  align_le : alignBits ≤ 31
  wide : alignBits ≤ tag2.width

structure DoubleTagPtr (L : TagLayout) where
  rawValue : BitVec 64
  deriving DecidableEq

namespace DoubleTagPtr

def valueBits : Nat := 48

variable {L : TagLayout}

variable (L) in
def tag2Bits : Nat := min valueBits L.alignBits

variable (L) in
def tag2Mask : BitVec 64 := (1#64 <<< tag2Bits L) - 1#64

variable (L) in
def valueMask : BitVec 64 := ((1#64 <<< valueBits) - 1#64) &&& ~~~tag2Mask L

/-- The constructor from a pointer and two tags. The second tag is converted
before it is merged, so that a negative one would set all the bits above it. -/
def make (value : BitVec 64) (tag1 : BitVec 16) (tag2 : BitVec L.tag2.width) : DoubleTagPtr L :=
  ⟨value ||| (tag1.setWidth 64 <<< valueBits) ||| L.tag2.toUInt64 tag2⟩

def value (p : DoubleTagPtr L) : BitVec 64 := p.rawValue &&& valueMask L

def tag1 (p : DoubleTagPtr L) : BitVec 16 := (p.rawValue >>> valueBits).setWidth 16

def tag2 (p : DoubleTagPtr L) : BitVec L.tag2.width :=
  (p.rawValue &&& tag2Mask L).setWidth L.tag2.width

theorem tag2Bits_eq : tag2Bits L = L.alignBits := by
  have hle := L.align_le
  unfold tag2Bits valueBits
  omega

theorem getLsbD_lowMask {n : Nat} (hn : n < 64) (i : Nat) :
    ((1#64 <<< n) - 1#64).getLsbD i = decide (i < n) := by
  have hlt : 2 ^ n < 2 ^ 64 := Nat.pow_lt_pow_right (by omega) hn
  have hpos : 0 < 2 ^ n := Nat.two_pow_pos n
  have htoNat : ((1#64 <<< n) - 1#64).toNat = 2 ^ n - 1 := by
    simp only [BitVec.toNat_sub, BitVec.toNat_shiftLeft, BitVec.toNat_ofNat, Nat.shiftLeft_eq]
    omega
  rw [BitVec.getLsbD, htoNat, Nat.testBit_two_pow_sub_one]

theorem getLsbD_tag2Mask (i : Nat) : (tag2Mask L).getLsbD i = decide (i < L.alignBits) := by
  have hle := L.align_le
  rw [tag2Mask, tag2Bits_eq, getLsbD_lowMask (by omega)]

theorem getLsbD_valueMask (i : Nat) :
    (valueMask L).getLsbD i = (decide (i < 48) && decide (L.alignBits ≤ i)) := by
  rw [valueMask, BitVec.getLsbD_and, BitVec.getLsbD_not, getLsbD_tag2Mask, valueBits,
    getLsbD_lowMask (by omega)]
  by_cases h48 : i < 48
  · rw [decide_eq_true h48, decide_eq_true (show i < 64 by omega), Bool.true_and, Bool.true_and,
      Bool.true_and, ← decide_not]
    congr 1
    rw [Nat.not_lt]
  · rw [decide_eq_false h48, Bool.false_and, Bool.false_and]

/-- An address and a second tag that fit the layout: 48 bits, aligned, and a
tag that is a number of `alignBits` bits. -/
structure Packable (value : BitVec 64) (tag2 : BitVec L.tag2.width) : Prop where
  value_lt : value.toNat < 2 ^ 48
  aligned : 2 ^ L.alignBits ∣ value.toNat
  tag2_nonneg : 0 ≤ L.tag2.value tag2
  tag2_lt : L.tag2.value tag2 < 2 ^ L.alignBits

section Packable

variable {v : BitVec 64} {t₁ : BitVec 16} {t₂ : BitVec L.tag2.width} {i : Nat}

theorem Packable.getLsbD_value (h : Packable v t₂) (hi : i < L.alignBits ∨ 48 ≤ i) :
    v.getLsbD i = false := by
  rcases hi with hi | hi
  · obtain ⟨m, hm⟩ := h.aligned
    rw [BitVec.getLsbD, hm, Nat.testBit_two_pow_mul]
    simp [Nat.not_le.mpr hi]
  · exact RawTaggedPtr.getLsbD_of_lt h.value_lt hi

theorem Packable.getLsbD_tag2 (h : Packable v t₂) (hi : L.alignBits ≤ i) :
    t₂.getLsbD i = false := by
  have hvalue := (IntType.toNat_of_value h.tag2_nonneg).1
  have hlt := h.tag2_lt
  rw [← hvalue] at hlt
  rw [BitVec.getLsbD, Nat.testBit_lt_two_pow]
  exact lt_of_lt_of_le (by exact_mod_cast hlt) (Nat.pow_le_pow_right (by omega) hi)

theorem Packable.getLsbD_make (h : Packable v t₂) (hi : i < 64) :
    (make v t₁ t₂).rawValue.getLsbD i =
      if i < L.alignBits then t₂.getLsbD i
      else if i < 48 then v.getLsbD i
      else t₁.getLsbD (i - 48) := by
  have hle := L.align_le
  simp only [make, (IntType.toNat_of_value h.tag2_nonneg).2, BitVec.getLsbD_or,
    BitVec.getLsbD_setWidth, BitVec.getLsbD_shiftLeft, valueBits, hi]
  split
  · next hlow =>
      rw [h.getLsbD_value (.inl hlow)]
      simp [show i < 48 by omega]
  · next hlow =>
      rw [h.getLsbD_tag2 (by omega)]
      split
      · next hmid => simp [hmid]
      · next hhigh =>
          rw [h.getLsbD_value (.inr (by omega))]
          simp [hhigh, show i - 48 < 64 by omega]

theorem value_make (h : Packable v t₂) : (make v t₁ t₂).value = v := by
  apply BitVec.eq_of_getLsbD_eq
  intro i hi
  rw [value, BitVec.getLsbD_and, getLsbD_valueMask, h.getLsbD_make hi]
  by_cases hmid : L.alignBits ≤ i ∧ i < 48
  · simp [hmid, Nat.not_lt.mpr hmid.1]
  · rw [h.getLsbD_value (by omega)]
    have hout : (decide (i < 48) && decide (L.alignBits ≤ i)) = false := by
      simp
      omega
    rw [hout, Bool.and_false]

theorem tag1_make (h : Packable v t₂) : (make v t₁ t₂).tag1 = t₁ := by
  have hle := L.align_le
  apply BitVec.eq_of_getLsbD_eq
  intro i hi
  rw [tag1, BitVec.getLsbD_setWidth, BitVec.getLsbD_ushiftRight, valueBits,
    h.getLsbD_make (by omega), if_neg (by omega), if_neg (by omega)]
  simp [hi]

theorem tag2_make (h : Packable v t₂) : (make v t₁ t₂).tag2 = t₂ := by
  have hle := L.align_le
  apply BitVec.eq_of_getLsbD_eq
  intro i hi
  rw [tag2, BitVec.getLsbD_setWidth, BitVec.getLsbD_and, getLsbD_tag2Mask]
  by_cases hlow : i < L.alignBits
  · rw [h.getLsbD_make (by omega)]
    simp [hi, hlow]
  · rw [h.getLsbD_tag2 (by omega)]
    simp [hlow]

end Packable

/-- The sign of the second tag: its type has no bit above the tag, so that the
tag's top bit is read as the sign. -/
def negative (p : DoubleTagPtr L) : Bool :=
  L.tag2.signed && decide (L.tag2.width = L.alignBits) && p.rawValue.getLsbD (L.alignBits - 1)

theorem msb_tag2 (p : DoubleTagPtr L) :
    (L.tag2.signed && p.tag2.msb) = p.negative := by
  have hle := L.wide
  have hpos := L.tag2.width_pos
  rw [tag2, BitVec.msb_setWidth, BitVec.getLsbD_and, getLsbD_tag2Mask, negative]
  by_cases hwidth : L.tag2.width = L.alignBits
  · simp [hwidth, show 0 < L.alignBits by omega]
  · simp [hwidth, show ¬ L.tag2.width - 1 < L.alignBits by omega]

theorem getLsbD_toUInt64_tag2 (p : DoubleTagPtr L) {i : Nat} (hi : i < 64) :
    (L.tag2.toUInt64 p.tag2).getLsbD i =
      if i < L.alignBits then p.rawValue.getLsbD i else p.negative := by
  have hwide := L.wide
  rw [IntType.getLsbD_toUInt64 _ hi, msb_tag2, tag2, BitVec.getLsbD_setWidth, BitVec.getLsbD_and,
    getLsbD_tag2Mask]
  by_cases hlow : i < L.alignBits
  · simp [hlow, show i < L.tag2.width by omega]
  · rw [if_neg hlow, decide_eq_false hlow, Bool.and_false, Bool.and_false]
    split
    · next hwidth =>
        -- the type has a bit above the tag, so its sign is positive
        have hne : L.tag2.width ≠ L.alignBits := by omega
        simp [negative, hne]
    · rfl

/-- Putting the fields of a word together again gives the word, apart from the
bits that a negative second tag sets. -/
theorem getLsbD_make_fields (p : DoubleTagPtr L) {i : Nat} (hi : i < 64) :
    (make p.value p.tag1 p.tag2).rawValue.getLsbD i =
      (p.rawValue.getLsbD i || decide (L.alignBits ≤ i) && p.negative) := by
  have hle := L.align_le
  rw [make, BitVec.getLsbD_or, BitVec.getLsbD_or, getLsbD_toUInt64_tag2 p hi, value,
    BitVec.getLsbD_and, getLsbD_valueMask, BitVec.getLsbD_shiftLeft, BitVec.getLsbD_setWidth,
    tag1, BitVec.getLsbD_setWidth, BitVec.getLsbD_ushiftRight, valueBits]
  by_cases hlow : i < L.alignBits
  · simp [hlow, show i < 48 by omega, Nat.not_le.mpr hlow]
  · by_cases hmid : i < 48
    · simp [hlow, hmid, Nat.le_of_not_lt hlow]
    · simp [hlow, hmid, hi, Nat.le_of_not_lt hlow, show i - 48 < 64 by omega,
        show i - 48 < 16 by omega, show 48 + (i - 48) = i by omega]

/-- The word has a zero that the sign of the second tag overwrites. The source
joins the fields with `|`, after a negative tag has been extended by its sign. -/
def SignExtended (p : DoubleTagPtr L) : Prop :=
  L.tag2.signed = true ∧ L.tag2.width = L.alignBits ∧
    p.rawValue.getLsbD (L.alignBits - 1) = true ∧
      ∃ i < 64, L.alignBits ≤ i ∧ p.rawValue.getLsbD i = false

/-- A word is that of its own fields unless the sign of its second tag
overwrites one of its zeros. -/
theorem make_fields_iff (p : DoubleTagPtr L) :
    make p.value p.tag1 p.tag2 = p ↔ ¬ p.SignExtended := by
  constructor
  · rintro heq ⟨hsigned, hwidth, hbit, i, hi, hge, hzero⟩
    have hmake := getLsbD_make_fields p hi
    rw [heq, hzero] at hmake
    simp [negative, hsigned, hwidth, hbit, hge] at hmake
  · intro hnot
    have hbits : (make p.value p.tag1 p.tag2).rawValue = p.rawValue := by
      apply BitVec.eq_of_getLsbD_eq
      intro i hi
      rw [getLsbD_make_fields p hi]
      by_contra hne
      have hlost : p.rawValue.getLsbD i = false ∧ L.alignBits ≤ i ∧ p.negative = true := by
        cases hzero : p.rawValue.getLsbD i with
        | true => simp [hzero] at hne
        | false => simpa [hzero] using hne
      obtain ⟨hzero, hge, hneg⟩ := hlost
      simp only [negative, Bool.and_eq_true, decide_eq_true_eq] at hneg
      exact hnot ⟨hneg.1.1, hneg.1.2, hneg.2, i, hi, hge, hzero⟩
    cases p
    simpa [make] using hbits

variable (L) in
/-- The constructor followed by the three readers is the identity, for all
fields that fit. -/
def FieldsPacked : Prop :=
  ∀ (v : BitVec 64) (t₁ : BitVec 16) (t₂ : BitVec L.tag2.width), Packable v t₂ →
    (make v t₁ t₂).value = v ∧ (make v t₁ t₂).tag1 = t₁ ∧ (make v t₁ t₂).tag2 = t₂

/-- Fields and words determine each other, up to a sign that is extended. The
first half holds in every layout; the second fails for the words that are sign
extended and for no others. -/
theorem packing_bijective_iff (p : DoubleTagPtr L) :
    FieldsPacked L ∧ make p.value p.tag1 p.tag2 = p ↔ ¬ p.SignExtended := by
  rw [← make_fields_iff]
  constructor
  · rintro ⟨-, hword⟩
    exact hword
  · intro hword
    exact ⟨fun _ _ _ h => ⟨value_make h, tag1_make h, tag2_make h⟩, hword⟩

/-- `int8_t` with an alignment of 256. -/
def signedByte : TagLayout where
  alignBits := 8
  tag2 := { width := 8, signed := true, width_pos := by decide }
  align_le := by decide
  wide := by decide

/-- The tag -128 of the word 0x80, whose sign would fill the address. -/
theorem make_fields_signedByte :
    ¬ (FieldsPacked signedByte ∧
      let p : DoubleTagPtr signedByte := ⟨0x80⟩
      make p.value p.tag1 p.tag2 = p) := by
  rintro ⟨-, hword⟩
  have hraw := congrArg rawValue hword
  revert hraw
  decide

end DoubleTagPtr

end Libni
