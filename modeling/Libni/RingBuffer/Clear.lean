import Libni.Support.Bytes
import Libni.RingBuffer.Sequential

/-!
The two ways of clearing a ring buffer of integers. A class given as `Fill` with an
integral `value_type` selects `memset`, which sets every byte of every slot to the low
byte of the filler's value; with any other `Fill`, the slots are set to `Empty` one by one.
The two agree exactly for an `Empty` whose bytes are all the same.
-/

namespace Libni.RingBuffer

open Libni.Support

/-- The type arguments that the specialisations of the filler tell apart. -/
inductive TypeArg where
  | void
  /-- The type of the elements. -/
  | element
  /-- `std::integral_constant<int, value>`. -/
  | integralConstant (value : BitVec 32)
  /-- A type without an integral `value_type`. -/
  | other

/-- The `value` of a filler. -/
inductive Filler where
  | unit
  | int (value : BitVec 32)

/-- An integer type of `w` bytes, signed or not, is given by its bits: an
`int` converted to it is sign extended or cut off. -/
def convert (w : Nat) (value : BitVec 32) : BitVec (8 * w) := value.signExtend (8 * w)

section Clear

variable {w : Nat}

/-- `SPSCRingBufferFiller<T, Empty, Fill, Enabled>`. The second of the three
asks for `Enabled` to be the type of the elements; its `reinterpret_cast<int>`
compiles for `int` only. -/
def filler (empty : BitVec (8 * w)) : TypeArg → TypeArg → Filler
  | .element, .element => .int (empty.signExtend 32)
  | .integralConstant value, .void => .int value
  | _, _ => .unit

/-- The loop over the slots from slot `i` on, with `n` slots to go. An atomic
is as large as its value, and the array fits the address space. -/
def storeFrom (element : BitVec (8 * w)) : Nat → Nat → Bytes → Bytes
  | 0, _, m => m
  | n + 1, i, m => storeFrom element n (i + 1) (m.store (w * i) element)

/-- `clear(Unit, initialized)`; new atomics are zero before `Empty` is stored
in them. -/
def clearUnit (empty : BitVec (8 * w)) (size : Nat) (initialized : Bool) (m : Bytes) : Bytes :=
  storeFrom empty size 0 (if initialized then m else storeFrom 0#(8 * w) size 0 m)

/-- `clear(int, bool)`: one `memset` with the low byte of the value. -/
def clearInt (w size : Nat) (value : BitVec 32) (m : Bytes) : Bytes :=
  m.fill 0 (w * size) (value.setWidth 8)

def clear (empty : BitVec (8 * w)) (size : Nat) (initialized : Bool) (m : Bytes) : Filler → Bytes
  | .unit => clearUnit empty size initialized m
  | .int value => clearInt w size value m

variable {empty element : BitVec (8 * w)} {size i : Nat} {initialized : Bool} {m : Bytes}
  {value : BitVec 32}

theorem load_storeFrom (n k : Nat) : (storeFrom element n i m).load w (w * k) =
    if i ≤ k ∧ k < i + n then element else m.load w (w * k) := by
  induction n generalizing i m with
  | zero => rw [storeFrom, if_neg (by omega)]
  | succ n ih =>
      rw [storeFrom, ih]
      by_cases hk : k = i
      · subst hk
        rw [if_neg (by omega), if_pos (by omega), Bytes.load_store]
      · have hapart : w * k + w ≤ w * i ∨ w * i + w ≤ w * k := by
          rcases Nat.lt_or_gt_of_ne hk with hlt | hgt
          · exact .inl (Nat.mul_le_mul_left w hlt)
          · exact .inr (Nat.mul_le_mul_left w hgt)
        rw [Bytes.load_store_of_apart hapart]
        exact if_congr (by omega) rfl rfl

theorem load_clearUnit (hi : i < size) :
    (clearUnit empty size initialized m).load w (w * i) = empty := by
  rw [clearUnit, load_storeFrom, if_pos ⟨Nat.zero_le i, by omega⟩]

theorem byte_convert (hw : 0 < w) : byte (convert w value) 0 = value.setWidth 8 := by
  rw [byte_zero]
  apply BitVec.eq_of_getLsbD_eq
  intro i hi
  rw [BitVec.getLsbD_setWidth, BitVec.getLsbD_setWidth, convert, BitVec.getLsbD_signExtend,
    decide_eq_true (show i < 8 * w by omega), if_pos (by omega), Bool.true_and]

/-- What `memset` with a value that converts to `Empty` leaves in a slot:
`Empty` itself only if its bytes are all the same. -/
theorem load_clearInt_iff (hvalue : convert w value = empty) (hi : i < size) :
    (clearInt w size value m).load w (w * i) = empty ↔ SameBytes empty := by
  rcases Nat.eq_zero_or_pos w with rfl | hw
  · exact iff_of_true (BitVec.eq_of_zero_length rfl) (sameBytes_of_le_one (Nat.zero_le 1))
  · have hslot : w * i + w ≤ 0 + w * size := by
      rw [Nat.zero_add]
      exact Nat.mul_le_mul_left w hi
    rw [clearInt, ← byte_convert hw, hvalue]
    exact Bytes.load_fill_iff (Nat.zero_le _) hslot

/-- For a type wider than `int`, 0 and -1 are the values that `memset` is
right for, because the sign extension fills the bytes above. -/
theorem sameBytes_convert_iff (hw : 4 < w) :
    SameBytes (convert w value) ↔ value = 0#32 ∨ value = BitVec.allOnes 32 :=
  sameBytes_signExtend_iff (v := 4) (by decide) hw

/-- A filler with which `clear` leaves every slot `Empty`. The loop over the
slots stores `Empty` itself; `memset` needs a value that converts to it, and
equal bytes. -/
def Filler.Suits (empty : BitVec (8 * w)) : Filler → Prop
  | .unit => True
  | .int value => convert w value = empty ∧ SameBytes empty

theorem Filler.Suits.load_clear {f : Filler} (h : f.Suits empty) (hi : i < size) :
    (clear empty size initialized m f).load w (w * i) = empty := by
  cases f with
  | unit => exact load_clearUnit hi
  | int value => exact (load_clearInt_iff h.1 hi).mpr h.2

end Clear

/-- A ring buffer whose slots are `w` bytes each; `bytes` starts at `m_buf`,
and the mask is that of the size. -/
structure ByteRing (w : Nat) where
  size : Nat
  writeIndex : Nat
  readIndex : Nat
  bytes : Bytes
  size_pow : ∃ k, size = 2 ^ (k + 1)

namespace ByteRing

variable {w : Nat} (empty : BitVec (8 * w)) (fill : TypeArg)

/-- The constructor, with the memory that `posix_memalign` hands out, whatever
it holds. -/
def create (size : Nat) (h : ∃ k, size = 2 ^ (k + 1)) (m : Bytes) : ByteRing w where
  size := size
  writeIndex := 0
  readIndex := 0
  bytes := clear empty size false m (filler empty fill .void)
  size_pow := h

def reset (b : ByteRing w) : ByteRing w :=
  { b with
    readIndex := 0
    writeIndex := 0
    bytes := clear empty b.size true b.bytes (filler empty fill .void) }

/-- The ring buffer that the bytes stand for, slot by slot. -/
def ring (b : ByteRing w) : Ring (BitVec (8 * w)) where
  size := b.size
  mask := b.size - 1
  writeIndex := b.writeIndex
  readIndex := b.readIndex
  buf i := b.bytes.load w (w * i)
  size_pow := b.size_pow
  mask_eq := rfl

variable {empty fill} {b : ByteRing w} {size : Nat} {h : ∃ k, size = 2 ^ (k + 1)} {m : Bytes}

/-- With every slot `Empty` and the indices at 0 the ring buffer holds
nothing. -/
theorem holds_nil (hwrite : b.writeIndex = 0) (hread : b.readIndex = 0)
    (hslots : ∀ i < b.size, b.bytes.load w (w * i) = empty) : Holds empty b.ring [] := by
  have hpos : 0 < b.size := b.ring.size_pos
  refine ⟨?_, ?_, Nat.zero_le _, fun i hi => ?_, by simp⟩
  · change b.readIndex < b.size
    rw [hread]
    exact hpos
  · change b.writeIndex = (b.readIndex + 0) % b.size
    rw [hwrite, hread, Nat.zero_mod]
  · exact hslots _ (Nat.mod_lt _ hpos)

/-- A constructor whose filler suits `Empty` makes an empty buffer. -/
theorem holds_create (hfill : (filler empty fill .void).Suits empty) :
    Holds empty (create empty fill size h m).ring [] :=
  holds_nil rfl rfl fun _ hi => hfill.load_clear hi

theorem holds_reset (hfill : (filler empty fill .void).Suits empty) :
    Holds empty (b.reset empty fill).ring [] :=
  holds_nil rfl rfl fun _ hi => hfill.load_clear hi

/-- `SPSCPtrRingBuffer`: pointers of eight bytes, `nullptr` and the filler 0. -/
theorem holds_create_null :
    Holds 0#(8 * 8) (create 0#(8 * 8) (.integralConstant 0#32) size h m).ring [] := by
  apply holds_create
  exact ⟨by decide, sameBytes_zero⟩

end ByteRing

section Main

variable {w : Nat} {empty : BitVec (8 * w)} {value : BitVec 32} {b : ByteRing w}

/-- A buffer is seen to be empty and to have room. This is what a user can
find out through the interface. -/
def ByteRing.Blank (empty : BitVec (8 * w)) (b : ByteRing w) : Prop :=
  b.ring.isEmpty empty = true ∧ b.ring.available empty = true

theorem ByteRing.blank_of_holds (h : Holds empty b.ring []) : b.Blank empty :=
  ⟨h.isEmpty_iff.mpr rfl, h.available_iff.mpr b.ring.size_pos⟩

/-- The two overloads of `clear` leave the same contents, and no constructor
or `reset` depends on which of them its filler selects. The memory is any
memory, also that of a new buffer. -/
structure ClearsAgree (empty : BitVec (8 * w)) (value : BitVec 32) (b : ByteRing w) : Prop where
  same : ∀ initialized, ∀ i < b.size, (clearInt w b.size value b.bytes).load w (w * i) =
    (clearUnit empty b.size initialized b.bytes).load w (w * i)
  cleared : ∀ i < b.size, (clearInt w b.size value b.bytes).load w (w * i) = empty
  created : ∀ fill, filler empty fill .void = .unit ∨ filler empty fill .void = .int value →
    (ByteRing.create empty fill b.size b.size_pow b.bytes).Blank empty
  reset : ∀ fill, filler empty fill .void = .unit ∨ filler empty fill .void = .int value →
    (b.reset empty fill).Blank empty

/-- Clearing with a filler that converts to `Empty` is right for the values of
equal bytes. For any other value `memset` leaves the low byte repeated, which
is not `Empty`, in every slot. -/
theorem clears_agree_iff (hvalue : convert w value = empty) :
    ClearsAgree empty value b ↔ SameBytes empty := by
  constructor
  · intro h
    have hpos : 0 < b.size := b.ring.size_pos
    exact (load_clearInt_iff hvalue hpos).mp (h.cleared 0 hpos)
  · intro hsame
    have hcleared (i : Nat) (hi : i < b.size) :
        (clearInt w b.size value b.bytes).load w (w * i) = empty :=
      (load_clearInt_iff hvalue hi).mpr hsame
    have hsuits (fill : TypeArg) (hfill : filler empty fill .void = .unit ∨
        filler empty fill .void = .int value) : (filler empty fill .void).Suits empty := by
      rcases hfill with heq | heq
      · rw [heq]
        trivial
      · rw [heq]
        exact ⟨hvalue, hsame⟩
    refine ⟨fun initialized i hi => ?_, hcleared, fun fill hfill => ?_, fun fill hfill => ?_⟩
    · rw [hcleared i hi, load_clearUnit hi]
    · exact ByteRing.blank_of_holds (ByteRing.holds_create (hsuits fill hfill))
    · exact ByteRing.blank_of_holds (ByteRing.holds_reset (hsuits fill hfill))

def freshRing (w : Nat) : ByteRing w := ⟨2, 0, 0, fun _ => 0, Ring.two_eq_pow⟩

/-- A buffer of `int` with the `Empty` value -1. -/
theorem clears_agree_minusOne : SameBytes (BitVec.allOnes (8 * 4)) ∧
    ClearsAgree (BitVec.allOnes (8 * 4)) (BitVec.allOnes 32) (freshRing 4) :=
  ⟨by decide, (clears_agree_iff (by decide)).mpr (by decide)⟩

/-- With 1 for `Empty`, every slot of a buffer of `int` becomes 0x01010101, so
that the buffer is full after `reset`. -/
theorem memset_leaves_full : ¬ ∀ (w : Nat) (empty : BitVec (8 * w)) (value : BitVec 32)
    (b : ByteRing w), convert w value = empty → ClearsAgree empty value b := by
  intro hall
  have hagree := hall 4 1#32 1#32 (freshRing 4) (by decide)
  have hslot : (clearInt 4 2 1#32 (freshRing 4).bytes).load 4 (4 * 0) = 0x01010101#32 := by decide
  have hcleared := hagree.cleared 0 (by decide)
  exact absurd (hslot.symm.trans hcleared) (by decide)

end Main

end Libni.RingBuffer
