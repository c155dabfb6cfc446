import Mathlib.Logic.Function.Basic
import Libni.TaggedPtr

/-!
Programs over tagged pointers and atomics of them. The source keeps pointer and tag
in one word, and every operation, the compare-exchanges among them, is one on words.
As long as all addresses are below 2^48, programs cannot tell the words from records
of two fields, in which the queues are stated. Variables of several threads are told
apart by their names, so a program is an interleaving.
-/

namespace Libni

open Function

/-- The members of `TaggedPtr`, for some representation: the constructors, the
readers and the writers. A program is run over any of them. -/
structure PointerOps (π : Type*) where
  ofRaw : BitVec 64 → π
  make : Nat → BitVec 16 → π
  value : π → Nat
  tag : π → BitVec 16
  setValue : π → Nat → π
  setTag : π → BitVec 16 → π
  clearTag : π → π

/-- The members as the source has them, on one word. The members on fields are
the same record filled in differently, so that programs can be written over
either. -/
def RawTaggedPtr.ops : PointerOps RawTaggedPtr where
  ofRaw raw := ⟨raw⟩
  make value tag := make (BitVec.ofNat 64 value) tag
  value p := p.value.toNat
  tag := tag
  setValue p value := p.setValue (BitVec.ofNat 64 value)
  setTag := setTag
  clearTag := clearTag

/-- The members on two fields. A raw word is split where the source would
split it later. -/
def TaggedPtr.ops : PointerOps TaggedPtr where
  ofRaw raw := ⟨(RawTaggedPtr.mk raw).value.toNat, (RawTaggedPtr.mk raw).tag⟩
  make value tag := ⟨value, tag⟩
  value := value
  tag := tag
  setValue p value := { p with value := value }
  setTag p tag := { p with tag := tag }
  clearTag p := { p with tag := 0 }

/-- A step of a program with atomics `κ` and variables `ν`. A failed exchange
writes what it has found to `expected`; a weak one may fail spuriously. -/
inductive PointerStep (κ ν : Type*) where
  | ofRaw (x : ν) (raw : BitVec 64)
  | make (x : ν) (value : Nat) (tag : BitVec 16)
  | setValue (x : ν) (value : Nat)
  | setTag (x : ν) (tag : BitVec 16)
  | clearTag (x : ν)
  | value (x : ν)
  | tag (x : ν)
  | equal (x y : ν)
  | load (x : ν) (a : κ)
  | store (a : κ) (x : ν)
  | exchange (x : ν) (a : κ) (desired : ν)
  | compareExchange (a : κ) (expected desired : ν) (spurious : Bool)
  | atomicEqual (a : κ) (x : ν)

/-- What a program finds out: all that its further course can depend on. Two
programs that see the same do the same. -/
inductive Sight where
  | value (value : Nat)
  | tag (tag : BitVec 16)
  | flag (flag : Bool)
  deriving DecidableEq

/-- The atomics, the variables and what the program has found out so far. -/
structure Pointers (κ ν π : Type*) where
  atomics : κ → π
  vars : ν → π
  seen : List Sight

namespace Pointers

variable {κ ν π ρ : Type*}

def map (f : π → ρ) (s : Pointers κ ν π) : Pointers κ ν ρ :=
  ⟨fun a => f (s.atomics a), fun x => f (s.vars x), s.seen⟩

variable [DecidableEq κ] [DecidableEq ν] [DecidableEq π] [DecidableEq ρ]

def set (s : Pointers κ ν π) (x : ν) (p : π) : Pointers κ ν π :=
  { s with vars := update s.vars x p }

def setAtomic (s : Pointers κ ν π) (a : κ) (p : π) : Pointers κ ν π :=
  { s with atomics := update s.atomics a p }

def see (s : Pointers κ ν π) (sight : Sight) : Pointers κ ν π :=
  { s with seen := s.seen ++ [sight] }

/-- One step over a representation. Comparisons compare representations, so
that what they find depends on the representation alone. -/
def exec (ops : PointerOps π) (s : Pointers κ ν π) : PointerStep κ ν → Pointers κ ν π
  | .ofRaw x raw => s.set x (ops.ofRaw raw)
  | .make x value tag => s.set x (ops.make value tag)
  | .setValue x value => s.set x (ops.setValue (s.vars x) value)
  | .setTag x tag => s.set x (ops.setTag (s.vars x) tag)
  | .clearTag x => s.set x (ops.clearTag (s.vars x))
  | .value x => s.see (.value (ops.value (s.vars x)))
  | .tag x => s.see (.tag (ops.tag (s.vars x)))
  | .equal x y => s.see (.flag (s.vars x = s.vars y))
  | .load x a => s.set x (s.atomics a)
  | .store a x => s.setAtomic a (s.vars x)
  | .exchange x a desired => (s.set x (s.atomics a)).setAtomic a (s.vars desired)
  | .compareExchange a expected desired spurious =>
      if s.atomics a = s.vars expected ∧ spurious = false then
        (s.setAtomic a (s.vars desired)).see (.flag true)
      else (s.set expected (s.atomics a)).see (.flag false)
  | .atomicEqual a x => s.see (.flag (s.atomics a = s.vars x))

end Pointers

/-- The addresses a step brings in are below a bound, as the assertions of the
source ask for. -/
def PointerStep.Within {κ ν : Type*} (bound : Nat) : PointerStep κ ν → Prop
  | .make _ address _ | .setValue _ address => address < bound
  | _ => True

/-- Pointers `V` of one representation are those of another by way of `f`: `f`
is injective on them and commutes with every member. -/
structure Represents {π ρ : Type*} (ops : PointerOps π) (ops' : PointerOps ρ) (bound : Nat)
    (V : π → Prop) (f : π → ρ) : Prop where
  injective : ∀ p q, V p → V q → (f p = f q ↔ p = q)
  ofRaw : ∀ raw, V (ops.ofRaw raw) ∧ f (ops.ofRaw raw) = ops'.ofRaw raw
  make : ∀ value tag, value < bound → V (ops.make value tag) ∧
    f (ops.make value tag) = ops'.make value tag
  value : ∀ p, V p → ops'.value (f p) = ops.value p
  tag : ∀ p, V p → ops'.tag (f p) = ops.tag p
  setValue : ∀ p value, V p → value < bound → V (ops.setValue p value) ∧
    f (ops.setValue p value) = ops'.setValue (f p) value
  setTag : ∀ p tag, V p → V (ops.setTag p tag) ∧ f (ops.setTag p tag) = ops'.setTag (f p) tag
  clearTag : ∀ p, V p → V (ops.clearTag p) ∧ f (ops.clearTag p) = ops'.clearTag (f p)

namespace Pointers

variable {κ ν π ρ : Type*} {V : π → Prop} {f : π → ρ} {s : Pointers κ ν π}

/-- All pointers of a state. -/
structure All (V : π → Prop) (s : Pointers κ ν π) : Prop where
  atomics : ∀ a, V (s.atomics a)
  vars : ∀ x, V (s.vars x)

variable [DecidableEq κ] [DecidableEq ν]

omit [DecidableEq κ] in
theorem map_set (f : π → ρ) (s : Pointers κ ν π) (x : ν) (p : π) :
    (s.set x p).map f = (s.map f).set x (f p) := by
  unfold map set
  congr 1
  funext y
  by_cases hy : y = x
  · simp [hy]
  · simp [update_of_ne hy]

omit [DecidableEq ν] in
theorem map_setAtomic (f : π → ρ) (s : Pointers κ ν π) (a : κ) (p : π) :
    (s.setAtomic a p).map f = (s.map f).setAtomic a (f p) := by
  unfold map setAtomic
  congr 1
  funext b
  by_cases hb : b = a
  · simp [hb]
  · simp [update_of_ne hb]

omit [DecidableEq κ] [DecidableEq ν] in
theorem map_see (f : π → ρ) (s : Pointers κ ν π) (sight : Sight) :
    (s.see sight).map f = (s.map f).see sight := rfl

omit [DecidableEq κ] [DecidableEq ν] in
theorem All.see (h : s.All V) (sight : Sight) : (s.see sight).All V := ⟨h.atomics, h.vars⟩

omit [DecidableEq κ] in
theorem All.set (h : s.All V) {x : ν} {p : π} (hp : V p) : (s.set x p).All V := by
  refine ⟨h.atomics, fun y => ?_⟩
  by_cases hy : y = x
  · simpa [Pointers.set, hy] using hp
  · simpa [Pointers.set, update_of_ne hy] using h.vars y

omit [DecidableEq ν] in
theorem All.setAtomic (h : s.All V) {a : κ} {p : π} (hp : V p) : (s.setAtomic a p).All V := by
  refine ⟨fun b => ?_, h.vars⟩
  by_cases hb : b = a
  · simpa [Pointers.setAtomic, hb] using hp
  · simpa [Pointers.setAtomic, update_of_ne hb] using h.atomics b

variable [DecidableEq π] [DecidableEq ρ] {ops : PointerOps π} {ops' : PointerOps ρ} {bound : Nat}

/-- A step commutes with the change of representation. Comparisons and
exchanges come down to the injectivity of `f`, everything else to the members. -/
theorem exec_map (h : Represents ops ops' bound V f) (hs : s.All V) {step : PointerStep κ ν}
    (hstep : step.Within bound) :
    (s.exec ops step).All V ∧ (s.map f).exec ops' step = (s.exec ops step).map f := by
  have hx (x : ν) := hs.vars x
  have ha (a : κ) := hs.atomics a
  cases step with
  | ofRaw x raw =>
      obtain ⟨hV, heq⟩ := h.ofRaw raw
      exact ⟨hs.set hV, by rw [exec, exec, map_set, heq]⟩
  | make x value tag =>
      obtain ⟨hV, heq⟩ := h.make value tag hstep
      exact ⟨hs.set hV, by rw [exec, exec, map_set, heq]⟩
  | setValue x value =>
      obtain ⟨hV, heq⟩ := h.setValue _ value (hx x) hstep
      exact ⟨hs.set hV, by rw [exec, exec, map_set, heq]; rfl⟩
  | setTag x tag =>
      obtain ⟨hV, heq⟩ := h.setTag _ tag (hx x)
      exact ⟨hs.set hV, by rw [exec, exec, map_set, heq]; rfl⟩
  | clearTag x =>
      obtain ⟨hV, heq⟩ := h.clearTag _ (hx x)
      exact ⟨hs.set hV, by rw [exec, exec, map_set, heq]; rfl⟩
  | value x =>
      refine ⟨hs.see _, ?_⟩
      change (s.map f).see (.value (ops'.value (f (s.vars x)))) = _
      rw [h.value _ (hx x)]
      rfl
  | tag x =>
      refine ⟨hs.see _, ?_⟩
      change (s.map f).see (.tag (ops'.tag (f (s.vars x)))) = _
      rw [h.tag _ (hx x)]
      rfl
  | equal x y =>
      refine ⟨hs.see _, ?_⟩
      change (s.map f).see (.flag (decide (f (s.vars x) = f (s.vars y)))) = _
      rw [decide_eq_decide.mpr (h.injective _ _ (hx x) (hx y))]
      rfl
  | load x a => exact ⟨hs.set (ha a), by rw [exec, exec, map_set]; rfl⟩
  | store a x => exact ⟨hs.setAtomic (hx x), by rw [exec, exec, map_setAtomic]; rfl⟩
  | exchange x a desired =>
      exact ⟨(hs.set (ha a)).setAtomic (hx desired),
        by rw [exec, exec, map_setAtomic, map_set]; rfl⟩
  | compareExchange a expected desired spurious =>
      -- the words agree exactly if both fields do
      have heq : (f (s.atomics a) = f (s.vars expected) ∧ spurious = false) ↔
          (s.atomics a = s.vars expected ∧ spurious = false) :=
        and_congr_left fun _ => h.injective _ _ (ha a) (hx expected)
      rw [exec, exec]
      change _ ∧ (if f (s.atomics a) = f (s.vars expected) ∧ spurious = false then _ else _) = _
      simp only [heq]
      split
      · refine ⟨(hs.setAtomic (hx desired)).see _, ?_⟩
        rw [map_see, map_setAtomic]
        rfl
      · refine ⟨(hs.set (ha a)).see _, ?_⟩
        rw [map_see, map_set]
        rfl
  | atomicEqual a x =>
      refine ⟨hs.see _, ?_⟩
      change (s.map f).see (.flag (decide (f (s.atomics a) = f (s.vars x)))) = _
      rw [decide_eq_decide.mpr (h.injective _ _ (ha a) (hx x))]
      rfl

/-- A whole program, step by step, as long as every address it brings in is
within the bound. -/
theorem foldl_exec_map (h : Represents ops ops' bound V f) (hs : s.All V)
    {program : List (PointerStep κ ν)} (hprogram : ∀ step ∈ program, step.Within bound) :
    program.foldl (exec ops') (s.map f) = (program.foldl (exec ops) s).map f := by
  induction program generalizing s with
  | nil => rfl
  | cons step program ih =>
      obtain ⟨hall, heq⟩ := exec_map h hs (hprogram step List.mem_cons_self)
      rw [List.foldl_cons, List.foldl_cons, heq]
      exact ih hall fun step hmem => hprogram step (List.mem_cons_of_mem _ hmem)

end Pointers

namespace RawTaggedPtr

theorem setValue_eq_make (p : RawTaggedPtr) (v : BitVec 64) : p.setValue v = make v p.tag := by
  have hhigh : p.rawValue &&& tagMask = p.tag.setWidth 64 <<< valueBits := by
    apply BitVec.eq_of_getLsbD_eq
    intro i hi
    have hmask := getLsbD_valueMask i
    rw [BitVec.getLsbD_eq_getElem hi] at hmask
    by_cases h48 : i < 48
    · simp [tagMask, tag, valueBits, getLsbD_valueMask, h48]
    · simp [tagMask, tag, valueBits, hmask, h48, hi, show i - 48 < 16 by omega,
        show i - 48 < 64 by omega, show 48 + (i - 48) = i by omega]
  simp only [setValue, make, hhigh]

end RawTaggedPtr

namespace TaggedPtr

/-- An address that leaves room for the tag, as the constructor's assertion
asks for. -/
def Fits (p : TaggedPtr) : Prop := p.value < 2 ^ 48

theorem Fits.toNat_value {p : TaggedPtr} (hp : p.Fits) :
    (BitVec.ofNat 64 p.value).toNat = p.value := by
  rw [BitVec.toNat_ofNat]
  exact Nat.mod_eq_of_lt (hp.trans (by decide))

theorem toRaw_value {p : TaggedPtr} (hp : p.Fits) : p.toRaw.value = BitVec.ofNat 64 p.value :=
  RawTaggedPtr.value_make p.tag (by
    rw [hp.toNat_value]
    exact hp)

theorem toRaw_tag {p : TaggedPtr} (hp : p.Fits) : p.toRaw.tag = p.tag :=
  RawTaggedPtr.tag_make p.tag (by
    rw [hp.toNat_value]
    exact hp)

/-- The words represent the two fields. A write to one field leaves the other
alone, since all writers come down to the constructor. -/
theorem represents : Represents TaggedPtr.ops RawTaggedPtr.ops (2 ^ 48) Fits toRaw where
  injective _ _ hp hq := toRaw_eq_iff hp hq
  ofRaw raw := by
    let p : RawTaggedPtr := ⟨raw⟩
    refine ⟨p.value_lt, ?_⟩
    change RawTaggedPtr.make (BitVec.ofNat 64 p.value.toNat) p.tag = p
    rw [BitVec.ofNat_toNat, BitVec.setWidth_eq, RawTaggedPtr.make_value_tag]
  make _ _ hvalue := ⟨hvalue, rfl⟩
  value p hp := by
    change p.toRaw.value.toNat = p.value
    rw [toRaw_value hp, hp.toNat_value]
  tag _ hp := toRaw_tag hp
  setValue p value hp hvalue := by
    refine ⟨hvalue, ?_⟩
    change _ = p.toRaw.setValue _
    rw [RawTaggedPtr.setValue_eq_make, toRaw_tag hp]
    rfl
  setTag p tag hp := by
    refine ⟨hp, ?_⟩
    change _ = p.toRaw.setTag tag
    rw [RawTaggedPtr.setTag_eq_make, toRaw_value hp]
    rfl
  clearTag p hp := by
    refine ⟨hp, ?_⟩
    change _ = p.toRaw.clearTag
    rw [RawTaggedPtr.clearTag_eq_make, toRaw_value hp]
    rfl

variable {κ ν : Type*} [DecidableEq κ] [DecidableEq ν]

/-- A program that runs on words, as the source does, ends with the words of
the pointers it ends with on records of two fields, and has found out the
same. Interleavings of several threads are programs, so this covers the
queues. -/
theorem program_on_words {s : Pointers κ ν TaggedPtr} (hs : s.All Fits)
    {program : List (PointerStep κ ν)} (hprogram : ∀ step ∈ program, step.Within (2 ^ 48)) :
    program.foldl (Pointers.exec RawTaggedPtr.ops) (s.map toRaw) =
      (program.foldl (Pointers.exec TaggedPtr.ops) s).map toRaw ∧
    (program.foldl (Pointers.exec RawTaggedPtr.ops) (s.map toRaw)).seen =
      (program.foldl (Pointers.exec TaggedPtr.ops) s).seen := by
  have heq := Pointers.foldl_exec_map represents hs hprogram
  exact ⟨heq, by rw [heq]; rfl⟩

/-- An exchange that fails because of the tag alone: the address is the one
expected. -/
def outdated : List (PointerStep Unit Bool) :=
  [.make false 64 1, .store () false, .setTag false 2, .make true 128 3,
    .compareExchange () false true false, .tag false]

def nulls : Pointers Unit Bool TaggedPtr := ⟨fun _ => null, fun _ => null, []⟩

theorem program_on_words_outdated :
    (outdated.foldl (Pointers.exec RawTaggedPtr.ops) (nulls.map toRaw)).seen =
      [.flag false, .tag 1] := by
  have hall : nulls.All Fits := ⟨fun _ => Nat.two_pow_pos 48, fun _ => Nat.two_pow_pos 48⟩
  have hwithin : ∀ step ∈ outdated, step.Within (2 ^ 48) := by
    simp [outdated, PointerStep.Within]
  rw [(program_on_words hall hwithin).2]
  decide +kernel

end TaggedPtr

end Libni
