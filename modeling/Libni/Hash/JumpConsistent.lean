import Mathlib.Data.BitVec
import Mathlib.Tactic

/-!
`jump_consistent_hash`. The floating-point expression for the next jump is a
parameter: of it only the range of its values matters. The loop is modelled with
fuel, and that it ends is part of what is proved. Growing the number of buckets
only makes the loop go on for longer, and every further jump lands in one of the
new buckets.
-/

namespace Libni.Hash.JumpConsistent

abbrev Key := BitVec 64

/-- The range of `(b + 1) * (double(1LL << 31) / double((key >> 33) + 1))`
after its truncation, with correct rounding: the quotient is between 1 and
2^31. No other property of the floating-point expression is used. -/
structure Rounds (jump : Int → Key → Int) : Prop where
  lower : ∀ b key, 0 ≤ b → b < 2 ^ 31 → b + 1 ≤ jump b key
  upper : ∀ b key, 0 ≤ b → b < 2 ^ 31 → jump b key ≤ 2 ^ 62

def nextKey (key : Key) : Key := key * 2862933555777941757#64 + 1#64

variable (jump : Int → Key → Int)

/-- The value assigned to `j`, of type `int64_t`; a jump that did not fit
would wrap. -/
def target (b : Int) (key : Key) : Int := (jump b key).bmod (2 ^ 64)

/-- The loop of the function, from the state in which it has jumped to `j`
last; `none` when the fuel runs out. -/
def loop (numBuckets : Int) : Nat → Int → Int → Key → Option Int
  | 0, _, _, _ => none
  | fuel + 1, b, j, key =>
      if j < numBuckets then
        loop numBuckets fuel j (target jump j (nextKey key)) (nextKey key)
      else some b

/-- The result is converted from `int64_t` to `int32_t`. -/
def jumpConsistentHash (fuel : Nat) (key : Key) (numBuckets : Int) : Option Int :=
  (loop jump numBuckets fuel 1 0 key).map fun b => b.bmod (2 ^ 32)

/-- The call ends and returns `r`, with however much fuel from some amount on. -/
def Returns (key : Key) (numBuckets r : Int) : Prop :=
  ∃ fuel, ∀ k ≥ fuel, jumpConsistentHash jump k key numBuckets = some r

variable {jump} {n m b j r r' : Int} {fuel : Nat} {key : Key}

/-- No jump is truncated by its type, and every jump goes forward. So the loop
ends after as many jumps as there are buckets at most. -/
theorem Rounds.lt_target (hjump : Rounds jump) (key : Key) (hb : 0 ≤ b) (hlt : b < 2 ^ 31) :
    b < target jump b key := by
  have hlower := hjump.lower b key hb hlt
  have hupper := hjump.upper b key hb hlt
  rw [target, Int.bmod_eq_of_le (by omega) (by omega)]
  omega

/-- The loop ends: every turn moves `j` closer to the number of buckets. The
distance to go is the fuel it needs. -/
theorem loop_total (hjump : Rounds jump) (b : Int) (key : Key) (hn : n ≤ 2 ^ 31 - 1) (hj : 0 ≤ j)
    (hfuel : (n - j).toNat < fuel) : ∃ r, loop jump n fuel b j key = some r := by
  induction fuel generalizing b j key with
  | zero => omega
  | succ fuel ih =>
      simp only [loop]
      split
      · next hlt =>
          have hnext := hjump.lt_target (nextKey key) hj (by omega)
          exact ih j _ (by omega) (by omega)
      · exact ⟨b, rfl⟩

/-- More fuel changes nothing, so that a result does not depend on the amount
chosen. -/
theorem loop_mono (h : loop jump n fuel b j key = some r) {k : Nat} (hk : fuel ≤ k) :
    loop jump n k b j key = some r := by
  induction fuel generalizing b j key k with
  | zero => cases h
  | succ fuel ih =>
      obtain ⟨k, rfl⟩ := Nat.exists_eq_add_of_le' (show 1 ≤ k by omega)
      simp only [loop] at h ⊢
      split
      · next hlt =>
          rw [if_pos hlt] at h
          exact ih h (by omega)
      · next hge =>
          rwa [if_neg hge] at h

/-- Below the number of buckets the loop returns the last jump before it
leaves, which is a bucket that exists. -/
theorem loop_range (hjump : Rounds jump) (hn : n ≤ 2 ^ 31 - 1) (hj : 0 ≤ j) (hlt : j < n)
    (h : loop jump n fuel b j key = some r) : j ≤ r ∧ r < n := by
  induction fuel generalizing b j key with
  | zero => cases h
  | succ fuel ih =>
      simp only [loop, if_pos hlt] at h
      have hnext := hjump.lt_target (nextKey key) hj (by omega)
      by_cases hlast : target jump j (nextKey key) < n
      · have hrange := ih (by omega) hlast h
        omega
      · cases fuel with
        | zero => cases h
        | succ fuel =>
            simp only [loop, if_neg hlast, Option.some.injEq] at h
            omega

/-- From the same state, the loop for more buckets returns the same bucket or
one of the new ones. Both loops make the same jumps until one leaves the
smaller range, and from there on the longer one stays outside of it. -/
theorem loop_grow (hjump : Rounds jump) (hnm : n ≤ m) (hm : m ≤ 2 ^ 31 - 1) (hj : 0 ≤ j)
    (h : loop jump n fuel b j key = some r) (h' : loop jump m fuel b j key = some r') :
    r' = r ∨ n ≤ r' := by
  induction fuel generalizing b j key with
  | zero => cases h
  | succ fuel ih =>
      by_cases hn : j < n
      · have hnext := hjump.lt_target (nextKey key) hj (by omega)
        simp only [loop, if_pos hn] at h
        simp only [loop, if_pos (show j < m by omega)] at h'
        exact ih (by omega) h h'
      · simp only [loop, if_neg hn, Option.some.injEq] at h
        by_cases hm' : j < m
        · -- the larger loop jumps on from here
          have hrange := loop_range hjump hm hj hm' h'
          omega
        · simp only [loop, if_neg hm', Option.some.injEq] at h'
          omega

theorem Returns.of_loop (h : loop jump n fuel 1 0 key = some r) (hr : 0 ≤ r)
    (hlt : r < 2 ^ 31) : Returns jump key n r := by
  refine ⟨fuel, fun k hk => ?_⟩
  rw [jumpConsistentHash, loop_mono h hk, Option.map_some, Int.bmod_eq_of_le (by omega) (by omega)]

/-- The hash ends in a bucket that exists, and more buckets move a key only
into the new ones. The last jump of the shorter loop is one the longer loop
makes too. -/
theorem jump_consistent (hjump : Rounds jump) (key : Key) (hn : 1 ≤ n) (hnm : n ≤ m)
    (hm : m ≤ 2 ^ 31 - 1) :
    ∃ r r', Returns jump key n r ∧ Returns jump key m r' ∧ 0 ≤ r ∧ r < n ∧
      (r' = r ∨ n ≤ r') := by
  have hfuel : (m - 0).toNat < m.toNat + 1 := by omega
  have hfuel' : (n - 0).toNat < m.toNat + 1 := by omega
  obtain ⟨r, hr⟩ := loop_total hjump 1 key (by omega) le_rfl hfuel'
  obtain ⟨r', hr'⟩ := loop_total hjump 1 key hm le_rfl hfuel
  have hrange := loop_range hjump (by omega) le_rfl (by omega) hr
  have hrange' := loop_range hjump hm le_rfl (by omega) hr'
  exact ⟨r, r', .of_loop hr hrange.1 (by omega), .of_loop hr' hrange'.1 (by omega), hrange.1,
    hrange.2, loop_grow hjump hnm hm le_rfl hr hr'⟩

/-- The quotient without rounding, one function that the result applies to. It
shows that the assumption can be met. -/
def exactJump (b : Int) (key : Key) : Int := (b + 1) * 2 ^ 31 / ((key >>> 33).toNat + 1)

theorem rounds_exactJump : Rounds exactJump := by
  have hkey (key : Key) : ((key >>> 33).toNat : Int) + 1 ≤ 2 ^ 31 := by
    have := key.isLt
    rw [BitVec.toNat_ushiftRight, Nat.shiftRight_eq_div_pow]
    omega
  refine ⟨fun b key hb _ => ?_, fun b key hb hlt => ?_⟩
  · have hle := hkey key
    rw [exactJump, Int.le_ediv_iff_mul_le (by omega)]
    exact Int.mul_le_mul_of_nonneg_left hle (by omega)
  · calc
      exactJump b key ≤ (b + 1) * 2 ^ 31 := Int.ediv_le_self _ (by omega)
      _ ≤ 2 ^ 62 := by omega

theorem jump_consistent_exactJump :
    ∃ r r', Returns exactJump 42 1000 r ∧ Returns exactJump 42 1001 r' ∧ 0 ≤ r ∧ r < 1000 ∧
      (r' = r ∨ 1000 ≤ r') :=
  jump_consistent rounds_exactJump 42 (by decide) (by decide) (by decide)

end Libni.Hash.JumpConsistent
