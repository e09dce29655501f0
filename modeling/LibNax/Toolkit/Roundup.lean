import LibNax.Common
import LibNax.Lib.Int32
import Mathlib.Data.Nat.Size
import Mathlib.Order.Bounds.Basic

/-!
# Rounding up to a power of two

`roundup_powerof_2` counts the bits of a number by shifting it to the right until nothing is left.
What it shifts is a copy of the number in an `int`, whatever the type of the number is.

* `roundupPowerof2` — as in the source, for an unsigned type of `w` bits.
* `bitLength_eq` — the loop counts the bits of an `int` that is not negative, and
  `bitLength_of_neg` that it does not end for one that is.
* `roundsUp_iff` — the numbers that are rounded up.
-/

set_option autoImplicit false

namespace LibNax

namespace Toolkit

open Lib (int32)

variable {w : Nat}

/-! ## The source -/

/-- The loop of `roundup_powerof_2`: `position`, or none where it is not over after so many rounds.
`>>=` keeps the sign of `i`. -/
def bitLength : Nat → Int → UInt32 → Option UInt32
  | 0, _, _ => none
  | rounds + 1, i, position =>
    if i ≠ 0 then bitLength rounds (i >>> (1 : Nat)) (position + 1) else some position

/-- `roundup_powerof_2`: none where the loop is not over after so many rounds. -/
def roundupPowerof2 (rounds : Nat) (n : BitVec w) : Option (BitVec w) :=
  if isPowerof2 n then some n
  else if n = 0 then some 2
  else (bitLength rounds (int32 n.toNat) 0).map fun position => (1 : BitVec w) <<< position.toNat

/-! ## The loop -/

/-- Once the loop is over, more rounds do not matter. -/
theorem bitLength_mono {rounds rounds' : Nat} (h : rounds ≤ rounds') {i : Int}
    {position position' : UInt32} (hsome : bitLength rounds i position = some position') :
    bitLength rounds' i position = some position' := by
  induction rounds generalizing rounds' i position with
  | zero => cases hsome
  | succ rounds ih =>
    obtain ⟨rounds', rfl⟩ : ∃ k, rounds' = k + 1 := ⟨rounds' - 1, by omega⟩
    rw [bitLength] at hsome ⊢
    split
    · rename_i hi
      rw [if_pos hi] at hsome
      exact ih (Nat.le_of_succ_le_succ h) hsome
    · rename_i hi
      rwa [if_neg hi] at hsome

/-- The bits of a number are counted. -/
theorem bitLength_eq (k : Nat) {m : Nat} (hlt : m < 2 ^ k) (hge : k = 0 ∨ 2 ^ (k - 1) ≤ m)
    (position : UInt32) :
    bitLength (k + 1) m position = some (position + UInt32.ofNat k) := by
  induction k generalizing m position with
  | zero =>
    obtain rfl : m = 0 := by simpa using hlt
    rw [bitLength, if_neg (by simp)]
    simp
  | succ k ih =>
    have hle : 2 ^ k ≤ m := hge.resolve_left (Nat.succ_ne_zero k)
    have hpos : 0 < m := Nat.lt_of_lt_of_le (Nat.two_pow_pos k) hle
    have hhalf : (m : Int) >>> (1 : Nat) = (m / 2 : Nat) := by
      rw [Int.shiftRight_eq_div_pow]
      rfl
    have hge' : k = 0 ∨ 2 ^ (k - 1) ≤ m / 2 := by
      cases k with
      | zero => exact .inl rfl
      | succ k =>
        rw [Nat.pow_succ] at hle
        exact .inr (by rw [Nat.succ_sub_one]; omega)
    rw [bitLength, if_pos (by omega), hhalf, ih (by rw [Nat.pow_succ] at hlt; omega) hge',
      UInt32.ofNat_add, UInt32.add_assoc, UInt32.add_comm (UInt32.ofNat k)]
    rfl

theorem bitLength_size (m : Nat) (position : UInt32) :
    bitLength (m.size + 1) m position = some (position + UInt32.ofNat m.size) := by
  refine bitLength_eq m.size (Nat.lt_size_self m) ?_ position
  rcases Nat.eq_zero_or_pos m.size with hzero | hpos
  · exact .inl hzero
  · exact .inr (Nat.lt_size.mp (by omega))

/-- The sign never goes away. -/
theorem bitLength_of_neg (rounds : Nat) {i : Int} (hi : i < 0) (position : UInt32) :
    bitLength rounds i position = none := by
  induction rounds generalizing i position with
  | zero => rfl
  | succ rounds ih =>
    have hhalf : i >>> (1 : Nat) < 0 := by
      rw [Int.shiftRight_eq_div_pow]
      omega
    rw [bitLength, if_pos (by omega), ih hhalf]

/-- What the loop counts, where it ends. -/
theorem bitLength_some {rounds : Nat} {i : Int} {position : UInt32} (hlt : i < 2 ^ 31)
    (h : bitLength rounds i 0 = some position) :
    ∃ m : Nat, i = m ∧ position.toNat = m.size ∧ m.size ≤ 31 := by
  have hi : 0 ≤ i := by
    by_contra hneg
    rw [bitLength_of_neg rounds (by omega)] at h
    cases h
  obtain ⟨m, rfl⟩ := Int.eq_ofNat_of_zero_le hi
  have hsize : m.size ≤ 31 := Nat.size_le.mpr (by omega)
  have h₁ := bitLength_mono (Nat.le_max_left rounds (m.size + 1)) h
  have h₂ := bitLength_mono (Nat.le_max_right rounds (m.size + 1)) (bitLength_size m 0)
  refine ⟨m, rfl, ?_, hsize⟩
  rw [Option.some.inj (h₁.symm.trans h₂), UInt32.zero_add, UInt32.toNat_ofNat',
    Nat.mod_eq_of_lt (by omega)]

/-! ## Rounding up -/

/-- The function returns the least power of two that is not below `max n 1`, but 2 for 0. -/
def RoundsUp (n : BitVec w) : Prop :=
  ∃ rounds r, roundupPowerof2 rounds n = some r ∧
    if n = 0 then r = 2
    else IsLeast {p : Nat | p.isPowerOfTwo ∧ max n.toNat 1 ≤ p} r.toNat

theorem toNat_one_shiftLeft {k : Nat} (hk : k < w) : ((1 : BitVec w) <<< k).toNat = 2 ^ k := by
  rw [BitVec.toNat_shiftLeft, toNat_one (by omega), Nat.one_shiftLeft,
    Nat.mod_eq_of_lt (Nat.pow_lt_pow_right (by decide) hk)]

/-- The power of two behind the highest bit. -/
theorem isLeast_size {m : Nat} (hpow : ¬m.isPowerOfTwo) :
    IsLeast {p : Nat | p.isPowerOfTwo ∧ max m 1 ≤ p} (2 ^ m.size) := by
  refine ⟨⟨⟨m.size, rfl⟩, ?_⟩, ?_⟩
  · have := Nat.lt_size_self m
    omega
  · rintro p ⟨⟨k, rfl⟩, hle⟩
    have hne : m ≠ 2 ^ k := fun heq => hpow ⟨k, heq⟩
    exact Nat.pow_le_pow_right (by decide) (Nat.size_le.mpr (by omega))

theorem isLeast_self {m : Nat} (hpow : m.isPowerOfTwo) :
    IsLeast {p : Nat | p.isPowerOfTwo ∧ max m 1 ≤ p} m := by
  have hpos := Nat.pos_of_isPowerOfTwo hpow
  exact ⟨⟨hpow, by omega⟩, fun p hp => Nat.le_trans (Nat.le_max_left m 1) hp.2⟩

theorem roundsUp_of_lt {n : BitVec w} (hn : n.toNat ≤ 2 ^ (w - 1)) (hlt : n.toNat < 2 ^ 31)
    (hzero : n ≠ 0) (hpow : ¬n.toNat.isPowerOfTwo) : RoundsUp n := by
  have hm : n.toNat ≠ 0 := fun heq => hzero (BitVec.eq_of_toNat_eq (by rw [heq]; rfl))
  have hint : int32 n.toNat = n.toNat := Lib.int32_of_inInt32 ⟨by omega, by omega⟩
  have hne : n.toNat ≠ 2 ^ (w - 1) := fun heq => hpow ⟨w - 1, heq⟩
  have hsize : n.toNat.size ≤ w - 1 := Nat.size_le.mpr (by omega)
  have hsize' : n.toNat.size ≤ 31 := Nat.size_le.mpr hlt
  have hpos : 0 < n.toNat.size := Nat.size_pos.mpr (Nat.pos_of_ne_zero hm)
  have hposition : (UInt32.ofNat n.toNat.size).toNat = n.toNat.size := by
    rw [UInt32.toNat_ofNat', Nat.mod_eq_of_lt (by omega)]
  refine ⟨n.toNat.size + 1, (1 : BitVec w) <<< n.toNat.size, ?_, ?_⟩
  · rw [roundupPowerof2, if_neg ((isPowerof2_iff n).not.mpr hpow), if_neg hzero, hint,
      bitLength_size, Option.map_some, UInt32.zero_add, hposition]
  · rw [if_neg hzero, toNat_one_shiftLeft (by omega)]
    exact isLeast_size hpow

/-- **What is rounded up**: the powers of two, and what an `int` can hold. -/
theorem roundsUp_iff (hw : 8 ≤ w) {n : BitVec w} (hn : n.toNat ≤ 2 ^ (w - 1)) :
    RoundsUp n ↔ n.toNat.isPowerOfTwo ∨ n.toNat < 2 ^ 31 := by
  constructor
  · rintro ⟨rounds, r, hr, hleast⟩
    by_contra hnot
    rw [not_or, Nat.not_lt] at hnot
    have hzero : n ≠ 0 := by
      rintro rfl
      exact absurd hnot.2 (by simp)
    rw [roundupPowerof2, if_neg ((isPowerof2_iff n).not.mpr hnot.1), if_neg hzero,
      Option.map_eq_some_iff] at hr
    obtain ⟨position, hposition, rfl⟩ := hr
    obtain ⟨m, -, hcount, hsize⟩ := bitLength_some (Lib.inInt32_int32 _).2 hposition
    have hbits : 2 ^ 31 ≤ 2 ^ (w - 1) := Nat.le_trans hnot.2 hn
    have hwide : 31 ≤ w - 1 := (Nat.pow_le_pow_iff_right (by decide)).mp hbits
    have hsmall : 2 ^ position.toNat ≤ 2 ^ 31 := Nat.pow_le_pow_right (by decide) (by omega)
    have hne : n.toNat ≠ 2 ^ 31 := fun heq => hnot.1 ⟨31, heq⟩
    rw [if_neg hzero, toNat_one_shiftLeft (by omega)] at hleast
    have hle := Nat.le_trans (Nat.le_max_left _ _) hleast.1.2
    omega
  · intro h
    by_cases hpow : n.toNat.isPowerOfTwo
    · refine ⟨0, n, ?_, ?_⟩
      · rw [roundupPowerof2, if_pos ((isPowerof2_iff n).mpr hpow)]
      · rw [if_neg]
        · exact isLeast_self hpow
        · rintro rfl
          exact absurd hpow (by simpa using Nat.not_isPowerOfTwo_zero)
    · by_cases hzero : n = 0
      · refine ⟨0, 2, ?_, by rw [if_pos hzero]⟩
        rw [roundupPowerof2, if_neg ((isPowerof2_iff n).not.mpr hpow), if_pos hzero]
      · exact roundsUp_of_lt hn (h.resolve_left hpow) hzero hpow

/-- A number of 64 bits that is a power of two, and the largest one of 32 bits that is none. -/
theorem roundsUp_iff_wide : RoundsUp (0x4000000000000000 : BitVec 64) ∧
    RoundsUp (0x7FFFFFFF : BitVec 32) :=
  ⟨(roundsUp_iff (by decide) (by decide)).mpr (.inl ⟨62, rfl⟩),
    (roundsUp_iff (by decide) (by decide)).mpr (.inr (by decide))⟩

/-- The copy of `0x100000003` is 3, and that of `0x80000001` is negative. -/
theorem roundsUp_not : roundupPowerof2 3 (0x100000003 : BitVec 64) = some 4 ∧
    (∀ rounds, roundupPowerof2 rounds (0x80000001 : BitVec 64) = none) ∧
    ¬RoundsUp (0x100000003 : BitVec 64) ∧ ¬RoundsUp (0x80000001 : BitVec 64) := by
  have hnone : ∀ rounds, roundupPowerof2 rounds (0x80000001 : BitVec 64) = none := by
    intro rounds
    rw [roundupPowerof2, if_neg (by decide), if_neg (by decide),
      bitLength_of_neg rounds (by decide), Option.map_none]
  refine ⟨by decide, hnone, ?_, ?_⟩
  · rintro ⟨rounds, r, hr, hleast⟩
    rw [roundupPowerof2, if_neg (by decide), if_neg (by decide), Option.map_eq_some_iff] at hr
    obtain ⟨position, hposition, rfl⟩ := hr
    obtain ⟨m, hm, hcount, hsize⟩ := bitLength_some (Lib.inInt32_int32 _).2 hposition
    rw [if_neg (by decide), toNat_one_shiftLeft (by omega)] at hleast
    have hsmall : 2 ^ position.toNat ≤ 2 ^ 31 := Nat.pow_le_pow_right (by decide) (by omega)
    have hle : (0x100000003 : BitVec 64).toNat ≤ 2 ^ position.toNat :=
      Nat.le_trans (Nat.le_max_left _ _) hleast.1.2
    exact absurd (Nat.le_trans hle hsmall) (by decide)
  · rintro ⟨rounds, r, hr, -⟩
    rw [hnone] at hr
    cases hr

end Toolkit

end LibNax
