import Mathlib.Algebra.Group.Nat.Defs
import Mathlib.Data.Nat.Bitwise

/-!
# Counting from the other end

A cursor of `w` bits that is incremented from its highest bit down goes through the numbers in the
order of their reversed bits.  The numbers that agree in their lowest `k` bits come one right after
the other in this order, for every `k` at once, which is what makes it fit for a table whose size
changes from one power of two to another on the way.

* `rank` — the place of a number in the order.
* `rank_div_eq_iff` — numbers that agree in their lowest bits are neighbours.
* `next` — the first number after the neighbours, and `rank_next`.
* `small_step` — small blocks of neighbours fill a large one.
* `masked_eq_zero_iff` — the test whether a larger block of neighbours begins.
-/

set_option autoImplicit false

namespace LibNax

namespace Lib

variable {w : ℕ}

/-- The place of a number in the order of the reversed bits. -/
def rank (v : BitVec w) : ℕ := v.reverse.toNat

theorem rank_lt (v : BitVec w) : rank v < 2 ^ w := v.reverse.isLt

@[simp]
theorem rank_eq_zero_iff {v : BitVec w} : rank v = 0 ↔ v = 0#w := by
  rw [rank, ← BitVec.reverse_eq_zero_iff, ← BitVec.toNat_inj]
  rfl

theorem testBit_rank (v : BitVec w) {i : ℕ} (h : i < w) :
    (rank v).testBit i = v.getLsbD (w - 1 - i) := by
  rw [rank, BitVec.testBit_toNat, BitVec.getLsbD_reverse, BitVec.getMsbD_eq_getLsbD]
  simp [h]

theorem testBit_rank_ge (v : BitVec w) {i : ℕ} (h : w ≤ i) : (rank v).testBit i = false :=
  Nat.testBit_lt_two_pow (Nat.lt_of_lt_of_le (rank_lt v) (Nat.pow_le_pow_right Nat.two_pos h))

/-- The lowest bits of the number are the highest ones of its place. -/
theorem testBit_rank_div (v : BitVec w) {k i : ℕ} (hk : k ≤ w) (h : i < k) :
    (rank v / 2 ^ (w - k)).testBit (k - 1 - i) = v.getLsbD i := by
  rw [Nat.testBit_div_two_pow, testBit_rank v (by omega)]
  congr 1
  omega

/-- **Neighbours** are the numbers that agree in their lowest bits. -/
theorem rank_div_eq_iff {u v : BitVec w} {k : ℕ} (hk : k ≤ w) :
    rank u / 2 ^ (w - k) = rank v / 2 ^ (w - k) ↔ u.toNat % 2 ^ k = v.toNat % 2 ^ k := by
  constructor
  · intro h
    refine Nat.eq_of_testBit_eq fun i => ?_
    rw [Nat.testBit_mod_two_pow, Nat.testBit_mod_two_pow, BitVec.testBit_toNat,
      BitVec.testBit_toNat]
    by_cases hi : i < k
    · rw [← testBit_rank_div u hk hi, ← testBit_rank_div v hk hi, h]
    · simp [hi]
  · intro h
    refine Nat.eq_of_testBit_eq fun i => ?_
    by_cases hi : i < k
    · have hbit : u.getLsbD (k - 1 - i) = v.getLsbD (k - 1 - i) := by
        have := congrArg (Nat.testBit · (k - 1 - i)) h
        simpa [Nat.testBit_mod_two_pow, BitVec.testBit_toNat, show k - 1 - i < k by omega]
          using this
      have hi' : k - 1 - (k - 1 - i) = i := by omega
      rw [← hi', testBit_rank_div u hk (by omega), testBit_rank_div v hk (by omega), hbit]
    · rw [Nat.testBit_div_two_pow, Nat.testBit_div_two_pow, testBit_rank_ge u (by omega),
        testBit_rank_ge v (by omega)]

/-- The lowest `k` bits. -/
def low (w k : ℕ) : BitVec w := BitVec.ofNat w (2 ^ k - 1)

theorem getLsbD_low {k i : ℕ} (hi : i < w) : (low w k).getLsbD i = decide (i < k) := by
  rw [low, BitVec.getLsbD_ofNat, Nat.testBit_two_pow_sub_one]
  simp [hi]

/-- The last of the neighbours of a number. -/
theorem rank_or_not_low (v : BitVec w) {k : ℕ} (hk : k ≤ w) :
    rank (v ||| ~~~low w k) = 2 ^ (w - k) * (rank v / 2 ^ (w - k)) + (2 ^ (w - k) - 1) := by
  have hlt : 2 ^ (w - k) - 1 < 2 ^ (w - k) := Nat.sub_lt (Nat.two_pow_pos _) Nat.one_pos
  refine Nat.eq_of_testBit_eq fun i => ?_
  rw [Nat.testBit_two_pow_mul_add _ hlt, Nat.testBit_two_pow_sub_one, Nat.testBit_div_two_pow]
  by_cases hiw : i < w
  · rw [testBit_rank _ hiw, BitVec.getLsbD_or, BitVec.getLsbD_not, getLsbD_low (by omega)]
    by_cases hi : i < w - k
    · simp [hi, show w - 1 - i < w by omega, show ¬ w - 1 - i < k by omega]
    · rw [if_neg hi, Nat.sub_add_cancel (Nat.not_lt.mp hi), testBit_rank v hiw]
      simp [show w - 1 - i < k by omega]
  · rw [testBit_rank_ge _ (Nat.not_lt.mp hiw), if_neg (by omega),
      testBit_rank_ge v (by omega)]

/-- The first number after the neighbours of a number, and 0 after the last of all. -/
def next (k : ℕ) (v : BitVec w) : BitVec w := ((v ||| ~~~low w k).reverse + 1).reverse

/-- **The next number** is where the next neighbours begin. -/
theorem rank_next (v : BitVec w) {k : ℕ} (hk : k ≤ w) :
    rank (next k v) = 2 ^ (w - k) * (rank v / 2 ^ (w - k) + 1) % 2 ^ w := by
  have hadd : rank (next k v) = (rank (v ||| ~~~low w k) + 1) % 2 ^ w := by
    rw [rank, next, BitVec.reverse_reverse_eq, BitVec.toNat_add, rank]
    simp
  have hpos := Nat.two_pow_pos (w - k)
  rw [hadd, rank_or_not_low v hk, Nat.add_assoc, Nat.sub_add_cancel hpos, Nat.mul_succ]

/-- The next number is 0, or further on. -/
theorem next_spec (v : BitVec w) {k : ℕ} (hk : k ≤ w) :
    (next k v = 0#w ∧ 2 ^ (w - k) * (rank v / 2 ^ (w - k) + 1) = 2 ^ w) ∨
      (next k v ≠ 0#w ∧ rank (next k v) = 2 ^ (w - k) * (rank v / 2 ^ (w - k) + 1)) := by
  have hlt : rank v / 2 ^ (w - k) < 2 ^ k := by
    rw [Nat.div_lt_iff_lt_mul (Nat.two_pow_pos _), ← Nat.pow_add, Nat.add_sub_cancel' hk]
    exact rank_lt v
  have hpow : 2 ^ w = 2 ^ (w - k) * 2 ^ k := by rw [← Nat.pow_add, Nat.sub_add_cancel hk]
  have hrank := rank_next v hk
  rcases Nat.lt_or_eq_of_le (Nat.succ_le_of_lt hlt) with h | h
  · have h' : 2 ^ (w - k) * (rank v / 2 ^ (w - k) + 1) < 2 ^ w := by
      rw [hpow]
      exact Nat.mul_lt_mul_of_pos_left h (Nat.two_pow_pos _)
    rw [Nat.mod_eq_of_lt h'] at hrank
    refine .inr ⟨fun h0 => ?_, hrank⟩
    rw [← rank_eq_zero_iff, hrank] at h0
    exact absurd h0 (Nat.mul_pos (Nat.two_pow_pos _) (Nat.succ_pos _)).ne'
  · have h' : 2 ^ (w - k) * (rank v / 2 ^ (w - k) + 1) = 2 ^ w := by
      rw [hpow]
      exact congrArg _ h
    rw [h', Nat.mod_self] at hrank
    exact .inl ⟨rank_eq_zero_iff.mp hrank, h'⟩

/-- Going through the numbers in small steps does not step over the beginning of a large block. -/
theorem small_step {b c r : ℕ} (hb : 0 < b) (hc : 0 < c) :
    r < b * (r / b + 1) ∧ b * (r / b + 1) ≤ b * c * (r / (b * c) + 1) ∧
      (b * c ∣ b * (r / b + 1) → b * (r / b + 1) = b * c * (r / (b * c) + 1)) ∧
      (¬ b * c ∣ b * (r / b + 1) → b * (r / b + 1) / (b * c) = r / (b * c)) := by
  have hbc : 0 < b * c := Nat.mul_pos hb hc
  have hlt : r < b * (r / b + 1) := Nat.lt_mul_div_succ r hb
  have hle : b * (r / b + 1) ≤ b * c * (r / (b * c) + 1) := by
    rw [Nat.mul_assoc]
    refine Nat.mul_le_mul_left b (Nat.succ_le_of_lt ?_)
    rw [Nat.div_lt_iff_lt_mul hb, Nat.mul_comm, ← Nat.mul_assoc]
    exact Nat.lt_mul_div_succ r hbc
  have hmono : r / (b * c) ≤ b * (r / b + 1) / (b * c) := Nat.div_le_div_right hlt.le
  refine ⟨hlt, hle, fun ⟨m, hm⟩ => ?_, fun hnd => ?_⟩
  · refine Nat.le_antisymm hle ?_
    rw [hm]
    refine Nat.mul_le_mul_left _ (Nat.succ_le_of_lt ?_)
    rw [hm, Nat.mul_comm] at hlt
    exact (Nat.div_lt_iff_lt_mul hbc).mpr hlt
  · refine Nat.le_antisymm (Nat.le_of_lt_succ ?_) hmono
    rw [Nat.div_lt_iff_lt_mul hbc, Nat.mul_comm (Nat.succ _)]
    exact Nat.lt_of_le_of_ne hle fun heq => hnd ⟨_, heq⟩

/-- Where neighbours begin is seen from the bits between the two masks. -/
theorem masked_eq_zero_iff {v : BitVec w} {k l : ℕ} (hkl : k ≤ l) (hl : l ≤ w)
    (hv : 2 ^ (w - l) ∣ rank v) :
    v &&& (low w k ^^^ low w l) = 0#w ↔ 2 ^ (w - k) ∣ rank v := by
  rw [Nat.dvd_iff_mod_eq_zero] at hv ⊢
  constructor
  · intro h
    refine Nat.eq_of_testBit_eq fun i => ?_
    rw [Nat.testBit_mod_two_pow, Nat.zero_testBit]
    by_cases hi : i < w - k
    · by_cases hil : i < w - l
      · have := congrArg (Nat.testBit · i) hv
        simpa [Nat.testBit_mod_two_pow, hil, hi] using this
      · have := congrArg (BitVec.getLsbD · (w - 1 - i)) h
        rw [testBit_rank v (by omega)]
        simpa [getLsbD_low (w := w) (show w - 1 - i < w by omega), hi,
          show ¬ w - 1 - i < k by omega, show w - 1 - i < l by omega] using this
    · simp [hi]
  · intro h
    refine BitVec.eq_of_getLsbD_eq fun i hi => ?_
    rw [BitVec.getLsbD_and, BitVec.getLsbD_xor, getLsbD_low hi, getLsbD_low hi, BitVec.getLsbD_zero]
    by_cases hik : i < k
    · simp [hik, show i < l by omega]
    · have := congrArg (Nat.testBit · (w - 1 - i)) h
      rw [Nat.testBit_mod_two_pow, Nat.zero_testBit, testBit_rank v (by omega),
        show w - 1 - (w - 1 - i) = i by omega] at this
      have hbit : v.getLsbD i = false := by
        simpa [show w - 1 - i < w - k by omega] using this
      rw [hbit, Bool.false_and]

end Lib

end LibNax
