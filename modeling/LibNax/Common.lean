import Mathlib.Data.Nat.Bits
import Mathlib.Data.List.TakeWhile

/-!
# What the modules share

The functions of the library report a status: zero or a positive number for success, and the number
of an error with a minus sign otherwise, which is what `posix__makeerror` makes of it.  Strings end
with a zero, and what is behind that in their buffers does not belong to them.

* `nspSuccess`, `eInval` and the others — the statuses.
* `cstring` — the string in a buffer, and how it is read off.
* `isPowerof2` — the test of the macro, and what it tests.
-/

set_option autoImplicit false

namespace LibNax

/-! ## Statuses -/

/-- `NSP_SUCCESS`. -/
def nspSuccess (status : Int) : Bool := decide (0 ≤ status)

@[simp] theorem nspSuccess_zero : nspSuccess 0 = true := by
  decide

/-- `NSP_STATUS_FATAL`. -/
def nspStatusFatal : Int := -1

/-- `-ENOENT`. -/
def eNoent : Int := -2

/-- `-ENOMEM`. -/
def eNomem : Int := -12

/-- `-EBUSY`. -/
def eBusy : Int := -16

/-- `-EEXIST`. -/
def eExist : Int := -17

/-- `-EINVAL`. -/
def eInval : Int := -22

/-! ## Strings -/

/-- A space. -/
def space : UInt8 := 0x20

section Cstring

variable {α : Type} [OfNat α 0] [DecidableEq α] {c : α} {l r : List α}

/-- The string in a buffer: what is in front of the first zero, or everything where there is none. -/
def cstring (buffer : List α) : List α := buffer.takeWhile (· ≠ 0)

theorem cstring_zero (l : List α) : cstring (0 :: l) = [] :=
  List.takeWhile_cons_of_neg (by simp)

theorem cstring_cons (hc : c ≠ 0) (l : List α) : cstring (c :: l) = c :: cstring l :=
  List.takeWhile_cons_of_pos (by simpa using hc)

theorem cstring_prefix_self (l : List α) : cstring l <+: l := List.takeWhile_prefix _

theorem ne_zero_of_mem_cstring (hc : c ∈ cstring l) : c ≠ 0 := by
  simpa using List.mem_takeWhile_imp hc

theorem zero_notMem_cstring (l : List α) : 0 ∉ cstring l := fun h => ne_zero_of_mem_cstring h rfl

theorem cstring_eq_self : cstring l = l ↔ 0 ∉ l := by
  refine ⟨fun h => h ▸ zero_notMem_cstring l, fun h => ?_⟩
  exact List.takeWhile_eq_self_iff.mpr fun _ hc => decide_eq_true fun heq => h (heq ▸ hc)

theorem cstring_append_of_notMem (hl : 0 ∉ l) (r : List α) : cstring (l ++ r) = l ++ cstring r :=
  List.takeWhile_append_of_pos fun _ hc => decide_eq_true fun heq => hl (heq ▸ hc)

theorem cstring_append_zeros (hl : 0 ∉ l) (hr : ∀ c ∈ r, c = 0) : cstring (l ++ r) = l := by
  rw [cstring_append_of_notMem hl]
  cases r with
  | nil => exact List.append_nil l
  | cons c r =>
    obtain rfl := hr c List.mem_cons_self
    rw [cstring_zero, List.append_nil]

/-- What is behind the end of a string does not matter. -/
theorem cstring_append_end (l r : List α) : cstring (l ++ 0 :: r) = cstring l := by
  induction l with
  | nil => exact cstring_zero r
  | cons c l ih =>
    by_cases hc : c = 0
    · rw [hc, List.cons_append, cstring_zero, cstring_zero]
    · rw [List.cons_append, cstring_cons hc, cstring_cons hc, ih]

theorem cstring_append_of_mem (hl : 0 ∈ l) (r : List α) : cstring (l ++ r) = cstring l := by
  obtain ⟨a, b, rfl⟩ := List.append_of_mem hl
  rw [List.append_assoc, List.cons_append, cstring_append_end, cstring_append_end]

end Cstring

/-! ## Powers of two -/

/-- `is_powerof_2`. -/
def isPowerof2 {w : Nat} (x : BitVec w) : Bool := x ≠ 0 && x &&& (x - 1) == 0

theorem toNat_one {w : Nat} (hw : w ≠ 0) : (1 : BitVec w).toNat = 1 := by
  rw [BitVec.ofNat_eq_ofNat, BitVec.toNat_ofNat, Nat.mod_eq_of_lt (Nat.one_lt_two_pow hw)]

theorem isPowerof2_iff {w : Nat} (x : BitVec w) : isPowerof2 x = true ↔ x.toNat.isPowerOfTwo := by
  rw [← Nat.ne_zero_and_sub_one_eq_zero_iff_isPowerOfTwo, isPowerof2, Bool.and_eq_true,
    decide_eq_true_iff, beq_iff_eq, ← BitVec.toNat_ne_iff_ne]
  refine and_congr_right fun hx => ?_
  have hpos : 1 ≤ x.toNat := Nat.one_le_iff_ne_zero.mpr hx
  have hpred : (x - 1).toNat = x.toNat - 1 := by
    have hone : (1 : BitVec w).toNat = 1 := by
      refine toNat_one fun hw => ?_
      subst hw
      exact hx (by rw [BitVec.eq_nil x])
    rw [BitVec.toNat_sub_of_le (by rw [BitVec.le_def, hone]; exact hpos), hone]
  rw [← BitVec.toNat_inj, BitVec.toNat_and, hpred]
  rfl

end LibNax
