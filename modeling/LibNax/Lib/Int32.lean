import Mathlib.Data.Int.ModEq
import Mathlib.Tactic.Linarith

/-!
# Integers of 32 bits

* `int32` — the value an `int` has after a computation that may have left its range.
* `le32` and `unle32` — an `int` as it lies in memory, four bytes with the lowest first, and back.
-/

set_option autoImplicit false

namespace LibNax

namespace Lib

/-- The value of an `int` that a computation left in a register of 32 bits. -/
def int32 (x : Int) : Int := x.bmod (2 ^ 32)

/-- What an `int` can hold. -/
def InInt32 (x : Int) : Prop := -2 ^ 31 ≤ x ∧ x < 2 ^ 31

instance (x : Int) : Decidable (InInt32 x) := inferInstanceAs (Decidable (_ ∧ _))

theorem int32_of_inInt32 {x : Int} (h : InInt32 x) : int32 x = x := by
  rw [int32, Int.bmod_def]
  obtain ⟨h₁, h₂⟩ := h
  split
  · omega
  · omega

/-- A number that is too large by less than the range. -/
theorem int32_of_ge {x : Int} (h : 2 ^ 31 ≤ x) (h' : x < 2 ^ 32) : int32 x = x - 2 ^ 32 := by
  rw [int32, Int.bmod_def]
  split
  · omega
  · omega

theorem inInt32_int32 (x : Int) : InInt32 (int32 x) := by
  rw [int32, Int.bmod_def, InInt32]
  split
  · omega
  · omega

/-- A number of 32 bits that is not negative as an `int` is what it is. -/
theorem int32_of_nonneg {n : Nat} (hn : n < 2 ^ 32) (h : 0 ≤ int32 n) : int32 n = n := by
  rw [int32, Int.bmod_def] at h ⊢
  split
  · omega
  · rename_i hge
    rw [if_neg hge] at h
    omega

/-- The four bytes of an `int`, the lowest first. -/
def le32 (x : Int) : List UInt8 :=
  let n := (x % 2 ^ 32).toNat
  [UInt8.ofNat n, UInt8.ofNat (n / 2 ^ 8), UInt8.ofNat (n / 2 ^ 16), UInt8.ofNat (n / 2 ^ 24)]

/-- The `int` that lies in the first four bytes. -/
def unle32 : List UInt8 → Int
  | a :: b :: c :: d :: _ =>
    int32 (a.toNat + b.toNat * 2 ^ 8 + c.toNat * 2 ^ 16 + d.toNat * 2 ^ 24)
  | _ => 0

@[simp] theorem length_le32 (x : Int) : (le32 x).length = 4 := rfl

theorem unle32_le32_append {x : Int} (h : InInt32 x) (l : List UInt8) :
    unle32 (le32 x ++ l) = x := by
  have hsum : ∀ n : Nat, n < 2 ^ 32 →
      ((n % 2 ^ 8 : Nat) : Int) + (n / 2 ^ 8 % 2 ^ 8 : Nat) * 2 ^ 8 +
      (n / 2 ^ 16 % 2 ^ 8 : Nat) * 2 ^ 16 + (n / 2 ^ 24 % 2 ^ 8 : Nat) * 2 ^ 24 = n := by
    intro n hn
    omega
  simp only [le32, List.cons_append, unle32, UInt8.toNat_ofNat']
  rw [hsum _ (by omega), int32, Int.bmod_def]
  obtain ⟨h₁, h₂⟩ := h
  split
  · omega
  · omega

end Lib

end LibNax
