import Mathlib.Data.Nat.Bitwise

/-!
# Numbers as bytes

* `leBytes` — the bytes of a number, the lowest first; `leNat` — the number that bytes are.
* `leNat_leBytes`, `leBytes_leNat` — there and back.
* `byteSwap` — a number with its bytes in the opposite order; `byteSwap_byteSwap`.
-/

set_option autoImplicit false

namespace LibNax

namespace Lib

/-- The lowest `n` bytes of a number, the lowest first. -/
def leBytes : Nat → Nat → List UInt8
  | 0, _ => []
  | n + 1, x => UInt8.ofNat x :: leBytes n (x / 2 ^ 8)

/-- The number that bytes are, the lowest first. -/
def leNat : List UInt8 → Nat
  | [] => 0
  | b :: l => b.toNat + 2 ^ 8 * leNat l

@[simp] theorem length_leBytes : ∀ n x : Nat, (leBytes n x).length = n
  | 0, _ => rfl
  | n + 1, x => congrArg (· + 1) (length_leBytes n (x / 2 ^ 8))

theorem leNat_leBytes : ∀ n x : Nat, leNat (leBytes n x) = x % 2 ^ (8 * n)
  | 0, x => by rw [leBytes, leNat, Nat.mul_zero, Nat.pow_zero, Nat.mod_one]
  | n + 1, x => by
    rw [leBytes, leNat, leNat_leBytes n, UInt8.toNat_ofNat', Nat.mul_succ, Nat.add_comm (8 * n),
      Nat.pow_add, Nat.mod_mul]

theorem leNat_lt : ∀ l : List UInt8, leNat l < 2 ^ (8 * l.length)
  | [] => Nat.one_pos
  | b :: l => by
    have hb := b.toNat_lt
    have hl := leNat_lt l
    rw [leNat, List.length_cons, Nat.mul_succ, Nat.add_comm (8 * l.length), Nat.pow_add]
    omega

theorem leBytes_leNat : ∀ l : List UInt8, leBytes l.length (leNat l) = l
  | [] => rfl
  | b :: l => by
    have hb := b.toNat_lt
    have hlow : UInt8.ofNat (b.toNat + 2 ^ 8 * leNat l) = b := by
      apply UInt8.toNat_inj.mp
      rw [UInt8.toNat_ofNat']
      omega
    have hrest : (b.toNat + 2 ^ 8 * leNat l) / 2 ^ 8 = leNat l := by omega
    rw [List.length_cons, leBytes, leNat, hlow, hrest, leBytes_leNat l]

/-- One more byte, at the end. -/
theorem leBytes_succ : ∀ n x : Nat,
    leBytes (n + 1) x = leBytes n x ++ [UInt8.ofNat (x / 2 ^ (8 * n))]
  | 0, x => by rw [Nat.mul_zero, Nat.pow_zero, Nat.div_one]; rfl
  | n + 1, x => by
    rw [leBytes, leBytes_succ n, leBytes, List.cons_append, Nat.div_div_eq_div_mul, ← Nat.pow_add,
      Nat.mul_succ, Nat.add_comm 8]

/-- Two numbers that are put together by a shift. -/
theorem or_shiftLeft (a b : Nat) {k : Nat} (ha : a < 2 ^ k) : a ||| b <<< k = a + b * 2 ^ k := by
  rw [Nat.or_comm, ← Nat.shiftLeft_add_eq_or_of_lt ha, Nat.shiftLeft_eq, Nat.add_comm]

theorem or_of_mod_eq_zero {m n k : Nat} (hm : m % 2 ^ k = 0) (hn : n < 2 ^ k) :
    m ||| n = m + n := by
  obtain ⟨q, rfl⟩ := Nat.dvd_of_mod_eq_zero hm
  rw [Nat.mul_comm, ← Nat.shiftLeft_eq, Nat.shiftLeft_add_eq_or_of_lt hn]

/-- The bytes of a number in two parts. -/
theorem leBytes_add (n m x : Nat) :
    leBytes (n + m) x = leBytes n x ++ leBytes m (x / 2 ^ (8 * n)) := by
  induction n generalizing x with
  | zero => rw [Nat.mul_zero, Nat.pow_zero, Nat.div_one, Nat.zero_add, leBytes, List.nil_append]
  | succ n ih =>
    rw [Nat.add_right_comm, leBytes, ih, leBytes, List.cons_append, Nat.div_div_eq_div_mul,
      ← Nat.pow_add, Nat.mul_succ, Nat.add_comm 8]

/-- Only the lowest bytes count. -/
theorem leBytes_mod (n x : Nat) : leBytes n (x % 2 ^ (8 * n)) = leBytes n x := by
  have hlen : (leBytes n x).length = n := length_leBytes n x
  have hback := leBytes_leNat (leBytes n x)
  rwa [hlen, leNat_leBytes] at hback

/-- A number of `n` bytes with its bytes in the opposite order. -/
def byteSwap (n x : Nat) : Nat := leNat (leBytes n x).reverse

theorem leBytes_byteSwap (n x : Nat) : leBytes n (byteSwap n x) = (leBytes n x).reverse := by
  have hlen : (leBytes n x).reverse.length = n := by rw [List.length_reverse, length_leBytes]
  have hback := leBytes_leNat (leBytes n x).reverse
  rwa [hlen] at hback

theorem byteSwap_lt (n x : Nat) : byteSwap n x < 2 ^ (8 * n) := by
  have hlt := leNat_lt (leBytes n x).reverse
  rwa [List.length_reverse, length_leBytes] at hlt

/-- **Twice the opposite order.** -/
theorem byteSwap_byteSwap {n x : Nat} (h : x < 2 ^ (8 * n)) : byteSwap n (byteSwap n x) = x := by
  rw [byteSwap, leBytes_byteSwap, List.reverse_reverse, leNat_leBytes, Nat.mod_eq_of_lt h]

/-- The opposite order, byte by byte: the next byte becomes the lowest. -/
theorem byteSwap_succ (n x : Nat) :
    byteSwap (n + 1) x = 2 ^ 8 * byteSwap n x + x / 2 ^ (8 * n) % 2 ^ 8 := by
  rw [byteSwap, leBytes_succ, List.reverse_append, List.reverse_singleton, List.singleton_append,
    leNat, UInt8.toNat_ofNat', Nat.add_comm, byteSwap]

end Lib

end LibNax
