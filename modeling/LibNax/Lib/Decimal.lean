import Mathlib.Algebra.Group.Nat.Defs

/-!
# Numbers as decimal text

The text of a number, as `printf` writes it, and the number that `strtoul` and `atoi` read off a
text that starts with digits.

* `isDigit`, `decimalValue` — what is read: the digits up to the first other character.
* `decimal` — what is written.
* `decimalValue_take_le` — a number that is cut off.
* `decimalValue_decimal` — there and back; `isDigit_of_mem_decimal`, `length_decimal_le_iff` — what
  the text looks like.
-/

set_option autoImplicit false

namespace LibNax

namespace Lib

/-- A decimal digit. -/
def isDigit (c : UInt8) : Bool := '0'.toNat ≤ c.toNat && c.toNat ≤ '9'.toNat

theorem isDigit_iff {c : UInt8} : isDigit c = true ↔ '0'.toNat ≤ c.toNat ∧ c.toNat ≤ '9'.toNat := by
  rw [isDigit, Bool.and_eq_true, decide_eq_true_iff, decide_eq_true_iff]

/-- The number `v` goes on with the digits of a text. -/
def readDigits (v : Nat) : List UInt8 → Nat
  | [] => v
  | c :: text => if isDigit c then readDigits (10 * v + (c.toNat - '0'.toNat)) text else v

/-- The number at the front of a text. -/
def decimalValue (text : List UInt8) : Nat := readDigits 0 text

/-- The text of a number. -/
def decimal (n : Nat) : List UInt8 := (Nat.toDigits 10 n).map fun c => UInt8.ofNat c.toNat

/-- Only the digits count. -/
theorem readDigits_append {text : List UInt8} (htext : ∀ c ∈ text, isDigit c = true)
    {rest : List UInt8} (hrest : ∀ c ∈ rest.head?, isDigit c = false) (v : Nat) :
    readDigits v (text ++ rest) = readDigits v text := by
  induction text generalizing v with
  | nil =>
    cases rest with
    | nil => rfl
    | cons c rest =>
      have hc : isDigit c = false := hrest c rfl
      rw [List.nil_append, readDigits, readDigits, hc, if_neg Bool.false_ne_true]
  | cons c text ih =>
    have hc := htext c List.mem_cons_self
    rw [List.cons_append, readDigits, if_pos hc, readDigits, if_pos hc]
    exact ih (fun d hd => htext d (List.mem_cons_of_mem _ hd)) _

theorem readDigits_readDigits {text : List UInt8} (htext : ∀ c ∈ text, isDigit c = true)
    (v : Nat) (rest : List UInt8) :
    readDigits v (text ++ rest) = readDigits (readDigits v text) rest := by
  induction text generalizing v with
  | nil => rfl
  | cons c text ih =>
    have hc := htext c List.mem_cons_self
    rw [List.cons_append, readDigits, if_pos hc, readDigits, if_pos hc]
    exact ih (fun d hd => htext d (List.mem_cons_of_mem _ hd)) _

theorem le_readDigits (text : List UInt8) (v : Nat) : v ≤ readDigits v text := by
  induction text generalizing v with
  | nil => exact Nat.le_refl v
  | cons c text ih =>
    rw [readDigits]
    split
    · exact Nat.le_trans (by omega) (ih _)
    · exact Nat.le_refl v

/-- The front of a number is not larger. -/
theorem decimalValue_take_le {text : List UInt8} (htext : ∀ c ∈ text, isDigit c = true) (k : Nat) :
    decimalValue (text.take k) ≤ decimalValue text := by
  have htake : ∀ c ∈ text.take k, isDigit c = true := fun c hc =>
    htext c (List.mem_of_mem_take hc)
  have happ := readDigits_readDigits htake 0 (text.drop k)
  rw [List.take_append_drop] at happ
  rw [decimalValue, decimalValue, happ]
  exact le_readDigits _ _

theorem toNat_ofNat_digit {c : Char} (hc : c.isDigit = true) :
    (UInt8.ofNat c.toNat).toNat = c.toNat := by
  rw [UInt8.toNat_ofNat']
  exact Nat.mod_eq_of_lt (Nat.lt_of_le_of_lt (Char.isDigit_iff_toNat.mp hc).2 (by decide))

theorem isDigit_ofNat_digit {c : Char} (hc : c.isDigit = true) :
    isDigit (UInt8.ofNat c.toNat) = true := by
  rw [isDigit_iff, toNat_ofNat_digit hc]
  exact Char.isDigit_iff_toNat.mp hc

theorem isDigit_of_mem_decimal {n : Nat} {c : UInt8} (hc : c ∈ decimal n) : isDigit c = true := by
  obtain ⟨d, hd, rfl⟩ := List.mem_map.mp hc
  exact isDigit_ofNat_digit (Nat.isDigit_of_mem_toDigits (by decide) (by decide) hd)

theorem readDigits_map {text : List Char} (htext : ∀ c ∈ text, c.isDigit = true) (v : Nat) :
    readDigits v (text.map fun c => UInt8.ofNat c.toNat) = Nat.ofDigitChars 10 text v := by
  induction text generalizing v with
  | nil => rfl
  | cons c text ih =>
    have hc := htext c List.mem_cons_self
    rw [List.map_cons, readDigits, if_pos (isDigit_ofNat_digit hc), toNat_ofNat_digit hc,
      Nat.ofDigitChars_cons]
    exact ih (fun d hd => htext d (List.mem_cons_of_mem _ hd)) _

/-- **What is written is read.** -/
theorem decimalValue_decimal (n : Nat) : decimalValue (decimal n) = n := by
  rw [decimalValue, decimal, readDigits_map fun c hc =>
    Nat.isDigit_of_mem_toDigits (by decide) (by decide) hc]
  exact Nat.ofDigitChars_ten_toDigits

theorem decimal_ne_nil (n : Nat) : decimal n ≠ [] := by
  rw [decimal, ne_eq, List.map_eq_nil_iff]
  exact Nat.toDigits_ne_nil

/-- How long the text of a number is. -/
theorem length_decimal_le_iff {n k : Nat} (hk : 0 < k) : (decimal n).length ≤ k ↔ n < 10 ^ k := by
  rw [decimal, List.length_map, Nat.length_toDigits_le_iff (by decide) hk]

end Lib

end LibNax
