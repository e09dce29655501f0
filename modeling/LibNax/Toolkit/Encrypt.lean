import LibNax.Lib.Bytes
import LibNax.Lib.Int32
import Mathlib.Tactic.IntervalCases

/-!
# The encryption of the toolkit

A byte of the message and a byte of the key give two bytes, each with the even bits of one and the
odd bits of the other.  What comes out is written in characters like base64, with an alphabet of its
own and `~` at the end.  The key is not lost in it: the decryption compares.

* `encrypt`, `decrypt` — as in the source.
* `decryptPages_pages`, `unblend_blend` — packing and unpacking.
* `decrypt_pages` — what the decryption of a text does with any key.
* `encrypt_roundTrip_iff` — everything is as it should be, as long as the length of the text is an
  `int`.
-/

set_option autoImplicit false

namespace LibNax

namespace Toolkit

open Lib (int32)

/-! ## The functions of the source -/

/-- `ENCODE_TABLE`. -/
def encodeTable : List UInt8 := [
  0x32, 0x31, 0x30, 0x36, 0x46, 0x34, 0x35, 0x33, 0x45, 0x38, 0x37, 0x39, 0x43, 0x41, 0x42, 0x44,
  0x49, 0x48, 0x47, 0x4D, 0x56, 0x4B, 0x4C, 0x4A, 0x55, 0x4F, 0x4E, 0x50, 0x53, 0x51, 0x52, 0x54,
  0x59, 0x58, 0x57, 0x63, 0x6C, 0x61, 0x62, 0x5A, 0x6B, 0x65, 0x64, 0x66, 0x69, 0x67, 0x68, 0x6A,
  0x6F, 0x6E, 0x6D, 0x73, 0x28, 0x71, 0x72, 0x70, 0x27, 0x75, 0x74, 0x76, 0x79, 0x77, 0x78, 0x7A]

/-- `DECODE_TABLE`. -/
def decodeTable : List Int := [
  -1, -1, -1, -1, -1, -1, -1, -1, -1, -1, -1, -1, -1, -1, -1, -1,
  -1, -1, -1, -1, -1, -1, -1, -1, -1, -1, -1, -1, -1, -1, -1, -1,
  -1, -1, -1, -1, -1, -1, -1, 56, 52, -1, -1, -1, -1, -1, -1, -1,
  2, 1, 0, 7, 5, 6, 3, 10, 9, 11, -1, -1, -1, -1, -1, -1,
  -1, 13, 14, 12, 15, 8, 4, 18, 17, 16, 23, 21, 22, 19, 26, 25,
  27, 29, 30, 28, 31, 24, 20, 34, 33, 32, 39, -1, -1, -1, -1, -1,
  -1, 37, 38, 35, 42, 41, 43, 45, 46, 44, 47, 40, 36, 50, 49, 48,
  55, 53, 54, 51, 58, 57, 59, 61, 62, 60, 63, -1, -1, -1, -1, -1] ++ List.replicate 128 (-1)

/-- `'~'`. -/
def symbol : UInt8 := 0x7E

/-- Whether `malloc` returns a block for an `int`: a negative one asks for more than there can
be. -/
def mallocs (cb : Int) : Bool := decide (0 ≤ cb)

/-- `unsigned char` of an `int`. -/
def uchar (v : Int) : UInt8 := UInt8.ofNat (v % 256).toNat

/-- The byte of a key for a position. -/
def keyAt (key : List UInt8) (i : Nat) : UInt8 := key.getD (i % key.length) 0

/-- The two bytes for a byte of the message. -/
def blendByte (o k : UInt8) : List UInt8 :=
  [(o &&& 0xAA) ||| (k &&& 0x55), (o &&& 0x55) ||| (k &&& 0xAA)]

/-- The loop of `encrypt` over the message, from a position on. -/
def blend (key : List UInt8) : List UInt8 → Nat → List UInt8
  | [], _ => []
  | o :: ori, i => blendByte o (keyAt key i) ++ blend key ori (i + 1)

/-- A character of the text. -/
def encodeChar (v : UInt8) : UInt8 := encodeTable.getD v.toNat 0

/-- The loop of `encrypt` over the pages. -/
def encryptPages : List UInt8 → List UInt8
  | a :: b :: c :: rest =>
    [a >>> 2, (a &&& 0x03) <<< 4 ||| b >>> 4, (b &&& 0x0F) <<< 2 ||| c >>> 6, c &&& 0x3F].map
      encodeChar ++ encryptPages rest
  | _ => []

/-- The loop of `encrypt` that writes `~` at the end. -/
def addSymbols (des : List UInt8) (dstlen symbolAdd : Nat) : List UInt8 :=
  (List.range symbolAdd).foldl (fun des i => des.set (dstlen - (i + 1)) symbol) des

/-- `encrypt`: the text, or none where it returns `-1`.  The pointers for the result are there or
not. -/
def encrypt (ori : Option (List UInt8)) (key : Option (List UInt8)) (out outcb : Bool) :
    Option (List UInt8) :=
  match ori, key with
  | some ori, some key =>
    let oricb : Int := ori.length
    let blendLen := int32 (2 * oricb)
    if oricb ≤ 0 ∨ key.length < 8 ∨ ¬outcb ∨ ¬out then none
    else if mallocs blendLen then
      let symbolAdd := if blendLen.tmod 3 = 0 then 0 else 3 - blendLen.tmod 3
      let srcLen := int32 (blendLen + symbolAdd)
      let page := srcLen.tdiv 3
      if mallocs srcLen then
        let srcBuffer := blend key ori 0 ++ List.replicate symbolAdd.toNat 0
        let dstlen := int32 (page * 4)
        if mallocs dstlen then
          some (addSymbols (encryptPages srcBuffer) dstlen.toNat symbolAdd.toNat)
        else none
      else none
    else none
  | _, _ => none

/-- A character of the text, decoded; none where `decrypt` returns `-1`.  The code `-1` is an
`unsigned char` when it is compared. -/
def decodeChar (c : UInt8) : Option UInt8 :=
  if c.toNat ≥ decodeTable.length then none
  else if c ≠ symbol then
    let v := uchar (decodeTable.getD c.toNat 0)
    if (v.toNat : Int) = -1 then none else some v
  else some c

/-- A page of the text: three bytes, of which the last is what was in the memory where it is not
written, and how many of them count. -/
def decryptPage (garbage : UInt8) (s₀ s₁ s₂ s₃ : UInt8) : List UInt8 × Int :=
  let d₀ := s₀ <<< 2 ||| (s₁ &&& 0x30) >>> 4
  let d₁ := (s₁ &&& 0x0F) <<< 4
  let r := if s₂ ≠ symbol then (d₁ ||| (s₂ &&& 0x3C) >>> 2, s₂ <<< 6, (0 : Int))
      else (d₁, garbage, 1)
  let q := if s₃ ≠ symbol then (r.2.1 ||| s₃, r.2.2) else (r.2.1, r.2.2 + 1)
  ([d₀, r.1, q.1], 3 - q.2)

/-- The loop of `decrypt` over the pages: the bytes, and how many of them count. -/
def decryptPages (garbage : Nat → UInt8) : List UInt8 → Option (List UInt8 × Int)
  | a :: b :: c :: d :: rest => do
    let s₀ ← decodeChar a
    let s₁ ← decodeChar b
    let s₂ ← decodeChar c
    let s₃ ← decodeChar d
    let p := decryptPage (garbage rest.length) s₀ s₁ s₂ s₃
    let r ← decryptPages garbage rest
    some (p.1 ++ r.1, p.2 + r.2)
  | _ => some ([], 0)

/-- The loop of `decrypt` over the bytes, from a position on, with the number of rounds: the
message, if the key is the right one. -/
def unblend (key : List UInt8) : Nat → List UInt8 → Nat → Option (List UInt8)
  | 0, _, _ => some []
  | n + 1, des, i =>
    let first := des.getD 0 0
    let second := des.getD 1 0
    let outCtr := (first &&& 0xAA) ||| (second &&& 0x55)
    let keyCtr := (first &&& 0x55) ||| (second &&& 0xAA)
    if keyCtr ≠ keyAt key i then none
    else (unblend key n (des.drop 2) (i + 1)).map (outCtr :: ·)

/-- `decrypt`: the message, or none where it returns `-1`. -/
def decrypt (garbage : Nat → UInt8) (crypt : Option (List UInt8)) (key : Option (List UInt8)) :
    Option (List UInt8) :=
  match crypt, key with
  | some crypt, some key =>
    if crypt.length = 0 ∨ crypt.length % 4 ≠ 0 ∨ key.length < 8 then none
    else
      (decryptPages garbage crypt).bind fun r =>
        if r.2.tmod 2 ≠ 0 then none else unblend key (r.2.tdiv 2).toNat r.1 0
  | _, _ => none

/-! ## Bits -/

theorem eq_of_bits {a b : UInt8}
    (h : ∀ i < 8, a.toBitVec.getLsbD i = b.toBitVec.getLsbD i) : a = b :=
  UInt8.toBitVec_inj.mp (BitVec.eq_of_getLsbD_eq h)

section Bits

variable (a b c : UInt8)

theorem unpack_first : (a >>> 2) <<< 2 |||
    (((a &&& 0x03) <<< 4 ||| b >>> 4) &&& 0x30) >>> 4 = a := by
  refine eq_of_bits fun i hi => ?_
  interval_cases i <;> simp

theorem unpack_second : (((a &&& 0x03) <<< 4 ||| b >>> 4) &&& 0x0F) <<< 4 |||
    (((b &&& 0x0F) <<< 2 ||| c >>> 6) &&& 0x3C) >>> 2 = b := by
  refine eq_of_bits fun i hi => ?_
  interval_cases i <;> simp

theorem unpack_third : ((b &&& 0x0F) <<< 2 ||| c >>> 6) <<< 6 ||| (c &&& 0x3F) = c := by
  refine eq_of_bits fun i hi => ?_
  interval_cases i <;> simp

theorem unblend_message : (((a &&& 0xAA) ||| (b &&& 0x55)) &&& 0xAA) |||
    (((a &&& 0x55) ||| (b &&& 0xAA)) &&& 0x55) = a := by
  refine eq_of_bits fun i hi => ?_
  interval_cases i <;> simp

theorem unblend_key : (((a &&& 0xAA) ||| (b &&& 0x55)) &&& 0x55) |||
    (((a &&& 0x55) ||| (b &&& 0xAA)) &&& 0xAA) = b := by
  refine eq_of_bits fun i hi => ?_
  interval_cases i <;> simp

end Bits

/-! ## Packing -/

/-- The tables are inverse to each other, and `~` is not in the alphabet. -/
theorem tables : ∀ n < 64, decodeChar (encodeTable.getD n 0) = some (UInt8.ofNat n) := by
  decide +kernel

theorem decodeChar_symbol : decodeChar symbol = some symbol := by
  decide +kernel

/-- Six bits. -/
def IsSextet (v : UInt8) : Prop := v &&& 0x3F = v

theorem IsSextet.lt {v : UInt8} (h : IsSextet v) : v.toNat < 64 := by
  rw [← h, UInt8.toNat_and]
  exact Nat.lt_of_le_of_lt Nat.and_le_right (by decide)

theorem IsSextet.ne_symbol {v : UInt8} (h : IsSextet v) : v ≠ symbol := by
  rintro rfl
  exact absurd h.lt (by decide)

theorem IsSextet.decodeChar {v : UInt8} (h : IsSextet v) : decodeChar (encodeChar v) = some v := by
  rw [encodeChar, tables _ h.lt, UInt8.ofNat_toNat]

section Sextets

variable (a b c : UInt8)

theorem isSextet_first : IsSextet (a >>> 2) := by
  refine eq_of_bits fun i hi => ?_
  interval_cases i <;> simp

theorem isSextet_second : IsSextet ((a &&& 0x03) <<< 4 ||| b >>> 4) := by
  refine eq_of_bits fun i hi => ?_
  interval_cases i <;> simp

theorem isSextet_third : IsSextet ((b &&& 0x0F) <<< 2 ||| c >>> 6) := by
  refine eq_of_bits fun i hi => ?_
  interval_cases i <;> simp

theorem isSextet_fourth : IsSextet (c &&& 0x3F) := by
  refine eq_of_bits fun i hi => ?_
  interval_cases i <;> simp

end Sextets

/-- The text of the bytes: pages, the last one with `~` for what is missing. -/
def pages : List UInt8 → List UInt8
  | [] => []
  | [a] => [encodeChar (a >>> 2), encodeChar ((a &&& 0x03) <<< 4 ||| (0 : UInt8) >>> 4),
      symbol, symbol]
  | [a, b] => [encodeChar (a >>> 2), encodeChar ((a &&& 0x03) <<< 4 ||| b >>> 4),
      encodeChar ((b &&& 0x0F) <<< 2 ||| (0 : UInt8) >>> 6), symbol]
  | a :: b :: c :: rest => [encodeChar (a >>> 2), encodeChar ((a &&& 0x03) <<< 4 ||| b >>> 4),
      encodeChar ((b &&& 0x0F) <<< 2 ||| c >>> 6), encodeChar (c &&& 0x3F)] ++ pages rest

/-- How many bytes the last page misses. -/
def missing (n : Nat) : Nat := (3 - n % 3) % 3

theorem length_pages : ∀ x : List UInt8, (pages x).length = 4 * ((x.length + 2) / 3)
  | [] => rfl
  | [_] => by simp [pages]
  | [_, _] => by simp [pages]
  | _ :: _ :: _ :: rest => by
    simp only [pages, List.length_append, List.length_cons, List.length_nil, length_pages rest]
    omega

theorem addSymbols_eq {des : List UInt8} {n : Nat} (h : n ≤ 2) (hle : n ≤ des.length) :
    addSymbols des des.length n = des.take (des.length - n) ++ List.replicate n symbol := by
  obtain ⟨l, t, rfl, ht⟩ : ∃ l t, des = l ++ t ∧ t.length = n :=
    ⟨des.take (des.length - n), des.drop (des.length - n), (List.take_append_drop _ _).symm, by
      rw [List.length_drop]
      omega⟩
  subst ht
  rw [List.length_append, Nat.add_sub_cancel, List.take_left]
  match t, h with
  | [], _ => simp [addSymbols]
  | [a], _ => simp [addSymbols, List.range_succ]
  | [a, b], _ => simp [addSymbols, List.range_succ]

theorem missing_le (n : Nat) : missing n ≤ 2 := by
  rw [missing]
  omega

theorem missing_add_three (n : Nat) : missing (n + 3) = missing n := by
  rw [missing, missing, Nat.add_mod_right]

theorem length_encryptPages : ∀ x : List UInt8,
    (encryptPages (x ++ List.replicate (missing x.length) 0)).length = 4 * ((x.length + 2) / 3)
  | [] => rfl
  | [_] => by simp [missing, encryptPages, List.replicate]
  | [_, _] => by simp [missing, encryptPages]
  | a :: b :: c :: rest => by
    simp only [List.length_cons, missing_add_three, List.cons_append, encryptPages,
      List.length_append, List.length_map, List.length_nil, length_encryptPages rest]
    omega

theorem take_encryptPages : ∀ x : List UInt8,
    (encryptPages (x ++ List.replicate (missing x.length) 0)).take
      (4 * ((x.length + 2) / 3) - missing x.length) ++ List.replicate (missing x.length) symbol =
        pages x
  | [] => rfl
  | [_] => by simp [missing, encryptPages, List.replicate, pages]
  | [_, _] => by simp [missing, encryptPages, pages]
  | a :: b :: c :: rest => by
    have hmissing := missing_le rest.length
    have hle : missing rest.length ≤ 4 * ((rest.length + 2) / 3) := by
      rw [missing]
      omega
    have hlen : 4 * (((a :: b :: c :: rest).length + 2) / 3) - missing rest.length =
        4 + (4 * ((rest.length + 2) / 3) - missing rest.length) := by
      simp only [List.length_cons]
      omega
    rw [List.length_cons, List.length_cons, List.length_cons, missing_add_three] at *
    simp only [List.cons_append, encryptPages, hlen, pages, ← take_encryptPages rest]
    rw [← List.append_assoc, List.take_append, List.take_of_length_le (by simp)]
    simp

/-- The text that `encrypt` makes of the bytes. -/
theorem addSymbols_encryptPages (x : List UInt8) :
    addSymbols (encryptPages (x ++ List.replicate (missing x.length) 0)) (4 * ((x.length + 2) / 3))
      (missing x.length) = pages x := by
  have hlen := length_encryptPages x
  have hle : missing x.length ≤ 4 * ((x.length + 2) / 3) := by
    rw [missing]
    omega
  rw [← hlen] at hle ⊢
  rw [addSymbols_eq (missing_le _) hle, hlen, take_encryptPages]

/-- **Unpacking**: the bytes, with something behind them, and their number. -/
theorem decryptPages_pages (garbage : Nat → UInt8) : ∀ x : List UInt8, ∃ tail,
    decryptPages garbage (pages x) = some (x ++ tail, (x.length : Int))
  | [] => ⟨[], rfl⟩
  | [a] => by
    refine ⟨[(((a &&& 0x03) <<< 4 ||| (0 : UInt8) >>> 4) &&& 0x0F) <<< 4, garbage 0], ?_⟩
    simp only [pages, decryptPages, (isSextet_first a).decodeChar, (isSextet_second a 0).decodeChar,
      decodeChar_symbol, Option.bind_eq_bind, Option.bind_some, decryptPage, ne_eq,
      not_true_eq_false, if_false, unpack_first]
    simp
  | [a, b] => by
    refine ⟨[((b &&& 0x0F) <<< 2 ||| (0 : UInt8) >>> 6) <<< 6], ?_⟩
    simp only [pages, decryptPages, (isSextet_first a).decodeChar, (isSextet_second a b).decodeChar,
      (isSextet_third b 0).decodeChar, decodeChar_symbol, Option.bind_eq_bind, Option.bind_some,
      decryptPage, ne_eq, (isSextet_third b 0).ne_symbol, not_false_eq_true, not_true_eq_false,
      if_true, if_false, unpack_first, unpack_second]
    simp
  | a :: b :: c :: rest => by
    obtain ⟨tail, htail⟩ := decryptPages_pages garbage rest
    refine ⟨tail, ?_⟩
    simp only [pages, decryptPages, List.cons_append, List.nil_append,
      (isSextet_first a).decodeChar,
      (isSextet_second a b).decodeChar, (isSextet_third b c).decodeChar,
      (isSextet_fourth c).decodeChar,
      Option.bind_eq_bind, Option.bind_some, decryptPage, ne_eq, (isSextet_third b c).ne_symbol,
      (isSextet_fourth c).ne_symbol, not_false_eq_true, if_true, unpack_first, unpack_second,
      unpack_third, htail]
    simp only [List.length_cons, Option.some.injEq, Prod.mk.injEq]
    exact ⟨trivial, by omega⟩

/-! ## Blending -/

@[simp] theorem length_blend (key : List UInt8) : ∀ (m : List UInt8) (i : Nat),
    (blend key m i).length = 2 * m.length
  | [], _ => rfl
  | o :: m, i => by
    rw [blend, List.length_append, length_blend key m, blendByte, List.length_cons,
      List.length_cons,
      List.length_nil, List.length_cons]
    omega

/-- The two keys are the same as far as the message goes, from a position on. -/
def Agree (key key' : List UInt8) (i n : Nat) : Prop :=
    ∀ j < n, keyAt key' (i + j) = keyAt key (i + j)

instance (key key' : List UInt8) (i n : Nat) : Decidable (Agree key key' i n) :=
  inferInstanceAs (Decidable (∀ j < n, _))

theorem agree_succ (key key' : List UInt8) (i n : Nat) :
    Agree key key' i (n + 1) ↔ keyAt key' i = keyAt key i ∧ Agree key key' (i + 1) n := by
  constructor
  · intro h
    refine ⟨h 0 (by omega), fun j hj => ?_⟩
    have := h (j + 1) (by omega)
    rwa [Nat.add_assoc, Nat.add_comm 1 j]
  · rintro ⟨h₀, h⟩ j hj
    cases j with
    | zero => exact h₀
    | succ j =>
      have := h j (by omega)
      rwa [Nat.add_assoc, Nat.add_comm 1 j] at this

/-- Decoding what was blended, with any key. -/
theorem unblend_blend (key key' tail : List UInt8) : ∀ (m : List UInt8) (i : Nat),
    unblend key' m.length (blend key m i ++ tail) i = if Agree key key' i m.length
    then some m else none
  | [], i => by
    have hagree : Agree key key' i 0 := fun j hj => absurd hj (Nat.not_lt_zero j)
    exact (if_pos hagree).symm
  | o :: m, i => by
    simp only [List.length_cons, unblend, blend, blendByte, List.cons_append, List.nil_append,
      List.getD_cons_zero, List.getD_cons_succ, List.drop_succ_cons, List.drop_zero,
      unblend_message,
      unblend_key, unblend_blend key key' tail m, agree_succ]
    by_cases hkey : keyAt key i = keyAt key' i
    · simp only [hkey, ne_eq, not_true_eq_false, if_false, true_and]
      split
      · rfl
      · rfl
    · simp only [ne_eq, hkey, not_false_eq_true, if_true]
      rw [if_neg fun h => hkey h.1.symm]

/-! ## Both ways -/

section RoundTrip

variable {m k k' : List UInt8}

theorem symbolAdd_eq (n : Nat) :
    (if (n : Int).tmod 3 = 0 then (0 : Int) else 3 - (n : Int).tmod 3) = (missing n : Nat) := by
  rw [missing, Int.tmod_eq_emod_of_nonneg (by omega)]
  split
  · omega
  · omega

theorem page_eq (n : Nat) : ((n + missing n : Nat) : Int).tdiv 3 = ((n + 2) / 3 : Nat) := by
  rw [missing, Int.tdiv_eq_ediv_of_nonneg (by omega)]
  omega

/-- The text of a message, as long as its length is an `int`. -/
theorem encrypt_eq (hm : m ≠ []) (hlen : 2 * m.length + 2 < 2 ^ 31) (hk : 8 ≤ k.length) :
    encrypt (some m) (some k) true true =
      if 4 * ((2 * m.length + 2) / 3) < 2 ^ 31 then some (pages (blend k m 0)) else none := by
  have hpos : 0 < m.length := List.length_pos_iff.mpr hm
  have hblend : int32 (2 * (m.length : Int)) = (2 * m.length : Nat) := by
    rw [Lib.int32_of_inInt32 ⟨by omega, by omega⟩]
    omega
  have hsrc : int32 (((2 * m.length : Nat) : Int) + (missing (2 * m.length) : Nat)) =
      (2 * m.length + missing (2 * m.length) : Nat) := by
    have := missing_le (2 * m.length)
    rw [Lib.int32_of_inInt32 ⟨by omega, by omega⟩]
    omega
  have hlegal : ¬((m.length : Int) ≤ 0 ∨ k.length < 8 ∨ ¬True ∨ ¬True) := by
    simp only [not_true_eq_false, or_false]
    omega
  have hmalloc : ∀ n : Nat, mallocs n = true := fun n => decide_eq_true (Int.natCast_nonneg n)
  rw [encrypt]
  simp only [hblend, symbolAdd_eq, hsrc, page_eq]
  rw [if_neg hlegal, if_pos (hmalloc _), if_pos (hmalloc _)]
  simp only [Int.toNat_natCast]
  by_cases hfit : 4 * ((2 * m.length + 2) / 3) < 2 ^ 31
  · have hdst : int32 (((2 * m.length + 2) / 3 : Nat) * 4) =
        (4 * ((2 * m.length + 2) / 3) : Nat) := by
      rw [Lib.int32_of_inInt32 ⟨by omega, by omega⟩]
      omega
    have htext := addSymbols_encryptPages (blend k m 0)
    rw [length_blend] at htext
    rw [hdst, if_pos (hmalloc _), if_pos hfit, Int.toNat_natCast, htext]
  · have hdst : int32 (((2 * m.length + 2) / 3 : Nat) * 4) < 0 := by
      have hpage : (2 * m.length + 2) / 3 < 2 ^ 30 := by omega
      have hmod : (((2 * m.length + 2) / 3 : Nat) : Int) * 4 % (2 ^ 32 : Nat) =
          ((2 * m.length + 2) / 3 : Nat) * 4 := Int.emod_eq_of_lt (by omega) (by omega)
      rw [int32, Int.bmod_def, hmod, if_neg (by omega)]
      omega
    rw [if_neg hfit, if_neg]
    rw [mallocs, decide_eq_true_eq]
    omega

/-- **Decryption** of the text of a message with any key. -/
theorem decrypt_pages (garbage : Nat → UInt8) (hm : m ≠ []) (hk' : 8 ≤ k'.length) :
    decrypt garbage (some (pages (blend k m 0))) (some k') =
      if Agree k k' 0 m.length then some m else none := by
  have hpos : 0 < m.length := List.length_pos_iff.mpr hm
  have hlen := length_pages (blend k m 0)
  rw [length_blend] at hlen
  obtain ⟨tail, htail⟩ := decryptPages_pages garbage (blend k m 0)
  rw [length_blend] at htail
  have heven : (((2 * m.length : Nat) : Int)).tmod 2 = 0 := by
    rw [Int.tmod_eq_emod_of_nonneg (by omega)]
    omega
  have hhalf : (((2 * m.length : Nat) : Int)).tdiv 2 = m.length := by
    rw [Int.tdiv_eq_ediv_of_nonneg (by omega)]
    omega
  rw [decrypt]
  simp only [hlen]
  rw [if_neg (by omega), htail, Option.bind_some]
  simp only [heven, hhalf, ne_eq, not_true_eq_false, if_false, Int.toNat_natCast, unblend_blend]

/-- What is asked of the two functions for a message and a key. -/
def RoundTrips (m k : List UInt8) : Prop :=
  ∀ garbage : Nat → UInt8, ∃ text, encrypt (some m) (some k) true true = some text ∧
    decrypt garbage (some text) (some k) = some m ∧
    ∀ k' : List UInt8, 8 ≤ k'.length →
      ((decrypt garbage (some text) (some k')).isSome ↔
        ∀ i < m.length, keyAt k' i = keyAt k i) ∧
      ((∀ i < m.length, keyAt k' i = keyAt k i) →
        decrypt garbage (some text) (some k') = some m)

/-- **The round trip and the test of the key**, for exactly the messages whose text has a length
that is an `int`. -/
theorem encrypt_roundTrip_iff (hm : m ≠ []) (hlen : 2 * m.length + 2 < 2 ^ 31) (hk : 8 ≤ k.length) :
    RoundTrips m k ↔ 4 * ((2 * m.length + 2) / 3) < 2 ^ 31 := by
  constructor
  · intro h
    obtain ⟨text, htext, -⟩ := h fun _ => 0
    rw [encrypt_eq hm hlen hk] at htext
    by_contra hfit
    rw [if_neg hfit] at htext
    cases htext
  · intro hfit garbage
    have hagree : ∀ k' : List UInt8, Agree k k' 0 m.length ↔ ∀ i < m.length,
        keyAt k' i = keyAt k i := by
      intro k'
      simp only [Agree, Nat.zero_add]
    refine ⟨pages (blend k m 0), ?_, ?_, fun k' hk' => ⟨?_, fun h => ?_⟩⟩
    · rw [encrypt_eq hm hlen hk, if_pos hfit]
    · rw [decrypt_pages garbage hm hk, if_pos ((hagree k).mpr fun _ _ => rfl)]
    · rw [decrypt_pages garbage hm hk', ← hagree]
      split
      · exact ⟨fun _ => ‹_›, fun _ => rfl⟩
      · exact ⟨fun h => (by cases h), fun h => absurd h ‹_›⟩
    · rw [decrypt_pages garbage hm hk', if_pos ((hagree k').mpr h)]

/-- A message of fourteen pages, over which the key is repeated twice and a half. -/
theorem encrypt_roundTrips_pages :
    RoundTrips ((List.range 20).map fun i => UInt8.ofNat (7 * i + 1)) [1, 2, 3, 4, 5, 6, 7, 8] :=
  (encrypt_roundTrip_iff (by decide) (by decide) (by decide)).mpr (by decide)

/-- The text of 805306367 bytes would have 2147483648 characters: there is none. -/
theorem encrypt_too_long : ¬RoundTrips (List.replicate 805306367 0) [1, 2, 3, 4, 5, 6, 7, 8] := by
  intro h
  obtain ⟨text, htext, -⟩ := h fun _ => 0
  have hlen : (List.replicate 805306367 (0 : UInt8)).length = 805306367 := List.length_replicate
  rw [encrypt_eq (List.ne_nil_of_length_pos (by rw [hlen]; decide))
    (by rw [hlen]; decide) (by decide),
    hlen, if_neg (by decide)] at htext
  cases htext

end RoundTrip

end Toolkit

end LibNax
