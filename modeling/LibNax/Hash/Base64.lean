import LibNax.Lib.Bytes
import LibNax.Lib.Int32

/-!
# Base64

Three bytes are written as four characters, and a last group of one or two bytes is filled up with
`=`.  The encoder leaves its loop there before it has moved the index of the output, and so the zero
at the end of the text lands on the first character of the last group.

* `base64Encode`, `base64Decode` and the functions around them — as in the source.
* `rfc4648` — the encoding as the RFC has it, on groups of 24 bits.
* `base64Encode_rfc`, `base64DecodeLen_rfc`, `base64Decode_rfc` — what the functions do with it.
* `base64_roundTrip_iff` — everything is as it should be exactly for a multiple of three bytes.

A `char` is signed: it is a byte here, and its right shift `sar` copies the highest bit.
-/

set_option autoImplicit false

namespace LibNax

namespace Hash

open Lib (int32 overwrite)

/-! ## The functions of the source -/

/-- The right shift of a `char`. -/
def sar (c : UInt8) (n : Nat) : UInt8 := ⟨c.toBitVec.sshiftRight n⟩

/-- The code of a character. -/
def code (c : Char) : UInt8 := UInt8.ofNat c.toNat

/-- `'='`. -/
def pad : UInt8 := code '='

/-- `base64char`. -/
def base64char : List UInt8 :=
  ['A', 'B', 'C', 'D', 'E', 'F', 'G', 'H', 'I', 'J', 'K', 'L', 'M', 'N', 'O', 'P', 'Q', 'R', 'S',
    'T', 'U', 'V', 'W', 'X', 'Y', 'Z', 'a', 'b', 'c', 'd', 'e', 'f', 'g', 'h', 'i', 'j', 'k', 'l',
    'm', 'n', 'o', 'p', 'q', 'r', 's', 't', 'u', 'v', 'w', 'x', 'y', 'z', '0', '1', '2', '3', '4',
    '5', '6', '7', '8', '9', '+', '/'].map code

/-- The character at an index of the table. -/
def charAt (current : UInt8) : UInt8 := base64char.getD current.toNat 0

/-- `base64_encode_len`. -/
def base64EncodeLen (length : Int) : Int :=
  let cntSymbolAdd := if length.tmod 3 ≠ 0 then 3 - length.tmod 3 else 0
  int32 ((int32 (length + cntSymbolAdd)).tdiv 3 * 4)

/-- The loop of `base64_encode` over what is left of the input, with the index of the output.  At a
`break` the index stays where it is. -/
def encodeLoop : List UInt8 → Nat → List UInt8 → List UInt8 × Nat
  | [], j, output => (output, j)
  | [a], j, output =>
    let output := output.set j (charAt (sar a 2 &&& 0x3F))
    let output := output.set (j + 1) (charAt (a <<< 4 &&& 0x30))
    let output := output.set (j + 2) pad
    (output.set (j + 3) pad, j)
  | [a, b], j, output =>
    let output := output.set j (charAt (sar a 2 &&& 0x3F))
    let output := output.set (j + 1) (charAt (a <<< 4 &&& 0x30 ||| sar b 4 &&& 0x0F))
    let output := output.set (j + 2) (charAt (b <<< 2 &&& 0x3C))
    (output.set (j + 3) pad, j)
  | a :: b :: c :: input, j, output =>
    let output := output.set j (charAt (sar a 2 &&& 0x3F))
    let output := output.set (j + 1) (charAt (a <<< 4 &&& 0x30 ||| sar b 4 &&& 0x0F))
    let output := output.set (j + 2) (charAt (b <<< 2 &&& 0x3C ||| sar c 6 &&& 0x03))
    let output := output.set (j + 3) (charAt (c &&& 0x3F))
    encodeLoop input (j + 4) output

/-- `base64_encode`: the output, or null. -/
def base64Encode (input : Option (List UInt8)) (length : Int) (output : Option (List UInt8)) :
    Option (List UInt8) :=
  match input, output with
  | some input, some output =>
    if length ≤ 0 then none
    else
      let r := encodeLoop (input.take length.toNat) 0 output
      some (r.1.set r.2 0)
  | _, _ => none

/-- `base64_decode_len`. -/
def base64DecodeLen (base64 : Option (List UInt8)) (base64Len : Int) : Int :=
  match base64 with
  | none => -1
  | some base64 =>
    if base64Len ≤ 0 then -1
    else
      let len := base64Len / 4 * 3
      let len := if base64.getD (base64Len - 1).toNat 0 = pad then len - 1 else len
      if base64.getD (base64Len - 2).toNat 0 = pad then len - 1 else len

/-- A search in the table: the last index with the character, or `0xFF`. -/
def indexOf (c : UInt8) : UInt8 :=
  (List.range 64).foldl (fun temp k => if base64char.getD k 0 = c then UInt8.ofNat k else temp) 0xFF

/-- The loop of `base64_decode`, by the number of rounds that are left: what was written to the
output. A `break` ends it. -/
def decodeLoop (base64 : List UInt8) : Nat → Nat → List UInt8 → List UInt8
  | 0, _, bindata => bindata
  | n + 1, i, bindata =>
    let temp0 := indexOf (base64.getD i 0)
    let temp1 := indexOf (base64.getD (i + 1) 0)
    let temp2 := indexOf (base64.getD (i + 2) 0)
    let temp3 := indexOf (base64.getD (i + 3) 0)
    let bindata := bindata ++ [temp0 <<< 2 &&& 0xFC ||| sar temp1 4 &&& 0x03]
    if base64.getD (i + 2) 0 = pad then bindata
    else
      let bindata := bindata ++ [temp1 <<< 4 &&& 0xF0 ||| sar temp2 2 &&& 0x0F]
      if base64.getD (i + 3) 0 = pad then bindata
      else decodeLoop base64 n (i + 4) (bindata ++ [temp2 <<< 6 &&& 0xF0 ||| temp3 &&& 0x3F])

/-- `base64_decode`: what it returns, and the output. -/
def base64Decode (base64 : Option (List UInt8)) (base64Len : Int)
    (bindata : Option (List UInt8)) : Int × Option (List UInt8) :=
  match base64, bindata with
  | some base64, some bindata =>
    if base64Len ≤ 0 then (-1, some bindata)
    else
      let r := decodeLoop base64 ((base64Len.toNat + 3) / 4) 0 []
      (r.length, some (overwrite bindata 0 r))
  | _, _ => (-1, bindata)

/-- `base64_encode2`: what it returns, `*outcb`, and the output. -/
def base64Encode2 (input : Option (List UInt8)) (incb : Int) (output : Option (List UInt8))
    (outcb : Option Int) : Int × Option Int × Option (List UInt8) :=
  if input = none ∨ incb ≤ 0 ∨ outcb = none then (-1, outcb, output)
  else
    let cb := base64EncodeLen incb
    if cb ≤ 0 then (-1, some cb, output)
    else if output = none then (cb, some cb, output)
    else
      match base64Encode input incb output with
      | none => (-1, some cb, output)
      | some text => (cb, some cb, some text)

/-- `base64_decode2`: what it returns, `*outcb`, and the output. -/
def base64Decode2 (input : Option (List UInt8)) (incb : Int) (output : Option (List UInt8))
    (outcb : Option Int) : Int × Option Int × Option (List UInt8) :=
  if input = none ∨ incb ≤ 0 ∨ outcb = none then (-1, outcb, output)
  else
    let cb := base64DecodeLen input incb
    if cb ≤ 0 then (-1, some cb, output)
    else if output = none then (cb, some cb, output)
    else
      let r := base64Decode input incb output
      (r.1, some cb, r.2)

/-! ## The encoding of the RFC -/

/-- The alphabet. -/
def alphabet (v : Nat) : UInt8 :=
  if v < 26 then UInt8.ofNat ('A'.toNat + v)
  else if v < 52 then UInt8.ofNat ('a'.toNat + (v - 26))
  else if v < 62 then UInt8.ofNat ('0'.toNat + (v - 52))
  else if v = 62 then code '+'
  else code '/'

/-- The `k`-th of the four groups of six bits, from the left, of a group of 24 bits. -/
def sextet (bits k : Nat) : UInt8 := alphabet (bits / 2 ^ (18 - 6 * k) % 2 ^ 6)

/-- Groups of 24 bits, from the left.  Zeros are added to a last group of 8 or 16 bits, and the
places that are left are filled with `=`. -/
def rfc4648 : List UInt8 → List UInt8
  | [] => []
  | [a] =>
    let bits := a.toNat * 2 ^ 16
    [sextet bits 0, sextet bits 1, pad, pad]
  | [a, b] =>
    let bits := a.toNat * 2 ^ 16 + b.toNat * 2 ^ 8
    [sextet bits 0, sextet bits 1, sextet bits 2, pad]
  | a :: b :: c :: rest =>
    let bits := a.toNat * 2 ^ 16 + b.toNat * 2 ^ 8 + c.toNat
    sextet bits 0 :: sextet bits 1 :: sextet bits 2 :: sextet bits 3 :: rfc4648 rest

/-! ## Six bits and eight bits -/

theorem or_eq_add {a b : Nat} {k : Nat} (hb : b < 2 ^ k) : 2 ^ k * a ||| b = 2 ^ k * a + b :=
  (Nat.two_pow_add_eq_or_of_lt hb a).symm

/-- The shifts and masks of the encoder, and those of the decoder, on all bytes. -/
theorem masks : ∀ a : BitVec 8,
    ((a.sshiftRight 2 &&& 0x3F#8).toNat = a.toNat / 4 ∧
      (a <<< 4 &&& 0x30#8).toNat = 2 ^ 4 * (a.toNat % 4) ∧
      (a.sshiftRight 4 &&& 0x0F#8).toNat = a.toNat / 16 ∧
      (a <<< 2 &&& 0x3C#8).toNat = 2 ^ 2 * (a.toNat % 16) ∧
      (a.sshiftRight 6 &&& 0x03#8).toNat = a.toNat / 64 ∧ (a &&& 0x3F#8).toNat = a.toNat % 64) ∧
    (a.toNat < 64 → (a <<< 2 &&& 0xFC#8).toNat = 2 ^ 2 * a.toNat ∧
      (a.sshiftRight 4 &&& 0x03#8).toNat = a.toNat / 16 ∧
      (a <<< 4 &&& 0xF0#8).toNat = 2 ^ 4 * (a.toNat % 16) ∧
      (a.sshiftRight 2 &&& 0x0F#8).toNat = a.toNat / 4 ∧
      (a <<< 6 &&& 0xF0#8).toNat = 2 ^ 6 * (a.toNat % 4)) := by
  decide +kernel

theorem sar_two (a : UInt8) : (sar a 2 &&& 0x3F).toNat = a.toNat / 4 :=
  (masks a.toBitVec).1.1

theorem shl_four (a : UInt8) : (a <<< 4 &&& 0x30).toNat = 2 ^ 4 * (a.toNat % 4) :=
  (masks a.toBitVec).1.2.1

theorem sar_four (b : UInt8) : (sar b 4 &&& 0x0F).toNat = b.toNat / 16 :=
  (masks b.toBitVec).1.2.2.1

theorem shl_two (b : UInt8) : (b <<< 2 &&& 0x3C).toNat = 2 ^ 2 * (b.toNat % 16) :=
  (masks b.toBitVec).1.2.2.2.1

theorem sar_six (c : UInt8) : (sar c 6 &&& 0x03).toNat = c.toNat / 64 :=
  (masks c.toBitVec).1.2.2.2.2.1

theorem and_63 (c : UInt8) : (c &&& 0x3F).toNat = c.toNat % 64 :=
  (masks c.toBitVec).1.2.2.2.2.2

/-- The table and the search in it. -/
theorem alphabet_spec : ∀ v < 64, base64char.getD v 0 = alphabet v ∧
    (indexOf (alphabet v)).toNat = v ∧ alphabet v ≠ pad ∧ alphabet v ≠ 0 := by
  decide +kernel

theorem charAt_eq {current : UInt8} {v : Nat} (h : current.toNat = v) (hv : v < 64) :
    charAt current = alphabet v := by
  rw [charAt, h, (alphabet_spec v hv).1]

section Sextets

variable (a b c : UInt8)

theorem charAt_first {low : Nat} (hlow : low < 2 ^ 16) :
    charAt (sar a 2 &&& 0x3F) = sextet (a.toNat * 2 ^ 16 + low) 0 := by
  have ha := a.toNat_lt
  rw [sextet, charAt_eq (sar_two a) (by omega)]
  congr 1
  omega

theorem charAt_second {low : Nat} (hlow : low < 2 ^ 8) :
    charAt (a <<< 4 &&& 0x30 ||| sar b 4 &&& 0x0F) =
      sextet (a.toNat * 2 ^ 16 + b.toNat * 2 ^ 8 + low) 1 := by
  have ha := a.toNat_lt
  have hb := b.toNat_lt
  have hor : (a <<< 4 &&& 0x30 ||| sar b 4 &&& 0x0F).toNat =
      2 ^ 4 * (a.toNat % 4) + b.toNat / 16 := by
    rw [UInt8.toNat_or, shl_four, sar_four, or_eq_add (by omega)]
  rw [sextet, charAt_eq hor (by omega)]
  congr 1
  omega

theorem charAt_third :
    charAt (b <<< 2 &&& 0x3C ||| sar c 6 &&& 0x03) =
      sextet (a.toNat * 2 ^ 16 + b.toNat * 2 ^ 8 + c.toNat) 2 := by
  have hb := b.toNat_lt
  have hc := c.toNat_lt
  have hor : (b <<< 2 &&& 0x3C ||| sar c 6 &&& 0x03).toNat =
      2 ^ 2 * (b.toNat % 16) + c.toNat / 64 := by
    rw [UInt8.toNat_or, shl_two, sar_six, or_eq_add (by omega)]
  rw [sextet, charAt_eq hor (by omega)]
  congr 1
  omega

theorem charAt_fourth : charAt (c &&& 0x3F) =
    sextet (a.toNat * 2 ^ 16 + b.toNat * 2 ^ 8 + c.toNat) 3 := by
  rw [sextet, charAt_eq (and_63 c) (by omega)]
  congr 1
  omega

theorem charAt_second_last : charAt (a <<< 4 &&& 0x30) = sextet (a.toNat * 2 ^ 16) 1 := by
  have ha := a.toNat_lt
  rw [sextet, charAt_eq (shl_four a) (by omega)]
  congr 1
  omega

theorem charAt_third_last : charAt (b <<< 2 &&& 0x3C) =
    sextet (a.toNat * 2 ^ 16 + b.toNat * 2 ^ 8) 2 := by
  have hb := b.toNat_lt
  rw [sextet, charAt_eq (shl_two b) (by omega)]
  congr 1
  omega

end Sextets

/-! ## Encoding -/

@[simp] theorem length_rfc4648 : ∀ x : List UInt8, (rfc4648 x).length = 4 * ((x.length + 2) / 3)
  | [] => rfl
  | [_] => by simp [rfc4648]
  | [_, _] => by simp [rfc4648]
  | _ :: _ :: _ :: rest => by
    simp only [rfc4648, List.length_cons, length_rfc4648 rest]
    omega

/-- The four characters of a round. -/
theorem set_four {output : List UInt8} {j : Nat} (h : j + 4 ≤ output.length) (a b c d : UInt8) :
    (((output.set j a).set (j + 1) b).set (j + 2) c).set (j + 3) d =
      overwrite output j [a, b, c, d] := by
  have h₂ : overwrite (overwrite output j [a]) (j + 1) [b] = overwrite output j [a, b] :=
    Lib.overwrite_overwrite (a := [a]) (show j + 1 ≤ output.length by omega) [b]
  have h₃ : overwrite (overwrite output j [a, b]) (j + 2) [c] = overwrite output j [a, b, c] :=
    Lib.overwrite_overwrite (a := [a, b]) (show j + 2 ≤ output.length by omega) [c]
  have h₄ : overwrite (overwrite output j [a, b, c]) (j + 3) [d] =
      overwrite output j [a, b, c, d] :=
    Lib.overwrite_overwrite (a := [a, b, c]) (show j + 3 ≤ output.length by omega) [d]
  rw [Lib.set_eq_overwrite (by simp; omega), Lib.set_eq_overwrite (by simp; omega),
    Lib.set_eq_overwrite (by simp; omega), Lib.set_eq_overwrite (by omega), h₂, h₃, h₄]

/-- The loop writes the text and stops at the first group that it cannot finish. -/
theorem encodeLoop_eq : ∀ (x : List UInt8) (j : Nat) (output : List UInt8),
    j + (rfc4648 x).length ≤ output.length →
      encodeLoop x j output = (overwrite output j (rfc4648 x), j + 4 * (x.length / 3))
  | [], j, output, _ => by
    simp [encodeLoop, rfc4648, overwrite]
  | [a], j, output, h => by
    have hfour : j + 4 ≤ output.length := h
    have hfirst := charAt_first a (Nat.two_pow_pos 16)
    rw [Nat.add_zero] at hfirst
    rw [encodeLoop, rfc4648, set_four hfour, charAt_second_last, hfirst]
    simp
  | [a, b], j, output, h => by
    have hfour : j + 4 ≤ output.length := h
    have hb : b.toNat * 2 ^ 8 < 2 ^ 16 := by have := b.toNat_lt; omega
    have hsecond := charAt_second a b (Nat.two_pow_pos 8)
    rw [Nat.add_zero] at hsecond
    rw [encodeLoop, rfc4648, set_four hfour, charAt_first a hb, charAt_third_last a b, hsecond]
    simp
  | a :: b :: c :: rest, j, output, h => by
    have hlen : (rfc4648 (a :: b :: c :: rest)).length = (rfc4648 rest).length + 4 := rfl
    rw [hlen] at h
    have hlow : b.toNat * 2 ^ 8 + c.toNat < 2 ^ 16 := by
      have := b.toNat_lt
      have := c.toNat_lt
      omega
    rw [encodeLoop, set_four (by omega), encodeLoop_eq rest (j + 4)]
    · rw [show j + 4 = j + [charAt (sar a 2 &&& 0x3F),
        charAt (a <<< 4 &&& 0x30 ||| sar b 4 &&& 0x0F),
          charAt (b <<< 2 &&& 0x3C ||| sar c 6 &&& 0x03), charAt (c &&& 0x3F)].length from rfl,
        Lib.overwrite_overwrite (by simp; omega), charAt_first a hlow, charAt_second a b c.toNat_lt,
        charAt_third a b c, charAt_fourth a b c, ← Nat.add_assoc (a.toNat * 2 ^ 16), rfc4648]
      refine Prod.ext rfl ?_
      simp only [List.length_cons, List.length_nil]
      omega
    · rw [Lib.length_overwrite (by simp; omega)]
      omega

/-- **What the encoder leaves**: the text of the RFC, with a zero at the end of its last full
group. -/
theorem base64Encode_rfc {x output : List UInt8} (hpos : 0 < x.length)
    (h : (rfc4648 x).length ≤ output.length) :
    base64Encode (some x) x.length (some output) =
      some ((overwrite output 0 (rfc4648 x)).set (4 * (x.length / 3)) 0) := by
  rw [base64Encode, if_neg (by omega), Int.toNat_natCast, List.take_length,
    encodeLoop_eq x 0 output (by rwa [Nat.zero_add]), Nat.zero_add]

theorem base64EncodeLen_eq {n : Nat} (h : n ≤ 1500000000) :
    base64EncodeLen n = 4 * ((n + 2) / 3 : Nat) := by
  have hsum : (n : Int) + (if (n : Int).tmod 3 ≠ 0 then 3 - (n : Int).tmod 3 else 0) =
      (3 * ((n + 2) / 3) : Nat) := by
    rw [Int.tmod_eq_emod_of_nonneg (by omega)]
    split
    · omega
    · omega
  have hfits : Lib.InInt32 (3 * ((n + 2) / 3) : Nat) := ⟨by omega, by omega⟩
  have hdiv : ((3 * ((n + 2) / 3) : Nat) : Int).tdiv 3 = ((n + 2) / 3 : Nat) := by
    rw [Int.tdiv_eq_ediv_of_nonneg (by omega)]
    omega
  rw [base64EncodeLen, hsum, Lib.int32_of_inInt32 hfits, hdiv,
    Lib.int32_of_inInt32 ⟨by omega, by omega⟩, Int.mul_comm]

/-! ## Decoding -/

theorem indexOf_sextet (bits k : Nat) :
    (indexOf (sextet bits k)).toNat = bits / 2 ^ (18 - 6 * k) % 2 ^ 6 :=
  (alphabet_spec _ (Nat.mod_lt _ (by decide))).2.1

theorem sextet_ne_pad (bits k : Nat) : sextet bits k ≠ pad :=
  (alphabet_spec _ (Nat.mod_lt _ (by decide))).2.2.1

theorem sextet_ne_zero (bits k : Nat) : sextet bits k ≠ 0 :=
  (alphabet_spec _ (Nat.mod_lt _ (by decide))).2.2.2

section Bytes

variable {bits : Nat}

theorem first_byte {a : UInt8} (h : bits / 2 ^ 16 = a.toNat) :
    indexOf (sextet bits 0) <<< 2 &&& 0xFC ||| sar (indexOf (sextet bits 1)) 4 &&& 0x03 = a := by
  have ha := a.toNat_lt
  have h₀ := indexOf_sextet bits 0
  have h₁ := indexOf_sextet bits 1
  generalize indexOf (sextet bits 0) = t₀ at h₀
  generalize indexOf (sextet bits 1) = t₁ at h₁
  have hlt₀ : t₀.toNat < 64 := by omega
  have hlt₁ : t₁.toNat < 64 := by omega
  have hshl : (t₀ <<< 2 &&& 0xFC).toNat = 2 ^ 2 * t₀.toNat := ((masks t₀.toBitVec).2 hlt₀).1
  have hsar : (sar t₁ 4 &&& 0x03).toNat = t₁.toNat / 16 := ((masks t₁.toBitVec).2 hlt₁).2.1
  apply UInt8.toNat_inj.mp
  rw [UInt8.toNat_or, hshl, hsar, or_eq_add (by omega)]
  omega

theorem second_byte {b : UInt8} (h : bits / 2 ^ 8 % 2 ^ 8 = b.toNat) :
    indexOf (sextet bits 1) <<< 4 &&& 0xF0 ||| sar (indexOf (sextet bits 2)) 2 &&& 0x0F = b := by
  have h₁ := indexOf_sextet bits 1
  have h₂ := indexOf_sextet bits 2
  generalize indexOf (sextet bits 1) = t₁ at h₁
  generalize indexOf (sextet bits 2) = t₂ at h₂
  have hlt₁ : t₁.toNat < 64 := by omega
  have hlt₂ : t₂.toNat < 64 := by omega
  have hshl : (t₁ <<< 4 &&& 0xF0).toNat = 2 ^ 4 * (t₁.toNat % 16) :=
    ((masks t₁.toBitVec).2 hlt₁).2.2.1
  have hsar : (sar t₂ 2 &&& 0x0F).toNat = t₂.toNat / 4 := ((masks t₂.toBitVec).2 hlt₂).2.2.2.1
  apply UInt8.toNat_inj.mp
  rw [UInt8.toNat_or, hshl, hsar, or_eq_add (by omega)]
  omega

theorem third_byte {c : UInt8} (h : bits % 2 ^ 8 = c.toNat) :
    indexOf (sextet bits 2) <<< 6 &&& 0xF0 ||| indexOf (sextet bits 3) &&& 0x3F = c := by
  have h₂ := indexOf_sextet bits 2
  have h₃ := indexOf_sextet bits 3
  generalize indexOf (sextet bits 2) = t₂ at h₂
  generalize indexOf (sextet bits 3) = t₃ at h₃
  have hlt₂ : t₂.toNat < 64 := by omega
  have hshl : (t₂ <<< 6 &&& 0xF0).toNat = 2 ^ 6 * (t₂.toNat % 4) :=
    ((masks t₂.toBitVec).2 hlt₂).2.2.2.2
  apply UInt8.toNat_inj.mp
  rw [UInt8.toNat_or, hshl, and_63, or_eq_add (by omega)]
  omega

end Bytes

theorem getD_of_drop {l m : List UInt8} {i : Nat} (h : l.drop i = m) (k : Nat) :
    l.getD (i + k) 0 = m.getD k 0 := by
  rw [List.getD_eq_getElem?_getD, List.getD_eq_getElem?_getD, ← h, List.getElem?_drop]

/-- A round of the loop on one byte and two times the padding. -/
theorem decodeLoop_one {base64 tail : List UInt8} {a : UInt8} {i : Nat}
    (h : base64.drop i = rfc4648 [a] ++ tail) (bindata : List UInt8) :
    decodeLoop base64 1 i bindata = bindata ++ [a] := by
  have h₀ := getD_of_drop h 0
  have h₁ := getD_of_drop h 1
  have h₂ := getD_of_drop h 2
  simp only [rfc4648, List.cons_append, List.getD_cons_zero, List.getD_cons_succ,
    Nat.add_zero] at h₀ h₁ h₂
  rw [decodeLoop, h₀, h₁, h₂, if_pos rfl, first_byte (a := a) (by omega)]

/-- A round of the loop on two bytes and the padding. -/
theorem decodeLoop_two {base64 tail : List UInt8} {a b : UInt8} {i : Nat}
    (h : base64.drop i = rfc4648 [a, b] ++ tail) (bindata : List UInt8) :
    decodeLoop base64 1 i bindata = bindata ++ [a, b] := by
  have hb := b.toNat_lt
  have h₀ := getD_of_drop h 0
  have h₁ := getD_of_drop h 1
  have h₂ := getD_of_drop h 2
  have h₃ := getD_of_drop h 3
  simp only [rfc4648, List.cons_append, List.getD_cons_zero, List.getD_cons_succ,
    Nat.add_zero] at h₀ h₁ h₂ h₃
  rw [decodeLoop, h₀, h₁, h₂, h₃, if_neg (sextet_ne_pad _ _), if_pos rfl,
    first_byte (a := a) (by omega), second_byte (b := b) (by omega), List.append_assoc,
    List.singleton_append]

/-- A round of the loop on three bytes. -/
theorem decodeLoop_three {base64 rest tail : List UInt8} {a b c : UInt8} {i : Nat}
    (h : base64.drop i = rfc4648 (a :: b :: c :: rest) ++ tail) (n : Nat) (bindata : List UInt8) :
    decodeLoop base64 (n + 1) i bindata = decodeLoop base64 n (i + 4) (bindata ++ [a, b, c]) := by
  have hb := b.toNat_lt
  have hc := c.toNat_lt
  have h₀ := getD_of_drop h 0
  have h₁ := getD_of_drop h 1
  have h₂ := getD_of_drop h 2
  have h₃ := getD_of_drop h 3
  simp only [rfc4648, List.cons_append, List.getD_cons_zero, List.getD_cons_succ,
    Nat.add_zero] at h₀ h₁ h₂ h₃
  rw [decodeLoop, h₀, h₁, h₂, h₃, if_neg (sextet_ne_pad _ _), if_neg (sextet_ne_pad _ _),
    first_byte (a := a) (by omega), second_byte (b := b) (by omega), third_byte (c := c) (by omega)]
  simp only [List.append_assoc, List.cons_append, List.nil_append]

/-- The loop on the text of the RFC. -/
theorem decodeLoop_rfc (base64 x : List UInt8) : ∀ (i : Nat) (tail bindata : List UInt8),
    base64.drop i = rfc4648 x ++ tail →
      decodeLoop base64 ((x.length + 2) / 3) i bindata = bindata ++ x := by
  induction x using rfc4648.induct with
  | case1 =>
    intro i tail bindata _
    have hrounds : (([] : List UInt8).length + 2) / 3 = 0 := by simp
    rw [hrounds, decodeLoop, List.append_nil]
  | case2 a =>
    intro i tail bindata h
    have hrounds : ([a].length + 2) / 3 = 1 := by simp
    rw [hrounds, decodeLoop_one h]
  | case3 a b =>
    intro i tail bindata h
    have hrounds : ([a, b].length + 2) / 3 = 1 := by simp
    rw [hrounds, decodeLoop_two h]
  | case4 a b c rest ih =>
    intro i tail bindata h
    have hrounds : ((a :: b :: c :: rest).length + 2) / 3 = (rest.length + 2) / 3 + 1 := by
      simp only [List.length_cons]
      omega
    have hrest : base64.drop (i + 4) = rfc4648 rest ++ tail := by
      rw [← List.drop_drop, h]
      rfl
    rw [hrounds, decodeLoop_three h, ih (i + 4) tail _ hrest, List.append_assoc]
    rfl

/-- **The decoder returns what the text of the RFC stands for.** -/
theorem base64Decode_rfc {x tail bindata : List UInt8} (hpos : 0 < x.length) :
    base64Decode (some (rfc4648 x ++ tail)) (rfc4648 x).length (some bindata) =
      ((x.length : Int), some (x ++ bindata.drop x.length)) := by
  have hrounds : (((rfc4648 x).length : Int).toNat + 3) / 4 = (x.length + 2) / 3 := by
    rw [Int.toNat_natCast, length_rfc4648]
    omega
  have hloop := decodeLoop_rfc (rfc4648 x ++ tail) x 0 tail [] rfl
  rw [base64Decode, if_neg (by rw [length_rfc4648]; omega), hrounds, hloop, List.nil_append]
  simp [overwrite]

theorem getD_last (s₀ s₁ s₂ s₃ : UInt8) :
    [s₀, s₁, s₂, s₃].getD ([s₀, s₁, s₂, s₃].length - 1) 0 = s₃ :=
  rfl

theorem getD_last_but_one (s₀ s₁ s₂ s₃ : UInt8) :
    [s₀, s₁, s₂, s₃].getD ([s₀, s₁, s₂, s₃].length - 2) 0 = s₂ :=
  rfl

/-- Where the padding stands in the text. -/
theorem pad_iff : ∀ x : List UInt8, 0 < x.length →
    ((rfc4648 x).getD ((rfc4648 x).length - 1) 0 = pad ↔ x.length % 3 ≠ 0) ∧
      ((rfc4648 x).getD ((rfc4648 x).length - 2) 0 = pad ↔ x.length % 3 = 1)
  | [], h => absurd h (Nat.lt_irrefl 0)
  | [a], _ => by simp [rfc4648]
  | [a, b], _ => by
    rw [rfc4648, getD_last, getD_last_but_one]
    simp [sextet_ne_pad]
  | [a, b, c], _ => by
    rw [rfc4648, rfc4648, getD_last, getD_last_but_one]
    simp [sextet_ne_pad]
  | a :: b :: c :: d :: rest, _ => by
    have ih := pad_iff (d :: rest) (Nat.succ_pos _)
    have hlen : 4 ≤ (rfc4648 (d :: rest)).length := by
      rw [length_rfc4648, List.length_cons]
      omega
    have hmod : (a :: b :: c :: d :: rest).length % 3 = (d :: rest).length % 3 := by
      simp only [List.length_cons]
      omega
    rw [hmod, ← ih.1, ← ih.2, rfc4648]
    simp only [List.length_cons]
    generalize hr : rfc4648 (d :: rest) = r at hlen
    have hlast : r.length + 1 + 1 + 1 + 1 - 1 = r.length - 1 + 1 + 1 + 1 + 1 := by omega
    have hnext : r.length + 1 + 1 + 1 + 1 - 2 = r.length - 2 + 1 + 1 + 1 + 1 := by omega
    rw [hlast, hnext]
    simp only [List.getD_cons_succ]
    exact ⟨trivial, trivial⟩

theorem base64DecodeLen_rfc {x tail : List UInt8} (hpos : 0 < x.length) :
    base64DecodeLen (some (rfc4648 x ++ tail)) (rfc4648 x).length = x.length := by
  obtain ⟨h₁, h₂⟩ := pad_iff x hpos
  have hlen := length_rfc4648 x
  have hget : ∀ k : Nat, 0 < k → k ≤ 2 →
      (rfc4648 x ++ tail).getD (((rfc4648 x).length : Int) - k).toNat 0 =
        (rfc4648 x).getD ((rfc4648 x).length - k) 0 := by
    intro k hk hk'
    rw [show (((rfc4648 x).length : Int) - k).toNat = (rfc4648 x).length - k by omega,
      List.getD_eq_getElem?_getD, List.getElem?_append_left (by omega),
      ← List.getD_eq_getElem?_getD]
  have hget₁ := hget 1 (by decide) (by decide)
  have hget₂ := hget 2 (by decide) (by decide)
  simp only [Nat.cast_one, Nat.cast_ofNat] at hget₁ hget₂
  simp only [base64DecodeLen, if_neg (show ¬((rfc4648 x).length : Int) ≤ 0 by omega), hget₁, hget₂,
    h₁, h₂]
  split
  · split
    · omega
    · omega
  · split
    · omega
    · omega

/-! ## The round trip -/

/-- The encoder leaves the text of the RFC and a zero in its output, and from there the decoder gets
the bytes back, also through the functions that work out the lengths. -/
structure RoundTrip (x output bindata : List UInt8) : Prop where
  encode : base64Encode (some x) x.length (some output) =
    some (rfc4648 x ++ [0] ++ output.drop ((rfc4648 x).length + 1))
  encodeLen : base64EncodeLen x.length = (rfc4648 x).length
  decodeLen : base64DecodeLen (base64Encode (some x) x.length (some output))
    (base64EncodeLen x.length) = x.length
  decode : base64Decode (base64Encode (some x) x.length (some output)) (base64EncodeLen x.length)
    (some bindata) = ((x.length : Int), some (x ++ bindata.drop x.length))
  encode2 : ∀ outcb : Int, base64Encode2 (some x) x.length (some output) (some outcb) =
    (base64EncodeLen x.length, some (base64EncodeLen x.length),
      base64Encode (some x) x.length (some output))
  decode2 : ∀ outcb : Int, base64Decode2 (base64Encode (some x) x.length (some output))
    (base64EncodeLen x.length) (some bindata) (some outcb) =
      ((x.length : Int), some (x.length : Int), some (x ++ bindata.drop x.length))

section

variable {x output bindata : List UInt8}

theorem rfc4648_ne_zero : ∀ (x : List UInt8) (c : UInt8), c ∈ rfc4648 x → c ≠ 0
  | [], c, h => by cases h
  | [a], c, h => by
    simp only [rfc4648, List.mem_cons, List.not_mem_nil, or_false] at h
    rcases h with rfl | rfl | rfl | rfl
    · exact sextet_ne_zero _ _
    · exact sextet_ne_zero _ _
    · decide
    · decide
  | [a, b], c, h => by
    simp only [rfc4648, List.mem_cons, List.not_mem_nil, or_false] at h
    rcases h with rfl | rfl | rfl | rfl
    · exact sextet_ne_zero _ _
    · exact sextet_ne_zero _ _
    · exact sextet_ne_zero _ _
    · decide
  | a :: b :: c :: rest, d, h => by
    simp only [rfc4648, List.mem_cons] at h
    rcases h with rfl | rfl | rfl | rfl | h
    · exact sextet_ne_zero _ _
    · exact sextet_ne_zero _ _
    · exact sextet_ne_zero _ _
    · exact sextet_ne_zero _ _
    · exact rfc4648_ne_zero rest d h

/-- With a multiple of three bytes the zero stands behind the text. -/
theorem encode_of_dvd (hpos : 0 < x.length) (hout : (rfc4648 x).length + 1 ≤ output.length)
    (h : 3 ∣ x.length) : base64Encode (some x) x.length (some output) =
      some (rfc4648 x ++ [0] ++ output.drop ((rfc4648 x).length + 1)) := by
  have hlen : 4 * (x.length / 3) = (rfc4648 x).length := by
    rw [length_rfc4648]
    omega
  have hset : (overwrite output 0 (rfc4648 x)).set (rfc4648 x).length 0 =
      overwrite output 0 (rfc4648 x ++ [0]) := by
    rw [Lib.set_eq_overwrite (by rw [Lib.length_overwrite (by omega)]; omega),
      ← Lib.overwrite_overwrite (by omega), Nat.zero_add]
  rw [base64Encode_rfc hpos (by omega), hlen, hset]
  simp [overwrite]

/-- Otherwise it stands in the text. -/
theorem encode_of_not_dvd (hpos : 0 < x.length) (hout : (rfc4648 x).length + 1 ≤ output.length)
    (h : ¬3 ∣ x.length) : base64Encode (some x) x.length (some output) ≠
      some (rfc4648 x ++ [0] ++ output.drop ((rfc4648 x).length + 1)) := by
  intro heq
  have hlt : 4 * (x.length / 3) < (rfc4648 x).length := by
    rw [length_rfc4648]
    omega
  rw [base64Encode_rfc hpos (by omega), Option.some.injEq] at heq
  have hget := congrArg (fun l : List UInt8 => l[4 * (x.length / 3)]?) heq
  rw [List.getElem?_set_self (by rw [Lib.length_overwrite (by omega)]; omega), List.append_assoc,
    List.getElem?_append_left hlt, List.getElem?_eq_getElem hlt, Option.some.injEq] at hget
  exact rfc4648_ne_zero x _ (List.getElem_mem hlt) hget.symm

/-- **The round trip of base64.**  For every string of 1 to 1,500,000,000 bytes, and a buffer that
is large enough for the text, encoding and decoding do what they should exactly if the number of
bytes is a multiple of three. -/
theorem base64_roundTrip_iff (hpos : 1 ≤ x.length) (hmax : x.length ≤ 1500000000)
    (hout : base64EncodeLen x.length + 1 ≤ output.length) :
    RoundTrip x output bindata ↔ 3 ∣ x.length := by
  have hlen : base64EncodeLen x.length = (rfc4648 x).length := by
    rw [base64EncodeLen_eq hmax, length_rfc4648]
    omega
  have hout' : (rfc4648 x).length + 1 ≤ output.length := by omega
  have hrfc := length_rfc4648 x
  constructor
  · intro h
    by_contra hdvd
    exact encode_of_not_dvd hpos hout' hdvd h.encode
  · intro hdvd
    have hencode := encode_of_dvd hpos hout' hdvd
    have hdecodeLen : base64DecodeLen (base64Encode (some x) x.length (some output))
        (base64EncodeLen x.length) = x.length := by
      rw [hencode, hlen, List.append_assoc]
      exact base64DecodeLen_rfc hpos
    have hdecode : base64Decode (base64Encode (some x) x.length (some output))
        (base64EncodeLen x.length) (some bindata) =
          ((x.length : Int), some (x ++ bindata.drop x.length)) := by
      rw [hencode, hlen, List.append_assoc]
      exact base64Decode_rfc hpos
    have hargs : ∀ (text : List UInt8) (n outcb : Int), 0 < n →
        ¬(some text = none ∨ n ≤ 0 ∨ some outcb = none) := by
      intro text n outcb hn
      simp only [reduceCtorEq, or_false, false_or]
      omega
    refine ⟨hencode, hlen, hdecodeLen, hdecode, fun outcb => ?_, fun outcb => ?_⟩
    · rw [base64Encode2, if_neg (hargs _ _ _ (by omega)), if_neg (by omega), if_neg (by simp),
        hencode]
    · rw [hencode] at hdecodeLen hdecode ⊢
      rw [base64Decode2, if_neg (hargs _ _ _ (by omega)), hdecodeLen, if_neg (by omega),
        if_neg (by simp), hdecode]

end

/-- Three bytes make the round trip. -/
theorem base64_roundTrip_three :
    RoundTrip [0x66, 0x6f, 0xef] [1, 1, 1, 1, 1] [2, 2, 2, 2] ∧
      rfc4648 [0x66, 0x6f, 0xef] = [code 'Z', code 'm', code '/', code 'v'] := by
  refine ⟨?_, by decide⟩
  exact (base64_roundTrip_iff (by decide) (by decide) (by decide)).mpr (by decide)

/-- One byte: the text begins with the zero that should end it. -/
theorem base64Encode_one : ¬RoundTrip [0x66] [1, 1, 1, 1, 1] [2, 2, 2, 2] ∧
    rfc4648 [0x66] = [code 'Z', code 'g', pad, pad] ∧
    base64Encode (some [0x66]) 1 (some [1, 1, 1, 1, 1]) = some [0, code 'g', pad, pad, 1] := by
  refine ⟨fun h => ?_, by decide, by decide⟩
  have hencode := h.encode
  revert hencode
  decide

end Hash

end LibNax
