import LibNax.Common
import Mathlib.Data.Vector.Basic
import LibNax.Lib.Cipher
import LibNax.Hash.Base64

/-!
# DES

A block of eight bytes is spread to 64 bits, one in each `char`, goes through sixteen rounds between
two permutations, and is put together again.  A round changes one half of the bits by a function of
the other half, and so undoes itself; the decryption takes the rounds in the opposite order.

* The tables of the source, and `desEncryptBlock`, `desDecryptBlock` on one block.
* `desEncrypt`, `desDecrypt` — on a buffer.
* `permute_ip_ip1`, `bit64ToChar8_char8ToBit64` — what the two ends rest on.
* `roundBits_roundBits` — a round undoes itself.
* `desDecryptBlock_desEncryptBlock` — the round trip of one block.
* `des_roundTrip_iff` — the round trip of a buffer.  The bytes always come back; the length that is
  returned is an `int`.

The array `copyRight` of 48 bits is not initialized before the first round.
-/

set_option autoImplicit false

namespace LibNax

namespace Hash

open Lib (int32 slice overwrite)

/-! ## The tables -/

/-- `DES_IP_Table`. -/
def ipTable : List Nat :=
  [58, 50, 42, 34, 26, 18, 10, 2, 60, 52, 44, 36, 28, 20, 12, 4, 62, 54, 46, 38, 30, 22, 14, 6,
    64, 56, 48, 40, 32, 24, 16, 8, 57, 49, 41, 33, 25, 17, 9, 1, 59, 51, 43, 35, 27, 19, 11, 3,
    61, 53, 45, 37, 29, 21, 13, 5, 63, 55, 47, 39, 31, 23, 15, 7]

/-- `DES_IP_1_Table`. -/
def ip1Table : List Nat :=
  [40, 8, 48, 16, 56, 24, 64, 32, 39, 7, 47, 15, 55, 23, 63, 31, 38, 6, 46, 14, 54, 22, 62, 30,
    37, 5, 45, 13, 53, 21, 61, 29, 36, 4, 44, 12, 52, 20, 60, 28, 35, 3, 43, 11, 51, 19, 59, 27,
    34, 2, 42, 10, 50, 18, 58, 26, 33, 1, 41, 9, 49, 17, 57, 25]

/-- `DES_E_Table`. -/
def eTable : List Nat :=
  [32, 1, 2, 3, 4, 5, 4, 5, 6, 7, 8, 9, 8, 9, 10, 11, 12, 13, 12, 13, 14, 15, 16, 17, 16, 17, 18,
    19, 20, 21, 20, 21, 22, 23, 24, 25, 24, 25, 26, 27, 28, 29, 28, 29, 30, 31, 32, 1]

/-- `DES_P_Table`. -/
def pTable : List Nat :=
  [16, 7, 20, 21, 29, 12, 28, 17, 1, 15, 23, 26, 5, 18, 31, 10, 2, 8, 24, 14, 32, 27, 3, 9, 19,
    13, 30, 6, 22, 11, 4, 25]

/-- `DES_PC_1`. -/
def pc1 : List Nat :=
  [57, 49, 41, 33, 25, 17, 9, 1, 58, 50, 42, 34, 26, 18, 10, 2, 59, 51, 43, 35, 27, 19, 11, 3, 60,
    52, 44, 36, 63, 55, 47, 39, 31, 23, 15, 7, 62, 54, 46, 38, 30, 22, 14, 6, 61, 53, 45, 37, 29,
    21, 13, 5, 28, 20, 12, 4]

/-- `DES_PC_2`. -/
def pc2 : List Nat :=
  [14, 17, 11, 24, 1, 5, 3, 28, 15, 6, 21, 10, 23, 19, 12, 4, 26, 8, 16, 7, 27, 20, 13, 2, 41, 52,
    31, 37, 47, 55, 30, 40, 51, 45, 33, 48, 44, 49, 39, 56, 34, 53, 46, 42, 50, 36, 29, 32]

/-- `DES_MOVE_TIMES`. -/
def moveTimes : List Nat :=
  [1, 1, 2, 2, 2, 2, 2, 2, 1, 2, 2, 2, 2, 2, 2, 1]

/-- `DES_S`. -/
def desS : List (List (List UInt8)) :=
  [[[14, 4, 13, 1, 2, 15, 11, 8, 3, 10, 6, 12, 5, 9, 0, 7],
    [0, 15, 7, 4, 14, 2, 13, 1, 10, 6, 12, 11, 9, 5, 3, 8],
    [4, 1, 14, 8, 13, 6, 2, 11, 15, 12, 9, 7, 3, 10, 5, 0],
    [15, 12, 8, 2, 4, 9, 1, 7, 5, 11, 3, 14, 10, 0, 6, 13]],
   [[15, 1, 8, 14, 6, 11, 3, 4, 9, 7, 2, 13, 12, 0, 5, 10],
    [3, 13, 4, 7, 15, 2, 8, 14, 12, 0, 1, 10, 6, 9, 11, 5],
    [0, 14, 7, 11, 10, 4, 13, 1, 5, 8, 12, 6, 9, 3, 2, 15],
    [13, 8, 10, 1, 3, 15, 4, 2, 11, 6, 7, 12, 0, 5, 14, 9]],
   [[10, 0, 9, 14, 6, 3, 15, 5, 1, 13, 12, 7, 11, 4, 2, 8],
    [13, 7, 0, 9, 3, 4, 6, 10, 2, 8, 5, 14, 12, 11, 15, 1],
    [13, 6, 4, 9, 8, 15, 3, 0, 11, 1, 2, 12, 5, 10, 14, 7],
    [1, 10, 13, 0, 6, 9, 8, 7, 4, 15, 14, 3, 11, 5, 2, 12]],
   [[7, 13, 14, 3, 0, 6, 9, 10, 1, 2, 8, 5, 11, 12, 4, 15],
    [13, 8, 11, 5, 6, 15, 0, 3, 4, 7, 2, 12, 1, 10, 14, 9],
    [10, 6, 9, 0, 12, 11, 7, 13, 15, 1, 3, 14, 5, 2, 8, 4],
    [3, 15, 0, 6, 10, 1, 13, 8, 9, 4, 5, 11, 12, 7, 2, 14]],
   [[2, 12, 4, 1, 7, 10, 11, 6, 8, 5, 3, 15, 13, 0, 14, 9],
    [14, 11, 2, 12, 4, 7, 13, 1, 5, 0, 15, 10, 3, 9, 8, 6],
    [4, 2, 1, 11, 10, 13, 7, 8, 15, 9, 12, 5, 6, 3, 0, 14],
    [11, 8, 12, 7, 1, 14, 2, 13, 6, 15, 0, 9, 10, 4, 5, 3]],
   [[12, 1, 10, 15, 9, 2, 6, 8, 0, 13, 3, 4, 14, 7, 5, 11],
    [10, 15, 4, 2, 7, 12, 9, 5, 6, 1, 13, 14, 0, 11, 3, 8],
    [9, 14, 15, 5, 2, 8, 12, 3, 7, 0, 4, 10, 1, 13, 11, 6],
    [4, 3, 2, 12, 9, 5, 15, 10, 11, 14, 1, 7, 6, 0, 8, 13]],
   [[4, 11, 2, 14, 15, 0, 8, 13, 3, 12, 9, 7, 5, 10, 6, 1],
    [13, 0, 11, 7, 4, 9, 1, 10, 14, 3, 5, 12, 2, 15, 8, 6],
    [1, 4, 11, 13, 12, 3, 7, 14, 10, 15, 6, 8, 0, 5, 9, 2],
    [6, 11, 13, 8, 1, 4, 10, 7, 9, 5, 0, 15, 14, 2, 3, 12]],
   [[13, 2, 8, 4, 6, 15, 11, 1, 10, 9, 3, 14, 5, 0, 12, 7],
    [1, 15, 13, 8, 10, 3, 7, 4, 12, 5, 6, 11, 0, 14, 9, 2],
    [7, 11, 4, 1, 9, 12, 14, 2, 0, 6, 10, 13, 15, 3, 5, 8],
    [2, 1, 14, 7, 4, 10, 8, 13, 15, 12, 9, 0, 3, 5, 6, 11]]]

/-! ## The functions of the source -/

/-- `ByteToBit`. -/
def byteToBit (ch : UInt8) : List UInt8 := (List.range 8).map fun cnt => sar ch cnt &&& 1

/-- `BitToByte` into a byte that is zero. -/
def bitToByte (bit : List UInt8) : UInt8 :=
  (List.range 8).foldl (fun ch cnt => ch ||| bit.getD cnt 0 <<< UInt8.ofNat cnt) 0

/-- `Char8ToBit64`. -/
def char8ToBit64 (ch : List UInt8) : List UInt8 :=
  (List.range 8).flatMap fun cnt => byteToBit (ch.getD cnt 0)

/-- `Bit64ToChar8`. -/
def bit64ToChar8 (bit : List UInt8) : List UInt8 :=
  (List.range 8).map fun cnt => bitToByte (bit.drop (8 * cnt))

/-- The elements that a table names. -/
def permute (table : List Nat) (data : List UInt8) : List UInt8 :=
  table.map fun i => data.getD (i - 1) 0

/-- `DES_PC1_Transform`. -/
def pc1Transform (key : List UInt8) : List UInt8 := permute pc1 key

/-- `DES_ROL`: the two halves of 28 bits are rotated, with what leaves them kept in `temp`. -/
def rol (data : List UInt8) (time : Nat) : List UInt8 :=
  let temp := slice data 0 time ++ slice data 28 time
  let data := overwrite data 0 (slice data time (28 - time))
  let data := overwrite data (28 - time) (slice temp 0 time)
  let data := overwrite data 28 (slice data (28 + time) (28 - time))
  overwrite data (56 - time) (slice temp time time)

/-- `DES_PC2_Transform`. -/
def pc2Transform (key : List UInt8) : List UInt8 := permute pc2 key

/-- `DES_MakeSubKeys`. -/
def makeSubKeys (key : List UInt8) : List (List UInt8) :=
  ((List.range 16).foldl (fun (r : List UInt8 × List (List UInt8)) cnt =>
    let temp := rol r.1 (moveTimes.getD cnt 0)
    (temp, r.2 ++ [pc2Transform temp])) (pc1Transform key, [])).2

/-- `DES_IP_Transform`. -/
def ipTransform (data : List UInt8) : List UInt8 := permute ipTable data

/-- `DES_IP_1_Transform`. -/
def ip1Transform (data : List UInt8) : List UInt8 := permute ip1Table data

/-- `DES_E_Transform`. -/
def eTransform (data : List UInt8) : List UInt8 := permute eTable data

/-- `DES_P_Transform`: the first 32 elements of the array. -/
def pTransform (data : List UInt8) : List UInt8 := overwrite data 0 (permute pTable data)

/-- `DES_XOR`. -/
def desXor (R L : List UInt8) (count : Nat) : List UInt8 :=
  (List.range count).foldl (fun R cnt => R.set cnt (R.getD cnt 0 ^^^ L.getD cnt 0)) R

/-- `DES_SWAP` of the two halves of 64 bits. -/
def swapHalves (bits : List UInt8) : List UInt8 := slice bits 32 32 ++ slice bits 0 32

/-- One round of the loop of `DES_SBOX`. -/
def sboxStep (data : List UInt8) (cnt : Nat) : List UInt8 :=
  let cur1 := cnt * 6
  let cur2 := cnt * 4
  let at' := fun k => (data.getD (cur1 + k) 0).toNat
  let line := at' 0 * 2 + at' 5
  let row := at' 1 * 8 + at' 2 * 4 + at' 3 * 2 + at' 4
  let output := ((desS.getD cnt []).getD line []).getD row 0
  let data := data.set cur2 ((output &&& 0x08) >>> 3)
  let data := data.set (cur2 + 1) ((output &&& 0x04) >>> 2)
  let data := data.set (cur2 + 2) ((output &&& 0x02) >>> 1)
  data.set (cur2 + 3) (output &&& 0x01)

/-- `DES_SBOX`: 48 bits become 32, in place. -/
def desSbox (data : List UInt8) : List UInt8 := (List.range 8).foldl sboxStep data

/-- The part of a round that both directions share, on the 64 bits and `copyRight`. -/
def desRound (subKeys : List (List UInt8)) (cnt : Nat) (r : List UInt8 × List UInt8) :
    List UInt8 × List UInt8 :=
  let copyRight := overwrite r.2 0 (slice r.1 32 32)
  let copyRight := eTransform copyRight
  let copyRight := desXor copyRight (subKeys.getD cnt []) 48
  let copyRight := desSbox copyRight
  let copyRight := pTransform copyRight
  (desXor r.1 copyRight 32, copyRight)

/-- A round of one direction, where `last` is the one without the swap. -/
def desRoundSwap (subKeys : List (List UInt8)) (last : Nat) (r : List UInt8 × List UInt8)
    (cnt : Nat) : List UInt8 × List UInt8 :=
  let r := desRound subKeys cnt r
  if cnt ≠ last then (swapHalves r.1, r.2) else r

/-- `__des_encryptBlock`. -/
def desEncryptBlock (garbage : List UInt8) (subKeys : List (List UInt8)) (plainBlock : List UInt8) :
    List UInt8 :=
  let plainBits := ipTransform (char8ToBit64 plainBlock)
  let r := (List.range 16).foldl (desRoundSwap subKeys 15) (plainBits, garbage)
  bit64ToChar8 (ip1Transform r.1)

/-- `__des_decryptBlock`. -/
def desDecryptBlock (garbage : List UInt8) (subKeys : List (List UInt8))
    (cipherBlock : List UInt8) :
    List UInt8 :=
  let cipherBits := ipTransform (char8ToBit64 cipherBlock)
  let r := (List.range 16).reverse.foldl (desRoundSwap subKeys 0) (cipherBits, garbage)
  bit64ToChar8 (ip1Transform r.1)

/-- `DEFAULT_DES_KEY`: `3uB#*tTy`. -/
def defaultDesKey : List.Vector UInt8 8 :=
  ⟨['3', 'u', 'B', '#', '*', 't', 'T', 'y'].map code, rfl⟩

/-- What `des_encrypt` and `des_decrypt` share: the function on one block differs. -/
def desBlocks (block : List (List UInt8) → List UInt8 → List UInt8) (input : Option (List UInt8))
    (cb : Nat) (key : Option (List.Vector UInt8 8)) (output : Option (List UInt8)) :
    Int × Option (List UInt8) :=
  match input, output with
  | some input, some output =>
    if cb = 0 ∨ cb % 8 ≠ 0 then (eInval, some output)
    else
      let keyBlock := (key.getD defaultDesKey).toList
      let subKeys := makeSubKeys (char8ToBit64 keyBlock)
      (int32 (cb - cb % 8), some (Lib.blockLoop (block subKeys) 8 input (cb / 8) 0 output))
  | _, _ => (eInval, output)

/-- `des_encrypt`: what it returns, and the output. -/
def desEncrypt (garbage : List UInt8) (input : Option (List UInt8)) (cb : Nat)
    (key : Option (List.Vector UInt8 8)) (output : Option (List UInt8)) :
    Int × Option (List UInt8) :=
  desBlocks (desEncryptBlock garbage) input cb key output

/-- `des_decrypt`: what it returns, and the output. -/
def desDecrypt (garbage : List UInt8) (input : Option (List UInt8)) (cb : Nat)
    (key : Option (List.Vector UInt8 8)) (output : Option (List UInt8)) :
    Int × Option (List UInt8) :=
  desBlocks (desDecryptBlock garbage) input cb key output

/-! ## Bits -/

/-- A `char` that holds a bit. -/
def IsBit (b : UInt8) : Prop := b = 0 ∨ b = 1

/-- An array of bits. -/
def IsBits (l : List UInt8) : Prop := ∀ b ∈ l, IsBit b

theorem isBit_zero : IsBit 0 := .inl rfl

theorem IsBits.getD {l : List UInt8} (h : IsBits l) (i : Nat) : IsBit (l.getD i 0) := by
  rw [List.getD_eq_getElem?_getD]
  cases hi : l[i]? with
  | none => exact isBit_zero
  | some b => exact h b (List.mem_of_getElem? hi)

theorem IsBit.xor {a b : UInt8} (ha : IsBit a) (hb : IsBit b) : IsBit (a ^^^ b) := by
  rcases ha with rfl | rfl
  · rcases hb with rfl | rfl
    · exact .inl rfl
    · exact .inr rfl
  · rcases hb with rfl | rfl
    · exact .inr rfl
    · exact .inl rfl

theorem IsBit.exists_bool {b : UInt8} (h : IsBit b) : ∃ x : Bool, b = if x then 1 else 0 := by
  rcases h with rfl | rfl
  · exact ⟨false, rfl⟩
  · exact ⟨true, rfl⟩

theorem map_getD_range (l : List UInt8) :
    ((List.range l.length).map fun i => l.getD i 0) = l := by
  refine List.ext_getElem (by simp) fun i h₁ h₂ => ?_
  simp [h₂]

instance (b : UInt8) : Decidable (IsBit b) := inferInstanceAs (Decidable (_ ∨ _))

/-- One bit of a byte. -/
theorem isBit_masks (b : UInt8) : IsBit ((b &&& 0x08) >>> 3) ∧ IsBit ((b &&& 0x04) >>> 2) ∧
    IsBit ((b &&& 0x02) >>> 1) ∧ IsBit (b &&& 0x01) := by
  have hall : ∀ c : BitVec 8, IsBit ((UInt8.ofBitVec c &&& 0x08) >>> 3) ∧
      IsBit ((UInt8.ofBitVec c &&& 0x04) >>> 2) ∧ IsBit ((UInt8.ofBitVec c &&& 0x02) >>> 1) ∧
      IsBit (UInt8.ofBitVec c &&& 0x01) := by
    decide +kernel
  exact hall b.toBitVec

theorem isBits_byteToBit (ch : UInt8) : IsBits (byteToBit ch) := by
  intro b hb
  obtain ⟨cnt, -, rfl⟩ := List.mem_map.mp hb
  exact (isBit_masks (sar ch cnt)).2.2.2

theorem bitToByte_byteToBit (ch : UInt8) : bitToByte (byteToBit ch) = ch := by
  have hall : ∀ c : BitVec 8, bitToByte (byteToBit ⟨c⟩) = ⟨c⟩ := by decide +kernel
  exact hall ch.toBitVec

/-- Eight bits are put together and spread again. -/
theorem byteToBit_bitToByte {l : List UInt8} (hlen : 8 ≤ l.length) (hl : IsBits l) :
    byteToBit (bitToByte l) = l.take 8 := by
  have hall : ∀ a b c d e f g h : Bool,
      byteToBit (bitToByte [if a then 1 else 0, if b then 1 else 0, if c then 1 else 0,
        if d then 1 else 0, if e then 1 else 0, if f then 1 else 0, if g then 1 else 0,
        if h then 1 else 0]) = [if a then 1 else 0, if b then 1 else 0, if c then 1 else 0,
        if d then 1 else 0, if e then 1 else 0, if f then 1 else 0, if g then 1 else 0,
        if h then 1 else 0] := by
    decide +kernel
  match l, hlen, hl with
  | a :: b :: c :: d :: e :: f :: g :: h :: rest, _, hl =>
    obtain ⟨a, rfl⟩ := (hl a (by simp)).exists_bool
    obtain ⟨b, rfl⟩ := (hl b (by simp)).exists_bool
    obtain ⟨c, rfl⟩ := (hl c (by simp)).exists_bool
    obtain ⟨d, rfl⟩ := (hl d (by simp)).exists_bool
    obtain ⟨e, rfl⟩ := (hl e (by simp)).exists_bool
    obtain ⟨f, rfl⟩ := (hl f (by simp)).exists_bool
    obtain ⟨g, rfl⟩ := (hl g (by simp)).exists_bool
    obtain ⟨h, rfl⟩ := (hl h (by simp)).exists_bool
    exact hall a b c d e f g h

theorem IsBits.slice {l : List UInt8} (h : IsBits l) (off n : Nat) : IsBits (slice l off n) :=
  fun b hb => h b (List.mem_of_mem_drop (List.mem_of_mem_take hb))

theorem IsBits.append {l m : List UInt8} (hl : IsBits l) (hm : IsBits m) : IsBits (l ++ m) :=
  fun b hb => (List.mem_append.mp hb).elim (hl b) (hm b)

/-- Sixty-four bits. -/
structure Block64 (bits : List UInt8) : Prop where
  length : bits.length = 64
  isBits : IsBits bits

theorem length_byteToBit (ch : UInt8) : (byteToBit ch).length = 8 := by
  rw [byteToBit, List.length_map, List.length_range]

theorem length_bit64ToChar8 (bits : List UInt8) : (bit64ToChar8 bits).length = 8 := by
  rw [bit64ToChar8, List.length_map, List.length_range]

theorem block64_char8ToBit64 (ch : List UInt8) : Block64 (char8ToBit64 ch) where
  length := rfl
  isBits := by
    intro b hb
    obtain ⟨cnt, -, hmem⟩ := List.mem_flatMap.mp hb
    exact isBits_byteToBit _ b hmem

/-- Only eight bits are put together. -/
theorem bitToByte_take (l : List UInt8) : bitToByte (l.take 8) = bitToByte l := by
  refine List.foldl_ext _ _ _ fun ch cnt hcnt => ?_
  have hlt : cnt < 8 := List.mem_range.mp hcnt
  rw [List.getD_eq_getElem?_getD, List.getElem?_take_of_lt hlt, ← List.getD_eq_getElem?_getD]

theorem bit64ToChar8_char8ToBit64 {ch : List UInt8} (h : ch.length = 8) :
    bit64ToChar8 (char8ToBit64 ch) = ch := by
  have hbyte : ∀ cnt ∈ List.range 8,
      bitToByte ((char8ToBit64 ch).drop (8 * cnt)) = ch.getD cnt 0 := by
    intro cnt hcnt
    have hblock : slice (char8ToBit64 ch) (8 * cnt) 8 = byteToBit (ch.getD cnt 0) :=
      Lib.slice_flatMap (fun c => length_byteToBit _) 8 (List.mem_range.mp hcnt)
    rw [← bitToByte_take, ← bitToByte_byteToBit (ch.getD cnt 0), ← hblock, slice]
  rw [bit64ToChar8, List.map_congr_left hbyte, ← h, map_getD_range]

theorem char8ToBit64_bit64ToChar8 {bits : List UInt8} (h : Block64 bits) :
    char8ToBit64 (bit64ToChar8 bits) = bits := by
  have hbyte : ∀ cnt ∈ List.range 8,
      byteToBit ((bit64ToChar8 bits).getD cnt 0) = slice bits (8 * cnt) 8 := by
    intro cnt hcnt
    have hlt : cnt < 8 := List.mem_range.mp hcnt
    have hget : (bit64ToChar8 bits).getD cnt 0 = bitToByte (bits.drop (8 * cnt)) := by
      rw [bit64ToChar8, List.getD_eq_getElem?_getD, List.getElem?_map, List.getElem?_range hlt]
      rfl
    have hlen : 8 ≤ (bits.drop (8 * cnt)).length := by
      rw [List.length_drop, h.length]
      omega
    rw [hget, byteToBit_bitToByte hlen fun b hb => h.isBits b (List.mem_of_mem_drop hb), slice]
  rw [char8ToBit64, List.flatMap_congr hbyte, Lib.flatMap_slice, List.take_of_length_le]
  exact Nat.le_of_eq h.length

/-! ## The permutations -/

theorem length_permute (table : List Nat) (data : List UInt8) :
    (permute table data).length = table.length :=
  List.length_map _

theorem isBits_permute (table : List Nat) {data : List UInt8} (h : IsBits data) :
    IsBits (permute table data) := by
  intro b hb
  obtain ⟨i, -, rfl⟩ := List.mem_map.mp hb
  exact h.getD _

theorem permute_congr {table : List Nat} {a b : List UInt8}
    (h : ∀ i ∈ table, a.getD (i - 1) 0 = b.getD (i - 1) 0) : permute table a = permute table b :=
  List.map_congr_left h

/-- One table after the other, where the second names the places of the first in order. -/
theorem permute_permute {t₁ t₂ : List Nat} {data : List UInt8}
    (hlt : ∀ j ∈ t₂, j - 1 < t₁.length)
    (h : (t₂.map fun j => t₁.getD (j - 1) 0 - 1) = List.range data.length) :
    permute t₂ (permute t₁ data) = data := by
  have hget : ∀ j ∈ t₂,
      (permute t₁ data).getD (j - 1) 0 = data.getD (t₁.getD (j - 1) 0 - 1) 0 := by
    intro j hj
    simp only [permute, List.getD_eq_getElem?_getD, List.getElem?_map,
      List.getElem?_eq_getElem (hlt j hj), Option.map_some, Option.getD_some]
  have hmap : (t₂.map fun j => data.getD (t₁.getD (j - 1) 0 - 1) 0) =
      (t₂.map fun j => t₁.getD (j - 1) 0 - 1).map fun i => data.getD i 0 := by
    rw [List.map_map]
    rfl
  rw [permute, List.map_congr_left hget, hmap, h, map_getD_range]

theorem permute_ip_ip1 {bits : List UInt8} (h : bits.length = 64) :
    ipTransform (ip1Transform bits) = bits :=
  permute_permute (by decide) (by rw [h]; decide)

theorem permute_ip1_ip {bits : List UInt8} (h : bits.length = 64) :
    ip1Transform (ipTransform bits) = bits :=
  permute_permute (by decide) (by rw [h]; decide)

/-! ## A round -/

theorem desXor_succ (R L : List UInt8) (count : Nat) : desXor R L (count + 1) =
    (desXor R L count).set count ((desXor R L count).getD count 0 ^^^ L.getD count 0) := by
  simp only [desXor, List.range_succ, List.foldl_append, List.foldl_cons, List.foldl_nil]

@[simp] theorem length_desXor (R L : List UInt8) : ∀ count : Nat,
    (desXor R L count).length = R.length
  | 0 => rfl
  | count + 1 => by rw [desXor_succ, List.length_set, length_desXor R L count]

theorem getElem?_desXor (R L : List UInt8) (i : Nat) : ∀ count : Nat,
    (desXor R L count)[i]? = if i < count then R[i]?.map (· ^^^ L.getD i 0) else R[i]?
  | 0 => by simp [desXor]
  | count + 1 => by
    rw [desXor_succ, List.getElem?_set, getElem?_desXor R L i count]
    rcases Nat.lt_trichotomy i count with hlt | rfl | hgt
    · rw [if_neg (by omega), if_pos hlt, if_pos (by omega)]
    · rw [if_pos rfl, if_pos (Nat.lt_succ_self i), List.getD_eq_getElem?_getD,
        getElem?_desXor R L i i, if_neg (Nat.lt_irrefl i), length_desXor]
      cases hi : R[i]? with
      | none =>
        rw [if_neg (by simpa using List.getElem?_eq_none_iff.mp hi)]
        rfl
      | some b =>
        rw [if_pos (List.getElem?_eq_some_iff.mp hi).1]
        rfl
    · rw [if_neg (by omega), if_neg (by omega), if_neg (by omega)]

theorem desXor_desXor (R L : List UInt8) (count : Nat) :
    desXor (desXor R L count) L count = R := by
  refine List.ext_getElem? fun i => ?_
  rw [getElem?_desXor, getElem?_desXor]
  split
  · rw [Option.map_map]
    have hxor : ((· ^^^ L.getD i 0) ∘ (· ^^^ L.getD i 0) : UInt8 → UInt8) = id := by
      funext b
      show b ^^^ L.getD i 0 ^^^ L.getD i 0 = b
      rw [UInt8.xor_assoc, UInt8.xor_self, UInt8.xor_zero]
    rw [hxor, Option.map_id_fun, id]
  · rfl

theorem slice_desXor (R L : List UInt8) (count n : Nat) :
    slice (desXor R L count) count n = slice R count n := by
  have hdrop : (desXor R L count).drop count = R.drop count := by
    refine List.ext_getElem? fun i => ?_
    rw [List.getElem?_drop, List.getElem?_drop, getElem?_desXor, if_neg (by omega)]
  rw [slice, slice, hdrop]

theorem isBits_desXor {R L : List UInt8} {count : Nat} (hR : IsBits R)
    (hL : ∀ i < count, IsBit (L.getD i 0)) : IsBits (desXor R L count) := by
  intro b hb
  obtain ⟨i, hi⟩ := List.mem_iff_getElem?.mp hb
  rw [getElem?_desXor] at hi
  split at hi
  · rename_i hlt
    obtain ⟨a, ha, rfl⟩ := Option.map_eq_some_iff.mp hi
    exact (hR a (List.mem_of_getElem? ha)).xor (hL i hlt)
  · exact hR b (List.mem_of_getElem? hi)

/-- The part of `copyRight` that a round of `DES_SBOX` leaves alone. -/
theorem getD_sboxStep_of_lt (data : List UInt8) {cnt i : Nat} (h : i < 4 * cnt) :
    (sboxStep data cnt).getD i 0 = data.getD i 0 := by
  simp only [sboxStep, List.getD_eq_getElem?_getD]
  rw [List.getElem?_set_ne (by omega), List.getElem?_set_ne (by omega),
    List.getElem?_set_ne (by omega), List.getElem?_set_ne (by omega)]

theorem isBit_getD_set {l : List UInt8} {b : UInt8} (hb : IsBit b) (i : Nat) :
    IsBit ((l.set i b).getD i 0) := by
  rw [List.getD_eq_getElem?_getD, List.getElem?_set_self']
  cases l[i]? with
  | none => exact isBit_zero
  | some _ => exact hb

theorem getD_set_ne {l : List UInt8} {i j : Nat} (h : i ≠ j) (b : UInt8) :
    (l.set i b).getD j 0 = l.getD j 0 := by
  rw [List.getD_eq_getElem?_getD, List.getElem?_set_ne h, ← List.getD_eq_getElem?_getD]

/-- What a round of `DES_SBOX` writes are bits. -/
theorem isBit_sboxStep (data : List UInt8) (cnt : Nat) {k : Nat} (hk : k < 4) :
    IsBit ((sboxStep data cnt).getD (cnt * 4 + k) 0) := by
  simp only [sboxStep]
  match k, hk with
  | 0, _ =>
    rw [getD_set_ne (by omega), getD_set_ne (by omega), getD_set_ne (by omega)]
    exact isBit_getD_set (isBit_masks _).1 _
  | 1, _ =>
    rw [getD_set_ne (by omega), getD_set_ne (by omega)]
    exact isBit_getD_set (isBit_masks _).2.1 _
  | 2, _ =>
    rw [getD_set_ne (by omega)]
    exact isBit_getD_set (isBit_masks _).2.2.1 _
  | 3, _ => exact isBit_getD_set (isBit_masks _).2.2.2 _

/-- The first 32 elements are bits after `DES_SBOX`, whatever they were. -/
theorem isBit_desSbox (data : List UInt8) {i : Nat} (hi : i < 32) :
    IsBit ((desSbox data).getD i 0) := by
  have hloop : ∀ n i, i < 4 * n → IsBit (((List.range n).foldl sboxStep data).getD i 0) := by
    intro n
    induction n with
    | zero => exact fun i h => absurd h (Nat.not_lt_zero i)
    | succ n ih =>
      intro i h
      rw [List.range_succ, List.foldl_append, List.foldl_cons, List.foldl_nil]
      by_cases hlt : i < 4 * n
      · rw [getD_sboxStep_of_lt _ hlt]
        exact ih i hlt
      · have hi : i = n * 4 + (i - n * 4) := by omega
        rw [hi]
        exact isBit_sboxStep _ n (by omega)
  exact hloop 8 i (by omega)

/-- The function of the right half that a round changes the left half by. -/
def roundFunction (subKey right : List UInt8) : List UInt8 :=
  pTransform (desSbox (desXor (eTransform right) subKey 48))

/-- A round on the 64 bits alone. -/
def roundBits (subKey bits : List UInt8) : List UInt8 :=
  desXor bits (roundFunction subKey (slice bits 32 32)) 32

theorem isBit_roundFunction (subKey right : List UInt8) {i : Nat} (hi : i < 32) :
    IsBit ((roundFunction subKey right).getD i 0) := by
  generalize hdata : desSbox (desXor (eTransform right) subKey 48) = data
  have hbits : ∀ b ∈ permute pTable data, IsBit b := by
    intro b hb
    obtain ⟨j, hj, rfl⟩ := List.mem_map.mp hb
    have hlt : j - 1 < 32 := (by decide : ∀ j ∈ pTable, j - 1 < 32) j hj
    exact hdata ▸ isBit_desSbox _ hlt
  have hlen : i < (permute pTable data).length := by rwa [length_permute]
  rw [roundFunction, hdata, pTransform, overwrite, List.take_zero, List.nil_append,
    List.getD_eq_getElem?_getD, List.getElem?_append_left hlen, List.getElem?_eq_getElem hlen]
  exact hbits _ (List.getElem_mem hlen)

/-- What the first 32 elements of `copyRight` are is all that `DES_E_Transform` sees of it. -/
theorem eTransform_overwrite (garbage : List UInt8) {right : List UInt8} (h : right.length = 32) :
    eTransform (overwrite garbage 0 right) = eTransform right := by
  refine permute_congr fun i hi => ?_
  have hlt : i - 1 < right.length := h ▸ (by decide : ∀ i ∈ eTable, i - 1 < 32) i hi
  rw [overwrite, List.take_zero, List.nil_append, List.getD_eq_getElem?_getD,
    List.getElem?_append_left hlt, ← List.getD_eq_getElem?_getD]

/-- What is left of `copyRight` from the round before does not matter. -/
theorem desRound_fst (subKeys : List (List UInt8)) (cnt : Nat) {r : List UInt8 × List UInt8}
    (h : r.1.length = 64) : (desRound subKeys cnt r).1 = roundBits (subKeys.getD cnt []) r.1 := by
  have hlen : (slice r.1 32 32).length = 32 := Lib.length_slice (by omega)
  simp only [desRound, roundBits, roundFunction, eTransform_overwrite r.2 hlen]

/-- **A round undoes itself.** -/
theorem roundBits_roundBits (subKey bits : List UInt8) :
    roundBits subKey (roundBits subKey bits) = bits := by
  rw [roundBits, roundBits, slice_desXor, desXor_desXor]

theorem Block64.roundBits {bits : List UInt8} (h : Block64 bits) (subKey : List UInt8) :
    Block64 (roundBits subKey bits) where
  length := (length_desXor _ _ _).trans h.length
  isBits := isBits_desXor h.isBits fun _ hi => isBit_roundFunction _ _ hi

theorem Block64.swapHalves {bits : List UInt8} (h : Block64 bits) : Block64 (swapHalves bits) where
  length := by
    have hlen := h.length
    rw [Hash.swapHalves, List.length_append, Lib.length_slice (by omega),
      Lib.length_slice (by omega)]
  isBits := (h.isBits.slice 32 32).append (h.isBits.slice 0 32)

theorem swapHalves_swapHalves {bits : List UInt8} (h : bits.length = 64) :
    swapHalves (swapHalves bits) = bits := by
  have hright : (slice bits 32 32).length = 32 := Lib.length_slice (by omega)
  have hleft : (slice bits 0 32).length = 32 := Lib.length_slice (by omega)
  have hfst : slice (swapHalves bits) 32 32 = slice bits 0 32 := by
    rw [slice, swapHalves, List.drop_left' hright, List.take_of_length_le (Nat.le_of_eq hleft)]
  have hsnd : slice (swapHalves bits) 0 32 = slice bits 32 32 := by
    rw [slice, swapHalves, List.drop_zero, List.take_left' hright]
  have hend : slice bits 32 32 = bits.drop 32 :=
    List.take_of_length_le (by rw [List.length_drop]; omega)
  rw [swapHalves, hfst, hsnd, hend, slice, List.drop_zero, List.take_append_drop]

/-! ## Sixteen rounds -/

/-- What is done to the 64 bits. -/
inductive RoundOp where
  /-- A round, with the subkey of this number. -/
  | round (cnt : Nat)
  /-- The swap between two rounds. -/
  | swap
  deriving DecidableEq

/-- The operations of one pass of the loop, where `last` is the pass without the swap. -/
def roundOps (last cnt : Nat) : List RoundOp :=
  if cnt ≠ last then [.round cnt, .swap] else [.round cnt]

/-- An operation on the 64 bits. -/
def RoundOp.apply (subKeys : List (List UInt8)) : RoundOp → List UInt8 → List UInt8
  | .round cnt, bits => roundBits (subKeys.getD cnt []) bits
  | .swap, bits => swapHalves bits

theorem Block64.apply {bits : List UInt8} (h : Block64 bits) (subKeys : List (List UInt8))
    (op : RoundOp) : Block64 (op.apply subKeys bits) := by
  cases op with
  | round cnt => exact h.roundBits _
  | swap => exact h.swapHalves

theorem RoundOp.apply_apply (subKeys : List (List UInt8)) (op : RoundOp) {bits : List UInt8}
    (h : Block64 bits) : op.apply subKeys (op.apply subKeys bits) = bits := by
  cases op with
  | round cnt => exact roundBits_roundBits _ bits
  | swap => exact swapHalves_swapHalves h.length

/-- The loop over the rounds is a sequence of these operations. -/
theorem foldl_desRoundSwap (subKeys : List (List UInt8)) (last : Nat) (cnts : List Nat) :
    ∀ {bits : List UInt8} (garbage : List UInt8), Block64 bits →
      (cnts.foldl (desRoundSwap subKeys last) (bits, garbage)).1 =
        Lib.steps (RoundOp.apply subKeys) (cnts.flatMap (roundOps last)) bits := by
  induction cnts with
  | nil => exact fun _ _ => rfl
  | cons cnt cnts ih =>
    intro bits garbage h
    have hfst : (desRound subKeys cnt (bits, garbage)).1 = roundBits (subKeys.getD cnt []) bits :=
      desRound_fst subKeys cnt h.length
    rw [List.foldl_cons, List.flatMap_cons, Lib.steps_append]
    by_cases hlast : cnt ≠ last
    · have hpass : desRoundSwap subKeys last (bits, garbage) cnt =
          (swapHalves (roundBits (subKeys.getD cnt []) bits),
            (desRound subKeys cnt (bits, garbage)).2) := by
        rw [desRoundSwap, if_pos hlast, hfst]
      rw [hpass, ih _ (h.roundBits _).swapHalves, roundOps, if_pos hlast, Lib.steps_cons,
        Lib.steps_cons, Lib.steps_nil, RoundOp.apply, RoundOp.apply]
    · have hpass : desRoundSwap subKeys last (bits, garbage) cnt =
          (roundBits (subKeys.getD cnt []) bits, (desRound subKeys cnt (bits, garbage)).2) := by
        rw [desRoundSwap, if_neg hlast, ← hfst]
      rw [hpass, ih _ (h.roundBits _), roundOps, if_neg hlast, Lib.steps_cons, Lib.steps_nil,
        RoundOp.apply]

/-- The operations on a block, between the two permutations. -/
def cipherBlock (subKeys : List (List UInt8)) (ops : List RoundOp) (block : List UInt8) :
    List UInt8 :=
  bit64ToChar8 (ip1Transform
    (Lib.steps (RoundOp.apply subKeys) ops (ipTransform (char8ToBit64 block))))

theorem Block64.ipTransform {bits : List UInt8} (h : Block64 bits) :
    Block64 (ipTransform bits) where
  length := length_permute ipTable bits
  isBits := isBits_permute ipTable h.isBits

theorem Block64.ip1Transform {bits : List UInt8} (h : Block64 bits) :
    Block64 (ip1Transform bits) where
  length := length_permute ip1Table bits
  isBits := isBits_permute ip1Table h.isBits

/-- The same operations in the opposite order undo a block. -/
theorem cipherBlock_reverse (subKeys : List (List UInt8)) (ops : List RoundOp) {block : List UInt8}
    (h : block.length = 8) : cipherBlock subKeys ops.reverse (cipherBlock subKeys ops block) =
      block := by
  have hstart : Block64 (ipTransform (char8ToBit64 block)) :=
    (block64_char8ToBit64 block).ipTransform
  have hsteps : Block64 (Lib.steps (RoundOp.apply subKeys) ops
      (ipTransform (char8ToBit64 block))) :=
    Lib.steps_invariant (fun op _ hb => hb.apply subKeys op) ops hstart
  have hundo : Lib.steps (RoundOp.apply subKeys) ops.reverse (Lib.steps (RoundOp.apply subKeys) ops
      (ipTransform (char8ToBit64 block))) = ipTransform (char8ToBit64 block) :=
    Lib.undo_steps (fun op _ hb => Block64.apply hb subKeys op)
      (fun op _ hb => RoundOp.apply_apply subKeys op hb) ops hstart
  rw [cipherBlock, cipherBlock, char8ToBit64_bit64ToChar8 hsteps.ip1Transform,
    permute_ip_ip1 hsteps.length, hundo, permute_ip1_ip (block64_char8ToBit64 block).length,
    bit64ToChar8_char8ToBit64 h]

/-- The operations of `__des_encryptBlock`. -/
def encryptOps : List RoundOp := (List.range 16).flatMap (roundOps 15)

/-- The operations of `__des_decryptBlock`. -/
def decryptOps : List RoundOp := (List.range 16).reverse.flatMap (roundOps 0)

theorem reverse_encryptOps : encryptOps.reverse = decryptOps := by decide

theorem reverse_decryptOps : decryptOps.reverse = encryptOps := by decide

theorem desEncryptBlock_eq (garbage : List UInt8) (subKeys : List (List UInt8))
    (block : List UInt8) :
    desEncryptBlock garbage subKeys block = cipherBlock subKeys encryptOps block := by
  rw [desEncryptBlock, foldl_desRoundSwap subKeys 15 _ garbage
    (block64_char8ToBit64 block).ipTransform]
  rfl

theorem desDecryptBlock_eq (garbage : List UInt8) (subKeys : List (List UInt8))
    (block : List UInt8) :
    desDecryptBlock garbage subKeys block = cipherBlock subKeys decryptOps block := by
  rw [desDecryptBlock, foldl_desRoundSwap subKeys 0 _ garbage
    (block64_char8ToBit64 block).ipTransform]
  rfl

theorem desDecryptBlock_desEncryptBlock (g g' : List UInt8) (subKeys : List (List UInt8))
    {block : List UInt8} (h : block.length = 8) :
    desDecryptBlock g' subKeys (desEncryptBlock g subKeys block) = block := by
  rw [desDecryptBlock_eq, desEncryptBlock_eq, ← reverse_encryptOps, cipherBlock_reverse subKeys _ h]

theorem desEncryptBlock_desDecryptBlock (g g' : List UInt8) (subKeys : List (List UInt8))
    {block : List UInt8} (h : block.length = 8) :
    desEncryptBlock g' subKeys (desDecryptBlock g subKeys block) = block := by
  rw [desDecryptBlock_eq, desEncryptBlock_eq, ← reverse_decryptOps, cipherBlock_reverse subKeys _ h]

theorem length_desEncryptBlock (garbage : List UInt8) (subKeys : List (List UInt8))
    (block : List UInt8) : (desEncryptBlock garbage subKeys block).length = 8 :=
  length_bit64ToChar8 _

theorem length_desDecryptBlock (garbage : List UInt8) (subKeys : List (List UInt8))
    (block : List UInt8) : (desDecryptBlock garbage subKeys block).length = 8 :=
  length_bit64ToChar8 _

/-! ## A buffer -/

section Buffer

variable {block : List (List UInt8) → List UInt8 → List UInt8}

/-- The subkeys of a call. -/
def subKeysOf (key : Option (List.Vector UInt8 8)) : List (List UInt8) :=
  makeSubKeys (char8ToBit64 (key.getD defaultDesKey).toList)

/-- A call on a buffer is a map over its blocks; what it returns is the length as an `int`. -/
theorem desBlocks_eq (hblock : ∀ k b, (block k b).length = 8) {x out : List UInt8}
    (key : Option (List.Vector UInt8 8)) (hpos : 0 < x.length) (hmod : x.length % 8 = 0)
    (hout : out.length = x.length) :
    desBlocks block (some x) x.length key (some out) =
      (int32 x.length, some (Lib.mapBlocks (block (subKeysOf key)) 8 (x.length / 8) x)) := by
  have hlen : 8 * (x.length / 8) = x.length := Nat.mul_div_cancel' (Nat.dvd_of_mod_eq_zero hmod)
  have hmap : (Lib.mapBlocks (block (subKeysOf key)) 8 (x.length / 8) x).length = out.length := by
    rw [Lib.length_mapBlocks (fun b _ => hblock _ b) _ _ hlen.symm, hlen, hout]
  have hloop : Lib.blockLoop (block (subKeysOf key)) 8 x (x.length / 8) 0 out =
      Lib.mapBlocks (block (subKeysOf key)) 8 (x.length / 8) x := by
    rw [Lib.blockLoop_eq (fun b _ => hblock _ b) x _ 0 out (by omega) (by omega), List.drop_zero,
      overwrite, List.take_zero, List.nil_append, Nat.zero_add, hmap, List.drop_length,
      List.append_nil]
  have hret : (x.length : Int) - (x.length : Int) % 8 = x.length := by omega
  rw [desBlocks, if_neg (by omega), hret]
  show (int32 x.length, some (Lib.blockLoop (block (subKeysOf key)) 8 x (x.length / 8) 0 out)) = _
  rw [hloop]

/-- What one call wrote is read back by a second one, where the second undoes a block. -/
theorem desBlocks_desBlocks {block' : List (List UInt8) → List UInt8 → List UInt8}
    (hblock : ∀ k b, (block k b).length = 8) (hblock' : ∀ k b, (block' k b).length = 8)
    (hundo : ∀ k b, b.length = 8 → block' k (block k b) = b) {x out out' : List UInt8}
    (key : Option (List.Vector UInt8 8)) (hpos : 0 < x.length) (hmod : x.length % 8 = 0)
    (hout : out.length = x.length) (hout' : out'.length = x.length) :
    desBlocks block' (desBlocks block (some x) x.length key (some out)).2 x.length key (some out') =
      (int32 x.length, some x) := by
  have hlen : 8 * (x.length / 8) = x.length := Nat.mul_div_cancel' (Nat.dvd_of_mod_eq_zero hmod)
  have hback : Lib.mapBlocks (block' (subKeysOf key)) 8 (x.length / 8)
      (Lib.mapBlocks (block (subKeysOf key)) 8 (x.length / 8) x) = x :=
    Lib.mapBlocks_mapBlocks (fun b _ => hblock _ b) (hundo _) _ _ hlen.symm
  have hsize : (Lib.mapBlocks (block (subKeysOf key)) 8 (x.length / 8) x).length = x.length := by
    rw [Lib.length_mapBlocks (fun b _ => hblock _ b) _ _ hlen.symm, hlen]
  rw [desBlocks_eq hblock key hpos hmod hout]
  generalize Lib.mapBlocks (block (subKeysOf key)) 8 (x.length / 8) x = y at hback hsize
  rw [← hsize, desBlocks_eq hblock' key (by omega) (by omega) (by omega), hsize, hback]

end Buffer

/-- The round trip of DES on a buffer, in both orders. -/
structure DesRoundTrip (g g' x out out' : List UInt8) (key : Option (List.Vector UInt8 8)) :
    Prop where
  encrypt_returns : (desEncrypt g (some x) x.length key (some out)).1 = x.length
  decrypt_encrypt : desDecrypt g' (desEncrypt g (some x) x.length key (some out)).2 x.length key
    (some out') = ((x.length : Int), some x)
  decrypt_returns : (desDecrypt g (some x) x.length key (some out)).1 = x.length
  encrypt_decrypt : desEncrypt g' (desDecrypt g (some x) x.length key (some out)).2 x.length key
    (some out') = ((x.length : Int), some x)

theorem desEncrypt_returns (g : List UInt8) {x out : List UInt8}
    (key : Option (List.Vector UInt8 8)) (hpos : 0 < x.length) (hmod : x.length % 8 = 0)
    (hout : out.length = x.length) :
    (desEncrypt g (some x) x.length key (some out)).1 = int32 x.length := by
  rw [desEncrypt, desBlocks_eq (length_desEncryptBlock g) key hpos hmod hout]

theorem desDecrypt_returns (g : List UInt8) {x out : List UInt8}
    (key : Option (List.Vector UInt8 8)) (hpos : 0 < x.length) (hmod : x.length % 8 = 0)
    (hout : out.length = x.length) :
    (desDecrypt g (some x) x.length key (some out)).1 = int32 x.length := by
  rw [desDecrypt, desBlocks_eq (length_desDecryptBlock g) key hpos hmod hout]

theorem desDecrypt_desEncrypt {g g' x out out' : List UInt8} (key : Option (List.Vector UInt8 8))
    (hpos : 0 < x.length) (hmod : x.length % 8 = 0) (hout : out.length = x.length)
    (hout' : out'.length = x.length) :
    desDecrypt g' (desEncrypt g (some x) x.length key (some out)).2 x.length key (some out') =
      (int32 x.length, some x) :=
  desBlocks_desBlocks (length_desEncryptBlock g) (length_desDecryptBlock g')
    (fun k _ hb => desDecryptBlock_desEncryptBlock g g' k hb) key hpos hmod hout hout'

theorem desEncrypt_desDecrypt {g g' x out out' : List UInt8} (key : Option (List.Vector UInt8 8))
    (hpos : 0 < x.length) (hmod : x.length % 8 = 0) (hout : out.length = x.length)
    (hout' : out'.length = x.length) :
    desEncrypt g' (desDecrypt g (some x) x.length key (some out)).2 x.length key (some out') =
      (int32 x.length, some x) :=
  desBlocks_desBlocks (length_desDecryptBlock g) (length_desEncryptBlock g')
    (fun k _ hb => desEncryptBlock_desDecryptBlock g g' k hb) key hpos hmod hout hout'

theorem int32_eq_iff {n : Nat} : int32 n = n ↔ n < 2 ^ 31 := by
  constructor
  · intro h
    have hin := Lib.inInt32_int32 n
    rw [h] at hin
    have hlt := hin.2
    omega
  · intro h
    exact Lib.int32_of_inInt32 ⟨by omega, by omega⟩

/-- **The round trip of DES.**  The bytes come back for every key and every buffer of whole blocks.
The length is returned as an `int`, and so is the length of the buffer below `2 ^ 31` only. -/
theorem des_roundTrip_iff {g g' x out out' : List UInt8} (key : Option (List.Vector UInt8 8))
    (hpos : 0 < x.length) (hmod : x.length % 8 = 0) (hout : out.length = x.length)
    (hout' : out'.length = x.length) : DesRoundTrip g g' x out out' key ↔ x.length < 2 ^ 31 := by
  have henc := desEncrypt_returns g key hpos hmod hout
  have hdec := desDecrypt_returns g key hpos hmod hout
  constructor
  · intro h
    exact int32_eq_iff.mp (henc.symm.trans h.encrypt_returns)
  · intro hlt
    have hint : int32 x.length = x.length := int32_eq_iff.mpr hlt
    exact
      { encrypt_returns := henc.trans hint
        decrypt_encrypt := by rw [desDecrypt_desEncrypt key hpos hmod hout hout', hint]
        decrypt_returns := hdec.trans hint
        encrypt_decrypt := by rw [desEncrypt_desDecrypt key hpos hmod hout hout', hint] }

theorem des_roundTrip_one_block :
    DesRoundTrip (List.replicate 48 204) (List.replicate 48 0) [1, 2, 3, 4, 5, 6, 7, 8]
      [0, 0, 0, 0, 0, 0, 0, 0] [0, 0, 0, 0, 0, 0, 0, 0] none := by
  refine (des_roundTrip_iff none ?_ ?_ ?_ ?_).mpr ?_
  · decide
  · decide
  · rfl
  · rfl
  · decide

/-- Of a buffer of two gigabytes `des_encrypt` returns a negative number. -/
theorem desEncrypt_returns_negative :
    ¬ ∀ (g g' x out out' : List UInt8) (key : Option (List.Vector UInt8 8)), 0 < x.length →
      x.length % 8 = 0 → out.length = x.length → out'.length = x.length →
      DesRoundTrip g g' x out out' key := by
  intro h
  have hlen : (List.replicate (2 ^ 31) (0 : UInt8)).length = 2 ^ 31 := List.length_replicate
  generalize List.replicate (2 ^ 31) (0 : UInt8) = x at hlen
  have hpos : 0 < x.length := by omega
  have hmod : x.length % 8 = 0 := by omega
  have hret : int32 x.length = x.length :=
    (desEncrypt_returns [] none hpos hmod rfl).symm.trans
      (h [] [] x x x none hpos hmod rfl rfl).encrypt_returns
  have hlt := int32_eq_iff.mp hret
  omega

end Hash

end LibNax
