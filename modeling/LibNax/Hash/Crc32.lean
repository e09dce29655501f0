import Mathlib.Data.List.GetD
import LibNax.Lib.Crc

/-!
# CRC-32

`crc32` takes a string a byte at a time, with a table of what a byte leaves behind.  The register is
complemented at both ends of every call.

* `crc32InitialTable`, `crc32` — the functions of the source.
* `reflected` — the check bit by bit, apart from any table.
* `crc32_eq` — the two agree, and `crc32_correct` — a string in pieces.
-/

set_option autoImplicit false

namespace LibNax

namespace Hash

open Lib (crcShift crcShifts crcFeed)

/-! ## The functions of the source -/

/-- `CRC32_POLY`. -/
def crc32Poly : UInt32 := 0xEDB88320

/-- A round of the inner loop of `_crc32_initial_table`. -/
def crc32Bit (c : UInt32) : UInt32 := if c &&& 1 ≠ 0 then (c >>> 1) ^^^ crc32Poly else c >>> 1

/-- The inner loop of `_crc32_initial_table`, for the rounds left. -/
def crc32Bits : Nat → UInt32 → UInt32
  | 0, c => c
  | bit + 1, c => crc32Bits bit (crc32Bit c)

/-- `_crc32_initial_table`: the table afterwards. -/
def crc32InitialTable : List UInt32 := (List.range 256).map fun i => crc32Bits 8 (UInt32.ofNat i)

/-- The index into the table, for the register and a byte. -/
def crc32Index (crc : UInt32) (byte : UInt8) : UInt32 := (crc &&& 0xff) ^^^ byte.toUInt32

/-- A round of the loop of `crc32`. -/
def crc32Byte (crc : UInt32) (byte : UInt8) : UInt32 :=
  (crc >>> 8) ^^^ crc32InitialTable.getD (crc32Index crc byte).toNat 0

/-- `crc32`, for the bytes that the pointer and the size name. -/
def crc32 (crc : UInt32) (string : List UInt8) : UInt32 :=
  if string = [] then 0
  else string.foldl crc32Byte (crc ^^^ 0xFFFFFFFF) ^^^ 0xFFFFFFFF

/-! ## The check bit by bit -/

/-- The bits of a string, the lowest of every byte first. -/
def bitsOf (string : List UInt8) : List Bool :=
  string.flatMap fun byte => (List.range 8).map (byte.toBitVec.setWidth 32).getLsbD

theorem bitsOf_cons (byte : UInt8) (string : List UInt8) :
    bitsOf (byte :: string) =
      (List.range 8).map (byte.toBitVec.setWidth 32).getLsbD ++ bitsOf string :=
  List.flatMap_cons

/-- The reflected CRC-32 of a string, started from `c`: the register is complemented, takes the bits
one by one, and is complemented again. -/
def reflected (c : UInt32) (string : List UInt8) : UInt32 :=
  ⟨~~~crcFeed 0xEDB88320#32 (~~~c.toBitVec) (bitsOf string)⟩

/-! ## The table -/

theorem toBitVec_crc32Bit (c : UInt32) :
    (crc32Bit c).toBitVec = crcShift crc32Poly.toBitVec c.toBitVec := by
  have hlow : (c &&& 1).toBitVec = BitVec.setWidth 32 (BitVec.ofBool (c.toBitVec.getLsbD 0)) :=
    BitVec.and_one_eq_setWidth_ofBool_getLsbD
  rw [crc32Bit, crcShift]
  cases hbit : c.toBitVec.getLsbD 0 with
  | false =>
    rw [hbit] at hlow
    have hzero : c &&& 1 = 0 := UInt32.toBitVec_inj.mp hlow
    rw [if_neg (not_not_intro hzero), if_neg Bool.false_ne_true]
    rfl
  | true =>
    rw [hbit] at hlow
    have hne : c &&& 1 ≠ 0 := by
      rw [show c &&& 1 = 1 from UInt32.toBitVec_inj.mp hlow]
      decide
    rw [if_pos hne, if_pos rfl]
    rfl

theorem toBitVec_crc32Bits (n : Nat) (c : UInt32) :
    (crc32Bits n c).toBitVec = crcShifts crc32Poly.toBitVec n c.toBitVec := by
  induction n generalizing c with
  | zero => rfl
  | succ n ih => rw [crc32Bits, crcShifts, ih, toBitVec_crc32Bit]

theorem toNat_crc32Index_lt (crc : UInt32) (byte : UInt8) : (crc32Index crc byte).toNat < 256 := by
  have hcrc : (crc &&& 0xff).toNat < 2 ^ 8 := by
    rw [UInt32.toNat_and]
    exact Nat.and_lt_two_pow _ (by decide)
  rw [crc32Index, UInt32.toNat_xor, UInt8.toNat_toUInt32]
  exact Nat.xor_lt_two_pow hcrc byte.toNat_lt

/-- The index is inside of the table. -/
theorem getD_crc32InitialTable {i : UInt32} (hi : i.toNat < 256) :
    crc32InitialTable.getD i.toNat 0 = crc32Bits 8 i := by
  rw [crc32InitialTable, List.getD_eq_getElem _ _ (by rwa [List.length_map, List.length_range]),
    List.getElem_map, List.getElem_range, UInt32.ofNat_toNat]

theorem ushiftRight_eight {x : BitVec 32} (hx : x.toNat < 256) : x >>> 8 = 0#32 := by
  apply BitVec.eq_of_toNat_eq
  rw [BitVec.toNat_ushiftRight, Nat.shiftRight_eq_div_pow, Nat.div_eq_of_lt hx]
  rfl

/-- The index has the low byte of what the bits of the byte are added to. -/
theorem crc32Index_low (crc : UInt32) (byte : UInt8) {i : Nat} (hi : i < 8) :
    ((crc32Index crc byte).toBitVec ^^^ (crc.toBitVec ^^^ byte.toBitVec.setWidth 32)).getLsbD i =
      false := by
  have hmask : (0xff : UInt32).toBitVec.getLsbD i = true := by
    have hall : ∀ i < 8, (0xff : UInt32).toBitVec.getLsbD i = true := by decide
    exact hall i hi
  have hindex : (crc32Index crc byte).toBitVec =
      (crc.toBitVec &&& (0xff : UInt32).toBitVec) ^^^ byte.toBitVec.setWidth 32 := rfl
  rw [hindex]
  simp only [BitVec.getLsbD_xor, BitVec.getLsbD_and, hmask, Bool.and_true, bne_self_eq_false]

/-- **A byte by the table** is its eight bits. -/
theorem toBitVec_crc32Byte (crc : UInt32) (byte : UInt8) :
    (crc32Byte crc byte).toBitVec =
      crcFeed crc32Poly.toBitVec crc.toBitVec
        ((List.range 8).map (byte.toBitVec.setWidth 32).getLsbD) := by
  have hlt : byte.toUInt32.toNat < 256 := byte.toNat_toUInt32.symm ▸ byte.toNat_lt
  have hbyte : byte.toBitVec.setWidth 32 >>> 8 = 0#32 := ushiftRight_eight hlt
  have hlow : (crc32Index crc byte).toBitVec >>> 8 = 0#32 :=
    ushiftRight_eight (toNat_crc32Index_lt crc byte)
  rw [Lib.crcFeed_bits _ _ _ _ hbyte,
    Lib.crcShifts_split crc32Poly.toBitVec (fun i hi => crc32Index_low crc byte hi) hlow,
    crc32Byte, getD_crc32InitialTable (toNat_crc32Index_lt crc byte), UInt32.toBitVec_xor,
    toBitVec_crc32Bits, BitVec.ushiftRight_xor_distrib, hbyte, BitVec.xor_zero]
  rfl

/-! ## The strings -/

theorem toBitVec_foldl_crc32Byte (string : List UInt8) (crc : UInt32) :
    (string.foldl crc32Byte crc).toBitVec =
      crcFeed crc32Poly.toBitVec crc.toBitVec (bitsOf string) := by
  induction string generalizing crc with
  | nil => rfl
  | cons byte string ih =>
    rw [List.foldl_cons, ih, toBitVec_crc32Byte, bitsOf_cons, crcFeed, crcFeed, crcFeed,
      List.foldl_append]

theorem xor_ones (c : UInt32) : c ^^^ 0xFFFFFFFF = ~~~c := by
  apply UInt32.toBitVec_inj.mp
  exact BitVec.xor_allOnes

/-- The table computes the check. -/
theorem crc32_eq {string : List UInt8} (hne : string ≠ []) (c : UInt32) :
    crc32 c string = reflected c string := by
  rw [crc32, if_neg hne, xor_ones, xor_ones]
  apply UInt32.toBitVec_inj.mp
  rw [UInt32.toBitVec_not, toBitVec_foldl_crc32Byte, UInt32.toBitVec_not]
  rfl

/-- The complements at the joint of two pieces cancel. -/
theorem crc32_append {a b : List UInt8} (ha : a ≠ []) (hb : b ≠ []) (c : UInt32) :
    crc32 (crc32 c a) b = crc32 c (a ++ b) := by
  have hab : a ++ b ≠ [] := List.append_ne_nil_of_left_ne_nil ha b
  have hcancel : ∀ x : UInt32, x ^^^ 0xFFFFFFFF ^^^ 0xFFFFFFFF = x := fun x => by
    rw [UInt32.xor_assoc, UInt32.xor_self, UInt32.xor_zero]
  rw [crc32, if_neg hb, crc32, if_neg ha, crc32, if_neg hab, hcancel, List.foldl_append]

/-- **`crc32` is the check bit by bit, and goes on from piece to piece**, from every value and for
all strings that are not empty. -/
theorem crc32_correct (c : UInt32) :
    (∀ s : List UInt8, s ≠ [] → crc32 c s = reflected c s) ∧
      ∀ a b : List UInt8, a ≠ [] → b ≠ [] → crc32 (crc32 c a) b = crc32 c (a ++ b) :=
  ⟨fun _ hs => crc32_eq hs c, fun _ _ ha hb => crc32_append ha hb c⟩

/-- The check of the nine digits, in one piece and in two. -/
theorem crc32_correct_digits :
    reflected 0 [0x31, 0x32, 0x33, 0x34, 0x35, 0x36, 0x37, 0x38, 0x39] = 0xCBF43926 ∧
      crc32 0 [0x31, 0x32, 0x33, 0x34, 0x35, 0x36, 0x37, 0x38, 0x39] = 0xCBF43926 ∧
      crc32 (crc32 0 [0x31, 0x32, 0x33, 0x34]) [0x35, 0x36, 0x37, 0x38, 0x39] =
        crc32 0 [0x31, 0x32, 0x33, 0x34, 0x35, 0x36, 0x37, 0x38, 0x39] := by
  have hreflected : reflected 0 [0x31, 0x32, 0x33, 0x34, 0x35, 0x36, 0x37, 0x38, 0x39] =
      0xCBF43926 := by decide +kernel
  refine ⟨hreflected, ?_, (crc32_correct 0).2 _ _ (List.cons_ne_nil _ _) (List.cons_ne_nil _ _)⟩
  rw [(crc32_correct 0).1 _ (List.cons_ne_nil _ _), hreflected]

end Hash

end LibNax
