import Mathlib.Init

/-!
# Cyclic redundancy checks

The register of a reflected check, of any width and for any polynomial.  A bit of the message goes
in at the low end; the register is the remainder of what went in so far.

* `crcStep`, `crcFeed` — the register after a bit, and after a list of bits.
* `crcShift`, `crcShifts` — the register that moves on without a bit.
* `crcFeed_bits` — bits that are added to the register beforehand need not be fed.
* `crcShifts_xor` — moving on is linear.
* `crcShifts_split` — moving on by `n` bits is a function of the low `n` bits, and a shift of the
  others: the former can be looked up in a table.
-/

set_option autoImplicit false

namespace LibNax

namespace Lib

variable {w : Nat} (poly : BitVec w)

/-- The register after a bit of the message. -/
def crcStep (c : BitVec w) (b : Bool) : BitVec w :=
  if Bool.xor (c.getLsbD 0) b then (c >>> 1) ^^^ poly else c >>> 1

/-- The register after the bits of a message. -/
def crcFeed (c : BitVec w) (bits : List Bool) : BitVec w := bits.foldl (crcStep poly) c

/-- The register moves on by a bit. -/
def crcShift (c : BitVec w) : BitVec w :=
  if c.getLsbD 0 then (c >>> 1) ^^^ poly else c >>> 1

/-- The register moves on by some bits. -/
def crcShifts : Nat → BitVec w → BitVec w
  | 0, c => c
  | n + 1, c => crcShifts n (crcShift poly c)

/-- What a register adds to the message when a bit of it goes in. -/
theorem crcStep_getLsbD (c x : BitVec w) :
    crcStep poly c (x.getLsbD 0) ^^^ (x >>> 1) = crcShift poly (c ^^^ x) := by
  rw [crcStep, crcShift, BitVec.getLsbD_xor, BitVec.ushiftRight_xor_distrib]
  split
  · rw [BitVec.xor_assoc, BitVec.xor_comm poly, ← BitVec.xor_assoc]
  · rfl

/-- **Feeding the bits of a number** is adding it to the register and moving on. -/
theorem crcFeed_bits (n : Nat) (c x : BitVec w) (hx : x >>> n = 0#w) :
    crcFeed poly c ((List.range n).map x.getLsbD) = crcShifts poly n (c ^^^ x) := by
  induction n generalizing c x with
  | zero =>
    rw [BitVec.ushiftRight_zero] at hx
    rw [hx, BitVec.xor_zero]
    rfl
  | succ n ih =>
    have hrest : (List.range n).map (fun i => x.getLsbD (i + 1)) =
        (List.range n).map (x >>> 1).getLsbD := by
      refine List.map_congr_left fun i _ => ?_
      rw [BitVec.getLsbD_ushiftRight, Nat.add_comm]
    have hx' : (x >>> 1) >>> n = 0#w := by
      rw [← BitVec.shiftRight_add, Nat.add_comm]
      exact hx
    rw [List.range_succ_eq_map, List.map_cons, List.map_map, crcShifts, ← crcStep_getLsbD]
    exact (congrArg (crcFeed poly (crcStep poly c (x.getLsbD 0))) hrest).trans (ih _ _ hx')

theorem crcShift_xor (a b : BitVec w) :
    crcShift poly (a ^^^ b) = crcShift poly a ^^^ crcShift poly b := by
  rw [crcShift, crcShift, crcShift, BitVec.getLsbD_xor, BitVec.ushiftRight_xor_distrib]
  cases a.getLsbD 0 with
  | false =>
    cases b.getLsbD 0 with
    | false => rfl
    | true => exact BitVec.xor_assoc _ _ _
  | true =>
    cases b.getLsbD 0 with
    | false =>
      change a >>> 1 ^^^ b >>> 1 ^^^ poly = a >>> 1 ^^^ poly ^^^ b >>> 1
      rw [BitVec.xor_assoc, BitVec.xor_comm _ poly, ← BitVec.xor_assoc]
    | true =>
      change a >>> 1 ^^^ b >>> 1 = a >>> 1 ^^^ poly ^^^ (b >>> 1 ^^^ poly)
      rw [BitVec.xor_assoc, BitVec.xor_comm poly (_ ^^^ poly), BitVec.xor_assoc (b >>> 1),
        BitVec.xor_self, BitVec.xor_zero]

/-- **Moving on is linear.** -/
theorem crcShifts_xor (n : Nat) (a b : BitVec w) :
    crcShifts poly n (a ^^^ b) = crcShifts poly n a ^^^ crcShifts poly n b := by
  induction n generalizing a b with
  | zero => rfl
  | succ n ih => rw [crcShifts, crcShifts, crcShifts, crcShift_xor, ih]

/-- Where the low bits are clear, no remainder is taken. -/
theorem crcShifts_of_clear (n : Nat) (c : BitVec w) (hc : ∀ i < n, c.getLsbD i = false) :
    crcShifts poly n c = c >>> n := by
  induction n generalizing c with
  | zero => rw [crcShifts, BitVec.ushiftRight_zero]
  | succ n ih =>
    have hstep : crcShift poly c = c >>> 1 := by
      rw [crcShift, hc 0 (Nat.succ_pos n), if_neg Bool.false_ne_true]
    rw [crcShifts, hstep, ih, ← BitVec.shiftRight_add, Nat.add_comm]
    intro i hi
    rw [BitVec.getLsbD_ushiftRight]
    exact hc _ (by omega)

/-- **A step by `n` bits at once**: the low bits through the register, the others by a shift. -/
theorem crcShifts_split {n : Nat} {c low : BitVec w}
    (hclear : ∀ i < n, (low ^^^ c).getLsbD i = false) (hlow : low >>> n = 0#w) :
    crcShifts poly n c = (c >>> n) ^^^ crcShifts poly n low := by
  have hc : c = low ^^^ (low ^^^ c) := by
    rw [← BitVec.xor_assoc, BitVec.xor_self, BitVec.zero_xor]
  calc crcShifts poly n c = crcShifts poly n low ^^^ crcShifts poly n (low ^^^ c) := by
        rw [← crcShifts_xor, ← hc]
    _ = crcShifts poly n low ^^^ (c >>> n) := by
        rw [crcShifts_of_clear poly n _ hclear, BitVec.ushiftRight_xor_distrib, hlow,
          BitVec.zero_xor]
    _ = (c >>> n) ^^^ crcShifts poly n low := BitVec.xor_comm _ _

end Lib

end LibNax
