import Mathlib.Algebra.Group.Nat.Defs
import LibNax.Lib.Absorb

/-!
# MD5

The digest of a message as RFC 1321 defines it, apart from any program that computes it.  Four words
are changed by 64 steps for each block of 64 bytes; the message is padded to whole blocks, the last
eight bytes of which are its length in bits modulo `2 ^ 64`.

* `step`, `compress` — a step, and the 64 steps of a block.  The four words move on by one place at
  each step.
* `pad`, `digest` — the padding, and the digest.
-/

set_option autoImplicit false

namespace LibNax

namespace Rfc1321

open Lib (slice)

/-- The words `A`, `B`, `C` and `D`. -/
@[ext] structure Words where
  a : UInt32
  b : UInt32
  c : UInt32
  d : UInt32
  deriving DecidableEq

/-- The auxiliary functions `F`, `G`, `H` and `I`, by the number of the step. -/
def auxiliary (i : Nat) (x y z : UInt32) : UInt32 :=
  if i < 16 then (x &&& y) ||| (~~~x &&& z)
  else if i < 32 then (x &&& z) ||| (y &&& ~~~z)
  else if i < 48 then x ^^^ y ^^^ z
  else y ^^^ (x ||| ~~~z)

/-- Which word of the block a step reads. -/
def wordIndex (i : Nat) : Nat :=
  if i < 16 then i
  else if i < 32 then (5 * i + 1) % 16
  else if i < 48 then (3 * i + 5) % 16
  else 7 * i % 16

/-- By how much a step rotates. -/
def amount (i : Nat) : Nat :=
  (([[7, 12, 17, 22], [5, 9, 14, 20], [4, 11, 16, 23], [6, 10, 15, 21]] : List (List Nat)).getD
    (i / 16) []).getD (i % 4) 0

/-- The table `T`: the integer part of `4294967296 * abs (sin (i + 1))`. -/
def sineTable : List UInt32 :=
  [0xd76aa478, 0xe8c7b756, 0x242070db, 0xc1bdceee, 0xf57c0faf, 0x4787c62a, 0xa8304613,
    0xfd469501, 0x698098d8, 0x8b44f7af, 0xffff5bb1, 0x895cd7be, 0x6b901122, 0xfd987193,
    0xa679438e, 0x49b40821, 0xf61e2562, 0xc040b340, 0x265e5a51, 0xe9b6c7aa, 0xd62f105d,
    0x02441453, 0xd8a1e681, 0xe7d3fbc8, 0x21e1cde6, 0xc33707d6, 0xf4d50d87, 0x455a14ed,
    0xa9e3e905, 0xfcefa3f8, 0x676f02d9, 0x8d2a4c8a, 0xfffa3942, 0x8771f681, 0x6d9d6122,
    0xfde5380c, 0xa4beea44, 0x4bdecfa9, 0xf6bb4b60, 0xbebfbc70, 0x289b7ec6, 0xeaa127fa,
    0xd4ef3085, 0x04881d05, 0xd9d4d039, 0xe6db99e5, 0x1fa27cf8, 0xc4ac5665, 0xf4292244,
    0x432aff97, 0xab9423a7, 0xfc93a039, 0x655b59c3, 0x8f0ccc92, 0xffeff47d, 0x85845dd1,
    0x6fa87e4f, 0xfe2ce6e0, 0xa3014314, 0x4e0811a1, 0xf7537e82, 0xbd3af235, 0x2ad7d2bb,
    0xeb86d391]

/-- The rotation of a word to the left. -/
def rotate (x : UInt32) (s : Nat) : UInt32 := ⟨x.toBitVec.rotateLeft s⟩

/-- A step.  The word that is computed takes the second place. -/
def step (x : List UInt32) (w : Words) (i : Nat) : Words where
  a := w.d
  b := w.b + rotate (w.a + auxiliary i w.b w.c w.d + x.getD (wordIndex i) 0 + sineTable.getD i 0)
    (amount i)
  c := w.b
  d := w.c

/-- The word that four bytes are, the lowest first. -/
def word (l : List UInt8) : UInt32 :=
  UInt32.ofNat ((l.getD 0 0).toNat + (l.getD 1 0).toNat * 2 ^ 8 + (l.getD 2 0).toNat * 2 ^ 16 +
    (l.getD 3 0).toNat * 2 ^ 24)

/-- The four words after a block. -/
def compress (w : Words) (block : List UInt8) : Words :=
  let x := (List.range 16).map fun i => word (slice block (4 * i) 4)
  let v := (List.range 64).foldl (step x) w
  ⟨w.a + v.a, w.b + v.b, w.c + v.c, w.d + v.d⟩

/-- The four words before the first block. -/
def initial : Words := ⟨0x67452301, 0xefcdab89, 0x98badcfe, 0x10325476⟩

/-- The lowest `k` bytes of a number, the lowest first. -/
def lowBytes (k n : Nat) : List UInt8 := (List.range k).map fun i => UInt8.ofNat (n / 2 ^ (8 * i))

/-- A bit that is one, and zeros up to 8 bytes before the end of a block. -/
def padding (n : Nat) : List UInt8 := 0x80 :: List.replicate ((119 - n % 64) % 64) 0

/-- A message and its padding. -/
def pad (m : List UInt8) : List UInt8 := m ++ padding m.length ++ lowBytes 8 (8 * m.length)

/-- The digest of a message. -/
def digest (m : List UInt8) : List UInt8 :=
  let w := Lib.absorb compress 64 initial (pad m)
  [w.a, w.b, w.c, w.d].flatMap fun x => lowBytes 4 x.toNat

end Rfc1321

end LibNax
