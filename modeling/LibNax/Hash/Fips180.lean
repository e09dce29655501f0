import LibNax.Lib.Absorb
import LibNax.Lib.Endian

/-!
# SHA-256

The digest of a message as FIPS 180-4 defines it, apart from any program that computes it.  Eight
words are changed by 64 steps for each block of 64 bytes; the message is padded to whole blocks, the
last eight bytes of which are its length in bits.  Words are read and written with the highest byte
first.

* `schedule`, `step`, `compress` — the words of a block, a step, and the 64 steps of a block.
* `pad`, `digest` — the padding, and the digest.
* `constants_cubeRoots`, `initial_squareRoots` — where the tables come from.
-/

set_option autoImplicit false

namespace LibNax

namespace Fips180

open Lib (slice leBytes leNat)

/-- A word. -/
abbrev Word : Type := BitVec 32

/-- The words `a` to `h`. -/
@[ext] structure Words where
  a : Word
  b : Word
  c : Word
  d : Word
  e : Word
  f : Word
  g : Word
  h : Word
  deriving DecidableEq

def ch (x y z : Word) : Word := (x &&& y) ^^^ (~~~x &&& z)

def maj (x y z : Word) : Word := (x &&& y) ^^^ (x &&& z) ^^^ (y &&& z)

def bigSigma0 (x : Word) : Word := x.rotateRight 2 ^^^ x.rotateRight 13 ^^^ x.rotateRight 22

def bigSigma1 (x : Word) : Word := x.rotateRight 6 ^^^ x.rotateRight 11 ^^^ x.rotateRight 25

def sigma0 (x : Word) : Word := x.rotateRight 7 ^^^ x.rotateRight 18 ^^^ (x >>> 3)

def sigma1 (x : Word) : Word := x.rotateRight 17 ^^^ x.rotateRight 19 ^^^ (x >>> 10)

/-- The constants `K`. -/
def constants : List Word :=
  [0x428a2f98, 0x71374491, 0xb5c0fbcf, 0xe9b5dba5, 0x3956c25b, 0x59f111f1, 0x923f82a4,
    0xab1c5ed5, 0xd807aa98, 0x12835b01, 0x243185be, 0x550c7dc3, 0x72be5d74, 0x80deb1fe,
    0x9bdc06a7, 0xc19bf174, 0xe49b69c1, 0xefbe4786, 0x0fc19dc6, 0x240ca1cc, 0x2de92c6f,
    0x4a7484aa, 0x5cb0a9dc, 0x76f988da, 0x983e5152, 0xa831c66d, 0xb00327c8, 0xbf597fc7,
    0xc6e00bf3, 0xd5a79147, 0x06ca6351, 0x14292967, 0x27b70a85, 0x2e1b2138, 0x4d2c6dfc,
    0x53380d13, 0x650a7354, 0x766a0abb, 0x81c2c92e, 0x92722c85, 0xa2bfe8a1, 0xa81a664b,
    0xc24b8b70, 0xc76c51a3, 0xd192e819, 0xd6990624, 0xf40e3585, 0x106aa070, 0x19a4c116,
    0x1e376c08, 0x2748774c, 0x34b0bcb5, 0x391c0cb3, 0x4ed8aa4a, 0x5b9cca4f, 0x682e6ff3,
    0x748f82ee, 0x78a5636f, 0x84c87814, 0x8cc70208, 0x90befffa, 0xa4506ceb, 0xbef9a3f7,
    0xc67178f2]

/-- The eight words before the first block. -/
def initial : Words :=
  ⟨0x6a09e667, 0xbb67ae85, 0x3c6ef372, 0xa54ff53a, 0x510e527f, 0x9b05688c, 0x1f83d9ab, 0x5be0cd19⟩

/-- The first 64 primes. -/
def primes : List Nat :=
  [2, 3, 5, 7, 11, 13, 17, 19, 23, 29, 31, 37, 41, 43, 47, 53, 59, 61, 67, 71, 73, 79, 83, 89, 97,
    101, 103, 107, 109, 113, 127, 131, 137, 139, 149, 151, 157, 163, 167, 173, 179, 181, 191, 193,
    197, 199, 211, 223, 227, 229, 233, 239, 241, 251, 257, 263, 269, 271, 277, 281, 283, 293, 307,
    311]

/-- The constants are the first 32 bits of the fractional parts of the cube roots of the primes:
with a whole part in front, each is the cube root of a prime, rounded down, in units of `2 ^
-32`. -/
theorem constants_cubeRoots : ∀ i < 64, ∃ whole < 7,
    (whole * 2 ^ 32 + (constants.getD i 0).toNat) ^ 3 ≤ primes.getD i 0 * 2 ^ 96 ∧
      primes.getD i 0 * 2 ^ 96 < (whole * 2 ^ 32 + (constants.getD i 0).toNat + 1) ^ 3 := by
  decide +kernel

/-- The words before the first block are those of the square roots of the first eight. -/
theorem initial_squareRoots : ∀ p ∈ [initial.a, initial.b, initial.c, initial.d, initial.e,
    initial.f, initial.g, initial.h].zip primes, ∃ whole < 5,
      (whole * 2 ^ 32 + p.1.toNat) ^ 2 ≤ p.2 * 2 ^ 64 ∧
        p.2 * 2 ^ 64 < (whole * 2 ^ 32 + p.1.toNat + 1) ^ 2 := by
  decide +kernel

/-- The word that four bytes are, the highest first. -/
def word (l : List UInt8) : Word := BitVec.ofNat 32 (leNat l.reverse)

/-- The first words of the schedule of a block. -/
def schedule (block : List UInt8) : Nat → List Word
  | 0 => []
  | t + 1 =>
    let w := schedule block t
    w ++ [if t < 16 then word (slice block (4 * t) 4)
      else sigma1 (w.getD (t - 2) 0) + w.getD (t - 7) 0 + sigma0 (w.getD (t - 15) 0) +
        w.getD (t - 16) 0]

/-- A step. -/
def step (w : List Word) (v : Words) (t : Nat) : Words :=
  let t1 := v.h + bigSigma1 v.e + ch v.e v.f v.g + constants.getD t 0 + w.getD t 0
  let t2 := bigSigma0 v.a + maj v.a v.b v.c
  ⟨t1 + t2, v.a, v.b, v.c, v.d + t1, v.e, v.f, v.g⟩

/-- The eight words after a block. -/
def compress (v : Words) (block : List UInt8) : Words :=
  let r := (List.range 64).foldl (step (schedule block 64)) v
  ⟨v.a + r.a, v.b + r.b, v.c + r.c, v.d + r.d, v.e + r.e, v.f + r.f, v.g + r.g, v.h + r.h⟩

/-- The lowest `k` bytes of a number, the highest first. -/
def beBytes (k n : Nat) : List UInt8 := (leBytes k n).reverse

/-- A bit that is one, and zeros up to 8 bytes before the end of a block. -/
def padding (n : Nat) : List UInt8 := 0x80 :: List.replicate ((119 - n % 64) % 64) 0

/-- A message and its padding. -/
def pad (m : List UInt8) : List UInt8 := m ++ padding m.length ++ beBytes 8 (8 * m.length)

theorem length_padding (n : Nat) : (padding n).length = (119 - n % 64) % 64 + 1 := by
  rw [padding, List.length_cons, List.length_replicate]

theorem length_pad (m : List UInt8) :
    (pad m).length = m.length + (119 - m.length % 64) % 64 + 9 := by
  rw [pad, List.length_append, List.length_append, length_padding, beBytes,
    List.length_reverse, Lib.length_leBytes]
  omega

/-- The digest of a message. -/
def digest (m : List UInt8) : List UInt8 :=
  let v := Lib.absorb compress 64 initial (pad m)
  [v.a, v.b, v.c, v.d, v.e, v.f, v.g, v.h].flatMap fun x => beBytes 4 x.toNat

end Fips180

end LibNax
