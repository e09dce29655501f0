import LibNax.Hash.Fips180
import LibNax.Lib.Int32
import LibNax.Naos.Convert

/-!
# SHA-256

`sha256` copies the message into a buffer of whole blocks, every word of it with its bytes in the
opposite order, so that on a little-endian machine the words are the numbers that the definition
reads.  Words are of type `int`: a shift to the right copies the sign, and a mask takes it off.

* The macros, `sha256`.
* `rotl_eq`, `sr_eq` — rotations and shifts out of arithmetic shifts.
* `Swapped` — what the buffer says about the padded message; `sha256Fill_eq` — it is the padding.
* `sha256_eq` — the digest.
-/

set_option autoImplicit false

namespace LibNax

namespace Hash

open Lib (slice overwrite leBytes leNat int32)

open Fips180 (Word Words)

/-! ## The source -/

/-- `SHA256_ROTL`. -/
def sha256Rotl (a : Word) (b : Nat) : Word :=
  (a.sshiftRight (32 - b) &&& (0x7fffffff#32).sshiftRight (31 - b)) ||| (a <<< b)

/-- `SHA256_SR`. -/
def sha256Sr (a : Word) (b : Nat) : Word := a.sshiftRight b &&& (0x7fffffff#32).sshiftRight (b - 1)

/-- `SHA256_Ch`. -/
def sha256Ch (x y z : Word) : Word := (x &&& y) ^^^ (~~~x &&& z)

/-- `SHA256_Maj`. -/
def sha256Maj (x y z : Word) : Word := (x &&& y) ^^^ (x &&& z) ^^^ (y &&& z)

/-- `SHA256_E0`. -/
def sha256E0 (x : Word) : Word := sha256Rotl x 30 ^^^ sha256Rotl x 19 ^^^ sha256Rotl x 10

/-- `SHA256_E1`. -/
def sha256E1 (x : Word) : Word := sha256Rotl x 26 ^^^ sha256Rotl x 21 ^^^ sha256Rotl x 7

/-- `SHA256_O0`. -/
def sha256O0 (x : Word) : Word := sha256Rotl x 25 ^^^ sha256Rotl x 14 ^^^ sha256Sr x 3

/-- `SHA256_O1`. -/
def sha256O1 (x : Word) : Word := sha256Rotl x 15 ^^^ sha256Rotl x 13 ^^^ sha256Sr x 10

/-- `SHA256_KEY`. -/
def sha256Key : List Word :=
  [0x428a2f98, 0x71374491, 0xb5c0fbcf, 0xe9b5dba5, 0x3956c25b, 0x59f111f1, 0x923f82a4, 0xab1c5ed5,
    0xd807aa98, 0x12835b01, 0x243185be, 0x550c7dc3, 0x72be5d74, 0x80deb1fe, 0x9bdc06a7, 0xc19bf174,
    0xe49b69c1, 0xefbe4786, 0x0fc19dc6, 0x240ca1cc, 0x2de92c6f, 0x4a7484aa, 0x5cb0a9dc, 0x76f988da,
    0x983e5152, 0xa831c66d, 0xb00327c8, 0xbf597fc7, 0xc6e00bf3, 0xd5a79147, 0x06ca6351, 0x14292967,
    0x27b70a85, 0x2e1b2138, 0x4d2c6dfc, 0x53380d13, 0x650a7354, 0x766a0abb, 0x81c2c92e, 0x92722c85,
    0xa2bfe8a1, 0xa81a664b, 0xc24b8b70, 0xc76c51a3, 0xd192e819, 0xd6990624, 0xf40e3585, 0x106aa070,
    0x19a4c116, 0x1e376c08, 0x2748774c, 0x34b0bcb5, 0x391c0cb3, 0x4ed8aa4a, 0x5b9cca4f, 0x682e6ff3,
    0x748f82ee, 0x78a5636f, 0x84c87814, 0x8cc70208, 0x90befffa, 0xa4506ceb, 0xbef9a3f7, 0xc67178f2]

/-- Where the byte `i` of the message goes. -/
def swapIndex (i : Nat) : Nat := i + 3 - 2 * (i % 4)

/-- `cursor[i] = c`: none outside of the buffer. -/
def storeByte (buffer : List UInt8) (i : Nat) (c : UInt8) : Option (List UInt8) :=
  if i < buffer.length then some (buffer.set i c) else none

/-- `*((int *)(cursor + off)) = v`. -/
def storeInt (buffer : List UInt8) (off : Nat) (v : Word) : Option (List UInt8) :=
  if off + 4 ≤ buffer.length then some (overwrite buffer off (leBytes 4 v.toNat)) else none

/-- `((int *)cursor)[i]`. -/
def loadInt (cursor : List UInt8) (i : Nat) : Word :=
  BitVec.ofNat 32 (leNat (slice cursor (4 * i) 4))

/-- A loop that stores one byte in every round, from `i` on, for the rounds left. -/
def storeRounds (byteAt : Nat → UInt8) : Nat → Nat → List UInt8 → Option (List UInt8)
  | 0, _, buffer => some buffer
  | rounds + 1, i, buffer =>
    (storeByte buffer (swapIndex i) (byteAt i)).bind (storeRounds byteAt rounds (i + 1))

/-- The part of `sha256` that fills the buffer. -/
def sha256Fill (str : List UInt8) (orilen : Nat) (buffer : List UInt8) : Option (List UInt8) := do
  let actlen := buffer.length
  let buffer ← storeRounds (str.getD · 0) orilen 0 buffer
  let buffer ← storeByte buffer (swapIndex orilen) 128
  let buffer ← storeRounds (fun _ => 0) (actlen - (orilen + 1)) (orilen + 1) buffer
  let buffer ← storeInt buffer (actlen - 4) (BitVec.ofNat 32 orilen <<< 3)
  storeInt buffer (actlen - 8) ((BitVec.ofNat 32 orilen).sshiftRight 29)

/-- The first words of `W`. -/
def sha256W (cursor : List UInt8) : Nat → List Word
  | 0 => []
  | i + 1 =>
    let w := sha256W cursor i
    w ++ [if i < 16 then loadInt cursor i
      else sha256O1 (w.getD (i - 2) 0) + w.getD (i - 7) 0 + sha256O0 (w.getD (i - 15) 0) +
        w.getD (i - 16) 0]

/-- A round over `relay`. -/
def sha256Round (w : List Word) (relay : Words) (i : Nat) : Words :=
  let t1 := relay.h + sha256E1 relay.e + sha256Ch relay.e relay.f relay.g + sha256Key.getD i 0 +
    w.getD i 0
  let t2 := sha256E0 relay.a + sha256Maj relay.a relay.b relay.c
  ⟨t1 + t2, relay.a, relay.b, relay.c, relay.d + t1, relay.e, relay.f, relay.g⟩

/-- A round of the loop over the blocks. -/
def sha256Block (hash : Words) (cursor : List UInt8) : Words :=
  let relay := (List.range 64).foldl (sha256Round (sha256W cursor 64)) hash
  ⟨hash.a + relay.a, hash.b + relay.b, hash.c + relay.c, hash.d + relay.d, hash.e + relay.e,
    hash.f + relay.f, hash.g + relay.g, hash.h + relay.h⟩

/-- The loop over the blocks, from a cursor on.  It has a bound on the rounds; where it is not over
by then, there is no result. -/
def sha256Blocks (buffer : List UInt8) : Nat → Nat → Words → Option Words
  | 0, _, _ => none
  | rounds + 1, cursor, hash =>
    if cursor < buffer.length then
      sha256Blocks buffer rounds (cursor + 64) (sha256Block hash (slice buffer cursor 64))
    else some hash

/-- The initial values of `hash`. -/
def sha256Hash : Words :=
  ⟨0x6a09e667, 0xbb67ae85, 0x3c6ef372, 0xa54ff53a, 0x510e527f, 0x9b05688c, 0x1f83d9ab, 0x5be0cd19⟩

/-- `actlen`. -/
def sha256Actlen (orilen : Int) : Int :=
  int32 (orilen + if orilen % 64 ≥ 56 then 128 - orilen % 64 else 64 - orilen % 64)

/-- `sha256`: the bytes of the result, `some none` for the null pointer, and none where a store
leaves the buffer. -/
def sha256 (ztrymalloc : Int → Option (List UInt8)) (str : List UInt8) (orilen : Int) :
    Option (Option (List UInt8)) :=
  if orilen ≤ 0 then some none
  else
    match ztrymalloc (sha256Actlen orilen) with
    | none => some none
    | some buffer => do
      let buffer ← sha256Fill str orilen.toNat buffer
      let hash ← sha256Blocks buffer (buffer.length / 64 + 1) 0 sha256Hash
      let ir := [hash.a, hash.b, hash.c, hash.d, hash.e, hash.f, hash.g, hash.h]
      some (some (ir.flatMap fun v => leBytes 4 (Naos.naosChord32 ⟨v⟩).toNat))

/-! ## The macros -/

/-- The mask takes off the copies of the sign. -/
theorem sshiftRight_mask (a : Word) {s : Nat} (hs : 0 < s) :
    a.sshiftRight s &&& (0x7fffffff#32).sshiftRight (s - 1) = a >>> s := by
  have hmask : ∀ k < 32, (0x7fffffff#32).getLsbD k = decide (k < 31) := by decide
  apply BitVec.eq_of_getLsbD_eq
  intro i hi
  rw [BitVec.getLsbD_and, BitVec.getLsbD_sshiftRight, BitVec.getLsbD_sshiftRight,
    BitVec.getLsbD_ushiftRight]
  by_cases hlow : s + i < 32
  · have hin : decide (32 ≤ i) = false := decide_eq_false (Nat.not_le_of_lt hi)
    have hkeep : decide (s - 1 + i < 31) = true := decide_eq_true (by omega)
    rw [if_pos hlow, if_pos (by omega), hmask _ (by omega), hin, hkeep, Bool.not_false,
      Bool.true_and, Bool.and_true, Bool.and_true]
  · have hhigh : (if s - 1 + i < 32 then (0x7fffffff#32).getLsbD (s - 1 + i)
        else (0x7fffffff#32).msb) = false := by
      split
      · rename_i hlt
        rw [hmask _ hlt, decide_eq_false_iff_not]
        omega
      · rfl
    rw [hhigh, Bool.and_false, Bool.and_false, BitVec.getLsbD_of_ge _ _ (by omega)]

theorem sr_eq (a : Word) {b : Nat} (hb : 0 < b) : sha256Sr a b = a >>> b := sshiftRight_mask a hb

theorem rotl_eq (a : Word) {b : Nat} (hb : 0 < b) (hb' : b < 32) :
    sha256Rotl a b = a.rotateRight (32 - b) := by
  have hmask := sshiftRight_mask a (s := 32 - b) (by omega)
  have hshift : 32 - b - 1 = 31 - b := by omega
  have hback : 32 - (32 - b) = b := by omega
  rw [hshift] at hmask
  rw [sha256Rotl, hmask, BitVec.rotateRight_def, Nat.mod_eq_of_lt (by omega), hback]

theorem sha256Round_eq : sha256Round = Fips180.step := by
  have hkey : sha256Key = Fips180.constants := rfl
  funext w v t
  rw [sha256Round, Fips180.step, hkey]
  simp only [sha256E0, sha256E1, rotl_eq, Nat.reduceLT, Nat.reduceSub]
  rfl

theorem sha256O0_eq (x : Word) : sha256O0 x = Fips180.sigma0 x := by
  rw [sha256O0, rotl_eq x (by decide) (by decide), rotl_eq x (by decide) (by decide),
    sr_eq x (by decide)]
  rfl

theorem sha256O1_eq (x : Word) : sha256O1 x = Fips180.sigma1 x := by
  rw [sha256O1, rotl_eq x (by decide) (by decide), rotl_eq x (by decide) (by decide),
    sr_eq x (by decide)]
  rfl

/-! ## A block -/

/-- The words of the schedule are those that the first sixteen lead to. -/
theorem sha256W_eq {cursor block : List UInt8}
    (hload : ∀ i < 16, loadInt cursor i = Fips180.word (slice block (4 * i) 4)) (t : Nat) :
    sha256W cursor t = Fips180.schedule block t := by
  induction t with
  | zero => rfl
  | succ t ih =>
    rw [sha256W, Fips180.schedule, ih]
    simp only [sha256O0_eq, sha256O1_eq]
    split
    · rename_i ht
      rw [hload t ht]
    · rfl

theorem sha256Block_eq {cursor block : List UInt8}
    (hload : ∀ i < 16, loadInt cursor i = Fips180.word (slice block (4 * i) 4)) (hash : Words) :
    sha256Block hash cursor = Fips180.compress hash block := by
  rw [sha256Block, Fips180.compress, sha256W_eq hload, sha256Round_eq]

/-! ## The buffer -/

/-- The first `n` bytes of `p` are in the buffer, the bytes of a word in the opposite order. -/
structure Swapped (buffer p : List UInt8) (n : Nat) : Prop where
  length : buffer.length = p.length
  words : 4 ∣ p.length
  get : ∀ i < n, buffer[swapIndex i]? = p[i]?

theorem swapIndex_eq (i : Nat) : swapIndex i = 4 * (i / 4) + (3 - i % 4) := by
  rw [swapIndex]
  omega

theorem swapIndex_inj {i j : Nat} (h : swapIndex i = swapIndex j) : i = j := by
  rw [swapIndex_eq, swapIndex_eq] at h
  omega

theorem swapIndex_lt {i n : Nat} (hn : 4 ∣ n) (hi : i < n) : swapIndex i < n := by
  obtain ⟨m, rfl⟩ := hn
  rw [swapIndex_eq]
  omega

namespace Swapped

variable {buffer p : List UInt8} {n : Nat}

/-- A byte goes to its place. -/
theorem storeByte (h : Swapped buffer p n) {c : UInt8} (hc : p[n]? = some c) :
    ∃ buffer', Hash.storeByte buffer (swapIndex n) c = some buffer' ∧
      Swapped buffer' p (n + 1) := by
  have hn : n < p.length := (List.getElem?_eq_some_iff.mp hc).1
  have hlt : swapIndex n < buffer.length := h.length ▸ swapIndex_lt h.words hn
  refine ⟨_, if_pos hlt, (List.length_set ..).trans h.length, h.words, fun i hi => ?_⟩
  rcases Nat.lt_succ_iff_lt_or_eq.mp hi with hi | rfl
  · have hne : swapIndex n ≠ swapIndex i := fun heq => Nat.ne_of_gt hi (swapIndex_inj heq)
    rw [List.getElem?_set_ne hne, h.get i hi]
  · rw [List.getElem?_set_self hlt, hc]

/-- A loop over the bytes. -/
theorem storeRounds {byteAt : Nat → UInt8} (rounds : Nat) {buffer : List UInt8} {n : Nat}
    (h : Swapped buffer p n)
    (hbytes : ∀ i, n ≤ i → i < n + rounds → p[i]? = some (byteAt i)) :
    ∃ buffer', Hash.storeRounds byteAt rounds n buffer = some buffer' ∧
      Swapped buffer' p (n + rounds) := by
  induction rounds generalizing buffer n with
  | zero => exact ⟨buffer, rfl, h⟩
  | succ rounds ih =>
    obtain ⟨next, hstore, hnext⟩ := h.storeByte (hbytes n (Nat.le_refl n) (by omega))
    obtain ⟨buffer', hrest, hbuffer'⟩ := ih hnext fun i hi hi' => hbytes i (by omega) (by omega)
    refine ⟨buffer', ?_, ?_⟩
    · rw [Hash.storeRounds, hstore, Option.bind_some, hrest]
    · rwa [Nat.add_right_comm] at hbuffer'

/-- A word that is stored is its bytes, the highest first. -/
theorem storeInt (h : Swapped buffer p p.length) {off : Nat} (hoff : 4 ∣ off)
    (hle : off + 4 ≤ p.length) (v : Word) :
    ∃ buffer', Hash.storeInt buffer off v = some buffer' ∧
      Swapped buffer' (overwrite p off (Fips180.beBytes 4 v.toNat))
        (overwrite p off (Fips180.beBytes 4 v.toNat)).length := by
  obtain ⟨w, rfl⟩ := hoff
  have hbe : (Fips180.beBytes 4 v.toNat).length = 4 := rfl
  have hlen : (overwrite p (4 * w) (Fips180.beBytes 4 v.toNat)).length = p.length :=
    Lib.length_overwrite hle
  have hle' : 4 * w + (leBytes 4 v.toNat).length ≤ buffer.length := h.length ▸ hle
  refine ⟨_, if_pos hle', (Lib.length_overwrite hle').trans (h.length.trans hlen.symm),
    hlen ▸ h.words, fun i hi => ?_⟩
  have hplace := swapIndex_eq i
  rw [hlen] at hi
  rw [Lib.getElem?_overwrite hle', Lib.getElem?_overwrite hle, hbe, Lib.length_leBytes, h.get i hi]
  by_cases hbelow : i < 4 * w
  · rw [if_pos hbelow, if_pos (by omega)]
  rw [if_neg hbelow, if_neg (by omega)]
  by_cases hin : i < 4 * w + 4
  · have hrev : 4 - 1 - (i - 4 * w) = swapIndex i - 4 * w := by omega
    rw [if_pos hin, if_pos (by omega), Fips180.beBytes,
      List.getElem?_reverse (by rw [Lib.length_leBytes]; omega), Lib.length_leBytes, hrev]
  · rw [if_neg hin, if_neg (by omega)]

/-- The last two words of a buffer are stored. -/
theorem storeInts {x : List UInt8} (hx : 4 ∣ x.length)
    (h : Swapped buffer (x ++ List.replicate 4 0 ++ List.replicate 4 0) (x.length + 4 + 4))
    (low high : Word) :
    ∃ lower buffer', Hash.storeInt buffer (x.length + 4) low = some lower ∧
      Hash.storeInt lower x.length high = some buffer' ∧
        Swapped buffer' (x ++ (Fips180.beBytes 4 high.toNat ++ Fips180.beBytes 4 low.toNat))
          (x.length + 4 + 4) := by
  have hlow : overwrite (x ++ List.replicate 4 0 ++ List.replicate 4 0) (x.length + 4)
      (Fips180.beBytes 4 low.toNat) = x ++ List.replicate 4 0 ++ Fips180.beBytes 4 low.toNat :=
    Lib.overwrite_last _ (by rw [List.length_append, List.length_replicate]) rfl
  have hhigh : overwrite (x ++ List.replicate 4 0 ++ Fips180.beBytes 4 low.toNat) x.length
      (Fips180.beBytes 4 high.toNat) =
        x ++ Fips180.beBytes 4 high.toNat ++ Fips180.beBytes 4 low.toNat :=
    Lib.overwrite_middle x _ rfl rfl
  have hlen : ∀ y z : List UInt8, y.length = 4 → z.length = 4 →
      (x ++ y ++ z).length = x.length + 4 + 4 := fun y z hy hz => by
    rw [List.length_append, List.length_append, hy, hz]
  have hfull := hlen (List.replicate 4 0) (List.replicate 4 0) rfl rfl
  rw [← hfull] at h
  obtain ⟨lower, hlower, hl⟩ := h.storeInt (show 4 ∣ x.length + 4 by omega) (by omega) low
  rw [hlow] at hl
  have hfull' := hlen (List.replicate 4 0) (Fips180.beBytes 4 low.toNat) rfl rfl
  obtain ⟨buffer', hbuffer', hb⟩ := hl.storeInt hx (by omega) high
  rw [hhigh, hlen _ _ rfl rfl, List.append_assoc] at hb
  exact ⟨lower, buffer', hlower, hbuffer', hb⟩

theorem slice_eq (h : Swapped buffer p p.length) {off : Nat} (hoff : 4 ∣ off)
    (hle : off + 4 ≤ p.length) : slice buffer off 4 = (slice p off 4).reverse := by
  obtain ⟨w, rfl⟩ := hoff
  have hlen : (slice p (4 * w) 4).length = 4 := Lib.length_slice hle
  apply List.ext_getElem?
  intro r
  by_cases hr : r < 4
  · have hplace := swapIndex_eq (4 * w + (3 - r))
    have hindex : swapIndex (4 * w + (3 - r)) = 4 * w + r := by omega
    have hrev : 4 - 1 - r = 3 - r := by omega
    rw [List.getElem?_reverse (by omega), hlen, hrev, slice, List.getElem?_take_of_lt hr,
      List.getElem?_drop, slice, List.getElem?_take_of_lt (by omega), List.getElem?_drop,
      ← hindex, h.get _ (by omega)]
  · rw [List.getElem?_eq_none (by rw [Lib.length_slice (h.length ▸ hle)]; omega),
      List.getElem?_eq_none (by rw [List.length_reverse]; omega)]

/-- A word is read as the definition reads it. -/
theorem loadInt (h : Swapped buffer p p.length) {cursor i : Nat} (hcursor : 4 ∣ cursor)
    (hle : cursor + 4 * i + 4 ≤ p.length) {k : Nat} (hk : 4 * i + 4 ≤ k) :
    Hash.loadInt (slice buffer cursor k) i = Fips180.word (slice (slice p cursor k) (4 * i) 4) := by
  have hoff : 4 ∣ cursor + 4 * i := Nat.dvd_add hcursor (Nat.dvd_mul_right 4 i)
  rw [Hash.loadInt, Fips180.word, Lib.slice_slice hk, Lib.slice_slice hk, h.slice_eq hoff hle]

end Swapped

/-- **The loop over the blocks** takes in the message that the buffer is. -/
theorem sha256Blocks_eq {buffer p : List UInt8} (h : Swapped buffer p p.length)
    (hwhole : 64 ∣ p.length) (rounds : Nat) : ∀ (c : Nat) (hash : Words), 64 * c ≤ p.length →
      (p.length - 64 * c) / 64 < rounds →
        sha256Blocks buffer rounds (64 * c) hash =
          some (Lib.absorb Fips180.compress 64 hash (p.drop (64 * c))) := by
  obtain ⟨total, htotal⟩ := hwhole
  induction rounds with
  | zero => exact fun _ _ _ hlt => absurd hlt (Nat.not_lt_zero _)
  | succ rounds ih =>
    intro c hash hc hrounds
    rw [sha256Blocks, h.length]
    split
    · rename_i hlt
      have hblock : sha256Block hash (slice buffer (64 * c) 64) =
          Fips180.compress hash ((p.drop (64 * c)).take 64) :=
        sha256Block_eq (fun i hi => h.loadInt (by omega) (by omega) (by omega)) hash
      have hnext := ih (c + 1) (Fips180.compress hash ((p.drop (64 * c)).take 64)) (by omega)
        (by omega)
      rw [Nat.mul_succ] at hnext
      rw [hblock, hnext, Lib.absorb_step (by decide) hash (by rw [List.length_drop]; omega),
        List.drop_drop]
    · rw [Lib.absorb_of_lt hash (by rw [List.length_drop]; omega)]

/-! ## The padding -/

/-- The two words behind the message are its length in bits. -/
theorem lengthWords_eq {n : Nat} (hn : n < 2 ^ 31) :
    Fips180.beBytes 4 ((BitVec.ofNat 32 n).sshiftRight 29).toNat ++
      Fips180.beBytes 4 (BitVec.ofNat 32 n <<< 3).toNat = Fips180.beBytes 8 (8 * n) := by
  have hword : (BitVec.ofNat 32 n).toNat = n := by
    rw [BitVec.toNat_ofNat, Nat.mod_eq_of_lt (by omega)]
  have hlow : (BitVec.ofNat 32 n <<< 3).toNat = 8 * n % 2 ^ (8 * 4) := by
    rw [BitVec.toNat_shiftLeft, hword, Nat.shiftLeft_eq, Nat.mul_comm]
  have hmsb : (BitVec.ofNat 32 n).msb = false := by
    rw [BitVec.msb_eq_false_iff_two_mul_lt, hword]
    omega
  have hhigh : ((BitVec.ofNat 32 n).sshiftRight 29).toNat = 8 * n / 2 ^ (8 * 4) := by
    rw [BitVec.sshiftRight_eq_of_msb_false hmsb, BitVec.toNat_ushiftRight, hword,
      Nat.shiftRight_eq_div_pow]
    omega
  rw [hlow, hhigh, Fips180.beBytes, Fips180.beBytes, Fips180.beBytes, Lib.leBytes_mod,
    ← List.reverse_append, ← Lib.leBytes_add]

/-- The message, a bit that is one, and zeros: the buffer before its last two words are stored. -/
def unfinished (str : List UInt8) (zeros : Nat) : List UInt8 :=
    str ++ 0x80 :: List.replicate zeros 0

theorem length_unfinished (str : List UInt8) (zeros : Nat) :
    (unfinished str zeros).length = str.length + 1 + zeros := by
  rw [unfinished, List.length_append, List.length_cons, List.length_replicate]
  omega

/-- The bytes are stored one by one. -/
theorem storeRounds_unfinished {str buffer : List UInt8} {zeros : Nat}
    (hwords : 4 ∣ (unfinished str zeros).length)
    (hbuffer : buffer.length = (unfinished str zeros).length) :
    ∃ copied marked filled,
      storeRounds (str.getD · 0) str.length 0 buffer = some copied ∧
        storeByte copied (swapIndex str.length) 128 = some marked ∧
        storeRounds (fun _ => 0) zeros (str.length + 1) marked = some filled ∧
        Swapped filled (unfinished str zeros) (unfinished str zeros).length := by
  have hstart : Swapped buffer (unfinished str zeros) 0 :=
    ⟨hbuffer, hwords, fun i hi => absurd hi (Nat.not_lt_zero i)⟩
  obtain ⟨copied, hcopied, hc⟩ : ∃ copied,
      storeRounds (str.getD · 0) str.length 0 buffer = some copied ∧
        Swapped copied (unfinished str zeros) (0 + str.length) := by
    refine hstart.storeRounds str.length fun i _ hi => ?_
    have hlt : i < str.length := by omega
    rw [unfinished, List.getElem?_append_left hlt, List.getD_eq_getElem _ _ hlt,
      List.getElem?_eq_getElem hlt]
  rw [Nat.zero_add] at hc
  obtain ⟨marked, hmarked, hm⟩ := hc.storeByte (c := 128) (by
    rw [unfinished, List.getElem?_append_right (Nat.le_refl _), Nat.sub_self]
    rfl)
  obtain ⟨filled, hfilled, hf⟩ : ∃ filled,
      storeRounds (fun _ => 0) zeros (str.length + 1) marked = some filled ∧
        Swapped filled (unfinished str zeros) (str.length + 1 + zeros) := by
    refine hm.storeRounds zeros fun i hi hi' => ?_
    have hbehind : i - str.length = i - (str.length + 1) + 1 := by omega
    rw [unfinished, List.getElem?_append_right (by omega), hbehind, List.getElem?_cons_succ,
      List.getElem?_replicate, if_pos (by omega)]
  rw [← length_unfinished] at hf
  exact ⟨copied, marked, filled, hcopied, hmarked, hfilled, hf⟩

/-- **The buffer is filled with the message and its padding**, and no store leaves it. -/
theorem sha256Fill_eq {str buffer : List UInt8} (hlen : str.length < 2 ^ 31)
    (hbuffer : buffer.length = (Fips180.pad str).length) :
    ∃ buffer', sha256Fill str str.length buffer = some buffer' ∧
      Swapped buffer' (Fips180.pad str) (Fips180.pad str).length := by
  have hpad := Fips180.length_pad str
  have hzeros : buffer.length - (str.length + 1) = (119 - str.length % 64) % 64 + 4 + 4 := by
    omega
  have hfront : (str ++ Fips180.padding str.length).length + 8 = buffer.length := by
    rw [List.length_append, Fips180.length_padding]
    omega
  have hshape : unfinished str ((119 - str.length % 64) % 64 + 4 + 4) =
      str ++ Fips180.padding str.length ++ List.replicate 4 0 ++ List.replicate 4 0 := by
    rw [unfinished, Fips180.padding, List.append_assoc, List.append_assoc, List.cons_append,
      ← List.append_assoc (List.replicate _ _), List.replicate_append_replicate,
      List.replicate_append_replicate]
  have hwords : (unfinished str ((119 - str.length % 64) % 64 + 4 + 4)).length = buffer.length := by
    rw [length_unfinished]
    omega
  obtain ⟨copied, marked, filled, hcopied, hmarked, hfilled, hf⟩ :=
    storeRounds_unfinished (by omega) hwords.symm
  rw [hshape, List.length_append, List.length_append, List.length_replicate] at hf
  obtain ⟨lower, buffer', hlower, hbuffer', hb⟩ := hf.storeInts (by omega)
    (BitVec.ofNat 32 str.length <<< 3) ((BitVec.ofNat 32 str.length).sshiftRight 29)
  have hfourth : buffer.length - 4 = (str ++ Fips180.padding str.length).length + 4 := by omega
  have height : buffer.length - 8 = (str ++ Fips180.padding str.length).length := by omega
  have hend : (str ++ Fips180.padding str.length).length + 4 + 4 = (Fips180.pad str).length := by
    omega
  rw [lengthWords_eq hlen, hend] at hb
  refine ⟨buffer', ?_, ?_⟩
  · rw [sha256Fill, hzeros, hfourth, height]
    simp only [hcopied, hmarked, hfilled, hlower, hbuffer', Option.bind_eq_bind, Option.bind_some]
  · exact hb

/-! ## The digest -/

theorem sha256Actlen_eq {str : List UInt8} (hle : str.length ≤ 2 ^ 31 - 1 - 128) :
    sha256Actlen str.length = ((Fips180.pad str).length : Int) := by
  have hpad := Fips180.length_pad str
  have hsum : (str.length : Int) +
      (if (str.length : Int) % 64 ≥ 56 then 128 - (str.length : Int) % 64
        else 64 - (str.length : Int) % 64) = ((Fips180.pad str).length : Int) := by
    split
    · omega
    · omega
  rw [sha256Actlen, hsum]
  exact Lib.int32_of_inInt32 ⟨by omega, by omega⟩

/-- A word of the result is stored with its highest byte first. -/
theorem leBytes_naosChord32 (v : Word) :
    leBytes 4 (Naos.naosChord32 ⟨v⟩).toNat = Fips180.beBytes 4 v.toNat := by
  rw [Naos.toNat_naosChord32, Lib.leBytes_byteSwap, Fips180.beBytes]
  rfl

/-- **`sha256` is SHA-256**, for every message of 1 to `INT_MAX - 128` bytes, whatever is in the
memory that it is given; and it stores inside of that memory only. -/
theorem sha256_eq {ztrymalloc : Int → Option (List UInt8)}
    (hmalloc : ∀ size : Nat, ∃ buffer, ztrymalloc size = some buffer ∧ buffer.length = size)
    {str : List UInt8} (hpos : 1 ≤ str.length) (hle : str.length ≤ 2 ^ 31 - 1 - 128) :
    sha256 ztrymalloc str str.length = some (some (Fips180.digest str)) := by
  have hpad := Fips180.length_pad str
  obtain ⟨buffer, hbuffer, hlen⟩ := hmalloc (Fips180.pad str).length
  have hint : str.length < 2 ^ 31 := by omega
  obtain ⟨filled, hfilled, hf⟩ := sha256Fill_eq hint hlen
  have hwhole : 64 ∣ (Fips180.pad str).length := by omega
  have hblocks := sha256Blocks_eq hf hwhole (filled.length / 64 + 1) 0 sha256Hash
      (Nat.zero_le _) (by
    rw [hf.length]
    omega)
  rw [Nat.mul_zero, List.drop_zero] at hblocks
  rw [sha256, if_neg (by omega), sha256Actlen_eq hle, hbuffer]
  simp only [Int.toNat_natCast, hfilled, hblocks, Option.bind_eq_bind, Option.bind_some,
    leBytes_naosChord32]
  rfl

/-- The digest of a message of three bytes. -/
theorem sha256_eq_abc :
    sha256 (fun size => some (List.replicate size.toNat 0xCC)) [0x61, 0x62, 0x63] 3 =
      some (some [0xba, 0x78, 0x16, 0xbf, 0x8f, 0x01, 0xcf, 0xea, 0x41, 0x41, 0x40,
      0xde, 0x5d, 0xae,
        0x22, 0x23, 0xb0, 0x03, 0x61, 0xa3, 0x96, 0x17, 0x7a, 0x9c, 0xb4, 0x10, 0xff, 0x61, 0xf2,
        0x00, 0x15, 0xad]) := by
  have hdigest : Fips180.digest [0x61, 0x62, 0x63] = [0xba, 0x78, 0x16, 0xbf, 0x8f, 0x01, 0xcf,
      0xea, 0x41, 0x41, 0x40, 0xde, 0x5d, 0xae, 0x22, 0x23, 0xb0, 0x03, 0x61, 0xa3, 0x96, 0x17,
      0x7a, 0x9c, 0xb4, 0x10, 0xff, 0x61, 0xf2, 0x00, 0x15, 0xad] := by decide +kernel
  rw [← hdigest]
  refine sha256_eq (fun size => ⟨_, rfl, ?_⟩) (by decide) (by decide)
  rw [List.length_replicate, Int.toNat_natCast]

end Hash

end LibNax
