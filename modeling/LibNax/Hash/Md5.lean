import Mathlib.Data.Vector.Basic
import LibNax.Hash.Rfc1321
import LibNax.Lib.Endian

/-!
# MD5 in pieces

`md5_update` takes a message piece by piece.  It counts the bits in two words with a carry between
them, and reads from the lower one how many bytes of the last block it still holds.

* The rounds, as the source writes them out, and `md5Init`, `md5Update`, `md5Final`.
* `md5Ransform_eq` — the rounds are those of the definition.
* `Holds` — what a context says about the message so far; `md5Update_spec` — a piece is added to it.
* `md5_streaming` — the digest of any pieces is that of the message they make up.
-/

set_option autoImplicit false

namespace LibNax

namespace Hash

open Lib (slice overwrite absorb pending or_shiftLeft)

open Rfc1321 (Words)

/-! ## The functions of the source -/

/-- `FF`, `GG`, `HH` and `II`. -/
inductive Md5Macro where
  | ff
  | gg
  | hh
  | ii
  deriving DecidableEq

/-- `F`, `G`, `H` and `I`, each under the macro that uses it. -/
def Md5Macro.function : Md5Macro → UInt32 → UInt32 → UInt32 → UInt32
  | .ff, x, y, z => (x &&& y) ||| (~~~x &&& z)
  | .gg, x, y, z => (x &&& z) ||| (y &&& ~~~z)
  | .hh, x, y, z => x ^^^ y ^^^ z
  | .ii, x, y, z => y ^^^ (x ||| ~~~z)

/-- `ROTATE_LEFT`. -/
def rotateLeft (x n : UInt32) : UInt32 := (x <<< n) ||| (x >>> (32 - n))

/-- What the macros share: the new value of their first argument. -/
def md5Mix (m : Md5Macro) (a b c d x s ac : UInt32) : UInt32 :=
  let a := a + (m.function b c d + x + ac)
  let a := rotateLeft a s
  a + b

/-- The four local variables of `_md5_ransform`. -/
inductive Md5Var where
  | a
  | b
  | c
  | d
  deriving DecidableEq

/-- A line of `_md5_ransform`: the macro, its first argument, the index into `x`, the rotation and
the constant.  The arguments behind the first are the variables that follow it in turn. -/
structure Md5Line where
  call : Md5Macro
  first : Md5Var
  index : Nat
  s : UInt32
  ac : UInt32
  deriving DecidableEq

/-- A line that is executed. -/
def Md5Line.run (x : List UInt32) (w : Words) (l : Md5Line) : Words :=
  let v := x.getD l.index 0
  match l.first with
  | .a => { w with a := md5Mix l.call w.a w.b w.c w.d v l.s l.ac }
  | .b => { w with b := md5Mix l.call w.b w.c w.d w.a v l.s l.ac }
  | .c => { w with c := md5Mix l.call w.c w.d w.a w.b v l.s l.ac }
  | .d => { w with d := md5Mix l.call w.d w.a w.b w.c v l.s l.ac }

/-- `Round 1`. -/
def md5Round1 : List Md5Line :=
  [⟨.ff, .a, 0, 7, 0xd76aa478⟩, ⟨.ff, .d, 1, 12, 0xe8c7b756⟩, ⟨.ff, .c, 2, 17, 0x242070db⟩,
    ⟨.ff, .b, 3, 22, 0xc1bdceee⟩, ⟨.ff, .a, 4, 7, 0xf57c0faf⟩, ⟨.ff, .d, 5, 12, 0x4787c62a⟩,
    ⟨.ff, .c, 6, 17, 0xa8304613⟩, ⟨.ff, .b, 7, 22, 0xfd469501⟩, ⟨.ff, .a, 8, 7, 0x698098d8⟩,
    ⟨.ff, .d, 9, 12, 0x8b44f7af⟩, ⟨.ff, .c, 10, 17, 0xffff5bb1⟩, ⟨.ff, .b, 11, 22, 0x895cd7be⟩,
    ⟨.ff, .a, 12, 7, 0x6b901122⟩, ⟨.ff, .d, 13, 12, 0xfd987193⟩, ⟨.ff, .c, 14, 17, 0xa679438e⟩,
    ⟨.ff, .b, 15, 22, 0x49b40821⟩]

/-- `Round 2`. -/
def md5Round2 : List Md5Line :=
  [⟨.gg, .a, 1, 5, 0xf61e2562⟩, ⟨.gg, .d, 6, 9, 0xc040b340⟩, ⟨.gg, .c, 11, 14, 0x265e5a51⟩,
    ⟨.gg, .b, 0, 20, 0xe9b6c7aa⟩, ⟨.gg, .a, 5, 5, 0xd62f105d⟩, ⟨.gg, .d, 10, 9, 0x2441453⟩,
    ⟨.gg, .c, 15, 14, 0xd8a1e681⟩, ⟨.gg, .b, 4, 20, 0xe7d3fbc8⟩, ⟨.gg, .a, 9, 5, 0x21e1cde6⟩,
    ⟨.gg, .d, 14, 9, 0xc33707d6⟩, ⟨.gg, .c, 3, 14, 0xf4d50d87⟩, ⟨.gg, .b, 8, 20, 0x455a14ed⟩,
    ⟨.gg, .a, 13, 5, 0xa9e3e905⟩, ⟨.gg, .d, 2, 9, 0xfcefa3f8⟩, ⟨.gg, .c, 7, 14, 0x676f02d9⟩,
    ⟨.gg, .b, 12, 20, 0x8d2a4c8a⟩]

/-- `Round 3`. -/
def md5Round3 : List Md5Line :=
  [⟨.hh, .a, 5, 4, 0xfffa3942⟩, ⟨.hh, .d, 8, 11, 0x8771f681⟩, ⟨.hh, .c, 11, 16, 0x6d9d6122⟩,
    ⟨.hh, .b, 14, 23, 0xfde5380c⟩, ⟨.hh, .a, 1, 4, 0xa4beea44⟩, ⟨.hh, .d, 4, 11, 0x4bdecfa9⟩,
    ⟨.hh, .c, 7, 16, 0xf6bb4b60⟩, ⟨.hh, .b, 10, 23, 0xbebfbc70⟩, ⟨.hh, .a, 13, 4, 0x289b7ec6⟩,
    ⟨.hh, .d, 0, 11, 0xeaa127fa⟩, ⟨.hh, .c, 3, 16, 0xd4ef3085⟩, ⟨.hh, .b, 6, 23, 0x4881d05⟩,
    ⟨.hh, .a, 9, 4, 0xd9d4d039⟩, ⟨.hh, .d, 12, 11, 0xe6db99e5⟩, ⟨.hh, .c, 15, 16, 0x1fa27cf8⟩,
    ⟨.hh, .b, 2, 23, 0xc4ac5665⟩]

/-- `Round 4`. -/
def md5Round4 : List Md5Line :=
  [⟨.ii, .a, 0, 6, 0xf4292244⟩, ⟨.ii, .d, 7, 10, 0x432aff97⟩, ⟨.ii, .c, 14, 15, 0xab9423a7⟩,
    ⟨.ii, .b, 5, 21, 0xfc93a039⟩, ⟨.ii, .a, 12, 6, 0x655b59c3⟩, ⟨.ii, .d, 3, 10, 0x8f0ccc92⟩,
    ⟨.ii, .c, 10, 15, 0xffeff47d⟩, ⟨.ii, .b, 1, 21, 0x85845dd1⟩, ⟨.ii, .a, 8, 6, 0x6fa87e4f⟩,
    ⟨.ii, .d, 15, 10, 0xfe2ce6e0⟩, ⟨.ii, .c, 6, 15, 0xa3014314⟩, ⟨.ii, .b, 13, 21, 0x4e0811a1⟩,
    ⟨.ii, .a, 4, 6, 0xf7537e82⟩, ⟨.ii, .d, 11, 10, 0xbd3af235⟩, ⟨.ii, .c, 2, 15, 0x2ad7d2bb⟩,
    ⟨.ii, .b, 9, 21, 0xeb86d391⟩]

/-- `_md5_decode`. -/
def md5Decode (input : List UInt8) (len : Nat) : List UInt32 :=
  (List.range (len / 4)).map fun i =>
    (input.getD (4 * i) 0).toUInt32 ||| (input.getD (4 * i + 1) 0).toUInt32 <<< 8 |||
      (input.getD (4 * i + 2) 0).toUInt32 <<< 16 ||| (input.getD (4 * i + 3) 0).toUInt32 <<< 24

/-- `_md5_encode`. -/
def md5Encode (input : List UInt32) (len : Nat) : List UInt8 :=
  (List.range (len / 4)).flatMap fun i =>
    [(input.getD i 0 &&& 0xff).toUInt8, (input.getD i 0 >>> 8 &&& 0xff).toUInt8,
      (input.getD i 0 >>> 16 &&& 0xff).toUInt8, (input.getD i 0 >>> 24 &&& 0xff).toUInt8]

/-- `_md5_ransform`. -/
def md5Ransform (state : Words) (block : List UInt8) : Words :=
  let x := md5Decode block 64
  let v := (md5Round1 ++ md5Round2 ++ md5Round3 ++ md5Round4).foldl (Md5Line.run x) state
  ⟨state.a + v.a, state.b + v.b, state.c + v.c, state.d + v.d⟩

/-- `_md5_memcpy` of `len` bytes at `input[i]` to `output[index]`. -/
def md5Memcpy (output : List UInt8) (index : Nat) (input : List UInt8) (i len : Nat) : List UInt8 :=
  (List.range len).foldl (fun output j => output.set (index + j) (input.getD (i + j) 0)) output

theorem length_md5Memcpy (output : List UInt8) (index : Nat) (input : List UInt8) (i len : Nat) :
    (md5Memcpy output index input i len).length = output.length := by
  rw [md5Memcpy]
  induction len with
  | zero => rfl
  | succ len ih => rw [List.range_succ, List.foldl_append, List.foldl_cons, List.foldl_nil,
      List.length_set, ih]

/-- `struct __md5ctx`. -/
structure Md5Ctx where
  state : Words
  count0 : UInt32
  count1 : UInt32
  buffer : List UInt8
  padding : List UInt8
  length_buffer : buffer.length = 64
  length_padding : padding.length = 64

/-- A context that was set to zero. -/
def Md5Ctx.zero : Md5Ctx where
  state := ⟨0, 0, 0, 0⟩
  count0 := 0
  count1 := 0
  buffer := List.replicate 64 0
  padding := List.replicate 64 0
  length_buffer := List.length_replicate
  length_padding := List.length_replicate

/-- The `index` of `md5_update` and `md5_final`: how many bytes the buffer holds. -/
def Md5Ctx.index (ctx : Md5Ctx) : UInt32 := (ctx.count0 >>> 3) &&& 0x3F

/-- `md5_init`. -/
def md5Init (ctx : Md5Ctx) : Md5Ctx :=
  { ctx with
    count0 := 0
    count1 := 0
    state := ⟨0x67452301, 0xefcdab89, 0x98badcfe, 0x10325476⟩
    padding := (List.replicate 64 0).set 0 0x80
    length_padding := by rw [List.length_set, List.length_replicate] }

/-- The loop of `md5_update` over the whole blocks of the input.  Its variable takes no more than
`2 ^ 26` values; where the loop is not over after so many rounds, it never is. -/
def md5Loop (input : List UInt8) (inputLen : UInt32) :
    Nat → Words → UInt32 → Option (Words × UInt32)
  | 0, _, _ => none
  | rounds + 1, state, i =>
    if i + 63 < inputLen then
      md5Loop input inputLen rounds (md5Ransform state (slice input i.toNat 64)) (i + 64)
    else some (state, i)

/-- `md5_update`: none where it does not return. -/
def md5Update (ctx : Md5Ctx) (input : List UInt8) (inputLen : UInt32) : Option Md5Ctx :=
  let index := ctx.index
  let count0 := ctx.count0 + (inputLen <<< 3)
  let count1 := if count0 < inputLen <<< 3 then ctx.count1 + 1 else ctx.count1
  let count1 := count1 + (inputLen >>> 29)
  let partLen := 64 - index
  if inputLen ≥ partLen then
    let buffer := md5Memcpy ctx.buffer index.toNat input 0 partLen.toNat
    let state := md5Ransform ctx.state buffer
    match md5Loop input inputLen (2 ^ 26) state partLen with
    | none => none
    | some (state, i) =>
      some { ctx with
        state, count0, count1
        buffer := md5Memcpy buffer 0 input i.toNat (inputLen - i).toNat
        length_buffer := by rw [length_md5Memcpy, length_md5Memcpy, ctx.length_buffer] }
  else
    some { ctx with
      count0, count1
      buffer := md5Memcpy ctx.buffer index.toNat input 0 inputLen.toNat
      length_buffer := by rw [length_md5Memcpy, ctx.length_buffer] }

/-- `md5_final`: the context, and the digest. -/
def md5Final (ctx : Md5Ctx) (digest : Option (List.Vector UInt8 16)) :
    Option (Md5Ctx × Option (List.Vector UInt8 16)) :=
  match digest with
  | none => some (ctx, none)
  | some _ => do
    let bits := md5Encode [ctx.count0, ctx.count1] 8
    let index := ctx.index
    let padLen := if index < 56 then 56 - index else 120 - index
    let ctx ← md5Update ctx ctx.padding padLen
    let ctx ← md5Update ctx bits 8
    let ust := md5Encode [ctx.state.a, ctx.state.b, ctx.state.c, ctx.state.d] 16
    some (md5Init Md5Ctx.zero, some ⟨ust, rfl⟩)

/-! ## The rounds -/

theorem rotateLeft_eq (x : UInt32) {s : Nat} (hpos : 0 < s) (hlt : s < 32) :
    rotateLeft x (UInt32.ofNat s) = Rfc1321.rotate x s := by
  have hs : (UInt32.ofNat s).toNat = s := by
    rw [UInt32.toNat_ofNat', Nat.mod_eq_of_lt (by omega)]
  have hrest : (32 - UInt32.ofNat s).toNat = 32 - s := by
    have hle : UInt32.ofNat s ≤ 32 := by
      rw [UInt32.le_iff_toNat_le, hs]
      exact Nat.le_of_lt hlt
    rw [UInt32.toNat_sub_of_le _ _ hle, hs]
    rfl
  apply UInt32.toNat_inj.mp
  show _ = (x.toBitVec.rotateLeft s).toNat
  rw [rotateLeft, UInt32.toNat_or, UInt32.toNat_shiftLeft, UInt32.toNat_shiftRight, hs, hrest,
    BitVec.rotateLeft_def, BitVec.toNat_or, BitVec.toNat_shiftLeft, BitVec.toNat_ushiftRight,
    Nat.mod_eq_of_lt hlt, Nat.mod_eq_of_lt (by omega : 32 - s < 32)]
  rfl

/-- The macro of a step. -/
def macroAt (i : Nat) : Md5Macro :=
  if i < 16 then .ff else if i < 32 then .gg else if i < 48 then .hh else .ii

theorem function_macroAt (i : Nat) : (macroAt i).function = Rfc1321.auxiliary i := by
  funext x y z
  rw [macroAt, Rfc1321.auxiliary]
  split
  · rfl
  · split
    · rfl
    · split
      · rfl
      · rfl

/-- What a macro computes is the word that a step computes. -/
theorem md5Mix_eq {i : Nat} (hi : i < 64) (a b c d v : UInt32) :
    md5Mix (macroAt i) a b c d v (UInt32.ofNat (Rfc1321.amount i)) (Rfc1321.sineTable.getD i 0) =
      b + Rfc1321.rotate (a + Rfc1321.auxiliary i b c d + v + Rfc1321.sineTable.getD i 0)
        (Rfc1321.amount i) := by
  have hamount : ∀ i < 64, 0 < Rfc1321.amount i ∧ Rfc1321.amount i < 32 := by decide
  obtain ⟨hpos, hlt⟩ := hamount i hi
  rw [md5Mix, rotateLeft_eq _ hpos hlt, function_macroAt, UInt32.add_comm b, UInt32.add_assoc a,
    UInt32.add_assoc a]

/-- The variable that follows in the next line. -/
def Md5Var.next : Md5Var → Md5Var
  | .a => .d
  | .d => .c
  | .c => .b
  | .b => .a

/-- The variables in the order of the arguments of a line. -/
def Md5Var.arguments (w : Words) : Md5Var → Words
  | .a => ⟨w.a, w.b, w.c, w.d⟩
  | .d => ⟨w.d, w.a, w.b, w.c⟩
  | .c => ⟨w.c, w.d, w.a, w.b⟩
  | .b => ⟨w.b, w.c, w.d, w.a⟩

/-- The first argument of a line. -/
def firstAt : Nat → Md5Var
  | 0 => .a
  | i + 1 => (firstAt i).next

/-- The line of a step. -/
def lineAt (i : Nat) : Md5Line :=
  ⟨macroAt i, firstAt i, Rfc1321.wordIndex i, UInt32.ofNat (Rfc1321.amount i),
    Rfc1321.sineTable.getD i 0⟩

theorem md5Rounds_eq :
    md5Round1 ++ md5Round2 ++ md5Round3 ++ md5Round4 = (List.range 64).map lineAt := by
  decide

/-- A line is a step, on the variables in the order of its arguments. -/
theorem step_arguments (x : List UInt32) (w : Words) {i : Nat} (hi : i < 64) :
    Rfc1321.step x ((firstAt i).arguments w) i = (firstAt i).next.arguments
    ((lineAt i).run x w) := by
  rw [Rfc1321.step, ← md5Mix_eq hi, Md5Line.run]
  simp only [lineAt]
  cases firstAt i with
  | a => rfl
  | b => rfl
  | c => rfl
  | d => rfl

theorem foldl_step (x : List UInt32) (w : Words) : ∀ n ≤ 64,
    (List.range n).foldl (Rfc1321.step x) w =
      (firstAt n).arguments (((List.range n).map lineAt).foldl (Md5Line.run x) w)
  | 0, _ => rfl
  | n + 1, hn => by
    rw [List.range_succ, List.foldl_append, foldl_step x w n (by omega), List.map_append,
      List.foldl_append]
    exact step_arguments x _ hn

/-- Four bytes that are put together by shifts. -/
theorem decode_word (a b c d : UInt8) :
    a.toUInt32 ||| b.toUInt32 <<< 8 ||| c.toUInt32 <<< 16 ||| d.toUInt32 <<< 24 =
      Rfc1321.word [a, b, c, d] := by
  have ha := a.toNat_lt
  have hb := b.toNat_lt
  have hc := c.toNat_lt
  have hd := d.toNat_lt
  have hshift : ∀ (x : UInt8) (k : Nat), k ≤ 24 →
      x.toNat <<< k % 2 ^ 32 = x.toNat <<< k := by
    intro x k hk
    have hx := x.toNat_lt
    refine Nat.mod_eq_of_lt ?_
    calc x.toNat <<< k = x.toNat * 2 ^ k := Nat.shiftLeft_eq _ _
      _ ≤ x.toNat * 2 ^ 24 := Nat.mul_le_mul_left _ (Nat.pow_le_pow_right (by decide) hk)
      _ < 2 ^ 32 := by omega
  apply UInt32.toNat_inj.mp
  simp only [UInt32.toNat_or, UInt32.toNat_shiftLeft, UInt8.toNat_toUInt32]
  show a.toNat ||| b.toNat <<< 8 % 2 ^ 32 ||| c.toNat <<< 16 % 2 ^ 32 ||| d.toNat <<< 24 % 2 ^ 32 =
    (UInt32.ofNat (a.toNat + b.toNat * 2 ^ 8 + c.toNat * 2 ^ 16 + d.toNat * 2 ^ 24)).toNat
  rw [hshift b 8 (by decide), hshift c 16 (by decide), hshift d 24 (by decide),
    or_shiftLeft _ _ (k := 8) (by omega), or_shiftLeft _ _ (k := 16) (by omega),
    or_shiftLeft _ _ (k := 24) (by omega), UInt32.toNat_ofNat', Nat.mod_eq_of_lt (by omega)]

theorem word_slice (block : List UInt8) (off : Nat) :
    Rfc1321.word (slice block off 4) = Rfc1321.word [block.getD off 0, block.getD (off + 1) 0,
      block.getD (off + 2) 0, block.getD (off + 3) 0] := by
  have hget : ∀ j < 4, (slice block off 4).getD j 0 = block.getD (off + j) 0 := by
    intro j hj
    rw [List.getD_eq_getElem?_getD, slice, List.getElem?_take_of_lt hj, List.getElem?_drop,
      ← List.getD_eq_getElem?_getD]
  rw [Rfc1321.word, hget 0 (by decide), hget 1 (by decide), hget 2 (by decide), hget 3 (by decide)]
  rfl

theorem md5Decode_eq (block : List UInt8) :
    md5Decode block 64 = (List.range 16).map fun i => Rfc1321.word (slice block (4 * i) 4) := by
  refine List.map_congr_left fun i _ => ?_
  rw [decode_word, word_slice]

/-- **The rounds that the source writes out are those of the definition.** -/
theorem md5Ransform_eq (state : Words) (block : List UInt8) :
    md5Ransform state block = Rfc1321.compress state block := by
  have hfirst : ∀ w : Words, (firstAt 64).arguments w = w := fun _ => rfl
  rw [md5Ransform, Rfc1321.compress, md5Rounds_eq, md5Decode_eq]
  simp only [foldl_step _ _ 64 (Nat.le_refl 64), hfirst]

/-! ## A piece of the message -/

theorem slice_succ {input : List UInt8} {i len : Nat} (h : i + (len + 1) ≤ input.length) :
    slice input i (len + 1) = slice input i len ++ [input.getD (i + len) 0] := by
  have hlt : len < (input.drop i).length := by
    rw [List.length_drop]
    omega
  have hget : (input.drop i)[len] = input.getD (i + len) 0 := by
    rw [List.getElem_drop, List.getD_eq_getElem?_getD, List.getElem?_eq_getElem, Option.getD_some]
  rw [slice, slice, ← List.take_concat_get' _ _ hlt, hget]

theorem md5Memcpy_eq {output input : List UInt8} {index i : Nat} : ∀ len : Nat,
    index + len ≤ output.length → i + len ≤ input.length →
      md5Memcpy output index input i len = overwrite output index (slice input i len)
  | 0, _, _ => by simp [md5Memcpy, slice, overwrite]
  | len + 1, hout, hin => by
    have hlen : (slice input i len).length = len := Lib.length_slice (by omega)
    have hsize : (overwrite output index (slice input i len)).length = output.length :=
      Lib.length_overwrite (by omega)
    have hstep : md5Memcpy output index input i (len + 1) =
        (md5Memcpy output index input i len).set (index + len) (input.getD (i + len) 0) := by
      rw [md5Memcpy, List.range_succ, List.foldl_append, List.foldl_cons, List.foldl_nil, md5Memcpy]
    have hnext : overwrite (overwrite output index (slice input i len))
        (index + (slice input i len).length) [input.getD (i + len) 0] =
          overwrite output index (slice input i len ++ [input.getD (i + len) 0]) :=
      Lib.overwrite_overwrite (by omega) _
    rw [hlen] at hnext
    rw [hstep, md5Memcpy_eq len (by omega) (by omega), Lib.set_eq_overwrite (by omega), hnext,
      ← slice_succ hin]

/-- The bytes in front of the copy, and the copy. -/
theorem take_md5Memcpy {output input : List UInt8} {index i len : Nat}
    (hout : index + len ≤ output.length) (hin : i + len ≤ input.length) :
    (md5Memcpy output index input i len).take (index + len) =
      output.take index ++ slice input i len := by
  have htake : (overwrite output index (slice input i len)).take
      (index + (slice input i len).length) = output.take index ++ slice input i len :=
    Lib.take_overwrite _ (by omega)
  rw [Lib.length_slice hin] at htake
  rw [md5Memcpy_eq len hout hin, htake]

/-- What a context says about the message so far. -/
structure Holds (ctx : Md5Ctx) (m : List UInt8) : Prop where
  count : ctx.count0.toNat + 2 ^ 32 * ctx.count1.toNat = 8 * m.length % 2 ^ 64
  state : ctx.state = absorb Rfc1321.compress 64 Rfc1321.initial m
  buffer : ctx.buffer.take (m.length % 64) = pending 64 m
  padding : ctx.padding = 0x80 :: List.replicate 63 0

theorem holds_md5Init (ctx : Md5Ctx) : Holds (md5Init ctx) [] where
  count := rfl
  state := rfl
  buffer := rfl
  padding := rfl

/-- The bytes that the buffer holds, from the lower word of the count. -/
theorem Holds.index {ctx : Md5Ctx} {m : List UInt8} (h : Holds ctx m) :
    ctx.index.toNat = m.length % 64 := by
  have hlow := ctx.count0.toNat_lt
  have hcount := h.count
  rw [Md5Ctx.index, UInt32.toNat_and, UInt32.toNat_shiftRight]
  show ctx.count0.toNat >>> 3 &&& 2 ^ 6 - 1 = m.length % 64
  rw [Nat.and_two_pow_sub_one_eq_mod, Nat.shiftRight_eq_div_pow]
  omega

/-- The carry by hand: the two words count modulo `2 ^ 64`. -/
theorem count_eq {c0 c1 : UInt32} {n k : Nat}
    (h : c0.toNat + 2 ^ 32 * c1.toNat = 8 * n % 2 ^ 64) (hk : k < 2 ^ 32) :
    (c0 + (UInt32.ofNat k <<< 3)).toNat + 2 ^ 32 *
      ((if c0 + (UInt32.ofNat k <<< 3) < UInt32.ofNat k <<< 3 then c1 + 1 else c1) +
        (UInt32.ofNat k >>> 29)).toNat = 8 * (n + k) % 2 ^ 64 := by
  have hc0 := c0.toNat_lt
  have hc1 := c1.toNat_lt
  have hk' : (UInt32.ofNat k).toNat = k := by
    rw [UInt32.toNat_ofNat', Nat.mod_eq_of_lt hk]
  have hlow : (UInt32.ofNat k <<< 3).toNat = k * 8 % 2 ^ 32 := by
    rw [UInt32.toNat_shiftLeft, hk']
    show k <<< 3 % 2 ^ 32 = k * 8 % 2 ^ 32
    rw [Nat.shiftLeft_eq]
  have hhigh : (UInt32.ofNat k >>> 29).toNat = k / 2 ^ 29 := by
    rw [UInt32.toNat_shiftRight, hk']
    show k >>> 29 = k / 2 ^ 29
    rw [Nat.shiftRight_eq_div_pow]
  have hone : (1 : UInt32).toNat = 1 := rfl
  have hsum : (c0 + (UInt32.ofNat k <<< 3)).toNat = (c0.toNat + k * 8 % 2 ^ 32) % 2 ^ 32 := by
    rw [UInt32.toNat_add, hlow]
  rw [UInt32.toNat_add (ite _ _ _), hsum, hhigh]
  by_cases hcarry : c0 + (UInt32.ofNat k <<< 3) < UInt32.ofNat k <<< 3
  · rw [if_pos hcarry, UInt32.toNat_add c1, hone]
    rw [UInt32.lt_iff_toNat_lt, hsum, hlow] at hcarry
    omega
  · rw [if_neg hcarry]
    rw [UInt32.lt_iff_toNat_lt, hsum, hlow] at hcarry
    omega

/-- The loop over the whole blocks of the first `n` bytes, from an offset on. -/
theorem md5Loop_eq {input : List UInt8} {n : Nat} (hn : n ≤ input.length)
    (hlen : n + 128 ≤ 2 ^ 32) :
    ∀ (rounds off : Nat) (state : Words), off ≤ n → (n - off) / 64 < rounds →
      md5Loop input (UInt32.ofNat n) rounds state (UInt32.ofNat off) =
        some (absorb Rfc1321.compress 64 state ((input.take n).drop off),
          UInt32.ofNat (off + 64 * ((n - off) / 64)))
  | 0, _, _, _, h => absurd h (Nat.not_lt_zero _)
  | rounds + 1, off, state, hoff, h => by
    have hi : (UInt32.ofNat off).toNat = off := by
      rw [UInt32.toNat_ofNat', Nat.mod_eq_of_lt (by omega)]
    have hcond : UInt32.ofNat off + 63 < UInt32.ofNat n ↔ off + 63 < n := by
      rw [UInt32.lt_iff_toNat_lt, UInt32.toNat_add, hi, UInt32.toNat_ofNat']
      show (off + 63) % 2 ^ 32 < n % 2 ^ 32 ↔ _
      rw [Nat.mod_eq_of_lt (by omega), Nat.mod_eq_of_lt (by omega)]
    have hrest : ((input.take n).drop off).length = n - off := by
      rw [List.length_drop, List.length_take, Nat.min_eq_left hn]
    rw [md5Loop]
    by_cases hlt : off + 63 < n
    · have hnext : UInt32.ofNat off + 64 = UInt32.ofNat (off + 64) := by
        rw [UInt32.ofNat_add]
        rfl
      have hblock : slice input off 64 = ((input.take n).drop off).take 64 := by
        rw [slice, List.drop_take, List.take_take, Nat.min_eq_left (by omega)]
      have hblocks : off + 64 + 64 * ((n - (off + 64)) / 64) = off + 64 * ((n - off) / 64) := by
        omega
      rw [if_pos (hcond.mpr hlt), hnext,
        md5Loop_eq hn hlen rounds (off + 64) _ (by omega) (by omega),
        md5Ransform_eq, hi, hblock, hblocks, ← List.drop_drop,
        ← Lib.absorb_step (by decide) state (by omega)]
    · have hnone : (n - off) / 64 = 0 := by omega
      rw [if_neg (mt hcond.mp hlt), hnone, Lib.absorb_of_lt state (by omega), Nat.mul_zero,
        Nat.add_zero]

/-- What a call leaves in the fields that both branches set in the same way. -/
structure Counted (ctx ctx' : Md5Ctx) (inputLen : UInt32) : Prop where
  count0 : ctx'.count0 = ctx.count0 + (inputLen <<< 3)
  count1 : ctx'.count1 = (if ctx.count0 + (inputLen <<< 3) < inputLen <<< 3 then ctx.count1 + 1
    else ctx.count1) + (inputLen >>> 29)
  padding : ctx'.padding = ctx.padding

theorem Counted.count {ctx ctx' : Md5Ctx} {m c : List UInt8} {n : Nat}
    (hcounted : Counted ctx ctx' (UInt32.ofNat n)) (h : Holds ctx m) (hc : c.length = n)
    (hn : n < 2 ^ 32) :
    ctx'.count0.toNat + 2 ^ 32 * ctx'.count1.toNat = 8 * (m ++ c).length % 2 ^ 64 := by
  rw [hcounted.count0, hcounted.count1, List.length_append, hc]
  exact count_eq h.count hn

/-- A piece that does not fill the block. -/
theorem md5Update_short {ctx : Md5Ctx} (input : List UInt8) {inputLen : UInt32}
    (h : ¬ inputLen ≥ 64 - ctx.index) :
    ∃ ctx', md5Update ctx input inputLen = some ctx' ∧ Counted ctx ctx' inputLen ∧
      ctx'.state = ctx.state ∧ ctx'.buffer =
        md5Memcpy ctx.buffer ctx.index.toNat input 0 inputLen.toNat := by
  rw [md5Update, if_neg h]
  exact ⟨_, rfl, ⟨rfl, rfl, rfl⟩, rfl, rfl⟩

/-- A piece that fills the block. -/
theorem md5Update_full {ctx : Md5Ctx} {input buffer : List UInt8} {inputLen i : UInt32}
    {state : Words} (h : inputLen ≥ 64 - ctx.index)
    (hbuffer : md5Memcpy ctx.buffer ctx.index.toNat input 0
      (64 - ctx.index).toNat = buffer)
    (hloop : md5Loop input inputLen (2 ^ 26) (md5Ransform ctx.state buffer)
      (64 - ctx.index) = some (state, i)) :
    ∃ ctx', md5Update ctx input inputLen = some ctx' ∧ Counted ctx ctx' inputLen ∧
      ctx'.state = state ∧
      ctx'.buffer = md5Memcpy buffer 0 input i.toNat (inputLen - i).toNat := by
  subst hbuffer
  rw [md5Update, if_pos h]
  simp only [hloop]
  exact ⟨_, rfl, ⟨rfl, rfl, rfl⟩, rfl, rfl⟩

/-- What is missing to a block. -/
theorem Holds.partLen {ctx : Md5Ctx} {m : List UInt8} (h : Holds ctx m) :
    64 - ctx.index = UInt32.ofNat (64 - m.length % 64) := by
  have hlt : m.length % 64 < 64 := Nat.mod_lt _ (by decide)
  have hle : ctx.index ≤ 64 := by
    rw [UInt32.le_iff_toNat_le, h.index]
    exact Nat.le_of_lt hlt
  apply UInt32.toNat_inj.mp
  rw [UInt32.toNat_sub_of_le _ _ hle, h.index, UInt32.toNat_ofNat',
    Nat.mod_eq_of_lt (by omega : 64 - m.length % 64 < 2 ^ 32)]
  rfl

/-- The buffer after the bytes that are missing to a block. -/
theorem Holds.overwrite_fill {ctx : Md5Ctx} {m c : List UInt8} (h : Holds ctx m)
    (hc : 64 - m.length % 64 ≤ c.length) :
    overwrite ctx.buffer (m.length % 64) (slice c 0 (64 - m.length % 64)) =
      pending 64 m ++ c.take (64 - m.length % 64) := by
  have hlt : m.length % 64 < 64 := Nat.mod_lt _ (by decide)
  have hlen : (slice c 0 (64 - m.length % 64)).length = 64 - m.length % 64 :=
    Lib.length_slice (by omega)
  rw [overwrite, h.buffer, hlen, List.drop_eq_nil_of_le (by rw [ctx.length_buffer]; omega),
    List.append_nil, slice, List.drop_zero]

/-- The bytes behind the last whole block go to the start of the buffer. -/
theorem take_rest {m input buffer : List UInt8} {n : Nat} (hn : n ≤ input.length)
    (hle : 64 - m.length % 64 ≤ n) (hlt : n < 2 ^ 32) (hbuffer : buffer.length = 64) :
    (md5Memcpy buffer 0 input
      (UInt32.ofNat (64 - m.length % 64 + 64 * ((n - (64 - m.length % 64)) / 64))).toNat
      (UInt32.ofNat n - UInt32.ofNat
        (64 - m.length % 64 + 64 * ((n - (64 - m.length % 64)) / 64))).toNat).take
      ((m ++ input.take n).length % 64) = pending 64
      ((input.take n).drop (64 - m.length % 64)) := by
  obtain ⟨part, hpart⟩ : ∃ part, 64 - m.length % 64 = part := ⟨_, rfl⟩
  obtain ⟨off, hoff⟩ : ∃ off, part + 64 * ((n - part) / 64) = off := ⟨_, rfl⟩
  have hofflt : off ≤ n := by omega
  have hi : (UInt32.ofNat off).toNat = off := by
    rw [UInt32.toNat_ofNat', Nat.mod_eq_of_lt (by omega)]
  have hinput : (UInt32.ofNat n).toNat = n := by
    rw [UInt32.toNat_ofNat', Nat.mod_eq_of_lt (by omega)]
  have hrest : (UInt32.ofNat n - UInt32.ofNat off).toNat = n - off := by
    rw [UInt32.toNat_sub_of_le _ _ (by rw [UInt32.le_iff_toNat_le, hi, hinput]; exact hofflt), hi,
      hinput]
  have hlen : (input.take n).length = n := by
    rw [List.length_take, Nat.min_eq_left hn]
  have hmod : (m ++ input.take n).length % 64 = 0 + (n - off) := by
    rw [List.length_append, hlen]
    omega
  have hpending : pending 64 ((input.take n).drop part) = (input.take n).drop off := by
    rw [pending, List.length_drop, hlen, List.drop_drop, hoff]
  rw [hpart, hoff, hi, hrest, hmod, take_md5Memcpy (by omega) (by omega), hpending, slice,
    List.take_zero, List.nil_append, List.drop_take]

/-- **The first bytes of the input are added to the message.** -/
theorem md5Update_spec {ctx : Md5Ctx} {m : List UInt8} (h : Holds ctx m) {input : List UInt8}
    {n : Nat} (hn : n ≤ input.length) (hc : n + 128 ≤ 2 ^ 32) :
    ∃ ctx', md5Update ctx input (UInt32.ofNat n) = some ctx' ∧ Holds ctx' (m ++ input.take n) := by
  have hlt : m.length % 64 < 64 := Nat.mod_lt _ (by decide)
  have hlen : (pending 64 m).length = m.length % 64 := Lib.length_pending 64 m
  have htake : (input.take n).length = n := by
    rw [List.length_take, Nat.min_eq_left hn]
  have hsize := ctx.length_buffer
  have hinput : (UInt32.ofNat n).toNat = n := by
    rw [UInt32.toNat_ofNat', Nat.mod_eq_of_lt (by omega)]
  have hpart : (64 - ctx.index).toNat = 64 - m.length % 64 := by
    rw [h.partLen, UInt32.toNat_ofNat', Nat.mod_eq_of_lt (by omega)]
  have hstate : absorb Rfc1321.compress 64 Rfc1321.initial (m ++ input.take n) =
      absorb Rfc1321.compress 64 ctx.state (pending 64 m ++ input.take n) := by
    rw [h.state, Lib.absorb_append (by decide)]
  have hpending : pending 64 (m ++ input.take n) = pending 64 (pending 64 m ++ input.take n) :=
    Lib.pending_append (by decide) _ m
  by_cases hfull : UInt32.ofNat n ≥ 64 - ctx.index
  · have hle : 64 - m.length % 64 ≤ n := by
      rwa [ge_iff_le, UInt32.le_iff_toNat_le, hpart, hinput] at hfull
    have hbuffer : md5Memcpy ctx.buffer ctx.index.toNat input 0 (64 - ctx.index).toNat =
        pending 64 m ++ (input.take n).take (64 - m.length % 64) := by
      rw [h.index, hpart, md5Memcpy_eq _ (by omega) (by omega), h.overwrite_fill (by omega),
        List.take_take, Nat.min_eq_left hle]
    have hloop := md5Loop_eq hn hc (2 ^ 26) (64 - m.length % 64) (md5Ransform ctx.state
      (pending 64 m ++ (input.take n).take (64 - m.length % 64))) hle (by omega)
    rw [← h.partLen] at hloop
    obtain ⟨ctx', hupdate, hcounted, hstate', hbuffer'⟩ := md5Update_full hfull hbuffer hloop
    refine ⟨ctx', hupdate, hcounted.count h htake (by omega), ?_, ?_,
      hcounted.padding.trans h.padding⟩
    · rw [hstate', hstate, Lib.absorb_fill _ (by omega) (by omega), md5Ransform_eq, hlen]
    · rw [hpending, Lib.pending_fill (by omega) (by omega), hlen, hbuffer']
      refine take_rest hn hle (by omega) ?_
      rw [List.length_append, hlen, List.length_take]
      omega
  · have hle : n < 64 - m.length % 64 := by
      rw [ge_iff_le, UInt32.le_iff_toNat_le, hpart, hinput] at hfull
      omega
    obtain ⟨ctx', hupdate, hcounted, hstate', hbuffer'⟩ := md5Update_short input hfull
    have hmod : (m ++ input.take n).length % 64 = m.length % 64 + n := by
      rw [List.length_append, htake]
      omega
    refine ⟨ctx', hupdate, hcounted.count h htake (by omega), ?_, ?_,
      hcounted.padding.trans h.padding⟩
    · rw [hstate', hstate, Lib.absorb_of_lt _ (by rw [List.length_append]; omega)]
    · rw [hpending, Lib.pending_of_lt (by rw [List.length_append]; omega), hbuffer',
        h.index, hinput,
        hmod, take_md5Memcpy (by omega) (by omega), h.buffer, slice, List.drop_zero]

/-! ## The end of the message -/

/-- A word that is written byte by byte. -/
theorem encode_word (x : UInt32) :
    [(x &&& 0xff).toUInt8, (x >>> 8 &&& 0xff).toUInt8, (x >>> 16 &&& 0xff).toUInt8,
      (x >>> 24 &&& 0xff).toUInt8] = Rfc1321.lowBytes 4 x.toNat := by
  have hbyte : ∀ y : UInt32, ∀ n, y.toNat = n → (y &&& 0xff).toUInt8 = UInt8.ofNat n := by
    intro y n hn
    apply UInt8.toNat_inj.mp
    rw [UInt32.toNat_toUInt8, UInt32.toNat_and, hn, UInt8.toNat_ofNat']
    show (n &&& 2 ^ 8 - 1) % 2 ^ 8 = n % 2 ^ 8
    rw [Nat.and_two_pow_sub_one_eq_mod, Nat.mod_mod]
  have hshift : ∀ k : UInt32, k.toNat < 32 → (x >>> k).toNat = x.toNat / 2 ^ k.toNat := by
    intro k hk
    rw [UInt32.toNat_shiftRight, Nat.mod_eq_of_lt hk, Nat.shiftRight_eq_div_pow]
  have h₀ := hbyte x (x.toNat / 2 ^ 0) (by rw [Nat.pow_zero, Nat.div_one])
  have h₁ := hbyte (x >>> 8) (x.toNat / 2 ^ 8) (hshift 8 (by decide))
  have h₂ := hbyte (x >>> 16) (x.toNat / 2 ^ 16) (hshift 16 (by decide))
  have h₃ := hbyte (x >>> 24) (x.toNat / 2 ^ 24) (hshift 24 (by decide))
  rw [h₀, h₁, h₂, h₃]
  rfl

/-- Two words are written as the bytes of the number they count. -/
theorem lowBytes_append {a b N : Nat} (ha : a < 2 ^ 32) (h : a + 2 ^ 32 * b = N % 2 ^ 64) :
    Rfc1321.lowBytes 4 a ++ Rfc1321.lowBytes 4 b = Rfc1321.lowBytes 8 N := by
  have hbyte : ∀ {x y : Nat}, x % 2 ^ 8 = y % 2 ^ 8 → UInt8.ofNat x = UInt8.ofNat y := by
    intro x y hxy
    apply UInt8.toNat_inj.mp
    rw [UInt8.toNat_ofNat', UInt8.toNat_ofNat', hxy]
  show [UInt8.ofNat (a / 2 ^ 0), UInt8.ofNat (a / 2 ^ 8), UInt8.ofNat (a / 2 ^ 16),
      UInt8.ofNat (a / 2 ^ 24), UInt8.ofNat (b / 2 ^ 0), UInt8.ofNat (b / 2 ^ 8),
      UInt8.ofNat (b / 2 ^ 16), UInt8.ofNat (b / 2 ^ 24)] =
    [UInt8.ofNat (N / 2 ^ 0), UInt8.ofNat (N / 2 ^ 8), UInt8.ofNat (N / 2 ^ 16),
      UInt8.ofNat (N / 2 ^ 24), UInt8.ofNat (N / 2 ^ 32), UInt8.ofNat (N / 2 ^ 40),
      UInt8.ofNat (N / 2 ^ 48), UInt8.ofNat (N / 2 ^ 56)]
  rw [hbyte (by omega : a / 2 ^ 0 % 2 ^ 8 = N / 2 ^ 0 % 2 ^ 8),
    hbyte (by omega : a / 2 ^ 8 % 2 ^ 8 = N / 2 ^ 8 % 2 ^ 8),
    hbyte (by omega : a / 2 ^ 16 % 2 ^ 8 = N / 2 ^ 16 % 2 ^ 8),
    hbyte (by omega : a / 2 ^ 24 % 2 ^ 8 = N / 2 ^ 24 % 2 ^ 8),
    hbyte (by omega : b / 2 ^ 0 % 2 ^ 8 = N / 2 ^ 32 % 2 ^ 8),
    hbyte (by omega : b / 2 ^ 8 % 2 ^ 8 = N / 2 ^ 40 % 2 ^ 8),
    hbyte (by omega : b / 2 ^ 16 % 2 ^ 8 = N / 2 ^ 48 % 2 ^ 8),
    hbyte (by omega : b / 2 ^ 24 % 2 ^ 8 = N / 2 ^ 56 % 2 ^ 8)]

theorem Holds.encode_count {ctx : Md5Ctx} {m : List UInt8} (h : Holds ctx m) :
    md5Encode [ctx.count0, ctx.count1] 8 = Rfc1321.lowBytes 8 (8 * m.length) := by
  have hwords : md5Encode [ctx.count0, ctx.count1] 8 =
      Rfc1321.lowBytes 4 ctx.count0.toNat ++ Rfc1321.lowBytes 4 ctx.count1.toNat := by
    rw [← encode_word, ← encode_word]
    rfl
  rw [hwords, lowBytes_append ctx.count0.toNat_lt h.count]

theorem length_padding (n : Nat) : (Rfc1321.padding n).length = (119 - n % 64) % 64 + 1 := by
  rw [Rfc1321.padding, List.length_cons, List.length_replicate]

/-- The `padLen` of `md5_final`. -/
theorem Holds.padLen {ctx : Md5Ctx} {m : List UInt8} (h : Holds ctx m) :
    (if ctx.index < 56 then 56 - ctx.index else 120 - ctx.index) =
      UInt32.ofNat (Rfc1321.padding m.length).length := by
  have hlt : m.length % 64 < 64 := Nat.mod_lt _ (by decide)
  have hindex := h.index
  have hsub : ∀ k : UInt32, ctx.index.toNat ≤ k.toNat →
      (k - ctx.index).toNat = k.toNat - m.length % 64 := by
    intro k hk
    rw [UInt32.toNat_sub_of_le _ _ (UInt32.le_iff_toNat_le.mpr hk), hindex]
  have h₅₆ : (56 : UInt32).toNat = 56 := rfl
  have h₁₂₀ : (120 : UInt32).toNat = 120 := rfl
  apply UInt32.toNat_inj.mp
  rw [length_padding, UInt32.toNat_ofNat']
  by_cases hcond : ctx.index < 56
  · rw [if_pos hcond]
    rw [UInt32.lt_iff_toNat_lt, h₅₆] at hcond
    rw [hsub 56 (by omega), h₅₆]
    omega
  · rw [if_neg hcond]
    rw [UInt32.lt_iff_toNat_lt, h₅₆] at hcond
    rw [hsub 120 (by omega), h₁₂₀]
    omega

theorem Holds.take_padding {ctx : Md5Ctx} {m : List UInt8} (h : Holds ctx m) :
    ctx.padding.take (Rfc1321.padding m.length).length = Rfc1321.padding m.length := by
  rw [length_padding, h.padding, List.take_succ_cons, List.take_replicate, Rfc1321.padding,
    Nat.min_eq_left (by omega)]

theorem encode_state (w : Words) : md5Encode [w.a, w.b, w.c, w.d] 16 =
    [w.a, w.b, w.c, w.d].flatMap fun x => Rfc1321.lowBytes 4 x.toNat := by
  simp only [List.flatMap_cons, List.flatMap_nil, ← encode_word]
  rfl

/-- The digest of the message so far, and a context as after `md5_init`. -/
theorem md5Final_spec {ctx : Md5Ctx} {m : List UInt8} (h : Holds ctx m)
    (digest : List.Vector UInt8 16) :
    ∃ v : List.Vector UInt8 16, md5Final ctx (some digest) = some (md5Init Md5Ctx.zero, some v) ∧
      v.toList = Rfc1321.digest m := by
  have hpad := length_padding m.length
  have hfit : (Rfc1321.padding m.length).length ≤ ctx.padding.length := by
    rw [ctx.length_padding]
    omega
  have hbits : 8 ≤ (Rfc1321.lowBytes 8 (8 * m.length)).length := Nat.le_refl 8
  obtain ⟨ctx₁, hupdate₁, h₁⟩ := md5Update_spec h hfit (by omega)
  obtain ⟨ctx₂, hupdate₂, h₂⟩ := md5Update_spec h₁ hbits (by decide)
  have hmessage : m ++ ctx.padding.take (Rfc1321.padding m.length).length ++
      (Rfc1321.lowBytes 8 (8 * m.length)).take 8 = Rfc1321.pad m := by
    rw [h.take_padding, List.take_of_length_le (Nat.le_refl 8), Rfc1321.pad]
  rw [hmessage] at h₂
  refine ⟨⟨md5Encode [ctx₂.state.a, ctx₂.state.b, ctx₂.state.c, ctx₂.state.d] 16, rfl⟩, ?_, ?_⟩
  · simp only [md5Final, h.padLen, h.encode_count, hupdate₁, Option.bind_eq_bind, Option.bind_some]
    rw [show md5Update ctx₁ (Rfc1321.lowBytes 8 (8 * m.length)) 8 = some ctx₂ from hupdate₂,
      Option.bind_some]
  · show md5Encode [ctx₂.state.a, ctx₂.state.b, ctx₂.state.c, ctx₂.state.d] 16 = _
    rw [encode_state, h₂.state, Rfc1321.digest]

/-! ## A message in pieces -/

/-- `md5_init`, `md5_update` on each piece, and `md5_final`. -/
def md5Stream (ctx : Md5Ctx) (chunks : List (List UInt8)) (digest : Option (List.Vector UInt8 16)) :
    Option (Md5Ctx × Option (List.Vector UInt8 16)) := do
  let ctx ← chunks.foldlM (fun ctx c => md5Update ctx c (UInt32.ofNat c.length)) (md5Init ctx)
  md5Final ctx digest

/-- The pieces one after the other. -/
theorem foldlM_md5Update (chunks : List (List UInt8)) : ∀ {ctx : Md5Ctx} {m : List UInt8},
    Holds ctx m → (∀ c ∈ chunks, c.length ≤ 2 ^ 32 - 128) →
      ∃ ctx', chunks.foldlM (fun ctx c => md5Update ctx c (UInt32.ofNat c.length)) ctx = some ctx' ∧
        Holds ctx' (m ++ chunks.flatten) := by
  induction chunks with
  | nil =>
    intro ctx m h _
    refine ⟨ctx, rfl, ?_⟩
    rwa [List.flatten_nil, List.append_nil]
  | cons c chunks ih =>
    intro ctx m h hc
    have hlen := hc c List.mem_cons_self
    obtain ⟨ctx₁, hupdate, h₁⟩ := md5Update_spec h (Nat.le_refl c.length) (by omega)
    rw [List.take_length] at h₁
    obtain ⟨ctx', hrest, h'⟩ := ih h₁ fun c' hc' => hc c' (List.mem_cons_of_mem c hc')
    refine ⟨ctx', ?_, ?_⟩
    · rw [List.foldlM_cons, hupdate]
      exact hrest
    · rwa [List.flatten_cons, ← List.append_assoc]

/-- **MD5 of a message in pieces.**  However the message is cut, the digest is its own, and the
context is as fresh as it was. -/
theorem md5_streaming (ctx : Md5Ctx) (chunks : List (List UInt8)) (digest : List.Vector UInt8 16)
    (h : ∀ c ∈ chunks, c.length ≤ 2 ^ 32 - 128) :
    ∃ v : List.Vector UInt8 16,
      md5Stream ctx chunks (some digest) = some (md5Init Md5Ctx.zero, some v) ∧
        v.toList = Rfc1321.digest chunks.flatten := by
  obtain ⟨ctx', hchunks, hholds⟩ := foldlM_md5Update chunks (holds_md5Init ctx) h
  obtain ⟨v, hfinal, hv⟩ := md5Final_spec hholds digest
  refine ⟨v, ?_, hv⟩
  rw [md5Stream, hchunks]
  exact hfinal

theorem md5_streaming_abc : ∃ v : List.Vector UInt8 16,
    md5Stream Md5Ctx.zero [[97], [], [98, 99]] (some (List.Vector.replicate 16 0)) =
      some (md5Init Md5Ctx.zero, some v) ∧ v.toList = Rfc1321.digest [97, 98, 99] := by
  refine md5_streaming Md5Ctx.zero [[97], [], [98, 99]] (List.Vector.replicate 16 0) ?_
  decide

example : Rfc1321.digest [97, 98, 99] = [0x90, 0x01, 0x50, 0x98, 0x3c, 0xd2, 0x4f, 0xb0, 0xd6, 0x96,
    0x3f, 0x7d, 0x28, 0xe1, 0x7f, 0x72] := by
  decide +kernel

end Hash

end LibNax
