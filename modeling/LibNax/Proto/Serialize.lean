import LibNax.Lib.Bytes
import LibNax.Lib.Int32
import LibNax.Lib.Endian

/-!
# Protocol objects

The templates of `serialize.hpp`: a number, a string of characters and a vector of objects, the last
two with the number of their elements in front, in one of two byte orders.  Each writes itself to
memory and is built from memory.

* `Ty` — the types that the templates make; `Ty.Val` — what an object of a type holds.
* `changeByteOrder` — the loop of `change_byte_order`.
* `Ty.length`, `Ty.serialize`, `Ty.build` — the three virtual functions.

A pointer is a position in memory or null.  Where a function would write or read outside of the
memory it was given, there is no result.  The numbers are in memory with the lowest byte first.
There is memory for every string that is not longer than a string can be.
-/

set_option autoImplicit false

namespace LibNax

namespace Proto

open Lib (int32 slice overwrite leBytes leNat)

/-! ## Types and values -/

/-- The integer types of `proto_crt_t`; the characters of a string are such types, too. -/
inductive IntType where
  | int8
  | uint8
  | int16
  | uint16
  | int32
  | uint32
  | int64
  | uint64
  deriving DecidableEq

/-- `sizeof`. -/
def IntType.size : IntType → Nat
  | .int8 => 1
  | .uint8 => 1
  | .int16 => 2
  | .uint16 => 2
  | .int32 => 4
  | .uint32 => 4
  | .int64 => 8
  | .uint64 => 8

/-- The types of a number of elements, `NL`. -/
inductive CountType where
  | uint8
  | uint16
  | uint32
  | uint64
  deriving DecidableEq

/-- `sizeof`. -/
def CountType.size : CountType → Nat
  | .uint8 => 1
  | .uint16 => 2
  | .uint32 => 4
  | .uint64 => 8

/-- The types of protocol objects. -/
inductive Ty where
  /-- `proto_crt_t<T>`. -/
  | crt (t : IntType)
  /-- `proto_string_t<T, NL, ENABLE_BIG_ENDIAN>`. -/
  | string (t : IntType) (nl : CountType) (bigEndian : Bool)
  /-- `proto_vector_t<T, NL, ENABLE_BIG_ENDIAN>`. -/
  | vector (t : Ty) (nl : CountType) (bigEndian : Bool)
  deriving DecidableEq

/-- What an object holds.  A signed number is its bits. -/
@[reducible] def Ty.Val : Ty → Type
  | .crt t => BitVec (8 * t.size)
  | .string t _ _ => List (BitVec (8 * t.size))
  | .vector t _ _ => List t.Val

/-- A freshly constructed object. -/
def Ty.fresh : (t : Ty) → t.Val
  | .crt t => (0 : BitVec (8 * t.size))
  | .string _ _ _ => []
  | .vector _ _ _ => []

/-! ## Numbers -/

/-- `change_byte_order`. -/
def changeByteOrder {n : Nat} (t : BitVec (8 * n)) : BitVec (8 * n) :=
  (List.range n).foldl (fun dst i =>
    let dst := dst ||| ((t >>> (i * 8)) &&& 0xFF)
    dst <<< (if i < n - 1 then 8 else 0)) 0

/-- A number of `n` bytes that is read from memory. -/
def loadWord (n : Nat) (mem : List UInt8) (off : Nat) : BitVec (8 * n) :=
  BitVec.ofNat (8 * n) (leNat (slice mem off n))

/-- `proto_crt_t::serialize`: the memory, and the pointer behind what was written. -/
def crtSerialize {n : Nat} (value : BitVec (8 * n)) (mem : List UInt8) :
    Option Int → Option (List UInt8 × Option Int)
  | none => some (mem, none)
  | some pos =>
    (Lib.memcpy mem pos (leBytes n value.toNat) 0 n).map fun mem => (mem, some (pos + n))

/-- `proto_crt_t::build`: the object, the pointer behind what was read, and `cb`. -/
def crtBuild {n : Nat} (value : BitVec (8 * n)) (mem : List UInt8) (byteStream : Option Int)
    (cb : Int) : Option (BitVec (8 * n) × Option Int × Int) :=
  match byteStream with
  | none => some (value, none, cb)
  | some pos =>
    if cb < n then some (value, none, cb)
    else if 0 ≤ pos ∧ pos + n ≤ mem.length then
      some (loadWord n mem pos.toNat, some (pos + n), int32 (cb - n))
    else none

/-- The number of elements in front of a string or a vector, written. -/
def countSerialize (nl : CountType) (bigEndian : Bool) (size : Nat) (mem : List UInt8)
    (byteStream : Option Int) : Option (List UInt8 × Option Int) :=
  let elementCount := BitVec.ofNat (8 * nl.size) size
  let elementCount := if bigEndian then changeByteOrder elementCount else elementCount
  crtSerialize elementCount mem byteStream

/-- The number of elements in front of a string or a vector, read. -/
def countBuild (nl : CountType) (bigEndian : Bool) (mem : List UInt8) (byteStream : Option Int)
    (cb : Int) : Option (BitVec (8 * nl.size) × Option Int × Int) := do
  let (elementCount, pos, cb) ← crtBuild (n := nl.size) 0 mem byteStream cb
  let elementCount := if bigEndian then changeByteOrder elementCount else elementCount
  some (elementCount, pos, cb)

/-! ## Objects -/

section Loops

variable {α : Type}

/-- The loop of `serialize` over the elements. -/
def serializeItems (f : α → List UInt8 → Option Int → Option (List UInt8 × Option Int)) :
    List α → List UInt8 → Option Int → Option (List UInt8 × Option Int)
  | [], mem, pos => some (mem, pos)
  | a :: l, mem, pos => do
    let (mem, pos) ← f a mem pos
    if pos.isNone then some (mem, none) else serializeItems f l mem pos

/-- The loop of `proto_vector_t::build`, over as many elements as were announced. -/
def buildItems (f : Option Int → Int → Option (α × Option Int × Int)) :
    Nat → List α → Option Int → Int → Option (List α × Option Int × Int)
  | 0, items, pos, cb => some (items, pos, cb)
  | n + 1, items, pos, cb => do
    let (item, pos, cb) ← f pos cb
    if pos.isNone then some (items, none, cb) else buildItems f n (items ++ [item]) pos cb

end Loops

/-- `length`. -/
def Ty.length : (t : Ty) → t.Val → Int
  | .crt t, _ => t.size
  | .string t nl _, v => int32 (int32 (0 + nl.size) + int32 (List.length v * t.size))
  | .vector t nl _, v =>
    List.foldl (fun sum iter => int32 (sum + t.length iter)) (int32 (0 + nl.size)) v

/-- `serialize`: the memory, and the pointer behind what was written. -/
def Ty.serialize : (t : Ty) → t.Val → List UInt8 → Option Int → Option (List UInt8 × Option Int)
  | .crt _, v, mem, byteStream => crtSerialize v mem byteStream
  | .string _ nl bigEndian, v, mem, byteStream => do
    let (mem, pos) ← countSerialize nl bigEndian (List.length v) mem byteStream
    serializeItems crtSerialize v mem pos
  | .vector t nl bigEndian, v, mem, byteStream => do
    let (mem, pos) ← countSerialize nl bigEndian (List.length v) mem byteStream
    serializeItems t.serialize v mem pos

/-- `basic_string::assign` of `count` characters of `n` bytes. -/
def assign (n : Nat) (mem : List UInt8) (off count : Nat) : List (BitVec (8 * n)) :=
  (List.range count).map fun i => loadWord n mem (off + n * i)

/-- `basic_string::max_size`, for characters of `n` bytes. -/
def maxSize (n : Nat) : Nat := ((2 ^ 63 - 1) / n - 1) / 2

/-- The part of `proto_string_t::build` behind the number of elements. -/
def buildChars (n : Nat) (mem : List UInt8) (elementCount : Nat) (v : List (BitVec (8 * n)))
    (pos cb : Int) : Option (List (BitVec (8 * n)) × Option Int × Int) :=
  let acquireCb := int32 (n * elementCount)
  if cb < acquireCb then some (v, none, cb)
  -- `assign` throws, and the exception is caught
  else if maxSize n < elementCount then some (v, none, cb)
  else if 0 ≤ pos ∧ pos + n * elementCount ≤ mem.length then
    some (assign n mem pos.toNat elementCount, some (pos + acquireCb), int32 (cb - acquireCb))
  else none

/-- `build`: the object, the pointer behind what was read, and `cb`. -/
def Ty.build : (t : Ty) → t.Val → List UInt8 → Option Int → Int →
    Option (t.Val × Option Int × Int)
  | .crt _, v, mem, byteStream, cb => crtBuild v mem byteStream cb
  | .string t nl bigEndian, v, mem, byteStream, cb => do
    let (elementCount, pos, cb) ← countBuild nl bigEndian mem byteStream cb
    match pos with
    | none => some (v, none, cb)
    | some pos => buildChars t.size mem elementCount.toNat v pos cb
  | .vector t nl bigEndian, v, mem, byteStream, cb => do
    let (elementCount, pos, cb) ← countBuild nl bigEndian mem byteStream cb
    if pos.isNone then some (v, none, cb)
    else buildItems (t.build t.fresh mem) elementCount.toNat v pos cb

end Proto

end LibNax
