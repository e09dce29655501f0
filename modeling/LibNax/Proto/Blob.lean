import LibNax.Lib.Bytes
import LibNax.Lib.Int32
import Mathlib.Logic.Function.Basic

/-!
# Blobs

`proto_blob_t` holds a number of elements of one type in memory of its own.  The number of elements
is used where the number of their bytes is meant, and the copies look at the number of elements of
the object that is still empty.

* `Blob` — the members; `Blob.length`, `Blob.serialize` and `Blob.build` — the three virtual
  functions; `copyConstruct` and `copyAssign` — the copies, among objects with addresses.
* `Keeps` — what is asked of a blob, in four parts.
* `copyConstruct_eq`, `copyAssign_eq` — a copy is empty.
* `blob_never_keeps` — which parts hold for which size of the elements.

A pointer into a message is a position or null, and there is no result where a function leaves the
memory that it was given.  An object is its bytes, as for every type that is trivially copyable.
-/

set_option autoImplicit false

namespace LibNax

namespace Proto

open Lib (int32 slice overwrite)

/-! ## The source -/

/-- `type_pointer_`, with the bytes it points to, and `count_`. -/
structure Blob where
  typePointer : Option (List UInt8)
  count : Int
  deriving Repr, DecidableEq

/-- A blob whose members have the values of their initialisers. -/
def Blob.initial : Blob := ⟨none, 0⟩

section Source

variable (size : Nat)

/-- `new T[count]`, with what was in the memory. -/
def newArray (garbage : Nat → UInt8) (count : Int) : List UInt8 :=
  (List.range (count.toNat * size)).map garbage

/-- `new T[count_]` and `memcpy` of the elements of another blob. -/
def copyElements (garbage : Nat → UInt8) (lref : Blob) : Option Blob :=
  lref.typePointer.bind fun src =>
    (Lib.memcpy (newArray size garbage lref.count) 0 src 0 (lref.count * size)).map fun block =>
      ⟨some block, lref.count⟩

/-- `proto_blob_t(const T *ptr, int count)`. -/
def ofPointer (garbage : Nat → UInt8) (ptr : Option (List UInt8)) (count : Int) : Option Blob :=
  if count > 0 ∧ ptr.isSome then copyElements size garbage ⟨ptr, count⟩ else some Blob.initial

/-- `proto_blob_t(int count)`. -/
def ofCount (garbage : Nat → UInt8) (count : Int) : Blob :=
  if count > 0 then ⟨some (newArray size garbage count), count⟩ else ⟨none, count⟩

/-- `length`: the product is a `size_t`, and becomes an `int`. -/
def Blob.length (b : Blob) : Int := int32 (b.count * size)

/-- `serialize`: the memory, and the pointer behind what was written. -/
def Blob.serialize (b : Blob) (mem : List UInt8) (bytes : Option Int) :
    Option (List UInt8 × Option Int) :=
  match bytes with
  | none => some (mem, none)
  | some pos =>
    if b.count > 0 then do
      let block ← b.typePointer
      let mem ← Lib.memcpy mem pos block 0 b.count
      some (mem, some (pos + b.count))
    else some (mem, none)

/-- `build`: the blob, the pointer behind what was read, and `cb`. -/
def Blob.build (b : Blob) (mem : List UInt8) (bytes : Option Int) (cb : Int) :
    Option (Blob × Option Int × Int) :=
  match bytes with
  | none => some (b, none, cb)
  | some pos =>
    if cb ≥ b.count ∧ b.count > 0 then do
      let block ← b.typePointer
      let block ← Lib.memcpy block 0 mem pos b.count
      some ({ b with typePointer := some block }, some (pos + b.count), cb - b.count)
    else some (b, none, cb)

/-- The copy constructor, for a new object at `this`.  The number it tests is that of the new
object. -/
def copyConstruct (garbage : Nat → UInt8) (objects : Nat → Blob) (this lref : Nat) :
    Option (Nat → Blob) :=
  let self := Blob.initial
  if lref ≠ this then
    if (objects lref).typePointer.isSome ∧ self.count > 0 then
      (copyElements size garbage (objects lref)).map (Function.update objects this)
    else some (Function.update objects this ⟨none, 0⟩)
  else some (Function.update objects this self)

/-- The copy assignment.  The number it tests was set to zero before. -/
def copyAssign (garbage : Nat → UInt8) (objects : Nat → Blob) (this lref : Nat) :
    Option (Nat → Blob) :=
  if lref ≠ this then
    let self : Blob := ⟨none, 0⟩
    if self.count > 0 ∧ (objects lref).typePointer.isSome then
      (copyElements size garbage (objects lref)).map (Function.update objects this)
    else some (Function.update objects this self)
  else some objects

/-- The move constructor, for a new object at `this`. -/
def moveConstruct (objects : Nat → Blob) (this rref : Nat) : Nat → Blob :=
  Function.update (Function.update objects this (objects rref)) rref ⟨none, 0⟩

end Source

/-! ## What is asked -/

variable {size : Nat} {garbage : Nat → UInt8}

/-- A blob of `n` elements with these bytes. -/
structure Blob.Holds (size : Nat) (b : Blob) (n : Nat) (block : List UInt8) : Prop where
  typePointer : b.typePointer = some block
  count : b.count = n
  length : block.length = n * size
  pos : 0 < n
  fits : n < 2 ^ 31

/-- `length` is the number of the bytes, and `serialize` writes them, where there is room. -/
structure Serializes (size : Nat) (b : Blob) (n : Nat) (block : List UInt8) : Prop where
  length : b.length size = n * size
  serialize : ∀ (mem : List UInt8) (pos : Nat), pos + n * size ≤ mem.length →
    b.serialize mem (some pos) = some (overwrite mem pos block, some ((pos : Int) + n * size))

/-- A blob of the same number of elements is built from the bytes, unless fewer are available. -/
structure Builds (size : Nat) (n : Nat) (block : List UInt8) : Prop where
  build : ∀ (b' : Blob) (old : List UInt8), b'.Holds size n old →
    ∀ (mem : List UInt8) (pos : Nat) (cb : Int), slice mem pos (n * size) = block →
      (n * size : Nat) ≤ cb → b'.build mem (some pos) cb =
        some (⟨some block, n⟩, some ((pos : Int) + n * size), cb - n * size)
  fewer : ∀ (b' : Blob) (old : List UInt8), b'.Holds size n old →
    ∀ (mem : List UInt8) (pos : Nat) (cb : Int), cb < (n * size : Nat) →
      b'.build mem (some pos) cb = some (b', none, cb)

/-- A copy has the number and the elements of the source, and the source is what it was. -/
def Copies (copy : (Nat → Blob) → Nat → Nat → Option (Nat → Blob)) (b : Blob) : Prop :=
  ∀ (objects : Nat → Blob) (this lref : Nat), this ≠ lref → objects lref = b →
    ∃ objects', copy objects this lref = some objects' ∧ objects' this = b ∧ objects' lref = b

/-- What is asked of a blob. -/
structure Keeps (size : Nat) (garbage : Nat → UInt8) (b : Blob) (n : Nat) (block : List UInt8) :
    Prop where
  serializes : Serializes size b n block
  builds : Builds size n block
  constructs : Copies (copyConstruct size garbage) b
  assigns : Copies (copyAssign size garbage) b

/-! ## Constructors and moves -/

section Constructors

theorem length_newArray (n : Nat) : (newArray size garbage n).length = n * size := by
  rw [newArray, List.length_map, List.length_range, Int.toNat_natCast]

/-- A blob of the elements at a pointer. -/
theorem exists_ofPointer {ptr : List UInt8} {n : Nat} (hlen : n * size ≤ ptr.length) (hpos : 0 < n)
    (hfits : n < 2 ^ 31) : ∃ b, ofPointer size garbage (some ptr) n = some b ∧
      b.Holds size n (ptr.take (n * size)) := by
  have hroom : (newArray size garbage n).length = n * size := length_newArray n
  have hcopy : Lib.memcpy (newArray size garbage n) (0 : Nat) ptr (0 : Nat) (n * size : Nat) =
      some (overwrite (newArray size garbage n) 0 (slice ptr 0 (n * size))) :=
    Lib.memcpy_eq _ _ (by omega) (by omega)
  rw [Nat.cast_zero] at hcopy
  have hblock : overwrite (newArray size garbage n) 0 (slice ptr 0 (n * size)) =
      ptr.take (n * size) := by
    rw [overwrite, Lib.length_slice (by omega), List.drop_eq_nil_of_le (by omega), List.append_nil,
      List.take_zero, List.nil_append, slice, List.drop_zero]
  refine ⟨⟨some (ptr.take (n * size)), n⟩, ?_, rfl, rfl, ?_, hpos, hfits⟩
  · rw [ofPointer, if_pos ⟨Int.natCast_pos.mpr hpos, rfl⟩, copyElements, Option.bind_some,
      ← Nat.cast_mul, hcopy, hblock, Option.map_some]
  · rw [List.length_take, Nat.min_eq_left hlen]

theorem holds_ofCount {n : Nat} (hpos : 0 < n) (hfits : n < 2 ^ 31) :
    (ofCount size garbage n).Holds size n (newArray size garbage n) := by
  rw [ofCount, if_pos (Int.natCast_pos.mpr hpos)]
  exact ⟨rfl, rfl, length_newArray n, hpos, hfits⟩

/-- What is moved is there, and the source is empty. -/
theorem moveConstruct_eq (objects : Nat → Blob) {this rref : Nat} (h : this ≠ rref) :
    moveConstruct objects this rref this = objects rref ∧
      moveConstruct objects this rref rref = Blob.initial := by
  rw [moveConstruct]
  refine ⟨?_, Function.update_self _ _ _⟩
  rw [Function.update_of_ne h, Function.update_self]

end Constructors

/-! ## Serializing and building -/

section Bytes

variable {b : Blob} {n : Nat} {block mem : List UInt8} {pos : Nat}

/-- As many bytes are written as there are elements. -/
theorem Blob.Holds.serialize_eq (h : b.Holds size n block) (hsize : 0 < size)
    (hroom : pos + n ≤ mem.length) : b.serialize mem (some pos) =
      some (overwrite mem pos (block.take n), some ((pos : Int) + n)) := by
  have hle : n ≤ block.length := by
    rw [h.length]
    exact Nat.le_mul_of_pos_right n hsize
  have hcopy : Lib.memcpy mem pos block (0 : Nat) n = some (overwrite mem pos (slice block 0 n)) :=
    Lib.memcpy_eq mem block hroom (by omega)
  rw [Nat.cast_zero] at hcopy
  rw [Blob.serialize, h.count]
  simp only [h.typePointer, Option.bind_eq_bind, Option.bind_some, hcopy, slice, List.drop_zero]
  rw [if_pos (Int.natCast_pos.mpr h.pos)]

/-- As many bytes are read as there are elements. -/
theorem Blob.Holds.build_eq (h : b.Holds size n block) (hsize : 0 < size) {cb : Int}
    (hcb : (n : Int) ≤ cb) (hroom : pos + n ≤ mem.length) : b.build mem (some pos) cb =
      some (⟨some (overwrite block 0 (slice mem pos n)), n⟩, some ((pos : Int) + n), cb - n) := by
  have hle : n ≤ block.length := by
    rw [h.length]
    exact Nat.le_mul_of_pos_right n hsize
  have hcopy : Lib.memcpy block (0 : Nat) mem pos n = some (overwrite block 0 (slice mem pos n)) :=
    Lib.memcpy_eq block mem (by omega) hroom
  rw [Nat.cast_zero] at hcopy
  rw [Blob.build, h.count]
  simp only [h.typePointer, Option.bind_eq_bind, Option.bind_some, hcopy]
  rw [if_pos ⟨hcb, Int.natCast_pos.mpr h.pos⟩]

theorem serializes_iff (h : b.Holds size n block) (hsize : 0 < size) :
    Serializes size b n block ↔ size = 1 := by
  constructor
  · intro hall
    have hle : n ≤ n * size := Nat.le_mul_of_pos_right n hsize
    have hmem : (List.replicate (n * size) (0 : UInt8)).length = n * size := List.length_replicate
    have hwrites := hall.serialize (List.replicate (n * size) 0) 0 (by omega)
    rw [h.serialize_eq hsize (by omega), Option.some.injEq, Prod.mk.injEq, Option.some.injEq]
      at hwrites
    have heq : n * size = n * 1 := by
      have := hwrites.2
      push_cast at this
      omega
    exact Nat.eq_of_mul_eq_mul_left h.pos heq
  · rintro rfl
    have hlen : block.length = n := by rw [h.length, Nat.mul_one]
    have hfits := h.fits
    refine ⟨?_, fun mem pos hroom => ?_⟩
    · rw [Blob.length, h.count, Lib.int32_of_inInt32 ⟨by omega, by omega⟩]
    · rw [h.serialize_eq hsize (by omega), List.take_of_length_le (Nat.le_of_eq hlen)]
      simp

theorem builds_iff (h : b.Holds size n block) (hsize : 0 < size) :
    Builds size n block ↔ size = 1 := by
  have hle : n ≤ n * size := Nat.le_mul_of_pos_right n hsize
  constructor
  · intro hall
    by_contra hne
    have hless : n * 1 < n * size := Nat.mul_lt_mul_of_pos_left (by omega) h.pos
    have hfewer := hall.fewer b block h block 0 n (by omega)
    have hlen := h.length
    rw [h.build_eq hsize (Int.le_refl _) (by omega), Option.some.injEq, Prod.mk.injEq,
      Prod.mk.injEq] at hfewer
    cases hfewer.2.1
  · rintro rfl
    have hlen : block.length = n := by rw [h.length, Nat.mul_one]
    refine ⟨fun b' old hold mem pos cb hmem hcb => ?_, fun b' old hold mem pos cb hcb => ?_⟩
    · rw [Nat.mul_one] at hmem hcb
      have hroom : pos + n ≤ mem.length := by
        have := congrArg List.length hmem
        rw [slice, List.length_take, List.length_drop, hlen] at this
        have := h.pos
        omega
      have hold' : old.length = n := by rw [hold.length, Nat.mul_one]
      rw [hold.build_eq Nat.one_pos hcb hroom, hmem, overwrite, List.take_zero, List.nil_append,
        List.drop_eq_nil_of_le (by omega), List.append_nil]
      simp
    · rw [Blob.build, hold.count, if_neg (by omega)]

end Bytes

/-! ## Copies -/

variable (size garbage)

/-- **A copy is empty.** -/
theorem copyConstruct_eq (objects : Nat → Blob) {this lref : Nat} (h : this ≠ lref) :
    copyConstruct size garbage objects this lref =
      some (Function.update objects this ⟨none, 0⟩) := by
  rw [copyConstruct, if_pos h.symm, if_neg fun hand => absurd hand.2 (by decide)]

theorem copyAssign_eq (objects : Nat → Blob) {this lref : Nat} (h : this ≠ lref) :
    copyAssign size garbage objects this lref = some (Function.update objects this ⟨none, 0⟩) := by
  rw [copyAssign, if_pos h.symm, if_neg fun hand => absurd hand.1 (by decide)]

variable {size}

theorem not_copies {copy : (Nat → Blob) → Nat → Nat → Option (Nat → Blob)}
    (hempty : ∀ (objects : Nat → Blob) {this lref : Nat}, this ≠ lref →
      copy objects this lref = some (Function.update objects this ⟨none, 0⟩))
    {b : Blob} (hb : b.count ≠ 0) : ¬Copies copy b := by
  intro h
  obtain ⟨objects', hcopy, hthis, -⟩ := h (fun _ => b) 1 0 (by decide) rfl
  rw [hempty _ (by decide), Option.some.injEq] at hcopy
  subst hcopy
  rw [Function.update_self] at hthis
  exact hb (by rw [← hthis])

/-- **A blob does not keep its contents**: its copies are empty, and it is written and read as a
whole only if an element is one byte. -/
theorem blob_never_keeps {b : Blob} {n : Nat} {block : List UInt8} (h : b.Holds size n block)
    (hsize : 0 < size) :
    ¬Keeps size garbage b n block ∧ (Serializes size b n block ↔ size = 1) ∧
      (Builds size n block ↔ size = 1) ∧ ¬Copies (copyConstruct size garbage) b ∧
        ¬Copies (copyAssign size garbage) b := by
  have hcount : b.count ≠ 0 := by
    have := h.pos
    rw [h.count]
    omega
  have hconstruct := not_copies (copyConstruct_eq size garbage) hcount
  exact ⟨fun hkeeps => hconstruct hkeeps.constructs, serializes_iff h hsize, builds_iff h hsize,
    hconstruct, not_copies (copyAssign_eq size garbage) hcount⟩

/-- Two elements of four bytes. -/
theorem blob_never_keeps_words :
    ¬Serializes 4 ⟨some [1, 0, 0, 0, 2, 0, 0, 0], 2⟩ 2 [1, 0, 0, 0, 2, 0, 0, 0] :=
  mt (blob_never_keeps (fun _ => 0) ⟨rfl, rfl, rfl, by decide, by decide⟩
    (by decide)).2.1.mp (by decide)

/-- Of two elements of four bytes, two bytes are written; and the copy is empty. -/
theorem blob_not_kept :
    Blob.serialize ⟨some [1, 0, 0, 0, 2, 0, 0, 0], 2⟩ [9, 9, 9, 9, 9, 9, 9, 9] (some 0) =
        some ([1, 0, 9, 9, 9, 9, 9, 9], some 2) ∧
      copyConstruct 4 (fun _ => 0) (fun _ => ⟨some [1, 0, 0, 0, 2, 0, 0, 0], 2⟩) 1 0 =
        some (Function.update (fun _ => ⟨some [1, 0, 0, 0, 2, 0, 0, 0], 2⟩) 1 ⟨none, 0⟩) ∧
      ¬Keeps 4 (fun _ => 0) ⟨some [1, 0, 0, 0, 2, 0, 0, 0], 2⟩ 2 [1, 0, 0, 0, 2, 0, 0, 0] := by
  refine ⟨by decide, copyConstruct_eq 4 _ _ (by decide), fun h => ?_⟩
  exact not_copies (copyConstruct_eq 4 _) (by decide) h.constructs

end Proto

end LibNax
