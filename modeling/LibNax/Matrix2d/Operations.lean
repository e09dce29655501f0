import LibNax.Lib.Endian

/-!
# Matrices

`matrix2d.c`: matrices of `long`, line after line in one field.

* `Matrix2d` — a matrix; its field has as many elements as were allocated for it.
* `alloc`, `size`, `equal`, `queryElement` — the functions about one matrix, or two.
* `iterateElement`, `iterateLine`, `iterateColumn` — calls of an iterator for elements.
* `add`, `mul`, `scalarMul`, `transport`, `makeIdentity` — the functions that give a matrix.

Lines, columns and everything computed from them are numbers of 32 bits.  Where a function would
read or write outside of a field, there is no result; where it gives the null pointer, the result is
the inner `none`.
-/

set_option autoImplicit false

namespace LibNax

/-- `matrix2d_ele_t`. -/
abbrev Matrix2d.Ele : Type := BitVec 64

/-- `struct matrix2d`. -/
@[ext] structure Matrix2d where
  column : UInt32
  line : UInt32
  field : List Matrix2d.Ele
  /-- The elements that there is memory for. -/
  length_field : field.length = (line * column).toNat
  column_ne : column ≠ 0
  line_ne : line ≠ 0

namespace Matrix2d

/-- `field[loc]`, read. -/
def load (m : Matrix2d) (loc : Nat) : Option Ele := m.field[loc]?

/-- `field[loc]`, written. -/
def store (m : Matrix2d) (loc : Nat) (ele : Ele) : Option Matrix2d :=
  if loc < m.field.length then
    some { m with
      field := m.field.set loc ele
      length_field := by rw [List.length_set, m.length_field] }
  else none

/-- `matrix2d_alloc`. -/
def alloc (malloc : Nat → Bool) (line column : UInt32) : Option Matrix2d :=
  if h : 0 = column ∨ 0 = line then none
  else
    let eleCount := line * column
    if malloc (8 + 8 * eleCount.toNat) then
      some {
        column, line
        field := List.replicate eleCount.toNat 0
        length_field := List.length_replicate
        column_ne := fun hzero => h (Or.inl hzero.symm)
        line_ne := fun hzero => h (Or.inr hzero.symm) }
    else none

/-- `matrix2d_size`. -/
def size (m : Matrix2d) : UInt32 := UInt32.ofNat ((m.line * m.column).toNat * 8)

/-- The bytes of a field. -/
def bytes (m : Matrix2d) : List UInt8 := m.field.flatMap fun e => Lib.leBytes 8 e.toNat

/-- `matrix2d_equal`. -/
def equal (left right : Matrix2d) : Bool :=
  if left.column ≠ right.column ∨ left.line ≠ right.line then false
  else left.bytes.take (size left).toNat == right.bytes.take (size left).toNat

/-! ## Elements -/

section Iterate

variable {σ : Type}

/-- `iterator(&m->field[loc], loc, args)`: the iterator gets an element, its index and `args`, and
may write the element and `args`. -/
def visit (iterator : Ele → Nat → σ → Ele × σ) (s : Matrix2d × σ) (loc : Nat) :
    Option (Matrix2d × σ) := do
  let e ← s.1.load loc
  let (e, args) := iterator e loc s.2
  let m ← s.1.store loc e
  some (m, args)

/-- `matrix2d_iterate_element`. -/
def iterateElement (m : Matrix2d) (iterator : Ele → Nat → σ → Ele × σ) (args : σ) :
    Option (Matrix2d × σ) :=
  let eleCount := m.column * m.line
  (List.range eleCount.toNat).foldlM (visit iterator) (m, args)

/-- `matrix2d_iterate_line`. -/
def iterateLine (m : Matrix2d) (line : UInt32) (iterator : Ele → Nat → σ → Ele × σ) (args : σ) :
    Option (Matrix2d × σ) :=
  if line < m.line then
    (List.range m.column.toNat).foldlM
      (fun s i => visit iterator s (m.column * line + UInt32.ofNat i).toNat) (m, args)
  else some (m, args)

/-- `matrix2d_iterate_column`. -/
def iterateColumn (m : Matrix2d) (column : UInt32) (iterator : Ele → Nat → σ → Ele × σ) (args : σ) :
    Option (Matrix2d × σ) :=
  if column < m.column then
    (List.range m.line.toNat).foldlM
      (fun s i => visit iterator s (UInt32.ofNat i * m.column + column).toNat) (m, args)
  else some (m, args)

end Iterate

/-- `matrix2d_query_element`: the status, and what `output` points to. -/
def queryElement (m : Matrix2d) (line column : UInt32) (output : Ele) : Option (Int × Ele) :=
  if column ≥ m.column ∨ line ≥ m.line then some (-1, output)
  else do
    let ele ← m.load (line * m.column + column).toNat
    some (0, ele)

/-! ## Calculation -/

/-- `matrix2d_calc_add`. -/
def calcAdd (left right : Ele) : Ele := left + right

/-- `matrix2d_calc_mul`. -/
def calcMul (left right : Ele) : Ele := left * right

/-- `matrix2d_add`. -/
def add (malloc : Nat → Bool) (left right : Matrix2d) (addfn : Option (Ele → Ele → Ele)) :
    Option (Option Matrix2d) :=
  if left.column ≠ right.column ∨ left.line ≠ right.line then some none
  else
    match alloc malloc left.line left.column with
    | none => some none
    | some m => do
      let eleCount := m.line * m.column
      let m ← (List.range eleCount.toNat).foldlM (fun m i => do
        let l ← left.load i
        let r ← right.load i
        m.store i (addfn.getD calcAdd l r)) m
      some (some m)

/-- `matrix2d_index2line`. -/
def index2line (m : Matrix2d) (i : UInt32) : UInt32 := i / m.column

/-- `matrix2d_index2column`. -/
def index2column (m : Matrix2d) (i : UInt32) : UInt32 := i % m.column

/-- The two queries of the inner loop of `matrix2d_mul`: their statuses, and the variables
`ele_left` and `ele_right`. -/
def mulQueries (left right m : Matrix2d) (i j : UInt32) (eleLeft eleRight : Ele) :
    Option ((Int × Ele) × (Int × Ele)) := do
  let l ← queryElement left (index2line m i) j eleLeft
  let r ← queryElement right j (index2column m i) eleRight
  some (l, r)

/-- The body of the inner loop of `matrix2d_mul`; nothing looks at the statuses. -/
def mulStep (left right : Matrix2d) (mulfn addfn : Option (Ele → Ele → Ele)) (i : Nat)
    (s : Matrix2d × Ele × Ele) (j : Nat) : Option (Matrix2d × Ele × Ele) := do
  let (m, eleLeft, eleRight) := s
  let ((_, eleLeft), (_, eleRight)) ←
    mulQueries left right m (UInt32.ofNat i) (UInt32.ofNat j) eleLeft eleRight
  let middle := mulfn.getD calcMul eleLeft eleRight
  let ele ← m.load i
  let m ← m.store i (addfn.getD calcAdd ele middle)
  some (m, eleLeft, eleRight)

/-- `matrix2d_mul`; `stack` is in `ele_left` and `ele_right` before something is written there. -/
def mul (malloc : Nat → Bool) (stack : Ele × Ele) (left right : Matrix2d)
    (mulfn addfn : Option (Ele → Ele → Ele)) : Option (Option Matrix2d) :=
  if left.column ≠ right.line then some none
  else
    match alloc malloc left.line left.column with
    | none => some none
    | some m => do
      let eleCount := m.line * m.column
      let (m, _) ← (List.range eleCount.toNat).foldlM (fun s i =>
        (List.range left.column.toNat).foldlM (mulStep left right mulfn addfn i) s) (m, stack)
      some (some m)

/-- `matrix2d_scalar_mul`, which does not use its last argument. -/
def scalarMul (malloc : Nat → Bool) (left : Matrix2d) (scalar : Ele)
    (_mulfn : Option (Ele → Ele → Ele)) : Option (Option Matrix2d) :=
  if 0 = left.line ∨ 0 = left.column then some none
  else
    match alloc malloc left.line left.column with
    | none => some none
    | some m => do
      let eleCount := m.line * m.column
      let m ← (List.range eleCount.toNat).foldlM (fun m i => do
        let l ← left.load i
        m.store i (l * scalar)) m
      some (some m)

/-- The body of the inner loop of `matrix2d_transport`, with `off`. -/
def transportStep (src : Matrix2d) (i : Nat) (s : Matrix2d × UInt32) (j : Nat) :
    Option (Matrix2d × UInt32) := do
  let (m, off) := s
  let ele ← src.load (UInt32.ofNat j * src.column + UInt32.ofNat i).toNat
  let m ← m.store off.toNat ele
  some (m, off + 1)

/-- `matrix2d_transport`. -/
def transport (malloc : Nat → Bool) (src : Matrix2d) : Option (Option Matrix2d) :=
  match alloc malloc src.column src.line with
  | none => some none
  | some m => do
    let (m, _) ← (List.range src.column.toNat).foldlM (fun s i =>
      (List.range src.line.toNat).foldlM (transportStep src i) s) (m, 0)
    some (some m)

/-- `matrix2d_make_identity`. -/
def makeIdentity (malloc : Nat → Bool) (scale : UInt32) : Option (Option Matrix2d) :=
  if 0 = scale then some none
  else
    match alloc malloc scale scale with
    | none => some none
    | some m => do
      let m ← (List.range scale.toNat).foldlM (fun m i =>
        m.store (UInt32.ofNat i * scale + UInt32.ofNat i).toNat 1) m
      some (some m)

end Matrix2d

end LibNax
