import Mathlib.Data.BitVec
import Mathlib.LinearAlgebra.Matrix.Notation
import LibNax.Matrix2d.Transport

/-!
# Multiplication

`matrix2d_mul` gives its result the columns of the left factor.

* `sumOfProducts` — an entry of a product, with the functions of the caller.
* `yields_mul` — what is computed where the right factor has as many columns as the left one.
* `Multiplies` — the product of matrices; `IdentityRight`, `IdentityLeft` — the identity.
* `multiplies_iff` — the functions multiply exactly where the right factor has as many columns as
  the left one.
-/

set_option autoImplicit false

namespace LibNax

namespace Matrix2d

/-! ## The loops -/

/-- An entry of a product: the fold from `0` on. -/
def sumOfProducts (mulfn addfn : Option (Ele → Ele → Ele)) (left right : Matrix2d) (n i j : Nat) :
    Ele :=
  (List.range n).foldl
    (fun ele t => addfn.getD calcAdd ele (mulfn.getD calcMul (left.entry i t) (right.entry t j))) 0

theorem sumOfProducts_succ (mulfn addfn : Option (Ele → Ele → Ele)) (left right : Matrix2d)
    (n i j : Nat) : sumOfProducts mulfn addfn left right (n + 1) i j =
      addfn.getD calcAdd (sumOfProducts mulfn addfn left right n i j)
        (mulfn.getD calcMul (left.entry i n) (right.entry n j)) := by
  rw [sumOfProducts, List.range_succ, List.foldl_append]
  rfl

section Loops

variable {left right : Matrix2d}

/-- Where the right factor has as many columns as the left one, both queries of the inner loop
succeed. -/
theorem mulQueries_eq (hfits : Fits left.line left.column) (hfits' : Fits right.line right.column)
    (hshape : left.column = right.line) (hsquare : right.column = left.column) {m : Matrix2d}
    (hcolumn : m.column = left.column) {i j : Nat}
    (hi : i < left.line.toNat * left.column.toNat) (hj : j < left.column.toNat)
    (eleLeft eleRight : Ele) :
    mulQueries left right m (UInt32.ofNat i) (UInt32.ofNat j) eleLeft eleRight =
      some ((0, left.entry (i / left.column.toNat) j),
        (0, right.entry j (i % left.column.toNat))) := by
  have hi' : (UInt32.ofNat i).toNat = i := UInt32.toNat_ofNat_of_lt' (hi.trans hfits)
  have hj' := toNat_ofNat_of_lt hj
  have hline : (index2line m (UInt32.ofNat i)).toNat = i / left.column.toNat := by
    rw [index2line, hcolumn, UInt32.toNat_div, hi']
  have hmod : (index2column m (UInt32.ofNat i)).toNat = i % left.column.toNat := by
    rw [index2column, hcolumn, UInt32.toNat_mod, hi']
  have hline_lt : index2line m (UInt32.ofNat i) < left.line := by
    rw [UInt32.lt_iff_toNat_lt, hline]
    exact Lib.div_lt_of_lt_rowMajor hi
  have hcolumn_lt : index2column m (UInt32.ofNat i) < right.column := by
    rw [UInt32.lt_iff_toNat_lt, hmod, hsquare]
    exact Nat.mod_lt _ (by omega)
  have hj_lt : UInt32.ofNat j < left.column := by rwa [UInt32.lt_iff_toNat_lt, hj']
  have hleft := queryElement_of_lt hfits eleLeft hline_lt hj_lt
  have hright := queryElement_of_lt hfits' eleRight (hshape ▸ hj_lt) hcolumn_lt
  rw [mulQueries, hleft, hright, hline, hmod, hj']
  rfl

/-- The inner loop of `matrix2d_mul` sums up one element. -/
theorem mul_element (mulfn addfn : Option (Ele → Ele → Ele)) (hfits : Fits left.line left.column)
    (hfits' : Fits right.line right.column) (hshape : left.column = right.line)
    (hsquare : right.column = left.column) {m : Matrix2d} (hline : m.line = left.line)
    (hcolumn : m.column = left.column) (stack : Ele × Ele) {i : Nat}
    (hi : i < left.line.toNat * left.column.toNat) (hzero : m.field[i]? = some 0) :
    ∃ m' stack', (List.range left.column.toNat).foldlM (mulStep left right mulfn addfn i)
        (m, stack) = some (m', stack') ∧ m'.line = left.line ∧ m'.column = left.column ∧
      m'.field = m.field.set i (sumOfProducts mulfn addfn left right left.column.toNat
        (i / left.column.toNat) (i % left.column.toNat)) := by
  obtain ⟨hlen, hvalue⟩ := List.getElem?_eq_some_iff.mp hzero
  have hrun := Lib.foldlM_range (n := left.column.toNat) (mulStep left right mulfn addfn i)
    (fun j (s : Matrix2d × Ele × Ele) => s.1.line = left.line ∧ s.1.column = left.column ∧
      s.1.field = m.field.set i (sumOfProducts mulfn addfn left right j
        (i / left.column.toNat) (i % left.column.toNat))) ?_ (m, stack) ⟨hline, hcolumn, ?_⟩
  · obtain ⟨⟨m', stack'⟩, hrun, hinv⟩ := hrun
    exact ⟨m', stack', hrun, hinv⟩
  · rintro j ⟨m₁, eleLeft, eleRight⟩ hj ⟨hline₁, hcolumn₁, hfield₁⟩
    dsimp only at hline₁ hcolumn₁ hfield₁
    have hquery := mulQueries_eq hfits hfits' hshape hsquare hcolumn₁ hi hj eleLeft eleRight
    have hload : m₁.load i = some (sumOfProducts mulfn addfn left right j
        (i / left.column.toNat) (i % left.column.toNat)) := by
      rw [load, hfield₁, List.getElem?_set_self hlen]
    have hlen₁ : i < m₁.field.length := by rwa [hfield₁, List.length_set]
    obtain ⟨m₂, hstore, hline₂, hcolumn₂, hfield₂⟩ := exists_store hlen₁
      (sumOfProducts mulfn addfn left right (j + 1)
        (i / left.column.toNat) (i % left.column.toNat))
    rw [sumOfProducts_succ] at hstore
    refine ⟨(m₂, left.entry (i / left.column.toNat) j, right.entry j (i % left.column.toNat)), ?_,
      hline₂.trans hline₁, hcolumn₂.trans hcolumn₁, ?_⟩
    · simp only [mulStep, hquery, hload, hstore, Option.bind_eq_bind, Option.bind_some]
    · rw [hfield₂, hfield₁, List.set_set]
  · have hself := List.set_getElem_self hlen
    rw [hvalue] at hself
    exact hself.symm

/-- **What `matrix2d_mul` computes where the right factor has as many columns as the left one.** -/
theorem yields_mul {malloc : Nat → Bool} (hmalloc : ∀ n, malloc n = true) (stack : Ele × Ele)
    (mulfn addfn : Option (Ele → Ele → Ele)) (hfits : Fits left.line left.column)
    (hfits' : Fits right.line right.column) (hshape : left.column = right.line)
    (hsquare : right.column = left.column) :
    Yields (mul malloc stack left right mulfn addfn) left.line right.column
      (sumOfProducts mulfn addfn left right left.column.toNat) := by
  obtain ⟨m, halloc⟩ := exists_alloc hmalloc left.line_ne left.column_ne
  obtain ⟨hline, hcolumn, hfield⟩ := alloc_eq_some halloc
  have hcount : (m.line * m.column).toNat = left.line.toNat * left.column.toNat := by
    rw [hline, hcolumn, toNat_mul_of_fits hfits]
  rw [mul, if_neg (by simp [hshape]), halloc]
  dsimp only
  rw [hcount]
  have hrun := Lib.foldlM_range (n := left.line.toNat * left.column.toNat)
    (fun s i => (List.range left.column.toNat).foldlM (mulStep left right mulfn addfn i) s)
    (fun i (s : Matrix2d × Ele × Ele) => s.1.line = left.line ∧ s.1.column = left.column ∧
      ∀ p < left.line.toNat * left.column.toNat, s.1.field[p]? = some (if p < i then
        sumOfProducts mulfn addfn left right left.column.toNat (p / left.column.toNat)
          (p % left.column.toNat) else 0)) ?_ (m, stack) ⟨hline, hcolumn, ?_⟩
  · obtain ⟨⟨m', stack'⟩, hrun, hline', hcolumn', hwritten⟩ := hrun
    refine ⟨m', by simp only [hrun, Option.bind_eq_bind, Option.bind_some], hline',
      hcolumn'.trans hsquare.symm, fun i hi j hj => ?_⟩
    rw [hsquare] at hj
    have hpos := Lib.rowMajor_lt hi hj
    dsimp only at hcolumn' hwritten
    rw [entry, hcolumn', List.getD_eq_getElem?_getD, hwritten _ hpos, if_pos hpos, Option.getD_some,
      Lib.rowMajor_div hj, Nat.mul_add_mod_of_lt hj]
  · rintro i ⟨m₁, stack₁⟩ hi ⟨hline₁, hcolumn₁, hwritten⟩
    have hzero := hwritten i hi
    rw [if_neg (Nat.lt_irrefl i)] at hzero
    obtain ⟨m₂, stack₂, hstep, hline₂, hcolumn₂, hfield₂⟩ :=
      mul_element mulfn addfn hfits hfits' hshape hsquare hline₁ hcolumn₁ stack₁ hi hzero
    refine ⟨(m₂, stack₂), hstep, hline₂, hcolumn₂, fun p hp => ?_⟩
    dsimp only at hwritten ⊢
    rw [hfield₂, List.getElem?_set, hwritten p hp]
    split
    · rename_i heq
      rw [← heq, if_pos (Nat.lt_succ_self i), if_pos (List.getElem?_eq_some_iff.mp hzero).1]
    · rename_i hne
      have hsame : p < i + 1 ↔ p < i := by omega
      simp only [hsame]
  · intro p hp
    rw [hfield, List.getElem?_replicate, if_pos (by rwa [toNat_mul_of_fits hfits]),
      if_neg (Nat.not_lt_zero p)]

theorem store_column {m m' : Matrix2d} {loc : Nat} {ele : Ele} (h : m.store loc ele = some m') :
    m'.column = m.column := by
  rw [store] at h
  split at h
  · cases h
    rfl
  · cases h

theorem mulStep_column {mulfn addfn : Option (Ele → Ele → Ele)} {i j : Nat}
    {s s' : Matrix2d × Ele × Ele} (h : mulStep left right mulfn addfn i s j = some s') :
    s'.1.column = s.1.column := by
  obtain ⟨m, eleLeft, eleRight⟩ := s
  simp only [mulStep, Option.bind_eq_bind, Option.bind_eq_some_iff] at h
  obtain ⟨⟨⟨_, l⟩, _, r⟩, -, ele, -, m', hstore, h⟩ := h
  cases h
  exact store_column hstore

/-- The result has the columns of the left factor. -/
theorem mul_column {malloc : Nat → Bool} {stack : Ele × Ele}
    {mulfn addfn : Option (Ele → Ele → Ele)} {m : Matrix2d}
    (h : mul malloc stack left right mulfn addfn = some (some m)) : m.column = left.column := by
  rw [mul] at h
  split at h
  · cases h
  · rcases halloc : alloc malloc left.line left.column with _ | m₀
    · rw [halloc] at h
      cases h
    · obtain ⟨-, hcolumn, -⟩ := alloc_eq_some halloc
      simp only [halloc, Option.bind_eq_bind, Option.bind_eq_some_iff] at h
      obtain ⟨⟨m', stack'⟩, hrun, h⟩ := h
      cases h
      refine Lib.foldlM_keeps (P := fun s => s.1.column = left.column) ?_ _ _ _ hrun hcolumn
      intro s i s' hinner hs
      refine Lib.foldlM_keeps (P := fun s => s.1.column = left.column) ?_ _ _ _ hinner hs
      exact fun s j s' hstep hs => (mulStep_column hstep).trans hs

end Loops

/-! ## The product -/

/-- A matrix as one of mathematics. -/
def matrix (m : Matrix2d) (l c : Nat) : Matrix (Fin l) (Fin c) Ele := fun i j => m.entry i j

/-- `matrix2d_mul` is the multiplication of matrices. -/
structure Multiplies (malloc : Nat → Bool) (left right : Matrix2d) : Prop where
  /-- Without functions of the caller, the result is the product. -/
  product : ∀ stack, ∃ m, mul malloc stack left right none none = some (some m) ∧
    m.line = left.line ∧ m.column = right.column ∧
      m.matrix left.line.toNat right.column.toNat =
        left.matrix left.line.toNat left.column.toNat *
          right.matrix left.column.toNat right.column.toNat
  /-- With them, it is the fold. -/
  fold : ∀ stack mulfn addfn, Yields (mul malloc stack left right mulfn addfn)
      left.line right.column
    (sumOfProducts mulfn addfn left right left.column.toNat)
  /-- Every query of the loops has the status `0`. -/
  queries : ∀ m, alloc malloc left.line left.column = some m → ∀ i < (m.line * m.column).toNat,
    ∀ j < left.column.toNat, ∀ eleLeft eleRight, ∃ l r,
      mulQueries left right m (UInt32.ofNat i) (UInt32.ofNat j) eleLeft eleRight =
        some ((0, l), (0, r))

/-- The identity on the right gives the matrix back. -/
def IdentityRight (malloc : Nat → Bool) (m : Matrix2d) : Prop :=
  ∃ id, makeIdentity malloc m.column = some (some id) ∧
    ∀ stack, mul malloc stack m id none none = some (some m)

/-- The identity on the left gives the matrix back. -/
def IdentityLeft (malloc : Nat → Bool) (m : Matrix2d) : Prop :=
  ∃ id, makeIdentity malloc m.line = some (some id) ∧
    ∀ stack, mul malloc stack id m none none = some (some m)

theorem sumOfProducts_eq (left right : Matrix2d) (i j : Nat) : ∀ n : Nat,
    sumOfProducts none none left right n i j =
      ∑ t ∈ Finset.range n, left.entry i t * right.entry t j
  | 0 => rfl
  | n + 1 => by
    rw [sumOfProducts_succ, Finset.sum_range_succ, sumOfProducts_eq left right i j n]
    rfl

/-- The sum over the columns of the left factor. -/
theorem matrix_mul_apply (left right : Matrix2d) {l k c : Nat} (i : Fin l) (j : Fin c) :
    (left.matrix l k * right.matrix k c) i j = sumOfProducts none none left right k i j := by
  rw [Matrix.mul_apply, sumOfProducts_eq, Finset.sum_range]
  rfl

theorem multiplies_of_square {malloc : Nat → Bool} {left right : Matrix2d}
    (hmalloc : ∀ n, malloc n = true) (hfits : Fits left.line left.column)
    (hfits' : Fits right.line right.column) (hshape : left.column = right.line)
    (hsquare : right.column = left.column) : Multiplies malloc left right where
  product := fun stack => by
    obtain ⟨m, hm, hline, hcolumn, hentry⟩ :=
      yields_mul hmalloc stack none none hfits hfits' hshape hsquare
    refine ⟨m, hm, hline, hcolumn, Matrix.ext fun i j => ?_⟩
    rw [matrix_mul_apply]
    exact hentry i i.isLt j j.isLt
  fold := fun stack mulfn addfn => yields_mul hmalloc stack mulfn addfn hfits hfits' hshape hsquare
  queries := fun m halloc i hi j hj eleLeft eleRight => by
    obtain ⟨hline, hcolumn, -⟩ := alloc_eq_some halloc
    rw [hline, hcolumn, toNat_mul_of_fits hfits] at hi
    exact ⟨_, _, mulQueries_eq hfits hfits' hshape hsquare hcolumn hi hj eleLeft eleRight⟩

section Identity

variable {malloc : Nat → Bool} {m : Matrix2d}

/-- The identity is the identity. -/
theorem exists_makeIdentity (hmalloc : ∀ n, malloc n = true) {scale : UInt32}
    (hfits : Fits scale scale) (hscale : scale ≠ 0) :
    ∃ id, makeIdentity malloc scale = some (some id) ∧ id.line = scale ∧ id.column = scale ∧
      id.matrix scale.toNat scale.toNat = 1 := by
  obtain ⟨m, halloc⟩ := exists_alloc hmalloc hscale hscale
  obtain ⟨id, hid, hline, hcolumn, hentry⟩ := yields_makeIdentity hfits halloc
  refine ⟨id, hid, hline, hcolumn, Matrix.ext fun i j => ?_⟩
  rw [matrix, hentry i i.isLt j j.isLt, Matrix.one_apply]
  simp only [Fin.ext_iff]

theorem identityRight (hmalloc : ∀ n, malloc n = true) (hfits : Fits m.line m.column)
    (hsquare : Fits m.column m.column) : IdentityRight malloc m := by
  obtain ⟨id, hid, hline, hcolumn, hone⟩ := exists_makeIdentity hmalloc hsquare m.column_ne
  refine ⟨id, hid, fun stack => ?_⟩
  obtain ⟨p, hp, hpline, hpcolumn, hentry⟩ := yields_mul hmalloc stack none none hfits
    (by rwa [hline, hcolumn]) hline.symm hcolumn
  rw [hcolumn] at hpcolumn hentry
  have hsame : p = m := by
    refine ext_entry (by rwa [hpline, hpcolumn]) hpline hpcolumn fun i hi j hj => ?_
    rw [hpline] at hi
    rw [hpcolumn] at hj
    have hmul := matrix_mul_apply m id (k := m.column.toNat) (⟨i, hi⟩ : Fin m.line.toNat)
      (⟨j, hj⟩ : Fin m.column.toNat)
    rw [hone, Matrix.mul_one] at hmul
    exact (hentry i hi j hj).trans hmul.symm
  rw [hp, hsame]

theorem identityLeft_iff (hmalloc : ∀ n, malloc n = true) (hfits : Fits m.line m.column)
    (hsquare : Fits m.line m.line) : IdentityLeft malloc m ↔ m.column = m.line := by
  obtain ⟨id, hid, hline, hcolumn, hone⟩ := exists_makeIdentity hmalloc hsquare m.line_ne
  constructor
  · rintro ⟨id', hid', hmul⟩
    obtain rfl : id = id' := by simpa [hid] using hid'
    exact (mul_column (hmul (0, 0))).trans hcolumn
  · intro hshape
    refine ⟨id, hid, fun stack => ?_⟩
    have hfits₀ : Fits id.line id.column := by rwa [hline, hcolumn]
    obtain ⟨p, hp, hpline, hpcolumn, hentry⟩ := yields_mul hmalloc stack none none hfits₀ hfits
      hcolumn (hshape.trans hcolumn.symm)
    rw [hline] at hpline hentry
    rw [hcolumn] at hentry
    have hsame : p = m := by
      refine ext_entry (by rwa [hpline, hpcolumn]) hpline hpcolumn fun i hi j hj => ?_
      rw [hpline] at hi
      rw [hpcolumn] at hj
      have hmul := matrix_mul_apply id m (k := m.line.toNat) (⟨i, hi⟩ : Fin m.line.toNat)
        (⟨j, hj⟩ : Fin m.column.toNat)
      rw [hone, Matrix.one_mul] at hmul
      exact (hentry i hi j hj).trans hmul.symm
    rw [hp, hsame]

end Identity

/-- **`matrix2d_mul` is multiplication exactly where the right factor has as many columns as the
left one**: always for the identity on the right, and for the identity on the left where the matrix
has as many columns as lines. -/
theorem multiplies_iff {malloc : Nat → Bool} {left right : Matrix2d}
    (hmalloc : ∀ n, malloc n = true) (hshape : left.column = right.line)
    (hfits : left.line.toNat * left.column.toNat < 2 ^ 32)
    (hfits' : right.line.toNat * right.column.toNat < 2 ^ 32) :
    (Multiplies malloc left right ↔ right.column = left.column) ∧
      (left.column.toNat * left.column.toNat < 2 ^ 32 → IdentityRight malloc left) ∧
      (left.line.toNat * left.line.toNat < 2 ^ 32 →
        (IdentityLeft malloc left ↔ left.column = left.line)) := by
  refine ⟨⟨fun h => ?_, multiplies_of_square hmalloc hfits hfits' hshape⟩,
    identityRight hmalloc hfits, identityLeft_iff hmalloc hfits⟩
  obtain ⟨m, hm, -, hcolumn, -⟩ := h.product (0, 0)
  exact hcolumn.symm.trans (mul_column hm)

/-- A matrix of three lines and two columns. -/
def threeByTwo : Matrix2d where
  column := 2
  line := 3
  field := [1, 2, 3, 4, 5, 6]
  length_field := twoByThree.length_field
  column_ne := twoByThree.line_ne
  line_ne := twoByThree.column_ne

theorem identity_three_by_two :
    IdentityRight (fun _ => true) threeByTwo ∧ ¬ IdentityLeft (fun _ => true) threeByTwo := by
  obtain ⟨-, hright, hleft⟩ := multiplies_iff (fun _ => rfl)
    (show threeByTwo.column = twoByThree.line from rfl)
    (show threeByTwo.line.toNat * threeByTwo.column.toNat < 2 ^ 32 by decide) (by decide)
  exact ⟨hright (by decide), fun h => absurd ((hleft (by decide)).mp h) (by decide)⟩

/-- Three lines of two columns by two lines of three columns: the result has two columns. -/
theorem three_by_two_not_multiplied : ¬ Multiplies (fun _ => true) threeByTwo twoByThree := by
  intro h
  obtain ⟨m, hm, -, hcolumn, -⟩ := h.product (0, 0)
  have hgot : m.column = 2 := mul_column hm
  exact absurd (hcolumn.symm.trans hgot) (by decide)

end Matrix2d

end LibNax
