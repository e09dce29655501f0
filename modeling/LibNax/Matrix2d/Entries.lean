import LibNax.Lib.RowMajor
import LibNax.Matrix2d.Operations

/-!
# The entries of a matrix

What the functions that give a matrix write into it, for matrices whose number of elements does not
leave 32 bits.

* `entry` — the entry of a line and a column; `ext_entry` — a matrix is its entries.
* `Yields` — the result is a matrix, with given entries.
* `yields_add`, `yields_scalarMul`, `yields_transport`, `yields_makeIdentity` — the functions.

A loop is treated by its invariant: what was written so far, and that the rest is as it was.
-/

set_option autoImplicit false

namespace LibNax

namespace Matrix2d

/-- The number of elements does not leave 32 bits. -/
def Fits (line column : UInt32) : Prop := line.toNat * column.toNat < 2 ^ 32

/-- The entry of a line and a column. -/
def entry (m : Matrix2d) (i j : Nat) : Ele := m.field.getD (i * m.column.toNat + j) 0

/-! ## Positions -/

section Positions

variable {m : Matrix2d} {i j : Nat}

theorem toNat_mul_of_fits {line column : UInt32} (h : Fits line column) :
    (line * column).toNat = line.toNat * column.toNat := by
  rw [UInt32.toNat_mul, Nat.mod_eq_of_lt h]

/-- The elements that were allocated are as many as there are entries. -/
theorem length_of_fits (h : Fits m.line m.column) :
    m.field.length = m.line.toNat * m.column.toNat := by
  rw [m.length_field, toNat_mul_of_fits h]

theorem toNat_mul_add {i c j : UInt32} (h : i.toNat * c.toNat + j.toNat < 2 ^ 32) :
    (i * c + j).toNat = i.toNat * c.toNat + j.toNat := by
  rw [UInt32.toNat_add, UInt32.toNat_mul, Nat.mod_add_mod, Nat.mod_eq_of_lt h]

theorem toNat_ofNat_of_lt {a : Nat} {b : UInt32} (h : a < b.toNat) : (UInt32.ofNat a).toNat = a :=
  UInt32.toNat_ofNat_of_lt' (h.trans b.toNat_lt)

/-- The position of an entry, as the functions compute it. -/
theorem toNat_position {line column : UInt32} (h : Fits line column) {i j : UInt32}
    (hi : i.toNat < line.toNat) (hj : j.toNat < column.toNat) :
    (i * column + j).toNat = i.toNat * column.toNat + j.toNat :=
  toNat_mul_add ((Lib.rowMajor_lt hi hj).trans h)

theorem load_eq {p : Nat} (h : p < m.field.length) : m.load p = some (m.field.getD p 0) := by
  rw [load, List.getD_eq_getElem?_getD, List.getElem?_eq_getElem h, Option.getD_some]

theorem load_entry (h : Fits m.line m.column) (hi : i < m.line.toNat) (hj : j < m.column.toNat) :
    m.load (i * m.column.toNat + j) = some (m.entry i j) := by
  have hlt : i * m.column.toNat + j < m.field.length := by
    rw [length_of_fits h]
    exact Lib.rowMajor_lt hi hj
  exact load_eq hlt

/-- A matrix is its entries. -/
theorem ext_entry {a b : Matrix2d} (h : Fits a.line a.column) (hline : a.line = b.line)
    (hcolumn : a.column = b.column)
    (hentry : ∀ i < a.line.toNat, ∀ j < a.column.toNat, a.entry i j = b.entry i j) : a = b := by
  have hfits : Fits b.line b.column := by rwa [hline, hcolumn] at h
  refine Matrix2d.ext hcolumn hline (Lib.ext_rowMajor (length_of_fits h) ?_ ?_)
  · rw [length_of_fits hfits, hline, hcolumn]
  · intro i hi j hj
    have ha := load_entry h hi hj
    have hb := load_entry (m := b) hfits (hline ▸ hi) (hcolumn ▸ hj)
    rw [load] at ha hb
    rw [ha, hcolumn, hb, hentry i hi j hj]

end Positions

/-! ## Reading and writing -/

theorem exists_store {m : Matrix2d} {loc : Nat} (h : loc < m.field.length) (ele : Ele) :
    ∃ m', m.store loc ele = some m' ∧ m'.line = m.line ∧ m'.column = m.column ∧
      m'.field = m.field.set loc ele :=
  ⟨_, if_pos h, rfl, rfl, rfl⟩

/-- What was allocated: zeros. -/
theorem alloc_eq_some {malloc : Nat → Bool} {line column : UInt32} {m : Matrix2d}
    (h : alloc malloc line column = some m) : m.line = line ∧ m.column = column ∧
      m.field = List.replicate (line * column).toNat 0 := by
  rw [alloc] at h
  split at h
  · cases h
  · dsimp only at h
    split at h
    · cases h
      exact ⟨rfl, rfl, rfl⟩
    · cases h

theorem exists_alloc {malloc : Nat → Bool} (hmalloc : ∀ n, malloc n = true) {line column : UInt32}
    (hline : line ≠ 0) (hcolumn : column ≠ 0) : ∃ m, alloc malloc line column = some m := by
  have hzero : ¬ (0 = column ∨ 0 = line) := by
    rintro (rfl | rfl)
    · exact hcolumn rfl
    · exact hline rfl
  rw [alloc, dif_neg hzero]
  exact ⟨_, if_pos (hmalloc _)⟩

/-- The loops that write one element after the other: each step may look at the element that it
writes, since that is still as it was. -/
theorem foldlM_store {m : Matrix2d} {step : Matrix2d → Nat → Option Matrix2d} {value : Nat → Ele}
    {n : Nat} (hn : n ≤ m.field.length)
    (hstep : ∀ (m' : Matrix2d) (i : Nat), i < n → m'.line = m.line → m'.column = m.column →
      m'.field[i]? = m.field[i]? → step m' i = m'.store i (value i)) :
    ∃ m', (List.range n).foldlM step m = some m' ∧ m'.line = m.line ∧ m'.column = m.column ∧
      ∀ p < n, m'.field[p]? = some (value p) := by
  have hrun := Lib.foldlM_range (n := n) step (fun i (m' : Matrix2d) =>
    m'.line = m.line ∧ m'.column = m.column ∧ m'.field.length = m.field.length ∧
      (∀ p < i, m'.field[p]? = some (value p)) ∧ ∀ p, i ≤ p → m'.field[p]? = m.field[p]?) ?_ m
    ⟨rfl, rfl, rfl, by simp, fun p _ => rfl⟩
  · obtain ⟨m', hrun, hline, hcolumn, -, hwritten, -⟩ := hrun
    exact ⟨m', hrun, hline, hcolumn, hwritten⟩
  · rintro i m' hi ⟨hline, hcolumn, hlen, hwritten, hrest⟩
    have hlt : i < m'.field.length := by omega
    obtain ⟨m₁, hstore, hline₁, hcolumn₁, hfield₁⟩ := exists_store hlt (value i)
    refine ⟨m₁, (hstep m' i hi hline hcolumn (hrest i (Nat.le_refl i))).trans hstore,
      hline₁.trans hline, hcolumn₁.trans hcolumn, by rw [hfield₁, List.length_set, hlen], ?_, ?_⟩
    · intro p hp
      rw [hfield₁, List.getElem?_set]
      split
      · rename_i heq
        rw [heq]
      · exact hwritten p (by omega)
    · intro p hp
      rw [hfield₁, List.getElem?_set_ne (by omega)]
      exact hrest p (by omega)

/-! ## The functions -/

/-- The result is a matrix, with these entries. -/
def Yields (r : Option (Option Matrix2d)) (line column : UInt32) (e : Nat → Nat → Ele) : Prop :=
  ∃ m, r = some (some m) ∧ m.line = line ∧ m.column = column ∧
    ∀ i < line.toNat, ∀ j < column.toNat, m.entry i j = e i j

theorem Yields.congr {r : Option (Option Matrix2d)} {line column : UInt32}
    {e e' : Nat → Nat → Ele} (h : Yields r line column e)
    (heq : ∀ i < line.toNat, ∀ j < column.toNat, e i j = e' i j) : Yields r line column e' := by
  obtain ⟨m, hr, hline, hcolumn, hentry⟩ := h
  exact ⟨m, hr, hline, hcolumn, fun i hi j hj => (hentry i hi j hj).trans (heq i hi j hj)⟩

theorem entry_of_written {m : Matrix2d} {line column : UInt32} {value : Nat → Ele}
    (hcolumn : m.column = column)
    (h : ∀ p < line.toNat * column.toNat, m.field[p]? = some (value p)) {i j : Nat}
    (hi : i < line.toNat) (hj : j < column.toNat) :
    m.entry i j = value (i * column.toNat + j) := by
  rw [entry, hcolumn, List.getD_eq_getElem?_getD, h _ (Lib.rowMajor_lt hi hj), Option.getD_some]

/-- A loop over all elements of the matrix that was allocated. -/
theorem yields_of_foldlM {malloc : Nat → Bool} {line column : UInt32} {m : Matrix2d}
    {step : Matrix2d → Nat → Option Matrix2d} (value : Nat → Ele) (hfits : Fits line column)
    (halloc : alloc malloc line column = some m)
    (hstep : ∀ (m' : Matrix2d) (i : Nat), i < line.toNat * column.toNat → m'.line = line →
      m'.column = column → m'.load i = some 0 → step m' i = m'.store i (value i)) :
    Yields ((List.range (m.line * m.column).toNat).foldlM step m >>= fun m => some (some m))
      line column fun i j => value (i * column.toNat + j) := by
  obtain ⟨hline, hcolumn, hfield⟩ := alloc_eq_some halloc
  have hcount : (m.line * m.column).toNat = line.toNat * column.toNat := by
    rw [hline, hcolumn, toNat_mul_of_fits hfits]
  have hlen : m.field.length = line.toNat * column.toNat := by
    rw [hfield, List.length_replicate, toNat_mul_of_fits hfits]
  rw [hcount]
  obtain ⟨m', hrun, hline', hcolumn', hwritten⟩ := foldlM_store (Nat.le_of_eq hlen.symm)
    fun m' i hi h h' hold => hstep m' i hi (h.trans hline) (h'.trans hcolumn) (by
      rw [load, hold, hfield, List.getElem?_replicate, if_pos]
      rwa [toNat_mul_of_fits hfits])
  refine ⟨m', by rw [hrun]; rfl, hline'.trans hline, hcolumn'.trans hcolumn, ?_⟩
  exact fun i hi j hj => entry_of_written (hcolumn'.trans hcolumn) hwritten hi hj

theorem yields_add {malloc : Nat → Bool} {left right m : Matrix2d}
    (addfn : Option (Ele → Ele → Ele)) (hfits : Fits left.line left.column)
    (hline : left.line = right.line) (hcolumn : left.column = right.column)
    (halloc : alloc malloc left.line left.column = some m) :
    Yields (add malloc left right addfn) left.line left.column
      fun i j => addfn.getD calcAdd (left.entry i j) (right.entry i j) := by
  have hright : Fits right.line right.column := by rwa [← hline, ← hcolumn]
  have hshape : ¬ (left.column ≠ right.column ∨ left.line ≠ right.line) := by simp [hline, hcolumn]
  rw [add, if_neg hshape, halloc]
  refine (yields_of_foldlM (fun p =>
    addfn.getD calcAdd (left.field.getD p 0) (right.field.getD p 0)) hfits halloc ?_).congr ?_
  · intro m' p hp _ _ _
    have hl := load_eq (m := left) (p := p) (by rwa [length_of_fits hfits])
    have hr := load_eq (m := right) (p := p) (by rwa [length_of_fits hright, ← hline, ← hcolumn])
    simp [hl, hr]
  · intro i _ j _
    rw [entry, entry, hcolumn]

theorem yields_scalarMul {malloc : Nat → Bool} {left m : Matrix2d} (scalar : Ele)
    (mulfn : Option (Ele → Ele → Ele)) (hfits : Fits left.line left.column)
    (halloc : alloc malloc left.line left.column = some m) :
    Yields (scalarMul malloc left scalar mulfn) left.line left.column
      fun i j => left.entry i j * scalar := by
  have hnonzero : ¬ (0 = left.line ∨ 0 = left.column) :=
    not_or.mpr ⟨left.line_ne.symm, left.column_ne.symm⟩
  rw [scalarMul, if_neg hnonzero, halloc]
  refine yields_of_foldlM (fun p => left.field.getD p 0 * scalar) hfits halloc ?_
  intro m' p hp _ _ _
  have hl := load_eq (m := left) (p := p) (by rwa [length_of_fits hfits])
  simp [hl]

/-- The inner loop of `matrix2d_transport` writes a line. -/
theorem transport_line {src m : Matrix2d} {off : UInt32} {i : Nat} (hi : i < src.column.toNat)
    (hfits : Fits src.line src.column) (hline : m.line = src.column) (hcolumn : m.column = src.line)
    (hoff : off.toNat = i * src.line.toNat) :
    ∃ m' off', (List.range src.line.toNat).foldlM (transportStep src i) (m, off) =
      some (m', off') ∧ m'.line = src.column ∧ m'.column = src.line ∧
      off'.toNat = (i + 1) * src.line.toNat ∧
      (∀ p < i * src.line.toNat, m'.field[p]? = m.field[p]?) ∧
      ∀ j < src.line.toNat, m'.field[i * src.line.toNat + j]? = some (src.entry j i) := by
  have hfits' : src.column.toNat * src.line.toNat < 2 ^ 32 := by
    rw [Nat.mul_comm]
    exact hfits
  have hrun := Lib.foldlM_range (n := src.line.toNat) (transportStep src i)
    (fun j (s : Matrix2d × UInt32) => s.1.line = src.column ∧ s.1.column = src.line ∧
      s.2.toNat = i * src.line.toNat + j ∧
      (∀ p < i * src.line.toNat, s.1.field[p]? = m.field[p]?) ∧
      ∀ k < j, s.1.field[i * src.line.toNat + k]? = some (src.entry k i)) ?_ (m, off)
    ⟨hline, hcolumn, hoff, fun p _ => rfl, by simp⟩
  · obtain ⟨⟨m', off'⟩, hrun, hline', hcolumn', hoff', hbefore, hwritten⟩ := hrun
    exact ⟨m', off', hrun, hline', hcolumn', by rw [hoff', Nat.succ_mul], hbefore, hwritten⟩
  · rintro j ⟨m₁, off₁⟩ hj ⟨hline₁, hcolumn₁, hoff₁, hbefore, hwritten⟩
    dsimp only at hline₁ hcolumn₁ hoff₁ hbefore hwritten
    have hpos : i * src.line.toNat + j < src.column.toNat * src.line.toNat := Lib.rowMajor_lt hi hj
    have hload : src.load (UInt32.ofNat j * src.column + UInt32.ofNat i).toNat =
        some (src.entry j i) := by
      have hj' := toNat_ofNat_of_lt hj
      have hi' := toNat_ofNat_of_lt hi
      rw [toNat_position hfits (by rwa [hj']) (by rwa [hi']), hj', hi']
      exact load_entry hfits hj hi
    have hlen : m₁.field.length = src.column.toNat * src.line.toNat := by
      rw [length_of_fits (by rwa [Fits, hline₁, hcolumn₁]), hline₁, hcolumn₁]
    have hlt : off₁.toNat < m₁.field.length := by omega
    obtain ⟨m₂, hstore, hline₂, hcolumn₂, hfield₂⟩ := exists_store hlt (src.entry j i)
    have hstep : transportStep src i (m₁, off₁) j = some (m₂, off₁ + 1) := by
      simp only [transportStep, hload, hstore, Option.bind_eq_bind, Option.bind_some]
    refine ⟨(m₂, off₁ + 1), hstep, hline₂.trans hline₁, hcolumn₂.trans hcolumn₁, ?_, ?_, ?_⟩
    · rw [UInt32.toNat_add, hoff₁]
      exact Nat.mod_eq_of_lt (show i * src.line.toNat + j + 1 < 2 ^ 32 by omega)
    · intro p hp
      dsimp only
      rw [hfield₂, List.getElem?_set_ne (by omega)]
      exact hbefore p hp
    · intro k hk
      dsimp only
      rw [hfield₂, List.getElem?_set]
      split
      · rename_i heq
        have hkj : k = j := by omega
        rw [hkj]
      · exact hwritten k (by omega)

theorem yields_transport {malloc : Nat → Bool} {src m : Matrix2d}
    (hfits : Fits src.line src.column) (halloc : alloc malloc src.column src.line = some m) :
    Yields (transport malloc src) src.column src.line fun i j => src.entry j i := by
  obtain ⟨hline, hcolumn, -⟩ := alloc_eq_some halloc
  rw [transport, halloc]
  have hrun := Lib.foldlM_range (n := src.column.toNat)
    (fun s i => (List.range src.line.toNat).foldlM (transportStep src i) s)
    (fun i (s : Matrix2d × UInt32) => s.1.line = src.column ∧ s.1.column = src.line ∧
      s.2.toNat = i * src.line.toNat ∧ ∀ i' < i, ∀ j < src.line.toNat,
        s.1.field[i' * src.line.toNat + j]? = some (src.entry j i')) ?_ (m, 0)
    ⟨hline, hcolumn, by simp, by simp⟩
  · obtain ⟨⟨m', off⟩, hrun, hline', hcolumn', -, hwritten⟩ := hrun
    refine ⟨m', by simp only [hrun, Option.bind_eq_bind, Option.bind_some], hline', hcolumn', ?_⟩
    intro i hi j hj
    dsimp only at hcolumn' hwritten
    rw [entry, hcolumn', List.getD_eq_getElem?_getD, hwritten i hi j hj, Option.getD_some]
  · rintro i ⟨m₁, off₁⟩ hi ⟨hline₁, hcolumn₁, hoff₁, hwritten⟩
    obtain ⟨m₂, off₂, hstep, hline₂, hcolumn₂, hoff₂, hbefore, hline⟩ :=
      transport_line hi hfits hline₁ hcolumn₁ hoff₁
    refine ⟨(m₂, off₂), hstep, hline₂, hcolumn₂, hoff₂, fun i' hi' j hj => ?_⟩
    rcases Nat.lt_succ_iff_lt_or_eq.mp hi' with hlt | rfl
    · rw [hbefore _ (Lib.rowMajor_lt hlt hj)]
      exact hwritten i' hlt j hj
    · exact hline j hj

theorem yields_makeIdentity {malloc : Nat → Bool} {scale : UInt32} {m : Matrix2d}
    (hfits : Fits scale scale) (halloc : alloc malloc scale scale = some m) :
    Yields (makeIdentity malloc scale) scale scale fun i j => if i = j then 1 else 0 := by
  obtain ⟨hline, hcolumn, hfield⟩ := alloc_eq_some halloc
  have hnonzero : ¬ 0 = scale := fun h => m.line_ne (hline.trans h.symm)
  rw [makeIdentity, if_neg hnonzero, halloc]
  have hrun := Lib.foldlM_range (n := scale.toNat)
    (fun m i => m.store (UInt32.ofNat i * scale + UInt32.ofNat i).toNat 1)
    (fun k (m' : Matrix2d) => m'.line = scale ∧ m'.column = scale ∧
      ∀ i < scale.toNat, ∀ j < scale.toNat, m'.field[i * scale.toNat + j]? =
        some (if i = j ∧ i < k then 1 else 0)) ?_ m ⟨hline, hcolumn, ?_⟩
  · obtain ⟨m', hrun, hline', hcolumn', hwritten⟩ := hrun
    refine ⟨m', by simp only [hrun, Option.bind_eq_bind, Option.bind_some], hline', hcolumn', ?_⟩
    intro i hi j hj
    simp [entry, hcolumn', List.getD_eq_getElem?_getD, hwritten i hi j hj, hi]
  · rintro k m₁ hk ⟨hline₁, hcolumn₁, hwritten⟩
    have hk' := toNat_ofNat_of_lt hk
    have hpos : (UInt32.ofNat k * scale + UInt32.ofNat k).toNat = k * scale.toNat + k := by
      rw [toNat_position hfits (by rwa [hk']) (by rwa [hk']), hk']
    have hlt : k * scale.toNat + k < m₁.field.length := by
      rw [length_of_fits (by rwa [hline₁, hcolumn₁]), hline₁, hcolumn₁]
      exact Lib.rowMajor_lt hk hk
    obtain ⟨m₂, hstore, hline₂, hcolumn₂, hfield₂⟩ := exists_store hlt 1
    refine ⟨m₂, by rw [hpos, hstore], hline₂.trans hline₁, hcolumn₂.trans hcolumn₁, ?_⟩
    intro i hi j hj
    rw [hfield₂, List.getElem?_set, hwritten i hi j hj]
    split
    · rename_i heq
      -- a position is one of one entry only
      have hi' : k = i := by rw [← Lib.rowMajor_div hk (i := k), heq, Lib.rowMajor_div hj]
      have hj' : k = j := by
        rw [← Nat.mul_add_mod_of_lt (a := k) hk, heq, Nat.mul_add_mod_of_lt hj]
      rw [if_pos ⟨hi'.symm.trans hj', by omega⟩]
    · rename_i hne
      have hsame : (i = j ∧ i < k + 1) ↔ (i = j ∧ i < k) := by
        constructor
        · rintro ⟨rfl, hik⟩
          refine ⟨rfl, Nat.lt_of_le_of_ne (Nat.le_of_lt_succ hik) ?_⟩
          rintro rfl
          exact hne rfl
        · exact fun h => ⟨h.1, Nat.lt_succ_of_lt h.2⟩
      simp only [hsame]
  · intro i hi j hj
    rw [hfield, List.getElem?_replicate, if_pos]
    · simp
    · rw [toNat_mul_of_fits hfits]
      exact Lib.rowMajor_lt hi hj

end Matrix2d

end LibNax
