import Mathlib.Data.List.Nodup
import LibNax.Matrix2d.Entries

/-!
# Inside of the field

A matrix whose number of elements leaves 32 bits has a field for the rest of it only.

* `VisitsOnce` — an iterate function calls its iterator once for each element it is about.
* `Inside` — no function leaves the field of a matrix.
* `inside_of_fits` — so it is where the number of elements does not leave 32 bits.
* `obtained_inside_iff` — for what `matrix2d_alloc` gives, exactly then.
-/

set_option autoImplicit false

namespace LibNax

namespace Matrix2d

/-! ## Visits -/

section Visits

variable {σ : Type}

theorem exists_visit {m : Matrix2d} {loc : Nat} (h : loc < m.field.length)
    (iterator : Ele → Nat → σ → Ele × σ) (args : σ) :
    ∃ m' args', visit iterator (m, args) loc = some (m', args') ∧
      m'.field.length = m.field.length := by
  obtain ⟨m', hstore, -, -, hfield⟩ := exists_store h (iterator (m.field.getD loc 0) loc args).1
  refine ⟨m', (iterator (m.field.getD loc 0) loc args).2, ?_, by rw [hfield, List.length_set]⟩
  simp only [visit, load_eq h, hstore, Option.bind_eq_bind, Option.bind_some]

/-- Visits inside of the field succeed. -/
theorem isSome_foldlM_visit (iterator : Ele → Nat → σ → Ele × σ) (positions : List Nat) :
    ∀ (m : Matrix2d) (args : σ), (∀ p ∈ positions, p < m.field.length) →
      (positions.foldlM (visit iterator) (m, args)).isSome := by
  induction positions with
  | nil => exact fun _ _ _ => rfl
  | cons p positions ih =>
    intro m args h
    obtain ⟨m', args', hvisit, hlen⟩ := exists_visit (h p List.mem_cons_self) iterator args
    rw [List.foldlM_cons, hvisit]
    exact ih m' args' fun q hq => hlen ▸ h q (List.mem_cons_of_mem p hq)

/-- The positions of a loop over a range. -/
theorem foldlM_visit_range (iterator : Ele → Nat → σ → Ele × σ) (s : Matrix2d × σ) {n : Nat}
    {loc pos : Nat → Nat} (h : ∀ i < n, loc i = pos i) :
    (List.range n).foldlM (fun s i => visit iterator s (loc i)) s =
      ((List.range n).map pos).foldlM (visit iterator) s := by
  have hlocs : (List.range n).map pos = (List.range n).map loc :=
    List.map_congr_left fun i hi => (h i (List.mem_range.mp hi)).symm
  rw [hlocs, List.foldlM_map]

variable {m : Matrix2d}

theorem iterateElement_eq (hfits : Fits m.line m.column) (iterator : Ele → Nat → σ → Ele × σ)
    (args : σ) : iterateElement m iterator args =
      ((List.range (m.line.toNat * m.column.toNat)).map id).foldlM (visit iterator) (m, args) := by
  rw [iterateElement, UInt32.mul_comm, toNat_mul_of_fits hfits, List.map_id]

theorem iterateLine_eq (hfits : Fits m.line m.column) {line : UInt32} (hline : line < m.line)
    (iterator : Ele → Nat → σ → Ele × σ) (args : σ) : iterateLine m line iterator args =
      ((List.range m.column.toNat).map fun j => line.toNat * m.column.toNat + j).foldlM
        (visit iterator) (m, args) := by
  have hlt := UInt32.lt_iff_toNat_lt.mp hline
  rw [iterateLine, if_pos hline]
  refine foldlM_visit_range iterator (m, args) fun j hj => ?_
  have hj' := toNat_ofNat_of_lt hj
  rw [UInt32.mul_comm, toNat_position hfits hlt (by rwa [hj']), hj']

theorem iterateColumn_eq (hfits : Fits m.line m.column) {column : UInt32}
    (hcolumn : column < m.column) (iterator : Ele → Nat → σ → Ele × σ) (args : σ) :
    iterateColumn m column iterator args =
      ((List.range m.line.toNat).map fun i => i * m.column.toNat + column.toNat).foldlM
        (visit iterator) (m, args) := by
  have hlt := UInt32.lt_iff_toNat_lt.mp hcolumn
  rw [iterateColumn, if_pos hcolumn]
  refine foldlM_visit_range iterator (m, args) fun i hi => ?_
  have hi' := toNat_ofNat_of_lt hi
  rw [toNat_position hfits (by rwa [hi']) hlt, hi']

end Visits

/-- `run` calls its iterator for the positions with `P`, for each of them once, and leaves the field
for none of them. -/
def VisitsOnce (m : Matrix2d)
    (run : (σ : Type) → (Ele → Nat → σ → Ele × σ) → σ → Option (Matrix2d × σ))
    (P : Nat → Prop) : Prop :=
  ∃ positions : List Nat, positions.Nodup ∧ (∀ p, p ∈ positions ↔ P p) ∧
    ∀ (σ : Type) (iterator : Ele → Nat → σ → Ele × σ) (args : σ),
      run σ iterator args = positions.foldlM (visit iterator) (m, args) ∧
        (run σ iterator args).isSome

/-- A loop over a range, whose positions are different. -/
theorem visitsOnce_of_range {m : Matrix2d}
    {run : (σ : Type) → (Ele → Nat → σ → Ele × σ) → σ → Option (Matrix2d × σ)} {P : Nat → Prop}
    {n : Nat} {pos : Nat → Nat} (hdifferent : ∀ i j, pos i = pos j → i = j)
    (hin : ∀ i < n, pos i < m.field.length) (hP : ∀ p, P p ↔ ∃ i < n, pos i = p)
    (hrun : ∀ (σ : Type) (iterator : Ele → Nat → σ → Ele × σ) (args : σ), run σ iterator args =
      ((List.range n).map pos).foldlM (visit iterator) (m, args)) : VisitsOnce m run P := by
  refine ⟨(List.range n).map pos, List.nodup_range.map hdifferent, ?_, ?_⟩
  · intro p
    rw [hP p]
    simp
  · intro σ iterator args
    refine ⟨hrun σ iterator args, ?_⟩
    rw [hrun]
    refine isSome_foldlM_visit iterator _ m args ?_
    simpa using hin

/-- No call of the iterator. -/
theorem visitsOnce_none {m : Matrix2d}
    {run : (σ : Type) → (Ele → Nat → σ → Ele × σ) → σ → Option (Matrix2d × σ)} {P : Nat → Prop}
    (hP : ∀ p, ¬ P p)
    (hrun : ∀ (σ : Type) (iterator : Ele → Nat → σ → Ele × σ) (args : σ),
      run σ iterator args = some (m, args)) : VisitsOnce m run P := by
  refine ⟨[], List.nodup_nil, by simpa using hP, fun σ iterator args => ⟨hrun σ iterator args, ?_⟩⟩
  rw [hrun]
  rfl

/-! ## The functions -/

/-- No function leaves the field of the matrix, which has one element for each line and column. -/
structure Inside (m : Matrix2d) : Prop where
  field : m.field.length = m.line.toNat * m.column.toNat
  queryElement : ∀ line column output, (queryElement m line column output).isSome
  iterateElement : VisitsOnce m (fun _ => iterateElement m)
    fun p => p < m.line.toNat * m.column.toNat
  iterateLine : ∀ line, VisitsOnce m (fun _ => iterateLine m line)
    fun p => line < m.line ∧ ∃ j < m.column.toNat, line.toNat * m.column.toNat + j = p
  iterateColumn : ∀ column, VisitsOnce m (fun _ => iterateColumn m column)
    fun p => column < m.column ∧ ∃ i < m.line.toNat, i * m.column.toNat + column.toNat = p
  add : ∀ malloc right addfn, (add malloc m right addfn).isSome ∧ (add malloc right m addfn).isSome
  scalarMul : ∀ malloc scalar mulfn, (scalarMul malloc m scalar mulfn).isSome
  transport : ∀ malloc, (transport malloc m).isSome
  makeIdentity : ∀ malloc, m.line = m.column → (makeIdentity malloc m.line).isSome

theorem Yields.isSome {r : Option (Option Matrix2d)} {line column : UInt32}
    {e : Nat → Nat → Ele} (h : Yields r line column e) : r.isSome := by
  obtain ⟨m, rfl, -⟩ := h
  rfl

section Fits

variable {m : Matrix2d}

theorem queryElement_of_lt (hfits : Fits m.line m.column) {line column : UInt32} (output : Ele)
    (hline : line < m.line) (hcolumn : column < m.column) :
    queryElement m line column output = some (0, m.entry line.toNat column.toNat) := by
  rw [UInt32.lt_iff_toNat_lt] at hline hcolumn
  have hin : ¬ (column ≥ m.column ∨ line ≥ m.line) := by
    simp only [ge_iff_le, UInt32.le_iff_toNat_le]
    omega
  rw [queryElement, if_neg hin, toNat_position hfits hline hcolumn, load_entry hfits hline hcolumn]
  rfl

theorem isSome_queryElement (hfits : Fits m.line m.column) (line column : UInt32) (output : Ele) :
    (queryElement m line column output).isSome := by
  by_cases hout : column ≥ m.column ∨ line ≥ m.line
  · rw [queryElement, if_pos hout]
    rfl
  · rw [not_or, ge_iff_le, ge_iff_le, UInt32.not_le, UInt32.not_le] at hout
    rw [queryElement_of_lt hfits output hout.2 hout.1]
    rfl

theorem visitsOnce_iterateElement (hfits : Fits m.line m.column) :
    VisitsOnce m (fun _ => iterateElement m) fun p => p < m.line.toNat * m.column.toNat :=
  visitsOnce_of_range (fun _ _ h => h) (fun _ hi => (length_of_fits hfits).symm ▸ hi) (by simp)
    fun _ iterator args => iterateElement_eq hfits iterator args

theorem visitsOnce_iterateLine (hfits : Fits m.line m.column) (line : UInt32) :
    VisitsOnce m (fun _ => iterateLine m line)
      fun p => line < m.line ∧ ∃ j < m.column.toNat, line.toNat * m.column.toNat + j = p := by
  by_cases hline : line < m.line
  · refine visitsOnce_of_range (fun i j h => Nat.add_left_cancel h) ?_ (by simp [hline])
      fun σ iterator args => iterateLine_eq hfits hline iterator args
    intro j hj
    rw [length_of_fits hfits]
    exact Lib.rowMajor_lt (UInt32.lt_iff_toNat_lt.mp hline) hj
  · exact visitsOnce_none (by simp [hline]) fun σ iterator args => if_neg hline

theorem visitsOnce_iterateColumn (hfits : Fits m.line m.column) (column : UInt32) :
    VisitsOnce m (fun _ => iterateColumn m column)
      fun p => column < m.column ∧ ∃ i < m.line.toNat, i * m.column.toNat + column.toNat = p := by
  by_cases hcolumn : column < m.column
  · have hlt := UInt32.lt_iff_toNat_lt.mp hcolumn
    refine visitsOnce_of_range ?_ ?_ (by simp [hcolumn])
      fun σ iterator args => iterateColumn_eq hfits hcolumn iterator args
    · intro i j h
      exact Nat.eq_of_mul_eq_mul_right (by omega) (Nat.add_right_cancel h)
    · intro i hi
      rw [length_of_fits hfits]
      exact Lib.rowMajor_lt hi hlt
  · exact visitsOnce_none (by simp [hcolumn]) fun σ iterator args => if_neg hcolumn

theorem isSome_add (malloc : Nat → Bool) {left right : Matrix2d}
    (addfn : Option (Ele → Ele → Ele)) (hfits : Fits left.line left.column ∨
      Fits right.line right.column) : (add malloc left right addfn).isSome := by
  by_cases hshape : left.column ≠ right.column ∨ left.line ≠ right.line
  · rw [add, if_pos hshape]
    rfl
  · rcases halloc : alloc malloc left.line left.column with _ | m
    · rw [add, if_neg hshape, halloc]
      rfl
    · simp only [not_or, ne_eq, not_not] at hshape
      have hfits' : Fits left.line left.column := hfits.elim id fun h => by rwa [hshape.1, hshape.2]
      exact (yields_add addfn hfits' hshape.2 hshape.1 halloc).isSome

/-- **Where the number of elements does not leave 32 bits, no function leaves the field.** -/
theorem inside_of_fits (hfits : Fits m.line m.column) : Inside m where
  field := length_of_fits hfits
  queryElement := isSome_queryElement hfits
  iterateElement := visitsOnce_iterateElement hfits
  iterateLine := visitsOnce_iterateLine hfits
  iterateColumn := visitsOnce_iterateColumn hfits
  add := fun malloc right addfn =>
    ⟨isSome_add malloc addfn (Or.inl hfits), isSome_add malloc addfn (Or.inr hfits)⟩
  scalarMul := fun malloc scalar mulfn => by
    rcases halloc : alloc malloc m.line m.column with _ | m'
    · rw [scalarMul, halloc]
      split <;> rfl
    · exact (yields_scalarMul scalar mulfn hfits halloc).isSome
  transport := fun malloc => by
    rcases halloc : alloc malloc m.column m.line with _ | m'
    · rw [transport, halloc]
      rfl
    · exact (yields_transport hfits halloc).isSome
  makeIdentity := fun malloc hsquare => by
    rcases halloc : alloc malloc m.line m.line with _ | m'
    · rw [makeIdentity, halloc]
      split <;> rfl
    · exact (yields_makeIdentity (by rwa [← hsquare] at hfits) halloc).isSome

end Fits

/-- What `matrix2d_alloc` gives has the lines and columns that were asked for, and whatever is
written into it, no function leaves its field. -/
def ObtainedInside (malloc : Nat → Bool) (line column : UInt32) : Prop :=
  ∀ m, alloc malloc line column = some m → m.line = line ∧ m.column = column ∧
    ∀ m' : Matrix2d, m'.line = m.line → m'.column = m.column → Inside m'

/-- **The functions stay inside exactly where the number of elements does not leave 32 bits, or
there is no memory for what it is then.** -/
theorem obtained_inside_iff {malloc : Nat → Bool} {line column : UInt32} :
    ObtainedInside malloc line column ↔ line.toNat * column.toNat < 2 ^ 32 ∨
      malloc (8 + 8 * (line.toNat * column.toNat % 2 ^ 32)) = false := by
  constructor
  · intro h
    rw [or_iff_not_imp_right, Bool.not_eq_false]
    intro hmalloc
    by_contra hlarge
    have hzero : ¬ (0 = column ∨ 0 = line) := by
      rintro (rfl | rfl)
      · exact hlarge (by simp)
      · exact hlarge (by simp)
    have halloc : ∃ m, alloc malloc line column = some m := by
      rw [alloc, dif_neg hzero]
      exact ⟨_, if_pos (by rwa [UInt32.toNat_mul])⟩
    obtain ⟨m, halloc⟩ := halloc
    obtain ⟨hline, hcolumn, hinside⟩ := h m halloc
    have hfield := (hinside m rfl rfl).field
    rw [m.length_field, hline, hcolumn, UInt32.toNat_mul] at hfield
    have := Nat.mod_lt (line.toNat * column.toNat) (Nat.two_pow_pos 32)
    omega
  · intro h m halloc
    obtain ⟨hline, hcolumn, -⟩ := alloc_eq_some halloc
    refine ⟨hline, hcolumn, fun m' hline' hcolumn' => inside_of_fits ?_⟩
    rw [Fits, hline', hcolumn', hline, hcolumn]
    rcases h with hfits | hmalloc
    · exact hfits
    · rw [← UInt32.toNat_mul] at hmalloc
      rw [alloc] at halloc
      split at halloc
      · cases halloc
      · dsimp only at halloc
        rw [if_neg (Bool.eq_false_iff.mp hmalloc)] at halloc
        cases halloc

/-- `2 ^ 16` lines of `2 ^ 16` columns: there is memory for no element. -/
theorem square_not_inside : ¬ ObtainedInside (fun _ => true) 65536 65536 := by
  intro h
  have hsome : ∃ m, alloc (fun _ => true) 65536 65536 = some m :=
    exists_alloc (fun _ => rfl) (by decide) (by decide)
  obtain ⟨m, halloc⟩ := hsome
  obtain ⟨hline, hcolumn, hinside⟩ := h m halloc
  have hfield := (hinside m rfl rfl).field
  rw [m.length_field, hline, hcolumn] at hfield
  exact absurd hfield (by decide)

end Matrix2d

end LibNax
