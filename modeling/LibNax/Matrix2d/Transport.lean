import LibNax.Matrix2d.Inside

/-!
# Transposition

* `exists_foldlM_visit` — what an iterator is called with, one element after the other.
* `equal_self` — a matrix is equal to itself, in the bytes that are compared.
* `TransportLaws` — `matrix2d_transport` is transposition: its entries, twice, of a sum, and its
  columns.
* `transport_laws` — so it is for every matrix whose number of elements does not leave 32 bits.
-/

set_option autoImplicit false

namespace LibNax

namespace Matrix2d

/-! ## Visited elements -/

/-- An iterator that is called for different positions gets the elements as they were before the
first call. -/
theorem exists_foldlM_visit {σ : Type} (iterator : Ele → Nat → σ → Ele × σ)
    (positions : List Nat) : ∀ (m : Matrix2d) (args : σ), positions.Nodup →
      (∀ p ∈ positions, p < m.field.length) →
      ∃ m', positions.foldlM (visit iterator) (m, args) =
        some (m', positions.foldl (fun s p => (iterator (m.field.getD p 0) p s).2) args) := by
  induction positions with
  | nil => exact fun m args _ _ => ⟨m, rfl⟩
  | cons p positions ih =>
    intro m args hnodup hin
    obtain ⟨hnotMem, hnodup⟩ := List.nodup_cons.mp hnodup
    have hp := hin p List.mem_cons_self
    obtain ⟨m₁, hstore, -, -, hfield⟩ := exists_store hp (iterator (m.field.getD p 0) p args).1
    have hvisit : visit iterator (m, args) p =
        some (m₁, (iterator (m.field.getD p 0) p args).2) := by
      simp only [visit, load_eq hp, hstore, Option.bind_eq_bind, Option.bind_some]
    have hlater : ∀ q ∈ positions, m₁.field.getD q 0 = m.field.getD q 0 := by
      intro q hq
      have hne : p ≠ q := fun h => hnotMem (h ▸ hq)
      rw [hfield, List.getD_eq_getElem?_getD, List.getElem?_set_ne hne,
        ← List.getD_eq_getElem?_getD]
    obtain ⟨m', hrun⟩ := ih m₁ (iterator (m.field.getD p 0) p args).2 hnodup fun q hq => by
      rw [hfield, List.length_set]
      exact hin q (List.mem_cons_of_mem p hq)
    refine ⟨m', ?_⟩
    rw [List.foldlM_cons, hvisit, Option.bind_eq_bind, Option.bind_some, hrun, List.foldl_cons]
    rw [List.foldl_ext _ _ _ fun s q hq => by rw [hlater q hq]]

/-- The elements of a line, in their order. -/
theorem exists_iterateLine {σ : Type} {m : Matrix2d} (hfits : Fits m.line m.column) {line : UInt32}
    (hline : line < m.line) (f : Ele → σ → Ele × σ) (args : σ) :
    ∃ m', iterateLine m line (fun e _ => f e) args = some (m', (List.range m.column.toNat).foldl
      (fun s j => (f (m.entry line.toNat j) s).2) args) := by
  obtain ⟨m', hrun⟩ := exists_foldlM_visit (fun e _ => f e)
    ((List.range m.column.toNat).map fun j => line.toNat * m.column.toNat + j) m args
    (List.nodup_range.map fun i j h => Nat.add_left_cancel h) (by
      simp only [List.mem_map, List.mem_range, forall_exists_index, and_imp]
      rintro p j hj rfl
      rw [length_of_fits hfits]
      exact Lib.rowMajor_lt (UInt32.lt_iff_toNat_lt.mp hline) hj)
  refine ⟨m', ?_⟩
  rw [iterateLine_eq hfits hline, hrun, List.foldl_map]
  rfl

/-- The elements of a column, in their order. -/
theorem exists_iterateColumn {σ : Type} {m : Matrix2d} (hfits : Fits m.line m.column)
    {column : UInt32} (hcolumn : column < m.column) (f : Ele → σ → Ele × σ) (args : σ) :
    ∃ m', iterateColumn m column (fun e _ => f e) args = some (m', (List.range m.line.toNat).foldl
      (fun s i => (f (m.entry i column.toNat) s).2) args) := by
  have hlt := UInt32.lt_iff_toNat_lt.mp hcolumn
  obtain ⟨m', hrun⟩ := exists_foldlM_visit (fun e _ => f e)
    ((List.range m.line.toNat).map fun i => i * m.column.toNat + column.toNat) m args
    (List.nodup_range.map fun i j h =>
      Nat.eq_of_mul_eq_mul_right (by omega) (Nat.add_right_cancel h)) (by
      simp only [List.mem_map, List.mem_range, forall_exists_index, and_imp]
      rintro p i hi rfl
      rw [length_of_fits hfits]
      exact Lib.rowMajor_lt hi hlt)
  refine ⟨m', ?_⟩
  rw [iterateColumn_eq hfits hcolumn, hrun, List.foldl_map]
  rfl

/-! ## The laws -/

theorem equal_self (m : Matrix2d) : equal m m = true := by
  simp [equal]

/-- `matrix2d_transport` is transposition. -/
structure TransportLaws (malloc : Nat → Bool) (a : Matrix2d) : Prop where
  /-- Lines and columns are exchanged. -/
  entries : Yields (transport malloc a) a.column a.line fun i j => a.entry j i
  /-- Twice it is nothing. -/
  twice : ∃ t s, transport malloc a = some (some t) ∧ transport malloc t = some (some s) ∧
    equal s a = true ∧ s = a
  /-- The sum of the transposes is the transpose of the sum. -/
  add : ∀ (b : Matrix2d) (addfn : Option (Ele → Ele → Ele)), b.line = a.line →
    b.column = a.column → ∃ sum t t' r, Matrix2d.add malloc a b addfn = some (some sum) ∧
      transport malloc a = some (some t) ∧ transport malloc b = some (some t') ∧
      transport malloc sum = some (some r) ∧ Matrix2d.add malloc t t' addfn = some (some r)
  /-- A line has the same elements as a column of the transpose, in the same order. -/
  iterate : ∀ t, transport malloc a = some (some t) → ∀ i < a.line, ∀ (σ : Type)
    (f : Ele → σ → Ele × σ) (args : σ), ∃ a' t' args',
      iterateLine a i (fun e _ => f e) args = some (a', args') ∧
      iterateColumn t i (fun e _ => f e) args = some (t', args')

section Laws

variable {malloc : Nat → Bool} {a : Matrix2d}

/-- The transpose of a matrix. -/
theorem exists_transport (hmalloc : ∀ n, malloc n = true) (hfits : Fits a.line a.column) :
    ∃ t, transport malloc a = some (some t) ∧ t.line = a.column ∧ t.column = a.line ∧
      Fits t.line t.column ∧
      ∀ i < a.column.toNat, ∀ j < a.line.toNat, t.entry i j = a.entry j i := by
  obtain ⟨m, halloc⟩ := exists_alloc hmalloc a.column_ne a.line_ne
  obtain ⟨t, ht, hline, hcolumn, hentry⟩ := yields_transport hfits halloc
  refine ⟨t, ht, hline, hcolumn, ?_, hentry⟩
  rw [Fits, hline, hcolumn, Nat.mul_comm]
  exact hfits

/-- **Transposition laws**, for every matrix whose number of elements does not leave 32 bits. -/
theorem transport_laws (hmalloc : ∀ n, malloc n = true)
    (hfits : a.line.toNat * a.column.toNat < 2 ^ 32) : TransportLaws malloc a := by
  obtain ⟨t, ht, htline, htcolumn, htfits, htentry⟩ := exists_transport hmalloc hfits
  refine ⟨⟨t, ht, htline, htcolumn, htentry⟩, ?_, ?_, ?_⟩
  · obtain ⟨s, hs, hsline, hscolumn, hsfits, hsentry⟩ := exists_transport hmalloc htfits
    rw [htcolumn] at hsline hsentry
    rw [htline] at hscolumn hsentry
    have hsame : s = a := by
      refine ext_entry hsfits hsline hscolumn fun i hi j hj => ?_
      rw [hsline] at hi
      rw [hscolumn] at hj
      rw [hsentry i hi j hj, htentry j hj i hi]
    exact ⟨t, s, ht, hs, by rw [hsame, equal_self], hsame⟩
  · intro b addfn hline hcolumn
    have hbfits : Fits b.line b.column := by rwa [Fits, hline, hcolumn]
    obtain ⟨t', ht', ht'line, ht'column, -, ht'entry⟩ := exists_transport hmalloc hbfits
    obtain ⟨m, halloc⟩ := exists_alloc hmalloc a.line_ne a.column_ne
    obtain ⟨sum, hsum, hsline, hscolumn, hsentry⟩ :=
      yields_add addfn hfits hline.symm hcolumn.symm halloc
    obtain ⟨r, hr, hrline, hrcolumn, hrfits, hrentry⟩ :=
      exists_transport (a := sum) hmalloc (by rwa [Fits, hsline, hscolumn])
    obtain ⟨m', halloc'⟩ := exists_alloc hmalloc t.line_ne t.column_ne
    obtain ⟨r', hr', hr'line, hr'column, hr'entry⟩ := yields_add addfn htfits
      (htline.trans (hcolumn.symm.trans ht'line.symm))
      (htcolumn.trans (hline.symm.trans ht'column.symm)) halloc'
    have hsame : r = r' := by
      refine ext_entry hrfits ?_ ?_ fun i hi j hj => ?_
      · rw [hrline, hr'line, hscolumn, htline]
      · rw [hrcolumn, hr'column, hsline, htcolumn]
      · rw [hrline, hscolumn] at hi
        rw [hrcolumn, hsline] at hj
        rw [hrentry i (hscolumn ▸ hi) j (hsline ▸ hj), hsentry j hj i hi,
          hr'entry i (htline ▸ hi) j (htcolumn ▸ hj)]
        dsimp only
        rw [htentry i hi j hj, ht'entry i (hcolumn ▸ hi) j (hline ▸ hj)]
    exact ⟨sum, t, t', r, hsum, ht, ht', hr, by rw [hr', hsame]⟩
  · intro t₁ ht₁ i hi σ f args
    obtain rfl : t = t₁ := by simpa [ht] using ht₁
    obtain ⟨a', ha'⟩ := exists_iterateLine hfits hi f args
    obtain ⟨t', ht'⟩ := exists_iterateColumn htfits (htcolumn ▸ hi) f args
    refine ⟨a', t', _, ha', ?_⟩
    rw [ht', htline]
    rw [List.foldl_ext _ _ _ fun s j hj => by
      rw [htentry j (List.mem_range.mp hj) i.toNat (UInt32.lt_iff_toNat_lt.mp hi)]]

end Laws

/-- A matrix of two lines and three columns. -/
def twoByThree : Matrix2d where
  column := 3
  line := 2
  field := [1, 2, 3, 4, 5, 6]
  length_field := rfl
  column_ne := by decide
  line_ne := by decide

theorem transport_laws_two_by_three : TransportLaws (fun _ => true) twoByThree :=
  transport_laws (fun _ => rfl) (by decide)

end Matrix2d

end LibNax
