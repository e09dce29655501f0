import Mathlib.Data.List.GetD
import LibNax.Lib.Bytes

/-!
# A chain of blocks as one array

Data that is kept in blocks of one size, wherever they are, is read as one array along the chain of
their names.  The array has a value at every position, so that a chain that gets longer by an empty
block is still the same array.

* `patched f p d` — the array `f` with `d` written at the position `p`.
* `blockAt` — the array of a chain, with a default behind its end.
* `blockAt_write`, `blockAt_append` — a write inside of one block, and a new block.
* `slice_block` — a range inside of one block.
-/

set_option autoImplicit false

namespace LibNax

namespace Lib

variable {ι β : Type}

/-! ## Arrays -/

/-- The array with `d` written at the position `p`. -/
def patched (f : Nat → β) (p : Nat) (d : List β) (k : Nat) : β :=
  if p ≤ k then d.getD (k - p) (f k) else f k

theorem patched_of_lt {f : Nat → β} {p k : Nat} {d : List β} (h : k < p) : patched f p d k = f k :=
  if_neg (by omega)

theorem patched_of_le {f : Nat → β} {p k : Nat} {d : List β} (h : p + d.length ≤ k) :
    patched f p d k = f k := by
  rw [patched, if_pos (by omega), List.getD_eq_getElem?_getD, List.getElem?_eq_none (by omega)]
  rfl

theorem patched_of_mem {f : Nat → β} {p k : Nat} {d : List β} (h : p ≤ k) (h' : k < p + d.length)
    (z : β) : patched f p d k = d.getD (k - p) z := by
  have hlt : k - p < d.length := by omega
  rw [patched, if_pos h, List.getD_eq_getElem?_getD, List.getD_eq_getElem?_getD,
    List.getElem?_eq_getElem hlt]
  rfl

@[simp] theorem patched_nil (f : Nat → β) (p : Nat) : patched f p [] = f := by
  funext k
  rcases Nat.lt_or_ge k p with h | h
  · exact patched_of_lt h
  · exact patched_of_le h

/-- Writing on behind what was written. -/
theorem patched_patched (f : Nat → β) (p : Nat) (a b : List β) :
    patched (patched f p a) (p + a.length) b = patched f p (a ++ b) := by
  funext k
  rcases Nat.lt_or_ge k p with hlt | hge
  · rw [patched_of_lt (by omega), patched_of_lt hlt, patched_of_lt hlt]
  rcases Nat.lt_or_ge k (p + a.length) with hlt | hge'
  · rw [patched_of_lt hlt, patched_of_mem hge hlt (f k), patched_of_mem hge
      (by rw [List.length_append]; omega) (f k), List.getD_append _ _ _ _ (by omega)]
  · rw [patched, if_pos hge', patched_of_le hge', patched, if_pos hge,
      List.getD_append_right _ _ _ _ (by omega), Nat.sub_add_eq]

/-! ## Buffers -/

theorem getD_overwrite {l : List β} {off : Nat} {new : List β} (h : off + new.length ≤ l.length)
    (k : Nat) (z : β) : (overwrite l off new).getD k z = patched (fun k => l.getD k z)
    off new k := by
  have hlen : (l.take off ++ new).length = off + new.length := by
    rw [List.length_append, List.length_take, Nat.min_eq_left (by omega)]
  rw [overwrite]
  rcases Nat.lt_or_ge k off with hlt | hge
  · rw [patched_of_lt hlt, List.getD_append _ _ _ _ (by omega),
      List.getD_append _ _ _ _ (by rw [List.length_take]; omega), List.getD_eq_getElem?_getD,
      List.getElem?_take_of_lt hlt, List.getD_eq_getElem?_getD]
  rcases Nat.lt_or_ge k (off + new.length) with hlt | hge'
  · rw [patched_of_mem hge hlt z, List.getD_append _ _ _ _ (by omega),
      List.getD_append_right _ _ _ _ (by rw [List.length_take]; omega), List.length_take,
      Nat.min_eq_left (by omega)]
  · rw [patched_of_le hge', List.getD_append_right _ _ _ _ (by omega), hlen,
      List.getD_eq_getElem?_getD, List.getElem?_drop, List.getD_eq_getElem?_getD,
      Nat.add_sub_cancel' hge']

theorem slice_eq_map {l : List β} {off n : Nat} (h : off + n ≤ l.length) (z : β) :
    slice l off n = (List.range n).map fun j => l.getD (off + j) z := by
  refine List.ext_getElem? fun j => ?_
  rw [slice, List.getElem?_take, List.getElem?_map]
  split
  · rename_i hlt
    have hin : off + j < l.length := by omega
    rw [List.getElem?_drop, List.getElem?_range hlt, Option.map_some, List.getD_eq_getElem?_getD,
      List.getElem?_eq_getElem hin]
    rfl
  · rw [List.getElem?_eq_none (by rw [List.length_range]; omega)]
    rfl

/-! ## Chains -/

variable {D : Nat} {data data' : ι → List β} {z : β} {chain : List ι} {i : Nat} {v : ι}

/-- The array of a chain of blocks. -/
def blockAt (D : Nat) (data : ι → List β) (z : β) (chain : List ι) (k : Nat) : β :=
  match chain[k / D]? with
  | some v => (data v).getD (k % D) z
  | none => z

theorem blockAt_at (q : Nat) {j : Nat} (hj : j < D) : blockAt D data z chain (D * q + j) =
    match chain[q]? with
    | some v => (data v).getD j z
    | none => z := by
  have hdiv : (D * q + j) / D = q := by
    rw [Nat.mul_add_div (by omega), Nat.div_eq_of_lt hj, Nat.add_zero]
  have hmod : (D * q + j) % D = j := by
    rw [Nat.mul_add_mod, Nat.mod_eq_of_lt hj]
  rw [blockAt, hdiv, hmod]

theorem blockAt_eq (hi : chain[i]? = some v) {j : Nat} (hj : j < D) :
    blockAt D data z chain (D * i + j) = (data v).getD j z := by
  rw [blockAt_at i hj, hi]

theorem blockAt_congr (h : ∀ v ∈ chain, data' v = data v) (k : Nat) :
    blockAt D data' z chain k = blockAt D data z chain k := by
  rw [blockAt, blockAt]
  cases hv : chain[k / D]? with
  | none => rfl
  | some v =>
    simp only
    rw [h v (List.mem_of_getElem? hv)]

/-- A write inside of one block. -/
theorem blockAt_write (hD : 0 < D) (hnd : chain.Nodup) (hi : chain[i]? = some v) {off : Nat}
    {d : List β} (hlen : (data v).length = D) (hfit : off + d.length ≤ D)
    (hself : data' v = overwrite (data v) off d)
    (hrest : ∀ w ∈ chain, w ≠ v → data' w = data w) :
    blockAt D data' z chain = patched (blockAt D data z chain) (D * i + off) d := by
  have hother : ∀ q j, j < D → q ≠ i →
      blockAt D data' z chain (D * q + j) = blockAt D data z chain (D * q + j) := by
    intro q j hj hqi
    rw [blockAt_at q hj, blockAt_at q hj]
    cases hq : chain[q]? with
    | none => rfl
    | some w =>
      have hne : w ≠ v := by
        rintro rfl
        obtain ⟨hlt, -⟩ := List.getElem?_eq_some_iff.mp hq
        exact hqi ((List.getElem?_inj hlt hnd).mp (hq.trans hi.symm))
      simp only
      rw [hrest w (List.mem_of_getElem? hq) hne]
  funext k
  obtain ⟨q, j, hj, rfl⟩ : ∃ q j, j < D ∧ k = D * q + j :=
    ⟨k / D, k % D, Nat.mod_lt _ hD, (Nat.div_add_mod k D).symm⟩
  rcases Nat.lt_trichotomy q i with hqi | rfl | hqi
  · have hle : D * (q + 1) ≤ D * i := Nat.mul_le_mul_left D hqi
    rw [Nat.mul_succ] at hle
    rw [patched_of_lt (by omega), hother q j hj (Nat.ne_of_lt hqi)]
  · rw [blockAt_eq hi hj, hself, getD_overwrite (by omega)]
    rcases Nat.lt_or_ge j off with hlt | hge
    · rw [patched_of_lt hlt, patched_of_lt (by omega), blockAt_eq hi hj]
    rcases Nat.lt_or_ge j (off + d.length) with hlt | hge'
    · rw [patched_of_mem hge hlt z, patched_of_mem (by omega) (by omega) z, Nat.add_sub_add_left]
    · rw [patched_of_le hge', patched_of_le (by omega), blockAt_eq hi hj]
  · have hle : D * (i + 1) ≤ D * q := Nat.mul_le_mul_left D hqi
    rw [Nat.mul_succ] at hle
    rw [patched_of_le (by omega), hother q j hj (Nat.ne_of_gt hqi)]

/-- A new block that holds nothing but the default. -/
theorem blockAt_append (hv : ∀ j, (data' v).getD j z = z) (hrest : ∀ w ∈ chain, data' w = data w) :
    blockAt D data' z (chain ++ [v]) = blockAt D data z chain := by
  funext k
  rw [blockAt, blockAt]
  rcases Nat.lt_or_ge (k / D) chain.length with hlt | hge
  · rw [List.getElem?_append_left hlt, List.getElem?_eq_getElem hlt]
    simp only
    rw [hrest _ (List.getElem_mem hlt)]
  · rw [List.getElem?_append_right hge, List.getElem?_eq_none hge]
    cases hk : ([v] : List ι)[k / D - chain.length]? with
    | none => rfl
    | some w =>
      rw [List.mem_singleton.mp (List.mem_of_getElem? hk)]
      exact hv _

/-- A range inside of one block. -/
theorem slice_block (hi : chain[i]? = some v) {off n : Nat} (hlen : (data v).length = D)
    (hfit : off + n ≤ D) :
    slice (data v) off n = (List.range n).map fun j =>
    blockAt D data z chain (D * i + off + j) := by
  rw [slice_eq_map (by omega) z]
  refine List.map_congr_left fun j hj => ?_
  have hlt := List.mem_range.mp hj
  rw [Nat.add_assoc, blockAt_eq hi (by omega)]

end Lib

end LibNax
