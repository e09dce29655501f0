import Mathlib.Data.Nat.Basic
import Mathlib.Order.Basic

/-!
# Matrices by lines

A matrix with `c` columns lies in a list line after line: the entry of line `i` and column `j` is at
`i * c + j`.

* `rowMajor_lt`, `rowMajor_div` — positions, and back.
* `ext_rowMajor` — two lists with the same entries.
* `foldlM_range`, `foldlM_keeps` — a loop that may fail, by an invariant.
-/

set_option autoImplicit false

namespace LibNax

namespace Lib

/-! ## Positions -/

section Positions

variable {l c i j : Nat}

theorem rowMajor_lt (hi : i < l) (hj : j < c) : i * c + j < l * c :=
  calc i * c + j < i * c + c := Nat.add_lt_add_left hj _
    _ = (i + 1) * c := (Nat.succ_mul i c).symm
    _ ≤ l * c := Nat.mul_le_mul_right c hi

theorem rowMajor_div (hj : j < c) : (i * c + j) / c = i := by
  rw [Nat.add_comm, Nat.add_mul_div_right _ _ (by omega), Nat.div_eq_of_lt hj, Nat.zero_add]

theorem div_lt_of_lt_rowMajor {p : Nat} (hp : p < l * c) : p / c < l :=
  Nat.div_lt_of_lt_mul (Nat.mul_comm l c ▸ hp)

/-- Every position is one of an entry. -/
theorem div_mul_add_mod (p c : Nat) : p / c * c + p % c = p := by
  rw [Nat.mul_comm, Nat.div_add_mod]

end Positions

/-- Two lists with the same entries. -/
theorem ext_rowMajor {α : Type} {l c : Nat} {xs ys : List α} (hx : xs.length = l * c)
    (hy : ys.length = l * c)
    (h : ∀ i < l, ∀ j < c, xs[i * c + j]? = ys[i * c + j]?) : xs = ys := by
  apply List.ext_getElem?
  intro p
  rcases Nat.lt_or_ge p (l * c) with hlt | hge
  · have hc : 0 < c := Nat.pos_of_ne_zero fun hzero => by simp [hzero] at hlt
    have hentry := h (p / c) (div_lt_of_lt_rowMajor hlt) (p % c) (Nat.mod_lt p hc)
    rwa [div_mul_add_mod] at hentry
  · rw [List.getElem?_eq_none (hx ▸ hge), List.getElem?_eq_none (hy ▸ hge)]

/-! ## Loops -/

section Loops

variable {σ : Type}

/-- **The rule for a loop that may fail**: an invariant that each step keeps. -/
theorem foldlM_range (step : σ → Nat → Option σ) (Inv : Nat → σ → Prop) {n : Nat}
    (hstep : ∀ i s, i < n → Inv i s → ∃ s', step s i = some s' ∧ Inv (i + 1) s') :
    ∀ s, Inv 0 s → ∃ s', (List.range n).foldlM step s = some s' ∧ Inv n s' := by
  induction n with
  | zero => exact fun s hs => ⟨s, rfl, hs⟩
  | succ n ih =>
    intro s hs
    obtain ⟨s₁, hrun, hinv⟩ := ih (fun i s hi => hstep i s (Nat.lt_succ_of_lt hi)) s hs
    obtain ⟨s₂, hlast, hinv'⟩ := hstep n s₁ (Nat.lt_succ_self n) hinv
    exact ⟨s₂, by simp [List.range_succ, List.foldlM_append, hrun, hlast], hinv'⟩

/-- What every step keeps, a loop that does not fail keeps. -/
theorem foldlM_keeps {α : Type} {step : σ → α → Option σ} {P : σ → Prop}
    (hstep : ∀ s a s', step s a = some s' → P s → P s') (l : List α) :
    ∀ s s', l.foldlM step s = some s' → P s → P s' := by
  induction l with
  | nil =>
    intro s s' hrun hs
    cases hrun
    exact hs
  | cons a l ih =>
    intro s s' hrun hs
    rw [List.foldlM_cons, Option.bind_eq_bind, Option.bind_eq_some_iff] at hrun
    obtain ⟨s₁, hfirst, hrun⟩ := hrun
    exact ih s₁ s' hrun (hstep s a s₁ hfirst hs)

end Loops

end Lib

end LibNax
