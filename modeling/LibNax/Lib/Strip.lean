import Mathlib.Data.List.DropRight
import Mathlib.Data.List.TakeWhile

/-!
# Stripping a list

What is left of a list without the elements of a kind at both ends.

* `strip` — the list without them; `Bare` — a list that has none at its ends.
* `exists_strip` — a list is its stripped list between two lists of that kind.
* `strip_sandwich` — and there is only one such list.
-/

set_option autoImplicit false

namespace LibNax

namespace Lib

variable {α : Type} (p : α → Bool)

/-- The list without the elements with `p` at its ends. -/
def strip (l : List α) : List α := (l.dropWhile p).rdropWhile p

/-- A list that neither starts nor ends with an element with `p`. -/
structure Bare (l : List α) : Prop where
  head : ∀ x, l.head? = some x → p x = false
  last : ∀ x, l.getLast? = some x → p x = false

variable {p} {a b c l : List α}

/-- Elements with `p` at both ends are taken away, and no others. -/
theorem strip_sandwich (hc : Bare p c) (ha : ∀ x ∈ a, p x = true) (hb : ∀ x ∈ b, p x = true) :
    strip p (a ++ c ++ b) = c := by
  have hfront : (a ++ c ++ b).dropWhile p = (c ++ b).dropWhile p := by
    rw [List.append_assoc, List.dropWhile_append_of_pos ha]
  rw [strip, hfront]
  cases c with
  | nil => rw [List.nil_append, List.dropWhile_eq_nil_iff.mpr hb, List.rdropWhile_nil]
  | cons x c =>
    have hx := hc.head x rfl
    have hlast : (x :: c).rdropWhile p = x :: c := by
      rw [List.rdropWhile_eq_self_iff]
      intro hne
      rw [hc.last _ (List.getLast?_eq_getLast_of_ne_nil hne)]
      exact Bool.false_ne_true
    rw [List.cons_append, List.dropWhile_cons_of_neg (by simp [hx]), ← List.cons_append,
      List.rdropWhile, List.reverse_append, List.dropWhile_append_of_pos (by simpa using hb),
      ← List.rdropWhile, hlast]

/-- A list is its stripped list, between elements with `p`. -/
theorem exists_strip (l : List α) : ∃ a b, l = a ++ strip p l ++ b ∧ (∀ x ∈ a, p x = true) ∧
    (∀ x ∈ b, p x = true) ∧ Bare p (strip p l) ∧ (strip p l = [] → b = []) := by
  refine ⟨l.takeWhile p, (l.dropWhile p).rtakeWhile p, ?_, ?_, ?_, ⟨?_, ?_⟩, ?_⟩
  · rw [strip, List.append_assoc, List.rdropWhile_append_rtakeWhile,
      List.takeWhile_append_dropWhile]
  · exact fun x hx => List.mem_takeWhile_imp hx
  · exact fun x hx => List.mem_rtakeWhile_imp hx
  · intro x hx
    obtain ⟨t, ht⟩ := List.rdropWhile_prefix p (l := l.dropWhile p)
    rw [strip] at hx
    have hhead : (l.dropWhile p).head? = some x := by
      rw [← ht, List.head?_append, hx]
      rfl
    have hnot := List.head?_dropWhile_not p l
    rwa [hhead] at hnot
  · intro x hx
    rw [strip] at hx
    have hne : (l.dropWhile p).rdropWhile p ≠ [] := by
      intro hnil
      simp [hnil] at hx
    have hnot := List.rdropWhile_last_not p _ hne
    rw [List.getLast?_eq_getLast_of_ne_nil hne, Option.some.injEq] at hx
    rw [hx] at hnot
    simpa using hnot
  · intro hnil
    rw [strip, List.rdropWhile_eq_nil_iff] at hnil
    have hall : ∀ x ∈ l, p x = true := by
      intro x hx
      rw [← List.takeWhile_append_dropWhile (p := p) (l := l), List.mem_append] at hx
      rcases hx with hx | hx
      · exact List.mem_takeWhile_imp hx
      · exact hnil x hx
    rw [List.dropWhile_eq_nil_iff.mpr hall, List.rtakeWhile_nil]

theorem strip_append_left (ha : ∀ x ∈ a, p x = true) : strip p (a ++ l) = strip p l := by
  obtain ⟨a', b, hl, ha', hb, hbare, -⟩ := exists_strip (p := p) l
  have hall : ∀ x ∈ a ++ a', p x = true := by
    intro x hx
    exact (List.mem_append.mp hx).elim (ha x) (ha' x)
  have hsand := strip_sandwich hbare hall hb
  rwa [List.append_assoc, List.append_assoc, ← List.append_assoc a', ← hl] at hsand

theorem strip_append_right (hb : ∀ x ∈ b, p x = true) : strip p (l ++ b) = strip p l := by
  obtain ⟨a, b', hl, ha, hb', hbare, -⟩ := exists_strip (p := p) l
  have hall : ∀ x ∈ b' ++ b, p x = true := by
    intro x hx
    exact (List.mem_append.mp hx).elim (hb' x) (hb x)
  have hsand := strip_sandwich hbare ha hall
  rwa [← List.append_assoc, ← hl] at hsand

end Lib

end LibNax
