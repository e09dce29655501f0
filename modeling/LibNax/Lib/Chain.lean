import Mathlib.Data.List.Nodup

/-!
# Chains of links

Every node has one link, to its next node.  A chain starts somewhere and follows the links; it may
end at something that is not a node, run into another chain, or into itself.

* `Walk next y l x` — from `y` on the links lead through the nodes `l` to `x`.
* `Reach next ok y e` — they lead to `e`, and everything on the way is `ok`.
* `Walk.append_or` — two walks from one place are parts of each other.
* `Reach.of_closed` — what is reached stays in every set that the links do not leave.
* `Cut` — a walk that was stopped: it ended, or met what is not `ok`, what is taken, or itself.
* `Cut.reach_iff`, `Cut.ends_iff` — what such a walk has taken, and when it has got to the end.
-/

set_option autoImplicit false

namespace LibNax

namespace Lib

variable {α : Type} {next : α → α} {ok : α → Prop}

/-! ## Walks -/

/-- From `y` on the links lead through the nodes `l` to `x`. -/
def Walk (next : α → α) : α → List α → α → Prop
  | y, [], x => y = x
  | y, a :: l, x => y = a ∧ Walk next (next a) l x

/-- From `y` on the links lead to `e`, and everything on the way is `ok`, both ends included. -/
inductive Reach (next : α → α) (ok : α → Prop) : α → α → Prop where
  | here {e : α} : ok e → Reach next ok e e
  | there {y e : α} : ok y → Reach next ok (next y) e → Reach next ok y e

/-- Two walks from one place are parts of each other. -/
theorem Walk.append_or {l : List α} {x : α} : ∀ {y : α} {l' : List α} {x' : α}, Walk next y l x →
    Walk next y l' x' → (∃ m, l' = l ++ m ∧ Walk next x m x') ∨
      ∃ m, l = l' ++ m ∧ Walk next x' m x := by
  induction l with
  | nil =>
    intro y l' x' h h'
    subst h
    exact .inl ⟨l', rfl, h'⟩
  | cons a l ih =>
    intro y l' x' h h'
    cases l' with
    | nil =>
      subst h'
      exact .inr ⟨a :: l, rfl, h⟩
    | cons b l' =>
      obtain ⟨rfl, h⟩ := h
      obtain ⟨rfl, h'⟩ := h'
      rcases ih h h' with ⟨m, rfl, hm⟩ | ⟨m, rfl, hm⟩
      · exact .inl ⟨m, rfl, hm⟩
      · exact .inr ⟨m, rfl, hm⟩

/-- The link of a node on the way is to another one, or to the end. -/
theorem Walk.next_mem {l : List α} {x : α} : ∀ {y : α}, Walk next y l x → ∀ e ∈ l,
    next e ∈ l ∨ next e = x := by
  induction l with
  | nil =>
    intro y _ e he
    cases he
  | cons a l ih =>
    intro y h e he
    obtain ⟨rfl, h⟩ := h
    rcases List.mem_cons.mp he with rfl | he
    · cases l with
      | nil => exact .inr h
      | cons b l => exact .inl (h.1 ▸ List.mem_cons_of_mem _ List.mem_cons_self)
    · exact (ih h e he).imp_left (List.mem_cons_of_mem _)

theorem Walk.start {l : List α} {x y : α} (h : Walk next y l x) : y ∈ l ∨ y = x := by
  cases l with
  | nil => exact .inr h
  | cons a l => exact .inl (h.1 ▸ List.mem_cons_self)

/-- A walk does not leave a set that the links do not leave. -/
theorem Walk.end_mem {S : α → Prop} (hS : ∀ e, S e → S (next e)) {l : List α} {x : α} :
    ∀ {y : α}, Walk next y l x → S y → S x := by
  induction l with
  | nil =>
    intro y h hy
    exact h ▸ hy
  | cons a l ih =>
    intro y h hy
    obtain ⟨rfl, h⟩ := h
    exact ih h (hS _ hy)

theorem Walk.reach {l : List α} {x : α} : ∀ {y : α}, Walk next y l x → (∀ e ∈ l, ok e) →
    ∀ e ∈ l, Reach next ok y e := by
  induction l with
  | nil =>
    intro y _ _ e he
    cases he
  | cons a l ih =>
    intro y h hok e he
    obtain ⟨rfl, h⟩ := h
    have hy := hok y List.mem_cons_self
    rcases List.mem_cons.mp he with rfl | he
    · exact .here hy
    · exact .there hy (ih h (fun e he => hok e (List.mem_cons_of_mem _ he)) e he)

/-! ## What is reached -/

theorem Reach.step {y e : α} (h : Reach next ok y e) (he : ok (next e)) :
    Reach next ok y (next e) := by
  induction h with
  | here hok => exact .there hok (.here he)
  | there hok _ ih => exact .there hok (ih he)

/-- A set that holds the start and that the links leave only where they end holds all that is
reached. -/
theorem Reach.of_closed {S : α → Prop} (hS : ∀ e, S e → ok (next e) → S (next e)) {y e : α}
    (h : Reach next ok y e) : (ok y → S y) → S e := by
  induction h with
  | here he => exact fun hy => hy he
  | there hok _ ih => exact fun hy => ih (hS _ (hy hok))

/-! ## Walks that are stopped -/

/-- A walk through nodes that are `ok` and not `taken`, which stops at its end, or where the next
node is not `ok`, is `taken`, or is one of its own. -/
structure Cut (next : α → α) (ok taken stop : α → Prop) (y : α) (l : List α) (x : α) : Prop where
  walk : Walk next y l x
  nodes : ∀ e ∈ l, ok e
  free : ∀ e ∈ l, ¬taken e
  last : stop x ∨ ¬ok x ∨ taken x ∨ x ∈ l

variable {taken stop : α → Prop} {y x : α} {l : List α}

/-- What the stopped walk adds to what was taken is all that is reached. -/
theorem Cut.reach_iff (h : Cut next ok taken stop y l x) (hstop : ∀ e, stop e → ¬ok e)
    (htaken : ∀ e, taken e → ok (next e) → taken (next e)) (e : α) :
    taken e ∨ Reach next ok y e ↔ taken e ∨ e ∈ l := by
  have hx : ok x → taken x ∨ x ∈ l := by
    intro hx
    rcases h.last with hs | hn | ht
    · exact absurd hx (hstop x hs)
    · exact absurd hx hn
    · exact ht
  constructor
  · rintro (he | he)
    · exact .inl he
    refine he.of_closed (S := fun e => taken e ∨ e ∈ l) ?_ fun hy => ?_
    · rintro e (he | he) hok
      · exact .inl (htaken e he hok)
      · rcases h.walk.next_mem e he with hmem | heq
        · exact .inr hmem
        · rw [heq] at hok ⊢
          exact hx hok
    · rcases h.walk.start with hmem | rfl
      · exact .inr hmem
      · exact hx hy
  · rintro (he | he)
    · exact .inl he
    · exact .inr (h.walk.reach h.nodes e he)

/-- The stopped walk has got to the end if any walk through such nodes does. -/
theorem Cut.ends_iff (h : Cut next ok taken stop y l x) (hstop : ∀ e, stop e → ¬ok e) :
    stop x ↔ ∃ l' x', Walk next y l' x' ∧ stop x' ∧ ∀ e ∈ l', ok e ∧ ¬taken e := by
  constructor
  · exact fun hx => ⟨l, x, h.walk, hx, fun e he => ⟨h.nodes e he, h.free e he⟩⟩
  rintro ⟨l', x', hw, hx', hl'⟩
  rcases h.walk.append_or hw with ⟨m, rfl, hm⟩ | ⟨m, rfl, hm⟩
  · cases m with
    | nil => exact hm ▸ hx'
    | cons a m =>
      obtain ⟨rfl, -⟩ := id hm
      obtain ⟨hok, hfree⟩ := hl' x (List.mem_append_right _ List.mem_cons_self)
      rcases h.last with hs | hn | ht | hmem
      · exact hs
      · exact absurd hok hn
      · exact absurd ht hfree
      · -- a walk that runs into itself never ends
        have hloop : x' ∈ l := by
          refine hm.end_mem (S := fun e => e ∈ l) ?_ hmem
          intro e he
          rcases h.walk.next_mem e he with hmem' | heq
          · exact hmem'
          · exact heq ▸ hmem
        exact absurd (h.nodes x' hloop) (hstop x' hx')
  · cases m with
    | nil => exact hm ▸ hx'
    | cons a m =>
      obtain ⟨rfl, -⟩ := hm
      exact absurd (h.nodes x' (List.mem_append_right _ List.mem_cons_self)) (hstop x' hx')

end Lib

end LibNax
