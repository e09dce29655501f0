import Mathlib.Algebra.GroupWithZero.Nat
import Mathlib.Data.List.Perm.Basic

/-!
# Threads

The threads of a system are the list of the places where they stand, and a step of one of them
changes one place.

* `exists_split` — the other threads stay where they are.
* `countP_set` and `sum_map_set` — how many threads stand somewhere, and what they add up to.
* `flatMap_set_perm` — what the threads have in their hands.
* `forall_set` and `mem_set_of_ne` — what holds of every thread, and that a thread is there.
-/

set_option autoImplicit false

namespace LibNax

namespace Lib

variable {α β : Type} {l : List α} {i : Nat} {a : α}

/-- The other threads stay where they are. -/
theorem exists_split (h : l[i]? = some a) :
    ∃ before after, l = before ++ a :: after ∧ ∀ b, l.set i b = before ++ b :: after := by
  induction l generalizing i with
  | nil => cases h
  | cons c l ih =>
    cases i with
    | zero =>
      cases h
      exact ⟨[], l, rfl, fun b => rfl⟩
    | succ i =>
      obtain ⟨before, after, rfl, hset⟩ := ih h
      refine ⟨c :: before, after, rfl, fun b => ?_⟩
      rw [List.set_cons_succ, hset, List.cons_append]

/-- How many threads stand somewhere. -/
theorem countP_set (h : l[i]? = some a) (p : α → Bool) (b : α) :
    (l.set i b).countP p + (if p a then 1 else 0) = l.countP p + (if p b then 1 else 0) := by
  obtain ⟨before, after, rfl, hset⟩ := exists_split h
  rw [hset, List.countP_append, List.countP_append, List.countP_cons, List.countP_cons]
  omega

/-- What the threads add up to. -/
theorem sum_map_set (h : l[i]? = some a) (f : α → Nat) (b : α) :
    ((l.set i b).map f).sum + f a = (l.map f).sum + f b := by
  obtain ⟨before, after, rfl, hset⟩ := exists_split h
  rw [hset, List.map_append, List.map_append, List.map_cons, List.map_cons, List.sum_append,
    List.sum_append, List.sum_cons, List.sum_cons]
  omega

/-- What the threads have in their hands. -/
theorem flatMap_set_perm (h : l[i]? = some a) (f : α → List β) (b : α) :
    (f a ++ (l.set i b).flatMap f).Perm (f b ++ l.flatMap f) := by
  obtain ⟨before, after, rfl, hset⟩ := exists_split h
  rw [hset, List.flatMap_append, List.flatMap_append, List.flatMap_cons, List.flatMap_cons]
  have hleft : (f a ++ (before.flatMap f ++ (f b ++ after.flatMap f))).Perm
      (f a ++ (f b ++ (before.flatMap f ++ after.flatMap f))) :=
    (List.perm_append_comm_assoc _ _ _).append_left _
  have hright : (f b ++ (before.flatMap f ++ (f a ++ after.flatMap f))).Perm
      (f b ++ (f a ++ (before.flatMap f ++ after.flatMap f))) :=
    (List.perm_append_comm_assoc _ _ _).append_left _
  exact hleft.trans ((List.perm_append_comm_assoc _ _ _).trans hright.symm)

/-- What holds of every thread. -/
theorem forall_set {P : α → Prop} (hall : ∀ x ∈ l, P x) {b : α} (hb : P b) :
    ∀ x ∈ l.set i b, P x := by
  intro x hx
  rcases List.mem_or_eq_of_mem_set hx with hx | rfl
  · exact hall x hx
  · exact hb

/-- A thread that does not move is still there. -/
theorem mem_set_of_ne (h : l[i]? = some a) {x : α} (hx : x ∈ l) (hne : x ≠ a) (b : α) :
    x ∈ l.set i b := by
  obtain ⟨before, after, rfl, hset⟩ := exists_split h
  rw [hset]
  rcases List.mem_append.mp hx with hx | hx
  · exact List.mem_append_left _ hx
  rcases List.mem_cons.mp hx with hx | hx
  · exact absurd hx hne
  · exact List.mem_append_right _ (List.mem_cons_of_mem _ hx)

end Lib

end LibNax
