import LibNax.Avl.Runs

/-!
# What the queries answer and what a removal reports

The functions that read the tree, as questions about the list of its nodes from left to right: a
search tree is that list in increasing order of the keys, whatever its shape and whatever heights
are stored in it.

* `queries_toList` — the search, the two ends and the two bounds.
* `avlremove_reports` — the node that a removal hands to its caller.  The assignment that says
  "nothing was removed" stands behind the test for a null tree, so on an empty tree the caller keeps
  what it had in the variable.
-/

set_option autoImplicit false

namespace LibNax

namespace Avl

variable {α K : Type} [LinearOrder K] {compare : α → α → Int} {key : α → K}

/-- The structure that a node is embedded in, none at the null pointer. -/
def entry : Tree α → Option α
  | .nil => none
  | .node _ _ x _ => some x

/-! ## The two ends -/

theorem entry_avlgetmin : ∀ t : Tree α, entry (avlgetmin t) = (toList t).head?
  | .nil => rfl
  | .node _ .nil _ _ => by rw [avlgetmin]; rfl
  | .node _ (.node h l x r) y r' => by
    have hne : toList (.node h l x r) ≠ [] := by simp
    rw [avlgetmin, entry_avlgetmin, toList_node _ _ y, List.head?_append_of_ne_nil _ hne]

theorem entry_avlgetmax : ∀ t : Tree α, entry (avlgetmax t) = (toList t).getLast?
  | .nil => rfl
  | .node _ l x .nil => by rw [avlgetmax, toList_node, toList_nil, List.getLast?_concat]; rfl
  | .node _ l y (.node h l' x r) => by
    have hne : toList (.node h l' x r) ≠ [] := by simp
    rw [avlgetmax, entry_avlgetmax, toList_node _ l, List.getLast?_append_of_ne_nil _ (by simp),
      List.getLast?_cons_of_ne_nil hne]

/-! ## The bounds -/

/-- Where the nodes on the left of `x` all fail the test, the search goes on at `x`. -/
theorem find?_of_left {p : α → Bool} {l r : List α} {x : α} (hl : ∀ y ∈ l, p y = false) :
    (l ++ x :: r).find? p = (x :: r).find? p := by
  have hnone : l.find? p = none := by
    rw [List.find?_eq_none]
    intro y hy
    simp [hl y hy]
  rw [List.find?_append, hnone, Option.none_or]

/-- **The lower bound is the first node in order whose key is not below the one asked for.** -/
theorem avllowerbound_eq (hc : Orders compare key) :
    ∀ {t : Tree α}, Sorted key t → ∀ k,
      avllowerbound compare t k = (toList t).find? fun y => key k ≤ key y
  | .nil, _, _ => rfl
  | .node h l x r, ht, k => by
    obtain ⟨hl, hr, hlx, -⟩ := sorted_node.mp ht
    rw [avllowerbound, toList_node]
    split
    · rename_i hlt
      have hkx := (hc.neg_iff k x).mp hlt
      rw [List.find?_append, avllowerbound_eq hc hl, List.find?_cons_of_pos (by simpa using hkx.le)]
    · split
      · rename_i hgt
        have hxk := (hc.pos_iff k x).mp hgt
        rw [find?_of_left fun y hy => by simpa using (hlx y hy).trans hxk,
          List.find?_cons_of_neg (by simpa using hxk), avllowerbound_eq hc hr]
      · rename_i hlt hgt
        have hkx : key k = key x := (hc.zero_iff k x).mp (by omega)
        rw [find?_of_left fun y hy => by simpa [hkx] using hlx y hy,
          List.find?_cons_of_pos (by simpa using hkx.le)]

/-- **The upper bound is the first node in order whose key is above the one asked for.** -/
theorem avlupperbound_eq (hc : Orders compare key) :
    ∀ {t : Tree α}, Sorted key t → ∀ k,
      avlupperbound compare t k = (toList t).find? fun y => key k < key y
  | .nil, _, _ => rfl
  | .node h l x r, ht, k => by
    obtain ⟨hl, hr, hlx, -⟩ := sorted_node.mp ht
    rw [avlupperbound, toList_node]
    split
    · rename_i hlt
      have hkx := (hc.neg_iff k x).mp hlt
      rw [List.find?_append, avlupperbound_eq hc hl, List.find?_cons_of_pos (by simpa using hkx)]
    · rename_i hnlt
      have hxk : key x ≤ key k := not_lt.mp fun h => hnlt ((hc.neg_iff k x).mpr h)
      rw [find?_of_left fun y hy => by simpa using (hlx y hy).le.trans hxk,
        List.find?_cons_of_neg (by simpa using hxk), avlupperbound_eq hc hr]

/-- **The queries agree with the sorted list**, for a search tree of any shape and any key. -/
theorem queries_toList (hc : Orders compare key) {t : Tree α} (ht : SearchTree compare t) :
    (∀ k y, avlsearch compare t k = some y ↔ y ∈ toList t ∧ key y = key k) ∧
      (∀ k, avlsearch compare t k = none ↔ ∀ y ∈ toList t, key y ≠ key k) ∧
      entry (avlgetmin t) = (toList t).head? ∧
      entry (avlgetmax t) = (toList t).getLast? ∧
      (∀ k, avllowerbound compare t k = (toList t).find? fun y => key k ≤ key y) ∧
      ∀ k, avlupperbound compare t k = (toList t).find? fun y => key k < key y := by
  have hs := (searchTree_iff hc).mp ht
  refine ⟨fun k y => avlsearch_eq_some hc hs, fun k => avlsearch_eq_none hc hs,
    entry_avlgetmin t, entry_avlgetmax t, avllowerbound_eq hc hs, avlupperbound_eq hc hs⟩

/-- A tree that leans to the right, with heights that are not the real ones: the bounds of a key
below all, between two, and above all. -/
theorem queries_toList_leaning :
    (avllowerbound (fun a b : Int => a - b)
        (.node 7 .nil 2 (.node 0 (.node 5 .nil 4 .nil) 6 .nil)) 3 = some 4 ∧
      avlupperbound (fun a b : Int => a - b)
        (.node 7 .nil 2 (.node 0 (.node 5 .nil 4 .nil) 6 .nil)) 6 = none) ∧
    ∀ k, avllowerbound (fun a b : Int => a - b)
        (.node 7 .nil 2 (.node 0 (.node 5 .nil 4 .nil) 6 .nil)) k =
      [2, 4, 6].find? fun y => k ≤ y := by
  have hc : Orders (fun a b : Int => a - b) (id : Int → Int) :=
    ⟨fun x y => by simp only [id_eq]; omega, fun x y => by simp only [id_eq]; omega⟩
  have ht : SearchTree (fun a b : Int => a - b)
      (.node 7 .nil 2 (.node 0 (.node 5 .nil 4 .nil) 6 .nil)) := by simp [SearchTree]
  exact ⟨by decide, (queries_toList hc ht).2.2.2.2.1⟩

/-! ## What a removal reports -/

/-- What `*rmnode` promises after a removal: the node of the tree with the key asked for, or null
when there is none; and the node that it names is not in the tree any more. -/
def Reports (compare : α → α → Int) (key : α → K) (t : Tree α) (node : α) (rmnode : Option α) :
    Prop :=
  (∀ y, (avlremove compare t node rmnode).2 = some y ↔ y ∈ toList t ∧ key y = key node) ∧
    ∀ y, (avlremove compare t node rmnode).2 = some y →
      y ∉ toList (avlremove compare t node rmnode).1

theorem reports_of_ne_nil (hc : Orders compare key) {t : Tree α} (ht : Sorted key t)
    (hne : t ≠ .nil) (x : α) (rm : Option α) : Reports compare key t x rm := by
  have hsnd : (avlremove compare t x rm).2 = avlsearch compare t x := by
    rw [avlremove_of_ne_nil hne, avlremove_snd]
  refine ⟨fun y => ?_, fun y hy => ?_⟩
  · rw [hsnd, avlsearch_eq_some hc ht]
  · rw [hsnd, avlsearch_eq_some hc ht] at hy
    rw [mem_toList_avlremove hc ht]
    exact fun h => h.2 hy.2

omit [LinearOrder K] in
theorem reports_nil {x : α} {rm : Option α} :
    Reports compare key (.nil : Tree α) x rm ↔ rm = none := by
  simp [Reports, avlremove, Option.eq_none_iff_forall_ne_some]

/-- **A removal reports what it removed exactly when there is a tree**, or when the variable of the
caller was null beforehand: after any sequence of calls, for every key and every former value. -/
theorem avlremove_reports (hc : Orders compare key) (calls : List (Call α)) (x : α)
    (rm : Option α) :
    Reports compare key (run compare calls) x rm ↔ run compare calls ≠ .nil ∨ rm = none := by
  have hwf : Wf key (run compare calls) := (wf_foldl_call hc calls wf_nil).1
  by_cases hnil : run compare calls = .nil
  · rw [hnil, reports_nil]
    simp
  · exact ⟨fun _ => .inl hnil, fun _ => reports_of_ne_nil hc hwf.sorted hnil x rm⟩

/-- The node with two children of a tree of three is reported, whatever the variable held. -/
theorem avlremove_reports_two_children :
    Reports (fun a b : Int => a - b) id
      (run (fun a b : Int => a - b) [.insert 5, .insert 3, .insert 8]) 5 (some 7) := by
  have hc : Orders (fun a b : Int => a - b) (id : Int → Int) :=
    ⟨fun x y => by simp only [id_eq]; omega, fun x y => by simp only [id_eq]; omega⟩
  exact (avlremove_reports hc _ 5 (some 7)).mpr (.inl (by decide))

/-- After its only node has been removed, a second removal from the tree reports whatever the
variable held: here the node that was freed after the first. -/
theorem avlremove_reports_freed :
    (avlremove (fun a b : Int => a - b)
        (run (fun a b : Int => a - b) [.insert 5, .remove 5]) 5 (some 5)).2 = some 5 ∧
      ¬Reports (fun a b : Int => a - b) id
        (run (fun a b : Int => a - b) [.insert 5, .remove 5]) 5 (some 5) := by
  refine ⟨by decide, fun h => ?_⟩
  have hmem := (h.1 5).mp (by decide)
  exact absurd hmem.1 (by decide)

end Avl

end LibNax
