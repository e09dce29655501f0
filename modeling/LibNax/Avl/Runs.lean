import Mathlib.Data.Set.Insert
import LibNax.Avl.Search

/-!
# Whole runs of the AVL tree

Any sequence of insertions and removals from the empty tree.  Over the tree stands what it is for, a
set of keys: `keysAfter` says what a call does to the set, and `run_correct` that the tree is a
balanced search tree holding that set after every call.
-/

set_option autoImplicit false

namespace LibNax

namespace Avl

variable {α K : Type} [LinearOrder K] {compare : α → α → Int} {key : α → K}

/-- A call that changes the tree. -/
inductive Call (α : Type) where
  | insert (node : α)
  | remove (node : α)

/-- The tree after a call. -/
def call (compare : α → α → Int) (t : Tree α) : Call α → Tree α
  | .insert node => avlinsert compare t node
  | .remove node => (avlremove compare t node none).1

/-- The tree after a sequence of calls, from the empty one. -/
def run (compare : α → α → Int) (calls : List (Call α)) : Tree α :=
  calls.foldl (call compare) .nil

/-- The keys of the nodes of a tree. -/
def keys (key : α → K) (t : Tree α) : Set K := {k | ∃ y ∈ toList t, key y = k}

/-- What a call means for the set of keys. -/
def keysAfter (key : α → K) (s : Set K) : Call α → Set K
  | .insert node => insert (key node) s
  | .remove node => s \ {key node}

theorem keys_call (hc : Orders compare key) {t : Tree α} (ht : Wf key t) (c : Call α) :
    keys key (call compare t c) = keysAfter key (keys key t) c := by
  ext k
  cases c with
  | insert x =>
    simp only [call, keysAfter, keys, Set.mem_ofPred_eq, Set.mem_insert_iff]
    by_cases hx : ∃ y ∈ toList t, key y = key x
    · rw [avlinsert_of_mem hc x ht.shape ht.sorted hx]
      constructor
      · exact .inr
      · rintro (rfl | h)
        · exact hx
        · exact h
    · have hx' : ∀ y ∈ toList t, key y ≠ key x := fun y hy h => hx ⟨y, hy, h⟩
      simp only [mem_toList_avlinsert hc ht.sorted hx']
      constructor
      · rintro ⟨y, rfl | hy, rfl⟩
        · exact .inl rfl
        · exact .inr ⟨y, hy, rfl⟩
      · rintro (rfl | ⟨y, hy, rfl⟩)
        · exact ⟨x, .inl rfl, rfl⟩
        · exact ⟨y, .inr hy, rfl⟩
  | remove x =>
    simp only [call, keysAfter, keys, Set.mem_ofPred_eq, Set.mem_sdiff, Set.mem_singleton_iff,
      mem_toList_avlremove hc ht.sorted]
    constructor
    · rintro ⟨y, ⟨hy, hne⟩, rfl⟩
      exact ⟨⟨y, hy, rfl⟩, hne⟩
    · rintro ⟨⟨y, hy, rfl⟩, hne⟩
      exact ⟨y, ⟨hy, hne⟩, rfl⟩

theorem wf_call (hc : Orders compare key) {t : Tree α} (ht : Wf key t) (c : Call α) :
    Wf key (call compare t c) := by
  cases c with
  | insert x => exact ht.avlinsert hc x
  | remove x => exact ht.avlremove hc x none

/-- A run keeps the invariant and follows the set of keys. -/
theorem wf_foldl_call (hc : Orders compare key) (calls : List (Call α)) :
    ∀ {t : Tree α}, Wf key t →
      Wf key (calls.foldl (call compare) t) ∧
        keys key (calls.foldl (call compare) t) = calls.foldl (keysAfter key) (keys key t) := by
  induction calls with
  | nil => exact fun ht => ⟨ht, rfl⟩
  | cons c calls ih =>
    intro t ht
    rw [List.foldl_cons, List.foldl_cons, ← keys_call hc ht c]
    exact ih (wf_call hc ht c)

/-- **The tree over whole runs.**  After any sequence of calls the tree is a search tree, its stored
heights are the real ones, siblings differ by at most one, and its keys are those of the set; a key
that is there is not inserted again, one that is not there is not removed, and a removal drops
exactly the node with the key. -/
theorem run_correct (hc : Orders compare key) (calls : List (Call α)) :
    SearchTree compare (run compare calls) ∧ StoredHeights (run compare calls) ∧
      SiblingsBalanced (run compare calls) ∧
      keys key (run compare calls) = calls.foldl (keysAfter key) ∅ ∧
      (∀ x, key x ∈ keys key (run compare calls) →
        avlinsert compare (run compare calls) x = run compare calls) ∧
      (∀ x, key x ∉ keys key (run compare calls) →
        ∀ y, y ∈ toList (avlinsert compare (run compare calls) x) ↔
          y = x ∨ y ∈ toList (run compare calls)) ∧
      (∀ x rm, key x ∉ keys key (run compare calls) →
        (avlremove compare (run compare calls) x rm).1 = run compare calls) ∧
      ∀ x rm, ∀ y ∈ toList (run compare calls), key y = key x →
        (avlremove compare (run compare calls) x rm).2 = some y ∧
          ∃ before after, toList (run compare calls) = before ++ y :: after ∧
            toList (avlremove compare (run compare calls) x rm).1 = before ++ after := by
  have hempty : keys key (.nil : Tree α) = ∅ := by
    ext k
    simp [keys]
  obtain ⟨hwf, hkeys⟩ := wf_foldl_call hc calls wf_nil
  rw [hempty] at hkeys
  change Wf key (run compare calls) at hwf
  change keys key (run compare calls) = _ at hkeys
  obtain ⟨hheights, hbalanced⟩ := shape_iff.mp hwf.shape
  refine ⟨(searchTree_iff hc).mpr hwf.sorted, hheights, hbalanced, hkeys, ?_, ?_, ?_, ?_⟩
  · intro x hx
    exact avlinsert_of_mem hc x hwf.shape hwf.sorted hx
  · intro x hx y
    exact mem_toList_avlinsert hc hwf.sorted fun z hz h => hx ⟨z, hz, h⟩
  · intro x rm hx
    exact avlremove_of_notMem hc hwf.shape hwf.sorted x rm fun z hz h => hx ⟨z, hz, h⟩
  · intro x rm y hy hk
    exact avlremove_of_mem hc hwf.sorted hy hk rm

/-- Six insertions, one of them of a key already there, and the removal of a node with two children:
the run makes a double rotation and splices a successor in. -/
theorem run_correct_example :
    toList (run (fun a b : Int => a - b)
        [.insert 5, .insert 9, .insert 7, .insert 3, .insert 7, .insert 8, .remove 7]) =
      [3, 5, 8, 9] ∧
      StoredHeights (run (fun a b : Int => a - b)
        [.insert 5, .insert 9, .insert 7, .insert 3, .insert 7, .insert 8, .remove 7]) ∧
      keys (id : Int → Int) (run (fun a b : Int => a - b)
        [.insert 5, .insert 9, .insert 7, .insert 3, .insert 7, .insert 8, .remove 7]) =
        [.insert 5, .insert 9, .insert 7, .insert 3, .insert 7, .insert 8, .remove 7].foldl
          (keysAfter id) ∅ := by
  have hc : Orders (fun a b : Int => a - b) (id : Int → Int) :=
    ⟨fun x y => by simp only [id_eq]; omega, fun x y => by simp only [id_eq]; omega⟩
  exact ⟨by decide, (run_correct hc _).2.1, (run_correct hc _).2.2.2.1⟩

end Avl

end LibNax
