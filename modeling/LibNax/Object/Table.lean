import LibNax.Common
import Mathlib.Algebra.Group.Nat.Defs
import Mathlib.Data.Int.Order.Basic
import LibNax.Avl.Search
import LibNax.Lib.Int32

/-!
# The object table

The table that maps handles to reference-counted objects.  Every function of the source that takes
the lock of the table is one function of the table here, since nothing else runs inside the lock;
what happens before and after it belongs to the threads (`LibNax.Object.Lifetime`).

An `object_t` lives at an address, a natural number, and its mutable fields are in `heap`.  The
tree nodes carry the handle, which is fixed before the object is inserted, and the address, which
is what `containing_record` computes.  Addresses are never handed out twice, so an address names
an object for the whole of a run, also after it has been freed.  The counter of references is an
`int`, and is counted up without a test; the counter of handles, a `long`, is unbounded.

* `objtabinst`, `objtabsrch`, `objtabrmve` — insertion, search and removal.
* `objrefr`, `objrefr2`, `objreff`, `objdefr`, `objclos` — the critical sections of the functions of
  the same name.
* `Entry` — what the table contains, and `mem_objtabsrch`, `entry_objtabrmve`, `entry_insert` what
  the three operations do to it.
-/

set_option autoImplicit false

namespace LibNax

namespace Object

open Lib (int32)

/-- `OBJSTAT_NORMAL` and `OBJSTAT_CLOSEWAIT`. -/
inductive Status where
  | normal
  | closewait
  deriving Repr, DecidableEq

/-- An `object_t`.  The two callbacks are recorded by whether they are there. -/
structure Obj where
  /-- The handle. -/
  hld : Int
  /-- Whether the object waits for its last reference to go. -/
  status : Status
  /-- The number of references. -/
  refcnt : Int
  /-- The size of the body. -/
  size : Nat
  /-- Whether the initializer is not null. -/
  initializer : Bool
  /-- Whether the unloader is not null. -/
  unloader : Bool
  deriving Repr, DecidableEq

/-- The tree node of an object. -/
structure Clash where
  /-- The handle of the object. -/
  hld : Int
  /-- The address of the object. -/
  obj : Nat
  deriving Repr, DecidableEq

/-- `INVALID_OBJHLD`. -/
def invalidObjhld : Int := -1

/-- `ENODEV`, as the status that `posix__makeerror` makes of it. -/
def enodev : Int := -19

/-- `_avl_compare_routine`. -/
def avlCompareRoutine (left right : Clash) : Int :=
  if left.hld > right.hld then 1
  else if left.hld < right.hld then -1
  else 0

theorem orders_avlCompareRoutine : Avl.Orders avlCompareRoutine Clash.hld := by
  constructor
  · intro x y
    rw [avlCompareRoutine]
    split
    · constructor <;> intro h <;> omega
    · split
      · constructor <;> intro h <;> omega
      · constructor <;> intro h <;> omega
  · intro x y
    rw [avlCompareRoutine]
    split
    · constructor <;> intro h <;> omega
    · split
      · constructor <;> intro h <;> omega
      · constructor <;> intro h <;> omega

/-- `struct _object_manager`, with the memory of the objects. -/
structure Table where
  /-- The roots of the trees, one for each remainder of the handle. -/
  roottab : Nat → Avl.Tree Clash
  /-- The last handle given out. -/
  atoid : Int
  /-- The objects by address. -/
  heap : Nat → Obj
  /-- The next address that the allocator returns. -/
  next : Nat

/-- `_hld2root`: the index of the root for a handle, none for a handle that is not positive. -/
def hld2root (hld : Int) : Option Nat := if hld > 0 then some (hld.toNat &&& 255) else none

/-- The node on the stack that a search compares with. -/
def find (hld : Int) : Clash := ⟨hld, 0⟩

/-- `_objtabsrch`. -/
def objtabsrch (t : Table) (hld : Int) : Option Nat :=
  match hld2root hld with
  | none => none
  | some i => (Avl.avlsearch avlCompareRoutine (t.roottab i) (find hld)).map Clash.obj

/-- Writing a root of the table. -/
def Table.setRoot (t : Table) (i : Nat) (root : Avl.Tree Clash) : Table :=
  { t with roottab := Function.update t.roottab i root }

/-- Writing the fields of an object. -/
def Table.store (t : Table) (obj : Nat) (o : Obj) : Table :=
  { t with heap := Function.update t.heap obj o }

/-- `_objtabinst`.  The object at `obj` keeps a handle it asks for, if that is free, and gets the
next one otherwise. -/
def objtabinst (t : Table) (obj : Nat) : Table × Int :=
  if (t.heap obj).hld ≠ invalidObjhld ∨ (t.heap obj).hld = 0 then
    match hld2root (t.heap obj).hld with
    | none => (t, enodev)
    | some i =>
      match Avl.avlsearch avlCompareRoutine (t.roottab i) (find (t.heap obj).hld) with
      | some _ => (t, eExist)
      | none =>
        (t.setRoot i (Avl.avlinsert avlCompareRoutine (t.roottab i) ⟨(t.heap obj).hld, obj⟩), 0)
  else
    let hld := t.atoid + 1
    let t' := { t with atoid := hld }.store obj { t.heap obj with hld }
    match hld2root hld with
    | none => (t', enodev)
    | some i => (t'.setRoot i (Avl.avlinsert avlCompareRoutine (t'.roottab i) ⟨hld, obj⟩), 0)

/-- `_objtabrmve`: the table without the handle, and the object that had it. -/
def objtabrmve (t : Table) (hld : Int) : Table × Option Nat :=
  match hld2root hld with
  | none => (t, none)
  | some i =>
    let r := Avl.avlremove avlCompareRoutine (t.roottab i) (find hld) none
    (t.setRoot i r.1, r.2.map Clash.obj)

/-- `objrefr`: the object referenced, or none. -/
def objrefr (t : Table) (hld : Int) : Table × Option Nat :=
  match objtabsrch t hld with
  | none => (t, none)
  | some obj =>
    -- an object that waits for its close is ignored
    if (t.heap obj).status = .normal then
      (t.store obj { t.heap obj with refcnt := int32 ((t.heap obj).refcnt + 1) }, some obj)
    else (t, none)

/-- `objrefr2`: as `objrefr`, and the size of the body, `(unsigned int)-1` on failure. -/
def objrefr2 (t : Table) (hld : Int) (out : Bool) : Table × Option Nat × Nat :=
  if !out then (t, none, 2 ^ 32 - 1)
  else
    match objtabsrch t hld with
    | none => (t, none, 2 ^ 32 - 1)
    | some obj =>
      if (t.heap obj).status = .normal then
        (t.store obj { t.heap obj with refcnt := int32 ((t.heap obj).refcnt + 1) }, some obj,
          (t.heap obj).size)
      else (t, none, 2 ^ 32 - 1)

/-- `objreff`: the last reference that can be taken, which also starts the close. -/
def objreff (t : Table) (hld : Int) : Table × Option Nat :=
  match objtabsrch t hld with
  | none => (t, none)
  | some obj =>
    if (t.heap obj).status = .normal then
      (t.store obj { t.heap obj with
        refcnt := int32 ((t.heap obj).refcnt + 1)
        status := .closewait }, some obj)
    else (t, none)

/-- `objdefr`, up to the release of the lock: the object to free, if the last reference of a closed
object has gone.  The assertion that the counter is positive is the test that follows it. -/
def objdefr (t : Table) (hld : Int) : Table × Option Nat :=
  match objtabsrch t hld with
  | none => (t, none)
  | some obj =>
    if (t.heap obj).refcnt > 0 then
      let t' := t.store obj { t.heap obj with refcnt := (t.heap obj).refcnt - 1 }
      if (t'.heap obj).refcnt = 0 ∧ (t'.heap obj).status = .closewait then
        objtabrmve t' (t'.heap obj).hld
      else (t', none)
    else (t, none)

/-- `objclos`, up to the release of the lock. -/
def objclos (t : Table) (hld : Int) : Table × Option Nat :=
  match objtabsrch t hld with
  | none => (t, none)
  | some obj =>
    if (t.heap obj).refcnt = 0 ∧ (t.heap obj).status = .normal then
      objtabrmve t (t.heap obj).hld
    else (t.store obj { t.heap obj with status := .closewait }, none)

/-! ## What the table contains -/

/-- The object at address `obj` is in the table under the handle `hld`. -/
def Entry (t : Table) (hld : Int) (obj : Nat) : Prop :=
  ∃ i, hld2root hld = some i ∧ ⟨hld, obj⟩ ∈ Avl.toList (t.roottab i)

/-- The trees of the table are search trees. -/
def Wf (t : Table) : Prop := ∀ i, Avl.Wf Clash.hld (t.roottab i)

theorem Entry.unique {t : Table} (ht : Wf t) {hld : Int} {obj obj' : Nat} (h : Entry t hld obj)
    (h' : Entry t hld obj') : obj = obj' := by
  obtain ⟨i, hi, hmem⟩ := h
  obtain ⟨i', hi', hmem'⟩ := h'
  rw [hi] at hi'
  cases hi'
  have := (ht i).sorted.eq_of_key_eq hmem hmem' rfl
  cases this
  rfl

/-- **The search finds what the table contains.** -/
theorem mem_objtabsrch {t : Table} (ht : Wf t) {hld : Int} {obj : Nat} :
    objtabsrch t hld = some obj ↔ Entry t hld obj := by
  unfold objtabsrch Entry
  cases hi : hld2root hld with
  | none => simp
  | some i =>
    simp only [Option.map_eq_some_iff,
      Avl.avlsearch_eq_some orders_avlCompareRoutine (ht i).sorted]
    constructor
    · rintro ⟨⟨h, o⟩, ⟨hmem, hk⟩, rfl⟩
      cases hk
      exact ⟨i, rfl, hmem⟩
    · rintro ⟨j, hj, hmem⟩
      cases hj
      exact ⟨_, ⟨hmem, rfl⟩, rfl⟩

theorem objtabsrch_eq_none {t : Table} (ht : Wf t) {hld : Int} :
    objtabsrch t hld = none ↔ ∀ obj, ¬Entry t hld obj := by
  constructor
  · intro h obj he
    rw [(mem_objtabsrch ht).mpr he] at h
    cases h
  · intro h
    cases ho : objtabsrch t hld with
    | none => rfl
    | some obj => exact absurd ((mem_objtabsrch ht).mp ho) (h obj)

@[simp] theorem entry_store {t : Table} {obj : Nat} {o : Obj} {hld : Int} {obj' : Nat} :
    Entry (t.store obj o) hld obj' ↔ Entry t hld obj' := Iff.rfl

theorem wf_store {t : Table} (ht : Wf t) (obj : Nat) (o : Obj) : Wf (t.store obj o) := ht

/-- **The removal takes out the handle, and nothing else.** -/
theorem entry_objtabrmve {t : Table} (ht : Wf t) {hld hld' : Int} {obj : Nat} :
    Entry (objtabrmve t hld).1 hld' obj ↔ Entry t hld' obj ∧ hld' ≠ hld := by
  unfold objtabrmve Entry Table.setRoot
  cases hi : hld2root hld with
  | none =>
    constructor
    · rintro ⟨j, hj, hmem⟩
      refine ⟨⟨j, hj, hmem⟩, ?_⟩
      rintro rfl
      rw [hi] at hj
      cases hj
    · exact fun h => h.1
  | some i =>
    constructor
    · rintro ⟨j, hj, hmem⟩
      by_cases hij : j = i
      · subst hij
        simp only [Function.update_self,
          Avl.mem_toList_avlremove orders_avlCompareRoutine (ht j).sorted] at hmem
        exact ⟨⟨j, hj, hmem.1⟩, hmem.2⟩
      · simp only [Function.update_of_ne hij] at hmem
        refine ⟨⟨j, hj, hmem⟩, ?_⟩
        rintro rfl
        rw [hi] at hj
        cases hj
        exact hij rfl
    · rintro ⟨⟨j, hj, hmem⟩, hne⟩
      refine ⟨j, hj, ?_⟩
      by_cases hij : j = i
      · subst hij
        simp only [Function.update_self,
          Avl.mem_toList_avlremove orders_avlCompareRoutine (ht j).sorted]
        exact ⟨hmem, hne⟩
      · simpa only [Function.update_of_ne hij] using hmem

theorem wf_objtabrmve {t : Table} (ht : Wf t) (hld : Int) : Wf (objtabrmve t hld).1 := by
  unfold objtabrmve Table.setRoot
  cases hld2root hld with
  | none => exact ht
  | some i =>
    intro j
    by_cases hij : j = i
    · subst hij
      simp only [Function.update_self]
      exact (ht j).avlremove orders_avlCompareRoutine _ _
    · simp only [Function.update_of_ne hij]
      exact ht j

theorem objtabrmve_snd (t : Table) (hld : Int) : (objtabrmve t hld).2 = objtabsrch t hld := by
  unfold objtabrmve objtabsrch
  cases hld2root hld with
  | none => rfl
  | some i => simp only [Avl.avlremove_snd]

theorem objtabrmve_fst (t : Table) (hld : Int) :
    (objtabrmve t hld).1.heap = t.heap ∧ (objtabrmve t hld).1.next = t.next ∧
      (objtabrmve t hld).1.atoid = t.atoid := by
  unfold objtabrmve Table.setRoot
  cases hld2root hld <;> exact ⟨rfl, rfl, rfl⟩

/-- Inserting a handle that is not in the table adds it and nothing else. -/
theorem entry_insert {t : Table} (ht : Wf t) {hld : Int} {i obj : Nat}
    (hi : hld2root hld = some i) (hfree : ∀ o, ¬Entry t hld o) {hld' : Int} {obj' : Nat} :
    Entry (t.setRoot i (Avl.avlinsert avlCompareRoutine (t.roottab i) ⟨hld, obj⟩)) hld' obj' ↔
      Entry t hld' obj' ∨ hld' = hld ∧ obj' = obj := by
  have hnew : ∀ z ∈ Avl.toList (t.roottab i), z.hld ≠ hld := by
    rintro ⟨h, o⟩ hz rfl
    exact hfree o ⟨i, hi, hz⟩
  have hmemi := @Avl.mem_toList_avlinsert _ _ _ _ _ orders_avlCompareRoutine _ (ht i).sorted
    (⟨hld, obj⟩ : Clash)
  unfold Entry Table.setRoot
  constructor
  · rintro ⟨j, hj, hmem⟩
    by_cases hij : j = i
    · subst hij
      simp only [Function.update_self, hmemi hnew] at hmem
      rcases hmem with hmem | hmem
      · cases hmem
        exact .inr ⟨rfl, rfl⟩
      · exact .inl ⟨j, hj, hmem⟩
    · simp only [Function.update_of_ne hij] at hmem
      exact .inl ⟨j, hj, hmem⟩
  · rintro (⟨j, hj, hmem⟩ | ⟨rfl, rfl⟩)
    · refine ⟨j, hj, ?_⟩
      by_cases hij : j = i
      · subst hij
        simp only [Function.update_self, hmemi hnew]
        exact .inr hmem
      · simpa only [Function.update_of_ne hij] using hmem
    · refine ⟨i, hi, ?_⟩
      simp only [Function.update_self, hmemi hnew, true_or]

theorem wf_insert {t : Table} (ht : Wf t) (i : Nat) (c : Clash) :
    Wf (t.setRoot i (Avl.avlinsert avlCompareRoutine (t.roottab i) c)) := by
  intro j
  unfold Table.setRoot
  by_cases hij : j = i
  · subst hij
    simp only [Function.update_self]
    exact (ht j).avlinsert orders_avlCompareRoutine c
  · simp only [Function.update_of_ne hij]
    exact ht j

end Object

end LibNax
