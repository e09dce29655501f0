import LibNax.Object.Allocate

/-!
# Handles that callers choose

A caller may ask for a handle of its own.  The handles that the table gives out come from a counter
that knows nothing of these, and the tree drops a node whose key it has, without a word: when the
counter arrives at a handle that was asked for, the allocation succeeds with a handle that belongs
to another object.

* `State`, `Call` and `step` — sequences of whole calls, with a record of the live objects: those
  that an allocation has returned and that were not freed.
* `Unique` — every live object has a handle of its own, `objrefr` finds it until it is closed, and
  nobody else gets its handle.
* `unique_iff` — this holds all the way exactly when the counter never arrives at the handle of a
  live object.
-/

set_option autoImplicit false

namespace LibNax

namespace Object

namespace Allocate

/-- A live object: the handle that the allocation returned, and whether it was closed. -/
structure Live where
  hld : Int
  obj : Nat
  closed : Bool
  deriving Repr, DecidableEq

/-- The table and the live objects, the latest first. -/
structure State where
  table : Table
  live : List Live

/-- A call. -/
inductive Call where
  | objallo3 (creator : Option Creator) (mem : Bool) (initret : Int)
  | objallo4 (creator : Option Creator) (out mem : Bool) (initret : Int)
  | objallo (size : Nat) (initializer unloader context : Bool) (ctxsize : Nat) (mem : Bool)
      (initret : Int)
  | objallo2 (size : Nat) (mem : Bool)
  | objrefr (hld : Int)
  | objrefr2 (hld : Int) (out : Bool)
  | objreff (hld : Int)
  | objdefr (hld : Int)
  | objclos (hld : Int)
  deriving Repr, DecidableEq

/-- An allocation has returned: the object is at the address that was next. -/
def State.allocated (s : State) (t : Table) : Option Int → State
  | none => ⟨t, s.live⟩
  | some hld => ⟨t, ⟨hld, s.table.next, false⟩ :: s.live⟩

/-- The handle that `objallo3` returns, unless it is `INVALID_OBJHLD`. -/
def valid (hld : Int) : Option Int := if hld = invalidObjhld then none else some hld

/-- The object with this handle is closed. -/
def close (hld : Int) (live : List Live) : List Live :=
  live.map fun e => if e.hld = hld then { e with closed := true } else e

/-- The object that was taken out of the table is freed. -/
def free (removed : Option Nat) (live : List Live) : List Live :=
  match removed with
  | none => live
  | some obj => live.filter fun e => e.obj ≠ obj

/-- A call. -/
def step (s : State) : Call → State
  | .objallo3 creator mem initret =>
    let r := Allocate.objallo3 s.table creator mem initret
    s.allocated r.1 (valid r.2.1)
  | .objallo4 creator out mem initret =>
    let r := Allocate.objallo4 s.table creator out mem initret
    s.allocated r.1 r.2.2.1
  | .objallo size initializer unloader context ctxsize mem initret =>
    let r := Allocate.objallo s.table size initializer unloader context ctxsize mem initret
    s.allocated r.1 (valid r.2.1)
  | .objallo2 size mem =>
    let r := Allocate.objallo2 s.table size mem
    s.allocated r.1 (valid r.2.1)
  | .objrefr hld => ⟨(Object.objrefr s.table hld).1, s.live⟩
  | .objrefr2 hld out => ⟨(Object.objrefr2 s.table hld out).1, s.live⟩
  | .objreff hld =>
    let r := Object.objreff s.table hld
    ⟨r.1, if r.2.isSome then close hld s.live else s.live⟩
  | .objdefr hld =>
    let r := Object.objdefr s.table hld
    ⟨r.1, free r.2 s.live⟩
  | .objclos hld =>
    let r := Object.objclos s.table hld
    ⟨r.1, free r.2 (close hld s.live)⟩

/-- What is promised of the handles. -/
structure Unique (s : State) : Prop where
  /-- No two live objects have one handle. -/
  distinct : (s.live.map Live.hld).Nodup
  /-- A handle leads to its object until that is closed. -/
  refr : ∀ e ∈ s.live, e.closed = false → (Object.objrefr s.table e.hld).2 = some e.obj
  /-- An allocation that asks for a handle in use fails. -/
  taken : ∀ e ∈ s.live, ∀ c : Creator, c.known = e.hld → ∀ mem initret,
    (objallo3 s.table (some c) mem initret).2.1 = invalidObjhld ∧
      ∀ out, (objallo4 s.table (some c) out mem initret).2.1 < 0

/-- What an allocation asks for, if its pointers are not null. -/
def Call.request : Call → Option (Creator × Bool × Int)
  | .objallo3 (some c) mem initret => some (c, mem, initret)
  | .objallo4 (some c) true mem initret => some (c, mem, initret)
  | .objallo size initializer unloader context ctxsize mem initret =>
    some (⟨invalidObjhld, size, initializer, unloader, context, ctxsize⟩, mem, initret)
  | .objallo2 size mem => some (⟨invalidObjhld, size, false, false, false, 0⟩, mem, 0)
  | _ => none

/-- If the counter is used, it does not arrive at the handle of a live object. -/
def Guarded (s : State) (call : Call) : Prop :=
  ∀ c mem initret, call.request = some (c, mem, initret) → c.legal = true → mem = true →
    (c.initializer = true → 0 ≤ initret) → (c.known = 0 ∨ c.known = invalidObjhld) →
    ∀ e ∈ s.live, e.hld ≠ s.table.atoid + 1

/-! ## The table has the live objects -/

/-- The table has the live objects, each under its handle. -/
structure Agrees (s : State) : Prop where
  wf : Wf s.table
  atoid : 0 ≤ s.table.atoid
  distinct : (s.live.map Live.hld).Nodup
  entry : ∀ hld obj, Entry s.table hld obj ↔ ∃ e ∈ s.live, e.hld = hld ∧ e.obj = obj
  lt : ∀ e ∈ s.live, e.obj < s.table.next
  object : ∀ e ∈ s.live, (s.table.heap e.obj).hld = e.hld ∧
    ((s.table.heap e.obj).status = .normal ↔ e.closed = false)

section Steps

variable {s : State} {t' : Table} {c : Creator} {mem : Bool} {initret : Int}

theorem agrees_start : Agrees ⟨start, []⟩ where
  wf := fun _ => Avl.wf_nil
  atoid := Int.le_refl 0
  distinct := .nil
  entry := by
    intro hld obj
    constructor
    · rintro ⟨i, -, hmem⟩
      cases hmem
    · rintro ⟨e, he, -⟩
      cases he
  lt := fun e he => by cases he
  object := fun e he => by cases he

theorem Agrees.mem_entry (h : Agrees s) {e : Live} (he : e ∈ s.live) :
    Entry s.table e.hld e.obj := (h.entry _ _).mpr ⟨e, he, rfl, rfl⟩

/-- Live objects with one handle are one object, and the other way round. -/
theorem Agrees.hld_eq_iff (h : Agrees s) {e e' : Live} (he : e ∈ s.live) (he' : e' ∈ s.live) :
    e.hld = e'.hld ↔ e.obj = e'.obj := by
  constructor
  · intro heq
    have hentry := h.mem_entry he
    rw [heq] at hentry
    exact hentry.unique h.wf (h.mem_entry he')
  · intro heq
    rw [← (h.object e he).1, ← (h.object e' he').1, heq]

theorem Agrees.objtabsrch (h : Agrees s) {e : Live} (he : e ∈ s.live) :
    objtabsrch s.table e.hld = some e.obj :=
  (mem_objtabsrch h.wf).mpr (h.mem_entry he)

theorem Agrees.of_objtabsrch (h : Agrees s) {hld : Int} {obj : Nat}
    (hsrch : Object.objtabsrch s.table hld = some obj) : ∃ e ∈ s.live, e.hld = hld ∧ e.obj = obj :=
  (h.entry _ _).mp ((mem_objtabsrch h.wf).mp hsrch)

/-- A handle of the table is positive. -/
theorem entry_pos {t : Table} {hld : Int} {obj : Nat} (h : Entry t hld obj) : 0 < hld := by
  obtain ⟨i, hi, -⟩ := h
  rw [hld2root] at hi
  split at hi
  · assumption
  · cases hi

theorem Outcome.eq_none (h : Refused s.table c) {hld : Option Int} {calls : List Callback}
    (ho : Outcome s.table c mem initret t' hld calls) : hld = none := by
  cases ho with
  | installed _ _ _ hnot => exact absurd h hnot
  | _ => rfl

theorem Agrees.unique (h : Agrees s) : Unique s where
  distinct := h.distinct
  refr := by
    intro e he hopen
    rw [Object.objrefr, h.objtabsrch he]
    simp only [if_pos ((h.object e he).2.mpr hopen)]
  taken := by
    intro e he c hknown mem initret
    have hpos := entry_pos (h.mem_entry he)
    have hrefused : Refused s.table c := by
      refine ⟨by omega, by rw [invalidObjhld]; omega, .inr ?_⟩
      rw [hknown, h.objtabsrch he]
      rfl
    constructor
    · obtain ⟨hld, ho, hret⟩ := objallo3_outcome h.atoid c mem initret
      rw [hret, ho.eq_none hrefused]
      rfl
    · intro out
      cases out with
      | false => exact (show eInval < 0 by decide)
      | true =>
        obtain ⟨ho, hstatus⟩ := objallo4_outcome h.atoid c mem initret
        exact hstatus.mpr (ho.eq_none hrefused)

/-! ## Allocation -/

/-- What a call that allocates does. -/
theorem step_request (hatoid : 0 ≤ s.table.atoid) {call : Call}
    (hcall : call.request = some (c, mem, initret)) :
    ∃ t' hld calls, Outcome s.table c mem initret t' hld calls ∧
    step s call = s.allocated t' hld := by
  have hthree : ∀ (c : Creator) (mem : Bool) (initret : Int), ∃ t' hld calls,
      Outcome s.table c mem initret t' hld calls ∧
        s.allocated (objallo3 s.table (some c) mem initret).1
          (valid (objallo3 s.table (some c) mem initret).2.1) = s.allocated t' hld := by
    intro c mem initret
    obtain ⟨hld, ho, hret⟩ := objallo3_outcome hatoid c mem initret
    refine ⟨_, hld, _, ho, ?_⟩
    congr 1
    rw [hret, valid]
    by_cases hnone : hld = none
    · rw [if_pos ((ho.pos hatoid).mpr hnone), hnone]
    · rw [if_neg fun heq => hnone ((ho.pos hatoid).mp heq)]
      obtain ⟨hld, rfl⟩ := Option.ne_none_iff_exists'.mp hnone
      rfl
  cases call with
  | objallo3 creator mem' initret' =>
    cases creator with
    | none => cases hcall
    | some c' =>
      cases hcall
      exact hthree c mem initret
  | objallo4 creator out mem' initret' =>
    cases creator with
    | none => cases hcall
    | some c' =>
      cases out with
      | false => cases hcall
      | true =>
        cases hcall
        exact ⟨_, _, _, (objallo4_outcome hatoid c mem initret).1, rfl⟩
  | objallo size initializer unloader context ctxsize mem' initret' =>
    cases hcall
    exact hthree _ mem initret
  | objallo2 size mem' =>
    cases hcall
    exact hthree _ mem 0
  | _ => cases hcall

/-- Only the memory behind the last address changes. -/
theorem Agrees.malloc (h : Agrees s) (o : Obj) : Agrees ⟨s.table.malloc o, s.live⟩ where
  wf := h.wf
  atoid := h.atoid
  distinct := h.distinct
  entry := h.entry
  lt := fun e he => Nat.lt_succ_of_lt (h.lt e he)
  object := by
    intro e he
    have hheap : (s.table.malloc o).heap e.obj = s.table.heap e.obj :=
      Function.update_of_ne (Nat.ne_of_lt (h.lt e he)) _ _
    rw [hheap]
    exact h.object e he

/-- An object is installed under a handle that is free. -/
theorem installed_spec {t : Table} (hwf : Wf t) (hatoid : 0 ≤ t.atoid) (hnot : ¬Refused t c)
    (hfree : ∀ o, ¬Entry t (newHandle t c) o) :
    ∃ t', (objtabinst (t.malloc c.newObj) t.next).1 = t' ∧ Wf t' ∧ 0 ≤ t'.atoid ∧
      t'.next = t.next + 1 ∧
      t'.heap = Function.update t.heap t.next { c.newObj with hld := newHandle t c } ∧
      ∀ hld o, Entry t' hld o ↔ Entry t hld o ∨ hld = newHandle t c ∧ o = t.next := by
  by_cases hauto : c.known = 0 ∨ c.known = invalidObjhld
  · have hhld := hld_malloc_auto (t := t) hauto
    have hnew : newHandle t c = t.atoid + 1 := if_pos hauto
    rw [hnew] at hfree ⊢
    obtain ⟨t', heq, hwf', hatoid', hnext, hheap, hentry⟩ :=
      objtabinst_auto (show Wf (t.malloc c.newObj) from hwf) hatoid hhld hfree
    refine ⟨t', by rw [heq], hwf', ?_, hnext, ?_, hentry⟩
    · rw [hatoid']
      exact Int.le_trans hatoid (Int.le_add_one (Int.le_refl _))
    · rw [hheap, heap_malloc]
      exact Function.update_idem ..
  · obtain ⟨hzero, hinvalid⟩ := not_or.mp hauto
    have hnew : newHandle t c = c.known := if_neg hauto
    have hhld := hld_malloc_known (t := t) hzero
    have hok : ¬(c.known < 0 ∨ (objtabsrch t c.known).isSome = true) := fun hwhy =>
      hnot ⟨hzero, hinvalid, hwhy⟩
    obtain ⟨hnn, hnone⟩ := not_or.mp hok
    have hroot : hld2root c.known = some (c.known.toNat &&& 255) := by
      rw [hld2root, if_pos (by omega)]
    rw [← objtabsrch_malloc t c.newObj, objtabsrch, hroot, Option.isSome_map,
      Option.not_isSome_iff_eq_none] at hnone
    rw [hnew] at hfree ⊢
    rw [objtabinst, hhld, if_pos (.inl hinvalid)]
    simp only [hroot, hnone]
    refine ⟨_, rfl, wf_insert (show Wf (t.malloc c.newObj) from hwf) _ _, hatoid, rfl, ?_, ?_⟩
    · have hobj : { c.newObj with hld := c.known } = c.newObj := by
        rw [Creator.newObj, if_neg hzero]
      rw [hobj]
      rfl
    · intro hld o
      exact entry_insert (show Wf (t.malloc c.newObj) from hwf) hroot hfree

/-- **An allocation keeps the agreement**, if the handle that it gives out is not one of a live
object. -/
theorem Agrees.outcome (h : Agrees s) {hld : Option Int} {calls : List Callback}
    (ho : Outcome s.table c mem initret t' hld calls)
    (hguard : hld.isSome = true → c.known = 0 ∨ c.known = invalidObjhld →
      ∀ e ∈ s.live, e.hld ≠ s.table.atoid + 1) : Agrees (s.allocated t' hld) := by
  cases ho with
  | early _ => exact h
  | failed _ _ _ _ => exact h.malloc _
  | refused _ _ _ _ => exact h.malloc _
  | installed _ _ _ hnot =>
    have hfree : ∀ e ∈ s.live, e.hld ≠ newHandle s.table c := by
      intro e he
      rw [newHandle]
      split
      · exact hguard rfl ‹_› e he
      · intro heq
        obtain ⟨hzero, hinvalid⟩ := not_or.mp ‹_›
        refine hnot ⟨hzero, hinvalid, .inr ?_⟩
        rw [← heq, h.objtabsrch he]
        rfl
    have hfree' : ∀ o, ¬Entry s.table (newHandle s.table c) o := by
      intro o hentry
      obtain ⟨e, he, heq, -⟩ := (h.entry _ _).mp hentry
      exact hfree e he heq
    obtain ⟨t', heq, hwf, hatoid, hnext, hheap, hentry⟩ :=
      installed_spec h.wf h.atoid hnot hfree'
    rw [heq]
    refine ⟨hwf, hatoid, ?_, ?_, ?_, ?_⟩
    · show (newHandle s.table c :: s.live.map Live.hld).Nodup
      refine List.nodup_cons.mpr ⟨fun hmem => ?_, h.distinct⟩
      obtain ⟨e, he, heq⟩ := List.mem_map.mp hmem
      exact hfree e he heq
    · intro hld o
      show Entry t' hld o ↔ ∃ e ∈ ⟨newHandle s.table c, s.table.next, false⟩ :: s.live,
        e.hld = hld ∧ e.obj = o
      rw [hentry, h.entry, List.exists_mem_cons_iff]
      constructor
      · rintro (hold | ⟨rfl, rfl⟩)
        · exact .inr hold
        · exact .inl ⟨rfl, rfl⟩
      · rintro (⟨rfl, rfl⟩ | hold)
        · exact .inr ⟨rfl, rfl⟩
        · exact .inl hold
    · intro e he
      show e.obj < t'.next
      rw [hnext]
      rcases List.mem_cons.mp he with rfl | he
      · exact Nat.lt_succ_self _
      · exact Nat.lt_succ_of_lt (h.lt e he)
    · intro e he
      show (t'.heap e.obj).hld = e.hld ∧ ((t'.heap e.obj).status = .normal ↔ e.closed = false)
      rw [hheap]
      rcases List.mem_cons.mp he with rfl | he
      · rw [Function.update_self]
        exact ⟨rfl, fun _ => rfl, fun _ => rfl⟩
      · rw [Function.update_of_ne (Nat.ne_of_lt (h.lt e he))]
        exact h.object e he

/-! ## References and closing -/

/-- Writing an object that keeps its handle and its status. -/
theorem Agrees.store (h : Agrees s) {e : Live} {o : Obj}
    (hhld : o.hld = (s.table.heap e.obj).hld)
    (hstatus : o.status = (s.table.heap e.obj).status) :
    Agrees ⟨s.table.store e.obj o, s.live⟩ where
  wf := h.wf
  atoid := h.atoid
  distinct := h.distinct
  entry := h.entry
  lt := h.lt
  object := by
    intro e' he'
    show (Function.update s.table.heap e.obj o e'.obj).hld = e'.hld ∧
      ((Function.update s.table.heap e.obj o e'.obj).status = .normal ↔ e'.closed = false)
    by_cases heq : e'.obj = e.obj
    · rw [heq, Function.update_self, hhld, hstatus, ← heq]
      exact h.object e' he'
    · rw [Function.update_of_ne heq]
      exact h.object e' he'

/-- The live objects when one of them is closed. -/
theorem mem_close {hld : Int} {live : List Live} {e : Live} :
    e ∈ close hld live ↔ ∃ e' ∈ live, e.hld = e'.hld ∧ e.obj = e'.obj ∧
      e.closed = (e'.closed || decide (e'.hld = hld)) := by
  rw [close, List.mem_map]
  constructor
  · rintro ⟨e', he', rfl⟩
    refine ⟨e', he', ?_⟩
    split
    · simp [*]
    · simp [*]
  · rintro ⟨e', he', hhld, hobj, hclosed⟩
    refine ⟨e', he', ?_⟩
    obtain ⟨hld', obj, closed⟩ := e
    simp only at hhld hobj hclosed
    subst hhld hobj hclosed
    by_cases heq : e'.hld = hld
    · rw [if_pos heq, decide_eq_true heq, Bool.or_true]
    · rw [if_neg heq, decide_eq_false heq, Bool.or_false]

theorem map_hld_close (hld : Int) (live : List Live) :
    (close hld live).map Live.hld = live.map Live.hld := by
  rw [close, List.map_map]
  refine List.map_congr_left fun e _ => ?_
  show (if e.hld = hld then { e with closed := true } else e).hld = e.hld
  split
  · rfl
  · rfl

/-- An object is closed, and stays in the table. -/
theorem Agrees.close (h : Agrees s) {e : Live} (he : e ∈ s.live) {o : Obj}
    (hhld : o.hld = (s.table.heap e.obj).hld) (hstatus : o.status = .closewait) :
    Agrees ⟨s.table.store e.obj o, close e.hld s.live⟩ where
  wf := h.wf
  atoid := h.atoid
  distinct := by
    rw [map_hld_close]
    exact h.distinct
  entry := by
    intro hld obj
    rw [entry_store, h.entry]
    constructor
    · rintro ⟨e', he', hhld', hobj'⟩
      exact ⟨⟨e'.hld, e'.obj, e'.closed || decide (e'.hld = e.hld)⟩,
        mem_close.mpr ⟨e', he', rfl, rfl, rfl⟩, hhld', hobj'⟩
    · rintro ⟨e₁, he₁, rfl, rfl⟩
      obtain ⟨e', he', hhld', hobj', -⟩ := mem_close.mp he₁
      exact ⟨e', he', hhld'.symm, hobj'.symm⟩
  lt := by
    intro e₁ he₁
    obtain ⟨e', he', -, hobj', -⟩ := mem_close.mp he₁
    rw [hobj']
    exact h.lt e' he'
  object := by
    intro e₁ he₁
    obtain ⟨e', he', hhld', hobj', hclosed'⟩ := mem_close.mp he₁
    rw [hhld', hobj', hclosed']
    show (Function.update s.table.heap e.obj o e'.obj).hld = e'.hld ∧
      ((Function.update s.table.heap e.obj o e'.obj).status = .normal ↔ _)
    by_cases heq : e'.obj = e.obj
    · have hsame := (h.hld_eq_iff he' he).mpr heq
      rw [heq, Function.update_self, hhld, hstatus, decide_eq_true hsame, Bool.or_true, hsame]
      exact ⟨(h.object e he).1, fun hw => (by cases hw), fun hf => (by cases hf)⟩
    · have hother : e'.hld ≠ e.hld := fun hh => heq ((h.hld_eq_iff he' he).mp hh)
      rw [Function.update_of_ne heq, decide_eq_false hother, Bool.or_false]
      exact h.object e' he'

/-- An object leaves the table and is freed. -/
theorem Agrees.remove (h : Agrees s) {e : Live} (he : e ∈ s.live) :
    Agrees ⟨(objtabrmve s.table e.hld).1, free (some e.obj) s.live⟩ where
  wf := wf_objtabrmve h.wf e.hld
  atoid := by
    rw [(objtabrmve_fst s.table e.hld).2.2]
    exact h.atoid
  distinct := h.distinct.sublist (List.filter_sublist.map _)
  entry := by
    intro hld obj
    rw [entry_objtabrmve h.wf, h.entry]
    constructor
    · rintro ⟨⟨e', he', rfl, rfl⟩, hne⟩
      refine ⟨e', List.mem_filter.mpr ⟨he', ?_⟩, rfl, rfl⟩
      rw [decide_eq_true_eq]
      exact fun hobj => hne ((h.hld_eq_iff he' he).mpr hobj)
    · rintro ⟨e', he', rfl, rfl⟩
      obtain ⟨hmem, hne⟩ := List.mem_filter.mp he'
      rw [decide_eq_true_eq] at hne
      exact ⟨⟨e', hmem, rfl, rfl⟩, fun hhld => hne ((h.hld_eq_iff hmem he).mp hhld)⟩
  lt := by
    intro e' he'
    rw [(objtabrmve_fst s.table e.hld).2.1]
    exact h.lt e' (List.mem_filter.mp he').1
  object := by
    intro e' he'
    rw [(objtabrmve_fst s.table e.hld).1]
    exact h.object e' (List.mem_filter.mp he').1

theorem Agrees.removed (h : Agrees s) {e : Live} (he : e ∈ s.live) :
    Agrees ⟨(objtabrmve s.table e.hld).1, free (objtabrmve s.table e.hld).2 s.live⟩ := by
  rw [objtabrmve_snd, h.objtabsrch he]
  exact h.remove he

/-- Nothing is closed under a handle that no live object has. -/
theorem close_eq_self {hld : Int} {live : List Live} (h : ∀ e ∈ live, e.hld ≠ hld) :
    close hld live = live := by
  rw [Allocate.close]
  exact (List.map_congr_left fun e he => if_neg (h e he)).trans (List.map_id live)

/-- What is closed and freed is freed. -/
theorem Agrees.free_close (h : Agrees s) {e : Live} (he : e ∈ s.live) :
    free (some e.obj) (Allocate.close e.hld s.live) = free (some e.obj) s.live := by
  show List.filter _ (List.map _ _) = List.filter _ _
  rw [List.filter_map]
  have hobj : ∀ e' : Live, ((fun e' : Live => decide (e'.obj ≠ e.obj)) ∘
      fun e' => if e'.hld = e.hld then { e' with closed := true } else e') e' =
      decide (e'.obj ≠ e.obj) := by
    intro e'
    show decide ((if e'.hld = e.hld then { e' with closed := true } else e').obj ≠ e.obj) = _
    split
    · rfl
    · rfl
  rw [List.filter_congr fun e' _ => hobj e']
  refine (List.map_congr_left fun e' he' => if_neg fun hhld => ?_).trans (List.map_id _)
  obtain ⟨hmem, hne⟩ := List.mem_filter.mp he'
  rw [decide_eq_true_eq] at hne
  exact hne ((h.hld_eq_iff hmem he).mp hhld)

theorem Agrees.not_live (h : Agrees s) {hld : Int} (hnone : Object.objtabsrch s.table hld = none) :
    ∀ e ∈ s.live, e.hld ≠ hld := by
  rintro e he rfl
  rw [h.objtabsrch he] at hnone
  cases hnone

theorem Agrees.objrefr (h : Agrees s) (hld : Int) : Agrees (step s (.objrefr hld)) := by
  rw [step, Object.objrefr]
  split
  · exact h
  · rename_i obj hsrch
    obtain ⟨e, -, rfl, rfl⟩ := h.of_objtabsrch hsrch
    split
    · exact h.store rfl rfl
    · exact h

theorem Agrees.objrefr2 (h : Agrees s) (hld : Int) (out : Bool) :
    Agrees (step s (.objrefr2 hld out)) := by
  rw [step, Object.objrefr2]
  split
  · exact h
  · split
    · exact h
    · rename_i obj hsrch
      obtain ⟨e, -, rfl, rfl⟩ := h.of_objtabsrch hsrch
      split
      · exact h.store rfl rfl
      · exact h

theorem Agrees.objreff (h : Agrees s) (hld : Int) : Agrees (step s (.objreff hld)) := by
  rw [step, Object.objreff]
  split
  · exact h
  · rename_i obj hsrch
    obtain ⟨e, he, rfl, rfl⟩ := h.of_objtabsrch hsrch
    split
    · exact h.close he rfl rfl
    · exact h

theorem Agrees.objdefr (h : Agrees s) (hld : Int) : Agrees (step s (.objdefr hld)) := by
  rw [step, Object.objdefr]
  split
  · exact h
  · rename_i obj hsrch
    obtain ⟨e, he, rfl, rfl⟩ := h.of_objtabsrch hsrch
    split
    · have hself : ∀ o, (s.table.store e.obj o).heap e.obj = o := fun o => Function.update_self ..
      simp only [hself]
      -- the reference is gone
      have hless := h.store (e := e) (o := { s.table.heap e.obj with
        refcnt := (s.table.heap e.obj).refcnt - 1 }) rfl rfl
      split
      · have hremove := hless.removed he
        rw [← (h.object e he).1] at hremove
        exact hremove
      · exact hless
    · exact h

theorem Agrees.objclos (h : Agrees s) (hld : Int) : Agrees (step s (.objclos hld)) := by
  rw [step, Object.objclos]
  split
  · rename_i hsrch
    show Agrees ⟨s.table, Allocate.close hld s.live⟩
    rw [close_eq_self (h.not_live hsrch)]
    exact h
  · rename_i obj hsrch
    obtain ⟨e, he, rfl, rfl⟩ := h.of_objtabsrch hsrch
    split
    · rw [(h.object e he).1, objtabrmve_snd, h.objtabsrch he]
      show Agrees ⟨_, free (some e.obj) (Allocate.close e.hld s.live)⟩
      rw [h.free_close he]
      exact h.remove he
    · exact h.close he rfl rfl

/-! ## Sequences of calls -/

/-- **A guarded call keeps the agreement.** -/
theorem Agrees.step (h : Agrees s) {call : Call} (hguard : Guarded s call) :
    Agrees (step s call) := by
  cases hrequest : call.request with
  | some request =>
    obtain ⟨c, mem, initret⟩ := request
    obtain ⟨t', hld, calls, ho, heq⟩ := step_request h.atoid hrequest
    rw [heq]
    refine h.outcome ho fun hsome hauto => ?_
    cases ho with
    | installed hlegal hmem hinit _ => exact hguard c mem initret hrequest hlegal hmem hinit hauto
    | _ => cases hsome
  | none =>
    cases call with
    | objallo3 creator mem initret =>
      cases creator with
      | none => exact h
      | some c => cases hrequest
    | objallo4 creator out mem initret =>
      cases creator with
      | none => exact h
      | some c =>
        cases out with
        | false => exact h
        | true => cases hrequest
    | objallo _ _ _ _ _ _ _ => cases hrequest
    | objallo2 _ _ => cases hrequest
    | objrefr hld => exact h.objrefr hld
    | objrefr2 hld out => exact h.objrefr2 hld out
    | objreff hld => exact h.objreff hld
    | objdefr hld => exact h.objdefr hld
    | objclos hld => exact h.objclos hld

/-- A call that is not guarded gives out the handle of a live object. -/
theorem Agrees.guarded (h : Agrees s) {call : Call} (hunique : Unique (Allocate.step s call)) :
    Guarded s call := by
  intro c mem initret hrequest hlegal hmem hinit hauto e he heq
  obtain ⟨t', hld, calls, ho, hstep⟩ := step_request h.atoid hrequest
  have hdistinct := hunique.distinct
  rw [hstep] at hdistinct
  cases ho with
  | early hno => exact hno ⟨hlegal, hmem⟩
  | failed _ _ hinitializer hneg => exact absurd (hinit hinitializer) (Int.not_le.mpr hneg)
  | refused _ _ _ hrefused => exact hauto.elim hrefused.1 hrefused.2.1
  | installed _ _ _ _ =>
    have hnew : newHandle s.table c = s.table.atoid + 1 := if_pos hauto
    have hnodup : (newHandle s.table c :: s.live.map Live.hld).Nodup := hdistinct
    rw [hnew, ← heq] at hnodup
    exact (List.nodup_cons.mp hnodup).1 (List.mem_map_of_mem he)

end Steps

/-- **Handles are unique exactly when the counter never arrives at one in use**: in every sequence
of calls every live object has a handle of its own, is found under it until it is closed, and keeps
it from others, if and only if no allocation that leaves the choice to the table finds the next
number taken by a live object. -/
theorem unique_iff (calls : List Call) :
    Lib.Along (fun s call => some (step s call)) Unique ⟨start, []⟩ calls ↔
      Lib.Each (fun s call => some (step s call)) Guarded ⟨start, []⟩ calls := by
  refine Lib.along_iff_each (I := Agrees) (fun _ h => h.unique) ?_ ?_ calls agrees_start
  · rintro s call _ h hguard ⟨⟩
    exact h.step hguard
  · rintro s call _ h ⟨⟩ hunique
    exact h.guarded hunique

/-- A caller asks for the handle one, and the next object gets it too. -/
theorem not_unique :
    let s := step (step ⟨start, []⟩ (.objallo3 (some ⟨1, 8, false, false, false, 0⟩) true 0))
      (.objallo2 8 true)
    s.live = [⟨1, 1, false⟩, ⟨1, 0, false⟩] ∧ (Object.objrefr s.table 1).2 = some 0 ∧
      ¬Unique s := by
  refine ⟨by decide, by decide, fun h => ?_⟩
  have hlive : (step (step ⟨start, []⟩ (.objallo3 (some ⟨1, 8, false, false, false, 0⟩) true 0))
      (.objallo2 8 true)).live = [⟨1, 1, false⟩, ⟨1, 0, false⟩] := by decide
  have hdistinct := h.distinct
  rw [hlive] at hdistinct
  exact absurd hdistinct (by decide)

end Allocate

end Object

end LibNax
