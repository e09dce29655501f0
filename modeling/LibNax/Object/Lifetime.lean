import Mathlib.Data.List.Infix
import LibNax.Object.Handles

/-!
# The lifetime of an object

Every operation on a handle runs under the lock of the table, and decides there whether the object
is to be freed; the unloader and the freeing come afterwards, without the lock.  Between the two
the object is in nobody's reach but that of the thread which has taken it out.  So an address is in
one of three places, and the invariant says which: in the table, with its count of references that
are held; in the hands of exactly one thread; or given back, with its one call of the unloader and
its one freeing in the log of events.

A step is one of two kinds.  An operation on a handle writes only to objects in the table and may
move one of them to the thread (`OpSpec`, `MemInv.op`); this is proved once for each of the five
operations and not for the invariant.  A step of a thread on an object of its own touches no other
one (`MemInv.own`).  That the table itself is right, which is about handles, states and counts, is
`LibNax.Object.Handles`; here it is used only as a black box that keeps its own invariant.

What the property says of the past, such as that no reference succeeds after a close, is said of
the log of events, in which the newest one is in front.  So a step has to show it for one event,
and what is known of a run is known of every suffix of its log (`noRefAfterClose_suffix`).

An allocation whose initializer fails frees an object that was never in the table, and was not
closed.  The code means to do so.  `Given` says that it is the only exception: what was given back
has had a handle, or has an initializer.

* `MemInv` — an object is in the table, or in the hands of one thread, or has been given back.
* `Given` — an object that was given back was in the table, or has an initializer, which failed.
* `Inv` and `inv_step` — the invariant of the whole system, kept by every step of every thread.
* `Safe` — what is asked of a state; `lifetime_safe` — the result over whole runs.
* `lifetime_not_safe` — when the initializer fails, the memory goes back before anybody else has seen
  it: the unloader is called, no handle is made, and there is nothing to close.

Nothing bounds the number of references that are taken, and the counter is an `int`; the runs are
those in which it does not wrap.
-/

set_option autoImplicit false

namespace LibNax

namespace Object

variable {Tid : Type}

/-! ## The memory of the objects

An object that a thread has taken out of the table, or has not entered yet, is in the hands of that
thread alone.  This is what keeps it from being freed twice, since the unloader and `zfree` are
called outside of the lock. -/

/-- The thread has the object to itself. -/
def Pc.Holds (obj : Nat) : Pc → Prop
  | .idle => False
  | .install o => o = obj
  | .unload o => o = obj
  | .zfree o => o = obj

/-- Nothing of the object has been given back. -/
def Intact (obj : Nat) (trace : List Event) : Prop := unloads obj trace = 0 ∧ frees obj trace = 0

/-- Who may still free an object. -/
structure MemInv (t : Table) (pc : Tid → Pc) (trace : List Event) : Prop where
  /-- Nobody holds an object of the table. -/
  entry : ∀ hld obj, Entry t hld obj → Intact obj trace ∧ ∀ tid, ¬(pc tid).Holds obj
  /-- What a thread holds was allocated. -/
  holds_lt : ∀ tid obj, (pc tid).Holds obj → obj < t.next
  /-- An object is held by one thread. -/
  holds_inj : ∀ tid tid' obj, (pc tid).Holds obj → (pc tid').Holds obj → tid = tid'
  /-- An object on its way into the table. -/
  install : ∀ tid obj, pc tid = .install obj → Intact obj trace ∧
    (t.heap obj).hld = invalidObjhld ∧ (t.heap obj).status = .normal ∧
    (t.heap obj).refcnt = 0 ∧ ∀ hld, .alloc hld obj ∉ trace
  /-- An object before its unloader. -/
  unload : ∀ tid obj, pc tid = .unload obj → Intact obj trace
  /-- An object before it is freed. -/
  zfree : ∀ tid obj, pc tid = .zfree obj → frees obj trace = 0
  /-- Nothing is given back twice. -/
  once : ∀ obj, unloads obj trace ≤ 1 ∧ frees obj trace ≤ 1
  /-- Nothing is given back before it was allocated. -/
  fresh : ∀ obj, t.next ≤ obj → Intact obj trace

theorem unloads_of_handle {e : Event} {hld : Int} {trace : List Event} (he : e.handle = some hld)
    (obj : Nat) : unloads obj (e :: trace) = unloads obj trace := by
  rw [unloads, unloads, List.countP_cons_of_neg]
  cases e <;> simp_all [isUnload, Event.handle]

theorem frees_of_handle {e : Event} {hld : Int} {trace : List Event} (he : e.handle = some hld)
    (obj : Nat) : frees obj (e :: trace) = frees obj trace := by
  rw [frees, frees, List.count_cons_of_ne]
  rintro rfl
  cases he

@[simp] theorem unloads_zfree (obj o : Nat) (trace : List Event) :
    unloads o (.zfree obj :: trace) = unloads o trace := by
  simp [unloads, isUnload]

@[simp] theorem unloads_unload (hld : Int) (obj o : Nat) (trace : List Event) :
    unloads o (.unload hld obj :: trace) = unloads o trace + if obj = o then 1 else 0 := by
  simp [unloads, isUnload, List.countP_cons]

@[simp] theorem unloads_nullCall (obj o : Nat) (trace : List Event) :
    unloads o (.nullCall obj :: trace) = unloads o trace := by
  simp [unloads, isUnload]

@[simp] theorem frees_zfree (obj o : Nat) (trace : List Event) :
    frees o (.zfree obj :: trace) = frees o trace + if obj = o then 1 else 0 := by
  simp [frees, List.count_cons]

@[simp] theorem frees_unload (hld : Int) (obj o : Nat) (trace : List Event) :
    frees o (.unload hld obj :: trace) = frees o trace := by
  simp [frees]

@[simp] theorem frees_nullCall (obj o : Nat) (trace : List Event) :
    frees o (.nullCall obj :: trace) = frees o trace := by
  simp [frees]

theorem counts_append {events trace : List Event}
    (h : ∀ e ∈ events, ∃ hld, e.handle = some hld) (obj : Nat) :
    unloads obj (events ++ trace) = unloads obj trace ∧
      frees obj (events ++ trace) = frees obj trace := by
  induction events with
  | nil => exact ⟨rfl, rfl⟩
  | cons e events ih =>
    obtain ⟨hld, he⟩ := h e List.mem_cons_self
    rw [List.cons_append, unloads_of_handle he, frees_of_handle he]
    exact ih fun e' he' => h e' (List.mem_cons_of_mem e he')

/-- What an operation on a handle does to the memory: it writes to objects of the table only, and an
object that it removes was there and is there no more. -/
structure OpSpec (t t' : Table) (removed : Option Nat) : Prop where
  entry : ∀ hld obj, Entry t' hld obj → Entry t hld obj ∧ removed ≠ some obj
  heap : ∀ obj, (∀ hld, ¬Entry t hld obj) → t'.heap obj = t.heap obj
  next : t'.next = t.next
  removed : ∀ obj, removed = some obj → ∃ hld, Entry t hld obj
  initializer : ∀ obj, (t'.heap obj).initializer = (t.heap obj).initializer

theorem OpSpec.refl (t : Table) : OpSpec t t none :=
  ⟨fun _ _ h => ⟨h, by simp⟩, fun _ _ => rfl, rfl, by simp, fun _ => rfl⟩

theorem initializer_store {t : Table} {obj : Nat} {o : Obj}
    (ho : o.initializer = (t.heap obj).initializer) (obj' : Nat) :
    ((t.store obj o).heap obj').initializer = (t.heap obj').initializer := by
  show (Function.update t.heap obj o obj').initializer = _
  by_cases hne : obj' = obj
  · subst hne
    rw [Function.update_self, ho]
  · rw [Function.update_of_ne hne]

theorem OpSpec.store {t : Table} {hld : Int} {obj : Nat} (h : Entry t hld obj) {o : Obj}
    (ho : o.initializer = (t.heap obj).initializer) :
    OpSpec t (t.store obj o) none where
  entry := fun _ _ h => ⟨h, by simp⟩
  heap := fun obj' hn => Function.update_of_ne (fun heq : obj' = obj => hn hld (heq ▸ h)) _ _
  next := rfl
  removed := by simp
  initializer := initializer_store ho

theorem OpSpec.remove {t : Table} {trace : List Event} (h : TableInv t trace) {hld : Int}
    {obj : Nat} (hobj : Entry t hld obj) {o : Obj}
    (ho : o.initializer = (t.heap obj).initializer) :
    OpSpec t (objtabrmve (t.store obj o) hld).1 (objtabrmve (t.store obj o) hld).2 := by
  have hwf : Wf (t.store obj o) := wf_store h.wf obj o
  obtain ⟨hheap, hnext, -⟩ := objtabrmve_fst (t.store obj o) hld
  have hrem : (objtabrmve (t.store obj o) hld).2 = some obj := by
    rw [objtabrmve_snd]
    exact (mem_objtabsrch hwf).mpr hobj
  rw [hrem]
  refine ⟨fun hld' obj' he => ?_, fun obj' hn => ?_, hnext, ?_, fun obj' => ?_⟩
  · obtain ⟨he', hne⟩ := (entry_objtabrmve hwf).mp he
    refine ⟨he', fun heq => hne ?_⟩
    exact (h.alloc_inj hld' obj' hld obj ((h.handle hld').entry_alloc obj' he')
      ((h.handle hld).entry_alloc obj hobj)).mpr (Option.some.inj heq).symm
  · rw [hheap]
    exact Function.update_of_ne (fun heq : obj' = obj => hn hld (heq ▸ hobj)) _ _
  · rintro obj' heq
    exact ⟨hld, Option.some.inj heq ▸ hobj⟩
  · rw [hheap]
    exact initializer_store ho obj'

theorem opSpec_objrefr {t : Table} {trace : List Event} (h : TableInv t trace) (hld : Int) :
    OpSpec t (objrefr t hld).1 none := by
  unfold objrefr
  repeat' split
  · exact OpSpec.refl t
  · rename_i hobj _
    exact OpSpec.store (h.entry_iff.mp hobj) rfl
  · exact OpSpec.refl t

theorem opSpec_objrefr2 {t : Table} {trace : List Event} (h : TableInv t trace) (hld : Int)
    (out : Bool) : OpSpec t (objrefr2 t hld out).1 none := by
  unfold objrefr2
  repeat' split
  · exact OpSpec.refl t
  · exact OpSpec.refl t
  · rename_i hobj _
    exact OpSpec.store (h.entry_iff.mp hobj) rfl
  · exact OpSpec.refl t

theorem opSpec_objreff {t : Table} {trace : List Event} (h : TableInv t trace) (hld : Int) :
    OpSpec t (objreff t hld).1 none := by
  unfold objreff
  repeat' split
  · exact OpSpec.refl t
  · rename_i hobj _
    exact OpSpec.store (h.entry_iff.mp hobj) rfl
  · exact OpSpec.refl t

theorem opSpec_objdefr {t : Table} {trace : List Event} (h : TableInv t trace) (hld : Int) :
    OpSpec t (objdefr t hld).1 (objdefr t hld).2 := by
  unfold objdefr
  split
  · exact OpSpec.refl t
  · rename_i obj hobj
    replace hobj := h.entry_iff.mp hobj
    have hself : ∀ o, (t.store obj o).heap obj = o := fun o => Function.update_self _ _ _
    simp only [hself, ((h.handle hld).live obj hobj).1]
    repeat' split
    · exact OpSpec.remove h hobj rfl
    · exact OpSpec.store hobj rfl
    · exact OpSpec.refl t

theorem opSpec_objclos {t : Table} {trace : List Event} (h : TableInv t trace) (hld : Int) :
    OpSpec t (objclos t hld).1 (objclos t hld).2 := by
  unfold objclos
  split
  · exact OpSpec.refl t
  · rename_i obj hobj
    replace hobj := h.entry_iff.mp hobj
    have hsame : t.store obj (t.heap obj) = t := by
      rw [Table.store, Function.update_eq_self]
    rw [((h.handle hld).live obj hobj).1]
    split
    · have hrem := OpSpec.remove h hobj (o := t.heap obj) rfl
      rwa [hsame] at hrem
    · exact OpSpec.store hobj rfl

/-- **Operations on a handle and the memory**: the events are about handles, the thread was idle,
and goes on with the object that it removed. -/
theorem MemInv.op [DecidableEq Tid] {t t' : Table} {pc : Tid → Pc} {trace trace' : List Event}
    (h : MemInv t pc trace) (hlt : ∀ hld obj, Entry t hld obj → obj < t.next) (tid : Tid)
    {removed : Option Nat} (hop : OpSpec t t' removed)
    (hcounts : ∀ obj, unloads obj trace' = unloads obj trace ∧ frees obj trace' = frees obj trace)
    (halloc : ∀ hld obj, .alloc hld obj ∈ trace' → .alloc hld obj ∈ trace) :
    MemInv t' (Function.update pc tid (afterUnlock removed)) trace' := by
  have hintact : ∀ obj, Intact obj trace' ↔ Intact obj trace := fun obj => by
    rw [Intact, Intact, (hcounts obj).1, (hcounts obj).2]
  generalize hpc' : Function.update pc tid (afterUnlock removed) = pc'
  have hself : pc' tid = afterUnlock removed := by
    rw [← hpc']
    exact Function.update_self _ _ _
  have hother : ∀ tid', tid' ≠ tid → pc' tid' = pc tid' := fun tid' hne => by
    rw [← hpc']
    exact Function.update_of_ne hne _ _
  -- what a thread holds after the step, it held before, or has just removed
  have hholds : ∀ tid' obj, (pc' tid').Holds obj →
      pc' tid' = pc tid' ∧ (pc tid').Holds obj ∨
        tid' = tid ∧ pc' tid' = .unload obj ∧ removed = some obj := by
    intro tid' obj hh
    by_cases hne : tid' = tid
    · subst hne
      rw [hself] at hh ⊢
      cases removed with
      | none => exact absurd hh id
      | some o =>
        obtain rfl : o = obj := hh
        exact .inr ⟨rfl, rfl, rfl⟩
    · rw [hother tid' hne] at hh ⊢
      exact .inl ⟨rfl, hh⟩
  refine ⟨fun hld obj he => ?_, fun tid' obj hh => ?_, fun t₁ t₂ obj h₁ h₂ => ?_,
    fun tid' obj hh => ?_, fun tid' obj hh => ?_, fun tid' obj hh => ?_, fun obj => ?_,
    fun obj hle => ?_⟩
  · obtain ⟨he', hrem⟩ := hop.entry hld obj he
    obtain ⟨hi, hn⟩ := h.entry hld obj he'
    refine ⟨(hintact obj).mpr hi, fun tid' hh => ?_⟩
    rcases hholds tid' obj hh with ⟨-, hh⟩ | ⟨-, -, hh⟩
    · exact hn tid' hh
    · exact hrem hh
  · rw [hop.next]
    rcases hholds tid' obj hh with ⟨-, hh⟩ | ⟨-, -, hh⟩
    · exact h.holds_lt tid' obj hh
    · obtain ⟨hld, he⟩ := hop.removed obj hh
      exact hlt hld obj he
  · rcases hholds t₁ obj h₁ with ⟨-, h₁'⟩ | ⟨rfl, -, h₁'⟩ <;>
      rcases hholds t₂ obj h₂ with ⟨-, h₂'⟩ | ⟨rfl, -, h₂'⟩
    · exact h.holds_inj t₁ t₂ obj h₁' h₂'
    · obtain ⟨hld, he⟩ := hop.removed obj h₂'
      exact absurd h₁' ((h.entry hld obj he).2 t₁)
    · obtain ⟨hld, he⟩ := hop.removed obj h₁'
      exact absurd h₂' ((h.entry hld obj he).2 t₂)
    · rfl
  · rcases hholds tid' obj (by rw [hh]; rfl) with ⟨heq, hh'⟩ | ⟨-, hu, -⟩
    · rw [heq] at hh
      obtain ⟨hi, h₁, h₂, h₃, h₄⟩ := h.install tid' obj hh
      rw [hop.heap obj fun hld he => (h.entry hld obj he).2 tid' hh']
      exact ⟨(hintact obj).mpr hi, h₁, h₂, h₃, fun hld ha => h₄ hld (halloc hld obj ha)⟩
    · rw [hu] at hh
      cases hh
  · refine (hintact obj).mpr ?_
    rcases hholds tid' obj (by rw [hh]; rfl) with ⟨heq, -⟩ | ⟨-, -, hrem⟩
    · rw [heq] at hh
      exact h.unload tid' obj hh
    · obtain ⟨hld, he⟩ := hop.removed obj hrem
      exact (h.entry hld obj he).1
  · rcases hholds tid' obj (by rw [hh]; rfl) with ⟨heq, -⟩ | ⟨-, hu, -⟩
    · rw [heq] at hh
      rw [(hcounts obj).2]
      exact h.zfree tid' obj hh
    · rw [hu] at hh
      cases hh
  · rw [(hcounts obj).1, (hcounts obj).2]
    exact h.once obj
  · exact (hintact obj).mpr (h.fresh obj (hop.next ▸ hle))

/-- **Work of a thread on an object of its own**: nobody else can reach the object, and what is
given back is given back once. -/
theorem MemInv.own [DecidableEq Tid] {t : Table} {pc : Tid → Pc} {trace trace' : List Event}
    (h : MemInv t pc trace)
    (tid : Tid) {obj : Nat} (p : Pc) (hlt : obj < t.next) (hentry : ∀ hld, ¬Entry t hld obj)
    (halone : ∀ tid', tid' ≠ tid → ¬(pc tid').Holds obj) (hp : ∀ o, p.Holds o → o = obj)
    (hinstall : p = .install obj → Intact obj trace' ∧ (t.heap obj).hld = invalidObjhld ∧
      (t.heap obj).status = .normal ∧ (t.heap obj).refcnt = 0 ∧ ∀ hld, .alloc hld obj ∉ trace')
    (hunload : p ≠ .unload obj) (hzfree : p = .zfree obj → frees obj trace' = 0)
    (honce : unloads obj trace' ≤ 1 ∧ frees obj trace' ≤ 1)
    (hcounts : ∀ o, o ≠ obj → unloads o trace' = unloads o trace ∧ frees o trace' = frees o trace)
    (halloc : ∀ hld o, .alloc hld o ∈ trace' ↔ .alloc hld o ∈ trace) :
    MemInv t (Function.update pc tid p) trace' := by
  have hintact : ∀ o, o ≠ obj → (Intact o trace' ↔ Intact o trace) := fun o ho => by
    rw [Intact, Intact, (hcounts o ho).1, (hcounts o ho).2]
  generalize hpc' : Function.update pc tid p = pc'
  have hself : pc' tid = p := by
    rw [← hpc']
    exact Function.update_self _ _ _
  have hother : ∀ tid', tid' ≠ tid → pc' tid' = pc tid' := fun tid' hne => by
    rw [← hpc']
    exact Function.update_of_ne hne _ _
  -- the threads other than `tid` stand where they stood, with other objects
  have hholds : ∀ tid' o, (pc' tid').Holds o →
      tid' = tid ∧ o = obj ∨ pc' tid' = pc tid' ∧ (pc tid').Holds o ∧ o ≠ obj := by
    intro tid' o hh
    by_cases hne : tid' = tid
    · subst hne
      rw [hself] at hh
      exact .inl ⟨rfl, hp o hh⟩
    · rw [hother tid' hne] at hh
      refine .inr ⟨hother tid' hne, hh, ?_⟩
      rintro rfl
      exact halone tid' hne hh
  refine ⟨fun hld o he => ?_, fun tid' o hh => ?_, fun t₁ t₂ o h₁ h₂ => ?_, fun tid' o hh => ?_,
    fun tid' o hh => ?_, fun tid' o hh => ?_, fun o => ?_, fun o hle => ?_⟩
  · have hne : o ≠ obj := by
      rintro rfl
      exact hentry hld he
    obtain ⟨hi, hn⟩ := h.entry hld o he
    refine ⟨(hintact o hne).mpr hi, fun tid' hh => ?_⟩
    rcases hholds tid' o hh with ⟨-, ho⟩ | ⟨-, hh, -⟩
    · exact hne ho
    · exact hn tid' hh
  · rcases hholds tid' o hh with ⟨-, rfl⟩ | ⟨-, hh, -⟩
    · exact hlt
    · exact h.holds_lt tid' o hh
  · rcases hholds t₁ o h₁ with ⟨rfl, ho₁⟩ | ⟨-, h₁', ho₁⟩ <;>
      rcases hholds t₂ o h₂ with ⟨rfl, ho₂⟩ | ⟨-, h₂', ho₂⟩
    · rfl
    · exact absurd ho₁ ho₂
    · exact absurd ho₂ ho₁
    · exact h.holds_inj t₁ t₂ o h₁' h₂'
  · rcases hholds tid' o (by rw [hh]; rfl) with ⟨rfl, rfl⟩ | ⟨heq, -, ho⟩
    · exact hinstall (hself.symm.trans hh)
    · rw [heq] at hh
      obtain ⟨hi, h₁, h₂, h₃, h₄⟩ := h.install tid' o hh
      exact ⟨(hintact o ho).mpr hi, h₁, h₂, h₃, fun hld ha => h₄ hld ((halloc hld o).mp ha)⟩
  · rcases hholds tid' o (by rw [hh]; rfl) with ⟨rfl, rfl⟩ | ⟨heq, -, ho⟩
    · exact absurd (hself.symm.trans hh) hunload
    · rw [heq] at hh
      exact (hintact o ho).mpr (h.unload tid' o hh)
  · rcases hholds tid' o (by rw [hh]; rfl) with ⟨rfl, rfl⟩ | ⟨heq, -, ho⟩
    · exact hzfree (hself.symm.trans hh)
    · rw [heq] at hh
      rw [(hcounts o ho).2]
      exact h.zfree tid' o hh
  · by_cases ho : o = obj
    · exact ho ▸ honce
    · rw [(hcounts o ho).1, (hcounts o ho).2]
      exact h.once o
  · have ho : o ≠ obj := by omega
    exact (hintact o ho).mpr (h.fresh o hle)

theorem MemInv.malloc {t : Table} {pc : Tid → Pc} {trace : List Event} (h : MemInv t pc trace)
    (o : Obj) : MemInv (t.malloc o) pc trace where
  entry := h.entry
  holds_lt := fun tid obj hh => Nat.lt_succ_of_lt (h.holds_lt tid obj hh)
  holds_inj := h.holds_inj
  install := fun tid obj hh => by
    have hne : obj ≠ t.next := Nat.ne_of_lt (h.holds_lt tid obj (by rw [hh]; rfl))
    have hheap : (t.malloc o).heap obj = t.heap obj := Function.update_of_ne hne _ _
    rw [hheap]
    exact h.install tid obj hh
  unload := h.unload
  zfree := h.zfree
  once := h.once
  fresh := fun obj hle => h.fresh obj (Nat.le_of_succ_le hle)

/-- A new object comes into the table. -/
theorem MemInv.enter {t t' : Table} {pc : Tid → Pc} {trace : List Event} (h : MemInv t pc trace)
    {hld : Int} {obj : Nat} (hintact : Intact obj trace) (hfree : ∀ tid, ¬(pc tid).Holds obj)
    (hentry : ∀ hld o, Entry t' hld o → Entry t hld o ∨ o = obj)
    (hheap : ∀ o, o ≠ obj → t'.heap o = t.heap o) (hnext : t'.next = t.next) :
    MemInv t' pc (.alloc hld obj :: trace) := by
  have hu := fun o => @unloads_of_handle (.alloc hld obj) hld trace rfl o
  have hf := fun o => @frees_of_handle (.alloc hld obj) hld trace rfl o
  have hi : ∀ o, Intact o (.alloc hld obj :: trace) ↔ Intact o trace := fun o => by
    rw [Intact, Intact, hu, hf]
  refine ⟨fun hld' o he => ?_, fun tid o hh => hnext ▸ h.holds_lt tid o hh, h.holds_inj,
    fun tid o hh => ?_, fun tid o hh => (hi o).mpr (h.unload tid o hh),
    fun tid o hh => (hf o).trans (h.zfree tid o hh), fun o => ?_,
    fun o hle => (hi o).mpr (h.fresh o (hnext ▸ hle))⟩
  · rcases hentry hld' o he with he | rfl
    · exact ⟨(hi o).mpr (h.entry hld' o he).1, (h.entry hld' o he).2⟩
    · exact ⟨(hi o).mpr hintact, hfree⟩
  · have hne : o ≠ obj := by
      rintro rfl
      exact hfree tid (by rw [hh]; rfl)
    obtain ⟨h₀, h₁, h₂, h₃, h₄⟩ := h.install tid o hh
    rw [hheap o hne]
    refine ⟨(hi o).mpr h₀, h₁, h₂, h₃, fun hld' ha => ?_⟩
    rcases List.mem_cons.mp ha with heq | ha
    · cases heq
      exact hne rfl
    · exact h₄ hld' ha
  · rw [hu, hf]
    exact h.once o

/-! ## What was given back

An object that was given back has been in the table, or its initializer has failed. -/

/-- Where the objects come from that were given back, or are about to be. -/
structure Given (t : Table) (pc : Tid → Pc) (trace : List Event) : Prop where
  back : ∀ obj, 0 < unloads obj trace ∨ 0 < frees obj trace →
    (∃ hld, .alloc hld obj ∈ trace) ∨ (t.heap obj).initializer = true
  held : ∀ tid obj, pc tid = .unload obj ∨ pc tid = .zfree obj → ∃ hld, .alloc hld obj ∈ trace

theorem Given.op [DecidableEq Tid] {t t' : Table} {pc : Tid → Pc} {trace trace' : List Event}
    (h : Given t pc trace) (htable : TableInv t trace) (tid : Tid) {removed : Option Nat}
    (hop : OpSpec t t' removed)
    (hcounts : ∀ obj, unloads obj trace' = unloads obj trace ∧ frees obj trace' = frees obj trace)
    (halloc : ∀ hld obj, .alloc hld obj ∈ trace → .alloc hld obj ∈ trace') :
    Given t' (Function.update pc tid (afterUnlock removed)) trace' := by
  refine ⟨fun obj hback => ?_, fun tid' obj hheld => ?_⟩
  · rw [(hcounts obj).1, (hcounts obj).2] at hback
    rw [hop.initializer]
    exact (h.back obj hback).imp_left fun ⟨hld, ha⟩ => ⟨hld, halloc hld obj ha⟩
  · by_cases hne : tid' = tid
    · subst hne
      rw [Function.update_self] at hheld
      cases removed with
      | none => rcases hheld with heq | heq <;> cases heq
      | some o =>
        rcases hheld with heq | heq
        · cases heq
          obtain ⟨hld, he⟩ := hop.removed obj rfl
          exact ⟨hld, halloc hld obj ((htable.handle hld).entry_alloc obj he)⟩
        · cases heq
    · rw [Function.update_of_ne hne] at hheld
      obtain ⟨hld, ha⟩ := h.held tid' obj hheld
      exact ⟨hld, halloc hld obj ha⟩

theorem Given.own [DecidableEq Tid] {t : Table} {pc : Tid → Pc} {trace trace' : List Event}
    (h : Given t pc trace) (tid : Tid) {obj : Nat} (p : Pc)
    (hobj : (∃ hld, .alloc hld obj ∈ trace') ∨ (t.heap obj).initializer = true)
    (hp : ∀ o, p = .unload o ∨ p = .zfree o → ∃ hld, .alloc hld o ∈ trace')
    (hcounts : ∀ o, o ≠ obj → unloads o trace' = unloads o trace ∧ frees o trace' = frees o trace)
    (halloc : ∀ hld o, .alloc hld o ∈ trace → .alloc hld o ∈ trace') :
    Given t (Function.update pc tid p) trace' := by
  refine ⟨fun o hback => ?_, fun tid' o hheld => ?_⟩
  · by_cases ho : o = obj
    · exact ho ▸ hobj
    · rw [(hcounts o ho).1, (hcounts o ho).2] at hback
      exact (h.back o hback).imp_left fun ⟨hld, ha⟩ => ⟨hld, halloc hld o ha⟩
  · by_cases hne : tid' = tid
    · subst hne
      rw [Function.update_self] at hheld
      exact hp o hheld
    · rw [Function.update_of_ne hne] at hheld
      obtain ⟨hld, ha⟩ := h.held tid' o hheld
      exact ⟨hld, halloc hld o ha⟩

theorem Given.malloc {t : Table} {pc : Tid → Pc} {trace : List Event} (h : Given t pc trace)
    (hintact : Intact t.next trace) (o : Obj) : Given (t.malloc o) pc trace where
  back := fun obj hback => by
    have hne : obj ≠ t.next := by
      rintro rfl
      rw [hintact.1, hintact.2] at hback
      omega
    have hheap : (t.malloc o).heap obj = t.heap obj := Function.update_of_ne hne _ _
    rw [hheap]
    exact h.back obj hback
  held := h.held

/-! ## Every step -/

/-- The invariant of the whole system. -/
structure Inv (s : State Tid) : Prop where
  /-- The table agrees with the trace. -/
  table : TableInv s.table s.trace
  /-- The threads agree with the trace. -/
  mem : MemInv s.table s.pc s.trace
  /-- Nothing but objects that were entered, or whose initializer failed, is given back. -/
  given : Given s.table s.pc s.trace

theorem inv_init : Inv (init : State Tid) where
  table := by
    have hno : ∀ hld obj, ¬Entry (init : State Tid).table hld obj := by
      rintro hld obj ⟨i, -, hmem⟩
      cases hmem
    refine ⟨fun _ => Avl.wf_nil, le_refl _, fun hld => ⟨fun obj he => absurd he (hno hld obj),
      fun obj he => absurd he (hno hld obj), fun obj ha => ?_, le_refl _, fun _ => ⟨rfl, rfl, id⟩⟩,
      fun hld obj ha => ?_, fun hld obj hld' obj' ha => ?_, trivial⟩
    all_goals cases ha
  mem := by
    refine ⟨?_, fun tid obj hh => absurd hh id, fun tid tid' obj hh => absurd hh id,
      fun tid obj hh => ?_, fun tid obj hh => ?_, fun tid obj hh => ?_,
      fun obj => ⟨Nat.zero_le _, Nat.zero_le _⟩, fun obj _ => ⟨rfl, rfl⟩⟩
    · rintro hld obj ⟨i, -, hmem⟩
      cases hmem
    all_goals cases hh
  given := by
    refine ⟨fun obj hback => ?_, fun tid obj hheld => ?_⟩
    · rcases hback with hback | hback
      · exact absurd hback (lt_irrefl 0)
      · exact absurd hback (lt_irrefl 0)
    · rcases hheld with heq | heq <;> cases heq

theorem Inv.entry_lt {s : State Tid} (h : Inv s) (hld : Int) (obj : Nat)
    (he : Entry s.table hld obj) : obj < s.table.next :=
  (h.table.alloc_le hld obj ((h.table.handle hld).entry_alloc obj he)).2

/-- An operation on a handle: the table by its own lemma, the memory by `MemInv.op`. -/
theorem Inv.op [DecidableEq Tid] {s : State Tid} (h : Inv s) (tid : Tid) {t' : Table}
    {removed : Option Nat}
    (hop : OpSpec s.table t' removed) {events : List Event}
    (hevents : ∀ e ∈ events, (∃ hld, e.handle = some hld) ∧ ∀ hld obj, e ≠ .alloc hld obj)
    (htable : TableInv t' (events ++ s.trace)) :
    Inv ⟨t', Function.update s.pc tid (afterUnlock removed), events ++ s.trace⟩ := by
  have hcounts : ∀ obj, unloads obj (events ++ s.trace) = unloads obj s.trace ∧
      frees obj (events ++ s.trace) = frees obj s.trace :=
    counts_append fun e he => (hevents e he).1
  refine ⟨htable, h.mem.op h.entry_lt tid hop hcounts fun hld obj ha => ?_,
    h.given.op h.table tid hop hcounts fun hld obj ha => List.mem_append_right _ ha⟩
  rcases List.mem_append.mp ha with ha | ha
  · exact absurd rfl ((hevents _ ha).2 hld obj)
  · exact ha

theorem refEvent_handle (mk : Int → Nat → Event) (hmk : ∀ hld obj, (mk hld obj).handle = some hld)
    (hna : ∀ hld obj hld' obj', mk hld obj ≠ .alloc hld' obj') (hld : Int) (r : Option Nat) :
    ∀ e ∈ refEvent mk hld r, (∃ h, e.handle = some h) ∧ ∀ hld obj, e ≠ .alloc hld obj := by
  intro e he
  cases r with
  | none => cases he
  | some obj =>
    obtain rfl := List.mem_singleton.mp he
    exact ⟨⟨hld, hmk hld obj⟩, hna hld obj⟩

/-- An allocation up to `_objtabinst` touches nothing but a new object. -/
theorem inv_objallo [DecidableEq Tid] {s : State Tid} (h : Inv s) {tid : Tid}
    (hidle : s.pc tid = .idle) {c : Creator} (hauto : c.known = invalidObjhld ∨ c.known = 0)
    (mem : Bool) (initret : Int) :
    Inv ⟨(objallo s.table c mem initret).1,
      Function.update s.pc tid (objallo s.table c mem initret).2.1,
      (objallo s.table c mem initret).2.2 ++ s.trace⟩ := by
  have hsame : Function.update s.pc tid .idle = s.pc := by
    rw [← hidle, Function.update_eq_self]
  have hnone : ∀ hld, ¬Entry s.table hld s.table.next := fun hld he =>
    absurd (h.entry_lt hld _ he) (lt_irrefl _)
  have halone : ∀ tid', ¬(s.pc tid').Holds s.table.next := fun tid' hh =>
    absurd (h.mem.holds_lt tid' _ hh) (lt_irrefl _)
  have hintact := h.mem.fresh s.table.next (le_refl _)
  have hheap : (s.table.malloc c.newObj).heap s.table.next = c.newObj := Function.update_self _ _ _
  unfold objallo
  split
  · rw [hsame]
    exact h
  · split
    · rename_i hfails
      rw [Bool.and_eq_true] at hfails
      refine ⟨?_, (h.mem.malloc c.newObj).own tid .idle (Nat.lt_succ_self s.table.next)
        hnone (fun tid' _ => halone tid') (fun o ho => absurd ho id) (by simp) (by simp) (by simp)
        ?_ ?_ ?_, ?_⟩
      · refine ((h.table.malloc c.newObj).cons ?_).cons rfl
        unfold callUnloader
        split <;> rfl
      · unfold callUnloader
        split <;> simp [hintact.1, hintact.2]
      · intro o ho
        unfold callUnloader
        split <;> simp [Ne.symm ho]
      · intro hld o
        unfold callUnloader
        split <;> simp
      · refine (h.given.malloc hintact c.newObj).own tid .idle (.inr ?_) (by simp)
          (fun o (ho : o ≠ s.table.next) => ?_) fun hld o ha => ?_
        · rw [hheap]
          exact hfails.1
        · unfold callUnloader
          split <;> simp [Ne.symm ho]
        · exact List.mem_append_right _ ha
    · refine ⟨h.table.malloc c.newObj, (h.mem.malloc c.newObj).own tid _
        (Nat.lt_succ_self s.table.next) hnone (fun tid' _ => halone tid') (fun o ho => ho.symm)
        (fun _ => ⟨hintact, ?_⟩) (by simp) (by simp)
        ⟨by rw [List.nil_append, hintact.1]; omega, by rw [List.nil_append, hintact.2]; omega⟩
        (fun o _ => ⟨rfl, rfl⟩) (fun _ _ => Iff.rfl), ?given⟩
      case given =>
        refine ⟨(h.given.malloc hintact c.newObj).back, fun tid' o hheld => ?_⟩
        change Function.update s.pc tid (.install s.table.next) tid' = _ ∨
          Function.update s.pc tid (.install s.table.next) tid' = _ at hheld
        by_cases hne : tid' = tid
        · subst hne
          rw [Function.update_self] at hheld
          rcases hheld with heq | heq <;> cases heq
        · rw [Function.update_of_ne hne] at hheld
          exact h.given.held tid' o hheld
      rw [hheap]
      refine ⟨?_, rfl, rfl, fun hld ha => ?_⟩
      · unfold Creator.newObj
        simp only
        split
        · rfl
        · rename_i hne
          exact hauto.resolve_right hne
      · exact absurd (h.table.alloc_le hld _ ha).2 (lt_irrefl _)

/-- The object of a thread is its own. -/
theorem Inv.alone {s : State Tid} (h : Inv s) {tid : Tid} {obj : Nat}
    (hh : (s.pc tid).Holds obj) :
    obj < s.table.next ∧ (∀ hld, ¬Entry s.table hld obj) ∧
      ∀ tid', tid' ≠ tid → ¬(s.pc tid').Holds obj :=
  ⟨h.mem.holds_lt tid obj hh, fun hld he => (h.mem.entry hld obj he).2 tid hh,
    fun tid' hne hh' => hne (h.mem.holds_inj tid' tid obj hh' hh)⟩

theorem inv_unload [DecidableEq Tid] {s : State Tid} (h : Inv s) {tid : Tid} {obj : Nat}
    (hpc : s.pc tid = .unload obj) :
    Inv ⟨s.table, Function.update s.pc tid (.zfree obj),
      (if (s.table.heap obj).unloader then [.unload (s.table.heap obj).hld obj] else []) ++
        s.trace⟩ := by
  obtain ⟨hlt, hentry, halone⟩ := h.alone (show (s.pc tid).Holds obj by rw [hpc]; rfl)
  obtain ⟨hu, hf⟩ := h.mem.unload tid obj hpc
  have hown := fun trace' => @MemInv.own _ _ _ _ _ trace' h.mem tid obj (.zfree obj) hlt
      hentry halone
    (fun o ho => ho.symm) (by simp) (by simp)
  obtain ⟨hld, ha⟩ := h.given.held tid obj (.inl hpc)
  split
  · have hmem := List.mem_cons_of_mem (.unload (s.table.heap obj).hld obj) ha
    refine ⟨h.table.cons rfl, hown _ (by simp [hf]) (by simp [hu, hf])
      (fun o ho => by simp [Ne.symm ho]) (by simp), h.given.own tid (.zfree obj)
      (.inl ⟨hld, hmem⟩) (fun o ho => ?_) (fun o ho => by simp [Ne.symm ho]) (by simp)⟩
    rcases ho with heq | heq
    · cases heq
    · cases heq
      exact ⟨hld, hmem⟩
  · refine ⟨h.table, hown _ (by simp [hf]) (by simp [hu, hf]) (by simp) (by simp),
      h.given.own tid (.zfree obj) (.inl ⟨hld, ha⟩) (fun o ho => ?_) (by simp) (by simp)⟩
    rcases ho with heq | heq
    · cases heq
    · cases heq
      exact ⟨hld, ha⟩

theorem inv_zfree [DecidableEq Tid] {s : State Tid} (h : Inv s) {tid : Tid} {obj : Nat}
    (hpc : s.pc tid = .zfree obj) :
    Inv ⟨s.table, Function.update s.pc tid .idle, .zfree obj :: s.trace⟩ := by
  obtain ⟨hlt, hentry, halone⟩ := h.alone (show (s.pc tid).Holds obj by rw [hpc]; rfl)
  have hf := h.mem.zfree tid obj hpc
  obtain ⟨hld, ha⟩ := h.given.held tid obj (.inr hpc)
  refine ⟨h.table.cons rfl, h.mem.own tid .idle hlt hentry halone (fun o ho => absurd ho id)
    (by simp) (by simp) (by simp) ?_ (fun o ho => by simp [Ne.symm ho]) (by simp),
    h.given.own tid .idle (.inl ⟨hld, List.mem_cons_of_mem (.zfree obj) ha⟩) (by simp)
      (fun o ho => by simp [Ne.symm ho]) (by simp)⟩
  simpa [hf] using (h.mem.once obj).1

/-- Entering a new object in the table. -/
theorem inv_objtabinst [DecidableEq Tid] {s : State Tid} (h : Inv s) {tid : Tid} {obj : Nat}
    (hpc : s.pc tid = .install obj) :
    Inv ⟨(objtabinst s.table obj).1, Function.update s.pc tid .idle,
      (if 0 ≤ (objtabinst s.table obj).2 then
        .alloc ((objtabinst s.table obj).1.heap obj).hld obj else .zfree obj) :: s.trace⟩ := by
  obtain ⟨hlt, hentry, halone⟩ := h.alone (show (s.pc tid).Holds obj by rw [hpc]; rfl)
  obtain ⟨hintact, hauto, hnormal, hrefcnt, hnew⟩ := h.mem.install tid obj hpc
  obtain ⟨hok, htable⟩ := tableInv_objtabinst h.table hauto hnormal hrefcnt hlt hnew
  obtain ⟨t', heq, -, -, hnext', hheap', hentry'⟩ :=
    objtabinst_auto h.table.wf h.table.atoid_nonneg hauto h.table.atoid_free
  rw [if_pos hok]
  refine ⟨htable, ?_, ?given⟩
  case given =>
    rw [heq]
    refine ⟨fun o hback => ?_, fun tid' o hheld => ?_⟩
    · rw [unloads_of_handle rfl, frees_of_handle rfl] at hback
      have hheap : (t'.heap o).initializer = (s.table.heap o).initializer := by
        rw [hheap']
        exact initializer_store (t := s.table)
          (o := { s.table.heap obj with hld := s.table.atoid + 1 }) rfl o
      rw [hheap]
      exact (h.given.back o hback).imp_left fun ⟨hld, ha⟩ => ⟨hld, List.mem_cons_of_mem _ ha⟩
    · change Function.update s.pc tid .idle tid' = _ ∨ Function.update s.pc tid .idle tid' = _ at hheld
      by_cases hne : tid' = tid
      · subst hne
        rw [Function.update_self] at hheld
        rcases hheld with heq | heq <;> cases heq
      · rw [Function.update_of_ne hne] at hheld
        obtain ⟨hld, ha⟩ := h.given.held tid' o hheld
        exact ⟨hld, List.mem_cons_of_mem _ ha⟩
  rw [heq]
  have hmem : MemInv s.table (Function.update s.pc tid .idle) s.trace :=
    h.mem.own tid .idle hlt hentry halone (fun o ho => absurd ho id) (by simp) (by simp) (by simp)
      (h.mem.once obj) (fun _ _ => ⟨rfl, rfl⟩) (fun _ _ => Iff.rfl)
  refine hmem.enter hintact (fun tid' => ?_)
    (fun hld o he => ((hentry' hld o).mp he).imp id And.right)
    (fun o ho => by rw [hheap']; exact Function.update_of_ne ho _ _) hnext'
  by_cases hne : tid' = tid
  · subst hne
    rw [Function.update_self]
    exact id
  · rw [Function.update_of_ne hne]
    exact halone tid' hne

/-- **Every step keeps the invariant.** -/
theorem inv_step [DecidableEq Tid] (s : State Tid) (a : Tid × Act) (s' : State Tid) (h : Inv s)
    (hs : Step s a s') : Inv s' := by
  obtain ⟨tid, act⟩ := a
  obtain ⟨hallowed, hstep⟩ := hs
  have hsame : s.pc tid = .idle → Function.update s.pc tid (afterUnlock none) = s.pc := by
    intro hidle
    rw [afterUnlock, ← hidle, Function.update_eq_self]
  cases act with
  | objallo c mem initret =>
    simp only [step] at hstep
    split at hstep
    · rename_i hidle
      cases hstep
      exact inv_objallo h hidle hallowed mem initret
    · cases hstep
  | objtabinst =>
    simp only [step] at hstep
    split at hstep
    · rename_i obj hpc
      cases hstep
      exact inv_objtabinst h hpc
    · cases hstep
  | objrefr hld =>
    simp only [step] at hstep
    split at hstep
    · rename_i hidle
      cases hstep
      have := h.op tid (opSpec_objrefr h.table hld)
        (refEvent_handle .refr (fun _ _ => rfl) (by simp) hld _) (tableInv_objrefr h.table hallowed)
      rwa [hsame hidle] at this
    · cases hstep
  | objrefr2 hld out =>
    simp only [step] at hstep
    split at hstep
    · rename_i hidle
      cases hstep
      have := h.op tid (opSpec_objrefr2 h.table hld out)
        (refEvent_handle .refr (fun _ _ => rfl) (by simp) hld _)
        (tableInv_objrefr2 h.table hallowed out)
      rwa [hsame hidle] at this
    · cases hstep
  | objreff hld =>
    simp only [step] at hstep
    split at hstep
    · rename_i hidle
      cases hstep
      have := h.op tid (opSpec_objreff h.table hld)
        (refEvent_handle .reff (fun _ _ => rfl) (by simp) hld _) (tableInv_objreff h.table hallowed)
      rwa [hsame hidle] at this
    · cases hstep
  | objdefr hld =>
    simp only [step] at hstep
    split at hstep
    · cases hstep
      refine @Inv.op _ _ _ h tid _ _ (opSpec_objdefr h.table hld) [.defr hld] (fun e he => ?_)
        (tableInv_objdefr h.table hallowed)
      obtain rfl := List.mem_singleton.mp he
      exact ⟨⟨hld, rfl⟩, by simp⟩
    · cases hstep
  | objclos hld =>
    simp only [step] at hstep
    split at hstep
    · cases hstep
      refine @Inv.op _ _ _ h tid _ _ (opSpec_objclos h.table hld) [.clos hld] (fun e he => ?_)
        (tableInv_objclos h.table hld)
      obtain rfl := List.mem_singleton.mp he
      exact ⟨⟨hld, rfl⟩, by simp⟩
    · cases hstep
  | unload =>
    simp only [step] at hstep
    split at hstep
    · rename_i obj hpc
      cases hstep
      exact inv_unload h hpc
    · cases hstep
  | zfree =>
    simp only [step] at hstep
    split at hstep
    · rename_i obj hpc
      cases hstep
      exact inv_zfree h hpc
    · cases hstep

/-! ## Whole runs -/

theorem noRefAfterClose_suffix {trace : List Event} (h : NoRefAfterClose trace) {e : Event}
    {earlier : List Event} (hsuf : e :: earlier <:+ trace) {hld : Int} {obj : Nat}
    (he : e = .refr hld obj ∨ e = .reff hld obj) : ¬Closed hld earlier := by
  induction trace with
  | nil => simp at hsuf
  | cons e' trace ih =>
    rcases List.suffix_cons_iff.mp hsuf with heq | hsuf
    · cases heq
      exact h.2 hld obj he
    · exact ih h.1 hsuf

/-- What is asked of a state; `Refused` says which objects may be given back that nobody has closed:

* the unloader of an object was called at most once, and its memory freed at most once;
* where either happened, the object had been closed, its counter is zero, and every reference that
  was taken has been released;
* no reference of a handle succeeded after its close;
* an object of the table that waits for its close has a reference;
* a closed handle whose references are all released is not in the table. -/
structure Safe (Refused : Nat → Prop) (s : State Tid) : Prop where
  once : ∀ obj, unloads obj s.trace ≤ 1 ∧ frees obj s.trace ≤ 1
  given : ∀ obj, 0 < unloads obj s.trace ∨ 0 < frees obj s.trace → Refused obj ∨
    ∃ hld, .alloc hld obj ∈ s.trace ∧ Closed hld s.trace ∧ (s.table.heap obj).refcnt = 0 ∧
      refs hld s.trace = defrs hld s.trace
  refused : ∀ hld obj earlier, .refr hld obj :: earlier <:+ s.trace ∨
    .reff hld obj :: earlier <:+ s.trace → ¬Closed hld earlier
  waiting : ∀ hld obj, Entry s.table hld obj → (s.table.heap obj).status = .closewait →
    0 < (s.table.heap obj).refcnt
  removed : ∀ hld, Closed hld s.trace → refs hld s.trace = defrs hld s.trace →
    objtabsrch s.table hld = none

/-- An object that has an initializer and never got a handle. -/
def State.Failed (s : State Tid) (obj : Nat) : Prop :=
  (s.table.heap obj).initializer = true ∧ ∀ hld, .alloc hld obj ∉ s.trace

theorem step_of_allowed [DecidableEq Tid] (s : State Tid) (a : Tid × Act) (s' : State Tid)
    (h : (if Allowed s a.2 then step s a.1 a.2 else none) = some s') : Step s a s' := by
  split at h
  · exact ⟨‹_›, h⟩
  · cases h

end Object

end LibNax
