import Mathlib.Order.Nat
import LibNax.Object.Threads

/-!
# The table agrees with the trace

The status and the counter of an object, and whether it is in the table at all, are determined by
what happened to its handle.

* `HandleInv` — that agreement for one handle, with the frame rule `HandleInv.frame` for everything
  that is done to the others.
* `TableInv` — the agreement for every handle, and `tableInv_objrefr` to `tableInv_objtabinst` that
  each operation keeps it.
-/

set_option autoImplicit false

namespace LibNax

namespace Object

/-! ## The invariant of a handle

What the trace says of a handle determines the object behind it.  An event is about at most one
handle, and the operations on a handle write to the object of that handle only, so the invariant is
stated for one handle and everything else follows by `HandleInv.frame`. -/

/-- The handle that an event is about. -/
def Event.handle : Event → Option Int
  | .alloc hld _ => some hld
  | .refr hld _ => some hld
  | .reff hld _ => some hld
  | .defr hld => some hld
  | .clos hld => some hld
  | .unload _ _ => none
  | .nullCall _ => none
  | .zfree _ => none

/-- The object behind a handle agrees with the trace. -/
structure HandleInv (t : Table) (trace : List Event) (hld : Int) : Prop where
  /-- An object in the table was allocated. -/
  entry_alloc : ∀ obj, Entry t hld obj → .alloc hld obj ∈ trace
  /-- The handle, the counter and the status of an object in the table. -/
  live : ∀ obj, Entry t hld obj → (t.heap obj).hld = hld ∧
    (t.heap obj).refcnt = refs hld trace - defrs hld trace ∧
    ((t.heap obj).status = .closewait ↔ Closed hld trace) ∧
    ((t.heap obj).status = .closewait → 0 < (t.heap obj).refcnt)
  /-- An object that has left the table was closed, and all its references are released. -/
  gone : ∀ obj, .alloc hld obj ∈ trace → ¬Entry t hld obj →
    Closed hld trace ∧ refs hld trace = defrs hld trace ∧ (t.heap obj).refcnt = 0
  /-- No more references are released than were taken. -/
  releases : defrs hld trace ≤ refs hld trace
  /-- Nothing happened to a handle that was never given out. -/
  unknown : (∀ obj, .alloc hld obj ∉ trace) →
    refs hld trace = 0 ∧ defrs hld trace = 0 ∧ ¬Closed hld trace

section Events

variable {hld : Int} {e : Event} {trace : List Event}

theorem alloc_mem_of_handle_ne (he : e.handle ≠ some hld) (obj : Nat) :
    .alloc hld obj ∈ e :: trace ↔ .alloc hld obj ∈ trace := by
  rw [List.mem_cons]
  constructor
  · rintro (rfl | h)
    · exact absurd rfl he
    · exact h
  · exact .inr

theorem refs_of_handle_ne (he : e.handle ≠ some hld) : refs hld (e :: trace) = refs hld trace := by
  rw [refs, refs, List.countP_cons_of_neg]
  cases e <;> simp_all [isRef, Event.handle]

theorem defrs_of_handle_ne (he : e.handle ≠ some hld) :
    defrs hld (e :: trace) = defrs hld trace := by
  rw [defrs, defrs, List.count_cons_of_ne]
  rintro rfl
  exact he rfl

theorem closed_of_handle_ne (he : e.handle ≠ some hld) :
    Closed hld (e :: trace) ↔ Closed hld trace := by
  rw [Closed]
  constructor
  · rintro (h | ⟨rfl, -⟩ | ⟨obj, rfl⟩)
    · exact h
    · exact absurd rfl he
    · exact absurd rfl he
  · exact .inl

end Events

/-- **The frame of a handle**: a change of the table that leaves its entry and its objects alone,
and events about other handles. -/
theorem HandleInv.frame {t t' : Table} {trace : List Event} {hld : Int}
    (h : HandleInv t trace hld) (hentry : ∀ obj, Entry t' hld obj ↔ Entry t hld obj)
    (hheap : ∀ obj, .alloc hld obj ∈ trace → t'.heap obj = t.heap obj) :
    HandleInv t' trace hld where
  entry_alloc := fun obj he => h.entry_alloc obj ((hentry obj).mp he)
  live := fun obj he => by
    have he' := (hentry obj).mp he
    rw [hheap obj (h.entry_alloc obj he')]
    exact h.live obj he'
  gone := fun obj ha hn => by
    rw [hheap obj ha]
    exact h.gone obj ha fun he => hn ((hentry obj).mpr he)
  releases := h.releases
  unknown := h.unknown

theorem HandleInv.cons {t : Table} {trace : List Event} {hld : Int} {e : Event}
    (h : HandleInv t trace hld) (he : e.handle ≠ some hld) : HandleInv t (e :: trace) hld where
  entry_alloc := fun obj ho => (alloc_mem_of_handle_ne he obj).mpr (h.entry_alloc obj ho)
  live := fun obj ho => by
    rw [refs_of_handle_ne he, defrs_of_handle_ne he, closed_of_handle_ne he]
    exact h.live obj ho
  gone := fun obj ha hn => by
    rw [refs_of_handle_ne he, defrs_of_handle_ne he, closed_of_handle_ne he]
    exact h.gone obj ((alloc_mem_of_handle_ne he obj).mp ha) hn
  releases := by
    rw [refs_of_handle_ne he, defrs_of_handle_ne he]
    exact h.releases
  unknown := fun hn => by
    rw [refs_of_handle_ne he, defrs_of_handle_ne he, closed_of_handle_ne he]
    exact h.unknown fun obj ha => hn obj ((alloc_mem_of_handle_ne he obj).mpr ha)

/-- No reference succeeded after the close of its handle. -/
def NoRefAfterClose : List Event → Prop
  | [] => True
  | e :: trace =>
    NoRefAfterClose trace ∧ ∀ hld obj, e = .refr hld obj ∨ e = .reff hld obj → ¬Closed hld trace

/-- The table and the trace agree: on every handle, and on which handles and addresses exist. -/
structure TableInv (t : Table) (trace : List Event) : Prop where
  /-- The trees are search trees. -/
  wf : Wf t
  /-- Handles count up from one. -/
  atoid_nonneg : 0 ≤ t.atoid
  /-- Every handle agrees with the trace. -/
  handle : ∀ hld, HandleInv t trace hld
  /-- Handles and addresses were given out in order. -/
  alloc_le : ∀ hld obj, .alloc hld obj ∈ trace → hld ≤ t.atoid ∧ obj < t.next
  /-- A handle has one address, and an address one handle. -/
  alloc_inj : ∀ hld obj hld' obj', .alloc hld obj ∈ trace → .alloc hld' obj' ∈ trace →
    (hld = hld' ↔ obj = obj')
  /-- No reference succeeded after the close of its handle. -/
  noRef : NoRefAfterClose trace

theorem TableInv.entry_iff {t : Table} {trace : List Event} (h : TableInv t trace) {hld : Int}
    {obj : Nat} : objtabsrch t hld = some obj ↔ Entry t hld obj := mem_objtabsrch h.wf

/-- Events that are about no handle change nothing. -/
theorem TableInv.cons {t : Table} {trace : List Event} {e : Event} (h : TableInv t trace)
    (he : e.handle = none) : TableInv t (e :: trace) where
  wf := h.wf
  atoid_nonneg := h.atoid_nonneg
  handle := fun hld => (h.handle hld).cons (by simp [he])
  alloc_le := fun hld obj ha => h.alloc_le hld obj
    ((alloc_mem_of_handle_ne (by simp [he]) obj).mp ha)
  alloc_inj := fun hld obj hld' obj' ha ha' => h.alloc_inj hld obj hld' obj'
    ((alloc_mem_of_handle_ne (by simp [he]) obj).mp ha)
    ((alloc_mem_of_handle_ne (by simp [he]) obj').mp ha')
  noRef := ⟨h.noRef, by
    rintro hld obj (rfl | rfl)
    · cases he
    · cases he⟩

/-- A write to an address that no handle has. -/
theorem TableInv.malloc {t : Table} {trace : List Event} (h : TableInv t trace) (o : Obj) :
    TableInv (t.malloc o) trace where
  wf := h.wf
  atoid_nonneg := h.atoid_nonneg
  handle := fun hld => (h.handle hld).frame (fun _ => Iff.rfl) fun obj ha =>
    Function.update_of_ne (Nat.ne_of_lt (h.alloc_le hld obj ha).2) _ _
  alloc_le := fun hld obj ha => by
    obtain ⟨h₁, h₂⟩ := h.alloc_le hld obj ha
    exact ⟨h₁, Nat.lt_succ_of_lt h₂⟩
  alloc_inj := h.alloc_inj
  noRef := h.noRef

/-! ## The operations on a handle -/

/-- An operation on one handle keeps the invariant of the table when it keeps that of the handle and
writes to no other entry and no other object. -/
theorem TableInv.of_handle {t t' : Table} {trace : List Event} {e : Event} {hld : Int}
    (h : TableInv t trace) (he : e.handle = some hld) (hna : ∀ obj, e ≠ .alloc hld obj)
    (hwf : Wf t') (hatoid : t'.atoid = t.atoid) (hnext : t'.next = t.next)
    (hentry : ∀ hld' obj, hld' ≠ hld → (Entry t' hld' obj ↔ Entry t hld' obj))
    (hheap : ∀ hld' obj, hld' ≠ hld → .alloc hld' obj ∈ trace → t'.heap obj = t.heap obj)
    (hh : HandleInv t' (e :: trace) hld)
    (href : ∀ h obj, e = .refr h obj ∨ e = .reff h obj → ¬Closed h trace) :
    TableInv t' (e :: trace) := by
  have hmem : ∀ {hld' obj}, .alloc hld' obj ∈ e :: trace → .alloc hld' obj ∈ trace := by
    intro hld' obj ha
    rcases List.mem_cons.mp ha with rfl | ha
    · cases he
      exact absurd rfl (hna obj)
    · exact ha
  refine ⟨hwf, hatoid ▸ h.atoid_nonneg, fun hld' => ?_, fun hld' obj ha => ?_,
    fun h₁ o₁ h₂ o₂ ha₁ ha₂ => h.alloc_inj h₁ o₁ h₂ o₂ (hmem ha₁) (hmem ha₂), h.noRef, href⟩
  · by_cases hne : hld' = hld
    · exact hne ▸ hh
    · refine ((h.handle hld').frame (fun obj => hentry hld' obj hne) fun obj =>
        hheap hld' obj hne).cons ?_
      rw [he]
      exact fun heq => hne (Option.some.inj heq).symm
  · rw [hatoid, hnext]
    exact h.alloc_le hld' obj (hmem ha)

/-- An operation that changes nothing but the fields of the object of its handle. -/
theorem TableInv.store {t : Table} {trace : List Event} {e : Event} {hld : Int} {obj : Nat}
    (h : TableInv t trace) (o : Obj) (hobj : Entry t hld obj) (he : e.handle = some hld)
    (hna : ∀ obj, e ≠ .alloc hld obj) (hh : HandleInv (t.store obj o) (e :: trace) hld)
    (href : ∀ h obj, e = .refr h obj ∨ e = .reff h obj → ¬Closed h trace) :
    TableInv (t.store obj o) (e :: trace) := by
  refine h.of_handle he hna (wf_store h.wf obj o) rfl rfl (fun _ _ _ => Iff.rfl) ?_ hh href
  intro hld' obj' hne ha
  refine Function.update_of_ne (fun heq => hne ?_) _ _
  exact (h.alloc_inj hld' obj' hld obj ha ((h.handle hld).entry_alloc obj hobj)).mpr heq

/-- What the object of a handle in the table looks like after an event of the handle, when the entry
stays. -/
theorem HandleInv.store {t : Table} {trace : List Event} {e : Event} {hld : Int} {obj : Nat}
    (h : HandleInv t trace hld) (hwf : Wf t) (hobj : Entry t hld obj) (o : Obj)
    (hna : ∀ obj, e ≠ .alloc hld obj) (hhld : o.hld = (t.heap obj).hld)
    (hle : defrs hld (e :: trace) ≤ refs hld (e :: trace))
    (hrefcnt : o.refcnt = refs hld (e :: trace) - defrs hld (e :: trace))
    (hstatus : o.status = .closewait ↔ Closed hld (e :: trace))
    (hwait : o.status = .closewait → 0 < o.refcnt) :
    HandleInv (t.store obj o) (e :: trace) hld := by
  have halloc : ∀ obj', .alloc hld obj' ∈ e :: trace ↔ .alloc hld obj' ∈ trace := by
    intro obj'
    rw [List.mem_cons]
    exact ⟨fun ha => ha.resolve_left fun heq => hna obj' heq.symm, .inr⟩
  refine ⟨fun obj' ho => ?_, fun obj' ho => ?_, fun obj' ha hn => ?_, hle, fun hn => ?_⟩
  · exact (halloc obj').mpr (h.entry_alloc obj' ho)
  · obtain rfl := hobj.unique hwf ho
    have hself : (t.store obj o).heap obj = o := Function.update_self _ _ _
    rw [hself]
    exact ⟨hhld.trans (h.live obj hobj).1, hrefcnt, hstatus, hwait⟩
  · have hne : obj' ≠ obj := by
      rintro rfl
      exact hn hobj
    have hgone := h.gone obj' ((halloc obj').mp ha) hn
    -- an object that is gone and one that is in the table would have the same handle
    exact absurd ((h.live obj hobj).2.2.1.mpr hgone.1) fun hw => by
      have hpos := (h.live obj hobj).2.2.2 hw
      have := (h.live obj hobj).2.1
      omega
  · exact absurd ((halloc obj).mpr (h.entry_alloc obj hobj)) (hn obj)

section Counts

variable {hld : Int} {obj : Nat} {trace : List Event}

@[simp] theorem refs_refr : refs hld (.refr hld obj :: trace) = refs hld trace + 1 := by
  simp [refs, isRef]

@[simp] theorem refs_reff : refs hld (.reff hld obj :: trace) = refs hld trace + 1 := by
  simp [refs, isRef]

@[simp] theorem refs_defr : refs hld (.defr hld :: trace) = refs hld trace := by
  simp [refs, isRef]

@[simp] theorem refs_clos : refs hld (.clos hld :: trace) = refs hld trace := by
  simp [refs, isRef]

@[simp] theorem defrs_refr : defrs hld (.refr hld obj :: trace) = defrs hld trace := by
  simp [defrs]

@[simp] theorem defrs_reff : defrs hld (.reff hld obj :: trace) = defrs hld trace := by
  simp [defrs]

@[simp] theorem defrs_defr : defrs hld (.defr hld :: trace) = defrs hld trace + 1 := by
  simp [defrs]

@[simp] theorem defrs_clos : defrs hld (.clos hld :: trace) = defrs hld trace := by
  simp [defrs]

@[simp] theorem closed_refr : Closed hld (.refr hld obj :: trace) ↔ Closed hld trace := by
  simp [Closed]

@[simp] theorem closed_reff : Closed hld (.reff hld obj :: trace) := by
  simp [Closed]

@[simp] theorem closed_defr : Closed hld (.defr hld :: trace) ↔ Closed hld trace := by
  simp [Closed]

theorem closed_clos :
    Closed hld (.clos hld :: trace) ↔ Closed hld trace ∨ ∃ obj, .alloc hld obj ∈ trace := by
  simp [Closed]

end Counts

/-- Where there is room, the counter does not wrap. -/
theorem TableInv.int32_refcnt {t : Table} {trace : List Event} {hld : Int} {obj : Nat}
    (h : TableInv t trace) (hobj : Entry t hld obj) (hroom : Room hld trace) :
    Lib.int32 ((t.heap obj).refcnt + 1) = (t.heap obj).refcnt + 1 := by
  have hcount := ((h.handle hld).live obj hobj).2.1
  have hle := (h.handle hld).releases
  rw [Room] at hroom
  exact Lib.int32_of_inInt32 ⟨by omega, by omega⟩

/-- A successful reference. -/
theorem TableInv.reference {t : Table} {trace : List Event} {hld : Int} {obj : Nat}
    (h : TableInv t trace) (hobj : Entry t hld obj) (hnormal : (t.heap obj).status = .normal)
    (hroom : Room hld trace) :
    TableInv (t.store obj { t.heap obj with refcnt := Lib.int32 ((t.heap obj).refcnt + 1) })
      (.refr hld obj :: trace) := by
  have hlive := (h.handle hld).live obj hobj
  rw [h.int32_refcnt hobj hroom]
  have hopen : ¬Closed hld trace := fun hc => by
    have := hlive.2.2.1.mpr hc
    rw [hnormal] at this
    cases this
  refine h.store _ hobj rfl (fun _ => by simp) ((h.handle hld).store h.wf hobj _ (fun _ => by simp)
    rfl ?_ ?_ ?_ ?_) ?_
  · simp only [refs_refr, defrs_refr]
    exact Nat.le_succ_of_le (h.handle hld).releases
  · simp only [refs_refr, defrs_refr]
    omega
  · rw [closed_refr]
    exact hlive.2.2.1
  · intro hw
    rw [hnormal] at hw
    cases hw
  · rintro hld' obj' (heq | heq)
    · cases heq
      exact hopen
    · cases heq

theorem tableInv_objrefr {t : Table} {trace : List Event} (h : TableInv t trace) {hld : Int}
    (hroom : Room hld trace) :
    TableInv (objrefr t hld).1 (refEvent .refr hld (objrefr t hld).2 ++ trace) := by
  unfold objrefr
  split
  · exact h
  · rename_i obj hobj
    split
    · rename_i hnormal
      exact h.reference (h.entry_iff.mp hobj) hnormal hroom
    · exact h

theorem tableInv_objrefr2 {t : Table} {trace : List Event} (h : TableInv t trace) {hld : Int}
    (hroom : Room hld trace) (out : Bool) :
    TableInv (objrefr2 t hld out).1 (refEvent .refr hld (objrefr2 t hld out).2.1 ++ trace) := by
  unfold objrefr2
  split
  · exact h
  · split
    · exact h
    · rename_i obj hobj
      split
      · rename_i hnormal
        exact h.reference (h.entry_iff.mp hobj) hnormal hroom
      · exact h

theorem tableInv_objreff {t : Table} {trace : List Event} (h : TableInv t trace) {hld : Int}
    (hroom : Room hld trace) :
    TableInv (objreff t hld).1 (refEvent .reff hld (objreff t hld).2 ++ trace) := by
  unfold objreff
  split
  · exact h
  · rename_i obj hobj
    replace hobj := h.entry_iff.mp hobj
    have hlive := (h.handle hld).live obj hobj
    split
    · rename_i hnormal
      have hopen : ¬Closed hld trace := fun hc => by
        have := hlive.2.2.1.mpr hc
        rw [hnormal] at this
        cases this
      have hle := (h.handle hld).releases
      rw [h.int32_refcnt hobj hroom]
      refine h.store _ hobj rfl (fun _ => by simp) ((h.handle hld).store h.wf hobj _
        (fun _ => by simp) rfl ?_ ?_ ?_ ?_) ?_
      · simp only [refs_reff, defrs_reff]
        omega
      · simp only [refs_reff, defrs_reff]
        omega
      · simp
      · intro _
        simp only
        omega
      · rintro hld' obj' (heq | heq)
        · cases heq
        · cases heq
          exact hopen
    · exact h

/-- The removal of an object that is closed and has no reference left. -/
theorem TableInv.remove {t : Table} {trace : List Event} {e : Event} {hld : Int} {obj : Nat}
    (h : TableInv t trace) (hobj : Entry t hld obj) (o : Obj) (he : e.handle = some hld)
    (hne : e = .defr hld ∨ e = .clos hld) (hclosed : Closed hld (e :: trace))
    (hrefs : refs hld (e :: trace) = defrs hld (e :: trace)) (hrefcnt : o.refcnt = 0) :
    TableInv (objtabrmve (t.store obj o) hld).1 (e :: trace) := by
  have hwf : Wf (t.store obj o) := wf_store h.wf obj o
  have hheap : (objtabrmve (t.store obj o) hld).1.heap = Function.update t.heap obj o :=
    (objtabrmve_fst _ hld).1
  have hna : ∀ obj', e ≠ .alloc hld obj' := by
    rintro obj' rfl
    rcases hne with hne | hne <;> cases hne
  have halloc := (h.handle hld).entry_alloc obj hobj
  refine h.of_handle he hna (wf_objtabrmve hwf hld) (objtabrmve_fst _ hld).2.2
    (objtabrmve_fst _ hld).2.1 ?_ ?_ ?_ ?_
  · intro hld' obj' hne'
    rw [entry_objtabrmve hwf]
    exact ⟨fun hx => hx.1, fun hx => ⟨hx, hne'⟩⟩
  · intro hld' obj' hne' ha
    rw [hheap]
    exact Function.update_of_ne
      (fun heq => hne' ((h.alloc_inj hld' obj' hld obj ha halloc).mpr heq)) _ _
  · refine ⟨fun obj' ho => ?_, fun obj' ho => ?_, fun obj' ha _ => ⟨hclosed, hrefs, ?_⟩,
      hrefs.ge, fun hn => ?_⟩
    · exact absurd rfl ((entry_objtabrmve hwf).mp ho).2
    · exact absurd rfl ((entry_objtabrmve hwf).mp ho).2
    · have ha' : .alloc hld obj' ∈ trace := by
        refine (List.mem_cons.mp ha).resolve_left fun heq => hna obj' heq.symm
      rw [hheap, ← (h.alloc_inj hld obj hld obj' halloc ha').mp rfl, Function.update_self]
      exact hrefcnt
    · exact absurd (List.mem_cons_of_mem e halloc) (hn obj)
  · rintro hld' obj' (rfl | rfl)
    · rcases hne with hne | hne <;> cases hne
    · rcases hne with hne | hne <;> cases hne

theorem tableInv_objdefr {t : Table} {trace : List Event} (h : TableInv t trace) {hld : Int}
    (hmatched : defrs hld trace < refs hld trace) :
    TableInv (objdefr t hld).1 (.defr hld :: trace) := by
  have hh := h.handle hld
  -- a handle with a reference out is in the table
  obtain ⟨obj, hobj⟩ : ∃ obj, Entry t hld obj := by
    by_contra hno
    have hunknown : ∀ obj, .alloc hld obj ∉ trace := fun obj ha => by
      have := (hh.gone obj ha fun he => hno ⟨obj, he⟩).2.1
      omega
    have := (hh.unknown hunknown).1
    omega
  have hlive := hh.live obj hobj
  have hself : ∀ o, (t.store obj o).heap obj = o := fun o => Function.update_self _ _ _
  unfold objdefr
  rw [h.entry_iff.mpr hobj]
  simp only [hself]
  rw [if_pos (by omega)]
  split
  · rename_i hlast
    rw [hlive.1]
    refine h.remove hobj _ rfl (.inl rfl) ?_ ?_ hlast.1
    · rw [closed_defr]
      exact hlive.2.2.1.mp hlast.2
    · simp only [refs_defr, defrs_defr]
      omega
  · rename_i hmore
    refine h.store _ hobj rfl (fun _ => by simp) (hh.store h.wf hobj _ (fun _ => by simp) rfl
      ?_ ?_ ?_ ?_) ?_
    · simp only [refs_defr, defrs_defr]
      omega
    · simp only [refs_defr, defrs_defr]
      omega
    · rw [closed_defr]
      exact hlive.2.2.1
    · intro hw
      have hpos := hlive.2.2.2 hw
      have : ¬((t.heap obj).refcnt - 1 = 0) := fun h0 => hmore ⟨h0, hw⟩
      simp only
      omega
    · rintro hld' obj' (heq | heq) <;> cases heq

theorem tableInv_objclos {t : Table} {trace : List Event} (h : TableInv t trace) (hld : Int) :
    TableInv (objclos t hld).1 (.clos hld :: trace) := by
  have hh := h.handle hld
  have hle := hh.releases
  unfold objclos
  split
  · -- a handle without an entry is unknown, or closed already
    rename_i hnone
    have hnoent := (objtabsrch_eq_none h.wf).mp hnone
    have hclosed : Closed hld (.clos hld :: trace) ↔ Closed hld trace := by
      rw [closed_clos]
      exact ⟨fun hc => hc.elim id fun ⟨obj, ha⟩ => (hh.gone obj ha (hnoent obj)).1, .inl⟩
    have halloc : ∀ obj, .alloc hld obj ∈ .clos hld :: trace ↔ .alloc hld obj ∈ trace := by
      simp
    refine h.of_handle rfl (fun _ => by simp) h.wf rfl rfl (fun _ _ _ => Iff.rfl)
      (fun _ _ _ _ => rfl) ⟨fun obj ho => absurd ho (hnoent obj),
        fun obj ho => absurd ho (hnoent obj), fun obj ha hn => ?_, ?_, fun hn => ?_⟩ ?_
    · rw [hclosed, refs_clos, defrs_clos]
      exact hh.gone obj ((halloc obj).mp ha) hn
    · rw [refs_clos, defrs_clos]
      exact hle
    · rw [hclosed, refs_clos, defrs_clos]
      exact hh.unknown fun obj ha => hn obj ((halloc obj).mpr ha)
    · rintro hld' obj' (heq | heq) <;> cases heq
  · rename_i obj hobj
    replace hobj := h.entry_iff.mp hobj
    have hlive := hh.live obj hobj
    have hclosed : Closed hld (.clos hld :: trace) :=
      closed_clos.mpr (.inr ⟨obj, hh.entry_alloc obj hobj⟩)
    split
    · rename_i hfree
      have hsame : t.store obj (t.heap obj) = t := by
        rw [Table.store, Function.update_eq_self]
      rw [hlive.1]
      have hrem := h.remove hobj (t.heap obj) rfl (.inr rfl) hclosed (by
        rw [refs_clos, defrs_clos]
        omega) hfree.1
      rwa [hsame] at hrem
    · rename_i hbusy
      refine h.store _ hobj rfl (fun _ => by simp) (hh.store h.wf hobj _ (fun _ => by simp) rfl
        ?_ ?_ ?_ ?_) ?_
      · rw [refs_clos, defrs_clos]
        exact hle
      · rw [refs_clos, defrs_clos]
        exact hlive.2.1
      · simpa using hclosed
      · intro _
        cases hst : (t.heap obj).status with
        | normal =>
          have : (t.heap obj).refcnt ≠ 0 := fun h0 => hbusy ⟨h0, hst⟩
          simp only
          omega
        | closewait => exact hlive.2.2.2 hst
      · rintro hld' obj' (heq | heq) <;> cases heq

theorem TableInv.atoid_unknown {t : Table} {trace : List Event} (h : TableInv t trace) (obj : Nat) :
    .alloc (t.atoid + 1) obj ∉ trace := by
  intro ha
  have := (h.alloc_le _ obj ha).1
  omega

theorem TableInv.atoid_free {t : Table} {trace : List Event} (h : TableInv t trace) (obj : Nat) :
    ¬Entry t (t.atoid + 1) obj :=
  fun he => h.atoid_unknown obj ((h.handle _).entry_alloc obj he)

/-- `_objtabinst` of an object that leaves the choice of the handle to the table: it gets the next
handle, which is free. -/
theorem objtabinst_auto {t : Table} (ht : Wf t) {obj : Nat} (hatoid : 0 ≤ t.atoid)
    (hauto : (t.heap obj).hld = invalidObjhld) (hfree : ∀ o, ¬Entry t (t.atoid + 1) o) :
    ∃ t', objtabinst t obj = (t', 0) ∧ Wf t' ∧ t'.atoid = t.atoid + 1 ∧ t'.next = t.next ∧
      t'.heap = Function.update t.heap obj { t.heap obj with hld := t.atoid + 1 } ∧
      ∀ hld o, Entry t' hld o ↔ Entry t hld o ∨ hld = t.atoid + 1 ∧ o = obj := by
  have hi : hld2root (t.atoid + 1) = some ((t.atoid + 1).toNat &&& 255) := by
    rw [hld2root, if_pos (by omega)]
  unfold objtabinst
  rw [if_neg (by simp [hauto, invalidObjhld])]
  simp only [hi]
  generalize ht' : { t with atoid := t.atoid + 1 }.store obj { t.heap obj with hld := t.atoid + 1 }
    = t'
  have hroot : t'.roottab = t.roottab := by
    rw [← ht']
    rfl
  have hwf' : Wf t' := fun i => hroot ▸ ht i
  have hent : ∀ hld o, Entry t' hld o ↔ Entry t hld o := fun hld o => by
    rw [Entry, Entry, hroot]
  refine ⟨_, rfl, wf_insert hwf' _ _, ?_, ?_, ?_, fun hld o => ?_⟩
  · rw [← ht']
    rfl
  · rw [← ht']
    rfl
  · rw [← ht']
    rfl
  · rw [entry_insert hwf' hi fun o ho => hfree o ((hent _ _).mp ho), hent]

theorem tableInv_objtabinst {t : Table} {trace : List Event} (h : TableInv t trace) {obj : Nat}
    (hauto : (t.heap obj).hld = invalidObjhld) (hnormal : (t.heap obj).status = .normal)
    (hrefcnt : (t.heap obj).refcnt = 0) (hlt : obj < t.next)
    (hnew : ∀ hld, .alloc hld obj ∉ trace) :
    0 ≤ (objtabinst t obj).2 ∧
      TableInv (objtabinst t obj).1 (.alloc ((objtabinst t obj).1.heap obj).hld obj :: trace) := by
  have hunknown := h.atoid_unknown
  have hfree := h.atoid_free
  obtain ⟨t', heq, hwf', hatoid', hnext', hheap', hentry⟩ :=
    objtabinst_auto h.wf h.atoid_nonneg hauto hfree
  have hatoid := h.atoid_nonneg
  generalize hk : t.atoid + 1 = k at *
  have hheap : ∀ obj', obj' ≠ obj → t'.heap obj' = t.heap obj' := fun obj' hne => by
    rw [hheap']
    exact Function.update_of_ne hne _ _
  have hself : t'.heap obj = { t.heap obj with hld := k } := by
    rw [hheap']
    exact Function.update_self _ _ _
  rw [heq]
  refine ⟨le_refl _, ?_⟩
  rw [hself]
  change TableInv t' (.alloc k obj :: trace)
  obtain ⟨hrefs, hdefrs, hopen⟩ := (h.handle k).unknown hunknown
  have hrefs' : refs k (.alloc k obj :: trace) = 0 := by simpa [refs, isRef] using hrefs
  have hdefrs' : defrs k (.alloc k obj :: trace) = 0 := by simpa [defrs] using hdefrs
  have hopen' : ¬Closed k (.alloc k obj :: trace) := by simpa [Closed] using hopen
  refine ⟨hwf', ?_, fun hld' => ?_, fun hld' obj' ha => ?_,
    fun h₁ o₁ h₂ o₂ ha₁ ha₂ => ?_, h.noRef, ?_⟩
  · rw [hatoid']
    omega
  · by_cases hne : hld' = k
    · subst hne
      refine ⟨fun obj' ho => ?_, fun obj' ho => ?_, fun obj' ha hn => ?_, ?_, fun hn => ?_⟩
      · rcases (hentry _ _).mp ho with ho | ⟨-, rfl⟩
        · exact absurd ho (hfree obj')
        · exact List.mem_cons_self
      · rcases (hentry _ _).mp ho with ho | ⟨-, rfl⟩
        · exact absurd ho (hfree obj')
        · rw [hself, hrefs', hdefrs']
          refine ⟨rfl, ?_, ⟨fun hw => ?_, fun hc => absurd hc hopen'⟩, fun hw => ?_⟩
          · simpa using hrefcnt
          · rw [hnormal] at hw
            cases hw
          · rw [hnormal] at hw
            cases hw
      · rcases List.mem_cons.mp ha with heq | ha
        · cases heq
          exact absurd ((hentry _ _).mpr (.inr ⟨rfl, rfl⟩)) hn
        · exact absurd ha (hunknown obj')
      · rw [hrefs', hdefrs']
      · exact absurd List.mem_cons_self (hn obj)
    · refine ((h.handle hld').frame (fun obj' => ?_) fun obj' ha => ?_).cons ?_
      · rw [hentry]
        exact ⟨fun hx => hx.elim id fun hx => absurd hx.1 hne, .inl⟩
      · refine hheap obj' ?_
        rintro rfl
        exact hnew hld' ha
      · intro heq
        exact hne (Option.some.inj heq).symm
  · rw [hatoid', hnext']
    rcases List.mem_cons.mp ha with heq | ha
    · cases heq
      exact ⟨le_refl _, hlt⟩
    · obtain ⟨h₁, h₂⟩ := h.alloc_le hld' obj' ha
      exact ⟨by omega, h₂⟩
  · rcases List.mem_cons.mp ha₁ with heq₁ | ha₁ <;> rcases List.mem_cons.mp ha₂ with heq₂ | ha₂
    · cases heq₁
      cases heq₂
      simp
    · cases heq₁
      exact ⟨fun hx => absurd (hx ▸ ha₂) (hunknown o₂), fun hx => absurd (hx ▸ ha₂) (hnew h₂)⟩
    · cases heq₂
      exact ⟨fun hx => absurd (hx ▸ ha₁) (hunknown o₁), fun hx => absurd (hx ▸ ha₁) (hnew h₁)⟩
    · exact h.alloc_inj h₁ o₁ h₂ o₂ ha₁ ha₂
  · rintro hld' obj' (heq | heq) <;> cases heq

end Object

end LibNax
