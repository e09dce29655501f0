import LibNax.Object.Handles

/-!
# Allocation

`objallo3` and `objallo4` are two copies of one piece of code, with their own ways out: the creator
is refused, there is no memory, the initializer fails, or the table refuses the handle.  Here they
are whole calls, with what they call on the way, in order.

* `objallo3`, `objallo4`, `objallo` and `objallo2` — the functions of the source.
* `Outcome` — the ways out, the same for both.
* `Paired` — an initializer that succeeded is answered by the unloader if the allocation then fails,
  no null unloader is called, and a failure leaves the table as it was.
* `objallo_paired_iff` — exactly when that is so.
-/

set_option autoImplicit false

namespace LibNax

namespace Object

namespace Allocate

/-! ## The functions -/

/-- What an allocation calls. -/
inductive Callback where
  /-- The initializer, with what it returned. -/
  | initializer (obj : Nat) (ret : Int)
  /-- The unloader. -/
  | unloader (hld : Int) (obj : Nat)
  /-- The unloader, which is a null pointer. -/
  | null (obj : Nat)
  /-- The memory of the object is freed. -/
  | zfree (obj : Nat)
  deriving Repr, DecidableEq

/-- The call of the initializer, if there is one. -/
def callInitializer (c : Creator) (obj : Nat) (initret : Int) : List Callback :=
  if c.initializer then [.initializer obj initret] else []

/-- The call of the unloader, null or not. -/
def callUnloader (c : Creator) (hld : Int) (obj : Nat) : Callback :=
  if c.unloader then .unloader hld obj else .null obj

/-- `objallo3`: the table, the handle, and what was called.  `mem` says whether the allocator had
memory and `initret` is what the initializer, if there is one, returns. -/
def objallo3 (t : Table) (creator : Option Creator) (mem : Bool) (initret : Int) :
    Table × Int × List Callback :=
  match creator with
  | none => (t, invalidObjhld, [])
  | some c =>
    if !c.legal then (t, invalidObjhld, [])
    else if !mem then (t, invalidObjhld, [])
    else
      let obj := t.next
      let t := t.malloc c.newObj
      if c.initializer && decide (initret < 0) then
        (t, invalidObjhld, [.initializer obj initret, callUnloader c (-1) obj, .zfree obj])
      else
        let r := objtabinst t obj
        if r.2 < 0 then (r.1, invalidObjhld, callInitializer c obj initret ++ [.zfree obj])
        else (r.1, (r.1.heap obj).hld, callInitializer c obj initret)

/-- `objallo4`: the table, the status, what `*out` is set to, and what was called.  `out` says
whether the pointer of that name is there. -/
def objallo4 (t : Table) (creator : Option Creator) (out mem : Bool) (initret : Int) :
    Table × Int × Option Int × List Callback :=
  match creator with
  | none => (t, eInval, none, [])
  | some c =>
    if !out then (t, eInval, none, [])
    else if !c.legal then (t, eInval, none, [])
    else if !mem then (t, eNomem, none, [])
    else
      let obj := t.next
      let t := t.malloc c.newObj
      if c.initializer && decide (initret < 0) then
        (t, nspStatusFatal, none, [.initializer obj initret, callUnloader c (-1) obj, .zfree obj])
      else
        let r := objtabinst t obj
        if r.2 < 0 then (r.1, r.2, none, callInitializer c obj initret ++ [.zfree obj])
        else (r.1, 0, some (r.1.heap obj).hld, callInitializer c obj initret)

/-- `objallo`. -/
def objallo (t : Table) (size : Nat) (initializer unloader context : Bool) (ctxsize : Nat)
    (mem : Bool) (initret : Int) : Table × Int × List Callback :=
  objallo3 t (some ⟨invalidObjhld, size, initializer, unloader, context, ctxsize⟩) mem initret

/-- `objallo2`. -/
def objallo2 (t : Table) (size : Nat) (mem : Bool) : Table × Int × List Callback :=
  objallo t size false false false 0 mem 0

/-! ## The ways out -/

/-- The table refuses the handle that the creator asks for: it is not positive, or in use. -/
def Refused (t : Table) (c : Creator) : Prop :=
  c.known ≠ 0 ∧ c.known ≠ invalidObjhld ∧ (c.known < 0 ∨ (objtabsrch t c.known).isSome = true)

instance (t : Table) (c : Creator) : Decidable (Refused t c) :=
  inferInstanceAs (Decidable (_ ∧ _ ∧ _))

/-- The handle of a new object. -/
def newHandle (t : Table) (c : Creator) : Int :=
  if c.known = 0 ∨ c.known = invalidObjhld then t.atoid + 1 else c.known

/-- How an allocation can end: the table, the handle if it succeeded, and what was called. -/
inductive Outcome (t : Table) (c : Creator) (mem : Bool) (initret : Int) :
    Table → Option Int → List Callback → Prop
  /-- The creator is not accepted, or there is no memory. -/
  | early : ¬(c.legal = true ∧ mem = true) → Outcome t c mem initret t none []
  /-- The initializer fails. -/
  | failed : c.legal = true → mem = true → c.initializer = true → initret < 0 →
      Outcome t c mem initret (t.malloc c.newObj) none
        [.initializer t.next initret, callUnloader c (-1) t.next, .zfree t.next]
  /-- The table refuses the handle. -/
  | refused : c.legal = true → mem = true → (c.initializer = true → 0 ≤ initret) → Refused t c →
      Outcome t c mem initret (t.malloc c.newObj) none
        (callInitializer c t.next initret ++ [.zfree t.next])
  /-- The object is installed. -/
  | installed : c.legal = true → mem = true → (c.initializer = true → 0 ≤ initret) →
      ¬Refused t c → Outcome t c mem initret (objtabinst (t.malloc c.newObj) t.next).1
        (some (newHandle t c)) (callInitializer c t.next initret)

section Outcomes

variable {t : Table} {c : Creator} {mem : Bool} {initret : Int}

@[simp] theorem heap_malloc (t : Table) (o : Obj) : (t.malloc o).heap t.next = o :=
  Function.update_self _ _ _

@[simp] theorem objtabsrch_malloc (t : Table) (o : Obj) (hld : Int) :
    objtabsrch (t.malloc o) hld = objtabsrch t hld := rfl

theorem newObj_hld (c : Creator) :
    c.newObj.hld = if c.known = 0 then invalidObjhld else c.known := rfl

/-- A new object whose handle the table chooses. -/
theorem hld_malloc_auto (hauto : c.known = 0 ∨ c.known = invalidObjhld) :
    ((t.malloc c.newObj).heap t.next).hld = invalidObjhld := by
  rw [heap_malloc, newObj_hld]
  split
  · rfl
  · exact hauto.resolve_left ‹_›

/-- And one with a handle that is asked for. -/
theorem hld_malloc_known (hzero : c.known ≠ 0) :
    ((t.malloc c.newObj).heap t.next).hld = c.known := by
  rw [heap_malloc, newObj_hld, if_neg hzero]

theorem objtabinst_refused (h : Refused t c) :
    ∃ status, status < 0 ∧
      objtabinst (t.malloc c.newObj) t.next = (t.malloc c.newObj, status) := by
  obtain ⟨hzero, hinvalid, hwhy⟩ := h
  have hhld := hld_malloc_known (t := t) hzero
  rw [objtabinst, hhld, if_pos (.inl hinvalid)]
  rcases hwhy with hneg | hsome
  · rw [hld2root, if_neg (by omega)]
    exact ⟨enodev, by decide, rfl⟩
  · rw [← objtabsrch_malloc t c.newObj, objtabsrch] at hsome
    cases hroot : hld2root c.known with
    | none =>
      rw [hroot] at hsome
      cases hsome
    | some i =>
      rw [hroot, Option.isSome_map] at hsome
      obtain ⟨clash, hclash⟩ := Option.isSome_iff_exists.mp hsome
      refine ⟨eExist, by decide, ?_⟩
      simp only [hclash]

theorem objtabinst_installed (ht : 0 ≤ t.atoid) (h : ¬Refused t c) :
    (objtabinst (t.malloc c.newObj) t.next).2 = 0 ∧
      ((objtabinst (t.malloc c.newObj) t.next).1.heap t.next).hld = newHandle t c ∧
      0 < newHandle t c := by
  by_cases hauto : c.known = 0 ∨ c.known = invalidObjhld
  · have hhld := hld_malloc_auto (t := t) hauto
    have hnot : ¬(invalidObjhld ≠ invalidObjhld ∨ invalidObjhld = 0) := by decide
    have hroot : hld2root ((t.malloc c.newObj).atoid + 1) =
        some (((t.malloc c.newObj).atoid + 1).toNat &&& 255) := by
      rw [hld2root, if_pos]
      show t.atoid + 1 > 0
      omega
    rw [newHandle, if_pos hauto, objtabinst, hhld, if_neg hnot]
    simp only [hroot]
    refine ⟨trivial, ?_, by omega⟩
    simp only [Table.setRoot, Table.store, Function.update_self]
    rfl
  · obtain ⟨hzero, hinvalid⟩ := not_or.mp hauto
    have hhld := hld_malloc_known (t := t) hzero
    have hfree : ¬(c.known < 0 ∨ (objtabsrch t c.known).isSome = true) := fun hwhy =>
      h ⟨hzero, hinvalid, hwhy⟩
    obtain ⟨hnn, hnone⟩ := not_or.mp hfree
    have hroot : hld2root c.known = some (c.known.toNat &&& 255) := by
      rw [hld2root, if_pos (by omega)]
    rw [← objtabsrch_malloc t c.newObj, objtabsrch, hroot, Option.isSome_map,
      Option.not_isSome_iff_eq_none] at hnone
    rw [newHandle, if_neg hauto, objtabinst, hhld, if_pos (.inl hinvalid)]
    simp only [hroot, hnone]
    exact ⟨trivial, hhld, by omega⟩

/-- The two parts of the outcome of a call that is not refused at once. -/
theorem outcome_of_called (ht : 0 ≤ t.atoid) (hlegal : c.legal = true) (hmem : mem = true)
    (hinit : c.initializer = true → 0 ≤ initret) :
    ((objtabinst (t.malloc c.newObj) t.next).2 < 0 ∧
      Outcome t c mem initret (objtabinst (t.malloc c.newObj) t.next).1 none
        (callInitializer c t.next initret ++ [.zfree t.next])) ∨
    ¬(objtabinst (t.malloc c.newObj) t.next).2 < 0 ∧
      Outcome t c mem initret (objtabinst (t.malloc c.newObj) t.next).1
        (some ((objtabinst (t.malloc c.newObj) t.next).1.heap t.next).hld)
        (callInitializer c t.next initret) := by
  by_cases hrefused : Refused t c
  · obtain ⟨status, hneg, heq⟩ := objtabinst_refused hrefused
    rw [heq]
    exact .inl ⟨hneg, .refused hlegal hmem hinit hrefused⟩
  · obtain ⟨hstatus, hhld, -⟩ := objtabinst_installed ht hrefused
    rw [hstatus, hhld]
    exact .inr ⟨Int.lt_irrefl 0, .installed hlegal hmem hinit hrefused⟩

theorem objallo3_outcome (ht : 0 ≤ t.atoid) (c : Creator) (mem : Bool) (initret : Int) :
    ∃ hld, Outcome t c mem initret (objallo3 t (some c) mem initret).1 hld
        (objallo3 t (some c) mem initret).2.2 ∧
      (objallo3 t (some c) mem initret).2.1 = hld.getD invalidObjhld := by
  cases hlegal : c.legal with
  | false =>
    rw [objallo3, hlegal]
    exact ⟨none, .early (by rw [hlegal]; rintro ⟨⟨⟩, -⟩), rfl⟩
  | true =>
    cases hmem : mem with
    | false =>
      rw [objallo3, hlegal]
      exact ⟨none, .early (by rintro ⟨-, ⟨⟩⟩), rfl⟩
    | true =>
      rw [objallo3, hlegal]
      simp only [Bool.not_true, Bool.false_eq_true, if_false]
      by_cases hfail : (c.initializer && decide (initret < 0)) = true
      · rw [if_pos hfail]
        rw [Bool.and_eq_true, decide_eq_true_eq] at hfail
        exact ⟨none, .failed hlegal rfl hfail.1 hfail.2, rfl⟩
      · rw [if_neg hfail]
        rw [Bool.and_eq_true, decide_eq_true_eq, not_and, Int.not_lt] at hfail
        rcases outcome_of_called ht hlegal (rfl : true = true) hfail with ⟨hneg, ho⟩ | ⟨hnn, ho⟩
        · rw [if_pos hneg]
          exact ⟨none, ho, rfl⟩
        · rw [if_neg hnn]
          exact ⟨_, ho, rfl⟩

theorem objallo4_outcome (ht : 0 ≤ t.atoid) (c : Creator) (mem : Bool) (initret : Int) :
    Outcome t c mem initret (objallo4 t (some c) true mem initret).1
        (objallo4 t (some c) true mem initret).2.2.1
        (objallo4 t (some c) true mem initret).2.2.2 ∧
      ((objallo4 t (some c) true mem initret).2.1 < 0 ↔
        (objallo4 t (some c) true mem initret).2.2.1 = none) := by
  have hiff : ∀ {status : Int}, status < 0 → (status < 0 ↔ (none : Option Int) = none) :=
    fun h => ⟨fun _ => rfl, fun _ => h⟩
  cases hlegal : c.legal with
  | false =>
    rw [objallo4, hlegal]
    exact ⟨.early (by rw [hlegal]; rintro ⟨⟨⟩, -⟩), hiff (show eInval < 0 by decide)⟩
  | true =>
    cases hmem : mem with
    | false =>
      rw [objallo4, hlegal]
      exact ⟨.early (by rintro ⟨-, ⟨⟩⟩), hiff (show eNomem < 0 by decide)⟩
    | true =>
      rw [objallo4, hlegal]
      simp only [Bool.not_true, Bool.false_eq_true, if_false]
      by_cases hfail : (c.initializer && decide (initret < 0)) = true
      · rw [if_pos hfail]
        rw [Bool.and_eq_true, decide_eq_true_eq] at hfail
        exact ⟨.failed hlegal rfl hfail.1 hfail.2, hiff (show nspStatusFatal < 0 by decide)⟩
      · rw [if_neg hfail]
        rw [Bool.and_eq_true, decide_eq_true_eq, not_and, Int.not_lt] at hfail
        rcases outcome_of_called ht hlegal (rfl : true = true) hfail with ⟨hneg, ho⟩ | ⟨hnn, ho⟩
        · rw [if_pos hneg]
          exact ⟨ho, hiff hneg⟩
        · rw [if_neg hnn]
          refine ⟨ho, ⟨fun h => absurd h (Int.lt_irrefl 0), fun h => ?_⟩⟩
          cases h

end Outcomes

/-! ## Pairing -/

/-- Whether the unloader of the object is called. -/
def isUnloader (obj : Nat) : Callback → Bool
  | .unloader _ o => o == obj
  | _ => false

/-- The table a failed allocation leaves is the one it found: the trees, the counter and the objects
are the same. -/
def Unchanged (t t' : Table) : Prop :=
  t'.roottab = t.roottab ∧ t'.atoid = t.atoid ∧ ∀ obj < t.next, t'.heap obj = t.heap obj

/-- The callbacks of an allocation are paired. -/
structure Paired (t : Table) (unloader : Prop) (t' : Table) (failed : Prop)
    (calls : List Callback) : Prop where
  /-- If the allocation fails behind an initializer that succeeded, the unloader is called once on
  the body, before that is freed. -/
  once : failed → unloader → ∀ obj ret, .initializer obj ret ∈ calls → 0 ≤ ret →
    calls.countP (isUnloader obj) = 1 ∧
      ∃ before after hld, calls = before ++ .unloader hld obj :: after ∧ .zfree obj ∉ before
  /-- A null unloader is not called. -/
  null : ∀ obj, .null obj ∉ calls
  unchanged : failed → Unchanged t t'

/-- The initializer fails and there is an unloader, or it succeeds and either there is none or the
table takes the handle. -/
def Safe (t : Table) (c : Creator) (mem : Bool) (initret : Int) : Prop :=
  c.legal = true → mem = true → c.initializer = true →
    (initret < 0 → c.unloader = true) ∧ (0 ≤ initret → c.unloader = true → ¬Refused t c)

section Pairing

variable {t t' : Table} {c : Creator} {mem : Bool} {initret : Int} {hld : Option Int}
  {calls : List Callback}

theorem unchanged_malloc (t : Table) (o : Obj) : Unchanged t (t.malloc o) :=
  ⟨rfl, rfl, fun _ hlt => Function.update_of_ne (Nat.ne_of_lt hlt) _ _⟩

/-- **Pairing of an outcome.** -/
theorem Outcome.paired_iff (h : Outcome t c mem initret t' hld calls) :
    Paired t (c.unloader = true) t' (hld = none) calls ↔ Safe t c mem initret := by
  cases h with
  | early hno =>
    refine ⟨fun _ hlegal hmem => absurd ⟨hlegal, hmem⟩ hno, fun _ => ⟨?_, ?_, ?_⟩⟩
    · intro _ _ obj ret hmem
      cases hmem
    · intro obj hmem
      cases hmem
    · exact fun _ => ⟨rfl, rfl, fun _ _ => rfl⟩
  | failed hlegal hmem hinit hneg =>
    constructor
    · intro hpaired _ _ _
      refine ⟨fun _ => ?_, fun hnn => absurd hneg (Int.not_lt.mpr hnn)⟩
      cases hunl : c.unloader with
      | true => rfl
      | false =>
        have hnull := hpaired.null t.next
        rw [callUnloader, hunl] at hnull
        simp at hnull
    · intro hsafe
      have hunl := (hsafe hlegal hmem hinit).1 hneg
      rw [callUnloader, hunl]
      refine ⟨fun _ _ obj ret hcall hnn => ?_, by simp, fun _ => unchanged_malloc _ _⟩
      have heq : ret = initret := by
        simp at hcall
        exact hcall.2
      omega
  | refused hlegal hmem hinit hrefused =>
    constructor
    · intro hpaired _ _ hinitializer
      refine ⟨fun hneg => absurd (hinit hinitializer) (Int.not_le.mpr hneg), fun hnn hunl => ?_⟩
      have hcall : Callback.initializer t.next initret ∈
          callInitializer c t.next initret ++ [.zfree t.next] := by
        simp [callInitializer, hinitializer]
      have hone := (hpaired.once rfl hunl t.next initret hcall hnn).1
      simp [callInitializer, hinitializer, isUnloader] at hone
    · intro hsafe
      refine ⟨fun _ hunl obj ret hcall hnn => ?_, ?_, fun _ => unchanged_malloc _ _⟩
      · cases hinitializer : c.initializer with
        | false =>
          rw [callInitializer, hinitializer] at hcall
          simp at hcall
        | true =>
          have hnn' := hinit hinitializer
          exact absurd hrefused ((hsafe hlegal hmem hinitializer).2 hnn' hunl)
      · intro obj hnull
        rw [callInitializer] at hnull
        split at hnull
        · simp at hnull
        · simp at hnull
  | installed hlegal hmem hinit hnot =>
    constructor
    · intro _ _ _ hinitializer
      exact ⟨fun hneg => absurd (hinit hinitializer) (Int.not_le.mpr hneg), fun _ _ => hnot⟩
    · intro _
      refine ⟨fun hfail => (by cases hfail), ?_, fun hfail => (by cases hfail)⟩
      intro obj hnull
      rw [callInitializer] at hnull
      split at hnull
      · simp at hnull
      · simp at hnull

theorem Outcome.pos (ht : 0 ≤ t.atoid) (h : Outcome t c mem initret t' hld calls) :
    hld.getD invalidObjhld = invalidObjhld ↔ hld = none := by
  cases h with
  | installed _ _ _ hnot =>
    have hpos := (objtabinst_installed ht hnot).2.2
    constructor
    · intro heq
      rw [Option.getD_some, invalidObjhld] at heq
      omega
    · intro heq
      cases heq
  | _ => exact ⟨fun _ => rfl, fun _ => rfl⟩

/-- Nothing was called and nothing was changed. -/
theorem paired_nil (t : Table) (unloader failed : Prop) : Paired t unloader t failed [] where
  once := fun _ _ obj ret hcall => by cases hcall
  null := fun obj hcall => by cases hcall
  unchanged := fun _ => ⟨rfl, rfl, fun _ _ => rfl⟩

/-- The creator that an allocation is given has an unloader. -/
def HasUnloader (creator : Option Creator) : Prop :=
  ∃ c, creator = some c ∧ c.unloader = true

/-- **When the callbacks are paired**, for `objallo3` and for `objallo4`: exactly when the
initializer does not fail without an unloader, and does not succeed, with one, for a handle that the
table then refuses. -/
theorem objallo_paired_iff (ht : 0 ≤ t.atoid) (creator : Option Creator) (mem : Bool)
    (initret : Int) :
    (Paired t (HasUnloader creator) (objallo3 t creator mem initret).1
        ((objallo3 t creator mem initret).2.1 = invalidObjhld)
        (objallo3 t creator mem initret).2.2 ↔
      ∀ c, creator = some c → Safe t c mem initret) ∧
    ∀ out : Bool, Paired t (HasUnloader creator) (objallo4 t creator out mem initret).1
        ((objallo4 t creator out mem initret).2.1 < 0)
        (objallo4 t creator out mem initret).2.2.2 ↔
      ∀ c, creator = some c → out = true → Safe t c mem initret := by
  cases creator with
  | none =>
    refine ⟨⟨fun _ c hc => (by cases hc), fun _ => paired_nil _ _ _⟩, fun out => ?_⟩
    exact ⟨fun _ c hc => (by cases hc), fun _ => paired_nil _ _ _⟩
  | some c =>
    have hunl : HasUnloader (some c) ↔ c.unloader = true :=
      ⟨fun ⟨_, heq, h⟩ => Option.some.inj heq ▸ h, fun h => ⟨c, rfl, h⟩⟩
    rw [hunl]
    constructor
    · obtain ⟨hld, ho, hret⟩ := objallo3_outcome ht c mem initret
      rw [hret, ho.pos ht, ho.paired_iff]
      exact ⟨fun h _ heq => Option.some.inj heq ▸ h, fun h => h c rfl⟩
    · intro out
      cases out with
      | false => exact ⟨fun _ _ _ hout => (by cases hout), fun _ => paired_nil _ _ _⟩
      | true =>
        obtain ⟨ho, hstatus⟩ := objallo4_outcome ht c mem initret
        rw [hstatus, ho.paired_iff]
        exact ⟨fun h _ heq _ => Option.some.inj heq ▸ h, fun h => h c rfl rfl⟩

end Pairing

/-- The table when the process starts. -/
def start : Table := (init : State Unit).table

/-- An object with both callbacks under the handle five. -/
theorem objallo_paired_five :
    Paired start (HasUnloader (some ⟨5, 1, true, true, false, 0⟩))
      (objallo3 start (some ⟨5, 1, true, true, false, 0⟩) true 0).1
      ((objallo3 start (some ⟨5, 1, true, true, false, 0⟩) true 0).2.1 = invalidObjhld)
      (objallo3 start (some ⟨5, 1, true, true, false, 0⟩) true 0).2.2 := by
  have hfree : ¬Refused start ⟨5, 1, true, true, false, 0⟩ := by decide
  refine (objallo_paired_iff (by decide) _ true 0).1.mpr ?_
  rintro _ ⟨⟩ _ _ _
  exact ⟨fun _ => rfl, fun _ _ => hfree⟩

/-- An initializer that fails with a null unloader, one that succeeds for a handle in use, and one
that succeeds for a handle out of range. -/
theorem objallo_not_paired :
    ¬Paired start (HasUnloader (some ⟨-1, 1, true, false, false, 0⟩))
      (objallo3 start (some ⟨-1, 1, true, false, false, 0⟩) true (-1)).1
      ((objallo3 start (some ⟨-1, 1, true, false, false, 0⟩) true (-1)).2.1 = invalidObjhld)
      (objallo3 start (some ⟨-1, 1, true, false, false, 0⟩) true (-1)).2.2 ∧
    (let t := (objallo3 start (some ⟨5, 1, true, true, false, 0⟩) true 0).1;
      ¬Paired t (HasUnloader (some ⟨5, 1, true, true, false, 0⟩))
        (objallo3 t (some ⟨5, 1, true, true, false, 0⟩) true 0).1
        ((objallo3 t (some ⟨5, 1, true, true, false, 0⟩) true 0).2.1 = invalidObjhld)
        (objallo3 t (some ⟨5, 1, true, true, false, 0⟩) true 0).2.2) ∧
    ¬Paired start (HasUnloader (some ⟨-5, 1, true, true, false, 0⟩))
      (objallo4 start (some ⟨-5, 1, true, true, false, 0⟩) true true 0).1
      ((objallo4 start (some ⟨-5, 1, true, true, false, 0⟩) true true 0).2.1 < 0)
      (objallo4 start (some ⟨-5, 1, true, true, false, 0⟩) true true 0).2.2.2 := by
  refine ⟨fun h => h.null 0 (by decide), fun h => ?_, fun h => ?_⟩
  · exact absurd (h.once (by decide) ⟨_, rfl, rfl⟩ 1 0 (by decide) (by decide)).1 (by decide)
  · exact absurd (h.once (by decide) ⟨_, rfl, rfl⟩ 0 0 (by decide) (by decide)).1 (by decide)

end Allocate

end Object

end LibNax
