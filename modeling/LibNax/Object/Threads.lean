import LibNax.Lib.Run
import LibNax.Object.Table

/-!
# The threads that use the object table

Any number of threads allocate, reference, release and close objects.  What a thread does while it
holds the lock is one step; so is the work it does alone, before or after the lock: making a new
object and calling its initializer, calling the unloader of an object that it took out of the table,
and freeing it.  Between the steps of one thread any other may take any number of its own.

* `State`, `Act` and `step` — the threads over the table of `LibNax.Object.Table`.  Every call, and
  every callback and `zfree`, is recorded in a trace, the latest first.
* `refs`, `defrs`, `Closed`, `unloads`, `frees` — what the trace says of a handle and of an object.
* `Allowed` — what is asked of the callers: the handles are given out by the table, a reference is
  released only after it was taken, and no object has `2 ^ 31` references at once.
-/

set_option autoImplicit false

namespace LibNax

namespace Object

/-! ## The threads -/

/-- `struct objcreator`, with the two callbacks and the context by whether they are there. -/
structure Creator where
  /-- The handle asked for; `INVALID_OBJHLD` and zero leave the choice to the table. -/
  known : Int
  /-- The size of the body. -/
  size : Nat
  /-- Whether the initializer is not null. -/
  initializer : Bool
  /-- Whether the unloader is not null. -/
  unloader : Bool
  /-- Whether the context is not null. -/
  context : Bool
  /-- The size of the context. -/
  ctxsize : Nat
  deriving Repr, DecidableEq

/-- What the threads do, as far as others can tell. -/
inductive Event where
  /-- An allocation entered the object in the table under the handle. -/
  | alloc (hld : Int) (obj : Nat)
  /-- `objrefr` or `objrefr2` returned the object. -/
  | refr (hld : Int) (obj : Nat)
  /-- `objreff` returned the object. -/
  | reff (hld : Int) (obj : Nat)
  /-- `objdefr` was called. -/
  | defr (hld : Int)
  /-- `objclos` was called. -/
  | clos (hld : Int)
  /-- The unloader of the object was called with this handle. -/
  | unload (hld : Int) (obj : Nat)
  /-- A null unloader was called. -/
  | nullCall (obj : Nat)
  /-- The memory of the object was freed. -/
  | zfree (obj : Nat)
  deriving Repr, DecidableEq

/-- Where a thread stands between two of its steps. -/
inductive Pc where
  /-- Outside the functions of the table. -/
  | idle
  /-- In `objallo3` or `objallo4`, before `_objtabinst`. -/
  | install (obj : Nat)
  /-- In `_objtagfree`, before the unloader. -/
  | unload (obj : Nat)
  /-- In `_objtagfree`, before `zfree`. -/
  | zfree (obj : Nat)
  deriving Repr, DecidableEq

/-- The table, the threads, and the trace of what happened, the latest first. -/
structure State (Tid : Type) where
  /-- The table. -/
  table : Table
  /-- Where each thread stands. -/
  pc : Tid → Pc
  /-- What happened. -/
  trace : List Event

/-- A step of a thread. -/
inductive Act where
  /-- `objallo`, `objallo2`, `objallo3` or `objallo4`, up to the call of `_objtabinst`: `mem` says
  whether the allocator had memory and `initret` is what the initializer, if there is one,
  returns. -/
  | objallo (creator : Creator) (mem : Bool) (initret : Int)
  /-- `_objtabinst` and the return from the allocation. -/
  | objtabinst
  | objrefr (hld : Int)
  | objrefr2 (hld : Int) (out : Bool)
  | objreff (hld : Int)
  | objdefr (hld : Int)
  | objclos (hld : Int)
  /-- The call of the unloader, if there is one. -/
  | unload
  /-- The call of `zfree`. -/
  | zfree
  deriving Repr, DecidableEq

/-- The test of the creator at the head of `objallo3` and `objallo4`. -/
def Creator.legal (c : Creator) : Bool :=
  !(c.size == 0 || (c.context && c.ctxsize == 0) || (!c.context && c.ctxsize != 0))

/-- The object that `objallo3` and `objallo4` fill in before they call the initializer. -/
def Creator.newObj (c : Creator) : Obj where
  hld := if c.known = 0 then invalidObjhld else c.known
  status := .normal
  refcnt := 0
  size := c.size
  initializer := c.initializer
  unloader := c.unloader

/-- The table after the allocator returned the next address and the object there was filled in. -/
def Table.malloc (t : Table) (o : Obj) : Table :=
  { t.store t.next o with next := t.next + 1 }

/-- The call of the unloader of an object, null or not. -/
def callUnloader (o : Obj) (hld : Int) (obj : Nat) : Event :=
  if o.unloader then .unload hld obj else .nullCall obj

/-- What an allocation does before `_objtabinst`. -/
def objallo (t : Table) (c : Creator) (mem : Bool) (initret : Int) : Table × Pc × List Event :=
  if !c.legal || !mem then (t, .idle, [])
  else if c.initializer && decide (initret < 0) then
    -- the unloader is called without a test
    (t.malloc c.newObj, .idle, [.zfree t.next, callUnloader c.newObj (-1) t.next])
  else (t.malloc c.newObj, .install t.next, [])

/-- Where a thread goes when it releases the lock with the object it removed. -/
def afterUnlock : Option Nat → Pc
  | none => .idle
  | some obj => .unload obj

/-- The event of a reference that returned an object. -/
def refEvent (mk : Int → Nat → Event) (hld : Int) : Option Nat → List Event
  | none => []
  | some obj => [mk hld obj]

variable {Tid : Type}

/-- A step of one thread.  None where the thread does not stand before that step. -/
def step [DecidableEq Tid] (s : State Tid) (tid : Tid) : Act → Option (State Tid)
  | .objallo c mem initret =>
    if s.pc tid = .idle then
      let r := objallo s.table c mem initret
      some ⟨r.1, Function.update s.pc tid r.2.1, r.2.2 ++ s.trace⟩
    else none
  | .objtabinst =>
    match s.pc tid with
    | .install obj =>
      let r := objtabinst s.table obj
      some ⟨r.1, Function.update s.pc tid .idle,
        (if 0 ≤ r.2 then .alloc (r.1.heap obj).hld obj else .zfree obj) :: s.trace⟩
    | _ => none
  | .objrefr hld =>
    if s.pc tid = .idle then
      let r := objrefr s.table hld
      some ⟨r.1, s.pc, refEvent .refr hld r.2 ++ s.trace⟩
    else none
  | .objrefr2 hld out =>
    if s.pc tid = .idle then
      let r := objrefr2 s.table hld out
      some ⟨r.1, s.pc, refEvent .refr hld r.2.1 ++ s.trace⟩
    else none
  | .objreff hld =>
    if s.pc tid = .idle then
      let r := objreff s.table hld
      some ⟨r.1, s.pc, refEvent .reff hld r.2 ++ s.trace⟩
    else none
  | .objdefr hld =>
    if s.pc tid = .idle then
      let r := objdefr s.table hld
      some ⟨r.1, Function.update s.pc tid (afterUnlock r.2), .defr hld :: s.trace⟩
    else none
  | .objclos hld =>
    if s.pc tid = .idle then
      let r := objclos s.table hld
      some ⟨r.1, Function.update s.pc tid (afterUnlock r.2), .clos hld :: s.trace⟩
    else none
  | .unload =>
    match s.pc tid with
    | .unload obj =>
      some ⟨s.table, Function.update s.pc tid (.zfree obj),
        (if (s.table.heap obj).unloader then [.unload (s.table.heap obj).hld obj] else []) ++
          s.trace⟩
    | _ => none
  | .zfree =>
    match s.pc tid with
    | .zfree obj => some ⟨s.table, Function.update s.pc tid .idle, .zfree obj :: s.trace⟩
    | _ => none

/-- The empty table, and all threads outside of it. -/
def init : State Tid where
  table := ⟨fun _ => .nil, 0, fun _ => ⟨0, .normal, 0, 0, false, false⟩, 0⟩
  pc := fun _ => .idle
  trace := []

/-! ## What the trace says of a handle -/

/-- Whether an event is a successful reference of the handle. -/
def isRef (hld : Int) : Event → Bool
  | .refr h _ => h == hld
  | .reff h _ => h == hld
  | _ => false

/-- The number of successful references of a handle. -/
def refs (hld : Int) (trace : List Event) : Nat := trace.countP (isRef hld)

/-- The number of releases of a handle. -/
def defrs (hld : Int) (trace : List Event) : Nat := trace.count (.defr hld)

/-- The handle has been closed: `objclos` was called on it after it was given out, or `objreff`
succeeded on it. -/
def Closed (hld : Int) : List Event → Prop
  | [] => False
  | e :: trace =>
    Closed hld trace ∨ (e = .clos hld ∧ ∃ obj, .alloc hld obj ∈ trace) ∨ ∃ obj, e = .reff hld obj

/-- Whether an event is the call of the unloader of the object. -/
def isUnload (obj : Nat) : Event → Bool
  | .unload _ o => o == obj
  | _ => false

/-- The number of calls of the unloader of an object. -/
def unloads (obj : Nat) (trace : List Event) : Nat := trace.countP (isUnload obj)

/-- The number of times the memory of an object was freed. -/
def frees (obj : Nat) (trace : List Event) : Nat := trace.count (.zfree obj)

/-- One more reference of the handle can be counted in an `int`. -/
def Room (hld : Int) (trace : List Event) : Prop := refs hld trace - defrs hld trace < 2147483647

instance (hld : Int) (trace : List Event) : Decidable (Room hld trace) :=
  inferInstanceAs (Decidable (_ < _))

/-- What is asked of the callers. -/
def Allowed (s : State Tid) : Act → Prop
  | .objallo c _ _ => c.known = invalidObjhld ∨ c.known = 0
  | .objrefr hld => Room hld s.trace
  | .objrefr2 hld _ => Room hld s.trace
  | .objreff hld => Room hld s.trace
  | .objdefr hld => defrs hld s.trace < refs hld s.trace
  | _ => True

instance (s : State Tid) (a : Act) : Decidable (Allowed s a) :=
  match a with
  | .objallo _ _ _ => inferInstanceAs (Decidable (_ ∨ _))
  | .objdefr hld => inferInstanceAs (Decidable (defrs hld s.trace < refs hld s.trace))
  | .objtabinst => .isTrue trivial
  | .objrefr hld => inferInstanceAs (Decidable (Room hld s.trace))
  | .objrefr2 hld _ => inferInstanceAs (Decidable (Room hld s.trace))
  | .objreff hld => inferInstanceAs (Decidable (Room hld s.trace))
  | .objclos _ => .isTrue trivial
  | .unload => .isTrue trivial
  | .zfree => .isTrue trivial

/-- A step of some thread, as the callers may take it. -/
def Step [DecidableEq Tid] (s : State Tid) (a : Tid × Act) (s' : State Tid) : Prop :=
  Allowed s a.2 ∧ step s a.1 a.2 = some s'

end Object

end LibNax
