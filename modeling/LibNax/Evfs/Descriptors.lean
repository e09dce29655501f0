import LibNax.Avl.Search
import LibNax.Lib.Int32
import LibNax.Lib.Pool
import LibNax.Lib.Run

/-!
# The handles of entries

A handle names a descriptor, which is in a list and in a tree from the time it is made until it is
closed.  Every call on a handle looks the descriptor up and counts itself in it, and counts itself
out at the end; closing a handle does this too, and then closes the descriptor.

Four things can go wrong.  Reading and writing count themselves out of a descriptor that was not
found. The last call that counts itself out of a descriptor that waits to be closed puts it into the
list and the tree again, where it should take it out, and frees it.  Two calls that close one handle
both come to close the descriptor, after one of them has freed it.  And the call that makes a handle
reads it from the descriptor when this is in the list already, where another call, to which the
handle was only a number, may have closed and freed it.

The number that is kept in a descriptor is compared with a number that is not kept anywhere: how
many calls are between counting themselves in and counting themselves out.  `Live` says that the
two agree, for a descriptor that has its memory, and besides how many calls are about to put it
into the list (one at first, none later) and how many are about to close it.  `Gone` says that for
one that was freed all of these are zero.  So each step is a matter of counting the places of
calls, where one call moves and the others stay (`tally_set`): for every descriptor but the one
that the call is at nothing changes (`Others`), and for this one a step compares two places.

The list and the tree have to hold the same descriptors, the ones that are alive and were put
there.  The handles are given out in order, each one only once, so that no two descriptors share
one, and the tree is a search tree of the handles (`Inv.search_eq_some`): what a call finds under a
handle is the descriptor that was made with it.

Whether the handle that is returned can still be read is not in the counts.  A descriptor may be
found by another call from the moment it is in the list, and `Returns` says that none is closed as
long as its call has to read it.

* `State`, `Act` and `step` — the calls.  What is done under the mutex is one step.
* `Guarded` — none of the four happens, and neither the handles nor the counts run out.
* `Kept` — what is asked of the descriptors.
* `Inv` — the invariant: a descriptor that has its memory is with the call that made it, or in the
  list, and one that was freed is nowhere.
* `descriptors_kept` — every such run.
-/

set_option autoImplicit false

namespace LibNax

namespace Evfs

namespace Descriptors

open Lib (Run int32)
open Avl (avlinsert avlremove avlsearch toList)

/-! ## Descriptors -/

/-- `enum evfs_entry_descriptor_state`. -/
inductive Stat where
  | closed
  | closeWait
  | actived
  deriving Repr, DecidableEq

/-- `struct evfs_entry_descriptor`, and whether its memory was given back. -/
structure Descriptor where
  handle : Int
  refcnt : Int
  stat : Stat
  freed : Bool
  deriving Repr, DecidableEq

/-- `__evfs_descriptor_compare`, on handles with the numbers of their descriptors. -/
def descriptorCompare (left right : Int × Nat) : Int :=
  if left.1 > right.1 then 1 else if left.1 < right.1 then -1 else 0

/-- The calls that look a handle up. -/
inductive Io where
  | getEntrySize
  | queryEntryLength
  | seekEntryOffset
  | truncateEntry
  | flushEntryBuffer
  | earseEntry
  | writeEntry
  | readEntry
  deriving Repr, DecidableEq

/-- The handles that the call does not even look up. -/
def Io.Refuses (io : Io) (handle : Int) : Prop :=
  if io = .getEntrySize then handle < 0 else handle ≤ 0

instance (io : Io) (handle : Int) : Decidable (io.Refuses handle) :=
  inferInstanceAs (Decidable (if io = .getEntrySize then handle < 0 else handle ≤ 0))

/-- Whether the call returns when the descriptor is not found. -/
def Io.checks (io : Io) : Bool := io ≠ .writeEntry && io ≠ .readEntry

/-- Where a call stands. -/
inductive Pc where
  /-- A call that makes a handle, before it takes a number. -/
  | number
  /-- Before `__evfs_queue_descriptor`. -/
  | queue (d : Nat)
  /-- Before the handle is read from the descriptor, to be returned. -/
  | result (d : Nat)
  /-- Before `__evfs_reference_descriptor`. -/
  | ioReference (io : Io) (handle : Int)
  /-- Before the operation. -/
  | ioRun (d : Nat)
  /-- Before `__evfs_dereference_descriptor`. -/
  | ioDereference (d : Option Nat)
  /-- `evfs_close_entry`, before `__evfs_reference_descriptor`. -/
  | closeReference (handle : Int)
  /-- `evfs_close_entry`, before `__evfs_dereference_descriptor`. -/
  | closeDereference (d : Nat)
  /-- `evfs_close_entry`, before `__evfs_close_descriptor`. -/
  | closeDescriptor (d : Nat)
  /-- Returned. -/
  | done
  deriving Repr, DecidableEq

/-- `__evfs_descriptor_mgr`, the descriptors by their numbers, and the calls.  Besides, the
descriptors that were taken out of the list and the tree, those that were freed, and those whose
call of `evfs_close_entry` has come to its end.  `fault` is set where memory is used that is not
there. -/
structure State where
  nextHandle : Int
  list : List Nat
  index : Avl.Tree (Int × Nat)
  descs : List Descriptor
  threads : List Pc
  removed : List Nat
  freed : List Nat
  closed : List Nat
  fault : Bool

/-- A new call: one that makes a handle and for which the entry was found or made, one that does
something with it, and one that closes it.  Or the next step of a call. -/
inductive Act where
  | create
  | io (io : Io) (handle : Int)
  | close (handle : Int)
  | step (i : Nat)
  deriving Repr, DecidableEq

/-- The call moves. -/
def State.move (s : State) (i : Nat) (pc : Pc) : State := { s with threads := s.threads.set i pc }

/-- A new call. -/
def State.start (s : State) (pc : Pc) : State := { s with threads := s.threads ++ [pc] }

def State.failed (s : State) : State := { s with fault := true }

/-- `__evfs_queue_descriptor`. -/
def State.queueDescriptor (s : State) (d : Nat) (desc : Descriptor) : State :=
  { s with list := s.list ++ [d], index := avlinsert descriptorCompare s.index (desc.handle, d) }

/-- `__evfs_dequeue_descriptor`. -/
def State.dequeueDescriptor (s : State) (d : Nat) (desc : Descriptor) : State :=
  { s with
    list := s.list.erase d
    index := (avlremove descriptorCompare s.index (desc.handle, d) none).1
    removed := s.removed ++ [d] }

/-- The descriptor is written. -/
def State.put (s : State) (d : Nat) (desc : Descriptor) : State :=
    { s with descs := s.descs.set d desc }

/-- The descriptor is freed. -/
def State.free (s : State) (d : Nat) (desc : Descriptor) : State :=
  { s.put d { desc with freed := true } with freed := s.freed ++ [d] }

/-- What is done with a descriptor, where its memory is there. -/
def State.access (s : State) (d : Nat) (f : Descriptor → State) : State :=
  match s.descs[d]? with
  | none => s.failed
  | some desc => if desc.freed then s.failed else f desc

/-- `__evfs_search_descriptor`. -/
def searchDescriptor (s : State) (handle : Int) : Option Nat :=
  (avlsearch descriptorCompare s.index (handle, 0)).map Prod.snd

/-- `__evfs_reference_descriptor`. -/
def referenceDescriptor (s : State) (handle : Int) : State × Option Nat :=
  match searchDescriptor s handle with
  | none => (s, none)
  | some d =>
    (s.access d fun desc =>
      if desc.stat = .actived then s.put d { desc with refcnt := int32 (desc.refcnt + 1) } else s,
    (s.descs[d]?.filter fun desc => desc.stat = .actived).map fun _ => d)

/-- `__evfs_dereference_descriptor`. -/
def dereferenceDescriptor (s : State) (d : Nat) : State :=
  s.access d fun desc =>
    let desc := { desc with refcnt := if desc.refcnt > 0 then desc.refcnt - 1 else desc.refcnt }
    if 0 = desc.refcnt ∧ desc.stat = .closeWait then (s.queueDescriptor d desc).free d desc
    else s.put d desc

/-- `__evfs_close_descriptor`. -/
def closeDescriptor (s : State) (d : Nat) : State :=
  s.access d fun desc =>
    let desc := { desc with stat := if desc.stat = .actived then .closeWait else desc.stat }
    if 0 = desc.refcnt then (s.dequeueDescriptor d desc).free d desc else s.put d desc

/-- The next step of a call. -/
def stepOf (s : State) (i : Nat) : Pc → Option State
  | .number =>
    let handle := int32 (s.nextHandle + 1)
    some { s.move i (.queue s.descs.length) with
      nextHandle := handle, descs := s.descs ++ [⟨handle, 0, .actived, false⟩] }
  | .queue d =>
    let s := s.move i (.result d)
    some (s.access d fun desc => s.queueDescriptor d desc)
  | .result d => some ((s.move i .done).access d fun _ => s.move i .done)
  | .ioReference io handle =>
    let (s, descriptor) := referenceDescriptor s handle
    some (s.move i (match descriptor with
      | some d => .ioRun d
      | none => if io.checks then .done else .ioDereference none))
  | .ioRun d =>
    let s := s.move i (.ioDereference (some d))
    some (s.access d fun _ => s)
  | .ioDereference none => some (s.move i .done).failed
  | .ioDereference (some d) => some (dereferenceDescriptor (s.move i .done) d)
  | .closeReference handle =>
    let (s, descriptor) := referenceDescriptor s handle
    some (s.move i (match descriptor with
      | some d => .closeDereference d
      | none => .done))
  | .closeDereference d => some (dereferenceDescriptor (s.move i (.closeDescriptor d)) d)
  | .closeDescriptor d => some { closeDescriptor (s.move i .done) d with closed := s.closed ++ [d] }
  | .done => none

/-- A step. -/
def step (s : State) : Act → Option State
  | .create => some (s.start .number)
  | .io io handle => some (s.start (if io.Refuses handle then .done else .ioReference io handle))
  | .close handle => some (s.start (if handle < 0 then .done else .closeReference handle))
  | .step i => s.threads[i]?.bind (stepOf s i)

/-- After `evfs_create` or `evfs_open`. -/
def init : State := ⟨0, [], .nil, [], [], [], [], [], false⟩

/-! ## What is asked -/

/-- One more call can be counted in the descriptor of the handle. -/
def Counts (s : State) (handle : Int) : Prop :=
  ∀ d, searchDescriptor s handle = some d → ∀ desc, s.descs[d]? = some desc →
    desc.refcnt < 2 ^ 31 - 1

/-- A read or a write finds its descriptor; a descriptor is closed when no call is counted in it, no
other call is about to close it, and the call that made it has returned; and neither the handles nor
the counts run out. -/
def Guarded (s : State) : Act → Prop
  | .step i => match s.threads[i]? with
    | some .number => s.nextHandle < 2 ^ 31 - 1
    | some (.ioReference io handle) =>
      (io.checks = true ∨ (referenceDescriptor s handle).2 ≠ none) ∧ Counts s handle
    | some (.closeReference handle) => Counts s handle
    | some (.closeDescriptor d) => (∀ desc, s.descs[d]? = some desc → desc.refcnt = 0) ∧
      s.threads.count (.closeDescriptor d) = 1 ∧ .result d ∉ s.threads
    | _ => True
  | _ => True

/-- A step in which nothing goes wrong. -/
def GuardedStep (s : State) (a : Act) (s' : State) : Prop := Guarded s a ∧ step s a = some s'

/-- What is asked of the descriptors. -/
structure Kept (s : State) : Prop where
  /-- No call uses `NULL` or memory that was given back. -/
  fault : s.fault = false
  /-- What is closed is taken out of the list and the tree once, and freed once. -/
  once : s.removed = s.closed ∧ s.freed = s.closed ∧ s.closed.Nodup
  /-- What is freed is closed, and no call is counted in it. -/
  unused : ∀ d ∈ s.freed, ∃ desc, s.descs[d]? = some desc ∧ desc.stat = .closeWait ∧ desc.refcnt = 0
  /-- What is freed is neither in the list nor in the tree. -/
  gone : ∀ d ∈ s.freed, d ∉ s.list ∧ ∀ x ∈ toList s.index, x.2 ≠ d
  /-- What has been queued and is not freed is in both. -/
  there : ∀ (d : Nat) (desc : Descriptor), s.descs[d]? = some desc → .queue d ∉ s.threads →
    d ∉ s.freed → s.list.count d = 1 ∧ (desc.handle, d) ∈ toList s.index
  /-- A handle that is not in the list is not found, and nothing changes. -/
  unknown : ∀ handle, (∀ d ∈ s.list, ∀ desc, s.descs[d]? = some desc → desc.handle ≠ handle) →
    referenceDescriptor s handle = (s, none)

/-! ## The invariant -/

/-- The call is about to queue the descriptor. -/
def Pc.queues (d : Nat) : Pc → Bool
  | .queue e => e = d
  | _ => false

/-- The call is counted in the descriptor. -/
def Pc.refs (d : Nat) : Pc → Bool
  | .ioRun e => e = d
  | .ioDereference (some e) => e = d
  | .closeDereference e => e = d
  | _ => false

/-- The call is about to close the descriptor. -/
def Pc.closes (d : Nat) : Pc → Bool
  | .closeDescriptor e => e = d
  | _ => false

def State.queues (s : State) (d : Nat) : Nat := s.threads.countP (Pc.queues d)

def State.refs (s : State) (d : Nat) : Nat := s.threads.countP (Pc.refs d)

def State.closers (s : State) (d : Nat) : Nat := s.threads.countP (Pc.closes d)

/-- A descriptor that has its memory is in the hands of the call that made it, or in the list. -/
structure Live (s : State) (d : Nat) (desc : Descriptor) : Prop where
  freed : desc.freed = false
  stat : desc.stat = .actived
  closed : d ∉ s.closed
  place : (s.queues d = 1 ∧ s.refs d = 0 ∧ s.closers d = 0 ∧ d ∉ s.list) ∨
    (s.queues d = 0 ∧ d ∈ s.list)

/-- A descriptor that was freed is nowhere. -/
structure Gone (s : State) (d : Nat) (desc : Descriptor) : Prop where
  freed : desc.freed = true
  stat : desc.stat = .closeWait
  closed : d ∈ s.closed
  place : s.queues d = 0 ∧ s.refs d = 0 ∧ s.closers d = 0 ∧ d ∉ s.list

structure Inv (s : State) : Prop where
  fault : s.fault = false
  refcnt : ∀ (d : Nat) (desc : Descriptor), s.descs[d]? = some desc → desc.refcnt = s.refs d
  place : ∀ (d : Nat) (desc : Descriptor), s.descs[d]? = some desc → Live s d desc ∨ Gone s d desc
  known : ∀ d, s.descs.length ≤ d →
    s.queues d = 0 ∧ s.refs d = 0 ∧ s.closers d = 0 ∧ d ∉ s.list ∧ d ∉ s.closed
  nodup : s.list.Nodup
  wf : Avl.Wf Prod.fst s.index
  index : ∀ x, x ∈ toList s.index ↔
    x.2 ∈ s.list ∧ ∃ desc, s.descs[x.2]? = some desc ∧ desc.handle = x.1
  handles : ∀ (d e : Nat) (a b : Descriptor), s.descs[d]? = some a → s.descs[e]? = some b →
    a.handle = b.handle → d = e
  bound : ∀ (d : Nat) (a : Descriptor), s.descs[d]? = some a → a.handle ≤ s.nextHandle
  next : 0 ≤ s.nextHandle
  once : s.removed = s.closed ∧ s.freed = s.closed ∧ s.closed.Nodup

theorem orders : Avl.Orders descriptorCompare Prod.fst where
  neg_iff := by
    intro x y
    rw [descriptorCompare]
    split
    · omega
    · split <;> omega
  zero_iff := by
    intro x y
    rw [descriptorCompare]
    split
    · omega
    · split <;> omega

theorem inv_init : Inv init where
  fault := rfl
  refcnt := fun d desc hd => by cases hd
  place := fun d desc hd => by cases hd
  known := fun d _ => ⟨rfl, rfl, rfl, fun hc => (by cases hc), fun hc => (by cases hc)⟩
  nodup := List.nodup_nil
  wf := Avl.wf_nil
  index := by
    intro x
    constructor
    · intro hx
      cases hx
    · rintro ⟨hx, -⟩
      cases hx
  handles := fun d e a b hd => by cases hd
  bound := fun d a hd => by cases hd
  next := Int.le_refl 0
  once := ⟨rfl, rfl, List.nodup_nil⟩

section Steps

variable {s s' : State} {i d e : Nat} {a b pc : Pc} {desc desc' : Descriptor} {handle : Int}

/-- What a call has to do with descriptors. -/
theorem tally_set (hi : s.threads[i]? = some a) (b : Pc) (e : Nat) :
    ((s.threads.set i b).countP (Pc.queues e) + (if a.queues e then 1 else 0) =
        s.queues e + (if b.queues e then 1 else 0)) ∧
      ((s.threads.set i b).countP (Pc.refs e) + (if a.refs e then 1 else 0) =
        s.refs e + (if b.refs e then 1 else 0)) ∧
      (s.threads.set i b).countP (Pc.closes e) + (if a.closes e then 1 else 0) =
        s.closers e + (if b.closes e then 1 else 0) :=
  ⟨Lib.countP_set hi _ b, Lib.countP_set hi _ b, Lib.countP_set hi _ b⟩

/-- Nobody else is concerned when a call moves that has to do with one descriptor. -/
structure Others (s s' : State) (d : Nat) : Prop where
  queues : ∀ e, e ≠ d → s'.queues e = s.queues e
  refs : ∀ e, e ≠ d → s'.refs e = s.refs e
  closers : ∀ e, e ≠ d → s'.closers e = s.closers e

/-- The call is at most at the descriptor. -/
def Pc.OnlyAt (d : Nat) (pc : Pc) : Prop :=
  ∀ e, e ≠ d → pc.queues e = false ∧ pc.refs e = false ∧ pc.closes e = false

theorem others_set (hi : s.threads[i]? = some a) (ha : a.OnlyAt d) (hb : b.OnlyAt d)
    (hset : s'.threads = s.threads.set i b) : Others s s' d := by
  refine ⟨fun e he => ?_, fun e he => ?_, fun e he => ?_⟩
  · have htally := (tally_set hi b e).1
    rw [(ha e he).1, (hb e he).1, ← hset] at htally
    exact htally
  · have htally := (tally_set hi b e).2.1
    rw [(ha e he).2.1, (hb e he).2.1, ← hset] at htally
    exact htally
  · have htally := (tally_set hi b e).2.2
    rw [(ha e he).2.2, (hb e he).2.2, ← hset] at htally
    exact htally

theorem onlyAt_none (h : ∀ e, pc.queues e = false ∧ pc.refs e = false ∧
    pc.closes e = false) (d : Nat) :
    pc.OnlyAt d := fun e _ => h e

theorem Live.congr (h : Live s e desc) (hqueues : s'.queues e = s.queues e)
    (hrefs : s'.refs e = s.refs e)
    (hclosers : s'.closers e = s.closers e) (hclosed : e ∈ s'.closed ↔ e ∈ s.closed)
    (hlist : e ∈ s'.list ↔ e ∈ s.list) : Live s' e desc := by
  refine ⟨h.freed, h.stat, fun hc => h.closed (hclosed.mp hc), ?_⟩
  rw [hqueues, hrefs, hclosers, hlist]
  exact h.place

theorem Gone.congr (h : Gone s e desc) (hqueues : s'.queues e = s.queues e)
    (hrefs : s'.refs e = s.refs e)
    (hclosers : s'.closers e = s.closers e) (hclosed : e ∈ s'.closed ↔ e ∈ s.closed)
    (hlist : e ∈ s'.list ↔ e ∈ s.list) : Gone s' e desc := by
  refine ⟨h.freed, h.stat, hclosed.mpr h.closed, ?_⟩
  rw [hqueues, hrefs, hclosers, hlist]
  exact h.place

theorem getElem?_put (hd : s.descs[d]? = some desc) (desc' : Descriptor) (e : Nat) :
    (s.descs.set d desc')[e]? = if e = d then some desc' else s.descs[e]? := by
  have hlt := (List.getElem?_eq_some_iff.mp hd).1
  rw [List.getElem?_set]
  by_cases he : d = e
  · rw [if_pos he, if_pos he.symm]
    subst he
    rw [if_pos hlt]
  · rw [if_neg he, if_neg (Ne.symm he)]

/-- A descriptor that is used anywhere was made. -/
theorem Inv.exists_desc (h : Inv s) (hused : ¬(s.queues d = 0 ∧ s.refs d = 0 ∧ s.closers d = 0 ∧
    d ∉ s.list ∧ d ∉ s.closed)) : ∃ desc, s.descs[d]? = some desc := by
  rcases Nat.lt_or_ge d s.descs.length with hlt | hge
  · exact ⟨_, List.getElem?_eq_getElem hlt⟩
  · exact absurd (h.known d hge) hused

/-- A descriptor that is written keeps its handle: every handle is one of before. -/
theorem exists_of_put (hd : s.descs[d]? = some desc) (hhandle : desc'.handle = desc.handle)
    {e : Nat} {b : Descriptor} (he : (s.descs.set d desc')[e]? = some b) :
    ∃ b', s.descs[e]? = some b' ∧ b'.handle = b.handle := by
  rw [getElem?_put hd] at he
  split at he
  · rename_i heq
    cases he
    exact ⟨desc, heq ▸ hd, hhandle.symm⟩
  · exact ⟨b, he, rfl⟩

/-- The descriptors that there are had their handles before, so no two have the same one. -/
theorem Inv.handles_of_old (h : Inv s) {descs : List Descriptor}
    (hold : ∀ (e : Nat) (b : Descriptor), descs[e]? = some b →
      ∃ b', s.descs[e]? = some b' ∧ b'.handle = b.handle) :
    (∀ (d e : Nat) (a b : Descriptor), descs[d]? = some a → descs[e]? = some b →
      a.handle = b.handle → d = e) ∧
    ∀ (d : Nat) (a : Descriptor), descs[d]? = some a → a.handle ≤ s.nextHandle := by
  constructor
  · intro e e' b b' he he' heq
    obtain ⟨c, hc, hcb⟩ := hold e b he
    obtain ⟨c', hc', hcb'⟩ := hold e' b' he'
    exact h.handles e e' c c' hc hc' (hcb.trans (heq.trans hcb'.symm))
  · intro e b he
    obtain ⟨c, hc, hcb⟩ := hold e b he
    rw [← hcb]
    exact h.bound e c hc

/-- A descriptor is written and keeps its handle and its place. -/
theorem Inv.modify (h : Inv s) (hd : s.descs[d]? = some desc) (hothers : Others s s' d)
    (hdescs : s'.descs = s.descs.set d desc') (hhandle : desc'.handle = desc.handle)
    (hsame : s'.list = s.list ∧ s'.index = s.index ∧ s'.nextHandle = s.nextHandle ∧
      s'.removed = s.removed ∧ s'.freed = s.freed ∧ s'.closed = s.closed ∧ s'.fault = s.fault)
    (hrefcnt : desc'.refcnt = s'.refs d) (hlive : Live s' d desc') : Inv s' := by
  obtain ⟨hlist, hindex, hnext, hremoved, hfreed, hclosed, hfault⟩ := hsame
  have hlt := (List.getElem?_eq_some_iff.mp hd).1
  have hget : ∀ e, s'.descs[e]? = if e = d then some desc' else s.descs[e]? := by
    intro e
    rw [hdescs, getElem?_put hd]
  have hold : ∀ (e : Nat) (b : Descriptor), s'.descs[e]? = some b →
      ∃ b', s.descs[e]? = some b' ∧ b'.handle = b.handle := by
    intro e b he
    rw [hdescs] at he
    exact exists_of_put hd hhandle he
  refine ⟨hfault.trans h.fault, ?_, ?_, ?_, hlist ▸ h.nodup, hindex ▸ h.wf, ?_, ?_, ?_,
    hnext ▸ h.next, ?_⟩
  · intro e b he
    rw [hget] at he
    split at he
    · rename_i heq
      cases he
      rw [heq]
      exact hrefcnt
    · rename_i hne
      rw [hothers.refs e hne]
      exact h.refcnt e b he
  · intro e b he
    rw [hget] at he
    split at he
    · rename_i heq
      cases he
      rw [heq]
      exact .inl hlive
    · rename_i hne
      have hclosed' : e ∈ s'.closed ↔ e ∈ s.closed := by rw [hclosed]
      have hlist' : e ∈ s'.list ↔ e ∈ s.list := by rw [hlist]
      exact (h.place e b he).imp
        (·.congr (hothers.queues e hne) (hothers.refs e hne) (hothers.closers e hne)
        hclosed' hlist')
        (·.congr (hothers.queues e hne) (hothers.refs e hne) (hothers.closers e hne)
        hclosed' hlist')
  · intro e he
    rw [hdescs, List.length_set] at he
    have hne : e ≠ d := by omega
    rw [hothers.queues e hne, hothers.refs e hne, hothers.closers e hne, hlist, hclosed]
    exact h.known e he
  · intro x
    rw [hindex, hlist, h.index x]
    refine and_congr_right fun _ => ?_
    rw [hget]
    split
    · rename_i heq
      rw [heq, hd]
      constructor
      · rintro ⟨b, hb, hx⟩
        cases hb
        exact ⟨desc', rfl, hhandle.trans hx⟩
      · rintro ⟨b, hb, hx⟩
        cases hb
        exact ⟨desc, rfl, hhandle.symm.trans hx⟩
    · exact Iff.rfl
  · exact (h.handles_of_old hold).1
  · rw [hnext]
    exact (h.handles_of_old hold).2
  · rw [hremoved, hfreed, hclosed]
    exact h.once

/-- Calls move in ways that no descriptor knows of. -/
theorem Inv.still {threads : List Pc} (h : Inv s)
    (htally : ∀ e, threads.countP (Pc.queues e) = s.queues e ∧
    threads.countP (Pc.refs e) = s.refs e ∧
      threads.countP (Pc.closes e) = s.closers e) : Inv { s with threads } := by
  refine ⟨h.fault, ?_, ?_, ?_, h.nodup, h.wf, h.index, h.handles, h.bound, h.next, h.once⟩
  · intro e b he
    rw [show State.refs { s with threads } e = s.refs e from (htally e).2.1]
    exact h.refcnt e b he
  · intro e b he
    obtain ⟨hqueues, hrefs, hclosers⟩ := htally e
    exact (h.place e b he).imp (·.congr hqueues hrefs hclosers Iff.rfl Iff.rfl)
      (·.congr hqueues hrefs hclosers Iff.rfl Iff.rfl)
  · intro e he
    obtain ⟨hqueues, hrefs, hclosers⟩ := htally e
    rw [show State.queues { s with threads } e = s.queues e from hqueues,
      show State.refs { s with threads } e = s.refs e from hrefs,
      show State.closers { s with threads } e = s.closers e from hclosers]
    exact h.known e he

/-- A new call has nothing to do with a descriptor. -/
theorem Inv.start (h : Inv s)
    (hpc : ∀ e, pc.queues e = false ∧ pc.refs e = false ∧ pc.closes e = false) :
    Inv (s.start pc) := by
  refine h.still fun e => ?_
  obtain ⟨hqueues, hrefs, hcloses⟩ := hpc e
  refine ⟨?_, ?_, ?_⟩
  · rw [List.countP_append, List.countP_singleton, hqueues]
    rfl
  · rw [List.countP_append, List.countP_singleton, hrefs]
    rfl
  · rw [List.countP_append, List.countP_singleton, hcloses]
    rfl

/-- A call goes from one place to another that is the same to every descriptor. -/
theorem Inv.pass (h : Inv s) (hi : s.threads[i]? = some a)
    (hab : ∀ e, a.queues e = b.queues e ∧ a.refs e = b.refs e ∧ a.closes e = b.closes e) :
    Inv (s.move i b) := by
  refine h.still fun e => ?_
  obtain ⟨hqueues, hrefs, hcloses⟩ := tally_set hi b e
  rw [(hab e).1] at hqueues
  rw [(hab e).2.1] at hrefs
  rw [(hab e).2.2] at hcloses
  exact ⟨Nat.add_right_cancel hqueues, Nat.add_right_cancel hrefs, Nat.add_right_cancel hcloses⟩

/-- A new descriptor gets the next number. -/
theorem Inv.number (h : Inv s) (hi : s.threads[i]? = some .number)
    (hnext : handle = s.nextHandle + 1) :
    Inv { s.move i (.queue s.descs.length) with
      nextHandle := handle, descs := s.descs ++ [⟨handle, 0, .actived, false⟩] } := by
  have hothers : Others s (s.move i (.queue s.descs.length)) s.descs.length := by
    refine others_set hi (onlyAt_none (fun e => ⟨rfl, rfl, rfl⟩) _) (fun e he => ?_) rfl
    exact ⟨decide_eq_false (Ne.symm he), rfl, rfl⟩
  obtain ⟨hqueues, hrefs, hclosers, hlist, hclosed⟩ := h.known s.descs.length (Nat.le_refl _)
  obtain ⟨htally, htally', htally''⟩ := tally_set hi (.queue s.descs.length) s.descs.length
  have hold : ∀ (e : Nat) (b : Descriptor), s.descs[e]? = some b → e ≠ s.descs.length := by
    intro e b he
    exact Nat.ne_of_lt (List.getElem?_eq_some_iff.mp he).1
  have hget : ∀ (e : Nat) (b : Descriptor),
      (s.descs ++ [⟨handle, 0, .actived, false⟩])[e]? = some b →
        s.descs[e]? = some b ∨ (e = s.descs.length ∧ b = ⟨handle, 0, .actived, false⟩) := by
    intro e b he
    rw [List.getElem?_append] at he
    split at he
    · exact .inl he
    · rename_i hlt
      obtain ⟨hlt', hb⟩ := List.getElem?_eq_some_iff.mp he
      rw [List.length_singleton] at hlt'
      refine .inr ⟨by omega, ?_⟩
      rw [List.getElem_singleton] at hb
      exact hb.symm
  have hlater : ¬handle ≤ s.nextHandle := by omega
  refine ⟨h.fault, ?_, ?_, ?_, h.nodup, h.wf, ?_, ?_, ?_, ?_, h.once⟩
  · intro e b he
    show b.refcnt = ((s.move i (.queue s.descs.length)).refs e : Int)
    rcases hget e b he with he | ⟨rfl, rfl⟩
    · rw [hothers.refs e (hold e b he)]
      exact h.refcnt e b he
    · rw [show (s.move i (.queue s.descs.length)).refs s.descs.length = s.refs s.descs.length from
        htally', hrefs]
      rfl
  · intro e b he
    rcases hget e b he with he | ⟨rfl, rfl⟩
    · have hne := hold e b he
      exact (h.place e b he).imp
        (·.congr (hothers.queues e hne) (hothers.refs e hne) (hothers.closers e hne)
        Iff.rfl Iff.rfl)
        (·.congr (hothers.queues e hne) (hothers.refs e hne) (hothers.closers e hne)
        Iff.rfl Iff.rfl)
    · refine .inl ⟨rfl, rfl, hclosed,
        .inl ⟨?_, htally'.trans hrefs, htally''.trans hclosers, hlist⟩⟩
      rw [if_pos (show (Pc.queue s.descs.length).queues
        s.descs.length = true from decide_eq_true rfl),
        hqueues] at htally
      exact htally
  · intro e he
    rw [show (State.descs _).length = (s.descs ++ [_]).length from rfl, List.length_append,
      List.length_singleton] at he
    have hne : e ≠ s.descs.length := by omega
    have hknown := h.known e (by omega)
    rw [← hothers.queues e hne, ← hothers.refs e hne, ← hothers.closers e hne] at hknown
    exact hknown
  · intro x
    refine (h.index x).trans (and_congr_right fun hx => ?_)
    have hlt : x.2 < s.descs.length := by
      rcases Nat.lt_or_ge x.2 s.descs.length with hlt | hge
      · exact hlt
      · exact absurd hx (h.known x.2 hge).2.2.2.1
    show _ ↔ ∃ desc, (s.descs ++ [_])[x.2]? = some desc ∧ desc.handle = x.1
    rw [List.getElem?_append_left hlt]
  · intro e e' b b' he he' heq
    rcases hget e b he with he | ⟨rfl, rfl⟩
    · rcases hget e' b' he' with he' | ⟨rfl, rfl⟩
      · exact h.handles e e' b b' he he' heq
      · exact absurd (h.bound e b he) (by rw [heq]; exact hlater)
    · rcases hget e' b' he' with he' | ⟨rfl, rfl⟩
      · exact absurd (h.bound e' b' he') (by rw [← heq]; exact hlater)
      · rfl
  · intro e b he
    show b.handle ≤ handle
    rcases hget e b he with he | ⟨rfl, rfl⟩
    · have hbound := h.bound e b he
      omega
    · exact Int.le_refl _
  · have := h.next
    show 0 ≤ handle
    omega

/-- The new descriptor comes into the list and the tree. -/
theorem Inv.queue (h : Inv s) (hi : s.threads[i]? = some (.queue d)) :
    ∃ desc, s.descs[d]? = some desc ∧ desc.freed = false ∧
      Inv ((s.move i (.result d)).queueDescriptor d desc) := by
  obtain ⟨htally, htally', htally''⟩ := tally_set hi (.result d) d
  rw [if_pos (show (Pc.queue d).queues d = true from decide_eq_true rfl)] at htally
  have htally : (s.threads.set i (.result d)).countP (Pc.queues d) + 1 = s.queues d := htally
  obtain ⟨desc, hd⟩ := h.exists_desc fun hno => Nat.succ_ne_zero _ (htally.trans hno.1)
  have hothers : Others s (s.move i (.result d)) d :=
    others_set hi (fun e he => ⟨decide_eq_false (Ne.symm he), rfl, rfl⟩)
      (onlyAt_none (fun e => ⟨rfl, rfl, rfl⟩) _) rfl
  rcases h.place d desc hd with hlive | hgone
  swap
  · have := hgone.place.1
    omega
  obtain ⟨hone, hrefs, hclosers, hlist⟩ | ⟨hzero, -⟩ := hlive.place
  swap
  · omega
  have hfresh : ∀ y ∈ toList s.index, Prod.fst y ≠ desc.handle := by
    intro y hy heq
    obtain ⟨hmem, b, hb, hbh⟩ := (h.index y).mp hy
    have hdy := h.handles y.2 d b desc hb hd (hbh.trans heq)
    rw [hdy] at hmem
    exact hlist hmem
  refine ⟨desc, hd, hlive.freed, h.fault, ?_, ?_, ?_, ?_, h.wf.avlinsert orders _, ?_,
    h.handles, h.bound,
    h.next, h.once⟩
  · intro e b he
    show b.refcnt = ((s.move i (.result d)).refs e : Int)
    by_cases hed : e = d
    · subst hed
      rw [show (s.move i (.result e)).refs e = s.refs e from htally']
      exact h.refcnt e b he
    · rw [hothers.refs e hed]
      exact h.refcnt e b he
  · intro e b he
    by_cases hed : e = d
    · subst hed
      cases hd.symm.trans he
      refine .inl ⟨hlive.freed, hlive.stat, hlive.closed, .inr ⟨?_, ?_⟩⟩
      · show (s.threads.set i (.result e)).countP (Pc.queues e) = 0
        omega
      · exact List.mem_append_right _ List.mem_cons_self
    · have hlist' : e ∈ s.list ++ [d] ↔ e ∈ s.list := by
        rw [List.mem_append, List.mem_singleton]
        exact or_iff_left hed
      exact (h.place e b he).imp
        (·.congr (hothers.queues e hed) (hothers.refs e hed) (hothers.closers e hed) Iff.rfl hlist')
        (·.congr (hothers.queues e hed) (hothers.refs e hed) (hothers.closers e hed) Iff.rfl hlist')
  · intro e he
    have hed : e ≠ d := by
      rintro rfl
      exact absurd (List.getElem?_eq_some_iff.mp hd).1 (Nat.not_lt.mpr he)
    obtain ⟨hq, hr, hc, hl, hcl⟩ := h.known e he
    refine ⟨(hothers.queues e hed).trans hq, (hothers.refs e hed).trans hr,
      (hothers.closers e hed).trans hc, fun hmem => ?_, hcl⟩
    rcases List.mem_append.mp hmem with hmem | hmem
    · exact hl hmem
    · exact hed (List.mem_singleton.mp hmem)
  · show (s.list ++ [d]).Nodup
    refine List.nodup_append.mpr ⟨h.nodup, List.pairwise_singleton _ _, ?_⟩
    rintro e he _ he' rfl
    rw [List.mem_singleton.mp he'] at he
    exact hlist he
  · intro x
    show x ∈ toList (avlinsert descriptorCompare s.index (desc.handle, d)) ↔
      x.2 ∈ s.list ++ [d] ∧ ∃ desc, s.descs[x.2]? = some desc ∧ desc.handle = x.1
    rw [Avl.mem_toList_avlinsert orders h.wf.sorted hfresh, h.index x, List.mem_append,
      List.mem_singleton]
    constructor
    · rintro (rfl | ⟨hx, hb⟩)
      · exact ⟨.inr rfl, desc, hd, rfl⟩
      · exact ⟨.inl hx, hb⟩
    · rintro ⟨hx | hx, b, hb, hbx⟩
      · exact .inr ⟨hx, b, hb, hbx⟩
      · rw [hx] at hb
        cases hd.symm.trans hb
        exact .inl (Prod.ext hbx.symm hx)

/-! ### Looking a handle up -/

theorem Inv.search_eq_some (h : Inv s) : searchDescriptor s handle = some d ↔
    d ∈ s.list ∧ ∃ desc, s.descs[d]? = some desc ∧ desc.handle = handle := by
  rw [searchDescriptor, Option.map_eq_some_iff]
  constructor
  · rintro ⟨x, hx, rfl⟩
    obtain ⟨hmem, hkey⟩ := (Avl.avlsearch_eq_some orders h.wf.sorted).mp hx
    obtain ⟨hlist, b, hb, hbx⟩ := (h.index x).mp hmem
    exact ⟨hlist, b, hb, hbx.trans hkey⟩
  · rintro ⟨hlist, b, hb, rfl⟩
    exact ⟨(b.handle, d), (Avl.avlsearch_eq_some orders h.wf.sorted).mpr
      ⟨(h.index (b.handle, d)).mpr ⟨hlist, b, hb, rfl⟩, rfl⟩, rfl⟩

/-- What is in the list has its memory. -/
theorem Inv.live_of_mem (h : Inv s) (hmem : d ∈ s.list) : ∃ desc, s.descs[d]? = some desc ∧
    Live s d desc ∧ s.queues d = 0 := by
  obtain ⟨desc, hd⟩ := h.exists_desc fun hno => hno.2.2.2.1 hmem
  rcases h.place d desc hd with hlive | hgone
  · refine ⟨_, hd, hlive, ?_⟩
    obtain ⟨-, -, -, hno⟩ | ⟨hzero, -⟩ := hlive.place
    · exact absurd hmem hno
    · exact hzero
  · exact absurd hmem hgone.place.2.2.2

/-- A handle is found, and the call is counted in; or it is not found, and nothing happens. -/
theorem Inv.reference_cases (h : Inv s) (handle : Int) :
    (referenceDescriptor s handle = (s, none) ∧
        ∀ d ∈ s.list, ∀ desc, s.descs[d]? = some desc → desc.handle ≠ handle) ∨
      ∃ d desc, d ∈ s.list ∧ s.descs[d]? = some desc ∧ desc.handle = handle ∧ Live s d desc ∧
        s.queues d = 0 ∧ referenceDescriptor s handle =
          (s.put d { desc with refcnt := int32 (desc.refcnt + 1) }, some d) := by
  rw [referenceDescriptor]
  cases hsearch : searchDescriptor s handle with
  | none =>
    refine .inl ⟨rfl, fun d hd desc hdesc heq => ?_⟩
    cases hsearch.symm.trans (h.search_eq_some.mpr ⟨hd, desc, hdesc, heq⟩)
  | some d =>
    obtain ⟨hlist, desc, hd, hhandle⟩ := h.search_eq_some.mp hsearch
    obtain ⟨desc', hd', hlive, hzero⟩ := h.live_of_mem hlist
    cases hd.symm.trans hd'
    refine .inr ⟨d, desc, hlist, hd, hhandle, hlive, hzero, ?_⟩
    simp only [State.access, hd, hlive.freed, Bool.false_eq_true, if_false, hlive.stat, if_true,
      Option.filter_some, decide_true, Option.map_some]

/-- The call is counted in. -/
theorem Inv.reference (h : Inv s) (hi : s.threads[i]? = some a)
    (ha : ∀ e, a.queues e = false ∧ a.refs e = false ∧ a.closes e = false)
    (hb : b.OnlyAt d ∧ b.queues d = false ∧ b.refs d = true ∧ b.closes d = false)
    (hmem : d ∈ s.list) (hd : s.descs[d]? = some desc) (hlive : Live s d desc)
    (hzero : s.queues d = 0) (hroom : desc.refcnt < 2 ^ 31 - 1) :
    Inv ((s.put d { desc with refcnt := int32 (desc.refcnt + 1) }).move i b) := by
  have hrefcnt := h.refcnt d desc hd
  rw [show int32 (desc.refcnt + 1) = desc.refcnt + 1 from
    Lib.int32_of_inInt32 ⟨by omega, by omega⟩]
  obtain ⟨hqueues, hrefs, hcloses⟩ := tally_set hi b d
  rw [(ha d).1, hb.2.1] at hqueues
  rw [(ha d).2.1, hb.2.2.1] at hrefs
  have hothers : Others s ((s.put d { desc with refcnt := desc.refcnt + 1 }).move i b) d :=
    others_set hi (onlyAt_none ha d) hb.1 rfl
  refine h.modify hd hothers rfl rfl ⟨rfl, rfl, rfl, rfl, rfl, rfl, rfl⟩ ?_
    ⟨hlive.freed, hlive.stat, hlive.closed, .inr ⟨hqueues.trans hzero, hmem⟩⟩
  show desc.refcnt + 1 = ((s.threads.set i b).countP (Pc.refs d) : Int)
  rw [show (s.threads.set i b).countP (Pc.refs d) = s.refs d + 1 from hrefs, hrefcnt]
  rfl

/-- The call is counted out. -/
theorem Inv.dereference (h : Inv s) (hi : s.threads[i]? = some a)
    (ha : a.OnlyAt d ∧ a.queues d = false ∧ a.refs d = true)
    (hb : b.OnlyAt d ∧ b.queues d = false ∧ b.refs d = false) :
    Inv (dereferenceDescriptor (s.move i b) d) := by
  obtain ⟨hqueues, hrefs, -⟩ := tally_set hi b d
  rw [ha.2.1, hb.2.1] at hqueues
  rw [ha.2.2, hb.2.2] at hrefs
  have hrefs : (s.threads.set i b).countP (Pc.refs d) + 1 = s.refs d := hrefs
  obtain ⟨desc, hd⟩ := h.exists_desc fun hno => Nat.succ_ne_zero _ (hrefs.trans hno.2.1)
  have hrefcnt := h.refcnt d desc hd
  rcases h.place d desc hd with hlive | hgone
  swap
  · have := hgone.place.2.1
    omega
  obtain ⟨-, hnone, -⟩ | ⟨hzero, hmem⟩ := hlive.place
  · omega
  have hpos : desc.refcnt > 0 := by omega
  have heq : dereferenceDescriptor (s.move i b) d =
      (s.move i b).put d { desc with refcnt := desc.refcnt - 1 } := by
    rw [dereferenceDescriptor, State.access, show (s.move i b).descs[d]? = some desc from hd]
    simp only [hlive.freed, Bool.false_eq_true, if_false, if_pos hpos, hlive.stat,
      reduceCtorEq, and_false]
  rw [heq]
  refine h.modify hd (others_set hi ha.1 hb.1 rfl) rfl rfl ⟨rfl, rfl, rfl, rfl, rfl, rfl, rfl⟩ ?_
    ⟨hlive.freed, hlive.stat, hlive.closed, .inr ⟨hqueues.trans hzero, hmem⟩⟩
  show desc.refcnt - 1 = ((s.threads.set i b).countP (Pc.refs d) : Int)
  omega

/-! ### Closing a descriptor -/

theorem countP_closes (threads : List Pc) (d : Nat) :
    threads.countP (Pc.closes d) = threads.count (.closeDescriptor d) := by
  rw [List.count_eq_countP]
  refine List.countP_congr fun pc _ => ?_
  cases pc <;> simp [Pc.closes]

/-- The descriptor is taken out of the list and the tree, and freed. -/
theorem Inv.close (h : Inv s) (hi : s.threads[i]? = some (.closeDescriptor d))
    (hrefcnt : ∀ desc, s.descs[d]? = some desc → desc.refcnt = 0)
    (hone : s.threads.count (.closeDescriptor d) = 1) :
    Inv { closeDescriptor (s.move i .done) d with closed := s.closed ++ [d] } := by
  obtain ⟨hqueues, hrefs, hcloses⟩ := tally_set hi .done d
  rw [if_pos (show (Pc.closeDescriptor d).closes d = true from decide_eq_true rfl)] at hcloses
  have hcloses : (s.threads.set i .done).countP (Pc.closes d) + 1 = s.closers d := hcloses
  have hclosers : s.closers d = 1 := (countP_closes s.threads d).trans hone
  have hothers : Others s (s.move i .done) d :=
    others_set hi (fun e he => ⟨rfl, rfl, decide_eq_false (Ne.symm he)⟩)
      (onlyAt_none (fun e => ⟨rfl, rfl, rfl⟩) _) rfl
  obtain ⟨desc, hd⟩ := h.exists_desc fun hno => Nat.one_ne_zero (hclosers.symm.trans hno.2.2.1)
  have hzero := hrefcnt desc hd
  have hrefs0 : s.refs d = 0 := by
    have := h.refcnt d desc hd
    omega
  rcases h.place d desc hd with hlive | hgone
  swap
  · have := hgone.place.2.2.1
    omega
  obtain ⟨-, -, hnone, -⟩ | ⟨hqueue, hmem⟩ := hlive.place
  · omega
  have heq : closeDescriptor (s.move i .done) d =
      ((s.move i .done).dequeueDescriptor d { desc with stat := .closeWait }).free d
        { desc with stat := .closeWait } := by
    rw [closeDescriptor, State.access, show (s.move i .done).descs[d]? = some desc from hd]
    simp only [hlive.freed, Bool.false_eq_true, if_false, if_true, hlive.stat, hzero]
  rw [heq]
  have hget : ∀ e, (s.descs.set d { desc with stat := .closeWait, freed := true })[e]? =
      if e = d then some { desc with stat := .closeWait, freed := true } else s.descs[e]? :=
    getElem?_put hd _
  have hold : ∀ (e : Nat) (b : Descriptor),
      (s.descs.set d { desc with stat := .closeWait, freed := true })[e]? = some b →
        ∃ b', s.descs[e]? = some b' ∧ b'.handle = b.handle :=
    fun e b he => exists_of_put hd (by rfl) he
  have hlist : ∀ e, e ≠ d → (e ∈ s.list.erase d ↔ e ∈ s.list) := fun e he =>
    List.mem_erase_of_ne he
  have hout : d ∉ s.list.erase d := h.nodup.not_mem_erase
  have hclosed : ∀ e, e ≠ d → (e ∈ s.closed ++ [d] ↔ e ∈ s.closed) := by
    intro e he
    rw [List.mem_append, List.mem_singleton]
    exact or_iff_left he
  refine ⟨h.fault, ?_, ?_, ?_, h.nodup.erase d, h.wf.avlremove orders _ none, ?_, ?_,
    ?_, h.next, ?_⟩
  · intro e b he
    show b.refcnt = ((s.move i .done).refs e : Int)
    rw [show (State.descs _) = s.descs.set d
      { desc with stat := .closeWait, freed := true } from rfl,
      hget] at he
    split at he
    · rename_i heq
      cases he
      subst heq
      rw [show (s.move i .done).refs e = s.refs e from hrefs, hrefs0]
      exact hzero
    · rename_i hne
      rw [hothers.refs e hne]
      exact h.refcnt e b he
  · intro e b he
    rw [show (State.descs _) = s.descs.set d
      { desc with stat := .closeWait, freed := true } from rfl,
      hget] at he
    split at he
    · rename_i heq
      cases he
      subst heq
      refine .inr ⟨rfl, rfl, List.mem_append_right _ List.mem_cons_self, hqueues.trans hqueue,
        hrefs.trans hrefs0, ?_, hout⟩
      show (s.threads.set i .done).countP (Pc.closes e) = 0
      omega
    · rename_i hne
      exact (h.place e b he).imp
        (·.congr (hothers.queues e hne) (hothers.refs e hne) (hothers.closers e hne) (hclosed e hne)
          (hlist e hne))
        (·.congr (hothers.queues e hne) (hothers.refs e hne) (hothers.closers e hne) (hclosed e hne)
          (hlist e hne))
  · intro e he
    rw [show (State.descs _) = s.descs.set d
      { desc with stat := .closeWait, freed := true } from rfl,
      List.length_set] at he
    have hlt := (List.getElem?_eq_some_iff.mp hd).1
    have hne : e ≠ d := by omega
    obtain ⟨hq, hr, hc, hl, hcl⟩ := h.known e he
    exact ⟨(hothers.queues e hne).trans hq, (hothers.refs e hne).trans hr,
      (hothers.closers e hne).trans hc, fun hc => hl ((hlist e hne).mp hc),
      fun hc => hcl ((hclosed e hne).mp hc)⟩
  · intro x
    show x ∈ toList (avlremove descriptorCompare s.index (desc.handle, d) none).1 ↔
      x.2 ∈ s.list.erase d ∧ ∃ b, (s.descs.set d _)[x.2]? = some b ∧ b.handle = x.1
    rw [Avl.mem_toList_avlremove orders h.wf.sorted, h.index x, hget]
    by_cases hx : x.2 = d
    · rw [hx]
      constructor
      · rintro ⟨⟨-, b, hb, hbx⟩, hne⟩
        cases hd.symm.trans hb
        exact absurd hbx.symm hne
      · rintro ⟨hc, -⟩
        exact absurd hc hout
    · rw [if_neg hx, hlist x.2 hx]
      refine ⟨And.left, fun hboth => ⟨hboth, fun hc => hx ?_⟩⟩
      obtain ⟨-, b, hb, hbx⟩ := hboth
      exact h.handles x.2 d b desc hb hd (hbx.trans hc)
  · exact (h.handles_of_old hold).1
  · exact (h.handles_of_old hold).2
  · obtain ⟨hremoved, hfreed, hnodup⟩ := h.once
    show s.removed ++ [d] = s.closed ++ [d] ∧ s.freed ++ [d] = s.closed ++ [d] ∧
        (s.closed ++ [d]).Nodup
    rw [hremoved, hfreed]
    refine ⟨rfl, rfl, List.nodup_append.mpr ⟨hnodup, List.pairwise_singleton _ _, ?_⟩⟩
    rintro e he _ he' rfl
    rw [List.mem_singleton.mp he'] at he
    exact hlive.closed he

/-! ### No call has `NULL` -/

theorem threads_access {f : Descriptor → State} (hf : ∀ desc, (f desc).threads = s.threads) :
    (s.access d f).threads = s.threads := by
  rw [State.access]
  split
  · rfl
  · split
    · rfl
    · exact hf _

theorem threads_reference (s : State) (handle : Int) :
    (referenceDescriptor s handle).1.threads = s.threads := by
  rw [referenceDescriptor]
  split
  · rfl
  · refine threads_access fun desc => ?_
    split <;> rfl

theorem threads_dereference (s : State) (d : Nat) :
    (dereferenceDescriptor s d).threads = s.threads := by
  have hdesc : ∀ desc : Descriptor,
      (if 0 = desc.refcnt ∧ desc.stat = .closeWait then (s.queueDescriptor d desc).free d desc
        else s.put d desc).threads = s.threads := by
    intro desc
    split <;> rfl
  exact threads_access fun desc => hdesc _

theorem threads_closeDescriptor (s : State) (d : Nat) :
    (closeDescriptor s d).threads = s.threads := by
  have hdesc : ∀ desc : Descriptor,
      (if 0 = desc.refcnt then (s.dequeueDescriptor d desc).free d desc
        else s.put d desc).threads = s.threads := by
    intro desc
    split <;> rfl
  exact threads_access fun desc => hdesc _

/-- A step of a call moves it, and not to where it has `NULL`, when a read or a write finds its
descriptor. -/
theorem threads_stepOf (hi : s.threads[i]? = some a) (hguard : Guarded s (.step i))
    (hstep : stepOf s i a = some s') :
    ∃ b, s'.threads = s.threads.set i b ∧ b ≠ .ioDereference none := by
  cases a with
  | number =>
    cases hstep
    exact ⟨_, rfl, fun hc => by cases hc⟩
  | queue d =>
    cases hstep
    exact ⟨.result d, threads_access fun _ => rfl, fun hc => by cases hc⟩
  | result d =>
    cases hstep
    exact ⟨.done, threads_access fun _ => rfl, fun hc => by cases hc⟩
  | ioReference io handle =>
    simp only [Guarded, hi] at hguard
    have hthreads := threads_reference s handle
    rw [Descriptors.stepOf] at hstep
    cases hreference : referenceDescriptor s handle with
    | mk t descriptor =>
      rw [hreference] at hguard hthreads hstep
      cases hstep
      refine ⟨_, congrArg (List.set · i _) hthreads, ?_⟩
      cases descriptor with
      | none =>
        have hchecks := hguard.1.resolve_right fun hc => hc rfl
        dsimp only
        rw [if_pos hchecks]
        exact fun hc => by cases hc
      | some d => exact fun hc => by cases hc
  | ioRun d =>
    cases hstep
    exact ⟨_, threads_access fun _ => rfl, fun hc => by cases hc⟩
  | ioDereference descriptor =>
    cases descriptor with
    | none =>
      cases hstep
      exact ⟨_, rfl, fun hc => by cases hc⟩
    | some d =>
      cases hstep
      exact ⟨_, threads_dereference .., fun hc => by cases hc⟩
  | closeReference handle =>
    have hthreads := threads_reference s handle
    rw [Descriptors.stepOf] at hstep
    cases hreference : referenceDescriptor s handle with
    | mk t descriptor =>
      rw [hreference] at hthreads hstep
      cases hstep
      refine ⟨_, congrArg (List.set · i _) hthreads, ?_⟩
      cases descriptor with
      | none => exact fun hc => by cases hc
      | some d => exact fun hc => by cases hc
  | closeDereference d =>
    cases hstep
    exact ⟨_, threads_dereference .., fun hc => by cases hc⟩
  | closeDescriptor d =>
    cases hstep
    exact ⟨_, threads_closeDescriptor .., fun hc => by cases hc⟩
  | done => cases hstep

theorem nonNull_step {act : Act} (hnull : .ioDereference none ∉ s.threads)
    (hstep : GuardedStep s act s') : .ioDereference none ∉ s'.threads := by
  obtain ⟨hguard, hstep⟩ := hstep
  have hstart : ∀ pc : Pc, pc ≠ .ioDereference none →
      .ioDereference none ∉ (s.start pc).threads := by
    intro pc hpc hc
    rcases List.mem_append.mp hc with hc | hc
    · exact hnull hc
    · exact hpc (List.mem_singleton.mp hc).symm
  cases act with
  | create =>
    cases hstep
    exact hstart _ fun hc => by cases hc
  | io io handle =>
    cases hstep
    refine hstart _ ?_
    split <;> exact fun hc => by cases hc
  | close handle =>
    cases hstep
    refine hstart _ ?_
    split <;> exact fun hc => by cases hc
  | step i =>
    obtain ⟨pc, hi, hpc⟩ := Option.bind_eq_some_iff.mp hstep
    obtain ⟨b, hset, hb⟩ := threads_stepOf hi hguard hpc
    rw [hset]
    intro hc
    rcases List.mem_or_eq_of_mem_set hc with hc | hc
    · exact hnull hc
    · exact hb hc.symm

/-! ### A new handle is returned -/

/-- The descriptor whose handle is about to be returned was made, and is not closed. -/
def Returns (s : State) : Prop := ∀ d, .result d ∈ s.threads → d ∉ s.closed ∧ d < s.descs.length

theorem access_of {P : State → Prop} {f : Descriptor → State} (hfail : P s.failed)
    (hf : ∀ desc, P (f desc)) : P (s.access d f) := by
  rw [State.access]
  split
  · exact hfail
  · split
    · exact hfail
    · exact hf _

/-- What does not come into the list of the closed descriptors, and does not get lost. -/
def Keeps (s s' : State) : Prop := s'.closed = s.closed ∧ s'.descs.length = s.descs.length

theorem keeps_reference (s : State) (handle : Int) : Keeps s (referenceDescriptor s handle).1 := by
  rw [referenceDescriptor]
  split
  · exact ⟨rfl, rfl⟩
  · refine access_of (P := Keeps s) ⟨rfl, rfl⟩ fun desc => ?_
    split
    · exact ⟨rfl, List.length_set⟩
    · exact ⟨rfl, rfl⟩

theorem keeps_dereference (s : State) (d : Nat) : Keeps s (dereferenceDescriptor s d) := by
  have hdesc : ∀ desc : Descriptor,
      Keeps s (if 0 = desc.refcnt ∧ desc.stat = .closeWait then
        (s.queueDescriptor d desc).free d desc else s.put d desc) := by
    intro desc
    split
    · exact ⟨rfl, List.length_set⟩
    · exact ⟨rfl, List.length_set⟩
  exact access_of (P := Keeps s) ⟨rfl, rfl⟩ fun desc => hdesc _

theorem keeps_closeDescriptor (s : State) (d : Nat) : Keeps s (closeDescriptor s d) := by
  have hdesc : ∀ desc : Descriptor,
      Keeps s (if 0 = desc.refcnt then (s.dequeueDescriptor d desc).free d desc
        else s.put d desc) := by
    intro desc
    split
    · exact ⟨rfl, List.length_set⟩
    · exact ⟨rfl, List.length_set⟩
  exact access_of (P := Keeps s) ⟨rfl, rfl⟩ fun desc => hdesc _

/-- A call that moves on returns no handle, unless it has just queued its descriptor. -/
theorem Returns.move (h : Returns s) {b : Pc} (hb : ∀ d, b ≠ .result d)
    (hset : s'.threads = s.threads.set i b) (hkeeps : Keeps s s') : Returns s' := by
  intro d hd
  rw [hset] at hd
  rcases List.mem_or_eq_of_mem_set hd with hd | hd
  · rw [hkeeps.1, hkeeps.2]
    exact h d hd
  · exact absurd hd.symm (hb d)

theorem Returns.start (h : Returns s) (hpc : ∀ d, pc ≠ .result d) : Returns (s.start pc) := by
  intro d hd
  rcases List.mem_append.mp hd with hd | hd
  · exact h d hd
  · exact absurd (List.mem_singleton.mp hd).symm (hpc d)

theorem Inv.returns_stepOf (h : Inv s) (hresult : Returns s) (hi : s.threads[i]? = some a)
    (hguard : Guarded s (.step i)) (hstep : stepOf s i a = some s') : Returns s' := by
  cases a with
  | number =>
    cases hstep
    intro d hd
    rcases List.mem_or_eq_of_mem_set hd with hd | hd
    · obtain ⟨hclosed, hlt⟩ := hresult d hd
      refine ⟨hclosed, ?_⟩
      show d < (s.descs ++ [_]).length
      rw [List.length_append]
      exact Nat.lt_add_right 1 hlt
    · cases hd
  | queue d =>
    obtain ⟨desc, hd, hfreed, -⟩ := h.queue hi
    simp only [stepOf, State.access,
      show (s.move i (.result d)).descs[d]? = some desc from hd,
      hfreed, Bool.false_eq_true, if_false] at hstep
    cases hstep
    intro e he
    rcases List.mem_or_eq_of_mem_set he with he | he
    · exact hresult e he
    · cases he
      rcases h.place d desc hd with hlive | hgone
      · exact ⟨hlive.closed, (List.getElem?_eq_some_iff.mp hd).1⟩
      · cases hfreed.symm.trans hgone.freed
  | result d =>
    cases hstep
    exact hresult.move (b := .done) (fun _ => nofun) (threads_access fun _ => rfl)
      (access_of (P := Keeps s) ⟨rfl, rfl⟩ fun _ => ⟨rfl, rfl⟩)
  | ioReference io handle =>
    have hkeeps := keeps_reference s handle
    have hthreads := threads_reference s handle
    rw [stepOf] at hstep
    cases hreference : referenceDescriptor s handle with
    | mk t descriptor =>
      rw [hreference] at hkeeps hthreads hstep
      cases hstep
      refine hresult.move (fun e => ?_) (congrArg (List.set · i _) hthreads) hkeeps
      cases descriptor with
      | none =>
        dsimp only
        split <;> nofun
      | some d => nofun
  | ioRun d =>
    cases hstep
    exact hresult.move (b := .ioDereference (some d)) (fun _ => nofun)
      (threads_access fun _ => rfl) (access_of (P := Keeps s) ⟨rfl, rfl⟩ fun _ => ⟨rfl, rfl⟩)
  | ioDereference descriptor =>
    cases descriptor with
    | none =>
      cases hstep
      exact hresult.move (b := .done) (fun _ => nofun) rfl ⟨rfl, rfl⟩
    | some d =>
      cases hstep
      exact hresult.move (b := .done) (fun _ => nofun) (threads_dereference ..)
        (keeps_dereference (s.move i .done) d)
  | closeReference handle =>
    have hkeeps := keeps_reference s handle
    have hthreads := threads_reference s handle
    rw [stepOf] at hstep
    cases hreference : referenceDescriptor s handle with
    | mk t descriptor =>
      rw [hreference] at hkeeps hthreads hstep
      cases hstep
      refine hresult.move (fun e => ?_) (congrArg (List.set · i _) hthreads) hkeeps
      cases descriptor with
      | none => nofun
      | some d => nofun
  | closeDereference d =>
    cases hstep
    exact hresult.move (b := .closeDescriptor d) (fun _ => nofun) (threads_dereference ..)
      (keeps_dereference (s.move i (.closeDescriptor d)) d)
  | closeDescriptor d =>
    -- the call that made the descriptor has returned
    simp only [Guarded, hi] at hguard
    have hkeeps := keeps_closeDescriptor (s.move i .done) d
    cases hstep
    intro e he
    have he : .result e ∈ (closeDescriptor (s.move i .done) d).threads := he
    rw [threads_closeDescriptor] at he
    rcases List.mem_or_eq_of_mem_set he with he | he
    · obtain ⟨hclosed, hlt⟩ := hresult e he
      refine ⟨fun hc => ?_, Nat.lt_of_lt_of_eq hlt hkeeps.2.symm⟩
      rcases List.mem_append.mp hc with hc | hc
      · exact hclosed hc
      · rw [List.mem_singleton.mp hc] at he
        exact hguard.2.2 he
    · cases he
  | done => cases hstep

theorem Inv.returns_step (h : Inv s) {act : Act} (hresult : Returns s)
    (hstep : GuardedStep s act s') : Returns s' := by
  obtain ⟨hguard, hstep⟩ := hstep
  cases act with
  | create =>
    cases hstep
    exact hresult.start fun _ => nofun
  | io io handle =>
    cases hstep
    refine hresult.start fun _ => ?_
    split <;> nofun
  | close handle =>
    cases hstep
    refine hresult.start fun _ => ?_
    split <;> nofun
  | step i =>
    obtain ⟨pc, hi, hpc⟩ := Option.bind_eq_some_iff.mp hstep
    exact h.returns_stepOf hresult hi hguard hpc

/-! ### All steps -/

theorem Inv.stepOf (h : Inv s) (hnull : .ioDereference none ∉ s.threads) (hresult : Returns s)
    (hi : s.threads[i]? = some a) (hguard : Guarded s (.step i))
    (hstep : stepOf s i a = some s') : Inv s' := by
  have hnone : ∀ e, Pc.done.queues e = false ∧ Pc.done.refs e = false ∧ Pc.done.closes e = false :=
    fun e => ⟨rfl, rfl, rfl⟩
  have hother : ∀ d e : Nat, e ≠ d → decide (d = e) = false := fun d e he =>
    decide_eq_false (Ne.symm he)
  cases a with
  | number =>
    cases hstep
    simp only [Guarded, hi] at hguard
    refine h.number hi (Lib.int32_of_inInt32 ?_)
    have := h.next
    exact ⟨by omega, by omega⟩
  | queue d =>
    obtain ⟨desc, hd, hfreed, hinv⟩ := h.queue hi
    simp only [Descriptors.stepOf, State.access,
      show (s.move i (.result d)).descs[d]? = some desc from hd,
      hfreed, Bool.false_eq_true, if_false] at hstep
    cases hstep
    exact hinv
  | result d =>
    obtain ⟨hclosed, hlt⟩ := hresult d (List.mem_of_getElem? hi)
    obtain ⟨desc, hd⟩ : ∃ desc, s.descs[d]? = some desc := ⟨_, List.getElem?_eq_getElem hlt⟩
    have hlive := (h.place d desc hd).resolve_right fun hgone => hclosed hgone.closed
    simp only [Descriptors.stepOf, State.access,
      show (s.move i .done).descs[d]? = some desc from hd,
      hlive.freed, Bool.false_eq_true, if_false] at hstep
    cases hstep
    exact h.pass hi fun e => ⟨rfl, rfl, rfl⟩
  | ioReference io handle =>
    rw [Descriptors.stepOf] at hstep
    simp only [Guarded, hi] at hguard
    rcases h.reference_cases handle with ⟨heq, -⟩ | ⟨d, desc, hmem, hd, hhandle, hlive, hzero, heq⟩
    · -- only a call that checks comes here
      rw [heq] at hguard hstep
      have hchecks := hguard.1.resolve_right fun hc => hc rfl
      simp only [if_pos hchecks] at hstep
      cases hstep
      exact h.pass hi fun e => ⟨rfl, rfl, rfl⟩
    · rw [heq] at hstep
      cases hstep
      exact h.reference hi (fun e => ⟨rfl, rfl, rfl⟩)
        ⟨fun e he => ⟨rfl, hother d e he, rfl⟩, rfl, decide_eq_true rfl, rfl⟩ hmem hd hlive hzero
        (hguard.2 d (h.search_eq_some.mpr ⟨hmem, desc, hd, hhandle⟩) desc hd)
  | ioRun d =>
    cases hstep
    have hinv : Inv (s.move i (.ioDereference (some d))) := h.pass hi fun e => ⟨rfl, rfl, rfl⟩
    have hrefs : 0 < s.refs d :=
      List.countP_pos_iff.mpr ⟨_, List.mem_of_getElem? hi, decide_eq_true rfl⟩
    obtain ⟨desc, hd⟩ := h.exists_desc fun hno => Nat.ne_of_gt hrefs hno.2.1
    rcases h.place d desc hd with hlive | hgone
    · rw [State.access, show (s.move i (.ioDereference (some d))).descs[d]? = _ from hd]
      simp only [hlive.freed, Bool.false_eq_true, if_false]
      exact hinv
    · exact absurd hgone.place.2.1 (Nat.ne_of_gt hrefs)
  | ioDereference descriptor =>
    cases descriptor with
    | none => exact absurd (List.mem_of_getElem? hi) hnull
    | some d =>
      cases hstep
      exact h.dereference hi ⟨fun e he => ⟨rfl, hother d e he, rfl⟩, rfl, decide_eq_true rfl⟩
        ⟨onlyAt_none hnone d, rfl, rfl⟩
  | closeReference handle =>
    rw [Descriptors.stepOf] at hstep
    simp only [Guarded, hi] at hguard
    rcases h.reference_cases handle with ⟨heq, -⟩ | ⟨d, desc, hmem, hd, hhandle, hlive, hzero, heq⟩
    · rw [heq] at hstep
      cases hstep
      exact h.pass hi fun e => ⟨rfl, rfl, rfl⟩
    · rw [heq] at hstep
      cases hstep
      exact h.reference hi (fun e => ⟨rfl, rfl, rfl⟩)
        ⟨fun e he => ⟨rfl, hother d e he, rfl⟩, rfl, decide_eq_true rfl, rfl⟩ hmem hd hlive hzero
        (hguard d (h.search_eq_some.mpr ⟨hmem, desc, hd, hhandle⟩) desc hd)
  | closeDereference d =>
    cases hstep
    exact h.dereference hi ⟨fun e he => ⟨rfl, hother d e he, rfl⟩, rfl, decide_eq_true rfl⟩
      ⟨fun e he => ⟨rfl, rfl, hother d e he⟩, rfl, rfl⟩
  | closeDescriptor d =>
    cases hstep
    simp only [Guarded, hi] at hguard
    exact h.close hi hguard.1 hguard.2.1
  | done => cases hstep

theorem Inv.step {act : Act} (h : Inv s) (hnull : .ioDereference none ∉ s.threads)
    (hresult : Returns s) (hstep : GuardedStep s act s') : Inv s' := by
  obtain ⟨hguard, hstep⟩ := hstep
  cases act with
  | create =>
    cases hstep
    exact h.start fun e => ⟨rfl, rfl, rfl⟩
  | io io handle =>
    cases hstep
    refine h.start fun e => ?_
    split
    · exact ⟨rfl, rfl, rfl⟩
    · exact ⟨rfl, rfl, rfl⟩
  | close handle =>
    cases hstep
    refine h.start fun e => ?_
    split
    · exact ⟨rfl, rfl, rfl⟩
    · exact ⟨rfl, rfl, rfl⟩
  | step i =>
    obtain ⟨pc, hi, hpc⟩ := Option.bind_eq_some_iff.mp hstep
    exact h.stepOf hnull hresult hi hguard hpc

theorem Inv.kept (h : Inv s) : Kept s where
  fault := h.fault
  once := h.once
  unused := by
    intro d hd
    rw [h.once.2.1] at hd
    obtain ⟨desc, hdesc⟩ := h.exists_desc fun hno => hno.2.2.2.2 hd
    rcases h.place d desc hdesc with hlive | hgone
    · exact absurd hd hlive.closed
    · refine ⟨_, hdesc, hgone.stat, ?_⟩
      rw [h.refcnt d _ hdesc, hgone.place.2.1]
      rfl
  gone := by
    intro d hd
    have hlist : d ∉ s.list := by
      intro hmem
      obtain ⟨desc, -, hlive, -⟩ := h.live_of_mem hmem
      rw [h.once.2.1] at hd
      exact hlive.closed hd
    refine ⟨hlist, ?_⟩
    rintro x hx rfl
    exact hlist ((h.index x).mp hx).1
  there := by
    intro d desc hd hqueue hfreed
    rw [h.once.2.1] at hfreed
    rcases h.place d desc hd with hlive | hgone
    · obtain ⟨hone, -⟩ | ⟨-, hmem⟩ := hlive.place
      · obtain ⟨pc, hpc, hqueues⟩ :=
          List.countP_pos_iff.mp (Nat.lt_of_lt_of_eq Nat.one_pos hone.symm)
        cases pc with
        | queue e =>
          cases of_decide_eq_true hqueues
          exact absurd hpc hqueue
        | _ => cases hqueues
      · exact ⟨List.count_eq_one_of_mem h.nodup hmem,
          (h.index (desc.handle, d)).mpr ⟨hmem, desc, hd, rfl⟩⟩
    · exact absurd hgone.closed hfreed
  unknown := by
    intro handle hno
    rcases h.reference_cases handle with ⟨heq, -⟩ | ⟨d, desc, hmem, hd, hhandle, -⟩
    · exact heq
    · exact absurd hhandle (hno d hmem desc hd)

end Steps

/-! ## The runs -/

/-- **The descriptors are kept** in every run in which a read or a write finds its descriptor, a
descriptor is closed when nobody else is at it, and the handles do not run out. -/
theorem descriptors_kept {acts : List Act} {s : State}
    (hrun : Run GuardedStep init acts s) : Kept s :=
  (hrun.invariant (P := fun s => Inv s ∧ .ioDereference none ∉ s.threads ∧ Returns s)
    (fun _ _ _ ⟨hinv, hnull, hresult⟩ hs =>
      ⟨hinv.step hnull hresult hs, nonNull_step hnull hs, hinv.returns_step hresult hs⟩)
    ⟨inv_init, fun hc => (by cases hc), fun d hc => by cases hc⟩).1.kept

instance (s : State) (handle : Int) : Decidable (Counts s handle) :=
  decidable_of_iff
    ((searchDescriptor s handle).all fun d => s.descs[d]?.all (·.refcnt < 2 ^ 31 - 1)) (by
      cases hsearch : searchDescriptor s handle with
      | none => simp [Counts, hsearch]
      | some d => cases hd : s.descs[d]? <;> simp [Counts, hsearch, hd])

/-- A handle is made, written to and closed. -/
theorem descriptors_kept_one :
    ∃ s, Run GuardedStep init [.create, .step 0, .step 0, .step 0, .io .writeEntry 1,
      .step 1, .step 1, .step 1, .close 1, .step 2, .step 2, .step 2] s ∧ s.freed = [0] ∧
      s.list = [] ∧ Kept s := by
  have hhandle : (0 : Int) < 2 ^ 31 - 1 := by decide
  have hrun : ∃ s, Run GuardedStep init [.create, .step 0, .step 0, .step 0, .io .writeEntry 1,
      .step 1, .step 1, .step 1, .close 1, .step 2, .step 2, .step 2] s ∧ s.freed = [0] ∧
      s.list = [] :=
    ⟨_, .cons ⟨trivial, rfl⟩ (.cons ⟨hhandle, rfl⟩ (.cons ⟨trivial, rfl⟩ (.cons ⟨trivial, rfl⟩
      (.cons ⟨trivial, rfl⟩ (.cons ⟨⟨.inr fun hc => (by cases hc), by decide⟩, rfl⟩
      (.cons ⟨trivial, rfl⟩ (.cons ⟨trivial, rfl⟩ (.cons ⟨trivial, rfl⟩
      (.cons ⟨show Counts _ 1 by decide, rfl⟩ (.cons ⟨trivial, rfl⟩
      (.cons ⟨⟨fun desc hd => by cases hd; rfl, by decide, by decide⟩,
        rfl⟩ (.nil _)))))))))))), rfl, rfl⟩
  obtain ⟨s, hrun, hfreed, hlist⟩ := hrun
  exact ⟨s, hrun, hfreed, hlist, descriptors_kept hrun⟩

/-- A write to a handle that does not exist uses `NULL`; a descriptor that is closed during a write
is in the list and in the tree after it was freed; the second of two calls that close a handle uses
the descriptor that the first one has freed; and so does a call that makes a handle which is closed
before it has returned. -/
theorem descriptors_not_kept :
    (∃ s, Run (fun s a s' => step s a = some s') init [.io .writeEntry 5, .step 0, .step 0] s ∧
      s.fault = true ∧ ¬Kept s) ∧
    (∃ s, Run (fun s a s' => step s a = some s') init [.create, .step 0, .step 0, .step 0,
        .io .writeEntry 1, .step 1, .close 1, .step 2, .step 2, .step 2, .step 1, .step 1] s ∧
      s.freed = [0] ∧ 0 ∈ s.list ∧ (1, 0) ∈ toList s.index ∧ ¬Kept s) ∧
    (∃ s, Run (fun s a s' => step s a = some s') init [.create, .step 0, .step 0, .step 0, .close 1,
        .close 1, .step 1, .step 2, .step 1, .step 2, .step 1, .step 2] s ∧
      s.fault = true ∧ ¬Kept s) ∧
    ∃ s, Run (fun s a s' => step s a = some s') init [.create, .step 0, .step 0, .close 1, .step 1,
        .step 1, .step 1, .step 0] s ∧ s.fault = true ∧ ¬Kept s := by
  refine ⟨⟨_, .cons rfl (.cons rfl (.cons rfl (.nil _))), rfl, fun hkept => ?_⟩,
    ⟨_, .cons rfl (.cons rfl (.cons rfl (.cons rfl
    (.cons rfl (.cons rfl (.cons rfl (.cons rfl (.cons rfl (.cons rfl
      (.cons rfl (.cons rfl (.nil _)))))))))))), rfl, List.mem_cons_self, List.mem_cons_self,
      fun hkept => ?_⟩,
    ⟨_, .cons rfl (.cons rfl (.cons rfl (.cons rfl
    (.cons rfl (.cons rfl (.cons rfl (.cons rfl (.cons rfl (.cons rfl
      (.cons rfl (.cons rfl (.nil _)))))))))))), rfl, fun hkept => ?_⟩,
    ⟨_, .cons rfl (.cons rfl (.cons rfl (.cons rfl (.cons rfl (.cons rfl (.cons rfl (.cons rfl
      (.nil _)))))))), rfl, fun hkept => ?_⟩⟩
  · cases hkept.fault
  · exact (hkept.gone 0 List.mem_cons_self).1 List.mem_cons_self
  · cases hkept.fault
  · cases hkept.fault

end Descriptors

end Evfs

end LibNax
