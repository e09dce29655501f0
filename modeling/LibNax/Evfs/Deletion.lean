import LibNax.Evfs.Calls
import LibNax.Evfs.Names
import LibNax.Lib.Pool

/-!
# Deleting an entry that is in use

The calls of `entries.c` on one file system, made by any number of threads at once.  A call looks
for the head of its entry, then asks under the mutex of the head for a reference, and works with the
entry until it gives the reference back; between these steps other calls may do theirs.  An entry
that is deleted waits until the last reference is given back, and refuses every call until then.

Closing a handle asks for a reference like the others.  So a handle that is open when its entry is
deleted can not be closed any more, and the entry is never freed.

A call is a program counter, and a state has a list of them beside the managers.  `guarded` leaves
out the steps that go wrong: the check of a closing whose entry waits to be freed, the freeing of a
head that another call has found and holds no reference to, a call that takes more clusters than are
idle, and a counter of references that runs over.  What is left is to be shown safe for every
interleaving, and this is an argument about counting.

The counter of an entry is a number that nobody owns.  The invariant gives it back to its owners:
each place of each program counter has a weight, which is the number of references that the call
still holds there, and the counter is the sum of the weights of all calls and of the open handles
(`Ledger`).  The same is done for the references for input and output, for the handles, and for the
calls that are about to free the head.  A step changes one program counter, and so one summand, and
`total_set` says by how much; with that a step is a matter of comparing the weight of the old place
with the weight of the new one, together with what the step does to the head.  All steps but the
freeing go through one lemma (`Inv.turn`), which asks for exactly these differences and leaves the
other entries alone.

That a head is freed once follows from the sums.  The call that brings the counter of a deleted entry
to zero goes on to the place `free`; all the weights of the entry are zero then but its own, so no
other call can be there, none holds a reference, and by the guard none has found the head without
one.  So nobody is left with the head when it goes (`Inv.before_free`), and its clusters are back
afterwards (`Inv.free`).  Until then the entry is in the list, and no step takes a cluster of it
(`Stays`), which gives the second half of the claim: before the last handle is closed nothing of the
entry is used for something else.

* `State`, `Act` and `act` — the calls.
* `guarded` — no handle is closed after its entry was deleted, and no call is between its search and
  its check when a head is freed.
* `Inv` — the number of references to an entry is the number of those that have one.
* `deletion_kept` — every run of guarded steps.
-/

set_option autoImplicit false

namespace LibNax

namespace Evfs

namespace Deletion

open Lib (Run int32)

/-! ## The calls -/

/-- What a call does with the entry that it looks for. -/
inductive Use where
  /-- `evfs_entries_open_one`, and the end of `evfs_entries_create_one`. -/
  | openOne
  /-- `evfs_entries_open_one_by_name`. -/
  | openOneByName
  /-- `evfs_entries_close_one`. -/
  | closeOne
  /-- `evfs_entries_read_data`. -/
  | readData (offset size : Int)
  /-- `evfs_entries_write_data`. -/
  | writeData (data : List UInt8) (offset size : Int)
  /-- `evfs_entries_hard_delete` and `evfs_entries_hard_delete_by_name`. -/
  | hardDelete

/-- The permission that is asked for. -/
def Use.permission : Use → EntryState
  | .openOne | .openOneByName | .closeOne => .opened
  | .readData .. | .writeData .. | .hardDelete => .normal

/-- Where a call stands. -/
inductive Pc where
  /-- `evfs_entries_create_one`, before the search for its key. -/
  | createSearch (key : List UInt8)
  /-- Before the entry is made. -/
  | create (key : Option (List UInt8))
  /-- Before the number of the new head is read. -/
  | enter (e : Int)
  /-- Before `__evfs_entries_search_head`. -/
  | search (id : Int) (use : Use)
  /-- `evfs_entries_open_one_by_name`, before `__evfs_entries_search_named_head`. -/
  | openSearch (key : List UInt8)
  /-- `evfs_entries_hard_delete_by_name`, before `__evfs_entries_search_named_head`. -/
  | deleteSearch (key : List UInt8)
  /-- Before `__evfs_entries_check_reference_condition`, with the head that was found. -/
  | check (e : Int) (use : Use)
  /-- `evfs_entries_open_one_by_name`, before the number of the head is read. -/
  | returnId (e : Int)
  /-- Before the bytes are read. -/
  | read (e offset size : Int)
  /-- Before the bytes are written. -/
  | write (e : Int) (data : List UInt8) (offset size : Int)
  /-- Before `hard_remove_on_detach` is set. -/
  | mark (e : Int)
  /-- Before `__evfs_entries_try_delete_head`. -/
  | tryDelete (e : Int)
  /-- Before `__evfs_entries_dereference_head`, which is called `n` times more after that. -/
  | dereference (e : Int) (io : Bool) (n : Nat)
  /-- In `__evfs_entries_dereference_head`, before `__evfs_entries_free_head`. -/
  | free (e : Int) (io : Bool) (n : Nat)
  /-- The head that the call has in hand was freed. -/
  | dangling
  /-- Returned. -/
  | done

/-- The head that a call has in hand. -/
def Pc.head : Pc → Option Int
  | .enter e | .check e _ | .returnId e | .read e _ _ | .write e _ _ _ | .mark e | .tryDelete e
  | .dereference e _ _ | .free e _ _ => some e
  | _ => none

/-- The file system and the calls.  `handles` counts the handles that are open and that no call is
about to close.  `fault` is set where a freed head is used or an assertion fails. -/
structure State where
  fs : Fs
  calls : List Pc
  handles : Int → Nat
  fault : Bool

/-- A new call, or the next step of a call. -/
inductive Act where
  | createOne (key : Option (List UInt8))
  | openOne (entryId : Int)
  | openOneByName (key : List UInt8)
  | closeOne (entryId : Int)
  | readData (entryId offset size : Int)
  | writeData (entryId : Int) (data : List UInt8) (offset size : Int)
  | hardDelete (entryId : Int)
  | hardDeleteByName (key : List UInt8)
  | step (i : Nat)

namespace State

/-- A new call. -/
def start (s : State) (pc : Pc) : State := { s with calls := s.calls ++ [pc] }

/-- The call moves. -/
def move (s : State) (i : Nat) (pc : Pc) : State := { s with calls := s.calls.set i pc }

/-- The call moves, and the file system changes. -/
def turn (s : State) (i : Nat) (pc : Pc) (fs : Fs) : State := { s.move i pc with fs }

/-- A handle is returned. -/
def opened (s : State) (i : Nat) (e : Int) : State :=
  { s.move i .done with handles := Function.update s.handles e (s.handles e + 1) }

/-- A handle is about to be closed. -/
def closing (s : State) (e : Int) : State :=
  { s.start (.search e .closeOne) with handles := Function.update s.handles e (s.handles e - 1) }

end State

/-- The head, if it was found. -/
def Pc.found (use : Use) : Option Int → Pc
  | none => .done
  | some e => .check e use

/-- The dereferences that are left. -/
def Pc.rest (e : Int) (io : Bool) : Nat → Pc
  | 0 => .done
  | n + 1 => .dereference e io n

/-- The head in hand was freed. -/
def Pc.strand (e : Int) (pc : Pc) : Pc := if pc.head = some e then .dangling else pc

/-- A reference was given to a call. -/
def granted (s : State) (i : Nat) (e : Int) : Use → State
  | .openOne => s.opened i e
  | .openOneByName => s.move i (.returnId e)
  | .closeOne => s.move i (.dereference e false 1)
  | .readData offset size => s.move i (.read e offset size)
  | .writeData data offset size => s.move i (.write e data offset size)
  | .hardDelete => s.move i (.mark e)

/-- The part of `__evfs_entries_dereference_head` under the mutex: whether the head is to be
freed. -/
def dropReference (s : Fs) (e : Int) (permission : EntryState) : Option (Bool × Fs) :=
  let head := s.heads e
  if head.refcnt ≤ 0 ∨ (permission = .normal ∧ head.ioRefcnt ≤ 0) then none
  else
    let s := s.setHead e { head with
      refcnt := head.refcnt - 1
      ioRefcnt := if permission = .normal then head.ioRefcnt - 1 else head.ioRefcnt
      state := if permission = .busy ∧ head.state = .busy then .normal else head.state }
    some (decide ((s.heads e).refcnt = 0 ∧ (s.heads e).state = .closeWait), s)

/-- The dereference of a call that runs alone. -/
theorem dereferenceHead_eq (s : Fs) (e : Int) (permission : EntryState) :
    dereferenceHead s e permission =
      (dropReference s e permission).map fun r => if r.1 then freeHead r.2 e else r.2 := by
  rw [dereferenceHead, dropReference]
  simp only
  split
  · rfl
  · rw [Option.map_some]
    simp only [decide_eq_true_eq]
    exact (apply_ite some _ _ _).symm

/-- The permission of a dereference. -/
def permissionOf (io : Bool) : EntryState := if io then .normal else .opened

/-- The next step of a call.  There is none where the key does not fit in the buffer on the stack,
or the buffer of the caller is too short. -/
def stepOf (s : State) (i : Nat) : Pc → Option State
  | .createSearch key => (searchNamedHead s.fs key).map fun found =>
    s.move i (if found.isSome then .done else .create (some key))
  | .create key =>
    let r := insertNew s.fs key
    some (s.turn i (if nspSuccess r.1 then .enter r.2.1 else .done) r.2.2)
  | .enter e => some (s.move i (.search e .openOne))
  | .search id use => some (s.move i (.found use (searchHead s.fs id)))
  | .openSearch key => (searchNamedHead s.fs key).map fun found =>
    s.move i (.found .openOneByName found)
  | .deleteSearch key => (searchNamedHead s.fs key).map fun found =>
    s.move i (.found .hardDelete found)
  | .check e use =>
    let r := checkReferenceCondition s.fs e use.permission
    some (if nspSuccess r.1 then granted { s with fs := r.2 } i e use else s.turn i .done r.2)
  | .returnId e => some (s.opened i e)
  | .read e offset size => some (s.turn i (.dereference e true 0)
      (readBytes s.fs e (int32 (maxEntryNameLength + offset)) size).2.2)
  | .write e data offset size => (writeBody s.fs e data offset size).map fun r =>
    s.turn i (.dereference e true 0) r.2
  | .mark e => some (s.turn i (.tryDelete e)
      (s.fs.setHead e { s.fs.heads e with hardRemoveOnDetach := true }))
  | .tryDelete e => some (s.turn i (.dereference e true 0) (tryDeleteHead s.fs e .normal))
  | .dereference e io n =>
    match dropReference s.fs e (permissionOf io) with
    | none => some { s.move i .done with fault := true }
    | some r => some (s.turn i (if r.1 then .free e io n else .rest e io n) r.2)
  | .free e io n => some { s.turn i (.rest e io n) (freeHead s.fs e) with
      calls := (s.calls.set i (.rest e io n)).map (.strand e) }
  | .dangling => some { s.move i .done with fault := true }
  | .done => none

/-- A step.  A handle is closed that is open. -/
def act (s : State) : Act → Option State
  | .createOne none => some (s.start (.create none))
  | .createOne (some key) => some (s.start (.createSearch key))
  | .openOne entryId => some (s.start (.search entryId .openOne))
  | .openOneByName key => some (s.start (.openSearch key))
  | .closeOne entryId => if 0 < s.handles entryId then some (s.closing entryId) else none
  | .readData entryId offset size => some (s.start
      (if entryId < 0 ∨ offset < 0 ∨ size ≤ 0 then .done
        else .search entryId (.readData offset size)))
  | .writeData entryId data offset size => some (s.start
      (if entryId ≤ 0 ∨ size ≤ 0 then .done else .search entryId (.writeData data offset size)))
  | .hardDelete entryId => some (s.start (.search entryId .hardDelete))
  | .hardDeleteByName key => some (s.start (.deleteSearch key))
  | .step i => s.calls[i]?.bind (stepOf s i)

/-- No call has been made. -/
def init (fs : Fs) : State := ⟨fs, [], fun _ => 0, false⟩

/-! ## What may go wrong -/

/-- The call is about to close a handle of the entry, or to return one. -/
def Pc.handles (e : Int) : Pc → Bool
  | .search id .closeOne => id = e
  | .check e' .closeOne => e' = e
  | .returnId e' => e' = e
  | _ => false

/-- The call has the head in hand and no reference to it. -/
def Pc.seeks (e : Int) : Pc → Bool
  | .enter e' => e' = e
  | .check e' _ => e' = e
  | _ => false

/-- The check of a call that closes a handle comes before its entry is deleted, no entry is given
more references than its counters hold, a call takes no more clusters than are idle, and a head is
freed when no call is between its search and its check. -/
def guarded (s : State) : Act → Bool
  | .step i => match s.calls[i]? with
    | some (.create _) => decide (s.fs.vol.idle ≠ [])
    | some (.check e .closeOne) =>
      decide ((s.fs.heads e).state ≠ .closeWait ∧ (s.fs.heads e).Room)
    | some (.check e _) => decide (s.fs.heads e).Room
    | some (.write e _ offset size) =>
      decide (s.fs.clustersToWrite e offset size ≤ s.fs.vol.idle.length)
    | some (.free e _ _) => s.calls.all fun pc => !pc.seeks e
    | _ => true
  | _ => true

/-- A step in which nothing goes wrong. -/
def GuardedStep (s : State) (a : Act) (s' : State) : Prop := guarded s a = true ∧ act s a = some s'

/-- The entry was deleted, and is not freed yet. -/
def State.Deleted (s : State) (e : Int) : Prop :=
  e ∈ s.fs.entries ∧ (s.fs.heads e).state = .closeWait

/-- The entry is gone: it is in neither index, its clusters are idle, and another one with its key
can be made. -/
structure Gone (s s' : Fs) (e : Int) : Prop where
  list : e ∉ s'.entries
  index : e ∉ Avl.toList s'.rootOfEntriesTree
  named : ∀ leaf ∈ Avl.toList s'.rootOfNamedEntriesTree, leaf.head ≠ e
  idle : ∀ v ∈ s.chain e, v ∈ s'.vol.idle
  again : ∀ key, Fits key → nameOf key = s.name e → searchNamedHead s' key = some none ∧
    ∃ v s'', insertNew s' (some key) = (0, v, s'') ∧ s''.Defined

/-- What is asked of the entries that were deleted. -/
structure Kept (s : State) : Prop where
  /-- A deletion that got its reference succeeds. -/
  deletes : ∀ i e, s.calls[i]? = some (.tryDelete e) → ∀ s', GuardedStep s (.step i) s' →
    s'.Deleted e
  /-- No call uses a head that was freed, and what the calls do is defined. -/
  fault : s.fault = false ∧ s.fs.Defined
  /-- No call gets a reference to it. -/
  refuses : ∀ e, s.Deleted e → ∀ permission, permission = .normal ∨ permission = .opened →
    checkReferenceCondition s.fs e permission = (eAcces, s.fs)
  /-- A handle of it is open, or a call still has it in use. -/
  inUse : ∀ e, s.Deleted e → 0 < s.handles e ∨
    ∃ pc ∈ s.calls, pc.handles e = true ∨ pc.head = some e ∧ pc.seeks e = false
  /-- Its clusters are busy, and no other entry has them. -/
  owned : ∀ e, s.Deleted e → ∀ v ∈ s.fs.chain e, v ∈ s.fs.vol.busy ∧ v ∉ s.fs.vol.idle ∧
    ∀ e' ∈ s.fs.entries, v ∈ s.fs.chain e' → e' = e
  /-- It stays as it is, with its clusters, until a step frees it. -/
  later : ∀ e, s.Deleted e → ∀ acts s', Run GuardedStep s acts s' →
    (s'.Deleted e ∧ s.fs.chain e <+: s'.fs.chain e) ∨
      ∃ before a after t t', acts = before ++ a :: after ∧ Run GuardedStep s before t ∧
        s.fs.chain e <+: t.fs.chain e ∧ GuardedStep t a t' ∧ Gone t.fs t'.fs e ∧
        Run GuardedStep t' after s'

/-! ## The invariant -/

/-- What is counted of the calls: those that have to do with a handle, their references and those
for input and output, and who is about to free the head or to delete the entry. -/
inductive Kind where
  | handle
  | refs
  | ios
  | frees
  | deletes

/-- The entry that a call is about. -/
def Pc.entry : Pc → Option Int
  | .search id .closeOne => some id
  | pc => pc.head

/-- What a call adds to a count. -/
def Pc.weight : Kind → Pc → Nat
  | .handle, .search _ .closeOne | .handle, .check _ .closeOne | .handle, .returnId _ => 1
  | .refs, .read .. | .refs, .write .. | .refs, .mark _ | .refs, .tryDelete _ => 1
  | .refs, .dereference _ _ n => n + 1
  | .refs, .free _ _ n => n
  | .ios, .read .. | .ios, .write .. | .ios, .mark _ | .ios, .tryDelete _ => 1
  | .ios, .dereference _ true n => n + 1
  | .ios, .free _ true n => n
  | .frees, .free .. => 1
  | .deletes, .tryDelete _ => 1
  | _, _ => 0

/-- What a call adds to a count of the entry. -/
def Pc.tally (kind : Kind) (e : Int) (pc : Pc) : Nat :=
  if pc.entry = some e then pc.weight kind else 0

/-- A count of the entry. -/
def State.total (s : State) (kind : Kind) (e : Int) : Nat := (s.calls.map (Pc.tally kind e)).sum

/-- The counters of an entry, and its state. -/
structure Ledger (s : State) (e : Int) : Prop where
  refcnt : (s.fs.heads e).refcnt = s.handles e + s.total .handle e + s.total .refs e
  ioRefcnt : (s.fs.heads e).ioRefcnt = s.total .ios e
  state : (s.fs.heads e).state = .normal ∨ (s.fs.heads e).state = .closeWait
  /-- A deleted entry gives its clusters back. -/
  hard : (s.fs.heads e).state = .closeWait → (s.fs.heads e).hardRemoveOnDetach = true
  /-- One call is about to free it when the last reference was given back, and none before. -/
  frees : s.total .frees e =
    if (s.fs.heads e).state = .closeWait ∧ (s.fs.heads e).refcnt = 0 then 1 else 0
  deletes : 0 < s.total .deletes e → (s.fs.heads e).hardRemoveOnDetach = true

/-- The invariant. -/
structure Inv (s : State) : Prop where
  fault : s.fault = false
  dangling : .dangling ∉ s.calls
  space : Space s.fs.eased []
  steady : s.fs.Steady
  index : Indexed s.fs
  ledger : ∀ e ∈ s.fs.entries, Ledger s e
  /-- The heads in hand are there. -/
  head : ∀ pc ∈ s.calls, ∀ e, pc.head = some e → e ∈ s.fs.entries
  /-- What is not there has no handle. -/
  handle : ∀ e, e ∉ s.fs.entries → s.handles e = 0 ∧ s.total .handle e = 0

variable {s s' : State} {i : Nat} {pc pc' : Pc} {e : Int} {fs' : Fs} {handles' : Int → Nat}

theorem tally_of_ne (h : pc.entry ≠ some e) (kind : Kind) : pc.tally kind e = 0 := if_neg h

theorem tally_self (h : pc.entry = some e) (kind : Kind) : pc.tally kind e = pc.weight kind :=
    if_pos h

/-- The counts after a call has moved. -/
theorem total_set (hi : s.calls[i]? = some pc) (hcalls : s'.calls = s.calls.set i pc') (kind : Kind)
    (e : Int) : s'.total kind e + pc.tally kind e = s.total kind e + pc'.tally kind e := by
  rw [State.total, hcalls]
  exact Lib.sum_map_set hi (Pc.tally kind e) pc'

theorem total_eq_zero {kind : Kind} : s.total kind e = 0 ↔ ∀ pc ∈ s.calls, pc.tally kind e = 0 := by
  rw [State.total, List.sum_eq_zero_iff_forall_eq_nat, List.forall_mem_map]

theorem le_total (hi : s.calls[i]? = some pc) (kind : Kind) (e : Int) :
    pc.tally kind e ≤ s.total kind e := by
  have hset := Lib.sum_map_set hi (Pc.tally kind e) .done
  exact Nat.le_of_add_left_le (Nat.le_of_eq hset)

theorem weight_le_total (hi : s.calls[i]? = some pc) (h : pc.entry = some e) (kind : Kind) :
    pc.weight kind ≤ s.total kind e := tally_self h kind ▸ le_total hi kind e

/-- Nothing has happened to the entry. -/
theorem Ledger.same (h : Ledger s e) (hhead : SameCounts (s.fs.heads e) (s'.fs.heads e))
    (hhandles : s'.handles e = s.handles e) (htotal : ∀ kind, s'.total kind e = s.total kind e) :
    Ledger s' e := by
  constructor
  · rw [hhead.refcnt, hhandles, htotal, htotal]
    exact h.refcnt
  · rw [hhead.ioRefcnt, htotal]
    exact h.ioRefcnt
  · rw [hhead.state]
    exact h.state
  · rw [hhead.state, hhead.hard]
    exact h.hard
  · rw [hhead.state, hhead.refcnt, htotal]
    exact h.frees
  · rw [htotal, hhead.hard]
    exact h.deletes

/-- A call about the entry `e` moves, and the file system changes but for the other entries. -/
theorem Inv.turn (h : Inv s) (hi : s.calls[i]? = some pc) (e : Int)
    (hpc : ∀ x, pc.entry = some x → x = e) (hpc' : ∀ x, pc'.entry = some x → x = e)
    (hcalls : s'.calls = s.calls.set i pc') (hfault : s'.fault = s.fault)
    (hdangling : pc' ≠ .dangling) (hspace : Space s'.fs.eased []) (hsteady : s'.fs.Steady)
    (hindex : Indexed s'.fs) (hentries : s'.fs.entries = s.fs.entries)
    (hhead : ∀ x, pc'.head = some x → x ∈ s.fs.entries)
    (hheads : ∀ x ∈ s.fs.entries, x ≠ e → SameCounts (s.fs.heads x) (s'.fs.heads x))
    (hhandles : ∀ x, x ≠ e → s'.handles x = s.handles x)
    (hledger : e ∈ s.fs.entries → Ledger s' e)
    (hhandle : e ∉ s.fs.entries → s'.handles e = 0 ∧ s'.total .handle e = 0) : Inv s' := by
  have htotal : ∀ x, x ≠ e → ∀ kind, s'.total kind x = s.total kind x := by
    intro x hne kind
    have hset := total_set hi hcalls kind x
    rwa [tally_of_ne (fun hx => hne (hpc x hx)), tally_of_ne (fun hx => hne (hpc' x hx))] at hset
  have hmem : ∀ x ∈ s'.calls, x ∈ s.calls ∨ x = pc' := fun x hx => by
    rw [hcalls] at hx
    exact List.mem_or_eq_of_mem_set hx
  refine ⟨hfault.trans h.fault, fun hx => ?_, hspace, hsteady, hindex, fun x hx => ?_,
    fun q hq x hx => ?_, fun x hx => ?_⟩
  · exact (hmem _ hx).elim h.dangling fun heq => hdangling heq.symm
  · rw [hentries] at hx
    by_cases hne : x = e
    · exact hne ▸ hledger (hne ▸ hx)
    · exact (h.ledger x hx).same (hheads x hx hne) (hhandles x hne) (htotal x hne)
  · rw [hentries]
    rcases hmem q hq with hq | rfl
    · exact h.head q hq x hx
    · exact hhead x hx
  · rw [hentries] at hx
    by_cases hne : x = e
    · exact hne ▸ hhandle (hne ▸ hx)
    · rw [hhandles x hne, htotal x hne]
      exact h.handle x hx

/-- A call moves, and counts for the same. -/
theorem Inv.move (h : Inv s) (hi : s.calls[i]? = some pc) (hdangling : pc' ≠ .dangling)
    (htally : ∀ kind e, pc'.tally kind e = pc.tally kind e)
    (hhead : ∀ x, pc'.head = some x → x ∈ s.fs.entries) : Inv (s.move i pc') := by
  have htotal : ∀ kind x, (s.move i pc').total kind x = s.total kind x := fun kind x => by
    have hset := total_set hi (show (s.move i pc').calls = _ from rfl) kind x
    rw [htally] at hset
    exact Nat.add_right_cancel hset
  have hmem : ∀ x ∈ (s.move i pc').calls, x ∈ s.calls ∨ x = pc' := fun x hx =>
    List.mem_or_eq_of_mem_set hx
  refine ⟨h.fault, fun hx => ?_, h.space, h.steady, h.index, fun x hx => ?_, fun q hq x hx => ?_,
    fun x hx => ?_⟩
  · exact (hmem _ hx).elim h.dangling fun heq => hdangling heq.symm
  · exact (h.ledger x hx).same (.refl _) rfl fun kind => htotal kind x
  · rcases hmem q hq with hq | rfl
    · exact h.head q hq x hx
    · exact hhead x hx
  · rw [htotal]
    exact h.handle x hx

theorem tally_eq_zero (h : ∀ kind, pc.weight kind = 0) (kind : Kind) (e : Int) :
    pc.tally kind e = 0 := by
  rw [Pc.tally, h, ite_self]

/-- The calls that count for nothing. -/
theorem weight_done (kind : Kind) : Pc.done.weight kind = 0 := by cases kind <;> rfl

theorem weight_check {use : Use} (huse : use ≠ .closeOne) (e : Int) (kind : Kind) :
    (Pc.check e use).weight kind = 0 := by
  cases use with
  | closeOne => exact absurd rfl huse
  | _ => cases kind <;> rfl

theorem weight_search {use : Use} (huse : use ≠ .closeOne) (id : Int) (kind : Kind) :
    (Pc.search id use).weight kind = 0 := by
  cases use with
  | closeOne => exact absurd rfl huse
  | _ => cases kind <;> rfl

theorem searchHead_eq (h : Inv s) (id : Int) :
    searchHead s.fs id = if id ∈ s.fs.entries then some id else none :=
  Evfs.searchHead_eq h.space id

theorem tally_handle (pc : Pc) (e : Int) : pc.tally .handle e = if pc.handles e then 1 else 0 := by
  cases pc with
  | search id use =>
    cases use <;> simp [Pc.tally, Pc.entry, Pc.head, Pc.weight, Pc.handles]
  | check e' use =>
    cases use <;> simp [Pc.tally, Pc.entry, Pc.head, Pc.weight, Pc.handles]
  | _ => simp [Pc.tally, Pc.entry, Pc.head, Pc.weight, Pc.handles]

/-! ## Searching -/

/-- A head was found, or none, by a call that closes no handle. -/
theorem Inv.found (h : Inv s) (hi : s.calls[i]? = some pc) (hpc : ∀ kind, pc.weight kind = 0)
    {use : Use} (huse : use ≠ .closeOne) {found : Option Int}
    (hfound : ∀ e, found = some e → e ∈ s.fs.entries) : Inv (s.move i (.found use found)) := by
  cases found with
  | none =>
    refine h.move hi (by rintro ⟨⟩) (fun kind e => ?_) fun x hx => by cases hx
    rw [Pc.found, tally_eq_zero weight_done, tally_eq_zero hpc]
  | some e =>
    refine h.move hi (by rintro ⟨⟩) (fun kind e => ?_) fun x hx => ?_
    · rw [Pc.found, tally_eq_zero (weight_check huse _), tally_eq_zero hpc]
    · cases hx
      exact hfound e rfl

theorem Inv.search (h : Inv s) {id : Int} {use : Use} (hi : s.calls[i]? = some (.search id use)) :
    Inv (s.move i (.found use (searchHead s.fs id))) := by
  rw [searchHead_eq h]
  by_cases huse : use = .closeOne
  · subst huse
    by_cases hmem : id ∈ s.fs.entries
    · rw [if_pos hmem]
      refine h.move hi (by rintro ⟨⟩) (fun kind e => ?_) fun x hx => ?_
      · cases kind <;> rfl
      · cases hx
        exact hmem
    · -- the handle that is closed is one of an entry
      have hle := le_total hi .handle id
      rw [tally_self rfl, (h.handle id hmem).2] at hle
      exact absurd hle (Nat.not_succ_le_zero 0)
  · refine h.found hi (weight_search huse id) huse fun e he => ?_
    split at he
    · cases he
      assumption
    · cases he

theorem Inv.searchNamed (h : Inv s) (hi : s.calls[i]? = some pc) (hpc : ∀ kind, pc.weight kind = 0)
    {use : Use} (huse : use ≠ .closeOne) {key : List UInt8} {found : Option Int}
    (hsearch : searchNamedHead s.fs key = some found) : Inv (s.move i (.found use found)) :=
  h.found hi hpc huse fun _ he => (h.index.of_search (he ▸ hsearch)).2.1

/-! ## References -/

theorem entry_of_head {x : Int} (h : pc.head = some x) : pc.entry = some x := by
  cases pc with
  | search id use => cases h
  | _ => exact h

/-- Only the counters, the state and the mark of a head have changed. -/
theorem Inv.space_setHead (h : Inv s) {head : Head}
    (helements : head.elements = (s.fs.heads e).elements)
    (hcount : head.countOfElements = (s.fs.heads e).countOfElements)
    (hkey : head.key = (s.fs.heads e).key) (hrefcnt : 0 ≤ head.refcnt) (hio : 0 ≤ head.ioRefcnt) :
    Space (s.fs.setHead e head).eased [] ∧ Indexed (s.fs.setHead e head) := by
  constructor
  · rw [eased_setHead]
    refine h.space.setHead (fun _ => helements) fun he => ?_
    have hok := h.space.entry e he
    exact { linked := helements ▸ hok.linked, headId := helements ▸ hok.headId
            headSize := hok.headSize, elementSize := helements ▸ hok.elementSize
            count := hcount.trans (hok.count.trans
              (congrArg (fun l : List Int => (l.length : Int)) helements.symm))
            state := rfl, keeps := rfl, refcnt := hrefcnt, ioRefcnt := hio, key := hkey ▸ hok.key }
  · refine h.index.same ⟨rfl, rfl, fun x _ => ?_⟩
    by_cases hx : x = e
    · rw [hx, setHead_heads_self, hkey]
    · rw [setHead_heads_ne _ hx]

/-- A call that has the head `e` in hand, or a handle of it, changes its counters and its state. -/
theorem Inv.setHead (h : Inv s) (hi : s.calls[i]? = some pc) (he : e ∈ s.fs.entries)
    (hpc : pc.entry = some e) (hpc' : pc'.entry = some e ∨ pc' = .done) {head : Head}
    (hs' : s' = ⟨s.fs.setHead e head, s.calls.set i pc', handles', s.fault⟩)
    (helements : head.elements = (s.fs.heads e).elements)
    (hcount : head.countOfElements = (s.fs.heads e).countOfElements)
    (hkey : head.key = (s.fs.heads e).key) (hrefcnt : 0 ≤ head.refcnt) (hio : 0 ≤ head.ioRefcnt)
    (hhandles : ∀ x, x ≠ e → handles' x = s.handles x)
    (hledger : s'.fs.heads e = head →
      (∀ kind, s'.total kind e + pc.weight kind = s.total kind e + pc'.weight kind) → Ledger s' e) :
    Inv s' := by
  obtain ⟨hspace, hindex⟩ := h.space_setHead helements hcount hkey hrefcnt hio
  have hcalls : s'.calls = s.calls.set i pc' := by rw [hs']
  have htally : ∀ kind, pc'.tally kind e = pc'.weight kind := fun kind => by
    rcases hpc' with hpc' | rfl
    · exact tally_self hpc' kind
    · rw [tally_eq_zero weight_done, weight_done]
  have hentry : ∀ x, pc'.entry = some x → x = e := fun x hx => by
    rcases hpc' with hpc' | rfl
    · exact Option.some.inj (hx.symm.trans hpc')
    · cases hx
  refine h.turn hi e (fun x hx => Option.some.inj (hx.symm.trans hpc)) hentry hcalls
    (by rw [hs']) ?_ (by rw [hs']; exact hspace) (by rw [hs']; exact h.steady.congr rfl rfl)
    (by rw [hs']; exact hindex) (by rw [hs']; rfl)
    (fun x hx => hentry x (entry_of_head hx) ▸ he) (fun x _ hne => ?_) (fun x hne => ?_)
    (fun _ => hledger ?_ fun kind => ?_) fun hno => absurd he hno
  · rintro rfl
    rcases hpc' with hpc' | hpc'
    · cases hpc'
    · cases hpc'
  · rw [hs']
    show SameCounts _ ((s.fs.setHead e head).heads x)
    rw [setHead_heads_ne _ hne]
    exact .refl _
  · rw [hs']
    exact hhandles x hne
  · rw [hs']
    exact setHead_heads_self _ _ _
  · have hset := total_set hi hcalls kind e
    rwa [tally_self hpc, htally] at hset

/-- The references for input and output that are asked for. -/
def Use.io (use : Use) : Nat := if use.permission = .normal then 1 else 0

theorem check_of_normal (hstate : (s.fs.heads e).state = .normal) (h₁ : 0 ≤ (s.fs.heads e).refcnt)
    (h₂ : 0 ≤ (s.fs.heads e).ioRefcnt) (hroom : (s.fs.heads e).Room) (use : Use) :
    checkReferenceCondition s.fs e use.permission = (0, s.fs.setHead e { s.fs.heads e with
      refcnt := (s.fs.heads e).refcnt + 1
      ioRefcnt := (s.fs.heads e).ioRefcnt + use.io }) := by
  have hno := not_not_intro hstate
  have hrefcnt := int32_succ h₁ hroom.1
  have hnormal : checkReferenceCondition s.fs e .normal = (0, s.fs.setHead e { s.fs.heads e with
      refcnt := (s.fs.heads e).refcnt + 1, ioRefcnt := (s.fs.heads e).ioRefcnt + 1 }) := by
    rw [← hrefcnt, ← int32_succ h₂ hroom.2]
    exact if_neg hno
  have hopened : checkReferenceCondition s.fs e .opened = (0, s.fs.setHead e { s.fs.heads e with
      refcnt := (s.fs.heads e).refcnt + 1, ioRefcnt := (s.fs.heads e).ioRefcnt + (0 : Nat) }) := by
    rw [← hrefcnt, Int.natCast_zero, Int.add_zero]
    exact if_neg hno
  cases use with
  | readData offset size => exact hnormal
  | writeData data offset size => exact hnormal
  | hardDelete => exact hnormal
  | _ => exact hopened

theorem check_of_closeWait (hstate : (s.fs.heads e).state = .closeWait) {permission : EntryState}
    (hpermission : permission = .normal ∨ permission = .opened) :
    checkReferenceCondition s.fs e permission = (eAcces, s.fs) := by
  have hne : (s.fs.heads e).state ≠ .normal := by
    rw [hstate]
    decide
  rcases hpermission with rfl | rfl
  · exact if_pos hne
  · exact if_pos hne

/-- The ledger of an entry that is not deleted. -/
theorem ledger_of_normal (hstate : (s.fs.heads e).state = .normal)
    (hrefcnt : (s.fs.heads e).refcnt = s.handles e + s.total .handle e + s.total .refs e)
    (hio : (s.fs.heads e).ioRefcnt = s.total .ios e) (hfrees : s.total .frees e = 0)
    (hdeletes : 0 < s.total .deletes e → (s.fs.heads e).hardRemoveOnDetach = true) :
    Ledger s e where
  refcnt := hrefcnt
  ioRefcnt := hio
  state := .inl hstate
  hard := fun hc => by
    rw [hstate] at hc
    cases hc
  frees := by
    rw [hfrees, hstate, if_neg]
    rintro ⟨⟨⟩, -⟩
  deletes := hdeletes

theorem Ledger.frees_of_normal (h : Ledger s e) (hstate : (s.fs.heads e).state = .normal) :
    s.total .frees e = 0 := by
  rw [h.frees, hstate, if_neg]
  rintro ⟨⟨⟩, -⟩

theorem Ledger.nonneg (h : Ledger s e) :
    0 ≤ (s.fs.heads e).refcnt ∧ 0 ≤ (s.fs.heads e).ioRefcnt := by
  have hrefcnt := h.refcnt
  have hio := h.ioRefcnt
  omega

/-- What is asked of a check. -/
theorem room_of_guarded {use : Use} (hi : s.calls[i]? = some (.check e use))
    (hguard : guarded s (.step i) = true) :
    (use = .closeOne → (s.fs.heads e).state ≠ .closeWait) ∧ (s.fs.heads e).Room := by
  rw [guarded, hi] at hguard
  cases use with
  | closeOne => exact (of_decide_eq_true hguard).imp_left fun hne _ => hne
  | _ => exact ⟨fun huse => (by cases huse), of_decide_eq_true hguard⟩

/-- A reference was given to a call. -/
theorem Inv.grant (h : Inv s) {use : Use} (hi : s.calls[i]? = some (.check e use))
    (hstate : (s.fs.heads e).state = .normal) (hpc' : pc'.entry = some e ∨ pc' = .done)
    (hs' : s' = ⟨s.fs.setHead e { s.fs.heads e with
      refcnt := (s.fs.heads e).refcnt + 1
      ioRefcnt := (s.fs.heads e).ioRefcnt + use.io }, s.calls.set i pc', handles', s.fault⟩)
    (hhandles : ∀ x, x ≠ e → handles' x = s.handles x)
    (hcount : handles' e + pc'.weight .handle + pc'.weight .refs =
      s.handles e + (Pc.check e use).weight .handle + 1)
    (hio : pc'.weight .ios = use.io) (hfrees : pc'.weight .frees = 0)
    (hdeletes : pc'.weight .deletes = 0) : Inv s' := by
  have he : e ∈ s.fs.entries := h.head _ (List.mem_of_getElem? hi) e rfl
  have hold := h.ledger e he
  have hrefcnt := hold.refcnt
  have hiorefcnt := hold.ioRefcnt
  have hentry : (Pc.check e use).entry = some e := rfl
  refine h.setHead hi he hentry hpc' hs' rfl rfl rfl ?_ ?_ hhandles fun hhead ht => ?_
  · show 0 ≤ (s.fs.heads e).refcnt + 1
    omega
  · show 0 ≤ (s.fs.heads e).ioRefcnt + use.io
    omega
  · have hhandle := ht .handle
    have hrefs : s'.total .refs e + 0 = _ := ht .refs
    have hios : s'.total .ios e + 0 = _ := ht .ios
    have hfree : s'.total .frees e + 0 = _ := ht .frees
    have hdelete : s'.total .deletes e + 0 = _ := ht .deletes
    have hzero := hold.frees_of_normal hstate
    have heq : s'.handles e = handles' e := by rw [hs']
    refine ledger_of_normal (by rw [hhead]; exact hstate) ?_ ?_ ?_ fun hpos => ?_
    · rw [hhead, heq]
      show (s.fs.heads e).refcnt + 1 = _
      omega
    · rw [hhead]
      show (s.fs.heads e).ioRefcnt + use.io = _
      omega
    · omega
    · rw [hhead]
      exact hold.deletes (by omega)

/-- **The check.** -/
theorem Inv.check (h : Inv s) {use : Use} (hi : s.calls[i]? = some (.check e use))
    (hclose : use = .closeOne → (s.fs.heads e).state ≠ .closeWait) (hroom : (s.fs.heads e).Room)
    (heq : stepOf s i (.check e use) = some s') : Inv s' := by
  have he : e ∈ s.fs.entries := h.head _ (List.mem_of_getElem? hi) e rfl
  have hold := h.ledger e he
  obtain ⟨h₁, h₂⟩ := hold.nonneg
  rw [stepOf] at heq
  rcases hold.state with hstate | hstate
  · simp only [check_of_normal hstate h₁ h₂ hroom, nspSuccess_zero, if_true] at heq
    have hupdate : ∀ x, x ≠ e → Function.update s.handles e (s.handles e + 1) x = s.handles x :=
      fun x hx => Function.update_of_ne hx _ _
    cases heq
    cases use with
    | openOne =>
      refine h.grant hi hstate (.inr rfl) rfl hupdate ?_ rfl rfl rfl
      rw [Function.update_self]
      rfl
    | openOneByName => exact h.grant hi hstate (.inl rfl) rfl (fun _ _ => rfl) rfl rfl rfl rfl
    | closeOne => exact h.grant hi hstate (.inl rfl) rfl (fun _ _ => rfl) rfl rfl rfl rfl
    | readData offset size =>
      exact h.grant hi hstate (.inl rfl) rfl (fun _ _ => rfl) rfl rfl rfl rfl
    | writeData data offset size =>
      exact h.grant hi hstate (.inl rfl) rfl (fun _ _ => rfl) rfl rfl rfl rfl
    | hardDelete => exact h.grant hi hstate (.inl rfl) rfl (fun _ _ => rfl) rfl rfl rfl rfl
  · have hno : nspSuccess eAcces = false := by decide
    have hpermission : use.permission = .normal ∨ use.permission = .opened := by
      cases use <;> simp [Use.permission]
    simp only [check_of_closeWait hstate hpermission, hno, Bool.false_eq_true, if_false] at heq
    cases heq
    have huse : use ≠ .closeOne := fun huse => hclose huse hstate
    refine h.move hi (by rintro ⟨⟩) (fun kind x => ?_) fun x hx => by cases hx
    rw [tally_eq_zero weight_done, tally_eq_zero (weight_check huse e)]

/-- The number of a head that was found by its key is returned. -/
theorem Inv.returnId (h : Inv s) (hi : s.calls[i]? = some (.returnId e)) : Inv (s.opened i e) := by
  have he : e ∈ s.fs.entries := h.head _ (List.mem_of_getElem? hi) e rfl
  have hold := h.ledger e he
  have hrefcnt := hold.refcnt
  have hio := hold.ioRefcnt
  have hle : 1 ≤ s.total .handle e := weight_le_total hi rfl .handle
  have hs' : s.opened i e = ⟨s.fs.setHead e (s.fs.heads e), s.calls.set i .done,
      Function.update s.handles e (s.handles e + 1), s.fault⟩ := by
    rw [Fs.setHead, Function.update_eq_self]
    rfl
  refine h.setHead hi he rfl (.inr rfl) hs' rfl rfl rfl (by omega) (by omega)
    (fun x hx => Function.update_of_ne hx _ _) fun hhead ht => ?_
  have hhandle : (s.opened i e).total .handle e + 1 = s.total .handle e + 0 := ht .handle
  have hrefs : (s.opened i e).total .refs e + 0 = s.total .refs e + 0 := ht .refs
  have hios : (s.opened i e).total .ios e + 0 = s.total .ios e + 0 := ht .ios
  have hfrees : (s.opened i e).total .frees e + 0 = s.total .frees e + 0 := ht .frees
  have hdeletes : (s.opened i e).total .deletes e + 0 = s.total .deletes e + 0 := ht .deletes
  have hhandles : (s.opened i e).handles e = s.handles e + 1 := Function.update_self _ _ _
  simp only [Nat.add_right_cancel_iff] at hrefs hios hfrees hdeletes
  constructor
  · rw [hhead, hhandles]
    omega
  · rw [hhead, hios]
    exact hio
  · rw [hhead]
    exact hold.state
  · rw [hhead]
    exact hold.hard
  · rw [hhead, hfrees]
    exact hold.frees
  · rw [hhead, hdeletes]
    exact hold.deletes

/-! ## Deleting -/

/-- The entry is marked. -/
theorem Inv.mark (h : Inv s) (hi : s.calls[i]? = some (.mark e)) :
    Inv (s.turn i (.tryDelete e) (s.fs.setHead e
    { s.fs.heads e with hardRemoveOnDetach := true })) := by
  have he : e ∈ s.fs.entries := h.head _ (List.mem_of_getElem? hi) e rfl
  have hold := h.ledger e he
  have hrefcnt := hold.refcnt
  have hio := hold.ioRefcnt
  obtain ⟨s', hs'⟩ : ∃ s', s' = s.turn i (.tryDelete e)
    (s.fs.setHead e { s.fs.heads e with hardRemoveOnDetach := true }) := ⟨_, rfl⟩
  rw [← hs']
  refine h.setHead hi he rfl (.inl rfl) hs' rfl rfl rfl (show 0 ≤ (s.fs.heads e).refcnt by omega)
    (show 0 ≤ (s.fs.heads e).ioRefcnt by omega) (fun _ _ => rfl) fun hhead ht => ?_
  have hhandles : s'.handles = s.handles := by rw [hs']; rfl
  have hhandle : s'.total .handle e + 0 = s.total .handle e + 0 := ht .handle
  have hrefs : s'.total .refs e + 1 = s.total .refs e + 1 := ht .refs
  have hios : s'.total .ios e + 1 = s.total .ios e + 1 := ht .ios
  have hfrees : s'.total .frees e + 0 = s.total .frees e + 0 := ht .frees
  simp only [Nat.add_right_cancel_iff] at hhandle hrefs hios hfrees
  constructor
  · rw [hhead, hhandles, hhandle, hrefs]
    exact hrefcnt
  · rw [hhead, hios]
    exact hio
  · rw [hhead]
    exact hold.state
  · rw [hhead]
    exact fun _ => rfl
  · rw [hhead, hfrees]
    exact hold.frees
  · rw [hhead]
    exact fun _ => rfl

theorem tryDeleteHead_eq {fs : Fs} (hpos : 0 < (fs.heads e).refcnt) :
    tryDeleteHead fs e .normal = fs.setHead e { fs.heads e with state := .closeWait } := by
  have hno : ¬(EntryState.normal = .mandatory ∧ (fs.heads e).ioRefcnt = 0) := by
    rintro ⟨⟨⟩, -⟩
  rw [tryDeleteHead]
  simp only [if_neg hno, setHead_heads_self]
  exact if_neg (by omega)

/-- **The deletion.** -/
theorem Inv.tryDelete (h : Inv s) (hi : s.calls[i]? = some (.tryDelete e)) :
    Inv (s.turn i (.dereference e true 0) (tryDeleteHead s.fs e .normal)) := by
  have he : e ∈ s.fs.entries := h.head _ (List.mem_of_getElem? hi) e rfl
  have hold := h.ledger e he
  have hrefcnt := hold.refcnt
  have hio := hold.ioRefcnt
  have hle : 1 ≤ s.total .refs e := weight_le_total hi rfl .refs
  have hle' : 1 ≤ s.total .deletes e := weight_le_total hi rfl .deletes
  rw [tryDeleteHead_eq (by omega)]
  obtain ⟨s', hs'⟩ : ∃ s', s' = s.turn i (.dereference e true 0)
    (s.fs.setHead e { s.fs.heads e with state := .closeWait }) := ⟨_, rfl⟩
  rw [← hs']
  refine h.setHead hi he rfl (.inl rfl) hs' rfl rfl rfl (show 0 ≤ (s.fs.heads e).refcnt by omega)
    (show 0 ≤ (s.fs.heads e).ioRefcnt by omega) (fun _ _ => rfl) fun hhead ht => ?_
  have hhandles : s'.handles = s.handles := by rw [hs']; rfl
  have hhandle : s'.total .handle e + 0 = s.total .handle e + 0 := ht .handle
  have hrefs : s'.total .refs e + 1 = s.total .refs e + 1 := ht .refs
  have hios : s'.total .ios e + 1 = s.total .ios e + 1 := ht .ios
  have hfrees : s'.total .frees e + 0 = s.total .frees e + 0 := ht .frees
  have hmarked := hold.deletes (by omega)
  simp only [Nat.add_right_cancel_iff] at hhandle hrefs hios hfrees
  constructor
  · rw [hhead, hhandles, hhandle, hrefs]
    exact hrefcnt
  · rw [hhead, hios]
    exact hio
  · rw [hhead]
    exact .inr rfl
  · rw [hhead]
    exact fun _ => hmarked
  · have hpos : (s.fs.heads e).refcnt ≠ 0 := by omega
    rw [hhead, hfrees, hold.frees, if_neg fun hc => hpos hc.2]
    exact (if_neg fun hc => hpos hc.2).symm
  · rw [hhead]
    exact fun _ => hmarked

/-! ## Giving a reference back -/

theorem dropReference_eq {fs : Fs} {io : Bool} (hpos : 0 < (fs.heads e).refcnt)
    (hio : io = true → 0 < (fs.heads e).ioRefcnt) :
    dropReference fs e (permissionOf io) =
      some (decide ((fs.heads e).refcnt - 1 = 0 ∧ (fs.heads e).state = .closeWait),
        fs.setHead e { fs.heads e with
          refcnt := (fs.heads e).refcnt - 1
          ioRefcnt := (fs.heads e).ioRefcnt - (if io then 1 else 0) }) := by
  rw [dropReference]
  cases io with
  | true =>
    have hno : ¬(EntryState.normal = .busy ∧ (fs.heads e).state = .busy) := by
      rintro ⟨⟨⟩, -⟩
    have := hio rfl
    simp only [permissionOf, if_true, true_and, if_neg hno, setHead_heads_self]
    exact if_neg (by omega)
  | false =>
    have hno : ¬(EntryState.opened = .busy ∧ (fs.heads e).state = .busy) := by
      rintro ⟨⟨⟩, -⟩
    have hno' : ¬EntryState.opened = .normal := by decide
    simp only [permissionOf, Bool.false_eq_true, if_false, if_neg hno, hno', false_and, or_false,
      setHead_heads_self, Int.sub_zero]
    exact if_neg (by omega)

theorem weight_next (e : Int) (io : Bool) (n : Nat) (d : Bool) :
    (if d then Pc.free e io n else .rest e io n).weight .handle = 0 ∧
      (if d then Pc.free e io n else .rest e io n).weight .refs = n ∧
      (if d then Pc.free e io n else .rest e io n).weight .ios = (if io then n else 0) ∧
      (if d then Pc.free e io n else .rest e io n).weight .frees = (if d then 1 else 0) ∧
      (if d then Pc.free e io n else .rest e io n).weight .deletes = 0 := by
  cases d <;> cases io <;> cases n <;> exact ⟨rfl, rfl, rfl, rfl, rfl⟩

/-- **A reference is given back.** -/
theorem Inv.dereference (h : Inv s) {io : Bool} {n : Nat}
    (hi : s.calls[i]? = some (.dereference e io n))
    (heq : stepOf s i (.dereference e io n) = some s') : Inv s' := by
  have he : e ∈ s.fs.entries := h.head _ (List.mem_of_getElem? hi) e rfl
  have hold := h.ledger e he
  have hrefcnt := hold.refcnt
  have hiorefcnt := hold.ioRefcnt
  have hle : n + 1 ≤ s.total .refs e := weight_le_total hi rfl .refs
  have hle' : io = true → n + 1 ≤ s.total .ios e := by
    rintro rfl
    exact weight_le_total hi rfl .ios
  rw [stepOf, dropReference_eq (by omega) (fun hio => by have := hle' hio; omega)] at heq
  have hs' := (Option.some.inj heq).symm
  simp only at hs'
  obtain ⟨hhandle', hrefs', hios', hfrees', hdeletes'⟩ := weight_next e io n
    (decide ((s.fs.heads e).refcnt - 1 = 0 ∧ (s.fs.heads e).state = .closeWait))
  have hios'' : (Pc.dereference e io n).weight .ios = if io then n + 1 else 0 := by
    cases io <;> rfl
  have hdrop : ((s.fs.heads e).ioRefcnt - (if io then 1 else 0)) + (if io then n + 1 else 0 : Nat) =
      s.total .ios e + (if io then n else 0 : Nat) := by
    cases io with
    | true =>
      simp only [if_true]
      omega
    | false =>
      simp only [Bool.false_eq_true, if_false]
      omega
  refine h.setHead hi he rfl ?_ hs' rfl rfl rfl (show 0 ≤ (s.fs.heads e).refcnt - 1 by omega) ?_
    (fun _ _ => rfl) fun hhead ht => ?_
  · split
    · exact .inl rfl
    · cases n with
      | zero => exact .inr rfl
      | succ n => exact .inl rfl
  · show 0 ≤ (s.fs.heads e).ioRefcnt - (if io then 1 else 0)
    cases io with
    | true =>
      have := hle' rfl
      simp only [if_true]
      omega
    | false =>
      simp only [Bool.false_eq_true, if_false]
      omega
  have hhandles : s'.handles = s.handles := by rw [hs']; rfl
  have hhandle : s'.total .handle e + 0 = _ := ht .handle
  have hrefs : s'.total .refs e + (n + 1) = _ := ht .refs
  have hios := ht .ios
  have hfrees : s'.total .frees e + 0 = _ := ht .frees
  have hdeletes : s'.total .deletes e + 0 = _ := ht .deletes
  rw [hhandle'] at hhandle
  rw [hrefs'] at hrefs
  rw [hios'', hios'] at hios
  rw [hfrees'] at hfrees
  rw [hdeletes'] at hdeletes
  constructor
  · rw [hhead, hhandles]
    show (s.fs.heads e).refcnt - 1 = _
    omega
  · rw [hhead]
    show (s.fs.heads e).ioRefcnt - (if io then 1 else 0) = _
    omega
  · rw [hhead]
    exact hold.state
  · rw [hhead]
    exact hold.hard
  · have hpos : (s.fs.heads e).refcnt ≠ 0 := by omega
    have hzero : s.total .frees e = 0 := hold.frees.trans (if_neg fun hc => hpos hc.2)
    rw [hhead, ← Nat.add_zero (s'.total .frees e), hfrees, hzero, Nat.zero_add]
    simp only [decide_eq_true_eq, and_comm]
  · rw [hhead]
    exact fun hpos => hold.deletes (by omega)

/-! ## Reading and writing -/

/-- The calls stay where they are, and no counter changes. -/
theorem Inv.setFs (h : Inv s) (hspace : Space fs'.eased [])
    (hsteady : fs'.Steady) (hindex : Indexed fs')
    (hentries : fs'.entries = s.fs.entries)
    (hcounts : ∀ x ∈ s.fs.entries, SameCounts (s.fs.heads x) (fs'.heads x)) :
    Inv { s with fs := fs' } where
  fault := h.fault
  dangling := h.dangling
  space := hspace
  steady := hsteady
  index := hindex
  ledger := fun x hx => by
    have hx' : x ∈ s.fs.entries := hentries ▸ hx
    exact (h.ledger x hx').same (hcounts x hx') rfl fun _ => rfl
  head := fun q hq x hx => hentries ▸ h.head q hq x hx
  handle := fun x hx => h.handle x fun hx' => hx (hentries ▸ hx')

theorem Inv.worked (h : Inv s) (hi : s.calls[i]? = some pc) (hpc : pc.head = some e)
    (hweight : ∀ kind, (Pc.dereference e true 0).weight kind = pc.weight kind)
    (hw : Worked s.fs fs') (hfsize : fs'.vol.fsize = s.fs.vol.fsize) :
    Inv (s.turn i (.dereference e true 0) fs') := by
  have htally : ∀ kind x, (Pc.dereference e true 0).tally kind x = pc.tally kind x :=
    fun kind x => by
    rw [Pc.tally, Pc.tally, entry_of_head hpc, hweight]
    rfl
  have he : e ∈ s.fs.entries := h.head pc (List.mem_of_getElem? hi) e hpc
  have hmove := h.move hi (show Pc.dereference e true 0 ≠ .dangling by rintro ⟨⟩) htally
    (fun x hx => by cases hx; exact he)
  obtain ⟨g, hstep⟩ := hw.step
  exact hmove.setFs hw.space (h.steady.step hstep hw.fault hfsize)
    (h.index.same ⟨hw.named, hw.entries, fun x _ => hw.key x⟩) hw.entries
    fun x _ => hw.counts x

/-! ## Creating -/

/-- No call counts for what is not there. -/
theorem Inv.total_of_notMem (h : Inv s) (he : e ∉ s.fs.entries) (kind : Kind) :
    s.total kind e = 0 := by
  cases kind with
  | handle => exact (h.handle e he).2
  | _ =>
    refine total_eq_zero.mpr fun pc hpc => ?_
    rw [Pc.tally]
    split
    · rename_i hentry
      cases pc with
      | search id use => cases use <;> rfl
      | _ => exact absurd (h.head _ hpc e hentry) he
    · rfl

/-- **A new entry**, or none. -/
theorem Inv.create (h : Inv s) {key : Option (List UInt8)} (hi : s.calls[i]? = some (.create key))
    (hne : s.fs.vol.idle ≠ []) : Inv (s.turn i
      (if nspSuccess (insertNew s.fs key).1 then .enter (insertNew s.fs key).2.1 else .done)
        (insertNew s.fs key).2.2) := by
  have hfsize : (insertNew s.fs key).2.2.vol.fsize = s.fs.vol.fsize := by
    have hsame := insertNew_fsize h.space.vol hne key
    rwa [insertNew_eased] at hsame
  have hcreate : ∀ kind, (Pc.create key).weight kind = 0 := fun kind => by cases kind <;> rfl
  rcases insertNew_spec_eased h.space key with ⟨v, fs', heq, hent⟩ | ⟨r, fs', heq, hneg, hspared⟩
  · rw [heq] at hfsize ⊢
    obtain ⟨vol, hfs'⟩ := hent.entered
    have hv : v ∉ s.fs.entries := fun hmem =>
      hent.inserted.notMem (h.space.mem_busy hmem List.mem_cons_self)
    have hentries : fs'.entries = s.fs.entries ++ [v] := hent.inserted.entries
    have hold : ∀ x, x ≠ v → fs'.heads x = s.fs.heads x := fun x hx => by
      rw [hfs', insertHead_heads, setHead_heads_ne _ hx]
      rfl
    have hself : fs'.heads v = .fresh (newKey key) := by
      rw [hfs', insertHead_heads, setHead_heads_self]
    have hbase : Indexed ((s.fs.setVol vol).setHead v (.fresh (newKey key))) := by
      refine h.index.same ⟨rfl, rfl, fun x hx => ?_⟩
      rw [setHead_heads_ne _ (ne_of_mem_of_not_mem hx hv)]
      rfl
    have hindex : Indexed fs' := hfs' ▸ hbase.insert v
    have htotal : ∀ kind x, (s.turn i (.enter v) fs').total kind x = s.total kind x :=
      fun kind x => by
      have hset := total_set hi (show (s.turn i (.enter v) fs').calls = _ from rfl) kind x
      rw [tally_eq_zero hcreate, tally_eq_zero fun kind => by cases kind <;> rfl] at hset
      exact hset
    have hmem : ∀ x ∈ (s.turn i (.enter v) fs').calls, x ∈ s.calls ∨ x = .enter v := fun x hx =>
      List.mem_or_eq_of_mem_set hx
    show Inv (s.turn i (.enter v) fs')
    refine ⟨h.fault, fun hx => ?_, hent.inserted.space,
      h.steady.step hent.inserted.step hent.inserted.fault hfsize, hindex,
      fun x hx => ?_, fun q hq x hx => ?_, fun x hx => ?_⟩
    · exact (hmem _ hx).elim h.dangling (by rintro ⟨⟩)
    · rw [show (s.turn i (.enter v) fs').fs.entries = fs'.entries from rfl, hentries] at hx
      by_cases hxv : x = v
      · subst hxv
        have hhead : (s.turn i (.enter x) fs').fs.heads x = .fresh (newKey key) := hself
        have hhandles : (s.turn i (.enter x) fs').handles x = 0 := (h.handle x hv).1
        refine ledger_of_normal (by rw [hhead]; rfl) ?_ ?_ ?_ fun hpos => ?_
        · rw [hhead, hhandles, htotal, htotal, h.total_of_notMem hv, h.total_of_notMem hv]
          rfl
        · rw [hhead, htotal, h.total_of_notMem hv]
          rfl
        · rw [htotal, h.total_of_notMem hv]
        · rw [htotal, h.total_of_notMem hv] at hpos
          exact absurd hpos (Nat.lt_irrefl 0)
      · have hx' : x ∈ s.fs.entries :=
          (List.mem_append.mp hx).resolve_right fun hc => hxv (List.mem_singleton.mp hc)
        refine (h.ledger x hx').same ?_ rfl fun kind => htotal kind x
        show SameCounts _ (fs'.heads x)
        rw [hold x hxv]
        exact .refl _
    · show x ∈ fs'.entries
      rw [hentries]
      rcases hmem q hq with hq | rfl
      · exact List.mem_append_left _ (h.head q hq x hx)
      · cases hx
        exact List.mem_append_right _ (List.mem_singleton_self _)
    · rw [htotal]
      refine h.handle x fun hmem' => hx ?_
      show x ∈ fs'.entries
      rw [hentries]
      exact List.mem_append_left _ hmem'
  · have hno : nspSuccess r = false := by simpa [nspSuccess] using hneg
    rw [heq] at hfsize ⊢
    simp only [hno, Bool.false_eq_true, if_false]
    have hentries : fs'.entries = s.fs.entries := hspared.kept.entries
    have hmove := h.move hi (show Pc.done ≠ .dangling by rintro ⟨⟩)
      (fun kind x => by rw [tally_eq_zero weight_done, tally_eq_zero hcreate]) fun x hx =>
        by cases hx
    obtain ⟨g, hstep, -⟩ := hspared.kept.step
    have hsame := h.index.same ⟨hspared.named, hentries,
      fun x hx => congrArg Head.key (hspared.heads x hx)⟩
    refine hmove.setFs hspared.kept.space (h.steady.step hstep hspared.kept.fault hfsize) hsame
      hentries fun x hx => ?_
    rw [hspared.heads x hx]
    exact .refl _

/-! ## Freeing -/

/-- What a call has in hand counts for something, or was not checked. -/
theorem weight_of_head (h : pc.head = some e) : pc.seeks e = true ∨ 0 < pc.tally .handle e ∨
    0 < pc.tally .refs e ∨ 0 < pc.tally .frees e := by
  cases pc with
  | enter e' =>
    cases h
    exact .inl (decide_eq_true rfl)
  | check e' use =>
    cases h
    exact .inl (decide_eq_true rfl)
  | returnId e' =>
    cases h
    exact .inr (.inl (by simp [Pc.tally, Pc.entry, Pc.head, Pc.weight]))
  | read e' offset size =>
    cases h
    exact .inr (.inr (.inl (by simp [Pc.tally, Pc.entry, Pc.head, Pc.weight])))
  | write e' data offset size =>
    cases h
    exact .inr (.inr (.inl (by simp [Pc.tally, Pc.entry, Pc.head, Pc.weight])))
  | mark e' =>
    cases h
    exact .inr (.inr (.inl (by simp [Pc.tally, Pc.entry, Pc.head, Pc.weight])))
  | tryDelete e' =>
    cases h
    exact .inr (.inr (.inl (by simp [Pc.tally, Pc.entry, Pc.head, Pc.weight])))
  | dereference e' io n =>
    cases h
    exact .inr (.inr (.inl (by simp [Pc.tally, Pc.entry, Pc.head, Pc.weight])))
  | free e' io n =>
    cases h
    exact .inr (.inr (.inr (by simp [Pc.tally, Pc.entry, Pc.head, Pc.weight])))
  | _ => cases h

/-- The entry whose head is about to be freed: all references were given back. -/
theorem Inv.before_free (h : Inv s) {io : Bool} {n : Nat} (hi : s.calls[i]? = some (.free e io n)) :
    e ∈ s.fs.entries ∧ (s.fs.heads e).state = .closeWait ∧
      (s.fs.heads e).hardRemoveOnDetach = true ∧ n = 0 ∧ s.handles e = 0 ∧
      s.total .handle e = 0 ∧ s.total .refs e = 0 ∧ s.total .frees e = 1 := by
  have he : e ∈ s.fs.entries := h.head _ (List.mem_of_getElem? hi) e rfl
  have hold := h.ledger e he
  have hrefcnt := hold.refcnt
  have hfrees := hold.frees
  have hle : 1 ≤ s.total .frees e := weight_le_total hi rfl .frees
  have hle' : n ≤ s.total .refs e := weight_le_total hi rfl .refs
  split at hfrees
  · rename_i hc
    rw [hc.2] at hrefcnt
    exact ⟨he, hc.1, hold.hard hc.1, by omega, by omega, by omega, by omega, hfrees⟩
  · omega

theorem seeks_of_guarded {io : Bool} {n : Nat} (hi : s.calls[i]? = some (.free e io n))
    (hguard : guarded s (.step i) = true) : ∀ pc ∈ s.calls, pc.seeks e = false := by
  rw [guarded, hi] at hguard
  exact fun pc hpc => by simpa using List.all_eq_true.mp hguard pc hpc

/-- The step that frees a head, while no call is between its search and its check: no other call has
the head in hand. -/
theorem Inv.free_eq (h : Inv s) {io : Bool} {n : Nat} (hi : s.calls[i]? = some (.free e io n))
    (hseeks : ∀ pc ∈ s.calls, pc.seeks e = false) :
    stepOf s i (.free e io n) = some (s.turn i .done (freeHead s.fs e)) ∧
      (∀ pc ∈ s.calls.set i .done, pc.head ≠ some e) ∧
      (s.turn i .done (freeHead s.fs e)).total .handle e = 0 := by
  obtain ⟨-, -, -, rfl, -, hhandle, hrefs, hfrees⟩ := h.before_free hi
  have hset : ∀ kind, (s.turn i .done (freeHead s.fs e)).total kind e +
      (Pc.free e io 0).weight kind =
      s.total kind e := fun kind => by
    have hset := total_set hi
      (show (s.turn i .done (freeHead s.fs e)).calls = _ from rfl) kind e
    rwa [tally_self rfl, tally_eq_zero weight_done] at hset
  have hhandle' : (s.turn i .done (freeHead s.fs e)).total .handle e + 0 = _ := hset .handle
  have hrefs' : (s.turn i .done (freeHead s.fs e)).total .refs e + 0 = _ := hset .refs
  have hfrees' : (s.turn i .done (freeHead s.fs e)).total .frees e + 1 = _ := hset .frees
  rw [hhandle] at hhandle'
  rw [hrefs] at hrefs'
  rw [hfrees] at hfrees'
  have hnone : ∀ pc ∈ s.calls.set i .done, pc.head ≠ some e := fun pc hpc hhead => by
    rcases weight_of_head hhead with hseek | hpos | hpos | hpos
    · rcases List.mem_or_eq_of_mem_set hpc with hmem | rfl
      · exact absurd ((hseeks pc hmem).symm.trans hseek) Bool.false_ne_true
      · cases hhead
    · exact absurd (total_eq_zero.mp hhandle' pc hpc) (Nat.pos_iff_ne_zero.mp hpos)
    · exact absurd (total_eq_zero.mp hrefs' pc hpc) (Nat.pos_iff_ne_zero.mp hpos)
    · exact absurd (total_eq_zero.mp (Nat.succ.inj hfrees') pc hpc) (Nat.pos_iff_ne_zero.mp hpos)
  refine ⟨?_, hnone, hhandle'⟩
  have hmap : (s.calls.set i .done).map (.strand e) = s.calls.set i .done := by
    refine (List.map_congr_left fun pc hpc => ?_).trans (List.map_id _)
    exact if_neg (hnone pc hpc)
  rw [stepOf, Pc.rest, hmap]
  rfl

theorem indexed_freeHead {fs : Fs} (h : Indexed fs) (hnd : fs.entries.Nodup)
    (hr : (fs.heads e).hardRemoveOnDetach = true) : Indexed (freeHead fs e) ∧
      ∀ leaf ∈ Avl.toList (freeHead fs e).rootOfNamedEntriesTree, fs.name e ≠ [] →
        leaf.name ≠ fs.name e := by
  obtain ⟨head, heq⟩ := freeHead_hard hr
  have hgone : e ∉ (detachHead fs e).entries := by
    rw [detachHead_entries]
    exact hnd.not_mem_erase
  rw [heq]
  refine ⟨(h.detach hnd).1.same ⟨rfl, rfl, fun x hx => ?_⟩, (h.detach hnd).2⟩
  exact congrArg Head.key (setHead_heads_ne _ (ne_of_mem_of_not_mem hx hgone) head)

theorem freeHead_heads_ne {fs : Fs} {x : Int} (hr : (fs.heads e).hardRemoveOnDetach = true)
    (hne : x ≠ e) : (freeHead fs e).heads x = fs.heads x := by
  obtain ⟨head, heq⟩ := freeHead_hard hr
  rw [heq]
  show ((detachHead fs e).setHead e head).heads x = _
  rw [setHead_heads_ne _ hne, detachHead_heads]

/-- **The head is freed.** -/
theorem Inv.free (h : Inv s) {io : Bool} {n : Nat} (hi : s.calls[i]? = some (.free e io n))
    (hseeks : ∀ pc ∈ s.calls, pc.seeks e = false) : Inv (s.turn i .done (freeHead s.fs e)) := by
  obtain ⟨he, -, hhard, rfl, hhandles, -, -, -⟩ := h.before_free hi
  obtain ⟨-, hnone, hhandle⟩ := h.free_eq hi hseeks
  have hnd : s.fs.entries.Nodup := h.space.nodup_entries
  have hdel := freeHead_eased h.space he hhard
  have hentries : (freeHead s.fs e).entries = s.fs.entries.erase e := hdel.entries
  have htotal : ∀ x, x ≠ e → ∀ kind,
      (s.turn i .done (freeHead s.fs e)).total kind x = s.total kind x := fun x hne kind => by
    have hset := total_set hi
      (show (s.turn i .done (freeHead s.fs e)).calls = _ from rfl) kind x
    have hother : (Pc.free e io 0).entry ≠ some x := fun hx => hne (Option.some.inj hx).symm
    rwa [tally_of_ne hother, tally_eq_zero weight_done] at hset
  have hmem : ∀ x, x ∈ (s.turn i .done (freeHead s.fs e)).fs.entries ↔ x ≠ e ∧ x ∈ s.fs.entries :=
    fun x => by
      rw [← hnd.mem_erase_iff, ← hentries]
      rfl
  refine ⟨h.fault, fun hx => ?_, hdel.space,
    h.steady.step hdel.step hdel.fault hdel.fsize,
    (indexed_freeHead h.index hnd hhard).1, fun x hx => ?_, fun pc hpc x hx => ?_, fun x hx => ?_⟩
  · rcases List.mem_or_eq_of_mem_set hx with hx | hx
    · exact h.dangling hx
    · cases hx
  · obtain ⟨hne, hx⟩ := (hmem x).mp hx
    refine (h.ledger x hx).same ?_ rfl (htotal x hne)
    show SameCounts _ ((freeHead s.fs e).heads x)
    rw [freeHead_heads_ne hhard hne]
    exact .refl _
  · refine (hmem x).mpr ⟨fun hxe => hnone pc hpc (hxe ▸ hx), ?_⟩
    rcases List.mem_or_eq_of_mem_set hpc with hpc | rfl
    · exact h.head pc hpc x hx
    · cases hx
  · by_cases hne : x = e
    · rw [hne]
      exact ⟨hhandles, hhandle⟩
    · rw [htotal x hne]
      exact h.handle x fun hx' => hx ((hmem x).mpr ⟨hne, hx'⟩)

/-- What is gone then. -/
theorem Inv.gone (h : Inv s) (he : e ∈ s.fs.entries)
    (hhard : (s.fs.heads e).hardRemoveOnDetach = true) :
    Gone s.fs (freeHead s.fs e) e := by
  have hnd : s.fs.entries.Nodup := h.space.nodup_entries
  have hdel := freeHead_eased h.space he hhard
  obtain ⟨hindex, hnames⟩ := indexed_freeHead h.index hnd hhard
  have hentries : (freeHead s.fs e).entries = s.fs.entries.erase e := hdel.entries
  have hlist : e ∉ (freeHead s.fs e).entries := by
    rw [hentries]
    exact hnd.not_mem_erase
  have hidle : ∀ v ∈ s.fs.chain e, v ∈ (freeHead s.fs e).vol.idle := by
    intro v hv
    obtain ⟨h₁, h₂⟩ := h.space.vol.mem_busy (h.space.mem_busy he hv)
    have hcount : (freeHead s.fs e).vol.clusterCount = s.fs.vol.clusterCount := by
      obtain ⟨head, heq⟩ := freeHead_hard hhard
      rw [heq]
      exact (moveAll_keeps _ s.fs.vol).hard.clusterCount
    refine (hdel.space.vol.mem_iff.mpr ⟨h₁, hcount ▸ h₂⟩).resolve_right fun hbusy => ?_
    -- a busy view is one of another entry
    obtain ⟨e', he', hv'⟩ := List.mem_flatMap.mp (hdel.space.owned.mem_iff.mp hbusy)
    have hne : e' ≠ e := ne_of_mem_of_not_mem he' hlist
    rw [Fs.chain, hdel.heads e' hne] at hv'
    refine h.space.chain_disjoint he (List.mem_of_mem_erase (hentries ▸ he')) hne.symm hv hv'
  refine ⟨hlist, fun hmem => hlist ((hdel.space.mem_tree e).mp hmem), fun leaf hleaf heq =>
    hlist (heq ▸ hindex.head leaf hleaf), hidle, fun key hfits hname => ⟨?_, ?_⟩⟩
  · refine (search_eq_none hindex hfits).mpr fun leaf hleaf => ?_
    rw [hname]
    by_cases hempty : s.fs.name e = []
    · rw [hempty]
      exact hindex.name_ne leaf hleaf
    · exact hnames leaf hleaf hempty
  · have hsteady : (freeHead s.fs e).Steady := h.steady.step hdel.step hdel.fault hdel.fsize
    have hne := List.ne_nil_of_mem (hidle e List.mem_cons_self)
    obtain ⟨u, m⟩ := hsteady.mirror
    obtain ⟨v, s'', heq⟩ := insertNew_of_idle hdel.space m hsteady.fsize_le hne (some key)
    have hfsize := insertNew_fsize hdel.space.vol hne (some key)
    rw [insertNew_eased] at heq hfsize
    have hstatus : (insertNew (freeHead s.fs e) (some key)).1 = 0 := congrArg Prod.fst heq
    refine ⟨_, _, Prod.ext hstatus rfl, ?_⟩
    rcases insertNew_spec_eased hdel.space (some key) with ⟨w, fs', hnew, hent⟩ |
      ⟨r, fs', hnew, hneg, -⟩
    · rw [hnew] at hfsize ⊢
      exact (hsteady.step hent.inserted.step hent.inserted.fault hfsize).defined
    · rw [hnew] at hstatus
      exact absurd hneg (by rw [show r = 0 from hstatus]; exact lt_irrefl 0)

/-! ## New calls -/

/-- A new call that counts for nothing yet. -/
theorem Inv.start (h : Inv s) (hpc : ∀ kind, pc.weight kind = 0) (hhead : pc.head = none)
    (hdangling : pc ≠ .dangling) : Inv (s.start pc) := by
  have htotal : ∀ kind x, (s.start pc).total kind x = s.total kind x := fun kind x => by
    show ((s.calls ++ [pc]).map (Pc.tally kind x)).sum = _
    rw [List.map_append, List.sum_append, List.map_singleton, List.sum_singleton, tally_eq_zero hpc]
    rfl
  refine ⟨h.fault, fun hx => ?_, h.space, h.steady, h.index, fun x hx => ?_, fun q hq x hx => ?_,
    fun x hx => ?_⟩
  · rcases List.mem_append.mp hx with hx | hx
    · exact h.dangling hx
    · exact hdangling (List.mem_singleton.mp hx).symm
  · exact (h.ledger x hx).same (.refl _) rfl fun kind => htotal kind x
  · rcases List.mem_append.mp hq with hq | hq
    · exact h.head q hq x hx
    · rw [List.mem_singleton.mp hq, hhead] at hx
      cases hx
  · rw [htotal]
    exact h.handle x hx

/-- A handle is about to be closed: it counts for the call now. -/
theorem Inv.closing (h : Inv s) (hpos : 0 < s.handles e) : Inv (s.closing e) := by
  have htotal : ∀ kind x, (s.closing e).total kind x =
      s.total kind x + (Pc.search e .closeOne).tally kind x := fun kind x => by
    show ((s.calls ++ [Pc.search e .closeOne]).map (Pc.tally kind x)).sum = _
    rw [List.map_append, List.sum_append, List.map_singleton, List.sum_singleton]
    rfl
  have hother : ∀ x, x ≠ e → (s.closing e).handles x = s.handles x ∧
      ∀ kind, (s.closing e).total kind x = s.total kind x := fun x hne => by
    refine ⟨Function.update_of_ne hne _ _, fun kind => ?_⟩
    have hother : (Pc.search e .closeOne).entry ≠ some x := fun hx => hne (Option.some.inj hx).symm
    rw [htotal, tally_of_ne hother]
    rfl
  have hself : (s.closing e).handles e = s.handles e - 1 := Function.update_self _ _ _
  have hmem : e ∈ s.fs.entries := by
    by_contra hno
    have := (h.handle e hno).1
    omega
  refine ⟨h.fault, fun hx => ?_, h.space, h.steady, h.index, fun x hx => ?_, fun q hq x hx => ?_,
    fun x hx => ?_⟩
  · rcases List.mem_append.mp hx with hx | hx
    · exact h.dangling hx
    · cases List.mem_singleton.mp hx
  · have hold := h.ledger x hx
    by_cases hne : x = e
    · subst hne
      have hkind : ∀ kind, (s.closing x).total kind x =
          s.total kind x + (Pc.search x .closeOne).weight kind := fun kind => by
        rw [htotal, tally_self rfl]
      have hhandle : (s.closing x).total .handle x = s.total .handle x + 1 := hkind .handle
      have hrefs : (s.closing x).total .refs x = s.total .refs x := hkind .refs
      have hios : (s.closing x).total .ios x = s.total .ios x := hkind .ios
      have hfrees : (s.closing x).total .frees x = s.total .frees x := hkind .frees
      have hdeletes : (s.closing x).total .deletes x = s.total .deletes x := hkind .deletes
      have hrefcnt := hold.refcnt
      refine ⟨?_, hios ▸ hold.ioRefcnt, hold.state, hold.hard, hfrees ▸ hold.frees,
        hdeletes ▸ hold.deletes⟩
      rw [hself, hhandle, hrefs]
      show (s.fs.heads x).refcnt = _
      omega
    · exact hold.same (.refl _) (hother x hne).1 (hother x hne).2
  · rcases List.mem_append.mp hq with hq | hq
    · exact h.head q hq x hx
    · rw [List.mem_singleton.mp hq] at hx
      cases hx
  · have hne : x ≠ e := fun hxe => hx (hxe ▸ hmem)
    rw [(hother x hne).1, (hother x hne).2]
    exact h.handle x hx

/-! ## Every step -/

/-- A call takes its next step. -/
theorem Inv.step (h : Inv s) (hi : s.calls[i]? = some pc) (hguard : guarded s (.step i) = true)
    (heq : stepOf s i pc = some s') : Inv s' := by
  cases pc with
  | createSearch key =>
    obtain ⟨found, -, rfl⟩ := Option.map_eq_some_iff.mp heq
    have hweight : ∀ kind, (Pc.createSearch key).weight kind = 0 :=
      fun kind => by cases kind <;> rfl
    split
    · refine h.move hi (by rintro ⟨⟩) (fun kind x => ?_) fun x hx => by cases hx
      rw [tally_eq_zero weight_done, tally_eq_zero hweight]
    · refine h.move hi (by rintro ⟨⟩) (fun kind x => ?_) fun x hx => by cases hx
      rw [tally_eq_zero (fun kind => by cases kind <;> rfl), tally_eq_zero hweight]
  | create key =>
    cases heq
    rw [guarded, hi] at hguard
    exact h.create hi (of_decide_eq_true hguard)
  | enter e =>
    cases heq
    refine h.move hi (by rintro ⟨⟩) (fun kind x => ?_) fun x hx => by cases hx
    rw [tally_eq_zero (weight_search (by rintro ⟨⟩) e),
      tally_eq_zero fun kind => by cases kind <;> rfl]
  | search id use =>
    cases heq
    exact h.search hi
  | openSearch key =>
    obtain ⟨found, hfound, rfl⟩ := Option.map_eq_some_iff.mp heq
    exact h.searchNamed hi (fun kind => by cases kind <;> rfl) (by rintro ⟨⟩) hfound
  | deleteSearch key =>
    obtain ⟨found, hfound, rfl⟩ := Option.map_eq_some_iff.mp heq
    exact h.searchNamed hi (fun kind => by cases kind <;> rfl) (by rintro ⟨⟩) hfound
  | check e use =>
    obtain ⟨hclose, hroom⟩ := room_of_guarded hi hguard
    exact h.check hi hclose hroom heq
  | returnId e =>
    cases heq
    exact h.returnId hi
  | read e offset size =>
    cases heq
    have he := h.head _ (List.mem_of_getElem? hi) e rfl
    exact h.worked hi rfl (fun kind => by cases kind <;> rfl) (worked_readBytes h.space he _ _)
      (readBytes_fsize ..)
  | write e data offset size =>
    obtain ⟨⟨r, fs'⟩, hr, rfl⟩ := Option.map_eq_some_iff.mp heq
    have he := h.head _ (List.mem_of_getElem? hi) e rfl
    rw [guarded, hi] at hguard
    obtain ⟨u, m⟩ := h.steady.mirror
    exact h.worked hi rfl (fun kind => by cases kind <;> rfl) (worked_writeBody h.space he hr)
      (writeBody_fsize_eased h.space he m h.steady.fsize_le (of_decide_eq_true hguard) hr)
  | mark e =>
    cases heq
    exact h.mark hi
  | tryDelete e =>
    cases heq
    exact h.tryDelete hi
  | dereference e io n => exact h.dereference hi heq
  | free e io n =>
    replace hguard := seeks_of_guarded hi hguard
    rw [(h.free_eq hi hguard).1] at heq
    cases heq
    exact h.free hi hguard
  | dangling => exact absurd (List.mem_of_getElem? hi) h.dangling
  | done => cases heq

/-- **Every step** keeps the invariant. -/
theorem Inv.guardedStep (h : Inv s) {a : Act} (ha : GuardedStep s a s') : Inv s' := by
  obtain ⟨hguard, hact⟩ := ha
  cases a with
  | step i =>
    obtain ⟨pc, hi, heq⟩ := Option.bind_eq_some_iff.mp hact
    exact h.step hi hguard heq
  | createOne key =>
    cases key with
    | none =>
      cases hact
      exact h.start (fun kind => by cases kind <;> rfl) rfl (by rintro ⟨⟩)
    | some key =>
      cases hact
      exact h.start (fun kind => by cases kind <;> rfl) rfl (by rintro ⟨⟩)
  | openOne entryId =>
    cases hact
    exact h.start (weight_search (by rintro ⟨⟩) entryId) rfl (by rintro ⟨⟩)
  | openOneByName key =>
    cases hact
    exact h.start (fun kind => by cases kind <;> rfl) rfl (by rintro ⟨⟩)
  | closeOne entryId =>
    rw [act] at hact
    split at hact
    · cases hact
      exact h.closing ‹_›
    · cases hact
  | readData entryId offset size =>
    cases hact
    split
    · exact h.start weight_done rfl (by rintro ⟨⟩)
    · exact h.start (weight_search (by rintro ⟨⟩) entryId) rfl (by rintro ⟨⟩)
  | writeData entryId data offset size =>
    cases hact
    split
    · exact h.start weight_done rfl (by rintro ⟨⟩)
    · exact h.start (weight_search (by rintro ⟨⟩) entryId) rfl (by rintro ⟨⟩)
  | hardDelete entryId =>
    cases hact
    exact h.start (weight_search (by rintro ⟨⟩) entryId) rfl (by rintro ⟨⟩)
  | hardDeleteByName key =>
    cases hact
    exact h.start (fun kind => by cases kind <;> rfl) rfl (by rintro ⟨⟩)

/-! ## The entries that were deleted -/

/-- An entry that was deleted stays so, and keeps its clusters. -/
structure Stays (fs fs' : Fs) (e : Int) : Prop where
  entries : e ∈ fs.entries → e ∈ fs'.entries
  state : (fs.heads e).state = .closeWait → (fs'.heads e).state = .closeWait
  chain : fs.chain e <+: fs'.chain e

theorem Stays.refl (fs : Fs) (e : Int) : Stays fs fs e := ⟨id, id, List.prefix_rfl⟩

theorem chain_of_elements {fs : Fs} (h : (fs'.heads e).elements = (fs.heads e).elements) :
    fs.chain e <+: fs'.chain e := by
  have hchain : fs'.chain e = fs.chain e := congrArg (e :: ·) h
  exact hchain ▸ List.prefix_rfl

theorem stays_setHead (fs : Fs) {x : Int} {head : Head} (e : Int)
    (helements : head.elements = (fs.heads x).elements)
    (hstate : (fs.heads x).state = .closeWait → head.state = .closeWait) :
    Stays fs (fs.setHead x head) e := by
  by_cases hx : e = x
  · subst hx
    have hhead := setHead_heads_self fs e head
    refine ⟨id, fun hc => ?_, chain_of_elements (by rw [hhead, helements])⟩
    rw [hhead]
    exact hstate hc
  · have hhead := setHead_heads_ne fs hx head
    refine ⟨id, fun hc => ?_, chain_of_elements (by rw [hhead])⟩
    rw [hhead]
    exact hc

theorem stays_of_worked {fs : Fs} (h : Worked fs fs') (e : Int) : Stays fs fs' e :=
  ⟨fun he => h.entries ▸ he, fun hc => (h.counts e).state.trans hc, h.chain e⟩

/-- An entry that was not there is made, or none. -/
theorem stays_insertNew {fs : Fs} (h : Space fs.eased []) (key : Option (List UInt8))
    (he : e ∈ fs.entries) : Stays fs (insertNew fs key).2.2 e := by
  have hsame : ∀ {fs'' : Fs}, e ∈ fs''.entries → fs''.heads e = fs.heads e → Stays fs fs'' e :=
    fun hmem hhead => ⟨fun _ => hmem, fun hc => by rwa [hhead],
      chain_of_elements (by rw [hhead])⟩
  rcases insertNew_spec_eased h key with ⟨v, fs'', heq, hent⟩ | ⟨r, fs'', heq, -, hspared⟩
  · rw [heq]
    have hv : e ≠ v := fun hev =>
      hent.inserted.notMem (h.mem_busy (hev ▸ he) List.mem_cons_self)
    obtain ⟨vol, hfs⟩ := hent.entered
    refine hsame ?_ ?_
    · rw [show fs''.entries = fs.entries ++ [v] from hent.inserted.entries]
      exact List.mem_append_left _ he
    · rw [hfs, insertHead_heads, setHead_heads_ne _ hv]
      rfl
  · rw [heq]
    refine hsame ?_ (hspared.heads e he)
    rw [show fs''.entries = fs.entries from hspared.kept.entries]
    exact he

theorem granted_fs (s : State) (i : Nat) (e : Int) (use : Use) : (granted s i e use).fs = s.fs := by
  cases use with
  | _ => rfl

/-- A call leaves a deleted entry as it is, or frees it. -/
theorem Inv.stays (h : Inv s) (hi : s.calls[i]? = some pc) (hguard : guarded s (.step i) = true)
    (heq : stepOf s i pc = some s') (hd : s.Deleted e) :
    Stays s.fs s'.fs e ∨ Gone s.fs s'.fs e := by
  have hhead : ∀ x, pc.head = some x → x ∈ s.fs.entries := h.head pc (List.mem_of_getElem? hi)
  cases pc with
  | createSearch key =>
    obtain ⟨found, -, rfl⟩ := Option.map_eq_some_iff.mp heq
    exact .inl (.refl _ _)
  | create key =>
    cases heq
    exact .inl (stays_insertNew h.space key hd.1)
  | openSearch key =>
    obtain ⟨found, -, rfl⟩ := Option.map_eq_some_iff.mp heq
    exact .inl (.refl _ _)
  | deleteSearch key =>
    obtain ⟨found, -, rfl⟩ := Option.map_eq_some_iff.mp heq
    exact .inl (.refl _ _)
  | check x use =>
    obtain ⟨h₁, h₂⟩ := (h.ledger x (hhead x rfl)).nonneg
    have hroom := (room_of_guarded hi hguard).2
    rcases (h.ledger x (hhead x rfl)).state with hstate | hstate
    · simp only [stepOf, check_of_normal hstate h₁ h₂ hroom, nspSuccess_zero, if_true] at heq
      cases heq
      rw [granted_fs]
      exact .inl (stays_setHead s.fs e rfl id)
    · have hno : nspSuccess eAcces = false := by decide
      have hpermission : use.permission = .normal ∨ use.permission = .opened := by
        cases use <;> simp [Use.permission]
      simp only [stepOf, check_of_closeWait hstate hpermission, hno, Bool.false_eq_true,
        if_false] at heq
      cases heq
      exact .inl (.refl _ _)
  | read x offset size =>
    cases heq
    exact .inl (stays_of_worked (worked_readBytes h.space (hhead x rfl) _ _) e)
  | write x data offset size =>
    obtain ⟨⟨r, fs''⟩, hr, rfl⟩ := Option.map_eq_some_iff.mp heq
    exact .inl (stays_of_worked (worked_writeBody h.space (hhead x rfl) hr) e)
  | mark x =>
    cases heq
    exact .inl (stays_setHead s.fs e rfl id)
  | tryDelete x =>
    cases heq
    show Stays s.fs (tryDeleteHead s.fs x .normal) e ∨ _
    have hrefcnt := (h.ledger x (hhead x rfl)).refcnt
    have hle : 1 ≤ s.total .refs x := weight_le_total hi rfl .refs
    rw [tryDeleteHead_eq (by omega)]
    exact .inl (stays_setHead s.fs e rfl fun _ => rfl)
  | dereference x io n =>
    have hold := h.ledger x (hhead x rfl)
    have hrefcnt := hold.refcnt
    have hiorefcnt := hold.ioRefcnt
    have hle : n + 1 ≤ s.total .refs x := weight_le_total hi rfl .refs
    have hle' : io = true → n + 1 ≤ s.total .ios x := by
      rintro rfl
      exact weight_le_total hi rfl .ios
    rw [stepOf, dropReference_eq (by omega) (fun hio => by have := hle' hio; omega)] at heq
    cases heq
    exact .inl (stays_setHead s.fs e rfl id)
  | free x io n =>
    replace hguard := seeks_of_guarded hi hguard
    rw [(h.free_eq hi hguard).1] at heq
    cases heq
    obtain ⟨hx, -, hhard, -⟩ := h.before_free hi
    by_cases hex : e = x
    · subst hex
      exact .inr (h.gone hx hhard)
    · have hdel := freeHead_eased h.space hx hhard
      have hheads : (freeHead s.fs x).heads e = s.fs.heads e := freeHead_heads_ne hhard hex
      refine .inl ⟨fun he => ?_, fun hc => ?_, chain_of_elements (congrArg Head.elements hheads)⟩
      · show e ∈ (freeHead s.fs x).entries
        rw [show (freeHead s.fs x).entries = s.fs.entries.erase x from hdel.entries]
        exact (List.mem_erase_of_ne hex).mpr he
      · exact (congrArg Head.state hheads).trans hc
  | dangling => exact absurd (List.mem_of_getElem? hi) h.dangling
  | done => cases heq
  | _ =>
    cases heq
    exact .inl (.refl _ _)

/-- A step leaves a deleted entry as it is, or frees it. -/
theorem Inv.deleted_step (h : Inv s) (hd : s.Deleted e) {a : Act} (ha : GuardedStep s a s') :
    (s'.Deleted e ∧ s.fs.chain e <+: s'.fs.chain e) ∨ Gone s.fs s'.fs e := by
  have hstays : Stays s.fs s'.fs e ∨ Gone s.fs s'.fs e := by
    obtain ⟨hguard, hact⟩ := ha
    cases a with
    | step i =>
      obtain ⟨pc, hi, heq⟩ := Option.bind_eq_some_iff.mp hact
      exact h.stays hi hguard heq hd
    | createOne key =>
      cases key with
      | _ =>
        cases hact
        exact .inl (.refl _ _)
    | closeOne entryId =>
      rw [act] at hact
      split at hact
      · cases hact
        exact .inl (.refl _ _)
      · cases hact
    | _ =>
      cases hact
      exact .inl (.refl _ _)
  exact hstays.imp_left fun hs => ⟨⟨hs.entries hd.1, hs.state hd.2⟩, hs.chain⟩

/-- **A run** leaves a deleted entry as it is, until a step frees it. -/
theorem Inv.deleted_run {acts : List Act} (hrun : Run GuardedStep s acts s') :
    Inv s → s.Deleted e → (s'.Deleted e ∧ s.fs.chain e <+: s'.fs.chain e) ∨
      ∃ before a after t t', acts = before ++ a :: after ∧ Run GuardedStep s before t ∧
        s.fs.chain e <+: t.fs.chain e ∧ GuardedStep t a t' ∧ Gone t.fs t'.fs e ∧
        Run GuardedStep t' after s' := by
  induction hrun with
  | nil s => exact fun _ hd => .inl ⟨hd, List.prefix_rfl⟩
  | @cons s t s' a acts hs hrun ih =>
    intro h hd
    rcases h.deleted_step hd hs with ⟨hd', hchain⟩ | hgone
    · rcases ih (h.guardedStep hs) hd' with ⟨hd'', hchain'⟩ |
          ⟨before, a', after, t₁, t₂, heq, hrun₁,
        hchain', hstep, hgone, hrun₂⟩
      · exact .inl ⟨hd'', hchain.trans hchain'⟩
      · exact .inr ⟨a :: before, a', after, t₁, t₂, by rw [heq, List.cons_append], .cons hs hrun₁,
          hchain.trans hchain', hstep, hgone, hrun₂⟩
    · exact .inr ⟨[], a, acts, s, t, rfl, .nil s, List.prefix_rfl, hs, hgone, hrun⟩

theorem exists_of_total {kind : Kind} (h : 0 < s.total kind e) :
    ∃ pc ∈ s.calls, 0 < pc.tally kind e := by
  by_contra hno
  have hzero : s.total kind e = 0 := total_eq_zero.mpr fun pc hpc =>
    Nat.eq_zero_of_not_pos fun hpos => hno ⟨pc, hpc, hpos⟩
  omega

/-- A call that has a reference, or frees the head. -/
theorem head_of_tally {kind : Kind} (hkind : kind = .refs ∨ kind = .frees)
    (h : 0 < pc.tally kind e) : pc.head = some e ∧ pc.seeks e = false := by
  rw [Pc.tally] at h
  split at h
  · rename_i hentry
    rcases hkind with rfl | rfl
    · cases pc with
      | search id use => cases use <;> exact absurd h (Nat.lt_irrefl 0)
      | check x use => exact absurd h (Nat.lt_irrefl 0)
      | enter x => exact absurd h (Nat.lt_irrefl 0)
      | _ => exact ⟨hentry, rfl⟩
    · cases pc with
      | search id use => cases use <;> exact absurd h (Nat.lt_irrefl 0)
      | check x use => exact absurd h (Nat.lt_irrefl 0)
      | enter x => exact absurd h (Nat.lt_irrefl 0)
      | _ => exact ⟨hentry, rfl⟩
  · exact absurd h (Nat.lt_irrefl 0)

/-- A deleted entry that is not freed yet has a reference, or is about to be freed. -/
theorem Inv.inUse (h : Inv s) (hd : s.Deleted e) : 0 < s.handles e ∨
    ∃ pc ∈ s.calls, pc.handles e = true ∨ pc.head = some e ∧ pc.seeks e = false := by
  have hold := h.ledger e hd.1
  have hrefcnt := hold.refcnt
  have hfrees := hold.frees
  by_cases hhandles : 0 < s.handles e
  · exact .inl hhandles
  right
  by_cases hhandle : 0 < s.total .handle e
  · obtain ⟨pc, hpc, hpos⟩ := exists_of_total hhandle
    rw [tally_handle] at hpos
    split at hpos
    · exact ⟨pc, hpc, .inl ‹_›⟩
    · exact absurd hpos (Nat.lt_irrefl 0)
  by_cases hrefs : 0 < s.total .refs e
  · obtain ⟨pc, hpc, hpos⟩ := exists_of_total hrefs
    exact ⟨pc, hpc, .inr (head_of_tally (.inl rfl) hpos)⟩
  · rw [if_pos ⟨hd.2, by omega⟩] at hfrees
    obtain ⟨pc, hpc, hpos⟩ := exists_of_total (Nat.lt_of_lt_of_eq Nat.one_pos hfrees.symm)
    exact ⟨pc, hpc, .inr (head_of_tally (.inr rfl) hpos)⟩

/-- What the invariant says of the entries that were deleted. -/
theorem Inv.kept (h : Inv s) : Kept s where
  deletes := fun i e hi s' hs => by
    obtain ⟨-, hact⟩ := hs
    have hact' : s.calls[i]?.bind (stepOf s i) = some s' := hact
    rw [hi] at hact'
    cases hact'
    have he : e ∈ s.fs.entries := h.head _ (List.mem_of_getElem? hi) e rfl
    have hrefcnt := (h.ledger e he).refcnt
    have hle : 1 ≤ s.total .refs e := weight_le_total hi rfl .refs
    show e ∈ (tryDeleteHead s.fs e .normal).entries ∧
      ((tryDeleteHead s.fs e .normal).heads e).state = .closeWait
    rw [tryDeleteHead_eq (by omega), setHead_heads_self]
    exact ⟨he, rfl⟩
  fault := ⟨h.fault, h.steady.defined⟩
  refuses := fun e hd permission hp => check_of_closeWait hd.2 hp
  inUse := fun e hd => h.inUse hd
  owned := fun e hd v hv => by
    have hbusy := h.space.mem_busy hd.1 hv
    refine ⟨hbusy, h.space.vol.busy_notMem_idle hbusy, fun e' he' hv' => ?_⟩
    by_contra hne
    exact h.space.chain_disjoint hd.1 he' (Ne.symm hne) hv hv'
  later := fun e hd acts s' hrun => Inv.deleted_run hrun h hd

/-! ## A new file system -/

theorem inv_init (hspace : Space fs' []) (hsteady : fs'.Steady) (hentries : fs'.entries = [])
    (hnamed : fs'.rootOfNamedEntriesTree = .nil) : Inv (init fs') where
  fault := rfl
  dangling := List.not_mem_nil
  space := hspace.congr_heads fun x hx => by
    rw [hentries] at hx
    cases hx
  steady := hsteady
  index := (named_nil hnamed hentries).toIndexed
  ledger := fun x hx => by
    have hx' : x ∈ fs'.entries := hx
    rw [hentries] at hx'
    cases hx'
  head := fun pc hpc => absurd hpc List.not_mem_nil
  handle := fun _ _ => ⟨rfl, rfl⟩

/-- The managers of a file of one cluster: there is no entry, and no call gets beyond its search. -/
structure Shut (s : State) : Prop where
  dead : Dead s.fs
  defined : s.fs.Defined
  named : s.fs.rootOfNamedEntriesTree = .nil
  fault : s.fault = false
  head : ∀ pc ∈ s.calls, pc.head = none ∧ pc ≠ .dangling

theorem Shut.start (h : Shut s) (hhead : pc.head = none) (hdangling : pc ≠ .dangling) :
    Shut (s.start pc) := by
  refine ⟨h.dead, h.defined, h.named, h.fault, fun q hq => ?_⟩
  rcases List.mem_append.mp hq with hq | hq
  · exact h.head q hq
  · rw [List.mem_singleton.mp hq]
    exact ⟨hhead, hdangling⟩

theorem Shut.move (h : Shut s) (hhead : pc'.head = none) (hdangling : pc' ≠ .dangling) :
    Shut (s.move i pc') := by
  refine ⟨h.dead, h.defined, h.named, h.fault, fun q hq => ?_⟩
  rcases List.mem_or_eq_of_mem_set hq with hq | rfl
  · exact h.head q hq
  · exact ⟨hhead, hdangling⟩

theorem Shut.searchNamed (h : Shut s) {key : List UInt8} {found : Option Int}
    (hfound : searchNamedHead s.fs key = some found) : found = none := by
  rw [searchNamedHead, h.named] at hfound
  split at hfound
  · exact (Option.some.inj hfound).symm
  · cases hfound

theorem Dead.insertNew_eq {fs : Fs} (h : Dead fs) (key : Option (List UInt8)) :
    insertNew fs key = (eNospc, 0, fs) := by
  rw [insertNew, viewAcquireIdle, if_pos (by rw [h.total])]
  rfl

theorem Shut.step (h : Shut s) (hi : s.calls[i]? = some pc) (heq : stepOf s i pc = some s') :
    Shut s' := by
  have hhead := (h.head pc (List.mem_of_getElem? hi)).1
  cases pc with
  | createSearch key =>
    obtain ⟨found, hfound, rfl⟩ := Option.map_eq_some_iff.mp heq
    rw [h.searchNamed hfound]
    exact h.move rfl (by rintro ⟨⟩)
  | create key =>
    have hno : nspSuccess eNospc = false := by decide
    rw [stepOf, Dead.insertNew_eq h.dead] at heq
    simp only [hno, Bool.false_eq_true, if_false] at heq
    cases heq
    exact h.move rfl (by rintro ⟨⟩)
  | search id use =>
    have hsearch : searchHead s.fs id = none := by
      rw [searchHead, h.dead.tree]
      rfl
    rw [stepOf, hsearch] at heq
    cases heq
    exact h.move rfl (by rintro ⟨⟩)
  | openSearch key =>
    obtain ⟨found, hfound, rfl⟩ := Option.map_eq_some_iff.mp heq
    rw [h.searchNamed hfound]
    exact h.move rfl (by rintro ⟨⟩)
  | deleteSearch key =>
    obtain ⟨found, hfound, rfl⟩ := Option.map_eq_some_iff.mp heq
    rw [h.searchNamed hfound]
    exact h.move rfl (by rintro ⟨⟩)
  | dangling => exact absurd rfl (h.head _ (List.mem_of_getElem? hi)).2
  | done => cases heq
  | _ => cases hhead

theorem Shut.guardedStep (h : Shut s) {a : Act} (ha : GuardedStep s a s') : Shut s' := by
  obtain ⟨-, hact⟩ := ha
  cases a with
  | step i =>
    obtain ⟨pc, hi, heq⟩ := Option.bind_eq_some_iff.mp hact
    exact h.step hi heq
  | createOne key =>
    cases key with
    | _ =>
      cases hact
      exact h.start rfl (by rintro ⟨⟩)
  | closeOne entryId =>
    rw [act] at hact
    split at hact
    · cases hact
      exact ⟨h.dead, h.defined, h.named, h.fault, (h.start rfl (by rintro ⟨⟩)).head⟩
    · cases hact
  | readData entryId offset size =>
    cases hact
    split
    · exact h.start rfl (by rintro ⟨⟩)
    · exact h.start rfl (by rintro ⟨⟩)
  | writeData entryId data offset size =>
    cases hact
    split
    · exact h.start rfl (by rintro ⟨⟩)
    · exact h.start rfl (by rintro ⟨⟩)
  | _ =>
    cases hact
    exact h.start rfl (by rintro ⟨⟩)

theorem Shut.kept (h : Shut s) : Kept s := by
  have hno : ∀ e, ¬s.Deleted e := fun e hd => by
    have hmem := hd.1
    rw [h.dead.entries] at hmem
    cases hmem
  exact { fault := ⟨h.fault, h.defined⟩
          deletes := fun i e hi => by cases (h.head _ (List.mem_of_getElem? hi)).1
          refuses := fun e hd => absurd hd (hno e)
          inUse := fun e hd => absurd hd (hno e)
          owned := fun e hd => absurd hd (hno e)
          later := fun e hd => absurd hd (hno e) }

variable {garbage : Garbage} {clusterSize clusterCount status : Int} {fs₀ : Fs}
  {cacheBlockNum : Nat}

theorem guardedStep_of_exec (s : State) (a : Act) (s' : State)
    (h : (if guarded s a then act s a else none) = some s') : GuardedStep s a s' := by
  split at h
  · exact ⟨‹_›, h⟩
  · cases h

end Deletion

end Evfs

end LibNax
