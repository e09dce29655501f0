import LibNax.Evfs.View

/-!
# The entries

An entry is a chain of clusters: the head holds the key and the first bytes of the data, the
elements hold the rest.  The manager keeps a list of the heads and two indexes, by number and by
key.

* `Head`, `Fs` — an entry, and the manager of `entries.c` over the views.
* `referenceHead`, `dereferenceHead`, `tryDeleteHead`, `freeHead` — the life of an entry.
* `createOne`, `openOne`, `closeOne`, `hardDelete` — the calls on whole entries, by number or by
  key.
* `writeData`, `readData`, `truncate` — the bytes of an entry, and how many there are.
* `entriesCreate`, `entriesLoad`, `entriesUninit` — starting and stopping.

A head is named by the number of its view, an element by the number of its own.  A call that reads
memory it does not own, or breaks an assertion, has no result.  In two places the source reads such
memory and can go on: `strcmp` and `strlen` of a key without an end, and the task of an expansion
that was freed.  There the model sets a flag and goes on with what the source finds if nobody has
used the memory again.  The counters are of type `int`, and run over.
-/

set_option autoImplicit false

namespace LibNax

namespace Evfs

open Lib (int32)

/-! ## The manager -/

/-- `-ENOSPC`. -/
def eNospc : Int := -28

/-- `-EACCES`. -/
def eAcces : Int := -13

/-- `MAX_ENTRY_NAME_LENGTH`. -/
def maxEntryNameLength : Nat := 32

/-- `enum evfs_entry_state`: the states of an entry, and what a reference is taken for. -/
inductive EntryState where
  /-- `kEvfsEntryNormal`. -/
  | normal
  /-- `kEvfsEntryCloseWait`. -/
  | closeWait
  /-- `kEvfsEntryBusy`. -/
  | busy
  /-- `kEvfsEntryOpen`. -/
  | opened
  /-- `kEvfsEntryMandatory`. -/
  | mandatory
deriving DecidableEq

/-- `struct evfs_entry_head`. -/
structure Head where
  /-- The views of the elements, in order. -/
  elements : List Int
  countOfElements : Int
  refcnt : Int
  ioRefcnt : Int
  state : EntryState
  /-- Whether the clusters are given back with the head. -/
  hardRemoveOnDetach : Bool
  /-- The key, in a buffer of `maxEntryNameLength` bytes. -/
  key : List UInt8
deriving DecidableEq

/-- `leaf_of_named_entries_tree`: a node of the index by key. -/
structure NamedLeaf where
  key : List UInt8
  /-- The head. -/
  head : Int

/-- The manager of `entries.c`. -/
structure Fs where
  /-- The views. -/
  vol : Vol
  /-- The heads. -/
  heads : Int → Head
  /-- The list of the heads. -/
  entries : List Int
  rootOfEntriesTree : Avl.Tree Int
  rootOfNamedEntriesTree : Avl.Tree NamedLeaf
  countOfEntries : Int
  /-- The elements that no head was found for yet. -/
  wild : List Int
  countOfWildEntriesElement : Int
  maxDataSegSize : Int
  /-- Whether two keys were compared behind the ends of their buffers. -/
  fault : Bool

/-- What was in the memory that the code does not initialize. -/
structure Garbage where
  /-- The buffers of the blocks of the cache. -/
  blocks : Nat → List UInt8
  /-- The headers of the views. -/
  views : Int → Cluster
  /-- The header on the stack of `evfs_view_load`. -/
  cluster : Cluster
  /-- The pointer to the head in an element; `none` is the null pointer. -/
  entryHead : Int → Option Int

/-- `__evfs_entries_compare_entry_head`. -/
def compareEntryHead (left right : Int) : Int := viewCompare left right

/-- Whether `strcmp` reads behind one of the buffers: they are the same up to the end of the shorter
one, and no zero is in front of it. -/
def readsBehind : List UInt8 → List UInt8 → Bool
  | [], _ => true
  | _ :: _, [] => true
  | a :: left, b :: right => decide (a = b) && decide (a ≠ 0) && readsBehind left right

/-- `strcmp` of two buffers.  Where it reads behind them the result may be anything: the model takes
the end of a buffer for the end of its string, and counts what happened as a fault. -/
def strcmp : List UInt8 → List UInt8 → Int
  | [], [] => 0
  | [], b :: _ => -b.toNat
  | a :: _, [] => a.toNat
  | a :: left, b :: right =>
    if a ≠ b then (a.toNat : Int) - b.toNat else if a = 0 then 0 else strcmp left right

/-- `__evfs_entries_compare_named_entry_head`. -/
def compareNamedEntryHead (left right : NamedLeaf) : Int := strcmp left.key right.key

namespace Fs

def setVol (s : Fs) (vol : Vol) : Fs := { s with vol }

/-- Writing to a head. -/
def setHead (s : Fs) (e : Int) (head : Head) : Fs :=
    { s with heads := Function.update s.heads e head }

def alloc (s : Fs) : Bool × Fs := (s.vol.alloc.1, s.setVol s.vol.alloc.2)

end Fs

/-- `__evfs_entries_search_head`. -/
def searchHead (s : Fs) (viewid : Int) : Option Int :=
  Avl.avlsearch compareEntryHead s.rootOfEntriesTree viewid

/-- `__evfs_entries_search_named_head`.  The key is copied to the stack; a key that is too long for
the buffer there destroys it. -/
def searchNamedHead (s : Fs) (key : List UInt8) : Option (Option Int) :=
  if (cstring key).length < maxEntryNameLength then
    some ((Avl.avlsearch compareNamedEntryHead s.rootOfNamedEntriesTree ⟨cstring key, 0⟩).map
      NamedLeaf.head)
  else none

/-! ## References -/

/-- `__evfs_entries_check_reference_condition`.  The counters are `int`s. -/
def checkReferenceCondition (s : Fs) (e : Int) (permission : EntryState) : Int × Fs :=
  let head := s.heads e
  match permission with
  | .normal =>
    if head.state ≠ .normal then (eAcces, s)
    else (0, s.setHead e { head with
      refcnt := int32 (head.refcnt + 1), ioRefcnt := int32 (head.ioRefcnt + 1) })
  | .opened =>
    if head.state ≠ .normal then (eAcces, s)
    else (0, s.setHead e { head with refcnt := int32 (head.refcnt + 1) })
  | .busy =>
    if head.state ≠ .normal then (eAcces, s)
    else if head.ioRefcnt ≠ 0 then (eBusy, s)
    else (0, s.setHead e { head with refcnt := int32 (head.refcnt + 1), state := .busy })
  | _ => (0, s)

/-- `__evfs_entries_reference_head`: the head, or a status. -/
def referenceHead (s : Fs) (viewid : Int) (permission : EntryState) : Except Int Int × Fs :=
  match searchHead s viewid with
  | none => (.error eNoent, s)
  | some e =>
    let r := checkReferenceCondition s e permission
    (if nspSuccess r.1 then .ok e else .error r.1, r.2)

/-- `__evfs_entries_reference_head_by_name`. -/
def referenceHeadByName (s : Fs) (key : List UInt8) (permission : EntryState) :
    Option (Except Int Int × Fs) :=
  (searchNamedHead s key).map fun found =>
    match found with
    | none => (.error eNoent, s)
    | some e =>
      let r := checkReferenceCondition s e permission
      (if nspSuccess r.1 then .ok e else .error r.1, r.2)

/-- `__evfs_entries_free_element`, for an element with a head. -/
def freeElement (s : Fs) (e view : Int) : Fs :=
  let head := s.heads e
  let s := s.setHead e { head with elements := head.elements.erase view,
                                   countOfElements := head.countOfElements - 1 }
  if head.hardRemoveOnDetach then s.setVol (viewMoveToIdle s.vol view).2 else s

/-- The loop that frees the elements of a head. -/
def freeElements (s : Fs) (e : Int) : Fs :=
  (s.heads e).elements.foldl (fun s view => freeElement s e view) s

/-- The first part of `__evfs_entries_free_head`: out of the list and of the indexes. -/
def detachHead (s : Fs) (e : Int) : Fs :=
  let s := { s with
    entries := s.entries.erase e
    rootOfEntriesTree := (Avl.avlremove compareEntryHead s.rootOfEntriesTree e none).1
    countOfEntries := s.countOfEntries - 1 }
  let key := (s.heads e).key
  if key.headD 0 ≠ 0 then
    { s with
      rootOfNamedEntriesTree :=
        (Avl.avlremove compareNamedEntryHead s.rootOfNamedEntriesTree ⟨key, e⟩ none).1
      fault := s.fault || (Avl.removeComparisons compareNamedEntryHead s.rootOfNamedEntriesTree
        ⟨key, e⟩).any fun p => readsBehind p.1.key p.2.key }
  else s

/-- `__evfs_entries_free_head`. -/
def freeHead (s : Fs) (e : Int) : Fs :=
  let s := freeElements (detachHead s e) e
  if (s.heads e).hardRemoveOnDetach then s.setVol (viewMoveToIdle s.vol e).2 else s

/-- `__evfs_entries_dereference_head`, with its assertions. -/
def dereferenceHead (s : Fs) (e : Int) (permission : EntryState) : Option Fs :=
  let head := s.heads e
  if head.refcnt ≤ 0 ∨ (permission = .normal ∧ head.ioRefcnt ≤ 0) then none
  else
    let s := s.setHead e { head with
      refcnt := head.refcnt - 1
      ioRefcnt := if permission = .normal then head.ioRefcnt - 1 else head.ioRefcnt
      state := if permission = .busy ∧ head.state = .busy then .normal else head.state }
    if (s.heads e).refcnt = 0 ∧ (s.heads e).state = .closeWait then some (freeHead s e) else some s

/-- `__evfs_entries_try_delete_head`. -/
def tryDeleteHead (s : Fs) (e : Int) (permission : EntryState) : Fs :=
  let head := s.heads e
  let s := s.setHead e { head with
    state := .closeWait
    refcnt := if permission = .mandatory ∧ head.ioRefcnt = 0 then 0 else head.refcnt }
  if (s.heads e).refcnt = 0 then freeHead s e else s

/-! ## Making entries -/

/-- `__evfs_entries_insert_head`. -/
def insertHead (s : Fs) (e : Int) : Fs :=
  let s := { s with
    entries := s.entries ++ [e]
    countOfEntries := s.countOfEntries + 1
    rootOfEntriesTree := Avl.avlinsert compareEntryHead s.rootOfEntriesTree e }
  let key := (s.heads e).key
  if key.headD 0 ≠ 0 then
    { s with
      rootOfNamedEntriesTree := Avl.avlinsert compareNamedEntryHead s.rootOfNamedEntriesTree ⟨key, e⟩
      fault := s.fault || (Avl.path compareNamedEntryHead s.rootOfNamedEntriesTree
        ⟨key, e⟩).any fun leaf => readsBehind key leaf.key }
  else s

/-- `strncpy` of a key into a buffer of zeros that keeps its last byte. -/
def storedKey (key : List UInt8) : List UInt8 :=
  Lib.overwrite (List.replicate maxEntryNameLength 0) 0
    ((cstring key).take (maxEntryNameLength - 1))

/-- The key that a new head gets: it is read off the view where none is given. -/
def loadKey (s : Vol) (view : Int) : Option (List UInt8) → List UInt8 × Vol
  | some key => (storedKey key, s)
  | none =>
    let r := viewReadUserdata s view 0 maxEntryNameLength
    (Lib.overwrite (List.replicate maxEntryNameLength 0) 0 r.2.1, r.2.2)

/-- `__evfs_entries_alloc_head`: whether there is a head now. -/
def allocHead (s : Fs) (view : Int) (key : Option (List UInt8)) : Bool × Fs :=
  let s' := s.alloc.2
  if s.alloc.1 then
    let r := loadKey s'.vol view key
    (true, (s'.setVol (viewSetHead r.2 view none).2).setHead view
      ⟨[], 0, 0, 0, .normal, false, r.1⟩)
  else (false, s')

/-- `__evfs_entries_alloc_element`: whether there is an element now. -/
def allocElement (s : Fs) (view e : Int) : Bool × Fs :=
  let s' := s.alloc.2
  if s.alloc.1 then
    let s' := s'.setVol (viewSetHead s'.vol view (some e)).2
    let head := s'.heads e
    (true, s'.setHead e { head with elements := head.elements ++ [view],
                                    countOfElements := head.countOfElements + 1 })
  else (false, s')

/-- The end of `evfs_entries_create_one` after a failure. -/
def giveBack (s : Fs) (status view : Int) : Int × Int × Fs :=
  (status, 0, s.setVol (viewMoveToIdle s.vol view).2)

/-- The end of `evfs_entries_create_one` after a success. -/
def enter (s : Fs) (view : Int) : Int × Int × Fs :=
  let r := referenceHead (insertHead s view) view .opened
  (match r.1 with
    | .ok _ => 0
    | .error status => status, view, r.2)

/-- The part of `evfs_entries_create_one` after the search: the status, and the number of the
entry. -/
def createNew (s : Fs) (key : Option (List UInt8)) : Int × Int × Fs :=
  let r := viewAcquireIdle s.vol
  match r.1 with
  | none => (eNospc, 0, s.setVol r.2)
  | some view =>
    let a := allocHead (s.setVol r.2) view key
    if a.1 then
      let d := viewSetHeadDataSegSize a.2.vol view maxEntryNameLength
      if nspSuccess d.1 then
        let w := viewWriteUserdata d.2 view (a.2.heads view).key 0
        if nspSuccess w.1 then enter (a.2.setVol w.2) view
        else giveBack (a.2.setVol w.2) w.1 view
      else giveBack (a.2.setVol d.2) d.1 view
    else giveBack a.2 eNomem view

/-- `evfs_entries_create_one`. -/
def createOne (s : Fs) (key : Option (List UInt8)) : Option (Int × Int × Fs) :=
  match key with
  | none => some (createNew s none)
  | some k =>
    match searchNamedHead s k with
    | none => none
    | some (some _) => some (eExist, 0, s)
    | some none => some (createNew s (some k))

/-- `evfs_entries_open_one`. -/
def openOne (s : Fs) (entryId : Int) : Int × Fs :=
  let r := referenceHead s entryId .opened
  (match r.1 with
    | .ok _ => 0
    | .error status => status, r.2)

/-- `evfs_entries_close_one`. -/
def closeOne (s : Fs) (entryId : Int) : Option Fs :=
  let r := referenceHead s entryId .opened
  match r.1 with
  | .error _ => some r.2
  | .ok e => (dereferenceHead r.2 e .opened).bind fun s => dereferenceHead s e .opened

/-- `evfs_entries_hard_delete`. -/
def hardDelete (s : Fs) (entryId : Int) : Option (Int × Fs) :=
  let r := referenceHead s entryId .normal
  match r.1 with
  | .error status => some (status, r.2)
  | .ok e =>
    let s := r.2.setHead e { r.2.heads e with hardRemoveOnDetach := true }
    (dereferenceHead (tryDeleteHead s e .normal) e .normal).map fun s => (0, s)

/-- `evfs_entries_open_one_by_name`: the number of the entry, or a status. -/
def openOneByName (s : Fs) (key : List UInt8) : Option (Except Int Int × Fs) :=
  (referenceHeadByName s key .opened).map fun r =>
    (match r.1 with
      | .error _ => .error eNoent
      | .ok e => .ok e, r.2)

/-- `evfs_entries_hard_delete_by_name`. -/
def hardDeleteByName (s : Fs) (key : List UInt8) : Option (Int × Fs) :=
  (referenceHeadByName s key .normal).bind fun r =>
    match r.1 with
    | .error status => some (status, r.2)
    | .ok e =>
      let s := r.2.setHead e { r.2.heads e with hardRemoveOnDetach := true }
      (dereferenceHead (tryDeleteHead s e .normal) e .normal).map fun s => (0, s)

/-- `evfs_entries_get_entry_id_by_name`. -/
def getEntryIdByName (s : Fs) (key : List UInt8) : Option (Int × Fs) :=
  (referenceHeadByName s key .normal).bind fun r =>
    match r.1 with
    | .error status => some (status, r.2)
    | .ok e => (dereferenceHead r.2 e .normal).map fun s => (e, s)

/-! ## Elements -/

/-- The loop of `__evfs_entries_alloc_idle_elements_for_head` over the views it has got; `last` is
the end of the chain.  False when an allocation fails. -/
def linkViews : List Int → Int → Fs → Int → Bool × Fs
  | [], _, s, _ => (true, s)
  | view :: views, last, s, e =>
    let r := allocElement s view e
    if r.1 then linkViews views view (r.2.setVol (viewSetNext r.2.vol last (some view)).2) e
    else (false, r.2)

/-- Writing the headers of the elements, up to the first failure. -/
def writeHeads : List Int → Int → Vol → Int × Vol
  | [], status, s => (status, s)
  | view :: views, _, s =>
    let r := viewWriteHead s view
    if nspSuccess r.1 then writeHeads views r.1 r.2 else r

/-- The end of `__evfs_entries_alloc_idle_elements_for_head`: the headers are written again. -/
def writeChain (s : Fs) (e : Int) (coverHead : Bool) : Int × Fs :=
  let r := writeHeads (s.heads e).elements 0 s.vol
  if coverHead ∧ nspSuccess r.1 then
    let r := viewWriteHead r.2 e
    (r.1, s.setVol r.2)
  else (r.1, s.setVol r.2)

/-- `__evfs_entries_alloc_idle_elements_for_head`.  When an allocation fails every element of the
head is freed, the ones it had before, too. -/
def allocIdleElementsForHead (s : Fs) (e : Int) (quotaOfClustersRequire : Nat) : Int × Fs :=
  if quotaOfClustersRequire = 0 then (0, s)
  else if s.alloc.1 then
    let s := s.alloc.2
    let r := viewAcquireIdleMore quotaOfClustersRequire s.vol
    match r.1 with
    | .error status => (status, s.setVol r.2)
    | .ok views =>
      let elements := (s.heads e).elements
      let l := linkViews views (elements.getLastD e) (s.setVol r.2) e
      if l.1 then writeChain l.2 e elements.isEmpty else (eNomem, freeElements l.2 e)
  else (eNomem, s.alloc.2)

/-- How much a write copies to an element, and the size that the element has then. -/
def elementShare (s : Fs) (view elemOffset remain : Int) : Int × Vol :=
  let segSize := viewGetDataSegSize s.vol view
  if segSize > 0 then (min remain segSize, s.vol)
  else
    let cpsize := min remain (s.maxDataSegSize - elemOffset)
    (cpsize, (viewSetElementDataSegSize s.vol view (elemOffset + cpsize)).2)

/-- The element at a position of the list, or a new one behind its last one: a status and the
position. -/
def elementAt (s : Fs) (e : Int) (i : Nat) : Int × Nat × Fs :=
  if i < (s.heads e).elements.length then (0, i, s)
  else
    let a := allocIdleElementsForHead s e 1
    (a.1, (a.2.heads e).elements.length - 1, a.2)

/-- `__evfs_entries_write_element` for the element at a position.  `data` is what is left of the
buffer of the caller.  Every round copies at least one byte. -/
def writeElement : Nat → Fs → Int → Nat → List UInt8 → Int → Int → Option (Int × Fs)
  | 0, s, _, _, _, _, _ => some (0, s)
  | n + 1, s, e, i, data, elemOffset, remain =>
    if remain ≤ 0 ∨ elemOffset < 0 ∨ elemOffset ≥ s.maxDataSegSize then some (0, s)
    else
      let a := elementAt s e i
      if nspSuccess a.1 then
        let view := (a.2.2.heads e).elements.getD a.2.1 0
        let r := elementShare a.2.2 view elemOffset remain
        if r.1 > data.length then none
        else
          let w := viewWriteUserdata r.2 view (data.take r.1.toNat) elemOffset
          let s := a.2.2.setVol w.2
          if w.1 ≠ r.1 ∨ remain = w.1 then some (w.1, s)
          else
            (writeElement n s e (a.2.1 + 1) (data.drop w.1.toNat) 0 (remain - w.1)).map fun r =>
              (w.1 + r.1, r.2)
      else some (0, a.2.2)

/-- One round of the loop of `evfs_entries_write_data`: the next position, and by how much the
offset gets smaller, or a status. -/
def passElement (s : Fs) (e : Int) (i : Nat) : Except Int (Nat × Int) × Fs :=
  if i < (s.heads e).elements.length then
    let segSize := viewGetDataSegSize s.vol ((s.heads e).elements.getD i 0)
    (.ok (i + 1, if segSize > 0 then segSize else s.maxDataSegSize), s)
  else
    let a := allocIdleElementsForHead s e 1
    if nspSuccess a.1 then
      let i := (a.2.heads e).elements.length - 1
      let view := (a.2.heads e).elements.getD i 0
      -- a new element on the way is used in full
      (.ok (i + 1, s.maxDataSegSize),
        a.2.setVol (viewSetElementDataSegSize a.2.vol view s.maxDataSegSize).2)
    else (.error a.1, a.2)

/-- The loop of `evfs_entries_write_data` that looks for the element at an offset: its position and
the offset in it, or a status.  Every round makes the offset smaller. -/
def seekElement : Nat → Fs → Int → Nat → Int → Except Int (Nat × Int) × Fs
  | 0, s, _, i, inner => (.ok (i, inner), s)
  | n + 1, s, e, i, inner =>
    if inner ≥ s.maxDataSegSize then
      let r := passElement s e i
      match r.1 with
      | .ok p => seekElement n r.2 e p.1 (inner - p.2)
      | .error status => (.error status, r.2)
    else (.ok (i, inner), s)

/-- The length of an entry is set where the write ends behind it. -/
def stretchHead (s : Fs) (e size : Int) : Fs :=
  if size > viewGetDataSegSize s.vol e then s.setVol (viewSetHeadDataSegSize s.vol e size).2 else s

/-- The part of `evfs_entries_write_data` that writes to the head first. -/
def writeFromHead (s : Fs) (e : Int) (data : List UInt8) (cpoff size : Int) : Option (Int × Fs) :=
  let cpsize := min (int32 (s.maxDataSegSize - cpoff)) size
  if cpsize > data.length then none
  else
    let w := viewWriteUserdata s.vol e (data.take cpsize.toNat) cpoff
    let s := s.setVol w.2
    let cpremain := size - w.1
    if cpremain = 0 then some (cpsize, s)
    else if cpsize < 0 then none
    else
      (writeElement cpremain.toNat s e 0 (data.drop cpsize.toNat) 0 cpremain).map fun r =>
        (cpsize + r.1, r.2)

/-- The part of `evfs_entries_write_data` that starts behind the head. -/
def writeBehindHead (s : Fs) (e : Int) (data : List UInt8) (cpoff size : Int) : Option (Int × Fs) :=
  let inner := cpoff - s.maxDataSegSize
  let r := seekElement inner.toNat s e 0 inner
  match r.1 with
  | .error status => some (status, r.2)
  | .ok p => writeElement size.toNat r.2 e p.1 data p.2 size

/-- `evfs_entries_write_data`. -/
def writeData (s : Fs) (entryId : Int) (data : List UInt8) (offset size : Int) :
    Option (Int × Fs) :=
  if entryId ≤ 0 ∨ size ≤ 0 then some (eInval, s)
  else
    let r := referenceHead s entryId .normal
    match r.1 with
    | .error status => some (status, r.2)
    | .ok e =>
      let cpoff := int32 (offset + maxEntryNameLength)
      let s := stretchHead r.2 e (int32 (cpoff + size))
      let w := if cpoff < s.maxDataSegSize then writeFromHead s e data cpoff size
        else writeBehindHead s e data cpoff size
      w.bind fun r => (dereferenceHead r.2 e .normal).map fun s => (r.1, s)

/-! ## Reading -/

/-- `__evfs_entries_read_element` from an element on: the number it returns, and the bytes. -/
def readElement (s : Fs) : List Int → Int → Int → Int × List UInt8 × Fs
  | [], _, _ => (0, [], s)
  | view :: rest, elemOffset, remain =>
    let segSize := viewGetDataSegSize s.vol view
    if remain ≤ 0 ∨ elemOffset < 0 ∨ elemOffset ≥ s.maxDataSegSize ∨ segSize ≤ 0 then (0, [], s)
    else
      let cpsize := min remain (segSize - elemOffset)
      let r := viewReadUserdata s.vol view elemOffset cpsize
      let s := s.setVol r.2.2
      if r.1 ≠ cpsize ∨ remain = r.1 then (r.1, r.2.1, s)
      else
        let q := readElement s rest 0 (remain - r.1)
        (r.1 + q.1, r.2.1 ++ q.2.1, q.2.2)

/-- The loop of `evfs_entries_read_data` that looks for the element at an offset. -/
def seekRead (s : Fs) : List Int → Int → List Int × Int
  | [], inner => ([], inner)
  | view :: rest, inner =>
    if inner ≥ s.maxDataSegSize then
      let segSize := viewGetDataSegSize s.vol view
      seekRead s rest (if segSize > 0 then inner - segSize else inner)
    else (view :: rest, inner)

/-- The part of `evfs_entries_read_data` between the references. -/
def readBytes (s : Fs) (e cpoff size : Int) : Int × List UInt8 × Fs :=
  let dataSegSize := viewGetDataSegSize s.vol e
  let cpremain := min (int32 (dataSegSize - cpoff)) size
  let elements := (s.heads e).elements
  if dataSegSize ≤ 0 ∨ cpremain ≤ 0 then (0, [], s)
  else if cpoff < s.maxDataSegSize then
    let cpsize := min (int32 (s.maxDataSegSize - cpoff)) cpremain
    let r := viewReadUserdata s.vol e cpoff cpsize
    let s := s.setVol r.2.2
    if r.1 ≠ cpsize ∨ cpremain = r.1 then (cpsize, r.2.1, s)
    else
      let q := readElement s elements 0 (cpremain - r.1)
      (cpsize + q.1, r.2.1 ++ q.2.1, q.2.2)
  else
    let p := seekRead s elements (cpoff - s.maxDataSegSize)
    readElement s p.1 p.2 cpremain

/-- `evfs_entries_read_data`: the number it returns, and the bytes at the start of the buffer. -/
def readData (s : Fs) (entryId offset size : Int) : Option (Int × List UInt8 × Fs) :=
  if entryId < 0 ∨ offset < 0 ∨ size ≤ 0 then some (eInval, [], s)
  else
    let r := referenceHead s entryId .normal
    match r.1 with
    | .error status => some (status, [], r.2)
    | .ok e =>
      let q := readBytes r.2 e (int32 (maxEntryNameLength + offset)) size
      (dereferenceHead q.2.2 e .normal).map fun s => (q.1, q.2.1, s)

/-- `evfs_entries_query_key`: the length, and the string.  A key without an end is read on behind its
buffer. -/
def queryKey (s : Fs) (entryId : Int) : Option (Int × List UInt8 × Fs) :=
  let r := referenceHead s entryId .normal
  match r.1 with
  | .error status => some (status, [], r.2)
  | .ok e =>
    let key := cstring (r.2.heads e).key
    if 0 ∉ (r.2.heads e).key then none
    else (dereferenceHead r.2 e .normal).map fun s => (key.length, key, s)

/-- `evfs_entries_query_user_seg_size`. -/
def queryUserSegSize (s : Fs) (entryId : Int) : Option (Int × Fs) :=
  let r := referenceHead s entryId .normal
  match r.1 with
  | .error status => some (status, r.2)
  | .ok e =>
    let size := viewGetDataSegSize r.2.vol e
    (dereferenceHead r.2 e .normal).map fun s =>
      (if size > 0 then size - maxEntryNameLength else size, s)

/-! ## Truncating -/

/-- The loop of `evfs_entries_truncate` that frees elements, from the last one on. -/
def freeLastElements : Nat → Fs → Int → Option Fs
  | 0, s, _ => some s
  | n + 1, s, e =>
    match (s.heads e).elements.getLast? with
    | none => none
    | some view => freeLastElements n (freeElement s e view) e

/-- The loop of `evfs_entries_truncate` over the new elements: it is the last one in every round. -/
def fillLastElement : Nat → Fs → Int → Option Fs
  | 0, s, _ => some s
  | n + 1, s, e =>
    match (s.heads e).elements.getLast? with
    | none => none
    | some view =>
      fillLastElement n (s.setVol (viewSetElementDataSegSize s.vol view s.maxDataSegSize).2) e

/-- The part of `evfs_entries_truncate` that makes an entry smaller. -/
def shrink (s : Fs) (e size : Int) (quotaOfElementsDiff : Nat) : Option (Int × Fs) :=
  (freeLastElements quotaOfElementsDiff s e).bind fun s =>
    let head := s.heads e
    (if head.countOfElements > 0 then head.elements.getLast? else some e).map fun last =>
      let vol := (viewSetNext s.vol last none).2
      let r := viewSetHeadDataSegSize vol e size
      (r.1, s.setVol r.2)

/-- The part of `evfs_entries_truncate` that makes an entry larger. -/
def enlarge (s : Fs) (e size : Int) (quotaOfElementsRequire : Nat) : Option (Int × Fs) :=
  let r := viewSetHeadDataSegSize s.vol e size
  if nspSuccess r.1 then
    let a := allocIdleElementsForHead (s.setVol r.2) e quotaOfElementsRequire
    if nspSuccess a.1 then
      (fillLastElement quotaOfElementsRequire a.2 e).map fun s => (a.1, s)
    else some a
  else some (r.1, s.setVol r.2)

/-- The part of `evfs_entries_truncate` between the references. -/
def resize (s : Fs) (e size : Int) : Option (Int × Fs) :=
  let quotaOfClustersRequire := viewTransferSizeToClusterCount s.vol size
  let quotaOfElementsRequire := quotaOfClustersRequire - 1
  let countOfElements := (s.heads e).countOfElements
  if size = viewGetDataSegSize s.vol e then some (0, s)
  else if quotaOfClustersRequire ≤ 0 then some (eInval, s)
  else if quotaOfElementsRequire = countOfElements then
    let r := viewSetHeadDataSegSize s.vol e size
    some (r.1, s.setVol r.2)
  else if quotaOfElementsRequire < countOfElements then
    shrink s e size (countOfElements - quotaOfElementsRequire).toNat
  else enlarge s e size quotaOfElementsRequire.toNat

/-- `evfs_entries_truncate`.  The size is with the key. -/
def truncate (s : Fs) (entryId size : Int) : Option (Int × Fs) :=
  let r := referenceHead s entryId .busy
  match r.1 with
  | .error status => some (status, r.2)
  | .ok e =>
    (resize r.2 e size).bind fun q => (dereferenceHead q.2 e .busy).map fun s => (q.1, s)

/-! ## Starting and stopping -/

/-- `__evfs_entries_raw_recognize`. -/
def rawRecognize (s : Fs) (view : Int) : Fs :=
  if (s.vol.cluster view).looksLikeHead then
    let r := allocHead s view none
    if r.1 then insertHead r.2 view else r.2
  else if s.alloc.1 then
    { s.alloc.2 with wild := s.wild ++ [view],
                     countOfWildEntriesElement := s.countOfWildEntriesElement + 1 }
  else s.alloc.2

/-- One round of `__evfs_view_recognize_and_move_to_busy`, with `__evfs_entries_raw_recognize`. -/
def recognizeView (s : Fs) (view : Int) : Fs :=
  if (s.vol.cluster view).looksLikeBusy then
    rawRecognize (s.setVol { s.vol with
      idle := s.vol.idle.erase view, countOfIdleViews := s.vol.countOfIdleViews - 1,
      busy := s.vol.busy ++ [view], countOfBusyViews := s.vol.countOfBusyViews + 1 }) view
  else s

/-- The loop of `evfs_view_load` over the clusters. -/
def loadViews : Nat → Int → Cluster → Vol → Int × Vol
  | 0, _, _, s => (0, s)
  | n + 1, i, buffer, s =>
    let r := cacheReadHeadDirectly s.io i buffer
    let s := { s with io := r.2.2 }
    if nspSuccess r.1 then
      if s.alloc.1 then loadViews n (i + 1) r.2.1 (s.alloc.2.insertNewIdle i r.2.1)
      else (eNomem, s.alloc.2)
    else (r.1, s)

/-- `evfs_view_load` with `__evfs_entries_raw_recognize`. -/
def viewLoad (garbage : Garbage) (s : Fs) : Int × Fs :=
  if s.alloc.1 then
    let s := s.alloc.2
    if s.vol.totalClusterCount ≠ 0 then (positiveEexist, s)
    else
      let hard := s.vol.io.cache.hard
      let count := hardGetUsableClusterCount hard
      let r := loadViews count.toNat 1 garbage.cluster { s.vol with totalClusterCount := count }
      if nspSuccess r.1 then
        let s := r.2.idle.foldl recognizeView (s.setVol r.2)
        (r.1, s.setVol { s.vol with clusterSize := hard.clusterSize,
                                    maxDataSegSize := hardGetMaxDataSegSize hard })
      else (r.1, s.setVol r.2.dropIdle)
  else (eNomem, s.alloc.2)

/-- The inner loop of `__evfs_entries_init`: the chain of a head, from a cluster on.  Every round
takes an element out of the wild list; without a bound on the rounds left there is no result. -/
def linkChain : Nat → Fs → Int → Int → Option Fs
  | 0, _, _, _ => none
  | n + 1, s, e, next =>
    if next > 0 then
      let head := s.heads e
      if next ∈ s.wild then
        let s := { s with wild := s.wild.erase next,
                          countOfWildEntriesElement := s.countOfWildEntriesElement - 1 }
        let s := s.setHead e { head with elements := head.elements ++ [next],
                                         countOfElements := head.countOfElements + 1 }
        linkChain n s e (viewGetNextClusterId s.vol next)
      else
        some (tryDeleteHead (s.setHead e { head with hardRemoveOnDetach := true }) e .mandatory)
    else some s

/-- `__evfs_entries_free_element` for a wild element, whose pointer to a head was never set.  With a
null pointer the element is freed and stays in the list. -/
def freeWild (garbage : Garbage) (s : Fs) (view : Int) : Option Fs :=
  match garbage.entryHead view with
  | none => some s
  | some e =>
    if e ∈ s.entries then
      let head := s.heads e
      let s := { s with wild := s.wild.erase view }
      let s := s.setHead e { head with countOfElements := head.countOfElements - 1 }
      some (if head.hardRemoveOnDetach then s.setVol (viewMoveToIdle s.vol view).2 else s)
    else none

/-- `__evfs_entries_init`. -/
def entriesInit (garbage : Garbage) (s : Fs) : Option Fs :=
  (s.entries.foldlM (fun s e =>
      linkChain (s.wild.length + 1) s e (viewGetNextClusterId s.vol e)) s).bind fun s =>
    (s.wild.foldlM (freeWild garbage) s).map fun s =>
      { s with maxDataSegSize := s.vol.maxDataSegSize }

/-- `evfs_entries_create`. -/
def entriesCreate (garbage : Garbage) (s : Fs) : Option (Int × Fs) :=
  let r := viewCreate garbage.views s.vol
  if nspSuccess r.1 then (entriesInit garbage (s.setVol r.2)).map fun s => (r.1, s)
  else some (r.1, s.setVol r.2)

/-- `evfs_entries_load`. -/
def entriesLoad (garbage : Garbage) (s : Fs) : Option (Int × Fs) :=
  let r := viewLoad garbage s
  if nspSuccess r.1 then (entriesInit garbage r.2).map fun s => (r.1, s) else some r

/-- `evfs_entries_uninit`. -/
def entriesUninit (s : Fs) : Fs :=
  let s := s.entries.foldl (fun s e => tryDeleteHead s e .mandatory) s
  s.setVol (viewUninit s.vol)

/-- The managers of a process that has not used the library yet. -/
def Fs.init : Fs where
  vol := ⟨⟨Cache.empty ⟨[], 0, 0, 0, 0, [], []⟩, [], false⟩, fun _ => .zero, .nil, [], [],
    0, 0, 0, 0, 0⟩
  heads := fun _ => ⟨[], 0, 0, 0, .normal, false, []⟩
  entries := []
  rootOfEntriesTree := .nil
  rootOfNamedEntriesTree := .nil
  countOfEntries := 0
  wild := []
  countOfWildEntriesElement := 0
  maxDataSegSize := 0
  fault := false

/-- The managers with a new cache over a file. -/
def Fs.mount (s : Fs) (garbage : Garbage) (hard : Hard) (cacheBlockNum : Nat)
    (allocFaults : List Bool) : Fs :=
  s.setVol { s.vol with
    io := ⟨cacheInit garbage.blocks hard cacheBlockNum, allocFaults, s.vol.io.fault⟩ }

/-- `evfs_create`, with what is in the managers. -/
def evfsCreate (garbage : Garbage) (s : Fs) (clusterSize clusterCount : Int) (cacheBlockNum : Nat)
    (allocFaults readFaults writeFaults : List Bool) : Option (Int × Fs) :=
  if clusterSize ≤ 0 ∨ clusterCount ≤ 0 then some (eInval, s)
  else
    match hardCreate clusterSize clusterCount readFaults writeFaults with
    | .error status => some (status, s)
    | .ok hard => entriesCreate garbage (s.mount garbage hard cacheBlockNum allocFaults)

/-- `evfs_close`: the file, and what is left in the managers. -/
def evfsClose (s : Fs) : List UInt8 × Fs :=
  let s := entriesUninit s
  (hardClose s.vol.io.cache.flushBufferAll.hard, s)

/-- `evfs_open` of a file, with what is left in the managers. -/
def evfsOpen (garbage : Garbage) (s : Fs) (image : List UInt8) (cacheBlockNum : Nat)
    (allocFaults readFaults writeFaults : List Bool) : Option (Int × Fs) :=
  match hardOpen image readFaults writeFaults with
  | none => none
  | some (.error status) => some (status, s)
  | some (.ok hard) => entriesLoad garbage (s.mount garbage hard cacheBlockNum allocFaults)

end Evfs

end LibNax
