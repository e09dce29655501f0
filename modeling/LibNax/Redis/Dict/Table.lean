import Mathlib.Data.Nat.Bitwise

/-!
# The hash table

`dict.c` keeps its entries in chains, and two tables of chains while it moves from one size to
another: every operation then carries one bucket of the old table over to the new one, so that no
call ever has to move them all.

* `Dictht` and `Dict` — one table, and the two of a dictionary with the position of the move.
* `dictExpandWith`, `dictRehash` — the second table is set up, and some buckets are moved to it.
* `dictAddRaw`, `dictReplace`, `dictGenericDelete`, `dictFind`, … — the operations.

A function yields `none` where the source reads outside of a table or an assertion fails.  The
number of an entry stands for its address; `zmalloc` ends the program when there is no memory, so it
always yields an address here.  Key and value destructors and `privdata` are left out.
-/

set_option autoImplicit false

namespace LibNax

namespace Redis

/-- `dictType`: what the user of a dictionary provides.  Where the source has null for a copying
function it is the identity. -/
structure DictType (κ ν : Type) where
  hashFunction : κ → BitVec 64
  keyDup : κ → κ
  valDup : ν → ν
  /-- `keyCompare`, or null. -/
  keyCompare : Option (κ → κ → Bool)
  /-- `expandAllowed`, or null.  The ratio is given by the two numbers that are divided. -/
  expandAllowed : Option (ℕ → ℕ × ℕ → Bool)

section Types

variable {κ ν : Type} [DecidableEq κ]

/-- `dictCompareKeys`. -/
def dictCompareKeys (type : DictType κ ν) (key1 key2 : κ) : Bool :=
  match type.keyCompare with
  | some keyCompare => keyCompare key1 key2
  | none => key1 = key2

/-- The test that every search makes. -/
def sameKey (type : DictType κ ν) (key1 key2 : κ) : Bool :=
  key1 = key2 || dictCompareKeys type key1 key2

@[simp]
theorem sameKey_refl {type : DictType κ ν} (key : κ) : sameKey type key key = true := by
  simp [sameKey]

/-- What the user has to promise: equality of keys is an equivalence that the hash respects, and the
copy of a key is equal to it. -/
structure DictType.Lawful (type : DictType κ ν) : Prop where
  symm : ∀ a b, sameKey type a b = true → sameKey type b a = true
  trans : ∀ a b c, sameKey type a b = true → sameKey type b c = true → sameKey type a c = true
  hash : ∀ a b, sameKey type a b = true → type.hashFunction a = type.hashFunction b
  dup : ∀ a, sameKey type a (type.keyDup a) = true

end Types

/-- `dictEntry`, without the link to the next one. -/
structure DictEntry (κ ν : Type) where
  addr : ℕ
  key : κ
  v : ν
  deriving Repr, DecidableEq

/-- `dictht`: every bucket is a chain. -/
structure Dictht (κ ν : Type) where
  table : List (List (DictEntry κ ν))
  size : ℕ
  sizemask : ℕ
  used : ℕ
  deriving Repr, DecidableEq

/-- `dict`, and two things beside it: the switch `dict_can_resize`, and the address that `zmalloc`
gives next. -/
structure Dict (κ ν : Type) where
  ht0 : Dictht κ ν
  ht1 : Dictht κ ν
  /-- The first bucket that has not been moved, -1 while nothing is. -/
  rehashidx : ℤ
  /-- Rehashing is paused while it is positive. -/
  pauserehash : Int16
  canResize : Bool
  zmalloc : ℕ
  deriving Repr, DecidableEq

/-- `DICT_HT_INITIAL_SIZE`. -/
def dictHtInitialSize : ℕ := 4

/-- `dict_force_resize_ratio`. -/
def dictForceResizeRatio : ℕ := 5

/-- `LONG_MAX`. -/
def longMax : ℕ := 2 ^ 63 - 1

section Operations

variable {κ ν : Type}

/-- `_dictReset`. -/
def dictReset : Dictht κ ν := ⟨[], 0, 0, 0⟩

/-- `dictCreate`, with `_dictInit`. -/
def dictCreate : Dict κ ν := ⟨dictReset, dictReset, -1, 0, true, 0⟩

/-- `dictIsRehashing`. -/
def dictIsRehashing (d : Dict κ ν) : Bool := d.rehashidx ≠ -1

/-- `dictSize`. -/
def dictSize (d : Dict κ ν) : ℕ := d.ht0.used + d.ht1.used

/-- `dictSlots`. -/
def dictSlots (d : Dict κ ν) : ℕ := d.ht0.size + d.ht1.size

def dictPauseRehashing (d : Dict κ ν) : Dict κ ν := { d with pauserehash := d.pauserehash + 1 }

def dictResumeRehashing (d : Dict κ ν) : Dict κ ν := { d with pauserehash := d.pauserehash - 1 }

/-- The loop of `_dictNextPower`, which 64 rounds always end. -/
def nextPowerLoop (size : ℕ) : ℕ → ℕ → ℕ
  | 0, i => i
  | rounds + 1, i => if size ≤ i then i else nextPowerLoop size rounds (i * 2)

/-- `_dictNextPower`. -/
def dictNextPower (size : ℕ) : ℕ :=
  if longMax ≤ size then longMax + 1 else nextPowerLoop size 64 dictHtInitialSize

/-- `_dictExpand`, where `ztrycalloc` has memory or not: the dictionary, whether it was expanded,
and whether the allocation failed. -/
def dictExpandWith (d : Dict κ ν) (size : ℕ) (memory : Bool) : Dict κ ν × Bool × Bool :=
  if dictIsRehashing d || decide (size < d.ht0.used) then (d, false, false)
  else
    let realsize := dictNextPower size
    if realsize < size ∨ realsize * 8 % 2 ^ 64 < realsize then (d, false, false)
    else if realsize = d.ht0.size then (d, false, false)
    else if !memory then (d, false, true)
    else
      let n : Dictht κ ν := ⟨List.replicate realsize [], realsize, realsize - 1, 0⟩
      if d.ht0.table = [] then ({ d with ht0 := n }, true, false)
      else ({ d with ht1 := n, rehashidx := 0 }, true, false)

/-- `dictExpand`, where `zcalloc` has memory. -/
def dictExpand (d : Dict κ ν) (size : ℕ) : Dict κ ν × Bool :=
  let r := dictExpandWith d size true
  (r.1, r.2.1)

/-- `dictTryExpand`: it fails only when the allocation does. -/
def dictTryExpand (d : Dict κ ν) (size : ℕ) (memory : Bool) : Dict κ ν × Bool :=
  let r := dictExpandWith d size memory
  (r.1, !r.2.2)

/-- `dictResize`. -/
def dictResize (d : Dict κ ν) : Dict κ ν × Bool :=
  if !d.canResize || dictIsRehashing d then (d, false)
  else
    dictExpand d (if d.ht0.used < dictHtInitialSize then dictHtInitialSize else d.ht0.used)

variable (type : DictType κ ν)

/-- The bucket of a key. -/
def indexOf (ht : Dictht κ ν) (key : κ) : ℕ := (type.hashFunction key).toNat &&& ht.sizemask

/-- An entry put at the head of a bucket. -/
def pushEntry (ht : Dictht κ ν) (i : ℕ) (de : DictEntry κ ν) : Option (Dictht κ ν) := do
  let chain ← ht.table[i]?
  return { ht with table := ht.table.set i (de :: chain), used := ht.used + 1 }

/-- The loop of `dictRehash` over the entries of one bucket. -/
def moveBucket : List (DictEntry κ ν) → Dictht κ ν → Dictht κ ν →
    Option (Dictht κ ν × Dictht κ ν)
  | [], t0, t1 => some (t0, t1)
  | de :: rest, t0, t1 => do
    let t1 ← pushEntry t1 (indexOf type t1 de.key) de
    moveBucket rest { t0 with used := t0.used - 1 } t1

/-- The loop of `dictRehash` over empty buckets: where it stops, and the bucket it found there with
the visits that are left, or nothing when it has used them up. -/
def skipEmpty (table : List (List (DictEntry κ ν))) : ℕ → ℕ →
    Option (ℕ × Option (List (DictEntry κ ν) × ℕ))
  | 0, _ => none
  | visits + 1, i => do
    match ← table[i]? with
    | [] => if visits = 0 then some (i + 1, none) else skipEmpty table visits (i + 1)
    | chain => some (i, some (chain, visits + 1))

/-- The loop of `dictRehash`: the dictionary, and whether the visits were used up. -/
def rehashLoop : ℕ → ℕ → Dict κ ν → Option (Dict κ ν × Bool)
  | 0, _, d => some (d, false)
  | n + 1, visits, d =>
    if d.ht0.used = 0 then some (d, false)
    else if (d.ht0.size : ℤ) ≤ d.rehashidx then none
    else do
      match ← skipEmpty d.ht0.table visits d.rehashidx.toNat with
      | (i, none) => return ({ d with rehashidx := i }, true)
      | (i, some (chain, visits)) =>
        let (t0, t1) ← moveBucket type chain d.ht0 d.ht1
        rehashLoop n visits
          { d with ht0 := { t0 with table := t0.table.set i [] }, ht1 := t1, rehashidx := i + 1 }

/-- `dictRehash`: whether there is more to move. -/
def dictRehash (d : Dict κ ν) (n : ℕ) : Option (Dict κ ν × Bool) :=
  if !dictIsRehashing d then some (d, false)
  else do
    let (d, exhausted) ← rehashLoop type n (n * 10) d
    if exhausted then return (d, true)
    else if d.ht0.used = 0 then
      return ({ d with ht0 := d.ht1, ht1 := dictReset, rehashidx := -1 }, false)
    else return (d, true)

/-- `_dictRehashStep`. -/
def dictRehashStep (d : Dict κ ν) : Option (Dict κ ν) :=
  if d.pauserehash = 0 then (dictRehash type d 1).map (·.1) else some d

/-- What the operations do before anything else. -/
def rehashStepIfRehashing (d : Dict κ ν) : Option (Dict κ ν) :=
  if dictIsRehashing d then dictRehashStep type d else some d

/-- `dictTypeExpandAllowed`. -/
def dictTypeExpandAllowed (d : Dict κ ν) : Bool :=
  match type.expandAllowed with
  | none => true
  | some expandAllowed =>
    expandAllowed (dictNextPower (d.ht0.used + 1) * 8 % 2 ^ 64) (d.ht0.used, d.ht0.size)

/-- `_dictExpandIfNeeded`. -/
def dictExpandIfNeeded (d : Dict κ ν) : Dict κ ν × Bool :=
  if dictIsRehashing d then (d, true)
  else if d.ht0.size = 0 then dictExpand d dictHtInitialSize
  else if d.ht0.size ≤ d.ht0.used ∧
      (d.canResize ∨ dictForceResizeRatio < d.ht0.used / d.ht0.size) ∧
      dictTypeExpandAllowed type d then
    dictExpand d (d.ht0.used + 1)
  else (d, true)

variable [DecidableEq κ]

/-- The search in one chain. -/
def searchChain (key : κ) (chain : List (DictEntry κ ν)) : Option (DictEntry κ ν) :=
  chain.find? fun he => sameKey type key he.key

/-- The search in the bucket of the first table, and of the second one while there is one. -/
def searchTables (d : Dict κ ν) (key : κ) : Option (Option (DictEntry κ ν)) := do
  match searchChain type key (← d.ht0.table[indexOf type d.ht0 key]?) with
  | some he => return some he
  | none =>
    if dictIsRehashing d then
      return searchChain type key (← d.ht1.table[indexOf type d.ht1 key]?)
    else return none

/-- `_dictKeyIndex`: the bucket of a new entry, or the entry there already is, or neither when the
tables could not be expanded. -/
def dictKeyIndex (d : Dict κ ν) (key : κ) :
    Option (Dict κ ν × Except (Option (DictEntry κ ν)) ℕ) :=
  match dictExpandIfNeeded type d with
  | (d, false) => some (d, .error none)
  | (d, true) => do
    match ← searchTables type d key with
    | some existing => return (d, .error (some existing))
    | none => return (d, .ok (indexOf type (if dictIsRehashing d then d.ht1 else d.ht0) key))

/-- `dictAddRaw`: the new entry, or the existing one.  What the value of a new entry is before it is
set, `zmalloc` decides. -/
def dictAddRaw (d : Dict κ ν) (key : κ) (garbage : ν) :
    Option (Dict κ ν × Except (Option (DictEntry κ ν)) (DictEntry κ ν)) := do
  let d ← rehashStepIfRehashing type d
  match ← dictKeyIndex type d key with
  | (d, .error existing) => return (d, .error existing)
  | (d, .ok index) =>
    let entry : DictEntry κ ν := ⟨d.zmalloc, type.keyDup key, garbage⟩
    let d := { d with zmalloc := d.zmalloc + 1 }
    if dictIsRehashing d then
      return ({ d with ht1 := ← pushEntry d.ht1 index entry }, .ok entry)
    else
      return ({ d with ht0 := ← pushEntry d.ht0 index entry }, .ok entry)

omit [DecidableEq κ] in
/-- `dictSetVal` on the entry at an address. -/
def dictSetVal (d : Dict κ ν) (addr : ℕ) (val : ν) : Dict κ ν :=
  let set (ht : Dictht κ ν) : Dictht κ ν :=
    { ht with table := ht.table.map (·.map fun he =>
        if he.addr = addr then { he with v := type.valDup val } else he) }
  { d with ht0 := set d.ht0, ht1 := set d.ht1 }

/-- `dictAdd`. -/
def dictAdd (d : Dict κ ν) (key : κ) (val garbage : ν) : Option (Dict κ ν × Bool) := do
  match ← dictAddRaw type d key garbage with
  | (d, .error _) => return (d, false)
  | (d, .ok entry) => return (dictSetVal type d entry.addr val, true)

/-- `dictReplace`: whether the key is new.  Without an existing entry it would write through a null
pointer. -/
def dictReplace (d : Dict κ ν) (key : κ) (val garbage : ν) : Option (Dict κ ν × Bool) := do
  match ← dictAddRaw type d key garbage with
  | (d, .ok entry) => return (dictSetVal type d entry.addr val, true)
  | (d, .error (some existing)) => return (dictSetVal type d existing.addr val, false)
  | (_, .error none) => none

/-- `dictAddOrFind`. -/
def dictAddOrFind (d : Dict κ ν) (key : κ) (garbage : ν) :
    Option (Dict κ ν × Option (DictEntry κ ν)) := do
  match ← dictAddRaw type d key garbage with
  | (d, .ok entry) => return (d, some entry)
  | (d, .error existing) => return (d, existing)

/-- The entry of a key taken off its chain in one table. -/
def unlinkFrom (ht : Dictht κ ν) (key : κ) : Option (Dictht κ ν × Option (DictEntry κ ν)) := do
  let i := indexOf type ht key
  let chain ← ht.table[i]?
  match searchChain type key chain with
  | none => return (ht, none)
  | some he =>
    return ({ ht with
      table := ht.table.set i (chain.eraseP fun he => sameKey type key he.key)
      used := ht.used - 1 }, some he)

/-- `dictGenericDelete`: the entry that was unlinked.  Whether it is freed as well makes no
difference to the tables, so this is `dictDelete` and `dictUnlink` too. -/
def dictGenericDelete (d : Dict κ ν) (key : κ) : Option (Dict κ ν × Option (DictEntry κ ν)) :=
  if d.ht0.used = 0 ∧ d.ht1.used = 0 then some (d, none)
  else do
    let d ← rehashStepIfRehashing type d
    match ← unlinkFrom type d.ht0 key with
    | (ht0, some he) => return ({ d with ht0 }, some he)
    | (_, none) =>
      if dictIsRehashing d then
        let (ht1, he) ← unlinkFrom type d.ht1 key
        return ({ d with ht1 }, he)
      else return (d, none)

/-- `dictFind`. -/
def dictFind (d : Dict κ ν) (key : κ) : Option (Dict κ ν × Option (DictEntry κ ν)) :=
  if dictSize d = 0 then some (d, none)
  else do
    let d ← rehashStepIfRehashing type d
    return (d, ← searchTables type d key)

/-- `dictFetchValue`. -/
def dictFetchValue (d : Dict κ ν) (key : κ) : Option (Dict κ ν × Option ν) := do
  let (d, he) ← dictFind type d key
  return (d, he.map (·.v))

omit [DecidableEq κ] type in
/-- `dictEmpty`, with `_dictClear` for both tables. -/
def dictEmpty (d : Dict κ ν) : Dict κ ν :=
  { d with ht0 := dictReset, ht1 := dictReset, rehashidx := -1, pauserehash := 0 }

end Operations

end Redis

end LibNax
