import LibNax.Avl.Search
import LibNax.Evfs.Hard

/-!
# The block cache

Every access to a cluster other than the first goes through a cache of blocks.  A block is idle, or
holds a cluster and is then in a list ordered by the last use and in an index by the number of the
cluster.  A block that differs from the disk is in a third list.

* `Node`, `Cache` — a block, and the manager of `cache.c`.
* `Cache.readFromLru` and the functions after it — the four ways an access can take.
* `Cache.read`, `Cache.write`, `Cache.flushBufferAll`, `Cache.flushBlock` — the tasks.
* `cacheInit` — an empty cache.

The functions in the namespace `Cache` are the static ones of the source, which run in the thread of
the cache.  The counters of hits and misses are left out.
-/

set_option autoImplicit false

namespace LibNax

namespace Evfs

open Lib (slice overwrite)

/-- `enum evfs_cache_node_state`. -/
inductive BlockState where
  /-- `kEvfsCacheBlockIdle`. -/
  | idle
  /-- `kEvfsCacheBlockClean`. -/
  | clean
  /-- `kEvfsCacheBlockDirty`. -/
  | dirty
deriving DecidableEq

/-- `struct evfs_cache_node`. -/
structure Node where
  /-- The cluster it holds. -/
  clusterId : Int
  /-- Its state. -/
  state : BlockState
  /-- The bytes of the cluster. -/
  data : List UInt8

/-- `leaf_of_lru_index`: a node of the index, with the key that its block has. -/
structure Leaf where
  /-- The cluster the block holds. -/
  clusterId : Int
  /-- The address of the block. -/
  node : Nat

/-- `__evfs_cache_compare_by_cluster_id`. -/
def compareByClusterId (left right : Leaf) : Int :=
  if left.clusterId < right.clusterId then -1
  else if left.clusterId > right.clusterId then 1
  else 0

/-- The manager of `cache.c`.  Blocks are named by their address. -/
structure Cache where
  /-- The clusters below. -/
  hard : Hard
  /-- The blocks by address. -/
  nodes : Nat → Node
  /-- The next address that the allocator returns. -/
  next : Nat
  /-- The blocks that hold a cluster, the one that was not used for the longest time first. -/
  lru : List Nat
  /-- The blocks that hold none. -/
  idle : List Nat
  /-- The blocks that differ from the disk. -/
  dirty : List Nat
  /-- The index of the first list. -/
  rootOfLruIndex : Avl.Tree Leaf
  /-- `lru.count`. -/
  lruCount : Int
  /-- `idle.count`. -/
  idleCount : Int
  /-- `dirty.count`. -/
  dirtyCount : Int
  /-- The number of blocks, zero for no cache. -/
  cacheBlockNum : Int

namespace Cache

/-- Writing to a block. -/
def store (c : Cache) (p : Nat) (node : Node) : Cache :=
  { c with nodes := Function.update c.nodes p node }

def setHard (c : Cache) (hard : Hard) : Cache := { c with hard }

/-- `__evfs_cache_flush_block_if_dirty`.  The status of the write is not looked at. -/
def flushBlockIfDirty (c : Cache) (p : Nat) : Cache :=
  if (c.nodes p).state = .dirty then
    let c := c.setHard (hardWriteCluster c.hard (c.nodes p).clusterId (c.nodes p).data).2
    let c := c.store p { c.nodes p with state := .clean }
    { c with dirty := c.dirty.erase p, dirtyCount := c.dirtyCount - 1 }
  else c

/-- `__evfs_cache_search_lru`. -/
def searchLru (c : Cache) (clusterId : Int) : Option Nat :=
  (Avl.avlsearch compareByClusterId c.rootOfLruIndex ⟨clusterId, 0⟩).map Leaf.node

/-- `__evfs_cache_pop_idle`. -/
def popIdle (c : Cache) : Option (Nat × Cache) :=
  match c.idle with
  | [] => none
  | p :: idle => some (p, { c with idle, idleCount := c.idleCount - 1 })

/-- Taking the first block out of the list of the blocks in use, and out of the index. -/
def withoutLru (c : Cache) (p : Nat) (lru : List Nat) : Cache :=
  let root := (Avl.avlremove compareByClusterId c.rootOfLruIndex ⟨(c.nodes p).clusterId, p⟩ none).1
  { c with lru, rootOfLruIndex := root, lruCount := c.lruCount - 1 }

/-- `__evfs_cache_pop_lru`. -/
def popLru (c : Cache) : Option (Nat × Cache) :=
  match c.lru with
  | [] => none
  | p :: lru => some (p, c.withoutLru p lru)

/-- `__evfs_cache_push_idle`. -/
def pushIdle (c : Cache) (p : Nat) : Cache :=
  let c := c.store p { c.nodes p with clusterId := 0, state := .idle }
  { c with idle := c.idle ++ [p], idleCount := c.idleCount + 1 }

/-- `__evfs_cache_push_dirty`. -/
def pushDirty (c : Cache) (p : Nat) : Cache :=
  if (c.nodes p).state ≠ .dirty then
    let c := c.store p { c.nodes p with state := .dirty }
    { c with dirty := c.dirty ++ [p], dirtyCount := c.dirtyCount + 1 }
  else c

/-- `__evfs_cache_push_lru`. -/
def pushLru (c : Cache) (p : Nat) : Cache :=
  let root := Avl.avlinsert compareByClusterId c.rootOfLruIndex ⟨(c.nodes p).clusterId, p⟩
  { c with lru := c.lru ++ [p], lruCount := c.lruCount + 1, rootOfLruIndex := root }

/-- `__evfs_cache_move_lru_to_tail`. -/
def moveLruToTail (c : Cache) (p : Nat) : Cache := { c with lru := c.lru.erase p ++ [p] }

/-- Reading a cluster into a block. -/
def loadNode (c : Cache) (clusterId : Int) (p : Nat) : Int × Cache :=
  let r := hardReadCluster c.hard clusterId (c.nodes p).data
  (r.1, (c.setHard r.2.2).store p { c.nodes p with data := r.2.1 })

/-- The block holds a cluster now, as it is on the disk: the end of a read that was not a hit. -/
def keepRead (c : Cache) (clusterId : Int) (p : Nat) : Cache :=
  (c.store p { c.nodes p with clusterId, state := .clean }).pushLru p

/-- The block holds a cluster now, changed by a write: the end of a write that was not a hit. -/
def keepWrite (c : Cache) (clusterId : Int) (p offset : Nat) (data : List UInt8) : Cache :=
  ((c.store p ⟨clusterId, (c.nodes p).state, overwrite (c.nodes p).data offset data⟩).pushDirty
    p).pushLru p

/-- `__evfs_cache_read_from_lru`. -/
def readFromLru (c : Cache) (clusterId : Int) (offset length : Nat) :
    Except Int (List UInt8) × Cache :=
  match c.searchLru clusterId with
  | none => (.error eNoent, c)
  | some p => (.ok (slice (c.nodes p).data offset length), c.moveLruToTail p)

/-- `__evfs_cache_write_to_lru`. -/
def writeToLru (c : Cache) (clusterId : Int) (data : List UInt8) (offset : Nat) : Int × Cache :=
  match c.searchLru clusterId with
  | none => (eNoent, c)
  | some p =>
    let c := c.moveLruToTail p
    let c := c.store p { c.nodes p with data := overwrite (c.nodes p).data offset data }
    (0, c.pushDirty p)

/-- `__evfs_cache_read_from_idle`. -/
def readFromIdle (c : Cache) (clusterId : Int) (offset length : Nat) :
    Except Int (List UInt8) × Cache :=
  match c.popIdle with
  | none => (.error eNomem, c)
  | some (p, c) =>
    let (status, c) := c.loadNode clusterId p
    if nspSuccess status then
      (.ok (slice (c.nodes p).data offset length), c.keepRead clusterId p)
    else (.error status, c.pushIdle p)

/-- `__evfs_cache_write_to_idle`.  Where the read fails, the block is in no list any more. -/
def writeToIdle (c : Cache) (clusterId : Int) (data : List UInt8) (offset : Nat) : Int × Cache :=
  match c.popIdle with
  | none => (eNomem, c)
  | some (p, c) =>
    let (status, c) := c.loadNode clusterId p
    if nspSuccess status then (status, c.keepWrite clusterId p offset data) else (status, c)

/-- `__evfs_cache_replace_read_from_lru`. -/
def replaceReadFromLru (c : Cache) (clusterId : Int) (offset length : Nat) :
    Except Int (List UInt8) × Cache :=
  match c.popLru with
  | none => (.error eNoent, c)
  | some (p, c) =>
    let c := c.flushBlockIfDirty p
    let (status, c) := c.loadNode clusterId p
    if nspSuccess status then
      (.ok (slice (c.nodes p).data offset length), c.keepRead clusterId p)
    else (.error status, c.pushIdle p)

/-- `__evfs_cache_replace_write_to_lru`. -/
def replaceWriteToLru (c : Cache) (clusterId : Int) (data : List UInt8) (offset : Nat) :
    Int × Cache :=
  match c.popLru with
  | none => (eNoent, c)
  | some (p, c) =>
    let c := c.flushBlockIfDirty p
    let (status, c) := c.loadNode clusterId p
    if nspSuccess status then (status, c.keepWrite clusterId p offset data)
    else (status, c.pushIdle p)

/-- `__evfs_cache_read_harddisk`. -/
def readHarddisk (c : Cache) (clusterId : Int) (offset length : Nat) :
    Except Int (List UInt8) × Cache :=
  let r := hardReadCluster c.hard clusterId (zeroCluster c.hard.clusterSize)
  if nspSuccess r.1 then (.ok (slice r.2.1 offset length), c.setHard r.2.2)
  else (.error r.1, c.setHard r.2.2)

/-- `__evfs_cache_write_harddisk`. -/
def writeHarddisk (c : Cache) (clusterId : Int) (data : List UInt8) (offset : Nat) :
    Int × Cache :=
  let r := hardReadCluster c.hard clusterId (zeroCluster c.hard.clusterSize)
  if nspSuccess r.1 then
    let w := hardWriteCluster r.2.2 clusterId (overwrite r.2.1 offset data)
    (w.1, c.setHard w.2)
  else (r.1, c.setHard r.2.2)

/-- `__evfs_cache_read`. -/
def read (c : Cache) (clusterId : Int) (offset length : Nat) : Except Int (List UInt8) × Cache :=
  if c.cacheBlockNum = 0 then c.readHarddisk clusterId offset length
  else
    match c.readFromLru clusterId offset length with
    | (.ok bytes, c) => (.ok bytes, c)
    | (.error _, c) =>
      match c.readFromIdle clusterId offset length with
      | (.ok bytes, c) => (.ok bytes, c)
      | (.error _, c) => c.replaceReadFromLru clusterId offset length

/-- `__evfs_cache_write`. -/
def write (c : Cache) (clusterId : Int) (data : List UInt8) (offset : Nat) : Int × Cache :=
  if c.cacheBlockNum = 0 then c.writeHarddisk clusterId data offset
  else
    let r := c.writeToLru clusterId data offset
    if nspSuccess r.1 then r
    else
      let r := r.2.writeToIdle clusterId data offset
      if nspSuccess r.1 then r
      else r.2.replaceWriteToLru clusterId data offset

/-- One round of the loop of `__evfs_cache_add_block_to_idle`.  The memory of a new block is not
initialized. -/
def addBlock (garbage : Nat → List UInt8) (c : Cache) : Cache :=
  { c.store c.next ⟨0, .idle, garbage c.next⟩ with
    next := c.next + 1, idle := c.idle ++ [c.next], idleCount := c.idleCount + 1,
    cacheBlockNum := c.cacheBlockNum + 1 }

/-- The loop of `__evfs_cache_add_block_to_idle`, where the allocations succeed. -/
def addBlocks (garbage : Nat → List UInt8) : Nat → Cache → Cache
  | 0, c => c
  | n + 1, c => addBlocks garbage n (c.addBlock garbage)

/-- `__evfs_cache_add_block_to_idle`, where the allocations succeed: the blocks are counted in the
loop and again after it. -/
def addBlockToIdle (garbage : Nat → List UInt8) (c : Cache) (cacheBlockNum : Nat) : Nat × Cache :=
  let c := addBlocks garbage cacheBlockNum c
  (cacheBlockNum, { c with cacheBlockNum := c.cacheBlockNum + cacheBlockNum })

/-- `__evfs_cache_flush_buffer_all`. -/
def flushBufferAll (c : Cache) : Cache :=
  if c.dirtyCount = 0 then c else c.dirty.foldl flushBlockIfDirty c

/-- `__evfs_cache_flush_block`. -/
def flushBlock (c : Cache) (clusterId : Int) : Cache :=
  match c.searchLru clusterId with
  | none => c
  | some p => c.flushBlockIfDirty p

end Cache

/-- The tasks that read and write clusters. -/
inductive Task where
  /-- `kEvfsCacheIOTypeRead`. -/
  | read (clusterId : Int) (offset length : Nat)
  /-- `kEvfsCacheIOTypeWrite`. -/
  | write (clusterId : Int) (data : List UInt8) (offset : Nat)
  /-- `kEvfsCacheIOTypeFlushBufferAll`. -/
  | flushBufferAll
  /-- `kEvfsCacheIOTypeFlushBuffer`. -/
  | flushBuffer (clusterId : Int)

/-- `__evfs_cache_exec_task` for these tasks: the bytes read, or the status of a failure. -/
def Cache.execTask (c : Cache) : Task → Except Int (List UInt8) × Cache
  | .read clusterId offset length => c.read clusterId offset length
  | .write clusterId data offset =>
    let r := c.write clusterId data offset
    (if nspSuccess r.1 then .ok [] else .error r.1, r.2)
  | .flushBufferAll => (.ok [], c.flushBufferAll)
  | .flushBuffer clusterId => (.ok [], c.flushBlock clusterId)

/-- Tasks one after the other. -/
def Cache.execTasks (c : Cache) : List Task → List (Except Int (List UInt8)) × Cache
  | [] => ([], c)
  | t :: ts =>
    let r := c.execTask t
    let rs := r.2.execTasks ts
    (r.1 :: rs.1, rs.2)

/-- The manager before `evfs_cache_init` has made its blocks. -/
def Cache.empty (hard : Hard) : Cache :=
  ⟨hard, fun _ => ⟨0, .idle, []⟩, 0, [], [], [], .nil, 0, 0, 0, 0⟩

/-- `evfs_cache_init` on an open file: the blocks are counted once more, by the assignment. -/
def cacheInit (garbage : Nat → List UInt8) (hard : Hard) (cacheBlockNum : Nat) : Cache :=
  let r := (Cache.empty hard).addBlockToIdle garbage cacheBlockNum
  { r.2 with cacheBlockNum := r.1 }

end Evfs

end LibNax
