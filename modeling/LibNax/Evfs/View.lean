import LibNax.Evfs.Cache

/-!
# The views

The view layer keeps one view for every cluster but the first.  A view holds the header of its
cluster in memory and is in one of two lists: the idle views can be taken, the busy ones belong to
an entry.

* `Io` — the block cache behind its interface: every request allocates a task first.
* `Vol` — the manager of `view.c` over that interface.
* `viewAcquireIdle`, `viewMoveToIdle`, `viewExpand` — how views move between the lists.
* `viewSetNext`, `viewSetHead` and the functions after it — changes of a header, in memory and
  below.

A view is named by its number, which is also the number of its cluster.
-/

set_option autoImplicit false

namespace LibNax

namespace Evfs

open Lib (int32)

/-! ## The interface of the cache -/

/-- The cache with the outcomes of the next allocations. -/
structure Io where
  /-- The cache. -/
  cache : Cache
  /-- Which of the next allocations fail; none of those after the last one listed. -/
  allocFaults : List Bool
  /-- Whether a task was read after it had been freed.  What is read then may be anything. -/
  fault : Bool

/-- `ztrymalloc` and `ztrycalloc`: whether the memory was got. -/
def Io.alloc (io : Io) : Bool × Io :=
  (!io.allocFaults.headD false, { io with allocFaults := io.allocFaults.tail })

/-- A task that was allocated, executed by the thread of the cache. -/
def Io.submit (io : Io) (task : Task) : Except Int (List UInt8) × Io :=
  let io' := io.alloc.2
  if io.alloc.1 then
    let r := io'.cache.execTask task
    (r.1, { io' with cache := r.2 })
  else (.error eNomem, io')

/-- The size of a cluster. -/
def Io.clusterSize (io : Io) : Int := io.cache.hard.clusterSize

/-- `evfs_cache_read`. -/
def cacheRead (io : Io) (clusterId offset length : Int) : Except Int (List UInt8) × Io :=
  if clusterId ≤ 0 ∨ offset < 0 ∨ length < 0 ∨ offset + length > io.clusterSize then
    (.error eInval, io)
  else io.submit (.read clusterId offset.toNat length.toNat)

/-- `evfs_cache_read_userdata`.  The end of the range is compared as an unsigned number. -/
def cacheReadUserdata (io : Io) (clusterId offset length : Int) : Except Int (List UInt8) × Io :=
  if offset + length < 0 ∨ offset + length > io.clusterSize - sizeofCluster ∨ clusterId < 0 then
    (.error eInval, io)
  else cacheRead io clusterId (offset + sizeofCluster) length

/-- `evfs_cache_write`. -/
def cacheWrite (io : Io) (clusterId : Int) (input : List UInt8) (offset : Int) :
    Except Int (List UInt8) × Io :=
  if clusterId ≤ 0 ∨ offset < 0 ∨ offset + input.length > io.clusterSize then (.error eInval, io)
  else io.submit (.write clusterId input offset.toNat)

/-- `evfs_cache_write_head`. -/
def cacheWriteHead (io : Io) (clusterId : Int) (cluster : Cluster) : Except Int (List UInt8) × Io :=
  cacheWrite io clusterId cluster.bytes 0

/-- `evfs_cache_write_userdata`. -/
def cacheWriteUserdata (io : Io) (clusterId : Int) (input : List UInt8) (offset : Int) :
    Except Int (List UInt8) × Io :=
  if offset + input.length < 0 ∨ offset + input.length > io.clusterSize - sizeofCluster ∨
      clusterId < 0 then (.error eInval, io)
  else cacheWrite io clusterId input (offset + sizeofCluster)

/-- `evfs_cache_read_head_directly`: past the cache. -/
def cacheReadHeadDirectly (io : Io) (clusterId : Int) (buffer : Cluster) : Int × Cluster × Io :=
  if clusterId ≤ 0 then (eInval, buffer, io)
  else
    let io' := io.alloc.2
    if io.alloc.1 then
      let r := hardReadClusterHead io'.cache.hard clusterId buffer
      (r.1, r.2.1, { io' with cache := io'.cache.setHard r.2.2 })
    else (eNomem, buffer, io')

/-- The size of the block that `__evfs_cluster_expand_file` has on its stack. -/
def largeBlock : Nat := 65536

/-- How many bytes `__evfs_cluster_expand_file` has to write for an expansion. -/
def Hard.expandRemain (h : Hard) : Nat :=
  ((int32 (h.fsize + int32 (h.expandClusterCount * h.clusterSize)) - int32 h.fsize) %
    2 ^ 32).toNat

/-- The file after the large blocks of an expansion were written. -/
def Hard.withLargeBlocks (h : Hard) : Hard :=
  h.popWrite.2.setFile (Lib.overwrite h.file ((int32 h.fsize).toNat / h.clusterSize)
    (List.replicate (h.expandRemain / largeBlock * largeBlock / h.clusterSize)
      (zeroCluster h.clusterSize)))

/-- `evfs_hard_expand` in the thread of the cache, where no allocation fails. -/
def Io.expandWritten (io : Io) : Int × Int × Io :=
  let r := hardExpand io.cache.hard
  (r.1, r.2.1, { io with cache := io.cache.setHard r.2.2 })

/-- `evfs_hard_expand` with the allocation of `__evfs_cluster_expand_file`: a block for what is left
behind the large ones, which are written before. -/
def Io.expandHard (io : Io) : Int × Int × Io :=
  let h := io.cache.hard
  if int32 h.fsize < 0 ∨ h.expandRemain % largeBlock = 0 ∨
      (largeBlock ≤ h.expandRemain ∧ h.popWrite.1) then io.expandWritten
  else if io.alloc.1 then io.alloc.2.expandWritten
  else
    (eNomem, 0, { io.alloc.2 with
      cache := io.cache.setHard (if largeBlock ≤ h.expandRemain then h.withLargeBlocks else h) })

/-- `evfs_cache_expand`: how many clusters were added, and the first of them.  Both are read from
the task, which `__evfs_cache_wait_background_compelete` has freed by then. -/
def cacheExpand (io : Io) : Int × Int × Io :=
  let io' := io.alloc.2
  if io.alloc.1 then
    let r := io'.expandHard
    if r.1 > 0 then (r.1, r.2.1, { r.2.2 with fault := true }) else (-1, 0, r.2.2)
  else (-1, 0, io')

/-- The status of a request. -/
def statusOf (r : Except Int (List UInt8)) : Int :=
  match r with
  | .ok _ => 0
  | .error status => status

/-! ## The manager -/

/-- `EEXIST` as `evfs_view_create` and `evfs_view_load` return it, without a minus sign. -/
def positiveEexist : Int := 17

/-- The manager of `view.c`. -/
structure Vol where
  /-- The layer below. -/
  io : Io
  /-- The header of every view. -/
  cluster : Int → Cluster
  /-- The index of all views. -/
  rootOfViewTree : Avl.Tree Int
  /-- The views of entries. -/
  busy : List Int
  /-- The views that can be taken. -/
  idle : List Int
  countOfBusyViews : Int
  countOfIdleViews : Int
  /-- The number of views at the start.  Positive when the manager is in use. -/
  totalClusterCount : Int
  clusterSize : Int
  maxDataSegSize : Int

/-- `__evfs_view_compare`. -/
def viewCompare (left right : Int) : Int :=
  if left > right then 1 else if left < right then -1 else 0

namespace Vol

def alloc (s : Vol) : Bool × Vol := (s.io.alloc.1, { s with io := s.io.alloc.2 })

/-- Changing the header of a view in memory. -/
def setCluster (s : Vol) (view : Int) (cluster : Cluster) : Vol :=
  { s with cluster := Function.update s.cluster view cluster }

/-- The status of writing the header of a view. -/
def writeHeadStatus (s : Vol) (view : Int) : Int :=
  statusOf (cacheWriteHead s.io view (s.cluster view)).1

/-- The header of a view, written. -/
def writeHead (s : Vol) (view : Int) : Vol :=
  { s with io := (cacheWriteHead s.io view (s.cluster view)).2 }

/-- `__evfs_view_insert_new_idle`. -/
def insertNewIdle (s : Vol) (view : Int) (cluster : Cluster) : Vol :=
  { s with
    cluster := Function.update s.cluster view cluster
    idle := s.idle ++ [view]
    rootOfViewTree := Avl.avlinsert viewCompare s.rootOfViewTree view
    countOfIdleViews := s.countOfIdleViews + 1 }

/-- The loop of `evfs_view_create`.  The header of a new view is not initialized. -/
def createViews (garbage : Int → Cluster) : Nat → Int → Vol → Int × Vol
  | 0, _, s => (0, s)
  | n + 1, i, s =>
    if s.alloc.1 then createViews garbage n (i + 1) (s.alloc.2.insertNewIdle i (garbage i))
    else (eNomem, s.alloc.2)

/-- The loop of `evfs_view_expand`: a view whose allocation fails is left out. -/
def expandViews : Nat → Int → Vol → Vol
  | 0, _, s => s
  | n + 1, i, s =>
    if s.alloc.1 then expandViews n (i + 1) (s.alloc.2.insertNewIdle i .zero)
    else expandViews n (i + 1) s.alloc.2

/-- The loop that deletes the idle views after `evfs_view_create` has failed. -/
def dropIdle (s : Vol) : Vol :=
  { s with
    idle := []
    rootOfViewTree :=
      s.idle.foldl (fun t view => (Avl.avlremove viewCompare t view none).1) s.rootOfViewTree }

/-- The loop of `evfs_view_uninit` over the busy views. -/
def dropBusy (s : Vol) : Vol :=
  { s with
    busy := []
    rootOfViewTree :=
      s.busy.foldl (fun t view => (Avl.avlremove viewCompare t view none).1) s.rootOfViewTree }

end Vol

/-- `evfs_view_create`. -/
def viewCreate (garbage : Int → Cluster) (s : Vol) : Int × Vol :=
  if s.totalClusterCount > 0 then (positiveEexist, s)
  else if s.alloc.1 then
    let hard := s.alloc.2.io.cache.hard
    if s.totalClusterCount ≠ 0 then (positiveEexist, s.alloc.2)
    else
      let count := hardGetUsableClusterCount hard
      let r := Vol.createViews garbage count.toNat 1 { s.alloc.2 with totalClusterCount := count }
      if nspSuccess r.1 then
        (r.1, { r.2 with clusterSize := hard.clusterSize,
                         maxDataSegSize := hardGetMaxDataSegSize hard })
      else
        (r.1, { r.2.dropIdle with countOfIdleViews := r.2.countOfIdleViews - r.2.idle.length })
  else (eNomem, s.alloc.2)

/-- `evfs_view_expand`. -/
def viewExpand (s : Vol) : Int × Vol :=
  let r := cacheExpand s.io
  if r.1 ≤ 0 then (nspStatusFatal, { s with io := r.2.2 })
  else (0, Vol.expandViews r.1.toNat r.2.1 { s with io := r.2.2 })

/-- `evfs_view_uninit`. -/
def viewUninit (s : Vol) : Vol :=
  if s.totalClusterCount ≤ 0 then { s with totalClusterCount := 0 }
  else
    let s := { s with totalClusterCount := 0,
                      countOfBusyViews := s.countOfBusyViews - s.busy.length,
                      countOfIdleViews := s.countOfIdleViews - s.idle.length }
    s.dropBusy.dropIdle

/-! ## Moving views -/

/-- `evfs_view_move_to_idle`. -/
def viewMoveToIdle (s : Vol) (view : Int) : Int × Vol :=
  if s.totalClusterCount ≤ 0 then (eInval, s)
  else
    let s := s.setCluster view .zero
    let s := { s with busy := s.busy.erase view, countOfBusyViews := s.countOfBusyViews - 1,
                      idle := s.idle ++ [view], countOfIdleViews := s.countOfIdleViews + 1 }
    (s.writeHeadStatus view, s.writeHead view)

/-- The loop of `evfs_view_acquire_idle`.  Every round makes the file larger, and a file of `2 ^ 31`
bytes is not made larger, so that the number of rounds is bounded. -/
def expandWhileEmpty : Nat → Vol → Bool × Vol
  | 0, s => (false, s)
  | n + 1, s =>
    if s.countOfIdleViews ≤ 0 then
      let r := viewExpand s
      if nspSuccess r.1 then expandWhileEmpty n r.2 else (false, r.2)
    else (true, s)

/-- A bound of the rounds of that loop. -/
def expandRounds : Nat := 2 ^ 27

/-- A view leaves the idle list for the busy one. -/
def takeIdle (s : Vol) (view : Int) : Vol :=
  let s := s.setCluster view .zero
  { s with idle := s.idle.erase view, countOfIdleViews := s.countOfIdleViews - 1,
           busy := s.busy ++ [view], countOfBusyViews := s.countOfBusyViews + 1 }

/-- The cluster of a view is cleared, the status of the write is not looked at. -/
def clearCluster (s : Vol) (view : Int) : Option Int × Vol :=
  let s' := s.alloc.2
  if s.alloc.1 then
    let zero := Lib.overwrite (zeroCluster s.clusterSize.toNat) 0 (s.cluster view).bytes
    (some view, { s' with io := (cacheWrite s'.io view zero 0).2 })
  else (none, s')

/-- `evfs_view_acquire_idle`. -/
def viewAcquireIdle (s : Vol) : Option Int × Vol :=
  if s.totalClusterCount ≤ 0 then (none, s)
  else
    let r := expandWhileEmpty expandRounds s
    if r.1 then
      match r.2.idle with
      | [] => (none, r.2)
      | view :: _ => clearCluster (takeIdle r.2 view) view
    else (none, r.2)

/-- The loop of `evfs_view_acquire_idle_more`: the views that were got. -/
def acquireViews : Nat → Vol → List Int × Vol
  | 0, s => ([], s)
  | n + 1, s =>
    let a := viewAcquireIdle s
    match a.1 with
    | none => ([], a.2)
    | some view =>
      let r := acquireViews n a.2
      (view :: r.1, r.2)

/-- `evfs_view_acquire_idle_more`. -/
def viewAcquireIdleMore (amount : Nat) (s : Vol) : Except Int (List Int) × Vol :=
  if amount = 0 ∨ s.totalClusterCount ≤ 0 then (.error eInval, s)
  else
    let r := acquireViews amount s
    if r.1.length < amount then
      (.error eNomem, r.1.foldl (fun s view => (viewMoveToIdle s view).2) r.2)
    else (.ok r.1, r.2)

/-! ## Headers and data -/

/-- `evfs_view_write_head`. -/
def viewWriteHead (s : Vol) (view : Int) : Int × Vol :=
  if s.totalClusterCount ≤ 0 then (0, s)
  else (if nspSuccess (s.writeHeadStatus view) then sizeofCluster else 0, s.writeHead view)

/-- A view that is neither a head nor an element. -/
def Vol.Unused (s : Vol) (view : Int) : Prop :=
  (s.cluster view).dataSegSize = 0 ∧ (s.cluster view).headClusterId = 0

instance (s : Vol) (view : Int) : Decidable (s.Unused view) := inferInstanceAs (Decidable (_ ∧ _))

/-- `evfs_view_write_userdata`. -/
def viewWriteUserdata (s : Vol) (view : Int) (buffer : List UInt8) (offset : Int) : Int × Vol :=
  if offset < 0 ∨ buffer = [] ∨ s.totalClusterCount ≤ 0 ∨ s.Unused view then (0, s)
  else
    let r := cacheWriteUserdata s.io view buffer offset
    (if nspSuccess (statusOf r.1) then buffer.length else 0, { s with io := r.2 })

/-- `evfs_view_read_userdata`: the length, or zero, and the bytes that were read. -/
def viewReadUserdata (s : Vol) (view offset length : Int) : Int × List UInt8 × Vol :=
  if offset < 0 ∨ length ≤ 0 ∨ s.totalClusterCount ≤ 0 ∨ s.Unused view then (0, [], s)
  else
    let r := cacheReadUserdata s.io view offset length
    match r.1 with
    | .ok bytes => (length, bytes, { s with io := r.2 })
    | .error _ => (0, [], { s with io := r.2 })

/-- Changing the header of a view, in memory and on the disk. -/
def Vol.putCluster (s : Vol) (view : Int) (cluster : Cluster) : Int × Vol :=
  let s := s.setCluster view cluster
  (s.writeHeadStatus view, s.writeHead view)

/-- `evfs_view_set_next`; `none` is the null pointer. -/
def viewSetNext (s : Vol) (view : Int) (nextView : Option Int) : Int × Vol :=
  s.putCluster view { s.cluster view with nextClusterId := nextView.getD 0 }

/-- `evfs_view_set_head`. -/
def viewSetHead (s : Vol) (view : Int) (headView : Option Int) : Int × Vol :=
  s.putCluster view { s.cluster view with headClusterId := headView.getD view }

/-- `evfs_view_get_next_cluster_id`. -/
def viewGetNextClusterId (s : Vol) (view : Int) : Int := (s.cluster view).nextClusterId

/-- The size of a head: the highest bit is set. -/
def headSize (size : Int) : Int := if size ≤ 0 then size else size - 2 ^ 31

/-- The size of an element: the highest bit is cleared. -/
def elementSize (size : Int) : Int := if 0 ≤ size then size else size + 2 ^ 31

/-- Changing the size in the header of a view, where it is another one. -/
def Vol.putDataSegSize (s : Vol) (view size : Int) : Int × Vol :=
  if (s.cluster view).dataSegSize ≠ size then
    s.putCluster view { s.cluster view with dataSegSize := size }
  else (0, s)

/-- `evfs_view_set_head_data_seg_size`. -/
def viewSetHeadDataSegSize (s : Vol) (view size : Int) : Int × Vol :=
  s.putDataSegSize view (headSize size)

/-- `evfs_view_set_element_data_seg_size`. -/
def viewSetElementDataSegSize (s : Vol) (view size : Int) : Int × Vol :=
  s.putDataSegSize view (elementSize size)

/-- `evfs_view_get_data_seg_size`. -/
def viewGetDataSegSize (s : Vol) (view : Int) : Int := elementSize (s.cluster view).dataSegSize

/-- `evfs_view_transfer_size_to_cluster_count`. -/
def viewTransferSizeToClusterCount (s : Vol) (size : Int) : Int :=
  if size ≤ 0 ∨ s.maxDataSegSize ≤ 0 then 0
  else size / s.maxDataSegSize + if size % s.maxDataSegSize = 0 then 0 else 1

/-- `evfs_view_looks_like_head`. -/
def Cluster.looksLikeHead (cluster : Cluster) : Bool := decide (cluster.dataSegSize < 0)

/-- `evfs_cluster_looks_like_busy`. -/
def Cluster.looksLikeBusy (cluster : Cluster) : Bool :=
  decide (cluster.dataSegSize ≠ 0 ∨ cluster.headClusterId > 0)

end Evfs

end LibNax
