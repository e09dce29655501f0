import LibNax.Common
import LibNax.Lib.Bytes
import LibNax.Lib.Int32

/-!
# The clusters of a file

The file of an EVFS is a sequence of clusters of one size.  The first holds the geometry, every
other one starts with a header of twelve bytes.

* `Hard` — the manager of `cluster.c` with the file behind it.
* `Cluster` — the header of a cluster, and how it lies on the disk.
* `hardReadCluster`, `hardWriteCluster`, `hardExpand` — the functions of the source.
* `hardCreate`, `hardOpen`, `hardClose` — making and opening a file.

A cluster read or write can fail: `Hard` carries the outcomes of the next ones.  In a file of at
most `maximumFileSize` bytes the offset of a cluster is an `int`, and no offset wraps around.
-/

set_option autoImplicit false

namespace LibNax

namespace Evfs

open Lib (int32 le32 unle32 slice overwrite)

/-! ## Statuses and constants -/

/-- `-EIO`. -/
def eIo : Int := -5

/-- `-EBFONT`. -/
def eBfont : Int := -59

/-- `-EPROTOTYPE`. -/
def ePrototype : Int := -91

/-- `MAXIMUM_FILE_SIZE`. -/
def maximumFileSize : Int := 2 ^ 30

/-- `MINIMUM_CLUSTER_SIZE`. -/
def minimumClusterSize : Int := 32

/-- `MAXIMUM_CLUSTER_SIZE`. -/
def maximumClusterSize : Int := 4096

/-- `EVFS_MAGIC`: the characters `sfvE`. -/
def evfsMagic : Int := 0x73667645

/-- `sizeof(struct evfs_cluster)`. -/
def sizeofCluster : Nat := 12

/-- `sizeof(struct evfs_head_record_data)`. -/
def sizeofHrd : Nat := 80

/-! ## Headers -/

/-- `struct evfs_cluster`: the header of a cluster. -/
structure Cluster where
  /-- How much of the cluster is used, or the length of the entry with the highest bit set. -/
  dataSegSize : Int
  /-- The next cluster of the entry. -/
  nextClusterId : Int
  /-- The head of the entry. -/
  headClusterId : Int
deriving DecidableEq

/-- The header of a cluster that is not used. -/
def Cluster.zero : Cluster := ⟨0, 0, 0⟩

/-- The header as it lies on the disk. -/
def Cluster.bytes (c : Cluster) : List UInt8 :=
  le32 c.dataSegSize ++ le32 c.nextClusterId ++ le32 c.headClusterId

/-- The header at the start of a cluster. -/
def Cluster.ofBytes (l : List UInt8) : Cluster :=
  ⟨unle32 l, unle32 (l.drop 4), unle32 (l.drop 8)⟩

/-- Every field is an `int`. -/
structure Cluster.Wf (c : Cluster) : Prop where
  dataSegSize : Lib.InInt32 c.dataSegSize
  nextClusterId : Lib.InInt32 c.nextClusterId
  headClusterId : Lib.InInt32 c.headClusterId

@[simp] theorem Cluster.length_bytes (c : Cluster) : c.bytes.length = sizeofCluster := rfl

theorem Cluster.ofBytes_bytes {c : Cluster} (h : c.Wf) (l : List UInt8) :
    ofBytes (c.bytes ++ l) = c := by
  rw [ofBytes, bytes, List.append_assoc, List.append_assoc, Lib.unle32_le32_append h.dataSegSize,
    List.drop_left' (Lib.length_le32 _), Lib.unle32_le32_append h.nextClusterId,
    show 8 = 4 + 4 from rfl, ← List.drop_drop, List.drop_left' (Lib.length_le32 _),
    List.drop_left' (Lib.length_le32 _), Lib.unle32_le32_append h.headClusterId]

/-! ## The manager -/

/-- The manager of `cluster.c`, when it is ready, with the file behind it. -/
structure Hard where
  /-- The clusters of the file. -/
  file : List (List UInt8)
  /-- `evhrd->cluster_size`. -/
  clusterSize : Nat
  /-- `evhrd->cluster_count`. -/
  clusterCount : Int
  /-- `evhrd->expand_cluster_count`. -/
  expandClusterCount : Int
  /-- The size of the file. -/
  fsize : Int
  /-- Which of the next reads fail; none of those after the last one listed. -/
  readFaults : List Bool
  /-- Which of the next writes fail. -/
  writeFaults : List Bool

/-- A cluster of zeros. -/
def zeroCluster (clusterSize : Nat) : List UInt8 := List.replicate clusterSize 0

/-- `__evfs_cluster_offset`. -/
def clusterOffset (h : Hard) (clusterId : Int) : Int := int32 (clusterId * h.clusterSize)

/-- The file with a cluster written at a position.  Past the end, the file grows. -/
def putCluster (file : List (List UInt8)) (clusterSize i : Nat) (buffer : List UInt8) :
    List (List UInt8) :=
  if i < file.length then file.set i buffer
  else file ++ List.replicate (i - file.length) (zeroCluster clusterSize) ++ [buffer]

/-- Taking the outcome of the next write. -/
def Hard.popWrite (h : Hard) : Bool × Hard :=
  (h.writeFaults.headD false, { h with writeFaults := h.writeFaults.tail })

/-- Taking the outcome of the next read. -/
def Hard.popRead (h : Hard) : Bool × Hard :=
  (h.readFaults.headD false, { h with readFaults := h.readFaults.tail })

def Hard.setFile (h : Hard) (file : List (List UInt8)) : Hard := { h with file }

/-- `evfs_hard_write_cluster`. -/
def hardWriteCluster (h : Hard) (clusterId : Int) (buffer : List UInt8) : Int × Hard :=
  let off := clusterOffset h clusterId
  if off < 0 then (eInval, h)
  else
    let (fault, h) := h.popWrite
    if fault then (eIo, h)
    else (0, h.setFile (putCluster h.file h.clusterSize (off.toNat / h.clusterSize) buffer))

/-- `evfs_hard_read_cluster` into a buffer.  Past the end of the file nothing is read, and the
number of bytes read, zero, is what the function returns. -/
def hardReadCluster (h : Hard) (clusterId : Int) (buffer : List UInt8) :
    Int × List UInt8 × Hard :=
  let off := clusterOffset h clusterId
  if off < 0 then (eInval, buffer, h)
  else
    let (fault, h) := h.popRead
    if fault then (eIo, buffer, h)
    else (0, (h.file[off.toNat / h.clusterSize]?).getD buffer, h)

/-- `evfs_hard_read_cluster_head`.  Past the end of the file the status is zero, too. -/
def hardReadClusterHead (h : Hard) (clusterId : Int) (buffer : Cluster) : Int × Cluster × Hard :=
  let off := clusterOffset h clusterId
  if off < 0 then (eInval, buffer, h)
  else
    let (fault, h) := h.popRead
    if fault then (eIo, buffer, h)
    else (0, ((h.file[off.toNat / h.clusterSize]?).map Cluster.ofBytes).getD buffer, h)

/-- `evfs_hard_get_usable_cluster_count`. -/
def hardGetUsableClusterCount (h : Hard) : Int := h.clusterCount - 1

/-- `evfs_hard_get_max_data_seg_size`. -/
def hardGetMaxDataSegSize (h : Hard) : Nat := h.clusterSize - sizeofCluster

/-- The first cluster: the header and the record of the geometry. -/
def firstCluster (clusterSize : Nat) (clusterCount expandClusterCount : Int) : List UInt8 :=
  overwrite (zeroCluster clusterSize) 0 ((⟨sizeofHrd, 0, 0⟩ : Cluster).bytes ++ le32 evfsMagic ++
    le32 clusterSize ++ le32 clusterCount ++ le32 expandClusterCount)

/-- `__evfs_cluster_expand_file`: zeros from an offset up to a size.  The number of bytes is counted
down in an `int` that is compared as an unsigned number, so it is taken modulo `2 ^ 32`. -/
def clusterExpandFile (h : Hard) (offset size : Int) : Int × Hard :=
  if offset < 0 then (eInval, h)
  else
    let (fault, h) := h.popWrite
    if fault then (eIo, h)
    else
      let remain := ((size - offset) % 2 ^ 32).toNat
      (0, h.setFile (overwrite h.file (offset.toNat / h.clusterSize)
        (List.replicate (remain / h.clusterSize) (zeroCluster h.clusterSize))))

/-- The geometry after the file was expanded. -/
def Hard.grow (h : Hard) (expandSize : Int) : Hard :=
  { h with fsize := h.fsize + expandSize,
           clusterCount := int32 (h.clusterCount + h.expandClusterCount) }

/-- `evfs_hard_expand`: how many clusters were added, or a status, and the first of them.  The
allocation in `__evfs_cluster_expand_file` succeeds. -/
def hardExpand (h : Hard) : Int × Int × Hard :=
  let expandSize := int32 (h.expandClusterCount * h.clusterSize)
  let r := clusterExpandFile h (int32 h.fsize) (int32 (h.fsize + expandSize))
  if nspSuccess r.1 then
    let h' := r.2.grow expandSize
    let w := hardWriteCluster h' 0
      (firstCluster h'.clusterSize h'.clusterCount h'.expandClusterCount)
    if nspSuccess w.1 then (h.expandClusterCount, h.clusterCount, w.2) else (w.1, 0, w.2)
  else (r.1, 0, r.2)

/-- `evfs_hard_create`, where opening the file and allocating memory succeed. -/
def hardCreate (clusterSizeFormat clusterCountFormat : Int) (readFaults writeFaults : List Bool) :
    Except Int Hard :=
  if clusterSizeFormat < minimumClusterSize ∨ clusterSizeFormat > maximumClusterSize ∨
      !isPowerof2 (BitVec.ofInt 32 clusterSizeFormat) then .error eInval
  else
    let total := int32 (clusterSizeFormat * clusterCountFormat)
    if total ≥ maximumFileSize then .error eInval
    else
      let size := clusterSizeFormat.toNat
      let h : Hard := ⟨[firstCluster size clusterCountFormat clusterCountFormat], size,
        clusterCountFormat, clusterCountFormat, total, readFaults, writeFaults⟩
      let r := clusterExpandFile h clusterSizeFormat total
      if nspSuccess r.1 then .ok r.2 else .error r.1

/-- `evfs_hard_close`: the bytes of the file. -/
def hardClose (h : Hard) : List UInt8 := h.file.flatten

/-- The clusters of a file. -/
def splitClusters (clusterSize : Nat) (image : List UInt8) : List (List UInt8) :=
  (List.range (image.length / clusterSize)).map fun i => slice image (i * clusterSize) clusterSize

/-- `evfs_hard_open`, where opening the file and allocating memory succeed.  The guide, which is the
header and the whole record, is copied into a block of one cluster: there is no result where it is
longer than the block. -/
def hardOpen (image : List UInt8) (readFaults writeFaults : List Bool) :
    Option (Except Int Hard) :=
  if image.length < sizeofCluster + sizeofHrd ∨ (image.length : Int) > maximumFileSize then
    some (.error eBfont)
  else
    let guide := image.take (sizeofCluster + sizeofHrd)
    let evhrd := guide.drop sizeofCluster
    let magic := unle32 evhrd
    let clusterSize := unle32 (evhrd.drop 4)
    let clusterCount := unle32 (evhrd.drop 8)
    let expandClusterCount := unle32 (evhrd.drop 12)
    if Cluster.ofBytes guide ≠ ⟨sizeofHrd, 0, 0⟩ then some (.error ePrototype)
    else if magic ≠ evfsMagic then some (.error eBfont)
    else if clusterSize < minimumClusterSize ∨ clusterSize > maximumClusterSize then
      some (.error eBfont)
    else if int32 (clusterSize * clusterCount) ≠ image.length then some (.error eBfont)
    else if clusterSize < sizeofCluster + sizeofHrd then none
    else some (.ok ⟨splitClusters clusterSize.toNat image, clusterSize.toNat, clusterCount,
      expandClusterCount, image.length, readFaults, writeFaults⟩)

end Evfs

end LibNax
