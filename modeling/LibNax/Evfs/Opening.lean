import LibNax.Evfs.Hard
import LibNax.Lib.Bytes
import LibNax.Lib.Int32

/-!
# Opening a file

A file starts with a cluster that holds the guide: a header, and the record of the geometry.
`evfs_hard_open` reads the 92 bytes of the guide, compares the geometry with the length of the file,
and copies the guide into a block of the size of one cluster.  So no file whose clusters are shorter
than the guide is ever opened: up to 91 bytes the copy destroys the memory behind the block.

* `hardOpen_flatten` — opening the file of some clusters finds them and their geometry, if the guide
  fits in one.
* `Hard.ofTable`, `hardOpen_ofTable` — a file with given headers, and that it can be opened.
-/

set_option autoImplicit false

namespace LibNax

namespace Evfs

open Lib (le32 unle32 slice overwrite)

/-! ## The guide -/

variable {u : List (List UInt8)} {clusterSize : Nat} {clusterCount expandClusterCount : Int}

theorem length_flatten_clusters (hu : ∀ b ∈ u, b.length = clusterSize) :
    u.flatten.length = u.length * clusterSize := by
  induction u with
  | nil => simp
  | cons b u ih =>
    rw [List.flatten_cons, List.length_append, hu b List.mem_cons_self,
      ih fun b hb => hu b (List.mem_cons_of_mem _ hb), List.length_cons, Nat.succ_mul, Nat.add_comm]

/-- The clusters are found again in the bytes of the file. -/
theorem splitClusters_flatten (hpos : 0 < clusterSize) (hu : ∀ b ∈ u, b.length = clusterSize) :
    splitClusters clusterSize u.flatten = u := by
  rw [splitClusters, length_flatten_clusters hu, Nat.mul_div_cancel _ hpos]
  induction u with
  | nil => rfl
  | cons b u ih =>
    have hb := hu b List.mem_cons_self
    rw [List.length_cons, List.range_succ_eq_map, List.map_cons, List.map_map, List.flatten_cons]
    congr 1
    · rw [slice, Nat.zero_mul, List.drop_zero, List.take_left' hb]
    · refine .trans (List.map_congr_left fun i _ => ?_)
        (ih fun b hb => hu b (List.mem_cons_of_mem _ hb))
      show slice (b ++ u.flatten) ((i + 1) * clusterSize) clusterSize = _
      rw [slice, slice, Nat.succ_mul, Nat.add_comm, ← List.drop_drop, List.drop_left' hb]

/-- The record of the geometry, as it lies in the first cluster. -/
def hrdBytes (clusterSize : Nat) (clusterCount expandClusterCount : Int) : List UInt8 :=
  le32 evfsMagic ++ (le32 clusterSize ++ (le32 clusterCount ++ le32 expandClusterCount))

/-- The start of the file. -/
theorem take_guide (clusterSize : Nat) (clusterCount expandClusterCount : Int)
    (rest : List UInt8) : ∃ zeros,
    (firstCluster clusterSize clusterCount expandClusterCount ++ rest).take
        (sizeofCluster + sizeofHrd) =
      (⟨sizeofHrd, 0, 0⟩ : Cluster).bytes ++
        (hrdBytes clusterSize clusterCount expandClusterCount ++ zeros) := by
  have hlen : ((⟨sizeofHrd, 0, 0⟩ : Cluster).bytes ++
      hrdBytes clusterSize clusterCount expandClusterCount).length = 28 := rfl
  have hfirst : firstCluster clusterSize clusterCount expandClusterCount =
      ((⟨sizeofHrd, 0, 0⟩ : Cluster).bytes ++
        hrdBytes clusterSize clusterCount expandClusterCount) ++
          (zeroCluster clusterSize).drop 28 := by
    rw [firstCluster, overwrite, List.take_zero, List.nil_append, hrdBytes]
    simp only [List.append_assoc]
    rfl
  refine ⟨((zeroCluster clusterSize).drop 28 ++ rest).take 64, ?_⟩
  rw [hfirst, List.append_assoc, List.take_append, hlen, List.take_of_length_le (by
    rw [hlen, sizeofCluster, sizeofHrd]; omega), List.append_assoc]
  rfl

theorem unle32_hrdBytes (hint : Lib.InInt32 clusterSize) (hcount : Lib.InInt32 clusterCount)
    (hexpand : Lib.InInt32 expandClusterCount) (zeros : List UInt8) :
    unle32 (hrdBytes clusterSize clusterCount expandClusterCount ++ zeros) = evfsMagic ∧
    unle32 ((hrdBytes clusterSize clusterCount expandClusterCount ++ zeros).drop 4) = clusterSize ∧
    unle32 ((hrdBytes clusterSize clusterCount expandClusterCount ++ zeros).drop 8) = clusterCount ∧
    unle32 ((hrdBytes clusterSize clusterCount expandClusterCount ++ zeros).drop 12) =
      expandClusterCount := by
  simp only [hrdBytes, List.append_assoc]
  refine ⟨Lib.unle32_le32_append (by decide) _, ?_, ?_, ?_⟩
  · rw [List.drop_left' (Lib.length_le32 _)]
    exact Lib.unle32_le32_append hint _
  · rw [show 8 = 4 + 4 from rfl, ← List.drop_drop, List.drop_left' (Lib.length_le32 _),
      List.drop_left' (Lib.length_le32 _)]
    exact Lib.unle32_le32_append hcount _
  · rw [show 12 = 4 + 4 + 4 from rfl, ← List.drop_drop, ← List.drop_drop,
      List.drop_left' (Lib.length_le32 _), List.drop_left' (Lib.length_le32 _),
      List.drop_left' (Lib.length_le32 _)]
    exact Lib.unle32_le32_append hexpand _

/-- **Opening** a file that holds the clusters finds them, and their geometry. -/
theorem hardOpen_flatten (hsize : sizeofCluster + sizeofHrd ≤ clusterSize) (hle : clusterSize ≤ 4096)
    (hu : ∀ b ∈ u, b.length = clusterSize) (hlen : (u.length : Int) = clusterCount)
    (hlong : 92 ≤ clusterCount * clusterSize) (hfits : clusterCount * clusterSize ≤ 2 ^ 30)
    (hexpand : Lib.InInt32 expandClusterCount)
    (hfirst : u[0]? = some (firstCluster clusterSize clusterCount expandClusterCount)) :
    hardOpen u.flatten [] [] = some (.ok ⟨u, clusterSize, clusterCount, expandClusterCount,
      clusterCount * clusterSize, [], []⟩) := by
  rw [sizeofCluster, sizeofHrd] at hsize
  have hpos : 0 < u.length := by
    rcases Nat.eq_zero_or_pos u.length with hzero | hpos
    · rw [List.getElem?_eq_none (by omega)] at hfirst
      cases hfirst
    · exact hpos
  have hflat : (u.flatten.length : Int) = clusterCount * clusterSize := by
    rw [length_flatten_clusters hu, Int.natCast_mul, hlen]
  have hcount : Lib.InInt32 clusterCount := by
    constructor
    · omega
    · nlinarith
  rw [← hflat] at hlong
  obtain ⟨b, rest, rfl⟩ : ∃ b rest, u = b :: rest := by
    cases u with
    | nil => cases hpos
    | cons b rest => exact ⟨b, rest, rfl⟩
  obtain rfl : b = firstCluster clusterSize clusterCount expandClusterCount := by
    simpa using hfirst
  obtain ⟨zeros, hguide⟩ := take_guide clusterSize clusterCount expandClusterCount rest.flatten
  rw [← List.flatten_cons] at hguide
  have hint : Lib.InInt32 clusterSize := ⟨by omega, by omega⟩
  have hhead : Cluster.ofBytes ((⟨sizeofHrd, 0, 0⟩ : Cluster).bytes ++
      (hrdBytes clusterSize clusterCount expandClusterCount ++ zeros)) = ⟨sizeofHrd, 0, 0⟩ :=
    Cluster.ofBytes_bytes ⟨by decide, by decide, by decide⟩ _
  have hrecord : ((⟨sizeofHrd, 0, 0⟩ : Cluster).bytes ++
      (hrdBytes clusterSize clusterCount expandClusterCount ++ zeros)).drop sizeofCluster =
      hrdBytes clusterSize clusterCount expandClusterCount ++ zeros :=
    List.drop_left' (Cluster.length_bytes _)
  obtain ⟨hmagic, hcs, hcc, hec⟩ := unle32_hrdBytes hint hcount hexpand zeros
  rw [hardOpen, if_neg (by rw [sizeofCluster, sizeofHrd, maximumFileSize]; omega)]
  simp only [hguide, hrecord, hhead, hmagic, hcs, hcc, hec, ne_eq, not_true, if_false]
  rw [if_neg (by rw [minimumClusterSize, maximumClusterSize]; omega), hflat,
    Int.mul_comm (clusterSize : Int), Lib.int32_of_inInt32 ⟨by nlinarith, by omega⟩,
    if_neg (not_not_intro rfl), if_neg (by rw [sizeofCluster, sizeofHrd]; omega),
    Int.toNat_natCast, splitClusters_flatten (by omega) hu]

/-! ## Files to look at -/

theorem length_firstCluster {clusterSize : Nat} (h : 32 ≤ clusterSize) (n m : Int) :
    (firstCluster clusterSize n m).length = clusterSize := by
  rw [firstCluster, Lib.length_overwrite, zeroCluster, List.length_replicate]
  simp only [List.length_append, Cluster.length_bytes, Lib.length_le32, zeroCluster,
    List.length_replicate, sizeofCluster]
  omega

/-- A file of clusters of 128 bytes with these headers behind the first cluster, as
`evfs_hard_create` makes it. -/
def Hard.ofTable (headers : List Cluster) : Hard :=
  ⟨firstCluster 128 (headers.length + 1 : Nat) (headers.length + 1 : Nat) ::
      headers.map fun c => c.bytes ++ List.replicate 116 0,
    128, (headers.length + 1 : Nat), (headers.length + 1 : Nat), (headers.length + 1 : Nat) * 128, [],
    []⟩

theorem length_ofTable (headers : List Cluster) :
    ((Hard.ofTable headers).file.length : Int) = (Hard.ofTable headers).clusterCount := by
  rw [Hard.ofTable, List.length_cons, List.length_map]

theorem sizes_ofTable (headers : List Cluster) : ∀ b ∈ (Hard.ofTable headers).file,
    b.length = 128 := by
  intro b hb
  rcases List.mem_cons.mp hb with rfl | hb
  · exact length_firstCluster (by decide) _ _
  · obtain ⟨c, -, rfl⟩ := List.mem_map.mp hb
    rw [List.length_append, c.length_bytes, List.length_replicate]
    rfl

/-- It can be opened. -/
theorem hardOpen_ofTable {headers : List Cluster} (h : headers.length < 2 ^ 20) :
    hardOpen (Hard.ofTable headers).file.flatten [] [] = some (.ok (Hard.ofTable headers)) := by
  have hint : Lib.InInt32 ((headers.length + 1 : Nat) : Int) := ⟨by omega, by omega⟩
  refine hardOpen_flatten (by decide) (by decide) (sizes_ofTable headers) (length_ofTable headers)
    ?_ ?_ hint rfl
  · show (92 : Int) ≤ (headers.length + 1 : Nat) * 128
    omega
  · show ((headers.length + 1 : Nat) : Int) * 128 ≤ 2 ^ 30
    omega

end Evfs

end LibNax
