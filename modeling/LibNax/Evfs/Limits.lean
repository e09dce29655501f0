import LibNax.Evfs.Catalog
import LibNax.Evfs.Fresh

/-!
# The limits of a file

A file has clusters of 32 to 4096 bytes and is not to exceed 1 GB.  The limit is tested when a file
is made and when one is opened, with products of two integers of 32 bits, and it is not tested when
a file grows.

* `Accepted` — the numbers that `evfs_create` takes.
* `Recreated` — the file can be opened again, with the same numbers.
* `evfsCreate_recreated_iff` — exactly when what is accepted can be opened again.
* `Enlarged` — what an expansion should do, and `hardExpand_enlarged_iff` when all of them do.
-/

set_option autoImplicit false

namespace LibNax

namespace Evfs

open Lib (int32)

/-! ## Creating -/

/-- The numbers that `evfs_create` takes. -/
def Accepted (clusterSize clusterCount : Int) : Prop :=
  minimumClusterSize ≤ clusterSize ∧ clusterSize ≤ maximumClusterSize ∧
    isPowerof2 (BitVec.ofInt 32 clusterSize) = true ∧ 0 < clusterCount ∧
    int32 (clusterSize * clusterCount) < maximumFileSize

instance (clusterSize clusterCount : Int) : Decidable (Accepted clusterSize clusterCount) :=
  inferInstanceAs (Decidable (_ ∧ _ ∧ _ ∧ _ ∧ _))

/-- The numbers are those of a file of less than 1 GB, the file has that size and starts with the
numbers, and opening it finds them. -/
structure Recreated (clusterSize clusterCount : Int) (image : List UInt8) : Prop where
  size : 32 ≤ clusterSize ∧ clusterSize ≤ 4096 ∧ isPowerof2 (BitVec.ofInt 32 clusterSize) = true
  count : 0 < clusterCount
  lt : clusterSize * clusterCount < 2 ^ 30
  length : (image.length : Int) = clusterSize * clusterCount
  first : image.take clusterSize.toNat = firstCluster clusterSize.toNat clusterCount clusterCount
  reopen : ∃ hard, hardOpen image [] [] = some (.ok hard) ∧
    (hard.clusterSize : Int) = clusterSize ∧ hard.clusterCount = clusterCount ∧
    hard.expandClusterCount = clusterCount

section Create

variable {clusterSize clusterCount : Int} {garbage : Garbage}

theorem hardCreate_accepted (h : Accepted clusterSize clusterCount) :
    ∃ hard, hardCreate clusterSize clusterCount [] [] = .ok hard := by
  obtain ⟨hmin, hmax, hpow, -, hlt⟩ := h
  have hpos : 0 ≤ clusterSize := Int.le_trans (by decide) hmin
  have hok : ¬(clusterSize < minimumClusterSize ∨ clusterSize > maximumClusterSize ∨
      (!isPowerof2 (BitVec.ofInt 32 clusterSize)) = true) := by
    rintro (hlow | hhigh | hno)
    · omega
    · omega
    · rw [hpow] at hno
      cases hno
  rw [hardCreate, if_neg hok]
  simp only
  rw [if_neg (by omega), clusterExpandFile_eq hpos rfl]
  exact ⟨_, rfl⟩

theorem hardCreate_refused (hcount : 0 < clusterCount) (h : ¬Accepted clusterSize clusterCount) :
    hardCreate clusterSize clusterCount [] [] = .error eInval := by
  rw [hardCreate]
  split
  · rfl
  rename_i hsize
  simp only [not_or, Int.not_lt, Bool.not_eq_true', Bool.not_eq_false] at hsize
  simp only
  split
  · rfl
  rename_i hlt
  exact absurd ⟨hsize.1, hsize.2.1, hsize.2.2, hcount, by omega⟩ h

/-- What is accepted is made. -/
theorem evfsCreate_accepted (garbage : Garbage) (cacheBlockNum : Nat)
    (h : Accepted clusterSize clusterCount) :
    ∃ fs, evfsCreate garbage Fs.init clusterSize clusterCount cacheBlockNum [] [] [] =
      some (0, fs) := by
  obtain ⟨hard, hhard⟩ := hardCreate_accepted h
  have hmin : 32 ≤ clusterSize := h.1
  have hcount := h.2.2.2.1
  rw [evfsCreate, if_neg (by omega), hhard]
  simp only
  obtain ⟨vol, hcreate, -⟩ :=
    viewed_viewCreate garbage.views (cacheInit garbage.blocks hard cacheBlockNum)
  rw [entriesCreate, mount_init]
  simp only [Fs.setVol, hcreate, nspSuccess_zero, if_true]
  exact ⟨_, rfl⟩

theorem evfsCreate_refused (cacheBlockNum : Nat) (h : ¬Accepted clusterSize clusterCount) :
    evfsCreate garbage Fs.init clusterSize clusterCount cacheBlockNum [] [] [] =
      some (eInval, Fs.init) := by
  rw [evfsCreate]
  split
  · rfl
  · rw [hardCreate_refused (by omega) h]

/-- Closing a new file system leaves its file. -/
theorem Fresh.close {s : Fs} (f : Fresh s) :
    (evfsClose s).1 = s.vol.io.cache.hard.file.flatten := by
  have hio : (entriesUninit s).vol.io = s.vol.io := by
    rw [entriesUninit, f.entries]
    exact viewUninit_io _
  show ((entriesUninit s).vol.io.cache.flushBufferAll.hard.file).flatten = _
  rw [hio, f.mirror.sim.flushBufferAll.2]

/-- A power of two that is at least the size of the guide. -/
theorem le_of_isPowerof2 {n : Int} (h : isPowerof2 (BitVec.ofInt 32 n) = true) (hle : 92 ≤ n)
    (hmax : n ≤ 4096) : 128 ≤ n := by
  obtain ⟨k, hk⟩ := (isPowerof2_iff _).mp h
  have hlt : 6 < k := by
    by_contra hno
    have : 2 ^ k ≤ 2 ^ 6 := Nat.pow_le_pow_right (by decide) (by omega)
    rw [BitVec.toNat_ofInt] at hk
    omega
  have : 2 ^ 7 ≤ 2 ^ k := Nat.pow_le_pow_right (by decide) hlt
  rw [BitVec.toNat_ofInt] at hk
  omega

/-- A file of clusters that hold the guide, and of less than 1 GB, is as it should be. -/
theorem Fresh.recreated {s : Fs} (f : Fresh s) (h : Accepted clusterSize clusterCount)
    (hsize : 128 ≤ clusterSize) (hlt : clusterSize * clusterCount < 2 ^ 30)
    (hcs : s.vol.io.cache.hard.clusterSize = clusterSize.toNat)
    (hcc : s.vol.io.cache.hard.clusterCount = clusterCount) :
    Recreated clusterSize clusterCount (evfsClose s).1 := by
  obtain ⟨hmin, hmax, hpow, hcount, -⟩ := h
  have hmax' : clusterSize ≤ 4096 := hmax
  have ff := f.formatted
  have hsizes := f.mirror.sim.sizes
  have hlen := ff.length
  have hexpand := ff.expand
  have hfile := ff.file
  rw [f.close]
  rw [hcs] at hsizes
  rw [hexpand, hcs, hcc] at hfile
  rw [hcc] at hlen
  generalize s.vol.io.cache.hard.file = u at hsizes hlen hfile
  have hcast : ((clusterSize.toNat : Nat) : Int) = clusterSize := by omega
  have hflat : (u.flatten.length : Int) = clusterSize * clusterCount := by
    rw [length_flatten_clusters hsizes, Int.natCast_mul, hlen, hcast, Int.mul_comm]
  have hprod : clusterCount * (clusterSize.toNat : Int) = clusterSize * clusterCount := by
    rw [hcast, Int.mul_comm]
  have hopen : hardOpen u.flatten [] [] = some (.ok ⟨u, clusterSize.toNat, clusterCount,
      clusterCount, clusterCount * clusterSize.toNat, [], []⟩) :=
    hardOpen_flatten (by rw [sizeofCluster, sizeofHrd]; omega) (by omega) hsizes hlen
      (by rw [hprod]; nlinarith) (by rw [hprod]; omega) ⟨by omega, by nlinarith⟩ (by rw [hfile]; rfl)
  refine ⟨⟨by omega, by omega, hpow⟩, hcount, hlt, hflat, ?_, ?_⟩
  · rw [hfile, List.flatten_cons]
    exact List.take_left' (length_firstCluster (by omega) _ _)
  · exact ⟨_, hopen, hcast, rfl, rfl⟩

/-- The clusters of a file that was opened hold the guide. -/
theorem le_of_hardOpen {image : List UInt8} {readFaults writeFaults : List Bool} {hard : Hard}
    (heq : hardOpen image readFaults writeFaults = some (.ok hard)) : 92 ≤ hard.clusterSize := by
  rw [hardOpen] at heq
  split at heq
  · cases heq
  simp only at heq
  split at heq
  · cases heq
  split at heq
  · cases heq
  split at heq
  · cases heq
  split at heq
  · cases heq
  split at heq
  · cases heq
  rename_i hguide
  generalize Lib.unle32 (((image.take (sizeofCluster + sizeofHrd)).drop sizeofCluster).drop 4) =
    clusterSize at heq hguide
  rw [sizeofCluster, sizeofHrd] at hguide
  cases heq
  show 92 ≤ clusterSize.toNat
  omega

/-- **What `evfs_create` accepts can be opened again** exactly when its clusters hold the guide and
the file is really shorter than 1 GB. -/
theorem evfsCreate_recreated_iff (garbage : Garbage) (clusterSize clusterCount : Int)
    (cacheBlockNum : Nat) :
    (∀ status fs, evfsCreate garbage Fs.init clusterSize clusterCount cacheBlockNum [] [] [] =
        some (status, fs) → nspSuccess status = true →
      Recreated clusterSize clusterCount (evfsClose fs).1) ↔
    (Accepted clusterSize clusterCount →
      128 ≤ clusterSize ∧ clusterSize * clusterCount < 2 ^ 30) := by
  constructor
  · intro hall haccepted
    obtain ⟨fs, hcreate⟩ := evfsCreate_accepted garbage cacheBlockNum haccepted
    have h := hall 0 fs hcreate rfl
    refine ⟨?_, h.lt⟩
    obtain ⟨hard, hopen, hsize, -⟩ := h.reopen
    have hguide := le_of_hardOpen hopen
    exact le_of_isPowerof2 h.size.2.2 (by omega) h.size.2.1
  · intro hcond status fs hcreate hstatus
    by_cases haccepted : Accepted clusterSize clusterCount
    · obtain ⟨hsize, hlt⟩ := hcond haccepted
      obtain ⟨f, hcs, hcc, -⟩ := fresh_of_evfsCreate (by omega) hcreate hstatus
      exact f.recreated haccepted hsize hlt hcs hcc
    · rw [evfsCreate_refused cacheBlockNum haccepted] at hcreate
      cases hcreate
      cases hstatus

end Create

/-- Nothing was left behind by `ztrymalloc`. -/
def Garbage.none : Garbage := ⟨fun _ => [], fun _ => .zero, .zero, fun _ => .none⟩

/-- A file of 32 bytes is too short to be opened, and 2 ^ 20 clusters of 4096 bytes are four times
what a file can have: the product is zero as an `int`. -/
theorem evfsCreate_not_recreated :
    (∃ fs, evfsCreate Garbage.none Fs.init 32 1 0 [] [] [] = some (0, fs) ∧
      ¬Recreated 32 1 (evfsClose fs).1) ∧
    ∃ fs, evfsCreate Garbage.none Fs.init 4096 (2 ^ 20) 0 [] [] [] = some (0, fs) ∧
      ¬Recreated 4096 (2 ^ 20) (evfsClose fs).1 := by
  constructor
  · obtain ⟨fs, hcreate⟩ := evfsCreate_accepted Garbage.none 0 (show Accepted 32 1 by decide)
    refine ⟨fs, hcreate, fun h => ?_⟩
    have hlen := h.length
    obtain ⟨hard, hopen, -⟩ := h.reopen
    have hshort : (evfsClose fs).1.length < sizeofCluster + sizeofHrd := by
      rw [sizeofCluster, sizeofHrd]
      omega
    rw [hardOpen, if_pos (.inl hshort)] at hopen
    cases hopen
  · obtain ⟨fs, hcreate⟩ :=
      evfsCreate_accepted Garbage.none 0 (show Accepted 4096 (2 ^ 20) by decide)
    exact ⟨fs, hcreate, fun h => absurd h.lt (by decide)⟩

/-! ## Growing -/

/-- A larger file would be longer than 1 GB, or the file is to become shorter. -/
def Breaks (h : Hard) : Prop :=
  h.expandClusterCount < 0 ∨ 2 ^ 30 < (h.clusterCount + h.expandClusterCount) * h.clusterSize

/-- What an expansion should do: if it succeeds the new geometry is that of a file of at most 1 GB,
the clusters are where they should be, those that were added are the ones behind the old ones, and
the file can be opened again; and if that cannot be it fails and changes nothing. -/
structure Enlarged (h : Hard) (r : Int × Int × Hard) : Prop where
  fsize : 0 ≤ r.1 → r.2.2.fsize = r.2.2.clusterCount * r.2.2.clusterSize ∧
    r.2.2.fsize ≤ maximumFileSize
  offset : 0 ≤ r.1 → ∀ clusterId, 0 ≤ clusterId → clusterId < r.2.2.clusterCount →
    clusterOffset r.2.2 clusterId = clusterId * r.2.2.clusterSize ∧
      0 ≤ clusterOffset r.2.2 clusterId
  added : 0 ≤ r.1 → r.2.1 = h.clusterCount ∧ r.2.2.clusterCount = h.clusterCount + r.1
  reopen : 0 ≤ r.1 → ∃ hard, hardOpen (hardClose r.2.2) [] [] = some (.ok hard) ∧
    hard.clusterSize = r.2.2.clusterSize ∧ hard.clusterCount = r.2.2.clusterCount ∧
    hard.expandClusterCount = r.2.2.expandClusterCount
  refused : Breaks h → r.1 < 0 ∧ r.2.2 = { h with writeFaults := r.2.2.writeFaults }

/-- The larger file has at most 1 GB, or its first write fails. -/
def Within (h : Hard) : Prop :=
  h.writeFaults.headD false = true ∨
    0 ≤ h.expandClusterCount ∧
      (h.clusterCount + h.expandClusterCount) * h.clusterSize ≤ maximumFileSize

/-- A file whose geometry is true, of clusters that hold the guide. -/
structure Sized (h : Hard) : Prop where
  size : 92 ≤ h.clusterSize ∧ h.clusterSize ≤ 4096
  count : 0 < h.clusterCount
  fsize : h.fsize = h.clusterCount * h.clusterSize
  fsize_le : h.fsize ≤ maximumFileSize
  length : (h.file.length : Int) = h.clusterCount
  clusters : ∀ b ∈ h.file, b.length = h.clusterSize
  expand : Lib.InInt32 h.expandClusterCount

/-- The file with the new clusters, before the first cluster is written. -/
def Hard.stretched (h : Hard) : Hard :=
  { h with
    file := h.file ++ List.replicate h.expandClusterCount.toNat (zeroCluster h.clusterSize)
    fsize := h.fsize + h.expandClusterCount * h.clusterSize
    clusterCount := h.clusterCount + h.expandClusterCount
    writeFaults := h.writeFaults.tail }

section Expand

variable {h : Hard}

theorem Sized.fsize_nonneg (g : Sized h) : 0 ≤ h.fsize := by
  rw [g.fsize]
  exact Int.mul_nonneg (Int.le_of_lt g.count) (Int.natCast_nonneg _)

theorem Sized.int32_fsize (g : Sized h) : int32 h.fsize = h.fsize := by
  have hle := g.fsize_le
  have hnn := g.fsize_nonneg
  rw [maximumFileSize] at hle
  exact Lib.int32_of_inInt32 ⟨by omega, by omega⟩

/-- The first write fails. -/
theorem hardExpand_fault (g : Sized h) (hfault : h.writeFaults.headD false = true) :
    hardExpand h = (eIo, 0, { h with writeFaults := h.writeFaults.tail }) := by
  have hnn := g.fsize_nonneg
  have hfail : ∀ size, clusterExpandFile h h.fsize size =
      (eIo, { h with writeFaults := h.writeFaults.tail }) := by
    intro size
    rw [clusterExpandFile, if_neg (by omega), Hard.popWrite]
    simp only [hfault, if_true]
  have hio : nspSuccess eIo = false := by decide
  rw [hardExpand, g.int32_fsize]
  simp only [hfail, hio, Bool.false_eq_true, if_false]

/-- The new clusters are behind the old ones. -/
theorem clusterExpandFile_sized (g : Sized h) (hw : h.writeFaults.headD false = false)
    (hnn : 0 ≤ h.expandClusterCount)
    (hfit : (h.clusterCount + h.expandClusterCount) * h.clusterSize ≤ maximumFileSize) :
    clusterExpandFile h h.fsize (h.fsize + h.expandClusterCount * h.clusterSize) =
      (0, { h with
        file := h.file ++ List.replicate h.expandClusterCount.toNat (zeroCluster h.clusterSize)
        writeFaults := h.writeFaults.tail }) := by
  have hpos : 0 < h.clusterSize := by have := g.size.1; omega
  rw [maximumFileSize] at hfit
  obtain ⟨n, hn⟩ := Int.eq_ofNat_of_zero_le (Int.le_of_lt g.count)
  obtain ⟨x, hx⟩ := Int.eq_ofNat_of_zero_le hnn
  have hlen : h.file.length = n := by
    have := g.length
    omega
  have hoff : h.fsize.toNat / h.clusterSize = n := by
    rw [g.fsize, hn, ← Int.natCast_mul, Int.toNat_natCast, Nat.mul_div_cancel _ hpos]
  have hremain : ((h.fsize + h.expandClusterCount * h.clusterSize - h.fsize) % 2 ^ 32).toNat /
      h.clusterSize = x := by
    have hsub : h.fsize + h.expandClusterCount * h.clusterSize - h.fsize =
        ((x * h.clusterSize : Nat) : Int) := by
      rw [hx, Int.natCast_mul]
      omega
    have hlt : ((x * h.clusterSize : Nat) : Int) < 2 ^ 32 := by
      have hprod : 0 ≤ (n : Int) * h.clusterSize := Int.natCast_nonneg (n * h.clusterSize)
      rw [hn, hx, Int.add_mul] at hfit
      rw [Int.natCast_mul]
      omega
    rw [hsub, Int.emod_eq_of_lt (Int.natCast_nonneg _) hlt, Int.toNat_natCast,
      Nat.mul_div_cancel _ hpos]
  have hfile : Lib.overwrite h.file n (List.replicate x (zeroCluster h.clusterSize)) =
      h.file ++ List.replicate x (zeroCluster h.clusterSize) := by
    rw [Lib.overwrite, ← hlen, List.take_length, List.drop_eq_nil_of_le (by omega),
      List.append_nil]
  rw [clusterExpandFile, if_neg (Int.not_lt.mpr g.fsize_nonneg), Hard.popWrite]
  have hx' : h.expandClusterCount.toNat = x := by omega
  simp only [hw, Bool.false_eq_true, if_false, hremain, hoff, hfile, hx', Hard.setFile]

/-- The clusters are made, and then the first cluster is written. -/
theorem hardExpand_stretched (g : Sized h) (hw : h.writeFaults.headD false = false)
    (hnn : 0 ≤ h.expandClusterCount)
    (hfit : (h.clusterCount + h.expandClusterCount) * h.clusterSize ≤ maximumFileSize) :
    hardExpand h =
      let w := hardWriteCluster h.stretched 0 (firstCluster h.stretched.clusterSize
        h.stretched.clusterCount h.stretched.expandClusterCount)
      if nspSuccess w.1 then (h.expandClusterCount, h.clusterCount, w.2) else (w.1, 0, w.2) := by
  have hexpand := clusterExpandFile_sized g hw hnn hfit
  have hsize : (92 : Int) ≤ h.clusterSize := by exact_mod_cast g.size.1
  have hnn' := g.fsize_nonneg
  have hcount := g.count
  rw [maximumFileSize] at hfit
  have hprod : 0 ≤ h.expandClusterCount * h.clusterSize := Int.mul_nonneg hnn (by omega)
  have hsum : h.fsize + h.expandClusterCount * h.clusterSize ≤ 2 ^ 30 := by
    rw [g.fsize, ← Int.add_mul]
    exact hfit
  have hsize' : int32 (h.expandClusterCount * h.clusterSize) =
      h.expandClusterCount * h.clusterSize :=
    Lib.int32_of_inInt32 ⟨by omega, by omega⟩
  have hend : int32 (h.fsize + h.expandClusterCount * h.clusterSize) =
      h.fsize + h.expandClusterCount * h.clusterSize :=
    Lib.int32_of_inInt32 ⟨by omega, by omega⟩
  have hcount' : int32 (h.clusterCount + h.expandClusterCount) =
      h.clusterCount + h.expandClusterCount :=
    Lib.int32_of_inInt32 ⟨by omega, by nlinarith⟩
  rw [hardExpand, g.int32_fsize]
  simp only [hsize', hend, hexpand, nspSuccess_zero, if_true, Hard.grow, hcount']
  rfl

/-- With its new clusters the file has a true geometry again. -/
theorem Sized.stretched (g : Sized h) (hnn : 0 ≤ h.expandClusterCount)
    (hfit : (h.clusterCount + h.expandClusterCount) * h.clusterSize ≤ maximumFileSize) :
    Sized h.stretched where
  size := g.size
  count := by
    have := g.count
    show 0 < h.clusterCount + h.expandClusterCount
    omega
  fsize := by
    show h.fsize + h.expandClusterCount * h.clusterSize =
      (h.clusterCount + h.expandClusterCount) * h.clusterSize
    rw [g.fsize, Int.add_mul]
  fsize_le := by
    show h.fsize + h.expandClusterCount * h.clusterSize ≤ maximumFileSize
    rwa [g.fsize, ← Int.add_mul]
  length := by
    show ((h.file ++ List.replicate h.expandClusterCount.toNat
      (zeroCluster h.clusterSize)).length : Int) = h.clusterCount + h.expandClusterCount
    rw [List.length_append, List.length_replicate, Int.natCast_add, g.length,
      Int.toNat_of_nonneg hnn]
  clusters := by
    intro b hb
    rcases List.mem_append.mp hb with hb | hb
    · exact g.clusters b hb
    · rw [(List.mem_replicate.mp hb).2]
      exact List.length_replicate
  expand := g.expand

theorem Sized.congr {h' : Hard} (g : Sized h) (hfile : h'.file = h.file)
    (hsize : h'.clusterSize = h.clusterSize) (hcount : h'.clusterCount = h.clusterCount)
    (hexpand : h'.expandClusterCount = h.expandClusterCount) (hfsize : h'.fsize = h.fsize) :
    Sized h' where
  size := hsize ▸ g.size
  count := hcount ▸ g.count
  fsize := by rw [hfsize, hcount, hsize, g.fsize]
  fsize_le := hfsize ▸ g.fsize_le
  length := by rw [hfile, hcount, g.length]
  clusters := by
    rw [hfile, hsize]
    exact g.clusters
  expand := hexpand ▸ g.expand

/-- Writing the first cluster. -/
theorem hardWriteCluster_first (g : Sized h) (buffer : List UInt8)
    (hbuffer : buffer.length = h.clusterSize) :
    Sized (hardWriteCluster h 0 buffer).2 ∧
      (nspSuccess (hardWriteCluster h 0 buffer).1 = true →
        (hardWriteCluster h 0 buffer).2.file[0]? = some buffer) := by
  have hzero : clusterOffset h 0 = 0 := by
    rw [clusterOffset, Int.zero_mul]
    rfl
  have hpos : 0 < h.file.length := by
    have := g.length
    have := g.count
    omega
  rw [hardWriteCluster, hzero, if_neg (by omega), Hard.popWrite]
  simp only [Int.toNat_zero, Nat.zero_div]
  split
  · have hio : nspSuccess eIo ≠ true := by decide
    exact ⟨g.congr rfl rfl rfl rfl rfl, fun hno => absurd hno hio⟩
  · rw [putCluster, if_pos hpos]
    refine ⟨⟨g.size, g.count, g.fsize, g.fsize_le, ?_, ?_, g.expand⟩, fun _ => ?_⟩
    · show ((h.file.set 0 buffer).length : Int) = h.clusterCount
      rw [List.length_set]
      exact g.length
    · intro b hb
      rcases List.mem_or_eq_of_mem_set hb with hb | rfl
      · exact g.clusters b hb
      · exact hbuffer
    · exact List.getElem?_set_self hpos

/-- Every cluster of a file of at most 1 GB is where it should be. -/
theorem Sized.offset (g : Sized h) {clusterId : Int} (hnn : 0 ≤ clusterId)
    (hlt : clusterId < h.clusterCount) :
    clusterOffset h clusterId = clusterId * h.clusterSize ∧ 0 ≤ clusterOffset h clusterId := by
  have hle := g.fsize_le
  have hsize : (92 : Int) ≤ h.clusterSize := by exact_mod_cast g.size.1
  rw [g.fsize, maximumFileSize] at hle
  have hprod : 0 ≤ clusterId * h.clusterSize := Int.mul_nonneg hnn (by omega)
  have hoff : clusterOffset h clusterId = clusterId * h.clusterSize :=
    Lib.int32_of_inInt32 ⟨by omega, by nlinarith⟩
  exact ⟨hoff, by rw [hoff]; exact hprod⟩

/-- The file of a true geometry, with its first cluster written, can be opened. -/
theorem Sized.reopen (g : Sized h) (hfirst : h.file[0]? =
    some (firstCluster h.clusterSize h.clusterCount h.expandClusterCount)) :
    ∃ hard, hardOpen (hardClose h) [] [] = some (.ok hard) ∧
      hard.clusterSize = h.clusterSize ∧ hard.clusterCount = h.clusterCount ∧
      hard.expandClusterCount = h.expandClusterCount := by
  have hle := g.fsize_le
  have hsize : (92 : Int) ≤ h.clusterSize := by exact_mod_cast g.size.1
  have hmin := g.size.1
  have hcount := g.count
  rw [g.fsize, maximumFileSize] at hle
  have hopen := hardOpen_flatten (by rw [sizeofCluster, sizeofHrd]; omega) g.size.2 g.clusters
    g.length (by nlinarith) hle g.expand hfirst
  rw [hardClose, hopen]
  exact ⟨_, rfl, rfl, rfl, rfl⟩

/-- An expansion that fails, and changes nothing if it had to fail. -/
theorem Enlarged.failed {r : Int × Int × Hard} (hneg : r.1 < 0)
    (hsame : Breaks h → r.2.2 = { h with writeFaults := r.2.2.writeFaults }) : Enlarged h r where
  fsize := fun hnn => absurd hneg (Int.not_lt.mpr hnn)
  offset := fun hnn => absurd hneg (Int.not_lt.mpr hnn)
  added := fun hnn => absurd hneg (Int.not_lt.mpr hnn)
  reopen := fun hnn => absurd hneg (Int.not_lt.mpr hnn)
  refused := fun hbreaks => ⟨hneg, hsame hbreaks⟩

theorem hard_of_first (w : Int × Hard) (count first : Int) :
    (if nspSuccess w.1 then (count, first, w.2) else (w.1, 0, w.2)).2.2 = w.2 := by
  split
  · rfl
  · rfl

/-- What is left to do when the clusters are made. -/
theorem Sized.enlarged {w : Int × Hard} (g : Sized w.2) (hnot : ¬Breaks h)
    (hcount : w.2.clusterCount = h.clusterCount + h.expandClusterCount)
    (hfirst : nspSuccess w.1 = true → w.2.file[0]? =
      some (firstCluster w.2.clusterSize w.2.clusterCount w.2.expandClusterCount)) :
    Enlarged h
      (if nspSuccess w.1 then (h.expandClusterCount, h.clusterCount, w.2) else (w.1, 0, w.2)) := by
  split
  · rename_i hok
    exact
      { fsize := fun _ => ⟨g.fsize, g.fsize_le⟩
        offset := fun _ _ => g.offset
        added := fun _ => ⟨rfl, hcount⟩
        reopen := fun _ => g.reopen (hfirst hok)
        refused := fun hbreaks => absurd hbreaks hnot }
  · rename_i hfail
    have hneg : w.1 < 0 := by
      rw [nspSuccess, decide_eq_true_eq] at hfail
      exact Int.not_le.mp hfail
    exact .failed hneg fun hbreaks => absurd hbreaks hnot

/-- **One expansion within the limit** does what it should, and leaves a true geometry. -/
theorem Sized.within (g : Sized h) (hwithin : Within h) :
    Enlarged h (hardExpand h) ∧ Sized (hardExpand h).2.2 := by
  rcases Bool.eq_false_or_eq_true (h.writeFaults.headD false) with hfault | hw
  · have hneg : eIo < 0 := by decide
    rw [hardExpand_fault g hfault]
    exact ⟨.failed hneg fun _ => rfl, g.congr rfl rfl rfl rfl rfl⟩
  · obtain ⟨hnn, hfit⟩ := hwithin.resolve_left (by rw [hw]; exact Bool.false_ne_true)
    have hnot : ¬Breaks h := by
      rw [maximumFileSize] at hfit
      rintro (hneg | hlt)
      · omega
      · omega
    have g' := g.stretched hnn hfit
    have hmin : 32 ≤ h.stretched.clusterSize := Nat.le_trans (by decide) g'.size.1
    obtain ⟨hsized, hfirst⟩ := hardWriteCluster_first g' _
      (length_firstCluster hmin h.stretched.clusterCount h.stretched.expandClusterCount)
    have hkeeps := hardWriteCluster_keeps h.stretched 0 (firstCluster h.stretched.clusterSize
      h.stretched.clusterCount h.stretched.expandClusterCount)
    rw [hardExpand_stretched g hw hnn hfit]
    simp only
    rw [hard_of_first]
    refine ⟨hsized.enlarged hnot hkeeps.clusterCount fun hok => ?_, hsized⟩
    rw [hkeeps.clusterSize, hkeeps.clusterCount, hkeeps.expandClusterCount]
    exact hfirst hok

/-- When the new clusters are written, the number of the clusters is changed. -/
theorem hardExpand_clusterCount (g : Sized h) (hw : h.writeFaults.headD false = false) :
    (hardExpand h).2.2.clusterCount = int32 (h.clusterCount + h.expandClusterCount) := by
  have hok : ∀ size, ∃ file, clusterExpandFile h h.fsize size =
      (0, { h with file, writeFaults := h.writeFaults.tail }) := by
    intro size
    rw [clusterExpandFile, if_neg (Int.not_lt.mpr g.fsize_nonneg), Hard.popWrite]
    simp only [hw, Bool.false_eq_true, if_false]
    exact ⟨_, rfl⟩
  rw [hardExpand, g.int32_fsize]
  obtain ⟨file, hfile⟩ := hok (int32 (h.fsize + int32 (h.expandClusterCount * h.clusterSize)))
  simp only [hfile, nspSuccess_zero, if_true]
  rw [hard_of_first, (hardWriteCluster_keeps _ _ _).clusterCount, Hard.grow]

theorem eq_zero_of_int32_add {n x : Int} (hx : Lib.InInt32 x) (h : int32 (n + x) = n) :
    x = 0 := by
  obtain ⟨hlow, hhigh⟩ := hx
  have hmod : (n + x) % (2 ^ 32 : Nat) = n % (2 ^ 32 : Nat) := by
    conv_rhs => rw [← h]
    exact Int.bmod_emod.symm
  omega

/-- An expansion past the limit is not refused. -/
theorem Sized.within_of_enlarged (g : Sized h) (he : Enlarged h (hardExpand h)) : Within h := by
  by_contra hno
  obtain ⟨hw, hbreaks⟩ := not_or.mp hno
  rw [Bool.not_eq_true] at hw
  have hb : Breaks h := by
    rw [maximumFileSize] at hbreaks
    rw [Breaks]
    omega
  have hsame := congrArg Hard.clusterCount (he.refused hb).2
  rw [hardExpand_clusterCount g hw] at hsame
  have hzero : h.expandClusterCount = 0 := eq_zero_of_int32_add g.expand hsame
  refine hbreaks ⟨Int.le_of_eq hzero.symm, ?_⟩
  rw [hzero, Int.add_zero, ← g.fsize]
  exact g.fsize_le

end Expand

/-! ## Where files come from -/

section Start

variable {h : Hard} {clusterSize clusterCount : Int} {readFaults writeFaults : List Bool}
  {image : List UInt8}

/-- The geometry that a file says it has is the true one, and its clusters hold the guide. -/
structure TrueGeometry (h : Hard) : Prop where
  count : 0 < h.clusterCount
  size : 92 ≤ h.clusterSize
  fsize : h.fsize = h.clusterCount * h.clusterSize

/-- The files that growing starts with: what `evfs_hard_create` or `evfs_hard_open` accepts. -/
inductive Start : Hard → Prop
  | created {clusterSize clusterCount : Int} {readFaults writeFaults : List Bool} {h : Hard} :
      hardCreate clusterSize clusterCount readFaults writeFaults = .ok h → Start h
  | opened {image : List UInt8} {readFaults writeFaults : List Bool} {h : Hard} :
      hardOpen image readFaults writeFaults = some (.ok h) → Start h

/-- A file that is made although accesses may fail is made if none fails. -/
theorem hardCreate_faults (heq : hardCreate clusterSize clusterCount readFaults writeFaults =
    .ok h) : ∃ h₀, hardCreate clusterSize clusterCount [] [] = .ok h₀ ∧
      h = { h₀ with readFaults, writeFaults := writeFaults.tail } := by
  rw [hardCreate] at heq ⊢
  split at heq
  · cases heq
  rename_i hsize
  rw [if_neg hsize]
  simp only at heq ⊢
  split at heq
  · cases heq
  rename_i hlt
  rw [if_neg hlt]
  have hpos : ¬clusterSize < 0 := by
    simp only [minimumClusterSize, not_or] at hsize
    omega
  rw [clusterExpandFile, if_neg hpos, Hard.popWrite] at heq ⊢
  simp only [List.headD_nil, Bool.false_eq_true, if_false, nspSuccess_zero, if_true] at heq ⊢
  have hio : nspSuccess eIo = false := by decide
  cases hw : writeFaults.headD false with
  | true =>
    simp only [hw, if_true, hio, Bool.false_eq_true, if_false] at heq
    cases heq
  | false =>
    simp only [hw, Bool.false_eq_true, if_false, nspSuccess_zero, if_true] at heq
    cases heq
    exact ⟨_, rfl, rfl⟩

theorem hardCreate_clusterCount (heq : hardCreate clusterSize clusterCount [] [] = .ok h) :
    0 ≤ clusterSize ∧ (h.clusterSize : Int) = clusterSize ∧ h.clusterCount = clusterCount ∧
      h.fsize = int32 (clusterSize * clusterCount) := by
  rw [hardCreate] at heq
  split at heq
  · cases heq
  rename_i hsize
  simp only at heq
  split at heq
  · cases heq
  have hpos : 0 ≤ clusterSize := by
    simp only [minimumClusterSize, not_or] at hsize
    omega
  rw [clusterExpandFile_eq hpos rfl] at heq
  simp only [nspSuccess_zero, if_true] at heq
  cases heq
  exact ⟨hpos, Int.toNat_of_nonneg hpos, rfl, rfl⟩

theorem sized_of_hardCreate (heq : hardCreate clusterSize clusterCount readFaults writeFaults =
    .ok h) (t : TrueGeometry h) : Sized h := by
  obtain ⟨h₀, heq₀, rfl⟩ := hardCreate_faults heq
  obtain ⟨-, hsize, hcount, hfsize⟩ := hardCreate_clusterCount heq₀
  have htrue : h₀.fsize = h₀.clusterCount * h₀.clusterSize := t.fsize
  have hpos : 0 < h₀.clusterCount := t.count
  have hmin : 92 ≤ h₀.clusterSize := t.size
  have hfit : clusterSize * clusterCount < 2 ^ 31 := by
    have hin := Lib.inInt32_int32 (clusterSize * clusterCount)
    rw [← hfsize, htrue, hcount, hsize, Int.mul_comm] at hin
    exact hin.2
  obtain ⟨f, -⟩ := hardCreate_ok (hcount ▸ hpos) hfit heq₀
  have hlt := f.fsize_lt
  exact
    { size := ⟨hmin, f.size_le⟩
      count := hpos
      fsize := htrue
      fsize_le := Int.le_of_lt hlt
      length := f.length
      clusters := f.wf.length_cluster
      expand := by
        have hexpand : h₀.expandClusterCount = h₀.clusterCount := f.expand
        show Lib.InInt32 h₀.expandClusterCount
        rw [htrue] at hlt
        rw [hexpand]
        exact ⟨by omega, by nlinarith⟩ }

/-- Every cluster of a file that is a number of clusters is whole. -/
theorem length_of_mem_splitClusters {clusterSize : Nat} {b : List UInt8}
    (hb : b ∈ splitClusters clusterSize image) : b.length = clusterSize := by
  obtain ⟨i, hi, rfl⟩ := List.mem_map.mp hb
  refine Lib.length_slice ?_
  have hlt := List.mem_range.mp hi
  rw [← Nat.succ_mul]
  exact Nat.le_trans (Nat.mul_le_mul_right _ hlt) (Nat.div_mul_le_self ..)

theorem sized_of_hardOpen (heq : hardOpen image readFaults writeFaults = some (.ok h))
    (t : TrueGeometry h) : Sized h := by
  rw [hardOpen] at heq
  split at heq
  · cases heq
  rename_i hsize
  simp only at heq
  split at heq
  · cases heq
  split at heq
  · cases heq
  split at heq
  · cases heq
  rename_i hmax
  split at heq
  · cases heq
  split at heq
  · cases heq
  obtain ⟨-, hle⟩ := not_or.mp hsize
  obtain ⟨-, hmax⟩ := not_or.mp hmax
  generalize hcs : Lib.unle32 (((image.take (sizeofCluster + sizeofHrd)).drop
    sizeofCluster).drop 4) = clusterSize at heq hmax
  obtain ⟨hcount, hmin, htrue⟩ := t
  injection heq with heq
  injection heq with heq
  have hcs' : h.clusterSize = clusterSize.toNat := by rw [← heq]
  have hfile : h.file = splitClusters h.clusterSize image := by rw [← heq]
  have hfsize : h.fsize = image.length := by rw [← heq]
  refine ⟨⟨hmin, ?_⟩, hcount, htrue, ?_, ?_, ?_, ?_⟩
  · rw [maximumClusterSize] at hmax
    omega
  · rw [hfsize]
    exact Int.not_lt.mp hle
  · obtain ⟨n, hn⟩ := Int.eq_ofNat_of_zero_le (Int.le_of_lt hcount)
    have hlen : image.length = n * h.clusterSize := by
      rw [hfsize, hn] at htrue
      exact_mod_cast htrue
    rw [hfile, splitClusters, List.length_map, List.length_range, hlen, hn,
      Nat.mul_div_cancel _ (by omega)]
  · rw [hfile]
    exact fun b hb => length_of_mem_splitClusters hb
  · rw [← heq]
    exact inInt32_unle32 _

theorem Start.sized (hstart : Start h) (t : TrueGeometry h) : Sized h := by
  cases hstart with
  | created heq => exact sized_of_hardCreate heq t
  | opened heq => exact sized_of_hardOpen heq t

/-- An expansion, as the step of a run. -/
def expandStep (h : Hard) (_ : Unit) : Option Hard := some (hardExpand h).2.2

/-- **Every expansion does what it should** exactly when every one stays within the limit, for a
file whose geometry is the true one. -/
theorem hardExpand_enlarged_iff (hstart : Start h) (t : TrueGeometry h) (calls : List Unit) :
    Lib.Each expandStep (fun h _ => Enlarged h (hardExpand h)) h calls ↔
      Lib.Each expandStep (fun h _ => Within h) h calls := by
  refine Lib.each_iff_each (I := Sized) ?_ ?_ calls (hstart.sized t)
  · exact fun h _ g => ⟨g.within_of_enlarged, fun hwithin => (g.within hwithin).1⟩
  · intro h _ h' g hwithin hstep
    injection hstep with hstep
    exact hstep ▸ (g.within hwithin).2

/-- A new file that an expansion doubles within the limit. -/
theorem hardExpand_enlarged_iff_small : ∃ h, hardCreate 128 4 [] [] = .ok h ∧
    Lib.Each expandStep (fun h _ => Enlarged h (hardExpand h)) h [()] := by
  obtain ⟨h, heq⟩ := hardCreate_accepted (show Accepted 128 4 by decide)
  obtain ⟨f, hsize, hcount⟩ := hardCreate_ok (by decide) (by decide) heq
  have ht : TrueGeometry h := ⟨by rw [hcount]; decide, by rw [hsize]; decide, f.geometry.fsize_eq⟩
  refine ⟨h, heq, (hardExpand_enlarged_iff (.created heq) ht [()]).mpr fun _ _ =>
    ⟨.inr ?_, trivial⟩⟩
  rw [f.expand, hcount, hsize]
  decide

/-- A file of almost 1 GB is doubled. -/
theorem hardExpand_not_enlarged : ∃ h, hardCreate 128 (2 ^ 23 - 1) [] [] = .ok h ∧
    ¬Enlarged h (hardExpand h) := by
  obtain ⟨h, heq⟩ := hardCreate_accepted (show Accepted 128 (2 ^ 23 - 1) by decide)
  obtain ⟨f, hsize, hcount⟩ := hardCreate_ok (by decide) (by decide) heq
  have ht : TrueGeometry h := ⟨by rw [hcount]; decide, by rw [hsize]; decide, f.geometry.fsize_eq⟩
  refine ⟨h, heq, fun he => ?_⟩
  rcases (sized_of_hardCreate heq ht).within_of_enlarged he with hfault | ⟨-, hfit⟩
  · rw [f.wf.writeFaults] at hfault
    cases hfault
  · rw [f.expand, hcount, hsize] at hfit
    exact absurd hfit (by decide)

end Start

end Evfs

end LibNax
