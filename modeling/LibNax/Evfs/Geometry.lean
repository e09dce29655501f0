import LibNax.Evfs.Transparent
import LibNax.Evfs.View

/-!
# What no request changes

The geometry of the file changes in `evfs_hard_expand` only.  This holds whatever the disk does: a
request that fails leaves the geometry alone as one that succeeds does.

* `Hard.Keeps` — the same geometry, and no fault of a write where there was none.
* `Cache.execTask_keeps` — the tasks of the cache.
* `Geometry`, `Geometry.expanded` — what the numbers of a geometry have to do with each other, and
  that an expansion keeps it.
-/

set_option autoImplicit false

namespace LibNax

namespace Evfs

open Lib (int32)

/-! ## The cache -/

/-- The same geometry, and no fault to come where there was none to come. -/
structure Hard.Keeps (h h' : Hard) : Prop where
  clusterSize : h'.clusterSize = h.clusterSize
  clusterCount : h'.clusterCount = h.clusterCount
  expandClusterCount : h'.expandClusterCount = h.expandClusterCount
  fsize : h'.fsize = h.fsize
  writeFaults : h.writeFaults = [] → h'.writeFaults = []

theorem Hard.Keeps.refl (h : Hard) : h.Keeps h := ⟨rfl, rfl, rfl, rfl, id⟩

theorem Hard.Keeps.trans {h₁ h₂ h₃ : Hard} (h : h₁.Keeps h₂) (h' : h₂.Keeps h₃) : h₁.Keeps h₃ :=
  ⟨h'.clusterSize.trans h.clusterSize, h'.clusterCount.trans h.clusterCount,
    h'.expandClusterCount.trans h.expandClusterCount, h'.fsize.trans h.fsize,
    fun hw => h'.writeFaults (h.writeFaults hw)⟩

theorem Hard.popRead_keeps (h : Hard) : h.Keeps h.popRead.2 := ⟨rfl, rfl, rfl, rfl, id⟩

theorem Hard.popWrite_keeps (h : Hard) : h.Keeps h.popWrite.2 :=
  ⟨rfl, rfl, rfl, rfl, fun hw => by rw [popWrite, hw]; rfl⟩

theorem Hard.setFile_keeps (h : Hard) (file : List (List UInt8)) : h.Keeps (h.setFile file) :=
  ⟨rfl, rfl, rfl, rfl, id⟩

theorem hardWriteCluster_keeps (h : Hard) (clusterId : Int) (buffer : List UInt8) :
    h.Keeps (hardWriteCluster h clusterId buffer).2 := by
  rw [hardWriteCluster]
  simp only
  split
  · exact .refl h
  · split
    · exact h.popWrite_keeps
    · exact h.popWrite_keeps.trans (Hard.setFile_keeps _ _)

theorem hardReadCluster_keeps (h : Hard) (clusterId : Int) (buffer : List UInt8) :
    h.Keeps (hardReadCluster h clusterId buffer).2.2 := by
  rw [hardReadCluster]
  simp only
  split
  · exact .refl h
  · split
    · exact h.popRead_keeps
    · exact h.popRead_keeps

namespace Cache

theorem flushBlockIfDirty_keeps (c : Cache) (p : Nat) :
    c.hard.Keeps (c.flushBlockIfDirty p).hard := by
  rw [flushBlockIfDirty]
  split
  · exact hardWriteCluster_keeps _ _ _
  · exact .refl _

theorem loadNode_keeps (c : Cache) (clusterId : Int) (p : Nat) :
    c.hard.Keeps (c.loadNode clusterId p).2.hard :=
  hardReadCluster_keeps _ _ _

theorem keepWrite_hard (c : Cache) (clusterId : Int) (p offset : Nat) (data : List UInt8) :
    (c.keepWrite clusterId p offset data).hard = c.hard :=
  pushDirty_hard _ p

theorem popIdle_hard {c c' : Cache} {p : Nat} (h : c.popIdle = some (p, c')) :
    c'.hard = c.hard := by
  rw [popIdle] at h
  split at h
  · cases h
  · cases h
    rfl

theorem popLru_hard {c c' : Cache} {p : Nat} (h : c.popLru = some (p, c')) : c'.hard = c.hard := by
  rw [popLru] at h
  split at h
  · cases h
  · cases h
    rfl

theorem readFromLru_hard (c : Cache) (clusterId : Int) (offset length : Nat) :
    (c.readFromLru clusterId offset length).2.hard = c.hard := by
  rw [readFromLru]
  split
  · rfl
  · rfl

theorem writeToLru_hard (c : Cache) (clusterId : Int) (data : List UInt8) (offset : Nat) :
    (c.writeToLru clusterId data offset).2.hard = c.hard := by
  rw [writeToLru]
  split
  · rfl
  · exact pushDirty_hard _ _

theorem readFromIdle_keeps (c : Cache) (clusterId : Int) (offset length : Nat) :
    c.hard.Keeps (c.readFromIdle clusterId offset length).2.hard := by
  rw [readFromIdle]
  split
  · exact .refl _
  · rename_i p c' hpop
    rw [← popIdle_hard hpop]
    simp only
    split
    · exact loadNode_keeps _ _ _
    · exact loadNode_keeps _ _ _

theorem writeToIdle_keeps (c : Cache) (clusterId : Int) (data : List UInt8) (offset : Nat) :
    c.hard.Keeps (c.writeToIdle clusterId data offset).2.hard := by
  rw [writeToIdle]
  split
  · exact .refl _
  · rename_i p c' hpop
    rw [← popIdle_hard hpop]
    simp only
    split
    · rw [keepWrite_hard]
      exact loadNode_keeps _ _ _
    · exact loadNode_keeps _ _ _

theorem replaceReadFromLru_keeps (c : Cache) (clusterId : Int) (offset length : Nat) :
    c.hard.Keeps (c.replaceReadFromLru clusterId offset length).2.hard := by
  rw [replaceReadFromLru]
  split
  · exact .refl _
  · rename_i p c' hpop
    rw [← popLru_hard hpop]
    simp only
    split
    · exact (flushBlockIfDirty_keeps _ _).trans (loadNode_keeps _ _ _)
    · exact (flushBlockIfDirty_keeps _ _).trans (loadNode_keeps _ _ _)

theorem replaceWriteToLru_keeps (c : Cache) (clusterId : Int) (data : List UInt8) (offset : Nat) :
    c.hard.Keeps (c.replaceWriteToLru clusterId data offset).2.hard := by
  rw [replaceWriteToLru]
  split
  · exact .refl _
  · rename_i p c' hpop
    rw [← popLru_hard hpop]
    simp only
    split
    · rw [keepWrite_hard]
      exact (flushBlockIfDirty_keeps _ _).trans (loadNode_keeps _ _ _)
    · exact (flushBlockIfDirty_keeps _ _).trans (loadNode_keeps _ _ _)

theorem readHarddisk_keeps (c : Cache) (clusterId : Int) (offset length : Nat) :
    c.hard.Keeps (c.readHarddisk clusterId offset length).2.hard := by
  rw [readHarddisk]
  split
  · exact hardReadCluster_keeps _ _ _
  · exact hardReadCluster_keeps _ _ _

theorem writeHarddisk_keeps (c : Cache) (clusterId : Int) (data : List UInt8) (offset : Nat) :
    c.hard.Keeps (c.writeHarddisk clusterId data offset).2.hard := by
  rw [writeHarddisk]
  simp only
  split
  · exact (hardReadCluster_keeps _ _ _).trans (hardWriteCluster_keeps _ _ _)
  · exact hardReadCluster_keeps _ _ _

theorem read_keeps (c : Cache) (clusterId : Int) (offset length : Nat) :
    c.hard.Keeps (c.read clusterId offset length).2.hard := by
  rw [read]
  split
  · exact readHarddisk_keeps _ _ _ _
  · have hlru := readFromLru_hard c clusterId offset length
    split
    · rename_i h
      rw [h] at hlru
      exact hlru ▸ .refl _
    · rename_i c₁ h
      rw [h] at hlru
      have hidle := readFromIdle_keeps c₁ clusterId offset length
      rw [← hlru]
      split
      · rename_i h'
        rw [h'] at hidle
        exact hidle
      · rename_i h'
        rw [h'] at hidle
        exact hidle.trans (replaceReadFromLru_keeps _ _ _ _)

theorem write_keeps (c : Cache) (clusterId : Int) (data : List UInt8) (offset : Nat) :
    c.hard.Keeps (c.write clusterId data offset).2.hard := by
  rw [write]
  split
  · exact writeHarddisk_keeps _ _ _ _
  · rw [← writeToLru_hard c clusterId data offset]
    simp only
    split
    · exact .refl _
    · split
      · exact writeToIdle_keeps _ _ _ _
      · exact (writeToIdle_keeps _ _ _ _).trans (replaceWriteToLru_keeps _ _ _ _)

theorem flush_foldl_keeps (ps : List Nat) :
    ∀ c : Cache, c.hard.Keeps (ps.foldl flushBlockIfDirty c).hard := by
  induction ps with
  | nil => exact fun c => .refl _
  | cons p ps ih => exact fun c => (flushBlockIfDirty_keeps c p).trans (ih _)

theorem execTask_keeps (c : Cache) (t : Task) : c.hard.Keeps (c.execTask t).2.hard := by
  cases t with
  | read clusterId offset length => exact read_keeps _ _ _ _
  | write clusterId data offset => exact write_keeps _ _ _ _
  | flushBufferAll =>
    show c.hard.Keeps c.flushBufferAll.hard
    rw [flushBufferAll]
    split
    · exact .refl _
    · exact flush_foldl_keeps _ _
  | flushBuffer clusterId =>
    show c.hard.Keeps (c.flushBlock clusterId).hard
    rw [flushBlock]
    split
    · exact .refl _
    · exact flushBlockIfDirty_keeps _ _

end Cache

/-! ## The interface -/

/-- A request keeps the geometry, reads no task that was freed, and no allocation fails later where
none was to fail. -/
structure Io.Keeps (io io' : Io) : Prop where
  hard : io.cache.hard.Keeps io'.cache.hard
  allocFaults : io.allocFaults = [] → io'.allocFaults = []
  fault : io'.fault = io.fault

theorem Io.Keeps.refl (io : Io) : io.Keeps io := ⟨.refl _, id, rfl⟩

theorem Io.Keeps.trans {io₁ io₂ io₃ : Io} (h : io₁.Keeps io₂) (h' : io₂.Keeps io₃) :
    io₁.Keeps io₃ :=
  ⟨h.hard.trans h'.hard, fun ha => h'.allocFaults (h.allocFaults ha), h'.fault.trans h.fault⟩

theorem Io.alloc_keeps (io : Io) : io.Keeps io.alloc.2 :=
  ⟨.refl _, fun h => by rw [alloc, h]; rfl, rfl⟩

theorem Io.alloc_of_nil {io : Io} (h : io.allocFaults = []) : io.alloc = (true, io) := by
  cases io
  simp only at h
  subst h
  rfl

theorem Io.submit_keeps (io : Io) (task : Task) : io.Keeps (io.submit task).2 := by
  rw [submit]
  simp only
  split
  · exact io.alloc_keeps.trans ⟨Cache.execTask_keeps _ _, id, rfl⟩
  · exact io.alloc_keeps

theorem cacheWrite_keeps (io : Io) (clusterId : Int) (input : List UInt8) (offset : Int) :
    io.Keeps (cacheWrite io clusterId input offset).2 := by
  rw [cacheWrite]
  split
  · exact .refl io
  · exact io.submit_keeps _

theorem cacheWriteHead_keeps (io : Io) (clusterId : Int) (cluster : Cluster) :
    io.Keeps (cacheWriteHead io clusterId cluster).2 :=
  cacheWrite_keeps _ _ _ _

theorem cacheWriteUserdata_keeps (io : Io) (clusterId : Int) (input : List UInt8) (offset : Int) :
    io.Keeps (cacheWriteUserdata io clusterId input offset).2 := by
  rw [cacheWriteUserdata]
  split
  · exact .refl io
  · exact cacheWrite_keeps _ _ _ _

theorem cacheReadUserdata_keeps (io : Io) (clusterId offset length : Int) :
    io.Keeps (cacheReadUserdata io clusterId offset length).2 := by
  rw [cacheReadUserdata]
  split
  · exact .refl io
  · rw [cacheRead]
    split
    · exact .refl io
    · exact io.submit_keeps _

/-! ## Expansion -/

/-- Without a failing allocation the file is written. -/
theorem Io.expandHard_of_nil {io : Io} (h : io.allocFaults = []) :
    io.expandHard = io.expandWritten := by
  rw [expandHard, alloc_of_nil h]
  simp only [if_true, ite_self]

/-- The numbers of a geometry.  The file may have grown past `2 ^ 31` bytes once. -/
structure Geometry (h : Hard) : Prop where
  size_le : 32 ≤ h.clusterSize
  count_pos : 0 < h.clusterCount
  expand_pos : 0 < h.expandClusterCount
  expand_lt : h.expandClusterCount * h.clusterSize < 2 ^ 30
  fsize_eq : h.fsize = h.clusterCount * h.clusterSize
  fsize_lt : h.fsize < 2 ^ 31 + 2 ^ 30

theorem Geometry.keeps {h h' : Hard} (g : Geometry h) (hk : h.Keeps h') : Geometry h' := by
  refine ⟨?_, ?_, ?_, ?_, ?_, ?_⟩
  · rw [hk.clusterSize]
    exact g.size_le
  · rw [hk.clusterCount]
    exact g.count_pos
  · rw [hk.expandClusterCount]
    exact g.expand_pos
  · rw [hk.expandClusterCount, hk.clusterSize]
    exact g.expand_lt
  · rw [hk.fsize, hk.clusterCount, hk.clusterSize]
    exact g.fsize_eq
  · rw [hk.fsize]
    exact g.fsize_lt

/-- The file after a successful expansion: zeros from its end on, and the new geometry in the first
cluster. -/
def Hard.expanded (h : Hard) : Hard :=
  let h' := (h.setFile (Lib.overwrite h.file (h.fsize.toNat / h.clusterSize)
    (List.replicate h.expandClusterCount.toNat (zeroCluster h.clusterSize)))).grow
      (h.expandClusterCount * h.clusterSize)
  h'.setFile (putCluster h'.file h'.clusterSize 0
    (firstCluster h'.clusterSize h'.clusterCount h'.expandClusterCount))

variable {h : Hard}

theorem Geometry.count_lt (g : Geometry h) : h.clusterCount < 2 ^ 27 := by
  have hsize : (32 : Int) ≤ h.clusterSize := by exact_mod_cast g.size_le
  have := g.fsize_eq
  have := g.fsize_lt
  nlinarith [g.count_pos]

theorem Geometry.expandCount_lt (g : Geometry h) : h.expandClusterCount < 2 ^ 25 := by
  have hsize : (32 : Int) ≤ h.clusterSize := by exact_mod_cast g.size_le
  have := g.expand_lt
  nlinarith [g.expand_pos]

theorem Geometry.fsize_pos (g : Geometry h) : 0 < h.fsize := by
  have hsize : (32 : Int) ≤ h.clusterSize := by exact_mod_cast g.size_le
  rw [g.fsize_eq]
  nlinarith [g.count_pos]

theorem Geometry.expandSize_pos (g : Geometry h) : 0 < h.expandClusterCount * h.clusterSize := by
  have hsize : (32 : Int) ≤ h.clusterSize := by exact_mod_cast g.size_le
  nlinarith [g.expand_pos]

theorem Geometry.int32_expandSize (g : Geometry h) :
    int32 (h.expandClusterCount * h.clusterSize) = h.expandClusterCount * h.clusterSize :=
  Lib.int32_of_inInt32 ⟨by have := g.expandSize_pos; omega, by have := g.expand_lt; omega⟩

theorem Geometry.int32_count (g : Geometry h) :
    int32 (h.clusterCount + h.expandClusterCount) = h.clusterCount + h.expandClusterCount := by
  have := g.count_lt
  have := g.expandCount_lt
  have := g.count_pos
  have := g.expand_pos
  exact Lib.int32_of_inInt32 ⟨by omega, by omega⟩

theorem Hard.expanded_clusterCount (g : Geometry h) :
    h.expanded.clusterCount = h.clusterCount + h.expandClusterCount :=
  g.int32_count

/-- An expansion succeeds as long as the end of the file is an `int`. -/
theorem Geometry.hardExpand_eq (g : Geometry h) (hw : h.writeFaults = []) (hlt : h.fsize < 2 ^ 31) :
    hardExpand h = (h.expandClusterCount, h.clusterCount, h.expanded) := by
  have hpos := g.fsize_pos
  have hexp := g.expandSize_pos
  have hexp' := g.expand_lt
  have hoff : int32 h.fsize = h.fsize := Lib.int32_of_inInt32 ⟨by omega, by omega⟩
  have hremain : ((int32 (h.fsize + h.expandClusterCount * h.clusterSize) - h.fsize) % 2 ^ 32).toNat
      / h.clusterSize = h.expandClusterCount.toNat := by
    have hmod : (int32 (h.fsize + h.expandClusterCount * h.clusterSize) - h.fsize) % 2 ^ 32 =
        h.expandClusterCount * h.clusterSize := by
      rw [int32, Int.bmod_def]
      split
      · omega
      · omega
    have hnat : h.expandClusterCount * h.clusterSize =
        ((h.expandClusterCount.toNat * h.clusterSize : Nat) : Int) := by
      rw [Int.natCast_mul, Int.toNat_of_nonneg (Int.le_of_lt g.expand_pos)]
    rw [hmod, hnat, Int.toNat_natCast, Nat.mul_div_cancel _ (by have := g.size_le; omega)]
  have hfill : clusterExpandFile h h.fsize
      (int32 (h.fsize + h.expandClusterCount * h.clusterSize)) =
      (0, h.setFile (Lib.overwrite h.file (h.fsize.toNat / h.clusterSize)
        (List.replicate h.expandClusterCount.toNat (zeroCluster h.clusterSize)))) := by
    rw [clusterExpandFile, if_neg (by omega), Hard.popWrite_of_nil hw]
    simp only [hremain, Bool.false_eq_true, if_false]
  have hwrite : ∀ (h' : Hard) (buffer : List UInt8), h'.writeFaults = [] →
      hardWriteCluster h' 0 buffer =
      (0, h'.setFile (putCluster h'.file h'.clusterSize 0 buffer)) := by
    intro h' buffer hw'
    have hzero : clusterOffset h' 0 = 0 := by
      rw [clusterOffset, Int.zero_mul]
      decide
    rw [hardWriteCluster, hzero, Hard.popWrite_of_nil hw', if_neg (by omega)]
    simp only [Bool.false_eq_true, if_false, Int.toNat_zero, Nat.zero_div]
  rw [hardExpand]
  simp only [g.int32_expandSize, hoff, hfill, nspSuccess_zero, if_true]
  rw [hwrite]
  · simp only [nspSuccess_zero, if_true, Hard.expanded]
  · exact hw

/-- It fails, and leaves the file alone, once the file has grown past that. -/
theorem Geometry.hardExpand_fail (g : Geometry h) (hge : 2 ^ 31 ≤ h.fsize) :
    hardExpand h = (eInval, 0, h) := by
  have hlt := g.fsize_lt
  have hneg : int32 h.fsize < 0 := by
    rw [int32, Int.bmod_def]
    split
    · omega
    · omega
  have hfail : ∀ size, clusterExpandFile h (int32 h.fsize) size = (eInval, h) := by
    intro size
    rw [clusterExpandFile, if_pos hneg]
  have hinval : nspSuccess eInval = false := by decide
  rw [hardExpand]
  simp only [hfail, hinval, Bool.false_eq_true, if_false]

/-- An expansion keeps the geometry. -/
theorem Geometry.expanded (g : Geometry h) (hlt : h.fsize < 2 ^ 31) : Geometry h.expanded := by
  have hcount := Hard.expanded_clusterCount g
  refine ⟨g.size_le, ?_, g.expand_pos, g.expand_lt, ?_, ?_⟩
  · rw [hcount]
    have := g.count_pos
    have := g.expand_pos
    omega
  · rw [hcount]
    show h.fsize + h.expandClusterCount * h.clusterSize =
      (h.clusterCount + h.expandClusterCount) * h.clusterSize
    rw [g.fsize_eq, Int.add_mul]
  · show h.fsize + h.expandClusterCount * h.clusterSize < 2 ^ 31 + 2 ^ 30
    have := g.expand_lt
    omega

end Evfs

end LibNax
