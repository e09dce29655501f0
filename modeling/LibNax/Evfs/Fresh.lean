import LibNax.Evfs.Accounting

/-!
# A new file system

What `evfs_create` leaves behind, where the disk and the allocations do not fail: a file of zeros
behind its first cluster, one idle view for every cluster but that one, and no entry.

* `hardCreate_ok` — the file and its geometry.
* `Fresh` — the managers, and the disk.
* `Dead` — a file of one cluster has no views, and the manager of the views counts as not in use.
* `fresh_of_evfsCreate` — one of the two.

The size of the file is computed as an `int`; what follows is about the sizes for which that is the
product.
-/

set_option autoImplicit false

namespace LibNax

namespace Evfs

open Lib (int32)

variable {h : Hard} {s : Fs} {garbage : Garbage} {clusterSize clusterCount : Int}

/-! ## The file -/

/-- A file that was just made. -/
structure Formatted (h : Hard) : Prop where
  geometry : Geometry h
  wf : h.Wf
  size_le : h.clusterSize ≤ 4096
  fsize_lt : h.fsize < 2 ^ 30
  expand : h.expandClusterCount = h.clusterCount
  file : h.file = firstCluster h.clusterSize h.clusterCount h.expandClusterCount ::
    List.replicate (h.clusterCount - 1).toNat (zeroCluster h.clusterSize)

theorem Formatted.length (f : Formatted h) : (h.file.length : Int) = h.clusterCount := by
  rw [f.file, List.length_cons, List.length_replicate]
  have := f.geometry.count_pos
  omega

/-- The size of a file that is not too long, as the code computes it. -/
theorem int32_fileSize (hpos : 0 < clusterSize) (hcount : 0 < clusterCount)
    (hfit : clusterSize * clusterCount < 2 ^ 31) :
    int32 (clusterSize * clusterCount) = clusterSize * clusterCount :=
  Lib.int32_of_inInt32 ⟨by nlinarith, hfit⟩

theorem clusterExpandFile_eq {i j : Int} (hi : 0 ≤ i) (hw : h.writeFaults = []) :
    clusterExpandFile h i j = (0, h.setFile (Lib.overwrite h.file (i.toNat / h.clusterSize)
      (List.replicate (((j - i) % 2 ^ 32).toNat / h.clusterSize)
      (zeroCluster h.clusterSize)))) := by
  rw [clusterExpandFile, if_neg (by omega), Hard.popWrite_of_nil hw]
  rfl

theorem hardCreate_ok (hcount : 0 < clusterCount) (hfit : clusterSize * clusterCount < 2 ^ 31)
    (heq : hardCreate clusterSize clusterCount [] [] = .ok h) :
    Formatted h ∧ h.clusterSize = clusterSize.toNat ∧ h.clusterCount = clusterCount := by
  rw [hardCreate] at heq
  split at heq
  · cases heq
  rename_i hsize
  simp only [minimumClusterSize, maximumClusterSize, not_or, Int.not_lt] at hsize
  obtain ⟨hmin, hmax, -⟩ := hsize
  have htotal := int32_fileSize (by omega) hcount hfit
  simp only [htotal] at heq
  split at heq
  · cases heq
  rename_i hlt
  rw [maximumFileSize] at hlt
  obtain ⟨n, rfl⟩ := Int.eq_ofNat_of_zero_le (show 0 ≤ clusterSize by omega)
  have hn : 0 < n := by omega
  -- the bytes behind the first cluster, as whole clusters
  have hremain : (((n : Int) * clusterCount - n) % 2 ^ 32).toNat /
      n = (clusterCount - 1).toNat := by
    obtain ⟨k, hk⟩ := Int.eq_ofNat_of_zero_le (show 0 ≤ clusterCount - 1 by omega)
    have hprod : (n : Int) * clusterCount - n = ((n * k : Nat) : Int) := by
      rw [Int.natCast_mul, ← hk, Int.mul_sub, Int.mul_one]
    rw [hk, Int.toNat_natCast, hprod, Int.emod_eq_of_lt (by omega) (by rw [← hprod]; omega),
      Int.toNat_natCast, Nat.mul_div_cancel_left _ hn]
  simp only [Int.toNat_natCast] at heq
  have hexpand := clusterExpandFile_eq (h := ⟨[firstCluster n clusterCount clusterCount], n,
    clusterCount, clusterCount, n * clusterCount, [], []⟩) (i := n) (j := n * clusterCount)
    (by omega) rfl
  rw [hexpand] at heq
  simp only [nspSuccess_zero, if_true, Int.toNat_natCast, Nat.div_self hn, hremain] at heq
  have hfile : Lib.overwrite [firstCluster n clusterCount clusterCount] 1
      (List.replicate (clusterCount - 1).toNat (zeroCluster n)) =
      firstCluster n clusterCount clusterCount ::
        List.replicate (clusterCount - 1).toNat (zeroCluster n) := by
    rw [Lib.overwrite, List.drop_eq_nil_of_le (by rw [List.length_singleton]; omega),
      List.append_nil]
    rfl
  rw [hfile] at heq
  cases heq
  refine ⟨⟨?_, ?_, ?_, ?_, rfl, rfl⟩, rfl, rfl⟩
  · refine ⟨by exact_mod_cast hmin, hcount, hcount, ?_, ?_, ?_⟩
    · show clusterCount * (n : Int) < 2 ^ 30
      rw [Int.mul_comm]
      omega
    · exact Int.mul_comm _ _
    · show (n : Int) * clusterCount < _
      omega
  · refine ⟨hn, fun b hb => ?_, ?_, rfl, rfl⟩
    · rcases List.mem_cons.mp hb with rfl | hb
      · exact length_firstCluster (by exact_mod_cast hmin) _ _
      · rw [(List.mem_replicate.mp hb).2]
        exact List.length_replicate
    · show (firstCluster n clusterCount clusterCount ::
        List.replicate (clusterCount - 1).toNat (zeroCluster n)).length * n ≤ 2 ^ 31
      rw [List.length_cons, List.length_replicate]
      show ((clusterCount - 1).toNat + 1) * n ≤ 2 ^ 31
      have hcast : (((clusterCount - 1).toNat + 1 : Nat) : Int) = clusterCount := by omega
      have : ((((clusterCount - 1).toNat + 1) * n : Nat) : Int) ≤ 2 ^ 31 := by
        rw [Int.natCast_mul, hcast, Int.mul_comm]
        omega
      exact_mod_cast this
  · exact_mod_cast hmax
  · show (n : Int) * clusterCount < _
    omega

/-! ## The managers -/

/-- The managers after a file was made. -/
structure Fresh (s : Fs) : Prop where
  formatted : Formatted s.vol.io.cache.hard
  mirror : Mirror s.vol s.vol.io.cache.hard.file
  entries : s.entries = []
  named : s.rootOfNamedEntriesTree = .nil
  busy : s.vol.busy = []
  segSize : s.vol.maxDataSegSize = s.maxDataSegSize
  defined : s.Defined

/-- A manager without any view. -/
structure Dead (s : Fs) : Prop where
  total : s.vol.totalClusterCount = 0
  count : s.vol.clusterCount = 1
  idle : s.vol.idle = []
  busy : s.vol.busy = []
  countIdle : s.vol.countOfIdleViews = 0
  countBusy : s.vol.countOfBusyViews = 0
  entries : s.entries = []
  tree : s.rootOfEntriesTree = .nil

/-- The views of a new file. -/
structure Viewed (vol : Vol) (cache : Cache) : Prop where
  io : vol.io = ⟨cache, [], false⟩
  idle : vol.idle = viewIds cache.hard.clusterCount
  busy : vol.busy = []
  countIdle : vol.countOfIdleViews = vol.idle.length
  countBusy : vol.countOfBusyViews = 0
  total : vol.totalClusterCount = cache.hard.clusterCount - 1
  clusterSize : vol.clusterSize = cache.hard.clusterSize
  maxDataSegSize : vol.maxDataSegSize = hardGetMaxDataSegSize cache.hard
  tree : Avl.Wf (id : Int → Int) vol.rootOfViewTree
  mem_tree : ∀ v, v ∈ Avl.toList vol.rootOfViewTree ↔ v ∈ vol.idle

theorem viewIds_eq_nextIds (n : Int) : viewIds n = nextIds 1 (n - 1).toNat :=
  List.map_congr_left fun i _ => Int.add_comm i 1

theorem mount_init (garbage : Garbage) (hard : Hard) (cacheBlockNum : Nat) :
    Fs.init.mount garbage hard cacheBlockNum [] = { Fs.init with
      vol := { Fs.init.vol with io := ⟨cacheInit garbage.blocks hard cacheBlockNum, [], false⟩ } } :=
  rfl

theorem viewed_viewCreate (views : Int → Cluster) (cache : Cache) : ∃ vol,
    viewCreate views { Fs.init.vol with io := ⟨cache, [], false⟩ } = (0, vol) ∧ Viewed vol cache := by
  obtain ⟨hstatus, grown⟩ := createViews_grown views (cache.hard.clusterCount - 1).toNat 1
    { Fs.init.vol with io := ⟨cache, [], false⟩, totalClusterCount := cache.hard.clusterCount - 1 } rfl
  generalize hr : Vol.createViews views _ 1 _ = r at hstatus grown
  have halloc : ({ Fs.init.vol with io := ⟨cache, [], false⟩ } : Vol).alloc =
      (true, { Fs.init.vol with io := ⟨cache, [], false⟩ }) := rfl
  have hinit : Fs.init.vol.totalClusterCount = 0 := rfl
  have hidle : r.2.idle = viewIds cache.hard.clusterCount := by
    rw [grown.idle, viewIds_eq_nextIds]
    rfl
  obtain ⟨hwf, hmem⟩ := grown.tree Avl.wf_nil fun v hv => by cases hv
  refine ⟨{ r.2 with clusterSize := cache.hard.clusterSize
                     maxDataSegSize := hardGetMaxDataSegSize cache.hard }, ?_, ?_⟩
  · rw [viewCreate, if_neg (by rw [hinit]; omega), halloc]
    simp only [if_true, hinit, ne_eq, not_true, if_false, hardGetUsableClusterCount, hr, hstatus,
      nspSuccess_zero]
  · refine ⟨grown.io, hidle, grown.busy, ?_, grown.countBusy, grown.total, rfl, rfl,
      hwf, fun v => ?_⟩
    · refine grown.countIdle.trans ?_
      show (0 : Int) + _ = (r.2.idle.length : Int)
      rw [hidle, viewIds_eq_nextIds, nextIds, List.length_map, List.length_range]
      exact Int.zero_add _
    · show v ∈ Avl.toList r.2.rootOfViewTree ↔ v ∈ r.2.idle
      rw [hmem, hidle, viewIds_eq_nextIds]
      exact ⟨fun h => h.elim (fun h => by cases h) id, .inr⟩

/-- The managers over the views of a new file. -/
def Fs.over (vol : Vol) : Fs := { Fs.init with vol, maxDataSegSize := vol.maxDataSegSize }

theorem Formatted.hdr_eq (f : Formatted h) {v : Int} (hv : v ∈ viewIds h.clusterCount) :
    hdr h.file v = .zero := by
  obtain ⟨h₁, h₂⟩ := mem_viewIds.mp hv
  obtain ⟨k, hk⟩ := Nat.exists_eq_add_of_le' (show 1 ≤ v.toNat by omega)
  rw [hdr, hk, f.file, List.getD_cons_succ, List.getD_eq_getElem?_getD, List.getElem?_replicate,
    if_pos (by omega), Option.getD_some]
  have := f.geometry.size_le
  exact ofBytes_zeroCluster (by rw [sizeofCluster]; omega)

theorem Viewed.mirror {vol : Vol} {cache : Cache} (w : Viewed vol cache) (f : Formatted cache.hard)
    (hsim : Sim cache [] cache.hard.file) : Mirror vol cache.hard.file where
  sim := by
    rw [w.io]
    exact hsim
  length := by
    rw [Vol.clusterCount, w.io]
    exact f.length
  busy := fun v hv => by
    rw [w.busy] at hv
    cases hv
  idle := fun v hv => by
    rw [w.idle] at hv
    exact f.hdr_eq hv
  first := by
    rw [f.file, w.io]
    rfl

theorem Viewed.space {vol : Vol} {cache : Cache} (w : Viewed vol cache) (f : Formatted cache.hard)
    (hcount : 1 < cache.hard.clusterCount) : Space (Fs.over vol) [] where
  vol := {
    allocFaults := by rw [show (Fs.over vol).vol = vol from rfl, w.io]
    writeFaults := by
      rw [show (Fs.over vol).vol = vol from rfl, w.io]
      exact f.wf.writeFaults
    geometry := by
      rw [show (Fs.over vol).vol = vol from rfl, w.io]
      exact f.geometry
    total := by
      rw [show (Fs.over vol).vol = vol from rfl, w.total]
      omega
    clusterSize := by rw [show (Fs.over vol).vol = vol from rfl, w.clusterSize, w.io]
    perm := by
      rw [show (Fs.over vol).vol = vol from rfl, w.busy, List.append_nil, w.idle, Vol.clusterCount,
        w.io]
    countIdle := w.countIdle
    countBusy := by
      rw [show (Fs.over vol).vol = vol from rfl, w.countBusy, w.busy]
      rfl
    tree := w.tree
    mem_tree := fun v => by
      rw [show (Fs.over vol).vol = vol from rfl, w.busy, w.mem_tree]
      exact ⟨.inl, fun h => h.elim id fun h => by cases h⟩ }
  maxDataSegSize := by
    have := f.geometry.size_le
    show vol.maxDataSegSize = (vol.io.cache.hard.clusterSize : Int) - sizeofCluster
    rw [w.maxDataSegSize, w.io, hardGetMaxDataSegSize, sizeofCluster]
    show ((cache.hard.clusterSize - 12 : Nat) : Int) = (cache.hard.clusterSize : Int) - 12
    omega
  owned := by
    show vol.busy.Perm []
    rw [w.busy]
  entry := fun e he => by cases he
  tree := Avl.wf_nil
  mem_tree := fun v => Iff.rfl
  leaves := fun leaf hleaf => by cases hleaf
  countOfEntries := rfl
  wild := rfl
  countOfWild := rfl

theorem Viewed.dead {vol : Vol} {cache : Cache} (w : Viewed vol cache)
    (hcount : cache.hard.clusterCount = 1) : Dead (Fs.over vol) := by
  have hidle : vol.idle = [] := by
    rw [w.idle, hcount]
    rfl
  refine ⟨?_, ?_, hidle, w.busy, ?_, w.countBusy, rfl, rfl⟩
  · exact w.total.trans (by omega)
  · show vol.io.cache.hard.clusterCount = 1
    rw [w.io]
    exact hcount
  · exact w.countIdle.trans (by rw [hidle]; rfl)

/-- **A new file system** has no entry, all of its views are idle and the disk is zero; or it has no
view at all. -/
theorem fresh_of_evfsCreate {cacheBlockNum : Nat} {status : Int}
    (hfit : clusterSize * clusterCount < 2 ^ 31)
    (heq : evfsCreate garbage Fs.init clusterSize clusterCount cacheBlockNum [] [] [] =
      some (status, s)) (hstatus : nspSuccess status = true) :
    Fresh s ∧ s.vol.io.cache.hard.clusterSize = clusterSize.toNat ∧
      s.vol.io.cache.hard.clusterCount = clusterCount ∧
      (1 < clusterCount ∧ Space s [] ∨ Dead s) := by
  rw [evfsCreate] at heq
  split at heq
  · cases heq
    cases hstatus
  rename_i hpos
  split at heq
  · rename_i err herr
    cases heq
    have hneg : nspSuccess status = false := by
      rw [hardCreate] at herr
      split at herr
      · cases herr
        rfl
      simp only at herr
      split at herr
      · cases herr
        rfl
      split at herr
      · cases herr
      · cases herr
        rw [Bool.not_eq_true] at *
        assumption
    rw [hneg] at hstatus
    cases hstatus
  · rename_i hard hhard
    obtain ⟨f, hcs, hcc⟩ := hardCreate_ok (by omega) hfit hhard
    obtain ⟨-, hcache, -⟩ := Cache.wf_cacheInit garbage.blocks hard cacheBlockNum
    have hsim := sim_cacheInit f.wf garbage.blocks cacheBlockNum
    generalize hinit : cacheInit garbage.blocks hard cacheBlockNum = cache at hcache hsim
    subst hcache
    obtain ⟨vol, hcreate, w⟩ := viewed_viewCreate garbage.views cache
    rw [entriesCreate, mount_init, hinit] at heq
    simp only [Fs.setVol, hcreate, nspSuccess_zero, if_true] at heq
    have hs : s = Fs.over vol := by
      cases heq
      rfl
    have hio : s.vol.io = ⟨cache, [], false⟩ := by
      rw [hs]
      exact w.io
    refine ⟨⟨?_, ?_, ?_, ?_, ?_, ?_, ?_⟩, ?_, ?_, ?_⟩
    · rw [hio]
      exact f
    · rw [hio, hs]
      exact w.mirror f hsim
    · rw [hs]
      rfl
    · rw [hs]
      rfl
    · rw [hs]
      exact w.busy
    · rw [hs]
      rfl
    · refine ⟨by rw [hio], ?_⟩
      rw [hs]
      rfl
    · rw [hio]
      exact hcs
    · rw [hio]
      exact hcc
    · rw [hs]
      rcases lt_or_ge 1 cache.hard.clusterCount with hlt | hge
      · exact .inl ⟨hcc ▸ hlt, w.space f hlt⟩
      · have := f.geometry.count_pos
        exact .inr (w.dead (by omega))

end Evfs

end LibNax
