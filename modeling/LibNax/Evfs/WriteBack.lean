import LibNax.Lib.Run
import LibNax.Evfs.Transparent

/-!
# Writes that the disk refuses

A write is acknowledged when its block is in the cache.  The block gets to the disk later: when it
is evicted for another cluster, or at a flush.  `__evfs_cache_flush_block_if_dirty` does not look at
the status of that write and marks the block clean, so that a refused write is lost, at once if the
block is evicted, and at its next eviction otherwise.

* `Cache.writtenBack` — the blocks that a task writes back.
* `Cache.calm` — the same cache over a disk that takes every write.  A task whose write-backs are
  taken does the same on both, and the theorems about the second carry over.
* `NothingLost` — every cluster holds what was acknowledged, and a clean block is on the disk.
* `nothingLost_of_run` — it holds as long as the write-backs are taken.
* `evict_loses` — an acknowledged write that is gone.
-/

set_option autoImplicit false

namespace LibNax

namespace Evfs

open Lib (slice overwrite)

/-! ## The property -/

/-- The blocks that a task writes back. -/
def Cache.writtenBack (c : Cache) : Task → List Nat
  | .read clusterId _ _ => evicted clusterId
  | .write clusterId _ _ => evicted clusterId
  | .flushBufferAll => c.dirty
  | .flushBuffer clusterId => (c.searchLru clusterId).toList.filter isDirty
where
  /-- The state of a block is dirty. -/
  isDirty (p : Nat) : Bool := (c.nodes p).state = .dirty
  /-- The dirty block that makes room for a cluster: nothing on a hit, or if there is an idle
  block. -/
  evicted (clusterId : Int) : List Nat :=
    if c.cacheBlockNum = 0 ∨ c.searchLru clusterId ≠ none ∨ c.idle ≠ [] then []
    else (c.lru.take 1).filter isDirty

/-- The disk takes the write-backs of the task. -/
def WriteBacksOk (c : Cache) (t : Task) : Prop :=
  ∀ fault ∈ c.hard.writeFaults.take (c.writtenBack t).length, fault = false

/-- A task is executed, and what it wrote counts if it returns success. -/
def ackTask (s : Cache × List (List UInt8)) (t : Task) : Cache × List (List UInt8) :=
  let r := s.1.execTask t
  (r.2, if r.1.isOk then (uncachedTask s.2 t).2 else s.2)

/-- Every cluster holds what was acknowledged, and a block that is not dirty is on the disk. -/
structure NothingLost (s : Cache × List (List UInt8)) : Prop where
  content : ∀ i, s.1.content i = s.2[i]?
  clean : ∀ p ∈ s.1.lru, (s.1.nodes p).state ≠ .dirty →
    ∃ i : Nat, (s.1.nodes p).clusterId = i ∧ s.1.hard.file[i]? = some (s.1.nodes p).data

/-! ## A disk that takes every write -/

/-- The disk with no write that fails. -/
def Hard.calm (h : Hard) : Hard := { h with writeFaults := [] }

/-- The cache over that disk. -/
def Cache.calm (c : Cache) : Cache := c.setHard c.hard.calm

theorem hardReadCluster_calm (h : Hard) (clusterId : Int) (buffer : List UInt8) :
    hardReadCluster h.calm clusterId buffer =
      ((hardReadCluster h clusterId buffer).1, (hardReadCluster h clusterId buffer).2.1,
        (hardReadCluster h clusterId buffer).2.2.calm) := by
  simp only [hardReadCluster]
  rw [show clusterOffset h.calm clusterId = clusterOffset h clusterId from rfl]
  split
  · rfl
  · rw [show h.calm.popRead = (h.popRead.1, h.popRead.2.calm) from rfl]
    dsimp only
    split
    · rfl
    · rfl

theorem hardWriteCluster_calm {h : Hard} (hf : ∀ fault ∈ h.writeFaults.take 1, fault = false)
    (clusterId : Int) (buffer : List UInt8) :
    hardWriteCluster h.calm clusterId buffer =
      ((hardWriteCluster h clusterId buffer).1, (hardWriteCluster h clusterId buffer).2.calm) := by
  have hpop : h.popWrite.1 = false := by
    rw [Hard.popWrite]
    cases hw : h.writeFaults with
    | nil => rfl
    | cons fault faults => exact hf fault (by rw [hw]; exact List.mem_singleton_self fault)
  simp only [hardWriteCluster, hpop]
  rw [show clusterOffset h.calm clusterId = clusterOffset h clusterId from rfl]
  split
  · rfl
  · rfl

/-- A write that fails leaves the disk as it is. -/
theorem hardWriteCluster_fails {h : Hard} (hf : ¬∀ fault ∈ h.writeFaults.take 1, fault = false)
    (clusterId : Int) (buffer : List UInt8) :
    nspSuccess (hardWriteCluster h clusterId buffer).1 = false ∧
      (hardWriteCluster h clusterId buffer).2.calm = h.calm := by
  have hpop : h.popWrite.1 = true := by
    rw [Hard.popWrite]
    cases hw : h.writeFaults with
    | nil => simp [hw] at hf
    | cons fault faults => simpa [hw] using hf
  simp only [hardWriteCluster, hpop, if_true]
  split
  · exact ⟨(by decide : nspSuccess eInval = false), rfl⟩
  · exact ⟨(by decide : nspSuccess eIo = false), rfl⟩

theorem hardWriteCluster_faults (h : Hard) (clusterId : Int) (buffer : List UInt8) :
    (hardWriteCluster h clusterId buffer).2.writeFaults = h.writeFaults ∨
      (hardWriteCluster h clusterId buffer).2.writeFaults = h.writeFaults.tail := by
  simp only [hardWriteCluster]
  split
  · exact .inl rfl
  · split
    · exact .inr rfl
    · exact .inr rfl

variable {c : Cache} {u : List (List UInt8)} {p : Nat}

theorem flush_calm (hf : (c.nodes p).state = .dirty →
      ∀ fault ∈ c.hard.writeFaults.take 1, fault = false) :
    c.calm.flushBlockIfDirty p = (c.flushBlockIfDirty p).calm := by
  by_cases hs : (c.nodes p).state = .dirty
  · rw [Cache.flushBlockIfDirty, if_pos (show (c.calm.nodes p).state = .dirty from hs),
      Cache.flushBlockIfDirty, if_pos hs]
    dsimp only [Cache.calm, Cache.setHard]
    rw [hardWriteCluster_calm (hf hs)]
    rfl
  · rw [Cache.flush_of_ne hs, Cache.flush_of_ne (show (c.calm.nodes p).state ≠ .dirty from hs)]

theorem loadNode_calm (c : Cache) (clusterId : Int) (p : Nat) :
    c.calm.loadNode clusterId p =
      ((c.loadNode clusterId p).1, (c.loadNode clusterId p).2.calm) := by
  rw [Cache.loadNode, Cache.loadNode]
  dsimp only [Cache.calm, Cache.setHard]
  rw [hardReadCluster_calm]
  rfl

/-- A block is read into on the calm disk and on the other. -/
theorem loadNode_of_calm {clusterId : Int} {c' : Cache}
    (h : c.calm.loadNode clusterId p = (0, c')) :
    ∃ c₂, c.loadNode clusterId p = (0, c₂) ∧ c₂.calm = c' := by
  rw [loadNode_calm, Prod.mk.injEq] at h
  exact ⟨(c.loadNode clusterId p).2, Prod.ext h.1 rfl, h.2⟩

theorem pushDirty_calm (c : Cache) (p : Nat) : c.calm.pushDirty p = (c.pushDirty p).calm := by
  rw [Cache.pushDirty, Cache.pushDirty]
  by_cases hs : (c.nodes p).state ≠ .dirty
  · rw [if_pos hs, if_pos (show (c.calm.nodes p).state ≠ .dirty from hs)]
    rfl
  · rw [if_neg hs, if_neg (show ¬(c.calm.nodes p).state ≠ .dirty from hs)]

theorem keepWrite_calm (c : Cache) (clusterId : Int) (p offset : Nat) (data : List UInt8) :
    c.calm.keepWrite clusterId p offset data = (c.keepWrite clusterId p offset data).calm := by
  show ((c.store p _).calm.pushDirty p).pushLru p = _
  rw [pushDirty_calm]
  rfl

/-- A block is read into behind a write-back that is taken, on the calm disk and on the other. -/
theorem loadNode_of_evicted {clusterId : Int} {lru : List Nat} {c' : Cache}
    (htaken : (c.nodes p).state = .dirty → ∀ fault ∈ c.hard.writeFaults.take 1, fault = false)
    (h : ((c.calm.withoutLru p lru).flushBlockIfDirty p).loadNode clusterId p = (0, c')) :
    ∃ c₂, ((c.withoutLru p lru).flushBlockIfDirty p).loadNode clusterId p = (0, c₂) ∧
      c₂.calm = c' := by
  have hflush : (c.calm.withoutLru p lru).flushBlockIfDirty p =
      ((c.withoutLru p lru).flushBlockIfDirty p).calm :=
    flush_calm (c := c.withoutLru p lru) htaken
  rw [hflush] at h
  exact loadNode_of_calm h

/-! ## The tasks on both disks -/

/-- The write-back of the block that makes room is taken. -/
theorem evicted_ok {clusterId : Int} {lru : List Nat}
    (hok : ∀ fault ∈ c.hard.writeFaults.take (Cache.writtenBack.evicted c clusterId).length,
      fault = false)
    (hn : c.cacheBlockNum ≠ 0) (hsearch : c.searchLru clusterId = none) (hidle : c.idle = [])
    (hlru : c.lru = p :: lru) (hs : (c.nodes p).state = .dirty) :
    ∀ fault ∈ c.hard.writeFaults.take 1, fault = false := by
  have hevicted : Cache.writtenBack.evicted c clusterId = [p] := by
    rw [Cache.writtenBack.evicted, if_neg (by simp [hn, hsearch, hidle]), hlru]
    simp [Cache.writtenBack.isDirty, hs]
  rw [hevicted] at hok
  exact hok

theorem readHarddisk_calm (c : Cache) (clusterId : Int) (offset length : Nat) :
    c.calm.readHarddisk clusterId offset length =
      ((c.readHarddisk clusterId offset length).1,
        (c.readHarddisk clusterId offset length).2.calm) := by
  have hread : hardReadCluster c.calm.hard clusterId (zeroCluster c.calm.hard.clusterSize) =
      _ := hardReadCluster_calm c.hard clusterId (zeroCluster c.hard.clusterSize)
  rw [Cache.readHarddisk, hread, Cache.readHarddisk]
  dsimp only
  split
  · rfl
  · rfl

theorem read_calm (h : Sim c.calm [] u) {i : Nat} (hi : 1 ≤ i) (hlt : i < u.length)
    (offset length : Nat) (hok : WriteBacksOk c (.read i offset length)) :
    c.calm.read i offset length = ((c.read i offset length).1,
    (c.read i offset length).2.calm) := by
  by_cases hn : c.cacheBlockNum = 0
  · rw [Cache.read, if_pos (show c.calm.cacheBlockNum = 0 from hn), Cache.read, if_pos hn]
    exact readHarddisk_calm c i offset length
  rw [Cache.read, if_neg (show ¬c.calm.cacheBlockNum = 0 from hn), Cache.read, if_neg hn]
  cases hsearch : c.searchLru i with
  | some p =>
    rw [Cache.readFromLru_some offset length hsearch,
      Cache.readFromLru_some offset length (show c.calm.searchLru i = some p from hsearch)]
    rfl
  | none =>
    have hno := h.wf.searchLru_eq_none.mp (show c.calm.searchLru i = none from hsearch)
    rw [Cache.readFromLru_none offset length hsearch,
      Cache.readFromLru_none offset length (show c.calm.searchLru i = none from hsearch)]
    dsimp only
    cases hidle : c.idle with
    | cons p idle =>
      have hidle' : c.calm.idle = p :: idle := hidle
      obtain ⟨c', hload, -, -⟩ := (h.popIdle hidle').keepRead hi hlt hno
      obtain ⟨c₂, hload₂, rfl⟩ :=
        loadNode_of_calm (c := { c with idle, idleCount := c.idleCount - 1 }) hload
      rw [Cache.readFromIdle_cons offset length hidle' hload,
        Cache.readFromIdle_cons offset length hidle hload₂]
      rfl
    | nil =>
      have hidle' : c.calm.idle = [] := hidle
      obtain ⟨p, lru, hlru'⟩ := h.lru_ne_nil hn hidle'
      have hlru : c.lru = p :: lru := hlru'
      obtain ⟨c', hload, -, -⟩ := (h.replace hlru').keepRead hi hlt (Sim.replace_notMem hno hlru')
      obtain ⟨c₂, hload₂, rfl⟩ :=
        loadNode_of_evicted (evicted_ok (c := c) hok hn hsearch hidle hlru) hload
      rw [Cache.readFromIdle_nil offset length hidle, Cache.readFromIdle_nil offset length hidle']
      dsimp only
      rw [Cache.replaceReadFromLru_cons offset length hlru' hload,
        Cache.replaceReadFromLru_cons offset length hlru hload₂]
      rfl

/-- A write to a cache with blocks. -/
theorem write_calm (h : Sim c.calm [] u) {i : Nat} (hi : 1 ≤ i) (hlt : i < u.length)
    {offset : Nat} {data : List UInt8} (hfit : offset + data.length ≤ c.hard.clusterSize)
    (hn : c.cacheBlockNum ≠ 0) (hok : WriteBacksOk c (.write i data offset)) :
    c.calm.write i data offset = ((c.write i data offset).1, (c.write i data offset).2.calm) := by
  rw [Cache.write, if_neg (show ¬c.calm.cacheBlockNum = 0 from hn), Cache.write, if_neg hn]
  cases hsearch : c.searchLru i with
  | some p =>
    rw [Cache.writeToLru_some offset data hsearch,
      Cache.writeToLru_some offset data (show c.calm.searchLru i = some p from hsearch)]
    simp only [nspSuccess_zero, if_true]
    exact congrArg (Prod.mk 0) (pushDirty_calm ((c.moveLruToTail p).store p _) p)
  | none =>
    have hno := h.wf.searchLru_eq_none.mp (show c.calm.searchLru i = none from hsearch)
    rw [Cache.writeToLru_none offset data hsearch,
      Cache.writeToLru_none offset data (show c.calm.searchLru i = none from hsearch)]
    dsimp only
    rw [if_neg (show ¬nspSuccess eNoent = true by decide)]
    cases hidle : c.idle with
    | cons p idle =>
      have hidle' : c.calm.idle = p :: idle := hidle
      obtain ⟨c', hload, -⟩ := (h.popIdle hidle').keepWrite hi hlt hno hfit
      obtain ⟨c₂, hload₂, rfl⟩ :=
        loadNode_of_calm (c := { c with idle, idleCount := c.idleCount - 1 }) hload
      rw [Cache.writeToIdle_cons offset data hidle' hload,
        Cache.writeToIdle_cons offset data hidle hload₂]
      simp only [nspSuccess_zero, if_true]
      exact congrArg (Prod.mk 0) (keepWrite_calm c₂ i p offset data)
    | nil =>
      have hidle' : c.calm.idle = [] := hidle
      obtain ⟨p, lru, hlru'⟩ := h.lru_ne_nil hn hidle'
      have hlru : c.lru = p :: lru := hlru'
      have hsim' := h.replace hlru'
      have hfit' : offset + data.length ≤
          ((c.calm.withoutLru p lru).flushBlockIfDirty p).hard.clusterSize := by
        rw [← hsim'.sizes _ (List.getElem_mem hlt), h.sizes _ (List.getElem_mem hlt)]
        exact hfit
      obtain ⟨c', hload, -⟩ := hsim'.keepWrite hi hlt (Sim.replace_notMem hno hlru') hfit'
      obtain ⟨c₂, hload₂, rfl⟩ :=
        loadNode_of_evicted (evicted_ok (c := c) hok hn hsearch hidle hlru) hload
      rw [Cache.writeToIdle_nil offset data hidle, Cache.writeToIdle_nil offset data hidle']
      dsimp only
      rw [if_neg (show ¬nspSuccess eNomem = true by decide),
        Cache.replaceWriteToLru_cons offset data hlru' hload,
        Cache.replaceWriteToLru_cons offset data hlru hload₂]
      exact congrArg (Prod.mk 0) (keepWrite_calm c₂ i p offset data)

/-- A cluster that is read on the calm disk and on the other. -/
theorem read_of_calm {h : Hard} {clusterId : Int} {buffer bytes : List UInt8}
    (hread : hardReadCluster h.calm clusterId buffer = (0, bytes, h.calm)) :
    ∃ h', hardReadCluster h clusterId buffer = (0, bytes, h') ∧ h'.calm = h.calm := by
  rw [hardReadCluster_calm, Prod.mk.injEq, Prod.mk.injEq] at hread
  exact ⟨_, Prod.ext hread.1 (Prod.ext hread.2.1 rfl), hread.2.2⟩

theorem writeHarddisk_of_read {clusterId status : Int} {bytes data : List UInt8} {offset : Nat}
    {hard hard' : Hard}
    (hread : hardReadCluster c.hard clusterId (zeroCluster c.hard.clusterSize) = (0, bytes, hard))
    (hwrite : hardWriteCluster hard clusterId (overwrite bytes offset data) = (status, hard')) :
    c.writeHarddisk clusterId data offset = (status, c.setHard hard') := by
  rw [Cache.writeHarddisk, hread]
  dsimp only
  rw [if_pos nspSuccess_zero, hwrite]

/-- A write past the cache either does the same on both disks, or fails and leaves its disk
alone. -/
theorem writeHarddisk_calm (h : Sim c.calm [] u) {i : Nat} (hlt : i < u.length)
    (hlru : c.lru = []) (offset : Nat) (data : List UInt8) :
    c.calm.writeHarddisk i data offset =
        ((c.writeHarddisk i data offset).1, (c.writeHarddisk i data offset).2.calm) ∨
      nspSuccess (c.writeHarddisk i data offset).1 = false ∧
        (c.writeHarddisk i data offset).2.calm = c.calm := by
  have hno : ∀ q ∈ c.calm.lru, (c.calm.nodes q).clusterId ≠ i := by
    intro q hq
    rw [show c.calm.lru = [] from hlru] at hq
    cases hq
  have hread := h.read_disk hlt hno (zeroCluster c.calm.hard.clusterSize)
  obtain ⟨hard, hread', hcalm⟩ := read_of_calm (h := c.hard) hread
  rcases hwrite : hardWriteCluster hard i (overwrite u[i] offset data) with ⟨status, hard'⟩
  rw [writeHarddisk_of_read hread' hwrite]
  by_cases hf : ∀ fault ∈ hard.writeFaults.take 1, fault = false
  · left
    have hwrite' := hardWriteCluster_calm hf i (overwrite u[i] offset data)
    rw [hwrite, hcalm] at hwrite'
    exact writeHarddisk_of_read hread hwrite'
  · right
    have hfail := hardWriteCluster_fails hf i (overwrite u[i] offset data)
    rw [hwrite] at hfail
    refine ⟨hfail.1, ?_⟩
    show c.setHard hard'.calm = c.setHard c.hard.calm
    rw [show hard'.calm = hard.calm from hfail.2, hcalm]

theorem flush_faults (c : Cache) (p : Nat) :
    (c.flushBlockIfDirty p).hard.writeFaults = c.hard.writeFaults ∨
      (c.flushBlockIfDirty p).hard.writeFaults = c.hard.writeFaults.tail := by
  by_cases hs : (c.nodes p).state = .dirty
  · rw [Cache.flush_hard hs]
    exact hardWriteCluster_faults _ _ _
  · rw [Cache.flush_of_ne hs]
    exact .inl rfl

theorem flush_foldl_calm (ps : List Nat) : ∀ {c : Cache},
    (∀ fault ∈ c.hard.writeFaults.take ps.length, fault = false) →
      ps.foldl Cache.flushBlockIfDirty c.calm = (ps.foldl Cache.flushBlockIfDirty c).calm := by
  induction ps with
  | nil =>
    intro c _
    rfl
  | cons p ps ih =>
    intro c hf
    have hfirst : ∀ fault ∈ c.hard.writeFaults.take 1, fault = false := fun fault hfault =>
      hf fault ((List.take_prefix_take_left (Nat.succ_le_succ (Nat.zero_le _))).subset hfault)
    rw [List.foldl_cons, List.foldl_cons, flush_calm fun _ => hfirst]
    refine ih fun fault hfault => hf fault ?_
    rcases flush_faults c p with heq | heq
    · rw [heq] at hfault
      exact (List.take_prefix_take_left (Nat.le_succ _)).subset hfault
    · rw [heq] at hfault
      cases hw : c.hard.writeFaults with
      | nil => simp [hw] at hfault
      | cons first faults =>
        rw [hw] at hfault
        exact List.mem_cons_of_mem first hfault

theorem flushBufferAll_calm (hok : WriteBacksOk c .flushBufferAll) :
    c.calm.flushBufferAll = c.flushBufferAll.calm := by
  rw [Cache.flushBufferAll, Cache.flushBufferAll]
  by_cases hzero : c.dirtyCount = 0
  · rw [if_pos hzero, if_pos (show c.calm.dirtyCount = 0 from hzero)]
  · rw [if_neg hzero, if_neg (show ¬c.calm.dirtyCount = 0 from hzero)]
    exact flush_foldl_calm c.dirty hok

theorem flushBlock_calm {clusterId : Int} (hok : WriteBacksOk c (.flushBuffer clusterId)) :
    c.calm.flushBlock clusterId = (c.flushBlock clusterId).calm := by
  rw [Cache.flushBlock, Cache.flushBlock, show c.calm.searchLru clusterId = c.searchLru clusterId
    from rfl]
  cases hsearch : c.searchLru clusterId with
  | none => rfl
  | some p =>
    refine flush_calm fun hs => ?_
    have hback : c.writtenBack (.flushBuffer clusterId) = [p] := by
      simp [Cache.writtenBack, hsearch, Cache.writtenBack.isDirty, hs]
    rw [WriteBacksOk, hback] at hok
    exact hok

/-- A task whose write-backs are taken, other than a write past the cache. -/
theorem execTask_calm (h : Sim c.calm [] u) {clusterSize : Nat}
    (hu : ∀ b ∈ u, b.length = clusterSize) {t : Task} (ht : t.Legal clusterSize u.length)
    (hok : WriteBacksOk c t)
    (hn : ∀ clusterId data offset, t = .write clusterId data offset → c.cacheBlockNum ≠ 0) :
    c.calm.execTask t = ((c.execTask t).1, (c.execTask t).2.calm) := by
  cases t with
  | read clusterId offset length =>
    obtain ⟨h₁, h₂, -⟩ := ht
    obtain ⟨i, rfl⟩ := Int.eq_ofNat_of_zero_le (show 0 ≤ clusterId by omega)
    exact read_calm h (by omega) (by omega) offset length hok
  | write clusterId data offset =>
    obtain ⟨h₁, h₂, hfit⟩ := ht
    obtain ⟨i, rfl⟩ := Int.eq_ofNat_of_zero_le (show 0 ≤ clusterId by omega)
    have hlt : i < u.length := by omega
    have hsize : c.hard.clusterSize = clusterSize :=
      (h.sizes _ (List.getElem_mem hlt)).symm.trans (hu _ (List.getElem_mem hlt))
    have hwrite := write_calm h (show 1 ≤ i by omega) hlt (hsize ▸ hfit) (hn _ _ _ rfl) hok
    simp only [Cache.execTask, hwrite]
  | flushBufferAll =>
    simp only [Cache.execTask, flushBufferAll_calm hok]
  | flushBuffer clusterId =>
    simp only [Cache.execTask, flushBlock_calm hok]

/-! ## Runs -/

/-- One task: the cache over the calm disk stands for what was acknowledged. -/
theorem Sim.ackTask (h : Sim c.calm [] u) {clusterSize : Nat}
    (hu : ∀ b ∈ u, b.length = clusterSize) {t : Task} (ht : t.Legal clusterSize u.length)
    (hok : WriteBacksOk c t) :
    Sim (Evfs.ackTask (c, u) t).1.calm [] (Evfs.ackTask (c, u) t).2 := by
  have hsame : ∀ {t : Task}, t.Legal clusterSize u.length →
      c.calm.execTask t = ((c.execTask t).1, (c.execTask t).2.calm) →
      Sim (Evfs.ackTask (c, u) t).1.calm [] (Evfs.ackTask (c, u) t).2 := by
    intro t ht heq
    obtain ⟨hres, hsim⟩ := h.execTask hu ht
    rw [heq] at hres hsim
    dsimp only [Evfs.ackTask] at hres hsim ⊢
    rw [hres]
    exact hsim
  by_cases hn : ∀ clusterId data offset, t = .write clusterId data offset → c.cacheBlockNum ≠ 0
  · exact hsame ht (execTask_calm h hu ht hok hn)
  · -- a write past the cache, which reports its own failure
    push Not at hn
    obtain ⟨clusterId, data, offset, rfl, hzero⟩ := hn
    obtain ⟨i, rfl⟩ := Int.eq_ofNat_of_zero_le (show 0 ≤ clusterId by have := ht.1; omega)
    have hlt : i < u.length := by have := ht.2.1; omega
    have hwrite : ∀ c : Cache, c.cacheBlockNum = 0 →
        c.write i data offset = c.writeHarddisk i data offset := fun c hc => by
      rw [Cache.write, if_pos hc]
    have hcases := writeHarddisk_calm h hlt (h.no_blocks hzero) offset data
    rcases hw : c.writeHarddisk i data offset with ⟨status, c'⟩
    rw [hw] at hcases
    rcases hcases with heq | ⟨hfail, hcalm⟩
    · refine hsame ht ?_
      simp only [Cache.execTask, hwrite c.calm hzero, hwrite c hzero, heq, hw]
    · simp only at hfail hcalm
      simp only [Evfs.ackTask, Cache.execTask, hwrite c hzero, hw, hfail, hcalm]
      exact h

theorem cacheInit_calm (garbage : Nat → List UInt8) (h : Hard) (n : Nat) :
    (cacheInit garbage h n).calm = cacheInit garbage h.calm n := by
  have hblocks : ∀ (n : Nat) (c : Cache),
      (Cache.addBlocks garbage n c).calm = Cache.addBlocks garbage n c.calm := by
    intro n
    induction n with
    | zero => exact fun _ => rfl
    | succ n ih => exact fun c => ih (c.addBlock garbage)
  simp only [cacheInit, Cache.addBlockToIdle]
  rw [show Cache.empty h.calm = (Cache.empty h).calm from rfl, ← hblocks]
  rfl

/-- The cache holds the clusters it stands for. -/
theorem Sim.content_eq (h : Sim c [] u) (i : Nat) : c.content i = u[i]? := by
  by_cases hno : ∀ p ∈ c.lru, (c.nodes p).clusterId ≠ i
  · rw [Cache.content_of_notMem hno]
    exact h.disk i fun p hp _ => hno p hp
  · push Not at hno
    obtain ⟨p, hp, hid⟩ := hno
    obtain ⟨j, -, hjid, hu⟩ := h.cached p hp
    rw [h.wf.content_of_mem hp hid, ← hu, Int.natCast_inj.mp (hid.symm.trans hjid)]

theorem Sim.nothingLost (h : Sim c.calm [] u) : NothingLost (c, u) := by
  constructor
  · exact h.content_eq
  · intro p hp hs
    obtain ⟨i, -, hid, hu⟩ := h.cached p hp
    refine ⟨i, hid, ?_⟩
    rw [← show u[i]? = some (c.nodes p).data from hu]
    refine h.disk i fun q hq hd heq => ?_
    rw [h.wf.inj q hq p hp (heq.trans hid.symm)] at hd
    exact hs hd

/-- **No acknowledged write is lost.**  For any number of blocks and any file, in every run of tasks
on clusters of the file in which the writes of the disk may fail and its reads do not, every cluster
holds the writes to it that were acknowledged, and a block that is not on the disk is dirty, as long
as no write-back of a dirty block fails. -/
theorem nothingLost_of_run {h : Hard} (hh : h.calm.Wf) (garbage : Nat → List UInt8) (n : Nat)
    {tasks : List Task} {s : Cache × List (List UInt8)}
    (hrun : Lib.Run (fun s t s' => (t.Legal h.clusterSize h.file.length ∧ WriteBacksOk s.1 t) ∧
      ackTask s t = s') (cacheInit garbage h n, h.file) tasks s) : NothingLost s := by
  have hinv : Sim s.1.calm [] s.2 ∧ s.2.length = h.file.length ∧
      ∀ b ∈ s.2, b.length = h.clusterSize := by
    refine hrun.invariant (P := fun s => Sim s.1.calm [] s.2 ∧ s.2.length = h.file.length ∧
      ∀ b ∈ s.2, b.length = h.clusterSize) ?_ ⟨?_, rfl, hh.length_cluster⟩
    · rintro ⟨c, u⟩ t s' ⟨hsim, hlen, hsizes⟩ ⟨⟨ht, hok⟩, rfl⟩
      rw [← hlen] at ht
      refine ⟨hsim.ackTask hsizes ht hok, ?_⟩
      dsimp only [ackTask]
      split
      · exact ⟨(uncachedTask_length u t).trans hlen, uncachedTask_sizes hsizes ht⟩
      · exact ⟨hlen, hsizes⟩
    · rw [cacheInit_calm]
      exact sim_cacheInit hh garbage n
  exact hinv.1.nothingLost

instance (clusterSize clusterCount : Nat) (t : Task) :
    Decidable (t.Legal clusterSize clusterCount) :=
  match t with
  | .read _ _ _ => inferInstanceAs (Decidable (_ ∧ _ ∧ _))
  | .write _ _ _ => inferInstanceAs (Decidable (_ ∧ _ ∧ _))
  | .flushBufferAll => .isTrue trivial
  | .flushBuffer _ => inferInstanceAs (Decidable (_ ∧ _))

instance (c : Cache) (t : Task) : Decidable (WriteBacksOk c t) :=
  inferInstanceAs (Decidable (∀ fault ∈ c.hard.writeFaults.take (c.writtenBack t).length,
    fault = false))

theorem wf_three_calm (writeFaults : List Bool) : (Hard.three [] writeFaults).calm.Wf := wf_three

/-- One block, which is evicted for the second cluster and written back. -/
theorem nothingLost_of_run_example : ∃ s, Lib.Run
    (fun s t s' => (t.Legal 128 3 ∧ WriteBacksOk s.1 t) ∧ ackTask s t = s')
    (cacheInit (fun _ => []) (Hard.three [] [false, true]) 1, (Hard.three [] []).file)
    [.write 1 [7] 12, .read 2 12 1] s ∧
      s.1.content 1 = some (overwrite (zeroCluster 128) 12 [7]) ∧ NothingLost s := by
  have hrun : (Lib.exec
      (fun s t => if t.Legal 128 3 ∧ WriteBacksOk s.1 t then some (ackTask s t) else none)
      (cacheInit (fun _ => []) (Hard.three [] [false, true]) 1, (Hard.three [] []).file)
      [.write 1 [7] 12, .read 2 12 1]).map (fun s => s.1.content 1) =
        some (some (overwrite (zeroCluster 128) 12 [7])) := by
    decide +kernel
  obtain ⟨s, hexec, hcontent⟩ := Option.map_eq_some_iff.mp hrun
  have hrun := Lib.Run.of_exec (fun s t s' h => show (t.Legal 128 3 ∧ WriteBacksOk s.1 t) ∧
    ackTask s t = s' from (Option.ite_none_right_eq_some.mp h).imp_right Option.some.inj) hexec
  exact ⟨s, hrun, hcontent,
    nothingLost_of_run (wf_three_calm [false, true]) (fun _ => []) 1 hrun⟩

/-- The disk refuses the write-back of the one block, which is evicted all the same: the cluster is
again what it was before the write that was acknowledged. -/
theorem evict_loses : ∃ s, Lib.Run (fun s t s' => t.Legal 128 3 ∧ ackTask s t = s')
    (cacheInit (fun _ => []) (Hard.three [] [true]) 1, (Hard.three [] []).file)
    [.write 1 [7] 12, .read 2 12 1] s ∧ ¬NothingLost s := by
  have hrun : (Lib.exec (fun s t => if t.Legal 128 3 then some (ackTask s t) else none)
      (cacheInit (fun _ => []) (Hard.three [] [true]) 1, (Hard.three [] []).file)
      [.write 1 [7] 12, .read 2 12 1]).map (fun s => decide (s.1.content 1 = s.2[1]?)) =
        some false := by
    decide +kernel
  obtain ⟨s, hexec, hlost⟩ := Option.map_eq_some_iff.mp hrun
  have hrun := Lib.Run.of_exec (fun s t s' h => show t.Legal 128 3 ∧ ackTask s t = s' from
    (Option.ite_none_right_eq_some.mp h).imp_right Option.some.inj) hexec
  exact ⟨s, hrun, fun h => of_decide_eq_false hlost (h.content 1)⟩

end Evfs

end LibNax
