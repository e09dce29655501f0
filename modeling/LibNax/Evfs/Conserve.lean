import Mathlib.Data.List.Perm.Subperm
import LibNax.Lib.Run
import LibNax.Evfs.Transparent

/-!
# No block gets lost

A block is taken out of its list while a cluster is read into it, and has to go back into one when
the read fails.  `__evfs_cache_write_to_idle` forgets it, where `__evfs_cache_read_from_idle` puts
it back. And `__evfs_cache_add_block_to_idle` counts its blocks twice.

* `Conserved` — every block that was allocated is in one list, and all of them are counted.
* `Whole` — the same with the blocks that are being worked on.
* `Whole.read`, `Whole.write` — an access keeps it, whichever read fails.
* `conserved_of_run` — it holds as long as neither of the two defects is met.
* `writeToIdle_leaks`, `addBlock_miscounts` — what happens there.
-/

set_option autoImplicit false

namespace LibNax

namespace Evfs

/-! ## The property -/

/-- The tasks of the cache that move blocks. -/
inductive BlockTask where
  /-- An access or a flush. -/
  | io (t : Task)
  /-- `kEvfsCacheIOTypeAddCacheBlock`. -/
  | addCacheBlock (length : Int)

/-- `__evfs_cache_exec_task` for these tasks, where the allocations succeed. -/
def Cache.execBlockTask (garbage : Nat → List UInt8) (c : Cache) : BlockTask → Cache
  | .io t => (c.execTask t).2
  | .addCacheBlock length => (c.addBlockToIdle garbage length.toNat).2

/-- Every block that was allocated is in one of two lists, the counts are right, and the index and
the dirty list are those of the blocks in use. -/
structure Conserved (c : Cache) : Prop where
  place : ∀ p < c.next, (p ∈ c.idle ∧ p ∉ c.lru) ∨ (p ∈ c.lru ∧ p ∉ c.idle)
  counts : c.idleCount + c.lruCount = c.cacheBlockNum
  allocated : c.cacheBlockNum = c.next
  inj : ∀ p ∈ c.lru, ∀ q ∈ c.lru, (c.nodes p).clusterId = (c.nodes q).clusterId → p = q
  index : ∀ leaf, leaf ∈ Avl.toList c.rootOfLruIndex ↔
    leaf.node ∈ c.lru ∧ (c.nodes leaf.node).clusterId = leaf.clusterId
  dirty : ∀ p, p ∈ c.dirty ↔ p ∈ c.lru ∧ (c.nodes p).state = .dirty

/-- The next read of the cluster does not fail. -/
def ReadOk (h : Hard) (clusterId : Int) : Prop :=
  0 ≤ clusterOffset h clusterId ∧ h.readFaults.headD false = false

/-- A write that misses and takes an idle block can read its cluster, and no blocks are added. -/
def BlocksKept (c : Cache) : BlockTask → Prop
  | .io (.write clusterId _ _) => c.cacheBlockNum ≠ 0 → c.searchLru clusterId = none →
    c.idle ≠ [] → ReadOk c.hard clusterId
  | .io _ => True
  | .addCacheBlock length => length ≤ 0

/-! ## The invariant -/

/-- The lists are in step and hold every block, but for those that are worked on. -/
structure Whole (c : Cache) (hand : List Nat) : Prop where
  wf : c.Wf hand
  allocated : c.cacheBlockNum = c.next

variable {c : Cache} {hand : List Nat} {p : Nat}

theorem Whole.conserved (h : Whole c []) : Conserved c where
  place := by
    -- as many different blocks below `next` as there are numbers below it
    have hlen : (c.lru ++ c.idle).length = c.next := by
      have hnum := h.wf.cacheBlockNum
      rw [h.allocated, List.length_nil] at hnum
      rw [List.length_append]
      omega
    have hnodup : (c.lru ++ c.idle).Nodup := by
      have := h.wf.nodup
      rwa [List.append_nil] at this
    have hsub : (c.lru ++ c.idle).Subperm (List.range c.next) :=
      List.subperm_of_subset hnodup fun q hq =>
        List.mem_range.mpr (h.wf.lt_next q (by rwa [List.append_nil]))
    have hperm : (c.lru ++ c.idle).Perm (List.range c.next) :=
      List.Subperm.perm_of_length_le hsub (by rw [hlen, List.length_range])
    intro p hp
    rcases List.mem_append.mp (hperm.mem_iff.mpr (List.mem_range.mpr hp)) with hmem | hmem
    · exact .inr ⟨hmem, fun hidle => h.wf.idle_notMem_lru hidle hmem⟩
    · exact .inl ⟨hmem, h.wf.idle_notMem_lru hmem⟩
  counts := by
    have hnum := h.wf.cacheBlockNum
    rw [List.length_nil] at hnum
    rw [h.wf.idleCount, h.wf.lruCount, hnum]
    omega
  allocated := h.allocated
  inj := h.wf.inj
  index := h.wf.mem_index
  dirty := h.wf.mem_dirty

theorem Whole.popIdle (h : Whole c []) {idle : List Nat} (hidle : c.idle = p :: idle) :
    Whole { c with idle, idleCount := c.idleCount - 1 } [p] :=
  ⟨h.wf.popIdle hidle, h.allocated⟩

theorem Whole.pushIdle (h : Whole c [p]) : Whole (c.pushIdle p) [] :=
  ⟨h.wf.pushIdle, h.allocated⟩

theorem Whole.setHard (h : Whole c hand) (hard : Hard) : Whole (c.setHard hard) hand :=
  ⟨h.wf.setHard hard, h.allocated⟩

theorem Whole.loadNode (h : Whole c hand) (clusterId : Int) (p : Nat) :
    Whole (c.loadNode clusterId p).2 hand :=
  ⟨(h.wf.setHard _).store_data p _, h.allocated⟩

theorem Whole.pushDirty (h : Whole c hand) (hp : p ∈ c.lru) : Whole (c.pushDirty p) hand := by
  refine ⟨h.wf.pushDirty hp, ?_⟩
  rw [Cache.pushDirty]
  split
  · exact h.allocated
  · exact h.allocated

theorem Whole.flushBlockIfDirty (h : Whole c hand) (hp : p ∈ c.lru) :
    Whole (c.flushBlockIfDirty p) hand := by
  refine ⟨h.wf.flushBlockIfDirty hp, ?_⟩
  rw [Cache.flushBlockIfDirty]
  split
  · exact h.allocated
  · exact h.allocated

/-- The block that makes room is taken out of the lists. -/
theorem Whole.replace (h : Whole c []) {lru : List Nat} (hlru : c.lru = p :: lru) :
    Whole ((c.withoutLru p lru).flushBlockIfDirty p) [p] := by
  have h' := h.flushBlockIfDirty (hlru ▸ List.mem_cons_self : p ∈ c.lru)
  have hlru' : (c.flushBlockIfDirty p).lru = p :: lru := (Cache.flush_lru c p).trans hlru
  rw [flush_withoutLru]
  exact ⟨h'.wf.popLru hlru' (flush_state_ne_dirty c p), h'.allocated⟩

/-- No block holds the cluster. -/
def Absent (c : Cache) (clusterId : Int) : Prop := ∀ q ∈ c.lru, (c.nodes q).clusterId ≠ clusterId

theorem loadNode_clusterId (c : Cache) (clusterId : Int) (p q : Nat) :
    ((c.loadNode clusterId p).2.nodes q).clusterId = (c.nodes q).clusterId := by
  simp only [Cache.loadNode]
  by_cases hqp : q = p
  · rw [hqp, Cache.store_nodes_self]
  · rw [Cache.store_nodes_ne _ hqp]
    rfl

theorem Absent.loadNode {clusterId : Int} (h : Absent c clusterId) (p : Nat) :
    Absent (c.loadNode clusterId p).2 clusterId := by
  intro q hq
  rw [loadNode_clusterId]
  exact h q hq

theorem Absent.pushIdle {clusterId : Int} (h : Absent c clusterId) (hp : p ∉ c.lru) :
    Absent (c.pushIdle p) clusterId := by
  intro q hq
  have hqp : q ≠ p := by
    rintro rfl
    exact hp hq
  rw [show (c.pushIdle p).nodes q = c.nodes q from Cache.store_nodes_ne c hqp _]
  exact h q hq

theorem Whole.notMem_lru (h : Whole c [p]) : p ∉ c.lru :=
  (h.wf.notMem_of_hand (List.mem_singleton_self p)).1

/-- The block comes into use with a cluster that no other holds. -/
theorem Whole.enter (h : Whole c [p]) {clusterId : Int} (hno : Absent c clusterId)
    (data : List UInt8) : Whole ((c.store p ⟨clusterId, .clean, data⟩).pushLru p) [] := by
  have hwf := h.wf.store_hand (List.mem_singleton_self p) ⟨clusterId, .clean, data⟩
    BlockState.noConfusion
  refine ⟨hwf.pushLru_clean ?_ ?_, h.allocated⟩
  · rw [Cache.store_nodes_self]
  · intro q hq
    rw [Cache.store_nodes_self, Cache.store_nodes_ne c (by rintro rfl; exact h.notMem_lru hq)]
    exact hno q hq

theorem Whole.keepRead (h : Whole c [p]) {clusterId : Int} (hno : Absent c clusterId) :
    Whole (c.keepRead clusterId p) [] :=
  h.enter hno _

theorem Whole.keepWrite (h : Whole c [p]) {clusterId : Int} (hno : Absent c clusterId)
    (offset : Nat) (data : List UInt8) : Whole (c.keepWrite clusterId p offset data) [] := by
  rw [Cache.keepWrite_eq (h.wf.hand_state p (List.mem_singleton_self p))]
  exact (h.enter hno _).pushDirty (mem_pushLru _ p)

/-! ## The tasks -/

theorem Whole.absent (h : Whole c []) {clusterId : Int} (hsearch : c.searchLru clusterId = none) :
    Absent c clusterId :=
  h.wf.searchLru_eq_none.mp hsearch

theorem Absent.replace {clusterId : Int} (h : Absent c clusterId) {lru : List Nat}
    (hlru : c.lru = p :: lru) :
    Absent ((c.withoutLru p lru).flushBlockIfDirty p) clusterId := by
  intro q hq
  rw [Cache.flush_lru] at hq
  rw [flush_clusterId]
  exact h q (hlru ▸ List.mem_cons_of_mem p hq)

/-- A block that is worked on, after the read into it: it comes into use, or goes back. -/
theorem Whole.finishRead (h : Whole c [p]) {clusterId : Int} (hno : Absent c clusterId) :
    Whole ((c.loadNode clusterId p).2.keepRead clusterId p) [] ∧
      Whole ((c.loadNode clusterId p).2.pushIdle p) [] :=
  ⟨(h.loadNode clusterId p).keepRead (hno.loadNode p), (h.loadNode clusterId p).pushIdle⟩

theorem Whole.finishWrite (h : Whole c [p]) {clusterId : Int} (hno : Absent c clusterId)
    (offset : Nat) (data : List UInt8) :
    Whole ((c.loadNode clusterId p).2.keepWrite clusterId p offset data) [] ∧
      Whole ((c.loadNode clusterId p).2.pushIdle p) [] :=
  ⟨(h.loadNode clusterId p).keepWrite (hno.loadNode p) offset data,
    (h.loadNode clusterId p).pushIdle⟩

theorem Whole.replaceReadFromLru (h : Whole c []) {clusterId : Int} (hno : Absent c clusterId)
    (offset length : Nat) : Whole (c.replaceReadFromLru clusterId offset length).2 [] := by
  rw [Cache.replaceReadFromLru]
  cases hlru : c.lru with
  | nil => rw [Cache.popLru, hlru]; exact h
  | cons p lru =>
    obtain ⟨hkeep, hback⟩ := (h.replace hlru).finishRead (hno.replace hlru)
    rw [Cache.popLru_cons hlru]
    dsimp only
    split
    · exact hkeep
    · exact hback

theorem Whole.replaceWriteToLru (h : Whole c []) {clusterId : Int} (hno : Absent c clusterId)
    (data : List UInt8) (offset : Nat) :
    Whole (c.replaceWriteToLru clusterId data offset).2 [] := by
  rw [Cache.replaceWriteToLru]
  cases hlru : c.lru with
  | nil => rw [Cache.popLru, hlru]; exact h
  | cons p lru =>
    obtain ⟨hkeep, hback⟩ := (h.replace hlru).finishWrite (hno.replace hlru) offset data
    rw [Cache.popLru_cons hlru]
    dsimp only
    split
    · exact hkeep
    · exact hback

/-- The idle block goes back where its read fails. -/
theorem Whole.readFromIdle (h : Whole c []) {clusterId : Int} (hno : Absent c clusterId)
    (offset length : Nat) : Whole (c.readFromIdle clusterId offset length).2 [] ∧
      Absent (c.readFromIdle clusterId offset length).2 clusterId ∨
    ∃ bytes c', c.readFromIdle clusterId offset length = (.ok bytes, c') ∧ Whole c' [] := by
  rw [Cache.readFromIdle]
  cases hidle : c.idle with
  | nil => rw [Cache.popIdle, hidle]; exact .inl ⟨h, hno⟩
  | cons p idle =>
    have h' := h.popIdle hidle
    have hno' : Absent { c with idle, idleCount := c.idleCount - 1 } clusterId := hno
    obtain ⟨hkeep, hback⟩ := h'.finishRead hno'
    rw [Cache.popIdle_cons hidle]
    dsimp only
    split
    · exact .inr ⟨_, _, rfl, hkeep⟩
    · exact .inl ⟨hback, (hno'.loadNode p).pushIdle (h'.loadNode clusterId p).notMem_lru⟩

/-- **A read keeps the blocks**, whichever read of the disk fails. -/
theorem Whole.read (h : Whole c []) (clusterId : Int) (offset length : Nat) :
    Whole (c.read clusterId offset length).2 [] := by
  rw [Cache.read]
  split
  · rw [Cache.readHarddisk]
    split
    · exact h.setHard _
    · exact h.setHard _
  cases hsearch : c.searchLru clusterId with
  | some p =>
    rw [Cache.readFromLru_some offset length hsearch]
    exact ⟨h.wf.moveLruToTail (h.wf.searchLru_eq_some.mp hsearch).1, h.allocated⟩
  | none =>
    have hno := h.absent hsearch
    rw [Cache.readFromLru_none offset length hsearch]
    dsimp only
    rcases h.readFromIdle hno offset length with ⟨h', hno'⟩ | ⟨bytes, c', heq, h'⟩
    · rcases hr : c.readFromIdle clusterId offset length with ⟨bytes | status, c'⟩
      · rw [hr] at h' hno'
        exact h'.replaceReadFromLru hno' offset length
      · rw [hr] at h'
        exact h'
    · rw [heq]
      exact h'

theorem loadNode_ok {clusterId : Int} (hok : ReadOk c.hard clusterId) (p : Nat) :
    (c.loadNode clusterId p).1 = 0 := by
  simp only [Cache.loadNode, hardReadCluster]
  rw [if_neg (Int.not_lt.mpr hok.1), if_neg (by rw [Hard.popRead, hok.2]; exact Bool.noConfusion)]

/-- **A write keeps the blocks**, if it can read into the idle block it takes. -/
theorem Whole.write (h : Whole c []) {clusterId : Int} {data : List UInt8} {offset : Nat}
    (hok : BlocksKept c (.io (.write clusterId data offset))) :
    Whole (c.write clusterId data offset).2 [] := by
  rw [Cache.write]
  split
  · rw [Cache.writeHarddisk]
    dsimp only
    split
    · exact h.setHard _
    · exact h.setHard _
  rename_i hn
  cases hsearch : c.searchLru clusterId with
  | some p =>
    have hp := (h.wf.searchLru_eq_some.mp hsearch).1
    rw [Cache.writeToLru_some offset data hsearch]
    simp only [nspSuccess_zero, if_true]
    have h' : Whole ((c.moveLruToTail p).store p
        { c.nodes p with data := Lib.overwrite (c.nodes p).data offset data }) [] :=
      ⟨(h.wf.moveLruToTail hp).store_data p _, h.allocated⟩
    exact h'.pushDirty (List.mem_append_right _ (List.mem_singleton_self p))
  | none =>
    have hno := h.absent hsearch
    rw [Cache.writeToLru_none offset data hsearch]
    dsimp only
    rw [if_neg (show ¬nspSuccess eNoent = true by decide)]
    cases hidle : c.idle with
    | nil =>
      rw [Cache.writeToIdle_nil offset data hidle]
      dsimp only
      rw [if_neg (show ¬nspSuccess eNomem = true by decide)]
      exact h.replaceWriteToLru hno data offset
    | cons p idle =>
      have hread := hok hn hsearch (by rw [hidle]; exact List.cons_ne_nil p idle)
      have h' := h.popIdle hidle
      have hload := loadNode_ok (c := { c with idle, idleCount := c.idleCount - 1 }) hread p
      rw [Cache.writeToIdle_cons offset data hidle (Prod.ext hload rfl)]
      simp only [nspSuccess_zero, if_true]
      exact (h'.finishWrite hno offset data).1

theorem Whole.flush_foldl (ps : List Nat) : ∀ {c : Cache}, Whole c hand → (∀ p ∈ ps, p ∈ c.lru) →
    Whole (ps.foldl Cache.flushBlockIfDirty c) hand := by
  induction ps with
  | nil => exact fun h _ => h
  | cons p ps ih =>
    intro c h hps
    refine ih (h.flushBlockIfDirty (hps p List.mem_cons_self)) fun q hq => ?_
    rw [Cache.flush_lru]
    exact hps q (List.mem_cons_of_mem p hq)

theorem Whole.execTask (h : Whole c []) {t : Task} (hok : BlocksKept c (.io t)) :
    Whole (c.execTask t).2 [] := by
  cases t with
  | read clusterId offset length => exact h.read clusterId offset length
  | write clusterId data offset => exact h.write hok
  | flushBufferAll =>
    show Whole c.flushBufferAll []
    rw [Cache.flushBufferAll]
    split
    · exact h
    · exact Whole.flush_foldl c.dirty h fun p hp => ((h.wf.mem_dirty p).mp hp).1
  | flushBuffer clusterId =>
    show Whole (c.flushBlock clusterId) []
    rw [Cache.flushBlock]
    split
    · exact h
    · rename_i p hsearch
      exact h.flushBlockIfDirty (h.wf.searchLru_eq_some.mp hsearch).1

theorem Whole.execBlockTask (h : Whole c []) (garbage : Nat → List UInt8) {t : BlockTask}
    (hok : BlocksKept c t) : Whole (c.execBlockTask garbage t) [] := by
  cases t with
  | io t => exact h.execTask hok
  | addCacheBlock length =>
    have hzero : length.toNat = 0 := Int.toNat_of_nonpos hok
    have hsame : c.execBlockTask garbage (.addCacheBlock length) = c := by
      rw [Cache.execBlockTask, hzero, Cache.addBlockToIdle, Cache.addBlocks]
      simp
    rw [hsame]
    exact h

theorem next_addBlocks (garbage : Nat → List UInt8) (n : Nat) : ∀ c : Cache,
    (Cache.addBlocks garbage n c).next = c.next + n := by
  induction n with
  | zero => exact fun _ => rfl
  | succ n ih =>
    intro c
    rw [Cache.addBlocks, ih, Cache.addBlock]
    dsimp only
    omega

theorem whole_cacheInit (garbage : Nat → List UInt8) (hard : Hard) (n : Nat) :
    Whole (cacheInit garbage hard n) [] := by
  refine ⟨(Cache.wf_cacheInit garbage hard n).1, ?_⟩
  show (n : Int) = (Cache.addBlocks garbage n (Cache.empty hard)).next
  rw [next_addBlocks, Cache.empty, Nat.zero_add]

/-- **No block gets lost.**  For any number of blocks and any file, in every run of tasks in which
any access to the disk may fail, every block is in one list and all of them are counted, as long as
no write fails to read into an idle block and no blocks are added. -/
theorem conserved_of_run (garbage : Nat → List UInt8) (hard : Hard) (n : Nat)
    {tasks : List BlockTask} {c : Cache}
    (hrun : Lib.Run (fun c t c' => BlocksKept c t ∧ c.execBlockTask garbage t = c')
      (cacheInit garbage hard n) tasks c) : Conserved c := by
  have h : Whole c [] := by
    refine hrun.invariant (P := fun c => Whole c []) ?_ (whole_cacheInit garbage hard n)
    rintro c t c' h ⟨hok, rfl⟩
    exact h.execBlockTask garbage hok
  exact h.conserved

instance (h : Hard) (clusterId : Int) : Decidable (ReadOk h clusterId) :=
  inferInstanceAs (Decidable (_ ∧ _))

instance (c : Cache) (t : BlockTask) : Decidable (BlocksKept c t) :=
  match t with
  | .io (.write clusterId _ _) => inferInstanceAs (Decidable (c.cacheBlockNum ≠ 0 →
      c.searchLru clusterId = none → c.idle ≠ [] → ReadOk c.hard clusterId))
  | .io (.read _ _ _) => .isTrue trivial
  | .io .flushBufferAll => .isTrue trivial
  | .io (.flushBuffer _) => .isTrue trivial
  | .addCacheBlock length => inferInstanceAs (Decidable (length ≤ 0))

/-- One block.  It goes back when the read into it fails, and is then written to. -/
theorem conserved_of_run_example : ∃ c, Lib.Run
    (fun c t c' => BlocksKept c t ∧ c.execBlockTask (fun _ => []) t = c')
    (cacheInit (fun _ => []) (Hard.three [true] []) 1)
    [.io (.read 1 12 1), .io (.write 1 [7] 12), .addCacheBlock 0] c ∧
    c.lru = [0] ∧ Conserved c := by
  obtain ⟨c, hexec, hlru⟩ : ∃ c, Lib.exec
      (fun c t => if BlocksKept c t then some (c.execBlockTask (fun _ => []) t) else none)
      (cacheInit (fun _ => []) (Hard.three [true] []) 1)
      [.io (.read 1 12 1), .io (.write 1 [7] 12), .addCacheBlock 0] = some c ∧ c.lru = [0] :=
    ⟨_, rfl, rfl⟩
  have hrun := Lib.Run.of_exec (fun c t c' h => show BlocksKept c t ∧
    c.execBlockTask (fun _ => []) t = c' from
      (Option.ite_none_right_eq_some.mp h).imp_right Option.some.inj) hexec
  exact ⟨c, hrun, hlru, conserved_of_run (fun _ => []) (Hard.three [true] []) 1 hrun⟩

/-- The read into the idle block fails, and the block is in no list any more. -/
theorem writeToIdle_leaks : ∃ c, Lib.Run
    (fun c t c' => c.execBlockTask (fun _ => []) t = c')
    (cacheInit (fun _ => []) (Hard.three [true] []) 1) [.io (.write 1 [7] 12)] c ∧
      ¬Conserved c := by
  refine ⟨_, .cons rfl (.nil _), fun h => ?_⟩
  have hplace := h.place 0 (by decide)
  revert hplace
  decide

/-- One block is added to one, and three are counted. -/
theorem addBlock_miscounts : ¬Conserved
    ((cacheInit (fun _ => []) (Hard.three [] []) 1).execBlockTask (fun _ => [])
      (.addCacheBlock 1)) := by
  intro h
  have hcount := h.allocated
  revert hcount
  decide

end Evfs

end LibNax
