import LibNax.Evfs.Fresh
import LibNax.Evfs.WriteBack

/-!
# Which clusters are dirty

A block becomes dirty by a write to its cluster and by nothing else, and a flush makes it clean.  So
once the queue of the cache has come to the flush of a cluster, the cluster is on the disk until it
is written again, whatever else the queue holds.

* `Cache.Clean` — no block of the cluster differs from the disk.
* `DirtyBut` — the step from one cache to another has dirtied the blocks of one cluster at most.
* `Request` and `Serves` — what the thread of the cache takes out of its queue: the tasks, and the
  expansion of the file.
* `Serving` — the invariant of a run of requests: the cache stands for some clusters.
* `clean_of_run` — a flush with no write to the cluster behind it.

The requests that only look at the disk are left out, and so are the change of the number of blocks
and the end.
-/

set_option autoImplicit false

namespace LibNax

namespace Evfs

open Lib (Run)

namespace Cache

/-- No block that holds the cluster differs from the disk. -/
def Clean (c : Cache) (clusterId : Int) : Prop :=
  ∀ p ∈ c.lru, (c.nodes p).clusterId = clusterId → (c.nodes p).state ≠ .dirty

instance (c : Cache) (clusterId : Int) : Decidable (c.Clean clusterId) :=
  inferInstanceAs (Decidable (∀ p ∈ c.lru, _))

end Cache

/-! ## What dirties a block -/

variable {c c' c'' : Cache} {p : Nat} {v w : Int}

/-- A block that is dirty in the second cache holds the cluster `w`, or has been dirty with the
cluster that it holds. -/
def DirtyBut (w : Int) (c c' : Cache) : Prop :=
  ∀ q ∈ c'.lru, (c'.nodes q).state = .dirty → (c'.nodes q).clusterId = w ∨
    q ∈ c.lru ∧ (c.nodes q).state = .dirty ∧ (c.nodes q).clusterId = (c'.nodes q).clusterId

theorem DirtyBut.refl (w : Int) (c : Cache) : DirtyBut w c c := fun _ hq hd => .inr ⟨hq, hd, rfl⟩

theorem DirtyBut.trans (h : DirtyBut w c c') (h' : DirtyBut w c' c'') : DirtyBut w c c'' := by
  intro q hq hd
  rcases h' q hq hd with hw | ⟨hq', hd', hid⟩
  · exact .inl hw
  · rw [← hid]
    exact h q hq' hd'

theorem DirtyBut.clean (h : DirtyBut w c c') (hc : c.Clean v) (hne : w ≠ v) : c'.Clean v := by
  intro q hq hid hd
  rcases h q hq hd with hw | ⟨hq', hd', hid'⟩
  · exact hne (hw.symm.trans hid)
  · exact hc q hq' (hid'.trans hid) hd'

/-- Where one block has changed, it is the only one to look at. -/
theorem dirtyBut_of_block (w : Int) (p : Nat)
    (hself : p ∈ c'.lru → (c'.nodes p).state = .dirty → (c'.nodes p).clusterId = w)
    (hlru : ∀ q ∈ c'.lru, q ≠ p → q ∈ c.lru)
    (hnodes : ∀ q ≠ p, c'.nodes q = c.nodes q) : DirtyBut w c c' := by
  intro q hq hd
  by_cases hqp : q = p
  · subst hqp
    exact .inl (hself hq hd)
  · rw [hnodes q hqp] at hd ⊢
    exact .inr ⟨hlru q hq hqp, hd, rfl⟩

theorem loadNode_nodes_ne (c : Cache) (clusterId : Int) {q : Nat} (h : q ≠ p) :
    (c.loadNode clusterId p).2.nodes q = c.nodes q := by
  simp only [Cache.loadNode, Cache.store_nodes_ne _ h]
  rfl

/-- The block is put to use for a cluster that was read. -/
theorem dirtyBut_keepRead (w clusterId : Int) (hlru : ∀ q ∈ c'.lru, q ∈ c.lru)
    (hnodes : ∀ q ≠ p, c'.nodes q = c.nodes q) : DirtyBut w c (c'.keepRead clusterId p) := by
  refine dirtyBut_of_block w p (fun _ hd => ?_) (fun q hq hqp => ?_) fun q hqp => ?_
  · rw [show ((c'.keepRead clusterId p).nodes p).state = .clean by
      simp [Cache.keepRead, Cache.pushLru]] at hd
    cases hd
  · exact hlru q ((rest_enter c' _ q hqp).1.mp hq)
  · exact (Cache.store_nodes_ne c' hqp _).trans (hnodes q hqp)

/-- The block is put to use for a cluster that is written. -/
theorem dirtyBut_keepWrite (w : Int) (offset : Nat) (data : List UInt8)
    (hlru : ∀ q ∈ c'.lru, q ∈ c.lru) (hnodes : ∀ q ≠ p, c'.nodes q = c.nodes q) :
    DirtyBut w c (c'.keepWrite w p offset data) := by
  have hlru' : (c'.keepWrite w p offset data).lru = c'.lru ++ [p] := by
    rw [Cache.keepWrite, Cache.pushLru]
    simp only [Cache.pushDirty_lru]
    rfl
  refine dirtyBut_of_block w p (fun _ _ => ?_) (fun q hq hqp => ?_) fun q hqp => ?_
  · rw [Cache.keepWrite]
    show ((Cache.pushDirty _ p).nodes p).clusterId = w
    rw [Cache.pushDirty_nodes_self, Cache.store_nodes_self]
  · rw [hlru', List.mem_append, List.mem_singleton] at hq
    exact hlru q (hq.resolve_right hqp)
  · rw [Cache.keepWrite]
    show (Cache.pushDirty _ p).nodes q = c.nodes q
    rw [Cache.pushDirty_nodes_ne _ hqp, Cache.store_nodes_ne _ hqp]
    exact hnodes q hqp

/-- The block is given back. -/
theorem dirtyBut_pushIdle (w : Int) (hlru : ∀ q ∈ c'.lru, q ∈ c.lru)
    (hnodes : ∀ q ≠ p, c'.nodes q = c.nodes q) : DirtyBut w c (c'.pushIdle p) := by
  refine dirtyBut_of_block w p (fun _ hd => ?_) (fun q hq _ => hlru q hq) fun q hqp => ?_
  · rw [show ((c'.pushIdle p).nodes p).state = .idle by simp [Cache.pushIdle]] at hd
    cases hd
  · exact (Cache.store_nodes_ne c' hqp _).trans (hnodes q hqp)

theorem dirtyBut_flush (w : Int) (c : Cache) (p : Nat) :
    DirtyBut w c (c.flushBlockIfDirty p) := by
  refine dirtyBut_of_block w p (fun _ hd => absurd hd (flush_state_ne_dirty c p)) (fun q hq _ => ?_)
    fun q hqp => Cache.flush_nodes_ne c hqp
  rw [Cache.flush_lru] at hq
  exact hq

theorem dirtyBut_moveLruToTail (w : Int) (hp : p ∈ c.lru) : DirtyBut w c (c.moveLruToTail p) := by
  intro q hq hd
  refine .inr ⟨?_, hd, rfl⟩
  rcases List.mem_append.mp hq with hq | hq
  · exact List.mem_of_mem_erase hq
  · exact List.mem_singleton.mp hq ▸ hp

/-- The block that makes room is read into. -/
theorem replaced_nodes_ne (c : Cache) (clusterId : Int) (lru : List Nat) {q : Nat} (h : q ≠ p) :
    (((c.withoutLru p lru).flushBlockIfDirty p).loadNode clusterId p).2.nodes q = c.nodes q :=
  (loadNode_nodes_ne _ clusterId h).trans (Cache.flush_nodes_ne _ h)

theorem replaced_lru (clusterId : Int) {lru : List Nat} (hlru : c.lru = p :: lru) :
    ∀ q ∈ (((c.withoutLru p lru).flushBlockIfDirty p).loadNode clusterId p).2.lru, q ∈ c.lru := by
  intro q hq
  have hq' : q ∈ ((c.withoutLru p lru).flushBlockIfDirty p).lru := hq
  rw [Cache.flush_lru] at hq'
  exact hlru ▸ List.mem_cons_of_mem p hq'

/-! ## The ways of an access -/

theorem dirtyBut_replaceReadFromLru (w : Int) (c : Cache) (clusterId : Int) (offset length : Nat) :
    DirtyBut w c (c.replaceReadFromLru clusterId offset length).2 := by
  cases hlru : c.lru with
  | nil =>
    rw [Cache.replaceReadFromLru, Cache.popLru, hlru]
    exact .refl w c
  | cons p lru =>
    rw [Cache.replaceReadFromLru, Cache.popLru_cons hlru]
    dsimp only
    split
    · exact dirtyBut_keepRead w clusterId (replaced_lru clusterId hlru)
        fun q hqp => replaced_nodes_ne c clusterId lru hqp
    · exact dirtyBut_pushIdle w (replaced_lru clusterId hlru)
        fun q hqp => replaced_nodes_ne c clusterId lru hqp

theorem dirtyBut_readFromIdle (w : Int) (c : Cache) (clusterId : Int) (offset length : Nat) :
    DirtyBut w c (c.readFromIdle clusterId offset length).2 := by
  cases hidle : c.idle with
  | nil =>
    rw [Cache.readFromIdle_nil offset length hidle]
    exact .refl w c
  | cons p idle =>
    rw [Cache.readFromIdle, Cache.popIdle_cons hidle]
    dsimp only
    split
    · exact dirtyBut_keepRead w clusterId (fun q hq => hq)
        fun q hqp => loadNode_nodes_ne _ clusterId hqp
    · exact dirtyBut_pushIdle w (fun q hq => hq) fun q hqp => loadNode_nodes_ne _ clusterId hqp

theorem dirtyBut_replaceWriteToLru (w : Int) (c : Cache) (data : List UInt8) (offset : Nat) :
    DirtyBut w c (c.replaceWriteToLru w data offset).2 := by
  cases hlru : c.lru with
  | nil =>
    rw [Cache.replaceWriteToLru, Cache.popLru, hlru]
    exact .refl w c
  | cons p lru =>
    rw [Cache.replaceWriteToLru, Cache.popLru_cons hlru]
    dsimp only
    split
    · exact dirtyBut_keepWrite w offset data (replaced_lru w hlru)
        fun q hqp => replaced_nodes_ne c w lru hqp
    · exact dirtyBut_pushIdle w (replaced_lru w hlru) fun q hqp => replaced_nodes_ne c w lru hqp

theorem dirtyBut_writeToIdle (h : c.Wf []) (w : Int) (data : List UInt8) (offset : Nat) :
    DirtyBut w c (c.writeToIdle w data offset).2 := by
  cases hidle : c.idle with
  | nil =>
    rw [Cache.writeToIdle_nil offset data hidle]
    exact .refl w c
  | cons p idle =>
    rw [Cache.writeToIdle, Cache.popIdle_cons hidle]
    dsimp only
    split
    · exact dirtyBut_keepWrite w offset data (fun q hq => hq)
        fun q hqp => loadNode_nodes_ne _ w hqp
    · -- the block is lost, and is in no list
      exact dirtyBut_of_block w p
        (fun hp => absurd hp (h.idle_notMem_lru (hidle ▸ List.mem_cons_self))) (fun q hq _ => hq)
        fun q hqp => loadNode_nodes_ne _ w hqp

theorem dirtyBut_read (h : c.Wf []) (w clusterId : Int) (offset length : Nat) :
    DirtyBut w c (c.read clusterId offset length).2 := by
  rw [Cache.read]
  split
  · rw [Cache.readHarddisk]
    split
    · exact .refl w c
    · exact .refl w c
  cases hsearch : c.searchLru clusterId with
  | some p =>
    rw [Cache.readFromLru_some offset length hsearch]
    exact dirtyBut_moveLruToTail w (h.searchLru_eq_some.mp hsearch).1
  | none =>
    rw [Cache.readFromLru_none offset length hsearch]
    have hidle := dirtyBut_readFromIdle w c clusterId offset length
    dsimp only
    split
    · rename_i heq
      rw [heq] at hidle
      exact hidle
    · rename_i heq
      rw [heq] at hidle
      exact hidle.trans (dirtyBut_replaceReadFromLru w _ clusterId offset length)

theorem dirtyBut_write (h : c.Wf []) (w : Int) (data : List UInt8) (offset : Nat) :
    DirtyBut w c (c.write w data offset).2 := by
  rw [Cache.write]
  split
  · rw [Cache.writeHarddisk]
    dsimp only
    split
    · exact .refl w c
    · exact .refl w c
  cases hsearch : c.searchLru w with
  | some p =>
    obtain ⟨hp, hid⟩ := h.searchLru_eq_some.mp hsearch
    rw [Cache.writeToLru_some offset data hsearch, if_pos nspSuccess_zero]
    refine (dirtyBut_moveLruToTail w hp).trans (dirtyBut_of_block w p (fun _ _ => ?_) ?_ ?_)
    · rw [Cache.pushDirty_nodes_self, Cache.store_nodes_self]
      exact hid
    · intro q hq _
      rw [Cache.pushDirty_lru] at hq
      exact hq
    · intro q hqp
      rw [Cache.pushDirty_nodes_ne _ hqp, Cache.store_nodes_ne _ hqp]
  | none =>
    rw [Cache.writeToLru_none offset data hsearch]
    dsimp only
    rw [if_neg (show ¬nspSuccess eNoent = true by decide)]
    have hidle := dirtyBut_writeToIdle h w data offset
    split
    · exact hidle
    · exact hidle.trans (dirtyBut_replaceWriteToLru w _ data offset)

theorem dirtyBut_flush_foldl (w : Int) (ps : List Nat) : ∀ c : Cache,
    DirtyBut w c (ps.foldl Cache.flushBlockIfDirty c) := by
  induction ps with
  | nil => exact fun c => .refl w c
  | cons p ps ih => exact fun c => (dirtyBut_flush w c p).trans (ih _)

/-! ## The tasks -/

/-- The task writes to the cluster. -/
def Task.Writes (v : Int) : Task → Prop
  | .write clusterId _ _ => clusterId = v
  | _ => False

instance (v : Int) : ∀ t : Task, Decidable (t.Writes v)
  | .write clusterId _ _ => inferInstanceAs (Decidable (clusterId = v))
  | .read .. | .flushBufferAll | .flushBuffer _ => instDecidableFalse

/-- **A clean cluster stays clean** until it is written. -/
theorem Cache.Clean.execTask (hc : c.Clean v) (h : c.Wf []) {t : Task} (hno : ¬t.Writes v) :
    (c.execTask t).2.Clean v := by
  have hne : v + 1 ≠ v := by omega
  cases t with
  | read clusterId offset length =>
    exact (dirtyBut_read h (v + 1) clusterId offset length).clean hc hne
  | write clusterId data offset => exact (dirtyBut_write h clusterId data offset).clean hc hno
  | flushBufferAll =>
    show c.flushBufferAll.Clean v
    rw [Cache.flushBufferAll]
    split
    · exact hc
    · exact (dirtyBut_flush_foldl (v + 1) c.dirty c).clean hc hne
  | flushBuffer clusterId =>
    show (c.flushBlock clusterId).Clean v
    rw [Cache.flushBlock]
    split
    · exact hc
    · exact (dirtyBut_flush (v + 1) c _).clean hc hne

/-- **A flush makes its cluster clean.** -/
theorem clean_flushBlock (h : c.Wf []) (v : Int) : (c.flushBlock v).Clean v := by
  rw [Cache.flushBlock]
  cases hsearch : c.searchLru v with
  | none => exact fun p hp hid => absurd hid (h.searchLru_eq_none.mp hsearch p hp)
  | some p =>
    obtain ⟨hp, hid⟩ := h.searchLru_eq_some.mp hsearch
    intro q hq hqid
    rw [Cache.flush_lru] at hq
    rw [flush_clusterId] at hqid
    rw [h.inj q hq p hp (hqid.trans hid.symm)]
    exact flush_state_ne_dirty c p

/-- A clean cluster is on the disk. -/
theorem Sim.disk_of_clean {u : List (List UInt8)} (h : Sim c [] u) {i : Nat} (hc : c.Clean i) :
    c.hard.file[i]? = c.content i := by
  rw [h.content_eq]
  exact h.disk i fun p hp hd hid => hc p hp hid hd

/-! ## The requests -/

/-- What is in the queue of the cache. -/
inductive Request where
  /-- A task on clusters. -/
  | task (t : Task)
  /-- `kEvfsCacheIOTypeHardExpand`. -/
  | expand

/-- `__evfs_cache_exec_task`: the cache after a request. -/
def Cache.serve (c : Cache) : Request → Cache
  | .task t => (c.execTask t).2
  | .expand => c.setHard (hardExpand c.hard).2.2

namespace Request

/-- The request writes to the cluster. -/
def Writes (v : Int) : Request → Prop
  | .task t => t.Writes v
  | .expand => False

instance (v : Int) : ∀ q : Request, Decidable (q.Writes v)
  | .task t => inferInstanceAs (Decidable (t.Writes v))
  | .expand => instDecidableFalse

/-- The task is about clusters of the file, and the offset of every cluster stays an `int`. -/
def Legal (c : Cache) : Request → Prop
  | .task t => t.Legal c.hard.clusterSize c.hard.file.length
  | .expand => c.hard.fsize + c.hard.expandClusterCount * c.hard.clusterSize ≤ 2 ^ 31

end Request

/-- A legal request, served. -/
def Serves (c : Cache) (q : Request) (c' : Cache) : Prop := q.Legal c ∧ c.serve q = c'

/-- A file of whole clusters, with a true geometry. -/
structure Consistent (h : Hard) : Prop where
  wf : h.Wf
  geometry : Geometry h
  count : (h.file.length : Int) = h.clusterCount

theorem Formatted.consistent {h : Hard} (f : Formatted h) : Consistent h :=
  ⟨f.wf, f.geometry, f.length⟩

/-- The cache stands for the clusters `u` of a file with a true geometry. -/
structure Serving (c : Cache) (u : List (List UInt8)) : Prop where
  sim : Sim c [] u
  geometry : Geometry c.hard
  count : (c.hard.file.length : Int) = c.hard.clusterCount

theorem serving_cacheInit {h : Hard} (hh : Consistent h) (garbage : Nat → List UInt8) (n : Nat) :
    Serving (cacheInit garbage h n) h.file := by
  obtain ⟨-, hhard, -⟩ := Cache.wf_cacheInit garbage h n
  refine ⟨sim_cacheInit hh.wf garbage n, ?_, ?_⟩
  · rw [hhard]
    exact hh.geometry
  · rw [hhard]
    exact hh.count

/-- What a request that writes nothing to it leaves of a cluster, and that no cluster goes. -/
structure Leaves (q : Request) (u u' : List (List UInt8)) : Prop where
  length : u.length ≤ u'.length
  same : ∀ i : Nat, 1 ≤ i → i < u.length → ¬q.Writes i → u'[i]? = u[i]?

theorem leaves_task {t : Task} {u : List (List UInt8)} :
    Leaves (.task t) u (uncachedTask u t).2 := by
  refine ⟨by rw [uncachedTask_length], fun i _ hlt hno => ?_⟩
  cases t with
  | write clusterId data offset =>
    by_cases hi : clusterId.toNat = i
    · -- a negative number would be that of the first cluster
      exact absurd (show clusterId = i by omega) hno
    · exact List.getElem?_set_ne hi
  | _ => rfl

/-- **One request.** -/
theorem Serving.serve {u : List (List UInt8)} (h : Serving c u) {q : Request} (hs : Serves c q c') :
    ∃ u', Serving c' u' ∧ Leaves q u u' := by
  obtain ⟨hl, rfl⟩ := hs
  cases q with
  | task t =>
    have hl' : t.Legal c.hard.clusterSize u.length := by
      rw [h.sim.length]
      exact hl
    obtain ⟨-, hsim⟩ := h.sim.execTask h.sim.sizes hl'
    have hkeeps := Cache.execTask_keeps c t
    refine ⟨_, ⟨hsim, h.geometry.keeps hkeeps, ?_⟩, leaves_task⟩
    show ((c.execTask t).2.hard.file.length : Int) = (c.execTask t).2.hard.clusterCount
    rw [← hsim.length, uncachedTask_length, h.sim.length, hkeeps.clusterCount]
    exact h.count
  | expand =>
    have hpos := h.geometry.expandSize_pos
    have hfit : c.hard.fsize + c.hard.expandClusterCount * c.hard.clusterSize ≤ 2 ^ 31 := hl
    have heq := h.geometry.hardExpand_eq h.sim.hard.writeFaults (by omega)
    have hsim := h.sim.expanded h.geometry h.count hfit
    rw [Cache.serve, heq]
    refine ⟨_, ⟨hsim, h.geometry.expanded (by omega), ?_⟩, ?_, fun i hi hlt _ => ?_⟩
    · show (c.hard.expanded.file.length : Int) = c.hard.expanded.clusterCount
      have hexpand := h.geometry.expand_pos
      rw [h.geometry.expanded_file h.count, grownDisk, List.length_append, List.length_set,
        List.length_replicate, Hard.expanded_clusterCount h.geometry, ← h.count]
      omega
    · rw [grownDisk, List.length_append, List.length_set]
      exact Nat.le_add_right _ _
    · exact grownDisk_getElem? hi hlt

/-- **A run of requests**: what it does not write stays as it is. -/
theorem serving_of_run {as : List Request} (hrun : Run Serves c as c') : ∀ {u : List (List UInt8)},
    Serving c u → ∃ u', Serving c' u' ∧ u.length ≤ u'.length ∧
      ∀ i : Nat, 1 ≤ i → i < u.length → (∀ q ∈ as, ¬q.Writes i) → u'[i]? = u[i]? := by
  induction hrun with
  | nil c => exact fun {u} h => ⟨u, h, Nat.le_refl _, fun _ _ _ _ => rfl⟩
  | cons hs _ ih =>
    intro u h
    obtain ⟨u₁, h₁, hleaves⟩ := h.serve hs
    obtain ⟨u', h', hle, hsame⟩ := ih h₁
    refine ⟨u', h', hleaves.length.trans hle, fun i hi hlt hno => ?_⟩
    rw [hsame i hi (by have := hleaves.length; omega)
      fun q hq => hno q (List.mem_cons_of_mem _ hq)]
    exact hleaves.same i hi hlt (hno _ List.mem_cons_self)

theorem Cache.Clean.serve (hc : c.Clean v) (h : c.Wf []) {q : Request} (hno : ¬q.Writes v) :
    (c.serve q).Clean v := by
  cases q with
  | task t => exact hc.execTask h hno
  | expand => exact hc

theorem clean_of_requests {as : List Request} (hrun : Run Serves c as c') :
    ∀ {u : List (List UInt8)}, Serving c u → c.Clean v → (∀ q ∈ as, ¬q.Writes v) → c'.Clean v := by
  induction hrun with
  | nil c => exact fun _ hc _ => hc
  | cons hs _ ih =>
    intro u h hc hno
    obtain ⟨u', h', -⟩ := h.serve hs
    obtain ⟨-, rfl⟩ := hs
    exact ih h' (hc.serve h.sim.wf (hno _ List.mem_cons_self))
      fun q hq => hno q (List.mem_cons_of_mem _ hq)

/-- **Behind a flush** a cluster is clean until it is written. -/
theorem clean_of_run {l r : List Request} {u : List (List UInt8)} (h : Serving c u)
    (hrun : Run Serves c (l ++ .task (.flushBuffer v) :: r) c') (hno : ∀ q ∈ r, ¬q.Writes v) :
    c'.Clean v := by
  obtain ⟨c₁, hl, hr⟩ := Run.of_append hrun
  obtain ⟨u₁, h₁, -⟩ := serving_of_run hl h
  cases hr with
  | cons hs hr =>
    obtain ⟨u₂, h₂, -⟩ := h₁.serve hs
    obtain ⟨-, rfl⟩ := hs
    exact clean_of_requests hr h₂ (clean_flushBlock h₁.sim.wf v) hno

end Evfs

end LibNax
