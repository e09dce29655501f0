import LibNax.Evfs.CacheWf
import LibNax.Evfs.Opening

/-!
# The cache is transparent

With the disk and the memory working, the tasks of the cache return what the same tasks return on a
disk without one, and a flush leaves that disk.

* `Hard.Wf` — a file of whole clusters, with no fault to come.
* `Sim c hand u` — the cache stands for the clusters `u`: a block in use holds its cluster, and a
  cluster without a dirty block is on the disk.
* `Sim.read`, `Sim.write`, `Sim.flushBufferAll`, `Sim.flushBlock` — each task in these terms.
* `cache_transparent` — whole sequences of tasks.
-/

set_option autoImplicit false

namespace LibNax

namespace Evfs

open Lib (int32 slice overwrite)

/-! ## The disk without faults -/

/-- A file of whole clusters, whose offsets are all `int`s, and no fault to come. -/
structure Hard.Wf (h : Hard) : Prop where
  size_pos : 0 < h.clusterSize
  length_cluster : ∀ b ∈ h.file, b.length = h.clusterSize
  fits : h.file.length * h.clusterSize ≤ 2 ^ 31
  readFaults : h.readFaults = []
  writeFaults : h.writeFaults = []

theorem wf_ofTable {headers : List Cluster} (h : headers.length < 2 ^ 20) :
    (Hard.ofTable headers).Wf where
  size_pos := Nat.succ_pos 127
  length_cluster := sizes_ofTable headers
  fits := by
    rw [Hard.ofTable, List.length_cons, List.length_map]
    show (headers.length + 1) * 128 ≤ 2 ^ 31
    omega
  readFaults := rfl
  writeFaults := rfl

theorem Hard.popRead_of_nil {h : Hard} (hr : h.readFaults = []) : h.popRead = (false, h) := by
  cases h
  simp only at hr
  subst hr
  rfl

theorem Hard.popWrite_of_nil {h : Hard} (hw : h.writeFaults = []) : h.popWrite = (false, h) := by
  cases h
  simp only at hw
  subst hw
  rfl

theorem Hard.Wf.clusterOffset_eq {h : Hard} (hh : h.Wf) {i : Nat} (hi : i < h.file.length) :
    clusterOffset h i = ((i * h.clusterSize : Nat) : Int) := by
  have hlt : i * h.clusterSize < h.file.length * h.clusterSize :=
    Nat.mul_lt_mul_of_pos_right hi hh.size_pos
  have hfits := hh.fits
  rw [clusterOffset, ← Int.natCast_mul, Lib.int32_of_inInt32]
  constructor
  · omega
  · omega

theorem Hard.Wf.hardReadCluster_eq {h : Hard} (hh : h.Wf) {i : Nat} (hi : i < h.file.length)
    (buffer : List UInt8) : hardReadCluster h i buffer = (0, h.file[i], h) := by
  simp only [hardReadCluster, hh.clusterOffset_eq hi, Hard.popRead_of_nil hh.readFaults]
  rw [if_neg (by omega), Int.toNat_natCast, Nat.mul_div_cancel i hh.size_pos]
  simp [hi]

theorem Hard.Wf.hardWriteCluster_eq {h : Hard} (hh : h.Wf) {i : Nat} (hi : i < h.file.length)
    (buffer : List UInt8) : hardWriteCluster h i buffer = (0, h.setFile (h.file.set i buffer)) := by
  simp only [hardWriteCluster, hh.clusterOffset_eq hi, Hard.popWrite_of_nil hh.writeFaults]
  rw [if_neg (by omega), Int.toNat_natCast, Nat.mul_div_cancel i hh.size_pos, putCluster, if_pos hi]
  rfl

theorem Hard.Wf.setFile_set {h : Hard} (hh : h.Wf) (i : Nat) {buffer : List UInt8}
    (hb : buffer.length = h.clusterSize) : (h.setFile (h.file.set i buffer)).Wf where
  size_pos := hh.size_pos
  length_cluster := fun b hb' => by
    rcases List.mem_or_eq_of_mem_set hb' with hb' | rfl
    · exact hh.length_cluster b hb'
    · exact hb
  fits := by
    show (h.file.set i buffer).length * h.clusterSize ≤ 2 ^ 31
    rw [List.length_set]
    exact hh.fits
  readFaults := hh.readFaults
  writeFaults := hh.writeFaults

/-! ## What a cache stands for -/

/-- The cache stands for the clusters `u`, with the blocks `hand` taken out of its lists. -/
structure Sim (c : Cache) (hand : List Nat) (u : List (List UInt8)) : Prop where
  wf : c.Wf hand
  hard : c.hard.Wf
  length : u.length = c.hard.file.length
  sizes : ∀ b ∈ u, b.length = c.hard.clusterSize
  /-- A block in use holds its cluster.  The first cluster is never held. -/
  cached : ∀ p ∈ c.lru, ∃ i : Nat, 1 ≤ i ∧ (c.nodes p).clusterId = i ∧ u[i]? = some (c.nodes p).data
  /-- A cluster without a dirty block is on the disk. -/
  disk : ∀ i : Nat, (∀ p ∈ c.lru, (c.nodes p).state = .dirty → (c.nodes p).clusterId ≠ i) →
    c.hard.file[i]? = u[i]?

variable {c : Cache} {hand : List Nat} {u : List (List UInt8)} {p : Nat}

theorem Sim.lt_length (h : Sim c hand u) {i : Nat} (hi : i < u.length) : i < c.hard.file.length :=
  h.length ▸ hi

/-- A cluster that no block holds is read off the disk. -/
theorem Sim.read_disk (h : Sim c hand u) {i : Nat} (hi : i < u.length)
    (hno : ∀ q ∈ c.lru, (c.nodes q).clusterId ≠ i) (buffer : List UInt8) :
    hardReadCluster c.hard i buffer = (0, u[i], c.hard) := by
  have hdisk := h.disk i fun q hq _ => hno q hq
  rw [List.getElem?_eq_getElem (h.lt_length hi), List.getElem?_eq_getElem hi,
    Option.some.injEq] at hdisk
  rw [h.hard.hardReadCluster_eq (h.lt_length hi), hdisk]

/-- One block came to hold a cluster, or was written to, and everything else is as before. -/
theorem Sim.of_block {c' : Cache} {hand' : List Nat} (h : Sim c hand u) (hwf : c'.Wf hand')
    (hhard : c'.hard = c.hard) {i : Nat} (hi : 1 ≤ i) (hlt : i < u.length) (hp : p ∈ c'.lru)
    (hid : (c'.nodes p).clusterId = i) (hold : p ∈ c.lru → (c.nodes p).clusterId = i)
    (hlen : (c'.nodes p).data.length = c.hard.clusterSize)
    (hrest : ∀ q, q ≠ p → (q ∈ c'.lru ↔ q ∈ c.lru) ∧ (q ∈ c.lru → c'.nodes q = c.nodes q))
    (hnew : ∀ q ∈ c.lru, q ≠ p → (c.nodes q).clusterId ≠ i)
    (hclean : (c'.nodes p).state ≠ .dirty →
      (c'.nodes p).data = u[i] ∧ c.hard.file[i]? = u[i]?) :
    Sim c' hand' (u.set i (c'.nodes p).data) where
  wf := hwf
  hard := hhard ▸ h.hard
  length := by rw [List.length_set, hhard, h.length]
  sizes := fun b hb => by
    rw [hhard]
    rcases List.mem_or_eq_of_mem_set hb with hb | rfl
    · exact h.sizes b hb
    · exact hlen
  cached := fun q hq => by
    by_cases hqp : q = p
    · subst hqp
      exact ⟨i, hi, hid, by rw [List.getElem?_set_self hlt]⟩
    · have hq' := (hrest q hqp).1.mp hq
      obtain ⟨j, hj, hqid, hu⟩ := h.cached q hq'
      have hne : i ≠ j := fun heq => hnew q hq' hqp (heq ▸ hqid)
      rw [(hrest q hqp).2 hq']
      exact ⟨j, hj, hqid, by rw [List.getElem?_set_ne hne, hu]⟩
  disk := fun j hj => by
    rw [hhard]
    by_cases hji : i = j
    · subst hji
      obtain ⟨hdata, hfile⟩ := hclean fun hd => hj p hp hd hid
      rw [List.getElem?_set_self hlt, hdata, hfile, List.getElem?_eq_getElem hlt]
    · rw [List.getElem?_set_ne hji]
      refine h.disk j fun q hq hd heq => ?_
      by_cases hqp : q = p
      · subst hqp
        exact hji (Int.natCast_inj.mp ((hold hq).symm.trans heq))
      · refine hj q ((hrest q hqp).1.mpr hq) ?_ ?_
        · rw [(hrest q hqp).2 hq]
          exact hd
        · rw [(hrest q hqp).2 hq]
          exact heq

/-! ## Blocks come and go -/

theorem Sim.popIdle (h : Sim c [] u) {idle : List Nat} (hidle : c.idle = p :: idle) :
    Sim { c with idle, idleCount := c.idleCount - 1 } [p] u :=
  ⟨h.wf.popIdle hidle, h.hard, h.length, h.sizes, h.cached, h.disk⟩

theorem Sim.moveLruToTail (h : Sim c [] u) (hp : p ∈ c.lru) : Sim (c.moveLruToTail p) [] u := by
  have hmem : ∀ q, q ∈ c.lru.erase p ++ [p] ↔ q ∈ c.lru := fun q =>
    ((List.perm_append_singleton p _).trans (List.perm_cons_erase hp).symm).mem_iff
  exact ⟨h.wf.moveLruToTail hp, h.hard, h.length, h.sizes,
    fun q hq => h.cached q ((hmem q).mp hq), fun i hi => h.disk i fun q hq =>
    hi q ((hmem q).mpr hq)⟩

theorem Sim.flushBlockIfDirty (h : Sim c hand u) (hp : p ∈ c.lru) :
    Sim (c.flushBlockIfDirty p) hand u := by
  by_cases hs : (c.nodes p).state = .dirty
  · obtain ⟨i, hi, hid, hu⟩ := h.cached p hp
    have hlt : i < u.length := (List.getElem?_eq_some_iff.mp hu).1
    have hlen : (c.nodes p).data.length = c.hard.clusterSize := h.sizes _ (List.mem_of_getElem? hu)
    have hhard : (c.flushBlockIfDirty p).hard =
        c.hard.setFile (c.hard.file.set i (c.nodes p).data) := by
      rw [Cache.flush_hard hs, hid, h.hard.hardWriteCluster_eq (h.lt_length hlt)]
    refine ⟨h.wf.flushBlockIfDirty hp, hhard ▸ h.hard.setFile_set i hlen, ?_, ?_, fun q hq => ?_,
      fun j hj => ?_⟩
    · rw [hhard, h.length]
      exact (List.length_set).symm
    · rw [hhard]
      exact h.sizes
    · rw [Cache.flush_lru] at hq
      by_cases hqp : q = p
      · rw [hqp, Cache.flush_nodes_self hs]
        exact ⟨i, hi, hid, hu⟩
      · rw [Cache.flush_nodes_ne c hqp]
        exact h.cached q hq
    · rw [hhard]
      show (c.hard.file.set i (c.nodes p).data)[j]? = u[j]?
      rw [Cache.flush_lru] at hj
      by_cases hji : i = j
      · subst hji
        rw [List.getElem?_set_self (h.lt_length hlt), hu]
      · rw [List.getElem?_set_ne hji]
        refine h.disk j fun q hq hd heq => ?_
        by_cases hqp : q = p
        · subst hqp
          exact hji (Int.natCast_inj.mp (hid.symm.trans heq))
        · have hnode := Cache.flush_nodes_ne c hqp
          exact hj q hq (by rw [hnode]; exact hd) (by rw [hnode]; exact heq)
  · rw [Cache.flush_of_ne hs]
    exact h

theorem flush_state_ne_dirty (c : Cache) (p : Nat) :
    ((c.flushBlockIfDirty p).nodes p).state ≠ .dirty := by
  by_cases hs : (c.nodes p).state = .dirty
  · rw [Cache.flush_nodes_self hs]
    exact BlockState.noConfusion
  · rw [Cache.flush_of_ne hs]
    exact hs

theorem flush_clusterId (c : Cache) (p q : Nat) :
    ((c.flushBlockIfDirty p).nodes q).clusterId = (c.nodes q).clusterId := by
  by_cases hqp : q = p
  · by_cases hs : (c.nodes p).state = .dirty
    · rw [hqp, Cache.flush_nodes_self hs]
    · rw [Cache.flush_of_ne hs]
  · rw [Cache.flush_nodes_ne c hqp]

theorem flush_withoutLru (c : Cache) (p : Nat) (lru : List Nat) :
    (c.withoutLru p lru).flushBlockIfDirty p = (c.flushBlockIfDirty p).withoutLru p lru := by
  rw [Cache.flushBlockIfDirty, Cache.flushBlockIfDirty]
  by_cases hs : (c.nodes p).state = .dirty
  · rw [if_pos hs, if_pos (show ((c.withoutLru p lru).nodes p).state = .dirty from hs)]
    simp only [Cache.withoutLru, Cache.store, Cache.setHard, Function.update_self]
  · rw [if_neg hs, if_neg (show ¬((c.withoutLru p lru).nodes p).state = .dirty from hs)]

/-- The block that has not been used for the longest time is taken out and written back. -/
theorem Sim.replace (h : Sim c [] u) {lru : List Nat} (hlru : c.lru = p :: lru) :
    Sim ((c.withoutLru p lru).flushBlockIfDirty p) [p] u := by
  have hsim := h.flushBlockIfDirty (hlru ▸ List.mem_cons_self : p ∈ c.lru)
  have hclean := flush_state_ne_dirty c p
  have hlru' : (c.flushBlockIfDirty p).lru = p :: lru := (Cache.flush_lru c p).trans hlru
  rw [flush_withoutLru]
  refine ⟨hsim.wf.popLru hlru' hclean, hsim.hard, hsim.length, hsim.sizes, fun q hq => ?_,
    fun i hi => ?_⟩
  · exact hsim.cached q (hlru' ▸ List.mem_cons_of_mem p hq)
  · refine hsim.disk i fun q hq hd => ?_
    rw [hlru', List.mem_cons] at hq
    rcases hq with rfl | hq
    · exact absurd hd hclean
    · exact hi q hq hd

/-! ## A block takes a cluster -/

theorem Sim.notMem_lru (h : Sim c [p] u) : p ∉ c.lru :=
  (h.wf.notMem_of_hand (List.mem_singleton_self p)).1

/-- The block `p` in use with the cluster `i`, clean, as it is put into the lists. -/
theorem wf_enter (h : Sim c [p] u) {i : Nat} (hno : ∀ q ∈ c.lru, (c.nodes q).clusterId ≠ i)
    (data : List UInt8) : ((c.store p ⟨i, .clean, data⟩).pushLru p).Wf [] := by
  refine (h.wf.store_hand (List.mem_singleton_self p) _ BlockState.noConfusion).pushLru_clean ?_ ?_
  · rw [Cache.store_nodes_self]
  · intro q hq
    rw [Cache.store_nodes_self, Cache.store_nodes_ne c (by rintro rfl; exact h.notMem_lru hq)]
    exact hno q hq

theorem rest_enter (c : Cache) (node : Node) (q : Nat) (hqp : q ≠ p) :
    (q ∈ ((c.store p node).pushLru p).lru ↔ q ∈ c.lru) ∧
      (q ∈ c.lru → ((c.store p node).pushLru p).nodes q = c.nodes q) := by
  refine ⟨?_, fun _ => Cache.store_nodes_ne c hqp node⟩
  show q ∈ c.lru ++ [p] ↔ q ∈ c.lru
  rw [List.mem_append, List.mem_singleton]
  exact ⟨fun hq => hq.resolve_right hqp, .inl⟩

theorem mem_pushLru (c : Cache) (p : Nat) : p ∈ (c.pushLru p).lru :=
  List.mem_append_right _ (List.mem_singleton_self p)

/-- A block takes a cluster for a read. -/
theorem Sim.keepRead (h : Sim c [p] u) {i : Nat} (hi : 1 ≤ i) (hlt : i < u.length)
    (hno : ∀ q ∈ c.lru, (c.nodes q).clusterId ≠ i) :
    ∃ c', c.loadNode i p = (0, c') ∧ (c'.nodes p).data = u[i] ∧ Sim (c'.keepRead i p) [] u := by
  refine ⟨c.store p { c.nodes p with data := u[i] }, ?_, ?_, ?_⟩
  · rw [Cache.loadNode, h.read_disk hlt hno]
    rfl
  · rw [Cache.store_nodes_self]
  · have heq : (c.store p { c.nodes p with data := u[i] }).keepRead i p =
        (c.store p ⟨i, .clean, u[i]⟩).pushLru p := by
      simp only [Cache.keepRead, Cache.store, Function.update_self, Function.update_idem]
    have hnode : ((c.store p ⟨i, .clean, u[i]⟩).pushLru p).nodes p = ⟨i, .clean, u[i]⟩ :=
      Cache.store_nodes_self c p _
    have key := h.of_block (wf_enter h hno u[i]) rfl hi hlt (mem_pushLru _ p) (by rw [hnode])
      (fun hp => absurd hp h.notMem_lru) ?_ (rest_enter c _) (fun q hq _ => hno q hq) ?_
    · rw [heq]
      rwa [hnode, List.set_getElem_self] at key
    · rw [hnode]
      exact h.sizes _ (List.getElem_mem hlt)
    · intro _
      exact ⟨by rw [hnode], h.disk i fun q hq _ => hno q hq⟩

/-- A block takes a cluster for a write. -/
theorem Sim.keepWrite (h : Sim c [p] u) {i : Nat} (hi : 1 ≤ i) (hlt : i < u.length)
    (hno : ∀ q ∈ c.lru, (c.nodes q).clusterId ≠ i) {offset : Nat} {data : List UInt8}
    (hfit : offset + data.length ≤ c.hard.clusterSize) :
    ∃ c', c.loadNode i p = (0, c') ∧
      Sim (c'.keepWrite i p offset data) [] (u.set i (overwrite u[i] offset data)) := by
  refine ⟨c.store p { c.nodes p with data := u[i] }, ?_, ?_⟩
  · rw [Cache.loadNode, h.read_disk hlt hno]
    rfl
  · have hs : ((c.store p { c.nodes p with data := u[i] }).nodes p).state ≠ .dirty := by
      rw [Cache.store_nodes_self]
      exact h.wf.hand_state p (List.mem_singleton_self p)
    have heq : (c.store p { c.nodes p with data := u[i] }).keepWrite i p offset data =
        ((c.store p ⟨i, .clean, overwrite u[i] offset data⟩).pushLru p).pushDirty p := by
      rw [Cache.keepWrite_eq hs]
      simp only [Cache.store, Function.update_self, Function.update_idem]
    have hnode : (((c.store p ⟨i, .clean, overwrite u[i] offset data⟩).pushLru p).pushDirty p).nodes
        p = ⟨i, .dirty, overwrite u[i] offset data⟩ := by
      rw [Cache.pushDirty_nodes_self]
      show { (c.store p _).nodes p with state := .dirty } = _
      rw [Cache.store_nodes_self]
    have hsize : u[i].length = c.hard.clusterSize := h.sizes _ (List.getElem_mem hlt)
    have key := h.of_block
      ((wf_enter h hno (overwrite u[i] offset data)).pushDirty (mem_pushLru _ p)) ?_ hi hlt ?_
      (congrArg Node.clusterId hnode) (fun hp => absurd hp h.notMem_lru) ?_ (fun q hqp => ?_)
      (fun q hq _ => hno q hq) ?_
    · rw [heq]
      rwa [hnode] at key
    · rw [Cache.pushDirty_hard]
      rfl
    · rw [Cache.pushDirty_lru]
      exact mem_pushLru _ p
    · rw [hnode]
      show (overwrite u[i] offset data).length = c.hard.clusterSize
      rw [Lib.length_overwrite (hsize ▸ hfit), hsize]
    · rw [Cache.pushDirty_lru, Cache.pushDirty_nodes_ne _ hqp]
      exact rest_enter c _ q hqp
    · intro hne
      exact absurd (congrArg Node.state hnode) hne

/-- A block in use is written to. -/
theorem Sim.hitWrite (h : Sim c [] u) {i : Nat} (hi : 1 ≤ i) (hlt : i < u.length) (hp : p ∈ c.lru)
    (hid : (c.nodes p).clusterId = i) {offset : Nat} {data : List UInt8}
    (hfit : offset + data.length ≤ c.hard.clusterSize) :
    Sim (((c.moveLruToTail p).store p
      { c.nodes p with data := overwrite (c.nodes p).data offset data }).pushDirty p) []
      (u.set i (overwrite u[i] offset data)) := by
  have hmem : ∀ q, q ∈ (c.moveLruToTail p).lru ↔ q ∈ c.lru := fun q =>
    ((List.perm_append_singleton p _).trans (List.perm_cons_erase hp).symm).mem_iff
  have hdata : (c.nodes p).data = u[i] := by
    obtain ⟨j, hj, hjid, hu⟩ := h.cached p hp
    have hij : i = j := Int.natCast_inj.mp (hid.symm.trans hjid)
    subst hij
    exact (List.getElem?_eq_some_iff.mp hu).2.symm
  have hsize : u[i].length = c.hard.clusterSize := h.sizes _ (List.getElem_mem hlt)
  have hnode : (((c.moveLruToTail p).store p
      { c.nodes p with data := overwrite (c.nodes p).data offset data }).pushDirty p).nodes p =
      ⟨i, .dirty, overwrite u[i] offset data⟩ := by
    rw [Cache.pushDirty_nodes_self, Cache.store_nodes_self]
    show Node.mk (c.nodes p).clusterId .dirty (overwrite (c.nodes p).data offset data) = _
    rw [hid, hdata]
  have hwf : (((c.moveLruToTail p).store p
      { c.nodes p with data := overwrite (c.nodes p).data offset data }).pushDirty p).Wf [] :=
    ((h.wf.moveLruToTail hp).store_data p _).pushDirty ((hmem p).mpr hp)
  have key := h.of_block (p := p) hwf ?_ hi hlt ?_ (congrArg Node.clusterId hnode) (fun _ => hid) ?_
    (fun q hqp => ?_) (fun q hq hqp heq => hqp (h.wf.inj q hq p hp (heq.trans hid.symm))) ?_
  · rwa [hnode] at key
  · rw [Cache.pushDirty_hard]
    rfl
  · rw [Cache.pushDirty_lru]
    exact (hmem p).mpr hp
  · refine (congrArg (fun n : Node => n.data.length) hnode).trans ?_
    show (overwrite u[i] offset data).length = c.hard.clusterSize
    rw [Lib.length_overwrite (hsize ▸ hfit), hsize]
  · rw [Cache.pushDirty_lru, Cache.pushDirty_nodes_ne _ hqp, Cache.store_nodes_ne _ hqp]
    exact ⟨hmem q, fun _ => rfl⟩
  · intro hne
    exact absurd (congrArg Node.state hnode) hne

/-! ## The tasks -/

theorem Sim.no_blocks (h : Sim c [] u) (hn : c.cacheBlockNum = 0) : c.lru = [] := by
  have := h.wf.cacheBlockNum
  rw [hn] at this
  exact List.eq_nil_of_length_eq_zero (by omega)

theorem Sim.lru_ne_nil (h : Sim c [] u) (hn : c.cacheBlockNum ≠ 0) (hidle : c.idle = []) :
    ∃ p lru, c.lru = p :: lru := by
  have := h.wf.cacheBlockNum
  rw [hidle, List.length_nil] at this
  cases hlru : c.lru with
  | nil =>
    rw [hlru, List.length_nil] at this
    exact absurd this hn
  | cons p lru => exact ⟨p, lru, rfl⟩

/-- The block to be replaced leaves the clusters of the others alone. -/
theorem Sim.replace_notMem {i : Nat} (hno : ∀ q ∈ c.lru, (c.nodes q).clusterId ≠ i) {lru : List Nat}
    (hlru : c.lru = p :: lru) : ∀ q ∈ ((c.withoutLru p lru).flushBlockIfDirty p).lru,
      (((c.withoutLru p lru).flushBlockIfDirty p).nodes q).clusterId ≠ i := by
  intro q hq
  rw [Cache.flush_lru] at hq
  rw [flush_clusterId]
  exact hno q (hlru ▸ List.mem_cons_of_mem p hq)

/-- **A read returns the bytes of the cluster**, by whichever way it goes. -/
theorem Sim.read (h : Sim c [] u) {i : Nat} (hi : 1 ≤ i) (hlt : i < u.length)
    (offset length : Nat) :
    ∃ c', c.read i offset length = (.ok (slice u[i] offset length), c') ∧ Sim c' [] u := by
  by_cases hn : c.cacheBlockNum = 0
  · have hread := h.read_disk hlt (by simp [h.no_blocks hn]) (zeroCluster c.hard.clusterSize)
    refine ⟨c, ?_, h⟩
    rw [Cache.read, if_pos hn, Cache.readHarddisk, hread]
    simp only [nspSuccess_zero, if_true, Cache.setHard]
  rw [Cache.read, if_neg hn]
  cases hsearch : c.searchLru i with
  | some p =>
    obtain ⟨hp, hid⟩ := h.wf.searchLru_eq_some.mp hsearch
    obtain ⟨j, -, hjid, hu⟩ := h.cached p hp
    have hij : i = j := Int.natCast_inj.mp (hid.symm.trans hjid)
    subst hij
    have hdata := (List.getElem?_eq_some_iff.mp hu).2
    rw [Cache.readFromLru_some offset length hsearch, hdata]
    exact ⟨_, rfl, h.moveLruToTail hp⟩
  | none =>
    have hno := h.wf.searchLru_eq_none.mp hsearch
    rw [Cache.readFromLru_none offset length hsearch]
    dsimp only
    cases hidle : c.idle with
    | cons p idle =>
      obtain ⟨c', hload, hdata, hsim⟩ := (h.popIdle hidle).keepRead hi hlt hno
      refine ⟨_, ?_, hsim⟩
      rw [Cache.readFromIdle_cons offset length hidle hload, hdata]
    | nil =>
      obtain ⟨p, lru, hlru⟩ := h.lru_ne_nil hn hidle
      obtain ⟨c', hload, hdata, hsim⟩ :=
        (h.replace hlru).keepRead hi hlt (Sim.replace_notMem hno hlru)
      refine ⟨_, ?_, hsim⟩
      rw [Cache.readFromIdle_nil offset length hidle]
      exact (Cache.replaceReadFromLru_cons offset length hlru hload).trans (by rw [hdata])

/-- **A write changes the bytes of the cluster**, by whichever way it goes. -/
theorem Sim.write (h : Sim c [] u) {i : Nat} (hi : 1 ≤ i) (hlt : i < u.length) {offset : Nat}
    {data : List UInt8} (hfit : offset + data.length ≤ c.hard.clusterSize) :
    ∃ c', c.write i data offset = (0, c') ∧ Sim c' [] (u.set i (overwrite u[i] offset data)) := by
  have hsize : u[i].length = c.hard.clusterSize := h.sizes _ (List.getElem_mem hlt)
  by_cases hn : c.cacheBlockNum = 0
  · have hlru := h.no_blocks hn
    have hread := h.read_disk hlt (by simp [hlru]) (zeroCluster c.hard.clusterSize)
    have hlen : (overwrite u[i] offset data).length = c.hard.clusterSize := by
      rw [Lib.length_overwrite (hsize ▸ hfit), hsize]
    have hfile : c.hard.file = u := List.ext_getElem? fun j => h.disk j (by simp [hlru])
    refine ⟨c.setHard (c.hard.setFile (c.hard.file.set i (overwrite u[i] offset data))), ?_,
      h.wf.setHard _, h.hard.setFile_set i hlen, ?_, fun b hb => ?_, ?_, fun j _ => ?_⟩
    · rw [Cache.write, if_pos hn, Cache.writeHarddisk, hread]
      simp only [h.hard.hardWriteCluster_eq (h.lt_length hlt), nspSuccess_zero, if_true]
    · show (u.set i _).length = (c.hard.file.set i _).length
      rw [List.length_set, List.length_set, h.length]
    · rcases List.mem_or_eq_of_mem_set hb with hb | rfl
      · exact h.sizes b hb
      · exact hlen
    · intro p (hp : p ∈ c.lru)
      rw [hlru] at hp
      cases hp
    · show (c.hard.file.set i _)[j]? = (u.set i _)[j]?
      rw [hfile]
  rw [Cache.write, if_neg hn]
  cases hsearch : c.searchLru i with
  | some p =>
    obtain ⟨hp, hid⟩ := h.wf.searchLru_eq_some.mp hsearch
    rw [Cache.writeToLru_some offset data hsearch]
    exact ⟨_, if_pos nspSuccess_zero, h.hitWrite hi hlt hp hid hfit⟩
  | none =>
    have hno := h.wf.searchLru_eq_none.mp hsearch
    rw [Cache.writeToLru_none offset data hsearch]
    dsimp only
    rw [if_neg (show ¬nspSuccess eNoent = true by decide)]
    cases hidle : c.idle with
    | cons p idle =>
      obtain ⟨c', hload, hsim⟩ := (h.popIdle hidle).keepWrite hi hlt hno hfit
      rw [Cache.writeToIdle_cons offset data hidle hload]
      exact ⟨_, if_pos nspSuccess_zero, hsim⟩
    | nil =>
      obtain ⟨p, lru, hlru⟩ := h.lru_ne_nil hn hidle
      have hsim' := h.replace hlru
      have hfit' : offset + data.length ≤
          ((c.withoutLru p lru).flushBlockIfDirty p).hard.clusterSize := by
        rw [← hsim'.sizes _ (List.getElem_mem hlt), hsize]
        exact hfit
      obtain ⟨c', hload, hsim⟩ := hsim'.keepWrite hi hlt (Sim.replace_notMem hno hlru) hfit'
      rw [Cache.writeToIdle_nil offset data hidle]
      refine ⟨_, ?_, hsim⟩
      dsimp only
      rw [if_neg (show ¬nspSuccess eNomem = true by decide)]
      exact Cache.replaceWriteToLru_cons offset data hlru hload

theorem Sim.flushBlock (h : Sim c [] u) (clusterId : Int) : Sim (c.flushBlock clusterId) [] u := by
  rw [Cache.flushBlock]
  split
  · exact h
  · rename_i p hsearch
    exact h.flushBlockIfDirty (h.wf.searchLru_eq_some.mp hsearch).1

/-- The loop of the flush: what it has passed is clean. -/
theorem Sim.flush_foldl (ps : List Nat) : ∀ {c : Cache}, Sim c hand u → (∀ p ∈ ps, p ∈ c.lru) →
    Sim (ps.foldl Cache.flushBlockIfDirty c) hand u ∧
      (ps.foldl Cache.flushBlockIfDirty c).lru = c.lru ∧
      ∀ q, ((ps.foldl Cache.flushBlockIfDirty c).nodes q).state = .dirty →
        q ∉ ps ∧ (c.nodes q).state = .dirty := by
  induction ps with
  | nil =>
    intro c h _
    exact ⟨h, rfl, fun q hq => ⟨List.not_mem_nil, hq⟩⟩
  | cons p ps ih =>
    intro c h hps
    have h' := h.flushBlockIfDirty (hps p List.mem_cons_self)
    obtain ⟨hsim, hlru, hdirty⟩ := ih h' fun q hq => by
      rw [Cache.flush_lru]
      exact hps q (List.mem_cons_of_mem p hq)
    refine ⟨hsim, hlru.trans (Cache.flush_lru c p), fun q hq => ?_⟩
    obtain ⟨hnotMem, hd⟩ := hdirty q hq
    by_cases hqp : q = p
    · rw [hqp] at hd
      exact absurd hd (flush_state_ne_dirty c p)
    · rw [Cache.flush_nodes_ne c hqp] at hd
      exact ⟨List.not_mem_cons_of_ne_of_not_mem hqp hnotMem, hd⟩

/-- **After the flush of all buffers the disk holds the clusters.** -/
theorem Sim.flushBufferAll (h : Sim c [] u) :
    Sim c.flushBufferAll [] u ∧ c.flushBufferAll.hard.file = u := by
  have hdone : ∀ {c : Cache}, Sim c [] u → (∀ q ∈ c.lru, (c.nodes q).state ≠ .dirty) →
      c.hard.file = u :=
    fun h hclean => List.ext_getElem? fun i => h.disk i fun q hq hd => absurd hd (hclean q hq)
  rw [Cache.flushBufferAll]
  split
  · rename_i hzero
    have hnil : c.dirty = [] := by
      have := h.wf.dirtyCount
      rw [hzero] at this
      exact List.eq_nil_of_length_eq_zero (by omega)
    refine ⟨h, hdone h fun q hq hd => ?_⟩
    have := (h.wf.mem_dirty q).mpr ⟨hq, hd⟩
    rw [hnil] at this
    cases this
  · obtain ⟨hsim, hlru, hdirty⟩ :=
      Sim.flush_foldl c.dirty h fun p hp => ((h.wf.mem_dirty p).mp hp).1
    refine ⟨hsim, hdone hsim fun q hq hd => ?_⟩
    obtain ⟨hnotMem, hd⟩ := hdirty q hd
    rw [hlru] at hq
    exact hnotMem ((h.wf.mem_dirty q).mpr ⟨hq, hd⟩)

/-! ## A disk without a cache -/

/-- What a task does to a disk that is read and written directly: the bytes it returns, and the
clusters after it. -/
def uncachedTask (u : List (List UInt8)) : Task → List UInt8 × List (List UInt8)
  | .read clusterId offset length => (slice (u.getD clusterId.toNat []) offset length, u)
  | .write clusterId data offset =>
    ([], u.set clusterId.toNat (overwrite (u.getD clusterId.toNat []) offset data))
  | .flushBufferAll => ([], u)
  | .flushBuffer _ => ([], u)

/-- Tasks one after the other. -/
def uncachedTasks (u : List (List UInt8)) : List Task → List (List UInt8) × List (List UInt8)
  | [] => ([], u)
  | t :: ts =>
    let r := uncachedTask u t
    let rs := uncachedTasks r.2 ts
    (r.1 :: rs.1, rs.2)

/-- The task is about a cluster other than the first, and stays inside of it. -/
def Task.Legal (clusterSize clusterCount : Nat) : Task → Prop
  | .read clusterId offset length =>
    1 ≤ clusterId ∧ clusterId < clusterCount ∧ offset + length ≤ clusterSize
  | .write clusterId data offset =>
    1 ≤ clusterId ∧ clusterId < clusterCount ∧ offset + data.length ≤ clusterSize
  | .flushBufferAll => True
  | .flushBuffer clusterId => 1 ≤ clusterId ∧ clusterId < clusterCount

theorem sim_cacheInit {h : Hard} (hh : h.Wf) (garbage : Nat → List UInt8) (n : Nat) :
    Sim (cacheInit garbage h n) [] h.file := by
  obtain ⟨hwf, hhard, hlru⟩ := Cache.wf_cacheInit garbage h n
  refine ⟨hwf, ?_, by rw [hhard], by rw [hhard]; exact hh.length_cluster, fun p hp => ?_,
    fun i _ => by rw [hhard]⟩
  · rw [hhard]
    exact hh
  · rw [hlru] at hp
    cases hp

theorem uncachedTask_length (u : List (List UInt8)) (t : Task) :
    (uncachedTask u t).2.length = u.length := by
  cases t with
  | write clusterId data offset => exact List.length_set
  | _ => rfl

theorem uncachedTask_sizes {clusterSize : Nat} (hu : ∀ b ∈ u, b.length = clusterSize) {t : Task}
    (ht : t.Legal clusterSize u.length) : ∀ b ∈ (uncachedTask u t).2, b.length = clusterSize := by
  cases t with
  | write clusterId data offset =>
    obtain ⟨h₁, h₂, hfit⟩ := ht
    have hlt : clusterId.toNat < u.length := by omega
    intro b hb
    rcases List.mem_or_eq_of_mem_set hb with hb | rfl
    · exact hu b hb
    · have hsize := hu _ (List.getElem_mem hlt)
      rw [List.getD_eq_getElem?_getD, List.getElem?_eq_getElem hlt, Option.getD_some,
        Lib.length_overwrite (by rw [hsize]; exact hfit), hsize]
  | _ => exact hu

/-- One task on the cache and on the disk without one. -/
theorem Sim.execTask (h : Sim c [] u) {clusterSize : Nat} (hu : ∀ b ∈ u, b.length = clusterSize)
    {t : Task} (ht : t.Legal clusterSize u.length) :
    (c.execTask t).1 = .ok (uncachedTask u t).1 ∧ Sim (c.execTask t).2 [] (uncachedTask u t).2 := by
  cases t with
  | read clusterId offset length =>
    obtain ⟨h₁, h₂, -⟩ := ht
    obtain ⟨i, rfl⟩ := Int.eq_ofNat_of_zero_le (show 0 ≤ clusterId by omega)
    have hlt : i < u.length := by omega
    obtain ⟨c', hread, hsim⟩ := h.read (show 1 ≤ i by omega) hlt offset length
    simp only [Cache.execTask, hread, uncachedTask, Int.toNat_natCast, List.getD_eq_getElem?_getD,
      List.getElem?_eq_getElem hlt, Option.getD_some]
    exact ⟨trivial, hsim⟩
  | write clusterId data offset =>
    obtain ⟨h₁, h₂, hfit⟩ := ht
    obtain ⟨i, rfl⟩ := Int.eq_ofNat_of_zero_le (show 0 ≤ clusterId by omega)
    have hlt : i < u.length := by omega
    have hsize : c.hard.clusterSize = clusterSize :=
      (h.sizes _ (List.getElem_mem hlt)).symm.trans (hu _ (List.getElem_mem hlt))
    obtain ⟨c', hwrite, hsim⟩ := h.write (show 1 ≤ i by omega) hlt (hsize ▸ hfit)
    simp only [Cache.execTask, hwrite, uncachedTask, Int.toNat_natCast, List.getD_eq_getElem?_getD,
      List.getElem?_eq_getElem hlt, Option.getD_some, nspSuccess_zero, if_true]
    exact ⟨trivial, hsim⟩
  | flushBufferAll => exact ⟨rfl, h.flushBufferAll.1⟩
  | flushBuffer clusterId => exact ⟨rfl, h.flushBlock clusterId⟩

theorem Sim.execTasks {clusterSize : Nat} (tasks : List Task) : ∀ {c : Cache}
    {u : List (List UInt8)}, Sim c [] u → (∀ b ∈ u, b.length = clusterSize) →
    (∀ t ∈ tasks, t.Legal clusterSize u.length) →
      (c.execTasks tasks).1 = (uncachedTasks u tasks).1.map .ok ∧
        Sim (c.execTasks tasks).2 [] (uncachedTasks u tasks).2 := by
  induction tasks with
  | nil =>
    intro c u h _ _
    exact ⟨rfl, h⟩
  | cons t ts ih =>
    intro c u h hu hl
    have ht := hl t List.mem_cons_self
    obtain ⟨hres, hsim⟩ := h.execTask hu ht
    have hl' : ∀ t' ∈ ts, t'.Legal clusterSize (uncachedTask u t).2.length := fun t' ht' => by
      rw [uncachedTask_length]
      exact hl t' (List.mem_cons_of_mem t ht')
    obtain ⟨hress, hsims⟩ := ih hsim (uncachedTask_sizes hu ht) hl'
    refine ⟨?_, hsims⟩
    rw [Cache.execTasks, uncachedTasks]
    dsimp only
    rw [hres, hress, List.map_cons]

/-- **The cache is transparent.**  For any number of blocks, zero included, and any file, a sequence
of tasks on clusters of the file returns what the same tasks return on a disk without a cache, none
of them fails, and a flush of all buffers leaves the clusters of that disk. -/
theorem cache_transparent {h : Hard} (hh : h.Wf) (garbage : Nat → List UInt8) (n : Nat)
    (tasks : List Task) (hl : ∀ t ∈ tasks, t.Legal h.clusterSize h.file.length) :
    ((cacheInit garbage h n).execTasks tasks).1 = (uncachedTasks h.file tasks).1.map .ok ∧
      ((cacheInit garbage h n).execTasks tasks).2.flushBufferAll.hard.file =
        (uncachedTasks h.file tasks).2 := by
  obtain ⟨hres, hsim⟩ := Sim.execTasks tasks (sim_cacheInit hh garbage n) hh.length_cluster hl
  exact ⟨hres, hsim.flushBufferAll.2⟩

/-- A file of three clusters, as `evfs_hard_create` makes it, whose next accesses have the
outcomes. -/
def Hard.three (readFaults writeFaults : List Bool) : Hard :=
  { Hard.ofTable [.zero, .zero] with readFaults, writeFaults }

-- `evfs_hard_open` accepts it.
example : hardOpen (Hard.three [] []).file.flatten [] [] = some (.ok (Hard.three [] [])) :=
  hardOpen_ofTable (by decide)

theorem wf_three : (Hard.three [] []).Wf := wf_ofTable (by decide)

/-- One block for two clusters: the first write is evicted by the second access. -/
theorem cache_transparent_example :
    ((cacheInit (fun _ => []) (Hard.three [] []) 1).execTasks
      [.write 1 [7] 12, .read 2 12 1, .read 1 12 1]).1 = [.ok [], .ok [0], .ok [7]] ∧
    ((cacheInit (fun _ => []) (Hard.three [] []) 1).execTasks
      [.write 1 [7] 12, .read 2 12 1, .read 1 12 1]).2.flushBufferAll.hard.file =
        [firstCluster 128 3 3, overwrite (zeroCluster 128) 12 [7], zeroCluster 128] := by
  have hlegal : ∀ t ∈ [Task.write 1 [7] 12, .read 2 12 1, .read 1 12 1],
      t.Legal (Hard.three [] []).clusterSize (Hard.three [] []).file.length := by
    intro t ht
    simp only [List.mem_cons, List.not_mem_nil, or_false] at ht
    rcases ht with rfl | rfl | rfl
    · exact ⟨by decide, by decide, by decide⟩
    · exact ⟨by decide, by decide, by decide⟩
    · exact ⟨by decide, by decide, by decide⟩
  obtain ⟨hres, hfile⟩ := cache_transparent wf_three (fun _ => []) 1 _ hlegal
  refine ⟨hres.trans ?_, hfile.trans ?_⟩
  · decide +kernel
  · decide +kernel

end Evfs

end LibNax
