import LibNax.Evfs.Transparent

/-!
# Changing the number of blocks

The number of blocks of the cache can be changed while it is in use.  Growing adds idle blocks.  To
shrink, the idle blocks are freed first and then the blocks in use, each until the number is
reached: but a second loop that starts with the number reached goes on to the last block, and a
block in use is freed where it is still in the index, and in the dirty list without having been
written back.  And the task does not report a status at all.

* `Cache.setBlockNum` — the function of the source.
* `Unharmed`, `Resized` — what the task should leave, without and with its status.
* `changeBlockCount_kept_iff` — never the whole of it, and the lists and the bytes exactly where no
  block in use is freed.
* `changeBlockCount_loses` — a write that is gone.
-/

set_option autoImplicit false

namespace LibNax

namespace Evfs

namespace Cache

/-- A loop that frees the first block of a list, until there are as many blocks as wanted: the list,
its count and the number of blocks after it. -/
def freeBlocks (target : Int) : List Nat → Int → Int → List Nat × Int × Int
  | [], count, num => ([], count, num)
  | _ :: ps, count, num =>
    if target = num - 1 then (ps, count - 1, num - 1)
    else freeBlocks target ps (count - 1) (num - 1)

/-- The loop over the idle blocks. -/
def freeIdle (c : Cache) (target : Int) : Cache :=
  let r := freeBlocks target c.idle c.idleCount c.cacheBlockNum
  { c with idle := r.1, idleCount := r.2.1, cacheBlockNum := r.2.2 }

/-- The loop over the blocks in use. -/
def freeLru (c : Cache) (target : Int) : Cache :=
  let r := freeBlocks target c.lru c.lruCount c.cacheBlockNum
  { c with lru := r.1, lruCount := r.2.1, cacheBlockNum := r.2.2 }

/-- `__evfs_cache_set_block_num`, where the allocations succeed. -/
def setBlockNum (garbage : Nat → List UInt8) (c : Cache) (cacheBlockNum : Int) : Int × Cache :=
  if cacheBlockNum < 0 then (eInval, c)
  else if cacheBlockNum > c.cacheBlockNum then
    (0, addBlocks garbage (cacheBlockNum - c.cacheBlockNum).toNat c)
  else if cacheBlockNum < c.cacheBlockNum then
    (0, (c.freeIdle cacheBlockNum).freeLru cacheBlockNum)
  else (0, c)

end Cache

/-- `struct evfs_cache_io_task` of a task that changes the number of blocks. -/
structure IoTask where
  /-- The number of blocks. -/
  length : Int
  /-- The status, or nothing while the memory of the task was not written to. -/
  status : Option Int

/-- The task as `evfs_cache_set_block_num` makes it: its memory comes from `ztrymalloc`, and the
status is not among the fields that are set. -/
def changeBlockCountTask (cacheBlockNum : Int) : IoTask := ⟨cacheBlockNum, none⟩

/-- `__evfs_cache_exec_task` for `kEvfsCacheIOTypeChangeBlockCount`.  What
`__evfs_cache_set_block_num` returns is not looked at. -/
def Cache.execChangeBlockCount (garbage : Nat → List UInt8) (c : Cache) (task : IoTask) :
    IoTask × Cache :=
  (task, (c.setBlockNum garbage task.length).2)

/-- The bytes of every cluster are as before, there are `n` blocks, and the lists are in step. -/
structure Unharmed (c : Cache) (n : Nat) (c' : Cache) : Prop where
  content : ∀ i, c'.content i = c.content i
  cacheBlockNum : c'.cacheBlockNum = n
  counts : c'.idleCount + c'.lruCount = n
  index : ∀ leaf, leaf ∈ Avl.toList c'.rootOfLruIndex ↔
    leaf.node ∈ c'.lru ∧ (c'.nodes leaf.node).clusterId = leaf.clusterId
  dirty : ∀ p, p ∈ c'.dirty ↔ p ∈ c'.lru ∧ (c'.nodes p).state = .dirty

/-- The same, and the task reports a status. -/
structure Resized (c : Cache) (n : Nat) (r : IoTask × Cache) : Prop extends Unharmed c n r.2 where
  status : r.1.status ≠ none

/-! ## Growing -/

variable {c : Cache} {hand : List Nat}

theorem Cache.addBlocks_nodes (garbage : Nat → List UInt8) (n : Nat) : ∀ (c : Cache) {p : Nat},
    p < c.next → (Cache.addBlocks garbage n c).nodes p = c.nodes p := by
  induction n with
  | zero =>
    intro c p _
    rfl
  | succ n ih =>
    intro c p hp
    rw [Cache.addBlocks, ih _ (Nat.lt_succ_of_lt hp)]
    exact Cache.store_nodes_ne c (Nat.ne_of_lt hp) _

/-- A cache with its lists in step. -/
theorem unharmed_of_wf {c' : Cache} (h' : c'.Wf []) {n : Nat} (hnum : c'.cacheBlockNum = n)
    (hcontent : ∀ i, c'.content i = c.content i) : Unharmed c n c' where
  content := hcontent
  cacheBlockNum := hnum
  counts := by
    have h := h'.cacheBlockNum
    rw [hnum, List.length_nil] at h
    rw [h'.idleCount, h'.lruCount]
    omega
  index := h'.mem_index
  dirty := h'.mem_dirty

theorem unharmed_addBlocks (h : c.Wf []) (garbage : Nat → List UInt8) {n : Nat}
    (hn : c.cacheBlockNum < n) :
    Unharmed c n (Cache.addBlocks garbage (n - c.cacheBlockNum).toNat c) := by
  obtain ⟨hwf, hhard, hlru, hnum⟩ := Cache.addBlocks_spec garbage (n - c.cacheBlockNum).toNat c h
  refine unharmed_of_wf hwf (by omega) ?_
  refine Cache.content_congr (congrArg Hard.file hhard) hlru fun p hp => ?_
  exact Cache.addBlocks_nodes garbage _ c (h.lt_next p (by simp [hp]))

/-! ## Shrinking -/

/-- A loop that does not start with the target reached stops there, or with the list at its end. -/
theorem freeBlocks_spec (target : Int) : ∀ (ps : List Nat) (count num : Int), count = ps.length →
    target < num → num ≤ target + ps.length →
      (Cache.freeBlocks target ps count num).2 =
        (((Cache.freeBlocks target ps count num).1.length : Int), target)
  | [], count, num, hcount, hlt, hle => by
    rw [List.length_nil] at hle
    omega
  | p :: ps, count, num, hcount, hlt, hle => by
    rw [List.length_cons] at hcount hle
    rw [Cache.freeBlocks]
    split
    · rename_i heq
      rw [← heq, hcount]
      simp
    · rename_i hne
      exact freeBlocks_spec target ps (count - 1) (num - 1) (by omega) (by omega) (by omega)

/-- Every block that is freed is counted, in both numbers. -/
theorem freeBlocks_length (target : Int) : ∀ (ps : List Nat) (count num : Int),
    (Cache.freeBlocks target ps count num).2.2 - (Cache.freeBlocks target ps count num).1.length =
      num - ps.length
  | [], count, num => rfl
  | p :: ps, count, num => by
    rw [Cache.freeBlocks, List.length_cons]
    split
    · dsimp only
      omega
    · have ih := freeBlocks_length target ps (count - 1) (num - 1)
      omega

theorem freeBlocks_suffix (target : Int) (p : Nat) : ∀ (ps : List Nat) (count num : Int),
    (Cache.freeBlocks target (p :: ps) count num).1 <:+ ps := by
  intro ps
  induction ps generalizing p with
  | nil =>
    intro count num
    rw [Cache.freeBlocks]
    split
    · exact List.suffix_refl _
    · exact List.suffix_refl _
  | cons q ps ih =>
    intro count num
    rw [Cache.freeBlocks]
    split
    · exact List.suffix_refl _
    · exact (ih q (count - 1) (num - 1)).trans (List.suffix_cons q ps)

theorem Cache.freeLru_of_nil (hlru : c.lru = []) (target : Int) : c.freeLru target = c := by
  rw [Cache.freeLru, hlru, Cache.freeBlocks]
  dsimp only
  rw [← hlru]

/-- Without a block in use only idle blocks are freed. -/
theorem unharmed_freeIdle (h : c.Wf []) (hlru : c.lru = []) {n : Nat} (hn : n < c.cacheBlockNum) :
    Unharmed c n ((c.freeIdle n).freeLru n) := by
  have hnum := h.cacheBlockNum
  rw [hlru, List.length_nil] at hnum
  have hspec := freeBlocks_spec n c.idle c.idleCount c.cacheBlockNum h.idleCount hn (by omega)
  rw [Cache.freeLru_of_nil (show (c.freeIdle n).lru = [] from hlru)]
  have hcount : c.lruCount = 0 := by rw [h.lruCount, hlru]; rfl
  have hidle := freeBlocks_length n c.idle c.idleCount c.cacheBlockNum
  refine ⟨Cache.content_congr rfl rfl fun _ _ => rfl, congrArg Prod.snd hspec, ?_, h.mem_index,
    h.mem_dirty⟩
  show (Cache.freeBlocks n c.idle c.idleCount c.cacheBlockNum).2.1 + c.lruCount = n
  rw [hcount]
  have h1 := congrArg Prod.fst hspec
  have h2 := congrArg Prod.snd hspec
  dsimp only at h1 h2
  omega

/-- A block in use that is freed stays in the index. -/
theorem not_unharmed_freeLru (h : c.Wf []) (hlru : c.lru ≠ []) (n : Nat) :
    ¬Unharmed c n ((c.freeIdle n).freeLru n) := by
  intro hk
  obtain ⟨p, lru, hcons⟩ := List.exists_cons_of_ne_nil hlru
  have hmem : p ∈ c.lru := hcons ▸ List.mem_cons_self
  have hindex := (h.mem_index ⟨(c.nodes p).clusterId, p⟩).mpr ⟨hmem, rfl⟩
  have hp : p ∈ ((c.freeIdle n).freeLru n).lru := ((hk.index _).mp hindex).1
  have hsuffix : ((c.freeIdle n).freeLru n).lru <:+ lru := by
    show (Cache.freeBlocks n c.lru c.lruCount (c.freeIdle n).cacheBlockNum).1 <:+ lru
    rw [hcons]
    exact freeBlocks_suffix n p lru _ _
  exact (List.nodup_cons.mp (hcons ▸ h.nodup_lru)).1 (hsuffix.subset hp)

/-! ## The task -/

/-- The states of the cache that tasks lead to from `evfs_cache_init`, with the disk and the memory
working. -/
def Cache.Reached (garbage : Nat → List UInt8) (c : Cache) : Prop :=
  ∃ (h : Hard) (m : Nat) (tasks : List Task), h.Wf ∧
    (∀ t ∈ tasks, t.Legal h.clusterSize h.file.length) ∧
    c = ((cacheInit garbage h m).execTasks tasks).2

theorem Cache.Reached.wf {garbage : Nat → List UInt8} (hc : c.Reached garbage) : c.Wf [] := by
  obtain ⟨h, m, tasks, hh, hl, rfl⟩ := hc
  exact (Sim.execTasks tasks (sim_cacheInit hh garbage m) hh.length_cluster hl).2.wf

theorem unharmed_setBlockNum_iff (h : c.Wf []) (garbage : Nat → List UInt8) (n : Nat) :
    Unharmed c n (c.setBlockNum garbage n).2 ↔ c.cacheBlockNum ≤ n ∨ c.lru = [] := by
  rw [Cache.setBlockNum, if_neg (by omega)]
  split
  · rename_i hgt
    exact ⟨fun _ => .inl (Int.le_of_lt hgt), fun _ => unharmed_addBlocks h garbage hgt⟩
  rename_i hle
  split
  · rename_i hlt
    constructor
    · intro hk
      by_contra hno
      rw [not_or] at hno
      exact not_unharmed_freeLru h hno.2 n hk
    · rintro (hge | hlru)
      · omega
      · exact unharmed_freeIdle h hlru hlt
  · rename_i hge
    exact ⟨fun _ => .inl (by omega), fun _ => unharmed_of_wf h (by omega) fun _ => rfl⟩

/-- **Changing the number of blocks.**  In every state that is reached, for every number, the task
does not do what it should, for it reports no status.  Without that, it keeps the bytes of the
clusters and the lists exactly where it does not have to shrink, or has no block in use. -/
theorem changeBlockCount_kept_iff {garbage : Nat → List UInt8} (hc : c.Reached garbage) (n : Nat) :
    ¬Resized c n (c.execChangeBlockCount garbage (changeBlockCountTask n)) ∧
      (Unharmed c n (c.execChangeBlockCount garbage (changeBlockCountTask n)).2 ↔
        c.cacheBlockNum ≤ n ∨ c.lru = []) :=
  ⟨fun h => h.status rfl, unharmed_setBlockNum_iff hc.wf garbage n⟩

/-- A cache of two blocks after one write: the block 0 is in use and dirty, the block 1 is idle. -/
def cacheAfterWrite : Cache :=
  ((cacheInit (fun _ => []) (Hard.three [] []) 2).execTasks [.write 1 [7] 12]).2

theorem reached_cacheAfterWrite : cacheAfterWrite.Reached fun _ => [] := by
  refine ⟨Hard.three [] [], 2, [.write 1 [7] 12], wf_three, fun t ht => ?_, rfl⟩
  rw [List.mem_singleton.mp ht]
  exact ⟨by decide, by decide, by decide⟩

/-- Three blocks are kept, one is not. -/
theorem changeBlockCount_kept_example :
    Unharmed cacheAfterWrite 3
        (cacheAfterWrite.execChangeBlockCount (fun _ => []) (changeBlockCountTask 3)).2 ∧
      ¬Unharmed cacheAfterWrite 1
        (cacheAfterWrite.execChangeBlockCount (fun _ => []) (changeBlockCountTask 1)).2 := by
  have hlist : ¬(cacheAfterWrite.cacheBlockNum ≤ (1 : Nat) ∨ cacheAfterWrite.lru = []) := by
    decide +kernel
  constructor
  · refine (changeBlockCount_kept_iff reached_cacheAfterWrite 3).2.mpr (.inl ?_)
    decide +kernel
  · exact fun hk => hlist ((changeBlockCount_kept_iff reached_cacheAfterWrite 1).2.mp hk)

/-- Of two blocks one is idle, and one is to stay.  Both are freed, the write in the second is lost,
and the task has no status. -/
theorem changeBlockCount_loses :
    ¬Resized cacheAfterWrite 1
        (cacheAfterWrite.execChangeBlockCount (fun _ => []) (changeBlockCountTask 1)) ∧
      cacheAfterWrite.content 1 = some (Lib.overwrite (zeroCluster 128) 12 [7]) ∧
      (cacheAfterWrite.execChangeBlockCount (fun _ => []) (changeBlockCountTask 1)).2.content 1 =
        some (zeroCluster 128) ∧
      (cacheAfterWrite.execChangeBlockCount (fun _ => [])
        (changeBlockCountTask 1)).2.cacheBlockNum = 0 := by
  refine ⟨fun h => h.status rfl, ?_, ?_, ?_⟩
  · decide +kernel
  · decide +kernel
  · decide +kernel

end Evfs

end LibNax
