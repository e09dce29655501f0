import Mathlib.Data.List.Find
import Mathlib.Data.List.Perm.Lattice
import LibNax.Evfs.Cache

/-!
# The lists of the cache stay in step

* `Cache.Wf` — every block is in one list, the index is the list of the blocks in use, and the dirty
  list is the list of the dirty ones.  The argument says which blocks have been taken out of the
  lists and are being worked on.
* One lemma for each of the small functions of the source, that it keeps this.
* `Cache.content` — the bytes of a cluster, as a reader sees them.
-/

set_option autoImplicit false

namespace LibNax

namespace Evfs

namespace Cache

theorem orders_compareByClusterId : Avl.Orders compareByClusterId Leaf.clusterId where
  neg_iff := fun x y => by
    rw [compareByClusterId]
    split
    · simp_all
    · split
      · simp_all
      · simp_all
  zero_iff := fun x y => by
    rw [compareByClusterId]
    split
    · rename_i h
      simp [Int.ne_of_lt h]
    · split
      · rename_i h
        simp [Int.ne_of_gt h]
      · simp only [true_iff]
        omega

/-- The lists, the index and the states of the blocks are in step, with the blocks `hand` taken out
of the lists. -/
structure Wf (c : Cache) (hand : List Nat) : Prop where
  /-- A block is in one place. -/
  nodup : (c.lru ++ c.idle ++ hand).Nodup
  /-- Every block was allocated. -/
  lt_next : ∀ p ∈ c.lru ++ c.idle ++ hand, p < c.next
  /-- No cluster is held twice. -/
  inj : ∀ p ∈ c.lru, ∀ q ∈ c.lru, (c.nodes p).clusterId = (c.nodes q).clusterId → p = q
  /-- The index is a search tree. -/
  index : Avl.Wf Leaf.clusterId c.rootOfLruIndex
  /-- The index holds the blocks in use. -/
  mem_index : ∀ leaf, leaf ∈ Avl.toList c.rootOfLruIndex ↔
    leaf.node ∈ c.lru ∧ (c.nodes leaf.node).clusterId = leaf.clusterId
  /-- The states of the idle blocks. -/
  idle_state : ∀ p ∈ c.idle, (c.nodes p).state = .idle
  /-- The states of the blocks in use. -/
  lru_state : ∀ p ∈ c.lru, (c.nodes p).state ≠ .idle
  /-- The states of the blocks that are worked on. -/
  hand_state : ∀ p ∈ hand, (c.nodes p).state ≠ .dirty
  /-- A block is in the dirty list once. -/
  dirty_nodup : c.dirty.Nodup
  /-- The dirty list holds the dirty blocks. -/
  mem_dirty : ∀ p, p ∈ c.dirty ↔ p ∈ c.lru ∧ (c.nodes p).state = .dirty
  /-- `lru.count`. -/
  lruCount : c.lruCount = c.lru.length
  /-- `idle.count`. -/
  idleCount : c.idleCount = c.idle.length
  /-- `dirty.count`. -/
  dirtyCount : c.dirtyCount = c.dirty.length
  /-- Every block is accounted for. -/
  cacheBlockNum : c.cacheBlockNum = c.lru.length + c.idle.length + hand.length

variable {c : Cache} {hand : List Nat} {p : Nat}

@[simp] theorem store_nodes_self (c : Cache) (p : Nat) (node : Node) :
    (c.store p node).nodes p = node := by
  simp [store]

theorem store_nodes_ne (c : Cache) {p q : Nat} (h : q ≠ p) (node : Node) :
    (c.store p node).nodes q = c.nodes q := by
  simp [store, h]

@[simp] theorem flush_lru (c : Cache) (p : Nat) : (c.flushBlockIfDirty p).lru = c.lru := by
  rw [flushBlockIfDirty]
  split <;> rfl

theorem flush_of_ne {c : Cache} {p : Nat} (hs : (c.nodes p).state ≠ .dirty) :
    c.flushBlockIfDirty p = c := by
  rw [flushBlockIfDirty, if_neg hs]

theorem flush_hard {c : Cache} {p : Nat} (hs : (c.nodes p).state = .dirty) :
    (c.flushBlockIfDirty p).hard =
      (hardWriteCluster c.hard (c.nodes p).clusterId (c.nodes p).data).2 := by
  rw [flushBlockIfDirty, if_pos hs]
  rfl

theorem flush_nodes_self {c : Cache} {p : Nat} (hs : (c.nodes p).state = .dirty) :
    (c.flushBlockIfDirty p).nodes p = { c.nodes p with state := .clean } := by
  rw [flushBlockIfDirty, if_pos hs]
  exact store_nodes_self _ _ _

theorem flush_nodes_ne (c : Cache) {p q : Nat} (h : q ≠ p) :
    (c.flushBlockIfDirty p).nodes q = c.nodes q := by
  rw [flushBlockIfDirty]
  split
  · exact store_nodes_ne _ h _
  · rfl

@[simp] theorem pushDirty_lru (c : Cache) (p : Nat) : (c.pushDirty p).lru = c.lru := by
  rw [pushDirty]
  split <;> rfl

@[simp] theorem pushDirty_hard (c : Cache) (p : Nat) : (c.pushDirty p).hard = c.hard := by
  rw [pushDirty]
  split <;> rfl

theorem pushDirty_nodes_self (c : Cache) (p : Nat) :
    (c.pushDirty p).nodes p = { c.nodes p with state := .dirty } := by
  rw [pushDirty]
  split
  · exact store_nodes_self _ _ _
  · rename_i hs
    rw [not_not] at hs
    rw [← hs]

theorem pushDirty_nodes_ne (c : Cache) {p q : Nat} (h : q ≠ p) :
    (c.pushDirty p).nodes q = c.nodes q := by
  rw [pushDirty]
  split
  · exact store_nodes_ne _ h _
  · rfl

theorem Wf.searchLru_eq_some (h : c.Wf hand) {clusterId : Int} :
    c.searchLru clusterId = some p ↔ p ∈ c.lru ∧ (c.nodes p).clusterId = clusterId := by
  rw [searchLru, Option.map_eq_some_iff]
  constructor
  · rintro ⟨leaf, hleaf, rfl⟩
    rw [Avl.avlsearch_eq_some orders_compareByClusterId h.index.sorted, h.mem_index] at hleaf
    exact ⟨hleaf.1.1, hleaf.1.2.trans hleaf.2⟩
  · rintro ⟨hp, hid⟩
    refine ⟨⟨clusterId, p⟩, ?_, rfl⟩
    rw [Avl.avlsearch_eq_some orders_compareByClusterId h.index.sorted, h.mem_index]
    exact ⟨⟨hp, hid⟩, rfl⟩

theorem Wf.searchLru_eq_none (h : c.Wf hand) {clusterId : Int} :
    c.searchLru clusterId = none ↔ ∀ p ∈ c.lru, (c.nodes p).clusterId ≠ clusterId := by
  constructor
  · intro hnone p hp hid
    rw [h.searchLru_eq_some.mpr ⟨hp, hid⟩] at hnone
    cases hnone
  · intro hno
    cases hs : c.searchLru clusterId with
    | none => rfl
    | some p =>
      obtain ⟨hp, hid⟩ := h.searchLru_eq_some.mp hs
      exact absurd hid (hno p hp)

theorem Wf.nodup_lru (h : c.Wf hand) : c.lru.Nodup :=
  (List.nodup_append.mp (List.nodup_append.mp h.nodup).1).1

theorem Wf.notMem_of_hand (h : c.Wf hand) (hp : p ∈ hand) : p ∉ c.lru ∧ p ∉ c.idle := by
  have hdis := (List.nodup_append.mp h.nodup).2.2
  constructor
  · intro hl
    exact hdis p (List.mem_append_left _ hl) p hp rfl
  · intro hi
    exact hdis p (List.mem_append_right _ hi) p hp rfl

theorem Wf.idle_notMem_lru (h : c.Wf hand) (hp : p ∈ c.idle) : p ∉ c.lru := by
  intro hl
  exact h.lru_state p hl (h.idle_state p hp)

/-- A block that is worked on can be written to. -/
theorem Wf.store_hand (h : c.Wf hand) (hp : p ∈ hand) (node : Node) (hs : node.state ≠ .dirty) :
    (c.store p node).Wf hand := by
  obtain ⟨hl, hi⟩ := h.notMem_of_hand hp
  have hlru : ∀ q ∈ c.lru, (c.store p node).nodes q = c.nodes q :=
    fun q hq => store_nodes_ne c (by rintro rfl; exact hl hq) node
  refine ⟨h.nodup, h.lt_next, fun q hq r hr heq => ?_, h.index, fun leaf => ?_, fun q hq => ?_,
    fun q hq => ?_, fun q hq => ?_, h.dirty_nodup, fun q => ?_, h.lruCount, h.idleCount,
    h.dirtyCount, h.cacheBlockNum⟩
  · rw [hlru q hq, hlru r hr] at heq
    exact h.inj q hq r hr heq
  · rw [show (c.store p node).rootOfLruIndex = c.rootOfLruIndex from rfl, h.mem_index]
    refine and_congr_right fun hmem => ?_
    rw [hlru _ hmem]
  · rw [store_nodes_ne c (by rintro rfl; exact hi hq) node]
    exact h.idle_state q hq
  · rw [hlru q hq]
    exact h.lru_state q hq
  · by_cases hqp : q = p
    · rw [hqp, store_nodes_self]
      exact hs
    · rw [store_nodes_ne c hqp node]
      exact h.hand_state q hq
  · rw [show (c.store p node).dirty = c.dirty from rfl, h.mem_dirty]
    refine and_congr_right fun hmem => ?_
    rw [hlru _ hmem]

theorem Wf.setHard (h : c.Wf hand) (hard : Hard) : (c.setHard hard).Wf hand :=
  ⟨h.nodup, h.lt_next, h.inj, h.index, h.mem_index, h.idle_state, h.lru_state, h.hand_state,
    h.dirty_nodup, h.mem_dirty, h.lruCount, h.idleCount, h.dirtyCount, h.cacheBlockNum⟩

theorem popLru_cons {lru : List Nat} (hlru : c.lru = p :: lru) :
    c.popLru = some (p, c.withoutLru p lru) := by
  simp only [Cache.popLru, hlru]

theorem popIdle_cons {idle : List Nat} (hidle : c.idle = p :: idle) :
    c.popIdle = some (p, { c with idle, idleCount := c.idleCount - 1 }) := by
  simp only [Cache.popIdle, hidle]

/-! ## The four ways of an access -/

section Ways

variable {c' : Cache} {clusterId : Int} {lru idle : List Nat} (offset length : Nat)
  (data : List UInt8)

theorem readFromLru_some (hs : c.searchLru clusterId = some p) :
    c.readFromLru clusterId offset length =
      (.ok (Lib.slice (c.nodes p).data offset length), c.moveLruToTail p) := by
  simp only [readFromLru, hs]

theorem readFromLru_none (hs : c.searchLru clusterId = none) :
    c.readFromLru clusterId offset length = (.error eNoent, c) := by
  simp only [readFromLru, hs]

theorem readFromIdle_nil (hidle : c.idle = []) :
    c.readFromIdle clusterId offset length = (.error eNomem, c) := by
  simp only [readFromIdle, Cache.popIdle, hidle]

theorem readFromIdle_cons (hidle : c.idle = p :: idle)
    (hload : ({ c with idle, idleCount := c.idleCount - 1 } : Cache).loadNode clusterId p =
      (0, c')) :
    c.readFromIdle clusterId offset length =
      (.ok (Lib.slice (c'.nodes p).data offset length), c'.keepRead clusterId p) := by
  rw [readFromIdle, popIdle_cons hidle]
  simp only [hload, nspSuccess_zero, if_true]

theorem replaceReadFromLru_cons (hlru : c.lru = p :: lru)
    (hload : ((c.withoutLru p lru).flushBlockIfDirty p).loadNode clusterId p = (0, c')) :
    c.replaceReadFromLru clusterId offset length =
      (.ok (Lib.slice (c'.nodes p).data offset length), c'.keepRead clusterId p) := by
  rw [replaceReadFromLru, popLru_cons hlru]
  simp only [hload, nspSuccess_zero, if_true]

theorem writeToLru_some (hs : c.searchLru clusterId = some p) :
    c.writeToLru clusterId data offset = (0, ((c.moveLruToTail p).store p
      { c.nodes p with data := Lib.overwrite (c.nodes p).data offset data }).pushDirty p) := by
  simp only [writeToLru, hs]
  rfl

theorem writeToLru_none (hs : c.searchLru clusterId = none) :
    c.writeToLru clusterId data offset = (eNoent, c) := by
  simp only [writeToLru, hs]

theorem writeToIdle_nil (hidle : c.idle = []) :
    c.writeToIdle clusterId data offset = (eNomem, c) := by
  simp only [writeToIdle, Cache.popIdle, hidle]

theorem writeToIdle_cons (hidle : c.idle = p :: idle)
    (hload : ({ c with idle, idleCount := c.idleCount - 1 } : Cache).loadNode clusterId p =
      (0, c')) :
    c.writeToIdle clusterId data offset = (0, c'.keepWrite clusterId p offset data) := by
  rw [writeToIdle, popIdle_cons hidle]
  simp only [hload, nspSuccess_zero, if_true]

theorem replaceWriteToLru_cons (hlru : c.lru = p :: lru)
    (hload : ((c.withoutLru p lru).flushBlockIfDirty p).loadNode clusterId p = (0, c')) :
    c.replaceWriteToLru clusterId data offset = (0, c'.keepWrite clusterId p offset data) := by
  rw [replaceWriteToLru, popLru_cons hlru]
  simp only [hload, nspSuccess_zero, if_true]

end Ways

/-! ## Each function keeps the lists in step -/

theorem Wf.popIdle (h : c.Wf []) {idle : List Nat} (hidle : c.idle = p :: idle) :
    ({ c with idle, idleCount := c.idleCount - 1 } : Cache).Wf [p] := by
  have hperm : (c.lru ++ c.idle ++ []).Perm (c.lru ++ idle ++ [p]) := by
    rw [hidle, List.append_nil, List.append_assoc]
    exact (List.perm_append_singleton p idle).symm.append_left c.lru
  refine ⟨(hperm.nodup_iff.mp h.nodup), fun q hq => h.lt_next q (hperm.mem_iff.mpr hq), h.inj,
    h.index, h.mem_index, fun q hq => h.idle_state q (hidle ▸ List.mem_cons_of_mem p hq),
    h.lru_state, fun q hq => ?_, h.dirty_nodup, h.mem_dirty, h.lruCount, ?_, h.dirtyCount, ?_⟩
  · rw [List.mem_singleton.mp hq]
    show (c.nodes p).state ≠ .dirty
    rw [h.idle_state p (hidle ▸ List.mem_cons_self)]
    exact BlockState.noConfusion
  · show c.idleCount - 1 = idle.length
    rw [h.idleCount, hidle, List.length_cons]
    omega
  · show c.cacheBlockNum = c.lru.length + idle.length + 1
    rw [h.cacheBlockNum, hidle, List.length_cons, List.length_nil]
    omega

theorem Wf.pushIdle (h : c.Wf [p]) : (c.pushIdle p).Wf [] := by
  have h' := h.store_hand (List.mem_singleton_self p)
    { c.nodes p with clusterId := 0, state := .idle } BlockState.noConfusion
  have hperm : (c.lru ++ (c.idle ++ [p]) ++ []).Perm (c.lru ++ c.idle ++ [p]) := by
    rw [List.append_nil, List.append_assoc]
  refine ⟨hperm.nodup_iff.mpr h'.nodup, fun q hq => h'.lt_next q (hperm.mem_iff.mp hq), h'.inj,
    h'.index, h'.mem_index, fun q hq => ?_, h'.lru_state, (fun q hq => by cases hq), h'.dirty_nodup,
    h'.mem_dirty, h'.lruCount, ?_, h'.dirtyCount, ?_⟩
  · rcases List.mem_append.mp hq with hq | hq
    · exact h'.idle_state q hq
    · rw [List.mem_singleton.mp hq]
      exact congrArg Node.state (store_nodes_self c p _)
  · show c.idleCount + 1 = ((c.idle ++ [p]).length : Nat)
    rw [h.idleCount, List.length_append, List.length_singleton]
    omega
  · show c.cacheBlockNum = c.lru.length + ((c.idle ++ [p]).length : Nat) + (0 : Nat)
    rw [h.cacheBlockNum, List.length_append, List.length_singleton]
    omega

/-- A clean block can be taken off the list of the blocks in use. -/
theorem Wf.popLru (h : c.Wf []) {lru : List Nat} (hlru : c.lru = p :: lru)
    (hclean : (c.nodes p).state ≠ .dirty) : (c.withoutLru p lru).Wf [p] := by
  have hmem : ∀ q, q ∈ lru → q ∈ c.lru := fun q hq => hlru ▸ List.mem_cons_of_mem p hq
  have hp : p ∈ c.lru := hlru ▸ List.mem_cons_self
  have hnotMem : p ∉ lru := (List.nodup_cons.mp (hlru ▸ h.nodup_lru)).1
  have hperm : (c.lru ++ c.idle ++ []).Perm (lru ++ c.idle ++ [p]) := by
    rw [hlru, List.append_nil, List.cons_append]
    exact (List.perm_append_singleton p (lru ++ c.idle)).symm
  refine ⟨hperm.nodup_iff.mp h.nodup, fun q hq => h.lt_next q (hperm.mem_iff.mpr hq),
    fun q hq r hr => h.inj q (hmem q hq) r (hmem r hr),
    h.index.avlremove orders_compareByClusterId _ _, fun leaf => ?_, h.idle_state,
    fun q hq => h.lru_state q (hmem q hq), fun q hq => ?_, h.dirty_nodup, fun q => ?_, ?_,
    h.idleCount, h.dirtyCount, ?_⟩
  · rw [withoutLru, Avl.mem_toList_avlremove orders_compareByClusterId h.index.sorted, h.mem_index]
    show (leaf.node ∈ c.lru ∧ (c.nodes leaf.node).clusterId = leaf.clusterId) ∧
      leaf.clusterId ≠ (c.nodes p).clusterId ↔
      leaf.node ∈ lru ∧ (c.nodes leaf.node).clusterId = leaf.clusterId
    rw [hlru, List.mem_cons]
    constructor
    · rintro ⟨⟨hnode | hnode, hid⟩, hne⟩
      · exact absurd (hnode ▸ hid.symm) hne
      · exact ⟨hnode, hid⟩
    · rintro ⟨hnode, hid⟩
      refine ⟨⟨.inr hnode, hid⟩, fun heq => hnotMem ?_⟩
      rw [← h.inj leaf.node (hmem _ hnode) p hp (hid.trans heq)]
      exact hnode
  · rw [List.mem_singleton.mp hq]
    exact hclean
  · show q ∈ c.dirty ↔ q ∈ lru ∧ (c.nodes q).state = .dirty
    rw [h.mem_dirty, hlru, List.mem_cons]
    constructor
    · rintro ⟨rfl | hq, hd⟩
      · exact absurd hd hclean
      · exact ⟨hq, hd⟩
    · rintro ⟨hq, hd⟩
      exact ⟨.inr hq, hd⟩
  · show c.lruCount - 1 = lru.length
    rw [h.lruCount, hlru, List.length_cons]
    omega
  · show c.cacheBlockNum = lru.length + c.idle.length + 1
    rw [h.cacheBlockNum, hlru, List.length_cons, List.length_nil]
    omega

/-- A block that is worked on goes to the end of the list of the blocks in use, clean, with a
cluster that no other block holds. -/
theorem Wf.pushLru_clean (h : c.Wf [p]) (hs : (c.nodes p).state = .clean)
    (hnew : ∀ q ∈ c.lru, (c.nodes q).clusterId ≠ (c.nodes p).clusterId) : (c.pushLru p).Wf [] := by
  have hnotMem := (h.notMem_of_hand (List.mem_singleton_self p)).1
  have hperm : (c.lru ++ [p] ++ c.idle ++ []).Perm (c.lru ++ c.idle ++ [p]) := by
    rw [List.append_nil, List.append_assoc, List.append_assoc]
    exact List.perm_append_comm.append_left c.lru
  have hnewLeaf : ∀ leaf ∈ Avl.toList c.rootOfLruIndex,
      leaf.clusterId ≠ (⟨(c.nodes p).clusterId, p⟩ : Leaf).clusterId := by
    intro leaf hleaf
    obtain ⟨hnode, hid⟩ := (h.mem_index leaf).mp hleaf
    rw [← hid]
    exact hnew leaf.node hnode
  refine ⟨hperm.nodup_iff.mpr h.nodup, fun q hq => h.lt_next q (hperm.mem_iff.mp hq),
    fun q hq r hr heq => ?_, h.index.avlinsert orders_compareByClusterId _, fun leaf => ?_,
    h.idle_state, fun q hq => ?_, (fun q hq => by cases hq), h.dirty_nodup, fun q => ?_, ?_,
    h.idleCount, h.dirtyCount, ?_⟩
  · rcases List.mem_append.mp hq with hq | hq
    · rcases List.mem_append.mp hr with hr | hr
      · exact h.inj q hq r hr heq
      · rw [List.mem_singleton.mp hr] at heq
        exact absurd heq (hnew q hq)
    · rw [List.mem_singleton.mp hq] at heq ⊢
      rcases List.mem_append.mp hr with hr | hr
      · exact absurd heq.symm (hnew r hr)
      · exact (List.mem_singleton.mp hr).symm
  · rw [Cache.pushLru, Avl.mem_toList_avlinsert orders_compareByClusterId h.index.sorted hnewLeaf,
      h.mem_index]
    show leaf = ⟨(c.nodes p).clusterId, p⟩ ∨
      leaf.node ∈ c.lru ∧ (c.nodes leaf.node).clusterId = leaf.clusterId ↔
      leaf.node ∈ c.lru ++ [p] ∧ (c.nodes leaf.node).clusterId = leaf.clusterId
    rw [List.mem_append, List.mem_singleton]
    constructor
    · rintro (rfl | ⟨hnode, hid⟩)
      · exact ⟨.inr rfl, rfl⟩
      · exact ⟨.inl hnode, hid⟩
    · rintro ⟨hnode | hnode, hid⟩
      · exact .inr ⟨hnode, hid⟩
      · subst hnode
        exact .inl (by rw [hid])
  · rcases List.mem_append.mp hq with hq | hq
    · exact h.lru_state q hq
    · rw [List.mem_singleton.mp hq]
      show (c.nodes p).state ≠ .idle
      rw [hs]
      exact BlockState.noConfusion
  · show q ∈ c.dirty ↔ q ∈ c.lru ++ [p] ∧ (c.nodes q).state = .dirty
    rw [h.mem_dirty, List.mem_append, List.mem_singleton]
    constructor
    · rintro ⟨hq, hd⟩
      exact ⟨.inl hq, hd⟩
    · rintro ⟨hq | rfl, hd⟩
      · exact ⟨hq, hd⟩
      · rw [hs] at hd
        cases hd
  · show c.lruCount + 1 = ((c.lru ++ [p]).length : Nat)
    rw [h.lruCount, List.length_append, List.length_singleton]
    omega
  · show c.cacheBlockNum = ((c.lru ++ [p]).length : Nat) + c.idle.length + (0 : Nat)
    rw [h.cacheBlockNum, List.length_append, List.length_singleton]
    omega

/-- The end of a write that was not a hit: the block comes into use clean and is then marked. -/
theorem keepWrite_eq (hs : (c.nodes p).state ≠ .dirty) (clusterId : Int) (offset : Nat)
    (data : List UInt8) :
    c.keepWrite clusterId p offset data =
      ((c.store p ⟨clusterId, .clean, Lib.overwrite (c.nodes p).data offset data⟩).pushLru
        p).pushDirty p := by
  have hs' : ((c.store p ⟨clusterId, (c.nodes p).state,
      Lib.overwrite (c.nodes p).data offset data⟩).nodes p).state ≠ .dirty := by
    rw [store_nodes_self]
    exact hs
  have hs'' : (((c.store p ⟨clusterId, .clean,
      Lib.overwrite (c.nodes p).data offset data⟩).pushLru p).nodes p).state ≠ .dirty := by
    show ((c.store p _).nodes p).state ≠ .dirty
    rw [store_nodes_self]
    exact BlockState.noConfusion
  rw [keepWrite, pushDirty, pushDirty, if_pos hs', if_pos hs'']
  simp only [Cache.pushLru, store, Function.update_self, Function.update_idem]

/-- Writing to a block in use, where its cluster stays the same and its state too. -/
theorem Wf.store_data (h : c.Wf hand) (p : Nat) (data : List UInt8) :
    (c.store p { c.nodes p with data }).Wf hand := by
  have hid : ∀ q, ((c.store p { c.nodes p with data }).nodes q).clusterId =
      (c.nodes q).clusterId := by
    intro q
    by_cases hqp : q = p
    · rw [hqp, store_nodes_self]
    · rw [store_nodes_ne c hqp]
  have hst : ∀ q, ((c.store p { c.nodes p with data }).nodes q).state = (c.nodes q).state := by
    intro q
    by_cases hqp : q = p
    · rw [hqp, store_nodes_self]
    · rw [store_nodes_ne c hqp]
  refine ⟨h.nodup, h.lt_next, fun q hq r hr heq => ?_, h.index, fun leaf => ?_, fun q hq => ?_,
    fun q hq => ?_, fun q hq => ?_, h.dirty_nodup, fun q => ?_, h.lruCount, h.idleCount,
    h.dirtyCount, h.cacheBlockNum⟩
  · rw [hid, hid] at heq
    exact h.inj q hq r hr heq
  · rw [hid]
    exact h.mem_index leaf
  · rw [hst]
    exact h.idle_state q hq
  · rw [hst]
    exact h.lru_state q hq
  · rw [hst]
    exact h.hand_state q hq
  · rw [hst]
    exact h.mem_dirty q

/-- A block in use changes its state between clean and dirty, and the dirty list with it. -/
theorem Wf.setState (h : c.Wf hand) (hp : p ∈ c.lru) (state : BlockState) (hstate : state ≠ .idle)
    (dirty : List Nat) (hnodup : dirty.Nodup)
    (hmem : ∀ q, q ∈ dirty ↔ if q = p then state = .dirty else q ∈ c.dirty) :
    ({ c.store p { c.nodes p with state } with dirty, dirtyCount := dirty.length } : Cache).Wf
      hand := by
  have hid : ∀ q, ((c.store p { c.nodes p with state }).nodes q).clusterId =
      (c.nodes q).clusterId := by
    intro q
    by_cases hqp : q = p
    · rw [hqp, store_nodes_self]
    · rw [store_nodes_ne c hqp]
  have hne : ∀ q, q ∈ c.idle ∨ q ∈ hand → q ≠ p := by
    rintro q (hq | hq) rfl
    · exact h.idle_notMem_lru hq hp
    · exact (h.notMem_of_hand hq).1 hp
  refine ⟨h.nodup, h.lt_next, fun q hq r hr heq => ?_, h.index, fun leaf => ?_, fun q hq => ?_,
    fun q hq => ?_, fun q hq => ?_, hnodup, fun q => ?_, h.lruCount, h.idleCount, rfl,
    h.cacheBlockNum⟩
  · exact h.inj q hq r hr (by rw [← hid, ← hid]; exact heq)
  · refine (h.mem_index leaf).trans (and_congr_right fun _ => ?_)
    exact Eq.congr_left (hid leaf.node).symm
  · show ((c.store p _).nodes q).state = .idle
    rw [store_nodes_ne c (hne q (.inl hq))]
    exact h.idle_state q hq
  · show ((c.store p _).nodes q).state ≠ .idle
    by_cases hqp : q = p
    · rw [hqp, store_nodes_self]
      exact hstate
    · rw [store_nodes_ne c hqp]
      exact h.lru_state q hq
  · show ((c.store p _).nodes q).state ≠ .dirty
    rw [store_nodes_ne c (hne q (.inr hq))]
    exact h.hand_state q hq
  · show q ∈ dirty ↔ q ∈ c.lru ∧ ((c.store p _).nodes q).state = .dirty
    rw [hmem q]
    by_cases hqp : q = p
    · rw [if_pos hqp, hqp, store_nodes_self]
      exact ⟨fun hs => ⟨hp, hs⟩, fun hs => hs.2⟩
    · rw [if_neg hqp, store_nodes_ne c hqp]
      exact h.mem_dirty q

theorem Wf.pushDirty (h : c.Wf hand) (hp : p ∈ c.lru) : (c.pushDirty p).Wf hand := by
  rw [Cache.pushDirty]
  split
  · rename_i hs
    have hnotMem : p ∉ c.dirty := fun hmem => hs ((h.mem_dirty p).mp hmem).2
    have key := h.setState hp .dirty BlockState.noConfusion
      (c.dirty ++ [p]) ?_ ?_
    · rw [List.length_append, List.length_singleton, Int.natCast_add, ← h.dirtyCount] at key
      exact key
    · exact List.nodup_append.mpr ⟨h.dirty_nodup, List.nodup_singleton p,
        fun q hq r hr heq => hnotMem (List.mem_singleton.mp hr ▸ heq ▸ hq)⟩
    · intro q
      rw [List.mem_append, List.mem_singleton]
      split
      · simp_all
      · simp_all
  · exact h

/-- The flush keeps the lists in step. -/
theorem Wf.flushBlockIfDirty (h : c.Wf hand) (hp : p ∈ c.lru) :
    (c.flushBlockIfDirty p).Wf hand := by
  rw [Cache.flushBlockIfDirty]
  split
  · rename_i hs
    have hmem : p ∈ c.dirty := (h.mem_dirty p).mpr ⟨hp, hs⟩
    have key := (h.setHard (hardWriteCluster c.hard (c.nodes p).clusterId
      (c.nodes p).data).2).setState hp .clean BlockState.noConfusion
      (c.dirty.erase p) (h.dirty_nodup.erase p) ?_
    · rw [List.length_erase_of_mem hmem, Int.natCast_sub (List.length_pos_of_mem hmem),
        ← h.dirtyCount] at key
      exact key
    · intro q
      rw [h.dirty_nodup.mem_erase_iff]
      split
      · simp_all
      · rename_i hne
        exact ⟨fun hq => hq.2, fun hq => ⟨hne, hq⟩⟩
  · exact h

theorem Wf.moveLruToTail (h : c.Wf hand) (hp : p ∈ c.lru) : (c.moveLruToTail p).Wf hand := by
  have hperm : (c.lru.erase p ++ [p]).Perm c.lru :=
    (List.perm_append_singleton p _).trans (List.perm_cons_erase hp).symm
  have hmem : ∀ q, q ∈ c.lru.erase p ++ [p] ↔ q ∈ c.lru := fun q => hperm.mem_iff
  have hall : (c.lru.erase p ++ [p] ++ c.idle ++ hand).Perm (c.lru ++ c.idle ++ hand) :=
    (hperm.append_right _).append_right _
  refine ⟨hall.nodup_iff.mpr h.nodup, fun q hq => h.lt_next q (hall.mem_iff.mp hq),
    fun q hq r hr => h.inj q ((hmem q).mp hq) r ((hmem r).mp hr), h.index,
    fun leaf => (h.mem_index leaf).trans (and_congr_left fun _ => (hmem leaf.node).symm),
    h.idle_state, fun q hq => h.lru_state q ((hmem q).mp hq), h.hand_state, h.dirty_nodup,
    fun q => (h.mem_dirty q).trans (and_congr_left fun _ => (hmem q).symm), ?_, h.idleCount,
    h.dirtyCount, ?_⟩
  · exact h.lruCount.trans (congrArg Nat.cast hperm.length_eq.symm)
  · show c.cacheBlockNum = ((c.lru.erase p ++ [p]).length : Nat) + c.idle.length + hand.length
    rw [hperm.length_eq]
    exact h.cacheBlockNum

theorem Wf.addBlock (h : c.Wf []) (garbage : Nat → List UInt8) : (c.addBlock garbage).Wf [] := by
  have hne : ∀ q ∈ c.lru ++ c.idle, q ≠ c.next := fun q hq =>
    Nat.ne_of_lt (h.lt_next q (by rwa [List.append_nil]))
  have hnode : ∀ q ∈ c.lru, (c.addBlock garbage).nodes q = c.nodes q := fun q hq =>
    store_nodes_ne c (hne q (List.mem_append_left _ hq)) _
  have hnodup : (c.lru ++ c.idle).Nodup := by
    have := h.nodup
    rwa [List.append_nil] at this
  refine ⟨?_, fun q hq => ?_, fun q hq r hr heq => ?_, h.index, fun leaf => ?_, fun q hq => ?_,
    fun q hq => ?_, (fun q hq => by cases hq), h.dirty_nodup, fun q => ?_, h.lruCount, ?_,
    h.dirtyCount, ?_⟩
  · show (c.lru ++ (c.idle ++ [c.next]) ++ []).Nodup
    rw [List.append_nil, ← List.append_assoc]
    exact List.nodup_append.mpr ⟨hnodup, List.nodup_singleton _,
      fun q hq r hr heq => hne q hq (heq.trans (List.mem_singleton.mp hr))⟩
  · show q < c.next + 1
    have hq : q ∈ c.lru ++ (c.idle ++ [c.next]) ++ [] := hq
    rw [List.append_nil, ← List.append_assoc, List.mem_append, List.mem_singleton] at hq
    rcases hq with hq | rfl
    · exact Nat.lt_succ_of_lt (h.lt_next q (by rwa [List.append_nil]))
    · exact Nat.lt_succ_self _
  · rw [hnode q hq, hnode r hr] at heq
    exact h.inj q hq r hr heq
  · refine (h.mem_index leaf).trans (and_congr_right fun hmem => ?_)
    rw [hnode _ hmem]
  · rcases List.mem_append.mp hq with hq | hq
    · show ((c.store c.next _).nodes q).state = .idle
      rw [store_nodes_ne c (hne q (List.mem_append_right _ hq))]
      exact h.idle_state q hq
    · rw [List.mem_singleton.mp hq]
      exact congrArg Node.state (store_nodes_self c c.next _)
  · rw [hnode q hq]
    exact h.lru_state q hq
  · refine (h.mem_dirty q).trans (and_congr_right fun hmem => ?_)
    rw [hnode q hmem]
  · show c.idleCount + 1 = ((c.idle ++ [c.next]).length : Nat)
    rw [h.idleCount, List.length_append, List.length_singleton]
    omega
  · show c.cacheBlockNum + 1 = c.lru.length + ((c.idle ++ [c.next]).length : Nat) + (0 : Nat)
    rw [h.cacheBlockNum, List.length_append, List.length_singleton, List.length_nil]
    omega

theorem wf_empty (hard : Hard) : (Cache.empty hard).Wf [] where
  nodup := List.nodup_nil
  lt_next := fun _ hp => by cases hp
  inj := fun _ hp => by cases hp
  index := Avl.wf_nil
  mem_index := fun leaf => by simp [Cache.empty]
  idle_state := fun _ hp => by cases hp
  lru_state := fun _ hp => by cases hp
  hand_state := fun _ hp => by cases hp
  dirty_nodup := List.nodup_nil
  mem_dirty := fun p => by simp [Cache.empty]
  lruCount := rfl
  idleCount := rfl
  dirtyCount := rfl
  cacheBlockNum := rfl

theorem addBlocks_spec (garbage : Nat → List UInt8) (n : Nat) : ∀ c : Cache, c.Wf [] →
    (addBlocks garbage n c).Wf [] ∧ (addBlocks garbage n c).hard = c.hard ∧
      (addBlocks garbage n c).lru = c.lru ∧
      (addBlocks garbage n c).cacheBlockNum = c.cacheBlockNum + n := by
  induction n with
  | zero =>
    intro c h
    exact ⟨h, rfl, rfl, by simp [addBlocks]⟩
  | succ n ih =>
    intro c h
    obtain ⟨hwf, hhard, hlru, hnum⟩ := ih _ (h.addBlock garbage)
    refine ⟨hwf, hhard, hlru, hnum.trans ?_⟩
    show c.cacheBlockNum + 1 + n = c.cacheBlockNum + ((n + 1 : Nat) : Int)
    omega

theorem wf_cacheInit (garbage : Nat → List UInt8) (hard : Hard) (n : Nat) :
    (cacheInit garbage hard n).Wf [] ∧ (cacheInit garbage hard n).hard = hard ∧
      (cacheInit garbage hard n).lru = [] := by
  obtain ⟨hwf, hhard, hlru, hnum⟩ := addBlocks_spec garbage n _ (wf_empty hard)
  refine ⟨⟨hwf.nodup, hwf.lt_next, hwf.inj, hwf.index, hwf.mem_index, hwf.idle_state, hwf.lru_state,
    hwf.hand_state, hwf.dirty_nodup, hwf.mem_dirty, hwf.lruCount, hwf.idleCount,
    hwf.dirtyCount, ?_⟩,
    hhard, hlru⟩
  have := hwf.cacheBlockNum
  rw [hnum] at this
  exact (Int.zero_add _).symm.trans this

/-! ## What the cache holds -/

/-- The bytes of a cluster: the block in use that holds it, else the disk. -/
def content (c : Cache) (i : Nat) : Option (List UInt8) :=
  match c.lru.find? fun p => (c.nodes p).clusterId = i with
  | some p => some (c.nodes p).data
  | none => c.hard.file[i]?

theorem Wf.content_of_mem (h : c.Wf hand) (hp : p ∈ c.lru) {i : Nat}
    (hid : (c.nodes p).clusterId = i) : c.content i = some (c.nodes p).data := by
  rw [content]
  split
  · rename_i q hq
    have hqid := of_decide_eq_true (List.find?_some (p := fun p => (c.nodes p).clusterId = i) hq)
    rw [h.inj q (List.mem_of_find?_eq_some hq) p hp (hqid.trans hid.symm)]
  · rename_i hnone
    exact absurd (decide_eq_true hid) (List.find?_eq_none.mp hnone p hp)

theorem content_of_notMem {i : Nat} (hno : ∀ p ∈ c.lru, (c.nodes p).clusterId ≠ i) :
    c.content i = c.hard.file[i]? := by
  rw [content, List.find?_eq_none.mpr fun p hp hid => hno p hp (of_decide_eq_true hid)]

/-- The content depends on the blocks in use and on the disk only. -/
theorem content_congr {c' : Cache} (hhard : c'.hard.file = c.hard.file) (hlru : c'.lru = c.lru)
    (hnodes : ∀ p ∈ c.lru, c'.nodes p = c.nodes p) (i : Nat) : c'.content i = c.content i := by
  have hfind : (c.lru.find? fun p => (c'.nodes p).clusterId = i) =
      c.lru.find? fun p => (c.nodes p).clusterId = i :=
    List.find?_congr fun p hp => by rw [hnodes p hp]
  rw [content, content, hlru, hfind, hhard]
  split
  · rename_i p hp
    rw [hnodes p (List.mem_of_find?_eq_some hp)]
  · rfl

end Cache

end Evfs

end LibNax
