import LibNax.Evfs.Calls
import LibNax.Evfs.Load

/-!
# What a file holds

Everything that a file system knows of its entries is on the disk: the geometry in the first
cluster, the links and the sizes in the headers, and the key at the start of the data of a head.

* `Stored` — the invariant: no entry is in use by a call, and the key of every entry is on the disk.
* `Stored.call` — a call that fits keeps it, if it does not write over a key.
* `close_spec` — closing leaves the clusters in the file, and managers that are not in use.

`evfs_entries_write_data` takes any offset.  One that is negative, but not by more than the length
of a key, leads into the key in front of the data: on the disk, not in memory.
-/

set_option autoImplicit false

namespace LibNax

namespace Evfs

open Lib (slice overwrite)

/-! ## The keys -/

/-- The disk, with the keys of the entries. -/
structure Keyed (s : Fs) (u : List (List UInt8)) : Prop where
  mirror : Mirror s.vol u
  key : ∀ e ∈ s.entries, keyOf s.vol.io.cache.hard.clusterSize u e = (s.heads e).key

/-- Between two calls: no entry is in use by a call, and the disk holds everything, as long as the
keys fit in the clusters. -/
structure Stored (s : Fs) : Prop where
  space : Space s []
  le_size : s.vol.io.cache.hard.clusterSize ≤ 4096
  /-- There is a cluster behind the first one. -/
  two_le : 2 * (s.vol.io.cache.hard.clusterSize : Int) ≤ s.vol.fsize
  ioRefcnt : ∀ e ∈ s.entries, (s.heads e).ioRefcnt = 0
  steady : s.Steady
  disk : 64 ≤ s.vol.io.cache.hard.clusterSize → ∃ u, Keyed s u

/-- The call does not write over a key. -/
def Call.SparesKey : Call → Prop
  | .writeData _ _ offset _ => Evfs.SparesKey offset
  | _ => True

instance : ∀ c : Call, Decidable c.SparesKey
  | .createOne _ => instDecidableTrue
  | .writeData _ _ offset _ => inferInstanceAs (Decidable (Evfs.SparesKey offset))
  | .openOne _ => instDecidableTrue
  | .closeOne _ => instDecidableTrue
  | .hardDelete _ => instDecidableTrue

section Keys

variable {s s' : Fs} {u : List (List UInt8)} {e v : Int}

theorem Mirror.length_udata_of_pos {vol : Vol} (m : Mirror vol u) (hv : 1 ≤ v) :
    (udata vol.io.cache.hard.clusterSize u v).length =
      vol.io.cache.hard.clusterSize - sizeofCluster := by
  by_cases hlt : v < vol.clusterCount
  · exact m.length_udata hv hlt
  · have := m.length
    rw [udata, List.getD_eq_getElem?_getD, List.getElem?_eq_none (by omega), Option.getD_none,
      List.length_drop, zeroCluster, List.length_replicate]

/-- What a call has to do with the keys. -/
theorem Stored.step (h : Stored s) (hspace : Space s' []) {g : Int → List UInt8 → List UInt8}
    (hstep : Step s.vol s'.vol g) (hfault : s'.fault = s.fault)
    (hfsize : s'.vol.fsize = s.vol.fsize) (hio : ∀ e ∈ s'.entries, (s'.heads e).ioRefcnt = 0)
    (hkey : 64 ≤ s.vol.io.cache.hard.clusterSize → ∀ e ∈ s'.entries, ∀ b : List UInt8,
      b.length = s.vol.io.cache.hard.clusterSize - sizeofCluster →
      (e ∈ s.entries → b.take maxEntryNameLength = (s.heads e).key) →
        (g e b).take maxEntryNameLength = (s'.heads e).key) : Stored s' where
  space := hspace
  le_size := by
    rw [hstep.size]
    exact h.le_size
  two_le := by
    rw [hstep.size]
    exact Int.le_trans h.two_le hstep.grows
  ioRefcnt := hio
  steady := h.steady.step hstep hfault hfsize
  disk := fun hsize => by
    rw [hstep.size] at hsize
    obtain ⟨u, hu⟩ := h.disk hsize
    obtain ⟨u', m', hu'⟩ := hstep.mirror u hu.mirror (hfsize ▸ h.steady.fsize_le)
    refine ⟨u', m', fun e he => ?_⟩
    have hpos := (hspace.vol.mem_busy (hspace.mem_busy he List.mem_cons_self)).1
    rw [keyOf, hstep.size, hu' e hpos]
    exact hkey hsize e he _ (hu.mirror.length_udata_of_pos hpos) fun he' => hu.key e he'

/-- An entry has grown. -/
theorem Stored.grows {K : Prop} (h : Stored s) (hg : Grows K s s' e) (hK : K)
    (hfsize : s'.vol.fsize = s.vol.fsize) : Stored s' := by
  obtain ⟨g, hstep, hkeys⟩ := hg.step
  obtain ⟨l, n, -, heads⟩ := hg.heads
  have hsame : ∀ e', (s'.heads e').ioRefcnt = (s.heads e').ioRefcnt ∧
      (s'.heads e').key = (s.heads e').key := by
    intro e'
    rw [heads]
    by_cases hee : e' = e
    · rw [hee, Function.update_self]
      exact ⟨rfl, rfl⟩
    · rw [Function.update_of_ne hee]
      exact ⟨rfl, rfl⟩
  refine h.step hg.space hstep hg.fault hfsize (fun e' he' => ?_) fun _ e' he' b hb hold => ?_
  · rw [(hsame e').1]
    exact h.ioRefcnt e' (hg.entries ▸ he')
  · have hmem : e' ∈ s.entries := hg.entries ▸ he'
    rw [(hkeys hK e' hmem b hb).2, hold hmem, (hsame e').2]

/-- References were taken or given back. -/
theorem Stored.setRefs (h : Stored s) {head : Head} (hspace : Space (s.setHead e head) [])
    (hio : head.ioRefcnt = (s.heads e).ioRefcnt) (hkey : head.key = (s.heads e).key) :
    Stored (s.setHead e head) := by
  have hsame : ∀ e', ((s.setHead e head).heads e').ioRefcnt = (s.heads e').ioRefcnt ∧
      ((s.setHead e head).heads e').key = (s.heads e').key := by
    intro e'
    by_cases hee : e' = e
    · rw [hee, setHead_heads_self]
      exact ⟨hio, hkey⟩
    · rw [setHead_heads_ne s hee]
      exact ⟨rfl, rfl⟩
  refine h.step hspace (.refl s.vol) rfl rfl (fun e' he' => ?_) fun _ e' he' b _ hold => ?_
  · rw [(hsame e').1]
    exact h.ioRefcnt e' he'
  · rw [(hsame e').2]
    exact hold he'

theorem Stored.created {key : List UInt8} (h : Stored s) (hc : Created s s' v key)
    (hlen : key.length = maxEntryNameLength) (hfsize : s'.vol.fsize = s.vol.fsize) : Stored s' := by
  have hold : ∀ e ∈ s.entries, e ≠ v := fun e he heq =>
    hc.notMem (h.space.mem_busy (heq ▸ he) List.mem_cons_self)
  have hcases : ∀ e ∈ s'.entries, (e ≠ v ∧ e ∈ s.entries) ∨ e = v := by
    intro e he
    rw [hc.entries] at he
    rcases List.mem_append.mp he with he | he
    · exact .inl ⟨hold e he, he⟩
    · exact .inr (List.mem_singleton.mp he)
  refine h.step hc.space hc.step hc.fault hfsize (fun e he => ?_) fun hsize e he b hb hb' => ?_
  · rcases hcases e he with ⟨hne, hmem⟩ | rfl
    · rw [hc.heads e hne]
      exact h.ioRefcnt e hmem
    · rw [hc.head]
  · rcases hcases e he with ⟨hne, hmem⟩ | rfl
    · rw [if_neg hne, hc.heads e hne]
      exact hb' hmem
    · have hfit : maxEntryNameLength ≤ s.vol.io.cache.hard.clusterSize - sizeofCluster := by
        rw [sizeofCluster, maxEntryNameLength]
        omega
      rw [if_pos rfl, headData, if_pos hfit, hc.head, overwrite, List.take_zero, List.nil_append,
        List.take_left' hlen]

theorem Stored.kept (h : Stored s) (hk : Kept s s') (hfsize : s'.vol.fsize = s.vol.fsize) :
    Stored s' := by
  obtain ⟨g, hstep, hkeys⟩ := hk.step
  refine h.step hk.space hstep hk.fault hfsize (fun e he => ?_) fun _ e he b hb hold => ?_
  · rw [hk.heads e (hk.entries ▸ he)]
    exact h.ioRefcnt e (hk.entries ▸ he)
  · have hmem : e ∈ s.entries := hk.entries ▸ he
    rw [(hkeys e hmem b hb).2, hold hmem, hk.heads e hmem]

theorem Stored.deleted (h : Stored s) (hd : Deleted s s' e) : Stored s' := by
  have hmem : ∀ e' ∈ s'.entries, e' ≠ e ∧ e' ∈ s.entries := by
    intro e' he'
    rw [hd.entries] at he'
    exact h.space.nodup_entries.mem_erase_iff.mp he'
  refine h.step hd.space hd.step hd.fault hd.fsize (fun e' he' => ?_) fun _ e' he' b _ hold => ?_
  · rw [hd.heads e' (hmem e' he').1]
    exact h.ioRefcnt e' (hmem e' he').2
  · rw [hd.heads e' (hmem e' he').1]
    exact hold (hmem e' he').2

/-- The size of the clusters is the same. -/
def SameSize (s s' : Fs) : Prop :=
  s'.vol.io.cache.hard.clusterSize = s.vol.io.cache.hard.clusterSize

theorem Stored.createOne (h : Stored s) {key : Option (List UInt8)} {r : Int × Int × Fs}
    (hfits : s.clustersToCreate key ≤ s.vol.idle.length) (heq : createOne s key = some r) :
    Stored r.2.2 ∧ SameSize s r.2.2 := by
  have hfsize := createOne_fsize h.space.vol hfits heq
  have hnew : (createNew s key).2.2.vol.fsize = s.vol.fsize →
      Stored (createNew s key).2.2 ∧ SameSize s (createNew s key).2.2 := by
    rcases createNew_spec h.space key with ⟨v, s', hc, created⟩ | ⟨status, s', hc, -, kept⟩
    · rw [hc]
      exact fun hfsize => ⟨h.created created (length_newKey key) hfsize, created.step.size⟩
    · obtain ⟨g, hstep, -⟩ := kept.step
      rw [hc]
      exact fun hfsize => ⟨h.kept kept hfsize, hstep.size⟩
  cases key with
  | none =>
    cases heq
    exact hnew hfsize
  | some k =>
    rw [Evfs.createOne] at heq
    split at heq
    · cases heq
    · cases heq
      exact ⟨h, rfl⟩
    · cases heq
      exact hnew hfsize

/-- **A call keeps what the disk holds**, if it fits and does not write over a key. -/
theorem Stored.call (h : Stored s) {c : Call} (hc : FitCalls s c s') (hkey : c.SparesKey) :
    Stored s' ∧ SameSize s s' := by
  obtain ⟨hfits, hallowed, hexec⟩ := hc
  cases c with
  | createOne key =>
    obtain ⟨r, hr, rfl⟩ := Option.map_eq_some_iff.mp hexec
    exact h.createOne hfits hr
  | writeData id data offset size =>
    obtain ⟨⟨r, s₁⟩, hr, rfl⟩ := Option.map_eq_some_iff.mp hexec
    obtain ⟨u, m⟩ := h.steady.mirror
    have hg := writeData_spec h.space hfits.1 hr
    have hfsize := writeData_fsize h.space hfits.1 m h.steady.fsize_le hfits.2 hr
    obtain ⟨g, hstep, -⟩ := hg.step
    exact ⟨h.grows hg hkey hfsize, hstep.size⟩
  | openOne id =>
    rw [Call.exec, openOne_eq h.space hfits] at hexec
    split at hexec
    · cases hexec
      exact ⟨h.setRefs (h.space.bump id 0 (Int.le_refl 0)) (Int.add_zero _) rfl, rfl⟩
    · cases hexec
      exact ⟨h, rfl⟩
  | closeOne id =>
    rw [Call.exec, closeOne_eq h.space hfits] at hexec
    split at hexec
    · rename_i he
      split at hexec
      · rename_i hpos
        cases hexec
        refine ⟨h.setRefs (h.space.setHead (fun _ => rfl) fun _ => ?_) rfl rfl, rfl⟩
        refine { h.space.entry id he with refcnt := ?_ }
        show 0 ≤ (s.heads id).refcnt - 1
        omega
      · cases hexec
    · cases hexec
      exact ⟨h, rfl⟩
  | hardDelete id =>
    obtain ⟨⟨r, s₁⟩, hr, rfl⟩ := Option.map_eq_some_iff.mp hexec
    by_cases he : id ∈ s.entries
    · obtain ⟨s₂, hd, deleted⟩ := hardDelete_spec h.space he (hfits he) (hallowed he)
      rw [hr] at hd
      cases hd
      exact ⟨h.deleted deleted, deleted.step.size⟩
    · rw [hardDelete, referenceHead_normal h.space hfits, if_neg he] at hr
      cases hr
      exact ⟨h, rfl⟩

end Keys

/-! ## Closing -/

section Close

variable {s s' : Fs} {u : List (List UInt8)} {e : Int}

/-- The entries `todo` are left, and nothing but the manager of the entries has changed. -/
structure Closing (s : Fs) (todo : List Int) (s' : Fs) : Prop where
  vol : s'.vol = s.vol
  entries : s'.entries = todo
  heads : ∀ e ∈ todo, s'.heads e = s.heads e
  tree : Avl.Wf (id : Int → Int) s'.rootOfEntriesTree
  mem_tree : ∀ v, v ∈ Avl.toList s'.rootOfEntriesTree ↔ v ∈ todo
  countOfEntries : s'.countOfEntries = todo.length
  leaves : s'.Terminated
  wild : s'.wild = s.wild
  countOfWild : s'.countOfWildEntriesElement = s.countOfWildEntriesElement
  fault : s'.fault = s.fault

/-- The elements of a head are freed, and their clusters stay as they are. -/
theorem freeElement_foldl_soft (views : List Int) : ∀ {s : Fs},
    (s.heads e).hardRemoveOnDetach = false → ∃ head, head.hardRemoveOnDetach = false ∧
      views.foldl (fun s view => freeElement s e view) s = s.setHead e head := by
  induction views with
  | nil =>
    intro s hsoft
    refine ⟨s.heads e, hsoft, ?_⟩
    rw [Fs.setHead, Function.update_eq_self]
    rfl
  | cons v views ih =>
    intro s hsoft
    have hfree : freeElement s e v = s.setHead e { s.heads e with
        elements := (s.heads e).elements.erase v
        countOfElements := (s.heads e).countOfElements - 1 } := by
      rw [freeElement]
      simp only [hsoft, Bool.false_eq_true, if_false]
    obtain ⟨head, hhead, heq⟩ := ih (s := freeElement s e v)
        (by rw [hfree, setHead_heads_self]; exact hsoft)
    refine ⟨head, hhead, ?_⟩
    rw [List.foldl_cons, heq, hfree, setHead_setHead]

/-- An entry that is unloaded keeps its clusters. -/
theorem tryDeleteHead_soft (hio : (s.heads e).ioRefcnt = 0)
    (hsoft : (s.heads e).hardRemoveOnDetach = false) : ∃ head,
      tryDeleteHead s e .mandatory = (detachHead s e).setHead e head := by
  have htry : tryDeleteHead s e .mandatory = freeHead (s.setHead e { s.heads e with
      state := .closeWait, refcnt := 0 }) e := by
    rw [tryDeleteHead]
    simp only [setHead_heads_self, hio, and_self, if_true]
  obtain ⟨head, hhead, heq⟩ := freeElement_foldl_soft (e := e) (s.heads e).elements
    (s := (detachHead s e).setHead e { s.heads e with state := .closeWait, refcnt := 0 })
    (by rw [setHead_heads_self]; exact hsoft)
  have hdetach : detachHead (s.setHead e { s.heads e with state := .closeWait, refcnt := 0 }) e =
      (detachHead s e).setHead e { s.heads e with state := .closeWait, refcnt := 0 } :=
    detachHead_setHead rfl
  refine ⟨head, ?_⟩
  rw [htry, freeHead, hdetach, freeElements, setHead_heads_self, heq, setHead_setHead]
  simp only [setHead_heads_self, hhead, Bool.false_eq_true, if_false]

theorem detachHead_rest (s : Fs) (e : Int) :
    (detachHead s e).rootOfEntriesTree =
    (Avl.avlremove compareEntryHead s.rootOfEntriesTree e none).1 ∧
    (detachHead s e).countOfEntries = s.countOfEntries - 1 ∧ (detachHead s e).wild = s.wild ∧
    (detachHead s e).countOfWildEntriesElement = s.countOfWildEntriesElement := by
  rw [detachHead]
  simp only
  split
  · exact ⟨rfl, rfl, rfl, rfl⟩
  · exact ⟨rfl, rfl, rfl, rfl⟩

/-- An entry leaves the manager, whatever happens to its clusters. -/
theorem Closing.leave {todo : List Int} (h : Closing s (e :: todo) s') (hnd : (e :: todo).Nodup)
    (hkey : 0 ∈ (s.heads e).key) (head : Head) (vol : Vol) :
    Closing (s.setVol vol) todo (((detachHead s' e).setHead e head).setVol vol) := by
  obtain ⟨htree, hcount, hwild, hcountWild⟩ := detachHead_rest s' e
  have hnotMem := (List.nodup_cons.mp hnd).1
  rw [← h.heads e List.mem_cons_self] at hkey
  obtain ⟨hleaves, hfault⟩ := h.leaves.detachHead hkey
  refine ⟨rfl, ?_, fun e' he' => ?_, ?_, fun v => ?_, ?_, hleaves, ?_, ?_, hfault.trans h.fault⟩
  · exact (detachHead_entries s' e).trans (by rw [h.entries, List.erase_cons_head])
  · show ((detachHead s' e).setHead e head).heads e' = _
    rw [setHead_heads_ne _ (ne_of_mem_of_not_mem he' hnotMem), detachHead_heads]
    exact h.heads e' (List.mem_cons_of_mem _ he')
  · show Avl.Wf id (detachHead s' e).rootOfEntriesTree
    rw [htree]
    exact h.tree.avlremove orders_viewCompare e none
  · show v ∈ Avl.toList (detachHead s' e).rootOfEntriesTree ↔ _
    rw [htree, show compareEntryHead = viewCompare from rfl,
      Avl.mem_toList_avlremove orders_viewCompare h.tree.sorted, h.mem_tree, List.mem_cons]
    constructor
    · rintro ⟨hv, hne⟩
      exact hv.resolve_left hne
    · exact fun hv => ⟨.inr hv, ne_of_mem_of_not_mem hv hnotMem⟩
  · refine hcount.trans ?_
    rw [h.countOfEntries, List.length_cons]
    omega
  · exact hwild.trans h.wild
  · exact hcountWild.trans h.countOfWild

theorem Closing.step {todo : List Int} (h : Closing s (e :: todo) s') (hnd : (e :: todo).Nodup)
    (hkey : 0 ∈ (s.heads e).key) (hio : (s.heads e).ioRefcnt = 0)
    (hsoft : (s.heads e).hardRemoveOnDetach = false) :
    Closing s todo (tryDeleteHead s' e .mandatory) := by
  have hhead : s'.heads e = s.heads e := h.heads e List.mem_cons_self
  obtain ⟨head, heq⟩ := tryDeleteHead_soft (s := s') (e := e) (by rw [hhead]; exact hio)
    (by rw [hhead]; exact hsoft)
  have hleave := h.leave hnd hkey head s.vol
  have hvol : ((detachHead s' e).setHead e head).setVol
      s.vol = (detachHead s' e).setHead e head := by
    rw [← h.vol, ← detachHead_vol s' e]
    rfl
  rw [heq, ← hvol]
  exact hleave

theorem closing_foldl (todo : List Int) : ∀ {s' : Fs}, Closing s todo s' → todo.Nodup →
    (∀ e ∈ todo, 0 ∈ (s.heads e).key ∧ (s.heads e).ioRefcnt = 0 ∧
      (s.heads e).hardRemoveOnDetach = false) →
      Closing s [] (todo.foldl (fun s e => tryDeleteHead s e .mandatory) s') := by
  induction todo with
  | nil => exact fun h _ _ => h
  | cons e todo ih =>
    intro s' h hnd hall
    obtain ⟨hkey, hio, hsoft⟩ := hall e List.mem_cons_self
    exact ih (h.step hnd hkey hio hsoft) hnd.of_cons fun e' he' => hall e' (List.mem_cons_of_mem _ he')

/-- Taking views out of an index. -/
theorem avlremove_foldl (views : List Int) : ∀ {t : Avl.Tree Int}, Avl.Wf (id : Int → Int) t →
    Avl.Wf (id : Int → Int) (views.foldl
    (fun t view => (Avl.avlremove viewCompare t view none).1) t) ∧
      ∀ v, v ∈ Avl.toList (views.foldl
      (fun t view => (Avl.avlremove viewCompare t view none).1) t) ↔
        v ∈ Avl.toList t ∧ v ∉ views := by
  induction views with
  | nil => exact fun h => ⟨h, fun v => ⟨fun hv => ⟨hv, List.not_mem_nil⟩, And.left⟩⟩
  | cons w views ih =>
    intro t h
    obtain ⟨hwf, hmem⟩ := ih (h.avlremove orders_viewCompare w none)
    refine ⟨hwf, fun v => ?_⟩
    rw [List.foldl_cons, hmem, Avl.mem_toList_avlremove orders_viewCompare h.sorted, List.mem_cons]
    show (v ∈ Avl.toList t ∧ v ≠ w) ∧ v ∉ views ↔ _
    tauto

/-- What deleting the views relies on. -/
structure Vol.Counted (s : Vol) : Prop where
  unused : s.totalClusterCount ≤ 0 → s.idle = [] ∧ s.busy = []
  countIdle : s.countOfIdleViews = s.idle.length
  countBusy : s.countOfBusyViews = s.busy.length
  tree : Avl.Wf (id : Int → Int) s.rootOfViewTree
  mem_tree : ∀ v, v ∈ Avl.toList s.rootOfViewTree ↔ v ∈ s.idle ∨ v ∈ s.busy

theorem Vol.Wf.counted {s : Vol} (h : s.Wf) : s.Counted :=
  ⟨fun hle => absurd h.total (Int.not_lt.mpr hle), h.countIdle, h.countBusy, h.tree, h.mem_tree⟩

theorem clean_viewUninit (h : s.vol.Counted) (hc : Closing s [] s') (hwild : s.wild = [])
    (hcount : s.countOfWildEntriesElement = 0) : (s'.setVol (viewUninit s'.vol)).Clean := by
  obtain ⟨hbusy, hmem⟩ := avlremove_foldl s.vol.busy h.tree
  obtain ⟨hidle, hmem'⟩ := avlremove_foldl s.vol.idle hbusy
  have hviews : ∀ v, v ∉ Avl.toList (s.vol.idle.foldl
      (fun t view => (Avl.avlremove viewCompare t view none).1) (s.vol.busy.foldl
        (fun t view => (Avl.avlremove viewCompare t view none).1) s.vol.rootOfViewTree)) := by
    intro v hv
    rw [hmem', hmem, h.mem_tree] at hv
    tauto
  have htree : Avl.toList s'.rootOfEntriesTree = [] :=
    List.eq_nil_iff_forall_not_mem.mpr fun v hv => List.not_mem_nil ((hc.mem_tree v).mp hv)
  rw [hc.vol, viewUninit]
  split
  · rename_i htotal
    obtain ⟨hidle, hbusy⟩ := h.unused htotal
    refine ⟨rfl, hidle, hbusy, ?_, ?_, ?_, hc.entries, Avl.toList_eq_nil.mp htree,
      hc.countOfEntries, hc.wild.trans hwild, hc.countOfWild.trans hcount⟩
    · exact h.countIdle.trans (by rw [hidle]; rfl)
    · exact h.countBusy.trans (by rw [hbusy]; rfl)
    · rw [hidle, hbusy] at hviews
      exact Avl.toList_eq_nil.mp (List.eq_nil_iff_forall_not_mem.mpr hviews)
  · refine ⟨rfl, rfl, rfl, ?_, ?_, ?_, hc.entries, Avl.toList_eq_nil.mp htree,
      hc.countOfEntries, hc.wild.trans hwild, hc.countOfWild.trans hcount⟩
    · show s.vol.countOfIdleViews - s.vol.idle.length = 0
      rw [h.countIdle, Int.sub_self]
    · show s.vol.countOfBusyViews - s.vol.busy.length = 0
      rw [h.countBusy, Int.sub_self]
    · exact Avl.toList_eq_nil.mp (List.eq_nil_iff_forall_not_mem.mpr hviews)

/-- Managers that are not in use, after calls that were all defined. -/
structure Fs.Cleared (s : Fs) : Prop where
  clean : s.Clean
  leaves : s.Terminated
  defined : s.Defined

theorem viewUninit_io (vol : Vol) : (viewUninit vol).io = vol.io := by
  rw [viewUninit]
  split
  · rfl
  · rfl

/-- **Closing** leaves the clusters in the file. -/
theorem close_spec (h : Stored s) (hu : Mirror s.vol u) :
    (evfsClose s).1 = u.flatten ∧ (evfsClose s).2.Cleared := by
  have hstart : Closing s s.entries s :=
    ⟨rfl, rfl, fun _ _ => rfl, h.space.tree, h.space.mem_tree, h.space.countOfEntries,
      h.space.leaves, rfl, rfl, rfl⟩
  have hc := closing_foldl s.entries hstart h.space.nodup_entries fun e he =>
    ⟨(h.space.entry e he).key, h.ioRefcnt e he, (h.space.entry e he).keeps⟩
  have hio : (entriesUninit s).vol.io = s.vol.io := (viewUninit_io _).trans (by rw [hc.vol])
  refine ⟨?_, clean_viewUninit h.space.vol.counted hc h.space.wild h.space.countOfWild, hc.leaves,
    ?_, hc.fault.trans h.steady.defined.2⟩
  · show ((entriesUninit s).vol.io.cache.flushBufferAll.hard.file).flatten = _
    rw [hio, hu.sim.flushBufferAll.2]
  · show (entriesUninit s).vol.io.fault = false
    rw [hio]
    exact h.steady.defined.1

end Close

end Evfs

end LibNax
