import LibNax.Evfs.Catalog

/-!
# Clusters that no entry owns

Loading moves every cluster with the header of a head or of an element to the busy views, and only
then looks for the owner of the elements.  An entry with a broken chain is removed and its clusters
go back to the idle views; an element that no head leads to stays in the list of the wild elements.

* `Vol.Sound` and `Sound` — the managers while a table of headers is loaded: every view is in one
  list, everything is counted, and the idle views have the headers that they should have.
* `Settled` — what loading should leave behind: no cluster is lost.
* `uninit_nameIndex` — closing takes every key out of the index.  A key that fills its buffer is then
  compared with itself, and read behind its end, if it has not been before.
* `entriesLoad_settled_iff` — exactly when a head leads to every element, every other header is clear,
  and the keys of the heads end in their buffers.
-/

set_option autoImplicit false

namespace LibNax

namespace Evfs

open Lib (Walk overwrite)

/-! ## The views -/

/-- The header of an idle view on the disk, while the views `todo` were not looked at. -/
def idleHdr (u : List (List UInt8)) (todo : List Int) (v : Int) : Cluster :=
  if (hdr u v).looksLikeBusy = true ∧ v ∉ todo then .zero else hdr u v

/-- The manager of the views while the table `u` is loaded. -/
structure Vol.Sound (u : List (List UInt8)) (todo : List Int) (s : Vol) : Prop where
  allocFaults : s.io.allocFaults = []
  size : sizeofCluster ≤ s.io.cache.hard.clusterSize
  disk : ∃ u', Sim s.io.cache [] u' ∧ u'.length = u.length ∧
    ∀ v ∈ s.idle, hdr u' v = idleHdr u todo v
  total : s.totalClusterCount = u.length - 1
  perm : (s.idle ++ s.busy).Perm (viewIds u.length)
  looks : ∀ v ∈ s.busy, (hdr u v).looksLikeBusy = true
  countIdle : s.countOfIdleViews = s.idle.length
  countBusy : s.countOfBusyViews = s.busy.length
  tree : Avl.Wf (id : Int → Int) s.rootOfViewTree
  mem_tree : ∀ v, v ∈ Avl.toList s.rootOfViewTree ↔ v ∈ viewIds u.length

section Views

variable {u u' : List (List UInt8)} {todo : List Int} {s : Vol} {v : Int}

theorem Vol.Sound.nodup (h : s.Sound u todo) : (s.idle ++ s.busy).Nodup :=
  h.perm.nodup_iff.mpr (nodup_viewIds _)

theorem Vol.Sound.mem_busy (h : s.Sound u todo) (hv : v ∈ s.busy) : 1 ≤ v ∧ v < u.length :=
  mem_viewIds.mp (h.perm.mem_iff.mp (List.mem_append_right _ hv))

theorem Vol.Sound.busy_notMem (h : s.Sound u todo) (hv : v ∈ s.busy) : v ∉ s.idle := fun hi =>
  List.disjoint_of_nodup_append h.nodup hi hv

theorem Vol.Sound.pos_of_idle (h : s.Sound u todo) (hv : v ∈ s.idle) : 1 ≤ v :=
  (mem_viewIds.mp (h.perm.mem_iff.mp (List.mem_append_left _ hv))).1

/-- The header of a busy view is written, or something is read. -/
theorem Vol.Sound.setIo (h : s.Sound u todo) {io : Io} (hk : s.io.Keeps io)
    (cluster : Int → Cluster) (hv : v ∈ s.busy)
    (hdisk : ∀ u', Sim s.io.cache [] u' → u'.length = u.length → ∃ u'', Sim io.cache [] u'' ∧
      u''.length = u'.length ∧ ∀ w, 1 ≤ w → w ≠ v → hdr u'' w = hdr u' w) :
    ({ s with io, cluster } : Vol).Sound u todo := by
  obtain ⟨u', hsim, hlen, hidle⟩ := h.disk
  obtain ⟨u'', hsim', hlen', hsame⟩ := hdisk u' hsim hlen
  refine ⟨hk.allocFaults h.allocFaults, ?_, ⟨u'', hsim', hlen'.trans hlen, fun w hw => ?_⟩, h.total,
    h.perm, h.looks, h.countIdle, h.countBusy, h.tree, h.mem_tree⟩
  · show sizeofCluster ≤ io.cache.hard.clusterSize
    rw [hk.hard.clusterSize]
    exact h.size
  · rw [hsame w (h.pos_of_idle hw) fun hwv => h.busy_notMem hv (hwv ▸ hw)]
    exact hidle w hw

/-- A view that does not look busy stays where it is. -/
theorem Vol.Sound.skip (h : s.Sound u (v :: todo)) (hfree : (hdr u v).looksLikeBusy = false) :
    s.Sound u todo := by
  obtain ⟨u', hsim, hlen, hidle⟩ := h.disk
  refine { h with disk := ⟨u', hsim, hlen, fun w hw => ?_⟩ }
  rw [hidle w hw, idleHdr, idleHdr]
  by_cases hwv : w = v
  · rw [hwv, hfree]
    simp
  · simp [hwv]

/-- A view that looks busy is moved. -/
theorem Vol.Sound.toBusy (h : s.Sound u (v :: todo)) (hv : v ∈ s.idle)
    (hbusy : (hdr u v).looksLikeBusy = true) : ({ s with
      idle := s.idle.erase v, countOfIdleViews := s.countOfIdleViews - 1
      busy := s.busy ++ [v], countOfBusyViews := s.countOfBusyViews + 1 } : Vol).Sound u todo := by
  obtain ⟨u', hsim, hlen, hidle⟩ := h.disk
  have hnd : s.idle.Nodup := h.nodup.of_append_left
  refine ⟨h.allocFaults, h.size, ⟨u', hsim, hlen, fun w hw => ?_⟩, h.total, ?_, fun w hw => ?_, ?_,
    ?_, h.tree, h.mem_tree⟩
  · obtain ⟨hne, hw⟩ := hnd.mem_erase_iff.mp hw
    rw [hidle w hw, idleHdr, idleHdr]
    simp [hne]
  · have hperm : (s.idle.erase v ++ (s.busy ++ [v])).Perm (s.idle ++ s.busy) := by
      refine List.perm_append_comm.trans ?_
      rw [List.append_assoc]
      refine (List.Perm.append_left s.busy (List.perm_cons_erase hv).symm).trans ?_
      exact List.perm_append_comm
    exact hperm.trans h.perm
  · rcases List.mem_append.mp hw with hw | hw
    · exact h.looks w hw
    · rw [List.mem_singleton.mp hw]
      exact hbusy
  · have := List.length_pos_of_mem hv
    show s.countOfIdleViews - 1 = ((s.idle.erase v).length : Int)
    rw [h.countIdle, List.length_erase_of_mem hv]
    omega
  · show s.countOfBusyViews + 1 = ((s.busy ++ [v]).length : Int)
    rw [h.countBusy, List.length_append, List.length_singleton]
    omega

/-- A view is given back, and its header is cleared. -/
theorem Vol.Sound.moveToIdle (h : s.Sound u []) (hv : v ∈ s.busy) :
    (viewMoveToIdle s v).2.Sound u [] ∧ (viewMoveToIdle s v).2.busy = s.busy.erase v := by
  obtain ⟨u', hsim, hlen, hidle⟩ := h.disk
  obtain ⟨h₁, h₂⟩ := h.mem_busy hv
  have hmove : (viewMoveToIdle s v).2 = (s.gaveBack v).writeHead v := by
    rw [viewMoveToIdle, if_neg (by rw [h.total]; omega)]
    rfl
  have hio : ((s.gaveBack v).writeHead v).io = (cacheWriteHead s.io v .zero).2 := by
    show (cacheWriteHead s.io v (Function.update s.cluster v .zero v)).2 = _
    rw [Function.update_self]
  have hk := cacheWriteHead_keeps s.io v .zero
  obtain ⟨u'', hsim', hlen', hsame, hzero, -⟩ := hsim.writeHead h.allocFaults h.size h₁
    (by rw [hlen]; exact h₂) .zero
  rw [hmove]
  refine ⟨⟨?_, ?_, ⟨u'', ?_, hlen'.trans hlen, fun w hw => ?_⟩, h.total, ?_, fun w hw =>
    h.looks w (List.mem_of_mem_erase hw), ?_, ?_, h.tree, h.mem_tree⟩, rfl⟩
  · rw [hio]
    exact hk.allocFaults h.allocFaults
  · rw [hio, hk.hard.clusterSize]
    exact h.size
  · rw [hio]
    exact hsim'
  · rcases List.mem_append.mp hw with hw | hw
    · rw [hsame w (h.pos_of_idle hw) fun hwv => h.busy_notMem hv (hwv ▸ hw)]
      exact hidle w hw
    · rw [List.mem_singleton.mp hw, hzero zero_wf, idleHdr, h.looks v hv]
      simp
  · have hperm : (s.idle ++ [v] ++ s.busy.erase v).Perm (s.idle ++ s.busy) := by
      rw [List.append_assoc]
      exact (List.perm_cons_erase hv).symm.append_left s.idle
    exact hperm.trans h.perm
  · show s.countOfIdleViews + 1 = ((s.idle ++ [v]).length : Int)
    rw [h.countIdle, List.length_append, List.length_singleton]
    omega
  · show s.countOfBusyViews - 1 = ((s.busy.erase v).length : Int)
    have := List.length_pos_of_mem hv
    rw [h.countBusy, List.length_erase_of_mem hv]
    omega

/-- A read of data leaves the clusters alone. -/
theorem Sim.readUserdata {io : Io} (h : Sim io.cache [] u) (ha : io.allocFaults = []) (hv : 1 ≤ v)
    (hv' : v < u.length) {offset length : Int} (hoff : 0 ≤ offset) (hlen : 0 ≤ length) :
    Sim (Evfs.cacheReadUserdata io v offset length).2.cache [] u := by
  by_cases hfit : offset + length ≤ io.cache.hard.clusterSize - sizeofCluster
  · obtain ⟨io', heq, hsim⟩ := h.cacheReadUserdata ha hv hv' hoff hlen hfit
    rw [heq]
    exact hsim
  · rw [Evfs.cacheReadUserdata, if_pos]
    · exact h
    · rw [Io.clusterSize]
      omega

/-- A head is made for a view that was found. -/
theorem Vol.Sound.allocHead {s : Fs} (h : s.vol.Sound u todo) (hv : v ∈ s.vol.busy) :
    ∃ io cluster key, ({ s.vol with io, cluster } : Vol).Sound u todo ∧
      Evfs.allocHead s v none = (true,
        (s.setVol { s.vol with io, cluster }).setHead v (.found key)) := by
  obtain ⟨h₁, h₂⟩ := h.mem_busy hv
  have halloc : s.alloc = (true, s) := by
    rw [Fs.alloc, Vol.alloc, Io.alloc_of_nil h.allocFaults]
    rfl
  obtain ⟨io, hk, hread, hsim⟩ : ∃ io, s.vol.io.Keeps io ∧
      (loadKey s.vol v none).2 = { s.vol with io } ∧
      ∀ u', Sim s.vol.io.cache [] u' → u'.length = u.length → Sim io.cache [] u' := by
    rw [loadKey]
    simp only [viewReadUserdata]
    have hread : ∀ u', Sim s.vol.io.cache [] u' → u'.length = u.length →
        Sim (cacheReadUserdata s.vol.io v 0 maxEntryNameLength).2.cache [] u' := by
      intro u' hsim hlen
      exact hsim.readUserdata h.allocFaults h₁ (by rw [hlen]; exact h₂) (Int.le_refl 0)
        (Int.natCast_nonneg _)
    split
    · exact ⟨s.vol.io, .refl _, rfl, fun _ hsim _ => hsim⟩
    · split
      · exact ⟨_, cacheReadUserdata_keeps s.vol.io v 0 _, rfl, hread⟩
      · exact ⟨_, cacheReadUserdata_keeps s.vol.io v 0 _, rfl, hread⟩
  refine ⟨(cacheWriteHead io v { s.vol.cluster v with headClusterId := v }).2,
    Function.update s.vol.cluster v { s.vol.cluster v with headClusterId := v },
    (loadKey s.vol v none).1, h.setIo (hk.trans (cacheWriteHead_keeps _ _ _)) _ hv ?_, ?_⟩
  · intro u' hsim' hlen
    obtain ⟨u'', hsim'', hlen'', hsame, -, -⟩ := (hsim u' hsim' hlen).writeHead
      (hk.allocFaults h.allocFaults) (by rw [hk.hard.clusterSize]; exact h.size) h₁
      (by rw [hlen]; exact h₂) { s.vol.cluster v with headClusterId := v }
    exact ⟨u'', hsim'', hlen'', hsame⟩
  · rw [Evfs.allocHead, halloc]
    simp only [if_true]
    rw [hread]
    simp only [viewSetHead, Vol.putCluster, Vol.setCluster, Vol.writeHead, Option.getD_none,
      Function.update_self]
    rfl

end Views

/-! ## The managers -/

/-- The views of the entries, and the ones that are wild. -/
def Fs.owned (s : Fs) : List Int :=
  s.entries ++ s.entries.flatMap (fun h => (s.heads h).elements) ++ s.wild

/-- All managers while the table `u` is loaded. -/
structure Sound (u : List (List UInt8)) (todo : List Int) (s : Fs) : Prop where
  vol : s.vol.Sound u todo
  owned : s.vol.busy.Perm s.owned
  unused : ∀ e ∈ s.entries, (s.heads e).ioRefcnt = 0 ∧ (s.heads e).hardRemoveOnDetach = false
  tree : Avl.Wf (id : Int → Int) s.rootOfEntriesTree
  mem_tree : ∀ v, v ∈ Avl.toList s.rootOfEntriesTree ↔ v ∈ s.entries
  countOfEntries : s.countOfEntries = s.entries.length
  countOfWild : s.countOfWildEntriesElement = s.wild.length

section Managers

variable {u : List (List UInt8)} {done todo : List Int} {s : Fs} {v : Int}

theorem Sound.element (h : Sound u (v :: todo) s) (hv : v ∈ s.vol.idle)
    (hbusy : (hdr u v).looksLikeBusy = true) : Sound u todo { s.toBusy v with
      wild := s.wild ++ [v], countOfWildEntriesElement := s.countOfWildEntriesElement + 1 } := by
  refine ⟨h.vol.toBusy hv hbusy, ?_, h.unused, h.tree, h.mem_tree, h.countOfEntries, ?_⟩
  · show (s.vol.busy ++ [v]).Perm (s.entries ++ s.entries.flatMap (fun h => (s.heads h).elements) ++
      (s.wild ++ [v]))
    rw [← List.append_assoc]
    exact h.owned.append_right [v]
  · show s.countOfWildEntriesElement + 1 = ((s.wild ++ [v]).length : Int)
    rw [h.countOfWild, List.length_append, List.length_singleton]
    omega

/-- A new head has no elements yet. -/
theorem flatMap_setHead (hnew : v ∉ s.entries) (key : List UInt8) :
    (s.entries ++ [v]).flatMap (fun h => ((s.setHead v (.found key)).heads h).elements) =
      s.entries.flatMap fun h => (s.heads h).elements := by
  have hold : s.entries.flatMap (fun h => ((s.setHead v (.found key)).heads h).elements) =
      s.entries.flatMap fun h => (s.heads h).elements := by
    rw [List.flatMap, List.flatMap]
    congr 1
    refine List.map_congr_left fun e he => ?_
    rw [setHead_heads_ne _ (ne_of_mem_of_not_mem he hnew)]
  rw [List.flatMap_append, hold, List.flatMap_singleton, setHead_heads_self]
  exact List.append_nil _

theorem Sound.head (h : Sound u (v :: todo) s) (hnew : v ∉ s.entries) {io : Io}
    {cluster : Int → Cluster}
    (hvol : ({ (s.toBusy v).vol with io, cluster } : Vol).Sound u todo) (key : List UInt8) :
    Sound u todo (insertHead (((s.toBusy v).setVol { (s.toBusy v).vol with
      io, cluster }).setHead v (.found key)) v) := by
  refine ⟨?_, ?_, fun e he => ?_, ?_, fun w => ?_, ?_, ?_⟩
  · rw [insertHead_vol]
    exact hvol
  · rw [Fs.owned, insertHead_vol, insertHead_entries, insertHead_heads, insertHead_wild]
    show (s.vol.busy ++ [v]).Perm (s.entries ++ [v] ++ (s.entries ++ [v]).flatMap
      (fun h => ((s.setHead v (.found key)).heads h).elements) ++ s.wild)
    rw [flatMap_setHead hnew, List.append_assoc, List.append_assoc]
    refine (h.owned.append_right [v]).trans ?_
    rw [Fs.owned, List.append_assoc, List.append_assoc, ← List.append_assoc _ s.wild]
    exact List.Perm.append_left _ List.perm_append_comm
  · rw [insertHead_heads]
    rw [insertHead_entries] at he
    by_cases hev : e = v
    · rw [hev, setHead_heads_self]
      exact ⟨rfl, rfl⟩
    · rw [setHead_heads_ne _ hev]
      rcases List.mem_append.mp he with he | he
      · exact h.unused e he
      · exact absurd (List.mem_singleton.mp he) hev
  · rw [insertHead_tree]
    exact h.tree.avlinsert orders_viewCompare v
  · rw [insertHead_tree, insertHead_entries]
    exact mem_tree_insert h.tree.sorted h.mem_tree hnew w
  · exact insertHead_counted v h.countOfEntries
  · rw [insertHead_countOfWild, insertHead_wild]
    exact h.countOfWild

/-- One view is looked at. -/
theorem Sound.recognizeView (h : Sound u (v :: todo) s) (hr : Recognized u done (v :: todo) s)
    (hnd : (done ++ v :: todo).Nodup) : Sound u todo (recognizeView s v) := by
  have hcv : s.vol.cluster v = hdr u v := hr.unseen v List.mem_cons_self
  have hidle : v ∈ s.vol.idle := by
    rw [hr.idle]
    exact List.mem_append_right _ List.mem_cons_self
  rw [Evfs.recognizeView, hcv]
  cases hbusy : (hdr u v).looksLikeBusy with
  | false =>
    rw [if_neg Bool.false_ne_true]
    exact { h with vol := h.vol.skip hbusy }
  | true =>
    rw [if_pos rfl]
    show Sound u todo (rawRecognize (s.toBusy v) v)
    have hvol : (s.toBusy v).vol.Sound u todo := h.vol.toBusy hidle hbusy
    rw [rawRecognize, show (s.toBusy v).vol.cluster v = hdr u v from hcv]
    cases hhead : (hdr u v).looksLikeHead with
    | true =>
      obtain ⟨io, cluster, key, hvol', halloc⟩ :=
        hvol.allocHead (List.mem_append_right _ (List.mem_singleton_self v))
      rw [halloc, if_pos rfl, if_pos rfl]
      exact h.head (hr.new hnd) hvol' key
    | false =>
      have halloc : (s.toBusy v).alloc = (true, s.toBusy v) := by
        rw [Fs.alloc, Vol.alloc, Io.alloc_of_nil hvol.allocFaults]
        rfl
      rw [halloc, if_neg Bool.false_ne_true, if_pos rfl]
      exact h.element hidle hbusy

theorem sound_foldl (todo : List Int) : ∀ {done : List Int} {s : Fs}, Sound u todo s →
    Recognized u done todo s → (done ++ todo).Nodup → Sound u [] (todo.foldl recognizeView s) := by
  induction todo with
  | nil => exact fun h _ _ => h
  | cons v todo ih =>
    intro done s h hr hnd
    have hnext := h.recognizeView hr hnd
    have hrnext := hr.step hnd
    rw [List.append_cons] at hnd
    exact ih hnext hrnext hnd

/-! ## The links -/

theorem Sound.sized (h : Sound u todo s) (hard : Hard) : Sound u todo (s.sized hard) :=
  ⟨⟨h.vol.allocFaults, h.vol.size, h.vol.disk, h.vol.total, h.vol.perm, h.vol.looks,
    h.vol.countIdle, h.vol.countBusy, h.vol.tree, h.vol.mem_tree⟩, h.owned, h.unused, h.tree,
    h.mem_tree, h.countOfEntries, h.countOfWild⟩

theorem Sound.nodup_owned (h : Sound u todo s) : s.owned.Nodup :=
  h.owned.nodup_iff.mp h.vol.nodup.of_append_right

theorem Sound.nodup_entries (h : Sound u todo s) : s.entries.Nodup :=
  h.nodup_owned.of_append_left.of_append_left

variable {e : Int} {l : List Int}

/-- A head took elements out of the wild list. -/
theorem Sound.linked (h : Sound u todo s) (he : e ∈ s.entries) (hnil : (s.heads e).elements = [])
    (hl : l.Nodup) (hlw : ∀ v ∈ l, v ∈ s.wild) : Sound u todo (s.linked e l) := by
  refine ⟨h.vol, ?_, fun e' he' => ?_, h.tree, h.mem_tree, h.countOfEntries,
    (joined_linked hl hlw).countOfWild h.countOfWild⟩
  · have hplaces : ((s.linked e l).owned ++ s.vol.idle).Perm (s.owned ++ s.vol.idle) :=
      places_linked he hnil h.nodup_entries hl hlw
    exact h.owned.trans ((List.perm_append_right_iff _).mp hplaces).symm
  · have hold := h.unused e' he'
    by_cases hee : e' = e
    · rw [hee, linked_heads_self]
      rw [hee] at hold
      exact hold
    · rw [show (s.linked e l).heads e' = s.heads e' from Function.update_of_ne hee ..]
      exact hold

theorem Vol.Sound.moveAll (views : List Int) : ∀ {vol : Vol}, vol.Sound u [] → views.Nodup →
    (∀ v ∈ views, v ∈ vol.busy) → (moveAll vol views).Sound u [] := by
  induction views with
  | nil => exact fun h _ _ => h
  | cons v views ih =>
    intro vol h hnd hmem
    obtain ⟨hsound, hbusy⟩ := h.moveToIdle (hmem v List.mem_cons_self)
    obtain ⟨hv, hnd⟩ := List.nodup_cons.mp hnd
    refine ih hsound hnd fun w hw => ?_
    rw [hbusy, h.nodup.of_append_right.mem_erase_iff]
    exact ⟨ne_of_mem_of_not_mem hw hv, hmem w (List.mem_cons_of_mem _ hw)⟩

/-- A head that is removed leaves the manager, and all its views are given back. -/
theorem removed_eq (hio : (s.heads e).ioRefcnt = 0) : ∃ head, s.removed e =
    ((detachHead s e).setHead e head).setVol (moveAll s.vol ((s.heads e).elements ++ [e])) := by
  obtain ⟨head, heq⟩ := tryDeleteHead_mandatory
    (s := s.setHead e { s.heads e with hardRemoveOnDetach := true }) (e := e)
    (by rw [setHead_heads_self]; exact hio)
  refine ⟨head, ?_⟩
  have hdetach : detachHead (s.setHead e { s.heads e with hardRemoveOnDetach := true }) e =
      (detachHead s e).setHead e { s.heads e with hardRemoveOnDetach := true } :=
    detachHead_setHead rfl
  rw [Fs.removed, heq, setHead_heads_self, if_pos rfl, hdetach, setHead_setHead]
  rfl

theorem Sound.total_pos (h : Sound u todo s) (he : e ∈ s.entries) :
    0 < s.vol.totalClusterCount := by
  have hbusy : e ∈ s.vol.busy :=
    h.owned.mem_iff.mpr (List.mem_append_left _ (List.mem_append_left _ he))
  have := h.vol.mem_busy hbusy
  rw [h.vol.total]
  omega

/-- A head with a broken chain is removed. -/
theorem Sound.removed (h : Sound u [] s) (he : e ∈ s.entries) : Sound u [] (s.removed e) := by
  obtain ⟨hio, -⟩ := h.unused e he
  obtain ⟨head, heq⟩ := removed_eq hio
  have hr := removed_removed (h.total_pos he) hio
  have hnd := h.nodup_owned
  have hviews : ((s.heads e).elements ++ [e]).Nodup := by
    have hchains : (s.entries.flatMap fun h => (s.heads h).elements).Nodup :=
      hnd.of_append_left.of_append_right
    refine ((List.nodup_flatMap.mp hchains).1 e he).append (List.nodup_singleton e) ?_
    intro v hv hve
    rw [List.mem_singleton.mp hve] at hv
    exact List.disjoint_of_nodup_append hnd.of_append_left he
      (List.mem_flatMap.mpr ⟨e, he, hv⟩)
  have hmem : ∀ v ∈ (s.heads e).elements ++ [e], v ∈ s.vol.busy := by
    intro v hv
    refine h.owned.mem_iff.mpr (List.mem_append_left _ ?_)
    rcases List.mem_append.mp hv with hv | hv
    · exact List.mem_append_right _ (List.mem_flatMap.mpr ⟨e, he, hv⟩)
    · rw [List.mem_singleton.mp hv]
      exact List.mem_append_left _ he
  have hvol : (s.removed e).vol.Sound u [] := by
    rw [heq]
    exact h.vol.moveAll _ hviews hmem
  obtain ⟨htree, hcount, hwild, hcountWild⟩ := detachHead_rest s e
  have hentries : (detachHead s e).entries = s.entries.erase e := detachHead_entries s e
  refine ⟨hvol, ?_, fun e' he' => ?_, ?_, fun v => ?_, ?_, ?_⟩
  · -- every view is still in one of the lists
    have hplaces : ((s.removed e).owned ++ (s.removed e).vol.idle).Perm (s.owned ++ s.vol.idle) :=
      hr.places he h.nodup_entries
    have hall : ((s.removed e).vol.busy ++ (s.removed e).vol.idle).Perm
        (s.vol.busy ++ s.vol.idle) :=
      List.perm_append_comm.trans ((hvol.perm.trans h.vol.perm.symm).trans List.perm_append_comm)
    refine (List.perm_append_right_iff (s.removed e).vol.idle).mp (hall.trans ?_)
    exact (h.owned.append_right _).trans hplaces.symm
  · rw [hr.entries, h.nodup_entries.mem_erase_iff] at he'
    rw [hr.heads e' he'.1]
    exact h.unused e' he'.2
  · rw [heq]
    show Avl.Wf id (detachHead s e).rootOfEntriesTree
    rw [htree]
    exact h.tree.avlremove orders_viewCompare e none
  · rw [hr.entries, h.nodup_entries.mem_erase_iff, heq]
    show v ∈ Avl.toList (detachHead s e).rootOfEntriesTree ↔ _
    rw [htree, show compareEntryHead = viewCompare from rfl,
      Avl.mem_toList_avlremove orders_viewCompare h.tree.sorted, h.mem_tree, and_comm]
    exact Iff.rfl
  · have := List.length_pos_of_mem he
    rw [hr.entries, List.length_erase_of_mem he, heq]
    show (detachHead s e).countOfEntries = _
    rw [hcount, h.countOfEntries]
    omega
  · rw [hr.wild, heq]
    show (detachHead s e).countOfWildEntriesElement = _
    rw [hcountWild, h.countOfWild]

/-- One head is followed. -/
theorem Sound.linkChain (hs : Sound u [] s) (hl : Linking u done (v :: todo) s) {s' : Fs}
    (heq : linkChain (s.wild.length + 1) s v (viewGetNextClusterId s.vol v) = some s') :
    Sound u [] s' := by
  obtain ⟨hmem, key, hkey⟩ := hl.waits v List.mem_cons_self
  obtain ⟨l, x, -, hnd, hlw, -, heq'⟩ := linkChain_spec (e := v) (tableNext u)
    (s.wild.length + 1) (s := s) (y := tableNext u v) (fun w hw => hl.next w (.inr hw))
    hl.nodup.of_append_left.of_append_right (Nat.lt_succ_self _)
  have hlinked := hs.linked hmem (by rw [hkey]; rfl) hnd hlw
  rw [hl.next v (.inl List.mem_cons_self), heq'] at heq
  cases heq
  split
  · exact hlinked
  · exact hlinked.removed hmem

theorem sound_foldlM (todo : List Int) : ∀ {done : List Int} {s s' : Fs}, Sound u [] s →
    Linking u done todo s → todo.foldlM (fun s e =>
      Evfs.linkChain (s.wild.length + 1) s e (viewGetNextClusterId s.vol e)) s = some s' →
        Sound u [] s' := by
  induction todo with
  | nil =>
    intro done s s' h _ heq
    cases heq
    exact h
  | cons v todo ih =>
    intro done s s' h hl heq
    obtain ⟨s₁, hstep, hl', -⟩ := hl.step
    rw [List.foldlM_cons, hstep] at heq
    exact ih (h.linkChain hl hstep) hl' heq

end Managers

/-! ## What closing does to the index -/

/-- Every entry leaves the index. -/
theorem uninit_nameIndex (todo : List Int) : ∀ {s : Fs}, todo.Nodup →
    (∀ e ∈ todo, (s.heads e).ioRefcnt = 0) →
      (todo.foldl (fun s e => tryDeleteHead s e .mandatory) s).nameIndex =
        (todo.map fun e => (⟨(s.heads e).key, e⟩ : NamedLeaf)).foldl NameIndex.leave s.nameIndex := by
  induction todo with
  | nil => exact fun _ _ => rfl
  | cons e todo ih =>
    intro s hnd hio
    obtain ⟨hnot, hnd'⟩ := List.nodup_cons.mp hnd
    obtain ⟨head, heq⟩ := tryDeleteHead_mandatory (hio e List.mem_cons_self)
    have hheads : ∀ e' ∈ todo, (tryDeleteHead s e .mandatory).heads e' = s.heads e' := by
      intro e' he'
      rw [heq]
      show ((detachHead s e).setHead e head).heads e' = _
      rw [setHead_heads_ne _ (ne_of_mem_of_not_mem he' hnot), detachHead_heads]
    have hindex : (tryDeleteHead s e .mandatory).nameIndex =
        s.nameIndex.leave ⟨(s.heads e).key, e⟩ := by
      rw [heq]
      exact detachHead_nameIndex s e
    have hmap : (todo.map fun e' =>
        (⟨((tryDeleteHead s e .mandatory).heads e').key, e'⟩ : NamedLeaf)) =
        todo.map fun e' => ⟨(s.heads e').key, e'⟩ :=
      List.map_congr_left fun e' he' => by rw [hheads e' he']
    rw [List.foldl_cons, List.map_cons, List.foldl_cons, ih hnd' fun e' he' => by
      rw [hheads e' he']
      exact hio e' (List.mem_cons_of_mem _ he'), hmap, hindex]

/-- The heads that are not there after loading have left the index. -/
theorem leaveBroken_eq (clusterSize : Nat) (u : List (List UInt8)) (todo : List Int) :
    ∀ (done : List Int) (i : NameIndex), ∃ broken ⊆ todo,
      leaveBroken clusterSize u done todo i =
        (broken.map (leafOf clusterSize u)).foldl NameIndex.leave i ∧
      ∀ before h after, todo = before ++ h :: after → h ∈ broken ∨ Intact u (done ++ before) h := by
  induction todo with
  | nil =>
    intro done i
    refine ⟨[], List.Subset.refl _, rfl, fun before h after hsplit => ?_⟩
    exact absurd hsplit.symm (List.append_ne_nil_of_right_ne_nil _ (List.cons_ne_nil _ _))
  | cons e todo ih =>
    intro done i
    have hsplits : ∀ {broken : List Int}, (e ∈ broken ∨ Intact u done e) →
        (∀ before h after, todo = before ++ h :: after →
          h ∈ broken ∨ Intact u (done ++ [e] ++ before) h) →
        ∀ before h after, e :: todo = before ++ h :: after →
          h ∈ broken ∨ Intact u (done ++ before) h := by
      intro broken hfirst hrest before h after hsplit
      cases before with
      | nil =>
        obtain ⟨rfl, -⟩ := List.cons.inj hsplit
        rw [List.append_nil]
        exact hfirst
      | cons b before =>
        obtain ⟨rfl, htodo⟩ := List.cons.inj hsplit
        rw [List.append_cons]
        exact hrest before h after htodo
    rw [leaveBroken]
    split
    · rename_i hintact
      obtain ⟨broken, hsub, heq, hall⟩ := ih (done ++ [e]) i
      exact ⟨broken, fun h hh => List.mem_cons_of_mem _ (hsub hh), heq, hsplits (.inr hintact) hall⟩
    · obtain ⟨broken, hsub, heq, hall⟩ := ih (done ++ [e]) (i.leave (leafOf clusterSize u e))
      refine ⟨e :: broken, List.cons_subset_cons _ hsub, by rw [heq]; rfl,
        hsplits (.inl List.mem_cons_self) fun before h after hsplit => ?_⟩
      exact (hall before h after hsplit).imp_left (List.mem_cons_of_mem _)

/-! ## What loading leaves behind -/

/-- Nothing is lost: the busy views are the ones of the entries, the others are idle and clear on
the disk, no element is wild, and closing leaves managers that are not in use; and nothing that is
undefined was done until then. -/
structure Settled (u : List (List UInt8)) (s : Fs) : Prop where
  busy : s.vol.busy.Perm (s.entries ++ s.entries.flatMap fun h => (s.heads h).elements)
  idle : ∀ v ∈ viewIds u.length, v ∉ s.vol.busy →
    v ∈ s.vol.idle ∧ hdr s.vol.io.cache.flushBufferAll.hard.file v = .zero
  wild : s.wild = [] ∧ s.countOfWildEntriesElement = 0
  close : (evfsClose s).2.Cleared

section Whole

variable {hard : Hard} {u : List (List UInt8)} {clusterSize : Nat} {s s₀ : Fs}

/-- The keys of the heads end in their buffers. -/
def Ended (clusterSize : Nat) (u : List (List UInt8)) : Prop :=
  ∀ h ∈ tableHeads u, 0 ∈ keyOf clusterSize u h

instance (clusterSize : Nat) (u : List (List UInt8)) : Decidable (Ended clusterSize u) :=
  inferInstanceAs (Decidable (∀ _ ∈ _, _))

theorem Sound.cleared (h : Sound u [] s) (ht : Tracked clusterSize u s (loadedIndex clusterSize u))
    (hended : Ended clusterSize u) (hheads : ∀ e ∈ s.entries, e ∈ tableHeads u)
    (hwild : s.wild = []) : (evfsClose s).2.Cleared := by
  have hcounted : s.vol.Counted := by
    refine ⟨fun hle => ?_, h.vol.countIdle, h.vol.countBusy, h.vol.tree, fun v => ?_⟩
    · have hnil : (s.vol.idle ++ s.vol.busy) = [] := by
        rw [List.eq_nil_iff_forall_not_mem]
        intro v hv
        have := mem_viewIds.mp (h.vol.perm.mem_iff.mp hv)
        rw [h.vol.total] at hle
        omega
      exact List.append_eq_nil_iff.mp hnil
    · rw [h.vol.mem_tree, ← h.vol.perm.mem_iff, List.mem_append]
  obtain ⟨hleaves, hcomparable⟩ := loadedIndex_terminated hended
  have hdefined := ht.defined_iff.mpr hcomparable
  rw [← ht.index] at hleaves
  have hstart : Closing s s.entries s :=
    ⟨rfl, rfl, fun _ _ => rfl, h.tree, h.mem_tree, h.countOfEntries, hleaves, rfl, rfl, rfl⟩
  have hc := closing_foldl s.entries hstart h.nodup_entries fun e he =>
    ⟨by rw [ht.keys e he]; exact hended e (hheads e he), h.unused e he⟩
  have hio : (entriesUninit s).vol.io = s.vol.io := (viewUninit_io _).trans (by rw [hc.vol])
  refine ⟨clean_viewUninit hcounted hc hwild (h.countOfWild.trans (by rw [hwild]; rfl)), hc.leaves,
    ?_, hc.fault.trans hdefined.2⟩
  show (entriesUninit s).vol.io.fault = false
  rw [hio]
  exact hdefined.1

/-- The header of a view that is idle in the end. -/
theorem Sound.idle_hdr (h : Sound u [] s) {v : Int} (hv : v ∈ s.vol.idle) :
    hdr s.vol.io.cache.flushBufferAll.hard.file v = idleHdr u [] v := by
  obtain ⟨u', hsim, -, hidle⟩ := h.vol.disk
  rw [hsim.flushBufferAll.2]
  exact hidle v hv

/-- If nothing undefined was done, not even by closing, the keys end in their buffers. -/
theorem Sound.ended (h : Sound u [] s) (hentries : s.entries ⊆ tableHeads u)
    (hsurvives : ∀ before e after, tableHeads u = before ++ e :: after →
      (e ∈ s.entries ↔ Intact u before e))
    (ht : Tracked clusterSize u s (loadedIndex clusterSize u))
    (hlen : ∀ e ∈ tableHeads u, (keyOf clusterSize u e).length = maxEntryNameLength)
    (hdefined : (evfsClose s).2.Defined) : Ended clusterSize u := by
  obtain ⟨broken, hsub, hbroken, hall⟩ := leaveBroken_eq clusterSize u (tableHeads u) []
    ((tableHeads u).foldl (fun i e => i.enter (leafOf clusterSize u e)) .empty)
  have hkeys : (s.entries.map fun e => (⟨(s.heads e).key, e⟩ : NamedLeaf)) =
      s.entries.map (leafOf clusterSize u) :=
    List.map_congr_left fun e he => by rw [ht.keys e he, leafOf]
  have hindex : (evfsClose s).2.nameIndex = _ :=
    uninit_nameIndex s.entries h.nodup_entries fun e he => (h.unused e he).1
  have henters : (tableHeads u).foldl (fun i e => i.enter (leafOf clusterSize u e)) .empty =
      ((tableHeads u).map (leafOf clusterSize u)).foldl NameIndex.enter .empty := by
    rw [List.foldl_map]
  rw [ht.index, loadedIndex, hbroken, hkeys, henters, ← List.foldl_append] at hindex
  have hlengths : ∀ l ⊆ tableHeads u, ∀ x ∈ l.map (leafOf clusterSize u),
      x.key.length = maxEntryNameLength := by
    intro l hl x hx
    obtain ⟨e, he, rfl⟩ := List.mem_map.mp hx
    exact hlen e (hl he)
  have hsurvive : ∀ e ∈ tableHeads u, e ∈ broken ∨ e ∈ s.entries := by
    intro e he
    obtain ⟨before, after, hsplit⟩ := List.append_of_mem he
    refine (hall before e after hsplit).imp_right fun hintact => ?_
    exact (hsurvives before e after hsplit).mpr hintact
  intro e he
  have hleaves : ∀ x ∈ broken.map (leafOf clusterSize u) ++ s.entries.map (leafOf clusterSize u),
      x.key.length = maxEntryNameLength := by
    rw [← List.map_append]
    exact hlengths _ (List.append_subset.mpr ⟨hsub, hentries⟩)
  refine NameIndex.terminated_of_fault (hlengths _ (List.Subset.refl _)) hleaves (fun x hx => ?_)
    ?_ (leafOf clusterSize u e) (List.mem_map_of_mem he)
  · obtain ⟨e', he', rfl⟩ := List.mem_map.mp hx
    exact List.mem_append.mpr ((hsurvive e' he').imp List.mem_map_of_mem List.mem_map_of_mem)
  · rw [← hindex]
    exact hdefined.2

theorem Sound.settled (h : Sound u [] s) (hclose : (evfsClose s).2.Cleared) (hwild : s.wild = [])
    (hclear : ∀ v ∈ viewIds u.length, (hdr u v).looksLikeBusy = false → hdr u v = .zero) :
    Settled u s := by
  refine ⟨?_, fun v hv hbusy => ?_, ⟨hwild, h.countOfWild.trans (by rw [hwild]; rfl)⟩, hclose⟩
  · have howned := h.owned
    rw [Fs.owned, hwild, List.append_nil] at howned
    exact howned
  · have hidle : v ∈ s.vol.idle :=
      (List.mem_append.mp (h.vol.perm.mem_iff.mpr hv)).resolve_right hbusy
    refine ⟨hidle, ?_⟩
    rw [h.idle_hdr hidle, idleHdr]
    split
    · rfl
    · rename_i hno
      refine hclear v hv (Bool.eq_false_iff.mpr fun hlooks => hno ⟨hlooks, List.not_mem_nil⟩)

/-- The views are there, and none of them was looked at. -/
theorem Read.sound {cache : Cache} {vol : Vol} (hs : s₀.Clean) (r : Read cache s₀ vol)
    (hsim : Sim cache [] cache.hard.file) (hsize : sizeofCluster ≤ cache.hard.clusterSize)
    (hlen : (cache.hard.file.length : Int) = cache.hard.clusterCount) :
    Sound cache.hard.file (viewIds cache.hard.clusterCount) (s₀.setVol vol) := by
  have hidle : vol.idle = viewIds cache.hard.clusterCount := by
    rw [r.grown.idle, viewIds_eq_nextIds, hs.idle]
    rfl
  have hbusy : vol.busy = [] := r.grown.busy.trans hs.busy
  obtain ⟨htree, hmem⟩ := r.tree hs
  refine ⟨⟨?_, ?_, ⟨cache.hard.file, ?_, rfl, fun v hv => ?_⟩, ?_, ?_, fun v hv => ?_,
    ?_, ?_, htree,
    fun v => ?_⟩, ?_, fun e he => ?_, ?_, fun v => ?_, ?_, ?_⟩
  · show vol.io.allocFaults = []
    rw [r.grown.io]
  · show sizeofCluster ≤ vol.io.cache.hard.clusterSize
    rw [r.grown.io]
    exact hsize
  · show Sim vol.io.cache [] _
    rw [r.grown.io]
    exact hsim
  · rw [idleHdr, if_neg]
    rintro ⟨-, hno⟩
    exact hno (hidle ▸ hv)
  · show vol.totalClusterCount = _
    rw [r.grown.total, hlen]
  · show (vol.idle ++ vol.busy).Perm _
    rw [hidle, hbusy, List.append_nil, hlen]
  · have hv' : v ∈ vol.busy := hv
    rw [hbusy] at hv'
    cases hv'
  · show vol.countOfIdleViews = vol.idle.length
    rw [r.grown.countIdle, r.grown.idle, nextIds, List.length_append, List.length_map,
      List.length_range, hs.idle, hs.countIdle]
    exact (Int.natCast_add 0 _).symm
  · show vol.countOfBusyViews = vol.busy.length
    rw [r.grown.countBusy, r.grown.busy]
    exact hs.countBusy.trans (by rw [hs.busy]; rfl)
  · rw [hlen]
    exact hmem v
  · show vol.busy.Perm (s₀.entries ++ s₀.entries.flatMap
        (fun h => (s₀.heads h).elements) ++ s₀.wild)
    rw [hbusy, hs.entries, hs.wild]
    exact .nil
  · rw [show (s₀.setVol vol).entries = s₀.entries from rfl, hs.entries] at he
    cases he
  · exact hs.wf_tree
  · exact hs.mem_tree v
  · exact hs.countOfEntries.trans (by rw [show (s₀.setVol vol).entries = [] from hs.entries]; rfl)
  · exact hs.countOfWild.trans (by rw [show (s₀.setVol vol).wild = [] from hs.wild]; rfl)

/-- Loading, up to the elements that are left over. -/
theorem entriesLoad_sound (garbage : Garbage) (hwf : hard.Wf)
    (hlen : (hard.file.length : Int) = hard.clusterCount)
    (hsize : sizeofCluster + maxEntryNameLength ≤ hard.clusterSize) (cacheBlockNum : Nat) :
    ∃ s, Linking hard.file (tableHeads hard.file) [] s ∧ Sound hard.file [] s ∧
      Tracked hard.clusterSize hard.file s (loadedIndex hard.clusterSize hard.file) ∧
      entriesLoad garbage (Fs.init.mount garbage hard cacheBlockNum []) =
        ((s.wild.foldlM (freeWild garbage) s).map fun s =>
          { s with maxDataSegSize := s.vol.maxDataSegSize }).map fun s => (0, s) := by
  obtain ⟨cache, vol, s, rfl, hsim, r, hfold, hs, htracked, hload⟩ :=
    entriesLoad_linking garbage hwf hlen hsize cacheBlockNum
  have hfirst := r.recognized clean_init hlen
  have hsound := sound_foldl _ (r.sound clean_init hsim (by omega) hlen) hfirst (nodup_viewIds _)
  have hrec := recognized_foldl _ hfirst (nodup_viewIds _)
  rw [List.nil_append, ← hlen] at hrec
  rw [← hlen] at hsound hfold
  have hsized := hsound.sized cache.hard
  exact ⟨s, hs, sound_foldlM _ hsized (hrec.sized cache.hard).linking hfold, htracked, hload⟩

theorem Sound.setMax (h : Sound u [] s) (maxDataSegSize : Int) :
    Sound u [] { s with maxDataSegSize } :=
  ⟨h.vol, h.owned, h.unused, h.tree, h.mem_tree, h.countOfEntries, h.countOfWild⟩

theorem length_keyOf (hu : ∀ b ∈ u, b.length = clusterSize)
    (hsize : sizeofCluster + maxEntryNameLength ≤ clusterSize) {e : Int} (he : e ∈ viewIds u.length) :
    (keyOf clusterSize u e).length = maxEntryNameLength := by
  obtain ⟨h₁, h₂⟩ := mem_viewIds.mp he
  have hlt : e.toNat < u.length := by omega
  have hmem : u.getD e.toNat [] ∈ u := by
    rw [List.getD_eq_getElem?_getD, List.getElem?_eq_getElem hlt, Option.getD_some]
    exact List.getElem_mem hlt
  rw [keyOf, udata_eq hlt, List.length_take, List.length_drop, hu _ hmem]
  omega

/-- **No cluster is lost by loading** exactly when a head leads to every element, the headers of the
other clusters are clear, and the keys of the heads end in their buffers. -/
theorem entriesLoad_settled_iff (hwf : hard.Wf)
    (hlen : (hard.file.length : Int) = hard.clusterCount)
    (hsize : sizeofCluster + sizeofHrd ≤ hard.clusterSize) (cacheBlockNum : Nat) :
    (∀ garbage, ∃ s, entriesLoad garbage (Fs.init.mount garbage hard cacheBlockNum []) =
        some (0, s) ∧ Settled hard.file s) ↔
      (∀ e ∈ tableElements hard.file, ∃ h ∈ tableHeads hard.file, Leads hard.file h e) ∧
      (∀ v ∈ viewIds hard.file.length,
        (hdr hard.file v).looksLikeBusy = false → hdr hard.file v = .zero) ∧
      Ended hard.clusterSize hard.file := by
  have hfit : sizeofCluster + maxEntryNameLength ≤ hard.clusterSize :=
    Nat.le_trans (by decide) hsize
  constructor
  · intro hall
    obtain ⟨s, hs, hsound, ht, hload⟩ := entriesLoad_sound .stray hwf hlen hfit cacheBlockNum
    obtain ⟨s', hsome, hsettled⟩ := hall .stray
    have hwhole : ∀ e ∈ tableElements hard.file, ∃ h ∈ tableHeads hard.file,
        Leads hard.file h e := by
      intro e he
      by_contra hno
      rw [hload, hs.stray ((hs.wild e).mpr ⟨he, hno⟩)] at hsome
      cases hsome
    rw [hload, (hs.freeWild_foldlM hwhole .stray).2] at hsome
    cases hsome
    refine ⟨hwhole, fun v hv hfree => ?_, ?_⟩
    · -- a view that does not look busy is idle, with the header that it had
      have hbusy : v ∉ s.vol.busy := fun hmem => by
        rw [hsound.vol.looks v hmem] at hfree
        cases hfree
      obtain ⟨hidle, hzero⟩ := hsettled.idle v hv hbusy
      rw [hsound.idle_hdr hidle, idleHdr, if_neg (fun h => by rw [hfree] at h; cases h.1)] at hzero
      exact hzero
    · exact (hsound.setMax s.vol.maxDataSegSize).ended hs.entries hs.survives
        ⟨ht.index, ht.keys, ht.io⟩ (fun e he => length_keyOf hwf.length_cluster hfit (mem_tableHeads.mp he).1) hsettled.close.defined
  · rintro ⟨hwhole, hclear, hended⟩ garbage
    obtain ⟨s, hs, hsound, ht, hload⟩ := entriesLoad_sound garbage hwf hlen hfit cacheBlockNum
    obtain ⟨hnil, hfold⟩ := hs.freeWild_foldlM hwhole garbage
    refine ⟨_, ?_, (hsound.setMax s.vol.maxDataSegSize).settled ?_ hnil hclear⟩
    · rw [hload, hfold]
      rfl
    · exact (hsound.setMax s.vol.maxDataSegSize).cleared ⟨ht.index, ht.keys, ht.io⟩ hended
        hs.entries hnil

/-- The clusters of the broken chain are idle and clear. -/
theorem entriesLoad_settled_twoChains :
    hardOpen (Hard.ofTable twoChains).file.flatten [] [] = some (.ok (Hard.ofTable twoChains)) ∧
    ∃ s, entriesLoad .stray (Fs.init.mount .stray (Hard.ofTable twoChains) 0 []) = some (0, s) ∧
      Settled (Hard.ofTable twoChains).file s :=
  ⟨hardOpen_ofTable (by decide), (entriesLoad_settled_iff (wf_ofTable (by decide)) (length_ofTable _)
    (by decide) 0).mpr ⟨fun _ => leads_twoChains, by decide, keys_twoChains⟩ .stray⟩

/-- No head leads to the element 1, and its pointer is null: it is busy, and belongs to nobody. -/
theorem entriesLoad_not_settled : ∃ s,
    evfsOpen ⟨fun _ => [], fun _ => .zero, .zero, fun _ => .none⟩ Fs.init
      (Hard.ofTable [⟨10, 0, 2⟩]).file.flatten 0 [] [] [] = some (0, s) ∧
    s.entries = [] ∧ s.vol.busy = [1] ∧ s.vol.idle = [] ∧
      ¬Settled (Hard.ofTable [⟨10, 0, 2⟩]).file s := by
  rw [evfsOpen, hardOpen_ofTable (by decide)]
  exact ⟨_, rfl, rfl, rfl, rfl, fun h => absurd h.wild.1 (List.cons_ne_nil _ _)⟩

end Whole

end Evfs

end LibNax
