import LibNax.Evfs.Names
import LibNax.Evfs.Stored

/-!
# Loading a file system that is in order

What `evfs_open` makes of the file that `evfs_close` has left: the same entries, with the same
clusters in the same order and the same keys.

That every chain is whole follows from the invariant of the open file system.  `Space` says of
every view that it is idle, a head, or an element of one entry, with the links and the numbers of
the heads in the headers; `Mirror` says that the disk has these headers.  So the heads and elements
that the loader sees by the headers alone are those that there were (`mem_tableHeads`,
`mem_tableElements`), the links of a chain lead from its head to its end (`Space.walk`), and a head
leads to its own elements only (`Space.leads`).  Two walks from one head that end are the same
(`walk_unique`), so that the loader finds the chain of before.

The general theorems on loading speak of places only: which view is a head, an element or idle.
Here the rest has to come out right, too, and this is `Found`, carried along the loop over the
views: the lists of the view layer, the tree of the entries, and that nothing was changed on the
disk.  The last point takes an argument, since making a head writes its header, with its own number
as the head: on a file in order this is the header that is there already (`Sim.writeHead_self`).

The order of the entries in the list is not the one of before, but that of the numbers of their
heads.  So the two file systems are not equal, and `Reloaded` says what is the same: the entries as
a set, their elements in order, the headers, and the disk.  All that can be asked of an entry
depends on these.

* `Space.mem_tableHeads`, `Space.walk`, `Space.intact` — the headers of a file system that is in
  order.
* `Found` — what the loop over the views finds, beyond the places of the views.
* `Reloaded` — the same entries, as the two managers hold them.
* `Opened` — what the managers hold when the chains were followed, and that it is `Reloaded`.
* `evfsOpen_reloaded` — opening.
-/

set_option autoImplicit false

namespace LibNax

namespace Evfs

open Lib (Walk Reach Run int32 le32 unle32 slice overwrite)

/-! ## The headers of a file system in order -/

section Table

variable {s : Fs} {u : List (List UInt8)} {e v : Int}

namespace Space

theorem hdr_eq (h : Space s []) (m : Mirror s.vol u) (he : e ∈ s.entries) (hv : v ∈ s.chain e) :
    hdr u v = s.vol.cluster v :=
  m.busy v (h.mem_busy he hv)

theorem mem_viewIds_of_chain (h : Space s []) (m : Mirror s.vol u) (he : e ∈ s.entries)
    (hv : v ∈ s.chain e) : v ∈ viewIds u.length := by
  have := h.vol.mem_busy (h.mem_busy he hv)
  rw [mem_viewIds, m.length]
  exact this

/-- A view of the file is idle, a head, or an element. -/
theorem place (h : Space s []) (m : Mirror s.vol u) (hv : v ∈ viewIds u.length) :
    v ∈ s.vol.idle ∨ v ∈ s.entries ∨ ∃ e ∈ s.entries, v ∈ (s.heads e).elements := by
  rw [mem_viewIds, m.length] at hv
  rcases h.vol.mem_iff.mpr hv with hidle | hbusy
  · exact .inl hidle
  · obtain ⟨e, he, hmem⟩ := List.mem_flatMap.mp (h.owned.mem_iff.mp hbusy)
    rcases List.mem_cons.mp hmem with rfl | hmem
    · exact .inr (.inl he)
    · exact .inr (.inr ⟨e, he, hmem⟩)

theorem looksLikeHead (h : Space s []) (m : Mirror s.vol u) (he : e ∈ s.entries) :
    (hdr u e).looksLikeHead = true := by
  rw [h.hdr_eq m he List.mem_cons_self, Cluster.looksLikeHead, decide_eq_true_eq]
  exact (h.entry e he).headSize.1

theorem looksLikeElement (h : Space s []) (m : Mirror s.vol u) (he : e ∈ s.entries)
    (hv : v ∈ (s.heads e).elements) : (hdr u v).looksLikeElement = true := by
  have hmem : v ∈ s.chain e := List.mem_cons_of_mem _ hv
  have hpos := (h.vol.mem_busy (h.mem_busy he List.mem_cons_self)).1
  have hsize := (h.entry e he).elementSize v hv
  have hid := (h.entry e he).headId v hmem
  rw [h.hdr_eq m he hmem, Cluster.looksLikeElement, Bool.and_eq_true, Bool.not_eq_true',
    Cluster.looksLikeBusy, Cluster.looksLikeHead, decide_eq_true_eq, decide_eq_false_iff_not]
  omega

theorem mem_tableHeads (h : Space s []) (m : Mirror s.vol u) :
    v ∈ tableHeads u ↔ v ∈ s.entries := by
  rw [Evfs.mem_tableHeads]
  constructor
  · rintro ⟨hv, hhead⟩
    rcases h.place m hv with hidle | he | ⟨e, he, hmem⟩
    · rw [m.idle v hidle] at hhead
      cases hhead
    · exact he
    · have := h.looksLikeElement m he hmem
      rw [Cluster.looksLikeElement, hhead, Bool.not_true, Bool.and_false] at this
      cases this
  · exact fun he => ⟨h.mem_viewIds_of_chain m he List.mem_cons_self, h.looksLikeHead m he⟩

theorem mem_tableElements (h : Space s []) (m : Mirror s.vol u) :
    v ∈ tableElements u ↔ ∃ e ∈ s.entries, v ∈ (s.heads e).elements := by
  rw [Evfs.mem_tableElements]
  constructor
  · rintro ⟨hv, helement⟩
    rcases h.place m hv with hidle | he | hmem
    · rw [m.idle v hidle] at helement
      cases helement
    · rw [Cluster.looksLikeElement, h.looksLikeHead m he, Bool.not_true, Bool.and_false] at helement
      cases helement
    · exact hmem
  · rintro ⟨e, he, hmem⟩
    exact ⟨h.mem_viewIds_of_chain m he (List.mem_cons_of_mem _ hmem), h.looksLikeElement m he hmem⟩

theorem mem_busy_iff (h : Space s []) (m : Mirror s.vol u) :
    v ∈ s.vol.busy ↔ v ∈ viewIds u.length ∧ (hdr u v).looksLikeBusy = true := by
  constructor
  · intro hv
    obtain ⟨e, he, hmem⟩ := List.mem_flatMap.mp (h.owned.mem_iff.mp hv)
    refine ⟨h.mem_viewIds_of_chain m he hmem, ?_⟩
    rcases List.mem_cons.mp hmem with rfl | hmem
    · exact looksLikeBusy_of_head (h.looksLikeHead m he)
    · have := h.looksLikeElement m he hmem
      rw [Cluster.looksLikeElement, Bool.and_eq_true] at this
      exact this.1
  · rintro ⟨hv, hbusy⟩
    rcases h.place m hv with hidle | he | ⟨e, he, hmem⟩
    · rw [m.idle v hidle] at hbusy
      cases hbusy
    · exact h.mem_busy he List.mem_cons_self
    · exact h.mem_busy he (List.mem_cons_of_mem _ hmem)

theorem mem_idle_iff (h : Space s []) (m : Mirror s.vol u) :
    v ∈ s.vol.idle ↔ v ∈ viewIds u.length ∧ (hdr u v).looksLikeBusy = false := by
  have hmem := h.vol.mem_iff (v := v)
  rw [← mem_viewIds, ← m.length] at hmem
  have hbusy := h.mem_busy_iff m (v := v)
  have hdisj := h.vol.busy_notMem_idle (v := v)
  rw [← Bool.not_eq_true]
  tauto

end Space

/-- The links of a chain, as a walk. -/
theorem Linked.walk {cluster : Int → Cluster} {next : Int → Int} {views : List Int} : ∀ {v : Int},
    (∀ w ∈ v :: views, next w = (cluster w).nextClusterId) → Linked cluster v views →
      Walk next (next v) views 0 := by
  induction views with
  | nil =>
    intro v hnext hl
    exact (hnext v List.mem_cons_self).trans hl
  | cons w views ih =>
    intro v hnext hl
    exact ⟨(hnext v List.mem_cons_self).trans hl.1,
      ih (fun x hx => hnext x (List.mem_cons_of_mem _ hx)) hl.2⟩

theorem Space.walk (h : Space s []) (m : Mirror s.vol u) (he : e ∈ s.entries) :
    Walk (tableNext u) (tableNext u e) (s.heads e).elements 0 :=
  (h.entry e he).linked.walk fun w hw => by rw [tableNext, h.hdr_eq m he hw]

/-- A head leads to its own elements only. -/
theorem Space.leads (h : Space s []) (m : Mirror s.vol u) (he : e ∈ s.entries)
    (hlead : Leads u e v) : v ∈ (s.heads e).elements := by
  have hzero : (0 : Int) ∉ tableElements u := fun hmem => by
    have := pos_of_mem_tableElements hmem
    omega
  refine hlead.of_closed (S := fun v => v ∈ (s.heads e).elements) (fun w hw hok => ?_) fun hok => ?_
  · rcases (h.walk m he).next_mem w hw with hmem | heq
    · exact hmem
    · rw [heq] at hok
      exact absurd hok hzero
  · rcases (h.walk m he).start with hmem | heq
    · exact hmem
    · rw [heq] at hok
      exact absurd hok hzero

/-- Every head has a whole chain. -/
theorem Space.intact (h : Space s []) (m : Mirror s.vol u) {before after : List Int}
    (hsplit : tableHeads u = before ++ e :: after) : Intact u before e := by
  have hmem : ∀ g, g ∈ before ++ e :: after → g ∈ s.entries := fun g hg =>
    (h.mem_tableHeads m).mp (hsplit ▸ hg)
  have he : e ∈ s.entries := hmem e (List.mem_append_right _ List.mem_cons_self)
  have hnd := nodup_tableHeads u
  rw [hsplit] at hnd
  refine ⟨(s.heads e).elements, 0, h.walk m he, Int.le_refl 0, fun v hv =>
    ⟨(h.mem_tableElements m).mpr ⟨e, he, hv⟩, ?_⟩⟩
  rintro ⟨g, hg, hlead⟩
  have hg' : g ∈ s.entries := hmem g (List.mem_append_left _ hg)
  have hne : e ≠ g := by
    rintro rfl
    exact List.disjoint_of_nodup_append hnd hg List.mem_cons_self
  exact h.chain_disjoint he hg' hne (List.mem_cons_of_mem _ hv)
    (List.mem_cons_of_mem _ (h.leads m hg' hlead))

/-- Every element is on the chain of a head. -/
theorem Space.taken (h : Space s []) (m : Mirror s.vol u) (hv : v ∈ tableElements u) :
    Taken u (tableHeads u) v := by
  obtain ⟨e, he, hmem⟩ := (h.mem_tableElements m).mp hv
  refine ⟨e, (h.mem_tableHeads m).mpr he, ?_⟩
  exact (h.walk m he).reach (fun w hw => (h.mem_tableElements m).mpr ⟨e, he, hw⟩) v hmem

end Table

/-! ## Writing a header again -/

section Header

variable {u : List (List UInt8)} {v : Int}

/-- The four bytes of the `int` that lies in them. -/
theorem le32_unle32 {l : List UInt8} (hl : 4 ≤ l.length) : le32 (unle32 l) = l.take 4 := by
  match l, hl with
  | a :: b :: c :: d :: rest, _ =>
    have h₁ := a.toNat_lt
    have h₂ := b.toNat_lt
    have h₃ := c.toNat_lt
    have h₄ := d.toNat_lt
    have hn : (unle32 (a :: b :: c :: d :: rest) % 2 ^ 32).toNat =
        a.toNat + b.toNat * 2 ^ 8 + c.toNat * 2 ^ 16 + d.toNat * 2 ^ 24 := by
      rw [unle32, int32, Int.bmod_def]
      split
      · omega
      · omega
    rw [le32, hn]
    simp only [List.take_succ_cons, List.take_zero, List.cons.injEq, and_true, ← UInt8.toNat_inj,
      UInt8.toNat_ofNat']
    omega

/-- The header of a cluster, written over itself. -/
theorem overwrite_hdr (b : List UInt8) (hb : sizeofCluster ≤ b.length) :
    overwrite b 0 (Cluster.ofBytes b).bytes = b := by
  rw [sizeofCluster] at hb
  rw [overwrite, List.take_zero, List.nil_append, Cluster.length_bytes, sizeofCluster,
    Cluster.bytes,
    Cluster.ofBytes]
  simp only
  rw [le32_unle32 (by omega), le32_unle32 (by rw [List.length_drop]; omega),
    le32_unle32 (by rw [List.length_drop]; omega), ← List.take_add, ← List.take_add]
  exact List.take_append_drop 12 b

/-- Writing the header that a cluster has changes nothing. -/
theorem Sim.writeHead_self {io : Io} (h : Sim io.cache [] u) (ha : io.allocFaults = []) (hv : 1 ≤ v)
    (hv' : v < u.length) (hsize : sizeofCluster ≤ io.cache.hard.clusterSize) :
    Sim (cacheWriteHead io v (hdr u v)).2.cache [] u := by
  have hlt : v.toNat < u.length := by omega
  have hmem : (u.getD v.toNat []) ∈ u := by
    rw [List.getD_eq_getElem?_getD, List.getElem?_eq_getElem hlt, Option.getD_some]
    exact List.getElem_mem hlt
  have hfit : 0 + (hdr u v).bytes.length ≤ io.cache.hard.clusterSize := by
    rw [Cluster.length_bytes]
    omega
  have hwrite := (h.cacheWrite ha hv hv' 0 hfit).2
  rw [hdr, overwrite_hdr _ (by rw [h.sizes _ hmem]; exact hsize)] at hwrite
  have hset : u.set v.toNat (u.getD v.toNat []) = u := by
    rw [List.getD_eq_getElem?_getD, List.getElem?_eq_getElem hlt, Option.getD_some,
      List.set_getElem_self]
  rw [hset] at hwrite
  exact hwrite

end Header

/-! ## Reading the entries -/

/-- The loop over the views of a file whose heads hold their own numbers: the views `done` were
looked at, and nothing was written that was not there. -/
structure Found (u : List (List UInt8)) (base : Vol) (done : List Int) (s : Fs) : Prop where
  cluster : ∀ v ∈ viewIds u.length, s.vol.cluster v = hdr u v
  sim : Sim s.vol.io.cache [] u
  keeps : base.io.Keeps s.vol.io
  busy : s.vol.busy = done.filter fun v => (hdr u v).looksLikeBusy
  countBusy : s.vol.countOfBusyViews = s.vol.busy.length
  countIdle : s.vol.countOfIdleViews = s.vol.idle.length
  viewTree : s.vol.rootOfViewTree = base.rootOfViewTree
  keys : ∀ e ∈ s.entries, (s.heads e).key = keyOf base.io.cache.hard.clusterSize u e
  tree : Avl.Wf (id : Int → Int) s.rootOfEntriesTree
  mem_tree : ∀ v, v ∈ Avl.toList s.rootOfEntriesTree ↔ v ∈ s.entries
  leaves : s.Terminated
  countOfEntries : s.countOfEntries = s.entries.length
  countOfWild : s.countOfWildEntriesElement = s.wild.length
  fault : s.fault = false

/-- The heads on the disk hold their own numbers, and their keys end in their buffers. -/
def SoundHeads (clusterSize : Nat) (u : List (List UInt8)) : Prop :=
  ∀ v ∈ tableHeads u, (hdr u v).headClusterId = v ∧ 0 ∈ keyOf clusterSize u v

section Find

variable {u : List (List UInt8)} {base : Vol} {done todo : List Int} {s : Fs} {v : Int}

theorem length_idle_erase (h : Recognized u done (v :: todo) s) :
    ((s.vol.idle.erase v).length : Int) = s.vol.idle.length - 1 := by
  have hmem : v ∈ s.vol.idle := by
    rw [h.idle]
    exact List.mem_append_right _ List.mem_cons_self
  have := List.length_pos_of_mem hmem
  rw [List.length_erase_of_mem hmem]
  omega

theorem Found.skip (h : Found u base done s) (hbusy : (hdr u v).looksLikeBusy = false) :
    Found u base (done ++ [v]) s := by
  refine { h with busy := ?_ }
  rw [filter_concat, hbusy, h.busy]
  exact (List.append_nil _).symm

theorem Found.element (h : Found u base done s) (hr : Recognized u done (v :: todo) s)
    (hbusy : (hdr u v).looksLikeBusy = true) : Found u base (done ++ [v]) { s.toBusy v with
      wild := s.wild ++ [v], countOfWildEntriesElement := s.countOfWildEntriesElement + 1 } := by
  refine ⟨h.cluster, h.sim, h.keeps, ?_, ?_, ?_, h.viewTree, h.keys, h.tree, h.mem_tree,
    h.leaves, h.countOfEntries, ?_, h.fault⟩
  · rw [filter_concat, hbusy, ← h.busy]
    rfl
  · show s.vol.countOfBusyViews + 1 = ((s.vol.busy ++ [v]).length : Int)
    rw [h.countBusy, List.length_append, List.length_singleton]
    omega
  · show s.vol.countOfIdleViews - 1 = ((s.vol.idle.erase v).length : Int)
    rw [length_idle_erase hr, h.countIdle]
  · show s.countOfWildEntriesElement + 1 = ((s.wild ++ [v]).length : Int)
    rw [h.countOfWild, List.length_append, List.length_singleton]
    omega

/-- A new entry in the tree of the entries. -/
theorem mem_tree_insert {t : Avl.Tree Int} {entries : List Int} {v : Int}
    (hsorted : Avl.Sorted (id : Int → Int) t) (hmem : ∀ w, w ∈ Avl.toList t ↔ w ∈ entries)
    (hnew : v ∉ entries) (w : Int) :
    w ∈ Avl.toList (Avl.avlinsert viewCompare t v) ↔ w ∈ entries ++ [v] := by
  have hne : ∀ z ∈ Avl.toList t, id z ≠ id v := by
    rintro z hz rfl
    exact hnew ((hmem z).mp hz)
  rw [Avl.mem_toList_avlinsert orders_viewCompare hsorted hne, hmem, List.mem_append,
    List.mem_singleton, or_comm]

@[simp] theorem insertHead_tree (s : Fs) (e : Int) : (insertHead s e).rootOfEntriesTree =
    Avl.avlinsert compareEntryHead s.rootOfEntriesTree e := by
  rw [insertHead]
  simp only
  split
  · rfl
  · rfl

@[simp] theorem insertHead_count (s : Fs) (e : Int) :
    (insertHead s e).countOfEntries = s.countOfEntries + 1 := by
  rw [insertHead]
  simp only
  split
  · rfl
  · rfl

/-- The entries are counted. -/
theorem insertHead_counted (e : Int) (h : s.countOfEntries = (s.entries.length : Int)) :
    (insertHead s e).countOfEntries = ((insertHead s e).entries.length : Int) := by
  rw [insertHead_count, insertHead_entries, h, List.length_append, List.length_singleton]
  omega

@[simp] theorem insertHead_countOfWild (s : Fs) (e : Int) :
    (insertHead s e).countOfWildEntriesElement = s.countOfWildEntriesElement := by
  rw [insertHead]
  simp only
  split
  · rfl
  · rfl

theorem Found.head (h : Found u base done s) (hr : Recognized u done (v :: todo) s)
    (hnew : v ∉ s.entries) (hbusy : (hdr u v).looksLikeBusy = true)
    (hkey : 0 ∈ keyOf base.io.cache.hard.clusterSize u v) {io : Io}
    (hsim : Sim io.cache [] u) (hk : base.io.Keeps io) :
    Found u base (done ++ [v]) (insertHead (((s.toBusy v).setVol { (s.toBusy v).vol with
      io }).setHead v (.found (keyOf base.io.cache.hard.clusterSize u v))) v) := by
  have hleaves : (((s.toBusy v).setVol { (s.toBusy v).vol with io }).setHead v
      (.found (keyOf base.io.cache.hard.clusterSize u v))).Terminated := h.leaves
  obtain ⟨hleaves', hfault⟩ := hleaves.insertHead (v := v) (by rw [setHead_heads_self]; exact hkey)
  refine ⟨?_, ?_, ?_, ?_, ?_, ?_, ?_, fun e he => ?_, ?_, fun w => ?_, hleaves', ?_, ?_,
    hfault.trans h.fault⟩
  · rw [insertHead_vol]
    exact h.cluster
  · rw [insertHead_vol]
    exact hsim
  · rw [insertHead_vol]
    exact hk
  · rw [insertHead_vol, filter_concat, hbusy, ← h.busy]
    rfl
  · rw [insertHead_vol]
    show s.vol.countOfBusyViews + 1 = ((s.vol.busy ++ [v]).length : Int)
    rw [h.countBusy, List.length_append, List.length_singleton]
    omega
  · rw [insertHead_vol]
    show s.vol.countOfIdleViews - 1 = ((s.vol.idle.erase v).length : Int)
    rw [length_idle_erase hr, h.countIdle]
  · rw [insertHead_vol]
    exact h.viewTree
  · rw [insertHead_heads]
    rw [insertHead_entries] at he
    by_cases hev : e = v
    · rw [hev, setHead_heads_self]
      rfl
    · rw [setHead_heads_ne _ hev]
      rcases List.mem_append.mp he with he | he
      · exact h.keys e he
      · exact absurd (List.mem_singleton.mp he) hev
  · rw [insertHead_tree]
    exact h.tree.avlinsert orders_viewCompare v
  · rw [insertHead_tree, insertHead_entries]
    exact mem_tree_insert h.tree.sorted h.mem_tree hnew w
  · exact insertHead_counted v h.countOfEntries
  · rw [insertHead_countOfWild, insertHead_wild]
    exact h.countOfWild

theorem Cluster.setHead_self {c : Cluster} (h : c.headClusterId = v) :
    ({ c with headClusterId := v } : Cluster) = c := by
  cases c
  cases h
  rfl

/-- A head is made, and its header is written as it was. -/
theorem allocHead_found (hcv : s.vol.cluster v = hdr u v) (hs : Sim s.vol.io.cache [] u)
    (hb : base.io.Keeps s.vol.io) (ha : s.vol.io.allocFaults = [])
    (htotal : 0 < s.vol.totalClusterCount) (hv : v ∈ viewIds u.length)
    (hhead : (hdr u v).looksLikeHead = true) (hself : (hdr u v).headClusterId = v)
    (hsize : sizeofCluster + maxEntryNameLength ≤ base.io.cache.hard.clusterSize) :
    ∃ io, Sim io.cache [] u ∧ base.io.Keeps io ∧ allocHead s v none =
      (true, (s.setVol { s.vol with io }).setHead v
        (.found (keyOf base.io.cache.hard.clusterSize u v))) := by
  obtain ⟨h₁, h₂⟩ := mem_viewIds.mp hv
  have hcs := hb.hard.clusterSize
  have hused : (s.vol.cluster v).dataSegSize ≠ 0 := by
    rw [Cluster.looksLikeHead, decide_eq_true_eq, ← hcv] at hhead
    omega
  obtain ⟨io, hsim, hk, hkey⟩ := loadKey_read hs ha htotal h₁ h₂ hused (by rw [hcs]; exact hsize)
  rw [hcs] at hkey
  have hcluster : ({ s.vol.cluster v with headClusterId := v } : Cluster) = hdr u v := by
    rw [hcv]
    exact Cluster.setHead_self hself
  have hupdate : Function.update s.vol.cluster v (hdr u v) = s.vol.cluster := by
    rw [← hcv, Function.update_eq_self]
  have halloc : s.alloc = (true, s) := by
    rw [Fs.alloc, Vol.alloc, Io.alloc_of_nil ha]
    rfl
  refine ⟨(cacheWriteHead io v (hdr u v)).2, hsim.writeHead_self (hk.allocFaults ha) h₁ h₂ ?_,
    hb.trans (hk.trans (cacheWriteHead_keeps _ _ _)), ?_⟩
  · rw [hk.hard.clusterSize, hb.hard.clusterSize]
    omega
  · rw [allocHead, halloc]
    simp only [if_true, hkey, viewSetHead, Vol.putCluster, Vol.setCluster, Vol.writeHead,
      Option.getD_none, hcluster, hupdate]
    rw [hcv]
    rfl

/-- What is done with a view: it is left alone, or it is a head, or an element of one. -/
theorem Found.recognizeView_cases (h : Found u base done s) (hr : Recognized u done (v :: todo) s)
    (hv : v ∈ viewIds u.length)
    (hself : (hdr u v).looksLikeHead = true → (hdr u v).headClusterId = v)
    (hsize : sizeofCluster + maxEntryNameLength ≤ base.io.cache.hard.clusterSize) :
    ((hdr u v).looksLikeBusy = false ∧ recognizeView s v = s) ∨
    ((hdr u v).looksLikeBusy = true ∧ (hdr u v).looksLikeHead = true ∧ ∃ io,
      Sim io.cache [] u ∧ base.io.Keeps io ∧ recognizeView s v =
        insertHead (((s.toBusy v).setVol { (s.toBusy v).vol with io }).setHead v
          (.found (keyOf base.io.cache.hard.clusterSize u v))) v) ∨
    ((hdr u v).looksLikeBusy = true ∧ recognizeView s v = { s.toBusy v with
      wild := s.wild ++ [v], countOfWildEntriesElement := s.countOfWildEntriesElement + 1 }) := by
  have hcv : s.vol.cluster v = hdr u v := h.cluster v hv
  cases hbusy : (hdr u v).looksLikeBusy with
  | false =>
    refine .inl ⟨rfl, ?_⟩
    rw [recognizeView, hcv, hbusy, if_neg Bool.false_ne_true]
  | true =>
    have heq : recognizeView s v = rawRecognize (s.toBusy v) v := by
      rw [recognizeView, hcv, hbusy, if_pos rfl]
      rfl
    have ha : (s.toBusy v).vol.io.allocFaults = [] := hr.allocFaults
    rw [heq, rawRecognize, show (s.toBusy v).vol.cluster v = hdr u v from hcv]
    refine .inr ?_
    cases hhead : (hdr u v).looksLikeHead with
    | true =>
      have htotal : 0 < (s.toBusy v).vol.totalClusterCount := by
        have := mem_viewIds.mp hv
        show 0 < s.vol.totalClusterCount
        rw [hr.total]
        omega
      obtain ⟨io, hsim, hk, halloc⟩ := allocHead_found (s := s.toBusy v) hcv h.sim h.keeps ha htotal
        hv hhead (hself hhead) hsize
      refine .inl ⟨rfl, rfl, io, hsim, hk, ?_⟩
      rw [halloc, if_pos rfl, if_pos rfl]
    | false =>
      have halloc : (s.toBusy v).alloc = (true, s.toBusy v) := by
        rw [Fs.alloc, Vol.alloc, Io.alloc_of_nil ha]
        rfl
      refine .inr ⟨rfl, ?_⟩
      rw [halloc, if_neg Bool.false_ne_true, if_pos rfl]
      rfl

theorem Recognized.new (hr : Recognized u done (v :: todo) s) (hnd : (done ++ v :: todo).Nodup) :
    v ∉ s.entries := fun hmem => by
  rw [hr.entries] at hmem
  exact (Recognized.notMem hnd).1 (List.mem_of_mem_filter hmem)

/-- One view is looked at. -/
theorem Found.step (h : Found u base done s) (hr : Recognized u done (v :: todo) s)
    (hnd : (done ++ v :: todo).Nodup) (hv : v ∈ viewIds u.length)
    (hsound : SoundHeads base.io.cache.hard.clusterSize u)
    (hsize : sizeofCluster + maxEntryNameLength ≤ base.io.cache.hard.clusterSize) :
    Found u base (done ++ [v]) (recognizeView s v) := by
  have hin := fun hhead => hsound v (mem_tableHeads.mpr ⟨hv, hhead⟩)
  rcases h.recognizeView_cases hr hv (fun hhead => (hin hhead).1) hsize with ⟨hbusy, heq⟩ |
    ⟨hbusy, hhead, io, hsim, hk, heq⟩ | ⟨hbusy, heq⟩
  · rw [heq]
    exact h.skip hbusy
  · rw [heq]
    exact h.head hr (hr.new hnd) hbusy (hin hhead).2 hsim hk
  · rw [heq]
    exact h.element hr hbusy

theorem found_foldl (hsound : SoundHeads base.io.cache.hard.clusterSize u)
    (hsize : sizeofCluster + maxEntryNameLength ≤ base.io.cache.hard.clusterSize)
    (todo : List Int) :
    ∀ {done : List Int} {s : Fs}, Found u base done s → Recognized u done todo s →
      (done ++ todo).Nodup → (∀ v ∈ todo, v ∈ viewIds u.length) →
        Found u base (done ++ todo) (todo.foldl recognizeView s) := by
  induction todo with
  | nil =>
    intro done s h _ _ _
    rw [List.append_nil]
    exact h
  | cons v todo ih =>
    intro done s h hr hnd hmem
    have hv := hmem v List.mem_cons_self
    have hnext := h.step hr hnd hv hsound hsize
    have hrnext := hr.step hnd
    rw [List.append_cons] at hnd ⊢
    exact ih hnext hrnext hnd fun w hw => hmem w (List.mem_cons_of_mem _ hw)

/-- No two heads on the disk have the same key. -/
def DistinctKeys (clusterSize : Nat) (u : List (List UInt8)) : Prop :=
  ∀ e ∈ tableHeads u, ∀ e' ∈ tableHeads u,
    nameOf (keyOf clusterSize u e) = nameOf (keyOf clusterSize u e') →
      nameOf (keyOf clusterSize u e) ≠ [] → e = e'

theorem Named.recognizeView (hn : Named s) (h : Found u base done s)
    (hr : Recognized u done (v :: todo) s) (hnd : (done ++ v :: todo).Nodup)
    (hmem : ∀ w ∈ done ++ v :: todo, w ∈ viewIds u.length)
    (hsound : SoundHeads base.io.cache.hard.clusterSize u)
    (hsize : sizeofCluster + maxEntryNameLength ≤ base.io.cache.hard.clusterSize)
    (hkeys : DistinctKeys base.io.cache.hard.clusterSize u) : Named (recognizeView s v) := by
  have hv := hmem v (List.mem_append_right _ List.mem_cons_self)
  have hnew := hr.new hnd
  have hself := fun hhead => (hsound v (mem_tableHeads.mpr ⟨hv, hhead⟩)).1
  rcases h.recognizeView_cases hr hv hself hsize with ⟨-, heq⟩ |
      ⟨-, hhead, io, -, -, heq⟩ | ⟨-, heq⟩
  · rw [heq]
    exact hn
  · rw [heq]
    have hold : ∀ e ∈ s.entries, (((s.toBusy v).setVol { (s.toBusy v).vol with io }).setHead v
        (.found (keyOf base.io.cache.hard.clusterSize u v))).heads e = s.heads e := fun e he =>
      setHead_heads_ne _ (ne_of_mem_of_not_mem he hnew) _
    refine Named.insert (hn.same ⟨rfl, rfl, fun e he => by rw [hold e he]⟩) fun e he hname => ?_
    have he' : e ∈ s.entries := he
    have htable : e ∈ tableHeads u := by
      rw [hr.entries, List.mem_filter] at he'
      exact mem_tableHeads.mpr ⟨hmem e (List.mem_append_left _ he'.1), he'.2⟩
    rw [Fs.name, hold e he', h.keys e he', Fs.name, setHead_heads_self] at hname
    rw [Fs.name, setHead_heads_self]
    by_contra hne
    have heq := hkeys e htable v (mem_tableHeads.mpr ⟨hv, hhead⟩) hname fun hnil =>
      hne (hname.symm.trans hnil)
    exact hnew (heq ▸ he')
  · rw [heq]
    exact hn.same ⟨rfl, rfl, fun _ _ => rfl⟩

theorem named_foldl (hsound : SoundHeads base.io.cache.hard.clusterSize u)
    (hsize : sizeofCluster + maxEntryNameLength ≤ base.io.cache.hard.clusterSize)
    (hkeys : DistinctKeys base.io.cache.hard.clusterSize u) (todo : List Int) :
    ∀ {done : List Int} {s : Fs}, Named s → Found u base done s → Recognized u done todo s →
      (done ++ todo).Nodup → (∀ v ∈ done ++ todo, v ∈ viewIds u.length) →
        Named (todo.foldl recognizeView s) := by
  induction todo with
  | nil => exact fun hn _ _ _ _ => hn
  | cons v todo ih =>
    intro done s hn h hr hnd hmem
    have hv := hmem v (List.mem_append_right _ List.mem_cons_self)
    have hnext := h.step hr hnd hv hsound hsize
    have hnamed := hn.recognizeView h hr hnd hmem hsound hsize hkeys
    have hrnext := hr.step hnd
    rw [List.append_cons] at hnd hmem
    exact ih hnamed hnext hrnext hnd hmem

end Find

/-! ## The managers after opening -/

section Open

variable {s s₀ s' : Fs} {u : List (List UInt8)} {cache : Cache} {vol : Vol}

theorem Read.tree (hs : s₀.Clean) (r : Read cache s₀ vol) :
    Avl.Wf (id : Int → Int) vol.rootOfViewTree ∧
      ∀ v, v ∈ Avl.toList vol.rootOfViewTree ↔ v ∈ viewIds cache.hard.clusterCount := by
  have hnil : ∀ v, v ∉ Avl.toList s₀.vol.rootOfViewTree := fun v hv => by
    rw [hs.viewTree] at hv
    cases hv
  obtain ⟨hwf, hmem⟩ := r.grown.tree (by
    show Avl.Wf id s₀.vol.rootOfViewTree
    rw [hs.viewTree]
    exact Avl.wf_nil) fun v hv => absurd hv (hnil v)
  refine ⟨hwf, fun v => ?_⟩
  rw [hmem, viewIds_eq_nextIds]
  exact ⟨fun h => h.resolve_left (hnil v), .inr⟩

/-- Nothing was found yet. -/
theorem Read.found (hs : s₀.Cleared) (r : Read cache s₀ vol) (hsim : Sim cache [] cache.hard.file)
    (hlen : (cache.hard.file.length : Int) = cache.hard.clusterCount) :
    Found cache.hard.file vol [] (s₀.setVol vol) := by
  obtain ⟨hs, hleaves, hdefined⟩ := hs
  refine ⟨fun v hv => r.cluster v (by rw [← hlen]; exact hv), ?_, .refl _, ?_, ?_, ?_, rfl,
    fun e he => ?_, ?_, fun v => ?_, hleaves, ?_, ?_, hdefined.2⟩
  · show Sim vol.io.cache [] _
    rw [r.grown.io]
    exact hsim
  · exact r.grown.busy.trans hs.busy
  · show vol.countOfBusyViews = vol.busy.length
    rw [r.grown.countBusy, r.grown.busy]
    exact hs.countBusy.trans (by rw [hs.busy]; rfl)
  · show vol.countOfIdleViews = vol.idle.length
    rw [r.grown.countIdle, r.grown.idle, nextIds, List.length_append, List.length_map,
      List.length_range, hs.idle, hs.countIdle]
    exact (Int.natCast_add 0 _).symm
  · rw [show (s₀.setVol vol).entries = s₀.entries from rfl, hs.entries] at he
    cases he
  · exact hs.wf_tree
  · exact hs.mem_tree v
  · exact hs.countOfEntries.trans (by rw [show (s₀.setVol vol).entries = [] from hs.entries]; rfl)
  · exact hs.countOfWild.trans (by rw [show (s₀.setVol vol).wild = [] from hs.wild]; rfl)

/-- The view layer, when all views were looked at. -/
theorem Found.wf {base : Vol} (h : Found u base (viewIds u.length) s)
    (hr : Recognized u (viewIds u.length) [] s) (hg : Geometry base.io.cache.hard)
    (hw : base.io.cache.hard.writeFaults = []) (hlen : (u.length : Int) = base.clusterCount)
    (hcount : 1 < u.length) (htree : Avl.Wf (id : Int → Int) base.rootOfViewTree)
    (hmem : ∀ v, v ∈ Avl.toList base.rootOfViewTree ↔ v ∈ viewIds base.clusterCount) :
    (s.sized base.io.cache.hard).vol.Wf := by
  have hperm : (s.vol.idle ++ s.vol.busy).Perm (viewIds base.clusterCount) := by
    rw [hr.idle, h.busy, List.append_nil, ← hlen]
    refine List.perm_append_comm.trans ?_
    exact List.filter_append_perm (fun v => (hdr u v).looksLikeBusy) _
  refine ⟨hr.allocFaults, h.keeps.hard.writeFaults hw, hg.keeps h.keeps.hard, ?_, ?_,
    ?_, h.countIdle,
    h.countBusy, ?_, fun v => ?_⟩
  · show 0 < s.vol.totalClusterCount
    rw [hr.total]
    omega
  · show (base.io.cache.hard.clusterSize : Int) = s.vol.io.cache.hard.clusterSize
    rw [h.keeps.hard.clusterSize]
  · show (s.vol.idle ++ s.vol.busy).Perm (viewIds s.vol.io.cache.hard.clusterCount)
    rw [h.keeps.hard.clusterCount]
    exact hperm
  · show Avl.Wf id s.vol.rootOfViewTree
    rw [h.viewTree]
    exact htree
  · show v ∈ Avl.toList s.vol.rootOfViewTree ↔ v ∈ s.vol.idle ∨ v ∈ s.vol.busy
    rw [h.viewTree, hmem, ← hperm.mem_iff, List.mem_append]

/-- The managers hold the same entries, and the disk the same clusters. -/
structure Reloaded (s : Fs) (u : List (List UInt8)) (s' : Fs) : Prop where
  space : Space s' []
  mirror : Mirror s'.vol u
  size : s'.vol.io.cache.hard.clusterSize = s.vol.io.cache.hard.clusterSize
  entries : ∀ e, e ∈ s'.entries ↔ e ∈ s.entries
  elements : ∀ e ∈ s.entries, (s'.heads e).elements = (s.heads e).elements
  key : ∀ e ∈ s.entries, (s'.heads e).key = (s.heads e).key
  cluster : ∀ e ∈ s.entries, ∀ v ∈ s.chain e, s'.vol.cluster v = s.vol.cluster v
  idle : s'.vol.countOfIdleViews = s.vol.countOfIdleViews
  busy : s'.vol.countOfBusyViews = s.vol.countOfBusyViews
  room : ∀ e, s'.RoomFor e

/-- The chain of a head is the only one. -/
theorem walk_unique {next : Int → Int} {l l' : List Int} {x x' y : Int} (h : Walk next y l x)
    (h' : Walk next y l' x') (hx : x ≤ 0) (hx' : x' ≤ 0) (hl : ∀ v ∈ l, 0 < v)
    (hl' : ∀ v ∈ l', 0 < v) : l = l' := by
  rcases h.append_or h' with ⟨m, rfl, hm⟩ | ⟨m, rfl, hm⟩
  · cases m with
    | nil => exact (List.append_nil _).symm
    | cons a m =>
      have := hl' a (List.mem_append_right _ List.mem_cons_self)
      have := hm.1
      omega
  · cases m with
    | nil => exact List.append_nil _
    | cons a m =>
      have := hl a (List.mem_append_right _ List.mem_cons_self)
      have := hm.1
      omega

/-- The heads of a file system in order are in order on the disk. -/
theorem Space.sound (hs : Space s []) (k : Keyed s u) : SoundHeads s.vol.io.cache.hard.clusterSize u := by
  intro v hv
  have he := (hs.mem_tableHeads k.mirror).mp hv
  rw [hs.hdr_eq k.mirror he List.mem_cons_self, k.key v he]
  exact ⟨(hs.entry v he).headId v List.mem_cons_self, (hs.entry v he).key⟩

/-- What the managers hold when all views were looked at and all chains were followed. -/
structure Opened (u : List (List UInt8)) (base : Vol) (t : Fs) : Prop where
  wf : t.vol.Wf
  maxDataSegSize : t.maxDataSegSize = base.io.cache.hard.clusterSize - sizeofCluster
  keeps : base.io.Keeps t.vol.io
  sim : Sim t.vol.io.cache [] u
  cluster : ∀ v ∈ viewIds u.length, t.vol.cluster v = hdr u v
  idle : ∀ v, v ∈ t.vol.idle ↔ v ∈ viewIds u.length ∧ (hdr u v).looksLikeBusy = false
  busy : ∀ v, v ∈ t.vol.busy ↔ v ∈ viewIds u.length ∧ (hdr u v).looksLikeBusy = true
  entries : ∀ e, e ∈ t.entries ↔ e ∈ tableHeads u
  nodup : t.entries.Nodup
  tree : Avl.Wf (id : Int → Int) t.rootOfEntriesTree
  mem_tree : ∀ v, v ∈ Avl.toList t.rootOfEntriesTree ↔ v ∈ t.entries
  leaves : t.Terminated
  countOfEntries : t.countOfEntries = t.entries.length
  wild : t.wild = []
  countOfWild : t.countOfWildEntriesElement = 0
  defined : t.Defined
  head : ∀ e ∈ t.entries, ∃ l : List Int, t.heads e =
    ⟨l, l.length, 0, 0, .normal, false, keyOf base.io.cache.hard.clusterSize u e⟩
  chain : ∀ e ∈ t.entries, (∀ v ∈ (t.heads e).elements, 0 < v) ∧
    ∃ x ≤ 0, Walk (tableNext u) (tableNext u e) (t.heads e).elements x

namespace Opened

variable {base : Vol} {t : Fs} {e v : Int}

theorem mem_entries (h : Opened u base t) (hs : Space s []) (m : Mirror s.vol u) :
    e ∈ t.entries ↔ e ∈ s.entries := by
  rw [h.entries, hs.mem_tableHeads m]

theorem elements (h : Opened u base t) (hs : Space s []) (m : Mirror s.vol u)
    (he : e ∈ s.entries) : (t.heads e).elements = (s.heads e).elements := by
  obtain ⟨hpos, x, hx, hwalk⟩ := h.chain e ((h.mem_entries hs m).mpr he)
  refine walk_unique hwalk (hs.walk m he) hx (Int.le_refl 0) hpos fun v hv => ?_
  exact pos_of_mem_tableElements ((hs.mem_tableElements m).mpr ⟨e, he, hv⟩)

theorem cluster_eq (h : Opened u base t) (hs : Space s []) (m : Mirror s.vol u)
    (he : e ∈ s.entries) (hv : v ∈ s.chain e) : t.vol.cluster v = s.vol.cluster v := by
  rw [h.cluster v (hs.mem_viewIds_of_chain m he hv), hs.hdr_eq m he hv]

theorem chain_eq (h : Opened u base t) (hs : Space s []) (m : Mirror s.vol u)
    (he : e ∈ s.entries) : t.chain e = s.chain e := by
  rw [Fs.chain, h.elements hs m he, Fs.chain]

theorem entryOk (h : Opened u base t) (hs : Space s []) (m : Mirror s.vol u)
    (hsound : SoundHeads base.io.cache.hard.clusterSize u) (he : e ∈ s.entries) :
    EntryOk t.vol.cluster e (t.heads e) := by
  have hkey := (hsound e ((hs.mem_tableHeads m).mpr he)).2
  obtain ⟨l, hl⟩ := h.head e ((h.mem_entries hs m).mpr he)
  have helems := h.elements hs m he
  rw [hl] at helems
  have hok : EntryOk t.vol.cluster e (s.heads e) := (hs.entry e he).congr fun v hv => by
    rw [h.cluster_eq hs m he hv]
    exact .refl _
  rw [hl]
  refine ⟨?_, ?_, hok.headSize, ?_, rfl, rfl, rfl, Int.le_refl 0, Int.le_refl 0, hkey⟩
  · exact helems ▸ hok.linked
  · exact helems ▸ hok.headId
  · exact helems ▸ hok.elementSize

theorem busy_perm (h : Opened u base t) (hs : Space s []) (m : Mirror s.vol u) :
    t.vol.busy.Perm s.vol.busy :=
  (List.perm_ext_iff_of_nodup h.wf.nodup_busy hs.vol.nodup_busy).mpr fun v => by
    rw [h.busy, hs.mem_busy_iff m]

theorem idle_perm (h : Opened u base t) (hs : Space s []) (m : Mirror s.vol u) :
    t.vol.idle.Perm s.vol.idle :=
  (List.perm_ext_iff_of_nodup h.wf.nodup.of_append_left hs.vol.nodup.of_append_left).mpr fun v => by
    rw [h.idle, hs.mem_idle_iff m]

theorem space (h : Opened u base t) (hs : Space s []) (m : Mirror s.vol u)
    (hsound : SoundHeads base.io.cache.hard.clusterSize u) : Space t [] := by
  have hentries : t.entries.Perm s.entries :=
    (List.perm_ext_iff_of_nodup h.nodup hs.nodup_entries).mpr fun e => h.mem_entries hs m
  have hchains : s.entries.flatMap t.chain = s.entries.flatMap s.chain := by
    rw [List.flatMap, List.flatMap, List.map_congr_left fun e he => h.chain_eq hs m he]
  refine ⟨h.wf, ?_, ?_, fun e he => h.entryOk hs m hsound ((h.mem_entries hs m).mp he), h.tree,
    h.mem_tree, h.leaves, h.countOfEntries, h.wild, h.countOfWild⟩
  · rw [h.maxDataSegSize, h.keeps.hard.clusterSize]
  · refine (h.busy_perm hs m).trans (hs.owned.trans ?_)
    rw [List.nil_append, List.nil_append, ← hchains]
    exact hentries.symm.flatMap_right _

theorem reloaded (h : Opened u base t) (hs : Space s []) (k : Keyed s u)
    (hsize : base.io.cache.hard.clusterSize = s.vol.io.cache.hard.clusterSize)
    (hcount : base.io.cache.hard.clusterCount = s.vol.io.cache.hard.clusterCount)
    (hexpand : base.io.cache.hard.expandClusterCount = s.vol.io.cache.hard.expandClusterCount) :
    Reloaded s u t := by
  have m := k.mirror
  refine ⟨h.space hs m (by rw [hsize]; exact hs.sound k), ⟨h.sim, ?_, fun v hv => ?_, fun v hv => ?_, ?_⟩, ?_,
    fun e => h.mem_entries hs m, fun e he => h.elements hs m he, fun e he => ?_,
    fun e he v hv => h.cluster_eq hs m he hv, ?_, ?_, fun e he => ?_⟩
  · rw [m.length, Vol.clusterCount, Vol.clusterCount, h.keeps.hard.clusterCount, hcount]
  · exact (h.cluster v ((h.busy v).mp hv).1).symm
  · exact m.idle v ((h.idle_perm hs m).mem_iff.mp hv)
  · rw [m.first, h.keeps.hard.clusterSize, h.keeps.hard.clusterCount,
      h.keeps.hard.expandClusterCount,
      hsize, hcount, hexpand]
  · rw [h.keeps.hard.clusterSize, hsize]
  · obtain ⟨l, hl⟩ := h.head e ((h.mem_entries hs m).mpr he)
    rw [hl, ← k.key e he, hsize]
  · rw [h.wf.countIdle, hs.vol.countIdle, (h.idle_perm hs m).length_eq]
  · rw [h.wf.countBusy, hs.vol.countBusy, (h.busy_perm hs m).length_eq]
  · obtain ⟨l, hl⟩ := h.head e he
    rw [hl]
    exact ⟨show (0 : Int) < _ by decide, show (0 : Int) < _ by decide⟩

end Opened

/-- Loading a file whose heads have whole chains, and whose elements are all on one. -/
theorem opened_of_load {base : Vol} (garbage : Garbage) (hdefined : base.io.fault = false)
    (hf : Found u base (viewIds u.length) s)
    (hr : Recognized u (viewIds u.length) [] s)
    (hwf : (s.sized base.io.cache.hard).vol.Wf)
    (hsize : sizeofCluster ≤ base.io.cache.hard.clusterSize)
    (hintact : ∀ before h after, tableHeads u = before ++ h :: after → Intact u before h)
    (htaken : ∀ v ∈ tableElements u, Taken u (tableHeads u) v) :
    ∃ t, entriesInit garbage (s.sized base.io.cache.hard) = some t ∧ Opened u base t ∧
      t.rootOfNamedEntriesTree = s.rootOfNamedEntriesTree ∧ t.entries = s.entries := by
  obtain ⟨s', hs', -, hjoined, -, hinit⟩ := (hr.sized base.io.cache.hard).entriesInit garbage
  have hj := hjoined hintact
  have hnil : s'.wild = [] := by
    rw [List.eq_nil_iff_forall_not_mem]
    intro v hv
    obtain ⟨hel, hfree⟩ := (hs'.wild v).mp hv
    exact hfree (htaken v hel)
  have hfold : s'.wild.foldlM (freeWild garbage) s' = some s' := by
    rw [hnil]
    rfl
  have hentries : s'.entries = tableHeads u := hj.entries.trans hr.entries
  refine ⟨{ s' with maxDataSegSize := s'.vol.maxDataSegSize }, by rw [hinit, hfold]; rfl, ?_,
    hj.named, hj.entries⟩
  refine ⟨?_, ?_, ?_, ?_, fun v hv => ?_, fun v => ?_, fun v => ?_,
    fun e => by rw [← hentries], ?_, ?_,
    fun v => ?_, ?_, ?_, hnil, ?_, ⟨?_, ?_⟩, fun e he => ?_, fun e he => ?_⟩
  · show s'.vol.Wf
    rw [hj.vol]
    exact hwf
  · show s'.vol.maxDataSegSize = _
    rw [hj.vol]
    show ((base.io.cache.hard.clusterSize - sizeofCluster : Nat) : Int) = _
    omega
  · show base.io.Keeps s'.vol.io
    rw [hj.vol]
    exact hf.keeps
  · show Sim s'.vol.io.cache [] u
    rw [hj.vol]
    exact hf.sim
  · show s'.vol.cluster v = _
    rw [hj.vol]
    exact hf.cluster v hv
  · show v ∈ s'.vol.idle ↔ _
    rw [hj.vol]
    show v ∈ s.vol.idle ↔ _
    rw [hr.idle, List.append_nil, List.mem_filter, Bool.not_eq_true']
  · show v ∈ s'.vol.busy ↔ _
    rw [hj.vol]
    show v ∈ s.vol.busy ↔ _
    rw [hf.busy, List.mem_filter]
  · show s'.entries.Nodup
    rw [hentries]
    exact nodup_tableHeads u
  · show Avl.Wf id s'.rootOfEntriesTree
    rw [hj.tree]
    exact hf.tree
  · show v ∈ Avl.toList s'.rootOfEntriesTree ↔ v ∈ s'.entries
    rw [hj.tree, hj.entries]
    exact hf.mem_tree v
  · show ∀ leaf ∈ Avl.toList s'.rootOfNamedEntriesTree, 0 ∈ leaf.key
    rw [hj.named]
    exact hf.leaves
  · show s'.countOfEntries = s'.entries.length
    rw [hj.countOfEntries, hj.entries]
    exact hf.countOfEntries
  · show s'.countOfWildEntriesElement = 0
    rw [hj.countOfWild hf.countOfWild, hnil]
    rfl
  · show s'.vol.io.fault = false
    rw [hj.vol]
    exact hf.keeps.fault.trans hdefined
  · exact hj.fault.trans hf.fault
  · have hmem : e ∈ s.entries := hj.entries ▸ he
    obtain ⟨key, hkey⟩ := hr.found e hmem
    have hkeys := hf.keys e hmem
    obtain ⟨l, hl⟩ := hj.heads e
    refine ⟨l, hl.trans ?_⟩
    rw [show (s.sized base.io.cache.hard).heads e = s.heads e from rfl, ← hkeys, hkey]
    simp only [Head.found, List.nil_append, Int.zero_add]
  · exact hs'.chain e he (hs'.entries e he)

/-- Loading the clusters of a file system that is in order. -/
theorem entriesLoad_opened (hs : Space s []) (m : Mirror s.vol cache.hard.file)
    (hcleared : s₀.Cleared) (hsound : SoundHeads cache.hard.clusterSize cache.hard.file)
    (garbage : Garbage) (hsim : Sim cache [] cache.hard.file)
    (hlen : (cache.hard.file.length : Int) = cache.hard.clusterCount) (hg : Geometry cache.hard)
    (hcount : 1 < cache.hard.file.length)
    (hsize : sizeofCluster + maxEntryNameLength ≤ cache.hard.clusterSize) :
    ∃ base t, base.io.cache.hard = cache.hard ∧ Opened cache.hard.file base t ∧
      (s₀.rootOfNamedEntriesTree = .nil → DistinctKeys cache.hard.clusterSize cache.hard.file →
        Named t) ∧
      entriesLoad garbage (s₀.setVol { s₀.vol with io := ⟨cache, [], s₀.vol.io.fault⟩ }) = some (0, t) := by
  have hclean := hcleared.clean
  obtain ⟨vol, r, hload⟩ := viewLoad_eq hclean garbage hsim.hard hlen
  have hbase : vol.io.cache.hard = cache.hard := by rw [r.grown.io]
  have hids : viewIds cache.hard.clusterCount = viewIds cache.hard.file.length := by rw [hlen]
  obtain ⟨htree, hmem⟩ := r.tree hclean
  replace hsound : SoundHeads vol.io.cache.hard.clusterSize cache.hard.file := hbase.symm ▸ hsound
  have hstart := r.recognized hclean hlen
  rw [hids] at hstart hload
  have hrec := recognized_foldl _ hstart (nodup_viewIds _)
  have hfirst := r.found hcleared hsim hlen
  have hfound := found_foldl hsound (by rw [hbase]; exact hsize) _ hfirst hstart (nodup_viewIds _)
    fun v hv => hv
  rw [List.nil_append] at hrec hfound
  have hwf := hfound.wf hrec (by rw [hbase]; exact hg) (by rw [hbase]; exact hsim.hard.writeFaults)
    (by rw [Vol.clusterCount, hbase, hlen]) hcount htree
    fun v => by rw [hmem, Vol.clusterCount, hbase]
  have hfault : vol.io.fault = false := by
    rw [r.grown.io]
    exact hcleared.defined.1
  obtain ⟨t, hinit, ht, hnamed, hentries⟩ := opened_of_load garbage hfault hfound hrec hwf
    (by rw [hbase]; omega) (fun before h after hsplit => hs.intact m hsplit) fun v hv =>
    hs.taken m hv
  refine ⟨vol, t, hbase, ht, fun hnil hkeys => ?_, ?_⟩
  · have hempty : Named (s₀.setVol vol) := named_nil hnil hclean.entries
    have hloaded := named_foldl hsound (by rw [hbase]; exact hsize)
        (by rw [hbase]; exact hkeys) _ hempty
      hfirst hstart (nodup_viewIds _) fun v hv => hv
    refine hloaded.same ⟨hnamed, hentries, fun e he => ?_⟩
    obtain ⟨l, hl⟩ := ht.head e (hentries ▸ he)
    rw [hl, hfound.keys e he]
  rw [hbase] at hinit
  rw [entriesLoad, hload]
  simp only [nspSuccess_zero, if_true]
  rw [hinit]
  rfl

/-- **Opening** the file that a file system was closed to. -/
theorem evfsOpen_reloaded (h : Stored s) (k : Keyed s u)
    (hsize : sizeofCluster + sizeofHrd ≤ s.vol.io.cache.hard.clusterSize)
    (hle : s.vol.fsize ≤ 2 ^ 30) (hcleared : s₀.Cleared) (garbage : Garbage)
    (cacheBlockNum : Nat) : ∃ s',
      evfsOpen garbage s₀ u.flatten cacheBlockNum [] [] [] = some (0, s') ∧ Reloaded s u s' ∧
        Stored s' ∧ (s₀.rootOfNamedEntriesTree = .nil → Named s → Named s') := by
  have m := k.mirror
  have hgeo := h.space.vol.geometry
  have hfsize := hgeo.fsize_eq
  have htwo := h.two_le
  have hexpand := hgeo.expandCount_lt
  have hexpos := hgeo.expand_pos
  rw [Vol.fsize] at hle htwo
  rw [sizeofCluster, sizeofHrd] at hsize
  have hcount : 2 ≤ s.vol.clusterCount := by
    rw [hfsize] at htwo
    rw [Vol.clusterCount]
    nlinarith
  have hopen := hardOpen_flatten (by rw [sizeofCluster, sizeofHrd]; omega) h.le_size m.sim.sizes
    m.length (by nlinarith) (by rw [Vol.clusterCount, ← hfsize]; exact hle) ⟨by omega, by omega⟩ m.first
  rw [evfsOpen, hopen]
  simp only
  have hwf : (⟨u, s.vol.io.cache.hard.clusterSize, s.vol.clusterCount,
      s.vol.io.cache.hard.expandClusterCount,
      s.vol.clusterCount * s.vol.io.cache.hard.clusterSize, [], []⟩ : Hard).Wf :=
    ⟨by show 0 < s.vol.io.cache.hard.clusterSize; omega, m.sim.sizes,
      by rw [m.sim.length]; exact m.sim.hard.fits, rfl, rfl⟩
  have hsim := sim_cacheInit hwf garbage.blocks cacheBlockNum
  obtain ⟨-, hcache, -⟩ := Cache.wf_cacheInit garbage.blocks ⟨u, s.vol.io.cache.hard.clusterSize,
    s.vol.clusterCount, s.vol.io.cache.hard.expandClusterCount,
    s.vol.clusterCount * s.vol.io.cache.hard.clusterSize, [], []⟩ cacheBlockNum
  rw [Fs.mount]
  generalize cacheInit garbage.blocks _ cacheBlockNum = cache at hsim hcache
  have hfile : cache.hard.file = u := by rw [hcache]
  have hcs : cache.hard.clusterSize = s.vol.io.cache.hard.clusterSize := by rw [hcache]
  have hcc : cache.hard.clusterCount = s.vol.io.cache.hard.clusterCount := by
    rw [hcache]
    rfl
  have hec : cache.hard.expandClusterCount = s.vol.io.cache.hard.expandClusterCount :=
    by rw [hcache]
  have hfs : cache.hard.fsize = s.vol.io.cache.hard.fsize := by
    rw [hcache]
    exact hfsize.symm
  clear hcache hwf hopen
  subst hfile
  have hg : Geometry cache.hard :=
    ⟨hcs ▸ hgeo.size_le, hcc ▸ hgeo.count_pos, hec ▸ hexpos, by rw [hec, hcs]; exact hgeo.expand_lt,
      by rw [hfs, hcc, hcs]; exact hfsize, hfs ▸ hgeo.fsize_lt⟩
  have hlen : (cache.hard.file.length : Int) = cache.hard.clusterCount := by
    rw [m.length, hcc]
    rfl
  obtain ⟨base, t, hbase, ht, hnamed, hload⟩ :=
    entriesLoad_opened h.space m hcleared (by rw [hcs]; exact h.space.sound k) garbage hsim hlen hg
    (by rw [Vol.clusterCount] at hcount; omega)
    (by rw [hcs, sizeofCluster, maxEntryNameLength]; omega)
  have hr := ht.reloaded h.space k (by rw [hbase, hcs]) (by rw [hbase, hcc]) (by rw [hbase, hec])
  have hfs' : t.vol.fsize = s.vol.fsize := by
    rw [Vol.fsize, ht.keeps.hard.fsize, hbase, hfs, Vol.fsize]
  refine ⟨t, hload, hr, ⟨hr.space, ?_, ?_, fun e he => ?_,
    ⟨⟨_, hr.mirror⟩, hfs' ▸ h.steady.fsize_lt, ht.defined⟩, fun _ => ⟨_, hr.mirror, fun e he => ?_⟩⟩,
    fun hnil hn => hnamed hnil fun e he e' he' => ?_⟩
  · rw [hr.size]
    exact h.le_size
  · rw [hr.size, hfs']
    exact h.two_le
  · obtain ⟨l, hl⟩ := ht.head e he
    rw [hl]
  · have hmem := (hr.entries e).mp he
    rw [hr.size, k.key e hmem, hr.key e hmem]
  · have hmem := (h.space.mem_tableHeads m).mp he
    have hmem' := (h.space.mem_tableHeads m).mp he'
    rw [hcs, k.key e hmem, k.key e' hmem']
    exact hn.eq_of_name_eq hmem hmem'

end Open

end Evfs

end LibNax
