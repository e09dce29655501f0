import Mathlib.Data.List.Perm.Subperm
import LibNax.Lib.Chain
import LibNax.Evfs.Leaves

/-!
# Loading

`evfs_view_load` reads the headers of all clusters and knows the heads and the elements by them;
`__evfs_entries_init` then follows the links from every head and takes the elements it meets out of
one list.  The headers may be anything: links may form cycles, run together, lead to heads or out of
the file.

What loading is to leave behind is said of the headers alone.  The links are a function from
clusters to clusters (`tableNext`), and what a head leads to through elements only is a relation on
it (`Leads`).  The order of the heads matters, since the first head that comes to an element has
it: a head survives if its chain ends, and meets no element that a head before it leads to
(`Intact`).

The loader knows nothing of that.  For one head it takes elements out of the list of the wild ones
until the next number is not in this list any more.  Then it has come to the end of the chain, or
to an element that it has taken itself, or to one that was taken before, or to no element at all.
Such a walk is a `Cut`, and the two lemmas about it do not ask which of these it was: what is taken
afterwards is what was taken before and what the head leads to, and the walk has come to an end
exactly if the chain is intact.  This uses only that what was taken is closed under the links.
Cycles, shared chains and links out of the file are dealt with there and nowhere else.  The number
of the rounds is bounded by the length of the list of wild elements, as each round takes one of
them away (`linkChain_spec`).

The invariant of the outer loop is `Linking`, which knows the heads that were followed and those
that were not.  The places of all views, as heads, elements, wild ones and idle ones, are one list
without duplicates, and both outcomes for a head are permutations of it: a chain moves from the
wild elements to the head (`places_linked`), or the head and what it has taken move to the idle
ones (`Removed.places`).

The keys are kept apart from that.  Every head enters the index by key when it is found, and leaves
it when it is removed, and where two keys are compared that are the same and have no end, the code
reads behind them.  This depends on the keys and their order only.  So `Tracked` says that the
index is the one of a run on keys alone (`loadedIndex`), and that something went wrong with a key
exactly if it did there: the condition `Comparable` is about the file.

* `tableNext`, `tableHeads`, `tableElements` — what the headers on the disk say.
* `Leads`, `Taken`, `Intact` — the chains in these terms.
* `Restored` — what is left after loading: every cluster has one place, every entry its whole chain.
* `loadViews_grown`, `recognized_foldl`, `linkChain_spec`, `Linking.step` — the loops of the source.
* `Tracked`, `Comparable` — the index by key meanwhile, and that no key is read behind its end.
* `entriesLoad_restores_iff` — loading restores what is there, and is defined, if every element is on
  the chain of a head and the keys can be compared.

An element that no head leads to is given to `__evfs_entries_free_element`, which reads a pointer to
a head in it that was never set: the memory of a new element is not cleared there, as it is in
`__evfs_entries_alloc_element`.
-/

set_option autoImplicit false

namespace LibNax

namespace Evfs

open Lib (Walk Reach Cut)

/-! ## The headers on the disk -/

/-- The link in the header of a cluster. -/
def tableNext (u : List (List UInt8)) (v : Int) : Int := (hdr u v).nextClusterId

/-- The header is the one of an element. -/
def Cluster.looksLikeElement (cluster : Cluster) : Bool :=
  cluster.looksLikeBusy && !cluster.looksLikeHead

/-- The clusters with the header of a head. -/
def tableHeads (u : List (List UInt8)) : List Int :=
  (viewIds u.length).filter fun v => (hdr u v).looksLikeHead

/-- The clusters with the header of an element. -/
def tableElements (u : List (List UInt8)) : List Int :=
  (viewIds u.length).filter fun v => (hdr u v).looksLikeElement

/-- The links lead from a head to an element, and through elements only. -/
def Leads (u : List (List UInt8)) (h e : Int) : Prop :=
  Reach (tableNext u) (· ∈ tableElements u) (tableNext u h) e

/-- One of the heads leads to the element. -/
def Taken (u : List (List UInt8)) (heads : List Int) (e : Int) : Prop := ∃ h ∈ heads, Leads u h e

/-- The chain of a head ends with a link that is not positive, and all of it are elements that none
of the heads before leads to. -/
def Intact (u : List (List UInt8)) (before : List Int) (h : Int) : Prop :=
  ∃ l x, Walk (tableNext u) (tableNext u h) l x ∧ x ≤ 0 ∧
    ∀ e ∈ l, e ∈ tableElements u ∧ ¬Taken u before e

/-- What loading leaves behind. -/
structure Restored (u : List (List UInt8)) (s : Fs) : Prop where
  /-- A cluster is the head of one entry, or an element of one, or idle. -/
  nodup : (s.entries ++ s.entries.flatMap (fun h => (s.heads h).elements) ++ s.vol.idle).Nodup
  /-- The elements of an entry are its chain, up to the first link that is not positive. -/
  chain : ∀ h ∈ s.entries, (∀ e ∈ (s.heads h).elements, 0 < e) ∧
    ∃ x ≤ 0, Walk (tableNext u) (tableNext u h) (s.heads h).elements x
  /-- An entry is there if its chain meets nothing that is missing or taken. -/
  survives : ∀ before h after, tableHeads u = before ++ h :: after →
    (h ∈ s.entries ↔ Intact u before h)
  /-- The clusters that a removed entry had taken are idle. -/
  returned : ∀ before h after, tableHeads u = before ++ h :: after → h ∉ s.entries →
    h ∈ s.vol.idle ∧ ∀ e, Leads u h e → ¬Taken u before e → e ∈ s.vol.idle
  /-- Every entry is one of the heads. -/
  heads : ∀ h ∈ s.entries, h ∈ tableHeads u

section Table

variable {u : List (List UInt8)} {v : Int}

theorem mem_tableHeads : v ∈ tableHeads u ↔ v ∈ viewIds u.length ∧ (hdr u v).looksLikeHead = true :=
  List.mem_filter

theorem mem_tableElements :
    v ∈ tableElements u ↔ v ∈ viewIds u.length ∧ (hdr u v).looksLikeElement = true :=
  List.mem_filter

theorem nodup_tableHeads (u : List (List UInt8)) : (tableHeads u).Nodup :=
    (nodup_viewIds _).filter _

theorem looksLikeBusy_of_head {c : Cluster} (h : c.looksLikeHead = true) :
    c.looksLikeBusy = true := by
  simp only [Cluster.looksLikeHead, decide_eq_true_eq] at h
  simp only [Cluster.looksLikeBusy, decide_eq_true_eq]
  omega

theorem pos_of_mem_tableElements (hv : v ∈ tableElements u) : 0 < v := by
  have := (mem_viewIds.mp (mem_tableElements.mp hv).1).1
  omega

/-- What is taken is closed under the links. -/
theorem Taken.next {heads : List Int} {e : Int} (h : Taken u heads e)
    (he : tableNext u e ∈ tableElements u) : Taken u heads (tableNext u e) := by
  obtain ⟨g, hg, hlead⟩ := h
  exact ⟨g, hg, hlead.step he⟩

theorem taken_append {heads : List Int} {h e : Int} :
    Taken u (heads ++ [h]) e ↔ Taken u heads e ∨ Leads u h e := by
  simp only [Taken, List.mem_append, List.mem_singleton]
  constructor
  · rintro ⟨g, hg | rfl, hlead⟩
    · exact .inl ⟨g, hg, hlead⟩
    · exact .inr hlead
  · rintro (⟨g, hg, hlead⟩ | hlead)
    · exact ⟨g, .inl hg, hlead⟩
    · exact ⟨h, .inr rfl, hlead⟩

end Table

/-! ## Reading the headers -/

section Reading

variable {hard : Hard} {v : Int}

theorem Hard.Wf.hardReadClusterHead_eq (h : hard.Wf) (hv : 1 ≤ v) (hv' : v < hard.file.length)
    (buffer : Cluster) : hardReadClusterHead hard v buffer = (0, hdr hard.file v, hard) := by
  obtain ⟨i, rfl⟩ := Int.eq_ofNat_of_zero_le (show 0 ≤ v by omega)
  have hi : i < hard.file.length := by omega
  simp only [hardReadClusterHead, h.clusterOffset_eq hi, Hard.popRead_of_nil h.readFaults]
  rw [if_neg (by omega), Int.toNat_natCast, Nat.mul_div_cancel i h.size_pos, hdr, Int.toNat_natCast,
    List.getD_eq_getElem?_getD, List.getElem?_eq_getElem hi]
  rfl

/-- The loop of `evfs_view_load`: every view holds the header of its cluster. -/
theorem loadViews_grown (n : Nat) : ∀ (i : Int) (buffer : Cluster) (s : Vol),
    s.io.allocFaults = [] → s.io.cache.hard.Wf → 1 ≤ i →
    (∀ v ∈ nextIds i n, v < s.io.cache.hard.file.length) →
    (loadViews n i buffer s).1 = 0 ∧ Grown s (loadViews n i buffer s).2 i n ∧
      ∀ v ∈ nextIds i n, (loadViews n i buffer s).2.cluster v = hdr s.io.cache.hard.file v := by
  induction n with
  | zero => exact fun i _ s _ _ _ _ => ⟨rfl, grown_zero s i, fun v hv => by cases hv⟩
  | succ n ih =>
    intro i buffer s ha hwf hi hlt
    rw [nextIds_succ] at hlt
    have hread : cacheReadHeadDirectly s.io i buffer = (0, hdr s.io.cache.hard.file i, s.io) := by
      rw [cacheReadHeadDirectly, if_neg (by omega), Io.alloc_of_nil ha]
      simp only [if_true]
      rw [hwf.hardReadClusterHead_eq hi (hlt i List.mem_cons_self)]
      rfl
    have halloc : s.alloc = (true, s) := by rw [Vol.alloc, Io.alloc_of_nil ha]
    rw [loadViews, hread]
    simp only [nspSuccess_zero, if_true]
    rw [show ({ s with io := s.io } : Vol) = s from rfl, halloc]
    simp only [if_true]
    obtain ⟨hstatus, hgrown, hcluster⟩ := ih (i + 1) (hdr s.io.cache.hard.file i)
      (s.insertNewIdle i (hdr s.io.cache.hard.file i)) ha hwf (by omega)
      fun v hv => hlt v (List.mem_cons_of_mem _ hv)
    refine ⟨hstatus, hgrown.cons, fun v hv => ?_⟩
    rw [nextIds_succ] at hv
    rcases List.mem_cons.mp hv with rfl | hv
    · rw [hgrown.cluster v (by omega)]
      exact Function.update_self ..
    · exact hcluster v hv

end Reading

/-! ## Heads and elements -/

/-- The head of an entry that was just found. -/
def Head.found (key : List UInt8) : Head := ⟨[], 0, 0, 0, .normal, false, key⟩

/-- The loop over the views: the views `done` were looked at, the views `todo` are still idle. -/
structure Recognized (u : List (List UInt8)) (done todo : List Int) (s : Fs) : Prop where
  allocFaults : s.vol.io.allocFaults = []
  total : s.vol.totalClusterCount = u.length - 1
  entries : s.entries = done.filter fun v => (hdr u v).looksLikeHead
  wild : s.wild = done.filter fun v => (hdr u v).looksLikeElement
  idle : s.vol.idle = (done.filter fun v => !(hdr u v).looksLikeBusy) ++ todo
  /-- The header of a head gets its own number. -/
  cluster : ∀ v ∈ done, s.vol.cluster v = hdr u v ∨
    s.vol.cluster v = { hdr u v with headClusterId := v }
  unseen : ∀ v ∈ todo, s.vol.cluster v = hdr u v
  found : ∀ h ∈ s.entries, ∃ key, s.heads h = .found key

section Recognize

variable {u : List (List UInt8)} {done todo : List Int} {s : Fs} {v : Int}

theorem loadKey_none (vol : Vol) (v : Int) : ∃ io, vol.io.Keeps io ∧
    (loadKey vol v none).2 = { vol with io } := by
  rw [loadKey]
  simp only [viewReadUserdata]
  split
  · exact ⟨vol.io, .refl _, rfl⟩
  · split
    · exact ⟨_, cacheReadUserdata_keeps vol.io v 0 _, rfl⟩
    · exact ⟨_, cacheReadUserdata_keeps vol.io v 0 _, rfl⟩

/-- A head is made for a view that was found. -/
theorem allocHead_none (ha : s.vol.io.allocFaults = []) (v : Int) : ∃ io, s.vol.io.Keeps io ∧
    allocHead s v none = (true, (s.setVol { s.vol with
      io, cluster := Function.update s.vol.cluster v
        { s.vol.cluster v with headClusterId := v } }).setHead v
      (.found (loadKey s.vol v none).1)) := by
  have halloc : s.alloc = (true, s) := by
    rw [Fs.alloc, Vol.alloc, Io.alloc_of_nil ha]
    rfl
  obtain ⟨io, hk, hvol⟩ := loadKey_none s.vol v
  refine ⟨(cacheWriteHead io v { s.vol.cluster v with headClusterId := v }).2,
    hk.trans (cacheWriteHead_keeps _ _ _), ?_⟩
  rw [allocHead, halloc]
  simp only [if_true]
  rw [hvol]
  simp only [viewSetHead, Vol.putCluster, Vol.setCluster, Vol.writeHead, Option.getD_none,
    Function.update_self]
  rfl

@[simp] theorem insertHead_wild (s : Fs) (e : Int) : (insertHead s e).wild = s.wild := by
  rw [insertHead]
  simp only
  split
  · rfl
  · rfl

theorem filter_concat {α : Type} (p : α → Bool) (l : List α) (a : α) :
    (l ++ [a]).filter p = l.filter p ++ if p a then [a] else [] := by
  rw [List.filter_append, List.filter_cons, List.filter_nil]

/-- The views after one of them left the idle list for the busy one. -/
def Fs.toBusy (s : Fs) (v : Int) : Fs :=
  s.setVol { s.vol with
    idle := s.vol.idle.erase v, countOfIdleViews := s.vol.countOfIdleViews - 1,
    busy := s.vol.busy ++ [v], countOfBusyViews := s.vol.countOfBusyViews + 1 }

theorem Recognized.notMem (hnd : (done ++ v :: todo).Nodup) : v ∉ done ∧ v ∉ todo :=
  ⟨fun hmem => List.disjoint_of_nodup_append hnd hmem List.mem_cons_self,
    (List.nodup_cons.mp hnd.of_append_right).1⟩

theorem Recognized.erase_idle (h : Recognized u done (v :: todo) s)
    (hnd : (done ++ v :: todo).Nodup) (hbusy : (hdr u v).looksLikeBusy = true) :
    s.vol.idle.erase v = ((done ++ [v]).filter fun v => !(hdr u v).looksLikeBusy) ++ todo := by
  rw [h.idle, List.erase_append_right _ fun hmem =>
    (Recognized.notMem hnd).1 (List.mem_of_mem_filter hmem), List.erase_cons_head,
    filter_concat, hbusy]
  simp

/-- A view that is not used stays where it is. -/
theorem Recognized.skip (h : Recognized u done (v :: todo) s)
    (hbusy : (hdr u v).looksLikeBusy = false) : Recognized u (done ++ [v]) todo s := by
  have hhead : (hdr u v).looksLikeHead = false := by
    cases hcase : (hdr u v).looksLikeHead with
    | false => rfl
    | true => rw [← hbusy, looksLikeBusy_of_head hcase]
  have helement : (hdr u v).looksLikeElement = false := by
    rw [Cluster.looksLikeElement, hbusy, Bool.false_and]
  refine ⟨h.allocFaults, h.total, ?_, ?_, ?_, ?_, fun w hw =>
    h.unseen w (List.mem_cons_of_mem _ hw),
    h.found⟩
  · rw [filter_concat, hhead, h.entries]
    exact (List.append_nil _).symm
  · rw [filter_concat, helement, h.wild]
    exact (List.append_nil _).symm
  · rw [filter_concat, hbusy, h.idle, List.append_assoc]
    rfl
  · intro w hw
    rcases List.mem_append.mp hw with hw | hw
    · exact h.cluster w hw
    · rw [List.mem_singleton.mp hw]
      exact .inl (h.unseen v List.mem_cons_self)

/-- A head is put into the list of the entries. -/
theorem Recognized.head (h : Recognized u done (v :: todo) s) (hnd : (done ++ v :: todo).Nodup)
    (hhead : (hdr u v).looksLikeHead = true) {io : Io} (hio : io.allocFaults = [])
    (key : List UInt8) :
    Recognized u (done ++ [v]) todo (insertHead (((s.toBusy v).setVol { (s.toBusy v).vol with
      io, cluster := Function.update s.vol.cluster v
        { s.vol.cluster v with headClusterId := v } }).setHead v (.found key)) v) := by
  obtain ⟨hdone, htodo⟩ := Recognized.notMem hnd
  have helement : (hdr u v).looksLikeElement = false := by
    rw [Cluster.looksLikeElement, hhead, Bool.not_true, Bool.and_false]
  refine ⟨?_, ?_, ?_, ?_, ?_, fun w hw => ?_, fun w hw => ?_, fun e he => ?_⟩
  · rw [insertHead_vol]
    exact hio
  · rw [insertHead_vol]
    exact h.total
  · rw [insertHead_entries, filter_concat, hhead, ← h.entries]
    rfl
  · rw [insertHead_wild, filter_concat, helement, ← h.wild]
    exact (List.append_nil _).symm
  · rw [insertHead_vol]
    exact h.erase_idle hnd (looksLikeBusy_of_head hhead)
  · rw [insertHead_vol]
    show Function.update s.vol.cluster v _ w = _ ∨ Function.update s.vol.cluster v _ w = _
    rcases List.mem_append.mp hw with hw | hw
    · rw [Function.update_of_ne (ne_of_mem_of_not_mem hw hdone)]
      exact h.cluster w hw
    · rw [List.mem_singleton.mp hw, Function.update_self, h.unseen v List.mem_cons_self]
      exact .inr rfl
  · rw [insertHead_vol]
    show Function.update s.vol.cluster v _ w = _
    rw [Function.update_of_ne (ne_of_mem_of_not_mem hw htodo)]
    exact h.unseen w (List.mem_cons_of_mem _ hw)
  · rw [insertHead_heads]
    rw [insertHead_entries] at he
    by_cases hev : e = v
    · rw [hev, setHead_heads_self]
      exact ⟨key, rfl⟩
    · rw [setHead_heads_ne _ hev]
      rcases List.mem_append.mp he with he | he
      · exact h.found e he
      · exact absurd (List.mem_singleton.mp he) hev

/-- An element is put into the wild list. -/
theorem Recognized.element (h : Recognized u done (v :: todo) s) (hnd : (done ++ v :: todo).Nodup)
    (helement : (hdr u v).looksLikeElement = true) (count : Int) :
    Recognized u (done ++ [v]) todo { s.toBusy v with
      wild := s.wild ++ [v], countOfWildEntriesElement := count } := by
  have hcase := helement
  rw [Cluster.looksLikeElement, Bool.and_eq_true, Bool.not_eq_true'] at hcase
  refine ⟨h.allocFaults, h.total, ?_, ?_, h.erase_idle hnd hcase.1, fun w hw => ?_,
    fun w hw => h.unseen w (List.mem_cons_of_mem _ hw), h.found⟩
  · rw [filter_concat, hcase.2, ← h.entries]
    exact (List.append_nil _).symm
  · rw [filter_concat, helement, ← h.wild]
    rfl
  · rcases List.mem_append.mp hw with hw | hw
    · exact h.cluster w hw
    · rw [List.mem_singleton.mp hw]
      exact .inl (h.unseen v List.mem_cons_self)

/-- One view is looked at. -/
theorem Recognized.step (h : Recognized u done (v :: todo) s) (hnd : (done ++ v :: todo).Nodup) :
    Recognized u (done ++ [v]) todo (recognizeView s v) := by
  have hv : s.vol.cluster v = hdr u v := h.unseen v List.mem_cons_self
  rw [recognizeView, hv]
  cases hbusy : (hdr u v).looksLikeBusy with
  | false =>
    rw [if_neg Bool.false_ne_true]
    exact h.skip hbusy
  | true =>
    rw [if_pos rfl]
    show Recognized u (done ++ [v]) todo (rawRecognize (s.toBusy v) v)
    have ha : (s.toBusy v).vol.io.allocFaults = [] := h.allocFaults
    rw [rawRecognize, show (s.toBusy v).vol.cluster v = hdr u v from hv]
    cases hhead : (hdr u v).looksLikeHead with
    | true =>
      obtain ⟨io, hk, hallocHead⟩ := allocHead_none ha v
      rw [hallocHead, if_pos rfl, if_pos rfl]
      exact h.head hnd hhead (hk.allocFaults ha) _
    | false =>
      have halloc : (s.toBusy v).alloc = (true, s.toBusy v) := by
        rw [Fs.alloc, Vol.alloc, Io.alloc_of_nil ha]
        rfl
      rw [halloc, if_neg Bool.false_ne_true, if_pos rfl]
      refine h.element hnd ?_ _
      rw [Cluster.looksLikeElement, hhead, hbusy]
      rfl

theorem recognized_foldl (todo : List Int) : ∀ {done : List Int} {s : Fs},
    Recognized u done todo s → (done ++ todo).Nodup →
      Recognized u (done ++ todo) [] (todo.foldl recognizeView s) := by
  induction todo with
  | nil =>
    intro done s h _
    rw [List.append_nil]
    exact h
  | cons v todo ih =>
    intro done s h hnd
    rw [List.append_cons] at hnd ⊢
    exact ih (h.step (by rw [List.append_cons]; exact hnd)) hnd

end Recognize

/-! ## The keys of the heads -/

/-- The disk has the data of the image: nothing but headers was written. -/
def SameData (clusterSize : Nat) (u : List (List UInt8)) (io : Io) : Prop :=
  io.cache.hard.clusterSize = clusterSize ∧ ∃ u', Sim io.cache [] u' ∧ u'.length = u.length ∧
    ∀ v, 1 ≤ v → udata clusterSize u' v = udata clusterSize u v

/-- The heads have the keys that lie in the image, and the index by key is `i`. -/
structure Tracked (clusterSize : Nat) (u : List (List UInt8)) (s : Fs) (i : NameIndex) : Prop where
  index : s.nameIndex = i
  keys : ∀ e ∈ s.entries, (s.heads e).key = keyOf clusterSize u e
  io : s.vol.io.fault = false

section Track

variable {u : List (List UInt8)} {clusterSize : Nat} {done todo : List Int} {s : Fs} {v : Int}
  {i : NameIndex}

/-- A head is made, and gets the key in the image. -/
theorem SameData.allocHead (hd : SameData clusterSize u s.vol.io)
    (hsize : sizeofCluster + maxEntryNameLength ≤ clusterSize) (ha : s.vol.io.allocFaults = [])
    (htotal : s.vol.totalClusterCount = u.length - 1) (hv : v ∈ viewIds u.length)
    (hused : (s.vol.cluster v).dataSegSize ≠ 0) : ∃ io, SameData clusterSize u io ∧
      s.vol.io.Keeps io ∧ Evfs.allocHead s v none = (true, (s.setVol { s.vol with
        io, cluster := Function.update s.vol.cluster v
          { s.vol.cluster v with headClusterId := v } }).setHead v
        (.found (keyOf clusterSize u v))) := by
  obtain ⟨hcs, u', hsim, hlen, hsame⟩ := hd
  obtain ⟨h₁, h₂⟩ := mem_viewIds.mp hv
  have halloc : s.alloc = (true, s) := by
    rw [Fs.alloc, Vol.alloc, Io.alloc_of_nil ha]
    rfl
  obtain ⟨io, hsim', hk, hkey⟩ := loadKey_read hsim ha (by omega) h₁ (by omega) hused
    (by rw [hcs]; exact hsize)
  obtain ⟨u'', hsim'', hlen'', -, -, hsame''⟩ := hsim'.writeHead (hk.allocFaults ha)
    (by rw [hk.hard.clusterSize, hcs]; omega) h₁ (by omega)
    { s.vol.cluster v with headClusterId := v }
  have hk' := hk.trans (cacheWriteHead_keeps io v { s.vol.cluster v with headClusterId := v })
  refine ⟨_, ⟨hk'.hard.clusterSize.trans hcs, u'', hsim'', hlen''.trans hlen, fun w hw =>
    (hsame'' clusterSize w hw).trans (hsame w hw)⟩, hk', ?_⟩
  rw [keyOf, hcs, hsame v h₁] at hkey
  rw [Evfs.allocHead, halloc]
  simp only [if_true]
  rw [hkey]
  simp only [viewSetHead, Vol.putCluster, Vol.setCluster, Vol.writeHead, Option.getD_none,
    Function.update_self]
  rfl

/-- One view is looked at. -/
theorem Recognized.track (h : Recognized u done (v :: todo) s) (hv : v ∈ viewIds u.length)
    (hsize : sizeofCluster + maxEntryNameLength ≤ clusterSize)
    (hd : SameData clusterSize u s.vol.io) (ht : Tracked clusterSize u s i) :
    SameData clusterSize u (recognizeView s v).vol.io ∧ Tracked clusterSize u (recognizeView s v)
      (if (hdr u v).looksLikeHead then i.enter (leafOf clusterSize u v) else i) := by
  have hcv : s.vol.cluster v = hdr u v := h.unseen v List.mem_cons_self
  rw [recognizeView, hcv]
  cases hhead : (hdr u v).looksLikeHead with
  | true =>
    have hused : (s.vol.cluster v).dataSegSize ≠ 0 := by
      rw [Cluster.looksLikeHead, decide_eq_true_eq, ← hcv] at hhead
      omega
    obtain ⟨io, hd', hk, halloc⟩ := SameData.allocHead (s := s.toBusy v) hd hsize h.allocFaults
      h.total hv hused
    rw [if_pos (looksLikeBusy_of_head hhead), if_pos rfl]
    show SameData clusterSize u (rawRecognize (s.toBusy v) v).vol.io ∧
      Tracked clusterSize u (rawRecognize (s.toBusy v) v) _
    rw [rawRecognize, show (s.toBusy v).vol.cluster v = hdr u v from hcv, hhead, halloc, if_pos rfl,
      if_pos rfl]
    refine ⟨?_, ?_, fun e he => ?_, ?_⟩
    · rw [insertHead_vol]
      exact hd'
    · rw [insertHead_nameIndex, setHead_heads_self, ← ht.index]
      rfl
    · rw [insertHead_heads]
      rw [insertHead_entries] at he
      by_cases hev : e = v
      · rw [hev, setHead_heads_self]
        rfl
      · rw [setHead_heads_ne _ hev]
        exact ht.keys e ((List.mem_append.mp he).resolve_right fun hmem =>
          hev (List.mem_singleton.mp hmem))
    · rw [insertHead_vol]
      exact hk.fault.trans ht.io
  | false =>
    rw [if_neg Bool.false_ne_true]
    split
    · show SameData clusterSize u (rawRecognize (s.toBusy v) v).vol.io ∧
        Tracked clusterSize u (rawRecognize (s.toBusy v) v) i
      have ha : (s.toBusy v).vol.io.allocFaults = [] := h.allocFaults
      have halloc : (s.toBusy v).alloc = (true, s.toBusy v) := by
        rw [Fs.alloc, Vol.alloc, Io.alloc_of_nil ha]
        rfl
      rw [rawRecognize, show (s.toBusy v).vol.cluster v = hdr u v from hcv, hhead, halloc,
        if_neg Bool.false_ne_true, if_pos rfl]
      exact ⟨hd, ht.index, ht.keys, ht.io⟩
    · exact ⟨hd, ht⟩

/-- The heads among the views enter the index in their order. -/
theorem recognized_track_foldl (hsize : sizeofCluster + maxEntryNameLength ≤ clusterSize)
    (todo : List Int) : ∀ {done : List Int} {s : Fs} {i : NameIndex}, Recognized u done todo s →
      (done ++ todo).Nodup → (∀ v ∈ todo, v ∈ viewIds u.length) →
      SameData clusterSize u s.vol.io → Tracked clusterSize u s i →
        Tracked clusterSize u (todo.foldl recognizeView s)
          ((todo.filter fun v => (hdr u v).looksLikeHead).foldl
            (fun i e => i.enter (leafOf clusterSize u e)) i) := by
  induction todo with
  | nil => exact fun _ _ _ _ ht => ht
  | cons v todo ih =>
    intro done s i h hnd hmem hd ht
    obtain ⟨hd', ht'⟩ := h.track (hmem v List.mem_cons_self) hsize hd ht
    have hnext := h.step hnd
    rw [List.append_cons] at hnd
    have hrest := ih hnext hnd (fun w hw => hmem w (List.mem_cons_of_mem _ hw)) hd' ht'
    rw [List.foldl_cons, List.filter_cons]
    cases hhead : (hdr u v).looksLikeHead with
    | true =>
      rw [hhead, if_pos rfl] at hrest
      rw [if_pos rfl, List.foldl_cons]
      exact hrest
    | false =>
      rw [hhead, if_neg Bool.false_ne_true] at hrest
      rw [if_neg Bool.false_ne_true]
      exact hrest

end Track

/-! ## Following the links -/

/-- A head after elements were taken for it out of the wild list. -/
def Fs.linked (s : Fs) (e : Int) (l : List Int) : Fs :=
  { s with
    wild := s.wild.diff l
    countOfWildEntriesElement := s.countOfWildEntriesElement - l.length
    heads := Function.update s.heads e { s.heads e with
      elements := (s.heads e).elements ++ l
      countOfElements := (s.heads e).countOfElements + l.length } }

/-- A head is removed, with everything that was taken for it. -/
def Fs.removed (s : Fs) (e : Int) : Fs :=
  tryDeleteHead (s.setHead e { s.heads e with hardRemoveOnDetach := true }) e .mandatory

theorem linked_nil (s : Fs) (e : Int) : s.linked e [] = s := by
  rw [Fs.linked]
  simp only [List.diff_nil, List.length_nil, List.append_nil, Int.natCast_zero, Int.sub_zero,
    Int.add_zero]
  rw [Function.update_eq_self]

theorem linked_cons (s : Fs) (e v : Int) (l : List Int) :
    (s.linked e [v]).linked e l = s.linked e (v :: l) := by
  simp only [Fs.linked, List.diff_cons, List.diff_nil, Function.update_self, Function.update_idem,
    List.append_assoc, List.singleton_append, List.length_cons, List.length_nil]
  congr 1
  · congr 2
    omega
  · omega

theorem linked_heads_self (s : Fs) (e : Int) (l : List Int) : (s.linked e l).heads e =
    { s.heads e with elements := (s.heads e).elements ++ l
                     countOfElements := (s.heads e).countOfElements + l.length } :=
  Function.update_self ..

section Link

variable {s : Fs} {e : Int}

/-- The inner loop of `__evfs_entries_init` follows the links until one of them is not positive, or
leads to something that is not in the list any more. -/
theorem linkChain_spec (next : Int → Int) (n : Nat) : ∀ {s : Fs} {y : Int},
    (∀ v ∈ s.wild, viewGetNextClusterId s.vol v = next v) → s.wild.Nodup →
    s.wild.length < n → ∃ l x, Walk next y l x ∧ l.Nodup ∧ (∀ v ∈ l, v ∈ s.wild) ∧
      (x ≤ 0 ∨ x ∉ s.wild.diff l) ∧ linkChain n s e y =
        some (if x ≤ 0 then s.linked e l else (s.linked e l).removed e) := by
  induction n with
  | zero => exact fun _ _ hlen => absurd hlen (Nat.not_lt_zero _)
  | succ n ih =>
    intro s y hnext hnd hlen
    rw [linkChain]
    by_cases hy : y ≤ 0
    · rw [if_neg (by omega)]
      refine ⟨[], y, rfl, List.nodup_nil, fun v hv => (by cases hv), .inl hy, ?_⟩
      rw [if_pos hy, linked_nil]
    rw [if_pos (by omega)]
    dsimp only
    by_cases hmem : y ∈ s.wild
    · rw [if_pos hmem]
      have hstep : ({ s with
          wild := s.wild.erase y
          countOfWildEntriesElement := s.countOfWildEntriesElement - 1 } : Fs).setHead e
            { s.heads e with elements := (s.heads e).elements ++ [y]
                             countOfElements := (s.heads e).countOfElements + 1 } =
          s.linked e [y] := by
        rw [Fs.linked, List.diff_cons, List.diff_nil]
        rfl
      rw [hstep]
      have hwild : (s.linked e [y]).wild = s.wild.erase y := by
        rw [Fs.linked, List.diff_cons, List.diff_nil]
      have hsub : ∀ v ∈ (s.linked e [y]).wild, v ∈ s.wild := fun v hv =>
        List.mem_of_mem_erase (hwild ▸ hv)
      have hlen' : (s.linked e [y]).wild.length < n := by
        have := List.length_pos_of_mem hmem
        rw [hwild, List.length_erase_of_mem hmem]
        omega
      obtain ⟨l, x, hwalk, hl, hlw, hlast, heq⟩ := ih (s := s.linked e [y])
        (y := next y) (fun v hv => hnext v (hsub v hv)) (by rw [hwild]; exact hnd.erase y) hlen'
      refine ⟨y :: l, x, ⟨rfl, hwalk⟩, ?_, ?_, ?_, ?_⟩
      · refine List.nodup_cons.mpr ⟨fun hyl => ?_, hl⟩
        have := hlw y hyl
        rw [hwild, hnd.mem_erase_iff] at this
        exact this.1 rfl
      · intro v hv
        rcases List.mem_cons.mp hv with rfl | hv
        · exact hmem
        · exact hsub v (hlw v hv)
      · rw [List.diff_cons, ← hwild]
        exact hlast
      · rw [← linked_cons s e y l, ← heq]
        exact congrArg (linkChain n _ e) (hnext y hmem)
    · rw [if_neg hmem]
      refine ⟨[], y, rfl, List.nodup_nil, fun v hv => (by cases hv), .inr ?_, ?_⟩
      · rw [List.diff_nil]
        exact hmem
      · rw [if_neg hy, linked_nil]
        rfl

/-- Views were given back, and one head is on its way out. -/
structure Released (s s' : Fs) (e : Int) (views : List Int) : Prop where
  entries : s'.entries = s.entries
  wild : s'.wild = s.wild
  heads : ∀ e', e' ≠ e → s'.heads e' = s.heads e'
  gone : (s'.heads e).hardRemoveOnDetach = (s.heads e).hardRemoveOnDetach
  idle : s'.vol.idle = s.vol.idle ++ views
  cluster : ∀ v, v ∉ views → s'.vol.cluster v = s.vol.cluster v
  total : s'.vol.totalClusterCount = s.vol.totalClusterCount
  keeps : s.vol.io.Keeps s'.vol.io
  index : s'.nameIndex = s.nameIndex

theorem moveToIdle_released (htotal : 0 < s.vol.totalClusterCount) (e v : Int) :
    Released s (s.setVol (viewMoveToIdle s.vol v).2) e [v] := by
  have hk := moveToIdle_keeps s.vol v
  rw [viewMoveToIdle, if_neg (by omega)] at hk ⊢
  refine ⟨rfl, rfl, fun _ _ => rfl, rfl, rfl, fun w hw => ?_, rfl, hk, rfl⟩
  exact Function.update_of_ne (fun heq => hw (List.mem_singleton.mpr heq)) ..

theorem freeElement_released (htotal : 0 < s.vol.totalClusterCount)
    (hgone : (s.heads e).hardRemoveOnDetach = true) (v : Int) :
    Released s (freeElement s e v) e [v] := by
  rw [freeElement]
  simp only [hgone, if_true]
  obtain ⟨h₁, h₂, h₃, -, h₅, h₆, h₇, h₈, h₉⟩ := moveToIdle_released htotal e v
  refine ⟨h₁, h₂, fun e' he' => setHead_heads_ne s he' _, ?_, h₅, h₆, h₇, h₈, h₉⟩
  show ((s.setHead e _).heads e).hardRemoveOnDetach = _
  rw [setHead_heads_self, hgone]

theorem freeElement_foldl_released (views : List Int) : ∀ {s : Fs},
    0 < s.vol.totalClusterCount → (s.heads e).hardRemoveOnDetach = true →
      Released s (views.foldl (fun s view => freeElement s e view) s) e views := by
  induction views with
  | nil => exact fun _ _ => ⟨rfl, rfl, fun _ _ => rfl, rfl, (List.append_nil _).symm,
      fun _ _ => rfl, rfl, .refl _, rfl⟩
  | cons v views ih =>
    intro s htotal hgone
    have h := freeElement_released htotal hgone v
    have h' := ih (s := freeElement s e v) (by rw [h.total]; exact htotal)
      (by rw [h.gone]; exact hgone)
    refine ⟨h'.entries.trans h.entries, h'.wild.trans h.wild,
      fun e' he' => (h'.heads e' he').trans (h.heads e' he'), h'.gone.trans h.gone, ?_, ?_,
      h'.total.trans h.total, h.keeps.trans h'.keeps, h'.index.trans h.index⟩
    · rw [List.foldl_cons, h'.idle, h.idle, List.append_assoc]
      rfl
    · intro w hw
      rw [List.mem_cons, not_or] at hw
      rw [List.foldl_cons, h'.cluster w hw.2, h.cluster w fun hmem =>
        hw.1 (List.mem_singleton.mp hmem)]

/-- What becomes of the file system when a head is removed. -/
structure Removed (s s' : Fs) (e : Int) : Prop where
  entries : s'.entries = s.entries.erase e
  wild : s'.wild = s.wild
  heads : ∀ e', e' ≠ e → s'.heads e' = s.heads e'
  idle : s'.vol.idle = s.vol.idle ++ (s.heads e).elements ++ [e]
  cluster : ∀ v, v ≠ e → v ∉ (s.heads e).elements → s'.vol.cluster v = s.vol.cluster v
  total : s'.vol.totalClusterCount = s.vol.totalClusterCount
  keeps : s.vol.io.Keeps s'.vol.io
  index : s'.nameIndex = s.nameIndex.leave ⟨(s.heads e).key, e⟩

theorem freeHead_removed (htotal : 0 < s.vol.totalClusterCount)
    (hgone : (s.heads e).hardRemoveOnDetach = true) : Removed s (freeHead s e) e := by
  have hdetach : (detachHead s e).vol = s.vol ∧ (detachHead s e).heads = s.heads ∧
      (detachHead s e).wild = s.wild ∧ (detachHead s e).entries = s.entries.erase e := by
    rw [detachHead]
    simp only
    split
    · exact ⟨rfl, rfl, rfl, rfl⟩
    · exact ⟨rfl, rfl, rfl, rfl⟩
  obtain ⟨hvol, hheads, hwild, hentries⟩ := hdetach
  have hindex := detachHead_nameIndex s e
  have h := freeElement_foldl_released (e := e) (s.heads e).elements (s := detachHead s e)
    (by rw [hvol]; exact htotal) (by rw [hheads]; exact hgone)
  rw [freeHead, freeElements, hheads]
  generalize (s.heads e).elements.foldl (fun s view => freeElement s e view)
    (detachHead s e) = s₁ at h
  have hgone₁ : (s₁.heads e).hardRemoveOnDetach = true := by
    rw [h.gone, hheads]
    exact hgone
  have h' := moveToIdle_released (s := s₁) (by rw [h.total, hvol]; exact htotal) e e
  simp only [hgone₁, if_true]
  refine ⟨?_, ?_, fun e' he' => ?_, ?_, fun v hv hv' => ?_, ?_, ?_, ?_⟩
  · rw [h'.entries, h.entries, hentries]
  · rw [h'.wild, h.wild, hwild]
  · rw [h'.heads e' he', h.heads e' he', hheads]
  · rw [h'.idle, h.idle, hvol]
  · rw [h'.cluster v fun hmem => hv (List.mem_singleton.mp hmem), h.cluster v hv', hvol]
  · rw [h'.total, h.total, hvol]
  · rw [← hvol]
    exact h.keeps.trans h'.keeps
  · rw [h'.index, h.index, hindex]

theorem removed_removed (htotal : 0 < s.vol.totalClusterCount) (hio : (s.heads e).ioRefcnt = 0) :
    Removed s (s.removed e) e := by
  have htry : s.removed e = freeHead (s.setHead e { s.heads e with
      hardRemoveOnDetach := true, state := .closeWait, refcnt := 0 }) e := by
    rw [Fs.removed, tryDeleteHead]
    simp only [setHead_heads_self, hio, and_self, if_true, setHead_setHead]
  have h := freeHead_removed (s := s.setHead e { s.heads e with
    hardRemoveOnDetach := true, state := .closeWait, refcnt := 0 }) (e := e) htotal
    (by rw [setHead_heads_self])
  rw [← htry] at h
  refine ⟨h.entries, h.wild, fun e' he' => ?_, ?_, fun v hv hv' => ?_, h.total, h.keeps, ?_⟩
  · rw [h.heads e' he', setHead_heads_ne s he']
  · rw [h.idle, setHead_heads_self]
    rfl
  · exact h.cluster v hv (by rw [setHead_heads_self]; exact hv')
  · rw [h.index, setHead_heads_self]
    rfl

end Link

/-! ## All the heads -/

/-- Where the views are: heads, elements of heads, wild, or idle. -/
def Fs.places (s : Fs) : List Int :=
  s.entries ++ s.entries.flatMap (fun h => (s.heads h).elements) ++ s.wild ++ s.vol.idle

/-- The outer loop of `__evfs_entries_init`: the heads `done` were followed, the heads `todo` were
not. -/
structure Linking (u : List (List UInt8)) (done todo : List Int) (s : Fs) : Prop where
  table : tableHeads u = done ++ todo
  total : s.vol.totalClusterCount = u.length - 1
  nodup : s.places.Nodup
  wild : ∀ e, e ∈ s.wild ↔ e ∈ tableElements u ∧ ¬Taken u done e
  next : ∀ v, v ∈ todo ∨ v ∈ s.wild → viewGetNextClusterId s.vol v = tableNext u v
  entries : ∀ h ∈ s.entries, h ∈ tableHeads u
  waits : ∀ h ∈ todo, h ∈ s.entries ∧ ∃ key, s.heads h = .found key
  chain : ∀ h ∈ s.entries, h ∈ done → (∀ e ∈ (s.heads h).elements, 0 < e) ∧
    ∃ x ≤ 0, Walk (tableNext u) (tableNext u h) (s.heads h).elements x
  survives : ∀ before h after, done = before ++ h :: after → (h ∈ s.entries ↔ Intact u before h)
  returned : ∀ before h after, done = before ++ h :: after → h ∉ s.entries →
    h ∈ s.vol.idle ∧ ∀ e, Leads u h e → ¬Taken u before e → e ∈ s.vol.idle

section Links

variable {u : List (List UInt8)} {done todo l : List Int} {s s' : Fs} {h x : Int}

/-- Taking elements for a head moves them, and nothing else. -/
theorem places_linked (hh : h ∈ s.entries) (hnil : (s.heads h).elements = [])
    (hnd : s.entries.Nodup)
    (hl : l.Nodup) (hlw : ∀ v ∈ l, v ∈ s.wild) : (s.linked h l).places.Perm s.places := by
  have hold := flatMap_perm_erase hh fun h => (s.heads h).elements
  have hnew := flatMap_perm_erase hh fun h' => ((s.linked h l).heads h').elements
  have hrest : (s.entries.erase h).flatMap (fun h' => ((s.linked h l).heads h').elements) =
      (s.entries.erase h).flatMap fun h => (s.heads h).elements :=
    flatMap_erase_congr hnd fun b _ hb => congrArg Head.elements (Function.update_of_ne hb ..)
  have helems : ((s.linked h l).heads h).elements = l := by
    rw [linked_heads_self, hnil, List.nil_append]
  have hwild := List.subperm_append_diff_self_of_count_le
    (List.subperm_ext_iff.mp (List.subperm_of_subset hl hlw))
  rw [hrest, helems] at hnew
  rw [hnil] at hold
  refine List.perm_iff_count.mpr fun a => ?_
  have h₁ := hold.count_eq a
  have h₂ := hnew.count_eq a
  have h₃ := hwild.count_eq a
  simp only [Fs.places, List.count_append, List.count_nil] at h₁ h₂ h₃ ⊢
  rw [show (s.linked h l).entries = s.entries from rfl,
    show (s.linked h l).wild = s.wild.diff l from rfl,
    show (s.linked h l).vol = s.vol from rfl]
  omega

/-- Removing a head moves its views to the idle ones, and nothing else. -/
theorem Removed.places (hr : Removed s s' h) (hh : h ∈ s.entries) (hnd : s.entries.Nodup) :
    s'.places.Perm s.places := by
  have hold := flatMap_perm_erase hh fun h => (s.heads h).elements
  have hrest : (s.entries.erase h).flatMap (fun h' => (s'.heads h').elements) =
      (s.entries.erase h).flatMap fun h => (s.heads h).elements :=
    flatMap_erase_congr hnd fun b _ hb => congrArg Head.elements (hr.heads b hb)
  have hentries := List.perm_cons_erase hh
  refine List.perm_iff_count.mpr fun a => ?_
  have h₁ := hold.count_eq a
  have h₂ := hentries.count_eq a
  rw [List.count_cons] at h₂
  simp only [Fs.places, hr.entries, hr.wild, hr.idle, hrest, List.count_append, List.count_cons,
    List.count_nil] at h₁ ⊢
  omega

theorem Linking.nodup_entries (hs : Linking u done todo s) : s.entries.Nodup :=
  hs.nodup.of_append_left.of_append_left.of_append_left

theorem Linking.notMem (hs : Linking u done (h :: todo) s) : h ∉ done ∧ h ∉ todo := by
  have hnd := nodup_tableHeads u
  rw [hs.table] at hnd
  exact ⟨fun hmem => List.disjoint_of_nodup_append hnd hmem List.mem_cons_self,
    (List.nodup_cons.mp hnd.of_append_right).1⟩

theorem Linking.total_pos (hs : Linking u done (h :: todo) s) : 0 < s.vol.totalClusterCount := by
  have hh : h ∈ tableHeads u := by
    rw [hs.table]
    exact List.mem_append_right _ List.mem_cons_self
  obtain ⟨h₁, h₂⟩ := mem_viewIds.mp (mem_tableHeads.mp hh).1
  rw [hs.total]
  omega

/-- What the inner loop took for a head is a walk that was stopped. -/
theorem Linking.cut (hs : Linking u done todo s) (hwalk : Walk (tableNext u) (tableNext u h) l x)
    (hlw : ∀ v ∈ l, v ∈ s.wild) (hlast : x ≤ 0 ∨ x ∉ s.wild.diff l) :
    Cut (tableNext u) (· ∈ tableElements u) (Taken u done) (· ≤ 0) (tableNext u h) l x where
  walk := hwalk
  nodes := fun e he => ((hs.wild e).mp (hlw e he)).1
  free := fun e he => ((hs.wild e).mp (hlw e he)).2
  last := by
    refine hlast.imp_right fun hx => ?_
    have hnd : s.wild.Nodup := hs.nodup.of_append_left.of_append_right
    rw [hnd.mem_sdiff_iff, hs.wild] at hx
    tauto

theorem Linking.taken_iff (hcut : Cut (tableNext u) (· ∈ tableElements u) (Taken u done) (· ≤ 0)
    (tableNext u h) l x) (e : Int) : Taken u (done ++ [h]) e ↔ Taken u done e ∨ e ∈ l := by
  rw [taken_append]
  refine hcut.reach_iff (fun e he hmem => ?_) (fun e he hok => he.next hok) e
  have := pos_of_mem_tableElements hmem
  omega

theorem Linking.intact_iff (hcut : Cut (tableNext u) (· ∈ tableElements u) (Taken u done) (· ≤ 0)
    (tableNext u h) l x) : x ≤ 0 ↔ Intact u done h := by
  refine hcut.ends_iff fun e he hmem => ?_
  have := pos_of_mem_tableElements hmem
  omega

theorem Linking.wild_iff (hs : Linking u done todo s)
    (hcut : Cut (tableNext u) (· ∈ tableElements u) (Taken u done) (· ≤ 0) (tableNext u h) l x)
    (e : Int) : e ∈ s.wild.diff l ↔ e ∈ tableElements u ∧ ¬Taken u (done ++ [h]) e := by
  have hnd : s.wild.Nodup := hs.nodup.of_append_left.of_append_right
  rw [hnd.mem_sdiff_iff, hs.wild, Linking.taken_iff hcut]
  tauto

/-- A head among the ones that were followed is the last one, or was followed before. -/
theorem split_concat {α : Type} {l before after : List α} {a b : α}
    (h : l ++ [a] = before ++ b :: after) :
    (before = l ∧ b = a) ∨ ∃ after', l = before ++ b :: after' := by
  rcases List.eq_nil_or_concat after with rfl | ⟨after', c, rfl⟩
  · obtain ⟨h₁, h₂⟩ := List.append_inj' h rfl
    cases h₂
    exact .inl ⟨h₁.symm, rfl⟩
  · rw [List.concat_eq_append, ← List.cons_append, ← List.append_assoc] at h
    exact .inr ⟨after', (List.append_inj' h rfl).1⟩

/-- A head keeps its chain. -/
theorem Linking.keep (hs : Linking u done (h :: todo) s)
    (hcut : Cut (tableNext u) (· ∈ tableElements u) (Taken u done) (· ≤ 0) (tableNext u h) l x)
    (hl : l.Nodup) (hlw : ∀ v ∈ l, v ∈ s.wild) (hx : x ≤ 0) :
    Linking u (done ++ [h]) todo (s.linked h l) := by
  obtain ⟨hdone, htodo⟩ := hs.notMem
  obtain ⟨hmem, key, hkey⟩ := hs.waits h List.mem_cons_self
  have hnil : (s.heads h).elements = [] := by
    rw [hkey]
    rfl
  have hheads : ∀ h', h' ≠ h → (s.linked h l).heads h' = s.heads h' := fun h' hne =>
    Function.update_of_ne hne ..
  refine ⟨by rw [hs.table, List.append_cons], hs.total, ?_, hs.wild_iff hcut, fun v hv =>
    ?_, hs.entries,
    fun h' hh' => ?_, fun h' hh' hd => ?_, fun before h' after hsplit => ?_,
    fun before h' after hsplit hno => ?_⟩
  · exact (places_linked hmem hnil hs.nodup_entries hl hlw).nodup_iff.mpr hs.nodup
  · exact hs.next v (hv.imp (List.mem_cons_of_mem _) fun hv => (List.diff_subset _ _) hv)
  · rw [hheads h' (ne_of_mem_of_not_mem hh' htodo)]
    exact hs.waits h' (List.mem_cons_of_mem _ hh')
  · rcases List.mem_append.mp hd with hd | hd
    · rw [hheads h' (ne_of_mem_of_not_mem hd hdone)]
      exact hs.chain h' hh' hd
    · rw [List.mem_singleton.mp hd, linked_heads_self, hnil]
      exact ⟨fun e he => pos_of_mem_tableElements (hcut.nodes e he), x, hx, hcut.walk⟩
  · rcases split_concat hsplit with ⟨rfl, rfl⟩ | ⟨after', hold⟩
    · exact iff_of_true hmem ((Linking.intact_iff hcut).mp hx)
    · exact hs.survives before h' after' hold
  · rcases split_concat hsplit with ⟨rfl, rfl⟩ | ⟨after', hold⟩
    · exact absurd hmem hno
    · exact hs.returned before h' after' hold hno

/-- A head is removed, and everything that was taken for it is idle again. -/
theorem Linking.drop (hs : Linking u done (h :: todo) s)
    (hcut : Cut (tableNext u) (· ∈ tableElements u) (Taken u done) (· ≤ 0) (tableNext u h) l x)
    (hl : l.Nodup) (hlw : ∀ v ∈ l, v ∈ s.wild) (hx : ¬x ≤ 0)
    (hr : Removed (s.linked h l) s' h) : Linking u (done ++ [h]) todo s' := by
  obtain ⟨hdone, htodo⟩ := hs.notMem
  obtain ⟨hmem, key, hkey⟩ := hs.waits h List.mem_cons_self
  have hnil : (s.heads h).elements = [] := by
    rw [hkey]
    rfl
  have helems : ((s.linked h l).heads h).elements = l := by
    rw [linked_heads_self, hnil, List.nil_append]
  have hheads : ∀ h', h' ≠ h → s'.heads h' = s.heads h' := fun h' hne =>
    (hr.heads h' hne).trans (Function.update_of_ne hne ..)
  have hentries : ∀ h', h' ∈ s'.entries ↔ h' ≠ h ∧ h' ∈ s.entries := fun h' => by
    rw [hr.entries]
    exact hs.nodup_entries.mem_erase_iff
  have hidle : s'.vol.idle = s.vol.idle ++ l ++ [h] := by
    rw [hr.idle, helems]
    rfl
  have hperm := (hr.places hmem hs.nodup_entries).trans
    (places_linked hmem hnil hs.nodup_entries hl hlw)
  have hne : ∀ {before h' after}, done = before ++ h' :: after → h' ≠ h := by
    rintro before h' after rfl rfl
    exact hdone (List.mem_append_right _ List.mem_cons_self)
  refine ⟨by rw [hs.table, List.append_cons], hr.total.trans hs.total, hperm.nodup_iff.mpr hs.nodup,
    fun e => ?_, fun v hv => ?_, fun h' hh' => hs.entries h' ((hentries h').mp hh').2,
    fun h' hh' => ?_, fun h' hh' hd => ?_, fun before h' after hsplit => ?_,
    fun before h' after hsplit hno => ?_⟩
  · rw [hr.wild]
    exact hs.wild_iff hcut e
  · -- what is still to be followed is none of the clusters that were given back
    have hwild : v ∈ s'.wild → v ∈ s.wild ∧ v ∉ l := fun hv => by
      rw [hr.wild] at hv
      exact (hs.nodup.of_append_left.of_append_right : s.wild.Nodup).mem_sdiff_iff.mp hv
    have hvh : v ≠ h := by
      rintro rfl
      refine hv.elim htodo fun hv => ?_
      exact List.disjoint_of_nodup_append hs.nodup.of_append_left
        (List.mem_append_left _ hmem) (hwild hv).1
    have hvl : v ∉ l := fun hvl => hv.elim
      (fun hv => List.disjoint_of_nodup_append hs.nodup.of_append_left
        (List.mem_append_left _ (hs.waits v (List.mem_cons_of_mem _ hv)).1) (hlw v hvl))
      fun hv => (hwild hv).2 hvl
    rw [viewGetNextClusterId, hr.cluster v hvh (by rw [helems]; exact hvl)]
    exact hs.next v (hv.imp (List.mem_cons_of_mem _) fun hv => (hwild hv).1)
  · have hh := hs.waits h' (List.mem_cons_of_mem _ hh')
    have hneq := ne_of_mem_of_not_mem hh' htodo
    rw [hheads h' hneq]
    exact ⟨(hentries h').mpr ⟨hneq, hh.1⟩, hh.2⟩
  · obtain ⟨hneq, hh'⟩ := (hentries h').mp hh'
    rw [hheads h' hneq]
    refine hs.chain h' hh' ?_
    rcases List.mem_append.mp hd with hd | hd
    · exact hd
    · exact absurd (List.mem_singleton.mp hd) hneq
  · rw [hentries]
    rcases split_concat hsplit with ⟨rfl, rfl⟩ | ⟨after', hold⟩
    · exact iff_of_false (fun hc => hc.1 rfl) fun hc => hx ((Linking.intact_iff hcut).mpr hc)
    · rw [← hs.survives before h' after' hold]
      exact ⟨And.right, fun hh' => ⟨hne hold, hh'⟩⟩
  · rw [hidle]
    rcases split_concat hsplit with ⟨rfl, rfl⟩ | ⟨after', hold⟩
    · refine ⟨List.mem_append_right _ (List.mem_singleton_self _), fun e hlead hfree => ?_⟩
      have he := (Linking.taken_iff hcut e).mp (taken_append.mpr (.inr hlead))
      exact List.mem_append_left _ (List.mem_append_right _ (he.resolve_left hfree))
    · obtain ⟨h₁, h₂⟩ := hs.returned before h' after' hold fun hh' =>
        hno ((hentries h').mpr ⟨hne hold, hh'⟩)
      rw [List.append_assoc]
      exact ⟨List.mem_append_left _ h₁, fun e hlead hfree =>
        List.mem_append_left _ (h₂ e hlead hfree)⟩

/-- Elements were taken for heads, and nothing else has changed. -/
structure Joined (s s' : Fs) : Prop where
  vol : s'.vol = s.vol
  entries : s'.entries = s.entries
  tree : s'.rootOfEntriesTree = s.rootOfEntriesTree
  named : s'.rootOfNamedEntriesTree = s.rootOfNamedEntriesTree
  countOfEntries : s'.countOfEntries = s.countOfEntries
  heads : ∀ h, ∃ l, s'.heads h = { s.heads h with
    elements := (s.heads h).elements ++ l
    countOfElements := (s.heads h).countOfElements + l.length }
  countOfWild : s.countOfWildEntriesElement = s.wild.length →
    s'.countOfWildEntriesElement = s'.wild.length
  fault : s'.fault = s.fault

theorem Joined.refl (s : Fs) : Joined s s := by
  refine ⟨rfl, rfl, rfl, rfl, rfl, fun h => ⟨[], ?_⟩, id, rfl⟩
  rw [List.append_nil, List.length_nil, Int.natCast_zero, Int.add_zero]

theorem Joined.trans {s'' : Fs} (h : Joined s s') (h' : Joined s' s'') : Joined s s'' := by
  refine ⟨h'.vol.trans h.vol, h'.entries.trans h.entries, h'.tree.trans h.tree,
    h'.named.trans h.named, h'.countOfEntries.trans h.countOfEntries, fun e => ?_,
    h'.countOfWild ∘ h.countOfWild, h'.fault.trans h.fault⟩
  obtain ⟨l, hl⟩ := h.heads e
  obtain ⟨l', hl'⟩ := h'.heads e
  refine ⟨l ++ l', ?_⟩
  rw [hl', hl]
  simp only [List.append_assoc, List.length_append, Int.natCast_add, Int.add_assoc]

theorem joined_linked (hl : l.Nodup) (hlw : ∀ v ∈ l, v ∈ s.wild) : Joined s (s.linked h l) := by
  refine ⟨rfl, rfl, rfl, rfl, rfl, fun e => ?_, fun hcount => ?_, rfl⟩
  · by_cases he : e = h
    · exact ⟨l, by rw [he, linked_heads_self]⟩
    · refine ⟨[], ?_⟩
      rw [List.append_nil, List.length_nil, Int.natCast_zero, Int.add_zero]
      exact Function.update_of_ne he ..
  · have hperm := List.subperm_append_diff_self_of_count_le
      (List.subperm_ext_iff.mp (List.subperm_of_subset hl hlw))
    have hlen := hperm.length_eq
    rw [List.length_append] at hlen
    show s.countOfWildEntriesElement - l.length = ((s.wild.diff l).length : Int)
    omega

section Index

variable {clusterSize : Nat} {i : NameIndex}

open scoped Classical in
/-- The heads `todo` are followed, after the heads `done`: one with a broken chain leaves the
index. -/
noncomputable def leaveBroken (clusterSize : Nat) (u : List (List UInt8)) :
    List Int → List Int → NameIndex → NameIndex
  | _, [], i => i
  | done, h :: todo, i => leaveBroken clusterSize u (done ++ [h]) todo
      (if Intact u done h then i else i.leave (leafOf clusterSize u h))

theorem NameIndex.terminated_enter_foldl (l : List Int) : ∀ {i : NameIndex},
    (∀ e ∈ l, 0 ∈ keyOf clusterSize u e) → i.Terminated → i.fault = false →
      (l.foldl (fun i e => i.enter (leafOf clusterSize u e)) i).Terminated ∧
        (l.foldl (fun i e => i.enter (leafOf clusterSize u e)) i).fault = false := by
  induction l with
  | nil => exact fun _ hi hf => ⟨hi, hf⟩
  | cons e l ih =>
    intro i hl hi hf
    obtain ⟨hi', hf'⟩ := hi.enter
      (show 0 ∈ (leafOf clusterSize u e).key from hl e List.mem_cons_self)
    exact ih (fun e' he' => hl e' (List.mem_cons_of_mem _ he')) hi' (hf'.trans hf)

theorem NameIndex.terminated_leaveBroken (todo : List Int) : ∀ {done : List Int} {i : NameIndex},
    (∀ e ∈ todo, 0 ∈ keyOf clusterSize u e) → i.Terminated → i.fault = false →
      (leaveBroken clusterSize u done todo i).Terminated ∧
        (leaveBroken clusterSize u done todo i).fault = false := by
  induction todo with
  | nil => exact fun _ hi hf => ⟨hi, hf⟩
  | cons e todo ih =>
    intro done i hl hi hf
    have hrest := fun e' he' => hl e' (List.mem_cons_of_mem e he')
    rw [leaveBroken]
    split
    · exact ih hrest hi hf
    · obtain ⟨hi', hf'⟩ := hi.leave
        (show 0 ∈ (leafOf clusterSize u e).key from hl e List.mem_cons_self)
      exact ih hrest hi' (hf'.trans hf)

/-- The index by key after an image was loaded. -/
noncomputable def loadedIndex (clusterSize : Nat) (u : List (List UInt8)) : NameIndex :=
  leaveBroken clusterSize u [] (tableHeads u)
    ((tableHeads u).foldl (fun i e => i.enter (leafOf clusterSize u e)) .empty)

/-- No comparison in the index reads behind a key, while the heads enter it in their order and those
with a broken chain leave it. -/
def Comparable (clusterSize : Nat) (u : List (List UInt8)) : Prop :=
  (loadedIndex clusterSize u).fault = false

/-- Keys that end in their buffers can be compared. -/
theorem loadedIndex_terminated (h : ∀ e ∈ tableHeads u, 0 ∈ keyOf clusterSize u e) :
    (loadedIndex clusterSize u).Terminated ∧ Comparable clusterSize u := by
  obtain ⟨hi, hf⟩ := NameIndex.terminated_enter_foldl (tableHeads u) (i := .empty) h
    (fun leaf hleaf => by cases hleaf) rfl
  exact NameIndex.terminated_leaveBroken (tableHeads u) h hi hf

theorem Joined.tracked (hj : Joined s s') (ht : Tracked clusterSize u s i) :
    Tracked clusterSize u s' i := by
  refine ⟨?_, fun e he => ?_, ?_⟩
  · rw [← ht.index, Fs.nameIndex, hj.named, hj.fault, Fs.nameIndex]
  · obtain ⟨l', hl'⟩ := hj.heads e
    rw [hl']
    exact ht.keys e (hj.entries ▸ he)
  · rw [hj.vol]
    exact ht.io

theorem Removed.tracked (hr : Removed (s.linked h l) s' h) (hh : h ∈ s.entries)
    (hnd : s.entries.Nodup) (ht : Tracked clusterSize u s i) :
    Tracked clusterSize u s' (i.leave (leafOf clusterSize u h)) := by
  refine ⟨?_, fun e he => ?_, hr.keeps.fault.trans ht.io⟩
  · rw [hr.index, linked_heads_self, ht.keys h hh, ← ht.index]
    rfl
  · rw [hr.entries, show (s.linked h l).entries = s.entries from rfl, hnd.mem_erase_iff] at he
    rw [hr.heads e he.1, show (s.linked h l).heads e = s.heads e from Function.update_of_ne he.1 ..]
    exact ht.keys e he.2

end Index

open scoped Classical in
/-- One head is followed. -/
theorem Linking.step (hs : Linking u done (h :: todo) s) : ∃ s',
    linkChain (s.wild.length + 1) s h (viewGetNextClusterId s.vol h) = some s' ∧
      Linking u (done ++ [h]) todo s' ∧ (Intact u done h → Joined s s') ∧
      ∀ clusterSize i, Tracked clusterSize u s i → Tracked clusterSize u s'
        (if Intact u done h then i else i.leave (leafOf clusterSize u h)) := by
  obtain ⟨hmem, key, hkey⟩ := hs.waits h List.mem_cons_self
  obtain ⟨l, x, hwalk, hl, hlw, hlast, heq⟩ := linkChain_spec (e := h) (tableNext u)
    (s.wild.length + 1) (s := s) (y := tableNext u h) (fun v hv => hs.next v (.inr hv))
    hs.nodup.of_append_left.of_append_right (Nat.lt_succ_self _)
  have hcut := hs.cut hwalk hlw hlast
  rw [hs.next h (.inl List.mem_cons_self), heq]
  refine ⟨_, rfl, ?_⟩
  split
  · rename_i hx
    have hintact := (Linking.intact_iff hcut).mp hx
    refine ⟨hs.keep hcut hl hlw hx, fun _ => joined_linked hl hlw, fun clusterSize i ht => ?_⟩
    rw [if_pos hintact]
    exact (joined_linked hl hlw).tracked ht
  · rename_i hx
    have hio : ((s.linked h l).heads h).ioRefcnt = 0 := by
      rw [linked_heads_self, hkey]
      rfl
    have hbroken : ¬Intact u done h := fun hintact => hx ((Linking.intact_iff hcut).mpr hintact)
    have hr := removed_removed (s := s.linked h l) hs.total_pos hio
    refine ⟨hs.drop hcut hl hlw hx hr, fun hintact => absurd hintact hbroken,
      fun clusterSize i ht => ?_⟩
    rw [if_neg hbroken]
    exact hr.tracked hmem hs.nodup_entries ht

/-- All of them are. -/
theorem linking_foldlM (todo : List Int) : ∀ {done : List Int} {s : Fs}, Linking u done todo s →
    ∃ s', todo.foldlM (fun s e =>
      linkChain (s.wild.length + 1) s e (viewGetNextClusterId s.vol e)) s = some s' ∧
        Linking u (done ++ todo) [] s' ∧
        ((∀ before h after, tableHeads u = before ++ h :: after → Intact u before h) →
          Joined s s') ∧
        ∀ clusterSize i, Tracked clusterSize u s i →
          Tracked clusterSize u s' (leaveBroken clusterSize u done todo i) := by
  induction todo with
  | nil =>
    intro done s hs
    refine ⟨s, rfl, ?_, fun _ => .refl s, fun _ _ ht => ht⟩
    rw [List.append_nil]
    exact hs
  | cons h todo ih =>
    intro done s hs
    obtain ⟨s₁, hstep, hs₁, hj₁, ht₁⟩ := hs.step
    obtain ⟨s', hrest, hs', hj', ht'⟩ := ih hs₁
    refine ⟨s', ?_, by rw [List.append_cons]; exact hs', fun hall => ?_, fun clusterSize i ht => ?_⟩
    · rw [List.foldlM_cons, hstep]
      exact hrest
    · exact (hj₁ (hall done h todo hs.table)).trans (hj' hall)
    · exact ht' clusterSize _ (ht₁ clusterSize i ht)

end Links

/-! ## The whole file -/

/-- Managers that are not in use.  The index by key does not matter to what follows. -/
structure Fs.Clean (s : Fs) : Prop where
  total : s.vol.totalClusterCount = 0
  idle : s.vol.idle = []
  busy : s.vol.busy = []
  countIdle : s.vol.countOfIdleViews = 0
  countBusy : s.vol.countOfBusyViews = 0
  viewTree : s.vol.rootOfViewTree = .nil
  entries : s.entries = []
  tree : s.rootOfEntriesTree = .nil
  countOfEntries : s.countOfEntries = 0
  wild : s.wild = []
  countOfWild : s.countOfWildEntriesElement = 0

theorem clean_init : Fs.init.Clean :=
  ⟨rfl, rfl, rfl, rfl, rfl, rfl, rfl, rfl, rfl, rfl, rfl⟩

theorem Fs.Clean.wf_tree {s : Fs} (hs : s.Clean) : Avl.Wf id s.rootOfEntriesTree := by
  rw [hs.tree]
  exact Avl.wf_nil

theorem Fs.Clean.mem_tree {s : Fs} (hs : s.Clean) (v : Int) :
    v ∈ Avl.toList s.rootOfEntriesTree ↔ v ∈ s.entries := by
  rw [hs.tree, hs.entries]
  exact Iff.rfl

/-- The managers with the sizes of a file, as `evfs_view_load` leaves them. -/
def Fs.sized (s : Fs) (hard : Hard) : Fs :=
  s.setVol { s.vol with
    clusterSize := hard.clusterSize, maxDataSegSize := hardGetMaxDataSegSize hard }

section Whole

variable {hard : Hard} {u : List (List UInt8)} {s : Fs}

/-- The views of a file that was read, before any of them is looked at. -/
structure Read (cache : Cache) (s : Fs) (vol : Vol) : Prop where
  grown : Grown { s.vol with io := ⟨cache, [], s.vol.io.fault⟩, totalClusterCount :=
      cache.hard.clusterCount - 1 } vol 1
    (cache.hard.clusterCount - 1).toNat
  cluster : ∀ v ∈ viewIds cache.hard.clusterCount, vol.cluster v = hdr cache.hard.file v

/-- `evfs_view_load` reads the headers and then looks at every view. -/
theorem viewLoad_eq (hs : s.Clean) (garbage : Garbage) {cache : Cache} (hwf : cache.hard.Wf)
    (hlen : (cache.hard.file.length : Int) = cache.hard.clusterCount) : ∃ vol, Read cache s vol ∧
      viewLoad garbage (s.setVol { s.vol with io := ⟨cache, [], s.vol.io.fault⟩ }) = (0,
        ((viewIds cache.hard.clusterCount).foldl recognizeView (s.setVol vol)).sized
          cache.hard) := by
  have halloc : (s.setVol { s.vol with io := ⟨cache, [], s.vol.io.fault⟩ }).alloc =
      (true, s.setVol { s.vol with io := ⟨cache, [], s.vol.io.fault⟩ }) := rfl
  have hlt : ∀ v ∈ nextIds 1 (cache.hard.clusterCount - 1).toNat, v < cache.hard.file.length := by
    intro v hv
    rw [← viewIds_eq_nextIds, mem_viewIds] at hv
    omega
  obtain ⟨hstatus, grown, hcluster⟩ := loadViews_grown (cache.hard.clusterCount - 1).toNat 1
    garbage.cluster { s.vol with io := ⟨cache, [], s.vol.io.fault⟩, totalClusterCount :=
    cache.hard.clusterCount - 1 }
    rfl hwf (Int.le_refl 1) hlt
  rw [viewLoad, halloc]
  simp only [if_true, Fs.setVol, hs.total, ne_eq, not_true, if_false, hardGetUsableClusterCount]
  generalize loadViews _ 1 _ _ = r at hstatus grown hcluster
  have hidle : r.2.idle = viewIds cache.hard.clusterCount := by
    rw [grown.idle, viewIds_eq_nextIds, hs.idle]
    rfl
  rw [← viewIds_eq_nextIds] at hcluster
  refine ⟨r.2, ⟨grown, hcluster⟩, ?_⟩
  rw [hstatus, hidle]
  simp only [nspSuccess_zero, if_true]
  rfl

theorem Read.recognized {cache : Cache} {vol : Vol} (hs : s.Clean) (r : Read cache s vol)
    (hlen : (cache.hard.file.length : Int) = cache.hard.clusterCount) :
    Recognized cache.hard.file [] (viewIds cache.hard.clusterCount) (s.setVol vol) := by
  refine ⟨?_, ?_, hs.entries, hs.wild, ?_, fun v hv => (by cases hv), r.cluster, fun h hh => ?_⟩
  · show vol.io.allocFaults = []
    rw [r.grown.io]
  · show vol.totalClusterCount = _
    rw [r.grown.total, hlen]
  · show vol.idle = _
    rw [r.grown.idle, viewIds_eq_nextIds, hs.idle]
    rfl
  · rw [show (s.setVol vol).entries = s.entries from rfl, hs.entries] at hh
    cases hh

theorem Recognized.sized {done todo : List Int} (h : Recognized u done todo s) (hard : Hard) :
    Recognized u done todo (s.sized hard) :=
  ⟨h.allocFaults, h.total, h.entries, h.wild, h.idle, h.cluster, h.unseen, h.found⟩

theorem nodup_filter_append {α : Type} {l : List α} (hl : l.Nodup) {p q : α → Bool}
    (hpq : ∀ a, p a = true → q a = false) : (l.filter p ++ l.filter q).Nodup := by
  refine (hl.filter p).append (hl.filter q) fun a ha ha' => ?_
  have h₁ := (List.mem_filter.mp ha).2
  have h₂ := (List.mem_filter.mp ha').2
  rw [hpq a h₁] at h₂
  cases h₂

/-- Before any head is followed, all elements are wild. -/
theorem Recognized.linking (h : Recognized u (viewIds u.length) [] s) :
    Linking u [] (tableHeads u) s := by
  have hentries : s.entries = tableHeads u := h.entries
  have hwild : s.wild = tableElements u := h.wild
  have hnext : ∀ v ∈ viewIds u.length, viewGetNextClusterId s.vol v = tableNext u v := by
    intro v hv
    rw [viewGetNextClusterId, tableNext]
    rcases h.cluster v hv with heq | heq
    · rw [heq]
    · rw [heq]
  have hnil : s.entries.flatMap (fun h => (s.heads h).elements) = [] := by
    rw [List.flatMap_eq_nil_iff]
    intro e he
    obtain ⟨key, hkey⟩ := h.found e he
    rw [hkey]
    rfl
  refine ⟨rfl, h.total, ?_, fun e => ?_, fun v hv => ?_, fun e he => hentries ▸ he,
    fun e he => ⟨hentries ▸ he, h.found e (hentries ▸ he)⟩, fun e _ he => (by cases he), ?_, ?_⟩
  · rw [Fs.places, hnil, List.append_nil, h.entries, h.wild, h.idle, List.append_nil]
    have hnd := nodup_viewIds u.length
    have hdisj : ∀ c : Cluster, c.looksLikeHead = true → c.looksLikeElement = false := by
      intro c hc
      rw [Cluster.looksLikeElement, hc, Bool.not_true, Bool.and_false]
    refine (nodup_filter_append hnd fun v hv => hdisj _ hv).append (hnd.filter _) fun v hv hv' => ?_
    have hidle := (List.mem_filter.mp hv').2
    have hbusy : (hdr u v).looksLikeBusy = true := by
      rcases List.mem_append.mp hv with hv | hv
      · exact looksLikeBusy_of_head (List.mem_filter.mp hv).2
      · have := (List.mem_filter.mp hv).2
        rw [Cluster.looksLikeElement, Bool.and_eq_true] at this
        exact this.1
    rw [hbusy] at hidle
    cases hidle
  · rw [hwild]
    refine ⟨fun he => ⟨he, fun ⟨g, hg, _⟩ => (by cases hg)⟩, And.left⟩
  · rcases hv with hv | hv
    · exact hnext v (mem_tableHeads.mp hv).1
    · rw [hwild] at hv
      exact hnext v (mem_tableElements.mp hv).1
  · intro before e after hsplit
    exact absurd hsplit.symm (List.append_ne_nil_of_right_ne_nil _ (List.cons_ne_nil _ _))
  · intro before e after hsplit
    exact absurd hsplit.symm (List.append_ne_nil_of_right_ne_nil _ (List.cons_ne_nil _ _))

/-- After all heads were followed: what is left of the wild list decides. -/
theorem Linking.restored {s : Fs} (hs : Linking u (tableHeads u) [] s) (hnil : s.wild = []) :
    Restored u s where
  nodup := by
    have := hs.nodup
    rwa [Fs.places, hnil, List.append_nil] at this
  chain := fun h hh => hs.chain h hh (hs.entries h hh)
  survives := hs.survives
  returned := hs.returned
  heads := hs.entries

theorem Restored.setMax (h : Restored u s) (maxDataSegSize : Int) :
    Restored u { s with maxDataSegSize } :=
  ⟨h.nodup, h.chain, h.survives, h.returned, h.heads⟩

/-- `__evfs_entries_init`, up to the elements that are left over. -/
theorem Recognized.entriesInit (h : Recognized u (viewIds u.length) [] s) (garbage : Garbage) :
    ∃ s', Linking u (tableHeads u) [] s' ∧
      (tableHeads u).foldlM (fun s e =>
        linkChain (s.wild.length + 1) s e (viewGetNextClusterId s.vol e)) s = some s' ∧
      ((∀ before h after, tableHeads u = before ++ h :: after → Intact u before h) → Joined s s') ∧
      (∀ clusterSize i, Tracked clusterSize u s i →
        Tracked clusterSize u s' (leaveBroken clusterSize u [] (tableHeads u) i)) ∧
      entriesInit garbage s = (s'.wild.foldlM (freeWild garbage) s').map fun s =>
        { s with maxDataSegSize := s.vol.maxDataSegSize } := by
  obtain ⟨s', hfold, hs', hjoined, htracked⟩ := linking_foldlM _ h.linking
  rw [List.nil_append] at hs'
  refine ⟨s', hs', hfold, hjoined, htracked, ?_⟩
  rw [Evfs.entriesInit, show s.entries = tableHeads u from h.entries, hfold]
  rfl

/-- All views were looked at, and the heads have entered the index. -/
theorem Read.tracked {cache : Cache} {vol : Vol} (r : Read cache Fs.init vol)
    (hsim : Sim cache [] cache.hard.file)
    (hlen : (cache.hard.file.length : Int) = cache.hard.clusterCount)
    (hsize : sizeofCluster + maxEntryNameLength ≤ cache.hard.clusterSize) :
    Tracked cache.hard.clusterSize cache.hard.file
      (((viewIds cache.hard.clusterCount).foldl recognizeView (Fs.init.setVol vol)).sized cache.hard)
      ((tableHeads cache.hard.file).foldl
        (fun i e => i.enter (leafOf cache.hard.clusterSize cache.hard.file e)) .empty) := by
  have hids : viewIds cache.hard.clusterCount = viewIds cache.hard.file.length := by rw [hlen]
  have hfirst := r.recognized clean_init hlen
  have hfault : vol.io.fault = false := by
    rw [r.grown.io]
    rfl
  have hdata : SameData cache.hard.clusterSize cache.hard.file (Fs.init.setVol vol).vol.io := by
    show SameData _ _ vol.io
    rw [r.grown.io]
    exact ⟨rfl, _, hsim, rfl, fun _ _ => rfl⟩
  have h := recognized_track_foldl hsize _ hfirst (nodup_viewIds _)
    (fun v hv => hids ▸ hv) hdata ⟨rfl, fun e he => (by cases he), hfault⟩
  rw [tableHeads, ← hids]
  exact ⟨h.index, h.keys, h.io⟩

/-- The index is the one of the image. -/
theorem Tracked.defined_iff {clusterSize : Nat}
    (ht : Tracked clusterSize u s (loadedIndex clusterSize u)) :
    s.Defined ↔ Comparable clusterSize u := by
  have hfault : s.fault = _ := congrArg NameIndex.fault ht.index
  exact ⟨fun h => hfault.symm.trans h.2, fun h => ⟨ht.io, hfault.trans h⟩⟩

/-- Loading, up to the elements that are left over, and the views that it started with. -/
theorem entriesLoad_linking (garbage : Garbage) (hwf : hard.Wf)
    (hlen : (hard.file.length : Int) = hard.clusterCount)
    (hsize : sizeofCluster + maxEntryNameLength ≤ hard.clusterSize) (cacheBlockNum : Nat) :
    ∃ cache vol s, cache.hard = hard ∧ Sim cache [] hard.file ∧ Read cache Fs.init vol ∧
      (tableHeads hard.file).foldlM (fun s e =>
          linkChain (s.wild.length + 1) s e (viewGetNextClusterId s.vol e))
        (((viewIds hard.clusterCount).foldl recognizeView (Fs.init.setVol vol)).sized hard) =
          some s ∧
      Linking hard.file (tableHeads hard.file) [] s ∧
      Tracked hard.clusterSize hard.file s (loadedIndex hard.clusterSize hard.file) ∧
      entriesLoad garbage (Fs.init.mount garbage hard cacheBlockNum []) =
        ((s.wild.foldlM (freeWild garbage) s).map fun s =>
          { s with maxDataSegSize := s.vol.maxDataSegSize }).map fun s => (0, s) := by
  obtain ⟨-, hcache, -⟩ := Cache.wf_cacheInit garbage.blocks hard cacheBlockNum
  have hsim := sim_cacheInit hwf garbage.blocks cacheBlockNum
  rw [Fs.mount]
  generalize cacheInit garbage.blocks hard cacheBlockNum = cache at hcache hsim
  subst hcache
  obtain ⟨vol, r, hload⟩ := viewLoad_eq clean_init garbage hwf hlen
  have htracked := r.tracked hsim hlen hsize
  have hrec := recognized_foldl _ (r.recognized clean_init hlen) (nodup_viewIds _)
  rw [List.nil_append, ← hlen] at hrec
  rw [← hlen] at hload htracked
  obtain ⟨s', hs', hfold, -, hindex, hinit⟩ := (hrec.sized cache.hard).entriesInit garbage
  rw [← hlen]
  refine ⟨cache, vol, s', rfl, hsim, r, hfold, hs', hindex cache.hard.clusterSize _ htracked, ?_⟩
  rw [entriesLoad, hload]
  simp only [nspSuccess_zero, if_true]
  rw [hinit]

/-- Memory that was not initialized: the pointers to heads point to something that is none. -/
def Garbage.stray : Garbage := ⟨fun _ => [], fun _ => .zero, .zero, fun _ => some 0⟩

/-- Freeing the elements that are left over goes wrong. -/
theorem Linking.stray {done todo : List Int} (hs : Linking u done todo s) {e : Int}
    (hwild : e ∈ s.wild) : s.wild.foldlM (freeWild Garbage.stray) s = none := by
  have hzero : (0 : Int) ∉ s.entries := fun hmem => by
    have := (mem_viewIds.mp (mem_tableHeads.mp (hs.entries 0 hmem)).1).1
    omega
  cases hcase : s.wild with
  | nil =>
    rw [hcase] at hwild
    cases hwild
  | cons v rest =>
    rw [List.foldlM_cons, freeWild]
    simp only [Garbage.stray, if_neg hzero]
    rfl

/-- Without elements that are left over, nothing is freed. -/
theorem Linking.freeWild_foldlM {s : Fs} (hs : Linking u (tableHeads u) [] s)
    (hall : ∀ e ∈ tableElements u, ∃ h ∈ tableHeads u, Leads u h e) (garbage : Garbage) :
    s.wild = [] ∧ s.wild.foldlM (freeWild garbage) s = some s := by
  have hnil : s.wild = [] := by
    rw [List.eq_nil_iff_forall_not_mem]
    intro e he
    obtain ⟨hel, hfree⟩ := (hs.wild e).mp he
    exact hfree (hall e hel)
  rw [hnil]
  exact ⟨rfl, rfl⟩

/-- **Loading is safe if no element is left over**, and no key is read behind its end.  For every
table of headers, whatever was in the memory that is not initialized, loading ends, does nothing that
is undefined, and restores the entries with a whole chain, if and only if every element is on the
chain of a head, and the keys of the heads can be compared. -/
theorem entriesLoad_restores_iff (hwf : hard.Wf)
    (hlen : (hard.file.length : Int) = hard.clusterCount)
    (hsize : sizeofCluster + sizeofHrd ≤ hard.clusterSize) (cacheBlockNum : Nat) :
    (∀ garbage, ∃ s,
        entriesLoad garbage (Fs.init.mount garbage hard cacheBlockNum []) = some (0, s) ∧
          Restored hard.file s ∧ s.Defined) ↔
      (∀ e ∈ tableElements hard.file, ∃ h ∈ tableHeads hard.file, Leads hard.file h e) ∧
        Comparable hard.clusterSize hard.file := by
  have hfit : sizeofCluster + maxEntryNameLength ≤ hard.clusterSize :=
    Nat.le_trans (by decide) hsize
  constructor
  · intro hall
    obtain ⟨-, -, s, -, -, -, -, hs, ht, hload⟩ :=
      entriesLoad_linking .stray hwf hlen hfit cacheBlockNum
    obtain ⟨s', hsome, -, hd⟩ := hall .stray
    have hwhole : ∀ e ∈ tableElements hard.file, ∃ h ∈ tableHeads hard.file,
        Leads hard.file h e := by
      intro e he
      by_contra hno
      -- the pointer in the element points to something that is not a head
      rw [hload, hs.stray ((hs.wild e).mpr ⟨he, hno⟩)] at hsome
      cases hsome
    rw [hload, (hs.freeWild_foldlM hwhole .stray).2] at hsome
    cases hsome
    exact ⟨hwhole, ht.defined_iff.mp hd⟩
  · rintro ⟨hwhole, hcomparable⟩ garbage
    obtain ⟨-, -, s, -, -, -, -, hs, ht, hload⟩ :=
      entriesLoad_linking garbage hwf hlen hfit cacheBlockNum
    obtain ⟨hnil, hfold⟩ := hs.freeWild_foldlM hwhole garbage
    refine ⟨_, ?_, (hs.restored hnil).setMax s.vol.maxDataSegSize, ht.defined_iff.mpr hcomparable⟩
    rw [hload, hfold]
    rfl

/-! ## A file to look at -/

/-- The chain of the head 1 leads out of the file, the one of the head 3 is whole. -/
def twoChains : List Cluster :=
  [⟨60 - 2 ^ 31, 2, 1⟩, ⟨20, 9, 1⟩, ⟨50 - 2 ^ 31, 4, 3⟩, ⟨10, -1, 3⟩]

theorem tableHeads_twoChains : tableHeads (Hard.ofTable twoChains).file = [1, 3] := by
  decide

theorem tableElements_twoChains : tableElements (Hard.ofTable twoChains).file = [2, 4] := by
  decide

theorem leads_twoChains {e : Int} (he : e ∈ tableElements (Hard.ofTable twoChains).file) :
    ∃ h ∈ tableHeads (Hard.ofTable twoChains).file, Leads (Hard.ofTable twoChains).file h e := by
  have hone : tableNext (Hard.ofTable twoChains).file 1 = 2 := by decide
  have hthree : tableNext (Hard.ofTable twoChains).file 3 = 4 := by decide
  have hmem := he
  rw [tableElements_twoChains] at hmem
  rw [tableHeads_twoChains]
  rcases List.mem_pair.mp hmem with rfl | rfl
  · refine ⟨1, by decide, ?_⟩
    rw [Leads, hone]
    exact .here he
  · refine ⟨3, by decide, ?_⟩
    rw [Leads, hthree]
    exact .here he

theorem keys_twoChains : ∀ e ∈ tableHeads (Hard.ofTable twoChains).file,
    0 ∈ keyOf 128 (Hard.ofTable twoChains).file e := by
  decide

theorem entriesLoad_restores_twoChains :
    hardOpen (Hard.ofTable twoChains).file.flatten [] [] = some (.ok (Hard.ofTable twoChains)) ∧
    tableHeads (Hard.ofTable twoChains).file = [1, 3] ∧
    tableElements (Hard.ofTable twoChains).file = [2, 4] ∧
    ∀ garbage, ∃ s, entriesLoad garbage
        (Fs.init.mount garbage (Hard.ofTable twoChains) 0 []) = some (0, s) ∧
      Restored (Hard.ofTable twoChains).file s ∧ s.Defined :=
  ⟨hardOpen_ofTable (by decide), tableHeads_twoChains, tableElements_twoChains,
    (entriesLoad_restores_iff (wf_ofTable (by decide)) (length_ofTable _) (by decide) 0).mpr
      ⟨fun _ => leads_twoChains, (loadedIndex_terminated keys_twoChains).2⟩⟩

/-- No head leads to the element 1, and its pointer points to something that is not a head. -/
theorem entriesLoad_orphan : evfsOpen .stray Fs.init (Hard.ofTable [⟨10, 0, 2⟩]).file.flatten 0
    [] [] [] = none := by
  rw [evfsOpen, hardOpen_ofTable (by decide)]
  rfl

end Whole

end Evfs

end LibNax
