import Mathlib.Data.List.Pairwise
import LibNax.Evfs.Entries
import LibNax.Evfs.Volume

/-!
# The space of the file system

Every busy view belongs to one entry, as its head or as one of its elements.  The invariant is
stated with a list of views that are on their way: taken, and not yet part of an entry, or given up
by one that is being deleted.

* `Linked`, `EntryOk` — the headers of an entry: the links, and the number of its head.
* `Space s hand` — the invariant, with the views `hand` on their way.
* `Space.setVol`, `Space.setRefs`, `Space.append`, `Space.insert`, `Space.detach` — how the
  functions of `entries.c` change it.

Nothing here depends on what the disk does.
-/

set_option autoImplicit false

namespace LibNax

namespace Evfs

/-! ## One entry -/

/-- The links in the headers follow the list from a view on, and end with zero. -/
def Linked (cluster : Int → Cluster) : Int → List Int → Prop
  | v, [] => (cluster v).nextClusterId = 0
  | v, w :: views => (cluster v).nextClusterId = w ∧ Linked cluster w views

instance (cluster : Int → Cluster) :
    ∀ (v : Int) (views : List Int), Decidable (Linked cluster v views)
  | v, [] => inferInstanceAs (Decidable ((cluster v).nextClusterId = 0))
  | v, w :: views =>
    have := instDecidableLinked cluster w views
    inferInstanceAs (Decidable ((cluster v).nextClusterId = w ∧ Linked cluster w views))

theorem Linked.congr {cluster cluster' : Int → Cluster} {views : List Int} : ∀ {v : Int},
    (∀ w ∈ v :: views, (cluster' w).nextClusterId = (cluster w).nextClusterId) →
      Linked cluster v views → Linked cluster' v views := by
  induction views with
  | nil => exact fun h hl => (h _ List.mem_cons_self).trans hl
  | cons w views ih =>
    exact fun h hl => ⟨(h _ List.mem_cons_self).trans hl.1,
      ih (fun x hx => h x (List.mem_cons_of_mem _ hx)) hl.2⟩

theorem getLastD_mem_cons {α : Type} (a : α) (l : List α) : l.getLastD a ∈ a :: l := by
  rw [List.getLastD_eq_getLast?]
  cases hlast : l.getLast? with
  | none => exact List.mem_cons_self
  | some b => exact List.mem_cons_of_mem _ (List.mem_of_getLast? hlast)

/-- A view is linked behind the last one of a chain. -/
theorem Linked.append {cluster cluster' : Int → Cluster} {w : Int} {views : List Int} : ∀ {v : Int},
    (v :: views).Nodup →
    (∀ x ∈ v :: views, x ≠ views.getLastD v →
      (cluster' x).nextClusterId = (cluster x).nextClusterId) →
    (cluster' (views.getLastD v)).nextClusterId = w → (cluster' w).nextClusterId = 0 →
      Linked cluster v views → Linked cluster' v (views ++ [w]) := by
  induction views with
  | nil => exact fun _ _ hlast hw _ => ⟨hlast, hw⟩
  | cons x views ih =>
    intro v hnd hsame hlast hw hl
    rw [List.getLastD_cons] at hlast hsame
    refine ⟨?_, ih hnd.of_cons (fun y hy => hsame y (List.mem_cons_of_mem _ hy)) hlast hw hl.2⟩
    refine (hsame v List.mem_cons_self fun heq => (List.nodup_cons.mp hnd).1 ?_).trans hl.1
    rw [heq]
    exact getLastD_mem_cons x views

/-- Two headers with the same links, of two heads or of two elements. -/
structure Cluster.Like (c c' : Cluster) : Prop where
  next : c'.nextClusterId = c.nextClusterId
  head : c'.headClusterId = c.headClusterId
  neg : c'.dataSegSize < 0 ↔ c.dataSegSize < 0
  lower : -2 ^ 31 ≤ c.dataSegSize → -2 ^ 31 ≤ c'.dataSegSize

theorem Cluster.Like.refl (c : Cluster) : c.Like c := ⟨rfl, rfl, Iff.rfl, id⟩

/-- An entry that is in use: its headers, and the fields of its head. -/
structure EntryOk (cluster : Int → Cluster) (e : Int) (head : Head) : Prop where
  linked : Linked cluster e head.elements
  headId : ∀ v ∈ e :: head.elements, (cluster v).headClusterId = e
  /-- The header of the head is one of a head. -/
  headSize : (cluster e).dataSegSize < 0 ∧ -2 ^ 31 ≤ (cluster e).dataSegSize
  /-- Those of the elements are not. -/
  elementSize : ∀ v ∈ head.elements, 0 ≤ (cluster v).dataSegSize
  count : head.countOfElements = head.elements.length
  state : head.state = .normal
  keeps : head.hardRemoveOnDetach = false
  refcnt : 0 ≤ head.refcnt
  ioRefcnt : 0 ≤ head.ioRefcnt
  /-- The key ends in its buffer. -/
  key : 0 ∈ head.key

theorem EntryOk.congr {cluster cluster' : Int → Cluster} {e : Int} {head : Head}
    (h : EntryOk cluster e head)
    (hsame : ∀ v ∈ e :: head.elements, (cluster v).Like (cluster' v)) : EntryOk cluster' e head :=
  { h with
    linked := h.linked.congr fun v hv => (hsame v hv).next
    headId := fun v hv => (hsame v hv).head.trans (h.headId v hv)
    headSize := ⟨(hsame e List.mem_cons_self).neg.mpr h.headSize.1,
      (hsame e List.mem_cons_self).lower h.headSize.2⟩
    elementSize := fun v hv => by
      have := (hsame v (List.mem_cons_of_mem _ hv)).neg
      have := h.elementSize v hv
      omega }

/-! ## All of them -/

/-- The views of an entry. -/
def Fs.chain (s : Fs) (e : Int) : List Int := e :: (s.heads e).elements

@[simp] theorem setHead_heads_self (s : Fs) (e : Int) (head : Head) :
    (s.setHead e head).heads e = head :=
  Function.update_self ..

theorem setHead_heads_ne (s : Fs) {e e' : Int} (h : e' ≠ e) (head : Head) :
    (s.setHead e head).heads e' = s.heads e' :=
  Function.update_of_ne h ..

theorem setHead_chain_ne (s : Fs) {e e' : Int} (h : e' ≠ e) (head : Head) :
    (s.setHead e head).chain e' = s.chain e' := by
  rw [Fs.chain, setHead_heads_ne s h, Fs.chain]

/-- What the calls did so far is defined: no task was read after it had been freed, and no keys were
compared behind their buffers. -/
def Fs.Defined (s : Fs) : Prop := s.vol.io.fault = false ∧ s.fault = false

instance (s : Fs) : Decidable s.Defined := inferInstanceAs (Decidable (_ ∧ _))

/-- The keys in the index by key end in their buffers. -/
def Fs.Terminated (s : Fs) : Prop := ∀ leaf ∈ Avl.toList s.rootOfNamedEntriesTree, 0 ∈ leaf.key

/-- The file system, with the views `hand` on their way to an entry or from one. -/
structure Space (s : Fs) (hand : List Int) : Prop where
  vol : s.vol.Wf
  maxDataSegSize : s.maxDataSegSize = s.vol.io.cache.hard.clusterSize - sizeofCluster
  /-- The busy views are the ones of the entries, and the ones on their way. -/
  owned : s.vol.busy.Perm (hand ++ s.entries.flatMap s.chain)
  entry : ∀ e ∈ s.entries, EntryOk s.vol.cluster e (s.heads e)
  /-- The index is a search tree. -/
  tree : Avl.Wf (id : Int → Int) s.rootOfEntriesTree
  /-- The index holds the entries. -/
  mem_tree : ∀ v, v ∈ Avl.toList s.rootOfEntriesTree ↔ v ∈ s.entries
  leaves : s.Terminated
  countOfEntries : s.countOfEntries = s.entries.length
  wild : s.wild = []
  countOfWild : s.countOfWildEntriesElement = 0

/-- Two strings that end in their buffers are not read behind them. -/
theorem readsBehind_of_mem {left : List UInt8} : ∀ {right : List UInt8},
    0 ∈ left → 0 ∈ right → readsBehind left right = false := by
  induction left with
  | nil => exact fun h _ => by cases h
  | cons a left ih =>
    intro right hleft hright
    cases right with
    | nil => cases hright
    | cons b right =>
      rw [readsBehind]
      by_cases hab : a = b
      · by_cases ha : a = 0
        · simp [ha]
        · have hl : 0 ∈ left := (List.mem_cons.mp hleft).resolve_left (Ne.symm ha)
          have hr : 0 ∈ right := (List.mem_cons.mp hright).resolve_left (hab ▸ Ne.symm ha)
          simp [ih hl hr]
      · simp [hab]

/-- The index by key, and whether a comparison in it read behind the end of a buffer. -/
structure NameIndex where
  tree : Avl.Tree NamedLeaf
  fault : Bool

namespace NameIndex

def empty : NameIndex := ⟨.nil, false⟩

/-- The end of `__evfs_entries_insert_head`. -/
def enter (i : NameIndex) (leaf : NamedLeaf) : NameIndex :=
  if leaf.key.headD 0 ≠ 0 then
    ⟨Avl.avlinsert compareNamedEntryHead i.tree leaf,
      i.fault || (Avl.path compareNamedEntryHead i.tree leaf).any fun x => readsBehind leaf.key x.key⟩
  else i

/-- The index in `__evfs_entries_free_head`. -/
def leave (i : NameIndex) (leaf : NamedLeaf) : NameIndex :=
  if leaf.key.headD 0 ≠ 0 then
    ⟨(Avl.avlremove compareNamedEntryHead i.tree leaf none).1,
      i.fault || (Avl.removeComparisons compareNamedEntryHead i.tree leaf).any fun p =>
        readsBehind p.1.key p.2.key⟩
  else i

end NameIndex

def Fs.nameIndex (s : Fs) : NameIndex := ⟨s.rootOfNamedEntriesTree, s.fault⟩

theorem insertHead_nameIndex (s : Fs) (e : Int) :
    (insertHead s e).nameIndex = s.nameIndex.enter ⟨(s.heads e).key, e⟩ := by
  rw [insertHead, NameIndex.enter]
  simp only
  split
  · rfl
  · rfl

theorem detachHead_nameIndex (s : Fs) (e : Int) :
    (detachHead s e).nameIndex = s.nameIndex.leave ⟨(s.heads e).key, e⟩ := by
  rw [detachHead, NameIndex.leave]
  simp only
  split
  · rfl
  · rfl

namespace NameIndex

variable {i : NameIndex} {leaf : NamedLeaf}

/-- The keys in the index end in their buffers. -/
def Terminated (i : NameIndex) : Prop := ∀ leaf ∈ Avl.toList i.tree, 0 ∈ leaf.key

/-- A key that ends in its buffer enters the index. -/
theorem Terminated.enter (h : i.Terminated) (hkey : 0 ∈ leaf.key) :
    (i.enter leaf).Terminated ∧ (i.enter leaf).fault = i.fault := by
  rw [NameIndex.enter]
  split
  · have hnone : ∀ x ∈ Avl.path compareNamedEntryHead i.tree leaf,
        readsBehind leaf.key x.key = false := fun x hx =>
      readsBehind_of_mem hkey (h x (Avl.mem_of_mem_path hx))
    refine ⟨fun x hx => ?_, ?_⟩
    · rcases Avl.mem_of_mem_avlinsert hx with rfl | hx
      · exact hkey
      · exact h x hx
    · show (i.fault || _) = _
      rw [List.any_eq_false.mpr fun x hx => by simp [hnone x hx], Bool.or_false]
  · exact ⟨h, rfl⟩

/-- And leaves it. -/
theorem Terminated.leave (h : i.Terminated) (hkey : 0 ∈ leaf.key) :
    (i.leave leaf).Terminated ∧ (i.leave leaf).fault = i.fault := by
  rw [NameIndex.leave]
  split
  · have hnone : ∀ p ∈ Avl.removeComparisons compareNamedEntryHead i.tree leaf,
        readsBehind p.1.key p.2.key = false := fun p hp => by
      obtain ⟨hleft, hright⟩ := Avl.mem_of_mem_removeComparisons hp
      refine readsBehind_of_mem ?_ (h _ hright)
      rcases hleft with hleft | hleft
      · rw [hleft]
        exact hkey
      · exact h _ hleft
    refine ⟨fun x hx => h x (Avl.mem_of_mem_avlremove hx), ?_⟩
    show (i.fault || _) = _
    rw [List.any_eq_false.mpr fun p hp => by simp [hnone p hp], Bool.or_false]
  · exact ⟨h, rfl⟩

end NameIndex

/-- A head enters the index by key, and its key ends in its buffer, too. -/
theorem Fs.Terminated.insertHead {s : Fs} {v : Int} (h : s.Terminated) (hkey : 0 ∈ (s.heads v).key) :
    (insertHead s v).Terminated ∧ (insertHead s v).fault = s.fault := by
  have hindex := insertHead_nameIndex s v
  obtain ⟨hleaves, hfault⟩ := NameIndex.Terminated.enter (i := s.nameIndex) h
    (show 0 ∈ NamedLeaf.key ⟨(s.heads v).key, v⟩ from hkey)
  rw [← hindex] at hleaves hfault
  exact ⟨hleaves, hfault⟩

/-- A head leaves it. -/
theorem Fs.Terminated.detachHead {s : Fs} {e : Int} (h : s.Terminated) (hkey : 0 ∈ (s.heads e).key) :
    (detachHead s e).Terminated ∧ (detachHead s e).fault = s.fault := by
  have hindex := detachHead_nameIndex s e
  obtain ⟨hleaves, hfault⟩ := NameIndex.Terminated.leave (i := s.nameIndex) h
    (show 0 ∈ NamedLeaf.key ⟨(s.heads e).key, e⟩ from hkey)
  rw [← hindex] at hleaves hfault
  exact ⟨hleaves, hfault⟩

theorem flatMap_perm_erase {α β : Type} [DecidableEq α] {l : List α} {a : α} (ha : a ∈ l)
    (f : α → List β) : (l.flatMap f).Perm (f a ++ (l.erase a).flatMap f) :=
  (List.perm_cons_erase ha).flatMap_right f

theorem flatMap_erase_congr {α β : Type} [DecidableEq α] {l : List α} {a : α} (hl : l.Nodup)
    {f f' : α → List β} (h : ∀ b ∈ l, b ≠ a → f' b = f b) :
    (l.erase a).flatMap f' = (l.erase a).flatMap f := by
  rw [List.flatMap, List.flatMap]
  congr 1
  refine List.map_congr_left fun b hb => ?_
  obtain ⟨hne, hb⟩ := hl.mem_erase_iff.mp hb
  exact h b hb hne

variable {s : Fs} {hand : List Int} {e v : Int}

namespace Space

theorem nodup (h : Space s hand) : (hand ++ s.entries.flatMap s.chain).Nodup :=
  h.owned.nodup_iff.mp h.vol.nodup_busy

theorem nodup_chain (h : Space s hand) (he : e ∈ s.entries) : (s.chain e).Nodup :=
  (List.nodup_flatMap.mp h.nodup.of_append_right).1 e he

theorem nodup_entries (h : Space s hand) : s.entries.Nodup := by
  refine (List.nodup_flatMap.mp h.nodup.of_append_right).2.imp fun {a b} hdisj heq => ?_
  refine hdisj (a := a) List.mem_cons_self ?_
  rw [heq]
  exact List.mem_cons_self

theorem mem_busy (h : Space s hand) (he : e ∈ s.entries) (hv : v ∈ s.chain e) : v ∈ s.vol.busy :=
  h.owned.mem_iff.mpr (List.mem_append_right _ (List.mem_flatMap.mpr ⟨e, he, hv⟩))

theorem hand_busy (h : Space s hand) (hv : v ∈ hand) : v ∈ s.vol.busy :=
  h.owned.mem_iff.mpr (List.mem_append_left _ hv)

theorem hand_notMem (h : Space s hand) (hv : v ∈ hand) (he : e ∈ s.entries) : v ∉ s.chain e :=
  fun hmem => List.disjoint_of_nodup_append h.nodup hv (List.mem_flatMap.mpr ⟨e, he, hmem⟩)

theorem chain_disjoint (h : Space s hand) {e' : Int} (he : e ∈ s.entries) (he' : e' ∈ s.entries)
    (hne : e ≠ e') (hv : v ∈ s.chain e) : v ∉ s.chain e' := by
  have hpair := (List.nodup_flatMap.mp h.nodup.of_append_right).2
  have hsymm : Std.Symm (Function.onFun List.Disjoint s.chain) :=
    ⟨fun a b hab => List.disjoint_symm hab⟩
  exact fun hv' => hpair.forall he he' hne hv hv'

theorem head_notMem (h : Space s hand) (he : e ∈ s.entries) : e ∉ (s.heads e).elements :=
  (List.nodup_cons.mp (h.nodup_chain he)).1

/-- No element of an entry is the head of one. -/
theorem element_notMem (h : Space s hand) (he : e ∈ s.entries) (hv : v ∈ (s.heads e).elements) :
    v ∉ s.entries := by
  intro hmem
  by_cases hve : v = e
  · exact h.head_notMem he (hve ▸ hv)
  · exact h.chain_disjoint he hmem (Ne.symm hve) (List.mem_cons_of_mem _ hv) List.mem_cons_self

/-- A call of the view layer that leaves the links and the numbers of the heads alone. -/
theorem setVol (h : Space s hand) {vol : Vol} (hwf : vol.Wf) (hbusy : vol.busy = s.vol.busy)
    (hsize : vol.io.cache.hard.clusterSize = s.vol.io.cache.hard.clusterSize)
    (hsame : ∀ v ∈ s.vol.busy, v ∉ hand → (s.vol.cluster v).Like (vol.cluster v)) :
    Space (s.setVol vol) hand where
  vol := hwf
  maxDataSegSize := by
    show s.maxDataSegSize = _
    rw [h.maxDataSegSize, show (s.setVol vol).vol = vol from rfl, hsize]
  owned := by
    show vol.busy.Perm _
    rw [hbusy]
    exact h.owned
  entry := fun e he => (h.entry e he).congr fun v hv =>
    hsame v (h.mem_busy he hv) fun hmem => h.hand_notMem hmem he hv
  tree := h.tree
  mem_tree := h.mem_tree
  leaves := h.leaves
  countOfEntries := h.countOfEntries
  wild := h.wild
  countOfWild := h.countOfWild

/-- A change of a head that keeps the elements, or of one that is not an entry. -/
theorem setHead (h : Space s hand) {head : Head}
    (helems : e ∈ s.entries → head.elements = (s.heads e).elements)
    (hok : e ∈ s.entries → EntryOk s.vol.cluster e head) : Space (s.setHead e head) hand where
  vol := h.vol
  maxDataSegSize := h.maxDataSegSize
  owned := by
    have hchain : ∀ e' ∈ s.entries, (s.setHead e head).chain e' = s.chain e' := by
      intro e' he'
      by_cases he : e' = e
      · subst he
        rw [Fs.chain, setHead_heads_self, helems he', Fs.chain]
      · exact setHead_chain_ne s he head
    show s.vol.busy.Perm (hand ++ s.entries.flatMap (s.setHead e head).chain)
    rw [List.flatMap, List.map_congr_left hchain]
    exact h.owned
  entry := fun e' he' => by
    by_cases he : e' = e
    · subst he
      rw [setHead_heads_self]
      exact hok he'
    · rw [setHead_heads_ne s he]
      exact h.entry e' he'
  tree := h.tree
  mem_tree := h.mem_tree
  leaves := h.leaves
  countOfEntries := h.countOfEntries
  wild := h.wild
  countOfWild := h.countOfWild

/-- Only the heads of the entries matter. -/
theorem congr_heads (h : Space s hand) {heads : Int → Head}
    (hsame : ∀ e ∈ s.entries, heads e = s.heads e) : Space { s with heads } hand where
  vol := h.vol
  maxDataSegSize := h.maxDataSegSize
  owned := by
    have hchain : ∀ e ∈ s.entries, ({ s with heads } : Fs).chain e = s.chain e := fun e he =>
      congrArg (fun head : Head => e :: head.elements) (hsame e he)
    show s.vol.busy.Perm (hand ++ s.entries.flatMap ({ s with heads } : Fs).chain)
    rw [List.flatMap, List.map_congr_left hchain]
    exact h.owned
  entry := fun e he => by
    show EntryOk s.vol.cluster e (heads e)
    rw [hsame e he]
    exact h.entry e he
  tree := h.tree
  mem_tree := h.mem_tree
  leaves := h.leaves
  countOfEntries := h.countOfEntries
  wild := h.wild
  countOfWild := h.countOfWild

theorem perm {hand' : List Int} (h : Space s hand) (hp : hand.Perm hand') : Space s hand' :=
  { h with owned := h.owned.trans (hp.append_right _) }

/-- A view that was taken is on its way. -/
theorem acquired (h : Space s hand) {vol : Vol} (ha : Acquired s.vol vol v) :
    Space (s.setVol vol) (v :: hand) where
  vol := ha.wf
  maxDataSegSize := by
    show s.maxDataSegSize = _
    rw [h.maxDataSegSize, show (s.setVol vol).vol = vol from rfl, ha.step.size]
  owned := by
    show vol.busy.Perm _
    rw [ha.busy]
    exact (List.perm_append_singleton v _).trans (h.owned.cons v)
  entry := fun e he => (h.entry e he).congr fun w hw => by
    rw [show (s.setVol vol).vol = vol from rfl, ha.cluster w (h.mem_busy he hw)]
    exact .refl _
  tree := h.tree
  mem_tree := h.mem_tree
  leaves := h.leaves
  countOfEntries := h.countOfEntries
  wild := h.wild
  countOfWild := h.countOfWild

/-- A view on its way becomes the last element of an entry. -/
theorem append (h : Space s (v :: hand)) (he : e ∈ s.entries) {vol : Vol} (hwf : vol.Wf)
    (hbusy : vol.busy = s.vol.busy)
    (hsize : vol.io.cache.hard.clusterSize = s.vol.io.cache.hard.clusterSize)
    (hv : vol.cluster v = ⟨0, 0, e⟩)
    (hlast : (vol.cluster ((s.heads e).elements.getLastD e)).nextClusterId = v)
    (hnext : ∀ w ∈ s.vol.busy, w ≠ v → w ≠ (s.heads e).elements.getLastD e →
      (vol.cluster w).nextClusterId = (s.vol.cluster w).nextClusterId)
    (hhead : ∀ w ∈ s.vol.busy, w ≠ v →
      (vol.cluster w).headClusterId = (s.vol.cluster w).headClusterId ∧
        (vol.cluster w).dataSegSize = (s.vol.cluster w).dataSegSize) :
    Space ((s.setHead e { s.heads e with
      elements := (s.heads e).elements ++ [v]
      countOfElements := (s.heads e).countOfElements + 1 }).setVol vol) hand where
  vol := hwf
  maxDataSegSize := by
    show s.maxDataSegSize = _
    rw [h.maxDataSegSize]
    show _ = (vol.io.cache.hard.clusterSize : Int) - _
    rw [hsize]
  owned := by
    show vol.busy.Perm (hand ++ s.entries.flatMap (s.setHead e _).chain)
    rw [hbusy]
    refine h.owned.trans ?_
    have hchain : (s.setHead e { s.heads e with
        elements := (s.heads e).elements ++ [v]
        countOfElements := (s.heads e).countOfElements + 1 }).chain e = s.chain e ++ [v] := by
      rw [Fs.chain, setHead_heads_self]
      rfl
    refine ((flatMap_perm_erase he _).append_left _).trans ?_
    refine .symm (((flatMap_perm_erase he _).append_left _).trans ?_)
    rw [hchain, flatMap_erase_congr h.nodup_entries fun e' _ hne => setHead_chain_ne s hne _]
    refine (List.perm_append_comm.trans ?_).trans (List.perm_append_comm.cons v)
    simp only [List.append_assoc, List.singleton_append]
    exact List.perm_middle
  entry := fun e' he' => by
    have hlastmem : (s.heads e).elements.getLastD e ∈ s.chain e := getLastD_mem_cons _ _
    have hvmem : v ∈ v :: hand := List.mem_cons_self
    by_cases hee : e' = e
    · subst hee
      show EntryOk vol.cluster e' ((s.setHead e' _).heads e')
      rw [setHead_heads_self]
      have hold := h.entry e' he'
      have hne : ∀ w ∈ s.chain e', w ≠ v := fun w hw heq =>
        h.hand_notMem hvmem he' (heq ▸ hw)
      have hsizes : ∀ w ∈ s.chain e', (vol.cluster w).dataSegSize = (s.vol.cluster w).dataSegSize :=
        fun w hw => (hhead w (h.mem_busy he' hw) (hne w hw)).2
      refine ⟨hold.linked.append (h.nodup_chain he') ?_ hlast (by rw [hv]), ?_, ?_, ?_,
        ?_, hold.state,
        hold.keeps, hold.refcnt, hold.ioRefcnt, hold.key⟩
      · exact fun w hw hwl => hnext w (h.mem_busy he' hw) (hne w hw) hwl
      · intro w hw
        rw [← List.cons_append] at hw
        rcases List.mem_append.mp hw with hw | hw
        · rw [(hhead w (h.mem_busy he' hw) (hne w hw)).1, hold.headId w hw]
        · rw [List.mem_singleton.mp hw, hv]
      · rw [hsizes e' List.mem_cons_self]
        exact hold.headSize
      · intro w hw
        rcases List.mem_append.mp hw with hw | hw
        · rw [hsizes w (List.mem_cons_of_mem _ hw)]
          exact hold.elementSize w hw
        · rw [List.mem_singleton.mp hw, hv]
      · show (s.heads e').countOfElements + 1 = (((s.heads e').elements ++ [v]).length : Int)
        rw [hold.count, List.length_append, List.length_singleton]
        omega
    · show EntryOk vol.cluster e' ((s.setHead e _).heads e')
      rw [setHead_heads_ne s hee]
      refine (h.entry e' he').congr fun w hw => ?_
      have hwb := h.mem_busy he' hw
      have hwv : w ≠ v := fun heq => h.hand_notMem hvmem he' (heq ▸ hw)
      obtain ⟨hid, hsz⟩ := hhead w hwb hwv
      refine ⟨hnext w hwb hwv ?_, hid, by rw [hsz], fun hle => by rwa [hsz]⟩
      rintro rfl
      exact h.chain_disjoint he he' (Ne.symm hee) hlastmem hw
  tree := h.tree
  mem_tree := h.mem_tree
  leaves := h.leaves
  countOfEntries := h.countOfEntries
  wild := h.wild
  countOfWild := h.countOfWild

/-- A view on its way becomes the head of a new entry. -/
theorem insert (h : Space s (v :: hand)) (hok : EntryOk s.vol.cluster v (s.heads v))
    (hnil : (s.heads v).elements = []) : Space (insertHead s v) hand := by
  have hnew : v ∉ s.entries := fun hmem => h.hand_notMem List.mem_cons_self hmem List.mem_cons_self
  have hspace : ∀ root fault, (∀ leaf ∈ Avl.toList root, 0 ∈ leaf.key) → Space ({ s with
      entries := s.entries ++ [v]
      countOfEntries := s.countOfEntries + 1
      rootOfEntriesTree := Avl.avlinsert compareEntryHead s.rootOfEntriesTree v
      rootOfNamedEntriesTree := root, fault } : Fs) hand := by
    intro root fault hleaves
    have hkeys : ∀ w ∈ Avl.toList s.rootOfEntriesTree, id w ≠ id v := fun w hw heq =>
      hnew ((show w = v from heq) ▸ (h.mem_tree w).mp hw)
    refine ⟨h.vol, h.maxDataSegSize, ?_, ?_, h.tree.avlinsert orders_viewCompare v, ?_, hleaves, ?_,
      h.wild, h.countOfWild⟩
    · refine h.owned.trans ?_
      show (v :: hand ++ s.entries.flatMap s.chain).Perm
        (hand ++ (s.entries ++ [v]).flatMap s.chain)
      rw [List.flatMap_append, List.flatMap_singleton, Fs.chain, hnil, List.cons_append,
        ← List.append_assoc]
      exact (List.perm_append_singleton v _).symm
    · intro e he
      rcases List.mem_append.mp he with he | he
      · exact h.entry e he
      · rw [List.mem_singleton.mp he]
        exact hok
    · intro w
      show w ∈ Avl.toList (Avl.avlinsert viewCompare s.rootOfEntriesTree v) ↔ w ∈ s.entries ++ [v]
      rw [Avl.mem_toList_avlinsert orders_viewCompare h.tree.sorted hkeys, h.mem_tree,
        List.mem_append, List.mem_singleton, or_comm]
    · show s.countOfEntries + 1 = ((s.entries ++ [v]).length : Int)
      rw [h.countOfEntries, List.length_append, List.length_singleton]
      omega
  rw [insertHead]
  simp only
  split
  · refine hspace _ _ fun leaf hleaf => ?_
    rcases Avl.mem_of_mem_avlinsert hleaf with rfl | hleaf
    · exact hok.key
    · exact h.leaves leaf hleaf
  · exact hspace s.rootOfNamedEntriesTree s.fault h.leaves

/-- An entry leaves the manager, and its views are on their way. -/
theorem detach (h : Space s hand) (he : e ∈ s.entries) :
    Space (detachHead s e) (s.chain e ++ hand) := by
  have hspace : ∀ root fault, (∀ leaf ∈ Avl.toList root, 0 ∈ leaf.key) → Space ({ s with
      entries := s.entries.erase e
      rootOfEntriesTree := (Avl.avlremove compareEntryHead s.rootOfEntriesTree e none).1
      countOfEntries := s.countOfEntries - 1
      rootOfNamedEntriesTree := root, fault } : Fs) (s.chain e ++ hand) := by
    intro root fault hleaves
    refine ⟨h.vol, h.maxDataSegSize, ?_, ?_, h.tree.avlremove orders_viewCompare e none, ?_,
      hleaves, ?_, h.wild, h.countOfWild⟩
    · refine h.owned.trans ?_
      show (hand ++ s.entries.flatMap s.chain).Perm
        (s.chain e ++ hand ++ (s.entries.erase e).flatMap s.chain)
      refine ((flatMap_perm_erase he _).append_left _).trans ?_
      rw [← List.append_assoc]
      exact List.perm_append_comm.append_right _
    · exact fun e' he' => h.entry e' (List.mem_of_mem_erase he')
    · intro w
      show w ∈ Avl.toList (Avl.avlremove viewCompare s.rootOfEntriesTree e none).1 ↔
        w ∈ s.entries.erase e
      rw [Avl.mem_toList_avlremove orders_viewCompare h.tree.sorted, h.mem_tree,
        h.nodup_entries.mem_erase_iff]
      exact and_comm
    · show s.countOfEntries - 1 = ((s.entries.erase e).length : Int)
      have := List.length_pos_of_mem he
      rw [h.countOfEntries, List.length_erase_of_mem he]
      omega
  rw [detachHead]
  simp only
  split
  · exact hspace _ _ fun leaf hleaf => h.leaves leaf (Avl.mem_of_mem_avlremove hleaf)
  · exact hspace s.rootOfNamedEntriesTree s.fault h.leaves

/-- A view on its way is given back. -/
theorem release (h : Space s (v :: hand)) : Space (s.setVol (viewMoveToIdle s.vol v).2) hand := by
  have hv : v ∈ s.vol.busy := h.hand_busy List.mem_cons_self
  have hstep := step_moveToIdle h.vol hv
  refine ⟨wf_moveToIdle h.vol hv, ?_, ?_, fun e he => ?_, h.tree, h.mem_tree, h.leaves,
    h.countOfEntries, h.wild,
    h.countOfWild⟩
  · show s.maxDataSegSize = _
    rw [h.maxDataSegSize]
    show _ = ((viewMoveToIdle s.vol v).2.io.cache.hard.clusterSize : Int) - _
    rw [hstep.size]
  · show (viewMoveToIdle s.vol v).2.busy.Perm (hand ++ s.entries.flatMap s.chain)
    rw [moveToIdle_busy h.vol]
    have := h.owned.erase v
    rwa [List.cons_append, List.erase_cons_head] at this
  · refine (h.entry e he).congr fun w hw => ?_
    have hne : w ≠ v := fun heq => h.hand_notMem List.mem_cons_self he (heq ▸ hw)
    show (s.vol.cluster w).Like ((viewMoveToIdle s.vol v).2.cluster w)
    rw [moveToIdle_cluster h.vol, Function.update_of_ne hne]
    exact .refl _

end Space

end Evfs

end LibNax
