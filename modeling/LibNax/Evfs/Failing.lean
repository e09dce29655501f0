import LibNax.Evfs.Access

/-!
# Writes in which allocations fail

Whatever fails in a write, the views that are taken for it are other ones than the head of the
entry, and nothing but `stretchHead` sets the length of the entry.

* `Widened` — an expansion, in which the task or a block may be missing.
* `Pinned`, `Anchored` — the head is a view that cannot be taken, and its length.
* `Pinned.acquireIdleMore` — taking views, with what is given back where there are too few.
* `Anchored.writeBody` — a write.
-/

set_option autoImplicit false

namespace LibNax

namespace Evfs

open Lib (int32)

/-! ## Expansions -/

/-- An expansion that has failed leaves the geometry alone, and one that has not is the one of a
file in which nothing fails.  Both are `n` new clusters, with the numbers from `i` on. -/
def Widened (io io' : Io) (n i : Int) : Prop :=
  (n ≤ 0 ∧ io.cache.hard.Keeps io'.cache.hard) ∨
    io.cache.hard.fsize < 2 ^ 31 ∧ n = io.cache.hard.expandClusterCount ∧
      i = io.cache.hard.clusterCount ∧ io'.cache.hard = io.cache.hard.expanded

section Expansion

variable {io : Io}

theorem widened_written (g : Geometry io.cache.hard) (hw : io.cache.hard.writeFaults = []) :
    Widened io io.expandWritten.2.2 io.expandWritten.1 io.expandWritten.2.1 := by
  by_cases hlt : io.cache.hard.fsize < 2 ^ 31
  · rw [Io.expandWritten, g.hardExpand_eq hw hlt]
    exact .inr ⟨hlt, rfl, rfl, rfl⟩
  · rw [Io.expandWritten, g.hardExpand_fail (by omega)]
    exact .inl ⟨show eInval ≤ 0 by decide, .refl _⟩

/-- The block that an expansion allocates may be missing. -/
theorem widened_expandHard (g : Geometry io.cache.hard) (hw : io.cache.hard.writeFaults = []) :
    Widened io io.expandHard.2.2 io.expandHard.1 io.expandHard.2.1 := by
  have hlarge : io.cache.hard.Keeps io.cache.hard.withLargeBlocks :=
    ⟨rfl, rfl, rfl, rfl, (Hard.popWrite_keeps io.cache.hard).writeFaults⟩
  rw [Io.expandHard]
  split
  · exact widened_written g hw
  split
  · exact @widened_written io.alloc.2 g hw
  · refine .inl ⟨show eNomem ≤ 0 by decide, ?_⟩
    simp only
    split
    · exact hlarge
    · exact .refl _

theorem widened_cacheExpand (g : Geometry io.cache.hard) (hw : io.cache.hard.writeFaults = []) :
    Widened io (cacheExpand io).2.2 (cacheExpand io).1 (cacheExpand io).2.1 := by
  have hexpand := @widened_expandHard io.alloc.2 g hw
  rw [cacheExpand]
  split
  · simp only
    split
    · exact hexpand
    · rename_i hno
      rcases hexpand with ⟨-, hk⟩ | ⟨-, hn, -, -⟩
      · exact .inl ⟨show (-1 : Int) ≤ 0 by decide, hk⟩
      · exact absurd (hn ▸ g.expand_pos) hno
  · exact .inl ⟨show (-1 : Int) ≤ 0 by decide, .refl _⟩

end Expansion

/-! ## The head among the views -/

/-- The view `e` has the length `size`, and cannot be taken. -/
structure Pinned (e size : Int) (s : Vol) : Prop where
  writeFaults : s.io.cache.hard.writeFaults = []
  geometry : Geometry s.io.cache.hard
  pos : 0 < e
  lt : e < s.clusterCount
  notMem : e ∉ s.idle
  size : viewGetDataSegSize s e = size

variable {e v size : Int}

namespace Pinned

variable {s : Vol}

theorem setIo (h : Pinned e size s) {io : Io} (hk : s.io.Keeps io) :
    Pinned e size { s with io } where
  writeFaults := hk.hard.writeFaults h.writeFaults
  geometry := h.geometry.keeps hk.hard
  pos := h.pos
  lt := h.lt.trans_eq hk.hard.clusterCount.symm
  notMem := h.notMem
  size := h.size

theorem alloc (h : Pinned e size s) : Pinned e size s.alloc.2 := h.setIo s.io.alloc_keeps

theorem setCluster (h : Pinned e size s) (v : Int) {c : Cluster}
    (hc : v = e → c.dataSegSize = (s.cluster e).dataSegSize) :
    Pinned e size (s.setCluster v c) := by
  refine { h with size := ?_ }
  rw [← h.size, viewGetDataSegSize, viewGetDataSegSize]
  refine congrArg elementSize ?_
  show (Function.update s.cluster v c e).dataSegSize = _
  by_cases hev : e = v
  · rw [hev, Function.update_self, hc hev.symm, hev]
  · rw [Function.update_of_ne hev]

theorem putCluster (h : Pinned e size s) (v : Int) {c : Cluster}
    (hc : v = e → c.dataSegSize = (s.cluster e).dataSegSize) :
    Pinned e size (s.putCluster v c).2 :=
  (h.setCluster v hc).setIo (Vol.writeHead_keeps _ v)

theorem setNext (h : Pinned e size s) (v : Int) (nextView : Option Int) :
    Pinned e size (viewSetNext s v nextView).2 :=
  h.putCluster v fun hv => by rw [hv]

theorem putDataSegSize (h : Pinned e size s) (hv : v ≠ e) (n : Int) :
    Pinned e size (s.putDataSegSize v n).2 := by
  rw [Vol.putDataSegSize]
  split
  · exact h.putCluster v fun hve => absurd hve hv
  · exact h

theorem moveToIdle (h : Pinned e size s) (hv : v ≠ e) :
    Pinned e size (viewMoveToIdle s v).2 := by
  rw [viewMoveToIdle]
  split
  · exact h
  · have hset := h.setCluster v (c := .zero) fun hve => absurd hve hv
    refine Pinned.setIo (s := { s.setCluster v .zero with
      busy := s.busy.erase v, countOfBusyViews := s.countOfBusyViews - 1,
      idle := s.idle ++ [v], countOfIdleViews := s.countOfIdleViews + 1 })
      { hset with notMem := fun hmem => ?_ } (Vol.writeHead_keeps _ v)
    rcases List.mem_append.mp hmem with hmem | hmem
    · exact h.notMem hmem
    · exact hv (List.mem_singleton.mp hmem).symm

theorem moveToIdle_foldl (views : List Int) : ∀ {s : Vol}, Pinned e size s →
    (∀ v ∈ views, v ≠ e) →
    Pinned e size (views.foldl (fun s view => (viewMoveToIdle s view).2) s) := by
  induction views with
  | nil => exact fun h _ => h
  | cons v views ih =>
    exact fun h hne => ih (h.moveToIdle (hne v List.mem_cons_self))
      fun w hw => hne w (List.mem_cons_of_mem v hw)

/-! ## Taking views -/

theorem insertNewIdle (h : Pinned e size s) (hv : v ≠ e) (c : Cluster) :
    Pinned e size (s.insertNewIdle v c) := by
  have hset := h.setCluster v (c := c) fun hve => absurd hve hv
  refine ⟨h.writeFaults, h.geometry, h.pos, h.lt, fun hmem => ?_, hset.size⟩
  rcases List.mem_append.mp hmem with hmem | hmem
  · exact h.notMem hmem
  · exact hv (List.mem_singleton.mp hmem).symm

theorem expandViews (n : Nat) : ∀ {i : Int} {s : Vol}, Pinned e size s → e < i →
    Pinned e size (Vol.expandViews n i s) := by
  induction n with
  | zero => exact fun h _ => h
  | succ n ih =>
    intro i s h hi
    rw [Vol.expandViews]
    split
    · exact ih (h.alloc.insertNewIdle (by omega) .zero) (by omega)
    · exact ih h.alloc (by omega)

/-- The new views have numbers behind all others. -/
theorem expand (h : Pinned e size s) : Pinned e size (viewExpand s).2 := by
  have hwide := widened_cacheExpand h.geometry h.writeFaults
  rw [viewExpand]
  generalize cacheExpand s.io = r at hwide
  rcases hwide with ⟨hle, hk⟩ | ⟨hlt, hn, hi, hhard⟩
  · simp only [if_pos hle]
    exact { h with
      writeFaults := hk.writeFaults h.writeFaults
      geometry := h.geometry.keeps hk
      lt := h.lt.trans_eq hk.clusterCount.symm }
  · have hpos := h.geometry.expand_pos
    have hmore := Hard.expanded_clusterCount h.geometry
    have hlt' := h.lt
    rw [Vol.clusterCount] at hlt'
    rw [if_neg (by omega)]
    refine expandViews _ { h with
      writeFaults := ?_
      geometry := ?_
      lt := ?_ } (by omega)
    · rw [hhard]
      exact h.writeFaults
    · rw [hhard]
      exact h.geometry.expanded hlt
    · show e < r.2.2.cache.hard.clusterCount
      rw [hhard]
      omega

theorem expandWhileEmpty (n : Nat) : ∀ {s : Vol}, Pinned e size s →
    Pinned e size (expandWhileEmpty n s).2 := by
  induction n with
  | zero => exact fun h => h
  | succ n ih =>
    intro s h
    rw [Evfs.expandWhileEmpty]
    split
    · simp only
      split
      · exact ih h.expand
      · exact h.expand
    · exact h

theorem takeIdle (h : Pinned e size s) (hv : v ∈ s.idle) : Pinned e size (takeIdle s v) := by
  have hset := h.setCluster v (c := .zero) fun hve => absurd (hve ▸ hv) h.notMem
  exact { hset with notMem := fun hmem => h.notMem (List.mem_of_mem_erase hmem) }

theorem clearCluster (h : Pinned e size s) (v : Int) :
    Pinned e size (clearCluster s v).2 ∧ ∀ w, (Evfs.clearCluster s v).1 = some w → w = v := by
  rw [Evfs.clearCluster]
  split
  · exact ⟨h.alloc.setIo (cacheWrite_keeps _ _ _ _), fun w hw => (Option.some.inj hw).symm⟩
  · exact ⟨h.alloc, fun w hw => by cases hw⟩

theorem acquireIdle (h : Pinned e size s) :
    Pinned e size (viewAcquireIdle s).2 ∧ ∀ v, (viewAcquireIdle s).1 = some v → v ≠ e := by
  have hround := h.expandWhileEmpty expandRounds
  rw [viewAcquireIdle]
  split
  · exact ⟨h, fun v hv => by cases hv⟩
  generalize Evfs.expandWhileEmpty expandRounds s = r at hround
  simp only
  split
  · split
    · exact ⟨hround, fun v hv => by cases hv⟩
    · rename_i w idle hidle
      have hw : w ∈ r.2.idle := hidle ▸ List.mem_cons_self
      obtain ⟨hclear, hsame⟩ := (hround.takeIdle hw).clearCluster w
      refine ⟨hclear, fun v hv hve => hround.notMem ?_⟩
      rw [← hve, hsame v hv]
      exact hw
  · exact ⟨hround, fun v hv => by cases hv⟩

theorem acquireViews (n : Nat) : ∀ {s : Vol}, Pinned e size s →
    Pinned e size (acquireViews n s).2 ∧ ∀ v ∈ (Evfs.acquireViews n s).1, v ≠ e := by
  induction n with
  | zero => exact fun h => ⟨h, fun v hv => by cases hv⟩
  | succ n ih =>
    intro s h
    obtain ⟨hone, hne⟩ := h.acquireIdle
    rw [Evfs.acquireViews]
    simp only
    split
    · exact ⟨hone, fun v hv => by cases hv⟩
    · rename_i w hw
      obtain ⟨hrest, hne'⟩ := ih hone
      refine ⟨hrest, fun v hv => ?_⟩
      rcases List.mem_cons.mp hv with rfl | hv
      · exact hne _ hw
      · exact hne' v hv

/-- **Taking views.**  Where there are too few, those that were taken are given back. -/
theorem acquireIdleMore (h : Pinned e size s) (amount : Nat) :
    Pinned e size (viewAcquireIdleMore amount s).2 ∧
      ∀ views, (viewAcquireIdleMore amount s).1 = .ok views → ∀ v ∈ views, v ≠ e := by
  obtain ⟨hall, hne⟩ := h.acquireViews amount
  rw [viewAcquireIdleMore]
  split
  · exact ⟨h, fun views hviews => by cases hviews⟩
  simp only
  split
  · exact ⟨moveToIdle_foldl _ hall hne, fun views hviews => by cases hviews⟩
  · refine ⟨hall, fun views hviews => ?_⟩
    cases hviews
    exact hne

/-! ## Headers and data -/

theorem viewWriteHead (h : Pinned e size s) (v : Int) :
    Pinned e size (viewWriteHead s v).2 := by
  rw [Evfs.viewWriteHead]
  split
  · exact h
  · exact h.setIo (Vol.writeHead_keeps s v)

theorem writeHeads (views : List Int) : ∀ (status : Int) {s : Vol}, Pinned e size s →
    Pinned e size (writeHeads views status s).2 := by
  induction views with
  | nil => exact fun _ _ h => h
  | cons v views ih =>
    intro status s h
    rw [Evfs.writeHeads]
    split
    · exact ih _ (h.viewWriteHead v)
    · exact h.viewWriteHead v

theorem writeUserdata (h : Pinned e size s) (v : Int) (buffer : List UInt8) (offset : Int) :
    Pinned e size (viewWriteUserdata s v buffer offset).2 := by
  obtain ⟨io, heq, hk⟩ := writeUserdata_keeps s v buffer offset
  rw [heq]
  exact h.setIo hk

end Pinned

/-! ## The head among the elements -/

/-- The head of the entry `e` is none of its elements, has the length `size`, and cannot be
taken. -/
structure Anchored (e size : Int) (s : Fs) : Prop where
  vol : Pinned e size s.vol
  notMem : e ∉ (s.heads e).elements

namespace Anchored

variable {s s' : Fs}

theorem setVol (h : Anchored e size s) {vol : Vol} {size' : Int} (hvol : Pinned e size' vol) :
    Anchored e size' (s.setVol vol) :=
  ⟨hvol, h.notMem⟩

theorem setElements (h : Anchored e size s) (head : Head) (hnot : e ∉ head.elements) :
    Anchored e size (s.setHead e head) :=
  ⟨h.vol, by rwa [setHead_heads_self]⟩

/-- The view at a position of the list, which is zero behind its end. -/
theorem getD_ne (h : Anchored e size s) (i : Nat) : (s.heads e).elements.getD i 0 ≠ e := by
  intro heq
  rw [List.getD_eq_getElem?_getD] at heq
  cases hi : (s.heads e).elements[i]? with
  | none =>
    have hpos := h.vol.pos
    rw [hi, Option.getD_none] at heq
    omega
  | some v =>
    rw [hi, Option.getD_some] at heq
    exact h.notMem (heq ▸ (List.mem_of_getElem? hi : v ∈ (s.heads e).elements))

theorem allocElement (h : Anchored e size s) (hv : v ≠ e) :
    Anchored e size (allocElement s v e).2 := by
  have halloc : Anchored e size s.alloc.2 := h.setVol h.vol.alloc
  rw [Evfs.allocElement]
  split
  · have hset : Anchored e size (s.alloc.2.setVol (viewSetHead s.alloc.2.vol v (some e)).2) :=
      halloc.setVol (halloc.vol.putCluster v fun hve => absurd hve hv)
    refine hset.setElements _ fun hmem => ?_
    rcases List.mem_append.mp hmem with hmem | hmem
    · exact hset.notMem hmem
    · exact hv (List.mem_singleton.mp hmem).symm
  · exact halloc

theorem linkViews (views : List Int) : ∀ (last : Int) {s : Fs}, Anchored e size s →
    (∀ v ∈ views, v ≠ e) → Anchored e size (linkViews views last s e).2 := by
  induction views with
  | nil => exact fun _ _ h _ => h
  | cons v views ih =>
    intro last s h hne
    have hone := h.allocElement (hne v List.mem_cons_self)
    rw [Evfs.linkViews]
    split
    · exact ih v (hone.setVol (hone.vol.setNext last (some v)))
        fun w hw => hne w (List.mem_cons_of_mem v hw)
    · exact hone

theorem writeChain (h : Anchored e size s) (coverHead : Bool) :
    Anchored e size (writeChain s e coverHead).2 := by
  have hall := h.vol.writeHeads (s.heads e).elements 0
  rw [Evfs.writeChain]
  split
  · exact h.setVol (hall.viewWriteHead e)
  · exact h.setVol hall

theorem freeElement (h : Anchored e size s) (hv : v ≠ e) :
    Anchored e size (freeElement s e v) := by
  have hout := h.setElements { s.heads e with
    elements := (s.heads e).elements.erase v
    countOfElements := (s.heads e).countOfElements - 1 }
    fun hmem => h.notMem (List.mem_of_mem_erase hmem)
  rw [Evfs.freeElement]
  split
  · exact hout.setVol (h.vol.moveToIdle hv)
  · exact hout

theorem freeElements (h : Anchored e size s) : Anchored e size (freeElements s e) := by
  have hall : ∀ (views : List Int) {s : Fs}, Anchored e size s → (∀ v ∈ views, v ≠ e) →
      Anchored e size (views.foldl (fun s view => Evfs.freeElement s e view) s) := by
    intro views
    induction views with
    | nil => exact fun h _ => h
    | cons v views ih =>
      exact fun h hne => ih (h.freeElement (hne v List.mem_cons_self))
        fun w hw => hne w (List.mem_cons_of_mem v hw)
  exact hall _ h fun v hv hve => h.notMem (hve ▸ hv)

/-- **New elements**, or the elements are freed where an allocation fails. -/
theorem allocIdleElementsForHead (h : Anchored e size s) (n : Nat) :
    Anchored e size (allocIdleElementsForHead s e n).2 := by
  have halloc : Anchored e size s.alloc.2 := h.setVol h.vol.alloc
  obtain ⟨hmore, hne⟩ := halloc.vol.acquireIdleMore n
  rw [Evfs.allocIdleElementsForHead]
  split
  · exact h
  split
  · simp only
    split
    · exact halloc.setVol hmore
    · rename_i views hviews
      have hlink := (halloc.setVol hmore).linkViews views
        ((s.alloc.2.heads e).elements.getLastD e) (hne views hviews)
      split
      · exact hlink.writeChain _
      · exact hlink.freeElements
  · exact halloc

/-- The length is set where a write ends behind it. -/
theorem stretchHead (h : Anchored e size s) (hsize : 0 ≤ size) {n : Int} (hn : n < 2 ^ 31) :
    Anchored e (max size n) (stretchHead s e n) := by
  rw [Evfs.stretchHead, h.vol.size]
  split
  · rename_i hlt
    rw [max_eq_right (Int.le_of_lt hlt)]
    have hhead : headSize n = n - 2 ^ 31 := if_neg (by omega)
    have hlen : elementSize (n - 2 ^ 31) = n := by
      rw [elementSize, if_neg (by omega)]
      omega
    have hself : viewGetDataSegSize (s.vol.putDataSegSize e (n - 2 ^ 31)).2 e = n := by
      rw [viewGetDataSegSize, putDataSegSize_size, if_pos rfl, hlen]
    rw [viewSetHeadDataSegSize, hhead]
    refine h.setVol ?_
    rw [Vol.putDataSegSize] at hself ⊢
    split
    · rename_i hne
      rw [if_pos hne] at hself
      have hkeep := h.vol.setIo ((s.vol.setCluster e { s.vol.cluster e with
        dataSegSize := n - 2 ^ 31 }).writeHead_keeps e)
      exact { hkeep with size := hself }
    · rename_i hsame
      rw [if_neg hsame] at hself
      exact { h.vol with size := hself }
  · rw [max_eq_left (by omega)]
    exact h

/-! ## Writing -/

theorem elementAt (h : Anchored e size s) (i : Nat) : Anchored e size (elementAt s e i).2.2 := by
  rw [Evfs.elementAt]
  split
  · exact h
  · exact h.allocIdleElementsForHead 1

theorem elementShare (h : Anchored e size s) (hv : v ≠ e) (elemOffset remain : Int) :
    Pinned e size (elementShare s v elemOffset remain).2 := by
  rw [Evfs.elementShare]
  split
  · exact h.vol
  · exact h.vol.putDataSegSize hv _

theorem writeElement (n : Nat) : ∀ {s : Fs} {i : Nat} {data : List UInt8} {off remain r : Int},
    Anchored e size s → writeElement n s e i data off remain = some (r, s') →
    Anchored e size s' := by
  induction n with
  | zero =>
    intro s i data off remain r h heq
    cases heq
    exact h
  | succ n ih =>
    intro s i data off remain r h heq
    rw [Evfs.writeElement] at heq
    split at heq
    · cases heq
      exact h
    simp only at heq
    have hat := h.elementAt i
    have hne := hat.getD_ne (Evfs.elementAt s e i).2.1
    generalize Evfs.elementAt s e i = a at heq hat hne
    generalize (a.2.2.heads e).elements.getD a.2.1 0 = view at heq hne
    have hshare := hat.elementShare hne off remain
    generalize Evfs.elementShare a.2.2 view off remain = sh at heq hshare
    split at heq
    · split at heq
      · cases heq
      have hone := hat.setVol (hshare.writeUserdata view (data.take sh.1.toNat) off)
      split at heq
      · cases heq
        exact hone
      · obtain ⟨⟨r', s''⟩, hrec, heq'⟩ := Option.map_eq_some_iff.mp heq
        cases heq'
        exact ih hone hrec
    · cases heq
      exact hat

theorem passElement (h : Anchored e size s) (i : Nat) : Anchored e size (passElement s e i).2 := by
  rw [Evfs.passElement]
  split
  · exact h
  · have hmore := h.allocIdleElementsForHead 1
    simp only
    split
    · exact hmore.setVol (hmore.vol.putDataSegSize (hmore.getD_ne _) _)
    · exact hmore

theorem seekElement (n : Nat) : ∀ {s : Fs} (i : Nat) (inner : Int), Anchored e size s →
    Anchored e size (seekElement n s e i inner).2 := by
  induction n with
  | zero => exact fun _ _ h => h
  | succ n ih =>
    intro s i inner h
    rw [Evfs.seekElement]
    split
    · simp only
      split
      · exact ih _ _ (h.passElement i)
      · exact h.passElement i
    · exact h

/-- **Writing**: whatever fails, the length is the one that is set before anything is taken. -/
theorem writeBody (h : Anchored e size s) (hsize : 0 ≤ size) {data : List UInt8}
    {offset n r : Int} (heq : writeBody s e data offset n = some (r, s')) :
    Anchored e (max size (int32 (int32 (offset + maxEntryNameLength) + n))) s' := by
  have h := h.stretchHead hsize
    (Lib.inInt32_int32 (int32 (offset + maxEntryNameLength) + n)).2
  rw [Evfs.writeBody] at heq
  generalize Evfs.stretchHead s e _ = s₁ at h heq
  split at heq
  · rw [writeFromHead] at heq
    simp only at heq
    split at heq
    · cases heq
    have hhead := h.setVol (h.vol.writeUserdata e
      (data.take (min (int32 (s₁.maxDataSegSize - int32 (offset + maxEntryNameLength))) n).toNat)
      (int32 (offset + maxEntryNameLength)))
    split at heq
    · cases heq
      exact hhead
    split at heq
    · cases heq
    · obtain ⟨⟨r', s''⟩, hrec, heq'⟩ := Option.map_eq_some_iff.mp heq
      cases heq'
      exact hhead.writeElement _ hrec
  · have hseek := seekElement (int32 (offset + maxEntryNameLength) - s₁.maxDataSegSize).toNat 0
      (int32 (offset + maxEntryNameLength) - s₁.maxDataSegSize) h
    rw [writeBehindHead] at heq
    split at heq
    · cases heq
      exact hseek
    · exact hseek.writeElement _ heq

end Anchored

end Evfs

end LibNax
