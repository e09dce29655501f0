import LibNax.Evfs.Mirror

/-!
# The functions of the view layer

One theorem, or two, for every function: what happens to the lists, and the step on the disk.

The manager keeps every header twice, in a view and on the disk, and it writes the disk through the
cache, whose blocks may be newer than the file.  A theorem about what a read finds should know
nothing of that.  So there are two relations, and each function is described in both of them.

The first is about the lists.  `Vol.Wf` says that the idle and the busy views are the clusters of the
file, each in one list, that the counters are the lengths, and that the header of an idle view is
clear.  A function of the view layer moves one view, or adds new ones at the end, and the theorems
`wf_…` say that the parts still make up the whole.

The second is about the disk.  `Mirror s u` says that the list `u` of clusters is what anybody sees
who reads through the cache, and that it has the headers of the views.  `Step s s' g` says that a
mirror of `s` becomes one of `s'`, whose data areas are those of `u` under `g`.  The functions of the
cache are described by `Sim` in terms of a disk without a cache, so that a step is one `set` in `u`.
Steps are put together like functions, and `unchanged` is the step of everything that only changes
headers.  A disk that fails has no mirror, and nothing is said of it then; but the lists do not
depend on it, since the manager ignores the results of its writes.  That is the reason why the two
are apart.

Growing is the one function whose result is not an equation.  `evfs_cache_expand` reads the number of
new clusters out of a task after it was freed, so that the model sets a flag (`Io.fault`), and goes on
with the numbers that were there.  From that on nothing is claimed (`Step.fault` is about steps in
which the file has its old size), but the invariants of the lists hold on, which is what the search
for a view needs: `evfs_view_acquire_idle` grows the file until there is an idle view, and with an
offset that is no `int` any more it gives up (`acquireIdle_spec`).

* `wf_putCluster`, `step_putCluster` — a change of a header.
* `wf_moveToIdle`, `step_moveToIdle` — a view is given back.
* `step_writeUserdata`, `Mirror.readUserdata` — the data of a cluster.
* `viewExpand_spec`, `acquireIdle_spec` — the file grows, and a view is taken.
-/

set_option autoImplicit false

namespace LibNax

namespace Evfs

open Lib (slice overwrite)

variable {s : Vol} {u : List (List UInt8)} {v : Int}

/-! ## Headers -/

theorem Vol.writeHead_keeps (s : Vol) (v : Int) : s.io.Keeps (s.writeHead v).io :=
  cacheWriteHead_keeps _ _ _

theorem wf_writeHead (h : s.Wf) (v : Int) : (s.writeHead v).Wf := h.setIo (s.writeHead_keeps v)

theorem wf_putCluster (h : s.Wf) (v : Int) (c : Cluster) : (s.putCluster v c).2.Wf :=
  wf_writeHead (h.setCluster v c) v

@[simp] theorem putCluster_busy (s : Vol) (v : Int) (c : Cluster) :
    (s.putCluster v c).2.busy = s.busy := rfl

@[simp] theorem putCluster_idle (s : Vol) (v : Int) (c : Cluster) :
    (s.putCluster v c).2.idle = s.idle := rfl

@[simp] theorem putCluster_cluster (s : Vol) (v : Int) (c : Cluster) :
    (s.putCluster v c).2.cluster = Function.update s.cluster v c := rfl

theorem putCluster_fsize (s : Vol) (v : Int) (c : Cluster) :
    (s.putCluster v c).2.fsize = s.fsize := ((s.setCluster v c).writeHead_keeps v).hard.fsize

/-- Writing the header of a view that is in memory. -/
theorem step_header {s' : Vol} {c : Cluster} (h : s.Wf) (hv : 1 ≤ v) (hv' : v < s.clusterCount)
    (hc : c.Wf) (hio : s'.io = (cacheWriteHead s.io v c).2)
    (hmax : s'.maxDataSegSize = s.maxDataSegSize)
    (hbusy : ∀ w ∈ s'.busy, (w ≠ v ∧ w ∈ s.busy ∧ s'.cluster w = s.cluster w) ∨
      (w = v ∧ c = s'.cluster v))
    (hidle : ∀ w ∈ s'.idle, (w ≠ v ∧ w ∈ s.idle) ∨ (w = v ∧ c = .zero)) :
    Step s s' unchanged := by
  have hfit : 0 + c.bytes.length ≤ s.io.cache.hard.clusterSize := by
    have := h.geometry.size_le
    rw [c.length_bytes, sizeofCluster]
    omega
  refine step_write h hv hv' _ hfit hio hmax ?_ ?_ (fun _ _ _ => rfl) fun b _ =>
    drop_overwrite_bytes c b
  · intro w hw
    refine (hbusy w hw).imp_right ?_
    rintro ⟨hwv, heq⟩
    refine ⟨hwv, fun b _ _ => ?_⟩
    rw [ofBytes_overwrite hc, heq]
  · intro w hw
    refine (hidle w hw).imp_right ?_
    rintro ⟨hwv, heq⟩
    refine ⟨hwv, fun b => ?_⟩
    rw [ofBytes_overwrite hc, heq]

theorem step_putCluster (h : s.Wf) (hv : v ∈ s.busy) {c : Cluster} (hc : (s.cluster v).Wf → c.Wf) :
    Step s (s.putCluster v c).2 unchanged := by
  obtain ⟨h₁, h₂⟩ := h.mem_busy hv
  have hk : s.io.Keeps (s.putCluster v c).2.io := (s.setCluster v c).writeHead_keeps v
  refine ⟨hk.hard.clusterSize, rfl, Int.le_of_eq hk.hard.fsize.symm, fun _ => hk.fault,
    fun u m hf => ?_⟩
  have hstep : Step s (s.putCluster v c).2 unchanged := by
    refine step_header h h₁ h₂ (hc (m.busy v hv ▸ wf_ofBytes _)) ?_ rfl ?_ ?_
    · show (cacheWriteHead s.io v (Function.update s.cluster v c v)).2 = _
      rw [Function.update_self]
    · intro w hw
      rw [putCluster_cluster]
      by_cases hne : w = v
      · exact .inr ⟨hne, by rw [Function.update_self]⟩
      · exact .inl ⟨hne, hw, Function.update_of_ne hne ..⟩
    · exact fun w hw => .inl ⟨fun hwv => h.busy_notMem_idle hv (hwv ▸ hw), hw⟩
  exact hstep.mirror u m hf

/-- The status of a write of a header is never looked at where it can fail; without a fault it is
zero. -/
theorem Mirror.putCluster_status (m : Mirror s u) (h : s.Wf) (hv : v ∈ s.busy) (c : Cluster) :
    (s.putCluster v c).1 = 0 := by
  obtain ⟨h₁, h₂⟩ := h.mem_busy hv
  refine (m.cacheWrite h.allocFaults h₁ h₂ 0 ?_).1
  have := h.geometry.size_le
  rw [Cluster.length_bytes, sizeofCluster]
  omega

/-- The headers as they are in memory, once more. -/
theorem step_writeHead (h : s.Wf) (hv : v ∈ s.busy) : Step s (s.writeHead v) unchanged := by
  have hstep := step_putCluster h hv (c := s.cluster v) id
  rw [Vol.putCluster, Vol.setCluster, Function.update_eq_self] at hstep
  exact hstep

theorem viewWriteHead_snd (h : s.Wf) (v : Int) : (viewWriteHead s v).2 = s.writeHead v := by
  rw [viewWriteHead, if_neg (by have := h.total; omega)]

theorem viewWriteHead_success (s : Vol) (v : Int) : nspSuccess (viewWriteHead s v).1 = true := by
  rw [viewWriteHead]
  split
  · exact nspSuccess_zero
  · show nspSuccess (if _ then _ else _) = true
    split
    · decide
    · exact nspSuccess_zero

/-! ## Giving a view back -/

/-- The lists after a view was given back. -/
def Vol.gaveBack (s : Vol) (v : Int) : Vol :=
  { s.setCluster v .zero with
    busy := s.busy.erase v, countOfBusyViews := s.countOfBusyViews - 1,
    idle := s.idle ++ [v], countOfIdleViews := s.countOfIdleViews + 1 }

theorem viewMoveToIdle_snd (h : s.Wf) (v : Int) :
    (viewMoveToIdle s v).2 = (s.gaveBack v).writeHead v := by
  rw [viewMoveToIdle, if_neg (by have := h.total; omega)]
  rfl

theorem wf_gaveBack (h : s.Wf) (hv : v ∈ s.busy) : (s.gaveBack v).Wf where
  allocFaults := h.allocFaults
  writeFaults := h.writeFaults
  geometry := h.geometry
  total := h.total
  clusterSize := h.clusterSize
  perm := by
    have hperm : (s.idle ++ [v] ++ s.busy.erase v).Perm (s.idle ++ s.busy) := by
      rw [List.append_assoc]
      exact (List.perm_cons_erase hv).symm.append_left s.idle
    exact hperm.trans h.perm
  countIdle := by
    show s.countOfIdleViews + 1 = ((s.idle ++ [v]).length : Int)
    rw [h.countIdle, List.length_append, List.length_singleton]
    omega
  countBusy := by
    show s.countOfBusyViews - 1 = ((s.busy.erase v).length : Int)
    have := List.length_pos_of_mem hv
    rw [h.countBusy, List.length_erase_of_mem hv]
    omega
  tree := h.tree
  mem_tree := fun w => by
    show _ ↔ w ∈ s.idle ++ [v] ∨ w ∈ s.busy.erase v
    rw [h.nodup_busy.mem_erase_iff, List.mem_append, List.mem_singleton]
    refine (h.mem_tree w).trans ⟨?_, ?_⟩
    · rintro (hw | hw)
      · exact .inl (.inl hw)
      · by_cases hwv : w = v
        · exact .inl (.inr hwv)
        · exact .inr ⟨hwv, hw⟩
    · rintro ((hw | rfl) | ⟨-, hw⟩)
      · exact .inl hw
      · exact .inr hv
      · exact .inr hw

theorem wf_moveToIdle (h : s.Wf) (hv : v ∈ s.busy) : (viewMoveToIdle s v).2.Wf := by
  rw [viewMoveToIdle_snd h]
  exact wf_writeHead (wf_gaveBack h hv) v

theorem zero_wf : Cluster.zero.Wf := ⟨by decide, by decide, by decide⟩

theorem moveToIdle_keeps (vol : Vol) (v : Int) : vol.io.Keeps (viewMoveToIdle vol v).2.io := by
  rw [viewMoveToIdle]
  split
  · exact .refl _
  · exact cacheWriteHead_keeps _ _ _

theorem step_moveToIdle (h : s.Wf) (hv : v ∈ s.busy) : Step s (viewMoveToIdle s v).2 unchanged := by
  obtain ⟨h₁, h₂⟩ := h.mem_busy hv
  rw [viewMoveToIdle_snd h]
  refine step_header h h₁ h₂ zero_wf ?_ rfl ?_ ?_
  · show (cacheWriteHead s.io v (Function.update s.cluster v .zero v)).2 = _
    rw [Function.update_self]
  · intro w hw
    obtain ⟨hne, hw⟩ := h.nodup_busy.mem_erase_iff.mp hw
    exact .inl ⟨hne, hw, Function.update_of_ne hne ..⟩
  · intro w hw
    rcases List.mem_append.mp hw with hw | hw
    · exact .inl ⟨fun hwv => h.busy_notMem_idle hv (hwv ▸ hw), hw⟩
    · exact .inr ⟨List.mem_singleton.mp hw, rfl⟩

theorem moveToIdle_busy (h : s.Wf) (v : Int) : (viewMoveToIdle s v).2.busy = s.busy.erase v := by
  rw [viewMoveToIdle_snd h]
  rfl

theorem moveToIdle_cluster (h : s.Wf) (v : Int) :
    (viewMoveToIdle s v).2.cluster = Function.update s.cluster v .zero := by
  rw [viewMoveToIdle_snd h]
  rfl

/-! ## Data -/

/-- The view and the range are such that a write or a read of data takes place. -/
structure Vol.Usable (s : Vol) (v offset length : Int) : Prop where
  nonneg : 0 ≤ offset
  pos : 0 < length
  used : ¬s.Unused v
  fits : offset + length ≤ s.io.cache.hard.clusterSize - sizeofCluster

instance (s : Vol) (v offset length : Int) : Decidable (s.Usable v offset length) :=
  decidable_of_iff (0 ≤ offset ∧ 0 < length ∧ ¬s.Unused v ∧
    offset + length ≤ s.io.cache.hard.clusterSize - sizeofCluster)
    ⟨fun ⟨h₁, h₂, h₃, h₄⟩ => ⟨h₁, h₂, h₃, h₄⟩, fun h => ⟨h.nonneg, h.pos, h.used, h.fits⟩⟩

theorem writeUserdata_keeps (s : Vol) (v : Int) (buffer : List UInt8) (offset : Int) :
    ∃ io, (viewWriteUserdata s v buffer offset).2 = { s with io } ∧ s.io.Keeps io := by
  rw [viewWriteUserdata]
  split
  · exact ⟨s.io, rfl, .refl _⟩
  · exact ⟨_, rfl, cacheWriteUserdata_keeps _ _ _ _⟩

theorem readUserdata_keeps (s : Vol) (v offset length : Int) :
    ∃ io, (viewReadUserdata s v offset length).2.2 = { s with io } ∧ s.io.Keeps io := by
  have hk := cacheReadUserdata_keeps s.io v offset length
  rw [viewReadUserdata]
  split
  · exact ⟨s.io, rfl, .refl _⟩
  · simp only
    split
    · exact ⟨_, rfl, hk⟩
    · exact ⟨_, rfl, hk⟩

theorem wf_writeUserdata (h : s.Wf) (v : Int) (buffer : List UInt8) (offset : Int) :
    (viewWriteUserdata s v buffer offset).2.Wf := by
  obtain ⟨io, heq, hk⟩ := writeUserdata_keeps s v buffer offset
  rw [heq]
  exact h.setIo hk

/-- The number a write of data returns is its length or zero. -/
theorem writeUserdata_fst (s : Vol) (v : Int) (buffer : List UInt8) (offset : Int) :
    (viewWriteUserdata s v buffer offset).1 = buffer.length ∨
      (viewWriteUserdata s v buffer offset).1 = 0 := by
  rw [viewWriteUserdata]
  split
  · exact .inr rfl
  · simp only
    split
    · exact .inl rfl
    · exact .inr rfl

/-- Data that replaces a range of a cluster. -/
def replaced (v : Int) (offset : Nat) (buffer : List UInt8) : Int → List UInt8 → List UInt8 :=
  fun w b => if w = v then overwrite b offset buffer else b

theorem viewWriteUserdata_of_not {buffer : List UInt8} {offset : Int}
    (hno : ¬s.Usable v offset buffer.length) : viewWriteUserdata s v buffer offset = (0, s) := by
  rw [viewWriteUserdata]
  split
  · rfl
  · rename_i hcond
    have hfail : cacheWriteUserdata s.io v buffer offset = (.error eInval, s.io) := by
      rw [cacheWriteUserdata, if_pos]
      by_contra hfits
      refine hno ⟨by omega, ?_, by tauto, ?_⟩
      · have : buffer ≠ [] := by tauto
        have := List.length_pos_iff.mpr this
        omega
      · rw [Io.clusterSize] at hfits
        omega
    rw [hfail]
    rfl

theorem viewWriteUserdata_snd (htotal : 0 < s.totalClusterCount) (hv : 1 ≤ v)
    {buffer : List UInt8} {offset : Nat} (hu : s.Usable v offset buffer.length) :
    viewWriteUserdata s v buffer offset =
      (if nspSuccess (statusOf (cacheWrite s.io v buffer (offset + sizeofCluster : Nat)).1) then
          (buffer.length : Int) else 0,
        { s with io := (cacheWrite s.io v buffer (offset + sizeofCluster : Nat)).2 }) := by
  have hpos := hu.pos
  have hfits := hu.fits
  have hne : buffer ≠ [] := by
    rintro rfl
    exact absurd hpos (by simp)
  have hused := hu.used
  rw [viewWriteUserdata, if_neg (by rintro (h | h | h | h) <;> first | omega | contradiction),
    cacheWriteUserdata, if_neg (by rw [Io.clusterSize]; omega)]
  rfl

/-- The step of a write of data. -/
theorem step_writeUserdata (h : s.Wf) (hv : v ∈ s.busy) (buffer : List UInt8) (offset : Int) :
    Step s (viewWriteUserdata s v buffer offset).2
      (if s.Usable v offset buffer.length then replaced v offset.toNat buffer else unchanged) := by
  obtain ⟨h₁, h₂⟩ := h.mem_busy hv
  by_cases hu : s.Usable v offset buffer.length
  · obtain ⟨off, rfl⟩ := Int.eq_ofNat_of_zero_le hu.nonneg
    have hfits := hu.fits
    have hsize := h.geometry.size_le
    rw [if_pos hu, viewWriteUserdata_snd h.total h₁ hu, Int.toNat_natCast]
    rw [sizeofCluster] at hfits
    refine step_write h h₁ h₂ (off + sizeofCluster) (by rw [sizeofCluster]; omega) rfl rfl ?_ ?_ ?_
      ?_
    · intro w hw
      by_cases hne : w = v
      · refine .inr ⟨hne, fun b hb hb' => ?_⟩
        rw [ofBytes_overwrite_data (by rw [sizeofCluster]; omega), hb' hv]
      · exact .inl ⟨hne, hw, rfl⟩
    · exact fun w hw => .inl ⟨fun hwv => h.busy_notMem_idle hv (hwv ▸ hw), hw⟩
    · intro w hne b
      exact if_neg hne
    · intro b hb
      rw [replaced, if_pos rfl, drop_overwrite_data b (by rw [sizeofCluster]; omega)]
  · rw [if_neg hu, viewWriteUserdata_of_not hu]
    exact .refl s

/-- Without a fault a write of data that fits the cluster writes all of it. -/
theorem Mirror.writeUserdata_fst (m : Mirror s u) (h : s.Wf) (hv : v ∈ s.busy) {buffer : List UInt8}
    {offset : Int} (hu : s.Usable v offset buffer.length) :
    (viewWriteUserdata s v buffer offset).1 = buffer.length := by
  obtain ⟨h₁, h₂⟩ := h.mem_busy hv
  obtain ⟨off, rfl⟩ := Int.eq_ofNat_of_zero_le hu.nonneg
  have hfits := hu.fits
  rw [viewWriteUserdata_snd h.total h₁ hu, (m.cacheWrite h.allocFaults h₁ h₂ _ (by omega)).1]
  simp only [nspSuccess_zero, if_true]

theorem viewReadUserdata_of_not {offset length : Int} (hno : ¬s.Usable v offset length) :
    viewReadUserdata s v offset length = (0, [], s) := by
  rw [viewReadUserdata]
  split
  · rfl
  · rename_i hcond
    have hfail : cacheReadUserdata s.io v offset length = (.error eInval, s.io) := by
      rw [cacheReadUserdata, if_pos]
      by_contra hfits
      refine hno ⟨by omega, by omega, by tauto, ?_⟩
      rw [Io.clusterSize] at hfits
      omega
    rw [hfail]

/-- Without a fault a read inside of a cluster reads its data. -/
theorem Mirror.readUserdata (m : Mirror s u) (h : s.Wf) (hv : v ∈ s.busy) {offset length : Int}
    (hu : s.Usable v offset length) :
    ∃ io, viewReadUserdata s v offset length =
        (length, slice (udata s.io.cache.hard.clusterSize u v) offset.toNat length.toNat,
          { s with io }) ∧
      Mirror { s with io } u := by
  obtain ⟨h₁, h₂⟩ := h.mem_busy hv
  have hpos := hu.pos
  have hnonneg := hu.nonneg
  have hused := hu.used
  have htotal := h.total
  obtain ⟨io, hread, hsim⟩ := m.sim.cacheReadUserdata h.allocFaults h₁ (by rw [m.length]; exact h₂)
    hnonneg (Int.le_of_lt hpos) hu.fits
  have hk := cacheReadUserdata_keeps s.io v offset length
  rw [hread] at hk
  refine ⟨io, ?_, hsim, ?_, m.busy, m.idle, ?_⟩
  · rw [viewReadUserdata, if_neg
      (by rintro (h | h | h | h) <;> first | omega | contradiction), hread]
  · rw [m.length]
    exact hk.hard.clusterCount.symm
  · rw [m.first, hk.hard.clusterSize, hk.hard.clusterCount, hk.hard.expandClusterCount]

theorem step_readUserdata (h : s.Wf) (hv : v ∈ s.busy) (offset length : Int) :
    Step s (viewReadUserdata s v offset length).2.2 unchanged := by
  by_cases hu : s.Usable v offset length
  · obtain ⟨io, heq, hk⟩ := readUserdata_keeps s v offset length
    refine ⟨?_, ?_, ?_, fun _ => ?_, fun u m _ => ⟨u, ?_, fun _ _ => rfl⟩⟩
    · rw [heq]
      exact hk.hard.clusterSize
    · rw [heq]
    · rw [heq]
      exact Int.le_of_eq hk.hard.fsize.symm
    · rw [heq]
      exact hk.fault
    · obtain ⟨io', heq', m'⟩ := m.readUserdata h hv hu
      rw [heq']
      exact m'
  · rw [viewReadUserdata_of_not hu]
    exact .refl s

/-! ## Growing -/

/-- What the loop over the new views does, where no allocation fails. -/
structure Grown (s s' : Vol) (i : Int) (n : Nat) : Prop where
  io : s'.io = s.io
  busy : s'.busy = s.busy
  idle : s'.idle = s.idle ++ nextIds i n
  countIdle : s'.countOfIdleViews = s.countOfIdleViews + n
  countBusy : s'.countOfBusyViews = s.countOfBusyViews
  total : s'.totalClusterCount = s.totalClusterCount
  clusterSize : s'.clusterSize = s.clusterSize
  maxDataSegSize : s'.maxDataSegSize = s.maxDataSegSize
  cluster : ∀ v, v < i → s'.cluster v = s.cluster v
  tree : Avl.Wf (id : Int → Int) s.rootOfViewTree → (∀ v ∈ Avl.toList s.rootOfViewTree, v < i) →
    Avl.Wf (id : Int → Int) s'.rootOfViewTree ∧
      ∀ v, v ∈ Avl.toList s'.rootOfViewTree ↔ v ∈ Avl.toList s.rootOfViewTree ∨ v ∈ nextIds i n

theorem Grown.cons {s s' : Vol} {i : Int} {n : Nat} {c : Cluster}
    (h : Grown (s.insertNewIdle i c) s' (i + 1) n) : Grown s s' i (n + 1) where
  io := h.io
  busy := h.busy
  idle := by
    rw [h.idle, nextIds_succ]
    show s.idle ++ [i] ++ nextIds (i + 1) n = _
    rw [List.append_assoc]
    rfl
  countIdle := by
    rw [h.countIdle]
    show s.countOfIdleViews + 1 + n = _
    omega
  countBusy := h.countBusy
  total := h.total
  clusterSize := h.clusterSize
  maxDataSegSize := h.maxDataSegSize
  cluster := fun v hv => by
    rw [h.cluster v (by omega)]
    exact Function.update_of_ne (by omega) ..
  tree := fun hwf hlt => by
    have hnew : ∀ v ∈ Avl.toList s.rootOfViewTree, id v ≠ id i := fun v hv heq =>
      absurd (hlt v hv) (by rw [show v = i from heq]; omega)
    have hmem : ∀ v, v ∈ Avl.toList (s.insertNewIdle i c).rootOfViewTree ↔
        v = i ∨ v ∈ Avl.toList s.rootOfViewTree := fun v =>
      Avl.mem_toList_avlinsert orders_viewCompare hwf.sorted hnew
    obtain ⟨hwf', hmem'⟩ := h.tree (hwf.avlinsert orders_viewCompare i) fun v hv => by
      rcases (hmem v).mp hv with rfl | hv
      · omega
      · exact Int.lt_add_one_of_le (Int.le_of_lt (hlt v hv))
    refine ⟨hwf', fun v => ?_⟩
    rw [hmem', hmem, nextIds_succ, List.mem_cons]
    tauto

theorem grown_zero (s : Vol) (i : Int) : Grown s s i 0 :=
  ⟨rfl, rfl, (List.append_nil _).symm, (Int.add_zero _).symm, rfl, rfl, rfl, rfl, fun _ _ => rfl,
    fun hwf _ => ⟨hwf, fun v => ⟨.inl, fun h => h.elim id fun h => by cases h⟩⟩⟩

theorem expandViews_grown (n : Nat) : ∀ (i : Int) (s : Vol), s.io.allocFaults = [] →
    Grown s (Vol.expandViews n i s) i n := by
  induction n with
  | zero => exact fun i s _ => grown_zero s i
  | succ n ih =>
    intro i s ha
    have halloc : s.alloc = (true, s) := by rw [Vol.alloc, Io.alloc_of_nil ha]
    rw [Vol.expandViews, halloc]
    exact (ih (i + 1) (s.insertNewIdle i .zero) ha).cons

theorem createViews_grown (garbage : Int → Cluster) (n : Nat) : ∀ (i : Int) (s : Vol),
    s.io.allocFaults = [] → (Vol.createViews garbage n i s).1 = 0 ∧
      Grown s (Vol.createViews garbage n i s).2 i n := by
  induction n with
  | zero => exact fun i s _ => ⟨rfl, grown_zero s i⟩
  | succ n ih =>
    intro i s ha
    have halloc : s.alloc = (true, s) := by rw [Vol.alloc, Io.alloc_of_nil ha]
    rw [Vol.createViews, halloc]
    obtain ⟨hstatus, hgrown⟩ := ih (i + 1) (s.insertNewIdle i (garbage i)) ha
    exact ⟨hstatus, hgrown.cons⟩

/-- The layer below after the file was expanded, and the task read after it had been freed. -/
def Vol.expandedIo (s : Vol) : Vol :=
  { s with io := { s.io with cache := s.io.cache.setHard s.io.cache.hard.expanded, fault := true } }

theorem viewExpand_eq (h : s.Wf) (hlt : s.fsize < 2 ^ 31) :
    viewExpand s = (0, Vol.expandViews s.io.cache.hard.expandClusterCount.toNat s.clusterCount
      s.expandedIo) := by
  have hpos := h.geometry.expand_pos
  have hexpand : cacheExpand s.io =
      (s.io.cache.hard.expandClusterCount, s.clusterCount, s.expandedIo.io) := by
    rw [cacheExpand, Io.alloc_of_nil h.allocFaults]
    simp only [if_true]
    rw [Io.expandHard_of_nil h.allocFaults, Io.expandWritten,
      h.geometry.hardExpand_eq h.writeFaults hlt, if_pos hpos]
    rfl
  rw [viewExpand, hexpand, if_neg (by simp only; omega)]
  rfl

/-- The clusters after an expansion: another first one, and zeros at the end. -/
def grownDisk (u : List (List UInt8)) (first : List UInt8) (k clusterSize : Nat) :
    List (List UInt8) :=
  u.set 0 first ++ List.replicate k (zeroCluster clusterSize)

theorem grownDisk_getElem? {first : List UInt8} {k clusterSize i : Nat} (hi : 1 ≤ i)
    (hlt : i < u.length) : (grownDisk u first k clusterSize)[i]? = u[i]? := by
  rw [grownDisk, List.getElem?_append_left (by rwa [List.length_set]),
    List.getElem?_set_ne (by omega)]

theorem grownDisk_getD {first d : List UInt8} {k clusterSize : Nat} (hv : 1 ≤ v)
    (hlt : v.toNat < u.length) :
    (grownDisk u first k clusterSize).getD v.toNat d = u.getD v.toNat d := by
  rw [List.getD_eq_getElem?_getD, grownDisk_getElem? (by omega) hlt, ← List.getD_eq_getElem?_getD]

theorem grownDisk_getD_new {first d : List UInt8} {k clusterSize i : Nat} (hge : u.length ≤ i)
    (hd : i < u.length + k ∨ d = zeroCluster clusterSize) :
    (grownDisk u first k clusterSize).getD i d = zeroCluster clusterSize := by
  rw [grownDisk, List.getD_eq_getElem?_getD,
    List.getElem?_append_right (by rwa [List.length_set]), List.length_set, List.getElem?_replicate]
  split
  · rfl
  · exact hd.resolve_left (by omega)

theorem ofBytes_zeroCluster {clusterSize : Nat} (h : sizeofCluster ≤ clusterSize) :
    Cluster.ofBytes (zeroCluster clusterSize) = .zero := by
  rw [← ofBytes_take _ (Nat.le_refl _), zeroCluster, List.take_replicate, Nat.min_eq_left h]
  decide

theorem Geometry.expanded_file {hard : Hard} (g : Geometry hard)
    (hlen : (hard.file.length : Int) = hard.clusterCount) :
    hard.expanded.file = grownDisk hard.file
      (firstCluster hard.clusterSize hard.expanded.clusterCount hard.expandClusterCount)
      hard.expandClusterCount.toNat hard.clusterSize := by
  have hcount := g.count_pos
  have hsize := g.size_le
  have hpos : 0 < hard.file.length := by omega
  have hdiv : hard.fsize.toNat / hard.clusterSize = hard.file.length := by
    rw [g.fsize_eq, ← hlen, ← Int.natCast_mul, Int.toNat_natCast,
      Nat.mul_div_cancel _ (by omega)]
  have hpad : overwrite hard.file hard.file.length
      (List.replicate hard.expandClusterCount.toNat (zeroCluster hard.clusterSize)) =
      hard.file ++ List.replicate hard.expandClusterCount.toNat (zeroCluster hard.clusterSize) := by
    rw [overwrite, List.take_length, List.drop_eq_nil_of_le (by omega), List.append_nil]
  show putCluster (overwrite _ (_ / _) _) _ 0 _ = _
  rw [hdiv, hpad, putCluster, if_pos (by rw [List.length_append]; omega), grownDisk,
    List.set_append_left _ _ hpos]
  rfl

/-- A cache stands for the clusters that were added, too. -/
theorem Sim.grow {c : Cache} (h : Sim c [] u) {hard : Hard} (hh : hard.Wf)
    (hsize : hard.clusterSize = c.hard.clusterSize) {first : List UInt8}
    (hfirst : first.length = c.hard.clusterSize) {k : Nat}
    (hfile : hard.file = grownDisk c.hard.file first k c.hard.clusterSize) :
    Sim (c.setHard hard) [] (grownDisk u first k c.hard.clusterSize) where
  wf := h.wf.setHard hard
  hard := hh
  length := by
    show _ = hard.file.length
    rw [hfile, grownDisk, grownDisk, List.length_append, List.length_append, List.length_set,
      List.length_set, h.length]
  sizes := fun b hb => by
    show b.length = hard.clusterSize
    rw [hsize]
    rcases List.mem_append.mp hb with hb | hb
    · rcases List.mem_or_eq_of_mem_set hb with hb | rfl
      · exact h.sizes b hb
      · exact hfirst
    · rw [(List.mem_replicate.mp hb).2, zeroCluster, List.length_replicate]
  cached := fun p hp => by
    obtain ⟨i, hi, hid, hu⟩ := h.cached p hp
    refine ⟨i, hi, hid, ?_⟩
    rw [grownDisk_getElem? hi (List.getElem?_eq_some_iff.mp hu).1]
    exact hu
  disk := fun i hi => by
    show hard.file[i]? = _
    have hdisk := h.disk i hi
    rw [hfile, grownDisk, grownDisk, List.getElem?_append, List.getElem?_append, List.length_set,
      List.length_set, h.length]
    split
    · rw [List.getElem?_set, List.getElem?_set, h.length, hdisk]
    · rfl

/-- A file that is expanded stays one of whole clusters, as long as the offset of every cluster is an
`int`, and the cache stands for it. -/
theorem Sim.expanded {c : Cache} (h : Sim c [] u) (g : Geometry c.hard)
    (hlen : (c.hard.file.length : Int) = c.hard.clusterCount)
    (hfit : c.hard.fsize + c.hard.expandClusterCount * c.hard.clusterSize ≤ 2 ^ 31) :
    Sim (c.setHard c.hard.expanded) [] (grownDisk u (firstCluster c.hard.clusterSize
      c.hard.expanded.clusterCount c.hard.expandClusterCount)
      c.hard.expandClusterCount.toNat c.hard.clusterSize) := by
  have hpos := g.expand_pos
  have hfirst := length_firstCluster g.size_le c.hard.expanded.clusterCount
    c.hard.expandClusterCount
  have hfile := g.expanded_file hlen
  suffices hwf : c.hard.expanded.Wf from h.grow hwf rfl hfirst hfile
  refine ⟨h.hard.size_pos, fun b hb => ?_, ?_, h.hard.readFaults, h.hard.writeFaults⟩
  · rw [hfile] at hb
    rcases List.mem_append.mp hb with hb | hb
    · rcases List.mem_or_eq_of_mem_set hb with hb | rfl
      · exact h.hard.length_cluster b hb
      · exact hfirst
    · rw [(List.mem_replicate.mp hb).2, zeroCluster, List.length_replicate]
      rfl
  · have hlength : (c.hard.expanded.file.length : Int) =
        c.hard.clusterCount + c.hard.expandClusterCount := by
      rw [hfile, grownDisk, List.length_append, List.length_set, List.length_replicate]
      omega
    show c.hard.expanded.file.length * c.hard.clusterSize ≤ 2 ^ 31
    have hbytes : ((c.hard.expanded.file.length * c.hard.clusterSize : Nat) : Int) =
        c.hard.fsize + c.hard.expandClusterCount * c.hard.clusterSize := by
      rw [Int.natCast_mul, hlength, g.fsize_eq, Int.add_mul]
    omega

theorem viewExpand_fail (h : s.Wf) (hge : 2 ^ 31 ≤ s.fsize) : viewExpand s = (nspStatusFatal, s) := by
  have hexpand : cacheExpand s.io = (-1, 0, s.io) := by
    rw [cacheExpand, Io.alloc_of_nil h.allocFaults]
    simp only [if_true]
    rw [Io.expandHard_of_nil h.allocFaults, Io.expandWritten, h.geometry.hardExpand_fail hge,
      if_neg (show ¬eInval > 0 by decide)]
    rfl
  rw [viewExpand, hexpand, if_pos (show (-1 : Int) ≤ 0 by decide)]

/-- More idle views, and nothing else. -/
structure Extended (s s' : Vol) : Prop where
  wf : s'.Wf
  busy : s'.busy = s.busy
  cluster : ∀ v ∈ s.busy, s'.cluster v = s.cluster v
  maxDataSegSize : s'.maxDataSegSize = s.maxDataSegSize
  step : Step s s' unchanged

theorem wf_expanded (h : s.Wf) (hlt : s.fsize < 2 ^ 31) {s' : Vol}
    (hg : Grown s.expandedIo s' s.clusterCount s.io.cache.hard.expandClusterCount.toNat) :
    s'.Wf := by
  have hpos := h.geometry.expand_pos
  have hcount : s'.clusterCount = s.clusterCount + s.io.cache.hard.expandClusterCount.toNat := by
    rw [Vol.clusterCount, hg.io, Int.toNat_of_nonneg (Int.le_of_lt hpos)]
    exact Hard.expanded_clusterCount h.geometry
  have hmem : ∀ v ∈ Avl.toList s.rootOfViewTree, v < s.clusterCount := fun v hv =>
    (h.mem_iff.mp ((h.mem_tree v).mp hv)).2
  obtain ⟨htree, hmemtree⟩ := hg.tree h.tree hmem
  refine ⟨?_, ?_, ?_, ?_, ?_, ?_, ?_, ?_, htree, fun v => ?_⟩
  · rw [hg.io]
    exact h.allocFaults
  · rw [hg.io]
    exact h.writeFaults
  · rw [hg.io]
    exact h.geometry.expanded hlt
  · rw [hg.total]
    exact h.total
  · rw [hg.clusterSize, hg.io]
    exact h.clusterSize
  · rw [hcount, viewIds_add (n := s.clusterCount) h.geometry.count_pos, hg.idle, hg.busy,
      List.append_assoc]
    refine (List.perm_append_comm.append_left _).trans ?_
    rw [← List.append_assoc]
    exact h.perm.append_right _
  · rw [hg.countIdle, hg.idle, List.length_append, nextIds, List.length_map, List.length_range]
    show s.countOfIdleViews + _ = _
    rw [h.countIdle]
    exact (Int.natCast_add _ _).symm
  · rw [hg.countBusy, hg.busy]
    exact h.countBusy
  · rw [hmemtree, hg.idle, hg.busy, List.mem_append]
    show v ∈ Avl.toList s.rootOfViewTree ∨ _ ↔ (v ∈ s.idle ∨ _) ∨ v ∈ s.busy
    rw [h.mem_tree]
    tauto

theorem step_expanded (h : s.Wf) {s' : Vol}
    (hg : Grown s.expandedIo s' s.clusterCount s.io.cache.hard.expandClusterCount.toNat) :
    Step s s' unchanged := by
  have hpos := h.geometry.expand_pos
  have hsize := h.geometry.size_le
  have hcount : s'.clusterCount = s.clusterCount + s.io.cache.hard.expandClusterCount := by
    rw [Vol.clusterCount, hg.io]
    exact Hard.expanded_clusterCount h.geometry
  have hfsize : s'.fsize = s.fsize +
      s.io.cache.hard.expandClusterCount * s.io.cache.hard.clusterSize := by
    rw [Vol.fsize, hg.io]
    rfl
  have hlarger := h.geometry.expandSize_pos
  refine ⟨by rw [hg.io]; rfl, hg.maxDataSegSize, by omega, fun heq => by omega, fun u m hf => ?_⟩
  have hlen : (s.io.cache.hard.file.length : Int) = s.clusterCount := by
    rw [← m.length, m.sim.length]
  have hsim := m.sim.expanded h.geometry hlen (by rw [hfsize] at hf; exact hf)
  refine ⟨_, ⟨by rw [hg.io]; exact hsim, ?_, fun v hv => ?_, fun v hv => ?_, ?_⟩, fun v hv => ?_⟩
  · rw [grownDisk, List.length_append, List.length_set, List.length_replicate, hcount]
    have := m.length
    omega
  · rw [hg.busy] at hv
    obtain ⟨h₁, h₂⟩ := h.mem_busy hv
    rw [hdr, grownDisk_getD h₁ (m.toNat_lt h₁ h₂), hg.cluster v h₂]
    exact m.busy v hv
  · rw [hg.idle] at hv
    rcases List.mem_append.mp hv with hv | hv
    · obtain ⟨h₁, h₂⟩ := h.mem_iff.mp (.inl hv)
      rw [hdr, grownDisk_getD h₁ (m.toNat_lt h₁ h₂)]
      exact m.idle v hv
    · obtain ⟨h₁, h₂⟩ := mem_nextIds.mp hv
      have := m.length
      rw [hdr, grownDisk_getD_new (by omega) (.inl (by omega)),
        ofBytes_zeroCluster (by rw [sizeofCluster]; omega)]
  · have hne : 0 < u.length := by
      have := m.length
      have := h.geometry.count_pos
      rw [Vol.clusterCount] at *
      omega
    rw [grownDisk, List.getElem?_append_left (by rw [List.length_set]; exact hne),
      List.getElem?_set_self hne, hg.io]
    rfl
  · by_cases hlt : v.toNat < u.length
    · rw [udata, grownDisk_getD hv hlt]
      rfl
    · rw [udata, grownDisk_getD_new (by omega) (.inr rfl), unchanged, udata,
        List.getD_eq_getElem?_getD, List.getElem?_eq_none (by omega)]
      rfl

/-- An expansion adds idle views. -/
theorem viewExpand_spec (h : s.Wf) (hlt : s.fsize < 2 ^ 31) :
    (viewExpand s).1 = 0 ∧ Extended s (viewExpand s).2 ∧ (viewExpand s).2.idle ≠ [] := by
  have hpos := h.geometry.expand_pos
  have hg := expandViews_grown s.io.cache.hard.expandClusterCount.toNat s.clusterCount s.expandedIo
    h.allocFaults
  rw [viewExpand_eq h hlt]
  refine ⟨rfl, ⟨wf_expanded h hlt hg, hg.busy, fun v hv => hg.cluster v (h.mem_busy hv).2,
    hg.maxDataSegSize, step_expanded h hg⟩, fun hnil => ?_⟩
  rw [hg.idle] at hnil
  have hmem : s.clusterCount ∈ nextIds s.clusterCount s.io.cache.hard.expandClusterCount.toNat :=
    mem_nextIds.mpr ⟨Int.le_refl _, by omega⟩
  rw [(List.append_eq_nil_iff.mp hnil).2] at hmem
  cases hmem

theorem Extended.refl (h : s.Wf) : Extended s s := ⟨h, rfl, fun _ _ => rfl, rfl, .refl s⟩

/-- The loop expands the file once at most. -/
theorem expandWhileEmpty_eq (h : s.Wf) : expandWhileEmpty expandRounds s =
    if s.idle ≠ [] then (true, s)
    else if s.fsize < 2 ^ 31 then (true, (viewExpand s).2) else (false, s) := by
  have hcount : ∀ {s : Vol}, s.Wf → s.idle ≠ [] → ¬s.countOfIdleViews ≤ 0 := by
    intro s h hne
    have := List.length_pos_iff.mpr hne
    rw [h.countIdle]
    omega
  rw [show expandRounds = 2 ^ 27 - 2 + 1 + 1 by decide, expandWhileEmpty]
  by_cases hidle : s.idle = []
  · rw [if_pos (by rw [h.countIdle, hidle]; exact Int.le_refl 0), if_neg (not_not_intro hidle)]
    by_cases hlt : s.fsize < 2 ^ 31
    · obtain ⟨hstatus, hext, hne⟩ := viewExpand_spec h hlt
      simp only [hstatus, nspSuccess_zero, if_true, if_pos hlt]
      rw [expandWhileEmpty, if_neg (hcount hext.wf hne)]
    · have hfatal : nspSuccess nspStatusFatal = false := by decide
      rw [viewExpand_fail h (by omega), if_neg hlt]
      simp only [hfatal, Bool.false_eq_true, if_false]
  · rw [if_pos hidle]
    exact if_neg (hcount h hidle)

/-- The loop ends with an idle view, or with a file that cannot grow. -/
theorem expandWhileEmpty_spec (h : s.Wf) :
    (∃ s', expandWhileEmpty expandRounds s = (true, s') ∧ Extended s s' ∧ s'.idle ≠ []) ∨
      (expandWhileEmpty expandRounds s = (false, s) ∧ 2 ^ 31 ≤ s.fsize) := by
  rw [expandWhileEmpty_eq h]
  split
  · exact .inl ⟨s, rfl, .refl h, ‹_›⟩
  split
  · obtain ⟨-, hext, hne⟩ := viewExpand_spec h ‹_›
    exact .inl ⟨(viewExpand s).2, rfl, hext, hne⟩
  · exact .inr ⟨rfl, by omega⟩

/-! ## Taking a view -/

/-- A view was taken, and its cluster cleared. -/
structure Acquired (s s' : Vol) (v : Int) : Prop where
  wf : s'.Wf
  busy : s'.busy = s.busy ++ [v]
  notMem : v ∉ s.busy
  cluster_self : s'.cluster v = .zero
  cluster : ∀ w ∈ s.busy, s'.cluster w = s.cluster w
  maxDataSegSize : s'.maxDataSegSize = s.maxDataSegSize
  /-- Where a view was idle the file has not grown. -/
  spare : s.idle ≠ [] → s'.fsize = s.fsize ∧ s'.idle.length + 1 = s.idle.length
  step : Step s s' fun w b =>
    if w = v then List.replicate (s.io.cache.hard.clusterSize - sizeofCluster) 0 else b

theorem wf_takeIdle (h : s.Wf) (hv : v ∈ s.idle) : (takeIdle s v).Wf where
  allocFaults := h.allocFaults
  writeFaults := h.writeFaults
  geometry := h.geometry
  total := h.total
  clusterSize := h.clusterSize
  perm := by
    have hperm : (s.idle.erase v ++ (s.busy ++ [v])).Perm (s.idle ++ s.busy) := by
      refine (List.perm_append_comm.append_left _).trans ?_
      rw [← List.append_assoc]
      refine List.Perm.append_right _ ?_
      exact (List.perm_append_singleton v _).trans (List.perm_cons_erase hv).symm
    exact hperm.trans h.perm
  countIdle := by
    show s.countOfIdleViews - 1 = ((s.idle.erase v).length : Int)
    have := List.length_pos_of_mem hv
    rw [h.countIdle, List.length_erase_of_mem hv]
    omega
  countBusy := by
    show s.countOfBusyViews + 1 = ((s.busy ++ [v]).length : Int)
    rw [h.countBusy, List.length_append, List.length_singleton]
    omega
  tree := h.tree
  mem_tree := fun w => by
    show _ ↔ w ∈ s.idle.erase v ∨ w ∈ s.busy ++ [v]
    rw [h.nodup.of_append_left.mem_erase_iff, List.mem_append, List.mem_singleton]
    refine (h.mem_tree w).trans ⟨?_, ?_⟩
    · rintro (hw | hw)
      · by_cases hwv : w = v
        · exact .inr (.inr hwv)
        · exact .inl ⟨hwv, hw⟩
      · exact .inr (.inl hw)
    · rintro (⟨-, hw⟩ | hw | rfl)
      · exact .inl hw
      · exact .inr hw
      · exact .inl hv

theorem overwrite_zeroCluster {clusterSize : Nat} (h : sizeofCluster ≤ clusterSize) :
    overwrite (zeroCluster clusterSize) 0 Cluster.zero.bytes = zeroCluster clusterSize := by
  have hbytes : Cluster.zero.bytes = List.replicate sizeofCluster 0 := by decide
  rw [overwrite, List.take_zero, List.nil_append, hbytes, zeroCluster, List.length_replicate,
    List.drop_replicate, ← List.replicate_add]
  congr 1
  omega

/-- Clearing the cluster of a view that was idle. -/
theorem acquired_clearCluster (h : s.Wf) (hv : v ∈ s.idle) :
    ∃ s', clearCluster (takeIdle s v) v = (some v, s') ∧ Acquired s s' v := by
  have hwf := wf_takeIdle h hv
  obtain ⟨h₁, h₂⟩ := h.mem_iff.mp (.inl hv)
  have hsize := h.geometry.size_le
  have hzero : overwrite (zeroCluster (takeIdle s v).clusterSize.toNat) 0
      ((takeIdle s v).cluster v).bytes = zeroCluster s.io.cache.hard.clusterSize := by
    have hcluster : (takeIdle s v).cluster v = .zero := Function.update_self ..
    rw [hcluster, show (takeIdle s v).clusterSize = s.clusterSize from rfl, h.clusterSize,
      Int.toNat_natCast, overwrite_zeroCluster (by rw [sizeofCluster]; omega)]
  have heq : clearCluster (takeIdle s v) v = (some v, { takeIdle s v with
      io := (cacheWrite s.io v (zeroCluster s.io.cache.hard.clusterSize) (0 : Nat)).2 }) := by
    rw [clearCluster, hwf.alloc_eq, hzero]
    rfl
  have hbusy : v ∉ s.busy := fun hmem => h.busy_notMem_idle hmem hv
  have hclear : ∀ b : List UInt8, b.length = s.io.cache.hard.clusterSize →
      overwrite b 0 (zeroCluster s.io.cache.hard.clusterSize) =
        zeroCluster s.io.cache.hard.clusterSize := by
    intro b hb
    rw [overwrite, List.take_zero, List.nil_append, zeroCluster, List.length_replicate,
      Nat.zero_add,
      ← hb, List.drop_length, List.append_nil]
  refine ⟨_, heq, ⟨hwf.setIo (cacheWrite_keeps _ _ _ _), rfl, hbusy, Function.update_self .., ?_,
    rfl, fun _ => ⟨(cacheWrite_keeps _ _ _ _).hard.fsize, ?_⟩, ?_⟩⟩
  · intro w hw
    exact Function.update_of_ne (by rintro rfl; exact hbusy hw) ..
  · have := List.length_pos_of_mem hv
    show (s.idle.erase v).length + 1 = s.idle.length
    rw [List.length_erase_of_mem hv]
    omega
  · refine step_write h h₁ h₂ _ (by rw [zeroCluster, List.length_replicate]; omega) rfl rfl ?_ ?_
      ?_ ?_
    · intro w hw
      rcases List.mem_append.mp hw with hw | hw
      · have hne : w ≠ v := by
          rintro rfl
          exact hbusy hw
        exact .inl ⟨hne, hw, Function.update_of_ne hne ..⟩
      · refine .inr ⟨List.mem_singleton.mp hw, fun b hb _ => ?_⟩
        rw [hclear b hb, ofBytes_zeroCluster (by rw [sizeofCluster]; omega)]
        exact (Function.update_self v Cluster.zero s.cluster).symm
    · intro w hw
      obtain ⟨hne, hw⟩ := h.nodup.of_append_left.mem_erase_iff.mp hw
      exact .inl ⟨hne, hw⟩
    · intro w hne b
      exact if_neg hne
    · intro b hb
      rw [hclear b hb, if_pos rfl, zeroCluster, List.drop_replicate]

theorem Extended.acquired {s₁ s' : Vol} (h : Extended s s₁) (hnil : s.idle = [])
    (ha : Acquired s₁ s' v) : Acquired s s' v where
  wf := ha.wf
  busy := by rw [ha.busy, h.busy]
  notMem := h.busy ▸ ha.notMem
  cluster_self := ha.cluster_self
  cluster := fun w hw => by rw [ha.cluster w (h.busy ▸ hw), h.cluster w hw]
  maxDataSegSize := ha.maxDataSegSize.trans h.maxDataSegSize
  spare := fun hne => absurd hnil hne
  step := by
    have := h.step.trans ha.step
    rw [h.step.size] at this
    exact this

/-- Taking a view where one is idle: the file does not grow. -/
theorem acquireIdle_of_idle (h : s.Wf) (hne : s.idle ≠ []) :
    ∃ v s', viewAcquireIdle s = (some v, s') ∧ Acquired s s' v := by
  have htotal := h.total
  have hcount : ¬s.countOfIdleViews ≤ 0 := by
    have := List.length_pos_iff.mpr hne
    rw [h.countIdle]
    omega
  obtain ⟨v, idle, hidle⟩ := List.exists_cons_of_ne_nil hne
  obtain ⟨s', hclear, hacq⟩ := acquired_clearCluster h (hidle ▸ List.mem_cons_self : v ∈ s.idle)
  refine ⟨v, s', ?_, hacq⟩
  rw [viewAcquireIdle, if_neg (by omega), show expandRounds = 2 ^ 27 - 1 + 1 by decide,
    expandWhileEmpty, if_neg hcount]
  simp only [if_true, hidle]
  exact hclear

/-- **Taking a view**: there is none only where the file cannot grow. -/
theorem acquireIdle_spec (h : s.Wf) :
    (∃ v s', viewAcquireIdle s = (some v, s') ∧ Acquired s s' v) ∨
      (viewAcquireIdle s = (none, s) ∧ s.idle = [] ∧ 2 ^ 31 ≤ s.fsize) := by
  by_cases hnil : s.idle = []
  · have htotal := h.total
    rw [viewAcquireIdle, if_neg (by omega)]
    rcases expandWhileEmpty_spec h with ⟨s₁, heq, hext, hne⟩ | ⟨heq, hge⟩
    · obtain ⟨v, idle, hidle⟩ := List.exists_cons_of_ne_nil hne
      obtain ⟨s', hclear, hacq⟩ := acquired_clearCluster hext.wf
        (hidle ▸ List.mem_cons_self : v ∈ _)
      refine .inl ⟨v, s', ?_, hext.acquired hnil hacq⟩
      simp only [heq, if_true, hidle]
      exact hclear
    · refine .inr ⟨?_, hnil, hge⟩
      simp only [heq, Bool.false_eq_true, if_false]
  · exact .inl (acquireIdle_of_idle h hnil)

end Evfs

end LibNax
