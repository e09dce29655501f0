import LibNax.Evfs.Geometry

/-!
# Views and their clusters

The headers in memory are a copy of the ones on the disk.  What a function of the view layer does is
said in two parts: how the lists of the views change, which holds whatever the disk does, and what
becomes of the clusters, as long as no cluster lies past the reach of an `int`.

* `Vol.Wf` — the two lists hold every view once, and are counted.
* `Mirror s u` — the disk holds the clusters `u`, and their headers are the ones in memory.
* `Step s s' g` — a call that keeps the mirror and changes the data of the cluster `v` by `g v`.
* `wf_putCluster`, `wf_moveToIdle`, `acquireIdle_spec` and the theorems after them — the functions
  of the source in these terms.
-/

set_option autoImplicit false

namespace LibNax

namespace Evfs

open Lib (slice overwrite)

/-! ## The lists -/

theorem orders_viewCompare : Avl.Orders viewCompare (id : Int → Int) where
  neg_iff := fun x y => by
    show viewCompare x y < 0 ↔ x < y
    rw [viewCompare]
    split
    · omega
    · split
      · omega
      · omega
  zero_iff := fun x y => by
    show viewCompare x y = 0 ↔ x = y
    rw [viewCompare]
    split
    · omega
    · split
      · omega
      · omega

/-- The numbers of the views of a file with `n` clusters. -/
def viewIds (n : Int) : List Int := (List.range (n - 1).toNat).map fun i : Nat => (i : Int) + 1

theorem mem_viewIds {n v : Int} : v ∈ viewIds n ↔ 1 ≤ v ∧ v < n := by
  rw [viewIds, List.mem_map]
  constructor
  · rintro ⟨i, hi, rfl⟩
    rw [List.mem_range] at hi
    omega
  · rintro ⟨h₁, h₂⟩
    refine ⟨(v - 1).toNat, ?_, by omega⟩
    rw [List.mem_range]
    omega

theorem nodup_viewIds (n : Int) : (viewIds n).Nodup :=
  List.Nodup.map (fun i j h => by simpa using h) List.nodup_range

/-- The numbers of `k` views from `i` on. -/
def nextIds (i : Int) (k : Nat) : List Int := (List.range k).map fun j : Nat => i + (j : Int)

theorem viewIds_add {n : Int} (hn : 0 < n) (k : Nat) :
    viewIds (n + k) = viewIds n ++ nextIds n k := by
  have hsum : (n + k - 1).toNat = (n - 1).toNat + k := by omega
  rw [viewIds, hsum, List.range_add, List.map_append, List.map_map]
  congr 1
  refine List.map_congr_left fun j _ => ?_
  show (((n - 1).toNat + j : Nat) : Int) + 1 = n + j
  omega

theorem nextIds_succ (i : Int) (k : Nat) : nextIds i (k + 1) = i :: nextIds (i + 1) k := by
  rw [nextIds, List.range_succ_eq_map, List.map_cons, List.map_map]
  congr 1
  · exact Int.add_zero i
  · refine List.map_congr_left fun j _ => ?_
    show i + ((j + 1 : Nat) : Int) = i + 1 + j
    omega

theorem mem_nextIds {i v : Int} {k : Nat} : v ∈ nextIds i k ↔ i ≤ v ∧ v < i + k := by
  rw [nextIds, List.mem_map]
  constructor
  · rintro ⟨j, hj, rfl⟩
    rw [List.mem_range] at hj
    omega
  · rintro ⟨h₁, h₂⟩
    refine ⟨(v - i).toNat, ?_, by omega⟩
    rw [List.mem_range]
    omega

/-- The size of the file. -/
def Vol.fsize (s : Vol) : Int := s.io.cache.hard.fsize

/-- The number of the clusters. -/
def Vol.clusterCount (s : Vol) : Int := s.io.cache.hard.clusterCount

/-- The view layer in use: every view is in one of the two lists, and they are counted. -/
structure Vol.Wf (s : Vol) : Prop where
  /-- No allocation fails. -/
  allocFaults : s.io.allocFaults = []
  /-- No write fails. -/
  writeFaults : s.io.cache.hard.writeFaults = []
  geometry : Geometry s.io.cache.hard
  total : 0 < s.totalClusterCount
  clusterSize : s.clusterSize = s.io.cache.hard.clusterSize
  perm : (s.idle ++ s.busy).Perm (viewIds s.clusterCount)
  countIdle : s.countOfIdleViews = s.idle.length
  countBusy : s.countOfBusyViews = s.busy.length
  /-- The index is a search tree. -/
  tree : Avl.Wf (id : Int → Int) s.rootOfViewTree
  /-- The index holds every view. -/
  mem_tree : ∀ v, v ∈ Avl.toList s.rootOfViewTree ↔ v ∈ s.idle ∨ v ∈ s.busy

namespace Vol

variable {s : Vol} {v : Int}

theorem Wf.nodup (h : s.Wf) : (s.idle ++ s.busy).Nodup :=
  h.perm.nodup_iff.mpr (nodup_viewIds _)

theorem Wf.mem_iff (h : s.Wf) : v ∈ s.idle ∨ v ∈ s.busy ↔ 1 ≤ v ∧ v < s.clusterCount := by
  rw [← List.mem_append, h.perm.mem_iff, mem_viewIds]

theorem Wf.mem_busy (h : s.Wf) (hv : v ∈ s.busy) : 1 ≤ v ∧ v < s.clusterCount :=
  h.mem_iff.mp (.inr hv)

theorem Wf.busy_notMem_idle (h : s.Wf) (hv : v ∈ s.busy) : v ∉ s.idle := fun hi =>
  (List.disjoint_of_nodup_append h.nodup) hi hv

theorem Wf.nodup_busy (h : s.Wf) : s.busy.Nodup := h.nodup.of_append_right

/-- The views are untouched where only the layer below changes. -/
theorem Wf.setIo (h : s.Wf) {io : Io} (hk : s.io.Keeps io) : ({ s with io } : Vol).Wf where
  allocFaults := hk.allocFaults h.allocFaults
  writeFaults := hk.hard.writeFaults h.writeFaults
  geometry := h.geometry.keeps hk.hard
  total := h.total
  clusterSize := h.clusterSize.trans (by rw [hk.hard.clusterSize])
  perm := by
    show (s.idle ++ s.busy).Perm (viewIds io.cache.hard.clusterCount)
    rw [hk.hard.clusterCount]
    exact h.perm
  countIdle := h.countIdle
  countBusy := h.countBusy
  tree := h.tree
  mem_tree := h.mem_tree

theorem Wf.setCluster (h : s.Wf) (v : Int) (cluster : Cluster) : (s.setCluster v cluster).Wf :=
  ⟨h.allocFaults, h.writeFaults, h.geometry, h.total, h.clusterSize, h.perm, h.countIdle,
    h.countBusy, h.tree, h.mem_tree⟩

theorem Wf.alloc_eq (h : s.Wf) : s.alloc = (true, s) := by
  rw [Vol.alloc, Io.alloc_of_nil h.allocFaults]

end Vol

/-! ## Clusters -/

/-- The header of a cluster on the disk. -/
def hdr (u : List (List UInt8)) (v : Int) : Cluster := Cluster.ofBytes (u.getD v.toNat [])

/-- The data of a cluster; a cluster that is not there yet is one of zeros. -/
def udata (clusterSize : Nat) (u : List (List UInt8)) (v : Int) : List UInt8 :=
  (u.getD v.toNat (zeroCluster clusterSize)).drop sizeofCluster

theorem unle32_take (l : List UInt8) {n : Nat} (hn : 4 ≤ n) :
    Lib.unle32 (l.take n) = Lib.unle32 l := by
  obtain ⟨m, rfl⟩ := Nat.exists_eq_add_of_le' hn
  match l with
  | [] => rfl
  | [_] => rfl
  | [_, _] => rfl
  | [_, _, _] => rfl
  | _ :: _ :: _ :: _ :: _ => rfl

/-- The header is in the first bytes. -/
theorem ofBytes_take (l : List UInt8) {n : Nat} (hn : sizeofCluster ≤ n) :
    Cluster.ofBytes (l.take n) = Cluster.ofBytes l := by
  rw [sizeofCluster] at hn
  rw [Cluster.ofBytes, Cluster.ofBytes, List.drop_take, List.drop_take, unle32_take l (by omega),
    unle32_take _ (by omega), unle32_take _ (by omega)]

theorem inInt32_unle32 (l : List UInt8) : Lib.InInt32 (Lib.unle32 l) := by
  match l with
  | [] => exact (by decide : Lib.InInt32 0)
  | [_] => exact (by decide : Lib.InInt32 0)
  | [_, _] => exact (by decide : Lib.InInt32 0)
  | [_, _, _] => exact (by decide : Lib.InInt32 0)
  | _ :: _ :: _ :: _ :: _ => exact Lib.inInt32_int32 _

theorem wf_ofBytes (l : List UInt8) : (Cluster.ofBytes l).Wf :=
  ⟨inInt32_unle32 _, inInt32_unle32 _, inInt32_unle32 _⟩

section Disk

variable {u : List (List UInt8)} {v w : Int}

theorem getD_set_self {i : Nat} (hi : i < u.length) (b d : List UInt8) :
    (u.set i b).getD i d = b := by
  rw [List.getD_eq_getElem?_getD, List.getElem?_set_self hi, Option.getD_some]

theorem getD_set_ne {i j : Nat} (h : i ≠ j) (b d : List UInt8) :
    (u.set i b).getD j d = u.getD j d := by
  rw [List.getD_eq_getElem?_getD, List.getElem?_set_ne h, ← List.getD_eq_getElem?_getD]

theorem hdr_set_ne (hv : 1 ≤ v) (hw : 1 ≤ w) (h : w ≠ v) (b : List UInt8) :
    hdr (u.set v.toNat b) w = hdr u w := by
  rw [hdr, getD_set_ne (by omega), hdr]

theorem udata_set_ne {clusterSize : Nat} (hv : 1 ≤ v) (hw : 1 ≤ w) (h : w ≠ v) (b : List UInt8) :
    udata clusterSize (u.set v.toNat b) w = udata clusterSize u w := by
  rw [udata, getD_set_ne (by omega), udata]

theorem hdr_set_self (hv : v.toNat < u.length) (b : List UInt8) :
    hdr (u.set v.toNat b) v = Cluster.ofBytes b := by
  rw [hdr, getD_set_self hv]

theorem udata_set_self {clusterSize : Nat} (hv : v.toNat < u.length) (b : List UInt8) :
    udata clusterSize (u.set v.toNat b) v = b.drop sizeofCluster := by
  rw [udata, getD_set_self hv]

theorem udata_eq {clusterSize : Nat} (hv : v.toNat < u.length) :
    udata clusterSize u v = (u.getD v.toNat []).drop sizeofCluster := by
  simp only [udata, List.getD_eq_getElem?_getD, List.getElem?_eq_getElem hv, Option.getD_some]

/-- A header written at the start of a cluster. -/
theorem ofBytes_overwrite {c : Cluster} (hc : c.Wf) (b : List UInt8) :
    Cluster.ofBytes (overwrite b 0 c.bytes) = c := by
  rw [overwrite, List.take_zero, List.nil_append]
  exact Cluster.ofBytes_bytes hc _

theorem drop_overwrite_bytes (c : Cluster) (b : List UInt8) :
    (overwrite b 0 c.bytes).drop sizeofCluster = b.drop sizeofCluster := by
  rw [overwrite, List.take_zero, List.nil_append, List.drop_left' c.length_bytes, Nat.zero_add,
    c.length_bytes]

/-- Data written behind the header leaves the header alone. -/
theorem ofBytes_overwrite_data {b : List UInt8} (hb : sizeofCluster ≤ b.length) (off : Nat)
    (data : List UInt8) :
    Cluster.ofBytes (overwrite b (off + sizeofCluster) data) = Cluster.ofBytes b := by
  rw [← ofBytes_take (overwrite b (off + sizeofCluster) data) (Nat.le_refl _),
    ← ofBytes_take b (Nat.le_refl _), overwrite, List.append_assoc, List.take_append_of_le_length,
    List.take_take, Nat.min_eq_left (Nat.le_add_left _ _)]
  rw [List.length_take]
  omega

theorem drop_overwrite_data (b : List UInt8) (hb : sizeofCluster ≤ b.length) (off : Nat)
    (data : List UInt8) :
    (overwrite b (off + sizeofCluster) data).drop sizeofCluster =
      overwrite (b.drop sizeofCluster) off data := by
  rw [overwrite, overwrite, List.append_assoc, List.append_assoc,
    List.drop_append_of_le_length (by rw [List.length_take]; omega), List.drop_take, List.drop_drop,
    Nat.add_sub_cancel, show sizeofCluster + (off + data.length) = off + sizeofCluster +
    data.length by
      omega]

end Disk

/-! ## Memory and disk -/

/-- The disk holds the clusters `u`: the headers of the busy views are the ones in memory, those of
the idle ones are zero, and the geometry is the one of the manager. -/
structure Mirror (s : Vol) (u : List (List UInt8)) : Prop where
  sim : Sim s.io.cache [] u
  length : (u.length : Int) = s.clusterCount
  busy : ∀ v ∈ s.busy, hdr u v = s.cluster v
  idle : ∀ v ∈ s.idle, hdr u v = .zero
  /-- The first cluster holds the geometry. -/
  first : u[0]? = some (firstCluster s.io.cache.hard.clusterSize s.io.cache.hard.clusterCount
    s.io.cache.hard.expandClusterCount)

/-- The mirror is kept, and the data of the cluster `v` changes by `g v`, as long as the offset of
every cluster is an `int`.  A task that was freed is read only where the file grows. -/
structure Step (s s' : Vol) (g : Int → List UInt8 → List UInt8) : Prop where
  size : s'.io.cache.hard.clusterSize = s.io.cache.hard.clusterSize
  maxDataSegSize : s'.maxDataSegSize = s.maxDataSegSize
  grows : s.fsize ≤ s'.fsize
  fault : s'.fsize = s.fsize → s'.io.fault = s.io.fault
  mirror : ∀ u, Mirror s u → s'.fsize ≤ 2 ^ 31 → ∃ u', Mirror s' u' ∧ ∀ v, 1 ≤ v →
    udata s.io.cache.hard.clusterSize u' v = g v (udata s.io.cache.hard.clusterSize u v)

/-- No data changes. -/
def unchanged : Int → List UInt8 → List UInt8 := fun _ b => b

section Steps

variable {s s' s'' : Vol} {u : List (List UInt8)} {v : Int}

theorem Step.refl (s : Vol) : Step s s unchanged :=
  ⟨rfl, rfl, Int.le_refl _, fun _ => rfl, fun u m _ => ⟨u, m, fun _ _ => rfl⟩⟩

theorem Step.trans {g g' : Int → List UInt8 → List UInt8} (h : Step s s' g) (h' : Step s' s'' g') :
    Step s s'' fun v b => g' v (g v b) where
  size := h'.size.trans h.size
  maxDataSegSize := h'.maxDataSegSize.trans h.maxDataSegSize
  grows := Int.le_trans h.grows h'.grows
  fault := fun heq => by
    have h₁ := h.grows
    have h₂ := h'.grows
    exact (h'.fault (by omega)).trans (h.fault (by omega))
  mirror := fun u m hf => by
    obtain ⟨u', m', hu'⟩ := h.mirror u m (Int.le_trans h'.grows hf)
    obtain ⟨u'', m'', hu''⟩ := h'.mirror u' m' hf
    refine ⟨u'', m'', fun v hv => ?_⟩
    have := hu'' v hv
    rw [h.size] at this
    rw [this, hu' v hv]

theorem Mirror.toNat_lt (m : Mirror s u) (hv : 1 ≤ v) (hv' : v < s.clusterCount) :
    v.toNat < u.length := by
  have := m.length
  omega

theorem Mirror.length_getD (m : Mirror s u) (hv : 1 ≤ v) (hv' : v < s.clusterCount) :
    (u.getD v.toNat []).length = s.io.cache.hard.clusterSize := by
  have hlt := m.toNat_lt hv hv'
  rw [List.getD_eq_getElem?_getD, List.getElem?_eq_getElem hlt, Option.getD_some]
  exact m.sim.sizes _ (List.getElem_mem hlt)

theorem Mirror.length_udata (m : Mirror s u) (hv : 1 ≤ v) (hv' : v < s.clusterCount) :
    (udata s.io.cache.hard.clusterSize u v).length =
      s.io.cache.hard.clusterSize - sizeofCluster := by
  rw [udata_eq (m.toNat_lt hv hv'), List.length_drop, m.length_getD hv hv']

/-- A write that stays inside of its cluster. -/
theorem Sim.cacheWrite {io : Io} (h : Sim io.cache [] u) (ha : io.allocFaults = []) (hv : 1 ≤ v)
    (hv' : v < u.length) (off : Nat) {input : List UInt8}
    (hfit : off + input.length ≤ io.cache.hard.clusterSize) :
    statusOf (cacheWrite io v input off).1 = 0 ∧ Sim (cacheWrite io v input off).2.cache []
      (u.set v.toNat (overwrite (u.getD v.toNat []) off input)) := by
  have hlegal : (Task.write v input off).Legal io.cache.hard.clusterSize u.length :=
    ⟨hv, hv', hfit⟩
  have hexec := h.execTask h.sizes hlegal
  rw [Evfs.cacheWrite, if_neg (by rw [Io.clusterSize]; omega), Io.submit, Io.alloc_of_nil ha]
  simp only [if_true, Int.toNat_natCast]
  exact ⟨by rw [hexec.1]; rfl, hexec.2⟩

/-- A read of data that stays inside of its cluster. -/
theorem Sim.cacheReadUserdata {io : Io} (h : Sim io.cache [] u) (ha : io.allocFaults = [])
    (hv : 1 ≤ v) (hv' : v < u.length) {offset length : Int} (hoff : 0 ≤ offset) (hlen : 0 ≤ length)
    (hfit : offset + length ≤ io.cache.hard.clusterSize - sizeofCluster) :
    ∃ io', cacheReadUserdata io v offset length =
        (.ok (slice (udata io.cache.hard.clusterSize u v) offset.toNat length.toNat), io') ∧
      Sim io'.cache [] u := by
  have hlt : v.toNat < u.length := by omega
  have hlegal : (Task.read v (offset + sizeofCluster).toNat length.toNat).Legal
      io.cache.hard.clusterSize u.length := ⟨hv, hv', by omega⟩
  have hexec := h.execTask h.sizes hlegal
  refine ⟨⟨(io.cache.execTask (.read v (offset + sizeofCluster).toNat length.toNat)).2,
    io.allocFaults, io.fault⟩, ?_, hexec.2⟩
  rw [Evfs.cacheReadUserdata, if_neg (by rw [Io.clusterSize]; omega), cacheRead,
    if_neg (by rw [Io.clusterSize]; omega), Io.submit, Io.alloc_of_nil ha]
  simp only [if_true, hexec.1, uncachedTask, slice, udata_eq hlt, List.drop_drop]
  rw [show sizeofCluster + offset.toNat = (offset + sizeofCluster).toNat by omega]

theorem Mirror.cacheWrite (m : Mirror s u) (ha : s.io.allocFaults = []) (hv : 1 ≤ v)
    (hv' : v < s.clusterCount) (off : Nat) {input : List UInt8}
    (hfit : off + input.length ≤ s.io.cache.hard.clusterSize) :
    statusOf (cacheWrite s.io v input off).1 = 0 ∧
      Sim (cacheWrite s.io v input off).2.cache []
        (u.set v.toNat (overwrite (u.getD v.toNat []) off input)) :=
  m.sim.cacheWrite ha hv (by rw [m.length]; exact hv') off hfit

/-- What a write leaves in the lists and in memory has to fit what it leaves on the disk. -/
theorem step_write {g : Int → List UInt8 → List UInt8} (h : s.Wf) (hv : 1 ≤ v)
    (hv' : v < s.clusterCount) (off : Nat) {input : List UInt8}
    (hfit : off + input.length ≤ s.io.cache.hard.clusterSize)
    (hio : s'.io = (cacheWrite s.io v input off).2) (hmax : s'.maxDataSegSize = s.maxDataSegSize)
    (hbusy : ∀ w ∈ s'.busy, (w ≠ v ∧ w ∈ s.busy ∧ s'.cluster w = s.cluster w) ∨
      (w = v ∧ ∀ b : List UInt8, b.length = s.io.cache.hard.clusterSize →
        (v ∈ s.busy → Cluster.ofBytes b = s.cluster v) →
          Cluster.ofBytes (overwrite b off input) = s'.cluster v))
    (hidle : ∀ w ∈ s'.idle, (w ≠ v ∧ w ∈ s.idle) ∨
      (w = v ∧ ∀ b : List UInt8, Cluster.ofBytes (overwrite b off input) = .zero))
    (hg : ∀ w, w ≠ v → ∀ b, g w b = b)
    (hgv : ∀ b : List UInt8, b.length = s.io.cache.hard.clusterSize →
      (overwrite b off input).drop sizeofCluster = g v (b.drop sizeofCluster)) :
    Step s s' g := by
  have hkeeps := cacheWrite_keeps s.io v input off
  rw [← hio] at hkeeps
  have hk := hkeeps.hard
  refine ⟨hk.clusterSize, hmax, Int.le_of_eq hk.fsize.symm, fun _ => hkeeps.fault, fun u m _ => ?_⟩
  have hlt := m.toNat_lt hv hv'
  have hlen := m.length_getD hv hv'
  have hsim := (m.cacheWrite h.allocFaults hv hv' off hfit).2
  rw [← hio] at hsim
  refine ⟨_, ⟨hsim, ?_, fun w hw => ?_, fun w hw => ?_, ?_⟩, fun w hw => ?_⟩
  · rw [List.length_set, m.length]
    exact hk.clusterCount.symm
  · rcases hbusy w hw with ⟨hne, hmem, heq⟩ | ⟨rfl, heq⟩
    · rw [hdr_set_ne hv (h.mem_busy hmem).1 hne, m.busy w hmem, heq]
    · rw [hdr_set_self hlt, heq _ hlen fun hmem => m.busy w hmem]
  · rcases hidle w hw with ⟨hne, hmem⟩ | ⟨rfl, heq⟩
    · rw [hdr_set_ne hv (h.mem_iff.mp (.inl hmem)).1 hne, m.idle w hmem]
    · rw [hdr_set_self hlt, heq]
  · rw [List.getElem?_set_ne (by omega), m.first, hk.clusterSize, hk.clusterCount,
      hk.expandClusterCount]
  · by_cases hne : w = v
    · subst hne
      rw [udata_set_self hlt, hgv _ hlen, udata_eq hlt]
    · rw [udata_set_ne hv hw hne, hg w hne]

end Steps

end Evfs

end LibNax
