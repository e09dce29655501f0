import LibNax.Evfs.Reload

/-!
# Closing and opening

What a caller sees behind `evfs_close` and `evfs_open` is what it saw before: the same entries with
the same keys, sizes and bytes, and as many idle and busy clusters.

* `Twin` — two managers over the same clusters.
* `Twin.readElement`, `Twin.seekRead`, `Twin.readBytes` — they read the same bytes.
* `SameContent` — the same to a caller.
* `Restores` — the file can be opened again, and holds the same.
* `reopen_restores` — after whole runs.
-/

set_option autoImplicit false

namespace LibNax

namespace Evfs

open Lib (Run int32)

/-! ## Two managers over the same clusters -/

/-- Two managers over the same clusters, and views that are in use and have the same headers in
both. -/
structure Twin (u : List (List UInt8)) (views : List Int) (s t : Fs) : Prop where
  wf_left : s.vol.Wf
  wf_right : t.vol.Wf
  mirror_left : Mirror s.vol u
  mirror_right : Mirror t.vol u
  busy_left : ∀ v ∈ views, v ∈ s.vol.busy
  busy_right : ∀ v ∈ views, v ∈ t.vol.busy
  cluster : ∀ v ∈ views, t.vol.cluster v = s.vol.cluster v
  size : t.vol.io.cache.hard.clusterSize = s.vol.io.cache.hard.clusterSize
  maxDataSegSize : t.maxDataSegSize = s.maxDataSegSize

/-- Two reads that return the same. -/
structure SameRead (u : List (List UInt8)) (views : List Int) (r q : Int × List UInt8 × Fs) :
    Prop where
  count : q.1 = r.1
  bytes : q.2.1 = r.2.1
  twin : Twin u views r.2.2 q.2.2

namespace Twin

variable {u : List (List UInt8)} {views : List Int} {s t : Fs} {v : Int}

theorem segSize (h : Twin u views s t) (hv : v ∈ views) :
    viewGetDataSegSize t.vol v = viewGetDataSegSize s.vol v := by
  rw [viewGetDataSegSize, h.cluster v hv, viewGetDataSegSize]

theorem usable (h : Twin u views s t) (hv : v ∈ views) {offset length : Int}
    (hu : s.vol.Usable v offset length) : t.vol.Usable v offset length := by
  refine ⟨hu.nonneg, hu.pos, ?_, ?_⟩
  · rw [Vol.Unused, h.cluster v hv]
    exact hu.used
  · rw [h.size]
    exact hu.fits

theorem symm (h : Twin u views s t) : Twin u views t s :=
  ⟨h.wf_right, h.wf_left, h.mirror_right, h.mirror_left, h.busy_right, h.busy_left,
    fun v hv => (h.cluster v hv).symm, h.size.symm, h.maxDataSegSize.symm⟩

/-- What a read of a cluster does to the managers does not matter. -/
theorem setIo (h : Twin u views s t) {io io' : Io} (hk : s.vol.io.Keeps io)
    (hk' : t.vol.io.Keeps io') (m : Mirror { s.vol with io } u)
    (m' : Mirror { t.vol with io := io' } u) :
    Twin u views (s.setVol { s.vol with io }) (t.setVol { t.vol with io := io' }) :=
  ⟨h.wf_left.setIo hk, h.wf_right.setIo hk', m, m', h.busy_left, h.busy_right, h.cluster,
    hk'.hard.clusterSize.trans (h.size.trans hk.hard.clusterSize.symm), h.maxDataSegSize⟩

theorem readUserdata (h : Twin u views s t) (hv : v ∈ views) (offset length : Int) :
    (viewReadUserdata t.vol v offset length).1 = (viewReadUserdata s.vol v offset length).1 ∧
    (viewReadUserdata t.vol v offset length).2.1 = (viewReadUserdata s.vol v offset length).2.1 ∧
    Twin u views (s.setVol (viewReadUserdata s.vol v offset length).2.2)
      (t.setVol (viewReadUserdata t.vol v offset length).2.2) := by
  by_cases hu : s.vol.Usable v offset length
  · obtain ⟨io, heq, hk⟩ := readUserdata_keeps s.vol v offset length
    obtain ⟨io', heq', hk'⟩ := readUserdata_keeps t.vol v offset length
    obtain ⟨io₁, hr, m⟩ := h.mirror_left.readUserdata h.wf_left (h.busy_left v hv) hu
    obtain ⟨io₂, hr', m'⟩ := h.mirror_right.readUserdata h.wf_right (h.busy_right v hv)
        (h.usable hv hu)
    rw [hr] at heq
    rw [hr'] at heq'
    have h₁ : io₁ = io := congrArg Vol.io heq
    have h₂ : io₂ = io' := congrArg Vol.io heq'
    subst h₁ h₂
    rw [hr, hr']
    exact ⟨rfl, by rw [h.size], h.setIo hk hk' m m'⟩
  · have hu' : ¬t.vol.Usable v offset length := fun hc => hu (h.symm.usable hv hc)
    rw [viewReadUserdata_of_not hu, viewReadUserdata_of_not hu']
    exact ⟨rfl, rfl, h⟩

/-- The walk over the elements. -/
theorem readElement (l : List Int) : ∀ {s t : Fs}, Twin u views s t → (∀ v ∈ l, v ∈ views) →
    ∀ elemOffset remain : Int, SameRead u views (Evfs.readElement s l elemOffset remain)
      (Evfs.readElement t l elemOffset remain) := by
  induction l with
  | nil =>
    intro s t h _ elemOffset remain
    exact ⟨rfl, rfl, h⟩
  | cons v l ih =>
    intro s t h hl elemOffset remain
    have hv := hl v List.mem_cons_self
    rw [Evfs.readElement, Evfs.readElement]
    simp only [h.segSize hv, h.maxDataSegSize]
    split
    · exact ⟨rfl, rfl, h⟩
    obtain ⟨hcount, hbytes, htwin⟩ := h.readUserdata hv elemOffset
      (min remain (viewGetDataSegSize s.vol v - elemOffset))
    rw [hcount, hbytes]
    split
    · exact ⟨rfl, rfl, htwin⟩
    obtain ⟨hcount', hbytes', htwin'⟩ := ih htwin (fun w hw => hl w (List.mem_cons_of_mem _ hw)) 0
      (remain - (viewReadUserdata s.vol v elemOffset
        (min remain (viewGetDataSegSize s.vol v - elemOffset))).1)
    exact ⟨by rw [hcount'], by rw [hbytes'], htwin'⟩

theorem seekRead (h : Twin u views s t) (l : List Int) : (∀ v ∈ l, v ∈ views) → ∀ inner : Int,
    Evfs.seekRead t l inner = Evfs.seekRead s l inner := by
  induction l with
  | nil =>
    intro _ inner
    rfl
  | cons v l ih =>
    intro hl inner
    rw [Evfs.seekRead, Evfs.seekRead, h.maxDataSegSize, h.segSize (hl v List.mem_cons_self)]
    simp only [ih fun w hw => hl w (List.mem_cons_of_mem _ hw)]

theorem mem_of_mem_seekRead {l : List Int} : ∀ {inner : Int}, v ∈ (Evfs.seekRead s l inner).1 →
    v ∈ l := by
  induction l with
  | nil =>
    intro inner hv
    exact hv
  | cons w l ih =>
    intro inner hv
    rw [Evfs.seekRead] at hv
    split at hv
    · exact List.mem_cons_of_mem _ (ih hv)
    · exact hv

/-- The part of `evfs_entries_read_data` between the references. -/
theorem readBytes {e : Int} (h : Twin u (e :: (s.heads e).elements) s t)
    (helems : (t.heads e).elements = (s.heads e).elements) (cpoff size : Int) :
    SameRead u (e :: (s.heads e).elements) (Evfs.readBytes s e cpoff size)
      (Evfs.readBytes t e cpoff size) := by
  have hl : ∀ v ∈ (s.heads e).elements, v ∈ e :: (s.heads e).elements := fun v hv =>
    List.mem_cons_of_mem _ hv
  rw [Evfs.readBytes, Evfs.readBytes]
  simp only [h.segSize List.mem_cons_self, h.maxDataSegSize, helems]
  split
  · exact ⟨rfl, rfl, h⟩
  split
  · obtain ⟨hcount, hbytes, htwin⟩ := h.readUserdata List.mem_cons_self cpoff
      (min (int32 (s.maxDataSegSize - cpoff))
        (min (int32 (viewGetDataSegSize s.vol e - cpoff)) size))
    rw [hcount, hbytes]
    split
    · exact ⟨rfl, rfl, htwin⟩
    obtain ⟨hcount', hbytes', htwin'⟩ := htwin.readElement _ hl 0
      (min (int32 (viewGetDataSegSize s.vol e - cpoff)) size -
        (viewReadUserdata s.vol e cpoff (min (int32 (s.maxDataSegSize - cpoff))
          (min (int32 (viewGetDataSegSize s.vol e - cpoff)) size))).1)
    exact ⟨by rw [hcount'], by rw [hbytes'], htwin'⟩
  · rw [h.seekRead _ hl]
    exact h.readElement _ (fun v hv => hl v (mem_of_mem_seekRead hv)) _ _

theorem setHead (h : Twin u views s t) (e e' : Int) (head head' : Head) :
    Twin u views (s.setHead e head) (t.setHead e' head') :=
  ⟨h.wf_left, h.wf_right, h.mirror_left, h.mirror_right, h.busy_left, h.busy_right,
  h.cluster, h.size,
    h.maxDataSegSize⟩

end Twin

/-! ## What a caller sees -/

section Caller

variable {s s₁ t : Fs} {u : List (List UInt8)} {e : Int}

/-- A read changes the cache at most. -/
theorem readElement_heads (l : List Int) : ∀ (s : Fs) (elemOffset remain : Int),
    (readElement s l elemOffset remain).2.2.heads = s.heads := by
  induction l with
  | nil =>
    intro s elemOffset remain
    rfl
  | cons v l ih =>
    intro s elemOffset remain
    rw [readElement]
    simp only
    split
    · rfl
    split
    · rfl
    · exact ih _ _ _

theorem readBytes_heads (s : Fs) (e cpoff size : Int) :
    (readBytes s e cpoff size).2.2.heads = s.heads := by
  rw [readBytes]
  simp only
  split
  · rfl
  split
  · split
    · rfl
    · exact readElement_heads _ _ _ _
  · exact readElement_heads _ _ _ _

theorem Space.dereference (h : Space s []) (he : e ∈ s.entries)
    (hhead : s₁.heads e = (s.heads e).bump 1) : ∃ s', dereferenceHead s₁ e .normal = some s' := by
  have hok := h.entry e he
  have h₁ := hok.refcnt
  have h₂ := hok.ioRefcnt
  refine ⟨_, dereferenceHead_normal ?_ ?_ ?_⟩
  · rw [hhead]
    exact hok.state
  · rw [hhead]
    show 0 < (s.heads e).refcnt + 1
    omega
  · rw [hhead]
    show 0 < (s.heads e).ioRefcnt + 1
    omega

/-- The same to a caller: the entries, their keys, sizes and bytes, and the numbers of clusters. -/
structure SameContent (s t : Fs) : Prop where
  entries : ∀ e, e ∈ t.entries ↔ e ∈ s.entries
  key : ∀ e, ∃ n bytes s' t',
    queryKey s e = some (n, bytes, s') ∧ queryKey t e = some (n, bytes, t')
  userSegSize : ∀ e, ∃ n s' t',
    queryUserSegSize s e = some (n, s') ∧ queryUserSegSize t e = some (n, t')
  data : ∀ e offset size, ∃ n bytes s' t',
    readData s e offset size = some (n, bytes, s') ∧ readData t e offset size = some (n, bytes, t')
  idle : t.vol.countOfIdleViews = s.vol.countOfIdleViews
  busy : t.vol.countOfBusyViews = s.vol.countOfBusyViews

namespace Reloaded

theorem twin (r : Reloaded s u t) (h : Space s []) (m : Mirror s.vol u) (he : e ∈ s.entries) :
    Twin u (s.chain e) s t := by
  have hchain : t.chain e = s.chain e := by rw [Fs.chain, r.elements e he, Fs.chain]
  refine ⟨h.vol, r.space.vol, m, r.mirror, fun v hv => h.mem_busy he hv, fun v hv => ?_,
    r.cluster e he, r.size, ?_⟩
  · exact r.space.mem_busy ((r.entries e).mpr he) (hchain ▸ hv)
  · rw [r.space.maxDataSegSize, h.maxDataSegSize, r.size]

theorem key_eq (r : Reloaded s u t) (h : Space s []) (hroom : s.RoomFor e) : ∃ n bytes s' t',
    queryKey s e = some (n, bytes, s') ∧ queryKey t e = some (n, bytes, t') := by
  rw [queryKey, queryKey, referenceHead_normal h hroom, referenceHead_normal r.space (r.room e)]
  by_cases he : e ∈ s.entries
  · obtain ⟨s', hs'⟩ := h.dereference he (setHead_heads_self s e _)
    obtain ⟨t', ht'⟩ := r.space.dereference ((r.entries e).mpr he) (setHead_heads_self t e _)
    rw [if_pos he, if_pos ((r.entries e).mpr he)]
    have hkey : ((t.heads e).bump 1).key = ((s.heads e).bump 1).key := r.key e he
    have hend : 0 ∈ ((s.heads e).bump 1).key := (h.entry e he).key
    simp only [hs', ht', setHead_heads_self, hkey, if_neg (not_not_intro hend)]
    exact ⟨_, _, _, _, rfl, rfl⟩
  · rw [if_neg he, if_neg fun hc => he ((r.entries e).mp hc)]
    exact ⟨_, _, _, _, rfl, rfl⟩

theorem userSegSize_eq (r : Reloaded s u t) (h : Space s []) (m : Mirror s.vol u)
    (hroom : s.RoomFor e) : ∃ n s' t',
    queryUserSegSize s e = some (n, s') ∧ queryUserSegSize t e = some (n, t') := by
  rw [queryUserSegSize, queryUserSegSize, referenceHead_normal h hroom,
    referenceHead_normal r.space (r.room e)]
  by_cases he : e ∈ s.entries
  · obtain ⟨s', hs'⟩ := h.dereference he (setHead_heads_self s e _)
    obtain ⟨t', ht'⟩ := r.space.dereference ((r.entries e).mpr he) (setHead_heads_self t e _)
    have hsize := ((r.twin h m he).setHead e e ((s.heads e).bump 1) ((t.heads e).bump 1)).segSize
      List.mem_cons_self
    rw [if_pos he, if_pos ((r.entries e).mpr he)]
    simp only [hs', ht', hsize]
    exact ⟨_, _, _, rfl, rfl⟩
  · rw [if_neg he, if_neg fun hc => he ((r.entries e).mp hc)]
    exact ⟨_, _, _, rfl, rfl⟩

theorem data_eq (r : Reloaded s u t) (h : Space s []) (m : Mirror s.vol u) (hroom : s.RoomFor e)
    (offset size : Int) : ∃ n bytes s' t', readData s e offset size = some (n, bytes, s') ∧
      readData t e offset size = some (n, bytes, t') := by
  rw [readData, readData, referenceHead_normal h hroom, referenceHead_normal r.space (r.room e)]
  split
  · exact ⟨_, _, _, _, rfl, rfl⟩
  by_cases he : e ∈ s.entries
  · rw [if_pos he, if_pos ((r.entries e).mpr he)]
    simp only
    have htwin : Twin u (e :: ((s.setHead e ((s.heads e).bump 1)).heads e).elements)
        (s.setHead e ((s.heads e).bump 1)) (t.setHead e ((t.heads e).bump 1)) := by
      rw [setHead_heads_self]
      exact (r.twin h m he).setHead e e _ _
    have hsame := htwin.readBytes
      (by rw [setHead_heads_self, setHead_heads_self]; exact r.elements e he)
      (int32 (maxEntryNameLength + offset)) size
    obtain ⟨s', hs'⟩ := h.dereference he
      ((congrFun (readBytes_heads (s.setHead e ((s.heads e).bump 1)) e
        (int32 (maxEntryNameLength + offset)) size) e).trans (setHead_heads_self s e _))
    obtain ⟨t', ht'⟩ := r.space.dereference ((r.entries e).mpr he)
      ((congrFun (readBytes_heads (t.setHead e ((t.heads e).bump 1)) e
        (int32 (maxEntryNameLength + offset)) size) e).trans (setHead_heads_self t e _))
    rw [hs', ht', hsame.count, hsame.bytes]
    exact ⟨_, _, _, _, rfl, rfl⟩
  · rw [if_neg he, if_neg fun hc => he ((r.entries e).mp hc)]
    exact ⟨_, _, _, _, rfl, rfl⟩

theorem sameContent (r : Reloaded s u t) (h : Space s []) (m : Mirror s.vol u)
    (hroom : ∀ e, s.RoomFor e) : SameContent s t :=
  ⟨r.entries, fun e => r.key_eq h (hroom e), fun e => r.userSegSize_eq h m (hroom e),
    fun e => r.data_eq h m (hroom e), r.idle, r.busy⟩

end Reloaded

end Caller

/-! ## Whole runs -/

/-- A call that fits and spares the keys. -/
def SparingCalls (s : Fs) (c : Call) (s' : Fs) : Prop := FitCalls s c s' ∧ c.SparesKey

/-- The file of the managers can be opened again, and then holds the same to a caller; and what was
done is defined. -/
def Restores (garbage : Garbage) (s : Fs) (cacheBlockNum : Nat) : Prop :=
  s.Defined ∧ ∃ t,
    evfsOpen garbage (evfsClose s).2 (evfsClose s).1 cacheBlockNum [] [] [] = some (0, t) ∧
      SameContent s t ∧ t.Defined

variable {garbage garbage' : Garbage} {clusterSize clusterCount status : Int} {s₀ s : Fs}
  {cacheBlockNum : Nat}

/-- A new file system. -/
theorem stored_of_evfsCreate (hcount : 2 ≤ clusterCount)
    (hfit : clusterSize * clusterCount < 2 ^ 31)
    (hcreate : evfsCreate garbage Fs.init clusterSize clusterCount cacheBlockNum [] [] [] =
      some (status, s₀)) (hstatus : nspSuccess status = true) :
    Stored s₀ ∧ s₀.vol.io.cache.hard.clusterSize = clusterSize.toNat ∧ s₀.vol.fsize < 2 ^ 30 := by
  obtain ⟨fresh, hcs, hcc, hspace⟩ := fresh_of_evfsCreate hfit hcreate hstatus
  have hle := fresh.formatted.size_le
  have hfsize := fresh.formatted.geometry.fsize_eq
  refine ⟨⟨(hspace.resolve_right fun hdead => ?_).2, hle, ?_, fun e he => ?_, fresh.steady,
    fun _ => ⟨_, fresh.mirror, fun e he => ?_⟩⟩, hcs, fresh.formatted.fsize_lt⟩
  · have := hdead.count
    rw [Vol.clusterCount, hcc] at this
    omega
  · rw [Vol.fsize, hfsize, hcc]
    nlinarith
  · rw [fresh.entries] at he
    cases he
  · rw [fresh.entries] at he
    cases he

/-- Closing and opening a file system in order. -/
theorem Stored.restores (h : Stored s)
    (hsize : sizeofCluster + sizeofHrd ≤ s.vol.io.cache.hard.clusterSize)
    (hle : s.vol.fsize ≤ 2 ^ 30) (hroom : ∀ e, s.RoomFor e) (garbage : Garbage)
    (cacheBlockNum : Nat) : Restores garbage s cacheBlockNum := by
  obtain ⟨u, k⟩ := h.disk (Nat.le_trans (by decide) hsize)
  obtain ⟨hfile, hcleared⟩ := close_spec h k.mirror
  obtain ⟨t, hopen, hr, hstored, -⟩ := evfsOpen_reloaded h k hsize hle hcleared garbage cacheBlockNum
  refine ⟨h.steady.defined, t, ?_, hr.sameContent h.space k.mirror hroom, hstored.steady.defined⟩
  rw [hfile]
  exact hopen

/-- **Closing and opening** restores everything, after any calls that find the clusters they take
among the idle ones and spare the keys, if every entry can be referenced once more. -/
theorem reopen_restores (hsize : 128 ≤ clusterSize) (hcount : 2 ≤ clusterCount)
    (hfit : clusterSize * clusterCount < 2 ^ 30)
    (hcreate : evfsCreate garbage Fs.init clusterSize clusterCount cacheBlockNum [] [] [] =
      some (status, s₀)) (hstatus : nspSuccess status = true)
    {calls : List Call} (hrun : Run SparingCalls s₀ calls s) (hroom : ∀ e, s.RoomFor e)
    (cacheBlockNum' : Nat) : Restores garbage' s cacheBlockNum' := by
  obtain ⟨hstart, hcs, hlt⟩ := stored_of_evfsCreate hcount (by omega) hcreate hstatus
  obtain ⟨h, hsame, hfsize⟩ := hrun.invariant
    (P := fun s => Stored s ∧ SameSize s₀ s ∧ s.vol.fsize = s₀.vol.fsize)
    (fun s c s' ⟨hi, hs, hf⟩ hc => by
      have hcarried := hi.space.call hi.steady hc.1
      obtain ⟨hi', hs'⟩ := hi.call hc.1 hc.2
      exact ⟨hi', hs'.trans hs, hcarried.fsize.trans hf⟩) ⟨hstart, rfl, rfl⟩
  refine h.restores ?_ (by omega) hroom garbage' cacheBlockNum'
  rw [hsame, hcs, sizeofCluster, sizeofHrd]
  omega

theorem sparingCalls_of_tryFit (s : Fs) (c : Call) (s' : Fs)
    (h : (if c.SparesKey then c.tryFit s else none) = some s') : SparingCalls s c s' := by
  split at h
  · exact ⟨fitCalls_of_tryFit s c s' h, ‹_›⟩
  · cases h

/-- Two entries, of which one is deleted and the other one has two clusters. -/
theorem reopen_restores_second : ∃ s₀ s,
    evfsCreate ⟨fun _ => [], fun _ => .zero, .zero, fun _ => none⟩ Fs.init 128 4 1 [] [] [] =
      some (0, s₀) ∧
    Run SparingCalls s₀ [.createOne (some [65]), .createOne (some [66]),
      .writeData 2 (List.replicate 100 7) 0 100, .closeOne 1, .hardDelete 1] s ∧ s.entries = [2] ∧
    Restores ⟨fun _ => [], fun _ => .zero, .zero, fun _ => none⟩ s 4 := by
  have hrun : ((evfsCreate ⟨fun _ => [], fun _ => .zero, .zero, fun _ => none⟩ Fs.init
      128 4 1 [] [] []
      ).bind fun r => (Lib.exec (fun s (c : Call) => if c.SparesKey then c.tryFit s else none) r.2
        [.createOne (some [65]), .createOne (some [66]), .writeData 2 (List.replicate 100 7) 0 100,
          .closeOne 1, .hardDelete 1]).map fun s =>
            (r.1, s.entries, decide (s.RoomFor 2))) = some (0, [2], true) := by
    decide +kernel
  obtain ⟨⟨status, s₀⟩, hcreate, hrun⟩ := Option.bind_eq_some_iff.mp hrun
  obtain ⟨s, hexec, heq⟩ := Option.map_eq_some_iff.mp hrun
  simp only [Prod.mk.injEq, decide_eq_true_eq] at heq
  obtain ⟨rfl, hentries, hroom⟩ := heq
  have hcalls := Run.of_exec sparingCalls_of_tryFit hexec
  refine ⟨s₀, s, hcreate, hcalls, hentries,
    reopen_restores (by decide) (by decide) (by decide) hcreate rfl hcalls (fun e he => ?_) 4⟩
  obtain rfl : e = 2 := by simpa [hentries] using he
  exact hroom he

/-- A write that makes the file larger: the numbers of the new clusters were read from memory that
had been freed. -/
theorem reopen_not_restored : ∃ s₀ s,
    evfsCreate ⟨fun _ => [], fun _ => .zero, .zero, fun _ => none⟩ Fs.init 128 2 1 [] [] [] =
      some (0, s₀) ∧
    Run Calls s₀ [.createOne (some [65]), .writeData 1 (List.replicate 100 7) 0 100] s ∧
      ¬Restores ⟨fun _ => [], fun _ => .zero, .zero, fun _ => none⟩ s 1 := by
  have hrun : ((evfsCreate ⟨fun _ => [], fun _ => .zero, .zero, fun _ => none⟩ Fs.init
      128 2 1 [] [] []
      ).bind fun r => (Lib.exec Call.tryExec r.2 [.createOne (some [65]),
        .writeData 1 (List.replicate 100 7) 0 100]).map fun s => (r.1, s.vol.io.fault)) =
      some (0, true) := by
    decide +kernel
  obtain ⟨⟨status, s₀⟩, hcreate, hrun⟩ := Option.bind_eq_some_iff.mp hrun
  obtain ⟨s, hexec, heq⟩ := Option.map_eq_some_iff.mp hrun
  obtain ⟨rfl, hfault⟩ := Prod.mk.inj heq
  refine ⟨s₀, s, hcreate, Run.of_exec calls_of_tryExec hexec, fun h => ?_⟩
  rw [h.1.1] at hfault
  cases hfault

end Evfs

end LibNax
