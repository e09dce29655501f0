import LibNax.Evfs.Space

/-!
# The calls, and what they do to the space

Each call of `entries.c` keeps the invariant `Space`.  The calls are taken one after the other, with
any outcome of the disk; an allocation does not fail.

`Space s hand` says where every view is: it is idle, or it is in the chain of exactly one entry, or
it is in the list `hand`.  Between two calls the hand is empty.  Inside of a call it holds the view
that was taken from the idle ones and is not an element yet, so that the functions of the view layer,
which know nothing of entries, can be put together with those that link the view to its head.
Nothing is ever proved again about the other entries: their chains are apart from the view in hand
(`Space.owned`), and so a change of a header of one cluster cannot be one of theirs.

A write is three loops over elements and a change of the length, and they go through the same two
steps: they take a new element, or they change the size or the data of an element that is there.
Both are instances of one relation, `Grows`.  It is reflexive and transitive, and it says all that a
loop has to hand on: the entry has the old elements in front of the new ones, the other heads are as
they were, no element uses more than a cluster has, and the disk has made a step.  So the inductions
over the loops (`writeElement_grows`, `seekElement_grows`) never look into a round; they chain what
the rounds do.  `Grows` takes a parameter `K`, the assumption under which the step leaves the stored
keys alone: a write from an offset of -32 to -1 goes over the key of its own entry, and everything
else that a write does is the same for it.

Whether the file has to grow is kept apart from all that.  `Grows.spare` counts: as long as no more
elements are added than views were idle, the file has its old size, and the sum of the elements and
of the idle views stays.  How many a write will ask for can be told
beforehand (`LibNax.Evfs.Demand`).

A reference is a number in the head.  It is an `int`, and so taking one asks that it is not the last
one (`Head.Room`).  The bodies of the calls leave the numbers alone, so that giving the reference
back finds the head as it was (`Grows.unreference`).  Only an entry to be deleted is different: with
its last reference its elements go back one after the other, each to the idle views with a clear
header, and at last the head does (`freeHead_spec`).

* `Appended`, `allocIdle_one` — an entry gets one more element.
* `Grows` — what a write does to an entry: elements are added, and the keys stay; its chain gets
  longer, and what it had is in front.
* `createNew_spec`, `writeData_spec`, `hardDelete_spec`, `openOne_eq`, `closeOne_eq` — the calls.
-/

set_option autoImplicit false

namespace LibNax

namespace Evfs

open Lib (int32)

variable {s s' s'' : Fs} {e v : Int}

/-! ## A new element -/

/-- The view `v` was taken, cleared, and linked behind the last element of `e`. -/
structure Appended (s s' : Fs) (e v : Int) : Prop where
  space : Space s' []
  entries : s'.entries = s.entries
  maxDataSegSize : s'.maxDataSegSize = s.maxDataSegSize
  fault : s'.fault = s.fault
  heads : s'.heads = Function.update s.heads e { s.heads e with
    elements := (s.heads e).elements ++ [v]
    countOfElements := (s.heads e).countOfElements + 1 }
  busy : s'.vol.busy = s.vol.busy ++ [v]
  /-- Where a view was idle the file has not grown. -/
  spare : s.vol.idle ≠ [] →
    s'.vol.fsize = s.vol.fsize ∧ s'.vol.idle.length + 1 = s.vol.idle.length
  notMem : v ∉ s.vol.busy
  size_self : (s'.vol.cluster v).dataSegSize = 0
  size : ∀ w ∈ s.vol.busy, (s'.vol.cluster w).dataSegSize = (s.vol.cluster w).dataSegSize
  step : Step s.vol s'.vol fun w b =>
    if w = v then List.replicate (s.vol.io.cache.hard.clusterSize - sizeofCluster) 0 else b

namespace Appended

theorem elements (h : Appended s s' e v) :
    (s'.heads e).elements = (s.heads e).elements ++ [v] := by
  rw [h.heads, Function.update_self]

theorem length_elements (h : Appended s s' e v) :
    (s'.heads e).elements.length = (s.heads e).elements.length + 1 := by
  rw [h.elements, List.length_append, List.length_singleton]

/-- The new element is the last one. -/
theorem getElem?_elements (h : Appended s s' e v) :
    (s'.heads e).elements[(s.heads e).elements.length]? = some v := by
  rw [h.elements, List.getElem?_append_right (Nat.le_refl _), Nat.sub_self]
  rfl

end Appended

/-- Writing headers changes nothing in memory. -/
theorem writeHeads_spec (views : List Int) : ∀ (vol : Vol) (status : Int), vol.Wf →
    (∀ v ∈ views, v ∈ vol.busy) → 0 ≤ status →
      0 ≤ (writeHeads views status vol).1 ∧ (writeHeads views status vol).2.Wf ∧
        (∃ io, vol.io.Keeps io ∧ (writeHeads views status vol).2 = { vol with io }) ∧
        Step vol (writeHeads views status vol).2 unchanged := by
  induction views with
  | nil => exact fun vol status h _ hs => ⟨hs, h, ⟨_, .refl _, rfl⟩, .refl _⟩
  | cons v views ih =>
    intro vol status h hbusy hs
    have hok := viewWriteHead_success vol v
    have hwf := wf_writeHead h v
    have hstep := step_writeHead h (hbusy v List.mem_cons_self)
    obtain ⟨h₁, h₂, ⟨io, hk, h₃⟩, h₄⟩ := ih (vol.writeHead v) (viewWriteHead vol v).1 hwf
      (fun w hw => hbusy w (List.mem_cons_of_mem _ hw)) (by simpa [nspSuccess] using hok)
    rw [writeHeads]
    simp only [hok, if_true]
    rw [viewWriteHead_snd h]
    exact ⟨h₁, h₂, ⟨io, (vol.writeHead_keeps v).trans hk, h₃⟩, hstep.trans h₄⟩

theorem writeChain_spec (h : Space s []) (he : e ∈ s.entries) (coverHead : Bool) :
    0 ≤ (writeChain s e coverHead).1 ∧ (writeChain s e coverHead).2.vol.Wf ∧
      (∃ io, s.vol.io.Keeps io ∧ (writeChain s e coverHead).2 = s.setVol { s.vol with io }) ∧
      Step s.vol (writeChain s e coverHead).2.vol unchanged := by
  obtain ⟨h₁, h₂, ⟨io, hk, h₃⟩, h₄⟩ := writeHeads_spec (s.heads e).elements s.vol 0 h.vol
    (fun v hv => h.mem_busy he (List.mem_cons_of_mem _ hv)) (Int.le_refl 0)
  rw [writeChain]
  split
  · have hok := viewWriteHead_success (writeHeads (s.heads e).elements 0 s.vol).2 e
    have hbusy : e ∈ (writeHeads (s.heads e).elements 0 s.vol).2.busy := by
      rw [h₃]
      exact h.mem_busy he List.mem_cons_self
    have hstep := h₄.trans (step_writeHead h₂ hbusy)
    refine ⟨by simpa [nspSuccess] using hok, ?_, ?_, ?_⟩
    · show (viewWriteHead _ e).2.Wf
      rw [viewWriteHead_snd h₂]
      exact wf_writeHead h₂ e
    · refine ⟨(viewWriteHead (writeHeads (s.heads e).elements 0 s.vol).2 e).2.io, ?_, ?_⟩
      · rw [viewWriteHead_snd h₂, h₃]
        exact hk.trans (({ s.vol with io } : Vol).writeHead_keeps e)
      · show s.setVol (viewWriteHead _ e).2 = _
        rw [viewWriteHead_snd h₂, h₃]
        rfl
    · show Step s.vol (viewWriteHead _ e).2 unchanged
      rw [viewWriteHead_snd h₂]
      exact hstep
  · refine ⟨h₁, h₂, ⟨io, hk, ?_⟩, h₄⟩
    show s.setVol (writeHeads _ _ _).2 = _
    rw [h₃]

/-- The number of a view is an `int`. -/
theorem inInt32_of_busy {vol : Vol} (h : vol.Wf) (hv : v ∈ vol.busy) : Lib.InInt32 v := by
  obtain ⟨h₁, h₂⟩ := h.mem_busy hv
  have := h.geometry.count_lt
  rw [Vol.clusterCount] at h₂
  exact ⟨by omega, by omega⟩

theorem fs_alloc_eq (h : s.vol.Wf) : s.alloc = (true, s) := by
  rw [Fs.alloc, h.alloc_eq]
  rfl

/-- The chain of an entry after a view was linked to its end. -/
theorem appended_linkViews (h : Space s []) (he : e ∈ s.entries) {vol : Vol}
    (ha : Acquired s.vol vol v) :
    ∃ s', linkViews [v] ((s.heads e).elements.getLastD e) (s.setVol vol) e = (true, s') ∧
      Appended s s' e v := by
  have hspace := h.acquired ha
  have hvol : (s.setVol vol).vol = vol := rfl
  have hbusy : ∀ w ∈ s.vol.busy, w ∈ vol.busy := fun w hw => by
    rw [ha.busy]
    exact List.mem_append_left _ hw
  have hvbusy : v ∈ vol.busy := by
    rw [ha.busy]
    exact List.mem_append_right _ (List.mem_singleton_self v)
  have hlast : (s.heads e).elements.getLastD e ∈ s.vol.busy :=
    h.mem_busy he (getLastD_mem_cons _ _)
  have hne : (s.heads e).elements.getLastD e ≠ v := fun heq => ha.notMem (heq ▸ hlast)
  -- the two headers that change
  have hwf₁ := wf_putCluster ha.wf v { vol.cluster v with headClusterId := e }
  have hstep₁ := step_putCluster ha.wf hvbusy (c := { vol.cluster v with headClusterId := e })
    fun hc => ⟨hc.1, hc.2, inInt32_of_busy h.vol (h.mem_busy he List.mem_cons_self)⟩
  generalize hv₁ : (vol.putCluster v { vol.cluster v with headClusterId := e }).2 =
    vol₁ at hwf₁ hstep₁
  have hbusy₁ : vol₁.busy = vol.busy := by rw [← hv₁, putCluster_busy]
  have hcluster₁ : vol₁.cluster = Function.update vol.cluster v ⟨0, 0, e⟩ := by
    rw [← hv₁, putCluster_cluster, ha.cluster_self]
    rfl
  generalize hl : (s.heads e).elements.getLastD e = last at hlast hne
  have hlast₁ : vol₁.cluster last = s.vol.cluster last := by
    rw [hcluster₁, Function.update_of_ne hne, ha.cluster last hlast]
  have hwf₂ := wf_putCluster hwf₁ last { vol₁.cluster last with nextClusterId := v }
  have hstep₂ := step_putCluster hwf₁ (hbusy₁ ▸ hbusy last hlast)
    (c := { vol₁.cluster last with nextClusterId := v })
    fun hc => ⟨hc.1, inInt32_of_busy ha.wf hvbusy, hc.3⟩
  have heq : linkViews [v] last (s.setVol vol) e = (true, (s.setHead e { s.heads e with
      elements := (s.heads e).elements ++ [v]
      countOfElements := (s.heads e).countOfElements + 1 }).setVol
        (vol₁.putCluster last { vol₁.cluster last with nextClusterId := v }).2) := by
    have halloc : allocElement (s.setVol vol) v e = (true, (s.setHead e { s.heads e with
        elements := (s.heads e).elements ++ [v]
        countOfElements := (s.heads e).countOfElements + 1 }).setVol vol₁) := by
      rw [allocElement, fs_alloc_eq (s := s.setVol vol) ha.wf]
      simp only [if_true]
      rw [← hv₁]
      rfl
    rw [linkViews, halloc]
    simp only [if_true, linkViews]
    rfl
  generalize hv₂ : (vol₁.putCluster last { vol₁.cluster last with nextClusterId := v }).2 = vol₂
    at hwf₂ hstep₂ heq
  have hbusy₂ : vol₂.busy = vol.busy := by rw [← hv₂, putCluster_busy, hbusy₁]
  have hcluster₂ : vol₂.cluster = Function.update (Function.update vol.cluster v ⟨0, 0, e⟩) last
      { s.vol.cluster last with nextClusterId := v } := by
    rw [← hv₂, putCluster_cluster, hlast₁, hcluster₁]
  have hv' : vol₂.cluster v = ⟨0, 0, e⟩ := by
    rw [hcluster₂, Function.update_of_ne hne.symm, Function.update_self]
  have hlast' : vol₂.cluster last = { s.vol.cluster last with nextClusterId := v } := by
    rw [hcluster₂, Function.update_self]
  have hrest : ∀ w ∈ s.vol.busy, w ≠ last → vol₂.cluster w = s.vol.cluster w := by
    intro w hw hwl
    have hwv : w ≠ v := fun heq => ha.notMem (heq ▸ hw)
    rw [hcluster₂, Function.update_of_ne hwl, Function.update_of_ne hwv, ha.cluster w hw]
  have hstep := (ha.step.trans hstep₁).trans hstep₂
  have hsize : vol₂.io.cache.hard.clusterSize = vol.io.cache.hard.clusterSize :=
    hstep₂.size.trans hstep₁.size
  have hfsize₂ : vol₂.fsize = vol.fsize := by
    rw [← hv₂, putCluster_fsize, ← hv₁, putCluster_fsize]
  have hidle₂ : vol₂.idle = vol.idle := by
    rw [← hv₂, putCluster_idle, ← hv₁, putCluster_idle]
  refine ⟨_, heq, ?_, rfl, rfl, rfl, rfl, hbusy₂.trans ha.busy, fun hne => ?_, ha.notMem, ?_,
    fun w hw => ?_, hstep⟩
  · refine hspace.append he hwf₂ hbusy₂ hsize hv' ?_ ?_ ?_
    · show (vol₂.cluster ((s.heads e).elements.getLastD e)).nextClusterId = v
      rw [hl, hlast']
    · intro w hw hwv hwl
      rw [show (s.setVol vol).heads = s.heads from rfl, hl] at hwl
      have hw' : w ∈ s.vol.busy := by
        have : w ∈ s.vol.busy ++ [v] := ha.busy ▸ hw
        exact (List.mem_append.mp this).resolve_right fun h => hwv (List.mem_singleton.mp h)
      rw [hrest w hw' hwl, hvol, ha.cluster w hw']
    · intro w hw hwv
      have hw' : w ∈ s.vol.busy := by
        have : w ∈ s.vol.busy ++ [v] := ha.busy ▸ hw
        exact (List.mem_append.mp this).resolve_right fun h => hwv (List.mem_singleton.mp h)
      rw [hvol, ha.cluster w hw']
      by_cases hwl : w = last
      · rw [hwl, hlast']
        exact ⟨rfl, rfl⟩
      · rw [hrest w hw' hwl]
        exact ⟨rfl, rfl⟩
  · obtain ⟨hfsize, hidle⟩ := ha.spare hne
    refine ⟨hfsize₂.trans hfsize, ?_⟩
    show vol₂.idle.length + 1 = s.vol.idle.length
    rw [hidle₂, hidle]
  · show (vol₂.cluster v).dataSegSize = 0
    rw [hv']
  · show (vol₂.cluster w).dataSegSize = _
    by_cases hwl : w = last
    · rw [hwl, hlast']
    · rw [hrest w hw hwl]

theorem Appended.setIo (h : Appended s s' e v) {io : Io} (hk : s'.vol.io.Keeps io)
    (hwf : ({ s'.vol with io } : Vol).Wf)
    (hstep : Step s'.vol { s'.vol with io } unchanged) :
    Appended s (s'.setVol { s'.vol with io }) e v :=
  { h with
    space := h.space.setVol hwf rfl hstep.size fun _ _ _ => .refl _
    spare := fun hne => ⟨hk.hard.fsize.trans (h.spare hne).1, (h.spare hne).2⟩
    step := h.step.trans hstep }

/-- An entry gets one more element, or the file cannot grow. -/
theorem allocIdle_one (h : Space s []) (he : e ∈ s.entries) :
    (∃ v, nspSuccess (allocIdleElementsForHead s e 1).1 = true ∧
      Appended s (allocIdleElementsForHead s e 1).2 e v) ∨
    (allocIdleElementsForHead s e 1 = (eNomem, s) ∧ s.vol.idle = [] ∧ 2 ^ 31 ≤ s.vol.fsize) := by
  have htotal := h.vol.total
  rw [allocIdleElementsForHead, if_neg (by decide), fs_alloc_eq h.vol]
  simp only [if_true]
  rcases acquireIdle_spec h.vol with ⟨v, vol, hacq, ha⟩ | ⟨hacq, hnil, hge⟩
  · have hmore : viewAcquireIdleMore 1 s.vol = (.ok [v], vol) := by
      rw [viewAcquireIdleMore, if_neg (by omega), acquireViews]
      simp only [hacq, acquireViews, List.length_singleton, lt_irrefl, if_false]
    obtain ⟨s₁, hlink, happ⟩ := appended_linkViews h he ha
    obtain ⟨hstatus, hwf, ⟨io, hk, heq⟩, hstep⟩ := writeChain_spec happ.space (happ.entries ▸ he)
      (s.heads e).elements.isEmpty
    refine .inl ⟨v, ?_⟩
    simp only [hmore, hlink, if_true]
    refine ⟨by simpa [nspSuccess] using hstatus, ?_⟩
    rw [heq] at hwf hstep ⊢
    exact happ.setIo hk hwf hstep
  · refine .inr ⟨?_, hnil, hge⟩
    have hmore : viewAcquireIdleMore 1 s.vol = (.error eNomem, s.vol) := by
      rw [viewAcquireIdleMore, if_neg (by omega), acquireViews]
      simp only [hacq, List.length_nil, Nat.lt_add_one, if_true, List.foldl_nil]
    simp only [hmore]
    rfl

/-! ## Growing entries -/

/-- The key at the start of every head stays. -/
def KeepsKeys (s : Fs) (g : Int → List UInt8 → List UInt8) : Prop :=
  ∀ w ∈ s.entries, ∀ b : List UInt8, b.length = s.vol.io.cache.hard.clusterSize - sizeofCluster →
    (g w b).length = b.length ∧ (g w b).take maxEntryNameLength = b.take maxEntryNameLength

/-- No element of the entry `e` has more bytes in use than fit in a cluster. -/
def Fs.Sized (s : Fs) (e : Int) : Prop :=
  ∀ w ∈ (s.heads e).elements, (s.vol.cluster w).dataSegSize ≤ s.maxDataSegSize

/-- Elements were added to the entry `e` and clusters of it were written; under the condition `K`
the keys have stayed. -/
structure Grows (K : Prop) (s s' : Fs) (e : Int) : Prop where
  space : Space s' []
  entries : s'.entries = s.entries
  maxDataSegSize : s'.maxDataSegSize = s.maxDataSegSize
  fault : s'.fault = s.fault
  heads : ∃ l n, (s.heads e).elements <+: l ∧ s'.heads =
    Function.update s.heads e { s.heads e with elements := l, countOfElements := n }
  sized : s.Sized e → s'.Sized e
  /-- Where there were as many idle views as elements were added the file has not grown. -/
  spare : (s'.heads e).elements.length ≤ (s.heads e).elements.length + s.vol.idle.length →
    s'.vol.fsize = s.vol.fsize ∧ (s'.heads e).elements.length + s'.vol.idle.length =
      (s.heads e).elements.length + s.vol.idle.length
  step : ∃ g, Step s.vol s'.vol g ∧ (K → KeepsKeys s g)

variable {K : Prop}

theorem keepsKeys_unchanged (s : Fs) : KeepsKeys s unchanged := fun _ _ _ _ => ⟨rfl, rfl⟩

theorem Grows.refl (h : Space s []) (e : Int) : Grows K s s e where
  space := h
  entries := rfl
  maxDataSegSize := rfl
  fault := rfl
  heads := ⟨(s.heads e).elements, (s.heads e).countOfElements, List.prefix_rfl,
    (Function.update_eq_self e _).symm⟩
  sized := id
  spare := fun _ => ⟨rfl, rfl⟩
  step := ⟨unchanged, .refl _, fun _ => keepsKeys_unchanged s⟩

theorem Grows.elements (h : Grows K s s' e) : (s.heads e).elements <+: (s'.heads e).elements := by
  obtain ⟨l, n, hl, heq⟩ := h.heads
  rw [heq, Function.update_self]
  exact hl

theorem Grows.trans (h : Grows K s s' e) (h' : Grows K s' s'' e) : Grows K s s'' e where
  space := h'.space
  entries := h'.entries.trans h.entries
  maxDataSegSize := h'.maxDataSegSize.trans h.maxDataSegSize
  fault := h'.fault.trans h.fault
  heads := by
    obtain ⟨l, n, hl, heq⟩ := h.heads
    obtain ⟨l', n', hl', heq'⟩ := h'.heads
    rw [heq, Function.update_self] at hl' heq'
    refine ⟨l', n', hl.trans hl', ?_⟩
    rw [heq', Function.update_idem]
  sized := fun hs => h'.sized (h.sized hs)
  spare := fun hle => by
    obtain ⟨hfsize, hsum⟩ := h.spare (Nat.le_trans h'.elements.length_le hle)
    obtain ⟨hfsize', hsum'⟩ := h'.spare (hsum.symm ▸ hle)
    exact ⟨hfsize'.trans hfsize, hsum'.trans hsum⟩
  step := by
    obtain ⟨g, hstep, hkeys⟩ := h.step
    obtain ⟨g', hstep', hkeys'⟩ := h'.step
    refine ⟨_, hstep.trans hstep', fun hK w hw b hb => ?_⟩
    obtain ⟨hlen, htake⟩ := hkeys hK w hw b hb
    have hb' : (g w b).length = s'.vol.io.cache.hard.clusterSize - sizeofCluster := by
      rw [hlen, hb, hstep.size]
    obtain ⟨hlen', htake'⟩ := hkeys' hK w (h.entries ▸ hw) (g w b) hb'
    exact ⟨hlen'.trans hlen, htake'.trans htake⟩

/-- A call of the view layer on the clusters of entries. -/
theorem Grows.of_setVol (h : Space s []) {vol : Vol} (hwf : vol.Wf) (hbusy : vol.busy = s.vol.busy)
    (hidle : vol.idle = s.vol.idle) (hfsize : vol.fsize = s.vol.fsize)
    (hlike : ∀ v ∈ s.vol.busy, (s.vol.cluster v).Like (vol.cluster v))
    {g : Int → List UInt8 → List UInt8} (hstep : Step s.vol vol g) (hkeys : K → KeepsKeys s g)
    (hsized : s.Sized e → (s.setVol vol).Sized e) : Grows K s (s.setVol vol) e where
  space := h.setVol hwf hbusy hstep.size fun v hv _ => hlike v hv
  entries := rfl
  maxDataSegSize := rfl
  fault := rfl
  heads := ⟨(s.heads e).elements, (s.heads e).countOfElements, List.prefix_rfl,
    (Function.update_eq_self e _).symm⟩
  sized := hsized
  spare := fun _ => ⟨hfsize, by rw [show (s.setVol vol).vol.idle = _ from hidle]; rfl⟩
  step := ⟨g, hstep, hkeys⟩

theorem Appended.grows (h : Appended s s' e v) (hs : Space s []) (he : e ∈ s.entries) :
    Grows K s s' e where
  space := h.space
  entries := h.entries
  maxDataSegSize := h.maxDataSegSize
  fault := h.fault
  heads := ⟨_, _, List.prefix_append _ _, h.heads⟩
  sized := fun hsized w hw => by
    rw [h.heads, Function.update_self, List.mem_append, List.mem_singleton] at hw
    rw [h.maxDataSegSize]
    rcases hw with hw | rfl
    · rw [h.size w (hs.mem_busy he (List.mem_cons_of_mem _ hw))]
      exact hsized w hw
    · have := hs.vol.geometry.size_le
      rw [h.size_self, hs.maxDataSegSize, sizeofCluster]
      omega
  spare := fun hle => by
    rw [h.length_elements] at hle ⊢
    obtain ⟨hfsize, hidle⟩ := h.spare fun hnil => by
      rw [hnil, List.length_nil] at hle
      omega
    exact ⟨hfsize, by omega⟩
  step := by
    refine ⟨_, h.step, fun _ w hw b hb => ?_⟩
    have hne : w ≠ v := by
      rintro rfl
      exact h.notMem (hs.mem_busy hw List.mem_cons_self)
    simp only [if_neg hne, and_self]

theorem putDataSegSize_size (vol : Vol) (v size w : Int) :
    ((vol.putDataSegSize v size).2.cluster w).dataSegSize =
      if w = v then size else (vol.cluster w).dataSegSize := by
  rw [Vol.putDataSegSize]
  split
  · rw [putCluster_cluster]
    by_cases hwv : w = v
    · rw [hwv, Function.update_self, if_pos rfl]
    · rw [Function.update_of_ne hwv, if_neg hwv]
  · rename_i hsame
    by_cases hwv : w = v
    · rw [hwv, if_pos rfl, not_not.mp hsame]
    · rw [if_neg hwv]

theorem putDataSegSize_fsize (vol : Vol) (v size : Int) :
    (vol.putDataSegSize v size).2.fsize = vol.fsize := by
  rw [Vol.putDataSegSize]
  split
  · exact ((vol.setCluster v _).writeHead_keeps v).hard.fsize
  · rfl

theorem putDataSegSize_busy (vol : Vol) (v size : Int) :
    (vol.putDataSegSize v size).2.busy = vol.busy := by
  rw [Vol.putDataSegSize]
  split
  · rfl
  · rfl

theorem putDataSegSize_idle (vol : Vol) (v size : Int) :
    (vol.putDataSegSize v size).2.idle = vol.idle := by
  rw [Vol.putDataSegSize]
  split
  · rfl
  · rfl

/-- The size in a header changes, and is still one of a head, or of an element. -/
theorem grows_putDataSegSize (h : Space s []) (hv : v ∈ s.vol.busy) {size : Int}
    (hneg : size < 0 ↔ (s.vol.cluster v).dataSegSize < 0) (hint : Lib.InInt32 size)
    (hmax : size ≤ s.maxDataSegSize) (e : Int) :
    Grows K s (s.setVol (s.vol.putDataSegSize v size).2) e := by
  have hsized : s.Sized e → (s.setVol (s.vol.putDataSegSize v size).2).Sized e := by
    intro hs w hw
    show ((s.vol.putDataSegSize v size).2.cluster w).dataSegSize ≤ s.maxDataSegSize
    rw [putDataSegSize_size]
    split
    · exact hmax
    · exact hs w hw
  rw [Vol.putDataSegSize] at hsized ⊢
  split
  · rename_i hne
    rw [if_pos hne] at hsized
    refine .of_setVol h (wf_putCluster h.vol _ _) rfl rfl (putCluster_fsize ..) ?_
      (step_putCluster h.vol hv (c := { s.vol.cluster v with dataSegSize := size })
        fun hc => ⟨hint, hc.2, hc.3⟩) (fun _ => keepsKeys_unchanged s) hsized
    intro w _
    rw [putCluster_cluster]
    by_cases hne : w = v
    · subst hne
      rw [Function.update_self]
      exact ⟨rfl, rfl, hneg, fun _ => hint.1⟩
    · rw [Function.update_of_ne hne]
      exact .refl _
  · exact .refl h e

/-- Data is written, not over a key. -/
theorem grows_writeUserdata (h : Space s []) (hv : v ∈ s.vol.busy) (buffer : List UInt8)
    (offset : Int) (hkey : K → v ∈ s.entries → 0 ≤ offset → (maxEntryNameLength : Int) ≤ offset)
    (e : Int) : Grows K s (s.setVol (viewWriteUserdata s.vol v buffer offset).2) e := by
  obtain ⟨io, heq, hk⟩ := writeUserdata_keeps s.vol v buffer offset
  refine .of_setVol h (wf_writeUserdata h.vol _ _ _) (by rw [heq]) (by rw [heq])
    (by rw [heq]; exact hk.hard.fsize) ?_ (step_writeUserdata h.vol hv buffer offset) ?_
    fun hs w hw => ?_
  · intro w _
    rw [heq]
    exact .refl _
  · intro hK
    split
    · rename_i hu
      intro w hw b hb
      have hfits := hu.fits
      have hnonneg := hu.nonneg
      rw [replaced]
      by_cases hwv : w = v
      · have := hkey hK (hwv ▸ hw) hnonneg
        rw [if_pos hwv]
        exact ⟨Lib.length_overwrite (by omega), Lib.take_overwrite_of_le _ (by omega) (by omega)⟩
      · rw [if_neg hwv]
        exact ⟨rfl, rfl⟩
    · exact keepsKeys_unchanged s
  · show ((viewWriteUserdata s.vol v buffer offset).2.cluster w).dataSegSize ≤ s.maxDataSegSize
    rw [heq]
    exact hs w hw

/-! ## Writing -/

theorem elementSize_of_nonneg {size : Int} (h : 0 ≤ size) : elementSize size = size := if_pos h

theorem Space.maxDataSegSize_bounds {hand : List Int} (h : Space s hand) :
    20 ≤ s.maxDataSegSize ∧ s.maxDataSegSize < 2 ^ 30 := by
  have h₁ := h.vol.geometry.size_le
  have h₂ := h.vol.geometry.expand_lt
  have h₃ := h.vol.geometry.expand_pos
  have hle : (s.vol.io.cache.hard.clusterSize : Int) ≤
      s.vol.io.cache.hard.expandClusterCount * s.vol.io.cache.hard.clusterSize := by
    nlinarith
  rw [h.maxDataSegSize, sizeofCluster]
  omega

/-- The position that a write goes on with is one in the list. -/
theorem elementAt_spec (h : Space s []) (he : e ∈ s.entries) (i : Nat) :
    Grows K s (elementAt s e i).2.2 e ∧ (nspSuccess (elementAt s e i).1 = true →
      (elementAt s e i).2.1 < ((elementAt s e i).2.2.heads e).elements.length) := by
  rw [elementAt]
  split
  · exact ⟨.refl h e, fun _ => ‹_›⟩
  · rcases allocIdle_one h he with ⟨v, hok, happ⟩ | ⟨heq, _⟩
    · refine ⟨happ.grows h he, fun _ => ?_⟩
      simp only
      rw [happ.length_elements]
      omega
    · rw [heq]
      exact ⟨.refl h e, fun hok => absurd (show nspSuccess eNomem = true from hok) (by decide)⟩

theorem grows_elementShare (h : Space s []) (he : e ∈ s.entries) (hv : v ∈ (s.heads e).elements)
    (off remain : Int) (hoff : 0 ≤ off) (hoff' : off < s.maxDataSegSize) (hremain : 0 < remain) :
    Grows K s (s.setVol (elementShare s v off remain).2) e := by
  have hbounds := h.maxDataSegSize_bounds
  rw [elementShare]
  split
  · exact .refl h e
  · have hsize := elementSize_of_nonneg
      (show 0 ≤ off + min remain (s.maxDataSegSize - off) by omega)
    refine grows_putDataSegSize h (h.mem_busy he (List.mem_cons_of_mem _ hv)) ?_ ?_ ?_ e
    · rw [hsize]
      have := (h.entry e he).elementSize v hv
      omega
    · rw [hsize]
      exact ⟨by omega, by omega⟩
    · rw [hsize]
      omega

theorem getD_mem {l : List Int} {i : Nat} (h : i < l.length) : l.getD i 0 ∈ l := by
  rw [List.getD_eq_getElem?_getD, List.getElem?_eq_getElem h]
  exact List.getElem_mem h

/-- What follows the elements of an entry keeps the invariant, by induction on the rounds. -/
theorem writeElement_grows (n : Nat) : ∀ {s s' : Fs} {i : Nat} {data : List UInt8}
    {off remain r : Int}, Space s [] → e ∈ s.entries →
      writeElement n s e i data off remain = some (r, s') → Grows K s s' e := by
  induction n with
  | zero =>
    intro s s' i data off remain r h _ heq
    cases heq
    exact .refl h e
  | succ n ih =>
    intro s s' i data off remain r h he heq
    rw [writeElement] at heq
    split at heq
    · cases heq
      exact .refl h e
    rename_i hcond
    obtain ⟨hgrows, hlt⟩ := elementAt_spec (K := K) h he i
    generalize elementAt s e i = a at heq hgrows hlt
    simp only at heq
    split at heq
    · rename_i hok
      have he₁ : e ∈ a.2.2.entries := hgrows.entries ▸ he
      have hview := getD_mem (hlt hok)
      generalize (a.2.2.heads e).elements.getD a.2.1 0 = view at heq hview
      have hshare := grows_elementShare (K := K) hgrows.space he₁ hview off remain
        (by omega) (by rw [hgrows.maxDataSegSize]; omega) (by omega)
      generalize elementShare a.2.2 view off remain = sh at heq hshare
      split at heq
      · cases heq
      · have hbusy : view ∈ sh.2.busy :=
          hshare.space.mem_busy he₁ (List.mem_cons_of_mem _ hview)
        have hwrite := grows_writeUserdata (K := K) hshare.space hbusy (data.take sh.1.toNat) off
          (fun _ hmem => absurd hmem (hgrows.space.element_notMem he₁ hview)) e
        have hone := (hgrows.trans hshare).trans hwrite
        split at heq
        · cases heq
          exact hone
        · obtain ⟨⟨r', s''⟩, hrec, heq'⟩ := Option.map_eq_some_iff.mp heq
          cases heq'
          exact hone.trans (ih hone.space (hone.entries ▸ he) hrec)
    · cases heq
      exact hgrows

theorem passElement_grows (h : Space s []) (he : e ∈ s.entries) (i : Nat) :
    Grows K s (passElement s e i).2 e := by
  have hbounds := h.maxDataSegSize_bounds
  rw [passElement]
  split
  · exact .refl h e
  · rcases allocIdle_one h he with ⟨v, hok, happ⟩ | ⟨heq, _⟩
    · simp only [hok, if_true]
      have he₁ : e ∈ (allocIdleElementsForHead s e 1).2.entries := happ.entries ▸ he
      have hview : ((allocIdleElementsForHead s e 1).2.heads e).elements.getD
          (((allocIdleElementsForHead s e 1).2.heads e).elements.length - 1) 0 ∈
            ((allocIdleElementsForHead s e 1).2.heads e).elements := by
        refine getD_mem ?_
        rw [happ.length_elements]
        omega
      refine (happ.grows h he).trans (grows_putDataSegSize happ.space
        (happ.space.mem_busy he₁ (List.mem_cons_of_mem _ hview)) ?_ ?_ ?_ e)
      · rw [elementSize_of_nonneg (by omega)]
        have := (happ.space.entry e he₁).elementSize _ hview
        omega
      · rw [elementSize_of_nonneg (by omega)]
        exact ⟨by omega, by omega⟩
      · rw [elementSize_of_nonneg (by omega), happ.maxDataSegSize]
    · have hno : nspSuccess eNomem = false := by decide
      simp only [heq, hno, Bool.false_eq_true, if_false]
      exact .refl h e

theorem seekElement_grows (n : Nat) : ∀ {s : Fs} (i : Nat) (inner : Int), Space s [] →
    e ∈ s.entries → Grows K s (seekElement n s e i inner).2 e := by
  induction n with
  | zero => exact fun i inner h _ => .refl h e
  | succ n ih =>
    intro s i inner h he
    rw [seekElement]
    split
    · have hpass := passElement_grows (K := K) h he i
      simp only
      split
      · exact hpass.trans (ih _ _ hpass.space (hpass.entries ▸ he))
      · exact hpass
    · exact .refl h e

/-- The length of an entry, as its header has it. -/
theorem Space.viewGetDataSegSize_head (h : Space s []) (he : e ∈ s.entries) :
    viewGetDataSegSize s.vol e = (s.vol.cluster e).dataSegSize + 2 ^ 31 ∧
      0 ≤ viewGetDataSegSize s.vol e ∧ viewGetDataSegSize s.vol e < 2 ^ 31 := by
  obtain ⟨hneg, hlower⟩ := (h.entry e he).headSize
  have heq : viewGetDataSegSize s.vol e = (s.vol.cluster e).dataSegSize + 2 ^ 31 :=
    if_neg (by omega)
  exact ⟨heq, by omega, by omega⟩

/-- An entry gets another length. -/
theorem grows_setHeadDataSegSize (h : Space s []) (he : e ∈ s.entries) {size : Int}
    (hpos : 0 < size) (hint : Lib.InInt32 size) :
    Grows K s (s.setVol (viewSetHeadDataSegSize s.vol e size).2) e := by
  obtain ⟨hneg, -⟩ := (h.entry e he).headSize
  have hsize : headSize size = size - 2 ^ 31 := if_neg (by omega)
  obtain ⟨h₁, h₂⟩ := hint
  have hbounds := h.maxDataSegSize_bounds
  refine grows_putDataSegSize h (h.mem_busy he List.mem_cons_self) ?_ ?_ ?_ e
  · rw [hsize]
    omega
  · rw [hsize]
    exact ⟨by omega, by omega⟩
  · rw [hsize]
    omega

theorem stretchHead_grows (h : Space s []) (he : e ∈ s.entries) (size : Int)
    (hint : Lib.InInt32 size) : Grows K s (stretchHead s e size) e := by
  obtain ⟨-, hnonneg, -⟩ := h.viewGetDataSegSize_head he
  rw [stretchHead]
  split
  · exact grows_setHeadDataSegSize h he (by omega) hint
  · exact .refl h e

theorem writeFromHead_grows (h : Space s []) (he : e ∈ s.entries) {data : List UInt8}
    {cpoff size r : Int} (hkey : K → 0 ≤ cpoff → (maxEntryNameLength : Int) ≤ cpoff)
    (heq : writeFromHead s e data cpoff size = some (r, s')) : Grows K s s' e := by
  rw [writeFromHead] at heq
  simp only at heq
  split at heq
  · cases heq
  have hwrite := grows_writeUserdata (K := K) h (h.mem_busy he List.mem_cons_self)
    (data.take (min (int32 (s.maxDataSegSize - cpoff)) size).toNat) cpoff (fun hK _ => hkey hK) e
  split at heq
  · cases heq
    exact hwrite
  · split at heq
    · cases heq
    · obtain ⟨⟨r', s''⟩, hrec, heq'⟩ := Option.map_eq_some_iff.mp heq
      cases heq'
      exact hwrite.trans (writeElement_grows _ hwrite.space he hrec)

theorem writeBehindHead_grows (h : Space s []) (he : e ∈ s.entries) {data : List UInt8}
    {cpoff size r : Int} (heq : writeBehindHead s e data cpoff size = some (r, s')) :
    Grows K s s' e := by
  rw [writeBehindHead] at heq
  have hseek := seekElement_grows (K := K) (cpoff - s.maxDataSegSize).toNat 0
    (cpoff - s.maxDataSegSize) h he
  split at heq
  · cases heq
    exact hseek
  · exact hseek.trans (writeElement_grows _ hseek.space (hseek.entries ▸ he) heq)

/-! ## References -/

theorem searchHead_eq {hand : List Int} (h : Space s hand) (id : Int) :
    searchHead s id = if id ∈ s.entries then some id else none := by
  rw [searchHead]
  split
  · rename_i hmem
    exact (Avl.avlsearch_eq_some orders_viewCompare h.tree.sorted).mpr
      ⟨(h.mem_tree id).mpr hmem, rfl⟩
  · rename_i hmem
    refine (Avl.avlsearch_eq_none orders_viewCompare h.tree.sorted).mpr fun w hw heq => hmem ?_
    exact (show w = id from heq) ▸ (h.mem_tree w).mp hw

/-- A head with one more reference, for input and output or not. -/
def Head.bump (head : Head) (io : Int) : Head :=
  { head with refcnt := head.refcnt + 1, ioRefcnt := head.ioRefcnt + io }

/-- The counters of a head, which are `int`s, can go up by one. -/
def Head.Room (head : Head) : Prop := head.refcnt < 2 ^ 31 - 1 ∧ head.ioRefcnt < 2 ^ 31 - 1

instance (head : Head) : Decidable head.Room := inferInstanceAs (Decidable (_ ∧ _))

/-- An entry, if there is one, can be referenced. -/
def Fs.RoomFor (s : Fs) (e : Int) : Prop := e ∈ s.entries → (s.heads e).Room

instance (s : Fs) (e : Int) : Decidable (s.RoomFor e) := inferInstanceAs (Decidable (_ → _))

theorem int32_succ {n : Int} (h₁ : 0 ≤ n) (h₂ : n < 2 ^ 31 - 1) : int32 (n + 1) = n + 1 :=
  Lib.int32_of_inInt32 ⟨by omega, by omega⟩

theorem referenceHead_normal {hand : List Int} (h : Space s hand) {id : Int}
    (hroom : s.RoomFor id) :
    referenceHead s id .normal = if id ∈ s.entries then
      (.ok id, s.setHead id ((s.heads id).bump 1)) else (.error eNoent, s) := by
  rw [referenceHead, searchHead_eq h]
  by_cases hmem : id ∈ s.entries
  · have hcheck : checkReferenceCondition s id .normal =
        (0, s.setHead id ((s.heads id).bump 1)) := by
      have hok := h.entry id hmem
      rw [Head.bump, ← int32_succ hok.refcnt (hroom hmem).1, ← int32_succ hok.ioRefcnt (hroom hmem).2]
      exact if_neg (not_not_intro hok.state)
    simp only [if_pos hmem, hcheck, nspSuccess_zero, if_true]
  · simp only [if_neg hmem]

theorem referenceHead_opened {hand : List Int} (h : Space s hand) {id : Int}
    (hroom : s.RoomFor id) :
    referenceHead s id .opened = if id ∈ s.entries then
      (.ok id, s.setHead id ((s.heads id).bump 0)) else (.error eNoent, s) := by
  rw [referenceHead, searchHead_eq h]
  by_cases hmem : id ∈ s.entries
  · have hcheck : checkReferenceCondition s id
        .opened = (0, s.setHead id ((s.heads id).bump 0)) := by
      have hok := h.entry id hmem
      rw [Head.bump, Int.add_zero, ← int32_succ hok.refcnt (hroom hmem).1]
      exact if_neg (not_not_intro hok.state)
    simp only [if_pos hmem, hcheck, nspSuccess_zero, if_true]
  · simp only [if_neg hmem]

/-- More references keep the invariant. -/
theorem Space.bump {hand : List Int} (h : Space s hand) (e io : Int) (hio : 0 ≤ io) :
    Space (s.setHead e ((s.heads e).bump io)) hand := by
  refine h.setHead (fun _ => rfl) fun he => ?_
  have hok := h.entry e he
  refine { hok with refcnt := ?_, ioRefcnt := ?_ }
  · show 0 ≤ (s.heads e).refcnt + 1
    have := hok.refcnt
    omega
  · show 0 ≤ (s.heads e).ioRefcnt + io
    have := hok.ioRefcnt
    omega

/-- A reference that was taken for input and output is given back. -/
theorem dereferenceHead_normal (hs : (s.heads e).state = .normal) (h₁ : 0 < (s.heads e).refcnt)
    (h₂ : 0 < (s.heads e).ioRefcnt) :
    dereferenceHead s e .normal = some (s.setHead e { s.heads e with
      refcnt := (s.heads e).refcnt - 1, ioRefcnt := (s.heads e).ioRefcnt - 1 }) := by
  rw [dereferenceHead, if_neg (by omega)]
  have hstate : ¬(EntryState.normal = .busy ∧ (s.heads e).state = .busy) := by
    rintro ⟨h, _⟩
    cases h
  simp only [if_true, if_neg hstate]
  rw [if_neg]
  rw [setHead_heads_self]
  rintro ⟨_, hc⟩
  rw [show (s.heads e).state = .closeWait from hc] at hs
  cases hs

/-- A reference that was taken otherwise. -/
theorem dereferenceHead_opened (hs : (s.heads e).state = .normal) (h₁ : 0 < (s.heads e).refcnt) :
    dereferenceHead s e .opened = some (s.setHead e { s.heads e with
      refcnt := (s.heads e).refcnt - 1 }) := by
  have hno : ¬EntryState.opened = .normal := by decide
  rw [dereferenceHead, if_neg (by rintro (h | ⟨h, _⟩); omega; exact hno h)]
  have hstate : ¬(EntryState.opened = .busy ∧ (s.heads e).state = .busy) := by
    rintro ⟨h, _⟩
    cases h
  simp only [if_neg hno, if_neg hstate]
  rw [if_neg]
  rw [setHead_heads_self]
  rintro ⟨_, hc⟩
  rw [show (s.heads e).state = .closeWait from hc] at hs
  cases hs

/-- What is done between taking a reference and giving it back is done to the file system without
it. -/
theorem Grows.unreference {s₁ : Fs} (h : Space s []) (he : e ∈ s.entries)
    (hg : Grows K (s.setHead e ((s.heads e).bump 1)) s₁ e) :
    ∃ s', dereferenceHead s₁ e .normal = some s' ∧ Grows K s s' e := by
  obtain ⟨l, n, hl, heads⟩ := hg.heads
  rw [setHead_heads_self] at hl
  have hhead : s₁.heads e =
      { (s.heads e).bump 1 with elements := l, countOfElements := n } := by
    rw [heads, Function.update_self, setHead_heads_self]
  have hok := h.entry e he
  have h₁ := hok.refcnt
  have h₂ := hok.ioRefcnt
  have hok₁ := hg.space.entry e (hg.entries ▸ he)
  have hheads : Function.update s₁.heads e { s.heads e with elements := l, countOfElements := n } =
      Function.update s.heads e { s.heads e with elements := l, countOfElements := n } := by
    rw [heads, Function.update_idem]
    show Function.update (Function.update s.heads e _) e _ = _
    rw [Function.update_idem]
  refine ⟨s₁.setHead e { s.heads e with elements := l, countOfElements := n }, ?_, ?_⟩
  · rw [dereferenceHead_normal hok₁.state, hhead]
    · simp only [Head.bump, Int.add_sub_cancel]
    · rw [hhead]
      show 0 < (s.heads e).refcnt + 1
      omega
    · rw [hhead]
      show 0 < (s.heads e).ioRefcnt + 1
      omega
  · have hsized : s.Sized e →
        (s₁.setHead e { s.heads e with elements := l, countOfElements := n }).Sized e := by
      intro hs w hw
      rw [setHead_heads_self] at hw
      refine hg.sized (fun x hx => hs x ?_) w (hhead ▸ hw)
      rwa [setHead_heads_self] at hx
    have hspare := hg.spare
    rw [setHead_heads_self, hhead] at hspare
    refine ⟨?_, hg.entries, hg.maxDataSegSize, hg.fault, ⟨l, n, hl, hheads⟩, hsized, ?_, hg.step⟩
    swap
    · rw [setHead_heads_self]
      exact hspare
    refine hg.space.setHead (fun _ => by rw [hhead]) fun _ => ?_
    rw [hhead] at hok₁
    exact { hok₁ with refcnt := h₁, ioRefcnt := h₂ }

/-- Data that is written at the offset does not reach into the key in front of it. -/
def SparesKey (offset : Int) : Prop :=
  Lib.InInt32 offset ∧ (0 ≤ offset ∨ offset < -maxEntryNameLength)

instance (offset : Int) : Decidable (SparesKey offset) := inferInstanceAs (Decidable (_ ∧ _))

theorem SparesKey.le {offset : Int} (h : SparesKey offset)
    (hpos : 0 ≤ int32 (offset + maxEntryNameLength)) :
    (maxEntryNameLength : Int) ≤ int32 (offset + maxEntryNameLength) := by
  obtain ⟨⟨h₁, h₂⟩, h₃⟩ := h
  rw [maxEntryNameLength] at h₃
  rw [int32, Int.bmod_def, maxEntryNameLength] at hpos ⊢
  split at hpos
  · rw [if_pos ‹_›]
    omega
  · rw [if_neg ‹_›]
    omega

/-- The part of `evfs_entries_write_data` between the references. -/
def writeBody (s : Fs) (e : Int) (data : List UInt8) (offset size : Int) : Option (Int × Fs) :=
  let cpoff := int32 (offset + maxEntryNameLength)
  let s := stretchHead s e (int32 (cpoff + size))
  if cpoff < s.maxDataSegSize then writeFromHead s e data cpoff size
  else writeBehindHead s e data cpoff size

theorem writeData_eq (s : Fs) (entryId : Int) (data : List UInt8) (offset size : Int) :
    writeData s entryId data offset size =
      if entryId ≤ 0 ∨ size ≤ 0 then some (eInval, s)
      else match (referenceHead s entryId .normal).1 with
        | .error status => some (status, (referenceHead s entryId .normal).2)
        | .ok e => (writeBody (referenceHead s entryId .normal).2 e data offset size).bind fun r =>
            (dereferenceHead r.2 e .normal).map fun s => (r.1, s) := rfl

/-- Between the references the entry grows. -/
theorem writeBody_grows (h : Space s []) (he : e ∈ s.entries) {data : List UInt8}
    {offset size r : Int} (heq : writeBody s e data offset size = some (r, s')) :
    Grows (SparesKey offset) s s' e := by
  have hst := stretchHead_grows (K := SparesKey offset) h he
    (int32 (int32 (offset + maxEntryNameLength) + size)) (Lib.inInt32_int32 _)
  rw [writeBody] at heq
  generalize stretchHead s e _ = s₁ at heq hst
  have he₁ : e ∈ s₁.entries := hst.entries ▸ he
  split at heq
  · exact hst.trans (writeFromHead_grows hst.space he₁ SparesKey.le heq)
  · exact hst.trans (writeBehindHead_grows hst.space he₁ heq)

/-- **Writing**: the entry grows, or nothing happens. -/
theorem writeData_spec (h : Space s []) {id : Int} (hroom : s.RoomFor id)
    {data : List UInt8} {offset size r : Int}
    (heq : writeData s id data offset size = some (r, s')) : Grows (SparesKey offset) s s' id := by
  rw [writeData_eq] at heq
  split at heq
  · cases heq
    exact .refl h id
  rw [referenceHead_normal h hroom] at heq
  by_cases he : id ∈ s.entries
  · simp only [if_pos he] at heq
    obtain ⟨⟨r₁, s₃⟩, hw, hd⟩ := Option.bind_eq_some_iff.mp heq
    obtain ⟨s₄, hd, hr⟩ := Option.map_eq_some_iff.mp hd
    cases hr
    have hgrows := writeBody_grows (h.bump id 1 (by decide)) he hw
    obtain ⟨s₅, hd', hfinal⟩ := hgrows.unreference h he
    rw [hd] at hd'
    cases hd'
    exact hfinal
  · simp only [if_neg he] at heq
    cases heq
    exact .refl h id

/-! ## Opening and closing -/

theorem openOne_eq (h : Space s []) {id : Int} (hroom : s.RoomFor id) :
    openOne s id = if id ∈ s.entries then
      (0, s.setHead id ((s.heads id).bump 0)) else (eNoent, s) := by
  rw [openOne, referenceHead_opened h hroom]
  by_cases he : id ∈ s.entries
  · simp only [if_pos he]
  · simp only [if_neg he]

theorem setHead_setHead (s : Fs) (e : Int) (head head' : Head) :
    (s.setHead e head).setHead e head' = s.setHead e head' := by
  rw [Fs.setHead, Fs.setHead, Fs.setHead]
  simp only [Function.update_idem]

/-- A handle is closed where one is open; otherwise an assertion fails. -/
theorem closeOne_eq (h : Space s []) {id : Int} (hroom : s.RoomFor id) :
    closeOne s id = if id ∈ s.entries then
      (if 0 < (s.heads id).refcnt then
        some (s.setHead id { s.heads id with refcnt := (s.heads id).refcnt - 1 }) else none)
      else some s := by
  rw [closeOne, referenceHead_opened h hroom]
  by_cases he : id ∈ s.entries
  · have hok := h.entry id he
    have hfirst : dereferenceHead (s.setHead id ((s.heads id).bump 0)) id .opened =
        some (s.setHead id (s.heads id)) := by
      rw [dereferenceHead_opened, setHead_heads_self, setHead_setHead]
      · simp only [Head.bump, Int.add_sub_cancel, Int.add_zero]
      · rw [setHead_heads_self]
        exact hok.state
      · rw [setHead_heads_self]
        show 0 < (s.heads id).refcnt + 1
        have := hok.refcnt
        omega
    simp only [if_pos he, hfirst, Option.bind_some]
    have hself : s.setHead id (s.heads id) = s := by
      rw [Fs.setHead, Function.update_eq_self]
    rw [hself]
    split
    · rename_i hpos
      exact dereferenceHead_opened hok.state hpos
    · rename_i hpos
      rw [dereferenceHead, if_pos (.inl (by omega))]
  · simp only [if_neg he]

/-! ## Deleting -/

/-- The entry `e` is gone, with all of its clusters. -/
structure Deleted (s s' : Fs) (e : Int) : Prop where
  space : Space s' []
  entries : s'.entries = s.entries.erase e
  maxDataSegSize : s'.maxDataSegSize = s.maxDataSegSize
  fault : s'.fault = s.fault
  fsize : s'.vol.fsize = s.vol.fsize
  heads : ∀ e', e' ≠ e → s'.heads e' = s.heads e'
  step : Step s.vol s'.vol unchanged

theorem detachHead_setHead {head : Head} (hkey : head.key = (s.heads e).key) :
    detachHead (s.setHead e head) e = (detachHead s e).setHead e head := by
  have hkeys : ((s.setHead e head).heads e).key = (s.heads e).key := by
    rw [setHead_heads_self, hkey]
  rw [detachHead, detachHead]
  simp only [hkeys]
  split
  · rfl
  · rfl

theorem detachHead_vol (s : Fs) (e : Int) : (detachHead s e).vol = s.vol := by
  rw [detachHead]
  simp only
  split
  · rfl
  · rfl

theorem detachHead_heads (s : Fs) (e : Int) : (detachHead s e).heads = s.heads := by
  rw [detachHead]
  simp only
  split
  · rfl
  · rfl

theorem detachHead_entries (s : Fs) (e : Int) : (detachHead s e).entries = s.entries.erase e := by
  rw [detachHead]
  simp only
  split
  · rfl
  · rfl

theorem detachHead_maxDataSegSize (s : Fs) (e : Int) :
    (detachHead s e).maxDataSegSize = s.maxDataSegSize := by
  rw [detachHead]
  simp only
  split
  · rfl
  · rfl

theorem freeElement_of_hard (hr : (s.heads e).hardRemoveOnDetach = true) (v : Int) :
    freeElement s e v = (s.setHead e { s.heads e with
      elements := (s.heads e).elements.erase v
      countOfElements := (s.heads e).countOfElements - 1 }).setVol (viewMoveToIdle s.vol v).2 := by
  rw [freeElement]
  simp only [hr, if_true]
  rfl

/-- The loop over the elements gives their views back, one after the other. -/
theorem freeElement_foldl (views : List Int) :
    ∀ {s : Fs} {hand : List Int}, Space s (views ++ hand) →
    e ∉ s.entries → (s.heads e).hardRemoveOnDetach = true →
      Space (views.foldl (fun s view => freeElement s e view) s) hand ∧
      (views.foldl (fun s view => freeElement s e view) s).entries = s.entries ∧
      (views.foldl (fun s view => freeElement s e view) s).maxDataSegSize = s.maxDataSegSize ∧
      (views.foldl (fun s view => freeElement s e view) s).fault = s.fault ∧
      (views.foldl (fun s view => freeElement s e view) s).vol.fsize = s.vol.fsize ∧
      (∀ e', e' ≠ e → (views.foldl (fun s view => freeElement s e view) s).heads e' = s.heads e') ∧
      ((views.foldl (fun s view => freeElement s e view) s).heads e).hardRemoveOnDetach = true ∧
      Step s.vol (views.foldl (fun s view => freeElement s e view) s).vol unchanged := by
  induction views with
  | nil => exact fun h _ hr => ⟨h, rfl, rfl, rfl, rfl, fun _ _ => rfl, hr, .refl _⟩
  | cons v views ih =>
    intro s hand h he hr
    have hfree := freeElement_of_hard hr v
    have hset : Space (s.setHead e { s.heads e with
        elements := (s.heads e).elements.erase v
        countOfElements := (s.heads e).countOfElements - 1 }) (v :: views ++ hand) :=
      h.setHead (fun hmem => absurd hmem he) fun hmem => absurd hmem he
    have hspace := hset.release
    have hstep := step_moveToIdle h.vol (h.hand_busy List.mem_cons_self)
    rw [List.foldl_cons, hfree]
    obtain ⟨h₁, h₂, h₃, hfault, hfsize, h₄, h₅, h₆⟩ := ih hspace he (by
      show ((s.setHead e _).heads e).hardRemoveOnDetach = true
      rw [setHead_heads_self]
      exact hr)
    exact ⟨h₁, h₂, h₃, hfault, hfsize.trans (moveToIdle_keeps s.vol v).hard.fsize, fun e' hne => 
      (h₄ e' hne).trans (setHead_heads_ne s hne _), h₅, hstep.trans h₆⟩

/-- An entry that is freed with its clusters. -/
theorem freeHead_spec (h : Space s []) (he : e ∈ s.entries) {head : Head}
    (helems : head.elements = (s.heads e).elements) (hkey : head.key = (s.heads e).key)
    (hhard : head.hardRemoveOnDetach = true) :
    Deleted s (freeHead (s.setHead e head) e) e := by
  have hgone : e ∉ (detachHead s e).entries := by
    rw [detachHead_entries]
    exact h.nodup_entries.not_mem_erase
  have hdetach : Space ((detachHead s e).setHead e head) ((s.heads e).elements ++ [e]) := by
    refine Space.perm ((h.detach he).setHead (fun hmem => absurd hmem hgone)
      fun hmem => absurd hmem hgone) ?_
    rw [List.append_nil]
    exact (List.perm_append_singleton e _).symm
  have hheads : ((detachHead s e).setHead e head).heads e = head := setHead_heads_self ..
  obtain ⟨h₁, h₂, h₃, hfault, hfsize, h₄, h₅, h₆⟩ :=
    freeElement_foldl (e := e) (s.heads e).elements hdetach hgone (by rw [hheads, hhard])
  have heq : freeHead (s.setHead e head) e =
      ((s.heads e).elements.foldl (fun s view => freeElement s e view)
        ((detachHead s e).setHead e head)).setVol
      (viewMoveToIdle ((s.heads e).elements.foldl (fun s view => freeElement s e view)
        ((detachHead s e).setHead e head)).vol e).2 := by
    rw [freeHead, detachHead_setHead hkey, freeElements, hheads, helems]
    simp only [h₅, if_true]
  rw [heq]
  refine ⟨h₁.release, ?_, ?_, ?_, ?_, fun e' hne => ?_, ?_⟩
  · exact h₂.trans (detachHead_entries s e)
  · exact h₃.trans (detachHead_maxDataSegSize s e)
  · exact hfault.trans ((h.leaves.detachHead (h.entry e he).key).2)
  · refine ((moveToIdle_keeps _ e).hard.fsize.trans hfsize).trans ?_
    rw [show ((detachHead s e).setHead e head).vol = s.vol from detachHead_vol s e]
  · exact (h₄ e' hne).trans ((setHead_heads_ne _ hne _).trans (by rw [detachHead_heads]))
  · have hstep := h₆.trans (step_moveToIdle h₁.vol (h₁.hand_busy (List.mem_singleton_self e)))
    rw [show ((detachHead s e).setHead e head).vol = s.vol from detachHead_vol s e] at hstep
    exact hstep

/-- **Deleting** an entry with no open handle. -/
theorem hardDelete_spec (h : Space s []) (he : e ∈ s.entries) (hroom : (s.heads e).Room)
    (hzero : (s.heads e).refcnt = 0) :
    ∃ s', hardDelete s e = some (0, s') ∧ Deleted s s' e := by
  refine ⟨freeHead (s.setHead e { s.heads e with
    refcnt := 0, state := .closeWait, hardRemoveOnDetach := true }) e, ?_,
    freeHead_spec h he rfl rfl rfl⟩
  have hio := (h.entry e he).ioRefcnt
  have htry : tryDeleteHead (s.setHead e { (s.heads e).bump 1 with hardRemoveOnDetach := true }) e
      .normal = s.setHead e { (s.heads e).bump 1 with
        hardRemoveOnDetach := true, state := .closeWait } := by
    have hno : ¬(EntryState.normal = .mandatory ∧ (s.heads e).ioRefcnt + 1 = 0) := by
      rintro ⟨h, _⟩
      cases h
    rw [tryDeleteHead]
    simp only [setHead_heads_self, setHead_setHead, Head.bump, if_neg hno, hzero]
    rfl
  rw [hardDelete, referenceHead_normal h fun _ => hroom, if_pos he]
  simp only [setHead_heads_self, setHead_setHead]
  rw [htry, dereferenceHead]
  simp only [setHead_heads_self, setHead_setHead, Head.bump, hzero, Int.zero_add]
  rw [if_neg (by omega)]
  simp only [true_and, Int.sub_self, Int.add_sub_cancel, if_true]
  rfl

/-! ## Creating -/

/-- The key in the buffer of a new head. -/
def newKey : Option (List UInt8) → List UInt8
  | some key => storedKey key
  | none => List.replicate maxEntryNameLength 0

/-- The data of the head of a new entry: the key, where it fits, and zeros. -/
def headData (clusterSize : Nat) (key : List UInt8) : List UInt8 :=
  if maxEntryNameLength ≤ clusterSize - sizeofCluster then
    Lib.overwrite (List.replicate (clusterSize - sizeofCluster) 0) 0 key
  else List.replicate (clusterSize - sizeofCluster) 0

/-- The view `v` is the head of a new entry, opened once. -/
structure Created (s s' : Fs) (v : Int) (key : List UInt8) : Prop where
  space : Space s' []
  entries : s'.entries = s.entries ++ [v]
  maxDataSegSize : s'.maxDataSegSize = s.maxDataSegSize
  fault : s'.fault = s.fault
  notMem : v ∉ s.vol.busy
  heads : ∀ e, e ≠ v → s'.heads e = s.heads e
  head : s'.heads v = ⟨[], 0, 1, 0, .normal, false, key⟩
  size : (s'.vol.cluster v).dataSegSize = headSize maxEntryNameLength
  step : Step s.vol s'.vol fun w b =>
    if w = v then headData s.vol.io.cache.hard.clusterSize key else b

/-- Nothing has happened to the entries. -/
structure Kept (s s' : Fs) : Prop where
  space : Space s' []
  entries : s'.entries = s.entries
  maxDataSegSize : s'.maxDataSegSize = s.maxDataSegSize
  fault : s'.fault = s.fault
  heads : ∀ e ∈ s.entries, s'.heads e = s.heads e
  step : ∃ g, Step s.vol s'.vol g ∧ KeepsKeys s g

theorem length_newKey (key : Option (List UInt8)) : (newKey key).length = maxEntryNameLength := by
  cases key with
  | none => exact List.length_replicate ..
  | some key =>
    rw [newKey, storedKey, Lib.length_overwrite, List.length_replicate]
    rw [List.length_take, List.length_replicate, maxEntryNameLength]
    omega

/-- The buffer is one byte longer than the string that is copied to it. -/
theorem zero_mem_storedKey (key : List UInt8) : 0 ∈ storedKey key := by
  have hlen : ((cstring key).take (maxEntryNameLength - 1)).length ≤ maxEntryNameLength - 1 := by
    rw [List.length_take]
    exact Nat.min_le_left ..
  rw [storedKey, Lib.overwrite, List.drop_replicate]
  refine List.mem_append_right _ (List.mem_replicate.mpr ⟨?_, rfl⟩)
  rw [maxEntryNameLength] at hlen ⊢
  omega

theorem zero_mem_newKey (key : Option (List UInt8)) : 0 ∈ newKey key := by
  cases key with
  | none => exact List.mem_replicate.mpr ⟨by decide, rfl⟩
  | some key => exact zero_mem_storedKey key

/-- A new head takes its key from the caller: a view that was cleared has none. -/
theorem loadKey_eq {vol : Vol} (hv : vol.cluster v = .zero) (key : Option (List UInt8)) :
    loadKey vol v key = (newKey key, vol) := by
  cases key with
  | some key => rfl
  | none =>
    have hread : viewReadUserdata vol v 0 maxEntryNameLength = (0, [], vol) :=
      viewReadUserdata_of_not fun hu => hu.used ⟨by rw [hv]; rfl, by rw [hv]; rfl⟩
    rw [loadKey, hread, Lib.overwrite]
    rfl

/-- The head of a new entry, before it is entered. -/
structure Headed (s s' : Fs) (v : Int) (key : List UInt8) : Prop where
  space : Space s' [v]
  entries : s'.entries = s.entries
  maxDataSegSize : s'.maxDataSegSize = s.maxDataSegSize
  fault : s'.fault = s.fault
  heads : s'.heads = Function.update s.heads v ⟨[], 0, 0, 0, .normal, false, key⟩
  notMem : v ∉ s.vol.busy
  cluster : s'.vol.cluster v = ⟨headSize maxEntryNameLength, 0, v⟩

theorem Headed.kept {key : List UInt8} (h : Headed s s' v key) (hs : Space s [])
    {g : Int → List UInt8 → List UInt8} (hstep : Step s.vol s'.vol g)
    (hg : ∀ w, w ≠ v → ∀ b, g w b = b) : Kept s (s'.setVol (viewMoveToIdle s'.vol v).2) where
  space := h.space.release
  entries := h.entries
  maxDataSegSize := h.maxDataSegSize
  fault := h.fault
  heads := fun e he => by
    show s'.heads e = s.heads e
    rw [h.heads, Function.update_of_ne]
    rintro rfl
    exact h.notMem (hs.mem_busy he List.mem_cons_self)
  step := by
    refine ⟨_, hstep.trans (step_moveToIdle h.space.vol (h.space.hand_busy
      (List.mem_singleton_self v))), fun w hw b _ => ?_⟩
    have hne : w ≠ v := by
      rintro rfl
      exact h.notMem (hs.mem_busy hw List.mem_cons_self)
    rw [hg w hne]
    exact ⟨rfl, rfl⟩

/-- The view `v` is the head of a new entry that nobody has opened yet. -/
structure Inserted (s s' : Fs) (v : Int) (key : List UInt8) : Prop where
  space : Space s' []
  entries : s'.entries = s.entries ++ [v]
  maxDataSegSize : s'.maxDataSegSize = s.maxDataSegSize
  fault : s'.fault = s.fault
  notMem : v ∉ s.vol.busy
  heads : ∀ e, e ≠ v → s'.heads e = s.heads e
  head : s'.heads v = ⟨[], 0, 0, 0, .normal, false, key⟩
  size : (s'.vol.cluster v).dataSegSize = headSize maxEntryNameLength
  step : Step s.vol s'.vol fun w b =>
    if w = v then headData s.vol.io.cache.hard.clusterSize key else b

@[simp] theorem insertHead_vol (s : Fs) (e : Int) : (insertHead s e).vol = s.vol := by
  rw [insertHead]
  simp only
  split
  · rfl
  · rfl

@[simp] theorem insertHead_heads (s : Fs) (e : Int) : (insertHead s e).heads = s.heads := by
  rw [insertHead]
  simp only
  split
  · rfl
  · rfl

@[simp] theorem insertHead_entries (s : Fs) (e : Int) :
    (insertHead s e).entries = s.entries ++ [e] := by
  rw [insertHead]
  simp only
  split
  · rfl
  · rfl

@[simp] theorem insertHead_maxDataSegSize (s : Fs) (e : Int) :
    (insertHead s e).maxDataSegSize = s.maxDataSegSize := by
  rw [insertHead]
  simp only
  split
  · rfl
  · rfl

/-- A head enters the list and the indexes. -/
theorem Headed.inserted {key : List UInt8} (h : Headed s s' v key) (hkey : 0 ∈ key)
    (hstep : Step s.vol s'.vol fun w b =>
      if w = v then headData s.vol.io.cache.hard.clusterSize key else b) :
    Inserted s (insertHead s' v) v key := by
  have hhead : s'.heads v = ⟨[], 0, 0, 0, .normal, false, key⟩ := by
    rw [h.heads, Function.update_self]
  have hok : EntryOk s'.vol.cluster v (s'.heads v) := by
    rw [hhead]
    refine ⟨by rw [Linked, h.cluster], fun w hw => ?_, ?_, fun w hw => (by cases hw), rfl, rfl, rfl,
      Int.le_refl 0, Int.le_refl 0, hkey⟩
    · rw [List.mem_singleton.mp hw, h.cluster]
    · rw [h.cluster]
      exact (by decide : headSize maxEntryNameLength < 0 ∧ -2 ^ 31 ≤ headSize maxEntryNameLength)
  refine ⟨h.space.insert hok (by rw [hhead]), ?_, ?_, ?_, h.notMem, fun e hne => ?_, ?_, ?_, ?_⟩
  · rw [insertHead_entries, h.entries]
  · rw [insertHead_maxDataSegSize, h.maxDataSegSize]
  · rw [(h.space.leaves.insertHead hok.key).2, h.fault]
  · rw [insertHead_heads, h.heads, Function.update_of_ne hne]
  · rw [insertHead_heads, hhead]
  · rw [insertHead_vol, h.cluster]
  · rw [insertHead_vol]
    exact hstep

/-- A new entry is opened. -/
theorem Inserted.opened {key : List UInt8} (h : Inserted s s' v key) :
    ∃ s'', referenceHead s' v .opened = (.ok v, s'') ∧ Created s s'' v key := by
  have hmem : v ∈ s'.entries := by
    rw [h.entries]
    exact List.mem_append_right _ (List.mem_singleton_self v)
  refine ⟨s'.setHead v ((s'.heads v).bump 0), ?_, ?_⟩
  · have hroom : (s'.heads v).Room := by
      have hzero : (0 : Int) < 2 ^ 31 - 1 := by decide
      rw [h.head]
      exact ⟨hzero, hzero⟩
    rw [referenceHead_opened h.space fun _ => hroom, if_pos hmem]
  · refine ⟨h.space.bump v 0 (Int.le_refl 0), h.entries, h.maxDataSegSize, h.fault, h.notMem,
      fun e hne => ?_, ?_, h.size, h.step⟩
    · rw [setHead_heads_ne _ hne, h.heads e hne]
    · rw [setHead_heads_self, h.head]
      rfl

/-- The head of a new entry, after its header was written. -/
theorem headed_spec (h : Space s []) {vol : Vol} (ha : Acquired s.vol vol v)
    (key : Option (List UInt8)) : ∃ s₁, allocHead (s.setVol vol) v key = (true, s₁) ∧
      Headed s (s₁.setVol (viewSetHeadDataSegSize s₁.vol v maxEntryNameLength).2) v (newKey key) ∧
      (s₁.heads v).key = newKey key ∧
      (Step s.vol (viewSetHeadDataSegSize s₁.vol v maxEntryNameLength).2 fun w b =>
        if w = v then List.replicate (s.vol.io.cache.hard.clusterSize - sizeofCluster) 0 else b) ∧
      ∀ u, Mirror s.vol u → vol.fsize ≤ 2 ^ 31 →
        (viewSetHeadDataSegSize s₁.vol v maxEntryNameLength).1 = 0 := by
  have hvbusy : v ∈ vol.busy := by
    rw [ha.busy]
    exact List.mem_append_right _ (List.mem_singleton_self v)
  have hint := inInt32_of_busy ha.wf hvbusy
  have hzero : Lib.InInt32 0 := by decide
  have hsize : Lib.InInt32 (headSize maxEntryNameLength) := by decide
  have hspace := h.acquired ha
  -- the number of the head is written first, then the size
  have hwf₁ := wf_putCluster ha.wf v ⟨0, 0, v⟩
  have hstep₁ := step_putCluster ha.wf hvbusy (c := ⟨0, 0, v⟩) fun _ => ⟨hzero, hzero, hint⟩
  generalize hvol₁ : (vol.putCluster v ⟨0, 0, v⟩).2 = vol₁ at hwf₁ hstep₁
  have hbusy₁ : vol₁.busy = vol.busy := by rw [← hvol₁, putCluster_busy]
  have hcluster₁ : vol₁.cluster = Function.update vol.cluster v ⟨0, 0, v⟩ := by
    rw [← hvol₁, putCluster_cluster]
  have hself₁ : vol₁.cluster v = ⟨0, 0, v⟩ := by rw [hcluster₁, Function.update_self]
  have hwf₂ := wf_putCluster hwf₁ v ⟨headSize maxEntryNameLength, 0, v⟩
  have hstep₂ := step_putCluster hwf₁ (hbusy₁ ▸ hvbusy) (c := ⟨headSize maxEntryNameLength, 0, v⟩)
    fun _ => ⟨hsize, hzero, hint⟩
  have hput : viewSetHeadDataSegSize vol₁ v maxEntryNameLength =
      vol₁.putCluster v ⟨headSize maxEntryNameLength, 0, v⟩ := by
    rw [viewSetHeadDataSegSize, Vol.putDataSegSize, hself₁, if_pos]
    exact (by decide : (0 : Int) ≠ headSize maxEntryNameLength)
  have hset := congrArg Prod.snd hput
  have hfsize₁ : vol₁.fsize = vol.fsize := by
    rw [← hvol₁]
    exact ((vol.setCluster v ⟨0, 0, v⟩).writeHead_keeps v).hard.fsize
  generalize hvol₂ : (vol₁.putCluster v ⟨headSize maxEntryNameLength, 0, v⟩).2 = vol₂
    at hwf₂ hstep₂ hset
  have hcluster₂ : vol₂.cluster =
      Function.update vol.cluster v ⟨headSize maxEntryNameLength, 0, v⟩ := by
    rw [← hvol₂, putCluster_cluster, hcluster₁, Function.update_idem]
  have hbusy₂ : vol₂.busy = vol.busy := by rw [← hvol₂, putCluster_busy, hbusy₁]
  have hnew : v ∉ s.entries := fun hmem => ha.notMem (h.mem_busy hmem List.mem_cons_self)
  refine ⟨(s.setVol vol₁).setHead v ⟨[], 0, 0, 0, .normal, false, newKey key⟩, ?_, ?_, ?_, ?_,
    fun u m hle => ?_⟩
  · have hhead : (viewSetHead vol v none).2 = vol₁ := by
      rw [← hvol₁, viewSetHead, ha.cluster_self]
      rfl
    rw [allocHead, fs_alloc_eq (s := s.setVol vol) ha.wf]
    simp only [if_true]
    rw [show (s.setVol vol).vol = vol from rfl, loadKey_eq ha.cluster_self, hhead]
    rfl
  · show Headed s (((s.setVol vol₁).setHead v _).setVol (viewSetHeadDataSegSize vol₁ v _).2) v _
    rw [hset]
    refine ⟨?_, rfl, rfl, rfl, rfl, ha.notMem, ?_⟩
    · refine (hspace.setVol hwf₂ hbusy₂ (hstep₂.size.trans hstep₁.size) ?_).setHead
        (fun hmem => absurd hmem hnew) fun hmem => absurd hmem hnew
      intro w _ hw
      rw [hcluster₂, Function.update_of_ne fun heq => hw (List.mem_singleton.mpr heq)]
      exact .refl _
    · show vol₂.cluster v = _
      rw [hcluster₂, Function.update_self]
  · rw [setHead_heads_self]
  · show Step s.vol (viewSetHeadDataSegSize vol₁ v _).2 _
    rw [hset]
    exact (ha.step.trans hstep₁).trans hstep₂
  · obtain ⟨u₁, m₁, -⟩ := (ha.step.trans hstep₁).mirror u m (hfsize₁ ▸ hle)
    show (viewSetHeadDataSegSize vol₁ v maxEntryNameLength).1 = 0
    rw [hput]
    exact m₁.putCluster_status hwf₁ (hbusy₁ ▸ hvbusy) _

/-- The part of `evfs_entries_create_one` after the search, up to the reference that it takes at the
end. -/
def insertNew (s : Fs) (key : Option (List UInt8)) : Int × Int × Fs :=
  let r := viewAcquireIdle s.vol
  match r.1 with
  | none => (eNospc, 0, s.setVol r.2)
  | some view =>
    let a := allocHead (s.setVol r.2) view key
    if a.1 then
      let d := viewSetHeadDataSegSize a.2.vol view maxEntryNameLength
      if nspSuccess d.1 then
        let w := viewWriteUserdata d.2 view (a.2.heads view).key 0
        if nspSuccess w.1 then (0, view, insertHead (a.2.setVol w.2) view)
        else giveBack (a.2.setVol w.2) w.1 view
      else giveBack (a.2.setVol d.2) d.1 view
    else giveBack a.2 eNomem view

/-- The reference that `evfs_entries_create_one` takes at the end. -/
def openNew (r : Int × Int × Fs) : Int × Int × Fs :=
  if nspSuccess r.1 then
    let q := referenceHead r.2.2 r.2.1 .opened
    (match q.1 with
      | .ok _ => 0
      | .error status => status, r.2.1, q.2)
  else r

theorem openNew_of_not {r : Int × Int × Fs} (h : ¬nspSuccess r.1 = true) : openNew r = r := if_neg h

theorem createNew_eq (s : Fs) (key : Option (List UInt8)) :
    createNew s key = openNew (insertNew s key) := by
  have hno : ¬nspSuccess eNospc = true := by decide
  have hno' : ¬nspSuccess eNomem = true := by decide
  rw [createNew, insertNew]
  cases hacq : (viewAcquireIdle s.vol).1 with
  | none => exact (openNew_of_not (r := (eNospc, 0, _)) hno).symm
  | some view =>
    simp only
    generalize allocHead (s.setVol (viewAcquireIdle s.vol).2) view key = a
    by_cases ha : a.1 = true
    · rw [if_pos ha, if_pos ha]
      by_cases hd : nspSuccess (viewSetHeadDataSegSize a.2.vol view maxEntryNameLength).1 = true
      · rw [if_pos hd, if_pos hd]
        generalize viewWriteUserdata _ view (a.2.heads view).key 0 = w
        by_cases hw : nspSuccess w.1 = true
        · rw [if_pos hw, if_pos hw]
          rfl
        · rw [if_neg hw, if_neg hw]
          exact (openNew_of_not hw).symm
      · rw [if_neg hd, if_neg hd]
        exact (openNew_of_not hd).symm
    · rw [if_neg ha, if_neg ha]
      exact (openNew_of_not (r := (eNomem, 0, _)) hno').symm

/-- A new entry is in the list, or nothing has happened. -/
theorem insertNew_spec (h : Space s []) (key : Option (List UInt8)) :
    (∃ v s', insertNew s key = (0, v, s') ∧ Inserted s s' v (newKey key)) ∨
      ∃ r s', insertNew s key = (r, 0, s') ∧ r < 0 ∧ Kept s s' := by
  rw [insertNew]
  rcases acquireIdle_spec h.vol with ⟨v, vol, hacq, ha⟩ | ⟨hacq, _⟩
  · obtain ⟨s₁, halloc, hheaded, hkey, hstep, -⟩ := headed_spec h ha key
    simp only [hacq, halloc, if_true]
    generalize hd : viewSetHeadDataSegSize s₁.vol v maxEntryNameLength = d at hheaded hstep
    by_cases hok : nspSuccess d.1 = true
    · -- the write of the key returns its length or zero, which are both taken for success
      have hw := writeUserdata_fst d.2 v (s₁.heads v).key 0
      have hok' : nspSuccess (viewWriteUserdata d.2 v (s₁.heads v).key 0).1 = true := by
        rcases hw with hw | hw
        · rw [hw, nspSuccess, decide_eq_true_eq]
          omega
        · rw [hw]
          exact nspSuccess_zero
      simp only [hok, hok', if_true]
      have hbusy : v ∈ d.2.busy := hheaded.space.hand_busy (List.mem_singleton_self v)
      have hstep' := hstep.trans (step_writeUserdata hheaded.space.vol hbusy (s₁.heads v).key 0)
      obtain ⟨io, heq, hk⟩ := writeUserdata_keeps d.2 v (s₁.heads v).key 0
      have hwf := wf_writeUserdata hheaded.space.vol v (s₁.heads v).key 0
      have hsize := hheaded.space.vol
      rw [hkey] at heq hwf hstep' ⊢
      have hheaded' : Headed s (s₁.setVol (viewWriteUserdata d.2 v (newKey key) 0).2) v
          (newKey key) := by
        refine { hheaded with
          space := hheaded.space.setVol hwf (by rw [heq]; rfl)
              (by rw [heq]; exact hk.hard.clusterSize)
            fun w _ _ => by rw [heq]; exact .refl _
          cluster := ?_ }
        show (viewWriteUserdata d.2 v (newKey key) 0).2.cluster v = _
        rw [heq]
        exact hheaded.cluster
      have hinserted := hheaded'.inserted (zero_mem_newKey key) (by
        have hiff : d.2.Usable v 0 (newKey key).length ↔
            maxEntryNameLength ≤ s.vol.io.cache.hard.clusterSize - sizeofCluster := by
          have hcs : d.2.io.cache.hard.clusterSize = s.vol.io.cache.hard.clusterSize := hstep.size
          rw [length_newKey]
          constructor
          · intro hu
            have := hu.fits
            rw [hcs] at this
            omega
          · intro hle
            refine ⟨Int.le_refl 0, by decide, fun hun => ?_, ?_⟩
            · have hcl : d.2.cluster v = ⟨headSize maxEntryNameLength, 0, v⟩ := hheaded.cluster
              have := hun.1
              rw [hcl] at this
              exact absurd (show headSize maxEntryNameLength = 0 from this) (by decide)
            · rw [hcs]
              rw [maxEntryNameLength] at hle ⊢
              omega
        have hfun : (fun w b => if w = v then headData s.vol.io.cache.hard.clusterSize (newKey key)
            else b) = fun w b => (if d.2.Usable v 0 (newKey key).length then
              replaced v (0 : Int).toNat (newKey key) else unchanged) w (if w = v then
                List.replicate (s.vol.io.cache.hard.clusterSize - sizeofCluster) 0 else b) := by
          funext w b
          by_cases hw : w = v
          · by_cases hu : d.2.Usable v 0 (newKey key).length
            · simp only [if_pos hw, if_pos hu, replaced, headData, if_pos (hiff.mp hu)]
              rfl
            · simp only [if_pos hw, if_neg hu, unchanged, headData,
                if_neg fun hle => hu (hiff.mpr hle)]
          · by_cases hu : d.2.Usable v 0 (newKey key).length
            · simp only [if_neg hw, if_pos hu, replaced]
            · simp only [if_neg hw, if_neg hu, unchanged]
        rw [hfun]
        exact hstep')
      exact .inl ⟨v, _, rfl, hinserted⟩
    · simp only [if_neg hok]
      refine .inr ⟨d.1, _, rfl, ?_, hheaded.kept h hstep fun w hw b => if_neg hw⟩
      simpa [nspSuccess] using hok
  · refine .inr ⟨eNospc, s, ?_, by decide, ⟨h, rfl, rfl, rfl, fun _ _ => rfl, unchanged, .refl _,
      keepsKeys_unchanged s⟩⟩
    simp only [hacq]
    rfl

/-- Where a view is taken there is a new entry, as long as the offset of its cluster is an
`int`. -/
theorem insertNew_of_acquired (h : Space s []) {u : List (List UInt8)} (m : Mirror s.vol u)
    {vol : Vol} (hacq : viewAcquireIdle s.vol = (some v, vol)) (ha : Acquired s.vol vol v)
    (hle : vol.fsize ≤ 2 ^ 31) (key : Option (List UInt8)) :
    ∃ s', insertNew s key = (0, v, s') := by
  obtain ⟨s₁, halloc, -, -, -, hstatus⟩ := headed_spec h ha key
  have hzero := hstatus u m hle
  have hwrite : nspSuccess (viewWriteUserdata (viewSetHeadDataSegSize s₁.vol v
      maxEntryNameLength).2 v (s₁.heads v).key 0).1 = true := by
    rcases writeUserdata_fst (viewSetHeadDataSegSize s₁.vol v maxEntryNameLength).2 v
      (s₁.heads v).key 0 with hw | hw
    · rw [hw, nspSuccess, decide_eq_true_eq]
      omega
    · rw [hw]
      exact nspSuccess_zero
  rw [insertNew]
  simp only [hacq, halloc, if_true, hzero, nspSuccess_zero, hwrite]
  exact ⟨_, rfl⟩

/-- Where a view is idle, there is a new entry. -/
theorem insertNew_of_idle (h : Space s []) {u : List (List UInt8)} (m : Mirror s.vol u)
    (hle : s.vol.fsize ≤ 2 ^ 31) (hne : s.vol.idle ≠ []) (key : Option (List UInt8)) :
    ∃ v s', insertNew s key = (0, v, s') := by
  obtain ⟨v, vol, hacq, ha⟩ := acquireIdle_of_idle h.vol hne
  exact ⟨v, insertNew_of_acquired h m hacq ha ((ha.spare hne).1 ▸ hle) key⟩

/-- **Creating**: a new entry, or nothing has happened. -/
theorem createNew_spec (h : Space s []) (key : Option (List UInt8)) :
    (∃ v s', createNew s key = (0, v, s') ∧ Created s s' v (newKey key)) ∨
      ∃ r s', createNew s key = (r, 0, s') ∧ r < 0 ∧ Kept s s' := by
  rw [createNew_eq]
  rcases insertNew_spec h key with ⟨v, s₁, heq, hinserted⟩ | ⟨r, s₁, heq, hneg, hkept⟩
  · obtain ⟨s₂, href, hcreated⟩ := hinserted.opened
    refine .inl ⟨v, s₂, ?_, hcreated⟩
    rw [heq, openNew]
    simp only [nspSuccess_zero, if_true, href]
  · refine .inr ⟨r, s₁, ?_, hneg, hkept⟩
    rw [heq]
    exact openNew_of_not (by simpa [nspSuccess] using hneg)

end Evfs

end LibNax
