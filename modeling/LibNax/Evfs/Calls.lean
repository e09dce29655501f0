import LibNax.Lib.Run
import LibNax.Evfs.Demand
import LibNax.Evfs.Fresh

/-!
# Runs of calls

The calls of `entries.c` that take and give back space, in any order and number, on a new file
system. An allocation does not fail, and an entry is deleted where no handle of it is open.

* `Call`, `Calls` — the calls, and one of them as a step.
* `Call.Fits` — the call takes no more clusters than are idle, and no counter runs over.
* `Accounted` — where the clusters are: every view is idle or belongs to one place of one entry.
* `accounting` — in every state that calls lead to that fit.

A call that takes more clusters than are idle makes the file larger, and `evfs_cache_expand` then
reads the numbers of the new clusters from memory that was freed (`accounting_lost`).  While a call
fits, nothing but the invariant `Space` is needed: it says where every view is, and the count of the
clusters is the one of `Demand`.  The headers on the disk are those of the views, too.
-/

set_option autoImplicit false

namespace LibNax

namespace Evfs

open Lib (Run)

/-- A call of the interface. -/
inductive Call where
  /-- `evfs_entries_create_one`. -/
  | createOne (key : Option (List UInt8))
  /-- `evfs_entries_write_data`. -/
  | writeData (entryId : Int) (data : List UInt8) (offset size : Int)
  /-- `evfs_entries_open_one`. -/
  | openOne (entryId : Int)
  /-- `evfs_entries_close_one`. -/
  | closeOne (entryId : Int)
  /-- `evfs_entries_hard_delete`. -/
  | hardDelete (entryId : Int)

/-- The managers after a call, unless it does not return. -/
def Call.exec (s : Fs) : Call → Option Fs
  | .createOne key => (Evfs.createOne s key).map fun r => r.2.2
  | .writeData entryId data offset size => (Evfs.writeData s entryId data offset size).map Prod.snd
  | .openOne entryId => some (Evfs.openOne s entryId).2
  | .closeOne entryId => Evfs.closeOne s entryId
  | .hardDelete entryId => (Evfs.hardDelete s entryId).map Prod.snd

/-- No handle of the entry is open. -/
def Fs.Unopened (s : Fs) (e : Int) : Prop := e ∈ s.entries → (s.heads e).refcnt = 0

instance (s : Fs) (e : Int) : Decidable (s.Unopened e) := inferInstanceAs (Decidable (_ → _))

/-- A call that a caller may make. -/
def Call.Allowed (s : Fs) : Call → Prop
  | .hardDelete entryId => s.Unopened entryId
  | _ => True

instance (s : Fs) : ∀ c : Call, Decidable (c.Allowed s)
  | .createOne _ => instDecidableTrue
  | .writeData .. => instDecidableTrue
  | .openOne _ => instDecidableTrue
  | .closeOne _ => instDecidableTrue
  | .hardDelete entryId => inferInstanceAs (Decidable (s.Unopened entryId))

/-- One call. -/
def Calls (s : Fs) (c : Call) (s' : Fs) : Prop := c.Allowed s ∧ c.exec s = some s'

/-- One call, where it may be made. -/
def Call.tryExec (s : Fs) (c : Call) : Option Fs := if c.Allowed s then c.exec s else none

theorem calls_of_tryExec (s : Fs) (c : Call) (s' : Fs) (h : c.tryExec s = some s') :
    Calls s c s' := by
  rw [Call.tryExec] at h
  split at h
  · exact ⟨‹_›, h⟩
  · cases h

/-! ## One call -/

/-- The call takes no more clusters than are idle, and the references to its entry do not run over
their counters. -/
def Call.Fits (s : Fs) : Call → Prop
  | .createOne key => s.clustersToCreate key ≤ s.vol.idle.length
  | .writeData entryId _ offset size => s.RoomFor entryId ∧
      (entryId ∈ s.entries → s.clustersToWrite entryId offset size ≤ s.vol.idle.length)
  | .openOne entryId => s.RoomFor entryId
  | .closeOne entryId => s.RoomFor entryId
  | .hardDelete entryId => s.RoomFor entryId

instance Call.decidableFits (s : Fs) : ∀ c : Call, Decidable (c.Fits s)
  | .createOne _ => inferInstanceAs (Decidable (_ ≤ _))
  | .writeData .. => inferInstanceAs (Decidable (_ ∧ _))
  | .openOne entryId => inferInstanceAs (Decidable (s.RoomFor entryId))
  | .closeOne entryId => inferInstanceAs (Decidable (s.RoomFor entryId))
  | .hardDelete entryId => inferInstanceAs (Decidable (s.RoomFor entryId))

/-- One call that fits. -/
def FitCalls (s : Fs) (c : Call) (s' : Fs) : Prop := c.Fits s ∧ Calls s c s'

/-- One call, where it may be made and fits. -/
def Call.tryFit (s : Fs) (c : Call) : Option Fs := if c.Fits s then c.tryExec s else none

theorem fitCalls_of_tryFit (s : Fs) (c : Call) (s' : Fs) (h : c.tryFit s = some s') :
    FitCalls s c s' := by
  rw [Call.tryFit] at h
  split at h
  · exact ⟨‹_›, calls_of_tryExec s c s' h⟩
  · cases h

variable {s s' : Fs}

/-- The disk has the headers, the offset of every cluster is an `int`, and everything that was done
is defined. -/
structure Fs.Steady (s : Fs) : Prop where
  mirror : ∃ u, Mirror s.vol u
  fsize_lt : s.vol.fsize < 2 ^ 31
  defined : s.Defined

theorem Fs.Steady.fsize_le (h : s.Steady) : s.vol.fsize ≤ 2 ^ 31 := Int.le_of_lt h.fsize_lt

theorem Fs.Steady.congr (h : s.Steady) (hvol : s'.vol = s.vol) (hfault : s'.fault = s.fault) :
    s'.Steady := by
  obtain ⟨u, m⟩ := h.mirror
  exact ⟨⟨u, hvol ▸ m⟩, hvol ▸ h.fsize_lt, hvol ▸ h.defined.1, hfault.trans h.defined.2⟩

/-- What does not make the file larger is defined. -/
theorem Fs.Steady.step {g : Int → List UInt8 → List UInt8} (h : s.Steady)
    (hstep : Step s.vol s'.vol g) (hfault : s'.fault = s.fault)
    (hfsize : s'.vol.fsize = s.vol.fsize) : s'.Steady := by
  obtain ⟨u, m⟩ := h.mirror
  obtain ⟨u', m', -⟩ := hstep.mirror u m (hfsize ▸ h.fsize_le)
  exact ⟨⟨u', m'⟩, hfsize ▸ h.fsize_lt, (hstep.fault hfsize).trans h.defined.1,
    hfault.trans h.defined.2⟩

/-- What a call that fits does to the disk, and that it is defined. -/
structure Carried (s s' : Fs) : Prop where
  space : Space s' []
  step : ∃ g, Step s.vol s'.vol g
  fault : s'.fault = s.fault
  fsize : s'.vol.fsize = s.vol.fsize

theorem Carried.refl (h : Space s []) : Carried s s := ⟨h, ⟨_, .refl _⟩, rfl, rfl⟩

theorem Carried.steady (h : Carried s s') (hs : s.Steady) : s'.Steady := by
  obtain ⟨g, hstep⟩ := h.step
  exact hs.step hstep h.fault h.fsize

theorem createOne_carried (h : Space s []) {key : Option (List UInt8)} {r : Int × Int × Fs}
    (hfits : s.clustersToCreate key ≤ s.vol.idle.length) (heq : createOne s key = some r) :
    Carried s r.2.2 := by
  have hfsize := createOne_fsize h.vol hfits heq
  have hnew : (createNew s key).2.2.vol.fsize = s.vol.fsize → Carried s (createNew s key).2.2 := by
    rcases createNew_spec h key with ⟨v, s', hc, created⟩ | ⟨status, s', hc, -, kept⟩
    · rw [hc]
      exact fun hfsize => ⟨created.space, ⟨_, created.step⟩, created.fault, hfsize⟩
    · rw [hc]
      obtain ⟨g, hstep, -⟩ := kept.step
      exact fun hfsize => ⟨kept.space, ⟨g, hstep⟩, kept.fault, hfsize⟩
  cases key with
  | none =>
    cases heq
    exact hnew hfsize
  | some k =>
    rw [createOne] at heq
    split at heq
    · cases heq
    · cases heq
      exact .refl h
    · cases heq
      exact hnew hfsize

theorem Space.call (h : Space s []) (hs : s.Steady) {c : Call}
    (hc : FitCalls s c s') : Carried s s' := by
  obtain ⟨hfits, hallowed, hexec⟩ := hc
  cases c with
  | createOne key =>
    obtain ⟨r, hr, rfl⟩ := Option.map_eq_some_iff.mp hexec
    exact createOne_carried h hfits hr
  | writeData id data offset size =>
    obtain ⟨⟨r, s₁⟩, hr, rfl⟩ := Option.map_eq_some_iff.mp hexec
    obtain ⟨u, m⟩ := hs.mirror
    have hg := writeData_spec h hfits.1 hr
    obtain ⟨g, hstep, -⟩ := hg.step
    exact ⟨hg.space, ⟨g, hstep⟩, hg.fault, writeData_fsize h hfits.1 m hs.fsize_le hfits.2 hr⟩
  | openOne id =>
    rw [Call.exec, openOne_eq h hfits] at hexec
    split at hexec
    · cases hexec
      exact ⟨h.bump id 0 (Int.le_refl 0), ⟨_, .refl _⟩, rfl, rfl⟩
    · cases hexec
      exact .refl h
  | closeOne id =>
    rw [Call.exec, closeOne_eq h hfits] at hexec
    split at hexec
    · rename_i he
      split at hexec
      · rename_i hpos
        cases hexec
        refine ⟨h.setHead (fun _ => rfl) fun _ => ?_, ⟨_, .refl _⟩, rfl, rfl⟩
        refine { h.entry id he with refcnt := ?_ }
        show 0 ≤ (s.heads id).refcnt - 1
        omega
      · cases hexec
    · cases hexec
      exact .refl h
  | hardDelete id =>
    obtain ⟨⟨r, s₁⟩, hr, rfl⟩ := Option.map_eq_some_iff.mp hexec
    by_cases he : id ∈ s.entries
    · obtain ⟨s₂, hd, deleted⟩ := hardDelete_spec h he (hfits he) (hallowed he)
      rw [hr] at hd
      cases hd
      exact ⟨deleted.space, ⟨_, deleted.step⟩, deleted.fault, deleted.fsize⟩
    · rw [hardDelete, referenceHead_normal h hfits, if_neg he] at hr
      cases hr
      exact .refl h

theorem Dead.referenceHead_eq (h : Dead s) (id : Int) (permission : EntryState) :
    referenceHead s id permission = (.error eNoent, s) := by
  rw [referenceHead, searchHead, h.tree]
  rfl

theorem Dead.createNew_eq (h : Dead s) (key : Option (List UInt8)) :
    createNew s key = (eNospc, 0, s) := by
  rw [createNew, viewAcquireIdle, if_pos (by rw [h.total])]
  rfl

/-- Without a view no call does anything. -/
theorem Dead.call (h : Dead s) {c : Call} (hc : Calls s c s') : s' = s := by
  obtain ⟨-, hexec⟩ := hc
  have href := h.referenceHead_eq
  have hnew := h.createNew_eq
  cases c with
  | createOne key =>
    obtain ⟨r, hr, rfl⟩ := Option.map_eq_some_iff.mp hexec
    cases key with
    | none =>
      rw [createOne, hnew] at hr
      cases hr
      rfl
    | some k =>
      rw [createOne, hnew] at hr
      split at hr
      · cases hr
      · cases hr
        rfl
      · cases hr
        rfl
  | writeData id data offset size =>
    obtain ⟨r, hr, rfl⟩ := Option.map_eq_some_iff.mp hexec
    rw [writeData, href] at hr
    split at hr
    · cases hr
      rfl
    · cases hr
      rfl
  | openOne id =>
    rw [Call.exec, openOne, href] at hexec
    cases hexec
    rfl
  | closeOne id =>
    rw [Call.exec, closeOne, href] at hexec
    cases hexec
    rfl
  | hardDelete id =>
    obtain ⟨r, hr, rfl⟩ := Option.map_eq_some_iff.mp hexec
    rw [hardDelete, href] at hr
    cases hr
    rfl

/-! ## Where the clusters are -/

/-- The place `p` of the view `v`: an entry, and the position in its chain, where its head is at `0`
and its elements follow. -/
def Fs.PlaceOf (s : Fs) (v : Int) (p : Int × Nat) : Prop :=
  p.1 ∈ s.entries ∧ (s.chain p.1)[p.2]? = some v

/-- The accounts of the space. -/
structure Accounted (s : Fs) : Prop where
  /-- Every view is in one of the two lists, once. -/
  views : (s.vol.idle ++ s.vol.busy).Perm (viewIds s.vol.clusterCount)
  countIdle : s.vol.countOfIdleViews = s.vol.idle.length
  countBusy : s.vol.countOfBusyViews = s.vol.busy.length
  /-- A busy view has one place. -/
  place : ∀ v ∈ s.vol.busy, ∃! p, s.PlaceOf v p
  /-- A view with a place is busy. -/
  busy : ∀ v p, s.PlaceOf v p → v ∈ s.vol.busy
  /-- The links of the headers are the lists of the elements. -/
  linked : ∀ e ∈ s.entries, Linked s.vol.cluster e (s.heads e).elements
  head : ∀ e ∈ s.entries, ∀ v ∈ s.chain e, (s.vol.cluster v).headClusterId = e
  /-- The headers on the disk. -/
  disk : ∃ u, Sim s.vol.io.cache [] u ∧ ∀ v ∈ s.vol.busy, hdr u v = s.vol.cluster v
  /-- Without entries every view is idle. -/
  empty : s.entries = [] → s.vol.idle.Perm (viewIds s.vol.clusterCount)

theorem Fs.Steady.disk (h : s.Steady) :
    ∃ u, Sim s.vol.io.cache [] u ∧ ∀ v ∈ s.vol.busy, hdr u v = s.vol.cluster v := by
  obtain ⟨u, m⟩ := h.mirror
  exact ⟨u, m.sim, m.busy⟩

theorem Space.existsUnique_place (h : Space s []) {v : Int} (hv : v ∈ s.vol.busy) :
    ∃! p, s.PlaceOf v p := by
  obtain ⟨e, he, hmem⟩ := List.mem_flatMap.mp (h.owned.mem_iff.mp hv)
  obtain ⟨i, hi⟩ := List.mem_iff_getElem?.mp hmem
  refine ⟨(e, i), ⟨he, hi⟩, ?_⟩
  rintro ⟨e', j⟩ ⟨he', hj⟩
  have hee : e' = e := by
    by_contra hne
    exact h.chain_disjoint he' he hne (List.mem_of_getElem? hj) hmem
  subst hee
  obtain ⟨hlt, -⟩ := List.getElem?_eq_some_iff.mp hi
  have hij := (List.getElem?_inj hlt (h.nodup_chain he)).mp (hi.trans hj.symm)
  rw [hij]

theorem Space.accounted (h : Space s []) (hs : s.Steady) : Accounted s where
  views := h.vol.perm
  countIdle := h.vol.countIdle
  countBusy := h.vol.countBusy
  place := fun v hv => h.existsUnique_place hv
  busy := fun v p hp => h.mem_busy hp.1 (List.mem_of_getElem? hp.2)
  linked := fun e he => (h.entry e he).linked
  head := fun e he => (h.entry e he).headId
  disk := hs.disk
  empty := fun hnil => by
    have howned := h.owned
    rw [hnil] at howned
    have hperm := h.vol.perm
    rwa [List.Perm.eq_nil howned, List.append_nil] at hperm

theorem Dead.accounted (h : Dead s) (hs : s.Steady) : Accounted s := by
  have hno : ∀ e, e ∉ s.entries := fun e he => by
    rw [h.entries] at he
    cases he
  have hbusy : ∀ v, v ∉ s.vol.busy := fun v hv => by
    rw [h.busy] at hv
    cases hv
  have hviews : viewIds s.vol.clusterCount = [] := by
    rw [h.count]
    rfl
  refine ⟨?_, ?_, ?_, fun v hv => absurd hv (hbusy v), fun v p hp => absurd hp.1 (hno _),
    fun e he => absurd he (hno e), fun e he => absurd he (hno e), hs.disk, fun _ => ?_⟩
  · rw [h.idle, h.busy, hviews]
    exact .refl _
  · rw [h.countIdle, h.idle]
    rfl
  · rw [h.countBusy, h.busy]
    rfl
  · rw [h.idle, hviews]

theorem Fresh.steady (h : Fresh s) : s.Steady :=
  ⟨⟨_, h.mirror⟩, Int.lt_trans h.formatted.fsize_lt (by decide), h.defined⟩

/-- **The accounts of the space** are right in every state that calls lead to from a new file
system, and what they do is defined, as long as every call finds the clusters it takes among the
idle ones. -/
theorem accounting {garbage : Garbage} {clusterSize clusterCount status : Int} {cacheBlockNum : Nat}
    {s₀ : Fs} (hfit : clusterSize * clusterCount < 2 ^ 31)
    (hcreate : evfsCreate garbage Fs.init clusterSize clusterCount cacheBlockNum [] [] [] =
      some (status, s₀)) (hstatus : nspSuccess status = true)
    {calls : List Call} (hrun : Run FitCalls s₀ calls s) : Accounted s ∧ s.Defined := by
  obtain ⟨fresh, -, -, hspace⟩ := fresh_of_evfsCreate hfit hcreate hstatus
  have hsteady := fresh.steady
  rcases hspace with ⟨-, hspace⟩ | hdead
  · have h := hrun.invariant (P := fun s => Space s [] ∧ s.Steady)
      (fun s c s' ⟨h, hs⟩ hc => by
        have hcarried := h.call hs hc
        exact ⟨hcarried.space, hcarried.steady hs⟩) ⟨hspace, hsteady⟩
    exact ⟨h.1.accounted h.2, h.2.defined⟩
  · have h := hrun.invariant (P := fun s => Dead s ∧ s.Steady)
      (fun s c s' hi hc => by rw [hi.1.call hc.2]; exact hi) ⟨hdead, hsteady⟩
    exact ⟨h.1.accounted h.2, h.2.defined⟩

/-- Two entries take three clusters of a file of five, and the second of them is deleted. -/
theorem accounting_example : ∃ s₀ s,
    evfsCreate ⟨fun _ => [], fun _ => .zero, .zero, fun _ => none⟩ Fs.init 128 5 1 [] [] [] =
      some (0, s₀) ∧
    Run FitCalls s₀ [.createOne (some [65]), .writeData 1 (List.replicate 100 7) 0 100,
      .createOne none, .closeOne 3, .hardDelete 3] s ∧ s.vol.busy = [1, 2] ∧
      Accounted s ∧ s.Defined := by
  have hrun : ((evfsCreate ⟨fun _ => [], fun _ => .zero, .zero, fun _ => none⟩ Fs.init
      128 5 1 [] [] []
      ).bind fun r => (Lib.exec Call.tryFit r.2 [.createOne (some [65]),
        .writeData 1 (List.replicate 100 7) 0 100, .createOne none, .closeOne 3,
        .hardDelete 3]).map fun s => (r.1, s.vol.busy)) = some (0, [1, 2]) := by
    decide +kernel
  obtain ⟨⟨status, s₀⟩, hcreate, hrun⟩ := Option.bind_eq_some_iff.mp hrun
  obtain ⟨s, hexec, heq⟩ := Option.map_eq_some_iff.mp hrun
  obtain ⟨rfl, hbusy⟩ := Prod.mk.inj heq
  have hcalls := Run.of_exec fitCalls_of_tryFit hexec
  exact ⟨s₀, s, hcreate, hcalls, hbusy, accounting (by decide) hcreate rfl hcalls⟩

/-- The second entry in a file of two clusters makes it larger. -/
theorem accounting_lost : ∃ s₀ s,
    evfsCreate ⟨fun _ => [], fun _ => .zero, .zero, fun _ => none⟩ Fs.init 128 2 1 [] [] [] =
      some (0, s₀) ∧
    Run Calls s₀ [.createOne (some [65]), .createOne (some [66])] s ∧
      ¬(Accounted s ∧ s.Defined) := by
  have hrun : ((evfsCreate ⟨fun _ => [], fun _ => .zero, .zero, fun _ => none⟩ Fs.init
      128 2 1 [] [] []
      ).bind fun r => (Lib.exec Call.tryExec r.2 [.createOne (some [65]),
        .createOne (some [66])]).map fun s => (r.1, s.vol.io.fault)) = some (0, true) := by
    decide +kernel
  obtain ⟨⟨status, s₀⟩, hcreate, hrun⟩ := Option.bind_eq_some_iff.mp hrun
  obtain ⟨s, hexec, heq⟩ := Option.map_eq_some_iff.mp hrun
  obtain ⟨rfl, hfault⟩ := Prod.mk.inj heq
  refine ⟨s₀, s, hcreate, Run.of_exec calls_of_tryExec hexec, fun ⟨_, hd⟩ => ?_⟩
  rw [hd.1] at hfault
  cases hfault

end Evfs

end LibNax
