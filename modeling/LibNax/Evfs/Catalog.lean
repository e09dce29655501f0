import LibNax.Evfs.Reload

/-!
# Closing with entries that wait

`evfs_close` frees every entry.  One that was deleted while it was in use gives its clusters back
then; the others keep theirs, and are found again by `evfs_open`.

* `Listed` — the invariant between two calls: what the disk holds, the entries that wait, the index.
* `freeAll_spec` — the entries that wait are gone with their clusters.
* `closing_mixed` — the loop of `evfs_entries_uninit` does the same to the clusters.
* `Listed.reopen` — closing and opening: the entries in use come back, with their keys.
-/

set_option autoImplicit false

namespace LibNax

namespace Evfs

/-! ## The invariant -/

variable {s s' : Fs} {e : Int}

/-- The entry was deleted while a handle of it was open, and waits for it. -/
def Fs.Waits (s : Fs) (e : Int) : Prop :=
  (s.heads e).state = .closeWait ∧ (s.heads e).hardRemoveOnDetach = true ∧ 0 < (s.heads e).refcnt

/-- The entry is in use, and is not being deleted. -/
def Fs.Live (s : Fs) (e : Int) : Prop :=
  (s.heads e).state = .normal ∧ (s.heads e).hardRemoveOnDetach = false

instance (s : Fs) (e : Int) : Decidable (s.Live e) := inferInstanceAs (Decidable (_ ∧ _))

/-- Between two calls. -/
structure Listed (s : Fs) : Prop where
  stored : Stored s.eased
  state : ∀ e ∈ s.entries, s.Live e ∨ s.Waits e
  named : Named s

theorem Listed.nodup (h : Listed s) : s.entries.Nodup := h.stored.space.nodup_entries

theorem Stored.congr_heads (h : Stored s) {heads : Int → Head}
    (hsame : ∀ e ∈ s.entries, heads e = s.heads e) : Stored { s with heads } where
  space := h.space.congr_heads hsame
  le_size := h.le_size
  two_le := h.two_le
  ioRefcnt := fun e he => by
    show (heads e).ioRefcnt = 0
    rw [hsame e he]
    exact h.ioRefcnt e he
  steady := h.steady.congr rfl rfl
  disk := fun hsize => by
    obtain ⟨u, hu⟩ := h.disk hsize
    refine ⟨u, hu.mirror, fun e he => ?_⟩
    show _ = (heads e).key
    rw [hsame e he]
    exact hu.key e he

/-- A head of an entry in use is as it is taken to be. -/
theorem Fs.Live.eased (h : s.Live e) : s.eased.heads e = s.heads e := by
  show (s.heads e).eased = s.heads e
  obtain ⟨hs, hr⟩ := h
  generalize s.heads e = head at hs hr
  cases head
  cases hs
  cases hr
  rfl

/-- Without entries that wait. -/
theorem listed_of_live (h : Stored s) (hn : Named s) : Listed s := by
  have hlive : ∀ e ∈ s.entries, s.Live e := fun e he =>
    ⟨(h.space.entry e he).state, (h.space.entry e he).keeps⟩
  exact ⟨h.congr_heads fun e he => (hlive e he).eased, fun e he => .inl (hlive e he), hn⟩

/-! ## Freeing the entries that wait -/

/-- The clusters after the entries were freed. -/
def Fs.volWithout (s : Fs) (vol : Vol) (l : List Int) : Vol :=
  l.foldl (fun vol e => moveAll vol ((s.heads e).elements ++ [e])) vol

theorem volWithout_keeps (s : Fs) (l : List Int) : ∀ vol :
    Vol, vol.io.Keeps (s.volWithout vol l).io := by
  induction l with
  | nil => exact fun vol => .refl _
  | cons e l ih => exact fun vol => (moveAll_keeps _ vol).trans (ih _)

theorem volWithout_congr (l : List Int) (hsame : ∀ e ∈ l, s'.heads e = s.heads e) : ∀ vol : Vol,
    s'.volWithout vol l = s.volWithout vol l := by
  induction l with
  | nil => exact fun vol => rfl
  | cons e l ih =>
    intro vol
    rw [Fs.volWithout, Fs.volWithout, List.foldl_cons, List.foldl_cons, hsame e List.mem_cons_self]
    exact ih (fun e' he' => hsame e' (List.mem_cons_of_mem _ he')) _

theorem Named.freeHead (h : Named s) (hnd : s.entries.Nodup) (he : e ∈ s.entries)
    (hr : (s.heads e).hardRemoveOnDetach = true) : Named (freeHead s e) := by
  obtain ⟨head, heq⟩ := freeHead_hard hr
  have hgone : e ∉ (detachHead s e).entries := by
    rw [detachHead_entries]
    exact hnd.not_mem_erase
  rw [heq]
  refine (h.detach hnd he).same ⟨rfl, rfl, fun e' he' => ?_⟩
  exact congrArg Head.key (setHead_heads_ne _ (ne_of_mem_of_not_mem he' hgone) head)

/-- What freeing entries leaves. -/
structure Freed (s s' : Fs) (l : List Int) : Prop where
  stored : Stored s'.eased
  named : Named s'
  entries : ∀ e, e ∈ s'.entries ↔ e ∈ s.entries ∧ e ∉ l
  heads : ∀ e, e ∉ l → s'.heads e = s.heads e
  vol : s'.vol = s.volWithout s.vol l

theorem freeAll_spec (l : List Int) : ∀ {s : Fs}, Stored s.eased → Named s → l.Nodup →
    (∀ e ∈ l, e ∈ s.entries ∧ (s.heads e).hardRemoveOnDetach = true) →
      Freed s (l.foldl freeHead s) l := by
  induction l with
  | nil =>
    intro s h hn _ _
    exact ⟨h, hn, fun e => ⟨fun he => ⟨he, List.not_mem_nil⟩, And.left⟩, fun _ _ => rfl, rfl⟩
  | cons e l ih =>
    intro s h hn hnd hall
    obtain ⟨he, hr⟩ := hall e List.mem_cons_self
    obtain ⟨hel, hl⟩ := List.nodup_cons.mp hnd
    have hdel := freeHead_eased h.space he hr
    obtain ⟨head, heq⟩ := freeHead_hard hr
    have hnodup : s.entries.Nodup := h.space.nodup_entries
    have hentries : ∀ e', e' ∈ (Evfs.freeHead s e).entries ↔ e' ≠ e ∧ e' ∈ s.entries := fun e' => by
      rw [← hnodup.mem_erase_iff]
      exact hdel.entries ▸ Iff.rfl
    have hheads : ∀ e', e' ≠ e → (Evfs.freeHead s e).heads e' = s.heads e' := fun e' hne => by
      rw [heq]
      show ((detachHead s e).setHead e head).heads e' = _
      rw [setHead_heads_ne _ hne, detachHead_heads]
    have hvol : (Evfs.freeHead s e).vol = moveAll s.vol ((s.heads e).elements ++ [e]) := by
      rw [heq]
      rfl
    have hrest := ih (s := Evfs.freeHead s e) (h.deleted hdel)
        (hn.freeHead h.space.nodup_entries he hr)
      hl fun e' he' => by
        have hne : e' ≠ e := ne_of_mem_of_not_mem he' hel
        obtain ⟨hmem, hr'⟩ := hall e' (List.mem_cons_of_mem _ he')
        rw [hentries, hheads e' hne]
        exact ⟨⟨hne, hmem⟩, hr'⟩
    refine ⟨hrest.stored, hrest.named, fun e' => ?_, fun e' he' => ?_, ?_⟩
    · show e' ∈ (l.foldl Evfs.freeHead (Evfs.freeHead s e)).entries ↔ _
      rw [hrest.entries, hentries, List.mem_cons]
      tauto
    · rw [List.mem_cons, not_or] at he'
      exact (hrest.heads e' he'.2).trans (hheads e' he'.1)
    · refine hrest.vol.trans ?_
      rw [hvol, volWithout_congr l fun e' he' => hheads e' (ne_of_mem_of_not_mem he' hel)]
      rfl

/-! ## Closing -/

/-- An entry is unloaded: its clusters stay, or are given back if it waits. -/
theorem tryDeleteHead_mandatory (hio : (s.heads e).ioRefcnt = 0) : ∃ head,
    tryDeleteHead s e .mandatory = ((detachHead s e).setHead e head).setVol
      (if (s.heads e).hardRemoveOnDetach then moveAll s.vol ((s.heads e).elements ++ [e])
        else s.vol) := by
  cases hr : (s.heads e).hardRemoveOnDetach with
  | false =>
    obtain ⟨head, heq⟩ := tryDeleteHead_soft hio hr
    refine ⟨head, ?_⟩
    rw [heq, if_neg Bool.false_ne_true, ← detachHead_vol s e]
    rfl
  | true =>
    have htry : tryDeleteHead s e .mandatory = freeHead (s.setHead e { s.heads e with
        state := .closeWait, refcnt := 0 }) e := by
      rw [tryDeleteHead]
      simp only [setHead_heads_self, hio, and_self, if_true]
    obtain ⟨head, heq⟩ := freeHead_setHead_hard (s := s) (e := e)
      ({ s.heads e with state := .closeWait, refcnt := 0 } : Head) rfl hr
    exact ⟨head, by rw [htry, heq, if_pos rfl]⟩

/-- The loop of `evfs_entries_uninit`, for all entries. -/
theorem closing_mixed (todo : List Int) : ∀ {s' : Fs} {vol : Vol},
    Closing (s.setVol vol) todo s' → Indexed s' → todo.Nodup →
    (∀ e ∈ todo, 0 ∈ (s.heads e).key ∧ (s.heads e).ioRefcnt = 0) →
      Closing (s.setVol (s.volWithout vol
          (todo.filter fun e => (s.heads e).hardRemoveOnDetach))) []
        (todo.foldl (fun s e => tryDeleteHead s e .mandatory) s') ∧
      Indexed (todo.foldl (fun s e => tryDeleteHead s e .mandatory) s') := by
  induction todo with
  | nil => exact fun h hi _ _ => ⟨h, hi⟩
  | cons e todo ih =>
    intro s' vol h hi hnd hall
    have hhead : s'.heads e = s.heads e := h.heads e List.mem_cons_self
    obtain ⟨hkey, hio⟩ := hall e List.mem_cons_self
    obtain ⟨head, heq⟩ := tryDeleteHead_mandatory (s := s') (e := e) (by rw [hhead]; exact hio)
    have hentries : s'.entries.Nodup := h.entries ▸ hnd
    have hgone : e ∉ (detachHead s' e).entries := by
      rw [detachHead_entries]
      exact hentries.not_mem_erase
    rw [hhead, h.vol] at heq
    have hindexed : Indexed (tryDeleteHead s' e .mandatory) := by
      rw [heq]
      refine (hi.detach hentries).1.same ⟨rfl, rfl, fun e' he' => ?_⟩
      exact congrArg Head.key (setHead_heads_ne _ (ne_of_mem_of_not_mem he' hgone) head)
    have hleave := h.leave hnd hkey head (if (s.heads e).hardRemoveOnDetach then
      moveAll vol ((s.heads e).elements ++ [e]) else vol)
    rw [show (s.setVol vol).vol = vol from rfl] at heq
    rw [← heq] at hleave
    have hrest := ih hleave hindexed hnd.of_cons
      fun e' he' => hall e' (List.mem_cons_of_mem _ he')
    rw [List.foldl_cons, List.filter_cons]
    cases hr : (s.heads e).hardRemoveOnDetach with
    | false =>
      rw [hr, if_neg Bool.false_ne_true] at hrest
      rw [if_neg Bool.false_ne_true]
      exact hrest
    | true =>
      rw [hr, if_pos rfl] at hrest
      rw [if_pos rfl]
      exact hrest

/-- An entry that is not given back is one in use. -/
theorem Listed.live_iff (h : Listed s) (he : e ∈ s.entries) :
    (s.heads e).hardRemoveOnDetach = false ↔ s.Live e := by
  rcases h.state e he with hl | hw
  · exact iff_of_true hl.2 hl
  · refine iff_of_false (fun hf => ?_) fun hl => ?_
    · exact absurd (hf.symm.trans hw.2.1) Bool.false_ne_true
    · exact absurd (hl.2.symm.trans hw.2.1) Bool.false_ne_true

/-- **Closing**: the entries that wait are gone, and the clusters are in the file. -/
theorem Listed.close (h : Listed s) : ∃ s₁,
    Freed s s₁ (s.entries.filter fun e => (s.heads e).hardRemoveOnDetach) ∧
    (∀ u, Mirror s₁.vol u → (evfsClose s).1 = u.flatten) ∧ (evfsClose s).2.Cleared ∧
    (evfsClose s).2.rootOfNamedEntriesTree = .nil := by
  have hspace := h.stored.space
  have hfreed := freeAll_spec (s.entries.filter fun e => (s.heads e).hardRemoveOnDetach) h.stored
    h.named (h.nodup.filter _) fun e he => List.mem_filter.mp he
  generalize List.foldl freeHead s _ = s₁ at hfreed
  have hstart : Closing (s.setVol s.vol) s.entries s :=
    ⟨rfl, rfl, fun _ _ => rfl, hspace.tree, hspace.mem_tree, hspace.countOfEntries, hspace.leaves,
      rfl, rfl, rfl⟩
  obtain ⟨hc, hindexed⟩ := closing_mixed s.entries hstart h.named.toIndexed h.nodup
    fun e he => ⟨(hspace.entry e he).key, h.stored.ioRefcnt e he⟩
  rw [← hfreed.vol] at hc
  have hwf : s₁.vol.Wf := hfreed.stored.space.vol
  have hio : (entriesUninit s).vol.io = s₁.vol.io := (viewUninit_io _).trans (by rw [hc.vol]; rfl)
  refine ⟨s₁, hfreed, fun u hu => ?_, ?_, ?_⟩
  · show ((entriesUninit s).vol.io.cache.flushBufferAll.hard.file).flatten = _
    rw [hio, hu.sim.flushBufferAll.2]
  · refine ⟨clean_viewUninit (s := s.setVol s₁.vol) hwf.counted hc hspace.wild hspace.countOfWild,
      hc.leaves, ?_, hc.fault.trans h.stored.steady.defined.2⟩
    show (entriesUninit s).vol.io.fault = false
    rw [hio]
    exact hfreed.stored.steady.defined.1
  · refine Avl.toList_eq_nil.mp (List.eq_nil_iff_forall_not_mem.mpr fun leaf hleaf => ?_)
    have hmem := hindexed.head leaf hleaf
    rw [hc.entries] at hmem
    exact List.not_mem_nil hmem

/-- **Closing and opening**: the entries in use come back, with their keys, and no others. -/
theorem Listed.reopen (h : Listed s)
    (hsize : sizeofCluster + sizeofHrd ≤ s.vol.io.cache.hard.clusterSize)
    (hle : s.vol.fsize ≤ 2 ^ 30) (garbage : Garbage) (cacheBlockNum : Nat) : ∃ t,
      evfsOpen garbage (evfsClose s).2 (evfsClose s).1 cacheBlockNum [] [] [] = some (0, t) ∧
        Listed t ∧ SameSize s t ∧ (∀ e, e ∈ t.entries ↔ e ∈ s.entries ∧ s.Live e) ∧
        (∀ e ∈ t.entries, t.Live e) ∧ ∀ e ∈ t.entries, (t.heads e).key = (s.heads e).key := by
  obtain ⟨s₁, hfreed, hfile, hcleared, hnil⟩ := h.close
  have hfsize : s₁.vol.fsize = s.vol.fsize := by
    rw [Vol.fsize, hfreed.vol, (volWithout_keeps s _ s.vol).hard.fsize, Vol.fsize]
  have hle₁ : s₁.eased.vol.fsize ≤ 2 ^ 30 := by
    rw [eased_vol, hfsize]
    exact hle
  have hsize₁ : sizeofCluster + sizeofHrd ≤ s₁.eased.vol.io.cache.hard.clusterSize := by
    rw [eased_vol, hfreed.vol, (volWithout_keeps s _ s.vol).hard.clusterSize]
    exact hsize
  obtain ⟨u, hu⟩ := hfreed.stored.disk (Nat.le_trans (by decide) hsize₁)
  rw [hfile u hu.mirror]
  obtain ⟨t, hopen, hr, hstored, hnamed⟩ :=
    evfsOpen_reloaded hfreed.stored hu hsize₁ hle₁ hcleared garbage cacheBlockNum
  have hn : Named t := hnamed hnil (hfreed.named.same ⟨rfl, rfl, fun _ _ => rfl⟩)
  have hentries : ∀ e, e ∈ t.entries ↔ e ∈ s.entries ∧ s.Live e := fun e => by
    rw [hr.entries, eased_entries, hfreed.entries, List.mem_filter]
    constructor
    · rintro ⟨he, hno⟩
      exact ⟨he, (h.live_iff he).mp (Bool.eq_false_iff.mpr fun hw => hno ⟨he, hw⟩)⟩
    · rintro ⟨he, hl⟩
      exact ⟨he, fun hw => absurd (hl.2.symm.trans hw.2) Bool.false_ne_true⟩
  have hcs : SameSize s t := hr.size.trans (by
    rw [eased_vol, hfreed.vol, (volWithout_keeps s _ s.vol).hard.clusterSize])
  refine ⟨t, hopen, listed_of_live hstored hn, hcs, hentries, fun e he =>
    ⟨(hstored.space.entry e he).state, (hstored.space.entry e he).keeps⟩, fun e he => ?_⟩
  have hmem := (hr.entries e).mp he
  rw [hr.key e hmem]
  show (s₁.heads e).key = _
  rw [hfreed.heads e ((hfreed.entries e).mp hmem).2]

end Evfs

end LibNax
