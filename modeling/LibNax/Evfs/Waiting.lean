import LibNax.Evfs.Demand

/-!
# Entries that wait

An entry that is deleted while it is in use stays in the list and in the indexes, in the state
`closeWait` and with its clusters, until the last reference to it is given back.  Apart from the two
fields that say so it is an entry like the others: nothing that creates, writes or reads looks at
them.

The invariant of the file system was stated for entries in use, and the theorems on all functions
with it.  To have them again for entries that wait would double them.  Instead the managers are
mapped: `Fs.eased` is the same state with every entry taken for one in use.  A function that does
not look at the two fields commutes with that map, and one such equation for each function
(`writeBody_eased`, `insertNew_eased`) is all that is needed to use what is known of it.  The
exceptions are the functions that take references and those that free; these look at the fields,
and are treated by themselves.

The equations say nothing about the fields.  That a call leaves the states of all entries alone is
a relation of its own, `SameStates`, which is proved along the same functions and put together with
the equations in `Worked` and `Entered`.  Freeing is where an entry that waits differs from one in
use, since its elements are given back: with the field that says so the clusters move to the idle
ones, one after the other (`moveAll`), and the entry is detached first (`freeHead_eased`).

* `Fs.eased` — the managers, with the entries that wait taken for entries in use.
* `writeBody_eased`, `readBytes_reads` — the calls do the same to both.
* `SameStates`, `Worked` — what a call that reads or writes leaves alone.
* `freeHead_hard`, `freeHead_eased` — giving the clusters back.

So the invariant `Space` is stated of `Fs.eased`, and what is known of the calls is used for it.
-/

set_option autoImplicit false

namespace LibNax

namespace Evfs

open Lib (int32)

/-! ## Taking them for entries in use -/

/-- An entry in use. -/
def Head.eased (head : Head) : Head := { head with state := .normal, hardRemoveOnDetach := false }

/-- The managers, with every entry in use. -/
def Fs.eased (s : Fs) : Fs := { s with heads := fun e => (s.heads e).eased }

variable {s s' : Fs} {e v : Int}

@[simp] theorem eased_vol (s : Fs) : s.eased.vol = s.vol := rfl

@[simp] theorem eased_entries (s : Fs) : s.eased.entries = s.entries := rfl

@[simp] theorem eased_maxDataSegSize (s : Fs) : s.eased.maxDataSegSize = s.maxDataSegSize := rfl

@[simp] theorem eased_elements (s : Fs) (e : Int) :
    (s.eased.heads e).elements = (s.heads e).elements := rfl

theorem eased_setVol (s : Fs) (vol : Vol) : (s.setVol vol).eased = s.eased.setVol vol := rfl

theorem eased_setHead (s : Fs) (e : Int) (head : Head) :
    (s.setHead e head).eased = s.eased.setHead e head.eased := by
  rw [Fs.eased, Fs.setHead, Fs.setHead]
  congr 1
  funext e'
  exact Function.apply_update (fun _ => Head.eased) s.heads e head e'

/-- A head that is taken for the same. -/
theorem eased_setHead_self {head : Head} (h : head.eased = (s.heads e).eased) :
    (s.setHead e head).eased = s.eased := by
  rw [eased_setHead, h, Fs.setHead]
  show { s.eased with heads := Function.update s.eased.heads e (s.eased.heads e) } = s.eased
  rw [Function.update_eq_self]

theorem detachHead_eased (s : Fs) (e : Int) : (detachHead s e).eased = detachHead s.eased e := by
  rw [detachHead, detachHead]
  simp only
  show Fs.eased (if (s.heads e).key.headD 0 ≠ 0 then _ else _) =
    if (s.heads e).key.headD 0 ≠ 0 then _ else _
  split
  · rfl
  · rfl

theorem insertHead_eased (s : Fs) (e : Int) : (insertHead s e).eased = insertHead s.eased e := by
  rw [insertHead, insertHead]
  simp only
  show Fs.eased (if (s.heads e).key.headD 0 ≠ 0 then _ else _) =
    if (s.heads e).key.headD 0 ≠ 0 then _ else _
  split
  · rfl
  · rfl

/-! ## Writing -/

theorem allocElement_eased (s : Fs) (v e : Int) :
    allocElement s.eased v e = ((allocElement s v e).1, (allocElement s v e).2.eased) := by
  rw [allocElement, allocElement]
  show (if s.vol.alloc.1 then _ else _) = _
  by_cases h : s.vol.alloc.1
  · rw [if_pos h, if_pos (show s.alloc.1 from h)]
    refine Prod.ext rfl ?_
    rw [eased_setHead]
    rfl
  · rw [if_neg h, if_neg (show ¬s.alloc.1 from h)]
    rfl

theorem linkViews_eased (views : List Int) : ∀ (last : Int) (s : Fs) (e : Int),
    linkViews views last s.eased e =
      ((linkViews views last s e).1, (linkViews views last s e).2.eased) := by
  induction views with
  | nil => exact fun _ _ _ => rfl
  | cons v views ih =>
    intro last s e
    rw [linkViews, linkViews, allocElement_eased]
    simp only
    split
    · rw [eased_vol, ← eased_setVol]
      exact ih v _ e
    · rfl

theorem writeChain_eased (s : Fs) (e : Int) (coverHead : Bool) : writeChain s.eased e coverHead =
    ((writeChain s e coverHead).1, (writeChain s e coverHead).2.eased) := by
  rw [writeChain, writeChain]
  by_cases hcover : coverHead ∧ nspSuccess (writeHeads (s.heads e).elements 0 s.vol).1
  · refine (if_pos hcover).trans ?_
    rw [if_pos hcover]
    rfl
  · refine (if_neg hcover).trans ?_
    rw [if_neg hcover]
    rfl

/-- No allocation fails, so no element is freed on the way. -/
theorem allocIdle_eased (h : Space s.eased []) (he : e ∈ s.entries) :
    allocIdleElementsForHead s.eased e 1 =
      ((allocIdleElementsForHead s e 1).1, (allocIdleElementsForHead s e 1).2.eased) := by
  have halloc : s.alloc = (true, s) := fs_alloc_eq h.vol
  rw [allocIdleElementsForHead, allocIdleElementsForHead, fs_alloc_eq h.vol, halloc]
  simp only [Nat.one_ne_zero, if_false, if_true, eased_vol, eased_elements]
  rcases acquireIdle_spec h.vol with ⟨v, vol, hacq, ha⟩ | ⟨hacq, -⟩
  · have htotal := h.vol.total
    have hmore : viewAcquireIdleMore 1 s.vol = (.ok [v], vol) := by
      rw [viewAcquireIdleMore, if_neg (by rw [eased_vol] at htotal; omega), acquireViews]
      rw [eased_vol] at hacq
      simp only [hacq, acquireViews, List.length_singleton, lt_irrefl, if_false]
    obtain ⟨s₁, hlink, -⟩ := appended_linkViews h he ha
    have heq := linkViews_eased [v] ((s.heads e).elements.getLastD e) (s.setVol vol) e
    rw [eased_setVol] at heq
    rw [eased_elements, heq] at hlink
    have hok := congrArg Prod.fst hlink
    simp only at hok
    simp only [hmore, heq]
    rw [if_pos hok, if_pos hok]
    exact writeChain_eased _ e _
  · have htotal := h.vol.total
    have hmore : viewAcquireIdleMore 1 s.vol = (.error eNomem, s.vol) := by
      rw [viewAcquireIdleMore, if_neg (by rw [eased_vol] at htotal; omega), acquireViews]
      rw [eased_vol] at hacq
      simp only [hacq, List.length_nil, Nat.lt_add_one, if_true, List.foldl_nil]
    simp only [hmore]
    rfl

theorem elementAt_eased (h : Space s.eased []) (he : e ∈ s.entries) (i : Nat) :
    elementAt s.eased e i =
      ((elementAt s e i).1, (elementAt s e i).2.1, (elementAt s e i).2.2.eased) := by
  rw [elementAt, elementAt, eased_elements]
  split
  · rfl
  · rw [allocIdle_eased h he]
    rfl

theorem passElement_eased (h : Space s.eased []) (he : e ∈ s.entries) (i : Nat) :
    passElement s.eased e i = ((passElement s e i).1, (passElement s e i).2.eased) := by
  rw [passElement, passElement, eased_elements]
  split
  · rfl
  · rw [allocIdle_eased h he]
    simp only
    split
    · rfl
    · rfl

theorem seekElement_eased (n : Nat) : ∀ {s : Fs} (i : Nat) (inner : Int), Space s.eased [] →
    e ∈ s.entries → seekElement n s.eased e i inner =
      ((seekElement n s e i inner).1, (seekElement n s e i inner).2.eased) := by
  induction n with
  | zero => exact fun _ _ _ _ => rfl
  | succ n ih =>
    intro s i inner h he
    rw [seekElement, seekElement, eased_maxDataSegSize]
    split
    · have hpass := passElement_grows (K := True) h he i
      rw [passElement_eased h he] at hpass ⊢
      simp only
      split
      · exact ih _ _ hpass.space (hpass.entries.symm ▸ he)
      · rfl
    · rfl

theorem writeElement_eased (n : Nat) : ∀ {s : Fs} (i : Nat) (data : List UInt8) (off remain : Int),
    Space s.eased [] → e ∈ s.entries → writeElement n s.eased e i data off remain =
      (writeElement n s e i data off remain).map fun r => (r.1, r.2.eased) := by
  induction n with
  | zero => exact fun _ _ _ _ _ _ => rfl
  | succ n ih =>
    intro s i data off remain h he
    rw [writeElement, writeElement, eased_maxDataSegSize]
    by_cases hcond : remain ≤ 0 ∨ off < 0 ∨ off ≥ s.maxDataSegSize
    · rw [if_pos hcond, if_pos hcond]
      rfl
    rw [if_neg hcond, if_neg hcond]
    obtain ⟨hgrows, hlt⟩ := elementAt_spec (K := True) h he i
    rw [elementAt_eased h he] at hgrows hlt ⊢
    generalize elementAt s e i = a at hgrows hlt ⊢
    simp only at hgrows hlt ⊢
    by_cases hok : nspSuccess a.1 = true
    · rw [if_pos hok, if_pos hok]
      have he₁ : e ∈ a.2.2.entries := hgrows.entries.symm ▸ he
      have hview := getD_mem (hlt hok)
      rw [eased_elements] at hview ⊢
      generalize (a.2.2.heads e).elements.getD a.2.1 0 = view at hview ⊢
      have hshare := grows_elementShare (K := True) hgrows.space he₁ hview off remain
        (by omega) (by rw [hgrows.maxDataSegSize]; exact (by omega : off < s.maxDataSegSize))
        (by omega)
      have heq : elementShare a.2.2.eased view off remain = elementShare a.2.2 view off remain :=
        rfl
      rw [heq] at hshare ⊢
      generalize elementShare a.2.2 view off remain = sh at hshare ⊢
      by_cases hlen : sh.1 > data.length
      · rw [if_pos hlen, if_pos hlen]
        rfl
      rw [if_neg hlen, if_neg hlen]
      have hbusy : view ∈ sh.2.busy := hshare.space.mem_busy he₁ (List.mem_cons_of_mem _ hview)
      have hwrite := grows_writeUserdata (K := True) hshare.space hbusy (data.take sh.1.toNat) off
        (fun _ hmem => absurd hmem (hgrows.space.element_notMem he₁ hview)) e
      simp only [eased_vol, ← eased_setVol] at hwrite ⊢
      split
      · rfl
      · refine (congrArg _ (ih _ _ _ _ hwrite.space he₁)).trans ?_
        rw [Option.map_map, Option.map_map]
        rfl
    · rw [if_neg hok, if_neg hok]
      rfl

theorem stretchHead_eased (s : Fs) (e size : Int) :
    stretchHead s.eased e size = (stretchHead s e size).eased := by
  rw [stretchHead, stretchHead, eased_vol]
  split
  · rfl
  · rfl

theorem writeFromHead_eased (h : Space s.eased []) (he : e ∈ s.entries) (data : List UInt8)
    (cpoff size : Int) : writeFromHead s.eased e data cpoff size =
      (writeFromHead s e data cpoff size).map fun r => (r.1, r.2.eased) := by
  rw [writeFromHead, writeFromHead, eased_maxDataSegSize, eased_vol]
  simp only [← eased_setVol]
  split
  · rfl
  have hwrite := grows_writeUserdata (K := False) h (h.mem_busy he List.mem_cons_self)
    (data.take (min (int32 (s.maxDataSegSize - cpoff)) size).toNat) cpoff (fun hK => hK.elim) e
  rw [eased_vol, ← eased_setVol] at hwrite
  split
  · rfl
  split
  · rfl
  · refine (congrArg _ (writeElement_eased _ _ _ _ _ hwrite.space he)).trans ?_
    rw [Option.map_map, Option.map_map]
    rfl

theorem writeBehindHead_eased (h : Space s.eased []) (he : e ∈ s.entries) (data : List UInt8)
    (cpoff size : Int) : writeBehindHead s.eased e data cpoff size =
      (writeBehindHead s e data cpoff size).map fun r => (r.1, r.2.eased) := by
  have hseek := seekElement_grows (K := True) (cpoff - s.maxDataSegSize).toNat 0
    (cpoff - s.maxDataSegSize) h he
  rw [writeBehindHead, writeBehindHead, eased_maxDataSegSize]
  rw [seekElement_eased _ _ _ h he] at hseek ⊢
  simp only
  split
  · rfl
  · exact writeElement_eased _ _ _ _ _ hseek.space (hseek.entries.symm ▸ he)

/-- **Writing** does the same to an entry that waits as to one in use. -/
theorem writeBody_eased (h : Space s.eased []) (he : e ∈ s.entries) (data : List UInt8)
    (offset size : Int) : writeBody s.eased e data offset size =
      (writeBody s e data offset size).map fun r => (r.1, r.2.eased) := by
  have hst := stretchHead_grows (K := True) h he
    (int32 (int32 (offset + maxEntryNameLength) + size)) (Lib.inInt32_int32 _)
  rw [writeBody, writeBody]
  rw [stretchHead_eased] at hst ⊢
  generalize stretchHead s e _ = s₁ at hst ⊢
  have he₁ : e ∈ s₁.entries := hst.entries.symm ▸ he
  by_cases hlt : int32 (offset + maxEntryNameLength) < s₁.maxDataSegSize
  · rw [if_pos hlt]
    exact (if_pos hlt).trans (writeFromHead_eased hst.space he₁ _ _ _)
  · rw [if_neg hlt]
    exact (if_neg hlt).trans (writeBehindHead_eased hst.space he₁ _ _ _)

/-! ## What a write leaves alone -/

/-- The states of the entries and the index by key are as they were. -/
structure SameStates (s s' : Fs) : Prop where
  named : s'.rootOfNamedEntriesTree = s.rootOfNamedEntriesTree
  state : ∀ e, (s'.heads e).state = (s.heads e).state
  hard : ∀ e, (s'.heads e).hardRemoveOnDetach = (s.heads e).hardRemoveOnDetach

theorem SameStates.refl (s : Fs) : SameStates s s := ⟨rfl, fun _ => rfl, fun _ => rfl⟩

theorem SameStates.trans {s'' : Fs} (h : SameStates s s') (h' : SameStates s' s'') :
    SameStates s s'' :=
  ⟨h'.named.trans h.named, fun e => (h'.state e).trans (h.state e),
    fun e => (h'.hard e).trans (h.hard e)⟩

theorem sameStates_setVol (s : Fs) (vol : Vol) : SameStates s (s.setVol vol) :=
  ⟨rfl, fun _ => rfl, fun _ => rfl⟩

theorem sameStates_setHead (s : Fs) (e : Int) {head : Head}
    (hstate : head.state = (s.heads e).state)
    (hhard : head.hardRemoveOnDetach = (s.heads e).hardRemoveOnDetach) :
    SameStates s (s.setHead e head) := by
  refine ⟨rfl, fun e' => ?_, fun e' => ?_⟩
  · by_cases hee : e' = e
    · rw [hee, setHead_heads_self, hstate]
    · rw [setHead_heads_ne s hee]
  · by_cases hee : e' = e
    · rw [hee, setHead_heads_self, hhard]
    · rw [setHead_heads_ne s hee]

theorem sameStates_freeElement (s : Fs) (e view : Int) : SameStates s (freeElement s e view) := by
  have hhead : SameStates s (s.setHead e { s.heads e with
      elements := (s.heads e).elements.erase view
      countOfElements := (s.heads e).countOfElements - 1 }) := sameStates_setHead s e rfl rfl
  rw [freeElement]
  split
  · exact hhead.trans (sameStates_setVol _ _)
  · exact hhead

theorem sameStates_freeElements (e : Int) (views : List Int) : ∀ s,
    SameStates s (views.foldl (fun s view => freeElement s e view) s) := by
  induction views with
  | nil => exact .refl
  | cons v views ih => exact fun s => (sameStates_freeElement s e v).trans (ih _)

theorem sameStates_linkViews (e : Int) (views : List Int) : ∀ last s,
    SameStates s (linkViews views last s e).2 := by
  induction views with
  | nil => exact fun _ => .refl
  | cons v views ih =>
    intro last s
    have halloc : SameStates s (allocElement s v e).2 := by
      rw [allocElement]
      split
      · exact (sameStates_setVol s _).trans (sameStates_setHead _ e rfl rfl)
      · exact sameStates_setVol s _
    rw [linkViews]
    split
    · exact halloc.trans ((sameStates_setVol _ _).trans (ih v _))
    · exact halloc

theorem sameStates_allocIdle (s : Fs) (e : Int) (n : Nat) :
    SameStates s (allocIdleElementsForHead s e n).2 := by
  have hchain : ∀ s' coverHead, SameStates s' (writeChain s' e coverHead).2 := by
    intro s' coverHead
    rw [writeChain]
    simp only
    split
    · exact sameStates_setVol _ _
    · exact sameStates_setVol _ _
  rw [allocIdleElementsForHead]
  split
  · exact .refl s
  split
  · have hlink := fun views => sameStates_linkViews e views
    simp only
    split
    · exact (sameStates_setVol s _).trans (sameStates_setVol _ _)
    · rename_i views hviews
      have hall := (sameStates_setVol s s.alloc.2.vol).trans ((sameStates_setVol s.alloc.2
        (viewAcquireIdleMore n s.alloc.2.vol).2).trans
          (hlink views ((s.alloc.2.heads e).elements.getLastD e) _))
      split
      · exact hall.trans (hchain _ _)
      · exact hall.trans (sameStates_freeElements e _ _)
  · exact sameStates_setVol s _

theorem sameStates_elementAt (s : Fs) (e : Int) (i : Nat) : SameStates s (elementAt s e i).2.2 := by
  rw [elementAt]
  split
  · exact .refl s
  · exact sameStates_allocIdle s e 1

theorem sameStates_seekElement (e : Int) (n : Nat) : ∀ s i inner,
    SameStates s (seekElement n s e i inner).2 := by
  induction n with
  | zero => exact fun s _ _ => .refl s
  | succ n ih =>
    intro s i inner
    have hpass : SameStates s (passElement s e i).2 := by
      rw [passElement]
      split
      · exact .refl s
      · simp only
        split
        · exact (sameStates_allocIdle s e 1).trans (sameStates_setVol _ _)
        · exact sameStates_allocIdle s e 1
    rw [seekElement]
    split
    · simp only
      split
      · exact hpass.trans (ih _ _ _)
      · exact hpass
    · exact .refl s

theorem sameStates_writeElement (e : Int) (n : Nat) : ∀ {s : Fs} {i : Nat} {data : List UInt8}
    {off remain r : Int}, writeElement n s e i data off remain = some (r, s') →
    SameStates s s' := by
  induction n with
  | zero =>
    intro s i data off remain r heq
    cases heq
    exact .refl _
  | succ n ih =>
    intro s i data off remain r heq
    rw [writeElement] at heq
    split at heq
    · cases heq
      exact .refl _
    simp only at heq
    split at heq
    · split at heq
      · cases heq
      have hhere := (sameStates_elementAt s e i).trans (sameStates_setVol _ (viewWriteUserdata
        (elementShare (elementAt s e i).2.2 (((elementAt s e i).2.2.heads e).elements.getD
          (elementAt s e i).2.1 0) off remain).2 (((elementAt s e i).2.2.heads e).elements.getD
          (elementAt s e i).2.1 0) (data.take (elementShare (elementAt s e i).2.2
          (((elementAt s e i).2.2.heads e).elements.getD (elementAt s e i).2.1 0) off
          remain).1.toNat)
          off).2)
      split at heq
      · cases heq
        exact hhere
      · obtain ⟨r', hr', hcase⟩ := Option.map_eq_some_iff.mp heq
        cases hcase
        exact hhere.trans (ih hr')
    · cases heq
      exact sameStates_elementAt s e i

/-- **Writing** does not change the state of any entry. -/
theorem writeBody_sameStates {data : List UInt8} {offset size r : Int}
    (heq : writeBody s e data offset size = some (r, s')) : SameStates s s' := by
  have hst : SameStates s (stretchHead s e
      (int32 (int32 (offset + maxEntryNameLength) + size))) := by
    rw [stretchHead]
    split
    · exact sameStates_setVol s _
    · exact .refl s
  rw [writeBody] at heq
  refine hst.trans ?_
  generalize stretchHead s e _ = s₁ at heq
  split at heq
  · rw [writeFromHead] at heq
    split at heq
    · cases heq
    simp only at heq
    split at heq
    · cases heq
      exact sameStates_setVol _ _
    split at heq
    · cases heq
    · obtain ⟨r', hr', hcase⟩ := Option.map_eq_some_iff.mp heq
      cases hcase
      exact (sameStates_setVol _ _).trans (sameStates_writeElement e _ hr')
  · have hseek := sameStates_seekElement e (int32 (offset + maxEntryNameLength) -
      s₁.maxDataSegSize).toNat s₁ 0 (int32 (offset + maxEntryNameLength) - s₁.maxDataSegSize)
    rw [writeBehindHead] at heq
    split at heq
    · cases heq
      exact hseek
    · exact hseek.trans (sameStates_writeElement e _ heq)

/-! ## Reading -/

/-- A read changes the cache at most. -/
structure Reads (s s' : Fs) : Prop where
  setIo : ∃ io, s.vol.io.Keeps io ∧ s' = s.setVol { s.vol with io }

theorem Reads.refl (s : Fs) : Reads s s := ⟨s.vol.io, .refl _, rfl⟩

theorem Reads.trans {s'' : Fs} (h : Reads s s') (h' : Reads s' s'') : Reads s s'' := by
  obtain ⟨io, hk, rfl⟩ := h.setIo
  obtain ⟨io', hk', rfl⟩ := h'.setIo
  exact ⟨io', hk.trans hk', rfl⟩

theorem reads_userdata (s : Fs) (v offset length : Int) :
    Reads s (s.setVol (viewReadUserdata s.vol v offset length).2.2) := by
  obtain ⟨io, heq, hk⟩ := readUserdata_keeps s.vol v offset length
  exact ⟨io, hk, by rw [heq]⟩

theorem readElement_reads (l : List Int) : ∀ (s : Fs) (elemOffset remain : Int),
    Reads s (readElement s l elemOffset remain).2.2 := by
  induction l with
  | nil => exact fun s _ _ => .refl s
  | cons v l ih =>
    intro s elemOffset remain
    rw [readElement]
    simp only
    split
    · exact .refl s
    split
    · exact reads_userdata s v _ _
    · exact (reads_userdata s v _ _).trans (ih _ _ _)

theorem readBytes_reads (s : Fs) (e cpoff size : Int) : Reads s (readBytes s e cpoff size).2.2 := by
  rw [readBytes]
  simp only
  split
  · exact .refl s
  split
  · split
    · exact reads_userdata s e _ _
    · exact (reads_userdata s e _ _).trans (readElement_reads _ _ _ _)
  · exact readElement_reads _ _ _ _

theorem wf_readUserdata {vol : Vol} (h : vol.Wf) (v offset length : Int) :
    (viewReadUserdata vol v offset length).2.2.Wf ∧
      (viewReadUserdata vol v offset length).2.2.busy = vol.busy := by
  obtain ⟨io, heq, hk⟩ := readUserdata_keeps vol v offset length
  rw [heq]
  exact ⟨h.setIo hk, rfl⟩

/-- A read of elements leaves the data on the disk alone. -/
theorem readElement_step (l : List Int) : ∀ {s : Fs}, s.vol.Wf → (∀ v ∈ l, v ∈ s.vol.busy) →
    ∀ elemOffset remain : Int,
      Step s.vol (readElement s l elemOffset remain).2.2.vol unchanged := by
  induction l with
  | nil => exact fun _ _ _ _ => .refl _
  | cons v l ih =>
    intro s h hl elemOffset remain
    have hv := hl v List.mem_cons_self
    rw [readElement]
    simp only
    split
    · exact .refl _
    split
    · exact step_readUserdata h hv _ _
    · generalize min remain (viewGetDataSegSize s.vol v - elemOffset) = cpsize
      obtain ⟨hwf, hbusy⟩ := wf_readUserdata h v elemOffset cpsize
      have hrest := ih (s := s.setVol (viewReadUserdata s.vol v elemOffset cpsize).2.2) hwf
        (fun w hw => hbusy ▸ hl w (List.mem_cons_of_mem _ hw)) 0
        (remain - (viewReadUserdata s.vol v elemOffset cpsize).1)
      exact (step_readUserdata h hv elemOffset cpsize).trans hrest

theorem seekRead_suffix (s : Fs) (l : List Int) : ∀ inner, (seekRead s l inner).1 <:+ l := by
  induction l with
  | nil => exact fun _ => List.suffix_rfl
  | cons v l ih =>
    intro inner
    rw [seekRead]
    split
    · exact (ih _).trans (List.suffix_cons v l)
    · exact List.suffix_rfl

/-- **A read** leaves the data on the disk alone. -/
theorem readBytes_step (h : Space s.eased []) (he : e ∈ s.entries) (cpoff size : Int) :
    Step s.vol (readBytes s e cpoff size).2.2.vol unchanged := by
  have hself : e ∈ s.vol.busy := h.mem_busy he List.mem_cons_self
  have hl : ∀ v ∈ (s.heads e).elements, v ∈ s.vol.busy := fun v hv =>
    h.mem_busy he (List.mem_cons_of_mem _ hv)
  rw [readBytes]
  simp only
  split
  · exact .refl _
  split
  · split
    · exact step_readUserdata h.vol hself _ _
    · generalize min (int32 (s.maxDataSegSize - cpoff))
        (min (int32 (viewGetDataSegSize s.vol e - cpoff)) size) = cpsize
      obtain ⟨hwf, hbusy⟩ := wf_readUserdata h.vol e cpoff cpsize
      have hrest := readElement_step (s.heads e).elements
        (s := s.setVol (viewReadUserdata s.vol e cpoff cpsize).2.2) hwf
        (fun w hw => hbusy ▸ hl w hw) 0 (min (int32 (viewGetDataSegSize s.vol e - cpoff)) size -
          (viewReadUserdata s.vol e cpoff cpsize).1)
      exact (step_readUserdata h.vol hself cpoff cpsize).trans hrest
  · exact readElement_step _ (s := s) h.vol (fun w hw => hl w ((seekRead_suffix s _ _).mem hw)) _ _

/-! ## What reading and writing change -/

/-- The counters and the state of a head are the same. -/
structure SameCounts (head head' : Head) : Prop where
  refcnt : head'.refcnt = head.refcnt
  ioRefcnt : head'.ioRefcnt = head.ioRefcnt
  state : head'.state = head.state
  hard : head'.hardRemoveOnDetach = head.hardRemoveOnDetach

theorem SameCounts.refl (head : Head) : SameCounts head head := ⟨rfl, rfl, rfl, rfl⟩

/-- A call has read or written: no counter, no state and no key has changed, and the chains have
grown at most. -/
structure Worked (s s' : Fs) : Prop where
  space : Space s'.eased []
  entries : s'.entries = s.entries
  named : s'.rootOfNamedEntriesTree = s.rootOfNamedEntriesTree
  fault : s'.fault = s.fault
  step : ∃ g, Step s.vol s'.vol g
  counts : ∀ x, SameCounts (s.heads x) (s'.heads x)
  key : ∀ x, (s'.heads x).key = (s.heads x).key
  chain : ∀ x, s.chain x <+: s'.chain x

theorem worked_readBytes (h : Space s.eased []) (he : e ∈ s.entries) (cpoff size : Int) :
    Worked s (readBytes s e cpoff size).2.2 := by
  have hstep := readBytes_step h he cpoff size
  obtain ⟨io, hk, heq⟩ := (readBytes_reads s e cpoff size).setIo
  rw [heq] at hstep ⊢
  exact ⟨h.setVol (h.vol.setIo hk) rfl hk.hard.clusterSize fun _ _ _ => .refl _, rfl, rfl,
    rfl, ⟨_, hstep⟩, fun _ => .refl _, fun _ => rfl, fun _ => List.prefix_rfl⟩

theorem readBytes_fsize (s : Fs) (e cpoff size : Int) :
    (readBytes s e cpoff size).2.2.vol.fsize = s.vol.fsize := by
  obtain ⟨io, hk, heq⟩ := (readBytes_reads s e cpoff size).setIo
  rw [heq]
  exact hk.hard.fsize

theorem writeBody_fsize_eased (h : Space s.eased []) (he : e ∈ s.entries)
    {u : List (List UInt8)} (m : Mirror s.vol u) (hle : s.vol.fsize ≤ 2 ^ 31) {data : List UInt8}
    {offset size r : Int} (hdemand : s.clustersToWrite e offset size ≤ s.vol.idle.length)
    (heq : writeBody s e data offset size = some (r, s')) : s'.vol.fsize = s.vol.fsize := by
  have heased := writeBody_eased h he data offset size
  rw [heq, Option.map_some] at heased
  have hsame := writeBody_fsize (s := s.eased) h he m hle hdemand heased
  exact hsame

theorem worked_writeBody (h : Space s.eased []) (he : e ∈ s.entries) {data : List UInt8}
    {offset size r : Int} (heq : writeBody s e data offset size = some (r, s')) :
    Worked s s' := by
  have heased := writeBody_eased h he data offset size
  rw [heq, Option.map_some] at heased
  have hgrows := writeBody_grows h he heased
  have hstates := writeBody_sameStates heq
  obtain ⟨l, n, hl, hheads⟩ := hgrows.heads
  have hhead : ∀ x, x ≠ e → s'.eased.heads x = s.eased.heads x := fun x hne => by
    rw [hheads, Function.update_of_ne hne]
  have hself : s'.eased.heads e =
      { s.eased.heads e with elements := l, countOfElements := n } := by
    rw [hheads, Function.update_self]
  obtain ⟨g, hstep, -⟩ := hgrows.step
  refine ⟨hgrows.space, hgrows.entries, hstates.named, hgrows.fault, ⟨g, hstep⟩,
    fun x => ⟨?_, ?_, hstates.state x, hstates.hard x⟩, fun x => ?_, fun x => ?_⟩
  · show (s'.eased.heads x).refcnt = (s.eased.heads x).refcnt
    by_cases hx : x = e
    · rw [hx, hself]
    · rw [hhead x hx]
  · show (s'.eased.heads x).ioRefcnt = (s.eased.heads x).ioRefcnt
    by_cases hx : x = e
    · rw [hx, hself]
    · rw [hhead x hx]
  · show (s'.eased.heads x).key = (s.eased.heads x).key
    by_cases hx : x = e
    · rw [hx, hself]
    · rw [hhead x hx]
  · rw [Fs.chain, Fs.chain, List.cons_prefix_cons]
    refine ⟨rfl, ?_⟩
    show (s.eased.heads x).elements <+: (s'.eased.heads x).elements
    by_cases hx : x = e
    · rw [hx, hself]
      exact hl
    · exact (hhead x hx).symm ▸ List.prefix_rfl

/-! ## Creating -/

theorem giveBack_eased (s : Fs) (status view : Int) : giveBack s.eased status view =
    ((giveBack s status view).1, (giveBack s status view).2.1,
    (giveBack s status view).2.2.eased) :=
  rfl

theorem allocHead_eased (s : Fs) (view : Int) (key : Option (List UInt8)) :
    allocHead s.eased view key = ((allocHead s view key).1, (allocHead s view key).2.eased) := by
  rw [allocHead, allocHead]
  by_cases h : s.alloc.1
  · rw [if_pos h]
    refine (if_pos (show s.eased.alloc.1 from h)).trans (Prod.ext rfl ?_)
    simp only [eased_setHead]
    rfl
  · rw [if_neg h]
    exact if_neg (show ¬s.eased.alloc.1 from h)

/-- **Creating** does not look at the entries that wait. -/
theorem insertNew_eased (s : Fs) (key : Option (List UInt8)) : insertNew s.eased key =
    ((insertNew s key).1, (insertNew s key).2.1, (insertNew s key).2.2.eased) := by
  rw [insertNew, insertNew, eased_vol]
  cases hacq : (viewAcquireIdle s.vol).1 with
  | none => rfl
  | some view =>
    simp only [← eased_setVol, allocHead_eased]
    generalize allocHead (s.setVol (viewAcquireIdle s.vol).2) view key = a
    by_cases ha : a.1 = true
    · rw [if_pos ha, if_pos ha, eased_vol]
      by_cases hd : nspSuccess (viewSetHeadDataSegSize a.2.vol view maxEntryNameLength).1 = true
      · rw [if_pos hd, if_pos hd]
        show (if nspSuccess (viewWriteUserdata _ view (a.2.heads view).key 0).1 then
          (_ : Int × Int × Fs) else _) = _
        generalize hw' : viewWriteUserdata _ view (a.2.heads view).key 0 = w
        by_cases hw : nspSuccess w.1 = true
        · rw [if_pos hw, if_pos hw]
          refine Prod.ext rfl (Prod.ext rfl ?_)
          show insertHead (a.2.eased.setVol
              (viewWriteUserdata _ view (a.2.heads view).key 0).2) view =
            (insertHead (a.2.setVol w.2) view).eased
          rw [hw', insertHead_eased, eased_setVol]
        · rw [if_neg hw, if_neg hw]
          show giveBack (a.2.eased.setVol (viewWriteUserdata _ view (a.2.heads view).key 0).2)
            (viewWriteUserdata _ view (a.2.heads view).key 0).1 view = _
          rw [hw', ← eased_setVol]
          exact giveBack_eased _ _ _
      · rw [if_neg hd, if_neg hd]
        exact giveBack_eased _ _ _
    · rw [if_neg ha, if_neg ha]
      exact giveBack_eased _ _ _

/-- The head of a new entry. -/
def Head.fresh (key : List UInt8) : Head := ⟨[], 0, 0, 0, .normal, false, key⟩

theorem allocHead_cases (s : Fs) (v : Int) (key : Option (List UInt8)) :
    (∃ vol k, allocHead s v key = (true, (s.setVol vol).setHead v (.fresh k))) ∨
      ∃ vol, allocHead s v key = (false, s.setVol vol) := by
  rw [allocHead]
  split
  · exact .inl ⟨_, _, rfl⟩
  · exact .inr ⟨_, rfl⟩

/-- What creating does to the managers: a head is entered, or nothing is. -/
theorem insertNew_cases (s : Fs) (key : Option (List UInt8)) :
    (∃ v vol k, (viewAcquireIdle s.vol).1 = some v ∧ insertNew s key =
      (0, v, insertHead ((s.setVol vol).setHead v (.fresh k)) v)) ∨
    ∃ status vol, nspSuccess status = false ∧ (insertNew s key = (status, 0, s.setVol vol) ∨
      ∃ v head, (viewAcquireIdle s.vol).1 = some v ∧
        insertNew s key = (status, 0, (s.setVol vol).setHead v head)) := by
  rw [insertNew]
  cases hacq : (viewAcquireIdle s.vol).1 with
  | none => exact .inr ⟨eNospc, _, by decide, .inl rfl⟩
  | some v =>
    simp only
    rcases allocHead_cases (s.setVol (viewAcquireIdle s.vol).2) v key with ⟨vol, k, ha⟩ | ⟨vol, ha⟩
    · rw [ha]
      simp only [if_true]
      split
      · split
        · exact .inl ⟨v, _, k, rfl, rfl⟩
        · exact .inr ⟨_, _, Bool.eq_false_iff.mpr ‹_›, .inr ⟨v, _, rfl, rfl⟩⟩
      · exact .inr ⟨_, _, Bool.eq_false_iff.mpr ‹_›, .inr ⟨v, _, rfl, rfl⟩⟩
    · rw [ha]
      exact .inr ⟨eNomem, _, by decide, .inl rfl⟩

/-- A new entry, beside entries that wait. -/
structure Entered (s s' : Fs) (v : Int) (key : List UInt8) : Prop where
  inserted : Inserted s.eased s'.eased v key
  entered : ∃ vol, s' = insertHead ((s.setVol vol).setHead v (.fresh key)) v

/-- Nothing has happened to the entries, some of which may wait. -/
structure Spared (s s' : Fs) : Prop where
  kept : Kept s.eased s'.eased
  heads : ∀ e ∈ s.entries, s'.heads e = s.heads e
  named : s'.rootOfNamedEntriesTree = s.rootOfNamedEntriesTree

theorem insertNew_spec_eased (h : Space s.eased []) (key : Option (List UInt8)) :
    (∃ v s', insertNew s key = (0, v, s') ∧ Entered s s' v (newKey key)) ∨
      ∃ r s', insertNew s key = (r, 0, s') ∧ r < 0 ∧ Spared s s' := by
  have hnew : ∀ v, (viewAcquireIdle s.vol).1 = some v → v ∉ s.entries := by
    intro v hacq hmem
    rcases acquireIdle_spec h.vol with ⟨v', vol, heq, ha⟩ | ⟨heq, -⟩
    · rw [eased_vol] at heq
      rw [heq] at hacq
      cases hacq
      exact ha.notMem (h.mem_busy hmem List.mem_cons_self)
    · rw [eased_vol] at heq
      rw [heq] at hacq
      cases hacq
  have hspec := insertNew_spec h key
  rw [insertNew_eased] at hspec
  rcases insertNew_cases s key with ⟨v, vol, k, hacq, heq⟩ | ⟨status, vol, hno, hcase⟩
  · rw [heq] at hspec
    rcases hspec with ⟨v', s', hs, hins⟩ | ⟨r, s', hs, hneg, -⟩
    · simp only [Prod.mk.injEq, true_and] at hs
      obtain ⟨rfl, rfl⟩ := hs
      have hkey : k = newKey key := by
        have hhead := congrArg Head.key hins.head
        rw [insertHead_eased, insertHead_heads, eased_setHead, setHead_heads_self] at hhead
        exact hhead
      exact .inl ⟨v, _, heq, hins, vol, by rw [hkey]⟩
    · have hr : (0 : Int) = r := congrArg Prod.fst hs
      omega
  · have hfail : ∀ s', insertNew s key = (status, 0, s') → Kept s.eased s'.eased := by
      intro s' hs
      rw [hs] at hspec
      rcases hspec with ⟨v', s'', hs, -⟩ | ⟨r, s'', hs, -, hkept⟩
      · cases hs
        cases hno
      · cases hs
        exact hkept
    have hneg : status < 0 := by simpa [nspSuccess] using hno
    rcases hcase with heq | ⟨v, head, hacq, heq⟩
    · exact .inr ⟨status, _, heq, hneg, hfail _ heq, fun _ _ => rfl, rfl⟩
    · refine .inr ⟨status, _, heq, hneg, hfail _ heq, fun e he => ?_, rfl⟩
      exact setHead_heads_ne _ (ne_of_mem_of_not_mem he (hnew v hacq)) head

/-! ## References -/

/-- A head with one reference less, for input and output or not. -/
def Head.drop (head : Head) (io : Int) : Head :=
  { head with refcnt := head.refcnt - 1, ioRefcnt := head.ioRefcnt - io }

@[simp] theorem Head.drop_bump (head : Head) (io : Int) : (head.bump io).drop io = head := by
  rw [drop, bump]
  simp only [Int.add_sub_cancel]

/-- The last reference to an entry that waits frees it. -/
def giveUp (s : Fs) (e : Int) (head : Head) : Fs :=
  if head.refcnt = 0 ∧ head.state = .closeWait then freeHead (s.setHead e head) e
  else s.setHead e head

theorem dereferenceHead_normal_eq (h₁ : 0 < (s.heads e).refcnt) (h₂ : 0 < (s.heads e).ioRefcnt) :
    dereferenceHead s e .normal = some (giveUp s e ((s.heads e).drop 1)) := by
  have hstate : ¬(EntryState.normal = .busy ∧ (s.heads e).state = .busy) := by
    rintro ⟨h, _⟩
    cases h
  rw [dereferenceHead, if_neg (by omega), giveUp]
  simp only [if_true, if_neg hstate, setHead_heads_self]
  split
  · rw [if_pos ‹_›]
    rfl
  · rw [if_neg ‹_›]
    rfl

theorem dereferenceHead_opened_eq (h₁ : 0 < (s.heads e).refcnt) :
    dereferenceHead s e .opened = some (giveUp s e ((s.heads e).drop 0)) := by
  have hno : ¬EntryState.opened = .normal := by decide
  have hstate : ¬(EntryState.opened = .busy ∧ (s.heads e).state = .busy) := by
    rintro ⟨h, _⟩
    cases h
  rw [dereferenceHead, if_neg (by rintro (h | ⟨h, _⟩); omega; exact hno h), giveUp, Head.drop,
    Int.sub_zero]
  simp only [if_neg hno, if_neg hstate, setHead_heads_self]
  split
  · rfl
  · rfl

/-- An entry that waits. -/
def Head.waiting (head : Head) : Head :=
    { head with state := .closeWait, hardRemoveOnDetach := true }

@[simp] theorem Head.eased_waiting (head : Head) : head.waiting.eased = head.eased := rfl

/-- The end of `evfs_entries_hard_delete`, up to its last call: the entry waits, because of the
reference that the call has taken. -/
theorem tryDelete_eq (h : 0 < (s.heads e).refcnt) :
    tryDeleteHead (s.setHead e { s.heads e with hardRemoveOnDetach := true }) e .normal =
      s.setHead e (s.heads e).waiting := by
  have hno : ¬(EntryState.normal = .mandatory ∧ (s.heads e).ioRefcnt = 0) := by
    rintro ⟨h, _⟩
    cases h
  rw [tryDeleteHead]
  simp only [setHead_heads_self, setHead_setHead, if_neg hno]
  rw [if_neg (by omega)]
  rfl

/-! ## Freeing -/

/-- The clusters are given back, one after the other. -/
def moveAll (vol : Vol) (views : List Int) : Vol :=
  views.foldl (fun vol view => (viewMoveToIdle vol view).2) vol

theorem moveAll_keeps (views : List Int) : ∀ vol : Vol, vol.io.Keeps (moveAll vol views).io := by
  induction views with
  | nil => exact fun vol => .refl _
  | cons v views ih => exact fun vol => (moveToIdle_keeps vol v).trans (ih _)

theorem freeElement_foldl_hard (views : List Int) : ∀ {s : Fs},
    (s.heads e).hardRemoveOnDetach = true → ∃ head, head.hardRemoveOnDetach = true ∧
      views.foldl (fun s view => freeElement s e view) s =
        (s.setHead e head).setVol (moveAll s.vol views) := by
  induction views with
  | nil =>
    intro s hr
    refine ⟨s.heads e, hr, ?_⟩
    rw [Fs.setHead, Function.update_eq_self]
    rfl
  | cons v views ih =>
    intro s hr
    have hfree := freeElement_of_hard hr v
    obtain ⟨head, hhead, heq⟩ := ih (s := freeElement s e v) (by
      rw [hfree]
      exact (congrArg Head.hardRemoveOnDetach (setHead_heads_self ..)).trans hr)
    refine ⟨head, hhead, ?_⟩
    rw [List.foldl_cons, heq, hfree]
    show (((s.setHead e _).setHead e head)).setVol _ = _
    rw [setHead_setHead]
    rfl

/-- An entry leaves with its clusters. -/
theorem freeHead_hard (hr : (s.heads e).hardRemoveOnDetach = true) : ∃ head, freeHead s e =
    ((detachHead s e).setHead e head).setVol (moveAll s.vol ((s.heads e).elements ++ [e])) := by
  obtain ⟨head, hhead, heq⟩ := freeElement_foldl_hard (e := e) (s.heads e).elements
    (s := detachHead s e) (by rw [detachHead_heads]; exact hr)
  refine ⟨head, ?_⟩
  rw [freeHead, freeElements, detachHead_heads, heq, detachHead_vol]
  have hself : (((detachHead s e).setHead e head).setVol
      (moveAll s.vol (s.heads e).elements)).heads e =
      head := setHead_heads_self ..
  simp only [hself, hhead, if_true]
  rw [moveAll, moveAll, List.foldl_append]
  rfl

theorem freeHead_setHead_hard (head₀ : Head) (hkey : head₀.key = (s.heads e).key)
    (hr : head₀.hardRemoveOnDetach = true) : ∃ head, freeHead (s.setHead e head₀) e =
      ((detachHead s e).setHead e head).setVol (moveAll s.vol (head₀.elements ++ [e])) := by
  obtain ⟨head, heq⟩ := freeHead_hard (s := s.setHead e head₀) (e := e)
    (by rw [setHead_heads_self]; exact hr)
  rw [detachHead_setHead hkey, setHead_setHead, setHead_heads_self] at heq
  exact ⟨head, heq⟩

/-- **Freeing** an entry that waits. -/
theorem freeHead_eased (h : Space s.eased []) (he : e ∈ s.entries)
    (hr : (s.heads e).hardRemoveOnDetach = true) : Deleted s.eased (freeHead s e).eased e := by
  have hdel := freeHead_spec h he (show (s.heads e).elements = _ from rfl) rfl hr
  obtain ⟨head, heq⟩ := freeHead_hard hr
  obtain ⟨head', heq'⟩ := freeHead_setHead_hard (s := s.eased) (e := e) (s.heads e) rfl hr
  have hsame : (freeHead s e).eased =
      (freeHead (s.eased.setHead e (s.heads e)) e).setHead e head.eased := by
    rw [heq, heq', eased_setVol, eased_setHead, detachHead_eased]
    show _ = (((detachHead s.eased e).setHead e head').setHead e head.eased).setVol _
    rw [setHead_setHead]
    rfl
  have hgone : e ∉ (freeHead (s.eased.setHead e (s.heads e)) e).entries := by
    rw [hdel.entries]
    exact h.nodup_entries.not_mem_erase
  rw [hsame]
  refine ⟨hdel.space.setHead (fun hmem => absurd hmem hgone) fun hmem => absurd hmem hgone,
    hdel.entries, hdel.maxDataSegSize, hdel.fault, hdel.fsize,
    fun e' hne => ?_, hdel.step⟩
  rw [setHead_heads_ne _ hne, hdel.heads e' hne]

end Evfs

end LibNax
