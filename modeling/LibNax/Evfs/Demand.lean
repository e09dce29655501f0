import LibNax.Evfs.Accounting

/-!
# How many clusters a write takes

`evfs_view_acquire_idle` makes the file larger where no view is idle, and `evfs_cache_expand` reads
its task after it was freed.  Whether a write comes to that can be told before it starts: what it
copies to every element follows from the number of bytes that the element has in use, and behind the
last element it takes one cluster after the other.

* `clustersBehind`, `Fs.clustersToWrite` — the number of clusters, from the sizes in the headers.
* `writeElement_fsize`, `seekElement_spare` — the two loops take no more than that.
* `writeData_fsize`, `createOne_fsize` — where so many views are idle the file stays as large as it
  is.
-/

set_option autoImplicit false

namespace LibNax

namespace Evfs

open Lib (int32)

variable {s s' : Fs} {e v : Int}

/-! ## Counting -/

/-- What the elements of an entry have in use, by their headers. -/
def Fs.sizes (s : Fs) (e : Int) : List Int := (s.heads e).elements.map (viewGetDataSegSize s.vol)

/-- How many clusters a write takes that starts `off` bytes behind the start of an element, where
the elements from there on have `sizes` in use, of `segSize` bytes.  It passes the elements in front
of its offset, copies to the ones that are there, and stops where it would run over the end of
one. -/
def clustersBehind (segSize : Int) : List Int → Int → Int → Int
  | [], off, size =>
    if off < 0 then 0 else if size ≤ 0 then off / segSize else (off + size + segSize - 1) / segSize
  | used :: sizes, off, size =>
    if off ≥ segSize then
      clustersBehind segSize sizes (off - if used > 0 then used else segSize) size
    else if off < 0 ∨ size ≤ 0 then 0
    else
      let cpsize := min size (if used > 0 then used else segSize - off)
      if off + cpsize > segSize ∨ size = cpsize then 0
      else clustersBehind segSize sizes 0 (size - cpsize)

/-- How many clusters `evfs_entries_write_data` takes. -/
def Fs.clustersToWrite (s : Fs) (e offset size : Int) : Int :=
  let cpoff := int32 (offset + maxEntryNameLength)
  if cpoff < s.maxDataSegSize then
    clustersBehind s.maxDataSegSize (s.sizes e) 0
      (if cpoff < 0 then size else size - min (s.maxDataSegSize - cpoff) size)
  else clustersBehind s.maxDataSegSize (s.sizes e) (cpoff - s.maxDataSegSize) size

section Count

variable {D off size : Int}

theorem ediv_sub_self {x : Int} (hD : 0 < D) : (x - D) / D = x / D - 1 := by
  have h := Int.add_mul_ediv_right x (-1) (by omega : D ≠ 0)
  rwa [Int.neg_mul, Int.one_mul, ← Int.sub_eq_add_neg, ← Int.sub_eq_add_neg] at h

/-- Behind the last element a write takes a cluster. -/
theorem clustersBehind_nil_pos (hD : 0 < D) (hoff : 0 ≤ off) (hpos : 0 < size ∨ D ≤ off) :
    1 ≤ clustersBehind D [] off size := by
  rw [clustersBehind, if_neg (by omega)]
  split
  · exact Int.le_ediv_of_mul_le hD (by omega)
  · exact Int.le_ediv_of_mul_le hD (by omega)

/-- It passes a cluster, and one cluster less is left. -/
theorem clustersBehind_nil_pass (hD : 0 < D) (hoff : D ≤ off) :
    clustersBehind D [] (off - D) size = clustersBehind D [] off size - 1 := by
  rw [clustersBehind, clustersBehind, if_neg (by omega : ¬off - D < 0),
    if_neg (by omega : ¬off < 0)]
  by_cases hsize : size ≤ 0
  · rw [if_pos hsize, if_pos hsize]
    exact ediv_sub_self hD
  · rw [if_neg hsize, if_neg hsize, ← ediv_sub_self hD]
    congr 1
    omega

/-- It fills a cluster, and one cluster less is left. -/
theorem clustersBehind_nil_fill (hD : 0 < D) (hoff : 0 ≤ off) (hlt : off < D)
    (hsize : D - off < size) :
    clustersBehind D [] 0 (size - (D - off)) = clustersBehind D [] off size - 1 := by
  rw [clustersBehind, clustersBehind, if_neg (by omega), if_neg (by omega), if_neg (by omega),
    if_neg (by omega), ← ediv_sub_self hD]
  congr 1
  omega

/-- Where nothing is left no cluster is taken. -/
theorem clustersBehind_done (hD : 0 < D) (sizes : List Int) : clustersBehind D sizes 0 0 = 0 := by
  cases sizes with
  | nil => exact Int.zero_ediv D
  | cons used sizes =>
    rw [clustersBehind, if_neg (by omega)]
    exact if_pos (.inr le_rfl)

/-- A write that stays inside of what is in use takes no cluster. -/
theorem clustersBehind_inside (sizes : List Int) : ∀ {off size : Int}, 0 ≤ off → 0 < size →
    (∀ used ∈ sizes, 0 < used ∧ used ≤ D) → off + size ≤ sizes.sum →
      clustersBehind D sizes off size ≤ 0 := by
  induction sizes with
  | nil =>
    intro off size hoff hsize _ hin
    rw [List.sum_nil] at hin
    omega
  | cons used sizes ih =>
    intro off size hoff hsize hused hin
    obtain ⟨hpos, hle⟩ := hused used List.mem_cons_self
    have hrest : ∀ used ∈ sizes, 0 < used ∧ used ≤ D := fun u hu =>
      hused u (List.mem_cons_of_mem _ hu)
    rw [List.sum_cons] at hin
    rw [clustersBehind]
    simp only [if_pos hpos]
    split
    · exact ih (by omega) hsize hrest (by omega)
    split
    · exact le_rfl
    split
    · exact le_rfl
    · exact ih le_rfl (by omega) hrest (by omega)

/-- Where all elements are in use in full, a write takes the clusters that are missing. -/
theorem clustersBehind_full (hD : 0 < D) {k : Nat} (n : Nat) : ∀ {off size : Int}, 0 ≤ off →
    0 < size → off + size ≤ D * (n + k : Nat) →
      clustersBehind D (List.replicate n D) off size ≤ k := by
  induction n with
  | zero =>
    intro off size hoff hsize hend
    rw [Nat.zero_add] at hend
    rw [List.replicate_zero, clustersBehind, if_neg (by omega), if_neg (by omega)]
    refine Int.le_of_lt_add_one (Int.ediv_lt_of_lt_mul hD ?_)
    rw [Int.add_mul, Int.mul_comm, Int.one_mul]
    omega
  | succ n ih =>
    intro off size hoff hsize hend
    have hmul : D * (n + 1 + k : Nat) = D * (n + k : Nat) + D := by
      rw [Nat.add_right_comm, Int.natCast_add (n + k), Int.mul_add]
      exact congrArg (_ + ·) (Int.mul_one D)
    rw [List.replicate_succ, clustersBehind]
    simp only [if_pos hD]
    split
    · exact ih (by omega) hsize (by omega)
    split
    · exact Int.natCast_nonneg k
    split
    · exact Int.natCast_nonneg k
    · exact ih le_rfl (by omega) (by omega)

end Count

/-! ## A round of the loops -/

/-- The element at a position, with the sizes of those behind it: it is there, or one idle view was
taken for it. -/
theorem elementAt_spare (h : Space s []) (he : e ∈ s.entries) (i : Nat) :
    (i < (s.heads e).elements.length ∧ elementAt s e i = (0, i, s)) ∨
    ((s.heads e).elements.length ≤ i ∧ elementAt s e i = (eNomem, (s.heads e).elements.length - 1, s)) ∨
    ∃ s₁ w, (s.heads e).elements.length ≤ i ∧ Appended s s₁ e w ∧
      elementAt s e i = ((elementAt s e i).1, (s.heads e).elements.length, s₁) := by
  rw [elementAt]
  split
  · exact .inl ⟨‹_›, rfl⟩
  · rename_i hlt
    rcases allocIdle_one h he with ⟨w, hok, happ⟩ | ⟨heq, -, -⟩
    · refine .inr (.inr ⟨_, w, by omega, happ, ?_⟩)
      simp only [happ.length_elements, Nat.add_sub_cancel]
    · rw [heq]
      exact .inr (.inl ⟨by omega, rfl⟩)

/-- The sizes of elements whose headers stay. -/
theorem sizes_drop {vol : Vol} {n : Nat}
    (hsame : ∀ w ∈ (s.heads e).elements.drop n,
      (vol.cluster w).dataSegSize = (s.vol.cluster w).dataSegSize) :
    ((s.setVol vol).sizes e).drop n = (s.sizes e).drop n := by
  rw [Fs.sizes, Fs.sizes, ← List.map_drop, ← List.map_drop]
  refine List.map_congr_left fun w hw => ?_
  show elementSize (vol.cluster w).dataSegSize = elementSize (s.vol.cluster w).dataSegSize
  rw [hsame w hw]

theorem sizes_drop_of_le {n : Nat} (h : (s.heads e).elements.length ≤ n) :
    (s.sizes e).drop n = [] := by
  rw [Fs.sizes, ← List.map_drop, List.drop_eq_nil_of_le h]
  rfl

theorem sizes_drop_cons {i : Nat} (h : i < (s.heads e).elements.length) :
    (s.sizes e).drop i = viewGetDataSegSize s.vol ((s.heads e).elements.getD i 0) ::
      (s.sizes e).drop (i + 1) := by
  rw [Fs.sizes, ← List.map_drop, ← List.map_drop, List.drop_eq_getElem_cons h, List.map_cons,
    List.getD_eq_getElem?_getD, List.getElem?_eq_getElem h]
  rfl

theorem getD_notMem_drop {l : List Int} (hl : l.Nodup) {i : Nat} (hi : i < l.length) {w : Int}
    (hw : w ∈ l.drop (i + 1)) : w ≠ l.getD i 0 := by
  rw [List.getD_eq_getElem?_getD, List.getElem?_eq_getElem hi, Option.getD_some]
  have hnd : (l.drop i).Nodup := hl.sublist (List.drop_sublist i l)
  rw [List.drop_eq_getElem_cons hi, List.nodup_cons] at hnd
  rintro rfl
  exact hnd.1 hw

/-- What is written to an element, and its size, leaves the sizes of the others alone. -/
theorem sizes_round (h : Space s []) (he : e ∈ s.entries) {i : Nat}
    (hi : i < (s.heads e).elements.length) (off remain : Int) (buffer : List UInt8) :
    let r := elementShare s ((s.heads e).elements.getD i 0) off remain
    let w := viewWriteUserdata r.2 ((s.heads e).elements.getD i 0) buffer off
    ((s.setVol w.2).sizes e).drop (i + 1) = (s.sizes e).drop (i + 1) ∧ w.2.fsize = s.vol.fsize ∧
      w.2.idle = s.vol.idle := by
  have hnd := (List.nodup_cons.mp (h.nodup_chain he)).2
  simp only
  obtain ⟨io, heq, hk⟩ := writeUserdata_keeps
    (elementShare s ((s.heads e).elements.getD i 0) off remain).2
    ((s.heads e).elements.getD i 0) buffer off
  rw [heq]
  refine ⟨sizes_drop fun w hw => ?_, hk.hard.fsize.trans ?_, ?_⟩
  · have hne := getD_notMem_drop hnd hi hw
    show ((elementShare s _ off remain).2.cluster w).dataSegSize = _
    rw [elementShare]
    split
    · rfl
    · exact (putDataSegSize_size ..).trans (if_neg hne)
  · show (elementShare s _ off remain).2.fsize = _
    rw [elementShare]
    split
    · rfl
    · exact putDataSegSize_fsize ..
  · show (elementShare s _ off remain).2.idle = _
    rw [elementShare]
    split
    · rfl
    · exact putDataSegSize_idle ..

/-- The share of an element. -/
theorem elementShare_fst (s : Fs) (view off remain : Int) : (elementShare s view off remain).1 =
    min remain (if viewGetDataSegSize s.vol view > 0 then viewGetDataSegSize s.vol view
      else s.maxDataSegSize - off) := by
  rw [elementShare]
  split
  · rfl
  · rfl

/-- The element that a round writes to is there or was idle, and what is left needs no more than what
is idle then. -/
theorem elementAt_counted (h : Space s []) (he : e ∈ s.entries) {i : Nat} {off remain : Int}
    (hoff : 0 ≤ off) (hlt : off < s.maxDataSegSize) (hremain : 0 < remain)
    (hdemand : clustersBehind s.maxDataSegSize ((s.sizes e).drop i) off remain ≤ s.vol.idle.length)
    {a : Int × Nat × Fs} (heq : elementAt s e i = a) {cp : Int}
    (hcp : cp = (elementShare a.2.2 ((a.2.2.heads e).elements.getD a.2.1 0) off remain).1) :
    a.2.2.vol.fsize = s.vol.fsize ∧ (nspSuccess a.1 = true → off + cp ≤ s.maxDataSegSize →
      remain ≠ cp → clustersBehind s.maxDataSegSize ((a.2.2.sizes e).drop (a.2.1 + 1)) 0
        (remain - cp) ≤ a.2.2.vol.idle.length) := by
  have hD := h.maxDataSegSize_bounds.1
  rcases elementAt_spare h he i with ⟨hi, hat⟩ | ⟨-, hat⟩ | ⟨s₁, w, hi, happ, hat⟩
  · rw [← heq, hat] at hcp ⊢
    refine ⟨rfl, fun _ hle hne => ?_⟩
    rw [elementShare_fst] at hcp
    rw [sizes_drop_cons hi, clustersBehind, if_neg (by omega), if_neg (by omega)] at hdemand
    simp only [← hcp] at hdemand
    rwa [if_neg (by omega)] at hdemand
  · have hno : nspSuccess eNomem = false := by decide
    rw [← heq, hat]
    exact ⟨rfl, fun hok => by rw [hno] at hok; cases hok⟩
  · rw [hat] at heq
    rw [sizes_drop_of_le hi] at hdemand
    have hpos := clustersBehind_nil_pos (D := s.maxDataSegSize) (by omega) hoff (.inl hremain)
    obtain ⟨hfsize, hidle⟩ := happ.spare fun hnil => by
      rw [hnil] at hdemand
      exact absurd hdemand (by simp only [List.length_nil]; omega)
    rw [← heq] at hcp ⊢
    refine ⟨hfsize, fun _ hle hne => ?_⟩
    have hview : (s₁.heads e).elements.getD (s.heads e).elements.length 0 = w := by
      rw [List.getD_eq_getElem?_getD, happ.getElem?_elements]
      rfl
    -- a new element has nothing in use
    have hzero : viewGetDataSegSize s₁.vol w = 0 := by
      rw [viewGetDataSegSize, happ.size_self]
      rfl
    rw [elementShare_fst, hview, hzero, if_neg (by omega), happ.maxDataSegSize] at hcp
    have hfill := @clustersBehind_nil_fill s.maxDataSegSize off remain (by omega) hoff hlt (by omega)
    rw [sizes_drop_of_le (by rw [happ.length_elements]), hcp, min_eq_right (by omega), hfill]
    show _ ≤ (s₁.vol.idle.length : Int)
    omega

/-- **Writing to the elements** takes no more clusters than were counted. -/
theorem writeElement_fsize (n : Nat) : ∀ {s s' : Fs} {i : Nat} {data : List UInt8}
    {off remain r : Int}, Space s [] → e ∈ s.entries →
      writeElement n s e i data off remain = some (r, s') →
      clustersBehind s.maxDataSegSize ((s.sizes e).drop i) off remain ≤ s.vol.idle.length →
        s'.vol.fsize = s.vol.fsize := by
  induction n with
  | zero =>
    intro s s' i data off remain r _ _ heq _
    cases heq
    rfl
  | succ n ih =>
    intro s s' i data off remain r h he heq hdemand
    rw [writeElement] at heq
    split at heq
    · cases heq
      rfl
    rename_i hcond
    obtain ⟨hgrows, hlt⟩ := elementAt_spec (K := True) h he i
    obtain ⟨hfsize, hleft⟩ := elementAt_counted h he (by omega) (by omega) (by omega) hdemand rfl rfl
    have hmax := hgrows.maxDataSegSize
    generalize elementAt s e i = a at heq hgrows hlt hfsize hleft hmax
    simp only at heq
    split at heq
    · rename_i hok
      have hleft := hleft hok
      have he₁ : e ∈ a.2.2.entries := hgrows.entries ▸ he
      have hview := getD_mem (hlt hok)
      have hround := sizes_round hgrows.space he₁ (hlt hok) off remain
      have hshare := grows_elementShare (K := True) hgrows.space he₁ hview off remain
        (by omega) (by rw [hgrows.maxDataSegSize]; omega) (by omega)
      have hmem := hgrows.space.element_notMem he₁ hview
      have hpos : 0 < (elementShare a.2.2 ((a.2.2.heads e).elements.getD a.2.1 0) off remain).1 := by
        rw [elementShare_fst]
        split
        · omega
        · omega
      generalize (a.2.2.heads e).elements.getD a.2.1 0 = view at *
      generalize elementShare a.2.2 view off remain = sh at *
      split at heq
      · cases heq
      rename_i hlen
      obtain ⟨hsizes, hfsize', hidle⟩ := hround (data.take sh.1.toNat)
      have hbusy : view ∈ sh.2.busy := hshare.space.mem_busy he₁ (List.mem_cons_of_mem _ hview)
      have hwrite := grows_writeUserdata (K := True) hshare.space hbusy (data.take sh.1.toNat) off
        (fun _ hmem' => absurd hmem' hmem) e
      have hone := (hgrows.trans hshare).trans hwrite
      split at heq
      · cases heq
        exact hfsize'.trans hfsize
      · rename_i hstop
        obtain ⟨⟨r', s''⟩, hrec, heq'⟩ := Option.map_eq_some_iff.mp heq
        cases heq'
        have hw : (viewWriteUserdata sh.2 view (data.take sh.1.toNat) off).1 = sh.1 := by tauto
        -- a share that does not fit is not written
        have hfit : off + sh.1 ≤ s.maxDataSegSize := by
          by_contra hbig
          have hsize := hshare.space.maxDataSegSize
          rw [viewWriteUserdata_of_not fun hu => ?_] at hw
          · omega
          · have hfits := hu.fits
            rw [List.length_take, Nat.min_eq_left (by omega)] at hfits
            rw [show (a.2.2.setVol sh.2).maxDataSegSize = s.maxDataSegSize from hmax,
              show (a.2.2.setVol sh.2).vol = sh.2 from rfl] at hsize
            omega
        refine (ih hone.space (hone.entries ▸ he) hrec ?_).trans (hfsize'.trans hfsize)
        have hrest := hleft hfit fun heq' => hstop (.inr (heq'.trans hw.symm))
        rw [← hsizes, ← hidle, ← hmax] at hrest
        rw [hw]
        exact hrest
    · cases heq
      exact hfsize

/-- **Looking for an element** takes no more clusters than were counted, either, and leaves enough
for what is written then. -/
theorem seekElement_spare (n : Nat) : ∀ {s : Fs} {i : Nat} {inner size : Int}, Space s [] →
    e ∈ s.entries → inner ≤ n →
    clustersBehind s.maxDataSegSize ((s.sizes e).drop i) inner size ≤ s.vol.idle.length →
      (seekElement n s e i inner).2.vol.fsize = s.vol.fsize ∧
        ∀ p, (seekElement n s e i inner).1 = .ok p →
          clustersBehind s.maxDataSegSize (((seekElement n s e i inner).2.sizes e).drop p.1) p.2
            size ≤ (seekElement n s e i inner).2.vol.idle.length := by
  induction n with
  | zero =>
    intro s i inner size h he hn hdemand
    refine ⟨rfl, fun p hp => ?_⟩
    cases hp
    exact hdemand
  | succ n ih =>
    intro s i inner size h he hn hdemand
    have hD := h.maxDataSegSize_bounds.1
    rw [seekElement]
    split
    swap
    · refine ⟨rfl, fun p hp => ?_⟩
      cases hp
      exact hdemand
    rename_i hge
    have hgrows := passElement_grows (K := True) h he i
    by_cases hi : i < (s.heads e).elements.length
    · rw [passElement, if_pos hi] at hgrows ⊢
      simp only
      rw [sizes_drop_cons hi, clustersBehind, if_pos hge] at hdemand
      refine ih h he ?_ hdemand
      split
      · omega
      · omega
    · rw [passElement, if_neg hi] at hgrows ⊢
      rw [sizes_drop_of_le (by omega)] at hdemand
      rcases allocIdle_one h he with ⟨w, hok, happ⟩ | ⟨heq, -, -⟩
      · have hpos := @clustersBehind_nil_pos s.maxDataSegSize inner size (by omega)
          (show 0 ≤ inner by omega) (.inr hge)
        obtain ⟨hfsize, hidle⟩ := happ.spare fun hnil => by
          rw [hnil] at hdemand
          exact absurd hdemand (by simp only [List.length_nil]; omega)
        simp only [hok, if_true] at hgrows ⊢
        generalize allocIdleElementsForHead s e 1 = a at happ hgrows hfsize hidle ⊢
        have hlen := happ.length_elements
        have hpass := @clustersBehind_nil_pass s.maxDataSegSize inner size (by omega) hge
        have hmax := hgrows.maxDataSegSize
        have hrest := sizes_drop_of_le (s := a.2.setVol (viewSetElementDataSegSize a.2.vol
          ((a.2.heads e).elements.getD ((a.2.heads e).elements.length - 1) 0)
            s.maxDataSegSize).2) (e := e) (n := (a.2.heads e).elements.length - 1 + 1) (by
          show (a.2.heads e).elements.length ≤ _
          omega)
        generalize hs₂ : a.2.setVol (viewSetElementDataSegSize a.2.vol
          ((a.2.heads e).elements.getD ((a.2.heads e).elements.length - 1) 0)
            s.maxDataSegSize).2 = s₂ at hgrows hmax hrest ⊢
        have hidle₂ : s₂.vol.idle = a.2.vol.idle := by
          rw [← hs₂]
          exact putDataSegSize_idle ..
        have hfsize₂ : s₂.vol.fsize = a.2.vol.fsize := by
          rw [← hs₂]
          exact putDataSegSize_fsize ..
        obtain ⟨h₁, h₂⟩ := @ih s₂ ((a.2.heads e).elements.length - 1 + 1)
          (inner - s.maxDataSegSize) size hgrows.space (hgrows.entries ▸ he) (by omega) (by
            rw [hrest, hmax, hpass, hidle₂]
            omega)
        rw [hmax] at h₂
        exact ⟨h₁.trans (hfsize₂.trans hfsize), h₂⟩
      · have hno : nspSuccess eNomem = false := by decide
        simp only [heq, hno, Bool.false_eq_true, if_false]
        exact ⟨trivial, fun p hp => by cases hp⟩

/-! ## Calls -/

theorem stretchHead_keeps (s : Fs) (e size : Int) : (stretchHead s e size).vol.fsize = s.vol.fsize ∧
    (stretchHead s e size).vol.idle = s.vol.idle := by
  rw [stretchHead]
  split
  · exact ⟨putDataSegSize_fsize .., putDataSegSize_idle ..⟩
  · exact ⟨rfl, rfl⟩

/-- The length of an entry is no size of an element. -/
theorem stretchHead_sizes (h : Space s []) (he : e ∈ s.entries) (size : Int) :
    (stretchHead s e size).sizes e = s.sizes e := by
  rw [stretchHead]
  split
  · refine sizes_drop (n := 0) fun w hw => ?_
    have hne : w ≠ e := fun heq => h.head_notMem he (heq ▸ hw)
    exact (putDataSegSize_size ..).trans (if_neg hne)
  · rfl

theorem int32_sub_of_nonneg {D p : Int} (hD : D < 2 ^ 30) (hp : 0 ≤ p) (hlt : p < D) :
    int32 (D - p) = D - p := Lib.int32_of_inInt32 ⟨by omega, by omega⟩

theorem writeFromHead_fsize (h : Space s []) (he : e ∈ s.entries) {u : List (List UInt8)}
    (m : Mirror s.vol u) {data : List UInt8} {cpoff size r : Int} (hlt : cpoff < s.maxDataSegSize)
    (hdemand : clustersBehind s.maxDataSegSize (s.sizes e) 0
      (if cpoff < 0 then size else size - min (s.maxDataSegSize - cpoff) size) ≤ s.vol.idle.length)
    (heq : writeFromHead s e data cpoff size = some (r, s')) : s'.vol.fsize = s.vol.fsize := by
  obtain ⟨-, hD⟩ := h.maxDataSegSize_bounds
  have hbusy := h.mem_busy he List.mem_cons_self
  rw [writeFromHead] at heq
  simp only at heq
  split at heq
  · cases heq
  rename_i hlen
  by_cases hsize : size ≤ 0
  · -- nothing is written, and what is left is not positive
    have htake : data.take (min (int32 (s.maxDataSegSize - cpoff)) size).toNat = [] := by
      rw [Int.toNat_of_nonpos (by omega), List.take_zero]
    rw [htake, viewWriteUserdata_of_not fun hu => absurd hu.pos (by decide)] at heq
    split at heq
    · cases heq
      rfl
    · rw [if_pos (by omega)] at heq
      cases heq
  have hwrite := grows_writeUserdata (K := False) h hbusy
    (data.take (min (int32 (s.maxDataSegSize - cpoff)) size).toNat) cpoff (fun hK => hK.elim) e
  have hfst : (viewWriteUserdata s.vol e
      (data.take (min (int32 (s.maxDataSegSize - cpoff)) size).toNat) cpoff).1 =
        if cpoff < 0 then 0 else min (s.maxDataSegSize - cpoff) size := by
    split
    · rw [viewWriteUserdata_of_not fun hu => ?_]
      have := hu.nonneg
      omega
    · rw [int32_sub_of_nonneg hD (by omega) hlt] at hlen ⊢
      have husable : s.vol.Usable e cpoff
          (data.take (min (s.maxDataSegSize - cpoff) size).toNat).length := by
        refine ⟨by omega, ?_, fun hun => ?_, ?_⟩
        · rw [List.length_take]
          omega
        · have := (h.entry e he).headSize.1
          have := hun.1
          omega
        · have := h.maxDataSegSize
          rw [List.length_take]
          omega
      rw [m.writeUserdata_fst h.vol hbusy husable, List.length_take]
      omega
  obtain ⟨io, hio, hk⟩ := writeUserdata_keeps s.vol e
    (data.take (min (int32 (s.maxDataSegSize - cpoff)) size).toNat) cpoff
  rw [hio] at heq hwrite
  split at heq
  · cases heq
    exact hk.hard.fsize
  · split at heq
    · cases heq
    · obtain ⟨⟨r', s''⟩, hrec, heq'⟩ := Option.map_eq_some_iff.mp heq
      cases heq'
      refine (writeElement_fsize _ hwrite.space he hrec ?_).trans hk.hard.fsize
      rw [hfst]
      refine Int.le_trans (Int.le_of_eq ?_) hdemand
      show clustersBehind s.maxDataSegSize (s.sizes e) 0 _ = _
      congr 1
      split
      · omega
      · rfl

/-- What is written to an entry between the references. -/
theorem writeBody_fsize (h : Space s []) (he : e ∈ s.entries) {u : List (List UInt8)}
    (m : Mirror s.vol u) {data : List UInt8} {offset size r : Int} (hle : s.vol.fsize ≤ 2 ^ 31)
    (hdemand : s.clustersToWrite e offset size ≤ s.vol.idle.length)
    (heq : writeBody s e data offset size = some (r, s')) : s'.vol.fsize = s.vol.fsize := by
  have hst := stretchHead_grows (K := False) h he
    (int32 (int32 (offset + maxEntryNameLength) + size)) (Lib.inInt32_int32 _)
  obtain ⟨hfsize, hidle⟩ := stretchHead_keeps s e
    (int32 (int32 (offset + maxEntryNameLength) + size))
  have hsizes := stretchHead_sizes h he (int32 (int32 (offset + maxEntryNameLength) + size))
  obtain ⟨g, hstep, -⟩ := hst.step
  obtain ⟨u₁, m₁, -⟩ := hstep.mirror u m (hfsize ▸ hle)
  rw [writeBody] at heq
  generalize stretchHead s e _ = s₁ at heq hst hfsize hidle hsizes m₁
  have he₁ : e ∈ s₁.entries := hst.entries ▸ he
  rw [Fs.clustersToWrite, ← hst.maxDataSegSize, ← hsizes, ← hidle] at hdemand
  rw [← hfsize]
  split at heq
  · rename_i hlt
    rw [if_pos hlt] at hdemand
    exact writeFromHead_fsize hst.space he₁ m₁ hlt hdemand heq
  · rename_i hge
    rw [if_neg hge] at hdemand
    rw [writeBehindHead] at heq
    have hD := hst.space.maxDataSegSize_bounds.1
    obtain ⟨hseek, hleft⟩ := seekElement_spare
      (int32 (offset + maxEntryNameLength) - s₁.maxDataSegSize).toNat (i := 0) hst.space he₁
      (by omega) hdemand
    have hgrows := seekElement_grows (K := False)
      (int32 (offset + maxEntryNameLength) - s₁.maxDataSegSize).toNat 0
      (int32 (offset + maxEntryNameLength) - s₁.maxDataSegSize) hst.space he₁
    split at heq
    · cases heq
      exact hseek
    · rename_i p hp
      refine (writeElement_fsize _ hgrows.space (hgrows.entries ▸ he₁) heq ?_).trans hseek
      rw [hgrows.maxDataSegSize]
      exact hleft p hp

/-- A reference to an entry that nobody deletes is given back without its clusters. -/
theorem dereferenceHead_vol (hs : (s.heads e).state = .normal)
    (heq : dereferenceHead s e .normal = some s') : s'.vol = s.vol := by
  rw [dereferenceHead] at heq
  split at heq
  · cases heq
  · have hstate : ¬(EntryState.normal = .busy ∧ (s.heads e).state = .busy) := by
      rintro ⟨h, _⟩
      cases h
    simp only [if_neg hstate, setHead_heads_self] at heq
    rw [if_neg (by rw [hs]; rintro ⟨_, h⟩; cases h)] at heq
    cases heq
    rfl

/-- **Writing** where enough views are idle: the file stays as large as it is. -/
theorem writeData_fsize (h : Space s []) {id : Int} (hroom : s.RoomFor id)
    {u : List (List UInt8)} (m : Mirror s.vol u) (hle : s.vol.fsize ≤ 2 ^ 31) {data : List UInt8}
    {offset size r : Int}
    (hdemand : id ∈ s.entries → s.clustersToWrite id offset size ≤ s.vol.idle.length)
    (heq : writeData s id data offset size = some (r, s')) : s'.vol.fsize = s.vol.fsize := by
  rw [writeData_eq] at heq
  split at heq
  · cases heq
    rfl
  rename_i hpos
  rw [referenceHead_normal h hroom] at heq
  by_cases he : id ∈ s.entries
  · simp only [if_pos he] at heq
    obtain ⟨⟨r₁, s₃⟩, hw, hd⟩ := Option.bind_eq_some_iff.mp heq
    obtain ⟨s₄, hd, hr⟩ := Option.map_eq_some_iff.mp hd
    cases hr
    have hspace := h.bump id 1 (by decide)
    have hgrows := writeBody_grows hspace he hw
    rw [dereferenceHead_vol (hgrows.space.entry id (hgrows.entries ▸ he)).state hd]
    refine writeBody_fsize (s := s.setHead id ((s.heads id).bump 1)) hspace he m hle ?_ hw
    have hsizes : (s.setHead id ((s.heads id).bump 1)).sizes id = s.sizes id := by
      rw [Fs.sizes, setHead_heads_self]
      rfl
    have hsame := hdemand he
    rw [Fs.clustersToWrite] at hsame ⊢
    rwa [hsizes]
  · simp only [if_neg he] at heq
    cases heq
    rfl

theorem giveBack_fsize (s : Fs) (status view : Int) :
    (giveBack s status view).2.2.vol.fsize = s.vol.fsize :=
  (moveToIdle_keeps s.vol view).hard.fsize

/-- What a new entry is made of was idle. -/
theorem insertNew_fsize (h : s.vol.Wf) (hne : s.vol.idle ≠ []) (key : Option (List UInt8)) :
    (insertNew s key).2.2.vol.fsize = s.vol.fsize := by
  obtain ⟨v, vol, hacq, ha⟩ := acquireIdle_of_idle h hne
  rw [← (ha.spare hne).1, insertNew]
  simp only [hacq]
  have halloc : (allocHead (s.setVol vol) v key).2.vol.fsize = vol.fsize := by
    rw [allocHead, fs_alloc_eq (s := s.setVol vol) ha.wf]
    simp only [if_true]
    rw [show (s.setVol vol).vol = vol from rfl, loadKey_eq ha.cluster_self]
    exact putCluster_fsize ..
  generalize allocHead (s.setVol vol) v key = a at halloc
  rw [← halloc]
  split
  · have hset := putDataSegSize_fsize a.2.vol v (headSize maxEntryNameLength)
    rw [← hset]
    split
    · obtain ⟨io, heq, hk⟩ := writeUserdata_keeps
        (a.2.vol.putDataSegSize v (headSize maxEntryNameLength)).2 v (a.2.heads v).key 0
      have hwrite : (viewWriteUserdata (a.2.vol.putDataSegSize v (headSize maxEntryNameLength)).2 v
          (a.2.heads v).key 0).2.fsize =
            (a.2.vol.putDataSegSize v (headSize maxEntryNameLength)).2.fsize := by
        rw [heq]
        exact hk.hard.fsize
      rw [← hwrite]
      split
      · rw [insertHead_vol]
        rfl
      · exact giveBack_fsize ..
    · exact giveBack_fsize ..
  · exact giveBack_fsize ..

theorem checkReferenceCondition_vol (s : Fs) (e : Int) (permission : EntryState) :
    (checkReferenceCondition s e permission).2.vol = s.vol := by
  cases permission with
  | normal =>
    rw [checkReferenceCondition]
    split
    · rfl
    · rfl
  | opened =>
    rw [checkReferenceCondition]
    split
    · rfl
    · rfl
  | busy =>
    rw [checkReferenceCondition]
    split
    · rfl
    · split
      · rfl
      · rfl
  | closeWait => rfl
  | mandatory => rfl

theorem referenceHead_vol (s : Fs) (id : Int) (permission : EntryState) :
    (referenceHead s id permission).2.vol = s.vol := by
  rw [referenceHead]
  split
  · rfl
  · exact checkReferenceCondition_vol ..

theorem createNew_fsize (h : s.vol.Wf) (hne : s.vol.idle ≠ []) (key : Option (List UInt8)) :
    (createNew s key).2.2.vol.fsize = s.vol.fsize := by
  rw [createNew_eq, ← insertNew_fsize h hne key, openNew]
  split
  · exact congrArg Vol.fsize (referenceHead_vol ..)
  · rfl

/-- How many clusters `evfs_entries_create_one` takes. -/
def Fs.clustersToCreate (s : Fs) (key : Option (List UInt8)) : Int :=
  match key.map (searchNamedHead s) with
  | some (some (some _)) => 0
  | _ => 1

/-- Where the key is not there yet a view is idle for it. -/
theorem idle_of_demand {key : Option (List UInt8)}
    (hdemand : s.clustersToCreate key ≤ s.vol.idle.length)
    (hnew : ∀ k, key = some k → searchNamedHead s k = some none) : s.vol.idle ≠ [] := by
  intro hnil
  have hone : s.clustersToCreate key = 1 := by
    cases key with
    | none => rfl
    | some k => rw [Fs.clustersToCreate, Option.map_some, hnew k rfl]
  rw [hone, hnil] at hdemand
  exact absurd hdemand (by decide)

/-- **Creating** where a view is idle, or the key is there: the file stays as large as it is. -/
theorem createOne_fsize (h : s.vol.Wf) {key : Option (List UInt8)} {r : Int × Int × Fs}
    (hdemand : s.clustersToCreate key ≤ s.vol.idle.length) (heq : createOne s key = some r) :
    r.2.2.vol.fsize = s.vol.fsize := by
  cases key with
  | none =>
    cases heq
    exact createNew_fsize h (idle_of_demand hdemand nofun) none
  | some k =>
    rw [createOne] at heq
    split at heq
    · cases heq
    · cases heq
      rfl
    · rename_i hsearch
      cases heq
      refine createNew_fsize h (idle_of_demand hdemand fun _ hk => ?_) (some k)
      cases hk
      exact hsearch

end Evfs

end LibNax
