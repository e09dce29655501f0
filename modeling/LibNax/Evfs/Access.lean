import LibNax.Evfs.Contents
import LibNax.Evfs.Calls
import LibNax.Evfs.Index

/-!
# Writing and reading an entry

`evfs_entries_write_data` and `evfs_entries_read_data`, with the references that they take and give
back, in any state that calls lead to.

* `Housed` — the invariant of all calls: every entry is in use, or waits for its handles.
* `Housed.call` — each call keeps it.
* `Bytes.writeData`, `Bytes.readData` — the two calls in terms of the array of an entry.
* `Made.bytes` — the array of a new entry.
-/

set_option autoImplicit false

namespace LibNax

namespace Evfs

open Lib (int32 patched blockAt)

variable {s s' s₁ : Fs} {e v : Int} {D L U size : Nat} {f : Nat → UInt8}

/-! ## Reading does not look at the entries that wait -/

theorem readElement_eased (l : List Int) : ∀ (s : Fs) (elemOffset remain : Int),
    readElement s.eased l elemOffset remain = ((readElement s l elemOffset remain).1,
      (readElement s l elemOffset remain).2.1, (readElement s l elemOffset remain).2.2.eased) := by
  induction l with
  | nil => exact fun _ _ _ => rfl
  | cons view l ih =>
    intro s elemOffset remain
    rw [readElement, readElement, eased_vol, eased_maxDataSegSize]
    simp only [← eased_setVol]
    split
    · rfl
    split
    · rfl
    · rw [ih]

theorem readBytes_eased (s : Fs) (e cpoff n : Int) : readBytes s.eased e cpoff n =
    ((readBytes s e cpoff n).1, (readBytes s e cpoff n).2.1,
      (readBytes s e cpoff n).2.2.eased) := by
  have hseek : ∀ (l : List Int) (inner : Int), seekRead s.eased l inner = seekRead s l inner := by
    intro l
    induction l with
    | nil => exact fun _ => rfl
    | cons view l ih =>
      intro inner
      rw [seekRead, seekRead, eased_vol, eased_maxDataSegSize]
      simp only [ih]
  rw [readBytes, readBytes, eased_vol, eased_maxDataSegSize, eased_elements]
  simp only [← eased_setVol, hseek, readElement_eased]
  split
  · rfl
  split
  · split
    · rfl
    · rfl
  · rfl

/-! ## References -/

/-- Only what an entry is used for changes in its head. -/
theorem space_setRefs (h : Space s.eased []) {head : Head}
    (helems : head.elements = (s.heads e).elements)
    (hcount : head.countOfElements = (s.heads e).countOfElements)
    (hkey : head.key = (s.heads e).key) (h₁ : 0 ≤ head.refcnt) (h₂ : 0 ≤ head.ioRefcnt) :
    Space (s.setHead e head).eased [] := by
  rw [eased_setHead]
  refine h.setHead (fun _ => helems) fun he => ?_
  have hok := h.entry e he
  have hc : (s.heads e).countOfElements = (s.heads e).elements.length := hok.count
  have hchain : e :: head.eased.elements = e :: (s.eased.heads e).elements :=
    congrArg (List.cons e) helems
  refine ⟨?_, fun v hv => hok.headId v (hchain ▸ hv), hok.headSize,
    fun v hv => hok.elementSize v (helems ▸ hv), ?_, rfl, rfl, h₁, h₂, ?_⟩
  · rw [show head.eased.elements = (s.eased.heads e).elements from helems]
    exact hok.linked
  · show head.countOfElements = head.elements.length
    rw [hcount, helems, hc]
  · have h0 : 0 ∈ (s.heads e).key := hok.key
    exact hkey ▸ h0

/-- A change of the references. -/
theorem Front.setHead (h : Front D s e L U f) {head : Head}
    (helems : head.elements = (s.heads e).elements) (hspace : Space (s.setHead e head) []) :
    Front D (s.setHead e head) e L U f := by
  have helems' : ((s.setHead e head).heads e).elements = (s.heads e).elements := by
    rw [setHead_heads_self, helems]
  refine ⟨hspace, h.mem, h.clusterSize, h.length, helems' ▸ h.upper, helems' ▸ h.used, ?_⟩
  obtain ⟨u, m, hu⟩ := h.disk
  refine ⟨u, m, ?_⟩
  rw [← hu, content, content, Fs.chain, Fs.chain, helems']

theorem referenceHead_found (hsearch : searchHead s e = some e) (hl : s.Live e)
    (hc : (s.heads e).Counts) :
    referenceHead s e .normal = (.ok e, s.setHead e ((s.heads e).bump 1)) := by
  rw [referenceHead, hsearch]
  simp only [check_normal hl hc, nspSuccess_zero, if_true]

/-- A reference to an entry in use is taken. -/
theorem referenceHead_live (h : Space s.eased []) (he : e ∈ s.entries) (hl : s.Live e)
    (hroom : (s.heads e).Room) :
    referenceHead s e .normal = (.ok e, s.setHead e ((s.heads e).bump 1)) :=
  referenceHead_found ((Evfs.searchHead_eq h e).trans (if_pos he)) hl
    (Fs.RoomFor.counts (fun _ => hroom) h he)

theorem Front.bump (h : Front D s.eased e L U f) :
    Front D (s.setHead e ((s.heads e).bump 1)).eased e L U f := by
  rw [eased_setHead]
  exact h.setHead rfl (h.space.bump e 1 (by decide))

theorem Bytes.reference (h : Bytes D s.eased e L U f) (hl : s.Live e) (hroom : (s.heads e).Room) :
    referenceHead s e .normal = (.ok e, s.setHead e ((s.heads e).bump 1)) ∧
      Bytes D (s.setHead e ((s.heads e).bump 1)).eased e L U f := by
  refine ⟨referenceHead_live h.space h.mem hl hroom, h.of_front h.front.bump ?_⟩
  rw [eased_elements, setHead_heads_self]
  rfl

/-- A reference to an entry in use is given back. -/
theorem dereferenceHead_live (hl : s.Live e) (h₁ : 0 < (s.heads e).refcnt)
    (h₂ : 0 < (s.heads e).ioRefcnt) :
    dereferenceHead s e .normal = some (s.setHead e ((s.heads e).drop 1)) ∧
      (s.setHead e ((s.heads e).drop 1)).Live e := by
  refine ⟨?_, ?_⟩
  · rw [dereferenceHead_normal_eq h₁ h₂, giveUp, if_neg]
    rintro ⟨-, hc⟩
    have hs := hl.1
    rw [show (s.heads e).state = .closeWait from hc] at hs
    cases hs
  · rw [Fs.Live, setHead_heads_self]
    exact hl

theorem Front.drop (h : Front D s.eased e L U f) (h₁ : 0 < (s.heads e).refcnt)
    (h₂ : 0 < (s.heads e).ioRefcnt) : Front D (s.setHead e ((s.heads e).drop 1)).eased e L U f := by
  have hspace : Space (s.setHead e ((s.heads e).drop 1)).eased [] :=
    space_setRefs h.space rfl rfl rfl (Int.sub_nonneg_of_le h₁) (Int.sub_nonneg_of_le h₂)
  rw [eased_setHead] at hspace ⊢
  exact h.setHead rfl hspace

theorem Bytes.drop (h : Bytes D s.eased e L U f) (h₁ : 0 < (s.heads e).refcnt)
    (h₂ : 0 < (s.heads e).ioRefcnt) : Bytes D (s.setHead e ((s.heads e).drop 1)).eased e L U f := by
  refine h.of_front (h.front.drop h₁ h₂) ?_
  rw [eased_elements, setHead_heads_self]
  rfl

/-- One more reference is taken to the head, for input and output. -/
structure OneMore (head head' : Head) : Prop where
  refcnt : head'.refcnt = head.refcnt + 1
  ioRefcnt : head'.ioRefcnt = head.ioRefcnt + 1

/-- It is given back. -/
theorem OneMore.room {head head' : Head} (h : OneMore head head') (hroom : head.Room) :
    (head'.drop 1).Room := by
  have h₁ := hroom.1
  have h₂ := hroom.2
  refine ⟨?_, ?_⟩
  · show head'.refcnt - 1 < 2 ^ 31 - 1
    have := h.refcnt
    omega
  · show head'.ioRefcnt - 1 < 2 ^ 31 - 1
    have := h.ioRefcnt
    omega

/-- What a write does to the head between the references. -/
theorem writeBody_referenced (h : Space s.eased []) (he : e ∈ s.entries) (hl : s.Live e)
    {data : List UInt8} {offset n r : Int}
    (hw : writeBody (s.setHead e ((s.heads e).bump 1)) e data offset n = some (r, s₁)) :
    writeBody (s.setHead e ((s.heads e).bump 1)).eased e data offset n = some (r, s₁.eased) ∧
      Grows (SparesKey offset) (s.setHead e ((s.heads e).bump 1)).eased s₁.eased e ∧
      s₁.Live e ∧ 0 < (s₁.heads e).refcnt ∧ 0 < (s₁.heads e).ioRefcnt ∧
      OneMore (s.heads e) (s₁.heads e) := by
  have hio : 0 ≤ (s.heads e).ioRefcnt := (h.entry e he).ioRefcnt
  have hrc : 0 ≤ (s.heads e).refcnt := (h.entry e he).refcnt
  have hspace : Space (s.setHead e ((s.heads e).bump 1)).eased [] := by
    rw [eased_setHead]
    exact h.bump e 1 (by decide)
  have hhead : (s.setHead e ((s.heads e).bump 1)).heads e = (s.heads e).bump 1 :=
    setHead_heads_self ..
  have hweased := writeBody_eased hspace he data offset n
  rw [hw, Option.map_some] at hweased
  have hgrows := writeBody_grows hspace he hweased
  have hsame := writeBody_sameStates hw
  obtain ⟨l, k, -, hheads⟩ := hgrows.heads
  have heq := congrFun hheads e
  rw [Function.update_self] at heq
  have h₁ : (s₁.heads e).refcnt = (s.heads e).refcnt + 1 :=
    (congrArg Head.refcnt heq).trans (congrArg Head.refcnt hhead)
  have h₂ : (s₁.heads e).ioRefcnt = (s.heads e).ioRefcnt + 1 :=
    (congrArg Head.ioRefcnt heq).trans (congrArg Head.ioRefcnt hhead)
  refine ⟨hweased, hgrows, ⟨(hsame.state e).trans ?_, (hsame.hard e).trans ?_⟩, by omega, by omega,
    h₁, h₂⟩
  · rw [hhead]
    exact hl.1
  · rw [hhead]
    exact hl.2

/-- Where enough views are idle the file stays as large as it is. -/
theorem writeBody_referenced_fsize (h : Space s.eased []) (he : e ∈ s.entries) (hs : s.Steady)
    {data : List UInt8} {offset n r : Int}
    (hdemand : s.clustersToWrite e offset n ≤ s.vol.idle.length)
    (hw : writeBody (s.setHead e ((s.heads e).bump 1)) e data offset n = some (r, s₁)) :
    s₁.vol.fsize = s.vol.fsize := by
  obtain ⟨u, m⟩ := hs.mirror
  have hspace : Space (s.setHead e ((s.heads e).bump 1)).eased [] := by
    rw [eased_setHead]
    exact h.bump e 1 (by decide)
  refine writeBody_fsize_eased (s := s.setHead e ((s.heads e).bump 1)) hspace he m hs.fsize_le ?_ hw
  have hsizes : (s.setHead e ((s.heads e).bump 1)).sizes e = s.sizes e := by
    rw [Fs.sizes, setHead_heads_self]
    rfl
  rw [Fs.clustersToWrite] at hdemand ⊢
  rwa [hsizes]

/-- What `evfs_entries_read_data` does between the references is done to the entry with one more. -/
theorem readData_referenced (h : Space s.eased []) (he : e ∈ s.entries) (hl : s.Live e)
    (hroom : (s.heads e).Room) {offset n : Int} (hoff : 0 ≤ offset) (hn : 0 < n)
    {q : Int × List UInt8 × Fs}
    (hq : readBytes (s.setHead e ((s.heads e).bump 1)) e (int32 (maxEntryNameLength + offset)) n =
      q) :
    readData s e offset n = some (q.1, q.2.1, q.2.2.setHead e ((q.2.2.heads e).drop 1)) ∧
      (q.2.2.setHead e ((q.2.2.heads e).drop 1)).Live e ∧
      0 < (q.2.2.heads e).refcnt ∧ 0 < (q.2.2.heads e).ioRefcnt ∧
      (q.2.2.Defined ↔ s.Defined) := by
  have hpos := (h.vol.mem_busy (h.mem_busy he (v := e) List.mem_cons_self)).1
  have hio : 0 ≤ (s.heads e).ioRefcnt := (h.entry e he).ioRefcnt
  have hrc : 0 ≤ (s.heads e).refcnt := (h.entry e he).refcnt
  obtain ⟨io, hkeeps, hio'⟩ := (readBytes_reads (s.setHead e ((s.heads e).bump 1)) e
    (int32 (maxEntryNameLength + offset)) n).setIo
  rw [hq] at hio'
  have hhead : q.2.2.heads e = (s.heads e).bump 1 := by
    rw [hio']
    exact setHead_heads_self ..
  have hl₁ : q.2.2.Live e := by
    rw [Fs.Live, hhead]
    exact hl
  have h₁ : 0 < (q.2.2.heads e).refcnt := by
    rw [hhead]
    exact Int.lt_add_one_of_le hrc
  have h₂ : 0 < (q.2.2.heads e).ioRefcnt := by
    rw [hhead]
    exact Int.lt_add_one_of_le hio
  obtain ⟨hderef, hl'⟩ := dereferenceHead_live hl₁ h₁ h₂
  refine ⟨?_, hl', h₁, h₂, ?_⟩
  swap
  · rw [hio', Fs.Defined, Fs.Defined]
    exact and_congr_left' (Eq.congr_left hkeeps.fault)
  rw [readData, if_neg (by omega), referenceHead_live h he hl hroom]
  simp only [hq, hderef, Option.map_some]

/-! ## The clusters that a write takes -/

/-- What is in use behind the head, element by element. -/
theorem sum_shares (l : List Int) : ∀ {V : Nat},
    (∀ (i : Nat) (x : Int), l[i]? = some x → x = (min D (V - D * i) : Nat)) →
      V ≤ D * l.length → l.sum = V := by
  induction l with
  | nil =>
    intro V _ hle
    exact congrArg Nat.cast (Nat.le_zero.mp hle).symm
  | cons x l ih =>
    intro V hl hle
    have hx := hl 0 x rfl
    rw [Nat.mul_zero, Nat.sub_zero] at hx
    rw [List.length_cons, Nat.mul_add, Nat.mul_one] at hle
    have hrest := ih (V := V - D) (fun i y hy => by
      rw [hl (i + 1) y hy, Nat.mul_add, Nat.mul_one, Nat.sub_sub, Nat.add_comm D]) (by omega)
    rw [List.sum_cons, hrest, hx]
    omega

namespace Bytes

theorem getElem?_sizes (h : Bytes D s e L U f) {i : Nat} {x : Int} (hi : (s.sizes e)[i]? = some x) :
    i < (s.heads e).elements.length ∧ x = (min D (U - D * (i + 1)) : Nat) := by
  rw [Fs.sizes, List.getElem?_map] at hi
  obtain ⟨w, hw, rfl⟩ := Option.map_eq_some_iff.mp hi
  exact ⟨(List.getElem?_eq_some_iff.mp hw).1, h.segSize hw⟩

theorem length_sizes : (s.sizes e).length = (s.heads e).elements.length := by
  rw [Fs.sizes, List.length_map]

theorem sum_sizes (h : Bytes D s e L U f) : (s.sizes e).sum = (U - D : Nat) := by
  refine sum_shares (D := D) _ (fun i x hi => ?_) ?_
  · rw [(h.getElem?_sizes hi).2, Nat.mul_add, Nat.mul_one, Nat.sub_sub, Nat.add_comm D]
  · have hupper := h.upper
    rw [Nat.mul_add, Nat.mul_one] at hupper
    rw [length_sizes]
    omega

theorem sizes_bounds (h : Bytes D s e L U f) {x : Int} (hx : x ∈ s.sizes e) : 0 < x ∧ x ≤ D := by
  obtain ⟨i, hi⟩ := List.mem_iff_getElem?.mp hx
  obtain ⟨hlt, rfl⟩ := h.getElem?_sizes hi
  have hlower := h.lower
  have hmul : D * (i + 1) ≤ D * (s.heads e).elements.length := Nat.mul_le_mul_left D hlt
  have := h.bounds
  omega

theorem sizes_full (h : Bytes D s e L U f) (hd : D ∣ U) :
    s.sizes e = List.replicate (s.heads e).elements.length (D : Int) := by
  refine List.eq_replicate_iff.mpr ⟨length_sizes, fun x hx => ?_⟩
  obtain ⟨i, hi⟩ := List.mem_iff_getElem?.mp hx
  obtain ⟨hlt, rfl⟩ := h.getElem?_sizes hi
  have hU := h.whole hd
  have hmul : D * (i + 1 + 1) ≤ D * ((s.heads e).elements.length + 1) :=
    Nat.mul_le_mul_left D (Nat.succ_le_succ hlt)
  rw [Nat.mul_add D (i + 1), Nat.mul_one] at hmul
  omega

theorem clustersBehind_le (h : Bytes D s e L U f) {off size : Int} {k : Nat} (hoff : 0 ≤ off)
    (hsize : 0 < size) (hfit : off + size ≤ (U - D : Nat) ∨ D ∣ U)
    (hend : off + size ≤ (D * ((s.heads e).elements.length + k) : Nat)) :
    clustersBehind D (s.sizes e) off size ≤ k := by
  rcases hfit with hin | hd
  · refine Int.le_trans (clustersBehind_inside _ hoff hsize (fun x hx => h.sizes_bounds hx) ?_)
      (Int.natCast_nonneg k)
    exact h.sum_sizes ▸ hin
  · rw [h.sizes_full hd]
    refine clustersBehind_full (by have := h.bounds; omega) _ hoff hsize ?_
    rwa [Int.natCast_mul] at hend

/-- A write takes no more clusters than its end asks for. -/
theorem clustersToWrite_le (h : Bytes D s e L U f) {offset n k : Nat} (hn : 0 < n)
    (hint : offset + maxEntryNameLength + n < 2 ^ 31)
    (hfit : offset + maxEntryNameLength + n ≤ U ∨ D ∣ U)
    (hend : offset + maxEntryNameLength + n ≤ D * ((s.heads e).elements.length + k + 1)) :
    s.clustersToWrite e offset n ≤ k := by
  have hcpoff : int32 ((offset : Int) + maxEntryNameLength) =
      ((offset + maxEntryNameLength : Nat) : Int) := by
    rw [Lib.int32_of_inInt32 ⟨by omega, by omega⟩, Int.natCast_add]
  have hD := h.bounds
  have hle := h.le_used
  rw [Nat.mul_add D _ 1, Nat.mul_one] at hend
  rw [Fs.clustersToWrite, h.maxDataSegSize, hcpoff]
  generalize offset + maxEntryNameLength = p at hint hfit hend
  split
  · rw [if_neg (by omega)]
    by_cases hin : n ≤ D - p
    · rw [show (n : Int) - min ((D : Int) - p) n = 0 by omega, clustersBehind_done (by omega)]
      exact Int.natCast_nonneg k
    · exact h.clustersBehind_le le_rfl (by omega) (hfit.imp_left fun hin => by omega) (by omega)
  · exact h.clustersBehind_le (by omega) (by omega) (hfit.imp_left fun hin => by omega) (by omega)

end Bytes

/-! ## The two calls -/

/-- An entry in use, that has or can get `M` elements. -/
structure Held (M : Nat) (e : Int) (s : Fs) : Prop where
  live : s.Live e
  room : (s.heads e).Room
  steady : s.Steady
  spare : (s.heads e).elements.length + s.vol.idle.length = M

/-- **Writing** to an entry, where its elements and the idle clusters reach to the end. -/
theorem Bytes.writeData {M : Nat} (h : Bytes D s.eased e L U f) (hheld : Held M e s)
    {data : List UInt8} {offset : Nat} (hne : data ≠ [])
    (hint : offset + maxEntryNameLength + data.length < 2 ^ 31)
    (hend : offset + maxEntryNameLength + data.length ≤ D * (M + 1))
    (hfit : Fitting D U (offset + maxEntryNameLength) data.length) :
    ∃ s', writeData s e data offset data.length = some ((data.length : Int), s') ∧ Held M e s' ∧
      Bytes D s'.eased e (max L (offset + maxEntryNameLength + data.length))
        (max U (offset + maxEntryNameLength + data.length))
        (patched f (offset + maxEntryNameLength) data) := by
  obtain ⟨hl, hroom, hsteady, hspare⟩ := hheld
  obtain ⟨href, hb₀⟩ := h.reference hl hroom
  have hlen := List.length_pos_iff.mpr hne
  have hpos := (h.space.vol.mem_busy (h.space.mem_busy h.mem (v := e) List.mem_cons_self)).1
  have hmem : e ∈ (s.setHead e ((s.heads e).bump 1)).entries := h.mem
  have helems : ((s.setHead e ((s.heads e).bump 1)).heads e).elements = (s.heads e).elements := by
    rw [setHead_heads_self]
    rfl
  have hdemand : s.clustersToWrite e offset data.length ≤ s.vol.idle.length := by
    refine h.clustersToWrite_le hlen hint hfit.1 ?_
    rw [eased_elements, hspare]
    exact hend
  have hbody := hb₀.writeBody_ne_none hne (show offset + maxEntryNameLength < 2 ^ 31 by omega)
    (by omega) hsteady.fsize_le
  rw [writeBody_eased hb₀.space hmem] at hbody
  obtain ⟨⟨r, s₁⟩, hw⟩ := Option.ne_none_iff_exists'.mp (mt Option.map_eq_none_iff.mpr hbody)
  obtain ⟨hweased, hgrows, hl₁, h₁, h₂, hc⟩ := writeBody_referenced h.space h.mem hl hw
  obtain ⟨hderef, hl'⟩ := dereferenceHead_live hl₁ h₁ h₂
  have hfsize := writeBody_referenced_fsize h.space h.mem hsteady hdemand hw
  obtain ⟨hr, hb⟩ := hb₀.writeBody hne hint hfit hweased
    (show s₁.vol.fsize < 2 ^ 31 from hfsize ▸ hsteady.fsize_lt)
  refine ⟨s₁.setHead e ((s₁.heads e).drop 1), ?_, ⟨hl', ?_, ?_, ?_⟩, hb.drop h₁ h₂⟩
  · rw [writeData_eq, if_neg (by omega), href]
    simp only [hw, Option.bind_some, hderef, Option.map_some, hr]
  · rw [setHead_heads_self]
    exact hc.room hroom
  · obtain ⟨g, hstep, -⟩ := hgrows.step
    exact hsteady.step hstep hgrows.fault hfsize
  · -- the elements in use end where the write does
    have hlow := Nat.lt_of_mul_lt_mul_left (Nat.lt_of_lt_of_le hb.lower
      (max_le (Nat.le_trans hb₀.upper (Nat.mul_le_mul_left D (Nat.succ_le_succ ?_))) hend))
    · have hsum := (hgrows.spare (by
        rw [eased_elements, eased_elements, helems, eased_vol]
        show _ ≤ (s.heads e).elements.length + s.vol.idle.length
        rw [hspare]
        exact Nat.le_of_lt_succ hlow)).2
      rw [eased_elements, eased_elements, helems] at hsum
      rw [setHead_heads_self]
      exact hsum.trans hspare
    · rw [eased_elements, helems, ← hspare]
      exact Nat.le_add_right _ _

/-- **Reading** an entry inside of what is in use.  Behind the end nothing is read. -/
theorem Front.readData (h : Front D s.eased e L U f) (hl : s.Live e) (hroom : (s.heads e).Room)
    (hkey : maxEntryNameLength ≤ L) {offset n : Nat} (hoff : offset < 2 ^ 31) (hn : 0 < n)
    (hin : offset + maxEntryNameLength < L →
      offset + maxEntryNameLength + min n (L - (offset + maxEntryNameLength)) ≤ U) :
    ∃ s', readData s e offset n = some (((min n (L - (offset + maxEntryNameLength)) : Nat) : Int),
        (List.range (min n (L - (offset + maxEntryNameLength)))).map fun j =>
          f (offset + maxEntryNameLength + j), s') ∧
      s'.Live e ∧ Front D s'.eased e L U f ∧ (s'.heads e).elements = (s.heads e).elements ∧
      (s'.Defined ↔ s.Defined) := by
  have hb₀ := h.bump
  have hL := h.headSize.2
  have hread : ∃ s₁, Evfs.readBytes (s.setHead e ((s.heads e).bump 1)).eased e
      (int32 ((maxEntryNameLength : Int) + offset)) n =
        (((min n (L - (offset + maxEntryNameLength)) : Nat) : Int),
          (List.range (min n (L - (offset + maxEntryNameLength)))).map fun j =>
            f (offset + maxEntryNameLength + j), s₁) ∧ Front D s₁ e L U f ∧
        s₁.heads = (s.setHead e ((s.heads e).bump 1)).eased.heads := by
    by_cases hint : offset + maxEntryNameLength < 2 ^ 31
    · have hcpoff : int32 ((maxEntryNameLength : Int) + offset) =
          ((offset + maxEntryNameLength : Nat) : Int) := by
        rw [Lib.int32_of_inInt32 ⟨by omega, by omega⟩]
        omega
      obtain ⟨s₁, hread, hb₁, hheads⟩ := hb₀.readBytes hint hn hin
      exact ⟨s₁, by rw [hcpoff, hread], hb₁, hheads⟩
    · -- the sum is too large for an `int`, and so is what is left behind it
      have hkey' : maxEntryNameLength = 32 := rfl
      have hremain : int32 ((L : Int) - int32 ((maxEntryNameLength : Int) + offset)) ≤ 0 := by
        rw [Lib.int32_of_ge (x := (maxEntryNameLength : Int) + offset) (by omega) (by omega),
          Lib.int32_of_ge (by omega) (by omega)]
        omega
      have hzero : min n (L - (offset + maxEntryNameLength)) = 0 := by omega
      refine ⟨(s.setHead e ((s.heads e).bump 1)).eased, ?_, hb₀, rfl⟩
      rw [Evfs.readBytes, hzero]
      simp only [hb₀.length]
      rw [if_pos (.inr (Int.le_trans (min_le_left _ _) hremain))]
      rfl
  obtain ⟨s₁', hread, hb₁, hheads⟩ := hread
  rw [readBytes_eased] at hread
  obtain ⟨q, hq⟩ : ∃ q, Evfs.readBytes (s.setHead e ((s.heads e).bump 1)) e
    (int32 ((maxEntryNameLength : Int) + offset)) n = q := ⟨_, rfl⟩
  obtain ⟨hdata, hl', h₁, h₂, hdefined⟩ := readData_referenced h.space h.mem hl hroom
    (Int.natCast_nonneg offset) (by omega) hq
  rw [hq] at hread
  simp only [Prod.mk.injEq] at hread
  obtain ⟨hq₁, hq₂, rfl⟩ := hread
  refine ⟨_, by rw [hdata, hq₁, hq₂], hl', hb₁.drop h₁ h₂, ?_, hdefined⟩
  have helems := congrArg Head.elements (congrFun hheads e)
  rw [eased_elements, eased_elements, setHead_heads_self] at helems
  rw [setHead_heads_self]
  exact helems

theorem Bytes.readData (h : Bytes D s.eased e L U f) (hl : s.Live e) (hroom : (s.heads e).Room)
    (hkey : maxEntryNameLength ≤ L) (hLU : L ≤ U) {offset n : Nat} (hoff : offset < 2 ^ 31)
    (hn : 0 < n) :
    ∃ s', readData s e offset n = some (((min n (L - (offset + maxEntryNameLength)) : Nat) : Int),
        (List.range (min n (L - (offset + maxEntryNameLength)))).map fun j =>
          f (offset + maxEntryNameLength + j), s') ∧
      s'.Live e ∧ Bytes D s'.eased e L U f ∧ (s'.Defined ↔ s.Defined) := by
  obtain ⟨s', hread, hl', hf, helems, hdefined⟩ :=
    h.front.readData hl hroom hkey hoff hn fun _ => by omega
  exact ⟨s', hread, hl', h.of_front hf helems, hdefined⟩

/-! ## All calls -/

/-- Between two calls: every entry is in use, or waits for its handles. -/
structure Housed (size : Nat) (s : Fs) : Prop where
  space : Space s.eased []
  state : ∀ e ∈ s.entries, s.Live e ∨ s.Waits e
  steady : s.Steady
  segSize : s.vol.maxDataSegSize = (size : Int) - sizeofCluster
  size : s.vol.io.cache.hard.clusterSize = size

/-- Where only the head of one entry has changed, the others are as they were. -/
theorem state_of_heads (hstate : ∀ e ∈ s.entries, s.Live e ∨ s.Waits e)
    (hself : e ∈ s'.entries → s'.Live e ∨ s'.Waits e)
    (hmem : ∀ e' ∈ s'.entries, e' ≠ e → e' ∈ s.entries)
    (hheads : ∀ e', e' ≠ e → s'.heads e' = s.heads e') :
    ∀ e' ∈ s'.entries, s'.Live e' ∨ s'.Waits e' := by
  intro e' he'
  by_cases hee : e' = e
  · exact hee ▸ hself (hee ▸ he')
  · exact (hstate e' (hmem e' he' hee)).imp (fun hl => hl.congr (hheads e' hee))
      fun hw => hw.congr (hheads e' hee)

namespace Housed

theorem setCount (h : Housed size s) (he : e ∈ s.entries) (hl : s.Live e) {n : Int} (hn : 0 ≤ n) :
    Housed size (s.setHead e { s.heads e with refcnt := n }) where
  space := by
    rw [eased_setHead]
    exact h.space.setHead (fun _ => rfl) fun _ => { h.space.entry e he with refcnt := hn }
  state := state_of_heads h.state
    (fun _ => .inl (by rw [Fs.Live, setHead_heads_self]; exact hl)) (fun _ he' _ => he')
    fun e' hne => setHead_heads_ne s hne _
  steady := h.steady.congr rfl rfl
  size := h.size
  segSize := h.segSize

theorem made {key : List UInt8} (h : Housed size s) (hm : Made s s' v key)
    (hfsize : s'.vol.fsize = s.vol.fsize) : Housed size s' where
  space := hm.created.space
  state := state_of_heads h.state (fun _ => .inl hm.live) (fun _ => hm.mem_of_ne) hm.heads
  steady := h.steady.step hm.created.step hm.created.fault hfsize
  size := hm.created.step.size.trans h.size
  segSize := hm.created.step.maxDataSegSize.trans h.segSize

theorem spared (h : Housed size s) (hs : Spared s s') (hfsize : s'.vol.fsize = s.vol.fsize) :
    Housed size s' where
  space := hs.kept.space
  state := fun e he => by
    have hmem : e ∈ s.entries := (show s'.entries = s.entries from hs.kept.entries) ▸ he
    exact (h.state e hmem).imp (fun hl => hl.congr (hs.heads e hmem))
      fun hw => hw.congr (hs.heads e hmem)
  steady := by
    obtain ⟨g, hstep, -⟩ := hs.kept.step
    exact h.steady.step hstep hs.kept.fault hfsize
  size := by
    obtain ⟨g, hstep, -⟩ := hs.kept.step
    exact hstep.size.trans h.size
  segSize := by
    obtain ⟨g, hstep, -⟩ := hs.kept.step
    exact hstep.maxDataSegSize.trans h.segSize

theorem createOne (h : Housed size s) {key : Option (List UInt8)} {r : Int × Int × Fs}
    (hdemand : s.clustersToCreate key ≤ s.vol.idle.length) (heq : createOne s key = some r) :
    Housed size r.2.2 := by
  have hfsize := createOne_fsize (s := s) h.space.vol hdemand heq
  have hnew : ∀ key, (createNew s key).2.2.vol.fsize = s.vol.fsize →
      Housed size (createNew s key).2.2 := by
    intro key
    rcases createNew_spec_eased h.space key with ⟨v, s₁, hc, hm⟩ | ⟨status, s₁, hc, -, hs⟩
    · rw [hc]
      exact h.made hm
    · rw [hc]
      exact h.spared hs
  cases key with
  | none =>
    cases heq
    exact hnew none hfsize
  | some k =>
    rw [Evfs.createOne] at heq
    split at heq
    · cases heq
    · cases heq
      exact h
    · cases heq
      exact hnew (some k) hfsize

theorem openOne (h : Housed size s) {id : Int} (hroom : s.RoomFor id) :
    Housed size (openOne s id).2 := by
  rcases referenceHead_cases h.space h.state hroom with ⟨he, hl, -, href⟩ | ⟨status, -, href⟩
  · have hnonneg : 0 ≤ (s.heads id).refcnt := (h.space.entry id he).refcnt
    rw [Evfs.openOne, href, bump_zero]
    exact h.setCount he hl (show 0 ≤ (s.heads id).refcnt + 1 from Int.le_add_one hnonneg)
  · rw [Evfs.openOne, href .opened (.inr rfl)]
    exact h

theorem closeOne (h : Housed size s) {id : Int} (hroom : s.RoomFor id)
    (heq : closeOne s id = some s') : Housed size s' := by
  rcases closeOne_cases h.space h.state hroom heq with rfl | ⟨he, hl, hpos, rfl⟩
  · exact h
  · exact h.setCount he hl (Int.sub_nonneg_of_le hpos)

theorem hardDelete (h : Housed size s) {id : Int} {r : Int × Fs} (hroom : s.RoomFor id)
    (heq : hardDelete s id = some r) : Housed size r.2 := by
  rw [Evfs.hardDelete] at heq
  rcases referenceHead_cases h.space h.state hroom with ⟨he, hl, href, -⟩ | ⟨status, -, href⟩
  · have hok := h.space.entry id he
    rw [href] at heq
    have hdel : (deleteReferenced (s.setHead id ((s.heads id).bump 1)) id).map (fun s => (0, s)) =
      some r := heq
    rw [deleteReferenced_eq (s := s) hok.ioRefcnt hok.refcnt] at hdel
    cases hdel
    rcases giveUp_cases h.space he with ⟨hgone, hentries, hheads, -⟩ | ⟨-, hwaits, hsame⟩
    · have hnot : id ∉ (giveUp s id (s.heads id).waiting).entries := by
        rw [hentries]
        exact h.space.nodup_entries.not_mem_erase
      exact ⟨hgone.space, state_of_heads h.state (fun hmem => absurd hmem hnot)
        (fun e' he' _ => List.mem_of_mem_erase (hentries ▸ he')) hheads,
        h.steady.step hgone.step hgone.fault hgone.fsize, hgone.step.maxDataSegSize.trans h.segSize,
        hgone.step.size.trans h.size⟩
    · rw [hsame]
      have heased : (s.setHead id (s.heads id).waiting).eased = s.eased := eased_setHead_self rfl
      exact ⟨heased ▸ h.space, state_of_heads h.state (fun _ => .inr hwaits) (fun _ he' _ => he')
        fun e' hne => setHead_heads_ne s hne _, h.steady.congr rfl rfl, h.segSize, h.size⟩
  · rw [href .normal (.inl rfl)] at heq
    cases heq
    exact h

theorem writeData (h : Housed size s) {id : Int} {data : List UInt8} {offset n r : Int}
    (hroom : s.RoomFor id)
    (hdemand : id ∈ s.entries → s.clustersToWrite id offset n ≤ s.vol.idle.length)
    (heq : writeData s id data offset n = some (r, s')) : Housed size s' := by
  rw [writeData_eq] at heq
  split at heq
  · cases heq
    exact h
  rcases referenceHead_cases h.space h.state hroom with ⟨he, hl, href, -⟩ | ⟨status, -, href⟩
  · rw [href] at heq
    obtain ⟨⟨r₁, s₁⟩, hw, hrest⟩ := Option.bind_eq_some_iff.mp heq
    obtain ⟨-, hgrows, hl₁, h₁, h₂, -⟩ := writeBody_referenced h.space he hl hw
    obtain ⟨hderef, hl'⟩ := dereferenceHead_live hl₁ h₁ h₂
    simp only [hderef, Option.map_some] at hrest
    cases hrest
    obtain ⟨l, k, -, hheads⟩ := hgrows.heads
    obtain ⟨g, hstep, -⟩ := hgrows.step
    have hsame := writeBody_sameStates hw
    have hfsize := writeBody_referenced_fsize h.space he h.steady (hdemand he) hw
    have hmem : ∀ e' ∈ s₁.entries, e' ∈ s.entries := fun e' he' =>
      (show s₁.entries = s.entries from hgrows.entries) ▸ he'
    refine ⟨space_setRefs hgrows.space rfl rfl rfl (Int.sub_nonneg_of_le h₁)
      (Int.sub_nonneg_of_le h₂), fun e' he' => ?_, h.steady.step hstep hgrows.fault hfsize,
      hstep.maxDataSegSize.trans h.segSize,
      hstep.size.trans h.size⟩
    by_cases hee : e' = id
    · exact .inl (hee ▸ hl')
    · have hold := setHead_heads_ne s hee ((s.heads id).bump 1)
      have hnew := setHead_heads_ne s₁ hee ((s₁.heads id).drop 1)
      have hrc : (s₁.heads e').refcnt = (s.heads e').refcnt := by
        have heq' := congrFun hheads e'
        rw [Function.update_of_ne hee] at heq'
        have hrefcnt := congrArg Head.refcnt hold
        exact (congrArg Head.refcnt heq').trans hrefcnt
      have hst := (hsame.state e').trans (congrArg Head.state hold)
      have hhd := (hsame.hard e').trans (congrArg Head.hardRemoveOnDetach hold)
      rw [Fs.Live, Fs.Waits, hnew, hst, hhd, hrc]
      exact h.state e' (hmem e' he')
  · rw [href .normal (.inl rfl)] at heq
    cases heq
    exact h

/-- **Each call** that fits keeps the invariant. -/
theorem call (h : Housed size s) {c : Call} (hfits : c.Fits s) (hc : c.exec s = some s') :
    Housed size s' := by
  cases c with
  | createOne key =>
    obtain ⟨r, hr, rfl⟩ := Option.map_eq_some_iff.mp hc
    exact h.createOne hfits hr
  | writeData id data offset n =>
    obtain ⟨⟨r, s₁⟩, hr, rfl⟩ := Option.map_eq_some_iff.mp hc
    exact h.writeData hfits.1 hfits.2 hr
  | openOne id =>
    cases hc
    exact h.openOne hfits
  | closeOne id => exact h.closeOne hfits hc
  | hardDelete id =>
    obtain ⟨r, hr, rfl⟩ := Option.map_eq_some_iff.mp hc
    exact h.hardDelete hfits hr

end Housed

/-! ## A new entry -/

theorem getD_headData {key : List UInt8} (hkey : key.length = maxEntryNameLength) {k : Nat}
    (hk : maxEntryNameLength ≤ k) : (headData (D + sizeofCluster) key).getD k 0 = 0 := by
  have hzero : ∀ n : Nat, (List.replicate n (0 : UInt8)).getD k 0 = 0 := fun n => by
    rw [List.getD_eq_getElem?_getD, List.getElem?_replicate]
    split
    · rfl
    · rfl
  rw [headData, Nat.add_sub_cancel]
  split
  · rename_i hle
    rw [Lib.getD_overwrite (by rw [List.length_replicate]; omega), Lib.patched_of_le (by omega)]
    exact hzero D
  · exact hzero D

/-- The array of a new entry is zero behind the key. -/
theorem Made.bytes {key : Option (List UInt8)} (hm : Made s s' v (newKey key))
    (h : Housed (D + sizeofCluster) s) (hD : maxEntryNameLength ≤ D)
    (hfsize : s'.vol.fsize = s.vol.fsize) :
    ∃ f, Bytes D s'.eased v maxEntryNameLength D f ∧ ∀ k, maxEntryNameLength ≤ k → f k = 0 := by
  have hstep := hm.created.step
  have hkey' : 0 < maxEntryNameLength := by decide
  have hnil : (s'.eased.heads v).elements = [] := by rw [hm.created.head]
  obtain ⟨u, m⟩ := h.steady.mirror
  obtain ⟨u', m', hu'⟩ := hstep.mirror u m (hfsize ▸ h.steady.fsize_le)
  have hbusy := hm.created.space.mem_busy (v := v) hm.mem_self List.mem_cons_self
  have hsize : s.eased.vol.io.cache.hard.clusterSize = D + sizeofCluster := h.size
  have hdata := hu' v (hm.created.space.vol.mem_busy hbusy).1
  rw [if_pos rfl, hsize] at hdata
  refine ⟨_, ⟨hm.created.space, hm.mem_self, hstep.size.trans h.size, ?_, ?_, ?_, fun _ => rfl,
    fun i w hi => ?_, u', m', rfl⟩, fun k hk => ?_⟩
  · rw [viewGetDataSegSize, hm.created.size]
    decide
  · rw [hnil]
    exact Nat.lt_of_lt_of_le hkey' hD
  · rw [hnil]
    exact Nat.le_of_eq (Nat.mul_one D).symm
  · rw [hnil] at hi
    cases hi
  · rw [content, blockAt, Fs.chain, hnil]
    rcases Nat.lt_or_ge k D with hlt | hge
    · rw [Nat.div_eq_of_lt hlt, Nat.mod_eq_of_lt hlt]
      show (udata (D + sizeofCluster) u' v).getD k 0 = 0
      rw [hdata]
      exact getD_headData (length_newKey key) hk
    · have hdiv : 1 ≤ k / D := (Nat.one_le_div_iff (by omega)).mpr hge
      rw [List.getElem?_eq_none (by rw [List.length_singleton]; exact hdiv)]

/-- What the search for the key leaves of a creation. -/
theorem createNew_of_createOne {key : Option (List UInt8)} {v : Int}
    (heq : createOne s key = some (0, v, s')) : createNew s key = (0, v, s') := by
  cases key with
  | none =>
    rw [createOne] at heq
    exact Option.some.inj heq
  | some k =>
    rw [createOne] at heq
    split at heq
    · cases heq
    · cases heq
    · exact Option.some.inj heq

theorem Housed.made_of_createOne (h : Housed size s) {key : Option (List UInt8)}
    (heq : Evfs.createOne s key = some (0, v, s')) : Made s s' v (newKey key) := by
  have hnew := createNew_of_createOne heq
  rcases createNew_spec_eased h.space key with ⟨w, s₁, hc, hm⟩ | ⟨status, s₁, hc, hneg, -⟩
  · rw [hc] at hnew
    cases hnew
    exact hm
  · rw [hc] at hnew
    cases hnew
    exact absurd hneg (lt_irrefl 0)

/-! ## Runs -/

/-- The manager with the outcomes of the next allocations. -/
def Vol.deny (s : Vol) (allocFaults : List Bool) : Vol :=
  { s with io := { s.io with allocFaults } }

def Fs.deny (s : Fs) (allocFaults : List Bool) : Fs := s.setVol (s.vol.deny allocFaults)

/-- A call that fits, whether a caller may make it or not. -/
def Makes (s : Fs) (c : Call) (s' : Fs) : Prop := c.Fits s ∧ c.exec s = some s'

/-- A call, where it fits. -/
def Call.tryMake (s : Fs) (c : Call) : Option Fs := if c.Fits s then c.exec s else none

theorem makes_of_tryMake (s : Fs) (c : Call) (s' : Fs) (h : c.tryMake s = some s') :
    Makes s c s' := by
  rw [Call.tryMake] at h
  split at h
  · exact ⟨‹_›, h⟩
  · cases h

/-- **Every run** of calls that fit on a new file system keeps the invariant; where a new entry can be
made there are views. -/
theorem housed_of_run {garbage : Garbage} {clusterSize clusterCount status : Int}
    {cacheBlockNum : Nat} {s₀ : Fs} {key : Option (List UInt8)}
    (hfit : clusterSize * clusterCount < 2 ^ 31)
    (hcreate : evfsCreate garbage Fs.init clusterSize clusterCount cacheBlockNum [] [] [] =
      some (status, s₀)) (hstatus : nspSuccess status = true)
    {calls : List Call} (hrun : Lib.Run Makes s₀ calls s)
    (hnew : createOne s key = some (0, v, s')) : Housed clusterSize.toNat s := by
  obtain ⟨fresh, hsize, -, hspace⟩ := fresh_of_evfsCreate hfit hcreate hstatus
  rcases hspace with ⟨hcount, hspace⟩ | hdead
  · have hno : ∀ e, e ∉ s₀.entries := fun e he => by
      rw [fresh.entries] at he
      cases he
    have hstored := (stored_of_evfsCreate hcount hfit hcreate hstatus).1
    have h₀ : Housed clusterSize.toNat s₀ :=
      ⟨hspace.congr_heads fun e he => absurd he (hno e), fun e he => absurd he (hno e),
        hstored.steady,
        fresh.segSize.trans (hspace.maxDataSegSize.trans (by rw [hsize])), hsize⟩
    exact hrun.invariant (fun s c s' h hc => h.call hc.1 hc.2) h₀
  · -- without a view no entry can be made
    have hdead' := hrun.invariant (P := Dead) (fun s c s' hd hc => by
      have hallowed : c.Allowed s := by
        cases c with
        | hardDelete id =>
          intro he
          rw [hd.entries] at he
          cases he
        | _ => trivial
      rw [hd.call ⟨hallowed, hc.2⟩]
      exact hd) hdead
    have hfail := hdead'.createNew_eq key
    rw [createNew_of_createOne hnew] at hfail
    cases hfail

end Evfs

end LibNax
