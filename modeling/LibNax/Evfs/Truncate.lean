import LibNax.Evfs.Access
import LibNax.Evfs.Limits

/-!
# Truncating an entry

`evfs_entries_truncate`, in any state that writes and earlier calls of it lead to.

The function works with three numbers that need not agree: the length in the header of the head, the
number of the elements, and the size in use of each element.  A write may leave the last element in
use in part only, a truncation sets the length and nothing else where the number of the elements is
right already, and a larger size adds elements without asking how much of the old ones is in use.  So
what an entry holds cannot be read off its length.  It is defined by what a read finds: `stored` are
the bytes of the head and of the elements that are in use, up to the first element that is not, and
`readBytes_stored` says that every read from the start gives a part of them, as far as the length
goes.  This is an induction on the elements, and the only place that looks at single bytes.

With that, a truncation is a statement on lists.  It is to leave the bytes of before, cut off or
filled up with zeros (`Truncated`).  The code does so in two cases.  In the first the number of the
elements stays, the new end is inside of what is stored, and what lies between the old and the new
end is zero already, for the code clears nothing.  In the second the entry has only its head and gets
its first element; a new element comes from `evfs_view_acquire_idle` cleared, and with one of them
the loop that sets the size in use of the last element sets the right one.  Both are in `Refit`, and
`stored_refit` says what is stored afterwards.  `Resizable` says when one of the cases applies and is
a condition on the state before, that can be evaluated.

For a smaller number of elements the code unlinks the elements and leaves their clusters to nobody,
since only the elements of an entry that is to be deleted are given back; for more than one new
element it takes too many, and sets the size of one of them only.  There the call does not do what
it is for, whatever the sizes are, and `truncate_not_truncated` shows it.

The theorem is about runs.  Between two calls the entry is `Resting`, and a call that fits keeps that;
so it holds in every state that writes, with any offset and size, and truncations lead to.  No call
may make the file larger: this reads memory that was freed.

* `stored` — the bytes of an entry that can be read, whatever its length.
* `Resting` — an entry between two calls.
* `Truncated` — what a call is to do: the elements, the length, the bytes, and the clusters.
* `Resizable`, `truncate_truncated` — when it does: where no element is dropped, and a new one is
  the first.
* `truncate_not_truncated` — an entry of two clusters is cut down to one.
-/

set_option autoImplicit false

namespace LibNax

namespace Evfs

open Lib (Run int32 slice)

variable {s s' s₁ : Fs} {vol : Vol} {u : List (List UInt8)} {e v : Int} {D : Nat}

/-! ## What can be read -/

/-- The bytes of elements that are in use, up to one that is not. -/
def inUse (D : Nat) (u : List (List UInt8)) (vol : Vol) : List Int → List UInt8
  | [] => []
  | v :: views =>
    if viewGetDataSegSize vol v ≤ 0 then []
    else (udata (D + sizeofCluster) u v).take (viewGetDataSegSize vol v).toNat ++
      inUse D u vol views

/-- The views of an entry, where a read finds what is on the disk. -/
structure Served (D : Nat) (vol : Vol) (u : List (List UInt8)) (views : List Int) : Prop where
  wf : vol.Wf
  mirror : Mirror vol u
  clusterSize : vol.io.cache.hard.clusterSize = D + sizeofCluster
  busy : ∀ v ∈ views, v ∈ vol.busy
  used : ∀ v ∈ views, ¬vol.Unused v

namespace Served

variable {views : List Int}

theorem length_udata (h : Served D vol u views) (hv : v ∈ views) :
    (udata (D + sizeofCluster) u v).length = D := by
  obtain ⟨h₁, h₂⟩ := h.wf.mem_busy (h.busy v hv)
  rw [← h.clusterSize, h.mirror.length_udata h₁ h₂, h.clusterSize, Nat.add_sub_cancel]

/-- A read inside of a cluster. -/
theorem readUserdata (h : Served D vol u views) (hv : v ∈ views) {off k : Nat}
    (hfit : off + k ≤ D) :
    ∃ io, viewReadUserdata vol v off k =
        ((k : Int), slice (udata (D + sizeofCluster) u v) off k, { vol with io }) ∧
      Served D { vol with io } u views := by
  rcases Nat.eq_zero_or_pos k with rfl | hk
  · refine ⟨vol.io, ?_, h⟩
    rw [viewReadUserdata, if_pos (.inr (.inl (Int.le_refl 0))), slice, List.take_zero]
    rfl
  have hbusy := h.busy v hv
  have husable : vol.Usable v off k :=
    ⟨Int.natCast_nonneg off, by omega, h.used v hv, by rw [h.clusterSize]; omega⟩
  obtain ⟨io, heq, hmirror⟩ := h.mirror.readUserdata h.wf hbusy husable
  have hstep := step_readUserdata h.wf hbusy off k
  obtain ⟨hwf, -⟩ := wf_readUserdata h.wf v off k
  rw [heq] at hwf hstep
  rw [Int.toNat_natCast, Int.toNat_natCast, h.clusterSize] at heq
  exact ⟨io, heq, hwf, hmirror, hstep.size.trans h.clusterSize, h.busy, h.used⟩

theorem tail (h : Served D vol u (v :: views)) : Served D vol u views :=
  { h with
    busy := fun w hw => h.busy w (List.mem_cons_of_mem _ hw)
    used := fun w hw => h.used w (List.mem_cons_of_mem _ hw) }

end Served

theorem length_inUse_le {views : List Int} (hsized : ∀ w ∈ views, viewGetDataSegSize vol w ≤ D) :
    (inUse D u vol views).length ≤ D * views.length := by
  induction views with
  | nil => exact Nat.zero_le _
  | cons v views ih =>
    have hv := hsized v List.mem_cons_self
    have hrest := ih fun w hw => hsized w (List.mem_cons_of_mem _ hw)
    rw [inUse]
    split
    · exact Nat.zero_le _
    · rw [List.length_append, List.length_take, List.length_cons, Nat.mul_succ]
      omega

theorem inUse_congr {vol' : Vol} {u' : List (List UInt8)} {views : List Int}
    (h : ∀ w ∈ views, viewGetDataSegSize vol' w = viewGetDataSegSize vol w ∧
      udata (D + sizeofCluster) u' w = udata (D + sizeofCluster) u w) :
    inUse D u' vol' views = inUse D u vol views := by
  induction views with
  | nil => rfl
  | cons v views ih =>
    obtain ⟨hsize, hdata⟩ := h v List.mem_cons_self
    rw [inUse, inUse, hsize, hdata, ih fun w hw => h w (List.mem_cons_of_mem _ hw)]

/-- **Reading elements** from a byte in use of the first one on, by induction on them. -/
theorem readElement_inUse (views : List Int) : ∀ {s : Fs} {off m : Nat},
    Served D s.vol u views → s.maxDataSegSize = D → off < D →
    (∀ v ∈ views.head?, 0 < viewGetDataSegSize s.vol v → off ≤ viewGetDataSegSize s.vol v) →
    (∀ v ∈ views, viewGetDataSegSize s.vol v ≤ D) →
    ∃ s', readElement s views off m = (((((inUse D u s.vol views).drop off).take m).length : Int),
      ((inUse D u s.vol views).drop off).take m, s') := by
  induction views with
  | nil =>
    intro s off m _ _ _ _ _
    exact ⟨s, by rw [inUse, List.drop_nil, List.take_nil]; rfl⟩
  | cons v views ih =>
    intro s off m h hmax hD hoff hsized
    have hv := hsized v List.mem_cons_self
    have hlen := h.length_udata List.mem_cons_self
    rw [readElement, inUse]
    simp only [hmax]
    by_cases hseg : viewGetDataSegSize s.vol v ≤ 0
    · rw [if_pos (.inr (.inr (.inr hseg))), if_pos hseg]
      exact ⟨s, by rw [List.drop_nil, List.take_nil]; rfl⟩
    rw [if_neg hseg]
    rcases Nat.eq_zero_or_pos m with rfl | hm
    · rw [if_pos (.inl (Int.le_refl 0))]
      exact ⟨s, by rw [List.take_zero]; rfl⟩
    rw [if_neg (by omega)]
    have hle := hoff v rfl (by omega)
    obtain ⟨g, hg⟩ := Int.eq_ofNat_of_zero_le (Int.le_of_not_le hseg)
    rw [hg] at hseg hv hle ⊢
    rw [Int.toNat_natCast]
    obtain ⟨k, hk⟩ : ∃ k : Nat, k = min m (g - off) := ⟨_, rfl⟩
    rw [show min (m : Int) (g - off) = (k : Int) by omega]
    obtain ⟨io, hread, hserved⟩ := h.readUserdata List.mem_cons_self (show off + k ≤ D by omega)
    simp only [hread, ne_eq, not_true_eq_false, false_or]
    -- what is in use of the first element, from the offset on
    have hfirst : (((udata (D + sizeofCluster) u v).take g).drop off).length = g - off := by
      rw [List.length_drop, List.length_take]
      omega
    generalize hA : ((udata (D + sizeofCluster) u v).take g).drop off = A at hfirst
    have hslice : slice (udata (D + sizeofCluster) u v) off k = A.take k := by
      rw [slice, ← hA, List.drop_take, List.take_take, Nat.min_eq_left (by omega)]
    rw [List.drop_append_of_le_length (by rw [List.length_take]; omega), hA, hslice]
    rcases Nat.lt_or_ge (g - off) m with hlt | hge
    · have hkg : k = g - off := by omega
      rw [if_neg (by omega)]
      obtain ⟨s', hrec⟩ := ih (s := s.setVol { s.vol with io }) (m := m - k) hserved.tail hmax
        (show 0 < D by omega) (fun w _ hpos => Int.le_of_lt hpos)
        fun w hw => hsized w (List.mem_cons_of_mem _ hw)
      have hsame : inUse D u (s.setVol { s.vol with io }).vol views = inUse D u s.vol views :=
        inUse_congr fun _ _ => ⟨rfl, rfl⟩
      rw [show ((0 : Nat) : Int) = 0 from rfl, List.drop_zero, hsame] at hrec
      have htake : A.take k = A := List.take_of_length_le (by omega)
      rw [show (m : Int) - k = ((m - k : Nat) : Int) by omega, hrec, List.take_append,
        hfirst, htake,
        List.take_of_length_le (l := A) (by omega), List.length_append, hfirst, ← hkg,
        Int.natCast_add]
      exact ⟨s', rfl⟩
    · have hkm : k = m := by omega
      rw [hkm, if_pos rfl, List.take_append_of_le_length (by omega), List.length_take, hfirst,
        Nat.min_eq_left hge]
      exact ⟨_, rfl⟩

/-- The bytes of an entry that can be read, whatever its length: those of its first cluster, and
those of its elements that are in use. -/
def stored (s : Fs) (e : Int) : List UInt8 :=
  (viewReadUserdata s.vol e 0 s.maxDataSegSize).2.1 ++
    (readElement s (s.heads e).elements 0 (2 ^ 31 - 1)).2.1

theorem stored_eq (h : Served D s.vol u (s.chain e)) (hmax : s.maxDataSegSize = D) (hD : 0 < D)
    (hsized : ∀ w ∈ (s.heads e).elements, viewGetDataSegSize s.vol w ≤ D) :
    stored s e = udata (D + sizeofCluster) u e ++
      (inUse D u s.vol (s.heads e).elements).take (2 ^ 31 - 1) := by
  have hself : e ∈ s.chain e := List.mem_cons_self
  obtain ⟨io, hread, -⟩ := h.readUserdata hself (show 0 + D ≤ D by omega)
  obtain ⟨s', helems⟩ := readElement_inUse (m := 2 ^ 31 - 1) _ h.tail hmax hD
    (fun w _ hpos => Int.le_of_lt hpos) hsized
  rw [slice, List.drop_zero, List.take_of_length_le (Nat.le_of_eq (h.length_udata hself)),
    show ((0 : Nat) : Int) = 0 from rfl] at hread
  rw [show ((2 ^ 31 - 1 : Nat) : Int) = 2 ^ 31 - 1 from rfl, show ((0 : Nat) : Int) = 0 from rfl,
    List.drop_zero] at helems
  rw [stored, hmax, hread, helems]

/-- The first bytes behind the key are in use.  Only where the key takes the whole of the first
cluster they are not in it. -/
def KeyInUse (s : Fs) (e : Int) : Prop :=
  ∀ v ∈ (s.heads e).elements.head?,
    (maxEntryNameLength : Int) ≤ s.maxDataSegSize + viewGetDataSegSize s.vol v

/-- **Reading** from the end of the key on. -/
theorem readBytes_stored (h : Served D s.vol u (s.chain e)) (hmax : s.maxDataSegSize = D)
    (hD : 20 ≤ D) (hD' : D < 2 ^ 30)
    (hsized : ∀ w ∈ (s.heads e).elements, viewGetDataSegSize s.vol w ≤ D) (hkey : KeyInUse s e)
    {L n : Nat} (hlen : viewGetDataSegSize s.vol e = L) (hL : L < 2 ^ 31) (hn : 0 < n) :
    ∃ s', readBytes s e maxEntryNameLength n =
      ((((((stored s e).take L).drop maxEntryNameLength).take n).length : Int),
        (((stored s e).take L).drop maxEntryNameLength).take n, s') := by
  have hname : maxEntryNameLength = 32 := rfl
  have hself : e ∈ s.chain e := List.mem_cons_self
  have hdata := h.length_udata hself
  rw [stored_eq h hmax (by omega) hsized, readBytes, hlen]
  simp only [hmax]
  rw [Lib.int32_of_inInt32 (x := (L : Int) - maxEntryNameLength) ⟨by omega, by omega⟩]
  rcases Nat.lt_or_ge maxEntryNameLength L with hlt | hge
  · obtain ⟨k, hk⟩ : ∃ k : Nat, k = min n (L - maxEntryNameLength) := ⟨_, rfl⟩
    have hcut : ∀ S : List UInt8, ((S.take L).drop maxEntryNameLength).take n =
        (S.drop maxEntryNameLength).take k := fun S => by
      rw [List.drop_take, List.take_take, hk]
    have hmin : ∀ j (X : List UInt8), j ≤ k → (X.take (2 ^ 31 - 1)).take j = X.take j :=
      fun j X hj => by rw [List.take_take, Nat.min_eq_left (by omega)]
    rw [hcut, show min ((L : Int) - maxEntryNameLength) n = (k : Int) by omega, if_neg (by omega)]
    obtain ⟨X, hX⟩ : ∃ X, X = inUse D u s.vol (s.heads e).elements := ⟨_, rfl⟩
    rw [← hX]
    rcases Nat.lt_or_ge maxEntryNameLength D with hfirst | hbehind
    · -- the first bytes are in the first cluster
      obtain ⟨j, hj⟩ : ∃ j : Nat, j = min (D - maxEntryNameLength) k := ⟨_, rfl⟩
      obtain ⟨io, hread, hserved⟩ := h.readUserdata hself (show maxEntryNameLength + j ≤ D by omega)
      have hB : ((udata (D + sizeofCluster) u e).drop maxEntryNameLength).length =
          D - maxEntryNameLength := by rw [List.length_drop, hdata]
      rw [if_pos (by omega), Lib.int32_of_inInt32 ⟨by omega, by omega⟩,
        show min ((D : Int) - maxEntryNameLength) k = (j : Int) by omega, hread, slice,
        List.drop_append_of_le_length (by omega)]
      generalize (udata (D + sizeofCluster) u e).drop maxEntryNameLength = B at hB
      simp only [ne_eq, not_true_eq_false, false_or]
      rcases Nat.lt_or_ge j k with hlt' | hge
      · obtain ⟨s', hrec⟩ := readElement_inUse (s := s.setVol { s.vol with io }) (m := k - j) _
          hserved.tail hmax (show 0 < D by omega) (fun w _ hpos => Int.le_of_lt hpos) hsized
        have hsame : inUse D u (s.setVol { s.vol with io }).vol (s.heads e).elements = X := by
          rw [hX]
          exact inUse_congr fun _ _ => ⟨rfl, rfl⟩
        rw [show ((0 : Nat) : Int) = 0 from rfl, List.drop_zero, hsame] at hrec
        have hBj : B.take j = B := List.take_of_length_le (by omega)
        have hjB : B.length = j := by omega
        rw [if_neg (by omega), show (k : Int) - j = ((k - j : Nat) : Int) by omega, hrec, hBj,
          List.take_append, List.take_of_length_le (l := B) (by omega), hjB,
          hmin _ _ (Nat.sub_le k j), List.length_append, hjB, Int.natCast_add]
        exact ⟨s', rfl⟩
      · have hjk : j = k := by omega
        rw [hjk, if_pos rfl, List.take_append_of_le_length (by omega), List.length_take,
          Nat.min_eq_left (by omega)]
        exact ⟨_, rfl⟩
    · -- the key takes the whole of the first cluster
      have hseek : seekRead s (s.heads e).elements ((maxEntryNameLength : Int) - D) =
          ((s.heads e).elements, ((maxEntryNameLength - D : Nat) : Int)) := by
        rw [show (maxEntryNameLength : Int) - D = ((maxEntryNameLength - D : Nat) : Int) by omega]
        cases (s.heads e).elements with
        | nil => rfl
        | cons v views => rw [seekRead, hmax, if_neg (by omega)]
      have hoff : ∀ w ∈ (s.heads e).elements.head?, 0 < viewGetDataSegSize s.vol w →
          ((maxEntryNameLength - D : Nat) : Int) ≤ viewGetDataSegSize s.vol w := fun w hw _ => by
        have := hkey w hw
        rw [hmax] at this
        omega
      obtain ⟨s', hread⟩ := readElement_inUse (m := k) _ h.tail hmax
        (show maxEntryNameLength - D < D by omega) hoff hsized
      rw [← hX] at hread
      have hdrop : ((udata (D + sizeofCluster) u e ++ X.take (2 ^ 31 - 1)).drop
          maxEntryNameLength).take k = (X.drop (maxEntryNameLength - D)).take k := by
        rw [List.drop_append, List.drop_eq_nil_of_le (by omega), List.nil_append, hdata,
          List.drop_take, List.take_take, Nat.min_eq_left (by omega)]
      rw [if_neg (by omega), hseek, hread, hdrop]
      exact ⟨s', rfl⟩
  · rw [if_pos (.inr (by omega)), List.drop_eq_nil_of_le (by rw [List.length_take]; omega),
      List.take_nil]
    exact ⟨s, rfl⟩

/-! ## An entry between two calls -/

/-- The entry `e` is in use, and no call works on it. -/
structure Resting (D : Nat) (s : Fs) (e : Int) : Prop where
  space : Space s.eased []
  mem : e ∈ s.entries
  live : s.Live e
  room : (s.heads e).Room
  ioRefcnt : (s.heads e).ioRefcnt = 0
  clusterSize : s.vol.io.cache.hard.clusterSize = D + sizeofCluster
  segSize : s.vol.maxDataSegSize = D
  sized : s.Sized e
  steady : s.Steady

/-- Every read from the start of the entry gives the first ones of these bytes. -/
def Yields (s : Fs) (e : Int) (bytes : List UInt8) : Prop :=
  ∀ n : Nat, 0 < n →
    ∃ s', readData s e 0 n = some (((bytes.take n).length : Int), bytes.take n, s')

namespace Resting

theorem maxDataSegSize (h : Resting D s e) : s.maxDataSegSize = D := by
  have hmax : s.maxDataSegSize = s.vol.io.cache.hard.clusterSize - sizeofCluster :=
    h.space.maxDataSegSize
  rw [hmax, h.clusterSize]
  omega

theorem bounds (h : Resting D s e) : 20 ≤ D ∧ D < 2 ^ 30 := by
  have := h.space.maxDataSegSize_bounds
  rw [eased_maxDataSegSize, h.maxDataSegSize] at this
  omega

/-- What an element has in use. -/
theorem segSize_element (h : Resting D s e) (hv : v ∈ (s.heads e).elements) :
    viewGetDataSegSize s.vol v = (s.vol.cluster v).dataSegSize ∧
      viewGetDataSegSize s.vol v ≤ D := by
  have hnonneg : 0 ≤ (s.vol.cluster v).dataSegSize := (h.space.entry e h.mem).elementSize v hv
  have heq : viewGetDataSegSize s.vol v = (s.vol.cluster v).dataSegSize :=
    elementSize_of_nonneg hnonneg
  have hle := h.sized v hv
  rw [h.maxDataSegSize] at hle
  exact ⟨heq, heq ▸ hle⟩

theorem served (h : Resting D s e) {u : List (List UInt8)} (m : Mirror s.vol u) :
    Served D s.vol u (s.chain e) where
  wf := h.space.vol
  mirror := m
  clusterSize := h.clusterSize
  busy := fun _ hv => h.space.mem_busy h.mem hv
  used := fun v hv hun => by
    have hpos := (h.space.vol.mem_busy (h.space.mem_busy h.mem (v := e) List.mem_cons_self)).1
    have hid : (s.vol.cluster v).headClusterId = e := (h.space.entry e h.mem).headId v hv
    rw [hun.2] at hid
    omega

theorem stored_eq (h : Resting D s e) {u : List (List UInt8)} (m : Mirror s.vol u) :
    stored s e = udata (D + sizeofCluster) u e ++
      (inUse D u s.vol (s.heads e).elements).take (2 ^ 31 - 1) := by
  have := h.bounds
  exact Evfs.stored_eq (h.served m) h.maxDataSegSize (by omega)
    fun w hw => (h.segSize_element hw).2

/-- The bytes of an entry, as far as it is long. -/
theorem yields (h : Resting D s e) (hkey : KeyInUse s e) :
    Yields s e (((stored s e).take (viewGetDataSegSize s.vol e).toNat).drop
      maxEntryNameLength) := by
  intro n hn
  obtain ⟨u, m⟩ := h.steady.mirror
  have hbounds := h.bounds
  obtain ⟨-, hnonneg, hlt⟩ := h.space.viewGetDataSegSize_head h.mem
  rw [eased_vol] at hnonneg hlt
  have helems : ((s.setHead e ((s.heads e).bump 1)).heads e).elements = (s.heads e).elements := by
    rw [setHead_heads_self]
    rfl
  have hchain : (s.setHead e ((s.heads e).bump 1)).chain e = s.chain e := by
    rw [Fs.chain, helems, Fs.chain]
  have hserved : Served D (s.setHead e ((s.heads e).bump 1)).vol u
      ((s.setHead e ((s.heads e).bump 1)).chain e) := hchain ▸ h.served m
  have hsized : ∀ w ∈ ((s.setHead e ((s.heads e).bump 1)).heads e).elements,
      viewGetDataSegSize s.vol w ≤ D := fun w hw => (h.segSize_element (helems ▸ hw)).2
  have hstored : stored (s.setHead e ((s.heads e).bump 1)) e = stored s e := by
    rw [h.stored_eq m, Evfs.stored_eq hserved h.maxDataSegSize (by omega) hsized, helems]
    rfl
  obtain ⟨s', hread⟩ := readBytes_stored hserved h.maxDataSegSize hbounds.1 hbounds.2 hsized
    (fun w hw => hkey w (helems ▸ hw)) (Int.toNat_of_nonneg hnonneg).symm (by omega) hn
  rw [hstored] at hread
  have hcpoff : int32 ((maxEntryNameLength : Int) + 0) = (maxEntryNameLength : Int) := by decide
  rw [← hcpoff] at hread
  exact ⟨_, (readData_referenced h.space h.mem h.live h.room (Int.le_refl 0) (by omega) hread).1⟩

/-- What is done to the entry between taking a reference and giving it back. -/
theorem grows (h : Resting D s e) {head head' : Head}
    (helems : head.elements = (s.heads e).elements)
    {K : Prop} (hg : Grows K (s.setHead e head).eased s₁.eased e)
    (hfsize : s₁.vol.fsize = s.vol.fsize) (helems' : head'.elements = (s₁.heads e).elements)
    (hspace : Space (s₁.setHead e head').eased []) (hlive : (s₁.setHead e head').Live e)
    (hroom : head'.Room) (hio : head'.ioRefcnt = 0) : Resting D (s₁.setHead e head') e := by
  obtain ⟨g, hstep, -⟩ := hg.step
  have hself : ((s.setHead e head).eased.heads e).elements = (s.heads e).elements := by
    rw [eased_elements, setHead_heads_self, helems]
  have hsized := hg.sized fun w hw => h.sized w (hself ▸ hw)
  refine ⟨hspace, hg.entries.symm ▸ h.mem, hlive, ?_, ?_, hstep.size.trans h.clusterSize,
    hstep.maxDataSegSize.trans h.segSize, fun w hw => ?_, h.steady.step hstep hg.fault hfsize⟩
  · rw [setHead_heads_self]
    exact hroom
  · rw [setHead_heads_self, hio]
  · rw [setHead_heads_self, helems'] at hw
    exact hsized w hw

/-- **A write**, whatever its arguments are. -/
theorem writeData (h : Resting D s e) {data : List UInt8} {offset n r : Int}
    (hdemand : s.clustersToWrite e offset n ≤ s.vol.idle.length)
    (heq : writeData s e data offset n = some (r, s')) : Resting D s' e := by
  rw [writeData_eq] at heq
  split at heq
  · cases heq
    exact h
  rw [referenceHead_live h.space h.mem h.live h.room] at heq
  obtain ⟨⟨r₁, s₁⟩, hw, hrest⟩ := Option.bind_eq_some_iff.mp heq
  obtain ⟨-, hgrows, hl₁, h₁, h₂, hc⟩ := writeBody_referenced h.space h.mem h.live hw
  have hfsize := writeBody_referenced_fsize h.space h.mem h.steady hdemand hw
  obtain ⟨hderef, hl'⟩ := dereferenceHead_live hl₁ h₁ h₂
  simp only [hderef, Option.map_some] at hrest
  cases hrest
  have helems : ((s.heads e).bump 1).elements = (s.heads e).elements := rfl
  refine h.grows helems hgrows hfsize rfl (space_setRefs hgrows.space rfl rfl rfl
    (Int.sub_nonneg_of_le h₁) (Int.sub_nonneg_of_le h₂)) hl' (hc.room h.room) ?_
  show (s₁.heads e).ioRefcnt - 1 = 0
  rw [hc.ioRefcnt, h.ioRefcnt]
  rfl

end Resting

/-! ## Resizing -/

/-- A size that fits in `n + 1` clusters and not in `n`. -/
theorem viewTransferSizeToClusterCount_eq {n size : Nat} (hseg : vol.maxDataSegSize = D)
    (hlower : D * n < size) (hupper : size ≤ D * (n + 1)) :
    viewTransferSizeToClusterCount vol size = (n + 1 : Nat) := by
  rw [Nat.mul_succ] at hupper
  have hD : 0 < D := by omega
  rw [viewTransferSizeToClusterCount, hseg, if_neg (by omega), ← Int.natCast_ediv,
    ← Int.natCast_emod]
  rcases Nat.lt_or_eq_of_le hupper with hlt | rfl
  · have hdiv : size / D = n :=
      Nat.div_eq_of_lt_le (by rw [Nat.mul_comm]; omega) (by rw [Nat.mul_comm, Nat.mul_succ]; omega)
    have hmod : size % D ≠ 0 := by
      have := Nat.div_add_mod size D
      rw [hdiv] at this
      omega
    rw [hdiv, if_neg (by omega)]
    omega
  · rw [← Nat.mul_succ, Nat.mul_div_cancel_left _ hD, Nat.mul_mod_right]
    exact Int.add_zero _

/-- The elements of an entry and the clusters of the disk, before and after it is resized. -/
inductive Refit (D : Nat) (vol vol' : Vol) (e : Int) : List Int → List Int → Prop
  | same {elements : List Int}
      (busy : vol'.busy = vol.busy)
      (size : ∀ w, w ≠ e → (vol'.cluster w).dataSegSize = (vol.cluster w).dataSegSize)
      (step : Step vol vol' unchanged) : Refit D vol vol' e elements elements
  | first {v : Int} (notMem : v ∉ vol.busy)
      (busy : vol'.busy = vol.busy ++ [v])
      (size : (vol'.cluster v).dataSegSize = D)
      (step : Step vol vol' fun w b => if w = v then List.replicate D 0 else b) :
      Refit D vol vol' e [] [v]

/-- What resizing an entry has done. -/
structure SetTo (D : Nat) (vol vol' : Vol) (e : Int) (l l' : List Int) (size : Nat) : Prop where
  fsize : vol'.fsize = vol.fsize
  length : viewGetDataSegSize vol' e = size
  lower : D * l'.length < size
  upper : size ≤ D * (l'.length + 1)
  refit : Refit D vol vol' e l l'

/-- The length changes, and the number of the elements does not. -/
theorem resize_same (h : Space s.eased []) (he : e ∈ s.entries) (hs : s.Steady)
    (hseg : s.vol.maxDataSegSize = D) {size : Nat} (hint : size < 2 ^ 31)
    (hlower : D * (s.heads e).elements.length < size)
    (hupper : size ≤ D * ((s.heads e).elements.length + 1)) :
    ∃ status s', resize s e size = some (status, s') ∧ nspSuccess status = true ∧
      Grows True s.eased s'.eased e ∧ SameStates s s' ∧
        SetTo D s.vol s'.vol e (s.heads e).elements (s'.heads e).elements size := by
  have hcount : (s.heads e).countOfElements = (s.heads e).elements.length := (h.entry e he).count
  have hset : SizeSet s.vol e size (viewSetHeadDataSegSize s.vol e size) :=
    setHeadSize_spec h he (by omega) hint
  have hgrows := grows_setHeadDataSegSize (K := True) h he (show (0 : Int) < size by omega)
    ⟨by omega, by omega⟩
  rw [eased_vol, ← eased_setVol] at hgrows
  rw [resize, viewTransferSizeToClusterCount_eq hseg hlower hupper]
  simp only [hcount]
  by_cases hsame : (size : Int) = viewGetDataSegSize s.vol e
  · rw [if_pos hsame]
    exact ⟨0, s, rfl, nspSuccess_zero, .refl h e, .refl s, rfl, hsame.symm, hlower, hupper,
      .same rfl (fun _ _ => rfl) (.refl _)⟩
  · rw [if_neg hsame, if_neg (by omega), if_pos (by omega)]
    obtain ⟨u, m⟩ := hs.mirror
    refine ⟨_, _, rfl, ?_, hgrows, sameStates_setVol s _, hset.fsize, hset.size_self, hlower,
      hupper, .same hset.busy hset.size hset.step⟩
    rw [hset.status m]
    exact nspSuccess_zero

/-- The first element of an entry, in use in full. -/
structure Filled (D : Nat) (vol vol' : Vol) (v : Int) : Prop where
  fsize : vol'.fsize = vol.fsize
  notMem : v ∉ vol.busy
  busy : vol'.busy = vol.busy ++ [v]
  size_self : (vol'.cluster v).dataSegSize = D
  size : ∀ w ∈ vol.busy, (vol'.cluster w).dataSegSize = (vol.cluster w).dataSegSize
  step : Step vol vol' fun w b => if w = v then List.replicate D 0 else b

theorem fill_first (h : Space s.eased []) (he : e ∈ s.entries) (hmax : s.maxDataSegSize = D)
    (hidle : s.vol.idle ≠ []) (hnil : (s.heads e).elements = []) (happ : Appended s.eased s₁.eased e v) :
    ∃ s', fillLastElement 1 s₁ e = some s' ∧ Grows True s.eased s'.eased e ∧ SameStates s₁ s' ∧
      (s'.heads e).elements = [v] ∧ Filled D s.vol s'.vol v := by
  have hbounds := h.maxDataSegSize_bounds
  have hmax₁ : s₁.maxDataSegSize = D := happ.maxDataSegSize.trans hmax
  have helems : (s₁.heads e).elements = [v] := by
    have hhead := congrFun happ.heads e
    rw [Function.update_self, eased_elements, hnil] at hhead
    exact congrArg Head.elements hhead
  have hvbusy : v ∈ s₁.vol.busy := by
    rw [show s₁.vol.busy = s.vol.busy ++ [v] from happ.busy]
    exact List.mem_append_right _ (List.mem_singleton_self v)
  have hsize : elementSize (D : Int) = D := elementSize_of_nonneg (Int.natCast_nonneg D)
  rw [eased_maxDataSegSize, hmax] at hbounds
  have hput := grows_putDataSegSize (K := True) happ.space hvbusy
    (show (D : Int) < 0 ↔ (s₁.vol.cluster v).dataSegSize < 0 by
      rw [show (s₁.vol.cluster v).dataSegSize = 0 from happ.size_self]
      omega) ⟨by omega, by omega⟩ (Int.le_of_eq hmax₁.symm) e
  refine ⟨s₁.setVol (s₁.vol.putDataSegSize v D).2, ?_, (happ.grows h he).trans hput,
    sameStates_setVol s₁ _, helems, ?_⟩
  · rw [fillLastElement, helems, hmax₁]
    simp only [List.getLast?_singleton, fillLastElement, viewSetElementDataSegSize, hsize]
  · have hstep := happ.step.trans (step_putDataSegSize happ.space.vol hvbusy
      (show Lib.InInt32 (D : Int) from ⟨by omega, by omega⟩))
    have hcluster : s.eased.vol.io.cache.hard.clusterSize - sizeofCluster = D := by
      have : s.maxDataSegSize = s.eased.vol.io.cache.hard.clusterSize - sizeofCluster :=
        h.maxDataSegSize
      omega
    rw [hcluster] at hstep
    refine ⟨(putDataSegSize_fsize ..).trans (happ.spare hidle).1, happ.notMem,
      (putDataSegSize_busy ..).trans happ.busy, ?_, fun w hw => ?_, hstep⟩
    · exact (putDataSegSize_size ..).trans (if_pos rfl)
    · have hne : w ≠ v := fun heq => happ.notMem (heq ▸ hw)
      exact (putDataSegSize_size ..).trans ((if_neg hne).trans (happ.size w hw))

/-- The first element is added. -/
theorem resize_first (h : Space s.eased []) (he : e ∈ s.entries) (hs : s.Steady)
    (hmax : s.maxDataSegSize = D) (hseg : s.vol.maxDataSegSize = D) {size : Nat}
    (hint : size < 2 ^ 31) (hidle : s.vol.idle ≠ []) (hnil : (s.heads e).elements = [])
    (hlen : viewGetDataSegSize s.vol e ≤ D) (hlower : D < size) (hupper : size ≤ D * 2) :
    ∃ status s', resize s e size = some (status, s') ∧ nspSuccess status = true ∧
      Grows True s.eased s'.eased e ∧ SameStates s s' ∧
        SetTo D s.vol s'.vol e (s.heads e).elements (s'.heads e).elements size := by
  have hcount : (s.heads e).countOfElements = (s.heads e).elements.length := (h.entry e he).count
  have hset : SizeSet s.vol e size (viewSetHeadDataSegSize s.vol e size) :=
    setHeadSize_spec h he (by omega) hint
  have hidle' : (viewSetHeadDataSegSize s.vol e size).2.idle ≠ [] := by
    rw [viewSetHeadDataSegSize, putDataSegSize_idle]
    exact hidle
  have hgrows := grows_setHeadDataSegSize (K := True) h he (show (0 : Int) < size by omega)
    ⟨by omega, by omega⟩
  obtain ⟨u, m⟩ := hs.mirror
  have hok : nspSuccess (viewSetHeadDataSegSize s.vol e size).1 = true := by
    rw [hset.status m]
    exact nspSuccess_zero
  rw [eased_vol, ← eased_setVol] at hgrows
  rw [resize, viewTransferSizeToClusterCount_eq (n := 1) hseg (by omega) hupper]
  rw [hnil, List.length_nil] at hcount
  simp only [hcount]
  rw [if_neg (by omega), if_neg (by omega), if_neg (by omega), if_neg (by omega),
    show (((1 + 1 : Nat) : Int) - 1).toNat = 1 from rfl, enlarge, if_pos hok]
  generalize viewSetHeadDataSegSize s.vol e size = r at hset hgrows hidle'
  have hsame := sameStates_allocIdle (s.setVol r.2) e 1
  obtain ⟨v, hok, happ⟩ := (allocIdle_one hgrows.space he).resolve_right fun hfull =>
    hidle' hfull.2.1
  rw [allocIdle_eased hgrows.space he] at hok happ
  generalize allocIdleElementsForHead (s.setVol r.2) e 1 = a at hok happ hsame ⊢
  obtain ⟨s', hfill, hg, hsame', helems', hfirst⟩ :=
    fill_first hgrows.space he hmax hidle' hnil happ
  rw [if_pos hok, hfill]
  refine ⟨_, s', rfl, hok, hgrows.trans hg, ((sameStates_setVol s _).trans hsame).trans hsame',
    hfirst.fsize.trans hset.fsize, ?_, ?_, ?_, ?_⟩
  · rw [viewGetDataSegSize, hfirst.size e (hgrows.space.mem_busy he List.mem_cons_self)]
    exact hset.size_self
  · rw [helems', List.length_singleton, Nat.mul_one]
    exact hlower
  · rw [helems', List.length_singleton]
    exact hupper
  · rw [hnil, helems']
    have hbusy : (s.setVol r.2).vol.busy = s.vol.busy := hset.busy
    exact .first (hbusy ▸ hfirst.notMem) (hbusy ▸ hfirst.busy) hfirst.size_self
      (hset.step.trans hfirst.step)

theorem resize_spec (h : Space s.eased []) (he : e ∈ s.entries) (hs : s.Steady)
    (hmax : s.maxDataSegSize = D) (hseg : s.vol.maxDataSegSize = D) {size : Nat}
    (hint : size < 2 ^ 31) (hlower : D * (s.heads e).elements.length < size)
    (hupper : size ≤ D * ((s.heads e).elements.length + 1) ∨
      (s.heads e).elements = [] ∧ s.vol.idle ≠ [] ∧ viewGetDataSegSize s.vol e ≤ D ∧
        size ≤ D * 2) :
    ∃ status s', resize s e size = some (status, s') ∧ nspSuccess status = true ∧
      Grows True s.eased s'.eased e ∧ SameStates s s' ∧
        SetTo D s.vol s'.vol e (s.heads e).elements (s'.heads e).elements size := by
  rcases Nat.lt_or_ge (D * ((s.heads e).elements.length + 1)) size with hlt | hge
  · obtain ⟨hnil, hidle, hlen, hle⟩ := hupper.resolve_left (by omega)
    rw [hnil, List.length_nil, Nat.zero_add, Nat.mul_one] at hlt
    exact resize_first h he hs hmax hseg hint hidle hnil hlen hlt hle
  · exact resize_same h he hs hseg hint hlower hge

/-! ## What can be read afterwards -/

namespace Resting

/-- The bytes behind the old ones are zero. -/
theorem stored_refit (h : Resting D s e) (h' : Resting D s' e)
    (hr : Refit D s.vol s'.vol e (s.heads e).elements (s'.heads e).elements) :
    stored s' e = stored s e ++ List.replicate
      (D * ((s'.heads e).elements.length - (s.heads e).elements.length)) 0 := by
  have hbounds := h.bounds
  have hself : e ∈ s.vol.busy := h.space.mem_busy h.mem List.mem_cons_self
  have hnot : e ∉ (s.heads e).elements := h.space.head_notMem h.mem
  have hpos : ∀ w ∈ s.chain e, 1 ≤ w := fun w hw =>
    (h.space.vol.mem_busy (h.space.mem_busy h.mem hw)).1
  have hpos' : ∀ w ∈ s'.chain e, 1 ≤ w := fun w hw =>
    (h'.space.vol.mem_busy (h'.space.mem_busy h'.mem hw)).1
  rw [Fs.chain] at hpos hpos'
  have hold := fun u m => h.stored_eq (u := u) m
  have hnew := fun u m => h'.stored_eq (u := u) m
  generalize (s.heads e).elements = l at hr hnot hpos hold
  generalize (s'.heads e).elements = l' at hr hpos' hnew
  cases hr with
  | same busy size step =>
    obtain ⟨u, m⟩ := h.steady.mirror
    obtain ⟨u', m', hu'⟩ := step.mirror u m h'.steady.fsize_le
    rw [h.clusterSize] at hu'
    have hdata : inUse D u' s'.vol l = inUse D u s.vol l := inUse_congr fun w hw =>
      ⟨congrArg elementSize (size w fun heq => hnot (heq ▸ hw)),
        hu' w (hpos w (List.mem_cons_of_mem _ hw))⟩
    rw [hnew u' m', hold u m, hdata, hu' e (hpos e List.mem_cons_self), Nat.sub_self, Nat.mul_zero,
      List.replicate_zero, List.append_nil, unchanged]
  | @first v notMem busy size step =>
    obtain ⟨u, m⟩ := h.steady.mirror
    obtain ⟨u', m', hu'⟩ := step.mirror u m h'.steady.fsize_le
    rw [h.clusterSize] at hu'
    have hne : e ≠ v := fun heq => notMem (heq ▸ hself)
    have hv := hu' v (hpos' v (List.mem_cons_of_mem _ (List.mem_singleton_self v)))
    have he := hu' e (hpos e List.mem_cons_self)
    rw [if_pos rfl] at hv
    rw [if_neg hne] at he
    have hsize : viewGetDataSegSize s'.vol v = D := by
      rw [viewGetDataSegSize, size]
      exact elementSize_of_nonneg (Int.natCast_nonneg D)
    rw [hnew u' m', hold u m, inUse, inUse, inUse, hsize, if_neg (by omega), he, hv,
      Int.toNat_natCast, List.take_nil, List.append_nil, List.append_nil, List.take_replicate,
      List.take_replicate, List.length_singleton, List.length_nil, Nat.min_self,
      Nat.min_eq_right (by omega), Nat.sub_zero, Nat.mul_one]

theorem keyInUse_refit (h : Resting D s e) (h' : Resting D s' e)
    (hr : Refit D s.vol s'.vol e (s.heads e).elements (s'.heads e).elements)
    (hkey : KeyInUse s e) : KeyInUse s' e := by
  have hbounds := h.bounds
  have hnot : e ∉ (s.heads e).elements := h.space.head_notMem h.mem
  have hmax := h.maxDataSegSize
  rw [KeyInUse, hmax] at hkey
  rw [KeyInUse, h'.maxDataSegSize]
  generalize (s.heads e).elements = l at hr hnot hkey
  generalize (s'.heads e).elements = l' at hr
  cases hr with
  | same busy size step =>
    intro v hv
    have hsize : viewGetDataSegSize s'.vol v = viewGetDataSegSize s.vol v :=
      congrArg elementSize (size v fun heq => hnot (heq ▸ List.mem_of_mem_head? hv))
    rw [hsize]
    exact hkey v hv
  | @first v notMem busy size step =>
    intro w hw
    rw [List.head?_cons, Option.mem_def, Option.some.injEq] at hw
    subst hw
    have hsize : viewGetDataSegSize s'.vol v = D := by
      rw [viewGetDataSegSize, size]
      exact elementSize_of_nonneg (Int.natCast_nonneg D)
    have hname : maxEntryNameLength = 32 := rfl
    omega

/-- The length without the key. -/
theorem queryUserSegSize (h : Resting D s e) (hpos : 0 < viewGetDataSegSize s.vol e) :
    ∃ s', queryUserSegSize s e = some (viewGetDataSegSize s.vol e - maxEntryNameLength, s') := by
  have hrc : 0 ≤ (s.heads e).refcnt := (h.space.entry e h.mem).refcnt
  have hio : 0 ≤ (s.heads e).ioRefcnt := (h.space.entry e h.mem).ioRefcnt
  have hhead : (s.setHead e ((s.heads e).bump 1)).heads e = (s.heads e).bump 1 :=
    setHead_heads_self ..
  obtain ⟨hderef, -⟩ := dereferenceHead_live (s := s.setHead e ((s.heads e).bump 1)) (e := e)
    (by rw [Fs.Live, hhead]; exact h.live) (by rw [hhead]; exact Int.lt_add_one_of_le hrc)
    (by rw [hhead]; exact Int.lt_add_one_of_le hio)
  have hpos' : viewGetDataSegSize (s.setHead e ((s.heads e).bump 1)).vol e > 0 := hpos
  rw [Evfs.queryUserSegSize, referenceHead_live h.space h.mem h.live h.room]
  simp only [hderef, Option.map_some, if_pos hpos']
  exact ⟨_, rfl⟩

end Resting

/-! ## Truncating -/

/-- The entry `e` has been set to a size, with its key, and to nothing else. -/
structure Truncated (s : Fs) (e : Int) (size : Nat) (s' : Fs) : Prop where
  /-- What was done is defined. -/
  defined : s'.Defined
  elements : ((s'.heads e).elements.length : Int) =
    (size + s.maxDataSegSize - 1) / s.maxDataSegSize - 1
  countOfElements : (s'.heads e).countOfElements = (s'.heads e).elements.length
  length : ∃ s'', queryUserSegSize s' e = some ((size : Int) - maxEntryNameLength, s'')
  /-- The bytes from before, as many as there are, and zeros. -/
  bytes : ∃ old, Yields s e old ∧ Yields s' e (old.takeD (size - maxEntryNameLength) 0)
  /-- What was dropped is idle, and its header is clear. -/
  dropped : ∀ v ∈ (s.heads e).elements, v ∉ (s'.heads e).elements →
    v ∈ s'.vol.idle ∧ s'.vol.cluster v = .zero
  /-- No cluster was taken but the new elements. -/
  taken : (s.heads e).elements.length ≤ (s'.heads e).elements.length →
    s'.vol.busy.length + (s.heads e).elements.length =
      s.vol.busy.length + (s'.heads e).elements.length

/-- The sizes that an entry can be set to: no element is dropped and none is added but a first one,
for which a view is idle, the last element is in use as far as that, and what is behind the end is
zero. -/
def Resizable (s : Fs) (e : Int) (size : Nat) : Prop :=
  s.maxDataSegSize * (s.heads e).elements.length < size ∧
    (size ≤ (stored s e).length ∨ ((s.heads e).elements = [] ∧ s.vol.idle ≠ [] ∧
      viewGetDataSegSize s.vol e ≤ s.maxDataSegSize ∧ (size : Int) ≤ s.maxDataSegSize * 2)) ∧
    (∀ b ∈ ((stored s e).take size).drop (viewGetDataSegSize s.vol e).toNat, b = 0) ∧ KeyInUse s e

instance (s : Fs) (e : Int) : Decidable (KeyInUse s e) :=
  inferInstanceAs (Decidable (∀ v ∈ (s.heads e).elements.head?,
    (maxEntryNameLength : Int) ≤ s.maxDataSegSize + viewGetDataSegSize s.vol v))

instance (s : Fs) (e : Int) (size : Nat) : Decidable (Resizable s e size) :=
  inferInstanceAs (Decidable (_ ∧ _ ∧ _ ∧ _))

/-- The number of the elements. -/
theorem clusters_eq {n size : Nat} (hlower : D * n < size) (hupper : size ≤ D * (n + 1)) :
    (n : Int) = ((size : Int) + D - 1) / D - 1 := by
  rw [Nat.mul_succ] at hupper
  have hdiv : (size + D - 1) / D = n + 1 := by
    refine Nat.div_eq_of_lt_le ?_ ?_
    · rw [Nat.mul_comm, Nat.mul_succ]
      omega
    · rw [Nat.mul_comm, Nat.mul_succ, Nat.mul_succ]
      omega
  rw [show (size : Int) + D - 1 = ((size + D - 1 : Nat) : Int) by omega, ← Int.natCast_ediv, hdiv]
  omega

namespace Resting

theorem length_stored_le (h : Resting D s e) :
    (stored s e).length ≤ D * ((s.heads e).elements.length + 1) := by
  obtain ⟨u, m⟩ := h.steady.mirror
  have hinUse : (inUse D u s.vol (s.heads e).elements).length ≤
      D * (s.heads e).elements.length :=
    length_inUse_le fun w hw => (h.segSize_element hw).2
  rw [h.stored_eq m, List.length_append, (h.served m).length_udata List.mem_cons_self,
    List.length_take, Nat.mul_succ]
  omega

theorem length_stored_nil (h : Resting D s e) (hnil : (s.heads e).elements = []) :
    (stored s e).length = D := by
  obtain ⟨u, m⟩ := h.steady.mirror
  rw [h.stored_eq m, hnil, inUse, List.take_nil, List.append_nil,
    (h.served m).length_udata List.mem_cons_self]

/-- What follows from resizing. -/
theorem truncated (h : Resting D s e) (h' : Resting D s' e) {size : Nat}
    (hkey : maxEntryNameLength < size) (hfit : Resizable s e size)
    (hr : SetTo D s.vol s'.vol e (s.heads e).elements (s'.heads e).elements size) :
    Truncated s e size s' := by
  obtain ⟨-, hupper, hzero, huse⟩ := hfit
  have hlen := hr.upper
  have hroom : size ≤ (stored s e).length +
      D * ((s'.heads e).elements.length - (s.heads e).elements.length) := by
    have hnil := h.length_stored_nil
    have hrefit := hr.refit
    generalize (s.heads e).elements = l at hrefit hupper hnil
    generalize (s'.heads e).elements = l' at hrefit hlen
    cases hrefit with
    | same busy size step =>
      rcases hupper with hsize | ⟨hl, -⟩
      · exact Nat.le_add_right_of_le hsize
      · rw [hl, List.length_nil] at hlen
        have := hnil hl
        omega
    | first notMem busy size step =>
      rw [List.length_singleton] at hlen
      have := hnil rfl
      simp only [List.length_singleton, List.length_nil]
      omega
  refine ⟨h'.steady.defined, ?_, (h'.space.entry e h'.mem).count, ?_, ⟨_, h.yields huse, ?_⟩, ?_,
    ?_⟩
  · rw [h.maxDataSegSize]
    exact clusters_eq hr.lower hr.upper
  · rw [← hr.length]
    exact h'.queryUserSegSize (by rw [hr.length]; omega)
  · have hyields := h'.yields (h.keyInUse_refit h' hr.refit huse)
    rw [hr.length, Int.toNat_natCast, h.stored_refit h' hr.refit,
      Lib.drop_take_pad hroom hzero] at hyields
    exact hyields
  · have hrefit := hr.refit
    generalize (s.heads e).elements = l at hrefit
    generalize (s'.heads e).elements = l' at hrefit
    cases hrefit with
    | same busy size step => exact fun v hv hnot => absurd hv hnot
    | first notMem busy size step => exact fun v hv => nomatch hv
  · have hrefit := hr.refit
    generalize (s.heads e).elements = l at hrefit
    generalize (s'.heads e).elements = l' at hrefit
    cases hrefit with
    | same busy size step => exact fun _ => by rw [busy]
    | first notMem busy size step =>
      exact fun _ => by rw [busy, List.length_append, List.length_nil, Nat.add_zero]

end Resting

/-! ## The call -/

/-- The head of an entry while it is truncated. -/
def Head.busied (head : Head) : Head := { head with refcnt := head.refcnt + 1, state := .busy }

/-- The head after the reference was given back. -/
def Head.unbusied (head : Head) : Head := { head with refcnt := head.refcnt - 1, state := .normal }

namespace Resting

theorem referenceHead_busy (h : Resting D s e) :
    referenceHead s e .busy = (.ok e, s.setHead e (s.heads e).busied) := by
  have hsearch : searchHead s e = some e := (Evfs.searchHead_eq h.space e).trans (if_pos h.mem)
  have hcheck : checkReferenceCondition s e .busy = (0, s.setHead e (s.heads e).busied) := by
    rw [checkReferenceCondition]
    show (if (s.heads e).state ≠ .normal then _ else if (s.heads e).ioRefcnt ≠ 0 then _ else _) = _
    have hrc : int32 ((s.heads e).refcnt + 1) = (s.heads e).refcnt + 1 :=
      int32_succ (h.space.entry e h.mem).refcnt h.room.1
    rw [if_neg (not_not.mpr h.live.1), if_neg (not_not.mpr h.ioRefcnt), hrc]
    rfl
  rw [referenceHead, hsearch]
  simp only [hcheck, nspSuccess_zero, if_true]

end Resting

theorem dereferenceHead_busy (hs : (s.heads e).state = .busy) (h : 0 < (s.heads e).refcnt) :
    dereferenceHead s e .busy = some (s.setHead e (s.heads e).unbusied) := by
  have hnot : ¬EntryState.busy = .normal := by decide
  have hno : ¬((s.heads e).refcnt ≤ 0 ∨
      (EntryState.busy = .normal ∧ (s.heads e).ioRefcnt ≤ 0)) := by
    rintro (hle | ⟨hb, -⟩)
    · omega
    · exact hnot hb
  rw [dereferenceHead, if_neg hno]
  simp only [if_neg hnot, hs, and_self, if_true]
  rw [if_neg]
  · rfl
  · rw [setHead_heads_self]
    rintro ⟨-, hc⟩
    cases hc

namespace Resting

/-- **Truncating** an entry. -/
theorem truncate (h : Resting D s e) {size : Nat} (hkey : maxEntryNameLength < size)
    (hint : size < 2 ^ 31) (hfit : Resizable s e size) :
    ∃ status s', truncate s e size = some (status, s') ∧ Resting D s' e ∧
      nspSuccess status = true ∧ Truncated s e size s' := by
  obtain ⟨hlower, hupper, -, -⟩ := id hfit
  have hmax := h.maxDataSegSize
  have hhead : (s.setHead e (s.heads e).busied).heads e = (s.heads e).busied :=
    setHead_heads_self ..
  have helems : ((s.setHead e (s.heads e).busied).heads e).elements = (s.heads e).elements := by
    rw [hhead]
    rfl
  have hspace : Space (s.setHead e (s.heads e).busied).eased [] :=
    space_setRefs h.space rfl rfl rfl
      (Int.le_add_one (h.space.entry e h.mem).refcnt) (h.space.entry e h.mem).ioRefcnt
  have hupper' : size ≤ D * ((s.heads e).elements.length + 1) ∨ (s.heads e).elements = [] ∧
      s.vol.idle ≠ [] ∧ viewGetDataSegSize s.vol e ≤ D ∧ size ≤ D * 2 := by
    refine hupper.imp (fun hs => hs.trans h.length_stored_le) fun ⟨hl, hidle, hlen, hs⟩ => ?_
    rw [hmax] at hlen hs
    exact ⟨hl, hidle, hlen, by omega⟩
  rw [hmax] at hlower
  obtain ⟨status, s₁, hresize, hok, hgrows, hsame, hdone⟩ := resize_spec hspace h.mem
    (h.steady.congr rfl rfl) hmax h.segSize hint (by rw [helems]; exact_mod_cast hlower)
    (by rw [helems]; exact hupper')
  rw [helems] at hdone
  have hstate : (s₁.heads e).state = .busy := (hsame.state e).trans (by rw [hhead]; rfl)
  have hhard : (s₁.heads e).hardRemoveOnDetach = false :=
    (hsame.hard e).trans (by rw [hhead]; exact h.live.2)
  obtain ⟨l, k, -, hheads⟩ := hgrows.heads
  have heq := congrFun hheads e
  rw [Function.update_self] at heq
  have hrc : (s₁.heads e).refcnt = (s.heads e).refcnt + 1 :=
    (congrArg Head.refcnt heq).trans (congrArg Head.refcnt hhead)
  have hio : (s₁.heads e).ioRefcnt = 0 :=
    (congrArg Head.ioRefcnt heq).trans ((congrArg Head.ioRefcnt hhead).trans h.ioRefcnt)
  have hnonneg : 0 ≤ (s.heads e).refcnt := (h.space.entry e h.mem).refcnt
  have hroom := h.room.1
  have hderef := dereferenceHead_busy hstate (by omega)
  have hrest : Resting D (s₁.setHead e (s₁.heads e).unbusied) e := by
    have hself : (s.heads e).busied.elements = (s.heads e).elements := rfl
    refine h.grows hself hgrows hdone.fsize rfl (space_setRefs hgrows.space rfl rfl rfl ?_ ?_) ?_
      ⟨?_, ?_⟩ hio
    · show 0 ≤ (s₁.heads e).refcnt - 1
      omega
    · exact Int.le_of_eq hio.symm
    · rw [Fs.Live, setHead_heads_self]
      exact ⟨rfl, hhard⟩
    · show (s₁.heads e).refcnt - 1 < 2 ^ 31 - 1
      omega
    · show (s₁.heads e).ioRefcnt < 2 ^ 31 - 1
      omega
  have helems' : ((s₁.setHead e (s₁.heads e).unbusied).heads e).elements =
      (s₁.heads e).elements := by
    rw [setHead_heads_self]
    rfl
  refine ⟨status, s₁.setHead e (s₁.heads e).unbusied, ?_, hrest, hok,
    h.truncated hrest hkey hfit (helems' ▸ hdone)⟩
  rw [Evfs.truncate, h.referenceHead_busy]
  simp only [hresize, Option.bind_some, hderef, Option.map_some]

end Resting

/-! ## Runs -/

/-- A call on one entry. -/
inductive Edit where
  /-- `evfs_entries_write_data`. -/
  | write (data : List UInt8) (offset size : Int)
  /-- `evfs_entries_truncate`. -/
  | truncate (size : Nat)

/-- The managers after a call on the entry `e`. -/
def Edit.exec (e : Int) (s : Fs) : Edit → Option Fs
  | .write data offset size => (writeData s e data offset size).map Prod.snd
  | .truncate size => (Evfs.truncate s e size).map Prod.snd

/-- A size that an entry may be set to, with its key. -/
def SizeFits (e : Int) (s : Fs) (size : Nat) : Prop :=
  maxEntryNameLength < size ∧ size < 2 ^ 31 ∧ Resizable s e size

instance (e : Int) (s : Fs) (size : Nat) : Decidable (SizeFits e s size) :=
  inferInstanceAs (Decidable (_ ∧ _ ∧ _))

/-- A write that takes no more clusters than are idle, and a call of `evfs_entries_truncate` with a
size that fits. -/
def Edit.Fits (e : Int) (s : Fs) : Edit → Prop
  | .write _ offset size => s.clustersToWrite e offset size ≤ s.vol.idle.length
  | .truncate size => SizeFits e s size

instance (e : Int) (s : Fs) : ∀ c : Edit, Decidable (c.Fits e s)
  | .write _ offset size =>
    inferInstanceAs (Decidable (s.clustersToWrite e offset size ≤ s.vol.idle.length))
  | .truncate size => inferInstanceAs (Decidable (SizeFits e s size))

/-- One call on the entry `e`. -/
def Edits (e : Int) (s : Fs) (c : Edit) (s' : Fs) : Prop := c.Fits e s ∧ c.exec e s = some s'

/-- One call, where it fits. -/
def Edit.tryExec (e : Int) (s : Fs) (c : Edit) : Option Fs :=
  if c.Fits e s then c.exec e s else none

theorem edits_of_tryExec (e : Int) (s : Fs) (c : Edit) (s' : Fs) (h : c.tryExec e s = some s') :
    Edits e s c s' := by
  rw [Edit.tryExec] at h
  split at h
  · exact ⟨‹_›, h⟩
  · cases h

/-- **Each call** leaves the entry as it found it, in use and between two calls. -/
theorem Resting.edit (h : Resting D s e) {c : Edit} (hc : Edits e s c s') : Resting D s' e := by
  obtain ⟨hfits, hexec⟩ := hc
  cases c with
  | write data offset size =>
    obtain ⟨⟨r, s₁⟩, hw, rfl⟩ := Option.map_eq_some_iff.mp hexec
    exact h.writeData hfits hw
  | truncate size =>
    obtain ⟨⟨r, s₁⟩, ht, rfl⟩ := Option.map_eq_some_iff.mp hexec
    obtain ⟨status, s₂, ht', h', -⟩ := h.truncate hfits.1 hfits.2.1 hfits.2.2
    rw [ht] at ht'
    cases ht'
    exact h'

theorem Made.resting {key : Option (List UInt8)} (hm : Made s s' v (newKey key))
    (h : Housed (D + sizeofCluster) s) (hfsize : s'.vol.fsize = s.vol.fsize) :
    Resting D s' v where
  space := hm.created.space
  mem := hm.mem_self
  live := hm.live
  room := by
    have hrefcnt : (s'.eased.heads v).refcnt = 1 := by rw [hm.created.head]
    have hio : (s'.eased.heads v).ioRefcnt = 0 := by rw [hm.created.head]
    rw [Head.Room, show (s'.heads v).refcnt = 1 from hrefcnt,
      show (s'.heads v).ioRefcnt = 0 from hio]
    decide
  ioRefcnt := by
    have hio : (s'.eased.heads v).ioRefcnt = 0 := by rw [hm.created.head]
    exact hio
  clusterSize := hm.created.step.size.trans h.size
  segSize := hm.created.step.maxDataSegSize.trans (h.segSize.trans (by omega))
  sized := fun w hw => by
    have hnil : (s'.eased.heads v).elements = [] := by rw [hm.created.head]
    have hnil' : (s'.heads v).elements = [] := hnil
    rw [hnil'] at hw
    cases hw
  steady := (h.made hm hfsize).steady

/-- **Truncating an entry sets it to the size** in every state that writes and earlier calls with a
size that fits lead to, where the size fits. -/
theorem truncate_truncated {garbage : Garbage} {clusterSize clusterCount status : Int}
    {cacheBlockNum size : Nat} {key : Option (List UInt8)} {calls : List Call} {edits : List Edit}
    {s₀ s₂ : Fs} (hfit : clusterSize * clusterCount < 2 ^ 31)
    (hcreate : evfsCreate garbage Fs.init clusterSize clusterCount cacheBlockNum [] [] [] =
      some (status, s₀)) (hstatus : nspSuccess status = true) (hrun : Run Makes s₀ calls s)
    (hdemand : s.clustersToCreate key ≤ s.vol.idle.length)
    (hnew : createOne s key = some (0, v, s₁)) (hedits : Run (Edits v) s₁ edits s₂)
    (hsize : SizeFits v s₂ size) :
    ∃ status s₃, truncate s₂ v size = some (status, s₃) ∧ nspSuccess status = true ∧
      Truncated s₂ v size s₃ := by
  have h := housed_of_run hfit hcreate hstatus hrun hnew
  have hm := h.made_of_createOne hnew
  have hfsize := createOne_fsize (s := s) h.space.vol hdemand hnew
  have hge := h.space.vol.geometry.size_le
  have hD : clusterSize.toNat = (clusterSize.toNat - sizeofCluster) + sizeofCluster := by
    rw [eased_vol, h.size] at hge
    rw [sizeofCluster]
    omega
  rw [hD] at h
  have hrest := hedits.invariant (P := fun s => Resting (clusterSize.toNat - sizeofCluster) s v)
    (fun s c s' hi hc => hi.edit hc) (hm.resting h hfsize)
  obtain ⟨hkey, hint, hres⟩ := hsize
  obtain ⟨r, s₃, ht, -, hok, hdone⟩ := hrest.truncate hkey hint hres
  exact ⟨r, s₃, ht, hok, hdone⟩

/-- Ten bytes; the entry gets a second cluster and all of it, and some of it is cut off again. -/
theorem truncate_truncated_back : ∃ s₂ s₃ status, truncate s₂ 1 70 = some (status, s₃) ∧
    nspSuccess status = true ∧ Truncated s₂ 1 70 s₃ := by
  have hrun : ((evfsCreate .none Fs.init 64 4 1 [] [] []).bind fun r =>
      (createOne r.2 none).bind fun q => (Lib.exec (Edit.tryExec 1) q.2.2
        [.write (List.replicate 10 7) 0 10, .truncate 60, .truncate 104]).map fun s =>
          (r.1, q.1, q.2.1, decide (r.2.clustersToCreate none ≤ r.2.vol.idle.length),
            decide (SizeFits 1 s 70))) = some (0, 0, 1, true, true) := by
    decide +kernel
  obtain ⟨⟨status, s₀⟩, hcreate, hrun⟩ := Option.bind_eq_some_iff.mp hrun
  obtain ⟨⟨status', v, s₁⟩, hnew, hrun⟩ := Option.bind_eq_some_iff.mp hrun
  obtain ⟨s₂, hexec, heq⟩ := Option.map_eq_some_iff.mp hrun
  simp only [Prod.mk.injEq, decide_eq_true_eq] at heq
  obtain ⟨rfl, rfl, rfl, hdemand, hsize⟩ := heq
  obtain ⟨r, s₃, ht, hok, hdone⟩ := truncate_truncated (by decide) hcreate rfl (.nil s₀) hdemand
    hnew (Run.of_exec (edits_of_tryExec 1) hexec) hsize
  exact ⟨s₂, s₃, r, ht, hok, hdone⟩

/-- Seventy bytes take two clusters.  Cut down to one cluster the entry gives up the second one, and
nobody has it then. -/
theorem truncate_not_truncated : ∃ s₀ s₁ s₂ s₃ r status,
    evfsCreate .none Fs.init 64 4 1 [] [] [] = some (0, s₀) ∧
    createOne s₀ none = some (0, 1, s₁) ∧
    writeData s₁ 1 (List.replicate 70 7) 0 70 = some (r, s₂) ∧
    truncate s₂ 1 40 = some (status, s₃) ∧ s₃.vol.fsize < 2 ^ 31 ∧ ¬Truncated s₂ 1 40 s₃ := by
  have hrun : ((evfsCreate .none Fs.init 64 4 1 [] [] []).bind fun r =>
      (createOne r.2 none).bind fun q => (writeData q.2.2 1 (List.replicate 70 7) 0 70).bind
        fun w => (truncate w.2 1 40).map fun t => (r.1, q.1, q.2.1,
          decide ((w.2.heads 1).elements = [2] ∧ (t.2.heads 1).elements = [] ∧
            t.2.vol.idle = [3] ∧ t.2.vol.fsize < 2 ^ 31))) = some (0, 0, 1, true) := by
    decide +kernel
  obtain ⟨⟨status, s₀⟩, hcreate, hrun⟩ := Option.bind_eq_some_iff.mp hrun
  obtain ⟨⟨status', v, s₁⟩, hnew, hrun⟩ := Option.bind_eq_some_iff.mp hrun
  obtain ⟨⟨r, s₂⟩, hw, hrun⟩ := Option.bind_eq_some_iff.mp hrun
  obtain ⟨⟨r', s₃⟩, ht, heq⟩ := Option.map_eq_some_iff.mp hrun
  simp only [Prod.mk.injEq, decide_eq_true_eq] at heq
  obtain ⟨rfl, rfl, rfl, hold, hnew', hidle, hfile⟩ := heq
  refine ⟨s₀, s₁, s₂, s₃, r, r', hcreate, hnew, hw, ht, hfile, fun htrunc => ?_⟩
  obtain ⟨hmem, -⟩ := htrunc.dropped 2 (by rw [hold]; exact List.mem_singleton_self 2)
    (by rw [hnew']; exact List.not_mem_nil)
  rw [hidle] at hmem
  exact absurd hmem (by decide)

end Evfs

end LibNax
