import LibNax.Lib.Blocks
import LibNax.Evfs.Waiting

/-!
# The bytes of an entry

The clusters of an entry are read as one array along its chain, the head first.  Every element says
how much of it is in use; where all of them but the last are in use in full, the array has a part of
`used` bytes that can be written and read, and behind it nothing but zeros.

An element has the number of its bytes in use in its header, and nothing makes this number larger
later on.  The code takes it for the number of bytes that can be copied to the element, wherever
the copy starts.  So a write can not go on behind a last element that is used in part; and one that
starts inside of an element has to end there, unless the element is a new one.  These are the
conditions `Room`, for one round of the loop, and `Fitting`, for a whole write.

The array of an entry on the disk `u` is `content`: a position is divided by the size of a cluster,
which gives an element of the chain and a place in its data.  Everything that is written is a
change of the array at one stretch of positions (`Lib.patched`), so that a write across clusters is
a sequence of such changes side by side, and these make up one change.  The positions are those of
the whole entry, with the 32 bytes of the key in front.

In the middle of a write the entry is not one that can be read up to its length: the length is set
first, and the elements come one after the other.  So there are two predicates.  `Bytes` is about
an entry between two calls, and says that all elements but the last are in use in full.  `Front` is
about the first `U` bytes and says nothing about what is behind them; it is kept by each round with
a larger `U`, and where the last element is the last one in use it becomes `Bytes` again
(`Bytes.of_front`).

The loops are inductions on their rounds.  One that looks for the element of an offset passes
elements that are in use in full, or makes new ones and takes them into use in full
(`passElement_bytes`); so it knows the place in the array by the number of rounds (`Located`).  One
that writes has a case split on the element: it is there and in use, or it is new and gets its size
from the share of the write (`elementShare_bytes`).

* `content`, `Bytes` — the array of an entry, and the entry with its length and what is in use.
* `Front` — an entry that is in use in full for its first bytes, with anything behind them.
* `Bytes.writeUserdata`, `Bytes.stretchHead`, `Bytes.extend` — a write inside of a cluster, a new
  length, a new element.
* `writeElement_bytes`, `seekElement_bytes`, `Bytes.writeBody` — a write, where it does not go
  beyond a last element that is used in part, and does not start inside of an element and end
  inside of another.
* `Front.readElement`, `Bytes.readBytes` — a read.
-/

set_option autoImplicit false

namespace LibNax

namespace Evfs

open Lib (int32 patched blockAt)

variable {s s' s₁ : Fs} {e v : Int} {D L U i off : Nat} {f : Nat → UInt8}

/-! ## Sizes in headers -/

theorem step_putDataSegSize {vol : Vol} (h : vol.Wf) (hv : v ∈ vol.busy) {size : Int}
    (hint : Lib.InInt32 size) : Step vol (vol.putDataSegSize v size).2 unchanged := by
  rw [Vol.putDataSegSize]
  split
  · exact step_putCluster h hv (c := { vol.cluster v with dataSegSize := size })
      fun hc => ⟨hint, hc.2, hc.3⟩
  · exact .refl vol

/-- The length in the header of the head changes, and nothing else. -/
structure SizeSet (vol : Vol) (e : Int) (E : Nat) (r : Int × Vol) : Prop where
  status : ∀ {u : List (List UInt8)}, Mirror vol u → r.1 = 0
  size_self : viewGetDataSegSize r.2 e = E
  size : ∀ w, w ≠ e → (r.2.cluster w).dataSegSize = (vol.cluster w).dataSegSize
  busy : r.2.busy = vol.busy
  step : Step vol r.2 unchanged
  fsize : r.2.fsize = vol.fsize

theorem setHeadSize_spec (h : Space s []) (he : e ∈ s.entries) {E : Nat} (hpos : 0 < E)
    (hE : E < 2 ^ 31) : SizeSet s.vol e E (viewSetHeadDataSegSize s.vol e E) := by
  have hhead : headSize (E : Int) = (E : Int) - 2 ^ 31 := if_neg (by omega)
  have hself : e ∈ s.vol.busy := h.mem_busy he List.mem_cons_self
  have hint : Lib.InInt32 (headSize (E : Int)) := by
    rw [hhead]
    exact ⟨by omega, by omega⟩
  refine ⟨fun m => ?_, ?_, fun w hw => ?_, putDataSegSize_busy .., step_putDataSegSize h.vol hself
    hint, putDataSegSize_fsize ..⟩
  · rw [viewSetHeadDataSegSize, Vol.putDataSegSize]
    split
    · exact m.putCluster_status h.vol hself _
    · rfl
  · rw [viewSetHeadDataSegSize, viewGetDataSegSize, putDataSegSize_size, if_pos rfl, hhead,
      elementSize, if_neg (by omega)]
    omega
  · rw [viewSetHeadDataSegSize, putDataSegSize_size, if_neg hw]

/-! ## The array -/

/-- The bytes of an entry on the disk `u`, with `D` bytes of data in a cluster. -/
def content (D : Nat) (s : Fs) (u : List (List UInt8)) (e : Int) : Nat → UInt8 :=
  blockAt D (udata (D + sizeofCluster) u) 0 (s.chain e)

/-- The entry `e` has the length `L`, with its key, and `U` bytes that are in use; its bytes are
`f`. -/
structure Bytes (D : Nat) (s : Fs) (e : Int) (L U : Nat) (f : Nat → UInt8) : Prop where
  space : Space s []
  mem : e ∈ s.entries
  clusterSize : s.vol.io.cache.hard.clusterSize = D + sizeofCluster
  length : viewGetDataSegSize s.vol e = L
  /-- The last element is in use. -/
  lower : D * (s.heads e).elements.length < U
  upper : U ≤ D * ((s.heads e).elements.length + 1)
  /-- The head is in use in full. -/
  head : (s.heads e).elements = [] → U = D
  /-- So are the elements, but for the last one. -/
  used : ∀ i v, (s.heads e).elements[i]? = some v →
    (s.vol.cluster v).dataSegSize = (min D (U - D * (i + 1)) : Nat)
  disk : ∃ u, Mirror s.vol u ∧ content D s u e = f

/-- The entry `e` has the length `L`, with its key, and is in use in full for its first `U` bytes;
its bytes are `f`. -/
structure Front (D : Nat) (s : Fs) (e : Int) (L U : Nat) (f : Nat → UInt8) : Prop where
  space : Space s []
  mem : e ∈ s.entries
  clusterSize : s.vol.io.cache.hard.clusterSize = D + sizeofCluster
  length : viewGetDataSegSize s.vol e = L
  upper : U ≤ D * ((s.heads e).elements.length + 1)
  used : ∀ i v, (s.heads e).elements[i]? = some v → D * (i + 1) < U →
    (s.vol.cluster v).dataSegSize = (min D (U - D * (i + 1)) : Nat)
  disk : ∃ u, Mirror s.vol u ∧ content D s u e = f

theorem Bytes.front (h : Bytes D s e L U f) : Front D s e L U f :=
  ⟨h.space, h.mem, h.clusterSize, h.length, h.upper, fun i v hi _ => h.used i v hi, h.disk⟩

/-- The last element stays the last one that is in use. -/
theorem Bytes.of_front (h : Bytes D s e L U f) {L' : Nat} {f' : Nat → UInt8}
    (h' : Front D s' e L' U f') (helems : (s'.heads e).elements = (s.heads e).elements) :
    Bytes D s' e L' U f' where
  space := h'.space
  mem := h'.mem
  clusterSize := h'.clusterSize
  length := h'.length
  lower := helems ▸ h.lower
  upper := h'.upper
  head := helems ▸ h.head
  used := fun i v hi => by
    refine h'.used i v hi (Nat.lt_of_le_of_lt (Nat.mul_le_mul_left D ?_) h.lower)
    rw [helems] at hi
    exact (List.getElem?_eq_some_iff.mp hi).1
  disk := h'.disk

namespace Front

theorem maxDataSegSize (h : Front D s e L U f) : s.maxDataSegSize = D := by
  rw [h.space.maxDataSegSize, h.clusterSize]
  omega

theorem bounds (h : Front D s e L U f) : 20 ≤ D ∧ D < 2 ^ 30 := by
  have := h.space.maxDataSegSize_bounds
  rw [h.maxDataSegSize] at this
  omega

theorem mem_busy (h : Front D s e L U f) (hi : (s.chain e)[i]? = some v) : v ∈ s.vol.busy :=
  h.space.mem_busy h.mem (List.mem_of_getElem? hi)

/-- The length in the header of the head. -/
theorem headSize (h : Front D s e L U f) :
    (s.vol.cluster e).dataSegSize = (L : Int) - 2 ^ 31 ∧ L < 2 ^ 31 := by
  obtain ⟨hneg, hlower⟩ := (h.space.entry e h.mem).headSize
  have hlen := h.length
  rw [viewGetDataSegSize, elementSize, if_neg (by omega)] at hlen
  omega

/-- A view of the entry is in use. -/
theorem not_unused (h : Front D s e L U f) (hi : (s.chain e)[i]? = some v) : ¬s.vol.Unused v := by
  intro hun
  have hpos := (h.space.vol.mem_busy (h.space.mem_busy h.mem (v := e) List.mem_cons_self)).1
  have hid := (h.space.entry e h.mem).headId v (List.mem_of_getElem? hi)
  rw [hun.2] at hid
  omega

theorem length_udata (h : Front D s e L U f) {u : List (List UInt8)} (m : Mirror s.vol u)
    (hi : (s.chain e)[i]? = some v) : (udata (D + sizeofCluster) u v).length = D := by
  obtain ⟨h₁, h₂⟩ := h.space.vol.mem_busy (h.mem_busy hi)
  rw [← h.clusterSize, m.length_udata h₁ h₂, h.clusterSize, Nat.add_sub_cancel]

/-- A change that leaves the data and the sizes of the elements in use alone. -/
theorem congr (h : Front D s e L U f) (hspace : Space s' []) (hmem : e ∈ s'.entries)
    (helems : (s'.heads e).elements = (s.heads e).elements) {L' : Nat}
    (hlen : viewGetDataSegSize s'.vol e = L')
    (hused : ∀ i v, (s.heads e).elements[i]? = some v → D * (i + 1) < U →
      (s'.vol.cluster v).dataSegSize = (s.vol.cluster v).dataSegSize)
    (hstep : Step s.vol s'.vol unchanged) (hle : s'.vol.fsize ≤ 2 ^ 31) : Front D s' e L' U f where
  space := hspace
  mem := hmem
  clusterSize := hstep.size.trans h.clusterSize
  length := hlen
  upper := helems ▸ h.upper
  used := fun i v hi hlt => by
    rw [helems] at hi
    rw [hused i v hi hlt, h.used i v hi hlt]
  disk := by
    obtain ⟨u, m, hu⟩ := h.disk
    obtain ⟨u', m', hu'⟩ := hstep.mirror u m hle
    refine ⟨u', m', ?_⟩
    rw [← hu, content, content, Fs.chain, helems]
    funext k
    refine Lib.blockAt_congr (fun w hw => ?_) k
    have hpos := (h.space.vol.mem_busy (h.space.mem_busy h.mem hw)).1
    have hdata := hu' w hpos
    rwa [h.clusterSize] at hdata

/-! ## Data -/

/-- A write inside of a cluster. -/
theorem writeUserdata (h : Front D s e L U f) (hle : s.vol.fsize ≤ 2 ^ 31)
    (hi : (s.chain e)[i]? = some v) {d : List UInt8} (hne : d ≠ []) (hfit : off + d.length ≤ D) :
    (viewWriteUserdata s.vol v d off).1 = d.length ∧
      Front D (s.setVol (viewWriteUserdata s.vol v d off).2) e L U
        (patched f (D * i + off) d) := by
  obtain ⟨u, m, hu⟩ := h.disk
  have hv := h.mem_busy hi
  have hpos := List.length_pos_iff.mpr hne
  have husable : s.vol.Usable v off d.length :=
    ⟨Int.natCast_nonneg off, by omega, h.not_unused hi, by rw [h.clusterSize]; omega⟩
  obtain ⟨io, heq, hk⟩ := writeUserdata_keeps s.vol v d off
  have hfst := m.writeUserdata_fst h.space.vol hv husable
  have hspace := (grows_writeUserdata (K := False) h.space hv d off (fun hK => hK.elim) e).space
  have hstep := step_writeUserdata h.space.vol hv d off
  rw [if_pos husable, Int.toNat_natCast] at hstep
  have hle' : (viewWriteUserdata s.vol v d off).2.fsize ≤ 2 ^ 31 := by
    rw [heq]
    exact Int.le_trans (Int.le_of_eq hk.hard.fsize) hle
  obtain ⟨u', m', hu'⟩ := hstep.mirror u m hle'
  refine ⟨hfst, hspace, h.mem, hstep.size.trans h.clusterSize, ?_, h.upper, ?_, u', m', ?_⟩
  · show viewGetDataSegSize (viewWriteUserdata s.vol v d off).2 e = L
    rw [heq]
    exact h.length
  · show ∀ i w, _ → _ → ((viewWriteUserdata s.vol v d off).2.cluster w).dataSegSize = _
    rw [heq]
    exact h.used
  · rw [← hu]
    have hpos : ∀ w ∈ s.chain e, 1 ≤ w := fun w hw =>
      (h.space.vol.mem_busy (h.space.mem_busy h.mem hw)).1
    rw [h.clusterSize] at hu'
    refine Lib.blockAt_write (by have := h.bounds; omega) (h.space.nodup_chain h.mem) hi
      (h.length_udata m hi) hfit ?_ fun w hw hwv => ?_
    · rw [hu' v (hpos v (List.mem_of_getElem? hi)), replaced, if_pos rfl]
    · rw [hu' w (hpos w hw), replaced, if_neg hwv]

/-- The number of bytes in use of an element. -/
theorem segSize (h : Front D s e L U f) (hi : (s.heads e).elements[i]? = some v)
    (hlt : D * (i + 1) < U) : viewGetDataSegSize s.vol v = (min D (U - D * (i + 1)) : Nat) := by
  rw [viewGetDataSegSize, h.used i v hi hlt]
  exact if_pos (Int.natCast_nonneg _)

end Front

namespace Bytes

theorem maxDataSegSize (h : Bytes D s e L U f) : s.maxDataSegSize = D := h.front.maxDataSegSize

theorem bounds (h : Bytes D s e L U f) : 20 ≤ D ∧ D < 2 ^ 30 := h.front.bounds

theorem headSize (h : Bytes D s e L U f) :
    (s.vol.cluster e).dataSegSize = (L : Int) - 2 ^ 31 ∧ L < 2 ^ 31 := h.front.headSize

theorem writeUserdata (h : Bytes D s e L U f) (hle : s.vol.fsize ≤ 2 ^ 31)
    (hi : (s.chain e)[i]? = some v) {d : List UInt8} (hne : d ≠ []) (hfit : off + d.length ≤ D) :
    (viewWriteUserdata s.vol v d off).1 = d.length ∧
      Bytes D (s.setVol (viewWriteUserdata s.vol v d off).2) e L U
        (patched f (D * i + off) d) :=
  (h.front.writeUserdata hle hi hne hfit).imp_right fun h' => h.of_front h' rfl

/-- The number of bytes in use of an element. -/
theorem segSize (h : Bytes D s e L U f) (hi : (s.heads e).elements[i]? = some v) :
    viewGetDataSegSize s.vol v = (min D (U - D * (i + 1)) : Nat) := by
  rw [viewGetDataSegSize, h.used i v hi]
  exact if_pos (Int.natCast_nonneg _)

/-! ## Lengths -/

/-- A new length. -/
theorem setLength (h : Bytes D s e L U f) (hle : s.vol.fsize ≤ 2 ^ 31) {E : Nat} (hpos : 0 < E)
    (hE : E < 2 ^ 31) : (viewSetHeadDataSegSize s.vol e E).1 = 0 ∧
      Bytes D (s.setVol (viewSetHeadDataSegSize s.vol e E).2) e E U f ∧
      (viewSetHeadDataSegSize s.vol e E).2.fsize = s.vol.fsize := by
  have hset := setHeadSize_spec h.space h.mem hpos hE
  have hspace := (grows_setHeadDataSegSize (K := True) h.space h.mem (show (0 : Int) < E by omega)
    ⟨by omega, by omega⟩).space
  have hsame := h.front.congr hspace h.mem rfl hset.size_self
    (fun i w hw _ => hset.size w fun heq =>
      h.space.head_notMem h.mem (heq ▸ (List.mem_of_getElem? hw : w ∈ (s.heads e).elements)))
    hset.step (Int.le_trans (Int.le_of_eq hset.fsize) hle)
  obtain ⟨u, m, -⟩ := h.disk
  exact ⟨hset.status m, h.of_front hsame rfl, hset.fsize⟩

/-- The length that is set where a write ends behind it. -/
theorem stretchHead (h : Bytes D s e L U f) (hle : s.vol.fsize ≤ 2 ^ 31) {E : Nat}
    (hE : E < 2 ^ 31) : Bytes D (stretchHead s e E) e (max L E) U f ∧
      (Evfs.stretchHead s e E).vol.fsize = s.vol.fsize := by
  rw [Evfs.stretchHead, h.length]
  split
  · rename_i hlt
    rw [Nat.max_eq_right (by omega)]
    exact (h.setLength hle (by omega) hE).2
  · rw [Nat.max_eq_left (by omega)]
    exact ⟨h, rfl⟩

/-- The length is left alone where the end of a write is no `int`. -/
theorem stretchHead_int32 (h : Bytes D s e L U f) (hle : s.vol.fsize ≤ 2 ^ 31) {p n : Nat}
    (hp : p < 2 ^ 31) (hn : n < 2 ^ 31) :
    ∃ L', Bytes D (Evfs.stretchHead s e (int32 ((p : Int) + n))) e L' U f ∧
      (Evfs.stretchHead s e (int32 ((p : Int) + n))).vol.fsize = s.vol.fsize := by
  by_cases hlt : p + n < 2 ^ 31
  · have hend : int32 ((p : Int) + n) = ((p + n : Nat) : Int) := by
      rw [Lib.int32_of_inInt32 ⟨by omega, by omega⟩, Int.natCast_add]
    rw [hend]
    exact ⟨_, h.stretchHead hle hlt⟩
  · rw [Lib.int32_of_ge (by omega) (by omega), Evfs.stretchHead, h.length, if_neg (by omega)]
    exact ⟨L, h, rfl⟩

end Bytes

/-! ## New elements -/

/-- A new element that is not in use. -/
theorem Front.append (h : Front D s e L U f) (happ : Appended s s₁ e v)
    (hle : s₁.vol.fsize ≤ 2 ^ 31) : Front D s₁ e L U f := by
  have hmem : e ∈ s₁.entries := happ.entries ▸ h.mem
  have helems := happ.elements
  have hold : ∀ w ∈ s.chain e, w ∈ s.vol.busy ∧ w ≠ v := fun w hw =>
    ⟨h.space.mem_busy h.mem hw, fun heq => happ.notMem (heq ▸ h.space.mem_busy h.mem hw)⟩
  have hvbusy : v ∈ s₁.vol.busy := by
    rw [happ.busy]
    exact List.mem_append_right _ (List.mem_singleton_self v)
  refine ⟨happ.space, hmem, happ.step.size.trans h.clusterSize, ?_, ?_, fun i w hi hlt => ?_, ?_⟩
  · rw [viewGetDataSegSize, happ.size e (hold e List.mem_cons_self).1]
    exact h.length
  · have hupper := h.upper
    rw [helems, List.length_append, List.length_singleton, Nat.mul_succ]
    omega
  · have hin : i < (s.heads e).elements.length := by
      have hupper := Nat.lt_of_lt_of_le hlt h.upper
      have := Nat.lt_of_mul_lt_mul_left hupper
      omega
    rw [helems, List.getElem?_append_left hin] at hi
    rw [happ.size w (hold w (List.mem_cons_of_mem _ (List.mem_of_getElem? hi))).1,
      h.used i w hi hlt]
  · obtain ⟨u, m, hu⟩ := h.disk
    obtain ⟨u', m', hu'⟩ := happ.step.mirror u m hle
    refine ⟨u', m', ?_⟩
    rw [h.clusterSize] at hu'
    rw [← hu, content, content, Fs.chain, helems]
    show blockAt D _ 0 (s.chain e ++ [v]) = _
    refine Lib.blockAt_append (fun j => ?_) fun w hw => ?_
    · rw [hu' v (happ.space.vol.mem_busy hvbusy).1, if_pos rfl, Nat.add_sub_cancel,
        List.getD_eq_getElem?_getD, List.getElem?_replicate]
      split
      · rfl
      · rfl
    · rw [hu' w (h.space.vol.mem_busy (hold w hw).1).1, if_neg (hold w hw).2]

/-- The size of an element that is behind what is in use. -/
theorem Front.setElementSize (h : Front D s e L U f) (hle : s.vol.fsize ≤ 2 ^ 31)
    (hi : (s.heads e).elements[i]? = some v) (hge : U ≤ D * (i + 1)) {k : Nat} (hk : k ≤ D) :
    Front D (s.setVol (viewSetElementDataSegSize s.vol v k).2) e L U f := by
  have hbounds := h.bounds
  have hvmem : v ∈ (s.heads e).elements := List.mem_of_getElem? hi
  have hvbusy : v ∈ s.vol.busy := h.space.mem_busy h.mem (List.mem_cons_of_mem _ hvmem)
  have hint : Lib.InInt32 (k : Int) := ⟨by omega, by omega⟩
  have hneg := (h.space.entry e h.mem).elementSize v hvmem
  rw [viewSetElementDataSegSize, elementSize_of_nonneg (Int.natCast_nonneg k)]
  have hspace := (grows_putDataSegSize (K := True) h.space hvbusy
    (show (k : Int) < 0 ↔ (s.vol.cluster v).dataSegSize < 0 by omega) hint
    (by rw [h.maxDataSegSize]; omega) e).space
  refine h.congr hspace h.mem rfl ?_ (fun j w hj hlt => ?_) (step_putDataSegSize h.space.vol hvbusy
    hint) (Int.le_trans (Int.le_of_eq (putDataSegSize_fsize ..)) hle)
  · show elementSize ((s.vol.putDataSegSize v k).2.cluster e).dataSegSize = L
    rw [putDataSegSize_size, if_neg (fun heq : e = v => h.space.head_notMem h.mem (heq ▸ hvmem))]
    exact h.length
  · show ((s.vol.putDataSegSize v k).2.cluster w).dataSegSize = _
    rw [putDataSegSize_size, if_neg]
    rintro rfl
    -- a view is in one place of the list only
    have hnodup := (List.nodup_cons.mp (h.space.nodup_chain h.mem)).2
    have hij : j = i := (List.getElem?_inj (List.getElem?_eq_some_iff.mp hj).1 hnodup).mp
      (hj.trans hi.symm)
    rw [hij] at hlt
    omega

/-- A new element, `k` bytes of which are taken into use. -/
theorem Bytes.extend (h : Bytes D s e L U f) (hfull : U = D * ((s.heads e).elements.length + 1))
    (happ : Appended s s₁ e v) {k : Nat} (hpos : 0 < k) (hk : k ≤ D)
    (hle : s₁.vol.fsize ≤ 2 ^ 31) :
    Bytes D (s₁.setVol (viewSetElementDataSegSize s₁.vol v k).2) e L (U + k) f := by
  have helems := happ.elements
  have hlen := happ.length_elements
  have hlast := happ.getElem?_elements
  have hh := (h.front.append happ hle).setElementSize hle hlast (Nat.le_of_eq hfull) hk
  refine ⟨hh.space, hh.mem, hh.clusterSize, hh.length, ?_, ?_, fun hnil => ?_, fun i w hi => ?_,
    hh.disk⟩
  · show D * (s₁.heads e).elements.length < U + k
    rw [hlen, ← hfull]
    omega
  · show U + k ≤ D * ((s₁.heads e).elements.length + 1)
    rw [hlen, Nat.mul_succ, ← hfull]
    omega
  · have hnil' : (s₁.heads e).elements = [] := hnil
    rw [hnil', List.length_nil] at hlen
    omega
  · have hi' : (s₁.heads e).elements[i]? = some w := hi
    rcases Nat.lt_or_ge i (s.heads e).elements.length with hlt | hge
    · have hin : D * (i + 2) ≤ D * ((s.heads e).elements.length + 1) :=
        Nat.mul_le_mul_left D (by omega)
      have hD := h.bounds.1
      rw [Nat.mul_succ] at hin
      rw [hh.used i w hi (by omega)]
      omega
    · have hi₂ : i = (s.heads e).elements.length := by
        have := (List.getElem?_eq_some_iff.mp hi').1
        omega
      rw [hi₂, hlast] at hi'
      cases hi'
      show ((viewSetElementDataSegSize s₁.vol v k).2.cluster v).dataSegSize = _
      rw [viewSetElementDataSegSize, putDataSegSize_size, if_pos rfl,
        elementSize_of_nonneg (Int.natCast_nonneg k), hi₂, ← hfull]
      omega

/-! ## Writing elements -/

/-- A write of `m` bytes at `off` in the element `i`, which may be a new one: either it stays inside
of what is in use, or there is no element that is used in part; and in an element that is there
already it starts at the front, or ends before the back. -/
structure Room (D : Nat) (s : Fs) (e : Int) (U i off m : Nat) : Prop where
  le : i ≤ (s.heads e).elements.length
  lt : off < D
  room : D * (i + 1) + off + m ≤ U ∨ U = D * ((s.heads e).elements.length + 1)
  inside : i < (s.heads e).elements.length → off = 0 ∨ off + m ≤ D

theorem getD_of_getElem? {l : List Int} (h : l[i]? = some v) : l.getD i 0 = v := by
  rw [List.getD_eq_getElem?_getD, h]
  rfl

/-- The element that is written next, with the size that it has then. -/
theorem elementShare_bytes (h : Bytes D s e L U f) {m : Nat} (hm : 0 < m)
    (hr : Room D s e U i off m) :
    (nspSuccess (elementAt s e i).1 = false ∧ (elementAt s e i).2.2 = s ∧ 2 ^ 31 ≤ s.vol.fsize) ∨
    ∃ status s₁ view vol, elementAt s e i = (status, i, s₁) ∧ nspSuccess status = true ∧
      (s₁.heads e).elements.getD i 0 = view ∧
      elementShare s₁ view off m = (((min m (D - off) : Nat) : Int), vol) ∧
      (vol.fsize ≤ 2 ^ 31 → ((s₁.setVol vol).chain e)[i + 1]? = some view ∧
        Bytes D (s₁.setVol vol) e L (max U (D * (i + 1) + off + min m (D - off))) f) := by
  have hlt := hr.lt
  have hroom := hr.room
  rw [elementAt]
  rcases Nat.lt_or_eq_of_le hr.le with hi | rfl
  · obtain ⟨view, hview⟩ : ∃ view, (s.heads e).elements[i]? = some view :=
      ⟨_, List.getElem?_eq_getElem hi⟩
    have hseg := h.segSize hview
    have hlast : D * (i + 2) ≤ D * ((s.heads e).elements.length + 1) :=
      Nat.mul_le_mul_left D (by omega)
    have hinside := hr.inside hi
    rw [Nat.mul_succ] at hlast
    refine .inr ⟨0, s, view, s.vol, if_pos hi, nspSuccess_zero, getD_of_getElem? hview, ?_,
      fun _ => ⟨hview, ?_⟩⟩
    · rw [elementShare]
      simp only [hseg]
      rw [if_pos (by omega)]
      exact Prod.ext (by simp only; omega) rfl
    · rw [Nat.max_eq_left (by omega)]
      exact h
  · have hfull : U = D * ((s.heads e).elements.length + 1) := by
      have := h.upper
      omega
    rw [if_neg (by omega)]
    rcases allocIdle_one h.space h.mem with ⟨v, hok, happ⟩ | ⟨heq, hge⟩
    · generalize allocIdleElementsForHead s e 1 = a at hok happ
      have hlen : (a.2.heads e).elements.length - 1 = (s.heads e).elements.length := by
        rw [happ.length_elements, Nat.add_sub_cancel]
      have hview := happ.getElem?_elements
      have hzero : viewGetDataSegSize a.2.vol v = 0 := by
        rw [viewGetDataSegSize, happ.size_self]
        rfl
      have hmax : a.2.maxDataSegSize = D := happ.maxDataSegSize.trans h.maxDataSegSize
      have hshare : elementShare a.2 v off m = (((min m (D - off) : Nat) : Int),
          (viewSetElementDataSegSize a.2.vol v ((off + min m (D - off) : Nat) : Int)).2) := by
        have hmin : min (m : Int) ((D : Int) - off) = ((min m (D - off) : Nat) : Int) := by omega
        rw [elementShare, hzero]
        simp only [lt_irrefl, if_false]
        rw [hmax, hmin, ← Int.natCast_add]
      refine .inr ⟨a.1, a.2, v, _, by simp only [hlen], hok, getD_of_getElem? hview, hshare,
        fun hle => ⟨hview, ?_⟩⟩
      rw [Nat.max_eq_right (by omega), Nat.add_assoc]
      rw [← hfull]
      refine h.extend hfull happ (by omega) (by omega) ?_
      exact Int.le_trans (Int.le_of_eq (putDataSegSize_fsize ..).symm) hle
    · refine .inl ⟨?_, ?_, hge.2⟩
      · rw [heq]
        exact (by decide : nspSuccess eNomem = false)
      · rw [heq]

/-- The fuel and the buffer are large enough: there is a result. -/
theorem writeElement_ne_none (n : Nat) : ∀ {s : Fs} {i : Nat} {data : List UInt8}
    {off remain : Int}, remain ≤ data.length → writeElement n s e i data off remain ≠ none := by
  induction n with
  | zero =>
    intro s i data off remain _ hnone
    cases hnone
  | succ n ih =>
    intro s i data off remain hle hnone
    rw [writeElement] at hnone
    split at hnone
    · cases hnone
    rename_i hcond
    simp only at hnone
    split at hnone
    swap
    · cases hnone
    generalize (elementAt s e i).2.2 = s₁ at hnone
    generalize (s₁.heads e).elements.getD (elementAt s e i).2.1 0 = view at hnone
    have hshare : (elementShare s₁ view off remain).1 ≤ remain := by
      rw [elementShare]
      split
      · exact min_le_left _ _
      · exact min_le_left _ _
    generalize elementShare s₁ view off remain = sh at hnone hshare
    rw [if_neg (by omega)] at hnone
    split at hnone
    · cases hnone
    · rename_i hgo
      rw [Option.map_eq_none_iff] at hnone
      refine ih ?_ hnone
      have hfst := writeUserdata_fst sh.2 view (data.take sh.1.toNat) off
      rw [List.length_take] at hfst
      rw [List.length_drop]
      omega

theorem Grows.fsize_le {K : Prop} (h : Grows K s s' e) : s.vol.fsize ≤ s'.vol.fsize := by
  obtain ⟨g, hstep, -⟩ := h.step
  exact hstep.grows

/-- Behind a round that fills an element, the next round has room from the front of the next one. -/
theorem Room.next {m k : Nat} {f' : Nat → UInt8} (hr : Room D s e U i off m) (hk : k < m)
    (hback : off + k = D) (hin : i + 1 ≤ (s'.heads e).elements.length)
    (hb : Bytes D s' e L (max U (D * (i + 1) + off + k)) f') :
    Room D s' e (max U (D * (i + 1) + off + k)) (i + 1) 0 (m - k) := by
  have hoff := hr.lt
  have hmul : D * (i + 1 + 1) = D * (i + 1) + D := Nat.mul_succ D (i + 1)
  refine ⟨hin, by omega, ?_, fun _ => .inl rfl⟩
  rcases hr.room with hroom | hfull
  · exact .inl (by omega)
  · right
    -- what is in use is a number of whole clusters
    have hwhole : max U (D * (i + 1) + off + k) =
        D * max ((s.heads e).elements.length + 1) (i + 1 + 1) := by
      rw [← Nat.mul_max_mul_left, ← hfull]
      omega
    have hlow := hb.lower
    have hup := hb.upper
    rw [hwhole] at hlow hup ⊢
    have h₁ := Nat.lt_of_mul_lt_mul_left hlow
    have h₂ := Nat.le_of_mul_le_mul_left hup (by omega)
    rw [Nat.le_antisymm h₂ h₁]

/-- **Writing elements**: all of the buffer is written, as long as the file can grow, by induction
on the rounds. -/
theorem writeElement_bytes (n : Nat) : ∀ {s s' : Fs} {U i off : Nat} {f : Nat → UInt8}
    {data : List UInt8} {r : Int}, Bytes D s e L U f → data.length ≤ n → data ≠ [] →
    Room D s e U i off data.length →
    writeElement n s e i data off data.length = some (r, s') → s'.vol.fsize < 2 ^ 31 →
      r = data.length ∧ Bytes D s' e L (max U (D * (i + 1) + off + data.length))
        (patched f (D * (i + 1) + off) data) := by
  induction n with
  | zero =>
    intro s s' U i off f data r _ hle hne
    exact absurd (List.eq_nil_of_length_eq_zero (Nat.le_zero.mp hle)) hne
  | succ n ih =>
    intro s s' U i off f data r h hn hne hr heq hlt
    have hpos := List.length_pos_iff.mpr hne
    have hoff := hr.lt
    rw [writeElement, if_neg (by rw [h.maxDataSegSize]; omega)] at heq
    rcases elementShare_bytes h hpos hr with ⟨hno, hsame, hge⟩ |
      ⟨status, s₁, view, vol, hat, hok, hview, hshare, hbytes⟩
    · simp only [hno, Bool.false_eq_true, if_false] at heq
      cases heq
      rw [hsame] at hlt
      omega
    simp only [hat, hok, if_true, hview, hshare, Int.toNat_natCast] at heq
    generalize hk : min data.length (D - off) = k at heq hbytes
    have hlen : (data.take k).length = k := List.length_take_of_le (by omega)
    have hkne : data.take k ≠ [] := List.ne_nil_of_length_pos (by omega)
    rw [if_neg (by omega)] at heq
    -- the file only grows from here on
    obtain ⟨hgrows, hin⟩ := elementAt_spec (K := True) h.space h.mem i
    rw [hat] at hgrows hin
    have hmem : e ∈ s₁.entries := hgrows.entries.symm ▸ h.mem
    have hviewmem : view ∈ (s₁.heads e).elements := hview ▸ getD_mem (hin hok)
    have hgshare := grows_elementShare (K := True) hgrows.space hmem hviewmem off data.length
      (by omega) (by rw [hgrows.maxDataSegSize, h.maxDataSegSize]; omega) (by omega)
    rw [hshare] at hgshare
    have hgwrite := grows_writeUserdata (K := False) hgshare.space (hgshare.space.mem_busy hmem
      (List.mem_cons_of_mem _ hviewmem)) (data.take k) off (fun hK => hK.elim) e
    have hstep : vol.fsize ≤ 2 ^ 31 →
        (viewWriteUserdata vol view (data.take k) off).1 = k ∧
          Bytes D (s₁.setVol (viewWriteUserdata vol view (data.take k) off).2) e L
            (max U (D * (i + 1) + off + k)) (patched f (D * (i + 1) + off) (data.take k)) := by
      intro hle
      obtain ⟨hchain, hb⟩ := hbytes hle
      have hw := hb.writeUserdata hle hchain hkne (show off + _ ≤ D by omega)
      rwa [hlen] at hw
    have hfst := hgwrite.fsize_le
    simp only [show (s₁.setVol vol).vol = vol from rfl,
      show ∀ w, (s₁.setVol vol).setVol w = s₁.setVol w from fun _ => rfl] at hgwrite hfst
    split at heq
    · rename_i hstop
      cases heq
      obtain ⟨hw, hb⟩ := hstep (Int.le_trans hfst (Int.le_of_lt hlt))
      have hkm : k = data.length := by omega
      have htake : data.take k = data := by rw [hkm, List.take_length]
      rw [htake] at hb hw ⊢
      rw [hkm] at hb hw
      exact ⟨hw, hb⟩
    · rename_i hgo
      obtain ⟨⟨r', s''⟩, hrec, hr'⟩ := Option.map_eq_some_iff.mp heq
      cases hr'
      have hgrec := writeElement_grows (K := False) n hgwrite.space hmem hrec
      obtain ⟨hw, hb⟩ := hstep (Int.le_trans (Int.le_trans hfst hgrec.fsize_le) (Int.le_of_lt hlt))
      rw [hw] at hrec hgo ⊢
      have hkm : k < data.length := by omega
      have hback : off + k = D := by omega
      have hrest : (data.drop k).length = data.length - k := List.length_drop
      have hremain : (data.length : Int) - k = (data.drop k).length := by omega
      rw [Int.toNat_natCast, hremain] at hrec
      have hmul : D * (i + 1 + 1) = D * (i + 1) + D := Nat.mul_succ D (i + 1)
      have hpos' : data.drop k ≠ [] := by
        rintro hnil
        rw [hnil, List.length_nil] at hrest
        omega
      have hnext : Room D (s₁.setVol (viewWriteUserdata vol view (data.take k) off).2) e
          (max U (D * (i + 1) + off + k)) (i + 1) 0 (data.drop k).length :=
        hrest.symm ▸ hr.next hkm hback (hin hok) hb
      obtain ⟨hr₂, hb₂⟩ := ih hb (by omega) hpos' hnext hrec hlt
      refine ⟨by omega, ?_⟩
      have hend : D * (i + 1 + 1) + 0 + (data.drop k).length =
          D * (i + 1) + off + data.length := by omega
      have hmax : max (max U (D * (i + 1) + off + k)) (D * (i + 1) + off + data.length) =
          max U (D * (i + 1) + off + data.length) := by omega
      have hp : D * (i + 1 + 1) + 0 = D * (i + 1) + off + (data.take k).length := by omega
      rw [hend, hmax, hp, Lib.patched_patched, List.take_append_drop] at hb₂
      exact hb₂

/-! ## Looking for an element -/

/-- The place `p` of the array is in the element `i`, at `off`, and `U'` bytes are in use there. -/
structure Located (D : Nat) (s : Fs) (e : Int) (L U : Nat) (f : Nat → UInt8) (p m U' i off : Nat) :
    Prop where
  bytes : Bytes D s e L U' f
  lt : off < D
  place : D * (i + 1) + off = p
  le : i ≤ (s.heads e).elements.length
  room : p + m ≤ U' ∨ U' = D * ((s.heads e).elements.length + 1)
  /-- No more was taken into use than the elements in front of it. -/
  mono : U ≤ U'
  bound : U' ≤ max U (D * (i + 1))

/-- An element on the way is used in full. -/
theorem passElement_bytes (h : Bytes D s e L U f) (hi : i ≤ (s.heads e).elements.length)
    (hroom : D * (i + 1) + D ≤ U ∨ U = D * ((s.heads e).elements.length + 1)) :
    ((∃ status, (passElement s e i).1 = .error status) ∧ 2 ^ 31 ≤ (passElement s e i).2.vol.fsize) ∨
    ((passElement s e i).1 = .ok (i + 1, (D : Int)) ∧
      ((passElement s e i).2.vol.fsize ≤ 2 ^ 31 → ∃ U', Bytes D (passElement s e i).2 e L U' f ∧
        i + 1 ≤ ((passElement s e i).2.heads e).elements.length ∧
        (U' = U ∧ (passElement s e i).2 = s ∨
          U' = D * (((passElement s e i).2.heads e).elements.length + 1)) ∧
        U ≤ U' ∧ U' ≤ max U (D * (i + 1) + D))) := by
  have hbounds := h.bounds
  rw [passElement]
  rcases Nat.lt_or_eq_of_le hi with hlt | rfl
  · obtain ⟨view, hview⟩ : ∃ view, (s.heads e).elements[i]? = some view :=
      ⟨_, List.getElem?_eq_getElem hlt⟩
    have hseg := h.segSize hview
    have hlast : D * (i + 2) ≤ D * ((s.heads e).elements.length + 1) :=
      Nat.mul_le_mul_left D (by omega)
    rw [Nat.mul_succ] at hlast
    have hfull : min D (U - D * (i + 1)) = D := by omega
    rw [if_pos hlt]
    refine .inr ⟨?_, fun _ => ⟨U, h, hlt, .inl ⟨rfl, rfl⟩, Nat.le_refl U, Nat.le_max_left _ _⟩⟩
    simp only [getD_of_getElem? hview, hseg, hfull]
    rw [if_pos (by omega)]
  · have hfull : U = D * ((s.heads e).elements.length + 1) := by
      have := h.upper
      omega
    rw [if_neg (by omega)]
    rcases allocIdle_one h.space h.mem with ⟨v, hok, happ⟩ | ⟨heq, hge⟩
    · generalize allocIdleElementsForHead s e 1 = a at hok happ
      have hlen := happ.length_elements
      have hview := happ.getElem?_elements
      have hmax : a.2.maxDataSegSize = D := happ.maxDataSegSize.trans h.maxDataSegSize
      simp only [hok, if_true, hlen, Nat.add_sub_cancel, getD_of_getElem? hview]
      rw [h.maxDataSegSize]
      refine .inr ⟨rfl, fun hle => ⟨U + D, ?_, ?_, ?_, by omega, by omega⟩⟩
      · refine h.extend hfull happ (by omega) (Nat.le_refl D) ?_
        exact Int.le_trans (Int.le_of_eq (putDataSegSize_fsize ..).symm) hle
      · exact Nat.le_of_eq hlen.symm
      · right
        show U + D = D * ((a.2.heads e).elements.length + 1)
        rw [hlen, Nat.mul_succ D (_ + 1), ← hfull]
    · have hno : nspSuccess eNomem = false := by decide
      simp only [heq, hno, Bool.false_eq_true, if_false]
      exact .inl ⟨⟨eNomem, rfl⟩, hge.2⟩

/-- **Looking for an element**: it is found, as long as the file can grow, by induction on the
rounds. -/
theorem seekElement_bytes {m : Nat} (hm : 0 < m) (n : Nat) : ∀ {s s' : Fs} {U i inner : Nat}
    {r : Except Int (Nat × Int)}, Bytes D s e L U f → inner ≤ n →
    i ≤ (s.heads e).elements.length →
    (D * (i + 1) + inner + m ≤ U ∨ U = D * ((s.heads e).elements.length + 1)) →
    seekElement n s e i inner = (r, s') → s'.vol.fsize < 2 ^ 31 →
      ∃ i' off U' : Nat, r = .ok (i', (off : Int)) ∧ i ≤ i' ∧
        Located D s' e L U f (D * (i + 1) + inner) m U' i' off := by
  induction n with
  | zero =>
    intro s s' U i inner r h hn hi hroom heq _
    cases heq
    exact ⟨i, inner, U, rfl, Nat.le_refl i, h, by have := h.bounds; omega, rfl, hi, hroom,
      Nat.le_refl U, Nat.le_max_left _ _⟩
  | succ n ih =>
    intro s s' U i inner r h hn hi hroom heq hlt
    rw [seekElement, h.maxDataSegSize] at heq
    split at heq
    · rename_i hge
      have hgrows := passElement_grows (K := True) h.space h.mem i
      have hmem : e ∈ (passElement s e i).2.entries := hgrows.entries.symm ▸ h.mem
      have hpass := passElement_bytes h hi (by omega)
      generalize passElement s e i = a at heq hgrows hmem hpass
      rcases hpass with ⟨⟨status, herr⟩, hfull⟩ | ⟨hok, hbytes⟩
      · simp only [herr] at heq
        cases heq
        omega
      · simp only [hok] at heq
        have hle : a.2.vol.fsize ≤ s'.vol.fsize := by
          have hrec := seekElement_grows (K := True) n (i + 1) ((inner : Int) - D) hgrows.space hmem
          rw [heq] at hrec
          exact hrec.fsize_le
        have hmul : D * (i + 1 + 1) = D * (i + 1) + D := Nat.mul_succ D (i + 1)
        have hsub : (inner : Int) - D = ((inner - D : Nat) : Int) := by omega
        have hbounds := h.bounds
        have hfuel : inner - D ≤ n := by omega
        rw [hsub] at heq
        have hplace : D * (i + 1 + 1) + (inner - D) = D * (i + 1) + inner := by omega
        obtain ⟨U₁, hb, hi₁, hcase, hmono, hbound⟩ :=
          hbytes (Int.le_trans hle (Int.le_of_lt hlt))
        have hroom₁ : D * (i + 1 + 1) + (inner - D) + m ≤ U₁ ∨
            U₁ = D * ((a.2.heads e).elements.length + 1) := by
          rw [hplace]
          rcases hcase with ⟨rfl, hsame⟩ | hnew
          · rw [hsame]
            exact hroom
          · exact .inr hnew
        obtain ⟨i', off, U', hr, hii, hloc⟩ := ih hb hfuel hi₁ hroom₁ heq hlt
        have hlast : D * (i + 1 + 1) ≤ D * (i' + 1) := Nat.mul_le_mul_left D (by omega)
        rw [hplace] at hloc
        rw [hmul] at hlast
        have hbound' : U₁ ≤ max U (D * (i' + 1)) :=
          Nat.le_trans hbound (max_le_max_left U hlast)
        exact ⟨i', off, U', hr, by omega, { hloc with
          mono := Nat.le_trans hmono hloc.mono
          bound := Nat.le_trans hloc.bound (max_le hbound' (Nat.le_max_right _ _)) }⟩
    · cases heq
      exact ⟨i, inner, U, rfl, Nat.le_refl i, h, by omega, rfl, hi, hroom,
        Nat.le_refl U, Nat.le_max_left _ _⟩

/-! ## Writing -/

/-- A write of `m` bytes at the place `p`, with `U` bytes in use, does what it should: it stays
inside of what is in use, or there is no element that is used in part; and it starts in the head, at
the front of an element, or behind what is in use, or it ends in the element it starts in. -/
def Fitting (D U p m : Nat) : Prop :=
  (p + m ≤ U ∨ D ∣ U) ∧ (p < D ∨ D ∣ p ∨ U ≤ p ∨ p + m ≤ D * (p / D + 1))

instance (D U p m : Nat) : Decidable (Fitting D U p m) := inferInstanceAs (Decidable (_ ∧ _))

namespace Bytes

/-- The clusters are used in full. -/
theorem whole (h : Bytes D s e L U f) (hd : D ∣ U) :
    U = D * ((s.heads e).elements.length + 1) := by
  obtain ⟨q, rfl⟩ := hd
  have h₁ := Nat.lt_of_mul_lt_mul_left h.lower
  have h₂ := Nat.le_of_mul_le_mul_left h.upper (by have := h.bounds; omega)
  rw [Nat.le_antisymm h₂ h₁]

theorem le_used (h : Bytes D s e L U f) : D ≤ U := by
  have hlow := h.lower
  by_cases hnil : (s.heads e).elements = []
  · exact Nat.le_of_eq (h.head hnil).symm
  · have hpos := List.length_pos_iff.mpr hnil
    have hle : D * 1 ≤ D * (s.heads e).elements.length := Nat.mul_le_mul_left D hpos
    omega

/-- The first part of a write goes to the head. -/
theorem writeFromHead (h : Bytes D s e L U f) {data : List UInt8} {p : Nat} {r : Int}
    (hne : data ≠ []) (hp : p < D)
    (hroom : p + data.length ≤ U ∨ U = D * ((s.heads e).elements.length + 1))
    (heq : writeFromHead s e data p data.length = some (r, s')) (hlt : s'.vol.fsize < 2 ^ 31) :
    r = data.length ∧ Bytes D s' e L (max U (p + data.length)) (patched f p data) := by
  have hpos := List.length_pos_iff.mpr hne
  have hbounds := h.bounds
  have hused := h.le_used
  have hgrows := writeFromHead_grows (K := False) h.space h.mem (fun hK => hK.elim) heq
  have hle : s.vol.fsize ≤ 2 ^ 31 := Int.le_trans hgrows.fsize_le (Int.le_of_lt hlt)
  obtain ⟨k, hk⟩ : ∃ k, min (D - p) data.length = k := ⟨_, rfl⟩
  have hcpsize : min (int32 (s.maxDataSegSize - p)) (data.length : Int) = k := by
    rw [h.maxDataSegSize, Lib.int32_of_inInt32 ⟨by omega, by omega⟩]
    omega
  have hlen : (data.take k).length = k := List.length_take_of_le (by omega)
  have hkne : data.take k ≠ [] := List.ne_nil_of_length_pos (by omega)
  obtain ⟨hw, hb⟩ := h.writeUserdata hle (i := 0) rfl hkne (show p + _ ≤ D by omega)
  rw [hlen] at hw
  rw [Nat.mul_zero, Nat.zero_add] at hb
  rw [Evfs.writeFromHead, hcpsize] at heq
  simp only [Int.toNat_natCast, hw] at heq
  rw [if_neg (by omega)] at heq
  split at heq
  · cases heq
    have htake : data.take k = data := List.take_of_length_le (by omega)
    rw [htake] at hb ⊢
    rw [Nat.max_eq_left (by omega)]
    exact ⟨by omega, hb⟩
  · rw [if_neg (by omega)] at heq
    obtain ⟨⟨r', s''⟩, hrec, hr'⟩ := Option.map_eq_some_iff.mp heq
    cases hr'
    have hrest : (data.drop k).length = data.length - k := List.length_drop
    have hremain : (data.length : Int) - k = (data.drop k).length := by omega
    have hback : p + k = D * (0 + 1) + 0 := by omega
    rw [hremain, Int.toNat_natCast] at hrec
    have hnext : Room D (s.setVol (viewWriteUserdata s.vol e (data.take k) p).2) e U 0 0
        (data.drop k).length := by
      refine ⟨Nat.zero_le _, by omega, ?_, fun _ => .inl rfl⟩
      rcases hroom with hroom | hfull
      · exact .inl (by omega)
      · exact .inr hfull
    have hdne : data.drop k ≠ [] := by
      rintro hnil
      rw [hnil, List.length_nil] at hrest
      omega
    obtain ⟨hr₂, hb₂⟩ := writeElement_bytes _ hb (Nat.le_refl _) hdne hnext hrec hlt
    have hend : D * (0 + 1) + 0 + (data.drop k).length = p + data.length := by omega
    have hp' : D * (0 + 1) + 0 = p + (data.take k).length := by omega
    rw [hend, hp', Lib.patched_patched, List.take_append_drop] at hb₂
    exact ⟨by omega, hb₂⟩

/-- A write that starts behind the head. -/
theorem writeBehindHead (h : Bytes D s e L U f) {data : List UInt8} {p : Nat} {r : Int}
    (hne : data ≠ []) (hp : D ≤ p) (hfit : Fitting D U p data.length)
    (heq : writeBehindHead s e data p data.length = some (r, s')) (hlt : s'.vol.fsize < 2 ^ 31) :
    r = data.length ∧ Bytes D s' e L (max U (p + data.length)) (patched f p data) := by
  have hpos := List.length_pos_iff.mpr hne
  have hbounds := h.bounds
  obtain ⟨hfit₁, hfit₂⟩ := hfit
  have hsub : (p : Int) - s.maxDataSegSize = ((p - D : Nat) : Int) := by
    rw [h.maxDataSegSize]
    omega
  have hroom : D * (0 + 1) + (p - D) + data.length ≤ U ∨
      U = D * ((s.heads e).elements.length + 1) :=
    hfit₁.imp (fun hle => by omega) h.whole
  have hplace : D * (0 + 1) + (p - D) = p := by omega
  have hgrows := seekElement_grows (K := True) (p - D) 0 ((p - D : Nat) : Int) h.space h.mem
  rw [Evfs.writeBehindHead] at heq
  simp only [hsub, Int.toNat_natCast] at heq
  have hseek := fun hlt' => seekElement_bytes hpos (p - D) h (Nat.le_refl _) (Nat.zero_le _) hroom
    (Prod.eta (seekElement (p - D) s e 0 ((p - D : Nat) : Int))).symm hlt'
  generalize seekElement (p - D) s e 0 ((p - D : Nat) : Int) = a at heq hgrows hseek
  have hmem : e ∈ a.2.entries := hgrows.entries.symm ▸ h.mem
  have hle : a.2.vol.fsize ≤ s'.vol.fsize := by
    split at heq
    · cases heq
      exact Int.le_refl _
    · exact (writeElement_grows (K := True) _ hgrows.space hmem heq).fsize_le
  obtain ⟨i, off, U', hr, -, hloc⟩ := hseek (Int.lt_of_le_of_lt hle hlt)
  rw [hplace] at hloc
  simp only [hr] at heq
  obtain ⟨hb, hoff, hpl, hlen, hroom', hmono, hbound⟩ := hloc
  have hnext : Room D a.2 e U' i off data.length := by
    refine ⟨hlen, hoff, hpl ▸ hroom', fun hin => ?_⟩
    -- the element was there before
    have hlow := hb.lower
    have hlast : D * (i + 1) ≤ D * (a.2.heads e).elements.length := Nat.mul_le_mul_left D hin
    have hsame : U' = U := by
      rcases Nat.le_total U (D * (i + 1)) with hcase | hcase
      · rw [Nat.max_eq_right hcase] at hbound
        omega
      · rw [Nat.max_eq_left hcase] at hbound
        omega
    have hdiv : p / D = i + 1 := by
      rw [← hpl, Nat.mul_add_div (by omega), Nat.div_eq_of_lt hoff, Nat.add_zero]
    rcases hfit₂ with hcase | hcase | hcase | hcase
    · omega
    · left
      have hmod : p % D = off := by
        rw [← hpl, Nat.mul_add_mod, Nat.mod_eq_of_lt hoff]
      rw [← hmod]
      exact Nat.mod_eq_zero_of_dvd hcase
    · have hfull : U' = D * ((a.2.heads e).elements.length + 1) := by omega
      rw [Nat.mul_succ] at hfull
      omega
    · right
      rw [hdiv, Nat.mul_succ] at hcase
      omega
  obtain ⟨hr₂, hb₂⟩ := writeElement_bytes _ hb (Nat.le_refl _) hne hnext heq hlt
  rw [hpl] at hb₂
  have hmax : max U' (p + data.length) = max U (p + data.length) := by
    refine Nat.le_antisymm (max_le (Nat.le_trans hbound ?_) (Nat.le_max_right _ _))
      (max_le_max_right _ hmono)
    exact max_le_max_left U (by omega)
  rw [hmax] at hb₂
  exact ⟨hr₂, hb₂⟩

/-- **Writing**: all of the buffer is written, as long as the file can grow. -/
theorem writeBody (h : Bytes D s e L U f) {data : List UInt8} {offset : Nat} {r : Int}
    (hne : data ≠ []) (hint : offset + maxEntryNameLength + data.length < 2 ^ 31)
    (hfit : Fitting D U (offset + maxEntryNameLength) data.length)
    (heq : writeBody s e data offset data.length = some (r, s')) (hlt : s'.vol.fsize < 2 ^ 31) :
    r = data.length ∧
      Bytes D s' e (max L (offset + maxEntryNameLength + data.length))
        (max U (offset + maxEntryNameLength + data.length))
        (patched f (offset + maxEntryNameLength) data) := by
  have hgrows := writeBody_grows h.space h.mem heq
  have hle : s.vol.fsize ≤ 2 ^ 31 := Int.le_trans hgrows.fsize_le (Int.le_of_lt hlt)
  have hcpoff : int32 ((offset : Int) + maxEntryNameLength) =
      ((offset + maxEntryNameLength : Nat) : Int) := by
    rw [Lib.int32_of_inInt32 ⟨by omega, by omega⟩, Int.natCast_add]
  have hend : int32 (((offset + maxEntryNameLength : Nat) : Int) + data.length) =
      ((offset + maxEntryNameLength + data.length : Nat) : Int) := by
    rw [Lib.int32_of_inInt32 ⟨by omega, by omega⟩, Int.natCast_add (_ + _)]
  rw [Evfs.writeBody, hcpoff, hend] at heq
  obtain ⟨hb, -⟩ := h.stretchHead hle hint
  generalize Evfs.stretchHead s e _ = s₁ at heq hb
  simp only [hb.maxDataSegSize] at heq
  split at heq
  · exact hb.writeFromHead hne (by omega) (hfit.1.imp_right hb.whole) heq hlt
  · exact hb.writeBehindHead hne (by omega) hfit heq hlt

/-- A write has a result. -/
theorem writeBody_ne_none (h : Bytes D s e L U f) {data : List UInt8} {offset : Nat}
    (hne : data ≠ []) (hoff : offset + maxEntryNameLength < 2 ^ 31) (hint : data.length < 2 ^ 31)
    (hle : s.vol.fsize ≤ 2 ^ 31) : Evfs.writeBody s e data offset data.length ≠ none := by
  have hpos := List.length_pos_iff.mpr hne
  have hbounds := h.bounds
  have hcpoff : int32 ((offset : Int) + maxEntryNameLength) =
      ((offset + maxEntryNameLength : Nat) : Int) := by
    rw [Lib.int32_of_inInt32 ⟨by omega, by omega⟩, Int.natCast_add]
  obtain ⟨L', hb, hsame⟩ := h.stretchHead_int32 hle hoff hint
  rw [Evfs.writeBody, hcpoff]
  generalize Evfs.stretchHead s e _ = s₁ at hb hsame
  generalize offset + maxEntryNameLength = p at hoff
  simp only [hb.maxDataSegSize]
  split
  · obtain ⟨k, hk⟩ : ∃ k, min (D - p) data.length = k := ⟨_, rfl⟩
    have hcpsize : min (int32 (s₁.maxDataSegSize - p)) (data.length : Int) = k := by
      rw [hb.maxDataSegSize, Lib.int32_of_inInt32 ⟨by omega, by omega⟩]
      omega
    have hlen : (data.take k).length = k := List.length_take_of_le (by omega)
    have hkne : data.take k ≠ [] := List.ne_nil_of_length_pos (by omega)
    obtain ⟨hw, -⟩ := hb.writeUserdata (hsame ▸ hle) (i := 0) rfl hkne
      (show p + _ ≤ D by omega)
    rw [Evfs.writeFromHead, hcpsize]
    simp only [Int.toNat_natCast, hw, hlen]
    rw [if_neg (by omega)]
    split
    · exact fun hnone => by cases hnone
    · rw [if_neg (by omega)]
      intro hnone
      rw [Option.map_eq_none_iff] at hnone
      refine writeElement_ne_none _ ?_ hnone
      rw [List.length_drop]
      omega
  · rw [Evfs.writeBehindHead]
    split
    · exact fun hnone => by cases hnone
    · exact writeElement_ne_none _ (Int.le_refl _)

end Bytes

/-! ## Reading -/

/-- The first of what is left of a list, and what is left behind it. -/
theorem of_cons_eq_drop {elements l : List Int} {view : Int} {i : Nat}
    (hl : view :: l = elements.drop i) :
    elements[i]? = some view ∧ l = elements.drop (i + 1) := by
  constructor
  · rw [← List.head?_drop, ← hl]
    rfl
  · rw [← List.tail_drop, ← hl]
    rfl

/-- The bytes of two reads, one behind the other. -/
theorem map_range_append (f : Nat → UInt8) {p p' k m : Nat} (hk : k ≤ m) (hp : p' = p + k) :
    ((List.range k).map fun j => f (p + j)) ++ ((List.range (m - k)).map fun j => f (p' + j)) =
      (List.range m).map fun j => f (p + j) := by
  obtain ⟨n, rfl⟩ := Nat.exists_eq_add_of_le hk
  rw [Nat.add_sub_cancel_left, List.range_add, List.map_append, List.map_map, hp]
  simp only [Function.comp_def, Nat.add_assoc]

namespace Front

/-- A read inside of a cluster. -/
theorem readUserdata (h : Front D s e L U f) {m : Nat} (hm : 0 < m)
    (hi : (s.chain e)[i]? = some v) (hfit : off + m ≤ D) :
    ∃ vol, viewReadUserdata s.vol v off m =
        ((m : Int), (List.range m).map fun j => f (D * i + off + j), vol) ∧
      Front D (s.setVol vol) e L U f := by
  obtain ⟨u, hmirror, hu⟩ := h.disk
  have hv := h.mem_busy hi
  have husable : s.vol.Usable v off m :=
    ⟨Int.natCast_nonneg off, by omega, h.not_unused hi, by rw [h.clusterSize]; omega⟩
  obtain ⟨io, heq, hmirror'⟩ := hmirror.readUserdata h.space.vol hv husable
  obtain ⟨io', heq', hk⟩ := readUserdata_keeps s.vol v off m
  obtain ⟨hwf, -⟩ := wf_readUserdata h.space.vol v off m
  have hio : ({ s.vol with io } : Vol) = { s.vol with io := io' } := by
    rw [← heq', heq]
  rw [heq] at hwf
  have hsize : io.cache.hard.clusterSize = s.vol.io.cache.hard.clusterSize := by
    rw [show io = io' from congrArg Vol.io hio]
    exact hk.hard.clusterSize
  refine ⟨{ s.vol with io }, ?_, ⟨h.space.setVol hwf rfl hsize fun _ _ _ => .refl _, h.mem,
    hsize.trans h.clusterSize, h.length, h.upper, h.used, u, hmirror', hu⟩⟩
  rw [heq, Int.toNat_natCast, Int.toNat_natCast, h.clusterSize, ← hu, content]
  rw [Lib.slice_block hi (h.length_udata hmirror hi) hfit]

/-- **Reading elements**, from the element `i` on. -/
theorem readElement (l : List Int) : ∀ {s : Fs} {i off m : Nat}, Front D s e L U f →
    l = (s.heads e).elements.drop i → off < D → 0 < m → D * (i + 1) + off + m ≤ U →
    ∃ s', readElement s l off m =
        ((m : Int), (List.range m).map fun j => f (D * (i + 1) + off + j), s') ∧
      Front D s' e L U f ∧ s'.heads = s.heads := by
  induction l with
  | nil =>
    intro s i off m h hl hoff hm hin
    have hle := List.drop_eq_nil_iff.mp hl.symm
    have hupper := h.upper
    have hmul : D * ((s.heads e).elements.length + 1) ≤ D * (i + 1) :=
      Nat.mul_le_mul_left D (by omega)
    omega
  | cons view l ih =>
    intro s i off m h hl hoff hm hin
    have hbounds := h.bounds
    obtain ⟨hview, hrest⟩ := of_cons_eq_drop hl
    have hseg := h.segSize hview (by omega)
    obtain ⟨k, hk⟩ : ∃ k, min m (D - off) = k := ⟨_, rfl⟩
    have hcpsize : min (m : Int) (viewGetDataSegSize s.vol view - off) = k := by
      rw [hseg]
      omega
    obtain ⟨vol, hread, hb⟩ := h.readUserdata (m := k) (by omega)
      (show (s.chain e)[i + 1]? = some view from hview) (show off + k ≤ D by omega)
    rw [Evfs.readElement]
    simp only [hcpsize, hread]
    rw [if_neg (by rw [h.maxDataSegSize, hseg]; omega)]
    by_cases hkm : k = m
    · rw [if_pos (.inr (by omega)), hkm]
      rw [hkm] at hread
      exact ⟨s.setVol vol, rfl, hb, rfl⟩
    · rw [if_neg (by omega)]
      have hsub : (m : Int) - k = ((m - k : Nat) : Int) := by omega
      have hmul : D * (i + 1 + 1) = D * (i + 1) + D := Nat.mul_succ D (i + 1)
      obtain ⟨s', hrec, hb', hheads⟩ := ih (s := s.setVol vol) (i := i + 1) (m := m - k)
        hb hrest (show 0 < D by omega) (by omega) (by omega)
      have hzero : ((0 : Nat) : Int) = 0 := rfl
      rw [hzero] at hrec
      refine ⟨s', ?_, hb', hheads⟩
      rw [hsub, hrec]
      exact Prod.ext (by simp only; omega)
        (Prod.ext (map_range_append f (by omega) (by omega)) rfl)

/-- The element at a place that is in use. -/
theorem seekRead (h : Front D s e L U f) (l : List Int) : ∀ {i inner : Nat},
    l = (s.heads e).elements.drop i → D * (i + 1) + inner < U →
    ∃ i' off : Nat, seekRead s l inner = ((s.heads e).elements.drop i', (off : Int)) ∧ off < D ∧
      D * (i' + 1) + off = D * (i + 1) + inner := by
  have hbounds := h.bounds
  induction l with
  | nil =>
    intro i inner hl hin
    have hle := List.drop_eq_nil_iff.mp hl.symm
    have hupper := h.upper
    have hmul : D * ((s.heads e).elements.length + 1) ≤ D * (i + 1) :=
      Nat.mul_le_mul_left D (by omega)
    omega
  | cons view l ih =>
    intro i inner hl hin
    obtain ⟨hview, hrest⟩ := of_cons_eq_drop hl
    rw [Evfs.seekRead, h.maxDataSegSize]
    split
    · have hseg : viewGetDataSegSize s.vol view = D := by
        rw [h.segSize hview (by omega)]
        omega
      have hmul : D * (i + 1 + 1) = D * (i + 1) + D := Nat.mul_succ D (i + 1)
      have hsub : (inner : Int) - D = ((inner - D : Nat) : Int) := by omega
      simp only [hseg]
      rw [if_pos (by omega), hsub]
      obtain ⟨i', off, heq, hoff, hplace⟩ :=
        ih hrest (show D * (i + 1 + 1) + (inner - D) < U by omega)
      exact ⟨i', off, heq, hoff, by omega⟩
    · exact ⟨i, inner, by rw [← hl], by omega, rfl⟩

/-- **Reading** inside of what is in use. -/
theorem readBytes (h : Front D s e L U f) {p n : Nat} (hp : p < 2 ^ 31) (hn : 0 < n)
    (hin : p < L → p + min n (L - p) ≤ U) :
    ∃ s', readBytes s e p n = (((min n (L - p) : Nat) : Int),
        (List.range (min n (L - p))).map fun j => f (p + j), s') ∧
      Front D s' e L U f ∧ s'.heads = s.heads := by
  have hbounds := h.bounds
  have hL := h.headSize.2
  have hremain : min (int32 ((L : Int) - p)) (n : Int) = min (n : Int) ((L : Int) - p) := by
    rw [Lib.int32_of_inInt32 ⟨by omega, by omega⟩, min_comm]
  rw [Evfs.readBytes]
  simp only [h.length, hremain, h.maxDataSegSize]
  by_cases hnone : L ≤ p
  · rw [if_pos (by omega), show min n (L - p) = 0 by omega]
    exact ⟨s, rfl, h, rfl⟩
  have hin := hin (Nat.lt_of_not_le hnone)
  rw [if_neg (by omega)]
  obtain ⟨m, hm⟩ : ∃ m, min n (L - p) = m := ⟨_, rfl⟩
  have hm' : min (n : Int) ((L : Int) - p) = m := by omega
  rw [hm, hm']
  split
  · obtain ⟨k, hk⟩ : ∃ k, min (D - p) m = k := ⟨_, rfl⟩
    have hcpsize : min (int32 ((D : Int) - p)) (m : Int) = k := by
      rw [Lib.int32_of_inInt32 ⟨by omega, by omega⟩]
      omega
    obtain ⟨vol, hread, hb⟩ := h.readUserdata (m := k) (i := 0) (by omega) rfl
      (show p + k ≤ D by omega)
    rw [Nat.mul_zero, Nat.zero_add] at hread
    simp only [hcpsize, hread]
    by_cases hkm : k = m
    · rw [if_pos (.inr (by omega)), hkm]
      exact ⟨s.setVol vol, rfl, hb, rfl⟩
    · rw [if_neg (by omega)]
      have hsub : (m : Int) - k = ((m - k : Nat) : Int) := by omega
      obtain ⟨s', hrec, hb', hheads⟩ := hb.readElement (s.heads e).elements (i := 0)
        (m := m - k) rfl (show 0 < D by omega) (by omega) (by omega)
      have hzero : ((0 : Nat) : Int) = 0 := rfl
      rw [hzero] at hrec
      refine ⟨s', ?_, hb', hheads⟩
      rw [hsub, hrec]
      exact Prod.ext (by simp only; omega)
        (Prod.ext (map_range_append f (by omega) (by omega)) rfl)
  · have hsub : (p : Int) - D = ((p - D : Nat) : Int) := by omega
    obtain ⟨i, off, hseek, hoff, hplace⟩ := h.seekRead (s.heads e).elements (i := 0)
      rfl (show D * (0 + 1) + (p - D) < U by omega)
    have hplace' : D * (i + 1) + off = p := by omega
    rw [hsub, hseek]
    obtain ⟨s', hread, hb, hheads⟩ := h.readElement ((s.heads e).elements.drop i) (i := i)
      (m := m) rfl hoff (by omega) (by omega)
    rw [hplace'] at hread
    exact ⟨s', hread, hb, hheads⟩

end Front

/-- Reading an entry that is in use up to its length. -/
theorem Bytes.readBytes (h : Bytes D s e L U f) (hLU : L ≤ U) {p n : Nat} (hp : p < 2 ^ 31)
    (hn : 0 < n) :
    ∃ s', readBytes s e p n = (((min n (L - p) : Nat) : Int),
        (List.range (min n (L - p))).map fun j => f (p + j), s') ∧
      Bytes D s' e L U f ∧ s'.heads = s.heads := by
  obtain ⟨s', hread, hh, hheads⟩ := h.front.readBytes hp hn fun _ => by omega
  exact ⟨s', hread, h.of_front hh (by rw [hheads]), hheads⟩

end Evfs

end LibNax
