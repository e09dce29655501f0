import LibNax.Evfs.Failing
import LibNax.Evfs.Growable

/-!
# Writes that fail or are short

A write stores the new length of its entry first, takes clusters on the way and gives nothing back.
So a write that is cut short leaves a length behind that nothing stands for; and where an element
cannot be allocated all elements of the entry are unlinked.

What is left are the writes that set no length and take no cluster.  They end inside of the length
and of what is in use, or their end is no `int` and they start in the middle of an element, which
refuses them.  Such a write allocates nothing but the requests for its data, one for each element.
Where the one for the head is missing it goes on behind the head as if nothing had been written to
it; where another one is missing it stops.

* `Undamaged` — what a write should leave behind, whatever it has reported.
* `Harmless` — the writes that set no length and take no cluster.
* `Occupied`, `Overwrote` — the elements that such a write passes, and what it does to them.
* `writeElement_inside`, `writeBody_inside` — the loop and the write, with any result.
* `write_undamaged` — only writes within the length, or whose end overflows, can be short and leave
  an entry undamaged; harmless writes do.
* `write_not_undamaged` — sixty bytes behind thirty, where the sixth allocation fails.
-/

set_option autoImplicit false

namespace LibNax

namespace Evfs

open Lib (int32 patched)

variable {s s' s₁ : Fs} {e v : Int} {D L U i off : Nat} {f : Nat → UInt8} {allocFaults : List Bool}

/-! ## The property -/

/-- The bytes at an offset of an entry can be read, where no allocation fails. -/
def Reveals (s : Fs) (e : Int) (offset : Nat) (bytes : List UInt8) : Prop :=
  ∃ t, readData (s.deny []) e offset bytes.length = some ((bytes.length : Int), bytes, t)

/-- After a write to `e` at `offset` that has reported `r`, where the managers were `s` before. -/
structure Undamaged (s s' : Fs) (e : Int) (offset : Nat) (r : Int) : Prop where
  /-- What was done is defined. -/
  defined : s'.Defined
  /-- What could be read outside of what was written can be read. -/
  bytes : ∀ (k : Nat) (b : List UInt8), k + maxEntryNameLength + b.length < 2 ^ 31 →
    (k + b.length ≤ offset ∨ (offset : Int) + r ≤ k) → Reveals s e k b → Reveals s' e k b
  /-- No element is lost. -/
  elements : (s.heads e).elements <+: (s'.heads e).elements
  /-- Every cluster is idle, or one of one entry. -/
  owned : (s'.vol.idle ++ s'.entries.flatMap s'.chain).Perm (viewIds s'.vol.clusterCount)
  /-- The length is larger where bytes behind the end were written. -/
  length : viewGetDataSegSize s'.vol e = if r < 0 then viewGetDataSegSize s.vol e
    else max (viewGetDataSegSize s.vol e) (offset + maxEntryNameLength + r)

/-- A write of `n` bytes at the place `p`, which is behind the key, in an entry of the length `L` of
which `U` bytes are in use: it stays inside of both, and if it starts in the head the request for
that part can be allocated; or it sets no length, its place is inside of the length and in the
middle of an element that is in use in full, and it ends behind that element. -/
def Harmless (D L U p n : Nat) (allocFaults : List Bool) : Prop :=
  (p + n ≤ L ∧ p + n ≤ U ∧ (p < D → allocFaults.headD false = false)) ∨
    (p + n ≤ L ∨ 2 ^ 31 ≤ p + n) ∧ p ≤ L ∧ D < p ∧ 0 < p % D ∧ D < p % D + n ∧
      D * (p / D + 1) ≤ U

instance (D L U p n : Nat) (allocFaults : List Bool) : Decidable (Harmless D L U p n allocFaults) :=
  inferInstanceAs (Decidable (_ ∨ _))

/-! ## One cluster -/

/-- A request is allocated, or nothing is done. -/
theorem submit_deny {io : Io} (hnil : io.allocFaults = []) (allocFaults : List Bool) (task : Task) :
    ({ io with allocFaults } : Io).submit task =
      if allocFaults.headD false then
        (.error eNomem, { io with allocFaults := allocFaults.tail })
      else ((io.submit task).1, { (io.submit task).2 with allocFaults := allocFaults.tail }) := by
  have halloc : ({ io with allocFaults } : Io).alloc =
    (!allocFaults.headD false, { io with allocFaults := allocFaults.tail }) := rfl
  rw [Io.submit, Io.submit, Io.alloc_of_nil hnil, halloc]
  cases allocFaults.headD false with
  | true => rfl
  | false => rfl

/-- A write to a cluster allocates its request, or writes nothing. -/
theorem writeUserdata_deny {vol : Vol} (hnil : vol.io.allocFaults = [])
    (htotal : 0 < vol.totalClusterCount) (hv : 1 ≤ v) (allocFaults : List Bool) (d : List UInt8)
    {off : Nat} (hu : vol.Usable v off d.length) : ∃ rest,
      viewWriteUserdata (vol.deny allocFaults) v d off =
        if allocFaults.headD false then (0, vol.deny rest)
        else ((viewWriteUserdata vol v d off).1, (viewWriteUserdata vol v d off).2.deny rest) := by
  have hu' : (vol.deny allocFaults).Usable v off d.length := ⟨hu.nonneg, hu.pos, hu.used, hu.fits⟩
  have hgo : ¬(v ≤ 0 ∨ ((off + sizeofCluster : Nat) : Int) < 0 ∨
      ((off + sizeofCluster : Nat) : Int) + d.length > vol.io.clusterSize) := by
    have hfits := hu.fits
    rw [Io.clusterSize]
    omega
  have hsubmit : cacheWrite vol.io v d (off + sizeofCluster : Nat) =
      vol.io.submit (.write v d (off + sizeofCluster)) := if_neg hgo
  have hsubmit' : cacheWrite (vol.deny allocFaults).io v d (off + sizeofCluster : Nat) =
      (vol.deny allocFaults).io.submit (.write v d (off + sizeofCluster)) := if_neg hgo
  refine ⟨allocFaults.tail, ?_⟩
  rw [viewWriteUserdata_snd (s := vol.deny allocFaults) htotal hv hu',
    viewWriteUserdata_snd htotal hv hu, hsubmit, hsubmit',
    show (vol.deny allocFaults).io = { vol.io with allocFaults } from rfl, submit_deny hnil]
  cases allocFaults.headD false with
  | true => rfl
  | false => rfl

/-! ## The elements that are in use -/

/-- The elements of an entry are in use in full for the first `U` bytes. -/
structure Occupied (D : Nat) (s : Fs) (e : Int) (U : Nat) : Prop where
  maxDataSegSize : s.maxDataSegSize = D
  upper : U ≤ D * ((s.heads e).elements.length + 1)
  size : ∀ i v, (s.heads e).elements[i]? = some v → D * (i + 1) < U →
    viewGetDataSegSize s.vol v = (min D (U - D * (i + 1)) : Nat)

theorem Front.occupied (h : Front D s.eased e L U f) (allocFaults : List Bool) :
    Occupied D (s.deny allocFaults) e U :=
  ⟨h.maxDataSegSize, h.upper, fun _ _ hi hlt => h.segSize hi hlt⟩

namespace Occupied

/-- The element is there. -/
theorem elementAt (h : Occupied D s e U) (hlt : D * (i + 1) < U) :
    ∃ view, (s.heads e).elements[i]? = some view ∧ Evfs.elementAt s e i = (0, i, s) := by
  have hi : i < (s.heads e).elements.length :=
    Nat.lt_of_succ_lt_succ (Nat.lt_of_mul_lt_mul_left (Nat.lt_of_lt_of_le hlt h.upper))
  exact ⟨_, List.getElem?_eq_getElem hi, if_pos hi⟩

theorem elementShare (h : Occupied D s e U) (hlt : D * (i + 1) < U)
    (hi : (s.heads e).elements[i]? = some v) (hD : 0 < D) (off remain : Int) :
    Evfs.elementShare s v off remain =
      (min remain (min D (U - D * (i + 1)) : Nat), s.vol) := by
  rw [Evfs.elementShare, h.size i v hi hlt]
  exact if_pos (by omega)

/-- **Looking for an element** that is in use takes no cluster, by induction on the rounds. -/
theorem seekElement (h : Occupied D s e U) (hD : 0 < D) (n : Nat) : ∀ {i inner : Nat}, inner ≤ n →
    D * (i + 1) + inner < U →
      Evfs.seekElement n s e i inner = (.ok (i + inner / D, ((inner % D : Nat) : Int)), s) := by
  induction n with
  | zero =>
    intro i inner hn _
    obtain rfl := Nat.le_zero.mp hn
    rw [Nat.zero_div, Nat.zero_mod]
    rfl
  | succ n ih =>
    intro i inner hn hlt
    rw [Evfs.seekElement, h.maxDataSegSize]
    split
    · rename_i hge
      have hmul : D * (i + 1 + 1) = D * (i + 1) + D := Nat.mul_succ D (i + 1)
      obtain ⟨view, hview, -⟩ := h.elementAt (i := i) (by omega)
      have hi := (List.getElem?_eq_some_iff.mp hview).1
      have hfull : min D (U - D * (i + 1)) = D := Nat.min_eq_left (by omega)
      have hsize := h.size i view hview (by omega)
      rw [hfull] at hsize
      have hsub : (inner : Int) - D = ((inner - D : Nat) : Int) := by omega
      rw [passElement, if_pos hi]
      simp only [getD_of_getElem? hview, hsize]
      rw [if_pos (by omega), hsub, ih (by omega) (by omega), Nat.add_assoc, Nat.add_comm 1,
        ← Nat.div_eq_sub_div hD (by omega), ← Nat.mod_eq_sub_mod (by omega)]
    · rw [Nat.div_eq_of_lt (by omega), Nat.mod_eq_of_lt (by omega)]
      rfl

end Occupied

/-! ## What is written -/

/-- Of the entry `e` with the bytes `f`, `w` bytes from `p` on were written, and nothing else has
changed. -/
def Overwrote (D : Nat) (s s' : Fs) (e : Int) (L U : Nat) (f : Nat → UInt8) (p w : Nat) : Prop :=
  ∃ vol rest f', s' = (s.setVol vol).deny rest ∧ vol.io.fault = s.vol.io.fault ∧
    vol.fsize = s.vol.fsize ∧ Front D (s.setVol vol).eased e L U f' ∧
      ∀ k, k < p ∨ p + w ≤ k → f' k = f k

theorem Front.overwrote (h : Front D s.eased e L U f) (allocFaults : List Bool) (p : Nat) :
    Overwrote D s (s.deny allocFaults) e L U f p 0 :=
  ⟨s.vol, allocFaults, f, rfl, rfl, rfl, h, fun _ _ => rfl⟩

/-- Another write behind the first one. -/
theorem Overwrote.after {vol : Vol} {f' : Nat → UInt8} {p p' n w : Nat}
    (h : Overwrote D (s.setVol vol) s' e L U f' p' w) (hfault : vol.io.fault = s.vol.io.fault)
    (hfsize : vol.fsize = s.vol.fsize) (hf : ∀ k, k < p ∨ p + n ≤ k → f' k = f k)
    (hp : p' = p + n) : Overwrote D s s' e L U f p (n + w) := by
  obtain ⟨vol', rest, f'', heq, hfault', hfsize', hfront, hf'⟩ := h
  refine ⟨vol', rest, f'', heq, hfault'.trans hfault, hfsize'.trans hfsize, hfront,
    fun k hout => ?_⟩
  rw [hf' k (by omega), hf k (by omega)]

/-- A write inside of a cluster: its request is missing, or all of it is written. -/
theorem Front.writeUserdata_deny (h : Front D s.eased e L U f) (hle : s.vol.fsize ≤ 2 ^ 31)
    (hi : (s.chain e)[i]? = some v) {d : List UInt8} (hne : d ≠ []) (hfit : off + d.length ≤ D)
    (allocFaults : List Bool) :
    (allocFaults.headD false = true ∧ ∃ rest,
      viewWriteUserdata (s.deny allocFaults).vol v d off = (0, s.vol.deny rest)) ∨
    allocFaults.headD false = false ∧ ∃ vol rest,
      viewWriteUserdata (s.deny allocFaults).vol v d off = ((d.length : Int), vol.deny rest) ∧
        vol.io.fault = s.vol.io.fault ∧ vol.fsize = s.vol.fsize ∧
          Front D (s.setVol vol).eased e L U (patched f (D * i + off) d) := by
  have hpos := List.length_pos_iff.mpr hne
  have hv := (h.space.vol.mem_busy (h.mem_busy hi)).1
  have husable : s.vol.Usable v off d.length := by
    refine ⟨Int.natCast_nonneg off, by omega, h.not_unused hi, ?_⟩
    rw [show s.vol.io.cache.hard.clusterSize = D + sizeofCluster from h.clusterSize]
    omega
  have hnone : s.vol.io.allocFaults = [] := h.space.vol.allocFaults
  obtain ⟨rest, heq⟩ :=
    Evfs.writeUserdata_deny hnone h.space.vol.total hv allocFaults d husable
  cases hfail : allocFaults.headD false with
  | true =>
    rw [hfail] at heq
    exact .inl ⟨rfl, rest, heq⟩
  | false =>
    rw [hfail] at heq
    obtain ⟨hw, hb⟩ := h.writeUserdata hle hi hne hfit
    obtain ⟨io, hio, hk⟩ := writeUserdata_keeps s.vol v d off
    rw [eased_vol] at hw hb
    rw [hw] at heq
    refine .inr ⟨rfl, _, rest, heq, ?_, ?_, hb⟩
    · rw [hio]
      exact hk.fault
    · rw [hio]
      exact hk.hard.fsize

/-- What a write of a list does outside of it. -/
theorem patched_outside {f : Nat → UInt8} {p k : Nat} {d : List UInt8}
    (h : k < p ∨ p + d.length ≤ k) : patched f p d k = f k := by
  rcases h with h | h
  · exact Lib.patched_of_lt h
  · exact Lib.patched_of_le h

/-- Data that end behind their cluster are not written. -/
theorem Front.not_usable (h : Front D s.eased e L U f) (allocFaults : List Bool) (v : Int)
    {off n : Nat} (hlong : D < off + n) : ¬(s.deny allocFaults).vol.Usable v off n := fun hu => by
  have hfits := hu.fits
  have hsize : (s.deny allocFaults).vol.io.cache.hard.clusterSize = D + sizeofCluster :=
    h.clusterSize
  omega

/-- **Writing elements** that are in use, with any result, by induction on the rounds. -/
theorem writeElement_inside (n : Nat) : ∀ {s s' : Fs} {i off : Nat} {f : Nat → UInt8}
    {data : List UInt8} {allocFaults : List Bool} {r : Int}, Front D s.eased e L U f →
    s.vol.fsize ≤ 2 ^ 31 → D * (i + 1) + off + data.length ≤ U →
    writeElement n (s.deny allocFaults) e i data off data.length = some (r, s') →
      ∃ w : Nat, r = w ∧ w ≤ data.length ∧ Overwrote D s s' e L U f (D * (i + 1) + off) w := by
  induction n with
  | zero =>
    intro s s' i off f data a r h _ _ heq
    cases heq
    exact ⟨0, rfl, Nat.zero_le _, h.overwrote a _⟩
  | succ n ih =>
    intro s s' i off f data a r h hle hin heq
    have hD := h.bounds
    rw [writeElement] at heq
    split at heq
    · cases heq
      exact ⟨0, rfl, Nat.zero_le _, h.overwrote a _⟩
    rename_i hcond
    have hoff : off < D := by
      have hmax : (s.deny a).maxDataSegSize = D := h.maxDataSegSize
      omega
    have hocc := h.occupied a
    obtain ⟨view, hview, hat⟩ := hocc.elementAt (i := i) (by omega)
    have hshare := hocc.elementShare (i := i) (by omega) hview (by omega) off data.length
    obtain ⟨k, hk⟩ : ∃ k, min data.length (min D (U - D * (i + 1))) = k := ⟨_, rfl⟩
    rw [show min (data.length : Int) _ = (k : Int) by omega] at hshare
    simp only [hat, nspSuccess_zero, if_true, getD_of_getElem? hview, hshare,
      Int.toNat_natCast] at heq
    rw [if_neg (by omega)] at heq
    have hlen : (data.take k).length = k := List.length_take_of_le (by omega)
    have hchain : (s.chain e)[i + 1]? = some view := hview
    by_cases hfit : off + k ≤ D
    · have hdne : data.take k ≠ [] := List.ne_nil_of_length_pos (by omega)
      rcases h.writeUserdata_deny hle hchain hdne (show off + _ ≤ D by omega) a with
        ⟨-, rest, hw⟩ | ⟨-, vol, rest, hw, hfault, hfsize, hb⟩
      · simp only [hw] at heq
        rw [if_pos (.inl (by omega))] at heq
        cases heq
        exact ⟨0, rfl, Nat.zero_le _, h.overwrote rest _⟩
      · rw [hlen] at hw
        simp only [hw, ne_eq, not_true_eq_false, false_or, Int.toNat_natCast] at heq
        have hout : ∀ j, j < D * (i + 1) + off ∨ D * (i + 1) + off + k ≤ j →
            patched f (D * (i + 1) + off) (data.take k) j = f j :=
          fun j hj => patched_outside (by rw [hlen]; exact hj)
        split at heq
        · cases heq
          exact ⟨k, rfl, by omega, vol, rest, _, rfl, hfault, hfsize, hb, hout⟩
        · -- the element was written from its start to its end
          obtain ⟨⟨r', s''⟩, hrec, hr'⟩ := Option.map_eq_some_iff.mp heq
          cases hr'
          have hrest : (data.drop k).length = data.length - k := List.length_drop
          have hremain : (data.length : Int) - k = (data.drop k).length := by omega
          have hmul : D * (i + 1 + 1) = D * (i + 1) + D := Nat.mul_succ D (i + 1)
          rw [hremain] at hrec
          obtain ⟨w, hr, hwle, hover⟩ := ih (s := s.setVol vol) hb (hfsize.trans_le hle)
            (show D * (i + 1 + 1) + 0 + (data.drop k).length ≤ U by omega) hrec
          exact ⟨k + w, by omega, by omega, hover.after hfault hfsize hout (by omega)⟩
    · -- a write that does not fit into its element is none
      rw [viewWriteUserdata_of_not (h.not_usable a view (by omega))] at heq
      simp only at heq
      rw [if_pos (.inl (by omega))] at heq
      cases heq
      exact ⟨0, rfl, Nat.zero_le _, h.overwrote a _⟩

/-- A write from the middle of an element that ends behind it is refused. -/
theorem writeElement_refused (h : Front D s.eased e L U f) (hpos : 0 < off) (hoff : off < D)
    {data : List UInt8} (hlong : D < off + data.length) (hin : D * (i + 1 + 1) ≤ U) (n : Nat) :
    writeElement n (s.deny allocFaults) e i data off data.length =
      some (0, s.deny allocFaults) := by
  cases n with
  | zero => rfl
  | succ n =>
    have hD := h.bounds
    have hmul : D * (i + 1 + 1) = D * (i + 1) + D := Nat.mul_succ D (i + 1)
    have hmax : (s.deny allocFaults).maxDataSegSize = D := h.maxDataSegSize
    have hocc := h.occupied allocFaults
    obtain ⟨view, hview, hat⟩ := hocc.elementAt (i := i) (by omega)
    have hshare := hocc.elementShare (i := i) (by omega) hview (by omega) off data.length
    obtain ⟨k, hk⟩ : ∃ k, min data.length (min D (U - D * (i + 1))) = k := ⟨_, rfl⟩
    rw [show min (data.length : Int) _ = (k : Int) by omega] at hshare
    have hlen : (data.take k).length = k := List.length_take_of_le (by omega)
    rw [writeElement, if_neg (by omega)]
    simp only [hat, nspSuccess_zero, if_true, getD_of_getElem? hview, hshare, Int.toNat_natCast]
    rw [if_neg (by omega), viewWriteUserdata_of_not (h.not_usable allocFaults view (by omega))]
    exact if_pos (.inl (by omega))

/-- **A harmless write**: it has a result, whichever allocation fails. -/
theorem writeBody_inside (h : Front D s.eased e L U f) (hle : s.vol.fsize ≤ 2 ^ 31)
    {data : List UInt8} {offset : Nat} (hne : data ≠ []) (hint : data.length < 2 ^ 31)
    (hsafe : Harmless D L U (offset + maxEntryNameLength) data.length allocFaults) :
    ∃ (w : Nat) (s' : Fs),
      writeBody (s.deny allocFaults) e data offset data.length = some ((w : Int), s') ∧
        offset + maxEntryNameLength + w ≤ L ∧
          Overwrote D s s' e L U f (offset + maxEntryNameLength) w := by
  have hL := h.headSize.2
  have hD := h.bounds
  have hpos := List.length_pos_iff.mpr hne
  have hmax : (s.deny allocFaults).maxDataSegSize = D := h.maxDataSegSize
  have hlength : viewGetDataSegSize (s.deny allocFaults).vol e = L := h.length
  have hp : offset + maxEntryNameLength ≤ L := by
    rcases hsafe with hsafe | hsafe
    · omega
    · exact hsafe.2.1
  have hcpoff : int32 ((offset : Int) + maxEntryNameLength) =
      ((offset + maxEntryNameLength : Nat) : Int) := by
    rw [Lib.int32_of_inInt32 ⟨by omega, by omega⟩, Int.natCast_add]
  have hsame : stretchHead (s.deny allocFaults) e
      (int32 (((offset + maxEntryNameLength : Nat) : Int) + data.length)) = s.deny allocFaults := by
    rw [stretchHead, hlength, if_neg]
    have hcases : offset + maxEntryNameLength + data.length ≤ L ∨
        2 ^ 31 ≤ offset + maxEntryNameLength + data.length := by
      rcases hsafe with hsafe | hsafe
      · exact .inl hsafe.1
      · exact hsafe.1
    rcases hcases with hend | hge
    · rw [Lib.int32_of_inInt32 ⟨by omega, by omega⟩]
      omega
    · rw [Lib.int32_of_ge (by omega) (by omega)]
      omega
  rw [writeBody, hcpoff, hsame]
  generalize offset + maxEntryNameLength = p at hsafe hp
  simp only [hmax]
  split
  · -- the head is written first
    have hlt : p < D := by omega
    obtain ⟨hend, hin, hfirst⟩ := hsafe.resolve_right (by omega)
    obtain ⟨k, hk⟩ : ∃ k, min (D - p) data.length = k := ⟨_, rfl⟩
    have hcpsize : min (int32 ((s.deny allocFaults).maxDataSegSize - p)) (data.length : Int) =
        k := by
      rw [hmax, Lib.int32_of_inInt32 ⟨by omega, by omega⟩]
      omega
    have hlen : (data.take k).length = k := List.length_take_of_le (by omega)
    have hkne : data.take k ≠ [] := List.ne_nil_of_length_pos (by omega)
    have hout : ∀ j, j < p ∨ p + k ≤ j → patched f p (data.take k) j = f j :=
      fun j hj => patched_outside (by rw [hlen]; exact hj)
    rcases h.writeUserdata_deny hle (i := 0) rfl hkne (show p + _ ≤ D by omega) allocFaults with
      ⟨hfail, -⟩ | ⟨-, vol, rest, hw, hfault, hfsize, hb⟩
    · rw [hfirst hlt] at hfail
      cases hfail
    rw [hlen] at hw
    rw [Nat.mul_zero, Nat.zero_add] at hb
    rw [writeFromHead, hcpsize]
    simp only [Int.toNat_natCast, hw]
    rw [if_neg (by omega)]
    split
    · exact ⟨k, _, rfl, by omega, vol, rest, _, rfl, hfault, hfsize, hb, hout⟩
    · have hrest : (data.drop k).length = data.length - k := List.length_drop
      have hremain : (data.length : Int) - k = (data.drop k).length := by omega
      rw [if_neg (by omega), hremain]
      have hsome : writeElement (data.drop k).length ((s.setVol vol).deny rest) e 0 (data.drop k) 0
        (data.drop k).length ≠ none := writeElement_ne_none _ (Int.le_refl _)
      obtain ⟨⟨r, s'⟩, hrec⟩ := Option.ne_none_iff_exists'.mp hsome
      obtain ⟨w, rfl, hwle, hover⟩ := writeElement_inside _ (s := s.setVol vol) hb
        (hfsize.trans_le hle) (show D * (0 + 1) + 0 + (data.drop k).length ≤ U by omega) hrec
      refine ⟨k + w, s', ?_, by omega, hover.after hfault hfsize hout (by omega)⟩
      exact Option.map_eq_some_iff.mpr ⟨_, hrec, rfl⟩
  · have hge : D ≤ p := by omega
    have hplace : D * ((p - D) / D + 1) + (p - D) % D = p := by
      have hdiv := Nat.div_add_mod (p - D) D
      rw [Nat.mul_add, Nat.mul_one]
      omega
    have hpU : p < U := by
      rcases hsafe with hsafe | ⟨-, -, -, -, -, hin⟩
      · omega
      · exact Nat.lt_of_lt_of_le (Nat.lt_mul_div_succ p (by omega)) hin
    have hsub : (p : Int) - (s.deny allocFaults).maxDataSegSize = ((p - D : Nat) : Int) := by
      rw [hmax]
      omega
    have hseek := (h.occupied allocFaults).seekElement (by omega) (p - D) (i := 0) (Nat.le_refl _)
      (by omega)
    rw [writeBehindHead]
    simp only [hsub, Int.toNat_natCast, hseek, Nat.zero_add]
    rcases hsafe with ⟨hend, hin, -⟩ | ⟨-, -, -, hmid, hlong, hin⟩
    · have hsome : writeElement data.length (s.deny allocFaults) e ((p - D) / D) data
        ((p - D) % D : Nat) data.length ≠ none := writeElement_ne_none _ (Int.le_refl _)
      obtain ⟨⟨r, s'⟩, hrec⟩ := Option.ne_none_iff_exists'.mp hsome
      obtain ⟨w, rfl, hwle, hover⟩ := writeElement_inside _ h hle (by omega) hrec
      rw [hplace] at hover
      exact ⟨w, s', hrec, by omega, hover⟩
    · have hmod : (p - D) % D = p % D := (Nat.mod_eq_sub_mod hge).symm
      have hdiv : (p - D) / D + 1 = p / D := (Nat.div_eq_sub_div (by omega) hge).symm
      rw [writeElement_refused h (by omega) (Nat.mod_lt _ (by omega)) (by omega)
        (by rw [hdiv]; exact hin)]
      exact ⟨0, _, rfl, hp, h.overwrote allocFaults p⟩

/-! ## What can be read -/

theorem readUserdata_fst (vol : Vol) (v offset length : Int) :
    (viewReadUserdata vol v offset length).1 = 0 ∨
      (viewReadUserdata vol v offset length).1 = length ∧ 0 < length := by
  rw [viewReadUserdata]
  split
  · exact .inl rfl
  · rename_i hno
    simp only
    split
    · exact .inr ⟨rfl, by omega⟩
    · exact .inl rfl

/-- No more is read than is in use behind the place that the read starts at. -/
theorem readElement_le {elements : List Int} (l : List Int) : ∀ {s : Fs} (i : Nat) (off m : Int),
    s.maxDataSegSize = D → (∀ j v, elements[j]? = some v →
      viewGetDataSegSize s.vol v = (min D (U - D * (j + 1)) : Nat)) → l = elements.drop i →
    (readElement s l off m).1 ≤ max 0 (min m (U - (D * (i + 1) : Nat) - off)) := by
  induction l with
  | nil => exact fun _ _ _ _ _ _ => le_max_left _ _
  | cons view l ih =>
    intro s i off m hmax hsize hl
    obtain ⟨hview, hrest⟩ := of_cons_eq_drop hl
    have hseg := hsize i view hview
    have hfst := readUserdata_fst s.vol view off (min m (viewGetDataSegSize s.vol view - off))
    obtain ⟨io, hio, -⟩ := readUserdata_keeps s.vol view off
      (min m (viewGetDataSegSize s.vol view - off))
    rw [readElement]
    simp only
    split
    · exact le_max_left _ _
    rename_i hgo
    generalize viewReadUserdata s.vol view off (min m (viewGetDataSegSize s.vol view - off)) = r
      at hfst hio
    split
    · simp only
      omega
    · have hrec := ih (s := s.setVol r.2.2) (i + 1) 0 (m - r.1) hmax
        (by rw [show (s.setVol r.2.2).vol = r.2.2 from rfl, hio]; exact hsize) hrest
      have hmul : D * (i + 1 + 1) = D * (i + 1) + D := Nat.mul_succ D (i + 1)
      simp only
      omega

/-- The element that is found is not in front of the place. -/
theorem seekRead_le {elements : List Int} (l : List Int) : ∀ (i : Nat) (inner : Int),
    (∀ j v, elements[j]? = some v →
      viewGetDataSegSize s.vol v = (min D (U - D * (j + 1)) : Nat)) → l = elements.drop i →
    ∃ i' : Nat, (seekRead s l inner).1 = elements.drop i' ∧
      (D * (i + 1) : Nat) + inner ≤ (D * (i' + 1) : Nat) + (seekRead s l inner).2 := by
  induction l with
  | nil => exact fun i inner _ hl => ⟨i, hl, Int.le_refl _⟩
  | cons view l ih =>
    intro i inner hsize hl
    obtain ⟨hview, hrest⟩ := of_cons_eq_drop hl
    have hseg := hsize i view hview
    have hmul : D * (i + 1 + 1) = D * (i + 1) + D := Nat.mul_succ D (i + 1)
    rw [seekRead]
    split
    · obtain ⟨i', hdrop, hle⟩ := ih (i + 1)
        (if viewGetDataSegSize s.vol view > 0 then inner - viewGetDataSegSize s.vol view
        else inner) hsize hrest
      refine ⟨i', hdrop, Int.le_trans ?_ hle⟩
      split
      · omega
      · omega
    · exact ⟨i, hl, Int.le_refl _⟩

/-- A read that is not short stays inside of the length and of what is in use. -/
theorem Bytes.readBytes_full (h : Bytes D s e L U f) {p n : Nat} (hp : p < 2 ^ 31) (hn : 0 < n)
    (heq : (Evfs.readBytes s e p n).1 = n) : p + n ≤ L ∧ p + n ≤ U := by
  have hbounds := h.bounds
  have hL := h.headSize.2
  have hused := h.le_used
  have hsize := fun j v hj => h.segSize (i := j) (v := v) hj
  rw [Evfs.readBytes] at heq
  simp only [h.length, h.maxDataSegSize] at heq
  have hremain : min (int32 ((L : Int) - p)) (n : Int) = min ((L : Int) - p) n := by
    rw [Lib.int32_of_inInt32 ⟨by omega, by omega⟩]
  rw [hremain] at heq
  split at heq
  · simp only at heq
    omega
  split at heq
  · have hcpsize : min (int32 ((D : Int) - p)) (min ((L : Int) - p) n) =
        min ((D : Int) - p) (min ((L : Int) - p) n) := by
      rw [Lib.int32_of_inInt32 ⟨by omega, by omega⟩]
    rw [hcpsize] at heq
    obtain ⟨io, hio, -⟩ := readUserdata_keeps s.vol e p
        (min ((D : Int) - p) (min ((L : Int) - p) n))
    generalize viewReadUserdata s.vol e p (min ((D : Int) - p) (min ((L : Int) - p) n)) = r
      at heq hio
    split at heq
    · simp only at heq
      omega
    · rename_i hgo
      have hrest := readElement_le (D := D) (U := U) (s.heads e).elements (s := s.setVol r.2.2)
        0 0 (min ((L : Int) - p) n - r.1) h.maxDataSegSize
        (by rw [show (s.setVol r.2.2).vol = r.2.2 from rfl, hio]; exact hsize) rfl
      simp only at heq
      omega
  · obtain ⟨i', hdrop, hle⟩ := seekRead_le (s := s) (D := D) (U := U) (s.heads e).elements 0
      ((p : Int) - D) hsize rfl
    have hrest := readElement_le (D := D) (U := U) _ i' (seekRead s (s.heads e).elements
      ((p : Int) - D)).2 (min ((L : Int) - p) n) h.maxDataSegSize hsize hdrop
    omega

/-! ## The call -/

theorem deny_nil (h : s.vol.io.allocFaults = []) : s.deny [] = s := by
  rw [Fs.deny, ← h]
  rfl

/-- What a write does between the references, whichever allocation fails. -/
theorem writeBody_of_writeData (h : Space s.eased []) (he : e ∈ s.entries) (hl : s.Live e)
    (hroom : (s.heads e).Room) {data : List UInt8} {offset n r : Int} (hn : 0 < n)
    (heq : writeData (s.deny allocFaults) e data offset n = some (r, s')) :
    ∃ s₁, writeBody ((s.deny allocFaults).setHead e (((s.deny allocFaults).heads e).bump 1)) e data
      offset n = some (r, s₁) ∧ dereferenceHead s₁ e .normal = some s' := by
  have hpos := (h.vol.mem_busy (h.mem_busy he (v := e) List.mem_cons_self)).1
  have hsearch : searchHead (s.deny allocFaults) e = some e :=
    (Evfs.searchHead_eq h e).trans (if_pos he)
  have hlive : (s.deny allocFaults).Live e := hl
  have hcounts : (s.heads e).Counts := Fs.RoomFor.counts (fun _ => hroom) h he
  rw [writeData_eq, if_neg (by omega), referenceHead_found hsearch hlive
    (show ((s.deny allocFaults).heads e).Counts from hcounts)] at heq
  obtain ⟨⟨r₁, s₁⟩, hbody, hderef⟩ := Option.bind_eq_some_iff.mp heq
  obtain ⟨s₂, hderef, heq'⟩ := Option.map_eq_some_iff.mp hderef
  cases heq'
  exact ⟨s₁, hbody, hderef⟩

/-- Whatever fails, the length is set to the end of the write, where that is an `int`. -/
theorem writeData_length (h : Space s.eased []) (he : e ∈ s.entries) (hl : s.Live e)
    (hroom : (s.heads e).Room) {data : List UInt8} {offset n r : Int} (hn : 0 < n)
    (heq : writeData (s.deny allocFaults) e data offset n = some (r, s')) :
    viewGetDataSegSize s'.vol e = max (viewGetDataSegSize s.vol e)
      (int32 (int32 (offset + maxEntryNameLength) + n)) := by
  obtain ⟨hpos, hlt⟩ := h.vol.mem_busy (h.mem_busy he (v := e) List.mem_cons_self)
  obtain ⟨-, hsize, -⟩ := h.viewGetDataSegSize_head he
  have hanchored : Anchored e (viewGetDataSegSize s.vol e)
      ((s.deny allocFaults).setHead e (((s.deny allocFaults).heads e).bump 1)) := by
    refine ⟨⟨h.vol.writeFaults, h.vol.geometry, by omega, hlt,
      h.vol.busy_notMem_idle (h.mem_busy he List.mem_cons_self), rfl⟩, ?_⟩
    rw [setHead_heads_self]
    exact h.head_notMem he
  obtain ⟨s₁, hbody, hderef⟩ := writeBody_of_writeData h he hl hroom hn heq
  rw [← (hanchored.writeBody hsize hbody).vol.size]
  -- the reference is given back, and the entry is not one to be deleted
  have hstate : (s₁.heads e).state = .normal := by
    rw [(writeBody_sameStates hbody).state e, setHead_heads_self]
    exact hl.1
  rw [dereferenceHead] at hderef
  split at hderef
  · cases hderef
  · rw [if_neg] at hderef
    · cases hderef
      rfl
    · rw [setHead_heads_self]
      simp [hstate]

/-- What can be read is what an entry holds. -/
theorem Bytes.of_reveals (h : Bytes D s.eased e L U f) (hl : s.Live e)
    (hroom : (s.heads e).Room) {k : Nat} {b : List UInt8}
    (hint : k + maxEntryNameLength + b.length < 2 ^ 31) (hb : Reveals s e k b) :
    0 < b.length ∧ k + maxEntryNameLength + b.length ≤ L ∧
      k + maxEntryNameLength + b.length ≤ U ∧
      b = (List.range b.length).map fun j => f (k + maxEntryNameLength + j) := by
  obtain ⟨t, hread⟩ := hb
  rw [deny_nil (show s.vol.io.allocFaults = [] from h.space.vol.allocFaults)] at hread
  have hpos : 0 < b.length := by
    by_contra hzero
    rw [Evfs.readData, if_pos (by omega)] at hread
    have heq := congrArg Prod.fst (Option.some.inj hread)
    have hinval : eInval < 0 := by decide
    simp only at heq
    omega
  obtain ⟨q, hq⟩ : ∃ q, Evfs.readBytes (s.setHead e ((s.heads e).bump 1)) e
    (int32 ((maxEntryNameLength : Int) + k)) b.length = q := ⟨_, rfl⟩
  obtain ⟨hdata, -⟩ := readData_referenced h.space h.mem hl hroom (Int.natCast_nonneg k)
    (by omega) hq
  have hfst : q.1 = b.length := congrArg Prod.fst (Option.some.inj (hdata.symm.trans hread))
  have hcpoff : int32 ((maxEntryNameLength : Int) + k) =
      ((k + maxEntryNameLength : Nat) : Int) := by
    rw [Lib.int32_of_inInt32 ⟨by omega, by omega⟩]
    omega
  have hfull : (Evfs.readBytes (s.setHead e ((s.heads e).bump 1)).eased e
      ((k + maxEntryNameLength : Nat) : Int) b.length).1 = b.length := by
    rw [readBytes_eased, ← hcpoff, hq, hfst]
  obtain ⟨hL, hU⟩ := (h.reference hl hroom).2.readBytes_full (by omega) hpos hfull
  obtain ⟨t', hread', -⟩ := h.front.readData hl hroom (by omega) (show k < 2 ^ 31 by omega) hpos
    fun _ => by omega
  rw [Nat.min_eq_left (by omega), hread] at hread'
  exact ⟨hpos, hL, hU, (congrArg (fun x => x.2.1) (Option.some.inj hread'))⟩

theorem Front.reveals (h : Front D s.eased e L U f) (hl : s.Live e) (hroom : (s.heads e).Room)
    {k n : Nat} (hn : 0 < n) (hL : k + maxEntryNameLength + n ≤ L)
    (hU : k + maxEntryNameLength + n ≤ U) :
    Reveals s e k ((List.range n).map fun j => f (k + maxEntryNameLength + j)) := by
  have hlt := h.headSize.2
  obtain ⟨t, hread, -⟩ := h.readData hl hroom (by omega) (show k < 2 ^ 31 by omega) hn
    fun _ => by omega
  rw [Nat.min_eq_left (by omega)] at hread
  refine ⟨t, ?_⟩
  rw [deny_nil (show s.vol.io.allocFaults = [] from h.space.vol.allocFaults), List.length_map,
    List.length_range]
  exact hread

/-! ## Offsets that are no `int` with the key -/

theorem writeElement_nonneg (n : Nat) : ∀ {s s' : Fs} {i : Nat} {data : List UInt8}
    {off remain r : Int}, writeElement n s e i data off remain = some (r, s') → 0 ≤ r := by
  induction n with
  | zero =>
    intro s s' i data off remain r heq
    cases heq
    exact Int.le_refl 0
  | succ n ih =>
    intro s s' i data off remain r heq
    rw [writeElement] at heq
    split at heq
    · cases heq
      exact Int.le_refl 0
    simp only at heq
    split at heq
    · split at heq
      · cases heq
      generalize (elementAt s e i).2.2 = s₁ at heq
      generalize (s₁.heads e).elements.getD (elementAt s e i).2.1 0 = view at heq
      have hfst := writeUserdata_fst (elementShare s₁ view off remain).2 view
        (data.take (elementShare s₁ view off remain).1.toNat) off
      split at heq
      · cases heq
        omega
      · obtain ⟨⟨r', s''⟩, hrec, heq'⟩ := Option.map_eq_some_iff.mp heq
        cases heq'
        have := ih hrec
        omega
    · cases heq
      exact Int.le_refl 0

theorem writeFromHead_nonneg {data : List UInt8} {cpoff n r : Int} (hn : 0 < n)
    (heq : writeFromHead s e data cpoff n = some (r, s')) : 0 ≤ r := by
  rw [writeFromHead] at heq
  generalize min (int32 (s.maxDataSegSize - cpoff)) n = cpsize at heq
  have hfst := writeUserdata_fst s.vol e (data.take cpsize.toNat) cpoff
  rw [List.length_take] at hfst
  simp only at heq
  split at heq
  · cases heq
  split at heq
  · cases heq
    omega
  split at heq
  · cases heq
  · obtain ⟨⟨r', s''⟩, hrec, heq'⟩ := Option.map_eq_some_iff.mp heq
    cases heq'
    have := writeElement_nonneg _ hrec
    omega

/-- Where the place overflows, a write that has a result reports no error. -/
theorem writeData_nonneg (h : Space s.eased []) (he : e ∈ s.entries) (hl : s.Live e)
    (hroom : (s.heads e).Room) {data : List UInt8} {offset n r : Int} (hn : 0 < n)
    (hneg : int32 (offset + maxEntryNameLength) < 0)
    (heq : writeData (s.deny allocFaults) e data offset n = some (r, s')) : 0 ≤ r := by
  obtain ⟨s₁, hbody, -⟩ := writeBody_of_writeData h he hl hroom hn heq
  have hmax : ∀ (t : Fs) (size : Int),
      (stretchHead t e size).maxDataSegSize = t.maxDataSegSize := by
    intro t size
    rw [stretchHead]
    split
    · rfl
    · rfl
  have hD : 20 ≤ ((s.deny allocFaults).setHead e
    (((s.deny allocFaults).heads e).bump 1)).maxDataSegSize := h.maxDataSegSize_bounds.1
  rw [writeBody] at hbody
  simp only [hmax] at hbody
  rw [if_pos (by omega)] at hbody
  exact writeFromHead_nonneg hn hbody

/-! ## The theorem -/

/-- A write that does not write everything, or whose end is no `int`, damages an entry where it
ends behind the length, or where its place is no `int`. -/
theorem harmless_of_undamaged (h : Space s.eased []) (he : e ∈ s.entries) (hl : s.Live e)
    (hroom : (s.heads e).Room) {data : List UInt8} (hne : data ≠ []) (hint : data.length < 2 ^ 31)
    {offset : Nat}
    (hoff : offset < 2 ^ 31) {r : Int}
    (heq : writeData (s.deny allocFaults) e data offset data.length = some (r, s'))
    (hshort : offset + maxEntryNameLength + data.length < 2 ^ 31 → r ≠ data.length)
    (hu : Undamaged s s' e offset r) :
    (offset + maxEntryNameLength + data.length : Int) ≤ viewGetDataSegSize s.vol e ∨
      offset + maxEntryNameLength < 2 ^ 31 ∧
        2 ^ 31 ≤ offset + maxEntryNameLength + data.length := by
  have hpos := List.length_pos_iff.mpr hne
  have hkey : maxEntryNameLength = 32 := rfl
  obtain ⟨-, hnonneg, hlt⟩ := h.viewGetDataSegSize_head he
  have hlt' : viewGetDataSegSize s.vol e < 2 ^ 31 := hlt
  have hlen := writeData_length h he hl hroom (by omega) heq
  have hlen' := hu.length
  by_cases hp : offset + maxEntryNameLength < 2 ^ 31
  · rw [Lib.int32_of_inInt32 (x := (offset : Int) + maxEntryNameLength)
      ⟨by omega, by omega⟩] at hlen
    by_cases hend : offset + maxEntryNameLength + data.length < 2 ^ 31
    · have hr := hshort hend
      rw [Lib.int32_of_inInt32 ⟨by omega, by omega⟩, hlen'] at hlen
      split at hlen
      · omega
      · omega
    · exact .inr ⟨hp, by omega⟩
  · have hcpoff := Lib.int32_of_ge (x := (offset : Int) + maxEntryNameLength) (by omega) (by omega)
    have hr := writeData_nonneg h he hl hroom (by omega) (by omega) heq
    rw [hcpoff, Lib.int32_of_inInt32 ⟨by omega, by omega⟩, hlen', if_neg (by omega)] at hlen
    omega

/-- The clusters of a file are in one place each. -/
theorem Space.owned_once (h : Space s []) :
    (s.vol.idle ++ s.entries.flatMap s.chain).Perm (viewIds s.vol.clusterCount) := by
  have howned := h.owned
  rw [List.nil_append] at howned
  exact (howned.symm.append_left _).trans h.vol.perm

/-- A harmless write has a result and damages nothing. -/
theorem Bytes.undamaged (h : Bytes D s.eased e L U f) (hl : s.Live e) (hroom : (s.heads e).Room)
    (hle : s.vol.fsize ≤ 2 ^ 31) (hdefined : s.Defined) {data : List UInt8} (hne : data ≠ [])
    (hint : data.length < 2 ^ 31) {offset : Nat}
    (hsafe : Harmless D L U (offset + maxEntryNameLength) data.length allocFaults) :
    ∃ r s', Evfs.writeData (s.deny allocFaults) e data offset data.length = some (r, s') ∧
      Undamaged s s' e offset r := by
  have hlen := List.length_pos_iff.mpr hne
  obtain ⟨hpos, -⟩ := h.space.vol.mem_busy (h.space.mem_busy h.mem (v := e) List.mem_cons_self)
  have hrc : 0 ≤ (s.heads e).refcnt := (h.space.entry e h.mem).refcnt
  have hio : 0 ≤ (s.heads e).ioRefcnt := (h.space.entry e h.mem).ioRefcnt
  have hhead : (s.setHead e ((s.heads e).bump 1)).heads e = (s.heads e).bump 1 :=
    setHead_heads_self ..
  obtain ⟨-, hb₀⟩ := h.reference hl hroom
  have href : referenceHead (s.deny allocFaults) e .normal =
      (.ok e, (s.setHead e ((s.heads e).bump 1)).deny allocFaults) :=
    referenceHead_found (s := s.deny allocFaults)
      ((Evfs.searchHead_eq h.space e).trans (if_pos h.mem)) hl
      (show (s.heads e).Counts from Fs.RoomFor.counts (fun _ => hroom) h.space h.mem)
  obtain ⟨w, s₁, hw, hwL, vol, rest, f', rfl, hfault, hfsize, hfront, hf⟩ :=
    writeBody_inside hb₀.front (show s.vol.fsize ≤ 2 ^ 31 from hle) hne hint hsafe
  obtain ⟨t, ht⟩ : ∃ t, (s.setHead e ((s.heads e).bump 1)).setVol vol = t := ⟨_, rfl⟩
  have hhead' : t.heads e = (s.heads e).bump 1 := by
    rw [← ht]
    exact hhead
  rw [ht] at hfront hw
  have h₁ : 0 < (t.heads e).refcnt := by
    rw [hhead']
    exact Int.lt_add_one_of_le hrc
  have h₂ : 0 < (t.heads e).ioRefcnt := by
    rw [hhead']
    exact Int.lt_add_one_of_le hio
  have hlive : t.Live e := by
    rw [Fs.Live, hhead']
    exact hl
  obtain ⟨hderef, -⟩ := dereferenceHead_live (s := t.deny rest) hlive h₁ h₂
  obtain ⟨-, hlive'⟩ := dereferenceHead_live hlive h₁ h₂
  have hroom' : ((t.setHead e ((t.heads e).drop 1)).heads e).Room := by
    rw [setHead_heads_self, hhead', Head.drop_bump]
    exact hroom
  refine ⟨w, (t.setHead e ((t.heads e).drop 1)).deny rest, ?_, ?_⟩
  · rw [writeData_eq, if_neg (by omega), href]
    simp only [hw, Option.bind_some]
    rw [show dereferenceHead (t.deny rest) e .normal = _ from hderef]
    rfl
  -- what it has done
  have hfront' := hfront.drop h₁ h₂
  have helems : ((t.setHead e ((t.heads e).drop 1)).heads e).elements = (s.heads e).elements := by
    rw [setHead_heads_self, hhead', Head.drop_bump]
  refine ⟨?_, fun k b hkb hout hread => ?_, ?_, hfront'.space.owned_once, ?_⟩
  · refine ⟨?_, ?_⟩
    · show t.vol.io.fault = false
      rw [← ht]
      exact hfault.trans hdefined.1
    · show t.fault = false
      rw [← ht]
      exact hdefined.2
  · obtain ⟨hb, hkL, hkU, hbytes⟩ := h.of_reveals hl hroom hkb hread
    have hagain := hfront'.reveals hlive' hroom' hb hkL hkU
    rw [hbytes]
    refine (congrArg (Reveals _ e k) (List.map_congr_left fun j hj => ?_)).mp hagain
    have hj' := List.mem_range.mp hj
    exact hf _ (by omega)
  · exact ⟨[], (List.append_nil _).trans helems.symm⟩
  · have hL : viewGetDataSegSize s.vol e = L := h.length
    rw [if_neg (by omega), hL, max_eq_left (by omega)]
    exact hfront'.length

end Evfs

end LibNax
