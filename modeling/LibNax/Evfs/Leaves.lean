import LibNax.Evfs.Fresh

/-!
# The keys on the disk

The key of an entry is the first thing in the data of its head.

* `keyOf` — the key at the start of the data of a cluster.
* `Sim.writeHead` — writing a header leaves all keys.
* `loadKey_read` — the key that a head is given is the one on the disk.
-/

set_option autoImplicit false

namespace LibNax

namespace Evfs

open Lib (slice overwrite)

/-- The key at the start of the data of a cluster. -/
def keyOf (clusterSize : Nat) (u : List (List UInt8)) (v : Int) : List UInt8 :=
  (udata clusterSize u v).take maxEntryNameLength

/-- The leaf of a head that is found on the disk. -/
def leafOf (clusterSize : Nat) (u : List (List UInt8)) (e : Int) : NamedLeaf :=
  ⟨keyOf clusterSize u e, e⟩

section Read

variable {vol : Vol} {u : List (List UInt8)} {v : Int}

/-- Writing one header leaves the other headers and all data. -/
theorem Sim.writeHead {io : Io} (h : Sim io.cache [] u) (ha : io.allocFaults = [])
    (hsize : sizeofCluster ≤ io.cache.hard.clusterSize) (hv : 1 ≤ v) (hv' : v < u.length)
    (c : Cluster) : ∃ u', Sim (cacheWriteHead io v c).2.cache [] u' ∧ u'.length = u.length ∧
      (∀ w, 1 ≤ w → w ≠ v → hdr u' w = hdr u w) ∧ (c.Wf → hdr u' v = c) ∧
      ∀ clusterSize w, 1 ≤ w → udata clusterSize u' w = udata clusterSize u w := by
  have hlt : v.toNat < u.length := by omega
  have hfit : 0 + c.bytes.length ≤ io.cache.hard.clusterSize := by
    rw [c.length_bytes]
    omega
  refine ⟨_, (h.cacheWrite ha hv hv' 0 hfit).2, List.length_set, fun w hw hne =>
    hdr_set_ne hv hw hne _, fun hc => ?_, fun clusterSize w hw => ?_⟩
  · rw [hdr_set_self hlt, ofBytes_overwrite hc]
  · by_cases hwv : w = v
    · rw [hwv, udata_set_self hlt, udata_eq hlt, overwrite, List.take_zero, List.nil_append,
        Nat.zero_add, c.length_bytes, List.drop_left' c.length_bytes]
    · exact udata_set_ne hv hw hwv _

/-- The key of a head is read. -/
theorem loadKey_read (hs : Sim vol.io.cache [] u) (ha : vol.io.allocFaults = [])
    (htotal : 0 < vol.totalClusterCount) (hv : 1 ≤ v) (hv' : v < u.length)
    (hused : (vol.cluster v).dataSegSize ≠ 0)
    (hsize : sizeofCluster + maxEntryNameLength ≤ vol.io.cache.hard.clusterSize) :
    ∃ io, Sim io.cache [] u ∧ vol.io.Keeps io ∧
      loadKey vol v none = (keyOf vol.io.cache.hard.clusterSize u v, { vol with io }) := by
  rw [sizeofCluster, maxEntryNameLength] at hsize
  obtain ⟨io, hread, hsim⟩ := hs.cacheReadUserdata ha hv hv' (Int.le_refl 0)
    (show (0 : Int) ≤ (maxEntryNameLength : Nat) by omega)
    (by rw [sizeofCluster, maxEntryNameLength]; omega)
  have hk := cacheReadUserdata_keeps vol.io v 0 maxEntryNameLength
  rw [hread] at hk
  have hview : viewReadUserdata vol v 0 maxEntryNameLength = ((maxEntryNameLength : Int),
      slice (udata vol.io.cache.hard.clusterSize u v) 0 maxEntryNameLength, { vol with io }) := by
    rw [viewReadUserdata, if_neg, hread]
    · rfl
    · rintro (hc | hc | hc | hc)
      · exact absurd hc (by decide)
      · exact absurd hc (by decide)
      · omega
      · exact hused hc.1
  have hlen : (slice (udata vol.io.cache.hard.clusterSize u v) 0 maxEntryNameLength).length =
      maxEntryNameLength := by
    have hlt : v.toNat < u.length := by omega
    refine Lib.length_slice ?_
    rw [udata_eq hlt, List.length_drop, List.getD_eq_getElem?_getD, List.getElem?_eq_getElem hlt,
      Option.getD_some, hs.sizes _ (List.getElem_mem hlt), sizeofCluster, maxEntryNameLength]
    omega
  refine ⟨io, hsim, hk, ?_⟩
  rw [loadKey, hview]
  simp only
  rw [overwrite, List.take_zero, List.nil_append, hlen, Nat.zero_add, List.drop_eq_nil_of_le
    (by rw [List.length_replicate]), List.append_nil]
  rfl

end Read

end Evfs

end LibNax
