import LibNax.Evfs.Growable

/-!
# Recycled clusters

A cluster that an entry gives up keeps the data that was in it, and is cleared when it is taken
again.  So a new entry does not show what an entry before it has stored, also not in front of a
write that starts behind its end: all of the clusters up to there are taken, marked as used in full,
and not written.

But `evfs_view_acquire_idle` does not look at whether the cluster was cleared: where the request for
it cannot be allocated, the cluster is taken with what is in it.

* `recycled_clear` — after any calls, a new entry that is written once reads as zeros up to the
  write, and as the data from there on, where no allocation fails and no call makes the file larger.
* `recycled_not_clear` — a cluster that was not cleared.
-/

set_option autoImplicit false

namespace LibNax

namespace Evfs

open Lib (Run)

variable {s s₀ s₁ : Fs} {v : Int} {offset : Nat} {data : List UInt8}

/-- One write to an empty array. -/
theorem Growable.read_write_empty (hne : data ≠ []) (offset off n : Nat) :
    (Growable.empty.write offset data).read off n =
      (List.range (min n (offset + data.length - off))).map fun j =>
        if off + j < offset then 0 else data.getD (off + j - offset) 0 := by
  have hpos := List.length_pos_iff.mpr hne
  have hmax : max 0 (offset + data.length) = offset + data.length := by omega
  rw [Growable.read, Growable.write, show Growable.empty.length = 0 from rfl, hmax]
  refine List.map_congr_left fun j hj => ?_
  have hlt : j < min n (offset + data.length - off) := List.mem_range.mp hj
  show Lib.patched (fun _ => 0) offset data (off + j) = _
  split
  · rw [Lib.patched_of_lt (by omega)]
  · rw [Lib.patched_of_mem (by omega) (by omega) 0]

/-- **Recycled clusters do not expose old data**: whatever calls were made before, of the bytes of a
new entry that is written once those in front of the write are zero and the others are the ones that
were written, where no allocation fails and idle clusters are there for all of it. -/
theorem recycled_clear {garbage : Garbage} {clusterSize clusterCount status : Int}
    {cacheBlockNum : Nat} {key : Option (List UInt8)} {calls : List Call}
    (hsize : 64 ≤ clusterSize) (hfit : clusterSize * clusterCount < 2 ^ 31)
    (hcreate : evfsCreate garbage Fs.init clusterSize clusterCount cacheBlockNum [] [] [] =
      some (status, s₀)) (hstatus : nspSuccess status = true) (hrun : Run Makes s₀ calls s)
    (hdemand : s.clustersToCreate key ≤ s.vol.idle.length)
    (hnew : createOne s key = some (0, v, s₁)) (hlegal : LegalWrite (offset, data))
    (hreach : Reaches (clusterSize - sizeofCluster).toNat s₁.vol.idle.length (offset, data)) :
    ∃ s₂, writeData s₁ v data offset data.length = some ((data.length : Int), s₂) ∧ s₂.Defined ∧
      ∀ off n : Nat, off < 2 ^ 31 → 0 < n →
        ∃ s₃, readData s₂ v off n = some (((min n (offset + data.length - off) : Nat) : Int),
          (List.range (min n (offset + data.length - off))).map fun j =>
            if off + j < offset then 0 else data.getD (off + j - offset) 0, s₃) ∧ s₃.Defined := by
  have h := housed_of_run hfit hcreate hstatus hrun hnew
  have hkey : maxEntryNameLength = 32 := rfl
  have hD : clusterSize.toNat = (clusterSize - sizeofCluster).toNat + sizeofCluster := by
    rw [sizeofCluster]
    omega
  have hle : maxEntryNameLength ≤ (clusterSize - sizeofCluster).toNat := by
    rw [sizeofCluster]
    omega
  generalize (clusterSize - sizeofCluster).toNat = D at hD hle hreach
  rw [hD] at h
  have hempty := h.holding hle hdemand hnew
  have hfitting : Fitting D (max (Growable.empty.length + maxEntryNameLength) D)
      (offset + maxEntryNameLength) data.length := by
    rw [show Growable.empty.length = 0 from rfl, Nat.zero_add, max_eq_right hle]
    refine ⟨.inr (Nat.dvd_refl D), ?_⟩
    rcases Nat.lt_or_ge (offset + maxEntryNameLength) D with hcase | hcase
    · exact .inl hcase
    · exact .inr (.inr (.inl hcase))
  obtain ⟨s₂, hwrite, hholding⟩ := hempty.write hlegal hreach hfitting
  refine ⟨s₂, hwrite, hholding.held.steady.defined, fun off n hoff hn => ?_⟩
  obtain ⟨s₃, hread, hdefined⟩ := hholding.readsAs off n hoff hn
  have hbytes := Growable.read_write_empty hlegal.1 offset off n
  refine ⟨s₃, ?_, hdefined⟩
  rw [hread, hbytes, List.length_map, List.length_range]

/-- An entry of two clusters is deleted, and a new one is written in its second cluster only. -/
theorem recycled_clear_second : ∃ s₁ s₂, writeData s₁ 3 [9] 60 1 = some (1, s₂) ∧ s₂.Defined ∧
    ∀ off n : Nat, off < 2 ^ 31 → 0 < n →
      ∃ s₃, readData s₂ 3 off n = some (((min n (61 - off) : Nat) : Int),
        (List.range (min n (61 - off))).map fun j =>
          if off + j < 60 then 0 else [(9 : UInt8)].getD (off + j - 60) 0, s₃) ∧ s₃.Defined := by
  have hrun : ((evfsCreate .none Fs.init 64 4 1 [] [] []).bind fun r =>
      (Lib.exec Call.tryMake r.2 [.createOne none, .writeData 1 (List.replicate 70 7) 0 70,
        .closeOne 1, .hardDelete 1]).bind fun s => (createOne s none).map fun q => (r.1, q.1, q.2.1,
          decide (s.clustersToCreate none ≤ s.vol.idle.length), q.2.2.vol.idle)) =
      some (0, 0, 3, true, [2, 1]) := by
    decide +kernel
  obtain ⟨⟨status, s₀⟩, hcreate, hrun⟩ := Option.bind_eq_some_iff.mp hrun
  obtain ⟨s, hexec, hrun⟩ := Option.bind_eq_some_iff.mp hrun
  obtain ⟨⟨status', v, s₁⟩, hnew, heq⟩ := Option.map_eq_some_iff.mp hrun
  simp only [Prod.mk.injEq, decide_eq_true_eq] at heq
  obtain ⟨rfl, rfl, rfl, hdemand, hidle⟩ := heq
  have hcalls := Run.of_exec makes_of_tryMake hexec
  exact ⟨s₁, recycled_clear (by decide) (by decide) hcreate rfl hcalls hdemand hnew
    (show LegalWrite (60, [(9 : UInt8)]) by decide) (by rw [hidle]; decide)⟩

/-- The same write, where its fourth allocation fails: it is the one of the request that clears the
second cluster.  The write is done in full, and the new entry shows what the old one has stored. -/
theorem recycled_not_clear : ∃ s₀ s s₁ s₂ s₃,
    evfsCreate .none Fs.init 64 4 1 [] [] [] = some (0, s₀) ∧
    Run Makes s₀ [.createOne none, .writeData 1 (List.replicate 70 7) 0 70, .closeOne 1,
      .hardDelete 1] s ∧
    createOne s none = some (0, 3, s₁) ∧
    writeData (s₁.deny [false, false, false, true]) 3 [9] 60 1 = some (1, s₂) ∧
    readData s₂ 3 20 1 = some (1, [7], s₃) ∧ s₃.Defined := by
  have hrun : ((evfsCreate .none Fs.init 64 4 1 [] [] []).bind fun r =>
      (Lib.exec Call.tryMake r.2 [.createOne none, .writeData 1 (List.replicate 70 7) 0 70,
        .closeOne 1, .hardDelete 1]).bind fun s => (createOne s none).bind fun q =>
          (writeData (q.2.2.deny [false, false, false, true]) 3 [9] 60 1).bind fun w =>
            (readData w.2 3 20 1).map fun g => (r.1, q.1, q.2.1, w.1, g.1,
              decide (g.2.1 = [7] ∧ g.2.2.Defined))) = some (0, 0, 3, 1, 1, true) := by
    decide +kernel
  obtain ⟨⟨status, s₀⟩, hcreate, hrun⟩ := Option.bind_eq_some_iff.mp hrun
  obtain ⟨s, hexec, hrun⟩ := Option.bind_eq_some_iff.mp hrun
  obtain ⟨⟨status', v, s₁⟩, hnew, hrun⟩ := Option.bind_eq_some_iff.mp hrun
  obtain ⟨⟨r, s₂⟩, hwrite, hrun⟩ := Option.bind_eq_some_iff.mp hrun
  obtain ⟨⟨k, bytes, s₃⟩, hread, heq⟩ := Option.map_eq_some_iff.mp hrun
  simp only [Prod.mk.injEq, decide_eq_true_eq] at heq
  obtain ⟨rfl, rfl, rfl, rfl, rfl, rfl, hdefined⟩ := heq
  exact ⟨s₀, s, s₁, s₂, s₃, hcreate, Run.of_exec makes_of_tryMake hexec, hnew, hwrite, hread,
    hdefined⟩

end Evfs

end LibNax
