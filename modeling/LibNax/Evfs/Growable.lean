import LibNax.Evfs.Access
import LibNax.Evfs.Limits

/-!
# An entry as a growable array

What an entry is for: an array of bytes that gets longer where it is written behind its end, with
zeros in between.

* `Growable` — the array.
* `Behaves` — an entry that is one, in every state that writes lead to.
* `Regular`, `entry_behaves` — the writes for which it is: `__evfs_entries_write_element` takes the
  number of bytes that an element has in use for the number of bytes that it can still be given, so
  that a write may not go on behind an element that is used in part, and may not start inside of an
  element and end behind it.
* `entry_not_behaves` — forty bytes and then ten more.

A write must find the clusters that it takes (`Fs.clustersToWrite`), since the file reads memory that
was freed when it grows.
-/

set_option autoImplicit false

namespace LibNax

namespace Evfs

open Lib (Run patched)

/-! ## The array -/

/-- A growable array of bytes. -/
structure Growable where
  length : Nat
  get : Nat → UInt8

namespace Growable

def empty : Growable := ⟨0, fun _ => 0⟩

/-- The array after a write. -/
def write (a : Growable) (offset : Nat) (data : List UInt8) : Growable :=
  ⟨max a.length (offset + data.length), patched a.get offset data⟩

/-- At most `n` bytes from an offset on. -/
def read (a : Growable) (offset n : Nat) : List UInt8 :=
  (List.range (min n (a.length - offset))).map fun j => a.get (offset + j)

@[simp] theorem length_read (a : Growable) (offset n : Nat) :
    (a.read offset n).length = min n (a.length - offset) := by
  rw [read, List.length_map, List.length_range]

end Growable

/-! ## The entry -/

/-- Every read of the entry `e` is one of the array, and defined. -/
def ReadsAs (e : Int) (s : Fs) (a : Growable) : Prop :=
  ∀ off n : Nat, off < 2 ^ 31 → 0 < n →
    ∃ s', readData s e off n = some (((a.read off n).length : Int), a.read off n, s') ∧ s'.Defined

/-- The entry `e` is the array in every state that the writes lead to, and each of them is done in
full and is defined. -/
def Behaves (e : Int) : Fs → Growable → List (Nat × List UInt8) → Prop
  | s, a, [] => s.Defined ∧ ReadsAs e s a
  | s, a, (offset, data) :: writes => s.Defined ∧ ReadsAs e s a ∧
    ∃ s', writeData s e data offset data.length = some ((data.length : Int), s') ∧
      Behaves e s' (a.write offset data) writes

/-- The arguments of a write: there is something to write, and its end is an `int`. -/
def LegalWrite (w : Nat × List UInt8) : Prop :=
  w.2 ≠ [] ∧ w.1 + maxEntryNameLength + w.2.length < 2 ^ 31

instance (w : Nat × List UInt8) : Decidable (LegalWrite w) := inferInstanceAs (Decidable (_ ∧ _))

/-- Each write fits what is in use when it is made: of an entry of `len` bytes, the first cluster
and all bytes up to its end. -/
def Regular (D : Nat) : Nat → List (Nat × List UInt8) → Prop
  | _, [] => True
  | len, (offset, data) :: writes =>
    Fitting D (max (len + maxEntryNameLength) D) (offset + maxEntryNameLength) data.length ∧
      Regular D (max len (offset + data.length)) writes

instance (D : Nat) : ∀ (len : Nat) (writes : List (Nat × List UInt8)),
    Decidable (Regular D len writes)
  | _, [] => instDecidableTrue
  | len, (offset, data) :: writes =>
    have := instDecidableRegular D (max len (offset + data.length)) writes
    inferInstanceAs (Decidable (_ ∧ _))

/-- With `n` idle clusters the entry can get as long as the write asks for. -/
def Reaches (D n : Nat) (w : Nat × List UInt8) : Prop :=
  w.1 + maxEntryNameLength + w.2.length ≤ D * (n + 1)

instance (D n : Nat) (w : Nat × List UInt8) : Decidable (Reaches D n w) :=
  inferInstanceAs (Decidable (_ ≤ _))

/-! ## One write -/

variable {s s₀ s₁ : Fs} {e v : Int} {D M : Nat}

/-- The entry `e` holds the array behind its key, and no more of it is in use than its first cluster
and the bytes up to its end.  It has or can get `M` elements. -/
structure Holding (D M : Nat) (e : Int) (s : Fs) (a : Growable) : Prop where
  held : Held M e s
  bytes : ∃ f, Bytes D s.eased e (a.length + maxEntryNameLength)
    (max (a.length + maxEntryNameLength) D) f ∧ ∀ k, f (k + maxEntryNameLength) = a.get k

theorem Holding.readsAs {a : Growable} (h : Holding D M e s a) : ReadsAs e s a := by
  intro off n hoff hn
  obtain ⟨f, hb, hf⟩ := h.bytes
  obtain ⟨s', hread, -, -, hdefined⟩ := hb.readData h.held.live h.held.room (Nat.le_add_left _ _)
    (Nat.le_max_left _ _) hoff hn
  have hlen : a.length + maxEntryNameLength - (off + maxEntryNameLength) = a.length - off := by
    omega
  rw [hlen] at hread
  refine ⟨s', hread.trans ?_, hdefined.mpr h.held.steady.defined⟩
  rw [Growable.length_read, Growable.read]
  congr 3
  refine List.map_congr_left fun j _ => ?_
  rw [← hf (off + j), Nat.add_right_comm]

theorem patched_add (f : Nat → UInt8) (p n : Nat) (d : List UInt8) (k : Nat) :
    patched f (p + n) d (k + n) = patched (fun k => f (k + n)) p d k := by
  rw [patched, patched]
  by_cases h : p ≤ k
  · rw [if_pos h, if_pos (by omega), Nat.add_sub_add_right]
  · rw [if_neg h, if_neg (by omega)]

/-- **One write** that fits is a write of the array. -/
theorem Holding.write {a : Growable} (h : Holding D M e s a) {offset : Nat} {data : List UInt8}
    (hlegal : LegalWrite (offset, data)) (hreach : Reaches D M (offset, data))
    (hfit : Fitting D (max (a.length + maxEntryNameLength) D)
      (offset + maxEntryNameLength) data.length) :
    ∃ s', writeData s e data offset data.length = some ((data.length : Int), s') ∧
      Holding D M e s' (a.write offset data) := by
  obtain ⟨f, hb, hf⟩ := h.bytes
  obtain ⟨s', hw, hheld, hb'⟩ := hb.writeData h.held hlegal.1 hlegal.2 hreach hfit
  have hL : max (a.length + maxEntryNameLength) (offset + maxEntryNameLength + data.length) =
      max a.length (offset + data.length) + maxEntryNameLength := by omega
  have hU : max (max (a.length + maxEntryNameLength) D)
      (offset + maxEntryNameLength + data.length) =
        max (max a.length (offset + data.length) + maxEntryNameLength) D := by omega
  rw [hL, hU] at hb'
  refine ⟨s', hw, hheld, _, hb', fun k => ?_⟩
  rw [patched_add, funext hf]
  rfl

/-! ## All of them -/

/-- **A run of writes** that fit, by induction on the writes. -/
theorem Holding.behaves (writes : List (Nat × List UInt8)) : ∀ {s : Fs} {a : Growable},
    Holding D M e s a → (∀ w ∈ writes, LegalWrite w ∧ Reaches D M w) → Regular D a.length writes →
      Behaves e s a writes := by
  induction writes with
  | nil => exact fun h _ _ => ⟨h.held.steady.defined, h.readsAs⟩
  | cons w writes ih =>
    intro s a h hlegal hreg
    obtain ⟨hfit, hrest⟩ := hreg
    obtain ⟨hw, hreach⟩ := hlegal w List.mem_cons_self
    obtain ⟨s', hwrite, h'⟩ := h.write hw hreach hfit
    exact ⟨h.held.steady.defined, h.readsAs, s', hwrite,
      ih h' (fun w' hw' => hlegal w' (List.mem_cons_of_mem _ hw')) hrest⟩

/-- A new entry is empty, and can get every idle cluster. -/
theorem Housed.holding {key : Option (List UInt8)} (h : Housed (D + sizeofCluster) s)
    (hD : maxEntryNameLength ≤ D) (hdemand : s.clustersToCreate key ≤ s.vol.idle.length)
    (hnew : Evfs.createOne s key = some (0, v, s₁)) :
    Holding D s₁.vol.idle.length v s₁ .empty := by
  have hm := h.made_of_createOne hnew
  have hfsize := createOne_fsize (s := s) h.space.vol hdemand hnew
  obtain ⟨f, hb, hzero⟩ := hm.bytes h hD hfsize
  have hhead : (s₁.heads v).eased = _ := hm.created.head
  refine ⟨⟨hm.live, ?_, (h.made hm hfsize).steady, ?_⟩, f, ?_, fun k => ?_⟩
  · have hrefcnt := congrArg Head.refcnt hhead
    have hio := congrArg Head.ioRefcnt hhead
    rw [Head.Room, show (s₁.heads v).refcnt = 1 from hrefcnt,
      show (s₁.heads v).ioRefcnt = 0 from hio]
    decide
  · rw [show (s₁.heads v).elements = [] from congrArg Head.elements hhead]
    exact Nat.zero_add _
  · have hmax : max (Growable.empty.length + maxEntryNameLength) D = D := by
      rw [show Growable.empty.length = 0 from rfl]
      omega
    rw [hmax]
    exact hb
  · exact hzero _ (Nat.le_add_left _ _)

/-- **An entry is a growable array** for every sequence of writes that all fit and reach no further
than the idle clusters, in a file system that any calls have led to. -/
theorem entry_behaves {garbage : Garbage} {clusterSize clusterCount status : Int}
    {cacheBlockNum : Nat} {key : Option (List UInt8)} {calls : List Call}
    {writes : List (Nat × List UInt8)} (hsize : 32 < clusterSize - sizeofCluster)
    (hfit : clusterSize * clusterCount < 2 ^ 31)
    (hcreate : evfsCreate garbage Fs.init clusterSize clusterCount cacheBlockNum [] [] [] =
      some (status, s₀)) (hstatus : nspSuccess status = true) (hrun : Run Makes s₀ calls s)
    (hdemand : s.clustersToCreate key ≤ s.vol.idle.length)
    (hnew : createOne s key = some (0, v, s₁)) (hlegal : ∀ w ∈ writes, LegalWrite w)
    (hreach : ∀ w ∈ writes,
      Reaches (clusterSize - sizeofCluster).toNat s₁.vol.idle.length w)
    (hreg : Regular (clusterSize - sizeofCluster).toNat 0 writes) :
    Behaves v s₁ .empty writes := by
  have h := housed_of_run hfit hcreate hstatus hrun hnew
  have hkey : maxEntryNameLength = 32 := rfl
  have hD : clusterSize.toNat = (clusterSize - sizeofCluster).toNat + sizeofCluster := by omega
  generalize hd : (clusterSize - sizeofCluster).toNat = D at hD hreach hreg
  rw [hD] at h
  exact (h.holding (by omega) hdemand hnew).behaves writes
    (fun w hw => ⟨hlegal w hw, hreach w hw⟩) hreg

/-- Ten bytes, twenty more that reach into a second cluster, and four over the first ones. -/
theorem entry_behaves_three : ∃ s₁, Behaves 1 s₁ .empty
    [(0, List.replicate 10 7), (10, List.replicate 20 8), (5, List.replicate 4 9)] := by
  have hrun : ((evfsCreate .none Fs.init 64 3 1 [] [] []).bind fun r =>
      (createOne r.2 none).map fun q => (r.1, q.1, q.2.1,
        decide (r.2.clustersToCreate none ≤ r.2.vol.idle.length), q.2.2.vol.idle.length)) =
      some (0, 0, 1, true, 1) := by
    decide +kernel
  obtain ⟨⟨status, s₀⟩, hcreate, hrun⟩ := Option.bind_eq_some_iff.mp hrun
  obtain ⟨⟨status', v, s₁⟩, hnew, heq⟩ := Option.map_eq_some_iff.mp hrun
  simp only [Prod.mk.injEq, decide_eq_true_eq] at heq
  obtain ⟨rfl, rfl, rfl, hdemand, hidle⟩ := heq
  exact ⟨s₁, entry_behaves (by decide) (by decide) hcreate rfl (.nil s₀) hdemand hnew (by decide)
    (by rw [hidle]; decide) (by decide)⟩

/-- Forty bytes take twenty of the second cluster into use.  Ten more bytes at the end are written,
and cannot be read. -/
theorem entry_not_behaves : ∃ s₀ s₁,
    evfsCreate .none Fs.init 64 3 1 [] [] [] = some (0, s₀) ∧
    createOne s₀ none = some (0, 1, s₁) ∧
    (∀ w ∈ [(0, List.replicate 40 (7 : UInt8)), (40, List.replicate 10 8)], LegalWrite w) ∧
    (∀ w ∈ [(0, List.replicate 40 (7 : UInt8)), (40, List.replicate 10 8)],
      Reaches (64 - sizeofCluster) s₁.vol.idle.length w) ∧
    ¬Behaves 1 s₁ .empty [(0, List.replicate 40 7), (40, List.replicate 10 8)] := by
  have hrun : ((evfsCreate .none Fs.init 64 3 1 [] [] []).bind fun r =>
      (createOne r.2 none).bind fun q => (writeData q.2.2 1 (List.replicate 40 7) 0 40).bind
        fun w => (writeData w.2 1 (List.replicate 10 8) 40 10).bind fun w' =>
          (readData w'.2 1 0 50).map fun g => (r.1, q.1, q.2.1, q.2.2.vol.idle.length, g.1)) =
      some (0, 0, 1, 1, 40) := by
    decide +kernel
  obtain ⟨⟨status, s₀⟩, hcreate, hrun⟩ := Option.bind_eq_some_iff.mp hrun
  obtain ⟨⟨status', v, s₁⟩, hnew, hrun⟩ := Option.bind_eq_some_iff.mp hrun
  obtain ⟨⟨r, s₂⟩, hw, hrun⟩ := Option.bind_eq_some_iff.mp hrun
  obtain ⟨⟨r', s₃⟩, hw', hrun⟩ := Option.bind_eq_some_iff.mp hrun
  obtain ⟨⟨k, bytes, s₄⟩, hread, heq⟩ := Option.map_eq_some_iff.mp hrun
  simp only [Prod.mk.injEq] at heq
  obtain ⟨rfl, rfl, rfl, hidle, rfl⟩ := heq
  refine ⟨s₀, s₁, hcreate, hnew, by decide, by rw [hidle]; decide, ?_⟩
  rintro ⟨-, -, s₂', h₁, -, -, s₃', h₂, -, hreads⟩
  rw [show writeData s₁ 1 (List.replicate 40 7) ((0 : Nat) : Int)
    ((List.replicate 40 (7 : UInt8)).length : Nat) = some (r, s₂) from hw] at h₁
  cases h₁
  rw [show writeData s₂ 1 (List.replicate 10 8) ((40 : Nat) : Int)
    ((List.replicate 10 (8 : UInt8)).length : Nat) = some (r', s₃) from hw'] at h₂
  cases h₂
  obtain ⟨s₅, hread', -⟩ := hreads 0 50 (by decide) (by decide)
  rw [show readData s₃ 1 ((0 : Nat) : Int) ((50 : Nat) : Int) = some (40, bytes, s₄) from hread,
    Growable.length_read] at hread'
  have hk : (40 : Int) = 50 := congrArg Prod.fst (Option.some.inj hread')
  exact absurd hk (by decide)

end Evfs

end LibNax
