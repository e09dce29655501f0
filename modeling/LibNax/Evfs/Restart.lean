import LibNax.Evfs.Limits

/-!
# A start that fails

`evfs_view_create` and `evfs_view_load` reserve the manager of the views by writing the number of
the clusters to `total_cluster_count`, and make the views one by one.  When a header cannot be read
or a view cannot be allocated, the views are deleted.

* `Starter` and `start` — the two functions, on all managers.
* `Failed` — something failed during the call.
* `Untouched` — the call is an error, and the manager is as it was.
* `start_untouched_iff` — exactly when the failure was the one before the manager is reserved.

Neither function writes zero to `total_cluster_count`, and the one that loads does not count the
idle views down either.  The next start finds a manager that seems to be in use and returns
`EEXIST`, which is positive and so passes for success.
-/

set_option autoImplicit false

namespace LibNax

namespace Evfs

/-- The two functions that fill the manager of the views. -/
inductive Starter where
  | create
  | load
  deriving DecidableEq

/-- One of them, on all managers. -/
def start (garbage : Garbage) (s : Fs) : Starter → Int × Fs
  | .create =>
    let r := viewCreate garbage.views s.vol
    (r.1, s.setVol r.2)
  | .load => viewLoad garbage s

/-- The outcomes of the allocations that were made between two states. -/
def Io.asked (io io' : Io) : List Bool :=
  io.allocFaults.take (io.allocFaults.length - io'.allocFaults.length)

/-- An allocation failed during the call, or the call was ended by a header that could not be
read. -/
def Failed (s : Fs) (r : Int × Fs) : Prop := r.1 < 0 ∨ true ∈ s.vol.io.asked r.2.vol.io

/-- The manager of a process that has not used the library yet. -/
structure Vol.Initial (s : Vol) : Prop where
  total : s.totalClusterCount = 0
  idle : s.idle = []
  busy : s.busy = []
  countIdle : s.countOfIdleViews = 0
  countBusy : s.countOfBusyViews = 0
  tree : s.rootOfViewTree = .nil

theorem initial_init : Fs.init.vol.Initial :=
  ⟨rfl, rfl, rfl, rfl, rfl, rfl⟩

theorem Vol.Initial.mount {s : Fs} (h : s.vol.Initial) {garbage : Garbage} {hard : Hard}
    {cacheBlockNum : Nat} {allocFaults : List Bool} :
    (s.mount garbage hard cacheBlockNum allocFaults).vol.Initial :=
  ⟨h.total, h.idle, h.busy, h.countIdle, h.countBusy, h.tree⟩

/-- A start that had to fail. -/
structure Untouched (s : Fs) (r : Int × Fs) : Prop where
  error : r.1 < 0
  initial : r.2.vol.Initial
  /-- `evfs_create` and `evfs_open` start with a new cache, and then find what they would have found
  without the call that failed. -/
  later : ∀ garbage hard cacheBlockNum allocFaults,
    r.2.mount garbage hard cacheBlockNum allocFaults = s.mount garbage hard
    cacheBlockNum allocFaults

section Start

variable {garbage : Garbage} {s : Fs}

/-- Making views does not touch `total_cluster_count`, and without a view there is no error. -/
theorem createViews_error (garbage : Int → Cluster) (n : Nat) : ∀ (i : Int) (s : Vol),
    (Vol.createViews garbage n i s).2.totalClusterCount = s.totalClusterCount ∧
      ((Vol.createViews garbage n i s).1 < 0 → 0 < n) := by
  induction n with
  | zero => exact fun i s => ⟨rfl, fun hneg => absurd hneg (Int.lt_irrefl 0)⟩
  | succ n ih =>
    intro i s
    refine ⟨?_, fun _ => Nat.succ_pos n⟩
    rw [Vol.createViews]
    split
    · exact (ih (i + 1) _).1
    · rfl

theorem loadViews_error (n : Nat) : ∀ (i : Int) (buffer : Cluster) (s : Vol),
    (loadViews n i buffer s).2.totalClusterCount = s.totalClusterCount ∧
      ((loadViews n i buffer s).1 < 0 → 0 < n) := by
  induction n with
  | zero => exact fun i buffer s => ⟨rfl, fun hneg => absurd hneg (Int.lt_irrefl 0)⟩
  | succ n ih =>
    intro i buffer s
    refine ⟨?_, fun _ => Nat.succ_pos n⟩
    rw [loadViews]
    split
    · split
      · exact (ih (i + 1) _ _).1
      · rfl
    · rfl

/-- The manager is not reserved yet. -/
theorem start_first (hs : s.vol.Initial) (k : Starter)
    (hfault : s.vol.io.allocFaults.headD false = true) :
    start garbage s k = (eNomem, s.alloc.2) := by
  have halloc : s.vol.alloc.1 = false := by
    rw [Vol.alloc, Io.alloc, hfault]
    rfl
  cases k with
  | create =>
    rw [start, viewCreate, if_neg (by rw [hs.total]; decide), if_neg (by rw [halloc]; decide)]
    rfl
  | load =>
    have halloc' : s.alloc.1 = false := halloc
    rw [start, viewLoad, if_neg (by rw [halloc']; decide)]

/-- The manager is reserved, and stays so. -/
theorem start_reserved (hs : s.vol.Initial) (k : Starter)
    (hok : s.vol.io.allocFaults.headD false = false) (hneg : (start garbage s k).1 < 0) :
    (start garbage s k).2.vol.totalClusterCount ≠ 0 := by
  have halloc : s.vol.alloc.1 = true := by
    rw [Vol.alloc, Io.alloc, hok]
    rfl
  have htotal : s.vol.alloc.2.totalClusterCount = 0 := hs.total
  cases k with
  | create =>
    rw [start, viewCreate, if_neg (by rw [hs.total]; decide), if_pos halloc] at hneg ⊢
    simp only [hs.total, ne_eq, not_true, if_false] at hneg ⊢
    generalize hcount : hardGetUsableClusterCount s.vol.alloc.2.io.cache.hard = count at hneg ⊢
    obtain ⟨htotal, hpos⟩ := createViews_error garbage.views count.toNat 1
      { s.vol.alloc.2 with totalClusterCount := count }
    generalize Vol.createViews garbage.views count.toNat 1
      { s.vol.alloc.2 with totalClusterCount := count } = r at hneg htotal hpos ⊢
    split at hneg
    · rename_i hsuccess
      rw [nspSuccess, decide_eq_true_eq] at hsuccess
      exact absurd hneg (Int.not_lt.mpr hsuccess)
    · rename_i hfail
      have hlt := hpos hneg
      rw [if_neg hfail]
      show r.2.totalClusterCount ≠ 0
      rw [htotal]
      show count ≠ 0
      omega
  | load =>
    have halloc' : s.alloc.1 = true := halloc
    have htotal' : s.alloc.2.vol.totalClusterCount = 0 := hs.total
    rw [start, viewLoad, if_pos halloc'] at hneg ⊢
    simp only [htotal', ne_eq, not_true, if_false] at hneg ⊢
    generalize hcount : hardGetUsableClusterCount s.alloc.2.vol.io.cache.hard = count at hneg ⊢
    obtain ⟨htotal, hpos⟩ := loadViews_error count.toNat 1 garbage.cluster
      { s.alloc.2.vol with totalClusterCount := count }
    generalize loadViews count.toNat 1 garbage.cluster
      { s.alloc.2.vol with totalClusterCount := count } = r at hneg htotal hpos ⊢
    split at hneg
    · rename_i hsuccess
      rw [nspSuccess, decide_eq_true_eq] at hsuccess
      exact absurd hneg (Int.not_lt.mpr hsuccess)
    · rename_i hfail
      have hlt := hpos hneg
      rw [if_neg hfail]
      show r.2.totalClusterCount ≠ 0
      rw [htotal]
      show count ≠ 0
      omega

/-- **A start that fails leaves nothing behind** exactly when it fails before the manager is
reserved. -/
theorem start_untouched_iff (garbage : Garbage) (hs : s.vol.Initial) (k : Starter) :
    (Failed s (start garbage s k) → Untouched s (start garbage s k)) ↔
      (Failed s (start garbage s k) → s.vol.io.allocFaults.headD false = true) := by
  refine forall_congr' fun _ => ⟨fun h => ?_, fun hfault => ?_⟩
  · by_contra hok
    rw [Bool.not_eq_true] at hok
    exact start_reserved hs k hok h.error h.initial.total
  · have hneg : eNomem < 0 := by decide
    rw [start_first hs k hfault]
    exact ⟨hneg, ⟨hs.total, hs.idle, hs.busy, hs.countIdle, hs.countBusy, hs.tree⟩,
      fun _ _ _ _ => rfl⟩

/-- A file with one cluster behind the first. -/
def Hard.two : Hard := .ofTable [.zero]

theorem hardOpen_two : hardOpen Hard.two.file.flatten [] [] = some (.ok .two) :=
  hardOpen_ofTable (by decide)

/-- No memory for the request that asks for the geometry. -/
theorem start_untouched_two :
    hardOpen Hard.two.file.flatten [] [] = some (.ok .two) ∧
    Untouched (Fs.init.mount Garbage.none .two 0 [true])
      (start Garbage.none (Fs.init.mount Garbage.none .two 0 [true]) .load) :=
  ⟨hardOpen_two, (start_untouched_iff Garbage.none initial_init.mount .load).mpr (fun _ => rfl)
    (.inl (by decide))⟩

/-- No memory for the first view: the next start seems to succeed, without any view. -/
theorem start_not_untouched :
    let s := Fs.init.mount Garbage.none .two 0 [false, false, true]
    let r := start Garbage.none s .load
    let again := start Garbage.none (r.2.mount Garbage.none .two 0 []) .load
    hardOpen Hard.two.file.flatten [] [] = some (.ok .two) ∧
    Failed s r ∧ ¬Untouched s r ∧ nspSuccess again.1 = true ∧ again.2.vol.idle = [] :=
  ⟨hardOpen_two, .inl (by decide), fun h => absurd h.initial.total (by decide), by decide,
    by decide⟩

end Start

end Evfs

end LibNax
