import LibNax.Lib.Int32
import LibNax.Lib.Run

/-!
# Reference counts

`refs.c` counts who uses an object and calls `on_closed` when it was closed and nobody uses it any
more.  Each of the functions decides on its own whether it does.  The count is an `int`.

* `refInit`, `refRetain`, `refRelease`, `refClose` — as in the source, for an object that is there.
* `State` and `step` — an object, and what was done with it so far.
* `Kept` — what is asked in every state; `Inv` — the invariant, with the status.
* `refs_iff` — the sequences of calls that keep it.
-/

set_option autoImplicit false

namespace LibNax

namespace Refs

open Lib (int32)

/-! ## The source -/

/-- `REF_STATUS_NORMAL`. -/
def refStatusNormal : Int := 0

/-- `REF_STATUS_CLOSEWAIT`. -/
def refStatusClosewait : Int := 1

/-- `REF_STATUS_CLOSED`. -/
def refStatusClosed : Int := 2

/-- `refs_t`, and whether there is a function `on_closed`. -/
structure RefsT where
  count : Int
  status : Int
  onClosed : Bool
  deriving Repr, DecidableEq

/-- `ref_init`. -/
def refInit (onClosed : Bool) : RefsT := ⟨0, refStatusNormal, onClosed⟩

/-- `ref_retain`: the result and the object after it. -/
def refRetain (ref : RefsT) : Int × RefsT :=
  if ref.status ≠ refStatusNormal then (-1, ref)
  else
    let count := int32 (ref.count + 1)
    (count, { ref with count })

/-- `ref_release`: the result, the object after it, and whether `on_closed` is called.  The result is
read from the object after `on_closed` has returned. -/
def refRelease (ref : RefsT) : Int × RefsT × Bool :=
  if ref.status = refStatusClosed then (-1, ref, false)
  else if ref.count ≤ 0 then (-1, ref, false)
  else
    let count := ref.count - 1
    (count, { ref with count }, count = 0 && ref.status = refStatusClosewait && ref.onClosed)

/-- `ref_close`: the object after it, and whether `on_closed` is called.  The status is written after
`on_closed` has returned. -/
def refClose (ref : RefsT) : RefsT × Bool :=
  if ref.status = refStatusNormal then
    if ref.count = 0 then ({ ref with status := refStatusClosed }, ref.onClosed)
    else ({ ref with status := refStatusClosewait }, false)
  else (ref, false)

/-! ## Sequences of calls -/

/-- The object, how many calls retained and released it, whether it was closed, and how often
`on_closed` was called. -/
structure State where
  ref : RefsT
  retained : Nat
  released : Nat
  closed : Bool
  calls : Nat
  deriving Repr, DecidableEq

inductive Call where
  | retain
  | release
  | close
  deriving Repr, DecidableEq

/-- A call.  A result that is not negative says that a release was successful, and a positive one
that a retain was. -/
def step (s : State) : Call → State
  | .retain =>
    let r := refRetain s.ref
    { s with ref := r.2, retained := if 0 < r.1 then s.retained + 1 else s.retained }
  | .release =>
    let r := refRelease s.ref
    { s with
      ref := r.2.1
      released := if 0 ≤ r.1 then s.released + 1 else s.released
      calls := if r.2.2 then s.calls + 1 else s.calls }
  | .close =>
    let r := refClose s.ref
    { s with ref := r.1, closed := true, calls := if r.2 then s.calls + 1 else s.calls }

/-- After `ref_init`. -/
def start (onClosed : Bool) : State := ⟨refInit onClosed, 0, 0, false, 0⟩

/-- What is asked of an object. -/
structure Kept (s : State) : Prop where
  count : s.ref.count = s.retained - s.released
  nonneg : 0 ≤ s.ref.count
  once : s.calls ≤ 1
  /-- `on_closed` was called if the object is closed and not used, and not before. -/
  called : s.ref.onClosed = true → (s.calls = 1 ↔ s.closed = true ∧ s.ref.count = 0)
  shut : s.closed = true → refRetain s.ref = (-1, s.ref)
  unmatched : s.retained = s.released → refRelease s.ref = (-1, s.ref, false)

/-- There is room for one more in the count, where it is counted. -/
def Guarded (s : State) (call : Call) : Prop :=
  call = .retain → s.closed = false → (s.retained : Int) - s.released < 2 ^ 31 - 1

/-! ## The invariant -/

/-- How the status says what was done, and what the calls of `on_closed` are. -/
structure Inv (s : State) : Prop where
  count : s.ref.count = s.retained - s.released
  nonneg : 0 ≤ s.ref.count
  fits : s.ref.count < 2 ^ 31
  status : s.closed = false ∧ s.ref.status = refStatusNormal ∨
    s.closed = true ∧ (s.ref.status = refStatusClosewait ∨
      s.ref.status = refStatusClosed ∧ s.ref.count = 0)
  calls : s.calls = if s.ref.onClosed ∧ s.closed ∧ s.ref.count = 0 then 1 else 0

section Steps

variable {s : State}

theorem inv_start (onClosed : Bool) : Inv (start onClosed) where
  count := rfl
  nonneg := Int.le_refl 0
  fits := show (0 : Int) < 2 ^ 31 by decide
  status := .inl ⟨rfl, rfl⟩
  calls := by simp [start]

theorem Inv.status_ne (h : Inv s) (hclosed : s.closed = true) : s.ref.status ≠ refStatusNormal := by
  rcases h.status with ⟨hopen, -⟩ | ⟨-, hwait | ⟨hshut, -⟩⟩
  · rw [hopen] at hclosed
    cases hclosed
  · rw [hwait]
    decide
  · rw [hshut]
    decide

/-- No retain succeeds any more. -/
theorem Inv.refRetain_closed (h : Inv s) (hclosed : s.closed = true) :
    refRetain s.ref = (-1, s.ref) := by
  rw [refRetain, if_pos (h.status_ne hclosed)]

/-- There is nothing to release. -/
theorem refRelease_none {ref : RefsT} (h : ref.count ≤ 0) :
    refRelease ref = (-1, ref, false) := by
  rw [refRelease, if_pos h, ite_self]

/-- Nothing was called so far. -/
theorem Inv.calls_open (h : Inv s) (hopen : s.closed = false) : s.calls = 0 := by
  rw [h.calls, hopen]
  simp

theorem Inv.kept (h : Inv s) : Kept s where
  count := h.count
  nonneg := h.nonneg
  once := by
    rw [h.calls]
    split
    · exact Nat.le_refl 1
    · exact Nat.zero_le 1
  called hon := by
    rw [h.calls, hon]
    simp
  shut := h.refRetain_closed
  unmatched hsame := by
    have hzero : s.ref.count ≤ 0 := by
      rw [h.count, hsame]
      omega
    exact refRelease_none hzero

/-- A retain is counted, or the object is closed. -/
theorem Inv.retain (h : Inv s) (hroom : Guarded s .retain) : Inv (step s .retain) := by
  rw [step]
  rcases h.status with ⟨hopen, hnormal⟩ | ⟨hclosed, -⟩
  · have hless := hroom rfl hopen
    have hcount := h.count
    have hnonneg := h.nonneg
    have hint : int32 (s.ref.count + 1) = s.ref.count + 1 :=
      Lib.int32_of_inInt32 ⟨by omega, by omega⟩
    have hretain : refRetain s.ref =
        (s.ref.count + 1, { s.ref with count := s.ref.count + 1 }) := by
      rw [refRetain, if_neg (not_not.mpr hnormal), hint]
    have hcalls := h.calls_open hopen
    simp only [hretain]
    rw [if_pos (by omega)]
    refine ⟨?_, ?_, ?_, .inl ⟨hopen, hnormal⟩, ?_⟩
    · show s.ref.count + 1 = ((s.retained + 1 : Nat) : Int) - s.released
      omega
    · show 0 ≤ s.ref.count + 1
      omega
    · show s.ref.count + 1 < 2 ^ 31
      omega
    · show s.calls = _
      simp [hcalls, hopen]
  · simp only [h.refRetain_closed hclosed]
    exact ⟨h.count, h.nonneg, h.fits, h.status, h.calls⟩

/-- A release that is not counted changes nothing. -/
theorem step_release_of (hrelease : refRelease s.ref = (-1, s.ref, false)) :
    step s .release = s := by
  rw [step, hrelease]
  rfl

theorem Inv.release (h : Inv s) : Inv (step s .release) := by
  by_cases hzero : s.ref.count ≤ 0
  · rw [step_release_of (refRelease_none hzero)]
    exact h
  · have hcount := h.count
    have hfits := h.fits
    have hstatus : s.ref.status ≠ refStatusClosed := by
      rcases h.status with ⟨-, hnormal⟩ | ⟨-, hwait | ⟨-, hnone⟩⟩
      · rw [hnormal]
        decide
      · rw [hwait]
        decide
      · omega
    have hcalls : s.calls = 0 := by
      rw [h.calls, if_neg (by omega)]
    -- the status says whether the object was closed
    have hclosed : s.ref.status = refStatusClosewait ↔ s.closed = true := by
      rcases h.status with ⟨hopen, hnormal⟩ | ⟨hclosed, hwait | ⟨hshut, -⟩⟩
      · rw [hopen, hnormal]
        decide
      · simp [hwait, hclosed]
      · exact absurd hshut hstatus
    rw [step, refRelease, if_neg hstatus, if_neg hzero]
    simp only [if_pos (show (0 : Int) ≤ s.ref.count - 1 by omega)]
    refine ⟨?_, ?_, ?_, ?_, ?_⟩
    · show s.ref.count - 1 = (s.retained : Int) - (s.released + 1 : Nat)
      omega
    · show 0 ≤ s.ref.count - 1
      omega
    · show s.ref.count - 1 < 2 ^ 31
      omega
    · rcases h.status with hopen | ⟨hclosed, hwait | ⟨hshut, -⟩⟩
      · exact .inl hopen
      · exact .inr ⟨hclosed, .inl hwait⟩
      · exact absurd hshut hstatus
    · show (if _ then s.calls + 1 else s.calls) = if _ then 1 else 0
      rw [hcalls]
      congr 1
      simp only [Bool.and_eq_true, decide_eq_true_iff, hclosed, eq_iff_iff]
      tauto

theorem Inv.close (h : Inv s) : Inv (step s .close) := by
  rw [step, refClose]
  rcases h.status with ⟨hopen, hnormal⟩ | ⟨hclosed, hstatus⟩
  · have hcalls := h.calls_open hopen
    rw [if_pos hnormal]
    by_cases hzero : s.ref.count = 0
    · simp only [if_pos hzero]
      refine ⟨h.count, h.nonneg, h.fits, .inr ⟨rfl, .inr ⟨rfl, hzero⟩⟩, ?_⟩
      simp [hcalls, hzero]
    · simp only [if_neg hzero]
      refine ⟨h.count, h.nonneg, h.fits, .inr ⟨rfl, .inl rfl⟩, ?_⟩
      simp [hcalls, hzero]
  · rw [if_neg (h.status_ne hclosed)]
    refine ⟨h.count, h.nonneg, h.fits, .inr ⟨rfl, hstatus⟩, ?_⟩
    simpa [hclosed] using h.calls

/-- **A guarded call keeps the invariant.** -/
theorem Inv.step (h : Inv s) {call : Call} (hguard : Guarded s call) : Inv (step s call) := by
  cases call with
  | retain => exact h.retain hguard
  | release => exact h.release
  | close => exact h.close

/-- One more than an `int` can hold becomes negative. -/
theorem count_wraps (hnormal : s.ref.status = refStatusNormal) (hfull : s.ref.count = 2 ^ 31 - 1) :
    ¬Kept (Refs.step s .retain) := by
  intro h
  have hnonneg := h.nonneg
  have hwrap : int32 (2 ^ 31 - 1 + 1) = -2 ^ 31 := by decide
  rw [Refs.step, refRetain, if_neg (not_not.mpr hnormal), hfull, hwrap] at hnonneg
  exact absurd hnonneg (show ¬(0 : Int) ≤ -2 ^ 31 by decide)

theorem Inv.guarded (h : Inv s) {call : Call} (hkept : Kept (Refs.step s call)) :
    Guarded s call := by
  rintro rfl hopen
  have hnormal : s.ref.status = refStatusNormal := by
    rcases h.status with ⟨-, hnormal⟩ | ⟨hclosed, -⟩
    · exact hnormal
    · rw [hopen] at hclosed
      cases hclosed
  have hcount := h.count
  have hfits := h.fits
  by_contra hfull
  exact count_wraps hnormal (by omega) hkept

end Steps

/-- **The protocol of an object is kept exactly as long as the count is an `int`.** -/
theorem refs_iff (onClosed : Bool) (calls : List Call) :
    Lib.Along (fun s call => some (step s call)) Kept (start onClosed) calls ↔
      Lib.Each (fun s call => some (step s call)) Guarded (start onClosed) calls := by
  refine Lib.along_iff_each (I := Inv) (fun _ h => h.kept) ?_ ?_ calls (inv_start onClosed)
  · rintro s call _ h hguard ⟨⟩
    exact h.step hguard
  · rintro s call _ h ⟨⟩ hkept
    exact h.guarded hkept

/-- An object that was retained and not released. -/
def retainedOnly (k : Nat) : State := ⟨⟨k, refStatusNormal, true⟩, k, 0, false, 0⟩

theorem step_retainedOnly {k : Nat} (hk : k + 1 < 2 ^ 31) :
    step (retainedOnly k) .retain = retainedOnly (k + 1) := by
  have hint : int32 ((k : Int) + 1) = ((k + 1 : Nat) : Int) := by
    rw [Lib.int32_of_inInt32 ⟨by omega, by omega⟩]
    rfl
  have hnormal : (retainedOnly k).ref.status = refStatusNormal := rfl
  rw [step, refRetain, if_neg (not_not.mpr hnormal)]
  simp only [retainedOnly, hint]
  rw [if_pos (by omega)]

theorem lt_of_along_retain (n : Nat) {k : Nat} (hk : k < 2 ^ 31)
    (h : Lib.Along (fun s call => some (step s call)) Kept (retainedOnly k)
      (List.replicate n .retain)) : k + n < 2 ^ 31 := by
  induction n generalizing k with
  | zero => exact hk
  | succ n ih =>
    rw [List.replicate_succ] at h
    have hrest := h.2 _ rfl
    by_cases hroom : k + 1 < 2 ^ 31
    · rw [step_retainedOnly hroom] at hrest
      have := ih hroom hrest
      omega
    · have hcount : (retainedOnly k).ref.count = 2 ^ 31 - 1 := by
        show (k : Int) = 2 ^ 31 - 1
        omega
      exact absurd hrest.head (count_wraps rfl hcount)

/-- `2 ^ 31` retains. -/
theorem refs_not : ¬Lib.Along (fun s call => some (step s call)) Kept (start true)
    (List.replicate (2 ^ 31) .retain) := by
  intro h
  have := lt_of_along_retain (2 ^ 31) (k := 0) (by decide) h
  omega

end Refs

end LibNax
