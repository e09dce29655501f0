import LibNax.Lib.Bytes
import LibNax.Rtlstr
import Mathlib.Data.List.TakeWhile

/-!
# Copying bytes and strings

`rtl_memcpy` copies words as long as more than a word is left, and then bytes.  `rtl_strndup` asks
for the memory that the first `n` characters need, and then copies the whole string.

* `rtlMemcpy`, `rtlStrcpy`, `rtlStrdup`, `rtlStrndup` — as in the source.
* `rtlMemcpy_copies` — the words and the bytes together are the bytes.
* `rtlStrcpy_eq` — where a string has room, and what is written.
* `duplicates_iff` — where the copy of `n` characters is what it should be.
-/

set_option autoImplicit false

namespace LibNax

namespace Rtlstr

open Lib (slice overwrite)

/-! ## The source -/

/-- `sizeof(long)`. -/
def sizeofLong : Nat := 8

/-- The loop of `rtl_memcpy` over the words: the buffer, where both pointers are, and what is left.
There is no result where it leaves one of the two buffers. -/
def copyWords (src dest : List UInt8) (off r : Nat) : Option (List UInt8 × Nat × Nat) :=
  if r > sizeofLong then do
    let dest ← Lib.memcpy dest off src off sizeofLong
    copyWords src dest (off + sizeofLong) (r - sizeofLong)
  else some (dest, off, r)
termination_by r
decreasing_by exact Nat.sub_lt (Nat.zero_lt_of_lt ‹_›) (by decide)

/-- The loop of `rtl_memcpy` over the bytes. -/
def copyBytes (src dest : List UInt8) (off : Nat) : Nat → Option (List UInt8)
  | 0 => some dest
  | r + 1 => do
    let dest ← Lib.memcpy dest off src off 1
    copyBytes src dest (off + 1) r

/-- `rtl_memcpy`. -/
def rtlMemcpy (dest src : List UInt8) (n : Nat) : Option (List UInt8) := do
  let (dest, off, r) ← copyWords src dest 0 n
  copyBytes src dest off r

/-- `rtl_strlen`.  There is no result where it reads behind the end of the buffer. -/
def rtlStrlen : List Int8 → Option Nat
  | [] => none
  | c :: s => if c ≠ 0 then (rtlStrlen s).map (· + 1) else some 0

/-- A character is written.  There is no result where it is outside of the buffer. -/
def store (dest : List Int8) (i : Nat) (c : Int8) : Option (List Int8) :=
  if i < dest.length then some (dest.set i c) else none

/-- The loop of `rtl_strcpy`, from `i` on, and the end of the string behind it. -/
def strcpyFrom (dest : List Int8) (i : Nat) : List Int8 → Option (List Int8)
  | [] => none
  | c :: src =>
    if c ≠ 0 then (store dest i c).bind fun dest => strcpyFrom dest (i + 1) src
    else store dest i 0

/-- `rtl_strcpy`. -/
def rtlStrcpy (dest src : List Int8) : Option (List Int8) := strcpyFrom dest 0 src

/-- `rtl_strdup`: the block, or `NULL`. -/
def rtlStrdup (s : List Int8) (alloc : Nat → Option (List Int8)) : Option (Option (List Int8)) := do
  let n ← rtlStrlen s
  match alloc (n + 1) with
  | none => some none
  | some dup => (rtlStrcpy dup s).map some

/-- `rtl_strndup`: the block, or `NULL`. -/
def rtlStrndup (s : List Int8) (n : Nat) (alloc : Nat → Option (List Int8)) :
    Option (Option (List Int8)) := do
  let l ← rtlStrlen s
  let k := if l > n then n else l
  match alloc (k + 1) with
  | none => some none
  | some dup => (rtlStrcpy dup s).map some

/-! ## Bytes -/

section Memcpy

variable (dest src : List UInt8)

/-- One more piece behind what was copied. -/
theorem memcpy_next {i k : Nat} (hdest : i + k ≤ dest.length) (hsrc : i + k ≤ src.length) :
    Lib.memcpy (src.take i ++ dest.drop i) i src i k =
      some (src.take (i + k) ++ dest.drop (i + k)) := by
  have hlen : (src.take i).length = i := by
    rw [List.length_take]
    omega
  rw [Lib.memcpy_eq _ _ (by simp; omega) hsrc, overwrite, List.take_left' hlen,
    Lib.length_slice hsrc, List.drop_append, List.drop_eq_nil_of_le (by omega), List.nil_append,
    hlen, List.drop_drop, slice, ← List.take_add, Nat.add_sub_cancel_left]

theorem copyWords_eq (off r : Nat) (hdest : off + r ≤ dest.length) (hsrc : off + r ≤ src.length) :
    ∃ k ≤ r, copyWords src (src.take off ++ dest.drop off) off r =
      some (src.take (off + k) ++ dest.drop (off + k), off + k, r - k) := by
  induction r using Nat.strongRecOn generalizing off with
  | ind r ih =>
    rw [copyWords]
    by_cases hr : r > sizeofLong
    · have hword := memcpy_next dest src (i := off) (k := sizeofLong) (by omega)
        (by omega)
      have hless : r - sizeofLong < r := Nat.sub_lt (by omega) (by decide)
      obtain ⟨k, hk, hrest⟩ := ih _ hless (off + sizeofLong) (by omega) (by omega)
      refine ⟨sizeofLong + k, by omega, ?_⟩
      rw [if_pos hr, hword, Option.bind_eq_bind, Option.bind_some, hrest, Nat.add_assoc,
        Nat.sub_sub]
    · exact ⟨0, Nat.zero_le r, by rw [if_neg hr, Nat.add_zero, Nat.sub_zero]⟩

theorem copyBytes_eq (off r : Nat) (hdest : off + r ≤ dest.length) (hsrc : off + r ≤ src.length) :
    copyBytes src (src.take off ++ dest.drop off) off r =
      some (src.take (off + r) ++ dest.drop (off + r)) := by
  induction r generalizing off with
  | zero => rfl
  | succ r ih =>
    have hbyte := memcpy_next dest src (i := off) (k := 1) (by omega) (by omega)
    rw [show ((1 : Nat) : Int) = 1 from rfl] at hbyte
    rw [copyBytes, hbyte, Option.bind_eq_bind, Option.bind_some, ih (off + 1) (by omega) (by omega),
      Nat.add_right_comm]
    rfl

/-- The function copies `n` bytes, and buffers that end behind them are enough. -/
structure Copies (dest src : List UInt8) (n : Nat) : Prop where
  result : rtlMemcpy dest src n = some (src.take n ++ dest.drop n)
  touches : rtlMemcpy (dest.take n) (src.take n) n = some (src.take n)

variable {dest src}

theorem rtlMemcpy_eq {n : Nat} (hdest : n ≤ dest.length) (hsrc : n ≤ src.length) :
    rtlMemcpy dest src n = some (src.take n ++ dest.drop n) := by
  obtain ⟨k, hk, hwords⟩ := copyWords_eq dest src 0 n (by omega) (by omega)
  have hbytes := copyBytes_eq dest src (0 + k) (n - k) (by omega) (by omega)
  rw [List.take_zero, List.drop_zero, List.nil_append] at hwords
  rw [rtlMemcpy, hwords, Option.bind_eq_bind, Option.bind_some]
  show copyBytes _ _ _ _ = _
  rw [hbytes, show 0 + k + (n - k) = n by omega]

/-- **`rtl_memcpy` copies the bytes**, whatever is left for the words. -/
theorem rtlMemcpy_copies {n : Nat} (hdest : n ≤ dest.length) (hsrc : n ≤ src.length) :
    Copies dest src n where
  result := rtlMemcpy_eq hdest hsrc
  touches := by
    rw [rtlMemcpy_eq (by rw [List.length_take]; omega) (by rw [List.length_take]; omega),
      List.take_take, Nat.min_self, List.drop_take, Nat.sub_self, List.take_zero, List.append_nil]

/-- Two words, of which the second one is copied by bytes. -/
theorem rtlMemcpy_copies_words : Copies (List.replicate 20 7) (List.replicate 16 1) 16 :=
  rtlMemcpy_copies (by decide) (by decide)

end Memcpy

/-! ## Strings -/

section Strings

variable {s : List Int8}

theorem rtlStrlen_eq (h : (0 : Int8) ∈ s) : rtlStrlen s = some (cstring s).length := by
  induction s with
  | nil => cases h
  | cons c s ih =>
    rw [rtlStrlen]
    by_cases hc : c = 0
    · rw [if_neg (not_not.mpr hc), hc, cstring_zero]
      rfl
    · rw [if_pos hc, ih ((List.mem_cons.mp h).resolve_left (Ne.symm hc)), cstring_cons hc]
      rfl

theorem strcpyFrom_eq (h : (0 : Int8) ∈ s) (dest : List Int8) (i : Nat) :
    strcpyFrom dest i s = if i + (cstring s).length < dest.length
      then some (overwrite dest i (cstring s ++ [0])) else none := by
  induction s generalizing dest i with
  | nil => cases h
  | cons c s ih =>
    rw [strcpyFrom, store]
    by_cases hc : c = 0
    · rw [if_neg (not_not.mpr hc), store, hc, cstring_zero, List.length_nil, Nat.add_zero]
      split
      · rename_i hi
        rw [Lib.set_eq_overwrite hi, List.nil_append]
      · rfl
    · have hlen : i + (cstring (c :: s)).length = i + 1 + (cstring s).length := by
        rw [cstring_cons hc, List.length_cons]
        omega
      rw [if_pos hc, hlen, cstring_cons hc]
      by_cases hi : i < dest.length
      · rw [if_pos hi, Option.bind_some,
          ih ((List.mem_cons.mp h).resolve_left (Ne.symm hc)), List.length_set]
        split
        · rename_i hroom
          have happend : overwrite (overwrite dest i [c]) (i + 1) (cstring s ++ [0]) =
              overwrite dest i ([c] ++ (cstring s ++ [0])) :=
            Lib.overwrite_overwrite (Nat.succ_le_of_lt hi) _
          rw [Lib.set_eq_overwrite hi]
          exact congrArg some happend
        · rfl
      · rw [if_neg hi, Option.bind_none, if_neg (by omega)]

/-- **Where a string has room, and what is written.** -/
theorem rtlStrcpy_eq (h : (0 : Int8) ∈ s) (dest : List Int8) :
    rtlStrcpy dest s = if (cstring s).length < dest.length
      then some (overwrite dest 0 (cstring s ++ [0])) else none := by
  rw [rtlStrcpy, strcpyFrom_eq h, Nat.zero_add]

/-- The string that was written is read. -/
theorem cstring_overwrite {l : List Int8} (hl : 0 ∉ l) (dest : List Int8) :
    cstring (overwrite dest 0 (l ++ [0])) = l := by
  rw [overwrite, List.take_zero, List.nil_append, List.append_assoc, List.singleton_append,
    cstring_append_end, cstring_eq_self.mpr hl]

/-- Both functions ask for the memory of the first `n` characters, and copy the string. -/
theorem rtlStrndup_eq (h : (0 : Int8) ∈ s) (n : Nat) {alloc : Nat → Option (List Int8)}
    {block : List Int8} (hblock : alloc (min n (cstring s).length + 1) = some block) :
    rtlStrndup s n alloc = (rtlStrcpy block s).map some := by
  have hmin : (if (cstring s).length > n then n else (cstring s).length) =
      min n (cstring s).length := by
    split
    · omega
    · omega
  rw [rtlStrndup, rtlStrlen_eq h, Option.bind_eq_bind, Option.bind_some]
  simp only [hmin, hblock]

theorem rtlStrdup_eq (h : (0 : Int8) ∈ s) (alloc : Nat → Option (List Int8)) :
    rtlStrdup s alloc = rtlStrndup s (cstring s).length alloc := by
  rw [rtlStrdup, rtlStrndup, rtlStrlen_eq h]
  simp only [Option.bind_eq_bind, Option.bind_some, gt_iff_lt, Nat.lt_irrefl, if_false]

/-- A block that holds the first `n` characters becomes their copy, and nothing behind their end is
written; and `rtl_strdup` copies all of them. -/
structure Duplicates (s : List Int8) (n : Nat) : Prop where
  strndup : ∀ (alloc : Nat → Option (List Int8)) (block : List Int8),
    alloc (min n (cstring s).length + 1) = some block → min n (cstring s).length + 1 ≤ block.length →
      ∃ dup, rtlStrndup s n alloc = some (some dup) ∧ (0 : Int8) ∈ dup ∧
        cstring dup = (cstring s).take n ∧ dup.length = block.length ∧
        dup.drop (min n (cstring s).length + 1) = block.drop (min n (cstring s).length + 1)
  strdup : ∀ alloc, rtlStrdup s alloc = rtlStrndup s (cstring s).length alloc

/-- **The copy of `n` characters is right exactly where the string has no more.** -/
theorem duplicates_iff (h : (0 : Int8) ∈ s) (n : Nat) : Duplicates s n ↔ (cstring s).length ≤ n := by
  constructor
  · intro hdup
    by_contra hlong
    obtain ⟨dup, hsome, -⟩ := hdup.strndup (fun k => some (List.replicate k 0))
      (List.replicate (min n (cstring s).length + 1) 0) rfl (by rw [List.length_replicate])
    rw [rtlStrndup_eq h n rfl, rtlStrcpy_eq h, List.length_replicate, if_neg (by omega)] at hsome
    cases hsome
  · intro hshort
    refine ⟨fun alloc block hblock hroom => ?_, rtlStrdup_eq h⟩
    have hmin : min n (cstring s).length = (cstring s).length := Nat.min_eq_right hshort
    have hlen : (cstring s ++ [0]).length = (cstring s).length + 1 := List.length_append
    rw [hmin] at hroom ⊢
    refine ⟨overwrite block 0 (cstring s ++ [0]), ?_, ?_, ?_, ?_, ?_⟩
    · rw [rtlStrndup_eq h n hblock, rtlStrcpy_eq h, if_pos (Nat.lt_of_succ_le hroom),
        Option.map_some]
    · rw [overwrite]
      simp
    · rw [cstring_overwrite (zero_notMem_cstring s), List.take_of_length_le hshort]
    · rw [Lib.length_overwrite (by omega)]
    · rw [overwrite, List.take_zero, List.nil_append, List.drop_left' hlen, hlen, Nat.zero_add]

/-- The first three characters of `ab`. -/
theorem duplicates_iff_three : Duplicates [0x61, 0x62, 0] 3 :=
  (duplicates_iff (by decide) 3).mpr (by decide)

/-- The first character of `abc`: four bytes are written into a block of two; in a larger block the
copy is `abc`. -/
theorem duplicates_not :
    rtlStrndup [0x61, 0x62, 0x63, 0] 1 (fun k => some (List.replicate k 0)) = none ∧
      rtlStrndup [0x61, 0x62, 0x63, 0] 1 (fun _ => some (List.replicate 8 0)) =
        some (some [0x61, 0x62, 0x63, 0, 0, 0, 0, 0]) ∧
      ¬Duplicates [0x61, 0x62, 0x63, 0] 1 := by
  refine ⟨by decide, by decide, fun h => ?_⟩
  obtain ⟨dup, hsome, -⟩ := h.strndup (fun k => some (List.replicate k 0)) [0, 0] (by decide)
    (by decide)
  have hnone : rtlStrndup [0x61, 0x62, 0x63, 0] 1 (fun k => some (List.replicate k 0)) = none := by
    decide
  rw [hnone] at hsome
  cases hsome

end Strings

end Rtlstr

end LibNax
