import Mathlib.Data.List.TakeDrop

/-!
# Buffers

A buffer is a list whose length is its size.  `slice` reads a range of it and `overwrite` replaces a
range, in place; everything else about buffers follows from how the two act on positions and from
what they do to a prefix.

* `length_overwrite`, `length_slice` — sizes.
* `take_overwrite`, `overwrite_overwrite` — appending at the end of a prefix.
* `memcpy` — the copy with its bounds, undefined outside of them.
* `drop_take_pad` — a buffer that is cut, or goes on with a default.
-/

set_option autoImplicit false

namespace LibNax

namespace Lib

variable {α : Type}

/-- The `n` elements at position `off`. -/
def slice (l : List α) (off n : Nat) : List α := (l.drop off).take n

/-- The buffer after `new` was written at position `off`. -/
def overwrite (l : List α) (off : Nat) (new : List α) : List α :=
  l.take off ++ new ++ l.drop (off + new.length)

theorem length_slice {l : List α} {off n : Nat} (h : off + n ≤ l.length) :
    (slice l off n).length = n := by
  rw [slice, List.length_take, List.length_drop]
  omega

theorem slice_slice {l : List α} {off k i n : Nat} (h : i + n ≤ k) :
    slice (slice l off k) i n = slice l (off + i) n := by
  rw [slice, slice, slice, List.drop_take, List.take_take, List.drop_drop, Nat.min_eq_left]
  omega

theorem length_overwrite {l : List α} {off : Nat} {new : List α}
    (h : off + new.length ≤ l.length) : (overwrite l off new).length = l.length := by
  rw [overwrite, List.length_append, List.length_append, List.length_take, List.length_drop]
  omega

theorem getElem?_overwrite {l : List α} {off : Nat} {new : List α} (h : off + new.length ≤ l.length)
    (i : Nat) : (overwrite l off new)[i]? =
      if i < off then l[i]? else if i < off + new.length then new[i - off]? else l[i]? := by
  have hlen : (l.take off).length = off := by
    rw [List.length_take]
    omega
  rw [overwrite, List.append_assoc]
  split
  · rename_i hi
    rw [List.getElem?_append_left (by omega), List.getElem?_take_of_lt hi]
  · rw [List.getElem?_append_right (by omega), hlen]
    split
    · rw [List.getElem?_append_left (by omega)]
    · rw [List.getElem?_append_right (by omega), List.getElem?_drop]
      congr 1
      omega

/-- A part is replaced by one of the same length. -/
theorem overwrite_middle (x z : List α) {y new : List α} {off : Nat} (hoff : off = x.length)
    (hlen : new.length = y.length) : overwrite (x ++ y ++ z) off new = x ++ new ++ z := by
  rw [overwrite, hoff, List.append_assoc x y z, List.take_left' rfl, hlen,
    ← List.append_assoc x y z, List.drop_left' (by rw [List.length_append])]

theorem overwrite_last (x : List α) {y new : List α} {off : Nat} (hoff : off = x.length)
    (hlen : new.length = y.length) : overwrite (x ++ y) off new = x ++ new := by
  have hmiddle := overwrite_middle x [] hoff hlen
  rwa [List.append_nil, List.append_nil] at hmiddle

/-- Writing at the end of a prefix makes the prefix longer. -/
theorem take_overwrite {l : List α} {off : Nat} (new : List α) (h : off ≤ l.length) :
    (overwrite l off new).take (off + new.length) = l.take off ++ new := by
  rw [overwrite]
  refine List.take_left' ?_
  rw [List.length_append, List.length_take, Nat.min_eq_left h]

/-- Writing behind a prefix leaves the prefix alone. -/
theorem take_overwrite_of_le {l : List α} {off n : Nat} (new : List α) (hn : n ≤ off)
    (h : off ≤ l.length) : (overwrite l off new).take n = l.take n := by
  rw [overwrite, List.append_assoc, List.take_append_of_le_length, List.take_take,
    Nat.min_eq_left hn]
  rw [List.length_take]
  omega

theorem set_eq_overwrite {l : List α} {off : Nat} (h : off < l.length) (a : α) :
    l.set off a = overwrite l off [a] := by
  rw [List.set_eq_take_append_cons_drop, if_pos h, overwrite, List.append_assoc]
  rfl

/-- Writing on behind what was written. -/
theorem overwrite_overwrite {l : List α} {off : Nat} {a : List α}
    (h : off + a.length ≤ l.length) (b : List α) :
    overwrite (overwrite l off a) (off + a.length) b = overwrite l off (a ++ b) := by
  have htake : (overwrite l off a).take (off + a.length) = l.take off ++ a :=
    take_overwrite a (by omega)
  have hdrop : (overwrite l off a).drop (off + a.length + b.length) =
      l.drop (off + (a ++ b).length) := by
    have hlen : (l.take off ++ a).length = off + a.length := by
      rw [List.length_append, List.length_take]
      omega
    rw [overwrite, ← List.drop_drop, List.drop_left' hlen, List.drop_drop, List.length_append,
      Nat.add_assoc]
  rw [overwrite, htake, hdrop, overwrite, List.append_assoc (l.take off) a b]

/-- The copy of `n` elements of `src` from `srcoff` on into `dst` at `dstoff`: none where it would
leave one of the two buffers, or where a length or an offset is negative. -/
def memcpy (dst : List α) (dstoff : Int) (src : List α) (srcoff n : Int) : Option (List α) :=
  if 0 ≤ n ∧ 0 ≤ dstoff ∧ dstoff + n ≤ dst.length ∧ 0 ≤ srcoff ∧ srcoff + n ≤ src.length then
    some (overwrite dst dstoff.toNat (slice src srcoff.toNat n.toNat))
  else none

theorem memcpy_eq (dst src : List α) {dstoff srcoff n : Nat} (h₁ : dstoff + n ≤ dst.length)
    (h₂ : srcoff + n ≤ src.length) :
    memcpy dst dstoff src srcoff n = some (overwrite dst dstoff (slice src srcoff n)) := by
  rw [memcpy, if_pos (by omega)]
  simp only [Int.toNat_natCast]

/-! ## Padding -/

theorem getElem?_takeD (a : α) (n : Nat) : ∀ (l : List α) (i : Nat),
    (l.takeD n a)[i]? = if i < n then some (l.getD i a) else none := by
  induction n with
  | zero => exact fun l i => by rw [List.takeD_zero, List.getElem?_nil, if_neg (Nat.not_lt_zero i)]
  | succ n ih =>
    intro l i
    rw [List.takeD]
    cases i with
    | zero =>
      rw [List.getElem?_cons_zero, if_pos (Nat.succ_pos n)]
      cases l with
      | nil => rfl
      | cons b l => rfl
    | succ i =>
      rw [List.getElem?_cons_succ, ih]
      cases l with
      | nil => simp only [List.tail_nil, Nat.add_lt_add_iff_right, List.getD_nil]
      | cons b l => simp only [List.tail_cons, Nat.add_lt_add_iff_right, List.getD_cons_succ]

/-- A list is cut, or goes on with the default, where what is behind the cut is the default. -/
theorem drop_take_pad {a : α} {l : List α} {k len n m : Nat} (hroom : n ≤ l.length + m)
    (hpad : ∀ b ∈ (l.take n).drop len, b = a) :
    ((l ++ List.replicate m a).take n).drop k = ((l.take len).drop k).takeD (n - k) a := by
  refine List.ext_getElem? fun i => ?_
  rw [getElem?_takeD, List.getElem?_drop, List.getElem?_take]
  by_cases hin : k + i < n
  · rw [if_pos hin, if_pos (by omega)]
    have hget : (l ++ List.replicate m a)[k + i]? = some (l.getD (k + i) a) := by
      rcases Nat.lt_or_ge (k + i) l.length with hlt | hge
      · rw [List.getElem?_append_left hlt, List.getD_eq_getElem?_getD, List.getElem?_eq_getElem hlt]
        rfl
      · rw [List.getElem?_append_right hge, List.getElem?_replicate, if_pos (by omega),
          List.getD_eq_getElem?_getD, List.getElem?_eq_none hge]
        rfl
    rw [hget, List.getD_eq_getElem?_getD, List.getD_eq_getElem?_getD, List.getElem?_drop,
      List.getElem?_take]
    split
    · rfl
    · rename_i hlen
      rw [Option.getD_none]
      rcases Nat.lt_or_ge (k + i) l.length with hlt | hge
      · rw [List.getElem?_eq_getElem hlt, Option.getD_some]
        refine congrArg some (hpad _ (List.mem_iff_getElem?.mpr ⟨k + i - len, ?_⟩))
        rw [List.getElem?_drop, List.getElem?_take, show len + (k + i - len) = k + i by omega,
          if_pos hin, List.getElem?_eq_getElem hlt]
      · rw [List.getElem?_eq_none hge]
        rfl
  · rw [if_neg hin, if_neg (by omega)]

end Lib

end LibNax
