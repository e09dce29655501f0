import Mathlib.Data.List.Rotate
import LibNax.Lib.Bytes

/-!
# Circular buffers

A circular buffer is a list that is read from a position on, with its start behind its end.
Mathlib's `List.rotate` is that reading, so a queue of `n` elements from `off` on is `window buf off
n`.

* `window_drop` — leaving elements out at the front of a window.
* `copyOut`, `copyOut_eq` — the two copies that read a window.
* `copyIn`, `window_copyIn` — the two copies that write behind a window, which makes it longer.
-/

set_option autoImplicit false

namespace LibNax

namespace Lib

variable {α : Type} {buf new : List α} {off n m : Nat}

/-- The `n` elements from position `off` on, around the end. -/
def window (buf : List α) (off n : Nat) : List α := (buf.rotate off).take n

theorem length_window (h : n ≤ buf.length) : (window buf off n).length = n := by
  rw [window, List.length_take, List.length_rotate]
  omega

/-- A window that starts later is the rest of one that starts earlier. -/
theorem window_drop (buf : List α) (off : Nat) (hn : n ≤ m) (hm : m ≤ buf.length) :
    window buf (off + n) (m - n) = (window buf off m).drop n := by
  rw [window, window, ← List.rotate_rotate, List.rotate_eq_drop_append_take
    (by rw [List.length_rotate]; omega), List.take_append_of_le_length, List.drop_take]
  rw [List.length_drop, List.length_rotate]
  omega

/-- A shorter window is a part of a longer one. -/
theorem window_take (buf : List α) (off : Nat) (hn : n ≤ m) :
    (window buf off m).take n = window buf off n := by
  rw [window, window, List.take_take, Nat.min_eq_left hn]

theorem window_mod (buf : List α) (off n : Nat) :
    window buf (off % buf.length) n = window buf off n := by
  rw [window, window, List.rotate_mod]

/-- What the two copies out of a circular buffer give: the part up to its end, and the part at its
start. -/
def copyOut (buf : List α) (off n : Nat) : List α :=
  slice buf off (min n (buf.length - off)) ++ slice buf 0 (n - min n (buf.length - off))

theorem copyOut_eq (hoff : off < buf.length) (hn : n ≤ buf.length) :
    copyOut buf off n = window buf off n := by
  rw [copyOut, window, List.rotate_eq_drop_append_take hoff.le, List.take_append, slice, slice,
    List.length_drop, List.drop_zero, List.take_take]
  congr 1
  · rcases Nat.le_total n (buf.length - off) with h | h
    · rw [Nat.min_eq_left h]
    · rw [Nat.min_eq_right h, List.take_of_length_le (by rw [List.length_drop]),
        List.take_of_length_le (by rw [List.length_drop]; omega)]
  · congr 1
    omega

/-- What the two copies into a circular buffer make of it. -/
def copyIn (buf : List α) (off : Nat) (new : List α) : List α :=
  overwrite (overwrite buf off (new.take (buf.length - off))) 0 (new.drop (buf.length - off))

theorem length_copyIn (hoff : off < buf.length) (hn : new.length ≤ buf.length) :
    (copyIn buf off new).length = buf.length := by
  have h₁ : (overwrite buf off (new.take (buf.length - off))).length = buf.length :=
    length_overwrite (by rw [List.length_take]; omega)
  rw [copyIn, length_overwrite, h₁]
  rw [h₁, List.length_drop]
  omega

/-- A position around the end at most once. -/
theorem add_mod_of_lt {i j k : Nat} (hi : i < k) (hj : j ≤ k) :
    (i + j) % k = if i + j < k then i + j else i + j - k := by
  split
  · exact Nat.mod_eq_of_lt ‹_›
  · rw [Nat.mod_eq_sub_mod (by omega)]
    exact Nat.mod_eq_of_lt (by omega)

theorem getElem?_copyIn (hoff : off < buf.length) (hn : new.length ≤ buf.length) {i : Nat} :
    (copyIn buf off new)[i]? =
      if i < off + new.length - buf.length then new[i + (buf.length - off)]?
      else if off ≤ i ∧ i < off + new.length ∧ i < buf.length then new[i - off]? else buf[i]? := by
  have h₁ : (overwrite buf off (new.take (buf.length - off))).length = buf.length :=
    length_overwrite (by rw [List.length_take]; omega)
  rw [copyIn, getElem?_overwrite (by rw [h₁, List.length_drop]; omega), if_neg (by omega),
    Nat.zero_add, List.length_drop, Nat.sub_zero, List.getElem?_drop,
    getElem?_overwrite (by rw [List.length_take]; omega), List.length_take]
  by_cases hwrap : i < off + new.length - buf.length
  · rw [if_pos (by omega), if_pos hwrap, Nat.add_comm]
  rw [if_neg (by omega), if_neg hwrap]
  by_cases hin : off ≤ i ∧ i < off + new.length ∧ i < buf.length
  · rw [if_neg (by omega), if_pos (by omega), if_pos hin, List.getElem?_take_of_lt (by omega)]
  rw [if_neg hin]
  split
  · rfl
  · rw [if_neg (by omega)]

/-- Writing behind a window makes the window longer. -/
theorem window_copyIn (off : Nat) (hpos : 0 < buf.length) (h : m + new.length ≤ buf.length) :
    window (copyIn buf ((off + m) % buf.length) new) off (m + new.length) =
      window buf off m ++ new := by
  have hplace : (off + m) % buf.length < buf.length := Nat.mod_lt _ hpos
  have hlen : (copyIn buf ((off + m) % buf.length) new).length = buf.length :=
    length_copyIn hplace (by omega)
  have hstart : off % buf.length < buf.length := Nat.mod_lt _ hpos
  refine List.ext_getElem? fun i => ?_
  rcases Nat.lt_or_ge i (m + new.length) with hi | hi
  · rw [window, List.getElem?_take_of_lt hi, List.getElem?_rotate (by omega), hlen,
      getElem?_copyIn hplace (by omega), Nat.add_comm i, ← Nat.mod_add_mod off _ m,
      ← Nat.mod_add_mod off _ i, add_mod_of_lt hstart (by omega), add_mod_of_lt hstart (by omega)]
    rcases Nat.lt_or_ge i m with him | him
    · -- inside of the old window nothing was written
      rw [List.getElem?_append_left (by rw [length_window (by omega)]; exact him), window,
        List.getElem?_take_of_lt him, List.getElem?_rotate (by omega), Nat.add_comm i,
        ← Nat.mod_add_mod off _ i, add_mod_of_lt hstart (by omega)]
      rw [if_neg (by split <;> split <;> omega), if_neg (by split <;> split <;> omega)]
    · rw [List.getElem?_append_right (by rw [length_window (by omega)]; exact him),
        length_window (by omega)]
      by_cases hm : off % buf.length + m < buf.length
      · by_cases hi' : off % buf.length + i < buf.length
        · simp only [if_pos hm, if_pos hi']
          rw [if_neg (by omega), if_pos (by omega), Nat.add_sub_add_left]
        · simp only [if_pos hm, if_neg hi']
          rw [if_pos (by omega)]
          congr 1
          omega
      · simp only [if_neg hm, if_neg (show ¬off % buf.length + i < buf.length by omega)]
        rw [if_neg (by omega), if_pos (by omega)]
        congr 1
        omega
  · rw [List.getElem?_eq_none (by rw [length_window (by omega)]; omega),
      List.getElem?_eq_none (by rw [List.length_append, length_window (by omega)]; omega)]

end Lib

end LibNax
