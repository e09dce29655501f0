import LibNax.Common
import Mathlib.Algebra.Group.Nat.Defs
import Mathlib.Data.Nat.Bits
import LibNax.Lib.Ring

/-!
# The ring buffer

`cfifo.c` keeps bytes in a buffer of the caller whose size is a power of two.  Two counters of 32
bits run freely: a position in the buffer is a counter taken modulo the size, and the number of
bytes stored is their difference, whatever the counters have wrapped around.

* `Ckfifo`, `ckfifoPut`, `ckfifoGet`, `ckfifoLen` — the functions of the source.  A copy that leaves
  one of its buffers has no result.
* `Bounded` — a bounded queue of bytes.
* `Holds` — the buffer holds the bytes of a queue.
* `ckfifo_refines` — any calls give what they give on the queue.

The lock of the source makes its calls atomic; here they are taken one after the other.
-/

set_option autoImplicit false

namespace LibNax

namespace Cfifo

open Lib (memcpy slice overwrite window)

/-! ## The source -/

/-- `struct ckfifo`, with the memory that `buffer` points to. -/
structure Ckfifo where
  buffer : List UInt8
  size : UInt32
  /-- The counter of the bytes put. -/
  inn : UInt32
  /-- The counter of the bytes got. -/
  out : UInt32
deriving DecidableEq

/-- `_ckfifo_len`. -/
def Ckfifo.len (ring : Ckfifo) : UInt32 := ring.inn - ring.out

/-- `_ckfifo_get`: the number of bytes, and the buffer of the caller. -/
def Ckfifo.get (ring : Ckfifo) (buffer : List UInt8) (size : UInt32) :
    Option (UInt32 × List UInt8 × Ckfifo) :=
  let n := min size (ring.inn - ring.out)
  let pos := ring.out &&& (ring.size - 1)
  let len := min n (ring.size - pos)
  (memcpy buffer 0 ring.buffer pos.toNat len.toNat).bind fun buffer =>
    (memcpy buffer len.toNat ring.buffer 0 (n - len).toNat).map fun buffer =>
      (n, buffer, { ring with out := ring.out + n })

/-- `_ckfifo_put`. -/
def Ckfifo.put (ring : Ckfifo) (buffer : List UInt8) (size : UInt32) : Option (UInt32 × Ckfifo) :=
  let n := min size (ring.size - ring.inn + ring.out)
  let pos := ring.inn &&& (ring.size - 1)
  let len := min n (ring.size - pos)
  (memcpy ring.buffer pos.toNat buffer 0 len.toNat).bind fun stored =>
    (memcpy stored 0 buffer len.toNat (n - len).toNat).map fun stored =>
      (n, { ring with buffer := stored, inn := ring.inn + n })

/-- `ckfifo_init`; `alloc` is whether the allocation succeeds. -/
def ckfifoInit (buffer : Option (List UInt8)) (size : UInt32) (alloc : Bool) : Option Ckfifo :=
  match buffer with
  | none => none
  | some buffer => if isPowerof2 size.toBitVec ∧ alloc then some ⟨buffer, size, 0, 0⟩ else none

/-- `ckfifo_len`. -/
def ckfifoLen (ring : Ckfifo) : UInt32 := ring.len

/-- `ckfifo_get`.  An empty ring starts again at zero. -/
def ckfifoGet (ring : Ckfifo) (buffer : List UInt8) (size : UInt32) :
    Option (UInt32 × List UInt8 × Ckfifo) :=
  (ring.get buffer size).map fun r =>
    (r.1, r.2.1, if r.2.2.inn = r.2.2.out then { r.2.2 with inn := 0, out := 0 } else r.2.2)

/-- `ckfifo_put`. -/
def ckfifoPut (ring : Ckfifo) (buffer : List UInt8) (size : UInt32) : Option (UInt32 × Ckfifo) :=
  ring.put buffer size

/-- A call. -/
inductive Op where
  | put (buffer : List UInt8) (size : UInt32)
  | get (buffer : List UInt8) (size : UInt32)
  | len

/-- What a call gives back: a number, and the buffer of a get. -/
inductive Outcome where
  | put (n : Nat)
  | get (n : Nat) (buffer : List UInt8)
  | len (n : Nat)
deriving DecidableEq

/-- The buffer of the caller is as long as it says. -/
def Op.Fits : Op → Prop
  | .put buffer size => size.toNat ≤ buffer.length
  | .get buffer size => size.toNat ≤ buffer.length
  | .len => True

def Ckfifo.call (ring : Ckfifo) : Op → Option (Outcome × Ckfifo)
  | .put buffer size => (ckfifoPut ring buffer size).map fun r => (.put r.1.toNat, r.2)
  | .get buffer size => (ckfifoGet ring buffer size).map fun r => (.get r.1.toNat r.2.1, r.2.2)
  | .len => some (.len (ckfifoLen ring).toNat, ring)

/-- Calls one after the other. -/
def Ckfifo.calls : Ckfifo → List Op → Option (List Outcome × Ckfifo)
  | ring, [] => some ([], ring)
  | ring, op :: ops =>
    (ring.call op).bind fun r => (r.2.calls ops).map fun rs => (r.1 :: rs.1, rs.2)

/-! ## A bounded queue -/

namespace Bounded

/-- A call on a queue that holds at most `cap` bytes. -/
def call (cap : Nat) (q : List UInt8) : Op → Outcome × List UInt8
  | .put buffer size =>
    let n := min size.toNat (cap - q.length)
    (.put n, q ++ buffer.take n)
  | .get buffer size =>
    let n := min size.toNat q.length
    (.get n (overwrite buffer 0 (q.take n)), q.drop n)
  | .len => (.len q.length, q)

def calls (cap : Nat) : List UInt8 → List Op → List Outcome × List UInt8
  | q, [] => ([], q)
  | q, op :: ops =>
    let r := call cap q op
    let rs := calls cap r.2 ops
    (r.1 :: rs.1, rs.2)

end Bounded

/-! ## The refinement -/

/-- The ring holds the bytes of a queue. -/
structure Holds (ring : Ckfifo) (q : List UInt8) : Prop where
  pow : ∃ k ≤ 31, ring.size.toNat = 2 ^ k
  length : ring.buffer.length = ring.size.toNat
  used : (ring.inn - ring.out).toNat = q.length
  fits : q.length ≤ ring.size.toNat
  bytes : window ring.buffer ring.out.toNat q.length = q

theorem toNat_min (a b : UInt32) : (min a b).toNat = min a.toNat b.toNat := by
  rw [show min a b = if a ≤ b then a else b from rfl]
  split
  · rename_i h
    rw [UInt32.le_iff_toNat_le] at h
    omega
  · rename_i h
    rw [UInt32.le_iff_toNat_le] at h
    omega

namespace Holds

variable {ring : Ckfifo} {q : List UInt8}

theorem size_pos (h : Holds ring q) : 0 < ring.size.toNat := by
  obtain ⟨k, -, hk⟩ := h.pow
  rw [hk]
  exact Nat.two_pow_pos k

theorem size_le (h : Holds ring q) : ring.size.toNat ≤ 2 ^ 31 := by
  obtain ⟨k, hle, hk⟩ := h.pow
  rw [hk]
  exact Nat.pow_le_pow_right (by decide) hle

/-- The mask is the remainder. -/
theorem toNat_and (h : Holds ring q) (x : UInt32) :
    (x &&& (ring.size - 1)).toNat = x.toNat % ring.size.toNat := by
  obtain ⟨k, -, hk⟩ := h.pow
  have hpos := h.size_pos
  have hsub : (ring.size - 1).toNat = 2 ^ k - 1 := by
    rw [UInt32.toNat_sub_of_le _ _ (by rw [UInt32.le_iff_toNat_le]; exact hpos), hk]
    rfl
  rw [UInt32.toNat_and, hsub, Nat.and_two_pow_sub_one_eq_mod, hk]

/-- The counters wrap around, the position does not notice. -/
theorem mod_size (h : Holds ring q) (n : Nat) :
    n % 2 ^ 32 % ring.size.toNat = n % ring.size.toNat := by
  obtain ⟨k, hle, hk⟩ := h.pow
  rw [hk]
  exact Nat.mod_mod_of_dvd n (Nat.pow_dvd_pow 2 (by omega))

theorem inn_mod (h : Holds ring q) :
    ring.inn.toNat % ring.size.toNat = (ring.out.toNat + q.length) % ring.size.toNat := by
  have hinn : ring.inn.toNat = (ring.out.toNat + q.length) % 2 ^ 32 := by
    have := h.used
    rw [UInt32.toNat_sub] at this
    have := ring.inn.toNat_lt
    have := ring.out.toNat_lt
    omega
  rw [hinn, h.mod_size]

/-- The place where the next byte goes, and where the oldest one is. -/
theorem place_lt (h : Holds ring q) (x : UInt32) :
    (x &&& (ring.size - 1)).toNat < ring.buffer.length := by
  rw [h.toNat_and, h.length]
  exact Nat.mod_lt _ h.size_pos

/-- What is left up to the end of the buffer. -/
theorem toNat_rest (h : Holds ring q) (x : UInt32) :
    (ring.size - (x &&& (ring.size - 1))).toNat =
      ring.buffer.length - (x &&& (ring.size - 1)).toNat := by
  have hlt := h.place_lt x
  rw [h.length] at hlt ⊢
  exact UInt32.toNat_sub_of_le _ _ (UInt32.le_iff_toNat_le.mpr hlt.le)

/-- The free space. -/
theorem toNat_free (h : Holds ring q) :
    (ring.size - ring.inn + ring.out).toNat = ring.size.toNat - q.length := by
  have hused := h.used
  have hfits := h.fits
  have hle := h.size_le
  have := ring.inn.toNat_lt
  have := ring.out.toNat_lt
  rw [UInt32.toNat_sub] at hused
  rw [UInt32.toNat_add, UInt32.toNat_sub]
  omega

theorem toNat_add_used {x : UInt32} (h : Holds ring q) (hx : x.toNat ≤ ring.size.toNat - q.length) :
    (ring.inn + x - ring.out).toNat = q.length + x.toNat := by
  have hused := h.used
  have hle := h.size_le
  have hfits := h.fits
  have := ring.inn.toNat_lt
  have := ring.out.toNat_lt
  rw [UInt32.toNat_sub] at hused
  rw [UInt32.toNat_sub, UInt32.toNat_add]
  omega

theorem toNat_sub_used {x : UInt32} (h : Holds ring q) (hx : x.toNat ≤ q.length) :
    (ring.inn - (ring.out + x)).toNat = q.length - x.toNat := by
  have hused := h.used
  have := ring.inn.toNat_lt
  have := ring.out.toNat_lt
  rw [UInt32.toNat_sub] at hused
  rw [UInt32.toNat_sub, UInt32.toNat_add]
  omega

/-- The two copies of a put, as one. -/
theorem copies_in {buf src : List UInt8} {pos n : Nat} :
    overwrite (overwrite buf pos (slice src 0 (min n (buf.length - pos)))) 0
        (slice src (min n (buf.length - pos)) (n - min n (buf.length - pos))) =
      Lib.copyIn buf pos (src.take n) := by
  rw [Lib.copyIn, slice, slice, List.drop_zero, List.take_take, Nat.min_comm (buf.length - pos)]
  congr 1
  rcases Nat.le_total n (buf.length - pos) with h | h
  · rw [Nat.min_eq_left h, Nat.sub_self, List.take_zero, List.drop_eq_nil_of_le]
    rw [List.length_take]
    omega
  · rw [Nat.min_eq_right h, List.drop_take]

theorem put_spec (h : Holds ring q) {buffer : List UInt8} {size : UInt32}
    (hsize : size.toNat ≤ buffer.length) : ∃ n ring', ckfifoPut ring buffer size = some (n, ring') ∧
      n.toNat = min size.toNat (ring.size.toNat - q.length) ∧ ring'.size = ring.size ∧
      Holds ring' (q ++ buffer.take n.toNat) := by
  have hn : (min size (ring.size - ring.inn + ring.out)).toNat =
      min size.toNat (ring.size.toNat - q.length) := by
    rw [toNat_min, h.toNat_free]
  generalize hm : min size (ring.size - ring.inn + ring.out) = n at hn
  have hplace := h.place_lt ring.inn
  have hlen : (min n (ring.size - (ring.inn &&& (ring.size - 1)))).toNat =
      min n.toNat (ring.buffer.length - (ring.inn &&& (ring.size - 1)).toNat) := by
    rw [toNat_min, h.toNat_rest]
  have hand := h.toNat_and ring.inn
  generalize hpos : ring.inn &&& (ring.size - 1) = pos at hplace hlen hand
  generalize hl : min n (ring.size - pos) = len at hlen
  have hsub : (n - len).toNat = n.toNat - len.toNat :=
    UInt32.toNat_sub_of_le _ _ (UInt32.le_iff_toNat_le.mpr (by omega))
  have hlength := h.length
  have hfits := h.fits
  have hfirst : memcpy ring.buffer pos.toNat buffer 0 len.toNat =
      some (overwrite ring.buffer pos.toNat (slice buffer 0 len.toNat)) :=
    Lib.memcpy_eq _ _ (by omega) (show 0 + len.toNat ≤ _ by omega)
  have hstored : (overwrite ring.buffer pos.toNat (slice buffer 0 len.toNat)).length =
      ring.buffer.length :=
    Lib.length_overwrite (by rw [Lib.length_slice (by omega)]; omega)
  have hsecond : memcpy (overwrite ring.buffer pos.toNat (slice buffer 0 len.toNat)) 0 buffer
      len.toNat (n - len).toNat = some
      (Lib.copyIn ring.buffer pos.toNat (buffer.take n.toNat)) := by
    rw [← copies_in, ← hlen, ← hsub]
    exact Lib.memcpy_eq _ _ (show 0 + (n - len).toNat ≤ _ by omega) (by omega)
  have htake : (buffer.take n.toNat).length = n.toNat := by
    rw [List.length_take]
    omega
  refine ⟨n, { ring with buffer := Lib.copyIn ring.buffer pos.toNat (buffer.take n.toNat)
                         inn := ring.inn + n }, ?_, hn, rfl, h.pow, ?_, ?_, ?_, ?_⟩
  · rw [ckfifoPut, Ckfifo.put]
    simp only [hm, hpos, hl, hfirst, Option.bind_some, hsecond, Option.map_some]
  · exact (Lib.length_copyIn hplace (by omega)).trans hlength
  · rw [List.length_append, htake]
    exact h.toNat_add_used (by omega)
  · rw [List.length_append, htake]
    show _ ≤ ring.size.toNat
    omega
  · have hat : pos.toNat = (ring.out.toNat + q.length) % ring.buffer.length := by
      rw [hand, h.inn_mod, hlength]
    have hwin := Lib.window_copyIn (m := q.length) ring.out.toNat
      (by rw [hlength]; exact h.size_pos) (show q.length + (buffer.take n.toNat).length ≤
        ring.buffer.length by rw [htake]; omega)
    rw [h.bytes, ← hat] at hwin
    rw [List.length_append]
    exact hwin

/-- Two copies into a buffer, one behind the other. -/
theorem overwrite_overwrite (dst a b : List UInt8) :
    overwrite (overwrite dst 0 a) a.length b = overwrite dst 0 (a ++ b) := by
  rw [overwrite, overwrite, overwrite, List.take_zero, List.nil_append, List.nil_append,
    List.take_left, Nat.zero_add, Nat.zero_add, List.length_append,
    ← List.drop_drop, List.drop_left, List.drop_drop]

theorem get_spec (h : Holds ring q) {buffer : List UInt8} {size : UInt32}
    (hsize : size.toNat ≤ buffer.length) : ∃ n ring',
      ckfifoGet ring buffer size = some (n, overwrite buffer 0 (q.take n.toNat), ring') ∧
      n.toNat = min size.toNat q.length ∧ ring'.size = ring.size ∧
      Holds ring' (q.drop n.toNat) := by
  have hn : (min size (ring.inn - ring.out)).toNat = min size.toNat q.length := by
    rw [toNat_min, h.used]
  generalize hm : min size (ring.inn - ring.out) = n at hn
  have hplace := h.place_lt ring.out
  have hlen : (min n (ring.size - (ring.out &&& (ring.size - 1)))).toNat =
      min n.toNat (ring.buffer.length - (ring.out &&& (ring.size - 1)).toNat) := by
    rw [toNat_min, h.toNat_rest]
  have hand := h.toNat_and ring.out
  generalize hpos : ring.out &&& (ring.size - 1) = pos at hplace hlen hand
  generalize hl : min n (ring.size - pos) = len at hlen
  have hsub : (n - len).toNat = n.toNat - len.toNat :=
    UInt32.toNat_sub_of_le _ _ (UInt32.le_iff_toNat_le.mpr (by omega))
  have hlength := h.length
  have hfits := h.fits
  have hslice : (slice ring.buffer pos.toNat len.toNat).length = len.toNat :=
    Lib.length_slice (by omega)
  have hfirst : memcpy buffer 0 ring.buffer pos.toNat len.toNat =
      some (overwrite buffer 0 (slice ring.buffer pos.toNat len.toNat)) :=
    Lib.memcpy_eq _ _ (show 0 + len.toNat ≤ _ by omega) (by omega)
  have hbuffer : (overwrite buffer 0 (slice ring.buffer pos.toNat len.toNat)).length =
      buffer.length := Lib.length_overwrite (by omega)
  have hout : slice ring.buffer pos.toNat len.toNat ++ slice ring.buffer 0 (n - len).toNat =
      q.take n.toNat := by
    have hcopy := Lib.copyOut_eq (n := n.toNat) hplace (by omega)
    rw [Lib.copyOut, ← hlen, ← hsub, hand, ← hlength, Lib.window_mod] at hcopy
    rw [hand, ← hlength, hcopy, ← Lib.window_take (m := q.length) _ _ (by omega), h.bytes]
  have hsecond : memcpy (overwrite buffer 0 (slice ring.buffer pos.toNat len.toNat)) len.toNat
      ring.buffer 0 (n - len).toNat = some (overwrite buffer 0 (q.take n.toNat)) := by
    have hslice' : (slice ring.buffer 0 (n - len).toNat).length = (n - len).toNat :=
      Lib.length_slice (by omega)
    rw [← hout, ← overwrite_overwrite, hslice]
    exact Lib.memcpy_eq _ _ (by omega) (show 0 + (n - len).toNat ≤ _ by omega)
  have hget : ckfifoGet ring buffer size = some (n, overwrite buffer 0 (q.take n.toNat),
      if ring.inn = ring.out + n then { ring with inn := 0, out := 0 }
      else { ring with out := ring.out + n }) := by
    rw [ckfifoGet, Ckfifo.get]
    simp only [hm, hpos, hl, hfirst, Option.bind_some, hsecond, Option.map_some]
  refine ⟨n, _, hget, hn, ?_, ?_⟩
  · split
    · rfl
    · rfl
  · have hused := h.toNat_sub_used (x := n) (by omega)
    split
    · rename_i heq
      rw [heq, UInt32.sub_self] at hused
      have hzero : (0 : UInt32).toNat = 0 := rfl
      have hnil : q.drop n.toNat = [] := List.drop_eq_nil_of_le (by omega)
      rw [hnil]
      exact ⟨h.pow, h.length, (by decide : ((0 : UInt32) - 0).toNat = 0), Nat.zero_le _, rfl⟩
    · refine ⟨h.pow, h.length, ?_, ?_, ?_⟩
      · rw [List.length_drop]
        exact hused
      · rw [List.length_drop]
        show _ ≤ ring.size.toNat
        omega
      · have hwin := Lib.window_drop ring.buffer ring.out.toNat (n := n.toNat) (m := q.length)
          (by omega) (by omega)
        have hmod : (ring.out + n).toNat % ring.buffer.length =
            (ring.out.toNat + n.toNat) % ring.buffer.length := by
          rw [UInt32.toNat_add, hlength, h.mod_size]
        rw [h.bytes, ← Lib.window_mod, ← hmod, Lib.window_mod] at hwin
        rw [List.length_drop]
        exact hwin

/-- One call on the ring is the call on the queue. -/
theorem call (h : Holds ring q) {op : Op} (hop : op.Fits) : ∃ ring',
    ring.call op = some ((Bounded.call ring.size.toNat q op).1, ring') ∧ ring'.size = ring.size ∧
      Holds ring' (Bounded.call ring.size.toNat q op).2 := by
  cases op with
  | put buffer size =>
    obtain ⟨n, ring', heq, hn, hsize, hring⟩ := h.put_spec hop
    refine ⟨ring', ?_, hsize, ?_⟩
    · rw [Ckfifo.call, heq, Option.map_some, Bounded.call, hn]
    · rw [Bounded.call, ← hn]
      exact hring
  | get buffer size =>
    obtain ⟨n, ring', heq, hn, hsize, hring⟩ := h.get_spec hop
    refine ⟨ring', ?_, hsize, ?_⟩
    · rw [Ckfifo.call, heq, Option.map_some, Bounded.call, hn]
    · rw [Bounded.call, ← hn]
      exact hring
  | len =>
    refine ⟨ring, ?_, rfl, h⟩
    rw [Ckfifo.call, ckfifoLen, Ckfifo.len, h.used, Bounded.call]

/-- Calls on the ring are the calls on the queue. -/
theorem calls (ops : List Op) : ∀ {ring : Ckfifo} {q : List UInt8}, Holds ring q →
    (∀ op ∈ ops, op.Fits) → ∃ ring',
      ring.calls ops = some ((Bounded.calls ring.size.toNat q ops).1, ring') ∧
      ring'.size = ring.size ∧ Holds ring' (Bounded.calls ring.size.toNat q ops).2 := by
  induction ops with
  | nil => exact fun h _ => ⟨_, rfl, rfl, h⟩
  | cons op ops ih =>
    intro ring q h hops
    obtain ⟨ring₁, heq₁, hsize₁, h₁⟩ := h.call (hops op List.mem_cons_self)
    obtain ⟨ring₂, heq₂, hsize₂, h₂⟩ := ih h₁ fun o ho => hops o (List.mem_cons_of_mem _ ho)
    rw [hsize₁] at heq₂ h₂ hsize₂
    refine ⟨ring₂, ?_, hsize₂, h₂⟩
    rw [Ckfifo.calls, heq₁, Option.bind_some, heq₂]
    rfl

end Holds

/-- A ring that was just made. -/
theorem holds_ckfifoInit {k : Nat} (hk : k ≤ 31) {buffer : List UInt8}
    (hbuf : buffer.length = 2 ^ k) :
    ∃ ring, ckfifoInit (some buffer) (UInt32.ofNat (2 ^ k)) true = some ring ∧
      ring.size.toNat = 2 ^ k ∧ Holds ring [] := by
  have hsize : (UInt32.ofNat (2 ^ k)).toNat = 2 ^ k := by
    refine UInt32.toNat_ofNat_of_lt' ?_
    exact Nat.lt_of_le_of_lt (Nat.pow_le_pow_right (by decide) hk) (by decide)
  have hpow : isPowerof2 (UInt32.ofNat (2 ^ k)).toBitVec = true :=
    (isPowerof2_iff _).mpr ⟨k, hsize⟩
  refine ⟨⟨buffer, UInt32.ofNat (2 ^ k), 0, 0⟩, ?_, hsize, ⟨k, hk, hsize⟩, ?_, ?_,
    Nat.zero_le _, rfl⟩
  · rw [ckfifoInit, if_pos ⟨hpow, rfl⟩]
  · exact hbuf.trans hsize.symm
  · exact (by decide : ((0 : UInt32) - 0).toNat = 0)

/-- **The ring buffer is a bounded queue.**  For every size that is a power of two and any calls,
each with a buffer that is as long as it says, no copy leaves a buffer, the calls give what they
give on a queue of that size, and the ring holds the bytes of that queue in the end. -/
theorem ckfifo_refines {k : Nat} (hk : k ≤ 31) {buffer : List UInt8}
    (hbuf : buffer.length = 2 ^ k) :
    ∃ ring, ckfifoInit (some buffer) (UInt32.ofNat (2 ^ k)) true = some ring ∧
      ∀ ops : List Op, (∀ op ∈ ops, op.Fits) → ∃ ring',
        ring.calls ops = some ((Bounded.calls (2 ^ k) [] ops).1, ring') ∧
        (ckfifoLen ring').toNat = (Bounded.calls (2 ^ k) [] ops).2.length ∧
        (Bounded.calls (2 ^ k) [] ops).2.length ≤ 2 ^ k ∧
        window ring'.buffer ring'.out.toNat (ckfifoLen ring').toNat =
          (Bounded.calls (2 ^ k) [] ops).2 := by
  obtain ⟨ring, hinit, hsize, h⟩ := holds_ckfifoInit hk hbuf
  refine ⟨ring, hinit, fun ops hops => ?_⟩
  obtain ⟨ring', heq, hsize', h'⟩ := h.calls ops hops
  rw [hsize] at heq h'
  have hfits := h'.fits
  rw [hsize', hsize] at hfits
  refine ⟨ring', heq, h'.used, hfits, ?_⟩
  rw [ckfifoLen, Ckfifo.len, h'.used, h'.bytes]

/-- Three bytes are put into a ring of four, two are taken, and two more go around its end. -/
theorem ckfifo_refines_example : ∃ ring, ckfifoInit (some [0, 0, 0, 0]) 4 true = some ring ∧
    ∃ ring', ring.calls [.put [1, 2, 3] 3, .get [0, 0] 2, .put [4, 5, 6, 7] 4, .len] =
      some ([.put 3, .get 2 [1, 2], .put 3, .len 4], ring') := by
  obtain ⟨ring, hinit, h⟩ := ckfifo_refines (k := 2) (by decide)
    (show [0, 0, 0, 0].length = 2 ^ 2 from rfl)
  obtain ⟨ring', heq, -⟩ := h [.put [1, 2, 3] 3, .get [0, 0] 2, .put [4, 5, 6, 7] 4, .len] (by
    intro op hop
    simp only [List.mem_cons, List.not_mem_nil, or_false] at hop
    rcases hop with rfl | rfl | rfl | rfl
    · exact (by decide : 3 ≤ 3)
    · exact (by decide : 2 ≤ 2)
    · exact (by decide : 4 ≤ 4)
    · exact trivial)
  exact ⟨ring, hinit, ring', heq⟩

end Cfifo

end LibNax
