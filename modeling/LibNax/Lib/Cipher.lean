import LibNax.Lib.Bytes

/-!
# Steps that undo themselves, and blocks

Two things a block cipher rests on.  A sequence of steps of which each undoes itself is undone by
the same steps in the opposite order.  And what can be undone on one block can be undone block by
block.

* `undo_steps` — the first.
* `mapBlocks`, `mapBlocks_mapBlocks` — the second.
* `flatMap_slice`, `slice_flatMap` — a list and its blocks.
* `blockLoop` — a loop that works on a buffer block by block, and `blockLoop_eq` that it is a map.
-/

set_option autoImplicit false

namespace LibNax

namespace Lib

section Steps

variable {σ ι : Type} {P : σ → Prop} {step : ι → σ → σ}

/-- Steps, one after the other. -/
def steps (step : ι → σ → σ) (is : List ι) (s : σ) : σ := is.foldl (fun s i => step i s) s

@[simp] theorem steps_nil (s : σ) : steps step [] s = s := rfl

@[simp] theorem steps_cons (i : ι) (is : List ι) (s : σ) :
    steps step (i :: is) s = steps step is (step i s) :=
  rfl

theorem steps_append (is js : List ι) (s : σ) :
    steps step (is ++ js) s = steps step js (steps step is s) :=
  List.foldl_append

theorem steps_invariant (hP : ∀ i s, P s → P (step i s)) (is : List ι) :
    ∀ {s : σ}, P s → P (steps step is s) := by
  induction is with
  | nil => exact fun h => h
  | cons i is ih => exact fun h => ih (hP i _ h)

/-- **Steps that undo themselves are undone in the opposite order.** -/
theorem undo_steps (hP : ∀ i s, P s → P (step i s)) (hundo : ∀ i s, P s → step i (step i s) = s)
    (is : List ι) : ∀ {s : σ}, P s → steps step is.reverse (steps step is s) = s := by
  induction is with
  | nil => exact fun _ => rfl
  | cons i is ih =>
    intro s h
    have hlast : steps step is.reverse (steps step is (step i s)) = step i s := ih (hP i s h)
    rw [List.reverse_cons, steps_append]
    show step i (steps step is.reverse (steps step is (step i s))) = s
    rw [hlast, hundo i s h]

end Steps

section Blocks

variable {α : Type}

/-- A function on each of the first `n` blocks of `k` elements. -/
def mapBlocks (f : List α → List α) (k : Nat) : Nat → List α → List α
  | 0, _ => []
  | n + 1, x => f (x.take k) ++ mapBlocks f k n (x.drop k)

variable {f g : List α → List α} {k : Nat}

theorem length_mapBlocks (hf : ∀ b, b.length = k → (f b).length = k) : ∀ (n : Nat) (x : List α),
    x.length = k * n → (mapBlocks f k n x).length = k * n
  | 0, _, _ => rfl
  | n + 1, x, hx => by
    rw [Nat.mul_succ] at hx
    rw [mapBlocks, List.length_append, hf _ (by rw [List.length_take]; omega),
      length_mapBlocks hf n _ (by rw [List.length_drop]; omega), Nat.mul_succ, Nat.add_comm]

/-- **What can be undone on a block can be undone block by block.** -/
theorem mapBlocks_mapBlocks (hf : ∀ b, b.length = k → (f b).length = k)
    (hgf : ∀ b, b.length = k → g (f b) = b) : ∀ (n : Nat) (x : List α), x.length = k * n →
      mapBlocks g k n (mapBlocks f k n x) = x
  | 0, x, hx => (List.eq_nil_of_length_eq_zero hx).symm
  | n + 1, x, hx => by
    rw [Nat.mul_succ] at hx
    have htake : (x.take k).length = k := by rw [List.length_take]; omega
    have hdrop : (x.drop k).length = k * n := by rw [List.length_drop]; omega
    rw [mapBlocks, mapBlocks, List.take_left' (hf _ htake), List.drop_left' (hf _ htake),
      hgf _ htake, mapBlocks_mapBlocks hf hgf n _ hdrop, List.take_append_drop]

/-- The blocks of a list, put together again. -/
theorem flatMap_slice (l : List α) (k : Nat) : ∀ n : Nat,
    ((List.range n).flatMap fun c => slice l (k * c) k) = l.take (k * n)
  | 0 => by simp
  | n + 1 => by
    rw [List.range_succ, List.flatMap_append, flatMap_slice l k n, List.flatMap_singleton, slice,
      Nat.mul_succ, List.take_add]

/-- A block of a list that was put together. -/
theorem slice_flatMap {F : Nat → List α} {k : Nat} (hF : ∀ c, (F c).length = k) {c : Nat} :
    ∀ n : Nat, c < n → slice ((List.range n).flatMap F) (k * c) k = F c
  | 0, hc => absurd hc (Nat.not_lt_zero c)
  | n + 1, hc => by
    have hlen : ((List.range n).flatMap F).length = k * n := by
      rw [List.length_flatMap, List.map_congr_left fun c _ => hF c, List.map_const',
        List.sum_replicate_nat, List.length_range, Nat.mul_comm]
    rw [List.range_succ, List.flatMap_append, List.flatMap_singleton]
    rcases Nat.lt_or_eq_of_le (Nat.le_of_lt_succ hc) with hlt | rfl
    · have hle : k * c + k ≤ k * n := Nat.mul_succ k c ▸ Nat.mul_le_mul_left k hlt
      rw [slice, List.drop_append_of_le_length (by omega), List.take_append_of_le_length
        (by rw [List.length_drop]; omega)]
      exact slice_flatMap hF n hlt
    · rw [slice, List.drop_left' hlen, List.take_of_length_le (Nat.le_of_eq (hF c))]

/-- A loop over `n` blocks of the input, from an offset on, that writes each to the same place of
the output. -/
def blockLoop (f : List α → List α) (k : Nat) (input : List α) : Nat → Nat → List α → List α
  | 0, _, output => output
  | n + 1, offset, output =>
    blockLoop f k input n (offset + k) (overwrite output offset (f (slice input offset k)))

theorem blockLoop_eq (hf : ∀ b, b.length = k → (f b).length = k) (input : List α) :
    ∀ (n offset : Nat) (output : List α), offset + k * n ≤ input.length →
      offset + k * n ≤ output.length →
      blockLoop f k input n offset output =
        overwrite output offset (mapBlocks f k n (input.drop offset))
  | 0, offset, output, _, _ => by
    simp [blockLoop, mapBlocks, overwrite]
  | n + 1, offset, output, hin, hout => by
    rw [Nat.mul_succ] at hin hout
    have hlen : (f (slice input offset k)).length = k := hf _ (length_slice (by omega))
    have hsize : (overwrite output offset (f (slice input offset k))).length = output.length :=
      length_overwrite (by omega)
    have happend : overwrite (overwrite output offset (f (slice input offset k)))
        (offset + (f (slice input offset k)).length) (mapBlocks f k n (input.drop (offset + k))) =
          overwrite output offset (f (slice input offset k) ++
            mapBlocks f k n (input.drop (offset + k))) :=
      overwrite_overwrite (by omega) _
    rw [hlen] at happend
    rw [blockLoop, blockLoop_eq hf input n (offset + k) _ (by omega) (by omega), happend, mapBlocks,
      List.drop_drop, slice]

end Blocks

end Lib

end LibNax
