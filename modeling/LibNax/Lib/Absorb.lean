import LibNax.Lib.Bytes

/-!
# Compression block by block

A hash that works on blocks takes a message in pieces of any size.  What it keeps between two pieces
is the state after the whole blocks so far and the bytes behind them, which do not fill a block yet.

* `absorb` — the state after the whole blocks of a message; `pending` — the bytes behind them.
* `absorb_append`, `pending_append` — a message that goes on: only what was pending matters.
* `absorb_fill`, `pending_fill` — the first block of what goes on.
-/

set_option autoImplicit false

namespace LibNax

namespace Lib

variable {σ α : Type} {compress : σ → List α → σ} {k : Nat}

/-- The state after `n` blocks of `k` elements. -/
def absorbBlocks (compress : σ → List α → σ) (k : Nat) : Nat → σ → List α → σ
  | 0, s, _ => s
  | n + 1, s, x => absorbBlocks compress k n (compress s (x.take k)) (x.drop k)

/-- The state after the whole blocks of a message. -/
def absorb (compress : σ → List α → σ) (k : Nat) (s : σ) (x : List α) : σ :=
  absorbBlocks compress k (x.length / k) s x

/-- The elements behind the whole blocks of a message. -/
def pending (k : Nat) (x : List α) : List α := x.drop (k * (x.length / k))

theorem length_pending (k : Nat) (x : List α) : (pending k x).length = x.length % k := by
  rw [pending, List.length_drop]
  have := Nat.div_add_mod x.length k
  omega

theorem absorb_of_lt (s : σ) {x : List α} (h : x.length < k) : absorb compress k s x = s := by
  rw [absorb, Nat.div_eq_of_lt h, absorbBlocks]

theorem pending_of_lt {x : List α} (h : x.length < k) : pending k x = x := by
  rw [pending, Nat.div_eq_of_lt h, Nat.mul_zero, List.drop_zero]

/-- The first block of a message. -/
theorem absorb_step (hk : 0 < k) (s : σ) {x : List α} (h : k ≤ x.length) :
    absorb compress k s x = absorb compress k (compress s (x.take k)) (x.drop k) := by
  have hdiv : x.length / k = (x.drop k).length / k + 1 := by
    rw [List.length_drop, Nat.div_eq_sub_div hk h]
  rw [absorb, hdiv, absorbBlocks, absorb]

theorem pending_step (hk : 0 < k) {x : List α} (h : k ≤ x.length) :
    pending k x = pending k (x.drop k) := by
  have hdiv : x.length / k = (x.drop k).length / k + 1 := by
    rw [List.length_drop, Nat.div_eq_sub_div hk h]
  rw [pending, hdiv, pending, List.drop_drop, Nat.mul_succ, Nat.add_comm]

/-- **A message that goes on.**  The state so far and what is pending are all that is needed. -/
theorem absorb_append (hk : 0 < k) (y : List α) : ∀ (s : σ) (x : List α),
    absorb compress k s (x ++ y) = absorb compress k (absorb compress k s x)
    (pending k x ++ y) := by
  intro s x
  induction hn : x.length using Nat.strongRecOn generalizing s x with
  | ind n ih =>
    by_cases h : x.length < k
    · rw [absorb_of_lt s h, pending_of_lt h]
    · have hle : k ≤ x.length := Nat.le_of_not_lt h
      have hlt : (x.drop k).length < n := by
        rw [List.length_drop]
        omega
      rw [absorb_step hk s (by rw [List.length_append]; omega), List.take_append_of_le_length hle,
        List.drop_append_of_le_length hle, ih _ hlt _ _ rfl, ← absorb_step hk s hle,
        ← pending_step hk hle]

theorem pending_append (hk : 0 < k) (y : List α) : ∀ x : List α,
    pending k (x ++ y) = pending k (pending k x ++ y) := by
  intro x
  induction hn : x.length using Nat.strongRecOn generalizing x with
  | ind n ih =>
    by_cases h : x.length < k
    · rw [pending_of_lt h]
    · have hle : k ≤ x.length := Nat.le_of_not_lt h
      have hlt : (x.drop k).length < n := by
        rw [List.length_drop]
        omega
      rw [pending_step hk (by rw [List.length_append]; omega), List.drop_append_of_le_length hle,
        ih _ hlt _ rfl, ← pending_step hk hle]

variable {p y : List α}

theorem take_append_fill (hp : p.length < k) : (p ++ y).take k = p ++ y.take (k - p.length) := by
  rw [List.take_append, List.take_of_length_le (Nat.le_of_lt hp)]

theorem drop_append_fill (hp : p.length < k) : (p ++ y).drop k = y.drop (k - p.length) := by
  rw [List.drop_append, List.drop_eq_nil_of_le (Nat.le_of_lt hp), List.nil_append]

/-- What was pending is filled up to a block. -/
theorem absorb_fill (s : σ) (hp : p.length < k) (h : k - p.length ≤ y.length) :
    absorb compress k s (p ++ y) =
      absorb compress k (compress s (p ++ y.take (k - p.length))) (y.drop (k - p.length)) := by
  rw [absorb_step (by omega) s (by rw [List.length_append]; omega), take_append_fill hp,
    drop_append_fill hp]

theorem pending_fill (hp : p.length < k) (h : k - p.length ≤ y.length) :
    pending k (p ++ y) = pending k (y.drop (k - p.length)) := by
  rw [pending_step (by omega) (by rw [List.length_append]; omega), drop_append_fill hp]

end Lib

end LibNax
