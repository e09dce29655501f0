import LibNax.Hash.Md5

/-!
# Where MD5 reads

The loop of `md5_update` goes on while `i + 63 < inputLen`.  The sum is taken in 32 bits: close to
the end of the largest pieces it becomes small again, and the loop starts over from where it began.

* `md5Reads` — the ranges of the input that `md5_update` reads, and how many bytes it leaves in the
  buffer; `md5Update_congr` — nothing else of the input matters.
* `md5LoopReads_some` and `md5LoopReads_none` — the loop that ends, and the one that does not.
* `staysInside_iff` — the pieces that are read to their end and not behind it.
-/

set_option autoImplicit false

namespace LibNax

namespace Hash

open Lib (slice)

open Rfc1321 (Words)

/-! ## What is read -/

/-- The loop of `md5_update` without the rounds: the ranges that are read, as an offset and a
length, and the last `i`. -/
def md5LoopReads (inputLen : UInt32) : Nat → UInt32 → Option (List (Nat × Nat) × UInt32)
  | 0, _ => none
  | rounds + 1, i =>
    if i + 63 < inputLen then
      (md5LoopReads inputLen rounds (i + 64)).map fun r => ((i.toNat, 64) :: r.1, r.2)
    else some ([], i)

/-- `md5_update` without the rounds: the ranges that are read, and how many bytes the buffer holds
at the end. -/
def md5Reads (rounds : Nat) (index inputLen : UInt32) : Option (List (Nat × Nat) × Nat) :=
  let partLen := 64 - index
  if inputLen ≥ partLen then
    (md5LoopReads inputLen rounds partLen).map fun r =>
      ((0, partLen.toNat) :: (r.1 ++ [(r.2.toNat, (inputLen - r.2).toNat)]),
        0 + (inputLen - r.2).toNat)
  else some ([(0, inputLen.toNat)], index.toNat + inputLen.toNat)

/-- The two loops go the same way. -/
theorem md5Loop_snd (input : List UInt8) (inputLen : UInt32) (rounds : Nat) (state : Words)
    (i : UInt32) : (md5Loop input inputLen rounds state i).map Prod.snd =
      (md5LoopReads inputLen rounds i).map Prod.snd := by
  induction rounds generalizing state i with
  | zero => rfl
  | succ rounds ih =>
    rw [md5Loop, md5LoopReads]
    split
    · rw [ih, Option.map_map]
      rfl
    · rfl

theorem exists_md5Loop {inputLen : UInt32} {rounds : Nat} {i : UInt32}
    {r : List (Nat × Nat) × UInt32} (hr : md5LoopReads inputLen rounds i = some r)
    (input : List UInt8) (state : Words) :
    ∃ state', md5Loop input inputLen rounds state i = some (state', r.2) := by
  have hsame := md5Loop_snd input inputLen rounds state i
  rw [hr, Option.map_some, Option.map_eq_some_iff] at hsame
  obtain ⟨⟨state', i'⟩, hloop, rfl⟩ := hsame
  exact ⟨state', hloop⟩

theorem md5Loop_eq_none {inputLen : UInt32} {rounds : Nat} {i : UInt32}
    (hnone : md5LoopReads inputLen rounds i = none) (input : List UInt8) (state : Words) :
    md5Loop input inputLen rounds state i = none := by
  have hsame := md5Loop_snd input inputLen rounds state i
  rwa [hnone, Option.map_none, Option.map_eq_none_iff] at hsame

/-- A call whose reads come to an end returns. -/
theorem exists_md5Update (ctx : Md5Ctx) (input : List UInt8) {inputLen : UInt32}
    {r : List (Nat × Nat) × Nat} (hr : md5Reads (2 ^ 26) ctx.index inputLen = some r) :
    ∃ ctx', md5Update ctx input inputLen = some ctx' := by
  by_cases hfull : inputLen ≥ 64 - ctx.index
  · rw [md5Reads, if_pos hfull, Option.map_eq_some_iff] at hr
    obtain ⟨reads, hreads, -⟩ := hr
    obtain ⟨state', hloop⟩ := exists_md5Loop hreads input (md5Ransform ctx.state
      (md5Memcpy ctx.buffer ctx.index.toNat input 0 (64 - ctx.index).toNat))
    obtain ⟨ctx', hupdate, -⟩ := md5Update_full hfull rfl hloop
    exact ⟨ctx', hupdate⟩
  · obtain ⟨ctx', hupdate, -⟩ := md5Update_short input hfull
    exact ⟨ctx', hupdate⟩

section Same

variable {input input' : List UInt8}

theorem md5Memcpy_congr (output : List UInt8) (index : Nat) {i len : Nat}
    (h : slice input i len = slice input' i len) :
    md5Memcpy output index input i len = md5Memcpy output index input' i len := by
  have hget : ∀ j < len, input.getD (i + j) 0 = input'.getD (i + j) 0 := by
    intro j hj
    have hj' := congrArg (fun l : List UInt8 => l[j]?) h
    simp only [slice, List.getElem?_take, if_pos hj, List.getElem?_drop] at hj'
    rw [List.getD_eq_getElem?_getD, List.getD_eq_getElem?_getD, hj']
  rw [md5Memcpy, md5Memcpy]
  refine List.foldl_ext _ _ _ fun output j hj => ?_
  rw [hget j (List.mem_range.mp hj)]

theorem md5Loop_congr {inputLen : UInt32} {rounds : Nat} {i : UInt32}
    {r : List (Nat × Nat) × UInt32} (hr : md5LoopReads inputLen rounds i = some r)
    (h : ∀ x ∈ r.1, slice input x.1 x.2 = slice input' x.1 x.2) (state : Words) :
    md5Loop input inputLen rounds state i = md5Loop input' inputLen rounds state i := by
  induction rounds generalizing state i r with
  | zero => rfl
  | succ rounds ih =>
    rw [md5LoopReads] at hr
    rw [md5Loop, md5Loop]
    split
    · rename_i hlt
      rw [if_pos hlt, Option.map_eq_some_iff] at hr
      obtain ⟨r, hr, rfl⟩ := hr
      rw [h (i.toNat, 64) List.mem_cons_self]
      exact ih hr (fun x hx => h x (List.mem_cons_of_mem _ hx)) _
    · rfl

/-- **Nothing of the input matters but what is read.** -/
theorem md5Update_congr (ctx : Md5Ctx) {inputLen : UInt32} {r : List (Nat × Nat) × Nat}
    (hr : md5Reads (2 ^ 26) ctx.index inputLen = some r)
    (h : ∀ x ∈ r.1, slice input x.1 x.2 = slice input' x.1 x.2) :
    md5Update ctx input inputLen = md5Update ctx input' inputLen := by
  rw [md5Reads] at hr
  rw [md5Update, md5Update]
  split
  · rename_i hge
    rw [if_pos hge, Option.map_eq_some_iff] at hr
    obtain ⟨⟨reads, last⟩, hr, rfl⟩ := hr
    have hfill := md5Memcpy_congr ctx.buffer ctx.index.toNat (h _ List.mem_cons_self)
    have hrest := fun output => md5Memcpy_congr output 0
      (h (last.toNat, (inputLen - last).toNat) (by simp))
    have hloop := md5Loop_congr hr
      fun x hx => h x (List.mem_cons_of_mem _ (List.mem_append_left _ hx))
    obtain ⟨state', hstate'⟩ := exists_md5Loop hr input' (md5Ransform ctx.state
      (md5Memcpy ctx.buffer ctx.index.toNat input' 0 (64 - ctx.index).toNat))
    simp only [hfill, hloop, hstate', hrest]
  · rename_i hlt
    rw [if_neg hlt] at hr
    obtain rfl := Option.some.inj hr
    have hfill := md5Memcpy_congr ctx.buffer ctx.index.toNat (h _ List.mem_cons_self)
    simp only [hfill]

end Same

/-! ## The loop that ends -/

section Bounds

variable {inputLen : UInt32}

/-- The test of the loop, with the sum in 32 bits. -/
theorem add_lt_iff (i inputLen : UInt32) :
    i + 63 < inputLen ↔ (i.toNat + 63) % 2 ^ 32 < inputLen.toNat := by
  rw [UInt32.lt_iff_toNat_lt, UInt32.toNat_add]
  rfl

theorem toNat_next (i : UInt32) : (i + 64).toNat = (i.toNat + 64) % 2 ^ 32 := UInt32.toNat_add i 64

/-- Where the sum stays in its range, the loop reads block after block, and less than a block is
left. -/
theorem md5LoopReads_some {p : Nat} (hp : p ≤ 64) (hlen : inputLen.toNat + 64 < 2 ^ 32 + p)
    (rounds : Nat) {i : UInt32} (hi : i.toNat % 64 = p % 64) (hle : i.toNat ≤ inputLen.toNat)
    (hrounds : (inputLen.toNat - i.toNat) / 64 < rounds) :
    ∃ reads last, md5LoopReads inputLen rounds i = some (reads, last) ∧
      (∀ x ∈ reads, x.1 + x.2 ≤ inputLen.toNat) ∧ last.toNat ≤ inputLen.toNat ∧
        inputLen.toNat < last.toNat + 64 := by
  have hmax := inputLen.toNat_lt
  induction rounds generalizing i with
  | zero => exact absurd hrounds (Nat.not_lt_zero _)
  | succ rounds ih =>
    have hin : i.toNat + 63 < 2 ^ 32 := by omega
    rw [md5LoopReads]
    by_cases hlt : i + 63 < inputLen
    · rw [add_lt_iff, Nat.mod_eq_of_lt hin] at hlt
      have hnext : (i + 64).toNat = i.toNat + 64 := by
        rw [toNat_next]
        omega
      obtain ⟨reads, last, hreads, hall, hlast⟩ := ih (i := i + 64) (by omega) (by omega) (by omega)
      rw [if_pos (by rwa [add_lt_iff, Nat.mod_eq_of_lt hin]), hreads, Option.map_some]
      refine ⟨_, last, rfl, fun x hx => ?_, hlast⟩
      rcases List.mem_cons.mp hx with rfl | hx
      · show i.toNat + 64 ≤ inputLen.toNat
        omega
      · exact hall x hx
    · refine ⟨[], i, by rw [if_neg hlt], fun x hx => (List.not_mem_nil hx).elim, hle, ?_⟩
      rw [add_lt_iff, Nat.mod_eq_of_lt hin] at hlt
      omega

/-- Where it does not, every place that the loop gets to passes the test. -/
theorem md5LoopReads_none {p : Nat} (hpos : 0 < p) (hp : p < 64)
    (hlen : 2 ^ 32 + p ≤ inputLen.toNat + 64) (rounds : Nat) {i : UInt32}
    (hi : i.toNat % 64 = p) :
    md5LoopReads inputLen rounds i = none := by
  have hmax := inputLen.toNat_lt
  induction rounds generalizing i with
  | zero => rfl
  | succ rounds ih =>
    have hin := i.toNat_lt
    have hlt : i + 63 < inputLen := by
      rw [add_lt_iff]
      omega
    have hnext : (i + 64).toNat % 64 = p := by
      rw [toNat_next]
      omega
    rw [md5LoopReads, if_pos hlt, ih hnext, Option.map_none]

theorem index_lt (ctx : Md5Ctx) : ctx.index.toNat < 64 := by
  rw [Md5Ctx.index, UInt32.toNat_and]
  exact Nat.lt_of_le_of_lt Nat.and_le_right (by decide)

theorem toNat_partLen (ctx : Md5Ctx) : (64 - ctx.index).toNat = 64 - ctx.index.toNat := by
  have hlt := index_lt ctx
  have hle : ctx.index ≤ 64 := UInt32.le_iff_toNat_le.mpr (Nat.le_of_lt hlt)
  rw [UInt32.toNat_sub_of_le _ _ hle]
  rfl

/-- What is asked of `md5_update`: it returns, reads nothing behind the piece, and leaves less than
a block in the buffer. -/
structure StaysInside (ctx : Md5Ctx) (inputLen : UInt32) : Prop where
  returns : ∀ input, ∃ ctx', md5Update ctx input inputLen = some ctx'
  reads : ∃ rounds reads held, md5Reads rounds ctx.index inputLen = some (reads, held) ∧
    (∀ x ∈ reads, x.1 + x.2 ≤ inputLen.toNat) ∧ held < 64

theorem exists_md5Reads {ctx : Md5Ctx} (h : ctx.index.toNat + inputLen.toNat < 2 ^ 32) :
    ∃ reads held, md5Reads (2 ^ 26) ctx.index inputLen = some (reads, held) ∧
      (∀ x ∈ reads, x.1 + x.2 ≤ inputLen.toNat) ∧ held < 64 := by
  have hindex := index_lt ctx
  have hpart := toNat_partLen ctx
  have hmax := inputLen.toNat_lt
  rw [md5Reads]
  by_cases hfull : inputLen ≥ 64 - ctx.index
  · have hle : 64 - ctx.index.toNat ≤ inputLen.toNat := by
      rwa [ge_iff_le, UInt32.le_iff_toNat_le, hpart] at hfull
    have hstart : (64 - ctx.index).toNat % 64 = (64 - ctx.index.toNat) % 64 := by rw [hpart]
    have hlen : inputLen.toNat + 64 < 2 ^ 32 + (64 - ctx.index.toNat) := by omega
    obtain ⟨reads, last, hreads, hall, hlast, hless⟩ := md5LoopReads_some (Nat.sub_le _ _) hlen
      (2 ^ 26) hstart (by omega) (by omega)
    have hrest : (inputLen - last).toNat = inputLen.toNat - last.toNat :=
      UInt32.toNat_sub_of_le _ _ (UInt32.le_iff_toNat_le.mpr hlast)
    rw [if_pos hfull, hreads, Option.map_some]
    have hheld : 0 + (inputLen - last).toNat < 64 := by omega
    refine ⟨_, _, rfl, fun x hx => ?_, hheld⟩
    rcases List.mem_cons.mp hx with rfl | hx
    · show 0 + (64 - ctx.index).toNat ≤ inputLen.toNat
      omega
    · rcases List.mem_append.mp hx with hx | hx
      · exact hall x hx
      · obtain rfl := List.mem_singleton.mp hx
        show last.toNat + (inputLen - last).toNat ≤ inputLen.toNat
        omega
  · have hlt : inputLen.toNat < 64 - ctx.index.toNat := by
      rw [ge_iff_le, UInt32.le_iff_toNat_le, hpart] at hfull
      omega
    rw [if_neg hfull]
    refine ⟨_, _, rfl, fun x hx => ?_, by omega⟩
    obtain rfl := List.mem_singleton.mp hx
    show 0 + inputLen.toNat ≤ inputLen.toNat
    omega

/-- **The pieces that are read to their end and not behind it**: those that end, counted from the
start of the block, in front of `2 ^ 32`. -/
theorem staysInside_iff (ctx : Md5Ctx) (inputLen : UInt32) :
    StaysInside ctx inputLen ↔ ctx.index.toNat + inputLen.toNat < 2 ^ 32 := by
  constructor
  · rintro ⟨-, rounds, reads, held, hreads, -⟩
    by_contra hlong
    have hindex := index_lt ctx
    have hpart := toNat_partLen ctx
    have hmax := inputLen.toNat_lt
    have hfull : inputLen ≥ 64 - ctx.index := by
      rw [ge_iff_le, UInt32.le_iff_toNat_le]
      omega
    rw [md5Reads, if_pos hfull, md5LoopReads_none (p := 64 - ctx.index.toNat) (by omega) (by omega)
      (by omega) rounds (by omega)] at hreads
    cases hreads
  · intro h
    obtain ⟨reads, held, hreads, hinside⟩ := exists_md5Reads h
    exact ⟨fun input => exists_md5Update ctx input hreads, 2 ^ 26, reads, held, hreads, hinside⟩

/-- A context that holds one byte. -/
def oneByte : Md5Ctx := { md5Init Md5Ctx.zero with count0 := 8 }

/-- A piece of `2 ^ 32 - 1` bytes behind one byte: the loop never ends. -/
theorem staysInside_not :
    (∀ (input : List UInt8) (rounds : Nat) (state : Words),
      md5Loop input 0xFFFFFFFF rounds state (64 - oneByte.index) = none) ∧
      ¬StaysInside oneByte 0xFFFFFFFF := by
  have hnone : ∀ rounds, md5LoopReads 0xFFFFFFFF rounds (64 - oneByte.index) = none := fun rounds =>
    md5LoopReads_none (p := 63) (by decide) (by decide) (by decide) rounds (by decide)
  refine ⟨fun input rounds state => md5Loop_eq_none (hnone rounds) input state, ?_⟩
  rintro ⟨-, rounds, reads, held, hreads, -⟩
  rw [md5Reads, if_pos (by decide), hnone rounds] at hreads
  cases hreads

end Bounds

end Hash

end LibNax
