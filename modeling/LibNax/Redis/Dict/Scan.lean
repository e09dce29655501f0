import LibNax.Lib.Cursor
import LibNax.Redis.Dict.Map

/-!
# Scanning

`dictScan` keeps nothing between two calls but a cursor, and the dictionary may change as it likes
from one call to the next, its tables included.  It still returns everything that stays.

* `rev`, `dictScan` — the functions.
* `rev_eq` — the loop over halves, quarters and so on reverses the bits.
* `dictScan_spec` — one call emits what is between the cursor and the next one, in the order of the
  reversed bits.
* `scan_complete` — a key that is there at every call is emitted.
* `scan_ends` — and how many calls that takes.

What is emitted is the list of the entries that `fn` is called with; `bucketfn` is left out, and so
is what the callback may do to the dictionary while rehashing is paused.
-/

set_option autoImplicit false

namespace LibNax

namespace Redis

open Lib

variable {κ ν : Type}

/-! ## The functions -/

/-- The loop of `rev`, which seven rounds always end. -/
def revLoop : ℕ → ℕ → BitVec 64 → BitVec 64 → BitVec 64
  | 0, _, _, v => v
  | rounds + 1, s, mask, v =>
    let s := s >>> 1
    if 0 < s then
      let mask := mask ^^^ (mask <<< s)
      revLoop rounds s mask (((v >>> s) &&& mask) ||| ((v <<< s) &&& ~~~mask))
    else v

/-- `rev`. -/
def rev (v : BitVec 64) : BitVec 64 := revLoop 7 64 (BitVec.allOnes 64) v

/-- The cursor with the unmasked bits set, incremented from the other end. -/
def incrementCursor (v m : BitVec 64) : BitVec 64 := rev (rev (v ||| ~~~m) + 1)

/-- The mask of a table as the machine has it. -/
def maskOf (ht : Dictht κ ν) : BitVec 64 := BitVec.ofNat 64 ht.sizemask

/-- What is emitted from the bucket at the cursor. -/
def scanBucket (ht : Dictht κ ν) (v : BitVec 64) : Option (List (DictEntry κ ν)) :=
  ht.table[(v &&& maskOf ht).toNat]?

/-- The loop of `dictScan` over the larger table. -/
def scanExpansions (t1 : Dictht κ ν) (m0 m1 : BitVec 64) :
    ℕ → BitVec 64 → Option (BitVec 64 × List (DictEntry κ ν))
  | 0, _ => none
  | fuel + 1, v => do
    let emitted ← scanBucket t1 v
    let v := incrementCursor v m1
    if v &&& (m0 ^^^ m1) = 0#64 then return (v, emitted)
    else
      let (v, rest) ← scanExpansions t1 m0 m1 fuel v
      return (v, emitted ++ rest)

/-- `dictScan`: the cursor for the next call, and what has been emitted. -/
def dictScan (d : Dict κ ν) (v : BitVec 64) :
    Option (Dict κ ν × BitVec 64 × List (DictEntry κ ν)) :=
  if dictSize d = 0 then some (d, 0#64, [])
  else
    let d := dictPauseRehashing d
    if !dictIsRehashing d then do
      let t0 := d.ht0
      let emitted ← scanBucket t0 v
      return (dictResumeRehashing d, incrementCursor v (maskOf t0), emitted)
    else do
      let (t0, t1) := if d.ht0.size > d.ht1.size then (d.ht1, d.ht0) else (d.ht0, d.ht1)
      let emitted ← scanBucket t0 v
      let (v, rest) ← scanExpansions t1 (maskOf t0) (maskOf t1) t1.size v
      return (dictResumeRehashing d, v, emitted ++ rest)

/-! ## Reversing the bits -/

/-- One round exchanges neighbouring blocks of `2 ^ n` bits. -/
theorem getLsbD_round {v mask : BitVec 64} {n : ℕ} (hn : n < 6)
    (hmask : ∀ i < 64, mask.getLsbD i = decide (i / 2 ^ n % 2 = 0)) {i : ℕ} (hi : i < 64) :
    (((v >>> 2 ^ n) &&& mask) ||| ((v <<< 2 ^ n) &&& ~~~mask)).getLsbD i =
      v.getLsbD (i ^^^ 2 ^ n) := by
  have hxor : ∀ n < 6, ∀ i < 64,
      i ^^^ 2 ^ n = if i / 2 ^ n % 2 = 0 then 2 ^ n + i else i - 2 ^ n := by decide
  rw [BitVec.getLsbD_or, BitVec.getLsbD_and, BitVec.getLsbD_and, BitVec.getLsbD_not,
    BitVec.getLsbD_ushiftRight, BitVec.getLsbD_shiftLeft, hmask i hi, hxor n hn i hi]
  by_cases h : i / 2 ^ n % 2 = 0
  · simp [h]
  · have hle : 2 ^ n ≤ i := by
      by_contra hlt
      rw [Nat.div_eq_of_lt (Nat.not_le.mp hlt)] at h
      exact h rfl
    simp [h, hi, Nat.not_lt.mpr hle]

/-- The mask of the next round has blocks of half the size. -/
theorem getLsbD_mask {mask : BitVec 64} {n : ℕ} (hn : n < 6)
    (hmask : ∀ i < 64, mask.getLsbD i = decide (i / 2 ^ (n + 1) % 2 = 0)) :
    ∀ i < 64, (mask ^^^ (mask <<< 2 ^ n)).getLsbD i = decide (i / 2 ^ n % 2 = 0) := by
  intro i hi
  have hbits : ∀ n < 6, ∀ i < 64, (decide (i / 2 ^ (n + 1) % 2 = 0) ^^
      (!decide (i < 2 ^ n) && decide ((i - 2 ^ n) / 2 ^ (n + 1) % 2 = 0))) =
        decide (i / 2 ^ n % 2 = 0) := by
    decide
  rw [← hbits n hn i hi, BitVec.getLsbD_xor, BitVec.getLsbD_shiftLeft, hmask i hi,
    hmask (i - 2 ^ n) (Nat.lt_of_le_of_lt (Nat.sub_le _ _) hi)]
  simp [hi]

/-- The rounds that are left when blocks of `2 ^ n` bits are in place reverse every block. -/
theorem revLoop_spec {n : ℕ} : n ≤ 6 → ∀ {v mask : BitVec 64},
    (∀ i < 64, mask.getLsbD i = decide (i / 2 ^ n % 2 = 0)) → ∀ i < 64,
    (revLoop (n + 1) (2 ^ n) mask v).getLsbD i = v.getLsbD (i ^^^ (2 ^ n - 1)) := by
  induction n with
  | zero => exact fun _ v mask _ i _ => by simp [revLoop]
  | succ n ih =>
    intro hn v mask hmask i hi
    have hhalf : 2 ^ (n + 1) >>> 1 = 2 ^ n := by
      rw [Nat.shiftRight_one, Nat.pow_succ, Nat.mul_div_cancel _ Nat.two_pos]
    have hmask' := getLsbD_mask (by omega) hmask
    have hxor : ∀ n < 6, ∀ i < 64, i ^^^ (2 ^ n - 1) < 64 ∧
        i ^^^ (2 ^ n - 1) ^^^ 2 ^ n = i ^^^ (2 ^ (n + 1) - 1) := by
      decide
    rw [revLoop]
    simp only [hhalf, if_pos (Nat.two_pow_pos n)]
    rw [ih (by omega) hmask' i hi, getLsbD_round (by omega) hmask' (hxor n (by omega) i hi).1,
      (hxor n (by omega) i hi).2]

/-- **`rev`** reverses the bits. -/
theorem rev_eq (v : BitVec 64) : rev v = v.reverse := by
  refine BitVec.eq_of_getLsbD_eq fun i hi => ?_
  have hxor : ∀ i < 64, i ^^^ (2 ^ 6 - 1) = 64 - 1 - i := by decide
  have hmask : ∀ i < 64, (BitVec.allOnes 64).getLsbD i = decide (i / 2 ^ 6 % 2 = 0) := by decide
  rw [rev, BitVec.getLsbD_reverse, BitVec.getMsbD_eq_getLsbD, ← hxor i hi]
  simp only [hi, decide_true, Bool.true_and]
  exact revLoop_spec (n := 6) (Nat.le_refl 6) hmask i hi

/-! ## One call -/

/-- The place of a key in the order. -/
def rankOf (type : DictType κ ν) (key : κ) : ℕ := rank (type.hashFunction key)

variable {type : DictType κ ν}

/-- Setting the bits that the mask leaves out and incrementing goes to the next neighbours. -/
theorem incrementCursor_eq (v : BitVec 64) (k : ℕ) : incrementCursor v (low 64 k) = next k v := by
  rw [incrementCursor, rev_eq, rev_eq, next]

/-- The bucket at the cursor has the entries whose keys are neighbours of it. -/
theorem scanBucket_spec {ht : Dictht κ ν} (h : ht.Wf type) {k : ℕ} (hk : ht.size = 2 ^ k)
    (hk64 : k ≤ 64) (v : BitVec 64) :
    ∃ emitted, scanBucket ht v = some emitted ∧ maskOf ht = low 64 k ∧
      (∀ he ∈ emitted, he ∈ ht.entries) ∧
      ∀ he ∈ ht.entries, rankOf type he.key / 2 ^ (64 - k) = rank v / 2 ^ (64 - k) →
        he ∈ emitted := by
  have hmask : maskOf ht = low 64 k := by rw [maskOf, low, h.sizemask, hk]
  have hindex : (v &&& maskOf ht).toNat = v.toNat % 2 ^ k := by
    refine Nat.eq_of_testBit_eq fun i => ?_
    rw [BitVec.testBit_toNat, Nat.testBit_mod_two_pow, BitVec.testBit_toNat, BitVec.getLsbD_and,
      hmask]
    by_cases hi : i < 64
    · rw [getLsbD_low hi, Bool.and_comm]
    · simp [BitVec.getLsbD_of_ge _ _ (Nat.not_lt.mp hi)]
  have hlt : v.toNat % 2 ^ k < ht.table.length := by
    rw [← h.size, hk]
    exact Nat.mod_lt _ (Nat.two_pow_pos k)
  refine ⟨ht.table[v.toNat % 2 ^ k], ?_, hmask, fun he hmem => ?_, fun he hmem hrank => ?_⟩
  · rw [scanBucket, hindex, List.getElem?_eq_getElem hlt]
  · exact List.mem_flatten.mpr ⟨_, List.getElem_mem hlt, hmem⟩
  · obtain ⟨chain, hchain, hin⟩ := h.mem_bucket.mp hmem
    rw [rankOf, rank_div_eq_iff hk64] at hrank
    rw [indexOf, h.sizemask, hk, Nat.and_two_pow_sub_one_eq_mod, hrank,
      List.getElem?_eq_getElem hlt, Option.some.injEq] at hchain
    rwa [hchain]

/-- What is between the cursor and the next one has been emitted. -/
def Covered (type : DictType κ ν) (entries : List (DictEntry κ ν)) (v v' : BitVec 64)
    (emitted : List (DictEntry κ ν)) : Prop :=
  ∀ he ∈ entries, rank v ≤ rankOf type he.key → (v' = 0#64 ∨ rankOf type he.key < rank v') →
    he ∈ emitted

/-- Where the next neighbours begin that agree in `k` bits, or 0 after the last. -/
def Advanced (k : ℕ) (v v' : BitVec 64) : Prop :=
  (v' = 0#64 ∧ 2 ^ (64 - k) * (rank v / 2 ^ (64 - k) + 1) = 2 ^ 64) ∨
    (v' ≠ 0#64 ∧ rank v' = 2 ^ (64 - k) * (rank v / 2 ^ (64 - k) + 1))

/-- A bucket of neighbours covers what is up to the next ones. -/
theorem Advanced.covered {k : ℕ} {v v' : BitVec 64} (ha : Advanced k v v')
    {entries emitted : List (DictEntry κ ν)}
    (h : ∀ he ∈ entries, rankOf type he.key / 2 ^ (64 - k) = rank v / 2 ^ (64 - k) →
      he ∈ emitted) : Covered type entries v v' emitted := by
  intro he hmem hge hlt
  have hup : rankOf type he.key < 2 ^ (64 - k) * (rank v / 2 ^ (64 - k) + 1) := by
    rcases ha with ⟨-, hend⟩ | ⟨hne, hr⟩
    · rw [hend]
      exact rank_lt _
    · rcases hlt with h0 | hlt
      · exact absurd h0 hne
      · rwa [hr] at hlt
  refine h he hmem (Nat.le_antisymm (Nat.le_of_lt_succ ?_) (Nat.div_le_div_right hge))
  rw [Nat.div_lt_iff_lt_mul (Nat.two_pow_pos _), Nat.mul_comm]
  exact hup

/-- **The loop over the larger table** covers what the bucket of the smaller one does. -/
theorem scanExpansions_spec {t1 : Dictht κ ν} (h : t1.Wf type) {k l : ℕ} (hl : t1.size = 2 ^ l)
    (hkl : k ≤ l) (hl64 : l ≤ 64) : ∀ {fuel : ℕ} {v : BitVec 64},
    2 ^ (l - k) * (rank v / 2 ^ (64 - k) + 1) ≤ rank v / 2 ^ (64 - l) + fuel →
    ∃ v' emitted, scanExpansions t1 (low 64 k) (low 64 l) fuel v = some (v', emitted) ∧
      Advanced k v v' ∧ (∀ he ∈ emitted, he ∈ t1.entries) ∧
      Covered type t1.entries v v' emitted := by
  have hpow : 2 ^ (64 - k) = 2 ^ (64 - l) * 2 ^ (l - k) := by
    rw [← Nat.pow_add]
    congr 1
    omega
  intro fuel
  induction fuel with
  | zero =>
    intro v hfuel
    have hlt : rank v / 2 ^ (64 - l) < 2 ^ (l - k) * (rank v / 2 ^ (64 - k) + 1) := by
      rw [Nat.div_lt_iff_lt_mul (Nat.two_pow_pos _), Nat.mul_comm, ← Nat.mul_assoc, ← hpow]
      exact Nat.lt_mul_div_succ _ (Nat.two_pow_pos _)
    omega
  | succ fuel ih =>
    intro v hfuel
    obtain ⟨emitted, hbucket, hmask, hsub, hall⟩ := scanBucket_spec h hl hl64 v
    obtain ⟨hlt, hle, hmul, hnot⟩ := small_step (r := rank v) (Nat.two_pow_pos (64 - l))
      (Nat.two_pow_pos (l - k))
    rw [← hpow] at hle hmul hnot
    have hnext : Advanced l v (next l v) := next_spec v hl64
    have hcov := hnext.covered hall
    rw [scanExpansions, hbucket]
    simp only [Option.bind_eq_bind, Option.bind_some, incrementCursor_eq]
    rcases hnext with ⟨h0, hend⟩ | ⟨hne, hr⟩
    · -- the last bucket of all
      refine ⟨next l v, emitted, by rw [h0, if_pos BitVec.zero_and]; rfl, .inl ⟨h0, ?_⟩, hsub, hcov⟩
      refine Nat.le_antisymm ?_ (hend ▸ hle)
      have hdvd : 2 ^ (64 - k) ∣ 2 ^ 64 := Nat.pow_dvd_pow 2 (Nat.sub_le _ _)
      rw [← hmul (hend ▸ hdvd), hend]
    · have hdvd : 2 ^ (64 - l) ∣ rank (next l v) := by
        rw [hr]
        exact Nat.dvd_mul_right _ _
      have htest := masked_eq_zero_iff hkl hl64 hdvd
      by_cases hz : next l v &&& (low 64 k ^^^ low 64 l) = 0#64
      · -- the next bucket belongs to other neighbours of the smaller table
        rw [htest, hr] at hz
        refine ⟨next l v, emitted, ?_, .inr ⟨hne, hr.trans (hmul hz)⟩, hsub, hcov⟩
        rw [if_pos (htest.mpr (hr ▸ hz))]
        rfl
      · have hz' := hz
        rw [htest, hr] at hz'
        have hsame : rank (next l v) / 2 ^ (64 - k) = rank v / 2 ^ (64 - k) := by
          rw [hr]
          exact hnot hz'
        obtain ⟨v', rest, hrest, hadv, hsub', hcov'⟩ := ih (v := next l v) (by
          rw [hsame, hr, Nat.mul_div_cancel_left _ (Nat.two_pow_pos _)]
          omega)
        rw [Advanced, hsame] at hadv
        refine ⟨v', emitted ++ rest, by rw [if_neg hz, hrest]; rfl, hadv, fun he hmem => ?_,
          fun he hmem hge hlt' => ?_⟩
        · exact (List.mem_append.mp hmem).elim (hsub he) (hsub' he)
        · rcases Nat.lt_or_ge (rankOf type he.key) (rank (next l v)) with hb | hb
          · exact List.mem_append_left _ (hcov he hmem hge (.inr hb))
          · exact List.mem_append_right _ (hcov' he hmem hb hlt')

/-- The smaller of the tables. -/
def smallerSize (d : Dict κ ν) : ℕ :=
  if dictIsRehashing d then min d.ht0.size d.ht1.size else d.ht0.size

variable [DecidableEq κ]

/-- **`dictScan`** leaves the dictionary as it is, emits what is there between the cursor and the
next one, and gets on by a bucket of the smaller table. -/
theorem dictScan_spec {d : Dict κ ν} (h : d.Wf type) (v : BitVec 64) :
    ∃ v' emitted, dictScan d v = some (d, v', emitted) ∧ (∀ he ∈ emitted, he ∈ d.entries) ∧
      Covered type d.entries v v' emitted ∧
      (v' = 0#64 ∨ ∃ k ≤ 60, smallerSize d = 2 ^ k ∧ Advanced k v v') := by
  by_cases hzero : dictSize d = 0
  · have hempty : d.entries = [] := by
      rw [← List.length_eq_zero_iff, ← h.size_eq, hzero]
    refine ⟨0#64, [], by rw [dictScan, if_pos hzero], fun he hm => (nomatch hm), fun he hm => ?_,
      .inl rfl⟩
    rw [hempty] at hm
    cases hm
  have hpos := h.pos_of_size hzero
  have hpow : ∀ {ht : Dictht κ ν}, ht.Wf type → 0 < ht.size → ∃ k ≤ 60, ht.size = 2 ^ k := by
    intro ht hwf hp
    obtain hz | ⟨k, -, hk, hs⟩ := hwf.pow
    · omega
    · exact ⟨k, hk, hs⟩
  have hback : dictResumeRehashing (dictPauseRehashing d) = d := by
    simp [dictResumeRehashing, dictPauseRehashing]
  rw [dictScan, if_neg hzero]
  by_cases hr : dictIsRehashing d = true
  · obtain ⟨hpos0, hpos1, hne⟩ := (h.moving (isRehashing_iff.mp hr)).2
    have htwo : ∀ {t0 t1 : Dictht κ ν}, t0.Wf type → t1.Wf type → 0 < t0.size → t0.size ≤ t1.size →
        ∃ v' emitted rest, scanBucket t0 v = some emitted ∧
          scanExpansions t1 (maskOf t0) (maskOf t1) t1.size v = some (v', rest) ∧
          (∀ he ∈ emitted ++ rest, he ∈ t0.entries ++ t1.entries) ∧
          Covered type (t0.entries ++ t1.entries) v v' (emitted ++ rest) ∧
          ∃ k ≤ 60, t0.size = 2 ^ k ∧ Advanced k v v' := by
      intro t0 t1 hwf0 hwf1 hp hle
      obtain ⟨k, hk, hs0⟩ := hpow hwf0 hp
      obtain ⟨l, hl, hs1⟩ := hpow hwf1 (Nat.lt_of_lt_of_le hp hle)
      have hkl : k ≤ l := by
        rw [hs0, hs1] at hle
        exact (Nat.pow_le_pow_iff_right (by omega)).mp hle
      obtain ⟨emitted, hb, hm0, hsub, hall⟩ := scanBucket_spec hwf0 hs0 (by omega) v
      obtain ⟨-, -, hm1, -⟩ := scanBucket_spec hwf1 hs1 (by omega) v
      have hfuel : 2 ^ (l - k) * (rank v / 2 ^ (64 - k) + 1) ≤ rank v / 2 ^ (64 - l) + t1.size := by
        have hsplit : 2 ^ (64 - k) = 2 ^ (64 - l) * 2 ^ (l - k) := by
          rw [← Nat.pow_add]
          congr 1
          omega
        have hdown : 2 ^ (l - k) * (rank v / 2 ^ (64 - k)) ≤ rank v / 2 ^ (64 - l) := by
          rw [hsplit, ← Nat.div_div_eq_div_mul, Nat.mul_comm]
          exact Nat.div_mul_le_self _ _
        have hsize : 2 ^ (l - k) ≤ t1.size := by
          rw [hs1]
          exact Nat.pow_le_pow_right (by omega) (Nat.sub_le _ _)
        rw [Nat.mul_succ]
        omega
      obtain ⟨v', rest, hloop, hadv, hsub', hcov⟩ :=
        scanExpansions_spec hwf1 hs1 hkl (by omega) hfuel
      have hcov0 := hadv.covered hall
      refine ⟨v', emitted, rest, hb, by rw [hm0, hm1, hloop], fun he hmem => ?_,
        fun he hmem hge hlt => ?_, k, hk, hs0, hadv⟩
      · rcases List.mem_append.mp hmem with hmem | hmem
        · exact List.mem_append_left _ (hsub he hmem)
        · exact List.mem_append_right _ (hsub' he hmem)
      · rcases List.mem_append.mp hmem with hmem | hmem
        · exact List.mem_append_left _ (hcov0 he hmem hge hlt)
        · exact List.mem_append_right _ (hcov he hmem hge hlt)
    have hbusy : dictIsRehashing (dictPauseRehashing d) = true := hr
    simp only [hbusy, Bool.not_true, Bool.false_eq_true, if_false]
    have h0 : (dictPauseRehashing d).ht0 = d.ht0 := rfl
    have h1 : (dictPauseRehashing d).ht1 = d.ht1 := rfl
    rw [h0, h1, smallerSize, if_pos hr]
    rcases Nat.lt_or_ge d.ht1.size d.ht0.size with hgt | hle
    · obtain ⟨v', emitted, rest, hb, hloop, hsub, hcov, k, hk, hs, hadv⟩ :=
        htwo h.ht1 h.ht0 hpos1 hgt.le
      rw [if_pos hgt]
      refine ⟨v', emitted ++ rest, ?_, fun he hmem => ?_, fun he hmem => ?_, .inr ⟨k, hk, ?_, hadv⟩⟩
      · simp only [Option.bind_eq_bind, hb, hloop, Option.bind_some, hback]
        rfl
      · exact List.mem_append.mpr (List.mem_append.mp (hsub he hmem)).symm
      · exact hcov he (List.mem_append.mpr (List.mem_append.mp hmem).symm)
      · rw [Nat.min_eq_right hgt.le, hs]
    · obtain ⟨v', emitted, rest, hb, hloop, hsub, hcov, k, hk, hs, hadv⟩ :=
        htwo h.ht0 h.ht1 hpos0 hle
      rw [if_neg (Nat.not_lt.mpr hle)]
      refine ⟨v', emitted ++ rest, ?_, hsub, hcov, .inr ⟨k, hk, ?_, hadv⟩⟩
      · simp only [Option.bind_eq_bind, hb, hloop, Option.bind_some, hback]
        rfl
      · rw [Nat.min_eq_left hle, hs]
  · rw [Bool.not_eq_true] at hr
    obtain ⟨k, hk, hs⟩ := hpow h.ht0 hpos
    obtain ⟨emitted, hb, hm, hsub, hall⟩ := scanBucket_spec h.ht0 hs (by omega) v
    have hbusy : dictIsRehashing (dictPauseRehashing d) = false := hr
    have h0 : (dictPauseRehashing d).ht0 = d.ht0 := rfl
    have hadv : Advanced k v (next k v) := next_spec v (by omega)
    refine ⟨next k v, emitted, ?_, ?_, ?_, .inr ⟨k, hk, ?_, hadv⟩⟩
    · simp only [hbusy, Bool.not_false, if_true, h0, hb, Option.bind_eq_bind, Option.bind_some,
        hback, hm, incrementCursor_eq]
      rfl
    · rw [h.entries_idle hr]
      exact hsub
    · rw [h.entries_idle hr]
      exact hadv.covered hall
    · rw [smallerSize, hr, if_neg Bool.false_ne_true, hs]

/-! ## A whole scan -/

/-- A dictionary that is scanned: the cursor for the next call, whether it has come back to 0, and
what has been emitted up to now. -/
structure Scanning (κ ν : Type) where
  d : Dict κ ν
  cursor : BitVec 64
  finished : Bool
  emitted : List (DictEntry κ ν)

/-- A call of `dictScan`, or another one in between. -/
inductive Call (κ ν : Type) where
  | scan
  | op (op : Op κ ν)
  deriving Repr, DecidableEq

def Call.isScan : Call κ ν → Bool
  | .scan => true
  | .op _ => false

/-- A dictionary at the beginning, with the cursor 0. -/
def Scanning.start : Scanning κ ν := ⟨dictCreate, 0#64, false, []⟩

def scanStep (type : DictType κ ν) (s : Scanning κ ν) : Call κ ν → Option (Scanning κ ν)
  | .scan => (dictScan s.d s.cursor).map fun (d, v, emitted) =>
      ⟨d, v, s.finished || decide (v = 0#64), s.emitted ++ emitted⟩
  | .op op => (op.exec type s.d).map fun (d, _) => { s with d }

theorem scanStep_scan {s : Scanning κ ν} {v : BitVec 64} {emitted : List (DictEntry κ ν)}
    (h : dictScan s.d s.cursor = some (s.d, v, emitted)) : scanStep type s .scan =
      some ⟨s.d, v, s.finished || decide (v = 0#64), s.emitted ++ emitted⟩ := by
  rw [scanStep, h]
  rfl

/-- What a step keeps about one key, if it is there whenever `dictScan` is called: it has been
emitted as soon as the cursor is past it. -/
structure Passed (type : DictType κ ν) (key : κ) (s : Scanning κ ν) : Prop where
  wf : s.d.Wf type
  emitted : s.finished = true ∨ rankOf type key < rank s.cursor →
    ∃ he ∈ s.emitted, sameKey type key he.key = true

/-- A call in between leaves the cursor alone. -/
theorem scanStep_op (hl : type.Lawful) {s : Scanning κ ν} (h : s.d.Wf type)
    (hfits : dictSize s.d < 2 ^ 60) (op : Op κ ν) :
    ∃ d, scanStep type s (.op op) = some { s with d } ∧ d.Wf type := by
  obtain ⟨d, hop, hwf, -⟩ := Op.exec_spec hl h hfits op
  exact ⟨d, by rw [scanStep, hop]; rfl, hwf⟩

/-- One step gets past the key only if it emits it. -/
theorem Passed.step (hl : type.Lawful) {key : κ} {s : Scanning κ ν} (h : Passed type key s)
    (hfits : dictSize s.d < 2 ^ 60) {c : Call κ ν}
    (hkey : c = .scan → s.finished = false → (lookup type s.d.entries key).isSome = true) :
    ∃ s', scanStep type s c = some s' ∧ Passed type key s' := by
  cases c with
  | op op =>
    obtain ⟨d, hop, hwf⟩ := scanStep_op hl h.wf hfits op
    exact ⟨_, hop, hwf, h.emitted⟩
  | scan =>
    obtain ⟨v, emitted, hscan, -, hcov, -⟩ := dictScan_spec h.wf s.cursor
    refine ⟨_, scanStep_scan hscan, h.wf, fun hpast => ?_⟩
    have hold : ∀ {P : DictEntry κ ν → Prop}, (∃ he ∈ s.emitted, P he) →
        ∃ he ∈ s.emitted ++ emitted, P he :=
      fun ⟨he, hmem, hp⟩ => ⟨he, List.mem_append_left _ hmem, hp⟩
    cases hfin : s.finished with
    | true => exact hold (h.emitted (.inl hfin))
    | false =>
      obtain ⟨he, hlook⟩ := Option.isSome_iff_exists.mp (hkey rfl hfin)
      obtain ⟨hmem, hsame⟩ := (lookup_eq_some hl h.wf.apart).mp hlook
      rcases Nat.lt_or_ge (rankOf type key) (rank s.cursor) with hlt | hge
      · exact hold (h.emitted (.inr hlt))
      · -- the key is between the two cursors
        have hrank : rankOf type he.key = rankOf type key := by
          rw [rankOf, rankOf, hl.hash _ _ hsame]
        refine ⟨he, List.mem_append_right _ (hcov he hmem (by rwa [hrank]) ?_), hsame⟩
        rw [hrank]
        refine hpast.imp_left fun hdone => ?_
        simpa [hfin] using hdone

/-- **A scan is complete.**  Whatever is done to the dictionary between the calls of `dictScan`, a
key that is there at every one of them has been emitted when the cursor is 0 again. -/
theorem scan_complete (hl : type.Lawful) (calls : List (Call κ ν)) (key : κ)
    (hfits : Along (scanStep type) (fun s => dictSize s.d < 2 ^ 60) .start calls)
    (hkey : Each (scanStep type) (fun s c => c = .scan → s.finished = false →
      (lookup type s.d.entries key).isSome = true) .start calls) :
    ∃ s, exec (scanStep type) .start calls = some s ∧
      (s.finished = true → ∃ he ∈ s.emitted, sameKey type key he.key = true) := by
  have hgo : ∀ (calls : List (Call κ ν)) (s : Scanning κ ν), Passed type key s →
      Along (scanStep type) (fun s => dictSize s.d < 2 ^ 60) s calls →
      Each (scanStep type) (fun s c => c = .scan → s.finished = false →
        (lookup type s.d.entries key).isSome = true) s calls →
      ∃ s', exec (scanStep type) s calls = some s' ∧ Passed type key s' := by
    intro calls
    induction calls with
    | nil => exact fun s h _ _ => ⟨s, rfl, h⟩
    | cons c calls ih =>
      intro s h hfits hkey
      obtain ⟨s₁, hstep⟩ : ∃ s₁, scanStep type s c = some s₁ := by
        cases c with
        | op op =>
          obtain ⟨d, hop, -⟩ := scanStep_op hl h.wf hfits.head op
          exact ⟨_, hop⟩
        | scan =>
          obtain ⟨v, emitted, hscan, -⟩ := dictScan_spec h.wf s.cursor
          exact ⟨_, scanStep_scan hscan⟩
      obtain ⟨hhere, hkey'⟩ := hkey s₁ hstep
      obtain ⟨s₁', hstep', hpass⟩ := h.step hl hfits.head hhere
      obtain rfl := Option.some.inj (hstep.symm.trans hstep')
      obtain ⟨s', hrun, hpass'⟩ := ih s₁ hpass (hfits.2 s₁ hstep) hkey'
      exact ⟨s', by rw [exec, hstep]; exact hrun, hpass'⟩
  have hstart : Passed type key (.start : Scanning κ ν) := by
    refine ⟨dictCreate_wf, fun h => ?_⟩
    rcases h with h | h
    · cases h
    · have hzero : rank (Scanning.start : Scanning κ ν).cursor = 0 := rank_eq_zero_iff.mpr rfl
      rw [hzero] at h
      exact absurd h (Nat.not_lt_zero _)
  obtain ⟨s, hrun, hpass⟩ := hgo calls .start hstart hfits hkey
  exact ⟨s, hrun, fun hfin => hpass.emitted (.inl hfin)⟩

/-- The table is expanded in the middle of the scan, and an entry is moved to the larger one. -/
theorem scan_complete_expanded :
    ∃ s, exec (scanStep numbers) .start [.op (.add 1 10 0), .op (.add 2 20 0), .op (.add 3 30 0),
        .op (.add 5 50 0), .scan, .scan, .op (.add 4 40 0), .op (.find 1), .scan, .scan] = some s ∧
      s.finished = true ∧ ∃ he ∈ s.emitted, sameKey numbers 5 he.key = true := by
  obtain ⟨s, hrun, hemitted⟩ := scan_complete numbers_lawful [.op (.add 1 10 0),
    .op (.add 2 20 0), .op (.add 3 30 0), .op (.add 5 50 0), .scan, .scan, .op (.add 4 40 0),
    .op (.find 1), .scan, .scan] 5 (by decide +kernel) (by decide +kernel)
  have hend : (exec (scanStep numbers) .start [.op (.add 1 10 0), .op (.add 2 20 0),
      .op (.add 3 30 0), .op (.add 5 50 0), .scan, .scan, .op (.add 4 40 0), .op (.find 1), .scan,
      .scan]).map (·.finished) = some true := by decide +kernel
  rw [hrun, Option.map_some, Option.some.injEq] at hend
  exact ⟨s, hrun, hend, hemitted hend⟩

/-- The cursor gets on by a bucket of the smaller table at every call. -/
theorem Advanced.progress {k K : ℕ} (hK : k ≤ K) {v v' : BitVec 64} (h : Advanced k v v')
    (hne : v' ≠ 0#64) : rank v / 2 ^ (64 - K) + 1 ≤ rank v' / 2 ^ (64 - K) := by
  obtain ⟨h0, -⟩ | ⟨-, hr⟩ := h
  · exact absurd h0 hne
  have hlt : rank v < rank v' := by
    rw [hr]
    exact Nat.lt_mul_div_succ _ (Nat.two_pow_pos _)
  have hdvd : 2 ^ (64 - K) ∣ rank v' := by
    rw [hr]
    exact Nat.dvd_trans (Nat.pow_dvd_pow 2 (by omega)) (Nat.dvd_mul_right _ _)
  obtain ⟨m, hm⟩ := hdvd
  rw [hm, Nat.mul_div_cancel_left _ (Nat.two_pow_pos _)]
  rw [hm, Nat.mul_comm] at hlt
  exact Nat.succ_le_of_lt ((Nat.div_lt_iff_lt_mul (Nat.two_pow_pos _)).mpr hlt)

/-- **A scan ends**: if the smaller table never has more than `2 ^ K` buckets when `dictScan` is
called, then `2 ^ K` calls are enough. -/
theorem scan_ends (hl : type.Lawful) (calls : List (Call κ ν)) {K : ℕ} (hK : K ≤ 64)
    (hfits : Along (scanStep type) (fun s => dictSize s.d < 2 ^ 60) .start calls)
    (hsize : Each (scanStep type) (fun s c => c = .scan → s.finished = false →
      smallerSize s.d ≤ 2 ^ K) .start calls)
    (hcount : 2 ^ K ≤ calls.countP Call.isScan) :
    ∃ s, exec (scanStep type) .start calls = some s ∧ s.finished = true := by
  have hgo : ∀ (calls : List (Call κ ν)) (s : Scanning κ ν), s.d.Wf type →
      Along (scanStep type) (fun s => dictSize s.d < 2 ^ 60) s calls →
      Each (scanStep type) (fun s c => c = .scan → s.finished = false →
        smallerSize s.d ≤ 2 ^ K) s calls →
      (s.finished = false →
        2 ^ K ≤ rank s.cursor / 2 ^ (64 - K) + calls.countP Call.isScan) →
      ∃ s', exec (scanStep type) s calls = some s' ∧ s'.finished = true := by
    intro calls
    induction calls with
    | nil =>
      intro s _ _ _ hcount
      refine ⟨s, rfl, ?_⟩
      by_contra hfin
      have hle := hcount (Bool.not_eq_true _ ▸ hfin)
      rw [List.countP_nil, Nat.add_zero, Nat.le_div_iff_mul_le (Nat.two_pow_pos _), ← Nat.pow_add,
        Nat.add_sub_cancel' hK] at hle
      exact absurd (rank_lt s.cursor) (Nat.not_lt.mpr hle)
    | cons c calls ih =>
      intro s h hfits hsize hcount
      cases c with
      | op op =>
        obtain ⟨d, hop, hwf⟩ := scanStep_op hl h hfits.head op
        obtain ⟨s', hrun, hfin⟩ := ih _ hwf (hfits.2 _ hop) (hsize _ hop).2 hcount
        exact ⟨s', by rw [exec, hop]; exact hrun, hfin⟩
      | scan =>
        obtain ⟨v, emitted, hscan, -, -, hadv⟩ := dictScan_spec h s.cursor
        have hstep : scanStep type s .scan = _ := scanStep_scan hscan
        obtain ⟨hsmall, hsize'⟩ := hsize _ hstep
        have hcount' : (s.finished || decide (v = 0#64)) = false →
            2 ^ K ≤ rank v / 2 ^ (64 - K) + calls.countP Call.isScan := by
          intro hfin
          rw [Bool.or_eq_false_iff, decide_eq_false_iff_not] at hfin
          obtain h0 | ⟨k, -, hk, hadv⟩ := hadv
          · exact absurd h0 hfin.2
          · have hkK : k ≤ K := by
              have hle := hsmall rfl hfin.1
              rw [hk] at hle
              exact (Nat.pow_le_pow_iff_right (by omega)).mp hle
            have hprog := hadv.progress hkK hfin.2
            have hle := hcount hfin.1
            rw [List.countP_cons_of_pos (by rfl)] at hle
            omega
        obtain ⟨s', hrun, hfin⟩ := ih ⟨s.d, v, s.finished || decide (v = 0#64),
          s.emitted ++ emitted⟩ h (hfits.2 _ hstep) hsize' hcount'
        exact ⟨s', by rw [exec, hstep]; exact hrun, hfin⟩
  exact hgo calls .start dictCreate_wf hfits hsize fun _ =>
    Nat.le_trans hcount (Nat.le_add_left _ _)

/-- Two tables of four and eight buckets take four calls. -/
theorem scan_ends_expanded :
    ∃ s, exec (scanStep numbers) .start [.op (.add 1 10 0), .op (.add 2 20 0), .op (.add 3 30 0),
        .op (.add 5 50 0), .scan, .scan, .op (.add 4 40 0), .op (.find 1), .scan, .scan] = some s ∧
      s.finished = true :=
  scan_ends (K := 2) numbers_lawful _ (by decide) (by decide +kernel) (by decide +kernel)
    (by decide)

end Redis

end LibNax
