import LibNax.Redis.Dict.Table
import Mathlib.Data.List.Perm.Basic

/-!
# What holds of a dictionary

* `Dictht.Wf` — one table: a power of two of buckets, every entry in the bucket of its key, and a
  right count.
* `Dict.Wf` — both: the second table is there while the first is moved to it, the buckets that have
  been moved are empty, and no key is there twice.
* `dictRehash_spec` — moving buckets keeps this, and all the entries.
* `dictExpandWith_spec` and `dictExpandIfNeeded_spec` — and so does setting up a table.
-/

set_option autoImplicit false

namespace LibNax

namespace Redis

variable {κ ν : Type}

/-! ## Tables -/

/-- The entries of a table. -/
def Dictht.entries (ht : Dictht κ ν) : List (DictEntry κ ν) := ht.table.flatten

/-- The entries of both tables. -/
def Dict.entries (d : Dict κ ν) : List (DictEntry κ ν) := d.ht0.entries ++ d.ht1.entries

/-- The invariant of a table. -/
structure Dictht.Wf (type : DictType κ ν) (ht : Dictht κ ν) : Prop where
  size : ht.size = ht.table.length
  pow : ht.size = 0 ∨ ∃ k, 2 ≤ k ∧ k ≤ 60 ∧ ht.size = 2 ^ k
  sizemask : ht.sizemask = ht.size - 1
  used : ht.used = ht.entries.length
  home : ∀ i chain, ht.table[i]? = some chain → ∀ de ∈ chain, indexOf type ht de.key = i

variable {type : DictType κ ν}

theorem dictReset_wf : Dictht.Wf type (dictReset : Dictht κ ν) :=
  ⟨rfl, .inl rfl, rfl, rfl, fun i chain h => by simp [dictReset] at h⟩

@[simp]
theorem dictReset_entries : (dictReset : Dictht κ ν).entries = [] := rfl

theorem Dictht.Wf.index_lt {ht : Dictht κ ν} (h : ht.Wf type) (hpos : 0 < ht.size) (key : κ) :
    indexOf type ht key < ht.table.length := by
  obtain hz | ⟨k, -, -, hk⟩ := h.pow
  · omega
  · rw [indexOf, h.sizemask, ← h.size, hk, Nat.and_two_pow_sub_one_eq_mod]
    exact Nat.mod_lt _ (Nat.two_pow_pos k)

theorem Dictht.Wf.exists_bucket {ht : Dictht κ ν} (h : ht.Wf type) (hpos : 0 < ht.size) (key : κ) :
    ∃ chain, ht.table[indexOf type ht key]? = some chain :=
  ⟨_, List.getElem?_eq_getElem (h.index_lt hpos key)⟩

/-- An entry is in the bucket of its key. -/
theorem Dictht.Wf.mem_bucket {ht : Dictht κ ν} (h : ht.Wf type) {de : DictEntry κ ν} :
    de ∈ ht.entries ↔ ∃ chain, ht.table[indexOf type ht de.key]? = some chain ∧ de ∈ chain := by
  constructor
  · intro hde
    obtain ⟨chain, hchain, hmem⟩ := List.mem_flatten.mp hde
    obtain ⟨i, hi⟩ := List.mem_iff_getElem?.mp hchain
    exact ⟨chain, h.home i chain hi de hmem ▸ hi, hmem⟩
  · rintro ⟨chain, hchain, hmem⟩
    exact List.mem_flatten.mpr ⟨chain, List.mem_of_getElem? hchain, hmem⟩

/-- A bucket exchanged for another one. -/
theorem flatten_set_perm {α : Type} {c c' : List α} : ∀ {l : List (List α)} {i : ℕ},
    l[i]? = some c → ((l.set i c').flatten ++ c).Perm (l.flatten ++ c')
  | [], _, h => nomatch h
  | x :: l, 0, h => by
    cases h
    rw [List.set_cons_zero, List.flatten_cons, List.flatten_cons]
    have hswap : (c' ++ l.flatten ++ c).Perm (c ++ (c' ++ l.flatten)) := List.perm_append_comm
    refine hswap.trans ?_
    rw [List.append_assoc]
    exact List.perm_append_comm.append_left c
  | x :: l, i + 1, h => by
    rw [List.set_cons_succ, List.flatten_cons, List.flatten_cons, List.append_assoc,
      List.append_assoc]
    exact (flatten_set_perm (l := l) (i := i) h).append_left x

theorem home_set {ht : Dictht κ ν} (h : ht.Wf type) {j : ℕ} {c : List (DictEntry κ ν)}
    (hc : ∀ de ∈ c, indexOf type ht de.key = j) : ∀ i chain,
    (ht.table.set j c)[i]? = some chain → ∀ de ∈ chain, indexOf type ht de.key = i := by
  intro i chain hi
  rw [List.getElem?_set] at hi
  split at hi
  · rename_i hij
    split at hi
    · cases hi
      exact fun de hde => hij ▸ hc de hde
    · cases hi
  · exact h.home i chain hi

/-- What `pushEntry` does to a table, for an entry in its bucket. -/
theorem pushEntry_spec {ht : Dictht κ ν} (h : ht.Wf type) (hpos : 0 < ht.size)
    (de : DictEntry κ ν) : ∃ ht', pushEntry ht (indexOf type ht de.key) de = some ht' ∧
      ht'.Wf type ∧ ht'.size = ht.size ∧ ht'.sizemask = ht.sizemask ∧
      ht'.used = ht.used + 1 ∧ ht'.entries.Perm (de :: ht.entries) := by
  obtain ⟨chain, hchain⟩ := h.exists_bucket hpos de.key
  have hperm : (ht.table.set (indexOf type ht de.key) (de :: chain)).flatten.Perm
      (de :: ht.entries) := by
    refine (List.perm_append_right_iff chain).mp ((flatten_set_perm hchain).trans ?_)
    exact List.perm_middle
  refine ⟨{ ht with
    table := ht.table.set (indexOf type ht de.key) (de :: chain)
    used := ht.used + 1 }, by rw [pushEntry, hchain]; rfl, ⟨?_, h.pow, h.sizemask, ?_, ?_⟩, rfl, rfl,
    rfl, hperm⟩
  · rw [h.size, List.length_set]
  · rw [h.used]
    exact hperm.length_eq.symm
  · refine home_set h fun de' hde' => ?_
    rcases List.mem_cons.mp hde' with rfl | hde'
    · rfl
    · exact h.home _ chain hchain de' hde'

/-! ## Both tables -/

/-- Two entries of one dictionary. -/
def Apart [DecidableEq κ] (type : DictType κ ν) (a b : DictEntry κ ν) : Prop :=
  sameKey type a.key b.key = false ∧ a.addr ≠ b.addr

/-- The invariant of a dictionary. -/
structure Dict.Wf [DecidableEq κ] (type : DictType κ ν) (d : Dict κ ν) : Prop where
  ht0 : d.ht0.Wf type
  ht1 : d.ht1.Wf type
  idle : d.rehashidx = -1 → d.ht1 = dictReset
  moving : d.rehashidx ≠ -1 → 0 ≤ d.rehashidx ∧ 0 < d.ht0.size ∧ 0 < d.ht1.size ∧
    d.ht0.size ≠ d.ht1.size
  moved : ∀ (i : ℕ) chain, (i : ℤ) < d.rehashidx → d.ht0.table[i]? = some chain → chain = []
  apart : d.entries.Pairwise (Apart type)
  addr_lt : ∀ de ∈ d.entries, de.addr < d.zmalloc

theorem isRehashing_iff {d : Dict κ ν} : dictIsRehashing d = true ↔ d.rehashidx ≠ -1 := by
  simp [dictIsRehashing]

theorem not_isRehashing_iff {d : Dict κ ν} : dictIsRehashing d = false ↔ d.rehashidx = -1 := by
  simp [dictIsRehashing]

/-- The loop over one bucket moves its entries. -/
theorem moveBucket_spec : ∀ {chain : List (DictEntry κ ν)} (t0 : Dictht κ ν) {t1 : Dictht κ ν},
    t1.Wf type → 0 < t1.size → ∃ t1', moveBucket type chain t0 t1 =
      some ({ t0 with used := t0.used - chain.length }, t1') ∧ t1'.Wf type ∧
      t1'.size = t1.size ∧ t1'.sizemask = t1.sizemask ∧ t1'.entries.Perm (chain ++ t1.entries) := by
  intro chain
  induction chain with
  | nil => exact fun t0 t1 h _ => ⟨_, rfl, h, rfl, rfl, List.Perm.refl _⟩
  | cons de chain ih =>
    intro t0 t1 h hpos
    obtain ⟨t, hpush, ht, hsize, hmask, -, hperm⟩ := pushEntry_spec h hpos de
    obtain ⟨t1', hmove, ht', hsize', hmask', hperm'⟩ :=
      ih { t0 with used := t0.used - 1 } ht (hsize ▸ hpos)
    refine ⟨t1', ?_, ht', hsize'.trans hsize, hmask'.trans hmask, ?_⟩
    · rw [moveBucket, hpush]
      simp only [Option.bind_eq_bind, Option.bind_some, hmove, List.length_cons]
      rw [Nat.sub_sub, Nat.add_comm 1]
    · refine hperm'.trans ((hperm.append_left chain).trans ?_)
      exact List.perm_middle

/-- The loop over empty buckets stays inside the table as long as there is an entry ahead. -/
theorem skipEmpty_spec {table : List (List (DictEntry κ ν))} : ∀ {visits i : ℕ}, 0 < visits →
    (∀ j chain, j < i → table[j]? = some chain → chain = []) → table.flatten ≠ [] →
    (∃ i', skipEmpty table visits i = some (i', none) ∧ i < i' ∧
      ∀ j chain, j < i' → table[j]? = some chain → chain = []) ∨
    ∃ i' chain visits', skipEmpty table visits i = some (i', some (chain, visits')) ∧
      0 < visits' ∧ i ≤ i' ∧ table[i']? = some chain ∧ chain ≠ [] ∧
      ∀ j chain, j < i' → table[j]? = some chain → chain = [] := by
  intro visits
  induction visits with
  | zero => exact fun h => absurd h (Nat.lt_irrefl 0)
  | succ visits ih =>
    intro i _ hempty hne
    have hlt : i < table.length := by
      by_contra hge
      refine hne (List.flatten_eq_nil_iff.mpr fun chain hchain => ?_)
      obtain ⟨j, hj⟩ := List.mem_iff_getElem?.mp hchain
      have := (List.getElem?_eq_some_iff.mp hj).1
      exact hempty j chain (by omega) hj
    have hi : table[i]? = some table[i] := List.getElem?_eq_getElem hlt
    rw [skipEmpty, hi]
    simp only [Option.bind_eq_bind, Option.bind_some]
    cases hchain : table[i] with
    | cons de chain =>
      rw [hchain] at hi
      exact .inr ⟨i, _, _, rfl, Nat.succ_pos _, Nat.le_refl _, hi, List.cons_ne_nil _ _, hempty⟩
    | nil =>
      rw [hchain] at hi
      have hempty' : ∀ j chain, j < i + 1 → table[j]? = some chain → chain = [] := by
        intro j chain hj hc
        rcases Nat.lt_succ_iff_lt_or_eq.mp hj with hj | rfl
        · exact hempty j chain hj hc
        · rw [hi, Option.some.injEq] at hc
          exact hc.symm
      by_cases hv : visits = 0
      · rw [if_pos hv]
        exact .inl ⟨i + 1, rfl, Nat.lt_succ_self i, hempty'⟩
      · rw [if_neg hv]
        rcases ih (Nat.pos_of_ne_zero hv) hempty' hne with ⟨i', hs, hlt', he⟩ |
          ⟨i', chain, v, hs, hv', hle, hc⟩
        · exact .inl ⟨i', hs, Nat.lt_of_succ_lt hlt', he⟩
        · exact .inr ⟨i', chain, v, hs, hv', Nat.le_of_succ_le hle, hc⟩

section Moves

variable [DecidableEq κ]

theorem dictCreate_wf : Dict.Wf type (dictCreate : Dict κ ν) where
  ht0 := dictReset_wf
  ht1 := dictReset_wf
  idle := fun _ => rfl
  moving := fun h => absurd rfl h
  moved := fun i _ h => absurd h (by simp [dictCreate])
  apart := List.Pairwise.nil
  addr_lt := fun _ h => nomatch h

/-- The second table of a dictionary that is not rehashing is empty. -/
theorem Dict.Wf.entries_idle {d : Dict κ ν} (h : d.Wf type) (hi : dictIsRehashing d = false) :
    d.entries = d.ht0.entries := by
  rw [Dict.entries, h.idle (not_isRehashing_iff.mp hi), dictReset_entries, List.append_nil]

theorem Dict.Wf.size_eq {d : Dict κ ν} (h : d.Wf type) : dictSize d = d.entries.length := by
  rw [dictSize, Dict.entries, List.length_append, h.ht0.used, h.ht1.used]

/-- Entries in a table of the first kind are in buckets that have not been moved. -/
theorem Dict.Wf.rehashidx_lt {d : Dict κ ν} (h : d.Wf type) (hused : d.ht0.used ≠ 0) :
    d.rehashidx < d.ht0.size := by
  by_contra hge
  have hempty : d.ht0.entries = [] := by
    refine List.flatten_eq_nil_iff.mpr fun chain hchain => ?_
    obtain ⟨i, hi⟩ := List.mem_iff_getElem?.mp hchain
    have hlt : i < d.ht0.table.length := (List.getElem?_eq_some_iff.mp hi).1
    exact h.moved i chain (by rw [← h.ht0.size] at hlt; omega) hi
  rw [h.ht0.used, hempty] at hused
  exact hused rfl

theorem DictType.Lawful.apart_symm (hl : type.Lawful) {a b : DictEntry κ ν}
    (h : Apart type a b) : Apart type b a := by
  refine ⟨?_, h.2.symm⟩
  rw [← Bool.not_eq_true]
  intro hb
  exact absurd (hl.symm _ _ hb) (by simp [h.1])

/-- The same entries in other places. -/
structure Dict.Same (d d' : Dict κ ν) : Prop where
  entries : d'.entries.Perm d.entries
  pauserehash : d'.pauserehash = d.pauserehash
  canResize : d'.canResize = d.canResize
  zmalloc : d'.zmalloc = d.zmalloc

omit [DecidableEq κ] in
theorem Dict.Same.refl (d : Dict κ ν) : d.Same d := ⟨List.Perm.refl _, rfl, rfl, rfl⟩

omit [DecidableEq κ] in
theorem Dict.Same.trans {d d' d'' : Dict κ ν} (h : d.Same d') (h' : d'.Same d'') : d.Same d'' :=
  ⟨h'.entries.trans h.entries, h'.pauserehash.trans h.pauserehash, h'.canResize.trans h.canResize,
    h'.zmalloc.trans h.zmalloc⟩

/-- What holds of the entries is kept when they only change places. -/
theorem Dict.Same.apart (hl : type.Lawful) {d d' : Dict κ ν} (h : d.Same d') (hwf : d.Wf type) :
    d'.entries.Pairwise (Apart type) ∧ ∀ de ∈ d'.entries, de.addr < d'.zmalloc :=
  ⟨(h.entries.pairwise_iff hl.apart_symm).mpr hwf.apart,
    fun de hde => h.zmalloc ▸ hwf.addr_lt de (h.entries.mem_iff.mp hde)⟩

/-- One bucket is moved. -/
theorem Dict.Wf.move (hl : type.Lawful) {d : Dict κ ν} (h : d.Wf type) (hr : d.rehashidx ≠ -1)
    {i : ℕ} {chain : List (DictEntry κ ν)} (hi : d.ht0.table[i]? = some chain)
    (hempty : ∀ (j : ℕ) c, j < i → d.ht0.table[j]? = some c → c = []) :
    ∃ t0 t1, moveBucket type chain d.ht0 d.ht1 = some (t0, t1) ∧
      Dict.Wf type { d with ht0 := { t0 with table := t0.table.set i [] }, ht1 := t1,
                            rehashidx := (i : ℤ) + 1 } ∧
      d.Same { d with ht0 := { t0 with table := t0.table.set i [] }, ht1 := t1,
                      rehashidx := (i : ℤ) + 1 } ∧
      t0.size = d.ht0.size ∧ t1.size = d.ht1.size ∧ t0.used = d.ht0.used - chain.length := by
  obtain ⟨hnn, hpos0, hpos1, hne⟩ := h.moving hr
  obtain ⟨t1, hmove, hwf1, hsize, -, hperm⟩ := moveBucket_spec d.ht0 h.ht1 hpos1
  have hflat : ((d.ht0.table.set i []).flatten ++ chain).Perm d.ht0.entries := by
    have hset : ((d.ht0.table.set i []).flatten ++ chain).Perm (d.ht0.table.flatten ++ []) :=
      flatten_set_perm hi
    rwa [List.append_nil] at hset
  have hsame : d.Same { d with
      ht0 := { d.ht0 with table := d.ht0.table.set i [], used := d.ht0.used - chain.length }
      ht1 := t1, rehashidx := (i : ℤ) + 1 } := by
    refine ⟨?_, rfl, rfl, rfl⟩
    refine (hperm.append_left _).trans ?_
    rw [← List.append_assoc]
    exact hflat.append_right _
  have hwf0 : Dictht.Wf type
      { d.ht0 with table := d.ht0.table.set i [], used := d.ht0.used - chain.length } := by
    refine ⟨?_, h.ht0.pow, h.ht0.sizemask, ?_, home_set h.ht0 fun _ hde => nomatch hde⟩
    · rw [h.ht0.size, List.length_set]
    · have hlen := hflat.length_eq
      rw [List.length_append, ← h.ht0.used] at hlen
      exact (Nat.eq_sub_of_add_eq hlen).symm
  obtain ⟨hapart, haddr⟩ := hsame.apart hl h
  refine ⟨_, t1, hmove, ⟨hwf0, hwf1, fun he => ?_, fun _ => ?_, fun j c hj hc => ?_, hapart, haddr⟩,
    hsame, rfl, hsize, rfl⟩
  · have he : (i : ℤ) + 1 = -1 := he
    omega
  · exact ⟨show (0 : ℤ) ≤ i + 1 by omega, hpos0, hsize ▸ hpos1, hsize ▸ hne⟩
  · have hj : (j : ℤ) < i + 1 := hj
    rw [List.getElem?_set] at hc
    split at hc
    · split at hc
      · exact (Option.some.inj hc).symm
      · cases hc
    · exact hempty j c (by omega) hc

/-- **The loop of `dictRehash`**: it stays inside the table, keeps the invariant and the entries,
and gets ahead if there is anything to move. -/
theorem rehashLoop_spec (hl : type.Lawful) : ∀ {n visits : ℕ} {d : Dict κ ν}, d.Wf type →
    d.rehashidx ≠ -1 → 0 < visits → ∃ d' exhausted,
      rehashLoop type n visits d = some (d', exhausted) ∧ d'.Wf type ∧ d'.rehashidx ≠ -1 ∧
      d.Same d' ∧ d'.ht0.size = d.ht0.size ∧ d'.ht1.size = d.ht1.size ∧
      d.rehashidx ≤ d'.rehashidx ∧ (0 < n → d.ht0.used ≠ 0 → d.rehashidx < d'.rehashidx) ∧
      (exhausted = true → d'.ht0.used ≠ 0) := by
  intro n
  induction n with
  | zero =>
    exact fun {_ d} h hr _ => ⟨d, false, rfl, h, hr, .refl d, rfl, rfl, Int.le_refl _,
      fun h => absurd h (Nat.lt_irrefl 0), fun h => absurd h Bool.false_ne_true⟩
  | succ n ih =>
    intro visits d h hr hv
    by_cases hused : d.ht0.used = 0
    · rw [rehashLoop, if_pos hused]
      exact ⟨d, false, rfl, h, hr, .refl d, rfl, rfl, Int.le_refl _, fun _ hne => absurd hused hne,
        fun h => absurd h Bool.false_ne_true⟩
    · have hnn := (h.moving hr).1
      have hidx : ((d.rehashidx.toNat : ℕ) : ℤ) = d.rehashidx := Int.toNat_of_nonneg hnn
      have hempty : ∀ (j : ℕ) c, j < d.rehashidx.toNat → d.ht0.table[j]? = some c → c = [] :=
        fun j c hj hc => h.moved j c (by omega) hc
      have hne : d.ht0.table.flatten ≠ [] := by
        intro he
        rw [h.ht0.used, Dictht.entries, he] at hused
        exact hused rfl
      rw [rehashLoop, if_neg hused, if_neg (Int.not_le.mpr (h.rehashidx_lt hused))]
      rcases skipEmpty_spec hv hempty hne with ⟨i, hskip, hlt, he⟩ |
        ⟨i, chain, v, hskip, hv', hle, hi, hchain, he⟩
      · -- the visits are used up
        have hwf : Dict.Wf type { d with rehashidx := (i : ℤ) } :=
          ⟨h.ht0, h.ht1, fun hi => absurd (show (i : ℤ) = -1 from hi) (by omega),
            fun _ => ⟨Int.natCast_nonneg i, (h.moving hr).2⟩,
            fun j c hj hc => he j c (Int.ofNat_lt.mp hj) hc, h.apart, h.addr_lt⟩
        have hlt' : d.rehashidx < (i : ℤ) := by omega
        refine ⟨_, true, by rw [hskip]; rfl, hwf, ?_, ⟨List.Perm.refl _, rfl, rfl, rfl⟩, rfl, rfl,
          Int.le_of_lt hlt', fun _ _ => hlt', fun _ => hused⟩
        exact fun hi => absurd (show (i : ℤ) = -1 from hi) (by omega)
      · obtain ⟨t0, t1, hmove, hwf, hsame, hs0, hs1, -⟩ := h.move hl hr hi he
        obtain ⟨d', ex, hloop, hwf', hr', hsame', hs0', hs1', hle', -, hex⟩ := ih hwf
          (show (i : ℤ) + 1 ≠ -1 by omega) hv'
        have hlt' : d.rehashidx < d'.rehashidx := by
          have : (i : ℤ) + 1 ≤ d'.rehashidx := hle'
          omega
        refine ⟨d', ex, ?_, hwf', hr', hsame.trans hsame', hs0'.trans hs0, hs1'.trans hs1,
          Int.le_of_lt hlt', fun _ _ => hlt', hex⟩
        rw [hskip]
        simp only [Option.bind_eq_bind, Option.bind_some, hmove]
        exact hloop

/-- What a call of `dictRehash` leaves: it has got ahead in the same tables, or moved the last
entry. -/
structure Rehashed (type : DictType κ ν) (d d' : Dict κ ν) : Prop where
  wf : d'.Wf type
  same : d.Same d'
  tables : (d'.rehashidx = -1 ∧
      d'.ht0.size = if dictIsRehashing d then d.ht1.size else d.ht0.size) ∨
    (d'.rehashidx ≠ -1 ∧ d'.ht0.size = d.ht0.size ∧ d'.ht1.size = d.ht1.size ∧
      d.rehashidx < d'.rehashidx ∧ d'.ht0.used ≠ 0)

/-- The first table is empty, and the second one takes its place. -/
theorem Dict.Wf.finish (hl : type.Lawful) {d : Dict κ ν} (h : d.Wf type) (hu : d.ht0.used = 0) :
    Dict.Wf type { d with ht0 := d.ht1, ht1 := dictReset, rehashidx := -1 } ∧
      d.Same { d with ht0 := d.ht1, ht1 := dictReset, rehashidx := -1 } := by
  have hempty : d.ht0.entries = [] := List.length_eq_zero_iff.mp (h.ht0.used ▸ hu)
  have hsame : d.Same { d with ht0 := d.ht1, ht1 := dictReset, rehashidx := -1 } := by
    refine ⟨?_, rfl, rfl, rfl⟩
    show (d.ht1.entries ++ []).Perm (d.ht0.entries ++ d.ht1.entries)
    rw [hempty, List.append_nil, List.nil_append]
  obtain ⟨hapart, haddr⟩ := hsame.apart hl h
  refine ⟨⟨h.ht1, dictReset_wf, fun _ => rfl, fun hne => absurd rfl hne, fun i _ hi => ?_, hapart,
    haddr⟩, hsame⟩
  exact absurd (show (i : ℤ) < -1 from hi) (by omega)

/-- **`dictRehash`**: it returns, keeps the invariant and every entry, and gets ahead. -/
theorem dictRehash_spec (hl : type.Lawful) {d : Dict κ ν} (h : d.Wf type) {n : ℕ} (hn : 0 < n) :
    ∃ d' more, dictRehash type d n = some (d', more) ∧ Rehashed type d d' := by
  by_cases hr : dictIsRehashing d = true
  · have hr' := isRehashing_iff.mp hr
    obtain ⟨d₁, ex, hloop, hwf, hr₁, hsame, hs0, hs1, -, hlt, hex⟩ :=
      rehashLoop_spec hl (n := n) h hr' (show 0 < n * 10 by omega)
    rw [dictRehash, hr]
    simp only [Bool.not_true, Bool.false_eq_true, if_false, hloop, Option.bind_eq_bind,
      Option.bind_some]
    have hfinish : d₁.ht0.used = 0 → Rehashed type d
        { d₁ with ht0 := d₁.ht1, ht1 := dictReset, rehashidx := -1 } := by
      intro hu
      obtain ⟨hwf', hsame'⟩ := hwf.finish hl hu
      exact ⟨hwf', hsame.trans hsame', .inl ⟨rfl, by rw [hr, if_pos rfl, ← hs1]⟩⟩
    by_cases hused : d.ht0.used = 0
    · -- there is nothing to move, and the loop is not entered
      obtain ⟨n, rfl⟩ := Nat.exists_eq_succ_of_ne_zero (Nat.pos_iff_ne_zero.mp hn)
      rw [rehashLoop, if_pos hused] at hloop
      cases hloop
      rw [if_neg Bool.false_ne_true, if_pos hused]
      exact ⟨_, _, rfl, hfinish hused⟩
    · have hahead : d₁.ht0.used ≠ 0 → Rehashed type d d₁ := fun hu =>
        ⟨hwf, hsame, .inr ⟨hr₁, hs0, hs1, hlt hn hused, hu⟩⟩
      split
      · rename_i hx
        exact ⟨_, _, rfl, hahead (hex hx)⟩
      · split
        · rename_i hu
          exact ⟨_, _, rfl, hfinish hu⟩
        · rename_i hu
          exact ⟨_, _, rfl, hahead hu⟩
  · rw [Bool.not_eq_true] at hr
    refine ⟨d, false, by simp [dictRehash, hr], h, .refl d, .inl ⟨not_isRehashing_iff.mp hr, ?_⟩⟩
    rw [hr]
    rfl

theorem dictRehashStep_spec (hl : type.Lawful) {d : Dict κ ν} (h : d.Wf type) :
    ∃ d', dictRehashStep type d = some d' ∧
      (d.pauserehash ≠ 0 ∧ d' = d ∨ d.pauserehash = 0 ∧ Rehashed type d d') := by
  by_cases hp : d.pauserehash = 0
  · obtain ⟨d', more, hstep, hre⟩ := dictRehash_spec hl h Nat.one_pos
    exact ⟨d', by rw [dictRehashStep, if_pos hp, hstep]; rfl, .inr ⟨hp, hre⟩⟩
  · exact ⟨d, by rw [dictRehashStep, if_neg hp], .inl ⟨hp, rfl⟩⟩

/-- The step before every operation: nothing, or a call of `dictRehash`. -/
theorem rehashStepIfRehashing_spec (hl : type.Lawful) {d : Dict κ ν} (h : d.Wf type) :
    ∃ d', rehashStepIfRehashing type d = some d' ∧ d'.Wf type ∧ d.Same d' ∧
      (d' = d ∨ dictIsRehashing d = true ∧ d.pauserehash = 0 ∧ Rehashed type d d') ∧
      (dictIsRehashing d = true → d.pauserehash = 0 → Rehashed type d d') := by
  by_cases hr : dictIsRehashing d = true
  · obtain ⟨d', hstep, ⟨hp, rfl⟩ | ⟨hp, hre⟩⟩ := dictRehashStep_spec hl h
    · exact ⟨d', by rw [rehashStepIfRehashing, if_pos hr, hstep], h, .refl d', .inl rfl,
        fun _ hz => absurd hz hp⟩
    · exact ⟨d', by rw [rehashStepIfRehashing, if_pos hr, hstep], hre.wf, hre.same,
        .inr ⟨hr, hp, hre⟩, fun _ _ => hre⟩
  · exact ⟨d, by rw [rehashStepIfRehashing, if_neg hr], h, .refl d, .inl rfl,
      fun hr' => absurd hr' hr⟩

end Moves

/-! ## A new table -/

theorem nextPowerLoop_spec {size : ℕ} : ∀ {rounds j : ℕ}, size ≤ 2 ^ (j + rounds) →
    ∃ k, nextPowerLoop size rounds (2 ^ j) = 2 ^ k ∧ j ≤ k ∧ k ≤ j + rounds ∧ size ≤ 2 ^ k ∧
      (k = j ∨ 2 ^ (k - 1) < size) := by
  intro rounds
  induction rounds with
  | zero => exact fun {j} h => ⟨j, rfl, Nat.le_refl j, Nat.le_refl j, h, .inl rfl⟩
  | succ rounds ih =>
    intro j h
    rw [nextPowerLoop]
    split
    · rename_i hle
      exact ⟨j, rfl, Nat.le_refl j, Nat.le_add_right j _, hle, .inl rfl⟩
    · rename_i hlt
      rw [← Nat.pow_succ]
      obtain ⟨k, hk, hjk, hkr, hle, hmin⟩ := ih (j := j + 1) (by rwa [Nat.add_right_comm])
      refine ⟨k, hk, by omega, by omega, hle, .inr ?_⟩
      rcases hmin with rfl | hmin
      · rw [Nat.add_sub_cancel]
        exact Nat.not_le.mp hlt
      · exact hmin

theorem dictNextPower_spec (size : ℕ) : ∃ k, dictNextPower size = 2 ^ k ∧ 2 ≤ k ∧
    (size ≤ longMax → size ≤ 2 ^ k ∧ (k = 2 ∨ 2 ^ (k - 1) < size)) := by
  rw [dictNextPower]
  split
  · rename_i hle
    refine ⟨63, rfl, by omega, fun hle' => ?_⟩
    rw [longMax] at *
    exact ⟨by omega, .inr (by omega)⟩
  · rename_i hlt
    have hrounds : size ≤ 2 ^ (2 + 64) := by
      rw [longMax] at hlt
      omega
    obtain ⟨k, hk, hjk, -, hle, hmin⟩ := nextPowerLoop_spec hrounds
    exact ⟨k, hk, hjk, fun _ => ⟨hle, hmin⟩⟩

/-- A table of empty buckets. -/
def freshTable (k : ℕ) : Dictht κ ν := ⟨List.replicate (2 ^ k) [], 2 ^ k, 2 ^ k - 1, 0⟩

theorem freshTable_entries (k : ℕ) : (freshTable k : Dictht κ ν).entries = [] :=
  List.flatten_eq_nil_iff.mpr fun _ h => List.eq_of_mem_replicate h

theorem freshTable_wf {k : ℕ} (hk : 2 ≤ k) (hk' : k ≤ 60) :
    Dictht.Wf type (freshTable k : Dictht κ ν) where
  size := (List.length_replicate ..).symm
  pow := .inr ⟨k, hk, hk', rfl⟩
  sizemask := rfl
  used := by rw [freshTable_entries]; rfl
  home := fun i chain hi de hde => by
    rw [List.eq_of_mem_replicate (List.mem_of_getElem? hi)] at hde
    cases hde

/-- What `_dictExpand` does: it is skipped, or sets up the first table, or the second. -/
inductive Expanded (d : Dict κ ν) (size : ℕ) : Dict κ ν → Bool → Prop where
  | skipped : Expanded d size d false
  | first {k : ℕ} : 2 ≤ k → k ≤ 60 → d.ht0.size = 0 → d.rehashidx = -1 →
      Expanded d size { d with ht0 := freshTable k } true
  | second {k : ℕ} : 2 ≤ k → k ≤ 60 → d.ht0.size ≠ 0 → d.ht0.size ≠ 2 ^ k → d.rehashidx = -1 →
      d.ht0.used ≤ size → size ≤ 2 ^ k → (k = 2 ∨ 2 ^ (k - 1) < size) →
      Expanded d size { d with ht1 := freshTable k, rehashidx := 0 } true

theorem dictExpandWith_spec [DecidableEq κ] {d : Dict κ ν} (h : d.Wf type) (size : ℕ)
    (memory : Bool) :
    Expanded d size (dictExpandWith d size memory).1 (dictExpandWith d size memory).2.1 ∧
      (d.rehashidx = -1 → d.ht0.used ≤ size → size ≤ 2 ^ 60 → memory = true →
        dictNextPower size ≠ d.ht0.size → (dictExpandWith d size memory).2.1 = true) := by
  obtain ⟨k, hk, hk2, hle⟩ := dictNextPower_spec size
  rw [dictExpandWith]
  by_cases hbusy : dictIsRehashing d || decide (size < d.ht0.used)
  · rw [if_pos hbusy]
    refine ⟨.skipped, fun hi hu => ?_⟩
    rw [← not_isRehashing_iff] at hi
    simp [hi, Nat.not_lt.mpr hu] at hbusy
  rw [if_neg hbusy]
  simp only [Bool.or_eq_true, isRehashing_iff, decide_eq_true_eq, not_or, not_not] at hbusy
  dsimp only
  by_cases hover : dictNextPower size < size ∨ dictNextPower size * 8 % 2 ^ 64 < dictNextPower size
  · rw [if_pos hover]
    refine ⟨.skipped, fun _ _ hsize => ?_⟩
    obtain ⟨hle, hmin⟩ := hle (by rw [longMax]; omega)
    have hk60 : k ≤ 60 := by
      rcases hmin with rfl | hmin
      · omega
      · have := (Nat.pow_lt_pow_iff_right (by omega)).mp (Nat.lt_of_lt_of_le hmin hsize)
        omega
    have hpow : 2 ^ k ≤ 2 ^ 60 := Nat.pow_le_pow_right (by omega) hk60
    rw [hk, Nat.mod_eq_of_lt (by omega)] at hover
    omega
  rw [if_neg hover]
  by_cases hsame : dictNextPower size = d.ht0.size
  · rw [if_pos hsame]
    exact ⟨.skipped, fun _ _ _ _ hne => absurd hsame hne⟩
  rw [if_neg hsame]
  cases memory with
  | false => exact ⟨.skipped, fun _ _ _ hm => absurd hm Bool.false_ne_true⟩
  | true =>
    simp only [Bool.not_true, Bool.false_eq_true, if_false]
    rw [hk, not_or, Nat.not_lt, Nat.not_lt] at hover
    have hk60 : k ≤ 60 := by
      by_contra hgt
      have hzero : 2 ^ k * 8 % 2 ^ 64 = 0 := by
        refine Nat.mod_eq_zero_of_dvd ?_
        rw [show (8 : ℕ) = 2 ^ 3 from rfl, ← Nat.pow_add]
        exact Nat.pow_dvd_pow 2 (by omega)
      rw [hzero] at hover
      exact absurd hover.2 (Nat.not_le.mpr (Nat.two_pow_pos k))
    have hpow : 2 ^ k ≤ 2 ^ 60 := Nat.pow_le_pow_right (by omega) hk60
    have hempty : d.ht0.table = [] ↔ d.ht0.size = 0 := by
      rw [h.ht0.size, List.length_eq_zero_iff]
    rw [hk] at hsame ⊢
    split
    · rename_i htable
      exact ⟨.first hk2 hk60 (hempty.mp htable) hbusy.1, fun _ _ _ _ _ => rfl⟩
    · rename_i htable
      exact ⟨.second hk2 hk60 (mt hempty.mpr htable) (Ne.symm hsame) hbusy.1
        (Nat.not_lt.mp hbusy.2) hover.1 (hle (by rw [longMax]; omega)).2, fun _ _ _ _ _ => rfl⟩

section Expand

variable [DecidableEq κ]

/-- A new table changes nothing but the place that there is. -/
theorem Expanded.wf {d d' : Dict κ ν} {size : ℕ} {ok : Bool} (he : Expanded d size d' ok)
    (h : d.Wf type) : d'.Wf type ∧ d.Same d' := by
  cases he with
  | skipped => exact ⟨h, .refl d⟩
  | @first k hk hk' hsize hidx =>
    have hentries : d.ht0.entries = [] := by
      have htable : d.ht0.table = [] := List.length_eq_zero_iff.mp (h.ht0.size ▸ hsize)
      rw [Dictht.entries, htable]
      rfl
    have hsame : ({ d with ht0 := freshTable k } : Dict κ ν).entries = d.entries := by
      rw [Dict.entries, Dict.entries, hentries, freshTable_entries]
    refine ⟨⟨freshTable_wf hk hk', h.ht1, h.idle, fun hne => absurd hidx hne, fun i _ hi => ?_,
      hsame ▸ h.apart, fun de hde => h.addr_lt de (hsame ▸ hde)⟩, hsame ▸ List.Perm.refl _, rfl,
      rfl, rfl⟩
    have : (i : ℤ) < d.rehashidx := hi
    omega
  | @second k hk hk' hsize hne hidx _ _ _ =>
    have hempty := h.idle hidx
    have hsame : ({ d with ht1 := freshTable k, rehashidx := 0 } : Dict κ ν).entries =
        d.entries := by
      rw [Dict.entries, Dict.entries, hempty, freshTable_entries, dictReset_entries]
    refine ⟨⟨h.ht0, freshTable_wf hk hk', fun he => ?_, fun _ => ⟨Int.le_refl 0,
      Nat.pos_of_ne_zero hsize, Nat.two_pow_pos k, hne⟩, fun i _ hi => ?_, hsame ▸ h.apart,
      fun de hde => h.addr_lt de (hsame ▸ hde)⟩, hsame ▸ List.Perm.refl _, rfl, rfl, rfl⟩
    · exact absurd (show (0 : ℤ) = -1 from he) (by omega)
    · exact absurd (show (i : ℤ) < 0 from hi) (by omega)

omit [DecidableEq κ] in
theorem Expanded.pos {d d' : Dict κ ν} {size : ℕ} (he : Expanded d size d' true) :
    0 < d'.ht0.size := by
  cases he with
  | first => exact Nat.two_pow_pos _
  | second _ _ hne => exact Nat.pos_of_ne_zero hne

/-- `dictExpand` when the table is to change its size and the entries fit the memory. -/
theorem dictExpand_spec {d : Dict κ ν} (h : d.Wf type) {size : ℕ} (hi : d.rehashidx = -1)
    (hu : d.ht0.used ≤ size) (hsize : size ≤ 2 ^ 60) (hne : dictNextPower size ≠ d.ht0.size) :
    (dictExpand d size).2 = true ∧ Expanded d size (dictExpand d size).1 true := by
  obtain ⟨he, hok⟩ := dictExpandWith_spec h size true
  have hok := hok hi hu hsize rfl hne
  rw [hok] at he
  exact ⟨hok, he⟩

/-- **`_dictExpandIfNeeded`** does not fail while the entries fit the memory, and leaves a table to
put an entry in. -/
theorem dictExpandIfNeeded_spec {d : Dict κ ν} (h : d.Wf type) (hfits : dictSize d < 2 ^ 60) :
    ∃ d', dictExpandIfNeeded type d = (d', true) ∧ d'.Wf type ∧ d.Same d' ∧ 0 < d'.ht0.size ∧
      (d' = d ∧ (d.ht0.size ≤ d.ht0.used → d.canResize = true →
          dictTypeExpandAllowed type d = true → dictIsRehashing d = true) ∨
        Expanded d dictHtInitialSize d' true ∧ d.ht0.size = 0 ∨
        Expanded d (d.ht0.used + 1) d' true ∧ d.ht0.size ≠ 0 ∧ d.ht0.size ≤ d.ht0.used) := by
  have hused : d.ht0.used < 2 ^ 60 := Nat.lt_of_le_of_lt (Nat.le_add_right _ _) hfits
  rw [dictExpandIfNeeded]
  by_cases hr : dictIsRehashing d = true
  · rw [if_pos hr]
    exact ⟨d, rfl, h, .refl d, (h.moving (isRehashing_iff.mp hr)).2.1, .inl ⟨rfl, fun _ _ _ => hr⟩⟩
  rw [if_neg hr]
  have hi := not_isRehashing_iff.mp (Bool.not_eq_true _ ▸ hr)
  by_cases hzero : d.ht0.size = 0
  · rw [if_pos hzero]
    have hu : d.ht0.used = 0 := by
      have htable : d.ht0.table = [] := List.length_eq_zero_iff.mp (h.ht0.size ▸ hzero)
      rw [h.ht0.used, Dictht.entries, htable]
      rfl
    obtain ⟨hok, he⟩ := dictExpand_spec h hi (show d.ht0.used ≤ dictHtInitialSize by omega)
      (by decide) (by rw [hzero]; decide)
    obtain ⟨hwf, hsame⟩ := he.wf h
    exact ⟨_, Prod.ext rfl hok, hwf, hsame, he.pos, .inr (.inl ⟨he, hzero⟩)⟩
  rw [if_neg hzero]
  split
  · rename_i hneed
    have hne : dictNextPower (d.ht0.used + 1) ≠ d.ht0.size := by
      obtain ⟨k, hk, -, hle⟩ := dictNextPower_spec (d.ht0.used + 1)
      have := (hle (by rw [longMax]; omega)).1
      omega
    obtain ⟨hok, he⟩ := dictExpand_spec h hi (Nat.le_succ _) hused hne
    obtain ⟨hwf, hsame⟩ := he.wf h
    exact ⟨_, Prod.ext rfl hok, hwf, hsame, he.pos, .inr (.inr ⟨he, hzero, hneed.1⟩)⟩
  · rename_i hneed
    exact ⟨d, rfl, h, .refl d, Nat.pos_of_ne_zero hzero, .inl ⟨rfl, fun hu hc ha =>
      absurd ⟨hu, .inl hc, ha⟩ hneed⟩⟩

end Expand

end Redis

end LibNax
