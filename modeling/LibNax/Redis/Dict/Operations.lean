import LibNax.Redis.Dict.Invariant
import Mathlib.Data.List.Pairwise

/-!
# What the operations do to the entries

What a dictionary stands for is its entries and nothing of where they are: which bucket, which of
the two tables, how far the move has got.

* `lookup` — the entry of a key among the entries, wherever they are.
* `searchTables_eq` — the search finds it.
* `dictAddRaw_spec`, `dictSetVal_entries`, `dictGenericDelete_spec`, `dictFind_spec` — the
  operations.
-/

set_option autoImplicit false

namespace LibNax

namespace Redis

variable {κ ν : Type} [DecidableEq κ] {type : DictType κ ν}

/-! ## Searching -/

/-- The entry of a key. -/
def lookup (type : DictType κ ν) (entries : List (DictEntry κ ν)) (key : κ) :
    Option (DictEntry κ ν) :=
  entries.find? fun he => sameKey type key he.key

/-- There is at most one entry of a key. -/
theorem eq_of_sameKey (hl : type.Lawful) {entries : List (DictEntry κ ν)}
    (hp : entries.Pairwise (Apart type)) {key : κ} {a b : DictEntry κ ν} (ha : a ∈ entries)
    (hb : b ∈ entries) (hka : sameKey type key a.key = true)
    (hkb : sameKey type key b.key = true) : a = b := by
  by_contra hne
  have : Std.Symm (Apart type) := ⟨fun _ _ => hl.apart_symm⟩
  have hapart : Apart type a b := hp.forall ha hb hne
  have hsame := hl.trans _ _ _ (hl.symm _ _ hka) hkb
  rw [hapart.1] at hsame
  cases hsame

theorem lookup_eq_some (hl : type.Lawful) {entries : List (DictEntry κ ν)}
    (hp : entries.Pairwise (Apart type)) {key : κ} {he : DictEntry κ ν} :
    lookup type entries key = some he ↔ he ∈ entries ∧ sameKey type key he.key = true := by
  constructor
  · intro h
    exact ⟨List.mem_of_find?_eq_some h, by simpa using List.find?_some h⟩
  · rintro ⟨hmem, hkey⟩
    cases h : lookup type entries key with
    | none =>
      have := List.find?_eq_none.mp h he hmem
      exact absurd hkey this
    | some he' =>
      have hmem' := List.mem_of_find?_eq_some h
      have hkey' : sameKey type key he'.key = true := by simpa using List.find?_some h
      rw [eq_of_sameKey hl hp hmem hmem' hkey hkey']

theorem lookup_eq_none {entries : List (DictEntry κ ν)} {key : κ} :
    lookup type entries key = none ↔ ∀ he ∈ entries, sameKey type key he.key = false := by
  rw [lookup, List.find?_eq_none]
  exact forall₂_congr fun he _ => by rw [Bool.not_eq_true]

/-- It does not matter where the entries are. -/
theorem lookup_perm (hl : type.Lawful) {l l' : List (DictEntry κ ν)}
    (hp : l.Pairwise (Apart type)) (h : l'.Perm l) (key : κ) :
    lookup type l' key = lookup type l key := by
  have hp' : l'.Pairwise (Apart type) := (h.pairwise_iff hl.apart_symm).mpr hp
  cases hlook : lookup type l key with
  | none =>
    exact lookup_eq_none.mpr fun he hmem => lookup_eq_none.mp hlook he (h.mem_iff.mp hmem)
  | some he =>
    obtain ⟨hmem, hkey⟩ := (lookup_eq_some hl hp).mp hlook
    exact (lookup_eq_some hl hp').mpr ⟨h.mem_iff.mpr hmem, hkey⟩

/-- The bucket of a key holds all the entries that are equal to it. -/
theorem mem_bucket_iff (hl : type.Lawful) {ht : Dictht κ ν} (h : ht.Wf type) {key : κ}
    {chain : List (DictEntry κ ν)} (hchain : ht.table[indexOf type ht key]? = some chain)
    {he : DictEntry κ ν} (hkey : sameKey type key he.key = true) :
    he ∈ chain ↔ he ∈ ht.entries := by
  have hindex : indexOf type ht he.key = indexOf type ht key := by
    rw [indexOf, indexOf, hl.hash _ _ hkey]
  rw [h.mem_bucket, hindex, hchain]
  constructor
  · exact fun hm => ⟨chain, rfl, hm⟩
  · rintro ⟨c, hc, hm⟩
    exact Option.some.inj hc ▸ hm

/-- The search in the bucket is the search in the table. -/
theorem searchChain_eq (hl : type.Lawful) {ht : Dictht κ ν} (h : ht.Wf type)
    (hp : ht.entries.Pairwise (Apart type)) {key : κ} {chain : List (DictEntry κ ν)}
    (hchain : ht.table[indexOf type ht key]? = some chain) :
    searchChain type key chain = lookup type ht.entries key := by
  cases hs : searchChain type key chain with
  | none =>
    refine (lookup_eq_none.mpr fun he hmem => ?_).symm
    by_contra hkey
    rw [Bool.not_eq_false] at hkey
    exact List.find?_eq_none.mp hs he ((mem_bucket_iff hl h hchain hkey).mpr hmem) hkey
  | some he =>
    have hkey : sameKey type key he.key = true := by simpa using List.find?_some hs
    have hmem := List.mem_of_find?_eq_some hs
    exact ((lookup_eq_some hl hp).mpr ⟨(mem_bucket_iff hl h hchain hkey).mp hmem, hkey⟩).symm

/-- There is a first table as soon as there is an entry. -/
theorem Dict.Wf.pos_of_size {d : Dict κ ν} (h : d.Wf type) (hsize : dictSize d ≠ 0) :
    0 < d.ht0.size := by
  by_contra hz
  have htable : d.ht0.table = [] := by
    rw [← List.length_eq_zero_iff, ← h.ht0.size]
    omega
  have hi : d.rehashidx = -1 := by
    by_contra hne
    exact hz (h.moving hne).2.1
  rw [h.size_eq, h.entries_idle (not_isRehashing_iff.mpr hi), Dictht.entries, htable] at hsize
  exact hsize rfl

/-- **The search** finds the entry of the key. -/
theorem searchTables_eq (hl : type.Lawful) {d : Dict κ ν} (h : d.Wf type) (hpos : 0 < d.ht0.size)
    (key : κ) : searchTables type d key = some (lookup type d.entries key) := by
  have hp := h.apart
  rw [Dict.entries, List.pairwise_append] at hp
  obtain ⟨c0, hc0⟩ := h.ht0.exists_bucket hpos key
  have hlookup : lookup type d.entries key =
      (lookup type d.ht0.entries key).or (lookup type d.ht1.entries key) := List.find?_append
  rw [searchTables, hc0, hlookup, ← searchChain_eq hl h.ht0 hp.1 hc0]
  simp only [Option.bind_eq_bind, Option.bind_some]
  cases hs : searchChain type key c0 with
  | some he => rfl
  | none =>
    by_cases hr : dictIsRehashing d = true
    · obtain ⟨c1, hc1⟩ := h.ht1.exists_bucket (h.moving (isRehashing_iff.mp hr)).2.2.1 key
      rw [← searchChain_eq hl h.ht1 hp.2.1 hc1, hc1]
      simp only [if_pos hr, Option.bind_some, Option.none_or]
      rfl
    · simp only [if_neg hr, Option.none_or]
      rw [h.idle (not_isRehashing_iff.mp (Bool.not_eq_true _ ▸ hr))]
      rfl

/-! ## What the operations do to the entries -/

/-- An entry put at the head of its bucket, in the second table while there is one. -/
inductive Pushed (type : DictType κ ν) (d : Dict κ ν) (de : DictEntry κ ν) : Dict κ ν → Prop where
  | first {t : Dictht κ ν} : d.rehashidx = -1 → pushEntry d.ht0 (indexOf type d.ht0 de.key) de =
      some t → Pushed type d de { d with zmalloc := d.zmalloc + 1, ht0 := t }
  | second {t : Dictht κ ν} : d.rehashidx ≠ -1 → pushEntry d.ht1 (indexOf type d.ht1 de.key) de =
      some t → Pushed type d de { d with zmalloc := d.zmalloc + 1, ht1 := t }

theorem Pushed.perm {d d' : Dict κ ν} {de : DictEntry κ ν} (hp : Pushed type d de d')
    (h : d.Wf type) (hpos : 0 < d.ht0.size) :
    d'.entries.Perm (de :: d.entries) ∧ d'.ht0.Wf type ∧ d'.ht1.Wf type ∧
      d'.ht0.size = d.ht0.size ∧ d'.ht1.size = d.ht1.size := by
  cases hp with
  | first _ hpush =>
    obtain ⟨t, hpush', hwf, hsize, -, -, hperm⟩ := pushEntry_spec h.ht0 hpos de
    rw [hpush, Option.some.injEq] at hpush'
    subst hpush'
    exact ⟨hperm.append_right _, hwf, h.ht1, hsize, rfl⟩
  | second hr hpush =>
    obtain ⟨t, hpush', hwf, hsize, -, -, hperm⟩ := pushEntry_spec h.ht1 (h.moving hr).2.2.1 de
    rw [hpush, Option.some.injEq] at hpush'
    subst hpush'
    exact ⟨(hperm.append_left _).trans List.perm_middle, h.ht0, hwf, rfl, hsize⟩

/-- A new entry keeps the invariant if its key is new, and its address. -/
theorem Pushed.wf (hl : type.Lawful) {d d' : Dict κ ν} {de : DictEntry κ ν}
    (hp : Pushed type d de d') (h : d.Wf type) (hpos : 0 < d.ht0.size)
    (hnew : lookup type d.entries de.key = none) (haddr : de.addr = d.zmalloc) : d'.Wf type := by
  obtain ⟨hperm, hwf0, hwf1, hs0, hs1⟩ := hp.perm h hpos
  have hz : d'.zmalloc = d.zmalloc + 1 := by cases hp <;> rfl
  have hidx : d'.rehashidx = d.rehashidx := by cases hp <;> rfl
  refine ⟨hwf0, hwf1, fun hi => ?_, fun hne => ?_, fun i c hi hc => ?_, ?_, fun e he => ?_⟩
  · cases hp with
    | first => exact h.idle hi
    | second hr => exact absurd hi hr
  · rw [hidx, hs0, hs1]
    exact h.moving (hidx ▸ hne)
  · cases hp with
    | first hr =>
      have : (i : ℤ) < d.rehashidx := hi
      omega
    | second => exact h.moved i c hi hc
  · refine (hperm.pairwise_iff hl.apart_symm).mpr (List.pairwise_cons.mpr ⟨fun e he => ?_, h.apart⟩)
    exact ⟨lookup_eq_none.mp hnew e he, haddr ▸ (h.addr_lt e he).ne'⟩
  · rcases List.mem_cons.mp (hperm.mem_iff.mp he) with rfl | he
    · omega
    · have := h.addr_lt e he
      omega

/-- **`dictAddRaw`**: after a step of the move, and with a larger table where one is needed, the
entry of the key is found, or a new one is put in. -/
theorem dictAddRaw_spec (hl : type.Lawful) {d : Dict κ ν} (h : d.Wf type)
    (hfits : dictSize d < 2 ^ 60) (key : κ) (garbage : ν) :
    ∃ d₁ d₂, rehashStepIfRehashing type d = some d₁ ∧ dictExpandIfNeeded type d₁ = (d₂, true) ∧
      d₂.Wf type ∧ d.Same d₂ ∧ 0 < d₂.ht0.size ∧
      ((∃ he, lookup type d.entries key = some he ∧
          dictAddRaw type d key garbage = some (d₂, .error (some he))) ∨
        (lookup type d.entries key = none ∧
          ∃ d', dictAddRaw type d key garbage =
              some (d', .ok ⟨d.zmalloc, type.keyDup key, garbage⟩) ∧
            Pushed type d₂ ⟨d.zmalloc, type.keyDup key, garbage⟩ d')) := by
  obtain ⟨d₁, hstep, hwf₁, hsame₁, -⟩ := rehashStepIfRehashing_spec hl h
  have hfits₁ : dictSize d₁ < 2 ^ 60 := by
    rwa [hwf₁.size_eq, hsame₁.entries.length_eq, ← h.size_eq]
  obtain ⟨d₂, hexp, hwf₂, hsame₂, hpos, -⟩ := dictExpandIfNeeded_spec hwf₁ hfits₁
  have hsame := hsame₁.trans hsame₂
  have hsearch := searchTables_eq hl hwf₂ hpos key
  rw [lookup_perm hl h.apart hsame.entries] at hsearch
  have hdup : ∀ ht : Dictht κ ν, indexOf type ht (type.keyDup key) = indexOf type ht key := by
    intro ht
    rw [indexOf, indexOf, hl.hash _ _ (hl.dup key)]
  refine ⟨d₁, d₂, hstep, hexp, hwf₂, hsame, hpos, ?_⟩
  rw [dictAddRaw, hstep]
  simp only [Option.bind_eq_bind, Option.bind_some, dictKeyIndex, hexp, hsearch, ← hsame.zmalloc]
  cases hlook : lookup type d.entries key with
  | some he => exact .inl ⟨he, rfl, rfl⟩
  | none =>
    refine .inr ⟨rfl, ?_⟩
    simp only [Option.pure_def, Option.bind_some]
    have hbusy : dictIsRehashing { d₂ with zmalloc := d₂.zmalloc + 1 } = dictIsRehashing d₂ := rfl
    rw [hbusy]
    by_cases hr : dictIsRehashing d₂ = true
    · obtain ⟨t, hpush, -⟩ := pushEntry_spec hwf₂.ht1 (hwf₂.moving (isRehashing_iff.mp hr)).2.2.1
        ⟨d₂.zmalloc, type.keyDup key, garbage⟩
      rw [if_pos hr]
      have hpush' := hpush
      rw [hdup] at hpush'
      rw [if_pos hr, hpush']
      exact ⟨_, rfl, .second (isRehashing_iff.mp hr) hpush⟩
    · obtain ⟨t, hpush, -⟩ := pushEntry_spec hwf₂.ht0 hpos ⟨d₂.zmalloc, type.keyDup key, garbage⟩
      rw [if_neg hr]
      have hpush' := hpush
      rw [hdup] at hpush'
      rw [if_neg hr, hpush']
      exact ⟨_, rfl, .first (not_isRehashing_iff.mp (Bool.not_eq_true _ ▸ hr)) hpush⟩

/-- An entry after `dictSetVal`. -/
def setAt (type : DictType κ ν) (addr : ℕ) (val : ν) (he : DictEntry κ ν) : DictEntry κ ν :=
  if he.addr = addr then { he with v := type.valDup val } else he

omit [DecidableEq κ] in
@[simp]
theorem setAt_key (addr : ℕ) (val : ν) (he : DictEntry κ ν) :
    (setAt type addr val he).key = he.key := by
  rw [setAt]
  split <;> rfl

omit [DecidableEq κ] in
@[simp]
theorem setAt_addr (addr : ℕ) (val : ν) (he : DictEntry κ ν) :
    (setAt type addr val he).addr = he.addr := by
  rw [setAt]
  split <;> rfl

omit [DecidableEq κ] in
theorem dictSetVal_entries (d : Dict κ ν) (addr : ℕ) (val : ν) :
    (dictSetVal type d addr val).entries = d.entries.map (setAt type addr val) := by
  simp only [Dict.entries, Dictht.entries, List.map_append, List.map_flatten]
  rfl

omit [DecidableEq κ] in
/-- A table whose entries are exchanged for others with the same keys. -/
theorem Dictht.Wf.map {ht : Dictht κ ν} (h : ht.Wf type) {f : DictEntry κ ν → DictEntry κ ν}
    (hf : ∀ he, (f he).key = he.key) :
    Dictht.Wf type { ht with table := ht.table.map (·.map f) } where
  size := by rw [h.size, List.length_map]
  pow := h.pow
  sizemask := h.sizemask
  used := by
    rw [h.used, Dictht.entries, Dictht.entries, ← List.map_flatten, List.length_map]
  home := fun i chain hi de hde => by
    rw [List.getElem?_map] at hi
    obtain ⟨c, hc, rfl⟩ := Option.map_eq_some_iff.mp hi
    obtain ⟨he, hhe, rfl⟩ := List.mem_map.mp hde
    have := h.home i c hc he hhe
    rwa [← hf he] at this

theorem Dict.Wf.setVal {d : Dict κ ν} (h : d.Wf type) (addr : ℕ) (val : ν) :
    (dictSetVal type d addr val).Wf type where
  ht0 := h.ht0.map (setAt_key addr val)
  ht1 := h.ht1.map (setAt_key addr val)
  idle := fun hi => by
    show ({ d.ht1 with table := _ } : Dictht κ ν) = _
    rw [h.idle hi]
    rfl
  moving := h.moving
  moved := fun i c hi hc => by
    obtain ⟨c', hc', rfl⟩ := Option.map_eq_some_iff.mp (List.getElem?_map .. ▸ hc)
    rw [h.moved i c' hi hc', List.map_nil]
  apart := by
    rw [dictSetVal_entries, List.pairwise_map]
    refine h.apart.imp fun {a b} hab => ?_
    rw [Apart, setAt_key, setAt_key, setAt_addr, setAt_addr]
    exact hab
  addr_lt := fun de hde => by
    rw [dictSetVal_entries] at hde
    obtain ⟨he, hhe, rfl⟩ := List.mem_map.mp hde
    rw [setAt_addr]
    exact h.addr_lt he hhe

/-- Setting a value is seen by the searches for its key. -/
theorem lookup_setVal (hl : type.Lawful) {d : Dict κ ν} (h : d.Wf type) {key : κ}
    {he : DictEntry κ ν} (hfound : lookup type d.entries key = some he) (val : ν) (k : κ) :
    (lookup type (dictSetVal type d he.addr val).entries k).map (·.v) =
      if sameKey type key k = true then some (type.valDup val)
      else (lookup type d.entries k).map (·.v) := by
  have hmap : lookup type (dictSetVal type d he.addr val).entries k =
      (lookup type d.entries k).map (setAt type he.addr val) := by
    rw [dictSetVal_entries, lookup, lookup, List.find?_map]
    congr 2
    funext e
    rw [Function.comp_apply, setAt_key]
  obtain ⟨hmem, hkey⟩ := (lookup_eq_some hl h.apart).mp hfound
  rw [hmap, Option.map_map]
  split
  · rename_i hk
    have hk' := hl.trans _ _ _ (hl.symm _ _ hk) hkey
    rw [(lookup_eq_some hl h.apart).mpr ⟨hmem, hk'⟩]
    simp [setAt]
  · rename_i hk
    cases hlook : lookup type d.entries k with
    | none => rfl
    | some e =>
      obtain ⟨hmem', hkey'⟩ := (lookup_eq_some hl h.apart).mp hlook
      have hne : e.addr ≠ he.addr := by
        intro haddr
        have heq : e = he := by
          by_contra hne
          have : Std.Symm (Apart type) := ⟨fun _ _ => hl.apart_symm⟩
          exact (h.apart.forall hmem' hmem hne).2 haddr
        subst heq
        exact hk (hl.trans _ _ _ hkey (hl.symm _ _ hkey'))
      simp [setAt, hne]

/-- Taking an entry off its chain. -/
theorem unlinkFrom_spec (hl : type.Lawful) {ht : Dictht κ ν} (h : ht.Wf type)
    (hp : ht.entries.Pairwise (Apart type)) (hpos : 0 < ht.size) (key : κ) :
    (lookup type ht.entries key = none ∧ unlinkFrom type ht key = some (ht, none)) ∨
    ∃ he l₁ l₂, lookup type ht.entries key = some he ∧
      ht.table[indexOf type ht key]? = some (l₁ ++ he :: l₂) ∧
      unlinkFrom type ht key = some ({ ht with
        table := ht.table.set (indexOf type ht key) (l₁ ++ l₂), used := ht.used - 1 }, some he) ∧
      Dictht.Wf type { ht with
        table := ht.table.set (indexOf type ht key) (l₁ ++ l₂), used := ht.used - 1 } ∧
      (he :: (ht.table.set (indexOf type ht key) (l₁ ++ l₂)).flatten).Perm ht.entries := by
  obtain ⟨chain, hchain⟩ := h.exists_bucket hpos key
  have hsearch := searchChain_eq hl h hp hchain
  cases hlook : lookup type ht.entries key with
  | none =>
    rw [hlook] at hsearch
    exact .inl ⟨rfl, by rw [unlinkFrom, hchain]; simp [hsearch]⟩
  | some he =>
    rw [hlook] at hsearch
    obtain ⟨hkey, l₁, l₂, hsplit, hl₁⟩ := List.find?_eq_some_iff_append.mp hsearch
    have herase : chain.eraseP (fun he => sameKey type key he.key) = l₁ ++ l₂ := by
      rw [hsplit, List.eraseP_append_right _ fun e he => by simpa using hl₁ e he,
        List.eraseP_cons_of_pos
        (p := fun he : DictEntry κ ν => sameKey type key he.key) hkey]
    have hperm : (he :: (ht.table.set (indexOf type ht key) (l₁ ++ l₂)).flatten).Perm
        ht.entries := by
      refine (List.perm_append_right_iff (l₁ ++ l₂)).mp ?_
      refine List.Perm.trans ?_ (flatten_set_perm hchain)
      rw [hsplit, List.cons_append, ← List.append_assoc, ← List.append_assoc]
      exact List.perm_middle.symm
    subst hsplit
    refine .inr ⟨he, l₁, l₂, rfl, hchain, ?_, ⟨?_, h.pow, h.sizemask, ?_, ?_⟩, hperm⟩
    · rw [unlinkFrom, hchain]
      simp [hsearch, herase]
    · rw [h.size, List.length_set]
    · have hlen := hperm.length_eq
      rw [List.length_cons, ← h.used] at hlen
      exact (Nat.eq_sub_of_add_eq hlen).symm
    · refine home_set h fun de hde => h.home _ _ hchain de ?_
      rcases List.mem_append.mp hde with hde | hde
      · exact List.mem_append_left _ hde
      · exact List.mem_append_right _ (List.mem_cons_of_mem _ hde)

/-- An entry taken off its chain in one of the tables. -/
inductive Removed (d : Dict κ ν) (he : DictEntry κ ν) : Dict κ ν → Prop where
  | first {i : ℕ} {l₁ l₂ : List (DictEntry κ ν)} : d.ht0.table[i]? = some (l₁ ++ he :: l₂) →
      Removed d he { d with
        ht0 := { d.ht0 with table := d.ht0.table.set i (l₁ ++ l₂), used := d.ht0.used - 1 } }
  | second {i : ℕ} {l₁ l₂ : List (DictEntry κ ν)} : d.rehashidx ≠ -1 →
      d.ht1.table[i]? = some (l₁ ++ he :: l₂) →
      Removed d he { d with
        ht1 := { d.ht1 with table := d.ht1.table.set i (l₁ ++ l₂), used := d.ht1.used - 1 } }

/-- The rest is as it was. -/
theorem Dict.Wf.removed (hl : type.Lawful) {d d' : Dict κ ν} {he : DictEntry κ ν} (h : d.Wf type)
    (hwf0 : d'.ht0.Wf type) (hwf1 : d'.ht1.Wf type) (hs0 : d'.ht0.size = d.ht0.size)
    (hs1 : d'.ht1.size = d.ht1.size) (hidx : d'.rehashidx = d.rehashidx)
    (hz : d'.zmalloc = d.zmalloc) (hidle : d.rehashidx = -1 → d'.ht1 = d.ht1)
    (hmoved : ∀ (i : ℕ) c, (i : ℤ) < d.rehashidx → d'.ht0.table[i]? = some c → c = [])
    (hperm : (he :: d'.entries).Perm d.entries) : d'.Wf type where
  ht0 := hwf0
  ht1 := hwf1
  idle := fun hi => (hidle (hidx ▸ hi)).trans (h.idle (hidx ▸ hi))
  moving := fun hne => by
    rw [hidx, hs0, hs1]
    exact h.moving (hidx ▸ hne)
  moved := fun i c hi => hmoved i c (hidx ▸ hi)
  apart := (List.pairwise_cons.mp ((hperm.pairwise_iff hl.apart_symm).mpr h.apart)).2
  addr_lt := fun de hde => hz ▸ h.addr_lt de (hperm.mem_iff.mp (List.mem_cons_of_mem _ hde))

/-- **`dictGenericDelete`**: after a step of the move the entry of the key is unlinked, if there is
one, and no other. -/
theorem dictGenericDelete_spec (hl : type.Lawful) {d : Dict κ ν} (h : d.Wf type) (key : κ) :
    ∃ d₁, d₁.Wf type ∧ d.Same d₁ ∧ (d₁ = d ∨ rehashStepIfRehashing type d = some d₁) ∧
      ((lookup type d.entries key = none ∧ dictGenericDelete type d key = some (d₁, none)) ∨
        ∃ he d', lookup type d.entries key = some he ∧
          dictGenericDelete type d key = some (d', some he) ∧ Removed d₁ he d' ∧ d'.Wf type ∧
          (he :: d'.entries).Perm d.entries) := by
  by_cases hzero : d.ht0.used = 0 ∧ d.ht1.used = 0
  · have hempty : d.entries = [] := by
      rw [← List.length_eq_zero_iff, ← h.size_eq, dictSize]
      omega
    refine ⟨d, h, .refl d, .inl rfl, .inl ⟨by rw [hempty]; rfl, ?_⟩⟩
    rw [dictGenericDelete, if_pos hzero]
  obtain ⟨d₁, hstep, hwf, hsame, -⟩ := rehashStepIfRehashing_spec hl h
  have hpos : 0 < d₁.ht0.size := hwf.pos_of_size (by
    rw [hwf.size_eq, hsame.entries.length_eq, ← h.size_eq, dictSize]
    omega)
  refine ⟨d₁, hwf, hsame, .inr hstep, ?_⟩
  have hp := hwf.apart
  rw [Dict.entries, List.pairwise_append] at hp
  have hlookup : lookup type d.entries key =
      (lookup type d₁.ht0.entries key).or (lookup type d₁.ht1.entries key) :=
    (lookup_perm hl h.apart hsame.entries key).symm.trans List.find?_append
  rw [dictGenericDelete, if_neg hzero, hstep, hlookup]
  simp only [Option.bind_eq_bind, Option.bind_some]
  rcases unlinkFrom_spec hl hwf.ht0 hp.1 hpos key with ⟨hnone, hun⟩ |
    ⟨he, l₁, l₂, hfound, hchain, hun, hwf0, hperm⟩
  · rw [hun, hnone, Option.none_or]
    simp only [Option.bind_some]
    by_cases hr : dictIsRehashing d₁ = true
    · have hr' := isRehashing_iff.mp hr
      rcases unlinkFrom_spec hl hwf.ht1 hp.2.1 (hwf.moving hr').2.2.1 key with ⟨hnone, hun⟩ |
        ⟨he, l₁, l₂, hfound, hchain, hun, hwf1, hperm⟩
      · exact .inl ⟨hnone, by rw [if_pos hr, hun]; rfl⟩
      · have hperm' := (List.perm_middle.symm.trans (hperm.append_left d₁.ht0.entries))
        refine .inr ⟨he, _, hfound, by rw [if_pos hr, hun]; rfl, .second hr' hchain, ?_,
          hperm'.trans hsame.entries⟩
        exact hwf.removed hl hwf.ht0 hwf1 rfl rfl rfl rfl (fun hi => absurd hi hr') hwf.moved hperm'
    · refine .inl ⟨?_, by rw [if_neg hr]; rfl⟩
      rw [hwf.idle (not_isRehashing_iff.mp (Bool.not_eq_true _ ▸ hr))]
      rfl
  · rw [hun, hfound, Option.some_or]
    have hperm' := hperm.append_right d₁.ht1.entries
    refine .inr ⟨he, _, rfl, rfl, .first hchain, ?_, hperm'.trans hsame.entries⟩
    refine hwf.removed hl hwf0 hwf.ht1 rfl rfl rfl rfl (fun _ => rfl) (fun i c hi hc => ?_) hperm'
    rw [List.getElem?_set] at hc
    split at hc
    · rename_i hij
      have hnil := hwf.moved i _ hi (hij ▸ hchain)
      exact absurd hnil (List.append_ne_nil_of_right_ne_nil _ (List.cons_ne_nil _ _))
    · exact hwf.moved i c hi hc

/-- **`dictFind`**: after a step of the move the entry of the key. -/
theorem dictFind_spec (hl : type.Lawful) {d : Dict κ ν} (h : d.Wf type) (key : κ) :
    ∃ d₁, d₁.Wf type ∧ d.Same d₁ ∧ (d₁ = d ∨ rehashStepIfRehashing type d = some d₁) ∧
      dictFind type d key = some (d₁, lookup type d.entries key) := by
  by_cases hzero : dictSize d = 0
  · have hempty : d.entries = [] := by
      rw [← List.length_eq_zero_iff, ← h.size_eq, hzero]
    exact ⟨d, h, .refl d, .inl rfl, by rw [dictFind, if_pos hzero, hempty]; rfl⟩
  obtain ⟨d₁, hstep, hwf, hsame, -⟩ := rehashStepIfRehashing_spec hl h
  have hpos : 0 < d₁.ht0.size := hwf.pos_of_size (by
    rwa [hwf.size_eq, hsame.entries.length_eq, ← h.size_eq])
  refine ⟨d₁, hwf, hsame, .inr hstep, ?_⟩
  rw [dictFind, if_neg hzero, hstep]
  simp only [Option.bind_eq_bind, Option.bind_some]
  rw [searchTables_eq hl hwf hpos, lookup_perm hl h.apart hsame.entries]
  rfl

end Redis

end LibNax
