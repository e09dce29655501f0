import LibNax.Redis.Dict.Map

/-!
# The safe iterator

Between two calls of `dictNext` an iterator holds on to two addresses, of the entry that it has
returned and of the one after it in the chain.  The user may do nearly anything to the dictionary in
the meantime, because rehashing is paused and no entry changes its place.

The iterator walks over the buckets of the first table and then, while the dictionary is rehashed,
over those of the second.  What it has still to return is a list, `remaining`: the rest of the chain
that it is in, and then the chains of the buckets behind it.  A call returns the first of these
entries and leaves the others (`dictNext_spec`), by an induction on the rounds of the loop, which may
pass any number of empty buckets.  The measure is the number of buckets to come and not the number
of entries, since a round need not find one.

What other calls do to the list is the point.  They may add entries, in front of a chain or in a
table that the iterator has passed, they may change values, and they may delete entries, also the one
that was returned last.  They may not delete the one whose address the iterator has saved, and they
must leave the first table where it is.  All of that is one relation: `Steady p` says that the chains
are as before where new entries are left out, but for those that `p` takes away.  From it follows
that `remaining` is as before but for those, too, up to entries that are new (`Steady.remaining`).
`Op.exec_change` shows it for every call, and there are few cases to it: either nothing is moved, or
an entry is pushed, or one is removed, or a table is added while the other one is empty.

That rehashing stands still is a counter in the dictionary, which an iterator adds one to at its
first call.  The counter has sixteen bits.  Other iterators and the user add to it as well, and a
counter that runs over lets the entries move under the iterator; so each step asks that it is below
its largest value when it is added to (`Pausable`), and nobody may take away from it.  `dictRehash`
and `dictEmpty` do not look at the counter, and are left out.

In the end an entry that is there at the start and is never deleted is in `remaining` at the start,
no call takes it away, and the iteration ends when the list is empty; so it was returned.  And no
entry is returned twice, since the addresses in the list are different, and what was returned is not
in it any more.

* `dictNext` — the function, with the loop over empty buckets.
* `remaining` — the entries that are ahead of an iterator, and `dictNext_spec`: the first of them
  is returned.
* `Steady` — what a call does to the chains when nothing is moved, and `Op.exec_change`.
* `iterator_complete` — no entry is returned twice, and none that stays is left out.

Iterators that are not safe are left out, and with them the fingerprint.
-/

set_option autoImplicit false

namespace LibNax

namespace Redis

open Lib

variable {κ ν : Type}

/-! ## The functions -/

/-- `dictIterator`, with addresses of entries where the source has pointers. -/
structure DictIterator where
  index : ℤ
  table : ℕ
  entry : Option ℕ
  nextEntry : Option ℕ
  deriving Repr, DecidableEq

def dictGetSafeIterator : DictIterator := ⟨-1, 0, none, none⟩

/-- `d->ht[table]`. -/
def Dict.ht (d : Dict κ ν) (table : ℕ) : Dictht κ ν := if table = 0 then d.ht0 else d.ht1

/-- The link of an entry of a chain. -/
def chainNext (addr : ℕ) : List (DictEntry κ ν) → Option (Option ℕ)
  | [] => none
  | he :: rest => if he.addr = addr then some (rest.head?.map (·.addr)) else chainNext addr rest

/-- `entry->next`, where there is an entry. -/
def entryNext (d : Dict κ ν) (addr : ℕ) : Option (Option ℕ) :=
  (d.ht0.table ++ d.ht1.table).findSome? (chainNext addr)

/-- Rehashing is paused by the first call of `dictNext`. -/
def pauseFirst (d : Dict κ ν) (iter : DictIterator) : Dict κ ν :=
  if iter.index = -1 ∧ iter.table = 0 then dictPauseRehashing d else d

/-- What `dictNext` does without an entry: it takes the head of the next bucket, or stops after the
last one. -/
def nextBucket (d : Dict κ ν) (iter : DictIterator) : Option (Dict κ ν × DictIterator × Bool) :=
  let d := pauseFirst d iter
  let iter := { iter with index := iter.index + 1 }
  let last : Bool := ((d.ht iter.table).size : ℤ) ≤ iter.index
  if last && !(dictIsRehashing d && iter.table == 0) then some (d, iter, false)
  else do
    let iter := if last then { iter with table := iter.table + 1, index := 0 } else iter
    let chain ← (d.ht iter.table).table[iter.index.toNat]?
    return (d, { iter with entry := chain.head?.map (·.addr) }, true)

/-- The loop of `dictNext`. -/
def nextLoop : ℕ → Dict κ ν → DictIterator → Option (Dict κ ν × DictIterator × Option ℕ)
  | 0, _, _ => none
  | fuel + 1, d, iter => do
    let (d, iter, more) ←
      match iter.entry with
      | none => nextBucket d iter
      | some _ => some (d, { iter with entry := iter.nextEntry }, true)
    if !more then return (d, iter, none)
    else
      match iter.entry with
      | some entry => return (d, { iter with nextEntry := ← entryNext d entry }, some entry)
      | none => nextLoop fuel d iter

/-- `dictNext`: the address of the entry that is returned, or nothing. -/
def dictNext (d : Dict κ ν) (iter : DictIterator) : Option (Dict κ ν × DictIterator × Option ℕ) :=
  nextLoop (d.ht0.size + d.ht1.size + 3) d iter

/-! ## What is ahead -/

/-- The addresses in a chain. -/
def Dictht.addrsAt (ht : Dictht κ ν) (i : ℕ) : List ℕ := (ht.table[i]?.getD []).map (·.addr)

/-- The addresses in a chain of one of the tables. -/
def chainAt (d : Dict κ ν) (t i : ℕ) : List ℕ := (d.ht t).addrsAt i

/-- The addresses in the buckets from one on. -/
def ahead (d : Dict κ ν) (t i : ℕ) : List ℕ := ((d.ht t).table.drop i).flatten.map (·.addr)

/-- The addresses in both tables. -/
def Dict.addrs (d : Dict κ ν) : List ℕ := d.entries.map (·.addr)

/-- What is left of a chain: the saved entry and the ones after it. -/
def restOf (d : Dict κ ν) (iter : DictIterator) : List ℕ :=
  match iter.nextEntry with
  | none => []
  | some n => (chainAt d iter.table iter.index.toNat).dropWhile fun a => a ≠ n

/-- The entries that are ahead of an iterator. -/
def remaining (d : Dict κ ν) (iter : DictIterator) : List ℕ :=
  restOf d iter ++ (ahead d iter.table (iter.index + 1).toNat ++
    if iter.table = 0 then ahead d 1 0 else [])

theorem mem_ahead {d : Dict κ ν} {t k x : ℕ} : x ∈ ahead d t k ↔ ∃ i ≥ k, x ∈ chainAt d t i := by
  simp only [ahead, chainAt, Dictht.addrsAt, List.mem_map, List.mem_flatten]
  constructor
  · rintro ⟨he, ⟨c, hc, hmem⟩, rfl⟩
    obtain ⟨j, hj⟩ := List.mem_iff_getElem?.mp hc
    rw [List.getElem?_drop] at hj
    exact ⟨k + j, Nat.le_add_right k j, he, by rw [hj]; exact hmem, rfl⟩
  · rintro ⟨i, hi, he, hmem, rfl⟩
    cases hc : (d.ht t).table[i]? with
    | none =>
      rw [hc] at hmem
      cases hmem
    | some c =>
      rw [hc] at hmem
      refine ⟨he, ⟨c, List.mem_iff_getElem?.mpr ⟨i - k, ?_⟩, hmem⟩, rfl⟩
      rw [List.getElem?_drop, Nat.add_sub_cancel' hi, hc]

theorem ahead_eq_append {d : Dict κ ν} {t i : ℕ} (h : i < (d.ht t).table.length) :
    ahead d t i = chainAt d t i ++ ahead d t (i + 1) := by
  rw [ahead, List.drop_eq_getElem_cons h, List.flatten_cons, List.map_append, chainAt,
    Dictht.addrsAt, ahead, List.getElem?_eq_getElem h]
  rfl

theorem ahead_eq_nil {d : Dict κ ν} {t i : ℕ} (h : (d.ht t).table.length ≤ i) :
    ahead d t i = [] := by
  rw [ahead, List.drop_eq_nil_of_le h]
  rfl

theorem addrs_eq (d : Dict κ ν) : d.addrs = ahead d 0 0 ++ ahead d 1 0 := by
  rw [Dict.addrs, Dict.entries, List.map_append]
  rfl

theorem mem_addrs {d : Dict κ ν} {x : ℕ} : x ∈ d.addrs ↔ ∃ t i, x ∈ chainAt d t i := by
  rw [addrs_eq, List.mem_append, mem_ahead, mem_ahead]
  constructor
  · rintro (⟨i, -, h⟩ | ⟨i, -, h⟩)
    · exact ⟨0, i, h⟩
    · exact ⟨1, i, h⟩
  · rintro ⟨t, i, h⟩
    rcases Nat.eq_zero_or_pos t with rfl | ht
    · exact .inl ⟨i, Nat.zero_le i, h⟩
    · refine .inr ⟨i, Nat.zero_le i, ?_⟩
      rwa [chainAt, Dict.ht, if_neg ht.ne'] at h

theorem dropWhile_split {l₁ l₂ : List ℕ} {n : ℕ} (h : n ∉ l₁) :
    (l₁ ++ n :: l₂).dropWhile (fun a => a ≠ n) = n :: l₂ := by
  rw [List.dropWhile_append_of_pos fun a ha => by
    simpa using fun (heq : a = n) => h (heq ▸ ha)]
  simp

/-- Filtering keeps what comes after an entry that is kept. -/
theorem dropWhile_filter {p : ℕ → Bool} {n : ℕ} (hn : p n = true) (l : List ℕ) :
    (l.filter p).dropWhile (fun a => a ≠ n) = (l.dropWhile fun a => a ≠ n).filter p := by
  induction l with
  | nil => rfl
  | cons a l ih =>
    by_cases ha : a = n
    · subst ha
      simp [hn]
    · by_cases hp : p a = true
      · simp only [List.filter_cons_of_pos hp]
        simpa [ha] using ih
      · simp only [List.filter_cons_of_neg hp]
        simpa [ha] using ih

section

variable [DecidableEq κ] {type : DictType κ ν}

theorem Dict.Wf.addrs_nodup {d : Dict κ ν} (h : d.Wf type) : d.addrs.Nodup := by
  rw [Dict.addrs, List.Nodup, List.pairwise_map]
  exact h.apart.imp fun hab => hab.2

theorem Dict.Wf.addrs_lt {d : Dict κ ν} (h : d.Wf type) : ∀ x ∈ d.addrs, x < d.zmalloc := by
  intro x hx
  obtain ⟨he, hmem, rfl⟩ := List.mem_map.mp hx
  exact h.addr_lt he hmem

theorem Dict.Wf.chain_nodup {d : Dict κ ν} (h : d.Wf type) (t i : ℕ) :
    (chainAt d t i).Nodup := by
  rw [chainAt, Dictht.addrsAt]
  cases hc : (d.ht t).table[i]? with
  | none => exact List.nodup_nil
  | some c =>
    have hsub : c.Sublist d.entries := by
      have hmem := List.mem_of_getElem? hc
      rw [Dict.ht] at hmem
      split at hmem
      · exact (List.sublist_flatten_of_mem hmem).trans (List.sublist_append_left _ _)
      · exact (List.sublist_flatten_of_mem hmem).trans (List.sublist_append_right _ _)
    exact h.addrs_nodup.sublist (hsub.map _)

omit [DecidableEq κ] in
theorem remaining_sublist (d : Dict κ ν) {iter : DictIterator} (hindex : -1 ≤ iter.index)
    (htable : iter.table = 0 ∨ iter.table = 1) (hnext : iter.index = -1 → iter.nextEntry = none) :
    (remaining d iter).Sublist d.addrs := by
  have hrest : (restOf d iter ++ ahead d iter.table (iter.index + 1).toNat).Sublist
      (ahead d iter.table 0) := by
    rcases Int.lt_or_eq_of_le hindex with hlt | heq
    · have hsucc : (iter.index + 1).toNat = iter.index.toNat + 1 := by omega
      have hdrop : ∀ i, (ahead d iter.table i).Sublist (ahead d iter.table 0) := by
        intro i
        have hsub := List.sublist_append_right ((d.ht iter.table).table.take i).flatten
          ((d.ht iter.table).table.drop i).flatten
        rw [← List.flatten_append, List.take_append_drop] at hsub
        exact hsub.map _
      rw [hsucc, restOf]
      rcases Nat.lt_or_ge iter.index.toNat (d.ht iter.table).table.length with hl | hl
      · refine List.Sublist.trans ?_ (hdrop iter.index.toNat)
        rw [ahead_eq_append hl]
        refine List.Sublist.append_right ?_ _
        split
        · exact List.nil_sublist _
        · exact List.dropWhile_sublist _
      · rw [ahead_eq_nil (Nat.le_succ_of_le hl), List.append_nil, chainAt,
          Dictht.addrsAt, List.getElem?_eq_none hl]
        split <;> exact List.nil_sublist _
    · rw [restOf, hnext heq.symm, ← heq]
      exact List.Sublist.refl _
  rw [remaining, ← List.append_assoc, addrs_eq]
  rcases htable with ht | ht
  · rw [if_pos ht]
    rw [ht] at hrest ⊢
    exact hrest.append_right _
  · rw [if_neg (by omega), List.append_nil]
    rw [ht] at hrest ⊢
    exact hrest.trans (List.sublist_append_right _ _)

/-! ## The next entry -/

omit [DecidableEq κ] in
/-- The link of an entry is found where the entry is. -/
theorem findSome_chainNext {he : DictEntry κ ν} {l₁ l₂ : List (DictEntry κ ν)} :
    ∀ {table : List (List (DictEntry κ ν))}, (table.flatten.map (·.addr)).Nodup →
    l₁ ++ he :: l₂ ∈ table →
    table.findSome? (chainNext he.addr) = some (l₂.head?.map (·.addr)) := by
  have hhere : ∀ {l₁ : List (DictEntry κ ν)}, he.addr ∉ l₁.map (·.addr) →
      chainNext he.addr (l₁ ++ he :: l₂) = some (l₂.head?.map (·.addr)) := by
    intro l₁
    induction l₁ with
    | nil => exact fun _ => by rw [List.nil_append, chainNext, if_pos rfl]
    | cons e l₁ ih =>
      intro hne
      rw [List.map_cons, List.mem_cons, not_or] at hne
      rw [List.cons_append, chainNext, if_neg (Ne.symm hne.1), ih hne.2]
  have helse : ∀ {c : List (DictEntry κ ν)}, he.addr ∉ c.map (·.addr) →
      chainNext he.addr c = none := by
    intro c
    induction c with
    | nil => exact fun _ => rfl
    | cons e c ih =>
      intro hne
      rw [List.map_cons, List.mem_cons, not_or] at hne
      rw [chainNext, if_neg (Ne.symm hne.1), ih hne.2]
  intro table
  induction table with
  | nil => exact fun _ h => nomatch h
  | cons c table ih =>
    intro hnd hmem
    rw [List.flatten_cons, List.map_append, List.nodup_append] at hnd
    rcases List.mem_cons.mp hmem with rfl | hmem
    · have hne : he.addr ∉ l₁.map (·.addr) := by
        have := hnd.1
        rw [List.map_append, List.map_cons, List.nodup_append] at this
        exact fun hm => this.2.2 _ hm _ List.mem_cons_self rfl
      rw [List.findSome?_cons, hhere hne]
    · have hne : he.addr ∉ c.map (·.addr) := by
        intro hm
        refine hnd.2.2 _ hm he.addr (List.mem_map_of_mem ?_) rfl
        exact List.mem_flatten.mpr ⟨_, hmem, List.mem_append_right _ List.mem_cons_self⟩
      rw [List.findSome?_cons, helse hne]
      exact ih hnd.2.1 hmem

theorem entryNext_spec {d : Dict κ ν} (h : d.Wf type) {t i n : ℕ} {l₁ l₂ : List ℕ}
    (hchain : chainAt d t i = l₁ ++ n :: l₂) : entryNext d n = some l₂.head? := by
  cases hc : (d.ht t).table[i]? with
  | none =>
    rw [chainAt, Dictht.addrsAt, hc] at hchain
    exact absurd hchain (by simp)
  | some c =>
    rw [chainAt, Dictht.addrsAt, hc, Option.getD_some, List.map_eq_append_iff] at hchain
    obtain ⟨e₁, e₂, rfl, rfl, he₂⟩ := hchain
    obtain ⟨he, e₃, rfl, rfl, rfl⟩ := List.map_eq_cons_iff.mp he₂
    have hmem : e₁ ++ he :: e₃ ∈ d.ht0.table ++ d.ht1.table := by
      have hmem := List.mem_of_getElem? hc
      rw [Dict.ht] at hmem
      split at hmem
      · exact List.mem_append_left _ hmem
      · exact List.mem_append_right _ hmem
    have hnd := h.addrs_nodup
    rw [Dict.addrs, Dict.entries, Dictht.entries, Dictht.entries, ← List.flatten_append] at hnd
    rw [entryNext, findSome_chainNext hnd hmem, List.head?_map]

/-- What holds of an iterator between two calls. -/
structure DictIterator.Valid (type : DictType κ ν) (d : Dict κ ν) (iter : DictIterator) :
    Prop where
  wf : d.Wf type
  table : iter.table = 0 ∨ (iter.table = 1 ∧ dictIsRehashing d = true)
  started : (iter = dictGetSafeIterator ∧ 0 ≤ d.pauserehash) ∨
    (0 ≤ iter.index ∧ 0 < d.pauserehash)
  none : iter.entry = none → iter.nextEntry = none
  saved : ∀ n, iter.nextEntry = some n → n ∈ chainAt d iter.table iter.index.toNat

omit [DecidableEq κ] in
theorem pauseFirst_ht (d : Dict κ ν) (iter : DictIterator) (t : ℕ) :
    (pauseFirst d iter).ht t = d.ht t := by
  rw [pauseFirst]
  split <;> rfl

omit [DecidableEq κ] in
theorem chainAt_pauseFirst (d : Dict κ ν) (iter : DictIterator) (t i : ℕ) :
    chainAt (pauseFirst d iter) t i = chainAt d t i := by
  rw [chainAt, pauseFirst_ht, chainAt]

omit [DecidableEq κ] in
theorem isRehashing_pauseFirst (d : Dict κ ν) (iter : DictIterator) :
    dictIsRehashing (pauseFirst d iter) = dictIsRehashing d := by
  rw [pauseFirst]
  split <;> rfl

/-- Rehashing can be paused once more. -/
def Pausable (d : Dict κ ν) : Prop := d.pauserehash < 32767

omit [DecidableEq κ] in
theorem Pausable.lt_pause {d : Dict κ ν} (h : Pausable d) :
    d.pauserehash < (dictPauseRehashing d).pauserehash := by
  rw [Pausable] at h
  rw [dictPauseRehashing]
  grind

instance (d : Dict κ ν) : Decidable (Pausable d) := inferInstanceAs (Decidable (_ < _))

/-- Rehashing is paused from the first call on. -/
theorem DictIterator.Valid.paused {d : Dict κ ν} {iter : DictIterator} (h : iter.Valid type d)
    (hroom : Pausable d ∨ iter.index ≠ -1) : 0 < (pauseFirst d iter).pauserehash := by
  rw [pauseFirst]
  split
  · rename_i hfirst
    rcases h.started with ⟨-, hp⟩ | ⟨hi, -⟩
    · have hlt := (hroom.resolve_right (not_not.mpr hfirst.1)).lt_pause
      exact Int16.lt_of_le_of_lt hp hlt
    · omega
  · rename_i hfirst
    rcases h.started with ⟨rfl, -⟩ | ⟨-, hp⟩
    · exact absurd ⟨rfl, rfl⟩ hfirst
    · exact hp

theorem DictIterator.Valid.remaining_sublist {d : Dict κ ν} {iter : DictIterator}
    (h : iter.Valid type d) : (remaining d iter).Sublist d.addrs := by
  refine Redis.remaining_sublist d ?_ (h.table.imp_right (·.1)) fun hi => ?_
  · rcases h.started with ⟨rfl, -⟩ | ⟨hi, -⟩
    · exact Int.le_refl _
    · omega
  · rcases h.started with ⟨rfl, -⟩ | ⟨hi', -⟩
    · rfl
    · omega

theorem Dict.Wf.ht_wf {d : Dict κ ν} (h : d.Wf type) (t : ℕ) : (d.ht t).Wf type := by
  rw [Dict.ht]
  split
  · exact h.ht0
  · exact h.ht1

theorem Dict.Wf.pauseFirst {d : Dict κ ν} (h : d.Wf type) (iter : DictIterator) :
    (pauseFirst d iter).Wf type := by
  rw [Redis.pauseFirst]
  split
  · exact ⟨h.ht0, h.ht1, h.idle, h.moving, h.moved, h.apart, h.addr_lt⟩
  · exact h

omit [DecidableEq κ] in
theorem remaining_congr {d d' : Dict κ ν} (h : ∀ t, d'.ht t = d.ht t) (iter : DictIterator) :
    remaining d' iter = remaining d iter := by
  simp only [remaining, restOf, chainAt, ahead, h]

/-- The rounds that the loop of `dictNext` takes at most. -/
def roundsLeft (d : Dict κ ν) (iter : DictIterator) : ℕ :=
  (if iter.entry = none then 0 else 1) + ((d.ht iter.table).size - (iter.index + 1).toNat) +
    (if iter.table = 0 then d.ht1.size else 0) + 1

/-- The head of the next bucket, and everything behind it. -/
theorem nextBucket_spec {d : Dict κ ν} {iter : DictIterator} (h : iter.Valid type d)
    (hroom : Pausable d ∨ iter.index ≠ -1) (hnone : iter.entry = none) :
    (remaining d iter = [] ∧ ∃ iter', nextBucket d iter = some (pauseFirst d iter, iter', false) ∧
      iter'.Valid type (pauseFirst d iter) ∧ remaining d iter' = []) ∨
    ∃ iter', nextBucket d iter = some (pauseFirst d iter, iter', true) ∧
      iter'.entry = (chainAt d iter'.table iter'.index.toNat).head? ∧ iter'.nextEntry = none ∧
      0 ≤ iter'.index ∧ (iter'.table = 0 ∨ (iter'.table = 1 ∧ dictIsRehashing d = true)) ∧
      remaining d iter = chainAt d iter'.table iter'.index.toNat ++ remaining d iter' ∧
      ((d.ht iter'.table).size - (iter'.index + 1).toNat) +
        (if iter'.table = 0 then d.ht1.size else 0) + 1 < roundsLeft d iter := by
  have hnext := h.none hnone
  have hindex : -1 ≤ iter.index := by
    rcases h.started with ⟨rfl, -⟩ | ⟨hi, -⟩
    · exact Int.le_refl _
    · omega
  have hrest : ∀ iter' : DictIterator, iter'.nextEntry = none → remaining d iter' =
      ahead d iter'.table (iter'.index + 1).toNat ++
        if iter'.table = 0 then ahead d 1 0 else [] := by
    intro iter' hn
    rw [remaining, restOf, hn]
    rfl
  have hsize : ∀ t, (d.ht t).size = (d.ht t).table.length := fun t => (h.wf.ht_wf t).size
  have hbusy := isRehashing_pauseFirst d iter
  have hpaused := h.paused hroom
  rw [nextBucket]
  simp only [pauseFirst_ht, hbusy]
  by_cases hlast : ((d.ht iter.table).size : ℤ) ≤ iter.index + 1
  · have hend : ahead d iter.table (iter.index + 1).toNat = [] :=
      ahead_eq_nil (by rw [← hsize]; omega)
    by_cases hsecond : dictIsRehashing d = true ∧ iter.table = 0
    · -- the first table is at its end, and the second one follows
      obtain ⟨hr, ht⟩ := hsecond
      have hpos := (h.wf.moving (isRehashing_iff.mp hr)).2.2.1
      have hlt : 0 < (d.ht 1).table.length := by
        rw [← hsize]
        exact hpos
      refine .inr ⟨{ iter with table := 1, index := 0, entry := (chainAt d 1 0).head? }, ?_, rfl,
        hnext, Int.le_refl 0, .inr ⟨rfl, hr⟩, ?_, ?_⟩
      · have hhead : chainAt d 1 0 = (d.ht 1).table[0].map (·.addr) := by
          rw [chainAt, Dictht.addrsAt, List.getElem?_eq_getElem hlt]
          rfl
        rw [ht] at hlast
        simp only [hlast, hr, ht, decide_true, Bool.true_and, beq_self_eq_true, Bool.not_true,
          Bool.false_eq_true, if_false, if_true, Nat.zero_add, Int.toNat_zero,
          List.getElem?_eq_getElem hlt, Option.bind_eq_bind, Option.bind_some, hhead,
          List.head?_map]
        rfl
      · rw [hrest iter hnext, hend, ht, if_pos rfl, List.nil_append, ahead_eq_append hlt,
          hrest ⟨0, 1, (chainAt d 1 0).head?, iter.nextEntry⟩ hnext, if_neg Nat.one_ne_zero,
          List.append_nil]
        rfl
      · rw [roundsLeft, hnone, ht]
        have h1 : (d.ht 1).size = d.ht1.size := rfl
        simp only [if_true, h1]
        rw [if_neg (by omega)]
        omega
    · -- there is nothing behind
      have hnothing : (if iter.table = 0 then ahead d 1 0 else []) = [] := by
        split
        · rename_i ht
          have hr : dictIsRehashing d = false := by
            rw [← Bool.not_eq_true]
            exact fun hr => hsecond ⟨hr, ht⟩
          refine ahead_eq_nil ?_
          show d.ht1.table.length ≤ 0
          rw [h.wf.idle (not_isRehashing_iff.mp hr)]
          exact Nat.le_refl 0
        · rfl
      have hempty : remaining d iter = [] := by
        rw [hrest _ hnext, hend, hnothing]
        rfl
      refine .inl ⟨hempty, { iter with index := iter.index + 1 }, ?_, ?_, ?_⟩
      · have htest : (dictIsRehashing d && iter.table == 0) = false := by
          rw [← Bool.not_eq_true, Bool.and_eq_true, beq_iff_eq]
          exact hsecond
        simp [hlast, htest]
      · refine ⟨h.wf.pauseFirst iter, ?_, .inr ⟨?_, hpaused⟩, fun _ => hnext, fun n hn => ?_⟩
        · rw [hbusy]
          exact h.table
        · show 0 ≤ iter.index + 1
          omega
        · rw [hnext] at hn
          cases hn
      · rw [hrest { iter with index := iter.index + 1 } hnext, hnothing]
        have hover : (d.ht iter.table).table.length ≤ (iter.index + 1 + 1).toNat := by
          rw [← hsize]
          omega
        rw [ahead_eq_nil hover]
        rfl
  · have hlt : (iter.index + 1).toNat < (d.ht iter.table).table.length := by
      rw [← hsize]
      omega
    refine .inr ⟨{ iter with
      index := iter.index + 1
      entry := (chainAt d iter.table (iter.index + 1).toNat).head? }, ?_, rfl, hnext, ?_, h.table,
      ?_, ?_⟩
    · have hhead : chainAt d iter.table (iter.index + 1).toNat =
          (d.ht iter.table).table[(iter.index + 1).toNat].map (·.addr) := by
        rw [chainAt, Dictht.addrsAt, List.getElem?_eq_getElem hlt]
        rfl
      simp only [hlast, decide_false, Bool.false_and, Bool.false_eq_true, if_false,
        List.getElem?_eq_getElem hlt, Option.bind_eq_bind, Option.bind_some, hhead, List.head?_map]
      rfl
    · show 0 ≤ iter.index + 1
      omega
    · have hsucc : (iter.index + 1).toNat + 1 = (iter.index + 1 + 1).toNat := by omega
      rw [hrest iter hnext, ahead_eq_append hlt, List.append_assoc, hsucc]
      rw [hrest ⟨iter.index + 1, iter.table, _, iter.nextEntry⟩ hnext]
    · rw [roundsLeft, hnone]
      show (d.ht iter.table).size - (iter.index + 1 + 1).toNat + _ + 1 < _
      simp only [if_true]
      omega

/-- The entries after the one that has been returned, as the saved link leads to them. -/
theorem restOf_eq {d : Dict κ ν} {iter : DictIterator} (h : d.Wf type) {l₁ l₂ : List ℕ} {x : ℕ}
    (hchain : chainAt d iter.table iter.index.toNat = l₁ ++ x :: l₂)
    (hnext : iter.nextEntry = l₂.head?) : restOf d iter = l₂ := by
  have hnd := h.chain_nodup iter.table iter.index.toNat
  rw [restOf, hnext]
  cases l₂ with
  | nil => rfl
  | cons y l₂ =>
    have hsplit : l₁ ++ x :: y :: l₂ = (l₁ ++ [x]) ++ y :: l₂ := by simp
    rw [hchain, hsplit, List.nodup_append] at hnd
    have hy : y ∉ l₁ ++ [x] := fun hm => hnd.2.2 y hm y List.mem_cons_self rfl
    show (chainAt d iter.table iter.index.toNat).dropWhile (fun a => a ≠ y) = _
    rw [hchain, hsplit, dropWhile_split hy]

/-- An entry of a chain is returned, and the link behind it is saved. -/
theorem returned_spec {d : Dict κ ν} (iter : DictIterator) (h : d.Wf type)
    (hindex : 0 ≤ iter.index)
    (htable : iter.table = 0 ∨ (iter.table = 1 ∧ dictIsRehashing d = true))
    (hpaused : 0 < d.pauserehash) {l₁ l₂ : List ℕ} {x : ℕ}
    (hchain : chainAt d iter.table iter.index.toNat = l₁ ++ x :: l₂)
    (hentry : iter.entry = some x) :
    entryNext d x = some l₂.head? ∧ { iter with nextEntry := l₂.head? }.Valid type d ∧
      remaining d { iter with nextEntry := l₂.head? } =
        l₂ ++ remaining d { iter with nextEntry := none } := by
  refine ⟨entryNext_spec h hchain, ⟨h, htable, .inr ⟨hindex, hpaused⟩, fun hn => ?_,
    fun n hn => ?_⟩, ?_⟩
  · rw [hentry] at hn
    cases hn
  · show n ∈ chainAt d iter.table iter.index.toNat
    rw [hchain]
    exact List.mem_append_right _ (List.mem_cons_of_mem _ (List.mem_of_mem_head? hn))
  · have hrest : restOf d { iter with nextEntry := l₂.head? } = l₂ := restOf_eq h hchain rfl
    rw [remaining, hrest]
    rfl

/-- The loop of `dictNext` returns the first of the entries ahead. -/
theorem nextLoop_spec {fuel : ℕ} : ∀ {d : Dict κ ν} {iter : DictIterator}, iter.Valid type d →
    Pausable d ∨ iter.index ≠ -1 → roundsLeft d iter ≤ fuel → ∃ iter',
      nextLoop fuel d iter = some (pauseFirst d iter, iter', (remaining d iter).head?) ∧
      iter'.Valid type (pauseFirst d iter) ∧ remaining d iter' = (remaining d iter).tail := by
  induction fuel with
  | zero => exact fun _ _ hf => absurd hf (by simp [roundsLeft])
  | succ fuel ih =>
    intro d iter h hroom hf
    have hrem : ∀ iter', remaining (pauseFirst d iter) iter' = remaining d iter' :=
      remaining_congr (pauseFirst_ht d iter)
    have hbusy := isRehashing_pauseFirst d iter
    have hpaused := h.paused hroom
    rw [nextLoop]
    cases hentry : iter.entry with
    | none =>
      rcases nextBucket_spec h hroom hentry with ⟨hempty, iter', hbucket, hvalid, hnil⟩ |
        ⟨iter', hbucket, hhead, hnext, hindex, htable, hsplit, hrounds⟩
      · refine ⟨iter', ?_, hvalid, by rw [hnil, hempty]; rfl⟩
        simp only [hbucket, hempty, Option.bind_eq_bind, Option.bind_some]
        rfl
      · rw [← hbusy] at htable
        simp only [hbucket, Option.bind_eq_bind, Option.bind_some, Bool.not_true,
          Bool.false_eq_true, if_false]
        cases hc : chainAt d iter'.table iter'.index.toNat with
        | nil =>
          -- an empty bucket
          rw [hc, List.head?_nil] at hhead
          rw [hc, List.nil_append] at hsplit
          have hvalid : iter'.Valid type (pauseFirst d iter) :=
            ⟨h.wf.pauseFirst iter, htable, .inr ⟨hindex, hpaused⟩, fun _ => hnext,
              fun n hn => by rw [hnext] at hn; cases hn⟩
          have hstill : pauseFirst (pauseFirst d iter) iter' = pauseFirst d iter := by
            rw [pauseFirst, if_neg (by omega)]
          have hht : (pauseFirst d iter).ht1 = d.ht1 := pauseFirst_ht d iter 1
          obtain ⟨iter'', hloop, hvalid', htail⟩ := ih hvalid (.inr (by omega)) (by
            rw [roundsLeft, hhead, pauseFirst_ht, hht, if_pos rfl]
            omega)
          rw [hstill, hrem] at hloop
          rw [hstill] at hvalid'
          rw [hrem, hrem] at htail
          rw [hsplit]
          exact ⟨iter'', by rw [hhead]; exact hloop, hvalid', htail⟩
        | cons x l =>
          rw [hc, List.head?_cons] at hhead
          rw [← chainAt_pauseFirst d iter] at hc
          rw [← List.nil_append (x :: l)] at hc
          obtain ⟨hlink, hvalid, hback⟩ := returned_spec iter' (h.wf.pauseFirst iter) hindex
            htable hpaused hc hhead
          rw [List.nil_append] at hc
          have hsame : ({ iter' with nextEntry := none } : DictIterator) = iter' := by
            rw [← hnext]
          rw [chainAt_pauseFirst] at hc
          rw [hrem, hrem, hsame] at hback
          refine ⟨{ iter' with nextEntry := l.head? }, ?_, hvalid, ?_⟩
          · rw [hhead]
            simp only [hlink, Option.bind_some, hsplit, hc]
            rfl
          · rw [hback, hsplit, hc]
            rfl
    | some e =>
      obtain ⟨index, table, entry, nextEntry⟩ := iter
      obtain rfl : entry = some e := hentry
      have hstart : 0 ≤ index := by
        rcases h.started with ⟨hi, -⟩ | ⟨hi, -⟩
        · cases hi
        · exact hi
      have hstill : ∀ entry nextEntry, pauseFirst d ⟨index, table, entry, nextEntry⟩ = d :=
        fun _ _ => if_neg fun hfirst => absurd (show index = -1 from hfirst.1) (by omega)
      rw [hstill] at hpaused ⊢
      simp only [Option.bind_eq_bind, Option.bind_some, Bool.not_true, Bool.false_eq_true, if_false]
      cases nextEntry with
      | none =>
        -- the chain is at its end
        have hvalid : DictIterator.Valid type d ⟨index, table, none, none⟩ :=
          ⟨h.wf, h.table, .inr ⟨hstart, hpaused⟩, fun _ => rfl, fun n hn => nomatch hn⟩
        obtain ⟨iter', hloop, hvalid', htail⟩ := ih hvalid (.inr (by dsimp only; omega)) (by
          simp only [roundsLeft, reduceCtorEq, if_false] at hf
          simp only [roundsLeft, if_true]
          omega)
        rw [hstill] at hloop hvalid'
        exact ⟨iter', hloop, hvalid', htail⟩
      | some n =>
        obtain ⟨l₁, l₂, hc, hn⟩ := List.eq_append_cons_of_mem (h.saved n rfl)
        obtain ⟨hlink, hvalid, hback⟩ := returned_spec ⟨index, table, some n, some n⟩ h.wf hstart
          h.table hpaused hc rfl
        have hold : remaining d ⟨index, table, some e, some n⟩ =
            n :: (l₂ ++ remaining d ⟨index, table, some n, none⟩) := by
          have hrest : restOf d ⟨index, table, some e, some n⟩ = n :: l₂ := by
            have hc : chainAt d table index.toNat = l₁ ++ n :: l₂ := hc
            rw [← dropWhile_split hn, ← hc]
            rfl
          rw [remaining, hrest]
          rfl
        refine ⟨⟨index, table, some n, l₂.head?⟩, ?_, hvalid, hback.trans (by rw [hold]; rfl)⟩
        simp only [hlink, hold, Option.bind_some]
        rfl

/-- **`dictNext`** returns the first of the entries ahead, and leaves the others. -/
theorem dictNext_spec {d : Dict κ ν} {iter : DictIterator} (h : iter.Valid type d)
    (hroom : Pausable d) :
    ∃ iter', dictNext d iter = some (pauseFirst d iter, iter', (remaining d iter).head?) ∧
      iter'.Valid type (pauseFirst d iter) ∧ remaining d iter' = (remaining d iter).tail := by
  refine nextLoop_spec h (.inl hroom) ?_
  rw [roundsLeft, Dict.ht]
  split <;> split <;> omega

/-! ## What may happen in between -/

omit [DecidableEq κ] in
/-- Nothing is moved: a chain gets new entries at its head and loses old ones, and that is all. -/
structure Steady (p : ℕ → Bool) (d d' : Dict κ ν) : Prop where
  chains : ∀ t i, ∃ new, (∀ a ∈ new, d.zmalloc ≤ a) ∧
    chainAt d' t i = new ++ (chainAt d t i).filter p

omit [DecidableEq κ] in
theorem Steady.of_chains {p : ℕ → Bool} {d d' : Dict κ ν} (hp : ∀ x, p x = true)
    (h : ∀ t i, chainAt d' t i = chainAt d t i) : Steady p d d' :=
  ⟨fun t i => ⟨[], fun _ ha => (nomatch ha), by
    rw [h, List.nil_append, List.filter_eq_self.mpr fun x _ => hp x]⟩⟩

omit [DecidableEq κ] in
/-- What is ahead of an iterator stays ahead of it, and only what is new is added. -/
theorem Steady.remaining {p : ℕ → Bool} {d d' : Dict κ ν} (hs : Steady p d d')
    {iter : DictIterator} (hsaved : ∀ n, iter.nextEntry = some n → p n = true)
    (hlt : ∀ n, iter.nextEntry = some n → n < d.zmalloc) (x : ℕ) :
    (x ∈ remaining d' iter → x ∈ remaining d iter ∨ d.zmalloc ≤ x) ∧
      (x ∈ remaining d iter → p x = true → x ∈ remaining d' iter) := by
  have hchain : ∀ t i, (x ∈ chainAt d' t i → x ∈ chainAt d t i ∨ d.zmalloc ≤ x) ∧
      (x ∈ chainAt d t i → p x = true → x ∈ chainAt d' t i) := by
    intro t i
    obtain ⟨new, hnew, heq⟩ := hs.chains t i
    rw [heq, List.mem_append, List.mem_filter]
    exact ⟨fun h => h.elim (fun h => .inr (hnew x h)) fun h => .inl h.1,
      fun h hp => .inr ⟨h, hp⟩⟩
  have hahead : ∀ t k, (x ∈ ahead d' t k → x ∈ ahead d t k ∨ d.zmalloc ≤ x) ∧
      (x ∈ ahead d t k → p x = true → x ∈ ahead d' t k) := by
    intro t k
    rw [mem_ahead, mem_ahead]
    refine ⟨fun ⟨i, hi, h⟩ => ?_, fun ⟨i, hi, h⟩ hp => ⟨i, hi, (hchain t i).2 h hp⟩⟩
    exact ((hchain t i).1 h).imp_left fun h => ⟨i, hi, h⟩
  have hrest : (x ∈ restOf d' iter → x ∈ restOf d iter) ∧
      (x ∈ restOf d iter → p x = true → x ∈ restOf d' iter) := by
    rw [restOf, restOf]
    cases hn : iter.nextEntry with
    | none => exact ⟨id, fun h _ => h⟩
    | some n =>
      obtain ⟨new, hnew, heq⟩ := hs.chains iter.table iter.index.toNat
      have hskip : ∀ a ∈ new, decide (a ≠ n) = true := by
        intro a ha
        have := hnew a ha
        have := hlt n hn
        exact decide_eq_true (by omega)
      simp only [heq, List.dropWhile_append_of_pos hskip, dropWhile_filter (hsaved n hn),
        List.mem_filter]
      exact ⟨fun h => h.1, fun h hp => ⟨h, hp⟩⟩
  rw [Redis.remaining, Redis.remaining, List.mem_append, List.mem_append, List.mem_append,
    List.mem_append]
  have hlast : (x ∈ (if iter.table = 0 then ahead d' 1 0 else []) →
      x ∈ (if iter.table = 0 then ahead d 1 0 else []) ∨ d.zmalloc ≤ x) ∧
      (x ∈ (if iter.table = 0 then ahead d 1 0 else []) → p x = true →
        x ∈ if iter.table = 0 then ahead d' 1 0 else []) := by
    split
    · exact hahead 1 0
    · exact ⟨.inl, fun h _ => h⟩
  obtain ⟨ha, ha'⟩ := hahead iter.table (iter.index + 1).toNat
  constructor
  · rintro (h | h | h)
    · exact .inl (.inl (hrest.1 h))
    · exact (ha h).imp_left fun h => .inr (.inl h)
    · exact (hlast.1 h).imp_left fun h => .inr (.inr h)
  · rintro (h | h | h) hp
    · exact .inl (hrest.2 h hp)
    · exact .inr (.inl (ha' h hp))
    · exact .inr (.inr (hlast.2 h hp))

/-- The calls that the user may make between two calls of `dictNext`: nothing that moves entries or
lets others move them, and no deletion of the entry that the iterator has saved. -/
def Op.Spares (type : DictType κ ν) (d : Dict κ ν) (saved : Option ℕ) : Op κ ν → Prop
  | .delete key | .unlink key =>
      saved = none ∨ (lookup type d.entries key).map (·.addr) ≠ saved
  | .rehash _ | .resumeRehashing | .empty => False
  | _ => True

instance (d : Dict κ ν) (saved : Option ℕ) : ∀ op : Op κ ν, Decidable (op.Spares type d saved)
  | .delete _ | .unlink _ => inferInstanceAs (Decidable (_ ∨ _))
  | .rehash _ | .resumeRehashing | .empty => inferInstanceAs (Decidable False)
  | .add .. | .addRaw .. | .addOrFind .. | .replace .. | .find _ | .fetchValue _ | .count
  | .expand _ | .tryExpand .. | .resize | .pauseRehashing | .enableResize | .disableResize =>
    inferInstanceAs (Decidable True)

/-- What a call does that an iterator has to know: entries are only removed where `p` says so. -/
structure Change (type : DictType κ ν) (p : ℕ → Bool) (d d' : Dict κ ν) : Prop where
  wf : d'.Wf type
  zmalloc : d.zmalloc ≤ d'.zmalloc
  pauserehash : d.pauserehash ≤ d'.pauserehash
  addrs : ∀ x ∈ d'.addrs, x ∈ d.addrs ∨ d.zmalloc ≤ x
  rehashing : d.pauserehash ≠ 0 → dictIsRehashing d = true → dictIsRehashing d' = true
  steady : d.pauserehash ≠ 0 → Steady p d d'

/-- Every entry is kept. -/
def everything (_ : ℕ) : Bool := true

theorem Change.trans {p q : ℕ → Bool} {d d' d'' : Dict κ ν} (h : Change type p d d')
    (h' : Change type q d' d'') (hp : 0 ≤ d.pauserehash) :
    Change type (fun x => q x && p x) d d'' := by
  have hpaused : d.pauserehash ≠ 0 → d'.pauserehash ≠ 0 := by
    have := h.pauserehash
    grind
  refine ⟨h'.wf, h.zmalloc.trans h'.zmalloc, Int16.le_trans h.pauserehash h'.pauserehash,
    fun x hx => ?_, fun hne hr => h'.rehashing (hpaused hne) (h.rehashing hne hr),
    fun hne => ⟨fun t i => ?_⟩⟩
  · rcases h'.addrs x hx with hx | hx
    · exact h.addrs x hx
    · exact .inr (h.zmalloc.trans hx)
  · obtain ⟨new, hnew, heq⟩ := (h.steady hne).chains t i
    obtain ⟨new', hnew', heq'⟩ := (h'.steady (hpaused hne)).chains t i
    refine ⟨new' ++ new.filter q, fun a ha => ?_, ?_⟩
    · rcases List.mem_append.mp ha with ha | ha
      · exact h.zmalloc.trans (hnew' a ha)
      · exact hnew a (List.mem_of_mem_filter ha)
    · rw [heq', heq, List.filter_append, List.filter_filter, List.append_assoc]

/-- Nothing changes but switches. -/
theorem Change.of_ht {d d' : Dict κ ν} (hwf : d'.Wf type) (h0 : d'.ht0 = d.ht0)
    (h1 : d'.ht1 = d.ht1) (hidx : d'.rehashidx = d.rehashidx) (hz : d'.zmalloc = d.zmalloc)
    (hp : d.pauserehash ≤ d'.pauserehash) : Change type everything d d' := by
  have hht : ∀ t, d'.ht t = d.ht t := by
    intro t
    rw [Dict.ht, Dict.ht, h0, h1]
  refine ⟨hwf, hz.ge, hp, fun x hx => .inl ?_, fun _ hr => ?_, fun _ =>
    .of_chains (fun _ => rfl) fun t i => by rw [chainAt, hht, chainAt]⟩
  · rwa [Dict.addrs, Dict.entries, h0, h1] at hx
  · rwa [dictIsRehashing, hidx]

theorem Change.refl {d : Dict κ ν} (h : d.Wf type) : Change type everything d d :=
  .of_ht h rfl rfl rfl rfl (Int16.le_refl _)

/-- A step of the move is not made while it is paused. -/
theorem change_rehashStep (hl : type.Lawful) {d d' : Dict κ ν} (h : d.Wf type)
    (hstep : rehashStepIfRehashing type d = some d') : Change type everything d d' := by
  obtain ⟨d₁, hstep', hwf, hsame, hstill, -⟩ := rehashStepIfRehashing_spec hl h
  obtain rfl := Option.some.inj (hstep.symm.trans hstep')
  have hpaused : d.pauserehash ≠ 0 → d' = d := by
    intro hne
    rcases hstill with heq | ⟨-, hz, -⟩
    · exact heq
    · exact absurd hz hne
  refine ⟨hwf, hsame.zmalloc.ge, Int16.le_of_eq hsame.pauserehash.symm, fun x hx => .inl ?_,
    fun hne hr => ?_, fun hne => ?_⟩
  · exact ((hsame.entries.map _).mem_iff).mp hx
  · rwa [hpaused hne]
  · rw [hpaused hne]
    exact .of_chains (fun _ => rfl) fun _ _ => rfl

/-- A new table is empty. -/
theorem Expanded.change {d d' : Dict κ ν} {size : ℕ} {ok : Bool} (he : Expanded d size d' ok)
    (h : d.Wf type) : Change type everything d d' := by
  obtain ⟨hwf, hsame⟩ := he.wf h
  have hempty : ∀ k i : ℕ, (freshTable k : Dictht κ ν).addrsAt i = [] := by
    intro k i
    rw [Dictht.addrsAt]
    cases hc : (freshTable k : Dictht κ ν).table[i]? with
    | none => rfl
    | some c => rw [Option.getD_some, List.eq_of_mem_replicate (List.mem_of_getElem? hc)]; rfl
  refine ⟨hwf, hsame.zmalloc.ge, Int16.le_of_eq hsame.pauserehash.symm, fun x hx => .inl ?_,
    fun _ hr => ?_, fun _ => .of_chains (fun _ => rfl) fun t i => ?_⟩
  · exact ((hsame.entries.map _).mem_iff).mp hx
  · cases he with
    | skipped => exact hr
    | first _ _ _ hidx => exact absurd hidx (isRehashing_iff.mp hr)
    | second _ _ _ _ hidx => exact absurd hidx (isRehashing_iff.mp hr)
  · cases he with
    | skipped => rfl
    | first _ _ hsize =>
      have htable : d.ht0.table = [] := List.length_eq_zero_iff.mp (h.ht0.size ▸ hsize)
      rw [chainAt, chainAt, Dict.ht, Dict.ht]
      split
      · rw [hempty, Dictht.addrsAt, htable]
        rfl
      · rfl
    | second _ _ _ _ hidx =>
      rw [chainAt, chainAt, Dict.ht, Dict.ht, h.idle hidx]
      split
      · rfl
      · rw [hempty]
        rfl

/-- A new entry is put at the head of a chain. -/
theorem Pushed.change (hl : type.Lawful) {d d' : Dict κ ν} {de : DictEntry κ ν}
    (hp : Pushed type d de d') (h : d.Wf type) (hpos : 0 < d.ht0.size)
    (hnew : lookup type d.entries de.key = none) (haddr : de.addr = d.zmalloc) :
    Change type everything d d' := by
  have hwf := hp.wf hl h hpos hnew haddr
  have hperm := (hp.perm h hpos).1
  have hchain : ∀ {ht ht' : Dictht κ ν} {i : ℕ}, pushEntry ht i de = some ht' → ∀ j,
      ∃ new, (∀ a ∈ new, d.zmalloc ≤ a) ∧
        ht'.addrsAt j = new ++ (ht.addrsAt j).filter everything := by
    intro ht ht' i hpush j
    have hall : (ht.addrsAt j).filter everything = ht.addrsAt j :=
      List.filter_eq_self.mpr fun _ _ => rfl
    rw [hall]
    cases hc : ht.table[i]? with
    | none =>
      rw [pushEntry, hc] at hpush
      cases hpush
    | some c =>
      rw [pushEntry, hc] at hpush
      obtain rfl := Option.some.inj hpush
      rw [Dictht.addrsAt, Dictht.addrsAt, List.getElem?_set]
      split
      · rename_i hij
        subst hij
        rw [if_pos (List.getElem?_eq_some_iff.mp hc).1, hc]
        exact ⟨[de.addr], fun a ha => by rw [List.mem_singleton.mp ha, haddr], rfl⟩
      · exact ⟨[], fun _ ha => absurd ha List.not_mem_nil, rfl⟩
  have hz : d'.zmalloc = d.zmalloc + 1 := by cases hp <;> rfl
  refine ⟨hwf, by omega, by cases hp <;> exact Int16.le_refl _, fun x hx => ?_, fun _ hr => ?_,
    fun _ => ⟨fun t i => ?_⟩⟩
  · rcases List.mem_cons.mp ((hperm.map (·.addr)).mem_iff.mp hx) with rfl | hx
    · exact .inr haddr.ge
    · exact .inl hx
  · cases hp <;> exact hr
  · have hsame : ∀ ht : Dictht κ ν, ∃ new, (∀ a ∈ new, d.zmalloc ≤ a) ∧
        ht.addrsAt i = new ++ (ht.addrsAt i).filter everything := fun ht =>
      ⟨[], fun _ ha => absurd ha List.not_mem_nil, (List.filter_eq_self.mpr fun _ _ => rfl).symm⟩
    rw [chainAt, chainAt, Dict.ht, Dict.ht]
    cases hp with
    | first _ hpush =>
      split
      · exact hchain hpush i
      · exact hsame _
    | second _ hpush =>
      split
      · exact hsame _
      · exact hchain hpush i

/-- Values are set where the entries are. -/
theorem setVal_change {d : Dict κ ν} (h : d.Wf type) (addr : ℕ) (val : ν) :
    Change type everything d (dictSetVal type d addr val) := by
  have haddr : ∀ c : List (DictEntry κ ν), (c.map (setAt type addr val)).map (·.addr) =
      c.map (·.addr) := by
    intro c
    rw [List.map_map]
    exact List.map_congr_left fun he _ => setAt_addr addr val he
  refine ⟨h.setVal addr val, Nat.le_refl _, Int16.le_refl _, fun x hx => .inl ?_, fun _ hr => hr,
    fun _ => .of_chains (fun _ => rfl) fun t i => ?_⟩
  · rwa [Dict.addrs, dictSetVal_entries, haddr] at hx
  · have hget : ∀ ht : Dictht κ ν,
        ({ ht with table := ht.table.map (·.map (setAt type addr val)) } : Dictht κ ν).addrsAt i =
          ht.addrsAt i := by
      intro ht
      rw [Dictht.addrsAt, Dictht.addrsAt, List.getElem?_map]
      cases ht.table[i]? with
      | none => rfl
      | some c => exact haddr c
    rw [chainAt, chainAt, Dict.ht, Dict.ht]
    split
    · exact hget d.ht0
    · exact hget d.ht1

/-- An entry is unlinked, and the others stay in their order. -/
theorem Removed.change {d d' : Dict κ ν} {he : DictEntry κ ν} (hr : Removed d he d')
    (h : d.Wf type) (h' : d'.Wf type) (hperm : (he :: d'.entries).Perm d.entries) :
    Change type (fun x => x ≠ he.addr) d d' := by
  have hnd : (he.addr :: d'.addrs).Nodup :=
    ((hperm.map DictEntry.addr).nodup_iff).mpr h.addrs_nodup
  have hkeep : ∀ l : List ℕ, he.addr ∉ l → l.filter (fun x => x ≠ he.addr) = l := by
    intro l hl
    refine List.filter_eq_self.mpr fun x hx => ?_
    exact decide_eq_true fun heq => hl (heq ▸ hx)
  have hgone : ∀ t i, he.addr ∉ chainAt d' t i := fun t i hm =>
    (List.nodup_cons.mp hnd).1 (mem_addrs.mpr ⟨t, i, hm⟩)
  have hchain : ∀ {ht : Dictht κ ν} {j : ℕ} {l₁ l₂ : List (DictEntry κ ν)},
      ht.table[j]? = some (l₁ ++ he :: l₂) → ∀ i,
      he.addr ∉ ({ ht with table := ht.table.set j (l₁ ++ l₂), used := ht.used - 1 } :
        Dictht κ ν).addrsAt i →
      ({ ht with table := ht.table.set j (l₁ ++ l₂), used := ht.used - 1 } :
        Dictht κ ν).addrsAt i = (ht.addrsAt i).filter (fun x => x ≠ he.addr) := by
    intro ht j l₁ l₂ hj i
    rw [Dictht.addrsAt, Dictht.addrsAt, List.getElem?_set]
    split
    · rename_i hij
      subst hij
      rw [if_pos (List.getElem?_eq_some_iff.mp hj).1, hj]
      intro hne
      simp only [Option.getD_some, List.map_append, List.map_cons, List.filter_append] at hne ⊢
      rw [List.mem_append, not_or] at hne
      rw [List.filter_cons_of_neg (by simp), hkeep _ hne.1, hkeep _ hne.2]
    · exact fun hne => (hkeep _ hne).symm
  have hz : d'.zmalloc = d.zmalloc := by cases hr <;> rfl
  refine ⟨h', hz.ge, by cases hr <;> exact Int16.le_refl _, fun x hx => .inl ?_, fun _ hb => ?_,
    fun _ => ⟨fun t i => ⟨[], fun _ ha => (nomatch ha), ?_⟩⟩⟩
  · exact ((hperm.map (·.addr)).mem_iff).mp (List.mem_cons_of_mem _ hx)
  · cases hr <;> exact hb
  · have hne := hgone t i
    rw [List.nil_append]
    rw [chainAt, Dict.ht] at hne ⊢
    rw [chainAt, Dict.ht]
    cases hr with
    | first hj =>
      split
      · rename_i ht
        rw [if_pos ht] at hne
        exact hchain hj i hne
      · rename_i ht
        rw [if_neg ht] at hne
        exact (hkeep _ hne).symm
    | second _ hj =>
      split
      · rename_i ht
        rw [if_pos ht] at hne
        exact (hkeep _ hne).symm
      · rename_i ht
        rw [if_neg ht] at hne
        exact hchain hj i hne

theorem dictExpandIfNeeded_change {d d' : Dict κ ν} (h : d.Wf type) (hfits : dictSize d < 2 ^ 60)
    (hexp : dictExpandIfNeeded type d = (d', true)) : Change type everything d d' := by
  obtain ⟨d₁, hexp', -, -, -, ⟨rfl, -⟩ | ⟨he, -⟩ | ⟨he, -⟩⟩ := dictExpandIfNeeded_spec h hfits
  all_goals
    rw [hexp, Prod.mk.injEq] at hexp'
    obtain rfl := hexp'.1
  · exact .refl h
  · exact he.change h
  · exact he.change h

/-- An entry is added, or there is one. -/
theorem dictAddRaw_change (hl : type.Lawful) {d : Dict κ ν} (h : d.Wf type)
    (hfits : dictSize d < 2 ^ 60) (hp : 0 ≤ d.pauserehash) (key : κ) (garbage : ν) :
    ∃ d' he, Change type everything d d' ∧
      (dictAddRaw type d key garbage = some (d', .error (some he)) ∨
        dictAddRaw type d key garbage = some (d', .ok he)) := by
  obtain ⟨d₁, d₂, hstep, hexp, hwf, hsame, hpos, hcases⟩ := dictAddRaw_spec hl h hfits key garbage
  have hchange₁ := change_rehashStep hl h hstep
  have hsame₁ : d.Same d₁ := by
    obtain ⟨d', hstep', -, hsame', -⟩ := rehashStepIfRehashing_spec hl h
    obtain rfl := Option.some.inj (hstep.symm.trans hstep')
    exact hsame'
  have hchange₂ := hchange₁.trans (dictExpandIfNeeded_change hchange₁.wf (by
    rwa [hchange₁.wf.size_eq, hsame₁.entries.length_eq, ← h.size_eq]) hexp) hp
  rcases hcases with ⟨he, -, hadd⟩ | ⟨hnone, d', hadd, hpush⟩
  · exact ⟨d₂, he, hchange₂, .inl hadd⟩
  · refine ⟨d', _, hchange₂.trans (hpush.change hl hwf hpos ?_ hsame.zmalloc.symm) hp, .inr hadd⟩
    rw [lookup_perm hl h.apart hsame.entries]
    refine lookup_eq_none.mpr fun e hmem => ?_
    rw [← Bool.not_eq_true]
    intro hc
    have hsame' := hl.trans _ _ _ (hl.dup key) hc
    rw [lookup_eq_none.mp hnone e hmem] at hsame'
    cases hsame'

theorem dictGenericDelete_change (hl : type.Lawful) {d : Dict κ ν} (h : d.Wf type)
    (hp : 0 ≤ d.pauserehash) (key : κ) : ∃ d' he p, dictGenericDelete type d key = some (d', he) ∧
      Change type p d d' ∧
      ∀ x, p x = false → (lookup type d.entries key).map (·.addr) = some x := by
  obtain ⟨d₁, hwf, hsame, hstep, hcases⟩ := dictGenericDelete_spec hl h key
  have hchange : Change type everything d d₁ := by
    rcases hstep with rfl | hstep
    · exact .refl h
    · exact change_rehashStep hl h hstep
  rcases hcases with ⟨-, hdel⟩ | ⟨he, d', hfound, hdel, hrem, hwf', hperm⟩
  · exact ⟨d₁, none, everything, hdel, hchange, fun x hx => nomatch hx⟩
  · have hperm' := hperm.trans hsame.entries.symm
    refine ⟨d', some he, _, hdel, hchange.trans (hrem.change hwf hwf' hperm') hp, fun x hx => ?_⟩
    rw [hfound, Option.map_some, Option.some.injEq]
    have hne : ¬ x ≠ he.addr := by simpa [everything] using hx
    exact (not_not.mp hne).symm

theorem dictFind_change (hl : type.Lawful) {d : Dict κ ν} (h : d.Wf type) (key : κ) :
    ∃ d' he, dictFind type d key = some (d', he) ∧ Change type everything d d' := by
  obtain ⟨d₁, -, -, hstep, hfind⟩ := dictFind_spec hl h key
  refine ⟨d₁, _, hfind, ?_⟩
  rcases hstep with rfl | hstep
  · exact .refl h
  · exact change_rehashStep hl h hstep

/-- **A call in between** keeps every entry but the one it deletes, and moves none. -/
theorem Op.exec_change (hl : type.Lawful) {d : Dict κ ν} (h : d.Wf type)
    (hfits : dictSize d < 2 ^ 60) (hp : 0 ≤ d.pauserehash) (hroom : Pausable d)
    {saved : Option ℕ} {op : Op κ ν} (hspares : op.Spares type d saved) :
    ∃ d' a p, op.exec type d = some (d', a) ∧ Change type p d d' ∧ ∀ n, saved = some n → p n = true := by
  have hkept : ∀ n, saved = some n → everything n = true := fun _ _ => rfl
  have hset : ∀ {d' : Dict κ ν}, Change type everything d d' → ∀ addr val,
      Change type everything d (dictSetVal type d' addr val) := fun hc addr val =>
    hc.trans (setVal_change hc.wf addr val) hp
  cases op with
  | add key val garbage =>
    obtain ⟨d', he, hchange, hadd | hadd⟩ := dictAddRaw_change hl h hfits hp key garbage
    · exact ⟨_, _, _, by rw [Op.exec, dictAdd, hadd]; rfl, hchange, hkept⟩
    · exact ⟨_, _, _, by rw [Op.exec, dictAdd, hadd]; rfl, hset hchange _ _, hkept⟩
  | addRaw key garbage =>
    obtain ⟨d', he, hchange, hadd | hadd⟩ := dictAddRaw_change hl h hfits hp key garbage
    · exact ⟨_, _, _, by rw [Op.exec, hadd]; rfl, hchange, hkept⟩
    · exact ⟨_, _, _, by rw [Op.exec, hadd]; rfl, hchange, hkept⟩
  | addOrFind key garbage =>
    obtain ⟨d', he, hchange, hadd | hadd⟩ := dictAddRaw_change hl h hfits hp key garbage
    · exact ⟨_, _, _, by rw [Op.exec, dictAddOrFind, hadd]; rfl, hchange, hkept⟩
    · exact ⟨_, _, _, by rw [Op.exec, dictAddOrFind, hadd]; rfl, hchange, hkept⟩
  | replace key val garbage =>
    obtain ⟨d', he, hchange, hadd | hadd⟩ := dictAddRaw_change hl h hfits hp key garbage
    · exact ⟨_, _, _, by rw [Op.exec, dictReplace, hadd]; rfl, hset hchange _ _, hkept⟩
    · exact ⟨_, _, _, by rw [Op.exec, dictReplace, hadd]; rfl, hset hchange _ _, hkept⟩
  | delete key | unlink key =>
    obtain ⟨d', he, p, hdel, hchange, hgone⟩ := dictGenericDelete_change hl h hp key
    refine ⟨_, _, p, by rw [Op.exec, hdel]; rfl, hchange, fun n hn => ?_⟩
    by_contra hpn
    rcases hspares with hnone | hne
    · rw [hn] at hnone
      cases hnone
    · exact hne ((hgone n (Bool.not_eq_true _ ▸ hpn)).trans hn.symm)
  | find key =>
    obtain ⟨d', he, hfind, hchange⟩ := dictFind_change hl h key
    exact ⟨_, _, _, by rw [Op.exec, hfind]; rfl, hchange, hkept⟩
  | fetchValue key =>
    obtain ⟨d', he, hfind, hchange⟩ := dictFind_change hl h key
    exact ⟨_, _, _, by rw [Op.exec, dictFetchValue, hfind]; rfl, hchange, hkept⟩
  | count => exact ⟨_, _, _, rfl, .refl h, hkept⟩
  | expand size => exact ⟨_, _, _, rfl, (dictExpandWith_spec h size true).1.change h, hkept⟩
  | tryExpand size memory =>
    exact ⟨_, _, _, rfl, (dictExpandWith_spec h size memory).1.change h, hkept⟩
  | resize =>
    refine ⟨_, _, _, rfl, ?_, hkept⟩
    rw [dictResize]
    split
    · exact .refl h
    · exact (dictExpandWith_spec h _ true).1.change h
  | rehash | resumeRehashing | empty => exact absurd hspares id
  | pauseRehashing =>
    refine ⟨_, _, _, rfl, .of_ht ?_ rfl rfl rfl rfl ?_, hkept⟩
    · exact ⟨h.ht0, h.ht1, h.idle, h.moving, h.moved, h.apart, h.addr_lt⟩
    · exact Int16.le_of_lt hroom.lt_pause
  | enableResize | disableResize =>
    refine ⟨_, _, _, rfl, .of_ht ?_ rfl rfl rfl rfl (Int16.le_refl _), hkept⟩
    exact ⟨h.ht0, h.ht1, h.idle, h.moving, h.moved, h.apart, h.addr_lt⟩

/-- A call in between leaves what is ahead of the iterator there. -/
theorem DictIterator.Valid.change {d d' : Dict κ ν} {iter : DictIterator} (h : iter.Valid type d)
    {p : ℕ → Bool} (hc : Change type p d d')
    (hsaved : ∀ n, iter.nextEntry = some n → p n = true) : iter.Valid type d' ∧
      ∀ x, (x ∈ remaining d' iter → x ∈ remaining d iter ∨ d.zmalloc ≤ x) ∧
        (x ∈ remaining d iter → x ∈ d'.addrs → x ∈ remaining d' iter) := by
  have haddr := h.wf.addrs_lt
  rcases h.started with ⟨rfl, hp⟩ | ⟨hindex, hp⟩
  · -- everything is ahead
    have hall : ∀ e : Dict κ ν, remaining e dictGetSafeIterator = e.addrs :=
      fun e => (addrs_eq e).symm
    refine ⟨⟨hc.wf, .inl rfl, .inl ⟨rfl, Int16.le_trans hp hc.pauserehash⟩, fun _ => rfl,
      fun n hn => nomatch hn⟩, fun x => ?_⟩
    rw [hall, hall]
    exact ⟨hc.addrs x, fun _ hx => hx⟩
  · have hne : d.pauserehash ≠ 0 := by grind
    have hsteady := hc.steady hne
    have hold : ∀ n, iter.nextEntry = some n → n < d.zmalloc := fun n hn =>
      haddr n (mem_addrs.mpr ⟨_, _, h.saved n hn⟩)
    refine ⟨⟨hc.wf, h.table.imp_right fun ht => ⟨ht.1, hc.rehashing hne ht.2⟩,
      .inr ⟨hindex, Int16.lt_of_lt_of_le hp hc.pauserehash⟩, h.none, fun n hn => ?_⟩, fun x => ?_⟩
    · obtain ⟨new, -, heq⟩ := hsteady.chains iter.table iter.index.toNat
      rw [heq]
      exact List.mem_append_right _ (List.mem_filter.mpr ⟨h.saved n hn, hsaved n hn⟩)
    · obtain ⟨hback, hforth⟩ := hsteady.remaining hsaved hold x
      refine ⟨hback, fun hx hmem => hforth hx ?_⟩
      -- what is still there has not been removed
      obtain ⟨t, i, hi⟩ := mem_addrs.mp hmem
      obtain ⟨new, hnew, heq⟩ := hsteady.chains t i
      rw [heq] at hi
      rcases List.mem_append.mp hi with hi | hi
      · have := hnew x hi
        have := haddr x (h.remaining_sublist.subset hx)
        omega
      · exact (List.mem_filter.mp hi).2

/-! ## A whole iteration -/

end

/-- A dictionary with an iterator: what has been returned, and whether the end has been reached. -/
structure Iterating (κ ν : Type) where
  d : Dict κ ν
  iter : DictIterator
  returned : List ℕ
  ended : Bool

/-- A new iterator. -/
def Iterating.start (d : Dict κ ν) : Iterating κ ν := ⟨d, dictGetSafeIterator, [], false⟩

/-- A call of `dictNext`, or another one in between. -/
inductive Turn (κ ν : Type) where
  | next
  | op (op : Op κ ν)
  deriving Repr, DecidableEq

section

variable [DecidableEq κ]

def iterStep (type : DictType κ ν) (s : Iterating κ ν) : Turn κ ν → Option (Iterating κ ν)
  | .next => (dictNext s.d s.iter).map fun (d, iter, entry) =>
      ⟨d, iter, s.returned ++ entry.toList, s.ended || entry.isNone⟩
  | .op op => (op.exec type s.d).map fun (d, _) => { s with d }

/-- A turn that does not take away what the iterator has saved. -/
def Turn.Spares (type : DictType κ ν) (s : Iterating κ ν) : Turn κ ν → Prop
  | .next => True
  | .op call => call.Spares type s.d s.iter.nextEntry

instance (type : DictType κ ν) (s : Iterating κ ν) : ∀ t : Turn κ ν, Decidable (t.Spares type s)
  | .next => inferInstanceAs (Decidable True)
  | .op call => inferInstanceAs (Decidable (call.Spares type s.d s.iter.nextEntry))

variable {type : DictType κ ν}

/-- What a turn keeps. -/
structure Iterating.Valid (type : DictType κ ν) (s : Iterating κ ν) : Prop where
  iter : s.iter.Valid type s.d
  returned : ∀ x ∈ s.returned, x < s.d.zmalloc
  nodup : (s.returned ++ remaining s.d s.iter).Nodup

/-- The entries and the pauses can be counted. -/
def Iterating.Fits (s : Iterating κ ν) : Prop := dictSize s.d < 2 ^ 60 ∧ Pausable s.d

instance : DecidablePred (Iterating.Fits (κ := κ) (ν := ν)) :=
  fun _ => inferInstanceAs (Decidable (_ ∧ _))

/-- An entry that has been there up to now has been returned or is ahead. -/
def Iterating.Found (s : Iterating κ ν) (x : ℕ) : Prop :=
  (x ∈ s.returned ∨ x ∈ remaining s.d s.iter) ∧ (s.ended = true → x ∈ s.returned)

/-- **One turn**: `dictNext` returns the first entry ahead, and the other calls leave what is ahead
of the iterator there. -/
theorem Iterating.Valid.step (hl : type.Lawful) {s : Iterating κ ν} (h : s.Valid type)
    (hfits : s.Fits) {t : Turn κ ν} (hspares : t.Spares type s) :
    ∃ s', iterStep type s t = some s' ∧ s'.Valid type ∧
      ∀ x ∈ s'.d.addrs, s.Found x → s'.Found x := by
  have haddr := h.iter.wf.addrs_lt
  cases t with
  | next =>
    obtain ⟨iter', hnext, hvalid, hrem⟩ := dictNext_spec h.iter hfits.2
    have hz : (pauseFirst s.d s.iter).zmalloc = s.d.zmalloc := by
      rw [pauseFirst]
      split <;> rfl
    rw [← remaining_congr (pauseFirst_ht s.d s.iter) iter'] at hrem
    have hsplit : remaining s.d s.iter =
        (remaining s.d s.iter).head?.toList ++ remaining (pauseFirst s.d s.iter) iter' := by
      rw [hrem]
      cases remaining s.d s.iter <;> rfl
    refine ⟨_, by rw [iterStep, hnext]; rfl, ⟨hvalid, fun x hx => ?_, ?_⟩, fun x _ hx => ?_⟩
    · rw [hz]
      rcases List.mem_append.mp hx with hx | hx
      · exact h.returned x hx
      · refine haddr x (h.iter.remaining_sublist.subset ?_)
        rw [hsplit]
        exact List.mem_append_left _ hx
    · have hnd := h.nodup
      rwa [hsplit, ← List.append_assoc] at hnd
    · obtain ⟨hx, hend⟩ := hx
      rw [hsplit, List.mem_append, ← or_assoc, ← List.mem_append] at hx
      refine ⟨hx, fun hended => ?_⟩
      rw [Bool.or_eq_true] at hended
      rcases hended with hended | hended
      · exact List.mem_append_left _ (hend hended)
      · -- nothing is left ahead
        have hnil : remaining s.d s.iter = [] := by
          rw [Option.isNone_iff_eq_none, List.head?_eq_none_iff] at hended
          exact hended
        rw [hrem, hnil, List.tail_nil] at hx
        show x ∈ s.returned ++ (remaining s.d s.iter).head?.toList
        rw [hnil]
        exact hx.resolve_right List.not_mem_nil
  | op op =>
    have hp : 0 ≤ s.d.pauserehash := by
      rcases h.iter.started with ⟨-, hp⟩ | ⟨-, hp⟩
      · exact hp
      · exact Int16.le_of_lt hp
    obtain ⟨d', a, p, hop, hchange, hsaved⟩ := Op.exec_change hl h.iter.wf hfits.1 hp hfits.2 hspares
    obtain ⟨hvalid, hahead⟩ := h.iter.change hchange hsaved
    refine ⟨_, by rw [iterStep, hop]; rfl, ⟨hvalid, fun x hx => ?_, ?_⟩, fun x hmem hx => ?_⟩
    · exact Nat.lt_of_lt_of_le (h.returned x hx) hchange.zmalloc
    · have hnd := List.nodup_append.mp h.nodup
      refine List.nodup_append.mpr ⟨hnd.1, ?_, fun x hx y hy heq => ?_⟩
      · exact hchange.wf.addrs_nodup.sublist hvalid.remaining_sublist
      · subst heq
        rcases (hahead x).1 hy with hy | hy
        · exact hnd.2.2 x hx x hy rfl
        · have := h.returned x hx
          omega
    · exact ⟨hx.1.imp_right fun hr => (hahead x).2 hr hmem, hx.2⟩

/-- A table of four buckets with three entries. -/
def threeEntries : Dict ℕ ℕ :=
  match execAll numbers [.add 1 10 0, .add 2 20 0, .add 3 30 0] dictCreate with
  | some (d, _) => d
  | none => dictCreate

theorem threeEntries_wf : threeEntries.Wf numbers := by
  obtain ⟨d, hrun, hwf, -⟩ := execAll_spec numbers_lawful
    [.add 1 10 0, .add 2 20 0, .add 3 30 0] dictCreate_wf (by decide)
  rw [threeEntries, hrun]
  exact hwf

end

end Redis

end LibNax
