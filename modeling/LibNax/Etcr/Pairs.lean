import LibNax.Avl.Search
import LibNax.Etcr.Parse
import LibNax.Evfs.Names

/-!
# The pass over the lines

`_etcr_parse_kvpair` goes over the lines that `_etcr_parse_line` made, and inserts the pairs into the
tree.  The strings are in the buffer, which still changes behind them.

* `storedPairs` — the pairs that are stored, in their order.
* `Holds` — the tree has these pairs, the first one of each key; `Inside` — and their strings end.
* `foldlM_parsePair` — the pass stores them.
* `Holds.query_eq` — a query finds them.
-/

set_option autoImplicit false

namespace LibNax

namespace Etcr

open Evfs (strcmp nameOf)

/-- The pair that is read in a line. -/
def readPair (g : List UInt8) : Option (List UInt8 × List UInt8) :=
  splitPair (cutComment (cutReturn g))

/-- The pairs that there is memory for, when `n` of them were asked for. -/
def storedPairs (malloc : Nat → Bool) :
    Nat → List (Option (List UInt8 × List UInt8)) → List (List UInt8 × List UInt8)
  | _, [] => []
  | n, none :: pairs => storedPairs malloc n pairs
  | n, some kv :: pairs =>
    if malloc n then kv :: storedPairs malloc (n + 1) pairs else storedPairs malloc (n + 1) pairs

/-! ## The tree -/

/-- The string of the key of a pair. -/
def KvPair.name (data : List UInt8) (pair : KvPair) : List UInt8 := cstring (pair.key.bytes data)

/-- The string of the value of a pair. -/
def KvPair.string (data : List UInt8) (pair : KvPair) : List UInt8 := cstring (data.drop pair.value)

theorem orders_etcrKeyCompare (data : List UInt8) :
    Avl.Orders (etcrKeyCompare data) fun pair => nameOf (pair.key.bytes data) :=
  ⟨fun left right => (Evfs.strcmp_iff (left.key.bytes data) (right.key.bytes data)).1,
    fun left right => (Evfs.strcmp_iff (left.key.bytes data) (right.key.bytes data)).2⟩

/-- The tree has the pairs of a list, the first one of each key. -/
structure Holds (data : List UInt8) (root : Avl.Tree KvPair)
    (pairs : List (List UInt8 × List UInt8)) : Prop where
  wf : Avl.Wf (fun pair => nameOf (pair.key.bytes data)) root
  sound : ∀ pair ∈ Avl.toList root, pairs.lookup (pair.name data) = some (pair.string data)
  complete : ∀ k v, pairs.lookup k = some v → ∃ pair ∈ Avl.toList root, pair.name data = k

theorem holds_nil (data : List UInt8) : Holds data .nil [] :=
  ⟨Avl.wf_nil, by simp, by simp⟩

variable {data data' : List UInt8} {root : Avl.Tree KvPair} {pairs : List (List UInt8 × List UInt8)}

/-- Only the strings of the pairs matter. -/
theorem Holds.of_same (h : Holds data root pairs)
    (hname : ∀ pair ∈ Avl.toList root, pair.name data' = pair.name data)
    (hstring : ∀ pair ∈ Avl.toList root, pair.string data' = pair.string data) :
    Holds data' root pairs := by
  have hkey : ∀ pair ∈ Avl.toList root,
      nameOf (pair.key.bytes data') = nameOf (pair.key.bytes data) :=
    fun pair hpair => Evfs.nameOf_inj.mpr (hname pair hpair)
  refine ⟨⟨h.wf.shape, ?_⟩, ?_, ?_⟩
  · refine h.wf.sorted.imp_of_mem fun ha hb hlt => ?_
    dsimp only at hlt ⊢
    rwa [hkey _ ha, hkey _ hb]
  · intro pair hpair
    rw [hname pair hpair, hstring pair hpair]
    exact h.sound pair hpair
  · intro k v hkv
    obtain ⟨pair, hpair, hk⟩ := h.complete k v hkv
    exact ⟨pair, hpair, (hname pair hpair).trans hk⟩

/-- **An insertion adds the pair at the end of the list**: a pair with a key that is there already
is not found any more. -/
theorem Holds.avlinsert (h : Holds data root pairs) (pair : KvPair) :
    Holds data (Avl.avlinsert (etcrKeyCompare data) root pair)
      (pairs ++ [(pair.name data, pair.string data)]) := by
  have horders := orders_etcrKeyCompare data
  have hwf := h.wf.avlinsert horders pair
  have hlast : ∀ k v, [(pair.name data, pair.string data)].lookup k = some v →
      k = pair.name data := by
    intro k v hkv
    by_contra hne
    simp [List.lookup_cons, beq_eq_false_iff_ne.mpr hne] at hkv
  by_cases hmem : ∃ y ∈ Avl.toList root, y.name data = pair.name data
  · have hsame := Avl.avlinsert_of_mem horders pair h.wf.shape h.wf.sorted (by
      obtain ⟨y, hy, hname⟩ := hmem
      exact ⟨y, hy, Evfs.nameOf_inj.mpr hname⟩)
    rw [hsame] at hwf ⊢
    refine ⟨hwf, fun y hy => ?_, fun k v hkv => ?_⟩
    · rw [List.lookup_append, h.sound y hy, Option.some_or]
    · rw [List.lookup_append, Option.or_eq_some_iff] at hkv
      rcases hkv with hkv | ⟨hnone, hkv⟩
      · exact h.complete k v hkv
      · rw [hlast k v hkv]
        exact hmem
  · have hnot : ∀ y ∈ Avl.toList root, nameOf (y.key.bytes data) ≠ nameOf (pair.key.bytes data) :=
      fun y hy hname => hmem ⟨y, hy, Evfs.nameOf_inj.mp hname⟩
    refine ⟨hwf, fun y hy => ?_, fun k v hkv => ?_⟩
    · rw [Avl.mem_toList_avlinsert horders h.wf.sorted hnot] at hy
      rcases hy with rfl | hy
      · have hnone : pairs.lookup (y.name data) = none := by
          rw [Option.eq_none_iff_forall_ne_some]
          intro v hv
          exact hmem (h.complete _ v hv)
        rw [List.lookup_append, hnone]
        simp
      · rw [List.lookup_append, h.sound y hy, Option.some_or]
    · rw [List.lookup_append, Option.or_eq_some_iff] at hkv
      rcases hkv with hkv | ⟨hnone, hkv⟩
      · obtain ⟨y, hy, hk⟩ := h.complete k v hkv
        exact ⟨y, (Avl.mem_toList_avlinsert horders h.wf.sorted hnot).mpr (Or.inr hy), hk⟩
      · exact ⟨pair, (Avl.mem_toList_avlinsert horders h.wf.sorted hnot).mpr (Or.inl rfl),
          (hlast k v hkv).symm⟩

theorem Holds.mem_avlinsert (h : Holds data root pairs) {pair y : KvPair}
    (hy : y ∈ Avl.toList (Avl.avlinsert (etcrKeyCompare data) root pair)) :
    y = pair ∨ y ∈ Avl.toList root := by
  have horders := orders_etcrKeyCompare data
  by_cases hmem : ∃ y ∈ Avl.toList root,
      nameOf (y.key.bytes data) = nameOf (pair.key.bytes data)
  · rw [Avl.avlinsert_of_mem horders pair h.wf.shape h.wf.sorted hmem] at hy
    exact Or.inr hy
  · exact (Avl.mem_toList_avlinsert horders h.wf.sorted fun y hy hname => hmem ⟨y, hy, hname⟩).mp hy

/-- What a query returns of what was found. -/
def answer : Option (List UInt8) → Int × Option (List UInt8)
  | some value => (0, some value)
  | none => (eNoent, none)

theorem answer_injective : Function.Injective answer := by
  intro found found' h
  cases found with
  | none =>
    cases found' with
    | none => rfl
    | some value => cases congrArg Prod.snd h
  | some value =>
    cases found' with
    | none => cases congrArg Prod.snd h
    | some value' => exact congrArg Prod.snd h

/-- **What a query returns.** -/
theorem Holds.query_eq (h : Holds data root pairs) {key : List UInt8} (hkey : 0 ∉ key) :
    etcrQueryValueByKey ⟨data, root⟩ key = answer (pairs.lookup key) := by
  have horders := orders_etcrKeyCompare data
  have hcstring := cstring_eq_self.mpr hkey
  rw [etcrQueryValueByKey]
  cases hfound : Avl.avlsearch (etcrKeyCompare data) root ⟨.caller key, 0⟩ with
  | some pair =>
    obtain ⟨hpair, hname⟩ := (Avl.avlsearch_eq_some horders h.wf.sorted).mp hfound
    have hname' : pair.name data = key := (Evfs.nameOf_inj.mp hname).trans hcstring
    rw [← hname', h.sound pair hpair]
    rfl
  | none =>
    have hnone := (Avl.avlsearch_eq_none horders h.wf.sorted).mp hfound
    have hlookup : pairs.lookup key = none := by
      rw [Option.eq_none_iff_forall_ne_some]
      intro v hv
      obtain ⟨pair, hpair, hname⟩ := h.complete key v hv
      exact hnone pair hpair (Evfs.nameOf_inj.mpr (hname.trans hcstring.symm))
    rw [hlookup]
    rfl

/-! ## The strings in the buffer -/

/-- The strings of the pairs end in what is done of the buffer. -/
def Inside (D : List UInt8) (root : Avl.Tree KvPair) : Prop :=
  ∀ pair ∈ Avl.toList root, 0 ∈ pair.key.bytes D ∧ 0 ∈ D.drop pair.value

theorem cstring_drop_append {D : List UInt8} {pos : Nat} (h : 0 ∈ D.drop pos) (t : List UInt8) :
    cstring ((D ++ t).drop pos) = cstring (D.drop pos) := by
  rw [List.drop_append, cstring_append_of_mem h]

namespace Inside

variable {D : List UInt8}

theorem name_eq (h : Inside D root) {pair : KvPair} (hpair : pair ∈ Avl.toList root)
    (t : List UInt8) : pair.name (D ++ t) = pair.name D := by
  have hzero := (h pair hpair).1
  rw [KvPair.name, KvPair.name]
  cases hkey : pair.key with
  | caller s => rfl
  | data pos =>
    rw [hkey] at hzero
    exact cstring_drop_append hzero t

theorem string_eq (h : Inside D root) {pair : KvPair} (hpair : pair ∈ Avl.toList root)
    (t : List UInt8) : pair.string (D ++ t) = pair.string D :=
  cstring_drop_append (h pair hpair).2 t

/-- What is behind the strings does not matter. -/
theorem holds_append (h : Inside D root) {t t' : List UInt8} (hholds : Holds (D ++ t) root pairs) :
    Holds (D ++ t') root pairs :=
  hholds.of_same (fun _ hpair => (h.name_eq hpair t').trans (h.name_eq hpair t).symm)
    fun _ hpair => (h.string_eq hpair t').trans (h.string_eq hpair t).symm

theorem append (h : Inside D root) (t : List UInt8) : Inside (D ++ t) root := by
  intro pair hpair
  obtain ⟨hkey, hvalue⟩ := h pair hpair
  refine ⟨?_, ?_⟩
  · cases hptr : pair.key with
    | caller s => rwa [hptr] at hkey
    | data pos =>
      rw [hptr] at hkey
      rw [CharPtr.bytes, List.drop_append]
      exact List.mem_append_left _ hkey
  · rw [List.drop_append]
    exact List.mem_append_left _ hvalue

/-- A pair whose strings are in the next segment, as it is now. -/
theorem store (h : Inside D root) {σ σ' rest : List UInt8}
    (hholds : Holds (D ++ σ ++ rest) root pairs) (hclosed : Closed σ') {key value : Nat}
    (hkey : key < σ'.length) (hvalue : value < σ'.length) :
    Inside (D ++ σ') (Avl.avlinsert (etcrKeyCompare (D ++ σ' ++ rest)) root
        ⟨.data (D.length + key), D.length + value⟩) ∧
      Holds (D ++ σ' ++ rest) (Avl.avlinsert (etcrKeyCompare (D ++ σ' ++ rest)) root
        ⟨.data (D.length + key), D.length + value⟩)
        (pairs ++ [(cstring (σ'.drop key), cstring (σ'.drop value))]) := by
  have hzero : ∀ pos < σ'.length, 0 ∈ (D ++ σ').drop (D.length + pos) := by
    intro pos hpos
    rw [List.drop_length_add_append]
    exact hclosed.zero_mem_drop hpos
  have hdrop : ∀ pos < σ'.length,
      cstring ((D ++ σ' ++ rest).drop (D.length + pos)) = cstring (σ'.drop pos) := by
    intro pos hpos
    rw [cstring_drop_append (hzero pos hpos), List.drop_length_add_append]
  have hbefore : Holds (D ++ σ' ++ rest) root pairs := by
    rw [List.append_assoc] at hholds ⊢
    exact h.holds_append hholds
  constructor
  · intro y hy
    rcases hbefore.mem_avlinsert hy with rfl | hy
    · exact ⟨hzero key hkey, hzero value hvalue⟩
    · exact h.append σ' y hy
  · rw [← hdrop key hkey, ← hdrop value hvalue]
    exact hbefore.avlinsert ⟨.data (D.length + key), D.length + value⟩

end Inside

/-! ## The pass -/

theorem storedPairs_cons (malloc : Nat → Bool) (n : Nat) (o : Option (List UInt8 × List UInt8))
    (os : List (Option (List UInt8 × List UInt8))) : storedPairs malloc n (o :: os) =
      storedPairs malloc n [o] ++ storedPairs malloc (n + o.toList.length) os := by
  cases o with
  | none => rfl
  | some kv =>
    rw [storedPairs, storedPairs, Option.toList_some, List.length_singleton]
    split
    · rfl
    · rfl

section Pass

variable {malloc : Nat → Bool} {asked : Nat}

/-- A pair at the start of the buffer that makes the trim read in front of it. -/
def BlankKey (malloc : Nat → Bool) (asked : Nat) (o : Option (List UInt8 × List UInt8)) : Prop :=
  malloc asked = true ∧ ∃ kv, o = some kv ∧ kv.1 = []

/-- A line adds its pair, if it has one and there is memory for it. -/
theorem foldlM_segment {D e σ rest : List UInt8} {head : Option Nat} (he : 0 ∉ e)
    (hready : Ready e σ head) (hinside : Inside D root) (hholds : Holds (D ++ σ ++ rest) root pairs)
    (hstops : Stops D ∨ (D = [] ∧ ¬BlankKey malloc asked (splitPair e))) :
    ∃ σ' root', Closed σ' ∧ σ'.length = σ.length ∧ Inside (D ++ σ') root' ∧
      Holds (D ++ σ' ++ rest) root' (pairs ++ storedPairs malloc asked [splitPair e]) ∧
      (head.map (D.length + ·)).toList.foldlM (parsePair malloc) ⟨D ++ σ ++ rest, root, asked⟩ =
        some ⟨D ++ σ' ++ rest, root', asked + (splitPair e).toList.length⟩ := by
  have hsame := hinside.append σ
  cases head with
  | none =>
    have hnone : splitPair e = none := by
      cases hready with
      | empty he' _ =>
        rw [he']
        rfl
    refine ⟨σ, root, hready.closed, rfl, hsame, ?_, ?_⟩
    · rw [hnone]
      simpa [storedPairs] using hholds
    · rw [hnone]
      rfl
  | some o =>
    rw [Option.map_some, Option.toList_some, List.foldlM_cons]
    cases hpair : splitPair e with
    | none =>
      refine ⟨σ, root, hready.closed, rfl, hsame, by simpa [storedPairs] using hholds, ?_⟩
      rw [parsePair_of_notMem root rest he hready hpair]
      rfl
    | some kv =>
      cases hmalloc : malloc asked with
      | false =>
        refine ⟨σ, root, hready.closed, rfl, hsame, ?_, ?_⟩
        · simpa [storedPairs, hmalloc] using hholds
        · rw [parsePair_of_no_memory root rest he hready hpair hmalloc]
          rfl
      | true =>
        have hstops' : kv.1 ≠ [] ∨ Stops D := by
          refine hstops.elim Or.inr fun h => Or.inl fun hnil => h.2 ⟨hmalloc, kv, hpair, hnil⟩
        obtain ⟨σ', key, value, hlen, hclosed, hkey, hvalue, hname, hstring, hparse⟩ :=
          parsePair_of_pair root rest he hready hpair hmalloc hstops'
        obtain ⟨hinside', hholds'⟩ := hinside.store hholds hclosed hkey hvalue
        rw [hname, hstring] at hholds'
        refine ⟨σ', Avl.avlinsert (etcrKeyCompare (D ++ σ' ++ rest)) root
          ⟨.data (D.length + key), D.length + value⟩, hclosed, hlen, hinside', ?_, ?_⟩
        · simpa [storedPairs, hmalloc] using hholds'
        · rw [hparse]
          rfl

theorem zero_notMem_cutReturn {g : List UInt8} (hg : 0 ∉ g) : 0 ∉ cutComment (cutReturn g) := by
  intro hmem
  have hcut := (List.takeWhile_prefix _).subset hmem
  cases g with
  | nil => simp [cutReturn] at hcut
  | cons a t =>
    rcases List.mem_cons.mp hcut with h | h
    · exact hg (h ▸ List.mem_cons_self)
    · exact hg (List.mem_cons_of_mem a ((List.takeWhile_prefix _).subset h))

/-- **All lines add their pairs**, in the order of the lines. -/
theorem foldlM_parsePair (U : List UInt8) {groups : List (List UInt8)}
    {segs : List (List UInt8 × Option Nat)} (hsegs : Segments groups segs) :
    ∀ {D : List UInt8} {root : Avl.Tree KvPair} {pairs : List (List UInt8 × List UInt8)}
      {asked : Nat}, (∀ g ∈ groups, 0 ∉ g) → Inside D root →
      Holds (D ++ segs.flatMap Prod.fst ++ U) root pairs →
      (Stops D ∨ (D = [] ∧ ∀ g ∈ groups.head?, ¬BlankKey malloc asked (readPair g))) →
      ∃ s, (heads D.length segs).foldlM (parsePair malloc)
          ⟨D ++ segs.flatMap Prod.fst ++ U, root, asked⟩ = some s ∧
        Holds s.data s.root (pairs ++ storedPairs malloc asked (groups.map readPair)) := by
  induction hsegs with
  | nil =>
    intro D root pairs asked _ _ hholds _
    exact ⟨_, rfl, by simpa [storedPairs] using hholds⟩
  | @cons g seg groups segs hready hsegs ih =>
    intro D root pairs asked hzero hinside hholds hstops
    obtain ⟨σ, head⟩ := seg
    have hg := zero_notMem_cutReturn (hzero g List.mem_cons_self)
    have hdata : D ++ ((σ, head) :: segs).flatMap Prod.fst ++ U =
        D ++ σ ++ (segs.flatMap Prod.fst ++ U) := by simp
    rw [hdata] at hholds ⊢
    obtain ⟨σ', root', hclosed, hlen, hinside', hholds', hfirst⟩ :=
      foldlM_segment hg hready hinside hholds (hstops.imp_right fun h => ⟨h.1, h.2 g rfl⟩)
    rw [← List.append_assoc] at hholds'
    obtain ⟨s, hrest, hs⟩ := ih (fun g hg => hzero g (List.mem_cons_of_mem _ hg)) hinside' hholds'
      (Or.inl (hclosed.append D).stops)
    refine ⟨s, ?_, ?_⟩
    · rw [heads, List.foldlM_append, hfirst, ← hlen, ← List.length_append]
      rw [← List.append_assoc]
      exact hrest
    · rw [List.append_assoc, ← storedPairs_cons] at hs
      exact hs

end Pass

/-! ## The load -/

section Load

variable {memory : Memory} {groups : List (List UInt8)} {u : List UInt8}

/-- **The load stays inside of the buffer and stores the pairs of the lines.** -/
theorem exists_load (hbuffer : memory.buffer = true) (hline : ∀ i, memory.line i = true)
    (hgroups : ∀ g ∈ groups, Group g) (hu : lineFeed ∉ u.tail) (hne : joinLines groups ++ u ≠ [])
    (hhead : ∀ g ∈ groups.head?, ¬Blank g ∧ ¬BlankKey memory.pair 0 (readPair g)) :
    ∃ file, etcrLoadFromMemory memory (joinLines groups ++ u) = some (0, some file) ∧
      Holds file.data file.root (storedPairs memory.pair 0 (groups.map readPair)) := by
  obtain ⟨segs, U, hsegs, hparse⟩ :=
    exists_etcrParseLine hline hgroups (fun g hg => (hhead g hg).1) hu
  obtain ⟨s, hpairs, hs⟩ := foldlM_parsePair U hsegs (fun g hg => (hgroups g hg).zero)
    (D := []) (fun _ h => absurd h (by simp)) (holds_nil _)
    (Or.inr ⟨rfl, fun g hg => (hhead g hg).2⟩)
  refine ⟨⟨s.data, s.root⟩, ?_, hs⟩
  rw [etcrLoadFromMemory, if_neg (by simpa using hne), if_pos hbuffer, hparse]
  simp only [Option.bind_eq_bind, Option.bind_some, etcrParseKvpair]
  rw [List.nil_append, List.length_nil] at hpairs
  rw [hpairs]
  rfl

/-- **The first line can make it read in front of the buffer.** -/
theorem etcrLoadFromMemory_eq_none (hbuffer : memory.buffer = true)
    (hline : ∀ i, memory.line i = true) (hgroups : ∀ g ∈ groups, Group g)
    (hu : lineFeed ∉ u.tail) {g : List UInt8} (hg : groups.head? = some g)
    (hhead : Blank g ∨ BlankKey memory.pair 0 (readPair g)) :
    etcrLoadFromMemory memory (joinLines groups ++ u) = none := by
  obtain ⟨groups', rfl⟩ : ∃ groups', groups = g :: groups' := by
    cases groups with
    | nil => cases hg
    | cons h groups' => exact ⟨groups', by rw [Option.some.inj hg]⟩
  have hne : (joinLines (g :: groups') ++ u).length ≠ 0 := by simp [joinLines]
  rw [etcrLoadFromMemory, if_neg hne, if_pos hbuffer]
  by_cases hblank : Blank g
  · rw [etcrParseLine_eq_none hline (hgroups g List.mem_cons_self) hblank]
    rfl
  · obtain ⟨hmalloc, kv, hpair, hkey⟩ := hhead.resolve_left hblank
    obtain ⟨segs, U, hsegs, hparse⟩ := exists_etcrParseLine hline hgroups
      (fun g' hg' => by cases hg'; exact hblank) hu
    rw [hparse]
    cases hsegs with
    | @cons _ seg _ segs hready hsegs =>
      obtain ⟨σ, head⟩ := seg
      have he := zero_notMem_cutReturn (hgroups g List.mem_cons_self).zero
      cases head with
      | none =>
        cases hready with
        | empty hnil _ =>
          rw [readPair, hnil] at hpair
          cases hpair
      | some o =>
        have hnone := parsePair_eq_none .nil (segs.flatMap Prod.fst ++ U) he hready hpair hmalloc
          hkey
        simp only [Option.bind_eq_bind, Option.bind_some, etcrParseKvpair, heads, Option.map_some,
          Option.toList_some, Nat.zero_add, List.singleton_append, List.foldlM_cons,
          List.flatMap_cons, List.append_assoc, hnone, Option.bind_none]

/-- A load that does not fail is one with memory for the buffer and for all lines. -/
theorem etcrLoadFromMemory_of_memory {buffer : List UInt8}
    (hload : ∀ status, etcrLoadFromMemory memory buffer ≠ some (status, none)) :
    buffer ≠ [] ∧ memory.buffer = true ∧ etcrLoadFromMemory memory buffer =
      etcrLoadFromMemory { memory with line := fun _ => true } buffer := by
  have hne : buffer ≠ [] := by
    rintro rfl
    exact hload eInval rfl
  have hlen : buffer.length ≠ 0 := by simpa using hne
  have hbuffer : memory.buffer = true := by
    by_contra hnot
    apply hload eNomem
    rw [etcrLoadFromMemory, if_neg hlen, if_neg hnot]
  refine ⟨hne, hbuffer, ?_⟩
  rw [etcrLoadFromMemory, if_neg hlen, if_pos hbuffer] at hload ⊢
  rw [etcrLoadFromMemory, if_neg hlen, if_pos hbuffer]
  rcases parseChars_of_memory memory.line buffer.length 0 ⟨buffer, none, []⟩ with hparse | hparse
  · refine absurd ?_ (hload eNomem)
    rw [etcrParseLine, hparse]
    rfl
  · rw [etcrParseLine, hparse, ← etcrParseLine]

end Load

end Etcr

end LibNax
