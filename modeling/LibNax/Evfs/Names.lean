import Mathlib.Data.List.Lex
import Mathlib.Data.List.TakeWhile
import LibNax.Evfs.Waiting

/-!
# The index by key

An entry with a key that is not empty has a leaf in a second search tree, ordered by `strcmp`.  A
key that is there already is not inserted again, and a leaf is taken out by its key, not by its
entry.

* `nameOf` — the string in a buffer, and `orders_compareNamedEntryHead` — the order of the strings.
* `Indexed` — a leaf is one of an entry, with its key.
* `Named` — every entry with a key has a leaf, so that no two have the same key.
* `Indexed.detach`, `Named.insert`, `Named.detach` — how the functions of `entries.c` change them.
* `NameIndex.terminated_of_fault` — a key that fills its buffer is read behind it, when it leaves the
  index at the latest.
* `Named.search_eq` — what a search finds.
-/

set_option autoImplicit false

namespace LibNax

namespace Evfs

/-! ## Strings -/

/-- The string in a buffer. -/
def nameOf (key : List UInt8) : List Nat := (cstring key).map UInt8.toNat

@[simp] theorem nameOf_nil : nameOf [] = [] := rfl

theorem nameOf_cons (a : UInt8) (key : List UInt8) :
    nameOf (a :: key) = if a = 0 then [] else a.toNat :: nameOf key := by
  by_cases h : a = 0
  · rw [if_pos h, h, nameOf, cstring_zero, List.map_nil]
  · rw [if_neg h, nameOf, cstring_cons h, List.map_cons, nameOf]

theorem nameOf_inj {key key' : List UInt8} :
    nameOf key = nameOf key' ↔ cstring key = cstring key' :=
  ⟨fun h => List.map_injective_iff.mpr (fun _ _ => UInt8.toNat_inj.mp) h, congrArg _⟩

theorem nameOf_eq_nil {key : List UInt8} : nameOf key = [] ↔ key.headD 0 = 0 := by
  cases key with
  | nil => simp
  | cons a key =>
    rw [nameOf_cons, List.headD_cons]
    split
    · simp [*]
    · simp [*]

theorem toNat_pos {a : UInt8} (h : a ≠ 0) : 0 < a.toNat := by
  rcases Nat.eq_zero_or_pos a.toNat with hz | hp
  · exact absurd (UInt8.toNat_inj.mp (hz.trans UInt8.toNat_zero.symm)) h
  · exact hp

/-- `strcmp` is the order of the strings. -/
theorem strcmp_iff (left : List UInt8) : ∀ right : List UInt8,
    (strcmp left right < 0 ↔ nameOf left < nameOf right) ∧
      (strcmp left right = 0 ↔ nameOf left = nameOf right) := by
  induction left with
  | nil =>
    intro right
    cases right with
    | nil => simp [strcmp]
    | cons b right =>
      rw [strcmp, nameOf_cons, nameOf_nil]
      by_cases hb : b = 0
      · simp [hb]
      · have hpos := toNat_pos hb
        rw [if_neg hb]
        exact ⟨iff_of_true (by omega) (List.nil_lt_cons _ _),
          iff_of_false (by omega) (List.cons_ne_nil _ _).symm⟩
  | cons a left ih =>
    intro right
    cases right with
    | nil =>
      rw [strcmp, nameOf_cons, nameOf_nil]
      by_cases ha : a = 0
      · simp [ha]
      · have hpos := toNat_pos ha
        rw [if_neg ha]
        exact ⟨iff_of_false (by omega) (List.not_lt_nil _),
          iff_of_false (by omega) (List.cons_ne_nil _ _)⟩
    | cons b right =>
      rw [strcmp, nameOf_cons, nameOf_cons]
      obtain ⟨hlt, heq⟩ := ih right
      by_cases hab : a = b
      · subst hab
        by_cases ha : a = 0
        · simp [ha]
        · simp [ha, hlt, heq]
      · have hne : a.toNat ≠ b.toNat := fun h => hab (UInt8.toNat_inj.mp h)
        rw [if_pos hab]
        by_cases ha : a = 0
        · have hb : b ≠ 0 := fun h => hab (ha.trans h.symm)
          have hpos := toNat_pos hb
          have hzero : a.toNat = 0 := by rw [ha, UInt8.toNat_zero]
          rw [if_pos ha, if_neg hb, hzero]
          exact ⟨iff_of_true (by omega) (List.nil_lt_cons _ _),
            iff_of_false (by omega) (List.cons_ne_nil _ _).symm⟩
        · have hpos := toNat_pos ha
          rw [if_neg ha]
          by_cases hb : b = 0
          · have hzero : b.toNat = 0 := by rw [hb, UInt8.toNat_zero]
            rw [if_pos hb, hzero]
            exact ⟨iff_of_false (by omega) (List.not_lt_nil _),
              iff_of_false (by omega) (List.cons_ne_nil _ _)⟩
          · rw [if_neg hb, List.cons_lt_cons_iff, List.cons.injEq]
            constructor
            · omega
            · omega

/-- The string of a leaf. -/
def NamedLeaf.name (leaf : NamedLeaf) : List Nat := nameOf leaf.key

theorem orders_compareNamedEntryHead : Avl.Orders compareNamedEntryHead NamedLeaf.name :=
  ⟨fun left right => (strcmp_iff left.key right.key).1,
    fun left right => (strcmp_iff left.key right.key).2⟩

/-! ## The leaves -/

/-- The string of the key of an entry. -/
def Fs.name (s : Fs) (e : Int) : List Nat := nameOf (s.heads e).key

/-- Every leaf is one of an entry with a key. -/
structure Indexed (s : Fs) : Prop where
  wf : Avl.Wf NamedLeaf.name s.rootOfNamedEntriesTree
  head : ∀ leaf ∈ Avl.toList s.rootOfNamedEntriesTree, leaf.head ∈ s.entries
  key : ∀ leaf ∈ Avl.toList s.rootOfNamedEntriesTree, leaf.key = (s.heads leaf.head).key
  name_ne : ∀ leaf ∈ Avl.toList s.rootOfNamedEntriesTree, leaf.name ≠ []

/-- The leaves are the ones of the entries with a key. -/
structure Named (s : Fs) : Prop extends Indexed s where
  mem : ∀ e ∈ s.entries, s.name e ≠ [] →
    (⟨(s.heads e).key, e⟩ : NamedLeaf) ∈ Avl.toList s.rootOfNamedEntriesTree

variable {s s' : Fs} {e : Int}

theorem Indexed.name_head (h : Indexed s) {leaf : NamedLeaf}
    (hleaf : leaf ∈ Avl.toList s.rootOfNamedEntriesTree) : s.name leaf.head = leaf.name := by
  rw [Fs.name, ← h.key leaf hleaf, NamedLeaf.name]

/-- The managers have the same entries with the same keys, and the same leaves. -/
structure SameNames (s s' : Fs) : Prop where
  tree : s'.rootOfNamedEntriesTree = s.rootOfNamedEntriesTree
  entries : s'.entries = s.entries
  key : ∀ e ∈ s.entries, (s'.heads e).key = (s.heads e).key

theorem Indexed.same (h : Indexed s) (hsame : SameNames s s') : Indexed s' := by
  refine ⟨hsame.tree ▸ h.wf, fun leaf hleaf => ?_, fun leaf hleaf => ?_, fun leaf hleaf => ?_⟩
  · rw [hsame.entries]
    exact h.head leaf (hsame.tree ▸ hleaf)
  · rw [hsame.tree] at hleaf
    rw [h.key leaf hleaf, hsame.key _ (h.head leaf hleaf)]
  · exact h.name_ne leaf (hsame.tree ▸ hleaf)

theorem Named.same (h : Named s) (hsame : SameNames s s') : Named s' := by
  refine ⟨h.toIndexed.same hsame, fun e he hname => ?_⟩
  rw [hsame.entries] at he
  rw [Fs.name, hsame.key e he] at hname
  rw [hsame.key e he, hsame.tree]
  exact h.mem e he hname

/-- An empty index, and no entries. -/
theorem named_nil (htree : s.rootOfNamedEntriesTree = .nil) (hentries : s.entries = []) :
    Named s := by
  have hno : ∀ leaf, leaf ∉ Avl.toList s.rootOfNamedEntriesTree := fun leaf hleaf => by
    rw [htree] at hleaf
    cases hleaf
  refine ⟨⟨htree ▸ Avl.wf_nil, fun leaf hleaf => absurd hleaf (hno leaf),
    fun leaf hleaf => absurd hleaf (hno leaf), fun leaf hleaf => absurd hleaf (hno leaf)⟩,
    fun e he => ?_⟩
  rw [hentries] at he
  cases he

/-- No two entries have the same key. -/
theorem Named.eq_of_name_eq (h : Named s) {e' : Int} (he : e ∈ s.entries) (he' : e' ∈ s.entries)
    (hname : s.name e = s.name e') (hne : s.name e ≠ []) : e = e' := by
  have hleaf := h.mem e he hne
  have hleaf' := h.mem e' he' (hname ▸ hne)
  exact congrArg NamedLeaf.head (h.wf.sorted.eq_of_key_eq hleaf hleaf' hname)

/-- The index holds the entries with a key. -/
theorem Named.mem_iff (h : Named s) (leaf : NamedLeaf) :
    leaf ∈ Avl.toList s.rootOfNamedEntriesTree ↔
      leaf.head ∈ s.entries ∧ leaf.key = (s.heads leaf.head).key ∧ s.name leaf.head ≠ [] := by
  constructor
  · intro hleaf
    refine ⟨h.head leaf hleaf, h.key leaf hleaf, ?_⟩
    rw [h.name_head hleaf]
    exact h.name_ne leaf hleaf
  · rintro ⟨hmem, hkey, hname⟩
    have := h.mem leaf.head hmem hname
    rwa [← hkey] at this

/-! ## Inserting and removing -/

theorem insertHead_named (s : Fs) (e : Int) : (insertHead s e).rootOfNamedEntriesTree =
    if s.name e = [] then s.rootOfNamedEntriesTree
    else Avl.avlinsert compareNamedEntryHead s.rootOfNamedEntriesTree ⟨(s.heads e).key, e⟩ := by
  rw [Fs.name, insertHead]
  simp only [nameOf_eq_nil]
  by_cases h : (s.heads e).key.headD 0 = 0
  · rw [if_neg (not_not_intro h), if_pos h]
  · rw [if_pos h, if_neg h]

theorem detachHead_named (s : Fs) (e : Int) : (detachHead s e).rootOfNamedEntriesTree =
    if s.name e = [] then s.rootOfNamedEntriesTree
    else
      (Avl.avlremove compareNamedEntryHead s.rootOfNamedEntriesTree ⟨(s.heads e).key, e⟩ none).1 := by
  rw [Fs.name, detachHead]
  simp only [nameOf_eq_nil]
  by_cases h : (s.heads e).key.headD 0 = 0
  · rw [if_neg (not_not_intro h), if_pos h]
  · rw [if_pos h, if_neg h]

/-- A key that is there already is not inserted again. -/
theorem mem_avlinsert_named {t : Avl.Tree NamedLeaf} (ht : Avl.Wf NamedLeaf.name t)
    {x leaf : NamedLeaf} (hleaf : leaf ∈ Avl.toList (Avl.avlinsert compareNamedEntryHead t x)) :
    leaf = x ∨ leaf ∈ Avl.toList t := by
  by_cases hmem : ∃ y ∈ Avl.toList t, y.name = x.name
  · rw [Avl.avlinsert_of_mem orders_compareNamedEntryHead _ ht.shape ht.sorted hmem] at hleaf
    exact .inr hleaf
  · rw [Avl.mem_toList_avlinsert orders_compareNamedEntryHead ht.sorted
      fun y hy heq => hmem ⟨y, hy, heq⟩] at hleaf
    exact hleaf

/-- A head enters the list and the indexes. -/
theorem Indexed.insert (h : Indexed s) (e : Int) : Indexed (insertHead s e) := by
  have hleaves : ∀ leaf ∈ Avl.toList (insertHead s e).rootOfNamedEntriesTree,
      (leaf = ⟨(s.heads e).key, e⟩ ∧ s.name e ≠ []) ∨
        leaf ∈ Avl.toList s.rootOfNamedEntriesTree := by
    intro leaf hleaf
    rw [insertHead_named] at hleaf
    split at hleaf
    · exact .inr hleaf
    · exact (mem_avlinsert_named h.wf hleaf).imp_left fun heq => ⟨heq, ‹_›⟩
  refine ⟨?_, fun leaf hleaf => ?_, fun leaf hleaf => ?_, fun leaf hleaf => ?_⟩
  · rw [insertHead_named]
    split
    · exact h.wf
    · exact h.wf.avlinsert orders_compareNamedEntryHead _
  · rw [insertHead_entries]
    rcases hleaves leaf hleaf with ⟨rfl, -⟩ | hold
    · exact List.mem_append_right _ (List.mem_singleton_self e)
    · exact List.mem_append_left _ (h.head leaf hold)
  · rw [insertHead_heads]
    rcases hleaves leaf hleaf with ⟨rfl, -⟩ | hold
    · rfl
    · exact h.key leaf hold
  · rcases hleaves leaf hleaf with ⟨rfl, hname⟩ | hold
    · exact hname
    · exact h.name_ne leaf hold

theorem Named.insert (h : Named s) (hnew : ∀ e' ∈ s.entries, s.name e' = s.name e → s.name e = []) :
    Named (insertHead s e) := by
  have htree : s.name e ≠ [] → ∀ leaf,
      leaf ∈ Avl.toList (insertHead s e).rootOfNamedEntriesTree ↔
        leaf = ⟨(s.heads e).key, e⟩ ∨ leaf ∈ Avl.toList s.rootOfNamedEntriesTree := by
    intro hname leaf
    rw [insertHead_named, if_neg hname]
    refine Avl.mem_toList_avlinsert orders_compareNamedEntryHead h.wf.sorted fun y hy heq => ?_
    exact hname (hnew y.head (h.head y hy) ((h.name_head hy).trans heq))
  refine ⟨h.toIndexed.insert e, fun e' he' hname => ?_⟩
  have hname' : s.name e' ≠ [] := by
    rwa [Fs.name, insertHead_heads] at hname
  rw [insertHead_heads]
  rw [insertHead_entries] at he'
  rcases List.mem_append.mp he' with he' | he'
  · have hold := h.mem e' he' hname'
    by_cases hempty : s.name e = []
    · rw [insertHead_named, if_pos hempty]
      exact hold
    · exact (htree hempty _).mpr (.inr hold)
  · rw [List.mem_singleton.mp he'] at hname' ⊢
    exact (htree hname' _).mpr (.inl rfl)

/-- A head leaves the list and the indexes, and its key with it. -/
theorem Indexed.detach (h : Indexed s) (hnd : s.entries.Nodup) : Indexed (detachHead s e) ∧
    ∀ leaf ∈ Avl.toList (detachHead s e).rootOfNamedEntriesTree, s.name e ≠ [] →
      leaf.name ≠ s.name e := by
  have hleaves : ∀ leaf ∈ Avl.toList (detachHead s e).rootOfNamedEntriesTree,
      leaf ∈ Avl.toList s.rootOfNamedEntriesTree ∧ (s.name e ≠ [] → leaf.name ≠ s.name e) := by
    intro leaf hleaf
    rw [detachHead_named] at hleaf
    split at hleaf
    · exact ⟨hleaf, fun hne => absurd ‹_› hne⟩
    · rw [Avl.mem_toList_avlremove orders_compareNamedEntryHead h.wf.sorted] at hleaf
      exact ⟨hleaf.1, fun _ => hleaf.2⟩
  refine ⟨⟨?_, fun leaf hleaf => ?_, fun leaf hleaf => ?_, fun leaf hleaf => ?_⟩,
    fun leaf hleaf => (hleaves leaf hleaf).2⟩
  · rw [detachHead_named]
    split
    · exact h.wf
    · exact h.wf.avlremove orders_compareNamedEntryHead _ none
  · obtain ⟨hold, hne⟩ := hleaves leaf hleaf
    rw [detachHead_entries, hnd.mem_erase_iff]
    refine ⟨fun heq => ?_, h.head leaf hold⟩
    have hname := h.name_head hold
    rw [heq] at hname
    exact hne (hname ▸ h.name_ne leaf hold) hname.symm
  · rw [detachHead_heads]
    exact h.key leaf (hleaves leaf hleaf).1
  · exact h.name_ne leaf (hleaves leaf hleaf).1

theorem Named.detach (h : Named s) (hnd : s.entries.Nodup) (he : e ∈ s.entries) :
    Named (detachHead s e) := by
  refine ⟨(h.toIndexed.detach hnd).1, fun e' he' hname => ?_⟩
  rw [detachHead_entries, hnd.mem_erase_iff] at he'
  rw [Fs.name, detachHead_heads] at hname
  have hold := h.mem e' he'.2 hname
  rw [detachHead_heads, detachHead_named]
  split
  · exact hold
  · rw [Avl.mem_toList_avlremove orders_compareNamedEntryHead h.wf.sorted]
    refine ⟨hold, fun heq => he'.1 ?_⟩
    exact h.eq_of_name_eq he'.2 he heq hname

/-! ## Keys without an end -/

/-- A string that fills its buffer is read behind it when it is compared with itself. -/
theorem readsBehind_self {key : List UInt8} (h : 0 ∉ key) : readsBehind key key = true := by
  induction key with
  | nil => rfl
  | cons a key ih =>
    rw [List.mem_cons, not_or] at h
    rw [readsBehind, ih h.2]
    simp [Ne.symm h.1]

/-- Only one buffer of its length holds a string that fills it. -/
theorem eq_of_nameOf_eq {key key' : List UInt8} (h : 0 ∉ key) (hlen : key'.length = key.length)
    (hname : nameOf key = nameOf key') : key' = key := by
  have hstring := nameOf_inj.mp hname
  rw [cstring_eq_self.mpr h] at hstring
  have hstart := cstring_prefix_self key'
  rw [← hstring] at hstart
  exact (hstart.eq_of_length hlen.symm).symm

namespace NameIndex

variable {i : NameIndex} {leaf x : NamedLeaf}

/-- The index is a search tree, and all keys fill buffers of one length. -/
structure Wf (i : NameIndex) : Prop where
  tree : Avl.Wf NamedLeaf.name i.tree
  length : ∀ leaf ∈ Avl.toList i.tree, leaf.key.length = maxEntryNameLength

theorem headD_of_notMem {key : List UInt8} (h : 0 ∉ key) (hlen : key.length = maxEntryNameLength) :
    key.headD 0 ≠ 0 := by
  cases key with
  | nil => cases hlen
  | cons a key => exact fun ha => h (List.mem_cons.mpr (.inl ha.symm))

theorem Wf.enter (h : i.Wf) (hlen : leaf.key.length = maxEntryNameLength) : (i.enter leaf).Wf := by
  rw [NameIndex.enter]
  split
  · refine ⟨h.tree.avlinsert orders_compareNamedEntryHead _, fun y hy => ?_⟩
    rcases Avl.mem_of_mem_avlinsert hy with rfl | hy
    · exact hlen
    · exact h.length y hy
  · exact h

theorem Wf.leave (h : i.Wf) : (i.leave leaf).Wf := by
  rw [NameIndex.leave]
  split
  · exact ⟨h.tree.avlremove orders_compareNamedEntryHead _ none, fun y hy =>
      h.length y (Avl.mem_of_mem_avlremove hy)⟩
  · exact h

theorem enter_fault (h : i.fault = true) : (i.enter leaf).fault = true := by
  rw [NameIndex.enter]
  split
  · show (i.fault || _) = true
    rw [h, Bool.true_or]
  · exact h

theorem leave_fault (h : i.fault = true) : (i.leave leaf).fault = true := by
  rw [NameIndex.leave]
  split
  · show (i.fault || _) = true
    rw [h, Bool.true_or]
  · exact h

/-- A key without an end is in the index after it entered, or was compared with itself. -/
theorem Wf.enter_self (h : i.Wf) (hkey : 0 ∉ leaf.key)
    (hlen : leaf.key.length = maxEntryNameLength) :
    (i.enter leaf).fault = true ∨ leaf ∈ Avl.toList (i.enter leaf).tree := by
  rw [NameIndex.enter, if_pos (headD_of_notMem hkey hlen)]
  by_cases hmem : ∃ y ∈ Avl.toList i.tree, y.name = leaf.name
  · obtain ⟨y, hy, hname⟩ := hmem
    have heq : y.key = leaf.key :=
      eq_of_nameOf_eq hkey ((h.length y hy).trans hlen.symm) hname.symm
    refine .inl (Bool.or_eq_true_iff.mpr (.inr (List.any_eq_true.mpr ⟨y, ?_, ?_⟩)))
    · exact Avl.mem_path orders_compareNamedEntryHead h.tree.sorted hy hname
    · rw [heq]
      exact readsBehind_self hkey
  · refine .inr ?_
    show leaf ∈ Avl.toList (Avl.avlinsert _ _ _)
    rw [Avl.mem_toList_avlinsert orders_compareNamedEntryHead h.tree.sorted
      fun y hy heq => hmem ⟨y, hy, heq⟩]
    exact .inl rfl

/-- What is in the index stays when a key enters. -/
theorem Wf.mem_enter (h : i.Wf) (hx : x ∈ Avl.toList i.tree) :
    x ∈ Avl.toList (i.enter leaf).tree := by
  rw [NameIndex.enter]
  split
  · show x ∈ Avl.toList (Avl.avlinsert _ _ _)
    by_cases hmem : ∃ y ∈ Avl.toList i.tree, y.name = leaf.name
    · rw [Avl.avlinsert_of_mem orders_compareNamedEntryHead _ h.tree.shape h.tree.sorted hmem]
      exact hx
    · rw [Avl.mem_toList_avlinsert orders_compareNamedEntryHead h.tree.sorted
        fun y hy heq => hmem ⟨y, hy, heq⟩]
      exact .inr hx
  · exact hx

/-- A key without an end stays in the index when another key leaves; when it leaves itself it is
compared with itself. -/
theorem Wf.mem_leave (h : i.Wf) (hkey : 0 ∉ x.key) (hx : x ∈ Avl.toList i.tree)
    (hlen : leaf.key.length = maxEntryNameLength) : (i.leave leaf).fault = true ∨
      x.key ≠ leaf.key ∧ x ∈ Avl.toList (i.leave leaf).tree := by
  by_cases hname : x.name = leaf.name
  · have heq : leaf.key = x.key := eq_of_nameOf_eq hkey (hlen.trans (h.length x hx).symm) hname
    rw [NameIndex.leave, heq, if_pos (headD_of_notMem hkey (h.length x hx))]
    refine .inl (Bool.or_eq_true_iff.mpr (.inr (List.any_eq_true.mpr ⟨(leaf, x), ?_, ?_⟩)))
    · exact Avl.mem_removeComparisons orders_compareNamedEntryHead h.tree.sorted hx hname
    · rw [heq]
      exact readsBehind_self hkey
  · refine .inr ⟨fun heq => hname (congrArg nameOf heq), ?_⟩
    rw [NameIndex.leave]
    split
    · show x ∈ Avl.toList (Avl.avlremove _ _ _ none).1
      rw [Avl.mem_toList_avlremove orders_compareNamedEntryHead h.tree.sorted]
      exact ⟨hx, hname⟩
    · exact hx

/-- **Keys that enter and leave** without being read behind their ends have ends. -/
theorem terminated_of_fault {enters leaves : List NamedLeaf}
    (henters : ∀ x ∈ enters, x.key.length = maxEntryNameLength)
    (hleaves : ∀ x ∈ leaves, x.key.length = maxEntryNameLength) (hsub : enters ⊆ leaves)
    (hfault : (leaves.foldl leave (enters.foldl enter .empty)).fault = false) :
    ∀ x ∈ enters, 0 ∈ x.key := by
  intro x hx
  by_contra hkey
  have hstart : (empty).Wf := ⟨Avl.wf_nil, fun leaf hleaf => by cases hleaf⟩
  -- the key is in the index before anything leaves
  have henter : ∀ (l : List NamedLeaf) {i : NameIndex}, (∀ y ∈ l, y.key.length = maxEntryNameLength) →
      i.Wf → (i.fault = true ∨ x ∈ Avl.toList i.tree ∨ x ∈ l) →
        (l.foldl enter i).Wf ∧ ((l.foldl enter i).fault = true ∨
          x ∈ Avl.toList (l.foldl enter i).tree) := by
    intro l
    induction l with
    | nil => exact fun _ hi hcase => ⟨hi, hcase.imp_right fun h => h.resolve_right List.not_mem_nil⟩
    | cons y l ih =>
      intro i hl hi hcase
      have hy := hl y List.mem_cons_self
      refine ih (fun z hz => hl z (List.mem_cons_of_mem _ hz)) (hi.enter hy) ?_
      rcases hcase with hf | hmem | hmem
      · exact .inl (enter_fault hf)
      · exact .inr (.inl (hi.mem_enter hmem))
      · rcases List.mem_cons.mp hmem with rfl | hmem
        · exact (hi.enter_self hkey hy).imp_right .inl
        · exact .inr (.inr hmem)
  -- and it cannot leave
  have hleave : ∀ (l : List NamedLeaf) {i : NameIndex}, (∀ y ∈ l, y.key.length = maxEntryNameLength) →
      i.Wf → (i.fault = true ∨ x ∈ Avl.toList i.tree ∧ x ∈ l) →
        (l.foldl leave i).fault = true := by
    intro l
    induction l with
    | nil => exact fun _ _ hcase => hcase.resolve_right fun h => List.not_mem_nil h.2
    | cons y l ih =>
      intro i hl hi hcase
      refine ih (fun z hz => hl z (List.mem_cons_of_mem _ hz)) hi.leave ?_
      rcases hcase with hf | ⟨hmem, hl'⟩
      · exact .inl (leave_fault hf)
      · rcases hi.mem_leave hkey hmem (hl y List.mem_cons_self) with hf | ⟨hne, hmem'⟩
        · exact .inl hf
        · refine .inr ⟨hmem', (List.mem_cons.mp hl').resolve_left fun heq => hne ?_⟩
          rw [heq]
  obtain ⟨hwf, hcase⟩ := henter enters henters hstart (.inr (.inr hx))
  rw [hleave leaves hleaves hwf (hcase.imp_right fun hmem => ⟨hmem, hsub hx⟩)] at hfault
  cases hfault

end NameIndex

/-! ## Searching -/

/-- The key fits in the buffer on the stack. -/
def Fits (key : List UInt8) : Prop := (cstring key).length < maxEntryNameLength

instance (key : List UInt8) : Decidable (Fits key) := inferInstanceAs (Decidable (_ < _))

theorem nameOf_cstring (key : List UInt8) : nameOf (cstring key) = nameOf key := by
  exact nameOf_inj.mpr (cstring_eq_self.mpr (zero_notMem_cstring key))

/-- A key that fits is stored as it is. -/
theorem nameOf_storedKey {key : List UInt8} (hfits : Fits key) :
    nameOf (storedKey key) = nameOf key := by
  have hlen : (cstring key).length ≤ maxEntryNameLength - 1 := Nat.le_sub_one_of_lt hfits
  rw [nameOf_inj, storedKey, List.take_of_length_le hlen, Lib.overwrite, List.take_zero,
    List.nil_append, List.drop_replicate]
  exact cstring_append_zeros (zero_notMem_cstring key) fun _ => List.eq_of_mem_replicate

/-- A search that finds a head. -/
theorem Indexed.of_search (h : Indexed s) {key : List UInt8}
    (hfound : searchNamedHead s key = some (some e)) : Fits key ∧ e ∈ s.entries ∧
      s.name e = nameOf key ∧ nameOf key ≠ [] := by
  rw [searchNamedHead] at hfound
  split at hfound
  · rename_i hfits
    obtain ⟨leaf, hleaf, rfl⟩ := Option.map_eq_some_iff.mp (Option.some.inj hfound)
    obtain ⟨hmem, hname⟩ := (Avl.avlsearch_eq_some orders_compareNamedEntryHead
        h.wf.sorted).mp hleaf
    have hname' : leaf.name = nameOf key := hname.trans (nameOf_cstring key)
    refine ⟨hfits, h.head leaf hmem, (h.name_head hmem).trans hname', ?_⟩
    rw [← hname']
    exact h.name_ne leaf hmem
  · cases hfound

/-- A search that finds none. -/
theorem search_eq_none (h : Indexed s) {key : List UInt8} (hfits : Fits key) :
    searchNamedHead s key = some none ↔
      ∀ leaf ∈ Avl.toList s.rootOfNamedEntriesTree, leaf.name ≠ nameOf key := by
  rw [searchNamedHead, if_pos (show (cstring key).length < maxEntryNameLength from hfits),
    Option.some_inj, Option.map_eq_none_iff,
    Avl.avlsearch_eq_none orders_compareNamedEntryHead h.wf.sorted]
  show (∀ leaf ∈ _, NamedLeaf.name leaf ≠ nameOf (cstring key)) ↔ _
  rw [nameOf_cstring]

/-- **A search** finds the entry with the key. -/
theorem Named.search_eq (h : Named s) {key : List UInt8} (hfits : Fits key) (he : e ∈ s.entries)
    (hname : s.name e = nameOf key) (hne : nameOf key ≠ []) :
    searchNamedHead s key = some (some e) := by
  have hleaf := h.mem e he (hname ▸ hne)
  have hsearch := (Avl.avlsearch_eq_some orders_compareNamedEntryHead h.wf.sorted
    (x := ⟨cstring key, 0⟩)).mpr ⟨hleaf, hname.trans (nameOf_cstring key).symm⟩
  rw [searchNamedHead, if_pos (show (cstring key).length < maxEntryNameLength from hfits), hsearch]
  rfl

end Evfs

end LibNax
