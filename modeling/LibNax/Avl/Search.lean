import Mathlib.Data.List.Nodup
import Mathlib.Order.Lattice
import LibNax.Avl.Balance

/-!
# Search trees

What the operations do to the nodes, when the comparison orders them by a key (`Orders`).  The tree
is described by the list of its nodes from left to right: it is a search tree when that list is
strictly increasing in the key (`Sorted`), and each operation is a function of that list.

* `toList_avlinsert` — a new key goes between the smaller and the larger ones.
* `avlinsert_of_mem` — a key that is there already leaves the tree as it is, node by node.
* `toList_avlremove` and `avlremove_snd` — the node with the key goes, and is the one returned.
* `avlremove_of_notMem` — a key that is not there leaves the tree as it is.
* `avlsearch_eq` — the search finds the node with the key.

These are the facts that the tables built on the tree use.
-/

set_option autoImplicit false

namespace LibNax

namespace Avl

variable {α K : Type} [LinearOrder K] {compare : α → α → Int} {key : α → K}

/-- The comparison is a strict total order on the keys of the nodes: its sign is the order of the
keys, and it is zero exactly on equal keys. -/
structure Orders (compare : α → α → Int) (key : α → K) : Prop where
  /-- Negative means smaller. -/
  neg_iff : ∀ x y, compare x y < 0 ↔ key x < key y
  /-- Zero means the same key. -/
  zero_iff : ∀ x y, compare x y = 0 ↔ key x = key y

theorem Orders.pos_iff (hc : Orders compare key) (x y : α) : compare x y > 0 ↔ key y < key x := by
  have hneg := hc.neg_iff x y
  have hzero := hc.zero_iff x y
  constructor
  · intro h
    rcases lt_trichotomy (key x) (key y) with hlt | heq | hgt
    · have := hneg.mpr hlt
      omega
    · have := hzero.mpr heq
      omega
    · exact hgt
  · intro h
    have h₁ : ¬compare x y < 0 := fun hlt => absurd (hneg.mp hlt) (not_lt_of_gt h)
    have h₂ : ¬compare x y = 0 := fun heq => absurd (hzero.mp heq) (ne_of_gt h)
    omega

/-! ## The order of the nodes -/

/-- A binary search tree for the comparison. -/
def SearchTree (compare : α → α → Int) : Tree α → Prop
  | .nil => True
  | .node _ l x r =>
    (∀ y ∈ toList l, compare y x < 0) ∧ (∀ y ∈ toList r, compare x y < 0) ∧
      SearchTree compare l ∧ SearchTree compare r

/-- The keys increase strictly from left to right. -/
def Sorted (key : α → K) (t : Tree α) : Prop := (toList t).Pairwise fun x y => key x < key y

theorem sorted_node {h : Int} {l r : Tree α} {x : α} :
    Sorted key (.node h l x r) ↔ Sorted key l ∧ Sorted key r ∧
      (∀ y ∈ toList l, key y < key x) ∧ ∀ y ∈ toList r, key x < key y := by
  simp only [Sorted, toList_node, List.pairwise_append, List.pairwise_cons, List.mem_cons]
  constructor
  · rintro ⟨hl, ⟨hxr, hr⟩, hcross⟩
    exact ⟨hl, hr, fun y hy => hcross y hy x (.inl rfl), hxr⟩
  · rintro ⟨hl, hr, hlx, hxr⟩
    refine ⟨hl, ⟨hxr, hr⟩, fun y hy z hz => ?_⟩
    rcases hz with rfl | hz
    · exact hlx y hy
    · exact lt_trans (hlx y hy) (hxr z hz)

theorem searchTree_iff (hc : Orders compare key) :
    ∀ {t : Tree α}, SearchTree compare t ↔ Sorted key t
  | .nil => by simp [SearchTree, Sorted]
  | .node h l x r => by
    rw [sorted_node, SearchTree, searchTree_iff hc, searchTree_iff hc]
    simp only [hc.neg_iff]
    tauto

theorem sorted_nil : Sorted key (.nil : Tree α) := List.Pairwise.nil

/-- In a sorted tree a key belongs to one node only. -/
theorem Sorted.eq_of_key_eq {t : Tree α} (ht : Sorted key t) {x y : α} (hx : x ∈ toList t)
    (hy : y ∈ toList t) (h : key x = key y) : x = y := by
  have hnd : ((toList t).map key).Nodup := by
    rw [List.Nodup, List.pairwise_map]
    exact ht.imp fun hlt => ne_of_lt hlt
  exact List.inj_on_of_nodup_map hnd hx hy h

theorem Sorted.nodup {t : Tree α} (ht : Sorted key t) : (toList t).Nodup :=
  ht.imp fun {a b} (hlt : key a < key b) (heq : a = b) => absurd hlt (heq ▸ lt_irrefl _)

/-! ## Search -/

/-- **The search finds the node with the key.** -/
theorem avlsearch_eq (hc : Orders compare key) :
    ∀ {t : Tree α}, Sorted key t → ∀ x,
      avlsearch compare t x = (toList t).find? fun y => key y = key x
  | .nil, _, x => rfl
  | .node h l y r, ht, x => by
    obtain ⟨hl, hr, hly, hyr⟩ := sorted_node.mp ht
    rw [avlsearch, toList_node, List.find?_append, List.find?_cons]
    split
    · rename_i hlt
      have hxy := (hc.neg_iff x y).mp hlt
      have hrnone : (toList r).find? (fun z => key z = key x) = none := by
        rw [List.find?_eq_none]
        intro z hz
        have := lt_trans hxy (hyr z hz)
        simp [ne_of_gt this]
      rw [avlsearch_eq hc hl, hrnone]
      simp [ne_of_gt hxy]
    · split
      · rename_i hgt
        have hyx := (hc.pos_iff x y).mp hgt
        have hlnone : (toList l).find? (fun z => key z = key x) = none := by
          rw [List.find?_eq_none]
          intro z hz
          have := lt_trans (hly z hz) hyx
          simp [ne_of_lt this]
        rw [avlsearch_eq hc hr, hlnone]
        simp [ne_of_lt hyx]
      · rename_i hlt hgt
        have hxy : key x = key y := (hc.zero_iff x y).mp (by omega)
        have hlnone : (toList l).find? (fun z => key z = key x) = none := by
          rw [List.find?_eq_none]
          intro z hz
          simp [hxy, ne_of_lt (hly z hz)]
        rw [hlnone]
        simp [hxy]

theorem avlsearch_eq_some (hc : Orders compare key) {t : Tree α} (ht : Sorted key t) {x y : α} :
    avlsearch compare t x = some y ↔ y ∈ toList t ∧ key y = key x := by
  rw [avlsearch_eq hc ht]
  constructor
  · intro h
    exact ⟨List.mem_of_find?_eq_some h, by simpa using List.find?_some h⟩
  · rintro ⟨hy, hk⟩
    cases hf : (toList t).find? fun z => key z = key x with
    | none =>
      rw [List.find?_eq_none] at hf
      exact absurd hk (by simpa using hf y hy)
    | some z =>
      have hz : key z = key x := by simpa using List.find?_some hf
      rw [ht.eq_of_key_eq (List.mem_of_find?_eq_some hf) hy (hz.trans hk.symm)]

theorem avlsearch_eq_none (hc : Orders compare key) {t : Tree α} (ht : Sorted key t) {x : α} :
    avlsearch compare t x = none ↔ ∀ y ∈ toList t, key y ≠ key x := by
  rw [avlsearch_eq hc ht, List.find?_eq_none]
  simp

/-- On its way down an insertion meets the element with the key. -/
theorem mem_path (hc : Orders compare key) {x y : α} : ∀ {t : Tree α}, Sorted key t →
    y ∈ toList t → key y = key x → y ∈ path compare t x
  | .nil, _, hy, _ => by cases hy
  | .node h l z r, ht, hy, hyx => by
    obtain ⟨hl, hr, hlz, hzr⟩ := sorted_node.mp ht
    rw [toList_node, List.mem_append, List.mem_cons] at hy
    rw [path, List.mem_cons]
    rcases hy with hy | rfl | hy
    · have hneg : compare x z < 0 := (hc.neg_iff x z).mpr (hyx ▸ hlz y hy)
      rw [if_pos hneg]
      exact .inr (mem_path hc hl hy hyx)
    · exact .inl rfl
    · have hpos : compare x z > 0 := (hc.pos_iff x z).mpr (hyx ▸ hzr y hy)
      rw [if_neg (by omega), if_pos hpos]
      exact .inr (mem_path hc hr hy hyx)

/-- And a removal compares the key with it. -/
theorem mem_removeComparisons (hc : Orders compare key) {x y : α} : ∀ {t : Tree α}, Sorted key t →
    y ∈ toList t → key y = key x → (x, y) ∈ removeComparisons compare t x
  | .nil, _, hy, _ => by cases hy
  | .node h l z r, ht, hy, hyx => by
    obtain ⟨hl, hr, hlz, hzr⟩ := sorted_node.mp ht
    rw [toList_node, List.mem_append, List.mem_cons] at hy
    rw [removeComparisons, List.mem_cons]
    rcases hy with hy | rfl | hy
    · have hneg : compare x z < 0 := (hc.neg_iff x z).mpr (hyx ▸ hlz y hy)
      rw [if_neg (by omega), if_pos hneg]
      exact .inr (mem_removeComparisons hc hl hy hyx)
    · exact .inl rfl
    · have hpos : compare x z > 0 := (hc.pos_iff x z).mpr (hyx ▸ hzr y hy)
      rw [if_neg (by omega), if_neg (by omega)]
      exact .inr (mem_removeComparisons hc hr hy hyx)

/-! ## Insertion -/

/-- **A key that is there already leaves the tree as it is.**  The heights are recomputed on the way
up, so this rests on their being right. -/
theorem avlinsert_of_mem (hc : Orders compare key) (x : α) :
    ∀ {t : Tree α}, Shape t → Sorted key t → (∃ y ∈ toList t, key y = key x) →
      avlinsert compare t x = t
  | .nil, _, _, ⟨y, hy, _⟩ => by simp at hy
  | .node h l y r, hs, ht, ⟨z, hz, hzx⟩ => by
    obtain ⟨rfl, h₁, h₂, hls, hrs⟩ := hs
    obtain ⟨hl, hr, hly, hyr⟩ := sorted_node.mp ht
    rw [toList_node, List.mem_append, List.mem_cons] at hz
    rw [avlinsert]
    split
    · rename_i hlt
      have hxy := (hc.neg_iff x y).mp hlt
      have hzl : z ∈ toList l := by
        rcases hz with hz | rfl | hz
        · exact hz
        · exact absurd hzx (ne_of_gt hxy)
        · exact absurd hzx (ne_of_gt (lt_trans hxy (hyr z hz)))
      rw [avlinsert_of_mem hc x hls hl ⟨z, hzl, hzx⟩,
        afterInsertLeft_of_ne (by omega), mk]
    · split
      · rename_i hgt
        have hyx := (hc.pos_iff x y).mp hgt
        have hzr : z ∈ toList r := by
          rcases hz with hz | rfl | hz
          · exact absurd hzx (ne_of_lt (lt_trans (hly z hz) hyx))
          · exact absurd hzx (ne_of_lt hyx)
          · exact hz
        rw [avlinsert_of_mem hc x hrs hr ⟨z, hzr, hzx⟩,
          afterInsertRight_of_ne (by omega), mk]
      · rfl

/-- **A new key goes between the smaller and the larger ones.** -/
theorem toList_avlinsert (hc : Orders compare key) (x : α) :
    ∀ {t : Tree α}, Sorted key t → (∀ y ∈ toList t, key y ≠ key x) →
      toList (avlinsert compare t x) =
        (toList t).filter (fun y => key y < key x) ++ x :: (toList t).filter fun y => key x < key y
  | .nil, _, _ => rfl
  | .node h l y r, ht, hx => by
    obtain ⟨hl, hr, hly, hyr⟩ := sorted_node.mp ht
    simp only [toList_node, List.mem_append, List.mem_cons] at hx
    rw [avlinsert, toList_node, List.filter_append, List.filter_append, List.filter_cons,
      List.filter_cons]
    split
    · rename_i hlt
      have hxy := (hc.neg_iff x y).mp hlt
      have hr₁ : (toList r).filter (fun z => key z < key x) = [] := by
        rw [List.filter_eq_nil_iff]
        intro z hz
        simpa using le_of_lt (lt_trans hxy (hyr z hz))
      have hr₂ : (toList r).filter (fun z => key x < key z) = toList r := by
        rw [List.filter_eq_self]
        intro z hz
        simpa using lt_trans hxy (hyr z hz)
      rw [toList_afterInsertLeft, toList_avlinsert hc x hl (fun z hz => hx z (.inl hz)), hr₁, hr₂]
      simp [hxy, not_lt_of_gt hxy]
    · split
      · rename_i hgt
        have hyx := (hc.pos_iff x y).mp hgt
        have hl₁ : (toList l).filter (fun z => key z < key x) = toList l := by
          rw [List.filter_eq_self]
          intro z hz
          simpa using lt_trans (hly z hz) hyx
        have hl₂ : (toList l).filter (fun z => key x < key z) = [] := by
          rw [List.filter_eq_nil_iff]
          intro z hz
          simpa using le_of_lt (lt_trans (hly z hz) hyx)
        rw [toList_afterInsertRight, toList_avlinsert hc x hr (fun z hz => hx z (.inr (.inr hz))),
          hl₁, hl₂]
        simp [hyx, not_lt_of_gt hyx]
      · rename_i hlt hgt
        exact absurd ((hc.zero_iff x y).mp (by omega)).symm (hx y (.inr (.inl rfl)))

theorem sorted_avlinsert (hc : Orders compare key) {t : Tree α} (hs : Shape t)
    (ht : Sorted key t) (x : α) : Sorted key (avlinsert compare t x) := by
  by_cases hx : ∃ y ∈ toList t, key y = key x
  · rwa [avlinsert_of_mem hc x hs ht hx]
  · rw [Sorted, toList_avlinsert hc x ht (fun y hy h => hx ⟨y, hy, h⟩), List.pairwise_append,
      List.pairwise_cons]
    simp only [List.mem_cons, List.mem_filter, decide_eq_true_eq]
    refine ⟨ht.filter _, ⟨fun y hy => hy.2, ht.filter _⟩, fun a ha b hb => ?_⟩
    rcases hb with rfl | hb
    · exact ha.2
    · exact lt_trans ha.2 hb.2

theorem mem_toList_avlinsert (hc : Orders compare key) {t : Tree α} (ht : Sorted key t) {x y : α}
    (hx : ∀ z ∈ toList t, key z ≠ key x) :
    y ∈ toList (avlinsert compare t x) ↔ y = x ∨ y ∈ toList t := by
  rw [toList_avlinsert hc x ht hx, List.mem_append, List.mem_cons, List.mem_filter,
    List.mem_filter]
  simp only [decide_eq_true_eq]
  constructor
  · rintro (h | h | h)
    · exact .inr h.1
    · exact .inl h
    · exact .inr h.1
  · rintro (h | h)
    · exact .inr (.inl h)
    · rcases lt_or_gt_of_ne (hx y h) with hlt | hgt
      · exact .inl ⟨h, hlt⟩
      · exact .inr (.inr ⟨h, hgt⟩)

/-! ## Removal -/

/-- **The node with the key goes, and no other.** -/
theorem toList_avlremove (hc : Orders compare key) :
    ∀ {t : Tree α}, Sorted key t → ∀ (x : α) (rm : Option α),
      toList (avlremove compare t x rm).1 = (toList t).filter fun y => key y ≠ key x
  | .nil, _, _, _ => rfl
  | .node h l y r, ht, x, rm => by
    obtain ⟨hl, hr, hly, hyr⟩ := sorted_node.mp ht
    rw [avlremove, toList_node, List.filter_append]
    split
    · rename_i heq
      have hxy := (hc.zero_iff x y).mp heq
      have hl₁ : (toList l).filter (fun z => key z ≠ key x) = toList l := by
        rw [List.filter_eq_self]
        intro z hz
        simpa [hxy] using ne_of_lt (hly z hz)
      have hr₁ : (toList r).filter (fun z => key z ≠ key x) = toList r := by
        rw [List.filter_eq_self]
        intro z hz
        simpa [hxy] using ne_of_gt (hyr z hz)
      rw [List.filter_cons_of_neg (by simp [hxy]), hl₁, hr₁]
      split
      · -- the successor of `y` takes its place, and leaves the right subtree
        rename_i hnull
        obtain ⟨th, tmp, tr, hmin, rest, hrest⟩ := avlgetmin_eq (t := r) (by
          rintro rfl
          simp [isNull] at hnull)
        have hr' : (toList r).Pairwise fun a b => key a < key b := hr
        rw [hrest, List.pairwise_cons] at hr'
        have hkeep : rest.filter (fun z => key z ≠ key tmp) = rest := by
          rw [List.filter_eq_self]
          intro z hz
          simpa using ne_of_gt (hr'.1 z hz)
        rw [hmin]
        simp only [toList_rebalance, toList_node]
        rw [toList_avlremove hc hr, hrest, List.filter_cons_of_neg (by simp), hkeep]
      · rename_i hnull
        split
        · rename_i hnl
          have hrn : r = .nil := by
            cases r <;> simp_all [isNull]
          simp [hrn]
        · rename_i hnl
          have hln : l = .nil := by
            cases l <;> simp_all [isNull]
          simp [hln]
    · rename_i hne
      have hxy : key y ≠ key x := fun h => hne ((hc.zero_iff x y).mpr h.symm)
      rw [List.filter_cons_of_pos (by simpa using hxy)]
      split
      · rename_i hlt
        have hlt' := (hc.neg_iff x y).mp hlt
        have hr₁ : (toList r).filter (fun z => key z ≠ key x) = toList r := by
          rw [List.filter_eq_self]
          intro z hz
          simpa using ne_of_gt (lt_trans hlt' (hyr z hz))
        rw [hr₁]
        split
        · rw [toList_rebalance, toList_node, toList_avlremove hc hl]
        · rename_i hnull
          have hln : l = .nil := by
            cases l <;> simp_all [isNull]
          simp [hln]
      · rename_i hnlt
        have hgt' := (hc.pos_iff x y).mp (by omega)
        have hl₁ : (toList l).filter (fun z => key z ≠ key x) = toList l := by
          rw [List.filter_eq_self]
          intro z hz
          simpa using ne_of_lt (lt_trans (hly z hz) hgt')
        rw [hl₁]
        split
        · rw [toList_rebalance, toList_node, toList_avlremove hc hr]
        · rename_i hnull
          have hrn : r = .nil := by
            cases r <;> simp_all [isNull]
          simp [hrn]

/-- The node returned is the one with the key, as the search would find it. -/
theorem avlremove_snd :
    ∀ {t : Tree α}, ∀ (x : α), (avlremove compare t x none).2 = avlsearch compare t x
  | .nil, _ => rfl
  | .node h l y r, x => by
    rw [avlremove, avlsearch]
    split
    · rename_i heq
      rw [if_neg (show ¬compare x y < 0 by omega), if_neg (show ¬compare x y > 0 by omega)]
      repeat' split
      all_goals rfl
    · split
      · split
        · exact avlremove_snd x
        · rename_i hnull
          have hln : l = .nil := by
            cases l <;> simp_all [isNull]
          rw [hln, avlsearch]
      · rw [if_pos (show compare x y > 0 by omega)]
        split
        · exact avlremove_snd x
        · rename_i hnull
          have hrn : r = .nil := by
            cases r <;> simp_all [isNull]
          rw [hrn, avlsearch]

/-- **A key that is not there leaves the tree as it is.** -/
theorem avlremove_of_notMem (hc : Orders compare key) :
    ∀ {t : Tree α}, Shape t → Sorted key t → ∀ (x : α) (rm : Option α),
      (∀ y ∈ toList t, key y ≠ key x) → (avlremove compare t x rm).1 = t
  | .nil, _, _, _, _, _ => rfl
  | .node h l y r, hs, ht, x, rm, hx => by
    obtain ⟨rfl, h₁, h₂, hls, hrs⟩ := hs
    obtain ⟨hl, hr, -, -⟩ := sorted_node.mp ht
    simp only [toList_node, List.mem_append, List.mem_cons] at hx
    have hne : ¬compare x y = 0 := fun h =>
      hx y (.inr (.inl rfl)) ((hc.zero_iff x y).mp h).symm
    have hl' := avlremove_of_notMem hc hls hl x none fun z hz => hx z (.inl hz)
    have hr' := avlremove_of_notMem hc hrs hr x none fun z hz => hx z (.inr (.inr hz))
    rw [avlremove, if_neg hne]
    repeat' split
    all_goals simp only [hl', hr', rebalance_of_balanced _ y h₁ h₂, mk]

theorem sorted_avlremove (hc : Orders compare key) {t : Tree α} (ht : Sorted key t) (x : α)
    (rm : Option α) : Sorted key (avlremove compare t x rm).1 := by
  rw [Sorted, toList_avlremove hc ht]
  exact ht.filter _

theorem mem_toList_avlremove (hc : Orders compare key) {t : Tree α} (ht : Sorted key t) {x y : α}
    {rm : Option α} :
    y ∈ toList (avlremove compare t x rm).1 ↔ y ∈ toList t ∧ key y ≠ key x := by
  rw [toList_avlremove hc ht, List.mem_filter]
  simp

theorem avlremove_of_ne_nil {t : Tree α} (ht : t ≠ .nil) (x : α) (rm : Option α) :
    avlremove compare t x rm = avlremove compare t x none := by
  cases t with
  | nil => exact absurd rfl ht
  | node h l y r => simp only [avlremove]

/-- Removing a node that is there cuts it out of the list of nodes. -/
theorem avlremove_of_mem (hc : Orders compare key) {t : Tree α} (ht : Sorted key t) {x y : α}
    (hy : y ∈ toList t) (hk : key y = key x) (rm : Option α) :
    (avlremove compare t x rm).2 = some y ∧
      ∃ before after, toList t = before ++ y :: after ∧
        toList (avlremove compare t x rm).1 = before ++ after := by
  have hne : t ≠ .nil := by
    rintro rfl
    simp at hy
  refine ⟨?_, ?_⟩
  · rw [avlremove_of_ne_nil hne, avlremove_snd]
    exact (avlsearch_eq_some hc ht).mpr ⟨hy, hk⟩
  · obtain ⟨before, after, hsplit⟩ := List.append_of_mem hy
    have hpw : (before ++ y :: after).Pairwise fun a b => key a < key b := hsplit ▸ ht
    rw [List.pairwise_append, List.pairwise_cons] at hpw
    obtain ⟨-, ⟨hafter, -⟩, hbefore⟩ := hpw
    have hb : before.filter (fun z => key z ≠ key x) = before := by
      rw [List.filter_eq_self]
      intro z hz
      simpa [hk] using ne_of_lt (hk ▸ hbefore z hz y (by simp))
    have ha : after.filter (fun z => key z ≠ key x) = after := by
      rw [List.filter_eq_self]
      intro z hz
      simpa using ne_of_gt (hk ▸ hafter z hz)
    refine ⟨before, after, hsplit, ?_⟩
    rw [toList_avlremove hc ht, hsplit, List.filter_append, List.filter_cons_of_neg (by simp [hk]),
      hb, ha]

/-! ## Both invariants together -/

/-- What the operations keep: the shape, and the order of the keys. -/
structure Wf (key : α → K) (t : Tree α) : Prop where
  /-- Heights and balance. -/
  shape : Shape t
  /-- The keys increase from left to right. -/
  sorted : Sorted key t

theorem wf_nil : Wf key (.nil : Tree α) := ⟨trivial, sorted_nil⟩

theorem Wf.avlinsert {t : Tree α} (ht : Wf key t) (hc : Orders compare key) (x : α) :
    Wf key (avlinsert compare t x) :=
  ⟨shape_avlinsert ht.shape x, sorted_avlinsert hc ht.shape ht.sorted x⟩

theorem Wf.avlremove {t : Tree α} (ht : Wf key t) (hc : Orders compare key) (x : α)
    (rm : Option α) : Wf key (avlremove compare t x rm).1 :=
  ⟨shape_avlremove ht.shape x rm, sorted_avlremove hc ht.sorted x rm⟩

end Avl

end LibNax
