import LibNax.Avl.Tree

/-!
# Heights and balance

Insertion and removal keep the stored heights right and the siblings within one of each other.
This half of the correctness of the tree does not depend on the comparison being an order: whatever
signs it returns, the rotations restore the shape.

* `Shape` is the invariant, stated over the stored heights; `shape_iff` says that it is the
  conjunction of what one would say separately: the stored heights are the real ones
  (`StoredHeights`) and the real heights of siblings differ by at most one (`SiblingsBalanced`).
* `shape_avlinsert` and `shape_avlremove` are the two operations.

For insertion the rotation is chosen by comparing the new node with the root of the subtree that has
grown, so the induction has to remember on which side of that root the subtree grew (`Grown`).  For
removal the rotation is chosen by heights alone, and `shape_rebalance_left_heavy` and
`shape_rebalance_right_heavy` cover every case.
-/

set_option autoImplicit false

namespace LibNax

namespace Avl

variable {α : Type} {compare : α → α → Int}

/-! ## The invariant -/

/-- The height of a tree as a tree: `-1` when empty, `0` at a leaf. -/
def realHeight : Tree α → Int
  | .nil => -1
  | .node _ l _ r => max (realHeight l) (realHeight r) + 1

/-- Every stored height is the real one. -/
def StoredHeights : Tree α → Prop
  | .nil => True
  | .node h l x r => h = realHeight (.node h l x r) ∧ StoredHeights l ∧ StoredHeights r

/-- The real heights of siblings differ by at most one. -/
def SiblingsBalanced : Tree α → Prop
  | .nil => True
  | .node _ l _ r =>
    realHeight l - realHeight r ≤ 1 ∧ realHeight r - realHeight l ≤ 1 ∧
      SiblingsBalanced l ∧ SiblingsBalanced r

/-- The same invariant over the heights that the operations read. -/
def Shape : Tree α → Prop
  | .nil => True
  | .node h l _ r =>
    h = max (height l) (height r) + 1 ∧ height l ≤ height r + 1 ∧ height r ≤ height l + 1 ∧
      Shape l ∧ Shape r

theorem StoredHeights.height_eq : ∀ {t : Tree α}, StoredHeights t → height t = realHeight t
  | .nil, _ => rfl
  | .node _ _ _ _, ht => ht.1

theorem Shape.height_eq : ∀ {t : Tree α}, Shape t → height t = realHeight t
  | .nil, _ => rfl
  | .node h l x r, ⟨hh, _, _, hl, hr⟩ => by
    rw [height_node, hh, realHeight, hl.height_eq, hr.height_eq]

theorem shape_iff : ∀ {t : Tree α}, Shape t ↔ StoredHeights t ∧ SiblingsBalanced t
  | .nil => by simp [Shape, StoredHeights, SiblingsBalanced]
  | .node h l x r => by
    constructor
    · rintro ⟨hh, h₁, h₂, hl, hr⟩
      rw [hl.height_eq, hr.height_eq] at hh h₁ h₂
      exact ⟨⟨hh, (shape_iff.mp hl).1, (shape_iff.mp hr).1⟩, by omega, by omega,
        (shape_iff.mp hl).2, (shape_iff.mp hr).2⟩
    · rintro ⟨⟨hh, sl, sr⟩, hb₁, hb₂, bl, br⟩
      rw [realHeight] at hh
      refine ⟨?_, ?_, ?_, shape_iff.mpr ⟨sl, bl⟩, shape_iff.mpr ⟨sr, br⟩⟩
      all_goals rw [sl.height_eq, sr.height_eq]; omega

theorem Shape.neg_one_le : ∀ {t : Tree α}, Shape t → -1 ≤ height t
  | .nil, _ => Int.le_refl _
  | .node _ _ _ _, ⟨hh, _, _, hl, _⟩ => by
    have := hl.neg_one_le
    rw [height_node, hh]
    omega

theorem Shape.exists_node {t : Tree α} (ht : Shape t) (h : 0 ≤ height t) :
    ∃ l x r, t = mk l x r ∧ height l ≤ height r + 1 ∧ height r ≤ height l + 1 ∧
      Shape l ∧ Shape r := by
  cases t with
  | nil => simp at h
  | node h₀ l x r =>
    obtain ⟨rfl, h₁, h₂, hl, hr⟩ := ht
    exact ⟨l, x, r, rfl, h₁, h₂, hl, hr⟩

theorem shape_mk {l r : Tree α} (x : α) (hl : Shape l) (hr : Shape r)
    (h₁ : height l ≤ height r + 1) (h₂ : height r ≤ height l + 1) : Shape (mk l x r) :=
  ⟨rfl, h₁, h₂, hl, hr⟩

/-! ## Insertion -/

/-- How a tree looks right after an insertion made it taller: it is a new leaf, or the taller child
is the one on the side of the new node. -/
def Grown (compare : α → α → Int) (x : α) : Tree α → Prop
  | .nil => False
  | .node h l y r => h = 0 ∨ (compare x y < 0 ∧ height l = height r + 1) ∨
      (compare x y > 0 ∧ height r = height l + 1)

/-- What an insertion does to the shape of a tree: it keeps the invariant, and the tree keeps its
height or grows by one towards the new node. -/
def InsertShape (compare : α → α → Int) (x : α) (t t' : Tree α) : Prop :=
  Shape t' ∧ (height t' = height t ∨ height t' = height t + 1 ∧ Grown compare x t')

/-- The left child has grown by two over the right one. -/
theorem insertShape_left {x y : α} {h : Int} {l l' r : Tree α} (ht : Shape (.node h l y r))
    (hl' : InsertShape compare x l l') (hxy : compare x y < 0) :
    InsertShape compare x (.node h l y r) (afterInsertLeft compare x h l' y r) := by
  unfold afterInsertLeft
  obtain ⟨rfl, h₁, h₂, -, hr⟩ := ht
  obtain ⟨hs, hg⟩ := hl'
  have hr1 := hr.neg_one_le
  by_cases hd : height l' - height r = 2
  · rw [if_pos hd]
    obtain ⟨a, z, b, rfl, hab, hba, ha, hb⟩ := hs.exists_node (by omega)
    simp only [mk, height_node] at hd hg ⊢
    -- the left child grew, so the comparison with its root says which of its children is taller
    obtain hg | ⟨hgrow, hg⟩ := hg
    · omega
    rcases hg with h0 | ⟨hz, hz'⟩ | ⟨hz, hz'⟩
    · omega
    · rw [if_pos hz]
      refine ⟨shape_mk _ ha (shape_mk _ hb hr ?_ ?_) ?_ ?_, .inl ?_⟩
      all_goals try simp only [singleRotateLeft, height_mk, height_node]
      all_goals omega
    · rw [if_neg (show ¬compare x z < 0 by omega), if_pos hz]
      obtain ⟨b₁, w, b₂, rfl, hb₁, hb₂, hb₁', hb₂'⟩ :=
        hb.exists_node (by have := ha.neg_one_le; omega)
      simp only [height_mk] at hd hz' hab hba hgrow
      simp only [mk, doubleRotateLeft, height_node]
      refine ⟨⟨rfl, ?_, ?_, ⟨rfl, ?_, ?_, ha, hb₁'⟩, ⟨rfl, ?_, ?_, hb₂', hr⟩⟩, .inl ?_⟩
      all_goals try simp only [height_node]
      all_goals omega
  · rw [if_neg hd]
    have hg' : height l' = height l ∨ height l' = height l + 1 := by
      rcases hg with hg | hg
      · exact .inl hg
      · exact .inr hg.1
    refine ⟨shape_mk _ hs hr (by omega) (by omega), ?_⟩
    simp only [height_node, mk, Grown]
    omega

/-- The right child has grown by two over the left one. -/
theorem insertShape_right {x y : α} {h : Int} {l r r' : Tree α} (ht : Shape (.node h l y r))
    (hr' : InsertShape compare x r r') (hxy : compare x y > 0) :
    InsertShape compare x (.node h l y r) (afterInsertRight compare x h l y r') := by
  unfold afterInsertRight
  obtain ⟨rfl, h₁, h₂, hl, -⟩ := ht
  obtain ⟨hs, hg⟩ := hr'
  have hl1 := hl.neg_one_le
  by_cases hd : height r' - height l = 2
  · rw [if_pos hd]
    obtain ⟨a, z, b, rfl, hab, hba, ha, hb⟩ := hs.exists_node (by omega)
    simp only [mk, height_node] at hd hg ⊢
    obtain hg | ⟨hgrow, hg⟩ := hg
    · omega
    rcases hg with h0 | ⟨hz, hz'⟩ | ⟨hz, hz'⟩
    · omega
    · rw [if_pos hz]
      obtain ⟨a₁, w, a₂, rfl, ha₁, ha₂, ha₁', ha₂'⟩ :=
        ha.exists_node (by have := hb.neg_one_le; omega)
      simp only [height_mk] at hd hz' hab hba hgrow
      simp only [mk, doubleRotateRight, height_node]
      refine ⟨⟨rfl, ?_, ?_, ⟨rfl, ?_, ?_, hl, ha₁'⟩, ⟨rfl, ?_, ?_, ha₂', hb⟩⟩, .inl ?_⟩
      all_goals try simp only [height_node]
      all_goals omega
    · rw [if_neg (by omega), if_pos hz]
      refine ⟨shape_mk _ (shape_mk _ hl ha ?_ ?_) hb ?_ ?_, .inl ?_⟩
      all_goals try simp only [singleRotateRight, height_mk, height_node]
      all_goals omega
  · rw [if_neg hd]
    have hg' : height r' = height r ∨ height r' = height r + 1 := by
      rcases hg with hg | hg
      · exact .inl hg
      · exact .inr hg.1
    refine ⟨shape_mk _ hl hs (by omega) (by omega), ?_⟩
    simp only [height_node, mk, Grown]
    omega

theorem insertShape_avlinsert (x : α) :
    ∀ {t : Tree α}, Shape t → InsertShape compare x t (avlinsert compare t x)
  | .nil, _ => by simp [InsertShape, avlinsert, Shape, Grown]
  | .node h l y r, ht => by
    rw [avlinsert]
    split
    · rename_i hxy
      exact insertShape_left ht (insertShape_avlinsert x ht.2.2.2.1) hxy
    · split
      · rename_i hxy
        exact insertShape_right ht (insertShape_avlinsert x ht.2.2.2.2) hxy
      · exact ⟨ht, .inl rfl⟩

/-- **Insertion keeps the heights and the balance**, whatever the comparison. -/
theorem shape_avlinsert {t : Tree α} (ht : Shape t) (x : α) : Shape (avlinsert compare t x) :=
  (insertShape_avlinsert x ht).1

/-! ## Removal -/

/-- What a removal does to the shape of a tree: it keeps the invariant, and the tree keeps its
height or loses one. -/
def RemoveShape (t t' : Tree α) : Prop :=
  Shape t' ∧ (height t' = height t ∨ height t' = height t - 1)

theorem rebalance_of_balanced {l r : Tree α} (h : Int) (x : α) (h₁ : height l ≤ height r + 1)
    (h₂ : height r ≤ height l + 1) : rebalance (.node h l x r) = mk l x r := by
  rw [rebalance, rotateAfterRemove, lchild_node, rchild_node, if_neg (by omega),
    if_neg (by omega), updateHeight]

/-- The left child is two higher: the source tells the two rotations apart by the height of the
left grandchild alone, since its first two cases rotate alike. -/
theorem rebalance_left_heavy {h hl : Int} {a b r : Tree α} {z x : α}
    (hd : hl = height r + 2) (hb : height a - height r = 1 ∨ height b - height r = 1) :
    rebalance (.node h (.node hl a z b) x r) =
      updateHeight (if height a - height r = 1 then singleRotateLeft (.node h (.node hl a z b) x r)
        else doubleRotateLeft (.node h (.node hl a z b) x r)) := by
  simp only [rebalance, rotateAfterRemove, lchild_node, rchild_node, height_node]
  have hd' : hl - height r = 2 := by omega
  by_cases ha : height a - height r = 1
  · simp only [hd', ha, true_and, if_true, ite_self]
  · have hb' : height b - height r = 1 := by omega
    simp only [hd', ha, hb', false_and, if_true, if_false]

theorem rebalance_right_heavy {h hr : Int} {a b l : Tree α} {z x : α}
    (hd : hr = height l + 2) (hb : height b - height l = 1 ∨ height a - height l = 1) :
    rebalance (.node h l x (.node hr a z b)) =
      updateHeight (if height b - height l = 1 then singleRotateRight (.node h l x (.node hr a z b))
        else doubleRotateRight (.node h l x (.node hr a z b))) := by
  simp only [rebalance, rotateAfterRemove, lchild_node, rchild_node, height_node]
  have hd' : hr - height l = 2 := by omega
  have hd'' : ¬height l - hr = 2 := by omega
  by_cases hb' : height b - height l = 1
  · simp only [hd', hd'', hb', true_and, if_true, if_false, ite_self]
  · have ha : height a - height l = 1 := by omega
    simp only [hd', hd'', hb', ha, false_and, if_true, if_false]

theorem shape_rebalance_left_heavy {l r : Tree α} (h : Int) (x : α) (hl : Shape l) (hr : Shape r)
    (hd : height l = height r + 2) :
    Shape (rebalance (.node h l x r)) ∧
      (height (rebalance (.node h l x r)) = height l ∨
        height (rebalance (.node h l x r)) = height l + 1) := by
  have hr1 := hr.neg_one_le
  obtain ⟨a, z, b, rfl, hab, hba, ha, hb⟩ := hl.exists_node (by omega)
  simp only [mk, height_node] at hd ⊢
  rw [rebalance_left_heavy hd (by omega)]
  by_cases hz : height a - height r = 1
  · rw [if_pos hz, singleRotateLeft]
    refine ⟨⟨rfl, ?_, ?_, ha, ⟨rfl, ?_, ?_, hb, hr⟩⟩, ?_⟩
    all_goals try simp only [updateHeight, mk, height_node]
    all_goals omega
  · rw [if_neg hz]
    obtain ⟨b₁, w, b₂, rfl, hb₁, hb₂, hb₁', hb₂'⟩ := hb.exists_node (by omega)
    simp only [height_mk] at hd hab hba
    simp only [mk, doubleRotateLeft, updateHeight]
    refine ⟨⟨rfl, ?_, ?_, ⟨rfl, ?_, ?_, ha, hb₁'⟩, ⟨rfl, ?_, ?_, hb₂', hr⟩⟩, ?_⟩
    all_goals try simp only [height_node]
    all_goals omega

theorem shape_rebalance_right_heavy {l r : Tree α} (h : Int) (x : α) (hl : Shape l)
    (hr : Shape r) (hd : height r = height l + 2) :
    Shape (rebalance (.node h l x r)) ∧
      (height (rebalance (.node h l x r)) = height r ∨
        height (rebalance (.node h l x r)) = height r + 1) := by
  have hl1 := hl.neg_one_le
  obtain ⟨a, z, b, rfl, hab, hba, ha, hb⟩ := hr.exists_node (by omega)
  simp only [mk, height_node] at hd ⊢
  rw [rebalance_right_heavy hd (by omega)]
  by_cases hz : height b - height l = 1
  · rw [if_pos hz, singleRotateRight]
    refine ⟨⟨rfl, ?_, ?_, ⟨rfl, ?_, ?_, hl, ha⟩, hb⟩, ?_⟩
    all_goals try simp only [updateHeight, mk, height_node]
    all_goals omega
  · rw [if_neg hz]
    obtain ⟨a₁, w, a₂, rfl, ha₁, ha₂, ha₁', ha₂'⟩ := ha.exists_node (by omega)
    simp only [height_mk] at hd hab hba
    simp only [mk, doubleRotateRight, updateHeight]
    refine ⟨⟨rfl, ?_, ?_, ⟨rfl, ?_, ?_, hl, ha₁'⟩, ⟨rfl, ?_, ?_, ha₂', hb⟩⟩, ?_⟩
    all_goals try simp only [height_node]
    all_goals omega

/-- Rebalancing a node whose children are in shape and whose left child has lost at most one. -/
theorem removeShape_left {h₀ h : Int} {l l' r : Tree α} {y : α} (x : α)
    (ht : Shape (.node h₀ l y r)) (hl' : RemoveShape l l') :
    RemoveShape (.node h₀ l y r) (rebalance (.node h l' x r)) := by
  obtain ⟨rfl, h₁, h₂, -, hr⟩ := ht
  obtain ⟨hs, hh⟩ := hl'
  by_cases hd : height r = height l' + 2
  · obtain ⟨hshape, hheight⟩ := shape_rebalance_right_heavy h x hs hr hd
    refine ⟨hshape, ?_⟩
    rw [height_node]
    omega
  · rw [rebalance_of_balanced h x (by omega) (by omega)]
    refine ⟨shape_mk x hs hr (by omega) (by omega), ?_⟩
    rw [height_mk, height_node]
    omega

/-- Rebalancing a node whose children are in shape and whose right child has lost at most one. -/
theorem removeShape_right {h₀ h : Int} {l r r' : Tree α} {y : α} (x : α)
    (ht : Shape (.node h₀ l y r)) (hr' : RemoveShape r r') :
    RemoveShape (.node h₀ l y r) (rebalance (.node h l x r')) := by
  obtain ⟨rfl, h₁, h₂, hl, -⟩ := ht
  obtain ⟨hs, hh⟩ := hr'
  by_cases hd : height l = height r' + 2
  · obtain ⟨hshape, hheight⟩ := shape_rebalance_left_heavy h x hl hs hd
    refine ⟨hshape, ?_⟩
    rw [height_node]
    omega
  · rw [rebalance_of_balanced h x (by omega) (by omega)]
    refine ⟨shape_mk x hl hs (by omega) (by omega), ?_⟩
    rw [height_mk, height_node]
    omega

theorem removeShape_refl {t : Tree α} (ht : Shape t) : RemoveShape t t := ⟨ht, .inl rfl⟩

theorem removeShape_avlremove :
    ∀ {t : Tree α}, Shape t → ∀ (x : α) (rm : Option α),
      RemoveShape t (avlremove compare t x rm).1
  | .nil, _, x, rm => ⟨trivial, .inl rfl⟩
  | .node h l y r, ht, x, rm => by
    have hl := ht.2.2.2.1
    have hr := ht.2.2.2.2
    have hl1 := hl.neg_one_le
    have hr1 := hr.neg_one_le
    rw [avlremove]
    split
    · split
      · split
        · exact removeShape_right _ ht (removeShape_avlremove hr _ none)
        · exact removeShape_refl ht
      · -- one child is missing, so the other has height at most `0`
        rename_i hnull
        obtain ⟨hh, h₁, h₂, -⟩ := ht
        have hnil : l = .nil ∨ l ≠ .nil ∧ r = .nil := by
          cases l <;> cases r <;> simp_all [isNull]
        rcases hnil with rfl | ⟨hne, rfl⟩
        · refine ⟨hr, ?_⟩
          simp only [isNull, height_node, height_nil] at hh h₂ ⊢
          simp only [Bool.not_true, Bool.false_eq_true, if_false]
          omega
        · rw [if_pos (by cases l <;> simp_all [isNull])]
          refine ⟨hl, ?_⟩
          simp only [height_node, height_nil] at hh h₁ ⊢
          omega
    · split
      · split
        · exact removeShape_left _ ht (removeShape_avlremove hl x none)
        · exact removeShape_left _ ht (removeShape_refl hl)
      · split
        · exact removeShape_right _ ht (removeShape_avlremove hr x none)
        · exact removeShape_right _ ht (removeShape_refl hr)

/-- **Removal keeps the heights and the balance**, whatever the comparison. -/
theorem shape_avlremove {t : Tree α} (ht : Shape t) (x : α) (rm : Option α) :
    Shape (avlremove compare t x rm).1 :=
  (removeShape_avlremove ht x rm).1

end Avl

end LibNax
