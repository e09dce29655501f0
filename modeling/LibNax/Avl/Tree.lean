import Mathlib.Order.Basic
import Mathlib.Data.List.Basic

/-!
# The AVL tree

The index structure that the object table, the block cache and the entry tables of the virtual
file system all share.  A `struct avltree_node_t *` is modelled by the subtree hanging at it: `nil`
for the null pointer, and otherwise the node with its stored height, its two children and the
structure it is embedded in, of type `α`.  The height is *stored*, as in the source: nothing here
says that it is the right one, and the operations read and write it exactly where the source does.

* `height` is the macro `HEIGHT`, which reads `-1` off a null pointer and the stored field
  elsewhere.
* `singleRotateLeft`, `singleRotateRight`, `doubleRotateLeft`, `doubleRotateRight` are the four
  rotations.
* `avlinsert`, `avlremove`, `avlsearch`, `avlgetmin`, `avlgetmax`, `avllowerbound` and
  `avlupperbound` are the operations.
* `path` and `removeComparisons` are the nodes that an insertion and a removal hand to the
  comparison, for a comparison that must not be asked about every pair.

The comparison is a parameter, a function into the integers whose sign is what counts.  The
arguments that the source checks against null (`node`, `compare`) are values here, so the early
returns for them have no counterpart; a null `tree` is `nil`.
-/

set_option autoImplicit false

namespace LibNax

namespace Avl

/-- A pointer to a tree node: null, or a node with its stored height, its left child, the structure
it is embedded in, and its right child. -/
inductive Tree (α : Type) where
  | nil
  | node (height : Int) (lchild : Tree α) (elem : α) (rchild : Tree α)
  deriving Repr, DecidableEq

variable {α : Type}

/-- The macro `HEIGHT`. -/
def height : Tree α → Int
  | .nil => -1
  | .node h _ _ _ => h

@[simp] theorem height_nil : height (.nil : Tree α) = -1 := rfl

@[simp] theorem height_node (h : Int) (l : Tree α) (x : α) (r : Tree α) :
    height (.node h l x r) = h := rfl

/-- A node whose height has just been assigned from its children. -/
def mk (l : Tree α) (x : α) (r : Tree α) : Tree α :=
  .node (max (height l) (height r) + 1) l x r

@[simp] theorem height_mk (l : Tree α) (x : α) (r : Tree α) :
    height (mk l x r) = max (height l) (height r) + 1 := rfl

/-! ## Rotations

Each takes the tree apart as far as the source dereferences it.  On a tree too small to be rotated
the source would dereference null; the callers never do that, and the model returns the tree. -/

/-- `_avlsinglerotateleft`. -/
def singleRotateLeft : Tree α → Tree α
  | .node _ (.node _ a x b) y c => mk a x (mk b y c)
  | t => t

/-- `_avlsinglerotateright`. -/
def singleRotateRight : Tree α → Tree α
  | .node _ a x (.node _ b y c) => mk (mk a x b) y c
  | t => t

/-- `_avldoublerotateleft`. -/
def doubleRotateLeft : Tree α → Tree α
  | .node _ (.node _ a x (.node _ b y c)) z d => mk (mk a x b) y (mk c z d)
  | t => t

/-- `_avldoublerotateright`. -/
def doubleRotateRight : Tree α → Tree α
  | .node _ a x (.node _ (.node _ b y c) z d) => mk (mk a x b) y (mk c z d)
  | t => t

/-! ## The operations -/

/-- Whether a pointer is null. -/
def isNull : Tree α → Bool
  | .nil => true
  | .node .. => false

/-- The left child of a node. -/
def lchild : Tree α → Tree α
  | .nil => .nil
  | .node _ l _ _ => l

/-- The right child of a node. -/
def rchild : Tree α → Tree α
  | .nil => .nil
  | .node _ _ _ r => r

@[simp] theorem lchild_node (h : Int) (l : Tree α) (x : α) (r : Tree α) :
    lchild (.node h l x r) = l := rfl

@[simp] theorem rchild_node (h : Int) (l : Tree α) (x : α) (r : Tree α) :
    rchild (.node h l x r) = r := rfl

@[simp] theorem isNull_node (h : Int) (l : Tree α) (x : α) (r : Tree α) :
    isNull (.node h l x r) = false := rfl

/-- What `avlinsert` does after `l` has become the left child of the node `x`. -/
def afterInsertLeft (compare : α → α → Int) (node : α) (h : Int) (l : Tree α) (x : α)
    (r : Tree α) : Tree α :=
  if height l - height r = 2 then
    match l with
    | .nil => .node h l x r
    | .node _ _ y _ =>
      if compare node y < 0 then singleRotateLeft (.node h l x r)
      else if compare node y > 0 then doubleRotateLeft (.node h l x r)
      else .node h l x r
  else mk l x r

/-- What `avlinsert` does after `r` has become the right child of the node `x`. -/
def afterInsertRight (compare : α → α → Int) (node : α) (h : Int) (l : Tree α) (x : α)
    (r : Tree α) : Tree α :=
  if height r - height l = 2 then
    match r with
    | .nil => .node h l x r
    | .node _ _ y _ =>
      if compare node y < 0 then doubleRotateRight (.node h l x r)
      else if compare node y > 0 then singleRotateRight (.node h l x r)
      else .node h l x r
  else mk l x r

theorem afterInsertLeft_of_ne {compare : α → α → Int} {node : α} {h : Int} {l : Tree α} {x : α}
    {r : Tree α} (hne : height l - height r ≠ 2) :
    afterInsertLeft compare node h l x r = mk l x r := by
  unfold afterInsertLeft
  rw [if_neg hne]

theorem afterInsertRight_of_ne {compare : α → α → Int} {node : α} {h : Int} {l : Tree α} {x : α}
    {r : Tree α} (hne : height r - height l ≠ 2) :
    afterInsertRight compare node h l x r = mk l x r := by
  unfold afterInsertRight
  rw [if_neg hne]

/-- `avlinsert`.  The sign of the comparison picks the side at every node, and again, when that side
has grown by two, the rotation.  A node that compares equal leaves the tree as it is. -/
def avlinsert (compare : α → α → Int) : Tree α → α → Tree α
  | .nil, node => .node 0 .nil node .nil
  | .node h l x r, node =>
    if compare node x < 0 then
      afterInsertLeft compare node h (avlinsert compare l node) x r
    else if compare node x > 0 then
      afterInsertRight compare node h l x (avlinsert compare r node)
    else .node h l x r

/-- `avlgetmin`: the node without a left child at the end of the left spine. -/
def avlgetmin : Tree α → Tree α
  | .nil => .nil
  | .node h .nil x r => .node h .nil x r
  | .node _ (.node h l x r) _ _ => avlgetmin (.node h l x r)

/-- `avlgetmax`. -/
def avlgetmax : Tree α → Tree α
  | .nil => .nil
  | .node h l x .nil => .node h l x .nil
  | .node _ _ _ (.node h l x r) => avlgetmax (.node h l x r)

/-- `avlsearch`: the structure whose node compares equal, or none. -/
def avlsearch (compare : α → α → Int) : Tree α → α → Option α
  | .nil, _ => none
  | .node _ l x r, node =>
    if compare node x < 0 then avlsearch compare l node
    else if compare node x > 0 then avlsearch compare r node
    else some x

/-- `avllowerbound`.  A subtree without a candidate leaves the choice to the node above it. -/
def avllowerbound (compare : α → α → Int) : Tree α → α → Option α
  | .nil, _ => none
  | .node _ l x r, node =>
    if compare node x < 0 then (avllowerbound compare l node).or (some x)
    else if compare node x > 0 then avllowerbound compare r node
    else some x

/-- `avlupperbound`. -/
def avlupperbound (compare : α → α → Int) : Tree α → α → Option α
  | .nil, _ => none
  | .node _ l x r, node =>
    if compare node x < 0 then (avlupperbound compare l node).or (some x)
    else avlupperbound compare r node

/-- The rotation that `avlremove` picks before it stores the height of the node it returns. -/
def rotateAfterRemove (t : Tree α) : Tree α :=
  if height (lchild t) - height (rchild t) = 2 then
    if height (lchild (lchild t)) - height (rchild t) = 1 ∧
        height (rchild (lchild t)) - height (rchild t) = 1 then singleRotateLeft t
    else if height (lchild (lchild t)) - height (rchild t) = 1 then singleRotateLeft t
    else if height (rchild (lchild t)) - height (rchild t) = 1 then doubleRotateLeft t
    else t
  else if height (rchild t) - height (lchild t) = 2 then
    if height (rchild (rchild t)) - height (lchild t) = 1 ∧
        height (lchild (rchild t)) - height (lchild t) = 1 then singleRotateRight t
    else if height (rchild (rchild t)) - height (lchild t) = 1 then singleRotateRight t
    else if height (lchild (rchild t)) - height (lchild t) = 1 then doubleRotateRight t
    else t
  else t

/-- The assignment of the height at the end of `avlremove`. -/
def updateHeight : Tree α → Tree α
  | .nil => .nil
  | .node _ l x r => mk l x r

/-- What `avlremove` does on the way out of a node it keeps. -/
def rebalance (t : Tree α) : Tree α := updateHeight (rotateAfterRemove t)

/-- `avlremove`.  The last argument is the value of `*rmnode` at the call, which a null tree leaves
alone; the second component of the result is its value at the return. -/
def avlremove (compare : α → α → Int) : Tree α → α → Option α → Tree α × Option α
  | .nil, _, rmnode => (.nil, rmnode)
  | .node h l x r, node, _ =>
    if compare node x = 0 then
      if !isNull l && !isNull r then
        match avlgetmin r with
        -- the successor keeps its own stale height until `rebalance` stores the new one
        | .node th _ tmpnode _ =>
          (rebalance (.node th l tmpnode (avlremove compare r tmpnode none).1), some x)
        | .nil => (.node h l x r, some x)
      else if !isNull l then (l, some x)
      else (r, some x)
    else if compare node x < 0 then
      if !isNull l then
        (rebalance (.node h (avlremove compare l node none).1 x r),
          (avlremove compare l node none).2)
      else (rebalance (.node h l x r), none)
    else
      if !isNull r then
        (rebalance (.node h l x (avlremove compare r node none).1),
          (avlremove compare r node none).2)
      else (rebalance (.node h l x r), none)

/-! ## The comparisons -/

/-- The nodes that `avlinsert` compares a node with on its way down.  When it rotates it compares
again with one of them. -/
def path (compare : α → α → Int) : Tree α → α → List α
  | .nil, _ => []
  | .node _ l x r, node =>
    x :: if compare node x < 0 then path compare l node
      else if compare node x > 0 then path compare r node
      else []

/-- The pairs of nodes that `avlremove` compares.  To take the successor out of the right subtree it
compares that node with the ones above it, and in the end with itself. -/
def removeComparisons (compare : α → α → Int) : Tree α → α → List (α × α)
  | .nil, _ => []
  | .node _ l x r, node =>
    (node, x) ::
      if compare node x = 0 then
        if !isNull l && !isNull r then
          match avlgetmin r with
          | .node _ _ tmpnode _ => removeComparisons compare r tmpnode
          | .nil => []
        else []
      else if compare node x < 0 then removeComparisons compare l node
      else removeComparisons compare r node

/-! ## The nodes of a tree, from left to right -/

/-- The nodes in order. -/
def toList : Tree α → List α
  | .nil => []
  | .node _ l x r => toList l ++ x :: toList r

@[simp] theorem toList_nil : toList (.nil : Tree α) = [] := rfl

@[simp] theorem toList_node (h : Int) (l : Tree α) (x : α) (r : Tree α) :
    toList (.node h l x r) = toList l ++ x :: toList r := rfl

@[simp] theorem toList_mk (l : Tree α) (x : α) (r : Tree α) :
    toList (mk l x r) = toList l ++ x :: toList r := rfl

theorem toList_eq_nil {t : Tree α} : toList t = [] ↔ t = .nil := by
  cases t <;> simp

@[simp] theorem toList_singleRotateLeft (t : Tree α) :
    toList (singleRotateLeft t) = toList t := by
  unfold singleRotateLeft
  split <;> simp

@[simp] theorem toList_singleRotateRight (t : Tree α) :
    toList (singleRotateRight t) = toList t := by
  unfold singleRotateRight
  split <;> simp

@[simp] theorem toList_doubleRotateLeft (t : Tree α) :
    toList (doubleRotateLeft t) = toList t := by
  unfold doubleRotateLeft
  split <;> simp

@[simp] theorem toList_doubleRotateRight (t : Tree α) :
    toList (doubleRotateRight t) = toList t := by
  unfold doubleRotateRight
  split <;> simp

theorem toList_afterInsertLeft (compare : α → α → Int) (node : α) (h : Int) (l : Tree α) (x : α)
    (r : Tree α) : toList (afterInsertLeft compare node h l x r) = toList l ++ x :: toList r := by
  unfold afterInsertLeft
  repeat' split
  all_goals simp

theorem toList_afterInsertRight (compare : α → α → Int) (node : α) (h : Int) (l : Tree α) (x : α)
    (r : Tree α) : toList (afterInsertRight compare node h l x r) = toList l ++ x :: toList r := by
  unfold afterInsertRight
  repeat' split
  all_goals simp

@[simp] theorem toList_rotateAfterRemove (t : Tree α) :
    toList (rotateAfterRemove t) = toList t := by
  unfold rotateAfterRemove
  repeat' split
  all_goals simp

@[simp] theorem toList_rebalance (t : Tree α) : toList (rebalance t) = toList t := by
  have h : ∀ u : Tree α, toList (updateHeight u) = toList u := by
    intro u
    cases u <;> rfl
  rw [rebalance, h, toList_rotateAfterRemove]

/-- The successor is the first node in order. -/
theorem avlgetmin_eq : ∀ {t : Tree α}, t ≠ .nil →
    ∃ h x r, avlgetmin t = .node h .nil x r ∧ ∃ rest, toList t = x :: rest
  | .nil, ht => absurd rfl ht
  | .node h .nil x r, _ => ⟨h, x, r, by rw [avlgetmin], toList r, by simp⟩
  | .node _ (.node h l x r) y r', _ => by
    obtain ⟨h₀, x₀, r₀, hmin, rest, hrest⟩ :=
      avlgetmin_eq (t := .node h l x r) (by simp)
    refine ⟨h₀, x₀, r₀, by rw [avlgetmin, hmin], rest ++ y :: toList r', ?_⟩
    rw [toList_node, hrest, List.cons_append]

/-- An insertion brings in the node and no other. -/
theorem mem_of_mem_avlinsert {compare : α → α → Int} {node y : α} :
    ∀ {t : Tree α}, y ∈ toList (avlinsert compare t node) → y = node ∨ y ∈ toList t
  | .nil, hy => .inl (List.mem_singleton.mp hy)
  | .node h l x r, hy => by
    rw [avlinsert] at hy
    rw [toList_node, List.mem_append, List.mem_cons]
    split at hy
    · rw [toList_afterInsertLeft, List.mem_append, List.mem_cons] at hy
      rcases hy with hy | hy
      · exact (mem_of_mem_avlinsert hy).imp_right .inl
      · exact .inr (.inr hy)
    · split at hy
      · rw [toList_afterInsertRight, List.mem_append, List.mem_cons] at hy
        rcases hy with hy | hy | hy
        · exact .inr (.inl hy)
        · exact .inr (.inr (.inl hy))
        · exact (mem_of_mem_avlinsert hy).imp_right fun hy => .inr (.inr hy)
      · rw [toList_node, List.mem_append, List.mem_cons] at hy
        exact .inr hy

/-- A removal brings in no node. -/
theorem mem_of_mem_avlremove {compare : α → α → Int} {y : α} :
    ∀ {t : Tree α} {node : α} {rmnode : Option α},
      y ∈ toList (avlremove compare t node rmnode).1 → y ∈ toList t
  | .nil, _, _, hy => hy
  | .node h l x r, node, rmnode, hy => by
    rw [avlremove] at hy
    rw [toList_node, List.mem_append, List.mem_cons]
    split at hy
    · split at hy
      · rename_i hboth
        have hr : r ≠ .nil := by
          rintro rfl
          simp [isNull] at hboth
        obtain ⟨th, tmp, tr, hmin, rest, hrest⟩ := avlgetmin_eq hr
        rw [hmin] at hy
        simp only [toList_rebalance, toList_node, List.mem_append, List.mem_cons] at hy
        rcases hy with hy | rfl | hy
        · exact .inl hy
        · rw [hrest]
          exact .inr (.inr List.mem_cons_self)
        · exact .inr (.inr (mem_of_mem_avlremove hy))
      · split at hy
        · exact .inl hy
        · exact .inr (.inr hy)
    · split at hy
      · split at hy
        · rw [toList_rebalance, toList_node, List.mem_append, List.mem_cons] at hy
          exact hy.imp_left mem_of_mem_avlremove
        · rwa [toList_rebalance, toList_node, List.mem_append, List.mem_cons] at hy
      · split at hy
        · rw [toList_rebalance, toList_node, List.mem_append, List.mem_cons] at hy
          exact hy.imp_right (.imp_right mem_of_mem_avlremove)
        · rwa [toList_rebalance, toList_node, List.mem_append, List.mem_cons] at hy

/-- What an insertion compares with is in the tree. -/
theorem mem_of_mem_path {compare : α → α → Int} {node y : α} :
    ∀ {t : Tree α}, y ∈ path compare t node → y ∈ toList t
  | .nil, hy => by cases hy
  | .node h l x r, hy => by
    rw [path] at hy
    rw [toList_node]
    rcases List.mem_cons.mp hy with rfl | hy
    · exact List.mem_append_right _ List.mem_cons_self
    · split at hy
      · exact List.mem_append_left _ (mem_of_mem_path hy)
      · split at hy
        · exact List.mem_append_right _ (List.mem_cons_of_mem _ (mem_of_mem_path hy))
        · cases hy

/-- What a removal compares is the node and nodes of the tree. -/
theorem mem_of_mem_removeComparisons {compare : α → α → Int} {p : α × α} :
    ∀ {t : Tree α} {node : α}, p ∈ removeComparisons compare t node →
      (p.1 = node ∨ p.1 ∈ toList t) ∧ p.2 ∈ toList t
  | .nil, _, hp => by cases hp
  | .node h l x r, node, hp => by
    rw [removeComparisons] at hp
    rw [toList_node]
    rcases List.mem_cons.mp hp with rfl | hp
    · exact ⟨.inl rfl, List.mem_append_right _ List.mem_cons_self⟩
    split at hp
    · split at hp
      · split at hp
        · rename_i hboth _ th tl tmpnode tr hmin
          have hr : r ≠ .nil := by
            rintro rfl
            simp [isNull] at hboth
          obtain ⟨h₀, x₀, r₀, hmin', rest, hrest⟩ := avlgetmin_eq hr
          rw [hmin] at hmin'
          cases hmin'
          have htmp : tmpnode ∈ toList r := by
            rw [hrest]
            exact List.mem_cons_self
          obtain ⟨h₁, h₂⟩ := mem_of_mem_removeComparisons hp
          have hin : p.1 ∈ toList r := h₁.elim (fun heq => heq ▸ htmp) id
          exact ⟨.inr (List.mem_append_right _ (List.mem_cons_of_mem _ hin)),
            List.mem_append_right _ (List.mem_cons_of_mem _ h₂)⟩
        · cases hp
      · cases hp
    · split at hp
      · obtain ⟨h₁, h₂⟩ := mem_of_mem_removeComparisons hp
        exact ⟨h₁.imp_right (List.mem_append_left _), List.mem_append_left _ h₂⟩
      · obtain ⟨h₁, h₂⟩ := mem_of_mem_removeComparisons hp
        exact ⟨h₁.imp_right fun h => List.mem_append_right _ (List.mem_cons_of_mem _ h),
          List.mem_append_right _ (List.mem_cons_of_mem _ h₂)⟩

end Avl

end LibNax
