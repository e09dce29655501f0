import Mathlib.Data.List.Nodup
import Mathlib.Logic.Function.Basic

/-!
# Circular lists

Every node has a link to a next and to a previous node.  A circle is what one gets back to by the
next links, with each node the previous one of its next.  A memory holds several circles, apart from
each other, and every change of a few links has to be seen to keep all the others.

* `Path c a l b` — from `a` the links lead through the nodes `l` to `b`, and back.
* `Circle c a l` — they lead through `l` back to `a`, and no node comes twice.
* `Circle.rotate` — a circle can be entered anywhere.
* `Circle.insert`, `Circle.remove`, `Circle.splice`, `Circle.cut` — what the changes of two or four
  links do to a circle.
* `Holds c s` — every list of `s` is a circle from its head, and they are apart.
* `Holds.change` — the frame rule: what is not touched stays a circle.
-/

set_option autoImplicit false

namespace LibNax

namespace Lib

variable {α : Type}

/-- The links of every node. -/
@[ext]
structure Cells (α : Type) where
  next : α → α
  prev : α → α

/-- `b` comes after `a`, and `a` before `b`. -/
def Joined (c : Cells α) (a b : α) : Prop := c.next a = b ∧ c.prev b = a

/-! ## Paths -/

/-- From `a` the links lead through the nodes of the list to `b`, and back. -/
def Path (c : Cells α) : α → List α → α → Prop
  | a, [], b => Joined c a b
  | a, x :: l, b => Joined c a x ∧ Path c x l b

theorem path_append {c : Cells α} {l m : List α} {x b : α} : ∀ {a : α},
    Path c a (l ++ x :: m) b ↔ Path c a l x ∧ Path c x m b := by
  induction l with
  | nil => exact Iff.rfl
  | cons y l ih =>
    intro a
    simp only [List.cons_append, Path, ih, and_assoc]

theorem path_concat {c : Cells α} {l : List α} {a x b : α} :
    Path c a (l ++ [x]) b ↔ Path c a l x ∧ Joined c x b :=
  path_append

/-- The node after the first one. -/
theorem Path.next_eq {c : Cells α} {a b : α} {l : List α} (h : Path c a l b) :
    c.next a = l.headD b := by
  cases l with
  | nil => exact h.1
  | cons x l => exact h.1.1

/-- The node before the last one. -/
theorem Path.prev_eq {c : Cells α} {a b : α} {l : List α} (h : Path c a l b) :
    c.prev b = l.getLastD a := by
  rcases List.eq_nil_or_concat l with rfl | ⟨l, x, rfl⟩
  · exact h.2
  · rw [List.concat_eq_append] at h ⊢
    rw [List.getLastD_concat]
    exact (path_concat.mp h).2.2

/-- A path depends only on the links along it. -/
theorem Path.congr {c c' : Cells α} {l : List α} {b : α} : ∀ {a : α}, Path c a l b →
    (∀ y, y = a ∨ y ∈ l → c'.next y = c.next y) → (∀ y, y ∈ l ∨ y = b → c'.prev y = c.prev y) →
    Path c' a l b := by
  induction l with
  | nil =>
    intro a h hn hp
    exact ⟨(hn a (.inl rfl)).trans h.1, (hp b (.inr rfl)).trans h.2⟩
  | cons x l ih =>
    intro a h hn hp
    refine ⟨⟨(hn a (.inl rfl)).trans h.1.1, ?_⟩, ?_⟩
    · exact (hp x (.inl List.mem_cons_self)).trans h.1.2
    · refine ih h.2 (fun y hy => hn y (.inr ?_)) (fun y hy => hp y ?_)
      · rcases hy with rfl | hy
        · exact List.mem_cons_self
        · exact List.mem_cons_of_mem _ hy
      · exact hy.imp_left (List.mem_cons_of_mem _)

/-- The same path to another end. -/
theorem Path.turn {c c' : Cells α} {l : List α} {b b' : α} : ∀ {a : α}, Path c a l b →
    Joined c' (l.getLastD a) b' →
    (∀ y, y = a ∨ y ∈ l → y ≠ l.getLastD a → c'.next y = c.next y) →
    (∀ y ∈ l, c'.prev y = c.prev y) → (a :: l).Nodup → Path c' a l b' := by
  induction l with
  | nil => exact fun _ hj _ _ _ => hj
  | cons x l ih =>
    intro a h hj hn hp hnd
    rw [List.getLastD_cons] at hj hn
    obtain ⟨ha, hnd⟩ := List.nodup_cons.mp hnd
    have hne : a ≠ l.getLastD x := fun he => ha (he ▸ List.getLastD_mem_cons)
    refine ⟨⟨(hn a (.inl rfl) hne).trans h.1.1, (hp x List.mem_cons_self).trans h.1.2⟩, ?_⟩
    refine ih h.2 hj (fun y hy => hn y (.inr ?_)) (fun y hy => hp y (List.mem_cons_of_mem _ hy)) hnd
    rcases hy with rfl | hy
    · exact List.mem_cons_self
    · exact List.mem_cons_of_mem _ hy

/-- The links the other way round. -/
def Cells.flip (c : Cells α) : Cells α := ⟨c.prev, c.next⟩

theorem Path.flip {c : Cells α} {l : List α} {b : α} : ∀ {a : α}, Path c a l b →
    Path c.flip b l.reverse a := by
  induction l with
  | nil => exact fun h => ⟨h.2, h.1⟩
  | cons x l ih =>
    intro a h
    rw [List.reverse_cons]
    exact path_concat.mpr ⟨ih h.2, h.1.2, h.1.1⟩

/-! ## Circles -/

/-- From `a` the links lead through the list back to `a`, and no node comes twice. -/
structure Circle (c : Cells α) (a : α) (l : List α) : Prop where
  nodup : (a :: l).Nodup
  path : Path c a l a

/-- The nodes of a circle. -/
def On (a : α) (l : List α) (y : α) : Prop := y = a ∨ y ∈ l

@[simp]
theorem on_nil {a y : α} : On a [] y ↔ y = a := by simp [On]

@[simp]
theorem on_cons {a x y : α} {l : List α} : On a (x :: l) y ↔ y = a ∨ y = x ∨ y ∈ l := by simp [On]

/-- A circle depends only on the links of its nodes. -/
theorem Circle.congr {c c' : Cells α} {a : α} {l : List α} (h : Circle c a l)
    (hn : ∀ y, On a l y → c'.next y = c.next y) (hp : ∀ y, On a l y → c'.prev y = c.prev y) :
    Circle c' a l :=
  ⟨h.nodup, h.path.congr hn fun y hy => hp y hy.symm⟩

/-- A circle can be entered anywhere. -/
theorem Circle.rotate {c : Cells α} {a b : α} {l m : List α} (h : Circle c a (l ++ b :: m)) :
    Circle c b (m ++ a :: l) := by
  obtain ⟨hl, hm⟩ := path_append.mp h.path
  refine ⟨?_, path_append.mpr ⟨hm, hl⟩⟩
  have hnd : ((a :: l) ++ b :: m).Nodup := h.nodup
  exact (List.nodup_append_comm).mp hnd

/-- The same nodes, entered elsewhere. -/
theorem on_rotate {a b y : α} {l m : List α} : On b (m ++ a :: l) y ↔ On a (l ++ b :: m) y := by
  simp only [On, List.mem_append, List.mem_cons]
  tauto

theorem Circle.flip {c : Cells α} {a : α} {l : List α} (h : Circle c a l) :
    Circle c.flip a l.reverse := by
  obtain ⟨ha, hnd⟩ := List.nodup_cons.mp h.nodup
  exact ⟨List.nodup_cons.mpr ⟨mt List.mem_reverse.mp ha, List.nodup_reverse.mpr hnd⟩, h.path.flip⟩

theorem Circle.of_self {c : Cells α} {a : α} (h : c.next a = a) (h' : c.prev a = a) :
    Circle c a [] :=
  ⟨List.nodup_singleton a, h, h'⟩

/-- The node after one of the circle. -/
theorem Circle.next_mid {c : Cells α} {a x : α} {l m : List α} (h : Circle c a (l ++ x :: m)) :
    c.next x = m.headD a :=
  (path_append.mp h.path).2.next_eq

/-- The node before one of the circle. -/
theorem Circle.prev_mid {c : Cells α} {a x : α} {l m : List α} (h : Circle c a (l ++ x :: m)) :
    c.prev x = l.getLastD a :=
  (path_append.mp h.path).1.prev_eq

theorem on_headD {a : α} {l : List α} : On a l (l.headD a) := by cases l <;> simp

theorem on_getLastD {a : α} {l : List α} : On a l (l.getLastD a) :=
  List.mem_cons.mp List.getLastD_mem_cons

/-- The links of a node that is alone on its circle lead to itself. -/
theorem Circle.next_nil {c : Cells α} {a : α} {l : List α} (h : Circle c a l) :
    c.next a = a ↔ l = [] := by
  rw [h.path.next_eq]
  cases l with
  | nil => simp
  | cons x l =>
    have hne : a ≠ x := fun he => (List.nodup_cons.mp h.nodup).1 (he ▸ List.mem_cons_self)
    simpa using hne.symm

/-- Its next and its previous node are the same when there is at most one other. -/
theorem Circle.next_eq_prev {c : Cells α} {a : α} {l : List α} (h : Circle c a l) :
    c.next a = c.prev a ↔ l.length ≤ 1 := by
  rw [h.path.next_eq, h.path.prev_eq]
  match l, h with
  | [], _ => simp
  | [x], _ => simp
  | x :: y :: l, h =>
    have hmem : (y :: l).getLastD a ∈ y :: l := by
      rw [List.getLastD_cons]
      exact List.getLastD_mem_cons
    have hx : x ∉ y :: l := (List.nodup_cons.mp (List.nodup_cons.mp h.nodup).2).1
    have hne : x ≠ (y :: l).getLastD a := fun he => hx (he ▸ hmem)
    simpa using hne

/-! ## Changing a few links -/

section Change

variable {c c' : Cells α} {a b x : α} {l m : List α}

/-- A new node after the first one. -/
theorem Circle.insert (h : Circle c a l) (hx : ¬ On a l x) (hax : Joined c' a x)
    (hxl : Joined c' x (l.headD a)) (hn : ∀ y, y ≠ a → y ≠ x → c'.next y = c.next y)
    (hp : ∀ y, y ≠ x → y ≠ l.headD a → c'.prev y = c.prev y) : Circle c' a (x :: l) := by
  obtain ⟨hxa, hxm⟩ : x ≠ a ∧ x ∉ l := not_or.mp hx
  obtain ⟨ha, hnd⟩ := List.nodup_cons.mp h.nodup
  refine ⟨?_, hax, ?_⟩
  · refine List.nodup_cons.mpr ⟨?_, List.nodup_cons.mpr ⟨hxm, hnd⟩⟩
    simpa using ⟨hxa.symm, ha⟩
  · cases l with
    | nil => exact hxl
    | cons z l =>
      refine ⟨hxl, h.path.2.congr (fun y hy => hn y ?_ ?_) fun y hy => hp y ?_ ?_⟩
      all_goals grind

/-- Without the node after the first one. -/
theorem Circle.remove (h : Circle c a (x :: l)) (hal : Joined c' a (l.headD a))
    (hn : ∀ y, y ≠ a → y ≠ x → c'.next y = c.next y)
    (hp : ∀ y, y ≠ x → y ≠ l.headD a → c'.prev y = c.prev y) : Circle c' a l := by
  have hnd := h.nodup
  refine ⟨hnd.sublist ((List.sublist_cons_self x l).cons_cons a), ?_⟩
  cases l with
  | nil => exact hal
  | cons z l =>
    refine ⟨hal, h.path.2.2.congr (fun y hy => hn y ?_ ?_) fun y hy => hp y ?_ ?_⟩
    all_goals grind

/-- Another node in the place of the first one. -/
theorem Circle.replace (h : Circle c a l) (hx : ¬ On a l x) (hxl : Joined c' x (l.headD x))
    (hlx : Joined c' (l.getLastD x) x) (hn : ∀ y ∈ l, y ≠ l.getLastD x → c'.next y = c.next y)
    (hp : ∀ y ∈ l, y ≠ l.headD x → c'.prev y = c.prev y) : Circle c' x l := by
  have hnd := (List.nodup_cons.mp h.nodup).2
  refine ⟨List.nodup_cons.mpr ⟨fun hm => hx (.inr hm), hnd⟩, ?_⟩
  cases l with
  | nil => exact hxl
  | cons z l =>
    rw [List.getLastD_cons] at hlx hn
    refine ⟨hxl, h.path.2.turn hlx (fun y hy => hn y ?_) (fun y hy => hp y ?_ ?_) hnd⟩
    · rcases hy with rfl | hy
      · exact List.mem_cons_self
      · exact List.mem_cons_of_mem _ hy
    · exact List.mem_cons_of_mem _ hy
    · rintro rfl
      exact (List.nodup_cons.mp hnd).1 hy

/-- The nodes of another circle after the first one. -/
theorem Circle.splice (h : Circle c a l) (h' : Circle c b (x :: m))
    (hapart : ∀ y, On a l y → ¬ On b (x :: m) y) (hax : Joined c' a x)
    (hml : Joined c' (m.getLastD x) (l.headD a))
    (hn : ∀ y, y ≠ a → y ≠ m.getLastD x → y ≠ b → c'.next y = c.next y)
    (hp : ∀ y, y ≠ x → y ≠ l.headD a → y ≠ b → c'.prev y = c.prev y) :
    Circle c' a (x :: m ++ l) := by
  have hnd := h.nodup
  have hnd' := h'.nodup
  have hlast : m.getLastD x ∈ x :: m := List.getLastD_mem_cons
  have hhead : l.headD a = a ∨ l.headD a ∈ l := by cases l <;> simp
  refine ⟨?_, ?_⟩
  · have hab := hapart a (.inl rfl)
    have : (x :: m ++ l).Nodup := by
      refine List.Nodup.append (List.nodup_cons.mp hnd').2 (List.nodup_cons.mp hnd).2 ?_
      exact fun y hy hy' => hapart y (.inr hy') (.inr hy)
    refine List.nodup_cons.mpr ⟨fun hm => ?_, this⟩
    rcases List.mem_append.mp hm with hm | hm
    · exact hab (.inr hm)
    · exact (List.nodup_cons.mp hnd).1 hm
  · have hfirst : ∀ z, z = l.headD a → Path c' a (x :: m) z := by
      rintro z rfl
      refine ⟨hax, h'.path.2.turn hml (fun y hy hne => hn y ?_ hne ?_) (fun y hy => hp y ?_ ?_ ?_)
        (List.nodup_cons.mp hnd').2⟩
      · rintro rfl
        exact hapart y (.inl rfl) (.inr (by simpa using hy))
      · rintro rfl
        exact (List.nodup_cons.mp hnd').1 (by simpa using hy)
      · rintro rfl
        exact (List.nodup_cons.mp (List.nodup_cons.mp hnd').2).1 hy
      · intro he
        refine hapart y ?_ (.inr (List.mem_cons_of_mem _ hy))
        rcases hhead with hh | hh
        · exact .inl (he.trans hh)
        · exact .inr (he ▸ hh)
      · rintro rfl
        exact (List.nodup_cons.mp hnd').1 (List.mem_cons_of_mem _ hy)
    cases l with
    | nil => simpa using hfirst a rfl
    | cons z l =>
      refine path_append.mpr ⟨hfirst z rfl, h.path.2.congr (fun y hy => hn y ?_ ?_ ?_)
        fun y hy => hp y ?_ ?_ ?_⟩
      all_goals simp only [On, List.headD_cons] at *
      all_goals grind

/-- The first nodes of a circle as a circle of their own. -/
theorem Circle.cut (h : Circle c a (x :: m ++ l)) (hb : ¬ On a (x :: m ++ l) b)
    (hbx : Joined c' b x) (hmb : Joined c' (m.getLastD x) b) (hal : Joined c' a (l.headD a))
    (hn : ∀ y, y ≠ a → y ≠ m.getLastD x → y ≠ b → c'.next y = c.next y)
    (hp : ∀ y, y ≠ x → y ≠ l.headD a → y ≠ b → c'.prev y = c.prev y) :
    Circle c' a l ∧ Circle c' b (x :: m) := by
  have hnd := h.nodup
  have hlast : m.getLastD x ∈ x :: m := List.getLastD_mem_cons
  have hnda : (a :: l).Nodup := by
    refine hnd.sublist (List.Sublist.cons_cons a ?_)
    exact List.sublist_append_right _ _
  have hndx : (x :: m).Nodup := by
    refine (List.nodup_cons.mp hnd).2.sublist ?_
    exact List.sublist_append_left _ _
  have hnb : b ∉ x :: m := fun hm => hb (.inr (List.mem_append_left _ hm))
  refine ⟨⟨hnda, ?_⟩, List.nodup_cons.mpr ⟨hnb, hndx⟩, hbx, ?_⟩
  · cases l with
    | nil => exact hal
    | cons z l =>
      refine ⟨hal, (path_append.mp h.path).2.congr (fun y hy => hn y ?_ ?_ ?_)
        fun y hy => hp y ?_ ?_ ?_⟩
      all_goals simp only [On, List.headD_cons] at *
      all_goals grind
  · have hpath : Path c x m (l.headD a) := by
      cases l with
      | nil => simpa using h.path.2
      | cons z l => exact (path_append.mp h.path).1.2
    refine hpath.turn hmb (fun y hy hne => hn y ?_ hne ?_) (fun y hy => hp y ?_ ?_ ?_) hndx
    all_goals have hhead : l.headD a = a ∨ l.headD a ∈ l := by cases l <;> simp
    all_goals simp only [On] at *
    all_goals grind

/-- A new node at the end. -/
theorem Circle.insert_last (h : Circle c a l) (hx : ¬ On a l x)
    (hlx : Joined c' (l.getLastD a) x) (hxa : Joined c' x a)
    (hn : ∀ y, y ≠ l.getLastD a → y ≠ x → c'.next y = c.next y)
    (hp : ∀ y, y ≠ x → y ≠ a → c'.prev y = c.prev y) : Circle c' a (l ++ [x]) := by
  rcases List.eq_nil_or_concat l with rfl | ⟨l, p, rfl⟩
  · exact h.insert hx hlx hxa hn hp
  · simp only [List.concat_eq_append, List.getLastD_concat] at h hx hlx hn ⊢
    have hrot : Circle c' p (x :: [] ++ a :: l) :=
      h.rotate.insert (fun hm => hx (on_rotate.mp hm)) hlx hxa hn hp
    simpa using hrot.rotate (l := [x])

/-- Without a node anywhere. -/
theorem Circle.remove_mid (h : Circle c a (l ++ x :: m))
    (hlm : Joined c' (l.getLastD a) (m.headD a))
    (hn : ∀ y, y ≠ l.getLastD a → y ≠ x → c'.next y = c.next y)
    (hp : ∀ y, y ≠ x → y ≠ m.headD a → c'.prev y = c.prev y) : Circle c' a (l ++ m) := by
  rcases List.eq_nil_or_concat l with rfl | ⟨l, p, rfl⟩
  · exact h.remove hlm hn hp
  · simp only [List.concat_eq_append, List.getLastD_concat, List.append_assoc,
      List.singleton_append] at h hlm hn ⊢
    have hhead : (m ++ a :: l).headD p = m.headD a := by cases m <;> rfl
    rw [← hhead] at hlm hp
    exact (h.rotate.remove (l := m ++ a :: l) hlm hn hp).rotate

/-- The nodes of another circle at the end. -/
theorem Circle.splice_last (h : Circle c a l) (h' : Circle c b (x :: m))
    (hapart : ∀ y, On a l y → ¬ On b (x :: m) y) (hlx : Joined c' (l.getLastD a) x)
    (hma : Joined c' (m.getLastD x) a)
    (hn : ∀ y, y ≠ l.getLastD a → y ≠ m.getLastD x → y ≠ b → c'.next y = c.next y)
    (hp : ∀ y, y ≠ x → y ≠ a → y ≠ b → c'.prev y = c.prev y) :
    Circle c' a (l ++ x :: m) := by
  rcases List.eq_nil_or_concat l with rfl | ⟨l, p, rfl⟩
  · simpa using h.splice h' hapart hlx hma hn hp
  · simp only [List.concat_eq_append, List.getLastD_concat, List.append_assoc,
      List.singleton_append] at h hapart hlx hn ⊢
    have hrot := h.rotate.splice h' (fun y hy => hapart y (on_rotate.mp hy)) hlx hma hn hp
    exact Circle.rotate (l := x :: m) hrot

end Change

/-! ## Several circles in one memory -/

/-- The list from every head there is. -/
abbrev Heads (α : Type) := α → Option (List α)

/-- Every list is a circle from its head, and they are apart. -/
structure Holds (c : Cells α) (s : Heads α) : Prop where
  circle : ∀ {a l}, s a = some l → Circle c a l
  apart : ∀ {a b l m y}, s a = some l → s b = some m → On a l y → On b m y → a = b

/-- A node on no list. -/
def Unlinked (s : Heads α) (y : α) : Prop := ∀ a l, s a = some l → ¬ On a l y

section Heads

variable [DecidableEq α] {c c' : Cells α} {s : Heads α} {a b y : α} {l : List α}

/-- Without the list from a head. -/
def Heads.drop (s : Heads α) (a : α) : Heads α := Function.update s a none

/-- With a list from a head. -/
def Heads.set (s : Heads α) (a : α) (l : List α) : Heads α := Function.update s a (some l)

theorem Heads.drop_eq_some : s.drop a b = some l ↔ b ≠ a ∧ s b = some l := by
  by_cases h : b = a <;> simp [Heads.drop, h]

theorem Heads.set_eq_some {m : List α} :
    s.set a l b = some m ↔ (b = a ∧ l = m) ∨ (b ≠ a ∧ s b = some m) := by
  by_cases h : b = a <;> simp [Heads.set, h]

@[simp]
theorem Heads.set_same : s.set a l a = some l := by simp [Heads.set]

@[simp]
theorem Heads.drop_same : s.drop a a = none := by simp [Heads.drop]

theorem Heads.set_of_ne (h : b ≠ a) : s.set a l b = s b := by simp [Heads.set, h]

@[simp]
theorem Heads.drop_set : (s.drop a).set a l = s.set a l := by simp [Heads.set, Heads.drop]

@[simp]
theorem Heads.set_set {m : List α} : (s.set a l).set a m = s.set a m := by simp [Heads.set]

/-- A list that is there already. -/
theorem Heads.set_self (h : s a = some l) : s.set a l = s := by simp [Heads.set, ← h]

theorem Unlinked.drop (h : Unlinked s y) : Unlinked (s.drop a) y :=
  fun b l hb => h b l (Heads.drop_eq_some.mp hb).2

theorem Unlinked.set (h : Unlinked s y) (hy : ¬ On a l y) : Unlinked (s.set a l) y := by
  intro b m hb
  rcases Heads.set_eq_some.mp hb with ⟨rfl, rfl⟩ | ⟨-, hb⟩
  · exact hy
  · exact h b m hb

theorem Holds.drop (h : Holds c s) : Holds c (s.drop a) :=
  ⟨fun hb => h.circle (Heads.drop_eq_some.mp hb).2,
    fun hb hb' => h.apart (Heads.drop_eq_some.mp hb).2 (Heads.drop_eq_some.mp hb').2⟩

/-- The nodes of a list that is given up are on no list. -/
theorem Holds.unlinked_drop (h : Holds c s) (ha : s a = some l) (hy : On a l y) :
    Unlinked (s.drop a) y := by
  intro b m hb hm
  obtain ⟨hne, hb⟩ := Heads.drop_eq_some.mp hb
  exact hne (h.apart hb ha hm hy)

/-- **The frame rule**: a new list of unlinked nodes, made by changing links of unlinked nodes only,
leaves all the others as they are. -/
theorem Holds.set (h : Holds c s) (hl : Circle c' a l) (hfree : ∀ y, On a l y → Unlinked s y)
    (hn : ∀ y, ¬ Unlinked s y → c'.next y = c.next y)
    (hp : ∀ y, ¬ Unlinked s y → c'.prev y = c.prev y) : Holds c' (s.set a l) := by
  constructor
  · intro b m hb
    rcases Heads.set_eq_some.mp hb with ⟨rfl, rfl⟩ | ⟨-, hb⟩
    · exact hl
    · exact (h.circle hb).congr (fun y hy => hn y fun hu => hu b m hb hy)
        fun y hy => hp y fun hu => hu b m hb hy
  · intro b b' m m' y hb hb' hm hm'
    rcases Heads.set_eq_some.mp hb with ⟨rfl, rfl⟩ | ⟨-, hs⟩ <;>
      rcases Heads.set_eq_some.mp hb' with ⟨rfl, rfl⟩ | ⟨-, hs'⟩
    · rfl
    · exact absurd hm' (hfree y hm b' m' hs')
    · exact absurd hm (hfree y hm' b m hs)
    · exact h.apart hs hs' hm hm'

omit [DecidableEq α] in
/-- Links of unlinked nodes do not matter. -/
theorem Holds.congr (h : Holds c s) (hn : ∀ y, ¬ Unlinked s y → c'.next y = c.next y)
    (hp : ∀ y, ¬ Unlinked s y → c'.prev y = c.prev y) : Holds c' s := by
  refine ⟨fun {a l} ha => ?_, h.apart⟩
  exact (h.circle ha).congr (fun y hy => hn y fun hu => hu a l ha hy)
    fun y hy => hp y fun hu => hu a l ha hy

end Heads

end Lib

end LibNax
