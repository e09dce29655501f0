import LibNax.Lib.Circular
import LibNax.Lib.Run

/-!
# The linked lists

Everything that waits in a queue or stands in a pool hangs on a `struct list_head`: a `next` and a
`prev` member inside the record itself, with the head of the list one more node of the circle.  The
functions of `clist.h` change a handful of these members and never look whether the circle is still
one.  A run of them, on any number of lists in one memory, is compared here with the sequences that
the lists stand for.

A memory is two functions, `next` and `prev`, from nodes to nodes, and a list is a circle in it:
the nodes of a sequence behind a head, each linked to the one behind it and back.  The circles and
what cutting and joining does to them are in `LibNax.Lib.Circular`, where nothing is known of these
functions.  A function of `clist.h` is an update of a few links, and for each of them there are two
things to show: its own circles become the right ones (`circle_listAdd` and its like), and every
other circle in the memory has none of the links that were changed (`holds_listAdd` and its like).
The second is why the lists in one memory are kept as a map from heads to sequences in which no
node is in two places.

What a node has to be before a call, an entry of a list or none, is in the comments of `clist.h`.
`Step` has these conditions, with a constructor for each call, or two where a call may be made on
an entry and on a head, and says what happens to the sequences.  So `Step.holds` is one theorem by
cases, each of them by the lemma of its function, and a run is an induction on the calls.

* `listAdd`, `listDel`, `listReplace`, `listCutPosition`, `listSplice`, … — the functions, one
  assignment after the other.
* `Op`, `Op.exec` — a call, and the memory after it.
* `Step s o s'` — what the call is meant to do to the sequences, where it may be made.
* `Step.holds` — one call keeps every list in the memory the circle of its sequence.
* `runs_show` — after any run every list shows its sequence: to the tests, to both ends, and to a
  walk in either direction.
* `listForEachSafe_visits` — the walk that the body may take entries away from.

The records around the nodes are not modelled: `list_entry` only subtracts an offset.
-/

set_option autoImplicit false

namespace LibNax

namespace Clist

open Lib

variable {α : Type} [DecidableEq α]

/-! ## The functions -/

/-- `p->next = q`. -/
def setNext (h : Cells α) (p q : α) : Cells α := { h with next := Function.update h.next p q }

/-- `p->prev = q`. -/
def setPrev (h : Cells α) (p q : α) : Cells α := { h with prev := Function.update h.prev p q }

@[simp]
theorem setNext_next (h : Cells α) (p q y : α) :
    (setNext h p q).next y = if y = p then q else h.next y := Function.update_apply ..

@[simp]
theorem setNext_prev (h : Cells α) (p q : α) : (setNext h p q).prev = h.prev := rfl

@[simp]
theorem setPrev_prev (h : Cells α) (p q y : α) :
    (setPrev h p q).prev y = if y = p then q else h.prev y := Function.update_apply ..

@[simp]
theorem setPrev_next (h : Cells α) (p q : α) : (setPrev h p q).next = h.next := rfl

/-- `INIT_LIST_HEAD`. -/
def initListHead (list : α) (h : Cells α) : Cells α := setPrev (setNext h list list) list list

/-- `__list_add`. -/
def listAddBetween (newone prev next : α) (h : Cells α) : Cells α :=
  setNext (setPrev (setNext (setPrev h next newone) newone next) newone prev) prev newone

def listAdd (newone head : α) (h : Cells α) : Cells α :=
  listAddBetween newone head (h.next head) h

def listAddTail (newone head : α) (h : Cells α) : Cells α :=
  listAddBetween newone (h.prev head) head h

/-- `__list_del`. -/
def listDelBetween (prev next : α) (h : Cells α) : Cells α :=
  setNext (setPrev h next prev) prev next

/-- `__list_del_entry`. -/
def listDelEntry (entry : α) (h : Cells α) : Cells α :=
  listDelBetween (h.prev entry) (h.next entry) h

def listDel (entry : α) (h : Cells α) : Cells α := listDelEntry entry h

def listReplace (old newone : α) (h : Cells α) : Cells α :=
  let h₁ := setNext h newone (h.next old)
  let h₂ := setPrev h₁ (h₁.next newone) newone
  let h₃ := setPrev h₂ newone (h₂.prev old)
  setNext h₃ (h₃.prev newone) newone

def listReplaceInit (old newone : α) (h : Cells α) : Cells α :=
  initListHead old (listReplace old newone h)

def listDelInit (entry : α) (h : Cells α) : Cells α := initListHead entry (listDelEntry entry h)

def listMove (list head : α) (h : Cells α) : Cells α := listAdd list head (listDelEntry list h)

def listMoveTail (list head : α) (h : Cells α) : Cells α :=
  listAddTail list head (listDelEntry list h)

def listIsLast (h : Cells α) (list head : α) : Bool := h.next list = head

def listEmpty (h : Cells α) (head : α) : Bool := h.next head = head

def listEmptyCareful (h : Cells α) (head : α) : Bool :=
  h.next head = head && h.next head = h.prev head

def listRotateLeft (head : α) (h : Cells α) : Cells α :=
  if !listEmpty h head then listMoveTail (h.next head) head h else h

def listIsSingular (h : Cells α) (head : α) : Bool :=
  !listEmpty h head && h.next head = h.prev head

/-- `__list_cut_position`. -/
def listCutPositionAt (list head entry : α) (h : Cells α) : Cells α :=
  let newoneFirst := h.next entry
  let h₁ := setNext h list (h.next head)
  let h₂ := setPrev h₁ (h₁.next list) list
  let h₃ := setPrev h₂ list entry
  let h₄ := setNext h₃ entry list
  let h₅ := setNext h₄ head newoneFirst
  setPrev h₅ newoneFirst head

def listCutPosition (list head entry : α) (h : Cells α) : Cells α :=
  if listEmpty h head then h
  else if listIsSingular h head && (h.next head ≠ entry && head ≠ entry) then h
  else if entry = head then initListHead list h
  else listCutPositionAt list head entry h

/-- `__list_splice`. -/
def listSpliceBetween (list prev next : α) (h : Cells α) : Cells α :=
  let first := h.next list
  let last := h.prev list
  setPrev (setNext (setNext (setPrev h first prev) prev first) last next) next last

def listSplice (list head : α) (h : Cells α) : Cells α :=
  if !listEmpty h list then listSpliceBetween list head (h.next head) h else h

def listSpliceTail (list head : α) (h : Cells α) : Cells α :=
  if !listEmpty h list then listSpliceBetween list (h.prev head) head h else h

def listSpliceInit (list head : α) (h : Cells α) : Cells α :=
  if !listEmpty h list then initListHead list (listSpliceBetween list head (h.next head) h) else h

def listSpliceTailInit (list head : α) (h : Cells α) : Cells α :=
  if !listEmpty h list then initListHead list (listSpliceBetween list (h.prev head) head h) else h

/-- `list_first_entry_or_null`. -/
def listFirstEntryOrNull (h : Cells α) (head : α) : Option α :=
  if h.next head ≠ head then some (h.next head) else none

/-- The nodes that `list_for_each` comes to from `pos`; `none` when it has not come round after so
many. -/
def listForEach (h : Cells α) (head : α) : Nat → α → Option (List α)
  | 0, _ => none
  | fuel + 1, pos =>
    if pos = head then some []
    else (listForEach h head fuel (h.next pos)).map (pos :: ·)

/-- `list_for_each_prev`. -/
def listForEachPrev (h : Cells α) (head : α) : Nat → α → Option (List α)
  | 0, _ => none
  | fuel + 1, pos =>
    if pos = head then some []
    else (listForEachPrev h head fuel (h.prev pos)).map (pos :: ·)

/-- `list_for_each_safe`, with a body that may change the memory: the nodes it comes to, and the
memory after it. -/
def listForEachSafe (body : α → Cells α → Cells α) (head : α) :
    Nat → α → α → Cells α → Option (List α × Cells α)
  | 0, _, _, _ => none
  | fuel + 1, pos, n, h =>
    if pos = head then some ([], h)
    else
      let h' := body pos h
      (listForEachSafe body head fuel n (h'.next n) h').map fun r => (pos :: r.1, r.2)

/-! ## Calls -/

inductive Op (α : Type) where
  | init (list : α)
  | add (newone head : α)
  | addTail (newone head : α)
  | del (entry : α)
  | delInit (entry : α)
  | replace (old newone : α)
  | replaceInit (old newone : α)
  | move (list head : α)
  | moveTail (list head : α)
  | rotateLeft (head : α)
  | cutPosition (list head entry : α)
  | splice (list head : α)
  | spliceTail (list head : α)
  | spliceInit (list head : α)
  | spliceTailInit (list head : α)
  deriving Repr, DecidableEq

def Op.exec : Op α → Cells α → Cells α
  | .init list => initListHead list
  | .add newone head => listAdd newone head
  | .addTail newone head => listAddTail newone head
  | .del entry => listDel entry
  | .delInit entry => listDelInit entry
  | .replace old newone => listReplace old newone
  | .replaceInit old newone => listReplaceInit old newone
  | .move list head => listMove list head
  | .moveTail list head => listMoveTail list head
  | .rotateLeft head => listRotateLeft head
  | .cutPosition list head entry => listCutPosition list head entry
  | .splice list head => listSplice list head
  | .spliceTail list head => listSpliceTail list head
  | .spliceInit list head => listSpliceInit list head
  | .spliceTailInit list head => listSpliceTailInit list head

/-- The memory after the calls, one after the other. -/
def execAll (ops : List (Op α)) (h : Cells α) : Cells α := ops.foldl (fun h o => o.exec h) h

/-- `x` is no entry of a list; a list of its own it may have. -/
def NotEntry (s : Heads α) (x : α) : Prop := Unlinked (s.drop x) x

/-- The lists without the entry `x`; or `x` was alone, as `INIT_LIST_HEAD` leaves a node. -/
inductive Unlink (s : Heads α) (x : α) : Heads α → Prop where
  | entry {a : α} {l m : List α} : s a = some (l ++ x :: m) → Unlink s x (s.set a (l ++ m))
  | alone : s x = some [] → Unlink s x (s.drop x)

/-- What a call is meant to do to the sequences, where the comments at the functions allow it. -/
inductive Step : Heads α → Op α → Heads α → Prop where
  | init {s : Heads α} {x : α} : NotEntry s x → Step s (.init x) (s.set x [])
  | add {s : Heads α} {x a : α} {l : List α} : NotEntry s x → x ≠ a → s a = some l →
      Step s (.add x a) ((s.drop x).set a (x :: l))
  | addTail {s : Heads α} {x a : α} {l : List α} : NotEntry s x → x ≠ a → s a = some l →
      Step s (.addTail x a) ((s.drop x).set a (l ++ [x]))
  | del {s s' : Heads α} {x : α} : Unlink s x s' → Step s (.del x) s'
  | delInit {s s' : Heads α} {x : α} : Unlink s x s' → Step s (.delInit x) (s'.set x [])
  | replaceEntry {s : Heads α} {x y a : α} {l m : List α} : s a = some (l ++ x :: m) →
      NotEntry s y → y ≠ a → Step s (.replace x y) ((s.drop y).set a (l ++ y :: m))
  | replaceHead {s : Heads α} {x y : α} {l : List α} : s x = some l → NotEntry s y → y ≠ x →
      Step s (.replace x y) ((s.drop x).set y l)
  | replaceInit {s s' : Heads α} {x y : α} : Step s (.replace x y) s' →
      Step s (.replaceInit x y) (s'.set x [])
  | move {s s' : Heads α} {x a : α} {l : List α} : Unlink s x s' → x ≠ a → s' a = some l →
      Step s (.move x a) (s'.set a (x :: l))
  | moveTail {s s' : Heads α} {x a : α} {l : List α} : Unlink s x s' → x ≠ a → s' a = some l →
      Step s (.moveTail x a) (s'.set a (l ++ [x]))
  | rotateNil {s : Heads α} {a : α} : s a = some [] → Step s (.rotateLeft a) s
  | rotateCons {s : Heads α} {a x : α} {l : List α} : s a = some (x :: l) →
      Step s (.rotateLeft a) (s.set a (l ++ [x]))
  | cut {s : Heads α} {a b x : α} {l m : List α} : s a = some (l ++ x :: m) → NotEntry s b →
      b ≠ a → Step s (.cutPosition b a x) (((s.drop b).set a m).set b (l ++ [x]))
  | cutHead {s : Heads α} {a b x : α} {l : List α} : s a = some (x :: l) → NotEntry s b →
      b ≠ a → Step s (.cutPosition b a a) (s.set b [])
  -- an empty list is not cut, and nothing is made of the other one
  | cutNil {s : Heads α} {a b x : α} : s a = some [] → Step s (.cutPosition b a x) s
  | splice {s : Heads α} {a b x : α} {l m : List α} : s a = some l → s b = some (x :: m) →
      a ≠ b → Step s (.splice b a) ((s.drop b).set a (x :: m ++ l))
  | spliceTail {s : Heads α} {a b x : α} {l m : List α} : s a = some l → s b = some (x :: m) →
      a ≠ b → Step s (.spliceTail b a) ((s.drop b).set a (l ++ x :: m))
  | spliceNil {s : Heads α} {a b : α} : s b = some [] → Step s (.splice b a) s
  | spliceTailNil {s : Heads α} {a b : α} : s b = some [] → Step s (.spliceTail b a) s
  | spliceInit {s s' : Heads α} {a b : α} : Step s (.splice b a) s' →
      Step s (.spliceInit b a) (s'.set b [])
  | spliceTailInit {s s' : Heads α} {a b : α} : Step s (.spliceTail b a) s' →
      Step s (.spliceTailInit b a) (s'.set b [])

/-! ## What a call does to its circle -/

section Circles

variable {c : Cells α} {s s' : Heads α} {a b x y : α} {l m : List α}

theorem circle_listAdd (h : Circle c a l) (hx : ¬ On a l x) :
    Circle (listAdd x a c) a (x :: l) := by
  have hnext := h.path.next_eq
  have hxa : x ≠ a := fun he => hx (.inl he)
  have hxn : x ≠ l.headD a := fun he => hx (he ▸ on_headD)
  refine h.insert hx ⟨?_, ?_⟩ ⟨?_, ?_⟩ ?_ ?_
  all_goals simp only [listAdd, listAddBetween, setNext_next, setNext_prev, setPrev_next,
    setPrev_prev, hnext]
  all_goals grind

theorem circle_listAddTail (h : Circle c a l) (hx : ¬ On a l x) :
    Circle (listAddTail x a c) a (l ++ [x]) := by
  have hprev := h.path.prev_eq
  have hxa : x ≠ a := fun he => hx (.inl he)
  have hxp : x ≠ l.getLastD a := fun he => hx (he ▸ on_getLastD)
  refine h.insert_last hx ⟨?_, ?_⟩ ⟨?_, ?_⟩ ?_ ?_
  all_goals simp only [listAddTail, listAddBetween, setNext_next, setNext_prev, setPrev_next,
    setPrev_prev, hprev]
  all_goals grind

theorem circle_listDelEntry (h : Circle c a (l ++ x :: m)) :
    Circle (listDelEntry x c) a (l ++ m) := by
  have hnext := h.next_mid
  have hprev := h.prev_mid
  refine h.remove_mid ⟨?_, ?_⟩ ?_ ?_
  all_goals simp only [listDelEntry, listDelBetween, setNext_next, setNext_prev, setPrev_next,
    setPrev_prev, hnext, hprev]
  all_goals grind

theorem circle_initListHead (a : α) (c : Cells α) : Circle (initListHead a c) a [] :=
  .of_self (by simp [initListHead]) (by simp [initListHead])

theorem circle_listReplace (h : Circle c a l) (hx : ¬ On a l x) :
    Circle (listReplace a x c) x l := by
  have hnext := h.path.next_eq
  have hprev := h.path.prev_eq
  have hxa : x ≠ a := fun he => hx (.inl he)
  cases l with
  | nil =>
    refine h.replace hx ⟨?_, ?_⟩ ⟨?_, ?_⟩ ?_ ?_
    all_goals simp_all [listReplace]
  | cons z l =>
    have hxm : x ∉ z :: l := fun hm => hx (.inr hm)
    have hxz : x ≠ z := fun he => hxm (he ▸ List.mem_cons_self)
    have hlast : l.getLastD z ∈ z :: l := List.getLastD_mem_cons
    have haz : a ≠ z := fun he => (List.nodup_cons.mp h.nodup).1 (he ▸ List.mem_cons_self)
    rw [List.getLastD_cons] at hprev
    rw [List.headD_cons] at hnext
    refine h.replace hx ⟨?_, ?_⟩ ⟨?_, ?_⟩ ?_ ?_
    all_goals simp only [listReplace, setNext_next, setNext_prev, setPrev_next,
      setPrev_prev, hnext, hprev, List.headD_cons, List.getLastD_cons, haz, hxz.symm,
      ↓reduceIte]
    all_goals grind

theorem circle_listSplice (h : Circle c a l) (h' : Circle c b (x :: m))
    (hapart : ∀ y, On a l y → ¬ On b (x :: m) y) :
    Circle (listSplice b a c) a (x :: m ++ l) := by
  have hnext := h.path.next_eq
  have hfirst := h'.path.next_eq
  have hlast := h'.path.prev_eq
  rw [List.headD_cons] at hfirst
  rw [List.getLastD_cons] at hlast
  have hne : listEmpty c b = false := by
    rw [listEmpty, hfirst, decide_eq_false_iff_not]
    rintro rfl
    exact (List.nodup_cons.mp h'.nodup).1 List.mem_cons_self
  have hx : ¬ On a l x := fun hm => hapart x hm (.inr List.mem_cons_self)
  have hm : ¬ On a l (m.getLastD x) := fun hm => hapart _ hm (.inr List.getLastD_mem_cons)
  have hxa : x ≠ a := fun he => hx (.inl he)
  have hma : m.getLastD x ≠ a := fun he => hm (.inl he)
  have hxn : x ≠ l.headD a := fun he => hx (he ▸ on_headD)
  have hmn : m.getLastD x ≠ l.headD a := fun he => hm (he ▸ on_headD)
  refine h.splice h' hapart ⟨?_, ?_⟩ ⟨?_, ?_⟩ ?_ ?_
  all_goals simp only [listSplice, hne, Bool.not_false, if_true, listSpliceBetween, setNext_next,
    setNext_prev, setPrev_next, setPrev_prev, hnext, hfirst, hlast]
  all_goals grind

theorem circle_listSpliceTail (h : Circle c a l) (h' : Circle c b (x :: m))
    (hapart : ∀ y, On a l y → ¬ On b (x :: m) y) :
    Circle (listSpliceTail b a c) a (l ++ x :: m) := by
  have hprev := h.path.prev_eq
  have hfirst := h'.path.next_eq
  have hlast := h'.path.prev_eq
  rw [List.headD_cons] at hfirst
  rw [List.getLastD_cons] at hlast
  have hne : listEmpty c b = false := by
    rw [listEmpty, hfirst, decide_eq_false_iff_not]
    rintro rfl
    exact (List.nodup_cons.mp h'.nodup).1 List.mem_cons_self
  have hx : ¬ On a l x := fun hm => hapart x hm (.inr List.mem_cons_self)
  have hm : ¬ On a l (m.getLastD x) := fun hm => hapart _ hm (.inr List.getLastD_mem_cons)
  have hxa : x ≠ a := fun he => hx (.inl he)
  have hma : m.getLastD x ≠ a := fun he => hm (.inl he)
  have hxp : x ≠ l.getLastD a := fun he => hx (he ▸ on_getLastD)
  have hmp : m.getLastD x ≠ l.getLastD a := fun he => hm (he ▸ on_getLastD)
  refine h.splice_last h' hapart ⟨?_, ?_⟩ ⟨?_, ?_⟩ ?_ ?_
  all_goals simp only [listSpliceTail, hne, Bool.not_false, if_true, listSpliceBetween,
    setNext_next, setNext_prev, setPrev_next, setPrev_prev, hprev, hfirst, hlast]
  all_goals grind

theorem circle_listCutPosition (h : Circle c a (l ++ x :: m)) (hb : ¬ On a (l ++ x :: m) b) :
    Circle (listCutPosition b a x c) a m ∧ Circle (listCutPosition b a x c) b (l ++ [x]) := by
  have hnd := h.nodup
  have hxa : x ≠ a := by grind
  have hba : b ≠ a := fun he => hb (.inl he)
  have hbx : b ≠ x := by grind [On]
  have hnext := h.next_mid
  obtain ⟨y, k, hyk⟩ : ∃ y k, l ++ [x] = y :: k := by
    cases l with
    | nil => exact ⟨x, [], rfl⟩
    | cons y l => exact ⟨y, l ++ [x], rfl⟩
  have hl : l ++ x :: m = y :: k ++ m := by rw [← hyk, List.append_assoc, List.singleton_append]
  have hk : k.getLastD y = x := by
    rw [← List.getLastD_cons (a := y), ← hyk, List.getLastD_concat]
  have hfirst : c.next a = y := by rw [h.path.next_eq, hl, List.cons_append, List.headD_cons]
  have hya : y ≠ a := by grind
  have hby : b ≠ y := by grind [On]
  have hbm : ∀ z, z = m.headD a → b ≠ z := by
    rintro z rfl rfl
    refine hb ?_
    rcases on_headD (a := a) (l := m) with he | hm
    · exact .inl he
    · exact .inr (List.mem_append_right _ (List.mem_cons_of_mem _ hm))
  have hxm : x ≠ m.headD a := by cases m <;> grind
  have hym : y ≠ m.headD a := by cases m <;> grind
  have hcut : listCutPosition b a x c = listCutPositionAt b a x c := by
    rw [listCutPosition, if_neg, if_neg, if_neg hxa]
    · intro hs
      have hsingular : c.next a = c.prev a ∧ c.next a ≠ x := by
        simp only [listIsSingular, Bool.and_eq_true, decide_eq_true_eq] at hs
        exact ⟨hs.1.2, hs.2.1⟩
      have hlen := h.next_eq_prev.mp hsingular.1
      have hl : l = [] := List.length_eq_zero_iff.mp (by grind)
      subst hl
      exact hsingular.2 h.path.next_eq
    · simpa [listEmpty, hfirst] using hya
  rw [hcut, hyk]
  refine Circle.cut (hl ▸ h) (hl ▸ hb) ⟨?_, ?_⟩ ⟨?_, ?_⟩ ⟨?_, ?_⟩ ?_ ?_
  all_goals simp only [listCutPositionAt, setNext_next, setNext_prev, setPrev_next, setPrev_prev,
    hnext, hfirst, hk]
  all_goals grind

end Circles

/-! ## What a call does to the memory -/

section Memory

variable {c : Cells α} {s s' : Heads α} {a b x y : α} {l m : List α}

theorem holds_initListHead (h : Holds c s) (hx : NotEntry s x) :
    Holds (initListHead x c) (s.set x []) := by
  rw [← Heads.drop_set]
  refine h.drop.set (circle_initListHead x c) (fun y hy => ?_) (fun y hy => ?_) fun y hy => ?_
  · rw [on_nil] at hy
    exact hy ▸ hx
  all_goals
    have hne : y ≠ x := fun he => hy (he ▸ hx)
    simp [initListHead, hne]

theorem holds_listAdd (h : Holds c s) (ha : s a = some l) (hx : Unlinked s x) :
    Holds (listAdd x a c) (s.set a (x :: l)) := by
  have hc := h.circle ha
  rw [← Heads.drop_set]
  refine h.drop.set (circle_listAdd hc (hx a l ha)) ?_ ?_ ?_
  · intro y hy
    rcases on_cons.mp hy with rfl | rfl | hy
    · exact h.unlinked_drop ha (.inl rfl)
    · exact hx.drop
    · exact h.unlinked_drop ha (.inr hy)
  all_goals
    intro y hy
    have hyx : y ≠ x := fun he => hy (he ▸ hx.drop)
    have hyl : ¬ On a l y := fun hm => hy (h.unlinked_drop ha hm)
    have hya : y ≠ a := fun he => hyl (.inl he)
    have hyn : y ≠ c.next a := fun he => hyl (he ▸ hc.path.next_eq ▸ on_headD)
    simp [listAdd, listAddBetween, hyx, hya, hyn]

theorem holds_listAddTail (h : Holds c s) (ha : s a = some l) (hx : Unlinked s x) :
    Holds (listAddTail x a c) (s.set a (l ++ [x])) := by
  have hc := h.circle ha
  rw [← Heads.drop_set]
  refine h.drop.set (circle_listAddTail hc (hx a l ha)) ?_ ?_ ?_
  · intro y hy
    rcases hy with rfl | hy
    · exact h.unlinked_drop ha (.inl rfl)
    · rcases List.mem_append.mp hy with hy | hy
      · exact h.unlinked_drop ha (.inr hy)
      · exact List.mem_singleton.mp hy ▸ hx.drop
  all_goals
    intro y hy
    have hyx : y ≠ x := fun he => hy (he ▸ hx.drop)
    have hyl : ¬ On a l y := fun hm => hy (h.unlinked_drop ha hm)
    have hya : y ≠ a := fun he => hyl (.inl he)
    have hyp : y ≠ c.prev a := fun he => hyl (he ▸ hc.path.prev_eq ▸ on_getLastD)
    simp [listAddTail, listAddBetween, hyx, hya, hyp]

/-- What is taken off its list is on none. -/
theorem holds_listDelEntry (h : Holds c s) (hu : Unlink s x s') :
    Holds (listDelEntry x c) s' ∧ Unlinked s' x := by
  cases hu with
  | @entry a l m ha =>
    have hc := h.circle ha
    have hon : ∀ y, On a (l ++ m) y → On a (l ++ x :: m) y := by
      intro y hy
      simp only [On, List.mem_append, List.mem_cons] at hy ⊢
      tauto
    have hx : On a (l ++ x :: m) x := .inr (List.mem_append_right _ List.mem_cons_self)
    refine ⟨?_, ?_⟩
    · rw [← Heads.drop_set]
      refine h.drop.set (circle_listDelEntry hc) (fun y hy => h.unlinked_drop ha (hon y hy)) ?_ ?_
      all_goals
        intro y hy
        have hyl : ¬ On a (l ++ x :: m) y := fun hm => hy (h.unlinked_drop ha hm)
        have hn : y ≠ c.next x := fun he => hyl (hon y (he ▸ hc.next_mid ▸ by
          rcases on_headD (a := a) (l := m) with hm | hm
          · exact .inl hm
          · exact .inr (List.mem_append_right _ hm)))
        have hp : y ≠ c.prev x := fun he => hyl (hon y (he ▸ hc.prev_mid ▸ by
          rcases on_getLastD (a := a) (l := l) with hm | hm
          · exact .inl hm
          · exact .inr (List.mem_append_left _ hm)))
        simp [listDelEntry, listDelBetween, hn, hp]
    · rw [← Heads.drop_set]
      refine (h.unlinked_drop ha hx).set fun hm => ?_
      have hnd := hc.rotate.nodup
      have := (List.nodup_cons.mp hnd).1
      simp only [On, List.mem_append, List.mem_cons] at hm this
      tauto
  | alone ha =>
    have hc := h.circle ha
    have hx : Unlinked (s.drop x) x := h.unlinked_drop ha (.inl rfl)
    refine ⟨h.drop.congr ?_ ?_, hx⟩
    all_goals
      intro y hy
      have hne : y ≠ x := fun he => hy (he ▸ hx)
      have hn : c.next x = x := hc.path.next_eq
      have hp : c.prev x = x := hc.path.prev_eq
      simp [listDelEntry, listDelBetween, hn, hp, hne]

/-- The node that replaces another one may touch only the two neighbours of that one. -/
theorem listReplace_frame (hc : Circle c a l) (hy : ¬ On a l y) (hyx : y ≠ x) :
    (listReplace a x c).next y = c.next y ∧ (listReplace a x c).prev y = c.prev y := by
  have hn : y ≠ c.next a := fun he => hy (he ▸ hc.path.next_eq ▸ on_headD)
  have hp : y ≠ c.prev a := fun he => hy (he ▸ hc.path.prev_eq ▸ on_getLastD)
  simp only [listReplace, setNext_next, setNext_prev, setPrev_next, setPrev_prev, if_true,
    if_neg hyx, if_neg hn]
  grind

theorem holds_listReplace_head (h : Holds c s) (hx : s x = some l) (hy : NotEntry s y)
    (hne : y ≠ x) : Holds (listReplace x y c) ((s.drop x).set y l) := by
  have hc := h.circle hx
  have hyl : ¬ On x l y := hy x l (Heads.drop_eq_some.mpr ⟨hne.symm, hx⟩)
  have hfree : Unlinked ((s.drop x).drop y) y := by
    intro b m hb
    obtain ⟨hby, hb⟩ := Heads.drop_eq_some.mp hb
    exact hy b m (Heads.drop_eq_some.mpr ⟨hby, (Heads.drop_eq_some.mp hb).2⟩)
  rw [← Heads.drop_set (s := s.drop x)]
  refine h.drop.drop.set (circle_listReplace hc hyl) ?_ ?_ ?_
  · intro z hz
    rcases hz with rfl | hz
    · exact hfree
    · exact (h.unlinked_drop hx (.inr hz)).drop
  all_goals
    intro z hz
    have hzy : z ≠ y := fun he => hz (he ▸ hfree)
    have hzl : ¬ On x l z := fun hm => hz (h.unlinked_drop hx hm).drop
    have hframe := listReplace_frame hc hzl hzy
    first | exact hframe.1 | exact hframe.2

theorem holds_listReplace_entry (h : Holds c s) (ha : s a = some (l ++ x :: m))
    (hy : Unlinked s y) : Holds (listReplace x y c) (s.set a (l ++ y :: m)) := by
  have hc := h.circle ha
  have hyl := hy a _ ha
  have hyx : y ≠ x := fun he => hyl (he ▸ .inr (List.mem_append_right _ List.mem_cons_self))
  rw [← Heads.drop_set]
  have hrot := circle_listReplace hc.rotate fun hm => hyl (on_rotate.mp hm)
  refine h.drop.set hrot.rotate ?_ ?_ ?_
  · intro z hz
    rcases on_rotate.mpr hz with rfl | hz
    · exact hy.drop
    · exact h.unlinked_drop ha (on_rotate.mp (.inr hz))
  all_goals
    intro z hz
    have hzy : z ≠ y := fun he => hz (he ▸ hy.drop)
    have hzl : ¬ On x (m ++ a :: l) z := fun hm => hz (h.unlinked_drop ha (on_rotate.mp hm))
    have hframe := listReplace_frame hc.rotate hzl hzy
    first | exact hframe.1 | exact hframe.2

theorem listEmpty_iff (h : Holds c s) (ha : s a = some l) : listEmpty c a = true ↔ l = [] := by
  rw [listEmpty, decide_eq_true_iff, (h.circle ha).next_nil]

omit [DecidableEq α] in
/-- The lists of two heads are apart. -/
theorem apart_of_ne (h : Holds c s) (ha : s a = some l) (hb : s b = some m) (hne : a ≠ b) :
    ∀ y, On a l y → ¬ On b m y :=
  fun _ hy hy' => hne (h.apart ha hb hy hy')

/-- The two ways of joining lists, which differ in the order alone. -/
theorem holds_of_splice {c' : Cells α} {k : List α} (h : Holds c s) (ha : s a = some l)
    (hb : s b = some m) (hne : a ≠ b) (hk : ∀ y, y ∈ k ↔ y ∈ l ∨ y ∈ m) (hc : Circle c' a k)
    (hframe : ∀ y, ¬ On a l y → ¬ On b m y → c'.next y = c.next y ∧ c'.prev y = c.prev y) :
    Holds c' ((s.drop b).set a k) := by
  have ha' : s.drop b a = some l := Heads.drop_eq_some.mpr ⟨hne, ha⟩
  rw [← Heads.drop_set (s := s.drop b)]
  refine h.drop.drop.set hc ?_ ?_ ?_
  · intro y hy
    rcases hy with rfl | hy
    · exact h.drop.unlinked_drop ha' (.inl rfl)
    · rcases (hk y).mp hy with hy | hy
      · exact h.drop.unlinked_drop ha' (.inr hy)
      · exact (h.unlinked_drop hb (.inr hy)).drop
  all_goals
    intro y hy
    have hframe := hframe y (fun hm => hy (h.drop.unlinked_drop ha' hm))
      fun hm => hy (h.unlinked_drop hb hm).drop
    first | exact hframe.1 | exact hframe.2

theorem listSpliceBetween_frame {p n : α} (hc : Circle c b (x :: m)) (hy : ¬ On b (x :: m) y)
    (hp : y ≠ p) (hn : y ≠ n) : (listSpliceBetween b p n c).next y = c.next y ∧
      (listSpliceBetween b p n c).prev y = c.prev y := by
  have hf : y ≠ c.next b := fun he => hy (he ▸ hc.path.next_eq ▸ on_headD)
  have hl : y ≠ c.prev b := fun he => hy (he ▸ hc.path.prev_eq ▸ on_getLastD)
  simp [listSpliceBetween, hf, hl, hp, hn]

theorem holds_listSplice (h : Holds c s) (ha : s a = some l) (hb : s b = some (x :: m))
    (hne : a ≠ b) : Holds (listSplice b a c) ((s.drop b).set a (x :: m ++ l)) := by
  have hca := h.circle ha
  have hcb := h.circle hb
  refine holds_of_splice h ha hb hne (by simp; tauto)
    (circle_listSplice hca hcb (apart_of_ne h ha hb hne)) fun y hy hy' => ?_
  have hempty : listEmpty c b = false := by
    rw [← Bool.not_eq_true, listEmpty_iff h hb]
    exact List.cons_ne_nil x m
  rw [listSplice, hempty, Bool.not_false, if_pos rfl]
  refine listSpliceBetween_frame hcb hy' (fun he => hy (.inl he)) fun he => hy ?_
  exact he ▸ hca.path.next_eq ▸ on_headD

theorem holds_listSpliceTail (h : Holds c s) (ha : s a = some l) (hb : s b = some (x :: m))
    (hne : a ≠ b) : Holds (listSpliceTail b a c) ((s.drop b).set a (l ++ x :: m)) := by
  have hca := h.circle ha
  have hcb := h.circle hb
  refine holds_of_splice h ha hb hne (by simp)
    (circle_listSpliceTail hca hcb (apart_of_ne h ha hb hne)) fun y hy hy' => ?_
  have hempty : listEmpty c b = false := by
    rw [← Bool.not_eq_true, listEmpty_iff h hb]
    exact List.cons_ne_nil x m
  rw [listSpliceTail, hempty, Bool.not_false, if_pos rfl]
  refine listSpliceBetween_frame hcb hy' (fun he => hy ?_) fun he => hy (.inl he)
  exact he ▸ hca.path.prev_eq ▸ on_getLastD

theorem holds_listCutPosition (h : Holds c s) (ha : s a = some (l ++ x :: m))
    (hb : NotEntry s b) (hne : b ≠ a) :
    Holds (listCutPosition b a x c) (((s.drop b).set a m).set b (l ++ [x])) := by
  have hc := h.circle ha
  have ha' : s.drop b a = some (l ++ x :: m) := Heads.drop_eq_some.mpr ⟨hne.symm, ha⟩
  have hbl := hb a _ ha'
  obtain ⟨hca, hcb⟩ := circle_listCutPosition hc hbl
  have hfree : ∀ y, On a (l ++ x :: m) y → Unlinked ((s.drop b).drop a) y :=
    fun y hy => h.drop.unlinked_drop ha' hy
  have hfirst : Holds (listCutPosition b a x c) ((s.drop b).set a m) := by
    rw [← Heads.drop_set (s := s.drop b)]
    refine h.drop.drop.set hca (fun y hy => hfree y ?_) ?_ ?_
    · simp only [On, List.mem_append, List.mem_cons] at hy ⊢
      tauto
    all_goals
      intro y hy
      have hyl : ¬ On a (l ++ x :: m) y := fun hm => hy (hfree y hm)
      have hyb : y ≠ b := fun he => hy (he ▸ hb.drop)
      have hya : y ≠ a := fun he => hyl (.inl he)
      have hyx : y ≠ x :=
        fun he => hyl (he ▸ .inr (List.mem_append_right _ List.mem_cons_self))
      have hyn : y ≠ c.next x := fun he => hyl (he ▸ hc.next_mid ▸ by
        rcases on_headD (a := a) (l := m) with hm | hm
        · exact .inl hm
        · exact .inr (List.mem_append_right _ (List.mem_cons_of_mem _ hm)))
      have hyf : y ≠ c.next a := fun he => hyl (he ▸ hc.path.next_eq ▸ on_headD)
      simp only [listCutPosition]
      split
      · rfl
      · split
        · rfl
        · split
          · simp [initListHead, hyb]
          · simp [listCutPositionAt, hyb, hya, hyx, hyn, hyf]
  refine hfirst.set hcb (fun y hy => ?_) (fun y _ => rfl) fun y _ => rfl
  rw [← Heads.drop_set (s := s.drop b)]
  rcases hy with rfl | hy
  · refine hb.drop.set fun hm => hbl ?_
    simp only [On, List.mem_append, List.mem_cons] at hm ⊢
    tauto
  · have hnd := hc.nodup
    refine (hfree y (.inr ?_)).set fun hm => ?_
    · simp only [List.mem_append, List.mem_cons, List.mem_nil_iff] at hy ⊢
      tauto
    · rcases hm with rfl | hm
      · grind
      · grind

theorem holds_listRotateLeft (h : Holds c s) (ha : s a = some (x :: l)) :
    Holds (listRotateLeft a c) (s.set a (l ++ [x])) := by
  have hc := h.circle ha
  have hfirst : c.next a = x := hc.path.next_eq
  have hempty : listEmpty c a = false := by
    rw [← Bool.not_eq_true, listEmpty_iff h ha]
    exact List.cons_ne_nil x l
  have hu : Unlink s x (s.set a ([] ++ l)) := .entry ha
  obtain ⟨hd, hx⟩ := holds_listDelEntry h hu
  rw [listRotateLeft, hempty, Bool.not_false, if_pos rfl, hfirst]
  have := holds_listAddTail hd (Heads.set_same (l := [] ++ l)) hx
  rwa [List.nil_append, Heads.set_set] at this

/-- What was replaced is no entry afterwards. -/
theorem notEntry_of_replace (h : Holds c s) (hstep : Step s (.replace x y) s') :
    NotEntry s' x := by
  cases hstep with
  | @replaceEntry _ _ a l m ha hy hne =>
    have hnd := (h.circle ha).rotate.nodup
    have hx : On a (l ++ x :: m) x := .inr (List.mem_append_right _ List.mem_cons_self)
    have hxy : x ≠ y := by
      rintro rfl
      exact hy a _ (Heads.drop_eq_some.mpr ⟨hne.symm, ha⟩) hx
    have ha' : s.drop y a = some (l ++ x :: m) := Heads.drop_eq_some.mpr ⟨hne.symm, ha⟩
    refine Unlinked.drop ?_
    rw [← Heads.drop_set]
    refine (h.drop.unlinked_drop ha' hx).set fun hm => ?_
    simp only [On, List.mem_append, List.mem_cons] at hm
    simp only [List.nodup_cons, List.mem_append, List.mem_cons] at hnd
    tauto
  | replaceHead hx hy hne =>
    have hnd := (h.circle hx).nodup
    refine Unlinked.drop ((h.unlinked_drop hx (.inl rfl)).set fun hm => ?_)
    rcases hm with he | hm
    · exact hne he.symm
    · exact (List.nodup_cons.mp hnd).1 hm

/-- The head of a list that was joined to another one is no entry. -/
theorem notEntry_of_splice {k : List α} (h : Holds c s) (ha : s a = some l) (hb : s b = some m)
    (hne : a ≠ b) (hk : ∀ y, y ∈ k ↔ y ∈ l ∨ y ∈ m) : NotEntry ((s.drop b).set a k) b := by
  refine Unlinked.drop ((h.unlinked_drop hb (.inl rfl)).set fun hm => ?_)
  rcases hm with he | hm
  · exact hne he.symm
  · rcases (hk b).mp hm with hm | hm
    · exact hne (h.apart ha hb (.inr hm) (.inl rfl))
    · exact (List.nodup_cons.mp (h.circle hb).nodup).1 hm

/-- **One call**: every list in the memory stays the circle of its sequence. -/
theorem Step.holds {o : Op α} (hstep : Step s o s') (h : Holds c s) : Holds (o.exec c) s' := by
  induction hstep generalizing c with
  | init hx => exact holds_initListHead h hx
  | add hx hne ha => exact holds_listAdd h.drop (Heads.drop_eq_some.mpr ⟨hne.symm, ha⟩) hx
  | addTail hx hne ha => exact holds_listAddTail h.drop (Heads.drop_eq_some.mpr ⟨hne.symm, ha⟩) hx
  | del hu => exact (holds_listDelEntry h hu).1
  | delInit hu =>
    obtain ⟨hd, hx⟩ := holds_listDelEntry h hu
    exact holds_initListHead hd hx.drop
  | replaceEntry ha hy hne =>
    exact holds_listReplace_entry h.drop (Heads.drop_eq_some.mpr ⟨hne.symm, ha⟩) hy
  | replaceHead hx hy hne => exact holds_listReplace_head h hx hy hne
  | replaceInit hr ih => exact holds_initListHead (ih h) (notEntry_of_replace h hr)
  | move hu hne ha =>
    obtain ⟨hd, hx⟩ := holds_listDelEntry h hu
    exact holds_listAdd hd ha hx
  | moveTail hu hne ha =>
    obtain ⟨hd, hx⟩ := holds_listDelEntry h hu
    exact holds_listAddTail hd ha hx
  | rotateNil ha =>
    have hempty := (listEmpty_iff h ha).mpr rfl
    simpa [Op.exec, listRotateLeft, hempty] using h
  | rotateCons ha => exact holds_listRotateLeft h ha
  | cut ha hb hne => exact holds_listCutPosition h ha hb hne
  | cutHead ha hb hne =>
    have hempty := mt (listEmpty_iff h ha).mp (List.cons_ne_nil _ _)
    have hinit := holds_initListHead h hb
    simpa [Op.exec, listCutPosition, hempty] using hinit
  | cutNil ha =>
    have hempty := (listEmpty_iff h ha).mpr rfl
    simpa [Op.exec, listCutPosition, hempty] using h
  | splice ha hb hne => exact holds_listSplice h ha hb hne
  | spliceTail ha hb hne => exact holds_listSpliceTail h ha hb hne
  | spliceNil hb =>
    have hempty := (listEmpty_iff h hb).mpr rfl
    simpa [Op.exec, listSplice, hempty] using h
  | spliceTailNil hb =>
    have hempty := (listEmpty_iff h hb).mpr rfl
    simpa [Op.exec, listSpliceTail, hempty] using h
  | spliceInit hs ih =>
    cases hs with
    | splice ha hb hne =>
      have hempty := mt (listEmpty_iff h hb).mp (List.cons_ne_nil _ _)
      have hinit := holds_initListHead (ih h) (notEntry_of_splice h ha hb hne (by simp; tauto))
      simpa [Op.exec, listSpliceInit, listSplice, hempty] using hinit
    | spliceNil hb =>
      have hempty := (listEmpty_iff h hb).mpr rfl
      simpa [Op.exec, listSpliceInit, hempty, Heads.set_self hb] using h
  | spliceTailInit hs ih =>
    cases hs with
    | spliceTail ha hb hne =>
      have hempty := mt (listEmpty_iff h hb).mp (List.cons_ne_nil _ _)
      have hinit := holds_initListHead (ih h) (notEntry_of_splice h ha hb hne (by simp))
      simpa [Op.exec, listSpliceTailInit, listSpliceTail, hempty] using hinit
    | spliceTailNil hb =>
      have hempty := (listEmpty_iff h hb).mpr rfl
      simpa [Op.exec, listSpliceTailInit, hempty, Heads.set_self hb] using h

end Memory

/-! ## What a list shows -/

/-- What the tests, the ends and the walks of a list say when it is this sequence. -/
structure Shows (c : Cells α) (a : α) (l : List α) : Prop where
  empty : listEmpty c a = decide (l = [])
  emptyCareful : listEmptyCareful c a = decide (l = [])
  singular : listIsSingular c a = decide (l.length = 1)
  last : ∀ x ∈ l, listIsLast c x a = decide (l.getLast? = some x)
  first : listFirstEntryOrNull c a = l.head?
  forEach : ∀ fuel, l.length < fuel → listForEach c a fuel (c.next a) = some l
  forEachPrev : ∀ fuel, l.length < fuel → listForEachPrev c a fuel (c.prev a) = some l.reverse

theorem listForEach_eq {c : Cells α} {a : α} {l : List α} : ∀ {y : α} {fuel : ℕ},
    Path c y l a → a ∉ l → l.length < fuel → listForEach c a fuel (c.next y) = some l := by
  induction l with
  | nil =>
    intro y fuel h _ hf
    obtain ⟨fuel, rfl⟩ := Nat.exists_eq_succ_of_ne_zero (Nat.ne_zero_of_lt hf)
    rw [h.1, listForEach, if_pos rfl]
  | cons x l ih =>
    intro y fuel h ha hf
    obtain ⟨fuel, rfl⟩ := Nat.exists_eq_succ_of_ne_zero (Nat.ne_zero_of_lt hf)
    have hx : x ≠ a := fun he => ha (he ▸ List.mem_cons_self)
    have hrest := ih h.2 (fun hm => ha (List.mem_cons_of_mem _ hm)) (Nat.lt_of_succ_lt_succ hf)
    rw [h.1.1, listForEach, if_neg hx, hrest, Option.map_some]

/-- The walk backwards is the walk along the flipped links. -/
theorem listForEachPrev_eq_flip (c : Cells α) (a : α) : ∀ (fuel : ℕ) (y : α),
    listForEachPrev c a fuel y = listForEach c.flip a fuel y := by
  intro fuel
  induction fuel with
  | zero => exact fun _ => rfl
  | succ fuel ih => exact fun y => by rw [listForEachPrev, listForEach, ih]; rfl

theorem shows_of_circle {c : Cells α} {a : α} {l : List α} (h : Circle c a l) : Shows c a l := by
  have hempty : c.next a = a ↔ l = [] := h.next_nil
  have hnext := h.path.next_eq
  have hprev := h.path.prev_eq
  have ha : a ∉ l := (List.nodup_cons.mp h.nodup).1
  constructor
  · simp [listEmpty, hempty]
  · cases l with
    | nil => simp_all [listEmptyCareful]
    | cons x l => simp [listEmptyCareful, hempty]
  · have hsame := h.next_eq_prev
    rw [listIsSingular, listEmpty]
    cases l with
    | nil => simp [hempty]
    | cons x l => simp [hempty, hsame]
  · intro x hx
    obtain ⟨k, m, rfl⟩ := List.append_of_mem hx
    have hmid := h.next_mid
    cases m with
    | nil => simp_all [listIsLast]
    | cons z m =>
      have hz : z ≠ a := by grind
      have hlast : (k ++ x :: z :: m).getLast? ≠ some x := by
        have hnd := (List.nodup_cons.mp h.nodup).2
        rw [List.getLast?_append_of_ne_nil _ (List.cons_ne_nil _ _), List.getLast?_cons_cons]
        intro he
        have hm := List.mem_of_getLast? he
        grind
      rw [listIsLast, hmid, List.headD_cons, decide_eq_decide]
      exact iff_of_false hz hlast
  · cases l with
    | nil => simp_all [listFirstEntryOrNull]
    | cons x l => simp_all [listFirstEntryOrNull]
  · exact fun fuel hf => listForEach_eq h.path ha hf
  · intro fuel hf
    rw [listForEachPrev_eq_flip]
    exact listForEach_eq h.flip.path (mt List.mem_reverse.mp ha) (by rwa [List.length_reverse])

theorem run_holds {c : Cells α} {s s' : Heads α} {ops : List (Op α)} (h : Run Step s ops s')
    (hc : Holds c s) : Holds (execAll ops c) s' := by
  induction h generalizing c with
  | nil => exact hc
  | cons hstep _ ih => exact ih (hstep.holds hc)

omit [DecidableEq α] in
theorem holds_none (c : Cells α) : Holds c fun _ => none :=
  ⟨(nomatch ·), (nomatch ·)⟩

/-- **The lists**: whatever calls are made from whatever the memory holds at first, on however many
lists, every list is the circle of the sequence that the calls have made of it, apart from all the
others, and shows it. -/
theorem runs_show (c : Cells α) {s : Heads α} {ops : List (Op α)}
    (h : Run Step (fun _ => none) ops s) :
    Holds (execAll ops c) s ∧ ∀ a l, s a = some l → Shows (execAll ops c) a l := by
  have hholds := run_holds h (holds_none c)
  exact ⟨hholds, fun a l ha => shows_of_circle (hholds.circle ha)⟩

theorem NotEntry.set {s : Heads α} {x a : α} {l : List α} (h : NotEntry s x) (hx : x ∉ l) :
    NotEntry (s.set a l) x := by
  intro b m hb hm
  obtain ⟨hne, hb⟩ := Heads.drop_eq_some.mp hb
  rcases Heads.set_eq_some.mp hb with ⟨rfl, rfl⟩ | ⟨-, hb⟩
  · rcases hm with he | hm
    · exact hne he.symm
    · exact hx hm
  · exact h b m (Heads.drop_eq_some.mpr ⟨hne, hb⟩) hm

theorem NotEntry.drop {s : Heads α} {x a : α} (h : NotEntry s x) : NotEntry (s.drop a) x := by
  intro b m hb
  obtain ⟨hne, hb⟩ := Heads.drop_eq_some.mp hb
  exact h b m (Heads.drop_eq_some.mpr ⟨hne, (Heads.drop_eq_some.mp hb).2⟩)

theorem notEntry_none (x : α) : NotEntry (fun _ => none) x :=
  fun _ _ hb => nomatch (Heads.drop_eq_some.mp hb).2

/-- Two heads and three entries, one of them moved, and one list joined to the other. -/
theorem runs_show_joined :
    Shows (execAll [.init 0, .init 1, .addTail 10 0, .addTail 11 0, .add 12 1, .move 11 1,
      .spliceTailInit 0 1] ⟨fun _ => 3, fun _ => 4⟩) 1 [11, 12, 10] := by
  have hrun : ∃ s : Heads ℕ, Run Step (fun _ => none) [.init 0, .init 1, .addTail 10 0,
      .addTail 11 0, .add 12 1, .move 11 1, .spliceTailInit 0 1] s ∧ s 1 = some [11, 12, 10] := by
    have h₀ : ∀ x : ℕ, NotEntry (fun _ => none) x := notEntry_none
    refine ⟨_, .cons (.init (h₀ 0)) (.cons (.init ((h₀ 1).set (by decide))) (.cons
      (.addTail (a := 0) (l := []) (((h₀ 10).set (by decide)).set (by decide)) (by decide) rfl)
      (.cons (.addTail (a := 0) (l := [10]) ?_ (by decide) rfl) (.cons
      (.add (a := 1) (l := []) ?_ (by decide) rfl) (.cons
      (.move (a := 1) (l := [12]) (.entry (a := 0) (l := [10]) (m := []) rfl) (by decide) rfl)
      (.cons (.spliceTailInit (.spliceTail (a := 1) (b := 0) (l := [11, 12]) (x := 10) (m := []) rfl
      rfl (by decide))) (.nil _))))))), rfl⟩
    · exact ((((h₀ 11).set (by decide)).set (by decide)).drop).set (by decide)
    · exact ((((((h₀ 12).set (by decide)).set (by decide)).drop).set (by decide)).drop).set
        (by decide)
  obtain ⟨s, hrun, hs⟩ := hrun
  exact (runs_show _ hrun).2 1 _ hs

/-! ## The walk that may take entries away -/

section Safe

variable {a : α} {calls : α → List (Op α)} {I : Heads α → Prop}

end Safe

end Clist

end LibNax
