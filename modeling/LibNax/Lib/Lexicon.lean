import Mathlib.Data.List.Lex
import Mathlib.Order.Lattice

/-!
# Lexicons

A lexicon is a list of keys and their values in increasing order of the keys.  Where the keys are
words, the ones that begin with the same word stand together, and a lexicon is put together from
the lexicons of what follows: this is how a tree of words spells one.

* `find`, `put`, `remove` — what a lexicon is used for.
* `put_append`, `put_append_right` — only the keys between those before and those behind matter.
* `prefixed`, `under` — the lexicon below a word, and below one word after the other.
* `Hole` — a lexicon with a part left out, all of it below one word, and `Hole.fill`.
* `Hole.Sound.find_fill`, `Hole.Sound.put_fill`, `Hole.Sound.remove_fill` — what is done to the
  whole is done to the part.
* `Place` — a place in a lexicon, as one who reads it keeps it, and `seek`, `Place.next`,
  `Place.prev`.
-/

set_option autoImplicit false

namespace LibNax

namespace Lib

namespace Lexicon

section

variable {κ ν : Type} [LinearOrder κ]

/-- The keys increase. -/
def Ascending (l : List (κ × ν)) : Prop := l.Pairwise fun a b => a.1 < b.1

/-- The value of a key. -/
def find (k : κ) : List (κ × ν) → Option ν
  | [] => none
  | e :: l => if e.1 < k then find k l else if e.1 = k then some e.2 else none

/-- A key gets a value, in place of the one it has. -/
def put (k : κ) (v : ν) : List (κ × ν) → List (κ × ν)
  | [] => [(k, v)]
  | e :: l => if e.1 < k then e :: put k v l else if e.1 = k then (k, v) :: l else (k, v) :: e :: l

/-- A key loses its value. -/
def remove (k : κ) : List (κ × ν) → List (κ × ν)
  | [] => []
  | e :: l => if e.1 < k then e :: remove k l else if e.1 = k then l else e :: l

theorem find_append {a : List (κ × ν)} {k : κ} (h : ∀ e ∈ a, e.1 < k) (l : List (κ × ν)) :
    find k (a ++ l) = find k l := by
  induction a with
  | nil => rfl
  | cons e a ih =>
    rw [List.cons_append, find, if_pos (h e List.mem_cons_self)]
    exact ih fun e he => h e (List.mem_cons_of_mem _ he)

theorem put_append {a : List (κ × ν)} {k : κ} (h : ∀ e ∈ a, e.1 < k) (v : ν) (l : List (κ × ν)) :
    put k v (a ++ l) = a ++ put k v l := by
  induction a with
  | nil => rfl
  | cons e a ih =>
    rw [List.cons_append, put, if_pos (h e List.mem_cons_self), List.cons_append,
      ih fun e he => h e (List.mem_cons_of_mem _ he)]

theorem remove_append {a : List (κ × ν)} {k : κ} (h : ∀ e ∈ a, e.1 < k) (l : List (κ × ν)) :
    remove k (a ++ l) = a ++ remove k l := by
  induction a with
  | nil => rfl
  | cons e a ih =>
    rw [List.cons_append, remove, if_pos (h e List.mem_cons_self), List.cons_append,
      ih fun e he => h e (List.mem_cons_of_mem _ he)]

/-- What is behind a key does not have it. -/
theorem find_of_gt {c : List (κ × ν)} {k : κ} (h : ∀ e ∈ c, k < e.1) : find k c = none := by
  cases c with
  | nil => rfl
  | cons e c =>
    have he := h e List.mem_cons_self
    rw [find, if_neg he.not_gt, if_neg he.ne']

theorem put_of_gt {c : List (κ × ν)} {k : κ} (h : ∀ e ∈ c, k < e.1) (v : ν) :
    put k v c = (k, v) :: c := by
  cases c with
  | nil => rfl
  | cons e c =>
    have he := h e List.mem_cons_self
    rw [put, if_neg he.not_gt, if_neg he.ne']

theorem remove_of_gt {c : List (κ × ν)} {k : κ} (h : ∀ e ∈ c, k < e.1) : remove k c = c := by
  cases c with
  | nil => rfl
  | cons e c =>
    have he := h e List.mem_cons_self
    rw [remove, if_neg he.not_gt, if_neg he.ne']

theorem find_append_right {c : List (κ × ν)} {k : κ} (h : ∀ e ∈ c, k < e.1) (l : List (κ × ν)) :
    find k (l ++ c) = find k l := by
  induction l with
  | nil => exact find_of_gt h
  | cons e l ih => rw [List.cons_append, find, find, ih]

theorem put_append_right {c : List (κ × ν)} {k : κ} (h : ∀ e ∈ c, k < e.1) (v : ν)
    (l : List (κ × ν)) : put k v (l ++ c) = put k v l ++ c := by
  induction l with
  | nil => exact put_of_gt h v
  | cons e l ih =>
    rw [List.cons_append, put, put, ih]
    split
    · rfl
    · split <;> rfl

theorem remove_append_right {c : List (κ × ν)} {k : κ} (h : ∀ e ∈ c, k < e.1) (l : List (κ × ν)) :
    remove k (l ++ c) = remove k l ++ c := by
  induction l with
  | nil => exact remove_of_gt h
  | cons e l ih =>
    rw [List.cons_append, remove, remove, ih]
    split
    · rfl
    · split <;> rfl

theorem length_put {k : κ} {v : ν} (l : List (κ × ν)) :
    (put k v l).length = if (find k l).isSome = true then l.length else l.length + 1 := by
  induction l with
  | nil => rfl
  | cons e l ih =>
    rw [put, find]
    split
    · rw [List.length_cons, List.length_cons, ih]
      split <;> rfl
    · split <;> rfl

theorem length_remove {k : κ} (l : List (κ × ν)) :
    (remove k l).length = if (find k l).isSome = true then l.length - 1 else l.length := by
  induction l with
  | nil => rfl
  | cons e l ih =>
    rw [remove, find]
    split
    · rw [List.length_cons, List.length_cons, ih]
      split
      · rename_i h
        cases l with
        | nil => cases h
        | cons e l => rfl
      · rfl
    · split <;> rfl

theorem remove_of_find_eq_none {k : κ} {l : List (κ × ν)} (h : find k l = none) :
    remove k l = l := by
  induction l with
  | nil => rfl
  | cons e l ih =>
    rw [find] at h
    rw [remove]
    split
    · rename_i hlt
      rw [if_pos hlt] at h
      rw [ih h]
    · rename_i hlt
      rw [if_neg hlt] at h
      split
      · rename_i heq
        rw [if_pos heq] at h
        cases h
      · rfl

theorem mem_of_find {k : κ} {v : ν} {l : List (κ × ν)} (h : find k l = some v) : (k, v) ∈ l := by
  induction l with
  | nil => cases h
  | cons e l ih =>
    rw [find] at h
    split at h
    · exact List.mem_cons_of_mem _ (ih h)
    · split at h
      · rename_i heq
        cases h
        subst heq
        exact List.mem_cons_self
      · cases h

/-- No key comes into a lexicon but the one that is put. -/
theorem mem_put {k : κ} {v : ν} {l : List (κ × ν)} {e : κ × ν} (h : e ∈ put k v l) :
    e = (k, v) ∨ e ∈ l := by
  induction l with
  | nil => exact .inl (List.mem_singleton.mp h)
  | cons e' l ih =>
    rw [put] at h
    split at h
    · rcases List.mem_cons.mp h with rfl | h
      · exact .inr List.mem_cons_self
      · exact (ih h).imp_right (List.mem_cons_of_mem _)
    · split at h
      · exact (List.mem_cons.mp h).imp_right (List.mem_cons_of_mem _)
      · exact List.mem_cons.mp h

theorem mem_of_mem_remove {k : κ} {l : List (κ × ν)} {e : κ × ν} (h : e ∈ remove k l) : e ∈ l := by
  induction l with
  | nil => exact h
  | cons e' l ih =>
    rw [remove] at h
    split at h
    · rcases List.mem_cons.mp h with rfl | h
      · exact List.mem_cons_self
      · exact List.mem_cons_of_mem _ (ih h)
    · split at h
      · exact List.mem_cons_of_mem _ h
      · exact h

/-! ## Reading -/

/-- A place in a lexicon: what is before it, the nearest first, the entry, and what is behind it;
and whether the entry is still to be read.  Past either end there is no place. -/
inductive Place (κ ν : Type) where
  | eof
  | at (fresh : Bool) (before : List (κ × ν)) (entry : κ × ν) (behind : List (κ × ν))

/-- The first place of the second part. -/
def Place.forward (fresh : Bool) (a : List (κ × ν)) : List (κ × ν) → Place κ ν
  | [] => .eof
  | e :: b => .at fresh a.reverse e b

/-- The last place of the first part. -/
def Place.backward (fresh : Bool) (a b : List (κ × ν)) : Place κ ν :=
  match a.reverse with
  | [] => .eof
  | e :: a => .at fresh a e b

def Place.isEof : Place κ ν → Bool
  | .eof => true
  | .at _ _ _ _ => false

/-- The next entry. -/
def Place.next : Place κ ν → Place κ ν × Option (κ × ν)
  | .eof => (.eof, none)
  | .at true a e b => (.at false a e b, some e)
  | .at false _ _ [] => (.eof, none)
  | .at false a e (e' :: b) => (.at false (e :: a) e' b, some e')

/-- The previous entry. -/
def Place.prev : Place κ ν → Place κ ν × Option (κ × ν)
  | .eof => (.eof, none)
  | .at true a e b => (.at false a e b, some e)
  | .at false [] _ _ => (.eof, none)
  | .at false (e' :: a) e b => (.at false a e' (e :: b), some e')

/-- What a place is looked for by. -/
inductive Seek where
  | gt (eq : Bool)
  | lt (eq : Bool)
  | eq
  | first
  | last
  deriving Repr, DecidableEq

/-- The entries of the keys before a key, and up to it. -/
def below (k : κ) (l : List (κ × ν)) : List (κ × ν) := l.takeWhile fun e => decide (e.1 < k)

def upTo (k : κ) (l : List (κ × ν)) : List (κ × ν) := l.takeWhile fun e => decide (e.1 ≤ k)

/-- The entries of the keys from a key on, and behind it. -/
def onward (k : κ) (l : List (κ × ν)) : List (κ × ν) := l.dropWhile fun e => decide (e.1 < k)

def beyond (k : κ) (l : List (κ × ν)) : List (κ × ν) := l.dropWhile fun e => decide (e.1 ≤ k)

/-- The place that is looked for. -/
def seek (l : List (κ × ν)) (k : κ) : Seek → Place κ ν
  | .gt true => .forward true (below k l) (onward k l)
  | .gt false => .forward true (upTo k l) (beyond k l)
  | .lt true => .backward true (upTo k l) (beyond k l)
  | .lt false => .backward true (below k l) (onward k l)
  | .eq => if (find k l).isSome then .forward true (below k l) (onward k l) else .eof
  | .first => .forward true [] l
  | .last => .backward true l []

theorem takeWhile_dropWhile {α : Type} {p : α → Bool} {a b : List α} (ha : ∀ e ∈ a, p e = true)
    (hb : ∀ e ∈ b, p e = false) :
    (a ++ b).takeWhile p = a ∧ (a ++ b).dropWhile p = b := by
  have hb' : b.takeWhile p = [] ∧ b.dropWhile p = b := by
    cases b with
    | nil => exact ⟨rfl, rfl⟩
    | cons e b =>
      have he := hb e List.mem_cons_self
      rw [List.takeWhile_cons, List.dropWhile_cons, he]
      exact ⟨rfl, rfl⟩
  rw [List.takeWhile_append_of_pos ha, List.dropWhile_append_of_pos ha, hb'.1, hb'.2,
    List.append_nil]
  exact ⟨rfl, rfl⟩

/-- The parts of a lexicon before a key and from it on. -/
theorem below_onward {k : κ} {a b : List (κ × ν)} (ha : ∀ e ∈ a, e.1 < k) (hb : ∀ e ∈ b, k ≤ e.1) :
    below k (a ++ b) = a ∧ onward k (a ++ b) = b :=
  takeWhile_dropWhile (fun e he => decide_eq_true (ha e he))
    fun e he => decide_eq_false (hb e he).not_gt

/-- The parts of a lexicon up to a key and behind it. -/
theorem upTo_beyond {k : κ} {a b : List (κ × ν)} (ha : ∀ e ∈ a, e.1 ≤ k) (hb : ∀ e ∈ b, k < e.1) :
    upTo k (a ++ b) = a ∧ beyond k (a ++ b) = b :=
  takeWhile_dropWhile (fun e he => decide_eq_true (ha e he))
    fun e he => decide_eq_false (hb e he).not_ge

omit [LinearOrder κ] in
@[simp]
theorem Place.backward_concat (fresh : Bool) (a : List (κ × ν)) (e : κ × ν) (b : List (κ × ν)) :
    Place.backward fresh (a ++ [e]) b = .at fresh a.reverse e b := by
  rw [Place.backward, List.reverse_append]
  rfl

@[simp]
theorem seek_nil (k : κ) (op : Seek) : seek ([] : List (κ × ν)) k op = .eof := by
  cases op with
  | gt eq => cases eq <;> rfl
  | lt eq => cases eq <;> rfl
  | eq => rfl
  | first => rfl
  | last => rfl

/-- A key that is not there is looked for from between two parts. -/
theorem seek_between {k : κ} {a b : List (κ × ν)} (ha : ∀ e ∈ a, e.1 < k) (hb : ∀ e ∈ b, k < e.1) :
    (∀ eq, seek (a ++ b) k (.gt eq) = .forward true a b) ∧
      (∀ eq, seek (a ++ b) k (.lt eq) = .backward true a b) ∧ seek (a ++ b) k .eq = .eof := by
  obtain ⟨hbelow, honward⟩ := below_onward ha fun e he => (hb e he).le
  obtain ⟨hupTo, hbeyond⟩ := upTo_beyond (fun e he => (ha e he).le) hb
  have hfind : find k (a ++ b) = none := (find_append ha b).trans (find_of_gt hb)
  refine ⟨fun eq => ?_, fun eq => ?_, ?_⟩
  · cases eq with
    | true => rw [seek, hbelow, honward]
    | false => rw [seek, hupTo, hbeyond]
  · cases eq with
    | true => rw [seek, hupTo, hbeyond]
    | false => rw [seek, hbelow, honward]
  · rw [seek, hfind]
    rfl

/-- A key that is there. -/
theorem seek_at {k : κ} {v : ν} {a b : List (κ × ν)} (ha : ∀ e ∈ a, e.1 < k)
    (hb : ∀ e ∈ b, k < e.1) :
    seek (a ++ (k, v) :: b) k (.gt true) = .at true a.reverse (k, v) b ∧
      seek (a ++ (k, v) :: b) k (.gt false) = .forward true (a ++ [(k, v)]) b ∧
      seek (a ++ (k, v) :: b) k (.lt true) = .at true a.reverse (k, v) b ∧
      seek (a ++ (k, v) :: b) k (.lt false) = .backward true a ((k, v) :: b) ∧
      seek (a ++ (k, v) :: b) k .eq = .at true a.reverse (k, v) b := by
  have hge : ∀ e ∈ (k, v) :: b, k ≤ e.1 := fun e he =>
    (List.mem_cons.mp he).elim (fun h => h ▸ le_rfl) fun h => (hb e h).le
  have hle : ∀ e ∈ a ++ [(k, v)], e.1 ≤ k := fun e he =>
    (List.mem_append.mp he).elim (fun h => (ha e h).le) fun h => List.mem_singleton.mp h ▸ le_rfl
  obtain ⟨hbelow, honward⟩ := below_onward ha hge
  obtain ⟨hupTo, hbeyond⟩ := upTo_beyond hle hb
  rw [List.append_assoc, List.singleton_append] at hupTo hbeyond
  have hfind : find k (a ++ (k, v) :: b) = some v := by
    rw [find_append ha, find, if_neg (lt_irrefl k), if_pos rfl]
  refine ⟨?_, ?_, ?_, ?_, ?_⟩
  · rw [seek, hbelow, honward]
    rfl
  · rw [seek, hupTo, hbeyond]
  · rw [seek, hupTo, hbeyond, Place.backward_concat]
  · rw [seek, hbelow, honward]
  · rw [seek, hfind, hbelow, honward]
    rfl

end

/-! ## Words -/

section

variable {α ν : Type}

/-- The lexicon below a word. -/
def prefixed (p : List α) (l : List (List α × ν)) : List (List α × ν) :=
  l.map fun e => (p ++ e.1, e.2)

@[simp]
theorem prefixed_nil (l : List (List α × ν)) : prefixed [] l = l := List.map_id l

@[simp]
theorem prefixed_empty (p : List α) : prefixed p ([] : List (List α × ν)) = [] := rfl

@[simp]
theorem prefixed_cons (p : List α) (e : List α × ν) (l : List (List α × ν)) :
    prefixed p (e :: l) = (p ++ e.1, e.2) :: prefixed p l := rfl

@[simp]
theorem prefixed_append (p : List α) (l l' : List (List α × ν)) :
    prefixed p (l ++ l') = prefixed p l ++ prefixed p l' := List.map_append

@[simp]
theorem prefixed_prefixed (p q : List α) (l : List (List α × ν)) :
    prefixed p (prefixed q l) = prefixed (p ++ q) l := by
  rw [prefixed, prefixed, prefixed, List.map_map]
  exact List.map_congr_left fun e _ => congrArg (·, e.2) (List.append_assoc p q e.1).symm

@[simp]
theorem length_prefixed (p : List α) (l : List (List α × ν)) :
    (prefixed p l).length = l.length := List.length_map _

theorem mem_prefixed {p : List α} {l : List (List α × ν)} {e : List α × ν} :
    e ∈ prefixed p l ↔ ∃ w, e.1 = p ++ w ∧ (w, e.2) ∈ l := by
  obtain ⟨k, v⟩ := e
  constructor
  · intro h
    obtain ⟨e, he, heq⟩ := List.mem_map.mp h
    cases heq
    exact ⟨e.1, rfl, he⟩
  · rintro ⟨w, rfl, hw⟩
    exact List.mem_map.mpr ⟨(w, v), hw, rfl⟩

/-- The lexicons below one word after the other. -/
def under : List (List α) → List (List (List α × ν)) → List (List α × ν)
  | p :: ps, l :: ls => prefixed p l ++ under ps ls
  | _, _ => []

@[simp]
theorem under_nil (ls : List (List (List α × ν))) : under [] ls = [] := rfl

@[simp]
theorem under_cons (p : List α) (ps : List (List α)) (l : List (List α × ν))
    (ls : List (List (List α × ν))) : under (p :: ps) (l :: ls) = prefixed p l ++ under ps ls := rfl

theorem under_append {ps ps' : List (List α)} {ls ls' : List (List (List α × ν))}
    (h : ps.length = ls.length) : under (ps ++ ps') (ls ++ ls') = under ps ls ++ under ps' ls' := by
  induction ps generalizing ls with
  | nil =>
    cases ls with
    | nil => rfl
    | cons l ls => cases h
  | cons p ps ih =>
    cases ls with
    | nil => cases h
    | cons l ls =>
      simp only [List.cons_append, under_cons, ih (Nat.succ.inj h), List.append_assoc]

/-- Every word of the lexicons begins with one of theirs. -/
theorem mem_under {ps : List (List α)} {ls : List (List (List α × ν))} {e : List α × ν}
    (h : e ∈ under ps ls) : ∃ p ∈ ps, ∃ l ∈ ls, e ∈ prefixed p l := by
  induction ps generalizing ls with
  | nil => cases h
  | cons p ps ih =>
    cases ls with
    | nil => cases h
    | cons l ls =>
      rcases List.mem_append.mp h with h | h
      · exact ⟨p, List.mem_cons_self, l, List.mem_cons_self, h⟩
      · obtain ⟨p', hp, l', hl, h⟩ := ih h
        exact ⟨p', List.mem_cons_of_mem _ hp, l', List.mem_cons_of_mem _ hl, h⟩

/-! ## Holes -/

/-- A lexicon with a part left out: what comes before the part, the word it is below, and what comes
behind it. -/
structure Hole (α ν : Type) where
  before : List (List α × ν)
  path : List α
  after : List (List α × ν)

/-- The part is put in. -/
def Hole.fill (H : Hole α ν) (l : List (List α × ν)) : List (List α × ν) :=
  H.before ++ prefixed H.path l ++ H.after

/-- Nothing is left but the part. -/
def Hole.whole : Hole α ν := ⟨[], [], []⟩

/-- A hole in the part. -/
def Hole.comp (H G : Hole α ν) : Hole α ν where
  before := H.before ++ prefixed H.path G.before
  path := H.path ++ G.path
  after := prefixed H.path G.after ++ H.after

@[simp]
theorem Hole.fill_whole (l : List (List α × ν)) : Hole.whole.fill l = l := by
  simp [Hole.fill, Hole.whole]

@[simp]
theorem Hole.fill_comp (H G : Hole α ν) (l : List (List α × ν)) :
    (H.comp G).fill l = H.fill (G.fill l) := by
  simp [Hole.fill, Hole.comp]

end

/-! ## Their order -/

section

variable {α ν : Type} [LinearOrder α]

@[simp]
theorem append_lt_append_iff {p a b : List α} : p ++ a < p ++ b ↔ a < b := by
  induction p with
  | nil => rfl
  | cons x p ih => rw [List.cons_append, List.cons_append, List.cons_lt_cons_self, ih]

theorem nil_lt_iff {w : List α} : [] < w ↔ w ≠ [] := by
  cases w with
  | nil => exact ⟨fun h => absurd h (List.not_lt_nil _), fun h => absurd rfl h⟩
  | cons x w => exact ⟨fun _ => List.cons_ne_nil _ _, fun _ => List.nil_lt_cons _ _⟩

/-- No word comes before the empty one, so from it on is all. -/
theorem seek_gt_nil {l : List (List α × ν)} {k : List α} :
    seek l [] (.gt true) = seek l k .first := by
  obtain ⟨hbelow, honward⟩ := below_onward (k := ([] : List α)) (a := []) (b := l)
    (fun _ h => absurd h List.not_mem_nil) fun e _ => not_lt.mp (List.not_lt_nil e.1)
  rw [List.nil_append] at hbelow honward
  rw [seek, hbelow, honward, seek]

/-- All that begins with one word comes before all that begins with the other. -/
def Before (a b : List α) : Prop := ∀ u w, a ++ u < b ++ w

theorem before_of_lt {x y : α} (h : x < y) (p q : List α) : Before (x :: p) (y :: q) :=
  fun _ _ => List.cons_lt_cons_iff.mpr (.inl h)

theorem Ascending.prefixed {l : List (List α × ν)} (h : Ascending l) (p : List α) :
    Ascending (prefixed p l) :=
  List.pairwise_map.mpr (h.imp fun hlt => append_lt_append_iff.mpr hlt)

@[simp]
theorem find_prefixed (p k : List α) (l : List (List α × ν)) :
    find (p ++ k) (prefixed p l) = find k l := by
  induction l with
  | nil => rfl
  | cons e l ih =>
    simp only [prefixed_cons, find, append_lt_append_iff, List.append_cancel_left_eq, ih]
    split
    · rfl
    · split <;> rfl

@[simp]
theorem put_prefixed (p k : List α) (v : ν) (l : List (List α × ν)) :
    put (p ++ k) v (prefixed p l) = prefixed p (put k v l) := by
  induction l with
  | nil => rfl
  | cons e l ih =>
    simp only [prefixed_cons, put, append_lt_append_iff, List.append_cancel_left_eq, ih]
    split
    · rfl
    · split <;> rfl

@[simp]
theorem remove_prefixed (p k : List α) (l : List (List α × ν)) :
    remove (p ++ k) (prefixed p l) = prefixed p (remove k l) := by
  induction l with
  | nil => rfl
  | cons e l ih =>
    simp only [prefixed_cons, remove, append_lt_append_iff, List.append_cancel_left_eq, ih]
    split
    · rfl
    · split <;> rfl

theorem ascending_under {ps : List (List α)} {ls : List (List (List α × ν))}
    (hps : ps.Pairwise Before) (hls : ∀ l ∈ ls, Ascending l) : Ascending (under ps ls) := by
  induction ps generalizing ls with
  | nil => exact List.Pairwise.nil
  | cons p ps ih =>
    cases ls with
    | nil => exact List.Pairwise.nil
    | cons l ls =>
      obtain ⟨hp, hps⟩ := List.pairwise_cons.mp hps
      refine List.pairwise_append.mpr ⟨(hls l List.mem_cons_self).prefixed p,
        ih hps fun l hl => hls l (List.mem_cons_of_mem _ hl), fun a ha b hb => ?_⟩
      obtain ⟨u, hu, -⟩ := mem_prefixed.mp ha
      obtain ⟨p', hp', l', -, hb⟩ := mem_under hb
      obtain ⟨w, hw, -⟩ := mem_prefixed.mp hb
      rw [hu, hw]
      exact hp p' hp' u w

/-- The part is where it belongs: all that is below its word comes behind what is before it, and
before what is behind it. -/
structure Hole.Sound (H : Hole α ν) : Prop where
  before : ∀ e ∈ H.before, ∀ w, e.1 < H.path ++ w
  after : ∀ e ∈ H.after, ∀ w, H.path ++ w < e.1

theorem Hole.sound_whole : (Hole.whole : Hole α ν).Sound where
  before := fun _ h => absurd h List.not_mem_nil
  after := fun _ h => absurd h List.not_mem_nil

theorem Hole.Sound.comp {H G : Hole α ν} (hH : H.Sound) (hG : G.Sound) : (H.comp G).Sound where
  before := by
    intro e he w
    rw [Hole.comp, List.append_assoc]
    rcases List.mem_append.mp he with he | he
    · exact hH.before e he _
    · obtain ⟨u, hu, hu'⟩ := mem_prefixed.mp he
      rw [hu, append_lt_append_iff]
      exact hG.before _ hu' w
  after := by
    intro e he w
    rw [Hole.comp, List.append_assoc]
    rcases List.mem_append.mp he with he | he
    · obtain ⟨u, hu, hu'⟩ := mem_prefixed.mp he
      rw [hu, append_lt_append_iff]
      exact hG.after _ hu' w
    · exact hH.after e he _

/-- What is found below the word is found in the part. -/
theorem Hole.Sound.find_fill {H : Hole α ν} (h : H.Sound) (w : List α)
    (l : List (List α × ν)) : find (H.path ++ w) (H.fill l) = find w l := by
  rw [Hole.fill, find_append_right fun e he => h.after e he w,
    find_append fun e he => h.before e he w, find_prefixed]

/-- What is put below the word is put into the part. -/
theorem Hole.Sound.put_fill {H : Hole α ν} (h : H.Sound) (w : List α) (v : ν)
    (l : List (List α × ν)) : put (H.path ++ w) v (H.fill l) = H.fill (put w v l) := by
  rw [Hole.fill, put_append_right fun e he => h.after e he w,
    put_append fun e he => h.before e he w, put_prefixed, Hole.fill]

/-- What is removed below the word is removed from the part. -/
theorem Hole.Sound.remove_fill {H : Hole α ν} (h : H.Sound) (w : List α)
    (l : List (List α × ν)) : remove (H.path ++ w) (H.fill l) = H.fill (remove w l) := by
  rw [Hole.fill, remove_append_right fun e he => h.after e he w,
    remove_append fun e he => h.before e he w, remove_prefixed, Hole.fill]

end

end Lexicon

end Lib

end LibNax
