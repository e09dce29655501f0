import LibNax.Redis.Rax.Iterator
import LibNax.Redis.Rax.Runs

/-!
# Reading a radix tree in order

An iterator is set to a key, or to the next or the previous one if that is not there, and then goes
on in either direction.  It reads the tree as one reads a lexicon, whatever the nodes are.

The keys of a tree are a list in order, and an iterator stands at an entry of it, or past one of
its ends.  To say where, the list is split: what is above the node and before it, the node's own
entry, what is below it and behind.  The stack of the iterator gives the split, as each node on the
way has children before and behind the one that was taken (`Spot.On.entries_key`).  `Reads` says
that the iterator has the node, the stack and the bytes of such a split.  With that a step is a
statement on lists, and the loops of the source that go up and down were treated before, by what is
ahead of them (`Forward`, `Backward`).

A seek is different from a step in that it starts where a walk has stopped, which may be in the
middle of a compressed node or at a node without the next byte.  There the key is in no place of
the tree, and the code decides by single bytes where to go on.  `Walk.turn` is the number of the
first child behind the key, and `Walked.turn` says what it means: everything below the children
before it comes before the key, and everything else behind it.  For a compressed node it is one
comparison, at the first byte where the key and the node differ (`compressed_lt`), or none, if the
key ends before.

The operators that leave the key out are then alike.  Forwards the next entry is the first one from
the turn on; backwards it is the last one before the turn, and it may be the node itself, if the
walk stopped at a key that is shorter than the one that was looked for (`Walked.seekStep_gt`,
`Walked.seekStep_lt`).  The two that take the key itself, if it is there, come to these where it is
not.

* `raxStart`, `raxSeek`, `raxNext`, `raxPrev` — the calls.
* `Reads` — an iterator, and the place in the lexicon where it is.
* `Walked.turn` — where a walk stops, the keys of the tree are on one side or the other of its key.
* `raxSeek_reads` — a seek ends at the place that is looked for.
* `iterator_reads` — after every run, every run of calls of an iterator reads what it should.
-/

set_option autoImplicit false

namespace LibNax

namespace Redis

open Lib Lexicon

variable {ν : Type}

/-- `raxStart`.  The node is read after a seek only. -/
def raxStart : RaxIterator ν := ⟨⟨raxNewNode, [], []⟩, none, false, true⟩

/-- The bytes on the way of a stack, which `raxSeek` collects from its nodes. -/
def stackKey : List (Frame ν) → List UInt8
  | [] => []
  | f :: ts =>
    stackKey ts ++ if f.node.iscompr then f.node.data else [f.node.data.getD f.idx 0]

/-- `raxSeek` where it has to step on from the node where the walk stopped, in one direction. -/
def seekStep (rax : Rax ν) (it : RaxIterator ν) (gt : Bool) (splitpos : ℕ) (rest : List UInt8) :
    Option (RaxIterator ν) :=
  let step := fun (it : RaxIterator ν) (noup : Bool) =>
    if gt then raxIteratorNextStep rax it noup else raxIteratorPrevStep rax it noup
  match rest with
  | [] =>
    if it.node.iscompr ∧ it.node.iskey ∧ splitpos ≠ 0 ∧ gt = false then
      some { it with data := raxGetData it.node }
    else step it false
  | keychar :: _ =>
    if it.node.iscompr = false then step { it with key := it.key ++ [keychar] } true
    else
      let nodechar := it.node.data.getD splitpos 0
      if gt then
        if nodechar > keychar then step it false
        else step { it with key := it.key ++ it.node.data } true
      else
        if nodechar < keychar then
          let p := raxSeekGreatest it.toSpot
          some { it with toSpot := p, data := raxGetData p.node }
        else step { it with key := it.key ++ it.node.data } true

/-- `raxSeek` after the operators for the ends, where `way` is `some true` for `gt` and `some false`
for `lt`. -/
def seekKey (rax : Rax ν) (it : RaxIterator ν) (eq : Bool) (way : Option Bool) (ele : List UInt8) :
    Option (RaxIterator ν) :=
  let w := raxLowWalk rax ele
  let it := { it with node := w.stop, stack := w.ts }
  if eq ∧ w.rest = [] ∧ (w.stop.iscompr = false ∨ w.splitpos = 0) ∧ w.stop.iskey then
    some { it with key := it.key ++ ele, data := raxGetData w.stop }
  else
    match way with
    | some gt => do
      let it := { it with key := it.key ++ stackKey w.ts, justSeeked := false }
      let it ← seekStep rax it gt w.splitpos w.rest
      return { it with justSeeked := true }
    | none => some { it with eof := true }

/-- `raxSeek`.  It is `none` where an assertion fails. -/
def raxSeek (rax : Rax ν) (it : RaxIterator ν) (op : Seek) (ele : List UInt8) :
    Option (RaxIterator ν) :=
  let it := { it with stack := [], justSeeked := true, eof := false, key := [], node := raxNewNode }
  if rax.numele = 0 then some { it with eof := true }
  else
    match op with
    | .first => seekKey rax it true (some true) []
    | .last =>
      let p := raxSeekGreatest ⟨rax.head, [], []⟩
      if p.node.iskey then some { it with toSpot := p, data := raxGetData p.node } else none
    | .gt eq => seekKey rax it eq (some true) ele
    | .lt eq => seekKey rax it eq (some false) ele
    | .eq => seekKey rax it true none ele

/-- What an iterator hands out: the key and its value, unless it came past an end. -/
def RaxIterator.item (it : RaxIterator ν) : Option (List UInt8 × Option ν) :=
  if it.eof then none else some (it.key, it.data)

/-- `raxNext`. -/
def raxNext (rax : Rax ν) (it : RaxIterator ν) :
    Option (RaxIterator ν × Option (List UInt8 × Option ν)) := do
  let it ← raxIteratorNextStep rax it false
  return (it, it.item)

/-- `raxPrev`. -/
def raxPrev (rax : Rax ν) (it : RaxIterator ν) :
    Option (RaxIterator ν × Option (List UInt8 × Option ν)) := do
  let it ← raxIteratorPrevStep rax it false
  return (it, it.item)

/-! ## The iterator and the place -/

/-- The iterator is at this place of the keys that the tree spells. -/
def Reads (head : RaxNode ν) (it : RaxIterator ν) : Place (List UInt8) (Option ν) → Prop
  | .eof => it.eof = true
  | .at fresh before entry behind =>
    it.eof = false ∧ it.justSeeked = fresh ∧ it.toSpot.On head ∧ it.node.key = some it.data ∧
      before = it.above.reverse ∧ entry = (it.key, it.data) ∧ behind = it.behind

section

variable {head : RaxNode ν} {it : RaxIterator ν} {p : Spot ν}

/-- The keys of the tree around one of them. -/
theorem Spot.On.entries_key (hhead : head.Wf) (h : p.On head) {v : Option ν}
    (hv : p.node.key = some v) : head.entries = p.above ++ (p.key, v) :: p.behind := by
  rw [h.entries_split hhead 0, Spot.aboveUpTo, RaxNode.upToChild_zero, hv, ← h.key_eq, own,
    prefixed_cons, prefixed_empty, List.append_nil, List.append_assoc]
  rfl

/-- Going forwards ends at the first place of what is ahead. -/
theorem Forward.reads (hhead : head.Wf) {a b : List (List UInt8 × Option ν)}
    (hsplit : head.entries = a ++ b) {r : Option (Spot ν)} (h : Forward head b r)
    (heof : it.eof = false) : Reads head (it.land r) (.forward it.justSeeked a b) := by
  cases r with
  | none =>
    cases h
    exact rfl
  | some q =>
    obtain ⟨hon, v, hv, rfl⟩ := h
    have hdata : raxGetData q.node = v := by
      rw [raxGetData, hv]
      rfl
    have habove := List.append_cancel_right ((hon.entries_key hhead hv).symm.trans hsplit)
    refine ⟨heof, rfl, hon, ?_, congrArg List.reverse habove.symm, ?_, rfl⟩
    · exact hv.trans (congrArg some hdata.symm)
    · exact congrArg (Prod.mk q.key) hdata.symm

/-- Going backwards ends at the last place of what is ahead. -/
theorem Backward.reads (hhead : head.Wf) {a b : List (List UInt8 × Option ν)}
    (hsplit : head.entries = a ++ b) {r : Option (Spot ν)} (h : Backward head a r)
    (heof : it.eof = false) : Reads head (it.land r) (.backward it.justSeeked a b) := by
  cases r with
  | none =>
    cases h
    exact rfl
  | some q =>
    obtain ⟨hon, v, hv, rfl⟩ := h
    have hdata : raxGetData q.node = v := by
      rw [raxGetData, hv]
      rfl
    have hbehind := (hon.entries_key hhead hv).symm.trans hsplit
    rw [List.append_assoc, List.append_cancel_left_eq] at hbehind
    rw [Place.backward_concat]
    refine ⟨heof, rfl, hon, ?_, rfl, ?_, (List.cons.inj hbehind).2.symm⟩
    · exact hv.trans (congrArg some hdata.symm)
    · exact congrArg (Prod.mk q.key) hdata.symm

/-- Where a step forwards ends. -/
theorem Forward.step {rax : Rax ν} (hhead : rax.head.Wf) {a b : List (List UInt8 × Option ν)}
    (hsplit : rax.head.entries = a ++ b) (heof : it.eof = false) (hjust : it.justSeeked = false)
    {noup : Bool}
    (h : ∃ r, nextStepLoop (rax.head.nodes + 1) it.toSpot noup = some r ∧ Forward rax.head b r) :
    ∃ it', raxIteratorNextStep rax it noup = some it' ∧
      Reads rax.head it' (.forward false a b) := by
  obtain ⟨r, hrun, hr⟩ := h
  have hreads := hr.reads hhead hsplit heof
  rw [hjust] at hreads
  refine ⟨it.land r, ?_, hreads⟩
  rw [raxIteratorNextStep, heof, hjust, hrun]
  rfl

/-- Where a step backwards ends. -/
theorem Backward.step {rax : Rax ν} (hhead : rax.head.Wf) {a b : List (List UInt8 × Option ν)}
    (hsplit : rax.head.entries = a ++ b) (heof : it.eof = false) (hjust : it.justSeeked = false)
    {noup : Bool}
    (h : ∃ r, prevStepLoop (rax.head.nodes + 1) it.toSpot noup = some r ∧ Backward rax.head a r) :
    ∃ it', raxIteratorPrevStep rax it noup = some it' ∧
      Reads rax.head it' (.backward false a b) := by
  obtain ⟨r, hrun, hr⟩ := h
  have hreads := hr.reads hhead hsplit heof
  rw [hjust] at hreads
  refine ⟨it.land r, ?_, hreads⟩
  rw [raxIteratorPrevStep, heof, hjust, hrun]
  rfl

theorem RaxIterator.item_eof (h : it.eof = true) : it.item = none := if_pos h

theorem Reads.item_at {fresh : Bool} {a b : List (List UInt8 × Option ν)}
    {e : List UInt8 × Option ν} (h : Reads head it (.at fresh a e b)) : it.item = some e := by
  obtain ⟨heof, -, -, -, -, rfl, -⟩ := h
  rw [RaxIterator.item, heof]
  rfl

/-- **A step forwards** reads the next entry. -/
theorem raxNext_reads {rax : Rax ν} (hhead : rax.head.Wf)
    {place : Place (List UInt8) (Option ν)} (h : Reads rax.head it place) :
    ∃ it', raxNext rax it = some (it', place.next.2) ∧ Reads rax.head it' place.next.1 := by
  suffices hstep : ∃ it', raxIteratorNextStep rax it false = some it' ∧
      Reads rax.head it' place.next.1 ∧ it'.item = place.next.2 by
    obtain ⟨it', hrun, hreads, hitem⟩ := hstep
    exact ⟨it', by rw [raxNext, hrun, ← hitem]; rfl, hreads⟩
  cases place with
  | eof =>
    exact ⟨it, if_pos h, h, RaxIterator.item_eof h⟩
  | «at» fresh a e b =>
    have hitem := h.item_at
    obtain ⟨heof, hjust, hon, hkey, rfl, rfl, rfl⟩ := h
    cases fresh with
    | true =>
      refine ⟨{ it with justSeeked := false }, ?_, ⟨heof, rfl, hon, hkey, rfl, rfl, rfl⟩, hitem⟩
      rw [raxIteratorNextStep, heof, hjust]
      rfl
    | false =>
      have hsplit := hon.entries_key hhead hkey
      rw [← List.singleton_append, ← List.append_assoc] at hsplit
      obtain ⟨it', hrun, hreads⟩ := Forward.step hhead hsplit heof hjust
        (nextStepLoop_spec hhead hon)
      refine ⟨it', hrun, ?_⟩
      generalize it.behind = b at hreads
      cases b with
      | nil => exact ⟨hreads, RaxIterator.item_eof hreads⟩
      | cons e b =>
        rw [Place.forward, List.reverse_append] at hreads
        exact ⟨hreads, hreads.item_at⟩

/-- **A step backwards** reads the previous entry. -/
theorem raxPrev_reads {rax : Rax ν} (hhead : rax.head.Wf)
    {place : Place (List UInt8) (Option ν)} (h : Reads rax.head it place) :
    ∃ it', raxPrev rax it = some (it', place.prev.2) ∧ Reads rax.head it' place.prev.1 := by
  suffices hstep : ∃ it', raxIteratorPrevStep rax it false = some it' ∧
      Reads rax.head it' place.prev.1 ∧ it'.item = place.prev.2 by
    obtain ⟨it', hrun, hreads, hitem⟩ := hstep
    exact ⟨it', by rw [raxPrev, hrun, ← hitem]; rfl, hreads⟩
  cases place with
  | eof =>
    exact ⟨it, if_pos h, h, RaxIterator.item_eof h⟩
  | «at» fresh a e b =>
    have hitem := h.item_at
    obtain ⟨heof, hjust, hon, hkey, rfl, rfl, rfl⟩ := h
    cases fresh with
    | true =>
      refine ⟨{ it with justSeeked := false }, ?_, ⟨heof, rfl, hon, hkey, rfl, rfl, rfl⟩, hitem⟩
      rw [raxIteratorPrevStep, heof, hjust]
      rfl
    | false =>
      obtain ⟨it', hrun, hreads⟩ := Backward.step hhead (hon.entries_key hhead hkey) heof hjust
        (prevStepLoop_spec hhead hon)
      refine ⟨it', hrun, ?_⟩
      rw [Place.backward] at hreads
      generalize it.above.reverse = a at hreads
      cases a with
      | nil => exact ⟨hreads, RaxIterator.item_eof hreads⟩
      | cons e a => exact ⟨hreads, hreads.item_at⟩

end

/-! ## Where the walk leaves the iterator -/

section

variable {head : RaxNode ν}

theorem walkLoop_linked (hhead : head.Wf) {fuel : ℕ} {h : RaxNode ν} {s : List UInt8}
    {ts : List (Frame ν)} (hl : Linked head ts h) :
    Linked head (walkLoop fuel h s ts).ts (walkLoop fuel h s ts).stop := by
  induction fuel generalizing h s ts with
  | zero => exact hl
  | succ fuel ih =>
    obtain ⟨hwf, -⟩ := hl.spec hhead
    cases s with
    | nil => exact hl
    | cons c s =>
      rw [walkLoop]
      split
      · exact hl
      · split
        · rename_i hcompr
          obtain ⟨-, -, hone⟩ := hwf.shape.compressed hcompr
          simp only
          split
          · exact hl
          · exact ih ⟨hone ▸ Nat.one_pos, rfl, hl⟩
        · rename_i hcompr
          have hlen := (hwf.shape.plain ((Bool.not_eq_true _).mp hcompr)).2
          simp only
          split
          · exact hl
          · rename_i hj
            have hlt := Nat.lt_of_le_of_ne List.findIdx_le_length hj
            exact ih ⟨hlen ▸ hlt, rfl, hl⟩

/-- The bytes that are collected are the way to the node. -/
theorem Linked.stackKey_eq (hhead : head.Wf) {ts : List (Frame ν)} {n : RaxNode ν}
    (h : Linked head ts n) : stackKey ts = (holeOf ts).path := by
  induction ts generalizing n with
  | nil => rfl
  | cons f ts ih =>
    obtain ⟨hi, -, hl⟩ := h
    rw [stackKey, ih hl, (hl.spec hhead).1.edge_eq hi]
    rfl

/-- The place where a walk stopped. -/
def Walk.spot (w : Walk ν) : Spot ν := ⟨w.stop, w.ts, (holeOf w.ts).path⟩

theorem raxLowWalk_on {rax : Rax ν} (hhead : rax.head.Wf) (s : List UInt8) :
    (raxLowWalk rax s).spot.On rax.head := ⟨walkLoop_linked hhead rfl, rfl⟩

/-- Which child of the node where a walk stopped is the first one behind the key. -/
def Walk.turn (w : Walk ν) : ℕ :=
  match w.rest with
  | [] => 0
  | c :: _ =>
    if w.stop.iscompr then (if w.stop.data.getD w.splitpos 0 > c then 0 else 1)
    else w.stop.data.findIdx (· > c)

@[simp]
theorem Walk.spot_node (w : Walk ν) : w.spot.node = w.stop := rfl

theorem Walk.turn_nil {w : Walk ν} (hr : w.rest = []) : w.turn = 0 := by
  rw [Walk.turn, hr]

theorem Walk.turn_plain {w : Walk ν} {c : UInt8} {s : List UInt8} (hr : w.rest = c :: s)
    (hc : w.stop.iscompr = false) : w.turn = w.stop.data.findIdx (· > c) := by
  simp only [Walk.turn, hr, hc, Bool.false_eq_true, if_false]

theorem Walk.turn_compressed {w : Walk ν} {c : UInt8} {s : List UInt8} (hr : w.rest = c :: s)
    (hc : w.stop.iscompr = true) :
    w.turn = if w.stop.data.getD w.splitpos 0 > c then 0 else 1 := by
  simp only [Walk.turn, hr, hc, if_true]

/-- What a compressed node spells, beside what begins with some of its bytes and goes on
otherwise. -/
theorem compressed_lt {data : List UInt8} {m : ℕ} (hm : m < data.length) {c : UInt8}
    (s w : List UInt8) :
    (data[m] < c → data ++ w < data.take m ++ c :: s) ∧
      (c < data[m] → data.take m ++ c :: s < data ++ w) := by
  have hdata : data ++ w = data.take m ++ (data[m] :: data.drop (m + 1) ++ w) := by
    rw [← List.append_assoc, ← List.drop_eq_getElem_cons hm, List.take_append_drop]
  rw [hdata, append_lt_append_iff, append_lt_append_iff]
  exact ⟨fun h => List.cons_lt_cons_iff.mpr (.inl h), fun h => List.cons_lt_cons_iff.mpr (.inl h)⟩

/-- All below the children before that one comes before the key, and all from there on behind it. -/
theorem Walked.turn {s : List UInt8} {w : Walk ν} (h : Walked head s w) :
    (∀ p ∈ (edges w.stop.iscompr w.stop.data).take w.turn, ∀ u,
        p ++ u < w.stop.data.take w.splitpos ++ w.rest) ∧
      ∀ p ∈ (edges w.stop.iscompr w.stop.data).drop w.turn, ∀ u,
        w.stop.data.take w.splitpos ++ w.rest < p ++ u := by
  obtain ⟨rest, n, m, ts⟩ := w
  have hwf : n.Wf := h.wf
  have hstop : Stopped n m rest := h.stopped
  change (∀ p ∈ (edges n.iscompr n.data).take _, ∀ u, p ++ u < n.data.take m ++ rest) ∧
    ∀ p ∈ (edges n.iscompr n.data).drop _, ∀ u, n.data.take m ++ rest < p ++ u
  cases hc : n.iscompr with
  | true =>
    obtain ⟨hm, hmis⟩ := hstop.compressed hc
    have hm : m < n.data.length := hm
    cases rest with
    | nil =>
      refine ⟨fun p hp => absurd hp List.not_mem_nil, fun p hp u => ?_⟩
      cases List.mem_singleton.mp hp
      have hdata : n.data ++ u = n.data.take m ++ (n.data.drop m ++ u) := by
        rw [← List.append_assoc, List.take_append_drop]
      rw [hdata, append_lt_append_iff, nil_lt_iff, List.drop_eq_getElem_cons hm]
      exact List.cons_ne_nil _ _
    | cons c s' =>
      have hne : n.data[m] ≠ c := fun heq =>
        hmis c s' rfl ((List.getElem?_eq_getElem hm).trans (congrArg some heq))
      simp only [Walk.turn, hc, if_true, List.getD_eq_getElem _ _ hm]
      split
      · rename_i hgt
        refine ⟨fun p hp => absurd hp List.not_mem_nil, fun p hp u => ?_⟩
        cases List.mem_singleton.mp hp
        exact (compressed_lt hm s' u).2 hgt
      · rename_i hgt
        refine ⟨fun p hp u => ?_, fun p hp => absurd hp List.not_mem_nil⟩
        cases List.mem_singleton.mp hp
        exact (compressed_lt hm s' u).1 (lt_of_le_of_ne (not_lt.mp hgt) hne)
  | false =>
    obtain ⟨rfl, hmis⟩ := hstop.plain hc
    obtain ⟨hs, -⟩ := hwf.shape.plain hc
    cases rest with
    | nil =>
      refine ⟨fun p hp => absurd hp List.not_mem_nil, fun p hp u => ?_⟩
      obtain ⟨x, -, rfl⟩ := List.mem_map.mp hp
      exact nil_lt_iff.mpr (List.cons_ne_nil _ _)
    | cons c s' =>
      obtain ⟨hlt, hgt⟩ := findIdx_gt hs (hmis c s' rfl)
      simp only [Walk.turn, hc, Bool.false_eq_true, if_false, edges, ← List.map_take,
        ← List.map_drop]
      refine ⟨fun p hp u => ?_, fun p hp u => ?_⟩
      · obtain ⟨x, hx, rfl⟩ := List.mem_map.mp hp
        exact List.cons_lt_cons_iff.mpr (.inl (hlt x hx))
      · obtain ⟨x, hx, rfl⟩ := List.mem_map.mp hp
        exact List.cons_lt_cons_iff.mpr (.inl (hgt x hx))

theorem Walked.ne_nil_of_missed {s : List UInt8} {w : Walk ν} (h : Walked head s w)
    (hm : w.missed) {v : Option ν} (hv : w.stop.key = some v) :
    w.stop.data.take w.splitpos ++ w.rest ≠ [] := by
  rcases hm with hrest | ⟨hc, hsplit⟩ | hkey
  · exact List.append_ne_nil_of_right_ne_nil _ hrest
  · refine List.append_ne_nil_of_left_ne_nil (fun htake => ?_) _
    exact (List.take_eq_nil_iff.mp htake).elim hsplit (h.wf.shape.compressed hc).1
  · rw [RaxNode.iskey, hv] at hkey
    cases hkey

/-- Behind the place, from the turn on, are the keys behind the one that was looked for. -/
theorem Walked.lt_behindFrom {s : List UInt8} {w : Walk ν} (h : Walked head s w) :
    ∀ e ∈ w.spot.behindFrom w.turn, s < e.1 := by
  intro e he
  rw [h.key_eq]
  rcases List.mem_append.mp he with he | he
  · obtain ⟨v, hv, he⟩ := mem_prefixed.mp he
    obtain ⟨p, hp, l, -, he⟩ := mem_under he
    obtain ⟨u, hu, -⟩ := mem_prefixed.mp he
    rw [hv, show v = p ++ u from hu]
    exact append_lt_append_iff.mpr (h.turn.2 p hp u)
  · exact (sound_holeOf h.frames).after e he _

/-- Above it are the keys before that one, unless it is there. -/
theorem Walked.aboveUpTo_lt {s : List UInt8} {w : Walk ν} (h : Walked head s w) (hm : w.missed) :
    ∀ e ∈ w.spot.aboveUpTo w.turn, e.1 < s := by
  intro e he
  rw [h.key_eq]
  rcases List.mem_append.mp he with he | he
  · exact (sound_holeOf h.frames).before e he _
  · obtain ⟨v, hv, he⟩ := mem_prefixed.mp he
    rw [hv]
    refine append_lt_append_iff.mpr ?_
    rcases List.mem_append.mp he with he | he
    · change (v, e.2) ∈ own w.stop.key at he
      cases hk : w.stop.key with
      | none =>
        rw [hk] at he
        cases he
      | some x =>
        rw [hk] at he
        cases List.mem_singleton.mp he
        exact nil_lt_iff.mpr (h.ne_nil_of_missed hm hk)
    · obtain ⟨p, hp, l, -, he⟩ := mem_under he
      obtain ⟨u, hu, -⟩ := mem_prefixed.mp he
      rw [show v = p ++ u from hu]
      exact h.turn.1 p hp u

/-- **The seek forwards**, from where the walk stopped, reads on from the turn. -/
theorem Walked.seekStep_gt {rax : Rax ν} (hhead : rax.head.Wf) {s : List UInt8} {w : Walk ν}
    (h : Walked rax.head s w) (hon : w.spot.On rax.head) (data : Option ν) :
    ∃ it', seekStep rax ⟨w.spot, data, false, false⟩ true w.splitpos w.rest = some it' ∧
      Reads rax.head it' (.forward false (w.spot.aboveUpTo w.turn) (w.spot.behindFrom w.turn)) := by
  have hsplit := hon.entries_split hhead w.turn
  cases hr : w.rest with
  | nil =>
    rw [seekStep, if_neg fun h => Bool.true_eq_false.mp h.2.2.2]
    rw [Walk.turn_nil hr] at hsplit ⊢
    change ∃ it', raxIteratorNextStep rax ⟨w.spot, data, false, false⟩ false = some it' ∧ _
    exact Forward.step hhead hsplit rfl rfl (nextStepLoop_spec hhead hon)
  | cons c s' =>
    cases hc : w.stop.iscompr with
    | false =>
      simp only [seekStep, Walk.spot_node, hc, if_true]
      refine Forward.step hhead hsplit rfl rfl (nextStepLoop_noup hhead hon ?_ (fun _ => hc) ?_)
      · rw [List.getLastD_concat]
        exact nextChild_plain h.wf hc c (Walk.turn_plain hr hc).symm Nat.zero_lt_of_lt
      · rw [RaxNode.todel, Walk.spot_node, hc]
        rfl
    | true =>
      have hturn := Walk.turn_compressed hr hc
      obtain ⟨-, -, hone⟩ := h.wf.shape.compressed hc
      simp only [seekStep, Walk.spot_node, hc, Bool.true_eq_false, if_false, if_true]
      split
      · rename_i hgt
        rw [hturn, if_pos hgt] at hsplit ⊢
        exact Forward.step hhead hsplit rfl rfl (nextStepLoop_spec hhead hon)
      · rename_i hgt
        rw [hturn, if_neg hgt] at hsplit ⊢
        refine Forward.step hhead hsplit rfl rfl (nextStepLoop_noup hhead hon ?_ ?_ ?_)
        · rw [Walk.spot_node, nextChild_compressed hc, hone]
          rfl
        · exact fun h => absurd (show 1 < w.stop.children.length from h) (by omega)
        · rw [RaxNode.todel, Walk.spot_node, hc]
          rfl

/-- The seek backwards from where the key ends: the node itself, if it is a key that the walk did
not get through. -/
theorem Walk.seekStep_lt_nil {rax : Rax ν} (hhead : rax.head.Wf) {w : Walk ν}
    (hon : w.spot.On rax.head) (hm : w.missed) (data : Option ν) (hr : w.rest = []) :
    ∃ it', seekStep rax ⟨w.spot, data, false, false⟩ false w.splitpos w.rest = some it' ∧
      Reads rax.head it'
        (.backward false (w.spot.aboveUpTo w.turn) (w.spot.behindFrom w.turn)) := by
  have hsplit := hon.entries_split hhead w.turn
  rw [Walk.turn_nil hr] at hsplit ⊢
  have habove : w.spot.aboveUpTo 0 = w.spot.above ++ prefixed w.spot.key (own w.stop.key) := by
    rw [Spot.aboveUpTo, RaxNode.upToChild_zero]
    rfl
  rw [hr, seekStep]
  split
  · rename_i hkey
    obtain ⟨-, hkey, -, -⟩ := hkey
    obtain ⟨v, hv⟩ := Option.isSome_iff_exists.mp hkey
    have hdata : raxGetData w.stop = v := by
      rw [raxGetData, show w.stop.key = some v from hv]
      rfl
    rw [habove, show w.stop.key = some v from hv, own, prefixed_cons, prefixed_empty,
      List.append_nil, Place.backward_concat]
    refine ⟨_, rfl, rfl, rfl, hon, ?_, rfl, ?_, rfl⟩
    · exact hv.trans (congrArg some hdata.symm)
    · exact congrArg (Prod.mk w.spot.key) hdata.symm
  · rename_i hkey
    have hnone : w.stop.key = none := by
      rcases hm with hrest | ⟨hc, hsplit⟩ | hm
      · exact absurd hr hrest
      · exact Option.not_isSome_iff_eq_none.mp fun hk => hkey ⟨hc, hk, hsplit, rfl⟩
      · exact Option.not_isSome_iff_eq_none.mp (Bool.eq_false_iff.mp hm)
    rw [habove, hnone, own, prefixed_empty, List.append_nil] at hsplit ⊢
    change ∃ it', raxIteratorPrevStep rax ⟨w.spot, data, false, false⟩ false = some it' ∧ _
    exact Backward.step hhead hsplit rfl rfl (prevStepLoop_spec hhead hon)

/-- The seek backwards from a plain node without the next byte: the child before that byte. -/
theorem Walked.seekStep_lt_plain {rax : Rax ν} (hhead : rax.head.Wf) {s : List UInt8} {w : Walk ν}
    (h : Walked rax.head s w) (hon : w.spot.On rax.head) (data : Option ν) {c : UInt8}
    {s' : List UInt8} (hr : w.rest = c :: s') (hc : w.stop.iscompr = false) :
    ∃ it', seekStep rax ⟨w.spot, data, false, false⟩ false w.splitpos w.rest = some it' ∧
      Reads rax.head it'
        (.backward false (w.spot.aboveUpTo w.turn) (w.spot.behindFrom w.turn)) := by
  have hsplit := hon.entries_split hhead w.turn
  obtain ⟨hs, hlen⟩ := h.wf.shape.plain hc
  obtain ⟨hlt, hgt⟩ := findIdx_gt hs ((h.stopped.plain hc).2 c s' hr)
  have hle : w.turn ≤ w.stop.data.length := Walk.turn_plain hr hc ▸ List.findIdx_le_length
  rw [← Walk.turn_plain hr hc] at hlt hgt
  simp only [seekStep, hr, Walk.spot_node, hc, if_true, Bool.false_eq_true, if_false]
  refine Backward.step hhead hsplit rfl rfl
    (prevStepLoop_noup hhead hon ?_ (hlen ▸ hle) (fun _ => hc) ?_)
  · rw [List.getLastD_concat]
    refine prevChild_plain hc hle (fun x hx => (hgt x hx).not_gt) hlt fun h0 => ?_
    exact Nat.lt_of_lt_of_le (Nat.pos_of_ne_zero h0) hle
  · rw [RaxNode.todel, Walk.spot_node, hc]
    rfl

/-- The seek backwards from a compressed node: what is below it, or what is before it. -/
theorem Walked.seekStep_lt_compressed {rax : Rax ν} (hhead : rax.head.Wf) {s : List UInt8}
    {w : Walk ν} (h : Walked rax.head s w) (hon : w.spot.On rax.head) (data : Option ν) {c : UInt8}
    {s' : List UInt8} (hr : w.rest = c :: s') (hc : w.stop.iscompr = true) :
    ∃ it', seekStep rax ⟨w.spot, data, false, false⟩ false w.splitpos w.rest = some it' ∧
      Reads rax.head it'
        (.backward false (w.spot.aboveUpTo w.turn) (w.spot.behindFrom w.turn)) := by
  have hsplit := hon.entries_split hhead w.turn
  have hturn := Walk.turn_compressed hr hc
  obtain ⟨hne, -, hone⟩ := h.wf.shape.compressed hc
  obtain ⟨hlt, hmis⟩ := h.stopped.compressed hc
  have hnot : w.stop.data.getD w.splitpos 0 ≠ c := fun heq =>
    hmis c s' hr ((List.getElem?_eq_getElem hlt).trans
      (congrArg some ((List.getD_eq_getElem _ _ hlt).symm.trans heq)))
  simp only [seekStep, hr, Walk.spot_node, hc, Bool.true_eq_false, if_false, Bool.false_eq_true]
  split
  · rename_i hbefore
    rw [hturn, if_neg hbefore.not_gt] at hsplit ⊢
    obtain ⟨hq, v, hv, heq⟩ := greatestLoop_spec hhead hon (.inr hne) (Nat.le_refl _)
    rw [← hon.aboveUpTo_length hhead, Walk.spot_node, hone] at heq
    have hback : Backward rax.head (w.spot.aboveUpTo 1) (some (raxSeekGreatest w.spot)) :=
      ⟨hq, v, hv, heq⟩
    have heof : (⟨w.spot, data, false, false⟩ : RaxIterator ν).eof = false := rfl
    exact ⟨_, rfl, hback.reads hhead hsplit heof⟩
  · rename_i hbefore
    have hgt := lt_of_le_of_ne (not_lt.mp hbefore) (Ne.symm hnot)
    rw [hturn, if_pos hgt] at hsplit ⊢
    refine Backward.step hhead hsplit rfl rfl
      (prevStepLoop_noup hhead hon ?_ (Nat.zero_le _) (fun h => absurd rfl h) ?_)
    · exact prevChild_compressed hc 0 _
    · rw [RaxNode.todel, Walk.spot_node, hc]
      rfl

/-- **The seek backwards** from a place where the walk missed reads on from the turn. -/
theorem Walked.seekStep_lt {rax : Rax ν} (hhead : rax.head.Wf) {s : List UInt8} {w : Walk ν}
    (h : Walked rax.head s w) (hon : w.spot.On rax.head) (hm : w.missed) (data : Option ν) :
    ∃ it', seekStep rax ⟨w.spot, data, false, false⟩ false w.splitpos w.rest = some it' ∧
      Reads rax.head it'
        (.backward false (w.spot.aboveUpTo w.turn) (w.spot.behindFrom w.turn)) := by
  cases hr : w.rest with
  | nil => exact hr ▸ Walk.seekStep_lt_nil hhead hon hm data hr
  | cons c s' =>
    cases hc : w.stop.iscompr with
    | false => exact hr ▸ h.seekStep_lt_plain hhead hon data hr hc
    | true => exact hr ▸ h.seekStep_lt_compressed hhead hon data hr hc

/-- The same from a node that is the key itself. -/
theorem Walked.seekStep_lt_key {rax : Rax ν} (hhead : rax.head.Wf) {s : List UInt8} {w : Walk ν}
    (h : Walked rax.head s w) (hon : w.spot.On rax.head) (hm : ¬ w.missed) (data : Option ν) :
    ∃ it', seekStep rax ⟨w.spot, data, false, false⟩ false w.splitpos w.rest = some it' ∧
      Reads rax.head it'
        (.backward false w.spot.above ((w.spot.key, raxGetData w.stop) :: w.spot.behind)) := by
  obtain ⟨-, hsplit, hrest, hkey⟩ := h.found hm
  rw [hrest, hsplit, seekStep, if_neg fun h => h.2.2.1 rfl]
  change ∃ it', raxIteratorPrevStep rax ⟨w.spot, data, false, false⟩ false = some it' ∧ _
  exact Backward.step hhead (hon.entries_key hhead hkey) rfl rfl (prevStepLoop_spec hhead hon)

/-! ## The seek -/

theorem Walk.not_missed_iff {w : Walk ν} : ¬ w.missed ↔
    w.rest = [] ∧ (w.stop.iscompr = false ∨ w.splitpos = 0) ∧ w.stop.iskey = true := by
  rw [Walk.missed, not_or, not_or, not_not, not_and_or, Bool.not_eq_true, not_not,
    Bool.not_eq_false]

/-- What comes first is still to be read. -/
theorem Reads.forward_fresh {it : RaxIterator ν} {a b : List (List UInt8 × Option ν)}
    (h : Reads head it (.forward false a b)) :
    Reads head { it with justSeeked := true } (.forward true a b) := by
  cases b with
  | nil => exact h
  | cons e b =>
    obtain ⟨heof, -, hrest⟩ := h
    exact ⟨heof, rfl, hrest⟩

theorem Reads.backward_fresh {it : RaxIterator ν} {a b : List (List UInt8 × Option ν)}
    (h : Reads head it (.backward false a b)) :
    Reads head { it with justSeeked := true } (.backward true a b) := by
  rw [Place.backward] at h ⊢
  generalize a.reverse = a at h ⊢
  cases a with
  | nil => exact h
  | cons e a =>
    obtain ⟨heof, -, hrest⟩ := h
    exact ⟨heof, rfl, hrest⟩

section

variable {rax : Rax ν}

/-- A key that is looked for and there is found. -/
theorem seekKey_found {ele : List UInt8} {w : Walk ν} (hw : raxLowWalk rax ele = w)
    (hm : ¬ w.missed) (data : Option ν) (way : Option Bool) :
    seekKey rax ⟨⟨raxNewNode, [], []⟩, data, true, false⟩ true way ele =
      some ⟨⟨w.stop, w.ts, ele⟩, raxGetData w.stop, true, false⟩ := by
  obtain ⟨hrest, hsplit, hkey⟩ := Walk.not_missed_iff.mp hm
  rw [seekKey.eq_def, hw]
  exact if_pos ⟨rfl, hrest, hsplit, hkey⟩

/-- Otherwise the seek steps on from where the walk stopped. -/
theorem seekKey_step (hhead : rax.head.Wf) {ele : List UInt8} {w : Walk ν}
    (hw : raxLowWalk rax ele = w) (hon : w.spot.On rax.head) {eq : Bool}
    (hm : eq = true → w.missed) (data : Option ν) (gt : Bool) :
    seekKey rax ⟨⟨raxNewNode, [], []⟩, data, true, false⟩ eq (some gt) ele =
      (seekStep rax ⟨w.spot, data, false, false⟩ gt w.splitpos w.rest).map
        fun it => { it with justSeeked := true } := by
  have hkey : stackKey w.ts = w.spot.key := hon.linked.stackKey_eq hhead
  rw [seekKey, hw]
  simp only
  rw [if_neg fun h => Walk.not_missed_iff.mpr h.2 (hm h.1), hkey, List.nil_append]
  exact (Option.map_eq_bind (f := fun it : RaxIterator ν => { it with justSeeked := true })).symm

/-- The seek of a key forwards, where the walk missed it or it is left out itself. -/
theorem seekKey_forward (hhead : rax.head.Wf) {ele : List UInt8} {w : Walk ν}
    (hw : raxLowWalk rax ele = w) (h : Walked rax.head ele w) (hon : w.spot.On rax.head) {eq : Bool}
    (hm : eq = true → w.missed) (data : Option ν) :
    ∃ it', seekKey rax ⟨⟨raxNewNode, [], []⟩, data, true, false⟩ eq (some true) ele = some it' ∧
      Reads rax.head it' (.forward true (w.spot.aboveUpTo w.turn) (w.spot.behindFrom w.turn)) := by
  obtain ⟨it', hrun, hit⟩ := h.seekStep_gt hhead hon data
  exact ⟨{ it' with justSeeked := true }, by rw [seekKey_step hhead hw hon hm, hrun]; rfl,
    hit.forward_fresh⟩

/-- The same backwards, from a place that the step back ends at. -/
theorem seekKey_backward (hhead : rax.head.Wf) {ele : List UInt8} {w : Walk ν}
    (hw : raxLowWalk rax ele = w) (hon : w.spot.On rax.head) {eq : Bool} (hm : eq = true → w.missed)
    {data : Option ν} {a b : List (List UInt8 × Option ν)}
    (hstep : ∃ it', seekStep rax ⟨w.spot, data, false, false⟩ false w.splitpos w.rest = some it' ∧
      Reads rax.head it' (.backward false a b)) :
    ∃ it', seekKey rax ⟨⟨raxNewNode, [], []⟩, data, true, false⟩ eq (some false) ele = some it' ∧
      Reads rax.head it' (.backward true a b) := by
  obtain ⟨it', hrun, hit⟩ := hstep
  exact ⟨{ it' with justSeeked := true }, by rw [seekKey_step hhead hw hon hm, hrun]; rfl,
    hit.backward_fresh⟩

/-- A walk that did not miss stands at the key that is looked for. -/
theorem Walked.reads_key {ele : List UInt8} {w : Walk ν} (h : Walked rax.head ele w)
    (hon : w.spot.On rax.head) (hm : ¬ w.missed) :
    Reads rax.head ⟨⟨w.stop, w.ts, ele⟩, raxGetData w.stop, true, false⟩
      (.at true w.spot.above.reverse (ele, raxGetData w.stop) w.spot.behind) := by
  obtain ⟨hele, -, -, hkey⟩ := h.found hm
  exact ⟨rfl, rfl, ⟨hon.linked, hele⟩, hkey, rfl, rfl, rfl⟩

/-- What is above the key that the walk found comes before it. -/
theorem Walked.above_lt {ele : List UInt8} {w : Walk ν} (h : Walked rax.head ele w)
    (hm : ¬ w.missed) : ∀ e ∈ w.spot.above, e.1 < ele := fun e he => by
  have hbefore := (sound_holeOf h.frames).before e he []
  rwa [List.append_nil, ← (h.found hm).1] at hbefore

/-- **The seek of a key** ends at the place that is looked for. -/
theorem seekKey_reads (hhead : rax.head.Wf) (data : Option ν) (ele : List UInt8) :
    (∀ eq, ∃ it', seekKey rax ⟨⟨raxNewNode, [], []⟩, data, true, false⟩ eq (some true) ele =
        some it' ∧ Reads rax.head it' (seek rax.head.entries ele (.gt eq))) ∧
      (∀ eq, ∃ it', seekKey rax ⟨⟨raxNewNode, [], []⟩, data, true, false⟩ eq (some false) ele =
        some it' ∧ Reads rax.head it' (seek rax.head.entries ele (.lt eq))) ∧
      ∃ it', seekKey rax ⟨⟨raxNewNode, [], []⟩, data, true, false⟩ true none ele = some it' ∧
        Reads rax.head it' (seek rax.head.entries ele .eq) := by
  have h := raxLowWalk_spec hhead ele
  have hon := raxLowWalk_on hhead ele
  obtain ⟨w, hw⟩ : ∃ w, raxLowWalk rax ele = w := ⟨_, rfl⟩
  rw [hw] at h hon
  by_cases hm : w.missed
  · -- the key is not there
    obtain ⟨hgt, hlt, heq⟩ := seek_between (h.aboveUpTo_lt hm) h.lt_behindFrom
    rw [← hon.entries_split hhead] at hgt hlt heq
    refine ⟨fun eq => ?_, fun eq => ?_, ?_⟩
    · rw [hgt]
      exact seekKey_forward hhead hw h hon (fun _ => hm) data
    · rw [hlt]
      exact seekKey_backward hhead hw hon (fun _ => hm) (h.seekStep_lt hhead hon hm data)
    · rw [heq, seekKey, hw]
      exact ⟨_, if_neg fun h => Walk.not_missed_iff.mpr h.2 hm, rfl⟩
  · -- the walk found it
    obtain ⟨hele, -, hrest, hkey⟩ := h.found hm
    have hturn := Walk.turn_nil hrest
    have hbehind := h.lt_behindFrom
    rw [hturn] at hbehind
    have hentries := hon.entries_key hhead hkey
    have hfound := seekKey_found hw hm data
    have hreads := h.reads_key hon hm
    have hforward := seekKey_forward hhead hw h hon (fun h => absurd h Bool.false_ne_true) data
    have hbackward := seekKey_backward hhead hw hon (fun h => absurd h Bool.false_ne_true)
      (h.seekStep_lt_key hhead hon hm data)
    rw [show w.spot.key = ele from hele.symm] at hentries hbackward
    obtain ⟨hge, hgt, hle, hlt, heq⟩ := seek_at (v := raxGetData w.stop) (h.above_lt hm) hbehind
    change rax.head.entries = _ ++ (_, raxGetData w.stop) :: w.spot.behindFrom 0 at hentries
    rw [← hentries] at hge hgt hle hlt heq
    refine ⟨fun eq => ?_, fun eq => ?_, ⟨_, hfound none, heq ▸ hreads⟩⟩
    · cases eq with
      | true => exact ⟨_, hfound (some true), hge ▸ hreads⟩
      | false =>
        have habove : w.spot.aboveUpTo 0 = w.spot.above ++ [(ele, raxGetData w.stop)] := by
          rw [Spot.aboveUpTo, RaxNode.upToChild_zero, Walk.spot_node, hkey, own, prefixed_cons,
            prefixed_empty, List.append_nil, hele]
          rfl
        rw [hturn, habove] at hforward
        rw [hgt]
        exact hforward
    · cases eq with
      | true => exact ⟨_, hfound (some false), hle ▸ hreads⟩
      | false =>
        rw [hlt]
        exact hbackward

/-- **Every seek** ends at the place that is looked for. -/
theorem raxSeek_reads (h : rax.Wf) (it : RaxIterator ν) (op : Seek) (ele : List UInt8) :
    ∃ it', raxSeek rax it op ele = some it' ∧
      Reads rax.head it' (seek rax.head.entries ele op) := by
  have hhead := h.head
  rw [raxSeek.eq_def]
  simp only
  by_cases h0 : rax.numele = 0
  · have hnil : rax.head.entries = [] := List.length_eq_zero_iff.mp (h.numele_eq.symm.trans h0)
    rw [hnil, seek_nil, if_pos h0]
    exact ⟨_, rfl, rfl⟩
  · rw [if_neg h0]
    obtain ⟨hgt, hlt, heq⟩ := seekKey_reads hhead it.data ele
    cases op with
    | gt eq => exact hgt eq
    | lt eq => exact hlt eq
    | eq => exact heq
    | first =>
      obtain ⟨it', hrun, hit⟩ := (seekKey_reads hhead it.data []).1 true
      rw [seek_gt_nil] at hit
      exact ⟨it', hrun, hit⟩
    | last =>
      have hon : (⟨rax.head, [], []⟩ : Spot ν).On rax.head := ⟨rfl, rfl⟩
      have ha : rax.head.Alive := by
        by_contra hdead
        obtain ⟨hkey, hdata⟩ := not_or.mp hdead
        refine h0 (h.numele_eq.trans (List.length_eq_zero_iff.mpr ?_))
        have hnone := List.length_eq_zero_iff.mp (hhead.shape.pos.mp (not_not.mp hdata))
        rw [RaxNode.entries_eq, Option.not_isSome_iff_eq_none.mp hkey, hnone]
        generalize edges rax.head.iscompr rax.head.data = ps
        cases ps <;> rfl
      obtain ⟨hq, v, hv, hlast⟩ := greatestLoop_spec hhead hon ha (Nat.le_refl _)
      have hback : Backward rax.head rax.head.entries
          (some (raxSeekGreatest ⟨rax.head, [], []⟩)) :=
        ⟨hq, v, hv, (prefixed_nil rax.head.entries).symm.trans hlast⟩
      have heof : (⟨⟨raxNewNode, [], []⟩, it.data, true, false⟩ : RaxIterator ν).eof = false := rfl
      have hkey : (raxSeekGreatest (⟨rax.head, [], []⟩ : Spot ν)).node.iskey = true :=
        Option.isSome_iff_exists.mpr ⟨v, hv⟩
      simp only
      rw [if_pos hkey]
      exact ⟨_, rfl, hback.reads hhead (List.append_nil _).symm heof⟩

end

end

/-! ## Runs of an iterator -/

namespace Rax

/-- A call of an iterator. -/
inductive ReadOp where
  | seek (op : Seek) (ele : List UInt8)
  | next
  | prev
  | eof
  deriving Repr, DecidableEq

/-- What it answers: that it is done, an entry unless it came past an end, and whether it did. -/
inductive ReadAnswer (ν : Type) where
  | done
  | entry (e : Option (List UInt8 × Option ν))
  | past (b : Bool)
  deriving Repr, DecidableEq

/-- The iterator and the answer after a call. -/
def read (rax : Rax ν) (it : RaxIterator ν) : ReadOp → Option (RaxIterator ν × ReadAnswer ν)
  | .seek op ele => (raxSeek rax it op ele).map fun it => (it, .done)
  | .next => (raxNext rax it).map fun r => (r.1, .entry r.2)
  | .prev => (raxPrev rax it).map fun r => (r.1, .entry r.2)
  | .eof => some (it, .past it.eof)

/-- What a call means for one who reads a lexicon. -/
def reading (l : List (List UInt8 × Option ν)) (place : Place (List UInt8) (Option ν)) :
    ReadOp → Place (List UInt8) (Option ν) × ReadAnswer ν
  | .seek op ele => (Lexicon.seek l ele op, .done)
  | .next => (place.next.1, .entry place.next.2)
  | .prev => (place.prev.1, .entry place.prev.2)
  | .eof => (place, .past place.isEof)

/-- **One call** of an iterator reads what it should. -/
theorem read_reads {rax : Rax ν} (h : rax.Wf) {it : RaxIterator ν}
    {place : Place (List UInt8) (Option ν)} (hit : Reads rax.head it place) (op : ReadOp) :
    ∃ it', rax.read it op = some (it', (reading rax.head.entries place op).2) ∧
      Reads rax.head it' (reading rax.head.entries place op).1 := by
  cases op with
  | seek op ele =>
    obtain ⟨it', hrun, hit'⟩ := raxSeek_reads h it op ele
    exact ⟨it', by rw [read, hrun]; rfl, hit'⟩
  | next =>
    obtain ⟨it', hrun, hit'⟩ := raxNext_reads h.head hit
    exact ⟨it', by rw [read, hrun]; rfl, hit'⟩
  | prev =>
    obtain ⟨it', hrun, hit'⟩ := raxPrev_reads h.head hit
    exact ⟨it', by rw [read, hrun]; rfl, hit'⟩
  | eof =>
    refine ⟨it, ?_, hit⟩
    cases place with
    | eof =>
      rw [read, show it.eof = true from hit]
      rfl
    | «at» fresh a e b =>
      rw [read, hit.1]
      rfl

/-- **An iterator reads the tree as a lexicon.**  After every run of calls that leaves a tree, every
run of calls of an iterator on it meets the assertion, ends its loops, and answers as one who reads
the keys in order: a seek goes to the first key behind, the last one before, the key itself or an
end, and a step forwards or backwards to the key beside. -/
theorem iterator_reads (ops : List (Op ν)) (hops : ∀ op ∈ ops, op.Fits) (reads : List ReadOp) :
    ∃ rax : Rax ν, answers Rax.exec raxNew ops = some (rax, (replies meant [] ops).2) ∧
      ∃ it, answers rax.read raxStart reads =
          some (it, (replies (reading (replies meant [] ops).1) .eof reads).2) ∧
        Reads rax.head it (replies (reading (replies meant [] ops).1) .eof reads).1 := by
  obtain ⟨rax, hrun, hmeans⟩ := answers_means hops
  refine ⟨rax, hrun, ?_⟩
  rw [← hmeans.entries_eq]
  exact answers_eq_replies (R := Reads rax.head) (P := fun _ => True)
    (fun _ _ op h _ => read_reads hmeans.wf h op) (fun _ _ => trivial) rfl

/-- The key before one that ends within a compressed node, and the steps from there. -/
theorem iterator_reads_between :
    ∃ rax : Rax ℕ, answers Rax.exec raxNew [.insert [102] (some 1),
        .insert [102, 111, 111, 98, 97, 114] (some 2), .insert [103] none] =
      some (rax, [.changed true none, .changed true none, .changed true none]) ∧
      ∃ it, answers rax.read raxStart [.seek (.lt false) [102, 111, 111], .next, .next, .next,
          .next, .eof, .seek (.gt true) [102, 111, 111], .prev, .prev, .prev, .seek .last [],
          .prev, .seek .eq [102, 111], .eof] =
        some (it, [.done, .entry (some ([102], some 1)),
          .entry (some ([102, 111, 111, 98, 97, 114], some 2)), .entry (some ([103], none)),
          .entry none, .past true, .done, .entry (some ([102, 111, 111, 98, 97, 114], some 2)),
          .entry (some ([102], some 1)), .entry none, .done, .entry (some ([103], none)), .done,
          .past true]) := by
  obtain ⟨rax, hrun, it, hread, -⟩ := iterator_reads (ν := ℕ) [.insert [102] (some 1),
    .insert [102, 111, 111, 98, 97, 114] (some 2), .insert [103] none] (by decide)
    [.seek (.lt false) [102, 111, 111], .next, .next, .next, .next, .eof,
      .seek (.gt true) [102, 111, 111], .prev, .prev, .prev, .seek .last [], .prev,
      .seek .eq [102, 111], .eof]
  exact ⟨rax, hrun.trans (congrArg (fun as => some (rax, as)) (by decide)), it,
    hread.trans (congrArg (fun as => some (it, as)) (by decide))⟩

end Rax

end Redis

end LibNax
