import LibNax.Redis.Rax.Walk

/-!
# Stepping through a radix tree

An iterator of `rax.c` is at a node, with the stack of its parents and the bytes that lead to it.  A
step goes to the next key, down through first children or up to a parent with another one, and a
step back the other way.

* `Spot`, `RaxIterator` — where an iterator is, and all of it.
* `nextStepLoop`, `raxSeekGreatest`, `prevStepLoop` — the loops of a step.
* `Spot.On`, `Spot.above`, `Spot.behind` — a place in a tree, and the keys on either side of it.
* `nextStepLoop_spec`, `prevStepLoop_spec` — a step ends at the first key behind the place, or at
  the last one above it.
-/

set_option autoImplicit false

namespace LibNax

namespace Redis

open Lib Lexicon

variable {ν : Type}

/-- Where an iterator is: the node, its parents, and the bytes that lead to it. -/
structure Spot (ν : Type) where
  node : RaxNode ν
  stack : List (Frame ν)
  key : List UInt8

/-- `raxIterator`, with its flags. -/
structure RaxIterator (ν : Type) extends Spot ν where
  data : Option ν
  justSeeked : Bool
  eof : Bool

/-- Where a step ends.  Past an end the place is kept, and the iterator is done. -/
def RaxIterator.land (it : RaxIterator ν) : Option (Spot ν) → RaxIterator ν
  | none => { it with eof := true }
  | some p => { it with toSpot := p, data := raxGetData p.node }

/-- The number of children that a node has by its header. -/
def RaxNode.numChildren (n : RaxNode ν) : ℕ := if n.iscompr then 1 else n.size

/-- How many bytes lead from a node to a child. -/
def RaxNode.todel (n : RaxNode ν) : ℕ := if n.iscompr then n.size else 1

/-- `raxIteratorDelChars`. -/
def delChars (key : List UInt8) (count : ℕ) : List UInt8 := key.take (key.length - count)

/-- The node is pushed on the stack, its child is the new one, and the key goes on. -/
def Spot.down (p : Spot ν) (i : ℕ) (chars : List UInt8) : Spot ν :=
  ⟨p.node.child i, ⟨p.node, i⟩ :: p.stack, p.key ++ chars⟩

/-! ## Forwards -/

/-- The scan for the first child behind a byte, of a node with more children than some. -/
def nextChild (n : RaxNode ν) (least : ℕ) (prevchild : UInt8) : Option ℕ :=
  if n.iscompr = false ∧ n.size > least then
    if n.data.findIdx (· > prevchild) ≠ n.size then some (n.data.findIdx (· > prevchild)) else none
  else none

/-- The inner loop of `raxIteratorNextStep`: up to a parent that has another child, and down to it,
or past the head. -/
def upLoop : List (Frame ν) → List UInt8 → Option (Spot ν)
  | [], _ => none
  | f :: ts, key =>
    match nextChild f.node 1 (key.getLastD 0) with
    | some i => some (Spot.down ⟨f.node, ts, delChars key f.node.todel⟩ i [f.node.data.getD i 0])
    | none => upLoop ts (delChars key f.node.todel)

/-- The same loop when it may begin at the node itself. -/
def up (p : Spot ν) (noup : Bool) : Option (Spot ν) :=
  if noup then
    match nextChild p.node 0 (p.key.getLastD 0) with
    | some i =>
      some (Spot.down ⟨p.node, p.stack, delChars p.key p.node.todel⟩ i [p.node.data.getD i 0])
    | none => upLoop p.stack (delChars p.key p.node.todel)
  else upLoop p.stack p.key

/-- The loop of `raxIteratorNextStep`: the next key, if there is one. -/
def nextStepLoop : ℕ → Spot ν → Bool → Option (Option (Spot ν))
  | 0, _, _ => none
  | fuel + 1, p, noup =>
    if noup = false ∧ p.node.numChildren ≠ 0 then
      let p := p.down 0 (if p.node.iscompr then p.node.data else p.node.data.take 1)
      if p.node.iskey then some (some p) else nextStepLoop fuel p false
    else
      match up p noup with
      | none => some none
      | some p => if p.node.iskey then some (some p) else nextStepLoop fuel p false

/-- `raxIteratorNextStep`. -/
def raxIteratorNextStep (rax : Rax ν) (it : RaxIterator ν) (noup : Bool) : Option (RaxIterator ν) :=
  if it.eof then some it
  else if it.justSeeked then some { it with justSeeked := false }
  else
    (nextStepLoop (rax.head.nodes + 1) it.toSpot noup).map it.land

/-! ## Backwards -/

/-- The scan for the last child before a byte, from an index down. -/
def prevScan (data : List UInt8) (prevchild : UInt8) : ℕ → Option ℕ
  | 0 => none
  | i + 1 => if data.getD i 0 < prevchild then some i else prevScan data prevchild i

def prevChild (n : RaxNode ν) (least : ℕ) (prevchild : UInt8) : Option ℕ :=
  if n.iscompr = false ∧ n.size > least then prevScan n.data prevchild n.size else none

/-- The loop of `raxSeekGreatest`. -/
def greatestLoop : ℕ → Spot ν → Spot ν
  | 0, p => p
  | fuel + 1, p =>
    if p.node.size = 0 then p
    else greatestLoop fuel (p.down (p.node.numChildren - 1)
      (if p.node.iscompr then p.node.data else [p.node.data.getD (p.node.size - 1) 0]))

/-- `raxSeekGreatest`. -/
def raxSeekGreatest (p : Spot ν) : Spot ν := greatestLoop p.node.nodes p

/-- What `raxIteratorPrevStep` does at a parent: down to the greatest key before the byte, if there
is one. -/
def prevTurn (p : Spot ν) (least : ℕ) (prevchild : UInt8) : Spot ν :=
  match prevChild p.node least prevchild with
  | some i => raxSeekGreatest (p.down i [p.node.data.getD i 0])
  | none => p

/-- The loop of `raxIteratorPrevStep`: the previous key, if there is one. -/
def prevStepLoop : ℕ → Spot ν → Bool → Option (Option (Spot ν))
  | 0, _, _ => none
  | fuel + 1, p, noup =>
    let turn := fun (n : RaxNode ν) (ts : List (Frame ν)) (least : ℕ) =>
      let p := prevTurn ⟨n, ts, delChars p.key n.todel⟩ least (p.key.getLastD 0)
      if p.node.iskey then some (some p) else prevStepLoop fuel p false
    if noup then turn p.node p.stack 0
    else
      match p.stack with
      | [] => some none
      | f :: ts => turn f.node ts 1

/-- `raxIteratorPrevStep`. -/
def raxIteratorPrevStep (rax : Rax ν) (it : RaxIterator ν) (noup : Bool) : Option (RaxIterator ν) :=
  if it.eof then some it
  else if it.justSeeked then some { it with justSeeked := false }
  else
    (prevStepLoop (rax.head.nodes + 1) it.toSpot noup).map it.land

/-! ## A place in a tree -/

/-- The stack holds the parents of the node, up to the head. -/
def Linked (head : RaxNode ν) : List (Frame ν) → RaxNode ν → Prop
  | [], n => n = head
  | f :: ts, n => f.idx < f.node.children.length ∧ f.node.child f.idx = n ∧ Linked head ts f.node

/-- The place is in the tree, and the key is the way there. -/
structure Spot.On (head : RaxNode ν) (p : Spot ν) : Prop where
  linked : Linked head p.stack p.node
  key_eq : p.key = (holeOf p.stack).path

/-- The keys above the place, and before it. -/
def Spot.above (p : Spot ν) : List (List UInt8 × Option ν) := (holeOf p.stack).before

/-- What the children of a node spell from one of them on. -/
def RaxNode.fromChild (n : RaxNode ν) (k : ℕ) : List (List UInt8 × Option ν) :=
  under ((edges n.iscompr n.data).drop k) ((n.children.drop k).map RaxNode.entries)

/-- What a node spells before one of its children. -/
def RaxNode.upToChild (n : RaxNode ν) (k : ℕ) : List (List UInt8 × Option ν) :=
  own n.key ++ under ((edges n.iscompr n.data).take k) ((n.children.take k).map RaxNode.entries)

/-- The keys behind the place from a child on, and the keys above it up to a child. -/
def Spot.behindFrom (p : Spot ν) (k : ℕ) : List (List UInt8 × Option ν) :=
  prefixed (holeOf p.stack).path (p.node.fromChild k) ++ (holeOf p.stack).after

def Spot.aboveUpTo (p : Spot ν) (k : ℕ) : List (List UInt8 × Option ν) :=
  p.above ++ prefixed (holeOf p.stack).path (p.node.upToChild k)

/-- The keys behind the place. -/
def Spot.behind (p : Spot ν) : List (List UInt8 × Option ν) := p.behindFrom 0

theorem Linked.spec {head : RaxNode ν} (hhead : head.Wf) {ts : List (Frame ν)} {n : RaxNode ν}
    (h : Linked head ts n) :
    n.Wf ∧ (ts ≠ [] → n.Alive) ∧ (∀ f ∈ ts, f.Wf) ∧ plug ts n = head := by
  induction ts generalizing n with
  | nil =>
    cases h
    exact ⟨hhead, fun h => absurd rfl h, fun _ h => absurd h List.not_mem_nil, rfl⟩
  | cons f ts ih =>
    obtain ⟨hi, rfl, hl⟩ := h
    obtain ⟨hwf, -, hts, hplug⟩ := ih hl
    obtain ⟨hcwf, hca, hcplug, hcts⟩ := hwf.down hi hts
    exact ⟨hcwf, fun _ => hca, hcts, hcplug.trans hplug⟩

section

variable {head : RaxNode ν} {p : Spot ν}

theorem Spot.On.down (h : p.On head) {i : ℕ} (hi : i < p.node.children.length)
    {chars : List UInt8} (hchars : chars = (edges p.node.iscompr p.node.data).getD i []) :
    (p.down i chars).On head := by
  refine ⟨⟨hi, rfl, h.linked⟩, ?_⟩
  change p.key ++ chars = (holeOf p.stack).path ++ _
  rw [h.key_eq, hchars]
  rfl

/-- The keys of the tree, seen from between two children of a place. -/
theorem Spot.On.entries_split (hhead : head.Wf) (h : p.On head) (k : ℕ) :
    head.entries = p.aboveUpTo k ++ p.behindFrom k := by
  obtain ⟨hwf, -, hts, hplug⟩ := h.linked.spec hhead
  have hlen := hwf.shape.length_edges
  have hsplit : p.node.entries = p.node.upToChild k ++ p.node.fromChild k := by
    rw [RaxNode.upToChild, RaxNode.fromChild, List.append_assoc, ← under_append, ← List.map_append,
      List.take_append_drop, List.take_append_drop, RaxNode.entries_eq]
    rw [List.length_map, List.length_take, List.length_take, hlen]
  rw [← hplug, entries_plug hts, Hole.fill, hsplit, prefixed_append, Spot.aboveUpTo,
    Spot.behindFrom, Spot.above]
  simp only [List.append_assoc]

theorem RaxNode.upToChild_zero {n : RaxNode ν} : n.upToChild 0 = own n.key := List.append_nil _

theorem RaxNode.Wf.fromChild_lt {n : RaxNode ν} (hwf : n.Wf) {k : ℕ} (hk : k < n.children.length) :
    n.fromChild k = prefixed ((edges n.iscompr n.data).getD k []) (n.child k).entries ++
      n.fromChild (k + 1) := by
  have hk' : k < (edges n.iscompr n.data).length := hwf.shape.length_edges.symm ▸ hk
  rw [RaxNode.fromChild, List.drop_eq_getElem_cons hk, List.drop_eq_getElem_cons hk', List.map_cons,
    under_cons, RaxNode.child_eq hk, List.getD_eq_getElem _ _ hk']
  rfl

theorem RaxNode.Wf.upToChild_succ {n : RaxNode ν} (hwf : n.Wf) {k : ℕ}
    (hk : k < n.children.length) : n.upToChild (k + 1) =
      n.upToChild k ++ prefixed ((edges n.iscompr n.data).getD k []) (n.child k).entries := by
  have hk' : k < (edges n.iscompr n.data).length := hwf.shape.length_edges.symm ▸ hk
  have hlen : ((edges n.iscompr n.data).take k).length =
      ((n.children.take k).map RaxNode.entries).length := by
    rw [List.length_map, List.length_take, List.length_take, hwf.shape.length_edges]
  rw [RaxNode.upToChild, List.take_succ_eq_append_getElem hk, List.take_succ_eq_append_getElem hk',
    List.map_append, under_append hlen, RaxNode.child_eq hk, List.getD_eq_getElem _ _ hk',
    RaxNode.upToChild, List.append_assoc, List.map_singleton, under_cons, under_nil,
    List.append_nil]

theorem RaxNode.entries_fromChild (n : RaxNode ν) : n.entries = own n.key ++ n.fromChild 0 :=
  n.entries_eq

/-- What is spelled from a child on. -/
theorem Spot.On.behindFrom_lt (hhead : head.Wf) (h : p.On head) {k : ℕ}
    (hk : k < p.node.children.length) {chars : List UInt8}
    (hchars : chars = (edges p.node.iscompr p.node.data).getD k []) :
    p.behindFrom k = prefixed (p.down k chars).key (own (p.node.child k).key) ++
      (p.down k chars).behind := by
  have hkey := (h.down hk hchars).key_eq
  have hpath : (holeOf p.stack).path ++ chars = (p.down k chars).key := by
    rw [← h.key_eq]
    rfl
  rw [Spot.behindFrom, (h.linked.spec hhead).1.fromChild_lt hk, ← hchars,
    RaxNode.entries_fromChild, prefixed_append, prefixed_append, prefixed_append, prefixed_prefixed,
    prefixed_prefixed, hpath, Spot.behind, Spot.behindFrom, ← hkey]
  simp only [List.append_assoc]
  rfl

/-- What is spelled up to a child. -/
theorem Spot.On.aboveUpTo_succ (hhead : head.Wf) (h : p.On head) {k : ℕ}
    (hk : k < p.node.children.length) {chars : List UInt8}
    (hchars : chars = (edges p.node.iscompr p.node.data).getD k []) :
    p.aboveUpTo (k + 1) = (p.down k chars).above ++
      prefixed (p.down k chars).key (p.node.child k).entries := by
  have hpath : (holeOf p.stack).path ++ chars = (p.down k chars).key := by
    rw [← h.key_eq]
    rfl
  rw [Spot.aboveUpTo, (h.linked.spec hhead).1.upToChild_succ hk, ← hchars, prefixed_append,
    prefixed_prefixed, hpath, ← List.append_assoc]
  rfl

/-- The list of keys that an iteration has ahead, and the place where it goes on. -/
def Forward (head : RaxNode ν) (ahead : List (List UInt8 × Option ν)) : Option (Spot ν) → Prop
  | none => ahead = []
  | some q => q.On head ∧ ∃ v, q.node.key = some v ∧ ahead = (q.key, v) :: q.behind

/-- The same for the keys that an iteration backwards has ahead. -/
def Backward (head : RaxNode ν) (ahead : List (List UInt8 × Option ν)) : Option (Spot ν) → Prop
  | none => ahead = []
  | some q => q.On head ∧ ∃ v, q.node.key = some v ∧ ahead = q.above ++ [(q.key, v)]

/-- A place below the head whose node and all behind it are ahead. -/
structure Enters (head : RaxNode ν) (ahead : List (List UInt8 × Option ν)) (q : Spot ν) :
    Prop where
  on : q.On head
  below : q.stack ≠ []
  ahead_eq : ahead = prefixed q.key (own q.node.key) ++ q.behind

theorem Spot.On.enters (hhead : head.Wf) (h : p.On head) {k : ℕ}
    (hk : k < p.node.children.length) {chars : List UInt8}
    (hchars : chars = (edges p.node.iscompr p.node.data).getD k []) :
    Enters head (p.behindFrom k) (p.down k chars) :=
  ⟨h.down hk hchars, List.cons_ne_nil _ _, h.behindFrom_lt hhead hk hchars⟩

theorem Spot.On.nodes_le (hhead : head.Wf) (h : p.On head) : p.node.nodes ≤ head.nodes := by
  obtain ⟨-, -, hts, hplug⟩ := h.linked.spec hhead
  rw [← hplug, nodes_plug hts]
  exact Nat.le_add_left _ _

theorem RaxNode.Wf.numChildren_eq {n : RaxNode ν} (hwf : n.Wf) :
    n.numChildren = n.children.length := by
  rw [RaxNode.numChildren]
  cases hc : n.iscompr with
  | true => exact (hwf.shape.compressed hc).2.2.symm
  | false => exact (hwf.shape.plain hc).2.symm

/-- A child of a node has fewer nodes below it. -/
theorem RaxNode.Wf.child_nodes_lt {n : RaxNode ν} (hwf : n.Wf) {i : ℕ}
    (hi : i < n.children.length) : (n.child i).nodes < n.nodes := by
  have hnodes := (hwf.frame hi).nodes_setChild (n.child i)
  rw [RaxNode.setChild_child hi, Frame.aside] at hnodes
  omega

/-- The bytes to the first child. -/
theorem edge_zero {n : RaxNode ν} (hwf : n.Wf) (hpos : 0 < n.children.length) :
    (if n.iscompr then n.data else n.data.take 1) = (edges n.iscompr n.data).getD 0 [] := by
  cases hc : n.iscompr with
  | true => rfl
  | false =>
    have hlen := (hwf.shape.plain hc).2
    cases hd : n.data with
    | nil =>
      rw [hd] at hlen
      exact absurd hpos (hlen ▸ Nat.lt_irrefl 0)
    | cons x d => rfl

/-! ## The next key -/

/-- Down to the first child, and on until a node is a key. -/
theorem Enters.descend (hhead : head.Wf) {ahead : List (List UInt8 × Option ν)} {fuel : ℕ}
    {q : Spot ν} (h : Enters head ahead q) (hfuel : q.node.nodes ≤ fuel) :
    ∃ q', (if q.node.iskey then some (some q) else nextStepLoop fuel q false) = some (some q') ∧
      Forward head ahead (some q') := by
  induction fuel generalizing q with
  | zero =>
    rw [q.node.nodes_eq] at hfuel
    omega
  | succ fuel ih =>
    obtain ⟨hon, hbelow, hahead⟩ := h
    obtain ⟨hwf, ha, -, -⟩ := hon.linked.spec hhead
    split
    · rename_i hk
      obtain ⟨v, hv⟩ := Option.isSome_iff_exists.mp hk
      refine ⟨q, rfl, hon, v, hv, ?_⟩
      rw [hahead, hv, own, prefixed_cons, List.append_nil]
      rfl
    · rename_i hk
      have hdata : q.node.data ≠ [] := (ha hbelow).resolve_left hk
      have hpos : 0 < q.node.children.length :=
        Nat.pos_of_ne_zero fun h0 => hdata (hwf.shape.pos.mpr h0)
      have hnone : q.node.key = none := Option.not_isSome_iff_eq_none.mp hk
      rw [hnone, own, prefixed_empty, List.nil_append] at hahead
      rw [nextStepLoop, if_pos ⟨rfl, by rw [hwf.numChildren_eq]; omega⟩]
      have henters := hon.enters hhead hpos (edge_zero hwf hpos)
      have hlt := hwf.child_nodes_lt hpos
      change Enters head q.behind _ at henters
      rw [← hahead] at henters
      exact ih henters (show (q.node.child 0).nodes ≤ fuel by omega)

end

/-! ### The scan for it -/

section

variable {n : RaxNode ν}

theorem nextChild_compressed (hc : n.iscompr = true) (least : ℕ) (c : UInt8) :
    nextChild n least c = none := by
  rw [nextChild, if_neg fun h => Bool.false_ne_true (h.1.symm.trans hc)]

theorem nextChild_plain (hwf : n.Wf) (hc : n.iscompr = false) (c : UInt8) {least k : ℕ}
    (hk : n.data.findIdx (· > c) = k) (hleast : k < n.size → least < n.size) :
    nextChild n least c = if k < n.children.length then some k else none := by
  have hle : k ≤ n.data.length := hk ▸ List.findIdx_le_length
  rw [nextChild, hk, (hwf.shape.plain hc).2]
  rcases Nat.lt_or_eq_of_le hle with hlt | heq
  · rw [if_pos ⟨hc, hleast hlt⟩, if_pos (show k ≠ n.size from Nat.ne_of_lt hlt), if_pos hlt]
  · have hnot : ¬ k ≠ n.size := not_not.mpr heq
    rw [if_neg hnot, ite_self, if_neg (by omega)]

/-- The first byte behind one of the bytes is the next one. -/
theorem findIdx_getElem {data : List UInt8} (hs : data.Pairwise (· < ·)) {i : ℕ}
    (hi : i < data.length) : data.findIdx (· > data[i]) = i + 1 := by
  have hbefore : ∀ j (hj : j < data.length), j ≤ i → decide (data[j] > data[i]) = false := by
    intro j hj hji
    refine decide_eq_false (not_lt.mpr ?_)
    rcases Nat.lt_or_eq_of_le hji with hlt | rfl
    · exact (List.pairwise_iff_getElem.mp hs j i hj hi hlt).le
    · exact le_rfl
  rcases Nat.lt_or_eq_of_le (Nat.succ_le_of_lt hi) with hlt | heq
  · rw [List.findIdx_eq hlt]
    refine ⟨decide_eq_true (List.pairwise_iff_getElem.mp hs i (i + 1) hi hlt (Nat.lt_succ_self i)),
      fun j hj => hbefore j (by omega) (by omega)⟩
  · rw [show i + 1 = data.length from heq, List.findIdx_eq_length]
    intro x hx
    obtain ⟨j, hj, rfl⟩ := List.mem_iff_getElem.mp hx
    exact hbefore j hj (by omega)

/-- The last byte of the way to a child. -/
theorem getLastD_edge (hc : n.iscompr = false) {i : ℕ} (hi : i < n.data.length)
    (key : List UInt8) :
    (key ++ (edges n.iscompr n.data).getD i []).getLastD 0 = n.data[i] := by
  rw [hc, getD_edges_plain hi]
  simp

/-- Seen from a child, the scan ends at the next one. -/
theorem nextChild_parent (hwf : n.Wf) {i : ℕ} (hi : i < n.children.length) (key : List UInt8) :
    nextChild n 1 ((key ++ (edges n.iscompr n.data).getD i []).getLastD 0) =
      if i + 1 < n.children.length then some (i + 1) else none := by
  cases hc : n.iscompr with
  | true =>
    obtain ⟨-, -, hone⟩ := hwf.shape.compressed hc
    rw [nextChild_compressed hc, if_neg (by omega)]
  | false =>
    obtain ⟨hs, hlen⟩ := hwf.shape.plain hc
    have hi' : i < n.data.length := hlen ▸ hi
    rw [← hc, getLastD_edge hc hi',
      nextChild_plain hwf hc _ (findIdx_getElem hs hi') (fun h => by omega)]

/-- The bytes to a child are what has to be taken off. -/
theorem delChars_edge (hwf : n.Wf) {i : ℕ} (hi : i < n.children.length) (key : List UInt8) :
    delChars (key ++ (edges n.iscompr n.data).getD i []) n.todel = key := by
  have hlen : ((edges n.iscompr n.data).getD i []).length = n.todel := by
    rw [RaxNode.todel]
    cases hc : n.iscompr with
    | true =>
      obtain ⟨-, -, hone⟩ := hwf.shape.compressed hc
      cases Nat.lt_one_iff.mp (hone ▸ hi)
      rfl
    | false =>
      rw [getD_edges_plain ((hwf.shape.plain hc).2 ▸ hi)]
      rfl
  rw [delChars, List.length_append, hlen, Nat.add_sub_cancel, List.take_left]

end

section

variable {head : RaxNode ν} {p : Spot ν}

/-- What the scan finds is ahead, if there is anything from there on. -/
def Reaches (head : RaxNode ν) (ahead : List (List UInt8 × Option ν)) : Option (Spot ν) → Prop
  | none => ahead = []
  | some q => Enters head ahead q

/-- A place and the child that a scan ended at. -/
theorem Spot.On.reaches (hhead : head.Wf) (h : p.On head) {k : ℕ} (hk : k < p.node.children.length)
    (hc : p.node.iscompr = false) :
    Enters head (p.behindFrom k) (p.down k [p.node.data.getD k 0]) := by
  have hedge := (h.linked.spec hhead).1.edge_eq hk
  rw [if_neg (Bool.eq_false_iff.mp hc)] at hedge
  exact h.enters hhead hk hedge

/-- Behind the last child is what is behind the parents. -/
theorem Spot.behindFrom_ge {k : ℕ} (hk : p.node.children.length ≤ k) :
    p.behindFrom k = (holeOf p.stack).after := by
  have hnil : p.node.fromChild k = [] := by
    rw [RaxNode.fromChild, List.drop_eq_nil_iff.mpr hk]
    generalize (edges p.node.iscompr p.node.data).drop k = ps
    cases ps <;> rfl
  rw [Spot.behindFrom, hnil]
  rfl

theorem upLoop_spec (hhead : head.Wf) {ts : List (Frame ν)} {n : RaxNode ν}
    (h : Linked head ts n) : Reaches head (holeOf ts).after (upLoop ts (holeOf ts).path) := by
  induction ts generalizing n with
  | nil => exact rfl
  | cons f ts ih =>
    obtain ⟨hi, -, hl⟩ := h
    obtain ⟨hwf, -⟩ := hl.spec hhead
    have hon : (⟨f.node, ts, (holeOf ts).path⟩ : Spot ν).On head := ⟨hl, rfl⟩
    have hscan : nextChild f.node 1 ((holeOf (f :: ts)).path.getLastD 0) = _ :=
      nextChild_parent hwf hi (holeOf ts).path
    have hdel : delChars (holeOf (f :: ts)).path f.node.todel = _ :=
      delChars_edge hwf hi (holeOf ts).path
    have hafter : (holeOf (f :: ts)).after =
        (⟨f.node, ts, (holeOf ts).path⟩ : Spot ν).behindFrom (f.idx + 1) := rfl
    rw [upLoop, hscan, hdel, hafter]
    by_cases hk : f.idx + 1 < f.node.children.length
    · rw [if_pos hk]
      exact hon.reaches hhead hk (Bool.eq_false_iff.mpr fun hc => by
        obtain ⟨-, -, hone⟩ := hwf.shape.compressed hc
        omega)
    · rw [if_neg hk, Spot.behindFrom_ge (Nat.le_of_not_lt hk)]
      exact ih hl

/-- Where a scan led to, the loop goes on to the next key. -/
theorem Reaches.finish (hhead : head.Wf) {ahead : List (List UInt8 × Option ν)}
    {r : Option (Spot ν)} (h : Reaches head ahead r) :
    ∃ r', (match r with
      | none => some none
      | some q =>
        if q.node.iskey then some (some q) else nextStepLoop head.nodes q false) = some r' ∧
        Forward head ahead r' := by
  cases r with
  | none => exact ⟨none, rfl, h⟩
  | some q =>
    obtain ⟨q', hrun, hq'⟩ := Enters.descend hhead h (h.on.nodes_le hhead)
    exact ⟨some q', hrun, hq'⟩

/-- **The next key**: the loop ends at the first key behind the place. -/
theorem nextStepLoop_spec (hhead : head.Wf) (h : p.On head) :
    ∃ r, nextStepLoop (head.nodes + 1) p false = some r ∧ Forward head p.behind r := by
  obtain ⟨hwf, -⟩ := h.linked.spec hhead
  rw [nextStepLoop]
  by_cases hn : p.node.numChildren ≠ 0
  · rw [if_pos ⟨rfl, hn⟩]
    have hpos : 0 < p.node.children.length := by
      rw [hwf.numChildren_eq] at hn
      omega
    obtain ⟨q, hrun, hq⟩ := (h.enters hhead hpos (edge_zero hwf hpos)).descend hhead
      (Spot.On.nodes_le hhead (h.down hpos (edge_zero hwf hpos)))
    exact ⟨some q, hrun, hq⟩
  · rw [if_neg fun h => hn h.2]
    have hreach := upLoop_spec hhead h.linked
    rw [← h.key_eq] at hreach
    rw [Spot.behind, Spot.behindFrom_ge (by rw [← hwf.numChildren_eq]; omega)]
    exact hreach.finish hhead

/-- The next key from a child of the place on, which is looked for at once. -/
theorem nextStepLoop_noup (hhead : head.Wf) {q : Spot ν} (h : q.On head) {chars : List UInt8}
    {k : ℕ}
    (hscan : nextChild q.node 0 ((q.key ++ chars).getLastD 0) =
      if k < q.node.children.length then some k else none)
    (hplain : k < q.node.children.length → q.node.iscompr = false)
    (hlen : chars.length = q.node.todel) :
    ∃ r, nextStepLoop (head.nodes + 1) { q with key := q.key ++ chars } true = some r ∧
      Forward head (q.behindFrom k) r := by
  have hdel : delChars (q.key ++ chars) q.node.todel = q.key := by
    rw [delChars, List.length_append, hlen, Nat.add_sub_cancel, List.take_left]
  rw [nextStepLoop, if_neg fun h => Bool.true_eq_false.mp h.1, up, if_pos rfl, hscan, hdel]
  refine Reaches.finish hhead ?_
  by_cases hk : k < q.node.children.length
  · rw [if_pos hk]
    exact h.reaches hhead hk (hplain hk)
  · rw [if_neg hk, Spot.behindFrom_ge (Nat.le_of_not_lt hk), h.key_eq]
    exact upLoop_spec hhead h.linked

end

/-! ## The previous key -/

section

variable {n : RaxNode ν}

/-- The bytes to the last child. -/
theorem edge_last (hwf : n.Wf) (hpos : 0 < n.children.length) :
    (if n.iscompr then n.data else [n.data.getD (n.size - 1) 0]) =
      (edges n.iscompr n.data).getD (n.numChildren - 1) [] := by
  have hnum := hwf.numChildren_eq
  rw [← hwf.edge_eq (show n.numChildren - 1 < n.children.length by omega), RaxNode.numChildren]
  cases n.iscompr <;> rfl

theorem prevScan_eq {data : List UInt8} {c : UInt8} {m k : ℕ} (hm : m ≤ k)
    (hge : ∀ j, m ≤ j → j < k → ¬ data.getD j 0 < c) (hlt : m ≠ 0 → data.getD (m - 1) 0 < c) :
    prevScan data c k = if m = 0 then none else some (m - 1) := by
  induction k with
  | zero => rw [Nat.le_zero.mp hm, if_pos rfl, prevScan]
  | succ k ih =>
    rw [prevScan]
    rcases Nat.lt_or_eq_of_le hm with hmk | rfl
    · rw [if_neg (hge k (Nat.le_of_lt_succ hmk) (Nat.lt_succ_self k))]
      exact ih (Nat.le_of_lt_succ hmk) fun j hj hjk => hge j hj (by omega)
    · have hlast := hlt (Nat.succ_ne_zero k)
      rw [Nat.add_sub_cancel] at hlast
      rw [if_pos hlast, if_neg (Nat.succ_ne_zero k), Nat.add_sub_cancel]

theorem prevChild_compressed (hc : n.iscompr = true) (least : ℕ) (c : UInt8) :
    prevChild n least c = none := by
  rw [prevChild, if_neg fun h => Bool.false_ne_true (h.1.symm.trans hc)]

theorem prevChild_plain (hc : n.iscompr = false) {c : UInt8} {least m : ℕ} (hm : m ≤ n.data.length)
    (hge : ∀ x ∈ n.data.drop m, ¬ x < c) (hlt : ∀ x ∈ n.data.take m, x < c)
    (hleast : m ≠ 0 → least < n.size) :
    prevChild n least c = if m = 0 then none else some (m - 1) := by
  have hscan : prevScan n.data c n.size = if m = 0 then none else some (m - 1) := by
    refine prevScan_eq hm (fun j hj hjn => ?_) fun h0 => ?_
    · have hjn : j < n.data.length := hjn
      rw [List.getD_eq_getElem _ _ hjn]
      exact hge _ (List.mem_drop_iff_getElem.mpr ⟨j - m, by omega, by congr 1; omega⟩)
    · have hlt' : m - 1 < n.data.length := by omega
      rw [List.getD_eq_getElem _ _ hlt']
      exact hlt _ (List.mem_take_iff_getElem.mpr ⟨m - 1, by omega, rfl⟩)
  rw [prevChild]
  by_cases h0 : m = 0
  · rw [hscan, if_pos h0, ite_self]
  · rw [if_pos ⟨hc, hleast h0⟩, hscan]

/-- Seen from a child, the scan ends at the one before it. -/
theorem prevChild_parent (hwf : n.Wf) {i : ℕ} (hi : i < n.children.length) (key : List UInt8) :
    prevChild n 1 ((key ++ (edges n.iscompr n.data).getD i []).getLastD 0) =
      if i = 0 then none else some (i - 1) := by
  cases hc : n.iscompr with
  | true =>
    obtain ⟨-, -, hone⟩ := hwf.shape.compressed hc
    rw [prevChild_compressed hc, if_pos (by omega)]
  | false =>
    obtain ⟨hs, hlen⟩ := hwf.shape.plain hc
    have hi' : i < n.data.length := hlen ▸ hi
    rw [← hc, getLastD_edge hc hi', prevChild_plain hc hi'.le]
    · intro x hx
      obtain ⟨j, hj, rfl⟩ := List.mem_drop_iff_getElem.mp hx
      rcases Nat.eq_zero_or_pos j with rfl | hpos
      · exact lt_irrefl _
      · exact lt_asymm (List.pairwise_iff_getElem.mp hs i (i + j) hi' (by omega) (by omega))
    · intro x hx
      obtain ⟨j, hj, rfl⟩ := List.mem_take_iff_getElem.mp hx
      exact List.pairwise_iff_getElem.mp hs j i _ hi' (by omega)
    · intro h0
      rw [RaxNode.size]
      omega

end

section

variable {head : RaxNode ν} {p : Spot ν}

theorem Spot.On.aboveUpTo_length (hhead : head.Wf) (h : p.On head) :
    p.aboveUpTo p.node.children.length = p.above ++ prefixed p.key p.node.entries := by
  have hlen := (h.linked.spec hhead).1.shape.length_edges
  rw [Spot.aboveUpTo, RaxNode.upToChild, List.take_length, ← hlen, List.take_length,
    ← RaxNode.entries_eq, h.key_eq]

/-- Down to the last child until there is none. -/
theorem greatestLoop_spec (hhead : head.Wf) {fuel : ℕ} {q : Spot ν} (h : q.On head)
    (ha : q.node.Alive) (hfuel : q.node.nodes ≤ fuel) :
    (greatestLoop fuel q).On head ∧ ∃ v, (greatestLoop fuel q).node.key = some v ∧
      q.above ++ prefixed q.key q.node.entries =
        (greatestLoop fuel q).above ++ [((greatestLoop fuel q).key, v)] := by
  induction fuel generalizing q with
  | zero =>
    rw [q.node.nodes_eq] at hfuel
    omega
  | succ fuel ih =>
    obtain ⟨hwf, -⟩ := h.linked.spec hhead
    rw [greatestLoop]
    split
    · rename_i hsize
      obtain ⟨hdata, -, hnone⟩ := hwf.of_size hsize
      obtain ⟨v, hv⟩ := Option.isSome_iff_exists.mp (ha.resolve_right (not_not.mpr hdata))
      refine ⟨h, v, hv, ?_⟩
      rw [RaxNode.entries_eq, hnone, hv, own, prefixed_append, prefixed_cons, List.append_nil]
      generalize edges q.node.iscompr q.node.data = ps
      cases ps <;> rfl
    · rename_i hsize
      have hpos : 0 < q.node.children.length := Nat.pos_of_ne_zero fun h0 =>
        hsize (congrArg List.length (hwf.shape.pos.mpr h0))
      have hlast : q.node.numChildren - 1 < q.node.children.length := by
        rw [hwf.numChildren_eq]
        omega
      have hedge := edge_last hwf hpos
      have hsucc := h.aboveUpTo_succ hhead hlast hedge
      have hdown := h.down hlast hedge
      rw [show q.node.numChildren - 1 + 1 = q.node.children.length by
        rw [hwf.numChildren_eq]
        omega, h.aboveUpTo_length hhead] at hsucc
      have hlt := hwf.child_nodes_lt hlast
      obtain ⟨hon, v, hv, heq⟩ := ih hdown
        ((hdown.linked.spec hhead).2.1 (List.cons_ne_nil _ _))
        (show (q.node.child (q.node.numChildren - 1)).nodes ≤ fuel by omega)
      exact ⟨hon, v, hv, hsucc.trans heq⟩

/-- At a place, the keys up to a child come first, then the loop goes on above it. -/
theorem prevTurn_spec (hhead : head.Wf) {q : Spot ν} (h : q.On head) {least k fuel : ℕ}
    {c : UInt8} (hscan : prevChild q.node least c = if k = 0 then none else some (k - 1))
    (hk : k ≤ q.node.children.length) (hplain : k ≠ 0 → q.node.iscompr = false)
    (hrest : ∃ r, prevStepLoop fuel q false = some r ∧ Backward head q.above r) :
    ∃ r, (if (prevTurn q least c).node.iskey then some (some (prevTurn q least c))
        else prevStepLoop fuel (prevTurn q least c) false) = some r ∧
      Backward head (q.aboveUpTo k) r := by
  rw [prevTurn, hscan]
  by_cases h0 : k = 0
  · rw [if_pos h0, h0]
    simp only [Spot.aboveUpTo, RaxNode.upToChild_zero, ← h.key_eq]
    split
    · rename_i hkey
      obtain ⟨v, hv⟩ := Option.isSome_iff_exists.mp hkey
      refine ⟨_, rfl, h, v, hv, ?_⟩
      rw [hv, own, prefixed_cons, prefixed_empty, List.append_nil]
    · rename_i hkey
      rw [Option.not_isSome_iff_eq_none.mp hkey, own, prefixed_empty, List.append_nil]
      exact hrest
  · rw [if_neg h0]
    have hlt : k - 1 < q.node.children.length := by omega
    have hedge := (h.linked.spec hhead).1.edge_eq hlt
    rw [if_neg (Bool.eq_false_iff.mp (hplain h0))] at hedge
    have hdown := h.down hlt hedge
    obtain ⟨hon, v, hv, heq⟩ := greatestLoop_spec hhead hdown
      ((hdown.linked.spec hhead).2.1 (List.cons_ne_nil _ _)) (Nat.le_refl _)
    have hkey : (raxSeekGreatest (q.down (k - 1) [q.node.data.getD (k - 1) 0])).node.iskey = true :=
      Option.isSome_iff_exists.mpr ⟨v, hv⟩
    refine ⟨_, if_pos hkey, hon, v, hv, ?_⟩
    rw [show k = k - 1 + 1 by omega, h.aboveUpTo_succ hhead hlt hedge]
    exact heq

theorem prevStepLoop_of_stack (hhead : head.Wf) {fuel : ℕ} (h : p.On head)
    (hfuel : p.stack.length < fuel) :
    ∃ r, prevStepLoop fuel p false = some r ∧ Backward head p.above r := by
  induction fuel generalizing p with
  | zero => exact absurd hfuel (Nat.not_lt_zero _)
  | succ fuel ih =>
    obtain ⟨n, ts, key⟩ := p
    cases ts with
    | nil => exact ⟨none, rfl, rfl⟩
    | cons f ts =>
      obtain ⟨⟨hi, -, hl⟩, hkey⟩ := h
      obtain ⟨hwf, -⟩ := hl.spec hhead
      have hon : (⟨f.node, ts, (holeOf ts).path⟩ : Spot ν).On head := ⟨hl, rfl⟩
      have hkey : key = (holeOf (f :: ts)).path := hkey
      subst hkey
      have hscan : prevChild f.node 1 ((holeOf (f :: ts)).path.getLastD 0) = _ :=
        prevChild_parent hwf hi (holeOf ts).path
      have hdel : delChars (holeOf (f :: ts)).path f.node.todel = _ :=
        delChars_edge hwf hi (holeOf ts).path
      have hplain : f.idx ≠ 0 → f.node.iscompr = false := fun h0 =>
        Bool.eq_false_iff.mpr fun hc => by
          obtain ⟨-, -, hone⟩ := hwf.shape.compressed hc
          omega
      obtain ⟨r, hrun, hr⟩ := prevTurn_spec hhead hon hscan hi.le hplain
        (ih hon (Nat.lt_of_succ_lt_succ hfuel))
      refine ⟨r, ?_, hr⟩
      rw [prevStepLoop, if_neg Bool.false_ne_true]
      simp only [hdel]
      exact hrun

theorem length_lt_nodes (hhead : head.Wf) (h : p.On head) : p.stack.length < head.nodes := by
  obtain ⟨-, -, hts, hplug⟩ := h.linked.spec hhead
  have hle : ∀ ts : List (Frame ν), ts.length ≤ asideOf ts := by
    intro ts
    induction ts with
    | nil => exact Nat.le_refl _
    | cons f ts ih =>
      rw [asideOf, List.length_cons, Frame.aside]
      omega
  have hnodes := nodes_plug hts p.node
  rw [hplug, RaxNode.nodes_eq p.node] at hnodes
  have := hle p.stack
  omega

/-- **The previous key**: the loop ends at the last key above the place. -/
theorem prevStepLoop_spec (hhead : head.Wf) (h : p.On head) :
    ∃ r, prevStepLoop (head.nodes + 1) p false = some r ∧ Backward head p.above r :=
  prevStepLoop_of_stack hhead h (Nat.lt_succ_of_lt (length_lt_nodes hhead h))

/-- The previous key up to a child of the place, which is looked for at once. -/
theorem prevStepLoop_noup (hhead : head.Wf) {q : Spot ν} (h : q.On head) {chars : List UInt8}
    {k : ℕ}
    (hscan : prevChild q.node 0 ((q.key ++ chars).getLastD 0) =
      if k = 0 then none else some (k - 1))
    (hk : k ≤ q.node.children.length) (hplain : k ≠ 0 → q.node.iscompr = false)
    (hlen : chars.length = q.node.todel) :
    ∃ r, prevStepLoop (head.nodes + 1) { q with key := q.key ++ chars } true = some r ∧
      Backward head (q.aboveUpTo k) r := by
  have hdel : delChars (q.key ++ chars) q.node.todel = q.key := by
    rw [delChars, List.length_append, hlen, Nat.add_sub_cancel, List.take_left]
  rw [prevStepLoop, if_pos rfl]
  simp only [hdel]
  exact prevTurn_spec hhead h hscan hk hplain
    (prevStepLoop_of_stack hhead h (length_lt_nodes hhead h))

end

end Redis

end LibNax
