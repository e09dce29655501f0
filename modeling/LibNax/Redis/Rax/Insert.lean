import LibNax.Redis.Rax.Walk

/-!
# Insertion into a radix tree

A key is inserted where its walk stops.  A compressed node is split there, at the byte that differs
or at the end of the key, and what is left of the key is added below, as few nodes as will hold it.

* `raxAddChild`, `raxCompressNode` — the two ways to add a node, with their assertions.
* `splitMismatch`, `splitEnd` — the two algorithms that split a compressed node.
* `insertLoop`, `raxGenericInsert` — the missing nodes, and the whole.
* `Grows` — what a node turns into when a child is added, and the place of the child.
* `raxGenericInsert_spec` — the insertion returns, and puts the key.
-/

set_option autoImplicit false

namespace LibNax

namespace Redis

open Lib Lexicon

variable {ν : Type}

/-- `raxAddChild`: the node with a new child, and the index of the child. -/
def raxAddChild (n : RaxNode ν) (c : UInt8) : Option (RaxNode ν × ℕ) :=
  if n.iscompr then none
  else
    let pos := n.data.findIdx (· > c)
    some (.mk n.key false (n.data.take pos ++ c :: n.data.drop pos)
      (n.children.take pos ++ raxNewNode :: n.children.drop pos), pos)

/-- `raxCompressNode`: the node with a new child below a string. -/
def raxCompressNode (n : RaxNode ν) (s : List UInt8) : Option (RaxNode ν) :=
  if n.size = 0 ∧ n.iscompr = false then some (.mk n.key true s [raxNewNode]) else none

/-- A node with one child, which is compressed if it has more than one byte. -/
def chainNode (key : Option (Option ν)) (data : List UInt8) (next : RaxNode ν) : RaxNode ν :=
  .mk key (decide (data.length > 1)) data [next]

/-- Algorithm 1: the node that a compressed node is split into at a byte that differs, its parents,
and how many nodes there are more. -/
def splitMismatch (h : RaxNode ν) (j : ℕ) (ts : List (Frame ν)) : RaxNode ν × List (Frame ν) × ℕ :=
  let next := h.child 0
  let post := h.data.drop (j + 1)
  let (child, n) := if post ≠ [] then (chainNode none post next, 1) else (next, 0)
  let splitnode := fun key => chainNode key [h.data.getD j 0] child
  if j = 0 then (splitnode h.key, ts, n)
  else (splitnode none, ⟨chainNode h.key (h.data.take j) (splitnode none), 0⟩ :: ts, n + 1)

/-- Algorithm 2: the node that a compressed node is split into at the end of the key. -/
def splitEnd (h : RaxNode ν) (j : ℕ) (data : Option ν) : RaxNode ν :=
  chainNode h.key (h.data.take j) (chainNode (some data) (h.data.drop j) (h.child 0))

/-- The loop that inserts the missing nodes: the last one, its parents, and `numnodes`. -/
def insertLoop : ℕ → RaxNode ν → List UInt8 → List (Frame ν) → ℕ →
    Option (RaxNode ν × List (Frame ν) × ℕ)
  | fuel + 1, h, c :: s, ts, numnodes =>
    if h.size = 0 ∧ s ≠ [] then do
      let comprsize := min (c :: s).length raxNodeMaxSize
      let newh ← raxCompressNode h ((c :: s).take comprsize)
      insertLoop fuel raxNewNode ((c :: s).drop comprsize) (⟨newh, 0⟩ :: ts) (numnodes + 1)
    else do
      let (newh, pos) ← raxAddChild h c
      insertLoop fuel raxNewNode s (⟨newh, pos⟩ :: ts) (numnodes + 1)
  | 0, _, _ :: _, _, _ => none
  | _, h, [], ts, numnodes => some (h, ts, numnodes)

/-- The end of `raxGenericInsert`: the missing nodes are inserted, and the last one gets the
data. -/
def insertTail (rax : Rax ν) (h : RaxNode ν) (s : List UInt8) (ts : List (Frame ν))
    (numnodes : ℕ) (data : Option ν) : Option (Rax ν) := do
  let (h, ts, numnodes) ← insertLoop s.length h s ts numnodes
  return ⟨plug ts (raxSetData h data), if h.iskey then rax.numele else rax.numele + 1, numnodes⟩

/-- `raxGenericInsert`: the tree, what the call returns, and what it stores in `old`.  It is `none`
where an assertion fails. -/
def raxGenericInsert (rax : Rax ν) (s : List UInt8) (data : Option ν) (overwrite : Bool) :
    Option (Rax ν × Bool × Option (Option ν)) :=
  let w := raxLowWalk rax s
  let h := w.stop
  if w.rest = [] ∧ (h.iscompr = false ∨ w.splitpos = 0) then
    if h.iskey then
      some ({ rax with head := if overwrite then plug w.ts (raxSetData h data) else rax.head },
        false, some (raxGetData h))
    else
      some ({ rax with head := plug w.ts (raxSetData h data), numele := rax.numele + 1 }, true,
        none)
  else if h.iscompr ∧ w.rest ≠ [] then do
    let (h, ts, n) := splitMismatch h w.splitpos w.ts
    let rax ← insertTail rax h w.rest ts (rax.numnodes + n) data
    return (rax, true, none)
  else if h.iscompr then
    some (⟨plug w.ts (splitEnd h w.splitpos data), rax.numele + 1, rax.numnodes + 1⟩, true, none)
  else do
    let rax ← insertTail rax h w.rest w.ts rax.numnodes data
    return (rax, true, none)

/-- `raxInsert`. -/
def raxInsert (rax : Rax ν) (s : List UInt8) (data : Option ν) :
    Option (Rax ν × Bool × Option (Option ν)) := raxGenericInsert rax s data true

/-- `raxTryInsert`. -/
def raxTryInsert (rax : Rax ν) (s : List UInt8) (data : Option ν) :
    Option (Rax ν × Bool × Option (Option ν)) := raxGenericInsert rax s data false

/-- What the fields of a tree say. -/
structure Rax.Wf (rax : Rax ν) : Prop where
  head : rax.head.Wf
  numele_eq : rax.numele = rax.head.entries.length
  numnodes_eq : rax.numnodes = rax.head.nodes

/-! ## Adding a child -/

/-- A node has turned into a parent: nothing but the child is new, which is below this word. -/
structure Grows (h : RaxNode ν) (f : Frame ν) (p : List UInt8) : Prop where
  wf : f.Wf
  path_eq : f.hole.path = p
  entries_eq : f.hole.fill [] = h.entries
  aside_eq : f.aside = h.nodes

section

variable {h : RaxNode ν} {f : Frame ν} {p : List UInt8} {ts : List (Frame ν)}

theorem Grows.frames (hg : Grows h f p) (hts : ∀ f ∈ ts, f.Wf) : ∀ g ∈ f :: ts, g.Wf := by
  intro g hmem
  rcases List.mem_cons.mp hmem with rfl | hmem
  · exact hg.wf
  · exact hts g hmem

/-- A new child spells nothing. -/
theorem Grows.entries_plug (hg : Grows h f p) (hts : ∀ f ∈ ts, f.Wf) :
    (plug (f :: ts) (raxNewNode : RaxNode ν)).entries = (plug ts h).entries := by
  rw [Redis.entries_plug (hg.frames hts), Redis.entries_plug hts, holeOf, Hole.fill_comp,
    entries_raxNewNode, hg.entries_eq]

theorem Grows.nodes_plug (hg : Grows h f p) (hts : ∀ f ∈ ts, f.Wf) :
    (plug (f :: ts) (raxNewNode : RaxNode ν)).nodes = (plug ts h).nodes + 1 := by
  rw [Redis.nodes_plug (hg.frames hts), Redis.nodes_plug hts, asideOf, hg.aside_eq,
    nodes_raxNewNode, Nat.add_assoc]

end

/-- A child between others. -/
theorem hole_between {k : Option (Option ν)} {a b : List UInt8} {c : UInt8}
    {A B : List (RaxNode ν)} {X : RaxNode ν} {i : ℕ} (ha : a.length = i) (hA : A.length = i) :
    (⟨.mk k false (a ++ c :: b) (A ++ X :: B), i⟩ : Frame ν).hole =
      ⟨own k ++ under (edges false a) (A.map RaxNode.entries), [c],
        under (edges false b) (B.map RaxNode.entries)⟩ := by
  have hedges : edges false (a ++ c :: b) = edges false a ++ [c] :: edges false b := by
    simp [edges]
  have hlen : (edges false a).length = a.length := List.length_map _
  simp only [Frame.hole, RaxNode.key, RaxNode.iscompr, RaxNode.data, RaxNode.children, hedges]
  rw [← ha, ← hlen, List.take_left, ← List.drop_drop, List.drop_left, hlen, ha, ← hA,
    List.take_left, ← List.drop_drop, List.drop_left, hA, ← ha, ← hlen]
  simp

/-- The node spells what is around the child if the child is taken out of it. -/
theorem fill_between {key : Option (Option ν)} {a b : List UInt8} {c : UInt8}
    {A B : List (RaxNode ν)} {X : RaxNode ν} {i : ℕ} (ha : a.length = i) (hA : A.length = i) :
    (⟨.mk key false (a ++ c :: b) (A ++ X :: B), i⟩ : Frame ν).hole.fill [] =
      (RaxNode.mk key false (a ++ b) (A ++ B)).entries := by
  have hlen : (edges false a).length = (A.map RaxNode.entries).length := by
    rw [List.length_map, hA, ← ha]
    exact List.length_map _
  have hedges : edges false (a ++ b) = edges false a ++ edges false b := List.map_append
  rw [hole_between ha hA, Hole.fill, prefixed_empty, List.append_nil, List.append_assoc,
    ← under_append hlen, ← List.map_append, ← hedges, RaxNode.entries_eq]
  rfl

theorem aside_between {key : Option (Option ν)} {iscompr : Bool} {data : List UInt8}
    {A B : List (RaxNode ν)} {X : RaxNode ν} {i : ℕ} (hA : A.length = i) :
    (⟨.mk key iscompr data (A ++ X :: B), i⟩ : Frame ν).aside =
      1 + nodesUnder A + nodesUnder B := by
  subst hA
  simp only [Frame.aside, RaxNode.children_mk]
  rw [List.take_left, ← List.drop_drop, List.drop_left]
  rfl

theorem mem_between {A B : List (RaxNode ν)} {X c : RaxNode ν} {i : ℕ}
    (hc : (A ++ X :: B)[i]? = some c) (hi : i ≠ A.length) : c ∈ A ++ B := by
  rcases Nat.lt_or_gt_of_ne hi with hlt | hgt
  · rw [List.getElem?_append_left hlt] at hc
    exact List.mem_append_left _ (List.mem_of_getElem? hc)
  · obtain ⟨k, hk⟩ := Nat.exists_eq_add_of_lt hgt
    rw [List.getElem?_append_right (by omega), show i - A.length = k + 1 by omega,
      List.getElem?_cons_succ] at hc
    exact List.mem_append_right _ (List.mem_of_getElem? hc)

theorem raxAddChild_spec {h : RaxNode ν} (hwf : h.Wf) (hplain : h.iscompr = false) {c : UInt8}
    (hc : c ∉ h.data) :
    ∃ newh pos, raxAddChild h c = some (newh, pos) ∧ Grows h ⟨newh, pos⟩ [c] := by
  obtain ⟨hsorted, hlen⟩ := hwf.shape.plain hplain
  obtain ⟨hlt, hgt⟩ := findIdx_gt hsorted hc
  have hpos : h.data.findIdx (· > c) ≤ h.data.length := List.findIdx_le_length
  refine ⟨_, _, by rw [raxAddChild, hplain, if_neg Bool.false_ne_true], ?_⟩
  generalize h.data.findIdx (· > c) = pos at *
  have ha : (h.data.take pos).length = pos := List.length_take_of_le hpos
  have hA : (h.children.take pos).length = pos := List.length_take_of_le (hlen ▸ hpos)
  have hdata : h.data.take pos ++ h.data.drop pos = h.data := List.take_append_drop _ _
  have hchildren : h.children.take pos ++ h.children.drop pos = h.children :=
    List.take_append_drop _ _
  have hhole := hole_between (k := h.key) (c := c) (X := raxNewNode) (b := h.data.drop pos)
    (B := h.children.drop pos) ha hA
  have hpairs := hsorted
  rw [← hdata] at hpairs
  obtain ⟨hl, hr, hcross⟩ := List.pairwise_append.mp hpairs
  constructor
  · refine ⟨⟨fun h => absurd h Bool.false_ne_true, fun _ => ⟨?_, ?_⟩⟩, ?_, fun i d hd hi => ?_⟩
    · refine List.pairwise_append.mpr ⟨hl, List.pairwise_cons.mpr ⟨hgt, hr⟩, fun x hx y hy => ?_⟩
      rcases List.mem_cons.mp hy with rfl | hy
      · exact hlt x hx
      · exact hcross x hx y hy
    · simp only [RaxNode.children_mk, RaxNode.data_mk, List.length_append, List.length_cons, ha, hA,
        List.length_drop, hlen]
    · simp only [RaxNode.children_mk, List.length_append, hA, List.length_cons]
      omega
    · have hmem := mem_between hd (hA.symm ▸ hi)
      rw [hchildren] at hmem
      exact ⟨hwf.wf d hmem, hwf.alive d hmem⟩
  · exact congrArg Hole.path hhole
  · rw [fill_between ha hA, hdata, hchildren, RaxNode.entries_eq, h.entries_eq, hplain]
    rfl
  · have hsum := congrArg nodesUnder hchildren
    rw [nodesUnder_append] at hsum
    rw [aside_between hA, RaxNode.nodes_eq, ← hsum, Nat.add_assoc]

/-- The only child of a node. -/
theorem hole_only {k : Option (Option ν)} {iscompr : Bool} {data : List UInt8} {X : RaxNode ν}
    (hs : Shape iscompr data 1) :
    (⟨.mk k iscompr data [X], 0⟩ : Frame ν).hole = ⟨own k, data, []⟩ := by
  cases iscompr with
  | true => simp [Frame.hole, edges]
  | false =>
    obtain ⟨x, rfl⟩ := List.length_eq_one_iff.mp (hs.plain rfl).2.symm
    simp [Frame.hole, edges]

theorem frame_only {k : Option (Option ν)} {iscompr : Bool} {data : List UInt8} {X : RaxNode ν}
    (hs : Shape iscompr data 1) : (⟨.mk k iscompr data [X], 0⟩ : Frame ν).Wf where
  shape := hs
  idx_lt := Nat.one_pos
  others := fun i c hc hi => by
    rw [RaxNode.children_mk, List.getElem?_singleton, if_neg hi] at hc
    cases hc

theorem raxCompressNode_spec {h : RaxNode ν} (hwf : h.Wf) (hsize : h.size = 0) {s : List UInt8}
    (hs : s ≠ []) (hmax : s.length ≤ raxNodeMaxSize) :
    ∃ newh, raxCompressNode h s = some newh ∧ Grows h ⟨newh, 0⟩ s := by
  obtain ⟨hdata, hplain, hnone⟩ := hwf.of_size hsize
  have hshape : Shape true s 1 :=
    ⟨fun _ => ⟨hs, hmax, rfl⟩, fun hf => absurd hf Bool.true_eq_false.mp⟩
  refine ⟨_, if_pos ⟨hsize, hplain⟩, frame_only hshape, ?_, ?_, ?_⟩
  · rw [hole_only hshape]
  · rw [hole_only hshape, h.entries_eq, hnone, hdata, hplain]
    simp [Hole.fill, edges]
  · rw [h.nodes_eq, hnone]
    rfl

/-! ## Nodes with one child -/

theorem shape_chain {data : List UInt8} (hne : data ≠ []) (hmax : data.length ≤ raxNodeMaxSize) :
    Shape (decide (data.length > 1)) data 1 where
  compressed := fun _ => ⟨hne, hmax, rfl⟩
  plain := fun h => by
    have hpos := List.length_pos_iff.mpr hne
    have hle := of_decide_eq_false h
    obtain ⟨x, rfl⟩ := List.length_eq_one_iff.mp (show data.length = 1 by omega)
    exact ⟨List.pairwise_singleton _ _, rfl⟩

section

variable {key : Option (Option ν)} {data : List UInt8} {next : RaxNode ν}

theorem entries_only {iscompr : Bool} (hs : Shape iscompr data 1) :
    (RaxNode.mk key iscompr data [next]).entries = own key ++ prefixed data next.entries := by
  have h := (frame_only (k := key) (X := next) hs).entries_setChild next
  rw [hole_only hs, Hole.fill, List.append_nil] at h
  exact h

theorem entries_chainNode (hne : data ≠ []) (hmax : data.length ≤ raxNodeMaxSize) :
    (chainNode key data next).entries = own key ++ prefixed data next.entries :=
  entries_only (shape_chain hne hmax)

theorem wf_only {iscompr : Bool} (hs : Shape iscompr data 1) (hwf : next.Wf) (ha : next.Alive) :
    (RaxNode.mk key iscompr data [next]).Wf := by
  refine .mk hs (fun c hc => ?_) fun c hc => ?_
  · rw [List.mem_singleton.mp hc]
    exact hwf
  · rw [List.mem_singleton.mp hc]
    exact ha

theorem wf_chainNode (hne : data ≠ []) (hmax : data.length ≤ raxNodeMaxSize) (hwf : next.Wf)
    (ha : next.Alive) : (chainNode key data next).Wf :=
  wf_only (shape_chain hne hmax) hwf ha

theorem nodes_chainNode : (chainNode key data next).nodes = next.nodes + 1 := Nat.add_comm _ _

end

/-- A compressed node has one child. -/
theorem RaxNode.Wf.compressed_eq {h : RaxNode ν} (hwf : h.Wf) (hcompr : h.iscompr = true) :
    h = .mk h.key true h.data [h.child 0] := by
  obtain ⟨key, iscompr, data, children⟩ := h
  obtain ⟨-, -, hone⟩ := hwf.shape.compressed hcompr
  obtain ⟨c, hc⟩ := List.length_eq_one_iff.mp hone
  cases hcompr
  cases hc
  rfl

theorem RaxNode.Wf.compressed_child {h : RaxNode ν} (hwf : h.Wf) (hcompr : h.iscompr = true) :
    (h.child 0).Wf ∧ (h.child 0).Alive ∧ h.nodes = (h.child 0).nodes + 1 ∧
      h.entries = own h.key ++ prefixed h.data (h.child 0).entries := by
  have heq := hwf.compressed_eq hcompr
  have hone := (hwf.shape.compressed hcompr).2.2
  obtain ⟨hwf', ha', -, -⟩ := hwf.down (hone ▸ Nat.one_pos)
    (show ∀ f ∈ ([] : List (Frame ν)), f.Wf from fun _ h => absurd h List.not_mem_nil)
  have hs : Shape true h.data 1 := by
    have hs := hwf.shape
    rwa [hcompr, hone] at hs
  refine ⟨hwf', ha', ?_, ?_⟩
  · conv_lhs => rw [heq]
    exact Nat.add_comm _ _
  · conv_lhs => rw [heq]
    exact entries_only hs

/-! ## Splitting a compressed node -/

/-- What is behind the byte that differs: a node for the bytes, if there are any. -/
theorem postfix_spec {next : RaxNode ν} {post : List UInt8} (hwf : next.Wf) (ha : next.Alive)
    (hmax : post.length ≤ raxNodeMaxSize) :
    ∃ child n, (if post ≠ [] then (chainNode none post next, 1) else (next, 0)) = (child, n) ∧
      child.Wf ∧ child.Alive ∧ child.nodes = next.nodes + n ∧
      child.entries = prefixed post next.entries := by
  split
  · rename_i hpost
    exact ⟨_, _, rfl, wf_chainNode hpost hmax hwf ha, .inr hpost, nodes_chainNode,
      entries_chainNode hpost hmax⟩
  · rename_i hpost
    rw [not_not.mp hpost, prefixed_nil]
    exact ⟨_, _, rfl, hwf, ha, rfl, rfl⟩

theorem splitMismatch_spec {h : RaxNode ν} {j : ℕ} {ts : List (Frame ν)} (hwf : h.Wf)
    (hcompr : h.iscompr = true) (hj : j < h.data.length) (hts : ∀ f ∈ ts, f.Wf) :
    ∃ h' ts' n, splitMismatch h j ts = (h', ts', n) ∧ h'.Wf ∧ h'.iscompr = false ∧
      h'.data = [h.data[j]] ∧ (∀ f ∈ ts', f.Wf) ∧
      (holeOf ts').path = (holeOf ts).path ++ h.data.take j ∧
      (plug ts' h').nodes = (plug ts h).nodes + n ∧
      (plug ts' h').entries = (plug ts h).entries := by
  obtain ⟨hwf', ha', hnodes, hentries⟩ := hwf.compressed_child hcompr
  obtain ⟨hne, hmax, -⟩ := hwf.shape.compressed hcompr
  have hone : 1 ≤ raxNodeMaxSize := by decide
  have hmax1 : ∀ x : UInt8, [x].length ≤ raxNodeMaxSize := fun _ => hone
  have hsplit : h.data = h.data.take j ++ (h.data[j] :: h.data.drop (j + 1)) := by
    rw [List.getElem_cons_drop, List.take_append_drop]
  have hx : h.data.getD j 0 = h.data[j] := List.getD_eq_getElem _ _ hj
  -- what is behind the byte that differs
  have hpost : (h.data.drop (j + 1)).length ≤ raxNodeMaxSize := by
    rw [List.length_drop]
    omega
  obtain ⟨child, n, hchild, hcwf, hca, hcnodes, hcentries⟩ := postfix_spec hwf' ha' hpost
  have hsnode : ∀ key : Option (Option ν), (chainNode key [h.data[j]] child).entries =
      own key ++ prefixed (h.data[j] :: h.data.drop (j + 1)) (h.child 0).entries := by
    intro key
    rw [entries_chainNode (List.cons_ne_nil _ _) (hmax1 _), hcentries, prefixed_prefixed]
    rfl
  have hswf : ∀ key : Option (Option ν), (chainNode key [h.data[j]] child).Wf :=
    fun _ => wf_chainNode (List.cons_ne_nil _ _) (hmax1 _) hcwf hca
  simp only [splitMismatch, hchild, hx]
  split
  · rename_i h0
    subst h0
    refine ⟨_, _, _, rfl, hswf _, rfl, rfl, hts, ?_, ?_, ?_⟩
    · rw [List.take_zero, List.append_nil]
    · rw [nodes_plug hts, nodes_plug hts, nodes_chainNode, hcnodes, hnodes]
      omega
    · rw [entries_plug hts, entries_plug hts, hsnode, hentries]
      conv_rhs => rw [hsplit]
      rfl
  · rename_i h0
    have htake : h.data.take j ≠ [] := fun hnil => by
      rcases List.take_eq_nil_iff.mp hnil with h0' | h0'
      · exact h0 h0'
      · exact hne h0'
    have hshape := shape_chain htake (by rw [List.length_take]; omega)
    have hframe := frame_only (k := h.key) (X := chainNode none [h.data[j]] child) hshape
    have hhole := hole_only (k := h.key) (X := chainNode none [h.data[j]] child) hshape
    have hts' : ∀ f ∈ (⟨chainNode h.key (h.data.take j) (chainNode none [h.data[j]] child), 0⟩ :
        Frame ν) :: ts, f.Wf := by
      intro f hf
      rcases List.mem_cons.mp hf with rfl | hf
      · exact hframe
      · exact hts f hf
    refine ⟨_, _, _, rfl, hswf _, rfl, rfl, hts', congrArg _ (congrArg Hole.path hhole), ?_, ?_⟩
    · rw [nodes_plug hts', nodes_plug hts, nodes_chainNode, hcnodes, hnodes, asideOf]
      change asideOf ts + 1 + _ = _
      omega
    · rw [entries_plug hts', entries_plug hts, holeOf, Hole.fill_comp]
      congr 1
      rw [chainNode, hhole, Hole.fill, List.append_nil, hsnode, hentries]
      conv_rhs => rw [hsplit]
      exact congrArg _ (prefixed_prefixed _ _ _)

theorem splitEnd_spec {h : RaxNode ν} {j : ℕ} (data : Option ν) (hwf : h.Wf)
    (hcompr : h.iscompr = true) (h0 : j ≠ 0) (hj : j < h.data.length) :
    (splitEnd h j data).Wf ∧ (splitEnd h j data).Alive ∧
      (splitEnd h j data).nodes = h.nodes + 1 ∧
      (splitEnd h j data).entries = put (h.data.take j) data h.entries := by
  obtain ⟨hwf', ha', hnodes, hentries⟩ := hwf.compressed_child hcompr
  obtain ⟨hne, hmax, -⟩ := hwf.shape.compressed hcompr
  have htake : h.data.take j ≠ [] := fun hnil => by
    rcases List.take_eq_nil_iff.mp hnil with h0' | h0'
    · exact h0 h0'
    · exact hne h0'
  have hdrop : h.data.drop j ≠ [] := fun hnil =>
    Nat.not_le.mpr hj (List.drop_eq_nil_iff.mp hnil)
  have htake' : (h.data.take j).length ≤ raxNodeMaxSize := by
    rw [List.length_take]
    omega
  have hdrop' : (h.data.drop j).length ≤ raxNodeMaxSize := by
    rw [List.length_drop]
    omega
  have hshape := shape_chain htake htake'
  have hframe := frame_only (k := h.key) (X := chainNode (some data) (h.data.drop j) (h.child 0))
    hshape
  have hgt : ∀ e ∈ prefixed (h.data.drop j) (h.child 0).entries, [] < e.1 := by
    intro e he
    obtain ⟨w, hw, -⟩ := mem_prefixed.mp he
    rw [hw, nil_lt_iff]
    exact List.append_ne_nil_of_left_ne_nil hdrop w
  have hput := hframe.sound.put_fill [] data (prefixed (h.data.drop j) (h.child 0).entries)
  rw [hole_only hshape, List.append_nil, put_of_gt hgt] at hput
  simp only [Hole.fill, List.append_nil, prefixed_prefixed, List.take_append_drop] at hput
  refine ⟨wf_chainNode htake htake' (wf_chainNode hdrop hdrop' hwf' ha') (.inl rfl),
    .inr htake, ?_, ?_⟩
  · rw [splitEnd, nodes_chainNode, nodes_chainNode, hnodes]
  · rw [splitEnd, entries_chainNode htake htake', entries_chainNode hdrop hdrop', hentries, hput,
      own, List.singleton_append]

/-! ## The missing nodes -/

/-- Setting the data of a node puts the way to it. -/
theorem RaxNode.Wf.put_nil {h : RaxNode ν} (hwf : h.Wf) (data : Option ν) :
    put [] data h.entries = (raxSetData h data).entries := by
  rw [raxSetData, entries_setKey, h.entries_eq, put_append_right hwf.under_gt]
  cases h.key with
  | none => rfl
  | some v => rfl

/-- Setting the data of a node in the tree. -/
theorem entries_plug_raxSetData {h : RaxNode ν} {ts : List (Frame ν)} (hwf : h.Wf)
    (hts : ∀ f ∈ ts, f.Wf) (data : Option ν) :
    (plug ts (raxSetData h data)).entries = put (holeOf ts).path data (plug ts h).entries := by
  have hput := (sound_holeOf hts).put_fill [] data h.entries
  rw [List.append_nil] at hput
  rw [entries_plug hts, entries_plug hts, hput, hwf.put_nil]

theorem insertLoop_spec {fuel : ℕ} {h : RaxNode ν} {s : List UInt8} {ts : List (Frame ν)}
    (numnodes : ℕ) (hfuel : s.length ≤ fuel) (hwf : h.Wf) (hplain : h.iscompr = false)
    (hfirst : ∀ c s', s = c :: s' → c ∉ h.data) (hts : ∀ f ∈ ts, f.Wf) :
    ∃ h' ts' numnodes', insertLoop fuel h s ts numnodes = some (h', ts', numnodes') ∧ h'.Wf ∧
      (∀ f ∈ ts', f.Wf) ∧ (h'.iskey = true → h.iskey = true ∧ s = []) ∧
      (plug ts' h').nodes + numnodes = (plug ts h).nodes + numnodes' ∧
      ∀ data, (plug ts' (raxSetData h' data)).entries =
        put ((holeOf ts).path ++ s) data (plug ts h).entries := by
  induction fuel generalizing h s ts numnodes with
  | zero =>
    cases List.length_eq_zero_iff.mp (Nat.le_zero.mp hfuel)
    refine ⟨h, ts, numnodes, rfl, hwf, hts, fun hk => ⟨hk, rfl⟩, rfl, fun data => ?_⟩
    rw [List.append_nil, entries_plug_raxSetData hwf hts]
  | succ fuel ih =>
    cases s with
    | nil =>
      refine ⟨h, ts, numnodes, rfl, hwf, hts, fun hk => ⟨hk, rfl⟩, rfl, fun data => ?_⟩
      rw [List.append_nil, entries_plug_raxSetData hwf hts]
    | cons c s =>
      have hfuel' : s.length ≤ fuel := Nat.le_of_succ_le_succ hfuel
      -- what is left once the node has grown
      have hrest : ∀ {f : Frame ν} {p q : List UInt8}, Grows h f p → c :: s = p ++ q →
          q.length ≤ fuel → ∃ h' ts' numnodes',
            insertLoop fuel raxNewNode q (f :: ts) (numnodes + 1) = some (h', ts', numnodes') ∧
              h'.Wf ∧ (∀ f ∈ ts', f.Wf) ∧ (h'.iskey = true → h.iskey = true ∧ c :: s = []) ∧
              (plug ts' h').nodes + numnodes = (plug ts h).nodes + numnodes' ∧
              ∀ data, (plug ts' (raxSetData h' data)).entries =
                put ((holeOf ts).path ++ c :: s) data (plug ts h).entries := by
        intro f p q hg hpq hq
        obtain ⟨h', ts', numnodes', hrun, hwf', hts', hkey, hnodes, hentries⟩ :=
          ih (numnodes + 1) hq wf_raxNewNode rfl (fun _ _ _ => List.not_mem_nil)
            (hg.frames hts)
        refine ⟨h', ts', numnodes', hrun, hwf', hts', fun hk => ?_, ?_, fun data => ?_⟩
        · exact absurd (hkey hk).1 Bool.false_ne_true
        · rw [hg.nodes_plug hts] at hnodes
          omega
        · have hpath : (holeOf (f :: ts)).path = (holeOf ts).path ++ p :=
            congrArg ((holeOf ts).path ++ ·) hg.path_eq
          rw [hentries, hg.entries_plug hts, hpath, hpq, List.append_assoc]
      rw [insertLoop]
      split
      · rename_i hif
        obtain ⟨hsize, -⟩ := hif
        have hlen : (c :: s).length = s.length + 1 := rfl
        have hone : 1 ≤ raxNodeMaxSize := by decide
        obtain ⟨newh, hnew, hg⟩ := raxCompressNode_spec hwf hsize
          (s := (c :: s).take (min (c :: s).length raxNodeMaxSize))
          (fun hnil => by
            rcases List.take_eq_nil_iff.mp hnil with h0 | h0
            · omega
            · cases h0)
          (by rw [List.length_take]; omega)
        simp only [hnew, Option.bind_eq_bind, Option.bind_some]
        refine hrest hg (List.take_append_drop _ _).symm ?_
        rw [List.length_drop]
        omega
      · obtain ⟨newh, pos, hnew, hg⟩ := raxAddChild_spec hwf hplain (hfirst c s rfl)
        simp only [hnew, Option.bind_eq_bind, Option.bind_some]
        exact hrest hg rfl hfuel'

/-- The missing nodes are inserted below a node that is not compressed. -/
theorem insertTail_spec (rax : Rax ν) {h : RaxNode ν} {s : List UInt8} {ts : List (Frame ν)}
    (numnodes : ℕ) (data : Option ν) (hwf : h.Wf) (hplain : h.iscompr = false) (hs : s ≠ [])
    (hfirst : ∀ c s', s = c :: s' → c ∉ h.data) (hts : ∀ f ∈ ts, f.Wf)
    (hnumnodes : numnodes = (plug ts h).nodes) :
    ∃ rax', insertTail rax h s ts numnodes data = some rax' ∧ rax'.head.Wf ∧
      rax'.head.entries = put ((holeOf ts).path ++ s) data (plug ts h).entries ∧
      rax'.numele = rax.numele + 1 ∧ rax'.numnodes = rax'.head.nodes := by
  obtain ⟨h', ts', numnodes', hrun, hwf', hts', hkey, hnodes, hentries⟩ :=
    insertLoop_spec numnodes (Nat.le_refl _) hwf hplain hfirst hts
  have hnew : ¬ h'.iskey = true := fun hk => hs (hkey hk).2
  refine ⟨_, by rw [insertTail, hrun]; rfl, ?_, hentries data, if_neg hnew, ?_⟩
  · exact wf_plug hts' (hwf'.setKey _) fun _ => .inl rfl
  · have heq : (plug ts' (raxSetData h' data)).nodes = (plug ts' h').nodes := by
      rw [nodes_plug hts', nodes_plug hts', raxSetData, nodes_setKey]
    change numnodes' = (plug ts' (raxSetData h' data)).nodes
    omega

/-- What an insertion does to the tree: the key is put, unless it is there and not to be
overwritten. -/
def inserted (s : List UInt8) (data : Option ν) (overwrite : Bool)
    (l : List (List UInt8 × Option ν)) : List (List UInt8 × Option ν) :=
  if overwrite = false ∧ (find s l).isSome = true then l else put s data l

/-- What an insertion returns: the tree with the key put, whether the key is new, and in `old` the
value before. -/
def Inserts (rax : Rax ν) (s : List UInt8) (data : Option ν) (overwrite : Bool)
    (r : Option (Rax ν × Bool × Option (Option ν))) : Prop :=
  ∃ rax', r = some (rax', (find s rax.head.entries).isNone, find s rax.head.entries) ∧ rax'.Wf ∧
    rax'.head.entries = inserted s data overwrite rax.head.entries

section

variable {rax : Rax ν} {s : List UInt8} {data : Option ν} {overwrite : Bool}

/-- A new key is one more entry. -/
theorem Rax.Wf.inserts_new (h : rax.Wf) (hnone : find s rax.head.entries = none) {head : RaxNode ν}
    {numnodes : ℕ} (hwf : head.Wf) (hentries : head.entries = put s data rax.head.entries)
    (hnodes : numnodes = head.nodes) :
    Inserts rax s data overwrite (some (⟨head, rax.numele + 1, numnodes⟩, true, none)) := by
  have hlen := length_put (k := s) (v := data) rax.head.entries
  rw [hnone, Option.isSome_none, if_neg Bool.false_ne_true] at hlen
  refine ⟨_, by rw [hnone]; rfl, ⟨hwf, ?_, hnodes⟩, ?_⟩
  · rw [hentries, hlen, h.numele_eq]
  · rw [hentries, inserted, hnone, if_neg fun h => Bool.false_ne_true h.2]

/-- There is a node for the key. -/
theorem Rax.Wf.inserts_here (h : rax.Wf) {w : Walk ν} (hw : Walked rax.head s w)
    (hrest : w.rest = []) (h0 : w.splitpos = 0) :
    Inserts rax s data overwrite (if w.stop.iskey then
      some ({ rax with head := if overwrite then plug w.ts (raxSetData w.stop data) else rax.head },
        false, some (raxGetData w.stop))
    else
      some ({ rax with head := plug w.ts (raxSetData w.stop data), numele := rax.numele + 1 }, true,
        none)) := by
  have hfind := hw.find_eq
  obtain ⟨hhead, hts, hwf, -, hkey, -⟩ := hw
  rw [h0, hrest, List.take_zero, List.append_nil] at hkey hfind
  rw [hwf.find_nil] at hfind
  have hput := entries_plug_raxSetData hwf hts data
  rw [hhead, ← List.append_nil (holeOf w.ts).path, ← hkey] at hput
  have hwf' : (plug w.ts (raxSetData w.stop data)).Wf :=
    wf_plug hts (hwf.setKey _) fun _ => .inl rfl
  have hnodes : rax.numnodes = (plug w.ts (raxSetData w.stop data)).nodes := by
    rw [h.numnodes_eq, ← hhead, nodes_plug hts, nodes_plug hts, raxSetData, nodes_setKey]
  split
  · rename_i hk
    obtain ⟨v, hv⟩ := Option.isSome_iff_exists.mp hk
    rw [hv] at hfind
    have hlen := length_put (k := s) (v := data) rax.head.entries
    rw [hfind, Option.isSome_some, if_pos rfl] at hlen
    have hget : raxGetData w.stop = v := by
      rw [raxGetData, hv]
      rfl
    rw [Inserts, hfind, hget]
    cases overwrite with
    | true =>
      exact ⟨_, rfl, ⟨hwf', h.numele_eq.trans (hlen.symm.trans (congrArg _ hput.symm)), hnodes⟩,
        hput⟩
    | false =>
      refine ⟨_, rfl, ⟨h.head, h.numele_eq, h.numnodes_eq⟩, ?_⟩
      rw [inserted, hfind]
      exact (if_pos ⟨rfl, rfl⟩).symm
  · rename_i hk
    rw [Option.not_isSome_iff_eq_none.mp hk] at hfind
    exact h.inserts_new hfind hwf' hput hnodes

/-- The missing nodes are inserted below a node that is not compressed. -/
theorem Rax.Wf.inserts_tail (h : rax.Wf) (hnone : find s rax.head.entries = none) {n : RaxNode ν}
    {rest : List UInt8} {ts : List (Frame ν)} {numnodes : ℕ} (hwf : n.Wf)
    (hplain : n.iscompr = false) (hrest : rest ≠ [])
    (hfirst : ∀ c s', rest = c :: s' → c ∉ n.data) (hts : ∀ f ∈ ts, f.Wf)
    (hnodes : numnodes = (plug ts n).nodes)
    (hput : put ((holeOf ts).path ++ rest) data (plug ts n).entries =
      put s data rax.head.entries) :
    Inserts rax s data overwrite (do
      let rax ← insertTail rax n rest ts numnodes data
      return (rax, true, none)) := by
  obtain ⟨⟨head, numele, numnodes'⟩, hrun, hwf', hentries, hnum, hnodes'⟩ :=
    insertTail_spec rax numnodes data hwf hplain hrest hfirst hts hnodes
  cases hnum
  rw [hrun]
  exact h.inserts_new hnone hwf' (hentries.trans hput) hnodes'

/-- **`raxGenericInsert`** returns, and puts the key; what it returns is whether the key is new, and
what it stores in `old` the value before. -/
theorem raxGenericInsert_spec (h : rax.Wf) (s : List UInt8) (data : Option ν) (overwrite : Bool) :
    Inserts rax s data overwrite (raxGenericInsert rax s data overwrite) := by
  have hw := raxLowWalk_spec h.head s
  rw [raxGenericInsert]
  generalize raxLowWalk rax s = w at *
  have hfind := hw.find_eq
  have ⟨hhead, hts, hwf, _, hkey, hstop⟩ := hw
  simp only
  split
  · rename_i hhere
    obtain ⟨hrest, hsplit⟩ := hhere
    exact h.inserts_here hw hrest (hsplit.elim (fun hp => (hstop.plain hp).1) id)
  · rename_i hhere
    have hne : w.splitpos ≠ 0 ∨ w.rest ≠ [] := by
      by_contra hc
      obtain ⟨h0, hrest⟩ := not_or.mp hc
      exact hhere ⟨not_not.mp hrest, .inr (not_not.mp h0)⟩
    have hnone := hfind.trans (hstop.find_eq_none hwf hne)
    split
    · -- the key goes on after a byte that differs
      rename_i hmis
      obtain ⟨hcompr, hrest⟩ := hmis
      obtain ⟨hj, hmis⟩ := hstop.compressed hcompr
      obtain ⟨h', ts', n, hsplit, hwf', hplain, hdata, hts', hpath, hnodes, hentries⟩ :=
        splitMismatch_spec hwf hcompr hj hts
      rw [hsplit]
      refine h.inserts_tail hnone hwf' hplain hrest (fun c s' hc hmem => ?_) hts' ?_ ?_
      · rw [hdata] at hmem
        rw [List.mem_singleton.mp hmem] at hc
        exact hmis _ _ hc (List.getElem?_eq_getElem hj)
      · rw [h.numnodes_eq, hnodes, hhead]
      · rw [hpath, List.append_assoc, ← hkey, hentries, hhead]
    · rename_i hmis
      split
      · -- the key ends within a compressed node
        rename_i hcompr
        have hrest : w.rest = [] := not_not.mp fun hr => hmis ⟨hcompr, hr⟩
        have h0 : w.splitpos ≠ 0 := hne.elim id fun hr => absurd hrest hr
        obtain ⟨hwf', ha', hnodes, hentries⟩ :=
          splitEnd_spec data hwf hcompr h0 (hstop.compressed hcompr).1
        have hput := (sound_holeOf hts).put_fill (w.stop.data.take w.splitpos) data w.stop.entries
        rw [hrest, List.append_nil] at hkey
        rw [← hkey, ← entries_plug hts, hhead, ← hentries, ← entries_plug hts] at hput
        refine h.inserts_new hnone (wf_plug hts hwf' fun _ => ha') hput.symm ?_
        rw [h.numnodes_eq, ← hhead, nodes_plug hts, nodes_plug hts, hnodes, Nat.add_assoc]
      · rename_i hcompr
        have hplain := (Bool.not_eq_true _).mp hcompr
        obtain ⟨h0, hfirst⟩ := hstop.plain hplain
        have hrest : w.rest ≠ [] := hne.elim (fun hn => absurd h0 hn) id
        rw [h0, List.take_zero, List.nil_append] at hkey
        refine h.inserts_tail hnone hwf hplain hrest hfirst hts ?_ ?_
        · rw [h.numnodes_eq, hhead]
        · rw [← hkey, hhead]

end

end Redis

end LibNax
