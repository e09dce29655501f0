import LibNax.Redis.Rax.Insert

/-!
# Removal from a radix tree

A key is removed where its walk stops.  Nodes that lead to no key any more go, up to the first one
that is needed, and a node that is left with one child and no key is joined with its neighbours of
the same kind.

* `raxRemoveChild`, `cleanupLoop` — a child goes, and the nodes that were there for it.
* `climb`, `scanLoop`, `mergeLoop`, `compress` — the nodes that can be joined.
* `raxRemove` — the whole.
* `cleanup_spec`, `compress_spec` — the tree spells the same before and after.
* `raxRemove_spec` — the removal returns, and removes the key.
-/

set_option autoImplicit false

namespace LibNax

namespace Redis

open Lib Lexicon

variable {ν : Type}

/-- A node that is a key, or does not have one child. -/
def RaxNode.stays (n : RaxNode ν) : Bool := n.iskey || (!n.iscompr && decide (n.size ≠ 1))

/-- The child that `raxNodeLastChildPtr` points to. -/
def RaxNode.lastChild (n : RaxNode ν) : RaxNode ν := n.children.getLastD raxNewNode

/-- `raxRemoveChild`, of the child at an index. -/
def raxRemoveChild (parent : RaxNode ν) (i : ℕ) : RaxNode ν :=
  if parent.iscompr then .mk parent.key false [] []
  else .mk parent.key false (parent.data.take i ++ parent.data.drop (i + 1))
    (parent.children.take i ++ parent.children.drop (i + 1))

/-- The loop that frees a node without children and those that were there for it: the parent where
it stops, the ones above, and `numnodes`. -/
def cleanupLoop : Frame ν → List (Frame ν) → ℕ → Frame ν × List (Frame ν) × ℕ
  | f, [], numnodes => (f, [], numnodes - 1)
  | f, g :: ts, numnodes =>
    if f.node.stays then (f, g :: ts, numnodes - 1) else cleanupLoop g ts (numnodes - 1)

/-- The loop that goes up to the first node that can be joined: the node, and its parents. -/
def climb : RaxNode ν → List (Frame ν) → RaxNode ν × List (Frame ν)
  | h, [] => (h, [])
  | h, f :: ts => if f.node.stays then (h, f :: ts) else climb (f.node.setChild f.idx h) ts

/-- The loop that counts the nodes that can be joined, and their bytes. -/
def scanLoop : ℕ → RaxNode ν → ℕ → ℕ → ℕ × ℕ
  | 0, _, nodes, comprsize => (nodes, comprsize)
  | fuel + 1, h, nodes, comprsize =>
    if h.size = 0 then (nodes, comprsize)
    else
      let h := h.lastChild
      if h.stays then (nodes, comprsize)
      else if comprsize + h.size > raxNodeMaxSize then (nodes, comprsize)
      else scanLoop fuel h (nodes + 1) (comprsize + h.size)

/-- The loop that joins them: the bytes, the node behind them, and `numnodes`. -/
def mergeLoop : ℕ → RaxNode ν → List UInt8 → ℕ → List UInt8 × RaxNode ν × ℕ
  | 0, h, data, numnodes => (data, h, numnodes)
  | fuel + 1, h, data, numnodes =>
    if h.size = 0 then (data, h, numnodes)
    else if h.lastChild.stays then (data ++ h.data, h.lastChild, numnodes - 1)
    else mergeLoop fuel h.lastChild (data ++ h.data) (numnodes - 1)

/-- The recompression at the end of `raxRemove`: the head of the tree, and `numnodes`.  It is `none`
where more bytes are copied into the new node than it was allocated for. -/
def compress (h : RaxNode ν) (ts : List (Frame ν)) (numnodes : ℕ) : Option (RaxNode ν × ℕ) :=
  let (start, ts) := climb h ts
  let (nodes, comprsize) := scanLoop start.nodes start 1 start.size
  if nodes > 1 then
    let (data, h, numnodes) := mergeLoop start.nodes start [] (numnodes + 1)
    if data.length > comprsize then none else some (plug ts (.mk none true data [h]), numnodes)
  else some (plug ts start, numnodes)

/-- `raxRemove`: the tree, what the call returns, and what it stores in `old`. -/
def raxRemove (rax : Rax ν) (s : List UInt8) : Option (Rax ν × Bool × Option (Option ν)) :=
  let w := raxLowWalk rax s
  if w.missed then some (rax, false, none)
  else do
    let h := w.stop.setKey none
    let (head, numnodes) ←
      if h.size = 0 then
        match w.ts with
        | [] => some (h, rax.numnodes)
        | f :: ts =>
          let (f, ts, numnodes) := cleanupLoop f ts rax.numnodes
          let new := raxRemoveChild f.node f.idx
          if new.size = 1 ∧ new.iskey = false then compress new ts numnodes
          else some (plug ts new, numnodes)
      else if h.size = 1 then compress h w.ts rax.numnodes
      else some (plug w.ts h, rax.numnodes)
    return (⟨head, rax.numele - 1, numnodes⟩, true, some (raxGetData w.stop))

/-! ## Nodes with one child and no key -/

/-- A node that is no key and has one child. -/
theorem RaxNode.Wf.single_eq {h : RaxNode ν} (hwf : h.Wf) (hkey : h.key = none)
    (hone : h.children.length = 1) :
    h = .mk none h.iscompr h.data [h.lastChild] ∧ Shape h.iscompr h.data 1 := by
  have hs := hwf.shape
  obtain ⟨key, iscompr, data, children⟩ := h
  obtain ⟨c, rfl⟩ := List.length_eq_one_iff.mp hone
  cases hkey
  exact ⟨rfl, hs⟩

theorem stays_eq_false {h : RaxNode ν} {n : ℕ} (hs : Shape h.iscompr h.data n)
    (h' : h.stays = false) : h.key = none ∧ n = 1 := by
  obtain ⟨hk, hc⟩ := Bool.or_eq_false_iff.mp h'
  refine ⟨Option.not_isSome_iff_eq_none.mp (Bool.eq_false_iff.mp hk), ?_⟩
  cases hcompr : h.iscompr with
  | true => exact (hs.compressed hcompr).2.2
  | false =>
    rw [hcompr] at hc
    rw [(hs.plain hcompr).2]
    exact not_not.mp (of_decide_eq_false hc)

theorem Shape.length_eq_one {iscompr : Bool} {data : List UInt8} {n : ℕ}
    (hs : Shape iscompr data n) (hone : data.length = 1) : n = 1 := by
  cases iscompr with
  | true => exact (hs.compressed rfl).2.2
  | false => exact (hs.plain rfl).2.trans hone

/-- What follows a node with one child. -/
theorem RaxNode.Wf.single {h : RaxNode ν} (hwf : h.Wf) (hkey : h.key = none)
    (hone : h.children.length = 1) : h.lastChild.Wf ∧ h.lastChild.Alive ∧
      h.nodes = h.lastChild.nodes + 1 ∧ h.entries = prefixed h.data h.lastChild.entries := by
  obtain ⟨heq, hs⟩ := hwf.single_eq hkey hone
  have hmem : h.lastChild ∈ h.children := by
    rw [heq]
    exact List.mem_singleton_self _
  refine ⟨hwf.wf _ hmem, hwf.alive _ hmem, ?_, ?_⟩
  · conv_lhs => rw [heq]
    exact Nat.add_comm _ _
  · conv_lhs => rw [heq]
    exact entries_only hs

/-- A parent that has no other child and is no key spells nothing besides. -/
theorem Frame.Wf.single {f : Frame ν} (hf : f.Wf) (hstays : f.node.stays = false) :
    f.hole.fill [] = [] ∧ f.aside = 1 ∧ f.node.key = none ∧ f.node.children.length = 1 := by
  obtain ⟨hkey, hone⟩ := stays_eq_false hf.shape hstays
  have hlt := hf.idx_lt
  have hs := hf.shape
  obtain ⟨⟨key, iscompr, data, children⟩, i⟩ := f
  obtain ⟨c, rfl⟩ := List.length_eq_one_iff.mp hone
  cases hkey
  cases Nat.lt_one_iff.mp hlt
  have hhole := hole_only (k := none) (X := c) (show Shape iscompr data 1 from hs)
  exact ⟨congrArg (Hole.fill · []) hhole, rfl, rfl, rfl⟩

/-! ## Nodes that are there for no key -/

/-- The loop frees the nodes that spell nothing. -/
theorem cleanupLoop_spec {f : Frame ν} {ts : List (Frame ν)} {numnodes : ℕ}
    (hts : ∀ g ∈ f :: ts, g.Wf) (hnodes : numnodes = asideOf (f :: ts) + 1) :
    ∃ f' ts' numnodes', cleanupLoop f ts numnodes = (f', ts', numnodes') ∧
      (∀ g ∈ f' :: ts', g.Wf) ∧ numnodes' = asideOf (f' :: ts') ∧
      (holeOf (f' :: ts')).fill [] = (holeOf (f :: ts)).fill [] ∧
      (ts' ≠ [] → f'.node.stays = true) := by
  induction ts generalizing f numnodes with
  | nil => exact ⟨f, [], _, rfl, hts, by rw [hnodes]; rfl, rfl, fun h => absurd rfl h⟩
  | cons g ts ih =>
    rw [cleanupLoop]
    split
    · rename_i hstays
      exact ⟨f, g :: ts, _, rfl, hts, by rw [hnodes]; rfl, rfl, fun _ => hstays⟩
    · rename_i hstays
      have hts' : ∀ f ∈ g :: ts, f.Wf := fun _ hf => hts _ (List.mem_cons_of_mem _ hf)
      obtain ⟨hfill, haside, -, -⟩ :=
        (hts f List.mem_cons_self).single ((Bool.not_eq_true _).mp hstays)
      obtain ⟨f', ts', numnodes', hrun, hwf, hn, hfill', hstays'⟩ :=
        ih hts' (show numnodes - 1 = _ by rw [hnodes, asideOf, haside]; rfl)
      refine ⟨f', ts', numnodes', hrun, hwf, hn, ?_, hstays'⟩
      rw [hfill', holeOf, holeOf, Hole.fill_comp, Hole.fill_comp, holeOf, Hole.fill_comp, hfill]

/-- What is at an index is between what comes before it and what comes after it. -/
theorem exists_at {α : Type} {l : List α} {i : ℕ} (h : i < l.length) :
    ∃ a x b, l = a ++ x :: b ∧ a.length = i :=
  ⟨l.take i, l[i], l.drop (i + 1), by rw [List.getElem_cons_drop, List.take_append_drop],
    List.length_take_of_le h.le⟩

theorem take_append_drop_at {α : Type} {a b : List α} {x : α} {i : ℕ} (ha : a.length = i) :
    (a ++ x :: b).take i ++ (a ++ x :: b).drop (i + 1) = a ++ b := by
  rw [← List.eraseIdx_eq_take_drop_succ, List.eraseIdx_append_of_length_le ha.le, ha, Nat.sub_self,
    List.eraseIdx_cons_zero]

theorem raxRemoveChild_plain {key : Option (Option ν)} {a b : List UInt8} {c : UInt8}
    {A B : List (RaxNode ν)} {X : RaxNode ν} {i : ℕ} (ha : a.length = i) (hA : A.length = i) :
    raxRemoveChild (.mk key false (a ++ c :: b) (A ++ X :: B)) i =
      .mk key false (a ++ b) (A ++ B) := by
  simp only [raxRemoveChild, RaxNode.iscompr_mk, RaxNode.key_mk, RaxNode.data_mk,
    RaxNode.children_mk, take_append_drop_at ha, take_append_drop_at hA]
  rfl

/-- The bytes of a plain node with one less. -/
theorem Shape.removeChild {a b : List UInt8} {c : UInt8} {m n : ℕ}
    (hs : Shape false (a ++ c :: b) (m + (n + 1))) : Shape false (a ++ b) (m + n) := by
  obtain ⟨hsorted, hlen⟩ := hs.plain rfl
  obtain ⟨hl, hr, hcross⟩ := List.pairwise_append.mp hsorted
  refine ⟨fun h => absurd h Bool.false_ne_true, fun _ => ⟨?_, ?_⟩⟩
  · exact List.pairwise_append.mpr ⟨hl, (List.pairwise_cons.mp hr).2,
      fun x hx y hy => hcross x hx y (List.mem_cons_of_mem _ hy)⟩
  · simp only [List.length_append, List.length_cons] at hlen ⊢
    omega

/-- The other children are still there. -/
theorem others_of_getElem? {α : Type} {A B : List α} {X : α} {i : ℕ} {P : α → Prop}
    (hA : A.length = i) (h : ∀ k d, (A ++ X :: B)[k]? = some d → k ≠ i → P d) :
    ∀ d ∈ A ++ B, P d := by
  intro d hd
  rcases List.mem_append.mp hd with hd | hd
  · obtain ⟨k, hk, rfl⟩ := List.mem_iff_getElem.mp hd
    exact h k _ (by rw [List.getElem?_append_left hk, List.getElem?_eq_getElem hk]) (by omega)
  · obtain ⟨k, hk, rfl⟩ := List.mem_iff_getElem.mp hd
    refine h (i + 1 + k) _ ?_ (by omega)
    rw [List.getElem?_append_right (by omega), hA, show i + 1 + k - i = k + 1 by omega,
      List.getElem?_cons_succ, List.getElem?_eq_getElem hk]

/-- A child is taken out of its parent. -/
theorem raxRemoveChild_spec {f : Frame ν} (hf : f.Wf) :
    (raxRemoveChild f.node f.idx).Wf ∧ (raxRemoveChild f.node f.idx).key = f.node.key ∧
      (raxRemoveChild f.node f.idx).nodes = f.aside ∧
      (raxRemoveChild f.node f.idx).entries = f.hole.fill [] ∧
      (f.node.stays = true → (raxRemoveChild f.node f.idx).Alive) := by
  obtain ⟨hs, hlt, hothers⟩ := hf
  obtain ⟨⟨key, iscompr, data, children⟩, i⟩ := f
  cases iscompr with
  | true =>
    obtain ⟨-, -, hone⟩ := hs.compressed rfl
    obtain ⟨c, rfl⟩ := List.length_eq_one_iff.mp hone
    cases Nat.lt_one_iff.mp hlt
    have hhole := hole_only (k := key) (X := c) (show Shape true data 1 from hs)
    refine ⟨wf_raxNewNode.setKey key, rfl, rfl, ?_, fun h => ?_⟩
    · rw [hhole, Hole.fill, List.append_nil]
      rfl
    · rcases Bool.or_eq_true_iff.mp h with hk | hc
      · exact .inl hk
      · exact absurd hc Bool.false_ne_true
  | false =>
    obtain ⟨-, hlen⟩ := hs.plain rfl
    simp only [RaxNode.data_mk, RaxNode.children_mk] at hs hlen hlt hothers
    obtain ⟨a, c, b, rfl, ha⟩ := exists_at (hlen ▸ hlt)
    obtain ⟨A, X, B, rfl, hA⟩ := exists_at hlt
    have hall := others_of_getElem? hA hothers
    rw [List.length_append, List.length_cons] at hs
    have hs' := hs.removeChild
    rw [← List.length_append] at hs'
    simp only [raxRemoveChild_plain ha hA]
    refine ⟨.mk hs' (fun d hd => (hall d hd).1) (fun d hd => (hall d hd).2), rfl, ?_,
      (fill_between ha hA).symm, fun h => ?_⟩
    · rw [aside_between hA, RaxNode.nodes_eq, RaxNode.children_mk, nodesUnder_append]
      omega
    · rcases Bool.or_eq_true_iff.mp h with hk | hc
      · exact .inl hk
      · refine .inr fun hnil => ?_
        obtain ⟨rfl, rfl⟩ := List.append_eq_nil_iff.mp hnil
        exact of_decide_eq_true ((Bool.and_eq_true _ _).mp hc).2 rfl

/-! ## Nodes that can be joined -/

theorem RaxNode.Wf.data_ne_nil {h : RaxNode ν} (hwf : h.Wf) (hone : h.children.length = 1) :
    h.data ≠ [] := fun hd => by
  have h0 := hwf.shape.pos.mp hd
  omega

theorem climb_spec {h : RaxNode ν} {ts : List (Frame ν)} (hwf : h.Wf) (hkey : h.key = none)
    (hone : h.children.length = 1) (hts : ∀ f ∈ ts, f.Wf) :
    ∃ h' ts', climb h ts = (h', ts') ∧ h'.Wf ∧ h'.key = none ∧ h'.children.length = 1 ∧
      (∀ f ∈ ts', f.Wf) ∧ plug ts' h' = plug ts h := by
  induction ts generalizing h with
  | nil => exact ⟨h, [], rfl, hwf, hkey, hone, hts, rfl⟩
  | cons f ts ih =>
    rw [climb]
    split
    · exact ⟨h, f :: ts, rfl, hwf, hkey, hone, hts, rfl⟩
    · rename_i hstays
      have hf := hts f List.mem_cons_self
      obtain ⟨-, -, hkey', hone'⟩ := hf.single ((Bool.not_eq_true _).mp hstays)
      exact ih (hf.wf_setChild hwf (.inr (hwf.data_ne_nil hone))).1 hkey'
        ((List.length_set).trans hone') fun g hg => hts g (List.mem_cons_of_mem _ hg)

/-- The two loops go down to the same node; the second joins the bytes that the first one counts,
unless there are too many. -/
theorem mergeLoop_spec {fuel : ℕ} {h : RaxNode ν} (hfuel : h.nodes ≤ fuel) (hwf : h.Wf)
    (hkey : h.key = none) (hone : h.children.length = 1) :
    ∃ data next k, next.Wf ∧ next.Alive ∧ h.entries = prefixed data next.entries ∧
      h.nodes = next.nodes + (k + 1) ∧ h.size ≤ data.length ∧
      (∀ acc n, mergeLoop fuel h acc n = (acc ++ data, next, n - (k + 1))) ∧
      ∀ nodes comprsize, comprsize + data.length ≤ raxNodeMaxSize + h.size →
        scanLoop fuel h nodes comprsize = (nodes + k, comprsize + (data.length - h.size)) := by
  induction fuel generalizing h with
  | zero =>
    rw [h.nodes_eq] at hfuel
    omega
  | succ fuel ih =>
    have hsize : h.size ≠ 0 := fun h0 =>
      hwf.data_ne_nil hone (List.length_eq_zero_iff.mp h0)
    obtain ⟨hwf', ha', hnodes, hentries⟩ := hwf.single hkey hone
    by_cases hstays : h.lastChild.stays = true
    · refine ⟨h.data, h.lastChild, 0, hwf', ha', hentries, hnodes, Nat.le_refl _,
        fun acc n => ?_, fun nodes comprsize _ => ?_⟩
      · rw [mergeLoop, if_neg hsize, if_pos hstays]
      · simp only [scanLoop, if_neg hsize, if_pos hstays]
        rw [RaxNode.size, Nat.sub_self]
        rfl
    · obtain ⟨hkey', hone'⟩ := stays_eq_false hwf'.shape ((Bool.not_eq_true _).mp hstays)
      obtain ⟨data, next, k, hnwf, hna, hnentries, hnnodes, hle, hmerge, hscan⟩ :=
        ih (by omega) hwf' hkey' hone'
      refine ⟨h.data ++ data, next, k + 1, hnwf, hna, ?_, by omega, ?_, fun acc n => ?_,
        fun nodes comprsize hmax => ?_⟩
      · rw [hentries, hnentries, prefixed_prefixed]
      · rw [List.length_append]
        exact Nat.le_add_right _ _
      · rw [mergeLoop, if_neg hsize, if_neg hstays, hmerge, List.append_assoc, Nat.sub_sub,
          Nat.add_comm 1]
      · rw [List.length_append] at hmax ⊢
        rw [RaxNode.size] at hmax
        have hfit : ¬ comprsize + h.lastChild.size > raxNodeMaxSize := by omega
        simp only [scanLoop, if_neg hsize, if_neg hstays, if_neg hfit]
        rw [hscan _ _ (by omega), RaxNode.size, RaxNode.size]
        rw [RaxNode.size] at hle
        congr 1 <;> omega

/-- The recompression stays within the node that was allocated, and leaves what the tree spells, if
no key is too long for a node. -/
theorem compress_spec {h : RaxNode ν} {ts : List (Frame ν)} {numnodes : ℕ} (hwf : h.Wf)
    (hkey : h.key = none) (hone : h.children.length = 1) (hts : ∀ f ∈ ts, f.Wf)
    (hnodes : numnodes = (plug ts h).nodes)
    (hmax : ∀ e ∈ (plug ts h).entries, e.1.length ≤ raxNodeMaxSize) :
    ∃ head numnodes', compress h ts numnodes = some (head, numnodes') ∧ head.Wf ∧
      head.entries = (plug ts h).entries ∧ numnodes' = head.nodes := by
  obtain ⟨start, us, hclimb, hwf, hkey, hone, hus, hplug⟩ := climb_spec hwf hkey hone hts
  obtain ⟨data, next, k, hnwf, hna, hentries, hnnodes, hle, hmerge, hscan⟩ :=
    mergeLoop_spec (Nat.le_refl _) hwf hkey hone
  have hne : data ≠ [] := by
    rintro rfl
    exact hwf.data_ne_nil hone (List.length_eq_zero_iff.mp (Nat.le_zero.mp hle))
  rw [← hplug] at hnodes hmax
  -- the bytes are part of a key
  have hlen : data.length ≤ raxNodeMaxSize := by
    obtain ⟨e, he⟩ := List.exists_mem_of_ne_nil _ (hnwf.entries_ne_nil hna)
    have hmem : ((holeOf us).path ++ (data ++ e.1), e.2) ∈ (plug us start).entries := by
      rw [entries_plug hus, hentries]
      exact List.mem_append_left _ (List.mem_append_right _
        (mem_prefixed.mpr ⟨_, rfl, mem_prefixed.mpr ⟨_, rfl, he⟩⟩))
    have hkeylen := hmax _ hmem
    simp only [List.length_append] at hkeylen
    omega
  have hs : Shape true data 1 :=
    ⟨fun _ => ⟨hne, hlen, rfl⟩, fun h => absurd h Bool.true_eq_false.mp⟩
  simp only [compress, hclimb, hscan 1 start.size (by omega)]
  split
  · rename_i hk
    simp only [hmerge, List.nil_append]
    rw [if_neg (by omega)]
    refine ⟨_, _, rfl, ?_, ?_, ?_⟩
    · exact wf_plug hus (wf_only hs hnwf hna) fun _ => .inr hne
    · rw [← hplug, entries_plug hus, entries_plug hus, entries_only hs, hentries]
      rfl
    · rw [hnodes, nodes_plug hus, nodes_plug hus, hnnodes, RaxNode.nodes, nodesUnder, nodesUnder]
      omega
  · exact ⟨_, _, rfl, wf_plug hus hwf fun _ => .inr (hwf.data_ne_nil hone), by rw [hplug], hnodes⟩

/-! ## The whole -/

/-- A node that is no key any more. -/
theorem RaxNode.Wf.remove_nil {h : RaxNode ν} (hwf : h.Wf) :
    remove [] h.entries = (h.setKey none).entries := by
  rw [entries_setKey, h.entries_eq, remove_append_right hwf.under_gt]
  cases h.key with
  | none => rfl
  | some v => rfl

/-- The tree once the node where the walk stopped is no key any more. -/
theorem Walked.remove_eq {head : RaxNode ν} {s : List UInt8} {w : Walk ν} (h : Walked head s w)
    (hm : ¬ w.missed) : remove s head.entries = (plug w.ts (w.stop.setKey none)).entries := by
  have hseq := (h.found hm).1
  rw [← List.append_nil (holeOf w.ts).path] at hseq
  rw [entries_plug h.frames, ← h.wf.remove_nil, ← (sound_holeOf h.frames).remove_fill,
    ← entries_plug h.frames, h.head_eq, ← hseq]

theorem Walked.nodes_eq {head : RaxNode ν} {s : List UInt8} {w : Walk ν} (h : Walked head s w) :
    head.nodes = (plug w.ts (w.stop.setKey none)).nodes := by
  rw [← h.head_eq, nodes_plug h.frames, nodes_plug h.frames, nodes_setKey]

/-- A node that is no key and has no bytes spells nothing. -/
theorem RaxNode.Wf.leaf {h : RaxNode ν} (hwf : h.Wf) (hkey : h.key = none) (hsize : h.size = 0) :
    h.entries = [] ∧ h.nodes = 1 := by
  obtain ⟨hdata, hplain, hleaf⟩ := hwf.of_size hsize
  obtain ⟨key, iscompr, data, children⟩ := h
  cases hkey
  cases hplain
  cases hdata
  cases hleaf
  exact ⟨rfl, rfl⟩

/-- A child that spells nothing goes, with the nodes that were there for it, and what is left is
joined where it can be. -/
theorem cleanup_spec {f : Frame ν} {ts : List (Frame ν)} {numnodes : ℕ}
    (hts : ∀ g ∈ f :: ts, g.Wf) (hnodes : numnodes = asideOf (f :: ts) + 1)
    (hmax : ∀ e ∈ (holeOf (f :: ts)).fill [], e.1.length ≤ raxNodeMaxSize) :
    ∃ f' ts' numnodes', cleanupLoop f ts numnodes = (f', ts', numnodes') ∧
      let new := raxRemoveChild f'.node f'.idx
      ∃ head n, head.Wf ∧ head.entries = (holeOf (f :: ts)).fill [] ∧ n = head.nodes ∧
        (new.size = 1 ∧ new.iskey = false → compress new ts' numnodes' = some (head, n)) ∧
        (¬(new.size = 1 ∧ new.iskey = false) → (plug ts' new, numnodes') = (head, n)) := by
  obtain ⟨f', ts', numnodes', hrun, hts', hnum, hfill, hstays⟩ := cleanupLoop_spec hts hnodes
  obtain ⟨hwf, -, hrnodes, hrentries, ha⟩ := raxRemoveChild_spec (hts' f' List.mem_cons_self)
  have hus : ∀ g ∈ ts', g.Wf := fun g hg => hts' g (List.mem_cons_of_mem _ hg)
  have hentries : (plug ts' (raxRemoveChild f'.node f'.idx)).entries =
      (holeOf (f :: ts)).fill [] := by
    rw [entries_plug hus, hrentries, ← Hole.fill_comp, ← holeOf, hfill]
  have hnum' : numnodes' = (plug ts' (raxRemoveChild f'.node f'.idx)).nodes := by
    rw [hnum, nodes_plug hus, hrnodes, asideOf]
  refine ⟨f', ts', numnodes', hrun, ?_⟩
  by_cases hcond : (raxRemoveChild f'.node f'.idx).size = 1 ∧
      (raxRemoveChild f'.node f'.idx).iskey = false
  · obtain ⟨head, n, hjoin, hhwf, hhentries, hhnodes⟩ := compress_spec hwf
      (Option.not_isSome_iff_eq_none.mp (Bool.eq_false_iff.mp hcond.2))
      (hwf.shape.length_eq_one hcond.1) hus hnum' (hentries ▸ hmax)
    exact ⟨head, n, hhwf, hhentries.trans hentries, hhnodes, fun _ => hjoin,
      fun h => absurd hcond h⟩
  · exact ⟨_, _, wf_plug hus hwf fun hne => ha (hstays hne), hentries, hnum',
      fun h => absurd h hcond, fun _ => rfl⟩

/-- **`raxRemove`** returns, and removes the key; what it returns is whether the key was there, and
what it stores in `old` its value. -/
theorem raxRemove_spec {rax : Rax ν} (h : rax.Wf)
    (hmax : ∀ e ∈ rax.head.entries, e.1.length ≤ raxNodeMaxSize) (s : List UInt8) :
    ∃ rax', raxRemove rax s =
        some (rax', (find s rax.head.entries).isSome, find s rax.head.entries) ∧ rax'.Wf ∧
      rax'.head.entries = remove s rax.head.entries := by
  have hw := raxLowWalk_spec h.head s
  have hfind := hw.find_eq_ite
  rw [raxRemove]
  generalize raxLowWalk rax s = w at *
  simp only
  split
  · rename_i hmissed
    rw [if_pos hmissed] at hfind
    rw [hfind]
    exact ⟨rax, rfl, h, (remove_of_find_eq_none hfind).symm⟩
  · rename_i hmissed
    rw [if_neg hmissed] at hfind
    have hts := hw.frames
    have hwf' := hw.wf.setKey none
    have hremoved := hw.remove_eq hmissed
    have hnodes := h.numnodes_eq.trans hw.nodes_eq
    have hmax' : ∀ e ∈ (plug w.ts (w.stop.setKey none)).entries,
        e.1.length ≤ raxNodeMaxSize := by
      intro e he
      rw [← hremoved] at he
      exact hmax e (mem_of_mem_remove he)
    have hlen := length_remove (k := s) rax.head.entries
    rw [hfind, Option.isSome_some, if_pos rfl] at hlen
    rw [hfind]
    -- it is enough to get a tree that spells the same
    have hdone : ∀ {p : Option (RaxNode ν × ℕ)} {head : RaxNode ν} {numnodes : ℕ},
        p = some (head, numnodes) → head.Wf →
        head.entries = (plug w.ts (w.stop.setKey none)).entries → numnodes = head.nodes →
        ∃ rax', (do
          let (head, numnodes) ← p
          return ((⟨head, rax.numele - 1, numnodes⟩ : Rax ν), true, some (raxGetData w.stop))) =
            some (rax', (some (raxGetData w.stop)).isSome, some (raxGetData w.stop)) ∧ rax'.Wf ∧
          rax'.head.entries = remove s rax.head.entries := by
      rintro _ head numnodes rfl hwf'' hentries hnum
      refine ⟨⟨head, rax.numele - 1, numnodes⟩, rfl, ⟨hwf'', ?_, hnum⟩,
        hentries.trans hremoved.symm⟩
      rw [hentries, ← hremoved, hlen, h.numele_eq]
    split
    · -- the node is there for nothing
      rename_i hsize
      obtain ⟨hnil, hone⟩ := hwf'.leaf rfl hsize
      rw [nodes_plug hts, hone] at hnodes
      rw [entries_plug hts, hnil] at hdone hmax'
      split
      · rename_i hnone
        rw [hnone] at hdone hnodes
        exact hdone rfl hwf' hnil (hnodes.trans hone.symm)
      · rename_i f ts hsome
        rw [hsome] at hts hnodes hdone hmax'
        obtain ⟨f', ts', numnodes', hrun, head, n, hhwf, hhentries, hhnodes, hjoin, hkeep⟩ :=
          cleanup_spec hts hnodes hmax'
        simp only [hrun]
        split
        · rename_i hcond
          exact hdone (hjoin hcond) hhwf hhentries hhnodes
        · rename_i hcond
          exact hdone (congrArg some (hkeep hcond)) hhwf hhentries hhnodes
    · rename_i hsize
      split
      · rename_i hsize1
        obtain ⟨head, n, hcompress, hhwf, hhentries, hhnodes⟩ := compress_spec hwf' rfl
          (hwf'.shape.length_eq_one hsize1) hts hnodes hmax'
        exact hdone hcompress hhwf hhentries hhnodes
      · refine hdone rfl (wf_plug hts hwf' fun _ => .inr fun hd => ?_) rfl hnodes
        exact hsize (congrArg List.length hd)

end Redis

end LibNax
