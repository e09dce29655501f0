import Mathlib.Algebra.Group.Nat.Defs
import Mathlib.Data.List.GetD
import LibNax.Lib.Lexicon

/-!
# The nodes of a radix tree

A node of `rax.c` is a key or not, and has either a child for every byte of its data or, when it is
compressed, one child below all of its data.  A node in the tree is modelled by itself and the stack
of its parents, as `raxLowWalk` collects it: what the code stores through a parent link changes the
tree above, which is `plug`.

* `RaxNode`, `Frame`, `plug` — the nodes, a parent on the stack, and the tree above a node.
* `RaxNode.entries` — the keys below a node and their values, as a lexicon.
* `RaxNode.Wf`, `Frame.Wf` — a well-formed node, and a parent that is one but for the child.
* `entries_plug`, `nodes_plug`, `wf_plug` — the tree above a node.
* `RaxNode.Wf.ascending`, `RaxNode.Wf.entries_ne_nil` — the keys are in order, and every node but
  the head leads to one.
-/

set_option autoImplicit false

namespace LibNax

namespace Redis

open Lib Lexicon

scoped instance byteOrder : LinearOrder UInt8 where
  le_refl := UInt8.le_refl
  le_trans := fun _ _ _ => UInt8.le_trans
  lt_iff_le_not_ge := fun a b => by
    rw [UInt8.lt_iff_toNat_lt, UInt8.le_iff_toNat_le, UInt8.le_iff_toNat_le]
    omega
  le_antisymm := fun _ _ => UInt8.le_antisymm
  le_total := UInt8.le_total
  toDecidableLE := inferInstance
  toDecidableEq := inferInstance
  toDecidableLT := inferInstance

variable {ν : Type}

/-- The size that a node can have at most, which has 29 bits. -/
def raxNodeMaxSize : ℕ := 2 ^ 29 - 1

/-- A node.  `key` is `none` unless `iskey` is set, and `some none` if `isnull` is set as well; the
size is the length of `data`. -/
inductive RaxNode (ν : Type) where
  | mk (key : Option (Option ν)) (iscompr : Bool) (data : List UInt8) (children : List (RaxNode ν))

/-- `raxNewNode(0,0)`: a node without children. -/
def raxNewNode : RaxNode ν := .mk none false [] []

namespace RaxNode

def key : RaxNode ν → Option (Option ν)
  | mk key _ _ _ => key

def iscompr : RaxNode ν → Bool
  | mk _ iscompr _ _ => iscompr

def data : RaxNode ν → List UInt8
  | mk _ _ data _ => data

def children : RaxNode ν → List (RaxNode ν)
  | mk _ _ _ children => children

@[simp]
theorem key_mk (k : Option (Option ν)) (b : Bool) (d : List UInt8) (cs : List (RaxNode ν)) :
    (mk k b d cs).key = k := rfl

@[simp]
theorem iscompr_mk (k : Option (Option ν)) (b : Bool) (d : List UInt8) (cs : List (RaxNode ν)) :
    (mk k b d cs).iscompr = b := rfl

@[simp]
theorem data_mk (k : Option (Option ν)) (b : Bool) (d : List UInt8) (cs : List (RaxNode ν)) :
    (mk k b d cs).data = d := rfl

@[simp]
theorem children_mk (k : Option (Option ν)) (b : Bool) (d : List UInt8) (cs : List (RaxNode ν)) :
    (mk k b d cs).children = cs := rfl

def iskey (n : RaxNode ν) : Bool := n.key.isSome

def size (n : RaxNode ν) : ℕ := n.data.length

/-- The child at an index. -/
def child (n : RaxNode ν) (i : ℕ) : RaxNode ν := n.children.getD i raxNewNode

/-- The child pointer at an index is replaced. -/
def setChild (n : RaxNode ν) (i : ℕ) (h : RaxNode ν) : RaxNode ν :=
  mk n.key n.iscompr n.data (n.children.set i h)

/-- `iskey` is replaced, and the value with it. -/
def setKey (n : RaxNode ν) (key : Option (Option ν)) : RaxNode ν :=
  mk key n.iscompr n.data n.children

end RaxNode

/-- `raxSetData`. -/
def raxSetData (n : RaxNode ν) (data : Option ν) : RaxNode ν := n.setKey (some data)

/-- `raxGetData`. -/
def raxGetData (n : RaxNode ν) : Option ν := n.key.join

/-- A parent on the stack, and the index of the child that was taken. -/
structure Frame (ν : Type) where
  node : RaxNode ν
  idx : ℕ

/-- The head of the tree after a node was stored in its parent, which is on top of the stack. -/
def plug : List (Frame ν) → RaxNode ν → RaxNode ν
  | [], h => h
  | f :: ts, h => plug ts (f.node.setChild f.idx h)

/-! ## What the nodes spell -/

/-- The words from a node to its children. -/
def edges (iscompr : Bool) (data : List UInt8) : List (List UInt8) :=
  if iscompr then [data] else data.map ([·])

/-- The entry of a node itself. -/
def own : Option (Option ν) → List (List UInt8 × Option ν)
  | none => []
  | some v => [([], v)]

mutual

/-- The keys below a node, without the bytes that lead to it, and their values. -/
def RaxNode.entries : RaxNode ν → List (List UInt8 × Option ν)
  | .mk key iscompr data children => own key ++ entriesUnder (edges iscompr data) children

/-- The keys below the children. -/
def entriesUnder : List (List UInt8) → List (RaxNode ν) → List (List UInt8 × Option ν)
  | p :: ps, c :: cs => prefixed p c.entries ++ entriesUnder ps cs
  | _, _ => []

end

mutual

/-- How many nodes there are from a node on. -/
def RaxNode.nodes : RaxNode ν → ℕ
  | .mk _ _ _ children => 1 + nodesUnder children

/-- How many nodes there are from the children on. -/
def nodesUnder : List (RaxNode ν) → ℕ
  | [] => 0
  | c :: cs => c.nodes + nodesUnder cs

end

theorem entriesUnder_eq (ps : List (List UInt8)) (cs : List (RaxNode ν)) :
    entriesUnder ps cs = under ps (cs.map RaxNode.entries) := by
  induction ps generalizing cs with
  | nil => cases cs <;> rfl
  | cons p ps ih =>
    cases cs with
    | nil => rfl
    | cons c cs => rw [entriesUnder, ih, List.map_cons, under_cons]

theorem RaxNode.entries_eq (n : RaxNode ν) :
    n.entries = own n.key ++ under (edges n.iscompr n.data) (n.children.map RaxNode.entries) := by
  obtain ⟨key, iscompr, data, children⟩ := n
  rw [RaxNode.entries, entriesUnder_eq]
  rfl

theorem RaxNode.nodes_eq (n : RaxNode ν) : n.nodes = 1 + nodesUnder n.children := by
  obtain ⟨_, _, _, _⟩ := n
  rfl

theorem nodesUnder_append (cs cs' : List (RaxNode ν)) :
    nodesUnder (cs ++ cs') = nodesUnder cs + nodesUnder cs' := by
  induction cs with
  | nil => exact (Nat.zero_add _).symm
  | cons c cs ih => rw [List.cons_append, nodesUnder, nodesUnder, ih, Nat.add_assoc]

@[simp]
theorem entries_raxNewNode : (raxNewNode : RaxNode ν).entries = [] := rfl

@[simp]
theorem nodes_raxNewNode : (raxNewNode : RaxNode ν).nodes = 1 := rfl

@[simp]
theorem nodes_setKey (n : RaxNode ν) (key : Option (Option ν)) :
    (n.setKey key).nodes = n.nodes := by
  obtain ⟨_, _, _, _⟩ := n
  rfl

/-- The entry of a node comes first. -/
theorem entries_setKey (n : RaxNode ν) (key : Option (Option ν)) :
    (n.setKey key).entries =
      own key ++ under (edges n.iscompr n.data) (n.children.map RaxNode.entries) :=
  (n.setKey key).entries_eq

/-! ## Well-formed nodes -/

/-- The number of children fits the data, and the bytes of a node that is not compressed are in
order. -/
structure Shape (iscompr : Bool) (data : List UInt8) (children : ℕ) : Prop where
  compressed : iscompr = true → data ≠ [] ∧ data.length ≤ raxNodeMaxSize ∧ children = 1
  plain : iscompr = false → data.Pairwise (· < ·) ∧ children = data.length

/-- A node that is a key, or leads to others. -/
def RaxNode.Alive (n : RaxNode ν) : Prop := n.iskey = true ∨ n.data ≠ []

/-- A node, all nodes below it, and that each of these is there for a key. -/
inductive RaxNode.Wf : RaxNode ν → Prop where
  | mk {key : Option (Option ν)} {iscompr : Bool} {data : List UInt8}
      {children : List (RaxNode ν)} (shape : Shape iscompr data children.length)
      (wf : ∀ c ∈ children, RaxNode.Wf c) (alive : ∀ c ∈ children, c.Alive) :
      RaxNode.Wf (.mk key iscompr data children)

theorem RaxNode.Wf.shape {n : RaxNode ν} (h : n.Wf) : Shape n.iscompr n.data n.children.length := by
  cases h with
  | mk shape _ _ => exact shape

theorem RaxNode.Wf.wf {n : RaxNode ν} (h : n.Wf) : ∀ c ∈ n.children, c.Wf := by
  cases h with
  | mk _ wf _ => exact wf

theorem RaxNode.Wf.alive {n : RaxNode ν} (h : n.Wf) : ∀ c ∈ n.children, c.Alive := by
  cases h with
  | mk _ _ alive => exact alive

theorem RaxNode.Wf.setKey {n : RaxNode ν} (h : n.Wf) (key : Option (Option ν)) :
    (n.setKey key).Wf := .mk h.shape h.wf h.alive

theorem wf_raxNewNode : (raxNewNode : RaxNode ν).Wf :=
  .mk ⟨fun h => absurd h Bool.false_ne_true, fun _ => ⟨List.Pairwise.nil, rfl⟩⟩
    (fun _ h => absurd h List.not_mem_nil) (fun _ h => absurd h List.not_mem_nil)

section

variable {iscompr : Bool} {data : List UInt8} {n : ℕ}

theorem Shape.length_edges (h : Shape iscompr data n) : (edges iscompr data).length = n := by
  cases iscompr with
  | true => exact (h.compressed rfl).2.2.symm
  | false => exact (List.length_map _).trans (h.plain rfl).2.symm

theorem Shape.ne_nil (h : Shape iscompr data n) {e : List UInt8} (he : e ∈ edges iscompr data) :
    e ≠ [] := by
  cases iscompr with
  | true =>
    cases List.mem_singleton.mp he
    exact (h.compressed rfl).1
  | false =>
    obtain ⟨x, -, rfl⟩ := List.mem_map.mp he
    exact List.cons_ne_nil _ _

theorem Shape.before (h : Shape iscompr data n) : (edges iscompr data).Pairwise Before := by
  cases iscompr with
  | true => exact List.pairwise_singleton _ _
  | false => exact List.pairwise_map.mpr ((h.plain rfl).1.imp fun hlt => before_of_lt hlt [] [])

theorem Shape.pos (h : Shape iscompr data n) : data = [] ↔ n = 0 := by
  cases iscompr with
  | true =>
    obtain ⟨hne, -, rfl⟩ := h.compressed rfl
    exact ⟨fun h => absurd h hne, fun h => absurd h Nat.one_ne_zero⟩
  | false =>
    rw [(h.plain rfl).2]
    exact List.length_eq_zero_iff.symm

end

/-- The keys below a well-formed node are in order. -/
theorem RaxNode.Wf.ascending {n : RaxNode ν} (h : n.Wf) : Ascending n.entries := by
  induction h with
  | @mk key iscompr data children shape wf alive ih =>
    rw [RaxNode.entries_eq]
    refine List.pairwise_append.mpr ⟨?_, ascending_under shape.before fun l hl => ?_, ?_⟩
    · cases key with
      | none => exact List.Pairwise.nil
      | some v => exact List.pairwise_singleton _ _
    · obtain ⟨c, hc, rfl⟩ := List.mem_map.mp hl
      exact ih c hc
    · intro a ha b hb
      obtain ⟨p, hp, l, -, hb⟩ := mem_under hb
      obtain ⟨w, hw, -⟩ := mem_prefixed.mp hb
      cases key with
      | none => cases ha
      | some v =>
        cases List.mem_singleton.mp ha
        rw [hw, nil_lt_iff]
        exact List.append_ne_nil_of_left_ne_nil (shape.ne_nil hp) w

/-- A node that is there for a key leads to one. -/
theorem RaxNode.Wf.entries_ne_nil {n : RaxNode ν} (h : n.Wf) (ha : n.Alive) : n.entries ≠ [] := by
  induction h with
  | @mk key iscompr data children shape wf alive ih =>
    rw [RaxNode.entries_eq]
    rcases ha with hk | hd
    · obtain ⟨v, rfl⟩ := Option.isSome_iff_exists.mp hk
      exact List.cons_ne_nil _ _
    · have hlen := shape.length_edges
      have hpos : children.length ≠ 0 := fun h0 => hd (shape.pos.mpr h0)
      refine List.append_ne_nil_of_right_ne_nil _ ?_
      change under (edges iscompr data) (children.map RaxNode.entries) ≠ []
      cases hc : children with
      | nil => exact absurd (congrArg List.length hc) hpos
      | cons c cs =>
        cases he : edges iscompr data with
        | nil =>
          rw [he] at hlen
          exact absurd hlen.symm hpos
        | cons p ps =>
          have hmem : c ∈ children := hc ▸ List.mem_cons_self
          rw [List.map_cons, under_cons]
          refine List.append_ne_nil_of_left_ne_nil (fun hnil => ?_) _
          exact ih c hmem (alive c hmem) (List.map_eq_nil_iff.mp hnil)

/-! ## The tree above a node -/

/-- A parent that is well formed but for the child that was taken. -/
structure Frame.Wf (f : Frame ν) : Prop where
  shape : Shape f.node.iscompr f.node.data f.node.children.length
  idx_lt : f.idx < f.node.children.length
  others : ∀ i c, f.node.children[i]? = some c → i ≠ f.idx → c.Wf ∧ c.Alive

/-- What a parent spells around the child that was taken. -/
def Frame.hole (f : Frame ν) : Hole UInt8 (Option ν) where
  before := own f.node.key ++ under ((edges f.node.iscompr f.node.data).take f.idx)
    ((f.node.children.take f.idx).map RaxNode.entries)
  path := (edges f.node.iscompr f.node.data).getD f.idx []
  after := under ((edges f.node.iscompr f.node.data).drop (f.idx + 1))
    ((f.node.children.drop (f.idx + 1)).map RaxNode.entries)

/-- How many nodes there are at a parent besides the child that was taken. -/
def Frame.aside (f : Frame ν) : ℕ :=
  1 + nodesUnder (f.node.children.take f.idx) + nodesUnder (f.node.children.drop (f.idx + 1))

/-- What the tree above a node spells around it. -/
def holeOf : List (Frame ν) → Hole UInt8 (Option ν)
  | [] => .whole
  | f :: ts => (holeOf ts).comp f.hole

/-- How many nodes there are above a node and beside the way to it. -/
def asideOf : List (Frame ν) → ℕ
  | [] => 0
  | f :: ts => asideOf ts + f.aside

/-- A node of a well-formed tree as the parent of one of its children. -/
theorem RaxNode.Wf.frame {n : RaxNode ν} (h : n.Wf) {i : ℕ} (hi : i < n.children.length) :
    (⟨n, i⟩ : Frame ν).Wf where
  shape := h.shape
  idx_lt := hi
  others := fun _ _ hc _ => ⟨h.wf _ (List.mem_of_getElem? hc), h.alive _ (List.mem_of_getElem? hc)⟩

theorem RaxNode.child_eq {n : RaxNode ν} {i : ℕ} (hi : i < n.children.length) :
    n.child i = n.children[i] := List.getD_eq_getElem _ _ hi

theorem RaxNode.setChild_child {n : RaxNode ν} {i : ℕ} (hi : i < n.children.length) :
    n.setChild i (n.child i) = n := by
  obtain ⟨key, iscompr, data, children⟩ := n
  rw [RaxNode.child_eq hi]
  exact congrArg (RaxNode.mk key iscompr data) (List.set_getElem_self hi)

section

variable {f : Frame ν}

theorem Frame.Wf.lt_edges (hf : f.Wf) : f.idx < (edges f.node.iscompr f.node.data).length :=
  hf.shape.length_edges.symm ▸ hf.idx_lt

theorem Frame.path_eq (h : f.idx < (edges f.node.iscompr f.node.data).length) :
    f.hole.path = (edges f.node.iscompr f.node.data)[f.idx] := List.getD_eq_getElem _ _ h

theorem Frame.Wf.edges_eq (hf : f.Wf) : edges f.node.iscompr f.node.data =
    (edges f.node.iscompr f.node.data).take f.idx ++
      f.hole.path :: (edges f.node.iscompr f.node.data).drop (f.idx + 1) := by
  rw [f.path_eq hf.lt_edges, List.getElem_cons_drop, List.take_append_drop]

theorem Frame.Wf.path_ne_nil (hf : f.Wf) : f.hole.path ≠ [] := by
  rw [f.path_eq hf.lt_edges]
  exact hf.shape.ne_nil (List.getElem_mem _)

theorem Frame.Wf.set_eq (hf : f.Wf) (h : RaxNode ν) : f.node.children.set f.idx h =
    f.node.children.take f.idx ++ h :: f.node.children.drop (f.idx + 1) := by
  rw [List.set_eq_take_append_cons_drop, if_pos hf.idx_lt]

/-- A parent spells its hole, filled with what the child spells. -/
theorem Frame.Wf.entries_setChild (hf : f.Wf) (h : RaxNode ν) :
    (f.node.setChild f.idx h).entries = f.hole.fill h.entries := by
  have hlen : ((edges f.node.iscompr f.node.data).take f.idx).length =
      ((f.node.children.take f.idx).map RaxNode.entries).length := by
    rw [List.length_map, List.length_take, List.length_take, hf.shape.length_edges]
  calc (f.node.setChild f.idx h).entries
      = own f.node.key ++ under (edges f.node.iscompr f.node.data)
          ((f.node.children.set f.idx h).map RaxNode.entries) := RaxNode.entries_eq _
    _ = own f.node.key ++ under ((edges f.node.iscompr f.node.data).take f.idx ++
          f.hole.path :: (edges f.node.iscompr f.node.data).drop (f.idx + 1))
          ((f.node.children.set f.idx h).map RaxNode.entries) :=
        congrArg (fun ps => own f.node.key ++ under ps _) hf.edges_eq
    _ = f.hole.fill h.entries := by
        rw [hf.set_eq, List.map_append, under_append hlen, List.map_cons, under_cons, Hole.fill,
          ← List.append_assoc, ← List.append_assoc]
        rfl

theorem Frame.Wf.sound (hf : f.Wf) : f.hole.Sound := by
  have hord := hf.shape.before
  rw [hf.edges_eq] at hord
  obtain ⟨-, hright, hcross⟩ := List.pairwise_append.mp hord
  refine ⟨fun e he w => ?_, fun e he w => ?_⟩
  · rcases List.mem_append.mp he with he | he
    · cases hk : f.node.key with
      | none =>
        rw [hk] at he
        cases he
      | some v =>
        rw [hk] at he
        cases List.mem_singleton.mp he
        exact nil_lt_iff.mpr (List.append_ne_nil_of_left_ne_nil hf.path_ne_nil w)
    · obtain ⟨p, hp, l, -, he⟩ := mem_under he
      obtain ⟨u, hu, -⟩ := mem_prefixed.mp he
      rw [hu]
      exact hcross p hp _ List.mem_cons_self u w
  · obtain ⟨p, hp, l, -, he⟩ := mem_under he
    obtain ⟨u, hu, -⟩ := mem_prefixed.mp he
    rw [hu]
    exact (List.pairwise_cons.mp hright).1 p hp w u

theorem Frame.Wf.nodes_setChild (hf : f.Wf) (h : RaxNode ν) :
    (f.node.setChild f.idx h).nodes = f.aside + h.nodes := by
  change 1 + nodesUnder (f.node.children.set f.idx h) = _
  rw [hf.set_eq, nodesUnder_append, nodesUnder, Frame.aside]
  omega

theorem Frame.Wf.wf_setChild (hf : f.Wf) {h : RaxNode ν} (hwf : h.Wf) (ha : h.Alive) :
    (f.node.setChild f.idx h).Wf ∧ (f.node.setChild f.idx h).Alive := by
  have hall : ∀ c ∈ f.node.children.set f.idx h, c.Wf ∧ c.Alive := by
    intro c hc
    obtain ⟨i, hi⟩ := List.mem_iff_getElem?.mp hc
    by_cases hif : f.idx = i
    · subst hif
      rw [List.getElem?_set_self hf.idx_lt] at hi
      cases hi
      exact ⟨hwf, ha⟩
    · rw [List.getElem?_set_ne hif] at hi
      exact hf.others i c hi (Ne.symm hif)
  refine ⟨.mk ?_ (fun c hc => (hall c hc).1) (fun c hc => (hall c hc).2), .inr fun hd => ?_⟩
  · rw [List.length_set]
    exact hf.shape
  · have hlt := hf.idx_lt
    rw [hf.shape.pos.mp hd] at hlt
    exact absurd hlt (Nat.not_lt_zero _)

end

section

variable {ts : List (Frame ν)}

theorem sound_holeOf (hts : ∀ f ∈ ts, f.Wf) : (holeOf ts).Sound := by
  induction ts with
  | nil => exact Hole.sound_whole
  | cons f ts ih =>
    exact (ih fun g hg => hts g (List.mem_cons_of_mem _ hg)).comp (hts f List.mem_cons_self).sound

/-- The tree spells what is around the node, filled with what the node spells. -/
theorem entries_plug (hts : ∀ f ∈ ts, f.Wf) (h : RaxNode ν) :
    (plug ts h).entries = (holeOf ts).fill h.entries := by
  induction ts generalizing h with
  | nil => exact (Hole.fill_whole _).symm
  | cons f ts ih =>
    rw [plug, ih fun g hg => hts g (List.mem_cons_of_mem _ hg),
      (hts f List.mem_cons_self).entries_setChild, holeOf, Hole.fill_comp]

theorem nodes_plug (hts : ∀ f ∈ ts, f.Wf) (h : RaxNode ν) :
    (plug ts h).nodes = asideOf ts + h.nodes := by
  induction ts generalizing h with
  | nil => exact (Nat.zero_add _).symm
  | cons f ts ih =>
    rw [plug, ih fun g hg => hts g (List.mem_cons_of_mem _ hg),
      (hts f List.mem_cons_self).nodes_setChild, asideOf, Nat.add_assoc]

/-- The tree is well formed if the node is, and there for a key unless it is the head. -/
theorem wf_plug (hts : ∀ f ∈ ts, f.Wf) {h : RaxNode ν} (hwf : h.Wf) (ha : ts ≠ [] → h.Alive) :
    (plug ts h).Wf := by
  induction ts generalizing h with
  | nil => exact hwf
  | cons f ts ih =>
    obtain ⟨hwf', ha'⟩ :=
      (hts f List.mem_cons_self).wf_setChild hwf (ha (List.cons_ne_nil _ _))
    exact ih (fun g hg => hts g (List.mem_cons_of_mem _ hg)) hwf' fun _ => ha'

end

end Redis

end LibNax
