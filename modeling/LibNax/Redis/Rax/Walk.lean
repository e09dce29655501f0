import LibNax.Redis.Rax.Node

/-!
# The walk down a radix tree

`raxLowWalk` follows a key from the head as far as there are nodes for it, and every operation
begins with it.

* `Rax`, `raxNew` — a tree, and the empty one.
* `raxLowWalk`, `raxFind` — the walk, and the lookup.
* `raxLowWalk_spec` — where the walk stops: the key is the way down, the part of a compressed node
  that agrees, and what is left, which goes no further.
* `raxFind_eq` — the lookup finds what the tree spells.
-/

set_option autoImplicit false

namespace LibNax

namespace Redis

open Lib Lexicon

variable {ν : Type}

/-- A radix tree. -/
structure Rax (ν : Type) where
  head : RaxNode ν
  numele : ℕ
  numnodes : ℕ

def raxNew : Rax ν := ⟨raxNewNode, 0, 1⟩

/-- Where the walk stopped: what is left of the key, the node, the place in its data if it is
compressed, and the stack of its parents. -/
structure Walk (ν : Type) where
  rest : List UInt8
  stop : RaxNode ν
  splitpos : ℕ
  ts : List (Frame ν)

/-- How many bytes at the beginning of two strings agree. -/
def matched : List UInt8 → List UInt8 → ℕ
  | x :: v, c :: s => if x = c then matched v s + 1 else 0
  | _, _ => 0

/-- The loop of `raxLowWalk`, which takes a byte of the key at least each time. -/
def walkLoop : ℕ → RaxNode ν → List UInt8 → List (Frame ν) → Walk ν
  | fuel + 1, h, c :: s, ts =>
    if h.size = 0 then ⟨c :: s, h, 0, ts⟩
    else if h.iscompr then
      let j := matched h.data (c :: s)
      if j ≠ h.size then ⟨(c :: s).drop j, h, j, ts⟩
      else walkLoop fuel (h.child 0) ((c :: s).drop j) (⟨h, 0⟩ :: ts)
    else
      let j := h.data.findIdx (· == c)
      if j = h.size then ⟨c :: s, h, 0, ts⟩
      else walkLoop fuel (h.child j) s (⟨h, j⟩ :: ts)
  | _, h, s, ts => ⟨s, h, 0, ts⟩

def raxLowWalk (rax : Rax ν) (s : List UInt8) : Walk ν := walkLoop s.length rax.head s []

/-- The walk did not find a node that is the key. -/
def Walk.missed (w : Walk ν) : Prop :=
  w.rest ≠ [] ∨ (w.stop.iscompr = true ∧ w.splitpos ≠ 0) ∨ w.stop.iskey = false

instance (w : Walk ν) : Decidable w.missed :=
  inferInstanceAs (Decidable (_ ∨ _ ∨ _))

/-- `raxFind`, where `raxNotFound` is `none`. -/
def raxFind (rax : Rax ν) (s : List UInt8) : Option (Option ν) :=
  let w := raxLowWalk rax s
  if w.missed then none else some (raxGetData w.stop)

/-! ## The loop over a compressed node -/

theorem matched_le (v s : List UInt8) : matched v s ≤ v.length := by
  induction v generalizing s with
  | nil => exact Nat.zero_le _
  | cons x v ih =>
    cases s with
    | nil => exact Nat.zero_le _
    | cons c s =>
      rw [matched]
      split
      · exact Nat.succ_le_succ (ih s)
      · exact Nat.zero_le _

/-- What agrees, and what is left. -/
theorem take_matched (v s : List UInt8) : v.take (matched v s) ++ s.drop (matched v s) = s := by
  induction v generalizing s with
  | nil => rfl
  | cons x v ih =>
    cases s with
    | nil => rfl
    | cons c s =>
      rw [matched]
      split
      · rename_i hxc
        rw [List.take_succ_cons, List.drop_succ_cons, List.cons_append, ih, hxc]
      · rfl

/-- The first byte that is left does not agree. -/
theorem getElem?_matched {v s s' : List UInt8} {c : UInt8} (h : s.drop (matched v s) = c :: s') :
    v[matched v s]? ≠ some c := by
  induction v generalizing s with
  | nil => exact fun h => absurd h (by simp)
  | cons x v ih =>
    cases s with
    | nil => cases h
    | cons c' s =>
      rw [matched] at h ⊢
      split
      · rename_i hxc
        rw [if_pos hxc, List.drop_succ_cons] at h
        rw [List.getElem?_cons_succ]
        exact ih h
      · rename_i hxc
        rw [if_neg hxc, List.drop_zero] at h
        cases h
        exact fun hx => hxc (Option.some.inj hx)

/-- A byte that is not among the bytes of a node comes behind some of them and before the others. -/
theorem findIdx_gt {data : List UInt8} {c : UInt8} (hs : data.Pairwise (· < ·)) (hc : c ∉ data) :
    (∀ x ∈ data.take (data.findIdx (· > c)), x < c) ∧
      ∀ x ∈ data.drop (data.findIdx (· > c)), c < x := by
  induction data with
  | nil => exact ⟨fun _ h => absurd h List.not_mem_nil, fun _ h => absurd h List.not_mem_nil⟩
  | cons x data ih =>
    obtain ⟨hx, hs⟩ := List.pairwise_cons.mp hs
    obtain ⟨hcx, hc⟩ := not_or.mp fun h => hc (List.mem_cons.mpr h)
    rw [List.findIdx_cons]
    by_cases hlt : c < x
    · rw [decide_eq_true hlt, cond_true]
      refine ⟨fun _ h => absurd h List.not_mem_nil, fun y hy => ?_⟩
      rcases List.mem_cons.mp hy with rfl | hy
      · exact hlt
      · exact lt_trans hlt (hx y hy)
    · rw [decide_eq_false hlt, cond_false, List.take_succ_cons, List.drop_succ_cons]
      obtain ⟨htake, hdrop⟩ := ih hs hc
      refine ⟨fun y hy => ?_, hdrop⟩
      rcases List.mem_cons.mp hy with rfl | hy
      · exact lt_of_le_of_ne (not_lt.mp hlt) (Ne.symm hcx)
      · exact htake y hy

/-! ## Where the walk stops -/

/-- What is left of the key leads no further. -/
structure Stopped (h : RaxNode ν) (splitpos : ℕ) (rest : List UInt8) : Prop where
  compressed : h.iscompr = true →
    splitpos < h.size ∧ ∀ c s, rest = c :: s → h.data[splitpos]? ≠ some c
  plain : h.iscompr = false → splitpos = 0 ∧ ∀ c s, rest = c :: s → c ∉ h.data

/-- The walk stopped in a tree with this head on the way of this key. -/
structure Walked (head : RaxNode ν) (s : List UInt8) (w : Walk ν) : Prop where
  head_eq : plug w.ts w.stop = head
  frames : ∀ f ∈ w.ts, f.Wf
  wf : w.stop.Wf
  alive : w.ts ≠ [] → w.stop.Alive
  key_eq : s = (holeOf w.ts).path ++ (w.stop.data.take w.splitpos ++ w.rest)
  stopped : Stopped w.stop w.splitpos w.rest

/-- The word to a child: all of the data of a compressed node, and a byte of another one. -/
theorem getD_edges_compressed (data : List UInt8) : (edges true data).getD 0 [] = data := rfl

theorem getD_edges_plain {data : List UInt8} {i : ℕ} (hi : i < data.length) :
    (edges false data).getD i [] = [data[i]] := by
  rw [List.getD_eq_getElem _ _ ((List.length_map _).symm ▸ hi)]
  exact List.getElem_map _

theorem RaxNode.Wf.edge_eq {h : RaxNode ν} (hwf : h.Wf) {i : ℕ} (hi : i < h.children.length) :
    (if h.iscompr then h.data else [h.data.getD i 0]) = (edges h.iscompr h.data).getD i [] := by
  cases hc : h.iscompr with
  | true =>
    obtain ⟨-, -, hone⟩ := hwf.shape.compressed hc
    cases Nat.lt_one_iff.mp (hone ▸ hi)
    rfl
  | false =>
    have hlen := (hwf.shape.plain hc).2
    rw [if_neg Bool.false_ne_true, getD_edges_plain (hlen ▸ hi),
      List.getD_eq_getElem _ _ (hlen ▸ hi)]

/-- Going down to a child. -/
theorem RaxNode.Wf.down {h : RaxNode ν} (hwf : h.Wf) {i : ℕ} (hi : i < h.children.length)
    {ts : List (Frame ν)} (hts : ∀ f ∈ ts, f.Wf) :
    (h.child i).Wf ∧ (h.child i).Alive ∧ plug (⟨h, i⟩ :: ts) (h.child i) = plug ts h ∧
      ∀ f ∈ (⟨h, i⟩ : Frame ν) :: ts, f.Wf := by
  have hmem : h.child i ∈ h.children := by
    rw [RaxNode.child_eq hi]
    exact List.getElem_mem hi
  refine ⟨hwf.wf _ hmem, hwf.alive _ hmem, ?_, fun f hf => ?_⟩
  · rw [plug, RaxNode.setChild_child hi]
  · rcases List.mem_cons.mp hf with rfl | hf
    · exact hwf.frame hi
    · exact hts f hf

/-- A key that has come to its end leads no further. -/
theorem RaxNode.Wf.stopped_nil {h : RaxNode ν} (hwf : h.Wf) : Stopped h 0 [] where
  compressed := fun hc =>
    ⟨List.length_pos_iff.mpr (hwf.shape.compressed hc).1, fun _ _ h => absurd h.symm (by simp)⟩
  plain := fun _ => ⟨rfl, fun _ _ h => absurd h.symm (by simp)⟩

/-- A node without bytes is not compressed, and has no children. -/
theorem RaxNode.Wf.of_size {h : RaxNode ν} (hwf : h.Wf) (hsize : h.size = 0) :
    h.data = [] ∧ h.iscompr = false ∧ h.children = [] := by
  have hdata : h.data = [] := List.length_eq_zero_iff.mp hsize
  exact ⟨hdata, Bool.eq_false_iff.mpr fun hc => (hwf.shape.compressed hc).1 hdata,
    List.length_eq_zero_iff.mp (hwf.shape.pos.mp hdata)⟩

theorem stopped_plain {h : RaxNode ν} (hc : h.iscompr = false) {c : UInt8} {s : List UInt8}
    (hmem : c ∉ h.data) : Stopped h 0 (c :: s) := by
  refine ⟨fun hc' => absurd (hc'.symm.trans hc) Bool.true_eq_false.mp, fun _ => ⟨rfl, ?_⟩⟩
  rintro c' s' heq
  cases heq
  exact hmem

/-- The way to the child of a compressed node, and to one of another node. -/
theorem path_compressed {h : RaxNode ν} (hc : h.iscompr = true) (ts : List (Frame ν)) :
    (holeOf (⟨h, 0⟩ :: ts)).path = (holeOf ts).path ++ h.data := by
  change _ ++ (edges h.iscompr h.data).getD 0 [] = _
  rw [hc, getD_edges_compressed]

theorem path_plain {h : RaxNode ν} (hc : h.iscompr = false) {j : ℕ} (hj : j < h.data.length)
    (ts : List (Frame ν)) :
    (holeOf (⟨h, j⟩ :: ts)).path = (holeOf ts).path ++ [h.data[j]] := by
  change _ ++ (edges h.iscompr h.data).getD j [] = _
  rw [hc, getD_edges_plain hj]

theorem Walked.here {h : RaxNode ν} {ts : List (Frame ν)} (hwf : h.Wf) (ha : ts ≠ [] → h.Alive)
    (hts : ∀ f ∈ ts, f.Wf) {s : List UInt8} (hs : Stopped h 0 s) :
    Walked (plug ts h) ((holeOf ts).path ++ s) ⟨s, h, 0, ts⟩ :=
  ⟨rfl, hts, hwf, ha, rfl, hs⟩

theorem walkLoop_spec {fuel : ℕ} {h : RaxNode ν} {s : List UInt8} {ts : List (Frame ν)}
    (hfuel : s.length ≤ fuel) (hwf : h.Wf) (ha : ts ≠ [] → h.Alive) (hts : ∀ f ∈ ts, f.Wf) :
    Walked (plug ts h) ((holeOf ts).path ++ s) (walkLoop fuel h s ts) := by
  induction fuel generalizing h s ts with
  | zero =>
    cases List.length_eq_zero_iff.mp (Nat.le_zero.mp hfuel)
    exact .here hwf ha hts hwf.stopped_nil
  | succ fuel ih =>
    cases s with
    | nil => exact .here hwf ha hts hwf.stopped_nil
    | cons c s =>
      have hfuel' : s.length ≤ fuel := Nat.le_of_succ_le_succ hfuel
      rw [walkLoop]
      split
      · rename_i hsize
        obtain ⟨hdata, hplain, -⟩ := hwf.of_size hsize
        exact .here hwf ha hts (stopped_plain hplain (hdata ▸ List.not_mem_nil))
      · split
        · rename_i hsize hcompr
          obtain ⟨hne, -, hone⟩ := hwf.shape.compressed hcompr
          have hle := matched_le h.data (c :: s)
          have hkey := take_matched h.data (c :: s)
          have hmis := @getElem?_matched h.data (c :: s)
          generalize matched h.data (c :: s) = j at *
          simp only
          split
          · -- the loop over the data broke off
            rename_i hj
            refine ⟨rfl, hts, hwf, ha, congrArg _ hkey.symm,
              fun _ => ⟨Nat.lt_of_le_of_ne hle hj, fun _ _ => hmis⟩, fun hp => ?_⟩
            rw [hcompr] at hp
            cases hp
          · rename_i hj
            rw [not_not.mp hj] at hkey ⊢
            rw [RaxNode.size, List.take_length] at hkey
            obtain ⟨hwf', ha', hplug, hts'⟩ := hwf.down (hone ▸ Nat.one_pos) hts
            have hlen : ((c :: s).drop h.size).length ≤ fuel := by
              rw [List.length_drop, List.length_cons]
              omega
            have hwalk := ih hlen hwf' (fun _ => ha') hts'
            rwa [hplug, path_compressed hcompr, List.append_assoc, RaxNode.size, hkey] at hwalk
        · rename_i hsize hcompr
          have hplain := (Bool.not_eq_true _).mp hcompr
          obtain ⟨-, hlen⟩ := hwf.shape.plain hplain
          simp only
          split
          · rename_i hj
            refine .here hwf ha hts (stopped_plain hplain fun hc => absurd hj ?_)
            exact Nat.ne_of_lt (List.findIdx_lt_length_of_exists ⟨c, hc, beq_self_eq_true c⟩)
          · rename_i hj
            have hlt : h.data.findIdx (· == c) < h.data.length :=
              Nat.lt_of_le_of_ne (List.findIdx_le_length) hj
            have hat : h.data[h.data.findIdx (· == c)] = c :=
              beq_iff_eq.mp (List.findIdx_getElem (w := hlt))
            generalize h.data.findIdx (· == c) = j at *
            obtain ⟨hwf', ha', hplug, hts'⟩ := hwf.down (hlen ▸ hlt) hts
            have hwalk := ih hfuel' hwf' (fun _ => ha') hts'
            rwa [hplug, path_plain hplain hlt, hat, List.append_assoc] at hwalk

theorem raxLowWalk_spec {rax : Rax ν} (h : rax.head.Wf) (s : List UInt8) :
    Walked rax.head s (raxLowWalk rax s) :=
  walkLoop_spec (Nat.le_refl _) h (fun hne => absurd rfl hne)
    (show ∀ f ∈ ([] : List (Frame ν)), f.Wf from fun _ hf => absurd hf List.not_mem_nil)

/-! ## The lookup -/

/-- The keys below the children of a node are not empty, and begin with a word to one of them. -/
theorem RaxNode.Wf.mem_under {h : RaxNode ν} (hwf : h.Wf) {e : List UInt8 × Option ν}
    (he : e ∈ under (edges h.iscompr h.data) (h.children.map RaxNode.entries)) :
    ∃ p ∈ edges h.iscompr h.data, p ≠ [] ∧ ∃ w, e.1 = p ++ w := by
  obtain ⟨p, hp, l, -, he⟩ := Lexicon.mem_under he
  obtain ⟨w, hw, -⟩ := mem_prefixed.mp he
  exact ⟨p, hp, hwf.shape.ne_nil hp, w, hw⟩

theorem RaxNode.Wf.under_gt {h : RaxNode ν} (hwf : h.Wf) :
    ∀ e ∈ under (edges h.iscompr h.data) (h.children.map RaxNode.entries), [] < e.1 := by
  intro e he
  obtain ⟨p, -, hp, w, hw⟩ := hwf.mem_under he
  rw [hw, nil_lt_iff]
  exact List.append_ne_nil_of_left_ne_nil hp w

/-- The way to a node is a key if the node is. -/
theorem RaxNode.Wf.find_nil {h : RaxNode ν} (hwf : h.Wf) : find [] h.entries = h.key := by
  rw [h.entries_eq, find_append_right hwf.under_gt]
  cases h.key with
  | none => rfl
  | some v => rfl

/-- Where the walk stopped within a compressed node, or before the end of the key, there is no
node for the key. -/
theorem Stopped.find_eq_none {h : RaxNode ν} (hwf : h.Wf) {splitpos : ℕ} {rest : List UInt8}
    (hs : Stopped h splitpos rest) (hne : splitpos ≠ 0 ∨ rest ≠ []) :
    find (h.data.take splitpos ++ rest) h.entries = none := by
  refine Option.eq_none_iff_forall_ne_some.mpr fun v hv => ?_
  have hmem := mem_of_find hv
  rw [h.entries_eq] at hmem
  rcases List.mem_append.mp hmem with hown | hunder
  · have hnil : h.data.take splitpos ++ rest = [] := by
      cases hk : h.key with
      | none =>
        rw [hk] at hown
        cases hown
      | some w =>
        rw [hk] at hown
        exact congrArg Prod.fst (List.mem_singleton.mp hown)
    obtain ⟨htake, hrest⟩ := List.append_eq_nil_iff.mp hnil
    cases hc : h.iscompr with
    | true =>
      rcases List.take_eq_nil_iff.mp htake with h0 | hd
      · exact hne.elim (fun hn => hn h0) (fun hn => hn hrest)
      · exact (hwf.shape.compressed hc).1 hd
    | false => exact hne.elim (fun hn => hn (hs.plain hc).1) (fun hn => hn hrest)
  · obtain ⟨p, hp, -, w, hw⟩ := hwf.mem_under hunder
    cases hc : h.iscompr with
    | true =>
      obtain ⟨hlt, hmis⟩ := hs.compressed hc
      rw [hc] at hp
      cases List.mem_singleton.mp hp
      have hdrop := List.drop_eq_getElem_cons (i := splitpos) hlt
      have hw' : h.data.take splitpos ++ rest =
          h.data.take splitpos ++ (h.data.drop splitpos ++ w) := by
        rw [← List.append_assoc, List.take_append_drop]
        exact hw
      rw [List.append_cancel_left_eq, hdrop, List.cons_append] at hw'
      exact hmis _ _ hw' (List.getElem?_eq_getElem hlt)
    | false =>
      obtain ⟨h0, hmiss⟩ := hs.plain hc
      rw [hc] at hp
      obtain ⟨x, hx, rfl⟩ := List.mem_map.mp hp
      rw [h0, List.take_zero, List.nil_append] at hw
      exact hmiss x w hw hx

/-- What the tree says about the key of a walk is what the node where it stopped says about the part
of the key below it. -/
theorem Walked.find_eq {head : RaxNode ν} {s : List UInt8} {w : Walk ν} (h : Walked head s w) :
    find s head.entries = find (w.stop.data.take w.splitpos ++ w.rest) w.stop.entries := by
  conv_lhs => rw [h.key_eq, ← h.head_eq, entries_plug h.frames]
  exact (sound_holeOf h.frames).find_fill _ _

/-- A walk that does not miss ends at a key. -/
theorem Walked.found {head : RaxNode ν} {s : List UInt8} {w : Walk ν} (h : Walked head s w)
    (hm : ¬ w.missed) :
    s = (holeOf w.ts).path ∧ w.splitpos = 0 ∧ w.rest = [] ∧
      w.stop.key = some (raxGetData w.stop) := by
  obtain ⟨hrest, hm⟩ := not_or.mp hm
  obtain ⟨hsplit, hkey⟩ := not_or.mp hm
  have h0 : w.splitpos = 0 := by
    cases hc : w.stop.iscompr with
    | true => exact not_not.mp fun hn => hsplit ⟨hc, hn⟩
    | false => exact (h.stopped.plain hc).1
  obtain ⟨v, hv⟩ := Option.isSome_iff_exists.mp ((Bool.not_eq_false _).mp hkey)
  have hseq := h.key_eq
  rw [h0, not_not.mp hrest, List.take_zero, List.append_nil, List.append_nil] at hseq
  refine ⟨hseq, h0, not_not.mp hrest, ?_⟩
  rw [raxGetData, hv]
  rfl

/-- A walk misses a key that is not there. -/
theorem Walked.find_eq_ite {head : RaxNode ν} {s : List UInt8} {w : Walk ν} (h : Walked head s w) :
    find s head.entries = if w.missed then none else some (raxGetData w.stop) := by
  rw [h.find_eq]
  split
  · rename_i hm
    rcases hm with hrest | ⟨-, hsplit⟩ | hkey
    · exact h.stopped.find_eq_none h.wf (.inr hrest)
    · exact h.stopped.find_eq_none h.wf (.inl hsplit)
    · by_cases hne : w.splitpos ≠ 0 ∨ w.rest ≠ []
      · exact h.stopped.find_eq_none h.wf hne
      · obtain ⟨hsplit, hrest⟩ := not_or.mp hne
        rw [not_not.mp hsplit, not_not.mp hrest, List.take_zero, List.append_nil, h.wf.find_nil]
        exact Option.not_isSome_iff_eq_none.mp (Bool.eq_false_iff.mp hkey)
  · rename_i hm
    obtain ⟨-, h0, hrest, hkey⟩ := h.found hm
    rw [h0, hrest, List.take_zero, List.append_nil, h.wf.find_nil, hkey]

/-- **`raxFind`** finds what the tree spells. -/
theorem raxFind_eq {rax : Rax ν} (h : rax.head.Wf) (s : List UInt8) :
    raxFind rax s = find s rax.head.entries :=
  (raxLowWalk_spec h s).find_eq_ite.symm

end Redis

end LibNax
