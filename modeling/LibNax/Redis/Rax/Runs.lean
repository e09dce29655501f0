import LibNax.Lib.Answers
import LibNax.Redis.Rax.Remove

/-!
# The radix tree is a lexicon

Every call is compared here with what it does to a lexicon, over whole runs, and the tree is
released.

* `Rax.Op`, `Rax.exec` — the calls, and the tree and the answer after one.
* `Rax.meant` — what they do to a lexicon.
* `raxRecursiveFree`, `raxFreeWithCallback` — the release.
* `runs_lexicon` — every run returns, answers as the lexicon does, and leaves what it does.
* `runs_free` — after every run, the release meets its assertion and hands over every value once.
-/

set_option autoImplicit false

namespace LibNax

namespace Redis

open Lib Lexicon

variable {ν : Type}

namespace Rax

/-- A call. -/
inductive Op (ν : Type) where
  | insert (s : List UInt8) (data : Option ν)
  | tryInsert (s : List UInt8) (data : Option ν)
  | remove (s : List UInt8)
  | find (s : List UInt8)
  | size
  deriving Repr, DecidableEq

/-- What a call answers: what it returns, and what it stores in `old`. -/
inductive Answer (ν : Type) where
  | changed (b : Bool) (old : Option (Option ν))
  | value (v : Option (Option ν))
  | number (n : ℕ)
  deriving Repr, DecidableEq

/-- `raxSize`. -/
def raxSize (rax : Rax ν) : ℕ := rax.numele

/-- The tree and the answer after a call. -/
def exec (rax : Rax ν) : Op ν → Option (Rax ν × Answer ν)
  | .insert s data => (raxInsert rax s data).map fun r => (r.1, .changed r.2.1 r.2.2)
  | .tryInsert s data => (raxTryInsert rax s data).map fun r => (r.1, .changed r.2.1 r.2.2)
  | .remove s => (raxRemove rax s).map fun r => (r.1, .changed r.2.1 r.2.2)
  | .find s => some (rax, .value (raxFind rax s))
  | .size => some (rax, .number (raxSize rax))

/-- What a call does to a lexicon, and answers. -/
def meant (l : List (List UInt8 × Option ν)) : Op ν → List (List UInt8 × Option ν) × Answer ν
  | .insert s data => (put s data l, .changed (find s l).isNone (find s l))
  | .tryInsert s data =>
      (if (find s l).isSome then l else put s data l, .changed (find s l).isNone (find s l))
  | .remove s => (Lexicon.remove s l, .changed (find s l).isSome (find s l))
  | .find s => (l, .value (find s l))
  | .size => (l, .number l.length)

/-- The key of a call that inserts one is not too long for a node. -/
def Op.Fits : Op ν → Prop
  | .insert s _ => s.length ≤ raxNodeMaxSize
  | .tryInsert s _ => s.length ≤ raxNodeMaxSize
  | _ => True

instance (op : Op ν) : Decidable op.Fits :=
  match op with
  | .insert s _ => inferInstanceAs (Decidable (s.length ≤ raxNodeMaxSize))
  | .tryInsert s _ => inferInstanceAs (Decidable (s.length ≤ raxNodeMaxSize))
  | .remove _ | .find _ | .size => inferInstanceAs (Decidable True)

/-- A tree that stands for a lexicon, whose keys are not too long for a node. -/
structure Means (rax : Rax ν) (l : List (List UInt8 × Option ν)) : Prop where
  wf : rax.Wf
  entries_eq : rax.head.entries = l
  fits : ∀ e ∈ l, e.1.length ≤ raxNodeMaxSize

theorem means_raxNew : (raxNew : Rax ν).Means [] :=
  ⟨⟨wf_raxNewNode, rfl, rfl⟩, rfl, fun _ h => absurd h List.not_mem_nil⟩

theorem fits_put {l : List (List UInt8 × Option ν)} {s : List UInt8} {data : Option ν}
    (hl : ∀ e ∈ l, e.1.length ≤ raxNodeMaxSize) (hs : s.length ≤ raxNodeMaxSize) :
    ∀ e ∈ put s data l, e.1.length ≤ raxNodeMaxSize := by
  intro e he
  rcases mem_put he with rfl | he
  · exact hs
  · exact hl e he

/-- **One call** does to the tree what it does to the lexicon, and answers the same. -/
theorem Means.exec {rax : Rax ν} {l : List (List UInt8 × Option ν)} (h : rax.Means l) {op : Op ν}
    (hop : op.Fits) :
    ∃ rax', rax.exec op = some (rax', (meant l op).2) ∧ rax'.Means (meant l op).1 := by
  obtain ⟨hwf, rfl, hfits⟩ := h
  cases op with
  | insert s data =>
    obtain ⟨rax', hrun, hwf', hentries⟩ := raxGenericInsert_spec hwf s data true
    exact ⟨rax', by rw [Rax.exec, raxInsert, hrun]; rfl, hwf', hentries, fits_put hfits hop⟩
  | tryInsert s data =>
    obtain ⟨rax', hrun, hwf', hentries⟩ := raxGenericInsert_spec hwf s data false
    refine ⟨rax', by rw [Rax.exec, raxTryInsert, hrun]; rfl, hwf', ?_, ?_⟩
    · rw [hentries, inserted]
      simp only [true_and]
      rfl
    · rw [meant]
      split
      · exact hfits
      · exact fits_put hfits hop
  | remove s =>
    obtain ⟨rax', hrun, hwf', hentries⟩ := raxRemove_spec hwf hfits s
    exact ⟨rax', by rw [Rax.exec, hrun]; rfl, hwf', hentries,
      fun e he => hfits e (mem_of_mem_remove he)⟩
  | find s =>
    exact ⟨rax, by rw [Rax.exec, raxFind_eq hwf.head]; rfl, hwf, rfl, hfits⟩
  | size =>
    exact ⟨rax, by rw [Rax.exec, raxSize, hwf.numele_eq]; rfl, hwf, rfl, hfits⟩

/-- A run of calls leaves a tree that stands for what it does to the lexicon. -/
theorem answers_means {ops : List (Op ν)} (hops : ∀ op ∈ ops, op.Fits) :
    ∃ rax : Rax ν, answers Rax.exec raxNew ops = some (rax, (replies meant [] ops).2) ∧
      rax.Means (replies meant [] ops).1 :=
  answers_eq_replies (fun _ _ _ h hop => h.exec hop) hops means_raxNew

/-- **The radix tree is a lexicon.**  A run of calls returns unless a key is too long for a node,
every answer in it is the one of the lexicon, and what it leaves are the nodes for its keys, in
order, and as many as the tree counts. -/
theorem runs_lexicon (ops : List (Op ν)) (hops : ∀ op ∈ ops, op.Fits) :
    ∃ rax : Rax ν, answers Rax.exec raxNew ops = some (rax, (replies meant [] ops).2) ∧ rax.Wf ∧
      rax.head.entries = (replies meant [] ops).1 ∧ Ascending rax.head.entries := by
  obtain ⟨rax, hrun, hmeans⟩ := answers_means hops
  exact ⟨rax, hrun, hmeans.wf, hmeans.entries_eq, hmeans.wf.head.ascending⟩

/-- A compressed node that is split at its end and in the middle, and joined again. -/
theorem runs_lexicon_joining :
    ∃ rax : Rax ℕ, answers Rax.exec raxNew [.insert [70, 79, 79, 66, 65, 82] (some 1),
        .insert [70, 79, 79] none, .tryInsert [70, 79, 79] (some 2),
        .insert [70, 79, 79, 84, 69, 82] (some 3), .remove [70, 79, 79], .remove [70, 79],
        .remove [70, 79, 79, 84, 69, 82], .find [70, 79, 79, 66, 65, 82], .find [70, 79, 79],
        .size] =
      some (rax, [.changed true none, .changed true none, .changed false (some none),
        .changed true none, .changed true (some none), .changed false none,
        .changed true (some (some 3)), .value (some (some 1)), .value none, .number 1]) := by
  obtain ⟨rax, hrun, -⟩ := runs_lexicon (ν := ℕ) [.insert [70, 79, 79, 66, 65, 82] (some 1),
    .insert [70, 79, 79] none, .tryInsert [70, 79, 79] (some 2),
    .insert [70, 79, 79, 84, 69, 82] (some 3), .remove [70, 79, 79], .remove [70, 79],
    .remove [70, 79, 79, 84, 69, 82], .find [70, 79, 79, 66, 65, 82], .find [70, 79, 79], .size]
    (by decide)
  exact ⟨rax, hrun.trans (congrArg (fun as => some (rax, as)) (by decide))⟩

/-! ## The release -/

mutual

/-- `raxRecursiveFree`: the values handed to the callback, and how many nodes are freed. -/
def raxRecursiveFree : RaxNode ν → List ν × ℕ
  | .mk key _ _ children =>
    ((raxFreeChildren children).1 ++ key.join.toList, (raxFreeChildren children).2 + 1)

/-- Its loop over the children, from the last one on. -/
def raxFreeChildren : List (RaxNode ν) → List ν × ℕ
  | [] => ([], 0)
  | c :: cs => ((raxFreeChildren cs).1 ++ (raxRecursiveFree c).1,
      (raxFreeChildren cs).2 + (raxRecursiveFree c).2)

end

/-- `raxFreeWithCallback`: the values handed to the callback, unless the assertion fails. -/
def raxFreeWithCallback (rax : Rax ν) : Option (List ν) :=
  if rax.numnodes = (raxRecursiveFree rax.head).2 then some (raxRecursiveFree rax.head).1 else none

/-- The values are handed over from the last key on. -/
theorem raxRecursiveFree_eq {n : RaxNode ν} (h : n.Wf) :
    raxRecursiveFree n = ((n.entries.filterMap Prod.snd).reverse, n.nodes) := by
  induction h with
  | @mk key iscompr data children shape wf alive ih =>
    have hchildren : ∀ {ps : List (List UInt8)} {cs : List (RaxNode ν)}, ps.length = cs.length →
        (∀ c ∈ cs, c ∈ children) → raxFreeChildren cs =
          (((entriesUnder ps cs).filterMap Prod.snd).reverse, nodesUnder cs) := by
      intro ps cs
      induction cs generalizing ps with
      | nil => cases ps <;> exact fun _ _ => rfl
      | cons c cs ihcs =>
        cases ps with
        | nil => exact fun h => absurd h (Nat.zero_ne_add_one _)
        | cons p ps =>
          intro hlen hmem
          have hsnd : (prefixed p c.entries).filterMap Prod.snd = c.entries.filterMap Prod.snd := by
            rw [prefixed, List.filterMap_map]
            rfl
          have hmem' : ∀ d ∈ cs, d ∈ children := fun d hd => hmem d (List.mem_cons_of_mem _ hd)
          rw [raxFreeChildren, ihcs (Nat.succ.inj hlen) hmem',
            ih c (hmem c List.mem_cons_self), entriesUnder, nodesUnder, List.filterMap_append,
            List.reverse_append, hsnd, Nat.add_comm (nodesUnder cs)]
    rw [raxRecursiveFree, hchildren shape.length_edges fun _ hc => hc, RaxNode.entries,
      List.filterMap_append, List.reverse_append, RaxNode.nodes, Nat.add_comm 1]
    cases key with
    | none => rfl
    | some v => cases v <;> rfl

/-- **The release is complete.**  After every run of calls the assertion at the end of the release
holds, as every node the tree counts was freed, and the callback got the value of every key once. -/
theorem runs_free (ops : List (Op ν)) (hops : ∀ op ∈ ops, op.Fits) :
    ∃ rax : Rax ν, answers Rax.exec raxNew ops = some (rax, (replies meant [] ops).2) ∧
      raxFreeWithCallback rax = some ((replies meant [] ops).1.filterMap Prod.snd).reverse := by
  obtain ⟨rax, hrun, hmeans⟩ := answers_means hops
  refine ⟨rax, hrun, ?_⟩
  rw [raxFreeWithCallback, raxRecursiveFree_eq hmeans.wf.head, if_pos hmeans.wf.numnodes_eq,
    hmeans.entries_eq]

/-- A key without a value is not handed over. -/
theorem runs_free_null :
    ∃ rax : Rax ℕ, answers Rax.exec raxNew [.insert [65, 71, 79] (some 1), .insert [65] none,
        .insert [65, 78, 78] (some 3), .insert [65, 71] (some 2)] =
      some (rax, [.changed true none, .changed true none, .changed true none,
        .changed true none]) ∧ raxFreeWithCallback rax = some [3, 1, 2] := by
  obtain ⟨rax, hrun, hfree⟩ := runs_free (ν := ℕ) [.insert [65, 71, 79] (some 1),
    .insert [65] none, .insert [65, 78, 78] (some 3), .insert [65, 71] (some 2)] (by decide)
  exact ⟨rax, hrun.trans (congrArg (fun as => some (rax, as)) (by decide)),
    hfree.trans (congrArg some (by decide))⟩

end Rax

end Redis

end LibNax
