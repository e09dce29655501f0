import LibNax.Etcr.Segments

/-!
# The pass over the characters

`_etcr_parse_line` goes over the characters once.  A line begins with its first character, whatever
that is: a line feed in this place does not end a line.

* `heads` — where the lines of a list of segments begin.
* `parseChars_group`, `parseChars_groups` — the lines become segments that are ready.
* `exists_etcrParseLine` — the whole pass; `etcrParseLine_eq_none` — when it reads in front of the
  buffer.

The buffer is what is done and what is still to do; nothing that is done changes any more.
-/

set_option autoImplicit false

namespace LibNax

namespace Etcr

section Chars

variable {malloc : Nat → Bool}

/-- Inside of a line, carriage returns become zeros. -/
theorem parseChars_inside (malloc : Nat → Bool) (l : Nat) (lines : List Nat) (rest : List UInt8) (n : Nat) :
    ∀ (t q : List UInt8), lineFeed ∉ t →
      parseChars malloc (t.length + n) q.length ⟨q ++ t ++ rest, some l, lines⟩ =
        parseChars malloc n (q.length + t.length) ⟨q ++ zeroReturns t ++ rest, some l, lines⟩
  | [], q, _ => by simp [zeroReturns]
  | c :: t, q, ht => by
    have hc : c ≠ lineFeed := fun h => ht (h ▸ List.mem_cons_self)
    have hnext := parseChars_inside malloc l lines rest n t
      (q ++ [if c = carriageReturn then 0 else c]) fun h => ht (List.mem_cons_of_mem c h)
    have hget : (q ++ c :: t ++ rest)[q.length]? = some c := by simp
    have hround : parseChar malloc ⟨q ++ c :: t ++ rest, some l, lines⟩ q.length =
        some (some ⟨q ++ [if c = carriageReturn then 0 else c] ++ t ++ rest, some l, lines⟩) := by
      simp only [parseChar, hget, Option.bind_eq_bind, Option.bind_some, if_neg hc]
      split
      · simp
      · simp
    rw [List.length_cons, Nat.add_right_comm, parseChars, hround]
    rw [List.length_append, List.length_singleton] at hnext
    simp only [Option.bind_eq_bind, Option.bind_some, hnext]
    congr 1
    · omega
    · simp [zeroReturns]

/-- A line begins with its first character, whatever that is. -/
theorem parseChars_begin (hmalloc : ∀ i, malloc i = true) (data : List UInt8) (lines : List Nat)
    (n i : Nat) : parseChars malloc (n + 1) i ⟨data, none, lines⟩ =
      parseChars malloc n (i + 1) ⟨data, some i, lines⟩ := by
  rw [parseChars, parseChar]
  simp [hmalloc i]

/-- The spaces that are left of a line. -/
def Blank (g : List UInt8) : Prop :=
  cutComment (cutReturn g) ≠ [] ∧ trim (cutComment (cutReturn g)) = []

/-- A line becomes a segment that is ready. -/
theorem parseChars_group (hmalloc : ∀ i, malloc i = true) {q g : List UInt8}
    (hq : q = [] ∨ Stops q) (hg : g ≠ []) (hfeed : lineFeed ∉ g.tail) (hzero : 0 ∉ g)
    (rest : List UInt8) (lines : List Nat) (n : Nat) :
    (q = [] ∧ Blank g ∧ parseChars malloc (g.length + 1 + n) q.length
      ⟨q ++ (g ++ [lineFeed]) ++ rest, none, lines⟩ = none) ∨
    ∃ σ head, (q = [] → ¬Blank g) ∧ σ.length = g.length + 1 ∧ Ready (cutComment (cutReturn g)) σ head ∧
      parseChars malloc (g.length + 1 + n) q.length
          ⟨q ++ (g ++ [lineFeed]) ++ rest, none, lines⟩ =
        parseChars malloc n (q ++ σ).length
          ⟨q ++ σ ++ rest, none, lines ++ (head.map (q.length + ·)).toList⟩ := by
  obtain ⟨a, t, rfl⟩ := List.exists_cons_of_ne_nil hg
  obtain ⟨z, hz, hclosed⟩ := exists_zeroReturns t
  have hcut : 0 ∉ cutReturn (a :: t) := by
    intro h
    rcases List.mem_cons.mp h with h | h
    · exact hzero (h ▸ List.mem_cons_self)
    · exact hzero (List.mem_cons_of_mem a ((List.takeWhile_prefix _).subset h))
  have hlen : (cutReturn (a :: t) ++ 0 :: z).length = (a :: t).length + 1 := by
    have hz' := congrArg List.length hz
    simp only [cutReturn, zeroReturns, List.length_append, List.length_cons, List.length_map,
      List.length_nil] at hz' ⊢
    omega
  have hinside := parseChars_inside malloc q.length lines (lineFeed :: rest) (n + 1) t
    (q ++ [a]) hfeed
  have hget : (q ++ [a] ++ zeroReturns t ++ lineFeed :: rest)[q.length + 1 + t.length]? =
      some lineFeed := by
    have hpos : q.length + 1 + t.length = (q ++ [a] ++ zeroReturns t).length := by
      simp only [List.length_append, List.length_singleton, zeroReturns, List.length_map]
    rw [hpos]
    simp
  have hset : (q ++ [a] ++ zeroReturns t ++ lineFeed :: rest).set (q.length + 1 + t.length) 0 =
      q ++ (cutReturn (a :: t) ++ 0 :: z) ++ rest := by
    have hpos : q.length + 1 + t.length = (q ++ [a] ++ zeroReturns t).length := by
      simp only [List.length_append, List.length_singleton, zeroReturns, List.length_map]
    rw [hpos, cutReturn, List.cons_append, ← hz]
    simp
  have hrun : parseChars malloc ((a :: t).length + 1 + n) q.length
      ⟨q ++ (a :: t ++ [lineFeed]) ++ rest, none, lines⟩ =
      (etcrFilter (q ++ (cutReturn (a :: t) ++ 0 :: z) ++ rest) q.length).bind fun r =>
        parseChars malloc n (q.length + ((a :: t).length + 1))
          ⟨r.1, none, lines ++ r.2.toList⟩ := by
    have hcount : (a :: t).length + 1 + n = t.length + (n + 1) + 1 := by
      simp only [List.length_cons]
      omega
    have hdata : q ++ (a :: t ++ [lineFeed]) ++ rest = q ++ [a] ++ t ++ lineFeed :: rest := by simp
    rw [List.length_append, List.length_singleton] at hinside
    rw [hcount, hdata, parseChars_begin hmalloc, hinside, parseChars, parseChar]
    have hpos : q.length + 1 + t.length + 1 = q.length + ((a :: t).length + 1) := by
      rw [List.length_cons]
      omega
    simp only [hget, Option.bind_eq_bind, Option.bind_some, if_true, hset, hpos]
    cases etcrFilter (q ++ (cutReturn (a :: t) ++ 0 :: z) ++ rest) q.length with
    | none => rfl
    | some r => rfl
  rw [hrun]
  rcases etcrFilter_ready hq hcut hclosed rest with
    ⟨rfl, hne, htrim, hnone⟩ | ⟨σ, head, hnot, hσ, hready, hfilter⟩
  · left
    exact ⟨rfl, ⟨hne, htrim⟩, by rw [hnone]; rfl⟩
  · right
    refine ⟨σ, head, fun hq hblank => hnot hq hblank.1 hblank.2, hσ.trans hlen, hready, ?_⟩
    rw [hfilter, Option.bind_some, List.length_append, hσ, hlen]

/-- Where the lines begin that are left of the segments from a position on. -/
def heads : Nat → List (List UInt8 × Option Nat) → List Nat
  | _, [] => []
  | pos, (σ, head) :: segs => (head.map (pos + ·)).toList ++ heads (pos + σ.length) segs

/-- The lines, each with its end. -/
def joinLines (groups : List (List UInt8)) : List UInt8 := groups.flatMap (· ++ [lineFeed])

/-- Something that the loop takes for a line. -/
structure Group (g : List UInt8) : Prop where
  ne_nil : g ≠ []
  feed : lineFeed ∉ g.tail
  zero : 0 ∉ g

/-- The segments are the ones of the lines. -/
def Segments (groups : List (List UInt8)) (segs : List (List UInt8 × Option Nat)) : Prop :=
  List.Forall₂ (fun g seg => Ready (cutComment (cutReturn g)) seg.1 seg.2) groups segs

/-- All lines become segments that are ready. -/
theorem parseChars_groups (hmalloc : ∀ i, malloc i = true) (rest : List UInt8) (n : Nat) :
    ∀ (groups : List (List UInt8)) (q : List UInt8) (lines : List Nat), (∀ g ∈ groups, Group g) →
      (Stops q ∨ (q = [] ∧ ∀ g ∈ groups.head?, ¬Blank g)) →
      ∃ segs, Segments groups segs ∧
        parseChars malloc ((joinLines groups).length + n) q.length
            ⟨q ++ joinLines groups ++ rest, none, lines⟩ =
          parseChars malloc n (q ++ segs.flatMap Prod.fst).length
            ⟨q ++ segs.flatMap Prod.fst ++ rest, none, lines ++ heads q.length segs⟩
  | [], q, lines, _, _ => ⟨[], .nil, by simp [joinLines, heads]⟩
  | g :: groups, q, lines, hgroups, hq => by
    have hg := hgroups g List.mem_cons_self
    have hstart : q = [] ∨ Stops q := hq.elim Or.inr fun h => Or.inl h.1
    have hlen : (joinLines (g :: groups)).length + n =
        g.length + 1 + ((joinLines groups).length + n) := by
      simp only [joinLines, List.flatMap_cons, List.length_append, List.length_singleton]
      omega
    have hdata : q ++ joinLines (g :: groups) ++ rest =
        q ++ (g ++ [lineFeed]) ++ (joinLines groups ++ rest) := by
      simp [joinLines]
    rcases parseChars_group hmalloc hstart hg.ne_nil hg.feed hg.zero (joinLines groups ++ rest)
      lines ((joinLines groups).length + n) with
      ⟨rfl, hblank, -⟩ | ⟨σ, head, -, -, hready, hrun⟩
    · refine hq.elim (fun h => ?_) fun h => absurd hblank (h.2 g rfl)
      obtain ⟨q', c, h, -⟩ := h
      simp at h
    · obtain ⟨segs, hsegs, hnext⟩ := parseChars_groups hmalloc rest n groups (q ++ σ)
        (lines ++ (head.map (q.length + ·)).toList)
        (fun g hg => hgroups g (List.mem_cons_of_mem _ hg))
        (Or.inl (hready.closed.append q).stops)
      refine ⟨(σ, head) :: segs, .cons hready hsegs, ?_⟩
      rw [hlen, hdata, hrun, ← List.append_assoc (q ++ σ), hnext]
      simp only [List.flatMap_cons, List.append_assoc, heads, List.length_append]

/-- What is behind the last end of a line is not made a line. -/
theorem parseChars_unfinished (hmalloc : ∀ i, malloc i = true) {u : List UInt8}
    (hu : lineFeed ∉ u.tail) (q : List UInt8) (lines : List Nat) :
    ∃ line U, parseChars malloc u.length q.length ⟨q ++ u, none, lines⟩ =
      some (some ⟨q ++ U, line, lines⟩) := by
  cases u with
  | nil => exact ⟨none, [], by simp [parseChars]⟩
  | cons a t =>
    have hinside := parseChars_inside malloc q.length lines [] 0 t (q ++ [a]) hu
    refine ⟨some q.length, a :: zeroReturns t, ?_⟩
    rw [List.length_append, List.length_singleton] at hinside
    rw [List.length_cons, parseChars_begin hmalloc]
    simpa [parseChars] using hinside

/-- **The first pass**: the segments of the lines, and where their strings begin. -/
theorem exists_etcrParseLine (hmalloc : ∀ i, malloc i = true) {groups : List (List UInt8)}
    (hgroups : ∀ g ∈ groups, Group g) (hhead : ∀ g ∈ groups.head?, ¬Blank g) {u : List UInt8}
    (hu : lineFeed ∉ u.tail) : ∃ segs U, Segments groups segs ∧
      etcrParseLine malloc (joinLines groups ++ u) =
        some (some (segs.flatMap Prod.fst ++ U, heads 0 segs)) := by
  obtain ⟨segs, hsegs, hrun⟩ := parseChars_groups hmalloc u u.length groups [] [] hgroups
    (Or.inr ⟨rfl, hhead⟩)
  obtain ⟨line, U, hend⟩ := parseChars_unfinished hmalloc hu (segs.flatMap Prod.fst) (heads 0 segs)
  refine ⟨segs, U, hsegs, ?_⟩
  simp only [List.nil_append, List.length_nil] at hrun
  rw [etcrParseLine, List.length_append, hrun, hend]
  rfl

/-- Spaces on the first line are read in front of the buffer. -/
theorem etcrParseLine_eq_none (hmalloc : ∀ i, malloc i = true) {g : List UInt8} (hg : Group g)
    (hblank : Blank g) (groups : List (List UInt8)) (u : List UInt8) :
    etcrParseLine malloc (joinLines (g :: groups) ++ u) = none := by
  have hlen : (joinLines (g :: groups) ++ u).length =
      g.length + 1 + (joinLines groups ++ u).length := by
    simp only [joinLines, List.flatMap_cons, List.length_append, List.length_singleton]
    omega
  have hdata : joinLines (g :: groups) ++ u =
      [] ++ (g ++ [lineFeed]) ++ (joinLines groups ++ u) := by
    simp [joinLines]
  rcases parseChars_group hmalloc (Or.inl rfl) hg.ne_nil hg.feed hg.zero (joinLines groups ++ u)
    [] (joinLines groups ++ u).length with ⟨-, -, hrun⟩ | ⟨σ, head, hnot, -⟩
  · rw [etcrParseLine, hlen, hdata]
    exact congrArg (Option.map _) hrun
  · exact absurd hblank (hnot rfl)

/-- If there is memory for all lines, it does not matter for which positions there is. -/
theorem parseChars_of_memory (malloc : Nat → Bool) : ∀ (n i : Nat) (s : LineState),
    parseChars malloc n i s = some none ∨
      parseChars malloc n i s = parseChars (fun _ => true) n i s
  | 0, _, _ => Or.inr rfl
  | n + 1, i, s => by
    have hround : parseChar malloc s i = some none ∨
        parseChar malloc s i = parseChar (fun _ => true) s i := by
      rw [parseChar, parseChar]
      cases s.line with
      | some line => exact Or.inr rfl
      | none =>
        cases hmalloc : malloc i with
        | false => simp
        | true => simp
    rw [parseChars, parseChars]
    rcases hround with hround | hround
    · left
      rw [hround]
      rfl
    · rw [hround]
      cases parseChar (fun _ => true) s i with
      | none => exact Or.inr rfl
      | some o =>
        cases o with
        | none => exact Or.inr rfl
        | some s => exact parseChars_of_memory malloc n (i + 1) s

end Chars

end Etcr

end LibNax
