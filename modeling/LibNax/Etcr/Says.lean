import LibNax.Etcr.Pairs

/-!
# What a file says

The pairs of a file are the ones of its lines, as a reader of the file takes them.  The code takes
them from its own lines, which are different ones: a line that begins with a line feed goes on to
the next line feed, and a line without an end is not there.

* `Text` — the lines of a text; `Text.pairs` — what they say.
* `Reading` — what a line says, and what is stored of it.
* `Clear` — the texts whose readings agree where it matters.
* `Says` — the load stays inside of the buffer, and a query returns what the text says.
* `says_iff` — this is so for these texts, and for no others.
-/

set_option autoImplicit false

namespace LibNax

namespace Etcr

/-! ## The text -/

/-- A text without zeros: the lines that end with a line feed, and what is behind the last end. -/
structure Text where
  lines : List (List UInt8)
  last : List UInt8
  feed : ∀ r ∈ lines, lineFeed ∉ r
  feed_last : lineFeed ∉ last
  zero : ∀ r ∈ lines, 0 ∉ r
  zero_last : 0 ∉ last

/-- The bytes of a text. -/
def Text.bytes (t : Text) : List UInt8 := joinLines t.lines ++ t.last

/-- Every string without zeros is a text. -/
theorem exists_text : ∀ {s : List UInt8}, 0 ∉ s → ∃ t : Text, t.bytes = s
  | [], _ => ⟨⟨[], [], by simp, by simp, by simp, by simp⟩, rfl⟩
  | c :: s, hs => by
    obtain ⟨⟨lines, last, hfeed, hfeed', hzero, hzero'⟩, rfl⟩ :=
      exists_text fun h => hs (List.mem_cons_of_mem c h)
    have hc : (0 : UInt8) ≠ c := fun h => hs (h ▸ List.mem_cons_self)
    by_cases hline : c = lineFeed
    · refine ⟨⟨[] :: lines, last, ?_, hfeed', ?_, hzero'⟩, ?_⟩
      · simpa using hfeed
      · simpa using hzero
      · rw [hline]
        rfl
    · cases lines with
      | nil =>
        refine ⟨⟨[], c :: last, by simp, ?_, by simp, ?_⟩, rfl⟩
        · simpa [Ne.symm hline] using hfeed'
        · simpa [hc] using hzero'
      | cons r lines =>
        refine ⟨⟨(c :: r) :: lines, last, ?_, hfeed', ?_, hzero'⟩, ?_⟩
        · simpa [Ne.symm hline] using hfeed
        · simpa [hc] using hzero
        · simp [Text.bytes, joinLines]

/-- A line without the carriage return of its end. -/
def content (r : List UInt8) : List UInt8 :=
  if r.getLast? = some carriageReturn then r.dropLast else r

/-- The pair that a line says: cut at the first `#`, then at the first `=`. -/
def pairOf (line : List UInt8) : Option (List UInt8 × List UInt8) := splitPair (cutComment line)

/-- The pairs that a text says, in the order of the lines. -/
def Text.pairs (t : Text) : List (List UInt8 × List UInt8) :=
  (t.lines.map content ++ [t.last]).filterMap pairOf

/-- The load stays inside of the buffer, and a query returns the value of the first line with the
key. -/
def Says (memory : Memory) (t : Text) : Prop :=
  ∃ file, etcrLoadFromMemory memory t.bytes = some (0, some file) ∧
    ∀ key, 0 ∉ key → etcrQueryValueByKey file key = answer (t.pairs.lookup key)

/-! ## What is read -/

/-- A line: whether it stands behind an odd number of empty ones, so that it is read from the line
feed in front of it on; the pair it says; and the pair that is stored. -/
structure Reading where
  glued : Bool
  said : Option (List UInt8 × List UInt8)
  kept : Option (List UInt8 × List UInt8)

/-- A line, or what is read for it. -/
def glue (glued : Bool) (r : List UInt8) : List UInt8 := if glued then lineFeed :: r else r

/-- The readings of the lines, and of what is behind the last end; `n` pairs had a place before. -/
def readings (malloc : Nat → Bool) (last : List UInt8) : Bool → Nat → List (List UInt8) →
    List Reading
  | glued, _, [] => [⟨glued, pairOf last, none⟩]
  | glued, n, r :: rs =>
    ⟨glued, pairOf (content r), if malloc n then readPair (glue glued r) else none⟩ ::
      readings malloc last (!glued && r.isEmpty) (n + (readPair (glue glued r)).toList.length) rs

/-- The readings of a text. -/
def Text.readings (malloc : Nat → Bool) (t : Text) : List Reading :=
  Etcr.readings malloc t.last false 0 t.lines

/-- The texts that are read as they stand, where it matters. -/
structure Clear (memory : Memory) (t : Text) : Prop where
  /-- The first line is not one of spaces, and its key not blank. -/
  first : ∀ r ∈ t.lines.head?, ¬Blank r ∧ ¬BlankKey memory.pair 0 (readPair r)
  /-- No pair is stored from a line that is read from the line feed in front of it on. -/
  glued : ∀ x ∈ t.readings memory.pair, x.glued = true → x.kept = none
  /-- Where the pair of a line is not stored as it stands, the first pair that is stored with this
  key is as good. -/
  covered : ∀ x ∈ t.readings memory.pair, ∀ k v, x.said = some (k, v) → x.kept ≠ some (k, v) →
    ((t.readings memory.pair).filterMap Reading.kept).lookup k = t.pairs.lookup k

/-! ## Lines that are read -/

/-- The lines of the code, from lines of the text on. -/
def groups : Bool → List (List UInt8) → List (List UInt8)
  | _, [] => []
  | glued, r :: rs =>
    (if glue glued r = [] then [] else [glue glued r]) ++ groups (!glued && r.isEmpty) rs

/-- Whether what is behind the lines is read from a line feed on. -/
def pending : Bool → List (List UInt8) → Bool
  | glued, [] => glued
  | glued, r :: rs => pending (!glued && r.isEmpty) rs

/-- The text is the lines of the code, and what is behind them. -/
theorem joinLines_groups (last : List UInt8) : ∀ (glued : Bool) (rs : List (List UInt8)),
    glue glued (joinLines rs ++ last) =
      joinLines (groups glued rs) ++ glue (pending glued rs) last
  | _, [] => rfl
  | true, r :: rs => by
    have hnext := joinLines_groups last false rs
    simpa [glue, groups, pending, joinLines] using hnext
  | false, [] :: rs => by
    have hnext := joinLines_groups last true rs
    simpa [glue, groups, pending, joinLines] using hnext
  | false, (c :: r) :: rs => by
    have hnext := joinLines_groups last false rs
    simpa [glue, groups, pending, joinLines] using hnext

/-- What is stored of the lines of the code. -/
theorem storedPairs_groups (malloc : Nat → Bool) (last : List UInt8) :
    ∀ (glued : Bool) (n : Nat) (rs : List (List UInt8)),
      storedPairs malloc n ((groups glued rs).map readPair) =
        (readings malloc last glued n rs).filterMap Reading.kept
  | _, _, [] => rfl
  | glued, n, r :: rs => by
    have hnext := storedPairs_groups malloc last (!glued && r.isEmpty)
      (n + (readPair (glue glued r)).toList.length) rs
    rw [groups, readings, List.filterMap_cons, ← hnext]
    by_cases hnil : glue glued r = []
    · have hread : readPair (glue glued r) = none := by
        rw [hnil]
        rfl
      rw [if_pos hnil, hread]
      simp
    · rw [if_neg hnil, List.singleton_append, List.map_cons, storedPairs_cons]
      cases readPair (glue glued r) with
      | none => simp [storedPairs]
      | some kv =>
        by_cases hmalloc : malloc n = true
        · simp [storedPairs, hmalloc]
        · simp [storedPairs, hmalloc]

/-- The lines of the code are lines, and none of them is empty. -/
theorem group_of_mem : ∀ (glued : Bool) (rs : List (List UInt8)), (∀ r ∈ rs, lineFeed ∉ r) →
    (∀ r ∈ rs, 0 ∉ r) → ∀ g ∈ groups glued rs, Group g
  | _, [], _, _, g, hg => by simp [groups] at hg
  | glued, r :: rs, hfeed, hzero, g, hg => by
    rw [groups, List.mem_append] at hg
    rcases hg with hg | hg
    · split at hg
      · simp at hg
      · rename_i hne
        rw [List.mem_singleton] at hg
        have hr := hfeed r List.mem_cons_self
        have hr' := hzero r List.mem_cons_self
        subst hg
        refine ⟨hne, ?_, ?_⟩
        · cases glued with
          | true => simpa [glue] using hr
          | false => exact fun h => hr (List.mem_of_mem_tail h)
        · cases glued with
          | true => simpa [glue, lineFeed] using hr'
          | false => exact hr'
    · exact group_of_mem (!glued && r.isEmpty) rs (fun r h => hfeed r (List.mem_cons_of_mem _ h))
        (fun r h => hzero r (List.mem_cons_of_mem _ h)) g hg

/-- What the lines say. -/
theorem filterMap_said (malloc : Nat → Bool) (last : List UInt8) :
    ∀ (glued : Bool) (n : Nat) (rs : List (List UInt8)),
      (readings malloc last glued n rs).filterMap Reading.said =
        (rs.map content ++ [last]).filterMap pairOf
  | _, _, [] => rfl
  | glued, n, r :: rs => by
    have hnext := filterMap_said malloc last (!glued && r.isEmpty)
      (n + (readPair (glue glued r)).toList.length) rs
    rw [readings, List.map_cons, List.cons_append, List.filterMap_cons, List.filterMap_cons, hnext]

/-! ## The pair of a line -/

theorem mem_of_mem_key {e : List UInt8} {kv : List UInt8 × List UInt8} (h : pairOf e = some kv)
    {x : UInt8} (hx : x ∈ kv.1) : x ∈ e := by
  rw [pairOf, splitPair] at h
  split at h
  · rw [Option.some.injEq] at h
    rw [← h] at hx
    exact (List.takeWhile_prefix _).subset ((List.takeWhile_prefix _).subset (mem_of_mem_trim hx))
  · cases h

theorem cutReturn_subset (g : List UInt8) : cutReturn g ⊆ g := by
  cases g with
  | nil => exact List.Subset.refl _
  | cons a t => exact List.cons_subset_cons a (List.takeWhile_prefix _).subset

theorem content_subset (r : List UInt8) : content r ⊆ r := by
  rw [content]
  split
  · exact (List.dropLast_prefix r).subset
  · exact List.Subset.refl _

/-- A key that begins with a line feed keeps it. -/
theorem feed_mem_key {r : List UInt8} {kv : List UInt8 × List UInt8}
    (h : readPair (lineFeed :: r) = some kv) : lineFeed ∈ kv.1 := by
  have hcut : cutComment (cutReturn (lineFeed :: r)) =
      lineFeed :: cutComment (r.takeWhile (· ≠ carriageReturn)) := by
    rw [cutReturn, cutComment, List.takeWhile_cons_of_pos (by decide), cutComment]
  rw [readPair, hcut, splitPair] at h
  split at h
  · rw [Option.some.injEq] at h
    rw [← h, List.takeWhile_cons_of_pos (by decide)]
    exact mem_trim_of_mem List.mem_cons_self (by decide)
  · cases h

theorem takeWhile_prefix_takeWhile (p : UInt8 → Bool) {e s : List UInt8} (h : e <+: s) :
    e.takeWhile p <+: s.takeWhile p := by
  obtain ⟨x, rfl⟩ := h
  induction e with
  | nil => exact List.nil_prefix
  | cons a e ih =>
    rw [List.cons_append, List.takeWhile_cons, List.takeWhile_cons]
    split
    · exact (List.prefix_cons_inj a).mpr ih
    · exact List.prefix_refl _

/-- The key of a longer line is the same. -/
theorem pairOf_of_prefix {e s k v : List UInt8} (hes : e <+: s) (h : pairOf e = some (k, v)) :
    ∃ v', pairOf s = some (k, v') := by
  have hmem : equals ∈ cutComment e := by
    by_contra hnot
    rw [pairOf, splitPair_of_notMem hnot] at h
    cases h
  obtain ⟨a, b, hab, ha⟩ := List.eq_append_cons_of_mem hmem
  obtain ⟨y, hy⟩ := takeWhile_prefix_takeWhile (· ≠ hash) hes
  have hcut : cutComment s = a ++ equals :: (b ++ y) := by
    rw [cutComment, ← hy, ← cutComment, hab]
    simp
  rw [pairOf, hab, splitPair_eq ha, Option.some.injEq, Prod.mk.injEq] at h
  exact ⟨trim (b ++ y), by rw [pairOf, hcut, splitPair_eq ha, h.1]⟩

/-- What is read of a line is the front of what it says. -/
theorem cutReturn_prefix_content {r : List UInt8} (hr : r ≠ [carriageReturn]) :
    cutReturn r <+: content r := by
  rw [content]
  split
  · rename_i hlast
    cases r with
    | nil => cases hlast
    | cons a t =>
      have ht : t ≠ [] := by
        rintro rfl
        exact hr (by simpa using hlast)
      obtain ⟨y, hy⟩ := List.takeWhile_prefix (l := t) (· ≠ carriageReturn)
      have hne : y ≠ [] := by
        rintro rfl
        have hmem : carriageReturn ∈ t.takeWhile (· ≠ carriageReturn) := by
          rw [List.append_nil] at hy
          rw [hy]
          rw [List.getLast?_cons_of_ne_nil ht] at hlast
          exact List.mem_of_getLast? hlast
        simpa using List.mem_takeWhile_imp hmem
      rw [cutReturn, List.dropLast_cons_of_ne_nil ht, List.prefix_cons_inj]
      refine ⟨y.dropLast, ?_⟩
      rw [← List.dropLast_append_of_ne_nil hne, hy]
  · cases r with
    | nil => exact List.prefix_refl _
    | cons a t => exact (List.prefix_cons_inj a).mpr (List.takeWhile_prefix _)

/-- A carriage return inside of a line does not change the key that is read, if one is. -/
theorem exists_pairOf_content {r k v : List UInt8} (h : readPair r = some (k, v)) :
    ∃ v', pairOf (content r) = some (k, v') := by
  have hr : r ≠ [carriageReturn] := by
    rintro rfl
    cases h
  exact pairOf_of_prefix (cutReturn_prefix_content hr) h

/-! ## The readings -/

/-- What is read of a line, compared with what it says. -/
structure Reading.Fair (x : Reading) : Prop where
  said : ∀ kv, x.said = some kv → lineFeed ∉ kv.1 ∧ 0 ∉ kv.1
  kept : ∀ kv, x.kept = some kv → 0 ∉ kv.1
  glued : x.glued = true → ∀ kv, x.kept = some kv → lineFeed ∈ kv.1
  same : x.glued = false → ∀ k v, x.kept = some (k, v) → ∃ v', x.said = some (k, v')

theorem fair_of_mem (malloc : Nat → Bool) {last : List UInt8} (hlast : lineFeed ∉ last)
    (hlast' : 0 ∉ last) : ∀ (glued : Bool) (n : Nat) (rs : List (List UInt8)),
      (∀ r ∈ rs, lineFeed ∉ r) → (∀ r ∈ rs, 0 ∉ r) →
      ∀ x ∈ readings malloc last glued n rs, x.Fair
  | glued, n, [], _, _, x, hx => by
    rw [readings, List.mem_singleton] at hx
    subst hx
    refine ⟨fun kv h => ⟨fun hmem => ?_, fun hmem => ?_⟩, by simp, by simp, by simp⟩
    · exact hlast (mem_of_mem_key h hmem)
    · exact hlast' (mem_of_mem_key h hmem)
  | glued, n, r :: rs, hfeed, hzero, x, hx => by
    rw [readings, List.mem_cons] at hx
    rcases hx with rfl | hx
    · have hr := hfeed r List.mem_cons_self
      have hr' := hzero r List.mem_cons_self
      have hread : ∀ {kv}, (if malloc n then readPair (glue glued r) else none) = some kv →
          readPair (glue glued r) = some kv := by
        intro kv h
        split at h
        · exact h
        · cases h
      refine ⟨fun kv h => ⟨fun hmem => ?_, fun hmem => ?_⟩, fun kv h hmem => ?_, ?_, ?_⟩
      · exact hr (content_subset r (mem_of_mem_key h hmem))
      · exact hr' (content_subset r (mem_of_mem_key h hmem))
      · have hglue := cutReturn_subset _ (mem_of_mem_key (hread h) hmem)
        cases glued with
        | true => exact hr' (by simpa [glue, lineFeed] using hglue)
        | false => exact hr' hglue
      · rintro rfl kv h
        exact feed_mem_key (hread h)
      · rintro rfl k v h
        exact exists_pairOf_content (hread h)
    · exact fair_of_mem malloc hlast hlast' (!glued && r.isEmpty) _ rs
        (fun r h => hfeed r (List.mem_cons_of_mem _ h))
        (fun r h => hzero r (List.mem_cons_of_mem _ h)) x hx

theorem lookup_filterMap_cons (f : Reading → Option (List UInt8 × List UInt8)) {k : List UInt8}
    {x : Reading} (hx : ∀ v, f x ≠ some (k, v)) (l : List Reading) :
    ((x :: l).filterMap f).lookup k = (l.filterMap f).lookup k := by
  cases hfx : f x with
  | none => rw [List.filterMap_cons_none hfx]
  | some kv =>
    have hne : (k == kv.1) = false := beq_eq_false_iff_ne.mpr fun heq => hx kv.2 (by rw [hfx, heq])
    rw [List.filterMap_cons_some hfx, List.lookup_cons, hne]

/-- A key that the same readings have with the same values. -/
theorem lookup_filterMap_congr (k : List UInt8) {l : List Reading}
    (h : ∀ x ∈ l, ∀ v, x.said = some (k, v) ↔ x.kept = some (k, v)) :
    (l.filterMap Reading.kept).lookup k = (l.filterMap Reading.said).lookup k := by
  induction l with
  | nil => rfl
  | cons x l ih =>
    have hx := h x List.mem_cons_self
    have hnext := ih fun y hy => h y (List.mem_cons_of_mem x hy)
    by_cases hsaid : ∃ v, x.said = some (k, v)
    · obtain ⟨v, hsaid⟩ := hsaid
      rw [List.filterMap_cons_some ((hx v).mp hsaid), List.filterMap_cons_some hsaid,
        List.lookup_cons_self, List.lookup_cons_self]
    · rw [lookup_filterMap_cons _ (fun v hkept => hsaid ⟨v, (hx v).mpr hkept⟩),
        lookup_filterMap_cons _ (fun v h => hsaid ⟨v, h⟩), hnext]

/-- **The pairs that are stored are as good as the ones that are said**, if the readings are clear,
and not otherwise. -/
theorem lookup_iff {l : List Reading} (hfair : ∀ x ∈ l, x.Fair) :
    (∀ k, 0 ∉ k → (l.filterMap Reading.kept).lookup k = (l.filterMap Reading.said).lookup k) ↔
      (∀ x ∈ l, x.glued = true → x.kept = none) ∧
        ∀ x ∈ l, ∀ k v, x.said = some (k, v) → x.kept ≠ some (k, v) →
          (l.filterMap Reading.kept).lookup k = (l.filterMap Reading.said).lookup k := by
  constructor
  · intro hlookup
    refine ⟨fun x hx hglued => ?_, fun x hx k v hsaid _ => ?_⟩
    · rw [Option.eq_none_iff_forall_ne_some]
      rintro ⟨k, v⟩ hkept
      have hmem : (k, v) ∈ l.filterMap Reading.kept := List.mem_filterMap.mpr ⟨x, hx, hkept⟩
      have hnone : (l.filterMap Reading.said).lookup k = none := by
        rw [List.lookup_eq_none_iff]
        intro kv hkv
        obtain ⟨y, hy, hsaid⟩ := List.mem_filterMap.mp hkv
        rw [bne_iff_ne]
        rintro rfl
        exact ((hfair y hy).said kv hsaid).1 ((hfair x hx).glued hglued (kv.1, v) hkept)
      have hfound := hlookup k ((hfair x hx).kept _ hkept)
      rw [hnone, List.lookup_eq_none_iff] at hfound
      simpa using hfound _ hmem
    · exact hlookup k ((hfair x hx).said _ hsaid).2
  · rintro ⟨hglued, hcovered⟩ k -
    by_cases hbad : ∃ x ∈ l, ∃ v, x.said = some (k, v) ∧ x.kept ≠ some (k, v)
    · obtain ⟨x, hx, v, hsaid, hkept⟩ := hbad
      exact hcovered x hx k v hsaid hkept
    · refine lookup_filterMap_congr k fun x hx v => ⟨fun hsaid => ?_, fun hkept => ?_⟩
      · by_contra hkept
        exact hbad ⟨x, hx, v, hsaid, hkept⟩
      · have hnot : x.glued = false := by
          rw [← Bool.not_eq_true]
          intro h
          rw [hglued x hx h] at hkept
          cases hkept
        obtain ⟨v', hsaid⟩ := (hfair x hx).same hnot k v hkept
        have hsame : x.kept = some (k, v') := by
          by_contra hne
          exact hbad ⟨x, hx, v', hsaid, hne⟩
        rw [hsaid, ← hkept, hsame]

/-! ## The first line -/

theorem not_blank_feed (r : List UInt8) : ¬Blank (lineFeed :: r) := by
  rintro ⟨-, hblank⟩
  have hmem : lineFeed ∈ trim (cutComment (cutReturn (lineFeed :: r))) := by
    rw [cutReturn, cutComment, List.takeWhile_cons_of_pos (by decide)]
    exact mem_trim_of_mem List.mem_cons_self (by decide)
  rw [hblank] at hmem
  cases hmem

theorem not_blankKey_feed (malloc : Nat → Bool) (n : Nat) (r : List UInt8) :
    ¬BlankKey malloc n (readPair (lineFeed :: r)) := by
  rintro ⟨-, kv, hkv, hkey⟩
  have hmem := feed_mem_key hkv
  rw [hkey] at hmem
  cases hmem

/-- The first line of the code is the one of the text, or begins with a line feed. -/
theorem first_iff (malloc : Nat → Bool) (rs : List (List UInt8)) :
    (∀ g ∈ (groups false rs).head?, ¬Blank g ∧ ¬BlankKey malloc 0 (readPair g)) ↔
      ∀ r ∈ rs.head?, ¬Blank r ∧ ¬BlankKey malloc 0 (readPair r) := by
  cases rs with
  | nil => exact iff_of_true (by simp [groups]) (by simp)
  | cons r rs =>
    cases r with
    | cons c r => simp [groups, glue]
    | nil =>
      refine iff_of_true ?_ ?_
      · cases rs with
        | nil => simp [groups, glue]
        | cons r rs =>
          intro g hg
          simp only [groups, glue, Bool.false_eq_true, if_false, if_true, List.nil_append,
            List.isEmpty_nil, Bool.not_false, Bool.and_self, List.cons_ne_nil] at hg
          cases hg
          exact ⟨not_blank_feed r, not_blankKey_feed malloc 0 r⟩
      · rintro r hr
        cases hr
        refine ⟨fun h => h.1 rfl, ?_⟩
        rintro ⟨-, kv, hkv, -⟩
        cases hkv

/-- **The reader returns what the file says** exactly for the texts that are clear. -/
theorem says_iff (memory : Memory) (t : Text)
    (hload : ∀ status, etcrLoadFromMemory memory t.bytes ≠ some (status, none)) :
    Says memory t ↔ Clear memory t := by
  obtain ⟨hne, hbuffer, hsame⟩ := etcrLoadFromMemory_of_memory hload
  have hbytes : t.bytes = joinLines (groups false t.lines) ++ glue (pending false t.lines) t.last :=
    joinLines_groups t.last false t.lines
  have hgroups := group_of_mem false t.lines t.feed t.zero
  have hu : lineFeed ∉ (glue (pending false t.lines) t.last).tail := by
    cases pending false t.lines with
    | true => exact t.feed_last
    | false => exact fun h => t.feed_last (List.mem_of_mem_tail h)
  have hfair := fair_of_mem memory.pair t.feed_last t.zero_last false 0 t.lines t.feed
    t.zero
  have hsaid : (t.readings memory.pair).filterMap Reading.said = t.pairs :=
    filterMap_said memory.pair t.last false 0 t.lines
  have hkept := storedPairs_groups memory.pair t.last false 0 t.lines
  have hiff := lookup_iff hfair
  rw [← Text.readings, hsaid] at hiff
  -- What the load does, if the first line does not lead out of the buffer.
  have hloaded : (∀ r ∈ t.lines.head?, ¬Blank r ∧ ¬BlankKey memory.pair 0 (readPair r)) →
      ∃ file, etcrLoadFromMemory memory t.bytes = some (0, some file) ∧
        Holds file.data file.root ((t.readings memory.pair).filterMap Reading.kept) := by
    intro hfirst
    rw [hbytes] at hne
    rw [hsame, hbytes, Text.readings, ← hkept]
    exact exists_load hbuffer (fun _ => rfl) hgroups hu hne ((first_iff memory.pair t.lines).mpr
      hfirst)
  constructor
  · rintro ⟨file, hfile, hquery⟩
    have hfirst : ∀ r ∈ t.lines.head?, ¬Blank r ∧ ¬BlankKey memory.pair 0 (readPair r) := by
      rw [← first_iff]
      intro g hg
      by_contra hbad
      rw [not_and_or, not_not, not_not] at hbad
      have hnone : etcrLoadFromMemory { memory with line := fun _ => true }
          (joinLines (groups false t.lines) ++ glue (pending false t.lines) t.last) = none :=
        etcrLoadFromMemory_eq_none hbuffer (fun _ => rfl) hgroups hu hg hbad
      rw [hsame, hbytes, hnone] at hfile
      cases hfile
    obtain ⟨file', hfile', hholds⟩ := hloaded hfirst
    rw [hfile] at hfile'
    cases hfile'
    have hlookup : ∀ k, 0 ∉ k →
        ((t.readings memory.pair).filterMap Reading.kept).lookup k = t.pairs.lookup k :=
      fun k hk => answer_injective ((hholds.query_eq hk).symm.trans (hquery k hk))
    obtain ⟨hglued, hcovered⟩ := hiff.mp hlookup
    exact ⟨hfirst, hglued, hcovered⟩
  · intro hclear
    obtain ⟨file, hfile, hholds⟩ := hloaded hclear.first
    refine ⟨file, hfile, fun key hkey => ?_⟩
    rw [hholds.query_eq hkey, hiff.mpr ⟨hclear.glued, hclear.covered⟩ key hkey]

/-- There is memory for everything. -/
def ample : Memory := ⟨true, fun _ => true, fun _ => true⟩

/-- `"k =v\r\n#=\n"`. -/
def plainText : Text where
  lines := [[0x6B, 0x20, 0x3D, 0x76, 0x0D], [0x23, 0x3D]]
  last := []
  feed := by decide
  feed_last := by decide
  zero := by decide
  zero_last := by decide

theorem plain_text_said : Says ample plainText := by
  have hpair : readPair [0x6B, 0x20, 0x3D, 0x76, 0x0D] = some ([0x6B], [0x76]) := by decide
  have hreadings : ∀ x ∈ plainText.readings ample.pair, x.glued = false ∧ x.kept = x.said := by
    decide
  refine (says_iff ample plainText fun status h => ?_).mpr ⟨?_, ?_, ?_⟩
  · cases h
  · rintro r hr
    cases hr
    refine ⟨fun h => absurd h.2 (by decide), ?_⟩
    rintro ⟨-, kv, hkv, hkey⟩
    rw [hpair] at hkv
    cases hkv
    cases hkey
  · intro x hx hglued
    rw [(hreadings x hx).1] at hglued
    cases hglued
  · intro x hx k v hsaid hkept
    exact absurd ((hreadings x hx).2.trans hsaid) hkept

/-- `"\nk=v\n"`. -/
def gappedText : Text where
  lines := [[], [0x6B, 0x3D, 0x76]]
  last := []
  feed := by decide
  feed_last := by decide
  zero := by decide
  zero_last := by decide

/-- The line behind an empty one is not found. -/
theorem gapped_text_not_said :
    (∃ file, etcrLoadFromMemory ample gappedText.bytes = some (0, some file) ∧
      etcrQueryValueByKey file [0x6B] = (eNoent, none)) ∧ ¬Says ample gappedText := by
  have hfound : ∃ file, etcrLoadFromMemory ample gappedText.bytes = some (0, some file) ∧
      etcrQueryValueByKey file [0x6B] = (eNoent, none) := ⟨⟨_, _⟩, rfl, by decide⟩
  refine ⟨hfound, ?_⟩
  rintro ⟨file, hfile, hquery⟩
  obtain ⟨file', hfile', hnone⟩ := hfound
  rw [hfile] at hfile'
  cases hfile'
  rw [hquery [0x6B] (by decide)] at hnone
  exact absurd hnone (by decide)

end Etcr

end LibNax
