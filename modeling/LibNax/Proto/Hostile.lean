import LibNax.Proto.RoundTrip

/-!
# What a peer may send

`build` on a buffer that anybody may have written.

* `build_sound` — whatever `build` accepts is the text of an object, and it stops behind that text;
  whatever it refuses leaves complete elements in a vector, and nothing anywhere else.
* `Ty.Hostile` — a buffer that announces a string of `2 ^ 31` bytes or more whose size, as an
  `int`, is not more than the bytes that are left.
* `build_eq_none_iff` — exactly then `build` reads behind the end.

A buffer is read from a position to its end: the position and `cb` add up to its length.  The proofs
are by induction over the type, with a lemma for the loop over the elements of a vector.
-/

set_option autoImplicit false

namespace LibNax

namespace Proto

open Lib (int32 InInt32 slice leBytes)

/-! ## Numbers and characters in a buffer -/

theorem drop_eq_loadWord {n pos : Nat} {mem : List UInt8} (h : pos + n ≤ mem.length) :
    mem.drop pos = encodeWord (loadWord n mem pos) ++ mem.drop (pos + n) := by
  have hlen : (slice mem pos n).length = n := Lib.length_slice h
  have hback := Lib.leBytes_leNat (slice mem pos n)
  rw [hlen] at hback
  rw [encodeWord, loadWord, BitVec.toNat_ofNat, Lib.leBytes_mod, hback, slice, ← List.drop_drop,
    List.take_append_drop]

@[simp] theorem length_assign (n : Nat) (mem : List UInt8) (pos count : Nat) :
    (assign n mem pos count).length = count := by
  simp [assign]

theorem drop_eq_assign (n pos : Nat) (mem : List UInt8) : ∀ count : Nat,
    pos + n * count ≤ mem.length →
      mem.drop pos = (assign n mem pos count).flatMap encodeWord ++ mem.drop (pos + n * count)
  | 0, _ => rfl
  | count + 1, h => by
    rw [Nat.mul_succ, ← Nat.add_assoc] at h
    have hbefore := drop_eq_assign n pos mem count (by omega)
    rw [hbefore, drop_eq_loadWord h, assign, assign, List.range_succ,
      List.map_append, List.flatMap_append, List.append_assoc, Nat.mul_succ, Nat.add_assoc]
    simp

theorem crtBuild_of_lt {n : Nat} (old : BitVec (8 * n)) (mem : List UInt8) (pos : Nat) {cb : Nat}
    (h : cb < n) : crtBuild old mem (some (pos : Int)) cb = some (old, none, (cb : Int)) := by
  rw [crtBuild, if_pos (by omega)]

theorem crtBuild_of_le {n : Nat} (old : BitVec (8 * n)) {mem : List UInt8} {pos cb : Nat}
    (hmem : mem.length < 2 ^ 31) (hcb : pos + cb = mem.length) (h : n ≤ cb) :
    crtBuild old mem (some (pos : Int)) cb =
      some (loadWord n mem pos, some ((pos + n : Nat) : Int), ((cb - n : Nat) : Int)) := by
  rw [crtBuild, if_neg (by omega), if_pos (by omega), Int.toNat_natCast,
    Lib.int32_of_inInt32 ⟨by omega, by omega⟩, Int.natCast_add, Int.natCast_sub h]

/-- The number in front of a string or a vector: it is there, or the buffer is too short. -/
theorem countBuild_cases (nl : CountType) (bigEndian : Bool) {mem : List UInt8} {pos cb : Nat}
    (hmem : mem.length < 2 ^ 31) (hcb : pos + cb = mem.length) :
    (∃ w, countBuild nl bigEndian mem (some (pos : Int)) cb = some (w, none, (cb : Int))) ∨
    ∃ (w : BitVec (8 * nl.size)) (rest : List UInt8),
      mem.drop pos = encodeWord (countWord nl bigEndian w.toNat) ++ rest ∧
      pos + nl.size + rest.length = mem.length ∧
      countBuild nl bigEndian mem (some (pos : Int)) cb =
        some (w, some ((pos + nl.size : Nat) : Int), (rest.length : Int)) := by
  rcases Nat.lt_or_ge cb nl.size with hlt | hge
  · left
    rw [countBuild, crtBuild_of_lt 0 mem pos hlt]
    exact ⟨_, rfl⟩
  · right
    have hread := crtBuild_of_le (0 : BitVec (8 * nl.size)) hmem hcb hge
    have hword : pos + nl.size ≤ mem.length := by omega
    have hdrop := drop_eq_loadWord hword
    have hrest : (mem.drop (pos + nl.size)).length = cb - nl.size := by
      rw [List.length_drop]
      omega
    refine ⟨if bigEndian then changeByteOrder (loadWord nl.size mem pos)
      else loadWord nl.size mem pos, mem.drop (pos + nl.size), ?_, by omega, ?_⟩
    · rw [hdrop, countWord, BitVec.ofNat_toNat, BitVec.setWidth_eq]
      cases bigEndian with
      | false => rfl
      | true => rw [if_pos rfl, if_pos rfl, changeByteOrder_changeByteOrder]
    · rw [countBuild, hread, hrest]
      rfl

/-! ## What is accepted -/

/-- What a target holds after an object was read into it: a vector is not emptied before. -/
def Ty.after : (t : Ty) → t.Val → t.Val → t.Val
  | .crt _, _, w => w
  | .string _ _ _, _, w => w
  | .vector t _ _, v, w => ((v : List t.Val) ++ (w : List t.Val) : List t.Val)

theorem after_fresh : ∀ (t : Ty) (w : t.Val), t.after t.fresh w = w
  | .crt _, _ => rfl
  | .string _ _ _, _ => rfl
  | .vector _ _ _, w => List.nil_append w

/-- What a target may hold after a message was refused: a number and a string are unchanged, and a
vector has got the elements that are complete. -/
def Ty.Partly : (t : Ty) → t.Val → t.Val → List UInt8 → Prop
  | .crt _, v, a, _ => a = v
  | .string _ _ _, v, a, _ => a = v
  | .vector t nl _, v, a, bytes => ∃ (items : List t.Val) (rest : List UInt8),
    (∀ i ∈ items, t.Fits i) ∧ a = ((v : List t.Val) ++ items : List t.Val) ∧
      bytes.drop nl.size = items.flatMap t.encode ++ rest

/-- The null pointer, and `cb` not more than it was. -/
def Refused (cb : Nat) (p : Option Int) (cb' : Int) : Prop := p = none ∧ 0 ≤ cb' ∧ cb' ≤ cb

/-- The pointer behind a text that is in the buffer, and in `cb` the bytes that are left. -/
def Behind (mem : List UInt8) (pos : Nat) (text : List UInt8) (p : Option Int) (cb' : Int) : Prop :=
  ∃ rest, mem.drop pos = text ++ rest ∧ p = some ((pos + text.length : Nat) : Int) ∧
    cb' = rest.length

theorem add_of_drop {mem text rest : List UInt8} {pos : Nat} (hpos : pos ≤ mem.length)
    (hmem : mem.drop pos = text ++ rest) : pos + text.length + rest.length = mem.length := by
  have hlen := congrArg List.length hmem
  rw [List.length_drop, List.length_append] at hlen
  omega

/-- The loop of `build`, over elements that are refused or read. -/
theorem buildItems_sound {α : Type} {enc : α → List UInt8} {P : α → Prop} {mem : List UInt8}
    {f : Option Int → Int → Option (α × Option Int × Int)}
    (hf : ∀ (pos cb : Nat) (a : α) (p : Option Int) (cb' : Int), pos + cb = mem.length →
      f (some (pos : Int)) cb = some (a, p, cb') →
        Refused cb p cb' ∨ P a ∧ Behind mem pos (enc a) p cb') :
    ∀ (n : Nat) (old : List α) (pos cb : Nat) (new : List α) (p : Option Int) (cb' : Int),
      pos + cb = mem.length → buildItems f n old (some (pos : Int)) cb = some (new, p, cb') →
        ∃ items : List α, (∀ i ∈ items, P i) ∧ new = old ++ items ∧
          ((∃ rest, mem.drop pos = items.flatMap enc ++ rest) ∧ Refused cb p cb' ∨
            items.length = n ∧ Behind mem pos (items.flatMap enc) p cb')
  | 0, old, pos, cb, new, p, cb', hcb, h => by
    rw [buildItems, Option.some.injEq, Prod.mk.injEq, Prod.mk.injEq] at h
    obtain ⟨rfl, rfl, rfl⟩ := h
    refine ⟨[], by simp, by simp, Or.inr ⟨rfl, mem.drop pos, rfl, by simp, ?_⟩⟩
    rw [List.length_drop]
    omega
  | n + 1, old, pos, cb, new, p, cb', hcb, h => by
    rw [buildItems, Option.bind_eq_bind, Option.bind_eq_some_iff] at h
    obtain ⟨⟨a, p₁, cb₁⟩, hread, h⟩ := h
    rcases hf pos cb a p₁ cb₁ hcb hread with ⟨rfl, hlow, hhigh⟩ | ⟨ha, rest, hdrop, rfl, rfl⟩
    · -- this element is refused: the ones before it stay
      obtain ⟨rfl, rfl, rfl⟩ : old = new ∧ none = p ∧ cb₁ = cb' := by simpa using h
      exact ⟨[], by simp, by simp, Or.inl ⟨⟨mem.drop pos, rfl⟩, rfl, hlow, hhigh⟩⟩
    · have hsum := add_of_drop (by omega) hdrop
      have hnext := drop_add_of_drop hdrop
      obtain ⟨items, hall, hnew, hcases⟩ :=
        buildItems_sound hf n (old ++ [a]) _ rest.length new p cb' hsum h
      refine ⟨a :: items, by simpa using ⟨ha, hall⟩, by simpa using hnew, ?_⟩
      rw [List.flatMap_cons]
      rcases hcases with ⟨⟨rest', hrest⟩, rfl, hlow, hhigh⟩ | ⟨hlen, rest', hrest, hp, hcb'⟩
      · refine Or.inl ⟨⟨rest', ?_⟩, rfl, hlow, by omega⟩
        rw [hdrop, List.append_assoc, ← hrest, hnext]
      · refine Or.inr ⟨by rw [List.length_cons, hlen], rest', ?_, ?_, hcb'⟩
        · rw [hdrop, List.append_assoc, ← hrest, hnext]
        · rw [hp, List.length_append, Nat.add_assoc]

/-- The characters of a string: they are all in the buffer, as many as announced. -/
theorem buildChars_sound {n : Nat} {mem : List UInt8} {count : Nat} {old a : List (BitVec (8 * n))}
    {pos cb : Nat} {p : Option Int} {cb' : Int} (hmem : mem.length < 2 ^ 31)
    (hcb : pos + cb = mem.length) (h : buildChars n mem count old pos cb = some (a, p, cb')) :
    a = old ∧ Refused cb p cb' ∨
      List.length a = count ∧ Behind mem pos (a.flatMap encodeWord) p cb' := by
  rw [buildChars] at h
  split at h
  · obtain ⟨rfl, rfl, rfl⟩ : old = a ∧ none = p ∧ (cb : Int) = cb' := by simpa using h
    exact Or.inl ⟨rfl, rfl, by omega, by omega⟩
  · split at h
    · obtain ⟨rfl, rfl, rfl⟩ : old = a ∧ none = p ∧ (cb : Int) = cb' := by simpa using h
      exact Or.inl ⟨rfl, rfl, by omega, by omega⟩
    · split at h
      · rename_i hin
        have hbytes : pos + n * count ≤ mem.length := by
          have := hin.2
          rw [← Int.natCast_mul] at this
          omega
        have hint : int32 ((n : Int) * count) = (n * count : Nat) := by
          rw [← Int.natCast_mul]
          exact Lib.int32_of_inInt32 ⟨by omega, by omega⟩
        rw [hint, Int.toNat_natCast, Option.some.injEq, Prod.mk.injEq, Prod.mk.injEq] at h
        obtain ⟨rfl, rfl, rfl⟩ := h
        have hlen : ((assign n mem pos count).flatMap encodeWord).length = n * count := by
          rw [length_flatMap_encodeWord, length_assign, Nat.mul_comm]
        refine Or.inr ⟨length_assign n mem pos count, mem.drop (pos + n * count),
          drop_eq_assign _ _ mem count hbytes, ?_, ?_⟩
        · rw [hlen, Int.natCast_add]
        · rw [Lib.int32_of_inInt32 ⟨by omega, by omega⟩, List.length_drop]
          omega
      · cases h

/-- An element of a vector is a fresh object. -/
theorem fresh_of_sound {t : Ty} {a : t.Val} {mem : List UInt8} {pos cb : Nat} {p : Option Int}
    {cb' : Int} (h : Refused cb p cb' ∧ t.Partly t.fresh a (mem.drop pos) ∨
      ∃ w, t.Fits w ∧ a = t.after t.fresh w ∧ Behind mem pos (t.encode w) p cb') :
    Refused cb p cb' ∨ t.Fits a ∧ Behind mem pos (t.encode a) p cb' := by
  rcases h with ⟨href, -⟩ | ⟨w, hw, rfl, hp⟩
  · exact Or.inl href
  · rw [after_fresh]
    exact Or.inr ⟨hw, hp⟩

/-- **Whatever `build` accepts is the text of an object**, and it stops behind that text. -/
theorem build_sound {mem : List UInt8} (hmem : mem.length < 2 ^ 31) : ∀ (t : Ty) (v a : t.Val)
    (pos cb : Nat) (p : Option Int) (cb' : Int), pos + cb = mem.length →
      t.build v mem (some (pos : Int)) cb = some (a, p, cb') →
        Refused cb p cb' ∧ t.Partly v a (mem.drop pos) ∨
          ∃ w, t.Fits w ∧ a = t.after v w ∧ Behind mem pos (t.encode w) p cb'
  | .crt t, v, a, pos, cb, p, cb', hcb, h => by
    rw [Ty.build] at h
    rcases Nat.lt_or_ge cb t.size with hlt | hge
    · rw [crtBuild_of_lt v mem pos hlt, Option.some.injEq, Prod.mk.injEq, Prod.mk.injEq] at h
      obtain ⟨rfl, rfl, rfl⟩ := h
      exact Or.inl ⟨⟨rfl, by omega, by omega⟩, rfl⟩
    · rw [crtBuild_of_le v hmem hcb hge, Option.some.injEq, Prod.mk.injEq, Prod.mk.injEq] at h
      obtain ⟨rfl, rfl, rfl⟩ := h
      refine Or.inr ⟨loadWord t.size mem pos, trivial, rfl, mem.drop (pos + t.size),
        drop_eq_loadWord (by omega), ?_, ?_⟩
      · rw [Ty.encode, length_encodeWord]
      · rw [List.length_drop]
        omega
  | .string t nl bigEndian, v, a, pos, cb, p, cb', hcb, h => by
    rw [Ty.build, Option.bind_eq_bind] at h
    rcases countBuild_cases nl bigEndian hmem hcb with
      ⟨w, hcount⟩ | ⟨w, rest, hdrop, hrest, hcount⟩
    · rw [hcount, Option.bind_some] at h
      obtain ⟨rfl, rfl, rfl⟩ : v = a ∧ none = p ∧ (cb : Int) = cb' := by simpa using h
      exact Or.inl ⟨⟨rfl, by omega, by omega⟩, rfl⟩
    · rw [hcount, Option.bind_some] at h
      have hnext := drop_add_of_drop hdrop
      rw [length_encodeWord] at hnext
      rcases buildChars_sound hmem hrest h with ⟨rfl, hp, hlow, hhigh⟩ |
          ⟨hlen, rest', hrest', hp, hcb'⟩
      · exact Or.inl ⟨⟨hp, hlow, by omega⟩, rfl⟩
      · refine Or.inr ⟨a, ?_, rfl, rest', ?_, ?_, hcb'⟩
        · rw [Ty.Fits, hlen]
          exact w.isLt
        · rw [hdrop, ← hnext, hrest', Ty.encode, hlen, List.append_assoc]
        · rw [hp, Ty.encode, List.length_append, length_encodeWord, Nat.add_assoc]
  | .vector t nl bigEndian, v, a, pos, cb, p, cb', hcb, h => by
    rw [Ty.build, Option.bind_eq_bind] at h
    rcases countBuild_cases nl bigEndian hmem hcb with
      ⟨w, hcount⟩ | ⟨w, rest, hdrop, hrest, hcount⟩
    · rw [hcount, Option.bind_some] at h
      obtain ⟨rfl, rfl, rfl⟩ : v = a ∧ none = p ∧ (cb : Int) = cb' := by simpa using h
      exact Or.inl ⟨⟨rfl, by omega, by omega⟩, [], _, by simp, by simp, rfl⟩
    · rw [hcount, Option.bind_some] at h
      have hnext := drop_add_of_drop hdrop
      rw [length_encodeWord] at hnext
      have hitem : ∀ (pos cb : Nat) (a : t.Val) (p : Option Int) (cb' : Int),
          pos + cb = mem.length → t.build t.fresh mem (some (pos : Int)) cb = some (a, p, cb') →
            Refused cb p cb' ∨ t.Fits a ∧ Behind mem pos (t.encode a) p cb' := by
        intro pos cb a p cb' hcb h
        exact fresh_of_sound (build_sound hmem t t.fresh a pos cb p cb' hcb h)
      obtain ⟨items, hall, rfl, hcases⟩ :=
        buildItems_sound hitem w.toNat v _ rest.length a p cb' hrest h
      rcases hcases with ⟨⟨rest', hrest'⟩, hp, hlow, hhigh⟩ | ⟨hlen, rest', hrest', hp, hcb'⟩
      · refine Or.inl ⟨⟨hp, hlow, by omega⟩, items, rest', hall, rfl, ?_⟩
        rw [List.drop_drop, hrest']
      · refine Or.inr ⟨items, ⟨?_, hall⟩, rfl, rest', ?_, ?_, hcb'⟩
        · rw [hlen]
          exact w.isLt
        · rw [hdrop, ← hnext, hrest', Ty.encode, hlen, List.append_assoc]
        · rw [hp, Ty.encode, List.length_append, length_encodeWord, Nat.add_assoc]

theorem fresh_sound {mem : List UInt8} (hmem : mem.length < 2 ^ 31) (t : Ty) (pos cb : Nat)
    (a : t.Val) (p : Option Int) (cb' : Int) (hcb : pos + cb = mem.length)
    (h : t.build t.fresh mem (some (pos : Int)) cb = some (a, p, cb')) :
    Refused cb p cb' ∨ t.Fits a ∧ Behind mem pos (t.encode a) p cb' :=
  fresh_of_sound (build_sound hmem t t.fresh a pos cb p cb' hcb h)

/-! ## What reads behind the end -/

/-- Bytes that announce, behind elements that are complete, a string whose `2 ^ 31` bytes or more
are as an `int` not more than the bytes that are left. -/
def Ty.Hostile : Ty → List UInt8 → Prop
  | .crt _, _ => False
  | .string t nl bigEndian, bytes => ∃ (count : Nat) (rest : List UInt8),
    count < 2 ^ (8 * nl.size) ∧ bytes = encodeWord (countWord nl bigEndian count) ++ rest ∧
      2 ^ 31 ≤ t.size * count ∧ count ≤ maxSize t.size ∧ int32 (t.size * count) ≤ rest.length
  | .vector t nl bigEndian, bytes => ∃ (count : Nat) (items : List t.Val) (rest : List UInt8),
    count < 2 ^ (8 * nl.size) ∧ items.length < count ∧ (∀ i ∈ items, t.Fits i) ∧
      bytes = encodeWord (countWord nl bigEndian count) ++ (items.flatMap t.encode ++ rest) ∧
      t.Hostile rest

/-- The number of elements in front of the rest of a buffer. -/
theorem countBuild_of_drop {nl : CountType} {bigEndian : Bool} {count : Nat}
    {mem rest : List UInt8} {pos cb : Nat} (hmem : mem.length < 2 ^ 31)
    (hcount : count < 2 ^ (8 * nl.size)) (hcb : pos + cb = mem.length)
    (hdrop : mem.drop pos = encodeWord (countWord nl bigEndian count) ++ rest) :
    ∃ w : BitVec (8 * nl.size), w.toNat = count ∧ pos + nl.size + rest.length = mem.length ∧
      mem.drop (pos + nl.size) = rest ∧ countBuild nl bigEndian mem (some (pos : Int)) cb =
        some (w, some ((pos + nl.size : Nat) : Int), (rest.length : Int)) := by
  have hsum := add_of_drop (by omega) hdrop
  have hnext := drop_add_of_drop hdrop
  rw [length_encodeWord] at hsum hnext
  have hint : InInt32 (cb : Int) := ⟨by omega, by omega⟩
  obtain ⟨w, hw, hread⟩ := countBuild_eq hcount (by omega) hdrop (by omega) hint
  have hleft : (cb : Int) - nl.size = rest.length := by omega
  exact ⟨w, hw, hsum, hnext, by rw [hread, hleft]⟩

/-- The characters of a string are read from behind the end exactly when their number does not fit
and is not found out. -/
theorem buildChars_eq_none_iff {n : Nat} {mem : List UInt8} {count : Nat}
    {old : List (BitVec (8 * n))} {pos cb : Nat} (hmem : mem.length < 2 ^ 31)
    (hcb : pos + cb = mem.length) : buildChars n mem count old pos cb = none ↔
      2 ^ 31 ≤ n * count ∧ count ≤ maxSize n ∧ int32 (n * count) ≤ cb := by
  rw [buildChars]
  split
  · exact iff_of_false (by simp) (by omega)
  · split
    · exact iff_of_false (by simp) (by omega)
    · rename_i hle hmax
      split
      · rename_i hin
        have hbytes := hin.2
        rw [← Int.natCast_mul] at hbytes
        exact iff_of_false (by simp) (by omega)
      · rename_i hout
        have hlarge : 2 ^ 31 ≤ n * count := by
          by_contra hsmall
          rw [← Int.natCast_mul] at hout hle
          rw [Lib.int32_of_inInt32 ⟨by omega, by omega⟩] at hle
          omega
        exact iff_of_true rfl ⟨hlarge, by omega, by omega⟩

/-- The loop of `build` reads behind the end when an element does, behind others that are read. -/
theorem buildItems_eq_none {α : Type} (enc : α → List UInt8) {P : α → Prop} {mem : List UInt8}
    {f : Option Int → Int → Option (α × Option Int × Int)}
    (hread : ∀ (a : α) (rest : List UInt8) (pos cb : Nat), P a → pos + cb = mem.length →
      mem.drop pos = enc a ++ rest → f (some (pos : Int)) cb =
        some (a, some ((pos + (enc a).length : Nat) : Int), (rest.length : Int))) :
    ∀ (items : List α) (n : Nat) (old : List α) (rest : List UInt8) (pos cb : Nat),
      (∀ i ∈ items, P i) → items.length < n → pos + cb = mem.length →
      mem.drop pos = items.flatMap enc ++ rest →
      f (some ((pos + (items.flatMap enc).length : Nat) : Int)) rest.length = none →
        buildItems f n old (some (pos : Int)) cb = none
  | _, 0, _, _, _, _, _, hlt, _, _, _ => absurd hlt (Nat.not_lt_zero _)
  | [], n + 1, old, rest, pos, cb, _, _, hcb, hdrop, hnone => by
    have hsum := add_of_drop (by omega) hdrop
    rw [List.flatMap_nil, List.length_nil, Nat.add_zero] at hsum hnone
    have hcb' : rest.length = cb := by omega
    rw [buildItems, ← hcb', hnone]
    rfl
  | a :: items, n + 1, old, rest, pos, cb, hall, hlt, hcb, hdrop, hnone => by
    rw [List.flatMap_cons, List.append_assoc] at hdrop
    rw [List.flatMap_cons, List.length_append, ← Nat.add_assoc] at hnone
    have hsum := add_of_drop (by omega) hdrop
    rw [buildItems, hread a _ pos cb (hall a List.mem_cons_self) hcb hdrop]
    exact buildItems_eq_none enc hread items n (old ++ [a]) rest _ _
      (fun i hi => hall i (List.mem_cons_of_mem a hi)) (Nat.lt_of_succ_lt_succ hlt) hsum
      (drop_add_of_drop hdrop) hnone

/-- Where the loop of `build` reads behind the end, an element does. -/
theorem exists_of_buildItems_eq_none {α : Type} {enc : α → List UInt8} {P : α → Prop}
    {mem : List UInt8} {f : Option Int → Int → Option (α × Option Int × Int)}
    (hf : ∀ (pos cb : Nat) (a : α) (p : Option Int) (cb' : Int), pos + cb = mem.length →
      f (some (pos : Int)) cb = some (a, p, cb') →
        Refused cb p cb' ∨ P a ∧ Behind mem pos (enc a) p cb') :
    ∀ (n : Nat) (old : List α) (pos cb : Nat), pos + cb = mem.length →
      buildItems f n old (some (pos : Int)) cb = none →
        ∃ (items : List α) (rest : List UInt8) (pos' : Nat), (∀ i ∈ items, P i) ∧
          items.length < n ∧ mem.drop pos = items.flatMap enc ++ rest ∧ mem.drop pos' = rest ∧
          pos' + rest.length = mem.length ∧ f (some (pos' : Int)) rest.length = none
  | 0, _, _, _, _, h => by simp [buildItems] at h
  | n + 1, old, pos, cb, hcb, h => by
    rw [buildItems, Option.bind_eq_bind, Option.bind_eq_none_iff] at h
    rcases hread : f (some (pos : Int)) cb with _ | ⟨a, p, cb'⟩
    · have hlen : (mem.drop pos).length = cb := by
        rw [List.length_drop]
        omega
      exact ⟨[], mem.drop pos, pos, by simp, Nat.succ_pos n, rfl,
        rfl, by omega, by rw [hlen, hread]⟩
    · have hrest := h _ hread
      rcases hf pos cb a p cb' hcb hread with ⟨rfl, -, -⟩ | ⟨ha, rest, hdrop, rfl, rfl⟩
      · simp at hrest
      · obtain ⟨items, rest', pos', hall, hlt, hdrop', hpos', hsum', hnone⟩ :=
          exists_of_buildItems_eq_none hf n (old ++ [a]) _ rest.length
            (add_of_drop (by omega) hdrop) hrest
        refine ⟨a :: items, rest', pos', by simpa using ⟨ha, hall⟩, Nat.succ_lt_succ hlt, ?_, hpos',
          hsum', hnone⟩
        rw [List.flatMap_cons, List.append_assoc, ← hdrop', drop_add_of_drop hdrop, hdrop]

/-- **`build` reads behind the end exactly on a hostile buffer.** -/
theorem build_eq_none_iff {mem : List UInt8} (hmem : mem.length < 2 ^ 31) : ∀ (t : Ty) (v : t.Val)
    (pos cb : Nat), pos + cb = mem.length →
      (t.build v mem (some (pos : Int)) cb = none ↔ t.Hostile (mem.drop pos))
  | .crt t, v, pos, cb, hcb => by
    rw [Ty.build]
    rcases Nat.lt_or_ge cb t.size with hlt | hge
    · rw [crtBuild_of_lt v mem pos hlt]
      exact iff_of_false (by simp) id
    · rw [crtBuild_of_le v hmem hcb hge]
      exact iff_of_false (by simp) id
  | .string t nl bigEndian, v, pos, cb, hcb => by
    rw [Ty.build, Option.bind_eq_bind]
    constructor
    · intro h
      rcases countBuild_cases nl bigEndian hmem hcb with
        ⟨w, hcount⟩ | ⟨w, rest, hdrop, hrest, hcount⟩
      · rw [hcount, Option.bind_some] at h
        cases h
      · rw [hcount, Option.bind_some] at h
        have hchars := (buildChars_eq_none_iff hmem hrest).mp h
        exact ⟨w.toNat, rest, w.isLt, hdrop, hchars⟩
    · rintro ⟨count, rest, hcount, hdrop, hchars⟩
      obtain ⟨w, rfl, hrest, -, hread⟩ := countBuild_of_drop hmem hcount hcb hdrop
      rw [hread, Option.bind_some]
      exact (buildChars_eq_none_iff hmem hrest).mpr hchars
  | .vector t nl bigEndian, v, pos, cb, hcb => by
    rw [Ty.build, Option.bind_eq_bind]
    constructor
    · intro h
      rcases countBuild_cases nl bigEndian hmem hcb with
        ⟨w, hcount⟩ | ⟨w, rest, hdrop, hrest, hcount⟩
      · rw [hcount, Option.bind_some] at h
        cases h
      · rw [hcount, Option.bind_some] at h
        have hnext := drop_add_of_drop hdrop
        rw [length_encodeWord] at hnext
        obtain ⟨items, rest', pos', hall, hlt, hdrop', rfl, hsum', hnone⟩ :=
          exists_of_buildItems_eq_none (fresh_sound hmem t) w.toNat v _ rest.length hrest h
        have hitem := (build_eq_none_iff hmem t t.fresh pos' _ hsum').mp hnone
        exact ⟨w.toNat, items, mem.drop pos', w.isLt, hlt, hall, by rw [hdrop, ← hnext, hdrop'],
          hitem⟩
    · rintro ⟨count, items, rest, hcount, hlt, hall, hdrop, hitem⟩
      obtain ⟨w, rfl, hrest, hnext, hread⟩ := countBuild_of_drop hmem hcount hcb hdrop
      have hsum := add_of_drop (by omega) hnext
      have hlast := drop_add_of_drop hnext
      rw [← hlast] at hitem
      rw [hread, Option.bind_some]
      refine buildItems_eq_none t.encode (P := t.Fits) ?_ items w.toNat v rest _ _ hall hlt hrest
        hnext ((build_eq_none_iff hmem t t.fresh _ _ hsum).mpr hitem)
      intro a rest pos cb ha hcb hdrop
      have hsum := add_of_drop (by omega) hdrop
      have hleft : (cb : Int) - (t.encode a).length = rest.length := by omega
      rw [build_eq t a mem rest pos cb ha (by omega) hdrop (by omega) ⟨by omega, by omega⟩, hleft]

/-! ## What it means to be safe -/

/-- `build` with the `cb` bytes of a buffer stays inside of it.  It gives the null pointer, and `cb`
is then not negative and not more than before; or the pointer behind the text of an object, with the
bytes that are left in `cb`.  The text of a string is the number that was announced and as many
characters. -/
def Ty.Safe (t : Ty) (v : t.Val) (mem : List UInt8) : Prop :=
  ∃ (a : t.Val) (p : Option Int) (cb : Int), t.build v mem (some 0) mem.length = some (a, p, cb) ∧
    (Refused mem.length p cb ∧ t.Partly v a mem ∨
      ∃ w, t.Fits w ∧ a = t.after v w ∧ Behind mem 0 (t.encode w) p cb)

/-- **The decoder is safe on every buffer that is not hostile, and on no other.** -/
theorem safe_iff {t : Ty} {v : t.Val} {mem : List UInt8} (hmem : mem.length < 2 ^ 31) :
    t.Safe v mem ↔ ¬ t.Hostile mem := by
  have hnone := build_eq_none_iff hmem t v 0 mem.length (Nat.zero_add _)
  rw [Int.natCast_zero, List.drop_zero] at hnone
  rw [← hnone]
  constructor
  · rintro ⟨a, p, cb, h, -⟩ habsent
    rw [h] at habsent
    cases habsent
  · intro h
    obtain ⟨⟨a, p, cb⟩, hbuild⟩ := Option.ne_none_iff_exists'.mp h
    have hsound := build_sound hmem t v a 0 mem.length p cb (Nat.zero_add _) hbuild
    exact ⟨a, p, cb, hbuild, hsound⟩

/-- The second string of two has `2 ^ 30` characters of four bytes: its size is `0` as an `int`. -/
theorem vector_not_safe : ¬ Ty.Safe (.vector (.string .uint32 .uint32 true) .uint8 false) []
    [2, 0, 0, 0, 0, 64, 0, 0, 0] := by
  have hitem : Ty.Hostile (.string .uint32 .uint32 true) [64, 0, 0, 0] :=
    ⟨2 ^ 30, [], by decide, by decide, by decide, by decide, by decide⟩
  have hfits : ∀ i ∈ ([[]] : List (List (BitVec 32))), i.length < 2 ^ 32 := by decide
  exact fun h => (safe_iff (by decide)).mp h
    ⟨2, [[]], [64, 0, 0, 0], by decide, by decide, hfits, by decide, hitem⟩

/-- A string of `2 ^ 32 - 1` characters in four bytes: its size is `-1` as an `int`. -/
theorem string_not_safe : ¬ Ty.Safe (.string .int8 .uint32 false) [] [255, 255, 255, 255] := by
  rintro ⟨a, p, cb, h, -⟩
  have hnone : Ty.build (.string .int8 .uint32 false) [] [255, 255, 255, 255] (some 0)
      4 = none := by
    decide
  rw [List.length_cons] at h
  exact absurd (hnone.symm.trans h) (by simp)

end Proto

end LibNax
