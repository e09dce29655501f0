import LibNax.Etcr.Strings

/-!
# One line in the buffer

A line is a segment of the buffer that ends with a zero, behind other segments.

* `cutReturn` — the string of a line whose carriage returns became zeros.
* `splitPair` — the key and the value of a string.
* `Ready` — a segment as `_etcr_filter` leaves it; `etcrFilter_ready` — it does so.
* `parsePair_of_pair` — what `_etcr_parse_kvpair` does to a segment with a pair.

The only byte that is ever read outside of a segment is the one in front of it.
-/

set_option autoImplicit false

namespace LibNax

namespace Etcr

open Naos (strchr)

/-- A segment ends with a zero. -/
def Closed (σ : List UInt8) : Prop := ∃ σ', σ = σ' ++ [0]

theorem Closed.stops {σ : List UInt8} (h : Closed σ) : Stops σ := by
  obtain ⟨σ', rfl⟩ := h
  exact ⟨σ', 0, rfl, zero_ne_space⟩

theorem Closed.append {σ : List UInt8} (h : Closed σ) (q : List UInt8) : Closed (q ++ σ) := by
  obtain ⟨σ', rfl⟩ := h
  exact ⟨q ++ σ', by rw [List.append_assoc]⟩

theorem Closed.cons {σ : List UInt8} (h : Closed σ) (c : UInt8) : Closed (c :: σ) := h.append [c]

theorem closed_zero : Closed [0] := ⟨[], rfl⟩

theorem Closed.zero_mem_drop {σ : List UInt8} (h : Closed σ) {pos : Nat} (hpos : pos < σ.length) :
    0 ∈ σ.drop pos := by
  obtain ⟨σ', rfl⟩ := h
  rw [List.length_append, List.length_singleton] at hpos
  rw [List.drop_append_of_le_length (by omega)]
  simp

/-! ## The string of a line -/

/-- The characters behind the first one, with zeros for carriage returns. -/
def zeroReturns (t : List UInt8) : List UInt8 := t.map fun c => if c = carriageReturn then 0 else c

/-- What is left of a line when its carriage returns are zeros; the first character is not looked
at. -/
def cutReturn : List UInt8 → List UInt8
  | [] => []
  | a :: t => a :: t.takeWhile (· ≠ carriageReturn)

theorem exists_zeroReturns : ∀ t : List UInt8, ∃ z, zeroReturns t ++ [0] =
    t.takeWhile (· ≠ carriageReturn) ++ 0 :: z ∧ Closed (0 :: z)
  | [] => ⟨[], rfl, closed_zero⟩
  | c :: t => by
    by_cases hc : c = carriageReturn
    · refine ⟨zeroReturns t ++ [0], ?_, (closed_zero.append _).cons 0⟩
      simp [zeroReturns, hc]
    · obtain ⟨z, hz, hclosed⟩ := exists_zeroReturns t
      refine ⟨z, ?_, hclosed⟩
      rw [List.takeWhile_cons_of_pos (by simpa using hc), List.cons_append, ← hz]
      simp [zeroReturns, hc]

/-! ## The string of a pair -/

/-- The key and the value of a string that has `=`. -/
def splitPair (e : List UInt8) : Option (List UInt8 × List UInt8) :=
  if equals ∈ e then
    some (trim (e.takeWhile (· ≠ equals)), trim ((e.dropWhile (· ≠ equals)).drop 1))
  else none

theorem splitPair_of_notMem {e : List UInt8} (h : equals ∉ e) : splitPair e = none := if_neg h

theorem splitPair_eq {k : List UInt8} (hk : equals ∉ k) (v : List UInt8) :
    splitPair (k ++ equals :: v) = some (trim k, trim v) := by
  have hall : ∀ x ∈ k, decide (x ≠ equals) = true := by
    intro x hx
    simpa using fun h : x = equals => hk (h ▸ hx)
  rw [splitPair, if_pos (by simp), List.takeWhile_append_of_pos hall,
    List.dropWhile_append_of_pos hall]
  simp

/-- Spaces around a pair do not matter. -/
theorem splitPair_trim (e : List UInt8) : splitPair (trim e) = splitPair e := by
  obtain ⟨a, b, hsplit, -, -, -⟩ := exists_trim e
  have hspace : ∀ n, ∀ x ∈ List.replicate n space, (fun c => decide (c = space)) x = true := by
    intro n x hx
    simp [List.eq_of_mem_replicate hx]
  have hne : ∀ n, equals ∉ List.replicate n space := fun n h =>
    absurd (List.eq_of_mem_replicate h) (by decide)
  by_cases h : equals ∈ trim e
  · obtain ⟨k, v, hkv, hk⟩ := List.eq_append_cons_of_mem h
    have hsplit' : e = (List.replicate a space ++ k) ++ equals ::
        (v ++ List.replicate b space) := by
      rw [hsplit, hkv]
      simp
    rw [hkv, splitPair_eq hk, hsplit', splitPair_eq, trim, trim, trim, trim,
      Lib.strip_append_left (hspace a), Lib.strip_append_right (hspace b)]
    intro hmem
    exact (List.mem_append.mp hmem).elim (hne a) hk
  · rw [splitPair_of_notMem h, splitPair_of_notMem]
    rw [hsplit]
    simp [hne, h]

/-! ## The filter -/

/-- A line without its comment. -/
def cutComment (s : List UInt8) : List UInt8 := s.takeWhile (· ≠ hash)

/-- A segment as `_etcr_filter` leaves it, and where in it the string of the line begins. -/
inductive Ready (e : List UInt8) : List UInt8 → Option Nat → Prop
  /-- Nothing is left of the line. -/
  | empty {σ : List UInt8} (he : e = []) (hσ : Closed σ) : Ready e σ none
  /-- The line without the spaces around it. -/
  | line {lead z : List UInt8} (hz : Closed (0 :: z))
    (hlead : trim e ≠ [] → lead = List.replicate lead.length space) :
    Ready e (lead ++ trim e ++ 0 :: z) (some lead.length)

theorem Ready.closed {e σ : List UInt8} {head : Option Nat} (h : Ready e σ head) : Closed σ := by
  cases h with
  | empty _ hσ => exact hσ
  | line hz _ => exact hz.append _

/-- The part of `_etcr_filter` behind the cut. -/
theorem filter_rest (q : List UInt8) {e : List UInt8} (he : 0 ∉ e) (z : List UInt8) :
    (do let first ← (q ++ e ++ 0 :: z)[q.length]?
        if first = 0 then some (q ++ e ++ 0 :: z, none)
        else do
          let (data, head) ← etcrTrim (q ++ e ++ 0 :: z) q.length
          some (data, some head)) =
      if e = [] then some (q ++ e ++ 0 :: z, none)
      else (etcrTrim (q ++ e ++ 0 :: z) q.length).map fun r => (r.1, some r.2) := by
  cases e with
  | nil => simp
  | cons c e =>
    have hc : c ≠ 0 := fun h => he (h ▸ List.mem_cons_self)
    have hfirst : (q ++ c :: e ++ 0 :: z)[q.length]? = some c := by simp
    rw [hfirst, if_neg (List.cons_ne_nil c e)]
    simp only [Option.bind_eq_bind, Option.bind_some, if_neg hc]
    cases etcrTrim (q ++ c :: e ++ 0 :: z) q.length with
    | none => rfl
    | some r => rfl

/-- The cut at `#`: a zero there, or nothing. -/
theorem exists_cutComment (q : List UInt8) {s : List UInt8} (hs : 0 ∉ s) (z : List UInt8) :
    ∃ y, (cutComment s ++ y).length = s.length ∧ (y = [] ∨ Closed y) ∧
      etcrFilter (q ++ s ++ 0 :: z) q.length =
        if cutComment s = [] then some (q ++ cutComment s ++ 0 :: (y ++ z), none)
        else (etcrTrim (q ++ cutComment s ++ 0 :: (y ++ z)) q.length).map fun r =>
          (r.1, some r.2) := by
  have hne : ∀ e : List UInt8, 0 ∉ e → hash ∉ e →
      ∀ x ∈ e, (fun c => decide (c = hash) || decide (c = 0)) x = false := by
    intro e he hhash x hx
    have h₁ : x ≠ hash := fun h => hhash (h ▸ hx)
    have h₂ : x ≠ 0 := fun h => he (h ▸ hx)
    simp [h₁, h₂]
  by_cases hmem : hash ∈ s
  · obtain ⟨e, y, rfl, hhash⟩ := List.eq_append_cons_of_mem hmem
    have he : 0 ∉ e := fun h => hs (List.mem_append_left _ h)
    have hcut : cutComment (e ++ hash :: y) = e := by
      rw [cutComment, List.takeWhile_append_of_pos]
      · simp
      · intro x hx
        simpa using fun h : x = hash => hhash (h ▸ hx)
    have hidx : ((q ++ (e ++ hash :: y) ++ 0 :: z).drop q.length).findIdx?
        (fun c => decide (c = hash) || decide (c = 0)) = some e.length := by
      rw [List.append_assoc, List.drop_left, List.append_assoc,
        findIdx?_append_of_neg (hne e he hhash)]
      simp [List.findIdx?_cons]
    have hget : (q ++ (e ++ hash :: y) ++ 0 :: z)[q.length + e.length]? = some hash := by simp
    have hset : (q ++ (e ++ hash :: y) ++ 0 :: z).set (q.length + e.length) 0 =
        q ++ e ++ 0 :: ((y ++ [0]) ++ z) := by simp
    refine ⟨y ++ [0], by rw [hcut]; simp, Or.inr ⟨y, rfl⟩, ?_⟩
    rw [hcut, ← filter_rest q he, etcrFilter, hidx]
    simp only [Option.bind_eq_bind, Option.bind_some, hget, if_true, hset]
  · have hcut : cutComment s = s := by
      rw [cutComment, List.takeWhile_eq_self_iff]
      intro x hx
      simpa using fun h : x = hash => hmem (h ▸ hx)
    have hidx : ((q ++ s ++ 0 :: z).drop q.length).findIdx?
        (fun c => decide (c = hash) || decide (c = 0)) = some s.length := by
      rw [List.append_assoc, List.drop_left, findIdx?_append_of_neg (hne s hs hmem)]
      simp [List.findIdx?_cons]
    have hget : (q ++ s ++ 0 :: z)[q.length + s.length]? ≠ some hash := by
      rw [List.append_assoc, List.getElem?_append_right (by omega), Nat.add_sub_cancel_left]
      simp [hash]
    refine ⟨[], by rw [hcut]; simp, Or.inl rfl, ?_⟩
    rw [hcut, List.nil_append, ← filter_rest q hs, etcrFilter, hidx]
    simp only [Option.bind_eq_bind, Option.bind_some, if_neg hget]

/-- **A line is filtered inside of its segment**, and is ready then; but a line of spaces at the
start of the buffer makes the trim read in front of it. -/
theorem etcrFilter_ready {q s z : List UInt8} (hq : q = [] ∨ Stops q) (hs : 0 ∉ s)
    (hz : Closed (0 :: z)) (rest : List UInt8) :
    (q = [] ∧ cutComment s ≠ [] ∧ trim (cutComment s) = [] ∧
      etcrFilter (q ++ (s ++ 0 :: z) ++ rest) q.length = none) ∨
    ∃ σ head, (q = [] → cutComment s ≠ [] → trim (cutComment s) ≠ []) ∧
      σ.length = (s ++ 0 :: z).length ∧ Ready (cutComment s) σ head ∧
      etcrFilter (q ++ (s ++ 0 :: z) ++ rest) q.length =
        some (q ++ σ ++ rest, head.map (q.length + ·)) := by
  obtain ⟨y, hlen, hy, hfilter⟩ := exists_cutComment q hs (z ++ rest)
  have hdata : q ++ (s ++ 0 :: z) ++ rest = q ++ s ++ 0 :: (z ++ rest) := by simp
  have he : 0 ∉ cutComment s := fun h => hs ((List.takeWhile_prefix _).subset h)
  have hyz : Closed (0 :: (y ++ z)) := by
    rcases hy with rfl | hy
    · exact hz
    · obtain ⟨z', hz'⟩ := hz
      cases z with
      | nil => rw [List.append_nil]; exact hy.cons 0
      | cons c z =>
        have hlast : Closed (c :: z) := by
          cases z' with
          | nil => simp at hz'
          | cons d z' => exact ⟨z', (List.cons.inj hz').2⟩
        exact (hlast.append y).cons 0
  rw [List.length_append] at hlen
  rw [hdata, hfilter]
  by_cases hnil : cutComment s = []
  · right
    refine ⟨cutComment s ++ 0 :: (y ++ z), none, fun _ h => absurd hnil h, ?_,
      .empty hnil (hyz.append _), ?_⟩
    · simp only [List.length_append, List.length_cons]
      omega
    · rw [if_pos hnil]
      simp
  · rw [if_neg hnil]
    by_cases hout : trim (cutComment s) = [] ∧ q = []
    · left
      obtain ⟨htrim, rfl⟩ := hout
      refine ⟨rfl, hnil, htrim, ?_⟩
      obtain ⟨a, b, hsplit, -, -, hb⟩ := exists_trim (cutComment s)
      rw [htrim, hb htrim] at hsplit
      have hspaces : cutComment s = List.replicate a space := by simpa using hsplit
      have hnone := etcrTrim_eq_none 0 a (y ++ (z ++ rest))
      rw [hspaces]
      simpa using hnone
    · right
      have hstops : trim (cutComment s) ≠ [] ∨ Stops q := by
        rw [Decidable.or_iff_not_imp_left, not_not]
        intro htrim
        exact hq.resolve_left fun h => hout ⟨htrim, h⟩
      obtain ⟨lead, tail, htrim, htlen, hlead, htail⟩ :=
        etcrTrim_eq he hstops (y ++ (z ++ rest))
      obtain ⟨w, hw⟩ : ∃ w, tail ++ 0 :: (y ++ z) = 0 :: w := by
        cases tail with
        | nil => exact ⟨y ++ z, rfl⟩
        | cons c tail =>
          refine ⟨tail ++ 0 :: (y ++ z), ?_⟩
          rw [htail c List.mem_cons_self, List.cons_append]
      have hclosed : Closed (0 :: w) := hw ▸ hyz.append tail
      have hsegment : q ++ (lead ++ trim (cutComment s) ++ tail) ++ 0 :: (y ++ (z ++ rest)) =
          q ++ (lead ++ trim (cutComment s) ++ 0 :: w) ++ rest := by
        rw [← hw]
        simp
      refine ⟨lead ++ trim (cutComment s) ++ 0 :: w, some lead.length,
        fun hnil _ htrim => hout ⟨htrim, hnil⟩, ?_, .line hclosed hlead, ?_⟩
      · rw [← hw]
        simp only [List.length_append, List.length_cons] at htlen hlen ⊢
        omega
      · rw [htrim, hsegment]
        rfl

/-! ## The pair -/

/-- `strchr` of `=` in a string. -/
theorem strchr_equals (q : List UInt8) {k : List UInt8} (hk : equals ∉ k) (hk' : 0 ∉ k) {c : UInt8}
    (hc : c = equals ∨ c = 0) (z : List UInt8) :
    strchr (q ++ k ++ c :: z) q.length equals =
      some (if c = equals then some (q.length + k.length) else none) := by
  have hidx : ((q ++ k ++ c :: z).drop q.length).findIdx?
      (fun d => decide (d = equals) || decide (d = 0)) = some k.length := by
    rw [List.append_assoc, List.drop_left, findIdx?_append_of_neg]
    · rcases hc with rfl | rfl <;> simp [List.findIdx?_cons]
    · intro x hx
      have h₁ : x ≠ equals := fun h => hk (h ▸ hx)
      have h₂ : x ≠ 0 := fun h => hk' (h ▸ hx)
      simp [h₁, h₂]
  have hget : (q ++ k ++ c :: z)[q.length + k.length]? = some c := by simp
  rw [strchr, hidx, Option.map_some, hget]
  simp only [Option.some.injEq]

/-- A segment with a pair: spaces, the key and what is around it, `=`, the value and what is around
it, and its zero. -/
structure PairIn (σ lead k v z : List UInt8) (kv : List UInt8 × List UInt8) : Prop where
  segment : σ = lead ++ k ++ equals :: (v ++ 0 :: z)
  lead : lead = List.replicate lead.length space
  closed : Closed (0 :: z)
  pair : kv = (trim k, trim v)
  equals_notMem : equals ∉ k
  zero_notMem : 0 ∉ k
  zero_notMem' : 0 ∉ v
  head : k.head? ≠ some space

theorem Ready.exists_pair {e σ : List UInt8} {o : Nat} {kv : List UInt8 × List UInt8} (he : 0 ∉ e)
    (hready : Ready e σ (some o)) (hpair : splitPair e = some kv) :
    ∃ lead k v z, lead.length = o ∧ PairIn σ lead k v z kv := by
  have hmem : equals ∈ trim e := by
    by_contra h
    rw [← splitPair_trim, splitPair_of_notMem h] at hpair
    cases hpair
  have hne : trim e ≠ [] := List.ne_nil_of_mem hmem
  obtain ⟨k, v, hkv, hk⟩ := List.eq_append_cons_of_mem hmem
  obtain ⟨-, -, -, hhead, -⟩ := exists_trim e
  rw [← splitPair_trim, hkv, splitPair_eq hk, Option.some.injEq] at hpair
  cases hready with
  | @line lead z hz hlead =>
    refine ⟨lead, k, v, z, rfl, ?_, hlead hne, hz, hpair.symm, hk, ?_, ?_, ?_⟩
    · rw [hkv]
      simp
    · exact fun h => he (mem_of_mem_trim (hkv ▸ List.mem_append_left _ h))
    · exact fun h => he (mem_of_mem_trim (hkv ▸ List.mem_append_right _ (List.mem_cons_of_mem _ h)))
    · intro h
      rw [hkv, List.head?_append, h] at hhead
      exact hhead rfl

namespace PairIn

variable {σ lead k v z : List UInt8} {kv : List UInt8 × List UInt8} (q rest : List UInt8)

/-- Where the `=` is. -/
theorem strchr_eq (h : PairIn σ lead k v z kv) :
    strchr (q ++ σ ++ rest) (q.length + lead.length) equals =
      some (some (q.length + lead.length + k.length)) := by
  have hchr := strchr_equals (q ++ lead) h.equals_notMem h.zero_notMem (Or.inl rfl)
    (v ++ 0 :: (z ++ rest))
  rw [List.length_append, if_pos rfl] at hchr
  rw [← hchr, h.segment]
  simp

/-- The `=` becomes a zero. -/
theorem set_eq (h : PairIn σ lead k v z kv) :
    (q ++ σ ++ rest).set (q.length + lead.length + k.length) 0 =
      q ++ lead ++ k ++ 0 :: (v ++ 0 :: (z ++ rest)) := by
  have hdata : q ++ σ ++ rest = (q ++ lead ++ k) ++ equals :: (v ++ 0 :: (z ++ rest)) := by
    rw [h.segment]
    simp
  have hpos : q.length + lead.length + k.length = (q ++ lead ++ k).length := by
    rw [List.length_append, List.length_append]
  rw [hdata, hpos]
  simp

/-- A blank key is empty: the spaces in front of it are not a part of it. -/
theorem key_eq_nil (h : PairIn σ lead k v z kv) (hkey : kv.1 = []) : k = [] := by
  obtain ⟨a, b, hk, -, -, hb⟩ := exists_trim k
  have htrim : trim k = [] := by rw [h.pair] at hkey; exact hkey
  rw [htrim, hb htrim] at hk
  cases a with
  | zero => simpa using hk
  | succ a =>
    refine absurd ?_ h.head
    rw [hk]
    simp [List.replicate_succ]

/-- The trim of the key; a blank one makes zeros of the spaces in front of it. -/
theorem exists_key (h : PairIn σ lead k v z kv) (hstops : kv.1 ≠ [] ∨ Stops q) :
    ∃ y key, y.length = (lead ++ k).length ∧ key ≤ y.length ∧
      (∀ w, cstring ((y ++ 0 :: w).drop key) = kv.1) ∧
      etcrTrim (q ++ lead ++ k ++ 0 :: (v ++ 0 :: (z ++ rest))) (q.length + lead.length) =
        some (q ++ y ++ 0 :: (v ++ 0 :: (z ++ rest)), q.length + key) := by
  by_cases hkey : kv.1 = []
  · have hblank := etcrTrim_blank lead.length 0 (v ++ 0 :: (z ++ rest))
      (hstops.resolve_left fun hne => hne hkey)
    rw [← h.lead] at hblank
    refine ⟨List.replicate lead.length 0, lead.length, ?_, by simp, fun w => ?_, ?_⟩
    · rw [h.key_eq_nil hkey]
      simp
    · rw [List.drop_left' (by simp), hkey]
      rfl
    · rw [h.key_eq_nil hkey]
      simpa using hblank
  · have hne : trim k ≠ [] := by rw [h.pair] at hkey; exact hkey
    have hzero : 0 ∉ trim k := fun hmem => h.zero_notMem (mem_of_mem_trim hmem)
    have hcore : trim k ≠ [] ∨ Stops (q ++ lead) := Or.inl hne
    obtain ⟨lead', tail, htrim, hlen, -, htail⟩ := etcrTrim_eq h.zero_notMem hcore
      (v ++ 0 :: (z ++ rest))
    refine ⟨lead ++ (lead' ++ trim k ++ tail), lead.length + lead'.length, ?_, ?_, fun w => ?_, ?_⟩
    · rw [List.length_append, hlen, List.length_append]
    · simp only [List.length_append]
      omega
    · have hdrop : (lead ++ (lead' ++ trim k ++ tail) ++ 0 :: w).drop
          (lead.length + lead'.length) = trim k ++ tail ++ 0 :: w := by
        have hsplit : lead ++ (lead' ++ trim k ++ tail) ++ 0 :: w =
            (lead ++ lead') ++ (trim k ++ tail ++ 0 :: w) := by simp
        rw [hsplit, List.drop_left' (by simp)]
      rw [hdrop, cstring_eq hzero htail, h.pair]
    · rw [List.length_append] at htrim
      rw [htrim]
      simp [Nat.add_assoc]

end PairIn

section Pair

variable {malloc : Nat → Bool} {asked : Nat} (root : Avl.Tree KvPair) (rest : List UInt8)

/-- A line without a pair. -/
theorem parsePair_of_notMem {q e σ : List UInt8} {o : Nat} (he : 0 ∉ e)
    (hready : Ready e σ (some o)) (hnone : splitPair e = none) :
    parsePair malloc ⟨q ++ σ ++ rest, root, asked⟩ (q.length + o) =
      some ⟨q ++ σ ++ rest, root, asked⟩ := by
  have hnot : equals ∉ trim e := by
    intro h
    rw [← splitPair_trim, splitPair, if_pos h] at hnone
    cases hnone
  cases hready with
  | @line lead z hz hlead =>
    have hzero : 0 ∉ trim e := fun h => he (mem_of_mem_trim h)
    have hchr := strchr_equals (q ++ lead) hnot hzero (Or.inr rfl) (z ++ rest)
    rw [List.length_append] at hchr
    have hdata : q ++ (lead ++ trim e ++ 0 :: z) ++ rest =
        q ++ lead ++ trim e ++ 0 :: (z ++ rest) := by simp
    rw [parsePair, hdata, hchr, if_neg (by decide)]
    rfl

/-- A line with a pair, without memory for it. -/
theorem parsePair_of_no_memory {q e σ : List UInt8} {o : Nat} {kv : List UInt8 × List UInt8}
    (he : 0 ∉ e) (hready : Ready e σ (some o)) (hpair : splitPair e = some kv)
    (hmalloc : malloc asked = false) :
    parsePair malloc ⟨q ++ σ ++ rest, root, asked⟩ (q.length + o) =
      some ⟨q ++ σ ++ rest, root, asked + 1⟩ := by
  obtain ⟨lead, k, v, z, rfl, hpair⟩ := hready.exists_pair he hpair
  rw [parsePair, hpair.strchr_eq q rest, hmalloc]
  rfl

/-- The blank key of the first line of the buffer makes the trim read in front of it. -/
theorem parsePair_eq_none {e σ : List UInt8} {o : Nat} {kv : List UInt8 × List UInt8}
    (he : 0 ∉ e) (hready : Ready e σ (some o)) (hpair : splitPair e = some kv)
    (hmalloc : malloc asked = true) (hkey : kv.1 = []) :
    parsePair malloc ⟨σ ++ rest, root, asked⟩ o = none := by
  obtain ⟨lead, k, v, z, rfl, hpair⟩ := hready.exists_pair he hpair
  have hchr := hpair.strchr_eq [] rest
  have hset := hpair.set_eq [] rest
  have hnone : etcrTrim (lead ++ 0 :: (v ++ 0 :: (z ++ rest))) lead.length = none := by
    have hspaces := etcrTrim_eq_none lead.length 0 (v ++ 0 :: (z ++ rest))
    rw [← hpair.lead] at hspaces
    simpa using hspaces
  simp only [hpair.key_eq_nil hkey, List.nil_append, List.append_nil, List.length_nil,
    Nat.zero_add, Nat.add_zero] at hchr hset
  rw [parsePair, hchr]
  simp only [Option.bind_eq_bind, Option.bind_some, hmalloc, if_true, hset, hnone, Option.bind_none]

/-- **A pair is parsed inside of its segment**, and the strings are those of the pair. -/
theorem parsePair_of_pair {q e σ : List UInt8} {o : Nat} {kv : List UInt8 × List UInt8}
    (he : 0 ∉ e) (hready : Ready e σ (some o)) (hpair : splitPair e = some kv)
    (hmalloc : malloc asked = true) (hstops : kv.1 ≠ [] ∨ Stops q) :
    ∃ σ' key value, σ'.length = σ.length ∧ Closed σ' ∧ key < σ'.length ∧ value < σ'.length ∧
      cstring (σ'.drop key) = kv.1 ∧ cstring (σ'.drop value) = kv.2 ∧
      parsePair malloc ⟨q ++ σ ++ rest, root, asked⟩ (q.length + o) =
        some ⟨q ++ σ' ++ rest, Avl.avlinsert (etcrKeyCompare (q ++ σ' ++ rest)) root
          ⟨.data (q.length + key), q.length + value⟩, asked + 1⟩ := by
  obtain ⟨lead, k, v, z, rfl, hpair⟩ := hready.exists_pair he hpair
  obtain ⟨y, key, hy, hkey, hstring, htrim⟩ := hpair.exists_key q rest hstops
  have hq : Stops (q ++ y ++ [0]) := ⟨q ++ y, 0, rfl, zero_ne_space⟩
  obtain ⟨lead', tail, htrim', hlen', -, htail⟩ :=
    etcrTrim_eq hpair.zero_notMem' (Or.inr hq) (z ++ rest)
  refine ⟨y ++ 0 :: (lead' ++ trim v ++ tail ++ 0 :: z), key, y.length + 1 + lead'.length, ?_, ?_,
    ?_, ?_, hstring _, ?_, ?_⟩
  · rw [hpair.segment]
    simp only [List.length_append, List.length_cons] at hy hlen' ⊢
    omega
  · exact ((hpair.closed.append _).cons 0).append y
  · simp only [List.length_append, List.length_cons]
    omega
  · simp only [List.length_append, List.length_cons]
    omega
  · have hdrop : (y ++ 0 :: (lead' ++ trim v ++ tail ++ 0 :: z)).drop
        (y.length + 1 + lead'.length) =
        trim v ++ tail ++ 0 :: z := by
      have hsplit : y ++ 0 :: (lead' ++ trim v ++ tail ++ 0 :: z) =
          (y ++ [0] ++ lead') ++ (trim v ++ tail ++ 0 :: z) := by simp
      rw [hsplit, List.drop_left' (by simp only [List.length_append, List.length_singleton])]
    have hzero : 0 ∉ trim v := fun hmem => hpair.zero_notMem' (mem_of_mem_trim hmem)
    rw [hdrop, cstring_eq hzero htail, hpair.pair]
  · have hdata : q ++ y ++ 0 :: (v ++ 0 :: (z ++ rest)) = q ++ y ++ [0] ++ v ++ 0 ::
        (z ++ rest) := by
      simp
    have hpos : q.length + lead.length + k.length + 1 = (q ++ y ++ [0]).length := by
      rw [List.length_append] at hy
      simp only [List.length_append, List.length_singleton, hy]
      omega
    have hend : q ++ y ++ [0] ++ (lead' ++ trim v ++ tail) ++ 0 :: (z ++ rest) =
        q ++ (y ++ 0 :: (lead' ++ trim v ++ tail ++ 0 :: z)) ++ rest := by simp
    have hvalue : (q ++ y ++ [0]).length + lead'.length = q.length +
        (y.length + 1 + lead'.length) := by
      simp only [List.length_append, List.length_singleton]
      omega
    rw [parsePair, hpair.strchr_eq q rest]
    simp only [Option.bind_eq_bind, Option.bind_some, hmalloc, if_true, hpair.set_eq, htrim]
    rw [hdata, hpos, htrim', hend, hvalue]
    rfl

end Pair

end Etcr

end LibNax
