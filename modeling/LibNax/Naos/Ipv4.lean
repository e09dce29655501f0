import LibNax.Common
import LibNax.Lib.Decimal

/-!
# IPv4 addresses as text

`naos_is_legal_ipv4` reads the text once, with a count of the characters, of the dots and of the
digits in the current field, and collects the fields in an array of arrays.  Its test for an empty
field compares an array with null, so that it never holds; only the last field is tested by its
count of digits.

* `naosIsLegalIpv4` — the function, and `DottedQuad` — what it is for.
* `naosIsLegalIpv4_iff` — what it accepts: the first three fields may be empty.
* `accepts_dottedQuad_iff` — where that is a dotted quad.
-/

set_option autoImplicit false

namespace LibNax

namespace Naos

open Lib (isDigit decimalValue)

/-! ## The source -/

/-- The dot between two fields. -/
def dot : UInt8 := 0x2E

/-- `INET_ADDRSTRLEN`. -/
def inetAddrStrLen : Nat := 16

/-- `MAX_UINT8`. -/
def maxUint8 : Nat := 0xFF

/-- `char segm[4][4]`. -/
abbrev Segm : Type := List (List UInt8)

/-- `segm[k]`. -/
def field (segm : Segm) (k : Nat) : List UInt8 := segm.getD k []

/-- `naos_is_legal_ipv4` from a cursor on.  The string ends with a zero, or with the list. -/
def scanIpv4 : List UInt8 → Nat → Nat → Nat → Segm → Bool
  | [], _, j, k, segm => !(k ≠ 3 || j = 0) && !(decimalValue (field segm k) > maxUint8)
  | c :: cursor, i, j, k, segm =>
    if c = 0 then !(k ≠ 3 || j = 0) && !(decimalValue (field segm k) > maxUint8)
    else if i = inetAddrStrLen - 1 ∨ k > 3 then false
    else if c = dot then
      -- the first half of the test, `0 == segm[k]`, compares an array with null
      if decimalValue (field segm k) > maxUint8 then false
      else scanIpv4 cursor (i + 1) 0 (k + 1) segm
    else if isDigit c then
      if j ≥ 3 then false
      else scanIpv4 cursor (i + 1) (j + 1) k (segm.modify k fun segment => segment.set j c)
    else false

/-- `naos_is_legal_ipv4`. -/
def naosIsLegalIpv4 (inetstr : List UInt8) : Bool :=
  scanIpv4 inetstr 0 0 0 (List.replicate 4 (List.replicate 4 0))

/-! ## What it is for -/

/-- The fields between the dots of a string. -/
def fields (inetstr : List UInt8) : List (List UInt8) := (cstring inetstr).splitOn dot

/-- At most three digits, and not above 255. -/
def Segment (segment : List UInt8) : Prop :=
  segment.length ≤ 3 ∧ (∀ c ∈ segment, isDigit c = true) ∧ decimalValue segment ≤ maxUint8

instance (segment : List UInt8) : Decidable (Segment segment) :=
  inferInstanceAs (Decidable (_ ∧ _ ∧ _))

/-- A dotted quad: four fields, each of one to three digits, and not above 255. -/
def DottedQuad (inetstr : List UInt8) : Prop :=
  (fields inetstr).length = 4 ∧ ∀ segment ∈ fields inetstr, segment ≠ [] ∧ Segment segment

instance (inetstr : List UInt8) : Decidable (DottedQuad inetstr) :=
  inferInstanceAs (Decidable (_ ∧ _))

/-- A dotted quad that some of the first three fields have been emptied of. -/
def Gapped (inetstr : List UInt8) : Prop :=
  (fields inetstr).length = 4 ∧ (∀ segment ∈ fields inetstr, Segment segment) ∧
    (fields inetstr).getLastD [] ≠ [] ∧ [] ∈ fields inetstr

instance (inetstr : List UInt8) : Decidable (Gapped inetstr) :=
  inferInstanceAs (Decidable (_ ∧ _ ∧ _ ∧ _))

/-! ## The scan -/

theorem fields_zero (cursor : List UInt8) : fields (0 :: cursor) = [[]] := rfl

theorem fields_ne_nil (inetstr : List UInt8) : fields inetstr ≠ [] := List.splitOn_ne_nil _ _

theorem fields_cons {c : UInt8} (hc : c ≠ 0) (cursor : List UInt8) :
    fields (c :: cursor) =
      if c = dot then [] :: fields cursor else (fields cursor).modifyHead (List.cons c) := by
  rw [fields, cstring_cons hc, List.splitOn_cons_eq_if_modifyHead]
  simp only [beq_iff_eq]
  rfl

/-- What the rest of a string has to be, behind `k` dots and the digits `p` of a field. -/
def Rest (k : Nat) (p : List UInt8) (rest : List (List UInt8)) : Prop :=
  k + rest.length = 4 ∧ (∀ segment ∈ rest.modifyHead (p ++ ·), Segment segment) ∧
    (rest.modifyHead (p ++ ·)).getLastD [] ≠ []

theorem rest_end {k : Nat} {p : List UInt8} : Rest k p [[]] ↔ k = 3 ∧ Segment p ∧ p ≠ [] := by
  simp [Rest]

/-- A field ends. -/
theorem rest_dot {k : Nat} {p : List UInt8} {rest : List (List UInt8)} (hne : rest ≠ []) :
    Rest k p ([] :: rest) ↔ Segment p ∧ Rest (k + 1) [] rest := by
  obtain ⟨f, rest, rfl⟩ := List.exists_cons_of_ne_nil hne
  simp only [Rest, List.modifyHead_cons, List.append_nil, List.nil_append, List.length_cons,
    List.forall_mem_cons, List.getLastD_cons]
  constructor
  · rintro ⟨hlen, ⟨hp, hf⟩, hlast⟩
    exact ⟨hp, by omega, hf, hlast⟩
  · rintro ⟨hp, hlen, hf, hlast⟩
    exact ⟨by omega, ⟨hp, hf⟩, hlast⟩

/-- A field goes on. -/
theorem rest_char {k : Nat} {p : List UInt8} {rest : List (List UInt8)} (c : UInt8) :
    Rest k p (rest.modifyHead (List.cons c)) ↔ Rest k (p ++ [c]) rest := by
  cases rest with
  | nil => rfl
  | cons f rest => simp [Rest]

/-- The field that the rest begins in. -/
theorem Rest.segment {k : Nat} {p : List UInt8} {rest : List (List UInt8)} (h : Rest k p rest)
    (hne : rest ≠ []) : k ≤ 3 ∧ ∃ q, Segment (p ++ q) := by
  obtain ⟨f, rest, rfl⟩ := List.exists_cons_of_ne_nil hne
  have hlen := h.1
  rw [List.length_cons] at hlen
  exact ⟨by omega, f, h.2.1 _ List.mem_cons_self⟩

/-- The state of the scan behind `k` dots and the digits `p` of a field. -/
structure Scanned (i j k : Nat) (segm : Segm) (p : List UInt8) : Prop where
  length : p.length = j
  le : j ≤ 3
  digits : ∀ c ∈ p, isDigit c = true
  /-- A field and its dot take four characters at most. -/
  width : i ≤ 4 * k + j
  size : segm.length = 4
  current : k ≤ 3 → field segm k = p ++ List.replicate (4 - j) 0
  next : ∀ l, k < l → l ≤ 3 → field segm l = List.replicate 4 0

theorem scanned_zero : Scanned 0 0 0 (List.replicate 4 (List.replicate 4 0)) [] where
  length := rfl
  le := Nat.zero_le _
  digits _ hc := by cases hc
  width := Nat.zero_le _
  size := rfl
  current _ := rfl
  next l _ hl := by
    rw [field, List.getD_eq_getElem?_getD, List.getElem?_replicate, if_pos (Nat.lt_succ_of_le hl)]
    rfl

namespace Scanned

variable {i j k : Nat} {segm : Segm} {p : List UInt8}

/-- What `atoi` reads off the current field. -/
theorem value (h : Scanned i j k segm p) (hk : k ≤ 3) :
    decimalValue (field segm k) = decimalValue p := by
  rw [h.current hk, decimalValue]
  refine Lib.readDigits_append h.digits (fun c hc => ?_) 0
  rw [List.head?_replicate] at hc
  split at hc
  · cases hc
  · cases hc
    rfl

theorem segment_iff (h : Scanned i j k segm p) (hk : k ≤ 3) :
    Segment p ↔ ¬decimalValue (field segm k) > maxUint8 := by
  rw [h.value hk, Nat.not_lt, Segment, h.length]
  exact ⟨fun hs => hs.2.2, fun hv => ⟨h.le, h.digits, hv⟩⟩

/-- A field with three digits does not go on. -/
theorem not_rest (h : Scanned i j k segm p) (hj : 3 ≤ j) {c : UInt8} {rest : List (List UInt8)}
    (hne : rest ≠ []) : ¬Rest k (p ++ [c]) rest := by
  intro hr
  obtain ⟨-, q, hq⟩ := hr.segment hne
  have hlen := hq.1
  rw [List.length_append, List.length_append, h.length, List.length_singleton] at hlen
  omega

theorem dot (h : Scanned i j k segm p) : Scanned (i + 1) 0 (k + 1) segm [] where
  length := rfl
  le := Nat.zero_le _
  digits _ hc := by cases hc
  width := by
    have := h.width
    have := h.le
    omega
  size := h.size
  current hk := h.next _ (Nat.lt_succ_self k) hk
  next l hl := h.next l (Nat.lt_of_succ_lt hl)

theorem digit (h : Scanned i j k segm p) (hk : k ≤ 3) (hj : j < 3) {c : UInt8}
    (hc : isDigit c = true) :
    Scanned (i + 1) (j + 1) k (segm.modify k fun segment => segment.set j c) (p ++ [c]) where
  length := by rw [List.length_append, h.length]; rfl
  le := hj
  digits d hd := by
    rcases List.mem_append.mp hd with hd | hd
    · exact h.digits d hd
    · rwa [List.mem_singleton.mp hd]
  width := by
    have := h.width
    omega
  size := by rw [List.length_modify, h.size]
  current _ := by
    have hset : field (segm.modify k fun segment => segment.set j c) k =
        (field segm k).set j c := by
      have hlt : k < segm.length := by
        rw [h.size]
        omega
      simp [field, hlt]
    have hzeros : List.replicate (4 - j) (0 : UInt8) = 0 :: List.replicate (4 - (j + 1)) 0 := by
      rw [← List.replicate_succ]
      congr 1
      omega
    rw [hset, h.current hk, hzeros, List.set_append_right _ _ (Nat.le_of_eq h.length), h.length,
      Nat.sub_self, List.set_cons_zero, List.append_assoc, List.singleton_append]
  next l hl hl' := by
    have hne : k ≠ l := Nat.ne_of_lt hl
    have hkeep : field (segm.modify k fun segment => segment.set j c) l = field segm l := by
      simp [field, hne]
    rw [hkeep, h.next l hl hl']

/-- The tests behind the loop. -/
theorem end_iff (h : Scanned i j k segm p) :
    (!(k ≠ 3 || j = 0) && !(decimalValue (field segm k) > maxUint8)) = true ↔
      Rest k p [[]] := by
  rw [rest_end]
  by_cases hk : k = 3
  · have hnil : p ≠ [] ↔ j ≠ 0 := by
      rw [← h.length, ne_eq, ne_eq, List.length_eq_zero_iff]
    rw [h.segment_iff (Nat.le_of_eq hk), hnil]
    simp [hk, and_comm]
  · simp [hk]

end Scanned

/-- **The scan**, from any state: the rest of the string has to be the rest of four fields. -/
theorem scanIpv4_iff (cursor : List UInt8) {i j k : Nat} {segm : Segm} {p : List UInt8}
    (h : Scanned i j k segm p) :
    scanIpv4 cursor i j k segm = true ↔ Rest k p (fields cursor) := by
  induction cursor generalizing i j k segm p with
  | nil => exact h.end_iff
  | cons c cursor ih =>
    rw [scanIpv4]
    by_cases hzero : c = 0
    · subst hzero
      rw [if_pos rfl, fields_zero]
      exact h.end_iff
    rw [if_neg hzero]
    have hne := fields_ne_nil cursor
    rw [fields_cons hzero]
    by_cases hdot : c = dot
    · rw [if_pos hdot, if_pos hdot, rest_dot hne]
      split
      · rename_i hstop
        -- sixteen characters, or four dots: no field is left
        refine iff_of_false Bool.false_ne_true fun hr => ?_
        have hk := (hr.2.segment hne).1
        have hwidth := h.width
        have hle := h.le
        rw [inetAddrStrLen] at hstop
        omega
      · rename_i hgo
        have hk : k ≤ 3 := Nat.le_of_not_lt fun hlt => hgo (.inr hlt)
        rw [h.segment_iff hk, ← ih h.dot]
        split
        · simp [*]
        · simp [*]
    · rw [if_neg hdot, if_neg hdot, rest_char]
      split
      · rename_i hstop
        refine iff_of_false Bool.false_ne_true fun hr => ?_
        have hk := (hr.segment hne).1
        have hwidth := h.width
        rw [inetAddrStrLen] at hstop
        exact h.not_rest (by omega) hne hr
      · rename_i hgo
        have hk : k ≤ 3 := Nat.le_of_not_lt fun hlt => hgo (.inr hlt)
        split
        · rename_i hc
          split
          · rename_i hj
            exact iff_of_false Bool.false_ne_true (h.not_rest hj hne)
          · rename_i hj
            exact ih (h.digit hk (Nat.lt_of_not_le hj) hc)
        · rename_i hc
          refine iff_of_false Bool.false_ne_true fun hr => ?_
          obtain ⟨-, q, hq⟩ := hr.segment hne
          exact hc (hq.2.1 c (by simp))

/-! ## What it accepts -/

/-- **What the function accepts**: four fields, the last of which is not empty. -/
theorem naosIsLegalIpv4_iff (inetstr : List UInt8) :
    naosIsLegalIpv4 inetstr = true ↔
      (fields inetstr).length = 4 ∧ (∀ segment ∈ fields inetstr, Segment segment) ∧
        (fields inetstr).getLastD [] ≠ [] := by
  have hid : (fields inetstr).modifyHead (([] : List UInt8) ++ ·) = fields inetstr := by
    cases fields inetstr with
    | nil => rfl
    | cons f rest => rfl
  rw [naosIsLegalIpv4, scanIpv4_iff inetstr scanned_zero, Rest, hid, Nat.zero_add]

/-- **The function accepts the dotted quads and no others exactly on the strings without a gap**: a
dotted quad that one of the first three fields has been emptied of is accepted. -/
theorem accepts_dottedQuad_iff (inetstr : List UInt8) :
    (naosIsLegalIpv4 inetstr = true ↔ DottedQuad inetstr) ↔ ¬Gapped inetstr := by
  rw [naosIsLegalIpv4_iff, DottedQuad, Gapped]
  constructor
  · rintro h ⟨hlen, hall, hlast, hgap⟩
    exact ((h.mp ⟨hlen, hall, hlast⟩).2 [] hgap).1 rfl
  · intro hgap
    constructor
    · rintro ⟨hlen, hall, hlast⟩
      refine ⟨hlen, fun segment hs => ⟨fun hnil => ?_, hall segment hs⟩⟩
      exact hgap ⟨hlen, hall, hlast, hnil ▸ hs⟩
    · rintro ⟨hlen, hall⟩
      refine ⟨hlen, fun segment hs => (hall segment hs).2, ?_⟩
      have hne := fields_ne_nil inetstr
      rw [List.getLastD_eq_getLast?, List.getLast?_eq_some_getLast hne, Option.getD_some]
      exact (hall _ (List.getLast_mem hne)).1

/-- The string `192..0.1` is accepted. -/
theorem accepts_not_dottedQuad :
    naosIsLegalIpv4 [0x31, 0x39, 0x32, 0x2E, 0x2E, 0x30, 0x2E, 0x31] = true ∧
      ¬DottedQuad [0x31, 0x39, 0x32, 0x2E, 0x2E, 0x30, 0x2E, 0x31] ∧
      ¬(naosIsLegalIpv4 [0x31, 0x39, 0x32, 0x2E, 0x2E, 0x30, 0x2E, 0x31] = true ↔
        DottedQuad [0x31, 0x39, 0x32, 0x2E, 0x2E, 0x30, 0x2E, 0x31]) := by
  have haccepts : naosIsLegalIpv4 [0x31, 0x39, 0x32, 0x2E, 0x2E, 0x30, 0x2E, 0x31] = true := by
    decide
  have hnot : ¬DottedQuad [0x31, 0x39, 0x32, 0x2E, 0x2E, 0x30, 0x2E, 0x31] := by decide +kernel
  exact ⟨haccepts, hnot, fun h => hnot (h.mp haccepts)⟩

end Naos

end LibNax
