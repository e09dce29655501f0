import LibNax.Common
import Mathlib.Data.List.Basic
import Mathlib.Data.Nat.Basic
import Mathlib.Order.Lattice

/-!
# Comparing strings

The four comparisons of `rtlstr.c`.  Each walks along both strings while neither ends, and looks at
the place where it stops.  The two that count look at the next characters before they look at the
count; one of them compares the characters behind the last one that counts, and the other one takes
strings for equal of which one has ended.

* `rtlStrcmp`, `rtlStrncmp`, `rtlStrcasecmp`, `rtlStrncasecmp` — the functions.
* `lexSign` — the sign of the comparison of two lists, which is what the C library reports.
* `rtlStrcmp_eq`, `rtlStrcasecmp_eq` — the two that do not count are right.
* `compares_iff` — where all four are right.
-/

set_option autoImplicit false

namespace LibNax

namespace Rtlstr

/-! ## The source -/

/-- What is returned behind a loop. -/
def finish (c1 c2 : Int8) : Int := if c1 < c2 then -1 else if c1 > c2 then 1 else 0

/-- `rtl_strcmp`.  There is no result where it reads behind the end of a buffer. -/
def rtlStrcmp : List Int8 → List Int8 → Option Int
  | c1 :: s1, c2 :: s2 =>
    if c1 ≠ 0 ∧ c2 ≠ 0 then
      if c1 < c2 then some (-1) else if c1 > c2 then some 1 else rtlStrcmp s1 s2
    else some (finish c1 c2)
  | _, _ => none

/-- `rtl_strncmp`, for the count that is left. -/
def rtlStrncmp : List Int8 → List Int8 → Nat → Option Int
  | c1 :: s1, c2 :: s2, n =>
    if c1 ≠ 0 ∧ c2 ≠ 0 ∧ 0 < n then
      if c1 < c2 then some (-1) else if c1 > c2 then some 1 else rtlStrncmp s1 s2 (n - 1)
    else some (finish c1 c2)
  | _, _, _ => none

/-- A letter from `A` to `Z` as a small one. -/
def lower (c : Int8) : Int8 := if 0x41 ≤ c ∧ c ≤ 0x5A then c + 0x20 else c

/-- `rtl_strcasecmp`.  Behind the loop the characters are compared as they are. -/
def rtlStrcasecmp : List Int8 → List Int8 → Option Int
  | c1 :: s1, c2 :: s2 =>
    if c1 ≠ 0 ∧ c2 ≠ 0 then
      if lower c1 < lower c2 then some (-1) else if lower c1 > lower c2 then some 1
      else rtlStrcasecmp s1 s2
    else some (finish c1 c2)
  | _, _ => none

/-- `rtl_strncasecmp`, for the count that is left.  Behind the loop nothing is compared. -/
def rtlStrncasecmp : List Int8 → List Int8 → Nat → Option Int
  | [], _, _ => none
  | c1 :: s1, s2, n =>
    if c1 = 0 then some 0
    else
      match s2 with
      | [] => none
      | c2 :: s2 =>
        if c2 ≠ 0 ∧ 0 < n then
          if lower c1 < lower c2 then some (-1) else if lower c1 > lower c2 then some 1
          else rtlStrncasecmp s1 s2 (n - 1)
        else some 0

/-! ## What the C library reports -/

section Lexicographic

variable {α : Type} [LinearOrder α]

/-- The sign of the comparison of two lists. -/
def lexSign : List α → List α → Int
  | [], [] => 0
  | [], _ :: _ => -1
  | _ :: _, [] => 1
  | a :: l, b :: m => if a < b then -1 else if b < a then 1 else lexSign l m

theorem lexSign_swap (l m : List α) : lexSign m l = -lexSign l m := by
  induction l generalizing m with
  | nil =>
    cases m with
    | nil => rfl
    | cons b m => rfl
  | cons a l ih =>
    cases m with
    | nil => rfl
    | cons b m =>
      rw [lexSign, lexSign]
      rcases lt_trichotomy a b with hlt | rfl | hgt
      · rw [if_neg (lt_asymm hlt), if_pos hlt, if_pos hlt]
        rfl
      · rw [if_neg (lt_irrefl a), if_neg (lt_irrefl a), if_neg (lt_irrefl a), if_neg (lt_irrefl a),
          ih]
      · rw [if_pos hgt, if_neg (lt_asymm hgt), if_pos hgt]

theorem lexSign_eq_zero_iff (l m : List α) : lexSign l m = 0 ↔ l = m := by
  induction l generalizing m with
  | nil => cases m <;> simp [lexSign]
  | cons a l ih =>
    cases m with
    | nil => simp [lexSign]
    | cons b m =>
      rw [lexSign, List.cons.injEq]
      rcases lt_trichotomy a b with hlt | rfl | hgt
      · simp [hlt, hlt.ne]
      · simp [ih]
      · simp [hgt, hgt.ne', lt_asymm hgt]

/-- Lists that are different in front of the end of both. -/
def Apart (l m : List α) : Prop := ¬l <+: m ∧ ¬m <+: l

end Lexicographic

/-- What the C library compares: the character without a sign. -/
def code (c : Int8) : Nat := c.toUInt8.toNat

/-- What `strcmp` compares. -/
def exact (s : List Int8) : List Nat := (cstring s).map code

/-- What `strcasecmp` compares. -/
def folded (s : List Int8) : List Nat := (cstring s).map fun c => code (lower c)

/-- A string of 7-bit characters, in a buffer with its end. -/
structure CString (s : List Int8) : Prop where
  ends : (0 : Int8) ∈ s
  ascii : ∀ c ∈ cstring s, 0 ≤ c

theorem exact_cons {c : Int8} (hc : c ≠ 0) (s : List Int8) :
    exact (c :: s) = code c :: exact s := by
  rw [exact, cstring_cons hc, List.map_cons]
  rfl

theorem folded_cons {c : Int8} (hc : c ≠ 0) (s : List Int8) :
    folded (c :: s) = code (lower c) :: folded s := by
  rw [folded, cstring_cons hc, List.map_cons]
  rfl

theorem exact_zero (s : List Int8) : exact (0 :: s) = [] := rfl

theorem folded_zero (s : List Int8) : folded (0 :: s) = [] := rfl

theorem natCast_code {c : Int8} (hc : 0 ≤ c) : (code c : Int) = c.toInt := by
  have hnonneg := Int8.le_iff_toInt_le.mp hc
  rw [code, Int8.toNat_toUInt8_of_le hc]
  exact Int.toNat_of_nonneg hnonneg

theorem lt_iff_code_lt {c d : Int8} (hc : 0 ≤ c) (hd : 0 ≤ d) : c < d ↔ code c < code d := by
  rw [Int8.lt_iff_toInt_lt, ← natCast_code hc, ← natCast_code hd]
  omega

/-- A letter that becomes a small one is a character with 7 bits. -/
theorem lower_nonneg {c : Int8} (hc : 0 ≤ c) : 0 ≤ lower c := by
  rw [lower]
  split
  · rename_i h
    have h₁ := Int8.le_iff_toInt_le.mp h.1
    have h₂ := Int8.le_iff_toInt_le.mp h.2
    rw [Int8.le_iff_toInt_le, Int8.toInt_add]
    have hsum : (c.toInt + (0x20 : Int8).toInt).bmod (2 ^ 8) = c.toInt + 0x20 := by
      have hlow : (0x41 : Int8).toInt = 0x41 := rfl
      have hhigh : (0x5A : Int8).toInt = 0x5A := rfl
      have hstep : (0x20 : Int8).toInt = 0x20 := rfl
      rw [hstep, Int.bmod_eq_of_le]
      · omega
      · omega
    rw [hsum]
    have hlow : (0x41 : Int8).toInt = 0x41 := rfl
    have hzero : (0 : Int8).toInt = 0 := rfl
    omega
  · exact hc

theorem CString.tail {c : Int8} {s : List Int8} (h : CString (c :: s)) (hc : c ≠ 0) :
    CString s where
  ends := (List.mem_cons.mp h.ends).resolve_left hc.symm
  ascii d hd := h.ascii d (by rw [cstring_cons hc]; exact List.mem_cons_of_mem c hd)

theorem CString.head {c : Int8} {s : List Int8} (h : CString (c :: s)) : 0 ≤ c := by
  by_cases hc : c = 0
  · rw [hc]
    exact Int8.le_refl 0
  · exact h.ascii c (by rw [cstring_cons hc]; exact List.mem_cons_self)

theorem CString.ne_nil {s : List Int8} (h : CString s) : s ≠ [] :=
  List.ne_nil_of_mem h.ends

theorem exact_eq_nil_iff {c : Int8} {s : List Int8} : exact (c :: s) = [] ↔ c = 0 := by
  by_cases hc : c = 0
  · simp [hc, exact_zero]
  · simp [hc, exact_cons]

theorem folded_eq_nil_iff {c : Int8} {s : List Int8} : folded (c :: s) = [] ↔ c = 0 := by
  by_cases hc : c = 0
  · simp [hc, folded_zero]
  · simp [hc, folded_cons]

/-- A difference between two characters. -/
theorem lexSign_code {c1 c2 : Int8} (h₁ : 0 ≤ c1) (h₂ : 0 ≤ c2) (l m : List Nat) :
    lexSign (code c1 :: l) (code c2 :: m) =
      if c1 < c2 then -1 else if c1 > c2 then 1 else lexSign l m := by
  rw [lexSign]
  simp only [gt_iff_lt, lt_iff_code_lt h₁ h₂, lt_iff_code_lt h₂ h₁]

/-- Where a string has ended, the result is that of the lists. -/
theorem finish_eq {c1 c2 : Int8} {l m : List Nat} (h₁ : 0 ≤ c1) (h₂ : 0 ≤ c2)
    (hend : c1 = 0 ∨ c2 = 0) (hl : l = [] ↔ c1 = 0) (hm : m = [] ↔ c2 = 0) :
    finish c1 c2 = lexSign l m := by
  have hpos : ∀ {c : Int8}, 0 ≤ c → c ≠ 0 → 0 < c := fun hle hne =>
    Int8.lt_iff_le_and_ne.mpr ⟨hle, hne.symm⟩
  rw [finish]
  by_cases hz₁ : c1 = 0
  · obtain rfl := hl.mpr hz₁
    subst hz₁
    by_cases hz₂ : c2 = 0
    · obtain rfl := hm.mpr hz₂
      subst hz₂
      rfl
    · obtain ⟨b, m, rfl⟩ := List.exists_cons_of_ne_nil (hm.not.mpr hz₂)
      rw [if_pos (hpos h₂ hz₂), lexSign]
  · obtain rfl := hend.resolve_left hz₁
    obtain rfl := hm.mpr rfl
    obtain ⟨a, l, rfl⟩ := List.exists_cons_of_ne_nil (hl.not.mpr hz₁)
    have hlt := hpos h₁ hz₁
    rw [if_neg (Int8.lt_asymm hlt), if_pos hlt, lexSign]

/-! ## The comparisons that do not count -/

/-- **`rtl_strcmp` is `strcmp`.** -/
theorem rtlStrcmp_eq {s1 s2 : List Int8} (h₁ : CString s1) (h₂ : CString s2) :
    rtlStrcmp s1 s2 = some (lexSign (exact s1) (exact s2)) := by
  induction s1 generalizing s2 with
  | nil => exact absurd rfl h₁.ne_nil
  | cons c1 s1 ih =>
    cases s2 with
    | nil => exact absurd rfl h₂.ne_nil
    | cons c2 s2 =>
      rw [rtlStrcmp]
      split
      · rename_i hc
        rw [exact_cons hc.1, exact_cons hc.2, lexSign_code h₁.head h₂.head,
          ih (h₁.tail hc.1) (h₂.tail hc.2), apply_ite some, apply_ite some]
      · rename_i hc
        rw [finish_eq h₁.head h₂.head (by tauto) exact_eq_nil_iff exact_eq_nil_iff]

/-- **`rtl_strcasecmp` is `strcasecmp`.** -/
theorem rtlStrcasecmp_eq {s1 s2 : List Int8} (h₁ : CString s1) (h₂ : CString s2) :
    rtlStrcasecmp s1 s2 = some (lexSign (folded s1) (folded s2)) := by
  induction s1 generalizing s2 with
  | nil => exact absurd rfl h₁.ne_nil
  | cons c1 s1 ih =>
    cases s2 with
    | nil => exact absurd rfl h₂.ne_nil
    | cons c2 s2 =>
      rw [rtlStrcasecmp]
      split
      · rename_i hc
        rw [folded_cons hc.1, folded_cons hc.2,
          lexSign_code (lower_nonneg h₁.head) (lower_nonneg h₂.head),
          ih (h₁.tail hc.1) (h₂.tail hc.2), apply_ite some, apply_ite some]
      · rename_i hc
        rw [finish_eq h₁.head h₂.head (by tauto) folded_eq_nil_iff folded_eq_nil_iff]

/-! ## The comparisons that count -/

/-- The first `n` characters tell, ignoring case: the strings differ in front of the end of both, or
both end, at the same place and with less than `n` characters. -/
def Decided (s1 s2 : List Int8) (n : Nat) : Prop :=
  Apart ((folded s1).take n) ((folded s2).take n) ∨
    (folded s1).take n = (folded s2).take n ∧ ((folded s1).take n).length < n

theorem decided_comm {s1 s2 : List Int8} {n : Nat} : Decided s1 s2 n ↔ Decided s2 s1 n := by
  have hswap : ∀ {s1 s2 : List Int8}, Decided s1 s2 n → Decided s2 s1 n := by
    rintro s1 s2 (⟨h₁, h₂⟩ | ⟨heq, hlt⟩)
    · exact .inl ⟨h₂, h₁⟩
    · exact .inr ⟨heq.symm, heq ▸ hlt⟩
  exact ⟨hswap, hswap⟩

theorem not_decided_zero (s1 s2 : List Int8) : ¬Decided s1 s2 0 := by
  rintro (⟨h, -⟩ | ⟨-, hlt⟩)
  · exact h List.nil_prefix
  · exact Nat.not_lt_zero _ hlt

/-- Two characters in front of the end of both strings. -/
theorem decided_cons {c1 c2 : Int8} (hc₁ : c1 ≠ 0) (hc₂ : c2 ≠ 0) {s1 s2 : List Int8} {n : Nat} :
    Decided (c1 :: s1) (c2 :: s2) (n + 1) ↔
      code (lower c1) ≠ code (lower c2) ∨ Decided s1 s2 n := by
  simp only [Decided, Apart, folded_cons hc₁, folded_cons hc₂, List.take_succ_cons,
    List.cons_prefix_cons, List.cons.injEq, List.length_cons, Nat.add_lt_add_iff_right]
  tauto

/-- Where a string ends and the characters are the same, both do. -/
theorem ends_of_take_eq {c1 c2 : Int8} (hend : c1 = 0 ∨ c2 = 0) {s1 s2 : List Int8} {n : Nat}
    (heq : (folded (c1 :: s1)).take (n + 1) = (folded (c2 :: s2)).take (n + 1)) :
    c1 = 0 ∧ c2 = 0 := by
  rcases hend with rfl | rfl
  · refine ⟨rfl, (folded_eq_nil_iff (s := s2)).mp ?_⟩
    rw [folded_zero, List.take_nil, eq_comm, List.take_eq_nil_iff] at heq
    exact heq.resolve_left (Nat.succ_ne_zero n)
  · refine ⟨(folded_eq_nil_iff (s := s1)).mp ?_, rfl⟩
    rw [folded_zero, List.take_nil, List.take_eq_nil_iff] at heq
    exact heq.resolve_left (Nat.succ_ne_zero n)

/-- A string ends. -/
theorem decided_end {c1 c2 : Int8} (hend : c1 = 0 ∨ c2 = 0) {s1 s2 : List Int8} {n : Nat} :
    Decided (c1 :: s1) (c2 :: s2) (n + 1) ↔ c1 = 0 ∧ c2 = 0 := by
  constructor
  · rintro (⟨h₁, h₂⟩ | ⟨heq, -⟩)
    · rcases hend with rfl | rfl
      · exact absurd (by rw [folded_zero]; exact List.nil_prefix) h₁
      · exact absurd (by rw [folded_zero]; exact List.nil_prefix) h₂
    · exact ends_of_take_eq hend heq
  · rintro ⟨rfl, rfl⟩
    exact .inr ⟨rfl, Nat.succ_pos n⟩

theorem take_exact_cons {c : Int8} (hc : c ≠ 0) (s : List Int8) (n : Nat) :
    (exact (c :: s)).take (n + 1) = code c :: (exact s).take n := by
  rw [exact_cons hc, List.take_succ_cons]

theorem take_folded_cons {c : Int8} (hc : c ≠ 0) (s : List Int8) (n : Nat) :
    (folded (c :: s)).take (n + 1) = code (lower c) :: (folded s).take n := by
  rw [folded_cons hc, List.take_succ_cons]

theorem lt_or_gt_of_ne {c1 c2 : Int8} (h₁ : 0 ≤ c1) (h₂ : 0 ≤ c2) (hne : code c1 ≠ code c2) :
    c1 < c2 ∨ c1 > c2 := by
  rw [gt_iff_lt, lt_iff_code_lt h₁ h₂, lt_iff_code_lt h₂ h₁]
  omega

theorem code_inj {c1 c2 : Int8} (h₁ : 0 ≤ c1) (h₂ : 0 ≤ c2) (h : code c1 = code c2) : c1 = c2 :=
  Int8.toInt_inj.mp (by rw [← natCast_code h₁, ← natCast_code h₂, h])

/-- Characters that are not equal decide, whatever is behind them. -/
theorem ite_of_apart {c1 c2 : Int8} (h : c1 < c2 ∨ c1 > c2) (o : Option Int) (r : Int) :
    (if c1 < c2 then some (-1) else if c1 > c2 then some 1 else o) =
      some (if c1 < c2 then -1 else if c1 > c2 then 1 else r) := by
  rcases h with hlt | hgt
  · rw [if_pos hlt, if_pos hlt]
  · have hnot : ¬c1 < c2 := Int8.lt_asymm hgt
    rw [if_neg hnot, if_neg hnot, if_pos hgt, if_pos hgt]

/-- Where the first `n` characters tell, nothing else is looked at. -/
theorem rtlStrncmp_take {s1 s2 : List Int8} (h₁ : CString s1) (h₂ : CString s2) {n : Nat}
    (hd : Decided s1 s2 n) : rtlStrncmp s1 s2 n =
      some (lexSign ((exact s1).take n) ((exact s2).take n)) ∧
      rtlStrncmp (s1.take n) (s2.take n) n = rtlStrncmp s1 s2 n := by
  induction n generalizing s1 s2 with
  | zero => exact absurd hd (not_decided_zero s1 s2)
  | succ n ih =>
    obtain ⟨c1, s1, rfl⟩ := List.exists_cons_of_ne_nil h₁.ne_nil
    obtain ⟨c2, s2, rfl⟩ := List.exists_cons_of_ne_nil h₂.ne_nil
    rw [List.take_succ_cons, List.take_succ_cons, rtlStrncmp, rtlStrncmp]
    by_cases hc : c1 ≠ 0 ∧ c2 ≠ 0
    · have hgo : c1 ≠ 0 ∧ c2 ≠ 0 ∧ 0 < n + 1 := ⟨hc.1, hc.2, Nat.succ_pos n⟩
      rw [if_pos hgo, if_pos hgo, take_exact_cons hc.1, take_exact_cons hc.2,
        lexSign_code h₁.head h₂.head, Nat.add_sub_cancel]
      rcases (decided_cons hc.1 hc.2).mp hd with hne | hrest
      · have hne' : code c1 ≠ code c2 := fun heq => hne (code_inj h₁.head h₂.head heq ▸ rfl)
        have hapart := lt_or_gt_of_ne h₁.head h₂.head hne'
        exact ⟨ite_of_apart hapart _ _,
          (ite_of_apart hapart _ 0).trans (ite_of_apart hapart _ 0).symm⟩
      · obtain ⟨hresult, hreads⟩ := ih (h₁.tail hc.1) (h₂.tail hc.2) hrest
        rw [hreads, hresult, apply_ite some, apply_ite some]
        exact ⟨rfl, rfl⟩
    · have hend : c1 = 0 ∨ c2 = 0 := by tauto
      obtain ⟨rfl, rfl⟩ := (decided_end hend).mp hd
      exact ⟨rfl, rfl⟩

theorem rtlStrncasecmp_take {s1 s2 : List Int8} (h₁ : CString s1) (h₂ : CString s2) {n : Nat}
    (hd : Decided s1 s2 n) : rtlStrncasecmp s1 s2 n =
      some (lexSign ((folded s1).take n) ((folded s2).take n)) ∧
      rtlStrncasecmp (s1.take n) (s2.take n) n = rtlStrncasecmp s1 s2 n := by
  induction n generalizing s1 s2 with
  | zero => exact absurd hd (not_decided_zero s1 s2)
  | succ n ih =>
    obtain ⟨c1, s1, rfl⟩ := List.exists_cons_of_ne_nil h₁.ne_nil
    obtain ⟨c2, s2, rfl⟩ := List.exists_cons_of_ne_nil h₂.ne_nil
    rw [List.take_succ_cons, List.take_succ_cons]
    by_cases hc : c1 ≠ 0 ∧ c2 ≠ 0
    · have hgo : c2 ≠ 0 ∧ 0 < n + 1 := ⟨hc.2, Nat.succ_pos n⟩
      simp only [rtlStrncasecmp, if_neg hc.1, if_pos hgo, take_folded_cons hc.1,
        take_folded_cons hc.2, Nat.add_sub_cancel,
        lexSign_code (lower_nonneg h₁.head) (lower_nonneg h₂.head)]
      rcases (decided_cons hc.1 hc.2).mp hd with hne | hrest
      · have hapart := lt_or_gt_of_ne (lower_nonneg h₁.head) (lower_nonneg h₂.head) hne
        exact ⟨ite_of_apart hapart _ _,
          (ite_of_apart hapart _ 0).trans (ite_of_apart hapart _ 0).symm⟩
      · obtain ⟨hresult, hreads⟩ := ih (h₁.tail hc.1) (h₂.tail hc.2) hrest
        rw [hreads, hresult, apply_ite some, apply_ite some]
        exact ⟨rfl, rfl⟩
    · have hend : c1 = 0 ∨ c2 = 0 := by tauto
      obtain ⟨rfl, rfl⟩ := (decided_end hend).mp hd
      exact ⟨rfl, rfl⟩

/-- Where the first `n` characters do not tell, `rtl_strncasecmp` looks at the next ones, or takes
strings for equal that are not. -/
theorem rtlStrncasecmp_wrong {s1 s2 : List Int8} (h₁ : CString s1) (h₂ : CString s2) {n : Nat}
    (hd : ¬Decided s1 s2 n) : rtlStrncasecmp (s1.take n) (s2.take n) n = none ∨
      rtlStrncasecmp s1 s2 n ≠ some (lexSign ((folded s1).take n) ((folded s2).take n)) := by
  induction n generalizing s1 s2 with
  | zero => exact .inl rfl
  | succ n ih =>
    obtain ⟨c1, s1, rfl⟩ := List.exists_cons_of_ne_nil h₁.ne_nil
    obtain ⟨c2, s2, rfl⟩ := List.exists_cons_of_ne_nil h₂.ne_nil
    rw [List.take_succ_cons, List.take_succ_cons]
    by_cases hc : c1 ≠ 0 ∧ c2 ≠ 0
    · have hgo : c2 ≠ 0 ∧ 0 < n + 1 := ⟨hc.2, Nat.succ_pos n⟩
      have hrest := (decided_cons hc.1 hc.2).not.mp hd
      rw [not_or, not_not] at hrest
      have hlt : ¬lower c1 < lower c2 := fun hlt => Nat.ne_of_lt
        ((lt_iff_code_lt (lower_nonneg h₁.head) (lower_nonneg h₂.head)).mp hlt) hrest.1
      have hgt : ¬lower c1 > lower c2 := fun hgt => Nat.ne_of_gt
        ((lt_iff_code_lt (lower_nonneg h₂.head) (lower_nonneg h₁.head)).mp hgt) hrest.1
      simp only [rtlStrncasecmp, if_neg hc.1, if_pos hgo, take_folded_cons hc.1,
        take_folded_cons hc.2, Nat.add_sub_cancel, if_neg hlt, if_neg hgt,
        lexSign_code (lower_nonneg h₁.head) (lower_nonneg h₂.head)]
      exact ih (h₁.tail hc.1) (h₂.tail hc.2) hrest.2
    · have hend : c1 = 0 ∨ c2 = 0 := by tauto
      have hone := (decided_end hend).not.mp hd
      refine .inr fun heq => ?_
      have hzero : rtlStrncasecmp (c1 :: s1) (c2 :: s2) (n + 1) = some 0 := by
        by_cases hz₁ : c1 = 0
        · simp only [rtlStrncasecmp, if_pos hz₁]
        · have hz₂ : ¬(c2 ≠ 0 ∧ 0 < n + 1) := fun h => h.1 (hend.resolve_left hz₁)
          simp only [rtlStrncasecmp, if_neg hz₁, if_neg hz₂]
      have hsame := (lexSign_eq_zero_iff _ _).mp (Option.some.inj (hzero.symm.trans heq)).symm
      exact hone (ends_of_take_eq hend hsame)

/-! ## All four -/

/-- A function reports the comparison of two lists for two strings, and is antisymmetric. -/
structure Reports (f : List Int8 → List Int8 → Option Int) (s1 s2 : List Int8) (l m : List Nat) :
    Prop where
  result : f s1 s2 = some (lexSign l m)
  swapped : f s2 s1 = some (-lexSign l m)
  zero : f s1 s2 = some 0 ↔ l = m

theorem reports {f : List Int8 → List Int8 → Option Int} {s1 s2 : List Int8} {l m : List Nat}
    (h : f s1 s2 = some (lexSign l m)) (h' : f s2 s1 = some (lexSign m l)) :
    Reports f s1 s2 l m where
  result := h
  swapped := by rw [h', lexSign_swap]
  zero := by rw [h, Option.some.injEq, lexSign_eq_zero_iff]

/-- The four functions report what those of the C library do, and the two that count look at no more
than the first `n` characters: buffers with no others will do. -/
structure Compares (s1 s2 : List Int8) (n : Nat) : Prop where
  strcmp : Reports rtlStrcmp s1 s2 (exact s1) (exact s2)
  strncmp : Reports (fun s1 s2 => rtlStrncmp s1 s2 n) s1 s2 ((exact s1).take n)
    ((exact s2).take n)
  strcasecmp : Reports rtlStrcasecmp s1 s2 (folded s1) (folded s2)
  strncasecmp : Reports (fun s1 s2 => rtlStrncasecmp s1 s2 n) s1 s2 ((folded s1).take n)
    ((folded s2).take n)
  strncmp_reads : rtlStrncmp (s1.take n) (s2.take n) n ≠ none
  strncasecmp_reads : rtlStrncasecmp (s1.take n) (s2.take n) n ≠ none

/-- **The comparisons are those of the C library exactly where the first `n` characters tell.** -/
theorem compares_iff {s1 s2 : List Int8} (h₁ : CString s1) (h₂ : CString s2) (n : Nat) :
    Compares s1 s2 n ↔ Decided s1 s2 n := by
  constructor
  · intro h
    by_contra hd
    rcases rtlStrncasecmp_wrong h₁ h₂ hd with hnone | hne
    · exact h.strncasecmp_reads hnone
    · exact hne h.strncasecmp.result
  · intro hd
    have hd' := decided_comm.mp hd
    obtain ⟨hn, hnreads⟩ := rtlStrncmp_take h₁ h₂ hd
    obtain ⟨hc, hcreads⟩ := rtlStrncasecmp_take h₁ h₂ hd
    exact ⟨reports (rtlStrcmp_eq h₁ h₂) (rtlStrcmp_eq h₂ h₁),
      reports hn (rtlStrncmp_take h₂ h₁ hd').1,
      reports (rtlStrcasecmp_eq h₁ h₂) (rtlStrcasecmp_eq h₂ h₁),
      reports hc (rtlStrncasecmp_take h₂ h₁ hd').1,
      by rw [hnreads, hn]; exact Option.some_ne_none _,
      by rw [hcreads, hc]; exact Option.some_ne_none _⟩

/-- The first two characters of `aBc` and `Abd` do not tell, and the first three do. -/
theorem compares_iff_three :
    Compares [0x61, 0x42, 0x63, 0] [0x41, 0x62, 0x64, 0] 3 ∧
      ¬Compares [0x61, 0x42, 0x63, 0] [0x41, 0x62, 0x64, 0] 2 := by
  have h₁ : CString [0x61, 0x42, 0x63, 0] := ⟨by decide, by simp [cstring]⟩
  have h₂ : CString [0x41, 0x62, 0x64, 0] := ⟨by decide, by simp [cstring]⟩
  refine ⟨(compares_iff h₁ h₂ 3).mpr (.inl ⟨by decide, by decide⟩), fun h => ?_⟩
  rcases (compares_iff h₁ h₂ 2).mp h with hapart | hshort
  · exact hapart.1 (by decide)
  · exact absurd hshort.2 (by decide)

/-- The first two characters of `abx` and `aby` are equal, and the third ones are compared; `ab` and
`abc` are not equal, and taken for equal. -/
theorem compares_not :
    rtlStrncmp [0x61, 0x62, 0x78, 0] [0x61, 0x62, 0x79, 0] 2 = some (-1) ∧
      rtlStrncasecmp [0x61, 0x62, 0] [0x61, 0x62, 0x63, 0] 3 = some 0 ∧
      ¬Compares [0x61, 0x62, 0x78, 0] [0x61, 0x62, 0x79, 0] 2 ∧
      ¬Compares [0x61, 0x62, 0] [0x61, 0x62, 0x63, 0] 3 := by
  refine ⟨by decide, by decide, fun h => ?_, fun h => ?_⟩
  · exact absurd h.strncmp.result (by decide)
  · exact absurd h.strncasecmp.result (by decide)

end Rtlstr

end LibNax
