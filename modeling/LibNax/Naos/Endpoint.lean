import Mathlib.Data.List.TakeWhile
import LibNax.Naos.Convert

/-!
# Endpoints

An endpoint keeps an address as a text and as a number.  The text is checked by
`endpoint::is_effective_ipv4`, which cuts it at its dots and reads the parts as numbers, however
many digits they have; the number is what `naos_ipv4tou` reads, which asks `naos_is_legal_ipv4`
first. Any other text is taken for the name of a host.

* `isEffectiveIpv4`, `Endpoint.ipv4` — the functions, and `Quad` — what the first one accepts.
* `agree_iff` — where the two checks agree.
* `naosIpv4tou_of_dottedQuad` — the number of a dotted quad, which may have leading zeros.
* `consistent_iff` — where the checks agree, and the number is that of the text.
-/

set_option autoImplicit false

namespace LibNax

namespace Naos

open Lib (isDigit decimal decimalValue readDigits overwrite)

/-! ## The source -/

/-- `toolkit::is_digit_str`. -/
def isDigitStr (str : List UInt8) : Bool := if str.length = 0 then false else str.all isDigit

/-- `LONG_MAX`. -/
def longMax : Nat := 2 ^ 63 - 1

/-- `strtol` of a string of digits, in the base ten. -/
def strtol (str : List UInt8) : Nat := min (decimalValue str) longMax

/-- The loop of `is_effective_ipv4` that cuts the string, for the dots that are still allowed: the
values, where all of the dots have come. -/
def cutRounds : Nat → List UInt8 → Option (List (List UInt8))
  | 0, rest => if dot ∈ rest then none else some [rest]
  | left + 1, rest =>
    if dot ∈ rest then
      (cutRounds left (rest.dropWhile (· ≠ dot)).tail).map (rest.takeWhile (· ≠ dot) :: ·)
    else none

/-- `endpoint::is_effective_ipv4`. -/
def isEffectiveIpv4 (ipstr : List UInt8) : Bool :=
  if ipstr.length = 0 then false
  else
    match cutRounds 3 ipstr with
    | none => false
    | some value => value.all fun v => isDigitStr v && !(strtol v > 255)

/-- `strncpy`: at most `n` characters, and zeros up to `n`. -/
def strncpy (src : List UInt8) (n : Nat) : List UInt8 :=
  (cstring src).take n ++ List.replicate (n - (cstring src).length) 0

/-- `crt_strcpy`. -/
def crtStrcpy (dest : List UInt8) (maxlen : Nat) (src : List UInt8) : List UInt8 :=
  overwrite (dest.set (maxlen - 1) 0) 0 (strncpy src (maxlen - 1))

theorem length_strncpy (src : List UInt8) (n : Nat) : (strncpy src n).length = n := by
  rw [strncpy, List.length_append, List.length_take, List.length_replicate]
  omega

theorem length_crtStrcpy (dest : List UInt8) (src : List UInt8) :
    (crtStrcpy dest dest.length src).length = dest.length := by
  have hset : (dest.set (dest.length - 1) 0).length = dest.length := List.length_set
  rw [crtStrcpy, Lib.length_overwrite, hset]
  rw [length_strncpy, hset]
  omega

/-- `MAXIMUM_IPV4_STRLEN`. -/
def maximumIpv4Strlen : Nat := 0x10

/-- An endpoint. -/
structure Endpoint where
  ipstr : List UInt8
  length_ipstr : ipstr.length = maximumIpv4Strlen
  port : UInt16
  address : UInt32

/-- `endpoint::parse_domain`, where `gethost` is `nis_gethost`. -/
def parseDomain (gethost : List UInt8 → Option UInt32) (domain : List UInt8) :
    Option (List UInt8) :=
  match gethost (cstring domain) with
  | none => none
  | some ip =>
    match naosIpv4tos ip (some ⟨List.replicate 16 0, rfl⟩) with
    | (_, none) => none
    | (status, some iptxt) => if status ≥ 0 then some (cstring iptxt.st) else none

/-- The text that `endpoint::ipv4` takes: the one it is given, or that of a host. -/
def chosenText (gethost : List UInt8 → Option UInt32) (ipstr : List UInt8) :
    Option (List UInt8) :=
  if ipstr.length = 0 then none
  else if isEffectiveIpv4 ipstr then some ipstr
  else parseDomain gethost ipstr

/-- `endpoint::ipv4`, of a text; `alloc` tells whether `naos_ipv4tou` gets the memory it wants. -/
def Endpoint.ipv4 (gethost : List UInt8 → Option UInt32) (alloc : Bool) (ep : Endpoint)
    (ipstr : List UInt8) : Endpoint :=
  match chosenText gethost ipstr with
  | none => ep
  | some src =>
    let kept := crtStrcpy ep.ipstr ep.ipstr.length src
    { ep with
      ipstr := kept
      length_ipstr := (length_crtStrcpy ep.ipstr src).trans ep.length_ipstr
      address := naosIpv4tou alloc kept .littleEndian }

/-! ## What the first check accepts -/

/-- Four fields of digits, with the value of a byte each. -/
def Quad (ipstr : List UInt8) : Prop :=
  (ipstr.splitOn dot).length = 4 ∧ ∀ v ∈ ipstr.splitOn dot,
    v ≠ [] ∧ (∀ c ∈ v, isDigit c = true) ∧ decimalValue v ≤ maxUint8

instance (ipstr : List UInt8) : Decidable (Quad ipstr) := inferInstanceAs (Decidable (_ ∧ _))

/-- A quad with a field of more than three digits. -/
def Padded (ipstr : List UInt8) : Prop := Quad ipstr ∧ ∃ v ∈ ipstr.splitOn dot, 3 < v.length

instance (ipstr : List UInt8) : Decidable (Padded ipstr) := inferInstanceAs (Decidable (_ ∧ _))

/-- A string is what is in front of its first dot, the dot, and what is behind it. -/
theorem splitOn_of_mem {rest : List UInt8} (h : dot ∈ rest) : rest.splitOn dot =
    rest.takeWhile (· ≠ dot) :: ((rest.dropWhile (· ≠ dot)).tail).splitOn dot := by
  have hne : rest.dropWhile (· ≠ dot) ≠ [] := by
    rw [ne_eq, List.dropWhile_eq_nil_iff]
    intro hall
    simpa using hall dot h
  have hhead := List.head_dropWhile_not (fun c => decide (c ≠ dot)) hne
  have hcons : rest.dropWhile (· ≠ dot) = dot :: (rest.dropWhile (· ≠ dot)).tail := by
    have hdot : (rest.dropWhile (· ≠ dot)).head hne = dot := by simpa using hhead
    exact (List.cons_head_tail hne).symm.trans (congrArg (· :: _) hdot)
  have hfront : dot ∉ rest.takeWhile (· ≠ dot) := fun hmem => by
    simpa using List.mem_takeWhile_imp hmem
  have happ : rest = rest.takeWhile (· ≠ dot) ++ dot :: (rest.dropWhile (· ≠ dot)).tail := by
    rw [← hcons, List.takeWhile_append_dropWhile]
  conv_lhs => rw [happ]
  exact List.splitOn_append_cons_self_of_not_mem hfront _

/-- The loop cuts a string at its dots, where there are as many as are allowed. -/
theorem cutRounds_eq (left : Nat) : ∀ rest, cutRounds left rest =
    if (rest.splitOn dot).length = left + 1 then some (rest.splitOn dot) else none := by
  induction left with
  | zero =>
    intro rest
    rw [cutRounds]
    split
    · rename_i h
      have hpos := List.length_pos_iff.mpr
        (List.splitOn_ne_nil dot (rest.dropWhile (· ≠ dot)).tail)
      rw [if_neg]
      rw [splitOn_of_mem h, List.length_cons]
      omega
    · rename_i h
      rw [List.splitOn_eq_singleton h]
      rfl
  | succ left ih =>
    intro rest
    rw [cutRounds]
    split
    · rename_i h
      rw [ih, splitOn_of_mem h, List.length_cons]
      simp only [Nat.add_right_cancel_iff]
      split
      · rfl
      · rfl
    · rename_i h
      rw [List.splitOn_eq_singleton h, if_neg]
      rw [List.length_singleton]
      omega

theorem isDigitStr_iff {v : List UInt8} :
    isDigitStr v = true ↔ v ≠ [] ∧ ∀ c ∈ v, isDigit c = true := by
  rw [isDigitStr]
  split
  · rename_i h
    simp [List.length_eq_zero_iff.mp h]
  · rename_i h
    simp [List.length_eq_zero_iff.not.mp h]

/-- **What `is_effective_ipv4` accepts.** -/
theorem isEffectiveIpv4_iff (ipstr : List UInt8) : isEffectiveIpv4 ipstr = true ↔ Quad ipstr := by
  rw [isEffectiveIpv4, cutRounds_eq, Quad]
  split
  · rename_i h
    rw [List.length_eq_zero_iff.mp h]
    simp
  by_cases hlen : (ipstr.splitOn dot).length = 4
  · rw [if_pos hlen]
    have hmax : ∀ v, (!decide (strtol v > 255)) = true ↔ decimalValue v ≤ maxUint8 := by
      intro v
      have hlong : 255 < longMax := by decide
      rw [strtol, maxUint8, Bool.not_eq_true', decide_eq_false_iff_not, Nat.not_lt]
      omega
    simp only [List.all_eq_true, Bool.and_eq_true, isDigitStr_iff, hmax, hlen, true_and, and_assoc]
  · rw [if_neg hlen]
    simp [hlen]

/-! ## Where the two checks agree -/

/-- What is in a string is in one of its fields. -/
theorem exists_mem_splitOn {s : List UInt8} {c : UInt8} (hne : c ≠ dot) (hc : c ∈ s) :
    ∃ v ∈ s.splitOn dot, c ∈ v := by
  induction s with
  | nil => cases hc
  | cons d s ih =>
    rw [List.splitOn_cons_eq_if_modifyHead]
    obtain ⟨f, rest, hs⟩ := List.exists_cons_of_ne_nil (List.splitOn_ne_nil dot s)
    rw [hs] at ih ⊢
    by_cases hd : d = dot
    · rw [if_pos (beq_iff_eq.mpr hd)]
      have hmem := (List.mem_cons.mp hc).resolve_left fun heq => hne (heq.trans hd)
      obtain ⟨v, hv, hcv⟩ := ih hmem
      exact ⟨v, List.mem_cons_of_mem _ hv, hcv⟩
    · rw [if_neg (by simpa using hd), List.modifyHead_cons]
      rcases List.mem_cons.mp hc with rfl | hmem
      · exact ⟨_, List.mem_cons_self, List.mem_cons_self⟩
      · obtain ⟨v, hv, hcv⟩ := ih hmem
        rcases List.mem_cons.mp hv with rfl | hv
        · exact ⟨_, List.mem_cons_self, List.mem_cons_of_mem _ hcv⟩
        · exact ⟨v, List.mem_cons_of_mem _ hv, hcv⟩

theorem fields_eq {s : List UInt8} (h : (0 : UInt8) ∉ s) : fields s = s.splitOn dot :=
  congrArg (List.splitOn dot) (cstring_eq_self.mpr h)

theorem Quad.zero_notMem {s : List UInt8} (h : Quad s) : (0 : UInt8) ∉ s := fun hmem => by
  obtain ⟨v, hv, hzero⟩ := exists_mem_splitOn (by decide : (0 : UInt8) ≠ dot) hmem
  exact absurd ((h.2 v hv).2.1 0 hzero) (by decide)

/-- The quads without a long field are the dotted quads without a zero. -/
theorem quad_iff {s : List UInt8} : Quad s ∧ ¬Padded s ↔ DottedQuad s ∧ (0 : UInt8) ∉ s := by
  constructor
  · rintro ⟨hq, hpad⟩
    have hzero := hq.zero_notMem
    rw [DottedQuad, fields_eq hzero]
    refine ⟨⟨hq.1, fun v hv => ⟨(hq.2 v hv).1, ?_, (hq.2 v hv).2⟩⟩, hzero⟩
    exact Nat.le_of_not_lt fun hlong => hpad ⟨hq, v, hv, hlong⟩
  · rintro ⟨hdotted, hzero⟩
    rw [DottedQuad, fields_eq hzero] at hdotted
    refine ⟨⟨hdotted.1, fun v hv => ⟨(hdotted.2 v hv).1, (hdotted.2 v hv).2.2⟩⟩, ?_⟩
    rintro ⟨-, v, hv, hlong⟩
    exact Nat.not_lt.mpr (hdotted.2 v hv).2.1 hlong

/-- What `naos_is_legal_ipv4` accepts is a dotted quad, or one with a gap. -/
theorem isLegal_iff (s : List UInt8) : naosIsLegalIpv4 s = true ↔ DottedQuad s ∨ Gapped s := by
  rw [naosIsLegalIpv4_iff, DottedQuad, Gapped]
  constructor
  · rintro ⟨hlen, hall, hlast⟩
    by_cases hgap : [] ∈ fields s
    · exact .inr ⟨hlen, hall, hlast, hgap⟩
    · exact .inl ⟨hlen, fun v hv => ⟨fun hnil => hgap (hnil ▸ hv), hall v hv⟩⟩
  · rintro (⟨hlen, hall⟩ | ⟨hlen, hall, hlast, -⟩)
    · refine ⟨hlen, fun v hv => (hall v hv).2, ?_⟩
      have hne := fields_ne_nil s
      rw [List.getLastD_eq_getLast?, List.getLast?_eq_some_getLast hne, Option.getD_some]
      exact (hall _ (List.getLast_mem hne)).1
    · exact ⟨hlen, hall, hlast⟩

/-- **The two checks agree exactly on the strings that are not padded, have no gap, and have no zero
behind a dotted quad.** -/
theorem agree_iff (s : List UInt8) : isEffectiveIpv4 s = naosIsLegalIpv4 s ↔
    ¬Padded s ∧ ¬Gapped s ∧ ¬((0 : UInt8) ∈ s ∧ DottedQuad s) := by
  rw [Bool.eq_iff_iff, isEffectiveIpv4_iff, isLegal_iff]
  constructor
  · intro h
    have hdotted : Quad s → ¬Gapped s → DottedQuad s := fun hq hgap =>
      (h.mp hq).resolve_right hgap
    have hgap : ¬Gapped s := fun hgap => by
      have hq := h.mpr (.inr hgap)
      have hnil : [] ∈ s.splitOn dot := fields_eq hq.zero_notMem ▸ hgap.2.2.2
      exact (hq.2 [] hnil).1 rfl
    refine ⟨fun hpad => ?_, hgap, fun hzero => ?_⟩
    · have hd := hdotted hpad.1 hgap
      exact (quad_iff.mpr ⟨hd, hpad.1.zero_notMem⟩).2 hpad
    · exact (h.mpr (.inl hzero.2)).zero_notMem hzero.1
  · rintro ⟨hpad, hgap, hzero⟩
    constructor
    · exact fun hq => .inl (quad_iff.mp ⟨hq, hpad⟩).1
    · rintro (hd | hg)
      · exact (quad_iff.mpr ⟨hd, fun hmem => hzero ⟨hmem, hd⟩⟩).1
      · exact absurd hg hgap

/-! ## The number of a dotted quad -/

/-- The number of the fields of a text. -/
def quadValue (s : List UInt8) : Nat :=
  (fields s).foldl (fun value segment => 2 ^ 8 * value + decimalValue segment) 0

/-- The four fields of a text. -/
theorem exists_fields {s : List UInt8} (h : (fields s).length = 4) :
    ∃ a b c d, fields s = [a, b, c, d] ∧
      cstring s = a ++ dot :: (b ++ dot :: (c ++ dot :: d)) := by
  obtain ⟨a, b, c, d, heq⟩ : ∃ a b c d, fields s = [a, b, c, d] := by
    match hs : fields s, h with
    | [a, b, c, d], _ => exact ⟨a, b, c, d, rfl⟩
  refine ⟨a, b, c, d, heq, ?_⟩
  have hjoin : [dot].intercalate (fields s) = cstring s := List.intercalate_splitOn dot
  rw [← hjoin, heq]
  simp [List.intercalate]

/-- **`naos_ipv4tou` of a dotted quad**: the number that its fields are. -/
theorem naosIpv4tou_of_dottedQuad {s : List UInt8} (h : DottedQuad s) :
    (naosIpv4tou true s .littleEndian).toNat = quadValue s := by
  obtain ⟨a, b, c, d, hfields, htext⟩ := exists_fields h.1
  have hall := h.2
  rw [hfields] at hall
  simp only [List.forall_mem_cons, List.not_mem_nil, false_imp_iff, implies_true, and_true] at hall
  obtain ⟨⟨hane, ha⟩, ⟨hbne, hb⟩, ⟨hcne, hc⟩, ⟨hdne, hd⟩⟩ := hall
  have hdot : ∀ {v : List UInt8}, Segment v → dot ∉ v := fun hv hmem =>
    absurd (hv.2.1 dot hmem) (by decide)
  have hmax : maxUint8 = 255 := rfl
  have hav := ha.2.2
  have hbv := hb.2.2
  have hcv := hc.2.2
  have hdv := hd.2.2
  have hrounds : tokenRounds .littleEndian 4 0 (cstring s) 0 = quadValue s := by
    rw [quadValue, hfields, htext]
    simp only [tokenRounds, strtok_dot hane (hdot ha), strtok_dot hbne (hdot hb),
      strtok_dot hcne (hdot hc), strtok_last hdne (hdot hd), ByteOrder.bitMov,
      List.getD_cons_zero, List.getD_cons_succ, Nat.shiftLeft_eq, Nat.zero_or, Nat.reduceAdd,
      List.foldl_cons, List.foldl_nil]
    have htwo : decimalValue a * 2 ^ 24 ||| decimalValue b * 2 ^ 16 =
        decimalValue a * 2 ^ 24 + decimalValue b * 2 ^ 16 :=
      Lib.or_of_mod_eq_zero (k := 24) (by omega) (by omega)
    have hthree : decimalValue a * 2 ^ 24 + decimalValue b * 2 ^ 16 ||| decimalValue c * 2 ^ 8 =
        decimalValue a * 2 ^ 24 + decimalValue b * 2 ^ 16 + decimalValue c * 2 ^ 8 :=
      Lib.or_of_mod_eq_zero (k := 16) (by omega) (by omega)
    rw [htwo, hthree, Lib.or_of_mod_eq_zero (k := 8) (by omega) (by omega)]
    omega
  have hlt : quadValue s < 2 ^ 32 := by
    rw [quadValue, hfields]
    simp only [List.foldl_cons, List.foldl_nil]
    omega
  rw [naosIpv4tou, if_pos ((isLegal_iff s).mpr (.inl h)), if_pos rfl, hrounds,
    UInt32.toNat_ofNat', Nat.mod_eq_of_lt hlt]

theorem foldl_value_eq_zero (l : List (List UInt8)) : ∀ value,
    l.foldl (fun value segment => 2 ^ 8 * value + decimalValue segment) value = 0 ↔
      value = 0 ∧ ∀ segment ∈ l, decimalValue segment = 0 := by
  induction l with
  | nil => simp
  | cons segment l ih =>
    intro value
    rw [List.foldl_cons, ih, List.forall_mem_cons]
    constructor
    · rintro ⟨hzero, hl⟩
      exact ⟨by omega, by omega, hl⟩
    · rintro ⟨rfl, hzero, hl⟩
      exact ⟨by omega, hl⟩

/-- The number is zero where all fields are. -/
theorem quadValue_eq_zero_iff (s : List UInt8) :
    quadValue s = 0 ↔ ∀ segment ∈ fields s, decimalValue segment = 0 := by
  rw [quadValue, foldl_value_eq_zero]
  exact and_iff_right rfl

/-! ## The text that is kept -/

/-- A text of at most 15 characters is kept in full, and of a longer one 15 characters are. -/
theorem text_crtStrcpy {dest : List UInt8} (hdest : dest.length = maximumIpv4Strlen)
    (src : List UInt8) : cstring (crtStrcpy dest dest.length src) = (cstring src).take 15 := by
  have hall : 0 ∉ (cstring src).take 15 := fun hc =>
    zero_notMem_cstring src (List.mem_of_mem_take hc)
  have hlast : (dest.set 15 0).drop 15 = [0] := by
    rw [List.drop_set, if_neg (Nat.lt_irrefl 15), Nat.sub_self]
    obtain ⟨c, hc⟩ : ∃ c, dest.drop 15 = [c] := by
      rw [← List.length_eq_one_iff, List.length_drop, hdest]
      rfl
    rw [hc]
    rfl
  have hzeros : ∀ n, ∀ c ∈ List.replicate n (0 : UInt8) ++ [0], c = 0 := fun n c hc =>
    (List.mem_append.mp hc).elim List.eq_of_mem_replicate List.mem_singleton.mp
  rw [crtStrcpy, overwrite, length_strncpy, hdest]
  simp only [maximumIpv4Strlen, Nat.reduceSub, Nat.zero_add, List.take_zero, List.nil_append,
    hlast, strncpy, List.append_assoc]
  exact cstring_append_zeros hall (hzeros _)

/-- The text of a host has at most 14 characters. -/
theorem parseDomain_eq (gethost : List UInt8 → Option UInt32) (domain : List UInt8) :
    parseDomain gethost domain =
      (gethost (cstring domain)).map fun ip => (addressText ip).take 14 := by
  rw [parseDomain]
  cases gethost (cstring domain) with
  | none => rfl
  | some ip =>
    obtain ⟨buffer, heq, hst⟩ := naosIpv4tos_some ip ⟨List.replicate 16 0, rfl⟩
    have htext := text_abuffSprintf ⟨List.replicate 16 0, rfl⟩
      fun c hc => ne_zero_of_mem_addressText (x := ip) hc
    rw [← hst] at htext
    simp only [heq, ge_iff_le, Int.le_refl, if_true, Option.map_some, htext]

/-- The fields of the text of a host, the last of which may have lost its last digit. -/
theorem fields_take_addressText (x : UInt32) : ∃ k, 2 ≤ k ∧
    (octet x 3 = 0 → 3 ≤ k) ∧ ((addressText x).take 14).splitOn dot =
      [decimal (octet x 3), decimal (octet x 2), decimal (octet x 1),
        (decimal (octet x 0)).take k] := by
  have hlen : ∀ i, (decimal (octet x i)).length ≤ 3 := fun i => (segment_decimal (octet_lt x i)).1
  have h3 := hlen 3
  have h2 := hlen 2
  have h1 := hlen 1
  refine ⟨14 - ((decimal (octet x 3)).length + (decimal (octet x 2)).length +
    (decimal (octet x 1)).length + 3), by omega, fun hzero => ?_, ?_⟩
  · have hone : (decimal 0).length = 1 := rfl
    rw [hzero, hone]
    omega
  · have hfront : ∀ {v rest : List UInt8} {n : Nat}, v.length + 1 ≤ n →
        (v ++ dot :: rest).take n = v ++ dot :: rest.take (n - (v.length + 1)) := by
      intro v rest n hn
      rw [List.take_append, List.take_of_length_le (by omega),
        show n - v.length = n - (v.length + 1) + 1 by omega, List.take_succ_cons]
    have hlast : dot ∉ (decimal (octet x 0)).take (14 - ((decimal (octet x 3)).length +
        (decimal (octet x 2)).length + (decimal (octet x 1)).length + 3)) := fun hmem =>
      dot_notMem_decimal _ (List.mem_of_mem_take hmem)
    have hsub : 14 - ((decimal (octet x 3)).length + 1) - ((decimal (octet x 2)).length + 1) -
        ((decimal (octet x 1)).length + 1) = 14 - ((decimal (octet x 3)).length +
          (decimal (octet x 2)).length + (decimal (octet x 1)).length + 3) := by omega
    rw [addressText, hfront (by omega), hfront (by omega), hfront (by omega), hsub,
      List.splitOn_append_cons_self_of_not_mem (dot_notMem_decimal _),
      List.splitOn_append_cons_self_of_not_mem (dot_notMem_decimal _),
      List.splitOn_append_cons_self_of_not_mem (dot_notMem_decimal _),
      List.splitOn_eq_singleton hlast]

/-- The text of a host is a dotted quad, and a zero one for no host but zero. -/
theorem dottedQuad_host {s : List UInt8} {x : UInt32} (hs : cstring s = (addressText x).take 14) :
    DottedQuad s ∧ (quadValue s = 0 ↔ x = 0) := by
  obtain ⟨k, hk, hzero, heq⟩ := fields_take_addressText x
  have hfields : fields s = _ := (congrArg (List.splitOn dot) hs).trans heq
  have hseg : ∀ i, decimal (octet x i) ≠ [] ∧ Segment (decimal (octet x i)) := fun i =>
    ⟨Lib.decimal_ne_nil _, segment_decimal (octet_lt x i)⟩
  constructor
  · rw [DottedQuad, hfields]
    refine ⟨rfl, ?_⟩
    simp only [List.forall_mem_cons]
    refine ⟨hseg 3, hseg 2, hseg 1, ⟨fun hnil => ?_, ?_, ?_, ?_⟩, fun _ h => by cases h⟩
    · have hne := List.length_pos_iff.mpr (hseg 0).1
      have hlen := congrArg List.length hnil
      rw [List.length_take, List.length_nil] at hlen
      omega
    · rw [List.length_take]
      exact Nat.le_trans (Nat.min_le_right _ _) (hseg 0).2.1
    · exact fun c hc => (hseg 0).2.2.1 c (List.mem_of_mem_take hc)
    · exact Nat.le_trans (Lib.decimalValue_take_le (hseg 0).2.2.1 k) (hseg 0).2.2.2
  · rw [quadValue_eq_zero_iff, hfields]
    simp only [List.forall_mem_cons, List.not_mem_nil, false_imp_iff, implies_true, and_true,
      Lib.decimalValue_decimal]
    constructor
    · rintro ⟨h3, h2, h1, h0⟩
      rw [List.take_of_length_le (Nat.le_trans (hseg 0).2.1 (hzero h3)),
        Lib.decimalValue_decimal] at h0
      have hx := x.toNat_lt
      apply UInt32.toNat_inj.mp
      rw [UInt32.toNat_zero]
      simp only [octet] at h0 h1 h2 h3
      omega
    · rintro rfl
      refine ⟨rfl, rfl, rfl, ?_⟩
      rw [List.take_of_length_le (Nat.le_trans (by decide) hk)]
      rfl

/-! ## The address that is stored -/

theorem DottedQuad.length_text_le {s : List UInt8} (h : DottedQuad s) : (cstring s).length ≤ 15 := by
  obtain ⟨a, b, c, d, hfields, htext⟩ := exists_fields h.1
  have hall := h.2
  rw [hfields] at hall
  simp only [List.forall_mem_cons] at hall
  obtain ⟨⟨-, ha⟩, ⟨-, hb⟩, ⟨-, hc⟩, ⟨-, hd⟩, -⟩ := hall
  have hla := ha.1
  have hlb := hb.1
  have hlc := hc.1
  have hld := hd.1
  rw [htext]
  simp only [List.length_append, List.length_cons]
  omega

/-- Strings with the same text are the same to everything that reads them. -/
theorem DottedQuad.congr {s s' : List UInt8} (h : DottedQuad s) (ht : cstring s' = cstring s) :
    DottedQuad s' ∧ quadValue s' = quadValue s := by
  have hfields : fields s' = fields s := congrArg (List.splitOn dot) ht
  exact ⟨by rwa [DottedQuad, hfields], by rw [quadValue, hfields, quadValue]⟩

/-- What `endpoint::ipv4` does with a text that it keeps. -/
theorem ipv4_eq {gethost : List UInt8 → Option UInt32} {s src : List UInt8}
    (h : chosenText gethost s = some src) (alloc : Bool) (ep : Endpoint) :
    cstring (ep.ipv4 gethost alloc s).ipstr = (cstring src).take 15 ∧
      (ep.ipv4 gethost alloc s).address =
        naosIpv4tou alloc (ep.ipv4 gethost alloc s).ipstr .littleEndian := by
  rw [Endpoint.ipv4, h]
  exact ⟨text_crtStrcpy ep.length_ipstr src, rfl⟩

/-- Nothing but the address zero is stored. -/
def StoresZero (gethost : List UInt8 → Option UInt32) (s : List UInt8) : Prop :=
  s ≠ [] → (DottedQuad s → quadValue s = 0) ∧
    (¬DottedQuad s → ∀ ip, gethost (cstring s) = some ip → ip = 0)

/-- What is kept where the checks agree: a dotted quad, which is zero where nothing else can be
stored. -/
theorem chosenText_dottedQuad {gethost : List UInt8 → Option UInt32} {s src : List UInt8}
    (hagree : isEffectiveIpv4 s = naosIsLegalIpv4 s) (h : chosenText gethost s = some src) :
    DottedQuad src ∧ (StoresZero gethost s ↔ quadValue src = 0) := by
  obtain ⟨hpad, hgap, -⟩ := (agree_iff s).mp hagree
  rw [chosenText] at h
  split at h
  · cases h
  rename_i hne
  have hne' : s ≠ [] := List.length_eq_zero_iff.not.mp hne
  split at h
  · rename_i heff
    obtain rfl := Option.some.inj h
    have hd := (quad_iff.mp ⟨(isEffectiveIpv4_iff s).mp heff, hpad⟩).1
    exact ⟨hd, fun hz => (hz hne').1 hd, fun hz _ => ⟨fun _ => hz, fun hno => absurd hd hno⟩⟩
  · rename_i heff
    rw [hagree, isLegal_iff] at heff
    have hno : ¬DottedQuad s := fun hd => heff (.inl hd)
    rw [parseDomain_eq] at h
    obtain ⟨ip, hip, rfl⟩ := Option.map_eq_some_iff.mp h
    have hzero : (0 : UInt8) ∉ (addressText ip).take 14 := fun hmem =>
      ne_zero_of_mem_addressText (List.mem_of_mem_take hmem) rfl
    obtain ⟨hd, hvalue⟩ := dottedQuad_host (cstring_eq_self.mpr hzero)
    refine ⟨hd, ?_⟩
    rw [hvalue]
    constructor
    · exact fun hz => (hz hne').2 hno ip hip
    · rintro rfl _
      exact ⟨fun hd' => absurd hd' hno, fun _ ip' hip' =>
        (Option.some.inj (hip.symm.trans hip')).symm⟩

/-- What the two checks and the endpoint promise for a text: the checks agree; and where a text is
kept, the address is its number, and is not zero where the text is not. -/
structure Consistent (gethost : List UInt8 → Option UInt32) (alloc : Bool) (ep : Endpoint)
    (s : List UInt8) : Prop where
  checks : isEffectiveIpv4 s = naosIsLegalIpv4 s
  value : chosenText gethost s ≠ none →
    (ep.ipv4 gethost alloc s).address.toNat = quadValue (ep.ipv4 gethost alloc s).ipstr
  zero : chosenText gethost s ≠ none → (ep.ipv4 gethost alloc s).address = 0 →
    ∀ segment ∈ fields (ep.ipv4 gethost alloc s).ipstr, decimalValue segment = 0

/-- **The promise is kept exactly for the strings that are not padded, have no gap, and have no zero
behind a dotted quad**, where there is memory to read an address other than zero. -/
theorem consistent_iff (gethost : List UInt8 → Option UInt32) (alloc : Bool) (ep : Endpoint)
    (s : List UInt8) : Consistent gethost alloc ep s ↔
      (¬Padded s ∧ ¬Gapped s ∧ ¬((0 : UInt8) ∈ s ∧ DottedQuad s)) ∧
        (alloc = true ∨ StoresZero gethost s) := by
  rw [← agree_iff]
  -- what is stored where the checks agree
  have hstored : isEffectiveIpv4 s = naosIsLegalIpv4 s → ∀ src, chosenText gethost s = some src →
      quadValue (ep.ipv4 gethost alloc s).ipstr = quadValue src ∧
        (ep.ipv4 gethost alloc s).address.toNat = if alloc then quadValue src else 0 := by
    intro hagree src hsrc
    obtain ⟨hd, -⟩ := chosenText_dottedQuad hagree hsrc
    obtain ⟨htext, haddress⟩ := ipv4_eq hsrc alloc ep
    rw [List.take_of_length_le hd.length_text_le] at htext
    obtain ⟨hkept, hvalue⟩ := hd.congr htext
    refine ⟨hvalue, ?_⟩
    rw [haddress, ← hvalue]
    cases alloc with
    | true => exact naosIpv4tou_of_dottedQuad hkept
    | false => rw [naosIpv4tou, if_pos ((isLegal_iff _).mpr (.inl hkept))]; rfl
  constructor
  · intro h
    refine ⟨h.checks, ?_⟩
    cases halloc : alloc with
    | true => exact .inl rfl
    | false =>
      refine .inr ?_
      cases hsrc : chosenText gethost s with
      | none =>
        intro hne
        have hne' : s.length ≠ 0 := List.length_eq_zero_iff.not.mpr hne
        rw [chosenText, if_neg hne'] at hsrc
        split at hsrc
        · cases hsrc
        · rename_i heff
          rw [h.checks, isLegal_iff] at heff
          rw [parseDomain_eq, Option.map_eq_none_iff] at hsrc
          exact ⟨fun hd => absurd (.inl hd) heff, fun _ ip hip => by rw [hsrc] at hip; cases hip⟩
      | some src =>
        obtain ⟨hvalue, haddress⟩ := hstored h.checks src hsrc
        have heq := h.value (by rw [hsrc]; exact Option.some_ne_none src)
        rw [haddress, hvalue, halloc] at heq
        exact (chosenText_dottedQuad h.checks hsrc).2.mpr heq.symm
  · rintro ⟨hagree, halloc⟩
    have hvalue : chosenText gethost s ≠ none → (ep.ipv4 gethost alloc s).address.toNat =
        quadValue (ep.ipv4 gethost alloc s).ipstr := by
      intro hne
      obtain ⟨src, hsrc⟩ := Option.ne_none_iff_exists'.mp hne
      obtain ⟨hkept, haddress⟩ := hstored hagree src hsrc
      rw [haddress, hkept]
      rcases halloc with rfl | hz
      · rfl
      · rw [(chosenText_dottedQuad hagree hsrc).2.mp hz, ite_self]
    refine ⟨hagree, hvalue, fun hne hzero => ?_⟩
    rw [← quadValue_eq_zero_iff, ← hvalue hne, hzero]
    rfl

/-- The string `1.2.3.0004` is kept, with the address zero. -/
theorem consistent_not_padded :
    let s : List UInt8 := [0x31, 0x2E, 0x32, 0x2E, 0x33, 0x2E, 0x30, 0x30, 0x30, 0x34]
    let ep := (⟨List.replicate 16 0, rfl, 0, 0⟩ : Endpoint)
    isEffectiveIpv4 s = true ∧ naosIsLegalIpv4 s = false ∧
      cstring (ep.ipv4 (fun _ => none) true s).ipstr = s ∧
      (ep.ipv4 (fun _ => none) true s).address = 0 ∧ quadValue s = 0x01020304 ∧
      ¬Consistent (fun _ => none) true ep s := by
  have heff : isEffectiveIpv4
      [0x31, 0x2E, 0x32, 0x2E, 0x33, 0x2E, 0x30, 0x30, 0x30, 0x34] = true := by decide +kernel
  have hlegal : naosIsLegalIpv4
      [0x31, 0x2E, 0x32, 0x2E, 0x33, 0x2E, 0x30, 0x30, 0x30, 0x34] = false := by decide
  refine ⟨heff, hlegal, by decide +kernel, by decide +kernel, by decide +kernel, fun h => ?_⟩
  have hchecks := h.checks
  rw [heff, hlegal] at hchecks
  cases hchecks

end Naos

end LibNax
