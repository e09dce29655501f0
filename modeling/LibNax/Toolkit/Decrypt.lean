import LibNax.Toolkit.Encrypt

/-!
# What the decryption of the toolkit accepts

The code of an illegal character is kept in an `unsigned char`, where `-1` is 255, and then compared
with `-1`: no character is refused.  Nor does the decryption look where the `~` stand, or at the
bits of the last page that it does not use.  All that is compared is the key.

* `Genuine` — what is asked for: a text that is accepted is the one the encryption gives.
* `WellFormed` — the texts that the encryption could give: `wellFormed_iff`.
* `decryptPages_eq`, `blend_of_unblend` — what the decryption of any text does.
* `genuine_iff` — the texts and keys for which all is well.  For every other text of an even number
  of bytes there is a key with which it is accepted, `exists_carries`.
-/

set_option autoImplicit false

namespace LibNax

namespace Toolkit

/-! ## Texts -/

/-- The byte `decrypt` works with for a character: the one of an illegal character is 255. -/
def code (c : UInt8) : UInt8 :=
  if c = symbol then c else uchar (decodeTable.getD c.toNat 0)

/-- The texts of `encrypt`: pages of letters.  The last one may have `~` at its end; the bits of
the letter before that are not used, and are zero. -/
def WellFormed : List UInt8 → Prop
  | [] => True
  | a :: b :: c :: d :: rest =>
    a ∈ encodeTable ∧ b ∈ encodeTable ∧
      (c ∈ encodeTable ∧ d ∈ encodeTable ∨
        rest = [] ∧ d = symbol ∧
          (c ∈ encodeTable ∧ code c &&& 0x03 = 0 ∨ c = symbol ∧ code b &&& 0x0F = 0)) ∧
      WellFormed rest
  | _ => False

instance : ∀ c : List UInt8, Decidable (WellFormed c)
  | [] => inferInstanceAs (Decidable True)
  | a :: b :: c :: d :: rest =>
    have : Decidable (WellFormed rest) := instDecidableWellFormed rest
    inferInstanceAs (Decidable (a ∈ encodeTable ∧ b ∈ encodeTable ∧
      (c ∈ encodeTable ∧ d ∈ encodeTable ∨
        rest = [] ∧ d = symbol ∧
          (c ∈ encodeTable ∧ code c &&& 0x03 = 0 ∨ c = symbol ∧ code b &&& 0x0F = 0)) ∧
      WellFormed rest))
  | [_] | [_, _] | [_, _, _] => inferInstanceAs (Decidable False)

/-- Letters, and then at most two `~`. -/
def Spelt (c : List UInt8) : Prop :=
  ∃ letters n, c = letters ++ List.replicate n symbol ∧ n ≤ 2 ∧ ∀ x ∈ letters, x ∈ encodeTable

/-- How many bytes a text stands for: three a page, but for the `~` in third and fourth places. -/
def standsFor : List UInt8 → Nat
  | _ :: _ :: c :: d :: rest =>
    1 + (if c = symbol then 0 else 1) + (if d = symbol then 0 else 1) + standsFor rest
  | _ => 0

/-- The bytes that the characters of a text spell, letters or not.  Where there is a `~` in third
place, the byte has what was in the memory. -/
def spelled (garbage : Nat → UInt8) : List UInt8 → List UInt8
  | a :: b :: c :: d :: rest =>
    [code a <<< 2 ||| (code b &&& 0x30) >>> 4,
      (code b &&& 0x0F) <<< 4 ||| (if c = symbol then (0 : UInt8) else (code c &&& 0x3C) >>> 2),
      (if c = symbol then garbage rest.length else code c <<< 6) |||
        (if d = symbol then 0 else code d)] ++ spelled garbage rest
  | _ => []

/-- The bits of the key in two bytes. -/
def keyBits (first second : UInt8) : UInt8 := (first &&& 0x55) ||| (second &&& 0xAA)

/-- The bits of the message in two bytes. -/
def messageBits (first second : UInt8) : UInt8 := (first &&& 0xAA) ||| (second &&& 0x55)

/-- The text spells the key. -/
def Carries (garbage : Nat → UInt8) (c k : List UInt8) : Prop :=
  ∀ i < standsFor c / 2,
    keyBits ((spelled garbage c).getD (2 * i) 0) ((spelled garbage c).getD (2 * i + 1) 0) =
      keyAt k i

instance (garbage : Nat → UInt8) (c k : List UInt8) : Decidable (Carries garbage c k) :=
  inferInstanceAs (Decidable (∀ i < _, _))

/-- What is asked of `decrypt` for a text and a key. -/
def Genuine (garbage : Nat → UInt8) (c k : List UInt8) : Prop :=
  (∀ m, decrypt garbage (some c) (some k) = some m → m ≠ [] →
    encrypt (some m) (some k) true true = some c) ∧
  (¬Spelt c → decrypt garbage (some c) (some k) = none)

/-! ## Characters -/

theorem length_decodeTable : decodeTable.length = 256 := by
  decide +kernel

/-- No character is refused. -/
theorem decodeChar_eq (c : UInt8) : decodeChar c = some (code c) := by
  have hlt : ¬c.toNat ≥ decodeTable.length := by
    rw [length_decodeTable]
    exact Nat.not_le.mpr c.toNat_lt
  rw [decodeChar, if_neg hlt, code]
  by_cases hc : c = symbol
  · rw [if_neg (not_not_intro hc), if_pos hc]
  · rw [if_pos hc, if_neg hc]
    exact if_neg (by omega)

/-- What comes out as `~` was one. -/
theorem code_eq_symbol {c : UInt8} : code c = symbol ↔ c = symbol := by
  have h : ∀ n < 256, (code (UInt8.ofNat n) = symbol ↔ UInt8.ofNat n = symbol) := by decide +kernel
  simpa using h c.toNat c.toNat_lt

theorem encodeTable_getD {n : Nat} (hn : n < 64) : encodeTable.getD n 0 ∈ encodeTable := by
  have hlt : n < encodeTable.length := hn
  rw [List.getD_eq_getElem?_getD, List.getElem?_eq_getElem hlt]
  exact List.getElem_mem hlt

theorem encodeChar_mem {v : UInt8} (h : IsSextet v) : encodeChar v ∈ encodeTable :=
  encodeTable_getD h.lt

theorem code_encodeChar {v : UInt8} (h : IsSextet v) : code (encodeChar v) = v :=
  Option.some_inj.mp ((decodeChar_eq _).symm.trans h.decodeChar)

/-- The letters are the characters of six bits. -/
theorem mem_encodeTable {c : UInt8} (h : c ∈ encodeTable) : ∃ v, IsSextet v ∧ encodeChar v = c := by
  obtain ⟨n, hn, rfl⟩ := List.mem_iff_getElem.mp h
  have hsextet : ∀ n < 64, UInt8.ofNat n &&& 0x3F = UInt8.ofNat n := by decide
  refine ⟨UInt8.ofNat n, hsextet n hn, ?_⟩
  have hmod : n % 2 ^ 8 = n := Nat.mod_eq_of_lt (Nat.lt_trans hn (by decide))
  rw [encodeChar, UInt8.toNat_ofNat', hmod, List.getD_eq_getElem?_getD,
    List.getElem?_eq_getElem hn, Option.getD_some]

/-! ## Texts that are well formed -/

section Unpacked

variable (p q r s : UInt8)

theorem pack_first : (p <<< 2 ||| (q &&& 0x30) >>> 4) >>> 2 = p &&& 0x3F := by
  refine eq_of_bits fun i hi => ?_
  interval_cases i <;> simp

theorem pack_second (b : UInt8) (hb : b >>> 4 = q &&& 0x0F) :
    ((p <<< 2 ||| (q &&& 0x30) >>> 4) &&& 0x03) <<< 4 ||| b >>> 4 = q &&& 0x3F := by
  rw [hb]
  refine eq_of_bits fun i hi => ?_
  interval_cases i <;> simp

theorem shift_second : ((q &&& 0x0F) <<< 4 ||| (r &&& 0x3C) >>> 2) >>> 4 = q &&& 0x0F := by
  refine eq_of_bits fun i hi => ?_
  interval_cases i <;> simp

theorem pack_third (c : UInt8) (hc : c >>> 6 = r &&& 0x03) :
    (((q &&& 0x0F) <<< 4 ||| (r &&& 0x3C) >>> 2) &&& 0x0F) <<< 2 ||| c >>> 6 = r &&& 0x3F := by
  rw [hc]
  refine eq_of_bits fun i hi => ?_
  interval_cases i <;> simp

theorem shift_third : (r <<< 6 ||| (s &&& 0x3F)) >>> 6 = r &&& 0x03 := by
  refine eq_of_bits fun i hi => ?_
  interval_cases i <;> simp

theorem pack_fourth : (r <<< 6 ||| (s &&& 0x3F)) &&& 0x3F = s &&& 0x3F := by
  refine eq_of_bits fun i hi => ?_
  interval_cases i <;> simp

end Unpacked

/-- What `encrypt` writes is well formed. -/
theorem wellFormed_pages : ∀ x : List UInt8, WellFormed (pages x)
  | [] => trivial
  | [a] => by
    refine ⟨encodeChar_mem (isSextet_first a), encodeChar_mem (isSextet_second a 0),
      .inr ⟨rfl, rfl, .inr ⟨rfl, ?_⟩⟩, trivial⟩
    rw [code_encodeChar (isSextet_second a 0)]
    refine eq_of_bits fun i hi => ?_
    interval_cases i <;> simp
  | [a, b] => by
    refine ⟨encodeChar_mem (isSextet_first a), encodeChar_mem (isSextet_second a b),
      .inr ⟨rfl, rfl, .inl ⟨encodeChar_mem (isSextet_third b 0), ?_⟩⟩, trivial⟩
    rw [code_encodeChar (isSextet_third b 0)]
    refine eq_of_bits fun i hi => ?_
    interval_cases i <;> simp
  | a :: b :: c :: rest =>
    ⟨encodeChar_mem (isSextet_first a), encodeChar_mem (isSextet_second a b),
      .inl ⟨encodeChar_mem (isSextet_third b c), encodeChar_mem (isSextet_fourth c)⟩,
      wellFormed_pages rest⟩

/-- And what is well formed, `encrypt` writes for some bytes. -/
theorem WellFormed.exists_pages : ∀ {c : List UInt8}, WellFormed c → ∃ x, pages x = c
  | [], _ => ⟨[], rfl⟩
  | [_], h | [_, _], h | [_, _, _], h => h.elim
  | a :: b :: c :: d :: rest, ⟨ha, hb, hcd, hrest⟩ => by
    obtain ⟨p, hp, rfl⟩ := mem_encodeTable ha
    obtain ⟨q, hq, rfl⟩ := mem_encodeTable hb
    rw [code_encodeChar hq] at hcd
    have hfirst := (pack_first p q).trans hp
    rcases hcd with ⟨hc, hd⟩ | ⟨rfl, rfl, hlast⟩
    · obtain ⟨r, hr, rfl⟩ := mem_encodeTable hc
      obtain ⟨s, hs, rfl⟩ := mem_encodeTable hd
      obtain ⟨x, hx⟩ := hrest.exists_pages
      have hsecond := (pack_second p q _ (shift_second q r)).trans hq
      have hthird := (pack_third q r _ (shift_third r s)).trans hr
      have hfourth := (pack_fourth r s).trans hs
      refine ⟨(p <<< 2 ||| (q &&& 0x30) >>> 4) :: ((q &&& 0x0F) <<< 4 ||| (r &&& 0x3C) >>> 2) ::
        (r <<< 6 ||| (s &&& 0x3F)) :: x, ?_⟩
      rw [pages, hfirst, hsecond, hthird, hfourth, hx]
      rfl
    · rcases hlast with ⟨hc, hzero⟩ | ⟨rfl, hzero⟩
      · obtain ⟨r, hr, rfl⟩ := mem_encodeTable hc
        rw [code_encodeChar hr] at hzero
        have hsecond := (pack_second p q _ (shift_second q r)).trans hq
        have hthird := (pack_third q r 0 hzero.symm).trans hr
        refine ⟨[p <<< 2 ||| (q &&& 0x30) >>> 4, (q &&& 0x0F) <<< 4 ||| (r &&& 0x3C) >>> 2], ?_⟩
        rw [pages, hfirst, hsecond, hthird]
      · have hsecond := (pack_second p q 0 hzero.symm).trans hq
        refine ⟨[p <<< 2 ||| (q &&& 0x30) >>> 4], ?_⟩
        rw [pages, hfirst, hsecond]

/-- **The texts of the encryption** are the ones that are well formed. -/
theorem wellFormed_iff {c : List UInt8} : WellFormed c ↔ ∃ x, pages x = c := by
  constructor
  · exact WellFormed.exists_pages
  · rintro ⟨x, rfl⟩
    exact wellFormed_pages x

/-- A page more of letters. -/
theorem Spelt.page {a b c d : UInt8} {rest : List UInt8} (ha : a ∈ encodeTable)
    (hb : b ∈ encodeTable) (hc : c ∈ encodeTable) (hd : d ∈ encodeTable) (h : Spelt rest) :
    Spelt (a :: b :: c :: d :: rest) := by
  obtain ⟨letters, n, rfl, hn, hletters⟩ := h
  refine ⟨a :: b :: c :: d :: letters, n, rfl, hn, ?_⟩
  simp only [List.forall_mem_cons]
  exact ⟨ha, hb, hc, hd, hletters⟩

/-- A text that is well formed has `~` at its end only. -/
theorem WellFormed.spelt : ∀ {c : List UInt8}, WellFormed c → Spelt c
  | [], _ => ⟨[], 0, rfl, by omega, fun _ h => absurd h List.not_mem_nil⟩
  | [_], h | [_, _], h | [_, _, _], h => h.elim
  | a :: b :: c :: d :: rest, ⟨ha, hb, hcd, hrest⟩ => by
    rcases hcd with ⟨hc, hd⟩ | ⟨rfl, rfl, ⟨hc, -⟩ | ⟨rfl, -⟩⟩
    · exact .page ha hb hc hd hrest.spelt
    · refine ⟨[a, b, c], 1, rfl, by omega, ?_⟩
      simp only [List.forall_mem_cons]
      exact ⟨ha, hb, hc, fun _ h => absurd h List.not_mem_nil⟩
    · refine ⟨[a, b], 2, rfl, by omega, ?_⟩
      simp only [List.forall_mem_cons]
      exact ⟨ha, hb, fun _ h => absurd h List.not_mem_nil⟩

/-! ## What the decryption does -/

theorem length_spelled (garbage : Nat → UInt8) : ∀ c : List UInt8,
    (spelled garbage c).length = 3 * (c.length / 4)
  | [] | [_] | [_, _] | [_, _, _] => by simp [spelled]
  | a :: b :: c :: d :: rest => by
    simp only [spelled, List.length_append, List.length_cons, List.length_nil,
      length_spelled garbage rest]
    omega

/-- A page stands for one byte at least and three at most. -/
theorem standsFor_bounds : ∀ c : List UInt8,
    c.length / 4 ≤ standsFor c ∧ standsFor c ≤ 3 * (c.length / 4)
  | [] | [_] | [_, _] | [_, _, _] => by simp [standsFor]
  | a :: b :: c :: d :: rest => by
    have ih := standsFor_bounds rest
    simp only [standsFor, List.length_cons]
    split <;> split <;> omega

/-- **Unpacking** any text. -/
theorem decryptPages_eq (garbage : Nat → UInt8) : ∀ c : List UInt8,
    decryptPages garbage c = some (spelled garbage c, (standsFor c : Int))
  | [] | [_] | [_, _] | [_, _, _] => rfl
  | a :: b :: c :: d :: rest => by
    simp only [decryptPages, decodeChar_eq, decryptPages_eq garbage rest, Option.bind_eq_bind,
      Option.bind_some, decryptPage, ne_eq, code_eq_symbol, spelled, standsFor, Option.some.injEq,
      Prod.mk.injEq]
    by_cases hc : c = symbol <;> by_cases hd : d = symbol <;> simp [hc, hd]

section Unblend

variable (first second : UInt8)

theorem reblend_first :
    (messageBits first second &&& 0xAA) ||| (keyBits first second &&& 0x55) = first := by
  rw [messageBits, keyBits]
  refine eq_of_bits fun i hi => ?_
  interval_cases i <;> simp

theorem reblend_second :
    (messageBits first second &&& 0x55) ||| (keyBits first second &&& 0xAA) = second := by
  rw [messageBits, keyBits]
  refine eq_of_bits fun i hi => ?_
  interval_cases i <;> simp

end Unblend

theorem unblend_succ (key : List UInt8) (n : Nat) (des : List UInt8) (i : Nat) :
    unblend key (n + 1) des i =
      if keyBits (des.getD 0 0) (des.getD 1 0) = keyAt key i then
        (unblend key n (des.drop 2) (i + 1)).map (messageBits (des.getD 0 0) (des.getD 1 0) :: ·)
      else none := by
  rw [unblend, ite_not]
  rfl

/-- The test of the key. -/
theorem isSome_unblend (key : List UInt8) : ∀ (n : Nat) (des : List UInt8) (i : Nat),
    (unblend key n des i).isSome ↔
      ∀ j < n, keyBits (des.getD (2 * j) 0) (des.getD (2 * j + 1) 0) = keyAt key (i + j)
  | 0, _, _ => by
    rw [unblend]
    exact ⟨fun _ j hj => absurd hj (Nat.not_lt_zero j), fun _ => rfl⟩
  | n + 1, des, i => by
    have ih := isSome_unblend key n (des.drop 2) (i + 1)
    have hdrop : ∀ j, (des.drop 2).getD j 0 = des.getD (j + 2) 0 := by
      intro j
      rw [List.getD_eq_getElem?_getD, List.getD_eq_getElem?_getD, List.getElem?_drop, Nat.add_comm]
    have hindex : ∀ j, i + 1 + j = i + (j + 1) := fun j => by omega
    simp only [hdrop, hindex] at ih
    rw [Nat.forall_lt_succ_left, unblend_succ]
    by_cases hkey : keyBits (des.getD 0 0) (des.getD 1 0) = keyAt key i
    · rw [if_pos hkey, Option.isSome_map, ih]
      exact ⟨fun h => ⟨hkey, h⟩, fun h => h.2⟩
    · rw [if_neg hkey]
      exact ⟨fun h => (by cases h), fun h => absurd h.1 hkey⟩

/-- What comes out gives the bytes again. -/
theorem blend_of_unblend {key : List UInt8} : ∀ {n : Nat} {des : List UInt8} {i : Nat}
    {m : List UInt8}, 2 * n ≤ des.length → unblend key n des i = some m →
      m.length = n ∧ blend key m i = des.take (2 * n)
  | 0, _, _, _, _, h => by
    cases h
    exact ⟨rfl, rfl⟩
  | n + 1, [], _, _, hlen, _ | n + 1, [_], _, _, hlen, _ => by
    simp only [List.length_cons, List.length_nil] at hlen
    omega
  | n + 1, first :: second :: des, i, m, hlen, h => by
    rw [unblend_succ] at h
    simp only [List.getD_cons_zero, List.getD_cons_succ, List.drop_succ_cons, List.drop_zero] at h
    simp only [List.length_cons] at hlen
    split at h
    · obtain ⟨m', hm', rfl⟩ := Option.map_eq_some_iff.mp h
      obtain ⟨hlen', ih⟩ := blend_of_unblend (by omega) hm'
      refine ⟨congrArg (· + 1) hlen', ?_⟩
      have hkey : keyBits first second = keyAt key i := ‹_›
      rw [blend, ih, ← hkey, blendByte, reblend_first, reblend_second]
      rfl
    · cases h

/-! ## The texts that are accepted -/

section Accepts

variable {garbage : Nat → UInt8} {c k : List UInt8}

/-- What `decrypt` does with a text and a key. -/
theorem decrypt_eq (hpos : c ≠ []) (hdvd : c.length % 4 = 0) (hk : 8 ≤ k.length) :
    decrypt garbage (some c) (some k) =
      if standsFor c % 2 = 0 then unblend k (standsFor c / 2) (spelled garbage c) 0 else none := by
  have hlen : c.length ≠ 0 := fun h => hpos (List.length_eq_zero_iff.mp h)
  have hmod : (standsFor c : Int).tmod 2 = (standsFor c % 2 : Nat) := by
    rw [Int.tmod_eq_emod_of_nonneg (by omega)]
    rfl
  have hdiv : ((standsFor c : Int).tdiv 2).toNat = standsFor c / 2 := by
    rw [Int.tdiv_eq_ediv_of_nonneg (by omega)]
    omega
  have hlegal : ¬(c.length = 0 ∨ c.length % 4 ≠ 0 ∨ k.length < 8) := by omega
  rw [decrypt]
  simp only [hlegal, if_false, decryptPages_eq, Option.bind_some, hmod, hdiv]
  split
  · rw [if_neg (by omega)]
  · rw [if_pos (by omega)]

/-- **A text is accepted** when it stands for an even number of bytes, and spells the key. -/
theorem isSome_decrypt (hpos : c ≠ []) (hdvd : c.length % 4 = 0) (hk : 8 ≤ k.length) :
    (decrypt garbage (some c) (some k)).isSome ↔ standsFor c % 2 = 0 ∧ Carries garbage c k := by
  rw [decrypt_eq hpos hdvd hk]
  split
  · simp only [isSome_unblend, Nat.zero_add, Carries, ‹standsFor c % 2 = 0›, true_and]
  · exact ⟨fun h => (by cases h), fun h => absurd h.1 ‹_›⟩

/-- For every text there is a key that it spells. -/
theorem exists_carries (garbage : Nat → UInt8) (c : List UInt8) :
    ∃ k : List UInt8, 8 ≤ k.length ∧ Carries garbage c k := by
  let bits i :=
    keyBits ((spelled garbage c).getD (2 * i) 0) ((spelled garbage c).getD (2 * i + 1) 0)
  have hlen : ((List.range (standsFor c / 2 + 8)).map bits).length = standsFor c / 2 + 8 := by
    rw [List.length_map, List.length_range]
  refine ⟨(List.range (standsFor c / 2 + 8)).map bits, by omega, fun i hi => ?_⟩
  have hlt : i < standsFor c / 2 + 8 := by omega
  have hbits : ((List.range (standsFor c / 2 + 8)).map bits).getD i 0 = bits i := by
    rw [List.getD_eq_getElem?_getD, List.getElem?_map, List.getElem?_range hlt]
    rfl
  rw [keyAt, hlen, Nat.mod_eq_of_lt hlt, hbits]

/-- What is accepted has a message, for which there was room. -/
theorem decrypt_bounds {m : List UInt8} (hpos : c ≠ []) (hdvd : c.length % 4 = 0)
    (hk : 8 ≤ k.length) (h : decrypt garbage (some c) (some k) = some m) :
    m ≠ [] ∧ 2 * m.length ≤ 3 * (c.length / 4) := by
  have hlen : 0 < c.length := List.length_pos_iff.mpr hpos
  obtain ⟨hleast, hmost⟩ := standsFor_bounds c
  rw [decrypt_eq hpos hdvd hk] at h
  split at h
  · obtain ⟨hm, -⟩ := blend_of_unblend (by rw [length_spelled]; omega) h
    exact ⟨List.ne_nil_of_length_pos (by omega), by omega⟩
  · cases h

/-- The encryption writes texts that are well formed. -/
theorem wellFormed_of_encrypt {m : List UInt8} (hm : m ≠ []) (hlen : 2 * m.length + 2 < 2 ^ 31)
    (hk : 8 ≤ k.length) (h : encrypt (some m) (some k) true true = some c) : WellFormed c := by
  rw [encrypt_eq hm hlen hk] at h
  split at h
  · cases h
    exact wellFormed_pages _
  · cases h

/-- And a text that is well formed, and accepted, is the one it writes for the message. -/
theorem WellFormed.encrypt_of_decrypt {m : List UInt8} (hc : WellFormed c) (hpos : c ≠ [])
    (hlen : c.length < 2 ^ 31) (hk : 8 ≤ k.length)
    (h : decrypt garbage (some c) (some k) = some m) :
    encrypt (some m) (some k) true true = some c := by
  obtain ⟨x, rfl⟩ := hc.exists_pages
  have hdvd : (pages x).length % 4 = 0 := by
    rw [length_pages]
    omega
  obtain ⟨hm, -⟩ := decrypt_bounds hpos hdvd hk h
  obtain ⟨tail, htail⟩ := decryptPages_pages garbage x
  have heq := htail.symm.trans (decryptPages_eq garbage (pages x))
  rw [Option.some.injEq, Prod.mk.injEq, Int.natCast_inj] at heq
  rw [decrypt_eq hpos hdvd hk, ← heq.1, ← heq.2] at h
  split at h
  · obtain ⟨hlength, hblend⟩ := blend_of_unblend (by rw [List.length_append]; omega) h
    have hx : 2 * (x.length / 2) = x.length := by omega
    rw [hx, List.take_left] at hblend
    rw [length_pages] at hlen
    rw [encrypt_eq hm (by omega) hk, if_pos (by omega), hblend]
  · cases h

/-- **What the decryption accepts is genuine** for the texts that are well formed, and wherever it
accepts nothing.  For every other text that stands for an even number of bytes there is a key with
which it is accepted. -/
theorem genuine_iff (hpos : c ≠ []) (hdvd : c.length % 4 = 0) (hlen : c.length < 2 ^ 31) :
    (∀ garbage k, 8 ≤ k.length →
      (Genuine garbage c k ↔ WellFormed c ∨ standsFor c % 2 = 1 ∨ ¬Carries garbage c k)) ∧
    ((∀ garbage k, 8 ≤ k.length → Genuine garbage c k) ↔ WellFormed c ∨ standsFor c % 2 = 1) := by
  have hiff : ∀ garbage k, 8 ≤ k.length → (Genuine garbage c k ↔
      WellFormed c ∨ standsFor c % 2 = 1 ∨ ¬Carries garbage c k) := by
    intro garbage k hk
    have haccepts : (decrypt garbage (some c) (some k)).isSome ↔ _ := isSome_decrypt hpos hdvd hk
    constructor
    · intro hgenuine
      by_cases hsome : (decrypt garbage (some c) (some k)).isSome
      · obtain ⟨m, hm⟩ := Option.isSome_iff_exists.mp hsome
        obtain ⟨hne, hshort⟩ := decrypt_bounds hpos hdvd hk hm
        exact .inl (wellFormed_of_encrypt hne (by omega) hk (hgenuine.1 m hm hne))
      · rw [haccepts, not_and_or, Nat.mod_two_not_eq_zero] at hsome
        exact .inr hsome
    · rintro (hform | hrefused)
      · exact ⟨fun m hm _ => hform.encrypt_of_decrypt hpos hlen hk hm,
          fun h => absurd hform.spelt h⟩
      · have hnone : decrypt garbage (some c) (some k) = none := by
          rw [← Nat.mod_two_not_eq_zero, ← not_and_or, ← haccepts] at hrefused
          exact Option.not_isSome_iff_eq_none.mp hrefused
        exact ⟨fun m hm => absurd (hnone.symm.trans hm) (by simp), fun _ => hnone⟩
  refine ⟨hiff, fun h => ?_, fun h garbage k hk => (hiff garbage k hk).mpr ?_⟩
  · obtain ⟨k, hk, hcarries⟩ := exists_carries (fun _ => 0) c
    rcases (hiff _ k hk).mp (h _ k hk) with hform | hodd | hnot
    · exact .inl hform
    · exact .inr hodd
    · exact absurd hcarries hnot
  · exact h.imp_right .inl

/-- The text of one byte. -/
theorem genuine_iff_letter : Genuine (fun _ => 0) (pages (blend [1, 2, 3, 4, 5, 6, 7, 8] [0x41] 0))
    [1, 2, 3, 4, 5, 6, 7, 8] :=
  ((genuine_iff (by decide +kernel) (by decide +kernel) (by decide +kernel)).1 _ _
    (by decide)).mpr (.inl (by decide +kernel))

/-- Eight `!` are taken for the text of three bytes; that text is another one. -/
theorem genuine_not :
    ¬∃ garbage, Genuine garbage (List.replicate 8 0x21) (List.replicate 8 0xFF) := by
  rintro ⟨garbage, hgenuine, -⟩
  have hcode : code 0x21 = 0xFF := by decide +kernel
  have hletter : (0x21 : UInt8) ≠ symbol := by decide
  have hspelled : spelled garbage (List.replicate 8 0x21) = List.replicate 6 0xFF := by
    simp only [List.replicate, spelled, hcode, hletter, if_false]
    rfl
  have hdecrypt : decrypt garbage (some (List.replicate 8 0x21)) (some (List.replicate 8 0xFF)) =
      some [0xFF, 0xFF, 0xFF] := by
    rw [decrypt_eq (by decide) (by decide) (by decide), hspelled]
    decide +kernel
  exact absurd (hgenuine _ hdecrypt (by decide)) (by decide +kernel)

end Accepts

end Toolkit

end LibNax
