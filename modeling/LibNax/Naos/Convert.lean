import LibNax.Lib.Bytes
import LibNax.Lib.Endian
import LibNax.Naos.Ipv4

/-!
# IPv4 addresses as numbers

* `naosChord32` — the bytes of a word in the opposite order; `toNat_naosChord32`.
* `naosIpv4tos` — the text of an address, into a buffer of 16 bytes.  The text is printed with room
  for 15 bytes, one of which is the zero at its end.
* `naosIpv4tou` — the address of a text, in either byte order.
* `roundTrips_iff` — there and back.
-/

set_option autoImplicit false

namespace LibNax

namespace Naos

open Lib (decimal decimalValue isDigit leBytes byteSwap byteSwap_lt overwrite)

/-! ## The functions of the source -/

/-- The loop of `naos_chord32`, from `i` on, for the rounds left. -/
def chordRounds (value : UInt32) : Nat → Nat → UInt32 → UInt32
  | 0, _, dst => dst
  | rounds + 1, i, dst =>
    chordRounds value rounds (i + 1)
      ((dst ||| ((value >>> UInt32.ofNat (i * 8)) &&& 0xFF)) <<< if i < 4 - 1 then 8 else 0)

/-- `naos_chord32`. -/
def naosChord32 (value : UInt32) : UInt32 := chordRounds value 4 0 0

/-- The loop of `naos_ipv4tos` that fills `inetby`, for the rounds left. -/
def inetBytes : Nat → UInt32 → List UInt8
  | 0, _ => []
  | rounds + 1, inet => (inet &&& 0xFF).toUInt8 :: inetBytes rounds (inet >>> 8)

/-- `snprintf` of a text into a buffer: as much of it as there is room for, and a zero. -/
def snprintf (buffer : List UInt8) (size : Nat) (text : List UInt8) : List UInt8 :=
  if size = 0 then buffer else overwrite buffer 0 (text.take (size - 1) ++ [0])

/-- `abuff_sprintf`. -/
def abuffSprintf (buffer text : List UInt8) : List UInt8 := snprintf buffer (buffer.length - 1) text

theorem length_abuffSprintf (buffer text : List UInt8) :
    (abuffSprintf buffer text).length = buffer.length := by
  rw [abuffSprintf, snprintf]
  split
  · rfl
  · refine Lib.length_overwrite ?_
    rw [List.length_append, List.length_take, List.length_singleton]
    omega

/-- `abuff_naos_inet_t`. -/
structure AbuffNaosInet where
  st : List UInt8
  length_st : st.length = 16

/-- What the format `"%hhu.%hhu.%hhu.%hhu"` prints. -/
def printQuad (a b c d : UInt8) : List UInt8 :=
  decimal a.toNat ++ dot :: (decimal b.toNat ++ dot :: (decimal c.toNat ++ dot :: decimal d.toNat))

/-- `naos_ipv4tos`. -/
def naosIpv4tos (inet : UInt32) (inetstr : Option AbuffNaosInet) : Int × Option AbuffNaosInet :=
  match inetstr with
  | none => (eInval, none)
  | some buffer =>
    let inetby := inetBytes 4 inet
    let text := printQuad (inetby.getD 3 0) (inetby.getD 2 0) (inetby.getD 1 0) (inetby.getD 0 0)
    (0, some ⟨abuffSprintf buffer.st text, (length_abuffSprintf _ _).trans buffer.length_st⟩)

/-- `enum byte_order_t`. -/
inductive ByteOrder where
  | littleEndian
  | bigEndian
  deriving DecidableEq

/-- `BIT_MOV_FOR_LITTLE_ENDIAN` and `BIT_MOV_FOR_BIG_ENDIAN`. -/
def ByteOrder.bitMov : ByteOrder → List Nat
  | .littleEndian => [24, 16, 8, 0]
  | .bigEndian => [0, 8, 16, 24]

/-- `strtok_r` with a dot as the only delimiter: the token, and what is behind its delimiter. -/
def strtok (s : List UInt8) : Option (List UInt8 × List UInt8) :=
  let s := s.dropWhile (· = dot)
  if s = [] then none else some (s.takeWhile (· ≠ dot), (s.dropWhile (· ≠ dot)).tail)

/-- The loop of `naos_ipv4tou`, from `i` on, for the rounds left. -/
def tokenRounds (method : ByteOrder) : Nat → Nat → List UInt8 → Nat → Nat
  | 0, _, _, digital => digital
  | rounds + 1, i, s, digital =>
    match strtok s with
    | none => digital
    | some (p, nextToken) =>
      tokenRounds method rounds (i + 1) nextToken
        (digital ||| decimalValue p <<< method.bitMov.getD i 0)

/-- `naos_ipv4tou`; `alloc` tells whether there is memory for the copy that is taken apart. -/
def naosIpv4tou (alloc : Bool) (inetstr : List UInt8) (method : ByteOrder) : UInt32 :=
  if naosIsLegalIpv4 inetstr then
    if alloc then UInt32.ofNat (tokenRounds method 4 0 (cstring inetstr) 0) else 0
  else 0

/-! ## The bytes of a word -/

/-- A round puts the next byte at the low end. -/
theorem toNat_chordRound {value dst : UInt32} {i : Nat} (hi : i < 4)
    (hdst : dst.toNat = 2 ^ 8 * byteSwap i value.toNat) :
    (dst ||| ((value >>> UInt32.ofNat (i * 8)) &&& 0xFF)).toNat = byteSwap (i + 1) value.toNat := by
  have hshift : (UInt32.ofNat (i * 8)).toNat % 32 = i * 8 := by
    rw [UInt32.toNat_ofNat', Nat.mod_eq_of_lt (by omega), Nat.mod_eq_of_lt (by omega)]
  have hbyte : ((value >>> UInt32.ofNat (i * 8)) &&& 0xFF).toNat =
      value.toNat / 2 ^ (8 * i) % 2 ^ 8 := by
    rw [UInt32.toNat_and, UInt32.toNat_shiftRight, hshift, Nat.shiftRight_eq_div_pow,
      Nat.mul_comm i 8]
    exact Nat.and_two_pow_sub_one_eq_mod _ 8
  have hlt : value.toNat / 2 ^ (8 * i) % 2 ^ 8 < 2 ^ 8 := Nat.mod_lt _ (by decide)
  rw [UInt32.toNat_or, hbyte, hdst, Lib.byteSwap_succ, Nat.mul_comm (2 ^ 8), ← Nat.shiftLeft_eq,
    Nat.shiftLeft_add_eq_or_of_lt hlt]

theorem toNat_chordRounds (value : UInt32) (rounds : Nat) : ∀ {i : Nat} {dst : UInt32},
    i + (rounds + 1) = 4 → dst.toNat = 2 ^ 8 * byteSwap i value.toNat →
      (chordRounds value (rounds + 1) i dst).toNat = byteSwap 4 value.toNat := by
  induction rounds with
  | zero =>
    intro i dst hi hdst
    obtain rfl : i = 3 := by omega
    rw [chordRounds, chordRounds, if_neg (by decide)]
    rw [UInt32.toNat_shiftLeft, toNat_chordRound (by decide : 3 < 4) hdst]
    exact Nat.mod_eq_of_lt (byteSwap_lt 4 _)
  | succ rounds ih =>
    intro i dst hi hdst
    rw [chordRounds, if_pos (by omega)]
    refine ih (by omega) ?_
    have hlt : byteSwap (i + 1) value.toNat < 2 ^ 24 :=
      (byteSwap_lt (i + 1) _).trans_le (Nat.pow_le_pow_right (by decide) (by omega))
    have height : (8 : UInt32).toNat % 32 = 8 := rfl
    rw [UInt32.toNat_shiftLeft, toNat_chordRound (by omega) hdst, height, Nat.shiftLeft_eq,
      Nat.mod_eq_of_lt (by omega), Nat.mul_comm]

/-- **The bytes in the opposite order.** -/
theorem toNat_naosChord32 (value : UInt32) : (naosChord32 value).toNat = byteSwap 4 value.toNat :=
  toNat_chordRounds value 3 rfl rfl

theorem inetBytes_eq (n : Nat) (inet : UInt32) : inetBytes n inet = leBytes n inet.toNat := by
  induction n generalizing inet with
  | zero => rfl
  | succ n ih =>
    have hlow : (inet &&& 0xFF).toUInt8 = UInt8.ofNat inet.toNat := by
      apply UInt8.toNat_inj.mp
      rw [UInt32.toNat_toUInt8, UInt32.toNat_and, UInt8.toNat_ofNat']
      exact (congrArg (· % 2 ^ 8) (Nat.and_two_pow_sub_one_eq_mod _ 8)).trans (Nat.mod_mod _ _)
    have hrest : (inet >>> 8).toNat = inet.toNat / 2 ^ 8 := by
      rw [UInt32.toNat_shiftRight]
      exact Nat.shiftRight_eq_div_pow _ 8
    rw [inetBytes, ih, hlow, hrest, leBytes]

/-! ## The text of an address -/

/-- A byte of an address. -/
def octet (x : UInt32) (i : Nat) : Nat := x.toNat / 2 ^ (8 * i) % 2 ^ 8

theorem octet_lt (x : UInt32) (i : Nat) : octet x i < 256 := Nat.mod_lt _ (by decide)

/-- The dotted quad of an address, the highest byte first. -/
def addressText (x : UInt32) : List UInt8 :=
  decimal (octet x 3) ++ dot :: (decimal (octet x 2) ++ dot ::
    (decimal (octet x 1) ++ dot :: decimal (octet x 0)))

theorem printQuad_inetBytes (x : UInt32) :
    printQuad ((inetBytes 4 x).getD 3 0) ((inetBytes 4 x).getD 2 0) ((inetBytes 4 x).getD 1 0)
      ((inetBytes 4 x).getD 0 0) = addressText x := by
  have hoctet : ∀ n : Nat, (UInt8.ofNat n).toNat = n % 2 ^ 8 := fun n => UInt8.toNat_ofNat'
  rw [inetBytes_eq, printQuad, addressText]
  simp only [leBytes, List.getD_cons_zero, List.getD_cons_succ, hoctet, octet,
    Nat.div_div_eq_div_mul,
    ← Nat.pow_add, Nat.mul_zero, Nat.pow_zero, Nat.div_one, Nat.reduceAdd, Nat.reduceMul]

theorem not_mem_decimal {n : Nat} {c : UInt8} (hc : isDigit c = false) : c ∉ decimal n :=
    fun hmem => by
  rw [Lib.isDigit_of_mem_decimal hmem] at hc
  cases hc

theorem dot_notMem_decimal (n : Nat) : dot ∉ decimal n := not_mem_decimal rfl

theorem segment_decimal {n : Nat} (hn : n < 256) : Segment (decimal n) := by
  refine ⟨(Lib.length_decimal_le_iff (by decide)).mpr (by omega),
    fun c hc => Lib.isDigit_of_mem_decimal hc, ?_⟩
  rw [Lib.decimalValue_decimal]
  exact Nat.le_of_lt_succ hn

theorem fields_addressText (x : UInt32) :
    (addressText x).splitOn dot =
      [decimal (octet x 3), decimal (octet x 2), decimal (octet x 1), decimal (octet x 0)] := by
  rw [addressText, List.splitOn_append_cons_self_of_not_mem (dot_notMem_decimal _),
    List.splitOn_append_cons_self_of_not_mem (dot_notMem_decimal _),
    List.splitOn_append_cons_self_of_not_mem (dot_notMem_decimal _),
    List.splitOn_eq_singleton (dot_notMem_decimal _)]

/-- The text of an address is accepted. -/
theorem isLegal_addressText {inetstr : List UInt8} {x : UInt32}
    (htext : cstring inetstr = addressText x) : naosIsLegalIpv4 inetstr = true := by
  have hfields : fields inetstr = _ := (congrArg (List.splitOn dot) htext).trans
    (fields_addressText x)
  rw [naosIsLegalIpv4_iff, hfields]
  refine ⟨rfl, ?_, Lib.decimal_ne_nil _⟩
  simp only [List.forall_mem_cons]
  exact ⟨segment_decimal (octet_lt x 3), segment_decimal (octet_lt x 2),
    segment_decimal (octet_lt x 1), segment_decimal (octet_lt x 0), fun _ h => by cases h⟩

/-! ## Reading the text -/

/-- A token ends at a dot, or with the string. -/
theorem strtok_append {p rest : List UInt8} (hne : p ≠ []) (hdot : dot ∉ p)
    (hrest : ∀ c ∈ rest.head?, c = dot) : strtok (p ++ rest) = some (p, rest.tail) := by
  obtain ⟨c, q, rfl⟩ := List.exists_cons_of_ne_nil hne
  have hc : c ≠ dot := fun h => hdot (h ▸ List.mem_cons_self)
  have hall : ∀ d ∈ c :: q, decide (d ≠ dot) = true := fun d hd =>
    decide_eq_true fun h => hdot (h ▸ hd)
  have hskip : (c :: q ++ rest).dropWhile (· = dot) = c :: q ++ rest := by
    rw [List.cons_append, List.dropWhile_cons_of_neg (by simpa using hc)]
  have hends : rest.takeWhile (· ≠ dot) = [] ∧ rest.dropWhile (· ≠ dot) = rest := by
    cases rest with
    | nil => exact ⟨rfl, rfl⟩
    | cons d rest =>
      have hd : ¬decide (d ≠ dot) = true := by simpa using hrest d rfl
      exact ⟨List.takeWhile_cons_of_neg hd, List.dropWhile_cons_of_neg hd⟩
  rw [strtok, hskip]
  simp only [List.cons_append, List.cons_ne_nil, if_false]
  rw [← List.cons_append, List.takeWhile_append_of_pos hall, List.dropWhile_append_of_pos hall,
    hends.1, hends.2, List.append_nil]

theorem strtok_dot {p rest : List UInt8} (hne : p ≠ []) (hdot : dot ∉ p) :
    strtok (p ++ dot :: rest) = some (p, rest) :=
  strtok_append hne hdot fun _ hc => (Option.some.inj hc).symm

theorem strtok_last {p : List UInt8} (hne : p ≠ []) (hdot : dot ∉ p) :
    strtok p = some (p, []) := by
  have hlast : strtok (p ++ []) = some (p, []) :=
    strtok_append hne hdot fun _ hc => by cases hc
  rwa [List.append_nil] at hlast

/-- The bytes of an address, put where the byte order says. -/
theorem tokenRounds_addressText (x : UInt32) (method : ByteOrder) :
    tokenRounds method 4 0 (addressText x) 0 =
      octet x 3 <<< method.bitMov.getD 0 0 ||| octet x 2 <<< method.bitMov.getD 1 0 |||
        octet x 1 <<< method.bitMov.getD 2 0 ||| octet x 0 <<< method.bitMov.getD 3 0 := by
  have hne : ∀ i, decimal (octet x i) ≠ [] := fun i => Lib.decimal_ne_nil _
  have hdot : ∀ i, dot ∉ decimal (octet x i) := fun i => dot_notMem_decimal _
  rw [addressText]
  simp only [tokenRounds, strtok_dot (hne 3) (hdot 3), strtok_dot (hne 2) (hdot 2),
    strtok_dot (hne 1) (hdot 1), strtok_last (hne 0) (hdot 0), Lib.decimalValue_decimal,
    Nat.zero_or, Nat.reduceAdd]

/-- **The text of an address is read back**, in both byte orders. -/
theorem naosIpv4tou_addressText {inetstr : List UInt8} {x : UInt32}
    (htext : cstring inetstr = addressText x) :
    naosIpv4tou true inetstr .littleEndian = x ∧
      naosIpv4tou true inetstr .bigEndian = naosChord32 x := by
  have hx := x.toNat_lt
  have h0 := octet_lt x 0
  have h1 := octet_lt x 1
  have h2 := octet_lt x 2
  have h3 := octet_lt x 3
  have hlittle : tokenRounds .littleEndian 4 0 (addressText x) 0 = x.toNat := by
    rw [tokenRounds_addressText]
    simp only [ByteOrder.bitMov, List.getD_cons_zero, List.getD_cons_succ, Nat.shiftLeft_eq]
    have htwo : octet x 3 * 2 ^ 24 ||| octet x 2 * 2 ^ 16 =
        octet x 3 * 2 ^ 24 + octet x 2 * 2 ^ 16 :=
      Lib.or_of_mod_eq_zero (k := 24) (by omega) (by omega)
    have hthree : octet x 3 * 2 ^ 24 + octet x 2 * 2 ^ 16 ||| octet x 1 * 2 ^ 8 =
        octet x 3 * 2 ^ 24 + octet x 2 * 2 ^ 16 + octet x 1 * 2 ^ 8 :=
      Lib.or_of_mod_eq_zero (k := 16) (by omega) (by omega)
    rw [htwo, hthree, Lib.or_of_mod_eq_zero (k := 8) (by omega) (by omega)]
    simp only [octet]
    omega
  have hbig : tokenRounds .bigEndian 4 0 (addressText x) 0 = byteSwap 4 x.toNat := by
    rw [tokenRounds_addressText]
    simp only [ByteOrder.bitMov, List.getD_cons_zero, List.getD_cons_succ, Nat.shiftLeft_zero]
    rw [Lib.or_shiftLeft _ _ (k := 8) h3, Lib.or_shiftLeft _ _ (k := 16) (by omega),
      Lib.or_shiftLeft _ _ (k := 24) (by omega)]
    have hzero : byteSwap 0 x.toNat = 0 := rfl
    rw [Lib.byteSwap_succ, Lib.byteSwap_succ, Lib.byteSwap_succ, Lib.byteSwap_succ, hzero]
    simp only [octet]
    omega
  rw [naosIpv4tou, if_pos (isLegal_addressText htext), if_pos rfl, htext, hlittle, naosIpv4tou,
    if_pos (isLegal_addressText htext), if_pos rfl, htext, hbig, UInt32.ofNat_toNat,
    ← toNat_naosChord32, UInt32.ofNat_toNat]
  exact ⟨rfl, rfl⟩

/-! ## There and back -/

/-- A text of at most 14 characters fits, and of a longer one 14 characters do. -/
theorem text_abuffSprintf (buffer : AbuffNaosInet) {s : List UInt8} (hs : ∀ c ∈ s, c ≠ 0) :
    cstring (abuffSprintf buffer.st s) = s.take 14 := by
  have hall : 0 ∉ s.take 14 := fun hc => hs 0 (List.mem_of_mem_take hc) rfl
  rw [abuffSprintf, buffer.length_st, snprintf, if_neg (by decide), overwrite, List.take_zero,
    List.nil_append, List.append_assoc, List.singleton_append, cstring_append_end]
  exact cstring_eq_self.mpr hall

theorem ne_zero_of_mem_addressText {x : UInt32} {c : UInt8} (hc : c ∈ addressText x) : c ≠ 0 := by
  rintro rfl
  have hzero : ∀ n, (0 : UInt8) ∉ decimal n := fun n => not_mem_decimal rfl
  have hdot : (0 : UInt8) ≠ dot := by decide
  simp [addressText, hzero, hdot] at hc

/-- The text has 15 characters when every byte has three digits, and fewer otherwise. -/
theorem length_addressText_le_iff (x : UInt32) :
    (addressText x).length ≤ 14 ↔ ∃ i < 4, octet x i < 100 := by
  have hlen : (addressText x).length = (decimal (octet x 3)).length +
      (decimal (octet x 2)).length + (decimal (octet x 1)).length +
      (decimal (octet x 0)).length + 3 := by
    simp only [addressText, List.length_append, List.length_cons]
    omega
  have hthree : ∀ i, (decimal (octet x i)).length ≤ 3 := fun i =>
    (segment_decimal (octet_lt x i)).1
  have htwo : ∀ i, (decimal (octet x i)).length ≤ 2 ↔ octet x i < 100 := fun i =>
    Lib.length_decimal_le_iff (by decide)
  have h0 := hthree 0
  have h1 := hthree 1
  have h2 := hthree 2
  have h3 := hthree 3
  rw [hlen]
  constructor
  · intro hle
    by_contra hno
    have hlong : ∀ i < 4, 2 < (decimal (octet x i)).length := fun i hi =>
      Nat.lt_of_not_le fun hshort => hno ⟨i, hi, (htwo i).mp hshort⟩
    have l0 := hlong 0 (by decide)
    have l1 := hlong 1 (by decide)
    have l2 := hlong 2 (by decide)
    have l3 := hlong 3 (by decide)
    omega
  · rintro ⟨i, hi, hsmall⟩
    have hshort := (htwo i).mpr hsmall
    match i, hi with
    | 0, _ => omega
    | 1, _ => omega
    | 2, _ => omega
    | 3, _ => omega

theorem naosIpv4tos_some (x : UInt32) (buffer : AbuffNaosInet) :
    ∃ buffer' : AbuffNaosInet, naosIpv4tos x (some buffer) = (0, some buffer') ∧
      buffer'.st = abuffSprintf buffer.st (addressText x) :=
  ⟨_, rfl, congrArg (abuffSprintf buffer.st) (printQuad_inetBytes x)⟩

theorem st_of_naosIpv4tos {x : UInt32} {buffer buffer' : AbuffNaosInet}
    (heq : naosIpv4tos x (some buffer) = (0, some buffer')) :
    buffer'.st = abuffSprintf buffer.st (addressText x) := by
  obtain ⟨printed, hprinted, hst⟩ := naosIpv4tos_some x buffer
  obtain rfl := Option.some.inj (congrArg Prod.snd (heq.symm.trans hprinted))
  exact hst

/-- What the two functions promise for an address: the text is printed in full, and read back as the
address, or as the address with its bytes in the opposite order. -/
def RoundTrips (x : UInt32) (buffer : AbuffNaosInet) : Prop :=
  ∃ buffer' : AbuffNaosInet, naosIpv4tos x (some buffer) = (0, some buffer') ∧
    cstring buffer'.st = addressText x ∧ naosIpv4tou true buffer'.st .littleEndian = x ∧
    naosIpv4tou true buffer'.st .bigEndian = naosChord32 x

/-- **The round trip succeeds exactly for the addresses with a byte below 100**: the text of the
others has 15 characters, and loses the last one. -/
theorem roundTrips_iff (x : UInt32) (buffer : AbuffNaosInet) :
    RoundTrips x buffer ↔ ∃ i < 4, octet x i < 100 := by
  have hprinted : ∀ buffer', naosIpv4tos x (some buffer) = (0, some buffer') →
      cstring buffer'.st = (addressText x).take 14 := by
    intro buffer' heq
    rw [st_of_naosIpv4tos heq]
    exact text_abuffSprintf buffer fun c hc => ne_zero_of_mem_addressText hc
  rw [← length_addressText_le_iff]
  constructor
  · rintro ⟨buffer', heq, htext, -, -⟩
    have hlen := congrArg List.length (htext.symm.trans (hprinted buffer' heq))
    rw [List.length_take] at hlen
    omega
  · intro hle
    obtain ⟨buffer', heq, -⟩ := naosIpv4tos_some x buffer
    have htext := hprinted buffer' heq
    rw [List.take_of_length_le hle] at htext
    exact ⟨buffer', heq, htext, naosIpv4tou_addressText htext⟩

/-- The broadcast address is printed without its last digit, and read back as another one. -/
theorem roundTrips_not_broadcast :
    (∀ buffer' : AbuffNaosInet,
      naosIpv4tos 0xFFFFFFFF (some ⟨List.replicate 16 0, rfl⟩) = (0, some buffer') →
        cstring buffer'.st = [0x32, 0x35, 0x35, 0x2E, 0x32, 0x35, 0x35, 0x2E, 0x32, 0x35, 0x35, 0x2E,
          0x32, 0x35] ∧ naosIpv4tou true buffer'.st .littleEndian = 0xFFFFFF19) ∧
      ¬RoundTrips 0xFFFFFFFF ⟨List.replicate 16 0, rfl⟩ := by
  refine ⟨fun buffer' heq => ?_, ?_⟩
  · rw [st_of_naosIpv4tos heq]
    exact ⟨by decide, by decide +kernel⟩
  · rintro ⟨buffer', heq, htext, -, -⟩
    rw [st_of_naosIpv4tos heq] at htext
    exact absurd htext (by decide)

end Naos

end LibNax
