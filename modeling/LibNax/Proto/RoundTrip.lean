import LibNax.Proto.Serialize

/-!
# What is written is read back

* `Ty.encode` — the bytes of an object; `serialize_eq` — `serialize` writes them, and nothing else.
* `changeByteOrder_changeByteOrder` — the two byte orders.
* `build_eq` — `build` reads an object back, wherever its bytes are and whatever follows them.
* `roundTrip` — both, for every type and every value that fits; two objects one behind the other.

The proofs are by induction over the type.  A string and a vector are a number and a loop; the loops
have one lemma each, over any element.
-/

set_option autoImplicit false

namespace LibNax

namespace Proto

open Lib (int32 InInt32 slice overwrite leBytes leNat)

/-! ## The bytes of an object -/

/-- The number of elements as it is written. -/
def countWord (nl : CountType) (bigEndian : Bool) (size : Nat) : BitVec (8 * nl.size) :=
  if bigEndian then changeByteOrder (BitVec.ofNat (8 * nl.size) size)
  else BitVec.ofNat (8 * nl.size) size

/-- The bytes of a number. -/
def encodeWord {n : Nat} (value : BitVec (8 * n)) : List UInt8 := leBytes n value.toNat

/-- The bytes of an object. -/
def Ty.encode : (t : Ty) → t.Val → List UInt8
  | .crt _, v => encodeWord v
  | .string _ nl bigEndian, v =>
    encodeWord (countWord nl bigEndian (List.length v)) ++ List.flatMap encodeWord v
  | .vector t nl bigEndian, v =>
    encodeWord (countWord nl bigEndian (List.length v)) ++ List.flatMap t.encode v

/-- How many bytes an object has, as a number without bounds. -/
def Ty.bytes : (t : Ty) → t.Val → Nat
  | .crt t, _ => t.size
  | .string t nl _, v => nl.size + List.length v * t.size
  | .vector t nl _, v => nl.size + (List.map t.bytes v).sum

/-- The numbers of elements fit their types. -/
def Ty.Fits : (t : Ty) → t.Val → Prop
  | .crt _, _ => True
  | .string _ nl _, v => List.length v < 2 ^ (8 * nl.size)
  | .vector t nl _, v => List.length v < 2 ^ (8 * nl.size) ∧ ∀ a ∈ (v : List t.Val), t.Fits a

@[simp] theorem length_encodeWord {n : Nat} (value : BitVec (8 * n)) :
    (encodeWord value).length = n :=
  Lib.length_leBytes n _

theorem length_flatMap_encodeWord {n : Nat} (l : List (BitVec (8 * n))) :
    (l.flatMap encodeWord).length = l.length * n := by
  rw [List.length_flatMap, List.map_congr_left fun a _ => length_encodeWord a, List.map_const',
    List.sum_replicate_nat]

theorem length_encode : ∀ (t : Ty) (v : t.Val), (t.encode v).length = t.bytes v
  | .crt _, v => length_encodeWord v
  | .string t nl bigEndian, v => by
    rw [Ty.encode, List.length_append, length_encodeWord, length_flatMap_encodeWord, Ty.bytes]
  | .vector t nl bigEndian, v => by
    have hlen : ∀ l : List t.Val, (l.flatMap t.encode).length = (l.map t.bytes).sum := by
      intro l
      rw [List.length_flatMap, List.map_congr_left fun a _ => length_encode t a]
    rw [Ty.encode, List.length_append, length_encodeWord, hlen, Ty.bytes]

/-- The sum of the loop of `length`, where no part of it leaves an `int`. -/
theorem foldl_length {α : Type} {f : α → Int} {g : α → Nat} (hfg : ∀ a, g a < 2 ^ 31 → f a = g a) :
    ∀ (l : List α) (sum : Nat), sum + (l.map g).sum < 2 ^ 31 →
      l.foldl (fun sum a => int32 (sum + f a)) (sum : Int) = (sum + (l.map g).sum : Nat)
  | [], sum, _ => rfl
  | a :: l, sum, h => by
    rw [List.map_cons, List.sum_cons] at h
    have hstep : int32 ((sum : Int) + f a) = (sum + g a : Nat) := by
      rw [hfg a (by omega), Lib.int32_of_inInt32 ⟨by omega, by omega⟩, Int.natCast_add]
    rw [List.foldl_cons, hstep, foldl_length hfg l _ (by omega), List.map_cons, List.sum_cons,
      Nat.add_assoc]

/-- `length` is the number of bytes, where that is an `int`. -/
theorem length_eq : ∀ (t : Ty) (v : t.Val), t.bytes v < 2 ^ 31 → t.length v = t.bytes v
  | .crt _, _, _ => rfl
  | .string t nl bigEndian, v, h => by
    rw [Ty.bytes] at h
    have hcount : int32 (0 + (nl.size : Int)) = nl.size := by
      rw [Int.zero_add, Lib.int32_of_inInt32 ⟨by omega, by omega⟩]
    have hchars : int32 ((List.length v : Int) * t.size) = (List.length v * t.size : Nat) := by
      rw [← Int.natCast_mul]
      exact Lib.int32_of_inInt32 ⟨by omega, by omega⟩
    rw [Ty.length, hcount, hchars, Ty.bytes, ← Int.natCast_add]
    exact Lib.int32_of_inInt32 ⟨by omega, by omega⟩
  | .vector t nl bigEndian, v, h => by
    rw [Ty.bytes] at h
    have hcount : int32 (0 + (nl.size : Int)) = nl.size := by
      rw [Int.zero_add, Lib.int32_of_inInt32 ⟨by omega, by omega⟩]
    rw [Ty.length, hcount, foldl_length (length_eq t) v nl.size h, Ty.bytes]

/-! ## Writing -/

theorem crtSerialize_eq {n : Nat} (value : BitVec (8 * n)) {mem : List UInt8} {pos : Nat}
    (h : pos + n ≤ mem.length) : crtSerialize value mem (some (pos : Int)) =
      some (overwrite mem pos (encodeWord value), some ((pos + n : Nat) : Int)) := by
  have hlen : (leBytes n value.toNat).length = n := Lib.length_leBytes n _
  have hall : slice (leBytes n value.toNat) 0 n = leBytes n value.toNat := by
    rw [slice, List.drop_zero, List.take_of_length_le (Nat.le_of_eq hlen)]
  have hcopy : Lib.memcpy mem pos (leBytes n value.toNat) 0 n =
      some (overwrite mem pos (slice (leBytes n value.toNat) 0 n)) :=
    Lib.memcpy_eq mem _ h (Nat.le_of_eq ((Nat.zero_add n).trans hlen.symm))
  rw [crtSerialize, hcopy, hall]
  rfl

/-- The loop of `serialize`, over elements that write their bytes. -/
theorem serializeItems_eq {α : Type} {enc : α → List UInt8}
    {f : α → List UInt8 → Option Int → Option (List UInt8 × Option Int)}
    (hf : ∀ (a : α) (mem : List UInt8) (pos : Nat), pos + (enc a).length ≤ mem.length →
      f a mem (some (pos : Int)) =
        some (overwrite mem pos (enc a), some ((pos + (enc a).length : Nat) : Int))) :
    ∀ (l : List α) (mem : List UInt8) (pos : Nat), pos + (l.flatMap enc).length ≤ mem.length →
      serializeItems f l mem (some (pos : Int)) =
        some (overwrite mem pos (l.flatMap enc), some ((pos + (l.flatMap enc).length : Nat) : Int))
  | [], mem, pos, _ => by
    rw [serializeItems, List.flatMap_nil, overwrite]
    simp
  | a :: l, mem, pos, h => by
    rw [List.flatMap_cons, List.length_append] at h
    have hsize : (overwrite mem pos (enc a)).length = mem.length := Lib.length_overwrite (by omega)
    rw [serializeItems, hf a mem pos (by omega)]
    show serializeItems f l (overwrite mem pos (enc a))
        (some ((pos + (enc a).length : Nat) : Int)) =
      _
    rw [serializeItems_eq hf l _ _ (by omega), Lib.overwrite_overwrite (by omega),
      List.flatMap_cons,
      List.length_append, Nat.add_assoc]

/-- A number of elements and a loop. -/
theorem count_serializeItems {α : Type} {enc : α → List UInt8}
    {f : α → List UInt8 → Option Int → Option (List UInt8 × Option Int)}
    (hf : ∀ (a : α) (mem : List UInt8) (pos : Nat), pos + (enc a).length ≤ mem.length →
      f a mem (some (pos : Int)) =
        some (overwrite mem pos (enc a), some ((pos + (enc a).length : Nat) : Int)))
    (nl : CountType) (bigEndian : Bool) (l : List α) (mem : List UInt8) (pos : Nat)
    (h : pos + (encodeWord (countWord nl bigEndian l.length) ++ l.flatMap enc).length ≤
    mem.length) :
    (do let (mem, pos) ← countSerialize nl bigEndian l.length mem (some (pos : Int))
        serializeItems f l mem pos) =
      some (overwrite mem pos (encodeWord (countWord nl bigEndian l.length) ++ l.flatMap enc),
        some ((pos + (encodeWord (countWord nl bigEndian l.length) ++ l.flatMap enc).length : Nat) :
          Int)) := by
  obtain ⟨w, hw⟩ : ∃ w, countWord nl bigEndian l.length = w := ⟨_, rfl⟩
  rw [List.length_append, length_encodeWord] at h
  have hcount : countSerialize nl bigEndian l.length mem (some (pos : Int)) =
      some (overwrite mem pos (encodeWord w), some ((pos + nl.size : Nat) : Int)) := by
    rw [← crtSerialize_eq w (by omega), ← hw]
    rfl
  have hsize : (overwrite mem pos (encodeWord w)).length = mem.length :=
    Lib.length_overwrite (by rw [length_encodeWord]; omega)
  have hnext : overwrite (overwrite mem pos (encodeWord w)) (pos + (encodeWord w).length)
      (l.flatMap enc) = overwrite mem pos (encodeWord w ++ l.flatMap enc) :=
    Lib.overwrite_overwrite (by rw [length_encodeWord]; omega) _
  rw [length_encodeWord] at hnext
  rw [hcount]
  show serializeItems f l (overwrite mem pos (encodeWord w))
      (some ((pos + nl.size : Nat) : Int)) = _
  rw [serializeItems_eq hf l _ _ (by omega), hnext, hw, List.length_append, length_encodeWord,
    Nat.add_assoc]

/-- **`serialize` writes the bytes of the object**, and returns the pointer behind them. -/
theorem serialize_eq : ∀ (t : Ty) (v : t.Val) (mem : List UInt8) (pos : Nat),
    pos + (t.encode v).length ≤ mem.length → t.serialize v mem (some (pos : Int)) =
      some (overwrite mem pos (t.encode v), some ((pos + (t.encode v).length : Nat) : Int))
  | .crt _, v, mem, pos, h => by
    rw [Ty.encode, length_encodeWord] at h ⊢
    exact crtSerialize_eq v h
  | .string t nl bigEndian, v, mem, pos, h => by
    refine count_serializeItems (fun a mem pos h => ?_) nl bigEndian v mem pos h
    rw [length_encodeWord] at h ⊢
    exact crtSerialize_eq a h
  | .vector t nl bigEndian, v, mem, pos, h =>
    count_serializeItems (serialize_eq t) nl bigEndian v mem pos h

/-! ## The byte order -/

/-- A round of `change_byte_order` before its shift: the next byte goes to the free place. -/
theorem toNat_or_byte {n k : Nat} {dst t : BitVec (8 * n)} (hn : 0 < n)
    (h : dst.toNat = 2 ^ 8 * Lib.byteSwap k t.toNat) :
    (dst ||| ((t >>> (k * 8)) &&& 0xFF)).toNat = Lib.byteSwap (k + 1) t.toNat := by
  have hmask : (0xFF : BitVec (8 * n)).toNat = 2 ^ 8 - 1 := by
    have hpow : 2 ^ 8 ≤ 2 ^ (8 * n) := Nat.pow_le_pow_right (by decide) (by omega)
    show (BitVec.ofNat (8 * n) 255).toNat = 255
    rw [BitVec.toNat_ofNat, Nat.mod_eq_of_lt (by omega)]
  have hbyte : ((t >>> (k * 8)) &&& 0xFF).toNat = t.toNat / 2 ^ (8 * k) % 2 ^ 8 := by
    rw [BitVec.toNat_and, hmask, BitVec.toNat_ushiftRight, Nat.and_two_pow_sub_one_eq_mod,
      Nat.shiftRight_eq_div_pow, Nat.mul_comm k]
  have hlt : t.toNat / 2 ^ (8 * k) % 2 ^ 8 < 2 ^ 8 := Nat.mod_lt _ (by decide)
  rw [BitVec.toNat_or, h, hbyte, Lib.byteSwap_succ, Nat.two_pow_add_eq_or_of_lt hlt]

/-- After rounds that all had a shift, the lowest byte is free. -/
theorem toNat_changeByteOrder_loop {n : Nat} (t : BitVec (8 * n)) : ∀ k < n,
    ((List.range k).foldl (fun dst i =>
      let dst := dst ||| ((t >>> (i * 8)) &&& 0xFF)
      dst <<< (if i < n - 1 then 8 else 0)) 0).toNat = 2 ^ 8 * Lib.byteSwap k t.toNat
  | 0, _ => by simp [Lib.byteSwap, leBytes, leNat]
  | k + 1, hk => by
    have hnext := toNat_or_byte (by omega) (toNat_changeByteOrder_loop t k (by omega))
    have hlt : 2 ^ 8 * Lib.byteSwap (k + 1) t.toNat < 2 ^ (8 * n) := by
      calc 2 ^ 8 * Lib.byteSwap (k + 1) t.toNat
          < 2 ^ 8 * 2 ^ (8 * (k + 1)) :=
            Nat.mul_lt_mul_of_pos_left (Lib.byteSwap_lt (k + 1) t.toNat) (by decide)
        _ = 2 ^ (8 * (k + 2)) := by rw [← Nat.pow_add]; congr 1; omega
        _ ≤ 2 ^ (8 * n) := Nat.pow_le_pow_right (by decide) (by omega)
    rw [List.range_succ, List.foldl_append, List.foldl_cons, List.foldl_nil, if_pos (by omega),
      BitVec.toNat_shiftLeft, hnext, Nat.shiftLeft_eq, Nat.mul_comm, Nat.mod_eq_of_lt hlt]

theorem toNat_changeByteOrder {n : Nat} (t : BitVec (8 * n)) :
    (changeByteOrder t).toNat = Lib.byteSwap n t.toNat := by
  cases n with
  | zero => simp [changeByteOrder, Lib.byteSwap, leBytes, leNat]
  | succ n =>
    have hlast := toNat_or_byte (by omega) (toNat_changeByteOrder_loop t n (Nat.lt_succ_self n))
    rw [changeByteOrder, List.range_succ, List.foldl_append, List.foldl_cons, List.foldl_nil,
      if_neg (by omega), BitVec.shiftLeft_zero, hlast]

/-- **The other byte order twice is the first one.** -/
theorem changeByteOrder_changeByteOrder {n : Nat} (t : BitVec (8 * n)) :
    changeByteOrder (changeByteOrder t) = t := by
  apply BitVec.eq_of_toNat_eq
  rw [toNat_changeByteOrder, toNat_changeByteOrder, Lib.byteSwap_byteSwap t.isLt]

/-! ## Reading -/

theorem loadWord_eq {n : Nat} (value : BitVec (8 * n)) {mem rest : List UInt8} {pos : Nat}
    (hmem : mem.drop pos = encodeWord value ++ rest) : loadWord n mem pos = value := by
  have hslice : slice mem pos n = encodeWord value := by
    rw [slice, hmem, List.take_left' (length_encodeWord value)]
  rw [loadWord, hslice, encodeWord, Lib.leNat_leBytes, Nat.mod_eq_of_lt value.isLt,
    BitVec.ofNat_toNat, BitVec.setWidth_eq]

theorem add_le_of_drop {mem enc rest : List UInt8} {pos : Nat} (hpos : pos ≤ mem.length)
    (hmem : mem.drop pos = enc ++ rest) : pos + enc.length ≤ mem.length := by
  have hlen := congrArg List.length hmem
  rw [List.length_drop, List.length_append] at hlen
  omega

theorem drop_add_of_drop {mem enc rest : List UInt8} {pos : Nat}
    (hmem : mem.drop pos = enc ++ rest) : mem.drop (pos + enc.length) = rest := by
  rw [← List.drop_drop, hmem, List.drop_left]

theorem crtBuild_eq {n : Nat} (old value : BitVec (8 * n)) {mem rest : List UInt8} {pos : Nat}
    {cb : Int} (hpos : pos ≤ mem.length) (hmem : mem.drop pos = encodeWord value ++ rest)
    (hcb : (n : Int) ≤ cb) (hint : InInt32 cb) : crtBuild old mem (some (pos : Int)) cb =
      some (value, some ((pos + n : Nat) : Int), cb - n) := by
  have hle := add_le_of_drop hpos hmem
  rw [length_encodeWord] at hle
  obtain ⟨hlow, hhigh⟩ := hint
  rw [crtBuild, if_neg (by omega), if_pos (by omega), Int.toNat_natCast, loadWord_eq value hmem,
    Lib.int32_of_inInt32 ⟨by omega, by omega⟩, Int.natCast_add]

/-- The number of elements is the one that was written, in either byte order. -/
theorem countBuild_eq {nl : CountType} {bigEndian : Bool} {size : Nat} {mem rest : List UInt8}
    {pos : Nat} {cb : Int} (hsize : size < 2 ^ (8 * nl.size)) (hpos : pos ≤ mem.length)
    (hmem : mem.drop pos = encodeWord (countWord nl bigEndian size) ++ rest)
    (hcb : (nl.size : Int) ≤ cb) (hint : InInt32 cb) :
    ∃ w : BitVec (8 * nl.size), w.toNat = size ∧
      countBuild nl bigEndian mem (some (pos : Int)) cb =
        some (w, some ((pos + nl.size : Nat) : Int), cb - nl.size) := by
  have hback : (if bigEndian then changeByteOrder (countWord nl bigEndian size)
      else countWord nl bigEndian size) = BitVec.ofNat (8 * nl.size) size := by
    cases bigEndian with
    | false => rfl
    | true => exact changeByteOrder_changeByteOrder _
  refine ⟨BitVec.ofNat (8 * nl.size) size, ?_, ?_⟩
  · rw [BitVec.toNat_ofNat, Nat.mod_eq_of_lt hsize]
  · rw [countBuild, crtBuild_eq 0 _ hpos hmem hcb hint]
    show some (ite _ _ _, _, _) = _
    rw [hback]

/-- The loop of `build`, over elements that are read back. -/
theorem buildItems_eq {α : Type} {enc : α → List UInt8} {mem : List UInt8}
    {f : Option Int → Int → Option (α × Option Int × Int)} {P : α → Prop}
    (hf : ∀ (a : α) (rest : List UInt8) (pos : Nat) (cb : Int), P a → pos ≤ mem.length →
      mem.drop pos = enc a ++ rest → ((enc a).length : Int) ≤ cb → InInt32 cb →
      f (some (pos : Int)) cb =
        some (a, some ((pos + (enc a).length : Nat) : Int), cb - (enc a).length)) :
    ∀ (l items : List α) (rest : List UInt8) (pos : Nat) (cb : Int), (∀ a ∈ l, P a) →
      pos ≤ mem.length → mem.drop pos = l.flatMap enc ++ rest →
      ((l.flatMap enc).length : Int) ≤ cb → InInt32 cb →
      buildItems f l.length items (some (pos : Int)) cb =
        some (items ++ l, some ((pos + (l.flatMap enc).length : Nat) : Int),
          cb - (l.flatMap enc).length)
  | [], items, rest, pos, cb, _, _, _, _, _ => by
    rw [List.length_nil, buildItems, List.flatMap_nil, List.append_nil]
    simp
  | a :: l, items, rest, pos, cb, hP, hpos, hmem, hcb, hint => by
    rw [List.flatMap_cons, List.length_append] at hcb
    rw [List.flatMap_cons, List.append_assoc] at hmem
    have hint' : InInt32 (cb - (enc a).length) :=
      ⟨by have := hint.1; omega, by have := hint.2; omega⟩
    rw [List.length_cons, buildItems, hf a _ pos cb (hP a List.mem_cons_self) hpos hmem (by omega)
      hint]
    show buildItems f l.length (items ++ [a]) (some ((pos + (enc a).length : Nat) : Int))
      (cb - (enc a).length) = _
    rw [buildItems_eq hf l _ rest _ _ (fun b hb => hP b (List.mem_cons_of_mem a hb))
      (add_le_of_drop hpos hmem) (drop_add_of_drop hmem) (by omega) hint', List.flatMap_cons,
      List.length_append, List.append_assoc, List.singleton_append, Nat.add_assoc, Int.sub_sub,
      ← Int.natCast_add]

/-- The characters of a string. -/
theorem assign_eq {n : Nat} {mem rest : List UInt8} : ∀ (l : List (BitVec (8 * n))) (pos : Nat),
    mem.drop pos = l.flatMap encodeWord ++ rest → assign n mem pos l.length = l
  | [], _, _ => rfl
  | a :: l, pos, hmem => by
    rw [List.flatMap_cons, List.append_assoc] at hmem
    have hnext := drop_add_of_drop hmem
    rw [length_encodeWord] at hnext
    have hrest : ((List.range l.length).map fun i => loadWord n mem (pos + n * (i + 1))) = l := by
      refine Eq.trans (List.map_congr_left fun i _ => ?_) (assign_eq l (pos + n) hnext)
      rw [Nat.mul_succ, Nat.add_comm (n * i), Nat.add_assoc]
    rw [List.length_cons, assign, List.range_succ_eq_map, List.map_cons, List.map_map]
    show loadWord n mem (pos + n * 0) :: _ = a :: l
    rw [Nat.mul_zero, Nat.add_zero, loadWord_eq a hmem]
    exact congrArg (a :: ·) hrest

theorem IntType.size_pos (t : IntType) : 0 < t.size := by
  cases t <;> decide

/-- A string of less than `2 ^ 31` bytes is not too long. -/
theorem le_maxSize {n count : Nat} (hn : 0 < n) (h : n * count < 2 ^ 31) : count ≤ maxSize n := by
  rcases Nat.eq_zero_or_pos count with rfl | hcount
  · exact Nat.zero_le _
  · have hle : n ≤ n * count := Nat.le_mul_of_pos_right n hcount
    have hfit : 2 * count + 1 ≤ (2 ^ 63 - 1) / n := by
      rw [Nat.le_div_iff_mul_le hn]
      calc (2 * count + 1) * n = 2 * (n * count) + n := by
            rw [Nat.add_mul, Nat.one_mul, Nat.mul_assoc, Nat.mul_comm count n]
        _ ≤ 2 ^ 63 - 1 := by omega
    rw [maxSize]
    omega

theorem buildChars_eq {n : Nat} (hn : 0 < n) {mem : List UInt8} (l old : List (BitVec (8 * n)))
    (rest : List UInt8) (pos : Nat) (cb : Int) (hpos : pos ≤ mem.length)
    (hmem : mem.drop pos = l.flatMap encodeWord ++ rest)
    (hcb : ((l.flatMap encodeWord).length : Int) ≤ cb) (hint : InInt32 cb) :
    buildChars n mem l.length old pos cb =
      some (l, some ((pos + (l.flatMap encodeWord).length : Nat) : Int),
        cb - (l.flatMap encodeWord).length) := by
  have hend := add_le_of_drop hpos hmem
  obtain ⟨hlow, hhigh⟩ := hint
  have hlen : (n : Int) * l.length = (l.flatMap encodeWord).length := by
    rw [length_flatMap_encodeWord, Int.natCast_mul, Int.mul_comm]
  have hacquire : int32 ((l.flatMap encodeWord).length : Int) = (l.flatMap encodeWord).length :=
    Lib.int32_of_inInt32 ⟨by omega, by omega⟩
  have hmax : l.length ≤ maxSize n := by
    refine le_maxSize hn ?_
    rw [length_flatMap_encodeWord] at hcb
    rw [Nat.mul_comm]
    omega
  rw [buildChars, hlen, hacquire, if_neg (by omega), if_neg (Nat.not_lt.mpr hmax),
    if_pos (by omega), Int.toNat_natCast, assign_eq l pos hmem,
    Lib.int32_of_inInt32 ⟨by omega, by omega⟩, Int.natCast_add]

/-- **`build` reads an object back**, and moves the pointer and `cb` by its bytes. -/
theorem build_eq : ∀ (t : Ty) (v : t.Val) (mem rest : List UInt8) (pos : Nat) (cb : Int), t.Fits v →
    pos ≤ mem.length → mem.drop pos = t.encode v ++ rest → ((t.encode v).length : Int) ≤ cb →
    InInt32 cb → t.build t.fresh mem (some (pos : Int)) cb =
      some (v, some ((pos + (t.encode v).length : Nat) : Int), cb - (t.encode v).length)
  | .crt t, v, mem, rest, pos, cb, _, hpos, hmem, hcb, hint => by
    rw [Ty.encode] at hmem hcb ⊢
    rw [length_encodeWord] at hcb ⊢
    exact crtBuild_eq _ v hpos hmem hcb hint
  | .string t nl bigEndian, v, mem, rest, pos, cb, hfits, hpos, hmem, hcb, hint => by
    rw [Ty.encode, List.length_append, length_encodeWord] at hcb
    rw [Ty.encode, List.append_assoc] at hmem
    have hcb' : (nl.size : Int) ≤ cb := by omega
    obtain ⟨w, hw, hcount⟩ := countBuild_eq hfits hpos hmem hcb' hint
    have hpos' := add_le_of_drop hpos hmem
    have hmem' := drop_add_of_drop hmem
    rw [length_encodeWord] at hpos' hmem'
    have hint' : InInt32 (cb - nl.size) := ⟨by have := hint.1; omega, by have := hint.2; omega⟩
    have hchars := buildChars_eq t.size_pos v [] rest _ _ hpos' hmem' (by omega) hint'
    rw [Ty.build, hcount, Option.bind_eq_bind, Option.bind_some]
    show buildChars t.size mem w.toNat [] ((pos + nl.size : Nat) : Int) (cb - nl.size) = _
    rw [hw, hchars, Ty.encode, List.length_append, length_encodeWord, Int.sub_sub,
      ← Int.natCast_add, Nat.add_assoc]
  | .vector t nl bigEndian, v, mem, rest, pos, cb, hfits, hpos, hmem, hcb, hint => by
    rw [Ty.encode, List.length_append, length_encodeWord] at hcb
    rw [Ty.encode, List.append_assoc] at hmem
    have hcb' : (nl.size : Int) ≤ cb := by omega
    obtain ⟨w, hw, hcount⟩ := countBuild_eq hfits.1 hpos hmem hcb' hint
    have hpos' := add_le_of_drop hpos hmem
    have hmem' := drop_add_of_drop hmem
    rw [length_encodeWord] at hpos' hmem'
    have hint' : InInt32 (cb - nl.size) := ⟨by have := hint.1; omega, by have := hint.2; omega⟩
    have hitems := buildItems_eq (P := t.Fits) (fun a rest pos cb => build_eq t a mem rest pos cb)
      v [] rest _ _ hfits.2 hpos' hmem' (by omega) hint'
    rw [Ty.build, hcount, Option.bind_eq_bind, Option.bind_some]
    show buildItems (t.build t.fresh mem) w.toNat [] (some ((pos + nl.size : Nat) : Int))
      (cb - nl.size) = _
    rw [hw, hitems, Ty.encode, List.length_append, length_encodeWord, List.nil_append, Int.sub_sub,
      ← Int.natCast_add, Nat.add_assoc]

/-! ## The round trip -/

/-- Two objects are written one behind the other into a memory of their size, and read back. -/
def writeTwice (t t' : Ty) (v : t.Val) (v' : t'.Val) (mem : List UInt8) :
    Option (t.Val × t'.Val × Option Int × Int) := do
  let (mem, pos) ← t.serialize v mem (some 0)
  let (mem, _) ← t'.serialize v' mem pos
  let (a, pos, cb) ← t.build t.fresh mem (some 0) mem.length
  let (b, pos, cb) ← t'.build t'.fresh mem pos cb
  some (a, b, pos, cb)

/-- Two encodings can be concatenated. -/
theorem writeTwice_eq {t t' : Ty} {v : t.Val} {v' : t'.Val} (hfits : t.Fits v) (hfits' : t'.Fits v')
    {mem : List UInt8} (hmem : mem.length = t.bytes v + t'.bytes v') (hlen : mem.length < 2 ^ 31) :
    writeTwice t t' v v' mem = some (v, v', some (mem.length : Int), 0) := by
  have hbytes := length_encode t v
  have hbytes' := length_encode t' v'
  have hwrite := serialize_eq t v mem 0 (by omega)
  have hsize : (overwrite mem 0 (t.encode v)).length = mem.length := Lib.length_overwrite (by omega)
  have hwrite' := serialize_eq t' v' (overwrite mem 0 (t.encode v)) (0 + (t.encode v).length)
    (by omega)
  have hall : overwrite mem 0 (t.encode v ++ t'.encode v') = t.encode v ++ t'.encode v' := by
    rw [overwrite, List.take_zero, List.nil_append, List.drop_eq_nil_of_le, List.append_nil]
    rw [List.length_append]
    omega
  rw [Lib.overwrite_overwrite (by omega), hall] at hwrite'
  have hread := build_eq t v (t.encode v ++ t'.encode v') (t'.encode v') 0 mem.length hfits
    (Nat.zero_le _) rfl (by omega) ⟨by omega, by omega⟩
  have hread' := build_eq t' v' (t.encode v ++ t'.encode v') [] (0 + (t.encode v).length)
    (mem.length - (t.encode v).length) hfits' (by rw [List.length_append]; omega)
    (by rw [Nat.zero_add, List.drop_left, List.append_nil]) (by omega) ⟨by omega, by omega⟩
  have hlast : (t.encode v ++ t'.encode v').length = mem.length := by
    rw [List.length_append]
    omega
  rw [Int.natCast_zero] at hwrite hread
  have hrest : (mem.length : Int) - (t.encode v).length - (t'.encode v').length = 0 := by omega
  have hpos : 0 + (t.encode v).length + (t'.encode v').length = mem.length := by omega
  simp only [writeTwice, hwrite, hwrite', hlast, hread, hread', hrest, hpos, Option.bind_eq_bind,
    Option.bind_some]

/-- What it means that an object is read back as it was written. -/
structure RoundTrip (t : Ty) (v : t.Val) : Prop where
  /-- `length` is the number of bytes. -/
  length : t.length v = (t.encode v).length
  /-- `serialize` writes these bytes, and nothing else. -/
  serialize : ∀ (mem : List UInt8) (pos : Nat), pos + (t.encode v).length ≤ mem.length →
    t.serialize v mem (some (pos : Int)) =
      some (overwrite mem pos (t.encode v), some (pos + t.length v))
  /-- `build` reads them back, from any place and whatever follows. -/
  build : ∀ (before after : List UInt8) (cb : Int), InInt32 cb →
    cb = (t.encode v ++ after).length →
    t.build t.fresh (before ++ (t.encode v ++ after)) (some (before.length : Int)) cb =
      some (v, some (before.length + t.length v), cb - t.length v)
  /-- A second object may follow. -/
  concat : ∀ (t' : Ty) (v' : t'.Val), t'.Fits v' → t.bytes v + t'.bytes v' < 2 ^ 31 →
    ∀ mem : List UInt8, mem.length = t.bytes v + t'.bytes v' →
      writeTwice t t' v v' mem = some (v, v', some (mem.length : Int), 0)

/-- **What is written is read back**, for every type and every value whose numbers of elements fit
and whose bytes are less than `2 ^ 31`. -/
theorem roundTrip {t : Ty} {v : t.Val} (hfits : t.Fits v) (hlen : t.bytes v < 2 ^ 31) :
    RoundTrip t v := by
  have hlength : t.length v = (t.encode v).length := by
    rw [length_eq t v hlen, length_encode]
  refine ⟨hlength, fun mem pos h => ?_, fun before after cb hint hcb => ?_,
    fun t' v' hfits' hboth mem hmem => writeTwice_eq hfits hfits' hmem (by omega)⟩
  · rw [serialize_eq t v mem pos h, hlength, Int.natCast_add]
  · have hle : ((t.encode v).length : Int) ≤ cb := by
      rw [hcb, List.length_append]
      omega
    rw [build_eq t v _ after before.length cb hfits (by rw [List.length_append]; omega)
      List.drop_left hle hint, hlength, Int.natCast_add]

theorem roundTrip_strings :
    RoundTrip (.vector (.string .int8 .uint16 true) .uint32 false) [[104, 105], [], [33]] := by
  refine roundTrip ⟨by decide, ?_⟩ (by decide)
  have hshort : ∀ a ∈ ([[104, 105], [], [33]] : List (List (BitVec 8))), a.length < 2 ^ 16 := by
    decide
  exact hshort

end Proto

end LibNax
