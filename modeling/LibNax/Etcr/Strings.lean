import LibNax.Etcr.Reader
import LibNax.Lib.Strip

/-!
# Strings in a buffer

A string in a buffer stands between what is in front of it and its zero.  The functions that trim
and cut do so in place; the trim goes on to the left, in front of a string of spaces only.

* `trim` — a string without the spaces at its ends.
* `etcrTrim_eq` — the trim of a string, where it stops; `etcrTrim_blank` — of nothing but spaces.
-/

set_option autoImplicit false

namespace LibNax

namespace Etcr

open Naos (strchr strlen)

/-- A string without the spaces at its ends. -/
def trim (s : List UInt8) : List UInt8 := Lib.strip (fun c => decide (c = space)) s

theorem exists_trim (s : List UInt8) : ∃ a b, s = List.replicate a space ++ trim s ++
    List.replicate b space ∧ (trim s).head? ≠ some space ∧ (trim s).getLast? ≠ some space ∧
      (trim s = [] → b = 0) := by
  obtain ⟨x, y, hs, hx, hy, hbare, hnil⟩ := Lib.exists_strip (p := fun c => decide (c = space)) s
  have hx' : x = List.replicate x.length space :=
    List.eq_replicate_iff.mpr ⟨rfl, fun c hc => of_decide_eq_true (hx c hc)⟩
  have hy' : y = List.replicate y.length space :=
    List.eq_replicate_iff.mpr ⟨rfl, fun c hc => of_decide_eq_true (hy c hc)⟩
  refine ⟨x.length, y.length, by rw [← hx', ← hy']; exact hs, ?_, ?_, fun h => by simp [hnil h]⟩
  · intro h
    simpa using hbare.head _ h
  · intro h
    simpa using hbare.last _ h

theorem mem_of_mem_trim {s : List UInt8} {x : UInt8} (h : x ∈ trim s) : x ∈ s := by
  obtain ⟨a, b, hs, -⟩ := exists_trim s
  rw [hs]
  simp [h]

theorem mem_trim_of_mem {s : List UInt8} {x : UInt8} (h : x ∈ s) (hx : x ≠ space) : x ∈ trim s := by
  obtain ⟨a, b, hs, -⟩ := exists_trim s
  rw [hs, List.mem_append, List.mem_append] at h
  rcases h with (h | h) | h
  · exact absurd (List.eq_of_mem_replicate h) hx
  · exact h
  · exact absurd (List.eq_of_mem_replicate h) hx

/-! ## Where a string ends -/

theorem findIdx?_append_of_neg {α : Type} {p : α → Bool} {a b : List α}
    (h : ∀ x ∈ a, p x = false) : (a ++ b).findIdx? p = (b.findIdx? p).map (a.length + ·) := by
  rw [List.findIdx?_append, List.findIdx?_eq_none_iff.mpr h]
  cases List.findIdx? p b with
  | none => rfl
  | some i => simp [Nat.add_comm]

theorem strlen_eq {q s z : List UInt8} (hs : 0 ∉ s) :
    strlen (q ++ s ++ 0 :: z) q.length = some s.length := by
  rw [strlen, List.append_assoc, List.drop_left, findIdx?_append_of_neg]
  · simp [List.findIdx?_cons]
  · rintro x hx
    simpa using fun h : x = 0 => hs (h ▸ hx)

/-- The string at a place where zeros follow it. -/
theorem cstring_eq {s z rest : List UInt8} (hs : 0 ∉ s) (hz : ∀ x ∈ z, x = 0) :
    cstring (s ++ z ++ 0 :: rest) = s := by
  rw [cstring_append_end, cstring_append_zeros hs hz]

/-! ## The trim -/

/-- What the trim stops at, to the left. -/
def Stops (q : List UInt8) : Prop := ∃ q' c, q = q' ++ [c] ∧ c ≠ space

theorem trimTail_of_stops {q : List UInt8} (hq : Stops q) : ∀ (k : Nat) (z : List UInt8),
    trimTail (q ++ List.replicate k space ++ z) (q.length + k) =
      some (q ++ List.replicate k 0 ++ z)
  | 0, z => by
    obtain ⟨q', c, rfl, hc⟩ := hq
    simp [trimTail, hc]
  | k + 1, z => by
    have hget : (q ++ List.replicate (k + 1) space ++ z)[q.length + k]? = some space := by
      rw [List.append_assoc, List.getElem?_append_right (by omega), Nat.add_sub_cancel_left,
        List.getElem?_append_left (by simp), List.getElem?_replicate, if_pos (Nat.lt_succ_self k)]
    have hset : (q ++ List.replicate (k + 1) space ++ z).set (q.length + k) 0 =
        q ++ List.replicate k space ++ 0 :: z := by
      rw [List.append_assoc, List.set_append_right _ _ (by omega), Nat.add_sub_cancel_left,
        List.replicate_succ', List.append_assoc, List.set_append_right _ _ (by simp)]
      simp
    rw [← Nat.add_assoc, trimTail, hget]
    dsimp only
    rw [if_pos rfl, hset, trimTail_of_stops hq k (0 :: z), List.replicate_succ', List.append_assoc,
      List.append_assoc, List.append_assoc]
    rfl

/-- At the start of the buffer nothing stops the trim. -/
theorem trimTail_eq_none : ∀ (k : Nat) (z : List UInt8),
    trimTail (List.replicate k space ++ z) k = none
  | 0, z => rfl
  | k + 1, z => by
    have hget : (List.replicate (k + 1) space ++ z)[k]? = some space := by
      rw [List.getElem?_append_left (by simp), List.getElem?_replicate, if_pos (Nat.lt_succ_self k)]
    have hset : (List.replicate (k + 1) space ++ z).set k 0 =
        List.replicate k space ++ 0 :: z := by
      rw [List.replicate_succ', List.append_assoc, List.set_append_right _ _ (by simp)]
      simp
    rw [trimTail, hget]
    dsimp only
    rw [if_pos rfl, hset, trimTail_eq_none k (0 :: z)]

/-- The head of a string: behind its spaces. -/
theorem findIdx?_ne_space (j : Nat) {c : UInt8} (hc : c ≠ space) (z : List UInt8) :
    (List.replicate j space ++ c :: z).findIdx? (fun c => decide (c ≠ space)) = some j := by
  rw [findIdx?_append_of_neg]
  · simp [List.findIdx?_cons, hc]
  · intro x hx
    simp [List.eq_of_mem_replicate hx]

theorem zero_ne_space : (0 : UInt8) ≠ space := by decide

section Blank

variable (m j : Nat) (z : List UInt8)

/-- The trim of a string of spaces, before it goes to the left. -/
theorem etcrTrim_spaces (q : List UInt8) :
    etcrTrim (q ++ List.replicate j space ++ 0 :: z) q.length =
      (trimTail (q ++ List.replicate j space ++ 0 :: z) (q.length + j)).map
        fun data => (data, q.length + j) := by
  have hskip := findIdx?_ne_space j zero_ne_space z
  have hlen := strlen_eq (q := q ++ List.replicate j space) (s := []) (z := z) (by simp)
  rw [List.append_nil, List.length_append, List.length_replicate] at hlen
  rw [etcrTrim, List.append_assoc, List.drop_left, hskip, ← List.append_assoc]
  simp only [Option.bind_eq_bind, Option.bind_some, hlen, List.length_nil, Nat.add_zero]
  cases trimTail (q ++ List.replicate j space ++ 0 :: z) (q.length + j) with
  | none => rfl
  | some data => rfl

/-- Nothing but spaces: they all become zeros, and those in front of the string, too. -/
theorem etcrTrim_blank {q : List UInt8} (hq : Stops q) :
    etcrTrim (q ++ List.replicate m space ++ List.replicate j space ++ 0 :: z) (q.length + m) =
      some (q ++ List.replicate (m + j) 0 ++ 0 :: z, q.length + (m + j)) := by
  have hall := etcrTrim_spaces j z (q ++ List.replicate m space)
  have htail := trimTail_of_stops hq (m + j) (0 :: z)
  rw [List.length_append, List.length_replicate, Nat.add_assoc] at hall
  rw [← List.replicate_append_replicate, ← List.append_assoc] at htail
  rw [hall, htail, Option.map_some, ← List.replicate_append_replicate]

/-- At the start of the buffer the trim of spaces reads in front of it. -/
theorem etcrTrim_eq_none :
    etcrTrim (List.replicate m space ++ List.replicate j space ++ 0 :: z) m = none := by
  have hall := etcrTrim_spaces j z (List.replicate m space)
  have htail := trimTail_eq_none (m + j) (0 :: z)
  rw [List.length_replicate] at hall
  rw [← List.replicate_append_replicate] at htail
  rw [hall, htail]
  rfl

end Blank

/-- The trim of a string, where it stops. -/
theorem etcrTrim_eq {q s : List UInt8} (hs : 0 ∉ s) (h : trim s ≠ [] ∨ Stops q)
    (z : List UInt8) :
    ∃ lead tail, etcrTrim (q ++ s ++ 0 :: z) q.length =
        some (q ++ (lead ++ trim s ++ tail) ++ 0 :: z, q.length + lead.length) ∧
      (lead ++ trim s ++ tail).length = s.length ∧
      (trim s ≠ [] → lead = List.replicate lead.length space) ∧ ∀ x ∈ tail, x = 0 := by
  obtain ⟨a, b, hsplit, hhead, hlast, hnil⟩ := exists_trim s
  by_cases hcore : trim s = []
  · have hq := h.resolve_left fun hne => hne hcore
    have hspaces : s = List.replicate a space := by
      rw [hcore, hnil hcore] at hsplit
      simpa using hsplit
    refine ⟨List.replicate a 0, [], ?_, ?_, fun hne => absurd hcore hne, by simp⟩
    · have hblank := etcrTrim_blank 0 a z hq
      rw [hcore, hspaces]
      simpa using hblank
    · rw [hcore, hspaces]
      simp
  · refine ⟨List.replicate a space, List.replicate b 0, ?_, ?_, fun _ => by simp, ?_⟩
    · generalize hc : trim s = core at *
      obtain ⟨c, core', rfl⟩ := List.exists_cons_of_ne_nil hcore
      have hskip : ((q ++ s ++ 0 :: z).drop q.length).findIdx? (fun c => decide (c ≠ space)) =
          some a := by
        rw [List.append_assoc, List.drop_left, hsplit, List.append_assoc, List.append_assoc,
          List.cons_append]
        exact findIdx?_ne_space a (by simpa using hhead) _
      have hlen : strlen (q ++ s ++ 0 :: z) (q.length + a) =
          some ((c :: core').length + b) := by
        have hstring := strlen_eq (q := q ++ List.replicate a space)
          (s := c :: core' ++ List.replicate b space) (z := z) (by
            intro hmem
            apply hs
            rw [hsplit, List.append_assoc]
            exact List.mem_append_right _ hmem)
        rw [List.length_append, List.length_append, List.length_replicate, List.length_replicate]
          at hstring
        rw [hsplit, ← hstring]
        simp only [List.append_assoc]
      have hstops : Stops (q ++ List.replicate a space ++ c :: core') := by
        have hne : c :: core' ≠ [] := List.cons_ne_nil c core'
        refine ⟨q ++ List.replicate a space ++ (c :: core').dropLast, (c :: core').getLast hne, ?_,
          fun hsp => hlast ?_⟩
        · rw [List.append_assoc _ (List.dropLast _), List.dropLast_append_getLast]
        · rw [List.getLast?_eq_getLast_of_ne_nil hne, hsp]
      have htail : trimTail (q ++ s ++ 0 :: z) (q.length + a + ((c :: core').length + b)) =
          some (q ++ (List.replicate a space ++ c :: core' ++ List.replicate b 0) ++ 0 :: z) := by
        have hcut := trimTail_of_stops hstops b (0 :: z)
        rw [List.length_append, List.length_append, List.length_replicate] at hcut
        rw [hsplit, ← Nat.add_assoc]
        simpa only [List.append_assoc] using hcut
      rw [etcrTrim, hskip]
      simp only [Option.bind_eq_bind, Option.bind_some, hlen, htail, List.length_replicate]
    · have hlen := congrArg List.length hsplit
      simp only [List.length_append, List.length_replicate] at hlen ⊢
      omega
    · exact fun x hx => List.eq_of_mem_replicate hx

end Etcr

end LibNax
