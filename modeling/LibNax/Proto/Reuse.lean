import LibNax.Proto.Hostile

/-!
# An object that is used again

Objects outlive a message, and the next one is built into the same object.

* `build_uniform` — what `build` does to a message does not depend on the target: every target refuses
  it, or every target gets the same object.
* `Ty.Replaces` — two targets hold the same after the same message.
* `replaces_iff` — exactly for a number, for a string, and for vectors that were equal before.

The number and the string are overwritten; a vector is only appended to, and is therefore as long as
all the messages together.
-/

set_option autoImplicit false

namespace LibNax

namespace Proto

open Lib (int32)

/-- `proto_interface::assemble`: the object and the status. -/
def Ty.assemble (t : Ty) (v : t.Val) (bytes : List UInt8) : Option (t.Val × Int) := do
  let (v, p, _) ← t.build v bytes (some 0) (int32 bytes.length)
  some (v, if p.isSome then 0 else -1)

/-- The three results of a read, the same for every target: behind the end, refused, accepted. -/
def Uniform {α : Type} (after : α → α → α) (f : α → Option (α × Option Int × Int)) : Prop :=
  (∀ v, f v = none) ∨ (∃ cb, ∀ v, ∃ a, f v = some (a, none, cb)) ∨
    ∃ w p cb, ∀ v, f v = some (after v w, some p, cb)

/-- The loop of `build` only appends. -/
theorem buildItems_uniform {α : Type} (f : Option Int → Int → Option (α × Option Int × Int)) :
    ∀ (n : Nat) (p : Int) (cb : Int),
      Uniform (· ++ ·) fun items => buildItems f n items (some p) cb
  | 0, p, cb => Or.inr (Or.inr ⟨[], p, cb, fun v => by simp [buildItems]⟩)
  | n + 1, p, cb => by
    rcases hread : f (some p) cb with _ | ⟨a, _ | p', cb'⟩
    · exact Or.inl fun v => by simp [buildItems, hread]
    · exact Or.inr (Or.inl ⟨cb', fun v => ⟨v, by simp [buildItems, hread]⟩⟩)
    · have hnext : ∀ items, buildItems f (n + 1) items (some p) cb =
          buildItems f n (items ++ [a]) (some p') cb' := by
        intro items
        simp [buildItems, hread]
      rcases buildItems_uniform f n p' cb' with hnone | ⟨cb₁, href⟩ | ⟨w, p₁, cb₁, hacc⟩
      · exact Or.inl fun v => (hnext v).trans (hnone (v ++ [a]))
      · refine Or.inr (Or.inl ⟨cb₁, fun v => ?_⟩)
        obtain ⟨items, h⟩ := href (v ++ [a])
        exact ⟨items, (hnext v).trans h⟩
      · refine Or.inr (Or.inr ⟨a :: w, p₁, cb₁, fun v =>
          ((hnext v).trans (hacc (v ++ [a]))).trans ?_⟩)
        simp

theorem buildChars_uniform (n : Nat) (mem : List UInt8) (count : Nat) (p cb : Int) :
    Uniform (fun _ w => w) fun v => buildChars n mem count v p cb := by
  by_cases hcb : cb < int32 (n * count)
  · exact Or.inr (Or.inl ⟨cb, fun v => ⟨v, by simp only [buildChars, if_pos hcb]⟩⟩)
  · by_cases hmax : maxSize n < count
    · exact Or.inr (Or.inl ⟨cb, fun v => ⟨v, by simp only [buildChars, if_neg hcb, if_pos hmax]⟩⟩)
    · by_cases hin : 0 ≤ p ∧ p + n * count ≤ mem.length
      · exact Or.inr (Or.inr ⟨assign n mem p.toNat count, p + int32 (n * count),
          int32 (cb - int32 (n * count)), fun v => by
            simp only [buildChars, if_neg hcb, if_neg hmax, if_pos hin]⟩)
      · exact Or.inl fun v => by simp only [buildChars, if_neg hcb, if_neg hmax, if_neg hin]

/-- **What `build` does to a message does not depend on the target.** -/
theorem build_uniform (t : Ty) (mem : List UInt8) (p : Option Int) (cb : Int) :
    Uniform t.after fun v => t.build v mem p cb := by
  cases t with
  | crt t =>
    cases p with
    | none => exact Or.inr (Or.inl ⟨cb, fun v => ⟨v, rfl⟩⟩)
    | some p =>
      by_cases hcb : cb < t.size
      · exact Or.inr (Or.inl ⟨cb, fun v => ⟨v, by simp only [Ty.build, crtBuild, if_pos hcb]⟩⟩)
      · by_cases hin : 0 ≤ p ∧ p + t.size ≤ mem.length
        · exact Or.inr (Or.inr ⟨loadWord t.size mem p.toNat, p + t.size, int32 (cb - t.size),
            fun v => by simp only [Ty.build, crtBuild, if_neg hcb, if_pos hin, Ty.after]⟩)
        · exact Or.inl fun v => by simp only [Ty.build, crtBuild, if_neg hcb, if_neg hin]
  | string t nl bigEndian =>
    rcases hcount : countBuild nl bigEndian mem p cb with _ | ⟨w, _ | p', cb'⟩
    · exact Or.inl fun v => by simp [Ty.build, hcount]
    · exact Or.inr (Or.inl ⟨cb', fun v => ⟨v, by simp [Ty.build, hcount]⟩⟩)
    · have hbuild : (fun v => (Ty.string t nl bigEndian).build v mem p cb) =
          fun v => buildChars t.size mem w.toNat v p' cb' := by
        funext v
        rw [Ty.build, hcount, Option.bind_eq_bind, Option.bind_some]
      rw [hbuild]
      exact buildChars_uniform t.size mem w.toNat p' cb'
  | vector t nl bigEndian =>
    rcases hcount : countBuild nl bigEndian mem p cb with _ | ⟨w, _ | p', cb'⟩
    · exact Or.inl fun v => by simp [Ty.build, hcount]
    · exact Or.inr (Or.inl ⟨cb', fun v => ⟨v, by simp [Ty.build, hcount]⟩⟩)
    · have hbuild : (fun v => (Ty.vector t nl bigEndian).build v mem p cb) =
          fun v => buildItems (t.build t.fresh mem) w.toNat v (some p') cb' := by
        funext v
        rw [Ty.build, hcount, Option.bind_eq_bind, Option.bind_some]
        rfl
      rw [hbuild]
      exact buildItems_uniform (t.build t.fresh mem) w.toNat p' cb'

/-! ## The same target, and another one -/

/-- Two targets are accepted for the same messages, and hold the same afterwards. -/
structure Ty.Replaces (t : Ty) (v v' : t.Val) : Prop where
  /-- `build`, from any memory, pointer and `cb`. -/
  build : ∀ (mem : List UInt8) (p : Option Int) (cb : Int) (a : t.Val),
    (∃ q cb', t.build v mem p cb = some (a, some q, cb')) ↔
      ∃ q cb', t.build v' mem p cb = some (a, some q, cb')
  /-- `assemble`, of any bytes. -/
  assemble : ∀ (bytes : List UInt8) (a : t.Val),
    t.assemble v bytes = some (a, 0) ↔ t.assemble v' bytes = some (a, 0)

/-- The vectors. -/
def Ty.isVector : Ty → Bool
  | .vector _ _ _ => true
  | _ => false

/-- `assemble` succeeds where `build` does. -/
theorem assemble_eq_zero_iff {t : Ty} {v a : t.Val} {bytes : List UInt8} :
    t.assemble v bytes = some (a, 0) ↔
      ∃ q cb, t.build v bytes (some 0) (int32 bytes.length) = some (a, some q, cb) := by
  rw [Ty.assemble, Option.bind_eq_bind]
  rcases t.build v bytes (some 0) (int32 bytes.length) with _ | ⟨a', _ | q, cb⟩
  · simp
  · simp
  · simp

theorem replaces_of_build {t : Ty} {v v' : t.Val}
    (h : ∀ (mem : List UInt8) (p : Option Int) (cb : Int) (a : t.Val),
      (∃ q cb', t.build v mem p cb = some (a, some q, cb')) ↔
        ∃ q cb', t.build v' mem p cb = some (a, some q, cb')) : t.Replaces v v' :=
  ⟨h, fun bytes a => by rw [assemble_eq_zero_iff, assemble_eq_zero_iff, h]⟩

/-- A target that is overwritten. -/
theorem after_eq_of_not_vector : ∀ {t : Ty}, t.isVector = false → ∀ v w : t.Val, t.after v w = w
  | .crt _, _, _, _ => rfl
  | .string _ _ _, _, _, _ => rfl

/-- **Decoding replaces the target exactly when that is a number, a string, or a vector that was
equal before.** -/
theorem replaces_iff {t : Ty} {v v' : t.Val} : t.Replaces v v' ↔ t.isVector = false ∨ v = v' := by
  constructor
  · intro h
    cases t with
    | crt t => exact Or.inl rfl
    | string t nl bigEndian => exact Or.inl rfl
    | vector t nl bigEndian =>
      -- a message without elements leaves each of the two as it was
      have hmsg := build_eq (.vector t nl bigEndian) [] (encodeWord (countWord nl bigEndian 0)) [] 0
        nl.size ⟨Nat.two_pow_pos _, by simp⟩ (Nat.zero_le _) (by simp [Ty.encode])
        (by simp [Ty.encode]) (by cases nl <;> decide)
      rcases build_uniform (.vector t nl bigEndian) (encodeWord (countWord nl bigEndian 0)) (some 0)
        nl.size with hnone | ⟨cb, href⟩ | ⟨w, q, cb, hacc⟩
      · exact absurd ((hnone _).symm.trans hmsg) (by simp)
      · obtain ⟨a, ha⟩ := href (Ty.fresh (.vector t nl bigEndian))
        exact absurd (ha.symm.trans hmsg) (by simp)
      · obtain ⟨q', cb', hv'⟩ := (h.build _ _ _ _).mp ⟨q, cb, hacc v⟩
        have hsame := (hacc v').symm.trans hv'
        rw [Option.some.injEq, Prod.mk.injEq] at hsame
        exact Or.inr (List.append_cancel_right hsame.1).symm
  · rintro (hvector | rfl)
    · refine replaces_of_build fun mem p cb a => ?_
      have hafter := after_eq_of_not_vector hvector
      rcases build_uniform t mem p cb with hnone | ⟨cb', href⟩ | ⟨w, q, cb', hacc⟩
      · simp [hnone]
      · obtain ⟨b, hb⟩ := href v
        obtain ⟨b', hb'⟩ := href v'
        simp [hb, hb']
      · simp [hacc, hafter]
    · exact ⟨fun _ _ _ _ => Iff.rfl, fun _ _ => Iff.rfl⟩

/-- The elements of the second message stand behind those of the first. -/
theorem vector_not_replaced : ¬ Ty.Replaces (.vector (.crt .uint8) .uint8 false) [7] [] := by
  intro h
  have hfresh : Ty.assemble (.vector (.crt .uint8) .uint8 false) [] [1, 9] = some ([9], 0) := by
    decide
  have hagain : Ty.assemble (.vector (.crt .uint8) .uint8 false) [7] [1, 9] = some ([7, 9], 0) := by
    decide
  exact absurd (hagain.symm.trans ((h.assemble [1, 9] [9]).mpr hfresh)) (by decide)

end Proto

end LibNax
