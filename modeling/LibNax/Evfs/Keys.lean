import LibNax.Evfs.Index

/-!
# The test of a key

`__evfs_is_legal_key` stands in front of the two buffers that a key is copied into.  Its loop counts
the rounds, but the cursor stays on the first character; the range of the capital letters is tested
with an `&&` where the other two have an `||`, so that no character fails the test; and the count
that it compares with the bound is zero or the bound of the loop.

* `LegalKey` — the keys it is meant to accept.
* `validates_iff` — the test does what it is for on the legal keys, and on no other.
-/

set_option autoImplicit false

namespace LibNax

namespace Evfs

/-- A digit, a letter, `_` or `.`. -/
def LegalChar (c : UInt8) : Prop :=
  ('0'.toNat ≤ c.toNat ∧ c.toNat ≤ '9'.toNat) ∨ ('a'.toNat ≤ c.toNat ∧ c.toNat ≤ 'z'.toNat) ∨
    ('A'.toNat ≤ c.toNat ∧ c.toNat ≤ 'Z'.toNat) ∨ c.toNat = '_'.toNat ∨ c.toNat = '.'.toNat

instance (c : UInt8) : Decidable (LegalChar c) := inferInstanceAs (Decidable (_ ∨ _ ∨ _ ∨ _ ∨ _))

/-- A legal key: legal characters, and fewer than the bound that the code tests for. -/
def LegalKey (key : List UInt8) : Prop :=
  (∀ c ∈ cstring key, LegalChar c) ∧ (cstring key).length < maxEntryNameLength - 1

instance (key : List UInt8) : Decidable (LegalKey key) := inferInstanceAs (Decidable (_ ∧ _))

/-- What the test is for: it accepts the legal keys, and what it accepts fits in the buffer of the
search and in the one of the head, in full. -/
def Validates (key : List UInt8) : Prop :=
  (isLegalKey key = true ↔ LegalKey key) ∧
    (isLegalKey key = true → Fits key ∧ cstring (storedKey key) = cstring key)

theorem LegalKey.fits {key : List UInt8} (h : LegalKey key) : Fits key :=
  h.2.trans (Nat.sub_lt (by decide) (by decide))

/-- **The test validates the legal keys and no others**: with a character that is not legal, or with
too many of them, a key is let through all the same. -/
theorem validates_iff (key : List UInt8) : Validates key ↔ LegalKey key := by
  constructor
  · exact fun h => h.1.mp (isLegalKey_eq_true key)
  · intro h
    exact ⟨iff_of_true (isLegalKey_eq_true key) h,
      fun _ => ⟨h.fits, nameOf_inj.mp (nameOf_storedKey h.fits)⟩⟩

/-- A key of forty letters is accepted, and longer than both buffers. -/
theorem validates_not_long :
    isLegalKey (List.replicate 40 0x61) = true ∧ ¬Fits (List.replicate 40 0x61) ∧
      ¬Validates (List.replicate 40 0x61) := by
  have hlong : ¬Fits (List.replicate 40 0x61) := by decide +kernel
  exact ⟨isLegalKey_eq_true _, hlong, fun h => hlong (h.2 (isLegalKey_eq_true _)).1⟩

end Evfs

end LibNax
