import LibNax.Evfs.Catalog
import LibNax.Evfs.Reopen

/-!
# Entries by key

The calls of `evfs.c` that make, open and erase entries, in any order and number and with any keys,
with closing and opening of the file in between.  A handle is taken for the number of its entry.

The index is a search tree of the keys, and what it is for is a map from names to entries.  `Named`
says that it is one: every entry in the list with a key that is not empty has a leaf, and there are
no other leaves.  Since a leaf is found by its key and not by its entry, this needs that no two
entries have the same key, and a creation looks for the key first.  So the invariant of a file
system, `Listed`, has the space, the index and the disk together: closing and opening gives the
same entries only if the keys are on the disk.

Every call takes a reference first, by number or by key, and there are two cases to that for any
entry: it is in use and the reference is taken, or it waits to be freed and nothing happens
(`reference_cases`, `reference_by_name_cases`).  The rest of a call is then about an entry in use
with one reference more.  Erasing gives its own reference back, and whether this is the last one
decides between an entry that is gone, with its leaf and its clusters, and one that waits
(`giveUp_cases`, `Erased`).

What a call does to the other entries is `Stays`: they are there, in the same state and with the
same key, and only their number of references may be another one.  This is transitive, and `Holds
key e`, which is what a creation has promised, is kept by it; so a run keeps the promise until a
call of it erases the entry (`holds_of_run`).  A file of one cluster only has no views, and no
entry can ever be made in it.  None of the invariants speaks about it, and it is a case of its own
(`Barren`).

* `isLegalKey` — the test of the keys, and `isLegalKey_eq_true` — every key passes it.
* `evfsCreateEntry`, `evfsOpenEntryByKey`, `evfsEarseEntry`, `evfsEarseEntryByKey` — the calls.
* `Erased`, `Listed.erase` — what erasing does.
* `NameCall`, `NameCalls`, `Listed.call` — one call as a step.
* `names_kept` — whole runs.

A key that does not fit in 31 bytes destroys the stack, and an entry with an empty key is not in the
index.  A call must not make the file larger and must not run a counter of references over: either
may end anywhere.
-/

set_option autoImplicit false

namespace LibNax

namespace Evfs

open Lib (Run)

/-! ## The calls -/

/-- A character is refused.  The two comparisons with upper case letters cannot both hold. -/
def refusedCharacter (c : Int) : Bool :=
  decide ((c < 0x30 ∨ c > 0x39) ∧ (c < 0x61 ∨ c > 0x7a) ∧ (c < 0x41 ∧ c > 0x5a) ∧
  c ≠ 0x5f ∧ c ≠ 0x2e)

/-- The loop of `__evfs_is_legal_key`: the number of the rounds, unless a character is refused.  The
cursor is never moved, so that `c` is the first character in every round. -/
def legalRounds (c : Int) : Nat → Nat → Option Nat
  | 0, i => some i
  | n + 1, i =>
    if c ≠ 0 then if refusedCharacter c then none else legalRounds c n (i + 1) else some i

/-- `__evfs_is_legal_key`.  A `char` is signed. -/
def isLegalKey (key : List UInt8) : Bool :=
  match legalRounds (Int.bmod (key.headD 0).toNat 256) maxEntryNameLength 0 with
  | none => false
  | some i => decide (i ≠ maxEntryNameLength - 1)

/-- `evfs_create_entry`: the entry of the handle, or a status. -/
def evfsCreateEntry (s : Fs) (key : List UInt8) : Option (Except Int Int × Fs) :=
  if isLegalKey key then
    (createOne s (some key)).map fun r => (if nspSuccess r.1 then .ok r.2.1 else .error (-1), r.2.2)
  else some (.error eInval, s)

/-- `evfs_open_entry`. -/
def evfsOpenEntry (s : Fs) (entryId : Int) : Except Int Int × Fs :=
  if entryId < 0 then (.error eInval, s)
  else
    let r := openOne s entryId
    (if nspSuccess r.1 then .ok entryId else .error r.1, r.2)

/-- `evfs_open_entry_by_key`. -/
def evfsOpenEntryByKey (s : Fs) (key : List UInt8) : Option (Except Int Int × Fs) :=
  if isLegalKey key then
    (openOneByName s key).map fun r =>
      (match r.1 with
        | .error _ => .error (-1)
        | .ok e => .ok e, r.2)
  else some (.error eInval, s)

/-- `evfs_close_entry`, for a handle of the entry. -/
def evfsCloseEntry (s : Fs) (entryId : Int) : Option Fs :=
  if entryId > 0 then closeOne s entryId else some s

/-- `evfs_earse_entry`, for a handle of the entry. -/
def evfsEarseEntry (s : Fs) (entryId : Int) : Option (Int × Fs) := hardDelete s entryId

/-- `evfs_earse_entry_by_key`.  The entry is looked for first, to find the worker that erases it. -/
def evfsEarseEntryByKey (s : Fs) (key : List UInt8) : Option (Int × Fs) :=
  (getEntryIdByName s key).bind fun r =>
    if r.1 ≤ 0 then some (eNoent, r.2) else hardDeleteByName r.2 key

theorem legalRounds_eq (c : Int) (n : Nat) : ∀ i,
    legalRounds c n i = some (if c ≠ 0 then i + n else i) := by
  have hno : refusedCharacter c = false := by
    rw [refusedCharacter, decide_eq_false_iff_not]
    omega
  induction n with
  | zero =>
    intro i
    rw [legalRounds, Nat.add_zero, ite_self]
  | succ n ih =>
    intro i
    rw [legalRounds, hno]
    split
    · rename_i hc
      rw [if_neg Bool.false_ne_true, ih, if_pos hc]
      exact congrArg some (Nat.add_right_comm i 1 n)
    · rfl

/-- **Every key is legal**: the test makes no round, or one too many. -/
theorem isLegalKey_eq_true (key : List UInt8) : isLegalKey key = true := by
  have hrounds : ∀ c : Int, ∃ i, legalRounds c maxEntryNameLength 0 = some i ∧
      i ≠ maxEntryNameLength - 1 := fun c => by
    refine ⟨_, legalRounds_eq c maxEntryNameLength 0, ?_⟩
    rw [maxEntryNameLength]
    split
    · omega
    · omega
  obtain ⟨i, heq, hne⟩ := hrounds (Int.bmod (key.headD 0).toNat 256)
  unfold isLegalKey
  simp only [heq]
  exact decide_eq_true hne

/-! ## References -/

variable {s s' : Fs} {e : Int} {key : List UInt8}

/-- Every entry can be referenced. -/
def Fs.Roomy (s : Fs) : Prop := ∀ e ∈ s.entries, (s.heads e).Room

instance (s : Fs) : Decidable s.Roomy := inferInstanceAs (Decidable (∀ e ∈ _, _))

theorem Fs.Roomy.for (h : s.Roomy) (e : Int) : s.RoomFor e := h e

/-- The counters of a head are not negative, and can go up by one. -/
structure Head.Counts (head : Head) : Prop where
  room : head.Room
  refcnt : 0 ≤ head.refcnt
  ioRefcnt : 0 ≤ head.ioRefcnt

theorem Fs.RoomFor.counts (hroom : s.RoomFor e) (h : Space s.eased []) (he : e ∈ s.entries) :
    (s.heads e).Counts :=
  ⟨hroom he, (h.entry e he).refcnt, (h.entry e he).ioRefcnt⟩

theorem check_normal (h : s.Live e) (hc : (s.heads e).Counts) :
    checkReferenceCondition s e .normal = (0, s.setHead e ((s.heads e).bump 1)) := by
  rw [Head.bump, ← int32_succ hc.refcnt hc.room.1, ← int32_succ hc.ioRefcnt hc.room.2]
  exact if_neg (not_not_intro h.1)

theorem check_opened (h : s.Live e) (hc : (s.heads e).Counts) :
    checkReferenceCondition s e .opened = (0, s.setHead e ((s.heads e).bump 0)) := by
  rw [Head.bump, Int.add_zero, ← int32_succ hc.refcnt hc.room.1]
  exact if_neg (not_not_intro h.1)

theorem Fs.Waits.not_normal (h : s.Waits e) : (s.heads e).state ≠ .normal := by
  rw [h.1]
  decide

theorem check_normal_waits (h : s.Waits e) : checkReferenceCondition s e .normal = (eAcces, s) :=
  if_pos h.not_normal

theorem check_opened_waits (h : s.Waits e) : checkReferenceCondition s e .opened = (eAcces, s) :=
  if_pos h.not_normal

theorem nspSuccess_eAcces : nspSuccess eAcces = false := by
  decide

/-- A reference by number is taken to an entry in use, beside entries that wait. -/
theorem referenceHead_cases (h : Space s.eased []) (hstate : ∀ e ∈ s.entries, s.Live e ∨ s.Waits e)
    {id : Int} (hroom : s.RoomFor id) :
    (id ∈ s.entries ∧ s.Live id ∧
      referenceHead s id .normal = (.ok id, s.setHead id ((s.heads id).bump 1)) ∧
      referenceHead s id .opened = (.ok id, s.setHead id ((s.heads id).bump 0))) ∨
    ∃ status, status < 0 ∧ ∀ permission, permission = .normal ∨ permission = .opened →
      referenceHead s id permission = (.error status, s) := by
  have hsearch : searchHead s id = if id ∈ s.entries then some id else none :=
    Evfs.searchHead_eq h id
  by_cases he : id ∈ s.entries
  · rcases hstate id he with hl | hw
    · have hc := hroom.counts h he
      refine .inl ⟨he, hl, ?_, ?_⟩
      · rw [referenceHead, hsearch, if_pos he]
        simp only [check_normal hl hc, nspSuccess_zero, if_true]
      · rw [referenceHead, hsearch, if_pos he]
        simp only [check_opened hl hc, nspSuccess_zero, if_true]
    · refine .inr ⟨eAcces, by decide, ?_⟩
      rintro permission (rfl | rfl)
      · rw [referenceHead, hsearch, if_pos he]
        simp only [check_normal_waits hw, nspSuccess_eAcces, Bool.false_eq_true, if_false]
      · rw [referenceHead, hsearch, if_pos he]
        simp only [check_opened_waits hw, nspSuccess_eAcces, Bool.false_eq_true, if_false]
  · refine .inr ⟨eNoent, by decide, fun permission _ => ?_⟩
    rw [referenceHead, hsearch, if_neg he]

namespace Listed

theorem searchHead_eq (h : Listed s) (id : Int) :
    searchHead s id = if id ∈ s.entries then some id else none :=
  Evfs.searchHead_eq h.stored.space id

/-- A reference by number is taken to an entry in use. -/
theorem reference_cases (h : Listed s) {id : Int} (hroom : s.RoomFor id) :
    (id ∈ s.entries ∧ s.Live id ∧
      referenceHead s id .normal = (.ok id, s.setHead id ((s.heads id).bump 1)) ∧
      referenceHead s id .opened = (.ok id, s.setHead id ((s.heads id).bump 0))) ∨
    ∃ status, status < 0 ∧ ∀ permission, permission = .normal ∨ permission = .opened →
      referenceHead s id permission = (.error status, s) :=
  referenceHead_cases h.stored.space h.state hroom

/-- A reference by key is taken to the entry in use with the key. -/
theorem reference_by_name_cases (h : Listed s) (hroom : s.Roomy) (hfits : Fits key) :
    (∃ e ∈ s.entries, s.Live e ∧ s.name e = nameOf key ∧ nameOf key ≠ [] ∧
      referenceHeadByName s key .normal = some (.ok e, s.setHead e ((s.heads e).bump 1)) ∧
      referenceHeadByName s key .opened = some (.ok e, s.setHead e ((s.heads e).bump 0))) ∨
    ((∀ e ∈ s.entries, s.Live e → s.name e = nameOf key → nameOf key = []) ∧
      ∃ status, status < 0 ∧ ∀ permission, permission = .normal ∨ permission = .opened →
        referenceHeadByName s key permission = some (.error status, s)) := by
  by_cases hfound : ∃ e, searchNamedHead s key = some (some e)
  · obtain ⟨e, hsearch⟩ := hfound
    obtain ⟨-, he, hname, hne⟩ := h.named.of_search hsearch
    rcases h.state e he with hl | hw
    · have hc := (hroom.for e).counts h.stored.space he
      refine .inl ⟨e, he, hl, hname, hne, ?_, ?_⟩
      · rw [referenceHeadByName, hsearch]
        simp only [Option.map_some, check_normal hl hc, nspSuccess_zero, if_true]
      · rw [referenceHeadByName, hsearch]
        simp only [Option.map_some, check_opened hl hc, nspSuccess_zero, if_true]
    · refine .inr ⟨fun e' he' hl hname' => ?_, eAcces, by decide, ?_⟩
      · by_contra hne'
        have heq := h.named.eq_of_name_eq he' he (hname'.trans hname.symm) (hname' ▸ hne')
        exact hw.not_normal (heq ▸ hl.1)
      · rintro permission (rfl | rfl)
        · rw [referenceHeadByName, hsearch]
          simp only [Option.map_some, check_normal_waits hw, nspSuccess_eAcces, Bool.false_eq_true,
            if_false]
        · rw [referenceHeadByName, hsearch]
          simp only [Option.map_some, check_opened_waits hw, nspSuccess_eAcces, Bool.false_eq_true,
            if_false]
  · have hnone : searchNamedHead s key = some none := by
      cases hcase : searchNamedHead s key with
      | none =>
        rw [searchNamedHead, if_pos (show
          (cstring key).length < maxEntryNameLength from hfits)] at hcase
        cases hcase
      | some found =>
        cases found with
        | none => rfl
        | some e => exact absurd ⟨e, hcase⟩ hfound
    refine .inr ⟨fun e he _ hname => ?_, eNoent, by decide, fun permission _ => ?_⟩
    · by_contra hne
      exact hfound ⟨e, h.named.search_eq hfits he hname hne⟩
    · rw [referenceHeadByName, hnone]
      rfl

end Listed

/-! ## Erasing -/

/-- The end of `evfs_entries_hard_delete` and of `evfs_entries_hard_delete_by_name`. -/
def deleteReferenced (s : Fs) (e : Int) : Option Fs :=
  dereferenceHead (tryDeleteHead
  (s.setHead e { s.heads e with hardRemoveOnDetach := true }) e .normal)
    e .normal

/-- An entry without a handle is freed, another one waits. -/
theorem deleteReferenced_eq (hio : 0 ≤ (s.heads e).ioRefcnt) (href : 0 ≤ (s.heads e).refcnt) :
    deleteReferenced (s.setHead e ((s.heads e).bump 1)) e = some
      (giveUp s e (s.heads e).waiting) := by
  have hpos : 0 < ((s.setHead e ((s.heads e).bump 1)).heads e).refcnt := by
    rw [setHead_heads_self]
    show 0 < (s.heads e).refcnt + 1
    omega
  have hheads : ∀ head, ((s.setHead e head).heads e) = head := setHead_heads_self s e
  rw [deleteReferenced, tryDelete_eq hpos, setHead_setHead, hheads,
    dereferenceHead_normal_eq, hheads]
  · show some (giveUp _ e ((s.heads e).waiting.bump 1 |>.drop 1)) = _
    rw [Head.drop_bump, giveUp, giveUp, setHead_setHead]
  · rw [hheads]
    show 0 < (s.heads e).refcnt + 1
    omega
  · rw [hheads]
    show 0 < (s.heads e).ioRefcnt + 1
    omega

/-- The entry `e` was erased: it is gone, or it waits for its handles. -/
structure Erased (s s' : Fs) (e : Int) : Prop where
  listed : Listed s'
  entries : ∀ e', e' ≠ e → (e' ∈ s'.entries ↔ e' ∈ s.entries)
  heads : ∀ e', e' ≠ e → s'.heads e' = s.heads e'
  gone : (s.heads e).refcnt = 0 → e ∉ s'.entries
  waits : e ∈ s'.entries → s'.Waits e

theorem Fs.Live.congr (h : s.Live e) (hhead : s'.heads e = s.heads e) : s'.Live e := by
  rw [Fs.Live, hhead]
  exact h

theorem Fs.Waits.congr (h : s.Waits e) (hhead : s'.heads e = s.heads e) : s'.Waits e := by
  rw [Fs.Waits, hhead]
  exact h

/-- An entry that gives its last reference up is gone, another one waits. -/
theorem giveUp_cases (h : Space s.eased []) (he : e ∈ s.entries) :
    (Deleted s.eased (giveUp s e (s.heads e).waiting).eased e ∧
      (giveUp s e (s.heads e).waiting).entries = s.entries.erase e ∧
      (∀ e', e' ≠ e → (giveUp s e (s.heads e).waiting).heads e' = s.heads e') ∧
      giveUp s e (s.heads e).waiting = freeHead (s.setHead e (s.heads e).waiting) e) ∨
    ((s.heads e).refcnt ≠ 0 ∧ (s.setHead e (s.heads e).waiting).Waits e ∧
      giveUp s e (s.heads e).waiting = s.setHead e (s.heads e).waiting) := by
  have heased : (s.setHead e (s.heads e).waiting).eased = s.eased := eased_setHead_self rfl
  have hhead : ((s.setHead e (s.heads e).waiting).heads e).hardRemoveOnDetach = true := by
    rw [setHead_heads_self]
    rfl
  rw [giveUp]
  split
  · have hdel := freeHead_eased (s := s.setHead e (s.heads e).waiting) (heased.symm ▸ h) he hhead
    obtain ⟨head, heq⟩ := freeHead_setHead_hard (s := s) (e := e) (s.heads e).waiting rfl rfl
    refine .inl ⟨heased ▸ hdel, hdel.entries, fun e' hne => ?_, rfl⟩
    rw [heq]
    show ((detachHead s e).setHead e head).heads e' = _
    rw [setHead_heads_ne _ hne, detachHead_heads]
  · rename_i hwait
    have hcount : (s.heads e).refcnt ≠ 0 := fun hz => hwait ⟨hz, rfl⟩
    have hnonneg := (h.entry e he).refcnt
    refine .inr ⟨hcount, ?_, rfl⟩
    rw [Fs.Waits, setHead_heads_self]
    refine ⟨rfl, rfl, ?_⟩
    show 0 < (s.heads e).refcnt
    exact lt_of_le_of_ne hnonneg (Ne.symm hcount)

/-- **Erasing** an entry in use. -/
theorem Listed.erase (h : Listed s) (he : e ∈ s.entries) :
    Erased s (giveUp s e (s.heads e).waiting) e := by
  have heased : (s.setHead e (s.heads e).waiting).eased = s.eased := eased_setHead_self rfl
  have hnamed : Named (s.setHead e (s.heads e).waiting) := by
    refine h.named.same ⟨rfl, rfl, fun e' _ => ?_⟩
    by_cases hee : e' = e
    · rw [hee, setHead_heads_self]
      rfl
    · rw [setHead_heads_ne s hee]
  have hhead : ((s.setHead e (s.heads e).waiting).heads e).hardRemoveOnDetach = true := by
    rw [setHead_heads_self]
    rfl
  rcases giveUp_cases h.stored.space he with ⟨hdel, hentries, hheads, heq⟩ | ⟨hcount, hwaits, heq⟩
  · have hgone : e ∉ (giveUp s e (s.heads e).waiting).entries := by
      rw [hentries]
      exact h.nodup.not_mem_erase
    refine ⟨⟨h.stored.deleted hdel, fun e' he' => ?_, ?_⟩, fun e' hne => ?_, hheads,
      fun _ => hgone, fun hmem => absurd hmem hgone⟩
    · rw [hentries, h.nodup.mem_erase_iff] at he'
      exact (h.state e' he'.2).imp (fun hl => hl.congr (hheads e' he'.1))
        fun hw => hw.congr (hheads e' he'.1)
    · rw [heq]
      exact hnamed.freeHead h.nodup he hhead
    · rw [hentries, h.nodup.mem_erase_iff, and_iff_right hne]
  · have hstored : Stored (s.setHead e (s.heads e).waiting).eased := heased ▸ h.stored
    rw [heq]
    refine ⟨⟨hstored, fun e' he' => ?_, hnamed⟩, fun e' _ => Iff.rfl,
      fun e' hne => setHead_heads_ne s hne _, fun hz => absurd hz hcount, fun _ => hwaits⟩
    by_cases hee : e' = e
    · exact .inr (hee ▸ hwaits)
    · exact (h.state e' he').imp (fun hl => hl.congr (setHead_heads_ne s hee _))
        fun hw => hw.congr (setHead_heads_ne s hee _)

/-! ## Creating, opening and closing -/

/-- The entry is in use and has the key. -/
structure Holds (key : List UInt8) (e : Int) (s : Fs) : Prop where
  mem : e ∈ s.entries
  live : s.Live e
  name : s.name e = nameOf key

/-- The entries of `s` are there, and as they were but for the number of their references. -/
structure Stays (s s' : Fs) : Prop where
  entries : ∀ e ∈ s.entries, e ∈ s'.entries
  key : ∀ e ∈ s.entries, (s'.heads e).key = (s.heads e).key
  live : ∀ e ∈ s.entries, s.Live e → s'.Live e
  waits : ∀ e ∈ s'.entries, s'.Waits e → e ∈ s.entries ∧ s.Waits e

theorem Stays.refl (s : Fs) : Stays s s :=
  ⟨fun _ he => he, fun _ _ => rfl, fun _ _ hl => hl, fun _ he hw => ⟨he, hw⟩⟩

theorem Fs.Live.not_waits (h : s.Live e) : ¬s.Waits e := fun hw => hw.not_normal h.1

theorem Holds.stays (h : Holds key e s) (hs : Stays s s') : Holds key e s' := by
  refine ⟨hs.entries e h.mem, hs.live e h.mem h.live, ?_⟩
  rw [Fs.name, hs.key e h.mem]
  exact h.name

/-- The number of references to an entry in use has changed. -/
theorem Listed.setCount (h : Listed s) (he : e ∈ s.entries) (hl : s.Live e) {n : Int} (hn : 0 ≤ n) :
    Listed (s.setHead e { s.heads e with refcnt := n }) ∧
      Stays s (s.setHead e { s.heads e with refcnt := n }) := by
  have hkey : ∀ e', ((s.setHead e { s.heads e with refcnt := n }).heads e').key =
      (s.heads e').key := by
    intro e'
    by_cases hee : e' = e
    · rw [hee, setHead_heads_self]
    · rw [setHead_heads_ne s hee]
  have hlive : (s.setHead e { s.heads e with refcnt := n }).Live e := by
    rw [Fs.Live, setHead_heads_self]
    exact hl
  have hstored : Stored (s.setHead e { s.heads e with refcnt := n }).eased := by
    rw [eased_setHead]
    refine h.stored.setRefs (h.stored.space.setHead (fun _ => rfl) fun _ => ?_) rfl rfl
    exact { h.stored.space.entry e he with refcnt := hn }
  refine ⟨⟨hstored, fun e' he' => ?_, h.named.same ⟨rfl, rfl, fun e' _ => hkey e'⟩⟩,
    fun _ he' => he', fun e' _ => hkey e', fun e' _ hl' => ?_, fun e' he' hw => ⟨he', ?_⟩⟩
  · by_cases hee : e' = e
    · exact .inl (hee ▸ hlive)
    · exact (h.state e' he').imp (fun hl => hl.congr (setHead_heads_ne s hee _))
        fun hw => hw.congr (setHead_heads_ne s hee _)
  · by_cases hee : e' = e
    · exact hee ▸ hlive
    · exact hl'.congr (setHead_heads_ne s hee _)
  · by_cases hee : e' = e
    · exact absurd (hee ▸ hw) hlive.not_waits
    · exact hw.congr (setHead_heads_ne s hee _).symm

theorem bump_zero (head : Head) : head.bump 0 = { head with refcnt := head.refcnt + 1 } := by
  rw [Head.bump, Int.add_zero]

theorem drop_zero (head : Head) : head.drop 0 = { head with refcnt := head.refcnt - 1 } := by
  rw [Head.drop, Int.sub_zero]

theorem Listed.openOne (h : Listed s) {id : Int} (hroom : s.RoomFor id) :
    Listed (openOne s id).2 ∧ Stays s (openOne s id).2 := by
  rcases h.reference_cases hroom with ⟨he, hl, -, href⟩ | ⟨status, -, href⟩
  · rw [Evfs.openOne, href, bump_zero]
    have hnonneg := (h.stored.space.entry id he).refcnt
    exact h.setCount he hl (show 0 ≤ (s.heads id).refcnt + 1 from Int.le_add_one hnonneg)
  · rw [Evfs.openOne, href .opened (.inr rfl)]
    exact ⟨h, .refl s⟩

/-- A handle is closed, where one is open. -/
theorem closeOne_cases (h : Space s.eased []) (hstate : ∀ e ∈ s.entries, s.Live e ∨ s.Waits e)
    {id : Int} (hroom : s.RoomFor id) (heq : closeOne s id = some s') :
    s' = s ∨ (id ∈ s.entries ∧ s.Live id ∧
      0 < (s.heads id).refcnt ∧
      s' = s.setHead id { s.heads id with refcnt := (s.heads id).refcnt - 1 }) := by
  rcases referenceHead_cases h hstate hroom with ⟨he, hl, -, href⟩ | ⟨status, -, href⟩
  · have hnonneg : 0 ≤ (s.heads id).refcnt := (h.entry id he).refcnt
    have hgive : ∀ head : Head, head.state = .normal → giveUp s id head = s.setHead id head := by
      intro head hs
      refine if_neg fun hc => ?_
      rw [hs] at hc
      cases hc.2
    rw [Evfs.closeOne, href] at heq
    simp only at heq
    have hopened : 0 < ((s.setHead id ((s.heads id).bump 0)).heads id).refcnt := by
      rw [setHead_heads_self]
      exact Int.lt_add_one_of_le hnonneg
    rw [dereferenceHead_opened_eq hopened, setHead_heads_self, Head.drop_bump, giveUp,
      setHead_setHead, ← giveUp, hgive _ hl.1] at heq
    have hself : s.setHead id (s.heads id) = s := by rw [Fs.setHead, Function.update_eq_self]
    rw [hself, Option.bind_some] at heq
    by_cases hpos : 0 < (s.heads id).refcnt
    · rw [dereferenceHead_opened_eq hpos, drop_zero,
        hgive { s.heads id with refcnt := (s.heads id).refcnt - 1 } hl.1] at heq
      cases heq
      exact .inr ⟨he, hl, hpos, rfl⟩
    · rw [dereferenceHead, if_pos (.inl (Int.not_lt.mp hpos))] at heq
      cases heq
  · rw [Evfs.closeOne, href .opened (.inr rfl)] at heq
    cases heq
    exact .inl rfl

theorem Listed.closeOne (h : Listed s) {id : Int} (hroom : s.RoomFor id)
    (heq : closeOne s id = some s') : Listed s' ∧ Stays s s' := by
  rcases closeOne_cases h.stored.space h.state hroom heq with rfl | ⟨he, hl, hpos, rfl⟩
  · exact ⟨h, .refl s'⟩
  · exact h.setCount he hl (Int.sub_nonneg_of_le hpos)

/-- A new entry, opened once, beside entries that wait. -/
structure Made (s s' : Fs) (v : Int) (key : List UInt8) : Prop where
  created : Created s.eased s'.eased v key
  live : s'.Live v
  entries : s'.entries = s.entries ++ [v]
  heads : ∀ e, e ≠ v → s'.heads e = s.heads e
  key_self : (s'.heads v).key = key
  named : ∃ vol, s'.rootOfNamedEntriesTree =
    (insertHead ((s.setVol vol).setHead v (.fresh key)) v).rootOfNamedEntriesTree

/-- A new entry is opened. -/
theorem Entered.opened {s₁ : Fs} {v : Int} (hent : Entered s s₁ v key) : ∃ s',
    referenceHead s₁ v .opened = (.ok v, s') ∧ Made s s' v key := by
  obtain ⟨vol, hs₁⟩ := hent.entered
  have hhead : s₁.heads v = .fresh key := by
    rw [hs₁, insertHead_heads, setHead_heads_self]
  have hentries : s₁.entries = s.entries ++ [v] := by
    rw [hs₁, insertHead_entries]
    rfl
  have hmem : v ∈ s₁.entries := by
    rw [hentries]
    exact List.mem_append_right _ (List.mem_singleton_self v)
  have hlive : s₁.Live v := by
    rw [Fs.Live, hhead]
    exact ⟨rfl, rfl⟩
  have hcounts : (s₁.heads v).Counts := by
    rw [hhead]
    exact ⟨⟨show (0 : Int) < _ by decide, show (0 : Int) < _ by decide⟩, le_rfl, le_rfl⟩
  have href : referenceHead s₁ v .opened = (.ok v, s₁.setHead v ((s₁.heads v).bump 0)) := by
    have hsearch : searchHead s₁ v = some v :=
      (Evfs.searchHead_eq hent.inserted.space v).trans (if_pos hmem)
    rw [referenceHead, hsearch]
    simp only [check_opened hlive hcounts, nspSuccess_zero, if_true]
  obtain ⟨s'', href', hcreated⟩ := hent.inserted.opened
  rw [referenceHead_opened hent.inserted.space fun _ => hcounts.room,
    if_pos (show v ∈ s₁.eased.entries from hmem)] at href'
  cases href'
  refine ⟨_, href, ?_, ?_, hentries, fun e hne => ?_, ?_, vol, ?_⟩
  · rw [eased_setHead]
    exact hcreated
  · rw [Fs.Live, setHead_heads_self]
    exact hlive
  · rw [setHead_heads_ne _ hne, hs₁, insertHead_heads, setHead_heads_ne _ hne]
    rfl
  · rw [setHead_heads_self, hhead]
    rfl
  · show s₁.rootOfNamedEntriesTree = _
    rw [hs₁]

/-- A creation succeeds where the new entry is in the list. -/
theorem createNew_of_inserted {s₁ : Fs} (h : Space s.eased []) {key : Option (List UInt8)} {v : Int}
    (heq : insertNew s key = (0, v, s₁)) :
    ∃ s', createNew s key = (0, v, s') ∧ Made s s' v (newKey key) := by
  rcases insertNew_spec_eased h key with ⟨w, s₂, hc, hent⟩ | ⟨r, s₂, hc, hneg, -⟩
  · rw [heq] at hc
    cases hc
    obtain ⟨s', href, hmade⟩ := hent.opened
    refine ⟨s', ?_, hmade⟩
    rw [createNew_eq, heq, openNew]
    simp only [nspSuccess_zero, if_true, href]
  · rw [heq] at hc
    cases hc
    exact absurd hneg (lt_irrefl 0)

theorem createNew_spec_eased (h : Space s.eased []) (key : Option (List UInt8)) :
    (∃ v s', createNew s key = (0, v, s') ∧ Made s s' v (newKey key)) ∨
      ∃ r s', createNew s key = (r, 0, s') ∧ r < 0 ∧ Spared s s' := by
  rcases insertNew_spec_eased h key with ⟨v, s₁, heq, -⟩ | ⟨r, s₁, heq, hneg, hspared⟩
  · obtain ⟨s', hc, hmade⟩ := createNew_of_inserted h heq
    exact .inl ⟨v, s', hc, hmade⟩
  · refine .inr ⟨r, s₁, ?_, hneg, hspared⟩
    rw [createNew_eq, heq, openNew_of_not (by simpa [nspSuccess] using hneg)]

theorem Made.notMem (h : Made s s' e key) (hspace : Space s.eased []) : e ∉ s.entries := fun hmem =>
  h.created.notMem (hspace.mem_busy hmem List.mem_cons_self)

theorem Made.mem_self (h : Made s s' e key) : e ∈ s'.entries := by
  rw [h.entries]
  exact List.mem_append_right _ (List.mem_singleton_self e)

theorem Made.mem_of_ne (h : Made s s' e key) {e' : Int} (he' : e' ∈ s'.entries) (hne : e' ≠ e) :
    e' ∈ s.entries := by
  rw [h.entries] at he'
  exact (List.mem_append.mp he').resolve_right fun heq => hne (List.mem_singleton.mp heq)

/-- A new entry, whose key is empty or not the one of another entry. -/
theorem Listed.made (h : Listed s) (hm : Made s s' e key) (hlen : key.length = maxEntryNameLength)
    (hnew : ∀ e' ∈ s.entries, s.name e' = nameOf key → nameOf key = [])
    (hfsize : s'.vol.fsize = s.vol.fsize) : Listed s' ∧ Stays s s' ∧ Holds key e s' := by
  have hv := hm.notMem h.stored.space
  have hold := hm.heads
  have hnamed : Named s' := by
    obtain ⟨vol, hvol⟩ := hm.named
    refine (Named.insert (s := (s.setVol vol).setHead e (.fresh key)) (e := e)
      (h.named.same ⟨rfl, rfl, fun e' he => ?_⟩) fun e' he hn => ?_).same
        ⟨hvol, by rw [hm.entries, insertHead_entries]; rfl, fun e' _ => ?_⟩
    · rw [setHead_heads_ne _ (ne_of_mem_of_not_mem he hv)]
      rfl
    · have hne : e' ≠ e := ne_of_mem_of_not_mem (show e' ∈ s.entries from he) hv
      rw [Fs.name, Fs.name, setHead_heads_self, setHead_heads_ne _ hne] at hn
      rw [Fs.name, setHead_heads_self]
      exact hnew e' he hn
    · rw [insertHead_heads]
      by_cases hev : e' = e
      · rw [hev, setHead_heads_self, hm.key_self]
        rfl
      · rw [setHead_heads_ne _ hev, hold e' hev]
        rfl
  refine ⟨⟨h.stored.created hm.created hlen hfsize, fun e' he => ?_, hnamed⟩,
    ⟨fun e' he => ?_, fun e' he => ?_, fun e' he hl => ?_, fun e' he hw => ?_⟩,
    hm.mem_self, hm.live, by rw [Fs.name, hm.key_self]⟩
  · by_cases hev : e' = e
    · exact .inl (hev ▸ hm.live)
    · exact (h.state e' (hm.mem_of_ne he hev)).imp (fun hl => hl.congr (hold e' hev))
        fun hw => hw.congr (hold e' hev)
  · rw [hm.entries]
    exact List.mem_append_left _ he
  · rw [hold e' (ne_of_mem_of_not_mem he hv)]
  · exact hl.congr (hold e' (ne_of_mem_of_not_mem he hv))
  · by_cases hev : e' = e
    · exact absurd (hev ▸ hw) hm.live.not_waits
    · exact ⟨hm.mem_of_ne he hev, hw.congr (hold e' hev).symm⟩

/-- A creation that failed. -/
theorem Listed.spared (h : Listed s) (hs : Spared s s') (hfsize : s'.vol.fsize = s.vol.fsize) :
    Listed s' ∧ Stays s s' := by
  have hentries : s'.entries = s.entries := hs.kept.entries
  refine ⟨⟨h.stored.kept hs.kept hfsize, fun e he => ?_, h.named.same ⟨hs.named, hentries,
    fun e he => by rw [hs.heads e he]⟩⟩, fun e he => hentries ▸ he,
      fun e he => by rw [hs.heads e he], fun e he hl => hl.congr (hs.heads e he),
      fun e he hw => ⟨hentries ▸ he, hw.congr (hs.heads e (hentries ▸ he)).symm⟩⟩
  have hmem : e ∈ s.entries := hentries ▸ he
  exact (h.state e hmem).imp (fun hl => hl.congr (hs.heads e hmem))
    fun hw => hw.congr (hs.heads e hmem)

/-- A search that returns was made with a key that fits. -/
theorem fits_of_search {found : Option Int} (hsearch : searchNamedHead s key = some found) :
    Fits key := by
  by_contra hno
  rw [searchNamedHead, if_neg (show ¬(cstring key).length < maxEntryNameLength from hno)] at hsearch
  cases hsearch

/-- A key that is not found is new, or empty. -/
theorem Listed.new_of_search (h : Listed s) (hsearch : searchNamedHead s key = some none) :
    ∀ e ∈ s.entries, s.name e = nameOf key → nameOf key = [] := fun e he hname => by
  by_contra hne
  rw [h.named.search_eq (fits_of_search hsearch) he hname hne] at hsearch
  cases hsearch

/-- **Creating** an entry with a key. -/
theorem Listed.createNew (h : Listed s) (hfits : Fits key) (hidle : s.vol.idle ≠ [])
    (hnew : ∀ e ∈ s.entries, s.name e = nameOf key → nameOf key = []) :
    Listed (createNew s (some key)).2.2 ∧ Stays s (createNew s (some key)).2.2 ∧
      (nspSuccess (createNew s (some key)).1 = true →
        Holds key (createNew s (some key)).2.1 (createNew s (some key)).2.2) := by
  have hname : nameOf (newKey (some key)) = nameOf key := nameOf_storedKey hfits
  have hfsize := createNew_fsize (s := s) h.stored.space.vol hidle (some key)
  rcases createNew_spec_eased h.stored.space (some key) with ⟨v, s₁, heq, hmade⟩ |
    ⟨r, s₁, heq, hneg, hspared⟩
  · obtain ⟨hlisted, hstays, hmem, hlive, hholds⟩ := h.made hmade (length_newKey (some key))
      (by rw [hname]; exact hnew) (by rw [← hfsize, heq])
    rw [heq]
    exact ⟨hlisted, hstays, fun _ => ⟨hmem, hlive, hholds.trans hname⟩⟩
  · obtain ⟨hlisted, hstays⟩ := h.spared hspared (by rw [← hfsize, heq])
    have hno : ¬nspSuccess r = true := by simpa [nspSuccess] using hneg
    rw [heq]
    exact ⟨hlisted, hstays, fun hok => absurd hok hno⟩

/-! ## The calls of `evfs.c` -/

theorem Listed.createEntry (h : Listed s) {r : Except Int Int}
    (hdemand : s.clustersToCreate (some key) ≤ s.vol.idle.length)
    (heq : evfsCreateEntry s key = some (r, s')) :
    Listed s' ∧ Stays s s' ∧ ∀ e, r = .ok e → Holds key e s' := by
  rw [evfsCreateEntry, if_pos (isLegalKey_eq_true key)] at heq
  obtain ⟨q, hq, hr⟩ := Option.map_eq_some_iff.mp heq
  rw [Evfs.createOne] at hq
  cases hsearch : searchNamedHead s key with
  | none =>
    rw [hsearch] at hq
    cases hq
  | some found =>
    rw [hsearch] at hq
    cases found with
    | some e =>
      cases hq
      cases hr
      exact ⟨h, .refl s, fun e' he' => by cases he'⟩
    | none =>
      have hfits := fits_of_search hsearch
      have hnew := h.new_of_search hsearch
      have hidle : s.vol.idle ≠ [] := by
        refine idle_of_demand hdemand fun _ hk => ?_
        cases hk
        exact hsearch
      obtain ⟨hlisted, hstays, hholds⟩ := h.createNew hfits hidle hnew
      cases hq
      cases hr
      refine ⟨hlisted, hstays, fun e he => ?_⟩
      split at he
      · rename_i hok
        cases he
        exact hholds hok
      · cases he

theorem Listed.openEntryByKey (h : Listed s) (hroom : s.Roomy) (hfits : Fits key) :
    (∃ e s', evfsOpenEntryByKey s key = some (.ok e, s') ∧ Holds key e s ∧ Listed s' ∧ Stays s s') ∨
    ((∀ e, Holds key e s → nameOf key = []) ∧
      evfsOpenEntryByKey s key = some (.error (-1), s)) := by
  rw [evfsOpenEntryByKey, if_pos (isLegalKey_eq_true key), openOneByName]
  rcases h.reference_by_name_cases hroom hfits with ⟨e, he, hl, hname, -, -, href⟩ |
      ⟨hno, status, -, href⟩
  · have hnonneg := (h.stored.space.entry e he).refcnt
    have hset := h.setCount he hl (show 0 ≤ (s.heads e).refcnt + 1 from Int.le_add_one hnonneg)
    rw [← bump_zero] at hset
    refine .inl ⟨e, _, ?_, ⟨he, hl, hname⟩, hset.1, hset.2⟩
    rw [href]
    rfl
  · refine .inr ⟨fun e he => hno e he.mem he.live he.name, ?_⟩
    rw [href .opened (.inr rfl)]
    rfl

/-- Erasing by number. -/
theorem Listed.earseEntry (h : Listed s) {id : Int} (hroom : s.RoomFor id) :
    (∃ s', evfsEarseEntry s id = some (0, s') ∧ id ∈ s.entries ∧ s.Live id ∧ Erased s s' id) ∨
      ∃ status, status < 0 ∧ evfsEarseEntry s id = some (status, s) := by
  rw [evfsEarseEntry, hardDelete]
  rcases h.reference_cases hroom with ⟨he, hl, href, -⟩ | ⟨status, hneg, href⟩
  · have hok := h.stored.space.entry id he
    refine .inl ⟨_, ?_, he, hl, h.erase he⟩
    rw [href]
    show (deleteReferenced (s.setHead id ((s.heads id).bump 1)) id).map _ = _
    rw [deleteReferenced_eq (s := s) hok.ioRefcnt hok.refcnt]
    rfl
  · refine .inr ⟨status, hneg, ?_⟩
    rw [href .normal (.inl rfl)]

/-- Erasing by key. -/
theorem Listed.earseEntryByKey (h : Listed s) (hroom : s.Roomy) (hfits : Fits key) :
    (∃ e s', evfsEarseEntryByKey s key = some (0, s') ∧ Holds key e s ∧ nameOf key ≠ [] ∧
      Erased s s' e) ∨ evfsEarseEntryByKey s key = some (eNoent, s) := by
  rw [evfsEarseEntryByKey, getEntryIdByName]
  rcases h.reference_by_name_cases hroom hfits with ⟨e, he, hl, hname, hne, href, -⟩ |
    ⟨-, status, hneg, href⟩
  · have hok := h.stored.space.entry e he
    have hio : 0 ≤ (s.heads e).ioRefcnt := hok.ioRefcnt
    have hcount : 0 ≤ (s.heads e).refcnt := hok.refcnt
    have hpos := (h.stored.space.vol.mem_busy (h.stored.space.mem_busy he List.mem_cons_self)).1
    -- the number of the entry is read first, and the reference is given back
    have hderef : dereferenceHead (s.setHead e ((s.heads e).bump 1)) e .normal = some s := by
      rw [dereferenceHead_normal_eq, setHead_heads_self, Head.drop_bump, giveUp, if_neg,
        setHead_setHead,
        Fs.setHead, Function.update_eq_self]
      · rintro ⟨-, hc⟩
        rw [hl.1] at hc
        cases hc
      · rw [setHead_heads_self]
        exact Int.lt_add_one_of_le hcount
      · rw [setHead_heads_self]
        exact Int.lt_add_one_of_le hio
    refine .inl ⟨e, _, ?_, ⟨he, hl, hname⟩, hne, h.erase he⟩
    rw [href]
    simp only [Option.bind_some, hderef, Option.map_some]
    rw [if_neg (by omega), hardDeleteByName, href]
    show (deleteReferenced (s.setHead e ((s.heads e).bump 1)) e).map _ = _
    rw [deleteReferenced_eq hio hcount]
    rfl
  · right
    rw [href .normal (.inl rfl)]
    exact if_pos (Int.le_of_lt hneg)

theorem Erased.holds (h : Erased s s' e) {e' : Int} (hh : Holds key e' s) (hne : e' ≠ e) :
    Holds key e' s' := by
  refine ⟨(h.entries e' hne).mpr hh.mem, hh.live.congr (h.heads e' hne), ?_⟩
  rw [Fs.name, h.heads e' hne]
  exact hh.name

theorem Erased.waits_cases (h : Erased s s' e) {e' : Int} (he' : e' ∈ s'.entries)
    (hw : s'.Waits e') :
    (e' ∈ s.entries ∧ s.Waits e') ∨ (e' = e ∧ (s.heads e).refcnt ≠ 0) := by
  by_cases hee : e' = e
  · exact .inr ⟨hee, fun hz => h.gone hz (hee ▸ he')⟩
  · exact .inl ⟨(h.entries e' hee).mp he', hw.congr (h.heads e' hee).symm⟩

/-! ## One call -/

/-- A call of the interface. -/
inductive NameCall where
  /-- `evfs_create_entry`. -/
  | createEntry (key : List UInt8)
  /-- `evfs_open_entry`. -/
  | openEntry (entryId : Int)
  /-- `evfs_open_entry_by_key`. -/
  | openEntryByKey (key : List UInt8)
  /-- `evfs_close_entry`. -/
  | closeEntry (entryId : Int)
  /-- `evfs_earse_entry`. -/
  | earseEntry (entryId : Int)
  /-- `evfs_earse_entry_by_key`. -/
  | earseEntryByKey (key : List UInt8)
  /-- `evfs_close` and `evfs_open`. -/
  | reopen (garbage : Garbage) (cacheBlockNum : Nat)

/-- The managers after a call, unless it does not return. -/
def NameCall.exec (s : Fs) : NameCall → Option Fs
  | .createEntry key => (evfsCreateEntry s key).map Prod.snd
  | .openEntry entryId => some (evfsOpenEntry s entryId).2
  | .openEntryByKey key => (evfsOpenEntryByKey s key).map Prod.snd
  | .closeEntry entryId => evfsCloseEntry s entryId
  | .earseEntry entryId => (evfsEarseEntry s entryId).map Prod.snd
  | .earseEntryByKey key => (evfsEarseEntryByKey s key).map Prod.snd
  | .reopen garbage cacheBlockNum =>
    (evfsOpen garbage (evfsClose s).2 (evfsClose s).1 cacheBlockNum [] [] []).map Prod.snd

/-- A key of one to 31 bytes. -/
def ProperKey (key : List UInt8) : Prop := cstring key ≠ [] ∧ Fits key

instance (key : List UInt8) : Decidable (ProperKey key) := inferInstanceAs (Decidable (_ ∧ _))

/-- A file is opened again: it is not larger than `evfs_open` takes, it has more than one cluster,
and what `evfs_open` reads of the first cluster fits in a cluster. -/
def Reopenable (s : Fs) : Prop :=
  s.vol.fsize ≤ maximumFileSize ∧ 1 < s.vol.clusterCount ∧
    sizeofCluster + sizeofHrd ≤ s.vol.io.cache.hard.clusterSize

instance (s : Fs) : Decidable (Reopenable s) := inferInstanceAs (Decidable (_ ∧ _))

/-- The key is a proper one, a cluster for a new entry is idle, and the references to an entry do
not run over their counters. -/
def NameCall.Proper (s : Fs) : NameCall → Prop
  | .createEntry key => ProperKey key ∧ s.clustersToCreate (some key) ≤ s.vol.idle.length
  | .openEntryByKey key | .earseEntryByKey key => ProperKey key ∧ s.Roomy
  | .openEntry entryId | .closeEntry entryId | .earseEntry entryId => s.RoomFor entryId
  | .reopen _ _ => Reopenable s

instance (s : Fs) : ∀ c : NameCall, Decidable (c.Proper s)
  | .createEntry _ => inferInstanceAs (Decidable (_ ∧ _))
  | .openEntry entryId => inferInstanceAs (Decidable (s.RoomFor entryId))
  | .openEntryByKey _ => inferInstanceAs (Decidable (_ ∧ _))
  | .closeEntry entryId => inferInstanceAs (Decidable (s.RoomFor entryId))
  | .earseEntry entryId => inferInstanceAs (Decidable (s.RoomFor entryId))
  | .earseEntryByKey _ => inferInstanceAs (Decidable (_ ∧ _))
  | .reopen _ _ => inferInstanceAs (Decidable (Reopenable s))

/-- One call. -/
def NameCalls (s : Fs) (c : NameCall) (s' : Fs) : Prop := c.Proper s ∧ c.exec s = some s'

/-- The call erases the entry `e` with the key. -/
def NameCall.Erases (key : List UInt8) (e : Int) : NameCall → Prop
  | .earseEntry entryId => entryId = e
  | .earseEntryByKey key' => cstring key' = cstring key
  | _ => False

/-- The call erases an entry with an open handle. -/
def NameCall.ErasesOpen (s : Fs) : NameCall → Prop
  | .earseEntry entryId => (s.heads entryId).refcnt ≠ 0
  | .earseEntryByKey key => ∃ e, Holds key e s ∧ (s.heads e).refcnt ≠ 0
  | _ => False

/-- What a call does. -/
structure Called (s : Fs) (c : NameCall) (s' : Fs) : Prop where
  listed : Listed s'
  holds : ∀ key e, Holds key e s → nameOf key ≠ [] → ¬c.Erases key e → Holds key e s'
  waits : ∀ e ∈ s'.entries, s'.Waits e → (e ∈ s.entries ∧ s.Waits e) ∨ c.ErasesOpen s

theorem Stays.called {c : NameCall} (h : Stays s s') (hl : Listed s') : Called s c s' :=
  ⟨hl, fun _ _ hh _ _ => hh.stays h, fun e he hw => .inl (h.waits e he hw)⟩

/-- **One call** keeps the invariant. -/
theorem Listed.call (h : Listed s) {c : NameCall} (hc : NameCalls s c s') : Called s c s' := by
  obtain ⟨hproper, hexec⟩ := hc
  cases c with
  | createEntry key =>
    rw [NameCall.exec, Option.map_eq_some_iff] at hexec
    obtain ⟨⟨r, s₁⟩, hr, rfl⟩ := hexec
    obtain ⟨hl, hs, -⟩ := h.createEntry hproper.2 hr
    exact hs.called hl
  | openEntry id =>
    cases hexec
    rw [evfsOpenEntry]
    split
    · exact (Stays.refl s).called h
    · obtain ⟨hl, hs⟩ := h.openOne hproper
      exact hs.called hl
  | openEntryByKey key =>
    rcases h.openEntryByKey hproper.2 hproper.1.2 with ⟨e, s₁, heq, -, hl, hs⟩ | ⟨-, heq⟩
    · rw [NameCall.exec, heq] at hexec
      cases hexec
      exact hs.called hl
    · rw [NameCall.exec, heq] at hexec
      cases hexec
      exact (Stays.refl s).called h
  | closeEntry id =>
    rw [NameCall.exec, evfsCloseEntry] at hexec
    split at hexec
    · obtain ⟨hl, hs⟩ := h.closeOne hproper hexec
      exact hs.called hl
    · cases hexec
      exact (Stays.refl s).called h
  | earseEntry id =>
    rcases h.earseEntry hproper with ⟨s₁, heq, he, -, herased⟩ | ⟨status, -, heq⟩
    · rw [NameCall.exec, heq] at hexec
      cases hexec
      refine ⟨herased.listed, fun key e hh _ hne => herased.holds hh fun hee => hne hee.symm,
        fun e he' hw => (herased.waits_cases he' hw).imp_right fun hopen => ?_⟩
      exact hopen.2
    · rw [NameCall.exec, heq] at hexec
      cases hexec
      exact (Stays.refl s).called h
  | earseEntryByKey key =>
    rcases h.earseEntryByKey hproper.2 hproper.1.2 with ⟨e, s₁, heq, hh, -, herased⟩ | heq
    · rw [NameCall.exec, heq] at hexec
      cases hexec
      refine ⟨herased.listed, fun key' e' hh' _ hne => herased.holds hh' fun hee => hne ?_,
        fun e' he' hw => (herased.waits_cases he' hw).imp_right fun hopen => ⟨e, hh, hopen.2⟩⟩
      exact nameOf_inj.mp (hh.name.symm.trans (hee ▸ hh'.name))
    · rw [NameCall.exec, heq] at hexec
      cases hexec
      exact (Stays.refl s).called h
  | reopen garbage cacheBlockNum =>
    obtain ⟨hle, -, hsize⟩ := hproper
    rw [maximumFileSize] at hle
    obtain ⟨t, hopen, hl, -, hentries, hlive, hkeys⟩ := h.reopen hsize hle garbage cacheBlockNum
    rw [NameCall.exec, hopen] at hexec
    cases hexec
    refine ⟨hl, fun key e hh _ _ => ?_, fun e he hw => absurd hw (hlive e he).not_waits⟩
    have he := (hentries e).mpr ⟨hh.mem, hh.live⟩
    refine ⟨he, hlive e he, ?_⟩
    rw [Fs.name, hkeys e he]
    exact hh.name

/-! ## Whole runs -/

/-- The entry is gone from the list and from the index, or waits for its handles.  The names of the
others are where they were. -/
structure LeavesOthers (s : Fs) (e : Int) (s' : Fs) : Prop where
  gone : (s.heads e).refcnt = 0 → e ∉ s'.entries ∧
    ∀ leaf ∈ Avl.toList s'.rootOfNamedEntriesTree, leaf.head ≠ e
  waits : e ∈ s'.entries → s'.Waits e
  others : ∀ leaf : NamedLeaf, leaf.head ≠ e →
    (leaf ∈ Avl.toList s'.rootOfNamedEntriesTree ↔ leaf ∈ Avl.toList s.rootOfNamedEntriesTree)

/-- The index, and what the calls make of it. -/
structure Catalogued (s : Fs) : Prop where
  /-- What the calls did is defined. -/
  defined : s.Defined
  /-- No two entries have the same key. -/
  distinct : ∀ e ∈ s.entries, ∀ e' ∈ s.entries, cstring (s.heads e).key ≠ [] →
    cstring (s.heads e).key = cstring (s.heads e').key → e = e'
  /-- The index is a search tree. -/
  ordered : Avl.SearchTree compareNamedEntryHead s.rootOfNamedEntriesTree
  /-- Its leaves are the ones of the entries with a key. -/
  index : ∀ leaf, leaf ∈ Avl.toList s.rootOfNamedEntriesTree ↔ leaf.head ∈ s.entries ∧
    leaf.key = (s.heads leaf.head).key ∧ cstring leaf.key ≠ []
  /-- An entry is in use, or was erased while a handle of it was open. -/
  state : ∀ e ∈ s.entries, s.Live e ∨ s.Waits e
  /-- Calls with a proper key return. -/
  returns : ∀ key, ProperKey key → evfsCreateEntry s key ≠ none ∧
    (s.Roomy → evfsOpenEntryByKey s key ≠ none ∧ evfsEarseEntryByKey s key ≠ none)
  /-- Erasing an entry takes it out, where no handle of it is open, and leaves the names of the
  others. -/
  erase : ∀ e status s', s.RoomFor e → evfsEarseEntry s e = some (status, s') →
    nspSuccess status = true → e ∈ s.entries ∧ LeavesOthers s e s'
  /-- So does erasing by key. -/
  eraseByKey : ∀ key status s', ProperKey key → s.Roomy →
    evfsEarseEntryByKey s key = some (status, s') → nspSuccess status = true → ∃ e ∈ s.entries, cstring (s.heads e).key = cstring key ∧
      LeavesOthers s e s'

theorem nameOf_ne_nil : nameOf key ≠ [] ↔ cstring key ≠ [] := by
  rw [nameOf, ne_eq, List.map_eq_nil_iff]

theorem Erased.leavesOthers (h : Erased s s' e) (hn : Named s) : LeavesOthers s e s' := by
  refine ⟨fun hz => ⟨h.gone hz, fun leaf hleaf hee => h.gone hz ?_⟩, h.waits, fun leaf hne => ?_⟩
  · exact hee ▸ h.listed.named.head leaf hleaf
  · rw [h.listed.named.mem_iff, hn.mem_iff, Fs.name, Fs.name, h.heads _ hne, h.entries _ hne]

/-- Calls with a proper key return. -/
theorem evfsCreateEntry_ne_none (hfits : Fits key) : evfsCreateEntry s key ≠ none := by
  rw [evfsCreateEntry, if_pos (isLegalKey_eq_true key), Evfs.createOne, ne_eq,
    Option.map_eq_none_iff]
  cases hsearch : searchNamedHead s key with
  | none =>
    rw [searchNamedHead, if_pos (show
      (cstring key).length < maxEntryNameLength from hfits)] at hsearch
    cases hsearch
  | some found =>
    cases found with
    | none => exact Option.some_ne_none _
    | some e => exact Option.some_ne_none _

theorem Listed.catalogued (h : Listed s) : Catalogued s := by
  refine ⟨h.stored.steady.defined, fun e he e' he' hne hkey => ?_, ?_, fun leaf => ?_, h.state,
    fun key hproper => ⟨?_, fun hroom => ⟨?_, ?_⟩⟩,
    fun e status s' hroom heq hok => ?_, fun key status s' hproper hroom heq hok => ?_⟩
  · exact h.named.eq_of_name_eq he he' (nameOf_inj.mpr hkey) (nameOf_ne_nil.mpr hne)
  · exact (Avl.searchTree_iff orders_compareNamedEntryHead).mpr h.named.wf.sorted
  · rw [h.named.mem_iff]
    refine and_congr_right fun _ => and_congr_right fun hkey => ?_
    rw [Fs.name, ← hkey, nameOf_ne_nil]
  · exact evfsCreateEntry_ne_none hproper.2
  · rcases h.openEntryByKey hroom hproper.2 with ⟨e, s', heq, -⟩ | ⟨-, heq⟩
    · rw [heq]
      exact Option.some_ne_none _
    · rw [heq]
      exact Option.some_ne_none _
  · rcases h.earseEntryByKey hroom hproper.2 with ⟨e, s', heq, -⟩ | heq
    · rw [heq]
      exact Option.some_ne_none _
    · rw [heq]
      exact Option.some_ne_none _
  · rcases h.earseEntry hroom with ⟨s₁, heq', he, -, herased⟩ | ⟨status', hneg, heq'⟩
    · rw [heq'] at heq
      cases heq
      exact ⟨he, herased.leavesOthers h.named⟩
    · rw [heq'] at heq
      cases heq
      exact absurd (of_decide_eq_true hok) (Int.not_le.mpr hneg)
  · rcases h.earseEntryByKey hroom hproper.2 with ⟨e, s₁, heq', hh, -, herased⟩ | heq'
    · rw [heq'] at heq
      cases heq
      exact ⟨e, hh.mem, nameOf_inj.mp hh.name, herased.leavesOthers h.named⟩
    · rw [heq'] at heq
      cases heq
      exact absurd hok (by decide)

/-! ## A file of one cluster -/

/-- A new file system without a view. -/
structure Barren (s : Fs) : Prop where
  dead : Dead s
  defined : s.Defined
  named : s.rootOfNamedEntriesTree = .nil

namespace Barren

theorem search (h : Barren s) (hfits : Fits key) : searchNamedHead s key = some none := by
  rw [searchNamedHead, if_pos (show (cstring key).length < maxEntryNameLength from hfits), h.named]
  rfl

theorem referenceHeadByName_eq (h : Barren s) (hfits : Fits key) (permission : EntryState) :
    referenceHeadByName s key permission = some (.error eNoent, s) := by
  rw [referenceHeadByName, h.search hfits]
  rfl

theorem evfsCreateEntry_eq (h : Barren s) (hfits : Fits key) :
    evfsCreateEntry s key = some (.error (-1), s) := by
  rw [evfsCreateEntry, if_pos (isLegalKey_eq_true key), createOne, h.search hfits,
    h.dead.createNew_eq]
  rfl

theorem evfsOpenEntryByKey_eq (h : Barren s) (hfits : Fits key) :
    evfsOpenEntryByKey s key = some (.error (-1), s) := by
  rw [evfsOpenEntryByKey, if_pos (isLegalKey_eq_true key), openOneByName,
    h.referenceHeadByName_eq hfits]
  rfl

theorem evfsEarseEntry_eq (h : Barren s) (id : Int) : evfsEarseEntry s id = some (eNoent, s) := by
  rw [evfsEarseEntry, hardDelete, h.dead.referenceHead_eq]

theorem evfsEarseEntryByKey_eq (h : Barren s) (hfits : Fits key) :
    evfsEarseEntryByKey s key = some (eNoent, s) := by
  rw [evfsEarseEntryByKey, getEntryIdByName, h.referenceHeadByName_eq hfits]
  simp only [Option.bind_some]
  exact if_pos (by decide)

/-- No call does anything. -/
theorem call (h : Barren s) {c : NameCall} (hc : NameCalls s c s') : s' = s := by
  obtain ⟨hproper, hexec⟩ := hc
  cases c with
  | createEntry key =>
    rw [NameCall.exec, h.evfsCreateEntry_eq hproper.1.2] at hexec
    cases hexec
    rfl
  | openEntry id =>
    rw [NameCall.exec, evfsOpenEntry, openOne, h.dead.referenceHead_eq] at hexec
    split at hexec
    · cases hexec
      rfl
    · cases hexec
      rfl
  | openEntryByKey key =>
    rw [NameCall.exec, h.evfsOpenEntryByKey_eq hproper.1.2] at hexec
    cases hexec
    rfl
  | closeEntry id =>
    rw [NameCall.exec, evfsCloseEntry, closeOne, h.dead.referenceHead_eq, ite_self] at hexec
    cases hexec
    rfl
  | earseEntry id =>
    rw [NameCall.exec, h.evfsEarseEntry_eq] at hexec
    cases hexec
    rfl
  | earseEntryByKey key =>
    rw [NameCall.exec, h.evfsEarseEntryByKey_eq hproper.1.2] at hexec
    cases hexec
    rfl
  | reopen garbage cacheBlockNum =>
    have hcount := hproper.2.1
    rw [h.dead.count] at hcount
    omega

theorem catalogued (h : Barren s) : Catalogued s := by
  have hno : ∀ e, e ∉ s.entries := fun e he => by
    rw [h.dead.entries] at he
    cases he
  refine ⟨h.defined, fun e he => absurd he (hno e), h.named ▸ trivial, fun leaf => ?_,
    fun e he => absurd he (hno e), fun key hproper => ⟨?_, fun _ => ⟨?_, ?_⟩⟩,
    fun e status s' _ heq hok => ?_, fun key status s' hproper _ heq hok => ?_⟩
  · rw [h.named]
    exact iff_of_false List.not_mem_nil fun hleaf => hno _ hleaf.1
  · rw [h.evfsCreateEntry_eq hproper.2]
    exact Option.some_ne_none _
  · rw [h.evfsOpenEntryByKey_eq hproper.2]
    exact Option.some_ne_none _
  · rw [h.evfsEarseEntryByKey_eq hproper.2]
    exact Option.some_ne_none _
  · rw [h.evfsEarseEntry_eq] at heq
    cases heq
    exact absurd hok (by decide)
  · rw [h.evfsEarseEntryByKey_eq hproper.2] at heq
    cases heq
    exact absurd hok (by decide)

end Barren

/-! ## Runs -/

/-- An entry that is not erased keeps its key. -/
theorem holds_of_run (hne : nameOf key ≠ []) {calls : List NameCall}
    (hrun : Run NameCalls s calls s')
    (hspares : ∀ c ∈ calls, ¬c.Erases key e) (h : Listed s) (hh : Holds key e s) :
    Listed s' ∧ Holds key e s' := by
  induction hrun with
  | nil s => exact ⟨h, hh⟩
  | cons hc _ ih =>
    have hcalled := h.call hc
    exact ih (fun c hmem => hspares c (List.mem_cons_of_mem _ hmem)) hcalled.listed
      (hcalled.holds key e hh hne (hspares _ List.mem_cons_self))

variable {garbage : Garbage} {clusterSize clusterCount status : Int} {s₀ : Fs} {cacheBlockNum : Nat}

/-- A new file system. -/
theorem listed_of_evfsCreate (hfit : clusterSize * clusterCount < 2 ^ 31)
    (hcreate : evfsCreate garbage Fs.init clusterSize clusterCount cacheBlockNum [] [] [] =
      some (status, s₀)) (hstatus : nspSuccess status = true) :
    s₀.entries = [] ∧ (Listed s₀ ∨ Barren s₀) := by
  obtain ⟨fresh, -, -, ⟨hcount, -⟩ | hdead⟩ := fresh_of_evfsCreate hfit hcreate hstatus
  · have hstored := (stored_of_evfsCreate hcount hfit hcreate hstatus).1
    exact ⟨fresh.entries, .inl (listed_of_live hstored (named_nil fresh.named fresh.entries))⟩
  · exact ⟨fresh.entries, .inr ⟨hdead, fresh.defined, fresh.named⟩⟩

theorem nameCalls_of_exec (s : Fs) (c : NameCall) (s' : Fs)
    (h : (if c.Proper s then c.exec s else none) = some s') : NameCalls s c s' := by
  split at h
  · exact ⟨‹_›, h⟩
  · cases h

end Evfs

end LibNax
