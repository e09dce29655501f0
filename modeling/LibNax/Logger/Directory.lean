import LibNax.Common
import Mathlib.Data.List.DropRight
import Mathlib.Data.List.TakeDrop

/-!
# The directory of the log

`_change_log_dir` keeps the directory in a buffer of its own and takes the slashes at its end away.
The index goes down as long as it is not negative, which it never is: only another character stops
the loop.

* `changeLogDir` — as in the source.
* `stripSlashes_peel` — what the loop does to slashes, and `stripSlashes_nil` and
  `stripSlashes_stop` what it does behind them.
* `strips_iff` — the directories that are kept without the slashes at their end.
-/

set_option autoImplicit false

namespace LibNax

namespace Logger

/-! ## The source -/

/-- The size of `ifos_path_buffer_t`. -/
def pathBufferSize : Nat := 255

/-- `POSIX__DIR_SYMBOL`. -/
def posixDirSymbol : UInt8 := 0x2F

/-- `abuff_strcpy`, of the characters of a string: what is in the buffer after.  `strncpy` fills up
with zeros. -/
def abuffStrcpy (src : List UInt8) : List UInt8 :=
  let st := src.take (pathBufferSize - 1)
  st ++ List.replicate (pathBufferSize - 1 - st.length) 0 ++ [0]

/-- The loop of `_change_log_dir`, where `i` is one less than the number.  Below 0 comes the largest
`size_t`, and there is no result where the index is outside of the buffer. -/
def stripSlashes : Nat → List UInt8 → Option (List UInt8)
  | 0, _ => none
  | i + 1, directory =>
    match directory[i]? with
    | none => none
    | some c =>
      if c = posixDirSymbol then stripSlashes i (directory.set i 0) else some directory

/-- `_change_log_dir`: what `_log_root_directory` has in it after.  `ifos_pmkdir` creates a
directory or does not, and `ifos_getpedir` puts that of the executable in the buffer. -/
def changeLogDir (pmkdir : List UInt8 → Bool) (getpedir : List UInt8 → List UInt8)
    (directory : List UInt8) (rootdir : Option (List UInt8)) : Option (List UInt8) :=
  if directory.getD 0 0 ≠ 0 then some directory
  else
    match rootdir with
    | none => some (getpedir directory)
    | some rootdir =>
      let directory := abuffStrcpy rootdir
      (stripSlashes (cstring directory).length directory).map fun directory =>
        if pmkdir directory then directory else getpedir directory

/-! ## The loop -/

/-- Slashes are replaced. -/
theorem stripSlashes_peel (r : List UInt8) {b : List UInt8} (hb : ∀ c ∈ b, c = posixDirSymbol)
    (z : List UInt8) : stripSlashes (r ++ b).length (r ++ b ++ z) =
      stripSlashes r.length (r ++ List.replicate b.length 0 ++ z) := by
  induction b using List.reverseRecOn generalizing z with
  | nil => rw [List.append_nil, List.length_nil, List.replicate_zero, List.append_nil]
  | append_singleton b c ih =>
    obtain rfl := hb c (List.mem_append_right b List.mem_cons_self)
    have hget : (r ++ (b ++ [posixDirSymbol]) ++ z)[(r ++ b).length]? = some posixDirSymbol := by
      rw [← List.append_assoc r, List.append_assoc (r ++ b), List.getElem?_append_right
        (Nat.le_refl _), Nat.sub_self]
      rfl
    have hset : (r ++ (b ++ [posixDirSymbol]) ++ z).set (r ++ b).length 0 = r ++ b ++ 0 :: z := by
      rw [← List.append_assoc r, List.append_assoc (r ++ b), List.set_append_right _ _
        (Nat.le_refl _), Nat.sub_self]
      rfl
    have hlen : (r ++ (b ++ [posixDirSymbol])).length = (r ++ b).length + 1 := by
      simp only [List.length_append, List.length_cons, List.length_nil]
      omega
    rw [hlen, stripSlashes, hget]
    simp only [if_true, hset]
    rw [ih (fun c hc => hb c (List.mem_append_left _ hc)), List.length_append, List.length_cons,
      List.length_nil, List.replicate_succ']
    simp only [List.append_assoc, List.cons_append, List.nil_append]

/-- Nothing but slashes: the index leaves the buffer. -/
theorem stripSlashes_nil (z : List UInt8) : stripSlashes ([] : List UInt8).length z = none := rfl

/-- Another character stops the loop. -/
theorem stripSlashes_stop (l : List UInt8) {c : UInt8} (hc : c ≠ posixDirSymbol) (z : List UInt8) :
    stripSlashes (l ++ [c]).length (l ++ [c] ++ z) = some (l ++ [c] ++ z) := by
  have hget : (l ++ [c] ++ z)[l.length]? = some c := by
    rw [List.append_assoc, List.getElem?_append_right (Nat.le_refl _), Nat.sub_self]
    rfl
  rw [List.length_append, List.length_cons, List.length_nil, Nat.zero_add, stripSlashes, hget]
  simp only [if_neg hc]

/-! ## The directory -/

/-- The characters in front of the slashes at the end. -/
def withoutSlashes (l : List UInt8) : List UInt8 := l.rdropWhile (· = posixDirSymbol)

theorem exists_slashes (l : List UInt8) :
    ∃ b, l = withoutSlashes l ++ b ∧ ∀ c ∈ b, c = posixDirSymbol :=
  ⟨l.rtakeWhile (· = posixDirSymbol), List.rdropWhile_append_rtakeWhile.symm,
    fun _ hc => by simpa using List.mem_rtakeWhile_imp hc⟩

/-- What is in the buffer. -/
theorem abuffStrcpy_eq (rootdir : List UInt8) : ∃ z, abuffStrcpy rootdir =
    rootdir.take (pathBufferSize - 1) ++ z ∧ ∀ c ∈ z, c = 0 := by
  refine ⟨_, List.append_assoc _ _ _, fun c hc => ?_⟩
  rcases List.mem_append.mp hc with hc | hc
  · exact List.eq_of_mem_replicate hc
  · exact List.mem_singleton.mp hc

theorem withoutSlashes_append {r b : List UInt8} (hb : ∀ c ∈ b, c = posixDirSymbol) :
    withoutSlashes (r ++ b) = withoutSlashes r := by
  rw [withoutSlashes, List.rdropWhile, List.reverse_append,
    List.dropWhile_append_of_pos (by simpa using hb), ← List.rdropWhile, withoutSlashes]

theorem withoutSlashes_idem (l : List UInt8) :
    withoutSlashes (withoutSlashes l) = withoutSlashes l :=
  List.rdropWhile_idempotent _ _

theorem length_withoutSlashes_le (l : List UInt8) : (withoutSlashes l).length ≤ l.length :=
  (List.rdropWhile_prefix _ l).length_le

theorem zero_notMem_withoutSlashes {l : List UInt8} (hl : (0 : UInt8) ∉ l) :
    (0 : UInt8) ∉ withoutSlashes l := fun h => hl ((List.rdropWhile_prefix _ l).subset h)

/-- A directory ends with another character than a slash, or is empty. -/
theorem withoutSlashes_cases (l : List UInt8) : withoutSlashes l = [] ∨
    ∃ r c, withoutSlashes l = r ++ [c] ∧ c ≠ posixDirSymbol := by
  by_cases hnil : withoutSlashes l = []
  · exact .inl hnil
  · refine .inr ⟨_, _, (List.dropLast_append_getLast hnil).symm, ?_⟩
    have hlast := List.rdropWhile_last_not (· = posixDirSymbol) l hnil
    exact fun heq => hlast (decide_eq_true heq)

/-- What the loop leaves of a string in the buffer. -/
theorem stripSlashes_eq (text : List UInt8) {z : List UInt8} (hz : ∀ c ∈ z, c = 0) :
    (withoutSlashes text = [] → stripSlashes text.length (text ++ z) = none) ∧
      (withoutSlashes text ≠ [] → ∃ z', (∀ c ∈ z', c = 0) ∧
        stripSlashes text.length (text ++ z) = some (withoutSlashes text ++ z')) := by
  obtain ⟨b, htext, hb⟩ := exists_slashes text
  have hpeel := stripSlashes_peel (withoutSlashes text) hb z
  rw [← htext] at hpeel
  constructor
  · intro hnil
    rw [hpeel, hnil, stripSlashes_nil]
  · intro hne
    obtain ⟨r, c, hr, hc⟩ := (withoutSlashes_cases text).resolve_left hne
    refine ⟨List.replicate b.length 0 ++ z, fun d hd => ?_, ?_⟩
    · exact (List.mem_append.mp hd).elim List.eq_of_mem_replicate (hz d)
    · rw [hpeel, List.append_assoc, hr, stripSlashes_stop r hc]

/-- What is cut off are slashes, where the rest fits. -/
theorem withoutSlashes_take {n : Nat} {l : List UInt8} (h : (withoutSlashes l).length ≤ n) :
    withoutSlashes (l.take n) = withoutSlashes l := by
  obtain ⟨b, hl, hb⟩ := exists_slashes l
  have hpart : l.take n = withoutSlashes l ++ b.take (n - (withoutSlashes l).length) := by
    conv_lhs => rw [hl]
    rw [List.take_append, List.take_of_length_le h]
  rw [hpart, withoutSlashes_append fun c hc => hb c (List.mem_of_mem_take hc), withoutSlashes_idem]

/-- What is asked: in a directory that was not set before, the loop ends inside of the buffer, and
what is left is the directory without the slashes at its end. -/
def Strips (rootdir : List UInt8) : Prop :=
  ∀ (pmkdir : List UInt8 → Bool) (getpedir : List UInt8 → List UInt8) (old : List UInt8),
    old.getD 0 0 = 0 → ∃ directory, cstring directory = withoutSlashes rootdir ∧
      changeLogDir pmkdir getpedir old (some rootdir) =
        some (if pmkdir directory then directory else getpedir directory)

theorem changeLogDir_some (pmkdir : List UInt8 → Bool) (getpedir : List UInt8 → List UInt8)
    {old : List UInt8} (hold : old.getD 0 0 = 0) (rootdir : List UInt8) :
    changeLogDir pmkdir getpedir old (some rootdir) =
      (stripSlashes (cstring (abuffStrcpy rootdir)).length (abuffStrcpy rootdir)).map fun directory =>
        if pmkdir directory then directory else getpedir directory := by
  rw [changeLogDir, if_neg (not_not.mpr hold)]

/-- **The directories that are kept without the slashes at their end**: there is something in front
of them, and it fits. -/
theorem strips_iff {rootdir : List UInt8} (h : (0 : UInt8) ∉ rootdir) :
    Strips rootdir ↔ withoutSlashes rootdir ≠ [] ∧
      (withoutSlashes rootdir).length < pathBufferSize := by
  have htake : (0 : UInt8) ∉ rootdir.take (pathBufferSize - 1) :=
    fun hmem => h (List.mem_of_mem_take hmem)
  obtain ⟨z, hbuffer, hz⟩ := abuffStrcpy_eq rootdir
  obtain ⟨hnone, hsome⟩ := stripSlashes_eq (rootdir.take (pathBufferSize - 1)) hz
  have hchars : cstring (abuffStrcpy rootdir) = rootdir.take (pathBufferSize - 1) := by
    rw [hbuffer, cstring_append_zeros htake hz]
  constructor
  · intro hall
    obtain ⟨directory, hdir, heq⟩ := hall (fun _ => true) id [] rfl
    rw [changeLogDir_some _ _ rfl, hchars, hbuffer, if_pos rfl, Option.map_eq_some_iff] at heq
    obtain ⟨directory', hstrip, heq⟩ := heq
    by_cases hnil : withoutSlashes (rootdir.take (pathBufferSize - 1)) = []
    · rw [hnone hnil] at hstrip
      cases hstrip
    · obtain ⟨z', hz', hleft⟩ := hsome hnil
      rw [hleft] at hstrip
      obtain rfl := Option.some.inj hstrip
      rw [if_pos rfl] at heq
      subst heq
      rw [cstring_append_zeros (zero_notMem_withoutSlashes htake) hz'] at hdir
      have hle := length_withoutSlashes_le (rootdir.take (pathBufferSize - 1))
      have hcut := List.length_take_le (pathBufferSize - 1) rootdir
      have hsize : pathBufferSize - 1 < pathBufferSize := by decide
      rw [← hdir]
      exact ⟨hnil, by omega⟩
  · rintro ⟨hne, hfit⟩ pmkdir getpedir old hold
    have hcut : withoutSlashes (rootdir.take (pathBufferSize - 1)) = withoutSlashes rootdir :=
      withoutSlashes_take (Nat.le_pred_of_lt hfit)
    obtain ⟨z', hz', hleft⟩ := hsome (by rwa [hcut])
    rw [hcut] at hleft
    refine ⟨withoutSlashes rootdir ++ z', ?_, ?_⟩
    · rw [cstring_append_zeros (zero_notMem_withoutSlashes h) hz']
    · rw [changeLogDir_some pmkdir getpedir hold, hchars, hbuffer, hleft, Option.map_some]

/-- `/a//`. -/
theorem strips_iff_slashes : Strips [0x2F, 0x61, 0x2F, 0x2F] :=
  (strips_iff (by decide)).mpr ⟨by decide, by decide⟩

/-- The empty directory, and `/`. -/
theorem strips_not : changeLogDir (fun _ => true) id [] (some []) = none ∧
    changeLogDir (fun _ => true) id [] (some [0x2F]) = none ∧ ¬Strips [] ∧ ¬Strips [0x2F] := by
  have hempty : changeLogDir (fun _ => true) id [] (some []) = none := by decide +kernel
  have hslash : changeLogDir (fun _ => true) id [] (some [0x2F]) = none := by decide +kernel
  refine ⟨hempty, hslash, fun h => ?_, fun h => ?_⟩
  · obtain ⟨directory, -, heq⟩ := h (fun _ => true) id [] rfl
    rw [hempty] at heq
    cases heq
  · obtain ⟨directory, -, heq⟩ := h (fun _ => true) id [] rfl
    rw [hslash] at heq
    cases heq

end Logger

end LibNax
