import LibNax.Lib.Run
import LibNax.Redis.Dict.Operations

/-!
# The dictionary is a map

Every call is compared here with what it does to a finite map, over whole runs: the tables may be
expanded and shrunk, and moved a bucket at a time, at any point in between, and no answer shows it.

* `Op`, `Op.exec` — the calls, and the dictionary and the answer after one.
* `Map`, `Map.exec` — what they do to a map.
* `Op.exec_spec` — one call does to the dictionary what it does to the map.
* `runs_map` — every run returns, and answers as the map does.
-/

set_option autoImplicit false

namespace LibNax

namespace Redis

open Lib

variable {κ ν : Type} [DecidableEq κ]

/-- A call. -/
inductive Op (κ ν : Type) where
  | add (key : κ) (val garbage : ν)
  | addRaw (key : κ) (garbage : ν)
  | addOrFind (key : κ) (garbage : ν)
  | replace (key : κ) (val garbage : ν)
  | delete (key : κ)
  | unlink (key : κ)
  | find (key : κ)
  | fetchValue (key : κ)
  | count
  | expand (size : ℕ)
  | tryExpand (size : ℕ) (memory : Bool)
  | resize
  | rehash (n : ℕ)
  | pauseRehashing
  | resumeRehashing
  | enableResize
  | disableResize
  | empty
  deriving Repr, DecidableEq

/-- What a call answers.  How far the tables have got is not part of it. -/
inductive Answer (ν : Type) where
  | done
  | flag (b : Bool)
  | value (v : Option ν)
  | number (n : ℕ)
  deriving Repr, DecidableEq

section

variable (type : DictType κ ν)

/-- The dictionary and the answer after a call. -/
def Op.exec (d : Dict κ ν) : Op κ ν → Option (Dict κ ν × Answer ν)
  | .add key val garbage => (dictAdd type d key val garbage).map fun (d, b) => (d, .flag b)
  | .addRaw key garbage => (dictAddRaw type d key garbage).map fun (d, r) =>
      (d, .value (match r with
        | .error existing => existing.map (·.v)
        | .ok _ => none))
  | .addOrFind key garbage => (dictAddOrFind type d key garbage).map fun (d, he) =>
      (d, .value (he.map (·.v)))
  | .replace key val garbage => (dictReplace type d key val garbage).map fun (d, b) => (d, .flag b)
  | .delete key => (dictGenericDelete type d key).map fun (d, he) => (d, .flag he.isSome)
  | .unlink key => (dictGenericDelete type d key).map fun (d, he) => (d, .value (he.map (·.v)))
  | .find key => (dictFind type d key).map fun (d, he) => (d, .value (he.map (·.v)))
  | .fetchValue key => (dictFetchValue type d key).map fun (d, v) => (d, .value v)
  | .count => some (d, .number (dictSize d))
  | .expand size => some ((dictExpand d size).1, .done)
  | .tryExpand size memory => some ((dictTryExpand d size memory).1, .done)
  | .resize => some ((dictResize d).1, .done)
  | .rehash n => (dictRehash type d n).map fun (d, _) => (d, .done)
  | .pauseRehashing => some (dictPauseRehashing d, .done)
  | .resumeRehashing => some (dictResumeRehashing d, .done)
  | .enableResize => some ({ d with canResize := true }, .done)
  | .disableResize => some ({ d with canResize := false }, .done)
  | .empty => some (dictEmpty d, .done)

/-- The calls, one after the other, and their answers. -/
def execAll : List (Op κ ν) → Dict κ ν → Option (Dict κ ν × List (Answer ν))
  | [], d => some (d, [])
  | op :: ops, d => do
    let (d, a) ← Op.exec type d op
    let (d, as) ← execAll ops d
    return (d, a :: as)

end

/-! ## The map -/

/-- A finite map: the value of every key, and how many keys have one. -/
@[ext]
structure Map (κ ν : Type) where
  get : κ → Option ν
  count : ℕ

/-- No key has a value. -/
def Map.empty : Map κ ν := ⟨fun _ => none, 0⟩

section

variable (type : DictType κ ν)

/-- A key gets a value. -/
def Map.put (m : Map κ ν) (key : κ) (val : ν) : Map κ ν where
  get := fun k => if sameKey type key k = true then some val else m.get k
  count := if (m.get key).isSome = true then m.count else m.count + 1

/-- A key loses its value. -/
def Map.remove (m : Map κ ν) (key : κ) : Map κ ν where
  get := fun k => if sameKey type key k = true then none else m.get k
  count := if (m.get key).isSome = true then m.count - 1 else m.count

/-- A key gets a value unless it has one. -/
def Map.putNew (m : Map κ ν) (key : κ) (val : ν) : Map κ ν :=
  if (m.get key).isSome = true then m else m.put type key val

/-- What a call does to the map, and answers. -/
def Map.exec (m : Map κ ν) : Op κ ν → Map κ ν × Answer ν
  | .add key val _ => (m.putNew type key (type.valDup val), .flag (m.get key).isNone)
  | .addRaw key garbage => (m.putNew type key garbage, .value (m.get key))
  | .addOrFind key garbage =>
      (m.putNew type key garbage, .value (some ((m.get key).getD garbage)))
  | .replace key val _ => (m.put type key (type.valDup val), .flag (m.get key).isNone)
  | .delete key => (m.remove type key, .flag (m.get key).isSome)
  | .unlink key => (m.remove type key, .value (m.get key))
  | .find key => (m, .value (m.get key))
  | .fetchValue key => (m, .value (m.get key))
  | .count => (m, .number m.count)
  | .empty => (.empty, .done)
  | _ => (m, .done)

/-- The calls on the map. -/
def Map.execAll : List (Op κ ν) → Map κ ν → Map κ ν × List (Answer ν)
  | [], m => (m, [])
  | op :: ops, m => ((execAll ops (m.exec type op).1).1,
      (m.exec type op).2 :: (execAll ops (m.exec type op).1).2)

/-- The map that a dictionary stands for. -/
def Dict.map (d : Dict κ ν) : Map κ ν := ⟨fun k => (lookup type d.entries k).map (·.v), dictSize d⟩

end

variable {type : DictType κ ν}

/-- A second value takes the place of the first. -/
theorem Map.put_put (m : Map κ ν) (key : κ) (v v' : ν) :
    (m.put type key v).put type key v' = m.put type key v' := by
  refine Map.ext (funext fun k => ?_) ?_
  · simp only [Map.put]
    split <;> rfl
  · simp only [Map.put, sameKey_refl, if_true, Option.isSome_some]

/-! ## The two compared -/

@[simp]
theorem map_get (d : Dict κ ν) (key : κ) :
    (d.map type).get key = (lookup type d.entries key).map (·.v) := rfl

@[simp]
theorem map_count (d : Dict κ ν) : (d.map type).count = dictSize d := rfl

/-- The map does not depend on the places of the entries. -/
theorem Dict.Same.map (hl : type.Lawful) {d d' : Dict κ ν} (h : d.Same d') (hwf : d.Wf type)
    (hwf' : d'.Wf type) : d'.map type = d.map type := by
  refine Map.ext (funext fun k => ?_) ?_
  · rw [map_get, map_get, lookup_perm hl hwf.apart h.entries]
  · rw [map_count, map_count, hwf.size_eq, hwf'.size_eq, h.entries.length_eq]

/-- A new entry puts its value. -/
theorem map_cons (hl : type.Lawful) {d d' : Dict κ ν} (h : d.Wf type) (h' : d'.Wf type) {key : κ}
    {de : DictEntry κ ν} (hkey : sameKey type key de.key = true)
    (hnew : lookup type d.entries key = none) (hperm : d'.entries.Perm (de :: d.entries)) :
    d'.map type = (d.map type).put type key de.v := by
  have hp : (de :: d.entries).Pairwise (Apart type) :=
    (hperm.pairwise_iff hl.apart_symm).mp h'.apart
  refine Map.ext (funext fun k => ?_) ?_
  · simp only [Dict.map, Map.put]
    rw [lookup_perm hl hp hperm, lookup, List.find?_cons]
    by_cases hk : sameKey type key k = true
    · rw [if_pos hk, hl.trans _ _ _ (hl.symm _ _ hk) hkey]
      rfl
    · have hk' : sameKey type k de.key = false := by
        rw [← Bool.not_eq_true]
        exact fun hc => hk (hl.trans _ _ _ hkey (hl.symm _ _ hc))
      rw [if_neg hk, hk']
      rfl
  · simp only [Dict.map, Map.put, hnew]
    rw [h'.size_eq, h.size_eq, hperm.length_eq]
    rfl

/-- An entry that is unlinked takes its value along. -/
theorem map_erase (hl : type.Lawful) {d d' : Dict κ ν} (h : d.Wf type) (h' : d'.Wf type) {key : κ}
    {he : DictEntry κ ν} (hfound : lookup type d.entries key = some he)
    (hperm : (he :: d'.entries).Perm d.entries) : d'.map type = (d.map type).remove type key := by
  have hp : (he :: d'.entries).Pairwise (Apart type) :=
    (hperm.pairwise_iff hl.apart_symm).mpr h.apart
  have hkey := ((lookup_eq_some hl h.apart).mp hfound).2
  refine Map.ext (funext fun k => ?_) ?_
  · simp only [Dict.map, Map.remove]
    rw [← lookup_perm hl h.apart hperm, lookup, lookup, List.find?_cons]
    by_cases hk : sameKey type key k = true
    · rw [if_pos hk]
      have hnone : lookup type d'.entries k = none := by
        refine lookup_eq_none.mpr fun e hmem => ?_
        rw [← Bool.not_eq_true]
        intro hc
        have happ := (List.pairwise_cons.mp hp).1 e hmem
        have hsame := hl.trans _ _ _ (hl.symm _ _ hkey) (hl.trans _ _ _ hk hc)
        rw [happ.1] at hsame
        cases hsame
      rw [lookup] at hnone
      rw [hnone]
      rfl
    · have hk' : sameKey type k he.key = false := by
        rw [← Bool.not_eq_true]
        exact fun hc => hk (hl.trans _ _ _ hkey (hl.symm _ _ hc))
      rw [if_neg hk, hk']
  · simp only [Dict.map, Map.remove, hfound]
    rw [h'.size_eq, h.size_eq, ← hperm.length_eq]
    rfl

/-- A key without a value has none to lose. -/
theorem map_remove_none (hl : type.Lawful) {d : Dict κ ν} {key : κ}
    (hnone : lookup type d.entries key = none) :
    (d.map type).remove type key = d.map type := by
  refine Map.ext (funext fun k => ?_) ?_
  · simp only [Map.remove, map_get]
    split
    · rename_i hk
      have hnone' : lookup type d.entries k = none := by
        refine lookup_eq_none.mpr fun e hmem => ?_
        rw [← Bool.not_eq_true]
        intro hc
        have hsame := hl.trans _ _ _ hk hc
        rw [lookup_eq_none.mp hnone e hmem] at hsame
        cases hsame
      rw [hnone']
      rfl
    · rfl
  · simp only [Map.remove, map_get, hnone]
    rfl

/-- Setting the value of an entry puts it. -/
theorem map_setVal (hl : type.Lawful) {d : Dict κ ν} (h : d.Wf type) {key : κ}
    {he : DictEntry κ ν} (hfound : lookup type d.entries key = some he) (val : ν) :
    (dictSetVal type d he.addr val).map type = (d.map type).put type key (type.valDup val) := by
  refine Map.ext (funext fun k => lookup_setVal hl h hfound val k) ?_
  simp only [Dict.map, Map.put, hfound]
  rfl

/-- **`dictAddRaw`** on the map. -/
theorem dictAddRaw_map (hl : type.Lawful) {d : Dict κ ν} (h : d.Wf type)
    (hfits : (d.map type).count < 2 ^ 60) (key : κ) (garbage : ν) :
    ∃ d' he, d'.Wf type ∧ d'.map type = (d.map type).putNew type key garbage ∧
      lookup type d'.entries key = some he ∧
      ((∃ v, (d.map type).get key = some v ∧ he.v = v ∧
          dictAddRaw type d key garbage = some (d', .error (some he))) ∨
        ((d.map type).get key = none ∧ he.v = garbage ∧
          dictAddRaw type d key garbage = some (d', .ok he))) := by
  obtain ⟨d₁, d₂, -, -, hwf, hsame, hpos, ⟨he, hfound, hadd⟩ | ⟨hnone, d', hadd, hpush⟩⟩ :=
    dictAddRaw_spec hl h hfits key garbage
  · have hget : (d.map type).get key = some he.v := by
      rw [map_get, hfound]
      rfl
    refine ⟨d₂, he, hwf, ?_, ?_, .inl ⟨he.v, hget, rfl, hadd⟩⟩
    · rw [hsame.map hl h hwf, Map.putNew, hget]
      rfl
    · rw [lookup_perm hl h.apart hsame.entries, hfound]
  · have hget : (d.map type).get key = none := by
      rw [map_get, hnone]
      rfl
    have hnew : ∀ k, sameKey type key k = true → lookup type d₂.entries k = none := by
      intro k hk
      rw [lookup_perm hl h.apart hsame.entries]
      refine lookup_eq_none.mpr fun e hmem => ?_
      rw [← Bool.not_eq_true]
      intro hc
      have hsame := hl.trans _ _ _ hk hc
      rw [lookup_eq_none.mp hnone e hmem] at hsame
      cases hsame
    have hwf' := hpush.wf hl hwf hpos (hnew _ (hl.dup key)) hsame.zmalloc.symm
    have hperm := (hpush.perm hwf hpos).1
    refine ⟨d', _, hwf', ?_, ?_, .inr ⟨hget, rfl, hadd⟩⟩
    · rw [map_cons hl hwf hwf' (hl.dup key) (hnew key (sameKey_refl key)) hperm,
        hsame.map hl h hwf, Map.putNew, hget]
      rfl
    · exact (lookup_eq_some hl hwf'.apart).mpr ⟨hperm.mem_iff.mpr List.mem_cons_self, hl.dup key⟩

/-- A call of `dictRehash` with any number of buckets, none among them. -/
theorem dictRehash_keeps (hl : type.Lawful) {d : Dict κ ν} (h : d.Wf type) (n : ℕ) :
    ∃ d' more, dictRehash type d n = some (d', more) ∧ d'.Wf type ∧ d.Same d' := by
  rcases Nat.eq_zero_or_pos n with rfl | hn
  · rw [dictRehash]
    split
    · exact ⟨d, _, rfl, h, .refl d⟩
    · simp only [rehashLoop, Option.bind_eq_bind, Option.bind_some]
      rw [if_neg Bool.false_ne_true]
      split
      · rename_i hu
        obtain ⟨hwf, hsame⟩ := h.finish hl hu
        exact ⟨_, _, rfl, hwf, hsame⟩
      · exact ⟨d, _, rfl, h, .refl d⟩
  · obtain ⟨d', more, hre, hr⟩ := dictRehash_spec hl h hn
    exact ⟨d', more, hre, hr.wf, hr.same⟩

/-- `dictResize` expands, or does nothing. -/
theorem dictResize_keeps {d : Dict κ ν} (h : d.Wf type) :
    (dictResize d).1.Wf type ∧ d.Same (dictResize d).1 := by
  rw [dictResize]
  split
  · exact ⟨h, .refl d⟩
  · exact (dictExpandWith_spec h _ true).1.wf h

theorem dictEmpty_wf (d : Dict κ ν) : (dictEmpty d).Wf type where
  ht0 := dictReset_wf
  ht1 := dictReset_wf
  idle := fun _ => rfl
  moving := fun h => absurd rfl h
  moved := fun i _ h => absurd (show (i : ℤ) < -1 from h) (by omega)
  apart := List.Pairwise.nil
  addr_lt := fun _ h => nomatch h

/-- **One call** does to the dictionary what it does to the map, and answers the same. -/
theorem Op.exec_spec (hl : type.Lawful) {d : Dict κ ν} (h : d.Wf type)
    (hfits : (d.map type).count < 2 ^ 60) (op : Op κ ν) :
    ∃ d', op.exec type d = some (d', ((d.map type).exec type op).2) ∧ d'.Wf type ∧
      d'.map type = ((d.map type).exec type op).1 := by
  have hkept : ∀ {d' : Dict κ ν}, d'.Wf type → d.Same d' → d'.Wf type ∧ d'.map type = d.map type :=
    fun hwf hsame => ⟨hwf, hsame.map hl h hwf⟩
  cases op with
  | add key val garbage =>
    obtain ⟨d', he, hwf, hmap, hfound, ⟨v, hget, -, hadd⟩ | ⟨hget, -, hadd⟩⟩ :=
      dictAddRaw_map hl h hfits key garbage
    · refine ⟨d', ?_, hwf, ?_⟩
      · rw [Op.exec, dictAdd, hadd, Map.exec, hget]
        rfl
      · rw [hmap, Map.exec, Map.putNew, Map.putNew, hget]
        rfl
    · refine ⟨dictSetVal type d' he.addr val, ?_, hwf.setVal _ _, ?_⟩
      · rw [Op.exec, dictAdd, hadd, Map.exec, hget]
        rfl
      · rw [map_setVal hl hwf hfound, hmap, Map.exec, Map.putNew, Map.putNew, hget]
        exact Map.put_put _ _ _ _
  | addRaw key garbage =>
    obtain ⟨d', he, hwf, hmap, -, ⟨v, hget, rfl, hadd⟩ | ⟨hget, -, hadd⟩⟩ :=
      dictAddRaw_map hl h hfits key garbage
    · exact ⟨d', by rw [Op.exec, hadd, Map.exec, hget]; rfl, hwf, hmap⟩
    · exact ⟨d', by rw [Op.exec, hadd, Map.exec, hget]; rfl, hwf, hmap⟩
  | addOrFind key garbage =>
    obtain ⟨d', he, hwf, hmap, -, ⟨v, hget, rfl, hadd⟩ | ⟨hget, rfl, hadd⟩⟩ :=
      dictAddRaw_map hl h hfits key garbage
    · exact ⟨d', by rw [Op.exec, dictAddOrFind, hadd, Map.exec, hget]; rfl, hwf, hmap⟩
    · exact ⟨d', by rw [Op.exec, dictAddOrFind, hadd, Map.exec, hget]; rfl, hwf, hmap⟩
  | replace key val garbage =>
    obtain ⟨d', he, hwf, hmap, hfound, ⟨v, hget, -, hadd⟩ | ⟨hget, -, hadd⟩⟩ :=
      dictAddRaw_map hl h hfits key garbage
    · refine ⟨dictSetVal type d' he.addr val, ?_, hwf.setVal _ _, ?_⟩
      · rw [Op.exec, dictReplace, hadd, Map.exec, hget]
        rfl
      · rw [map_setVal hl hwf hfound, hmap, Map.exec, Map.putNew, hget]
        rfl
    · refine ⟨dictSetVal type d' he.addr val, ?_, hwf.setVal _ _, ?_⟩
      · rw [Op.exec, dictReplace, hadd, Map.exec, hget]
        rfl
      · rw [map_setVal hl hwf hfound, hmap, Map.exec, Map.putNew, hget]
        exact Map.put_put _ _ _ _
  | delete key =>
    obtain ⟨d₁, hwf, hsame, -, ⟨hnone, hdel⟩ | ⟨he, d', hfound, hdel, -, hwf', hperm⟩⟩ :=
      dictGenericDelete_spec hl h key
    · refine ⟨d₁, by rw [Op.exec, hdel, Map.exec, map_get, hnone]; rfl, hwf, ?_⟩
      rw [(hkept hwf hsame).2, Map.exec, map_remove_none hl hnone]
    · exact ⟨d', by rw [Op.exec, hdel, Map.exec, map_get, hfound]; rfl, hwf',
        map_erase hl h hwf' hfound hperm⟩
  | unlink key =>
    obtain ⟨d₁, hwf, hsame, -, ⟨hnone, hdel⟩ | ⟨he, d', hfound, hdel, -, hwf', hperm⟩⟩ :=
      dictGenericDelete_spec hl h key
    · refine ⟨d₁, by rw [Op.exec, hdel, Map.exec, map_get, hnone]; rfl, hwf, ?_⟩
      rw [(hkept hwf hsame).2, Map.exec, map_remove_none hl hnone]
    · exact ⟨d', by rw [Op.exec, hdel, Map.exec, map_get, hfound]; rfl, hwf',
        map_erase hl h hwf' hfound hperm⟩
  | find key =>
    obtain ⟨d', hwf, hsame, -, hfind⟩ := dictFind_spec hl h key
    exact ⟨d', by rw [Op.exec, hfind]; rfl, hkept hwf hsame⟩
  | fetchValue key =>
    obtain ⟨d', hwf, hsame, -, hfind⟩ := dictFind_spec hl h key
    exact ⟨d', by rw [Op.exec, dictFetchValue, hfind]; rfl, hkept hwf hsame⟩
  | count => exact ⟨d, rfl, h, rfl⟩
  | expand size =>
    obtain ⟨hwf, hsame⟩ := (dictExpandWith_spec h size true).1.wf h
    exact ⟨_, rfl, hkept hwf hsame⟩
  | tryExpand size memory =>
    obtain ⟨hwf, hsame⟩ := (dictExpandWith_spec h size memory).1.wf h
    exact ⟨_, rfl, hkept hwf hsame⟩
  | resize =>
    obtain ⟨hwf, hsame⟩ := dictResize_keeps h
    exact ⟨_, rfl, hkept hwf hsame⟩
  | rehash n =>
    obtain ⟨d', more, hre, hwf, hsame⟩ := dictRehash_keeps hl h n
    exact ⟨d', by rw [Op.exec, hre]; rfl, hkept hwf hsame⟩
  | pauseRehashing | resumeRehashing | enableResize | disableResize =>
    exact ⟨_, rfl, ⟨h.ht0, h.ht1, h.idle, h.moving, h.moved, h.apart, h.addr_lt⟩, rfl⟩
  | empty => exact ⟨_, rfl, dictEmpty_wf d, rfl⟩

/-- A run of calls does to the dictionary what it does to the map. -/
theorem execAll_spec (hl : type.Lawful) (ops : List (Op κ ν)) : ∀ {d : Dict κ ν}, d.Wf type →
    Along (fun m op => some (Map.exec type m op).1) (fun m => m.count < 2 ^ 60) (d.map type) ops →
    ∃ d', execAll type ops d = some (d', (Map.execAll type ops (d.map type)).2) ∧ d'.Wf type ∧
      d'.map type = (Map.execAll type ops (d.map type)).1 := by
  induction ops with
  | nil => exact fun {d} h _ => ⟨d, rfl, h, rfl⟩
  | cons op ops ih =>
    intro d h hfits
    obtain ⟨d₁, hop, hwf, hmap⟩ := Op.exec_spec hl h hfits.head op
    obtain ⟨d', hrun, hwf', hmap'⟩ := ih hwf (hmap ▸ hfits.2 _ rfl)
    rw [hmap] at hrun hmap'
    refine ⟨d', ?_, hwf', hmap'⟩
    rw [execAll, hop]
    simp only [Option.bind_eq_bind, Option.bind_some, hrun]
    rfl

/-- **The dictionary is a map.**  A run of calls returns as long as the entries fit the memory, and
every answer in it is the one of the map, whatever the tables do in between. -/
theorem runs_map (hl : type.Lawful) (ops : List (Op κ ν))
    (hfits : Along (fun m op => some (Map.exec type m op).1) (fun m => m.count < 2 ^ 60)
      Map.empty ops) :
    ∃ d, execAll type ops dictCreate = some (d, (Map.execAll type ops Map.empty).2) ∧ d.Wf type ∧
      d.map type = (Map.execAll type ops Map.empty).1 :=
  execAll_spec hl ops dictCreate_wf hfits

/-- Numbers that are their own hash. -/
def numbers : DictType ℕ ℕ := ⟨BitVec.ofNat 64, id, id, none, none⟩

theorem numbers_lawful : numbers.Lawful := by
  constructor <;> simp_all [sameKey, dictCompareKeys, numbers]

/-- A table of four buckets filled beyond its size, and moved to the next one while entries come and
go. -/
theorem runs_map_moving :
    ∃ d, execAll numbers [.add 1 10 0, .add 5 20 0, .add 3 30 0, .add 4 40 0, .add 7 50 0,
        .replace 5 21 0, .delete 1, .find 5, .find 1, .count] dictCreate =
      some (d, [.flag true, .flag true, .flag true, .flag true, .flag true, .flag false, .flag true,
        .value (some 21), .value none, .number 4]) := by
  obtain ⟨d, hrun, -⟩ := runs_map numbers_lawful [.add 1 10 0, .add 5 20 0, .add 3 30 0,
    .add 4 40 0, .add 7 50 0, .replace 5 21 0, .delete 1, .find 5, .find 1, .count] (by decide)
  exact ⟨d, hrun.trans (congrArg (fun as => some (d, as)) (by decide))⟩

end Redis

end LibNax
