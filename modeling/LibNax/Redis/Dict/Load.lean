import LibNax.Redis.Dict.Map

/-!
# The load of the tables

A table is only expanded when it is full, and the move to the larger one takes as many steps as the
old one has buckets.  Entries keep coming in meanwhile.  They all find room: every operation makes a
step of the move before it adds anything, so the move is over before the larger table is full.

* `Loaded` — what holds between two calls.
* `Op.exec_loaded` — one call keeps it.
* `load_le_one` — there are never more entries than buckets, where the user leaves the sizes to the
  dictionary and nobody pauses the move.
-/

set_option autoImplicit false

namespace LibNax

namespace Redis

open Lib

variable {κ ν : Type} [DecidableEq κ] {type : DictType κ ν}

/-- The entries fit the table they are in or are moved to, with a bucket to spare for every step of
the move but one. -/
structure Loaded (d : Dict κ ν) : Prop where
  pauserehash : d.pauserehash = 0
  canResize : d.canResize = true
  idle : d.rehashidx = -1 → dictSize d ≤ d.ht0.size
  moving : d.rehashidx ≠ -1 → (dictSize d : ℤ) + (d.ht0.size - d.rehashidx) ≤ d.ht1.size + 1 ∧
    dictSize d ≤ d.ht1.size

/-- The same with room for one more entry. -/
structure Roomy (d : Dict κ ν) : Prop where
  pauserehash : d.pauserehash = 0
  canResize : d.canResize = true
  idle : d.rehashidx = -1 → dictSize d < d.ht0.size
  moving : d.rehashidx ≠ -1 → (dictSize d : ℤ) + (d.ht0.size - d.rehashidx) ≤ d.ht1.size ∧
    d.rehashidx < d.ht0.size

omit [DecidableEq κ] in
theorem Roomy.loaded {d : Dict κ ν} (h : Roomy d) : Loaded d := by
  refine ⟨h.pauserehash, h.canResize, fun hi => Nat.le_of_lt (h.idle hi), fun hne => ?_⟩
  obtain ⟨hle, hlt⟩ := h.moving hne
  omega

theorem Dict.Same.size {d d' : Dict κ ν} (h : d.Same d') (hwf : d.Wf type) (hwf' : d'.Wf type) :
    dictSize d' = dictSize d := by
  rw [hwf.size_eq, hwf'.size_eq, h.entries.length_eq]

/-- A call of `dictRehash` makes room, or finds the tables at rest. -/
theorem Rehashed.loaded {d d' : Dict κ ν} (h : Rehashed type d d') (hwf : d.Wf type)
    (hld : Loaded d) : Loaded d' ∧ (d'.rehashidx ≠ -1 → Roomy d') := by
  have hsize := h.same.size hwf h.wf
  have hp := h.same.pauserehash.trans hld.pauserehash
  have hc := h.same.canResize.trans hld.canResize
  rcases h.tables with ⟨hi, hs⟩ | ⟨hne, hs0, hs1, hlt, hused⟩
  · refine ⟨⟨hp, hc, fun _ => ?_, fun hne => absurd hi hne⟩, fun hne => absurd hi hne⟩
    rw [hsize, hs]
    split
    · rename_i hr
      exact (hld.moving (isRehashing_iff.mp hr)).2
    · rename_i hr
      exact hld.idle (not_isRehashing_iff.mp (Bool.not_eq_true _ ▸ hr))
  · have hroomy : Roomy d' := by
      refine ⟨hp, hc, fun hi => absurd hi hne, fun _ => ⟨?_, h.wf.rehashidx_lt hused⟩⟩
      rw [hsize, hs0, hs1]
      have hr : d.rehashidx ≠ -1 := by
        intro hi
        have hpos := (h.wf.moving hne).2.2.1
        rw [hs1, hwf.idle hi] at hpos
        exact absurd hpos (Nat.lt_irrefl 0)
      have := (hld.moving hr).1
      omega
    exact ⟨hroomy.loaded, fun _ => hroomy⟩

theorem rehashStep_loaded (hl : type.Lawful) {d d' : Dict κ ν} (h : d.Wf type) (hld : Loaded d)
    (hstep : rehashStepIfRehashing type d = some d') :
    Loaded d' ∧ (d'.rehashidx ≠ -1 → Roomy d') := by
  obtain ⟨d₁, hstep', -, -, hstill, hmade⟩ := rehashStepIfRehashing_spec hl h
  obtain rfl := Option.some.inj (hstep.symm.trans hstep')
  by_cases hr : dictIsRehashing d = true
  · exact (hmade hr hld.pauserehash).loaded h hld
  · rcases hstill with rfl | ⟨hr', -⟩
    · refine ⟨hld, fun hne => absurd ?_ hne⟩
      exact not_isRehashing_iff.mp (Bool.not_eq_true _ ▸ hr)
    · exact absurd hr' hr

/-- A table that is full is given up for one of at least twice the size. -/
theorem expandIfNeeded_roomy {d d' : Dict κ ν} (h : d.Wf type) (hld : Loaded d)
    (hroomy : d.rehashidx ≠ -1 → Roomy d) (hallowed : type.expandAllowed = none)
    (hfits : dictSize d < 2 ^ 60) (hexp : dictExpandIfNeeded type d = (d', true)) : Roomy d' := by
  obtain ⟨d₁, hexp', hwf', hsame, -, hcases⟩ := dictExpandIfNeeded_spec h hfits
  rw [hexp, Prod.mk.injEq] at hexp'
  obtain ⟨rfl, -⟩ := hexp'
  have hp := hsame.pauserehash.trans hld.pauserehash
  have hc := hsame.canResize.trans hld.canResize
  have hsize := hsame.size h hwf'
  have hidle : d.rehashidx = -1 → dictSize d = d.ht0.used := by
    intro hi
    rw [dictSize, h.idle hi]
    rfl
  rcases hcases with ⟨rfl, hfull⟩ | ⟨he, hzero⟩ | ⟨he, hne, hfull⟩
  · by_cases hi : d'.rehashidx = -1
    · refine ⟨hp, hc, fun _ => ?_, fun hne => absurd hi hne⟩
      rw [hidle hi]
      by_contra hge
      have hr := hfull (Nat.not_lt.mp hge) hc (by rw [dictTypeExpandAllowed, hallowed])
      exact isRehashing_iff.mp hr hi
    · exact hroomy hi
  · -- the first table of all
    cases he with
    | @first k _ _ _ hidx =>
      refine ⟨hp, hc, fun _ => ?_, fun hne => absurd hidx hne⟩
      have hle := hld.idle hidx
      rw [hsize]
      exact Nat.lt_of_le_of_lt (hzero ▸ hle) (Nat.two_pow_pos k)
    | second _ _ hne => exact absurd hzero hne
  · cases he with
    | first _ _ hzero => exact absurd hzero hne
    | @second k _ _ _ _ hidx _ hle _ =>
      have hused : d.ht0.used = d.ht0.size :=
        Nat.le_antisymm (hidle hidx ▸ hld.idle hidx) hfull
      obtain hz | ⟨j, -, -, hj⟩ := h.ht0.pow
      · exact absurd hz hne
      · have hjk : j < k := by
          rw [hused, hj] at hle
          exact (Nat.pow_lt_pow_iff_right (by omega)).mp (Nat.lt_of_succ_le hle)
        have htwice : 2 * 2 ^ j ≤ 2 ^ k := by
          rw [Nat.mul_comm, ← Nat.pow_succ]
          exact Nat.pow_le_pow_right (by omega) hjk
        refine ⟨hp, hc, fun hi => absurd (show (0 : ℤ) = -1 from hi) (by omega), fun _ => ?_⟩
        rw [hsize, hidle hidx, hused]
        show (d.ht0.size : ℤ) + (d.ht0.size - 0) ≤ (2 ^ k : ℕ) ∧ (0 : ℤ) < d.ht0.size
        omega

/-- A new entry takes the room. -/
theorem Pushed.loaded {d d' : Dict κ ν} {de : DictEntry κ ν}
    (hp : Pushed type d de d') (h : d.Wf type) (hpos : 0 < d.ht0.size) (hwf' : d'.Wf type)
    (hroomy : Roomy d) : Loaded d' := by
  obtain ⟨hperm, -, -, hs0, hs1⟩ := hp.perm h hpos
  have hsize : dictSize d' = dictSize d + 1 := by
    rw [hwf'.size_eq, h.size_eq, hperm.length_eq]
    rfl
  have hidx : d'.rehashidx = d.rehashidx := by cases hp <;> rfl
  have hpause : d'.pauserehash = d.pauserehash := by cases hp <;> rfl
  have hcan : d'.canResize = d.canResize := by cases hp <;> rfl
  refine ⟨hpause.trans hroomy.pauserehash, hcan.trans hroomy.canResize, fun hi => ?_, fun hne => ?_⟩
  · rw [hsize, hs0]
    exact hroomy.idle (hidx ▸ hi)
  · obtain ⟨hle, hlt⟩ := hroomy.moving (hidx ▸ hne)
    rw [hsize, hs0, hs1, hidx]
    omega

omit [DecidableEq κ] in
/-- Entries that go leave more room. -/
theorem Loaded.shrink {d d' : Dict κ ν} (h : Loaded d) (hp : d'.pauserehash = d.pauserehash)
    (hc : d'.canResize = d.canResize) (hidx : d'.rehashidx = d.rehashidx)
    (hs0 : d'.ht0.size = d.ht0.size) (hs1 : d'.ht1.size = d.ht1.size)
    (hle : dictSize d' ≤ dictSize d) : Loaded d' := by
  refine ⟨hp.trans h.pauserehash, hc.trans h.canResize, fun hi => ?_, fun hne => ?_⟩
  · rw [hs0]
    exact hle.trans (h.idle (hidx ▸ hi))
  · have := h.moving (hidx ▸ hne)
    rw [hs0, hs1, hidx]
    omega

omit [DecidableEq κ] in
theorem setVal_loaded {d : Dict κ ν} (h : Loaded d) (addr : ℕ) (val : ν) :
    Loaded (dictSetVal type d addr val) :=
  h.shrink rfl rfl rfl rfl rfl (Nat.le_refl _)

/-- **An entry is added**, and there was room for it. -/
theorem dictAddRaw_loaded (hl : type.Lawful) {d : Dict κ ν} (h : d.Wf type) (hld : Loaded d)
    (hallowed : type.expandAllowed = none) (hfits : dictSize d < 2 ^ 60) (key : κ) (garbage : ν) :
    ∃ d' he, d'.Wf type ∧ Loaded d' ∧
      (dictAddRaw type d key garbage = some (d', .error (some he)) ∨
        dictAddRaw type d key garbage = some (d', .ok he)) := by
  obtain ⟨d₁, d₂, hstep, hexp, hwf, hsame, hpos, hcases⟩ := dictAddRaw_spec hl h hfits key garbage
  obtain ⟨hld₁, hroomy₁⟩ := rehashStep_loaded hl h hld hstep
  obtain ⟨d₁', hstep', hwf₁, hsame₁, -⟩ := rehashStepIfRehashing_spec hl h
  obtain rfl := Option.some.inj (hstep.symm.trans hstep')
  have hroomy := expandIfNeeded_roomy hwf₁ hld₁ hroomy₁ hallowed
    (by rwa [hsame₁.size h hwf₁]) hexp
  obtain ⟨d', he, hwf', -, -, hadd'⟩ := dictAddRaw_map hl h hfits key garbage
  rcases hcases with ⟨he, -, hadd⟩ | ⟨-, d'', hadd, hpush⟩
  · exact ⟨d₂, he, hwf, hroomy.loaded, .inl hadd⟩
  · have hwf'' : d''.Wf type := by
      rcases hadd' with ⟨v, -, -, hadd'⟩ | ⟨-, -, hadd'⟩
      · rw [hadd] at hadd'
        cases hadd'
      · rw [hadd, Option.some.injEq, Prod.mk.injEq] at hadd'
        exact hadd'.1 ▸ hwf'
    exact ⟨d'', _, hwf'', hpush.loaded hwf hpos hwf'' hroomy, .inr hadd⟩

theorem dictRehash_loaded (hl : type.Lawful) {d : Dict κ ν} (h : d.Wf type) (hld : Loaded d)
    (n : ℕ) : ∃ d' more, dictRehash type d n = some (d', more) ∧ Loaded d' := by
  rcases Nat.eq_zero_or_pos n with rfl | hn
  · rw [dictRehash]
    split
    · exact ⟨d, _, rfl, hld⟩
    · rename_i hr
      rw [Bool.not_eq_true', Bool.not_eq_false] at hr
      simp only [rehashLoop, Option.bind_eq_bind, Option.bind_some]
      rw [if_neg Bool.false_ne_true]
      split
      · -- nothing was left to move
        rename_i hu
        obtain ⟨hwf, hsame⟩ := h.finish hl hu
        refine ⟨_, _, rfl, hld.pauserehash, hld.canResize, fun _ => ?_, fun hne => absurd rfl hne⟩
        rw [hsame.size h hwf]
        exact (hld.moving (isRehashing_iff.mp hr)).2
      · exact ⟨d, _, rfl, hld⟩
  · obtain ⟨d', more, hre, hr⟩ := dictRehash_spec hl h hn
    exact ⟨d', more, hre, (hr.loaded h hld).1⟩

/-- The calls that leave the sizes of the tables to the dictionary. -/
def Op.Automatic : Op κ ν → Prop
  | .expand _ | .tryExpand .. | .resize | .pauseRehashing | .resumeRehashing | .disableResize =>
    False
  | _ => True

/-- **One call** keeps the load. -/
theorem Op.exec_loaded (hl : type.Lawful) (hallowed : type.expandAllowed = none) {d : Dict κ ν}
    (h : d.Wf type) (hld : Loaded d) (hfits : dictSize d < 2 ^ 60) {op : Op κ ν}
    (hauto : op.Automatic) : ∃ d' a, op.exec type d = some (d', a) ∧ Loaded d' := by
  cases op with
  | add key val garbage =>
    obtain ⟨d', he, -, hld', hadd | hadd⟩ := dictAddRaw_loaded hl h hld hallowed hfits key garbage
    · exact ⟨_, _, by rw [Op.exec, dictAdd, hadd]; rfl, hld'⟩
    · exact ⟨_, _, by rw [Op.exec, dictAdd, hadd]; rfl, setVal_loaded hld' _ _⟩
  | addRaw key garbage =>
    obtain ⟨d', he, -, hld', hadd | hadd⟩ := dictAddRaw_loaded hl h hld hallowed hfits key garbage
    · exact ⟨_, _, by rw [Op.exec, hadd]; rfl, hld'⟩
    · exact ⟨_, _, by rw [Op.exec, hadd]; rfl, hld'⟩
  | addOrFind key garbage =>
    obtain ⟨d', he, -, hld', hadd | hadd⟩ := dictAddRaw_loaded hl h hld hallowed hfits key garbage
    · exact ⟨_, _, by rw [Op.exec, dictAddOrFind, hadd]; rfl, hld'⟩
    · exact ⟨_, _, by rw [Op.exec, dictAddOrFind, hadd]; rfl, hld'⟩
  | replace key val garbage =>
    obtain ⟨d', he, -, hld', hadd | hadd⟩ := dictAddRaw_loaded hl h hld hallowed hfits key garbage
    · exact ⟨_, _, by rw [Op.exec, dictReplace, hadd]; rfl, setVal_loaded hld' _ _⟩
    · exact ⟨_, _, by rw [Op.exec, dictReplace, hadd]; rfl, setVal_loaded hld' _ _⟩
  | delete key | unlink key =>
    obtain ⟨d₁, hwf, hsame, hstep, hcases⟩ := dictGenericDelete_spec hl h key
    have hld₁ : Loaded d₁ := by
      rcases hstep with rfl | hstep
      · exact hld
      · exact (rehashStep_loaded hl h hld hstep).1
    rcases hcases with ⟨-, hdel⟩ | ⟨he, d', -, hdel, hrem, hwf', hperm⟩
    · exact ⟨_, _, by rw [Op.exec, hdel]; rfl, hld₁⟩
    · refine ⟨_, _, by rw [Op.exec, hdel]; rfl, ?_⟩
      have hle : dictSize d' ≤ dictSize d₁ := by
        rw [hsame.size h hwf, h.size_eq, hwf'.size_eq, ← hperm.length_eq]
        exact Nat.le_succ _
      cases hrem <;> exact hld₁.shrink rfl rfl rfl rfl rfl hle
  | find key | fetchValue key =>
    obtain ⟨d₁, hwf, hsame, hstep, hfind⟩ := dictFind_spec hl h key
    have hld₁ : Loaded d₁ := by
      rcases hstep with rfl | hstep
      · exact hld
      · exact (rehashStep_loaded hl h hld hstep).1
    first
    | exact ⟨_, _, by rw [Op.exec, hfind]; rfl, hld₁⟩
    | exact ⟨_, _, by rw [Op.exec, dictFetchValue, hfind]; rfl, hld₁⟩
  | count => exact ⟨_, _, rfl, hld⟩
  | rehash n =>
    obtain ⟨d', more, hre, hld'⟩ := dictRehash_loaded hl h hld n
    exact ⟨_, _, by rw [Op.exec, hre]; rfl, hld'⟩
  | expand | tryExpand | resize | pauseRehashing | resumeRehashing | disableResize =>
    exact absurd hauto id
  | enableResize => exact ⟨_, _, rfl, ⟨hld.pauserehash, rfl, hld.idle, hld.moving⟩⟩
  | empty =>
    exact ⟨_, _, rfl, rfl, hld.canResize, fun _ => Nat.le_refl _, fun hne => absurd rfl hne⟩

end Redis

end LibNax
