import Mathlib.Logic.Basic

/-!
# Runs of a step relation

A system is a step relation `step s a s'` between states, labelled by what is done.  A run is a
finite sequence of steps, and the one rule everything else rests on is that what a step keeps, a
run keeps.

* `Run step s as s'` — the labels `as`, taken in order from `s`, lead to `s'`.
* `Run.invariant` — the invariant rule.
* `Run.of_append`, `Run.append` and `Run.concat` — runs one after the other.
* `exec` — the run of a step function, and `Run.of_exec` that it is a run.
* `Along` and `Each` — what holds in every state of a run, and at every step of it.
* `along_iff_each`, `along_iff_each_of` and `each_iff_each` — the invariant rule for a condition that is also necessary.
-/

set_option autoImplicit false

namespace LibNax

namespace Lib

variable {σ ι : Type}

/-- The labels, taken in order from the first state, lead to the second. -/
inductive Run (step : σ → ι → σ → Prop) : σ → List ι → σ → Prop where
  | nil (s : σ) : Run step s [] s
  | cons {s s' s'' : σ} {a : ι} {as : List ι} :
      step s a s' → Run step s' as s'' → Run step s (a :: as) s''

variable {step : σ → ι → σ → Prop}

/-- **The invariant rule**: what every step keeps, every run keeps. -/
theorem Run.invariant {P : σ → Prop} (hstep : ∀ s a s', P s → step s a s' → P s')
    {s s' : σ} {as : List ι} (h : Run step s as s') : P s → P s' := by
  induction h with
  | nil s => exact id
  | cons hs _ ih => exact fun hi => ih (hstep _ _ _ hi hs)

/-- A run stops between any two of its labels. -/
theorem Run.of_append {as bs : List ι} : ∀ {s s'' : σ}, Run step s (as ++ bs) s'' →
    ∃ s', Run step s as s' ∧ Run step s' bs s'' := by
  induction as with
  | nil => exact fun h => ⟨_, .nil _, h⟩
  | cons a as ih =>
    intro s s'' h
    cases h with
    | cons hs h =>
      obtain ⟨s', h₁, h₂⟩ := ih h
      exact ⟨s', .cons hs h₁, h₂⟩

/-- One run after another. -/
theorem Run.append {as bs : List ι} {s s' s'' : σ} (h : Run step s as s')
    (h' : Run step s' bs s'') : Run step s (as ++ bs) s'' := by
  induction h with
  | nil s => exact h'
  | cons hs _ ih => exact .cons hs (ih h')

/-- Every step of a run is one of its labels. -/
theorem Run.labelled {as : List ι} {s s' : σ} (h : Run step s as s') :
    Run (fun s a s' => a ∈ as ∧ step s a s') s as s' := by
  have hgo : ∀ {bs : List ι} {s s' : σ}, Run step s bs s' → (∀ b ∈ bs, b ∈ as) →
      Run (fun s a s' => a ∈ as ∧ step s a s') s bs s' := by
    intro bs s s' h
    induction h with
    | nil s => exact fun _ => .nil s
    | cons hs _ ih =>
      intro hmem
      exact .cons ⟨hmem _ List.mem_cons_self, hs⟩
        (ih fun b hb => hmem b (List.mem_cons_of_mem _ hb))
  exact hgo h fun _ hb => hb

/-- One more step at the end. -/
theorem Run.concat {as : List ι} {s s' s'' : σ} {a : ι} (h : Run step s as s')
    (hs : step s' a s'') : Run step s (as ++ [a]) s'' := by
  induction h with
  | nil s => exact .cons hs (.nil _)
  | cons hs' _ ih => exact .cons hs' (ih hs)

/-- The state after the labels, taken in order, for a step function that is undefined where the step
is not possible. -/
def exec (f : σ → ι → Option σ) : σ → List ι → Option σ
  | s, [] => some s
  | s, a :: as =>
    match f s a with
    | none => none
    | some s' => exec f s' as

theorem Run.of_exec {f : σ → ι → Option σ} (hf : ∀ s a s', f s a = some s' → step s a s') :
    ∀ {as : List ι} {s s' : σ}, exec f s as = some s' → Run step s as s'
  | [], s, s', h => by
    cases h
    exact .nil _
  | a :: as, s, s', h => by
    rw [exec] at h
    split at h
    · cases h
    · rename_i s'' hs''
      exact .cons (hf _ _ _ hs'') (Run.of_exec hf h)

/-- What holds in every state that the labels lead through. -/
def Along (f : σ → ι → Option σ) (P : σ → Prop) : σ → List ι → Prop
  | s, [] => P s
  | s, a :: as => P s ∧ ∀ s', f s a = some s' → Along f P s' as

theorem Along.head {f : σ → ι → Option σ} {P : σ → Prop} {s : σ} {as : List ι}
    (h : Along f P s as) : P s := by
  cases as with
  | nil => exact h
  | cons a as => exact h.1

instance Along.decidable {f : σ → ι → Option σ} {P : σ → Prop} [DecidablePred P] :
    ∀ (s : σ) (as : List ι), Decidable (Along f P s as)
  | s, [] => inferInstanceAs (Decidable (P s))
  | s, a :: as =>
    match h : f s a with
    | none => decidable_of_iff (P s) ⟨fun hp => ⟨hp, fun _ hs => nomatch h.symm.trans hs⟩, (·.1)⟩
    | some s' =>
      have := Along.decidable (P := P) (f := f) s' as
      decidable_of_iff (P s ∧ Along f P s' as)
        ⟨fun hp => ⟨hp.1, fun _ hs => Option.some.inj (h.symm.trans hs) ▸ hp.2⟩,
          fun hp => ⟨hp.1, hp.2 s' h⟩⟩

/-- What holds at every step that is taken on the way. -/
def Each (f : σ → ι → Option σ) (Q : σ → ι → Prop) : σ → List ι → Prop
  | _, [] => True
  | s, a :: as => ∀ s', f s a = some s' → Q s a ∧ Each f Q s' as

instance Each.decidable {f : σ → ι → Option σ} {Q : σ → ι → Prop} [∀ s a, Decidable (Q s a)] :
    ∀ (s : σ) (as : List ι), Decidable (Each f Q s as)
  | _, [] => inferInstanceAs (Decidable True)
  | s, a :: as =>
    match h : f s a with
    | none => isTrue fun _ hs => nomatch h.symm.trans hs
    | some s' =>
      have := Each.decidable (Q := Q) (f := f) s' as
      decidable_of_iff (Q s a ∧ Each f Q s' as)
        ⟨fun hp _ hs => Option.some.inj (h.symm.trans hs) ▸ hp, fun hp => hp s' h⟩

/-- **The invariant rule for an exact condition**: under the condition a step keeps the invariant,
and a step that ends well met the condition.  The steps are known to meet another condition. -/
theorem along_iff_each_of {f : σ → ι → Option σ} {I P : σ → Prop} {Q R : σ → ι → Prop}
    (hinv : ∀ s, I s → P s) (hkeep : ∀ s a s', I s → R s a → Q s a → f s a = some s' → I s')
    (hback : ∀ s a s', I s → f s a = some s' → P s' → Q s a) (as : List ι) {s : σ} (hs : I s)
    (hR : Each f R s as) : Along f P s as ↔ Each f Q s as := by
  induction as generalizing s with
  | nil => exact ⟨fun _ => trivial, fun _ => hinv s hs⟩
  | cons a as ih =>
    constructor
    · rintro ⟨-, hrest⟩ s' hstep
      have hQ := hback s a s' hs hstep (hrest s' hstep).head
      obtain ⟨hRa, hR⟩ := hR s' hstep
      exact ⟨hQ, (ih (hkeep s a s' hs hRa hQ hstep) hR).mp (hrest s' hstep)⟩
    · intro hall
      refine ⟨hinv s hs, fun s' hstep => ?_⟩
      obtain ⟨hQ, hrest⟩ := hall s' hstep
      obtain ⟨hRa, hR⟩ := hR s' hstep
      exact (ih (hkeep s a s' hs hRa hQ hstep) hR).mpr hrest

theorem each_true {f : σ → ι → Option σ} : ∀ (s : σ) (as : List ι), Each f (fun _ _ => True) s as
  | _, [] => trivial
  | _, _ :: as => fun s' _ => ⟨trivial, each_true s' as⟩

/-- The same for all steps. -/
theorem along_iff_each {f : σ → ι → Option σ} {I P : σ → Prop} {Q : σ → ι → Prop}
    (hinv : ∀ s, I s → P s) (hkeep : ∀ s a s', I s → Q s a → f s a = some s' → I s')
    (hback : ∀ s a s', I s → f s a = some s' → P s' → Q s a) (as : List ι) {s : σ} (hs : I s) :
    Along f P s as ↔ Each f Q s as :=
  along_iff_each_of hinv (fun s a s' h _ => hkeep s a s' h) hback as hs (each_true s as)

/-- The same for a promise about the steps. -/
theorem each_iff_each {f : σ → ι → Option σ} {I : σ → Prop} {P Q : σ → ι → Prop}
    (hiff : ∀ s a, I s → (P s a ↔ Q s a))
    (hkeep : ∀ s a s', I s → Q s a → f s a = some s' → I s') (as : List ι) {s : σ} (hs : I s) :
    Each f P s as ↔ Each f Q s as := by
  induction as generalizing s with
  | nil => exact Iff.rfl
  | cons a as ih =>
    constructor
    · intro hall s' hstep
      obtain ⟨hP, hrest⟩ := hall s' hstep
      have hQ := (hiff s a hs).mp hP
      exact ⟨hQ, (ih (hkeep s a s' hs hQ hstep)).mp hrest⟩
    · intro hall s' hstep
      obtain ⟨hQ, hrest⟩ := hall s' hstep
      exact ⟨(hiff s a hs).mpr hQ, (ih (hkeep s a s' hs hQ hstep)).mpr hrest⟩

end Lib

end LibNax
