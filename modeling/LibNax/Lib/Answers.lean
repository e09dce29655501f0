import Mathlib.Logic.Basic

/-!
# Machines that answer calls

A machine takes a call and answers it.  One that may fail to return is compared with one that always
does, which says what the calls are for: if every call is answered the same, and the states keep
belonging together, every run of calls is.

* `answers` — a run of calls that may fail, and `replies` — one that does not.
* `answers_eq_replies` — the simulation rule.
-/

set_option autoImplicit false

namespace LibNax

namespace Lib

variable {σ τ ι β : Type}

/-- The state after some calls, one after the other, and their answers. -/
def answers (f : σ → ι → Option (σ × β)) : σ → List ι → Option (σ × List β)
  | s, [] => some (s, [])
  | s, a :: as => do
    let (s, b) ← f s a
    let (s, bs) ← answers f s as
    return (s, b :: bs)

/-- The same for calls that always return. -/
def replies (g : τ → ι → τ × β) : τ → List ι → τ × List β
  | t, [] => (t, [])
  | t, a :: as => ((replies g (g t a).1 as).1, (g t a).2 :: (replies g (g t a).1 as).2)

/-- **The simulation rule**: if every call of a kind returns, answers as the other machine does and
leaves states that belong together, every run of such calls does. -/
theorem answers_eq_replies {f : σ → ι → Option (σ × β)} {g : τ → ι → τ × β} {R : σ → τ → Prop}
    {P : ι → Prop}
    (hstep : ∀ s t a, R s t → P a → ∃ s', f s a = some (s', (g t a).2) ∧ R s' (g t a).1)
    {as : List ι} (has : ∀ a ∈ as, P a) {s : σ} {t : τ} (hR : R s t) :
    ∃ s', answers f s as = some (s', (replies g t as).2) ∧ R s' (replies g t as).1 := by
  induction as generalizing s t with
  | nil => exact ⟨s, rfl, hR⟩
  | cons a as ih =>
    obtain ⟨s₁, hf, hR⟩ := hstep s t a hR (has a List.mem_cons_self)
    obtain ⟨s', hrun, hR'⟩ := ih (fun b hb => has b (List.mem_cons_of_mem _ hb)) hR
    refine ⟨s', ?_, hR'⟩
    simp only [answers, hf, hrun, Option.bind_eq_bind, Option.bind_some]
    rfl

end Lib

end LibNax
