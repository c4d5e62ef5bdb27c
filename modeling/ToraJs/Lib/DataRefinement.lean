import Mathlib.Data.Option.Basic

/-!
# Data refinement

An object answers operations one after the other, and a run ends where an operation fails.
An implementation refines a specification along a relation of their states when related
states fail together, or answer alike and stay related.  Then every run of operations
answers alike.
-/

namespace DataRefinement

variable {σ τ ω ρ : Type*}

/-- Operations one after the other, with their answers. -/
def runOps (step : σ → ω → Option (σ × ρ)) : List ω → σ → Option (σ × List ρ)
  | [], s => some (s, [])
  | op :: ops, s => (step s op).bind fun r => (runOps step ops r.1).map fun r' => (r'.1, r.2 :: r'.2)

/-- **One operation on related states**: both fail, or both answer alike and the states stay
related. -/
def Refines (step : σ → ω → Option (σ × ρ)) (step' : τ → ω → Option (τ × ρ)) (R : σ → τ → Prop) :
    Prop :=
  ∀ s t, R s t → ∀ op, (step s op = none ∧ step' t op = none) ∨
    ∃ s' t' out, step s op = some (s', out) ∧ step' t op = some (t', out) ∧ R s' t'

variable {step : σ → ω → Option (σ × ρ)} {step' : τ → ω → Option (τ × ρ)} {R : σ → τ → Prop}

/-- **Runs of operations on related states**, by induction on their number. -/
theorem Refines.run (h : Refines step step' R) (ops : List ω) : ∀ {s : σ} {t : τ}, R s t →
    (runOps step ops s = none ∧ runOps step' ops t = none) ∨
      ∃ s' t' outs, runOps step ops s = some (s', outs) ∧ runOps step' ops t = some (t', outs) ∧
        R s' t' := by
  induction ops with
  | nil => exact fun hR => Or.inr ⟨_, _, _, rfl, rfl, hR⟩
  | cons op ops ih =>
    intro s t hR
    rcases h s t hR op with ⟨hs, ht⟩ | ⟨s', t', out, hs, ht, hR'⟩
    · refine Or.inl ⟨?_, ?_⟩
      · rw [runOps, hs, Option.bind_none]
      · rw [runOps, ht, Option.bind_none]
    · rw [runOps, hs, Option.bind_some, runOps, ht, Option.bind_some]
      rcases ih hR' with ⟨hs, ht⟩ | ⟨s'', t'', outs, hs, ht, hR''⟩
      · exact Or.inl ⟨by rw [hs]; rfl, by rw [ht]; rfl⟩
      · exact Or.inr ⟨s'', t'', out :: outs, by rw [hs]; rfl, by rw [ht]; rfl, hR''⟩

end DataRefinement
