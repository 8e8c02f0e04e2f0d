import CompositionIr.Outcomes

/-!
Calls that each act on one key of a state. What a sequence of calls leaves under a key is
decided by the calls on that key, so sequences that agree key by key leave the same, however
the calls on different keys are interleaved.
-/

namespace CompositionIr.Interleavings

open Outcomes

/-- A state seen under keys, and calls on it. -/
structure Keyed (ε K V E σ : Type) where
  apply : E → σ → Outcome ε σ
  view : σ → K → V
  key : E → Option K
  step : V → E → Outcome ε V

namespace Keyed

variable {ε K V E σ : Type} (m : Keyed ε K V E σ)

/-- A call answers when it can at its key, does there what the step does, and leaves the
rest. -/
structure Local : Prop where
  here : ∀ e s s' k, m.apply e s = .done s' → m.key e = some k →
    m.step (m.view s k) e = .done (m.view s' k)
  elsewhere : ∀ e s s' k, m.apply e s = .done s' → m.key e ≠ some k → m.view s' k = m.view s k
  answers : ∀ e s, (∀ k, m.key e = some k → ∃ v, m.step (m.view s k) e = .done v) →
    ∃ s', m.apply e s = .done s'

def run (calls : List E) (s : σ) : Outcome ε σ := calls.foldlM (fun s e => m.apply e s) s

variable [DecidableEq K]

def onKey (k : K) (calls : List E) : List E := calls.filter (fun e => m.key e = some k)

variable {m} {s s' : σ} {calls calls' : List E}

theorem onKey_cons_here {e : E} {k : K} (he : m.key e = some k) :
    m.onKey k (e :: calls) = e :: m.onKey k calls := List.filter_cons_of_pos (by simpa using he)

theorem onKey_cons_elsewhere {e : E} {k : K} (he : m.key e ≠ some k) :
    m.onKey k (e :: calls) = m.onKey k calls := List.filter_cons_of_neg (by simpa using he)

/-- Under each key a run does what its calls on the key do. -/
theorem view_run (hm : m.Local) (h : m.run calls s = .done s') (k : K) :
    (m.onKey k calls).foldlM m.step (m.view s k) = .done (m.view s' k) := by
  induction calls generalizing s with
  | nil =>
    cases h
    rfl
  | cons e rest ih =>
    unfold run at h
    rw [List.foldlM_cons] at h
    obtain ⟨s₁, hone, hrest⟩ := (Outcome.bind_eq_done _ _ _).mp h
    have hlater := ih hrest
    by_cases he : m.key e = some k
    · rw [onKey_cons_here he, List.foldlM_cons, hm.here e s s₁ k hone he]
      exact hlater
    · rw [onKey_cons_elsewhere he, ← hm.elsewhere e s s₁ k hone he]
      exact hlater

/-- A run answers when it can under each key. -/
theorem run_answers (hm : m.Local)
    (h : ∀ k, ∃ v, (m.onKey k calls).foldlM m.step (m.view s k) = .done v) :
    ∃ s', m.run calls s = .done s' := by
  induction calls generalizing s with
  | nil => exact ⟨s, rfl⟩
  | cons e rest ih =>
    have hfirst : ∀ k, m.key e = some k → ∃ v, m.step (m.view s k) e = .done v := by
      intro k he
      obtain ⟨v, hv⟩ := h k
      rw [onKey_cons_here he, List.foldlM_cons] at hv
      obtain ⟨v₁, hone, _⟩ := (Outcome.bind_eq_done _ _ _).mp hv
      exact ⟨v₁, hone⟩
    obtain ⟨s₁, hone⟩ := hm.answers e s hfirst
    have hrest : ∀ k, ∃ v, (m.onKey k rest).foldlM m.step (m.view s₁ k) = .done v := by
      intro k
      obtain ⟨v, hv⟩ := h k
      by_cases he : m.key e = some k
      · rw [onKey_cons_here he, List.foldlM_cons, hm.here e s s₁ k hone he] at hv
        exact ⟨v, hv⟩
      · rw [onKey_cons_elsewhere he, ← hm.elsewhere e s s₁ k hone he] at hv
        exact ⟨v, hv⟩
    obtain ⟨s', hs'⟩ := ih hrest
    refine ⟨s', ?_⟩
    unfold run at hs' ⊢
    rw [List.foldlM_cons, hone]
    exact hs'

/-- Sequences with the same calls under each key both answer, and show the same. -/
theorem run_reordered (hm : m.Local) (hsame : ∀ k, m.onKey k calls' = m.onKey k calls) {s₂ : σ}
    (hview : ∀ k, m.view s₂ k = m.view s k) (h : m.run calls s = .done s') :
    ∃ s₂', m.run calls' s₂ = .done s₂' ∧ ∀ k, m.view s₂' k = m.view s' k := by
  have hdone := view_run hm h
  have hanswers : ∃ s₂', m.run calls' s₂ = .done s₂' :=
    run_answers hm (fun k => ⟨m.view s' k, by rw [hsame k, hview k, hdone k]⟩)
  obtain ⟨s₂', hrun⟩ := hanswers
  refine ⟨s₂', hrun, fun k => ?_⟩
  have hother := view_run hm hrun k
  rw [hsame k, hview k, hdone k] at hother
  exact (Outcome.done.inj hother).symm

end Keyed

end CompositionIr.Interleavings
