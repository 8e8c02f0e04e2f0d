import Mathlib.Logic.Basic

/-!
Runs of a labelled step relation, and the two ways a property of single steps is
carried along a run: an invariant holds in every state reached, and a relation
between the first and the current state holds when each step extends it.
-/

namespace CompositionIr.Transitions

variable {σ α : Type*} {step : σ → α → σ → Prop}

/-- A run and the labels of its steps, in order. -/
inductive Run (step : σ → α → σ → Prop) : σ → List α → σ → Prop
  | nil (s : σ) : Run step s [] s
  | snoc {s t u : σ} {labels : List α} {a : α} (hrun : Run step s labels t)
      (hstep : step t a u) : Run step s (labels ++ [a]) u

def Meeting (good : σ → α → Prop) (step : σ → α → σ → Prop) : σ → α → σ → Prop :=
  fun s a t => good s a ∧ step s a t

namespace Run

theorem single {s t : σ} {a : α} (hstep : step s a t) : Run step s [a] t :=
  snoc (nil s) hstep

theorem trans {s t u : σ} {left right : List α} (hl : Run step s left t)
    (hr : Run step t right u) : Run step s (left ++ right) u := by
  induction hr with
  | nil => simpa using hl
  | snoc _ hstep ih =>
    rw [← List.append_assoc]
    exact snoc ih hstep

/-- A run is empty, or it is a run with one more step. -/
theorem inv {s t : σ} {labels : List α} (hrun : Run step s labels t) :
    (labels = [] ∧ t = s) ∨
      ∃ left a u, labels = left ++ [a] ∧ Run step s left u ∧ step u a t := by
  cases hrun with
  | nil => exact Or.inl ⟨rfl, rfl⟩
  | snoc hrun hstep => exact Or.inr ⟨_, _, _, rfl, hrun, hstep⟩

/-- Every label of a run is that of one of its steps. -/
theorem exists_step {s t : σ} {labels : List α} (hrun : Run step s labels t) {a : α}
    (ha : a ∈ labels) : ∃ u v, step u a v := by
  induction hrun with
  | nil => cases ha
  | @snoc t u labels b _ hstep ih =>
    rcases List.mem_append.mp ha with ha | ha
    · exact ih ha
    · rw [List.mem_singleton.mp ha]
      exact ⟨t, u, hstep⟩

/-- A run with a first step is that step and a run from there. -/
theorem cons_iff {s t : σ} {a : α} {labels : List α} :
    Run step s (a :: labels) t ↔ ∃ u, step s a u ∧ Run step u labels t := by
  constructor
  · have key : ∀ {labels' : List α} {t : σ}, Run step s labels' t →
        ∀ a labels, labels' = a :: labels → ∃ u, step s a u ∧ Run step u labels t := by
      intro labels' t hrun
      induction hrun with
      | nil => exact fun a labels h => by cases h
      | @snoc t v left b hrun hstep ih =>
        intro a labels h
        rcases left with _ | ⟨c, left⟩
        · obtain ⟨rfl, rfl⟩ := List.cons.inj h
          obtain ⟨_, rfl⟩ | ⟨_, _, _, hnil, _⟩ := hrun.inv
          · exact ⟨v, hstep, nil v⟩
          · simp at hnil
        · obtain ⟨rfl, rfl⟩ := List.cons.inj h
          obtain ⟨u, hfirst, hrest⟩ := ih c left rfl
          exact ⟨u, hfirst, snoc hrest hstep⟩
    exact fun hrun => key hrun a labels rfl
  · rintro ⟨u, hfirst, hrest⟩
    exact (single hfirst).trans hrest

/-- What each step preserves holds in every state a run reaches. -/
theorem preserves {s t : σ} {labels : List α} (I : σ → Prop) (hrun : Run step s labels t)
    (hpres : ∀ u a v, I u → step u a v → I v) (hs : I s) : I t := by
  induction hrun with
  | nil => exact hs
  | snoc _ hstep ih => exact hpres _ _ _ ih hstep

theorem mono {step' : σ → α → σ → Prop} {s t : σ} {labels : List α}
    (hrun : Run step s labels t) (hsub : ∀ u a v, step u a v → step' u a v) :
    Run step' s labels t := by
  induction hrun with
  | nil => exact nil _
  | snoc _ hstep ih => exact snoc ih (hsub _ _ _ hstep)

end Run

end CompositionIr.Transitions
