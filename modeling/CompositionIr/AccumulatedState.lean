import CompositionIr.CommitSpec

/-!
What becomes of the roots and the placement a builder accumulated. Whether a commit
publishes is decided from the records and the placement. When neither shows a change the
whole candidate is thrown away, its roots with it.
-/

namespace CompositionIr.AccumulatedState

open Outcomes ChildGraphs Addresses Records Placements Snapshots Deltas Commits
open PublishedStates CommitSpec

theorem state_ne_iff_exists (before after : RecordMap) :
    state before ≠ state after ↔ ∃ x, Changed before after x := by
  simp only [← state_ne_iff]
  exact Function.ne_iff

/-- A builder holds something to publish when its placement is not the base's or some
address changed. -/
theorem not_unchanged_iff (b : SnapshotBuilder) :
    ¬ Unchanged b ↔
      b.placement ≠ b.base.placement ∨ ∃ x, Changed b.base.records b.records x := by
  unfold Unchanged
  rw [← state_ne_iff_exists, not_and_or, or_comm]

/-- What a commit is expected to keep of a builder: its roots, its placement answers, and
a version of its own when either is not what the base shows. -/
structure KeepsAccumulated (b : SnapshotBuilder) (s : Snapshot) : Prop where
  roots : s.roots = b.roots
  rect : ∀ a, s.placement.rect a = b.placement.rect a
  version : (b.roots ≠ b.base.roots ∨ ∃ a, b.placement.rect a ≠ b.base.placement.rect a) →
    s.version ≠ b.base.version

theorem keepsAccumulated_of_published (b : SnapshotBuilder) (revision : Revision)
    (hnext : nextRevision b.base.version.revision = .done revision) :
    KeepsAccumulated b (candidate b revision) := by
  refine ⟨rfl, fun _ => rfl, fun _ heq => ?_⟩
  exact nextRevision_ne _ _ hnext (congrArg SnapshotVersion.revision heq)

/-- A commit keeps what was accumulated exactly when the roots are the base's, or the
placement is not, or some address changed. -/
theorem commit_keeps_accumulated_iff (b : SnapshotBuilder) (fuel : ℕ) (c : Commit)
    (h : commit b fuel = .done c) :
    KeepsAccumulated b c.snapshot ↔
      b.roots = b.base.roots ∨ b.placement ≠ b.base.placement ∨
        ∃ x, Changed b.base.records b.records x := by
  rw [← not_unchanged_iff]
  rcases commit_result b fuel c h with ⟨hun, hc⟩ | ⟨revision, hpub, hnext, hc⟩
  · rw [hc]
    constructor
    · exact fun hkeep => Or.inl hkeep.roots.symm
    · intro h
      have hroots : b.roots = b.base.roots := h.resolve_right (fun hnot => hnot hun)
      refine ⟨hroots.symm, fun a => by rw [hun.2], fun hdiff => ?_⟩
      rcases hdiff with hdiff | ⟨a, hdiff⟩
      · exact absurd hroots hdiff
      · rw [hun.2] at hdiff
        exact absurd rfl hdiff
  · rw [hc]
    exact iff_of_true (keepsAccumulated_of_published b revision hnext) (Or.inr hpub)

section Example

def rootless : Snapshot := holding (rev 2) 0 [(addr .node 1, {})]

/-- Adding a root and nothing else is reported as a success and lost. -/
theorem root_only_edit_is_lost :
    ∃ b heap' c, Edit.applyAll [.root (addr .node 1)] rootless.edit ⟨1⟩ = .done (b, heap') ∧
      commit b 2 = .done c ∧ b.roots = [addr .node 1] ∧ c.snapshot.roots = [] ∧
      c.snapshot.version = rootless.version ∧ ¬ KeepsAccumulated b c.snapshot := by
  refine ⟨_, _, _, rfl, rfl, rfl, rfl, rfl, ?_⟩
  intro hkeep
  have hroots : ([] : List Address) = [addr .node 1] := hkeep.roots
  cases hroots

/-- The same root is kept beside a record that is put. -/
theorem commit_keeps_accumulated_put :
    ∃ b heap' c, Edit.applyAll [.root (addr .node 1), .put (addr .node 2) {}] rootless.edit ⟨1⟩ =
        .done (b, heap') ∧
      commit b 2 = .done c ∧ KeepsAccumulated b c.snapshot := by
  refine ⟨_, _, _, rfl, rfl, (commit_keeps_accumulated_iff _ 2 _ rfl).mpr ?_⟩
  exact Or.inr (Or.inr ⟨addr .node 2, Or.inl (by decide)⟩)

end Example

end CompositionIr.AccumulatedState
