import CompositionIr.Deltas

/-!
Publishing a candidate. A commit whose comparison finds nothing and whose placement
is stored as in the base returns the base; otherwise the candidate is published under
the next revision.
-/

namespace CompositionIr.Commits

open Outcomes Addresses Records Snapshots Deltas

structure Commit where
  snapshot : Snapshot
  delta : Delta

def nextRevision (r : Revision) : Eval Revision :=
  if h : r.value.val + 1 < 2 ^ 64 then .done ⟨⟨r.value.val + 1, by omega, h⟩⟩
  else .trap .revisionExhausted

def candidate (b : SnapshotBuilder) (revision : Revision) : Snapshot where
  version := ⟨b.base.version.domain, revision⟩
  records := b.records
  roots := b.roots
  placement := b.placement

def commit (b : SnapshotBuilder) (fuel : ℕ) : Eval Commit := do
  let revision ← nextRevision b.base.version.revision
  let candidate := candidate b revision
  let diffs ← diffsBetween b.base candidate fuel
  if diffs.isEmpty && candidate.placement == b.base.placement then
    return ⟨b.base, ⟨b.base.version, b.base.version, []⟩⟩
  else
    return ⟨candidate, ⟨b.base.version, candidate.version, diffs⟩⟩

def editAndCommit (s : Snapshot) (edits : List Edit) (heap : Heap) (fuel : ℕ) : Eval Commit := do
  let (b, _) ← Edit.applyAll edits s.edit heap
  commit b fuel

end CompositionIr.Commits
