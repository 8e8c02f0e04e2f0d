import CompositionIr.AdapterRuns

/-!
Incremental adaptation is a fresh build, over whole runs: every snapshot shows exactly the
tree it was adapted from, every delta names exactly what the reparse changed, and what a
report says beyond the frontend's own makes no difference.
-/

namespace CompositionIr.IncrementalBuilds

open Outcomes Transitions Addresses Records Placements Snapshots Deltas Commits
open PublishedStates SubtreeComparison CommitSpec CallEffects Frontends Identities
open Adapters AdapterEffects AdapterRuns

/-- The snapshot is a build of the tree: one live record for each node and no other, the
projection of the node, in the node's box; nothing else has a box. -/
structure Renders (domain : Domain) (ast : MdAst) (s : Snapshot) : Prop where
  live : ∀ x, x ∈ s.addresses ↔ ∃ n ∈ ast.nodes, address domain n.id = .done x
  node : ∀ n ∈ ast.nodes, ∃ a arc, address domain n.id = .done a ∧
    s.get a = .done (some arc) ∧ arc.node = project n ∧
    s.placement.rect a = some { x := 0, y := 0, width := n.text.utf8ByteSize, height := 16 }
  unplaced : ∀ x, x ∉ s.addresses → s.placement.rect x = none

def NamesEdits (domain : Domain) (old new : MdAst) (diffs : List Diff) : Prop :=
  ∀ x, x ∈ diffs.map Diff.address ↔ ∃ id, address domain id = .done x ∧ Edited old new id

section Renderings

variable {d : Domain} {q : Pipeline}

theorem mirrors_renders (hq : Mirrors d q) : Renders d q.session.ast q.snapshot := by
  have hid := identified q.session hq.session
  have hlive : ∀ x, x ∈ q.snapshot.addresses ↔
      ∃ n ∈ q.session.ast.nodes, nodeAddress d n.id = x := by
    intro x
    rw [mem_addresses_iff_values, hq.records, ne_eq, documentOf_eq_none]
    simp only [not_forall, not_not, exists_prop]
  refine ⟨fun x => ?_, fun n hn => ?_, fun x hx => ?_⟩
  · rw [hlive]
    refine exists_congr (fun n => and_congr_right (fun hn => ?_))
    rw [address_eq d n.id (hid.positive n hn), Outcome.done.injEq]
  · have hvalue : documentOf d q.session.ast.nodes (nodeAddress d n.id) = some (project n) :=
      documentOf_node hid n hn
    rw [← hq.records] at hvalue
    obtain ⟨arc, harc, hnode⟩ := Option.map_eq_some_iff.mp hvalue
    refine ⟨nodeAddress d n.id, arc, address_eq d n.id (hid.positive n hn), ?_, hnode, ?_⟩
    · rw [get_own q.snapshot _ (by rw [hq.domain]; rfl), harc]
    · rw [hq.placement, rect_placedAt, find_node hid n hn]
      rfl
  · rw [hlive] at hx
    rw [hq.placement, rect_placedAt, Option.map_eq_none_iff, List.find?_eq_none]
    intro n hn haddress
    exact hx ⟨n, hn, by simpa using haddress⟩

end Renderings

section Comparisons

variable {d : Domain} {p p' q q' : Pipeline} {pass pass' : Pass}

/-- A session answers one source in one way. -/
theorem reparse_unique {s s₁ s₂ : MdSession} {call₁ call₂ : Reparse}
    (h₁ : Step s call₁ s₁) (h₂ : Step s call₂ s₂)
    (hsource : call₁.source = call₂.source) : s₁ = s₂ := by
  unfold Step at h₁ h₂
  rw [hsource, h₂] at h₁
  exact (Prod.mk.inj (Option.some.inj h₁)).1.symm

/-- From bases equal by value, one source is published by value as one snapshot with one
delta, whatever the two reports add. -/
theorem pass_sameByValue (hp : Mirrors d p) (hq : Mirrors d q)
    (hsession : p.session = q.session) (hbase : SameByValue p.snapshot q.snapshot)
    (hstep : Adapts p pass p') (hstep' : Adapts q pass' q')
    (hsource : pass.call.source = pass'.call.source) :
    p'.session = q'.session ∧ SameByValue p'.snapshot q'.snapshot ∧
      pass.commit.delta = pass'.commit.delta := by
  have hreparsed := hstep.reparsed
  rw [hsession] at hreparsed
  have hsame := reparse_unique hreparsed hstep'.reparsed hsource
  obtain ⟨b, fuel, hb, hcommit⟩ := pass_builds hp hstep
  obtain ⟨b', fuel', hb', hcommit'⟩ := pass_builds hq hstep'
  rw [hstep.ast, hsame, ← hstep'.ast] at hb
  rw [hstep.published, hstep'.published]
  refine ⟨hsame, commit_sameByValue ?_ ?_ ?_ ?_ fuel fuel' _ _ hcommit hcommit'⟩
  · rw [hb.base, hb'.base]
    exact hbase
  · rw [hb.records, hb'.records]
  · rw [hb.roots, hb'.roots, hbase.roots]
  · rw [hb.placement, hb'.placement]

/-- Two runs over the same sources publish the same, whatever their reports add. -/
theorem run_sameByValue {domain : Domain} {revision : Revision} {passes passes' : List Pass}
    (hrun : Run Adapts (opened domain revision) passes q)
    (hrun' : Run Adapts (opened domain revision) passes' q')
    (hsources : passes.map (fun pass => pass.call.source) =
      passes'.map (fun pass => pass.call.source)) :
    q.session = q'.session ∧ SameByValue q.snapshot q'.snapshot ∧
      passes.map (fun pass => pass.commit.delta) =
        passes'.map (fun pass => pass.commit.delta) := by
  induction hrun generalizing passes' q' with
  | nil =>
    rcases hrun'.inv with ⟨hnone, hsame⟩ | ⟨left, pass, u, hsplit, _, _⟩
    · rw [hnone, hsame]
      exact ⟨rfl, ⟨rfl, rfl, rfl, rfl⟩, rfl⟩
    · rw [hsplit, List.map_append] at hsources
      simp at hsources
  | @snoc t u passes pass hrun hstep ih =>
    rcases hrun'.inv with ⟨hnone, _⟩ | ⟨left, pass', v, hsplit, hrest, hstep'⟩
    · rw [hnone, List.map_append] at hsources
      simp at hsources
    · rw [hsplit, List.map_append, List.map_append] at hsources
      obtain ⟨hinit, hlast⟩ := List.append_inj' hsources rfl
      obtain ⟨hsession, hsame, hdeltas⟩ := ih hrest hinit
      obtain ⟨hsession', hsame', hdelta⟩ := pass_sameByValue (run_mirrors hrun)
        (run_mirrors hrest) hsession hsame hstep hstep' (List.singleton_inj.mp hlast)
      refine ⟨hsession', hsame', ?_⟩
      rw [hsplit, List.map_append, List.map_append, hdeltas]
      exact congrArg _ (congrArg (fun delta => [delta]) hdelta)

end Comparisons

/-- Adapting whatever was reported gives what a fresh build gives. Every state of a run
renders its tree; a pass names the edits of its reparse, and returns unless the revisions
have run out, with the frontend's own report or with any that says more; and two runs over
the same sources publish, by value, the same snapshots and the same deltas. -/
theorem incremental_is_fresh (domain : Domain) (revision : Revision) (passes : List Pass)
    (q : Pipeline) (hrun : Run Adapts (opened domain revision) passes q) :
    Renders domain q.session.ast q.snapshot ∧
    (∀ pass q', Adapts q pass q' →
      NamesEdits domain q.session.ast pass.ast pass.commit.delta.diffs) ∧
    (∀ call s', Step q.session call s' → Enlarges s'.ast call.delta call.delta ∧
      ∀ report, Enlarges s'.ast call.delta report → ∀ heap fuel, q.snapshot.len < fuel →
        q.snapshot.version.revision.value.val + 1 < 2 ^ 64 →
        ∃ a heap', adapt q.snapshot s'.ast report heap fuel = .done (a, heap')) ∧
    ∀ passes' q', Run Adapts (opened domain revision) passes' q' →
      passes.map (fun pass => pass.call.source) = passes'.map (fun pass => pass.call.source) →
      SameByValue q.snapshot q'.snapshot ∧
        passes.map (fun pass => pass.commit.delta) =
          passes'.map (fun pass => pass.commit.delta) := by
  have hq := run_mirrors hrun
  refine ⟨mirrors_renders hq, fun pass q' hstep x => ?_, fun call s' hstep => ⟨?_, ?_⟩,
    fun passes' q' hrun' hsources => (run_sameByValue hrun hrun' hsources).2⟩
  · obtain ⟨b, fuel, hb, hcommit⟩ := pass_builds hq hstep
    rw [builds_named hq hb hcommit, hstep.ast, documentOf_ne_iff hq.session hstep.reparsed]
  · exact enlarges_own hq.session hstep
  · intro report hreport heap fuel hfuel hrevision
    obtain ⟨draft, hb, hadapt⟩ := adapt_builds hq hstep hreport heap
    rw [hadapt]
    exact publish_returns (builds_returns hq hb hrevision hfuel)

section Example

def lineB : MdNode := ⟨1, .para, "b", (0, 1)⟩

def editing : Pass where
  call := ⟨"b\n", ⟨[1], []⟩⟩
  ast := ⟨[lineB], "b\n"⟩
  report := ⟨[1, 7, 1], [9]⟩
  commit := publishing (shown 3 2 [lineB] [1, 1]) 2 [⟨nodeAddress dom 1, ⟨0x00a⟩⟩]

theorem incremental_is_fresh_edited :
    ∃ q, Run Adapts (opened dom (rev 1)) [drafting, editing] q ∧
      Renders dom editing.ast q.snapshot := by
  have hstep : Step drafted.session editing.call (paragraphs 1 "b\n" [lineB]) := by
    unfold Step
    decide
  have hreport : Enlarges editing.ast editing.call.delta editing.report :=
    ⟨List.forall_mem_singleton.mpr (by decide), List.forall_mem_nil _,
      List.forall_mem_singleton.mpr (by decide), List.forall_mem_singleton.mpr (by decide)⟩
  have hediting : Adapts drafted editing ⟨paragraphs 1 "b\n" [lineB],
      editing.commit.snapshot⟩ :=
    ⟨hstep, rfl, hreport, ⟨⟨1⟩, 2, _, _, rfl⟩, rfl⟩
  have hrun := (Run.single drafting_adapts).snoc hediting
  exact ⟨_, hrun, (incremental_is_fresh dom (rev 1) _ _ hrun).1⟩

end Example

end CompositionIr.IncrementalBuilds
