import CompositionIr.Invalidation
import CompositionIr.MembershipLaw

/-!
An invalidation drops no cell without cause. A receipt keeps the liveness answers of the
time its cell was computed, and they are compared with the newest snapshot only; a cell
that is still cached has answers that describe the current snapshot, so a comparison that
fails is a liveness the commit turned over.
-/

namespace CompositionIr.Pruning

open Outcomes ChildGraphs Transitions Addresses Records Snapshots Deltas Commits
open PublishedStates DeltaSpec CommitSpec DerivedCells Invalidation

def SubtreeDiffers (before after : RecordMap) (x : Address) : Prop :=
  ∃ depth, materialize kids (state before) depth x ≠ materialize kids (state after) depth x

/-- A commit disturbs an observation: the address read is live afterwards and was not
before, or its part differs, a child's subtree for `descendant`; or the liveness
observed is not what it was. -/
def Disturbed (before after : Snapshot) : Obs → Prop
  | .read a p => after.contains a = true ∧
      (before.contains a = false ∨
        (∃ b n, before.records.lookup a = some b ∧ after.records.lookup a = some n ∧
          b.node.partEq n.node p = false) ∨
        (p = Part.descendant ∧ ∃ c, Lists before.records after.records a c ∧
          SubtreeDiffers before.records after.records c))
  | .liveness a _ => before.contains a ≠ after.contains a

def Describing (s : Snapshot) : Obs → Prop
  | .read _ _ => True
  | .liveness a wasAbsent => wasAbsent = !s.contains a

theorem subtreeDiffers_iff (before after : RecordMap) (x : Address) :
    SubtreeDiffers before after x ↔ ChangedBelow before after x := by
  rw [← differs_iff_changedBelow]
  exact (differs_iff_materialize x).symm

/-- An invalidation notices only what the commit disturbed, when the observation
described the snapshot committed on. -/
theorem disturbed_of_noticed (before after : Snapshot) (o : Obs) (ho : Describing before o)
    (h : Noticed before.records after.records o) : Disturbed before after o := by
  cases o with
  | liveness a wasAbsent =>
    change wasAbsent = !before.contains a at ho
    rw [noticed_liveness_iff, ← not_contains_eq, ho] at h
    exact fun hsame => h (by rw [hsame])
  | read a p =>
    obtain ⟨hlive, h⟩ := h
    refine ⟨hlive, ?_⟩
    rcases h with ⟨_, hne⟩ | ⟨hdesc, c, hc, hbelow⟩
    · cases hb : before.records.lookup a with
      | none => exact Or.inl ((contains_eq_false_iff before a).mpr hb)
      | some b =>
        obtain ⟨n, hn⟩ := Option.isSome_iff_exists.mp hlive
        exact Or.inr (Or.inl ⟨b, n, rfl, hn, hne b n hb hn⟩)
    · exact Or.inr (Or.inr ⟨hdesc, c, hc, (subtreeDiffers_iff _ _ c).mpr hbelow⟩)

/-- Liveness that did not turn over is described by the same observations. -/
theorem describing_of_not_noticed (before after : Snapshot) (o : Obs)
    (h : ¬ Noticed before.records after.records o) : Describing after o := by
  cases o with
  | read a p => exact trivial
  | liveness a wasAbsent =>
    rw [noticed_liveness_iff, ne_eq, not_not] at h
    change wasAbsent = !after.contains a
    rw [not_contains_eq, h]

section Sessions

variable {V : Type}

/-- A run adds observations that describe its snapshot. -/
theorem run_describing (recipe : Recipe V) (r r' : Reader) (v : V)
    (h : recipe.run r = .done (v, r')) (hr : ∀ o ∈ r.receipt.obs, Describing r.snapshot o) :
    ∀ o ∈ r'.receipt.obs, Describing r.snapshot o := by
  induction recipe generalizing r with
  | ret value =>
    obtain ⟨_, hr'⟩ := Prod.mk.inj (Outcome.done.inj h)
    rw [← hr']
    exact hr
  | part address p next ih =>
    obtain ⟨arc, _, hrest⟩ := (run_part_eq_done address p next r r' v).mp h
    refine ih _ (r.push (.read address p)) hrest (fun o ho => ?_)
    rcases List.mem_append.mp ho with ho | ho
    · exact hr o ho
    · rw [List.mem_singleton.mp ho]
      exact trivial
  | isAbsent address next ih =>
    unfold Recipe.run at h
    refine ih (!r.snapshot.contains address)
      (r.push (.liveness address (!r.snapshot.contains address))) h (fun o ho => ?_)
    rcases List.mem_append.mp ho with ho | ho
    · exact hr o ho
    · rw [List.mem_singleton.mp ho]
      rfl

def Current (q : Session V) : Prop :=
  ∀ key cell, q.engine.cells.lookup key = some cell → ∀ o ∈ cell.2.obs, Describing q.current o

theorem step_current {q q' : Session V} {a : Action} (hq : Current q) (hstep : Step q a q') :
    Current q' := by
  cases hstep with
  | @get key v e hget =>
    rcases get_cases q.engine e key q.current v hget with
      ⟨he, _⟩ | ⟨recipe, receipt, _, hrun, _, hcells⟩
    · rw [he]
      exact hq
    · intro k cell hcell
      change e.cells.lookup k = some cell at hcell
      rw [hcells] at hcell
      by_cases hk : k = key
      · subst hk
        rw [AList.lookup_insert, Option.some.injEq] at hcell
        rw [← hcell]
        exact run_describing recipe (Reader.new q.current) ⟨q.current, receipt⟩ v hrun
          (fun o ho => absurd ho (by simp [Reader.new]))
      · rw [AList.lookup_insert_ne hk] at hcell
        exact hq k cell hcell
  | @commit edits heap heap' b fuel c hedits hcommit =>
    intro key cell hcell o ho
    have hbase : b.base = q.current := applyAll_base edits q.current.edit b heap heap' hedits
    have hdesc := commit_describes b fuel c hcommit
    rw [hbase] at hdesc
    have hsurvives := ((invalidate_lookup q.engine c.delta c.snapshot key cell).mp hcell).2
    exact describing_of_not_noticed q.current c.snapshot o
      ((survives_iff hdesc cell.2).mp hsurvives o ho)

theorem run_current (recipes : AList (fun _ : String => Recipe V)) (s : Snapshot)
    (labels : List Action) (q : Session V) (hrun : Run Step (opened recipes s) labels q) :
    Current q := by
  refine Run.preserves Current hrun (fun u a v hu hstep => step_current hu hstep) ?_
  intro key cell hcell
  change (∅ : AList (fun _ : String => V × Receipt)).lookup key = some cell at hcell
  rw [AList.lookup_empty] at hcell
  cases hcell

/-- What a commit step leaves of a cached cell. -/
theorem commit_step_lookup {q q' : Session V} {c : Commit} (hstep : Step q (.commit c) q')
    (key : String) (cell : V × Receipt) (hcell : q.engine.cells.lookup key = some cell) :
    q'.engine.cells.lookup key = some cell ↔
      ∀ o ∈ cell.2.obs, ¬ Noticed q.current.records c.snapshot.records o := by
  cases hstep with
  | @commit edits heap heap' b fuel _ hedits hcommit =>
    have hbase : b.base = q.current := applyAll_base edits q.current.edit b heap heap' hedits
    have hdesc := commit_describes b fuel c hcommit
    rw [hbase] at hdesc
    change (q.engine.invalidate c.delta c.snapshot).2.cells.lookup key = some cell ↔ _
    rw [invalidate_lookup, survives_iff hdesc cell.2]
    exact and_iff_right hcell

/-- Invalidation prunes exactly: in every run a commit drops a cell only when it disturbed
something the cell observed, and a cell of which it disturbed nothing is answered from the
cache afterwards, by an engine that recomputed nothing. -/
theorem invalidate_prunes_exactly (recipes : AList (fun _ : String => Recipe V)) (s : Snapshot)
    (labels : List Action) (q q' : Session V) (c : Commit)
    (hrun : Run Step (opened recipes s) labels q) (hstep : Step q (.commit c) q')
    (key : String) (cell : V × Receipt) (hcell : q.engine.cells.lookup key = some cell) :
    (q'.engine.isCached key = false → ∃ o ∈ cell.2.obs, Disturbed q.current c.snapshot o) ∧
    ((∀ o ∈ cell.2.obs, ¬ Disturbed q.current c.snapshot o) →
      q'.engine.cells.lookup key = some cell ∧
        ∃ e, q'.engine.get key q'.current = .done (cell.1, e) ∧
          e.recomputations = q.engine.recomputations) := by
  have hcurrent := run_current recipes s labels q hrun key cell hcell
  have hleaves := commit_step_lookup hstep key cell hcell
  constructor
  · intro hdropped
    by_contra hnone
    push Not at hnone
    have hkept := hleaves.mpr (fun o ho hnoticed =>
      hnone o ho (disturbed_of_noticed q.current c.snapshot o (hcurrent o ho) hnoticed))
    unfold Engine.isCached at hdropped
    rw [hkept] at hdropped
    cases hdropped
  · intro hcalm
    have hkept := hleaves.mpr (fun o ho hnoticed =>
      hcalm o ho (disturbed_of_noticed q.current c.snapshot o (hcurrent o ho) hnoticed))
    refine ⟨hkept, q'.engine, ?_, ?_⟩
    · unfold Engine.get
      rw [hkept]
    · cases hstep
      rfl

end Sessions

section Example

def measuredBeside : Snapshot :=
  { Snapshot.empty dom (rev 2) with
    records := measured.records.insert (addr .node 2) ⟨1, { text := "new" }⟩ }

/-- A record is added that the width never read: the cell stays, and answers without a
recomputation. -/
theorem invalidate_prunes_exactly_measuring :
    ∃ labels q c q', Run Step (opened measuring measured) labels q ∧ Step q (.commit c) q' ∧
      c.snapshot.contains (addr .node 2) = true ∧
      q'.engine.isCached "width" = true ∧
      ∃ e, q'.engine.get "width" q'.current = .done (5, e) ∧ e.recomputations = 1 := by
  let c : Commit := ⟨measuredBeside, ⟨measured.version, measuredBeside.version,
    [⟨addr .node 2, ownParts.foldl Parts.insert Parts.empty⟩]⟩⟩
  have hstep : Step asked (.commit c)
      ⟨(asked.engine.invalidate c.delta measuredBeside).2, measuredBeside⟩ :=
    @Step.commit _ _ [.put (addr .node 2) { text := "new" }] ⟨1⟩ _ _ 2 _ rfl rfl
  have hrun := Run.single step_asked
  have hcalm : ∀ o ∈ [Obs.read (addr .node 1) Part.intrinsicLayout],
      ¬ Disturbed measured measuredBeside o := by
    intro o ho hdisturbed
    rw [List.mem_singleton.mp ho] at hdisturbed
    obtain ⟨_, hnew | ⟨b, n, hb, hn, hpart⟩ | ⟨hdescendant, _⟩⟩ := hdisturbed
    · exact absurd hnew (by decide)
    · rw [show measured.records.lookup (addr .node 1) = some ⟨0, { intrinsic := 5 }⟩ from rfl,
        Option.some.injEq] at hb
      rw [show measuredBeside.records.lookup (addr .node 1) = some ⟨0, { intrinsic := 5 }⟩ from rfl,
        Option.some.injEq] at hn
      rw [← hb, ← hn] at hpart
      exact absurd hpart (by decide)
    · exact absurd hdescendant (by decide)
  obtain ⟨hkept, hanswer⟩ :=
    (invalidate_prunes_exactly measuring measured _ _ _ c hrun hstep "width" _ rfl).2 hcalm
  refine ⟨_, _, c, _, hrun, hstep, rfl, ?_, hanswer⟩
  unfold Engine.isCached
  rw [hkept]
  rfl

end Example

end CompositionIr.Pruning
