import CompositionIr.DroppedEntries
import CompositionIr.ExactBase
import CompositionIr.Followers

/-!
Consumers of a process. Each holds what it made of one snapshot, checks every delta it is
handed against the version of that snapshot, and rebuilds when the check fails. Deltas may
be lost, repeated, handed over late or from another builder's line: as long as a version
stands for one state, what a consumer holds is that of the snapshot it was handed last.
-/

namespace CompositionIr.Consumers

open Outcomes ChildGraphs Transitions Addresses Records Placements Snapshots Deltas Commits
open PublishedStates DeltaSpec CommitSpec DeltaComposition Processes ExactBase Sorting Backends
open Renders Rasters DroppedEntries Followers

def handed : Feed SnapshotVersion Commit Snapshot where
  applies c v := c.delta.appliesTo v
  after c := c.delta.after
  state c := c.snapshot

@[simp] theorem handed_state (c : Commit) : handed.state c = c.snapshot := rfl

section Methods

def flat : Method Trap Commit Mirror where
  build c := .done (mirror c.snapshot)
  patch c held := .done (c.delta.diffs.foldl (reread c.snapshot) held)

def linked : Method Trap Commit (Address → Materialized Projection) where
  build c := .done (whole c.snapshot)
  patch c held := .done (relink c.delta.diffs held c.snapshot (c.snapshot.len + 1))

def painted : Method Trap Commit Raster where
  build c := do return (← Raster.render c.snapshot).1
  patch c held := do return (← held.repaint c.snapshot c.delta).2.2

def ShowsParts (held : Mirror) (s : Snapshot) : Prop :=
  ∀ x p, p ∈ ownParts → held x p = mirror s x p

def ShowsTrees (held : Address → Materialized Projection) (s : Snapshot) : Prop :=
  held = whole s

def ShowsDrawing (held : Raster) (s : Snapshot) : Prop :=
  ∃ work, Raster.render s = .done (held, work)

end Methods

section Process

variable {domain : Domain} {revision : Revision} {labels : List Action} {p : Process}

def PublishedAs (p : Process) (v : SnapshotVersion) (s : Snapshot) : Prop :=
  s ∈ p.snapshots ∧ s.version = v

theorem commit_delta_after (b : SnapshotBuilder) (fuel : ℕ) (c : Commit)
    (h : commit b fuel = .done c) : c.delta.after = c.snapshot.version := by
  obtain ⟨revision, diffs, _, _, ⟨_, hc⟩ | ⟨_, hc⟩⟩ := commit_cases b fuel c h
  · rw [hc]
  · rw [hc]

theorem published_after (hrun : Reaches domain revision labels p) (q : SnapshotBuilder × Commit)
    (hq : q ∈ p.commits) : PublishedAs p (handed.after q.2) (handed.state q.2) := by
  obtain ⟨_, hs, fuel, hcommit⟩ := (run_history hrun).commits q hq
  exact ⟨hs, (commit_delta_after q.1 fuel q.2 hcommit).symm⟩

/-- A delta that passes the check was made on what the consumer holds. -/
theorem contents_of_applies (hrun : Reaches domain revision labels p) (hfork : NoFork p)
    (q : SnapshotBuilder × Commit) (hq : q ∈ p.commits) (v : SnapshotVersion) (s : Snapshot)
    (happlies : handed.applies q.2 v = true) (hs : PublishedAs p v s) :
    contents s = contents q.1.base := by
  obtain ⟨_, _, fuel, hcommit⟩ := (run_history hrun).commits q hq
  have hbefore : q.1.base.version = v := by
    rw [← commit_delta_before q.1 fuel q.2 hcommit]
    exact eq_of_beq happlies
  exact contents_of_version hrun hfork q hq s hs.1 (by rw [hbefore, hs.2])

theorem foldl_reread_congr (s : Snapshot) (diffs : List Diff) {held held' : Mirror}
    {x : Address} {part : Part} (h : held x part = held' x part) :
    diffs.foldl (reread s) held x part = diffs.foldl (reread s) held' x part := by
  induction diffs generalizing held held' with
  | nil => exact h
  | cons d rest ih =>
    refine ih ?_
    unfold reread
    rw [h]

theorem flat_follows (hrun : Reaches domain revision labels p) (hfork : NoFork p)
    (q : SnapshotBuilder × Commit) (hq : q ∈ p.commits) :
    Follows handed flat (PublishedAs p) ShowsParts q.2 where
  published := published_after hrun q hq
  build := ⟨_, rfl, fun _ _ _ => rfl⟩
  patch v s held happlies hs hshows := by
    obtain ⟨_, _, fuel, hcommit⟩ := (run_history hrun).commits q hq
    have hcontents := contents_of_applies hrun hfork q hq v s happlies hs
    have hexact := exactlyApplies_of_contents q s fuel hcommit hcontents
    refine ⟨_, rfl, fun x part hpart => ?_⟩
    rw [foldl_reread_congr q.2.snapshot q.2.delta.diffs (hshows x part hpart)]
    exact hexact.mirror x part hpart

theorem linked_follows (hrun : Reaches domain revision labels p) (hfork : NoFork p)
    (hacyclic : ∀ s ∈ p.snapshots, AcyclicChildren s)
    (q : SnapshotBuilder × Commit) (hq : q ∈ p.commits) :
    Follows handed linked (PublishedAs p) ShowsTrees q.2 where
  published := published_after hrun q hq
  build := ⟨_, rfl, rfl⟩
  patch v s held happlies hs hshows := by
    obtain ⟨hbase, hafter, fuel, hcommit⟩ := (run_history hrun).commits q hq
    have hstate := state_of_contents s q.1.base
      (contents_of_applies hrun hfork q hq v s happlies hs)
    have hdescribed : Described q.1.base q.2.delta q.2.snapshot :=
      commit_describes q.1 fuel q.2 hcommit
    -- the two trees are cut at different depths
    have hwhole : whole s = whole q.1.base := by
      funext x
      exact whole_eq_of_tree (hacyclic s hs.1) (hacyclic _ hbase) x (fun depth => by rw [hstate])
    refine ⟨_, rfl, funext fun x => ?_⟩
    have hone := chain_relink (Run.single hdescribed) (hacyclic _ hbase) (hacyclic _ hafter) x
      (q.2.snapshot.len + 1) (Nat.lt_succ_self _)
    rw [hshows, hwhole, handed_state]
    simpa [concatenated] using hone

theorem painted_follows (hrun : Reaches domain revision labels p) (hfork : NoFork p)
    (q : SnapshotBuilder × Commit) (hq : q ∈ p.commits) (hkeeps : KeepsUnnamed q.1.base q.2) :
    Follows handed painted (PublishedAs p) ShowsDrawing q.2 where
  published := published_after hrun q hq
  build := by
    obtain ⟨_, _, fuel, hcommit⟩ := (run_history hrun).commits q hq
    have hown := (commit_reported q.1 fuel q.2 hcommit).2.keys
    refine ⟨⟨sortByKey paintKey (drawn q.2.snapshot)⟩, ?_, _, raster_own _ hown⟩
    unfold painted
    simp only [raster_own _ hown, Outcome.done_bind, Outcome.pure_eq]
  patch v s held happlies hs hshows := by
    obtain ⟨_, _, fuel, hcommit⟩ := (run_history hrun).commits q hq
    have hreported := (commit_reported q.1 fuel q.2 hcommit).2
    have hcontents := contents_of_applies hrun hfork q hq v s happlies hs
    have hdraw : opAt s = opAt q.1.base := by
      funext a
      exact opAt_congr a (congrFun (state_of_contents s q.1.base hcontents).symm a)
        (congrFun (congrArg Contents.rect hcontents) a)
    obtain ⟨work, hrender⟩ := hshows
    rw [raster_own s (ownKeys_of_done raster_foreign hrender)] at hrender
    obtain ⟨hheld, _⟩ := Prod.mk.inj (Outcome.done.inj hrender)
    have hdraws : Draws (opAt q.1.base) held.ops := by
      rw [← hheld, ← hdraw]
      exact draws_render s
    obtain ⟨work', region, ops, hrepaint, hafter⟩ := repaint_draws q.2.snapshot q.2.delta held
      hreported.nodup hreported.own (fun _ _ => address_of_opAt) hdraws
    rw [followed_eq hreported hkeeps] at hafter
    refine ⟨⟨sortByKey paintKey ops⟩, ?_, ⟨q.2.snapshot.len, q.2.snapshot.len⟩, ?_⟩
    · unfold painted
      simp only [hrepaint, Outcome.done_bind, Outcome.pure_eq]
    · rw [handed_state, raster_own _ hreported.keys, hafter.sorted_eq (draws_drawn q.2.snapshot)]

/-- What a consumer ends with after it was handed some commits: the snapshot handed last,
the version of that snapshot, and one rebuild for each delta that did not start where it
stood. It never rebuilt exactly when the deltas make up one chain. -/
def EndsAt {H : Type} (method : Method Trap Commit H) (Shows : H → Snapshot → Prop)
    (s : Snapshot) (held : H) (commits : List Commit) : Prop :=
  ∃ f, receiveAll handed method ⟨s.version, held, 0⟩ commits = .done f ∧
    f.version = (current handed s commits).version ∧ Shows f.held (current handed s commits) ∧
    f.rebuilds = gaps handed s.version commits ∧
    (f.rebuilds = 0 ↔ ∃ w, Run (Meets handed) s.version commits w)

theorem endsAt_of_follows {H : Type} {method : Method Trap Commit H}
    {Shows : H → Snapshot → Prop} {commits : List Commit}
    (hall : ∀ c ∈ commits, Follows handed method (PublishedAs p) Shows c) (s : Snapshot)
    (hs : s ∈ p.snapshots) (held : H) (hheld : Shows held s) :
    EndsAt method Shows s held commits := by
  obtain ⟨f, hreceive, hat, hshows, hcount⟩ :=
    receiveAll_shows commits hall ⟨s.version, held, 0⟩ s ⟨hs, rfl⟩ hheld
  rw [Nat.zero_add] at hcount
  refine ⟨f, hreceive, hat.2.symm, hshows, hcount, ?_⟩
  rw [hcount, gaps_eq_zero_iff]

end Process

/-- Whatever part of a run's commits is handed to a consumer, in whatever order and however
often, it ends with the snapshot handed last, as long as no version a commit was made on was
published with other contents. That goes for a flat map of parts, for trees over acyclic
children, and for a draw list if no box moves without an entry. -/
theorem consumers_follow (domain : Domain) (revision : Revision) (labels : List Action)
    (p : Process) (hrun : Reaches domain revision labels p) (hfork : NoFork p) (s : Snapshot)
    (hs : s ∈ p.snapshots) (handedOver : List (SnapshotBuilder × Commit))
    (hcommits : ∀ q ∈ handedOver, q ∈ p.commits) :
    EndsAt flat ShowsParts s (mirror s) (handedOver.map Prod.snd) ∧
      ((∀ t ∈ p.snapshots, AcyclicChildren t) →
        EndsAt linked ShowsTrees s (whole s) (handedOver.map Prod.snd)) ∧
      ((∀ q ∈ handedOver, KeepsUnnamed q.1.base q.2) → ∃ raster work,
        Raster.render s = .done (raster, work) ∧
        EndsAt painted ShowsDrawing s raster (handedOver.map Prod.snd)) := by
  have hall : ∀ (Good : Commit → Prop), (∀ q ∈ handedOver, Good q.2) →
      ∀ c ∈ handedOver.map Prod.snd, Good c := by
    intro Good hgood c hc
    obtain ⟨q, hq, rfl⟩ := List.mem_map.mp hc
    exact hgood q hq
  refine ⟨?_, fun hacyclic => ?_, fun hkeeps => ?_⟩
  · exact endsAt_of_follows (hall _ (fun q hq => flat_follows hrun hfork q (hcommits q hq))) s hs
      (mirror s) (fun _ _ _ => rfl)
  · exact endsAt_of_follows
      (hall _ (fun q hq => linked_follows hrun hfork hacyclic q (hcommits q hq))) s hs (whole s) rfl
  · have hown : OwnKeys s := by
      rcases (run_history hrun).published s hs with hfirst | ⟨q, hq, hqs, _⟩
      · rw [hfirst]
        intro a ha
        cases ha
      · obtain ⟨_, _, fuel, hcommit⟩ := (run_history hrun).commits q hq
        rw [← hqs]
        exact (commit_reported q.1 fuel q.2 hcommit).2.keys
    refine ⟨_, _, raster_own s hown, ?_⟩
    exact endsAt_of_follows
      (hall _ (fun q hq => painted_follows hrun hfork q (hcommits q hq) (hkeeps q hq))) s hs _
      ⟨_, raster_own s hown⟩

section Example

/-- Builders that are committed from different versions make no fork. -/
theorem noFork_of_versions {p : Process}
    (h : ∀ q₁ ∈ p.commits, ∀ q₂ ∈ p.commits,
      q₁.1.base.version = q₂.1.base.version → q₁.1 = q₂.1) :
    NoFork p := by
  intro q _ q₁ hq₁ q₂ hq₂ _ _ _ hsame
  rw [h q₁ hq₁ q₂ hq₂ hsame]

def line (delta : Delta) : Process where
  heap := ⟨2⟩
  snapshots := [Snapshot.empty dom (rev 1), written 0 "a", extended 1]
  builders := []
  commits := [(writing 0 "a", ⟨written 0 "a", delta⟩), (extending 1, ⟨extended 1, extension 1⟩)]

theorem reaches_line (delta : Delta)
    (h : commit (writing 0 "a") 2 = .done ⟨written 0 "a", delta⟩) :
    ∃ labels, Reaches dom (rev 1) labels (line delta) := by
  obtain ⟨_, hrun⟩ := reaches_editAndCommit (Run.nil (start dom (rev 1)))
    (Snapshot.empty dom (rev 1)) (by simp [start]) [.put (addr .node 1) { text := "a" }]
    (writing 0 "a") ⟨1⟩ rfl 2 _ h
  exact reaches_editAndCommit hrun (written 0 "a") (by simp) [.put (addr .node 2) {}]
    (extending 1) ⟨2⟩ rfl 3 _ (commit_extending 1)

theorem noFork_line (delta : Delta) : NoFork (line delta) := by
  have hne : (writing 0 "a").base.version ≠ (extending 1).base.version := by decide
  have hcases : ∀ q ∈ (line delta).commits, q.1 = writing 0 "a" ∨ q.1 = extending 1 := by
    intro q hq
    simp only [line, List.mem_cons, List.not_mem_nil, or_false] at hq
    exact hq.imp (congrArg Prod.fst) (congrArg Prod.fst)
  refine noFork_of_versions (fun q₁ hq₁ q₂ hq₂ hsame => ?_)
  rcases hcases q₁ hq₁ with h₁ | h₁ <;> rcases hcases q₂ hq₂ with h₂ | h₂
  · rw [h₁, h₂]
  · rw [h₁, h₂] at hsame
    exact absurd hsame hne
  · rw [h₁, h₂] at hsame
    exact absurd hsame.symm hne
  · rw [h₁, h₂]

/-- A consumer is handed the second commit of two, then the first, then the second again. It
rebuilds twice, and then the delta starts where it stands. -/
theorem consumers_follow_reordered :
    ∃ first second, EndsAt flat ShowsParts (Snapshot.empty dom (rev 1))
      (mirror (Snapshot.empty dom (rev 1))) [second, first, second] ∧
      second.snapshot = extended 1 ∧
      gaps handed (Snapshot.empty dom (rev 1)).version [second, first, second] = 2 := by
  obtain ⟨delta, hfirst⟩ := commit_writing 0 "a"
  obtain ⟨labels, hrun⟩ := reaches_line delta hfirst
  have hbefore : delta.before = (writing 0 "a").base.version := commit_delta_before _ _ _ hfirst
  have hafter : delta.after = (written 0 "a").version := commit_delta_after _ _ _ hfirst
  have hends := (consumers_follow dom (rev 1) labels (line delta) hrun (noFork_line delta)
    (Snapshot.empty dom (rev 1)) (by simp [line])
    [(extending 1, ⟨extended 1, extension 1⟩), (writing 0 "a", ⟨written 0 "a", delta⟩),
      (extending 1, ⟨extended 1, extension 1⟩)] (by simp [line])).1
  refine ⟨_, _, hends, rfl, ?_⟩
  simp only [gaps_cons, gaps_nil, handed, Delta.appliesTo, hbefore, hafter]
  decide

end Example

end CompositionIr.Consumers
