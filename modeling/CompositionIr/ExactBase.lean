import CompositionIr.DeltaComposition
import CompositionIr.Processes

/-!
The whole precondition of a delta is one comparison of versions. It is enough as long as
a version stands for one published state. Two builders opened on one base publish under
one version, whatever they hold, and a delta from one of the two then applies to both.
-/

namespace CompositionIr.ExactBase

open Outcomes ChildGraphs Transitions Addresses Records Placements Snapshots Deltas Commits
open PublishedStates CommitSpec DeltaComposition Processes

structure Contents where
  records : ChildGraph Address Node
  roots : List Address
  rect : Address → Option Rect

def contents (s : Snapshot) : Contents := ⟨graph id s.records, s.roots, s.placement.rect⟩

def accumulated (b : SnapshotBuilder) : Contents := ⟨graph id b.records, b.roots, b.placement.rect⟩

/-- A commit that publishes shows what was accumulated, one revision later. -/
theorem commit_published (b : SnapshotBuilder) (fuel : ℕ) (c : Commit)
    (h : commit b fuel = .done c) (hpub : ¬ Unchanged b) :
    contents c.snapshot = accumulated b ∧
      c.snapshot.version.revision.value.val = b.base.version.revision.value.val + 1 := by
  rcases commit_result b fuel c h with ⟨hun, _⟩ | ⟨revision, _, hrev, hc⟩
  · exact absurd hun hpub
  · rw [hc]
    exact ⟨rfl, nextRevision_eq_done _ _ hrev⟩

theorem changed_of_version_ne (b : SnapshotBuilder) (fuel : ℕ) (c : Commit)
    (h : commit b fuel = .done c) (hne : c.snapshot.version ≠ b.base.version) :
    ¬ Unchanged b := by
  rcases commit_result b fuel c h with ⟨_, hc⟩ | ⟨_, hpub, _, _⟩
  · rw [hc] at hne
    exact absurd rfl hne
  · exact hpub

theorem version_eq_iff (v w : SnapshotVersion) (hdomain : v.domain = w.domain) :
    v = w ↔ v.revision.value.val = w.revision.value.val := by
  constructor
  · intro heq
    rw [heq]
  · intro hval
    obtain ⟨vd, ⟨vr⟩⟩ := v
    obtain ⟨wd, ⟨wr⟩⟩ := w
    have hd : vd = wd := hdomain
    have hr : vr = wr := NonZeroU64.ext_val hval
    rw [hd, hr]

theorem state_of_contents (s t : Snapshot) (h : contents s = contents t) :
    state s.records = state t.records := by
  have hrecords : graph id s.records = graph id t.records := congrArg Contents.records h
  funext x
  apply graph_congr
  exact congrFun hrecords x

/-- No commit starts from a version that was published with other contents as well: two
commits that publish from one version agree when a later one was opened on either. -/
def NoFork (p : Process) : Prop :=
  ∀ q ∈ p.commits, ∀ q₁ ∈ p.commits, ∀ q₂ ∈ p.commits, q.1.base = q₂.2.snapshot →
    ¬ Unchanged q₁.1 → ¬ Unchanged q₂.1 → q₁.1.base.version = q₂.1.base.version →
    accumulated q₁.1 = accumulated q₂.1

section Versions

variable {domain : Domain} {revision : Revision} {labels : List Action} {p : Process}

/-- Every snapshot is the first one or was published by a commit of the run. -/
theorem published_by (hrun : Reaches domain revision labels p) (s : Snapshot)
    (hs : s ∈ p.snapshots) :
    s = Snapshot.empty domain revision ∨
      ∃ q ∈ p.commits, q.2.snapshot = s ∧ ¬ Unchanged q.1 ∧ contents s = accumulated q.1 ∧
        s.version.revision.value.val = q.1.base.version.revision.value.val + 1 := by
  have hist := run_history hrun
  rcases hist.published s hs with hs | ⟨q, hq, hqs, hne⟩
  · exact Or.inl hs
  · obtain ⟨_, _, fuel, hcommit⟩ := hist.commits q hq
    rw [← hqs] at hne
    have hchanged := changed_of_version_ne q.1 fuel q.2 hcommit hne
    obtain ⟨hcontents, hrev⟩ := commit_published q.1 fuel q.2 hcommit hchanged
    rw [hqs] at hcontents hrev
    exact Or.inr ⟨q, hq, hqs, hchanged, hcontents, hrev⟩

/-- Without a fork the version of a commit's base stands for the contents of the base. -/
theorem contents_of_version (hrun : Reaches domain revision labels p) (hfork : NoFork p)
    (q : SnapshotBuilder × Commit) (hq : q ∈ p.commits) (s : Snapshot) (hs : s ∈ p.snapshots)
    (hv : q.1.base.version = s.version) : contents s = contents q.1.base := by
  have hbase := ((run_history hrun).commits q hq).1
  have hrev : q.1.base.version.revision.value.val = s.version.revision.value.val := by rw [hv]
  rcases published_by hrun s hs with hfirst | ⟨q₁, hq₁, _, hch₁, hcon₁, hrev₁⟩
  · rcases published_by hrun _ hbase with hb | ⟨q₂, hq₂, _, _, _, hrev₂⟩
    · rw [hfirst, hb]
    · -- a published base is younger than the first snapshot
      have hge := (run_versions hrun _ ((run_history hrun).commits q₂ hq₂).1).2
      have hs₀ : s.version.revision.value.val = revision.value.val := by
        rw [hfirst]
        rfl
      omega
  · rcases published_by hrun _ hbase with hb | ⟨q₂, hq₂, hqs₂, hch₂, hcon₂, hrev₂⟩
    · have hge := (run_versions hrun _ ((run_history hrun).commits q₁ hq₁).1).2
      have hb₀ : q.1.base.version.revision.value.val = revision.value.val := by
        rw [hb]
        rfl
      omega
    · have hd₁ := (run_versions hrun _ ((run_history hrun).commits q₁ hq₁).1).1
      have hd₂ := (run_versions hrun _ ((run_history hrun).commits q₂ hq₂).1).1
      have hsame : q₁.1.base.version = q₂.1.base.version := by
        rw [version_eq_iff _ _ (hd₁.trans hd₂.symm)]
        omega
      rw [hcon₁, hcon₂]
      exact hfork q hq q₁ hq₁ q₂ hq₂ hqs₂.symm hch₁ hch₂ hsame

end Versions

/-- What one comparison promises of a commit and a snapshot: the snapshot shows what the
base of the commit shows, and rereading what the delta names turns its mirror into that
of the result. -/
structure ExactlyApplies (q : SnapshotBuilder × Commit) (s : Snapshot) : Prop where
  contents : contents s = contents q.1.base
  mirror : ∀ x p, p ∈ ownParts →
    q.2.delta.diffs.foldl (reread q.2.snapshot) (mirror s) x p = mirror q.2.snapshot x p

theorem exactlyApplies_of_contents (q : SnapshotBuilder × Commit) (s : Snapshot) (fuel : ℕ)
    (hcommit : commit q.1 fuel = .done q.2) (h : contents s = contents q.1.base) :
    ExactlyApplies q s := by
  refine ⟨h, fun x p hp => ?_⟩
  have hdesc : Described q.1.base q.2.delta q.2.snapshot := commit_describes q.1 fuel q.2 hcommit
  have hmirror : mirror s = mirror q.1.base := by
    unfold mirror
    rw [state_of_contents s q.1.base h]
  have hone := chain_mirror (Run.single hdesc) x p hp
  rw [hmirror]
  simpa [concatenated] using hone

/-- In every run, every delta that passes the comparison applies exactly when and only
when no version that a commit started from was published twice with different contents. -/
theorem applies_exactly_iff_noFork (domain : Domain) (revision : Revision)
    (labels : List Action) (p : Process) (hrun : Reaches domain revision labels p) :
    (∀ q ∈ p.commits, ∀ s ∈ p.snapshots, q.2.delta.appliesTo s.version = true →
      ExactlyApplies q s) ↔ NoFork p := by
  have hist := run_history hrun
  have happlies : ∀ q ∈ p.commits, ∀ v, q.2.delta.appliesTo v = true ↔
      q.1.base.version = v := by
    intro q hq v
    obtain ⟨_, _, fuel, hcommit⟩ := hist.commits q hq
    unfold Delta.appliesTo
    rw [commit_delta_before q.1 fuel q.2 hcommit, beq_iff_eq]
  constructor
  · intro hall q hq q₁ hq₁ q₂ hq₂ hbase hch₁ hch₂ hsame
    obtain ⟨hb₁, hs₁, fuel₁, hcommit₁⟩ := hist.commits q₁ hq₁
    obtain ⟨hb₂, hs₂, fuel₂, hcommit₂⟩ := hist.commits q₂ hq₂
    obtain ⟨hcon₁, hrev₁⟩ := commit_published q₁.1 fuel₁ q₁.2 hcommit₁ hch₁
    obtain ⟨hcon₂, hrev₂⟩ := commit_published q₂.1 fuel₂ q₂.2 hcommit₂ hch₂
    have hv : q.1.base.version = q₁.2.snapshot.version := by
      rw [hbase, version_eq_iff _ _
        ((run_versions hrun _ hs₂).1.trans (run_versions hrun _ hs₁).1.symm), hrev₁, hrev₂, hsame]
    have hcon := (hall q hq _ hs₁ ((happlies q hq _).mpr hv)).contents
    rw [← hcon₁, ← hcon₂, hcon, hbase]
  · intro hfork q hq s hs happ
    obtain ⟨_, _, fuel, hcommit⟩ := hist.commits q hq
    have hv := (happlies q hq _).mp happ
    exact exactlyApplies_of_contents q s fuel hcommit
      (contents_of_version hrun hfork q hq s hs hv)

section Fork

def writing (serial : ℕ) (text : String) : SnapshotBuilder :=
  { (Snapshot.empty dom (rev 1)).edit with
    records := (∅ : RecordMap).insert (addr .node 1) ⟨serial, { text := text }⟩ }

def written (serial : ℕ) (text : String) : Snapshot := candidate (writing serial text) (rev 2)

def extending (serial : ℕ) : SnapshotBuilder :=
  { (written 0 "a").edit with
    records := (written 0 "a").records.insert (addr .node 2) ⟨serial, {}⟩ }

def extended (serial : ℕ) : Snapshot := candidate (extending serial) (rev 3)

def extension (serial : ℕ) : Delta :=
  ⟨(written 0 "a").version, (extended serial).version,
    [⟨addr .node 2, ownParts.foldl Parts.insert Parts.empty⟩]⟩

theorem commit_writing (serial : ℕ) (text : String) :
    ∃ delta, commit (writing serial text) 2 = .done ⟨written serial text, delta⟩ := ⟨_, rfl⟩

theorem commit_extending (serial : ℕ) :
    commit (extending serial) 3 = .done ⟨extended serial, extension serial⟩ := rfl

theorem reaches_written :
    ∃ labels delta, Reaches dom (rev 1) labels
      ⟨⟨1⟩, [Snapshot.empty dom (rev 1), written 0 "a"], [],
        [(writing 0 "a", ⟨written 0 "a", delta⟩)]⟩ := by
  obtain ⟨delta, ha⟩ := commit_writing 0 "a"
  obtain ⟨labels, hrun⟩ := reaches_editAndCommit (Run.nil (start dom (rev 1)))
    (Snapshot.empty dom (rev 1)) (by simp [start]) [.put (addr .node 1) { text := "a" }]
    (writing 0 "a") ⟨1⟩ rfl 2 _ ha
  exact ⟨labels, delta, hrun⟩

/-- Two builders opened on one base publish "a" and "b" under one version. The delta of
the next commit on "a" applies to "b" too, and leaves the consumer of "b" with "b". -/
theorem forked_base_passes_comparison :
    ∃ labels p, Reaches dom (rev 1) labels p ∧
      ∃ q ∈ p.commits, ∃ s ∈ p.snapshots, q.2.delta.appliesTo s.version = true ∧
        contents s ≠ contents q.1.base ∧
        q.2.delta.diffs.foldl (reread q.2.snapshot) (mirror s) (addr .node 1) Part.text ≠
          mirror q.2.snapshot (addr .node 1) Part.text := by
  obtain ⟨_, _, hruna⟩ := reaches_written
  obtain ⟨_, hb⟩ := commit_writing 1 "b"
  obtain ⟨_, hrunb⟩ := reaches_editAndCommit hruna (Snapshot.empty dom (rev 1)) (by simp)
    [.put (addr .node 1) { text := "b" }] (writing 1 "b") ⟨2⟩ rfl 2 _ hb
  obtain ⟨_, hrunc⟩ := reaches_editAndCommit hrunb (written 0 "a") (by simp)
    [.put (addr .node 2) {}] (extending 2) ⟨3⟩ rfl 3 _ (commit_extending 2)
  refine ⟨_, _, hrunc, (extending 2, ⟨extended 2, extension 2⟩), by simp, written 1 "b", by simp,
    rfl, ?_, ?_⟩
  · intro h
    have htext : (some "b" : Option String) = some "a" :=
      congrArg (fun k => (k.records (addr .node 1)).map Node.text) h
    revert htext
    decide
  · intro h
    have htext : (some "b" : Option String) = some "a" := h
    revert htext
    decide

/-- The commits on "a" alone leave every comparison exact. -/
theorem applies_exactly_linear :
    ∃ labels p, Reaches dom (rev 1) labels p ∧
      (extending 1, ⟨extended 1, extension 1⟩) ∈ p.commits ∧
      ∀ q ∈ p.commits, ∀ s ∈ p.snapshots, q.2.delta.appliesTo s.version = true →
        ExactlyApplies q s := by
  obtain ⟨_, _, hruna⟩ := reaches_written
  obtain ⟨labels, hrun⟩ := reaches_editAndCommit hruna (written 0 "a") (by simp)
    [.put (addr .node 2) {}] (extending 1) ⟨2⟩ rfl 3 _ (commit_extending 1)
  refine ⟨labels, _, hrun, by simp, ?_⟩
  refine (applies_exactly_iff_noFork dom (rev 1) labels _ hrun).mpr ?_
  have hne : (writing 0 "a").base.version ≠ (extending 1).base.version := by decide
  intro q _ q₁ hq₁ q₂ hq₂ _ _ _ hsame
  simp only [List.singleton_append, List.mem_cons, List.not_mem_nil, or_false] at hq₁ hq₂
  rcases hq₁ with hq₁ | hq₁
  · rcases hq₂ with hq₂ | hq₂
    · rw [hq₁, hq₂]
    · rw [hq₁, hq₂] at hsame
      exact absurd hsame hne
  · rcases hq₂ with hq₂ | hq₂
    · rw [hq₁, hq₂] at hsame
      exact absurd hsame.symm hne
    · rw [hq₁, hq₂]

end Fork

end CompositionIr.ExactBase
