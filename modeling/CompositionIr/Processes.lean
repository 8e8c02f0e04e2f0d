import CompositionIr.CommitSpec
import CompositionIr.Transitions

/-!
A process over one domain. It starts from the empty snapshot; builders are opened on any
snapshot returned so far, any number at a time, and their calls and commits interleave
in any order. The process remembers which builder each commit was given and what it
returned.
-/

namespace CompositionIr.Processes

open Outcomes Transitions Addresses Records Placements Snapshots Deltas Commits CommitSpec

structure Process where
  heap : Heap
  snapshots : List Snapshot
  builders : List SnapshotBuilder
  commits : List (SnapshotBuilder × Commit)

inductive Action where
  | edit (s : Snapshot)
  | call (b : SnapshotBuilder) (e : Edit)
  | commit (b : SnapshotBuilder) (c : Commit)

inductive Step : Process → Action → Process → Prop
  | edit {p : Process} {s : Snapshot} (hs : s ∈ p.snapshots) :
      Step p (.edit s) { p with builders := s.edit :: p.builders }
  | call {p : Process} {b b' : SnapshotBuilder} {e : Edit} {heap' : Heap}
      {left right : List SnapshotBuilder} (hb : p.builders = left ++ b :: right)
      (hcall : e.apply b p.heap = .done (b', heap')) :
      Step p (.call b e) { p with heap := heap', builders := left ++ b' :: right }
  | commit {p : Process} {b : SnapshotBuilder} {c : Commit} {fuel : ℕ}
      {left right : List SnapshotBuilder} (hb : p.builders = left ++ b :: right)
      (hcommit : commit b fuel = .done c) :
      Step p (.commit b c)
        { p with snapshots := p.snapshots ++ [c.snapshot], builders := left ++ right,
                 commits := p.commits ++ [(b, c)] }

def start (domain : Domain) (revision : Revision) : Process where
  heap := ⟨0⟩
  snapshots := [Snapshot.empty domain revision]
  builders := []
  commits := []

abbrev Reaches (domain : Domain) (revision : Revision) (labels : List Action) (p : Process) :
    Prop := Run Step (start domain revision) labels p

section Others

variable {α : Type*} {left right held : List α} {b d : α}

/-- What is held besides the one that was used is as before. -/
theorem mem_of_mem_others (hb : held = left ++ b :: right) (hd : d ∈ left ++ right) :
    d ∈ held := by
  rw [hb]
  simp only [List.mem_append, List.mem_cons] at hd ⊢
  exact hd.imp id Or.inr

theorem mem_used (hb : held = left ++ b :: right) : b ∈ held := by
  rw [hb]
  simp

theorem mem_replaced {b' : α} (hb : held = left ++ b :: right)
    (hd : d ∈ left ++ b' :: right) : d = b' ∨ d ∈ held := by
  rcases List.mem_append.mp hd with hd | hd
  · exact Or.inr (mem_of_mem_others hb (List.mem_append_left _ hd))
  · exact (List.mem_cons.mp hd).imp id
      (fun hd => mem_of_mem_others hb (List.mem_append_right _ hd))

end Others

section Runs

theorem run_calls (edits : List Edit) (p : Process) (b b' : SnapshotBuilder) (heap' : Heap)
    (rest : List SnapshotBuilder) (hb : p.builders = b :: rest)
    (h : Edit.applyAll edits b p.heap = .done (b', heap')) :
    ∃ labels, Run Step p labels { p with heap := heap', builders := b' :: rest } := by
  induction edits generalizing p b with
  | nil =>
    obtain ⟨hbb, hheap⟩ := Prod.mk.inj (Outcome.done.inj h)
    subst hbb
    subst hheap
    have hsame : { p with builders := b :: rest } = p := by rw [← hb]
    rw [hsame]
    exact ⟨[], Run.nil p⟩
  | cons e edits ih =>
    obtain ⟨b₁, heap₁, hone, hrest⟩ := applyAll_cons_eq_done e edits b b' p.heap heap' h
    have hstep : Step p (.call b e) { p with heap := heap₁, builders := b₁ :: rest } :=
      @Step.call _ _ _ _ _ [] _ hb hone
    obtain ⟨labels, hrun⟩ := ih { p with heap := heap₁, builders := b₁ :: rest } b₁ rfl hrest
    exact ⟨[.call b e] ++ labels, (Run.single hstep).trans hrun⟩

/-- A builder opened, edited and committed with nothing in between. -/
theorem run_editAndCommit (p : Process) (s : Snapshot) (hs : s ∈ p.snapshots)
    (edits : List Edit) (b : SnapshotBuilder) (heap' : Heap)
    (hedits : Edit.applyAll edits s.edit p.heap = .done (b, heap')) (fuel : ℕ) (c : Commit)
    (hcommit : commit b fuel = .done c) :
    ∃ labels, Run Step p labels
      { p with heap := heap', snapshots := p.snapshots ++ [c.snapshot],
               commits := p.commits ++ [(b, c)] } := by
  have hopen : Step p (.edit s) { p with builders := s.edit :: p.builders } := Step.edit hs
  obtain ⟨labels, hcalls⟩ := run_calls edits { p with builders := s.edit :: p.builders } s.edit b
    heap' p.builders rfl hedits
  refine ⟨[.edit s] ++ labels ++ [.commit b c], ?_⟩
  exact ((Run.single hopen).trans hcalls).snoc (@Step.commit _ _ _ _ [] _ rfl hcommit)

theorem reaches_editAndCommit {domain : Domain} {revision : Revision} {labels : List Action}
    {p : Process} (hrun : Reaches domain revision labels p) (s : Snapshot)
    (hs : s ∈ p.snapshots) (edits : List Edit) (b : SnapshotBuilder) (heap' : Heap)
    (hedits : Edit.applyAll edits s.edit p.heap = .done (b, heap')) (fuel : ℕ) (c : Commit)
    (hcommit : commit b fuel = .done c) :
    ∃ labels', Reaches domain revision labels'
      { p with heap := heap', snapshots := p.snapshots ++ [c.snapshot],
               commits := p.commits ++ [(b, c)] } := by
  obtain ⟨rest, hrest⟩ := run_editAndCommit p s hs edits b heap' hedits fuel c hcommit
  exact ⟨labels ++ rest, hrun.trans hrest⟩

end Runs

section History

/-- What a process knows of its own past: every builder was opened on a snapshot it
holds, every commit it remembers was one, and every snapshot was returned by a commit
that published it. -/
structure History (first : Snapshot) (p : Process) : Prop where
  kept : first ∈ p.snapshots
  bases : ∀ b ∈ p.builders, b.base ∈ p.snapshots
  commits : ∀ q ∈ p.commits, q.1.base ∈ p.snapshots ∧ q.2.snapshot ∈ p.snapshots ∧
    ∃ fuel, commit q.1 fuel = .done q.2
  published : ∀ s ∈ p.snapshots, s = first ∨
    ∃ q ∈ p.commits, q.2.snapshot = s ∧ s.version ≠ q.1.base.version

/-- A commit returns its base or a snapshot of another version. -/
theorem commit_base_or_version (b : SnapshotBuilder) (fuel : ℕ) (c : Commit)
    (h : commit b fuel = .done c) :
    c.snapshot = b.base ∨ c.snapshot.version ≠ b.base.version := by
  rcases commit_result b fuel c h with ⟨_, hc⟩ | ⟨revision, _, hrev, hc⟩
  · exact Or.inl hc
  · refine Or.inr ?_
    rw [hc]
    intro heq
    exact nextRevision_ne _ _ hrev (congrArg SnapshotVersion.revision heq)

theorem step_history {first : Snapshot} {p p' : Process} {a : Action} (hstep : Step p a p')
    (hp : History first p) : History first p' := by
  obtain ⟨hfirst, hbases, hcommits, hsnapshots⟩ := hp
  cases hstep with
  | edit hs =>
    refine ⟨hfirst, ?_, hcommits, hsnapshots⟩
    intro b hb
    rcases List.mem_cons.mp hb with hb | hb
    · rw [hb]
      exact hs
    · exact hbases b hb
  | @call b b' e heap' left right hb hcall =>
    refine ⟨hfirst, ?_, hcommits, hsnapshots⟩
    intro d hd
    rcases mem_replaced hb hd with hd | hd
    · rw [hd, apply_base e b b' p.heap heap' hcall]
      exact hbases b (mem_used hb)
    · exact hbases d hd
  | @commit b c fuel left right hb hcommit =>
    have hbase : b.base ∈ p.snapshots := hbases b (mem_used hb)
    refine ⟨List.mem_append_left _ hfirst, ?_, ?_, ?_⟩
    · exact fun d hd => List.mem_append_left _ (hbases d (mem_of_mem_others hb hd))
    · intro q hq
      rcases List.mem_append.mp hq with hq | hq
      · obtain ⟨hqb, hqs, hqc⟩ := hcommits q hq
        exact ⟨List.mem_append_left _ hqb, List.mem_append_left _ hqs, hqc⟩
      · rw [List.mem_singleton.mp hq]
        exact ⟨List.mem_append_left _ hbase, by simp, fuel, hcommit⟩
    · have hold : ∀ s ∈ p.snapshots, s = first ∨
          ∃ q ∈ p.commits ++ [(b, c)], q.2.snapshot = s ∧ s.version ≠ q.1.base.version := by
        intro s hs
        rcases hsnapshots s hs with hs | ⟨q, hq, hqs⟩
        · exact Or.inl hs
        · exact Or.inr ⟨q, List.mem_append_left _ hq, hqs⟩
      intro s hs
      rcases List.mem_append.mp hs with hs | hs
      · exact hold s hs
      · rw [List.mem_singleton.mp hs]
        rcases commit_base_or_version b fuel c hcommit with heq | hne
        · rw [heq]
          exact hold b.base hbase
        · exact Or.inr ⟨(b, c), by simp, rfl, hne⟩

theorem run_history {domain : Domain} {revision : Revision} {labels : List Action}
    {p : Process} (hrun : Reaches domain revision labels p) :
    History (Snapshot.empty domain revision) p := by
  refine Run.preserves (History (Snapshot.empty domain revision)) hrun
    (fun _ _ _ hu hstep => step_history hstep hu) ?_
  exact ⟨by simp [start], by simp [start], by simp [start], by simp [start]⟩

/-- Every snapshot of a run is of its domain and not older than the first. -/
theorem run_versions {domain : Domain} {revision : Revision} {labels : List Action}
    {p : Process} (hrun : Reaches domain revision labels p) (s : Snapshot)
    (hs : s ∈ p.snapshots) :
    s.version.domain = domain ∧ revision.value.val ≤ s.version.revision.value.val := by
  induction hrun generalizing s with
  | nil =>
    rw [List.mem_singleton.mp hs]
    exact ⟨rfl, le_rfl⟩
  | @snoc t u labels a hrun hstep ih =>
    cases hstep with
    | edit _ => exact ih s hs
    | call _ _ => exact ih s hs
    | @commit b c fuel left right hb hcommit =>
      rcases List.mem_append.mp hs with hs | hs
      · exact ih s hs
      · have hbase := ih b.base ((run_history hrun).bases b (mem_used hb))
        rw [List.mem_singleton.mp hs]
        refine ⟨(commit_domain b fuel c hcommit).trans hbase.1, ?_⟩
        rcases commit_result b fuel c hcommit with ⟨_, hc⟩ | ⟨next, _, hnext, hc⟩
        · rw [hc]
          exact hbase.2
        · have hval := nextRevision_eq_done _ _ hnext
          rw [hc]
          change _ ≤ next.value.val
          omega

end History

section Allocations

/-- A record map whose allocations were made before the next one, each with the record
its serial number stands for. -/
def Backed (heap : Heap) (value : ℕ → Node) (records : RecordMap) : Prop :=
  ∀ x arc, records.lookup x = some arc → arc.serial < heap.next ∧ arc.node = value arc.serial

theorem Backed.mono {heap heap' : Heap} {value value' : ℕ → Node} {records : RecordMap}
    (h : Backed heap value records) (hle : heap.next ≤ heap'.next)
    (hagree : ∀ n < heap.next, value' n = value n) : Backed heap' value' records := by
  intro x arc harc
  obtain ⟨hlt, hval⟩ := h x arc harc
  exact ⟨by omega, by rw [hval, hagree _ hlt]⟩

theorem Backed.insert {heap : Heap} {value : ℕ → Node} {records : RecordMap}
    (h : Backed heap value records) (x : Address) (n : Node) :
    Backed ⟨heap.next + 1⟩ (Function.update value heap.next n)
      (records.insert x ⟨heap.next, n⟩) := by
  intro y arc harc
  by_cases hy : y = x
  · subst hy
    rw [AList.lookup_insert, Option.some.injEq] at harc
    subst harc
    exact ⟨Nat.lt_succ_self _, by simp⟩
  · rw [AList.lookup_insert_ne hy] at harc
    obtain ⟨hlt, hval⟩ := h y arc harc
    refine ⟨by simp only; omega, ?_⟩
    rw [Function.update_of_ne (by omega)]
    exact hval

theorem Backed.erase {heap : Heap} {value : ℕ → Node} {records : RecordMap}
    (h : Backed heap value records) (x : Address) : Backed heap value (records.erase x) := by
  intro y arc harc
  by_cases hy : y = x
  · subst hy
    rw [AList.lookup_erase] at harc
    cases harc
  · rw [AList.lookup_erase_ne hy] at harc
    exact h y arc harc

/-- A call leaves every earlier allocation as it was made. -/
theorem apply_backed (e : Edit) (b b' : SnapshotBuilder) (heap heap' : Heap)
    (value : ℕ → Node) (h : e.apply b heap = .done (b', heap'))
    (hb : Backed heap value b.records) :
    ∃ value', heap.next ≤ heap'.next ∧ (∀ n < heap.next, value' n = value n) ∧
      Backed heap' value' b'.records := by
  rcases apply_records e b b' heap heap' h with
    ⟨hrec, hheap, _⟩ | ⟨x, n, _, hrec, hheap⟩ | ⟨x, _, hrec, hheap⟩
  · rw [hrec, hheap]
    exact ⟨value, le_rfl, fun _ _ => rfl, hb⟩
  · rw [hrec, hheap]
    refine ⟨Function.update value heap.next n, Nat.le_succ _, ?_, hb.insert x n⟩
    intro m hm
    exact Function.update_of_ne (by omega) ..
  · rw [hrec, hheap]
    exact ⟨value, le_rfl, fun _ _ => rfl, hb.erase x⟩

/-- The record maps a process holds, those its builders were opened on included. -/
def Holds (p : Process) (records : RecordMap) : Prop :=
  (∃ s ∈ p.snapshots, s.records = records) ∨
    ∃ b ∈ p.builders, b.records = records ∨ b.base.records = records

/-- One assignment of records to serial numbers backs everything the process holds. -/
def Coherent (p : Process) : Prop :=
  ∃ value, ∀ records, Holds p records → Backed p.heap value records

theorem step_coherent {p p' : Process} {a : Action} (hstep : Step p a p') (hp : Coherent p) :
    Coherent p' := by
  obtain ⟨value, hp⟩ := hp
  cases hstep with
  | @edit s hs =>
    refine ⟨value, fun records h => hp records ?_⟩
    rcases h with h | ⟨b, hb, hrec⟩
    · exact Or.inl h
    · rcases List.mem_cons.mp hb with hb | hb
      · subst hb
        exact Or.inl ⟨s, hs, hrec.elim id id⟩
      · exact Or.inr ⟨b, hb, hrec⟩
  | @call b b' e heap' left right hb hcall =>
    have hmem := mem_used hb
    have hold : Backed p.heap value b.records := hp _ (Or.inr ⟨b, hmem, Or.inl rfl⟩)
    obtain ⟨value', hle, hagree, hnew⟩ := apply_backed e b b' p.heap heap' value hcall hold
    refine ⟨value', fun records h => ?_⟩
    have hcases : b'.records = records ∨ Holds p records := by
      rcases h with h | ⟨d, hd, hrec⟩
      · exact Or.inr (Or.inl h)
      · rcases mem_replaced hb hd with hdb | hd
        · rw [hdb, apply_base e b b' p.heap heap' hcall] at hrec
          exact hrec.imp id (fun hbase => Or.inr ⟨b, hmem, Or.inr hbase⟩)
        · exact Or.inr (Or.inr ⟨d, hd, hrec⟩)
    rcases hcases with hrec | hheld
    · rw [← hrec]
      exact hnew
    · exact (hp records hheld).mono hle hagree
  | @commit b c fuel left right hb hcommit =>
    have hmem := mem_used hb
    refine ⟨value, fun records h => hp records ?_⟩
    rcases h with ⟨s, hs, hrec⟩ | ⟨d, hd, hrec⟩
    · rcases List.mem_append.mp hs with hs | hs
      · exact Or.inl ⟨s, hs, hrec⟩
      · rw [List.mem_singleton.mp hs] at hrec
        rw [← hrec]
        rcases commit_records b fuel c hcommit with heq | heq
        · exact Or.inr ⟨b, hmem, Or.inr heq.symm⟩
        · exact Or.inr ⟨b, hmem, Or.inl heq.symm⟩
    · exact Or.inr ⟨d, mem_of_mem_others hb hd, hrec⟩

theorem run_coherent {domain : Domain} {revision : Revision} {labels : List Action}
    {p : Process} (hrun : Reaches domain revision labels p) : Coherent p := by
  refine Run.preserves Coherent hrun (fun _ _ _ hu hstep => step_coherent hstep hu) ?_
  refine ⟨fun _ => {}, fun records h => ?_⟩
  rcases h with ⟨s, hs, hrec⟩ | ⟨b, hb, _⟩
  · rw [← hrec, List.mem_singleton.mp hs]
    intro x arc harc
    rw [show (Snapshot.empty domain revision).records = ∅ from rfl, AList.lookup_empty] at harc
    cases harc
  · cases hb

/-- Among the records of one process, pointer equality is equality of serial numbers. -/
theorem ptrEq_iff_serial {p : Process} (hp : Coherent p) (records records' : RecordMap)
    (h : Holds p records) (h' : Holds p records') (x x' : Address) (a b : Arc)
    (ha : records.lookup x = some a) (hb : records'.lookup x' = some b) :
    a.ptrEq b = true ↔ a.serial = b.serial := by
  obtain ⟨value, hp⟩ := hp
  obtain ⟨_, hva⟩ := hp records h x a ha
  obtain ⟨_, hvb⟩ := hp records' h' x' b hb
  unfold Arc.ptrEq
  rw [beq_iff_eq]
  constructor
  · intro heq
    rw [heq]
  · intro hserial
    cases a
    cases b
    simp_all

end Allocations

end CompositionIr.Processes
