import Mathlib.Data.Set.Card
import CompositionIr.Processes

/-!
Where the records of a process come from. The allocations of a run are its effective writes,
one for each, in order; so every instance in any snapshot was made by one call, at the
address it is found under and with the value it shows. Snapshots share all the rest: however
many are kept, an address has no more instances than writes.
-/

namespace CompositionIr.Provenance

open Outcomes Transitions Addresses Records Placements Snapshots Deltas Commits
open CommitSpec Processes

section Calls

/-- The record a call makes, with its address; a call on an address without one makes none. -/
def made (b : SnapshotBuilder) : Edit → List (Address × Node)
  | .put x n => [(x, n)]
  | .update x f | .updateIfLive x f =>
    ((b.records.lookup x).map (fun arc => (x, f arc.node))).toList
  | .remove _ | .root _ | .resetPlacement | .place _ _ | .translate _ _ _ => []

def madeBy : Action → List (Address × Node)
  | .call b e => made b e
  | .edit _ | .commit _ _ => []

def writes (labels : List Action) : List (Address × Node) := labels.flatMap madeBy

theorem writes_snoc (labels : List Action) (a : Action) :
    writes (labels ++ [a]) = writes labels ++ madeBy a := by
  simp [writes]

variable {e : Edit} {b b' : SnapshotBuilder} {heap heap' : Heap}

/-- A call makes one allocation, under one address, or none. -/
theorem apply_made (h : e.apply b heap = .done (b', heap')) :
    (made b e = [] ∧ heap' = heap ∧
        ∀ x arc, b'.records.lookup x = some arc → b.records.lookup x = some arc) ∨
      ∃ x n, made b e = [(x, n)] ∧ heap' = ⟨heap.next + 1⟩ ∧
        b'.records = b.records.insert x ⟨heap.next, n⟩ := by
  cases e with
  | put x n =>
    obtain ⟨hb, hheap⟩ := Prod.mk.inj (Outcome.done.inj h)
    exact Or.inr ⟨x, n, rfl, hheap.symm, by rw [← hb]⟩
  | update x f =>
    obtain ⟨arc, harc, hheap, hb⟩ := update_eq_done b b' heap heap' x f h
    exact Or.inr ⟨x, f arc.node, by simp [made, harc], hheap, by rw [hb]⟩
  | updateIfLive x f =>
    rcases updateIfLive_eq_done b b' heap heap' x f h with hone | ⟨hnone, hb, hheap⟩
    · obtain ⟨arc, harc, hheap, hb⟩ := update_eq_done b b' heap heap' x f hone
      exact Or.inr ⟨x, f arc.node, by simp [made, harc], hheap, by rw [hb]⟩
    · refine Or.inl ⟨by simp [made, hnone], hheap, fun y arc harc => ?_⟩
      rw [← hb]
      exact harc
  | remove x =>
    obtain ⟨hb, hheap⟩ := Prod.mk.inj (Outcome.done.inj h)
    refine Or.inl ⟨rfl, hheap.symm, fun y arc harc => ?_⟩
    rw [← hb] at harc
    change (b.records.erase x).lookup y = some arc at harc
    by_cases hy : y = x
    · rw [hy, AList.lookup_erase] at harc
      cases harc
    · rw [AList.lookup_erase_ne hy] at harc
      exact harc
  | root _ | resetPlacement | place _ _ | translate _ _ _ =>
    obtain ⟨hb, hheap⟩ := Prod.mk.inj (Outcome.done.inj h)
    refine Or.inl ⟨rfl, hheap.symm, fun y arc harc => ?_⟩
    rw [← hb] at harc
    exact harc

end Calls

section Steps

/-- What a process holds after a step it held before, or a call left it in its builder. -/
theorem step_holds {p p' : Process} {a : Action} (hstep : Step p a p') {records : RecordMap}
    (h : Holds p' records) :
    Holds p records ∨ ∃ b b' e, a = .call b e ∧ e.apply b p.heap = .done (b', p'.heap) ∧
      Holds p b.records ∧ b'.records = records := by
  cases hstep with
  | @edit s hs =>
    rcases h with h | ⟨b, hb, hrec⟩
    · exact Or.inl (Or.inl h)
    · rcases List.mem_cons.mp hb with hb | hb
      · subst hb
        exact Or.inl (Or.inl ⟨s, hs, hrec.elim id id⟩)
      · exact Or.inl (Or.inr ⟨b, hb, hrec⟩)
  | @call b b' e heap' left right hb hcall =>
    have hmem := mem_used hb
    rcases h with h | ⟨d, hd, hrec⟩
    · exact Or.inl (Or.inl h)
    · rcases mem_replaced hb hd with hdb | hd
      · rw [hdb, apply_base e b b' p.heap heap' hcall] at hrec
        rcases hrec with hrec | hbase
        · exact Or.inr ⟨b, b', e, rfl, hcall, Or.inr ⟨b, hmem, Or.inl rfl⟩, hrec⟩
        · exact Or.inl (Or.inr ⟨b, hmem, Or.inr hbase⟩)
      · exact Or.inl (Or.inr ⟨d, hd, hrec⟩)
  | @commit b c fuel left right hb hcommit =>
    have hmem := mem_used hb
    rcases h with ⟨s, hs, hrec⟩ | ⟨d, hd, hrec⟩
    · rcases List.mem_append.mp hs with hs | hs
      · exact Or.inl (Or.inl ⟨s, hs, hrec⟩)
      · rw [List.mem_singleton.mp hs] at hrec
        rw [← hrec]
        rcases commit_records b fuel c hcommit with heq | heq
        · exact Or.inl (Or.inr ⟨b, hmem, Or.inr heq.symm⟩)
        · exact Or.inl (Or.inr ⟨b, hmem, Or.inl heq.symm⟩)
    · exact Or.inl (Or.inr ⟨d, mem_of_mem_others hb hd, hrec⟩)

/-- Every instance of a map is the write its serial number counts. -/
def Traced (log : List (Address × Node)) (records : RecordMap) : Prop :=
  ∀ x arc, records.lookup x = some arc → log[arc.serial]? = some (x, arc.node)

theorem Traced.append {log : List (Address × Node)} {records : RecordMap}
    (h : Traced log records) (more : List (Address × Node)) : Traced (log ++ more) records := by
  intro x arc harc
  have hmade := h x arc harc
  rw [List.getElem?_append_left (List.getElem?_eq_some_iff.mp hmade).1]
  exact hmade

theorem Traced.insert {log : List (Address × Node)} {records : RecordMap}
    (h : Traced log records) (x : Address) (n : Node) :
    Traced (log ++ [(x, n)]) (records.insert x ⟨log.length, n⟩) := by
  intro y arc harc
  by_cases hy : y = x
  · subst hy
    rw [AList.lookup_insert, Option.some.injEq] at harc
    rw [← harc, List.getElem?_concat_length]
  · rw [AList.lookup_insert_ne hy] at harc
    exact h.append [(x, n)] y arc harc

structure Accounted (log : List (Address × Node)) (p : Process) : Prop where
  heap : p.heap.next = log.length
  held : ∀ records, Holds p records → Traced log records

theorem step_accounted {p p' : Process} {a : Action} {log : List (Address × Node)}
    (hstep : Step p a p') (hp : Accounted log p) : Accounted (log ++ madeBy a) p' := by
  have hheap : p'.heap.next = (log ++ madeBy a).length := by
    rw [List.length_append, ← hp.heap]
    cases hstep with
    | edit hs => rfl
    | commit hb hcommit => rfl
    | @call b b' e heap' left right hb hcall =>
      rcases apply_made hcall with ⟨hmade, hsame, _⟩ | ⟨x, n, hmade, hnext, _⟩
      · simp [madeBy, hmade, hsame]
      · simp [madeBy, hmade, hnext]
  refine ⟨hheap, fun records hrec => ?_⟩
  rcases step_holds hstep hrec with hold | ⟨b, b', e, ha, hcall, hb, hrecords⟩
  · exact (hp.held records hold).append _
  · subst hrecords
    subst ha
    have hbefore := hp.held b.records hb
    rcases apply_made hcall with ⟨hmade, _, hkept⟩ | ⟨x, n, hmade, _, hinsert⟩
    · intro y arc harc
      exact hbefore.append _ y arc (hkept y arc harc)
    · rw [hinsert, hp.heap]
      change Traced (log ++ made b e) _
      rw [hmade]
      exact hbefore.insert x n

theorem run_accounted {domain : Domain} {revision : Revision} {labels : List Action}
    {p : Process} (hrun : Reaches domain revision labels p) : Accounted (writes labels) p := by
  induction hrun with
  | nil =>
    refine ⟨rfl, fun records h => ?_⟩
    rcases h with ⟨s, hs, hrec⟩ | ⟨b, hb, _⟩
    · rw [← hrec, List.mem_singleton.mp hs]
      intro x arc harc
      rw [show (Snapshot.empty domain revision).records = ∅ from rfl, AList.lookup_empty] at harc
      cases harc
    · cases hb
  | @snoc t u labels a _ hstep ih =>
    rw [writes_snoc]
    exact step_accounted hstep ih

end Steps

section Counting

variable {log : List (Address × Node)}

/-- The positions of a list whose element passes a test are as many as such elements. -/
theorem card_positions (test : Address × Node → Bool) (log : List (Address × Node)) :
    ((Finset.range log.length).filter (fun i => (log[i]?).any test = true)).card =
      log.countP test := by
  induction log using List.reverseRecOn with
  | nil => rfl
  | append_singleton log w ih =>
    have hbefore : (Finset.range log.length).filter
          (fun i => ((log ++ [w])[i]?).any test = true) =
        (Finset.range log.length).filter (fun i => (log[i]?).any test = true) := by
      refine Finset.filter_congr (fun i hi => ?_)
      rw [List.getElem?_append_left (Finset.mem_range.mp hi)]
    rw [List.length_append, List.length_singleton, Finset.range_add_one, Finset.filter_insert,
      hbefore, List.getElem?_concat_length, Option.any_some, List.countP_append,
      List.countP_singleton]
    by_cases hw : test w = true
    · rw [if_pos hw, if_pos hw, Finset.card_insert_of_notMem (by simp), ih]
    · rw [if_neg hw, if_neg hw, ih, Nat.add_zero]

/-- Instances that are writes which pass a test are no more than such writes. -/
theorem encard_traced_le (test : Address × Node → Bool) (arcs : Set Arc)
    (h : ∀ arc ∈ arcs, ∃ x, log[arc.serial]? = some (x, arc.node) ∧ test (x, arc.node) = true) :
    arcs.encard ≤ (log.countP test : ℕ∞) := by
  have hinj : Set.InjOn Arc.serial arcs := by
    intro a ha b hb hserial
    obtain ⟨x, hx, _⟩ := h a ha
    obtain ⟨y, hy, _⟩ := h b hb
    rw [hserial, hy, Option.some.injEq, Prod.mk.injEq] at hx
    obtain ⟨serial, node⟩ := a
    rw [Arc.mk.injEq]
    exact ⟨hserial, hx.2.symm⟩
  have hsub : Set.image Arc.serial arcs ⊆
      ↑((Finset.range log.length).filter (fun i => (log[i]?).any test = true)) := by
    rintro i ⟨arc, harc, rfl⟩
    obtain ⟨x, hx, htest⟩ := h arc harc
    rw [Finset.mem_coe, Finset.mem_filter, Finset.mem_range, hx]
    exact ⟨(List.getElem?_eq_some_iff.mp hx).1, by simpa using htest⟩
  calc arcs.encard = (Set.image Arc.serial arcs).encard := (hinj.encard_image).symm
    _ ≤ _ := Set.encard_le_encard hsub
    _ = (log.countP test : ℕ∞) := by rw [Set.encard_coe_eq_coe_finsetCard, card_positions]

end Counting

def instancesAt (p : Process) (x : Address) : Set Arc :=
  fun arc => ∃ s ∈ p.snapshots, s.records.lookup x = some arc

/-- In every run, every instance of every snapshot is one write, made at its address with
its value; and all the snapshots together have no more instances under an address than it
was written, and no more instances than there were writes. -/
theorem instances_are_writes (domain : Domain) (revision : Revision) (labels : List Action)
    (p : Process) (hrun : Reaches domain revision labels p) :
    (∀ s ∈ p.snapshots, ∀ x arc, s.records.lookup x = some arc →
        (writes labels)[arc.serial]? = some (x, arc.node)) ∧
      (∀ x, (instancesAt p x).encard ≤ ((writes labels).countP (fun w => w.1 == x) : ℕ∞)) ∧
      (⋃ x, instancesAt p x).encard ≤ ((writes labels).length : ℕ∞) := by
  have hheld : ∀ s ∈ p.snapshots, Traced (writes labels) s.records :=
    fun s hs => (run_accounted hrun).held s.records (Or.inl ⟨s, hs, rfl⟩)
  refine ⟨hheld, fun x => ?_, ?_⟩
  · refine encard_traced_le _ _ ?_
    rintro arc ⟨s, hs, harc⟩
    exact ⟨x, hheld s hs x arc harc, by simp⟩
  · have htotal : (writes labels).countP (fun _ => true) = (writes labels).length :=
      congrFun List.countP_true _
    rw [← htotal]
    refine encard_traced_le _ _ ?_
    intro arc harc
    obtain ⟨x, s, hs, harc⟩ := Set.mem_iUnion.mp harc
    exact ⟨x, hheld s hs x arc harc, rfl⟩

section Example

def opened : SnapshotBuilder := (Snapshot.empty dom (rev 1)).edit

def paired : SnapshotBuilder :=
  ((opened.put ⟨0⟩ (addr .node 1) {}).1.put ⟨1⟩ (addr .node 2) {}).1

def pair : Snapshot := candidate paired (rev 2)

def rewritten : SnapshotBuilder :=
  (pair.edit.put ⟨2⟩ (addr .node 2) { text := "b" }).1

theorem commit_paired : ∃ delta, commit paired 3 = .done ⟨pair, delta⟩ := ⟨_, rfl⟩

theorem commit_rewritten :
    ∃ delta, commit rewritten 3 = .done ⟨candidate rewritten (rev 3), delta⟩ := ⟨_, rfl⟩

def pairActions (first second : Delta) : List Action :=
  [.edit (Snapshot.empty dom (rev 1)), .call opened (.put (addr .node 1) {}),
    .call (opened.put ⟨0⟩ (addr .node 1) {}).1 (.put (addr .node 2) {}),
    .commit paired ⟨pair, first⟩, .edit pair,
    .call pair.edit (.put (addr .node 2) { text := "b" }),
    .commit rewritten ⟨candidate rewritten (rev 3), second⟩]

theorem reaches_pair :
    ∃ first second p, Reaches dom (rev 1) (pairActions first second) p ∧ pair ∈ p.snapshots := by
  obtain ⟨first, hfirst⟩ := commit_paired
  obtain ⟨second, hsecond⟩ := commit_rewritten
  refine ⟨first, second, ⟨⟨3⟩, [Snapshot.empty dom (rev 1), pair, candidate rewritten (rev 3)], [],
    [(paired, ⟨pair, first⟩), (rewritten, ⟨candidate rewritten (rev 3), second⟩)]⟩, ?_, by simp⟩
  refine Run.cons_iff.mpr ⟨_, Step.edit (by simp [start]), ?_⟩
  refine Run.cons_iff.mpr ⟨_, @Step.call _ _ _ _ _ [] _ rfl rfl, ?_⟩
  refine Run.cons_iff.mpr ⟨_, @Step.call _ _ _ _ _ [] _ rfl rfl, ?_⟩
  refine Run.cons_iff.mpr ⟨_, @Step.commit _ _ _ 3 [] _ rfl hfirst, ?_⟩
  refine Run.cons_iff.mpr ⟨_, Step.edit (by simp [start]), ?_⟩
  refine Run.cons_iff.mpr ⟨_, @Step.call _ _ _ _ _ [] _ rfl rfl, ?_⟩
  exact Run.single (@Step.commit _ _ _ 3 [] _ rfl hsecond)

/-- Three snapshots of up to two records, three writes. -/
theorem instances_are_writes_pair :
    ∃ first second p, pair ∈ p.snapshots ∧
      (∀ s ∈ p.snapshots, ∀ x arc, s.records.lookup x = some arc →
        (writes (pairActions first second))[arc.serial]? = some (x, arc.node)) ∧
      (∀ x, (instancesAt p x).encard ≤
        ((writes (pairActions first second)).countP (fun w => w.1 == x) : ℕ∞)) ∧
      (⋃ x, instancesAt p x).encard ≤ 3 := by
  obtain ⟨first, second, p, hrun, hpair⟩ := reaches_pair
  exact ⟨first, second, p, hpair, instances_are_writes dom (rev 1) _ p hrun⟩

end Example

end CompositionIr.Provenance
