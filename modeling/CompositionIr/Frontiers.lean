import Mathlib.Algebra.Group.Action.Defs
import Mathlib.Algebra.Order.BigOperators.Group.List
import CompositionIr.DeltaSpec

/-!
The shape of a delta. Dropping the derived part from its entries leaves the addresses whose
own record changed; every other entry lies above one of them, behind records that stayed as
they were. So a delta is the changed frontier and the spines above it, whatever the width
of the document.
-/

namespace CompositionIr.Frontiers

open Outcomes ChildGraphs Addresses Records Snapshots Deltas PublishedStates DeltaSpec Relation

section Flags

def Flagged (s : Parts) : Prop := ∀ i, 12 ≤ i → s.bits.getLsbD i = false

theorem flagged_empty : Flagged Parts.empty := fun _ _ => BitVec.getLsbD_zero

theorem discriminant_lt (p : Part) : p.discriminant < 12 := by cases p <;> decide

theorem exists_part {i : ℕ} (hi : i < 12) : ∃ p : Part, p.discriminant = i := by
  have hall : ∀ i < 12, ∃ p ∈ allParts, p.discriminant = i := by decide
  obtain ⟨p, _, hp⟩ := hall i hi
  exact ⟨p, hp⟩

theorem flagged_insert {s : Parts} (hs : Flagged s) (p : Part) : Flagged (s.insert p) := by
  intro i hi
  have hp := discriminant_lt p
  have hne : p.discriminant ≠ i := by omega
  rw [Parts.insert, BitVec.getLsbD_or, hs i hi, Parts.of, BitVec.getLsbD_twoPow]
  simp [hne]

theorem flagged_ownDiffs (b : Option Arc) (a : Arc) : Flagged (ownDiffs b a) := by
  have hloop : ∀ (test : Part → Bool) (l : List Part) (s : Parts), Flagged s →
      Flagged (l.foldl (fun s p => if test p then s else s.insert p) s) := by
    intro test l
    induction l with
    | nil => exact fun s hs => hs
    | cons p rest ih =>
      intro s hs
      refine ih _ ?_
      dsimp only
      split
      · exact hs
      · exact flagged_insert hs p
  cases b with
  | none => exact hloop (fun _ => false) ownParts Parts.empty flagged_empty
  | some b => exact hloop (fun p => b.node.partEq a.node p) ownParts Parts.empty flagged_empty

/-- Such a set is empty exactly when it contains no part. -/
theorem isEmpty_iff {s : Parts} (hs : Flagged s) :
    s.isEmpty = true ↔ ∀ p, s.contains p = false := by
  constructor
  · intro hempty p
    by_contra hp
    rw [Parts.not_isEmpty_of_contains s p (by simpa using hp)] at hempty
    cases hempty
  · intro hnone
    rw [Parts.isEmpty, beq_iff_eq]
    apply BitVec.eq_of_getLsbD_eq
    intro i hi
    refine Eq.trans ?_ BitVec.getLsbD_zero.symm
    by_cases hlow : i < 12
    · obtain ⟨p, rfl⟩ := exists_part hlow
      rw [← Parts.contains_eq, hnone]
    · exact hs i (by omega)

theorem contains_own (s : Parts) (p : Part) :
    s.own.contains p = (s.contains p && decide (p ≠ Part.descendant)) := by
  rw [Parts.contains_eq, Parts.contains_eq, Parts.own, BitVec.getLsbD_and]
  congr 1
  cases p <;> decide

theorem flagged_own {s : Parts} (hs : Flagged s) : Flagged s.own := by
  intro i hi
  rw [Parts.own, BitVec.getLsbD_and, hs i hi, Bool.false_and]

/-- What is left without the derived part is empty exactly when no own part was in. -/
theorem own_isEmpty_iff {s : Parts} (hs : Flagged s) :
    s.own.isEmpty = true ↔ ∀ p ∈ ownParts, s.contains p = false := by
  rw [isEmpty_iff (flagged_own hs)]
  refine forall_congr' fun p => ?_
  rw [contains_own, mem_ownParts]
  by_cases hp : p = Part.descendant <;> simp [hp]

end Flags

section Entries

variable {sub : Address → Eval Bool} {before after : Snapshot}

theorem flagged_diffOf {x : Address} {entry : Option Diff}
    (h : diffOf sub before after x = .done entry) (d : Diff) (hd : d ∈ entry) :
    Flagged d.parts := by
  unfold diffOf at h
  obtain ⟨equal, _, h⟩ := (Outcome.bind_eq_done _ _ _).mp h
  cases equal with
  | true =>
    cases h
    cases hd
  | false =>
    obtain ⟨a, _, h⟩ := (Outcome.bind_eq_done _ _ _).mp h
    cases a with
    | none =>
      cases h
      cases hd
      exact flagged_empty
    | some a =>
      obtain ⟨b, _, h⟩ := (Outcome.bind_eq_done _ _ _).mp h
      obtain ⟨below, _, h⟩ := (Outcome.bind_eq_done _ _ _).mp h
      cases below with
      | true =>
        cases h
        cases hd
        exact flagged_insert (flagged_ownDiffs b a) Part.descendant
      | false =>
        cases h
        cases hd
        exact flagged_ownDiffs b a

theorem flagged_diffsFrom {l : List Address} {out : List Diff}
    (h : diffsFrom sub before after l = .done out) : ∀ d ∈ out, Flagged d.parts := by
  induction l generalizing out with
  | nil =>
    cases h
    exact fun d hd => by cases hd
  | cons x rest ih =>
    unfold diffsFrom at h
    obtain ⟨entry, hentry, h⟩ := (Outcome.bind_eq_done _ _ _).mp h
    obtain ⟨more, hmore, h⟩ := (Outcome.bind_eq_done _ _ _).mp h
    cases h
    intro d hd
    rcases List.mem_append.mp hd with hd | hd
    · exact flagged_diffOf hentry d (Option.mem_toList.mp hd)
    · exact ih hmore d hd

end Entries

section Masking

/-- The entries that stand for a change of their own record: a retired address carries no
part, and of a live one some part is left when the derived one is dropped. -/
def frontier (diffs : List Diff) : List Diff :=
  diffs.filter (fun d => d.parts.isEmpty || !d.parts.own.isEmpty)

variable {before after : Snapshot} {diffs : List Diff}

/-- Both sides hold the same record under the address, and it lists the child. -/
def Carries (before after : Snapshot) (x c : Address) : Prop :=
  ∃ b a, before.records.lookup x = some b ∧ after.records.lookup x = some a ∧
    b.node.projection = a.node.projection ∧ c ∈ a.node.children

theorem carries_of_keeps {x c : Address}
    (h : Keeps kids (state before.records) (state after.records) x c) :
    Carries before after x c := by
  obtain ⟨heq, hc⟩ := h
  rw [Child, heq] at hc
  obtain ⟨a, ha, hmem⟩ := (child_iff after.records x c).mp hc
  rw [state_of_lookup ha] at heq
  obtain ⟨b, hb, hproj⟩ := (state_eq_some _ _ _).mp heq
  exact ⟨b, a, hb, ha, hproj, hmem⟩

/-- An entry of a live address carries a part. -/
theorem exists_part_of_live
    (hdesc : Describes (DiffersAt before after) before.records after.records diffs) {d : Diff}
    (hd : d ∈ diffs) {a : Arc} (ha : after.records.lookup d.address = some a) :
    ∃ p, d.parts.contains p = true := by
  have hentry := hdesc.entry d hd
  have hdiffers : DiffersAt before after d.address :=
    (hdesc.named d.address).mp (List.mem_map_of_mem hd)
  have hbelow : ∀ c, PublishedStates.Lists before.records after.records d.address c →
      DiffersAt before after c → ∃ p, d.parts.contains p = true := fun c hc hdc =>
    ⟨Part.descendant, (hentry.descendant a ha).mpr ⟨c, hc, hdc⟩⟩
  cases hdiffers with
  | seed hne =>
    rw [state_ne_iff] at hne
    rcases hne with hone | ⟨b, a', p, hb, ha', hp, hpe⟩
    · have hnew : before.records.lookup d.address = none := by
        rw [ha] at hone
        cases hb : before.records.lookup d.address with
        | none => rfl
        | some b =>
          rw [hb] at hone
          exact absurd rfl hone
      refine ⟨Part.structure, (hentry.own a ha _ (by decide)).mpr (fun b hb => ?_)⟩
      rw [hnew] at hb
      cases hb
    · rw [ha'] at ha
      obtain rfl := Option.some.inj ha
      refine ⟨p, (hentry.own a' ha' p hp).mpr (fun b' hb' => ?_)⟩
      rw [hb] at hb'
      obtain rfl := Option.some.inj hb'
      exact hpe
  | before hc hd => exact hbelow _ (List.mem_append_left _ ((child_iff_mem _ _ _).mp hc)) hd
  | after hc hd => exact hbelow _ (List.mem_append_right _ ((child_iff_mem _ _ _).mp hc)) hd

/-- A retired address was live before, since it differs. -/
theorem changed_of_retired {x : Address} (hdiffers : DiffersAt before after x)
    (ha : after.records.lookup x = none) : Changed before.records after.records x := by
  have hb : before.records.lookup x ≠ none := by
    intro hb
    have hdead : ∀ c, ¬ PublishedStates.Lists before.records after.records x c := by
      intro c hc
      simp [PublishedStates.Lists, childrenOf, ha, hb] at hc
    cases hdiffers with
    | seed hne => exact hne (by simp [graph, ha, hb])
    | before hc _ => exact hdead _ (List.mem_append_left _ ((child_iff_mem _ _ _).mp hc))
    | after hc _ => exact hdead _ (List.mem_append_right _ ((child_iff_mem _ _ _).mp hc))
  obtain ⟨b, hb⟩ := Option.ne_none_iff_exists'.mp hb
  exact Or.inl (by simp [ha, hb])

/-- An entry of a live address carries a part of its own where its record changed. -/
theorem own_part_iff_changed
    (hdesc : Describes (DiffersAt before after) before.records after.records diffs) {d : Diff}
    (hd : d ∈ diffs) {a : Arc} (ha : after.records.lookup d.address = some a) :
    (∃ p ∈ ownParts, d.parts.contains p = true) ↔
      Changed before.records after.records d.address := by
  have hentry := hdesc.entry d hd
  unfold Changed
  rw [ha]
  cases hb : before.records.lookup d.address with
  | none =>
    refine iff_of_true ⟨Part.structure, by decide, ?_⟩ (Or.inl (by simp))
    refine (hentry.own a ha _ (by decide)).mpr (fun b hb' => ?_)
    rw [hb] at hb'
    cases hb'
  | some b =>
    constructor
    · rintro ⟨p, hp, hcontains⟩
      exact Or.inr ⟨b, a, p, rfl, rfl, hp, (hentry.own a ha p hp).mp hcontains b hb⟩
    · rintro (hone | ⟨b', a', p, hb', ha', hp, hpe⟩)
      · exact absurd rfl hone
      · obtain rfl := Option.some.inj hb'
        obtain rfl := Option.some.inj ha'
        refine ⟨p, hp, (hentry.own a ha p hp).mpr (fun b₂ hb₂ => ?_)⟩
        rw [hb] at hb₂
        obtain rfl := Option.some.inj hb₂
        exact hpe

/-- What is left when the derived part is dropped are the records that changed. -/
theorem mem_frontier_iff
    (hdesc : Describes (DiffersAt before after) before.records after.records diffs)
    (hflagged : ∀ d ∈ diffs, Flagged d.parts) {d : Diff} (hd : d ∈ diffs) :
    d ∈ frontier diffs ↔ Changed before.records after.records d.address := by
  have hmem : d ∈ frontier diffs ↔ d.parts.isEmpty = true ∨ ¬ d.parts.own.isEmpty = true := by
    unfold frontier
    rw [List.mem_filter, Bool.or_eq_true, Bool.not_eq_true', Bool.not_eq_true]
    exact and_iff_right hd
  rw [hmem, own_isEmpty_iff (hflagged d hd)]
  cases ha : after.records.lookup d.address with
  | none =>
    have hdiffers := (hdesc.named d.address).mp (List.mem_map_of_mem hd)
    refine iff_of_true (Or.inl ?_) (changed_of_retired hdiffers ha)
    rw [(hdesc.entry d hd).retired ha]
    rfl
  | some a =>
    have hnot : ¬ d.parts.isEmpty = true := by
      obtain ⟨p, hp⟩ := exists_part_of_live hdesc hd ha
      rw [Parts.not_isEmpty_of_contains d.parts p hp]
      simp
    rw [or_iff_right hnot, ← own_part_iff_changed hdesc hd ha]
    push Not
    simp only [ne_eq, Bool.not_eq_false]

theorem map_frontier
    (hdesc : Describes (DiffersAt before after) before.records after.records diffs)
    (hflagged : ∀ d ∈ diffs, Flagged d.parts) (x : Address) :
    x ∈ (frontier diffs).map Diff.address ↔ Changed before.records after.records x := by
  constructor
  · intro hx
    obtain ⟨d, hd, rfl⟩ := List.mem_map.mp hx
    exact (mem_frontier_iff hdesc hflagged (List.mem_of_mem_filter hd)).mp hd
  · intro hx
    have hdiffers : DiffersAt before after x := Differs.seed ((state_ne_iff _ _ x).mpr hx)
    obtain ⟨d, hd, rfl⟩ := List.mem_map.mp ((hdesc.named x).mpr hdiffers)
    exact List.mem_map_of_mem ((mem_frontier_iff hdesc hflagged hd).mpr hx)

theorem flagged_diffs {fuel : ℕ} (h : diffsBetween before after fuel = .done diffs) :
    ∀ d ∈ diffs, Flagged d.parts := flagged_diffsFrom h

/-- An entry that is dropped with the derived part carries nothing else. -/
theorem parts_of_notMem_frontier (hflagged : ∀ d ∈ diffs, Flagged d.parts) {d : Diff}
    (hd : d ∈ diffs) (hnot : d ∉ frontier diffs) : d.parts = Parts.of Part.descendant := by
  have hdropped : d.parts.isEmpty = false ∧ d.parts.own.isEmpty = true := by
    unfold frontier at hnot
    rw [List.mem_filter] at hnot
    simpa [hd] using hnot
  have hown : ∀ p, p ≠ Part.descendant → d.parts.contains p = false := fun p hp =>
    (own_isEmpty_iff (hflagged d hd)).mp hdropped.2 p ((mem_ownParts p).mpr hp)
  have hderived : d.parts.contains Part.descendant = true := by
    by_contra hno
    have hempty : d.parts.isEmpty = true := by
      rw [isEmpty_iff (hflagged d hd)]
      intro p
      by_cases hp : p = Part.descendant
      · rw [hp]
        simpa using hno
      · exact hown p hp
    rw [hdropped.1] at hempty
    cases hempty
  refine congrArg Parts.mk (BitVec.eq_of_getLsbD_eq (fun i _ => ?_))
  by_cases hlow : i < 12
  · obtain ⟨p, rfl⟩ := exists_part hlow
    change d.parts.bits.getLsbD _ = (Parts.of Part.descendant).bits.getLsbD _
    rw [← Parts.contains_eq, ← Parts.contains_eq]
    by_cases hp : p = Part.descendant
    · subst hp
      rw [hderived]
      decide
    · rw [hown p hp]
      revert hp
      cases p <;> decide
  · have hhigh : Flagged (Parts.of Part.descendant) := by
      have hone := flagged_insert flagged_empty Part.descendant
      simpa [Parts.insert, Parts.empty] using hone
    exact (hflagged d hd i (by omega)).trans (hhigh i (by omega)).symm

/-- What differs reaches a record that changed, behind records that did not. -/
theorem exists_changed_of_named
    (hdesc : Describes (DiffersAt before after) before.records after.records diffs) {d : Diff}
    (hd : d ∈ diffs) : ∃ y, ReflTransGen (Carries before after) d.address y ∧
      Changed before.records after.records y := by
  have hdiffers : DiffersAt before after d.address :=
    (hdesc.named d.address).mp (List.mem_map_of_mem hd)
  obtain ⟨y, hreach, hy⟩ := (differs_iff_keeps d.address).mp hdiffers
  exact ⟨y, ReflTransGen.mono (fun _ _ => carries_of_keeps) _ _ hreach, (state_ne_iff _ _ y).mp hy⟩

theorem finite_above (before after : Snapshot) (y : Address) :
    {x | ReflTransGen (Carries before after) x y}.Finite := by
  refine (((after.addresses.toFinset : Set Address).toFinite).insert y).subset ?_
  intro x hx
  rw [Set.mem_ofPred_eq] at hx
  rcases hx.cases_head with rfl | ⟨c, ⟨_, a, _, ha, _⟩, _⟩
  · exact Set.mem_insert _ _
  · refine Set.mem_insert_of_mem _ ?_
    rw [Finset.mem_coe, List.mem_toFinset]
    exact (mem_addresses after x).mpr ⟨a, ha⟩

/-- There are no more entries than changed records and addresses above them. -/
theorem length_le_above
    (hdesc : Describes (DiffersAt before after) before.records after.records diffs)
    (hflagged : ∀ d ∈ diffs, Flagged d.parts) :
    diffs.length ≤ ((frontier diffs).map
      (fun d => {x | ReflTransGen (Carries before after) x d.address}.ncard)).sum := by
  have hsub : diffs.map Diff.address ⊆ (frontier diffs).flatMap
      (fun d => (finite_above before after d.address).toFinset.toList) := by
    intro x hx
    obtain ⟨d, hd, rfl⟩ := List.mem_map.mp hx
    obtain ⟨y, hreach, hy⟩ := exists_changed_of_named hdesc hd
    obtain ⟨e, he, rfl⟩ := List.mem_map.mp ((map_frontier hdesc hflagged y).mpr hy)
    refine List.mem_flatMap.mpr ⟨e, he, ?_⟩
    rw [Finset.mem_toList, Set.Finite.mem_toFinset]
    exact hreach
  have hnodup : (diffs.map Diff.address).Nodup := hdesc.ascending.imp (fun hlt => ne_of_lt hlt)
  have hle := (hnodup.subperm hsub).length_le
  rw [List.length_map, List.length_flatMap] at hle
  refine hle.trans (le_of_eq ?_)
  congr 1
  refine List.map_congr_left (fun d _ => ?_)
  rw [Finset.length_toList, Set.ncard_eq_toFinset_card _ (finite_above before after d.address)]

end Masking

/-- A delta is the changed frontier and the spines above it. Dropping the derived part from
its entries leaves exactly the addresses whose own record changed; every other entry carries
that part alone and lies above one of them, behind records that stayed. So there are no more
entries than changed records and addresses above them, and in a tree no more than the
changed records times their depth. -/
theorem delta_is_frontier_and_spine {before after : Snapshot}
    (hdom : before.version.domain = after.version.domain) (fuel : ℕ) (diffs : List Diff)
    (h : diffsBetween before after fuel = .done diffs) :
    (∀ x, x ∈ (frontier diffs).map Diff.address ↔ Changed before.records after.records x) ∧
      (∀ d ∈ diffs, d ∉ frontier diffs → d.parts = Parts.of Part.descendant ∧
        ∃ y ∈ (frontier diffs).map Diff.address, TransGen (Carries before after) d.address y) ∧
      diffs.length ≤ ((frontier diffs).map
        (fun d => {x | ReflTransGen (Carries before after) x d.address}.ncard)).sum ∧
      ∀ (depth : Address → ℕ) (bound : ℕ), (∀ x c, Carries before after x c → depth x < depth c) →
        (∀ x x' c, Carries before after x c → Carries before after x' c → x = x') →
        (∀ d ∈ frontier diffs, depth d.address ≤ bound) →
        diffs.length ≤ (frontier diffs).length * (bound + 1) := by
  have hdesc := diffsBetween_describes hdom fuel diffs h
  have hflagged := flagged_diffs h
  have hchanged := map_frontier hdesc hflagged
  have hsum := length_le_above hdesc hflagged
  refine ⟨hchanged, fun d hd hnot => ⟨parts_of_notMem_frontier hflagged hd hnot, ?_⟩, hsum,
    fun depth bound hdepth hparent hbound => ?_⟩
  · obtain ⟨y, hreach, hy⟩ := exists_changed_of_named hdesc hd
    rcases reflTransGen_iff_eq_or_transGen.mp hreach with heq | htrans
    · rw [heq] at hy
      exact absurd ((mem_frontier_iff hdesc hflagged hd).mpr hy) hnot
    · exact ⟨y, (hchanged y).mpr hy, htrans⟩
  · refine hsum.trans ?_
    have hle := List.sum_le_card_nsmul ((frontier diffs).map
      (fun d => {x | ReflTransGen (Carries before after) x d.address}.ncard)) (bound + 1) ?_
    · rwa [List.length_map, smul_eq_mul] at hle
    · intro n hn
      obtain ⟨d, hd, rfl⟩ := List.mem_map.mp hn
      have hone := ncard_above_le (Carries before after) depth hdepth hparent d.address
      have hd' := hbound d hd
      omega

section Example

def page (text : String) (revision : Revision) : Snapshot :=
  holding revision 0 [(addr .node 1, { children := [addr .node 2] }),
    (addr .node 2, { text := text })]

def pageDiffs : List Diff :=
  [⟨addr .node 1, Parts.of Part.descendant⟩,
    ⟨addr .node 2, (Parts.of Part.text).insert Part.shaping⟩]

/-- One record changed, and its parent is an entry that goes with the derived part. -/
theorem delta_is_frontier_and_spine_page :
    diffsBetween (page "a" (rev 1)) (page "b" (rev 2)) 3 = .done pageDiffs ∧
      (frontier pageDiffs).map Diff.address = [addr .node 2] ∧
      Changed (page "a" (rev 1)).records (page "b" (rev 2)).records (addr .node 2) ∧
      ¬ Changed (page "a" (rev 1)).records (page "b" (rev 2)).records (addr .node 1) := by
  have hdiffs : diffsBetween (page "a" (rev 1)) (page "b" (rev 2)) 3 = .done pageDiffs := rfl
  have hdom : (page "a" (rev 1)).version.domain = (page "b" (rev 2)).version.domain := rfl
  obtain ⟨hchanged, _⟩ := delta_is_frontier_and_spine hdom 3 pageDiffs hdiffs
  have hfrontier : (frontier pageDiffs).map Diff.address = [addr .node 2] := by decide
  simp only [hfrontier, List.mem_singleton] at hchanged
  exact ⟨hdiffs, hfrontier, (hchanged _).mp rfl, fun h => absurd ((hchanged _).mpr h) (by decide)⟩

end Example

end CompositionIr.Frontiers
