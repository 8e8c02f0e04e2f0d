import CompositionIr.DeltaSpec

/-!
The membership law. The emitter's list holds, in ascending order, the least set of
addresses closed under own differences and under listing a member as a child, with the
parts that differ. Equivalently an address is named when what is seen below it changed.
-/

namespace CompositionIr.MembershipLaw

open Outcomes ChildGraphs Addresses Records Snapshots Deltas PublishedStates
open SubtreeComparison DeltaSpec

/-- The closure conditions of the law: an address live on one side only or with an own
part unequal is in, and so is every live address that lists a member in either snapshot. -/
structure LawClosed (before after : Snapshot) (D : Set Address) : Prop where
  oneSide : ∀ x, before.contains x ≠ after.contains x → x ∈ D
  ownPart : ∀ x b a p, before.records.lookup x = some b → after.records.lookup x = some a →
    p ∈ ownParts → b.node.partEq a.node p = false → x ∈ D
  upward : ∀ x c, before.contains x = true ∨ after.contains x = true →
    c ∈ childrenOf before.records x ++ childrenOf after.records x → c ∈ D → x ∈ D

/-- The closure of the law is the least closed set. -/
theorem differsAt_isLeast (before after : Snapshot) :
    IsLeast {D | LawClosed before after D} {x | DiffersAt before after x} := by
  constructor
  · refine ⟨?_, ?_, ?_⟩
    · intro x hone
      exact Differs.seed ((state_ne_iff _ _ x).mpr (Or.inl hone))
    · intro x b a p hb ha hp hpe
      exact Differs.seed ((state_ne_iff _ _ x).mpr (Or.inr ⟨b, a, p, hb, ha, hp, hpe⟩))
    · intro x c _ hc hd
      rcases List.mem_append.mp hc with hc | hc
      · exact Differs.before ((child_iff_mem _ _ _).mpr hc) hd
      · exact Differs.after ((child_iff_mem _ _ _).mpr hc) hd
  · intro D hD x hx
    induction hx with
    | seed hne =>
      rcases (state_ne_iff _ _ _).mp hne with hone | ⟨b, a, p, hb, ha, hp, hpe⟩
      · exact hD.oneSide _ hone
      · exact hD.ownPart _ b a p hb ha hp hpe
    | before hc _ ih =>
      have hmem := (child_iff_mem _ _ _).mp hc
      obtain ⟨arc, harc, _⟩ := (child_iff _ _ _).mp hc
      exact hD.upward _ _ (Or.inl ((contains_iff before _).mpr ⟨arc, harc⟩))
        (List.mem_append_left _ hmem) ih
    | after hc _ ih =>
      have hmem := (child_iff_mem _ _ _).mp hc
      obtain ⟨arc, harc, _⟩ := (child_iff _ _ _).mp hc
      exact hD.upward _ _ (Or.inr ((contains_iff after _).mpr ⟨arc, harc⟩))
        (List.mem_append_right _ hmem) ih

section Entries

variable {before after : Snapshot} {diffs : List Diff}

/-- An entry is empty exactly for an address that is not live afterwards: a live
member differs in an own part, or below. -/
theorem entry_isEmpty_iff
    (hs : Describes (DiffersAt before after) before.records after.records diffs) (d : Diff)
    (hd : d ∈ diffs) : d.parts.isEmpty = true ↔ after.contains d.address = false := by
  have hentry := hs.entry d hd
  rw [contains_eq_false_iff]
  constructor
  · intro hempty
    by_contra hlive
    obtain ⟨a, ha⟩ := Option.ne_none_iff_exists'.mp hlive
    have hno : ∀ p, d.parts.contains p = false := by
      intro p
      by_contra hp
      rw [Bool.not_eq_false] at hp
      rw [Parts.not_isEmpty_of_contains _ _ hp] at hempty
      cases hempty
    have hD : DiffersAt before after d.address :=
      (hs.named d.address).mp (List.mem_map_of_mem hd)
    have hkids : ∀ c ∈ childrenOf before.records d.address ++ childrenOf after.records d.address,
        ¬ DiffersAt before after c := by
      intro c hc hDc
      have hcontains := (hentry.descendant a ha).mpr ⟨c, hc, hDc⟩
      rw [hno] at hcontains
      cases hcontains
    have hkept : ∃ b, before.records.lookup d.address = some b ∧
        ∀ p ∈ ownParts, b.node.partEq a.node p = true := by
      cases hb : before.records.lookup d.address with
      | none =>
        have hcontains := (hentry.own a ha Part.text (by decide)).mpr (by simp [hb])
        rw [hno] at hcontains
        cases hcontains
      | some b =>
        refine ⟨b, rfl, fun p hp => ?_⟩
        by_contra hpe
        have hcontains := (hentry.own a ha p hp).mpr (by simpa [hb] using hpe)
        rw [hno] at hcontains
        cases hcontains
    obtain ⟨b, hb, hall⟩ := hkept
    have heq : state before.records d.address = state after.records d.address := by
      simp [graph, hb, ha, (Node.partEq_own_iff _ _).mp hall]
    refine (not_differs_iff d.address).mpr ⟨heq, fun c hc => ?_⟩ hD
    exact hkids c (List.mem_append_left _ ((child_iff_mem _ _ _).mp hc))
  · intro hnone
    rw [hentry.retired hnone]
    rfl

theorem entry_descendant_iff
    (hs : Describes (DiffersAt before after) before.records after.records diffs) (d : Diff)
    (hd : d ∈ diffs) :
    d.parts.contains Part.descendant = true ↔ after.contains d.address = true ∧
      ∃ c ∈ childrenOf before.records d.address ++ childrenOf after.records d.address,
        c ∈ diffs.map Diff.address := by
  have hentry := hs.entry d hd
  simp only [hs.named]
  cases ha : after.records.lookup d.address with
  | none =>
    have hnot := (contains_eq_false_iff after d.address).mpr ha
    simp [hentry.retired ha, hnot]
  | some a =>
    have hlive := (contains_iff after d.address).mpr ⟨a, ha⟩
    simp [hentry.descendant a ha, hlive]

end Entries

/-- The membership law: with enough fuel the emitter returns the least closed set in
ascending order, and the parts of every entry are those the law gives it. -/
theorem diffsBetween_membership (before after : Snapshot)
    (hdom : before.version.domain = after.version.domain)
    (hb : OwnAddresses before) (ha : OwnAddresses after) (hac : AcyclicChildren before) :
    ∃ diffs, (∀ fuel, before.len < fuel → diffsBetween before after fuel = .done diffs) ∧
      (diffs.map Diff.address).Pairwise (· < ·) ∧
      IsLeast {D | LawClosed before after D} {x | x ∈ diffs.map Diff.address} ∧
      ∀ d ∈ diffs,
        (d.parts.isEmpty = true ↔ after.contains d.address = false) ∧
        (∀ a, after.records.lookup d.address = some a →
          (before.records.lookup d.address = none →
            ∀ p ∈ ownParts, d.parts.contains p = true) ∧
          (∀ b, before.records.lookup d.address = some b →
            ∀ p ∈ ownParts, (d.parts.contains p = true ↔ b.node.partEq a.node p = false))) ∧
        (d.parts.contains Part.descendant = true ↔ after.contains d.address = true ∧
          ∃ c ∈ childrenOf before.records d.address ++ childrenOf after.records d.address,
            c ∈ diffs.map Diff.address) := by
  obtain ⟨diffs, hdone⟩ := diffsBetween_settles hb ha hac hdom
  have hs := diffsBetween_describes hdom _ diffs (hdone (before.len + 1) (by omega))
  refine ⟨diffs, hdone, hs.ascending, ?_, ?_⟩
  · have heq : {x | x ∈ diffs.map Diff.address} = {x | DiffersAt before after x} :=
      Set.ext hs.named
    rw [heq]
    exact differsAt_isLeast before after
  · intro d hd
    refine ⟨entry_isEmpty_iff hs d hd, ?_, entry_descendant_iff hs d hd⟩
    intro a hla
    have hown := (hs.entry d hd).own a hla
    refine ⟨fun hlb p hp => (hown p hp).mpr (by simp [hlb]), fun b hlb p hp => ?_⟩
    rw [hown p hp]
    simp [hlb]

/-- An address is named exactly when its subtree projection is not the same in both
snapshots. -/
theorem named_iff_materialize (before after : Snapshot)
    (hdom : before.version.domain = after.version.domain) (fuel : ℕ) (diffs : List Diff)
    (h : diffsBetween before after fuel = .done diffs) (x : Address) :
    x ∈ diffs.map Diff.address ↔ ∃ depth,
      materialize kids (state before.records) depth x ≠
        materialize kids (state after.records) depth x := by
  rw [(diffsBetween_describes hdom fuel diffs h).named]
  exact differs_iff_materialize x

section Example

def oldDocument : Snapshot :=
  holding (rev 1) 0 [(addr .node 1, { children := [addr .node 2, addr .node 3] }),
    (addr .node 2, { text := "old" })]

def newDocument : Snapshot :=
  { holding (rev 2) 1 [(addr .node 2, { text := "new" }), (addr .node 3, {})] with
    records := (holding (rev 2) 1 [(addr .node 2, { text := "new" }),
      (addr .node 3, {})]).records.insert (addr .node 1)
        ⟨0, { children := [addr .node 2, addr .node 3] }⟩ }

theorem diffsBetween_membership_document :
    ∃ diffs, diffsBetween oldDocument newDocument 3 = .done diffs ∧
      IsLeast {D | LawClosed oldDocument newDocument D} {x | x ∈ diffs.map Diff.address} := by
  have hac : AcyclicChildren oldDocument :=
    acyclicChildren_of_rank _ (fun x => 3 - x.id.ordinal.val) (by decide)
  obtain ⟨diffs, hdone, _, hleast, _⟩ :=
    diffsBetween_membership oldDocument newDocument rfl (by decide) (by decide) hac
  exact ⟨diffs, hdone 3 (by decide), hleast⟩

/-- The parent is untouched and carries `descendant` alone. -/
example : (diffsBetween oldDocument newDocument 3).bind
    (fun diffs => .done (diffs.map (fun d => (d.address, d.parts.iter)))) =
      .done [(addr .node 1, [Part.descendant]), (addr .node 2, [Part.text, Part.shaping]),
        (addr .node 3, ownParts)] := by decide

end Example

end CompositionIr.MembershipLaw
