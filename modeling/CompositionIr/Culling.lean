import CompositionIr.Queries

/-!
Culling against hit testing. A box holds the points from its corner up to, and without, its
far sides, so a box of no width or no height holds none. The test on two boxes compares
sides strictly, and lets such a box pass when it lies between the sides of the other.
-/

namespace CompositionIr.Culling

open Addresses Records Placements Snapshots Queries

section Geometry

theorem contains_iff (r : Rect) (p : Point) :
    contains r p = true ↔
      r.x ≤ p.x ∧ p.x < r.x + r.width ∧ r.y ≤ p.y ∧ p.y < r.y + r.height := by
  unfold contains
  simp only [Bool.and_eq_true, decide_eq_true_eq, and_assoc]

theorem intersects_iff (a b : Rect) :
    intersects a b = true ↔
      a.x < b.x + b.width ∧ b.x < a.x + a.width ∧ a.y < b.y + b.height ∧
        b.y < a.y + a.height := by
  unfold intersects
  simp only [Bool.and_eq_true, decide_eq_true_eq, and_assoc]

def Extended (r : Rect) : Prop := 0 < r.width ∧ 0 < r.height

/-- Two boxes have a point in common exactly when they pass the test and both are
extended. -/
theorem common_point_iff (a b : Rect) :
    (∃ p, contains b p = true ∧ contains a p = true) ↔
      intersects a b = true ∧ Extended a ∧ Extended b := by
  unfold Extended
  rw [intersects_iff]
  constructor
  · rintro ⟨p, hb, ha⟩
    rw [contains_iff] at ha hb
    omega
  · intro h
    -- the corner that lies furthest from the origin of both
    refine ⟨⟨max a.x b.x, max a.y b.y⟩, ?_, ?_⟩
    · rw [contains_iff]
      simp only
      omega
    · rw [contains_iff]
      simp only
      omega

end Geometry

theorem mem_visibleSet (s : Snapshot) (viewport : Rect) (a : Address) :
    a ∈ (visibleSet s viewport).1 ↔
      a ∈ s.addresses ∧ ∃ r, s.placement.rect a = some r ∧ intersects r viewport = true :=
  mem_placedQuery s _ a

theorem mem_addressesAt (s : Snapshot) (p : Point) (a : Address) :
    a ∈ (addressesAt s p).1 ↔
      a ∈ s.addresses ∧ ∃ r, s.placement.rect a = some r ∧ contains r p = true :=
  mem_placedQuery s _ a

/-- An address is hit at some point of the viewport exactly when its box passes the test on
boxes and both boxes are extended. -/
theorem hit_iff (s : Snapshot) (viewport : Rect) (a : Address) :
    (∃ p, contains viewport p = true ∧ a ∈ (addressesAt s p).1) ↔
      a ∈ s.addresses ∧ ∃ r, s.placement.rect a = some r ∧ intersects r viewport = true ∧
        Extended r ∧ Extended viewport := by
  simp only [mem_addressesAt, ← common_point_iff]
  constructor
  · rintro ⟨p, hp, ha, r, hr, hin⟩
    exact ⟨ha, r, hr, p, hp, hin⟩
  · rintro ⟨ha, r, hr, p, hp, hin⟩
    exact ⟨p, hp, ha, r, hr, hin⟩

/-- The visible set is the sorted set of the addresses hit at the points of the viewport
exactly when no box that passes the test on boxes, and no viewport that one passes it with,
is without width or height. -/
theorem visibleSet_eq_hits_iff (s : Snapshot) (viewport : Rect) :
    ((visibleSet s viewport).1.Pairwise (· < ·) ∧
        ∀ a, a ∈ (visibleSet s viewport).1 ↔
          ∃ p, contains viewport p = true ∧ a ∈ (addressesAt s p).1) ↔
      ∀ a ∈ s.addresses, ∀ r, s.placement.rect a = some r → intersects r viewport = true →
        Extended r ∧ Extended viewport := by
  have hsorted : (visibleSet s viewport).1.Pairwise (· < ·) := pairwise_placedQuery s _
  constructor
  · rintro ⟨_, hall⟩ a ha r hr hmeets
    have hvisible := (mem_visibleSet s viewport a).mpr ⟨ha, r, hr, hmeets⟩
    obtain ⟨_, r', hr', _, hextended⟩ := (hit_iff s viewport a).mp ((hall a).mp hvisible)
    obtain rfl : r = r' := Option.some.inj (hr.symm.trans hr')
    exact hextended
  · intro hextended
    refine ⟨hsorted, fun a => ?_⟩
    rw [mem_visibleSet, hit_iff]
    constructor
    · rintro ⟨ha, r, hr, hmeets⟩
      exact ⟨ha, r, hr, hmeets, hextended a ha r hr hmeets⟩
    · rintro ⟨ha, r, hr, hmeets, _⟩
      exact ⟨ha, r, hr, hmeets⟩

section Example

def caret : Snapshot :=
  { holding (rev 1) 0 [(addr .node 1, { text := "" })] with
    placement := ⟨[(addr .node 1, ⟨5, 0, 0, 10⟩)], []⟩ }

/-- A caret in the middle of a viewport is visible and hit at none of its points. -/
theorem caret_is_visible_and_never_hit :
    (∀ a r, caret.placement.rect a = some r → 0 ≤ r.width ∧ 0 ≤ r.height) ∧
      addr .node 1 ∈ (visibleSet caret ⟨0, 0, 10, 10⟩).1 ∧
      ¬ ∃ p, contains ⟨0, 0, 10, 10⟩ p = true ∧ addr .node 1 ∈ (addressesAt caret p).1 := by
  have hbox : caret.placement.rect (addr .node 1) = some ⟨5, 0, 0, 10⟩ := rfl
  refine ⟨fun a r hr => ?_, ?_, ?_⟩
  · by_cases ha : addr .node 1 = a
    · subst ha
      obtain rfl := Option.some.inj (hbox.symm.trans hr)
      decide
    · unfold Placement.rect at hr
      simp [caret, ha] at hr
  · rw [mem_visibleSet]
    exact ⟨by decide, _, hbox, by decide⟩
  · rw [hit_iff]
    rintro ⟨_, r, hr, _, hextended, _⟩
    obtain rfl := Option.some.inj (hbox.symm.trans hr)
    exact absurd hextended.1 (by decide)

end Example

end CompositionIr.Culling
