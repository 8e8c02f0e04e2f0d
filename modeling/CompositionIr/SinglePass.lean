import CompositionIr.Culling

/-!
Culling in one pass over a list of placed boxes. A viewport can be put so that it just meets
one box, and any box it then meets reaches at least as far on every side; another meets all
boxes of a list at once. So the pass and the query over a snapshot agree on every viewport
exactly when the list is the census of the live placed boxes, each once, and then the pass
compares no more boxes than the root of what the query compares.
-/

namespace CompositionIr.SinglePass

open Addresses Records Placements Snapshots Sorting Queries Culling

def singlePassRound (viewport : Rect) (found : List Address × Cost) (placed : Address × Rect) :
    List Address × Cost :=
  let cost := { found.2 with boxComparisons := found.2.boxComparisons + 1 }
  if intersects placed.2 viewport then (found.1 ++ [placed.1], cost) else (found.1, cost)

def visibleSetSinglePass (placed : List (Address × Rect)) (viewport : Rect) :
    List Address × Cost :=
  let found := placed.foldl (singlePassRound viewport) ([], {})
  (sort found.1, found.2)

def meeting (viewport : Rect) (placed : List (Address × Rect)) : List Address :=
  (placed.filter (fun p => intersects p.2 viewport)).map Prod.fst

theorem foldl_singlePassRound (viewport : Rect) (placed : List (Address × Rect))
    (found : List Address × Cost) :
    placed.foldl (singlePassRound viewport) found =
      (found.1 ++ meeting viewport placed,
        { found.2 with boxComparisons := found.2.boxComparisons + placed.length }) := by
  unfold meeting
  induction placed generalizing found with
  | nil => simp
  | cons p rest ih =>
    rw [List.foldl_cons, ih]
    unfold singlePassRound
    by_cases hp : intersects p.2 viewport = true <;> simp [hp] <;> omega

theorem visibleSetSinglePass_eq (placed : List (Address × Rect)) (viewport : Rect) :
    visibleSetSinglePass placed viewport =
      (sort (meeting viewport placed), { boxComparisons := placed.length }) := by
  unfold visibleSetSinglePass
  rw [foldl_singlePassRound]
  simp

section Census

/-- Every live address that has a box, with it. -/
def census (s : Snapshot) : List (Address × Rect) :=
  s.addresses.filterMap (fun a => (s.placement.rect a).map (fun r => (a, r)))

theorem mem_census (s : Snapshot) (a : Address) (r : Rect) :
    (a, r) ∈ census s ↔ a ∈ s.addresses ∧ s.placement.rect a = some r := by
  unfold census
  rw [List.mem_filterMap]
  constructor
  · rintro ⟨a', ha', hmap⟩
    obtain ⟨r', hr', heq⟩ := Option.map_eq_some_iff.mp hmap
    obtain ⟨rfl, rfl⟩ := Prod.mk.inj heq
    exact ⟨ha', hr'⟩
  · rintro ⟨ha, hr⟩
    exact ⟨a, ha, by rw [hr]; rfl⟩

theorem map_census (s : Snapshot) :
    (census s).map Prod.fst = s.addresses.filter (fun a => (s.placement.rect a).isSome) := by
  unfold census
  induction s.addresses with
  | nil => rfl
  | cons a rest ih => cases hr : s.placement.rect a <;> simp [hr, ih]

theorem nodup_census (s : Snapshot) : ((census s).map Prod.fst).Nodup := by
  rw [map_census]
  exact s.records.keys_nodup.filter _

theorem meeting_census (s : Snapshot) (viewport : Rect) :
    meeting viewport (census s) =
      s.addresses.filter (fun a => (s.placement.rect a).any (fun r => intersects r viewport)) := by
  unfold meeting census
  induction s.addresses with
  | nil => rfl
  | cons a rest ih =>
    cases hr : s.placement.rect a with
    | none => simp [hr, ih]
    | some r => by_cases hmeets : intersects r viewport = true <;> simp [hr, hmeets, ih]

/-- The visible set of a snapshot is what meets the viewport in its census. -/
theorem visibleSet_census (s : Snapshot) (viewport : Rect) :
    (visibleSet s viewport).1 = sort (meeting viewport (census s)) := by
  unfold visibleSet
  rw [placedQuery_eq, meeting_census]

theorem length_census_le (s : Snapshot) :
    (census s).length ≤ s.len ∧ (census s).length ≤ s.placement.len := by
  constructor
  · exact List.length_filterMap_le _ _
  · have hsub : (census s).map Prod.fst ⊆ s.placement.boxes.map Prod.fst := by
      intro a ha
      obtain ⟨⟨a', r⟩, hmem, rfl⟩ := List.mem_map.mp ha
      obtain ⟨_, hr⟩ := (mem_census s a' r).mp hmem
      unfold Placement.rect at hr
      obtain ⟨⟨b, r'⟩, hfind, _⟩ := Option.bind_eq_some_iff.mp hr
      have hb : b = a' := by simpa using List.find?_some hfind
      exact List.mem_map.mpr ⟨(b, r'), List.mem_of_find?_eq_some hfind, hb⟩
    have hle := ((nodup_census s).subperm hsub).length_le
    rwa [List.length_map, List.length_map] at hle

end Census

section Viewports

/-- A viewport that meets a box at one unit of each of its sides. -/
def around (r : Rect) : Rect where
  x := r.x + r.width - 1
  y := r.y + r.height - 1
  width := 2 - r.width
  height := 2 - r.height

/-- A box that meets every viewport another box meets reaches as far on every side. -/
theorem reaches_of_meets (r r' : Rect)
    (h : ∀ viewport, intersects r viewport = true → intersects r' viewport = true) :
    r'.x ≤ r.x ∧ r.x + r.width ≤ r'.x + r'.width ∧ r'.y ≤ r.y ∧
      r.y + r.height ≤ r'.y + r'.height := by
  have hself : intersects r (around r) = true := by
    rw [intersects_iff]
    unfold around
    simp only
    omega
  have hother := h (around r) hself
  rw [intersects_iff] at hother
  unfold around at hother
  simp only at hother
  omega

/-- Boxes that meet the same viewports are one. -/
theorem eq_of_meets (r r' : Rect)
    (h : ∀ viewport, intersects r viewport = intersects r' viewport) : r = r' := by
  have hout := reaches_of_meets r r' (fun viewport hmeets => (h viewport).symm.trans hmeets)
  have hin := reaches_of_meets r' r (fun viewport hmeets => (h viewport).trans hmeets)
  obtain ⟨x, y, width, height⟩ := r
  obtain ⟨x', y', width', height'⟩ := r'
  simp only [Rect.mk.injEq] at hout hin ⊢
  omega

/-- Some viewport meets every box of a list. -/
theorem exists_meeting_all (placed : List (Address × Rect)) :
    ∃ viewport, ∀ p ∈ placed, intersects p.2 viewport = true := by
  have hbounds : ∃ left right top bottom : ℤ, ∀ p ∈ placed, p.2.x < right ∧
      left < p.2.x + p.2.width ∧ p.2.y < bottom ∧ top < p.2.y + p.2.height := by
    induction placed with
    | nil => exact ⟨0, 0, 0, 0, by simp⟩
    | cons q rest ih =>
      obtain ⟨left, right, top, bottom, hrest⟩ := ih
      refine ⟨min left (q.2.x + q.2.width - 1), max right (q.2.x + 1),
        min top (q.2.y + q.2.height - 1), max bottom (q.2.y + 1), fun p hp => ?_⟩
      rcases List.mem_cons.mp hp with hp | hp
      · rw [hp]
        omega
      · have hold := hrest p hp
        omega
  obtain ⟨left, right, top, bottom, hall⟩ := hbounds
  refine ⟨⟨left, top, right - left, bottom - top⟩, fun p hp => ?_⟩
  have hp := hall p hp
  rw [intersects_iff]
  simp only
  omega

end Viewports

section Agreement

variable {placed boxes : List (Address × Rect)}

theorem mem_meeting_iff (hplaced : (placed.map Prod.fst).Nodup) {a : Address} {r : Rect}
    (hmem : (a, r) ∈ placed) (viewport : Rect) :
    a ∈ meeting viewport placed ↔ intersects r viewport = true := by
  unfold meeting
  rw [List.mem_map]
  constructor
  · rintro ⟨⟨a', r'⟩, hfilter, rfl⟩
    obtain ⟨hmem', hmeets⟩ := List.mem_filter.mp hfilter
    have heq := List.inj_on_of_nodup_map hplaced hmem hmem' rfl
    rw [(Prod.mk.inj heq).2]
    exact hmeets
  · intro hmeets
    exact ⟨(a, r), List.mem_filter.mpr ⟨hmem, hmeets⟩, rfl⟩

theorem subset_of_meeting (hplaced : (placed.map Prod.fst).Nodup)
    (hboxes : (boxes.map Prod.fst).Nodup) (hkeys : (placed.map Prod.fst).Perm (boxes.map Prod.fst))
    (h : ∀ viewport, (meeting viewport placed).Perm (meeting viewport boxes)) :
    placed ⊆ boxes := by
  rintro ⟨a, r⟩ hmem
  obtain ⟨⟨a', r'⟩, hmem', ha⟩ :=
    List.mem_map.mp (hkeys.mem_iff.mp (List.mem_map.mpr ⟨(a, r), hmem, rfl⟩))
  obtain rfl : a' = a := ha
  have hsame : r = r' := by
    refine eq_of_meets r r' (fun viewport => ?_)
    rw [Bool.eq_iff_iff, ← mem_meeting_iff hplaced hmem, ← mem_meeting_iff hboxes hmem']
    exact (h viewport).mem_iff
  rw [hsame]
  exact hmem'

/-- Lists of placed boxes that meet every viewport at the same addresses are one up to
order, when one of them has no address twice. -/
theorem perm_of_meeting (hboxes : (boxes.map Prod.fst).Nodup)
    (h : ∀ viewport, (meeting viewport placed).Perm (meeting viewport boxes)) :
    placed.Perm boxes := by
  obtain ⟨everywhere, hall⟩ := exists_meeting_all (placed ++ boxes)
  have hwhole : ∀ l : List (Address × Rect), (∀ p ∈ l, intersects p.2 everywhere = true) →
      meeting everywhere l = l.map Prod.fst := by
    intro l hl
    unfold meeting
    rw [List.filter_eq_self.mpr hl]
  have hkeys := h everywhere
  rw [hwhole placed (fun p hp => hall p (List.mem_append_left _ hp)),
    hwhole boxes (fun p hp => hall p (List.mem_append_right _ hp))] at hkeys
  have hplaced : (placed.map Prod.fst).Nodup := hkeys.nodup_iff.mpr hboxes
  refine (List.perm_ext_iff_of_nodup hplaced.of_map hboxes.of_map).mpr (fun p => ?_)
  exact ⟨fun hp => subset_of_meeting hplaced hboxes hkeys h hp,
    fun hp => subset_of_meeting hboxes hplaced hkeys.symm (fun v => (h v).symm) hp⟩

/-- The single pass answers what the query over the snapshot answers, on every viewport,
exactly when it was given the census; then it compares at most the root of the boxes the
query compares. -/
theorem singlePass_agrees_iff (s : Snapshot) (placed : List (Address × Rect)) :
    ((∀ viewport, (visibleSetSinglePass placed viewport).1 = (visibleSet s viewport).1) ↔
        placed.Perm (census s)) ∧
      (placed.Perm (census s) → ∀ viewport,
        (visibleSetSinglePass placed viewport).2.boxComparisons ^ 2 ≤
          (visibleSet s viewport).2.boxComparisons) := by
  have hcongr : ∀ viewport, placed.Perm (census s) →
      (meeting viewport placed).Perm (meeting viewport (census s)) :=
    fun viewport hperm => (hperm.filter _).map _
  refine ⟨⟨fun h => ?_, fun hperm viewport => ?_⟩, fun hperm viewport => ?_⟩
  · refine perm_of_meeting (nodup_census s) (fun viewport => ?_)
    have hsorted := h viewport
    rw [visibleSet_census, visibleSetSinglePass_eq] at hsorted
    exact (sort_eq_iff_perm _ _).mp hsorted
  · rw [visibleSet_census, visibleSetSinglePass_eq]
    exact sort_eq_of_perm (hcongr viewport hperm)
  · obtain ⟨hlive, hboxes⟩ := length_census_le s
    unfold visibleSet
    rw [visibleSetSinglePass_eq, placedQuery_eq, hperm.length_eq, Nat.pow_two]
    exact Nat.mul_le_mul hlive hboxes

end Agreement

section Example

def sideBySide : Snapshot :=
  { holding (rev 1) 0 [(addr .node 1, {}), (addr .node 2, {})] with
    placement := ⟨[(addr .node 1, ⟨0, 0, 10, 10⟩), (addr .node 2, ⟨20, 0, 10, 10⟩)], []⟩ }

def sideBoxes : List (Address × Rect) :=
  [(addr .node 1, ⟨0, 0, 10, 10⟩), (addr .node 2, ⟨20, 0, 10, 10⟩)]

theorem singlePass_agrees_sideBySide :
    (∀ viewport, (visibleSetSinglePass sideBoxes viewport).1 =
        (visibleSet sideBySide viewport).1) ∧
      ∀ viewport, (visibleSetSinglePass sideBoxes viewport).2.boxComparisons ^ 2 ≤
        (visibleSet sideBySide viewport).2.boxComparisons := by
  have hperm : sideBoxes.Perm (census sideBySide) := by decide
  obtain ⟨hagree, hcheap⟩ := singlePass_agrees_iff sideBySide sideBoxes
  exact ⟨hagree.mpr hperm, hcheap hperm⟩

end Example

end CompositionIr.SinglePass
