import CompositionIr.Rasters

/-!
What a repaint asks the compositor to invalidate. Boxes are ordered by their corners, with
the all-zero box, which stands for no box, below every other; over boxes of non-negative
size the union is the least upper bound of this order. No union of other boxes comes out as
the all-zero box, so the region does not depend on the order it is gathered in.
-/

namespace CompositionIr.RepaintRegions

open Outcomes ChildGraphs Addresses Records Placements Snapshots Deltas Commits PublishedStates
open DeltaSpec Sorting Backends Queries Renders Rasters

section Boxes

def Proper (r : Rect) : Prop := 0 ≤ r.width ∧ 0 ≤ r.height

/-- The corners of a box lie within another. The all-zero box is no box and lies in any. -/
def Covers (outer inner : Rect) : Prop :=
  inner = {} ∨ (outer.x ≤ inner.x ∧ outer.y ≤ inner.y ∧
    inner.x + inner.width ≤ outer.x + outer.width ∧
    inner.y + inner.height ≤ outer.y + outer.height)

instance (r : Rect) : Decidable (Proper r) := inferInstanceAs (Decidable (_ ∧ _))

instance (outer inner : Rect) : Decidable (Covers outer inner) :=
  inferInstanceAs (Decidable (_ ∨ _))

/-- The least box that covers every box of a set. -/
def IsLeastCover (r : Rect) (boxes : Set Rect) : Prop :=
  (∀ b ∈ boxes, Covers r b) ∧ ∀ outer, (∀ b ∈ boxes, Covers outer b) → Covers outer r

theorem rect_eq_zero_iff (r : Rect) : r = {} ↔ r.x = 0 ∧ r.y = 0 ∧ r.width = 0 ∧ r.height = 0 := by
  cases r
  rw [Rect.mk.injEq]

theorem Covers.refl (r : Rect) : Covers r r :=
  Or.inr ⟨le_refl _, le_refl _, le_refl _, le_refl _⟩

theorem Covers.trans {a b c : Rect} (hc : Proper c) (hab : Covers a b) (hbc : Covers b c) :
    Covers a c := by
  unfold Covers at *
  unfold Proper at hc
  rw [rect_eq_zero_iff] at *
  omega

/-- The union of two boxes neither of which is all-zero is the box of their corners. -/
theorem union_of_ne {a b : Rect} (ha : a ≠ {}) (hb : b ≠ {}) :
    (a.union b).x = min a.x b.x ∧ (a.union b).y = min a.y b.y ∧
      (a.union b).x + (a.union b).width = max (a.x + a.width) (b.x + b.width) ∧
      (a.union b).y + (a.union b).height = max (a.y + a.height) (b.y + b.height) := by
  unfold Rect.union
  rw [if_neg ha, if_neg hb]
  refine ⟨rfl, rfl, ?_, ?_⟩
  · simp only
    omega
  · simp only
    omega

theorem union_zero_left (b : Rect) : Rect.union {} b = b := if_pos rfl

theorem union_zero_right (a : Rect) : a.union {} = a := by
  unfold Rect.union
  by_cases ha : a = {}
  · rw [if_pos ha, ha]
  · rw [if_neg ha, if_pos rfl]

theorem proper_union {a b : Rect} (ha : Proper a) (hb : Proper b) : Proper (a.union b) := by
  by_cases ha0 : a = {}
  · rwa [ha0, union_zero_left]
  by_cases hb0 : b = {}
  · rwa [hb0, union_zero_right]
  obtain ⟨hx, hy, hr, hl⟩ := union_of_ne ha0 hb0
  unfold Proper at *
  omega

theorem covers_union_left (a b : Rect) : Covers (a.union b) a := by
  by_cases ha0 : a = {}
  · exact Or.inl ha0
  by_cases hb0 : b = {}
  · rw [hb0, union_zero_right]
    exact Covers.refl a
  obtain ⟨hx, hy, hr, hl⟩ := union_of_ne ha0 hb0
  unfold Covers
  omega

theorem covers_union_right (a b : Rect) : Covers (a.union b) b := by
  by_cases hb0 : b = {}
  · exact Or.inl hb0
  by_cases ha0 : a = {}
  · rw [ha0, union_zero_left]
    exact Covers.refl b
  obtain ⟨hx, hy, hr, hl⟩ := union_of_ne ha0 hb0
  unfold Covers
  omega

theorem union_covered {outer a b : Rect} (ha : Covers outer a) (hb : Covers outer b) :
    Covers outer (a.union b) := by
  by_cases ha0 : a = {}
  · rwa [ha0, union_zero_left]
  by_cases hb0 : b = {}
  · rwa [hb0, union_zero_right]
  obtain ⟨hx, hy, hr, hl⟩ := union_of_ne ha0 hb0
  have hac := ha.resolve_left ha0
  have hbc := hb.resolve_left hb0
  unfold Covers
  omega

/-- A union of boxes gathered one by one is the least box that covers them and the first. -/
theorem foldl_union (l : List Rect) (r : Rect) (hr : Proper r) (hl : ∀ b ∈ l, Proper b) :
    Proper (l.foldl Rect.union r) ∧ Covers (l.foldl Rect.union r) r ∧
      (∀ b ∈ l, Covers (l.foldl Rect.union r) b) ∧
      ∀ outer, Covers outer r → (∀ b ∈ l, Covers outer b) →
        Covers outer (l.foldl Rect.union r) := by
  induction l generalizing r with
  | nil => exact ⟨hr, Covers.refl r, by simp, fun _ h _ => h⟩
  | cons a rest ih =>
    have ha := hl a (List.mem_cons_self ..)
    obtain ⟨hproper, hfirst, hrest, hleast⟩ :=
      ih (r.union a) (proper_union hr ha) (fun b hb => hl b (List.mem_cons_of_mem _ hb))
    rw [List.foldl_cons]
    refine ⟨hproper, hfirst.trans hr (covers_union_left r a), fun b hb => ?_, ?_⟩
    · rcases List.mem_cons.mp hb with heq | hb
      · rw [heq]
        exact hfirst.trans ha (covers_union_right r a)
      · exact hrest b hb
    · intro outer hr' hall
      refine hleast outer (union_covered hr' (hall a (List.mem_cons_self ..))) (fun b hb => ?_)
      exact hall b (List.mem_cons_of_mem _ hb)

/-- From nothing, the union of boxes of non-negative size is their least cover. -/
theorem foldl_union_isLeastCover (l : List Rect) (hl : ∀ b ∈ l, Proper b) :
    IsLeastCover (l.foldl Rect.union {}) {b | b ∈ l} := by
  obtain ⟨_, _, hall, hleast⟩ := foldl_union l {} (by decide) hl
  exact ⟨hall, fun outer houter => hleast outer (Or.inl rfl) houter⟩

/-- What a cover contains, point by point. -/
theorem contains_of_covers {outer inner : Rect} (h : Covers outer inner) (p : Point)
    (hp : contains inner p = true) : contains outer p = true := by
  unfold contains at hp ⊢
  simp only [Bool.and_eq_true, decide_eq_true_eq] at hp ⊢
  unfold Covers at h
  rw [rect_eq_zero_iff] at h
  omega

end Boxes

section Regions

def damageAt (s t : Snapshot) (a : Address) : List Rect :=
  ((opAt s a).toList ++ (opAt t a).toList).map DrawOp.bounds

theorem bounds_cover (region : Region) (o : Option DrawOp) :
    (cover region o).bounds = (o.toList.map DrawOp.bounds).foldl Rect.union region.bounds := by
  cases o <;> rfl

theorem bounds_foldl_cover (s t : Snapshot) (diffs : List Diff) (region : Region) :
    (diffs.foldl (fun region d => cover (cover region (opAt s d.address)) (opAt t d.address))
      region).bounds =
      (diffs.flatMap (fun d => damageAt s t d.address)).foldl Rect.union region.bounds := by
  induction diffs generalizing region with
  | nil => rfl
  | cons d rest ih =>
    rw [List.foldl_cons, ih, List.flatMap_cons, List.foldl_append, bounds_cover, bounds_cover]
    unfold damageAt
    rw [List.map_append, List.foldl_append]

def damage (before after : Raster) (delta : Delta) : Set Rect :=
  {r | ∃ d ∈ delta.diffs, ∃ o, (o ∈ before.ops ∨ o ∈ after.ops) ∧ o.address = d.address ∧
    o.bounds = r}

theorem mem_damageAt (s t : Snapshot) (a : Address) (r : Rect) :
    r ∈ damageAt s t a ↔ ∃ o, (o ∈ drawn s ∨ o ∈ drawn t) ∧ o.address = a ∧ o.bounds = r := by
  unfold damageAt
  rw [List.mem_map]
  simp only [List.mem_append, Option.mem_toList]
  constructor
  · rintro ⟨o, ho, hr⟩
    have haddress : o.address = a := ho.elim address_of_opAt address_of_opAt
    refine ⟨o, ?_, haddress, hr⟩
    rw [mem_drawn, mem_drawn, haddress]
    exact ho
  · rintro ⟨o, ho, haddress, hr⟩
    rw [mem_drawn, mem_drawn, haddress] at ho
    exact ⟨o, ho, hr⟩

def ProperBoxes (s : Snapshot) : Prop := ∀ a r, s.placement.rect a = some r → Proper r

theorem proper_bounds {s : Snapshot} (hs : ProperBoxes s) {o : DrawOp} (ho : o ∈ drawn s) :
    Proper o.bounds := by
  rw [mem_drawn] at ho
  obtain ⟨n, _, heq⟩ := Option.map_eq_some_iff.mp ho
  rw [← heq]
  change Proper ((s.placement.rect o.address).getD {})
  cases hr : s.placement.rect o.address with
  | none => decide
  | some r => exact hs _ r hr

variable {s t : Snapshot} {diffs : List Diff}

/-- An operation that only one of two renders lists is of an address with an entry. -/
theorem named_of_differing (h : Reported s t diffs)
    (hrect : ∀ a, ¬ Named diffs a → t.placement.rect a = s.placement.rect a) {o : DrawOp}
    (ho : ¬ (o ∈ drawn s ↔ o ∈ drawn t)) : Named diffs o.address := by
  by_contra hun
  apply ho
  rw [mem_drawn, mem_drawn, opAt_congr o.address (h.state_eq hun) (hrect o.address hun)]

end Regions

/-- The region of a repaint is the least one that covers the old and the new bounds of
every address in the delta, whatever the order of its entries, and so it covers, and holds
every point of, each operation that the renders before and after do not share. -/
theorem repaint_region_least {s t : Snapshot} {c : Commit} {before : Raster} {work : Work}
    (hcommit : Committed s c t) (hkeeps : KeepsUnnamed s c)
    (hbefore : Raster.render s = .done (before, work)) (hs : ProperBoxes s) (ht : ProperBoxes t)
    (diffs : List Diff) (horder : diffs.Perm c.delta.diffs) :
    ∃ after afterWork region repaintWork painted, Raster.render t = .done (after, afterWork) ∧
      before.repaint t { c.delta with diffs := diffs } = .done (repaintWork, region, painted) ∧
      IsLeastCover region.bounds (damage before after c.delta) ∧
      ∀ o, ¬ (o ∈ before.ops ↔ o ∈ after.ops) → Covers region.bounds o.bounds ∧
        ∀ p, contains o.bounds p = true → contains region.bounds p = true := by
  obtain ⟨heq, hreported⟩ := committed_reported hcommit
  subst heq
  have hown := ownKeys_of_done raster_foreign hbefore
  rw [raster_own s hown] at hbefore
  obtain ⟨hraster, _⟩ := Prod.mk.inj (Outcome.done.inj hbefore)
  have hnodup : (diffs.map Diff.address).Nodup :=
    (horder.map Diff.address).nodup_iff.mpr hreported.nodup
  obtain ⟨r, hloop, _, hregion⟩ := repaint_loop c.snapshot diffs hnodup
    (fun d hd => hreported.own d (horder.mem_iff.mp hd)) (opAt s)
    (fun a o ho => address_of_opAt ho) { ops := before.ops } (by
      rw [← hraster]
      exact draws_render s)
  have hbounds : r.region.bounds =
      (diffs.flatMap (fun d => damageAt s c.snapshot d.address)).foldl Rect.union {} := by
    rw [hregion, bounds_foldl_cover]
  have hdamage : damage before ⟨sortByKey paintKey (drawn c.snapshot)⟩ c.delta =
      {b | b ∈ diffs.flatMap (fun d => damageAt s c.snapshot d.address)} := by
    ext b
    unfold damage
    simp only [Set.mem_ofPred_eq, List.mem_flatMap, mem_damageAt, ← hraster, mem_sortByKey]
    exact exists_congr (fun d => and_congr_left (fun _ => horder.mem_iff.symm))
  have hleast := foldl_union_isLeastCover
    (diffs.flatMap (fun d => damageAt s c.snapshot d.address)) (by
      intro b hb
      obtain ⟨d, _, hb⟩ := List.mem_flatMap.mp hb
      obtain ⟨o, ho, _, hob⟩ := (mem_damageAt s c.snapshot d.address b).mp hb
      rw [← hob]
      exact ho.elim (proper_bounds hs) (proper_bounds ht))
  rw [← hbounds, ← hdamage] at hleast
  refine ⟨_, _, r.region, r.work, ⟨sortByKey paintKey r.ops⟩,
    raster_own c.snapshot hreported.keys, ?_, hleast, ?_⟩
  · unfold Raster.repaint
    rw [hloop]
    rfl
  · intro o ho
    have hlists : ∀ x, x ∈ before.ops ↔ x ∈ drawn s := by
      intro x
      rw [← hraster]
      exact mem_sortByKey paintKey (drawn s) x
    have hdiffers : ¬ (o ∈ drawn s ↔ o ∈ drawn c.snapshot) := by
      rwa [hlists, mem_sortByKey] at ho
    obtain ⟨d, hd, hda⟩ := named_of_differing hreported hkeeps hdiffers
    have hone : o ∈ before.ops ∨ o ∈ sortByKey paintKey (drawn c.snapshot) := by
      by_contra hnone
      rw [not_or] at hnone
      exact ho (iff_of_false hnone.1 hnone.2)
    have hcovers := hleast.1 o.bounds ⟨d, hd, o, hone, hda.symm, rfl⟩
    exact ⟨hcovers, contains_of_covers hcovers⟩

section Example

/-- Translations keep the size of a box. -/
theorem properBoxes_of_boxes {s : Snapshot} (h : ∀ b ∈ s.placement.boxes, Proper b.2) :
    ProperBoxes s := by
  intro a r hr
  unfold Placement.rect at hr
  obtain ⟨b, hfind, hr⟩ := Option.bind_eq_some_iff.mp hr
  have hb := h b (List.mem_of_find?_eq_some hfind)
  rw [← Option.some.inj hr]
  obtain ⟨x, box⟩ := b
  simp only at hb ⊢
  clear hfind hr
  generalize s.placement.translations = moves
  induction moves generalizing box with
  | nil => exact hb
  | cons move rest ih =>
    rw [List.foldl_cons]
    by_cases hcovers : move.covers.contains a = true
    · rw [if_pos hcovers]
      exact ih _ hb
    · rw [if_neg hcovers]
      exact ih _ hb

/-- The upper record is drawn anew below: the region spans both places. -/
theorem repaint_region_least_column :
    ∃ before work after afterWork region repaintWork painted,
      Raster.render column = .done (before, work) ∧
      Raster.render swapped = .done (after, afterWork) ∧
      before.repaint swapped swap.delta = .done (repaintWork, region, painted) ∧
      IsLeastCover region.bounds (damage before after swap.delta) := by
  have hrender : Raster.render column = .done _ := rfl
  obtain ⟨after, afterWork, region, repaintWork, painted, hafter, hrepaint, hleast, _⟩ :=
    repaint_region_least committed_swap keepsUnnamed_swap hrender
      (properBoxes_of_boxes (by decide)) (properBoxes_of_boxes (by decide)) swap.delta.diffs
      (List.Perm.refl _)
  exact ⟨_, _, after, afterWork, region, repaintWork, painted, hrender, hafter, hrepaint, hleast⟩

end Example

end CompositionIr.RepaintRegions
