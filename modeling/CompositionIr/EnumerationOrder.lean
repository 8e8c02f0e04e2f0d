import CompositionIr.Renders

/-!
Nothing depends on the order in which the record map enumerates. Two snapshots that hold
the same records in another order read alike at every address; the sorts and the maps keyed
by address take away what order is left.
-/

namespace CompositionIr.EnumerationOrder

open Outcomes Ascending Addresses Records Placements Snapshots Deltas PublishedStates
open KeyedMaps Sorting Backends Queries Renders

/-- The second snapshot is the first with its records enumerated in another order. -/
structure Reenumerated (s s' : Snapshot) : Prop where
  records : s.records.entries.Perm s'.records.entries
  version : s.version = s'.version
  roots : s.roots = s'.roots
  placement : s.placement = s'.placement

namespace Reenumerated

variable {s s' : Snapshot}

theorem refl (s : Snapshot) : Reenumerated s s := ⟨List.Perm.refl _, rfl, rfl, rfl⟩

theorem lookup (h : Reenumerated s s') (a : Address) :
    s.records.lookup a = s'.records.lookup a := AList.perm_lookup h.records

theorem addresses (h : Reenumerated s s') : s.addresses.Perm s'.addresses :=
  h.records.map Sigma.fst

theorem len (h : Reenumerated s s') : s.len = s'.len := h.addresses.length_eq

theorem get (h : Reenumerated s s') : s.get = s'.get := by
  funext a
  unfold Snapshot.get
  rw [h.version, h.lookup]

theorem ownKeys (h : Reenumerated s s') : OwnKeys s ↔ OwnKeys s' := by
  unfold OwnKeys
  rw [h.version]
  exact forall_congr' (fun a => imp_congr_left h.addresses.mem_iff)

theorem opAt (h : Reenumerated s s') : Renders.opAt s = Renders.opAt s' := by
  funext a
  unfold Renders.opAt
  rw [h.lookup, h.placement]

theorem elementAt (h : Reenumerated s s') : Renders.elementAt s = Renders.elementAt s' := by
  funext a
  unfold Renders.elementAt
  rw [h.lookup, h.placement]

theorem fragmentsOf (h : Reenumerated s s') : Renders.fragmentsOf s = Renders.fragmentsOf s' := by
  funext a
  unfold Renders.fragmentsOf
  rw [h.lookup]

end Reenumerated

section Targets

variable {s s' : Snapshot} (h : Reenumerated s s')

include h

/-- Operations of one key are of one address, and so one operation. -/
theorem raster_reenumerated : Raster.render s = Raster.render s' := by
  by_cases hs : OwnKeys s
  · have hperm : (drawn s).Perm (drawn s') := by
      unfold drawn
      rw [h.opAt]
      exact h.addresses.filterMap _
    have hsorted : sortByKey paintKey (drawn s) = sortByKey paintKey (drawn s') := by
      refine sortByKey_eq_of_perm paintKey hperm (fun o ho o' ho' hkey => ?_)
      rw [mem_drawn] at ho ho'
      rw [address_of_paintKey hkey, ho'] at ho
      exact (Option.some.inj ho).symm
    rw [raster_own s hs, raster_own s' (h.ownKeys.mp hs), hsorted, h.len]
  · rw [raster_foreign s hs, raster_foreign s' (fun hs' => hs (h.ownKeys.mpr hs'))]

/-- No two addresses share an element. -/
theorem svg_reenumerated : Svg.render s = Svg.render s' := by
  by_cases hs : OwnKeys s
  · obtain ⟨elements, hrender, hholds⟩ := svg_own s hs
    obtain ⟨elements', hrender', hholds'⟩ := svg_own s' (h.ownKeys.mp hs)
    have hsame : HoldsElements s elements' := by
      unfold HoldsElements at hholds' ⊢
      rwa [h.elementAt]
    rw [hrender, hrender', hholds.eq hsame, h.len]
  · rw [svg_foreign s hs, svg_foreign s' (fun hs' => hs (h.ownKeys.mpr hs'))]

/-- A page sorts what landed on it, repeated addresses and all. -/
theorem paged_reenumerated : Paged.render s = Paged.render s' := by
  by_cases hs : OwnKeys s
  · obtain ⟨paged, hrender, hholds⟩ := paged_own s hs
    obtain ⟨paged', hrender', hholds'⟩ := paged_own s' (h.ownKeys.mp hs)
    have hlanding : ∀ f, sort (landing s f) = sort (landing s' f) := by
      intro f
      have hlanded : landed s f = landed s' f := by
        funext a
        unfold landed
        rw [h.fragmentsOf]
      unfold landing
      rw [hlanded]
      exact sort_eq_of_perm (h.addresses.flatMap_right _)
    have hpages : paged.pages = paged'.pages := by
      refine eq_of_listed hholds.nonempty hholds'.nonempty (fun f => ?_)
      rw [hholds.listed, hholds'.listed, hlanding]
    have hresources : paged.resources = paged'.resources := by
      ext a
      rw [hholds.resources, hholds'.resources, h.addresses.mem_iff]
    have hpaged : paged = paged' := by
      cases paged
      cases paged'
      simp only [Paged.mk.injEq]
      exact ⟨hpages, hresources⟩
    rw [hrender, hrender', hpaged, h.addresses.countP_eq]
  · rw [paged_foreign s hs, paged_foreign s' (fun hs' => hs (h.ownKeys.mpr hs'))]

theorem placedQuery_reenumerated (test : Rect → Bool) :
    placedQuery s test = placedQuery s' test := by
  rw [placedQuery_eq, placedQuery_eq, h.placement, h.len]
  rw [sort_eq_of_perm (h.addresses.filter _)]

theorem onFragment_reenumerated (f : UInt32) : onFragment s f = onFragment s' f := by
  by_cases hs : OwnKeys s
  · rw [onFragment_own s hs, onFragment_own s' (h.ownKeys.mp hs), h.fragmentsOf, h.len]
    rw [sort_eq_of_perm (h.addresses.filter _)]
  · rw [onFragment_foreign s hs, onFragment_foreign s' (fun hs' => hs (h.ownKeys.mpr hs'))]

end Targets

section Emitter

variable {s s' t t' : Snapshot}

theorem subtreeWith_reenumerated (hs : Reenumerated s s') (ht : Reenumerated t t')
    (same : Arc → Arc → Bool) (fuel : ℕ) :
    subtreeWith same s t fuel = subtreeWith same s' t' fuel := by
  induction fuel with
  | zero => rfl
  | succ fuel ih =>
    funext a
    unfold subtreeWith
    rw [ih, hs.get, ht.get]

theorem diffOf_reenumerated (hs : Reenumerated s s') (ht : Reenumerated t t')
    (sub : Address → Eval Bool) : diffOf sub s t = diffOf sub s' t' := by
  funext a
  unfold diffOf descendantDiffers Deltas.children
  rw [hs.get, ht.get]

theorem diffsFrom_reenumerated (hs : Reenumerated s s') (ht : Reenumerated t t')
    (sub : Address → Eval Bool) (l : List Address) :
    diffsFrom sub s t l = diffsFrom sub s' t' l := by
  induction l with
  | nil => rfl
  | cons a rest ih =>
    unfold diffsFrom
    rw [ih, diffOf_reenumerated hs ht]

/-- The emitter scans the live addresses in ascending order whichever way they come. -/
theorem diffsBetween_reenumerated (hs : Reenumerated s s') (ht : Reenumerated t t')
    (fuel : ℕ) : diffsBetween s t fuel = diffsBetween s' t' fuel := by
  have hscanned : scanned s t = scanned s' t' :=
    ascending_congr (fun a => (hs.addresses.append ht.addresses).mem_iff)
  unfold diffsBetween subtreeEq
  rw [hscanned, subtreeWith_reenumerated hs ht]
  exact diffsFrom_reenumerated hs ht _ _

end Emitter

/-- Targets, queries and the emitter answer alike for every order in which the records of a
snapshot are enumerated, what they did and what it cost included. -/
theorem outputs_independent_of_enumeration {s s' : Snapshot} (h : Reenumerated s s') :
    Raster.render s = Raster.render s' ∧ Svg.render s = Svg.render s' ∧
      Paged.render s = Paged.render s' ∧
      (∀ point, addressesAt s point = addressesAt s' point) ∧
      (∀ viewport, visibleSet s viewport = visibleSet s' viewport) ∧
      (∀ fragment, onFragment s fragment = onFragment s' fragment) ∧
      ∀ t t', Reenumerated t t' → ∀ fuel,
        diffsBetween s t fuel = diffsBetween s' t' fuel ∧
          diffsBetween t s fuel = diffsBetween t' s' fuel := by
  refine ⟨raster_reenumerated h, svg_reenumerated h, paged_reenumerated h,
    fun _ => placedQuery_reenumerated h _, fun _ => placedQuery_reenumerated h _,
    onFragment_reenumerated h, fun t t' ht fuel => ?_⟩
  exact ⟨diffsBetween_reenumerated h ht fuel, diffsBetween_reenumerated ht h fuel⟩

section Example

def stacked : Snapshot :=
  { holding (rev 1) 0 [(addr .node 1, { text := "a" }), (addr .node 2, { text := "b" })] with
    placement := ⟨[(addr .node 1, {}), (addr .node 2, {})], []⟩ }

def restacked : Snapshot :=
  { stacked with
    records := ((∅ : RecordMap).insert (addr .node 2) ⟨1, { text := "b" }⟩).insert
      (addr .node 1) ⟨0, { text := "a" }⟩ }

theorem reenumerated_stacked : Reenumerated stacked restacked :=
  ⟨List.Perm.swap _ _ _, rfl, rfl, rfl⟩

/-- Two orders of one map, one draw list. -/
theorem outputs_independent_of_enumeration_stacked :
    stacked.addresses ≠ restacked.addresses ∧ Raster.render stacked = Raster.render restacked :=
  ⟨by decide, (outputs_independent_of_enumeration reenumerated_stacked).1⟩

end Example

end CompositionIr.EnumerationOrder
