import Mathlib.Data.List.Sort
import Mathlib.Order.Defs.LinearOrder

/-!
Sorting a sequence by a key, stably. Where no two elements share a key, the result does
not depend on the order the elements came in.
-/

namespace CompositionIr.Sorting

variable {α β : Type*} [LinearOrder β]

def sortByKey (key : α → β) (l : List α) : List α :=
  l.insertionSort (fun a b => key a ≤ key b)

abbrev sort (l : List β) : List β := sortByKey id l

section Keyed

variable (key : α → β)

instance totalKey : Std.Total (fun a b : α => key a ≤ key b) :=
  ⟨fun a b => le_total (key a) (key b)⟩

instance transKey : IsTrans α (fun a b : α => key a ≤ key b) :=
  ⟨fun _ _ _ hab hbc => hab.trans hbc⟩

theorem perm_sortByKey (l : List α) : (sortByKey key l).Perm l :=
  List.perm_insertionSort _ l

@[simp] theorem mem_sortByKey (l : List α) (a : α) : a ∈ sortByKey key l ↔ a ∈ l :=
  (perm_sortByKey key l).mem_iff

theorem pairwise_sortByKey (l : List α) :
    (sortByKey key l).Pairwise (fun a b => key a ≤ key b) :=
  List.pairwise_insertionSort _ l

/-- Where no two elements share a key, the sorted keys increase. -/
theorem pairwise_lt_sortByKey {l : List α} (hl : (l.map key).Nodup) :
    (sortByKey key l).Pairwise (fun a b => key a < key b) := by
  have hnodup : ((sortByKey key l).map key).Nodup :=
    ((perm_sortByKey key l).map key).nodup_iff.mpr hl
  have hne := List.pairwise_map.mp hnodup
  exact (pairwise_sortByKey key l).imp₂ (fun _ _ hab hne => lt_of_le_of_ne hab hne) hne

/-- Behind an element of an increasing list stand the elements of a greater key. -/
theorem mem_behind {left right : List α} {a : α}
    (hl : (left ++ a :: right).Pairwise (fun b c => key b < key c)) (b : α) :
    b ∈ right ↔ b ∈ left ++ a :: right ∧ key a < key b := by
  obtain ⟨_, hright, hcross⟩ := List.pairwise_append.mp hl
  obtain ⟨hbehind, _⟩ := List.pairwise_cons.mp hright
  constructor
  · intro hb
    exact ⟨List.mem_append_right _ (List.mem_cons_of_mem a hb), hbehind b hb⟩
  · rintro ⟨hb, hlt⟩
    rcases List.mem_append.mp hb with hb | hb
    · exact absurd (hcross b hb a (List.mem_cons_self ..)) hlt.asymm
    · rcases List.mem_cons.mp hb with rfl | hb
      · exact absurd hlt (lt_irrefl _)
      · exact hb

/-- Without ties, the elements alone decide the sorted list. -/
theorem sortByKey_eq_of_perm {l l' : List α} (hperm : l.Perm l')
    (hkey : ∀ a ∈ l, ∀ b ∈ l, key a = key b → a = b) : sortByKey key l = sortByKey key l' := by
  have hsorted : (sortByKey key l).Perm (sortByKey key l') :=
    (perm_sortByKey key l).trans (hperm.trans (perm_sortByKey key l').symm)
  refine hsorted.eq_of_pairwise ?_ (pairwise_sortByKey key l) (pairwise_sortByKey key l')
  intro a b ha hb hab hba
  rw [mem_sortByKey] at ha hb
  exact hkey a ha b (hperm.mem_iff.mpr hb) (le_antisymm hab hba)

end Keyed

theorem sort_eq_of_perm {l l' : List β} (hperm : l.Perm l') : sort l = sort l' :=
  sortByKey_eq_of_perm id hperm (fun _ _ _ _ h => h)

theorem sort_eq_iff_perm (l l' : List β) : sort l = sort l' ↔ l.Perm l' := by
  constructor
  · intro h
    have hperm : (sort l).Perm l := perm_sortByKey id l
    rw [h] at hperm
    exact hperm.symm.trans (perm_sortByKey id l')
  · exact sort_eq_of_perm

/-- A sorted sequence without repetitions is the sorted set of its elements. -/
theorem pairwise_lt_sort {l : List β} (hl : l.Nodup) : (sort l).Pairwise (· < ·) := by
  have hnodup : (sort l).Nodup := (perm_sortByKey id l).nodup_iff.mpr hl
  exact (pairwise_sortByKey id l).imp₂ (fun _ _ hab hne => lt_of_le_of_ne hab hne) hnodup

end CompositionIr.Sorting
