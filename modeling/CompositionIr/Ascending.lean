import Mathlib.Data.List.Dedup
import Mathlib.Data.List.Sort
import Mathlib.Order.Defs.LinearOrder

/-!
Collecting a sequence into an ordered set and reading the set back: every element once,
in ascending order. The result depends on the elements only, not on their order.
-/

namespace CompositionIr.Ascending

variable {α : Type*} [LinearOrder α]

def ascending (l : List α) : List α := l.dedup.insertionSort (· ≤ ·)

@[simp] theorem mem_ascending (l : List α) (a : α) : a ∈ ascending l ↔ a ∈ l := by
  rw [ascending, List.mem_insertionSort, List.mem_dedup]

theorem nodup_ascending (l : List α) : (ascending l).Nodup :=
  (List.perm_insertionSort (· ≤ ·) l.dedup).nodup_iff.mpr l.nodup_dedup

theorem pairwise_ascending (l : List α) : (ascending l).Pairwise (· < ·) := by
  have hle : (ascending l).Pairwise (· ≤ ·) := List.pairwise_insertionSort (· ≤ ·) l.dedup
  exact hle.imp₂ (fun a b hab hne => lt_of_le_of_ne hab hne) (nodup_ascending l)

theorem ascending_congr {l l' : List α} (h : ∀ a, a ∈ l ↔ a ∈ l') :
    ascending l = ascending l' := by
  have hperm : (ascending l).Perm (ascending l') := by
    rw [List.perm_ext_iff_of_nodup (nodup_ascending l) (nodup_ascending l')]
    intro a
    rw [mem_ascending, mem_ascending, h]
  exact hperm.eq_of_pairwise (fun _ _ _ _ hab hba => absurd hba (lt_asymm hab))
    (pairwise_ascending l) (pairwise_ascending l')

/-- What stands before an element in ascending order is what is smaller. -/
theorem split_ascending_iff (l : List α) (a : α) (P : α → Prop) :
    (∃ left right, ascending l = left ++ a :: right ∧ ∀ y ∈ left, P y) ↔
      a ∈ l ∧ ∀ y ∈ l, y < a → P y := by
  have hsorted := pairwise_ascending l
  constructor
  · intro h
    obtain ⟨left, right, hsplit, hleft⟩ := h
    refine ⟨(mem_ascending l a).mp (by rw [hsplit]; simp), fun y hy hlt => ?_⟩
    have hmem := (mem_ascending l y).mpr hy
    rw [hsplit] at hmem hsorted
    rcases List.mem_append.mp hmem with hin | hin
    · exact hleft y hin
    · rcases List.mem_cons.mp hin with heq | hin
      · exact absurd (heq ▸ hlt) (lt_irrefl a)
      · have hgt := (List.pairwise_cons.mp (List.pairwise_append.mp hsorted).2.1).1 y hin
        exact absurd (hlt.trans hgt) (lt_irrefl y)
  · intro h
    obtain ⟨left, right, hsplit⟩ := List.append_of_mem ((mem_ascending l a).mpr h.1)
    refine ⟨left, right, hsplit, fun y hy => ?_⟩
    have hyl : y ∈ l := (mem_ascending l y).mp (by rw [hsplit]; simp [hy])
    rw [hsplit] at hsorted
    exact h.2 y hyl ((List.pairwise_append.mp hsorted).2.2 y hy a (List.mem_cons_self ..))

end CompositionIr.Ascending
