import Mathlib.Data.Finmap

/-!
Finite maps as the code fills them: a value under a key, an element appended to the list
under a key, a function applied to every value. Maps with one answer under every key are
equal, however they were filled.
-/

namespace CompositionIr.KeyedMaps

variable {κ ν μ : Type*}

abbrev KeyedMap (κ ν : Type*) := Finmap (fun _ : κ => ν)

section Values

def mapValues (f : ν → μ) (m : KeyedMap κ ν) : KeyedMap κ μ where
  entries := m.entries.map (fun e => ⟨e.1, f e.2⟩)
  nodupKeys := by
    have hkeys := Multiset.nodup_keys.mpr m.nodupKeys
    apply Multiset.nodup_keys.mp
    unfold Multiset.keys at hkeys ⊢
    rwa [Multiset.map_map]

variable [DecidableEq κ]

theorem dlookup_map (f : ν → μ) (l : List (Sigma (fun _ : κ => ν))) (k : κ) :
    List.dlookup k (l.map (fun e => (⟨e.1, f e.2⟩ : Sigma (fun _ : κ => μ)))) =
      (List.dlookup k l).map f := by
  induction l with
  | nil => rfl
  | cons e rest ih =>
    obtain ⟨k', v⟩ := e
    by_cases hk : k = k'
    · subst hk
      rw [List.map_cons, List.dlookup_cons_eq, List.dlookup_cons_eq]
      rfl
    · rw [List.map_cons, List.dlookup_cons_ne _ _ hk, List.dlookup_cons_ne _ _ hk, ih]

@[simp] theorem lookup_mapValues (f : ν → μ) (m : KeyedMap κ ν) (k : κ) :
    (mapValues f m).lookup k = (m.lookup k).map f := by
  induction m using Finmap.induction_on with
  | H a => exact dlookup_map f a.entries k

end Values

section Lists

variable [DecidableEq κ]

def listed (m : KeyedMap κ (List ν)) (k : κ) : List ν := (m.lookup k).getD []

def push (m : KeyedMap κ (List ν)) (k : κ) (v : ν) : KeyedMap κ (List ν) :=
  m.insert k (listed m k ++ [v])

theorem listed_push (m : KeyedMap κ (List ν)) (k k' : κ) (v : ν) :
    listed (push m k v) k' = if k' = k then listed m k' ++ [v] else listed m k' := by
  unfold push
  by_cases hk : k' = k
  · subst hk
    rw [if_pos rfl]
    unfold listed
    rw [Finmap.lookup_insert]
    rfl
  · rw [if_neg hk]
    unfold listed
    rw [Finmap.lookup_insert_of_ne _ hk]

/-- A map that holds no empty list is known from what it lists. -/
theorem eq_of_listed {m m' : KeyedMap κ (List ν)} (hm : ∀ k, m.lookup k ≠ some [])
    (hm' : ∀ k, m'.lookup k ≠ some []) (h : ∀ k, listed m k = listed m' k) : m = m' := by
  apply Finmap.ext_lookup
  intro k
  have hk := h k
  unfold listed at hk
  cases hl : m.lookup k with
  | none =>
    cases hl' : m'.lookup k with
    | none => rfl
    | some vs =>
      rw [hl, hl'] at hk
      have hnil : [] = vs := hk
      rw [← hnil] at hl'
      exact absurd hl' (hm' k)
  | some us =>
    cases hl' : m'.lookup k with
    | none =>
      rw [hl, hl'] at hk
      have hnil : us = [] := hk
      rw [hnil] at hl
      exact absurd hl (hm k)
    | some vs =>
      rw [hl, hl'] at hk
      exact congrArg some hk

theorem push_ne_nil {m : KeyedMap κ (List ν)} (hm : ∀ k, m.lookup k ≠ some []) (k : κ) (v : ν) :
    ∀ k', (push m k v).lookup k' ≠ some [] := by
  intro k' h
  unfold push at h
  by_cases hk : k' = k
  · subst hk
    rw [Finmap.lookup_insert, Option.some.injEq] at h
    simp at h
  · rw [Finmap.lookup_insert_of_ne _ hk] at h
    exact hm k' h

end Lists

end CompositionIr.KeyedMaps
