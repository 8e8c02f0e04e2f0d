import CompositionIr.Renders

/-!
A page as a query and as a target has it. The query keeps every record that lists the
fragment; the target pushes a record once for each time it lists the fragment and passes
over the resources. They agree on the pages where each record that lists them does so once
and is no resource.
-/

namespace CompositionIr.Pages

open Outcomes Addresses Records Snapshots PublishedStates KeyedMaps Sorting Backends Queries
open Renders

section Counting

variable {α : Type*} [DecidableEq α]

/-- How often a list that repeats each element of another holds one of them. -/
theorem count_flatMap_replicate (l : List α) (hl : l.Nodup) (times : α → ℕ) (a : α) :
    (l.flatMap (fun b => List.replicate (times b) b)).count a = if a ∈ l then times a else 0 := by
  induction l with
  | nil => rfl
  | cons b rest ih =>
    obtain ⟨hb, hrest⟩ := List.nodup_cons.mp hl
    rw [List.flatMap_cons, List.count_append, ih hrest]
    by_cases hab : a = b
    · subst hab
      simp [hb]
    · have hba : b ≠ a := Ne.symm hab
      simp [List.count_replicate, hab, hba]

end Counting

variable {s : Snapshot} {f : UInt32}

def times (s : Snapshot) (f : UInt32) (a : Address) : ℕ :=
  if a.space = Space.resource then 0 else (fragmentsOf s a).count f

theorem landed_eq (s : Snapshot) (f : UInt32) (a : Address) :
    landed s f a = List.replicate (times s f a) a := by
  unfold landed times
  split <;> rfl

theorem count_landing (s : Snapshot) (f : UInt32) (a : Address) :
    (landing s f).count a = if a ∈ s.addresses then times s f a else 0 := by
  have hlanding : landing s f =
      s.addresses.flatMap (fun b => List.replicate (times s f b) b) := by
    unfold landing
    exact congrArg s.addresses.flatMap (funext (landed_eq s f))
  rw [hlanding]
  exact count_flatMap_replicate s.addresses (nodup_addresses s) (times s f) a

theorem count_listing (s : Snapshot) (f : UInt32) (a : Address) :
    (s.addresses.filter (fun b => (fragmentsOf s b).contains f)).count a =
      if a ∈ s.addresses then (if f ∈ fragmentsOf s a then 1 else 0) else 0 := by
  have hnodup := (nodup_addresses s).filter (fun b => (fragmentsOf s b).contains f)
  rw [hnodup.count]
  simp only [List.mem_filter, List.contains_iff_mem, ite_and]

/-- Every live record that lists the fragment is outside the resource space and lists it
once. -/
def ListedOnce (s : Snapshot) (f : UInt32) : Prop :=
  ∀ a n, s.records.lookup a = some n → f ∈ n.node.fragments →
    a.space ≠ Space.resource ∧ n.node.fragments.count f = 1

theorem fragmentsOf_eq {a : Address} {n : Arc} (h : s.records.lookup a = some n) :
    fragmentsOf s a = n.node.fragments := by
  unfold fragmentsOf
  rw [h]
  rfl

/-- At one live address, the query and the target count the same exactly when the fragment
is not listed or listed once outside the resource space. -/
theorem times_eq_iff (s : Snapshot) (f : UInt32) (a : Address) :
    (if f ∈ fragmentsOf s a then 1 else 0) = times s f a ↔
      (f ∈ fragmentsOf s a → a.space ≠ Space.resource ∧ (fragmentsOf s a).count f = 1) := by
  unfold times
  by_cases hf : f ∈ fragmentsOf s a
  · by_cases hspace : a.space = Space.resource
    · simp [hf, hspace]
    · simp only [hf, hspace, if_true, if_false, ne_eq, not_false_eq_true, true_and,
        forall_const]
      exact eq_comm
  · have hzero : (fragmentsOf s a).count f = 0 := List.count_eq_zero.mpr hf
    simp [hf, hzero]

theorem listing_eq_landing_iff (s : Snapshot) (f : UInt32) :
    sort (s.addresses.filter (fun a => (fragmentsOf s a).contains f)) = sort (landing s f) ↔
      ListedOnce s f := by
  rw [sort_eq_iff_perm, List.perm_iff_count]
  simp only [count_listing, count_landing]
  constructor
  · intro hcount a n hn hf
    have ha : a ∈ s.addresses := (mem_addresses s a).mpr ⟨n, hn⟩
    have hlive := hcount a
    rw [if_pos ha, if_pos ha, times_eq_iff, fragmentsOf_eq hn] at hlive
    exact hlive hf
  · intro honce a
    by_cases ha : a ∈ s.addresses
    · rw [if_pos ha, if_pos ha, times_eq_iff]
      obtain ⟨n, hn⟩ := (mem_addresses s a).mp ha
      rw [fragmentsOf_eq hn]
      exact honce a n hn
    · rw [if_neg ha, if_neg ha]

/-- A target names a page for an address exactly when the page lists it. -/
theorem mem_pagesOf (paged : Paged) (a : Address) (f : UInt32) :
    f ∈ paged.pagesOf a ↔ a ∈ listed paged.pages f := by
  unfold Paged.pagesOf
  rw [List.mem_filter, Finset.mem_sort, List.contains_iff_mem]
  constructor
  · intro h
    exact h.2
  · intro h
    refine ⟨?_, h⟩
    rw [Finmap.mem_keys]
    by_contra hf
    unfold listed at h
    rw [Finmap.lookup_eq_none.mpr hf] at h
    cases h

/-- The page query lists what the paginated target holds for the page exactly when every
live record that lists the fragment is outside the resource space and lists it once; the
pages the target names for an address are always those that list it. -/
theorem onFragment_eq_page_iff (s : Snapshot) (f : UInt32) (paged : Paged) (work : Work)
    (hrender : Paged.render s = .done (paged, work)) :
    ∃ on cost, onFragment s f = .done (on, cost) ∧
      (on = listed paged.pages f ↔ ListedOnce s f) ∧
      ∀ a, f ∈ paged.pagesOf a ↔ a ∈ listed paged.pages f := by
  have hs : OwnKeys s := ownKeys_of_done paged_foreign hrender
  obtain ⟨paged', hrendered, hholds⟩ := paged_own s hs
  rw [hrendered] at hrender
  obtain ⟨hpaged, _⟩ := Prod.mk.inj (Outcome.done.inj hrender)
  refine ⟨_, _, onFragment_own s hs f, ?_, fun a => mem_pagesOf paged a f⟩
  rw [← hpaged, hholds.listed f]
  exact listing_eq_landing_iff s f

section Example

def brochure : Snapshot :=
  holding (rev 1) 0 [(addr .node 1, { fragments := [0, 1] }), (addr .node 2, { fragments := [1] }),
    (addr .resource 3, {})]

def fontOnPage : Snapshot := holding (rev 1) 0 [(addr .resource 1, { fragments := [0] })]

def listedTwice : Snapshot := holding (rev 1) 0 [(addr .node 1, { fragments := [0, 0] })]

theorem onFragment_eq_page_brochure :
    ∃ paged work on cost, Paged.render brochure = .done (paged, work) ∧
      onFragment brochure 1 = .done (on, cost) ∧ on = listed paged.pages 1 ∧
      ∀ a, 1 ∈ paged.pagesOf a ↔ a ∈ listed paged.pages 1 := by
  have hrender : Paged.render brochure = .done _ := rfl
  obtain ⟨on, cost, hon, hiff, hpages⟩ := onFragment_eq_page_iff brochure 1 _ _ hrender
  refine ⟨_, _, on, cost, hrender, hon, hiff.mpr ?_, hpages⟩
  intro a n hn hf
  have ha : a ∈ brochure.addresses := (mem_addresses brochure a).mpr ⟨n, hn⟩
  have hlive : ∀ b ∈ brochure.addresses, 1 ∈ fragmentsOf brochure b →
      b.space ≠ Space.resource ∧ (fragmentsOf brochure b).count 1 = 1 := by decide
  have honce := hlive a ha
  rw [fragmentsOf_eq hn] at honce
  exact honce hf

/-- The query lists a font that the target keeps off its pages, and lists a note once that
the target has twice. -/
theorem page_query_misses_page :
    (∃ paged work cost, Paged.render fontOnPage = .done (paged, work) ∧
        onFragment fontOnPage 0 = .done ([addr .resource 1], cost) ∧
        listed paged.pages 0 = []) ∧
      ∃ paged work cost, Paged.render listedTwice = .done (paged, work) ∧
        onFragment listedTwice 0 = .done ([addr .node 1], cost) ∧
        listed paged.pages 0 = [addr .node 1, addr .node 1] :=
  ⟨⟨_, _, _, rfl, rfl, rfl⟩, _, _, _, rfl, rfl, rfl⟩

end Example

end CompositionIr.Pages
