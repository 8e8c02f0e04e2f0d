import CompositionIr.CommitSpec

/-!
Snapshots that show the same. What the emitter lists and what a commit returns depend on
the domain and the projections of the two sides only, not on the allocations that hold
them nor on the order in which the map enumerates.
-/

namespace CompositionIr.ShownStates

open Outcomes Ascending ChildGraphs Addresses Records Snapshots Deltas Commits
open PublishedStates SubtreeComparison DeltaSpec CommitSpec

structure ShowSame (s s' : Snapshot) : Prop where
  domain : s.version.domain = s'.version.domain
  state : state s.records = state s'.records

theorem ShowSame.refl (s : Snapshot) : ShowSame s s := ⟨rfl, rfl⟩

section Records

variable {records records' : RecordMap}

/-- Records at one address: absent from both maps, or of one projection. -/
theorem lookup_cases (h : state records = state records') (x : Address) :
    (records.lookup x = none ∧ records'.lookup x = none) ∨
      ∃ b b', records.lookup x = some b ∧ records'.lookup x = some b' ∧
        b.node.projection = b'.node.projection := by
  have hx := congrFun h x
  cases hb : records.lookup x with
  | none =>
    rw [(state_eq_none records x).mpr hb] at hx
    exact Or.inl ⟨rfl, (state_eq_none records' x).mp hx.symm⟩
  | some b =>
    rw [state_of_lookup hb] at hx
    obtain ⟨b', hb', hproj⟩ := (state_eq_some _ _ _).mp hx.symm
    exact Or.inr ⟨b, b', rfl, hb', hproj.symm⟩

theorem childrenOf_congr (h : state records = state records') (x : Address) :
    childrenOf records x = childrenOf records' x := by
  unfold childrenOf
  rcases lookup_cases h x with ⟨hb, hb'⟩ | ⟨b, b', hb, hb', hproj⟩
  · rw [hb, hb']
  · rw [hb, hb', Option.map_some, Option.map_some]
    change b.node.children = b'.node.children
    exact congrFun hproj Part.structure

theorem mem_keys_congr (h : state records = state records') (x : Address) :
    x ∈ records.keys ↔ x ∈ records'.keys := by
  rw [← AList.mem_keys, ← AList.mem_keys, ← AList.lookup_isSome, ← AList.lookup_isSome]
  rcases lookup_cases h x with ⟨hb, hb'⟩ | ⟨b, b', hb, hb', _⟩ <;> rw [hb, hb']
  exact iff_of_true rfl rfl

end Records

theorem ownEqual_congr {b b' a a' : Arc} (hb : b.node.projection = b'.node.projection)
    (ha : a.node.projection = a'.node.projection) : ownEqual b a = ownEqual b' a' := by
  rw [Bool.eq_iff_iff, ownEqual_iff, ownEqual_iff, hb, ha]

theorem partEq_congr {n n' m m' : Node} (hn : n.projection = n'.projection)
    (hm : m.projection = m'.projection) (p : Part) : n.partEq m p = n'.partEq m' p := by
  rw [Bool.eq_iff_iff, Node.partEq_iff, Node.partEq_iff, hn, hm]

section Emitter

variable {s s' t t' : Snapshot}

theorem subtreeEq_congr (hs : ShowSame s s') (ht : ShowSame t t')
    (hdom : s.version.domain = t.version.domain) (fuel : ℕ) (x : Address) :
    subtreeEq s t fuel x = subtreeEq s' t' fuel x := by
  unfold subtreeEq
  induction fuel generalizing x with
  | zero => rfl
  | succ fuel ih =>
    have hdom' : s'.version.domain = t'.version.domain := by rw [← hs.domain, hdom, ht.domain]
    by_cases hx : x.domain = s.version.domain
    · have hsub : subtreeWith ownEqual s t fuel = subtreeWith ownEqual s' t' fuel := funext ih
      rw [subtreeWith_own ownEqual s t fuel x hdom hx,
        subtreeWith_own ownEqual s' t' fuel x hdom' (hx.trans hs.domain), hsub]
      rcases lookup_cases hs.state x with ⟨hb, hb'⟩ | ⟨b, b', hb, hb', hbp⟩
      · rcases lookup_cases ht.state x with ⟨ha, ha'⟩ | ⟨a, a', ha, ha', _⟩
        · rw [hb, hb', ha, ha']
        · rw [hb, hb', ha, ha']
      · rcases lookup_cases ht.state x with ⟨ha, ha'⟩ | ⟨a, a', ha, ha', hap⟩
        · rw [hb, hb', ha, ha']
        · have hkids : b.node.children = b'.node.children := congrFun hbp Part.structure
          rw [hb, hb', ha, ha']
          simp only [ownEqual_congr hbp hap, hkids]
    · rw [subtreeWith_foreign ownEqual s t fuel x hx,
        subtreeWith_foreign ownEqual s' t' fuel x (fun h => hx (h.trans hs.domain.symm))]

theorem entryParts_congr {b b' : Option Arc} {a a' : Arc} (r : Bool)
    (hb : b.map (fun arc => arc.node.projection) = b'.map (fun arc => arc.node.projection))
    (ha : a.node.projection = a'.node.projection) : entryParts b a r = entryParts b' a' r := by
  have hown : ownDiffs b a = ownDiffs b' a' := by
    cases b with
    | none =>
      cases b' with
      | none => rfl
      | some b' => cases hb
    | some b =>
      cases b' with
      | none => cases hb
      | some b' =>
        have hproj := Option.some.inj hb
        unfold ownDiffs
        simp only [partEq_congr hproj ha]
  unfold entryParts
  rw [hown]

theorem diffOf_congr (hs : ShowSame s s') (ht : ShowSame t t')
    (hdom : s.version.domain = t.version.domain) (fuel : ℕ) (x : Address) :
    diffOf (subtreeEq s t fuel) s t x = diffOf (subtreeEq s' t' fuel) s' t' x := by
  have hsub : subtreeEq s t fuel = subtreeEq s' t' fuel :=
    funext (subtreeEq_congr hs ht hdom fuel)
  have hdom' : s'.version.domain = t'.version.domain := by rw [← hs.domain, hdom, ht.domain]
  by_cases hx : x.domain = s.version.domain
  · rw [diffOf_own x hx (hx.trans hdom),
      diffOf_own x (hx.trans hs.domain) ((hx.trans hs.domain).trans hdom'), hsub,
      childrenOf_congr hs.state, childrenOf_congr ht.state]
    have hbase : (s.records.lookup x).map (fun arc => arc.node.projection) =
        (s'.records.lookup x).map (fun arc => arc.node.projection) := congrFun hs.state x
    rcases lookup_cases ht.state x with ⟨ha, ha'⟩ | ⟨a, a', ha, ha', hap⟩
    · rw [ha, ha']
    · rw [ha, ha']
      simp only [entryParts_congr _ hbase hap]
  · have hx' : x.domain ≠ s'.version.domain := fun h => hx (h.trans hs.domain.symm)
    unfold diffOf
    rw [← hsub]
    cases fuel with
    | zero => rfl
    | succ fuel =>
      unfold subtreeEq
      rw [subtreeWith_foreign ownEqual s t fuel x hx, Outcome.trap_bind, Outcome.trap_bind]

/-- The emitter's list depends on the projections of the two snapshots only. -/
theorem diffsBetween_congr (hs : ShowSame s s') (ht : ShowSame t t')
    (hdom : s.version.domain = t.version.domain) (fuel : ℕ) :
    diffsBetween s t fuel = diffsBetween s' t' fuel := by
  have hscan : scanned s t = scanned s' t' := by
    unfold scanned
    refine ascending_congr (fun x => ?_)
    rw [List.mem_append, List.mem_append]
    exact or_congr (mem_keys_congr hs.state x) (mem_keys_congr ht.state x)
  unfold diffsBetween
  rw [hscan]
  generalize scanned s' t' = l
  induction l with
  | nil => rfl
  | cons x rest ih =>
    unfold diffsFrom
    rw [ih, diffOf_congr hs ht hdom fuel x]

/-- Two lists the emitter returns between snapshots that show the same are one. -/
theorem diffs_eq (hs : ShowSame s s') (ht : ShowSame t t')
    (hdom : s.version.domain = t.version.domain) {fuel fuel' : ℕ} {diffs diffs' : List Diff}
    (h : diffsBetween s t fuel = .done diffs) (h' : diffsBetween s' t' fuel' = .done diffs') :
    diffs = diffs' := by
  rw [diffsBetween_congr hs ht hdom] at h
  have hsame := (diffsBetween_mono s' t').eq_of_ne (n := fuel) (m := fuel')
    (by rw [h]; simp) (by rw [h']; simp)
  rw [h, h'] at hsame
  exact Outcome.done.inj hsame

end Emitter

section Commits

variable {b b' : SnapshotBuilder}

/-- The diffs a commit returns are what the emitter lists between its base and its
candidate, published or not. -/
theorem commit_diffs (b : SnapshotBuilder) (fuel : ℕ) (c : Commit)
    (h : commit b fuel = .done c) :
    ∃ revision, nextRevision b.base.version.revision = .done revision ∧
      diffsBetween b.base (candidate b revision) fuel = .done c.delta.diffs := by
  obtain ⟨revision, diffs, hnext, hdiffs, ⟨hun, hc⟩ | ⟨_, hc⟩⟩ := commit_cases b fuel c h
  · exact ⟨revision, hnext, by rw [hdiffs, hun.1, hc]⟩
  · exact ⟨revision, hnext, by rw [hdiffs, hc]⟩

/-- Two commits on bases and builders that show the same return the same diffs. -/
theorem commit_diffs_congr (hbase : ShowSame b.base b'.base)
    (hbuilt : state b.records = state b'.records) (fuel fuel' : ℕ) (c c' : Commit)
    (h : commit b fuel = .done c) (h' : commit b' fuel' = .done c') :
    c.delta.diffs = c'.delta.diffs := by
  obtain ⟨revision, _, hdiffs⟩ := commit_diffs b fuel c h
  obtain ⟨revision', _, hdiffs'⟩ := commit_diffs b' fuel' c' h'
  have hcand : ShowSame (candidate b revision) (candidate b' revision') :=
    ⟨hbase.domain, hbuilt⟩
  exact diffs_eq hbase hcand (candidate_domain b revision) hdiffs hdiffs'

end Commits

end CompositionIr.ShownStates
