import CompositionIr.PublishedStates

/-!
What the top-down comparison computes and when it answers. Any answer decides the
upward closure of the differing records. When the first snapshot's children graph has
no cycle and all addresses are of the own domain, fuel past the number of live records
always brings an answer.
-/

namespace CompositionIr.SubtreeComparison

open Outcomes ChildGraphs Addresses Records Snapshots Deltas PublishedStates

theorem get_own (s : Snapshot) (x : Address) (hx : x.domain = s.version.domain) :
    s.get x = .done (s.records.lookup x) := if_pos hx

theorem get_foreign (s : Snapshot) (x : Address) (hx : x.domain ≠ s.version.domain) :
    s.get x = .trap .foreignDomain := if_neg hx

theorem get_eq_done (s : Snapshot) (x : Address) (o : Option Arc) (h : s.get x = .done o) :
    x.domain = s.version.domain ∧ s.records.lookup x = o := by
  by_cases hx : x.domain = s.version.domain
  · rw [get_own s x hx] at h
    exact ⟨hx, Outcome.done.inj h⟩
  · rw [get_foreign s x hx] at h
    cases h

structure Compares {L : Type} (same : Arc → Arc → Bool) (lab : Node → L)
    (kids : L → List Address) : Prop where
  same_iff : ∀ b a, same b a = true ↔ lab b.node = lab a.node
  kids_lab : ∀ n, kids (lab n) = n.children

/-- The test of the emitter compares projections: one allocation has one value. -/
theorem ownEqual_iff (b a : Arc) :
    ownEqual b a = true ↔ b.node.projection = a.node.projection := by
  rw [ownEqual, Bool.or_eq_true, List.all_eq_true, ← Node.partEq_own_iff]
  constructor
  · rintro (hptr | hall)
    · have heq : b = a := by simpa [Arc.ptrEq] using hptr
      subst heq
      intro p _
      exact (Node.partEq_iff _ _ p).mpr rfl
    · exact hall
  · exact Or.inr

theorem compares_ownEqual : Compares ownEqual Node.projection kids where
  same_iff := ownEqual_iff
  kids_lab _ := rfl

section Equations

variable (same : Arc → Arc → Bool) (before after : Snapshot) (fuel : ℕ) (x : Address)

theorem subtreeWith_foreign (hx : x.domain ≠ before.version.domain) :
    subtreeWith same before after (fuel + 1) x = .trap .foreignDomain := by
  simp only [subtreeWith, get_foreign before x hx, Outcome.trap_bind]

/-- One unfolding of the comparison at an address of the common domain. -/
theorem subtreeWith_own (hdom : before.version.domain = after.version.domain)
    (hx : x.domain = before.version.domain) :
    subtreeWith same before after (fuel + 1) x =
      match before.records.lookup x, after.records.lookup x with
      | none, none => .done true
      | none, some _ => .done false
      | some _, none => .done false
      | some b, some a =>
        if same b a then b.node.children.allM (subtreeWith same before after fuel)
        else .done false := by
  rw [subtreeWith, get_own before x hx, get_own after x (hx.trans hdom), Outcome.done_bind,
    Outcome.done_bind]
  cases before.records.lookup x <;> cases after.records.lookup x <;> rfl

theorem domain_of_subtreeWith_done (r : Bool)
    (h : subtreeWith same before after fuel x = .done r) :
    x.domain = before.version.domain := by
  by_contra hx
  cases fuel with
  | zero => cases h
  | succ fuel =>
    rw [subtreeWith_foreign same before after fuel x hx] at h
    cases h

end Equations

theorem subtreeWith_mono (same : Arc → Arc → Bool) (before after : Snapshot) (x : Address) :
    FuelMonotone (fun n => subtreeWith same before after n x) := by
  intro n
  induction n generalizing x with
  | zero => exact Or.inl rfl
  | succ n ih =>
    refine Outcome.Approx.bind (Outcome.Approx.refl _) (fun b => ?_)
    refine Outcome.Approx.bind (Outcome.Approx.refl _) (fun a => ?_)
    cases b with
    | none => cases a <;> exact Outcome.Approx.refl _
    | some b =>
      cases a with
      | none => exact Outcome.Approx.refl _
      | some a =>
        by_cases hs : same b a = true
        · simp only [hs, if_true]
          exact Outcome.Approx.allM (fun c => ih c) _
        · simp only [hs]
          exact Outcome.Approx.refl _

section Spec

variable {L : Type} {same : Arc → Arc → Bool} {lab : Node → L} {kids : L → List Address}
variable {before after : Snapshot}

theorem child_iff_of_lookup (hc : Compares same lab kids) {records : RecordMap} {x : Address}
    {arc : Arc} (hx : records.lookup x = some arc) (c : Address) :
    Child kids (graph lab records) x c ↔ c ∈ arc.node.children := by
  unfold Child
  simp [graph_of_lookup lab hx, hc.kids_lab]

/-- Whatever the fuel, an answer of the comparison decides the upward closure. -/
theorem subtreeWith_spec (hc : Compares same lab kids)
    (hdom : before.version.domain = after.version.domain) (fuel : ℕ) (x : Address) (r : Bool)
    (h : subtreeWith same before after fuel x = .done r) :
    r = true ↔ ¬ Differs kids (graph lab before.records) (graph lab after.records) x := by
  induction fuel generalizing x r with
  | zero => cases h
  | succ fuel ih =>
    have hx := domain_of_subtreeWith_done same before after _ x r h
    rw [subtreeWith_own same before after fuel x hdom hx] at h
    rw [not_differs_iff]
    cases hb : before.records.lookup x with
    | none =>
      have hbg : graph lab before.records x = none := (graph_eq_none _ _ _).mpr hb
      cases ha : after.records.lookup x with
      | none =>
        have hag : graph lab after.records x = none := (graph_eq_none _ _ _).mpr ha
        simp only [hb, ha, Outcome.done.injEq] at h
        simp [← h, hbg, hag, Child]
      | some a =>
        simp only [hb, ha, Outcome.done.injEq] at h
        simp [← h, hbg, graph_of_lookup lab ha]
    | some b =>
      have hbg := graph_of_lookup lab hb
      cases ha : after.records.lookup x with
      | none =>
        have hag : graph lab after.records x = none := (graph_eq_none _ _ _).mpr ha
        simp only [hb, ha, Outcome.done.injEq] at h
        simp [← h, hbg, hag]
      | some a =>
        have hag := graph_of_lookup lab ha
        simp only [hb, ha] at h
        by_cases hs : same b a = true
        · rw [if_pos hs] at h
          have heq : lab b.node = lab a.node := (hc.same_iff b a).mp hs
          rw [allM_spec _ ih _ r h]
          simp only [hbg, hag, heq, child_iff_of_lookup hc hb, true_and]
        · rw [if_neg hs, Outcome.done.injEq] at h
          have hne : lab b.node ≠ lab a.node := fun heq => hs ((hc.same_iff b a).mpr heq)
          simp [← h, hbg, hag, hne]

/-- Without cycles the comparison answers once the fuel passes the rank. -/
theorem subtreeWith_done (hc : Compares same lab kids) (hb : OwnAddresses before)
    (hdom : before.version.domain = after.version.domain) (rank : Address → ℕ)
    (hrank : ∀ x c, Child kids (graph lab before.records) x c → rank c < rank x)
    (fuel : ℕ) (x : Address) (hx : x.domain = before.version.domain) (hfuel : rank x < fuel) :
    ∃ r, subtreeWith same before after fuel x = .done r := by
  induction fuel generalizing x with
  | zero => omega
  | succ fuel ih =>
    rw [subtreeWith_own same before after fuel x hdom hx]
    cases hlb : before.records.lookup x with
    | none => cases after.records.lookup x <;> exact ⟨_, rfl⟩
    | some b =>
      cases after.records.lookup x with
      | none => exact ⟨_, rfl⟩
      | some a =>
        by_cases hs : same b a = true
        · simp only [hs, if_true]
          apply allM_done
          intro c hmem
          have hlt := hrank x c ((child_iff_of_lookup hc hlb c).mpr hmem)
          exact ih c (hb.children x b hlb c hmem) (by omega)
        · exact ⟨false, by simp [hs]⟩

/-- Over own addresses the comparison never traps. -/
theorem subtreeWith_ne_trap (hb : OwnAddresses before)
    (hdom : before.version.domain = after.version.domain) (fuel : ℕ) (x : Address)
    (hx : x.domain = before.version.domain) (e : Trap) :
    subtreeWith same before after fuel x ≠ .trap e := by
  induction fuel generalizing x with
  | zero => simp [subtreeWith]
  | succ fuel ih =>
    rw [subtreeWith_own same before after fuel x hdom hx]
    cases hlb : before.records.lookup x with
    | none => cases after.records.lookup x <;> simp
    | some b =>
      cases after.records.lookup x with
      | none => simp
      | some a =>
        by_cases hs : same b a = true
        · simp only [hs, if_true]
          apply allM_ne_trap
          exact fun c hmem => ih c (hb.children x b hlb c hmem)
        · simp [hs]

end Spec

/-- An answer of the emitter's comparison is the law's membership test. -/
theorem subtreeEq_spec {before after : Snapshot}
    (hdom : before.version.domain = after.version.domain) (fuel : ℕ) (x : Address) (r : Bool)
    (h : subtreeEq before after fuel x = .done r) :
    r = true ↔ ¬ DiffersAt before after x :=
  subtreeWith_spec compares_ownEqual hdom fuel x r h

theorem subtreeEq_mono (before after : Snapshot) (x : Address) :
    FuelMonotone (fun n => subtreeEq before after n x) :=
  subtreeWith_mono ownEqual before after x

/-- On an acyclic base one more unit of fuel than there are live records suffices. -/
theorem subtreeEq_done {before after : Snapshot} (hb : OwnAddresses before)
    (hac : AcyclicChildren before) (hdom : before.version.domain = after.version.domain)
    (fuel : ℕ) (hfuel : before.len < fuel) (x : Address)
    (hx : x.domain = before.version.domain) :
    ∃ r, subtreeEq before after fuel x = .done r := by
  obtain ⟨rank, hrank, hle⟩ := exists_child_rank before hac
  have hx' : rank x < fuel := (hle x).trans_lt hfuel
  exact subtreeWith_done compares_ownEqual hb hdom rank hrank fuel x hx hx'

end CompositionIr.SubtreeComparison
