import CompositionIr.SubtreeComparison

/-!
What a list of diffs says about two snapshots. The emitter is followed for any subtree
test that decides a set of differing addresses: it names exactly the scanned members of
the set, ascending, and each entry carries the parts that differ and are there to read.
-/

namespace CompositionIr.DeltaSpec

open Outcomes Ascending ChildGraphs Addresses Records Snapshots Deltas Commits PublishedStates
open SubtreeComparison

theorem children_own (s : Snapshot) (x : Address) (hx : x.domain = s.version.domain) :
    children s x = .done (childrenOf s.records x) := by
  rw [children, get_own s x hx, Outcome.done_bind, childrenOf]
  cases s.records.lookup x <;> rfl

/-- What one entry says: nothing of a retired address, and of a live one the own parts
that differ from what was there, and whether something below it differs. -/
structure Entry (D : Address → Prop) (before after : RecordMap) (d : Diff) : Prop where
  retired : after.lookup d.address = none → d.parts = Parts.empty
  own : ∀ a, after.lookup d.address = some a → ∀ p ∈ ownParts,
    (d.parts.contains p = true ↔
      ∀ b, before.lookup d.address = some b → b.node.partEq a.node p = false)
  descendant : ∀ a, after.lookup d.address = some a →
    (d.parts.contains Part.descendant = true ↔
      ∃ c ∈ childrenOf before d.address ++ childrenOf after d.address, D c)

structure Describes (D : Address → Prop) (before after : RecordMap) (diffs : List Diff) :
    Prop where
  ascending : (diffs.map Diff.address).Pairwise (· < ·)
  named : ∀ x, x ∈ diffs.map Diff.address ↔ D x
  entry : ∀ d ∈ diffs, Entry D before after d

def Named (diffs : List Diff) (x : Address) : Prop := ∃ d ∈ diffs, d.address = x

def NamedPart (diffs : List Diff) (x : Address) (p : Part) : Prop :=
  ∃ d ∈ diffs, d.address = x ∧ d.parts.contains p = true

instance (diffs : List Diff) (x : Address) : Decidable (Named diffs x) :=
  inferInstanceAs (Decidable (∃ d ∈ diffs, d.address = x))

instance (diffs : List Diff) (x : Address) (p : Part) : Decidable (NamedPart diffs x p) :=
  inferInstanceAs (Decidable (∃ d ∈ diffs, d.address = x ∧ d.parts.contains p = true))

theorem named_iff {before after : Snapshot} {diffs : List Diff}
    (hs : Describes (DiffersAt before after) before.records after.records diffs) (x : Address) :
    Named diffs x ↔ DiffersAt before after x := by
  rw [← hs.named x, List.mem_map]
  rfl

theorem describes_self (s : Snapshot) :
    Describes (DiffersAt s s) s.records s.records [] := by
  refine ⟨List.Pairwise.nil, fun x => ?_, by simp⟩
  simpa using not_differs_of_eq rfl x

/-- A list is empty exactly between snapshots whose projections are the same. -/
theorem diffs_eq_nil_iff {before after : Snapshot} {diffs : List Diff}
    (hs : Describes (DiffersAt before after) before.records after.records diffs) :
    diffs = [] ↔ state before.records = state after.records := by
  have hnone : diffs = [] ↔ ¬ ∃ x, DiffersAt before after x := by
    rw [← List.map_eq_nil_iff (f := Diff.address), List.eq_nil_iff_forall_not_mem, not_exists]
    exact forall_congr' (fun x => not_congr (hs.named x))
  rw [hnone, exists_differs_iff, ← Function.ne_iff, not_not]

section OwnDiffs

theorem ownDiffs_none (a : Arc) (p : Part) :
    (ownDiffs none a).contains p = true ↔ p ∈ ownParts := by
  have hloop := Parts.contains_foldl (fun _ => false) ownParts Parts.empty p
  simpa [ownDiffs] using hloop

theorem ownDiffs_some (b a : Arc) (p : Part) :
    (ownDiffs (some b) a).contains p = true ↔ p ∈ ownParts ∧ b.node.partEq a.node p = false := by
  have hloop := Parts.contains_foldl (fun p => b.node.partEq a.node p) ownParts Parts.empty p
  simpa [ownDiffs] using hloop

/-- The own parts of an entry, for a created and for a kept address alike. -/
theorem ownDiffs_own (b : Option Arc) (a : Arc) (p : Part) (hp : p ∈ ownParts) :
    (ownDiffs b a).contains p = true ↔ ∀ b', b = some b' → b'.node.partEq a.node p = false := by
  cases b with
  | none => simp [ownDiffs_none, hp]
  | some b => simp [ownDiffs_some, hp]

theorem ownDiffs_descendant (b : Option Arc) (a : Arc) :
    (ownDiffs b a).contains Part.descendant = false := by
  have hnot : Part.descendant ∉ ownParts := by decide
  rw [← Bool.not_eq_true]
  cases b with
  | none => rwa [ownDiffs_none]
  | some b => exact fun h => hnot ((ownDiffs_some b a _).mp h).1

end OwnDiffs

theorem child_domain {before after : Snapshot} (hb : OwnAddresses before)
    (ha : OwnAddresses after) (hdom : before.version.domain = after.version.domain)
    (x c : Address) (hc : c ∈ childrenOf before.records x ++ childrenOf after.records x) :
    c.domain = before.version.domain := by
  rcases List.mem_append.mp hc with hc | hc
  · obtain ⟨arc, harc, hmem⟩ := (mem_childrenOf _ _ _).mp hc
    exact hb.children x arc harc c hmem
  · obtain ⟨arc, harc, hmem⟩ := (mem_childrenOf _ _ _).mp hc
    exact (ha.children x arc harc c hmem).trans hdom.symm

section Emitter

variable {sub : Address → Eval Bool} {D : Address → Prop} {before after : Snapshot}

/-- The disjunction over the children in order is the negated conjunction. -/
theorem descendantDiffers_own (x : Address) (hb : x.domain = before.version.domain)
    (ha : x.domain = after.version.domain) :
    descendantDiffers sub before after x =
      (ascending (childrenOf before.records x ++ childrenOf after.records x)).allM sub >>=
        fun b => .done !b := by
  rw [descendantDiffers, children_own before x hb, children_own after x ha]
  exact anyM_not sub _

def entryParts (b : Option Arc) (a : Arc) (belowEqual : Bool) : Parts :=
  if belowEqual then ownDiffs b a else (ownDiffs b a).insert Part.descendant

/-- The emitter at an address of the common domain. -/
theorem diffOf_own (x : Address) (hb : x.domain = before.version.domain)
    (ha : x.domain = after.version.domain) :
    diffOf sub before after x = sub x >>= fun q =>
      if q then .done none
      else match after.records.lookup x with
        | none => .done (some ⟨x, Parts.empty⟩)
        | some a =>
          (ascending (childrenOf before.records x ++ childrenOf after.records x)).allM sub >>=
            fun r => .done (some ⟨x, entryParts (before.records.lookup x) a r⟩) := by
  unfold diffOf
  congr 1
  funext q
  rw [get_own after x ha, get_own before x hb, descendantDiffers_own x hb ha]
  cases q with
  | true => rfl
  | false =>
    cases after.records.lookup x with
    | none => rfl
    | some a =>
      simp only [Bool.false_eq_true, if_false, Outcome.done_bind]
      cases (ascending (childrenOf before.records x ++ childrenOf after.records x)).allM sub with
      | done r => cases r <;> rfl
      | trap e => rfl
      | starved => rfl

theorem entryParts_own (b : Option Arc) (a : Arc) (r : Bool) (p : Part) (hp : p ∈ ownParts) :
    (entryParts b a r).contains p = true ↔ ∀ b', b = some b' → b'.node.partEq a.node p = false := by
  have hne : Part.descendant ≠ p := fun heq => (mem_ownParts p).mp hp heq.symm
  unfold entryParts
  cases r with
  | true => exact ownDiffs_own b a p hp
  | false =>
    rw [if_neg (by simp), Parts.contains_insert, decide_eq_false hne, Bool.or_false]
    exact ownDiffs_own b a p hp

theorem entryParts_descendant (b : Option Arc) (a : Arc) (r : Bool) :
    (entryParts b a r).contains Part.descendant = true ↔ r = false := by
  unfold entryParts
  cases r with
  | true => simp [ownDiffs_descendant]
  | false => simp

/-- The conjunction over the children decides whether one of them differs. -/
theorem allM_children_spec (hsub : ∀ x r, sub x = .done r → (r = true ↔ ¬ D x)) (l : List Address)
    (r : Bool) (h : (ascending l).allM sub = .done r) : r = false ↔ ∃ c ∈ l, D c := by
  have hall := allM_spec sub hsub _ r h
  rw [← Bool.not_eq_true, hall]
  simp only [mem_ascending, not_forall, not_not, exists_prop]

/-- A conjunction over the children that answers, although one of them cannot, has
stopped at a smaller child. -/
theorem allM_children_stops (l : List Address) (r : Bool) (h : (ascending l).allM sub = .done r)
    (y : Address) (hy : y ∈ l) (hno : ∀ b, sub y ≠ .done b) :
    ∃ c ∈ l, c < y ∧ sub c = .done false := by
  have hmem := (mem_ascending l y).mpr hy
  cases r with
  | true => exact absurd ((allM_eq_true _ _).mp h y hmem) (hno true)
  | false =>
    obtain ⟨left, c, right, hsplit, hleft, hc⟩ := (allM_eq_of_ne _ _ _ (by simp)).mp h
    have hsorted := pairwise_ascending l
    have hcl : c ∈ l := (mem_ascending l c).mp (by rw [hsplit]; simp)
    rw [hsplit] at hmem hsorted
    refine ⟨c, hcl, ?_, hc⟩
    rcases List.mem_append.mp hmem with hin | hin
    · exact absurd (hleft y hin) (hno true)
    · rcases List.mem_cons.mp hin with heq | hin
      · rw [heq] at hno
        exact absurd hc (hno false)
      · exact (List.pairwise_cons.mp (List.pairwise_append.mp hsorted).2.1).1 y hin

/-- An address gets an entry exactly when it differs, and the entry is right. -/
theorem diffOf_spec (hdom : before.version.domain = after.version.domain)
    (hsub : ∀ x r, sub x = .done r → (r = true ↔ ¬ D x)) (x : Address) (e : Option Diff)
    (h : diffOf sub before after x = .done e) :
    (D x ↔ e ≠ none) ∧ ∀ d, e = some d → d.address = x ∧
      Entry D before.records after.records d := by
  obtain ⟨q, hq, hrest⟩ := (Outcome.bind_eq_done _ _ _).mp h
  have hD := hsub x q hq
  cases q with
  | true =>
    have hnot : ¬ D x := hD.mp rfl
    rw [← Outcome.done.inj hrest]
    simp [hnot]
  | false =>
    have hDx : D x := by
      by_contra hnot
      exact absurd (hD.mpr hnot) (by simp)
    have hxa : x.domain = after.version.domain := by
      obtain ⟨oa, hoa, _⟩ := (Outcome.bind_eq_done _ _ _).mp hrest
      exact (get_eq_done after x oa hoa).1
    rw [diffOf_own x (hxa.trans hdom.symm) hxa, hq] at h
    simp only [Outcome.done_bind, Bool.false_eq_true, if_false] at h
    cases hla : after.records.lookup x with
    | none =>
      rw [hla] at h
      rw [← Outcome.done.inj h]
      refine ⟨by simp [hDx], fun d hd => ?_⟩
      rw [← Option.some.inj hd]
      exact ⟨rfl, fun _ => rfl, fun a ha => by simp [hla] at ha, fun a ha => by simp [hla] at ha⟩
    | some a =>
      rw [hla] at h
      obtain ⟨r, hr, h⟩ := (Outcome.bind_eq_done _ _ _).mp h
      rw [← Outcome.done.inj h]
      refine ⟨by simp [hDx], fun d hd => ?_⟩
      rw [← Option.some.inj hd]
      refine ⟨rfl, fun hnone => by simp [hla] at hnone, ?_, ?_⟩
      · intro a' ha' p hp
        rw [hla, Option.some.injEq] at ha'
        subst ha'
        exact entryParts_own _ a r p hp
      · intro a' _
        exact (entryParts_descendant _ a r).trans (allM_children_spec hsub _ r hr)

/-- A scan that answers has an entry, or none, for its first address. -/
theorem diffsFrom_cons_eq_done (x : Address) (rest : List Address) (diffs : List Diff)
    (h : diffsFrom sub before after (x :: rest) = .done diffs) :
    ∃ e out, diffOf sub before after x = .done e ∧ diffsFrom sub before after rest = .done out ∧
      diffs = e.toList ++ out := by
  rw [diffsFrom, Outcome.bind_eq_done] at h
  obtain ⟨e, he, h⟩ := h
  obtain ⟨out, hout, h⟩ := (Outcome.bind_eq_done _ _ _).mp h
  exact ⟨e, out, he, hout, (Outcome.done.inj h).symm⟩

theorem diffsFrom_spec (hdom : before.version.domain = after.version.domain)
    (hsub : ∀ x r, sub x = .done r → (r = true ↔ ¬ D x)) (l : List Address) (diffs : List Diff)
    (h : diffsFrom sub before after l = .done diffs) :
    (diffs.map Diff.address).Sublist l ∧
      (∀ x ∈ l, x ∈ diffs.map Diff.address ↔ D x) ∧
      ∀ d ∈ diffs, Entry D before.records after.records d := by
  induction l generalizing diffs with
  | nil =>
    simp only [diffsFrom, Outcome.pure_eq, Outcome.done.injEq] at h
    subst h
    simp
  | cons a rest ih =>
    obtain ⟨e, out, he, hout, hdiffs⟩ := diffsFrom_cons_eq_done a rest diffs h
    subst hdiffs
    obtain ⟨hsl, hnamed, hentry⟩ := ih out hout
    obtain ⟨hDa, hd⟩ := diffOf_spec hdom hsub a e he
    cases e with
    | none =>
      have hnot : ¬ D a := fun hD => hDa.mp hD rfl
      refine ⟨hsl.trans (List.sublist_cons_self a rest), ?_, hentry⟩
      intro x hx
      rcases List.mem_cons.mp hx with rfl | hx
      · simp only [Option.toList_none, List.nil_append, hnot, iff_false]
        intro hmem
        by_cases hrest : x ∈ rest
        · exact hnot ((hnamed x hrest).mp hmem)
        · exact hrest (hsl.subset hmem)
      · exact hnamed x hx
    | some d =>
      obtain ⟨rfl, hdentry⟩ := hd d rfl
      refine ⟨hsl.cons_cons d.address, ?_, ?_⟩
      · intro x hx
        rcases List.mem_cons.mp hx with rfl | hx
        · simp [hDa]
        · simp only [Option.toList_some, List.cons_append, List.nil_append, List.map_cons,
            List.mem_cons, hnamed x hx, or_iff_right_iff_imp]
          rintro rfl
          exact hDa.mpr (by simp)
      · intro d' hd'
        rcases List.mem_cons.mp hd' with rfl | hd'
        · exact hdentry
        · exact hentry d' hd'

section OwnDomain

variable (hb : OwnAddresses before) (ha : OwnAddresses after)
variable (hdom : before.version.domain = after.version.domain)

include hb ha hdom

theorem diffOf_done (hsub : ∀ x, x.domain = before.version.domain → ∃ r, sub x = .done r)
    (x : Address) (hx : x.domain = before.version.domain) :
    ∃ e, diffOf sub before after x = .done e := by
  have hkids : ∀ c ∈ ascending (childrenOf before.records x ++ childrenOf after.records x),
      ∃ r, sub c = .done r := by
    intro c hc
    exact hsub c (child_domain hb ha hdom x c ((mem_ascending _ _).mp hc))
  obtain ⟨r, hr⟩ := hsub x hx
  obtain ⟨q, hq⟩ := allM_done sub _ hkids
  rw [diffOf_own x hx (hx.trans hdom), hr, Outcome.done_bind, hq]
  cases r with
  | true => exact ⟨none, rfl⟩
  | false => cases after.records.lookup x <;> exact ⟨_, rfl⟩

/-- The scan answers when the test answers at every address of the own domain. -/
theorem diffsFrom_done (hsub : ∀ x, x.domain = before.version.domain → ∃ r, sub x = .done r)
    (l : List Address) (hl : ∀ x ∈ l, x.domain = before.version.domain) :
    ∃ diffs, diffsFrom sub before after l = .done diffs := by
  induction l with
  | nil => exact ⟨[], rfl⟩
  | cons x rest ih =>
    obtain ⟨out, hout⟩ := ih (fun y hy => hl y (List.mem_cons_of_mem _ hy))
    obtain ⟨e, he⟩ := diffOf_done hb ha hdom hsub x (hl x (List.mem_cons_self ..))
    exact ⟨e.toList ++ out, by simp [diffsFrom, he, hout]⟩

theorem diffOf_ne_trap (e : Trap) (hsub : ∀ x, x.domain = before.version.domain → sub x ≠ .trap e)
    (x : Address) (hx : x.domain = before.version.domain) :
    diffOf sub before after x ≠ .trap e := by
  have hkids : (ascending (childrenOf before.records x ++ childrenOf after.records x)).allM
      sub ≠ .trap e := by
    apply allM_ne_trap
    intro c hc
    exact hsub c (child_domain hb ha hdom x c ((mem_ascending _ _).mp hc))
  rw [diffOf_own x hx (hx.trans hdom), ne_eq, Outcome.bind_eq_trap, not_or]
  refine ⟨hsub x hx, ?_⟩
  intro h
  obtain ⟨r, _, h⟩ := h
  cases r with
  | true => cases h
  | false =>
    cases hla : after.records.lookup x with
    | none => simp [hla] at h
    | some a =>
      simp only [hla, Bool.false_eq_true, if_false, Outcome.bind_eq_trap] at h
      obtain h | ⟨_, _, h⟩ := h
      · exact hkids h
      · cases h

/-- Over own addresses the scan traps only where the test does. -/
theorem diffsFrom_ne_trap (e : Trap)
    (hsub : ∀ x, x.domain = before.version.domain → sub x ≠ .trap e) (l : List Address)
    (hl : ∀ x ∈ l, x.domain = before.version.domain) :
    diffsFrom sub before after l ≠ .trap e := by
  induction l with
  | nil => simp [diffsFrom]
  | cons x rest ih =>
    have hrest := ih (fun y hy => hl y (List.mem_cons_of_mem _ hy))
    have hentry := diffOf_ne_trap hb ha hdom e hsub x (hl x (List.mem_cons_self ..))
    unfold diffsFrom
    rw [ne_eq, Outcome.bind_eq_trap, not_or]
    refine ⟨hentry, ?_⟩
    intro h
    obtain ⟨d, _, h⟩ := h
    rw [Outcome.bind_eq_trap] at h
    obtain h | ⟨out, _, h⟩ := h
    · exact hrest h
    · cases h

end OwnDomain

end Emitter

section Fuel

variable {sub sub' : Address → Eval Bool} (before after : Snapshot)

theorem descendantDiffers_approx (hsub : ∀ x, (sub x).Approx (sub' x)) (x : Address) :
    (descendantDiffers sub before after x).Approx (descendantDiffers sub' before after x) := by
  refine Outcome.Approx.bind (Outcome.Approx.refl _) (fun seen => ?_)
  refine Outcome.Approx.bind (Outcome.Approx.refl _) (fun extended => ?_)
  exact Outcome.Approx.anyM (fun c => (hsub c).bind (fun _ => Outcome.Approx.refl _)) _

theorem diffOf_approx (hsub : ∀ x, (sub x).Approx (sub' x)) (x : Address) :
    (diffOf sub before after x).Approx (diffOf sub' before after x) := by
  refine Outcome.Approx.bind (hsub x) (fun q => ?_)
  cases q with
  | true => exact Outcome.Approx.refl _
  | false =>
    refine Outcome.Approx.bind (Outcome.Approx.refl _) (fun oa => ?_)
    cases oa with
    | none => exact Outcome.Approx.refl _
    | some a =>
      refine Outcome.Approx.bind (Outcome.Approx.refl _) (fun ob => ?_)
      exact (descendantDiffers_approx before after hsub x).bind
        (fun _ => Outcome.Approx.refl _)

theorem diffsFrom_approx (hsub : ∀ x, (sub x).Approx (sub' x)) (l : List Address) :
    (diffsFrom sub before after l).Approx (diffsFrom sub' before after l) := by
  induction l with
  | nil => exact Outcome.Approx.refl _
  | cons x rest ih =>
    refine Outcome.Approx.bind (diffOf_approx before after hsub x) (fun e => ?_)
    exact ih.bind (fun _ => Outcome.Approx.refl _)

theorem diffsBetween_mono : FuelMonotone (fun n => diffsBetween before after n) :=
  fun n => diffsFrom_approx before after (fun x => subtreeEq_mono before after x n) _

end Fuel

/-- Whatever the fuel, the list the emitter returns describes the two snapshots. -/
theorem diffsBetween_describes {before after : Snapshot}
    (hdom : before.version.domain = after.version.domain) (fuel : ℕ) (diffs : List Diff)
    (h : diffsBetween before after fuel = .done diffs) :
    Describes (DiffersAt before after) before.records after.records diffs := by
  obtain ⟨hsl, hnamed, hentry⟩ :=
    diffsFrom_spec hdom (fun x r hr => subtreeEq_spec hdom fuel x r hr) _ _ h
  refine ⟨(pairwise_ascending _).sublist hsl, ?_, hentry⟩
  intro x
  constructor
  · exact fun hx => (hnamed x (hsl.subset hx)).mp hx
  · exact fun hD => (hnamed x (mem_scanned_of_differs before after x hD)).mpr hD

theorem scanned_own {before after : Snapshot} (hb : OwnAddresses before)
    (ha : OwnAddresses after) (hdom : before.version.domain = after.version.domain) :
    ∀ x ∈ scanned before after, x.domain = before.version.domain := by
  intro x hx
  rcases (mem_scanned _ _ _).mp hx with hx | hx
  · exact hb.keys x hx
  · exact (ha.keys x hx).trans hdom.symm

/-- On an acyclic base the emitter answers. -/
theorem diffsBetween_done {before after : Snapshot} (hb : OwnAddresses before)
    (ha : OwnAddresses after) (hac : AcyclicChildren before)
    (hdom : before.version.domain = after.version.domain) (fuel : ℕ) (hfuel : before.len < fuel) :
    ∃ diffs, diffsBetween before after fuel = .done diffs :=
  diffsFrom_done hb ha hdom (fun x hx => subtreeEq_done hb hac hdom fuel hfuel x hx) _
    (scanned_own hb ha hdom)

/-- Any fuel past the number of live records brings the same answer. -/
theorem diffsBetween_settles {before after : Snapshot} (hb : OwnAddresses before)
    (ha : OwnAddresses after) (hac : AcyclicChildren before)
    (hdom : before.version.domain = after.version.domain) :
    ∃ diffs, ∀ fuel, before.len < fuel → diffsBetween before after fuel = .done diffs := by
  obtain ⟨diffs, hdone⟩ := diffsBetween_done hb ha hac hdom (before.len + 1) (by omega)
  refine ⟨diffs, fun fuel hfuel => ?_⟩
  rw [← hdone]
  exact (diffsBetween_mono before after).eq_of_le (by simp [hdone]) hfuel

theorem diffsBetween_ne_trap {before after : Snapshot} (hb : OwnAddresses before)
    (ha : OwnAddresses after) (hdom : before.version.domain = after.version.domain) (fuel : ℕ)
    (e : Trap) : diffsBetween before after fuel ≠ .trap e :=
  diffsFrom_ne_trap hb ha hdom e (fun x hx => subtreeWith_ne_trap hb hdom fuel x hx e) _
    (scanned_own hb ha hdom)

end CompositionIr.DeltaSpec
