import CompositionIr.MembershipLaw

/-!
The reference list the gates compare the emitter with. It scans both snapshots in the
same way, but two records pass its test only when they are equal as a whole. Records
that agree on every own part may still list their resource references differently, and
such a difference reaches the reference and not the emitter.
-/

namespace CompositionIr.GateReference

open Outcomes Ascending ChildGraphs Addresses Records Snapshots Deltas Commits PublishedStates
open SubtreeComparison DeltaSpec MembershipLaw

def subEq (before after : Snapshot) (fuel : ℕ) (x : Address) : Eval Bool :=
  subtreeWith (fun bn an => bn.node == an.node) before after fuel x

def entryPair (d : Diff) : Address × Parts := (d.address, d.parts)

/-- The membership law as the suite computes it. -/
def reference (before after : Snapshot) (fuel : ℕ) : Eval (List (Address × Parts)) := do
  let out ← diffsFrom (subEq before after fuel) before after (scanned before after)
  return out.map entryPair

abbrev RecordDiffersAt (before after : Snapshot) (x : Address) : Prop :=
  Differs Node.children (graph id before.records) (graph id after.records) x

theorem compares_node : Compares (fun bn an => bn.node == an.node) id Node.children where
  same_iff _ _ := beq_iff_eq
  kids_lab _ := rfl

theorem record_child_iff (records : RecordMap) (x c : Address) :
    Child Node.children (graph id records) x c ↔ Child kids (state records) x c := by
  rw [child_iff]
  constructor
  · intro h
    obtain ⟨l, hl, hc⟩ := h
    obtain ⟨arc, harc, heq⟩ := (graph_eq_some _ _ _ _).mp hl
    subst heq
    exact ⟨arc, harc, hc⟩
  · intro h
    obtain ⟨arc, harc, hc⟩ := h
    exact ⟨arc.node, graph_of_lookup id harc, hc⟩

theorem subEq_spec {before after : Snapshot}
    (hdom : before.version.domain = after.version.domain) (fuel : ℕ) (x : Address) (r : Bool)
    (h : subEq before after fuel x = .done r) :
    r = true ↔ ¬ RecordDiffersAt before after x :=
  subtreeWith_spec compares_node hdom fuel x r h

/-- On an acyclic base the reference's test answers with the emitter's fuel. -/
theorem subEq_done {before after : Snapshot} (hb : OwnAddresses before)
    (hac : AcyclicChildren before) (hdom : before.version.domain = after.version.domain)
    (fuel : ℕ) (hfuel : before.len < fuel) (x : Address)
    (hx : x.domain = before.version.domain) :
    ∃ r, subEq before after fuel x = .done r := by
  obtain ⟨rank, hrank, hle⟩ := exists_child_rank before hac
  have hrank' : ∀ x c, Child Node.children (graph id before.records) x c → rank c < rank x :=
    fun x c hc => hrank x c ((record_child_iff _ _ _).mp hc)
  have hx' : rank x < fuel := (hle x).trans_lt hfuel
  exact subtreeWith_done compares_node hb hdom rank hrank' fuel x hx hx'

/-- Two live records that agree on every own part and yet are unequal: their resource
references are listed differently. -/
def Invisible (before after : Snapshot) (x : Address) : Prop :=
  ∃ b a, before.records.lookup x = some b ∧ after.records.lookup x = some a ∧
    (∀ p ∈ ownParts, b.node.partEq a.node p = true) ∧ b.node.resources ≠ a.node.resources

/-- Whole records differ at a seed of the emitter or invisibly. -/
theorem record_ne_iff (before after : Snapshot) (x : Address) :
    graph id before.records x ≠ graph id after.records x ↔
      state before.records x ≠ state after.records x ∨ Invisible before after x := by
  unfold Invisible
  cases hb : before.records.lookup x with
  | none => cases ha : after.records.lookup x <;> simp [graph, hb, ha]
  | some b =>
    cases ha : after.records.lookup x with
    | none => simp [graph, hb, ha]
    | some a =>
      simp only [graph, hb, ha, Option.map_some, id_eq, ne_eq, Option.some.injEq]
      constructor
      · intro hne
        by_cases hproj : b.node.projection = a.node.projection
        · refine Or.inr ⟨b, a, rfl, rfl, (Node.partEq_own_iff _ _).mpr hproj, ?_⟩
          exact fun hr => hne (Node.eq_of_projection _ _ hproj hr)
        · exact Or.inl hproj
      · intro h heq
        rcases h with hproj | ⟨b', a', hb', ha', _, hr⟩
        · exact hproj (congrArg Node.projection heq)
        · subst hb'
          subst ha'
          exact hr (congrArg Node.resources heq)

/-- The reference names everything the emitter names. -/
theorem record_differs_of_differs (before after : Snapshot) (x : Address)
    (hd : DiffersAt before after x) : RecordDiffersAt before after x := by
  induction hd with
  | seed hne => exact Differs.seed ((record_ne_iff before after _).mpr (Or.inl hne))
  | before hc _ ih => exact Differs.before ((record_child_iff _ _ _).mpr hc) ih
  | after hc _ ih => exact Differs.after ((record_child_iff _ _ _).mpr hc) ih

/-- With every invisible difference above a visible one, the two closures agree. -/
theorem differs_of_record_differs (before after : Snapshot)
    (hinv : ∀ x, Invisible before after x → DiffersAt before after x) (x : Address)
    (hd : RecordDiffersAt before after x) : DiffersAt before after x := by
  induction hd with
  | seed hne =>
    rcases (record_ne_iff before after _).mp hne with hstate | hhidden
    · exact Differs.seed hstate
    · exact hinv _ hhidden
  | before hc _ ih => exact Differs.before ((record_child_iff _ _ _).mp hc) ih
  | after hc _ ih => exact Differs.after ((record_child_iff _ _ _).mp hc) ih

section Agreement

variable {sub sub' : Address → Eval Bool} {D : Address → Prop} {before after : Snapshot}

/-- Two tests that decide the same addresses give the same entry wherever both scans
answer. -/
theorem diffOf_agree (hdom : before.version.domain = after.version.domain)
    (hown : ∀ x r, sub x = .done r → x.domain = before.version.domain)
    (hsub : ∀ x r, sub x = .done r → (r = true ↔ ¬ D x))
    (hsub' : ∀ x r, sub' x = .done r → (r = true ↔ ¬ D x)) (x : Address)
    (e e' : Option Diff) (he : diffOf sub before after x = .done e)
    (he' : diffOf sub' before after x = .done e') : e = e' := by
  have hx : x.domain = before.version.domain := by
    obtain ⟨q, hq, _⟩ := (Outcome.bind_eq_done _ _ _).mp he
    exact hown x q hq
  rw [diffOf_own x hx (hx.trans hdom), Outcome.bind_eq_done] at he he'
  obtain ⟨q, hq, he⟩ := he
  obtain ⟨q', hq', he'⟩ := he'
  have hqq : q = q' := Bool.eq_iff_iff.mpr ((hsub x q hq).trans (hsub' x q' hq').symm)
  subst hqq
  cases q with
  | true => rw [← Outcome.done.inj he, ← Outcome.done.inj he']
  | false =>
    simp only [Bool.false_eq_true, if_false] at he he'
    cases ha : after.records.lookup x with
    | none =>
      rw [ha] at he he'
      rw [← Outcome.done.inj he, ← Outcome.done.inj he']
    | some a =>
      rw [ha] at he he'
      obtain ⟨r, hr, he⟩ := (Outcome.bind_eq_done _ _ _).mp he
      obtain ⟨r', hr', he'⟩ := (Outcome.bind_eq_done _ _ _).mp he'
      have hrr : r = r' := Bool.eq_iff_iff.mpr
        ((allM_spec sub hsub _ r hr).trans (allM_spec sub' hsub' _ r' hr').symm)
      rw [← Outcome.done.inj he, ← Outcome.done.inj he', hrr]

theorem diffsFrom_agree (hdom : before.version.domain = after.version.domain)
    (hown : ∀ x r, sub x = .done r → x.domain = before.version.domain)
    (hsub : ∀ x r, sub x = .done r → (r = true ↔ ¬ D x))
    (hsub' : ∀ x r, sub' x = .done r → (r = true ↔ ¬ D x)) (l : List Address)
    (diffs out : List Diff) (h : diffsFrom sub before after l = .done diffs)
    (h' : diffsFrom sub' before after l = .done out) : diffs = out := by
  induction l generalizing diffs out with
  | nil => rw [← Outcome.done.inj h, ← Outcome.done.inj h']
  | cons x rest ih =>
    obtain ⟨e, more, he, hmore, hdiffs⟩ := diffsFrom_cons_eq_done x rest diffs h
    obtain ⟨e', more', he', hmore', hout⟩ := diffsFrom_cons_eq_done x rest out h'
    rw [hdiffs, hout, diffOf_agree hdom hown hsub hsub' x e e' he he', ih more more' hmore hmore']

end Agreement

section Lists

variable {before after : Snapshot} (hdom : before.version.domain = after.version.domain)

include hdom

/-- The reference lists a scanned address exactly when whole records differ there or
below. -/
theorem reference_names (fuel : ℕ) (pairs : List (Address × Parts))
    (h : reference before after fuel = .done pairs) (x : Address)
    (hx : x ∈ scanned before after) : x ∈ pairs.map Prod.fst ↔ RecordDiffersAt before after x := by
  obtain ⟨out, hout, hpairs⟩ := (Outcome.bind_eq_done _ _ _).mp h
  have hnames : pairs.map Prod.fst = out.map Diff.address := by
    rw [← Outcome.done.inj hpairs, List.map_map]
    rfl
  rw [hnames]
  exact (diffsFrom_spec hdom (fun y r hr => subEq_spec hdom fuel y r hr) _ _ hout).2.1 x hx

/-- Wherever both lists come back they are equal exactly when every invisible difference
sits above a visible one. -/
theorem eq_reference_iff (fuel fuel' : ℕ) (diffs : List Diff) (pairs : List (Address × Parts))
    (h : diffsBetween before after fuel = .done diffs)
    (href : reference before after fuel' = .done pairs) :
    pairs = diffs.map entryPair ↔ ∀ x, Invisible before after x → DiffersAt before after x := by
  constructor
  · intro heq x hinv
    have hscan : x ∈ scanned before after := by
      obtain ⟨b, _, hlb, _⟩ := hinv
      exact (mem_scanned before after x).mpr (Or.inl ((mem_addresses before x).mpr ⟨b, hlb⟩))
    have hrec : RecordDiffersAt before after x :=
      Differs.seed ((record_ne_iff before after x).mpr (Or.inr hinv))
    have hmem := (reference_names hdom _ _ href x hscan).mpr hrec
    rw [heq, List.map_map] at hmem
    exact ((diffsBetween_describes hdom _ _ h).named x).mp hmem
  · intro hinv
    obtain ⟨out, hout, hpairs⟩ := (Outcome.bind_eq_done _ _ _).mp href
    have hsame : ∀ x, RecordDiffersAt before after x ↔ DiffersAt before after x := by
      exact fun x => ⟨differs_of_record_differs before after hinv x,
        record_differs_of_differs before after x⟩
    have hlist : diffs = out := by
      refine diffsFrom_agree hdom ?_ (fun x r hr => subtreeEq_spec hdom fuel x r hr) ?_
        (scanned before after) diffs out h hout
      · exact fun x r hr => domain_of_subtreeWith_done _ before after fuel x r hr
      · exact fun x r hr => (subEq_spec hdom fuel' x r hr).trans (not_congr (hsame x))
    rw [hlist, ← Outcome.done.inj hpairs]

/-- Over own addresses and an acyclic base the reference answers with the emitter's fuel. -/
theorem reference_done (hb : OwnAddresses before) (ha : OwnAddresses after)
    (hac : AcyclicChildren before) (fuel : ℕ) (hfuel : before.len < fuel) :
    ∃ pairs, reference before after fuel = .done pairs := by
  obtain ⟨out, hout⟩ := diffsFrom_done hb ha hdom
    (fun x hx => subEq_done hb hac hdom fuel hfuel x hx) _ (scanned_own hb ha hdom)
  exact ⟨out.map entryPair, by rw [reference, hout]; rfl⟩

end Lists

/-- The emitter and the reference agree exactly when every pair of records that differs
in the listing of its resource references alone sits above a visible difference. Over own
addresses and acyclic children both answer; elsewhere this holds as far as they do. -/
theorem diffsBetween_eq_reference_iff (before after : Snapshot)
    (hdom : before.version.domain = after.version.domain) :
    (∀ fuel fuel' diffs pairs, diffsBetween before after fuel = .done diffs →
      reference before after fuel' = .done pairs →
      (pairs = diffs.map entryPair ↔
        ∀ x, Invisible before after x → ChangedBelow before.records after.records x)) ∧
    (OwnAddresses before → OwnAddresses after → AcyclicChildren before →
      ((∃ diffs, ∀ fuel, before.len < fuel → diffsBetween before after fuel = .done diffs ∧
          reference before after fuel = .done (diffs.map entryPair)) ↔
        ∀ x, Invisible before after x → ChangedBelow before.records after.records x)) := by
  simp only [← differs_iff_changedBelow]
  refine ⟨fun fuel fuel' diffs pairs h href => eq_reference_iff hdom fuel fuel' diffs pairs h href,
    fun hb ha hac => ?_⟩
  constructor
  · intro h
    obtain ⟨diffs, hfuel⟩ := h
    obtain ⟨hdone, href⟩ := hfuel (before.len + 1) (by omega)
    exact (eq_reference_iff hdom _ _ diffs _ hdone href).mp rfl
  · intro hinv
    obtain ⟨diffs, hdiffs⟩ := diffsBetween_settles hb ha hac hdom
    refine ⟨diffs, fun fuel hfuel => ⟨hdiffs fuel hfuel, ?_⟩⟩
    obtain ⟨pairs, href⟩ := reference_done hdom hb ha hac fuel hfuel
    rw [href, (eq_reference_iff hdom _ _ diffs pairs (hdiffs fuel hfuel) href).mpr hinv]

section RoleSwap

def drawing (role : ResourceRole) : Node :=
  { resources := [⟨role, addr .resource 9⟩] }

def imageDocument : Snapshot := holding (rev 1) 0 [(addr .node 1, drawing .image)]

def gradientDocument : Snapshot := holding (rev 2) 1 [(addr .node 1, drawing .gradient)]

theorem acyclic_image : AcyclicChildren imageDocument :=
  acyclicChildren_of_rank _ (fun _ => 0) (by decide)

theorem acyclic_gradient : AcyclicChildren gradientDocument :=
  acyclicChildren_of_rank _ (fun _ => 0) (by decide)

/-- Turning an image into a gradient is a difference of the records only: the reference
lists it, the emitter does not, and the commit that makes it returns the base. -/
theorem role_swap_escapes_emitter :
    (imageDocument.version.domain = gradientDocument.version.domain ∧
      OwnAddresses imageDocument ∧ OwnAddresses gradientDocument ∧
      AcyclicChildren imageDocument ∧ AcyclicChildren gradientDocument) ∧
    (¬ ∃ diffs, ∀ fuel, imageDocument.len < fuel →
      diffsBetween imageDocument gradientDocument fuel = .done diffs ∧
        reference imageDocument gradientDocument fuel = .done (diffs.map entryPair)) ∧
    (Edit.applyAll [.update (addr .node 1) (fun _ => drawing .gradient)]
        imageDocument.edit ⟨1⟩).bind (fun built => commit built.1 2) =
      .done ⟨imageDocument, ⟨imageDocument.version, imageDocument.version, []⟩⟩ := by
  refine ⟨⟨rfl, by decide, by decide, acyclic_image, acyclic_gradient⟩, ?_, rfl⟩
  intro h
  obtain ⟨diffs, hfuel⟩ := h
  obtain ⟨hdone, href⟩ := hfuel 2 (by decide)
  have hempty : diffsBetween imageDocument gradientDocument 2 = .done [] := by decide
  have hlisted : reference imageDocument gradientDocument 2 =
      .done [(addr .node 1, Parts.empty)] := by decide
  rw [hempty, Outcome.done.injEq] at hdone
  rw [hlisted, ← hdone] at href
  cases href

def captionedImage : Snapshot :=
  holding (rev 1) 0 [(addr .node 1, { drawing .image with children := [addr .node 2] }),
    (addr .node 2, { text := "a" })]

def captionedGradient : Snapshot :=
  holding (rev 2) 2 [(addr .node 1, { drawing .gradient with children := [addr .node 2] }),
    (addr .node 2, { text := "b" })]

/-- Above an edit of the text the role swap is in both lists. -/
theorem diffsBetween_eq_reference_captioned :
    Invisible captionedImage captionedGradient (addr .node 1) ∧
      ∃ diffs, diffsBetween captionedImage captionedGradient 3 = .done diffs ∧
        reference captionedImage captionedGradient 3 = .done (diffs.map entryPair) := by
  have hac : AcyclicChildren captionedImage :=
    acyclicChildren_of_rank _ (fun x => 3 - x.id.ordinal.val) (by decide)
  have htext : Changed captionedImage.records captionedGradient.records (addr .node 2) :=
    Or.inr ⟨_, _, Part.text, rfl, rfl, by decide, by decide⟩
  have hlists : PublishedStates.Lists captionedImage.records captionedGradient.records
      (addr .node 1) (addr .node 2) := by
    unfold PublishedStates.Lists
    decide
  have hvisible : ∀ x, Invisible captionedImage captionedGradient x →
      ChangedBelow captionedImage.records captionedGradient.records x := by
    intro x h
    obtain ⟨b, _, hb, _⟩ := h
    have hlive : ∀ y ∈ captionedImage.addresses, y = addr .node 1 ∨ y = addr .node 2 := by decide
    rcases hlive x ((mem_addresses _ _).mpr ⟨b, hb⟩) with rfl | rfl
    · exact ⟨addr .node 2, Relation.ReflTransGen.single hlists, htext⟩
    · exact ⟨addr .node 2, Relation.ReflTransGen.refl, htext⟩
  obtain ⟨diffs, hfuel⟩ := ((diffsBetween_eq_reference_iff captionedImage captionedGradient rfl).2
    (by decide) (by decide) hac).mpr hvisible
  exact ⟨⟨_, _, rfl, rfl, by decide, by decide⟩, diffs, hfuel 3 (by decide)⟩

end RoleSwap

end CompositionIr.GateReference
