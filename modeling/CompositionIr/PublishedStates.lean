import CompositionIr.ChildGraphs
import CompositionIr.Commits

/-!
What a snapshot publishes, abstractly: a graph on addresses whose labels are the
projections of the live records. A snapshot is well formed for a walk when every
address it holds is of its own domain and its children graph has no cycle.
-/

namespace CompositionIr.PublishedStates

open Outcomes ChildGraphs Addresses Records Snapshots Deltas Relation

section Labelled

variable {L : Type}

/-- The records of a map, each seen through a labelling. -/
def graph (lab : Node → L) (records : RecordMap) : ChildGraph Address L :=
  fun x => (records.lookup x).map (fun arc => lab arc.node)

theorem graph_eq_none (lab : Node → L) (records : RecordMap) (x : Address) :
    graph lab records x = none ↔ records.lookup x = none := by
  simp [graph]

theorem graph_of_lookup (lab : Node → L) {records : RecordMap} {x : Address} {arc : Arc}
    (h : records.lookup x = some arc) : graph lab records x = some (lab arc.node) := by
  simp [graph, h]

theorem graph_eq_some (lab : Node → L) (records : RecordMap) (x : Address) (l : L) :
    graph lab records x = some l ↔ ∃ arc, records.lookup x = some arc ∧ lab arc.node = l := by
  simp [graph]

/-- Two maps have one graph when they agree on liveness and every live pair of records
has one label. -/
theorem graph_congr (lab : Node → L) (records records' : RecordMap) (x : Address)
    (h : (records.lookup x).map Arc.node = (records'.lookup x).map Arc.node) :
    graph lab records x = graph lab records' x := by
  have hmap := congrArg (Option.map lab) h
  simpa only [Option.map_map, graph, Function.comp_def] using hmap

end Labelled

def kids (l : Projection) : List Address := l Part.structure

abbrev state (records : RecordMap) : ChildGraph Address Projection :=
  graph Node.projection records

theorem state_of_lookup {records : RecordMap} {x : Address} {arc : Arc}
    (h : records.lookup x = some arc) : state records x = some arc.node.projection :=
  graph_of_lookup _ h

theorem state_eq_some (records : RecordMap) (x : Address) (l : Projection) :
    state records x = some l ↔ ∃ arc, records.lookup x = some arc ∧ arc.node.projection = l :=
  graph_eq_some _ _ _ _

theorem state_eq_none (records : RecordMap) (x : Address) :
    state records x = none ↔ records.lookup x = none :=
  graph_eq_none _ _ _

abbrev DiffersAt (before after : Snapshot) (x : Address) : Prop :=
  Differs kids (state before.records) (state after.records) x

theorem child_iff (records : RecordMap) (x c : Address) :
    Child kids (state records) x c ↔
      ∃ arc, records.lookup x = some arc ∧ c ∈ arc.node.children := by
  constructor
  · rintro ⟨l, hl, hc⟩
    obtain ⟨arc, harc, rfl⟩ := (graph_eq_some _ _ _ _).mp hl
    exact ⟨arc, harc, hc⟩
  · rintro ⟨arc, harc, hc⟩
    exact ⟨arc.node.projection, graph_of_lookup _ harc, hc⟩

structure OwnAddresses (s : Snapshot) : Prop where
  keys : ∀ x ∈ s.addresses, x.domain = s.version.domain
  children : ∀ x arc, s.records.lookup x = some arc →
    ∀ c ∈ arc.node.children, c.domain = s.version.domain

/-- No record is reached again by following children from it. -/
def AcyclicChildren (s : Snapshot) : Prop := Acyclic kids (state s.records)

theorem mem_addresses (s : Snapshot) (x : Address) :
    x ∈ s.addresses ↔ ∃ arc, s.records.lookup x = some arc := by
  rw [Snapshot.addresses, ← AList.mem_keys, ← AList.lookup_isSome, Option.isSome_iff_exists]

theorem mem_scanned (before after : Snapshot) (x : Address) :
    x ∈ scanned before after ↔ x ∈ before.addresses ∨ x ∈ after.addresses := by
  rw [scanned, Ascending.mem_ascending, List.mem_append]

theorem contains_iff (s : Snapshot) (x : Address) :
    s.contains x = true ↔ ∃ arc, s.records.lookup x = some arc := by
  rw [Snapshot.contains, Option.isSome_iff_exists]

theorem contains_eq_false_iff (s : Snapshot) (x : Address) :
    s.contains x = false ↔ s.records.lookup x = none := by
  rw [Snapshot.contains, Option.isSome_eq_false_iff, Option.isNone_iff_eq_none]

theorem not_contains_eq (s : Snapshot) (x : Address) :
    (!s.contains x) = (s.records.lookup x).isNone := by
  unfold Snapshot.contains
  cases s.records.lookup x <;> rfl

def childrenOf (records : RecordMap) (x : Address) : List Address :=
  ((records.lookup x).map (fun arc => arc.node.children)).getD []

theorem mem_childrenOf (records : RecordMap) (x c : Address) :
    c ∈ childrenOf records x ↔ ∃ arc, records.lookup x = some arc ∧ c ∈ arc.node.children := by
  cases h : records.lookup x <;> simp [childrenOf, h]

theorem child_iff_mem (records : RecordMap) (x c : Address) :
    Child kids (state records) x c ↔ c ∈ childrenOf records x := by
  rw [child_iff, mem_childrenOf]

/-- An address live on one side only, or live on both with an own part unequal. -/
def Changed (before after : RecordMap) (x : Address) : Prop :=
  (before.lookup x).isSome ≠ (after.lookup x).isSome ∨
    ∃ b a p, before.lookup x = some b ∧ after.lookup x = some a ∧ p ∈ ownParts ∧
      b.node.partEq a.node p = false

/-- Two maps show different projections at an address exactly when it changed. -/
theorem state_ne_iff (before after : RecordMap) (x : Address) :
    state before x ≠ state after x ↔ Changed before after x := by
  unfold Changed
  cases hb : before.lookup x with
  | none => cases ha : after.lookup x <;> simp [graph, hb, ha]
  | some b =>
    cases ha : after.lookup x with
    | none => simp [graph, hb, ha]
    | some a =>
      have hown := Node.partEq_own_iff b.node a.node
      constructor
      · intro hne
        have hproj : ¬ ∀ p ∈ ownParts, b.node.partEq a.node p = true := by
          intro hall
          exact hne (by simp [graph, hb, ha, hown.mp hall])
        push Not at hproj
        obtain ⟨p, hp, hpe⟩ := hproj
        exact Or.inr ⟨b, a, p, rfl, rfl, hp, by simpa using hpe⟩
      · rintro (hone | ⟨b', a', p, hb', ha', hp, hpe⟩) heq
        · exact hone rfl
        · obtain rfl := Option.some.inj hb'
          obtain rfl := Option.some.inj ha'
          have hproj : b.node.projection = a.node.projection := by
            simpa [graph, hb, ha] using heq
          rw [hown.mpr hproj p hp] at hpe
          cases hpe

def Lists (before after : RecordMap) (x c : Address) : Prop :=
  c ∈ childrenOf before x ++ childrenOf after x

def ChangedBelow (before after : RecordMap) (x : Address) : Prop :=
  ∃ y, ReflTransGen (Lists before after) x y ∧ Changed before after y

theorem differs_iff_changedBelow (before after : RecordMap) (x : Address) :
    Differs kids (state before) (state after) x ↔ ChangedBelow before after x := by
  have hlists : (fun a c => Child kids (state before) a c ∨ Child kids (state after) a c) =
      Lists before after := by
    funext a c
    rw [child_iff_mem, child_iff_mem]
    exact propext List.mem_append.symm
  rw [differs_iff_reaches, hlists]
  simp only [state_ne_iff]
  rfl

theorem mem_addresses_of_child (s : Snapshot) (x c : Address)
    (hc : c ∈ childrenOf s.records x) : x ∈ s.addresses := by
  obtain ⟨arc, harc, _⟩ := (mem_childrenOf _ _ _).mp hc
  exact (mem_addresses s x).mpr ⟨arc, harc⟩

theorem ownAddresses_iff (s : Snapshot) :
    OwnAddresses s ↔ ∀ x ∈ s.addresses, x.domain = s.version.domain ∧
      ∀ c ∈ childrenOf s.records x, c.domain = s.version.domain := by
  constructor
  · intro hs x hx
    refine ⟨hs.keys x hx, fun c hc => ?_⟩
    obtain ⟨arc, harc, hmem⟩ := (mem_childrenOf _ _ _).mp hc
    exact hs.children x arc harc c hmem
  · intro hs
    refine ⟨fun x hx => (hs x hx).1, fun x arc harc c hmem => ?_⟩
    have hx := (mem_addresses s x).mpr ⟨arc, harc⟩
    exact (hs x hx).2 c ((mem_childrenOf _ _ _).mpr ⟨arc, harc, hmem⟩)

instance (s : Snapshot) : Decidable (OwnAddresses s) :=
  decidable_of_iff _ (ownAddresses_iff s).symm

/-- A rank on the live addresses, checked record by record, rules out cycles. -/
theorem acyclicChildren_of_rank (s : Snapshot) (rank : Address → ℕ)
    (hrank : ∀ x ∈ s.addresses, ∀ c ∈ childrenOf s.records x, rank c < rank x) :
    AcyclicChildren s := by
  apply acyclic_of_rank _ rank
  intro x c hc
  have hmem := (child_iff_mem _ _ _).mp hc
  exact hrank x (mem_addresses_of_child s x c hmem) c hmem

/-- A differing address is live in one of the two snapshots. -/
theorem mem_scanned_of_differs (before after : Snapshot) (x : Address)
    (hd : DiffersAt before after x) : x ∈ scanned before after := by
  rw [mem_scanned, mem_addresses, mem_addresses]
  cases hd with
  | seed hne =>
    cases hb : before.records.lookup x with
    | some arc => exact Or.inl ⟨arc, rfl⟩
    | none =>
      cases ha : after.records.lookup x with
      | some arc => exact Or.inr ⟨arc, rfl⟩
      | none => exact absurd (by simp [state, graph, hb, ha]) hne
  | before hc _ =>
    obtain ⟨arc, harc, _⟩ := (child_iff _ _ _).mp hc
    exact Or.inl ⟨arc, harc⟩
  | after hc _ =>
    obtain ⟨arc, harc, _⟩ := (child_iff _ _ _).mp hc
    exact Or.inr ⟨arc, harc⟩

/-- The children graph of a finite map without cycles has a rank below its size. -/
theorem exists_child_rank (s : Snapshot) (hs : AcyclicChildren s) :
    ∃ rank : Address → ℕ,
      (∀ x c, Child kids (state s.records) x c → rank c < rank x) ∧ ∀ x, rank x ≤ s.len := by
  have hlive : ∀ x c, Child kids (state s.records) x c → x ∈ s.addresses.toFinset := by
    intro x c hc
    obtain ⟨arc, harc, _⟩ := (child_iff _ _ _).mp hc
    exact List.mem_toFinset.mpr ((mem_addresses s x).mpr ⟨arc, harc⟩)
  obtain ⟨rank, hrank, hle⟩ := exists_rank _ _ hlive hs
  refine ⟨rank, hrank, fun x => (hle x).trans ?_⟩
  exact List.toFinset_card_le _

end CompositionIr.PublishedStates
