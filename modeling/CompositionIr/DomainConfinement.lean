import CompositionIr.Processes

/-!
Whether published state stays within its domain. Builders check no address; the only
guard is the lookup, and a commit looks up what its comparison gets to. Every key is
visited, so a foreign key never gets past a commit. Roots are never visited, and a
foreign child is not when a child before it differs.
-/

namespace CompositionIr.DomainConfinement

open Outcomes Ascending ChildGraphs Transitions Addresses Records Placements Snapshots Deltas
open Commits PublishedStates SubtreeComparison DeltaSpec CommitSpec Processes

structure Confined (s : Snapshot) : Prop where
  own : OwnAddresses s
  roots : ∀ r ∈ s.roots, r.domain = s.version.domain

inductive Walked (s : Snapshot) : Address → Prop
  | root {r : Address} (hr : r ∈ s.roots) : Walked s r
  | child {x c : Address} {arc : Arc} (hx : Walked s x) (hget : s.get x = .done (some arc))
      (hc : c ∈ arc.node.children) : Walked s c

/-- A walk over a confined snapshot meets own addresses only and never traps. -/
theorem walked_own (s : Snapshot) (hs : Confined s) (x : Address) (hx : Walked s x) :
    x.domain = s.version.domain := by
  cases hx with
  | root hr => exact hs.roots x hr
  | child _ hget hc =>
    obtain ⟨_, harc⟩ := get_eq_done s _ _ hget
    exact hs.own.children _ _ harc x hc

section OwnEdits

def OwnEdit (domain : Domain) : Edit → Prop
  | .put x n => x.domain = domain ∧ ∀ c ∈ n.children, c.domain = domain
  | .update x f | .updateIfLive x f => x.domain = domain ∧
      ∀ n : Node, (∀ c ∈ n.children, c.domain = domain) → ∀ c ∈ (f n).children, c.domain = domain
  | .remove x | .root x | .place x _ => x.domain = domain
  | .resetPlacement => True
  | .translate covers _ _ => ∀ x ∈ covers, x.domain = domain

def OwnRecords (domain : Domain) (records : RecordMap) : Prop :=
  ∀ x arc, records.lookup x = some arc →
    x.domain = domain ∧ ∀ c ∈ arc.node.children, c.domain = domain

theorem ownAddresses_iff_ownRecords (s : Snapshot) :
    OwnAddresses s ↔ OwnRecords s.version.domain s.records := by
  constructor
  · intro hs x arc harc
    exact ⟨hs.keys x ((mem_addresses s x).mpr ⟨arc, harc⟩), hs.children x arc harc⟩
  · intro hs
    refine ⟨fun x hx => ?_, fun x arc harc => (hs x arc harc).2⟩
    obtain ⟨arc, harc⟩ := (mem_addresses s x).mp hx
    exact (hs x arc harc).1

theorem OwnRecords.insert {domain : Domain} {records : RecordMap} (h : OwnRecords domain records)
    (x : Address) (arc : Arc) (hx : x.domain = domain)
    (hkids : ∀ c ∈ arc.node.children, c.domain = domain) :
    OwnRecords domain (records.insert x arc) := by
  intro y arc' harc
  by_cases hy : y = x
  · subst hy
    rw [AList.lookup_insert, Option.some.injEq] at harc
    subst harc
    exact ⟨hx, hkids⟩
  · rw [AList.lookup_insert_ne hy] at harc
    exact h y arc' harc

theorem OwnRecords.erase {domain : Domain} {records : RecordMap} (h : OwnRecords domain records)
    (x : Address) : OwnRecords domain (records.erase x) := by
  intro y arc harc
  by_cases hy : y = x
  · subst hy
    rw [AList.lookup_erase] at harc
    cases harc
  · rw [AList.lookup_erase_ne hy] at harc
    exact h y arc harc

theorem update_ownRecords {domain : Domain} (b b' : SnapshotBuilder) (heap heap' : Heap)
    (x : Address) (f : Node → Node) (hx : x.domain = domain)
    (hf : ∀ n : Node, (∀ c ∈ n.children, c.domain = domain) →
      ∀ c ∈ (f n).children, c.domain = domain)
    (h : b.update heap x f = .done (b', heap')) (hb : OwnRecords domain b.records) :
    OwnRecords domain b'.records := by
  obtain ⟨arc, harc, _, hb'⟩ := update_eq_done b b' heap heap' x f h
  rw [hb']
  exact hb.insert x _ hx (hf arc.node (hb x arc harc).2)

theorem apply_ownRecords {domain : Domain} (e : Edit) (he : OwnEdit domain e)
    (b b' : SnapshotBuilder) (heap heap' : Heap) (h : e.apply b heap = .done (b', heap'))
    (hb : OwnRecords domain b.records) : OwnRecords domain b'.records := by
  cases e with
  | put x n =>
    rw [← (Prod.mk.inj (Outcome.done.inj h)).1]
    exact hb.insert x _ he.1 he.2
  | update x f => exact update_ownRecords b b' heap heap' x f he.1 he.2 h hb
  | updateIfLive x f =>
    rcases updateIfLive_eq_done b b' heap heap' x f h with hone | ⟨_, hsame, _⟩
    · exact update_ownRecords b b' heap heap' x f he.1 he.2 hone hb
    · rw [hsame]
      exact hb
  | remove x =>
    rw [← (Prod.mk.inj (Outcome.done.inj h)).1]
    exact hb.erase x
  | root _ | resetPlacement | place _ _ | translate _ _ _ =>
    rw [← (Prod.mk.inj (Outcome.done.inj h)).1]
    exact hb

theorem apply_trap (e : Edit) (b : SnapshotBuilder) (heap : Heap) (t : Trap)
    (h : e.apply b heap = .trap t) : t = .noSuchAddress := by
  have hupdate : ∀ x f, b.update heap x f = .trap t → t = .noSuchAddress := by
    intro x f h
    unfold SnapshotBuilder.update at h
    cases hx : b.records.lookup x with
    | none =>
      rw [hx] at h
      exact (Outcome.trap.inj h).symm
    | some arc =>
      rw [hx] at h
      cases h
  cases e with
  | update x f => exact hupdate x f h
  | updateIfLive x f =>
    change b.updateIfLive heap x f = _ at h
    unfold SnapshotBuilder.updateIfLive at h
    split at h
    · exact hupdate x f h
    · cases h
  | put _ _ | remove _ | root _ | resetPlacement | place _ _ | translate _ _ _ => cases h

theorem applyAll_trap (edits : List Edit) (b : SnapshotBuilder) (heap : Heap) (t : Trap)
    (h : Edit.applyAll edits b heap = .trap t) : t = .noSuchAddress := by
  induction edits generalizing b heap with
  | nil => cases h
  | cons e rest ih =>
    unfold Edit.applyAll at h
    rw [Outcome.bind_eq_trap] at h
    obtain h | ⟨⟨b₁, heap₁⟩, _, h⟩ := h
    · exact apply_trap e b heap t h
    · exact ih b₁ heap₁ h

/-- On a confined snapshot, calls with own addresses and their commit never meet the
foreign-domain assertion. -/
theorem editAndCommit_own (s : Snapshot) (hs : Confined s) (edits : List Edit)
    (hedits : ∀ e ∈ edits, OwnEdit s.version.domain e) (heap : Heap) (fuel : ℕ) :
    editAndCommit s edits heap fuel ≠ .trap .foreignDomain := by
  intro h
  unfold editAndCommit at h
  rw [Outcome.bind_eq_trap] at h
  obtain h | ⟨⟨b, heap'⟩, hb, h⟩ := h
  · exact absurd (applyAll_trap edits s.edit heap _ h) (by decide)
  · have hbase : b.base = s := applyAll_base edits s.edit b heap heap' hb
    have hrecords : OwnRecords s.version.domain b.records :=
      applyAll_preserves (fun b _ => OwnRecords s.version.domain b.records) edits s.edit b heap
        heap' hb ((ownAddresses_iff_ownRecords s).mp hs.own)
        (fun e he b b' heap heap' hone => apply_ownRecords e (hedits e he) b b' heap heap' hone)
    have hcand : ∀ revision, OwnAddresses (candidate b revision) := by
      intro revision
      rw [ownAddresses_iff_ownRecords]
      change OwnRecords b.base.version.domain b.records
      rw [hbase]
      exact hrecords
    have htrap := commit_trap b (by rw [hbase]; exact hs.own) hcand fuel .foreignDomain h
    exact absurd ((nextRevision_eq_trap_iff _ _).mp htrap).2 (by decide)

end OwnEdits

section Visited

variable {before after : Snapshot} {fuel : ℕ} {diffs : List Diff}

/-- A scan that answers has answered at every address. -/
theorem diffOf_of_diffsFrom {sub : Address → Eval Bool} (l : List Address)
    (h : diffsFrom sub before after l = .done diffs) (x : Address) (hx : x ∈ l) :
    ∃ e, diffOf sub before after x = .done e := by
  induction l generalizing diffs with
  | nil => cases hx
  | cons y rest ih =>
    obtain ⟨e, out, he, hout, _⟩ := diffsFrom_cons_eq_done y rest diffs h
    rcases List.mem_cons.mp hx with hx | hx
    · rw [hx]
      exact ⟨e, he⟩
    · exact ih hout hx

theorem subtreeEq_own (x : Address) (r : Bool) (h : subtreeEq before after fuel x = .done r) :
    x.domain = before.version.domain :=
  domain_of_subtreeWith_done _ before after fuel x r h

/-- Every key is visited. -/
theorem scanned_own_of_done (h : diffsBetween before after fuel = .done diffs) (x : Address)
    (hx : x ∈ scanned before after) : x.domain = before.version.domain := by
  obtain ⟨e, he⟩ := diffOf_of_diffsFrom _ h x hx
  unfold diffOf at he
  rw [Outcome.bind_eq_done] at he
  obtain ⟨r, hr, _⟩ := he
  exact subtreeEq_own x r hr

/-- A foreign child that the comparison did not trap on comes after a child that
differs. -/
theorem foreign_child_hidden (hdom : before.version.domain = after.version.domain)
    (hb : OwnAddresses before) (h : diffsBetween before after fuel = .done diffs)
    (x y : Address) (arc : Arc) (hx : after.records.lookup x = some arc)
    (hy : y ∈ arc.node.children) (hforeign : y.domain ≠ before.version.domain) :
    ∃ c ∈ childrenOf before.records x ++ childrenOf after.records x, c < y ∧
      DiffersAt before after c := by
  have hscan : x ∈ scanned before after :=
    (mem_scanned _ _ _).mpr (Or.inr ((mem_addresses _ _).mpr ⟨arc, hx⟩))
  have hxb := scanned_own_of_done h x hscan
  have hmem : y ∈ childrenOf before.records x ++ childrenOf after.records x :=
    List.mem_append_right _ ((mem_childrenOf _ _ _).mpr ⟨arc, hx, hy⟩)
  obtain ⟨e, he⟩ := diffOf_of_diffsFrom _ h x hscan
  rw [diffOf_own x hxb (hxb.trans hdom), Outcome.bind_eq_done] at he
  obtain ⟨q, hq, he⟩ := he
  cases q with
  | true =>
    -- an unchanged record lists what the base lists, and the base is confined
    have hsame := (subtreeEq_spec hdom fuel x true hq).mp rfl
    have hedge : Child kids (state before.records) x y := by
      have heq := Differs.eq_of_not hsame
      rw [state_of_lookup hx] at heq
      exact ⟨_, heq, hy⟩
    obtain ⟨b, hlb, hyb⟩ := (child_iff _ _ _).mp hedge
    exact absurd (hb.children x b hlb y hyb) hforeign
  | false =>
    simp only [Bool.false_eq_true, if_false, hx] at he
    rw [Outcome.bind_eq_done] at he
    obtain ⟨all, hall, _⟩ := he
    have hno : ∀ b, subtreeEq before after fuel y ≠ .done b :=
      fun b hb => hforeign (subtreeEq_own y b hb)
    obtain ⟨c, hcmem, hlt, hc⟩ := allM_children_stops _ all hall y hmem hno
    refine ⟨c, hcmem, hlt, ?_⟩
    by_contra hnot
    exact absurd ((subtreeEq_spec hdom fuel c false hc).mpr hnot) (by simp)

end Visited

section Guarded

/-- What a builder must hold for its commit to publish own addresses only. No foreign
root was added, unless nothing else was done and the commit discards the builder; and a
record with a foreign child has no differing child before it, so that the comparison
gets to the foreign one and traps. -/
structure Guarded (b : SnapshotBuilder) : Prop where
  roots : (∀ r ∈ b.roots, r.domain = b.base.version.domain) ∨ Unchanged b
  children : ∀ x arc y, b.records.lookup x = some arc → y ∈ arc.node.children →
    y.domain ≠ b.base.version.domain →
    ∀ c, Lists b.base.records b.records x c → c < y → ¬ ChangedBelow b.base.records b.records c

/-- One commit on a confined base: what it returns is confined exactly when the builder
was guarded. -/
theorem commit_confined_iff (b : SnapshotBuilder) (hb : Confined b.base) (fuel : ℕ) (c : Commit)
    (h : commit b fuel = .done c) : Confined c.snapshot ↔ Guarded b := by
  have hstate := commit_state b fuel c h
  have hdomain := commit_domain b fuel c h
  constructor
  · intro hc
    refine ⟨?_, ?_⟩
    · rcases commit_result b fuel c h with ⟨hun, _⟩ | ⟨revision, _, _, hcs⟩
      · exact Or.inr hun
      · refine Or.inl (fun r hr => ?_)
        rw [← hdomain]
        exact hc.roots r (by rw [hcs]; exact hr)
    · intro x arc y hx hy hforeign
      have hedge : Child kids (state c.snapshot.records) x y := by
        rw [hstate]
        exact (child_iff _ _ _).mpr ⟨arc, hx, hy⟩
      obtain ⟨arc', hx', hy'⟩ := (child_iff _ _ _).mp hedge
      exact absurd ((hc.own.children x arc' hx' y hy').trans hdomain) hforeign
  · intro hg
    obtain ⟨revision, diffs, _, hdiffs, ⟨_, hc⟩ | ⟨hpub, hc⟩⟩ := commit_cases b fuel c h
    · rw [hc]
      exact hb
    · have hroots : ∀ r ∈ b.roots, r.domain = b.base.version.domain := by
        rcases hg.roots with hroots | hun
        · exact hroots
        · exact absurd ((unpublished_iff b revision fuel diffs hdiffs).mpr hun) hpub
      rw [hc]
      refine ⟨⟨?_, ?_⟩, hroots⟩
      · intro x hx
        exact scanned_own_of_done hdiffs x ((mem_scanned _ _ _).mpr (Or.inr hx))
      · intro x arc hx y hy
        by_contra hforeign
        obtain ⟨d, hd, hlt, hdiff⟩ := foreign_child_hidden (candidate_domain b revision) hb.own
          hdiffs x y arc hx hy hforeign
        exact hg.children x arc y hx hy hforeign d hd hlt
          ((differs_iff_changedBelow _ _ d).mp hdiff)

/-- In every run the process publishes confined state exactly as far as its commits were
guarded. -/
theorem run_confined_iff {domain : Domain} {revision : Revision} {labels : List Action}
    {p : Process} (hrun : Reaches domain revision labels p) :
    (∀ s ∈ p.snapshots, Confined s) ↔ ∀ q ∈ p.commits, Guarded q.1 := by
  constructor
  · intro hall q hq
    obtain ⟨hbase, hresult, fuel, hcommit⟩ := (run_history hrun).commits q hq
    exact (commit_confined_iff q.1 (hall _ hbase) fuel q.2 hcommit).mp (hall _ hresult)
  · induction hrun with
    | nil =>
      intro _ s hs
      rw [List.mem_singleton.mp hs]
      exact ⟨⟨by simp [Snapshot.empty, Snapshot.addresses], by simp [Snapshot.empty]⟩,
        by simp [Snapshot.empty]⟩
    | @snoc t u labels a hrun hstep ih =>
      intro hguard
      cases hstep with
      | edit hs => exact ih hguard
      | call hb hcall => exact ih hguard
      | @commit b c fuel left right hb hcommit =>
        have hold := ih (fun q hq => hguard q (List.mem_append_left _ hq))
        intro s hs
        rcases List.mem_append.mp hs with hs | hs
        · exact hold s hs
        · have hbase : b.base ∈ t.snapshots := (run_history hrun).bases b (mem_used hb)
          rw [List.mem_singleton.mp hs]
          exact (commit_confined_iff b (hold _ hbase) fuel c hcommit).mpr
            (hguard (b, c) (by simp))

/-- What confinement is for: walking from the roots never traps, and neither does a later
commit whose calls use own addresses only. -/
structure ConfinedAndUsable (s : Snapshot) : Prop where
  confined : Confined s
  walk : ∀ x, Walked s x → ∃ o, s.get x = .done o
  commit : ∀ edits, (∀ e ∈ edits, OwnEdit s.version.domain e) → ∀ heap fuel,
    editAndCommit s edits heap fuel ≠ .trap .foreignDomain

theorem usable_of_confined (s : Snapshot) (hs : Confined s) : ConfinedAndUsable s where
  confined := hs
  walk x hx := ⟨_, get_own s x (walked_own s hs x hx)⟩
  commit edits hedits heap fuel := editAndCommit_own s hs edits hedits heap fuel

/-- Every snapshot of a run is confined, safe to walk and safe to commit on, exactly when
every commit of the run was given a guarded builder. -/
theorem published_confined_iff_guarded (domain : Domain) (revision : Revision)
    (labels : List Action) (p : Process) (hrun : Reaches domain revision labels p) :
    (∀ s ∈ p.snapshots, ConfinedAndUsable s) ↔ ∀ q ∈ p.commits, Guarded q.1 := by
  rw [← run_confined_iff hrun]
  constructor
  · exact fun hall s hs => (hall s hs).confined
  · exact fun hall s hs => usable_of_confined s (hall s hs)

end Guarded

section Foreign

def foreign : Address := ⟨.node, ⟨⟨word 2⟩, word 1⟩⟩

def rooted (root : Address) : SnapshotBuilder :=
  { (Snapshot.empty dom (rev 1)).edit with
    records := (∅ : RecordMap).insert (addr .node 1) ⟨0, {}⟩
    roots := [root] }

def rootedDocument (root : Address) : Snapshot := candidate (rooted root) (rev 2)

def rootedProcess (root : Address) (delta : Delta) : Process where
  heap := ⟨1⟩
  snapshots := [Snapshot.empty dom (rev 1), rootedDocument root]
  builders := []
  commits := [(rooted root, ⟨rootedDocument root, delta⟩)]

theorem reaches_rooted (root : Address) :
    ∃ labels delta, Reaches dom (rev 1) labels (rootedProcess root delta) := by
  obtain ⟨labels, hrun⟩ := run_editAndCommit (start dom (rev 1)) (Snapshot.empty dom (rev 1))
    (by simp [start]) [.put (addr .node 1) {}, .root root] (rooted root) ⟨1⟩ rfl 2 _ rfl
  exact ⟨labels, _, hrun⟩

def family : SnapshotBuilder :=
  { (Snapshot.empty dom (rev 1)).edit with
    records := ((∅ : RecordMap).insert (addr .node 1) ⟨0, { children := [addr .node 2] }⟩).insert
      (addr .node 2) ⟨1, {}⟩
    roots := [addr .node 1] }

/-- Own roots and own children are safe. -/
theorem published_confined_family :
    ∃ labels p, Reaches dom (rev 1) labels p ∧ candidate family (rev 2) ∈ p.snapshots ∧
      ∀ s ∈ p.snapshots, ConfinedAndUsable s := by
  obtain ⟨labels, hrun⟩ := run_editAndCommit (start dom (rev 1)) (Snapshot.empty dom (rev 1))
    (by simp [start])
    [.put (addr .node 1) { children := [addr .node 2] }, .put (addr .node 2) {},
      .root (addr .node 1)]
    family ⟨2⟩ rfl 3 ⟨candidate family (rev 2), _⟩ rfl
  refine ⟨labels, _, hrun, by simp, ?_⟩
  refine (published_confined_iff_guarded dom (rev 1) labels _ hrun).mpr ?_
  intro q hq
  rw [List.mem_singleton.mp hq]
  have hroots : ∀ r ∈ family.roots, r.domain = dom := by decide
  have hown : ∀ x ∈ family.records.keys, ∀ y ∈ childrenOf family.records x, y.domain = dom := by
    decide
  refine ⟨Or.inl hroots, fun x arc y hx hy hforeign => absurd ?_ hforeign⟩
  exact hown x (AList.lookup_isSome.mp (by rw [hx]; rfl)) y
    ((mem_childrenOf _ _ _).mpr ⟨arc, hx, hy⟩)

def smuggler : SnapshotBuilder :=
  { (rootedDocument foreign).edit with
    records := ((rootedDocument foreign).records.insert (addr .node 1)
      ⟨1, { children := [addr .node 2, foreign] }⟩).insert (addr .node 2) ⟨2, {}⟩ }

def smuggledDocument : Snapshot := candidate smuggler (rev 3)

/-- A foreign root is published and traps a walk. A foreign child behind a created one is
published and traps the next commit, whose one call uses an own address. -/
theorem foreign_addresses_are_published :
    ∃ labels p, Reaches dom (rev 1) labels p ∧
      (∃ s ∈ p.snapshots, ∃ r ∈ s.roots, s.get r = .trap .foreignDomain) ∧
      ∃ s ∈ p.snapshots, (∃ arc, s.records.lookup (addr .node 1) = some arc ∧
          foreign ∈ arc.node.children) ∧
        OwnEdit s.version.domain (.put (addr .node 3) {}) ∧
        editAndCommit s [.put (addr .node 3) {}] ⟨3⟩ 4 = .trap .foreignDomain := by
  obtain ⟨labels, delta, hrun⟩ := reaches_rooted foreign
  obtain ⟨delta', hcommit⟩ : ∃ delta', commit smuggler 3 = .done ⟨smuggledDocument, delta'⟩ :=
    ⟨_, rfl⟩
  obtain ⟨labels', hrun'⟩ := run_editAndCommit (rootedProcess foreign delta)
    (rootedDocument foreign) (by simp [rootedProcess])
    [.put (addr .node 1) { children := [addr .node 2, foreign] }, .put (addr .node 2) {}]
    smuggler ⟨3⟩ rfl 3 _ hcommit
  refine ⟨labels ++ labels', _, hrun.trans hrun', ?_, ?_⟩
  · exact ⟨rootedDocument foreign, by simp [rootedProcess], foreign,
      List.mem_singleton.mpr rfl, rfl⟩
  · have hown : OwnEdit dom (.put (addr .node 3) {}) := ⟨rfl, fun _ hc => by cases hc⟩
    exact ⟨smuggledDocument, by simp, ⟨_, rfl, by decide⟩, hown, rfl⟩

end Foreign

end CompositionIr.DomainConfinement
