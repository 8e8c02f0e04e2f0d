import CompositionIr.CallEffects
import CompositionIr.Frontends
import CompositionIr.PlacementReplay

/-!
The adapter, the only place where the two vocabularies meet. A node of the tree becomes
one record under its id; one route edits what the frontend reported, the other rewrites
every record. Both come down to calls on a builder of the base.
-/

namespace CompositionIr.Adapters

open Outcomes ChildGraphs Addresses Records Placements Snapshots Deltas Commits
open PublishedStates CommitSpec CallEffects PlacementReplay Frontends

/-- What stops the adapter: an id that maps onto no ordinal, or a panic of the core. -/
inductive AdapterTrap where
  | idNotPositive
  | core (cause : Trap)
  deriving DecidableEq

def AdapterTrap.message : AdapterTrap → String
  | idNotPositive => "frontend ids are positive"
  | core cause => cause.message

abbrev Adapting := Outcome AdapterTrap

def lift {α : Type} : Eval α → Adapting α
  | .done a => .done a
  | .trap e => .trap (.core e)
  | .starved => .starved

theorem lift_eq_done {α : Type} (x : Eval α) (a : α) : lift x = .done a ↔ x = .done a := by
  cases x <;> simp [lift]

def address (domain : Domain) (mdId : UInt64) : Adapting Address :=
  if h : 0 < mdId.toNat then .done ⟨.node, domain, ⟨mdId.toNat, h, mdId.toNat_lt⟩⟩
  else .trap .idNotPositive

structure Adaptation where
  commit : Commit
  recordsTouched : ℕ

def project (n : MdNode) : Node where
  text := n.text
  -- a stable join key, never a coordinate
  sourceLink := "md:" ++ toString n.id
  paint :=
    match n.kind with
    | .heading => ⟨0x11, 0x11, 0x11, 0xff⟩
    | .para => ⟨0x33, 0x33, 0x33, 0xff⟩
    | .embed => ⟨0x00, 0x66, 0xcc, 0xff⟩
    | .formula => ⟨0x66, 0x00, 0xcc, 0xff⟩
  interaction := ((MdSession.embedReference n).or (MdSession.formulaSource n)).getD ""
  intrinsic := n.text.utf8ByteSize

def rectOf (n : MdNode) : Rect := { x := 0, y := 0, width := n.text.utf8ByteSize, height := 16 }

structure Draft where
  edit : SnapshotBuilder
  heap : Heap
  touched : ℕ

def removeRetired (domain : Domain) : List UInt64 → Draft → Adapting Draft
  | [], d => .done d
  | id :: rest, d => do
    let a ← address domain id
    removeRetired domain rest ⟨d.edit.remove a, d.heap, d.touched + 1⟩

def putTouched (domain : Domain) (ast : MdAst) : List UInt64 → Draft → Adapting Draft
  | [], d => .done d
  | id :: rest, d =>
    match ast.nodes.find? (fun n => n.id == id) with
    | some n => do
      let a ← address domain id
      let (edit, heap) := d.edit.put d.heap a (project n)
      putTouched domain ast rest ⟨edit, heap, d.touched + 1⟩
    | none => putTouched domain ast rest d

def placeAll (domain : Domain) : List MdNode → Draft → Adapting Draft
  | [], d => .done d
  | n :: rest, d => do
    let a ← address domain n.id
    placeAll domain rest { d with edit := d.edit.place a (rectOf n) }

def rootFirst (domain : Domain) (nodes : List MdNode) (d : Draft) : Adapting Draft :=
  match nodes.head? with
  | some first => do
    let a ← address domain first.id
    return { d with edit := d.edit.root a }
  | none => .done d

def publish (d : Draft) (fuel : ℕ) : Adapting (Adaptation × Heap) := do
  let c ← lift (commit d.edit fuel)
  return (⟨c, d.touched⟩, d.heap)

def adapt (base : Snapshot) (ast : MdAst) (delta : MdDelta) (heap : Heap) (fuel : ℕ) :
    Adapting (Adaptation × Heap) := do
  let domain := base.version.domain
  let d ← removeRetired domain delta.retired ⟨base.edit, heap, 0⟩
  let d ← putTouched domain ast delta.touched d
  -- placement is rebuilt from the current order
  let d ← placeAll domain ast.nodes { d with edit := d.edit.resetPlacement }
  let d ← rootFirst domain ast.nodes d
  publish d fuel

def addressAll (domain : Domain) : List MdNode → Adapting (List Address)
  | [] => .done []
  | n :: rest => do
    let a ← address domain n.id
    let live ← addressAll domain rest
    return a :: live

def removeStale (live : List Address) : List Address → Draft → Draft
  | [], d => d
  | stale :: rest, d =>
    if live.contains stale then removeStale live rest d
    else removeStale live rest ⟨d.edit.remove stale, d.heap, d.touched + 1⟩

def rewriteAll (domain : Domain) : List MdNode → ℕ → Draft → Adapting Draft
  | [], _, d => .done d
  | n :: rest, i, d => do
    let a ← address domain n.id
    let (edit, heap) := d.edit.put d.heap a (project n)
    let edit := edit.place a (rectOf n)
    let edit := if i = 0 then edit.root a else edit
    rewriteAll domain rest (i + 1) ⟨edit, heap, d.touched + 1⟩

/-- Adapt without a frontend delta: every record is rewritten. -/
def adaptFull (base : Snapshot) (ast : MdAst) (heap : Heap) (fuel : ℕ) :
    Adapting (Adaptation × Heap) := do
  let domain := base.version.domain
  let live ← addressAll domain ast.nodes
  let d := removeStale live base.addresses ⟨base.edit, heap, 0⟩
  let d ← rewriteAll domain ast.nodes 0 d
  publish d fuel

section Ids

def nodeAddress (domain : Domain) (id : UInt64) : Address := ⟨.node, domain, word id.toNat⟩

theorem word_toNat (id : UInt64) (h : 0 < id.toNat) : (word id.toNat).val = id.toNat := by
  have hlt := id.toNat_lt
  change max 1 (min id.toNat (2 ^ 64 - 1)) = id.toNat
  omega

theorem address_eq (domain : Domain) (id : UInt64) (h : 0 < id.toNat) :
    address domain id = .done (nodeAddress domain id) := by
  unfold address nodeAddress
  rw [dif_pos h]
  refine congrArg (fun o => Outcome.done (Address.mk .node ⟨domain, o⟩)) ?_
  exact NonZeroU64.ext_val (word_toNat id h).symm

theorem address_eq_done (domain : Domain) (id : UInt64) (a : Address)
    (h : address domain id = .done a) : 0 < id.toNat ∧ a = nodeAddress domain id := by
  by_cases hpos : 0 < id.toNat
  · rw [address_eq domain id hpos] at h
    exact ⟨hpos, (Outcome.done.inj h).symm⟩
  · unfold address at h
    rw [dif_neg hpos] at h
    cases h

theorem nodeAddress_inj (domain : Domain) {id id' : UInt64} (h : 0 < id.toNat)
    (h' : 0 < id'.toNat) (heq : nodeAddress domain id = nodeAddress domain id') : id = id' := by
  have hword : word id.toNat = word id'.toNat :=
    congrArg (fun a : Address => a.id.ordinal) heq
  apply UInt64.toNat_inj.mp
  rw [← word_toNat id h, ← word_toNat id' h', hword]

end Ids

section Calls

variable (domain : Domain)

def Follows (d : Draft) (calls : List Edit) (d' : Draft) : Prop :=
  Edit.applyAll calls d.edit d.heap = .done (d'.edit, d'.heap)

theorem Follows.append {d d₁ d₂ : Draft} {left right : List Edit} (hl : Follows d left d₁)
    (hr : Follows d₁ right d₂) : Follows d (left ++ right) d₂ :=
  applyAll_append left right _ _ _ _ _ _ hl hr

theorem Follows.cons {d d₂ : Draft} {rest : List Edit} (e : Edit) (d₁ : Draft)
    (hone : e.apply d.edit d.heap = .done (d₁.edit, d₁.heap)) (hrest : Follows d₁ rest d₂) :
    Follows d (e :: rest) d₂ := by
  unfold Follows Edit.applyAll
  rw [hone, Outcome.done_bind]
  exact hrest

def removeCalls (ids : List UInt64) : List Edit :=
  (ids.map (nodeAddress domain)).map Edit.remove

def putCalls (ast : MdAst) (ids : List UInt64) : List Edit :=
  ids.filterMap (fun id => (ast.nodes.find? (fun n => n.id == id)).map
    (fun n => .put (nodeAddress domain id) (project n)))

def placeCalls (nodes : List MdNode) : List Edit :=
  nodes.map (fun n => .place (nodeAddress domain n.id) (rectOf n))

def rootCalls (nodes : List MdNode) : List Edit :=
  (nodes.head?.map (fun n => .root (nodeAddress domain n.id))).toList

def adaptCalls (ast : MdAst) (delta : MdDelta) : List Edit :=
  removeCalls domain delta.retired ++ (putCalls domain ast delta.touched ++
    (.resetPlacement :: (placeCalls domain ast.nodes ++ rootCalls domain ast.nodes)))

theorem removeRetired_calls (ids : List UInt64) (hids : ∀ id ∈ ids, 0 < id.toNat) (d : Draft) :
    ∃ d', removeRetired domain ids d = .done d' ∧ Follows d (removeCalls domain ids) d' := by
  induction ids generalizing d with
  | nil => exact ⟨d, rfl, rfl⟩
  | cons id rest ih =>
    obtain ⟨d', hloop, hcalls⟩ := ih (fun id' h => hids id' (List.mem_cons_of_mem _ h))
      ⟨d.edit.remove (nodeAddress domain id), d.heap, d.touched + 1⟩
    refine ⟨d', ?_, Follows.cons (.remove (nodeAddress domain id)) _ rfl hcalls⟩
    rw [removeRetired, address_eq domain id (hids id (List.mem_cons_self ..)), Outcome.done_bind]
    exact hloop

theorem putTouched_calls (ast : MdAst) (hast : ∀ n ∈ ast.nodes, 0 < n.id.toNat)
    (ids : List UInt64) (d : Draft) :
    ∃ d', putTouched domain ast ids d = .done d' ∧ Follows d (putCalls domain ast ids) d' := by
  induction ids generalizing d with
  | nil => exact ⟨d, rfl, rfl⟩
  | cons id rest ih =>
    unfold putTouched putCalls
    rw [List.filterMap_cons]
    cases hfind : ast.nodes.find? (fun n => n.id == id) with
    | none => exact ih d
    | some n =>
      have hid : n.id = id := by simpa using List.find?_some hfind
      have hpos : 0 < id.toNat := by
        rw [← hid]
        exact hast n (List.mem_of_find?_eq_some hfind)
      obtain ⟨d', hloop, hcalls⟩ := ih ⟨(d.edit.put d.heap (nodeAddress domain id) (project n)).1,
        (d.edit.put d.heap (nodeAddress domain id) (project n)).2, d.touched + 1⟩
      refine ⟨d', ?_, Follows.cons (.put (nodeAddress domain id) (project n)) _ rfl hcalls⟩
      simp only
      rw [address_eq domain id hpos, Outcome.done_bind]
      exact hloop

theorem placeAll_calls (nodes : List MdNode) (hnodes : ∀ n ∈ nodes, 0 < n.id.toNat)
    (d : Draft) :
    ∃ d', placeAll domain nodes d = .done d' ∧ Follows d (placeCalls domain nodes) d' := by
  induction nodes generalizing d with
  | nil => exact ⟨d, rfl, rfl⟩
  | cons n rest ih =>
    obtain ⟨d', hloop, hcalls⟩ := ih (fun m h => hnodes m (List.mem_cons_of_mem _ h))
      { d with edit := d.edit.place (nodeAddress domain n.id) (rectOf n) }
    refine ⟨d', ?_, Follows.cons (.place (nodeAddress domain n.id) (rectOf n)) _ rfl hcalls⟩
    rw [placeAll, address_eq domain n.id (hnodes n (List.mem_cons_self ..)), Outcome.done_bind]
    exact hloop

theorem rootFirst_calls (nodes : List MdNode) (hnodes : ∀ n ∈ nodes, 0 < n.id.toNat)
    (d : Draft) :
    ∃ d', rootFirst domain nodes d = .done d' ∧ Follows d (rootCalls domain nodes) d' := by
  cases nodes with
  | nil => exact ⟨d, rfl, rfl⟩
  | cons n rest =>
    refine ⟨{ d with edit := d.edit.root (nodeAddress domain n.id) }, ?_, rfl⟩
    unfold rootFirst
    rw [List.head?_cons]
    simp only
    rw [address_eq domain n.id (hnodes n (List.mem_cons_self ..))]
    rfl

/-- Over positive ids the incremental route makes its calls on the base and commits. -/
theorem adapt_calls (base : Snapshot) (ast : MdAst) (delta : MdDelta) (heap : Heap)
    (hast : ∀ n ∈ ast.nodes, 0 < n.id.toNat) (hretired : ∀ id ∈ delta.retired, 0 < id.toNat) :
    ∃ d, Follows ⟨base.edit, heap, 0⟩ (adaptCalls base.version.domain ast delta) d ∧
      ∀ fuel, adapt base ast delta heap fuel = publish d fuel := by
  obtain ⟨d₁, hremove, hremoved⟩ :=
    removeRetired_calls base.version.domain delta.retired hretired ⟨base.edit, heap, 0⟩
  obtain ⟨d₂, hput, hputs⟩ := putTouched_calls base.version.domain ast hast delta.touched d₁
  obtain ⟨d₃, hplace, hplaced⟩ := placeAll_calls base.version.domain ast.nodes hast
    { d₂ with edit := d₂.edit.resetPlacement }
  obtain ⟨d₄, hroot, hrooted⟩ := rootFirst_calls base.version.domain ast.nodes hast d₃
  refine ⟨d₄, ?_, fun fuel => ?_⟩
  · refine hremoved.append (hputs.append ?_)
    exact Follows.cons .resetPlacement { d₂ with edit := d₂.edit.resetPlacement } rfl
      (hplaced.append hrooted)
  · unfold adapt
    simp only
    rw [hremove, Outcome.done_bind, hput, Outcome.done_bind, hplace, Outcome.done_bind, hroot,
      Outcome.done_bind]

def rewriteCalls : List MdNode → ℕ → List Edit
  | [], _ => []
  | n :: rest, i =>
    .put (nodeAddress domain n.id) (project n) ::
      .place (nodeAddress domain n.id) (rectOf n) ::
        ((if i = 0 then [.root (nodeAddress domain n.id)] else []) ++ rewriteCalls rest (i + 1))

def staleCalls (live addresses : List Address) : List Edit :=
  (addresses.filter (fun a => !live.contains a)).map Edit.remove

def fullCalls (base : Snapshot) (ast : MdAst) : List Edit :=
  staleCalls (ast.nodes.map (fun n => nodeAddress base.version.domain n.id)) base.addresses ++
    rewriteCalls base.version.domain ast.nodes 0

theorem addressAll_eq (nodes : List MdNode) (hnodes : ∀ n ∈ nodes, 0 < n.id.toNat) :
    addressAll domain nodes = .done (nodes.map (fun n => nodeAddress domain n.id)) := by
  induction nodes with
  | nil => rfl
  | cons n rest ih =>
    rw [addressAll, address_eq domain n.id (hnodes n (List.mem_cons_self ..)), Outcome.done_bind,
      ih (fun m h => hnodes m (List.mem_cons_of_mem _ h)), Outcome.done_bind]
    rfl

theorem removeStale_calls (live addresses : List Address) (d : Draft) :
    Follows d (staleCalls live addresses) (removeStale live addresses d) := by
  unfold staleCalls
  induction addresses generalizing d with
  | nil => rfl
  | cons a rest ih =>
    unfold removeStale
    by_cases hlive : live.contains a = true
    · rw [if_pos hlive, List.filter_cons_of_neg (by simpa using hlive)]
      exact ih d
    · rw [if_neg hlive, List.filter_cons_of_pos (by simpa using hlive), List.map_cons]
      exact Follows.cons _ ⟨d.edit.remove a, d.heap, d.touched + 1⟩ rfl (ih _)

theorem rewriteAll_calls (nodes : List MdNode) (hnodes : ∀ n ∈ nodes, 0 < n.id.toNat) (i : ℕ)
    (d : Draft) :
    ∃ d', rewriteAll domain nodes i d = .done d' ∧ Follows d (rewriteCalls domain nodes i) d' := by
  induction nodes generalizing i d with
  | nil => exact ⟨d, rfl, rfl⟩
  | cons n rest ih =>
    have hrest := fun m h => hnodes m (List.mem_cons_of_mem n h)
    let written := d.edit.put d.heap (nodeAddress domain n.id) (project n)
    let placed := written.1.place (nodeAddress domain n.id) (rectOf n)
    let rooted := if i = 0 then placed.root (nodeAddress domain n.id) else placed
    obtain ⟨d', hloop, hcalls⟩ := ih hrest (i + 1) ⟨rooted, written.2, d.touched + 1⟩
    refine ⟨d', ?_, ?_⟩
    · rw [rewriteAll, address_eq domain n.id (hnodes n (List.mem_cons_self ..)), Outcome.done_bind]
      exact hloop
    · refine Follows.cons _ ⟨written.1, written.2, d.touched⟩ rfl ?_
      refine Follows.cons _ ⟨placed, written.2, d.touched⟩ rfl ?_
      refine @Follows.append _ ⟨rooted, written.2, d.touched + 1⟩ _ _ _ ?_ hcalls
      by_cases hi : i = 0
      · simp only [rooted, if_pos hi]
        rfl
      · simp only [rooted, if_neg hi]
        rfl

/-- Over positive ids the full route makes its calls on the base and commits. -/
theorem adaptFull_calls (base : Snapshot) (ast : MdAst) (heap : Heap)
    (hast : ∀ n ∈ ast.nodes, 0 < n.id.toNat) :
    ∃ d, Follows ⟨base.edit, heap, 0⟩ (fullCalls base ast) d ∧
      ∀ fuel, adaptFull base ast heap fuel = publish d fuel := by
  obtain ⟨d, hrewrite, hcalls⟩ := rewriteAll_calls base.version.domain ast.nodes hast 0
    (removeStale (ast.nodes.map (fun n => nodeAddress base.version.domain n.id)) base.addresses
      ⟨base.edit, heap, 0⟩)
  refine ⟨d, (removeStale_calls _ _ _).append hcalls, fun fuel => ?_⟩
  unfold adaptFull
  simp only
  rw [addressAll_eq base.version.domain ast.nodes hast, Outcome.done_bind, hrewrite,
    Outcome.done_bind]

end Calls

end CompositionIr.Adapters
