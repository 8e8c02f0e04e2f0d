import CompositionIr.Processes
import CompositionIr.SharedBoxes

/-!
The C boundary. A snapshot or a delta crosses as a pointer to a box on a shared
allocation; a record crosses as a borrowed pointer to the record itself, and its fields
as views of what that record holds. Reading through a pointer that nothing keeps alive
is a fault, and so is a panic that reaches the boundary.
-/

namespace CompositionIr.Handles

open Outcomes Transitions Addresses Records Placements Snapshots Deltas Commits Processes
open SharedBoxes

/-- What ends a call without an answer: it read freed memory, or the code panicked. -/
inductive Fault where
  | dangling
  | panic (cause : Trap)
  deriving DecidableEq

abbrev Crossing := Outcome Fault

/-- A panic of the code behind the boundary ends the call. -/
def lifted {β : Type} : Eval β → Crossing β
  | .done b => .done b
  | .trap cause => .trap (.panic cause)
  | .starved => .starved

/-- `&*pointer` of a handle, and the value it shares. -/
def borrow {α : Type} (st : Store α) (ptr : ℕ) : Crossing α :=
  match st.deref ptr with
  | none => .trap .dangling
  | some value => .done value

/-- Drop a handle. Null is dropped without effect. -/
def dropRaw {α : Type} (st : Store α) (ptr : ℕ) : Crossing (Store α) :=
  if ptr = 0 then .done st
  else
    match st.release ptr with
    | none => .trap .dangling
    | some st => .done st

def arcsOf (records : RecordMap) : List Arc := records.entries.map Sigma.snd

/-- The record behind a pointer; nothing where no `Arc` of it is left. -/
def nodeAt (memory : List Arc) (ptr : ℕ) : Option Node :=
  (memory.find? (fun arc => arc.serial == ptr)).map Arc.node

section Snapshots

variable (st : Store Snapshot)

/-- `CirSnapshot::into_raw`, at the address the allocator chose. -/
def snapshotIntoRaw (ptr : ℕ) (snapshot : Snapshot) : Store Snapshot := st.intoRaw ptr snapshot

def cirSnapshotVersion (snapshot : ℕ) : Crossing SnapshotVersion := do
  let s ← borrow st snapshot
  return s.version

def cirSnapshotRetain (snapshot new : ℕ) : Crossing (Store Snapshot) :=
  match st.retain snapshot new with
  | none => .trap .dangling
  | some st => .done st

def cirSnapshotRelease (snapshot : ℕ) : Crossing (Store Snapshot) := dropRaw st snapshot

def cirSnapshotContains (snapshot : ℕ) (address : Address) : Crossing Bool := do
  let s ← borrow st snapshot
  return s.contains address

def cirSnapshotNode (snapshot : ℕ) (address : Address) : Crossing (Option ℕ) := do
  let s ← borrow st snapshot
  let found ← lifted (s.get address)
  return found.map Arc.serial

def cirSnapshotRoots (snapshot : ℕ) : Crossing (List Address) := do
  let s ← borrow st snapshot
  return s.roots

def cirSnapshotLen (snapshot : ℕ) : Crossing ℕ := do
  let s ← borrow st snapshot
  return s.len

def written (addresses : List Address) (out : ℕ → Address) : ℕ → Address :=
  addresses.zipIdx.foldl (fun out entry => Function.update out entry.2 entry.1) out

/-- At most `cap` addresses are written; the answer is how many there are. -/
def cirSnapshotAddresses (snapshot : ℕ) (out : ℕ → Address) (cap : ℕ) :
    Crossing (ℕ × (ℕ → Address)) := do
  let s ← borrow st snapshot
  return (s.len, written (s.addresses.take cap) out)

/-- The box, written over what `out` held, or `false` and `out` untouched. -/
def cirSnapshotRect (snapshot : ℕ) (address : Address) (out : Rect) : Crossing (Bool × Rect) := do
  let s ← borrow st snapshot
  match s.placement.rect address with
  | some r => return (true, r)
  | none => return (false, out)

end Snapshots

section Fields

variable (memory : List Arc)

/-- `&*node` and one of its fields. -/
def field {β : Type} (node : ℕ) (f : Node → β) : Crossing β :=
  match nodeAt memory node with
  | none => .trap .dangling
  | some n => .done (f n)

def cirNodeText (node : ℕ) : Crossing String := field memory node Node.text
def cirNodeTextMap (node : ℕ) : Crossing String := field memory node Node.textMap
def cirNodeFont (node : ℕ) : Crossing String := field memory node Node.font
def cirNodeInteraction (node : ℕ) : Crossing String := field memory node Node.interaction
def cirNodeSourceLink (node : ℕ) : Crossing String := field memory node Node.sourceLink
def cirNodeChildren (node : ℕ) : Crossing (List Address) := field memory node Node.children
def cirNodeResources (node : ℕ) : Crossing (List ResourceRef) := field memory node Node.resources
def cirNodeFragments (node : ℕ) : Crossing (List UInt32) := field memory node Node.fragments
def cirNodeIntrinsic (node : ℕ) : Crossing ℤ := field memory node Node.intrinsic
def cirNodeLines (node : ℕ) : Crossing ℤ := field memory node Node.lines
def cirNodePaint (node : ℕ) : Crossing Rgba := field memory node Node.paint
def cirNodeValid (node : ℕ) : Crossing Bool := field memory node Node.valid

end Fields

section Deltas

variable (st : Store Delta)

def deltaIntoRaw (ptr : ℕ) (delta : Delta) : Store Delta := st.intoRaw ptr delta

def cirDeltaLen (delta : ℕ) : Crossing ℕ := do
  let d ← borrow st delta
  return d.diffs.length

def cirDeltaEntries (delta : ℕ) : Crossing (List Diff) := do
  let d ← borrow st delta
  return d.diffs

def cirDeltaAppliesTo (delta : ℕ) (base : SnapshotVersion) : Crossing Bool := do
  let d ← borrow st delta
  return d.appliesTo base

def cirDeltaRelease (delta : ℕ) : Crossing (Store Delta) := dropRaw st delta

end Deltas

/-- A process with what it has handed across the boundary. Of all it published, `kept` are
the snapshots that the code itself has not dropped, and `arcs` the records it cloned out of
them. -/
structure Host where
  process : Process
  kept : List Snapshot
  arcs : List Arc
  snapshots : Store Snapshot
  deltas : Store Delta

/-- Every `Arc` of a record: in the snapshots and builders of the code itself, in its clones,
and in the snapshots behind handles. -/
def Host.memory (h : Host) : List Arc :=
  h.kept.flatMap (fun s => arcsOf s.records) ++
    h.process.builders.flatMap (fun b => arcsOf b.base.records ++ arcsOf b.records) ++
    h.arcs ++ h.snapshots.shared.entries.flatMap (fun e => arcsOf e.2.value.records)

inductive Action where
  | process (a : Processes.Action)
  | drop (s : Snapshot)
  | abandon (b : SnapshotBuilder)
  | share (arc : Arc)
  | unshare (arc : Arc)
  | snapshotIntoRaw (ptr : ℕ) (s : Snapshot)
  | snapshotRetain (snapshot new : ℕ)
  | snapshotRelease (snapshot : ℕ)
  | deltaIntoRaw (ptr : ℕ) (d : Delta)
  | deltaRelease (delta : ℕ)

def returned : Processes.Action → List Snapshot
  | .commit _ c => [c.snapshot]
  | .edit _ | .call _ _ => []

def dropped {α : Type} (ptr : ℕ) : List (Call α) := if ptr = 0 then [] else [.release ptr]

def Action.onSnapshots : Action → List (Call Snapshot)
  | .snapshotIntoRaw ptr s => [.intoRaw ptr s]
  | .snapshotRetain snapshot new => [.retain snapshot new]
  | .snapshotRelease snapshot => dropped snapshot
  | .process _ | .drop _ | .abandon _ | .share _ | .unshare _ | .deltaIntoRaw _ _
  | .deltaRelease _ => []

def Action.onDeltas : Action → List (Call Delta)
  | .deltaIntoRaw ptr d => [.intoRaw ptr d]
  | .deltaRelease delta => dropped delta
  | .process _ | .drop _ | .abandon _ | .share _ | .unshare _ | .snapshotIntoRaw _ _
  | .snapshotRetain _ _ | .snapshotRelease _ => []

/-- Any interleaving. The code opens and hands over what it has not dropped, a snapshot that
it moves being handed over and dropped; the address of a new handle is one that no handle
has now. -/
inductive Step : Host → Action → Host → Prop
  | process {h : Host} {a : Processes.Action} {p : Process} (hown : ∀ s, a = .edit s → s ∈ h.kept)
      (hstep : Processes.Step h.process a p) :
      Step h (.process a) { h with process := p, kept := returned a ++ h.kept }
  | drop {h : Host} {s : Snapshot} {left right : List Snapshot} (hs : h.kept = left ++ s :: right) :
      Step h (.drop s) { h with kept := left ++ right }
  | abandon {h : Host} {b : SnapshotBuilder} {left right : List SnapshotBuilder}
      (hb : h.process.builders = left ++ b :: right) :
      Step h (.abandon b) { h with process := { h.process with builders := left ++ right } }
  | share {h : Host} {s : Snapshot} {x : Address} {arc : Arc} (hs : s ∈ h.kept)
      (hget : s.get x = .done (some arc)) : Step h (.share arc) { h with arcs := arc :: h.arcs }
  | unshare {h : Host} {arc : Arc} {left right : List Arc} (harc : h.arcs = left ++ arc :: right) :
      Step h (.unshare arc) { h with arcs := left ++ right }
  | snapshotIntoRaw {h : Host} {ptr : ℕ} {s : Snapshot} (hs : s ∈ h.kept)
      (hnull : ptr ≠ 0) (hfresh : ptr ∉ h.snapshots.boxes) :
      Step h (.snapshotIntoRaw ptr s) { h with snapshots := snapshotIntoRaw h.snapshots ptr s }
  | snapshotRetain {h : Host} {snapshot new : ℕ} {st : Store Snapshot} (hnull : new ≠ 0)
      (hfresh : new ∉ h.snapshots.boxes)
      (hcall : cirSnapshotRetain h.snapshots snapshot new = .done st) :
      Step h (.snapshotRetain snapshot new) { h with snapshots := st }
  | snapshotRelease {h : Host} {snapshot : ℕ} {st : Store Snapshot}
      (hcall : cirSnapshotRelease h.snapshots snapshot = .done st) :
      Step h (.snapshotRelease snapshot) { h with snapshots := st }
  | deltaIntoRaw {h : Host} {ptr : ℕ} {q : SnapshotBuilder × Commit}
      (hq : q ∈ h.process.commits) (hnull : ptr ≠ 0) (hfresh : ptr ∉ h.deltas.boxes) :
      Step h (.deltaIntoRaw ptr q.2.delta)
        { h with deltas := deltaIntoRaw h.deltas ptr q.2.delta }
  | deltaRelease {h : Host} {delta : ℕ} {st : Store Delta}
      (hcall : cirDeltaRelease h.deltas delta = .done st) :
      Step h (.deltaRelease delta) { h with deltas := st }

def start (domain : Domain) (revision : Revision) : Host where
  process := Processes.start domain revision
  kept := [Snapshot.empty domain revision]
  arcs := []
  snapshots := Store.empty
  deltas := Store.empty

abbrev Reaches (domain : Domain) (revision : Revision) (labels : List Action) (h : Host) : Prop :=
  Run Step (start domain revision) labels h

/-- What the caller knows of its snapshot handles from the calls made so far. -/
def snapshotLedger (labels : List Action) : Ledger Snapshot :=
  Ledger.empty.recordAll (labels.flatMap Action.onSnapshots)

def deltaLedger (labels : List Action) : Ledger Delta :=
  Ledger.empty.recordAll (labels.flatMap Action.onDeltas)

end CompositionIr.Handles
