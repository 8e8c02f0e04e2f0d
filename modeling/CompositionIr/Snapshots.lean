import Mathlib.Data.List.AList
import CompositionIr.Records
import CompositionIr.Placements

/-!
The published state and the builder that accumulates the next one. Records are shared
allocations in a persistent map from addresses; enumerating the map gives every live
address once, in an order nothing may rely on. The allocator is threaded through the
calls that make a new allocation.
-/

namespace CompositionIr.Snapshots

open Outcomes Addresses Records Placements

/-- One allocation of a record. Its value is never written again, so an allocation is
its serial number with the record it was made with. -/
structure Arc where
  serial : ℕ
  node : Node
  deriving DecidableEq

def Arc.ptrEq (a b : Arc) : Bool := a == b

structure Heap where
  next : ℕ

def Heap.alloc (heap : Heap) (node : Node) : Arc × Heap :=
  (⟨heap.next, node⟩, ⟨heap.next + 1⟩)

abbrev RecordMap := AList (fun _ : Address => Arc)

structure Snapshot where
  version : SnapshotVersion
  records : RecordMap
  roots : List Address
  placement : Placement

/-- One candidate state; nothing is published until it is committed. -/
structure SnapshotBuilder where
  base : Snapshot
  records : RecordMap
  roots : List Address
  placement : Placement

namespace Snapshot

/-- The record at an address; an address of another domain is a programmer error. -/
def get (s : Snapshot) (address : Address) : Eval (Option Arc) :=
  if address.domain = s.version.domain then .done (s.records.lookup address)
  else .trap .foreignDomain

def contains (s : Snapshot) (address : Address) : Bool := (s.records.lookup address).isSome

def addresses (s : Snapshot) : List Address := s.records.keys

def len (s : Snapshot) : ℕ := s.records.keys.length

def empty (domain : Domain) (revision : Revision) : Snapshot where
  version := ⟨domain, revision⟩
  records := ∅
  roots := []
  placement := Placement.empty

def edit (s : Snapshot) : SnapshotBuilder where
  base := s
  records := s.records
  roots := s.roots
  placement := s.placement

end Snapshot

namespace SnapshotBuilder

def put (b : SnapshotBuilder) (heap : Heap) (address : Address) (node : Node) :
    SnapshotBuilder × Heap :=
  let (arc, heap) := heap.alloc node
  ({ b with records := b.records.insert address arc }, heap)

def update (b : SnapshotBuilder) (heap : Heap) (address : Address) (f : Node → Node) :
    Eval (SnapshotBuilder × Heap) :=
  match b.records.lookup address with
  | none => .trap .noSuchAddress
  | some arc =>
    let (arc, heap) := heap.alloc (f arc.node)
    .done ({ b with records := b.records.insert address arc }, heap)

def updateIfLive (b : SnapshotBuilder) (heap : Heap) (address : Address) (f : Node → Node) :
    Eval (SnapshotBuilder × Heap) :=
  if (b.records.lookup address).isSome then b.update heap address f else .done (b, heap)

def remove (b : SnapshotBuilder) (address : Address) : SnapshotBuilder :=
  { b with
    records := b.records.erase address
    roots := b.roots.filter (fun r => r != address) }

def root (b : SnapshotBuilder) (address : Address) : SnapshotBuilder :=
  { b with roots := b.roots ++ [address] }

def resetPlacement (b : SnapshotBuilder) : SnapshotBuilder :=
  { b with placement := Placement.empty }

def place (b : SnapshotBuilder) (address : Address) (rect : Rect) : SnapshotBuilder :=
  { b with placement := b.placement.push address rect }

def translate (b : SnapshotBuilder) (covers : List Address) (dx dy : ℤ) : SnapshotBuilder :=
  { b with placement := b.placement.translate covers dx dy }

end SnapshotBuilder

inductive Edit where
  | put (address : Address) (node : Node)
  | update (address : Address) (f : Node → Node)
  | updateIfLive (address : Address) (f : Node → Node)
  | remove (address : Address)
  | root (address : Address)
  | resetPlacement
  | place (address : Address) (rect : Rect)
  | translate (covers : List Address) (dx dy : ℤ)

namespace Edit

def apply (e : Edit) (b : SnapshotBuilder) (heap : Heap) : Eval (SnapshotBuilder × Heap) :=
  match e with
  | put address node => .done (b.put heap address node)
  | update address f => b.update heap address f
  | updateIfLive address f => b.updateIfLive heap address f
  | remove address => .done (b.remove address, heap)
  | root address => .done (b.root address, heap)
  | resetPlacement => .done (b.resetPlacement, heap)
  | place address rect => .done (b.place address rect, heap)
  | translate covers dx dy => .done (b.translate covers dx dy, heap)

def applyAll : List Edit → SnapshotBuilder → Heap → Eval (SnapshotBuilder × Heap)
  | [], b, heap => .done (b, heap)
  | e :: rest, b, heap => do
    let (b, heap) ← e.apply b heap
    applyAll rest b heap

def written : Edit → Option Address
  | put address _ => some address
  | update address _ => some address
  | updateIfLive address _ => some address
  | remove _ | root _ | resetPlacement | place _ _ | translate _ _ _ => none

end Edit

/-- A snapshot of the suites' domain that holds the given records, allocated in order
from a serial number on. -/
def holding (revision : Revision) (start : ℕ) (records : List (Address × Node)) : Snapshot :=
  let held := records.zipIdx start |>.foldl
    (fun held entry => held.insert entry.1.1 ⟨entry.2, entry.1.2⟩) (∅ : RecordMap)
  { Snapshot.empty dom revision with records := held }

end CompositionIr.Snapshots
