import CompositionIr.Ascending
import CompositionIr.Snapshots

/-!
The delta: one answer to what differs. Subtree equality is decided by a top-down
recursion over the children the first snapshot lists, which stops at the first child
that differs; the fuel bounds its depth. The recursion is written once for any test on
two records, since the suite's own reference differs from it in that test only.
-/

namespace CompositionIr.Deltas

open Outcomes Ascending Addresses Records Snapshots

structure Diff where
  address : Address
  parts : Parts
  deriving DecidableEq

structure Delta where
  before : SnapshotVersion
  after : SnapshotVersion
  diffs : List Diff
  deriving DecidableEq

namespace Delta

/-- A consumer's whole precondition check. -/
def appliesTo (d : Delta) (base : SnapshotVersion) : Bool := d.before == base

def isEmpty (d : Delta) : Bool := d.diffs.isEmpty

end Delta

/-- Subtree equality under a test on the two records of one address. -/
def subtreeWith (same : Arc → Arc → Bool) (before after : Snapshot) :
    ℕ → Address → Eval Bool
  | 0, _ => .starved
  | fuel + 1, address => do
    let b ← before.get address
    let a ← after.get address
    match b, a with
    | none, none => return true
    | none, some _ => return false
    | some _, none => return false
    | some b, some a =>
      if same b a then b.node.children.allM (subtreeWith same before after fuel)
      else return false

def children (s : Snapshot) (address : Address) : Eval (List Address) := do
  match ← s.get address with
  | some n => return n.node.children
  | none => return []

def descendantDiffers (sub : Address → Eval Bool) (before after : Snapshot)
    (address : Address) : Eval Bool := do
  let seen ← children before address
  let extended ← children after address
  (ascending (seen ++ extended)).anyM (fun c => do return !(← sub c))

def ownDiffs (b : Option Arc) (a : Arc) : Parts :=
  match b with
  | none => ownParts.foldl Parts.insert Parts.empty
  | some b =>
    ownParts.foldl (fun s p => if b.node.partEq a.node p then s else s.insert p) Parts.empty

def diffOf (sub : Address → Eval Bool) (before after : Snapshot) (address : Address) :
    Eval (Option Diff) := do
  if ← sub address then
    return none
  else
    match ← after.get address with
    | none => return some ⟨address, Parts.empty⟩
    | some a =>
      let b ← before.get address
      let parts := ownDiffs b a
      if ← descendantDiffers sub before after address then
        return some ⟨address, parts.insert Part.descendant⟩
      else
        return some ⟨address, parts⟩

def diffsFrom (sub : Address → Eval Bool) (before after : Snapshot) :
    List Address → Eval (List Diff)
  | [] => return []
  | address :: rest => do
    let entry ← diffOf sub before after address
    let out ← diffsFrom sub before after rest
    return entry.toList ++ out

def scanned (before after : Snapshot) : List Address :=
  ascending (before.addresses ++ after.addresses)

/-- Two records are one allocation or agree on every own part. -/
def ownEqual (b a : Arc) : Bool := b.ptrEq a || ownParts.all (fun p => b.node.partEq a.node p)

def subtreeEq (before after : Snapshot) (fuel : ℕ) (address : Address) : Eval Bool :=
  subtreeWith ownEqual before after fuel address

/-- The membership law, implemented literally. -/
def diffsBetween (before after : Snapshot) (fuel : ℕ) : Eval (List Diff) :=
  diffsFrom (subtreeEq before after fuel) before after (scanned before after)

end CompositionIr.Deltas
