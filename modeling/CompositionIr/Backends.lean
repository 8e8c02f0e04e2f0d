import Mathlib.Data.Finset.Sort
import CompositionIr.Commits
import CompositionIr.DebugText
import CompositionIr.KeyedMaps
import CompositionIr.Sorting

/-!
Three output targets that read a snapshot and a delta alone: a flat draw list with a region
to repaint, elements retained under the text of their address, and pages with a table of
resources. Each is rendered in the order the record map enumerates.
-/

namespace CompositionIr.Backends

open Outcomes Addresses Records Placements Snapshots Deltas Texts DebugText KeyedMaps Sorting

structure Work where
  emitted : ℕ := 0
  relaidOut : ℕ := 0
  deriving DecidableEq

namespace Work

def emit (w : Work) : Work := { w with emitted := w.emitted + 1 }

def relay (w : Work) : Work := { w with relaidOut := w.relaidOut + 1 }

end Work

section Immediate

structure DrawOp where
  address : Address
  bounds : Rect
  fill : Rgba
  text : String
  deriving DecidableEq

structure Region where
  bounds : Rect := {}
  deriving DecidableEq

namespace Region

def union (s : Region) (r : Rect) : Region := ⟨s.bounds.union r⟩

def isEmpty (s : Region) : Bool := s.bounds.isEmpty

end Region

structure Raster where
  ops : List DrawOp
  deriving DecidableEq

def op (snapshot : Snapshot) (address : Address) : Eval (Option DrawOp) := do
  match ← snapshot.get address with
  | none => return none
  | some n =>
    return some ⟨address, (snapshot.placement.rect address).getD {}, n.node.paint, n.node.text⟩

/-- Operations are painted from top to bottom, then from left to right. -/
def paintKey (o : DrawOp) : ℤ ×ₗ ℤ ×ₗ Address :=
  toLex (o.bounds.y, toLex (o.bounds.x, o.address))

namespace Raster

def renderOne (snapshot : Snapshot) (drawn : List DrawOp × Work) (a : Address) :
    Eval (List DrawOp × Work) := do
  match ← op snapshot a with
  | some o => return (drawn.1 ++ [o], drawn.2.emit.relay)
  | none => return drawn

def render (snapshot : Snapshot) : Eval (Raster × Work) := do
  let (ops, work) ← snapshot.addresses.foldlM (renderOne snapshot) ([], {})
  return (⟨sortByKey paintKey ops⟩, work)

structure Repainting where
  ops : List DrawOp
  work : Work := {}
  region : Region := {}
  deriving DecidableEq

def repaintOne (snapshot : Snapshot) (r : Repainting) (d : Diff) : Eval Repainting := do
  let existing := r.ops.findIdx? (fun o => o.address == d.address)
  let region := match existing.bind (fun pos => r.ops[pos]?) with
    | some o => r.region.union o.bounds
    | none => r.region
  match existing, ← op snapshot d.address with
  | some pos, none => return ⟨r.ops.eraseIdx pos, r.work, region⟩
  | some pos, some next =>
    return ⟨r.ops.set pos next, r.work.emit, region.union next.bounds⟩
  | none, some next => return ⟨r.ops ++ [next], r.work.emit, region.union next.bounds⟩
  | none, none => return ⟨r.ops, r.work, region⟩

def repaint (self : Raster) (snapshot : Snapshot) (delta : Delta) :
    Eval (Work × Region × Raster) := do
  let r ← delta.diffs.foldlM (repaintOne snapshot) { ops := self.ops }
  return (r.work, r.region, ⟨sortByKey paintKey r.ops⟩)

end Raster

end Immediate

section Retained

def hexByte (b : UInt8) : List Char :=
  [Nat.digitChar (b.toNat / 16), Nat.digitChar (b.toNat % 16)]

def hex (c : Rgba) : List Char := '#' :: (hexByte c.r ++ hexByte c.g ++ hexByte c.b)

structure Svg where
  elements : KeyedMap (List Char) (List Char)

def elementText (address : Address) (r : Rect) (fill text : List Char) : List Char :=
  "<g id=\"".toList ++ debugAddress address ++ "\" transform=\"translate(".toList ++
    signed r.x ++ ",".toList ++ signed r.y ++ ")\"><text fill=\"".toList ++ fill ++
    "\">".toList ++ text ++ "</text></g>".toList

def element (snapshot : Snapshot) (address : Address) : Eval (List Char) := do
  match ← snapshot.get address with
  | none => Outcome.trap Trap.notLive
  | some n =>
    let r := (snapshot.placement.rect address).getD {}
    return elementText address r (hex n.node.paint) n.node.text.toList

/-- The parts whose change moves or reshapes an element. -/
def needsGeometry (parts : Parts) : Bool :=
  parts.contains Part.structure || parts.contains Part.intrinsicLayout ||
    parts.contains Part.lineLayout || parts.contains Part.fragmentation

/-- Rewrite the fill of an element, by splitting its own text. -/
def rewriteFill (existing fill : List Char) : List Char :=
  let head := (split "fill=\"".toList existing).headD []
  let tail := (split "\">".toList existing)[1]?.getD []
  head ++ "fill=\"".toList ++ fill ++ "\">".toList ++ tail

namespace Svg

def renderOne (snapshot : Snapshot) (out : Svg × Work) (a : Address) : Eval (Svg × Work) := do
  let text ← element snapshot a
  return (⟨out.1.elements.insert (debugAddress a) text⟩, out.2.emit.relay)

def render (snapshot : Snapshot) : Eval (Svg × Work) :=
  snapshot.addresses.foldlM (renderOne snapshot) (⟨∅⟩, {})

def patchOne (snapshot : Snapshot) (out : Svg × Work) (d : Diff) : Eval (Svg × Work) := do
  let (svg, work) := out
  let key := debugAddress d.address
  match ← snapshot.get d.address with
  | none => return (⟨svg.elements.erase key⟩, work)
  | some n =>
    if needsGeometry d.parts then
      let text ← element snapshot d.address
      return (⟨svg.elements.insert key text⟩, work.emit.relay)
    else match svg.elements.lookup key with
      | some existing =>
        return (⟨svg.elements.insert key (rewriteFill existing (hex n.node.paint))⟩, work.emit)
      | none => return (svg, work.emit)

def patch (self : Svg) (snapshot : Snapshot) (delta : Delta) : Eval (Svg × Work) :=
  delta.diffs.foldlM (patchOne snapshot) (self, {})

end Svg

end Retained

section Paginated

instance linearOrderPage : LinearOrder UInt32 :=
  LinearOrder.lift' UInt32.toNat (fun _ _ h => UInt32.toNat_inj.mp h)

structure Paged where
  pages : KeyedMap UInt32 (List Address)
  resources : Finset Address

namespace Paged

def renderOne (snapshot : Snapshot) (out : Paged × Work) (a : Address) : Eval (Paged × Work) := do
  let (paged, work) := out
  match ← snapshot.get a with
  | none => Outcome.trap Trap.unwrapNone
  | some n =>
    if a.space = Space.resource then
      return (⟨paged.pages, insert a paged.resources⟩, work)
    else
      -- a record spanning a page break appears on each of its fragments
      let pages := n.node.fragments.foldl (fun pages f => push pages f a) paged.pages
      return (⟨pages, paged.resources⟩, work.emit.relay)

def render (snapshot : Snapshot) : Eval (Paged × Work) := do
  let (out, work) ← snapshot.addresses.foldlM (renderOne snapshot) (⟨∅, ∅⟩, {})
  return (⟨mapValues sort out.pages, out.resources⟩, work)

def pagesOf (self : Paged) (address : Address) : List UInt32 :=
  self.pages.keys.sort.filter (fun p => (listed self.pages p).contains address)

end Paged

end Paginated

end CompositionIr.Backends
