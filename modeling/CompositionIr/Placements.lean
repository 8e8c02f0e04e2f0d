import Mathlib.Data.Int.Notation
import CompositionIr.Addresses

/-!
Absolute placement, a query: boxes are appended, moves are appended beside them, and
the box of one address is resolved on demand. Coordinates are exact integers.
-/

namespace CompositionIr.Placements

open Addresses

structure Rect where
  x : ℤ := 0
  y : ℤ := 0
  width : ℤ := 0
  height : ℤ := 0
  deriving DecidableEq

namespace Rect

/-- The box that spans two boxes, where the all-zero box stands for none. -/
def union (s other : Rect) : Rect :=
  if s = {} then other
  else if other = {} then s
  else
    let x := min s.x other.x
    let y := min s.y other.y
    { x := x
      y := y
      width := max (s.x + s.width) (other.x + other.width) - x
      height := max (s.y + s.height) (other.y + other.height) - y }

def isEmpty (s : Rect) : Bool := s.width == 0 || s.height == 0

end Rect

structure Translation where
  covers : List Address
  dx : ℤ
  dy : ℤ
  deriving DecidableEq

structure Placement where
  boxes : List (Address × Rect) := []
  translations : List Translation := []
  deriving DecidableEq

namespace Placement

def empty : Placement := {}

def push (s : Placement) (address : Address) (rect : Rect) : Placement :=
  { s with boxes := s.boxes ++ [(address, rect)] }

def translate (s : Placement) (covers : List Address) (dx dy : ℤ) : Placement :=
  { s with translations := s.translations ++ [⟨covers, dx, dy⟩] }

def len (s : Placement) : ℕ := s.boxes.length

/-- The first box pushed for the address, with every translation that covers it
folded in. -/
def rect (s : Placement) (address : Address) : Option Rect := do
  let (_, r) ← s.boxes.find? (fun placed => placed.1 == address)
  return s.translations.foldl
    (fun r t =>
      if t.covers.contains address then { r with x := r.x + t.dx, y := r.y + t.dy } else r) r

end Placement

end CompositionIr.Placements
