import CompositionIr.Sorting
import CompositionIr.Snapshots

/-!
The queries a consumer writes over a snapshot for itself: what is at a point, what is in a
viewport, what is on a page. Each walks every live address in the order the record map
enumerates and counts what that cost.
-/

namespace CompositionIr.Queries

open Outcomes Addresses Records Placements Snapshots Sorting

structure Point where
  x : ℤ
  y : ℤ
  deriving DecidableEq

structure Cost where
  recordsScanned : ℕ := 0
  rectLookups : ℕ := 0
  boxComparisons : ℕ := 0
  deriving DecidableEq

def contains (r : Rect) (p : Point) : Bool :=
  r.x ≤ p.x && p.x < r.x + r.width && r.y ≤ p.y && p.y < r.y + r.height

def intersects (a b : Rect) : Bool :=
  a.x < b.x + b.width && b.x < a.x + a.width && a.y < b.y + b.height && b.y < a.y + a.height

/-- One round of a query on boxes: a record is scanned, its box is looked up, and it is
kept when the box passes a test. -/
def placedRound (snapshot : Snapshot) (test : Rect → Bool) (found : List Address × Cost)
    (a : Address) : List Address × Cost :=
  let cost : Cost :=
    { recordsScanned := found.2.recordsScanned + 1
      rectLookups := found.2.rectLookups + 1
      boxComparisons := found.2.boxComparisons + snapshot.placement.len }
  match snapshot.placement.rect a with
  | some r => if test r then (found.1 ++ [a], cost) else (found.1, cost)
  | none => (found.1, cost)

def placedQuery (snapshot : Snapshot) (test : Rect → Bool) : List Address × Cost :=
  let found := snapshot.addresses.foldl (placedRound snapshot test) ([], {})
  (sort found.1, found.2)

def addressesAt (snapshot : Snapshot) (point : Point) : List Address × Cost :=
  placedQuery snapshot (fun r => contains r point)

def visibleSet (snapshot : Snapshot) (viewport : Rect) : List Address × Cost :=
  placedQuery snapshot (fun r => intersects r viewport)

def fragmentRound (snapshot : Snapshot) (fragment : UInt32) (found : List Address × Cost)
    (a : Address) : Eval (List Address × Cost) := do
  let cost := { found.2 with recordsScanned := found.2.recordsScanned + 1 }
  match ← snapshot.get a with
  | some n =>
    if n.node.fragments.contains fragment then return (found.1 ++ [a], cost)
    else return (found.1, cost)
  | none => return (found.1, cost)

def onFragment (snapshot : Snapshot) (fragment : UInt32) : Eval (List Address × Cost) := do
  let found ← snapshot.addresses.foldlM (fragmentRound snapshot fragment) ([], {})
  return (sort found.1, found.2)

section Answers

theorem foldl_placedRound (s : Snapshot) (test : Rect → Bool) (l : List Address)
    (found : List Address × Cost) :
    l.foldl (placedRound s test) found =
      (found.1 ++ l.filter (fun a => (s.placement.rect a).any test),
        { recordsScanned := found.2.recordsScanned + l.length
          rectLookups := found.2.rectLookups + l.length
          boxComparisons := found.2.boxComparisons + l.length * s.placement.len }) := by
  induction l generalizing found with
  | nil => simp
  | cons a rest ih =>
    rw [List.foldl_cons, ih]
    unfold placedRound
    cases hr : s.placement.rect a with
    | none => simp [hr, Nat.add_mul]; omega
    | some r => by_cases ht : test r = true <;> simp [hr, ht, Nat.add_mul] <;> omega

/-- A query on boxes returns the live addresses whose box passes the test, ascending. -/
theorem placedQuery_eq (s : Snapshot) (test : Rect → Bool) :
    placedQuery s test =
      (sort (s.addresses.filter (fun a => (s.placement.rect a).any test)),
        { recordsScanned := s.len
          rectLookups := s.len
          boxComparisons := s.len * s.placement.len }) := by
  unfold placedQuery
  rw [foldl_placedRound]
  simp [Snapshot.len, Snapshot.addresses]

theorem mem_placedQuery (s : Snapshot) (test : Rect → Bool) (a : Address) :
    a ∈ (placedQuery s test).1 ↔
      a ∈ s.addresses ∧ ∃ r, s.placement.rect a = some r ∧ test r = true := by
  rw [placedQuery_eq, mem_sortByKey, List.mem_filter, Option.any_eq_true]

theorem pairwise_placedQuery (s : Snapshot) (test : Rect → Bool) :
    (placedQuery s test).1.Pairwise (· < ·) := by
  rw [placedQuery_eq]
  exact pairwise_lt_sort (s.records.keys_nodup.filter _)

end Answers

end CompositionIr.Queries
