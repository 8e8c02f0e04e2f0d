import CompositionIr.Commits

/-!
Memoized computations that record what they read. A recipe touches the published state
through its reader only, one access after another, each chosen from the answers before
it. The engine keeps the value and the receipt of a run and drops the cells whose
observations a commit disturbed.
-/

namespace CompositionIr.DerivedCells

open Outcomes Addresses Records Snapshots Deltas

/-- One thing a computation read, negative reads included. -/
inductive Obs where
  | read (address : Address) (part : Part)
  | liveness (address : Address) (wasAbsent : Bool)
  deriving DecidableEq

structure Receipt where
  obs : List Obs := []
  deriving DecidableEq

/-- Would this execution still produce the same answer after the delta? -/
def Receipt.survives (self : Receipt) (delta : Delta) (after : Snapshot) : Bool :=
  !self.obs.any (fun o =>
    match o with
    | .read a p => delta.diffs.any (fun d => d.address == a && d.parts.contains p)
    -- liveness flipped in either direction
    | .liveness address wasAbsent => (!after.contains address) != wasAbsent)

structure Reader where
  snapshot : Snapshot
  receipt : Receipt

namespace Reader

def new (snapshot : Snapshot) : Reader := ⟨snapshot, {}⟩

def push (r : Reader) (o : Obs) : Reader := { r with receipt := ⟨r.receipt.obs ++ [o]⟩ }

def part (r : Reader) (address : Address) (part : Part) : Eval (Option Node × Reader) := do
  let r := r.push (.read address part)
  let arc ← r.snapshot.get address
  return (arc.map Arc.node, r)

def isAbsent (r : Reader) (address : Address) : Bool × Reader :=
  let absent := !r.snapshot.contains address
  (absent, r.push (.liveness address absent))

end Reader

/-- A derived computation: its accesses in order, and its value. -/
inductive Recipe (V : Type) where
  | ret (value : V)
  | part (address : Address) (part : Part) (next : Option Node → Recipe V)
  | isAbsent (address : Address) (next : Bool → Recipe V)

def Recipe.run {V : Type} : Recipe V → Reader → Eval (V × Reader)
  | ret value, r => .done (value, r)
  | part address p next, r => do
    let (node, r) ← r.part address p
    (next node).run r
  | isAbsent address next, r =>
    let (absent, r) := r.isAbsent address
    (next absent).run r

structure Engine (V : Type) where
  recipes : AList (fun _ : String => Recipe V)
  cells : AList (fun _ : String => V × Receipt)
  recomputations : ℕ

namespace Engine

variable {V : Type}

def new : Engine V := ⟨∅, ∅, 0⟩

def define (e : Engine V) (key : String) (recipe : Recipe V) : Engine V :=
  { e with recipes := e.recipes.insert key recipe }

def recompute (e : Engine V) (key : String) (snapshot : Snapshot) : Eval (V × Engine V) :=
  match e.recipes.lookup key with
  | none => .trap .noSuchRecipe
  | some recipe => do
    let (value, reader) ← recipe.run (Reader.new snapshot)
    return (value, { e with
      recomputations := e.recomputations + 1
      cells := e.cells.insert key (value, reader.receipt) })

def get (e : Engine V) (key : String) (snapshot : Snapshot) : Eval (V × Engine V) :=
  match e.cells.lookup key with
  | some (v, _) => .done (v, e)
  | none => e.recompute key snapshot

/-- Drop exactly the cells whose observations the commit disturbed, and count them. -/
def invalidate (e : Engine V) (delta : Delta) (after : Snapshot) : ℕ × Engine V :=
  let doomed := (e.cells.entries.filter (fun cell => !cell.2.2.survives delta after)).map
    Sigma.fst
  (doomed.length, { e with cells := doomed.foldl (fun cells k => cells.erase k) e.cells })

def isCached (e : Engine V) (key : String) : Bool := (e.cells.lookup key).isSome

end Engine

def fresh {V : Type} (recipe : Recipe V) (snapshot : Snapshot) : Eval V := do
  let (value, _) ← recipe.run (Reader.new snapshot)
  return value

end CompositionIr.DerivedCells
