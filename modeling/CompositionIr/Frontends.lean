import CompositionIr.Texts
import CompositionIr.Transitions

/-!
A stand-in frontend: a document of lines, with identities and a change report of its
own. It knows nothing of what its nodes are published as.
-/

namespace CompositionIr.Frontends

open Transitions Texts
open String (utf8Len ofList)

inductive Kind where
  | heading
  | para
  | embed
  /-- A span written in another grammar, classified here and parsed nowhere. -/
  | formula
  deriving DecidableEq

structure MdNode where
  id : UInt64
  kind : Kind
  text : String
  /-- Byte span in this frontend's own source. -/
  span : ℕ × ℕ
  deriving DecidableEq

structure MdAst where
  nodes : List MdNode := []
  source : String := ""
  deriving DecidableEq

structure MdDelta where
  touched : List UInt64 := []
  retired : List UInt64 := []
  deriving DecidableEq

structure MdSession where
  nextId : UInt64
  ast : MdAst
  deriving DecidableEq

def MdAst.ids (ast : MdAst) : List UInt64 := ast.nodes.map MdNode.id

namespace MdSession

def new : MdSession := ⟨0, {}⟩

def classify (line : List Char) : Kind :=
  if "![[".toList.isPrefixOf line then .embed
  else if "$$".toList.isPrefixOf line then .formula
  else if "#".toList.isPrefixOf line then .heading
  else .para

/-- The identity of the line at an index, and the counter after it: the node the old
list has at that index keeps its id if it has the kind, and the counter is stepped
otherwise. Stepping it past the last word overflows. -/
def assign (old : List MdNode) (i : ℕ) (kind : Kind) (nextId : UInt64) :
    Option (UInt64 × UInt64) :=
  let fresh := if nextId.toNat + 1 < 2 ^ 64 then some (nextId + 1, nextId + 1) else none
  match old[i]? with
  | some prev => if prev.kind = kind then some (prev.id, nextId) else fresh
  | none => fresh

/-- The loop over the lines, from a line index, a byte offset and the counter on: the
nodes of the lines that are not blank, and the counter after them. -/
def parse (old : List MdNode) : List (List Char) → ℕ → ℕ → UInt64 →
    Option (List MdNode × UInt64)
  | [], _, _, nextId => some ([], nextId)
  | line :: rest, i, start, nextId =>
    -- the terminator of the line is counted as one byte
    let next := start + utf8Len line + 1
    if blank line then parse old rest (i + 1) next nextId
    else do
      let kind := classify line
      let (id, nextId) ← assign old i kind nextId
      let (nodes, nextId) ← parse old rest (i + 1) next nextId
      return (⟨id, kind, ofList line, (start, start + utf8Len line)⟩ :: nodes, nextId)

/-- The nodes that are new, or no longer what the old list has under their id. -/
def touched (old nodes : List MdNode) : List UInt64 :=
  nodes.filterMap (fun n =>
    match old.find? (fun o => o.id == n.id) with
    | some prev => if prev.text == n.text && prev.kind == n.kind then none else some n.id
    | none => some n.id)

def retired (old nodes : List MdNode) : List UInt64 :=
  (old.filter (fun o => !nodes.any (fun n => n.id == o.id))).map MdNode.id

/-- Reparse, preserving an id when a line keeps its kind and position; `none` when the
counter overflows. -/
def setSource (s : MdSession) (source : String) : Option (MdSession × MdAst × MdDelta) := do
  let old := s.ast.nodes
  let (nodes, nextId) ← parse old (lines source.toList) 0 0 s.nextId
  let delta := ⟨touched old nodes, retired old nodes⟩
  let ast := ⟨nodes, source⟩
  return (⟨nextId, ast⟩, ast, delta)

def embedReference (node : MdNode) : Option String := do
  let rest ← node.text.toList.dropPrefix? "![[".toList
  let reference ← rest.dropSuffix? "]]".toList
  return ofList reference

def formulaSource (node : MdNode) : Option String := do
  let rest ← node.text.toList.dropPrefix? "$$".toList
  let source ← rest.dropSuffix? "$$".toList
  return ofList source

end MdSession

structure Reparse where
  source : String
  delta : MdDelta

def Step (s : MdSession) (call : Reparse) (s' : MdSession) : Prop :=
  s.setSource call.source = some (s', s'.ast, call.delta)

section Parsing

open MdSession

theorem step_iff (s s' : MdSession) (call : Reparse) :
    Step s call s' ↔
      parse s.ast.nodes (lines call.source.toList) 0 0 s.nextId =
          some (s'.ast.nodes, s'.nextId) ∧
        s'.ast.source = call.source ∧
        call.delta = ⟨touched s.ast.nodes s'.ast.nodes, retired s.ast.nodes s'.ast.nodes⟩ := by
  obtain ⟨nextId', ⟨nodes', source'⟩⟩ := s'
  obtain ⟨source, delta⟩ := call
  unfold Step setSource
  simp only
  constructor
  · intro h
    obtain ⟨⟨nodes, nextId⟩, hparse, h⟩ := Option.bind_eq_some_iff.mp h
    obtain ⟨hs, _, hdelta⟩ := by simpa only [Prod.mk.injEq] using Option.some.inj h
    injection hs with hnext hast
    injection hast with hnodes hsource
    subst hnext hnodes hsource
    exact ⟨hparse, rfl, hdelta.symm⟩
  · intro h
    obtain ⟨hparse, hsource, hdelta⟩ := h
    subst hsource hdelta
    rw [hparse]
    rfl

/-- What the counter gives a line: the id the old list has at its index for its kind, or
the next one. -/
theorem assign_cases (old : List MdNode) (i : ℕ) (kind : Kind) (nextId id mid : UInt64)
    (h : assign old i kind nextId = some (id, mid)) :
    (∃ prev, old[i]? = some prev ∧ prev.kind = kind ∧ id = prev.id ∧ mid = nextId) ∨
      ((∀ prev, old[i]? = some prev → prev.kind ≠ kind) ∧ mid = id ∧
        id.toNat = nextId.toNat + 1) := by
  have hfresh : (if nextId.toNat + 1 < 2 ^ 64 then some (nextId + 1, nextId + 1) else none) =
      some (id, mid) → mid = id ∧ id.toNat = nextId.toNat + 1 := by
    intro hone
    by_cases hlt : nextId.toNat + 1 < 2 ^ 64
    · rw [if_pos hlt] at hone
      obtain ⟨hid, hmid⟩ := Prod.mk.inj (Option.some.inj hone)
      refine ⟨hmid.symm.trans hid, ?_⟩
      rw [← hid, UInt64.toNat_add, show (1 : UInt64).toNat = 1 from rfl, Nat.mod_eq_of_lt hlt]
    · rw [if_neg hlt] at hone
      cases hone
  unfold assign at h
  cases hold : old[i]? with
  | none =>
    rw [hold] at h
    exact Or.inr ⟨fun prev hprev => (by cases hprev), hfresh h⟩
  | some prev =>
    rw [hold] at h
    simp only at h
    by_cases hkind : prev.kind = kind
    · rw [if_pos hkind] at h
      obtain ⟨hid, hmid⟩ := Prod.mk.inj (Option.some.inj h)
      exact Or.inl ⟨prev, rfl, hkind, hid.symm, hmid.symm⟩
    · rw [if_neg hkind] at h
      refine Or.inr ⟨fun prev' hprev' => ?_, hfresh h⟩
      rw [← Option.some.inj hprev']
      exact hkind

/-- One round of the loop: a blank line is passed over, any other becomes a node. -/
theorem parse_cons (old : List MdNode) (line : List Char) (rest : List (List Char))
    (i start : ℕ) (nextId last : UInt64) (nodes : List MdNode)
    (h : parse old (line :: rest) i start nextId = some (nodes, last)) :
    (blank line = true ∧
        parse old rest (i + 1) (start + utf8Len line + 1) nextId = some (nodes, last)) ∨
      ∃ id mid tail, blank line = false ∧
        assign old i (classify line) nextId = some (id, mid) ∧
        parse old rest (i + 1) (start + utf8Len line + 1) mid = some (tail, last) ∧
        nodes = ⟨id, classify line, ofList line, (start, start + utf8Len line)⟩ :: tail := by
  unfold parse at h
  simp only at h
  by_cases hblank : blank line = true
  · rw [if_pos hblank] at h
    exact Or.inl ⟨hblank, h⟩
  · rw [if_neg hblank] at h
    obtain ⟨⟨id, mid⟩, hassign, h⟩ := Option.bind_eq_some_iff.mp h
    obtain ⟨⟨tail, last'⟩, htail, h⟩ := Option.bind_eq_some_iff.mp h
    obtain ⟨hnodes, hlast⟩ := Prod.mk.inj (Option.some.inj h)
    subst hlast
    exact Or.inr ⟨id, mid, tail, by simpa using hblank, hassign, htail, hnodes.symm⟩

/-- As long as the counter cannot run out over the lines, the loop comes to its end. -/
theorem parse_returns (old : List MdNode) (text : List (List Char)) (i start : ℕ)
    (nextId : UInt64) (hroom : nextId.toNat + text.length < 2 ^ 64) :
    ∃ nodes last, parse old text i start nextId = some (nodes, last) := by
  induction text generalizing i start nextId with
  | nil => exact ⟨[], nextId, rfl⟩
  | cons line rest ih =>
    simp only [List.length_cons] at hroom
    unfold parse
    simp only
    by_cases hblank : blank line = true
    · rw [if_pos hblank]
      exact ih (i + 1) _ nextId (by omega)
    · rw [if_neg hblank]
      have hassign : ∃ id mid, assign old i (classify line) nextId = some (id, mid) ∧
          mid.toNat ≤ nextId.toNat + 1 := by
        have hone : (nextId + 1).toNat = nextId.toNat + 1 := by
          rw [UInt64.toNat_add, show (1 : UInt64).toNat = 1 from rfl]
          exact Nat.mod_eq_of_lt (by omega)
        unfold assign
        rw [if_pos (by omega)]
        cases old[i]? with
        | none => exact ⟨_, _, rfl, by omega⟩
        | some prev =>
          simp only
          by_cases hkind : prev.kind = classify line
          · rw [if_pos hkind]
            exact ⟨_, _, rfl, by omega⟩
          · rw [if_neg hkind]
            exact ⟨_, _, rfl, by omega⟩
      obtain ⟨id, mid, hassign, hmid⟩ := hassign
      obtain ⟨tail, last, htail⟩ := ih (i + 1) (start + utf8Len line + 1) mid (by omega)
      rw [hassign]
      change ∃ nodes last, (parse old rest _ _ mid).bind _ = _
      rw [htail]
      exact ⟨_, _, rfl⟩

/-- A call returns as long as the counter has room for the lines of the source. -/
theorem setSource_returns (s : MdSession) (source : String)
    (hroom : s.nextId.toNat + (lines source.toList).length < 2 ^ 64) :
    ∃ call s', call.source = source ∧ Step s call s' := by
  obtain ⟨nodes, last, hparse⟩ := parse_returns s.ast.nodes _ 0 0 s.nextId hroom
  exact ⟨⟨source, ⟨touched s.ast.nodes nodes, retired s.ast.nodes nodes⟩⟩,
    ⟨last, ⟨nodes, source⟩⟩, rfl, (step_iff _ _ _).mpr ⟨hparse, rfl, rfl⟩⟩

end Parsing

end CompositionIr.Frontends
