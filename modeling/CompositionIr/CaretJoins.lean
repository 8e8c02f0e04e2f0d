import Mathlib.Data.Prod.Lex
import CompositionIr.AdapterRuns
import CompositionIr.DebugText
import CompositionIr.Sorting
import CompositionIr.Spans

/-!
From a caret to the nodes it is in, and from a record back to its node. The frontend ranks
the nodes by their spans; where no two spans cross, that is a path from the innermost node
outwards, and in the trees of the line frontend one node at most. The join key of a record
names one node of the tree and is the key of no other record, so a record and any caret in
its node lead to each other, after every pass of every run.
-/

namespace CompositionIr.CaretJoins

open Transitions Addresses Records Snapshots CallEffects Sorting Frontends Identities Spans
open Adapters AdapterEffects AdapterRuns DebugText

def covers (offset : ℕ) (n : MdNode) : Bool := n.span.1 ≤ offset && offset < n.span.2

/-- The width of a span, and the identity between spans of one width. -/
def caretKey (n : MdNode) : ℕ ×ₗ ℕ := toLex (n.span.2 - n.span.1, n.id.toNat)

def covering (ast : MdAst) (offset : ℕ) : List MdNode :=
  sortByKey caretKey (ast.nodes.filter (covers offset))

/-- The nodes whose text covers a caret offset of the frontend's own source. -/
def addressesForOffset (ast : MdAst) (offset : ℕ) : List UInt64 :=
  (covering ast offset).map MdNode.id

section Ranking

theorem covers_iff (offset : ℕ) (n : MdNode) :
    covers offset n = true ↔ n.span.1 ≤ offset ∧ offset < n.span.2 := by
  unfold covers
  rw [Bool.and_eq_true, decide_eq_true_eq, decide_eq_true_eq]

theorem mem_covering (ast : MdAst) (offset : ℕ) (n : MdNode) :
    n ∈ covering ast offset ↔ n ∈ ast.nodes ∧ covers offset n = true := by
  unfold covering
  rw [mem_sortByKey, List.mem_filter]

theorem mem_addressesForOffset (ast : MdAst) (offset : ℕ) (id : UInt64) :
    id ∈ addressesForOffset ast offset ↔
      ∃ n ∈ ast.nodes, n.id = id ∧ covers offset n = true := by
  unfold addressesForOffset
  rw [List.mem_map]
  constructor
  · intro hfound
    obtain ⟨n, hn, hid⟩ := hfound
    obtain ⟨hn, hcovers⟩ := (mem_covering ast offset n).mp hn
    exact ⟨n, hn, hid, hcovers⟩
  · intro hfound
    obtain ⟨n, hn, hid, hcovers⟩ := hfound
    exact ⟨n, (mem_covering ast offset n).mpr ⟨hn, hcovers⟩, hid⟩

/-- An answer is cut at a node as the list of nodes is. -/
theorem exists_covering_eq {ast : MdAst} {offset : ℕ} {id : UInt64} {inner outer : List UInt64}
    (hlist : addressesForOffset ast offset = inner ++ id :: outer) :
    ∃ left n right, covering ast offset = left ++ n :: right ∧ n ∈ ast.nodes ∧
      covers offset n = true ∧ n.id = id ∧ right.map MdNode.id = outer := by
  obtain ⟨left, tail, hnodes, _, htail⟩ := List.map_eq_append_iff.mp hlist
  obtain ⟨n, right, rfl, hid, hright⟩ := List.map_eq_cons_iff.mp htail
  have hn : n ∈ covering ast offset := by
    rw [hnodes]
    exact List.mem_append_right _ (List.mem_cons_self ..)
  obtain ⟨hn, hcovers⟩ := (mem_covering ast offset n).mp hn
  exact ⟨left, n, right, hnodes, hn, hcovers, hid, hright⟩

/-- Two spans nest, either way round, or have no offset in common. -/
def Nests (n m : MdNode) : Prop :=
  (m.span.1 ≤ n.span.1 ∧ n.span.2 ≤ m.span.2) ∨ (n.span.1 ≤ m.span.1 ∧ m.span.2 ≤ n.span.2) ∨
    n.span.2 ≤ m.span.1 ∨ m.span.2 ≤ n.span.1

def Inside (n m : MdNode) : Prop := m.span.1 ≤ n.span.1 ∧ n.span.2 ≤ m.span.2

theorem Inside.covers {n m : MdNode} (hinside : Inside n m) {offset : ℕ}
    (hn : covers offset n = true) : covers offset m = true := by
  obtain ⟨hstart, hstop⟩ := hinside
  rw [covers_iff] at hn ⊢
  omega

/-- Spans that do not nest cross, one of them first. -/
theorem crossing_of_not_nests {n m : MdNode} (hnests : ¬Nests n m) :
    (n.span.1 < m.span.1 ∧ m.span.1 < n.span.2 ∧ n.span.2 < m.span.2) ∨
      (m.span.1 < n.span.1 ∧ n.span.1 < m.span.2 ∧ m.span.2 < n.span.2) := by
  unfold Nests at hnests
  omega

/-- Of two nodes around one caret, the one ranked first is inside the other. -/
theorem inside_of_caretKey_le {n m : MdNode} (hnests : Nests n m) {offset : ℕ}
    (hn : covers offset n = true) (hm : covers offset m = true)
    (hkey : caretKey n ≤ caretKey m) : Inside n m := by
  rw [covers_iff] at hn hm
  have hwidth : n.span.2 - n.span.1 ≤ m.span.2 - m.span.1 := by
    rcases Prod.Lex.le_iff.mp hkey with hlt | ⟨heq, _⟩
    · exact le_of_lt hlt
    · exact le_of_eq heq
  unfold Inside
  rcases hnests with hin | hout | hbefore | hafter <;> omega

def Nested (ast : MdAst) : Prop := ∀ n ∈ ast.nodes, ∀ m ∈ ast.nodes, Nests n m

/-- Each node answered lies inside every node answered after it. -/
def InnermostFirst (ast : MdAst) : Prop :=
  ∀ offset, (addressesForOffset ast offset).Pairwise (fun id id' =>
    ∀ n ∈ ast.nodes, ∀ m ∈ ast.nodes, n.id = id → m.id = id' → Inside n m)

/-- Two answers agree from any node they share. -/
def FollowsPaths (ast : MdAst) : Prop :=
  ∀ offset offset' id inner outer inner' outer',
    addressesForOffset ast offset = inner ++ id :: outer →
      addressesForOffset ast offset' = inner' ++ id :: outer' → outer = outer'

variable {ast : MdAst} (hids : ast.ids.Nodup)
include hids

theorem eq_of_id {n m : MdNode} (hn : n ∈ ast.nodes) (hm : m ∈ ast.nodes)
    (hid : n.id = m.id) : n = m :=
  List.inj_on_of_nodup_map hids hn hm hid

theorem nodup_addressesForOffset (offset : ℕ) : (addressesForOffset ast offset).Nodup := by
  have hperm := perm_sortByKey caretKey (ast.nodes.filter (covers offset))
  exact (hperm.map MdNode.id).nodup_iff.mpr
    (hids.sublist (List.filter_sublist.map MdNode.id))

theorem innermostFirst_iff_covering :
    InnermostFirst ast ↔ ∀ offset, (covering ast offset).Pairwise Inside := by
  refine forall_congr' fun offset => ?_
  unfold addressesForOffset
  rw [List.pairwise_map]
  constructor
  · intro h
    refine h.imp_of_mem fun {n m} hn hm hinside => ?_
    exact hinside n ((mem_covering ast offset n).mp hn).1 m
      ((mem_covering ast offset m).mp hm).1 rfl rfl
  · intro h
    refine h.imp_of_mem fun {n m} hn hm hinside n' hn' m' hm' hnid hmid => ?_
    rw [eq_of_id hids hn' ((mem_covering ast offset n).mp hn).1 hnid,
      eq_of_id hids hm' ((mem_covering ast offset m).mp hm).1 hmid]
    exact hinside

theorem innermostFirst_iff : InnermostFirst ast ↔ Nested ast := by
  rw [innermostFirst_iff_covering hids]
  constructor
  · intro hfirst n hn m hm
    by_contra hnests
    -- a caret in the later start is in both, and neither is inside the other
    have hboth : covers (max n.span.1 m.span.1) n = true ∧
        covers (max n.span.1 m.span.1) m = true := by
      rw [covers_iff, covers_iff]
      rcases crossing_of_not_nests hnests with hcross | hcross <;> omega
    have hsymm : Std.Symm (fun n m => Inside n m ∨ Inside m n) := ⟨fun _ _ h => h.symm⟩
    have hordered : (covering ast (max n.span.1 m.span.1)).Pairwise
        (fun n m => Inside n m ∨ Inside m n) := (hfirst _).imp Or.inl
    by_cases heq : n = m
    · subst heq
      rcases crossing_of_not_nests hnests with hcross | hcross <;> omega
    · have hinside := hordered.forall ((mem_covering ast _ n).mpr ⟨hn, hboth.1⟩)
        ((mem_covering ast _ m).mpr ⟨hm, hboth.2⟩) heq
      unfold Inside at hinside
      rcases crossing_of_not_nests hnests with hcross | hcross <;>
        rcases hinside with hin | hin <;> omega
  · intro hnested offset
    refine (pairwise_sortByKey caretKey (ast.nodes.filter (covers offset))).imp_of_mem ?_
    intro n m hn hm hkey
    obtain ⟨hn, hnc⟩ := (mem_covering ast offset n).mp hn
    obtain ⟨hm, hmc⟩ := (mem_covering ast offset m).mp hm
    exact inside_of_caretKey_le (hnested n hn m hm) hnc hmc hkey

theorem caretKey_inj {n m : MdNode} (hn : n ∈ ast.nodes) (hm : m ∈ ast.nodes)
    (hkey : caretKey n = caretKey m) : n = m := by
  have hid : n.id.toNat = m.id.toNat := congrArg (fun key => (ofLex key).2) hkey
  exact eq_of_id hids hn hm (UInt64.toNat_inj.mp hid)

theorem covering_increasing (offset : ℕ) :
    (covering ast offset).Pairwise (fun n m => caretKey n < caretKey m) := by
  refine pairwise_lt_sortByKey caretKey (List.Nodup.map_on ?_ ?_)
  · intro n hn m hm hkey
    exact caretKey_inj hids (List.mem_of_mem_filter hn) (List.mem_of_mem_filter hm) hkey
  · exact (List.Nodup.of_map _ hids).filter _

theorem mem_outward {offset : ℕ} {inner outer : List MdNode} {n : MdNode}
    (hlist : covering ast offset = inner ++ n :: outer) (m : MdNode) :
    m ∈ outer ↔ (m ∈ ast.nodes ∧ covers offset m = true) ∧ caretKey n < caretKey m := by
  have hincreasing := covering_increasing hids offset
  rw [hlist] at hincreasing
  rw [mem_behind caretKey hincreasing m, ← hlist, mem_covering]

/-- Where spans nest, what is listed behind a node does not depend on the caret. -/
theorem followsPaths_of_nested (hnested : Nested ast) : FollowsPaths ast := by
  intro offset offset' id inner outer inner' outer' hlist hlist'
  obtain ⟨left, n, right, hnodes, hn, hcovers, hid, rfl⟩ := exists_covering_eq hlist
  obtain ⟨left', n', right', hnodes', hn', hcovers', hid', rfl⟩ :=
    exists_covering_eq hlist'
  obtain rfl := eq_of_id hids hn hn' (hid.trans hid'.symm)
  have hcaret : ∀ {c : ℕ}, covers c n = true → ∀ m ∈ ast.nodes,
      caretKey n < caretKey m → (covers c m = true ↔ Inside n m) := by
    intro c hc m hm hkey
    exact ⟨fun hmc => inside_of_caretKey_le (hnested n hn m hm) hc hmc hkey.le,
      fun hinside => hinside.covers hc⟩
  have hincreasing := covering_increasing hids offset
  have hincreasing' := covering_increasing hids offset'
  rw [hnodes] at hincreasing
  rw [hnodes'] at hincreasing'
  have hirrefl : Std.Irrefl (fun n m : MdNode => caretKey n < caretKey m) :=
    ⟨fun n => lt_irrefl (caretKey n)⟩
  have hsame : right = right' := by
    refine List.Pairwise.eq_of_mem_iff (List.pairwise_append.mp hincreasing).2.1.of_cons
      (List.pairwise_append.mp hincreasing').2.1.of_cons fun m => ?_
    rw [mem_outward hids hnodes, mem_outward hids hnodes']
    constructor
    · intro hfound
      obtain ⟨⟨hm, hmc⟩, hkey⟩ := hfound
      exact ⟨⟨hm, (hcaret hcovers' m hm hkey).mpr ((hcaret hcovers m hm hkey).mp hmc)⟩, hkey⟩
    · intro hfound
      obtain ⟨⟨hm, hmc⟩, hkey⟩ := hfound
      exact ⟨⟨hm, (hcaret hcovers m hm hkey).mpr ((hcaret hcovers' m hm hkey).mp hmc)⟩, hkey⟩
  rw [hsame]

/-- Where answers follow paths, a node around another is around its carets. -/
theorem covers_of_followsPaths (hpaths : FollowsPaths ast) {n m : MdNode} (hn : n ∈ ast.nodes)
    (hm : m ∈ ast.nodes) (hkey : caretKey n < caretKey m) {offset offset' : ℕ}
    (hcovers : covers offset n = true) (hmc : covers offset m = true)
    (hcovers' : covers offset' n = true) : covers offset' m = true := by
  obtain ⟨left, right, hnodes⟩ :=
    List.append_of_mem ((mem_covering ast offset n).mpr ⟨hn, hcovers⟩)
  obtain ⟨left', right', hnodes'⟩ :=
    List.append_of_mem ((mem_covering ast offset' n).mpr ⟨hn, hcovers'⟩)
  have hsplit : ∀ {c : ℕ} {l r : List MdNode}, covering ast c = l ++ n :: r →
      addressesForOffset ast c = l.map MdNode.id ++ n.id :: r.map MdNode.id := by
    intro c l r hlist
    unfold addressesForOffset
    rw [hlist, List.map_append, List.map_cons]
  have hsame := hpaths offset offset' n.id _ _ _ _ (hsplit hnodes) (hsplit hnodes')
  have hmid : m.id ∈ right.map MdNode.id :=
    List.mem_map_of_mem ((mem_outward hids hnodes m).mpr ⟨⟨hm, hmc⟩, hkey⟩)
  rw [hsame] at hmid
  have hlisted : m.id ∈ addressesForOffset ast offset' := by
    rw [hsplit hnodes']
    exact List.mem_append_right _ (List.mem_cons_of_mem _ hmid)
  obtain ⟨m', hm', hid, hmc'⟩ := (mem_addressesForOffset ast offset' m.id).mp hlisted
  rwa [eq_of_id hids hm' hm hid] at hmc'

theorem followsPaths_iff : FollowsPaths ast ↔ Nested ast := by
  refine ⟨fun hpaths => ?_, followsPaths_of_nested hids⟩
  -- of two that cross, the one ranked first has a caret outside the other
  have hcross : ∀ n ∈ ast.nodes, ∀ m ∈ ast.nodes,
      ¬(n.span.1 < m.span.1 ∧ m.span.1 < n.span.2 ∧ n.span.2 < m.span.2) := by
    intro n hn m hm hcross
    have hnc : covers m.span.1 n = true := (covers_iff _ _).mpr (by omega)
    have hmc : covers m.span.1 m = true := (covers_iff _ _).mpr (by omega)
    rcases lt_trichotomy (caretKey n) (caretKey m) with hlt | heq | hlt
    · have hstart : covers n.span.1 n = true := (covers_iff _ _).mpr (by omega)
      have hmstart := covers_of_followsPaths hids hpaths hn hm hlt hnc hmc hstart
      rw [covers_iff] at hmstart
      omega
    · obtain rfl := caretKey_inj hids hn hm heq
      omega
    · have hstop : covers (m.span.2 - 1) m = true := (covers_iff _ _).mpr (by omega)
      have hnstop := covers_of_followsPaths hids hpaths hm hn hlt hmc hnc hstop
      rw [covers_iff] at hnstop
      omega
  intro n hn m hm
  by_contra hnests
  rcases crossing_of_not_nests hnests with h | h
  · exact hcross n hn m hm h
  · exact hcross m hm n hn h

omit hids

/-- The answer at a caret is the nodes around it and nothing else, each once. It lists the
inner before the outer, and is the path from its innermost node outwards, exactly when no two
spans cross. -/
theorem carets_follow_paths (ast : MdAst) (hids : ast.ids.Nodup) :
    (∀ offset, (addressesForOffset ast offset).Nodup ∧
        ∀ id, id ∈ addressesForOffset ast offset ↔
          ∃ n ∈ ast.nodes, n.id = id ∧ covers offset n = true) ∧
      (InnermostFirst ast ↔ Nested ast) ∧ (FollowsPaths ast ↔ Nested ast) :=
  ⟨fun offset => ⟨nodup_addressesForOffset hids offset, mem_addressesForOffset ast offset⟩,
    innermostFirst_iff hids, followsPaths_iff hids⟩

end Ranking

section Lines

def Follow (nodes : List MdNode) : Prop := nodes.Pairwise (fun n m => n.span.2 ≤ m.span.1)

theorem run_follow {domain : Domain} {revision : Revision} {passes : List Pass} {q : Pipeline}
    (hrun : Run Adapts (opened domain revision) passes q) : Follow q.session.ast.nodes := by
  rcases hrun.inv with ⟨_, hq⟩ | ⟨_, pass, u, _, _, hstep⟩
  · rw [hq]
    exact List.Pairwise.nil
  · exact step_ordered hstep.reparsed

/-- A caret in a node of such a tree is in no other. -/
theorem filter_covers {nodes : List MdNode} (hfollow : Follow nodes) {n : MdNode}
    (hn : n ∈ nodes) {offset : ℕ} (hcovers : covers offset n = true) :
    nodes.filter (covers offset) = [n] := by
  obtain ⟨left, right, rfl⟩ := List.append_of_mem hn
  obtain ⟨_, hright, hcross⟩ := List.pairwise_append.mp hfollow
  obtain ⟨hafter, _⟩ := List.pairwise_cons.mp hright
  have hin := (covers_iff offset n).mp hcovers
  have hleft : left.filter (covers offset) = [] := by
    rw [List.filter_eq_nil_iff]
    intro m hm hother
    have hbefore := hcross m hm n (List.mem_cons_self ..)
    rw [covers_iff] at hother
    omega
  have hrest : right.filter (covers offset) = [] := by
    rw [List.filter_eq_nil_iff]
    intro m hm hother
    have hlater := hafter m hm
    rw [covers_iff] at hother
    omega
  rw [List.filter_append, hleft, List.filter_cons_of_pos hcovers, hrest, List.nil_append]

theorem addressesForOffset_eq {ast : MdAst} (hfollow : Follow ast.nodes) {n : MdNode}
    (hn : n ∈ ast.nodes) {offset : ℕ} (hcovers : covers offset n = true) :
    addressesForOffset ast offset = [n.id] := by
  unfold addressesForOffset covering
  rw [filter_covers hfollow hn hcovers]
  rfl

end Lines

section Links

def link (id : UInt64) : String := "md:" ++ toString id

theorem link_injective : Function.Injective link := by
  intro id id' h
  have hlists := congrArg String.toList h
  unfold link at hlists
  rw [String.toList_append, String.toList_append] at hlists
  have hdigits : (Nat.repr id.toNat).toList = (Nat.repr id'.toNat).toList :=
    List.append_cancel_left hlists
  rw [Nat.toList_repr, Nat.toList_repr] at hdigits
  exact UInt64.toNat_inj.mp (decimal_injective hdigits)

end Links

section Runs

variable {d : Domain} {q : Pipeline}

/-- After every run, every record leads to one node by its join key and from any caret in
that node back to itself; and every caret leads to nodes with a record under their key and
address, of which no other record has the key. -/
theorem carets_join (domain : Domain) (revision : Revision) (passes : List Pass)
    (q : Pipeline) (hrun : Run Adapts (opened domain revision) passes q) :
    (∀ x arc, q.snapshot.records.lookup x = some arc → ∃ n ∈ q.session.ast.nodes,
        nodeAddress domain n.id = x ∧
        (∀ m ∈ q.session.ast.nodes, arc.node.sourceLink = link m.id ↔ m = n) ∧
        ∀ offset, covers offset n = true → addressesForOffset q.session.ast offset = [n.id]) ∧
      ∀ offset, ∀ id ∈ addressesForOffset q.session.ast offset,
        ∃ arc, q.snapshot.records.lookup (nodeAddress domain id) = some arc ∧
          ∀ y other, q.snapshot.records.lookup y = some other →
            (other.node.sourceLink = link id ↔ y = nodeAddress domain id) := by
  have hq := run_mirrors hrun
  have hfollow := run_follow hrun
  constructor
  · intro x arc harc
    obtain ⟨n, hn, haddress, hproject⟩ := node_of_lookup hq harc
    have hlink : arc.node.sourceLink = link n.id := congrArg Node.sourceLink hproject.symm
    refine ⟨n, hn, haddress, fun m hm => ?_,
      fun offset hcovers => addressesForOffset_eq hfollow hn hcovers⟩
    rw [hlink]
    constructor
    · intro h
      exact List.inj_on_of_nodup_map hq.session.distinct hm hn (link_injective h).symm
    · intro h
      rw [h]
  · intro offset id hid
    obtain ⟨n, hn, rfl, _⟩ := (mem_addressesForOffset _ _ id).mp hid
    obtain ⟨arc, harc, _⟩ := lookup_node hq hn
    refine ⟨arc, harc, fun y other hother => ?_⟩
    obtain ⟨m, hm, haddress, hproject⟩ := node_of_lookup hq hother
    have hlink : other.node.sourceLink = link m.id := congrArg Node.sourceLink hproject.symm
    rw [hlink, ← haddress]
    constructor
    · intro h
      rw [link_injective h]
    · intro h
      rw [nodeAddress_inj domain (hq.session.positive m hm) (hq.session.positive n hn) h]

end Runs

section Example

def nested : MdAst where
  nodes := [⟨1, .para, "a *b $c$ d* e", (0, 13)⟩, ⟨2, .para, "*b $c$ d*", (2, 11)⟩,
    ⟨3, .formula, "$c$", (5, 8)⟩, ⟨4, .para, "d", (9, 10)⟩]
  source := "a *b $c$ d* e"

/-- From the emphasis outwards there is one path, whatever the caret. -/
theorem carets_follow_paths_nested :
    addressesForOffset nested 6 = [3, 2, 1] ∧ addressesForOffset nested 9 = [4, 2, 1] ∧
      ∀ offset inner outer,
        addressesForOffset nested offset = inner ++ 2 :: outer → outer = [1] := by
  have hids : nested.ids.Nodup := by decide
  have hnested : Nested nested := by
    unfold Nested Nests
    decide
  obtain ⟨_, _, hpaths⟩ := carets_follow_paths nested hids
  refine ⟨rfl, rfl, fun offset inner outer hlist => ?_⟩
  exact hpaths.mpr hnested offset 6 2 inner outer [3] [1] hlist rfl

/-- One line, and a caret in it. -/
theorem carets_join_drafted :
    addressesForOffset drafted.session.ast 0 = [1] ∧
      ∃ arc, drafted.snapshot.records.lookup (nodeAddress dom 1) = some arc ∧
        ∀ y other, drafted.snapshot.records.lookup y = some other →
          (other.node.sourceLink = link 1 ↔ y = nodeAddress dom 1) := by
  have hrun : Run Adapts (opened dom (rev 1)) [drafting] drafted := Run.single drafting_adapts
  obtain ⟨_, hcarets⟩ := carets_join dom (rev 1) [drafting] drafted hrun
  exact ⟨rfl, hcarets 0 1 (by decide)⟩

end Example

end CompositionIr.CaretJoins
