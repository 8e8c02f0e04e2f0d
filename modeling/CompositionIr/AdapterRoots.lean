import CompositionIr.AdapterRuns

/-!
The roots over the runs of the adapter. A commit that publishes roots the first node
behind the roots it has from its base, from which only the retired are gone; so the
first node is the one root as long as each old first node is retired or nothing at all
is published.
-/

namespace CompositionIr.AdapterRoots

open Outcomes Transitions Addresses Records Placements Snapshots Deltas Commits
open PublishedStates CommitSpec CallEffects Frontends Identities
open Adapters AdapterEffects AdapterRuns

/-- The first node of the tree is the one root; there is none where the tree is empty. -/
def FirstRooted (domain : Domain) (ast : MdAst) (s : Snapshot) : Prop :=
  match ast.nodes.head? with
  | some first => ∃ a, address domain first.id = .done a ∧ s.roots = [a]
  | none => s.roots = []

/-- The reparse reports nothing, or it retires the first node of the tree it replaces,
where that has one. -/
def Reroots (q : Pipeline) (pass : Pass) : Prop :=
  (pass.call.delta.touched = [] ∧ pass.call.delta.retired = []) ∨
    ∀ first, q.session.ast.nodes.head? = some first → first.id ∈ pass.call.delta.retired

section Passes

variable {d : Domain} {q q' : Pipeline} {pass : Pass}

theorem firstRooted_iff (s : MdSession) (hs : WellIdentified s) (t : Snapshot) :
    FirstRooted d s.ast t ↔ t.roots = firstOf d s.ast.nodes := by
  unfold FirstRooted firstOf
  cases hhead : s.ast.nodes.head? with
  | none => rfl
  | some first =>
    have hpos := hs.positive first (List.mem_of_head? hhead)
    constructor
    · intro h
      obtain ⟨a, haddress, hroots⟩ := h
      rw [hroots, (address_eq_done d first.id a haddress).2]
      rfl
    · exact fun hroots => ⟨nodeAddress d first.id, address_eq d first.id hpos, hroots⟩

theorem firstOf_congr {nodes nodes' : List MdNode} (h : placedAt d nodes = placedAt d nodes') :
    firstOf d nodes = firstOf d nodes' := by
  have hhead : ∀ nodes : List MdNode,
      firstOf d nodes = ((placedAt d nodes).head?.map Prod.fst).toList := by
    intro nodes
    cases nodes <;> rfl
  rw [hhead, hhead, h]

/-- The first node's root is dropped exactly when the first node goes. -/
theorem keptRoots_firstOf {s s' : MdSession} {call : Reparse} (hs : WellIdentified s)
    (hstep : Step s call s') :
    keptRoots d s'.ast.nodes (firstOf d s.ast.nodes) = [] ↔
      ∀ first, s.ast.nodes.head? = some first → first.id ∈ call.delta.retired := by
  have hs' := step_wellIdentified hs hstep
  unfold keptRoots firstOf
  cases hhead : s.ast.nodes.head? with
  | none => simp
  | some first =>
    have hfirst := List.mem_of_head? hhead
    have hmem : first.id ∈ s.ast.ids := List.mem_map.mpr ⟨first, hfirst, rfl⟩
    have hlive := mem_ids_of_address d hs' (hs.positive first hfirst)
    simp only [Option.map_some, Option.toList_some, List.filter_eq_nil_iff, List.mem_singleton,
      forall_eq, List.contains_iff_mem, List.mem_map, Option.some.injEq, forall_eq']
    rw [(step_reports hs hstep).retired, ← hlive]
    exact (and_iff_right hmem).symm

/-- Where the first node was the one root, it is so after a pass exactly when the pass
reports nothing or retires the first node there was. -/
theorem pass_roots_iff (hq : Mirrors d q) (hfirst : FirstRooted d q.session.ast q.snapshot)
    (hpass : Adapts q pass q') :
    FirstRooted d pass.ast pass.commit.snapshot ↔ Reroots q pass := by
  obtain ⟨b, fuel, hb, hcommit⟩ := pass_builds hq hpass
  have hs' := step_wellIdentified hq.session hpass.reparsed
  have hroots := builds_roots hb hcommit
  rw [hpass.ast] at hb hroots ⊢
  have hquiet := builds_unchanged_iff hq hpass.reparsed hb
  rw [firstRooted_iff _ hq.session] at hfirst
  rw [firstRooted_iff _ hs']
  unfold Reroots
  rw [← hquiet, ← keptRoots_firstOf (d := d) hq.session hpass.reparsed, ← hfirst]
  rcases hroots with ⟨hun, hsame⟩ | ⟨hun, hnew⟩
  · refine iff_of_true ?_ (Or.inl hun)
    rw [hsame, hfirst, firstOf_congr ((builds_unchanged hq hb).mp hun).2]
  · rw [hnew, or_iff_right hun]
    exact List.append_left_eq_self

end Passes

section Runs

variable {domain : Domain} {revision : Revision} {passes : List Pass} {q : Pipeline}

theorem firstRooted_opened : FirstRooted domain (opened domain revision).session.ast
    (opened domain revision).snapshot := rfl

/-- After a run whose passes all leave the first node as the one root, it is that. -/
theorem run_firstRooted (hrun : Run Adapts (opened domain revision) passes q)
    (hpasses : ∀ pass ∈ passes, FirstRooted domain pass.ast pass.commit.snapshot) :
    FirstRooted domain q.session.ast q.snapshot := by
  rcases hrun.inv with ⟨_, hsame⟩ | ⟨left, pass, u, hsplit, _, hpass⟩
  · rw [hsame]
    exact firstRooted_opened
  · have hone := hpasses pass (by rw [hsplit]; simp)
    rw [hpass.ast, ← hpass.published] at hone
    exact hone

theorem run_of_firstRooted (hrun : Run Adapts (opened domain revision) passes q)
    (hpasses : ∀ pass ∈ passes, FirstRooted domain pass.ast pass.commit.snapshot) :
    Run (Meeting Reroots Adapts) (opened domain revision) passes q := by
  induction hrun with
  | nil => exact Run.nil _
  | @snoc t u passes pass hrun hpass ih =>
    have hbefore : ∀ pass ∈ passes, FirstRooted domain pass.ast pass.commit.snapshot :=
      fun pass' hmem => hpasses pass' (List.mem_append_left _ hmem)
    have hone := hpasses pass (List.mem_append_right _ (List.mem_singleton_self _))
    have hfirst := run_firstRooted hrun hbefore
    have hreroots := (pass_roots_iff (run_mirrors hrun) hfirst hpass).mp hone
    exact (ih hbefore).snoc ⟨hreroots, hpass⟩

theorem firstRooted_of_run (hrun : Run (Meeting Reroots Adapts) (opened domain revision) passes q) :
    ∀ pass ∈ passes, FirstRooted domain pass.ast pass.commit.snapshot := by
  induction hrun with
  | nil =>
    intro pass hmem
    cases hmem
  | @snoc t u passes pass hrun hpass ih =>
    have hadapts := hrun.mono (fun _ _ _ h => h.2)
    intro pass' hmem
    rcases List.mem_append.mp hmem with hmem | hmem
    · exact ih pass' hmem
    · rw [List.mem_singleton.mp hmem]
      have hfirst := run_firstRooted hadapts ih
      exact (pass_roots_iff (run_mirrors hadapts) hfirst hpass.2).mpr hpass.1

end Runs

/-- In a run the first node is the one root after every pass exactly when every pass that
reports anything retires the first node there was. -/
theorem roots_track_iff (domain : Domain) (revision : Revision) (passes : List Pass)
    (q : Pipeline) (hrun : Run Adapts (opened domain revision) passes q) :
    (∀ pass ∈ passes, FirstRooted domain pass.ast pass.commit.snapshot) ↔
      Run (Meeting Reroots Adapts) (opened domain revision) passes q :=
  ⟨run_of_firstRooted hrun, firstRooted_of_run⟩

section Example

def heading : MdNode := ⟨2, .heading, "# a", (0, 3)⟩

def promoting : Pass where
  call := ⟨"# a\n", ⟨[2], [1]⟩⟩
  ast := ⟨[heading], "# a\n"⟩
  report := ⟨[2], [1]⟩
  commit := publishing (shown 3 1 [heading] [2]) 2
    [⟨nodeAddress dom 1, ⟨0⟩⟩, ⟨nodeAddress dom 2, ⟨0x7ff⟩⟩]

theorem roots_track_promoting :
    ∃ q, Run Adapts (opened dom (rev 1)) [drafting, promoting] q ∧
      ∀ pass ∈ [drafting, promoting], FirstRooted dom pass.ast pass.commit.snapshot := by
  have hstep : Step drafted.session promoting.call (paragraphs 2 "# a\n" [heading]) := by
    unfold Step
    decide
  have hpromoting : Adapts drafted promoting ⟨paragraphs 2 "# a\n" [heading],
      promoting.commit.snapshot⟩ :=
    ⟨hstep, rfl, enlarges_own drafted_wellIdentified hstep, ⟨⟨1⟩, 2, _, _, rfl⟩, rfl⟩
  have hfirst : Meeting Reroots Adapts (opened dom (rev 1)) drafting drafted :=
    ⟨Or.inr (fun _ h => by cases h), drafting_adapts⟩
  have hsecond : Meeting Reroots Adapts drafted promoting _ :=
    ⟨Or.inr (fun n h => by rw [← Option.some.inj h]; decide), hpromoting⟩
  have hrun := (Run.single drafting_adapts).snoc hpromoting
  exact ⟨_, hrun, (roots_track_iff dom (rev 1) _ _ hrun).mpr
    ((Run.single hfirst).snoc hsecond)⟩

def rewriting : Pass where
  call := ⟨"b\n", ⟨[1], []⟩⟩
  ast := ⟨[⟨1, .para, "b", (0, 1)⟩], "b\n"⟩
  report := ⟨[1], []⟩
  commit := publishing (shown 3 1 [⟨1, .para, "b", (0, 1)⟩] [1, 1]) 2
    [⟨nodeAddress dom 1, ⟨0x00a⟩⟩]

theorem edited_first_line_rooted_twice :
    ∃ q, Run Adapts (opened dom (rev 1)) [drafting, rewriting] q ∧
      q.snapshot.roots = [nodeAddress dom 1, nodeAddress dom 1] ∧
      ¬ FirstRooted dom rewriting.ast rewriting.commit.snapshot := by
  have hstep : Step drafted.session rewriting.call ⟨1, rewriting.ast⟩ := by
    unfold Step
    decide
  have hrewriting : Adapts drafted rewriting ⟨⟨1, rewriting.ast⟩, rewriting.commit.snapshot⟩ :=
    ⟨hstep, rfl, enlarges_own drafted_wellIdentified hstep, ⟨⟨1⟩, 2, _, _, rfl⟩, rfl⟩
  refine ⟨_, (Run.single drafting_adapts).snoc hrewriting, rfl, fun h => ?_⟩
  obtain ⟨a, _, hroots⟩ := h
  have hlength := congrArg List.length hroots
  cases hlength

end Example

end CompositionIr.AdapterRoots
