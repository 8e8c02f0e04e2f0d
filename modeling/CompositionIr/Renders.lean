import CompositionIr.Backends
import CompositionIr.DomainConfinement
import CompositionIr.Queries
import CompositionIr.ShownStates

/-!
What the three targets answer, told without their loops. A render answers when every live
address is of the snapshot's own domain and traps otherwise; what it answers is determined
by the records and the placement, up to the order of enumeration that a sort takes away.
-/

namespace CompositionIr.Renders

open Outcomes ChildGraphs Addresses Records Placements Snapshots Deltas Commits
open PublishedStates SubtreeComparison DeltaSpec CommitSpec ShownStates DomainConfinement
open DebugText KeyedMaps Sorting Backends Queries

def OwnKeys (s : Snapshot) : Prop := ∀ a ∈ s.addresses, a.domain = s.version.domain

instance (s : Snapshot) : Decidable (OwnKeys s) :=
  inferInstanceAs (Decidable (∀ a ∈ s.addresses, a.domain = s.version.domain))

theorem nodup_addresses (s : Snapshot) : s.addresses.Nodup := s.records.keys_nodup

/-- What traps on every snapshot with a foreign address answers on no such snapshot. -/
theorem ownKeys_of_done {α : Type} {f : Snapshot → Eval α}
    (hf : ∀ s, ¬ OwnKeys s → f s = .trap .foreignDomain) {s : Snapshot} {r : α}
    (h : f s = .done r) : OwnKeys s := by
  by_contra hs
  rw [hf s hs] at h
  cases h

section Loops

variable {β : Type} {s : Snapshot} {step : β → Address → Eval β} {f : β → Address → β}

structure Reads (s : Snapshot) (step : β → Address → Eval β) (f : β → Address → β) : Prop where
  own : ∀ a ∈ s.addresses, a.domain = s.version.domain → ∀ b, step b a = .done (f b a)
  foreign : ∀ a, a.domain ≠ s.version.domain → ∀ b, step b a = .trap .foreignDomain

theorem Reads.foldlM_own (hreads : Reads s step f) (hs : OwnKeys s) (b : β) :
    s.addresses.foldlM step b = .done (s.addresses.foldl f b) :=
  foldlM_eq_done _ b (fun a ha => hreads.own a ha (hs a ha))

theorem Reads.foldlM_foreign (hreads : Reads s step f) (hs : ¬ OwnKeys s) (b : β) :
    s.addresses.foldlM step b = .trap .foreignDomain := by
  unfold OwnKeys at hs
  push Not at hs
  obtain ⟨a, ha, hdom⟩ := hs
  refine foldlM_eq_trap _ b (fun x hx => ?_) ⟨a, ha, hreads.foreign a hdom⟩
  by_cases hx' : x.domain = s.version.domain
  · exact Or.inl (fun b => ⟨f b x, hreads.own x hx hx' b⟩)
  · exact Or.inr (hreads.foreign x hx')

end Loops

section Immediate

def opAt (s : Snapshot) (a : Address) : Option DrawOp :=
  (s.records.lookup a).map
    (fun n => ⟨a, (s.placement.rect a).getD {}, n.node.paint, n.node.text⟩)

theorem op_own (s : Snapshot) (a : Address) (ha : a.domain = s.version.domain) :
    op s a = .done (opAt s a) := by
  unfold op opAt
  rw [get_own s a ha, Outcome.done_bind]
  cases s.records.lookup a <;> rfl

theorem op_foreign (s : Snapshot) (a : Address) (ha : a.domain ≠ s.version.domain) :
    op s a = .trap .foreignDomain := by
  unfold op
  rw [get_foreign s a ha, Outcome.trap_bind]

theorem address_of_opAt {s : Snapshot} {a : Address} {o : DrawOp} (h : opAt s a = some o) :
    o.address = a := by
  obtain ⟨n, _, ho⟩ := Option.map_eq_some_iff.mp h
  rw [← ho]

theorem opAt_isSome_iff (s : Snapshot) (a : Address) :
    (∃ o, opAt s a = some o) ↔ a ∈ s.addresses := by
  rw [mem_addresses]
  unfold opAt
  cases s.records.lookup a <;> simp

def paintOne (s : Snapshot) (drawn : List DrawOp × Work) (a : Address) : List DrawOp × Work :=
  match opAt s a with
  | some o => (drawn.1 ++ [o], drawn.2.emit.relay)
  | none => drawn

theorem renderOne_reads (s : Snapshot) : Reads s (Raster.renderOne s) (paintOne s) where
  own a _ hdom drawn := by
    unfold Raster.renderOne paintOne
    rw [op_own s a hdom, Outcome.done_bind]
    cases opAt s a <;> rfl
  foreign a hdom drawn := by
    unfold Raster.renderOne
    rw [op_foreign s a hdom, Outcome.trap_bind]

theorem foldl_paintOne (s : Snapshot) (l : List Address) (hl : ∀ a ∈ l, a ∈ s.addresses)
    (ops : List DrawOp) (work : Work) :
    l.foldl (paintOne s) (ops, work) = (ops ++ l.filterMap (opAt s),
      ⟨work.emitted + l.length, work.relaidOut + l.length⟩) := by
  induction l generalizing ops work with
  | nil => simp
  | cons a rest ih =>
    obtain ⟨o, ho⟩ := (opAt_isSome_iff s a).mpr (hl a (List.mem_cons_self ..))
    have hone : paintOne s (ops, work) a = (ops ++ [o], work.emit.relay) := by
      unfold paintOne
      rw [ho]
    rw [List.foldl_cons, hone]
    rw [ih (fun b hb => hl b (List.mem_cons_of_mem _ hb)), List.filterMap_cons, ho]
    simp only [List.append_assoc, List.cons_append, List.nil_append, List.length_cons,
      Work.emit, Work.relay, Prod.mk.injEq, Work.mk.injEq, true_and]
    omega

/-- The draw list as the record map enumerates it. -/
def drawn (s : Snapshot) : List DrawOp := s.addresses.filterMap (opAt s)

theorem mem_drawn (s : Snapshot) (o : DrawOp) : o ∈ drawn s ↔ opAt s o.address = some o := by
  unfold drawn
  rw [List.mem_filterMap]
  constructor
  · intro h
    obtain ⟨a, _, ha⟩ := h
    rwa [address_of_opAt ha]
  · intro h
    exact ⟨o.address, (opAt_isSome_iff s _).mp ⟨o, h⟩, h⟩

/-- Operations painted at one place in the order are of one address. -/
theorem address_of_paintKey {o o' : DrawOp} (h : paintKey o = paintKey o') :
    o.address = o'.address := by
  obtain ⟨_, hrest⟩ := Prod.mk.inj (toLex.injective h)
  exact (Prod.mk.inj (toLex.injective hrest)).2

theorem raster_own (s : Snapshot) (hs : OwnKeys s) :
    Raster.render s = .done (⟨sortByKey paintKey (drawn s)⟩, ⟨s.len, s.len⟩) := by
  unfold Raster.render
  rw [(renderOne_reads s).foldlM_own hs, foldl_paintOne s _ (fun _ ha => ha)]
  simp only [Outcome.done_bind, List.nil_append, Nat.zero_add]
  rfl

theorem raster_foreign (s : Snapshot) (hs : ¬ OwnKeys s) :
    Raster.render s = .trap .foreignDomain := by
  unfold Raster.render
  rw [(renderOne_reads s).foldlM_foreign hs, Outcome.trap_bind]

end Immediate

section Retained

def elementAt (s : Snapshot) (a : Address) : Option (List Char) :=
  (s.records.lookup a).map (fun n => elementText a ((s.placement.rect a).getD {})
    (hex n.node.paint) n.node.text.toList)

theorem element_own (s : Snapshot) (a : Address) (ha : a.domain = s.version.domain)
    (text : List Char) (h : elementAt s a = some text) : element s a = .done text := by
  obtain ⟨n, hn, htext⟩ := Option.map_eq_some_iff.mp h
  unfold element
  rw [get_own s a ha, Outcome.done_bind, hn, ← htext]
  rfl

theorem element_foreign (s : Snapshot) (a : Address) (ha : a.domain ≠ s.version.domain) :
    element s a = .trap .foreignDomain := by
  unfold element
  rw [get_foreign s a ha, Outcome.trap_bind]

theorem elementAt_isSome_iff (s : Snapshot) (a : Address) :
    (∃ text, elementAt s a = some text) ↔ a ∈ s.addresses := by
  rw [mem_addresses]
  unfold elementAt
  cases s.records.lookup a <;> simp

def retainOne (s : Snapshot) (out : Svg × Work) (a : Address) : Svg × Work :=
  (⟨out.1.elements.insert (debugAddress a) ((elementAt s a).getD [])⟩, out.2.emit.relay)

theorem svgRenderOne_reads (s : Snapshot) : Reads s (Svg.renderOne s) (retainOne s) where
  own a ha hdom out := by
    obtain ⟨text, htext⟩ := (elementAt_isSome_iff s a).mpr ha
    unfold Svg.renderOne retainOne
    rw [element_own s a hdom text htext, htext]
    rfl
  foreign a hdom out := by
    unfold Svg.renderOne
    rw [element_foreign s a hdom, Outcome.trap_bind]

def HoldsElements (s : Snapshot) (elements : KeyedMap (List Char) (List Char)) : Prop :=
  ∀ key text, elements.lookup key = some text ↔
    ∃ a, key = debugAddress a ∧ elementAt s a = some text

theorem HoldsElements.eq {s : Snapshot} {elements elements' : KeyedMap (List Char) (List Char)}
    (h : HoldsElements s elements) (h' : HoldsElements s elements') : elements = elements' := by
  apply Finmap.ext_lookup
  intro key
  apply Option.ext
  intro text
  rw [h, h']

theorem HoldsElements.lookup_debug {s : Snapshot} {elements : KeyedMap (List Char) (List Char)}
    (h : HoldsElements s elements) (a : Address) :
    elements.lookup (debugAddress a) = elementAt s a := by
  apply Option.ext
  intro text
  rw [h]
  constructor
  · rintro ⟨b, hba, htext⟩
    rwa [debugAddress_injective hba]
  · intro htext
    exact ⟨a, rfl, htext⟩

theorem HoldsElements.lookup_none {s : Snapshot} {elements : KeyedMap (List Char) (List Char)}
    (h : HoldsElements s elements) {key : List Char} (hkey : ¬ ∃ a, key = debugAddress a) :
    elements.lookup key = none := by
  cases htext : elements.lookup key with
  | none => rfl
  | some text =>
    obtain ⟨a, ha, _⟩ := (h key text).mp htext
    exact absurd ⟨a, ha⟩ hkey

theorem foldl_retainOne (s : Snapshot) (l : List Address) (hl : ∀ a ∈ l, a ∈ s.addresses)
    (out : Svg × Work) :
    (l.foldl (retainOne s) out).2 =
        ⟨out.2.emitted + l.length, out.2.relaidOut + l.length⟩ ∧
      ∀ key text, (l.foldl (retainOne s) out).1.elements.lookup key = some text ↔
        (∃ a ∈ l, key = debugAddress a ∧ elementAt s a = some text) ∨
          ((∀ a ∈ l, key ≠ debugAddress a) ∧ out.1.elements.lookup key = some text) := by
  induction l generalizing out with
  | nil => simp
  | cons a rest ih =>
    obtain ⟨hwork, hlookup⟩ := ih (fun b hb => hl b (List.mem_cons_of_mem _ hb)) (retainOne s out a)
    obtain ⟨text₀, htext₀⟩ := (elementAt_isSome_iff s a).mpr (hl a (List.mem_cons_self ..))
    rw [List.foldl_cons]
    constructor
    · rw [hwork]
      simp only [retainOne, Work.emit, Work.relay, List.length_cons, Work.mk.injEq]
      omega
    · intro key text
      rw [hlookup key text]
      unfold retainOne
      by_cases hkey : key = debugAddress a
      · subst hkey
        simp only [Finmap.lookup_insert, htext₀, Option.getD_some, List.mem_cons,
          exists_eq_or_imp, forall_eq_or_imp, true_and, ne_eq, not_true_eq_false, false_and,
          or_false, Option.some.injEq]
        constructor
        · rintro (h | ⟨_, h⟩)
          · exact Or.inr h
          · exact Or.inl h
        · rintro (h | ⟨b, hb, hba, htext⟩)
          · by_cases hin : a ∈ rest
            · exact Or.inl ⟨a, hin, rfl, by rw [htext₀, h]⟩
            · refine Or.inr ⟨fun b hb hba => hin ?_, h⟩
              rwa [debugAddress_injective hba]
          · exact Or.inl ⟨b, hb, hba, htext⟩
      · rw [Finmap.lookup_insert_of_ne _ hkey]
        simp only [List.mem_cons, exists_eq_or_imp, forall_eq_or_imp, hkey, false_and, false_or,
          ne_eq, not_false_eq_true, true_and]

/-- The elements a render of the snapshot holds. -/
theorem svg_own (s : Snapshot) (hs : OwnKeys s) :
    ∃ elements, Svg.render s = .done (⟨elements⟩, ⟨s.len, s.len⟩) ∧ HoldsElements s elements := by
  obtain ⟨hwork, hlookup⟩ := foldl_retainOne s s.addresses (fun _ ha => ha) (⟨∅⟩, {})
  have hrender := (svgRenderOne_reads s).foldlM_own hs (⟨∅⟩, {})
  refine ⟨(s.addresses.foldl (retainOne s) (⟨∅⟩, {})).1.elements, ?_, fun key text => ?_⟩
  · unfold Svg.render
    rw [hrender]
    congr 1
    refine Prod.ext rfl ?_
    rw [hwork]
    simp [Snapshot.len, Snapshot.addresses]
  · rw [hlookup key text]
    simp only [Finmap.lookup_empty, reduceCtorEq, and_false, or_false]
    constructor
    · rintro ⟨a, _, h⟩
      exact ⟨a, h⟩
    · rintro ⟨a, hkey, htext⟩
      exact ⟨a, (elementAt_isSome_iff s a).mp ⟨text, htext⟩, hkey, htext⟩

theorem svg_foreign (s : Snapshot) (hs : ¬ OwnKeys s) : Svg.render s = .trap .foreignDomain :=
  (svgRenderOne_reads s).foldlM_foreign hs _

end Retained

section Paginated

def fragmentsOf (s : Snapshot) (a : Address) : List UInt32 :=
  ((s.records.lookup a).map (fun n => n.node.fragments)).getD []

def landed (s : Snapshot) (f : UInt32) (a : Address) : List Address :=
  if a.space = Space.resource then [] else List.replicate ((fragmentsOf s a).count f) a

def paginateOne (s : Snapshot) (out : Paged × Work) (a : Address) : Paged × Work :=
  if a.space = Space.resource then (⟨out.1.pages, insert a out.1.resources⟩, out.2)
  else (⟨(fragmentsOf s a).foldl (fun pages f => push pages f a) out.1.pages,
    out.1.resources⟩, out.2.emit.relay)

theorem pagedRenderOne_reads (s : Snapshot) : Reads s (Paged.renderOne s) (paginateOne s) where
  own a ha hdom out := by
    obtain ⟨n, hn⟩ := (mem_addresses s a).mp ha
    unfold Paged.renderOne paginateOne fragmentsOf
    rw [get_own s a hdom, hn]
    by_cases hspace : a.space = Space.resource
    · simp [hspace]
    · simp [hspace]
  foreign a hdom out := by
    unfold Paged.renderOne
    simp only [get_foreign s a hdom, Outcome.trap_bind]

theorem listed_foldl_push (l : List UInt32) (a : Address) (f : UInt32)
    (pages : KeyedMap UInt32 (List Address)) :
    listed (l.foldl (fun pages f => push pages f a) pages) f =
      listed pages f ++ List.replicate (l.count f) a := by
  induction l generalizing pages with
  | nil => simp
  | cons g rest ih =>
    rw [List.foldl_cons, ih, listed_push]
    by_cases hg : f = g
    · subst hg
      rw [if_pos rfl, List.count_cons_self, List.replicate_succ, List.append_assoc]
      rfl
    · rw [if_neg hg, List.count_cons_of_ne (Ne.symm hg)]

theorem foldl_push_ne_nil (l : List UInt32) (a : Address) (pages : KeyedMap UInt32 (List Address))
    (hpages : ∀ f, pages.lookup f ≠ some []) :
    ∀ f, (l.foldl (fun pages f => push pages f a) pages).lookup f ≠ some [] := by
  induction l generalizing pages with
  | nil => exact hpages
  | cons g rest ih => exact ih _ (push_ne_nil hpages g a)

/-- What the loop over the records leaves on the pages and among the resources. -/
theorem foldl_paginateOne (s : Snapshot) (l : List Address) (out : Paged × Work)
    (hout : ∀ f, out.1.pages.lookup f ≠ some []) :
    (∀ f, (l.foldl (paginateOne s) out).1.pages.lookup f ≠ some []) ∧
      (∀ f, listed (l.foldl (paginateOne s) out).1.pages f =
        listed out.1.pages f ++ l.flatMap (landed s f)) ∧
      (∀ a, a ∈ (l.foldl (paginateOne s) out).1.resources ↔
        a ∈ out.1.resources ∨ (a ∈ l ∧ a.space = Space.resource)) ∧
      (l.foldl (paginateOne s) out).2 =
        ⟨out.2.emitted + l.countP (fun a => a.space != Space.resource),
          out.2.relaidOut + l.countP (fun a => a.space != Space.resource)⟩ := by
  induction l generalizing out with
  | nil => simp [hout]
  | cons a rest ih =>
    rw [List.foldl_cons]
    by_cases hspace : a.space = Space.resource
    · have hone : paginateOne s out a = (⟨out.1.pages, insert a out.1.resources⟩, out.2) :=
        if_pos hspace
      obtain ⟨hne, hlisted, hres, hwork⟩ := ih (paginateOne s out a) (by rw [hone]; exact hout)
      refine ⟨hne, fun f => ?_, fun b => ?_, ?_⟩
      · rw [hlisted, hone, List.flatMap_cons]
        simp [landed, hspace]
      · rw [hres, hone, Finset.mem_insert, List.mem_cons]
        constructor
        · rintro ((rfl | h) | ⟨h, hb⟩)
          · exact Or.inr ⟨Or.inl rfl, hspace⟩
          · exact Or.inl h
          · exact Or.inr ⟨Or.inr h, hb⟩
        · rintro (h | ⟨rfl | h, hb⟩)
          · exact Or.inl (Or.inr h)
          · exact Or.inl (Or.inl rfl)
          · exact Or.inr ⟨h, hb⟩
      · rw [hwork, hone, List.countP_cons_of_neg (by simp [hspace])]
    · have hone : paginateOne s out a =
          (⟨(fragmentsOf s a).foldl (fun pages f => push pages f a) out.1.pages,
            out.1.resources⟩, out.2.emit.relay) := if_neg hspace
      obtain ⟨hne, hlisted, hres, hwork⟩ := ih (paginateOne s out a) (by
        rw [hone]
        exact foldl_push_ne_nil _ a _ hout)
      refine ⟨hne, fun f => ?_, fun b => ?_, ?_⟩
      · rw [hlisted, hone, List.flatMap_cons, listed_foldl_push, List.append_assoc]
        simp [landed, hspace]
      · rw [hres, hone, List.mem_cons]
        constructor
        · rintro (h | ⟨h, hb⟩)
          · exact Or.inl h
          · exact Or.inr ⟨Or.inr h, hb⟩
        · rintro (h | ⟨rfl | h, hb⟩)
          · exact Or.inl h
          · exact absurd hb hspace
          · exact Or.inr ⟨h, hb⟩
      · rw [hwork, hone, List.countP_cons_of_pos (by simp [hspace])]
        simp only [Work.emit, Work.relay, Work.mk.injEq]
        omega

def landing (s : Snapshot) (f : UInt32) : List Address := s.addresses.flatMap (landed s f)

/-- The pages hold what landed on them, sorted, and no page is empty; the resources are the
live addresses of their space. -/
structure HoldsPages (s : Snapshot) (paged : Paged) : Prop where
  nonempty : ∀ f, paged.pages.lookup f ≠ some []
  listed : ∀ f, listed paged.pages f = sort (landing s f)
  resources : ∀ a, a ∈ paged.resources ↔ a ∈ s.addresses ∧ a.space = Space.resource

theorem paged_own (s : Snapshot) (hs : OwnKeys s) :
    ∃ paged, Paged.render s = .done (paged,
        ⟨s.addresses.countP (fun a => a.space != Space.resource),
          s.addresses.countP (fun a => a.space != Space.resource)⟩) ∧ HoldsPages s paged := by
  have hempty : ∀ f, (∅ : KeyedMap UInt32 (List Address)).lookup f ≠ some [] := by simp
  obtain ⟨hne, hlisted, hres, hwork⟩ := foldl_paginateOne s s.addresses (⟨∅, ∅⟩, {}) hempty
  have hrender := (pagedRenderOne_reads s).foldlM_own hs (⟨∅, ∅⟩, {})
  generalize s.addresses.foldl (paginateOne s) (⟨∅, ∅⟩, {}) = out at hne hlisted hres hwork hrender
  refine ⟨⟨mapValues sort out.1.pages, out.1.resources⟩, ?_, ?_, fun f => ?_, fun a => ?_⟩
  · unfold Paged.render
    obtain ⟨paged, work⟩ := out
    simp only at hwork
    rw [hrender, Outcome.done_bind, hwork]
    simp
  · intro f h
    rw [lookup_mapValues, Option.map_eq_some_iff] at h
    obtain ⟨on, hon, hsort⟩ := h
    have hnil : on = [] := List.perm_nil.mp (hsort ▸ (perm_sortByKey id on).symm)
    exact hne f (by rw [hon, hnil])
  · have hf := hlisted f
    unfold KeyedMaps.listed at hf ⊢
    rw [lookup_mapValues]
    rw [Finmap.lookup_empty] at hf
    unfold landing
    rw [← List.nil_append (s.addresses.flatMap (landed s f))]
    change _ = [] ++ _ at hf
    rw [← hf]
    cases out.1.pages.lookup f <;> rfl
  · rw [hres]
    simp

theorem paged_foreign (s : Snapshot) (hs : ¬ OwnKeys s) :
    Paged.render s = .trap .foreignDomain := by
  unfold Paged.render
  rw [(pagedRenderOne_reads s).foldlM_foreign hs, Outcome.trap_bind]

def fragmentOne (s : Snapshot) (f : UInt32) (found : List Address × Cost) (a : Address) :
    List Address × Cost :=
  (if (fragmentsOf s a).contains f then found.1 ++ [a] else found.1,
    { found.2 with recordsScanned := found.2.recordsScanned + 1 })

theorem fragmentRound_reads (s : Snapshot) (f : UInt32) :
    Reads s (fragmentRound s f) (fragmentOne s f) where
  own a ha hdom found := by
    obtain ⟨n, hn⟩ := (mem_addresses s a).mp ha
    unfold fragmentRound fragmentOne fragmentsOf
    rw [get_own s a hdom, hn]
    by_cases hf : f ∈ n.node.fragments
    · simp [hf]
    · simp [hf]
  foreign a hdom found := by
    unfold fragmentRound
    rw [get_foreign s a hdom, Outcome.trap_bind]

theorem foldl_fragmentOne (s : Snapshot) (f : UInt32) (l : List Address)
    (found : List Address × Cost) :
    l.foldl (fragmentOne s f) found =
      (found.1 ++ l.filter (fun a => (fragmentsOf s a).contains f),
        { found.2 with recordsScanned := found.2.recordsScanned + l.length }) := by
  induction l generalizing found with
  | nil => simp
  | cons a rest ih =>
    rw [List.foldl_cons, ih, List.filter_cons]
    unfold fragmentOne
    simp only [Prod.mk.injEq, Cost.mk.injEq, and_true, List.length_cons]
    refine ⟨?_, by omega⟩
    by_cases hf : (fragmentsOf s a).contains f = true
    · rw [if_pos hf, if_pos hf, List.append_assoc]
      rfl
    · rw [if_neg hf, if_neg hf]

/-- The page query returns the live addresses that list the fragment, ascending. -/
theorem onFragment_own (s : Snapshot) (hs : OwnKeys s) (f : UInt32) :
    onFragment s f = .done (sort (s.addresses.filter (fun a => (fragmentsOf s a).contains f)),
      { recordsScanned := s.len }) := by
  unfold onFragment
  rw [(fragmentRound_reads s f).foldlM_own hs, foldl_fragmentOne, Outcome.done_bind]
  simp [Snapshot.len, Snapshot.addresses]

theorem onFragment_foreign (s : Snapshot) (hs : ¬ OwnKeys s) (f : UInt32) :
    onFragment s f = .trap .foreignDomain := by
  unfold onFragment
  rw [(fragmentRound_reads s f).foldlM_foreign hs, Outcome.trap_bind]

end Paginated

section Commits

inductive Committed : Snapshot → Commit → Snapshot → Prop
  | of {s : Snapshot} {edits : List Edit} {heap heap' : Heap} {b : SnapshotBuilder} {fuel : ℕ}
      {c : Commit} (hedits : Edit.applyAll edits s.edit heap = .done (b, heap'))
      (hcommit : commit b fuel = .done c) : Committed s c c.snapshot

/-- What a target can rely on in the entries between two snapshots. -/
structure Reported (s t : Snapshot) (diffs : List Diff) : Prop where
  domain : t.version.domain = s.version.domain
  keys : OwnKeys t
  describes : Describes (DiffersAt s t) s.records t.records diffs
  own : ∀ d ∈ diffs, d.address.domain = t.version.domain

/-- A builder that could commit was opened on a snapshot of its own domain, and so is what
it published. -/
theorem commit_reported (b : SnapshotBuilder) (fuel : ℕ) (c : Commit)
    (hcommit : commit b fuel = .done c) : OwnKeys b.base ∧
      Reported b.base c.snapshot c.delta.diffs := by
  have hdom := commit_domain b fuel c hcommit
  have hdesc := commit_describes b fuel c hcommit
  obtain ⟨revision, _, hdiffs⟩ := commit_diffs b fuel c hcommit
  have hscanned := scanned_own_of_done hdiffs
  have hold : OwnKeys b.base := by
    intro a ha
    exact hscanned a ((mem_scanned _ _ a).mpr (Or.inl ha))
  have hnew : ∀ a ∈ c.snapshot.addresses, a.domain = b.base.version.domain := by
    intro a ha
    unfold Snapshot.addresses at ha
    rcases commit_records b fuel c hcommit with hrec | hrec
    · rw [hrec] at ha
      exact hold a ha
    · rw [hrec] at ha
      exact hscanned a ((mem_scanned _ _ a).mpr (Or.inr ha))
  refine ⟨hold, hdom, fun a ha => (hnew a ha).trans hdom.symm, hdesc, fun d hd => ?_⟩
  have hdiffers := (hdesc.named d.address).mp (List.mem_map_of_mem hd)
  have hlive := mem_scanned_of_differs b.base c.snapshot d.address hdiffers
  rw [mem_scanned] at hlive
  rw [hdom]
  exact hlive.elim (hold d.address) (hnew d.address)

theorem committed_reported {s t : Snapshot} {c : Commit} (h : Committed s c t) :
    t = c.snapshot ∧ Reported s c.snapshot c.delta.diffs := by
  obtain ⟨hedits, hcommit⟩ := h
  rename_i edits heap heap' b fuel
  have hbase : b.base = s := applyAll_base edits s.edit b heap heap' hedits
  have hreported := (commit_reported b fuel c hcommit).2
  rw [hbase] at hreported
  exact ⟨rfl, hreported⟩

namespace Reported

variable {s t : Snapshot} {diffs : List Diff}

theorem nodup (h : Reported s t diffs) : (diffs.map Diff.address).Nodup :=
  h.describes.ascending.imp (fun hlt => ne_of_lt hlt)

/-- An address without an entry shows the same projection on both sides. -/
theorem state_eq (h : Reported s t diffs) {a : Address} (ha : ¬ Named diffs a) :
    state s.records a = state t.records a := by
  by_contra hne
  exact ha ((named_iff h.describes a).mpr (Differs.seed hne))

end Reported

end Commits

end CompositionIr.Renders
