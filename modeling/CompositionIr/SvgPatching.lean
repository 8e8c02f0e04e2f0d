import CompositionIr.Rasters

/-!
Patching a retained target. An entry that names no geometry takes a fast path, which cuts
the serialized element at its own delimiters to put the new fill in. The piece it keeps is
the one before the fill ends, so the text of the record is lost, and no element rewritten
this way is one a render holds.
-/

namespace CompositionIr.SvgPatching

open Outcomes ChildGraphs Addresses Records Placements Snapshots Deltas Commits
open PublishedStates DeltaSpec Texts DebugText KeyedMaps Backends Renders

section FastPath

theorem digitChar_ne {c : Char} (hc : ∀ k < 16, Nat.digitChar k ≠ c) (b : UInt8) :
    c ∉ hexByte b := by
  have hlt := b.toNat_lt
  unfold hexByte
  simp only [List.mem_cons, List.not_mem_nil, or_false, not_or]
  exact ⟨(hc _ (by omega)).symm, (hc _ (by omega)).symm⟩

theorem notMem_hex {c : Char} (hsharp : c ≠ '#') (hc : ∀ k < 16, Nat.digitChar k ≠ c)
    (p : Rgba) : c ∉ hex p := by
  unfold hex
  simp only [List.mem_cons, List.mem_append, not_or]
  exact ⟨hsharp, ⟨digitChar_ne hc p.r, digitChar_ne hc p.g⟩, digitChar_ne hc p.b⟩

theorem quote_notMem_hex (p : Rgba) : '"' ∉ hex p := notMem_hex (by decide) (by decide) p

theorem quote_notMem_debugAddress (a : Address) : '"' ∉ debugAddress a :=
  notMem_debugAddress (by decide) (fun s => by cases s <;> decide) (by decide) a

theorem f_notMem_debugAddress (a : Address) : 'f' ∉ debugAddress a :=
  notMem_debugAddress (by decide) (fun s => by cases s <;> decide) (by decide) a

/-- An element up to where its text begins. -/
def opening (a : Address) (r : Rect) (fill : List Char) : List Char :=
  "<g id=\"".toList ++ debugAddress a ++ "\" transform=\"translate(".toList ++ signed r.x ++
    ",".toList ++ signed r.y ++ ")\"><text ".toList ++ "fill=\"".toList ++ fill ++ "\">".toList

theorem elementText_eq (a : Address) (r : Rect) (fill text : List Char) :
    elementText a r fill text = opening a r fill ++ (text ++ "</text></g>".toList) := by
  unfold elementText opening
  simp

/-- The piece before the fill is the element up to there. -/
theorem first_piece (a : Address) (r : Rect) (fill rest : List Char) :
    (split "fill=\"".toList (opening a r fill ++ rest)).headD [] =
      "<g id=\"".toList ++ debugAddress a ++ "\" transform=\"translate(".toList ++ signed r.x ++
        ",".toList ++ signed r.y ++ ")\"><text ".toList := by
  have hfirst : 'f' ∉ "<g id=\"".toList ++ debugAddress a ++ "\" trans".toList := by
    simp only [List.mem_append, not_or]
    exact ⟨⟨by decide, f_notMem_debugAddress a⟩, by decide⟩
  have hsecond : 'f' ∉ "orm=\"translate(".toList ++ signed r.x ++ ",".toList ++ signed r.y ++
      ")\"><text ".toList := by
    simp only [List.mem_append, not_or]
    exact ⟨⟨⟨⟨by decide, notMem_signed (by decide) (by decide)⟩, by decide⟩,
      notMem_signed (by decide) (by decide)⟩, by decide⟩
  have hshape : opening a r fill ++ rest =
      ("<g id=\"".toList ++ debugAddress a ++ "\" trans".toList) ++ 'f' ::
        (("orm=\"translate(".toList ++ signed r.x ++ ",".toList ++ signed r.y ++
          ")\"><text ".toList) ++ 'f' :: 'i' :: "ll=\"".toList ++ (fill ++ "\">".toList ++
            rest)) := by
    unfold opening
    simp
  have hpattern : "fill=\"".toList = 'f' :: 'i' :: "ll=\"".toList := rfl
  rw [hshape, hpattern, split_passing _ _ _ _ _ hfirst (fun h => by cases h),
    split_matching _ _ _ _ hsecond]
  unfold onFirst
  simp

/-- The piece after the first bracket is the element from there to the end of the fill. -/
theorem second_piece (a : Address) (r : Rect) (p : Rgba) (rest : List Char) :
    (split "\">".toList (opening a r (hex p) ++ rest))[1]? =
      some ("<text fill=\"".toList ++ hex p) := by
  have hplace : '"' ∉ "translate(".toList ++ signed r.x ++ ",".toList ++ signed r.y ++
      ")".toList := by
    simp only [List.mem_append, not_or]
    exact ⟨⟨⟨⟨by decide, notMem_signed (by decide) (by decide)⟩, by decide⟩,
      notMem_signed (by decide) (by decide)⟩, by decide⟩
  have hshape : opening a r (hex p) ++ rest = "<g id=".toList ++ '"' :: (debugAddress a ++ '"' ::
      (" transform=".toList ++ '"' :: ("translate(".toList ++ signed r.x ++ ",".toList ++
        signed r.y ++ ")".toList ++ '"' :: ['>'] ++ ("<text fill=".toList ++ '"' :: (hex p ++
          '"' :: ['>'] ++ rest))))) := by
    unfold opening
    simp
  have hpattern : "\">".toList = ['"', '>'] := rfl
  rw [hshape, hpattern, split_passing _ _ _ "<g id=".toList _ (by decide) (fun h => by cases h),
    split_passing _ _ _ (debugAddress a) _ (quote_notMem_debugAddress a) (fun h => by cases h),
    split_passing _ _ _ " transform=".toList _ (by decide) (fun h => by cases h),
    split_matching _ _ _ _ hplace,
    split_passing _ _ _ "<text fill=".toList _ (by decide) (fun h => by cases h),
    split_matching _ _ _ _ (quote_notMem_hex p)]
  rfl

/-- What the fast path makes of anything that begins as an element does: the element up to
the new fill, and again from the old fill's tag to the old fill. -/
theorem rewriteFill_opening (a : Address) (r : Rect) (p : Rgba) (rest fill : List Char) :
    rewriteFill (opening a r (hex p) ++ rest) fill =
      opening a r fill ++ ("<text fill=\"".toList ++ hex p) := by
  unfold rewriteFill
  simp only [first_piece, second_piece, Option.getD_some]
  rfl

/-- What the fast path makes of an element. The text of the record is not in it. -/
theorem rewriteFill_elementText (a : Address) (r : Rect) (p : Rgba) (text fill : List Char) :
    rewriteFill (elementText a r (hex p) text) fill =
      "<g id=\"".toList ++ debugAddress a ++ "\" transform=\"translate(".toList ++ signed r.x ++
        ",".toList ++ signed r.y ++ ")\"><text ".toList ++ "fill=\"".toList ++ fill ++
          "\">".toList ++ ("<text fill=\"".toList ++ hex p) := by
  rw [elementText_eq, rewriteFill_opening]
  rfl

/-- No element ends with a fill. -/
theorem rewriteFill_ne (a a' : Address) (r r' : Rect) (p : Rgba)
    (text text' fill fill' : List Char) :
    rewriteFill (elementText a r (hex p) text) fill ≠ elementText a' r' fill' text' := by
  intro h
  have hlast := congrArg List.getLast? h
  rw [rewriteFill_elementText, ← List.append_assoc,
    List.getLast?_append_of_ne_nil _ (by simp [hex])] at hlast
  unfold elementText at hlast
  rw [List.getLast?_append_of_ne_nil _ (by decide)] at hlast
  have hend : '>' ∈ hex p := List.mem_of_getLast? hlast
  exact notMem_hex (by decide) (by decide) p hend

end FastPath

section Entries

def Reshaped (b n : Node) : Prop :=
  b.children ≠ n.children ∨ b.intrinsic ≠ n.intrinsic ∨ b.lines ≠ n.lines ∨
    b.fragments ≠ n.fragments

/-- What the patch leaves under the text of an address that has an entry. -/
def patched (t : Snapshot) (d : Diff) (existing : Option (List Char)) : Option (List Char) :=
  match t.records.lookup d.address with
  | none => none
  | some n =>
    if needsGeometry d.parts then elementAt t d.address
    else existing.map (fun e => rewriteFill e (hex n.node.paint))

/-- One entry replaces what stands under the text of its address. -/
theorem patchOne_spec (t : Snapshot) (d : Diff) (hown : d.address.domain = t.version.domain)
    (out : Svg × Work) :
    ∃ out', Svg.patchOne t out d = .done out' ∧
      out'.1.elements.lookup (debugAddress d.address) =
        patched t d (out.1.elements.lookup (debugAddress d.address)) ∧
      ∀ key, key ≠ debugAddress d.address →
        out'.1.elements.lookup key = out.1.elements.lookup key := by
  obtain ⟨svg, work⟩ := out
  unfold Svg.patchOne patched
  simp only [SubtreeComparison.get_own t _ hown, Outcome.done_bind]
  cases hn : t.records.lookup d.address with
  | none => exact ⟨_, rfl, Finmap.lookup_erase _ _, fun key hkey => Finmap.lookup_erase_ne hkey⟩
  | some n =>
    obtain ⟨text, htext⟩ := (elementAt_isSome_iff t d.address).mpr
      ((mem_addresses t d.address).mpr ⟨n, hn⟩)
    by_cases hgeometry : needsGeometry d.parts = true
    · simp only [hgeometry, if_true, element_own t _ hown text htext, Outcome.done_bind, htext]
      exact ⟨_, rfl, Finmap.lookup_insert _, fun key hkey => Finmap.lookup_insert_of_ne _ hkey⟩
    · simp only [hgeometry, Bool.false_eq_true, if_false]
      cases hexisting : svg.elements.lookup (debugAddress d.address) with
      | none => exact ⟨_, rfl, by rw [hexisting]; rfl, fun key _ => rfl⟩
      | some existing =>
        exact ⟨_, rfl, Finmap.lookup_insert _, fun key hkey => Finmap.lookup_insert_of_ne _ hkey⟩

/-- The entries of a delta replace what stands under the texts of their addresses, each
once, and nothing else. -/
theorem patch_loop (t : Snapshot) (diffs : List Diff) (hnodup : (diffs.map Diff.address).Nodup)
    (hown : ∀ d ∈ diffs, d.address.domain = t.version.domain) (out : Svg × Work) :
    ∃ out', diffs.foldlM (Svg.patchOne t) out = .done out' ∧
      (∀ d ∈ diffs, out'.1.elements.lookup (debugAddress d.address) =
        patched t d (out.1.elements.lookup (debugAddress d.address))) ∧
      ∀ key, (∀ d ∈ diffs, key ≠ debugAddress d.address) →
        out'.1.elements.lookup key = out.1.elements.lookup key := by
  induction diffs generalizing out with
  | nil => exact ⟨out, rfl, by simp, fun _ _ => rfl⟩
  | cons d rest ih =>
    rw [List.map_cons, List.nodup_cons] at hnodup
    obtain ⟨hd, hrest⟩ := hnodup
    obtain ⟨out₁, hone, hhere, hother⟩ := patchOne_spec t d (hown d (List.mem_cons_self ..)) out
    obtain ⟨out', hloop, hnamed, hunnamed⟩ :=
      ih hrest (fun d' hd' => hown d' (List.mem_cons_of_mem _ hd')) out₁
    have hne : ∀ d' ∈ rest, debugAddress d'.address ≠ debugAddress d.address := by
      intro d' hd' heq
      have haddress := debugAddress_injective heq
      exact hd (haddress ▸ List.mem_map_of_mem hd')
    refine ⟨out', ?_, fun d' hd' => ?_, fun key hkey => ?_⟩
    · rw [List.foldlM_cons, hone]
      exact hloop
    · rcases List.mem_cons.mp hd' with heq | hd'
      · rw [heq, hunnamed _ (fun e he => (hne e he).symm), hhere]
      · rw [hnamed d' hd', hother _ (hne d' hd')]
    · rw [hunnamed key (fun e he => hkey e (List.mem_cons_of_mem _ he)),
        hother key (hkey d (List.mem_cons_self ..))]

variable {D : Address → Prop} {before after : RecordMap} {d : Diff}

/-- An entry names geometry exactly when its record is new or changed shape. -/
theorem needsGeometry_iff (hentry : Entry D before after d) {n : Arc}
    (hn : after.lookup d.address = some n) :
    needsGeometry d.parts = true ↔
      ∀ b, before.lookup d.address = some b → Reshaped b.node n.node := by
  have hpart : ∀ p ∈ ownParts, d.parts.contains p = true ↔
      ∀ b, before.lookup d.address = some b → b.node.projection p ≠ n.node.projection p := by
    intro p hp
    rw [hentry.own n hn p hp]
    refine forall_congr' (fun b => imp_congr_right (fun _ => ?_))
    rw [Ne, ← Node.partEq_iff, Bool.not_eq_true]
  unfold needsGeometry
  simp only [Bool.or_eq_true]
  rw [hpart Part.structure (by decide), hpart Part.intrinsicLayout (by decide),
    hpart Part.lineLayout (by decide), hpart Part.fragmentation (by decide)]
  cases before.lookup d.address with
  | none => simp
  | some b =>
    simp only [Option.some.injEq, forall_eq', or_assoc]
    exact Iff.rfl

end Entries

section Commits

variable {s t : Snapshot} {diffs : List Diff}

theorem elementAt_congr (a : Address) (hstate : state s.records a = state t.records a)
    (hrect : t.placement.rect a = s.placement.rect a) : elementAt t a = elementAt s a := by
  have hop : ∀ u : Snapshot, elementAt u a = (opAt u a).map
      (fun o => elementText a o.bounds (hex o.fill) o.text.toList) := by
    intro u
    unfold elementAt opAt
    rw [Option.map_map]
    rfl
  rw [hop, hop, Rasters.opAt_congr a hstate hrect]

/-- At an address with an entry the patch gives the element of the second snapshot exactly
when the record is not one that stayed and kept its shape. -/
theorem patched_eq_iff (hreported : Reported s t diffs) {d : Diff} (hd : d ∈ diffs) :
    patched t d (elementAt s d.address) = elementAt t d.address ↔
      ∀ b n, s.records.lookup d.address = some b → t.records.lookup d.address = some n →
        Reshaped b.node n.node := by
  have hentry := hreported.describes.entry d hd
  unfold patched
  cases hn : t.records.lookup d.address with
  | none => simp [elementAt, hn]
  | some n =>
    simp only [Option.some.injEq]
    have hgeometry := needsGeometry_iff hentry hn
    by_cases hneeds : needsGeometry d.parts = true
    · rw [if_pos hneeds]
      refine iff_of_true rfl (fun b n' hb hn' => ?_)
      rw [← hn']
      exact hgeometry.mp hneeds b hb
    · rw [if_neg hneeds]
      rw [hgeometry] at hneeds
      push Not at hneeds
      obtain ⟨b, hb, hshape⟩ := hneeds
      refine iff_of_false ?_ (fun h => hshape (h b n hb rfl))
      unfold elementAt
      rw [hb, hn, Option.map_some, Option.map_some, Option.map_some, Option.some.injEq]
      exact rewriteFill_ne _ _ _ _ _ _ _ _ _

/-- Patching is not rendering afresh: over a commit that keeps every box, the patched
elements are those a render holds exactly when every record that stayed, and at or below
which something changed, changed its children, its intrinsic size, its lines or its
fragments. -/
theorem patch_eq_render_iff {c : Commit} {svg : Svg} {work : Work} (hcommit : Committed s c t)
    (hrect : ∀ a, t.placement.rect a = s.placement.rect a)
    (hrender : Svg.render s = .done (svg, work)) :
    ∃ out work' fresh work'', svg.patch t c.delta = .done (out, work') ∧
      Svg.render t = .done (fresh, work'') ∧
      (out.elements = fresh.elements ↔
        ∀ a b n, s.records.lookup a = some b → t.records.lookup a = some n →
          ChangedBelow s.records t.records a → Reshaped b.node n.node) := by
  obtain ⟨ht, hreported⟩ := committed_reported hcommit
  subst ht
  have hs : OwnKeys s := ownKeys_of_done svg_foreign hrender
  obtain ⟨elements, hrendered, hold⟩ := svg_own s hs
  obtain ⟨fresh, hfresh, hnew⟩ := svg_own c.snapshot hreported.keys
  rw [hrendered] at hrender
  obtain ⟨hsvg, _⟩ := Prod.mk.inj (Outcome.done.inj hrender)
  obtain ⟨⟨out, work'⟩, hloop, hnamed, hunnamed⟩ := patch_loop c.snapshot c.delta.diffs
    hreported.nodup hreported.own (svg, {})
  rw [← hsvg] at hnamed hunnamed hloop ⊢
  refine ⟨out, work', ⟨fresh⟩, _, hloop, hfresh, ?_⟩
  have hat : ∀ a, Named c.delta.diffs a ↔ ChangedBelow s.records c.snapshot.records a := by
    intro a
    rw [named_iff hreported.describes, ← differs_iff_changedBelow]
  constructor
  · intro heq a b n hb hn hchanged
    obtain ⟨d, hd, hda⟩ := (hat a).mpr hchanged
    subst hda
    have hpatched := hnamed d hd
    rw [hold.lookup_debug, heq] at hpatched
    exact (patched_eq_iff hreported hd).mp (hpatched.symm.trans (hnew.lookup_debug _)) b n hb hn
  · intro hcond
    refine Finmap.ext_lookup (fun key => ?_)
    by_cases hkey : ∃ a, key = debugAddress a
    · obtain ⟨a, rfl⟩ := hkey
      rw [hnew.lookup_debug]
      by_cases ha : Named c.delta.diffs a
      · have hchanged := (hat a).mp ha
        obtain ⟨d, hd, hda⟩ := ha
        subst hda
        rw [hnamed d hd, hold.lookup_debug, patched_eq_iff hreported hd]
        exact fun b n hb hn => hcond _ b n hb hn hchanged
      · have hother : ∀ d ∈ c.delta.diffs, debugAddress a ≠ debugAddress d.address :=
          fun d hd heq => ha ⟨d, hd, (debugAddress_injective heq).symm⟩
        rw [hunnamed _ hother, hold.lookup_debug]
        exact (elementAt_congr a (hreported.state_eq ha) (hrect a)).symm
    · rw [hunnamed key (fun d _ heq => hkey ⟨_, heq⟩), hold.lookup_none hkey,
        hnew.lookup_none hkey]

end Commits

section Example

def note : Snapshot := holding (rev 1) 0 [(addr .node 1, { text := "a" })]

def rewritten (n : Node) : Snapshot :=
  { note with version := ⟨dom, rev 2⟩, records := note.records.insert (addr .node 1) ⟨1, n⟩ }

def rewriting (n : Node) (parts : Parts) : Commit :=
  ⟨rewritten n, ⟨note.version, (rewritten n).version, [⟨addr .node 1, parts⟩]⟩⟩

def onSecondPage : Node := { text := "b", fragments := [1] }

def inRed : Node := { text := "a", paint := ⟨255, 0, 0, 255⟩ }

/-- A record with a new text on another page is drawn afresh. -/
theorem patch_eq_render_onSecondPage :
    ∃ c svg work out work' fresh work'', Committed note c (rewritten onSecondPage) ∧
      Svg.render note = .done (svg, work) ∧
      svg.patch (rewritten onSecondPage) c.delta = .done (out, work') ∧
      Svg.render (rewritten onSecondPage) = .done (fresh, work'') ∧
      out.elements = fresh.elements := by
  have hcommit : Committed note (rewriting onSecondPage (((Parts.of Part.text).insert
      Part.shaping).insert Part.fragmentation)) (rewritten onSecondPage) :=
    @Committed.of note [.update (addr .node 1) (fun _ => onSecondPage)] ⟨1⟩ _ _ 2
      (rewriting onSecondPage _) rfl rfl
  have hrender : Svg.render note = .done _ := rfl
  obtain ⟨out, work', fresh, work'', hpatch, hfresh, hiff⟩ :=
    patch_eq_render_iff hcommit (fun _ => rfl) hrender
  refine ⟨_, _, _, out, work', fresh, work'', hcommit, hrender, hpatch, hfresh, hiff.mpr ?_⟩
  intro a b n hb hn _
  have ha : a ∈ note.addresses := (mem_addresses note a).mpr ⟨b, hb⟩
  have hone : a = addr .node 1 := List.mem_singleton.mp ha
  subst hone
  obtain rfl : b = ⟨0, { text := "a" }⟩ := (Option.some.inj hb).symm
  obtain rfl : n = ⟨1, onSecondPage⟩ := (Option.some.inj hn).symm
  exact Or.inr (Or.inr (Or.inr (by decide)))

/-- A record that is painted anew loses its text. -/
theorem repainted_record_loses_text :
    ∃ c svg work out work' fresh work'', Committed note c (rewritten inRed) ∧
      (∀ a, (rewritten inRed).placement.rect a = note.placement.rect a) ∧
      Svg.render note = .done (svg, work) ∧
      svg.patch (rewritten inRed) c.delta = .done (out, work') ∧
      Svg.render (rewritten inRed) = .done (fresh, work'') ∧ out.elements ≠ fresh.elements := by
  have hcommit : Committed note (rewriting inRed (Parts.of Part.paint)) (rewritten inRed) :=
    @Committed.of note [.update (addr .node 1) (fun _ => inRed)] ⟨1⟩ _ _ 2
      (rewriting inRed _) rfl rfl
  refine ⟨_, _, _, _, _, _, _, hcommit, fun _ => rfl, rfl, rfl, rfl, fun heq => ?_⟩
  have hlookup := congrArg (Finmap.lookup (debugAddress (addr .node 1))) heq
  change some (rewriteFill (elementText (addr .node 1) {} (hex {}) "a".toList) (hex inRed.paint)) =
    some (elementText (addr .node 1) {} (hex inRed.paint) "a".toList) at hlookup
  exact rewriteFill_ne _ _ _ _ _ _ _ _ _ (Option.some.inj hlookup)

end Example

end CompositionIr.SvgPatching
