import CompositionIr.HandleRuns
import CompositionIr.Renders

/-!
Reading a document through the boundary alone. The two calls that size and fill a buffer
give every live address once; a record is looked up once and its fields are read from the
pointer. What a consumer so collects is what the snapshot publishes, and a pointer stays
good while a handle, or anything the code itself has not dropped, keeps the record it
points to.
-/

namespace CompositionIr.BoundaryReads

open Outcomes Transitions Addresses Records Placements Snapshots Deltas Commits
open SharedBoxes Handles HandleRuns

def readNode (h : Host) (node : ℕ) : Crossing Node := do
  let children ← cirNodeChildren h.memory node
  let text ← cirNodeText h.memory node
  let textMap ← cirNodeTextMap h.memory node
  let font ← cirNodeFont h.memory node
  let intrinsic ← cirNodeIntrinsic h.memory node
  let lines ← cirNodeLines h.memory node
  let paint ← cirNodePaint h.memory node
  let resources ← cirNodeResources h.memory node
  let fragments ← cirNodeFragments h.memory node
  let interaction ← cirNodeInteraction h.memory node
  let sourceLink ← cirNodeSourceLink h.memory node
  let valid ← cirNodeValid h.memory node
  return { children, text, textMap, font, intrinsic, lines, paint, resources, fragments,
           interaction, sourceLink, valid }

/-- The records at the addresses, those where the lookup answers null left out. -/
def readRecords (h : Host) (snapshot : ℕ) : List Address → Crossing (List (Address × Node))
  | [] => .done []
  | address :: rest => do
    match ← cirSnapshotNode h.snapshots snapshot address with
    | none => readRecords h snapshot rest
    | some node =>
      let n ← readNode h node
      let others ← readRecords h snapshot rest
      return (address, n) :: others

/-- Size the buffer, fill it, and read every record it names. -/
def readDocument (h : Host) (snapshot : ℕ) (out : ℕ → Address) :
    Crossing (List (Address × Node)) := do
  let (total, out) ← cirSnapshotAddresses h.snapshots snapshot out 0
  let (_, out) ← cirSnapshotAddresses h.snapshots snapshot out total
  readRecords h snapshot ((List.range total).map out)

section Buffers

theorem foldl_update_of_not_mem (entries : List (Address × ℕ)) (out : ℕ → Address) (i : ℕ)
    (hi : i ∉ entries.map Prod.snd) :
    entries.foldl (fun out entry => Function.update out entry.2 entry.1) out i = out i := by
  induction entries generalizing out with
  | nil => rfl
  | cons entry rest ih =>
    rw [List.map_cons, List.mem_cons, not_or] at hi
    rw [List.foldl_cons, ih _ hi.2, Function.update_of_ne hi.1]

/-- The loop writes the addresses in order, and nothing behind them. -/
theorem written_eq (addresses : List Address) (out : ℕ → Address) (i : ℕ) :
    written addresses out i = (addresses[i]?).getD (out i) := by
  have hloop : ∀ (start : ℕ) (l : List Address) (out : ℕ → Address), start ≤ i →
      (l.zipIdx start).foldl (fun out entry => Function.update out entry.2 entry.1) out i =
        (l[i - start]?).getD (out i) := by
    intro start l
    induction l generalizing start with
    | nil => exact fun _ _ => rfl
    | cons a rest ih =>
      intro out hle
      rw [List.zipIdx_cons, List.foldl_cons]
      rcases Nat.eq_or_lt_of_le hle with heq | hlt
      · rw [foldl_update_of_not_mem]
        · rw [← heq, Nat.sub_self, Function.update_self]
          rfl
        · rw [List.zipIdx_map_snd, List.mem_range']
          intro hslot
          obtain ⟨j, _, hj⟩ := hslot
          omega
      · have hsub : i - start = (i - (start + 1)) + 1 := by omega
        rw [ih (start + 1) _ hlt, hsub, List.getElem?_cons_succ,
          Function.update_of_ne (by omega)]
  exact hloop 0 addresses out (Nat.zero_le i)

/-- A buffer of the right size holds the addresses. -/
theorem map_written (addresses : List Address) (out : ℕ → Address) :
    (List.range addresses.length).map (written addresses out) = addresses := by
  apply List.ext_getElem
  · rw [List.length_map, List.length_range]
  · intro i hi hi'
    rw [List.getElem_map, List.getElem_range, written_eq, List.getElem?_eq_getElem hi',
      Option.getD_some]

/-- A buffer takes as many addresses as it has room for, each once, and keeps what is behind
them. -/
theorem written_take {addresses : List Address} (hnodup : addresses.Nodup) (out : ℕ → Address)
    (cap : ℕ) :
    (∀ i, min cap addresses.length ≤ i → written (addresses.take cap) out i = out i) ∧
      (∀ i, i < min cap addresses.length → written (addresses.take cap) out i ∈ addresses) ∧
      (∀ i j, i < min cap addresses.length → j < min cap addresses.length →
        written (addresses.take cap) out i = written (addresses.take cap) out j → i = j) ∧
      (addresses.length ≤ cap → ∀ a ∈ addresses,
        ∃ i, i < addresses.length ∧ written (addresses.take cap) out i = a) := by
  have hlen : (addresses.take cap).length = min cap addresses.length := List.length_take
  have hslot : ∀ i, (hi : i < (addresses.take cap).length) →
      written (addresses.take cap) out i = (addresses.take cap)[i] := by
    intro i hi
    rw [written_eq, List.getElem?_eq_getElem hi, Option.getD_some]
  refine ⟨?_, ?_, ?_, ?_⟩
  · intro i hi
    rw [written_eq, List.getElem?_eq_none (by omega), Option.getD_none]
  · intro i hi
    rw [hslot i (by omega)]
    exact List.take_subset cap _ (List.getElem_mem _)
  · intro i j hi hj heq
    rw [hslot i (by omega), hslot j (by omega)] at heq
    exact ((List.take_sublist cap _).nodup hnodup).getElem_inj_iff.mp heq
  · intro hcap a ha
    have hall : addresses.take cap = addresses := List.take_of_length_le hcap
    obtain ⟨i, hi, hget⟩ := List.getElem_of_mem ha
    refine ⟨i, hi, ?_⟩
    rw [hall, written_eq, List.getElem?_eq_getElem hi, Option.getD_some, hget]

end Buffers

section Nodes

variable {h : Host} {node : ℕ} {n : Node}

theorem mem_of_nodeAt {memory : List Arc} (hat : nodeAt memory node = some n) :
    ∃ arc ∈ memory, arc.serial = node ∧ arc.node = n := by
  obtain ⟨arc, hfind, hn⟩ := Option.map_eq_some_iff.mp hat
  have hserial : (arc.serial == node) = true :=
    List.find?_some (p := fun arc : Arc => arc.serial == node) hfind
  exact ⟨arc, List.mem_of_find?_eq_some hfind, beq_iff_eq.mp hserial, hn⟩

theorem exists_nodeAt {memory : List Arc} {arc : Arc} (harc : arc ∈ memory) :
    ∃ m, nodeAt memory arc.serial = some m := by
  apply Option.isSome_iff_exists.mp
  unfold nodeAt
  rw [Option.isSome_map, List.find?_isSome]
  exact ⟨arc, harc, beq_self_eq_true _⟩

theorem readNode_of_nodeAt (hat : nodeAt h.memory node = some n) : readNode h node = .done n := by
  have hfield : ∀ {β : Type} (f : Node → β), field h.memory node f = .done (f n) := by
    intro β f
    unfold field
    rw [hat]
  unfold readNode cirNodeChildren cirNodeText cirNodeTextMap cirNodeFont cirNodeIntrinsic
    cirNodeLines cirNodePaint cirNodeResources cirNodeFragments cirNodeInteraction
    cirNodeSourceLink cirNodeValid
  simp only [hfield, Outcome.done_bind, Outcome.pure_eq]

end Nodes

/-- Somebody keeps the allocation: a handle the caller holds, or a snapshot, a builder or a
clone that the code itself has not dropped. -/
def Owned (labels : List Action) (h : Host) (arc : Arc) : Prop :=
  (∃ ptr serial s, (snapshotLedger labels).held ptr = some (serial, s) ∧
    arc ∈ arcsOf s.records) ∨
  (∃ s ∈ h.kept, arc ∈ arcsOf s.records) ∨
  (∃ b ∈ h.process.builders, arc ∈ arcsOf b.base.records ∨ arc ∈ arcsOf b.records) ∨
  arc ∈ h.arcs

section Runs

variable {domain : Domain} {revision : Revision} {labels : List Action} {h : Host}

/-- The snapshots in the store are those behind the handles the caller holds. -/
theorem shared_iff (hsound : Sound domain revision labels h) (s : Snapshot) :
    (∃ e ∈ h.snapshots.shared.entries, e.2.value = s) ↔
      ∃ ptr serial, (snapshotLedger labels).held ptr = some (serial, s) := by
  obtain ⟨hst, hag⟩ := hsound.snapshots
  constructor
  · intro hfound
    obtain ⟨⟨serial, held⟩, he, rfl⟩ := hfound
    have hshared := AList.mem_lookup_iff.mpr he
    obtain ⟨ptr, value, hheld⟩ := (allocated_iff hst hag serial).mp (by rw [hshared]; rfl)
    obtain ⟨held', _, hshared', hvalue⟩ := lookup_of_held hag hheld
    rw [hshared, Option.some.injEq] at hshared'
    subst hshared'
    exact ⟨ptr, serial, by rw [hheld, hvalue]⟩
  · intro hfound
    obtain ⟨ptr, serial, hheld⟩ := hfound
    obtain ⟨held, _, hshared, hvalue⟩ := lookup_of_held hag hheld
    exact ⟨⟨serial, held⟩, AList.mem_lookup_iff.mp hshared, hvalue⟩

/-- A record is in memory exactly as long as somebody keeps it. -/
theorem mem_memory_iff (hsound : Sound domain revision labels h) (arc : Arc) :
    arc ∈ h.memory ↔ Owned labels h arc := by
  have hhandles : (∃ e ∈ h.snapshots.shared.entries, arc ∈ arcsOf e.2.value.records) ↔
      ∃ ptr serial s, (snapshotLedger labels).held ptr = some (serial, s) ∧
        arc ∈ arcsOf s.records := by
    constructor
    · intro hfound
      obtain ⟨e, he, harc⟩ := hfound
      obtain ⟨ptr, serial, hheld⟩ := (shared_iff hsound _).mp ⟨e, he, rfl⟩
      exact ⟨ptr, serial, _, hheld, harc⟩
    · intro hfound
      obtain ⟨ptr, serial, s, hheld, harc⟩ := hfound
      obtain ⟨e, he, rfl⟩ := (shared_iff hsound s).mpr ⟨ptr, serial, hheld⟩
      exact ⟨e, he, harc⟩
  unfold Host.memory Owned
  rw [← hhandles]
  simp only [List.mem_append, List.mem_flatMap]
  exact or_comm.trans (or_congr_right or_assoc)

/-- One allocation has one record, whoever keeps it. -/
theorem node_of_serial (hsound : Sound domain revision labels h) :
    ∃ value : ℕ → Node, (∀ s ∈ h.process.snapshots, ∀ arc ∈ arcsOf s.records,
        arc.node = value arc.serial) ∧ ∀ arc ∈ h.memory, arc.node = value arc.serial := by
  obtain ⟨value, hvalue⟩ := hsound.coherent
  have hmap : ∀ records, Processes.Holds h.process records → ∀ arc ∈ arcsOf records,
      arc.node = value arc.serial := by
    intro records hholds arc harc
    obtain ⟨x, hx⟩ := (mem_arcsOf records arc).mp harc
    exact (hvalue records hholds x arc hx).2
  have hsnapshots : ∀ s ∈ h.process.snapshots, ∀ arc ∈ arcsOf s.records,
      arc.node = value arc.serial := fun s hs => hmap s.records (Or.inl ⟨s, hs, rfl⟩)
  refine ⟨value, hsnapshots, fun arc harc => ?_⟩
  rcases (mem_memory_iff hsound arc).mp harc with
    ⟨ptr, serial, s, hheld, hs⟩ | ⟨s, hkept, hs⟩ | ⟨b, hb, hs | hs⟩ | hshared
  · exact hsnapshots s (hsound.published ptr serial s hheld) arc hs
  · exact hsnapshots s (hsound.kept s hkept) arc hs
  · exact hmap _ (Or.inr ⟨b, hb, Or.inr rfl⟩) arc hs
  · exact hmap _ (Or.inr ⟨b, hb, Or.inl rfl⟩) arc hs
  · obtain ⟨s, hs, hmem⟩ := hsound.arcs arc hshared
    exact hsnapshots s hs arc hmem

/-- A record in memory is read as the process published it. -/
theorem readNode_of_mem (hsound : Sound domain revision labels h) {arc arc' : Arc} {s : Snapshot}
    (hs : s ∈ h.process.snapshots) (harc : arc ∈ arcsOf s.records) (hmem : arc' ∈ h.memory)
    (hserial : arc'.serial = arc.serial) : readNode h arc.serial = .done arc.node := by
  obtain ⟨value, hsnapshots, hmemory⟩ := node_of_serial hsound
  apply readNode_of_nodeAt
  rw [← hserial]
  obtain ⟨m, hm⟩ := exists_nodeAt hmem
  obtain ⟨found, hfound, hfserial, hnode⟩ := mem_of_nodeAt hm
  rw [hm, ← hnode, hmemory found hfound, hfserial, hserial, hsnapshots s hs arc harc]

theorem run_snapshots {more : List Action} {h' : Host} (hrun : Run Handles.Step h more h') :
    Run SharedBoxes.Step h.snapshots (more.flatMap Action.onSnapshots) h'.snapshots := by
  induction hrun with
  | nil => exact Run.nil _
  | snoc _ hstep ih =>
    rw [List.flatMap_append, List.flatMap_singleton]
    exact ih.trans (step_snapshots hstep)

theorem run_published {more : List Action} {h' : Host} (hrun : Run Handles.Step h more h')
    (s : Snapshot) (hs : s ∈ h.process.snapshots) : s ∈ h'.process.snapshots :=
  Run.preserves (fun g => s ∈ g.process.snapshots) hrun
    (fun _ _ _ hg hstep => (step_published hstep).1 s hg) hs

theorem snapshotLedger_append (labels more : List Action) :
    snapshotLedger (labels ++ more) =
      (snapshotLedger labels).recordAll (more.flatMap Action.onSnapshots) := by
  unfold snapshotLedger Ledger.recordAll
  rw [List.flatMap_append, List.foldl_append]

theorem eq_of_release_mem {a : Action} {ptr : ℕ} (hmem : .release ptr ∈ a.onSnapshots) :
    a = .snapshotRelease ptr := by
  cases a with
  | snapshotRelease snapshot =>
    change Call.release ptr ∈ dropped snapshot at hmem
    unfold dropped at hmem
    split at hmem
    · cases hmem
    · injection List.mem_singleton.mp hmem with heq
      rw [heq]
  | snapshotIntoRaw _ _ | snapshotRetain _ _ => cases List.mem_singleton.mp hmem
  | process _ | drop _ | abandon _ | share _ | unshare _ | deltaIntoRaw _ _ | deltaRelease _ =>
    cases hmem

/-- A handle that nothing releases stands for one snapshot all along. -/
theorem held_kept {more : List Action} {h' : Host} (hsound : Sound domain revision labels h)
    (hrun : Run Handles.Step h more h') {ptr : ℕ} {entry : ℕ × Snapshot}
    (hheld : (snapshotLedger labels).held ptr = some entry)
    (hrel : .snapshotRelease ptr ∉ more) :
    (snapshotLedger (labels ++ more)).held ptr = some entry := by
  have hcalls : .release ptr ∉ more.flatMap Action.onSnapshots := by
    intro hmem
    obtain ⟨a, ha, hcall⟩ := List.mem_flatMap.mp hmem
    rw [eq_of_release_mem hcall] at ha
    exact hrel ha
  rw [snapshotLedger_append, run_kept (run_snapshots hrun) hsound.snapshots.1 hsound.snapshots.2
    (by rw [hheld]; rfl) hcalls, hheld]

/-- A pointer to a record comes from a handle whose snapshot has it. -/
theorem node_eq_done (hsound : Sound domain revision labels h) {ptr node : ℕ} {address : Address}
    (hnode : cirSnapshotNode h.snapshots ptr address = .done (some node)) :
    ∃ serial s arc, (snapshotLedger labels).held ptr = some (serial, s) ∧
      s.records.lookup address = some arc ∧ arc.serial = node := by
  obtain ⟨hst, hag⟩ := hsound.snapshots
  rcases hheld : (snapshotLedger labels).held ptr with _ | ⟨serial, s⟩
  · rw [(dangling_of_not_held hst hag hheld).node] at hnode
    cases hnode
  · have hans := answers_of_held hag hheld
    by_cases hdom : address.domain = s.version.domain
    · rw [hans.node address hdom, Outcome.done.injEq] at hnode
      obtain ⟨arc, harc, hserial⟩ := Option.map_eq_some_iff.mp hnode
      exact ⟨serial, s, arc, rfl, harc, hserial⟩
    · rw [hans.foreign address hdom] at hnode
      cases hnode

/-- Every record of a snapshot with a handle can be read. -/
theorem readNode_held (hsound : Sound domain revision labels h) {ptr serial : ℕ} {s : Snapshot}
    (hheld : (snapshotLedger labels).held ptr = some (serial, s)) (x : Address) (arc : Arc)
    (harc : s.records.lookup x = some arc) : readNode h arc.serial = .done arc.node := by
  have hmem : arc ∈ arcsOf s.records := (mem_arcsOf _ _).mpr ⟨x, harc⟩
  have howned : Owned labels h arc := Or.inl ⟨ptr, serial, s, hheld, hmem⟩
  exact readNode_of_mem hsound (hsound.published ptr serial s hheld) hmem
    ((mem_memory_iff hsound arc).mpr howned) rfl

/-- Every live address of what a process published is of the domain of the snapshot. -/
theorem ownKeys_published (hsound : Sound domain revision labels h) (s : Snapshot)
    (hs : s ∈ h.process.snapshots) : Renders.OwnKeys s := by
  rcases hsound.history.published s hs with rfl | ⟨q, hq, rfl, _⟩
  · intro a ha
    cases ha
  · obtain ⟨_, _, fuel, hcommit⟩ := hsound.history.commits q hq
    exact (Renders.commit_reported q.1 fuel q.2 hcommit).2.keys

end Runs

/-- A pointer to a record reads the same record for as long as the handle it came from is
not released, and beyond that while anybody keeps the record. Once nobody does, reading any
field of it reads freed memory. -/
theorem borrowed_record_stays (domain : Domain) (revision : Revision) (labels : List Action)
    (h : Host) (hrun : Reaches domain revision labels h) (ptr node : ℕ) (address : Address)
    (hnode : cirSnapshotNode h.snapshots ptr address = .done (some node)) :
    ∃ n, readNode h node = .done n ∧ ∀ more h', Run Handles.Step h more h' →
      (.snapshotRelease ptr ∉ more → readNode h' node = .done n) ∧
      ((∃ arc, Owned (labels ++ more) h' arc ∧ arc.serial = node) → readNode h' node = .done n) ∧
      ((∀ arc, Owned (labels ++ more) h' arc → arc.serial ≠ node) →
        ∀ {β : Type} (f : Node → β), field h'.memory node f = .trap .dangling) := by
  have hsound := run_sound hrun
  obtain ⟨serial, s, arc, hheld, harc, hserial⟩ := node_eq_done hsound hnode
  have hmem : arc ∈ arcsOf s.records := (mem_arcsOf _ _).mpr ⟨address, harc⟩
  refine ⟨arc.node, hserial ▸ readNode_held hsound hheld address arc harc, ?_⟩
  intro more h' hlater
  have hsound' := run_sound (hrun.trans hlater)
  have hs : s ∈ h'.process.snapshots :=
    run_published hlater s (hsound.published ptr serial s hheld)
  have howned : (∃ arc', Owned (labels ++ more) h' arc' ∧ arc'.serial = node) →
      readNode h' node = .done arc.node := by
    intro hfound
    obtain ⟨arc', hkept, hserial'⟩ := hfound
    rw [← hserial]
    exact readNode_of_mem hsound' hs hmem ((mem_memory_iff hsound' arc').mpr hkept)
      (hserial'.trans hserial.symm)
  refine ⟨?_, howned, ?_⟩
  · intro hrel
    have hstill := held_kept hsound hlater hheld hrel
    exact howned ⟨arc, Or.inl ⟨ptr, serial, s, hstill, hmem⟩, hserial⟩
  · intro hnone β f
    have hdead : nodeAt h'.memory node = none := by
      rcases hat : nodeAt h'.memory node with _ | m
      · rfl
      · obtain ⟨arc', hmem', hserial', _⟩ := mem_of_nodeAt hat
        exact absurd hserial' (hnone arc' ((mem_memory_iff hsound' arc').mp hmem'))
    unfold field
    rw [hdead]

section Documents

variable {h : Host} {ptr : ℕ} {s : Snapshot}

def recordsAt (s : Snapshot) (addresses : List Address) : List (Address × Node) :=
  addresses.filterMap (fun a => (s.records.lookup a).map (fun arc => (a, arc.node)))

/-- Reading the records at addresses of the snapshot's own domain gives what it publishes
there. -/
theorem readRecords_own (hans : Answers h.snapshots ptr s)
    (hread : ∀ x arc, s.records.lookup x = some arc → readNode h arc.serial = .done arc.node)
    (addresses : List Address) (hown : ∀ a ∈ addresses, a.domain = s.version.domain) :
    readRecords h ptr addresses = .done (recordsAt s addresses) := by
  induction addresses with
  | nil => rfl
  | cons a rest ih =>
    have ha := hown a (List.mem_cons_self ..)
    have hrest := ih (fun b hb => hown b (List.mem_cons_of_mem a hb))
    unfold readRecords recordsAt
    rw [hans.node a ha, Outcome.done_bind, List.filterMap_cons]
    rcases harc : s.records.lookup a with _ | arc
    · exact hrest
    · simp only [Option.map_some, hread a arc harc, Outcome.done_bind, hrest]
      rfl

theorem mem_recordsAt (s : Snapshot) (x : Address) (n : Node) :
    (x, n) ∈ recordsAt s s.addresses ↔ ∃ arc, s.records.lookup x = some arc ∧ arc.node = n := by
  unfold recordsAt
  rw [List.mem_filterMap]
  constructor
  · intro hfound
    obtain ⟨a, _, hmap⟩ := hfound
    obtain ⟨arc, harc, heq⟩ := Option.map_eq_some_iff.mp hmap
    obtain ⟨rfl, rfl⟩ := Prod.mk.inj heq
    exact ⟨arc, harc, rfl⟩
  · intro hfound
    obtain ⟨arc, harc, rfl⟩ := hfound
    exact ⟨x, (PublishedStates.mem_addresses s x).mpr ⟨arc, harc⟩, by rw [harc]; rfl⟩

theorem map_fst_recordsAt (s : Snapshot) (addresses : List Address)
    (hlive : ∀ a ∈ addresses, a ∈ s.addresses) :
    (recordsAt s addresses).map Prod.fst = addresses := by
  induction addresses with
  | nil => rfl
  | cons a rest ih =>
    obtain ⟨arc, harc⟩ := (PublishedStates.mem_addresses s a).mp (hlive a (List.mem_cons_self ..))
    have hrest := ih (fun b hb => hlive b (List.mem_cons_of_mem a hb))
    unfold recordsAt at hrest ⊢
    rw [List.filterMap_cons, harc, Option.map_some, List.map_cons, hrest]

/-- Sizing writes nothing, and the sized buffer holds the addresses. -/
theorem readDocument_eq (hans : Answers h.snapshots ptr s) (out : ℕ → Address) :
    readDocument h ptr out = readRecords h ptr s.addresses := by
  unfold readDocument
  rw [hans.addresses out 0, Outcome.done_bind]
  show (cirSnapshotAddresses h.snapshots ptr (written (s.addresses.take 0) out) s.len >>= _) = _
  rw [List.take_zero, hans.addresses _ s.len, Outcome.done_bind]
  have hall : s.addresses.take s.len = s.addresses := List.take_length
  show readRecords h ptr ((List.range s.len).map (written (s.addresses.take s.len) out)) = _
  rw [hall]
  exact congrArg (readRecords h ptr) (map_written s.addresses out)

end Documents

/-- Through any handle, with any buffer of any size: no more than `cap` addresses are
written, the slots behind them are untouched, and what is written is live, each once. The
two calls that size and fill a buffer, with a lookup and the field reads for each address,
give the records the snapshot publishes, each once. -/
theorem boundary_is_sufficient (domain : Domain) (revision : Revision) (labels : List Action)
    (h : Host) (hrun : Reaches domain revision labels h) (ptr serial : ℕ) (s : Snapshot)
    (hheld : (snapshotLedger labels).held ptr = some (serial, s)) (out : ℕ → Address) :
    (∀ cap, ∃ out', cirSnapshotAddresses h.snapshots ptr out cap = .done (s.len, out') ∧
      (∀ i, min cap s.len ≤ i → out' i = out i) ∧
      (∀ i, i < min cap s.len → s.contains (out' i) = true) ∧
      (∀ i j, i < min cap s.len → j < min cap s.len → out' i = out' j → i = j) ∧
      (s.len ≤ cap → ∀ a, s.contains a = true → ∃ i, i < s.len ∧ out' i = a)) ∧
    ∃ l, readDocument h ptr out = .done l ∧ (l.map Prod.fst).Nodup ∧
      ∀ x n, (x, n) ∈ l ↔ ∃ arc, s.records.lookup x = some arc ∧ arc.node = n := by
  have hsound := run_sound hrun
  have hans := answers_of_held hsound.snapshots.2 hheld
  have hlive : ∀ a, s.contains a = true ↔ a ∈ s.addresses := fun a =>
    (PublishedStates.contains_iff s a).trans (PublishedStates.mem_addresses s a).symm
  refine ⟨fun cap => ?_, recordsAt s s.addresses, ?_, ?_, fun x n => mem_recordsAt s x n⟩
  · obtain ⟨hbehind, hwritten, honce, hall⟩ := written_take s.records.keys_nodup out cap
    exact ⟨_, hans.addresses out cap, hbehind, fun i hi => (hlive _).mpr (hwritten i hi), honce,
      fun hcap a ha => hall hcap a ((hlive a).mp ha)⟩
  · have hown := ownKeys_published hsound s (hsound.published ptr serial s hheld)
    rw [readDocument_eq hans out]
    exact readRecords_own hans (readNode_held hsound hheld) s.addresses hown
  · rw [map_fst_recordsAt s s.addresses (fun _ ha => ha)]
    exact s.records.keys_nodup

section Example

def oneRecord : Snapshot := ExactBase.written 0 "a"

def oneHandle : Store Snapshot := snapshotIntoRaw Store.empty 8 oneRecord

/-- The snapshot handed over, and kept by the code as well. -/
theorem reaches_oneHandle : ∃ (steps : List Processes.Action) (p : Processes.Process)
    (kept : List Snapshot), p.builders = [] ∧ oneRecord ∈ kept ∧
      Reaches dom (rev 1) (steps.map .process ++ [.snapshotIntoRaw 8 oneRecord])
        ⟨p, kept, [], oneHandle, Store.empty⟩ := by
  obtain ⟨steps, d, hprocess⟩ := ExactBase.reaches_written
  obtain ⟨kept, hkept, hrun⟩ := run_process hprocess (start dom (rev 1)) rfl (fun _ hs => hs)
  have hmem : oneRecord ∈ kept := hkept _ (by simp [oneRecord])
  exact ⟨steps, _, kept, rfl, hmem, hrun.snoc (@Handles.Step.snapshotIntoRaw _ 8 oneRecord hmem
    (by decide) (AList.notMem_empty 8))⟩

theorem run_drops (p : Processes.Process) (kept : List Snapshot) (snapshots : Store Snapshot)
    (deltas : Store Delta) :
    Run Handles.Step ⟨p, kept, [], snapshots, deltas⟩ (kept.map .drop)
      ⟨p, [], [], snapshots, deltas⟩ := by
  induction kept with
  | nil => exact Run.nil _
  | cons s rest ih =>
    exact (Run.single (@Handles.Step.drop _ s [] rest rfl)).trans ih

theorem ledger_handedOver (steps : List Processes.Action) (more : List Action) :
    snapshotLedger (steps.map .process ++ [.snapshotIntoRaw 8 oneRecord] ++ more) =
      (Ledger.empty.record (.intoRaw 8 oneRecord)).recordAll
        (more.flatMap Action.onSnapshots) := by
  rw [snapshotLedger_append, (ledgers_process steps _).1]
  rfl

/-- The record outlives the handle it was found through, first as the code keeps it and then,
once the code has dropped everything, as another handle does. It goes with that one. -/
theorem borrowed_record_stays_retained : ∃ labels h, Reaches dom (rev 1) labels h ∧
    (∃ h', Run Handles.Step h [.snapshotRelease 8] h' ∧ readNode h' 0 = .done { text := "a" }) ∧
    ∃ h' h'', Run Handles.Step h
        (h.kept.map .drop ++ [.snapshotRetain 8 16] ++ [.snapshotRelease 8]) h' ∧
      readNode h' 0 = .done { text := "a" } ∧ Handles.Step h' (.snapshotRelease 16) h'' ∧
      cirNodeText h''.memory 0 = .trap .dangling := by
  obtain ⟨steps, p, kept, hbuilders, hkept, hrun⟩ := reaches_oneHandle
  obtain ⟨n, hn, hstays⟩ := borrowed_record_stays dom (rev 1) _ _ hrun 8 0 (addr .node 1) rfl
  have hvalue : n = { text := "a" } := by
    have hread := @readNode_held _ _ _ _ (run_sound hrun) 8 0 oneRecord
      (by rw [(ledgers_process ..).1]; rfl) (addr .node 1) _ rfl
    exact (Outcome.done.inj (hread.symm.trans hn)).symm
  subst hvalue
  have hrecord : (⟨0, { text := "a" }⟩ : Arc) ∈ arcsOf oneRecord.records :=
    (mem_arcsOf _ _).mpr ⟨addr .node 1, rfl⟩
  have hnone : (kept.map Action.drop).flatMap Action.onSnapshots = [] := by
    rw [List.flatMap_map]
    exact List.flatMap_eq_nil_iff.mpr (fun _ _ => rfl)
  -- what the caller does: release at once, or retain, release and release again
  obtain ⟨_, hatOnce⟩ := @exists_release_step _ _ _ _ (run_sound hrun) 8 0 oneRecord
    (by rw [(ledgers_process ..).1]; rfl)
  have hdrops := run_drops p kept oneHandle Store.empty
  obtain ⟨_, hstep⟩ := @exists_retain_step _ _ _ _ (run_sound (hrun.trans hdrops)) 8 16 0 oneRecord
    (by rw [ledger_handedOver, hnone]; rfl) (by decide) (by rw [ledger_handedOver, hnone]; rfl)
  have hretained := hdrops.snoc hstep
  obtain ⟨_, hstep⟩ := @exists_release_step _ _ _ _ (run_sound (hrun.trans hretained)) 8 0 oneRecord
    (by rw [ledger_handedOver, List.flatMap_append, hnone]; rfl)
  have hreleased := hretained.snoc hstep
  obtain ⟨_, hlast⟩ := @exists_release_step _ _ _ _ (run_sound (hrun.trans hreleased)) 16 0
    oneRecord (by rw [ledger_handedOver, List.flatMap_append, List.flatMap_append, hnone]; rfl)
  refine ⟨_, _, hrun, ⟨_, Run.single hatOnce, ?_⟩, _, _, hreleased, ?_, hlast, ?_⟩
  · exact (hstays _ _ (Run.single hatOnce)).2.1
      ⟨_, Or.inr (Or.inl ⟨oneRecord, hkept, hrecord⟩), rfl⟩
  · refine (hstays _ _ hreleased).2.1 ⟨_, Or.inl ⟨16, 0, oneRecord, ?_, hrecord⟩, rfl⟩
    rw [ledger_handedOver, List.flatMap_append, List.flatMap_append, hnone]
    rfl
  · refine (hstays _ _ (hreleased.snoc hlast)).2.2 (fun arc howned => ?_) Node.text
    rcases howned with ⟨ptr, serial, s, hheld, _⟩ | ⟨_, hs, _⟩ | ⟨_, hb, _⟩ | harc
    · rw [ledger_handedOver] at hheld
      simp only [List.flatMap_append, hnone] at hheld
      change Function.update (Function.update (Function.update (Function.update
        (fun _ : ℕ => none) 8 (some (0, oneRecord))) 16 (some (0, oneRecord))) 8 none) 16 none
          ptr = _ at hheld
      simp only [Function.update_apply] at hheld
      split_ifs at hheld
    · cases hs
    · rw [hbuilders] at hb
      cases hb
    · cases harc

/-- The whole document of one record, read through the boundary. -/
theorem boundary_is_sufficient_oneRecord : ∃ labels h, Reaches dom (rev 1) labels h ∧
    ∃ l, readDocument h 8 (fun _ => addr .frame 9) = .done l ∧
      (l.map Prod.fst).Nodup ∧ (addr .node 1, { text := "a" }) ∈ l := by
  obtain ⟨steps, p, kept, _, _, hrun⟩ := reaches_oneHandle
  obtain ⟨_, l, hl, hnodup, hmem⟩ := boundary_is_sufficient dom (rev 1) _ _ hrun 8 0 oneRecord
    (by rw [(ledgers_process ..).1]; rfl) (fun _ => addr .frame 9)
  exact ⟨_, _, hrun, l, hl, hnodup, (hmem _ _).mpr ⟨⟨0, { text := "a" }⟩, rfl, rfl⟩⟩

end Example

end CompositionIr.BoundaryReads
