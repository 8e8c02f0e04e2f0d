import CompositionIr.Processes

/-!
When a commit comes to an answer. The comparison walks down the children of records that
are equal on both sides, with no memory of where it has been. It walks on to a child
after it found the children listed before equal, so it runs forever exactly when it gets
to a cycle of such records. Which addresses it gets to is settled by the records alone.
-/

namespace CompositionIr.CommitTermination

open Outcomes Ascending ChildGraphs Transitions Addresses Records Placements Snapshots Deltas
open Commits PublishedStates SubtreeComparison DeltaSpec CommitSpec Processes Relation

section Comparison

variable (domain : Domain) (before after : RecordMap)

/-- A finite tree of own addresses with equal records on both sides, or with none. -/
inductive Equal : Address → Prop
  | absent {x : Address} (hx : x.domain = domain) (hb : before.lookup x = none)
      (ha : after.lookup x = none) : Equal x
  | live {x : Address} {b a : Arc} (hx : x.domain = domain) (hb : before.lookup x = some b)
      (ha : after.lookup x = some a) (hown : b.node.projection = a.node.projection)
      (hkids : ∀ c ∈ b.node.children, Equal c) : Equal x

/-- Two equal records list the child, behind children whose trees are equal. -/
structure Visits (x c : Address) : Prop where
  own : x.domain = domain
  listed : ∃ b a left right, before.lookup x = some b ∧ after.lookup x = some a ∧
    b.node.projection = a.node.projection ∧ b.node.children = left ++ c :: right ∧
    ∀ y ∈ left, Equal domain before after y

/-- A difference of own addresses that the walk comes to: the records of the two sides
differ here, or at the first child that is not equal. -/
inductive Unequal : Address → Prop
  | here {x : Address} (hx : x.domain = domain) (hne : state before x ≠ state after x) :
      Unequal x
  | child {x c : Address} (hvisit : Visits domain before after x c) (hc : Unequal c) :
      Unequal x

end Comparison

section Walk

variable {before after : Snapshot}

/-- The walk at an address of the own domain where the two sides agree. -/
theorem subtreeEq_agree (hdom : before.version.domain = after.version.domain) (fuel : ℕ)
    (x : Address) (hx : x.domain = before.version.domain) (b a : Arc)
    (hb : before.records.lookup x = some b) (ha : after.records.lookup x = some a)
    (hown : b.node.projection = a.node.projection) :
    subtreeEq before after (fuel + 1) x = b.node.children.allM (subtreeEq before after fuel) := by
  unfold subtreeEq
  rw [subtreeWith_own ownEqual before after fuel x hdom hx]
  simp only [hb, ha, (ownEqual_iff b a).mpr hown, if_true]

theorem subtreeEq_disagree (hdom : before.version.domain = after.version.domain) (fuel : ℕ)
    (x : Address) (hx : x.domain = before.version.domain)
    (hne : state before.records x ≠ state after.records x) :
    subtreeEq before after (fuel + 1) x = .done false := by
  unfold subtreeEq
  rw [subtreeWith_own ownEqual before after fuel x hdom hx]
  cases hb : before.records.lookup x with
  | none =>
    cases ha : after.records.lookup x with
    | none => exact absurd (by simp [graph, hb, ha]) hne
    | some a => rfl
  | some b =>
    cases ha : after.records.lookup x with
    | none => rfl
    | some a =>
      have hown : ¬ ownEqual b a = true := by
        rw [ownEqual_iff]
        intro hproj
        exact hne (by simp [graph, hb, ha, hproj])
      simp only [if_neg hown]

theorem subtreeEq_absent (hdom : before.version.domain = after.version.domain) (fuel : ℕ)
    (x : Address) (hx : x.domain = before.version.domain)
    (hb : before.records.lookup x = none) (ha : after.records.lookup x = none) :
    subtreeEq before after (fuel + 1) x = .done true := by
  unfold subtreeEq
  rw [subtreeWith_own ownEqual before after fuel x hdom hx]
  simp only [hb, ha]

/-- What two sides can show at one address. -/
theorem sides (before after : RecordMap) (x : Address) :
    (before.lookup x = none ∧ after.lookup x = none) ∨ state before x ≠ state after x ∨
      ∃ b a, before.lookup x = some b ∧ after.lookup x = some a ∧
        b.node.projection = a.node.projection := by
  by_cases hne : state before x = state after x
  · cases hb : before.lookup x with
    | none =>
      rw [(state_eq_none before x).mpr hb] at hne
      exact Or.inl ⟨rfl, (state_eq_none after x).mp hne.symm⟩
    | some b =>
      rw [state_of_lookup hb] at hne
      obtain ⟨a, ha, hproj⟩ := (state_eq_some after x _).mp hne.symm
      exact Or.inr (Or.inr ⟨b, a, rfl, ha, hproj.symm⟩)
  · exact Or.inr (Or.inl hne)

theorem equal_iff (hdom : before.version.domain = after.version.domain) (x : Address) :
    (∃ n, subtreeEq before after n x = .done true) ↔
      Equal before.version.domain before.records after.records x := by
  constructor
  · intro h
    obtain ⟨n, hn⟩ := h
    induction n generalizing x with
    | zero => cases hn
    | succ n ih =>
      have hx := domain_of_subtreeWith_done _ before after _ x true hn
      rcases sides before.records after.records x with ⟨hb, ha⟩ | hne | ⟨b, a, hb, ha, hown⟩
      · exact Equal.absent hx hb ha
      · rw [subtreeEq_disagree hdom n x hx hne] at hn
        cases hn
      · rw [subtreeEq_agree hdom n x hx b a hb ha hown, allM_eq_true] at hn
        exact Equal.live hx hb ha hown (fun c hc => ih c (hn c hc))
  · intro h
    induction h with
    | absent hx hb ha => exact ⟨1, subtreeEq_absent hdom 0 _ hx hb ha⟩
    | @live x b a hx hb ha hown _ ih =>
      obtain ⟨n, hn⟩ := exists_allM_eq_true (subtreeEq_mono before after) b.node.children ih
      exact ⟨n + 1, (subtreeEq_agree hdom n x hx b a hb ha hown).trans hn⟩

theorem unequal_iff (hdom : before.version.domain = after.version.domain) (x : Address) :
    (∃ n, subtreeEq before after n x = .done false) ↔
      Unequal before.version.domain before.records after.records x := by
  constructor
  · intro h
    obtain ⟨n, hn⟩ := h
    induction n generalizing x with
    | zero => cases hn
    | succ n ih =>
      have hx := domain_of_subtreeWith_done _ before after _ x false hn
      rcases sides before.records after.records x with ⟨hb, ha⟩ | hne | ⟨b, a, hb, ha, hown⟩
      · rw [subtreeEq_absent hdom n x hx hb ha] at hn
        cases hn
      · exact Unequal.here hx hne
      · rw [subtreeEq_agree hdom n x hx b a hb ha hown] at hn
        obtain ⟨left, c, right, hsplit, hleft, hc⟩ := (allM_eq_of_ne _ _ _ (by simp)).mp hn
        have hequal : ∀ y ∈ left, Equal before.version.domain before.records after.records y :=
          fun y hy => (equal_iff hdom y).mp ⟨n, hleft y hy⟩
        exact Unequal.child ⟨hx, b, a, left, right, hb, ha, hown, hsplit, hequal⟩ (ih c hc)
  · intro h
    induction h with
    | here hx hne => exact ⟨1, subtreeEq_disagree hdom 0 _ hx hne⟩
    | @child x c hvisit _ ih =>
      obtain ⟨hx, b, a, left, right, hb, ha, hown, hsplit, hleft⟩ := hvisit
      obtain ⟨n, hn⟩ := exists_allM_eq_false (subtreeEq_mono before after) left c right
        (fun y hy => (equal_iff hdom y).mpr (hleft y hy)) ih
      refine ⟨n + 1, ?_⟩
      rw [subtreeEq_agree hdom n x hx b a hb ha hown, hsplit]
      exact hn

/-- The walk from an address ends exactly when it is accessible. -/
theorem subtreeEq_terminates_iff (hdom : before.version.domain = after.version.domain)
    (x : Address) :
    Terminates (fun n => subtreeEq before after n x) ↔
      Acc (fun c x => Visits before.version.domain before.records after.records x c) x := by
  constructor
  · intro h
    obtain ⟨n, hn⟩ := h
    induction n generalizing x with
    | zero => exact absurd rfl hn
    | succ n ih =>
      refine Acc.intro x (fun c hvisit => ?_)
      obtain ⟨hx, b, a, left, right, hb, ha, hown, hsplit, hleft⟩ := hvisit
      apply ih c
      change subtreeEq before after (n + 1) x ≠ .starved at hn
      rw [subtreeEq_agree hdom n x hx b a hb ha hown, hsplit] at hn
      exact ne_starved_of_allM (subtreeEq_mono before after) n left c right hn
        (fun y hy => (equal_iff hdom y).mpr (hleft y hy))
  · intro h
    induction h with
    | intro x _ ih =>
      by_cases hx : x.domain = before.version.domain
      · rcases sides before.records after.records x with ⟨hb, ha⟩ | hne | ⟨b, a, hb, ha, hown⟩
        · exact ⟨1, by simp [subtreeEq_absent hdom 0 x hx hb ha]⟩
        · exact ⟨1, by simp [subtreeEq_disagree hdom 0 x hx hne]⟩
        · have hkids : Terminates (fun n => b.node.children.allM (subtreeEq before after n)) := by
            rw [terminates_allM_iff (subtreeEq_mono before after)]
            intro left c right hsplit hleft
            exact ih c ⟨hx, b, a, left, right, hb, ha, hown, hsplit,
              fun y hy => (equal_iff hdom y).mp (hleft y hy)⟩
          obtain ⟨n, hn⟩ := hkids
          refine ⟨n + 1, ?_⟩
          change subtreeEq before after (n + 1) x ≠ .starved
          rw [subtreeEq_agree hdom n x hx b a hb ha hown]
          exact hn
      · refine ⟨1, ?_⟩
        change subtreeWith ownEqual before after 1 x ≠ .starved
        rw [subtreeWith_foreign ownEqual before after 0 x hx]
        simp

end Walk

section Scan

variable (domain : Domain) (before after : RecordMap)

def listed (x : Address) : List Address := childrenOf before x ++ childrenOf after x

def Settled (x : Address) : Prop :=
  Equal domain before after x ∨
    Unequal domain before after x ∧ (after.lookup x ≠ none →
      (∀ c ∈ listed before after x, Equal domain before after c) ∨
        ∃ c ∈ listed before after x, Unequal domain before after c ∧
          ∀ y ∈ listed before after x, y < c → Equal domain before after y)

/-- The scan gets to the address: it is live on a side, and everything smaller that is
live on a side was settled. -/
structure Scanned (x : Address) : Prop where
  live : x ∈ before.keys ++ after.keys
  settled : ∀ y ∈ before.keys ++ after.keys, y < x → Settled domain before after y

/-- The addresses whose trees the commit starts to compare: those the scan gets to, and
the children it probes of one that differs, up to the first child that differs. -/
inductive Asked : Address → Prop
  | scan {x : Address} (hx : Scanned domain before after x) : Asked x
  | probe {x c : Address} (hx : Scanned domain before after x)
      (hdiffers : Unequal domain before after x) (hlive : after.lookup x ≠ none)
      (hc : c ∈ listed before after x)
      (hsmaller : ∀ y ∈ listed before after x, y < c → Equal domain before after y) : Asked c

end Scan

section Emitter

variable {before after : Snapshot}

theorem diffOf_mono (x : Address) :
    FuelMonotone (fun n => diffOf (subtreeEq before after n) before after x) :=
  fun n => diffOf_approx before after (fun y => subtreeEq_mono before after y n) x

theorem allM_subtreeEq_mono (l : List Address) :
    FuelMonotone (fun n => l.allM (subtreeEq before after n)) :=
  fun n => Outcome.Approx.allM (fun y => subtreeEq_mono before after y n) l

/-- The probing of the children ends when the walk from each child it gets to does. -/
theorem probe_terminates_iff (hdom : before.version.domain = after.version.domain)
    (l : List Address) :
    Terminates (fun n => (ascending l).allM (subtreeEq before after n)) ↔
      ∀ c ∈ l, (∀ y ∈ l, y < c → Equal before.version.domain before.records after.records y) →
        Terminates (fun n => subtreeEq before after n c) := by
  rw [terminates_allM_iff (subtreeEq_mono before after)]
  simp only [equal_iff hdom]
  constructor
  · intro h c hc hsmaller
    obtain ⟨left, right, hsplit, hleft⟩ := (split_ascending_iff l c _).mpr ⟨hc, hsmaller⟩
    exact h left c right hsplit hleft
  · intro h left c right hsplit hleft
    obtain ⟨hc, hsmaller⟩ := (split_ascending_iff l c _).mp ⟨left, right, hsplit, hleft⟩
    exact h c hc hsmaller

theorem probe_answers_iff (hdom : before.version.domain = after.version.domain)
    (l : List Address) :
    (∃ r n, (ascending l).allM (subtreeEq before after n) = .done r) ↔
      (∀ c ∈ l, Equal before.version.domain before.records after.records c) ∨
        ∃ c ∈ l, Unequal before.version.domain before.records after.records c ∧
          ∀ y ∈ l, y < c → Equal before.version.domain before.records after.records y := by
  constructor
  · intro h
    obtain ⟨r, n, hn⟩ := h
    cases r with
    | true =>
      rw [allM_eq_true] at hn
      exact Or.inl (fun c hc => (equal_iff hdom c).mp ⟨n, hn c ((mem_ascending _ _).mpr hc)⟩)
    | false =>
      obtain ⟨left, c, right, hsplit, hleft, hc⟩ := (allM_eq_of_ne _ _ _ (by simp)).mp hn
      obtain ⟨hmem, hsmaller⟩ := (split_ascending_iff l c
        (Equal before.version.domain before.records after.records)).mp
          ⟨left, right, hsplit, fun y hy => (equal_iff hdom y).mp ⟨n, hleft y hy⟩⟩
      exact Or.inr ⟨c, hmem, (unequal_iff hdom c).mp ⟨n, hc⟩, hsmaller⟩
  · intro h
    rcases h with hall | ⟨c, hc, hdiffers, hsmaller⟩
    · obtain ⟨n, hn⟩ := exists_allM_eq_true (subtreeEq_mono before after) (ascending l)
        (fun c hc => (equal_iff hdom c).mpr (hall c ((mem_ascending _ _).mp hc)))
      exact ⟨true, n, hn⟩
    · obtain ⟨left, right, hsplit, hleft⟩ := (split_ascending_iff l c _).mpr ⟨hc, hsmaller⟩
      obtain ⟨n, hn⟩ := exists_allM_eq_false (subtreeEq_mono before after) left c right
        (fun y hy => (equal_iff hdom y).mpr (hleft y hy)) ((unequal_iff hdom c).mpr hdiffers)
      exact ⟨false, n, by rw [hsplit]; exact hn⟩

def entryOf (before after : Snapshot) (x : Address) (n : ℕ) (q : Bool) : Eval (Option Diff) :=
  if q then .done none
  else match after.records.lookup x with
    | none => .done (some ⟨x, Parts.empty⟩)
    | some a =>
      (ascending (listed before.records after.records x)).allM (subtreeEq before after n) >>=
        fun r => .done (some ⟨x, entryParts (before.records.lookup x) a r⟩)

theorem entryOf_mono (x : Address) (q : Bool) :
    FuelMonotone (fun n => entryOf before after x n q) := by
  intro n
  unfold entryOf
  cases q with
  | true => exact Outcome.Approx.refl _
  | false =>
    cases after.records.lookup x with
    | none => exact Outcome.Approx.refl _
    | some a => exact (allM_subtreeEq_mono _ n).bind (fun _ => Outcome.Approx.refl _)

theorem diffOf_entryOf (hdom : before.version.domain = after.version.domain) (n : ℕ)
    (x : Address) (hx : x.domain = before.version.domain) :
    diffOf (subtreeEq before after n) before after x =
      subtreeEq before after n x >>= entryOf before after x n :=
  diffOf_own x hx (hx.trans hdom)

theorem diffOf_foreign (n : ℕ) (x : Address) (hx : x.domain ≠ before.version.domain) :
    diffOf (subtreeEq before after (n + 1)) before after x = .trap .foreignDomain := by
  unfold diffOf subtreeEq
  rw [subtreeWith_foreign ownEqual before after n x hx, Outcome.trap_bind]

theorem entryOf_false_terminates_iff (hdom : before.version.domain = after.version.domain)
    (x : Address) :
    Terminates (fun n => entryOf before after x n false) ↔
      (after.records.lookup x ≠ none → ∀ c ∈ listed before.records after.records x,
        (∀ y ∈ listed before.records after.records x, y < c →
          Equal before.version.domain before.records after.records y) →
        Terminates (fun n => subtreeEq before after n c)) := by
  rw [← probe_terminates_iff hdom]
  unfold entryOf
  cases after.records.lookup x with
  | none => exact ⟨fun _ h => absurd rfl h, fun _ => ⟨0, by simp⟩⟩
  | some a =>
    simp only [Bool.false_eq_true, if_false, ne_eq, reduceCtorEq, not_false_eq_true, true_implies]
    rw [terminates_bind_iff (allM_subtreeEq_mono _) (fun _ _ => Outcome.Approx.refl _)]
    exact and_iff_left (fun r _ => ⟨0, by simp⟩)

theorem entryOf_false_answers_iff (hdom : before.version.domain = after.version.domain)
    (x : Address) :
    (∃ e n, entryOf before after x n false = .done e) ↔
      (after.records.lookup x ≠ none →
        (∀ c ∈ listed before.records after.records x,
          Equal before.version.domain before.records after.records c) ∨
        ∃ c ∈ listed before.records after.records x,
          Unequal before.version.domain before.records after.records c ∧
          ∀ y ∈ listed before.records after.records x, y < c →
            Equal before.version.domain before.records after.records y) := by
  rw [← probe_answers_iff hdom]
  unfold entryOf
  cases after.records.lookup x with
  | none => exact ⟨fun _ h => absurd rfl h, fun _ => ⟨_, 0, rfl⟩⟩
  | some a =>
    simp only [Bool.false_eq_true, if_false, ne_eq, reduceCtorEq, not_false_eq_true, true_implies,
      Outcome.bind_eq_done]
    constructor
    · intro h
      obtain ⟨_, n, r, hr, _⟩ := h
      exact ⟨r, n, hr⟩
    · intro h
      obtain ⟨r, n, hr⟩ := h
      exact ⟨_, n, r, hr, rfl⟩

theorem equal_own {domain : Domain} {b a : RecordMap} {x : Address} (h : Equal domain b a x) :
    x.domain = domain := by
  cases h with
  | absent hx _ _ => exact hx
  | live hx _ _ _ _ => exact hx

theorem unequal_own {domain : Domain} {b a : RecordMap} {x : Address}
    (h : Unequal domain b a x) : x.domain = domain := by
  cases h with
  | here hx _ => exact hx
  | child hvisit _ => exact hvisit.own

/-- The scan answers at an address exactly when the address is settled. -/
theorem diffOf_answers_iff (hdom : before.version.domain = after.version.domain) (x : Address) :
    (∃ e n, diffOf (subtreeEq before after n) before after x = .done e) ↔
      Settled before.version.domain before.records after.records x := by
  by_cases hx : x.domain = before.version.domain
  · simp only [diffOf_entryOf hdom _ x hx,
      exists_bind_eq_done (subtreeEq_mono before after x) (entryOf_mono x)]
    unfold Settled
    rw [← equal_iff hdom x, ← unequal_iff hdom x, ← entryOf_false_answers_iff hdom x]
    constructor
    · intro h
      obtain ⟨e, q, hq, hentry⟩ := h
      cases q with
      | true => exact Or.inl hq
      | false => exact Or.inr ⟨hq, e, hentry⟩
    · intro h
      rcases h with hq | ⟨hq, e, hentry⟩
      · exact ⟨none, true, hq, 0, rfl⟩
      · exact ⟨e, false, hq, hentry⟩
  · constructor
    · intro h
      obtain ⟨e, n, hn⟩ := h
      cases n with
      | zero => cases hn
      | succ n =>
        rw [diffOf_foreign n x hx] at hn
        cases hn
    · intro h
      rcases h with h | ⟨h, _⟩
      · exact absurd (equal_own h) hx
      · exact absurd (unequal_own h) hx

/-- The scan does not hang at an address exactly when no walk it starts there does. -/
theorem diffOf_terminates_iff (hdom : before.version.domain = after.version.domain)
    (x : Address) :
    Terminates (fun n => diffOf (subtreeEq before after n) before after x) ↔
      Terminates (fun n => subtreeEq before after n x) ∧
        (Unequal before.version.domain before.records after.records x →
          after.records.lookup x ≠ none → ∀ c ∈ listed before.records after.records x,
          (∀ y ∈ listed before.records after.records x, y < c →
            Equal before.version.domain before.records after.records y) →
          Terminates (fun n => subtreeEq before after n c)) := by
  by_cases hx : x.domain = before.version.domain
  · simp only [diffOf_entryOf hdom _ x hx]
    rw [terminates_bind_iff (subtreeEq_mono before after x) (entryOf_mono x),
      ← entryOf_false_terminates_iff hdom x, ← unequal_iff hdom x]
    refine and_congr Iff.rfl ⟨fun h => h false, fun h q hq => ?_⟩
    cases q with
    | true => exact ⟨0, by simp [entryOf]⟩
    | false => exact h hq
  · constructor
    · intro _
      refine ⟨⟨1, ?_⟩, fun h => absurd (unequal_own h) hx⟩
      change subtreeWith ownEqual before after 1 x ≠ .starved
      rw [subtreeWith_foreign ownEqual before after 0 x hx]
      simp
    · intro _
      exact ⟨1, by simp [diffOf_foreign 0 x hx]⟩

theorem diffsFrom_mono (l : List Address) :
    FuelMonotone (fun n => diffsFrom (subtreeEq before after n) before after l) :=
  fun n => diffsFrom_approx before after (fun x => subtreeEq_mono before after x n) l

/-- The scan of a list ends when it ends at each address it gets to. -/
theorem diffsFrom_terminates_iff (l : List Address) :
    Terminates (fun n => diffsFrom (subtreeEq before after n) before after l) ↔
      ∀ left x right, l = left ++ x :: right →
        (∀ y ∈ left, ∃ e n, diffOf (subtreeEq before after n) before after y = .done e) →
        Terminates (fun n => diffOf (subtreeEq before after n) before after x) := by
  induction l with
  | nil =>
    refine ⟨fun _ left x right hsplit => by simp at hsplit, fun _ => ⟨0, by simp [diffsFrom]⟩⟩
  | cons x rest ih =>
    unfold diffsFrom
    rw [terminates_bind_iff (diffOf_mono x)
      (fun _ n => (diffsFrom_mono rest n).bind (fun _ => Outcome.Approx.refl _))]
    have hrest : ∀ e : Option Diff,
        Terminates (fun n => diffsFrom (subtreeEq before after n) before after rest >>=
          fun out => Outcome.done (e.toList ++ out)) ↔
        Terminates (fun n => diffsFrom (subtreeEq before after n) before after rest) := by
      intro e
      rw [terminates_bind_iff (diffsFrom_mono rest) (fun _ _ => Outcome.Approx.refl _)]
      exact and_iff_left (fun _ _ => ⟨0, by simp⟩)
    simp only [Outcome.pure_eq, hrest, ih]
    constructor
    · intro h left y right hsplit hleft
      cases left with
      | nil =>
        obtain ⟨hxy, _⟩ := List.cons.inj hsplit
        rw [← hxy]
        exact h.1
      | cons z left =>
        obtain ⟨hxz, hsplit⟩ := List.cons.inj hsplit
        obtain ⟨e, he⟩ := hleft z (List.mem_cons_self ..)
        rw [← hxz] at he
        exact h.2 e he left y right hsplit (fun w hw => hleft w (List.mem_cons_of_mem _ hw))
    · intro h
      refine ⟨h [] x rest rfl (by simp), fun e he left y right hsplit hleft => ?_⟩
      refine h (x :: left) y right (by rw [hsplit]; rfl) ?_
      intro w hw
      rcases List.mem_cons.mp hw with hw | hw
      · rw [hw]
        exact ⟨e, he⟩
      · exact hleft w hw

/-- The comparison of two snapshots ends exactly when every walk it starts does. -/
theorem diffsBetween_terminates_iff (hdom : before.version.domain = after.version.domain) :
    Terminates (fun n => diffsBetween before after n) ↔
      ∀ x, Asked before.version.domain before.records after.records x →
        Terminates (fun n => subtreeEq before after n x) := by
  unfold diffsBetween
  rw [diffsFrom_terminates_iff]
  simp only [diffOf_answers_iff hdom, diffOf_terminates_iff hdom]
  constructor
  · intro h x hx
    have hscan : ∀ y, Scanned before.version.domain before.records after.records y →
        ∃ left right, scanned before after = left ++ y :: right ∧
          ∀ z ∈ left, Settled before.version.domain before.records after.records z :=
      fun y hy => (split_ascending_iff _ y _).mpr ⟨hy.live, hy.settled⟩
    cases hx with
    | scan hx =>
      obtain ⟨left, right, hsplit, hleft⟩ := hscan x hx
      exact (h left x right hsplit hleft).1
    | @probe y _ hy hdiffers hlive hc hsmaller =>
      obtain ⟨left, right, hsplit, hleft⟩ := hscan y hy
      exact (h left y right hsplit hleft).2 hdiffers hlive x hc hsmaller
  · intro h left x right hsplit hleft
    obtain ⟨hlive, hsettled⟩ := (split_ascending_iff (before.addresses ++ after.addresses) x
      (Settled before.version.domain before.records after.records)).mp
        ⟨left, right, hsplit, hleft⟩
    have hx : Scanned before.version.domain before.records after.records x := ⟨hlive, hsettled⟩
    exact ⟨h x (Asked.scan hx), fun hdiffers hin c hc hsmaller =>
      h c (Asked.probe hx hdiffers hin hc hsmaller)⟩

end Emitter

section Commit

abbrev Asks (b : SnapshotBuilder) : Address → Prop :=
  Asked b.base.version.domain b.base.records b.records

abbrev Walks (b : SnapshotBuilder) : Address → Address → Prop :=
  Visits b.base.version.domain b.base.records b.records

/-- No comparison the commit asks for gets to a cycle. -/
def NoCycleMet (b : SnapshotBuilder) : Prop :=
  ∀ x, Asks b x → ¬ ∃ y, ReflTransGen (Walks b) x y ∧ TransGen (Walks b) y y

theorem nextRevision_cases (r : Revision) :
    (∃ next, nextRevision r = .done next) ∨ r.value = NonZeroU64.max := by
  cases h : nextRevision r with
  | done next => exact Or.inl ⟨next, rfl⟩
  | trap e => exact Or.inr ((nextRevision_eq_trap_iff r e).mp h).1
  | starved =>
    unfold nextRevision at h
    split at h <;> cases h

theorem commit_terminates_of_next (b : SnapshotBuilder) (next : Revision)
    (hnext : nextRevision b.base.version.revision = .done next) :
    Terminates (commit b) ↔ NoCycleMet b := by
  have hcommit : ∀ fuel, commit b fuel = diffsBetween b.base (candidate b next) fuel >>=
      fun diffs => if diffs.isEmpty && (candidate b next).placement == b.base.placement then
        .done ⟨b.base, ⟨b.base.version, b.base.version, []⟩⟩
        else .done ⟨candidate b next, ⟨b.base.version, (candidate b next).version, diffs⟩⟩ := by
    intro fuel
    unfold commit
    rw [hnext]
    rfl
  have hwalk : ∀ x, Terminates (fun n => subtreeEq b.base (candidate b next) n x) ↔
      ¬ ∃ y, ReflTransGen (Walks b) x y ∧ TransGen (Walks b) y y := by
    intro x
    rw [subtreeEq_terminates_iff (candidate_domain b next) x]
    apply acc_iff_no_cycle (Walks b) b.base.addresses.toFinset
    intro y c hvisit
    obtain ⟨arc, _, _, _, harc, _⟩ := hvisit.listed
    exact List.mem_toFinset.mpr ((mem_addresses b.base y).mpr ⟨arc, harc⟩)
  have hterm : Terminates (commit b) ↔
      Terminates (fun n => diffsBetween b.base (candidate b next) n) := by
    rw [show commit b = fun fuel => _ from funext hcommit,
      terminates_bind_iff (diffsBetween_mono _ _) (fun _ _ => Outcome.Approx.refl _)]
    refine and_iff_left (fun diffs _ => ⟨0, ?_⟩)
    split <;> simp
  rw [hterm, diffsBetween_terminates_iff (candidate_domain b next)]
  simp only [hwalk]
  rfl

/-- A commit terminates exactly when the revisions ran out or no comparison it asks for
gets to a cycle. Over own addresses it then returns. -/
theorem commit_terminates_iff (b : SnapshotBuilder) :
    (Terminates (commit b) ↔
      b.base.version.revision.value = NonZeroU64.max ∨ NoCycleMet b) ∧
    (OwnAddresses b.base → (∀ revision, OwnAddresses (candidate b revision)) →
      ((∃ fuel c, commit b fuel = .done c) ↔
        b.base.version.revision.value ≠ NonZeroU64.max ∧ NoCycleMet b)) := by
  rcases nextRevision_cases b.base.version.revision with ⟨next, hnext⟩ | hmax
  · have hne : b.base.version.revision.value ≠ NonZeroU64.max := by
      intro hmax
      rw [(nextRevision_eq_trap_iff _ .revisionExhausted).mpr ⟨hmax, rfl⟩] at hnext
      cases hnext
    have hterm := commit_terminates_of_next b next hnext
    refine ⟨by simp [hterm, hne], fun hb ha => ?_⟩
    rw [and_iff_right hne, ← hterm]
    constructor
    · intro h
      obtain ⟨fuel, c, hc⟩ := h
      exact ⟨fuel, by rw [hc]; simp⟩
    · intro h
      obtain ⟨fuel, hfuel⟩ := h
      refine ⟨fuel, ?_⟩
      cases hc : commit b fuel with
      | done c => exact ⟨c, rfl⟩
      | starved => exact absurd hc hfuel
      | trap e =>
        have hlast := commit_trap b hb ha fuel e hc
        rw [hnext] at hlast
        cases hlast
  · have htrap : ∀ fuel, commit b fuel = .trap .revisionExhausted := by
      intro fuel
      unfold commit
      rw [(nextRevision_eq_trap_iff _ .revisionExhausted).mpr ⟨hmax, rfl⟩]
      rfl
    refine ⟨iff_of_true ⟨0, by simp [htrap]⟩ (Or.inl hmax), fun _ _ => ?_⟩
    simp [htrap, hmax]

end Commit

section Loop

def looping : SnapshotBuilder :=
  { (Snapshot.empty dom (rev 1)).edit with
    records := (∅ : RecordMap).insert (addr .node 1) ⟨0, { children := [addr .node 1] }⟩ }

def loopedDocument : Snapshot := candidate looping (rev 2)

def unrelated : SnapshotBuilder :=
  { loopedDocument.edit with
    records := loopedDocument.records.insert (addr .node 2) ⟨1, {}⟩ }

theorem walks_unrelated : Walks unrelated (addr .node 1) (addr .node 1) :=
  ⟨rfl, ⟨0, { children := [addr .node 1] }⟩, ⟨0, { children := [addr .node 1] }⟩, [], [], rfl, rfl,
    rfl, rfl, by simp⟩

theorem asks_unrelated : Asks unrelated (addr .node 1) := by
  refine Asked.scan ⟨by decide, ?_⟩
  have hleast : ∀ y ∈ unrelated.base.records.keys ++ unrelated.records.keys,
      ¬ y < addr .node 1 := by decide
  exact fun y hy hlt => absurd hlt (hleast y hy)

/-- A record that lists itself is published by the commit that creates it, and the next
commit, which puts a record elsewhere, runs forever. -/
theorem unchanged_cycle_hangs :
    ∃ labels p, Reaches dom (rev 1) labels p ∧
      ∃ s ∈ p.snapshots, ∀ fuel,
        editAndCommit s [.put (addr .node 2) {}] p.heap fuel = .starved := by
  obtain ⟨delta, hcommit⟩ : ∃ delta, commit looping 2 = .done ⟨loopedDocument, delta⟩ := ⟨_, rfl⟩
  obtain ⟨labels, hrun⟩ := reaches_editAndCommit (Run.nil (start dom (rev 1)))
    (Snapshot.empty dom (rev 1)) (by simp [start])
    [.put (addr .node 1) { children := [addr .node 1] }] looping ⟨1⟩ rfl 2 _ hcommit
  refine ⟨labels, _, hrun, loopedDocument, by simp, fun fuel => ?_⟩
  have hmet : ¬ NoCycleMet unrelated := by
    intro h
    exact h _ asks_unrelated ⟨_, ReflTransGen.refl, TransGen.single walks_unrelated⟩
  have hterm : ¬ Terminates (commit unrelated) := by
    rw [commit_terminates_of_next unrelated (rev 3) rfl]
    exact hmet
  by_contra hne
  exact hterm ⟨fuel, hne⟩

def besideCycle : Snapshot :=
  holding (rev 1) 0 [(addr .node 1, { children := [addr .node 2] }), (addr .node 2, {}),
    (addr .node 3, { children := [addr .node 3] })]

def rewriting : SnapshotBuilder :=
  { besideCycle.edit with
    records := besideCycle.records.insert (addr .node 3)
      ⟨3, { text := "new", children := [addr .node 3] }⟩ }

/-- The walk goes from the parent to its child, and no further. -/
theorem walks_rewriting {x c : Address} (hvisit : Walks rewriting x c) :
    x = addr .node 1 ∧ c = addr .node 2 := by
  obtain ⟨b, a, left, right, hb, ha, hsame, hlist, _⟩ := hvisit.listed
  have hlive : ∀ y ∈ besideCycle.addresses,
      y = addr .node 1 ∨ y = addr .node 2 ∨ y = addr .node 3 := by decide
  rcases hlive x ((mem_addresses _ _).mpr ⟨b, hb⟩) with rfl | rfl | rfl
  · rw [← Option.some.inj (hb : some _ = some b)] at hlist
    cases left with
    | nil => exact ⟨rfl, (List.cons.inj hlist).1.symm⟩
    | cons _ left => exact absurd (List.cons.inj hlist).2.symm (by simp)
  · rw [← Option.some.inj (hb : some _ = some b)] at hlist
    exact absurd hlist.symm (by simp)
  · rw [← Option.some.inj (hb : some _ = some b), ← Option.some.inj (ha : some _ = some a)] at hsame
    have htext : ("" : String) = "new" := congrFun hsame Part.text
    exact absurd htext (by decide)

theorem walks_rewriting_parent : Walks rewriting (addr .node 1) (addr .node 2) :=
  ⟨rfl, _, _, [], [], rfl, rfl, rfl, rfl, by simp⟩

/-- The walk over what was not edited ends, and the cycle is not walked because its record was
edited. -/
theorem commit_terminates_rewriting :
    Walks rewriting (addr .node 1) (addr .node 2) ∧ ∃ fuel c, commit rewriting fuel = .done c := by
  have hcand : ∀ revision, OwnAddresses (candidate rewriting revision) := by
    intro revision
    have hown : ∀ x ∈ rewriting.records.keys, x.domain = dom ∧
        ∀ c ∈ childrenOf rewriting.records x, c.domain = dom := by decide
    exact (ownAddresses_iff _).mpr hown
  have hfree : NoCycleMet rewriting := by
    intro x _ hmet
    obtain ⟨y, _, hcycle⟩ := hmet
    -- the first step of a cycle is the one from the parent, and there is none to follow
    obtain ⟨c, hfirst, hback⟩ := TransGen.head'_iff.mp hcycle
    obtain ⟨rfl, rfl⟩ := walks_rewriting hfirst
    rcases hback.cases_head with heq | ⟨_, hnext, _⟩
    · exact absurd heq (by decide)
    · exact absurd (walks_rewriting hnext).1 (by decide)
  exact ⟨walks_rewriting_parent,
    ((commit_terminates_iff rewriting).2 (by decide) hcand).mpr ⟨by decide, hfree⟩⟩

end Loop

end CompositionIr.CommitTermination
