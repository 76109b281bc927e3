import LowLevelCpp.MarkSweep.Collect

/-! Whole runs of the collector and the program around it, with any number of collections:
when what is reachable has been tracked, every collection keeps exactly the reachable
objects; otherwise a stale mark can cost a reachable object its life. -/
namespace MarkSweep
open Foundations Foundations.System

variable {Addr : Type}

/-- Every root and every reference of a tracked object is non-null and points to a
tracked object. -/
structure State.WellTracked (s : State Addr) : Prop where
  roots : ∀ r ∈ s.roots, ∃ b ∈ s.objects, r = some b
  references : ∀ a ∈ s.objects, ∀ r ∈ (s.heap.obj a).references, ∃ b ∈ s.objects, r = some b

/-- A condition on the states in which `collect` is called. -/
def AtCollect (Q : State Addr → Prop) (s : State Addr) (act : Act Addr) : Prop :=
  ∀ order, act = .collect order → Q s

instance (Q : State Addr → Prop) [DecidablePred Q] :
    ∀ s act, Decidable (AtCollect Q s act)
  | s, .collect _ => decidable_of_iff (Q s) ⟨fun h _ _ => h, fun h => h _ rfl⟩
  | _, .create _ | _, .track _ | _, .addRoot _ | _, .setRoots _ | _, .setReferences _ _ =>
    .isTrue fun _ h => nomatch h

/-- The pointers that a collection follows are valid and all reachable objects are
tracked. -/
structure State.ReachableTracked (s : State Addr) : Prop where
  live : s.PointersLive
  tracked : ∀ a, s.Reachable a → a ∈ s.objects

theorem State.WellTracked.reachable {s : State Addr} (hw : s.WellTracked) {a : Addr}
    (ha : s.Reachable a) : a ∈ s.objects := by
  obtain ⟨r, hr, hpath⟩ := ha
  induction hpath with
  | refl =>
    obtain ⟨b, hb, hrb⟩ := hw.roots _ hr
    exact Option.some.inj hrb ▸ hb
  | tail _ he ih =>
    obtain ⟨b, hb, hcb⟩ := hw.references _ ih _ he
    exact Option.some.inj hcb ▸ hb

theorem State.WellTracked.reachableTracked {s : State Addr} (hw : s.WellTracked)
    (hobjects : s.objects ⊆ s.heap.live) : s.ReachableTracked where
  live :=
    { roots := fun r hr => (hw.roots r hr).imp fun _ h => ⟨hobjects h.1, h.2⟩
      references := fun a ha r hr =>
        (hw.references a (ha.elim id hw.reachable) r hr).imp fun _ h => ⟨hobjects h.1, h.2⟩ }
  tracked := fun _ ha => hw.reachable ha

/-- Between steps of the program no object is marked, and tracked objects are live. -/
structure Clean (s : State Addr) : Prop where
  live : s.objects ⊆ s.heap.live
  black : s.heap.black = ∅

/-- With nothing marked before, marking marks what is reachable. -/
theorem Clean.markedAfter {s : State Addr} (h : Clean s) (a : Addr) :
    a ∈ s.markedAfter ↔ s.Reachable a := by
  rw [State.markedAfter, h.black, mem_traced, white_empty_iff]
  simp [State.Reachable]

variable [DecidableEq Addr]

instance (s : State Addr) : Decidable s.WellTracked :=
  decidable_of_iff (_ ∧ _) ⟨fun h => ⟨h.1, h.2⟩, fun h => ⟨h.roots, h.references⟩⟩

section Steps
variable {s s' : State Addr} {act : Act Addr} {out : List (Line Addr)} {order : List Addr}

theorem collect_of_step (hs : step s (.collect order) = some (s', out)) :
    IterationOrder s order ∧ collect order s = .ok (s', out) := by
  simp only [step] at hs
  split at hs
  · rename_i ho
    cases hc : collect order s with
    | error e => simp [hc, Except.toOption] at hs
    | ok r => exact ⟨ho, by simpa [hc, Except.toOption] using hs⟩
  · cases hs

theorem deref_eq_ok {h : Heap Addr} {p : Option Addr} {a : Addr} (hd : h.deref p = .ok a) :
    p = some a ∧ a ∈ h.live := by
  cases p with
  | none => cases hd
  | some b =>
    simp only [Heap.deref] at hd
    split at hd
    · obtain rfl := Except.ok.inj hd
      exact ⟨rfl, ‹_›⟩
    · cases hd

theorem toOption_eq_some {ε α : Type} {x : Except ε α} {a : α} (h : x.toOption = some a) :
    x = .ok a := by
  cases x with
  | error e => cases h
  | ok b => exact congrArg _ (Option.some.inj h)

/-- What a step other than a collection does: it keeps the tracked objects live and sets
no mark. -/
theorem mutator_step (hs : step s act = some (s', out)) (hact : ∀ order, act ≠ .collect order)
    (hobjects : s.objects ⊆ s.heap.live) :
    s'.objects ⊆ s'.heap.live ∧ s'.heap.black ⊆ s.heap.black := by
  cases act with
  | create a =>
    simp only [step] at hs
    split at hs
    · cases hs
    · obtain ⟨rfl, -⟩ := Prod.mk.inj (Option.some.inj hs)
      refine ⟨hobjects.trans (Finset.subset_insert _ _), fun b hb => ?_⟩
      by_cases hab : b = a
      · simp [Heap.create, hab] at hb
      · simpa [Heap.create, hab] using hb
  | track obj =>
    obtain ⟨a, ha, h⟩ := bind_eq_ok.mp (toOption_eq_some hs)
    obtain ⟨rfl, -⟩ := Prod.mk.inj (Except.ok.inj h)
    exact ⟨Finset.insert_subset (deref_eq_ok ha).2 hobjects, subset_rfl⟩
  | addRoot obj =>
    obtain ⟨a, -, h⟩ := bind_eq_ok.mp (toOption_eq_some hs)
    obtain ⟨rfl, -⟩ := Prod.mk.inj (Except.ok.inj h)
    exact ⟨hobjects, subset_rfl⟩
  | setRoots roots =>
    obtain ⟨rfl, -⟩ := Prod.mk.inj (Option.some.inj hs)
    exact ⟨hobjects, subset_rfl⟩
  | setReferences obj refs =>
    obtain ⟨a, -, h⟩ := Option.map_eq_some_iff.mp hs
    obtain ⟨rfl, -⟩ := Prod.mk.inj h
    refine ⟨hobjects, fun b hb => ?_⟩
    by_cases hab : b = a
    · subst hab
      simpa [Heap.setReferences] using hb
    · simpa [Heap.setReferences, hab] using hb
  | collect order => exact absurd rfl (hact order)

omit [DecidableEq Addr] in
theorem Collects.objects_live (hc : Collects s s' out) (hobjects : s.objects ⊆ s.heap.live) :
    s'.objects ⊆ s'.heap.live := by
  intro a ha
  obtain ⟨hobj, hmarked⟩ := (hc.objects a).mp ha
  exact (hc.live a).mpr ⟨hobjects hobj, fun hd => ((hc.deleted a).mp hd).2 hmarked⟩

/-- Tracked objects stay live in every run whose collections follow valid pointers. -/
theorem objects_live_of_run {s : State Addr} {log : List (Line Addr)}
    (hrun : (system Addr).RunWhere (AtCollect State.PointersLive) s log) :
    s.objects ⊆ s.heap.live := by
  refine hrun.invariant (I := fun s _ => s.objects ⊆ s.heap.live) (Finset.Subset.refl _) ?_
  intro s log act s' out _ ih hp hs
  by_cases hact : ∃ order, act = .collect order
  · obtain ⟨order, rfl⟩ := hact
    obtain ⟨ho, hc⟩ := collect_of_step hs
    exact (collect_collects ih (hp order rfl) ho hc).objects_live ih
  · exact (mutator_step hs (not_exists.mp hact) ih).1

/-- The sweep clears every mark that marking has set on a tracked object, so when all
that is marked is tracked the next collection starts with none. -/
theorem Clean.step (hclean : Clean s) (hp : AtCollect State.ReachableTracked s act)
    (hs : step s act = some (s', out)) : Clean s' := by
  by_cases hact : ∃ order, act = .collect order
  · obtain ⟨order, rfl⟩ := hact
    obtain ⟨ho, hc⟩ := collect_of_step hs
    have hr := hp order rfl
    have heffect := collect_collects hclean.live hr.live ho hc
    refine ⟨heffect.objects_live hclean.live, ?_⟩
    rw [heffect.black, Set.eq_empty_iff_forall_notMem]
    rintro a ⟨hmarked, hnot⟩
    exact hnot (hr.tracked a ((hclean.markedAfter a).mp hmarked))
  · obtain ⟨hlive, hblack⟩ := mutator_step hs (not_exists.mp hact) hclean.live
    exact ⟨hlive, Set.subset_eq_empty hblack hclean.black⟩

end Steps

section Runs
variable {s : State Addr} {log : List (Line Addr)} {order : List Addr}

theorem clean_initial : Clean (system Addr).init where
  live := Finset.Subset.refl _
  black := by
    ext a
    simp [system, initial]

theorem clean_of_reachableTracked
    (hrun : (system Addr).RunWhere (AtCollect State.ReachableTracked) s log) : Clean s :=
  hrun.invariant (I := fun s _ => Clean s) clean_initial
    fun _ _ _ _ _ _ hclean hp hs => hclean.step hp hs

theorem clean_of_wellTracked
    (hrun : (system Addr).RunWhere (AtCollect State.WellTracked) s log) : Clean s :=
  hrun.invariant (I := fun s _ => Clean s) clean_initial
    fun _ _ _ _ _ _ hclean hp hs =>
      hclean.step (fun order ho => (hp order ho).reachableTracked hclean.live) hs

/-- The collection from `s` to `s'` deletes the tracked objects that are not reachable,
each once, and touches nothing else but the flags; no pointer to a deleted object is
left in the roots and the surviving objects. -/
structure CollectsExactly (s s' : State Addr) (out : List (Line Addr)) : Prop where
  objects : ∀ a, a ∈ s'.objects ↔ a ∈ s.objects ∧ s.Reachable a
  once : (destroyed out).Nodup
  deleted : ∀ a, a ∈ destroyed out ↔ a ∈ s.objects ∧ ¬ s.Reachable a
  live : ∀ a, a ∈ s'.heap.live ↔ a ∈ s.heap.live ∧ a ∉ destroyed out
  references : ∀ a, (s'.heap.obj a).references = (s.heap.obj a).references
  roots : s'.roots = s.roots
  unmarked : ∀ a ∈ s'.objects, (s'.heap.obj a).marked = false
  survivors_live : s'.objects ⊆ s'.heap.live
  wellTracked : s'.WellTracked

omit [DecidableEq Addr] in
/-- A collection is exact if the tracked objects that it marks are the reachable ones. -/
theorem Collects.exactly {s' : State Addr} {out : List (Line Addr)}
    (hlive : s.objects ⊆ s.heap.live)
    (hmarked : ∀ a ∈ s.objects, a ∈ s.markedAfter ↔ s.Reachable a) (hw : s.WellTracked)
    (hc : Collects s s' out) : CollectsExactly s s' out := by
  have hobjects (a : Addr) : a ∈ s'.objects ↔ a ∈ s.objects ∧ s.Reachable a := by
    rw [hc.objects, and_congr_right (hmarked a)]
  constructor
  · exact hobjects
  · exact hc.once
  · intro a
    rw [hc.deleted, and_congr_right fun ha => not_congr (hmarked a ha)]
  · exact hc.live
  · exact hc.references
  · exact hc.roots
  · intro a ha
    have hblack : a ∉ s'.heap.black := by
      rw [hc.black]
      exact fun h => h.2 ((hobjects a).mp ha).1
    simpa using hblack
  · exact hc.objects_live hlive
  · constructor
    · intro r hr
      rw [hc.roots] at hr
      obtain ⟨b, hb, rfl⟩ := hw.roots r hr
      exact ⟨b, (hobjects b).mpr ⟨hb, b, hr, .refl⟩, rfl⟩
    · intro a ha r hr
      rw [hc.references] at hr
      obtain ⟨hobj, c, hc, hpath⟩ := (hobjects a).mp ha
      obtain ⟨b, hb, rfl⟩ := hw.references a hobj r hr
      exact ⟨b, (hobjects b).mpr ⟨hb, c, hc, hpath.tail hr⟩, rfl⟩

theorem printGraph_ok_of_wellTracked (hw : s.WellTracked) (hobjects : s.objects ⊆ s.heap.live)
    (horder : ∀ a ∈ order, a ∈ s.objects) : ∃ lines, printGraph order s = .ok lines :=
  printGraph_ok (fun a ha => hobjects (horder a ha))
    (fun r hr => (hw.roots r hr).imp fun _ h => ⟨hobjects h.1, h.2⟩)
    (fun a ha r hr => (hw.references a (horder a ha) r hr).imp fun _ h => ⟨hobjects h.1, h.2⟩)

theorem State.WellTracked.collect (hw : s.WellTracked) (hlive : s.objects ⊆ s.heap.live)
    (hmarked : ∀ a ∈ s.objects, a ∈ s.markedAfter ↔ s.Reachable a) (ho : IterationOrder s order) :
    ∃ s' out, MarkSweep.collect order s = .ok (s', out) ∧ CollectsExactly s s' out := by
  obtain ⟨s', phases, hphases, hc⟩ :=
    markAndSweep_spec hlive (hw.reachableTracked hlive).live ho
  have hexact := hc.exactly hlive hmarked hw
  have horder (a : Addr) (ha : a ∈ order) : a ∈ s.objects := by
    rwa [← ho.2, List.mem_toFinset]
  obtain ⟨before, hbefore⟩ := printGraph_ok_of_wellTracked hw hlive horder
  have hsurvive (a : Addr) (ha : a ∈ order.filter (· ∈ s'.objects)) : a ∈ s'.objects := by
    simpa using (List.mem_filter.mp ha).2
  obtain ⟨after, hafter⟩ :=
    printGraph_ok_of_wellTracked hexact.wellTracked hexact.survivors_live hsurvive
  refine ⟨s', before ++ phases ++ after, ?_, (hc.congr ?_).exactly hlive hmarked hw⟩
  · simp [MarkSweep.collect, hbefore, hphases, hafter, bind, Except.bind, pure, Except.pure]
  · simp [printGraph_destroyed hbefore, printGraph_destroyed hafter]

/-- Every collection of a run whose collections are called with well-tracked graphs
returns, and collects exactly what is unreachable. -/
theorem collect_exact (hrun : (system Addr).RunWhere (AtCollect State.WellTracked) s log)
    (hw : s.WellTracked) (ho : IterationOrder s order) :
    ∃ s' out, (system Addr).step s (.collect order) = some (s', out) ∧
      CollectsExactly s s' out := by
  have hclean := clean_of_wellTracked hrun
  obtain ⟨s', out, hcollect, hexact⟩ :=
    hw.collect hclean.live (fun a _ => hclean.markedAfter a) ho
  refine ⟨s', out, ?_, hexact⟩
  simp [system, step, ho, hcollect, Except.toOption]

end Runs

/-- A cycle that is cut off from the roots after one collection has kept it. -/
def cycleRun : List (Act ℕ) :=
  [.create 0, .create 1, .create 2, .setReferences (some 0) [some 1, some 1],
    .setReferences (some 1) [some 0, some 2], .track (some 0), .track (some 1), .track (some 2),
    .addRoot (some 0), .collect [2, 0, 1], .setRoots [some 2]]

theorem collect_exact_cycle :
    ∃ s log, (system ℕ).RunWhere (AtCollect State.WellTracked) s log ∧ s.objects = {0, 1, 2} ∧
      ∃ s' out, (system ℕ).step s (.collect [0, 1, 2]) = some (s', out) ∧
        CollectsExactly s s' out := by
  obtain ⟨s, log, hrun, hq⟩ := (system ℕ).exists_run_of_exec (AtCollect State.WellTracked)
    cycleRun (fun s _ => decide (s.objects = {0, 1, 2} ∧ s.WellTracked ∧
      IterationOrder s [0, 1, 2])) (by decide +kernel)
  obtain ⟨hobjects, hw, ho⟩ := of_decide_eq_true hq
  exact ⟨s, log, hrun, hobjects, collect_exact hrun hw ho⟩

end MarkSweep
