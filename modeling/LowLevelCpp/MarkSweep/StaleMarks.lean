import LowLevelCpp.MarkSweep.Runs

/-! Collections of graphs that are not fully tracked. The sweep clears the flags of tracked
objects only, so an untracked object that was reached once stays marked, and later
collections do not trace through it. -/
namespace MarkSweep
open Foundations Foundations.System

variable {Addr : Type}

/-- Every tracked object that is reachable carries a mark already or is reached by a
path of unmarked objects. -/
def State.MarksOpen (s : State Addr) : Prop :=
  ∀ a ∈ s.objects, s.Reachable a → a ∈ s.heap.black ∨ White s.heap.Edge s.heap.black s.sources a

theorem Clean.marksOpen {s : State Addr} (hclean : Clean s) : s.MarksOpen := by
  intro a _ ha
  exact mem_traced.mp ((hclean.markedAfter a).mpr ha)

variable [DecidableEq Addr]

/-- The two phases, from `s`, delete no reachable object. (The printing that follows them in
`collect` uses pointers to what a sweep deletes too early.) -/
def State.KeepsReachable (s : State Addr) (order : List Addr) : Prop :=
  ∀ s' out, markAndSweep order s = .ok (s', out) →
    ∀ a ∈ s.objects, s.Reachable a → a ∉ destroyed out

section Runs
variable {s : State Addr} {log : List (Line Addr)} {order : List Addr}

theorem keepsReachable_iff (hobjects : s.objects ⊆ s.heap.live) (hp : s.PointersLive)
    (ho : IterationOrder s order) : s.KeepsReachable order ↔ s.MarksOpen := by
  obtain ⟨s₁, out₁, hphases, hc⟩ := markAndSweep_spec hobjects hp ho
  constructor
  · intro hkeeps a ha hreach
    by_contra hblocked
    exact hkeeps s₁ out₁ hphases a ha hreach ((hc.deleted a).mpr ⟨ha, hblocked⟩)
  · intro hopen s' out hs a ha hreach hdeleted
    obtain ⟨rfl, rfl⟩ := Prod.mk.inj (Except.ok.inj (hphases.symm.trans hs))
    exact ((hc.deleted a).mp hdeleted).2 (hopen a ha hreach)

/-- In every run over live objects, a collection keeps what is reachable exactly when no
stale mark cuts a tracked object off; where everything reachable was tracked at each
collection there are no stale marks. -/
theorem collect_keeps_reachable_iff
    (hrun : (system Addr).RunWhere (AtCollect State.PointersLive) s log)
    (hp : s.PointersLive) (ho : IterationOrder s order) :
    (s.KeepsReachable order ↔ s.MarksOpen) ∧
      ((system Addr).RunWhere (AtCollect State.ReachableTracked) s log →
        s.KeepsReachable order) := by
  have hiff := keepsReachable_iff (objects_live_of_run hrun) hp ho
  exact ⟨hiff, fun htracked => hiff.mpr (clean_of_reachableTracked htracked).marksOpen⟩

end Runs

/-- A decidable condition that is enough for the pointers of a collection to be live. -/
structure State.AllLive (s : State Addr) : Prop where
  objects : ∀ a ∈ s.objects, a ∈ s.heap.live
  roots : ∀ r ∈ s.roots, ∃ b ∈ s.heap.live, r = some b
  references : ∀ a ∈ s.heap.live, ∀ r ∈ (s.heap.obj a).references, ∃ b ∈ s.heap.live, r = some b

instance (s : State Addr) : Decidable s.AllLive :=
  decidable_of_iff (_ ∧ _ ∧ _)
    ⟨fun h => ⟨h.1, h.2.1, h.2.2⟩, fun h => ⟨h.objects, h.roots, h.references⟩⟩

omit [DecidableEq Addr] in
theorem State.AllLive.pointersLive {s : State Addr} (h : s.AllLive) : s.PointersLive := by
  refine ⟨h.roots, fun a ha => h.references a ?_⟩
  rcases ha with ha | ⟨r, hr, hpath⟩
  · exact h.objects a ha
  · induction hpath with
    | refl =>
      obtain ⟨b, hb, hrb⟩ := h.roots _ hr
      exact Option.some.inj hrb ▸ hb
    | tail _ he ih =>
      obtain ⟨b, hb, hcb⟩ := h.references _ ih _ he
      exact Option.some.inj hcb ▸ hb

/-- The untracked root `0` keeps its mark over the first collection, and is tracked only
then. -/
def lateTracking : List (Act ℕ) :=
  [.create 0, .create 1, .setReferences (some 0) [some 1], .track (some 1), .addRoot (some 0),
    .collect [1], .track (some 0)]

private theorem lateTracking_run (q : State ℕ → List (Line ℕ) → Bool)
    (h : ((system ℕ).exec (AtCollect State.AllLive) (system ℕ).init lateTracking).any
      (fun r => q r.1 r.2) = true) :
    ∃ s log, (system ℕ).RunWhere (AtCollect State.PointersLive) s log ∧ q s log = true := by
  obtain ⟨s, log, hrun, hq⟩ := (system ℕ).exists_run_of_exec (AtCollect State.AllLive)
    lateTracking q h
  exact ⟨s, log, hrun.mono fun _ _ hp order ho => (hp order ho).pointersLive, hq⟩

theorem collect_keeps_reachable_iff_late :
    ∃ s log, (system ℕ).RunWhere (AtCollect State.PointersLive) s log ∧
      s.objects = {0, 1} ∧ (s.KeepsReachable [1, 0] ↔ s.MarksOpen) := by
  obtain ⟨s, log, hrun, hq⟩ := lateTracking_run (fun s _ => decide (s.AllLive ∧
    s.objects = {0, 1} ∧ IterationOrder s [1, 0])) (by decide +kernel)
  obtain ⟨hlive, hobjects, ho⟩ := of_decide_eq_true hq
  exact ⟨s, log, hrun, hobjects, (collect_keeps_reachable_iff hrun hlive.pointersLive ho).1⟩

/-- The second collection deletes the object that the root refers to. -/
theorem collect_deletes_reachable :
    ¬ ∀ (s : State ℕ) (log : List (Line ℕ)) (order : List ℕ),
      (system ℕ).RunWhere (AtCollect State.PointersLive) s log → s.PointersLive →
        IterationOrder s order → s.KeepsReachable order := by
  intro hkeeps
  obtain ⟨s, log, hrun, hq⟩ := lateTracking_run (fun s _ => decide (s.AllLive ∧
    IterationOrder s [1, 0] ∧ 1 ∈ s.objects ∧ some 0 ∈ s.roots ∧
      some 1 ∈ (s.heap.obj 0).references ∧
      (markAndSweep [1, 0] s).toOption.any (fun r => 1 ∈ destroyed r.2) = true))
    (by decide +kernel)
  obtain ⟨hlive, ho, hobj, hroot, href, hout⟩ := of_decide_eq_true hq
  have hreach : s.Reachable 1 := ⟨0, hroot, .single href⟩
  obtain ⟨⟨s', out⟩, hphases, hdeleted⟩ := (Option.any_eq_true _ _).mp hout
  exact hkeeps s log [1, 0] hrun hlive.pointersLive ho s' out (toOption_eq_some hphases) 1 hobj
    hreach (of_decide_eq_true hdeleted)

end MarkSweep
