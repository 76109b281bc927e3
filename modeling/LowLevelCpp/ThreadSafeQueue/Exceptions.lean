import LowLevelCpp.ThreadSafeQueue.Wakeups

/-! Calls that end by an exception from the copy of an element: they leave the queue alone, but
one that has been notified takes its notification with it. -/
namespace ThreadSafeQueue
open Foundations Foundations.System

variable {θ T : Type} [DecidableEq θ]

omit [DecidableEq θ] in
/-- Nobody sleeps while there is something to do. -/
def NobodyOversleeps (cap : Capacity) (s : State θ T) : Prop :=
  (s.queue ≠ [] → s.not_empty.waiting = ∅) ∧
    (s.queue.length < cap.max_size → s.not_full.waiting = ∅)

/-- No thread holds the mutex or is on its way to it. -/
def Quiescent (s : State θ T) : Prop := s.not_empty.woken = ∅ ∧ s.not_full.woken = ∅

omit [DecidableEq θ] in
/-- The items are the same, and whoever slept sleeps on. -/
def SleepsOn (s s' : State θ T) : Prop :=
  s'.queue = s.queue ∧ s.not_empty.waiting ⊆ s'.not_empty.waiting ∧
    s.not_full.waiting ⊆ s'.not_full.waiting

section Steps
variable {cap : Capacity} {s s' : State θ T} {act : Act θ T} {evs : List (Event θ T)} {t : θ}
  {value : T} {c : Choice θ}

theorem threw_unchanged (hs : step cap s act = some (s', evs)) (ht : .threw t ∈ evs) :
    s'.queue = s.queue ∧ s'.done = s.done := by
  rcases step_threw hs ht with rfl | ⟨c, -, -, rfl | rfl⟩
  · exact ⟨rfl, rfl⟩
  · exact ⟨rfl, rfl⟩
  · exact ⟨rfl, rfl⟩

/-- Without notified threads there is nothing to cover, unless nobody waits. -/
theorem Awake.nobodyOversleeps (h : Awake cap s) (hquiet : Quiescent s) :
    NobodyOversleeps cap s := by
  obtain ⟨hempty, hfull⟩ := hquiet
  have hnone : s.not_empty.notified = ∅ := (Finset.union_eq_empty.mp hempty).1
  have hnone' : s.not_full.notified = ∅ := (Finset.union_eq_empty.mp hfull).1
  constructor
  · intro hitem
    have hpos := List.length_pos_of_ne_nil hitem
    by_contra hwaiting
    have hcovered := h.items (Finset.nonempty_iff_ne_empty.mpr hwaiting)
    rw [hnone, Finset.card_empty] at hcovered
    omega
  · intro hslot
    by_contra hwaiting
    have hcovered := h.slots (Finset.nonempty_iff_ne_empty.mpr hwaiting)
    rw [hnone', Finset.card_empty] at hcovered
    omega

theorem push_sleepsOn (hthrows : c.throws = true) (hs : s.push cap t value c = some (s', evs)) :
    SleepsOn s s' := by
  unfold State.push at hs
  split at hs
  · split at hs
    · obtain ⟨rfl, -⟩ := Prod.mk.inj (Option.some.inj hs)
      exact ⟨rfl, subset_rfl, subset_rfl⟩
    · simp only [State.accept, if_pos hthrows] at hs
      obtain ⟨rfl, -⟩ := Prod.mk.inj (Option.some.inj hs)
      exact ⟨rfl, subset_rfl, subset_rfl⟩
  · obtain ⟨rfl, -⟩ := Prod.mk.inj (Option.some.inj hs)
    exact ⟨rfl, subset_rfl, Finset.subset_insert _ _⟩

theorem pop_sleepsOn (hthrows : c.throws = true) (hs : s.pop t c = some (s', evs)) :
    SleepsOn s s' := by
  unfold State.pop at hs
  split at hs
  · unfold State.take at hs
    split at hs
    · obtain ⟨rfl, -⟩ := Prod.mk.inj (Option.some.inj hs)
      exact ⟨rfl, subset_rfl, subset_rfl⟩
    · rw [if_pos hthrows] at hs
      obtain ⟨rfl, -⟩ := Prod.mk.inj (Option.some.inj hs)
      exact ⟨rfl, subset_rfl, subset_rfl⟩
  · obtain ⟨rfl, -⟩ := Prod.mk.inj (Option.some.inj hs)
    exact ⟨rfl, Finset.subset_insert _ _, subset_rfl⟩

/-- A call that resumes and throws wakes nobody. -/
theorem resume_sleepsOn (hthrows : c.throws = true)
    (hs : step cap s (.resume t c) = some (s', evs)) : SleepsOn s s' := by
  simp only [step] at hs
  split at hs
  · cases hs
  · split at hs
    · have hon : SleepsOn (s.leaveFull t) s' := push_sleepsOn hthrows hs
      exact hon
    · cases hs
  · split at hs
    · have hon : SleepsOn (s.leaveEmpty t) s' := pop_sleepsOn hthrows hs
      exact hon
    · cases hs

/-- Where nobody oversleeps after the step, the notification was not needed. -/
theorem NobodyOversleeps.heeded (h : NobodyOversleeps cap s')
    (hs : step cap s act = some (s', evs)) : Heeded cap s act := by
  cases act with
  | resume t c =>
    intro hthrows
    obtain ⟨hqueue, hempty, hfull⟩ := resume_sleepsOn hthrows hs
    obtain ⟨hitem, hslot⟩ := h
    rw [hqueue] at hitem hslot
    constructor
    · intro ht hwaiting
      have hnil : s.queue = [] := by_contra fun hne =>
        (hwaiting.mono hempty).ne_empty (hitem hne)
      rw [hnil]
      exact Finset.card_pos.mpr ⟨t, ht⟩
    · intro ht hwaiting
      have hnone : ¬ s.queue.length < cap.max_size := fun hlt =>
        (hwaiting.mono hfull).ne_empty (hslot hlt)
      have hpos : 0 < s.not_full.notified.card := Finset.card_pos.mpr ⟨t, ht⟩
      omega
  | _ => trivial

end Steps

/-- A call that throws leaves the items and the flag as they were. If no copy throws in a call
whose notification is needed, nobody oversleeps in a state without threads on their way to the
mutex; and a step of such a run that leads to such a state is one after which nobody oversleeps
exactly if it wastes no notification that is needed. Callers that are still awake may make good
for one that is wasted. -/
theorem throws_oversleep_nobody {cap : Capacity} {s : State θ T} {log : List (Event θ T)}
    (hrun : (system cap θ T).RunWhere (Heeded cap) s log) :
    (Quiescent s → NobodyOversleeps cap s) ∧
      (∀ (s₁ : State θ T) act s₂ evs t, (system cap θ T).step s₁ act = some (s₂, evs) →
        .threw t ∈ evs → s₂.queue = s₁.queue ∧ s₂.done = s₁.done) ∧
      ∀ act s' evs, (system cap θ T).step s act = some (s', evs) → Quiescent s' →
        (NobodyOversleeps cap s' ↔ Heeded cap s act) := by
  have hawake := awake_of_run hrun
  refine ⟨hawake.nobodyOversleeps, fun _ _ _ _ _ hs ht => threw_unchanged hs ht,
    fun act s' evs hs hquiet => ⟨fun h => h.heeded hs, fun hheeded => ?_⟩⟩
  exact (hawake.step hheeded hs).nobodyOversleeps hquiet

/-- Both waiting consumers are notified before the copy of one of them throws. -/
def sparedThrow : List (Act ℕ ℕ) :=
  [.pop 1 {}, .pop 2 {}, .push 0 10 { woken := some 1 }, .push 0 11 { woken := some 2 },
    .resume 1 { throws := true }, .resume 2 {}]

theorem throws_oversleep_nobody_spared : ∃ s log,
    (system ⟨2, Nat.two_pos⟩ ℕ ℕ).RunWhere (Heeded ⟨2, Nat.two_pos⟩) s log ∧
      .threw 1 ∈ log ∧ s.queue = [11] ∧ s.not_empty.waiting = ∅ := by
  obtain ⟨s, log, hrun, hq⟩ := (system ⟨2, Nat.two_pos⟩ ℕ ℕ).exists_run_of_exec
    (Heeded ⟨2, Nat.two_pos⟩) sparedThrow (fun s log => decide (s.not_empty.woken = ∅ ∧
      s.not_full.woken = ∅ ∧ .threw 1 ∈ log ∧ s.queue = [11])) (by decide +kernel)
  obtain ⟨hempty, hfull, hthrew, hqueue⟩ := of_decide_eq_true hq
  obtain ⟨hitem, -⟩ := (throws_oversleep_nobody hrun).1 ⟨hempty, hfull⟩
  exact ⟨s, log, hrun, hthrew, hqueue, hitem (by simp [hqueue])⟩

/-- The copy of the one notified consumer throws. -/
def lostThrow : List (Act ℕ ℕ) :=
  [.pop 1 {}, .pop 2 {}, .push 0 10 { woken := some 1 }, .resume 1 { throws := true }]

/-- The item stays in the queue, and the other consumer sleeps on. -/
theorem throw_loses_wakeup : ∃ s log, (system ⟨2, Nat.two_pos⟩ ℕ ℕ).Run s log ∧
    Quiescent s ∧ ¬ NobodyOversleeps ⟨2, Nat.two_pos⟩ s := by
  obtain ⟨s, log, hrun, hq⟩ := (system ⟨2, Nat.two_pos⟩ ℕ ℕ).exists_run_of_exec
    (fun _ _ => True) lostThrow (fun s _ => decide (s.not_empty.woken = ∅ ∧
      s.not_full.woken = ∅ ∧ s.queue = [10] ∧ s.not_empty.waiting = {2})) (by decide +kernel)
  obtain ⟨hempty, hfull, hqueue, hwaiting⟩ := of_decide_eq_true hq
  refine ⟨s, log, hrun, ⟨hempty, hfull⟩, fun h => ?_⟩
  have hnone := h.1 (by simp [hqueue])
  simp [hwaiting] at hnone

end ThreadSafeQueue
