import LowLevelCpp.ThreadSafeQueue.Wakeups

/-! Shutdown. Nothing is accepted after it, and a `pop` that returns `nullopt` finds the queue
drained for good: every value that was ever accepted has been returned. -/
namespace ThreadSafeQueue
open Foundations Foundations.System

variable {θ T : Type} [DecidableEq θ]

/-- A value is accepted only while no shutdown has run. -/
def AcceptsOpen (pre : List (Event θ T)) (e : Event θ T) : Prop :=
  ∀ t value, e = .accepted t value → ∀ t', .shutdown t' ∉ pre

section Steps
variable {cap : Capacity} {s s' : State θ T} {log evs : List (Event θ T)} {act : Act θ T}

theorem step_emits (hs : step cap s act = some (s', evs)) : evs = [] ∨ ∃ e, evs = [e] := by
  cases step_moves hs <;> simp

/-- What a critical section that accepts a value or finds nothing says about the state. -/
theorem step_drains (hs : step cap s act = some (s', evs)) :
    (∀ t value, .accepted t value ∈ evs → s.done = false) ∧
      ∀ t, .nothing t false ∈ evs → s.done = true ∧ s.queue = [] := by
  cases step_moves hs with
  | accept he hdone _ _ => exact ⟨fun _ _ _ => he.done_eq ▸ hdone, by simp⟩
  | nothing he hnil hwhy =>
    refine ⟨by simp, fun t ht => ?_⟩
    obtain ⟨-, htried⟩ : t = _ ∧ _ := by simpa using ht
    refine ⟨?_, he.queue_eq ▸ hnil⟩
    rw [← he.done_eq]
    exact hwhy.resolve_right (by simp [← htried])
  | reject _ _ => simp
  | waitPush _ _ _ => simp
  | take _ _ _ => simp
  | waitPop _ _ _ => simp
  | threwPush _ _ => simp
  | threwPop _ _ => simp
  | wakeFull _ => simp
  | wakeEmpty _ => simp
  | shutdown _ => simp
  | observe => simp [State.observe]

end Steps

section Runs
variable {cap : Capacity} {s : State θ T} {log : List (Event θ T)}

theorem acceptsOpen_of_run (hrun : (system cap θ T).Run s log) : AtEach AcceptsOpen log := by
  refine hrun.invariant (I := fun _ log => AtEach AcceptsOpen log) (atEach_nil _)
    fun s log act s' evs hrun ih _ hs => ?_
  have hshut := done_iff_of_run hrun
  rcases step_emits hs with rfl | ⟨e, rfl⟩
  · simpa using ih
  · apply ih.concat
    intro t value he t' ht'
    have hdone := (step_drains hs).1 t value (by simp [he])
    simp [hshut.mpr ⟨t', ht'⟩] at hdone

/-- Once `pop` has returned `nullopt` the queue is shut down and empty, for ever. -/
theorem drained_of_run (hrun : (system cap θ T).Run s log) :
    (∃ t, .nothing t false ∈ log) → s.done = true ∧ s.queue = [] := by
  refine hrun.invariant
    (I := fun s log => (∃ t, .nothing t false ∈ log) → s.done = true ∧ s.queue = [])
    (by simp) fun s log act s' evs _ ih _ hs => ?_
  rintro ⟨t, ht⟩
  obtain ⟨haccepts, hnothing⟩ := step_drains hs
  have hempty : s.done = true ∧ s.queue = [] := by
    rcases List.mem_append.mp ht with ht | ht
    · exact ih ⟨t, ht⟩
    · exact hnothing t ht
  constructor
  · rcases step_done hs with ⟨hdone, -⟩ | ⟨rfl, -⟩
    · exact hdone.trans hempty.1
    · rfl
  · rcases step_queue hs with ⟨value, ha, -⟩ | ⟨value, -, -, hq⟩ | ⟨-, -, hq⟩
    · obtain ⟨e, he, hvalue⟩ := List.mem_filterMap.mp (ha ▸ List.mem_singleton_self value)
      cases e <;> simp [Event.accepted?] at hvalue
      simp [haccepts _ _ he] at hempty
    · simp [hempty.2] at hq
    · exact hq.trans hempty.2

/-- Shutdown drains the queue. After a shutdown no value is accepted; `pop` returns `nullopt`
only when a shutdown has run and the queue is empty; and from then on the queue stays empty and
the values returned are the values accepted, one by one. -/
theorem queue_drains (hrun : (system cap θ T).Run s log) :
    (∀ pre t post, log = pre ++ .shutdown t :: post → acceptedValues post = []) ∧
      (∀ act s' evs t, (system cap θ T).step s act = some (s', evs) → .nothing t false ∈ evs →
        (∃ t', .shutdown t' ∈ log) ∧ s.queue = []) ∧
      ((∃ t, .nothing t false ∈ log) → s.queue = [] ∧ acceptedValues log = returnedValues log) := by
  refine ⟨?_, fun act s' evs t hs ht => ?_, fun hnothing => ?_⟩
  · rintro pre t post rfl
    refine List.filterMap_eq_nil_iff.mpr fun e he => ?_
    obtain ⟨before, after, rfl⟩ := List.mem_iff_append.mp he
    cases e with
    | accepted t' value =>
      have hopen := acceptsOpen_of_run hrun (pre ++ .shutdown t :: before) (.accepted t' value)
        after (by simp)
      exact absurd (by simp) (hopen t' value rfl t)
    | rejected _ _ | returned _ _ | nothing _ _ | threw _ | shutdown _ | observed _ _ _ _ _ => rfl
  · obtain ⟨hdone, hnil⟩ := (step_drains hs).2 t ht
    exact ⟨(done_iff_of_run hrun).mp hdone, hnil⟩
  · obtain ⟨-, hnil⟩ := drained_of_run hrun hnothing
    exact ⟨hnil, by simpa [hnil] using (fifo_of_run hrun).inOrder⟩

end Runs

/-- A producer is blocked when the queue is shut down; the consumer takes what is left. -/
def drained : List (Act ℕ ℕ) :=
  [.push 0 10 {}, .push 1 11 {}, .shutdown 2, .resume 1 {}, .try_push 0 12 {}, .pop 3 {},
    .shutdown 2, .pop 3 {}]

theorem queue_drains_drained :
    ∃ s log, (system ⟨1, Nat.one_pos⟩ ℕ ℕ).Run s log ∧ .rejected 1 11 ∈ log ∧
      .nothing 3 false ∈ log ∧ acceptedValues log = [10] ∧ s.queue = [] ∧
      acceptedValues log = returnedValues log := by
  obtain ⟨s, log, hrun, hq⟩ := (system ⟨1, Nat.one_pos⟩ ℕ ℕ).exists_run_of_exec
    (fun _ _ => True) drained (fun _ log => decide (.rejected 1 11 ∈ log ∧
      .nothing 3 false ∈ log ∧ acceptedValues log = [10])) (by decide +kernel)
  obtain ⟨hrejected, hnothing, haccepted⟩ := of_decide_eq_true hq
  obtain ⟨-, -, hempty⟩ := queue_drains hrun
  exact ⟨s, log, hrun, hrejected, hnothing, haccepted, hempty ⟨3, hnothing⟩⟩

end ThreadSafeQueue
