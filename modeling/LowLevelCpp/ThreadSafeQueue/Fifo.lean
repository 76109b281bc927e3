import LowLevelCpp.ThreadSafeQueue.Model

/-! The queue is a bounded first-in first-out queue: the accepted values are, in lock order,
the returned values followed by the contents. -/
namespace ThreadSafeQueue
open Foundations Foundations.System

variable {θ T : Type}

def Event.accepted? : Event θ T → Option T
  | .accepted _ value => some value
  | _ => none

def Event.returned? : Event θ T → Option T
  | .returned _ value => some value
  | _ => none

/-- The values for which `push` or `try_push` returned `true`, in lock order. -/
def acceptedValues (log : List (Event θ T)) : List T := log.filterMap Event.accepted?

/-- The values that `pop` or `try_pop` returned, in lock order. -/
def returnedValues (log : List (Event θ T)) : List T := log.filterMap Event.returned?

@[simp] theorem acceptedValues_append (log evs : List (Event θ T)) :
    acceptedValues (log ++ evs) = acceptedValues log ++ acceptedValues evs :=
  List.filterMap_append

@[simp] theorem returnedValues_append (log evs : List (Event θ T)) :
    returnedValues (log ++ evs) = returnedValues log ++ returnedValues evs :=
  List.filterMap_append

variable [DecidableEq θ]

section Steps
variable {cap : Capacity} {s s₀ s' : State θ T} {log evs : List (Event θ T)} {t : θ} {value : T}
  {act : Act θ T}

@[simp] theorem leaveFull_queue (s : State θ T) (t : θ) : (s.leaveFull t).queue = s.queue := rfl

@[simp] theorem leaveFull_done (s : State θ T) (t : θ) : (s.leaveFull t).done = s.done := rfl

@[simp] theorem leaveEmpty_queue (s : State θ T) (t : θ) : (s.leaveEmpty t).queue = s.queue := rfl

@[simp] theorem leaveEmpty_done (s : State θ T) (t : θ) : (s.leaveEmpty t).done = s.done := rfl

theorem EntersPush.queue_eq (h : EntersPush s t value s₀) : s₀.queue = s.queue := by
  cases h <;> rfl

theorem EntersPush.done_eq (h : EntersPush s t value s₀) : s₀.done = s.done := by
  cases h <;> rfl

theorem EntersPop.queue_eq (h : EntersPop s t s₀) : s₀.queue = s.queue := by
  cases h <;> rfl

theorem EntersPop.done_eq (h : EntersPop s t s₀) : s₀.done = s.done := by
  cases h <;> rfl

/-- What a critical section does to the contents: it appends the value that it accepts, or
removes the front that it returns, or changes nothing. -/
theorem step_queue (hs : step cap s act = some (s', evs)) :
    (∃ value, acceptedValues evs = [value] ∧ returnedValues evs = [] ∧
      s'.queue = s.queue ++ [value] ∧ s.queue.length < cap.max_size) ∨
    (∃ value, acceptedValues evs = [] ∧ returnedValues evs = [value] ∧
      s.queue = value :: s'.queue) ∨
    (acceptedValues evs = [] ∧ returnedValues evs = [] ∧ s'.queue = s.queue) := by
  cases step_moves hs with
  | @accept t value s₀ choice not_empty he hdone hspace hn =>
    rw [he.queue_eq] at hspace
    exact .inl ⟨value, rfl, rfl, by simp only [he.queue_eq], hspace⟩
  | reject he _ => exact .inr (.inr ⟨rfl, rfl, he.queue_eq⟩)
  | waitPush he _ _ => exact .inr (.inr ⟨rfl, rfl, he.queue_eq⟩)
  | @take t value rest s₀ choice not_full he hcons hn =>
    rw [he.queue_eq] at hcons
    exact .inr (.inl ⟨value, rfl, rfl, hcons⟩)
  | nothing he _ _ => exact .inr (.inr ⟨rfl, rfl, he.queue_eq⟩)
  | waitPop he _ _ => exact .inr (.inr ⟨rfl, rfl, he.queue_eq⟩)
  | threwPush _ he => exact .inr (.inr ⟨rfl, rfl, he.queue_eq⟩)
  | threwPop _ he => exact .inr (.inr ⟨rfl, rfl, he.queue_eq⟩)
  | wakeFull _ => exact .inr (.inr ⟨rfl, rfl, rfl⟩)
  | wakeEmpty _ => exact .inr (.inr ⟨rfl, rfl, rfl⟩)
  | shutdown _ => exact .inr (.inr ⟨rfl, rfl, rfl⟩)
  | observe => exact .inr (.inr ⟨rfl, rfl, rfl⟩)

/-- Only `shutdown` changes `done_`. -/
theorem step_done (hs : step cap s act = some (s', evs)) :
    (s'.done = s.done ∧ ∀ t, .shutdown t ∉ evs) ∨ s' = s.shutdown ∧ ∃ t, evs = [.shutdown t] := by
  cases step_moves hs with
  | accept he _ _ _ => exact .inl ⟨he.done_eq, by simp⟩
  | reject he _ => exact .inl ⟨he.done_eq, by simp⟩
  | waitPush he _ _ => exact .inl ⟨he.done_eq, by simp⟩
  | take he _ _ => exact .inl ⟨he.done_eq, by simp⟩
  | nothing he _ _ => exact .inl ⟨he.done_eq, by simp⟩
  | waitPop he _ _ => exact .inl ⟨he.done_eq, by simp⟩
  | threwPush _ he => exact .inl ⟨he.done_eq, by simp⟩
  | threwPop _ he => exact .inl ⟨he.done_eq, by simp⟩
  | wakeFull _ => exact .inl ⟨rfl, by simp⟩
  | wakeEmpty _ => exact .inl ⟨rfl, by simp⟩
  | @shutdown t _ => exact .inr ⟨rfl, t, rfl⟩
  | observe => exact .inl ⟨rfl, by simp [State.observe]⟩

/-- The history invariant. -/
structure Fifo (cap : Capacity) (s : State θ T) (log : List (Event θ T)) : Prop where
  bounded : s.queue.length ≤ cap.max_size
  inOrder : acceptedValues log = returnedValues log ++ s.queue

theorem Fifo.step (h : Fifo cap s log) (hs : step cap s act = some (s', evs)) :
    Fifo cap s' (log ++ evs) := by
  obtain ⟨hbounded, hord⟩ := h
  rcases step_queue hs with ⟨value, ha, hr, hq, hlt⟩ | ⟨value, ha, hr, hq⟩ | ⟨ha, hr, hq⟩
  · refine ⟨?_, by simp [ha, hr, hq, hord]⟩
    rw [hq, List.length_append]
    exact hlt
  · refine ⟨?_, by simp [ha, hr, hord, hq]⟩
    rw [hq, List.length_cons] at hbounded
    omega
  · exact ⟨hq ▸ hbounded, by simp [ha, hr, hord, hq]⟩

end Steps

section Runs
variable {cap : Capacity} {s : State θ T} {log : List (Event θ T)}

theorem fifo_of_run {P : State θ T → Act θ T → Prop}
    (hrun : (system cap θ T).RunWhere P s log) : Fifo cap s log :=
  hrun.invariant (I := Fifo cap) ⟨Nat.zero_le _, rfl⟩ fun _ _ _ _ _ _ h _ hs => h.step hs

/-- Whatever the threads do, the contents stay within the bound and are what was accepted and
not yet returned, in order; a critical section that neither accepts nor returns a value leaves
the contents alone, and only `shutdown` changes the flag. -/
theorem queue_fifo (hrun : (system cap θ T).Run s log) :
    s.queue.length ≤ cap.max_size ∧ acceptedValues log = returnedValues log ++ s.queue ∧
      ∀ act s' evs, (system cap θ T).step s act = some (s', evs) →
        (acceptedValues evs = [] → returnedValues evs = [] → s'.queue = s.queue) ∧
        ((∀ t, .shutdown t ∉ evs) → s'.done = s.done) := by
  obtain ⟨hbounded, hord⟩ := fifo_of_run hrun
  refine ⟨hbounded, hord, fun act s' evs hs => ⟨fun ha hr => ?_, fun hshut => ?_⟩⟩
  · rcases step_queue hs with ⟨value, ha', -⟩ | ⟨value, -, hr', -⟩ | ⟨-, -, hq⟩
    · simp [ha] at ha'
    · simp [hr] at hr'
    · exact hq
  · rcases step_done hs with ⟨hdone, -⟩ | ⟨-, t, rfl⟩
    · exact hdone
    · exact absurd (List.mem_singleton.mpr rfl) (hshut t)

end Runs

/-- A producer blocks on a queue of capacity 1 and is overtaken when it wakes. -/
def overtaken : List (Act ℕ ℕ) :=
  [.push 0 10 {}, .push 1 11 {}, .pop 2 { woken := some 1 }, .try_push 0 12 {}, .resume 1 {},
    .try_push 3 13 {}, .pop 2 { woken := some 1 }, .resume 1 {}, .shutdown 0, .pop 2 {}, .pop 2 {}]

theorem queue_fifo_overtaken :
    ∃ s log, (system ⟨1, Nat.one_pos⟩ ℕ ℕ).Run s log ∧ acceptedValues log = [10, 12, 11] ∧
      acceptedValues log = returnedValues log ++ s.queue := by
  obtain ⟨s, log, hrun, hq⟩ := (system ⟨1, Nat.one_pos⟩ ℕ ℕ).exists_run_of_exec
    (fun _ _ => True) overtaken (fun _ log => decide (acceptedValues log = [10, 12, 11]))
    (by decide +kernel)
  obtain ⟨-, hord, -⟩ := queue_fifo hrun
  exact ⟨s, log, hrun, of_decide_eq_true hq, hord⟩

end ThreadSafeQueue
