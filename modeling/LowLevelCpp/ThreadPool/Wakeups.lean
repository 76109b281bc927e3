import LowLevelCpp.ThreadPool.Model

/-! No wakeup is lost and no shutdown hangs: while a worker sleeps, the queued tasks are covered
by notified workers and by enqueues that have not notified yet, and after the destructor's
`notify_all` no worker sleeps again. -/
namespace ThreadPool
open Foundations Foundations.System

variable {n : ℕ} {θ T : Type}

/-- Whether `notify_all` has run. -/
def Destructor.hasNotified : Destructor → Bool
  | .alive | .stopped => false
  | .joining _ | .returned => true

/-- A worker that has been joined by now. -/
def Destructor.Joined (d : Destructor) (w : Fin n) : Prop :=
  match d with
  | .alive | .stopped => False
  | .joining next => w < next
  | .returned => True

/-- The workers blocked on the condition variable are those that wait on it. -/
def Placed (s : State n θ T) : Prop := ∀ w, w ∈ s.condition.members ↔ s.worker w = .waiting

/-- While a worker sleeps, each queued task has a notified worker or an enqueue that is about to
notify. -/
def Covered (s : State n θ T) : Prop := s.condition.Covers (s.tasks.length - s.notifying.card)

/-- What the flag and the destructor have to do with each other and with the workers. -/
structure Shutdown (s : State n θ T) : Prop where
  stop_iff : s.stop = true ↔ s.destructor ≠ .alive
  exits : ∀ w, s.worker w = .exited → s.stop = true ∧ s.tasks = []
  joined : ∀ w, s.destructor.Joined w → s.worker w = .exited
  quiet : s.destructor.hasNotified = true → s.condition.waiting = ∅

section Entering
variable {s s₀ s' : State n θ T} {w : Fin n} {act : Act n θ T}

@[simp] theorem goto_worker (s : State n θ T) (w : Fin n) (pc : Worker T) :
    (s.goto w pc).worker = Function.update s.worker w pc := rfl

@[simp] theorem goto_condition (s : State n θ T) (w : Fin n) (pc : Worker T) :
    (s.goto w pc).condition = s.condition := rfl

theorem Enters.tasks_eq (he : Enters s w act s₀) : s₀.tasks = s.tasks := by
  cases he <;> rfl

theorem Enters.stop_eq (he : Enters s w act s₀) : s₀.stop = s.stop := by
  cases he <;> rfl

theorem Enters.notifying_eq (he : Enters s w act s₀) : s₀.notifying = s.notifying := by
  cases he <;> rfl

theorem Enters.destructor_eq (he : Enters s w act s₀) : s₀.destructor = s.destructor := by
  cases he <;> rfl

theorem Enters.worker_eq (he : Enters s w act s₀) : s₀.worker = s.worker := by
  cases he <;> rfl

theorem Enters.waiting_eq (he : Enters s w act s₀) :
    s₀.condition.waiting = s.condition.waiting := by
  cases he <;> rfl

/-- A worker that tests its predicate is not blocked and has not left its loop. -/
theorem Enters.worker (he : Enters s w act s₀) (h : Placed s) :
    (s.worker w = .loop ∨ s.worker w = .waiting) ∧
      ∀ x, x ∈ s₀.condition.members ↔ x ≠ w ∧ s.worker x = .waiting := by
  cases he with
  | lock hloop =>
    refine ⟨.inl hloop, fun x => ?_⟩
    have hne : s.worker x = .waiting → x ≠ w := by
      rintro hx rfl
      simp [hloop] at hx
    rw [h x]
    tauto
  | resume hwoken =>
    have hmem : w ∈ s.condition.members := Finset.mem_union_right _ hwoken
    refine ⟨.inr ((h w).mp hmem), fun x => ?_⟩
    rw [State.leave, CondVar.leave_members hwoken, Finset.mem_erase, h x]

theorem Placed.goto (he : Enters s w act s₀) (h : Placed s) {pc : Worker T} (hpc : pc ≠ .waiting) :
    Placed (s₀.goto w pc) := by
  intro x
  rw [goto_condition, (he.worker h).2 x, goto_worker, he.worker_eq]
  by_cases hx : x = w <;> simp [hx, hpc]

/-- Notifications and wakeups move workers within the condition variable only. -/
theorem Placed.congr (h : Placed s) (hmembers : s'.condition.members = s.condition.members)
    (hworker : s'.worker = s.worker) : Placed s' := by
  intro x
  rw [hmembers, hworker]
  exact h x

/-- A worker that starts to test may leave one task uncovered: the one it takes. -/
theorem Covered.enter (h : Covered s) (he : Enters s w act s₀) :
    s₀.condition.Covers (s.tasks.length - s.notifying.card - 1) := by
  cases he with
  | lock _ => exact h.mono (Nat.sub_le _ _)
  | resume _ => exact h.leave

end Entering

section Steps
variable [DecidableEq θ] {s s' : State n θ T} {evs : List (Event n θ T)} {act : Act n θ T}

theorem Placed.step (h : Placed s) (hs : step s act = some (s', evs)) : Placed s' := by
  cases step_moves hs with
  | accept _ _ => exact h
  | reject _ _ => exact h
  | escape _ => exact h
  | notify _ hn => exact h.congr (CondVar.notifyOne_members hn) rfl
  | take he _ => exact Placed.goto he h (by simp)
  | @wait w s₀ act he _ _ =>
    intro x
    rw [goto_condition, CondVar.join_members, Finset.mem_insert, (he.worker h).2 x, goto_worker,
      he.worker_eq]
    by_cases hx : x = w <;> simp [hx]
  | exit he _ _ => exact Placed.goto he h (by simp)
  | spurious hw => exact h.congr (CondVar.wake_members hw) rfl
  | @finish w task hrunning _ =>
    intro x
    rw [goto_condition, goto_worker, h x]
    by_cases hx : x = w <;> simp [hx, hrunning]
  | destroy _ => exact h
  | notifyAll _ => exact h.congr CondVar.notifyAll_members rfl
  | join _ _ _ => exact h
  | returned _ _ => exact h

theorem Covered.step (h : Covered s) (hs : step s act = some (s', evs)) : Covered s' := by
  cases step_moves hs with
  | @accept c task caught hcall _ =>
    have hnew : c ∉ s.notifying := by
      cases c with
      | client t => exact hcall.1
      | task w => exact hcall.1
    apply h.mono
    simp only [List.length_append, List.length_singleton, Finset.card_insert_of_notMem hnew]
    omega
  | reject _ _ => exact h
  | escape _ => exact h
  | @notify c woken condition hc hn =>
    have hcard := Finset.card_erase_add_one hc
    apply (h.notifyOne hn).mono
    simp only
    omega
  | @take w task rest s₀ act he hcons =>
    have hlength : s.tasks.length = rest.length + 1 := by
      rw [← he.tasks_eq, hcons, List.length_cons]
    apply (h.enter he).mono
    simp only [State.goto, he.notifying_eq]
    omega
  | wait _ _ hnil => simp [Covered, State.goto, hnil, CondVar.covers_zero]
  | exit _ _ hnil => simp [Covered, State.goto, hnil, CondVar.covers_zero]
  | spurious _ => exact h.wake
  | finish _ _ => exact h
  | destroy _ => exact h
  | notifyAll _ => exact CondVar.covers_of_waiting_empty rfl
  | join _ _ _ => exact h
  | returned _ _ => exact h

theorem Shutdown.step (h : Shutdown s) (hplaced : Placed s)
    (hs : step s act = some (s', evs)) : Shutdown s' := by
  obtain ⟨hstop, hexits, hjoined, hquiet⟩ := h
  cases step_moves hs with
  | accept _ hopen =>
    refine ⟨hstop, fun w hw => ?_, hjoined, hquiet⟩
    simp [(hexits w hw).1] at hopen
  | reject _ _ => exact ⟨hstop, hexits, hjoined, hquiet⟩
  | escape _ => exact ⟨hstop, hexits, hjoined, hquiet⟩
  | notify _ hn =>
    exact ⟨hstop, hexits, hjoined, fun hd => CondVar.notifyOne_waiting_empty (hquiet hd) hn⟩
  | @take w task rest s₀ act he hcons =>
    have hpc := (he.worker hplaced).1
    rw [he.tasks_eq] at hcons
    refine ⟨?_, fun x hx => ?_, fun x hx => ?_, fun hd => ?_⟩
    · simpa [State.goto, he.stop_eq, he.destructor_eq] using hstop
    · by_cases hxw : x = w
      · simp [hxw] at hx
      · have hexited := hexits x (by simpa [hxw, he.worker_eq] using hx)
        simp [hcons] at hexited
    · have hexited := hjoined x (by simpa [State.goto, he.destructor_eq] using hx)
      have hxw : x ≠ w := by
        rintro rfl
        simp [hexited] at hpc
      simp [hxw, he.worker_eq, hexited]
    · exact he.waiting_eq.trans (hquiet (by simpa [State.goto, he.destructor_eq] using hd))
  | @wait w s₀ act he hopen _ =>
    rw [he.stop_eq] at hopen
    have halive : s.destructor = .alive := by simpa [hopen] using hstop
    have hno (x : Fin n) : s.worker x ≠ .exited := fun hx => by simp [(hexits x hx).1] at hopen
    refine ⟨?_, fun x hx => ?_, fun x hx => ?_, fun hd => ?_⟩
    · simpa [State.goto, he.stop_eq, he.destructor_eq] using hstop
    · by_cases hxw : x = w
      · simp [hxw] at hx
      · exact absurd (by simpa [hxw, he.worker_eq] using hx) (hno x)
    · simp [State.goto, he.destructor_eq, halive, Destructor.Joined] at hx
    · simp [State.goto, he.destructor_eq, halive, Destructor.hasNotified] at hd
  | @exit w s₀ act he hset hnil =>
    have hpc := (he.worker hplaced).1
    refine ⟨?_, fun x _ => ⟨hset, hnil⟩, fun x hx => ?_, fun hd => ?_⟩
    · simpa [State.goto, he.stop_eq, he.destructor_eq] using hstop
    · have hexited := hjoined x (by simpa [State.goto, he.destructor_eq] using hx)
      by_cases hxw : x = w <;> simp [hxw, he.worker_eq, hexited]
    · exact he.waiting_eq.trans (hquiet (by simpa [State.goto, he.destructor_eq] using hd))
  | spurious _ =>
    refine ⟨hstop, hexits, hjoined, fun hd => ?_⟩
    simp [CondVar.wake, hquiet hd]
  | @finish w task hrunning _ =>
    refine ⟨hstop, fun x hx => ?_, fun x hx => ?_, hquiet⟩
    · by_cases hxw : x = w
      · simp [hxw] at hx
      · exact hexits x (by simpa [hxw] using hx)
    · have hexited := hjoined x hx
      have hxw : x ≠ w := by
        rintro rfl
        simp [hexited] at hrunning
      simp [hxw, hexited]
  | destroy _ =>
    exact ⟨by simp, fun x hx => ⟨rfl, (hexits x hx).2⟩, fun x hx => hx.elim, by
      simp [Destructor.hasNotified]⟩
  | notifyAll hstopped =>
    refine ⟨?_, hexits, fun x hx => ?_, fun _ => rfl⟩
    · simpa [hstopped] using hstop
    · exact absurd hx (Nat.not_lt_zero _)
  | @join next hlt hjoining hexited =>
    refine ⟨by simpa [hjoining] using hstop, hexits, fun x hx => ?_, fun _ => ?_⟩
    · rcases Nat.lt_succ_iff_lt_or_eq.mp hx with hx | hx
      · exact hjoined x (by simpa [hjoining, Destructor.Joined] using hx)
      · rwa [show x = ⟨next, hlt⟩ from Fin.ext hx]
    · exact hquiet (by simp [hjoining, Destructor.hasNotified])
  | @returned next hjoining hle =>
    refine ⟨by simpa [hjoining] using hstop, hexits, fun x _ => ?_, fun _ => ?_⟩
    · exact hjoined x (by simpa [hjoining, Destructor.Joined] using x.isLt.trans_le hle)
    · exact hquiet (by simp [hjoining, Destructor.hasNotified])

end Steps

section Runs
variable [DecidableEq θ] {s : State n θ T} {log : List (Event n θ T)}
  {P : State n θ T → Act n θ T → Prop}

theorem placed_of_run (hrun : (system n θ T).RunWhere P s log) : Placed s :=
  hrun.invariant (I := fun s _ => Placed s)
    (fun w => by simp [system, CondVar.empty, CondVar.members, CondVar.woken])
    fun _ _ _ _ _ _ h _ hs => h.step hs

theorem covered_of_run (hrun : (system n θ T).RunWhere P s log) : Covered s :=
  hrun.invariant (I := fun s _ => Covered s) (CondVar.covers_of_waiting_empty rfl)
    fun _ _ _ _ _ _ h _ hs => h.step hs

theorem shutdown_of_run (hrun : (system n θ T).RunWhere P s log) : Shutdown s :=
  hrun.invariant (I := fun s _ => Shutdown s)
    ⟨by simp [system], by simp [system], fun _ h => h.elim, fun _ => rfl⟩
    fun _ _ _ _ _ hrun h _ hs => h.step (placed_of_run hrun) hs

/-- In a pool with workers a queued task or a joining destructor never finds all the workers that
are left asleep and no notification under way. -/
theorem awake_of_run (hrun : (system n θ T).RunWhere P s log)
    (hneed : 0 < n ∧ s.tasks ≠ [] ∨ s.destructor.hasNotified = true ∧ ∃ w, s.worker w ≠ .exited)
    (hasleep : ∀ w, s.worker w ≠ .exited → w ∈ s.condition.waiting) :
    s.condition.notified.Nonempty ∨ s.notifying.Nonempty := by
  have hshut := shutdown_of_run hrun
  rcases hneed with ⟨hn, htasks⟩ | ⟨hd, w, hw⟩
  · have hwaiting : s.condition.waiting.Nonempty := by
      refine ⟨⟨0, hn⟩, hasleep _ fun hexited => ?_⟩
      exact htasks (hshut.exits _ hexited).2
    have hcovered := covered_of_run hrun hwaiting
    have hlength := List.length_pos_iff.mpr htasks
    by_contra! hnone
    rw [hnone.1, hnone.2, Finset.card_empty, Finset.card_empty] at hcovered
    omega
  · have hmem := hasleep w hw
    simp [hshut.quiet hd] at hmem

/-- No wakeup is lost and no shutdown hangs. While a worker sleeps there are at most as many
queued tasks as notified workers on their way to the mutex and enqueues that have not notified
yet; once the destructor's `notify_all` has run no worker sleeps; and a queued task, in a pool that
has workers, or a joining destructor never faces sleeping workers only, with no notification
outstanding. -/
theorem pool_no_lost_wakeups (hrun : (system n θ T).Run s log) :
    (s.condition.waiting.Nonempty →
        s.tasks.length ≤ s.condition.notified.card + s.notifying.card) ∧
      (s.destructor.hasNotified = true → s.condition.waiting = ∅) ∧
      ((0 < n ∧ s.tasks ≠ [] ∨ s.destructor.hasNotified = true ∧ ∃ w, s.worker w ≠ .exited) →
        (∀ w, s.worker w ≠ .exited → w ∈ s.condition.waiting) →
        s.condition.notified.Nonempty ∨ s.notifying.Nonempty) ∧
      ∀ w, w ∈ s.condition.members ↔ s.worker w = .waiting := by
  refine ⟨fun hwaiting => ?_, (shutdown_of_run hrun).quiet, awake_of_run hrun,
    placed_of_run hrun⟩
  have hcovered := covered_of_run hrun hwaiting
  omega

end Runs

/-- The workers of a pool of two. -/
def first : Fin 2 := ⟨0, Nat.two_pos⟩

def second : Fin 2 := ⟨1, Nat.one_lt_two⟩

/-- Two workers sleep; two tasks are queued, and their notifications overtaken by a worker that
wakes for no reason. -/
def overtaken : List (Act 2 ℕ ℕ) :=
  [.lock first, .lock second, .enqueue (.client 0) 7 false, .enqueue (.client 1) 8 false,
    .spurious second, .resume second]

theorem pool_no_lost_wakeups_overtaken :
    ∃ s log, (system 2 ℕ ℕ).Run s log ∧ s.worker second = .running 7 ∧
      s.condition.waiting = {first} ∧ s.tasks = [8] ∧
      s.tasks.length ≤ s.condition.notified.card + s.notifying.card := by
  obtain ⟨s, log, hrun, hq⟩ := (system 2 ℕ ℕ).exists_run_of_exec (fun _ _ => True) overtaken
    (fun s _ => decide (s.worker second = .running 7 ∧ s.condition.waiting = {first} ∧
      s.tasks = [8])) (by decide +kernel)
  obtain ⟨hsecond, hwaiting, htasks⟩ := of_decide_eq_true hq
  have hasleep : s.condition.waiting.Nonempty := ⟨first, by simp [hwaiting]⟩
  exact ⟨s, log, hrun, hsecond, hwaiting, htasks, (pool_no_lost_wakeups hrun).1 hasleep⟩

end ThreadPool
