import LowLevelCpp.Foundations.Clients
import LowLevelCpp.ThreadPool.Tasks

/-! The graceful shutdown, and the tasks that break it: `enqueue` throws once `stop_` is set, the
worker loop does not catch, and what leaves a thread function calls `std::terminate`. -/
namespace ThreadPool
open Foundations Foundations.System

variable {n : ℕ} {θ T : Type} [DecidableEq θ]

/-- No worker has been ended by an exception; from here on the pool takes only so many steps by
itself, whatever is enqueued, and rests only when the destructor, once called, is back; then all the
accepted tasks have been executed. -/
structure Graceful (s : State n θ T) (log : List (Event n θ T)) : Prop where
  running : s.terminated = false
  settles : ∀ as s' evs, (system n θ T).LabelledFrom s as s' evs →
    as.length ≤ s.work + (as.map Act.brings).sum
  returns : Settled s → s.destructor = .alive ∨ s.destructor = .returned
  complete : Settled s ∨ s.destructor = .returned →
    (acceptedTasks log : Multiset T) = finishedTasks log

section Runs
variable {s : State n θ T} {log : List (Event n θ T)}

/-- The steps that a continuation of a run brings with it, and what they cause, are all that the
pool does after the work that it has. -/
theorem settles_of_run {as : List (Act n θ T)} {s' : State n θ T} {evs : List (Event n θ T)}
    (hrun : (system n θ T).Run s log) (hrest : (system n θ T).LabelledFrom s as s' evs) :
    as.length ≤ s.work + (as.map Act.brings).sum := by
  have hlength := hrest.length_le_from (fun s _ => s.work) Act.brings
    (fun _ _ _ _ _ hrun hs => work_step (placed_of_run hrun) hs) hrun
  exact (Nat.le_add_right _ _).trans hlength

theorem graceful_of_run (hn : 0 < n) (hrun : (system n θ T).RunWhere ReturnsNormally s log) :
    Graceful s log where
  running := running_of_run hrun
  settles _ _ _ := settles_of_run (hrun.mono fun _ _ _ => trivial)
  returns hsettled := (settled_of_run hn hrun hsettled).2.2
  complete hrest := by
    rcases hrest with hsettled | hreturned
    · exact (settled_of_run hn hrun hsettled).2.1
    · exact (returned_of_run hn hrun hreturned).2

/-- The shutdown is graceful in every run in which no task lets escape what `enqueue` throws after
the destructor's critical section, and no longer after the step at which one does. -/
theorem shutdown_graceful (hn : 0 < n) (hrun : (system n θ T).RunWhere ReturnsNormally s log) :
    Graceful s log ∧ ∀ act s' evs, (system n θ T).step s act = some (s', evs) →
      (Graceful s' (log ++ evs) ↔ ReturnsNormally s act) := by
  refine ⟨graceful_of_run hn hrun, fun act s' evs hs => ⟨fun h => ?_, fun h => ?_⟩⟩
  · by_contra hescapes
    have hterminated := (step_terminated hs).mpr hescapes
    simp [h.running] at hterminated
  · exact graceful_of_run hn (hrun.step h hs)

end Runs

/-- A task enqueues another before the destructor's critical section and catches what it gets
after it. -/
def rescheduled : List (Act 1 ℕ ℕ) :=
  [.enqueue (.client 0) 1 false, .notify (.client 0) none, .lock 0, .enqueue (.task 0) 2 false,
    .notify (.task 0) none, .destroy, .enqueue (.task 0) 3 true, .notifyAll, .finish 0, .lock 0,
    .finish 0, .lock 0, .join, .join]

theorem shutdown_graceful_rescheduled :
    ∃ s log, (system 1 ℕ ℕ).RunWhere ReturnsNormally s log ∧ acceptedTasks log = [1, 2] ∧
      (acceptedTasks log : Multiset ℕ) = finishedTasks log := by
  obtain ⟨s, log, hrun, hq⟩ := (system 1 ℕ ℕ).exists_run_of_exec ReturnsNormally rescheduled
    (fun s log => decide (s.destructor = .returned ∧ acceptedTasks log = [1, 2]))
    (by decide +kernel)
  obtain ⟨hreturned, haccepted⟩ := of_decide_eq_true hq
  have hgraceful := (shutdown_graceful Nat.one_pos hrun).1
  exact ⟨s, log, hrun, haccepted, hgraceful.complete (.inr hreturned)⟩

/-- A task that schedules its successor runs while the destructor waits for it; another task is
still queued when the process ends. -/
def lateReschedule : List (Act 1 ℕ ℕ) :=
  [.enqueue (.client 0) 1 false, .notify (.client 0) none, .enqueue (.client 0) 2 false,
    .notify (.client 0) none, .lock 0, .destroy, .notifyAll, .enqueue (.task 0) 3 false]

theorem shutdown_graceful_fails :
    ¬ ∀ s log, (system 1 ℕ ℕ).Run s log → Graceful s log := by
  intro h
  obtain ⟨s, log, hrun, hq⟩ := (system 1 ℕ ℕ).exists_run_of_exec (fun _ _ => True) lateReschedule
    (fun s _ => s.terminated) (by decide +kernel)
  simp [(h s log hrun).running] at hq

end ThreadPool
