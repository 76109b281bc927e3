import LowLevelCpp.Foundations.CondVar
import LowLevelCpp.Foundations.System
import Mathlib.Logic.Function.Basic

/-!
`Thread-Pool/main.cpp`: `ThreadPool` with its workers, the threads and tasks that call `enqueue`,
and the destructor. A step is a critical section or what a thread does between two of them;
notifications are sent after the mutex is released.
-/
namespace ThreadPool
open Foundations

/-- A worker is at the head of its loop, blocked in `condition_.wait`, executing the task it has
taken, or has left its loop. -/
inductive Worker (T : Type) where
  | loop
  | waiting
  | running (task : T)
  | exited
  deriving DecidableEq

/-- Who calls `enqueue`: a thread outside the pool, or the task that a worker executes. -/
inductive Caller (n : ℕ) (θ : Type) where
  | client (t : θ)
  | task (w : Fin n)
  deriving DecidableEq

/-- The destructor: not called, between its critical section and `notify_all`, joining the
workers from the next one on, or back. -/
inductive Destructor where
  | alive
  | stopped
  | joining (next : ℕ)
  | returned
  deriving DecidableEq

/-- `notifying` are the callers whose `enqueue` has released the mutex and not yet notified;
`terminated` says that `std::terminate` has been called. -/
structure State (n : ℕ) (θ T : Type) where
  tasks : List T
  stop : Bool
  condition : CondVar (Fin n)
  worker : Fin n → Worker T
  notifying : Finset (Caller n θ)
  destructor : Destructor
  terminated : Bool

/-- `accepted` and `rejected` are the two ways out of the critical section of `enqueue`. -/
inductive Event (n : ℕ) (θ T : Type) where
  | accepted (c : Caller n θ) (task : T)
  | rejected (c : Caller n θ) (task : T)
  | taken (w : Fin n) (task : T)
  | finished (w : Fin n) (task : T)
  | exited (w : Fin n)
  | stopped
  | destroyed
  | terminated (w : Fin n)
  deriving DecidableEq

/-- A task that calls `enqueue` either catches what it throws or lets it escape; `notify_one`
wakes a chosen waiter. -/
inductive Act (n : ℕ) (θ T : Type) where
  | enqueue (c : Caller n θ) (task : T) (caught : Bool)
  | notify (c : Caller n θ) (woken : Option (Fin n))
  | lock (w : Fin n)
  | resume (w : Fin n)
  | spurious (w : Fin n)
  | finish (w : Fin n)
  | destroy
  | notifyAll
  | join

/-- The steps that the pool's own threads and the calls in progress take by themselves. -/
def Act.own {n : ℕ} {θ T : Type} : Act n θ T → Bool
  | .notify _ _ | .lock _ | .resume _ | .finish _ | .notifyAll | .join => true
  | .enqueue _ _ _ | .spurious _ | .destroy => false

variable {n : ℕ} {θ T : Type} [DecidableEq θ]

namespace State

abbrev Outcome (n : ℕ) (θ T : Type) := Option (State n θ T × List (Event n θ T))

def goto (s : State n θ T) (w : Fin n) (pc : Worker T) : State n θ T :=
  { s with worker := Function.update s.worker w pc }

/-- A worker has re-acquired the mutex. -/
def leave (s : State n θ T) (w : Fin n) : State n θ T :=
  { s with condition := s.condition.leave w }

/-- Who may call `enqueue`: a client that is not in another call while the pool exists, and a
task that is being executed. -/
def CanCall (s : State n θ T) : Caller n θ → Prop
  | .client t => .client t ∉ s.notifying ∧ s.destructor ≠ .returned
  | .task w => .task w ∉ s.notifying ∧ ∃ task, s.worker w = .running task

instance (s : State n θ T) : (c : Caller n θ) → Decidable (s.CanCall c)
  | .client t => inferInstanceAs (Decidable (.client t ∉ s.notifying ∧ s.destructor ≠ .returned))
  | .task w =>
    match h : s.worker w with
    | .running task => decidable_of_iff (.task w ∉ s.notifying) (by simp [CanCall, h])
    | .loop => .isFalse (by simp [CanCall, h])
    | .waiting => .isFalse (by simp [CanCall, h])
    | .exited => .isFalse (by simp [CanCall, h])

/-- The critical section of `enqueue`; its `emplace` finds the memory it needs. What escapes a task
leaves the worker's thread function. -/
def enqueue (s : State n θ T) (c : Caller n θ) (task : T) (caught : Bool) : Outcome n θ T :=
  if s.CanCall c then
    if s.stop then
      match c with
      | .client _ => some (s, [.rejected c task])
      | .task w =>
        if caught then some (s, [.rejected c task])
        else some ({ s with terminated := true }, [.rejected c task, .terminated w])
    else
      some ({ s with tasks := s.tasks ++ [task], notifying := insert c s.notifying },
        [.accepted c task])
  else none

/-- The worker's critical section, from a test of the predicate. -/
def test (s : State n θ T) (w : Fin n) : State n θ T × List (Event n θ T) :=
  if s.stop || !s.tasks.isEmpty then
    match s.tasks with
    | [] => (s.goto w .exited, [.exited w])
    | task :: rest => ({ s with tasks := rest }.goto w (.running task), [.taken w task])
  else ({ s with condition := s.condition.join w }.goto w .waiting, [])

end State

def step (s : State n θ T) (act : Act n θ T) : State.Outcome n θ T :=
  if s.terminated then none
  else
    match act with
    | .enqueue c task caught => s.enqueue c task caught
    | .notify c woken =>
      if c ∈ s.notifying then
        (s.condition.notifyOne woken).map fun condition =>
          ({ s with condition, notifying := s.notifying.erase c }, [])
      else none
    | .lock w =>
      match s.worker w with
      | .loop => some (s.test w)
      | _ => none
    | .resume w => if w ∈ s.condition.woken then some ((s.leave w).test w) else none
    | .spurious w =>
      if w ∈ s.condition.waiting then some ({ s with condition := s.condition.wake w }, [])
      else none
    | .finish w =>
      match s.worker w with
      | .running task =>
        if .task w ∈ s.notifying then none else some (s.goto w .loop, [.finished w task])
      | _ => none
    | .destroy =>
      if s.destructor = .alive then
        some ({ s with stop := true, destructor := .stopped }, [.stopped])
      else none
    | .notifyAll =>
      if s.destructor = .stopped then
        some ({ s with condition := s.condition.notifyAll, destructor := .joining 0 }, [])
      else none
    | .join =>
      match s.destructor with
      | .joining next =>
        if h : next < n then
          match s.worker ⟨next, h⟩ with
          | .exited => some ({ s with destructor := .joining (next + 1) }, [])
          | _ => none
        else some ({ s with destructor := .returned }, [.destroyed])
      | _ => none

/-- `ThreadPool(numThreads)` -/
def system (n : ℕ) (θ T : Type) [DecidableEq θ] :
    System (State n θ T) (Act n θ T) (Event n θ T) where
  init := ⟨[], false, .empty, fun _ => .loop, ∅, .alive, false⟩
  step := step

/-- The state in which a worker tests its predicate. -/
inductive Enters (s : State n θ T) (w : Fin n) : Act n θ T → State n θ T → Prop
  | lock : s.worker w = .loop → Enters s w (.lock w) s
  | resume : w ∈ s.condition.woken → Enters s w (.resume w) (s.leave w)

/-- What a step can do; `s₀` is the state in which a worker tests its predicate. -/
inductive Moves (s : State n θ T) : Act n θ T → State n θ T → List (Event n θ T) → Prop
  | accept {c : Caller n θ} {task : T} {caught : Bool} : s.CanCall c → s.stop = false →
      Moves s (.enqueue c task caught)
        { s with tasks := s.tasks ++ [task], notifying := insert c s.notifying } [.accepted c task]
  | reject {c : Caller n θ} {task : T} {caught : Bool} : s.stop = true →
      (∀ w, c = .task w → caught = true) →
      Moves s (.enqueue c task caught) s [.rejected c task]
  | escape {w : Fin n} {task : T} : s.stop = true →
      Moves s (.enqueue (.task w) task false) { s with terminated := true }
        [.rejected (.task w) task, .terminated w]
  | notify {c : Caller n θ} {woken : Option (Fin n)} {condition : CondVar (Fin n)} :
      c ∈ s.notifying → s.condition.notifyOne woken = some condition →
      Moves s (.notify c woken) { s with condition, notifying := s.notifying.erase c } []
  | take {w : Fin n} {task : T} {rest : List T} {s₀ : State n θ T} {act : Act n θ T} :
      Enters s w act s₀ → s₀.tasks = task :: rest →
      Moves s act ({ s₀ with tasks := rest }.goto w (.running task)) [.taken w task]
  | wait {w : Fin n} {s₀ : State n θ T} {act : Act n θ T} : Enters s w act s₀ → s₀.stop = false →
      s₀.tasks = [] → Moves s act ({ s₀ with condition := s₀.condition.join w }.goto w .waiting) []
  | exit {w : Fin n} {s₀ : State n θ T} {act : Act n θ T} : Enters s w act s₀ → s₀.stop = true →
      s₀.tasks = [] → Moves s act (s₀.goto w .exited) [.exited w]
  | spurious {w : Fin n} : w ∈ s.condition.waiting →
      Moves s (.spurious w) { s with condition := s.condition.wake w } []
  | finish {w : Fin n} {task : T} : s.worker w = .running task → .task w ∉ s.notifying →
      Moves s (.finish w) (s.goto w .loop) [.finished w task]
  | destroy : s.destructor = .alive →
      Moves s .destroy { s with stop := true, destructor := .stopped } [.stopped]
  | notifyAll : s.destructor = .stopped →
      Moves s .notifyAll { s with condition := s.condition.notifyAll, destructor := .joining 0 } []
  | join {next : ℕ} (h : next < n) : s.destructor = .joining next → s.worker ⟨next, h⟩ = .exited →
      Moves s .join { s with destructor := .joining (next + 1) } []
  | returned {next : ℕ} : s.destructor = .joining next → n ≤ next →
      Moves s .join { s with destructor := .returned } [.destroyed]

section Inversion
variable {s s₀ s' : State n θ T} {evs : List (Event n θ T)} {w : Fin n} {c : Caller n θ} {task : T}
  {act : Act n θ T}

theorem test_moves (he : Enters s w act s₀) (hs : s₀.test w = (s', evs)) : Moves s act s' evs := by
  unfold State.test at hs
  split at hs
  · rename_i hpred
    split at hs
    · rename_i hnil
      obtain ⟨rfl, rfl⟩ := Prod.mk.inj hs
      exact .exit he (by simpa [hnil] using hpred) hnil
    · rename_i task rest hcons
      obtain ⟨rfl, rfl⟩ := Prod.mk.inj hs
      exact .take he hcons
  · rename_i hpred
    obtain ⟨rfl, rfl⟩ := Prod.mk.inj hs
    obtain ⟨hstop, hnil⟩ : s₀.stop = false ∧ s₀.tasks = [] := by simpa using hpred
    exact .wait he hstop hnil

theorem enqueue_moves {caught : Bool} (hs : s.enqueue c task caught = some (s', evs)) :
    Moves s (.enqueue c task caught) s' evs := by
  unfold State.enqueue at hs
  split at hs
  · rename_i hcall
    split at hs
    · rename_i hstop
      split at hs
      · cases hs
        exact .reject hstop (by simp)
      · split at hs
        · rename_i hcaught
          cases hs
          exact .reject hstop fun _ _ => hcaught
        · rename_i hcaught
          cases hs
          rw [Bool.not_eq_true] at hcaught
          subst hcaught
          exact .escape hstop
    · rename_i hstop
      cases hs
      exact .accept hcall (by simpa using hstop)
  · cases hs

theorem not_terminated (hs : step s act = some (s', evs)) : s.terminated = false := by
  unfold step at hs
  split at hs
  · cases hs
  · rename_i hrunning
    simpa using hrunning

theorem step_moves (hs : step s act = some (s', evs)) : Moves s act s' evs := by
  have hrunning := not_terminated hs
  unfold step at hs
  rw [if_neg (by simp [hrunning])] at hs
  cases act with
  | enqueue c task caught => exact enqueue_moves hs
  | notify c woken =>
    simp only at hs
    split at hs
    · obtain ⟨condition, hn, hr⟩ := Option.map_eq_some_iff.mp hs
      cases hr
      exact .notify ‹_› hn
    · cases hs
  | lock w =>
    simp only at hs
    split at hs
    · exact test_moves (.lock ‹_›) (Option.some.inj hs)
    · cases hs
  | resume w =>
    simp only at hs
    split at hs
    · exact test_moves (.resume ‹_›) (Option.some.inj hs)
    · cases hs
  | spurious w =>
    simp only at hs
    split at hs
    · cases hs
      exact .spurious ‹_›
    · cases hs
  | finish w =>
    simp only at hs
    split at hs
    · split at hs
      · cases hs
      · cases hs
        exact .finish ‹_› ‹_›
    · cases hs
  | destroy =>
    simp only at hs
    split at hs
    · cases hs
      exact .destroy ‹_›
    · cases hs
  | notifyAll =>
    simp only at hs
    split at hs
    · cases hs
      exact .notifyAll ‹_›
    · cases hs
  | join =>
    simp only at hs
    split at hs
    · split at hs
      · split at hs
        · cases hs
          exact .join _ ‹_› ‹_›
        · cases hs
      · cases hs
        exact .returned ‹_› (by omega)
    · cases hs

end Inversion
end ThreadPool
