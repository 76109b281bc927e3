import LowLevelCpp.ThreadPool.Wakeups
import Mathlib.Algebra.BigOperators.Fin
import Mathlib.Algebra.Order.BigOperators.Group.Finset
import Mathlib.Data.Multiset.AddSub

/-! Every accepted task is executed exactly once, in the order of the enqueues. The accepted
tasks are those taken followed by the queue, and those taken are the finished ones and the ones
that workers execute; a pool that has come to rest has executed them all. -/
namespace ThreadPool
open Foundations Foundations.System

variable {n : ℕ} {θ T : Type}

def Event.accepted? : Event n θ T → Option T
  | .accepted _ task => some task
  | _ => none

def Event.taken? : Event n θ T → Option T
  | .taken _ task => some task
  | _ => none

def Event.finished? : Event n θ T → Option T
  | .finished _ task => some task
  | _ => none

/-- The tasks whose `enqueue` has passed its critical section, in lock order. -/
def acceptedTasks (log : List (Event n θ T)) : List T := log.filterMap Event.accepted?

/-- The tasks that workers took from the queue, in lock order. -/
def takenTasks (log : List (Event n θ T)) : List T := log.filterMap Event.taken?

/-- The tasks that were executed to their end. -/
def finishedTasks (log : List (Event n θ T)) : List T := log.filterMap Event.finished?

@[simp] theorem acceptedTasks_append (log evs : List (Event n θ T)) :
    acceptedTasks (log ++ evs) = acceptedTasks log ++ acceptedTasks evs :=
  List.filterMap_append

@[simp] theorem takenTasks_append (log evs : List (Event n θ T)) :
    takenTasks (log ++ evs) = takenTasks log ++ takenTasks evs :=
  List.filterMap_append

@[simp] theorem finishedTasks_append (log evs : List (Event n θ T)) :
    finishedTasks (log ++ evs) = finishedTasks log ++ finishedTasks evs :=
  List.filterMap_append

/-- What a worker executes. -/
def Worker.current : Worker T → Multiset T
  | .running task => {task}
  | .loop | .waiting | .exited => 0

def State.executing (s : State n θ T) : Multiset T := ∑ w, (s.worker w).current

/-- The tasks return normally: none lets escape what its `enqueue` throws. -/
def ReturnsNormally (s : State n θ T) : Act n θ T → Prop
  | .enqueue (.task _) _ false => s.stop = false
  | _ => True

instance (s : State n θ T) : (act : Act n θ T) → Decidable (ReturnsNormally s act)
  | .enqueue (.task _) _ false => inferInstanceAs (Decidable (s.stop = false))
  | .enqueue (.task _) _ true | .enqueue (.client _) _ _ | .notify _ _ | .lock _ | .resume _
  | .spurious _ | .finish _ | .destroy | .notifyAll | .join => .isTrue trivial

/-- The history invariant. -/
structure Executed (s : State n θ T) (log : List (Event n θ T)) : Prop where
  inOrder : acceptedTasks log = takenTasks log ++ s.tasks
  once : (takenTasks log : Multiset T) = finishedTasks log + s.executing

/-- What is added up over the workers changes with the one that moves. -/
theorem sum_goto {M : Type} [AddCommMonoid M] (s : State n θ T) (g : Worker T → M) (w : Fin n)
    (pc : Worker T) :
    ∑ x, g ((s.goto w pc).worker x) + g (s.worker w) = ∑ x, g (s.worker x) + g pc := by
  have hrest : ∑ x ∈ Finset.univ.erase w, g ((s.goto w pc).worker x) =
      ∑ x ∈ Finset.univ.erase w, g (s.worker x) := by
    apply Finset.sum_congr rfl
    intro x hx
    rw [goto_worker, Function.update_of_ne (Finset.ne_of_mem_erase hx)]
  rw [← Finset.sum_erase_add _ _ (Finset.mem_univ w), hrest, goto_worker, Function.update_self,
    ← Finset.sum_erase_add _ (fun x => g (s.worker x)) (Finset.mem_univ w)]
  exact add_right_comm _ _ _

section Entering
variable {s s₀ : State n θ T} {w : Fin n} {act : Act n θ T}

theorem Enters.executing_goto (he : Enters s w act s₀) (hplaced : Placed s) (pc : Worker T) :
    (s₀.goto w pc).executing = s.executing + pc.current := by
  have hidle : (s.worker w).current = 0 := by
    rcases (he.worker hplaced).1 with h | h <;> rw [h] <;> rfl
  have hsum := sum_goto s₀ Worker.current w pc
  rw [he.worker_eq, hidle, add_zero] at hsum
  exact hsum

end Entering

section Steps
variable [DecidableEq θ] {s s' : State n θ T} {log evs : List (Event n θ T)} {act : Act n θ T}

/-- What a step does to the tasks: it appends the one that it accepts, or takes the front to
execute it, or ends an execution, or leaves them all. -/
theorem step_tasks (hplaced : Placed s) (hs : step s act = some (s', evs)) :
    (∃ task, acceptedTasks evs = [task] ∧ takenTasks evs = [] ∧ finishedTasks evs = [] ∧
      s'.tasks = s.tasks ++ [task] ∧ s'.executing = s.executing) ∨
    (∃ task, acceptedTasks evs = [] ∧ takenTasks evs = [task] ∧ finishedTasks evs = [] ∧
      s.tasks = task :: s'.tasks ∧ s'.executing = s.executing + {task}) ∨
    (∃ task, acceptedTasks evs = [] ∧ takenTasks evs = [] ∧ finishedTasks evs = [task] ∧
      s'.tasks = s.tasks ∧ s.executing = s'.executing + {task}) ∨
    (acceptedTasks evs = [] ∧ takenTasks evs = [] ∧ finishedTasks evs = [] ∧
      s'.tasks = s.tasks ∧ s'.executing = s.executing) := by
  cases step_moves hs with
  | @accept c task caught _ _ => exact .inl ⟨task, rfl, rfl, rfl, rfl, rfl⟩
  | reject _ _ => exact .inr (.inr (.inr ⟨rfl, rfl, rfl, rfl, rfl⟩))
  | escape _ => exact .inr (.inr (.inr ⟨rfl, rfl, rfl, rfl, rfl⟩))
  | notify _ _ => exact .inr (.inr (.inr ⟨rfl, rfl, rfl, rfl, rfl⟩))
  | @take w task rest s₀ act he hcons =>
    rw [he.tasks_eq] at hcons
    exact .inr (.inl ⟨task, rfl, rfl, rfl, hcons, he.executing_goto hplaced (.running task)⟩)
  | wait he _ _ =>
    have hexecuting := (he.executing_goto hplaced .waiting).trans (add_zero _)
    exact .inr (.inr (.inr ⟨rfl, rfl, rfl, he.tasks_eq, hexecuting⟩))
  | exit he _ _ =>
    have hexecuting := (he.executing_goto hplaced .exited).trans (add_zero _)
    exact .inr (.inr (.inr ⟨rfl, rfl, rfl, he.tasks_eq, hexecuting⟩))
  | spurious _ => exact .inr (.inr (.inr ⟨rfl, rfl, rfl, rfl, rfl⟩))
  | @finish w task hrunning _ =>
    have hsum := sum_goto s Worker.current w .loop
    rw [hrunning] at hsum
    have hexecuting : s.executing = (s.goto w .loop).executing + {task} := by
      simpa [State.executing, Worker.current] using hsum.symm
    exact .inr (.inr (.inl ⟨task, rfl, rfl, rfl, rfl, hexecuting⟩))
  | destroy _ => exact .inr (.inr (.inr ⟨rfl, rfl, rfl, rfl, rfl⟩))
  | notifyAll _ => exact .inr (.inr (.inr ⟨rfl, rfl, rfl, rfl, rfl⟩))
  | join _ _ _ => exact .inr (.inr (.inr ⟨rfl, rfl, rfl, rfl, rfl⟩))
  | returned _ _ => exact .inr (.inr (.inr ⟨rfl, rfl, rfl, rfl, rfl⟩))

theorem Executed.step (h : Executed s log) (hplaced : Placed s)
    (hs : step s act = some (s', evs)) : Executed s' (log ++ evs) := by
  obtain ⟨horder, honce⟩ := h
  rcases step_tasks hplaced hs with ⟨task, ha, ht, hf, hq, hx⟩ | ⟨task, ha, ht, hf, hq, hx⟩ |
    ⟨task, ha, ht, hf, hq, hx⟩ | ⟨ha, ht, hf, hq, hx⟩
  · constructor
    · simp [ha, ht, hq, horder]
    · simp [ht, hf, hx, honce]
  · constructor
    · simp [ha, ht, hq, horder]
    · simp only [takenTasks_append, finishedTasks_append, ht, hf, hx, List.append_nil,
        ← Multiset.coe_add, honce, Multiset.coe_singleton, add_assoc]
  · constructor
    · simp [ha, ht, hq, horder]
    · simp only [takenTasks_append, finishedTasks_append, ht, hf, List.append_nil,
        ← Multiset.coe_add, honce, hx, Multiset.coe_singleton, add_assoc]
      rw [add_comm s'.executing]
  · constructor
    · simp [ha, ht, hq, horder]
    · simp [ht, hf, hx, honce]

/-- An `enqueue` that throws adds no task. -/
theorem rejected_tasks {c : Caller n θ} {task : T} (hs : step s act = some (s', evs))
    (hrejected : .rejected c task ∈ evs) : s'.tasks = s.tasks ∧ acceptedTasks evs = [] := by
  cases step_moves hs with
  | reject _ _ => exact ⟨rfl, rfl⟩
  | escape _ => exact ⟨rfl, rfl⟩
  | accept _ _ => simp at hrejected
  | notify _ _ => simp at hrejected
  | take _ _ => simp at hrejected
  | wait _ _ _ => simp at hrejected
  | exit _ _ _ => simp at hrejected
  | spurious _ => simp at hrejected
  | finish _ _ => simp at hrejected
  | destroy _ => simp at hrejected
  | notifyAll _ => simp at hrejected
  | join _ _ _ => simp at hrejected
  | returned _ _ => simp at hrejected

/-- The process ends exactly where a task lets an exception escape. -/
theorem step_terminated (hs : step s act = some (s', evs)) :
    s'.terminated = true ↔ ¬ ReturnsNormally s act := by
  have hrunning := not_terminated hs
  cases step_moves hs with
  | @accept c task caught _ hopen =>
    cases c <;> cases caught <;> simp [ReturnsNormally, hrunning, hopen]
  | @reject c task caught hstop hcaught =>
    cases c with
    | client t => simp [ReturnsNormally, hrunning]
    | task w => simp [ReturnsNormally, hrunning, hcaught w rfl]
  | escape hstop => simp [ReturnsNormally, hstop]
  | notify _ _ => simp [ReturnsNormally, hrunning]
  | take he _ => cases he <;> simp [ReturnsNormally, State.goto, State.leave, hrunning]
  | wait he _ _ => cases he <;> simp [ReturnsNormally, State.goto, State.leave, hrunning]
  | exit he _ _ => cases he <;> simp [ReturnsNormally, State.goto, State.leave, hrunning]
  | spurious _ => simp [ReturnsNormally, hrunning]
  | finish _ _ => simp [ReturnsNormally, State.goto, hrunning]
  | destroy _ => simp [ReturnsNormally, hrunning]
  | notifyAll _ => simp [ReturnsNormally, hrunning]
  | join _ _ _ => simp [ReturnsNormally, hrunning]
  | returned _ _ => simp [ReturnsNormally, hrunning]

end Steps

/-- Steps that a worker has ahead of it before it sleeps or leaves. -/
def Worker.work : Worker T → ℕ
  | .running _ => 2
  | .loop => 1
  | .waiting | .exited => 0

/-- Steps that the destructor has ahead of it and, before `notify_all`, those it causes. -/
def Destructor.work (n : ℕ) : Destructor → ℕ
  | .alive | .returned => 0
  | .stopped => 2 * n + 2
  | .joining next => n - next + 1

/-- A bound on the steps that the pool takes by itself. -/
def State.work (s : State n θ T) : ℕ :=
  ∑ w, (s.worker w).work + s.condition.woken.card + 2 * s.tasks.length + 2 * s.notifying.card +
    s.destructor.work n

/-- What a step brings that the pool does not take by itself: the step, and the work it causes. -/
def Act.brings : Act n θ T → ℕ
  | .enqueue _ _ _ => 5
  | .spurious _ => 2
  | .destroy => 2 * n + 3
  | .notify _ _ | .lock _ | .resume _ | .finish _ | .notifyAll | .join => 0

theorem brings_of_own {act : Act n θ T} (hown : act.own = true) : act.brings = 0 := by
  cases act with
  | notify _ _ | lock _ | resume _ | finish _ | notifyAll | join => rfl
  | enqueue _ _ _ | spurious _ | destroy => cases hown

/-- Nothing is under way in the pool. -/
def Settled [DecidableEq θ] (s : State n θ T) : Prop :=
  ∀ act s' evs, step s act = some (s', evs) → act.own = false

section Work
variable {s s₀ : State n θ T} {w : Fin n} {act : Act n θ T}

theorem Enters.brings (he : Enters s w act s₀) : act.brings = 0 := by
  cases he <;> rfl

/-- A worker that tests its predicate uses up a step, its own or that of its wakeup. -/
theorem Enters.work_goto (he : Enters s w act s₀) (hplaced : Placed s) (pc : Worker T) :
    ∑ x, ((s₀.goto w pc).worker x).work + s₀.condition.woken.card + 1 =
      ∑ x, (s.worker x).work + s.condition.woken.card + pc.work := by
  have hsum := sum_goto s₀ Worker.work w pc
  rw [he.worker_eq] at hsum
  cases he with
  | lock hloop =>
    rw [hloop] at hsum
    simp only [Worker.work] at hsum ⊢
    omega
  | resume hwoken =>
    have hwaiting := (hplaced w).mp (Finset.mem_union_right _ hwoken)
    have hcard : (s.leave w).condition.woken.card + 1 = s.condition.woken.card := by
      rw [State.leave, CondVar.leave_woken, Finset.card_erase_add_one hwoken]
    rw [hwaiting] at hsum
    simp only [Worker.work] at hsum ⊢
    omega

end Work

section Progress
variable [DecidableEq θ] {s s' : State n θ T} {evs : List (Event n θ T)} {act : Act n θ T}

/-- A step uses up work, apart from what it brings. -/
theorem work_step (hplaced : Placed s) (hs : step s act = some (s', evs)) :
    s'.work + 1 ≤ s.work + act.brings := by
  cases step_moves hs with
  | @accept c task caught _ _ =>
    have hcard := Finset.card_insert_le c s.notifying
    simp only [State.work, Act.brings, List.length_append, List.length_singleton]
    omega
  | reject _ _ | escape _ =>
    simp only [State.work, Act.brings]
    omega
  | @notify c woken condition hc hn =>
    have hcard := Finset.card_erase_add_one hc
    have hwoken := CondVar.notifyOne_woken_card hn
    simp only [State.work, Act.brings]
    omega
  | @take w task rest s₀ act he hcons =>
    have hwork := he.work_goto hplaced (.running task)
    have hlength : s.tasks.length = rest.length + 1 := by
      rw [← he.tasks_eq, hcons, List.length_cons]
    simp only [State.work, he.brings, State.goto, Worker.work, he.notifying_eq,
      he.destructor_eq] at hwork ⊢
    omega
  | @wait w s₀ act he _ _ =>
    have hwork := he.work_goto hplaced .waiting
    have hwoken : (s₀.condition.join w).woken.card ≤ s₀.condition.woken.card := by
      rw [CondVar.join_woken]
      exact Finset.card_le_card (Finset.erase_subset _ _)
    simp only [State.work, he.brings, State.goto, Worker.work, he.notifying_eq, he.destructor_eq,
      he.tasks_eq] at hwork ⊢
    omega
  | @exit w s₀ act he _ _ =>
    have hwork := he.work_goto hplaced .exited
    simp only [State.work, he.brings, State.goto, Worker.work, he.notifying_eq, he.destructor_eq,
      he.tasks_eq] at hwork ⊢
    omega
  | @spurious w _ =>
    have hcard := s.condition.wake_woken_card w
    simp only [State.work, Act.brings]
    omega
  | @finish w task hrunning _ =>
    have hsum := sum_goto s Worker.work w .loop
    rw [hrunning] at hsum
    simp only [State.work, Act.brings, State.goto, Worker.work] at hsum ⊢
    omega
  | destroy halive =>
    simp only [State.work, Act.brings, halive, Destructor.work]
    omega
  | notifyAll hstopped =>
    have hwoken : s.condition.notifyAll.woken.card ≤ n := by
      simpa using Finset.card_le_univ s.condition.notifyAll.woken
    simp only [State.work, Act.brings, hstopped, Destructor.work]
    omega
  | @join next hlt hjoining _ =>
    simp only [State.work, Act.brings, hjoining, Destructor.work]
    omega
  | @returned next hjoining _ =>
    simp only [State.work, Act.brings, hjoining, Destructor.work]
    omega

/-- Every step that the pool takes by itself brings it closer to rest. -/
theorem work_lt (hplaced : Placed s) (hs : step s act = some (s', evs)) (hown : act.own = true) :
    s'.work < s.work := by
  have hwork := work_step hplaced hs
  rw [brings_of_own hown] at hwork
  omega

theorem Settled.notifying (h : Settled s) (hrunning : s.terminated = false) :
    s.notifying = ∅ := by
  by_contra hne
  obtain ⟨c, hc⟩ := Finset.nonempty_iff_ne_empty.mpr hne
  obtain ⟨woken, condition, hn⟩ := s.condition.exists_notifyOne
  have hown := h (.notify c woken) { s with condition, notifying := s.notifying.erase c } []
    (by simp [step, hrunning, hc, hn])
  cases hown

theorem Settled.woken (h : Settled s) (hrunning : s.terminated = false) :
    s.condition.woken = ∅ := by
  by_contra hne
  obtain ⟨w, hw⟩ := Finset.nonempty_iff_ne_empty.mpr hne
  have hown := h (.resume w) ((s.leave w).test w).1 ((s.leave w).test w).2
    (by simp [step, hrunning, hw])
  cases hown

/-- In a settled pool every worker sleeps unnotified or has left. -/
theorem Settled.worker (h : Settled s) (hrunning : s.terminated = false) (hplaced : Placed s)
    (w : Fin n) : w ∈ s.condition.waiting ∨ s.worker w = .exited := by
  have hnotifying := h.notifying hrunning
  cases hw : s.worker w with
  | loop =>
    have hown := h (.lock w) (s.test w).1 (s.test w).2 (by simp [step, hrunning, hw])
    cases hown
  | waiting =>
    have hmem := (hplaced w).mpr hw
    rw [CondVar.members, h.woken hrunning, Finset.union_empty] at hmem
    exact .inl hmem
  | running task =>
    have hown := h (.finish w) (s.goto w .loop) [.finished w task]
      (by simp [step, hrunning, hw, hnotifying])
    cases hown
  | exited => exact .inr rfl

end Progress

/-- When no worker executes anything and the queue is empty, all that was accepted is done. -/
theorem Executed.done {s : State n θ T} {log : List (Event n θ T)} (h : Executed s log)
    (htasks : s.tasks = []) (hidle : ∀ w, s.worker w = .waiting ∨ s.worker w = .exited) :
    (acceptedTasks log : Multiset T) = finishedTasks log := by
  have hexecuting : s.executing = 0 := by
    apply Finset.sum_eq_zero
    intro w _
    rcases hidle w with hw | hw <;> rw [hw] <;> rfl
  rw [h.inOrder, htasks, List.append_nil, h.once, hexecuting, add_zero]

section Runs
variable [DecidableEq θ] {s : State n θ T} {log : List (Event n θ T)}
  {P : State n θ T → Act n θ T → Prop}

theorem executed_of_run (hrun : (system n θ T).RunWhere P s log) : Executed s log :=
  hrun.invariant (I := Executed) ⟨rfl, by simp [takenTasks, finishedTasks, State.executing, system,
    Worker.current]⟩ fun _ _ _ _ _ hrun h _ hs => h.step (placed_of_run hrun) hs

theorem running_of_run (hrun : (system n θ T).RunWhere ReturnsNormally s log) :
    s.terminated = false :=
  hrun.invariant (I := fun s _ => s.terminated = false) rfl fun _ _ _ _ _ _ _ hp hs => by
    simpa [hp] using step_terminated hs

/-- A pool whose destructor is back has executed everything. -/
theorem returned_of_run (hn : 0 < n) (hrun : (system n θ T).RunWhere P s log)
    (hreturned : s.destructor = .returned) :
    s.tasks = [] ∧ (acceptedTasks log : Multiset T) = finishedTasks log := by
  have hshut := shutdown_of_run hrun
  have hexited (w : Fin n) : s.worker w = .exited := by
    apply hshut.joined
    rw [hreturned]
    trivial
  have htasks := (hshut.exits ⟨0, hn⟩ (hexited _)).2
  exact ⟨htasks, (executed_of_run hrun).done htasks fun w => .inr (hexited w)⟩

/-- A pool at rest has executed everything, and its destructor is not under way. -/
theorem settled_of_run (hn : 0 < n) (hrun : (system n θ T).RunWhere ReturnsNormally s log)
    (hsettled : Settled s) :
    s.tasks = [] ∧ (acceptedTasks log : Multiset T) = finishedTasks log ∧
      (s.destructor = .alive ∨ s.destructor = .returned) := by
  have hrunning := running_of_run hrun
  have hplaced := placed_of_run hrun
  have hshut := shutdown_of_run hrun
  have hworker := hsettled.worker hrunning hplaced
  have hidle (w : Fin n) : s.worker w = .waiting ∨ s.worker w = .exited :=
    (hworker w).imp_left fun hw => (hplaced w).mp (Finset.mem_union_left _ hw)
  have htasks : s.tasks = [] := by
    by_contra hne
    rcases awake_of_run hrun (.inl ⟨hn, hne⟩) fun w hw => (hworker w).resolve_right hw with h | h
    · obtain ⟨w, hw⟩ := h
      have hwoken : w ∈ s.condition.woken := Finset.mem_union_left _ hw
      simp [hsettled.woken hrunning] at hwoken
    · simp [hsettled.notifying hrunning] at h
  refine ⟨htasks, (executed_of_run hrun).done htasks hidle, ?_⟩
  cases hd : s.destructor with
  | alive => exact .inl rfl
  | returned => exact .inr rfl
  | stopped =>
    have hown := hsettled .notifyAll _ _ (by simp only [step, hrunning, hd]; rfl)
    cases hown
  | joining next =>
    have hasleep : s.condition.waiting = ∅ := hshut.quiet (by simp [hd, Destructor.hasNotified])
    by_cases hlt : next < n
    · have hexited : s.worker ⟨next, hlt⟩ = .exited := by
        simpa [hasleep] using hworker ⟨next, hlt⟩
      have hown := hsettled .join { s with destructor := .joining (next + 1) } []
        (by simp [step, hrunning, hd, hlt, hexited])
      cases hown
    · have hown := hsettled .join { s with destructor := .returned } [.destroyed]
        (by simp [step, hrunning, hd, hlt])
      cases hown

/-- Accepted tasks are executed exactly once and in order. The accepted tasks are in lock order
those that were taken and then the queue; those taken are, each as often as it was accepted, the
finished ones and the ones in execution; an `enqueue` that throws adds none. When the destructor
returns, and whenever the pool has come to rest, the queue is empty and every accepted task has
finished; and every step that the pool takes by itself brings it closer to rest. -/
theorem pool_executes_once (hn : 0 < n)
    (hrun : (system n θ T).RunWhere ReturnsNormally s log) :
    acceptedTasks log = takenTasks log ++ s.tasks ∧
      (takenTasks log : Multiset T) = finishedTasks log + s.executing ∧
      (∀ act s' evs c task, (system n θ T).step s act = some (s', evs) →
        .rejected c task ∈ evs → s'.tasks = s.tasks ∧ acceptedTasks evs = []) ∧
      (s.destructor = .returned →
        s.tasks = [] ∧ (acceptedTasks log : Multiset T) = finishedTasks log) ∧
      (Settled s → s.tasks = [] ∧ (acceptedTasks log : Multiset T) = finishedTasks log ∧
        (s.destructor = .alive ∨ s.destructor = .returned)) ∧
      ∀ act s' evs, (system n θ T).step s act = some (s', evs) → act.own = true →
        s'.work < s.work := by
  obtain ⟨horder, honce⟩ := executed_of_run hrun
  refine ⟨horder, honce, ?_, returned_of_run hn hrun, settled_of_run hn hrun, ?_⟩
  · intro act s' evs c task hs
    exact rejected_tasks hs
  · intro act s' evs hs
    exact work_lt (placed_of_run hrun) hs

end Runs

/-- A task enqueues another, and a second one catches what it gets after the destructor's
critical section. -/
def drained : List (Act 2 ℕ ℕ) :=
  [.lock first, .enqueue (.client 0) 7 false, .notify (.client 0) (some first), .resume first,
    .enqueue (.task first) 8 false, .notify (.task first) none, .lock second, .destroy,
    .enqueue (.task second) 9 true, .notifyAll, .finish first, .lock first, .finish second,
    .lock second, .join, .join, .join]

theorem pool_executes_once_drained :
    ∃ s log, (system 2 ℕ ℕ).RunWhere ReturnsNormally s log ∧ acceptedTasks log = [7, 8] ∧
      s.tasks = [] ∧ (acceptedTasks log : Multiset ℕ) = finishedTasks log := by
  obtain ⟨s, log, hrun, hq⟩ := (system 2 ℕ ℕ).exists_run_of_exec ReturnsNormally drained
    (fun s log => decide (s.destructor = .returned ∧ acceptedTasks log = [7, 8]))
    (by decide +kernel)
  obtain ⟨hreturned, haccepted⟩ := of_decide_eq_true hq
  obtain ⟨-, -, -, hdone, -⟩ := pool_executes_once Nat.two_pos hrun
  exact ⟨s, log, hrun, haccepted, hdone hreturned⟩

end ThreadPool
