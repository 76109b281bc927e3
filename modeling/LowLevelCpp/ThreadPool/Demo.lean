import LowLevelCpp.Foundations.Clients
import LowLevelCpp.ThreadPool.Tasks

/-!
`Thread-Pool/main.cpp`: `main` creates a pool, enqueues tasks that print a line, sleep and print
another, and leaves the end of the pool to its destructor. What is printed under `coutMutex` is
one step.
-/
namespace ThreadPool.Demo
open Foundations Foundations.System

/-- The numbers of threads and tasks of `main`, and what the threads print as their identifiers. -/
structure Setup where
  workers : ℕ
  tasks : ℕ
  getThreadID : Fin workers → String
  workers_pos : 0 < workers

/-- What is printed in one critical section: by `main`, or by a task. -/
inductive Line (n : ℕ) where
  | enqueueing
  | started (i : ℕ) (id : Fin n)
  | completed (i : ℕ)
  deriving DecidableEq

def Line.text (d : Setup) : Line d.workers → String
  | .enqueueing => "Thread Pool Created with " ++ toString d.workers ++ " threads\n" ++
      "Enqueueing " ++ toString d.tasks ++ " tasks...\n"
  | .started i id => "Task " ++ toString i ++ " (Thread ID: " ++ d.getThreadID id ++ ") started\n"
  | .completed i => "Task " ++ toString i ++ " completed\n"

/-- Where `main` stands: before its first lines, in its loop, in the destructor of the pool, back,
or left by an exception of `enqueue`. -/
inductive Main where
  | created
  | enqueueing (i : ℕ)
  | destroying
  | returned
  | threw
  deriving DecidableEq

/-- Where the task that a worker executes stands: before its first line, in `sleep_for`, or after
its second line. -/
inductive Body where
  | idle
  | starting (i : ℕ)
  | sleeping (i : ℕ)
  | returning (i : ℕ)
  deriving DecidableEq

structure Program (n : ℕ) where
  main : Main
  body : Fin n → Body
  output : List String

variable {d : Setup}

def Program.goto {n : ℕ} (g : Program n) (w : Fin n) (b : Body) : Program n :=
  { g with body := Function.update g.body w b }

def Program.print (d : Setup) (g : Program d.workers) (line : Line d.workers) :
    Program d.workers :=
  { g with output := g.output ++ [line.text d] }

/-- The steps of the pool that the program makes; no task calls `enqueue`. -/
def allows (d : Setup) (g : Program d.workers) : Act d.workers Unit ℕ → Bool
  | .enqueue (.client _) task caught => g.main = .enqueueing task && task < d.tasks && !caught
  | .enqueue (.task _) _ _ => false
  | .finish w =>
    match g.body w with
    | .returning _ => true
    | _ => false
  | .destroy => g.main = .enqueueing d.tasks
  | .notify _ _ | .lock _ | .resume _ | .spurious _ | .notifyAll | .join => true

def react (d : Setup) (g : Program d.workers) : Event d.workers Unit ℕ → Program d.workers
  | .accepted _ task => { g with main := .enqueueing (task + 1) }
  | .rejected _ _ => { g with main := .threw }
  | .taken w task => g.goto w (.starting task)
  | .finished w _ => g.goto w .idle
  | .stopped => { g with main := .destroying }
  | .destroyed => { g with main := .returned }
  | .exited _ | .terminated _ => g

/-- The steps outside the pool: of `main`, or of a task. -/
def tick (d : Setup) (g : Program d.workers) : Option (Fin d.workers) → Option (Program d.workers)
  | none =>
    if g.main = .created then some ({ g with main := .enqueueing 0 }.print d .enqueueing) else none
  | some w =>
    match g.body w with
    | .starting i => some ((g.print d (.started i w)).goto w (.sleeping i))
    | .sleeping i => some ((g.print d (.completed i)).goto w (.returning i))
    | _ => none

def client (d : Setup) : Client (Act d.workers Unit ℕ) (Event d.workers Unit ℕ)
    (Program d.workers) (Option (Fin d.workers)) where
  init := ⟨.created, fun _ => .idle, []⟩
  allows := allows d
  react := react d
  tick := tick d

abbrev Label (n : ℕ) := Act n Unit ℕ ⊕ Option (Fin n)

/-- The pool is destroyed after the last `enqueue` has notified. -/
def InOrder {n : ℕ} (s : State n Unit ℕ × Program n) : Label n → Prop
  | .inl .destroy => .client () ∉ s.1.notifying
  | _ => True

instance {n : ℕ} (s : State n Unit ℕ × Program n) : (a : Label n) → Decidable (InOrder s a)
  | .inl .destroy => inferInstanceAs (Decidable (.client () ∉ s.1.notifying))
  | .inl (.enqueue _ _ _) | .inl (.notify _ _) | .inl (.lock _) | .inl (.resume _)
  | .inl (.spurious _) | .inl (.finish _) | .inl .notifyAll | .inl .join | .inr _ => .isTrue trivial

/-- The whole program. -/
def program (d : Setup) :
    System (State d.workers Unit ℕ × Program d.workers) (Label d.workers)
      (Event d.workers Unit ℕ) :=
  ((system d.workers Unit ℕ).drive (client d)).restrict InOrder

/-- What the lines printed so far say: whether `main` has printed its own, which tasks have
started, and which one is under way on each thread. -/
structure Board (n : ℕ) where
  opened : Bool
  started : Finset ℕ
  running : Fin n → Option ℕ

/-- The acceptor of the lines in which `main` comes first, each task starts once, on a thread
without a task under way, and is completed once, after its start. -/
def console (d : Setup) : Spec (Board d.workers) (Line d.workers) where
  init := ⟨false, ∅, fun _ => none⟩
  accept b
    | .enqueueing => if b.opened then none else some { b with opened := true }
    | .started i id =>
      if b.opened = true ∧ i < d.tasks ∧ i ∉ b.started ∧ b.running id = none then
        some { b with
          started := insert i b.started
          running := Function.update b.running id (some i) }
      else none
    | .completed i =>
      if ∃ id, b.running id = some i then
        some { b with running := fun id => if b.running id = some i then none else b.running id }
      else none

/-- The task that a worker executes. -/
def Body.task : Body → Option ℕ
  | .idle => none
  | .starting i | .sleeping i | .returning i => some i

/-- The task that a worker has started and not completed. -/
def Body.asleep : Body → Option ℕ
  | .sleeping i => some i
  | .idle | .starting _ | .returning _ => none

/-- What `main` has enqueued, and how far the destructor is. -/
def Main.Agrees (d : Setup) (accepted : List ℕ) (destructor : Destructor) : Main → Prop
  | .created => accepted = [] ∧ destructor = .alive
  | .enqueueing i => i ≤ d.tasks ∧ accepted = List.range i ∧ destructor = .alive
  | .destroying =>
    accepted = List.range d.tasks ∧ destructor ≠ .alive ∧ destructor ≠ .returned
  | .returned => accepted = List.range d.tasks ∧ destructor = .returned
  | .threw => False

/-- The lines show where the tasks stand that have been taken from the queue. -/
structure Shows (g : Program d.workers) (taken : List ℕ) (b : Board d.workers) : Prop where
  opened : b.opened = true ↔ g.main ≠ .created
  started : ∀ i, i ∈ b.started ↔ i ∈ taken ∧ ∀ w, g.body w ≠ .starting i
  running : ∀ w, b.running w = (g.body w).asleep

structure Holds (d : Setup) (s : State d.workers Unit ℕ × Program d.workers)
    (log : List (Event d.workers Unit ℕ)) : Prop where
  main : s.2.main.Agrees d (acceptedTasks log) s.1.destructor
  body : ∀ w i, s.1.worker w = .running i ↔ (s.2.body w).task = some i
  printed : ∃ lines b, s.2.output = lines.map (Line.text d) ∧
    (console d).replay lines = some b ∧ Shows s.2 (takenTasks log) b

section Lines
variable {g g' : Program d.workers} {taken : List ℕ} {b : Board d.workers} {w : Fin d.workers}
  {i : ℕ}

@[simp] theorem goto_body (g : Program d.workers) (w : Fin d.workers) (pc : Body) :
    (g.goto w pc).body = Function.update g.body w pc := rfl

@[simp] theorem goto_main (g : Program d.workers) (w : Fin d.workers) (pc : Body) :
    (g.goto w pc).main = g.main := rfl

@[simp] theorem goto_output (g : Program d.workers) (w : Fin d.workers) (pc : Body) :
    (g.goto w pc).output = g.output := rfl

theorem Shows.congr (h : Shows g taken b) (hmain : g'.main = .created ↔ g.main = .created)
    (hbody : g'.body = g.body) : Shows g' taken b := by
  obtain ⟨hopened, hstarted, hrunning⟩ := h
  refine ⟨hopened.trans (not_congr hmain.symm), ?_, ?_⟩
  · rwa [hbody]
  · rwa [hbody]

theorem Shows.take (h : Shows g taken b) (hi : i ∉ taken) (hw : (g.body w).task = none) :
    Shows (g.goto w (.starting i)) (taken ++ [i]) b := by
  obtain ⟨hopened, hstarted, hrunning⟩ := h
  have hidle : g.body w = .idle := by
    cases hbody : g.body w <;> simp [hbody, Body.task] at hw
    rfl
  refine ⟨hopened, fun j => ?_, fun x => ?_⟩
  · rw [hstarted j]
    by_cases hj : j = i
    · subst hj
      constructor
      · rintro ⟨hj, -⟩
        exact absurd hj hi
      · rintro ⟨-, hall⟩
        exact absurd (Function.update_self ..) (hall w)
    · have hbody : (∀ x, (g.goto w (.starting i)).body x ≠ .starting j) ↔
          ∀ x, g.body x ≠ .starting j := by
        refine forall_congr' fun x => ?_
        by_cases hx : x = w
        · subst hx
          simp [hidle, Ne.symm hj]
        · simp [hx]
      rw [hbody]
      simp [hj]
  · by_cases hx : x = w
    · subst hx
      simp [hrunning, hidle, Body.asleep]
    · simp [hrunning, hx]

/-- A step of a body that the lines do not show. -/
theorem Shows.goto {pc : Body} (h : Shows g taken b) (hold : ∀ j, g.body w ≠ .starting j)
    (hnew : ∀ j, pc ≠ .starting j) (hasleep : pc.asleep = (g.body w).asleep) :
    Shows (g.goto w pc) taken b := by
  obtain ⟨hopened, hstarted, hrunning⟩ := h
  refine ⟨hopened, fun j => ?_, fun x => ?_⟩
  · rw [hstarted j]
    refine and_congr_right fun _ => forall_congr' fun x => ?_
    by_cases hx : x = w
    · subst hx
      simp [hold, hnew]
    · simp [hx]
  · by_cases hx : x = w
    · subst hx
      simp [hrunning, hasleep]
    · simp [hrunning, hx]

/-- The first lines of `main`. -/
theorem Shows.opening (h : Shows g taken b) (hmain : g.main = .created) :
    ∃ b', (console d).accept b .enqueueing = some b' ∧
      Shows ({ g with main := .enqueueing 0 }.print d .enqueueing) taken b' := by
  have hclosed : ¬ b.opened = true := fun hopen => h.opened.mp hopen hmain
  exact ⟨{ b with opened := true }, if_neg hclosed, by simp [Program.print], h.started, h.running⟩

/-- The first line of a task. -/
theorem Shows.start (h : Shows g taken b) (hw : g.body w = .starting i)
    (hunique : ∀ x, g.body x = .starting i → x = w) (htaken : i ∈ taken) (hi : i < d.tasks)
    (hmain : g.main ≠ .created) :
    ∃ b', (console d).accept b (.started i w) = some b' ∧
      Shows (g.goto w (.sleeping i)) taken b' := by
  obtain ⟨hopened, hstarted, hrunning⟩ := h
  have hnew : i ∉ b.started := fun hmem => ((hstarted i).mp hmem).2 w hw
  have hfree : b.running w = none := by rw [hrunning w, hw, Body.asleep]
  refine ⟨_, if_pos ⟨hopened.mpr hmain, hi, hnew, hfree⟩, hopened, fun j => ?_, fun x => ?_⟩
  · have hothers (x : Fin d.workers) : (g.goto w (.sleeping i)).body x ≠ .starting j ↔
        x = w ∨ g.body x ≠ .starting j := by
      by_cases hx : x = w
      · subst hx
        simp
      · simp [hx]
    simp only [Finset.mem_insert, hstarted, hothers]
    by_cases hj : j = i
    · subst hj
      have hrest (x : Fin d.workers) : x = w ∨ g.body x ≠ .starting j :=
        or_iff_not_imp_right.mpr fun hx => hunique x (not_not.mp hx)
      simp [htaken, hrest]
    · have hw' : g.body w ≠ .starting j := by simp [hw, Ne.symm hj]
      simp only [hj, false_or]
      refine and_congr_right fun _ => forall_congr' fun x => ?_
      constructor
      · exact .inr
      · rintro (rfl | hx)
        · exact hw'
        · exact hx
  · by_cases hx : x = w
    · subst hx
      simp [Body.asleep]
    · simp [hx, hrunning]

/-- The second line of a task. -/
theorem Shows.complete (h : Shows g taken b) (hw : g.body w = .sleeping i)
    (hunique : ∀ x, g.body x = .sleeping i → x = w) :
    ∃ b', (console d).accept b (.completed i) = some b' ∧
      Shows (g.goto w (.returning i)) taken b' := by
  obtain ⟨hopened, hstarted, hrunning⟩ := h
  have hasleep : b.running w = some i := by rw [hrunning w, hw, Body.asleep]
  refine ⟨_, if_pos ⟨w, hasleep⟩, hopened, fun j => ?_, fun x => ?_⟩
  · rw [hstarted j]
    refine and_congr_right fun _ => forall_congr' fun x => ?_
    by_cases hx : x = w
    · subst hx
      simp [hw]
    · simp [hx]
  · by_cases hx : x = w
    · subst hx
      simp [hasleep, Body.asleep]
    · have hother : (g.body x).asleep ≠ some i := by
        intro hsame
        cases hbody : g.body x with
        | sleeping j =>
          obtain rfl := Option.some.inj (hbody ▸ hsame)
          exact hx (hunique x hbody)
        | idle | starting j | returning j => simp [hbody, Body.asleep] at hsame
      simp [hx, hrunning, hother]

end Lines

section Executing
variable {n : ℕ} {q : State n Unit ℕ} {log : List (Event n Unit ℕ)} {w x : Fin n} {i : ℕ}

theorem mem_taken (hexecuted : Executed q log) (hw : q.worker w = .running i) :
    i ∈ takenTasks log := by
  have hmem : i ∈ q.executing :=
    Multiset.mem_sum.mpr ⟨w, Finset.mem_univ w, by simp [hw, Worker.current]⟩
  rw [← Multiset.mem_coe, hexecuted.once]
  exact Multiset.mem_add.mpr (.inr hmem)

/-- No task is executed by two workers. -/
theorem worker_unique (hexecuted : Executed q log) (hnodup : (takenTasks log).Nodup)
    (hw : q.worker w = .running i) (hx : q.worker x = .running i) : x = w := by
  by_contra hne
  have hcount := List.nodup_iff_count_le_one.mp hnodup i
  rw [← Multiset.coe_count, hexecuted.once, Multiset.count_add] at hcount
  have htwo : ∑ y ∈ {x, w}, (q.worker y).current.count i ≤
      ∑ y, (q.worker y).current.count i :=
    Finset.sum_le_sum_of_subset (Finset.subset_univ _)
  have hone : (Worker.running i).current.count i = 1 := Multiset.count_singleton_self i
  rw [Finset.sum_pair hne, hw, hx, hone, ← Multiset.count_sum'] at htwo
  unfold State.executing at hcount
  omega

end Executing

section Steps
variable {q q' : State d.workers Unit ℕ} {g g' : Program d.workers}
  {log evs : List (Event d.workers Unit ℕ)} {accepted : List ℕ} {destructor : Destructor}

theorem Main.Agrees.range {m : Main} (h : m.Agrees d accepted destructor) :
    ∃ k ≤ d.tasks, accepted = List.range k := by
  cases m with
  | created => exact ⟨0, Nat.zero_le _, h.1⟩
  | enqueueing i => exact ⟨i, h.1, h.2.1⟩
  | destroying => exact ⟨d.tasks, Nat.le_refl _, h.1⟩
  | returned => exact ⟨d.tasks, Nat.le_refl _, h.1⟩
  | threw => exact h.elim

theorem Main.Agrees.congr {m : Main} {destructor' : Destructor}
    (h : m.Agrees d accepted destructor)
    (halive : destructor' = .alive ↔ destructor = .alive)
    (hreturned : destructor' = .returned ↔ destructor = .returned) :
    m.Agrees d accepted destructor' := by
  cases m with
  | created => exact ⟨h.1, halive.mpr h.2⟩
  | enqueueing i => exact ⟨h.1, h.2.1, halive.mpr h.2.2⟩
  | destroying => exact ⟨h.1, fun hd => h.2.1 (halive.mp hd), fun hd => h.2.2 (hreturned.mp hd)⟩
  | returned => exact ⟨h.1, hreturned.mpr h.2⟩
  | threw => exact h

/-- A step of the pool that is none of the program's. -/
theorem Holds.quiet (h : Holds d (q, g) log)
    (hworker : ∀ w i, q'.worker w = .running i ↔ q.worker w = .running i)
    (halive : q'.destructor = .alive ↔ q.destructor = .alive)
    (hreturned : q'.destructor = .returned ↔ q.destructor = .returned)
    (haccepted : acceptedTasks evs = []) (htaken : takenTasks evs = []) :
    Holds d (q', g) (log ++ evs) := by
  obtain ⟨hmain, hbody, hprinted⟩ := h
  refine ⟨?_, fun w i => (hworker w i).trans (hbody w i), ?_⟩
  · rw [acceptedTasks_append, haccepted, List.append_nil]
    exact hmain.congr halive hreturned
  · rwa [takenTasks_append, htaken, List.append_nil]

theorem Holds.take (h : Holds d (q, g) log) (hexecuted : Executed q log) (hplaced : Placed q)
    {w : Fin d.workers} {task : ℕ} {rest : List ℕ} {q₀ : State d.workers Unit ℕ}
    {act : Act d.workers Unit ℕ} (he : Enters q w act q₀) (hcons : q₀.tasks = task :: rest) :
    Holds d ({ q₀ with tasks := rest }.goto w (.running task), g.goto w (.starting task))
      (log ++ [.taken w task]) := by
  obtain ⟨hmain, hbody, lines, b, houtput, hreplay, hshows⟩ := h
  obtain ⟨k, -, hrange⟩ := hmain.range
  have hnew : task ∉ takenTasks log := by
    intro hmem
    have hnodup := List.nodup_range (n := k)
    rw [← hrange, hexecuted.inOrder, ← he.tasks_eq, hcons] at hnodup
    exact (List.nodup_append.mp hnodup).2.2 task hmem task List.mem_cons_self rfl
  have hidle : (g.body w).task = none := by
    cases htask : (g.body w).task with
    | none => rfl
    | some i =>
      have hrunning : q.worker w = .running i := (hbody w i).mpr htask
      have hpc := (he.worker hplaced).1
      simp [hrunning] at hpc
  have hagrees : g.main.Agrees d (acceptedTasks log) q₀.destructor := he.destructor_eq ▸ hmain
  refine ⟨?_, fun x i => ?_, lines, b, houtput, hreplay, ?_⟩
  · rw [acceptedTasks_append, show acceptedTasks [Event.taken w task] = [] from rfl,
      List.append_nil]
    exact hagrees
  · by_cases hx : x = w
    · subst hx
      simp [Body.task]
    · simpa [hx, he.worker_eq] using hbody x i
  · rw [takenTasks_append]
    exact hshows.take hnew hidle

theorem Holds.finish (h : Holds d (q, g) log) {w : Fin d.workers} {task i : ℕ}
    (hw : g.body w = .returning i) :
    Holds d (q.goto w .loop, g.goto w .idle) (log ++ [.finished w task]) := by
  obtain ⟨hmain, hbody, lines, b, houtput, hreplay, hshows⟩ := h
  refine ⟨?_, fun x j => ?_, lines, b, houtput, hreplay, ?_⟩
  · rw [acceptedTasks_append, show acceptedTasks [Event.finished w task] = [] from rfl,
      List.append_nil]
    exact hmain
  · by_cases hx : x = w
    · subst hx
      simp [Body.task]
    · simpa [hx] using hbody x j
  · rw [takenTasks_append, show takenTasks [Event.finished w task] = [] from rfl,
      List.append_nil]
    have hold (j : ℕ) : g.body w ≠ .starting j := by simp [hw]
    have hasleep : Body.idle.asleep = (g.body w).asleep := by rw [hw]; rfl
    exact hshows.goto hold nofun hasleep

/-- Only `main` moves, and not away from its first lines. -/
theorem Holds.main_step (h : Holds d (q, g) log) {m : Main} (hg : g.main ≠ .created)
    (hm : m ≠ .created) (hworker : ∀ w i, q'.worker w = .running i ↔ q.worker w = .running i)
    (hagrees : m.Agrees d (acceptedTasks (log ++ evs)) q'.destructor)
    (htaken : takenTasks evs = []) : Holds d (q', { g with main := m }) (log ++ evs) := by
  obtain ⟨hmain, hbody, lines, b, houtput, hreplay, hshows⟩ := h
  refine ⟨hagrees, fun w i => (hworker w i).trans (hbody w i), lines, b, houtput, hreplay, ?_⟩
  rw [takenTasks_append, htaken, List.append_nil]
  exact hshows.congr (iff_of_false hm hg) rfl

/-- A step of the pool that the program allows. -/
theorem Holds.call {act : Act d.workers Unit ℕ} (h : Holds d (q, g) log)
    (hexecuted : Executed q log) (hplaced : Placed q) (hshutdown : Shutdown q)
    (hallows : allows d g act = true) (hs : step q act = some (q', evs)) :
    Holds d (q', evs.foldl (react d) g) (log ++ evs) := by
  have hmain : g.main.Agrees d (acceptedTasks log) q.destructor := h.main
  cases step_moves hs with
  | @accept c task caught _ hopen =>
    cases c with
    | task w => simp [allows] at hallows
    | client t =>
      obtain ⟨⟨hloop, htask⟩, -⟩ : (g.main = .enqueueing task ∧ task < d.tasks) ∧
          caught = false := by simpa [allows] using hallows
      rw [hloop] at hmain
      refine h.main_step (m := .enqueueing (task + 1)) (by simp [hloop]) (by simp)
        (fun _ _ => Iff.rfl) ⟨htask, ?_, hmain.2.2⟩ rfl
      rw [acceptedTasks_append, hmain.2.1, List.range_succ]
      rfl
  | @reject c task caught hstop _ =>
    cases c with
    | task w => simp [allows] at hallows
    | client t =>
      obtain ⟨⟨hloop, -⟩, -⟩ : (g.main = .enqueueing task ∧ task < d.tasks) ∧
          caught = false := by simpa [allows] using hallows
      rw [hloop] at hmain
      exact absurd hmain.2.2 (hshutdown.stop_iff.mp hstop)
  | escape _ => simp [allows] at hallows
  | notify _ _ => exact h.quiet (fun _ _ => Iff.rfl) Iff.rfl Iff.rfl rfl rfl
  | take he hcons => exact h.take hexecuted hplaced he hcons
  | @wait w s₀ act he _ _ | @exit w s₀ act he _ _ =>
    have hpc := (he.worker hplaced).1
    refine h.quiet (fun x i => ?_) ?_ ?_ rfl rfl
    · rw [goto_worker]
      by_cases hx : x = w
      · subst hx
        rcases hpc with hpc | hpc <;> simp [hpc]
      · simp [hx, he.worker_eq]
    · simp [State.goto, he.destructor_eq]
    · simp [State.goto, he.destructor_eq]
  | spurious _ => exact h.quiet (fun _ _ => Iff.rfl) Iff.rfl Iff.rfl rfl rfl
  | @finish w task _ _ =>
    simp only [allows] at hallows
    split at hallows
    · exact h.finish ‹_›
    · cases hallows
  | destroy _ =>
    have hloop : g.main = .enqueueing d.tasks := by simpa [allows] using hallows
    rw [hloop] at hmain
    refine h.main_step (m := .destroying) (by simp [hloop]) (by simp) (fun _ _ => Iff.rfl)
      ⟨?_, by simp, by simp⟩ rfl
    rw [acceptedTasks_append, hmain.2.1]
    exact List.append_nil _
  | notifyAll hstopped =>
    refine h.quiet (fun _ _ => Iff.rfl) ?_ ?_ rfl rfl
    · simp [hstopped]
    · simp [hstopped]
  | join _ hjoining _ =>
    refine h.quiet (fun _ _ => Iff.rfl) ?_ ?_ rfl rfl
    · simp [hjoining]
    · simp [hjoining]
  | returned hjoining _ =>
    have hdestroying : g.main = .destroying := by
      cases hm : g.main with
      | destroying => rfl
      | created | enqueueing i | returned | threw => simp [hm, Main.Agrees, hjoining] at hmain
    rw [hdestroying] at hmain
    refine h.main_step (m := .returned) (by simp [hdestroying]) (by simp) (fun _ _ => Iff.rfl)
      ⟨?_, rfl⟩ rfl
    rw [acceptedTasks_append, hmain.1]
    exact List.append_nil _

/-- A step outside the pool. -/
theorem Holds.tick {t : Option (Fin d.workers)} (h : Holds d (q, g) log)
    (hexecuted : Executed q log) (hs : tick d g t = some g') : Holds d (q, g') log := by
  obtain ⟨hmain, hbody, lines, b, houtput, hreplay, hshows⟩ := h
  obtain ⟨k, hk, hrange⟩ := hmain.range
  have hnodup : (takenTasks log).Nodup := by
    have hall := List.nodup_range (n := k)
    rw [← hrange, hexecuted.inOrder] at hall
    exact (List.nodup_append.mp hall).1
  have hunique {w x : Fin d.workers} {i : ℕ} (hw : (g.body w).task = some i)
      (hx : (g.body x).task = some i) : x = w :=
    worker_unique hexecuted hnodup ((hbody w i).mpr hw) ((hbody x i).mpr hx)
  have hprint {line : Line d.workers} {b' : Board d.workers} {g' : Program d.workers}
      (hg : g'.output = g.output ++ [line.text d])
      (ha : (console d).accept b line = some b') (hshows' : Shows g' (takenTasks log) b') :
      ∃ lines b, g'.output = lines.map (Line.text d) ∧ (console d).replay lines = some b ∧
        Shows g' (takenTasks log) b := by
    refine ⟨lines ++ [line], b', ?_, ?_, hshows'⟩
    · rw [hg, houtput, List.map_append]
      rfl
    · rw [Spec.replay_append _ hreplay]
      exact (Spec.replayFrom_singleton _).mpr ha
  cases t with
  | none =>
    simp only [Demo.tick] at hs
    split at hs
    · rename_i hcreated
      obtain rfl := Option.some.inj hs
      rw [show (q, g).2.main = g.main from rfl, hcreated] at hmain
      obtain ⟨b', ha, hshows'⟩ := hshows.opening hcreated
      exact ⟨⟨Nat.zero_le _, hmain⟩, hbody, hprint rfl ha hshows'⟩
    · cases hs
  | some w =>
    have htask {pc : Body} (hpc : pc.task = (g.body w).task) (x : Fin d.workers) (j : ℕ) :
        q.worker x = .running j ↔ ((g.goto w pc).body x).task = some j := by
      by_cases hx : x = w
      · subst hx
        simpa [hpc] using hbody x j
      · simpa [hx] using hbody x j
    simp only [Demo.tick] at hs
    split at hs
    · rename_i i hw
      obtain rfl := Option.some.inj hs
      have hwtask : (g.body w).task = some i := by rw [hw, Body.task]
      have htaken := mem_taken hexecuted ((hbody w i).mpr hwtask)
      have hmem : i ∈ List.range k := by
        rw [← hrange, hexecuted.inOrder]
        exact List.mem_append_left _ htaken
      have hi : i < d.tasks := Nat.lt_of_lt_of_le (List.mem_range.mp hmem) hk
      have hopen : g.main ≠ .created := by
        intro hcreated
        rw [show (q, g).2.main = g.main from rfl, hcreated] at hmain
        rw [← hrange, hmain.1] at hmem
        cases hmem
      obtain ⟨b', ha, hshows'⟩ := hshows.start hw
        (fun x hx => hunique hwtask (by rw [hx, Body.task])) htaken hi hopen
      refine ⟨hmain, htask (by rw [hw, Body.task, Body.task]), hprint rfl ha ?_⟩
      exact hshows'.congr Iff.rfl rfl
    · rename_i i hw
      obtain rfl := Option.some.inj hs
      have hwtask : (g.body w).task = some i := by rw [hw, Body.task]
      obtain ⟨b', ha, hshows'⟩ :=
        hshows.complete hw fun x hx => hunique hwtask (by rw [hx, Body.task])
      refine ⟨hmain, htask (by rw [hw, Body.task, Body.task]), hprint rfl ha ?_⟩
      exact hshows'.congr Iff.rfl rfl
    · cases hs

end Steps

section Runs
variable {s : State d.workers Unit ℕ × Program d.workers} {log : List (Event d.workers Unit ℕ)}
  {P : State d.workers Unit ℕ × Program d.workers → Label d.workers → Prop}

/-- The pool of the program, no task of which calls `enqueue`. -/
theorem pool_of_run (hrun : ((system d.workers Unit ℕ).drive (client d)).RunWhere P s log) :
    (system d.workers Unit ℕ).RunWhere ReturnsNormally s.1 log := by
  refine hrun.object fun s act hallows => ?_
  cases act with
  | enqueue c task caught =>
    cases c with
    | client t => trivial
    | task w => simp [client, allows] at hallows
  | notify _ _ | lock _ | resume _ | spurious _ | finish _ | destroy | notifyAll | join => trivial

theorem holds_of_run (hrun : ((system d.workers Unit ℕ).drive (client d)).RunWhere P s log) :
    Holds d s log := by
  refine hrun.invariant (I := Holds d) ?_ fun s log a s' evs hrun h _ hs => ?_
  · refine ⟨⟨rfl, rfl⟩, fun w i => ?_, [], (console d).init, rfl, rfl, ?_, ?_, ?_⟩
    · simp [drive, system, client, Body.task]
    · simp [console, drive, client]
    · simp [console, takenTasks]
    · exact fun w => rfl
  · have hpool := pool_of_run hrun
    have hexecuted := executed_of_run hpool
    cases a with
    | inl act =>
      obtain ⟨hallows, hstep, hreact⟩ := drive_inl.mp hs
      obtain ⟨q', g'⟩ := s'
      obtain rfl : g' = _ := hreact
      exact h.call hexecuted (placed_of_run hpool) (shutdown_of_run hpool) hallows hstep
    | inr t =>
      obtain ⟨htick, hsame, rfl⟩ := drive_inr.mp hs
      obtain ⟨q', g'⟩ := s'
      obtain rfl : q' = s.1 := hsame
      rw [List.append_nil]
      exact h.tick hexecuted htick

/-- However the workers, `main` and the destructor interleave, no `enqueue` throws and no thread
ends by an exception; the lines printed are those of an order in which `main` comes first and each
thread executes one task at a time, each task once; and when `main` returns all are completed. -/
theorem main_output (hrun : (program d).Run s log) :
    s.1.terminated = false ∧ s.2.main ≠ .threw ∧
    ∃ lines b, s.2.output = lines.map (Line.text d) ∧ (console d).replay lines = some b ∧
      (s.2.main = .returned →
        b.started = Finset.range d.tasks ∧ b.running = fun _ => none) := by
  have hprogram := RunWhere.of_restrict hrun
  have hpool := pool_of_run hprogram
  obtain ⟨hmain, hbody, lines, b, houtput, hreplay, hshows⟩ := holds_of_run hprogram
  refine ⟨running_of_run hpool, fun hthrew => ?_, lines, b, houtput, hreplay, fun hreturned => ?_⟩
  · rwa [hthrew] at hmain
  · rw [hreturned] at hmain
    have hshutdown := shutdown_of_run hpool
    have hidle (w : Fin d.workers) : (s.2.body w).task = none := by
      have hexited : s.1.worker w = .exited := hshutdown.joined w (by rw [hmain.2]; trivial)
      cases htask : (s.2.body w).task with
      | none => rfl
      | some i => simp [(hbody w i).mpr htask] at hexited
    obtain ⟨htasks, -⟩ := returned_of_run d.workers_pos hpool hmain.2
    have htaken : takenTasks log = List.range d.tasks := by
      have horder := (executed_of_run hpool).inOrder
      rwa [hmain.1, htasks, List.append_nil, eq_comm] at horder
    constructor
    · ext i
      rw [hshows.started i, htaken, List.mem_range, Finset.mem_range]
      refine and_iff_left fun w hw => ?_
      have hnone := hidle w
      rw [hw] at hnone
      cases hnone
    · funext w
      rw [hshows.running w]
      have hnone := hidle w
      cases hw : s.2.body w with
      | idle => rfl
      | starting i | sleeping i | returning i => simp [hw, Body.task] at hnone

end Runs

/-- Two threads, two tasks. -/
def twoTasks : Setup := ⟨2, 2, fun id => toString id.val, Nat.two_pos⟩

/-- Both tasks are under way at once, and the destructor waits for them. -/
def overlapping : List (Label 2) :=
  [.inr none, .inl (.enqueue (.client ()) 0 false), .inl (.lock first),
    .inl (.notify (.client ()) none), .inr (some first), .inl (.enqueue (.client ()) 1 false),
    .inl (.lock second), .inr (some second), .inl (.notify (.client ()) none), .inl .destroy,
    .inr (some second), .inl (.finish second), .inl .notifyAll, .inl (.lock second),
    .inr (some first), .inl (.finish first), .inl (.lock first), .inl .join, .inl .join,
    .inl .join]

theorem main_output_overlapping : ∃ s log lines b, (program twoTasks).Run s log ∧
    s.2.main = .returned ∧ s.2.output = lines.map (Line.text twoTasks) ∧
    (console twoTasks).replay lines = some b ∧ b.started = Finset.range 2 := by
  obtain ⟨s, log, hrun, hq⟩ := (program twoTasks).exists_run_of_exec (fun _ _ => True) overlapping
    (fun s _ => decide (s.2.main = .returned)) (by decide +kernel)
  have hreturned := of_decide_eq_true hq
  obtain ⟨-, -, lines, b, houtput, hreplay, hall⟩ := main_output hrun
  exact ⟨s, log, lines, b, hrun, hreturned, houtput, hreplay, (hall hreturned).1⟩

end ThreadPool.Demo
