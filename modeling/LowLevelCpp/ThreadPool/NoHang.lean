import LowLevelCpp.ThreadPool.Demo

/-! The program comes to its end: until `main` has returned some thread can take a step, because
the pool rests only with nothing left to do, and apart from spurious wakeups every step uses up
work. -/
namespace ThreadPool.Demo
open Foundations Foundations.System

variable {d : Setup} {q q' : State d.workers Unit ℕ} {g g' : Program d.workers}
  {log evs : List (Event d.workers Unit ℕ)} {w : Fin d.workers}

def spurious {n : ℕ} : Label n → Bool
  | .inl (.spurious _) => true
  | _ => false

/-- Some thread can take a step of its own accord. -/
def CanStep (d : Setup) (s : State d.workers Unit ℕ × Program d.workers) : Prop :=
  ∃ a s' evs, spurious a = false ∧ (program d).step s a = some (s', evs)

section Enabled

theorem canStep_of_call (act : Act d.workers Unit ℕ) (hact : spurious (.inl act) = false)
    (horder : InOrder (q, g) (.inl act)) (hallows : allows d g act = true)
    (hstep : step q act = some (q', evs)) : CanStep d (q, g) := by
  refine ⟨.inl act, (q', evs.foldl (react d) g), evs, hact, restrict_step.mpr ⟨horder, ?_⟩⟩
  exact drive_inl.mpr ⟨hallows, hstep, rfl⟩

theorem canStep_of_tick {t : Option (Fin d.workers)} (htick : tick d g t = some g') :
    CanStep d (q, g) :=
  ⟨.inr t, (q, g'), [], rfl, restrict_step.mpr ⟨trivial, drive_inr.mpr ⟨htick, rfl, rfl⟩⟩⟩

/-- What the pool can do by itself, the program allows, unless the task is not over yet: then the
task can go on. -/
theorem canStep_of_own (h : Holds d (q, g) log) {act : Act d.workers Unit ℕ}
    (hown : act.own = true) (hstep : step q act = some (q', evs)) : CanStep d (q, g) := by
  cases act with
  | notify c woken | lock w | resume w | notifyAll | join =>
    exact canStep_of_call _ rfl (by trivial) rfl hstep
  | finish w =>
    cases hw : g.body w with
    | starting i | sleeping i => exact canStep_of_tick (t := some w) (by simp only [tick, hw]; rfl)
    | returning i => exact canStep_of_call _ rfl (by trivial) (by simp [allows, hw]) hstep
    | idle =>
      cases step_moves hstep with
      | @finish w task hrunning _ =>
        have htask : (g.body w).task = some task := (h.body w task).mp hrunning
        simp [hw, Body.task] at htask
      | take he _ => cases he
      | wait he _ _ => cases he
      | exit he _ _ => cases he
  | enqueue _ _ _ | spurious _ | destroy => cases hown

theorem canStep_of_notifying (hrunning : q.terminated = false)
    (hc : .client () ∈ q.notifying) : CanStep d (q, g) := by
  obtain ⟨woken, condition, hn⟩ := q.condition.exists_notifyOne
  have hstep : step q (.notify (.client ()) woken) =
      some ({ q with condition, notifying := q.notifying.erase (.client ()) }, []) := by
    simp [step, hrunning, hc, hn]
  exact canStep_of_call (.notify (.client ()) woken) rfl trivial rfl hstep

theorem canStep_of_run {s : State d.workers Unit ℕ × Program d.workers}
    (hrun : (program d).Run s log) (hmain : s.2.main ≠ .returned) : CanStep d s := by
  obtain ⟨q, g⟩ := s
  have hprogram := RunWhere.of_restrict hrun
  have hpool := pool_of_run hprogram
  have h := holds_of_run hprogram
  have hrunning : q.terminated = false := running_of_run hpool
  have hagrees : g.main.Agrees d (acceptedTasks log) q.destructor := h.main
  cases hm : g.main with
  | created => exact canStep_of_tick (t := none) (by simp only [tick, hm]; rfl)
  | enqueueing i =>
    rw [hm] at hagrees
    obtain ⟨hle, -, halive⟩ := hagrees
    by_cases hc : .client () ∈ q.notifying
    · exact canStep_of_notifying hrunning hc
    · have hopen : q.stop = false := by
        have hstop := (shutdown_of_run hpool).stop_iff
        simpa [halive] using hstop
      rcases Nat.lt_or_eq_of_le hle with hlt | rfl
      · have hstep : step q (.enqueue (.client ()) i false) =
            some ({ q with
              tasks := q.tasks ++ [i]
              notifying := insert (.client ()) q.notifying }, [.accepted (.client ()) i]) := by
          simp [step, State.enqueue, State.CanCall, hrunning, hc, halive, hopen]
        exact canStep_of_call (.enqueue (.client ()) i false) rfl trivial
          (by simp [allows, hm, hlt]) hstep
      · have hstep : step q .destroy =
            some ({ q with stop := true, destructor := .stopped }, [.stopped]) := by
          simp [step, hrunning, halive]
        exact canStep_of_call .destroy rfl hc (by simp [allows, hm]) hstep
  | destroying =>
    rw [hm] at hagrees
    by_contra hstuck
    have hsettled : Settled q := by
      intro act q' evs hstep
      by_contra hown
      exact hstuck (canStep_of_own h (by simpa using hown) hstep)
    rcases (settled_of_run d.workers_pos hpool hsettled).2.2 with hd | hd
    · exact hagrees.2.1 hd
    · exact hagrees.2.2 hd
  | returned => exact absurd hm hmain
  | threw => rw [hm] at hagrees; exact hagrees.elim

end Enabled

/-- The lines that a task has still to print. -/
def Body.work : Body → ℕ
  | .starting _ => 2
  | .sleeping _ => 1
  | .idle | .returning _ => 0

/-- What `main` has still to bring to the pool. -/
def Main.work (d : Setup) : Main → ℕ
  | .created => 7 * d.tasks + 2 * d.workers + 4
  | .enqueueing i => 7 * (d.tasks - i) + 2 * d.workers + 3
  | .destroying | .returned | .threw => 0

/-- The work that is left. A task in the queue has its lines to print. -/
def work (d : Setup) (s : State d.workers Unit ℕ × Program d.workers) : ℕ :=
  s.1.work + 2 * s.1.tasks.length + ∑ w, (s.2.body w).work + s.2.main.work d

section Work

theorem body_work (g : Program d.workers) (w : Fin d.workers) (pc : Body) :
    ∑ x, ((g.goto w pc).body x).work + (g.body w).work = ∑ x, (g.body x).work + pc.work := by
  obtain ⟨m, hm, hm'⟩ := exists_sum_split (Finset.mem_univ w) (f := fun x => (g.body x).work)
    (k := fun x => ((g.goto w pc).body x).work) fun x _ hx => by
      rw [goto_body, Function.update_of_ne hx]
  rw [hm, hm', goto_body, Function.update_self]
  omega

/-- A step of the pool. -/
theorem work_call {act : Act d.workers Unit ℕ} (h : Holds d (q, g) log) (hplaced : Placed q)
    (hshutdown : Shutdown q) (hallows : allows d g act = true)
    (hs : step q act = some (q', evs)) :
    work d (q', evs.foldl (react d) g) + 1 ≤
      work d (q, g) + if spurious (.inl act : Label d.workers) then 2 else 0 := by
  have hwork := ThreadPool.work_step hplaced hs
  have hagrees : g.main.Agrees d (acceptedTasks log) q.destructor := h.main
  unfold work
  cases step_moves hs with
  | @accept c task caught hcall hopen =>
    cases c with
    | task w => simp [allows] at hallows
    | client t =>
      obtain ⟨⟨hloop, htask⟩, -⟩ : (g.main = .enqueueing task ∧ task < d.tasks) ∧
          caught = false := by simpa [allows] using hallows
      simp only [List.foldl, react, hloop, Main.work, List.length_append, List.length_singleton,
        Act.brings] at hwork ⊢
      omega
  | @reject c task caught hstop _ =>
    cases c with
    | task w => simp [allows] at hallows
    | client t =>
      obtain ⟨⟨hloop, -⟩, -⟩ : (g.main = .enqueueing task ∧ task < d.tasks) ∧
          caught = false := by simpa [allows] using hallows
      rw [hloop] at hagrees
      exact absurd hagrees.2.2 (hshutdown.stop_iff.mp hstop)
  | escape _ => simp [allows] at hallows
  | notify _ _ | notifyAll _ | join _ _ _ =>
    simp only [List.foldl, Act.brings] at hwork ⊢
    omega
  | @take w task rest s₀ act he hcons =>
    have hlength : q.tasks.length = rest.length + 1 := by
      rw [← he.tasks_eq, hcons, List.length_cons]
    have hbody := body_work g w (.starting task)
    simp only [List.foldl, react, goto_main, State.goto, Body.work, he.brings] at hwork hbody ⊢
    omega
  | @wait w s₀ act he _ _ | @exit w s₀ act he _ _ =>
    have htasks := he.tasks_eq
    simp only [List.foldl, react, State.goto, htasks, he.brings] at hwork ⊢
    omega
  | @spurious w hw =>
    simp only [List.foldl, spurious, Act.brings, if_true] at hwork ⊢
    omega
  | @finish w task hrunning _ =>
    have hbody := body_work g w .idle
    simp only [List.foldl, react, goto_main, State.goto, Body.work, Act.brings] at hwork hbody ⊢
    omega
  | destroy halive =>
    have hloop : g.main = .enqueueing d.tasks := by simpa [allows] using hallows
    simp only [List.foldl, react, hloop, Main.work, Act.brings] at hwork ⊢
    omega
  | returned hjoining _ =>
    simp only [List.foldl, react, Main.work, Act.brings] at hwork ⊢
    omega

/-- A step outside the pool. -/
theorem work_tick {t : Option (Fin d.workers)} (hs : tick d g t = some g') :
    work d (q, g') + 1 ≤ work d (q, g) := by
  unfold work
  cases t with
  | none =>
    simp only [tick] at hs
    split at hs
    · rename_i hcreated
      obtain rfl := Option.some.inj hs
      simp only [Program.print, hcreated, Main.work]
      omega
    · cases hs
  | some w =>
    simp only [tick] at hs
    split at hs
    · rename_i i hw
      obtain rfl := Option.some.inj hs
      have hbody := body_work (g.print d (.started i w)) w (.sleeping i)
      simp only [Program.print, goto_main, hw, Body.work] at hbody ⊢
      omega
    · rename_i i hw
      obtain rfl := Option.some.inj hs
      have hbody := body_work (g.print d (.completed i)) w (.returning i)
      simp only [Program.print, goto_main, hw, Body.work] at hbody ⊢
      omega
    · cases hs

theorem work_step {s s' : State d.workers Unit ℕ × Program d.workers} {a : Label d.workers}
    (hrun : (program d).Run s log) (hs : (program d).step s a = some (s', evs)) :
    work d s' + 1 ≤ work d s + if spurious a then 2 else 0 := by
  have hprogram := RunWhere.of_restrict hrun
  have hpool := pool_of_run hprogram
  obtain ⟨-, hs⟩ := restrict_step.mp hs
  obtain ⟨q, g⟩ := s
  obtain ⟨q', g'⟩ := s'
  cases a with
  | inl act =>
    obtain ⟨hallows, hstep, hreact⟩ := drive_inl.mp hs
    obtain rfl : g' = _ := hreact
    exact work_call (holds_of_run hprogram) (placed_of_run hpool) (shutdown_of_run hpool) hallows
      hstep
  | inr t =>
    obtain ⟨htick, hsame, -⟩ := drive_inr.mp hs
    obtain rfl : q' = q := hsame
    have hless : work d (q', g') + 1 ≤ work d (q', g) := work_tick htick
    exact Nat.le_trans hless (Nat.le_add_right _ _)

end Work

/-- The program comes to its end: apart from spurious wakeups, each of which adds two, its runs
have a bounded number of steps, and until `main` returns some thread can take one. -/
theorem main_ends {as : List (Label d.workers)}
    {s : State d.workers Unit ℕ × Program d.workers} (hrun : (program d).Labelled as s log) :
    as.length ≤ 7 * d.tasks + 3 * d.workers + 4 + 2 * as.countP spurious ∧
      (s.2.main ≠ .returned → CanStep d s) := by
  refine ⟨?_, canStep_of_run hrun.run⟩
  have hlength := LabelledFrom.length_le (fun s _ => work d s)
    (fun a => if spurious a then 2 else 0) (fun s log a s' evs hrun hs => work_step hrun hs) hrun
  have hinit : work d (program d).init = 7 * d.tasks + 3 * d.workers + 4 := by
    simp [work, program, restrict, drive, system, client, State.work, Worker.work, Body.work,
      Main.work, Destructor.work, CondVar.empty, CondVar.woken]
    omega
  rw [sum_map_ite, hinit] at hlength
  omega

/-- The destructor waits for the workers, and both tasks are under way. -/
theorem main_ends_overlapping : ∃ s log,
    (program twoTasks).Labelled (overlapping.take 10) s log ∧ s.2.main = .destroying ∧
      10 ≤ 24 + 2 * (overlapping.take 10).countP spurious ∧ CanStep twoTasks s := by
  obtain ⟨s, log, hrun, hq⟩ := (program twoTasks).exists_labelled_of_exec (program twoTasks).init
    (overlapping.take 10) (fun s _ => decide (s.2.main = .destroying)) (by decide +kernel)
  have hdestroying := of_decide_eq_true hq
  obtain ⟨hbound, hcan⟩ := main_ends hrun
  exact ⟨s, log, hrun, hdestroying, hbound, hcan (by simp [hdestroying])⟩

end ThreadPool.Demo
