import LowLevelCpp.Knocker.EpollTimer
import LowLevelCpp.Knocker.Intrusive

/-!
The reports of the two scanners with timeouts. `getsockopt` leaves `err` at `0` on a descriptor
that the sweep has closed, so the event of a connection that timed out in the same batch is
reported as an answer.
-/
namespace Knocker
open Foundations Foundations.System

/-- Each port is reported once at most, and only when connecting to it succeeded. -/
structure Truthful (env : Env) (log : List Event) : Prop where
  once : (answers log).Nodup
  sound : ∀ p ∈ answers log, env.outcome p = 0

/-- On a closed descriptor the report is always made. -/
theorem report_of_closed {env : Env} {k : Kernel} {fd : ℕ} (hfd : fd ∉ k.sockets) (p : ℕ) :
    report env k fd p = [.answered p] := by
  simp [report, Kernel.getsockopt, hfd]

/-- Handling an event that is not honest prints a false report. -/
theorem false_report {env : Env} {k : Kernel} {ev : BitVec 64} {rest : List (BitVec 64)}
    (hfalse : ¬ Scanner.NextHonest env k (ev :: rest)) (log : List Event) :
    ¬ Truthful env (log ++ (report env k (unpackFd ev) (unpackPort ev) ++
      [.retired (unpackFd ev)])) := by
  intro htruthful
  refine hfalse fun ev' hev' hport => ?_
  obtain rfl : ev = ev' := by simpa using hev'
  by_contra hnot
  obtain ⟨hclosed, houtcome⟩ := not_or.mp hnot
  refine houtcome (htruthful.sound _ ?_)
  rw [report_of_closed hclosed, answers_append]
  exact List.mem_append_right _ List.mem_cons_self

theorem truthful_of_scanner {env : TimerEnv} {s : Scanner.State} {log : List Event}
    (hrun : (Scanner.system env.toEnv {env.timer_fd}).RunWhere (Scanner.Honest env.toEnv) s log) :
    Truthful env.toEnv log :=
  ⟨Scanner.answered_once env.timers hrun, Scanner.answers_sound env.timers hrun⟩

namespace EpollTimer

/-- The next socket event is handled while its descriptor is open, or its port answers. -/
def NextHonest (env : TimerEnv) (s : State) (_ : Act) : Prop :=
  Scanner.NextHonest env.toEnv s.kernel s.phase.events

instance (env : TimerEnv) (s : State) (act : Act) : Decidable (NextHonest env s act) :=
  inferInstanceAs (Decidable (Scanner.NextHonest _ _ _))

section Runs
variable {env : TimerEnv} {clock : ℤ} {s s' : State} {log evs : List Event} {act : Act}

theorem answered_once (hrun : (system env clock).Run s log) : (answers log).Nodup :=
  Scanner.answered_once env.timers (toScanner_run (Q := fun _ _ => True) (fun _ _ _ => trivial)
    (fun _ _ _ => trivial) hrun)

theorem truthful_of_run (hrun : (system env clock).RunWhere (NextHonest env) s log) :
    Truthful env.toEnv log := by
  refine truthful_of_scanner (toScanner_run (fun _ _ hp => hp) (fun t a ha => ?_) hrun)
  cases a with
  | ready => exact absurd rfl ha
  | attempt fd res => trivial
  | abandon fd => trivial
  | wait fds => trivial
  | timer => trivial
  | expire fd => trivial

theorem not_truthful (hfalse : ¬ NextHonest env s act) (hs : step env s act = some (s', evs)) :
    ¬ Truthful env.toEnv (log ++ evs) := by
  have hnext : s.phase.events ≠ [] := fun hnil =>
    hfalse (by simp [NextHonest, Scanner.NextHonest, hnil])
  cases step_moves hs with
  | control hphase _ => exact absurd hphase hnext
  | @ready ev rest hphase hport =>
    rw [NextHonest, hphase] at hfalse
    exact false_report hfalse log
  | attempt hphase _ _ => exact absurd (by rw [hphase]; rfl) hnext
  | abandon hphase _ => exact absurd (by rw [hphase]; rfl) hnext
  | wait hphase _ => exact absurd (by rw [hphase]; rfl) hnext
  | @timer ev rest closed socks now hphase hport =>
    refine absurd (fun ev' hev' hport' => ?_) hfalse
    obtain rfl : ev = ev' := by simpa [hphase, Phase.events] using hev'
    exact absurd hport hport'

end Runs
end EpollTimer

namespace Intrusive

/-- The next socket event is handled while its descriptor is open, or its port answers. -/
def NextHonest (env : TimerEnv) (s : State) (_ : Act) : Prop :=
  Scanner.NextHonest env.toEnv s.kernel s.phase.next

instance (env : TimerEnv) (s : State) (act : Act) : Decidable (NextHonest env s act) :=
  inferInstanceAs (Decidable (Scanner.NextHonest _ _ _))

section Runs
variable {env : TimerEnv} {max_fd : ℕ} {clock : ℤ} {s s' : State} {log evs : List Event}
  {act : Act}

theorem answered_once (hrun : (system env max_fd clock).Run s log) : (answers log).Nodup :=
  Scanner.answered_once env.timers (toScanner_run (Q := fun _ _ => True)
    (fun _ _ _ _ => trivial) (fun _ _ _ _ _ _ _ _ => trivial) (fun _ _ _ _ => trivial) hrun)

theorem truthful_of_run (hrun : (system env max_fd clock).RunWhere (NextHonest env) s log) :
    Truthful env.toEnv log := by
  refine truthful_of_scanner (toScanner_run (fun s _ hp hnext => ?_)
    (fun _ _ _ _ _ _ _ _ => trivial) (fun t a ha _ => ?_) hrun)
  · change Scanner.NextHonest env.toEnv s.kernel s.phase.events
    rwa [← hnext]
  · cases a with
    | ready => exact absurd rfl ha
    | attempt fd res => trivial
    | abandon fd => trivial
    | wait fds => trivial
    | timer => trivial
    | expire fd => trivial

theorem not_truthful (hfalse : ¬ NextHonest env s act)
    (hs : step env max_fd s act = some (s', evs)) : ¬ Truthful env.toEnv (log ++ evs) := by
  have hnext : s.phase.next ≠ [] := fun hnil =>
    hfalse (by simp [NextHonest, Scanner.NextHonest, hnil])
  cases step_moves hs with
  | control hnil _ _ => exact absurd hnil hnext
  | finish hphase _ _ => exact absurd (by rw [hphase]; rfl) hnext
  | @ready ev rest s' hphase hport _ =>
    rw [NextHonest, hphase] at hfalse
    exact false_report hfalse log
  | @pulse ev rest now hphase hport =>
    refine absurd (fun ev' hev' hport' => ?_) hfalse
    obtain rfl : ev = ev' := by simpa [hphase, Phase.next] using hev'
    exact absurd hport hport'
  | expire hphase _ _ => exact absurd (by rw [hphase]; rfl) hnext
  | attempt hphase _ _ => exact absurd (by rw [hphase]; rfl) hnext
  | abandon hphase _ => exact absurd (by rw [hphase]; rfl) hnext
  | wait hphase _ => exact absurd (by rw [hphase]; rfl) hnext

end Runs
end Intrusive

/-- Both scanners report a port once at most; while no event of a port that does not answer is
handled on a closed descriptor their reports are true, and a step that handles one is exactly
the step that makes a false one. -/
theorem answers_truthful (env : TimerEnv) (max_fd : ℕ) (clock : ℤ) :
    (∀ s log, (EpollTimer.system env clock).Run s log → (answers log).Nodup) ∧
    (∀ s log, (EpollTimer.system env clock).RunWhere (EpollTimer.NextHonest env) s log →
      Truthful env.toEnv log ∧
      ∀ act s' evs, (EpollTimer.system env clock).step s act = some (s', evs) →
        (Truthful env.toEnv (log ++ evs) ↔ EpollTimer.NextHonest env s act)) ∧
    (∀ s log, (Intrusive.system env max_fd clock).Run s log → (answers log).Nodup) ∧
    ∀ s log, (Intrusive.system env max_fd clock).RunWhere (Intrusive.NextHonest env) s log →
      Truthful env.toEnv log ∧
      ∀ act s' evs, (Intrusive.system env max_fd clock).step s act = some (s', evs) →
        (Truthful env.toEnv (log ++ evs) ↔ Intrusive.NextHonest env s act) := by
  refine ⟨fun s log hrun => EpollTimer.answered_once hrun, fun s log hrun => ⟨?_, ?_⟩,
    fun s log hrun => Intrusive.answered_once hrun, fun s log hrun => ⟨?_, ?_⟩⟩
  · exact EpollTimer.truthful_of_run hrun
  · refine fun act s' evs hs => ⟨fun htruthful => ?_, fun hp => ?_⟩
    · by_contra hfalse
      exact EpollTimer.not_truthful hfalse hs htruthful
    · exact EpollTimer.truthful_of_run (hrun.step hp hs)
  · exact Intrusive.truthful_of_run hrun
  · refine fun act s' evs hs => ⟨fun htruthful => ?_, fun hp => ?_⟩
    · by_contra hfalse
      exact Intrusive.not_truthful hfalse hs htruthful
    · exact Intrusive.truthful_of_run (hrun.step hp hs)

/-- One port that answers within the time limit. -/
def quickPort : TimerEnv := { Intrusive.slowPort with outcome := fun _ => 0 }

theorem answers_truthful_quickPort :
    (∃ s log, (EpollTimer.system quickPort 0).RunWhere (EpollTimer.NextHonest quickPort) s log ∧
      answers log = [80] ∧ Truthful quickPort.toEnv log) ∧
    ∃ s log, (Intrusive.system quickPort 16 0).RunWhere (Intrusive.NextHonest quickPort) s log ∧
      answers log = [80] ∧ Truthful quickPort.toEnv log := by
  obtain ⟨-, htimer, -, hintrusive⟩ := answers_truthful quickPort 16 0
  constructor
  · obtain ⟨s, log, hrun, hq⟩ := (EpollTimer.system quickPort 0).exists_run_of_exec
      (EpollTimer.NextHonest quickPort)
      [.tick, .connect 5 .inProgress 0, .tick, .wait [5, 4], .tick, .timer 500000000 []]
      (fun _ log => decide (answers log = [80])) (by decide +kernel)
    exact ⟨s, log, hrun, of_decide_eq_true hq, (htimer s log hrun).1⟩
  · obtain ⟨s, log, hrun, hq⟩ := (Intrusive.system quickPort 16 0).exists_run_of_exec
      (Intrusive.NextHonest quickPort)
      [.tick, .connect 5 .inProgress 0, .tick, .wait [5, 4], .tick, .timer 500000000]
      (fun _ log => decide (answers log = [80])) (by decide +kernel)
    exact ⟨s, log, hrun, of_decide_eq_true hq, (hintrusive s log hrun).1⟩

/-- The port that refuses the connection is reported by both scanners. -/
theorem timed_out_port_answers :
    (¬ ∀ (env : TimerEnv) (clock : ℤ) (s : EpollTimer.State) (log : List Event),
      (EpollTimer.system env clock).Run s log → Truthful env.toEnv log) ∧
    ¬ ∀ (env : TimerEnv) (max_fd : ℕ) (clock : ℤ) (s : Intrusive.State) (log : List Event),
      (Intrusive.system env max_fd clock).Run s log → Truthful env.toEnv log := by
  constructor
  · intro htruthful
    obtain ⟨s, log, hrun, hq⟩ := (EpollTimer.system Intrusive.slowPort 0).exists_run_of_exec
      (fun _ _ => True)
      [.tick, .connect 5 .inProgress 0, .tick, .wait [4, 5], .timer 2000000001 [5], .tick]
      (fun _ log => decide (80 ∈ answers log)) (by decide +kernel)
    have hsound := (htruthful _ _ _ _ hrun).sound 80 (of_decide_eq_true hq)
    exact absurd hsound (by decide)
  · intro htruthful
    obtain ⟨s, log, hrun, hq⟩ := (Intrusive.system Intrusive.slowPort 16 0).exists_run_of_exec
      (fun _ _ => True)
      Intrusive.lateAnswer (fun _ log => decide (80 ∈ answers log)) (by decide +kernel)
    have hsound := (htruthful _ _ _ _ _ hrun).sound 80 (of_decide_eq_true hq)
    exact absurd hsound (by decide)

end Knocker
